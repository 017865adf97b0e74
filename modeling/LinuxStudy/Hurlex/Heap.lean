import LinuxStudy.Hurlex.Vmm

/-!
# The kernel heap of hurlex

`mm/heap.c`. The heap is cut into chunks from `HEAP_START` on,
  each with a header that links it to the
chunk before and the chunk after it. `kmalloc` takes the first free chunk that is large enough and
cuts off what it does not need, or else puts a new chunk after the last; `kfree` joins a chunk with
free neighbours and gives the pages behind the last chunk back.
-/

namespace LinuxStudy.Hurlex

def heapStart : Word := 0xE0000000#32

/-- `sizeof(header_t)`. -/
def headerSize : Word := 12#32

/-! ### Fields of a header -/

def prev (h : Word) : KernM Word := loadw h

def next (h : Word) : KernM Word := loadw (h + 4#32)

/-- `h->allocated`, the lowest bit of the third word. -/
def allocated (h : Word) : KernM Word := do pure ((← loadw (h + 8#32)) &&& 1#32)

/-- `h->length`, the other 31 bits. -/
def length (h : Word) : KernM Word := do pure ((← loadw (h + 8#32)) >>> 1)

def setPrev (h w : Word) : KernM Unit := storew h w

def setNext (h w : Word) : KernM Unit := storew (h + 4#32) w

def setAllocated (h b : Word) : KernM Unit := do
  let w ← loadw (h + 8#32)
  storew (h + 8#32) (w &&& ~~~1#32 ||| b &&& 1#32)

def setLength (h len : Word) : KernM Unit := do
  let w ← loadw (h + 8#32)
  storew (h + 8#32) (w &&& 1#32 ||| len <<< 1)

/-! ### Chunks -/

/-- One turn of the loop in `alloc_chunk`. -/
def growPage : KernM Unit := do
  let page ← pmmAllocPage
  map (← get).heapMax page (pagePresent ||| pageWrite)
  modify fun k => { k with heapMax := k.heapMax + pageSize }

/-- `while (limit > heap_max)`. Every turn takes a page from the stack. -/
def allocLoop (limit : Word) : ℕ → KernM Unit
  | 0 => Proc.fail
  | n + 1 => do
    if limit > (← get).heapMax then
      growPage
      allocLoop limit n

/-- `alloc_chunk`. -/
def allocChunk (start len : Word) : KernM Unit := do
  allocLoop (start + len) ((← get).pmmStack.length + 1)

/-- One turn of the loop in `free_chunk`. Without a mapping the page given back would be an
    uninitialised variable. -/
def shrinkPage : KernM Unit := do
  modify fun k => { k with heapMax := k.heapMax - pageSize }
  match ← getMapping (← get).heapMax with
  | none => Proc.fail
  | some page =>
    unmap (← get).heapMax
    pmmFreePage page

/-- `while ((heap_max - PAGE_SIZE) >= (uint32_t)chunk)`. Every turn puts a page on the stack, which
    has room for `PAGE_MAX_SIZE`. -/
def freeLoop (chunk : Word) : ℕ → KernM Unit
  | 0 => Proc.fail
  | n + 1 => do
    if (← get).heapMax - pageSize ≥ chunk then
      shrinkPage
      freeLoop chunk n

/-- `free_chunk`. -/
def freeChunk (chunk : Word) : KernM Unit := do
  let p ← prev chunk
  if p = 0#32 then modify fun k => { k with heapFirst := 0#32 } else setNext p 0#32
  freeLoop chunk (pageMaxSize + 1)

/-- `split_chunk`. -/
def splitChunk (chunk len : Word) : KernM Unit := do
  if (← length chunk) - len > headerSize then
    let newchunk := chunk + len
    setPrev newchunk chunk
    setNext newchunk (← next chunk)
    setAllocated newchunk 0#32
    setLength newchunk ((← length chunk) - len)
    setNext chunk newchunk
    setLength chunk len

/-- The first part of `glue_chunk`: join a chunk with a free one after it. -/
def glueNext (chunk : Word) : KernM Unit := do
  let n ← next chunk
  if n ≠ 0#32 then
    if (← allocated n) = 0#32 then
      setLength chunk ((← length chunk) + (← length n))
      let nn ← next n
      Proc.when (nn ≠ 0#32) (setPrev nn chunk)
      setNext chunk (← next n)

/-- The second part: join it with a free one before it. Returns the chunk it is then part of. -/
def gluePrev (chunk : Word) : KernM Word := do
  let p ← prev chunk
  if p ≠ 0#32 then
    if (← allocated p) = 0#32 then
      setLength p ((← length p) + (← length chunk))
      setNext p (← next chunk)
      let n ← next chunk
      Proc.when (n ≠ 0#32) do setPrev n (← prev chunk)
      prev chunk
    else pure chunk
  else pure chunk

/-- `glue_chunk`. -/
def glueChunk (chunk : Word) : KernM Unit := do
  glueNext chunk
  let chunk ← gluePrev chunk
  if (← next chunk) = 0#32 then freeChunk chunk

/-- The loop of `kmalloc`: the first free chunk of at least `len` bytes, or 0, and the chunk before.
    It only reads, and after 2^32 turns it is at a chunk it has seen. -/
def findChunk (len : Word) : ℕ → Word → Word → KernM (Word × Word)
  | 0, _, _ => Proc.fail
  | n + 1, cur, before => do
    if cur = 0#32 then pure (cur, before)
    else
      if (← allocated cur) = 0#32 then
        if (← length cur) ≥ len then pure (cur, before)
        else findChunk len n (← next cur) cur
      else findChunk len n (← next cur) cur

/-- `chunk_start`, for a new chunk after `before`; the first chunk of all becomes `heap_first`. -/
def newStart (before : Word) : KernM Word := do
  if before ≠ 0#32 then
    pure (before + (← length before))
  else
    modify fun k => { k with heapFirst := heapStart }
    pure heapStart

/-- `kmalloc`. -/
def kmalloc (size : Word) : KernM Word := do
  let len := size + headerSize
  let (cur, before) ← findChunk len (2 ^ 32) (← get).heapFirst 0#32
  if cur ≠ 0#32 then
    splitChunk cur len
    setAllocated cur 1#32
    pure (cur + headerSize)
  else
    let chunkStart ← newStart before
    allocChunk chunkStart len
    setPrev chunkStart before
    setNext chunkStart 0#32
    setAllocated chunkStart 1#32
    setLength chunkStart len
    Proc.when (before ≠ 0#32) (setNext before chunkStart)
    pure (chunkStart + headerSize)

/-- `kfree`. -/
def kfree (p : Word) : KernM Unit := do
  let header := p - headerSize
  setAllocated header 0#32
  glueChunk header

/-! ### Boot -/

/-- An entry of the memory map of the boot loader: its type and the low words of its base and
    length. -/
structure MmapEntry where
  type : Word
  baseAddrLow : Word
  lengthLow : Word

/-- The loop of `init_pmm` over the pages of an entry. -/
def freePages (length : Word) : ℕ → Word → KernM Unit
  | 0, _ => Proc.fail
  | n + 1, pageAddr => do
    if pageAddr < length ∧ pageAddr ≤ pmmMaxSize then
      pmmFreePage pageAddr
      freePages length n (pageAddr + pageSize)

/-- `init_pmm` for a kernel of `size` bytes. -/
def initPmm (size : Word) : List MmapEntry → KernM Unit
  | [] => pure ()
  | e :: es => do
    Proc.when (e.type = 1#32 ∧ e.baseAddrLow = 0x100000#32)
      (freePages (e.baseAddrLow + e.lengthLow) (pageMaxSize + 1) (e.baseAddrLow + size))
    initPmm size es

/-- `init_vmm`, with `pte_kern` at the physical address `pteKern`. -/
def initVmm (pteKern : ℕ) : KernM Unit := modify fun k => { k with
  pgdKern := fun i => if 768 ≤ i ∧ i < 896 then
    BitVec.ofNat 32 (pteKern + 4096 * (i - 768)) ||| pagePresent ||| pageWrite else k.pgdKern i
  mem := k.mem.overwrite (pteKern + 4) (0x80000 - 4) fun x =>
    ByteMem.wordByte (BitVec.ofNat 32 ((x - pteKern) / 4) <<< 12 ||| pagePresent ||| pageWrite)
      ((x - pteKern) / 4 * 4 + pteKern) x }

/-- `init_heap`. -/
def initHeap : KernM Unit := modify fun k => { k with heapFirst := 0#32 }

end LinuxStudy.Hurlex
