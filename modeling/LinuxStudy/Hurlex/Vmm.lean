import LinuxStudy.Lib.Bytes
import LinuxStudy.Lib.Proc

/-!
# Physical pages and page tables of the hurlex kernel

`mm/pmm.c` keeps the free physical pages on a stack; `mm/vmm.c` maps pages in `pgd_kern`, with page
tables from that stack. The kernel reaches a page table through the linear map of
  the first 512 MB at
`PAGE_OFFSET`, which is itself in the page tables `pte_kern`. Memory is physical,
  byte by byte; every
access to a virtual address goes through the tables, and one to an address without a mapping is a
page fault, which stops the kernel (`none`), as a failed assertion does.
-/

namespace LinuxStudy.Hurlex

open Function (update)

abbrev Word := BitVec 32

structure Kernel where
  /-- `pmm_stack[pmm_stack_top]` down to `pmm_stack[1]`. -/
  pmmStack : List Word
  pgdKern : ℕ → Word
  /-- Physical memory. -/
  mem : ByteMem
  heapMax : Word
  heapFirst : Word

abbrev KernM := Proc Kernel

/-! ### Constants and macros -/

def pmmMaxSize : Word := 0x20000000#32

/-- `PAGE_MAX_SIZE`. -/
def pageMaxSize : ℕ := 0x20000

def pageOffset : Word := 0xC0000000#32
def pagePresent : Word := 0x1#32
def pageWrite : Word := 0x2#32
def pageSize : Word := 4096#32
def pageMask : Word := 0xFFFFF000#32

def pgdIndex (x : Word) : ℕ := ((x >>> 22) &&& 0x3FF#32).toNat
def pteIndex (x : Word) : ℕ := ((x >>> 12) &&& 0x3FF#32).toNat
def offsetIndex (x : Word) : ℕ := (x &&& 0xFFF#32).toNat

namespace Kernel

/-- The page table entry for an address, if its page table is present. -/
def pte (k : Kernel) (va : Word) : Option Word :=
  let pde := k.pgdKern (pgdIndex va)
  if pde &&& pagePresent = 0#32 then none
  else some (k.mem.word ((pde &&& pageMask).toNat + 4 * pteIndex va))

/-- The physical address for a virtual one. -/
def translate (k : Kernel) (va : Word) : Option ℕ := do
  let pte ← k.pte va
  if pte &&& pagePresent = 0#32 then none else some ((pte &&& pageMask).toNat + offsetIndex va)

/-- The word at a virtual address; its bytes may lie in two pages. -/
def word (k : Kernel) (va : Word) : Option Word := do
  let p0 ← k.translate va
  let p1 ← k.translate (va + 1#32)
  let p2 ← k.translate (va + 2#32)
  let p3 ← k.translate (va + 3#32)
  some (k.mem p3 ++ k.mem p2 ++ k.mem p1 ++ k.mem p0)

end Kernel

def loadw (va : Word) : KernM Word := fun k => (k.word va).map (·, k)

/-- A store of one byte. -/
def storeb (va : Word) (b : BitVec 8) : KernM Unit := fun k => do
  let p ← k.translate va
  some ((), { k with mem := update k.mem p b })

/-- A store of a word. All its bytes are translated before the first is written. -/
def storew (va w : Word) : KernM Unit := fun k => do
  let p0 ← k.translate va
  let p1 ← k.translate (va + 1#32)
  let p2 ← k.translate (va + 2#32)
  let p3 ← k.translate (va + 3#32)
  some ((), { k with mem := update (update (update (update k.mem
    p0 (w.extractLsb' 0 8)) p1 (w.extractLsb' 8 8)) p2 (w.extractLsb' 16 8)) p3 (w.extractLsb' 24 8)
    })

/-- `bzero(p, PAGE_SIZE)` for a page `p`. -/
def bzeroPage (p : Word) : KernM Unit := fun k => do
  let pa ← k.translate p
  some ((), { k with mem := k.mem.overwrite pa 4096 fun _ => 0#8 })

/-! ### Pages -/

/-- `pmm_alloc_page`. -/
def pmmAllocPage : KernM Word := fun k =>
  match k.pmmStack with
  | [] => none
  | page :: rest => some (page, { k with pmmStack := rest })

/-- `pmm_free_page`. -/
def pmmFreePage (p : Word) : KernM Unit := do
  Proc.require ((← get).pmmStack.length ≠ pageMaxSize)
  modify fun k => { k with pmmStack := p :: k.pmmStack }

/-- The virtual address of the page table for `va` that `pgd_kern` refers to, if there is one. -/
def Kernel.table (k : Kernel) (va : Word) : Option Word :=
  let pte := k.pgdKern (pgdIndex va) &&& pageMask
  if pte = 0#32 then none else some (pte + pageOffset)

/-- `&pte[pte_idx]`. -/
def pteSlot (pte va : Word) : Word := pte + BitVec.ofNat 32 (4 * pteIndex va)

/-- The page table for `va`; a new one if there is none. -/
def makeTable (va : Word) : KernM Word := do
  match (← get).table va with
  | some pte => pure pte
  | none =>
    let pte ← pmmAllocPage
    modify fun k => { k with
      pgdKern := update k.pgdKern (pgdIndex va) (pte ||| pagePresent ||| pageWrite) }
    bzeroPage (pte + pageOffset)
    pure (pte + pageOffset)

/-- `map(pgd_kern, va, pa, flags)`. -/
def map (va pa flags : Word) : KernM Unit := do
  let pte ← makeTable va
  storew (pteSlot pte va) (pa &&& pageMask ||| flags)

/-- `unmap(pgd_kern, va)`. -/
def unmap (va : Word) : KernM Unit := do
  match (← get).table va with
  | none => pure ()
  | some pte => storew (pteSlot pte va) 0#32

/-- `get_mapping(pgd_kern, va, &page)`: the page, or nothing where it returns 0. -/
def getMapping (va : Word) : KernM (Option Word) := do
  match (← get).table va with
  | none => pure none
  | some pte =>
    let w ← loadw (pteSlot pte va)
    pure (if w ≠ 0#32 then some (w &&& pageMask) else none)

end LinuxStudy.Hurlex
