import LinuxStudy.Jos.UserMem
import LinuxStudy.Lib.Bytes
import LinuxStudy.Lib.Proc

/-!
# The block cache of `fs/bc.c`

The file server sees the disk as an array of bytes from `DISKMAP` on. A page of that array is
read from the disk by `bc_pgfault` when it is touched first, and written back by
`flush_block`. Everything the server does to the disk goes through `touch`, which stands for
the page fault an access may take, and `store`, which also stands for the dirty bit the
processor sets.

A procedure fails where the source panics. Page-table entries of the disk map are `uvpt`,
by page number; a missing page table counts as entries that are zero. `sys_page_alloc`,
`ide_read` and `ide_write` succeed, and the accessed bit is not modelled.
-/

namespace LinuxStudy.Fs

open Jos

/-- `PTE_D`, which the processor sets when it writes to a page. -/
def pteD : Word := 0x040#32

def blksize : ℕ := 4096
def diskmap : ℕ := 0x10000000
def disksize : ℕ := 0xC0000000

/-- An address in the disk map. -/
def InMap (a : ℕ) : Prop := diskmap ≤ a ∧ a < diskmap + disksize

instance (a : ℕ) : Decidable (InMap a) := inferInstanceAs (Decidable (_ ∧ _))

/-- A call of `memmove`. -/
structure Move where
  dst : ℕ
  src : ℕ
  n : ℕ
  deriving DecidableEq, Repr

structure Server where
  mem : ByteMem
  /-- Page-table entries of the disk map, by page number. -/
  uvpt : ℕ → Word
  /-- The disk, each byte at the address it has in the disk map. -/
  disk : ByteMem
  /-- The pointer `super` is set. -/
  super : Bool
  /-- The pointer `bitmap` is set. -/
  bitmap : Bool
  /-- The calls of `memmove` so far. -/
  moves : List Move

abbrev FsM := Proc Server

/-- `&super->s_nblocks`. -/
def sNblocks : ℕ := diskmap + blksize + 4

/-- `&super->s_root`. -/
def sRoot : ℕ := diskmap + blksize + 8

/-- `&bitmap[blockno/32]`. -/
def bitmapAddr (blockno : Word) : ℕ := diskmap + 2 * blksize + 4 * (blockno.toNat / 32)

/-- `1 << (blockno % 32)`. -/
def bitmapBit (blockno : Word) : Word := 1#32 <<< (blockno.toNat % 32)

namespace Server

variable (s : Server)

/-- `va_is_mapped`, for a page of the disk map. -/
def Mapped (pn : ℕ) : Prop := has (s.uvpt pn) pteP

/-- `va_is_dirty`. -/
def Dirty (pn : ℕ) : Prop := has (s.uvpt pn) pteD

instance (pn : ℕ) : Decidable (s.Mapped pn) := inferInstanceAs (Decidable (has _ _))
instance (pn : ℕ) : Decidable (s.Dirty pn) := inferInstanceAs (Decidable (has _ _))

/-- What a load at an address gives: the cached page if there is one, and the disk. -/
def view : ByteMem := fun a => if InMap a ∧ ¬ s.Mapped (a / 4096) then s.disk a else s.mem a

/-- `sys_page_alloc(0, addr, PTE_P|PTE_W|PTE_U)`. -/
def sysPageAlloc (pn : ℕ) : Server :=
  { s with mem := s.mem.overwrite (pn * 4096) 4096 fun _ => 0#8
           uvpt := Function.update s.uvpt pn (pteP ||| pteW ||| pteU) }

/-- `ide_read` of a block into its page, which the stores of `insl` make dirty. -/
def ideRead (pn : ℕ) : Server :=
  { s with mem := s.mem.overwrite (pn * 4096) 4096 s.disk
           uvpt := Function.update s.uvpt pn (s.uvpt pn ||| pteD) }

def ideWrite (pn : ℕ) : Server := { s with disk := s.disk.overwrite (pn * 4096) 4096 s.mem }

/-- `sys_page_map(0, addr, 0, addr, uvpt[PGNUM(addr)] & PTE_SYSCALL)`. -/
def sysPageMap (pn : ℕ) : Server :=
  { s with uvpt := Function.update s.uvpt pn (s.uvpt pn &&& pteSyscall ||| pteP) }

/-- A store by the processor into pages that are mapped. -/
def put (a n : ℕ) (g : ℕ → Byte) : Server :=
  { s with mem := s.mem.overwrite a n g
           uvpt := fun pn => if 0 < n ∧ a / 4096 ≤ pn ∧ pn * 4096 < a + n then s.uvpt pn ||| pteD
             else s.uvpt pn }

end Server

/-! ### Page faults -/

/-- An access, with what a page fault does. -/
def touchBy (fault : ℕ → FsM Unit) (a : ℕ) : FsM Unit := fun s =>
  if InMap a ∧ ¬ s.Mapped (a / 4096) then fault a s else some ((), s)

/-- `block_is_free`, with what a page fault does. -/
def blockIsFreeBy (fault : ℕ → FsM Unit) (blockno : Word) : FsM Bool := do
  if (← get).super = false then pure false
  else
    touchBy fault sNblocks
    if ¬ blockno < (← get).mem.word sNblocks then pure false
    else
      touchBy fault (bitmapAddr blockno)
      pure (decide (has ((← get).mem.word (bitmapAddr blockno)) (bitmapBit blockno)))

/-- `bc_pgfault`. Its own accesses may fault in turn, as often as there is room for on the
    exception stack. -/
def bcPgfault : ℕ → ℕ → FsM Unit
  | 0, _ => Proc.fail
  | depth + 1, addr => do
    let blockno : Word := BitVec.ofNat 32 ((addr - diskmap) / blksize)
    Proc.require (InMap addr)
    Proc.when ((← get).super = true) do
      touchBy (bcPgfault depth) sNblocks
      Proc.require (blockno < (← get).mem.word sNblocks)
    modify (·.sysPageAlloc (addr / 4096))
    modify (·.ideRead (addr / 4096))
    modify (·.sysPageMap (addr / 4096))
    Proc.when ((← get).bitmap = true) do
      Proc.require ((← blockIsFreeBy (bcPgfault depth) blockno) = false)

/-- With block 1 in the cache, a fault takes a fault on a block of the bitmap, and that one a
    fault on block 2, at most. -/
def faultDepth : ℕ := 3

def touch (a : ℕ) : FsM Unit := touchBy (bcPgfault faultDepth) a

def blockIsFree (blockno : Word) : FsM Bool := blockIsFreeBy (bcPgfault faultDepth) blockno

/-! ### Accesses of the server -/

/-- Touch `n` pages from the address `a` on. -/
def touchPages : ℕ → ℕ → FsM Unit
  | 0, _ => pure ()
  | n + 1, a => do
    touch a
    touchPages n (a + 4096)

/-- Touch the pages of a range. -/
def touchRange (a n : ℕ) : FsM Unit :=
  if n = 0 then pure () else touchPages ((a + n - 1) / 4096 - a / 4096 + 1) (a / 4096 * 4096)

def loadb (a : ℕ) : FsM Byte := do
  touch a
  pure ((← get).mem a)

def loadw (a : ℕ) : FsM Word := do
  touchRange a 4
  pure ((← get).mem.word a)

/-- Store the bytes `g` in a range. -/
def store (a n : ℕ) (g : ℕ → Byte) : FsM Unit := do
  touchRange a n
  modify (·.put a n g)

def storeb (a : ℕ) (b : Byte) : FsM Unit := store a 1 fun _ => b

def storew (a : ℕ) (w : Word) : FsM Unit := store a 4 (ByteMem.wordByte w a)

/-- `memset(v, 0, n)`. -/
def memset0 (a n : ℕ) : FsM Unit := store a n fun _ => 0#8

def memmove (dst src n : ℕ) : FsM Unit := do
  modify fun s => { s with moves := s.moves ++ [⟨dst, src, n⟩] }
  touchRange src n
  let m := (← get).mem
  store dst n fun x => m (src + (x - dst))

/-! ### `fs/bc.c`, `fs_sync` -/

/-- The address computed by `diskaddr`, in 32-bit arithmetic. -/
def blkaddr (blockno : Word) : ℕ := (BitVec.ofNat 32 diskmap + blockno * 4096#32).toNat

def diskaddr (blockno : Word) : FsM ℕ := do
  Proc.require (blockno ≠ 0#32)
  Proc.when ((← get).super = true) do
    Proc.require (blockno < (← loadw sNblocks))
  pure (blkaddr blockno)

def flushBlock (addr : ℕ) : FsM Unit := do
  Proc.require (InMap addr)
  let s ← get
  Proc.when (s.Mapped (addr / 4096) ∧ s.Dirty (addr / 4096)) do
    modify (·.ideWrite (addr / 4096))
    modify (·.sysPageMap (addr / 4096))

/-- One iteration of the loop of `fs_sync`; the loop is left when the condition fails. -/
def fsSyncStep (i : ℕ) : FsM (Option Unit) := do
  if BitVec.ofNat 32 i < (← loadw sNblocks) then
    flushBlock (← diskaddr (BitVec.ofNat 32 i))
    pure none
  else pure (some ())

def fsSync : FsM Unit := do
  match ← Proc.search fsSyncStep (2 ^ 32) 1 with
  | some _ => pure ()
  | none => Proc.fail

end LinuxStudy.Fs
