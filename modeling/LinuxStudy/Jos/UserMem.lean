import LinuxStudy.Jos.Pmap
import LinuxStudy.Lib.Logged

/-!
# Memory as the kernel reaches it through pointers

Bytes of physical memory, the translation the processor makes with the page directory in
`%cr3`, and `user_mem_check`. The kernel runs on the page directory of the calling
environment and with `CR0_WP` set, so a store needs `PTE_W` at both levels, also in kernel
mode. Each byte touched through a pointer argument is logged as an `Access`; a computation
without a result ended in a page fault in kernel mode, which panics.
-/

namespace LinuxStudy.Jos

abbrev Byte := BitVec 8

/-- A byte the kernel touches through a pointer argument. -/
structure Access where
  va : Word
  write : Bool
  deriving DecidableEq, Repr

namespace Pmap

variable (s : Pmap)

/-- The byte at a physical address. -/
def loadPhys (pa : ℕ) : Byte :=
  (s.mem (pa / pgsize) (Fin.ofNat 1024 (pa % pgsize / 4))).extractLsb' (8 * (pa % 4)) 8

def storePhys (pa : ℕ) (b : Byte) : Pmap :=
  let i : Idx := Fin.ofNat 1024 (pa % pgsize / 4)
  let w := s.mem (pa / pgsize) i
  s.write (pa / pgsize) i
    (w &&& ~~~(0xFF#32 <<< (8 * (pa % 4))) ||| b.setWidth 32 <<< (8 * (pa % 4)))

/-- Physical stores at consecutive addresses. -/
def storePhysBytes (s : Pmap) (pa : ℕ) : List Byte → Pmap
  | [] => s
  | b :: bs => (s.storePhys pa b).storePhysBytes (pa + 1) bs

/-- The physical address of `va`, or `none` for a page fault in kernel mode. -/
def translate (cr3 : ℕ) (va : Word) (write : Bool) : Option ℕ :=
  let pde := s.mem cr3 (pdx va)
  let pte := s.mem (pgnum pde) (ptx va)
  if has pde pteP ∧ has pte pteP ∧ (write = true → has pde pteW ∧ has pte pteW) then
    some (pgnum pte * pgsize + va.toNat % pgsize)
  else none

def loadByte (cr3 : ℕ) (va : Word) : Logged Access Byte :=
  .effect ⟨va, false⟩ ((s.translate cr3 va false).map s.loadPhys)

def storeByte (cr3 : ℕ) (va : Word) (b : Byte) : Logged Access Pmap :=
  .effect ⟨va, true⟩ ((s.translate cr3 va true).map fun pa => s.storePhys pa b)

def loadBytes (cr3 : ℕ) : ℕ → Word → Logged Access (List Byte)
  | 0, _ => .pure []
  | n + 1, va => (s.loadByte cr3 va).bind fun b =>
      (loadBytes cr3 n (va + 1)).bind fun bs => .pure (b :: bs)

def storeBytes (s : Pmap) (cr3 : ℕ) (va : Word) : List Byte → Logged Access Pmap
  | [] => .pure s
  | b :: bs => (s.storeByte cr3 va b).bind fun s => s.storeBytes cr3 (va + 1) bs

/-- One page of `user_mem_check`: is the test of the source passed? -/
def userPageOk (pgdir : Option ℕ) (start perm : Word) : Option Bool :=
  (s.pgdirWalk pgdir start false).bind fun (s, pte) =>
    match pte with
    | none => some false
    | some pte =>
      some (decide (start < ulim ∧ has (s.mem pte.1 pte.2) pteP ∧
        s.mem pte.1 pte.2 &&& perm = perm))

/-- The loop of `user_mem_check` over `n` pages; the first page that fails is returned. -/
def userMemLoop (pgdir : Option ℕ) (perm : Word) : ℕ → Word → Option (Option Word)
  | 0, _ => some none
  | n + 1, start => (s.userPageOk pgdir start perm).bind fun ok =>
      if ok then userMemLoop pgdir perm n (start + 4096#32) else some (some start)

/-- `ROUNDDOWN(a, PGSIZE)` and `ROUNDUP(a, PGSIZE)`, in 32-bit arithmetic. -/
def rounddown (a : Word) : Word := a &&& ~~~0xFFF#32
def roundup (a : Word) : Word := rounddown (a + 4096#32 - 1#32)

/-- `user_mem_check`: `some none` for the result 0, and `some (some addr)` for `-E_FAULT`
    with `addr` in `user_mem_check_addr`. -/
def userMemCheck (pgdir : Option ℕ) (va len perm : Word) : Option (Option Word) :=
  let start := rounddown va
  let stop := roundup (va + len)
  (s.userMemLoop pgdir perm ((stop.toNat - start.toNat) / pgsize) start).bind fun bad =>
    some (bad.map fun start => if start < va then va else start)

end Pmap

/-- Little-endian decoding at a byte offset. -/
def half (bs : List Byte) (i : ℕ) : BitVec 16 := bs.getD (i + 1) 0 ++ bs.getD i 0
def word (bs : List Byte) (i : ℕ) : Word := half bs (i + 2) ++ half bs i

/-- Little-endian encoding. -/
def halfBytes (h : BitVec 16) : List Byte := [h.extractLsb' 0 8, h.extractLsb' 8 8]
def wordBytes (w : Word) : List Byte :=
  [w.extractLsb' 0 8, w.extractLsb' 8 8, w.extractLsb' 16 8, w.extractLsb' 24 8]

end LinuxStudy.Jos
