import LinuxStudy.Jos.Mmu
import LinuxStudy.Lib.Run
import LinuxStudy.Lib.Chain

/-!
# The page allocator and the two-level page tables of `kern/pmap.c`

Physical memory is a word array indexed by frame number and word index, so page
directories and page tables live in it as the kernel stores them: whether two of
them share a frame is a fact about the state and not built into its type. A
`struct PageInfo *` is the index into `pages[]`, a kernel virtual address of a
page is its frame number, and `none` is the null pointer.

A function that can panic returns an `Option`, with `none` for a failed
`assert`, or for a `KADDR` or `pa2page` of an address past the end of memory. The
translation look-aside buffer is not modelled.
-/

namespace LinuxStudy.Jos

open Function (update)

/-- Error codes of `inc/error.h`. -/
def eBadEnv : Int := 2
def eInval : Int := 3
def eNoMem : Int := 4
def eNoFreeEnv : Int := 5
def eIpcNotRecv : Int := 7

structure PageInfo where
  ppLink : Option ℕ
  ppRef : BitVec 16
  deriving DecidableEq, Repr

/-- A page-table entry's location: the frame of its table and its index. -/
abbrev Slot := ℕ × Idx

structure Pmap where
  npages : ℕ
  pages : ℕ → PageInfo
  pageFreeList : Option ℕ
  /-- Physical memory, by frame number and word index. -/
  mem : ℕ → Idx → Word
  /-- The frame `kern_pgdir` was given by `boot_alloc`. -/
  kernPgdir : ℕ

namespace Pmap

variable (s : Pmap)

def setRef (pp : ℕ) (r : BitVec 16) : Pmap :=
  { s with pages := update s.pages pp { s.pages pp with ppRef := r } }

def setLink (pp : ℕ) (l : Option ℕ) : Pmap :=
  { s with pages := update s.pages pp { s.pages pp with ppLink := l } }

/-- Store a word. -/
def write (f : ℕ) (i : Idx) (w : Word) : Pmap :=
  { s with mem := update s.mem f (update (s.mem f) i w) }

/-- `memset(page, 0, PGSIZE)`. -/
def clear (f : ℕ) : Pmap := { s with mem := update s.mem f fun _ => 0#32 }

/-- `memcpy(dst, src, PGSIZE)` on whole frames. -/
def copyPage (dst src : ℕ) : Pmap := { s with mem := update s.mem dst (s.mem src) }

/-- `KADDR`: the frame at a physical address, if the machine has it. -/
def kaddr (pa : Word) : Option ℕ := if pgnum pa < s.npages then some (pgnum pa) else none

def pa2page (pa : Word) : Option ℕ := if pgnum pa < s.npages then some (pgnum pa) else none

def page2kva (pp : ℕ) : Option ℕ := s.kaddr (page2pa pp)

/-- One iteration of the loop of `page_init`. -/
def pageInitStep (npagesBasemem extendedFree i : ℕ) : Pmap :=
  let s := s.setRef i 0
  if i = 0 ∨ (npagesBasemem ≤ i ∧ i < extendedFree) ∨ i = pgnum mpentryPaddr then
    s.setLink i none
  else
    { s.setLink i s.pageFreeList with pageFreeList := some i }

def pageInit (npagesBasemem extendedFree : ℕ) : Option Pmap :=
  if s.pageFreeList ≠ none then none
  else forUpTo (fun i s => some (s.pageInitStep npagesBasemem extendedFree i)) s.npages s

def pageAlloc (zero : Bool) : Option (Pmap × Option ℕ) :=
  match s.pageFreeList with
  | none => some (s, none)
  | some ret =>
    let s := { s with pageFreeList := (s.pages ret).ppLink }
    let s := s.setLink ret none
    if zero then (s.page2kva ret).bind fun kva => some (s.clear kva, some ret)
    else some (s, some ret)

def pageFree (pp : ℕ) : Option Pmap :=
  if (s.pages pp).ppRef ≠ 0 then none
  else if (s.pages pp).ppLink ≠ none then none
  else some { s.setLink pp s.pageFreeList with pageFreeList := some pp }

def pageDecref (pp : ℕ) : Option Pmap :=
  let s := s.setRef pp ((s.pages pp).ppRef - 1)
  if (s.pages pp).ppRef = 0 then s.pageFree pp else some s

def pageIncref (pp : ℕ) : Pmap := s.setRef pp ((s.pages pp).ppRef + 1)

/-- `(pte_t*) KADDR(PTE_ADDR(*pde)) + PTX(va)`, the last line of `pgdir_walk`. -/
def pteSlot (pgdir : ℕ) (va : Word) : Option (Pmap × Option Slot) :=
  (s.kaddr (pteAddr (s.mem pgdir (pdx va)))).bind fun pt => some (s, some (pt, ptx va))

def pgdirWalk (pgdir : Option ℕ) (va : Word) (create : Bool) : Option (Pmap × Option Slot) :=
  match pgdir with
  | none => none
  | some pgdir =>
    if has (s.mem pgdir (pdx va)) pteP then s.pteSlot pgdir va
    else if create = false then some (s, none)
    else (s.pageAlloc true).bind fun (s, page) =>
      match page with
      | none => some (s, none)
      | some page =>
        let s := s.pageIncref page
        if (s.pages page).ppRef ≠ 1 then none
        else if (s.pages page).ppLink ≠ none then none
        else
          (s.write pgdir (pdx va) (page2pa page ||| pteP ||| pteU ||| pteW)).pteSlot pgdir va

/-- The page mapped at `va` and the location of its page-table entry. -/
def pageLookup (pgdir : Option ℕ) (va : Word) : Option (Option (ℕ × Slot)) :=
  (s.pgdirWalk pgdir va false).bind fun (s, pte) =>
    match pte with
    | none => some none
    | some pte =>
      if has (s.mem pte.1 pte.2) pteP then
        (s.pa2page (pteAddr (s.mem pte.1 pte.2))).bind fun pp => some (some (pp, pte))
      else some none

def pageRemove (pgdir : Option ℕ) (va : Word) : Option Pmap :=
  (s.pageLookup pgdir va).bind fun found =>
    match found with
    | none => some s
    | some (pp, pte) => (s.write pte.1 pte.2 0#32).pageDecref pp

def pageInsert (pgdir : Option ℕ) (pp : ℕ) (va perm : Word) : Option (Pmap × Int) :=
  (s.pgdirWalk pgdir va true).bind fun (s, pte) =>
    match pte with
    | none => some (s, -eNoMem)
    | some pte =>
      let s := s.pageIncref pp
      let removed := if has (s.mem pte.1 pte.2) pteP then s.pageRemove pgdir va else some s
      removed.bind fun s => some (s.write pte.1 pte.2 (mkPte pp perm), 0)

/-- One iteration of `boot_map_region`: dereferencing a null result is a fault. -/
def bootMapStep (pgdir : ℕ) (va pa perm : Word) : Option Pmap :=
  (s.pgdirWalk (some pgdir) va true).bind fun (s, pte) =>
    pte.bind fun pte => some (s.write pte.1 pte.2 (pa ||| perm ||| pteP))

def bootMapRegion (pgdir : ℕ) (va : Word) (npg : ℕ) (pa perm : Word) : Option Pmap :=
  forUpTo (fun i s => s.bootMapStep pgdir (va + BitVec.ofNat 32 (i * pgsize))
    (pa + BitVec.ofNat 32 (i * pgsize)) perm) npg s

end Pmap

end LinuxStudy.Jos
