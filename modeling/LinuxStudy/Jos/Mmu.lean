import Mathlib.Data.BitVec
import Mathlib.Tactic.NormNum

/-!
# The 32-bit MMU: addresses, page-table words, memory layout

The macros of `inc/mmu.h` and the constants of `inc/memlayout.h`. A machine word
is a `BitVec 32`; a physical page is named by its frame number, the index of its
`struct PageInfo`; an index into a page directory or a page table is a `Fin 1024`.
-/

namespace LinuxStudy.Jos

open BitVec (toNat_ofNat or_zero toNat_or toNat_and)

/-- A 32-bit machine word. -/
abbrev Word := BitVec 32

/-- An index into a page directory or a page table. -/
abbrev Idx := Fin 1024

instance instNeZeroIdx : NeZero 1024 := ⟨by decide⟩

/-! ### Linear addresses -/

def pgsize : ℕ := 4096

def ptsize : Word := 4096#32 * 1024#32

def pgnum (la : Word) : ℕ := la.toNat >>> 12

def pdx (la : Word) : Idx := Fin.ofNat 1024 (la.toNat >>> 22)

def ptx (la : Word) : Idx := Fin.ofNat 1024 (la.toNat >>> 12)

def pgoff (la : Word) : Word := la &&& 0xFFF#32

def pgaddr (d t : Idx) (o : Word) : Word :=
  BitVec.ofNat 32 (d.val <<< 22) ||| BitVec.ofNat 32 (t.val <<< 12) ||| o

/-! ### Page-table words -/

def pteP : Word := 0x001#32
def pteW : Word := 0x002#32
def pteU : Word := 0x004#32
def ptePWT : Word := 0x008#32
def ptePCD : Word := 0x010#32
def pteAvail : Word := 0xE00#32
def pteSyscall : Word := pteAvail ||| pteP ||| pteW ||| pteU

/-- The C condition `w & f`. -/
def has (w f : Word) : Prop := w &&& f ≠ 0#32

instance (w f : Word) : Decidable (has w f) := inferInstanceAs (Decidable (w &&& f ≠ 0#32))

def pteAddr (pte : Word) : Word := pte &&& ~~~0xFFF#32

/-- The physical address of a frame, `page2pa`. -/
def page2pa (pp : ℕ) : Word := BitVec.ofNat 32 (pp <<< 12)

/-- The word `page2pa(pp) | perm | PTE_P`. -/
def mkPte (pp : ℕ) (perm : Word) : Word := page2pa pp ||| perm ||| pteP

/-- The frame a page-directory or page-table word refers to, if it is present. -/
def frameOf (w : Word) : Option ℕ := if has w pteP then some (pgnum (pteAddr w)) else none

/-! ### Memory layout -/

def kernbase : Word := 0xF0000000#32
def kstacktop : Word := kernbase
def mmiolim : Word := kstacktop - ptsize
def mmiobase : Word := mmiolim - ptsize
def ulim : Word := mmiobase
def uvpt : Word := ulim - ptsize
def upages : Word := uvpt - ptsize
def uenvs : Word := upages - ptsize
def utop : Word := uenvs
def uxstacktop : Word := utop
def ustacktop : Word := utop - 2#32 * 4096#32
def utext : Word := 2#32 * ptsize
def utemp : Word := ptsize
def mpentryPaddr : Word := 0x7000#32

theorem utop_eq : utop = 0xeec00000#32 := by decide
theorem ulim_eq : ulim = 0xef800000#32 := by decide

/-- `PDX(UTOP)`, the first page-directory index of the kernel half. -/
def pdxUtop : Idx := pdx utop

theorem pdxUtop_val : pdxUtop.val = 955 := by decide

/-! ### Arithmetic of the macros -/

theorem pdx_val (la : Word) : (pdx la).val = la.toNat / 2 ^ 22 := by
  simp only [pdx, Fin.ofNat, Nat.shiftRight_eq_div_pow]
  omega

theorem ptx_val (la : Word) : (ptx la).val = la.toNat / 2 ^ 12 % 1024 := by
  simp only [ptx, Fin.ofNat, Nat.shiftRight_eq_div_pow]

theorem pgoff_eq_zero_iff {la : Word} : pgoff la = 0#32 ↔ la.toNat % 4096 = 0 := by
  rw [← BitVec.toNat_inj, pgoff, toNat_and, show (0xFFF#32).toNat = 2 ^ 12 - 1 from rfl,
    Nat.and_two_pow_sub_one_eq_mod]
  rfl

/-- An address is below `UTOP` exactly when its directory index is. -/
theorem lt_utop_iff (va : Word) : va < utop ↔ pdx va < pdxUtop := by
  rw [Fin.lt_def, pdx_val, pdxUtop_val, BitVec.lt_def, utop_eq]
  simp only [toNat_ofNat]
  omega

theorem pgaddr_toNat (d t : Idx) : (pgaddr d t 0#32).toNat = d.val * 2 ^ 22 + t.val * 2 ^ 12 := by
  have h1 : d.val <<< 22 < 2 ^ 32 := by rw [Nat.shiftLeft_eq]; omega
  have h2 : t.val <<< 12 < 2 ^ 32 := by rw [Nat.shiftLeft_eq]; omega
  have h3 : t.val <<< 12 < 2 ^ 22 := by rw [Nat.shiftLeft_eq]; omega
  simp only [pgaddr, or_zero, toNat_or, toNat_ofNat, Nat.mod_eq_of_lt h1, Nat.mod_eq_of_lt h2]
  rw [← Nat.shiftLeft_add_eq_or_of_lt h3, Nat.shiftLeft_eq, Nat.shiftLeft_eq]

@[simp] theorem pdx_pgaddr (d t : Idx) : pdx (pgaddr d t 0#32) = d := by
  apply Fin.ext
  rw [pdx_val, pgaddr_toNat]
  omega

@[simp] theorem ptx_pgaddr (d t : Idx) : ptx (pgaddr d t 0#32) = t := by
  apply Fin.ext
  rw [ptx_val, pgaddr_toNat]
  omega

theorem pgnum_pteAddr (w : Word) : pgnum (pteAddr w) = pgnum w := by
  have hm : (~~~(0xFFF#32)).toNat >>> 12 = 2 ^ 20 - 1 := by decide
  have hw : w.toNat >>> 12 < 2 ^ 20 := by
    omega
  rw [pgnum, pgnum, pteAddr, toNat_and, Nat.shiftRight_and_distrib, hm,
    Nat.and_two_pow_sub_one_eq_mod, Nat.mod_eq_of_lt hw]

@[simp] theorem frameOf_zero : frameOf 0#32 = none := by decide

theorem frameOf_eq_none {w : Word} : frameOf w = none ↔ ¬ has w pteP := by
  simp [frameOf]

theorem frameOf_eq_some {w : Word} {f : ℕ} : frameOf w = some f ↔ has w pteP ∧ pgnum w = f := by
  simp only [frameOf, pgnum_pteAddr]
  split <;> simp [*]

/-- A permission word that only uses the flag bits. -/
def IsPerm (perm : Word) : Prop := perm.toNat < 4096

instance (perm : Word) : Decidable (IsPerm perm) := inferInstanceAs (Decidable (_ < _))

/-- What passes the `perm & ~PTE_SYSCALL` test only has flag bits. -/
theorem isPerm_of_syscall {perm : Word} (h : ¬ has perm (~~~pteSyscall)) : IsPerm perm := by
  have h0 : perm &&& ~~~pteSyscall = 0#32 := by simpa [has] using h
  have hand : perm = perm &&& pteSyscall := by
    have hd : perm &&& (pteSyscall ||| ~~~pteSyscall) =
        perm &&& pteSyscall ||| perm &&& ~~~pteSyscall := BitVec.and_or_distrib_left
    rw [h0, or_zero, show pteSyscall ||| ~~~pteSyscall = BitVec.allOnes 32 by decide,
      BitVec.and_allOnes] at hd
    exact hd
  have hle : perm.toNat ≤ pteSyscall.toNat := by
    rw [hand, toNat_and]
    exact Nat.and_le_right
  have hv : pteSyscall.toNat = 0xE07 := by decide
  unfold IsPerm
  omega

section MkPte

variable {pp : ℕ} {perm : Word}

theorem page2pa_toNat (hpp : pp < 2 ^ 20) : (page2pa pp).toNat = pp <<< 12 := by
  have : pp <<< 12 < 2 ^ 32 := by rw [Nat.shiftLeft_eq]; omega
  rw [page2pa, toNat_ofNat, Nat.mod_eq_of_lt this]

theorem pgnum_page2pa (hpp : pp < 2 ^ 20) : pgnum (page2pa pp) = pp := by
  rw [pgnum, page2pa_toNat hpp, Nat.shiftLeft_shiftRight]

theorem pgnum_mkPte (hpp : pp < 2 ^ 20) (hperm : IsPerm perm) : pgnum (mkPte pp perm) = pp := by
  have h1 : perm.toNat >>> 12 = 0 := by
    unfold IsPerm at hperm
    omega
  have h2 : pteP.toNat >>> 12 = 0 := by decide
  rw [pgnum, mkPte, toNat_or, toNat_or, Nat.shiftRight_or_distrib,
    Nat.shiftRight_or_distrib, h1, h2, Nat.or_zero, Nat.or_zero, ← pgnum, pgnum_page2pa hpp]

theorem has_mkPte_P (pp : ℕ) (perm : Word) : has (mkPte pp perm) pteP := by
  have : mkPte pp perm &&& pteP = pteP := by
    rw [mkPte, BitVec.and_comm]
    ext i hi
    simp only [BitVec.getElem_or, BitVec.getElem_and]
    cases pteP[i] <;> simp
  rw [has, this]
  decide

theorem frameOf_mkPte (hpp : pp < 2 ^ 20) (hperm : IsPerm perm) :
    frameOf (mkPte pp perm) = some pp :=
  frameOf_eq_some.mpr ⟨has_mkPte_P pp perm, pgnum_mkPte hpp hperm⟩

/-- The flag bits of a page-table word, `pte & 0xFFF`. -/
def pteFlags (w : Word) : Word := w &&& 0xFFF#32

theorem pteFlags_mkPte (hpp : pp < 2 ^ 20) (hperm : IsPerm perm) :
    pteFlags (mkPte pp perm) = perm ||| pteP := by
  apply BitVec.eq_of_toNat_eq
  have hm : (0xFFF#32).toNat = 2 ^ 12 - 1 := by decide
  have hp : (perm ||| pteP).toNat < 2 ^ 12 := by
    exact Nat.or_lt_two_pow hperm (by decide)
  rw [pteFlags, mkPte, BitVec.or_assoc, toNat_and, hm, Nat.and_two_pow_sub_one_eq_mod,
    toNat_or (page2pa pp), page2pa_toNat hpp, ← Nat.shiftLeft_add_eq_or_of_lt hp,
    Nat.shiftLeft_eq, Nat.mul_comm pp, Nat.mul_add_mod, Nat.mod_eq_of_lt hp]

end MkPte

end LinuxStudy.Jos
