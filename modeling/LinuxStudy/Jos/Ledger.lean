import LinuxStudy.Jos.Pmap
import LinuxStudy.Lib.RefCount
import Mathlib.Tactic.DeriveFintype
import Mathlib.Data.Fintype.Sum
import Mathlib.Data.Fintype.Sigma

/-!
# The reference ledger of the physical pages

The kernel counts, in `pp_ref`, the references it keeps to a page: from an
`env_pgdir`, from a page-directory entry, from a page-table entry. This file names
those places as `Site`s, reads off what each of them refers to, and states the
bookkeeping as one predicate, `Ledger`. The count is the 16-bit field of the
source, so the ledger equation is one modulo `2 ^ 16`; that it then is an equation
of numbers is a consequence of a bound on the number of references.

Between two instructions the kernel may hold references that are not stored at
any site yet (a `pp_ref` already incremented) or not given back yet (an entry
already cleared). `held` counts them.
-/

namespace LinuxStudy.Jos

open RefCount
open Function (update update_of_ne update_self update_idem)
open Pmap

/-- An index into `envs[]`; `NENV` is 1024. -/
abbrev EnvIx := Fin 1024

/-- A place that refers to a page. `kern i` is entry `i` of `kern_pgdir`. -/
inductive Site
  | dir (e : EnvIx)
  | table (e : EnvIx) (i : Idx)
  | page (e : EnvIx) (i t : Idx)
  | kern (i : Idx)
  deriving DecidableEq, Fintype

def Site.isPage : Site → Prop
  | .page _ _ _ => True
  | _ => False

def Site.isKern : Site → Prop
  | .kern _ => True
  | _ => False

/-- Page-directory entry `i` of environment `e`, read as zero from `UTOP` on. -/
def pde (dirs : EnvIx → Option ℕ) (s : Pmap) (e : EnvIx) (i : Idx) : Word :=
  match dirs e with
  | none => 0#32
  | some d => if i < pdxUtop then s.mem d i else 0#32

/-- Page-table entry `(i, t)` of environment `e`, read as zero without a table. -/
def pte (dirs : EnvIx → Option ℕ) (s : Pmap) (e : EnvIx) (i t : Idx) : Word :=
  match frameOf (pde dirs s e i) with
  | none => 0#32
  | some f => s.mem f t

def ref (dirs : EnvIx → Option ℕ) (s : Pmap) : Site → Option ℕ
  | .dir e => dirs e
  | .table e i => frameOf (pde dirs s e i)
  | .page e i t => frameOf (pte dirs s e i t)
  | .kern i => frameOf (s.mem s.kernPgdir i)

/-- The number of references to a page. -/
def refs (dirs : EnvIx → Option ℕ) (s : Pmap) (p : ℕ) : ℕ := count (ref dirs s) p

/-- The link field of `pages[]`. -/
def Pmap.link (s : Pmap) (p : ℕ) : Option ℕ := (s.pages p).ppLink

/-- Free list, reference counts and exclusiveness of directories and tables. `F` are
    the frames `page_init` gave to the allocator, `l` the free list, and `held` the
    references in the kernel's hand. -/
structure Ledger (F : Set ℕ) (dirs : EnvIx → Option ℕ) (s : Pmap) (held : ℕ → ℕ)
    (l : List ℕ) : Prop where
  npages_le : s.npages ≤ 2 ^ 20
  frame_lt : ∀ p ∈ F, p < s.npages
  chain : Chain s.link s.pageFreeList l
  free : ∀ p ∈ l, p ∈ F ∧ refs dirs s p = 0 ∧ held p = 0
  link_none : ∀ p ∈ F, p ∉ l → s.link p = none
  ref_eq : ∀ p ∈ F, (s.pages p).ppRef = BitVec.ofNat 16 (refs dirs s p + held p)
  owned : ∀ x p, ref dirs s x = some p → ¬ x.isKern → p ∈ F
  single : ∀ x p, ref dirs s x = some p → p ∈ F → ¬ x.isPage → refs dirs s p = 1 ∧ held p = 0
  kern_dir : s.kernPgdir ∉ F
  kern_user : ∀ i < pdxUtop, frameOf (s.mem s.kernPgdir i) = none

section View

variable {dirs : EnvIx → Option ℕ} {s s' : Pmap} {e : EnvIx} {i t : Idx} {d f : ℕ}

theorem pde_of_dir (he : dirs e = some d) (hi : i < pdxUtop) : pde dirs s e i = s.mem d i := by
  simp [pde, he, hi]

theorem pte_of_table (hf : frameOf (pde dirs s e i) = some f) : pte dirs s e i t = s.mem f t := by
  simp [pte, hf]

theorem pte_of_no_table (hf : frameOf (pde dirs s e i) = none) : pte dirs s e i t = 0#32 := by
  simp [pte, hf]

/-- A present directory entry comes from a live directory, below `UTOP`. -/
theorem exists_dir_of_table (hf : frameOf (pde dirs s e i) = some f) :
    ∃ d, dirs e = some d ∧ i < pdxUtop ∧ frameOf (s.mem d i) = some f := by
  unfold pde at hf
  split at hf
  · simp at hf
  · next d hd =>
    split at hf
    · next hi => exact ⟨d, hd, hi, hf⟩
    · simp at hf

theorem exists_table_of_page (hf : frameOf (pte dirs s e i t) = some f) :
    ∃ g, frameOf (pde dirs s e i) = some g ∧ frameOf (s.mem g t) = some f := by
  unfold pte at hf
  split at hf
  · simp at hf
  · next g hg => exact ⟨g, hg, hf⟩

/-- The directories are read from their own frames. -/
theorem pde_congr_dirs (hm : ∀ e d, dirs e = some d → s'.mem d = s.mem d) :
    pde dirs s' = pde dirs s := by
  funext e i
  cases hd : dirs e with
  | none => simp only [pde, hd]
  | some d => simp only [pde, hd, hm e d hd]

theorem pde_congr (hm : s'.mem = s.mem) : pde dirs s' = pde dirs s :=
  pde_congr_dirs fun _ d _ => congrFun hm d

theorem pte_congr (hm : s'.mem = s.mem) : pte dirs s' = pte dirs s := by
  funext e i t
  simp only [pte, pde_congr hm, hm]

theorem ref_congr (hm : s'.mem = s.mem) (hk : s'.kernPgdir = s.kernPgdir) :
    ref dirs s' = ref dirs s := by
  funext x
  cases x <;> simp only [ref, pde_congr hm, pte_congr hm, hm, hk]

end View

namespace Pmap

variable (s : Pmap) (p : ℕ) (i : Idx) (w : Word)

@[simp] theorem mem_setRef (r : BitVec 16) : (s.setRef p r).mem = s.mem := rfl
@[simp] theorem mem_setLink (v : Option ℕ) : (s.setLink p v).mem = s.mem := rfl
@[simp] theorem npages_setRef (r : BitVec 16) : (s.setRef p r).npages = s.npages := rfl
@[simp] theorem npages_setLink (v : Option ℕ) : (s.setLink p v).npages = s.npages := rfl
@[simp] theorem npages_write : (s.write p i w).npages = s.npages := rfl
@[simp] theorem kernPgdir_write : (s.write p i w).kernPgdir = s.kernPgdir := rfl
@[simp] theorem pages_write : (s.write p i w).pages = s.pages := rfl
@[simp] theorem pageFreeList_write : (s.write p i w).pageFreeList = s.pageFreeList := rfl
@[simp] theorem mem_pageIncref : (s.pageIncref p).mem = s.mem := rfl

theorem link_setRef (r : BitVec 16) : (s.setRef p r).link = s.link := by
  funext q
  by_cases hq : q = p
  · subst hq
    simp [link, setRef]
  · simp [link, setRef, hq]

theorem link_setLink (v : Option ℕ) : (s.setLink p v).link = update s.link p v := by
  funext q
  by_cases hq : q = p
  · subst hq
    simp [link, setLink]
  · simp [link, setLink, hq]

theorem ppRef_setLink (v : Option ℕ) (q : ℕ) :
    ((s.setLink p v).pages q).ppRef = (s.pages q).ppRef := by
  by_cases hq : q = p
  · subst hq
    simp [setLink]
  · simp [setLink, hq]

theorem ppRef_setRef_self (r : BitVec 16) : ((s.setRef p r).pages p).ppRef = r := by
  simp [setRef]

theorem ppRef_setRef_of_ne {p q : ℕ} (h : q ≠ p) (r : BitVec 16) :
    ((s.setRef p r).pages q).ppRef = (s.pages q).ppRef := by
  simp [setRef, h]

theorem mem_write_of_ne {f p : ℕ} (h : f ≠ p) : (s.write p i w).mem f = s.mem f := by
  simp [write, h]

theorem mem_write_self : (s.write p i w).mem p = update (s.mem p) i w := by
  simp [write]

theorem mem_clear_of_ne {f p : ℕ} (h : f ≠ p) : (s.clear p).mem f = s.mem f := by
  simp [clear, h]

theorem mem_clear_self : (s.clear p).mem p = fun _ => 0#32 := by
  simp [clear]

end Pmap

section View

variable {dirs : EnvIx → Option ℕ} {s : Pmap} {e : EnvIx} {i : Idx} {d : ℕ}

/-- A store into the user half of a directory that no one else has changes that one entry. -/
theorem pde_write_own {w : Word} (hinj : ∀ e', dirs e' = some d → e' = e) (he : dirs e = some d)
    (hi : i < pdxUtop) (e' : EnvIx) (i' : Idx) :
    pde dirs (s.write d i w) e' i' = if e' = e ∧ i' = i then w else pde dirs s e' i' := by
  cases hd : dirs e' with
  | none =>
    have hne : ¬ (e' = e ∧ i' = i) := by
      rintro ⟨rfl, rfl⟩
      simp [hd] at he
    simp [pde, hd, hne]
  | some d' =>
    by_cases hdd : d' = d
    · subst hdd
      obtain rfl := hinj e' hd
      by_cases hii : i' = i
      · subst hii
        simp [pde, hd, hi, mem_write_self]
      · simp [pde, hd, mem_write_self, hii]
    · have hne : ¬ (e' = e ∧ i' = i) := by
        rintro ⟨rfl, rfl⟩
        rw [he] at hd
        exact hdd (Option.some.inj hd).symm
      simp [pde, hd, hne, s.mem_write_of_ne i w hdd]

end View

namespace Ledger

variable {F : Set ℕ} {dirs : EnvIx → Option ℕ} {s : Pmap} {held : ℕ → ℕ} {l : List ℕ}
  {e : EnvIx} {i j t : Idx} {d f p q : ℕ} {w : Word} {x y : Site}

section

variable (L : Ledger F dirs s held l)
include L

theorem eq_of_single (hx : ref dirs s x = some p) (hp : p ∈ F)
    (hnp : ¬ x.isPage) (hy : ref dirs s y = some p) : y = x :=
  eq_of_count_le_one (L.single x p hx hp hnp).1.le hy hx

theorem table_mem (ht : frameOf (pde dirs s e i) = some f) : f ∈ F :=
  L.owned (.table e i) f ht (by simp [Site.isKern])

theorem dir_mem (he : dirs e = some d) : d ∈ F :=
  L.owned (.dir e) d he (by simp [Site.isKern])

theorem page_mem (hp : frameOf (pte dirs s e i t) = some p) : p ∈ F :=
  L.owned (.page e i t) p hp (by simp [Site.isKern])

variable {e' : EnvIx} {s' : Pmap}

theorem dir_ne_table (he : dirs e' = some d)
    (ht : frameOf (pde dirs s e i) = some f) : d ≠ f := by
  rintro rfl
  have := L.eq_of_single (x := .table e i) (y := .dir e') ht (L.table_mem ht)
    (by simp [Site.isPage]) he
  cases this

theorem dir_inj (he : dirs e = some d)
    (he' : dirs e' = some d) : e' = e := by
  have := L.eq_of_single (x := .dir e) (y := .dir e') he (L.dir_mem he) (by simp [Site.isPage]) he'
  cases this
  rfl

theorem table_inj {i' : Idx}
    (ht : frameOf (pde dirs s e i) = some f) (ht' : frameOf (pde dirs s e' i') = some f) :
    e' = e ∧ i' = i := by
  have := L.eq_of_single (x := .table e i) (y := .table e' i') ht (L.table_mem ht)
    (by simp [Site.isPage]) ht'
  cases this
  exact ⟨rfl, rfl⟩

theorem kern_ne (hf : f ∈ F) : s.kernPgdir ≠ f := by
  rintro rfl
  exact L.kern_dir hf

section

variable (ht : frameOf (pde dirs s e i) = some f)
include ht

theorem pde_write_table : pde dirs (s.write f j w) = pde dirs s :=
  pde_congr_dirs fun _ _ hd => s.mem_write_of_ne j w (L.dir_ne_table hd ht)

theorem pte_write_table
    (e' : EnvIx) (i' t' : Idx) :
    pte dirs (s.write f j w) e' i' t' =
      if e' = e ∧ i' = i ∧ t' = j then w else pte dirs s e' i' t' := by
  cases hg : frameOf (pde dirs s e' i') with
  | none =>
    have hne : ¬ (e' = e ∧ i' = i ∧ t' = j) := by
      rintro ⟨rfl, rfl, rfl⟩
      simp [hg] at ht
    simp [pte, L.pde_write_table ht, hg, hne]
  | some g =>
    by_cases hgf : g = f
    · subst hgf
      obtain ⟨rfl, rfl⟩ := L.table_inj ht hg
      by_cases htj : t' = j
      · subst htj
        simp [pte, L.pde_write_table hg, hg, mem_write_self]
      · simp [pte, L.pde_write_table hg, hg, mem_write_self, htj]
    · have hne : ¬ (e' = e ∧ i' = i ∧ t' = j) := by
        rintro ⟨rfl, rfl, rfl⟩
        rw [ht] at hg
        exact hgf (Option.some.inj hg).symm
      simp [pte, L.pde_write_table ht, hg, hne, s.mem_write_of_ne j w hgf]

theorem ref_write_table :
    ref dirs (s.write f j w) = update (ref dirs s) (.page e i j) (frameOf w) := by
  funext x
  cases x with
  | dir e' => rfl
  | table e' i' =>
    rw [update_of_ne (by simp)]
    simp only [ref, L.pde_write_table ht]
  | page e' i' t' =>
    by_cases hx : e' = e ∧ i' = i ∧ t' = j
    · obtain ⟨rfl, rfl, rfl⟩ := hx
      simp [ref, L.pte_write_table ht]
    · simp [ref, L.pte_write_table ht, hx]
  | kern i' =>
    have hne : s.kernPgdir ≠ f := L.kern_ne (L.table_mem ht)
    simp [ref, s.mem_write_of_ne j w hne]

end

theorem pde_write_dir (he : dirs e = some d) (hi : i < pdxUtop) (e' : EnvIx) (i' : Idx) :
    pde dirs (s.write d i w) e' i' = if e' = e ∧ i' = i then w else pde dirs s e' i' :=
  pde_write_own (fun _ => L.dir_inj he) he hi e' i'

/-- Pointing a directory entry without mappings at an empty table, or at nothing, maps
    nothing. -/
theorem pte_write_dir (he : dirs e = some d) (hi : i < pdxUtop)
    (hold : ∀ t, frameOf (pte dirs s e i t) = none)
    (hnew : ∀ f, frameOf w = some f → f ≠ d ∧ ∀ t, s.mem f t = 0#32) (e' : EnvIx) (i' t' : Idx) :
    frameOf (pte dirs (s.write d i w) e' i' t') = frameOf (pte dirs s e' i' t') := by
  by_cases hx : e' = e ∧ i' = i
  · obtain ⟨rfl, rfl⟩ := hx
    rw [hold t']
    cases hw : frameOf w with
    | none => simp [pte, L.pde_write_dir he hi, hw]
    | some f =>
      obtain ⟨hfd, hzero⟩ := hnew f hw
      simp [pte, L.pde_write_dir he hi, hw, s.mem_write_of_ne i' w hfd, hzero]
  · cases hg : frameOf (pde dirs s e' i') with
    | none => simp [pte, L.pde_write_dir he hi, hx, hg]
    | some g =>
      have hgd : g ≠ d := (L.dir_ne_table he hg).symm
      simp [pte, L.pde_write_dir he hi, hx, hg, s.mem_write_of_ne i w hgd]

theorem ref_write_dir (he : dirs e = some d) (hi : i < pdxUtop)
    (hold : ∀ t, frameOf (pte dirs s e i t) = none)
    (hnew : ∀ f, frameOf w = some f → f ≠ d ∧ ∀ t, s.mem f t = 0#32) :
    ref dirs (s.write d i w) = update (ref dirs s) (.table e i) (frameOf w) := by
  funext x
  cases x with
  | dir e' => rfl
  | table e' i' =>
    by_cases hx : e' = e ∧ i' = i
    · obtain ⟨rfl, rfl⟩ := hx
      simp [ref, L.pde_write_dir he hi]
    · simp [ref, L.pde_write_dir he hi, hx]
  | page e' i' t' =>
    exact L.pte_write_dir he hi hold hnew e' i' t'
  | kern i' =>
    have hne : s.kernPgdir ≠ d := L.kern_ne (L.dir_mem he)
    simp [ref, s.mem_write_of_ne i w hne]

/-- Frames nobody refers to can be overwritten without changing an address space. -/
theorem mem_irrelevant (hp : p ∈ F) (hr : refs dirs s p = 0)
    (hk : s'.kernPgdir = s.kernPgdir) (hm : ∀ f, f ≠ p → s'.mem f = s.mem f) :
    pde dirs s' = pde dirs s ∧ pte dirs s' = pte dirs s ∧ ref dirs s' = ref dirs s := by
  have hno : ∀ x, ref dirs s x ≠ some p := count_eq_zero_iff.mp hr
  have hpde : pde dirs s' = pde dirs s := pde_congr_dirs fun e d hd => hm d (by
    rintro rfl
    exact hno (.dir e) hd)
  have hpte : pte dirs s' = pte dirs s := by
    funext e i t
    cases hf : frameOf (pde dirs s e i) with
    | none => simp [pte, hpde, hf]
    | some f =>
      have hne : f ≠ p := by
        rintro rfl
        exact hno (.table e i) hf
      simp [pte, hpde, hf, hm f hne]
  refine ⟨hpde, hpte, ?_⟩
  funext x
  have hkern : s.kernPgdir ≠ p := L.kern_ne hp
  cases x <;> simp only [ref, hpde, hpte, hk, hm _ hkern]

theorem overwrite (hp : p ∈ F) (hr : refs dirs s p = 0)
    (hpages : s'.pages = s.pages) (hfl : s'.pageFreeList = s.pageFreeList)
    (hn : s'.npages = s.npages) (hk : s'.kernPgdir = s.kernPgdir)
    (hm : ∀ f, f ≠ p → s'.mem f = s.mem f) : Ledger F dirs s' held l := by
  obtain ⟨_, _, href⟩ := L.mem_irrelevant hp hr hk hm
  have hrefs : refs dirs s' = refs dirs s := by
    funext q
    simp only [refs, href]
  have hlink : s'.link = s.link := by
    funext q
    simp only [Pmap.link, hpages]
  refine ⟨hn ▸ L.npages_le, hn ▸ L.frame_lt, ?_, ?_, ?_, ?_, ?_, ?_, hk ▸ L.kern_dir, ?_⟩
  · rw [hlink, hfl]
    exact L.chain
  · rw [hrefs]
    exact L.free
  · rw [hlink]
    exact L.link_none
  · rw [hpages, hrefs]
    exact L.ref_eq
  · rw [href]
    exact L.owned
  · rw [href, hrefs]
    exact L.single
  · intro i hi
    rw [hk, hm _ (L.kern_ne hp)]
    exact L.kern_user i hi

/-! ### The allocator -/

theorem kva_eq (hn : s'.npages = s.npages) (hp : p ∈ F) :
    s'.page2kva p = some p := by
  have hlt := L.frame_lt p hp
  have hle := L.npages_le
  have hpg : pgnum (page2pa p) = p := pgnum_page2pa (by omega)
  simp [Pmap.page2kva, Pmap.kaddr, hpg, hn, hlt]

end

theorem alloc_nil (L : Ledger F dirs s held []) (zero : Bool) :
    s.pageAlloc zero = some (s, none) := by
  have hnil : s.pageFreeList = none := Chain.nil_iff.mp L.chain
  simp [Pmap.pageAlloc, hnil]

theorem alloc (L : Ledger F dirs s held (p :: l)) (zero : Bool) :
    ∃ s', s.pageAlloc zero = some (s', some p) ∧ Ledger F dirs s' held l ∧
      pde dirs s' = pde dirs s ∧ pte dirs s' = pte dirs s ∧ ref dirs s' = ref dirs s ∧
      s'.kernPgdir = s.kernPgdir ∧ s'.link p = none ∧
      (∀ q, (s'.pages q).ppRef = (s.pages q).ppRef) ∧ (∀ f, f ≠ p → s'.mem f = s.mem f) ∧
      (zero = true → ∀ t, s'.mem p t = 0#32) := by
  obtain ⟨hhead, _⟩ := Chain.cons_iff.mp L.chain
  obtain ⟨hp, hrefs, hheld⟩ := L.free p List.mem_cons_self
  let t : Pmap := { s with pageFreeList := (s.pages p).ppLink }.setLink p none
  let s' : Pmap := if zero then t.clear p else t
  have hs' : s.pageAlloc zero = some (s', some p) := by
    cases zero with
    | true =>
      have hk : t.page2kva p = some p := L.kva_eq rfl hp
      simp only [Pmap.pageAlloc, hhead]
      rw [hk]
      rfl
    | false => simp only [Pmap.pageAlloc, hhead]; rfl
  have hpages : s'.pages = t.pages := by cases zero <;> rfl
  have hkern : s'.kernPgdir = s.kernPgdir := by cases zero <;> rfl
  have hnp : s'.npages = s.npages := by cases zero <;> rfl
  have hfl : s'.pageFreeList = s.link p := by cases zero <;> rfl
  have hmem : ∀ f, f ≠ p → s'.mem f = s.mem f := by
    intro f hf
    cases zero with
    | true => exact t.mem_clear_of_ne hf
    | false => rfl
  have hlink : s'.link = update s.link p none := by
    have : s'.link = t.link := by
      funext q
      simp only [Pmap.link, hpages]
    rw [this]
    exact link_setLink _ _ _
  have hppref : ∀ q, (s'.pages q).ppRef = (s.pages q).ppRef := by
    intro q
    rw [hpages]
    exact ppRef_setLink _ _ _ _
  obtain ⟨hpde, hpte, href⟩ := L.mem_irrelevant hp hrefs hkern hmem
  have hrefs' : refs dirs s' = refs dirs s := by
    funext q
    simp only [refs, href]
  refine ⟨s', hs', ?_, hpde, hpte, href, hkern, by simp [hlink], hppref, hmem, ?_⟩
  · refine ⟨hnp ▸ L.npages_le, hnp ▸ L.frame_lt, ?_, ?_, ?_, ?_, ?_, ?_, hkern ▸ L.kern_dir, ?_⟩
    · rw [hlink, hfl]
      exact L.chain.pop
    · intro q hq
      rw [hrefs']
      exact L.free q (List.mem_cons_of_mem _ hq)
    · intro q hq hql
      rw [hlink]
      by_cases hqp : q = p
      · subst hqp
        simp
      · rw [update_of_ne hqp]
        exact L.link_none q hq (by simp [hqp, hql])
    · intro q hq
      rw [hppref, hrefs']
      exact L.ref_eq q hq
    · intro x q hx
      rw [href] at hx
      exact L.owned x q hx
    · intro x q hx
      rw [hrefs']
      rw [href] at hx
      exact L.single x q hx
    · intro k hk
      have := congrFun href (.kern k)
      simp only [ref] at this
      rw [this]
      exact L.kern_user k hk
  · intro hz t'
    subst hz
    change (t.clear p).mem p t' = 0#32
    rw [mem_clear_self]

/-- Incrementing `pp_ref` takes a reference into the kernel's hand. -/
theorem incref (L : Ledger F dirs s held l) (hpl : p ∉ l)
    (hsingle : ∀ x, ref dirs s x = some p → x.isPage) :
    Ledger F dirs (s.pageIncref p) (update held p (held p + 1)) l := by
  have href : ref dirs (s.pageIncref p) = ref dirs s := ref_congr rfl rfl
  have hrefs : refs dirs (s.pageIncref p) = refs dirs s := by
    funext q
    simp only [refs, href]
  have hlink : (s.pageIncref p).link = s.link := link_setRef _ _ _
  refine ⟨L.npages_le, L.frame_lt, ?_, ?_, ?_, ?_, ?_, ?_, L.kern_dir, L.kern_user⟩
  · rw [hlink]
    exact L.chain
  · intro q hq
    have hqp : q ≠ p := fun h => hpl (h ▸ hq)
    rw [hrefs, update_of_ne hqp]
    exact L.free q hq
  · intro q hq hql
    rw [hlink]
    exact L.link_none q hq hql
  · intro q hq
    by_cases hqp : q = p
    · subst hqp
      rw [update_self, Pmap.pageIncref, ppRef_setRef_self, L.ref_eq q hq, ← Nat.add_assoc]
      exact (BitVec.ofNat_add _ _).symm
    · rw [update_of_ne hqp, Pmap.pageIncref, ppRef_setRef_of_ne _ hqp]
      exact L.ref_eq q hq
  · intro x q hx
    exact L.owned x q hx
  · intro x q hx hq hnp
    have hqp : q ≠ p := by
      rintro rfl
      exact hnp (hsingle x hx)
    rw [hrefs, update_of_ne hqp]
    exact L.single x q hx hq hnp

theorem ofNat_sub_one {n : ℕ} (hn : 0 < n) :
    BitVec.ofNat 16 n - 1 = BitVec.ofNat 16 (n - 1) := by
  obtain ⟨m, rfl⟩ := Nat.exists_eq_succ_of_ne_zero hn.ne'
  rw [Nat.succ_eq_add_one, BitVec.ofNat_add, Nat.add_sub_cancel]
  exact BitVec.add_sub_cancel _ _

/-- The counter reads zero only when it is, if it cannot have wrapped. -/
theorem ofNat_eq_zero {n : ℕ} (hn : n < 65536) : BitVec.ofNat 16 n = 0 ↔ n = 0 := by
  constructor
  · intro h
    have := congrArg BitVec.toNat h
    rw [BitVec.toNat_ofNat, Nat.mod_eq_of_lt hn] at this
    exact this
  · rintro rfl
    rfl

section

variable (L : Ledger F dirs s held l)
include L

/-- The counter goes down with a reference from the kernel's hand. -/
theorem lower (hp : p ∈ F) (hh : 0 < held p) :
    Ledger F dirs (s.setRef p ((s.pages p).ppRef - 1)) (update held p (held p - 1)) l := by
  have hother : ∀ q, held q = 0 → update held p (held p - 1) q = 0 := by
    intro q hq
    rwa [update_of_ne]
    rintro rfl
    omega
  refine ⟨L.npages_le, L.frame_lt, ?_, fun q hq => ?_, fun q hq hql => ?_, fun q hq => ?_, L.owned,
    fun x q hx hq hnp => ?_, L.kern_dir, L.kern_user⟩
  · rw [link_setRef]
    exact L.chain
  · obtain ⟨hF, hrefs, hheld⟩ := L.free q hq
    exact ⟨hF, hrefs, hother q hheld⟩
  · rw [link_setRef]
    exact L.link_none q hq hql
  · by_cases hqp : q = p
    · subst hqp
      rw [update_self, ppRef_setRef_self, L.ref_eq q hq, ofNat_sub_one (by omega),
        Nat.add_sub_assoc hh]
      rfl
    · rw [update_of_ne hqp, ppRef_setRef_of_ne _ hqp]
      exact L.ref_eq q hq
  · obtain ⟨hrefs, hheld⟩ := L.single x q hx hq hnp
    exact ⟨hrefs, hother q hheld⟩

/-- `page_free` of a page nobody refers to; its assertion holds. -/
theorem push (hp : p ∈ F) (hpl : p ∉ l) (hr : refs dirs s p = 0) (hh : held p = 0) :
    ∃ s', s.pageFree p = some s' ∧ s'.mem = s.mem ∧ s'.kernPgdir = s.kernPgdir ∧
      Ledger F dirs s' held (p :: l) := by
  have hlink : (s.pages p).ppLink = none := L.link_none p hp hpl
  have hzero : (s.pages p).ppRef = 0 := by
    rw [L.ref_eq p hp, hr, hh]
    rfl
  have hset : (s.setLink p s.pageFreeList).link = update s.link p s.pageFreeList :=
    link_setLink _ _ _
  refine ⟨{ s.setLink p s.pageFreeList with pageFreeList := some p }, ?_, rfl, rfl, L.npages_le,
    L.frame_lt, ?_, fun q hq => ?_, fun q hq hql => ?_,
    fun q hq => (ppRef_setLink _ _ _ _).trans (L.ref_eq q hq), L.owned, L.single, L.kern_dir,
    L.kern_user⟩
  · rw [Pmap.pageFree, hzero, hlink]
    rfl
  · show Chain (s.setLink p s.pageFreeList).link _ _
    rw [hset]
    exact L.chain.push hpl
  · rcases List.mem_cons.mp hq with rfl | hq
    · exact ⟨hp, hr, hh⟩
    · exact L.free q hq
  · rw [List.mem_cons, not_or] at hql
    show (s.setLink p s.pageFreeList).link q = none
    rw [hset, update_of_ne hql.1]
    exact L.link_none q hq hql.2

/-- `page_decref` gives back a reference from the kernel's hand, and puts the page on the
    free list when it was the last one. Its assertions hold. -/
theorem decref (hp : p ∈ F) (hh : 0 < held p)
    (hb : refs dirs s p + held p ≤ 65536) :
    ∃ s', s.pageDecref p = some s' ∧ s'.mem = s.mem ∧ s'.kernPgdir = s.kernPgdir ∧
      Ledger F dirs s' (update held p (held p - 1))
        (if refs dirs s p + held p = 1 then p :: l else l) := by
  have L1 := L.lower hp hh
  have hlast : (s.pages p).ppRef - 1 = 0 ↔ refs dirs s p + held p = 1 := by
    rw [L.ref_eq p hp, ofNat_sub_one (by omega), ofNat_eq_zero (by omega)]
    omega
  rw [Pmap.pageDecref, ppRef_setRef_self]
  by_cases hone : refs dirs s p + held p = 1
  · have hpl : p ∉ l := by
      intro hm
      have := (L.free p hm).2.2
      omega
    rw [if_pos (hlast.mpr hone), if_pos hone]
    exact L1.push hp hpl (show refs dirs s p = 0 by omega) (by rw [update_self]; omega)
  · -- references remain: only the counter changes
    rw [if_neg (mt hlast.mp hone), if_neg hone]
    exact ⟨_, rfl, rfl, rfl, L1⟩

/-! ### Moving references between sites and the kernel's hand -/

/-- A step that moves references without creating or losing any keeps the ledger. -/
theorem move {dirs' : EnvIx → Option ℕ} {s' : Pmap} {held' : ℕ → ℕ}
    {v : Option ℕ} (hpages : s'.pages = s.pages) (hfl : s'.pageFreeList = s.pageFreeList)
    (hn : s'.npages = s.npages) (hk : s'.kernPgdir = s.kernPgdir)
    (href : ref dirs' s' = update (ref dirs s) x v) (hx : ¬ x.isKern)
    (hv : ∀ p, v = some p → p ∈ F)
    (hsum : ∀ p, refs dirs' s' p + held' p = refs dirs s p + held p)
    (hsingle : ∀ y p, ref dirs' s' y = some p → p ∈ F → ¬ y.isPage →
      refs dirs' s' p = 1 ∧ held' p = 0) :
    Ledger F dirs' s' held' l := by
  have hlink : s'.link = s.link := by
    funext p
    simp only [Pmap.link, hpages]
  refine ⟨hn ▸ L.npages_le, hn ▸ L.frame_lt, ?_, ?_, ?_, ?_, ?_, hsingle, hk ▸ L.kern_dir, ?_⟩
  · rw [hlink, hfl]
    exact L.chain
  · intro p hp
    obtain ⟨hpF, h0, h1⟩ := L.free p hp
    have := hsum p
    exact ⟨hpF, by omega, by omega⟩
  · intro p hp hpl
    rw [hlink]
    exact L.link_none p hp hpl
  · intro p hp
    rw [hpages, hsum]
    exact L.ref_eq p hp
  · intro y p hy hyk
    by_cases hyx : y = x
    · subst hyx
      rw [href, update_self] at hy
      exact hv p hy
    · rw [href, update_of_ne hyx] at hy
      exact L.owned y p hy hyk
  · intro k hk'
    have hne : Site.kern k ≠ x := by
      rintro rfl
      exact hx trivial
    have := congrFun href (.kern k)
    rw [update_of_ne hne] at this
    simp only [ref] at this
    rw [this]
    exact L.kern_user k hk'

section Sites

variable {dirs' : EnvIx → Option ℕ} {s' : Pmap}

/-- **A held reference goes into an empty site.** Only page-table entries share a page. -/
theorem gain (href : ref dirs' s' = update (ref dirs s) x (some p))
    (hpages : s'.pages = s.pages) (hfl : s'.pageFreeList = s.pageFreeList)
    (hn : s'.npages = s.npages)
    (hk : s'.kernPgdir = s.kernPgdir) (hx : ¬ x.isKern) (hold : ref dirs s x = none) (hp : p ∈ F)
    (hh : 0 < held p) (hsite : x.isPage ∨ refs dirs s p = 0 ∧ held p = 1) :
    Ledger F dirs' s' (update held p (held p - 1)) l := by
  have hcount : ∀ q, refs dirs' s' q = refs dirs s q + if p = q then 1 else 0 := by
    intro q
    rw [refs, href, count_update_some hold]
    rfl
  refine L.move hpages hfl hn hk href hx ?_ ?_ ?_
  · rintro q hq
    rw [← Option.some.inj hq]
    exact hp
  · intro q
    rw [hcount]
    by_cases hqp : q = p
    · subst hqp
      rw [update_self, if_pos rfl]
      omega
    · rw [update_of_ne hqp, if_neg (Ne.symm hqp)]
      omega
  · intro y q hy hq hnp
    by_cases hyx : y = x
    · subst hyx
      rw [href, update_self] at hy
      cases hy
      obtain ⟨hrefs, hone⟩ := hsite.resolve_left hnp
      rw [hcount, if_pos rfl, hrefs, update_self, hone]
      exact ⟨rfl, rfl⟩
    · rw [href, update_of_ne hyx] at hy
      obtain ⟨h1, h2⟩ := L.single y q hy hq hnp
      have hqp : q ≠ p := by
        rintro rfl
        omega
      rw [hcount, if_neg (Ne.symm hqp), Nat.add_zero, update_of_ne hqp]
      exact ⟨h1, h2⟩

/-- **A site is emptied.** Its reference is left in the kernel's hand. -/
theorem lose (href : ref dirs' s' = update (ref dirs s) x none)
    (hpages : s'.pages = s.pages) (hfl : s'.pageFreeList = s.pageFreeList)
    (hn : s'.npages = s.npages)
    (hk : s'.kernPgdir = s.kernPgdir) (hx : ¬ x.isKern) (hold : ref dirs s x = some p) :
    Ledger F dirs' s' (update held p (held p + 1)) l ∧ refs dirs' s' p + 1 = refs dirs s p := by
  have hcount : ∀ q, refs dirs' s' q + (if p = q then 1 else 0) = refs dirs s q := by
    intro q
    have := count_update_none (ref dirs s) x q
    rw [← href] at this
    simpa only [refs, hold, Option.some.injEq] using this
  refine ⟨L.move hpages hfl hn hk href hx (by simp) ?_ ?_, ?_⟩
  · intro q
    have := hcount q
    by_cases hqp : q = p
    · subst hqp
      rw [if_pos rfl] at this
      rw [update_self]
      omega
    · rw [if_neg (Ne.symm hqp)] at this
      rw [update_of_ne hqp]
      omega
  · intro y q hy hq hnp
    have hyx : y ≠ x := by
      rintro rfl
      rw [href, update_self] at hy
      cases hy
    rw [href, update_of_ne hyx] at hy
    have hqp : q ≠ p := by
      rintro rfl
      exact hyx (L.eq_of_single hy hq hnp hold).symm
    have := hcount q
    rw [if_neg (Ne.symm hqp), Nat.add_zero] at this
    rw [this, update_of_ne hqp]
    exact L.single y q hy hq hnp
  · have := hcount p
    rwa [if_pos rfl] at this

end Sites

/-- Storing a held reference to `p` into an empty page-table entry. -/
theorem store_page (ht : frameOf (pde dirs s e i) = some f)
    (hold : frameOf (pte dirs s e i j) = none) (hw : frameOf w = some p) (hp : p ∈ F)
    (hh : 0 < held p) :
    Ledger F dirs (s.write f j w) (update held p (held p - 1)) l := by
  have href := L.ref_write_table (j := j) (w := w) ht
  rw [hw] at href
  exact L.gain href rfl rfl rfl rfl (by simp [Site.isKern]) hold hp hh (.inl trivial)

/-- Clearing a page-table entry leaves its reference in the kernel's hand. -/
theorem clear_page (ht : frameOf (pde dirs s e i) = some f)
    (hold : frameOf (pte dirs s e i j) = some p) :
    Ledger F dirs (s.write f j 0#32) (update held p (held p + 1)) l ∧
      refs dirs (s.write f j 0#32) p + 1 = refs dirs s p := by
  have href := L.ref_write_table (j := j) (w := 0#32) ht
  exact L.lose href rfl rfl rfl rfl (by simp [Site.isKern]) hold

theorem store_table (he : dirs e = some d) (hi : i < pdxUtop)
    (hold : frameOf (pde dirs s e i) = none) (hw : frameOf w = some p) (hp : p ∈ F)
    (hrefs : refs dirs s p = 0) (hh : held p = 1) (hzero : ∀ t, s.mem p t = 0#32) :
    Ledger F dirs (s.write d i w) (update held p 0) l ∧
      ref dirs (s.write d i w) = update (ref dirs s) (.table e i) (some p) := by
  have hpd : p ≠ d := by
    rintro rfl
    exact count_eq_zero_iff.mp hrefs (.dir e) he
  have href := L.ref_write_dir (w := w) he hi (fun t => by simp [pte_of_no_table hold])
    (by
      intro f hf
      rw [hw] at hf
      rw [← Option.some.inj hf]
      exact ⟨hpd, hzero⟩)
  rw [hw] at href
  have hnew :=
    L.gain href rfl rfl rfl rfl (by simp [Site.isKern]) hold hp (by omega) (.inr ⟨hrefs, hh⟩)
  rw [hh] at hnew
  exact ⟨hnew, href⟩

/-- Dropping an empty page table leaves its reference in the kernel's hand. -/
theorem clear_table (he : dirs e = some d)
    (hold : frameOf (pde dirs s e i) = some p)
    (hempty : ∀ t, frameOf (pte dirs s e i t) = none) :
    Ledger F dirs (s.write d i 0#32) (update held p 1) l ∧
      ref dirs (s.write d i 0#32) = update (ref dirs s) (.table e i) none ∧
      refs dirs (s.write d i 0#32) p = 0 := by
  obtain ⟨d', he', hi, _⟩ := exists_dir_of_table hold
  have href := L.ref_write_dir (w := 0#32) he hi hempty (by simp)
  obtain ⟨hone, hheld⟩ := L.single (.table e i) p hold (L.table_mem hold) (by simp [Site.isPage])
  obtain ⟨hnew, hcount⟩ := L.lose href rfl rfl rfl rfl (by simp [Site.isKern]) hold
  rw [hheld] at hnew
  exact ⟨hnew, href, by omega⟩

end

/-- The sites after environment `e` got a page directory whose user half is empty. -/
theorem ref_new_dir {dirs : EnvIx → Option ℕ} {s : Pmap} (hdir : dirs e = none)
    (hempty : ∀ j < pdxUtop, frameOf (s.mem p j) = none) :
    ref (update dirs e (some p)) s = update (ref dirs s) (.dir e) (some p) := by
  have hpde : ∀ e' i', frameOf (pde (update dirs e (some p)) s e' i') =
      frameOf (pde dirs s e' i') := by
    intro e' i'
    by_cases he : e' = e
    · subst he
      by_cases hi : i' < pdxUtop
      · simp [pde, hdir, hi, hempty i' hi]
      · simp [pde, hdir, hi]
    · simp [pde, he]
  funext x
  cases x with
  | dir e' =>
    by_cases he : e' = e
    · subst he
      simp [ref]
    · simp [ref, he]
  | table e' i' =>
    exact hpde e' i'
  | page e' i' t' =>
    rw [update_of_ne (by simp)]
    simp only [ref, pte, hpde]
  | kern i' =>
    rfl

/-- Making a page, held once, the directory of an environment without one. -/
theorem store_dir (L : Ledger F dirs s held l) (hdir : dirs e = none) (hp : p ∈ F)
    (hrefs : refs dirs s p = 0) (hh : held p = 1)
    (hempty : ∀ j < pdxUtop, frameOf (s.mem p j) = none) :
    Ledger F (update dirs e (some p)) s (update held p 0) l := by
  have hnew :=
    L.gain (ref_new_dir hdir hempty) rfl rfl rfl rfl (by simp [Site.isKern]) hdir hp (by omega)
    (.inr ⟨hrefs, hh⟩)
  rwa [hh] at hnew

/-- Dropping a directory without tables leaves its reference in the kernel's hand. -/
theorem clear_dir (L : Ledger F dirs s held l) (he : dirs e = some d)
    (hempty : ∀ i, frameOf (pde dirs s e i) = none) :
    Ledger F (update dirs e none) s (update held d 1) l ∧
      ref (update dirs e none) s = update (ref dirs s) (.dir e) none ∧
      refs (update dirs e none) s d = 0 := by
  -- the sites with the directory are those without it plus one
  have hback : ref dirs s = update (ref (update dirs e none) s) (.dir e)
      (some d) := by
    have hrow : ∀ j < pdxUtop, frameOf (s.mem d j) = none := by
      intro j hj
      have := hempty j
      rwa [pde_of_dir he hj] at this
    have hset : ref (update (update dirs e none) e (some d)) s =
        update (ref (update dirs e none) s) (.dir e) (some d) :=
      ref_new_dir (update_self ..) hrow
    rwa [update_idem, ← he, Function.update_eq_self, he] at hset
  have hold : ref (update dirs e none) s (.dir e) = none := by simp [ref]
  have href : ref (update dirs e none) s = update (ref dirs s) (.dir e) none := by
    rw [hback, update_idem]
    exact (Function.update_eq_self_iff.mpr hold.symm).symm
  obtain ⟨hone, hheld⟩ := L.single (.dir e) d he (L.dir_mem he) (by simp [Site.isPage])
  obtain ⟨hnew, hcount⟩ := L.lose href rfl rfl rfl rfl (by simp [Site.isKern]) he
  rw [hheld] at hnew
  exact ⟨hnew, href, by omega⟩

end Ledger

end LinuxStudy.Jos
