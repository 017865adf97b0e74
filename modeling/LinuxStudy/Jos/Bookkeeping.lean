import LinuxStudy.Jos.Boot
import Mathlib.Data.Fintype.Prod

/-!
# Reference counts and the free list, in every reachable state

The memory manager as a transition system: from the state `page_init` leaves, any sequence of
`env_setup_vm`, `page_alloc` with `page_insert`, `page_insert` of a mapped page, `pgdir_walk`
with `create`, `page_remove` and `env_free`. As long as no page has 65536 references the
counter in `struct PageInfo` is the number of references, and nothing panics.
-/

namespace LinuxStudy.Jos

open RefCount

/-! ### The operations -/

inductive PageOp
  | setupVm (e : EnvIx)
  | allocInsert (e : EnvIx) (va perm : Word) (zero : Bool)
  | insert (e : EnvIx) (pp : ℕ) (va perm : Word)
  | walk (e : EnvIx) (va : Word)
  | remove (e : EnvIx) (va : Word)
  | envFree (e : EnvIx)

/-- When the kernel may perform an operation: on a live address space, below `UTOP`, with
    permissions in the low 12 bits; only mapped pages are inserted again, and only an
    environment without an address space gets one. -/
def PageOp.Enabled (k : Kernel) : PageOp → Prop
  | .setupVm e => k.dirs e = none
  | .allocInsert e va perm _ => k.dirs e ≠ none ∧ va < utop ∧ IsPerm perm
  | .insert e pp va perm => k.dirs e ≠ none ∧ va < utop ∧ IsPerm perm ∧
      ∃ e' i t, frameOf (pte k.dirs k.pmap e' i t) = some pp
  | .walk e va => k.dirs e ≠ none ∧ va < utop
  | .remove e va => k.dirs e ≠ none ∧ va < utop
  | .envFree e => k.dirs e ≠ none

def Kernel.exec (k : Kernel) : PageOp → Option Kernel
  | .setupVm e => (k.envSetupVm e).map Prod.fst
  | .allocInsert e va perm zero => (k.pmap.pageAlloc zero).bind fun (s, pp) =>
      match pp with
      | none => some (k.setPmap s)
      | some pp => (s.pageInsert (k.dirs e) pp va perm).map fun r => k.setPmap r.1
  | .insert e pp va perm => (k.pmap.pageInsert (k.dirs e) pp va perm).map fun r => k.setPmap r.1
  | .walk e va => (k.pmap.pgdirWalk (k.dirs e) va true).map fun r => k.setPmap r.1
  | .remove e va => (k.pmap.pageRemove (k.dirs e) va).map k.setPmap
  | .envFree e => k.envFree e

/-- No page has 65536 references. -/
def Bounded (k : Kernel) : Prop := ∀ p, refs k.dirs k.pmap p < 65536

/-- One operation that is enabled and does not panic. -/
def PageStep (k : Kernel) (op : PageOp) (k' : Kernel) : Prop :=
  op.Enabled k ∧ k.exec op = some k' ∧ Bounded k'

namespace Kernel

variable (k : Kernel)

theorem dirs_setPgdir (s : Pmap) (e : EnvIx) (d : Option ℕ) :
    ((k.setPmap s).setEnv e fun env => { env with envPgdir := d }).dirs =
      Function.update k.dirs e d := by
  funext e'
  by_cases he : e' = e
  · subst he
    simp [dirs, setEnv]
  · simp [dirs, setEnv, setPmap, he]

theorem dirs_releaseEnv (e : EnvIx) : (k.releaseEnv e).dirs = Function.update k.dirs e none := by
  funext e'
  by_cases he : e' = e
  · subst he
    simp [dirs, releaseEnv, setEnv]
  · simp [dirs, releaseEnv, setEnv, he]

theorem envFree_eq {e : EnvIx} {d : ℕ} {s : Pmap} (he : k.dirs e = some d)
    (hs : k.pmap.envFreeVm d = some s) : k.envFree e = some ((k.setPmap s).releaseEnv e) := by
  rw [envFree, show (k.envs e).envPgdir = some d from he]
  simp only [hs, Option.bind_some]

end Kernel

namespace Ledger

variable {F : Set ℕ} {dirs : EnvIx → Option ℕ} {s : Pmap} {held : ℕ → ℕ} {l : List ℕ}
  {e : EnvIx} {i t : Idx} {d p q : ℕ} {va perm : Word}

/-- A mapped page is managed, not free, and neither a directory nor a table. -/
theorem mapped_page (L : Ledger F dirs s held l) (hp : frameOf (pte dirs s e i t) = some p) :
    p ∈ F ∧ p ∉ l ∧ ∀ x, ref dirs s x = some p → x.isPage := by
  have hpx : ref dirs s (.page e i t) = some p := hp
  refine ⟨L.page_mem hp, fun hl => ?_, fun x hx => ?_⟩
  · exact count_eq_zero_iff.mp (L.free p hl).2.1 _ hpx
  · by_contra hnp
    have := L.eq_of_single hx (L.page_mem hp) hnp hpx
    subst this
    exact hnp trivial

theorem alloc_keeps {s' : Pmap} (hk : s'.kernPgdir = s.kernPgdir)
    (hm : ∀ f, f ≠ p → s'.mem f = s.mem f) : KeepsFrames dirs s (p :: l) s' := by
  refine ⟨hk, fun f j hf _ _ => ?_⟩
  have hfp : f ≠ p := fun h => hf (h ▸ List.mem_cons_self)
  rw [hm f hfp]

section

variable (L : Sound F dirs s l)
include L

theorem insert_mapped (he : dirs e = some d) (hva : va < utop)
    (hperm : IsPerm perm) {e' : EnvIx} (hp : frameOf (pte dirs s e' i t) = some p)
    (hb : ∀ p, refs dirs s p < 65536) :
    (l = [] ∧ s.pageInsert (some d) p va perm = some (s, -eNoMem)) ∨
    ∃ s' l', s.pageInsert (some d) p va perm = some (s', 0) ∧
      EntrySet F dirs s (fun _ => 0) l e (pdx va) (ptx va) (mkPte p perm) s' l' := by
  obtain ⟨hpF, hpl, hpage⟩ := L.mapped_page hp
  rcases L.insert he ((lt_utop_iff va).mp hva) hperm hpF hpl hpage (fun q _ => by
    rw [Nat.add_zero]
    exact hb q) with ⟨_, hl, hs⟩ | h
  · exact .inl ⟨hl, hs⟩
  · exact .inr h

/-- `page_alloc` followed by `page_insert`. When the insertion fails the page stays
    allocated, with no reference. -/
theorem alloc_insert (he : dirs e = some d) (hva : va < utop)
    (hperm : IsPerm perm) (zero : Bool) (hb : ∀ p, refs dirs s p < 65536) :
    (l = [] ∧ s.pageAlloc zero = some (s, none)) ∨
    ∃ q l1 s1, l = q :: l1 ∧ s.pageAlloc zero = some (s1, some q) ∧ Sound F dirs s1 l1 ∧
      pde dirs s1 = pde dirs s ∧ pte dirs s1 = pte dirs s ∧ ref dirs s1 = ref dirs s ∧
      Evolves dirs s dirs s1 ∧ (∀ f, f ≠ q → s1.mem f = s.mem f) ∧
      (zero = true → ∀ t, s1.mem q t = 0#32) ∧
      ((frameOf (pde dirs s e (pdx va)) = none ∧ l1 = [] ∧
          s1.pageInsert (some d) q va perm = some (s1, -eNoMem)) ∨
        ∃ s' l', s1.pageInsert (some d) q va perm = some (s', 0) ∧
          EntrySet F dirs s1 (fun _ => 0) l1 e (pdx va) (ptx va) (mkPte q perm) s' l') := by
  cases l with
  | nil => exact .inl ⟨rfl, L.alloc_nil zero⟩
  | cons q l =>
    right
    obtain ⟨s1, hs1, L1, hpde1, hpte1, href1, hk1, _, _, hmem1, hzero1⟩ := L.alloc zero
    obtain ⟨hq, hrefs, _⟩ := L.free q List.mem_cons_self
    have hql : q ∉ l := (List.nodup_cons.mp L.chain.nodup).1
    have hpage : ∀ x, ref dirs s1 x = some q → x.isPage := by
      intro x hx
      rw [href1] at hx
      exact absurd hx (count_eq_zero_iff.mp hrefs x)
    have hb1 : ∀ p, refs dirs s1 p < 65536 := by
      intro p
      rw [refs, href1]
      exact hb p
    have hins := L1.insert he ((lt_utop_iff va).mp hva) hperm hq hql hpage fun p _ => by
      rw [Nat.add_zero]
      exact hb1 p
    rw [hpde1] at hins
    exact ⟨q, l, s1, rfl, hs1, L1, hpde1, hpte1, href1, L.evolves (alloc_keeps hk1 hmem1), hmem1,
      hzero1, hins⟩

theorem walk (he : dirs e = some d) (hva : va < utop) :
    ∃ s' slot l', s.pgdirWalk (some d) va true = some (s', slot) ∧ Sound F dirs s' l' ∧
      Evolves dirs s dirs s' := by
  have hi := (lt_utop_iff va).mp hva
  cases ht : frameOf (pde dirs s e (pdx va)) with
  | some f => exact ⟨s, _, l, L.walk_present he ht true, L, Evolves.refl dirs s⟩
  | none =>
    cases l with
    | nil => exact ⟨s, none, [], L.walk_nomem he hi ht, L, Evolves.refl dirs s⟩
    | cons q l =>
      obtain ⟨s', hs', L', _, _, _, hkeep⟩ := L.walk_create he hi ht
      exact ⟨s', _, l, hs', L', L.evolves hkeep⟩

theorem remove (he : dirs e = some d) (hva : va < utop)
    (hb : ∀ p, refs dirs s p ≤ 65536) :
    ∃ s' l', s.pageRemove (some d) va = some s' ∧ Progress F dirs s l dirs s' l' := by
  cases hp : frameOf (pte dirs s e (pdx va) (ptx va)) with
  | none => exact ⟨s, l, L.remove_absent he ((lt_utop_iff va).mp hva) hp, Progress.refl L⟩
  | some p =>
    obtain ⟨s', hs', E, _⟩ := L.remove_present he hp (by
      rw [Nat.add_zero]
      exact hb p)
    exact ⟨s', _, hs', L.progress E⟩

end

/-- Each enabled operation runs to its end and keeps the ledger and the kernel half. -/
theorem exec {k : Kernel} {op : PageOp} (L : Sound F k.dirs k.pmap l) (hb : Bounded k)
    (hop : op.Enabled k) :
    ∃ k' l', k.exec op = some k' ∧ Sound F k'.dirs k'.pmap l' ∧
      Evolves k.dirs k.pmap k'.dirs k'.pmap := by
  cases op with
  | setupVm e =>
    rcases L.setupVm hop with ⟨_, hs⟩ | ⟨q, l', s', _, hs, P, _⟩
    · exact ⟨k, l, by rw [Kernel.exec, hs]; rfl, L, Evolves.refl _ _⟩
    · refine ⟨_, l', by rw [Kernel.exec, hs]; rfl, ?_, ?_⟩
      · rw [k.dirs_setPgdir]
        exact P.ledger
      · rw [k.dirs_setPgdir]
        exact P.evolves
  | allocInsert e va perm zero =>
    obtain ⟨he, hva, hperm⟩ := hop
    obtain ⟨d, hd⟩ := Option.ne_none_iff_exists'.mp he
    rcases L.alloc_insert hd hva hperm zero hb with
      ⟨_, hs⟩ | ⟨q, l1, s1, _, hs1, L1, _, _, _, hev, _, _, ⟨_, _, hins⟩ | ⟨s', l', hins, E⟩⟩
    · exact ⟨k, l, by simp only [Kernel.exec, hs, Option.bind_some]; rfl, L, Evolves.refl _ _⟩
    · exact ⟨k.setPmap s1, l1, by simp [Kernel.exec, hs1, hd, hins], L1, hev⟩
    · exact ⟨k.setPmap s', l', by simp [Kernel.exec, hs1, hd, hins], E.ledger,
        hev.trans (L1.evolves E.keeps)⟩
  | insert e pp va perm =>
    obtain ⟨he, hva, hperm, e', i, t, hp⟩ := hop
    obtain ⟨d, hd⟩ := Option.ne_none_iff_exists'.mp he
    rcases L.insert_mapped hd hva hperm hp hb with ⟨_, hs⟩ | ⟨s', l', hs, E⟩
    · exact ⟨k, l, by simp only [Kernel.exec, hd, hs, Option.map_some]; rfl, L, Evolves.refl _ _⟩
    · exact ⟨k.setPmap s', l', by simp [Kernel.exec, hd, hs], E.ledger, L.evolves E.keeps⟩
  | walk e va =>
    obtain ⟨he, hva⟩ := hop
    obtain ⟨d, hd⟩ := Option.ne_none_iff_exists'.mp he
    obtain ⟨s', slot, l', hs, L', hev⟩ := L.walk hd hva
    exact ⟨k.setPmap s', l', by simp [Kernel.exec, hd, hs], L', hev⟩
  | remove e va =>
    obtain ⟨he, hva⟩ := hop
    obtain ⟨d, hd⟩ := Option.ne_none_iff_exists'.mp he
    obtain ⟨s', l', hs, P⟩ := L.remove hd hva fun p => (hb p).le
    exact ⟨k.setPmap s', l', by simp [Kernel.exec, hd, hs], P.ledger, P.evolves⟩
  | envFree e =>
    obtain ⟨d, hd⟩ := Option.ne_none_iff_exists'.mp hop
    obtain ⟨s', l', hs, S, _⟩ := L.freeVm hd fun p => (hb p).le
    refine ⟨_, l', k.envFree_eq hd hs, ?_, ?_⟩
    · rw [Kernel.dirs_releaseEnv]
      exact S.ledger
    · rw [Kernel.dirs_releaseEnv]
      exact S.evolves

end Ledger

/-! ### Counting references by kind -/

/-- Present page-table entries below `UTOP` that map the page. -/
def pteRefs (dirs : EnvIx → Option ℕ) (s : Pmap) (p : ℕ) : ℕ :=
  count (fun x : EnvIx × Idx × Idx => frameOf (pte dirs s x.1 x.2.1 x.2.2)) p

/-- Page-directory entries below `UTOP` that use the page as a table. -/
def pdeRefs (dirs : EnvIx → Option ℕ) (s : Pmap) (p : ℕ) : ℕ :=
  count (fun x : EnvIx × Idx => frameOf (pde dirs s x.1 x.2)) p

/-- Live environments whose `env_pgdir` is the page. -/
def dirRefs (dirs : EnvIx → Option ℕ) (p : ℕ) : ℕ := count dirs p

/-- Entries of `kern_pgdir` that refer to the page. -/
def kernRefs (s : Pmap) (p : ℕ) : ℕ := count (fun i => frameOf (s.mem s.kernPgdir i)) p

/-- The four kinds of sites. -/
def Site.kinds : EnvIx ⊕ (EnvIx × Idx) ⊕ (EnvIx × Idx × Idx) ⊕ Idx ≃ Site where
  toFun
    | .inl e => .dir e
    | .inr (.inl x) => .table x.1 x.2
    | .inr (.inr (.inl x)) => .page x.1 x.2.1 x.2.2
    | .inr (.inr (.inr i)) => .kern i
  invFun
    | .dir e => .inl e
    | .table e i => .inr (.inl (e, i))
    | .page e i t => .inr (.inr (.inl (e, i, t)))
    | .kern i => .inr (.inr (.inr i))
  left_inv x := by rcases x with e | x | x | i <;> rfl
  right_inv x := by cases x <;> rfl

theorem refs_eq (dirs : EnvIx → Option ℕ) (s : Pmap) (p : ℕ) :
    refs dirs s p = pteRefs dirs s p + pdeRefs dirs s p + dirRefs dirs p + kernRefs s p := by
  have hkinds : (fun x => ref dirs s (Site.kinds x)) =
      Sum.elim dirs (Sum.elim (fun x : EnvIx × Idx => frameOf (pde dirs s x.1 x.2))
        (Sum.elim (fun x : EnvIx × Idx × Idx => frameOf (pte dirs s x.1 x.2.1 x.2.2))
          fun i => frameOf (s.mem s.kernPgdir i))) := by
    funext x
    rcases x with e | x | x | i <;> rfl
  rw [refs, ← count_equiv Site.kinds, hkinds, count_sum, count_sum, count_sum]
  simp only [pteRefs, pdeRefs, dirRefs, kernRefs]
  omega

/-! ### Runs -/

/-- The kernel right after `page_init`, before there are environments. -/
def AfterPageInit (k : Kernel) (s₀ : Pmap) (npagesBasemem extendedFree : ℕ) : Prop :=
  s₀.Early npagesBasemem extendedFree ∧ s₀.pageInit npagesBasemem extendedFree = some k.pmap ∧
    k.dirs = noDirs

/-- The invariant of the memory manager: a sound ledger, and no managed page under
    `kern_pgdir`. -/
def Managed (F : Set ℕ) (k : Kernel) : Prop :=
  (∃ l, Sound F k.dirs k.pmap l) ∧
    ∀ i f, frameOf (k.pmap.mem k.pmap.kernPgdir i) = some f → f ∉ F

section Runs

variable {k k' : Kernel} {s₀ : Pmap} {b x : ℕ} {F : Set ℕ} {ops : List PageOp}

theorem kernRefs_le (s : Pmap) (p : ℕ) : kernRefs s p ≤ 1024 :=
  (count_le_card fun i _ => Finset.mem_univ i).trans_eq
    (Finset.card_univ.trans (Fintype.card_fin _))

/-- Without environments only the 1024 entries of `kern_pgdir` can refer to a page. -/
theorem refs_noDirs_le (s : Pmap) (p : ℕ) : refs noDirs s p ≤ 1024 := by
  have hpte : pteRefs noDirs s p = 0 := count_eq_zero_iff.mpr fun y => by simp [pte, pde, noDirs]
  have hpde : pdeRefs noDirs s p = 0 := count_eq_zero_iff.mpr fun y => by simp [pde, noDirs]
  have hdir : dirRefs noDirs p = 0 := count_eq_zero_iff.mpr fun y => by simp [noDirs]
  have hkern := kernRefs_le s p
  rw [refs_eq]
  omega

theorem AfterPageInit.managed (h : AfterPageInit k s₀ b x) :
    Managed (freeFrames s₀.npages b x) k ∧ Bounded k := by
  obtain ⟨hearly, hinit, hdirs⟩ := h
  obtain ⟨s', hs', hmem, hkern, L⟩ := hearly.pageInit
  cases hs'.symm.trans hinit
  refine ⟨⟨⟨_, by rw [hdirs]; exact L⟩, fun i f hf => ?_⟩, fun p => ?_⟩
  · rw [hmem, hkern] at hf
    exact hearly.kern_frame i f hf
  · have := refs_noDirs_le k.pmap p
    rw [hdirs]
    omega

theorem Managed.step {op : PageOp} (h : Managed F k) (hb : Bounded k) (hs : PageStep k op k') :
    Managed F k' ∧ Bounded k' := by
  obtain ⟨⟨l, L⟩, hkern⟩ := h
  obtain ⟨hop, hexec, hb'⟩ := hs
  obtain ⟨k1, l', hk1, L', hev⟩ := L.exec hb hop
  cases hk1.symm.trans hexec
  refine ⟨⟨⟨l', L'⟩, fun i f hf => ?_⟩, hb'⟩
  rw [hev.kern_dir, hev.kern_row] at hf
  exact hkern i f hf

theorem Managed.run (h : Managed F k) (hb : Bounded k) (hrun : Run PageStep k ops k') :
    Managed F k' ∧ Bounded k' :=
  hrun.invariant (fun k => Managed F k ∧ Bounded k) ⟨h, hb⟩ fun _ _ _ hI hs => hI.1.step hI.2 hs

/-- On a managed page the counter of `struct PageInfo` is the number of references. -/
theorem Managed.ppRef_eq (h : Managed F k) (hb : Bounded k) {p : ℕ} (hp : p ∈ F) :
    (k.pmap.pages p).ppRef.toNat =
      pteRefs k.dirs k.pmap p + pdeRefs k.dirs k.pmap p + dirRefs k.dirs p := by
  obtain ⟨⟨l, L⟩, hkern⟩ := h
  have hk0 : kernRefs k.pmap p = 0 := count_eq_zero_iff.mpr fun i hi => hkern i p hi hp
  have hlt := hb p
  rw [L.ref_eq p hp, Nat.add_zero, BitVec.toNat_ofNat, Nat.mod_eq_of_lt hlt, refs_eq, hk0,
    Nat.add_zero]

/-- **Reference counts and free list.** In every state reachable from `page_init`, while no
    page has 65536 references: `pp_ref` is the number of page-table entries, page-directory
    entries and environments that refer to the page; the free list ends, has no duplicates
    and holds unreferenced pages only; and no operation runs into an assertion. -/
theorem page_bookkeeping (h : AfterPageInit k s₀ b x) (hrun : Run PageStep k ops k') :
    (∀ p ∈ freeFrames s₀.npages b x, (k'.pmap.pages p).ppRef.toNat =
      pteRefs k'.dirs k'.pmap p + pdeRefs k'.dirs k'.pmap p + dirRefs k'.dirs p) ∧
    (∃ l, Chain k'.pmap.link k'.pmap.pageFreeList l ∧ l.Nodup ∧
      ∀ p ∈ l, p ∈ freeFrames s₀.npages b x ∧
        pteRefs k'.dirs k'.pmap p + pdeRefs k'.dirs k'.pmap p + dirRefs k'.dirs p = 0) ∧
    ∀ op : PageOp, op.Enabled k' → k'.exec op ≠ none := by
  obtain ⟨hman, hb⟩ := h.managed
  obtain ⟨hman', hb'⟩ := hman.run hb hrun
  refine ⟨fun p hp => hman'.ppRef_eq hb' hp, ?_, ?_⟩
  · obtain ⟨⟨l, L⟩, _⟩ := hman'
    refine ⟨l, L.chain, L.chain.nodup, fun p hp => ?_⟩
    obtain ⟨hpF, h0, _⟩ := L.free p hp
    have := refs_eq k'.dirs k'.pmap p
    exact ⟨hpF, by omega⟩
  · intro op hop
    obtain ⟨⟨l, L⟩, _⟩ := hman'
    obtain ⟨k₁, _, hk₁, _⟩ := L.exec hb' hop
    rw [hk₁]
    exact Option.some_ne_none k₁

end Runs

/-! ### A small machine -/

/-- Memory before `page_init` on a machine of `npages` pages, `kern_pgdir` in frame `kern`. -/
def Pmap.blank (npages kern : ℕ) : Pmap where
  npages := npages
  pages _ := ⟨none, 0⟩
  pageFreeList := none
  mem f j := if f = kern ∧ j = pdx uvpt then Kernel.selfWord kern else 0#32
  kernPgdir := kern

theorem Pmap.blank_early {npages kern b x : ℕ} (hn : npages ≤ 2 ^ 20) (hkern : kern < 2 ^ 20)
    (hr : Reserved b x kern) : (Pmap.blank npages kern).Early b x := by
  have hout : kern ∉ freeFrames npages b x := fun h => h.2 hr
  have hself : frameOf (Kernel.selfWord kern) = some kern := by
    have : Kernel.selfWord kern = mkPte kern pteU := by
      rw [Kernel.selfWord, mkPte, BitVec.or_assoc, BitVec.or_assoc, BitVec.or_comm pteP]
    rw [this]
    exact frameOf_mkPte hkern (by decide)
  refine ⟨hn, rfl, hout, ?_, ?_⟩
  · intro i hi
    have hne : i ≠ pdx uvpt := by
      rintro rfl
      exact absurd hi (by decide)
    simp [Pmap.blank, hne]
  · intro i f hf
    by_cases hi : i = pdx uvpt
    · simp only [Pmap.blank, hi, and_self, if_true, hself] at hf
      rw [← Option.some.inj hf]
      exact hout
    · simp [Pmap.blank, hi] at hf

/-- A zeroed `struct Env`. -/
def Env.blank : Env where
  envTf := Trapframe.zero
  envLink := none
  envId := 0
  envParentId := 0
  envType := .user
  envStatus := .free
  envRuns := 0
  envCpunum := 0
  envPgdir := none
  envPgfaultUpcall := 0
  envIpcRecving := false
  envIpcDstva := 0
  envIpcValue := 0
  envIpcFrom := 0
  envIpcPerm := 0

/-- A card with empty rings. -/
def E1000.blank : E1000 where
  tdt := 0
  txDescArray _ := ⟨0, 0, e1000TxdStatDD⟩
  txBufferArray := 0
  rdt := BitVec.ofNat 16 (rxdescs - 1)
  next := 0
  rxDescArray _ := ⟨0, 0, 0⟩
  rxBufferArray := 0

/-- The invariant at work: sixteen pages, and a first address space. -/
theorem page_bookkeeping_first_env : ∃ k k' : Kernel,
    AfterPageInit k (.blank 16 4) 4 6 ∧ Run PageStep k [.setupVm 0] k' ∧ k'.dirs 0 = some 15 ∧
      (k'.pmap.pages 15).ppRef.toNat = pteRefs k'.dirs k'.pmap 15 + pdeRefs k'.dirs k'.pmap 15 +
        dirRefs k'.dirs 15 := by
  have hearly : (Pmap.blank 16 4).Early 4 6 :=
    Pmap.blank_early (by decide) (by decide) (by decide)
  obtain ⟨s, hs, _, _, L⟩ := hearly.pageInit
  let k : Kernel := ⟨s, fun _ => Env.blank, none, E1000.blank⟩
  have hinit : AfterPageInit k (.blank 16 4) 4 6 := ⟨hearly, hs, rfl⟩
  have hfreed : Pmap.freed 4 6 16 = [15, 14, 13, 12, 11, 10, 9, 8, 6, 3, 2, 1] := by decide
  rw [show (Pmap.blank 16 4).npages = 16 from rfl, hfreed] at L
  have Lk : Sound (freeFrames 16 4 6) k.dirs k.pmap
      [15, 14, 13, 12, 11, 10, 9, 8, 6, 3, 2, 1] := L
  obtain ⟨q, l', s', hcons, hexec, _, href⟩ := (Lk.setupVm (e := 0) rfl).resolve_left (by simp)
  cases hcons
  have hstep : PageStep k (.setupVm 0)
      ((k.setPmap s').setEnv 0 fun env => { env with envPgdir := some 15 }) := by
    refine ⟨rfl, by rw [Kernel.exec, hexec]; rfl, fun p => ?_⟩
    have hnone : ref k.dirs k.pmap (.dir 0) = none := rfl
    have hle : refs k.dirs k.pmap p ≤ 1024 := refs_noDirs_le k.pmap p
    rw [refs] at hle
    rw [k.dirs_setPgdir, refs]
    show count (ref (Function.update k.dirs 0 (some 15)) s') p < 65536
    rw [href, count_update_some hnone]
    split <;> omega
  have hrun : Run PageStep k [.setupVm 0] _ := Run.snoc (Run.nil k) hstep
  have hmem : 15 ∈ freeFrames (Pmap.blank 16 4).npages 4 6 := by
    show 15 < 16 ∧ ¬ Reserved 4 6 15
    decide
  exact ⟨k, _, hinit, hrun, rfl, (page_bookkeeping hinit hrun).1 15 hmem⟩

end LinuxStudy.Jos
