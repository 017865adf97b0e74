import LinuxStudy.Jos.PageTable
import LinuxStudy.Jos.Env

/-!
# Address spaces come and go

`env_setup_vm` and the teardown loops of `env_free` on a sound ledger, and what every
operation on address spaces leaves alone: `kern_pgdir`, its page tables, and the kernel half
of every directory.
-/

namespace LinuxStudy.Jos

open RefCount
open Function (update update_self update_of_ne update_idem)

/-- The ledger between system calls, when the kernel holds nothing. -/
abbrev Sound (F : Set ℕ) (dirs : EnvIx → Option ℕ) (s : Pmap) (l : List ℕ) : Prop :=
  Ledger F dirs s (fun _ => 0) l

/-- Entry `j` of the kernel half of a directory `d` made from `kern_pgdir`. -/
def template (s : Pmap) (d : ℕ) (j : Idx) : Word :=
  if j = pdx uvpt then Kernel.selfWord d else s.mem s.kernPgdir j

/-- `kern_pgdir`, its tables and the kernel half of every directory keep their words. -/
structure Evolves (dirs : EnvIx → Option ℕ) (s : Pmap) (dirs' : EnvIx → Option ℕ) (s' : Pmap) :
    Prop where
  kern_dir : s'.kernPgdir = s.kernPgdir
  kern_row : s'.mem s.kernPgdir = s.mem s.kernPgdir
  kern_table : ∀ i f, frameOf (s.mem s.kernPgdir i) = some f → s'.mem f = s.mem f
  upper : ∀ e d, dirs' e = some d →
    (dirs e = some d ∧ ∀ j, pdxUtop ≤ j → s'.mem d j = s.mem d j) ∨
    ∀ j, pdxUtop ≤ j → s'.mem d j = template s d j

/-- The ledger is sound afterwards, the kernel half is untouched and no page was lost. -/
structure Progress (F : Set ℕ) (dirs : EnvIx → Option ℕ) (s : Pmap) (l : List ℕ)
    (dirs' : EnvIx → Option ℕ) (s' : Pmap) (l' : List ℕ) : Prop where
  ledger : Sound F dirs' s' l'
  evolves : Evolves dirs s dirs' s'
  accounted : ∀ q ∈ F, q ∈ l ∨ 0 < refs dirs s q → q ∈ l' ∨ 0 < refs dirs' s' q

/-- Progress that only gives references back. -/
structure Shrinks (F : Set ℕ) (dirs : EnvIx → Option ℕ) (s : Pmap) (l : List ℕ)
    (dirs' : EnvIx → Option ℕ) (s' : Pmap) (l' : List ℕ) : Prop
    extends Progress F dirs s l dirs' s' l' where
  refs_le : ∀ p, refs dirs' s' p ≤ refs dirs s p

/-- Every address space but that of `e` keeps its words. -/
def Untouched (e : EnvIx) (dirs : EnvIx → Option ℕ) (s : Pmap) (dirs' : EnvIx → Option ℕ)
    (s' : Pmap) : Prop :=
  ∀ e', e' ≠ e → dirs' e' = dirs e' ∧ pde dirs' s' e' = pde dirs s e' ∧
    pte dirs' s' e' = pte dirs s e'

section Order

variable {F : Set ℕ} {dirs dirs' dirs'' : EnvIx → Option ℕ} {s s' s'' : Pmap} {l l' l'' : List ℕ}

theorem Evolves.refl (dirs : EnvIx → Option ℕ) (s : Pmap) : Evolves dirs s dirs s :=
  ⟨rfl, rfl, fun _ _ _ => rfl, fun _ _ hd => .inl ⟨hd, fun _ _ => rfl⟩⟩

theorem Evolves.trans (h : Evolves dirs s dirs' s') (h' : Evolves dirs' s' dirs'' s'') :
    Evolves dirs s dirs'' s'' := by
  have hrow : s''.mem s.kernPgdir = s.mem s.kernPgdir := by
    rw [← h.kern_dir, h'.kern_row, h.kern_dir, h.kern_row]
  refine ⟨h'.kern_dir.trans h.kern_dir, hrow, ?_, ?_⟩
  · intro i f hf
    rw [← h.kern_table i f hf]
    refine h'.kern_table i f ?_
    rw [h.kern_dir, h.kern_row]
    exact hf
  · intro e d hd
    have htemplate : ∀ j, template s' d j = template s d j := by
      intro j
      rw [template, template, h.kern_dir, h.kern_row]
    rcases h'.upper e d hd with ⟨hd', hsame'⟩ | hnew'
    · rcases h.upper e d hd' with ⟨hd, hsame⟩ | hnew
      · exact .inl ⟨hd, fun j hj => (hsame' j hj).trans (hsame j hj)⟩
      · exact .inr fun j hj => (hsame' j hj).trans (hnew j hj)
    · exact .inr fun j hj => (hnew' j hj).trans (htemplate j)

theorem Progress.refl (h : Sound F dirs s l) : Progress F dirs s l dirs s l :=
  ⟨h, Evolves.refl dirs s, fun _ _ hq => hq⟩

theorem Progress.trans (h : Progress F dirs s l dirs' s' l')
    (h' : Progress F dirs' s' l' dirs'' s'' l'') : Progress F dirs s l dirs'' s'' l'' :=
  ⟨h'.ledger, h.evolves.trans h'.evolves, fun q hq hacc =>
    h'.accounted q hq (h.accounted q hq hacc)⟩

theorem Shrinks.refl (h : Sound F dirs s l) : Shrinks F dirs s l dirs s l :=
  ⟨Progress.refl h, fun _ => le_rfl⟩

theorem Shrinks.trans (h : Shrinks F dirs s l dirs' s' l')
    (h' : Shrinks F dirs' s' l' dirs'' s'' l'') : Shrinks F dirs s l dirs'' s'' l'' :=
  ⟨h.toProgress.trans h'.toProgress, fun p => (h'.refs_le p).trans (h.refs_le p)⟩

theorem Untouched.refl (e : EnvIx) (dirs : EnvIx → Option ℕ) (s : Pmap) :
    Untouched e dirs s dirs s :=
  fun _ _ => ⟨rfl, rfl, rfl⟩

theorem Untouched.trans {e : EnvIx} (h : Untouched e dirs s dirs' s')
    (h' : Untouched e dirs' s' dirs'' s'') : Untouched e dirs s dirs'' s'' := by
  intro e' he
  obtain ⟨hd, hpde, hpte⟩ := h e' he
  obtain ⟨hd', hpde', hpte'⟩ := h' e' he
  exact ⟨hd'.trans hd, hpde'.trans hpde, hpte'.trans hpte⟩

end Order

namespace Ledger

variable {F : Set ℕ} {dirs : EnvIx → Option ℕ} {s s' : Pmap} {held : ℕ → ℕ} {l l' : List ℕ}
  {e : EnvIx} {i t : Idx} {d f p q : ℕ} {w : Word}

/-- The kernel's own frames are neither free nor part of a user address space. -/
theorem kern_frame (L : Ledger F dirs s held l)
    (hf : f = s.kernPgdir ∨ ∃ i, frameOf (s.mem s.kernPgdir i) = some f) :
    f ∉ l ∧ (∀ e i, frameOf (pde dirs s e i) ≠ some f) ∧ ∀ e, dirs e ≠ some f := by
  by_cases hF : f ∈ F
  · obtain ⟨i, hi⟩ : ∃ i, frameOf (s.mem s.kernPgdir i) = some f := by
      rcases hf with rfl | hf
      · exact absurd hF L.kern_dir
      · exact hf
    have hkern : ref dirs s (.kern i) = some f := hi
    refine ⟨fun hfl => ?_, fun e j hj => ?_, fun e he => ?_⟩
    · exact count_eq_zero_iff.mp (L.free f hfl).2.1 (.kern i) hkern
    · have := L.eq_of_single (y := .table e j) hkern hF (by simp [Site.isPage]) hj
      cases this
    · have := L.eq_of_single (y := .dir e) hkern hF (by simp [Site.isPage]) he
      cases this
  · exact ⟨fun hfl => hF (L.free f hfl).1, fun e j hj => hF (L.table_mem hj),
      fun e he => hF (L.dir_mem he)⟩

theorem dir_frame (L : Ledger F dirs s held l) (he : dirs e = some d) :
    d ∉ l ∧ ∀ e i, frameOf (pde dirs s e i) ≠ some d := by
  refine ⟨fun hdl => ?_, fun e' i' hf => L.dir_ne_table he hf rfl⟩
  exact count_eq_zero_iff.mp (L.free d hdl).2.1 (.dir e) he

theorem evolves (L : Ledger F dirs s held l) (h : KeepsFrames dirs s l s') :
    Evolves dirs s dirs s' := by
  have hkern : ∀ f, (f = s.kernPgdir ∨ ∃ i, frameOf (s.mem s.kernPgdir i) = some f) →
      s'.mem f = s.mem f := by
    intro f hf
    obtain ⟨hl, ht, hd⟩ := L.kern_frame hf
    funext j
    exact h.2 f j hl ht fun e he => absurd he (hd e)
  refine ⟨h.1, hkern _ (.inl rfl), fun i f hf => hkern f (.inr ⟨i, hf⟩), fun e d he => ?_⟩
  obtain ⟨hl, ht⟩ := L.dir_frame he
  exact .inl ⟨he, fun j hj => h.2 d j hl ht fun _ _ => hj⟩

theorem progress (L : Sound F dirs s l)
    (E : EntrySet F dirs s (fun _ => 0) l e i t w s' l') : Progress F dirs s l dirs s' l' := by
  refine ⟨E.ledger, L.evolves E.keeps, fun q hq => ?_⟩
  have := E.accounted q hq
  rwa [Nat.add_zero, Nat.add_zero] at this

section

variable (L : Ledger F dirs s held l)
include L

/-- Setting an entry changes what that entry and its directory entry refer to. -/
theorem ref_set (E : EntrySet F dirs s held l e i t w s' l') :
    ref dirs s' = update
      (update (ref dirs s) (.table e i) (frameOf (pde dirs s' e i)))
      (.page e i t) (frameOf w) := by
  have hev := L.evolves E.keeps
  funext x
  by_cases hx : x = .page e i t
  · subst hx
    rw [update_self]
    show frameOf (pte dirs s' e i t) = frameOf w
    rw [E.pte_eq, if_pos ⟨rfl, rfl, rfl⟩]
  · rw [update_of_ne hx]
    by_cases hx' : x = .table e i
    · subst hx'
      rw [update_self]
      rfl
    · rw [update_of_ne hx']
      cases x with
      | dir e' => rfl
      | table e' i' =>
        show frameOf (pde dirs s' e' i') = frameOf (pde dirs s e' i')
        rcases E.pde_eq e' i' with h | ⟨rfl, rfl, _⟩
        · rw [h]
        · exact absurd rfl hx'
      | page e' i' t' =>
        show frameOf (pte dirs s' e' i' t') = frameOf (pte dirs s e' i' t')
        have hne : ¬ (e' = e ∧ i' = i ∧ t' = t) := by
          rintro ⟨rfl, rfl, rfl⟩
          exact hx rfl
        rw [E.pte_eq, if_neg hne]
      | kern j =>
        show frameOf (s'.mem s'.kernPgdir j) = frameOf (s.mem s.kernPgdir j)
        rw [hev.kern_dir, hev.kern_row]

theorem refs_set_le (E : EntrySet F dirs s held l e i t w s' l')
    (p : ℕ) : refs dirs s' p ≤ refs dirs s p + 2 := by
  rw [refs, L.ref_set E, refs]
  have h1 := count_update (update (ref dirs s) (.table e i) (frameOf (pde dirs s' e i)))
    (.page e i t) (frameOf w) p
  have h2 := count_update (ref dirs s) (.table e i) (frameOf (pde dirs s' e i)) p
  split at h1 <;> split at h1 <;> split at h2 <;> split at h2 <;> omega

/-- A free page that is not inserted stays free, unless it became the table. -/
theorem free_set (E : EntrySet F dirs s held l e i t w s' l')
    (hq : q ∈ l) (hw : frameOf w ≠ some q) :
    q ∈ l' ∨ frameOf (pde dirs s e i) = none ∧ frameOf (pde dirs s' e i) = some q := by
  obtain ⟨hqF, hrefs, hheld⟩ := L.free q hq
  have hno := count_eq_zero_iff.mp hrefs
  rcases E.accounted q hqF (.inl hq) with hq' | hpos
  · exact .inl hq'
  · right
    rw [hheld, Nat.add_zero] at hpos
    obtain ⟨x, hx⟩ := count_pos_iff.mp hpos
    rw [L.ref_set E] at hx
    by_cases hxp : x = .page e i t
    · subst hxp
      rw [update_self] at hx
      exact absurd hx hw
    · rw [update_of_ne hxp] at hx
      by_cases hxt : x = .table e i
      · subst hxt
        rw [update_self] at hx
        rcases E.pde_eq e i with hsame | ⟨_, _, hnone, _⟩
        · rw [hsame] at hx
          exact absurd hx (hno (.table e i))
        · exact ⟨hnone, hx⟩
      · rw [update_of_ne hxt] at hx
        exact absurd hx (hno x)

/-- Setting an entry takes one page from the free list if its table is missing. -/
theorem free_length (E : EntrySet F dirs s held l e i t w s' l')
    (hw : ∀ q ∈ l, frameOf w ≠ some q) :
    l.length ≤ l'.length + if frameOf (pde dirs s e i) = none then 1 else 0 := by
  have hnodup := L.chain.nodup
  split
  · cases hq0 : frameOf (pde dirs s' e i) with
    | none =>
      have hsub : l ⊆ l' := by
        intro q hq
        rcases L.free_set E hq (hw q hq) with h | ⟨_, h⟩
        · exact h
        · rw [hq0] at h
          cases h
      have := (List.subperm_of_subset hnodup hsub).length_le
      omega
    | some q0 =>
      have hsub : l ⊆ q0 :: l' := by
        intro q hq
        rcases L.free_set E hq (hw q hq) with h | ⟨_, h⟩
        · exact List.mem_cons_of_mem _ h
        · rw [hq0] at h
          rw [Option.some.inj h]
          exact List.mem_cons_self
      exact (List.subperm_of_subset hnodup hsub).length_le
  · next htable =>
    refine (List.subperm_of_subset hnodup fun q hq => ?_).length_le
    exact (L.free_set E hq (hw q hq)).resolve_right fun h => htable h.1

end

/-! ### env_setup_vm -/

/-- A page that nobody refers to, with the template in it, becomes a directory. -/
theorem new_dir {q : ℕ} (L : Sound F dirs s (q :: l)) (he : dirs e = none)
    (hno : ∀ x, ref dirs s x ≠ some q) (L' : Sound F (update dirs e (some q)) s' l)
    (hkern : s'.kernPgdir = s.kernPgdir) (hmem : ∀ f, f ≠ q → s'.mem f = s.mem f)
    (hrow : ∀ j, s'.mem q j = template s q j)
    (href : ref (update dirs e (some q)) s' = update (ref dirs s) (.dir e) (some q)) :
    Progress F dirs s (q :: l) (update dirs e (some q)) s' l := by
  have hkq : s.kernPgdir ≠ q := L.kern_ne (L.free q List.mem_cons_self).1
  refine ⟨L', ⟨hkern, hmem _ hkq, fun i f hf => hmem f ?_, fun e' d hd => ?_⟩, fun p hp hacc => ?_⟩
  · rintro rfl
    exact hno (.kern i) hf
  · by_cases hee : e' = e
    · subst hee
      rw [update_self] at hd
      cases hd
      exact .inr fun j _ => hrow j
    · rw [update_of_ne hee] at hd
      have hdq : d ≠ q := by
        rintro rfl
        exact hno (.dir e') hd
      exact .inl ⟨hd, fun j _ => by rw [hmem d hdq]⟩
  · have hnone : ref dirs s (.dir e) = none := he
    have hcount : refs (update dirs e (some q)) s' p = refs dirs s p + if q = p then 1 else 0 := by
      rw [refs, href, count_update_some hnone]
      rfl
    rw [hcount]
    rcases hacc with hpl | hpos
    · rcases List.mem_cons.mp hpl with rfl | hpl
      · rw [if_pos rfl]
        omega
      · exact .inl hpl
    · omega

theorem setupVm {k : Kernel} (L : Sound F k.dirs k.pmap l) (he : k.dirs e = none) :
    (l = [] ∧ k.envSetupVm e = some (k, -eNoMem)) ∨
    ∃ q l0 s', l = q :: l0 ∧
      k.envSetupVm e =
        some ((k.setPmap s').setEnv e fun env => { env with envPgdir := some q }, 0) ∧
      Progress F k.dirs k.pmap l (update k.dirs e (some q)) s' l0 ∧
      ref (update k.dirs e (some q)) s' = update (ref k.dirs k.pmap) (.dir e) (some q) := by
  cases l with
  | nil =>
    left
    refine ⟨rfl, ?_⟩
    rw [Kernel.envSetupVm, L.alloc_nil]
    rfl
  | cons q l =>
    right
    obtain ⟨s1, halloc, L1, hpde1, hpte1, href1, hk1, _, _, hmem1, hzero1⟩ := L.alloc true
    obtain ⟨hq, hrefs, _⟩ := L.free q List.mem_cons_self
    have hql : q ∉ l := (List.nodup_cons.mp L.chain.nodup).1
    have hno : ∀ x, ref k.dirs k.pmap x ≠ some q := count_eq_zero_iff.mp hrefs
    have hrefs1 : refs k.dirs s1 q = 0 := by
      rw [refs, href1]
      exact hrefs
    let s2 : Pmap := s1.pageIncref q
    let s' : Pmap := (s2.copyPage q s2.kernPgdir).write q (pdx uvpt) (Kernel.selfWord q)
    have L2 : Ledger F k.dirs s2 (update (fun _ => 0) q (0 + 1)) l := by
      refine L1.incref hql fun x hx => ?_
      rw [href1] at hx
      exact absurd hx (hno x)
    have hmem' : ∀ f, f ≠ q → s'.mem f = k.pmap.mem f := by
      intro f hf
      rw [Pmap.mem_write_of_ne _ _ _ hf]
      show update s1.mem q _ f = _
      rw [update_of_ne hf]
      exact hmem1 f hf
    have hkq : k.pmap.kernPgdir ≠ q := L.kern_ne hq
    have hrow : ∀ j, s'.mem q j = template k.pmap q j := by
      intro j
      rw [Pmap.mem_write_self, template]
      by_cases hj : j = pdx uvpt
      · rw [hj, update_self, if_pos rfl]
      · rw [update_of_ne hj, if_neg hj]
        show update s1.mem q (s1.mem s1.kernPgdir) q j = _
        rw [update_self, hk1, hmem1 _ hkq]
    have L3 : Ledger F k.dirs s' (update (fun _ => 0) q (0 + 1)) l := by
      refine L2.overwrite hq hrefs1 rfl rfl rfl rfl fun f hf => ?_
      rw [hmem' f hf]
      exact (hmem1 f hf).symm
    have hkern' : s'.kernPgdir = k.pmap.kernPgdir := hk1
    have hsame : ref k.dirs s' = ref k.dirs k.pmap :=
      (L.mem_irrelevant hq hrefs hkern' hmem').2.2
    have hrefs' : refs k.dirs s' q = 0 := by
      rw [refs, hsame]
      exact hrefs
    have hempty : ∀ j < pdxUtop, frameOf (s'.mem q j) = none := by
      intro j hj
      have hne : j ≠ pdx uvpt := by
        rintro rfl
        exact absurd hj (by decide)
      rw [hrow, template, if_neg hne]
      exact L.kern_user j hj
    have L4 := L3.store_dir he hq hrefs' (by rw [update_self]) hempty
    rw [update_idem, Function.update_eq_self_iff.mpr rfl] at L4
    have href' : ref (update k.dirs e (some q)) s' =
        update (ref k.dirs k.pmap) (.dir e) (some q) := by
      rw [ref_new_dir he hempty, hsame]
    refine ⟨q, l, s', rfl, ?_, new_dir L he hno L4 hk1 hmem' hrow href', href'⟩
    have hkva : s1.page2kva q = some q := L1.kva_eq rfl hq
    rw [Kernel.envSetupVm, halloc]
    simp only [Option.bind_some, hkva]
    rfl

/-! ### env_free -/

/-- One iteration of the inner loop empties its entry and fills none. -/
theorem freePte (L : Sound F dirs s l) (he : dirs e = some d)
    (ht : frameOf (pde dirs s e i) = some f) (hb : ∀ p, refs dirs s p ≤ 65536) (t : Idx) :
    ∃ s' l', s.envFreePte d i f t = some s' ∧ Shrinks F dirs s l dirs s' l' ∧
      Untouched e dirs s dirs s' ∧ pde dirs s' = pde dirs s ∧ ∀ t', t' = t ∨
        frameOf (pte dirs s e i t') = none → frameOf (pte dirs s' e i t') = none := by
  cases hp : frameOf (pte dirs s e i t) with
  | none =>
    have hP : ¬ has (s.mem f t) pteP := by
      rw [pte_of_table ht] at hp
      exact frameOf_eq_none.mp hp
    refine ⟨s, l, by rw [Pmap.envFreePte, if_neg hP], Shrinks.refl L, Untouched.refl e dirs s, rfl,
      fun t' ht' => ?_⟩
    rcases ht' with rfl | ht'
    · exact hp
    · exact ht'
  | some p =>
    have hP : has (s.mem f t) pteP := by
      rw [pte_of_table ht] at hp
      exact (frameOf_eq_some.mp hp).1
    have hp' : frameOf (pte dirs s e (pdx (pgaddr i t 0#32)) (ptx (pgaddr i t 0#32))) = some p := by
      rw [pdx_pgaddr, ptx_pgaddr]
      exact hp
    obtain ⟨s', hs', E, hpde, href⟩ := L.remove_present he hp' (by
      rw [Nat.add_zero]
      exact hb p)
    refine ⟨s', _, by rw [Pmap.envFreePte, if_pos hP, hs'], ⟨L.progress E, fun q => ?_⟩,
      fun e' he' => ⟨rfl, by rw [hpde], ?_⟩, hpde, ?_⟩
    · have := count_update_none (ref dirs s) (.page e (pdx (pgaddr i t 0#32))
        (ptx (pgaddr i t 0#32))) q
      rw [← href] at this
      simp only [refs]
      omega
    · funext i' t'
      rw [E.pte_eq, if_neg fun h => he' h.1]
    · intro t' ht'
      rw [E.pte_eq, pdx_pgaddr, ptx_pgaddr]
      split
      · exact frameOf_zero
      · next hne =>
        rcases ht' with rfl | ht'
        · exact absurd ⟨rfl, rfl, rfl⟩ hne
        · exact ht'

/-- Giving back a page that is held once, and referred to from nowhere, frees it. -/
theorem decref_last (L : Ledger F dirs s (update (fun _ => 0) p 1) l) (hp : p ∈ F)
    (hr : refs dirs s p = 0) :
    ∃ s', s.pageDecref p = some s' ∧ s'.mem = s.mem ∧ s'.kernPgdir = s.kernPgdir ∧
      Sound F dirs s' (p :: l) := by
  have hone : refs dirs s p + update (fun _ => 0) p 1 p = 1 := by
    rw [update_self, hr]
  obtain ⟨s', hs', hmem, hkern, L'⟩ := L.decref hp (by rw [update_self]; omega) (by omega)
  rw [if_pos hone, update_self, update_idem, Function.update_eq_self_iff.mpr rfl] at L'
  exact ⟨s', hs', hmem, hkern, L'⟩

/-- One iteration of the outer loop of `env_free` empties its directory entry and fills
    none. -/
theorem freeTable (L : Sound F dirs s l) (he : dirs e = some d) (hi : i < pdxUtop)
    (hb : ∀ p, refs dirs s p ≤ 65536) :
    ∃ s' l', s.envFreeTable d i = some s' ∧ Shrinks F dirs s l dirs s' l' ∧
      Untouched e dirs s dirs s' ∧ ∀ i', i' = i ∨ frameOf (pde dirs s e i') = none →
        frameOf (pde dirs s' e i') = none := by
  cases ht : frameOf (pde dirs s e i) with
  | none =>
    have hP : ¬ has (s.mem d i) pteP := by
      rw [pde_of_dir he hi] at ht
      exact frameOf_eq_none.mp ht
    refine ⟨s, l, by rw [Pmap.envFreeTable, if_neg hP], Shrinks.refl L, Untouched.refl e dirs s,
      fun i' hi' => ?_⟩
    rcases hi' with rfl | hi'
    · exact ht
    · exact hi'
  | some f =>
    have hword : pde dirs s e i = s.mem d i := pde_of_dir he hi
    obtain ⟨hP, hpg⟩ := frameOf_eq_some.mp ht
    rw [hword] at hP hpg
    have hf : f ∈ F := L.table_mem ht
    -- the inner loop: the entries below the counter are empty
    obtain ⟨s1, hs1, l1, S1, U1, hpde1, hempty1⟩ := forUpTo_rule
      (fun n s1 => ∃ l1, Shrinks F dirs s l dirs s1 l1 ∧ Untouched e dirs s dirs s1 ∧
        pde dirs s1 = pde dirs s ∧ ∀ t : Idx, t.val < n → frameOf (pte dirs s1 e i t) = none)
      ⟨l, Shrinks.refl L, Untouched.refl e dirs s, rfl, fun t h => absurd h (by omega)⟩ (by
        rintro n s1 hn ⟨l1, S1, U1, hpde1, hempty1⟩
        obtain ⟨s2, l2, hs2, S2, U2, hpde2, hempty2⟩ := S1.ledger.freePte he
          (by rw [hpde1]; exact ht) (fun p => (S1.refs_le p).trans (hb p)) (Fin.ofNat 1024 n)
        refine ⟨s2, hs2, l2, S1.trans S2, U1.trans U2, hpde2.trans hpde1, fun t htn => hempty2 t ?_⟩
        by_cases h : t.val < n
        · exact .inr (hempty1 t h)
        · left
          apply Fin.ext
          simp only [Fin.ofNat]
          omega)
    have L1 := S1.ledger
    obtain ⟨L2, href2, hzero2⟩ := L1.clear_table he (by rw [hpde1]; exact ht)
      fun t => hempty1 t t.isLt
    obtain ⟨s3, hs3, hmem3, hkern3, L3⟩ := L2.decref_last hf hzero2
    have href3 : ref dirs s3 = update (ref dirs s1) (.table e i) none :=
      (ref_congr hmem3 hkern3).trans href2
    have hcount : ∀ q, refs dirs s3 q + (if f = q then 1 else 0) = refs dirs s1 q := by
      intro q
      have hx : ref dirs s1 (.table e i) = some f := by
        rw [ref, hpde1]
        exact ht
      have := count_update_none (ref dirs s1) (.table e i) q
      rw [← href3, hx] at this
      simpa only [refs, Option.some.injEq] using this
    refine ⟨s3, f :: l1, ?_, S1.trans ⟨⟨L3, ?_, ?_⟩, ?_⟩, U1.trans fun e' he' => ?_, ?_⟩
    · have hkaddr : s.kaddr (pteAddr (s.mem d i)) = some f := by
        simp [Pmap.kaddr, pgnum_pteAddr, hpg, L.frame_lt f hf]
      have hpage : (s1.write d i 0#32).pa2page (pteAddr (s.mem d i)) = some f := by
        simp [Pmap.pa2page, pgnum_pteAddr, hpg, L1.frame_lt f hf]
      rw [Pmap.envFreeTable, if_pos hP]
      simp only [hkaddr, Option.bind_some, hs1, hpage, hs3]
    · refine L1.evolves ⟨hkern3, fun g j _ _ hgd => ?_⟩
      rw [hmem3]
      by_cases hg : g = d
      · subst hg
        have hne : j ≠ i := by
          rintro rfl
          exact absurd hi (not_lt.mpr (hgd e he))
        rw [Pmap.mem_write_self, update_of_ne hne]
      · rw [Pmap.mem_write_of_ne _ _ _ hg]
    · intro q hq hacc
      have := hcount q
      by_cases hqf : f = q
      · exact .inl (hqf ▸ List.mem_cons_self)
      · rw [if_neg hqf] at this
        exact hacc.imp (List.mem_cons_of_mem _) fun h => by omega
    · intro q
      have := hcount q
      omega
    · have hpde : pde dirs s3 e' = pde dirs s1 e' := by
        funext i'
        rw [pde_congr hmem3, L1.pde_write_dir he hi, if_neg fun h => he' h.1]
      refine ⟨rfl, hpde, ?_⟩
      funext i' t'
      cases hg : frameOf (pde dirs s1 e' i') with
      | none => rw [pte_of_no_table hg, pte_of_no_table (by rw [hpde]; exact hg)]
      | some g =>
        have hgd : g ≠ d := (L1.dir_ne_table he hg).symm
        rw [pte_of_table hg, pte_of_table (by rw [hpde]; exact hg), hmem3,
          Pmap.mem_write_of_ne _ _ _ hgd]
    · intro i' hi'
      rw [pde_congr hmem3, L1.pde_write_dir he hi, hpde1]
      split
      · exact frameOf_zero
      · next hne =>
        rcases hi' with rfl | hi'
        · exact absurd ⟨rfl, rfl⟩ hne
        · exact hi'

/-- `env_free` empties the user half and frees the directory; nothing in it panics. -/
theorem freeVm (L : Sound F dirs s l) (he : dirs e = some d) (hb : ∀ p, refs dirs s p ≤ 65536) :
    ∃ s' l', s.envFreeVm d = some s' ∧ Shrinks F dirs s l (update dirs e none) s' l' ∧
      Untouched e dirs s (update dirs e none) s' := by
  obtain ⟨s1, hs1, l1, S1, U1, hempty1⟩ := forUpTo_rule
    (fun n s1 => ∃ l1, Shrinks F dirs s l dirs s1 l1 ∧ Untouched e dirs s dirs s1 ∧
      ∀ i : Idx, i.val < n → frameOf (pde dirs s1 e i) = none)
    ⟨l, Shrinks.refl L, Untouched.refl e dirs s, fun i h => absurd h (by omega)⟩ (by
      rintro n s1 hn ⟨l1, S1, U1, hempty1⟩
      have hlt : Fin.ofNat 1024 n < pdxUtop := by
        rw [Fin.lt_def]
        exact lt_of_le_of_lt (Nat.mod_le n 1024) hn
      obtain ⟨s2, l2, hs2, S2, U2, hempty2⟩ := S1.ledger.freeTable he hlt
        fun p => (S1.refs_le p).trans (hb p)
      refine ⟨s2, hs2, l2, S1.trans S2, U1.trans U2, fun i hin => hempty2 i ?_⟩
      by_cases h : i.val < n
      · exact .inr (hempty1 i h)
      · left
        apply Fin.ext
        simp only [Fin.ofNat]
        omega)
  have L1 := S1.ledger
  have hd : d ∈ F := L.dir_mem he
  have hnone : ∀ i, frameOf (pde dirs s1 e i) = none := by
    intro i
    by_cases hi : i < pdxUtop
    · exact hempty1 i hi
    · simp [pde, he, hi]
  obtain ⟨L2, href2, hzero2⟩ := L1.clear_dir he hnone
  obtain ⟨s3, hs3, hmem3, hkern3, L3⟩ := L2.decref_last hd hzero2
  have hcount : ∀ q, refs (update dirs e none) s3 q + (if d = q then 1 else 0) =
      refs dirs s1 q := by
    intro q
    have hx : ref dirs s1 (.dir e) = some d := he
    have := count_update_none (ref dirs s1) (.dir e) q
    rw [← href2, hx] at this
    rw [refs, ref_congr hmem3 hkern3]
    simpa only [refs, Option.some.injEq] using this
  refine ⟨s3, d :: l1, ?_, S1.trans ⟨⟨L3, ⟨hkern3, ?_, ?_, ?_⟩, ?_⟩, ?_⟩,
    U1.trans fun e' he' => ⟨update_of_ne he' .., ?_, ?_⟩⟩
  · have hlt := L1.frame_lt d hd
    have hle := L1.npages_le
    have hpage : s1.pa2page (page2pa d) = some d := by
      rw [Pmap.pa2page, pgnum_page2pa (by omega), if_pos hlt]
    rw [Pmap.envFreeVm, hs1]
    simp only [Option.bind_some, hpage, hs3]
  · rw [hmem3]
  · intro i f _
    rw [hmem3]
  · intro e' d' hd'
    rw [hmem3]
    by_cases hee : e' = e
    · subst hee
      rw [update_self] at hd'
      cases hd'
    · rw [update_of_ne hee] at hd'
      exact .inl ⟨hd', fun _ _ => rfl⟩
  · intro q hq hacc
    have := hcount q
    by_cases hqd : d = q
    · exact .inl (hqd ▸ List.mem_cons_self)
    · rw [if_neg hqd] at this
      exact hacc.imp (List.mem_cons_of_mem _) fun h => by omega
  · intro q
    have := hcount q
    omega
  · funext i'
    simp [pde, hmem3, he']
  · funext i' t'
    simp [pte, pde, hmem3, he']

end Ledger

end LinuxStudy.Jos
