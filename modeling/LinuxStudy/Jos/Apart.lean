import LinuxStudy.Jos.System

/-!
# Page directories stay apart from everything else

A part of the ledger that does not depend on reference counts: no page directory is free,
a page table, or mapped. It survives when counters wrap around. From it follows what
`page_insert` and `page_remove` can do to page-table entries at all: each entry below `UTOP`
keeps its word, is cleared, or gets the word that was to be stored.
-/

namespace LinuxStudy.Jos

open Pmap

/-- The page belongs to no environment as its directory. -/
def NotDir (dirs : EnvIx → Option ℕ) (q : ℕ) : Prop := ∀ e, dirs e ≠ some q

/-- Page directories are not shared, not free, not tables and not mapped. -/
structure Apart (dirs : EnvIx → Option ℕ) (s : Pmap) : Prop where
  npages_le : s.npages ≤ 2 ^ 20
  inj : ∀ e e' d, dirs e = some d → dirs e' = some d → e' = e
  free : ∀ q, Reach s.link s.pageFreeList q → q < 2 ^ 20 ∧ NotDir dirs q
  table : ∀ e i f, frameOf (pde dirs s e i) = some f → NotDir dirs f
  page : ∀ e i t p, frameOf (pte dirs s e i t) = some p → NotDir dirs p

/-- Directories stay apart, and each entry keeps its word, is cleared, or gets a word of `W`. -/
structure Edit (dirs : EnvIx → Option ℕ) (W : Word → Prop) (s s' : Pmap) : Prop where
  apart : Apart dirs s'
  pte_cases : ∀ e i t, pte dirs s' e i t = pte dirs s e i t ∨ pte dirs s' e i t = 0#32 ∨
    W (pte dirs s' e i t)

section Apart

variable {dirs : EnvIx → Option ℕ} {W : Word → Prop} {s s' s'' : Pmap} {e : EnvIx} {i t : Idx}
  {d f p q : ℕ} {w va perm : Word}

theorem Edit.refl (A : Apart dirs s) (W : Word → Prop) : Edit dirs W s s :=
  ⟨A, fun _ _ _ => .inl rfl⟩

theorem Edit.trans (h : Edit dirs W s s') (h' : Edit dirs W s' s'') : Edit dirs W s s'' := by
  refine ⟨h'.apart, fun e i t => ?_⟩
  rcases h'.pte_cases e i t with hsame | hother
  · rw [hsame]
    exact h.pte_cases e i t
  · exact .inr hother

theorem Ledger.apart {F : Set ℕ} {held : ℕ → ℕ} {l : List ℕ} (L : Ledger F dirs s held l) :
    Apart dirs s := by
  refine ⟨L.npages_le, fun e e' d he he' => L.dir_inj he he', ?_, ?_, ?_⟩
  · intro q hq
    have hql := L.chain.reach_iff.mp hq
    have hlt := L.frame_lt q (L.free q hql).1
    exact ⟨lt_of_lt_of_le hlt L.npages_le, fun e he => (L.dir_frame he).1 hql⟩
  · intro e i f hf e' he'
    exact L.dir_ne_table he' hf rfl
  · intro e i t p hp e' he'
    exact (L.mapped_page hp).2.2 (.dir e') he'

namespace Apart

/-- Only the page array changes, and the free list does not grow by a directory. -/
theorem of_mem_eq (A : Apart dirs s) (hm : s'.mem = s.mem) (hn : s'.npages = s.npages)
    (hfree : ∀ q, Reach s'.link s'.pageFreeList q → q < 2 ^ 20 ∧ NotDir dirs q)
    (W : Word → Prop) : Edit dirs W s s' := by
  refine ⟨⟨hn ▸ A.npages_le, A.inj, hfree, ?_, ?_⟩, fun e i t => .inl (by rw [pte_congr hm])⟩
  · rw [pde_congr hm]
    exact A.table
  · rw [pte_congr hm]
    exact A.page

theorem incref (A : Apart dirs s) (p : ℕ) (W : Word → Prop) : Edit dirs W s (s.pageIncref p) := by
  refine A.of_mem_eq ?_ ?_ (fun q hq => ?_) W
  · rfl
  · rfl
  · rw [pageIncref, link_setRef] at hq
    exact A.free q hq

/-- A store into a frame that is no directory leaves the directories alone. -/
theorem pde_write (hf : NotDir dirs f) : pde dirs (s.write f t w) = pde dirs s :=
  pde_congr_dirs fun e _ hd => s.mem_write_of_ne t w fun h => hf e (h ▸ hd)

/-- A store into a page table, of zero or of an entry for a page that is no directory. -/
theorem write_table (A : Apart dirs s) (ht : frameOf (pde dirs s e i) = some f)
    (hw : ∀ p, frameOf w = some p → NotDir dirs p) (hW : w = 0#32 ∨ W w) :
    Edit dirs W s (s.write f t w) := by
  have hpde := pde_write (s := s) (t := t) (w := w) (A.table e i f ht)
  -- the entry stored to may be visible in several address spaces
  have hpte : ∀ e' i' t', pte dirs (s.write f t w) e' i' t' = pte dirs s e' i' t' ∨
      pte dirs (s.write f t w) e' i' t' = w := by
    intro e' i' t'
    rw [pte, pte, hpde]
    cases hg : frameOf (pde dirs s e' i') with
    | none => exact .inl rfl
    | some g =>
      by_cases hgf : g = f
      · subst hgf
        show (s.write g t w).mem g t' = s.mem g t' ∨ (s.write g t w).mem g t' = w
        rw [s.mem_write_self]
        by_cases htt : t' = t
        · subst htt
          exact .inr (Function.update_self ..)
        · exact .inl (Function.update_of_ne htt ..)
      · exact .inl (congrFun (s.mem_write_of_ne t w hgf) t')
  refine ⟨⟨A.npages_le, A.inj, A.free, ?_, ?_⟩, ?_⟩
  · rw [hpde]
    exact A.table
  · intro e' i' t' p hp
    rcases hpte e' i' t' with h | h
    · rw [h] at hp
      exact A.page e' i' t' p hp
    · rw [h] at hp
      exact hw p hp
  · intro e' i' t'
    rcases hpte e' i' t' with h | h
    · exact .inl h
    · rw [h]
      exact .inr hW

theorem write_dir (A : Apart dirs s) (he : dirs e = some d) (hi : i < pdxUtop)
    (hold : frameOf (pde dirs s e i) = none) (hq : q < 2 ^ 20) (hnot : NotDir dirs q)
    (hzero : ∀ t, s.mem q t = 0#32) (W : Word → Prop) :
    Edit dirs W s (s.write d i (tableWord q)) := by
  have hpde := pde_write_own (s := s) (w := tableWord q) (fun e' => A.inj e e' d he) he hi
  have hqd : q ≠ d := fun h => hnot e (h ▸ he)
  have hpte : ∀ e' i' t', pte dirs (s.write d i (tableWord q)) e' i' t' = pte dirs s e' i' t' := by
    intro e' i' t'
    by_cases hei : e' = e ∧ i' = i
    · obtain ⟨rfl, rfl⟩ := hei
      have htable : frameOf (pde dirs (s.write d i' (tableWord q)) e' i') = some q := by
        rw [hpde, if_pos ⟨rfl, rfl⟩]
        exact frameOf_tableWord hq
      rw [pte_of_table htable, pte_of_no_table hold, s.mem_write_of_ne i' _ hqd]
      exact hzero t'
    · rw [pte, pte, hpde, if_neg hei]
      cases hg : frameOf (pde dirs s e' i') with
      | none => rfl
      | some g =>
        have hgd : g ≠ d := fun h => A.table e' i' g hg e (h ▸ he)
        exact congrFun (s.mem_write_of_ne i _ hgd) t'
  refine ⟨⟨A.npages_le, A.inj, A.free, ?_, ?_⟩, fun e' i' t' => .inl (hpte e' i' t')⟩
  · intro e' i' f hf
    rw [hpde] at hf
    split at hf
    · rw [frameOf_tableWord hq] at hf
      rw [← Option.some.inj hf]
      exact hnot
    · exact A.table e' i' f hf
  · intro e' i' t' p hp
    rw [hpte] at hp
    exact A.page e' i' t' p hp

/-! ### The operations -/

theorem frameOf_lt (h : frameOf w = some f) : f < 2 ^ 20 := by
  obtain ⟨_, rfl⟩ := frameOf_eq_some.mp h
  rw [pgnum, Nat.shiftRight_eq_div_pow]
  omega

section

variable (A : Apart dirs s)
include A

theorem alloc (h : s.pageAlloc true = some (s', some q)) (W : Word → Prop) :
    Edit dirs W s s' ∧ Reach s.link s.pageFreeList q ∧ (∀ t, s'.mem q t = 0#32) ∧
      pde dirs s' = pde dirs s := by
  rw [pageAlloc] at h
  split at h
  · simp at h
  · next p hp =>
    have hfree : Reach s.link s.pageFreeList p := by
      rw [hp]
      exact Reach.here p
    obtain ⟨hlt, hnot⟩ := A.free p hfree
    simp only [if_true, Option.bind_eq_some_iff, Option.some.injEq, Prod.mk.injEq] at h
    obtain ⟨kva, hkva, hs', rfl⟩ := h
    obtain rfl : kva = p := by
      rw [page2kva, kaddr, pgnum_page2pa hlt] at hkva
      split at hkva
      · exact (Option.some.inj hkva).symm
      · cases hkva
    have hmem : ∀ f, f ≠ kva → s'.mem f = s.mem f := by
      intro f hf
      rw [← hs', mem_clear_of_ne _ hf]
      rfl
    have hzero : ∀ t, s'.mem kva t = 0#32 := by
      intro t
      rw [← hs', mem_clear_self]
    have hpde : pde dirs s' = pde dirs s :=
      pde_congr_dirs fun e d hd => hmem d fun h => hnot e (h ▸ hd)
    have hpte : ∀ e i t, pte dirs s' e i t = pte dirs s e i t ∨ pte dirs s' e i t = 0#32 := by
      intro e i t
      rw [pte, pte, hpde]
      cases hg : frameOf (pde dirs s e i) with
      | none => exact .inl rfl
      | some g =>
        by_cases hgk : g = kva
        · subst hgk
          exact .inr (hzero t)
        · exact .inl (congrFun (hmem g hgk) t)
    refine ⟨⟨⟨?_, A.inj, ?_, ?_, ?_⟩, fun e i t => ?_⟩, hfree, hzero, hpde⟩
    · rw [← hs']
      exact A.npages_le
    · intro q hq
      have hlink : s'.link = Function.update s.link kva none := by
        rw [← hs']
        exact link_setLink _ kva none
      have hlist : s'.pageFreeList = s.link kva := by
        rw [← hs']
        rfl
      rw [hlink, hlist] at hq
      apply A.free q
      rw [hp]
      exact Reach.of_pop hq
    · rw [hpde]
      exact A.table
    · intro e i t p' hp'
      rcases hpte e i t with h | h
      · rw [h] at hp'
        exact A.page e i t p' hp'
      · rw [h, frameOf_zero] at hp'
        cases hp'
    · exact (hpte e i t).imp_right .inl

theorem decref (hlt : p < 2 ^ 20) (hnot : NotDir dirs p)
    (h : s.pageDecref p = some s') (W : Word → Prop) :
    Edit dirs W s s' ∧ s'.mem = s.mem := by
  rw [pageDecref] at h
  split at h
  · rw [pageFree] at h
    split at h
    · cases h
    · split at h
      · cases h
      · cases h
        refine ⟨A.of_mem_eq ?_ ?_ (fun q hq => ?_) W, rfl⟩
        · rfl
        · rfl
        · -- the freed page is in front of the old list
          have hlink : ((s.setRef p ((s.pages p).ppRef - 1)).setLink p
              (s.setRef p ((s.pages p).ppRef - 1)).pageFreeList).link =
                Function.update s.link p s.pageFreeList := by
            rw [link_setLink, link_setRef]
            rfl
          change Reach (link (setLink _ _ _)) (some p) q at hq
          rw [hlink] at hq
          rcases Reach.of_push hq with rfl | hq
          · exact ⟨hlt, hnot⟩
          · exact A.free q hq
  · cases h
    refine ⟨A.of_mem_eq ?_ ?_ (fun q hq => ?_) W, rfl⟩
    · rfl
    · rfl
    · rw [link_setRef] at hq
      exact A.free q hq

theorem remove (hva : va < utop) (h : s.pageRemove (dirs e) va = some s')
    (W : Word → Prop) : Edit dirs W s s' ∧ pde dirs s' = pde dirs s := by
  obtain ⟨found, hfound, h⟩ := Option.bind_eq_some_iff.mp h
  cases found with
  | none =>
    cases h
    exact ⟨Edit.refl A W, rfl⟩
  | some found =>
    obtain ⟨pp, slot⟩ := found
    obtain ⟨htable, _, hpage⟩ := pageLookup_found hva hfound
    have hclear : Edit dirs W s (s.write slot.1 slot.2 0#32) :=
      A.write_table htable (fun p hp => by simp at hp) (.inl rfl)
    obtain ⟨hdec, hmem⟩ := hclear.apart.decref (frameOf_lt hpage) (A.page _ _ _ _ hpage) h W
    refine ⟨hclear.trans hdec, ?_⟩
    rw [pde_congr hmem]
    exact pde_write (A.table _ _ _ htable)

theorem walk (hva : va < utop) {slot : Slot}
    (h : s.pgdirWalk (dirs e) va true = some (s', some slot)) (W : Word → Prop) :
    Edit dirs W s s' ∧ frameOf (pde dirs s' e (pdx va)) = some slot.1 ∧ slot.2 = ptx va := by
  have hi := (lt_utop_iff va).mp hva
  cases hd : dirs e with
  | none =>
    rw [hd] at h
    simp [pgdirWalk] at h
  | some d =>
    rw [hd, pgdirWalk] at h
    split at h
    · next hP =>
      rw [pteSlot, kaddr, pgnum_pteAddr] at h
      split at h
      · cases h
        refine ⟨Edit.refl A W, ?_, rfl⟩
        rw [pde_of_dir hd hi]
        exact frameOf_eq_some.mpr ⟨hP, rfl⟩
      · simp at h
    · next hP =>
      simp only [Bool.true_eq_false, if_false, Option.bind_eq_some_iff] at h
      obtain ⟨⟨s1, page⟩, halloc, h⟩ := h
      cases page with
      | none => simp at h
      | some q =>
        obtain ⟨E1, hreach, hzero, hpde1⟩ := A.alloc halloc W
        obtain ⟨hlt, hnot⟩ := A.free q hreach
        have E2 := E1.apart.incref q W
        have hold : frameOf (pde dirs (s1.pageIncref q) e (pdx va)) = none := by
          rw [pde_congr (mem_pageIncref s1 q), hpde1, pde_of_dir hd hi]
          exact frameOf_eq_none.mpr hP
        have E3 := E2.apart.write_dir hd hi hold hlt hnot hzero W
        have htable : ((s1.pageIncref q).write d (pdx va) (tableWord q)).mem d (pdx va) =
            tableWord q := by
          rw [mem_write_self, Function.update_self]
        simp only at h
        split at h
        · cases h
        · split at h
          · cases h
          · rw [← tableWord, pteSlot, htable, kaddr, pgnum_pteAddr,
              (frameOf_eq_some.mp (frameOf_tableWord hlt)).2] at h
            split at h
            · cases h
              refine ⟨E1.trans (E2.trans E3), ?_, rfl⟩
              rw [pde_of_dir hd hi, htable]
              exact frameOf_tableWord hlt
            · simp at h

/-- `page_insert` below `UTOP`: the entry for the address gets the new word, and no entry
    gets any other. -/
theorem insert (hva : va < utop) (hperm : IsPerm perm) (hlt : p < 2 ^ 20)
    (hnot : NotDir dirs p) {r : Int} (h : s.pageInsert (dirs e) p va perm = some (s', r)) :
    Edit dirs (· = mkPte p perm) s s' ∧
      (r = 0 → pte dirs s' e (pdx va) (ptx va) = mkPte p perm) := by
  rcases pageInsert_cases h with ⟨rfl, rfl, _⟩ | ⟨s1, slot, s2, rfl, hwalk, hremove, rfl⟩
  · exact ⟨Edit.refl A _, fun h => absurd h (by decide)⟩
  · obtain ⟨E1, htable, hslot⟩ := A.walk hva hwalk (· = mkPte p perm)
    have E2 := E1.apart.incref p (· = mkPte p perm)
    have hmid : Edit dirs (· = mkPte p perm) (s1.pageIncref p) s2 ∧
        pde dirs s2 = pde dirs (s1.pageIncref p) := by
      split at hremove
      · exact E2.apart.remove hva hremove _
      · cases hremove
        exact ⟨Edit.refl E2.apart _, rfl⟩
    obtain ⟨E3, hpde3⟩ := hmid
    have htable3 : frameOf (pde dirs s2 e (pdx va)) = some slot.1 := by
      rw [hpde3, pde_congr (mem_pageIncref s1 p)]
      exact htable
    have E4 : Edit dirs (· = mkPte p perm) s2 (s2.write slot.1 slot.2 (mkPte p perm)) := by
      refine E3.apart.write_table htable3 (fun q hq => ?_) (.inr rfl)
      rw [frameOf_mkPte hlt hperm] at hq
      rw [← Option.some.inj hq]
      exact hnot
    refine ⟨E1.trans (E2.trans (E3.trans E4)), fun _ => ?_⟩
    have hpde4 := pde_write (s := s2) (t := slot.2) (w := mkPte p perm)
      (E3.apart.table _ _ _ htable3)
    rw [← hpde4] at htable3
    rw [pte_of_table htable3, mem_write_self, hslot, Function.update_self]

end

end Apart

end Apart

end LinuxStudy.Jos
