import LinuxStudy.Jos.Ledger

/-!
# Page-table operations on a sound ledger

What `pgdir_walk`, `page_lookup`, `page_remove` and `page_insert` do below `UTOP`, in
terms of the page-table words of the address spaces, when the ledger is sound. None
of them panics there.
-/

namespace LinuxStudy.Jos

open RefCount
open Function (update update_self update_idem update_eq_self update_of_ne)
open Pmap
open List (mem_cons_self mem_cons_of_mem mem_cons)

/-- The directory entry `pgdir_walk` makes for a new table. -/
def tableWord (q : ℕ) : Word := page2pa q ||| pteP ||| pteU ||| pteW

theorem tableWord_eq (q : ℕ) : tableWord q = mkPte q (pteU ||| pteW) := by
  rw [tableWord, mkPte, BitVec.or_assoc, BitVec.or_assoc, BitVec.or_assoc]
  congr 1

theorem frameOf_tableWord {q : ℕ} (hq : q < 2 ^ 20) : frameOf (tableWord q) = some q := by
  rw [tableWord_eq]
  exact frameOf_mkPte hq (by decide)

/-- Only page tables, user halves of live directories and free pages are written. -/
def KeepsFrames (dirs : EnvIx → Option ℕ) (s : Pmap) (l : List ℕ) (s' : Pmap) : Prop :=
  s'.kernPgdir = s.kernPgdir ∧
    ∀ f j, f ∉ l → (∀ e i, frameOf (pde dirs s e i) ≠ some f) →
      (∀ e, dirs e = some f → pdxUtop ≤ j) → s'.mem f j = s.mem f j

/-- Entry `(i, t)` of environment `e` was given the word `w`. -/
structure EntrySet (F : Set ℕ) (dirs : EnvIx → Option ℕ) (s : Pmap) (held : ℕ → ℕ) (l : List ℕ)
    (e : EnvIx) (i t : Idx) (w : Word) (s' : Pmap) (l' : List ℕ) : Prop where
  ledger : Ledger F dirs s' held l'
  pte_eq : ∀ e' i' t', pte dirs s' e' i' t' =
    if e' = e ∧ i' = i ∧ t' = t then w else pte dirs s e' i' t'
  pde_eq : ∀ e' i', pde dirs s' e' i' = pde dirs s e' i' ∨
    (e' = e ∧ i' = i ∧ frameOf (pde dirs s e i) = none ∧ ∃ q ∈ l, pde dirs s' e i = tableWord q)
  keeps : KeepsFrames dirs s l s'
  accounted : ∀ q ∈ F, q ∈ l ∨ 0 < refs dirs s q + held q → q ∈ l' ∨ 0 < refs dirs s' q + held q
  free_sub : ∀ q ∈ l', q ∈ l ∨ frameOf (pte dirs s e i t) = some q

namespace Ledger

variable {F : Set ℕ} {dirs : EnvIx → Option ℕ} {s : Pmap} {held : ℕ → ℕ} {l : List ℕ}
  {e : EnvIx} {d f p q pp : ℕ} {va perm : Word}

/-! ### pgdir_walk -/

theorem pteSlot_eq (L : Ledger F dirs s held l) (hf : f ∈ F)
    (hm : frameOf (s.mem d (pdx va)) = some f) : s.pteSlot d va = some (s, some (f, ptx va)) := by
  obtain ⟨_, hpg⟩ := frameOf_eq_some.mp hm
  have hlt := L.frame_lt f hf
  simp [pteSlot, kaddr, pgnum_pteAddr, hpg, hlt]

theorem walk_present (L : Ledger F dirs s held l) (he : dirs e = some d)
    (ht : frameOf (pde dirs s e (pdx va)) = some f) (create : Bool) :
    s.pgdirWalk (some d) va create = some (s, some (f, ptx va)) := by
  obtain ⟨d', he', hi, hm⟩ := exists_dir_of_table ht
  rw [he] at he'
  cases he'
  have hP : has (s.mem d (pdx va)) pteP := (frameOf_eq_some.mp hm).1
  simp only [pgdirWalk, hP, if_true]
  exact L.pteSlot_eq (L.table_mem ht) hm

theorem not_has_of_absent (he : dirs e = some d) (hi : pdx va < pdxUtop)
    (ht : frameOf (pde dirs s e (pdx va)) = none) : ¬ has (s.mem d (pdx va)) pteP := by
  rw [pde_of_dir he hi] at ht
  exact frameOf_eq_none.mp ht

theorem walk_absent (he : dirs e = some d) (hi : pdx va < pdxUtop)
    (ht : frameOf (pde dirs s e (pdx va)) = none) :
    s.pgdirWalk (some d) va false = some (s, none) := by
  simp [pgdirWalk, not_has_of_absent he hi ht]

theorem walk_nomem (L : Ledger F dirs s held []) (he : dirs e = some d) (hi : pdx va < pdxUtop)
    (ht : frameOf (pde dirs s e (pdx va)) = none) :
    s.pgdirWalk (some d) va true = some (s, none) := by
  simp [pgdirWalk, not_has_of_absent he hi ht, L.alloc_nil]

/-- `pgdir_walk` installs the head of the free list as an empty table; both its assertions
    hold. -/
theorem walk_create (L : Ledger F dirs s held (q :: l)) (he : dirs e = some d)
    (hi : pdx va < pdxUtop) (ht : frameOf (pde dirs s e (pdx va)) = none) :
    ∃ s', s.pgdirWalk (some d) va true = some (s', some (q, ptx va)) ∧ Ledger F dirs s' held l ∧
      ref dirs s' = update (ref dirs s) (.table e (pdx va)) (some q) ∧
      (∀ e' i', pde dirs s' e' i' =
        if e' = e ∧ i' = pdx va then tableWord q else pde dirs s e' i') ∧
      pte dirs s' = pte dirs s ∧ KeepsFrames dirs s (q :: l) s' := by
  obtain ⟨s1, halloc, L1, hpde1, hpte1, href1, hk1, hlink1, hpp1, hmem1, hzero1⟩ := L.alloc true
  obtain ⟨hq, hrefs, hheld⟩ := L.free q mem_cons_self
  have hql : q ∉ l := (List.nodup_cons.mp L.chain.nodup).1
  have hno : ∀ x, ref dirs s x ≠ some q := count_eq_zero_iff.mp hrefs
  have hlt : q < 2 ^ 20 := lt_of_lt_of_le (L.frame_lt q hq) L.npages_le
  have hqd : d ≠ q := by
    rintro rfl
    exact hno (.dir e) he
  -- the new page's count goes from 0 to 1
  have hzeroref : (s.pages q).ppRef = 0 := by
    rw [L.ref_eq q hq, hrefs, hheld]
    rfl
  have hoone : ((s1.pageIncref q).pages q).ppRef = 1 := by
    rw [pageIncref, ppRef_setRef_self, hpp1, hzeroref]
    rfl
  have hlnone : ((s1.pageIncref q).pages q).ppLink = none := by
    have := congrFun (link_setRef s1 q ((s1.pages q).ppRef + 1)) q
    rw [hlink1] at this
    exact this
  have L2 : Ledger F dirs (s1.pageIncref q) (update held q (held q + 1)) l := by
    refine L1.incref hql fun x hx => ?_
    rw [href1] at hx
    exact absurd hx (hno x)
  have hpde2 : pde dirs (s1.pageIncref q) = pde dirs s := (pde_congr rfl).trans hpde1
  have hrefs2 : refs dirs (s1.pageIncref q) q = 0 := by
    have : ref dirs (s1.pageIncref q) = ref dirs s := (ref_congr rfl rfl).trans href1
    rw [refs, this]
    exact hrefs
  have hzero2 : ∀ t, (s1.pageIncref q).mem q t = 0#32 := hzero1 rfl
  obtain ⟨L3, href3⟩ := L2.store_table (w := tableWord q) he hi (by rw [hpde2]; exact ht)
    (frameOf_tableWord hlt) hq hrefs2 (by rw [update_self, hheld]) hzero2
  rw [update_idem, ← hheld, update_eq_self] at L3
  have href3' : ref dirs ((s1.pageIncref q).write d (pdx va) (tableWord q)) =
      update (ref dirs s) (.table e (pdx va)) (some q) := by
    rw [href3, (ref_congr rfl rfl : ref dirs (s1.pageIncref q) = ref dirs s1), href1]
  have hpde3 : ∀ e' i', pde dirs ((s1.pageIncref q).write d (pdx va) (tableWord q)) e' i' =
      if e' = e ∧ i' = pdx va then tableWord q else pde dirs s e' i' := by
    intro e' i'
    rw [L2.pde_write_dir he hi, hpde2]
  have hslot : ((s1.pageIncref q).write d (pdx va) (tableWord q)).pteSlot d va =
      some ((s1.pageIncref q).write d (pdx va) (tableWord q), some (q, ptx va)) := by
    apply L3.pteSlot_eq hq
    rw [mem_write_self, update_self]
    exact frameOf_tableWord hlt
  refine ⟨(s1.pageIncref q).write d (pdx va) (tableWord q), ?_, L3, href3', hpde3, ?_, ?_⟩
  · simp only [pgdirWalk, not_has_of_absent he hi ht, if_false, Bool.true_eq_false, halloc,
      Option.bind_some, hoone, hlnone, ne_eq, not_true_eq_false]
    exact hslot
  · -- the new table is empty, so no page appears
    funext e' i' t'
    by_cases hx : e' = e ∧ i' = pdx va
    · obtain ⟨rfl, rfl⟩ := hx
      rw [pte_of_no_table ht, pte_of_table (f := q) (by
        rw [hpde3, if_pos ⟨rfl, rfl⟩]
        exact frameOf_tableWord hlt), mem_write_of_ne _ _ _ (Ne.symm hqd)]
      exact hzero2 t'
    · have hsame := hpde3 e' i'
      rw [if_neg hx] at hsame
      cases hg : frameOf (pde dirs s e' i') with
      | none => rw [pte_of_no_table hg, pte_of_no_table (by rw [hsame]; exact hg)]
      | some g =>
        have hgd : g ≠ d := (L.dir_ne_table he hg).symm
        have hgq : g ≠ q := by
          rintro rfl
          exact hno (.table e' i') hg
        rw [pte_of_table hg, pte_of_table (f := g) (by rw [hsame]; exact hg),
          mem_write_of_ne _ _ _ hgd]
        exact congrFun (hmem1 g hgq) t'
  · refine ⟨hk1, ?_⟩
    intro f j hfl hft hfd
    have hfq : f ≠ q := fun h => hfl (h ▸ mem_cons_self)
    by_cases hfd' : f = d
    · subst hfd'
      have hj := hfd e he
      have hne : j ≠ pdx va := by
        rintro rfl
        exact absurd hi (not_lt.mpr hj)
      rw [mem_write_self, update_of_ne hne]
      exact congrFun (hmem1 f hfq) j
    · rw [mem_write_of_ne _ _ _ hfd']
      exact congrFun (hmem1 f hfq) j

/-! ### page_lookup and page_remove -/

theorem lookup_no_table (he : dirs e = some d) (hi : pdx va < pdxUtop)
    (ht : frameOf (pde dirs s e (pdx va)) = none) : s.pageLookup (some d) va = some none := by
  rw [pageLookup, walk_absent he hi ht]
  rfl

section

variable (L : Ledger F dirs s held l)
include L

theorem lookup_absent (he : dirs e = some d) (hi : pdx va < pdxUtop)
    (hp : frameOf (pte dirs s e (pdx va) (ptx va)) = none) :
    s.pageLookup (some d) va = some none := by
  cases ht : frameOf (pde dirs s e (pdx va)) with
  | none => exact lookup_no_table he hi ht
  | some f =>
    rw [pte_of_table ht, frameOf_eq_none] at hp
    rw [pageLookup, L.walk_present he ht]
    simp [hp]

theorem lookup_present (he : dirs e = some d)
    (ht : frameOf (pde dirs s e (pdx va)) = some f)
    (hp : frameOf (pte dirs s e (pdx va) (ptx va)) = some p) :
    s.pageLookup (some d) va = some (some (p, (f, ptx va))) := by
  have hlt : p < s.npages := L.frame_lt p (L.page_mem hp)
  rw [pte_of_table ht] at hp
  obtain ⟨hP, hpg⟩ := frameOf_eq_some.mp hp
  rw [pageLookup, L.walk_present he ht]
  simp [hP, pa2page, pgnum_pteAddr, hpg, hlt]

theorem remove_absent (he : dirs e = some d) (hi : pdx va < pdxUtop)
    (hp : frameOf (pte dirs s e (pdx va) (ptx va)) = none) :
    s.pageRemove (some d) va = some s := by
  rw [pageRemove, L.lookup_absent he hi hp]
  rfl

end

theorem keeps_write (ht : frameOf (pde dirs s e (pdx va)) = some f) (t : Idx) (w : Word) :
    KeepsFrames dirs s l (s.write f t w) := by
  refine ⟨rfl, fun g j _ hg _ => ?_⟩
  have hgf : g ≠ f := by
    rintro rfl
    exact hg e (pdx va) ht
  rw [mem_write_of_ne _ _ _ hgf]

theorem remove_present (L : Ledger F dirs s held l) (he : dirs e = some d)
    (hp : frameOf (pte dirs s e (pdx va) (ptx va)) = some p)
    (hb : refs dirs s p + held p ≤ 65536) :
    ∃ s', s.pageRemove (some d) va = some s' ∧
      EntrySet F dirs s held l e (pdx va) (ptx va) 0#32 s'
        (if refs dirs s p + held p = 1 then p :: l else l) ∧
      pde dirs s' = pde dirs s ∧ ref dirs s' =
        update (ref dirs s) (.page e (pdx va) (ptx va)) none := by
  obtain ⟨f, ht, hm⟩ := exists_table_of_page hp
  have hpF : p ∈ F := L.page_mem hp
  obtain ⟨L1, hone⟩ := L.clear_page ht hp
  have href1 := L.ref_write_table (j := ptx va) (w := 0#32) ht
  have hheld : update held p (held p + 1) p = held p + 1 := update_self ..
  obtain ⟨s', hs', hmem, hkern, L2⟩ := L1.decref hpF (by omega) (by omega)
  have hsum : refs dirs (s.write f (ptx va) 0#32) p + update held p (held p + 1) p =
      refs dirs s p + held p := by omega
  rw [hsum, hheld, update_idem, Nat.add_sub_cancel, update_eq_self] at L2
  have hpde : pde dirs s' = pde dirs s := (pde_congr hmem).trans (L.pde_write_table ht)
  have href : ref dirs s' = update (ref dirs s) (.page e (pdx va) (ptx va)) none :=
    (ref_congr hmem hkern).trans href1
  refine ⟨s', ?_, ⟨L2, ?_, ?_, ?_, ?_, ?_⟩, hpde, href⟩
  · rw [pageRemove, L.lookup_present he ht hp]
    exact hs'
  · intro e' i' t'
    rw [pte_congr hmem]
    exact L.pte_write_table ht e' i' t'
  · intro e' i'
    left
    rw [hpde]
  · obtain ⟨_, hkeep⟩ := keeps_write (l := l) ht (ptx va) 0#32
    refine ⟨hkern, fun g j hgl hgt hgd => ?_⟩
    rw [hmem]
    exact hkeep g j hgl hgt hgd
  · -- a page that lost its last reference is on the free list now
    intro q hq hacc
    have hpx : ref dirs s (.page e (pdx va) (ptx va)) = some p := hp
    have hcount : refs dirs s' q + (if p = q then 1 else 0) = refs dirs s q := by
      have := count_update_none (ref dirs s) (.page e (pdx va) (ptx va)) q
      rw [← href, hpx] at this
      simpa only [refs, Option.some.injEq] using this
    by_cases hqp : p = q
    · subst hqp
      rw [if_pos rfl] at hcount
      by_cases h1 : refs dirs s p + held p = 1
      · rw [if_pos h1]
        exact .inl mem_cons_self
      · omega
    · rw [if_neg hqp, Nat.add_zero] at hcount
      rw [hcount]
      refine hacc.imp_left fun hql => ?_
      split
      · exact mem_cons_of_mem _ hql
      · exact hql
  · intro q hq
    split at hq
    · rcases mem_cons.mp hq with rfl | hq
      · exact .inr hp
      · exact .inl hq
    · exact .inl hq

/-! ### page_insert -/

section

variable (L : Ledger F dirs s held l) (he : dirs e = some d)
  (ht : frameOf (pde dirs s e (pdx va)) = some f) (hppl : pp ∉ l)
  (hpage : ∀ x, ref dirs s x = some pp → x.isPage)
  (hb : ∀ p, frameOf (pte dirs s e (pdx va) (ptx va)) = some p → refs dirs s p + held p < 65536)
include L he ht hppl hpage hb

/-- The count goes up and the old page is removed: the entry is empty before the store. -/
theorem insert_empty :
    ∃ s2 l', (if has ((s.pageIncref pp).mem f (ptx va)) pteP
        then (s.pageIncref pp).pageRemove (some d) va else some (s.pageIncref pp)) = some s2 ∧
      Ledger F dirs s2 (update held pp (held pp + 1)) l' ∧
      frameOf (pte dirs s2 e (pdx va) (ptx va)) = none ∧ pde dirs s2 = pde dirs s ∧
      (∀ e' i' t', ¬ (e' = e ∧ i' = pdx va ∧ t' = ptx va) →
        pte dirs s2 e' i' t' = pte dirs s e' i' t') ∧ KeepsFrames dirs s l s2 ∧
      (∀ q ∈ F, q ∈ l ∨ 0 < refs dirs s q + held q →
        q ∈ l' ∨ 0 < refs dirs s2 q + update held pp (held pp + 1) q) ∧
      (∀ q ∈ l', q ∈ l ∨ frameOf (pte dirs s e (pdx va) (ptx va)) = some q) := by
  have L1 := L.incref hppl hpage
  have hpde1 : pde dirs (s.pageIncref pp) = pde dirs s := pde_congr rfl
  have hpte1 : pte dirs (s.pageIncref pp) = pte dirs s := pte_congr rfl
  have href1 : ref dirs (s.pageIncref pp) = ref dirs s := ref_congr rfl rfl
  have hheld : ∀ q, held q ≤ update held pp (held pp + 1) q ∧
      update held pp (held pp + 1) q ≤ held q + 1 := by
    intro q
    by_cases hq : q = pp
    · subst hq
      rw [update_self]
      omega
    · rw [update_of_ne hq]
      omega
  cases hold : frameOf (pte dirs s e (pdx va) (ptx va)) with
  | none =>
    have hP : ¬ has ((s.pageIncref pp).mem f (ptx va)) pteP := by
      rw [pte_of_table ht] at hold
      exact frameOf_eq_none.mp hold
    refine ⟨s.pageIncref pp, l, by rw [if_neg hP], L1, by rw [hpte1]; exact hold, hpde1,
      fun e' i' t' _ => by rw [hpte1], ⟨rfl, fun _ _ _ _ _ => rfl⟩, fun q _ hacc => ?_,
      fun q hq => .inl hq⟩
    have := hheld q
    rw [refs, href1, ← refs]
    exact hacc.imp_right fun h => by omega
  | some p =>
    have hP : has ((s.pageIncref pp).mem f (ptx va)) pteP := by
      rw [pte_of_table ht] at hold
      exact (frameOf_eq_some.mp hold).1
    have hbound : refs dirs (s.pageIncref pp) p + update held pp (held pp + 1) p ≤ 65536 := by
      have := hb p hold
      have := hheld p
      rw [refs, href1, ← refs]
      omega
    obtain ⟨s2, hs2, E, hpde2, _⟩ := L1.remove_present he (by rw [hpte1]; exact hold) hbound
    refine ⟨s2, _, by rw [if_pos hP, hs2], E.ledger, ?_, hpde2.trans hpde1, ?_, E.keeps, ?_, ?_⟩
    · rw [E.pte_eq, if_pos ⟨rfl, rfl, rfl⟩, frameOf_zero]
    · intro e' i' t' hne
      rw [E.pte_eq, if_neg hne, hpte1]
    · intro q hq hacc
      apply E.accounted q hq
      have := hheld q
      rw [refs, href1, ← refs]
      exact hacc.imp_right fun h => by omega
    · intro q hq
      have := E.free_sub q hq
      rwa [hpte1, hold] at this

/-- `page_insert` once its table is there: count, remove the old page, store. The count
    goes up first, so that re-inserting the page that is mapped already does not free it. -/
theorem insert_store (hperm : IsPerm perm) (hpp : pp ∈ F) :
    ∃ s2 l', (if has ((s.pageIncref pp).mem f (ptx va)) pteP
        then (s.pageIncref pp).pageRemove (some d) va else some (s.pageIncref pp)) = some s2 ∧
      EntrySet F dirs s held l e (pdx va) (ptx va) (mkPte pp perm)
        (s2.write f (ptx va) (mkPte pp perm)) l' := by
  have hlt : pp < 2 ^ 20 := lt_of_lt_of_le (L.frame_lt pp hpp) L.npages_le
  have hw : frameOf (mkPte pp perm) = some pp := frameOf_mkPte hlt hperm
  obtain ⟨s2, l', hs2, L2, hempty, hpde2, hpte2, hkeep2, hacc2, hfree2⟩ :=
    L.insert_empty he ht hppl hpage hb
  have ht2 : frameOf (pde dirs s2 e (pdx va)) = some f := by rw [hpde2]; exact ht
  have L3 := L2.store_page (j := ptx va) (w := mkPte pp perm) ht2 hempty hw hpp
    (by rw [update_self]; omega)
  rw [update_self, Nat.add_sub_cancel, update_idem, update_eq_self] at L3
  have href3 := L2.ref_write_table (j := ptx va) (w := mkPte pp perm) ht2
  refine ⟨s2, l', hs2, L3, ?_, ?_, ?_, ?_, hfree2⟩
  · intro e' i' t'
    rw [L2.pte_write_table ht2]
    split
    · rfl
    · next hne => exact hpte2 e' i' t' hne
  · intro e' i'
    left
    rw [L2.pde_write_table ht2, hpde2]
  · refine ⟨hkeep2.1, fun g j hgl hgt hgd => ?_⟩
    have hgf : g ≠ f := by
      rintro rfl
      exact hgt e (pdx va) ht
    rw [mem_write_of_ne _ _ _ hgf]
    exact hkeep2.2 g j hgl hgt hgd
  · intro q hq hacc
    have hnone : ref dirs s2 (.page e (pdx va) (ptx va)) = none := hempty
    have hcount : refs dirs (s2.write f (ptx va) (mkPte pp perm)) q =
        refs dirs s2 q + if pp = q then 1 else 0 := by
      rw [refs, href3, hw, count_update_some hnone]
      rfl
    refine (hacc2 q hq hacc).imp_right fun h => ?_
    rw [hcount]
    by_cases hqp : q = pp
    · subst hqp
      rw [if_pos rfl]
      omega
    · rw [update_of_ne hqp] at h
      omega

end

/-- `page_insert` below `UTOP` either finds no page for the table it needs, and then leaves
    the state as it was, or sets the entry. -/
theorem insert (L : Ledger F dirs s held l) (he : dirs e = some d) (hi : pdx va < pdxUtop)
    (hperm : IsPerm perm) (hpp : pp ∈ F) (hppl : pp ∉ l)
    (hpage : ∀ x, ref dirs s x = some pp → x.isPage)
    (hb : ∀ p, frameOf (pte dirs s e (pdx va) (ptx va)) = some p →
      refs dirs s p + held p < 65536) :
    (frameOf (pde dirs s e (pdx va)) = none ∧ l = [] ∧
      s.pageInsert (some d) pp va perm = some (s, -eNoMem)) ∨
    ∃ s' l', s.pageInsert (some d) pp va perm = some (s', 0) ∧
      EntrySet F dirs s held l e (pdx va) (ptx va) (mkPte pp perm) s' l' := by
  cases ht : frameOf (pde dirs s e (pdx va)) with
  | some f =>
    right
    obtain ⟨s2, l', hs2, E⟩ := L.insert_store he ht hppl hpage hb hperm hpp
    refine ⟨_, l', ?_, E⟩
    rw [pageInsert, L.walk_present he ht]
    simp only [Option.bind_some, hs2]
  | none =>
    cases l with
    | nil =>
      left
      refine ⟨rfl, rfl, ?_⟩
      rw [pageInsert, L.walk_nomem he hi ht]
      rfl
    | cons q l =>
      right
      obtain ⟨s1, hs1, L1, href1, hpde1, hpte1, hkeep1⟩ := L.walk_create he hi ht
      have hq : q ∈ F := (L.free q mem_cons_self).1
      have hqpp : q ≠ pp := fun h => hppl (h ▸ mem_cons_self)
      have hlt : q < 2 ^ 20 := lt_of_lt_of_le (L.frame_lt q hq) L.npages_le
      have ht1 : frameOf (pde dirs s1 e (pdx va)) = some q := by
        rw [hpde1, if_pos ⟨rfl, rfl⟩]
        exact frameOf_tableWord hlt
      have hcount : ∀ p, refs dirs s1 p = refs dirs s p + if q = p then 1 else 0 := by
        intro p
        have hnone : ref dirs s (.table e (pdx va)) = none := ht
        rw [refs, href1, count_update_some hnone]
        rfl
      have hpage1 : ∀ x, ref dirs s1 x = some pp → x.isPage := by
        intro x hx
        by_cases hxt : x = .table e (pdx va)
        · subst hxt
          rw [href1, update_self] at hx
          exact absurd (Option.some.inj hx) hqpp
        · rw [href1, update_of_ne hxt] at hx
          exact hpage x hx
      obtain ⟨s2, l', hs2, E⟩ := L1.insert_store he ht1
        (fun h => hppl (mem_cons_of_mem _ h)) hpage1 (by
          intro p hp
          rw [hpte1, pte_of_no_table ht] at hp
          simp at hp) hperm hpp
      refine ⟨_, l', ?_, E.ledger, ?_, ?_, ?_, ?_, ?_⟩
      · rw [pageInsert, hs1]
        simp only [Option.bind_some, hs2]
      · intro e' i' t'
        rw [E.pte_eq, hpte1]
      · intro e' i'
        have hsame : pde dirs (s2.write q (ptx va) (mkPte pp perm)) e' i' = pde dirs s1 e' i' := by
          rcases E.pde_eq e' i' with h | ⟨_, _, h, _⟩
          · exact h
          · rw [ht1] at h
            cases h
        by_cases hx : e' = e ∧ i' = pdx va
        · obtain ⟨rfl, rfl⟩ := hx
          refine .inr ⟨rfl, rfl, ht, q, mem_cons_self, ?_⟩
          rw [hsame, hpde1, if_pos ⟨rfl, rfl⟩]
        · left
          rw [hsame, hpde1, if_neg hx]
      · refine ⟨E.keeps.1.trans hkeep1.1, fun g j hgl hgt hgd => ?_⟩
        have hgt1 : ∀ e' i', frameOf (pde dirs s1 e' i') ≠ some g := by
          intro e' i'
          rw [hpde1]
          split
          · rw [frameOf_tableWord hlt]
            intro h
            exact hgl (Option.some.inj h ▸ mem_cons_self)
          · exact hgt e' i'
        rw [E.keeps.2 g j (fun h => hgl (mem_cons_of_mem _ h)) hgt1 hgd]
        exact hkeep1.2 g j hgl hgt hgd
      · intro p hp hacc
        apply E.accounted p hp
        rw [hcount]
        rcases hacc with hpl | hpos
        · rcases mem_cons.mp hpl with rfl | hpl
          · rw [if_pos rfl]
            omega
          · exact .inl hpl
        · omega
      · intro p hp
        rcases E.free_sub p hp with h | h
        · exact .inl (mem_cons_of_mem _ h)
        · rw [hpte1] at h
          exact .inr h

end Ledger

end LinuxStudy.Jos
