import LinuxStudy.Jos.UserPointers
import LinuxStudy.Jos.System

/-!
# The two-level page table as a finite map

Seen through `page_lookup`, a page directory is a map from pages of the address space to pages of
memory with permissions. `page_insert` sets one entry of it and `page_remove` clears one, whatever
they have to do to the tables. There is one exception: a directory that refers to itself, as each
does at `UVPT`, shows its own entries as mappings, and a new table is a new entry.
-/

namespace LinuxStudy.Jos

open Pmap
open Function (update_self update_of_ne)

/-- What `page_lookup` finds: the page, and the word its entry holds. -/
def Pmap.mapping (s : Pmap) (d : ℕ) (va : Word) : Option (Option (ℕ × Word)) :=
  (s.pageLookup (some d) va).map fun found =>
    found.map fun (pp, pte) => (pp, s.mem pte.1 pte.2)

/-- A directory: below `UTOP` each table is a page of the machine that is used nowhere else in
    the directory, and the pages mapped are not on the free list. The next free page is in no
    use. -/
structure WellFormed (s : Pmap) (d : ℕ) : Prop where
  npages_le : s.npages ≤ 2 ^ 20
  table_lt : ∀ i < pdxUtop, ∀ f, frameOf (s.mem d i) = some f → f < s.npages ∧ f ≠ d
  distinct : ∀ i < pdxUtop, ∀ j f, frameOf (s.mem d i) = some f →
    frameOf (s.mem d j) = some f → j = i
  page : ∀ i < pdxUtop, ∀ f t p, frameOf (s.mem d i) = some f → frameOf (s.mem f t) = some p →
    p < s.npages ∧ s.link p = none
  free : ∀ q, s.pageFreeList = some q → q < s.npages ∧ q ≠ d ∧ (s.pages q).ppRef = 0 ∧
    ∀ i, frameOf (s.mem d i) ≠ some q

/-- The table for `va` is frame `f`, and used for nothing else. -/
structure TableAt (s : Pmap) (d : ℕ) (va : Word) (f : ℕ) : Prop where
  npages_le : s.npages ≤ 2 ^ 20
  entry : frameOf (s.mem d (pdx va)) = some f
  lt : f < s.npages
  ne : f ≠ d
  alone : ∀ j, frameOf (s.mem d j) = some f → j = pdx va
  page : ∀ p, frameOf (s.mem f (ptx va)) = some p → p < s.npages ∧ s.link p = none

section

variable {s s' : Pmap} {d f pp : ℕ} {va va' perm w : Word}

theorem pgnum_eq_of_pdx_ptx (hd : pdx va' = pdx va) (ht : ptx va' = ptx va) :
    pgnum va' = pgnum va := by
  have hd' := congrArg Fin.val hd
  have ht' := congrArg Fin.val ht
  rw [pdx_val, pdx_val] at hd'
  rw [ptx_val, ptx_val] at ht'
  rw [pgnum, pgnum, Nat.shiftRight_eq_div_pow, Nat.shiftRight_eq_div_pow]
  omega

/-! ### Lookups -/

theorem Pmap.mapping_no_table (h : frameOf (s.mem d (pdx va)) = none) :
    s.mapping d va = some none := by
  have hnot := frameOf_eq_none.mp h
  simp [mapping, pageLookup, pgdirWalk, hnot]

/-- With a table that the machine has, the result is that of its entry. -/
theorem Pmap.mapping_table (h : frameOf (s.mem d (pdx va)) = some f) (hf : f < s.npages) :
    s.mapping d va = match frameOf (s.mem f (ptx va)) with
      | none => some none
      | some p => if p < s.npages then some (some (p, s.mem f (ptx va))) else none := by
  obtain ⟨hP, rfl⟩ := frameOf_eq_some.mp h
  simp only [mapping, pageLookup, pgdirWalk, hP, if_true, pteSlot, kaddr,
    pgnum_pteAddr, hf, Option.bind_some]
  by_cases hE : has (s.mem (pgnum (s.mem d (pdx va))) (ptx va)) pteP
  · rw [if_pos hE, frameOf, if_pos hE, pa2page, pgnum_pteAddr]
    split_ifs with hp
    · simp [hp]
    · simp [hp]
  · rw [if_neg hE, frameOf, if_neg hE]
    rfl

theorem Pmap.mapping_bad_table (h : frameOf (s.mem d (pdx va)) = some f) (hf : ¬ f < s.npages) :
    s.mapping d va = none := by
  obtain ⟨hP, rfl⟩ := frameOf_eq_some.mp h
  simp only [mapping, pageLookup, pgdirWalk, hP, if_true, pteSlot, kaddr,
    pgnum_pteAddr, hf, if_false, Option.bind_none, Option.map_none]

/-- A lookup reads a directory entry and an entry of the table it names. -/
theorem Pmap.mapping_congr (hn : s'.npages = s.npages) (hd : s'.mem d (pdx va) = s.mem d (pdx va))
    (ht : ∀ f, frameOf (s.mem d (pdx va)) = some f → s'.mem f (ptx va) = s.mem f (ptx va)) :
    s'.mapping d va = s.mapping d va := by
  cases h : frameOf (s.mem d (pdx va)) with
  | none => rw [mapping_no_table h, mapping_no_table (by rw [hd, h])]
  | some f =>
    have h' : frameOf (s'.mem d (pdx va)) = some f := by rw [hd, h]
    by_cases hf : f < s.npages
    · rw [mapping_table h hf, mapping_table h' (by rw [hn]; exact hf), ht f h, hn]
    · rw [mapping_bad_table h hf, mapping_bad_table h' (by rw [hn]; exact hf)]

/-! ### The table -/

theorem WellFormed.tableAt (wf : WellFormed s d) (hva : va < utop)
    (h : frameOf (s.mem d (pdx va)) = some f) : TableAt s d va f := by
  have hi := (lt_utop_iff va).mp hva
  obtain ⟨hlt, hne⟩ := wf.table_lt _ hi f h
  exact ⟨wf.npages_le, h, hlt, hne, fun j hj => wf.distinct _ hi j f h hj,
    fun p hp => wf.page _ hi f _ p h hp⟩

/-- The state after a free page `q` became the table for `va`. -/
def Pmap.newTable (s : Pmap) (d : ℕ) (va : Word) (q : ℕ) : Pmap :=
  ((({ s with pageFreeList := (s.pages q).ppLink }.setLink q none).clear q).pageIncref q).write d
    (pdx va) (tableWord q)

theorem pgdirWalk_new {q : ℕ} (hP : ¬ has (s.mem d (pdx va)) pteP) (hfree : s.pageFreeList = some q)
    (hlt : q < s.npages) (hq : q < 2 ^ 20) (href : (s.pages q).ppRef = 0) :
    s.pgdirWalk (some d) va true = some (s.newTable d va q, some (q, ptx va)) := by
  have halloc : s.pageAlloc true =
      some (({ s with pageFreeList := (s.pages q).ppLink }.setLink q none).clear q, some q) := by
    simp [pageAlloc, hfree, page2kva, kaddr, pgnum_page2pa hq, setLink, hlt]
  have hpage : (((({ s with pageFreeList := (s.pages q).ppLink }.setLink q none).clear q).pageIncref
      q).pages q) = ⟨none, 1⟩ := by
    simp [pageIncref, setRef, clear, setLink, href]
  have hslot : (s.newTable d va q).pteSlot d va = some (s.newTable d va q, some (q, ptx va)) := by
    have hentry : (s.newTable d va q).mem d (pdx va) = tableWord q := by
      rw [newTable, mem_write_self, update_self]
    have hnp : (s.newTable d va q).npages = s.npages := rfl
    rw [pteSlot, kaddr, hentry, pgnum_pteAddr,
      (frameOf_eq_some.mp (frameOf_tableWord hq)).2, hnp, if_pos hlt]
    rfl
  simp only [pgdirWalk, hP, if_false, halloc, Option.bind_some, Bool.true_eq_false]
  rw [hpage]
  exact hslot

/-- **`pgdir_walk` with `create`**: it finds no page and does nothing, or gives the entry in the
    table, which may be new; nothing is mapped or unmapped, except where the directory itself is
    used as a table. -/
theorem WellFormed.walk (wf : WellFormed s d) (hva : va < utop) :
    (frameOf (s.mem d (pdx va)) = none ∧ s.pgdirWalk (some d) va true = some (s, none)) ∨
    ∃ s' f, s.pgdirWalk (some d) va true = some (s', some (f, ptx va)) ∧ TableAt s' d va f ∧
      s'.npages = s.npages ∧
      ∀ va', frameOf (s.mem d (pdx va')) ≠ some d → s'.mapping d va' = s.mapping d va' := by
  cases h : frameOf (s.mem d (pdx va)) with
  | some f =>
    have htab := wf.tableAt hva h
    obtain ⟨hP, hpg⟩ := frameOf_eq_some.mp h
    refine .inr ⟨s, f, ?_, htab, rfl, fun _ _ => rfl⟩
    simp [pgdirWalk, hP, pteSlot, kaddr, pgnum_pteAddr, hpg, htab.lt]
  | none =>
    have hP := frameOf_eq_none.mp h
    cases hfree : s.pageFreeList with
    | none =>
      simp [pgdirWalk, hP, pageAlloc, hfree]
    | some q =>
      obtain ⟨hlt, hne, href, hunused⟩ := wf.free q hfree
      have hq : q < 2 ^ 20 := hlt.trans_le wf.npages_le
      have hframe := frameOf_tableWord hq
      obtain ⟨s', hs', hwalk⟩ : ∃ s', s' = s.newTable d va q ∧
          s.pgdirWalk (some d) va true = some (s', some (q, ptx va)) :=
        ⟨_, rfl, pgdirWalk_new hP hfree hlt hq href⟩
      have hn : s'.npages = s.npages := by rw [hs']; rfl
      have hrow : s'.mem d = Function.update (s.mem d) (pdx va) (tableWord q) := by
        rw [hs', newTable, mem_write_self, mem_pageIncref, mem_clear_of_ne _ (Ne.symm hne)]
        rfl
      have hzero : ∀ t, s'.mem q t = 0#32 := by
        intro t
        rw [hs', newTable, mem_write_of_ne _ _ _ hne, mem_pageIncref, mem_clear_self]
      have hother : ∀ g, g ≠ q → g ≠ d → s'.mem g = s.mem g := by
        intro g hgq hgd
        rw [hs', newTable, mem_write_of_ne _ _ _ hgd, mem_pageIncref, mem_clear_of_ne _ hgq]
        rfl
      have hentry : frameOf (s'.mem d (pdx va)) = some q := by
        rw [hrow, update_self, hframe]
      refine .inr ⟨s', q, hwalk, ⟨hn ▸ wf.npages_le, hentry, hn ▸ hlt, hne, fun j hj => ?_,
        fun p hp => ?_⟩, hn, fun va' hself => ?_⟩
      · by_contra hj'
        rw [hrow, update_of_ne hj'] at hj
        exact hunused j hj
      · rw [hzero, frameOf_zero] at hp
        cases hp
      · by_cases hpdx : pdx va' = pdx va
        · -- the new table is empty, and there was none before
          have hbefore : s.mapping d va' = some none := mapping_no_table (by rw [hpdx, h])
          have hnow : frameOf (s'.mem d (pdx va')) = some q := by rw [hpdx, hentry]
          rw [hbefore, mapping_table hnow (hn ▸ hlt), hzero, frameOf_zero]
        · refine mapping_congr hn (by rw [hrow, update_of_ne hpdx]) fun g hg => ?_
          have hgq : g ≠ q := by
            rintro rfl
            exact hunused _ hg
          have hgd : g ≠ d := by
            rintro rfl
            exact hself hg
          rw [hother g hgq hgd]

/-! ### The entry -/

/-- A store into the entry changes what is mapped at its page, and nothing else. -/
theorem TableAt.store (h : TableAt s d va f) (hn : s'.npages = s.npages)
    (hmem : s'.mem = (s.write f (ptx va) w).mem) :
    (s'.mapping d va = match frameOf w with
      | none => some none
      | some p => if p < s.npages then some (some (p, w)) else none) ∧
    ∀ va', pgnum va' ≠ pgnum va → s'.mapping d va' = s.mapping d va' := by
  have hrow : s'.mem d = s.mem d := by rw [hmem, mem_write_of_ne _ _ _ h.ne.symm]
  have htable : s'.mem f = Function.update (s.mem f) (ptx va) w := by rw [hmem, mem_write_self]
  refine ⟨?_, fun va' hva' => ?_⟩
  · rw [mapping_table (by rw [hrow]; exact h.entry) (hn ▸ h.lt), htable, update_self, hn]
  · refine mapping_congr hn (by rw [hrow]) fun g hg => ?_
    by_cases hgf : g = f
    · subst hgf
      have hne : ptx va' ≠ ptx va := fun ht => hva' (pgnum_eq_of_pdx_ptx (h.alone _ hg) ht)
      rw [htable, update_of_ne hne]
    · rw [hmem, mem_write_of_ne _ _ _ hgf]

theorem pageDecref_ok {p : ℕ} (hlink : s.link p = none) :
    ∃ s', s.pageDecref p = some s' ∧ s'.mem = s.mem ∧ s'.npages = s.npages := by
  have hlink' : ((s.setRef p ((s.pages p).ppRef - 1)).pages p).ppLink = none := by
    have h : (s.setRef p ((s.pages p).ppRef - 1)).link p = none := by rw [link_setRef, hlink]
    exact h
  rw [pageDecref]
  split_ifs with hzero
  · rw [pageFree, if_neg (not_not.mpr hzero), if_neg (not_not.mpr hlink')]
    exact ⟨_, rfl, rfl, rfl⟩
  · exact ⟨_, rfl, rfl, rfl⟩

/-- **`page_remove`** clears the entry, if there is a page. -/
theorem TableAt.remove (h : TableAt s d va f) :
    ∃ s', s.pageRemove (some d) va = some s' ∧ s'.npages = s.npages ∧
      (s' = s ∧ frameOf (s.mem f (ptx va)) = none ∨ s'.mem = (s.write f (ptx va) 0#32).mem) := by
  obtain ⟨hP, hpg⟩ := frameOf_eq_some.mp h.entry
  by_cases hE : has (s.mem f (ptx va)) pteP
  · obtain ⟨p, hp⟩ : ∃ p, frameOf (s.mem f (ptx va)) = some p := ⟨_, if_pos hE⟩
    obtain ⟨hlt, hlink⟩ := h.page p hp
    obtain ⟨s', hs', hmem, hn⟩ := pageDecref_ok (s := s.write f (ptx va) 0#32) (p := p) hlink
    refine ⟨s', ?_, hn, .inr hmem⟩
    simp [pageRemove, pageLookup, pgdirWalk, hP, pteSlot, kaddr,
      pgnum_pteAddr, hpg, h.lt, hE, pa2page, (frameOf_eq_some.mp hp).2, hlt, hs']
  · refine ⟨s, ?_, rfl, .inl ⟨rfl, frameOf_eq_none.mpr hE⟩⟩
    simp [pageRemove, pageLookup, pgdirWalk, hP, pteSlot, kaddr, pgnum_pteAddr, hpg, h.lt, hE]

/-- The rest of **`page_insert`**, when there is a table. -/
theorem TableAt.insert (h : TableAt s d va f) (pp : ℕ) (perm : Word) :
    ∃ s1 s', (if has ((s.pageIncref pp).mem f (ptx va)) pteP
        then (s.pageIncref pp).pageRemove (some d) va else some (s.pageIncref pp)) = some s1 ∧
      s' = s1.write f (ptx va) (mkPte pp perm) ∧ s'.npages = s.npages ∧
      s'.mem = (s.write f (ptx va) (mkPte pp perm)).mem := by
  have h' : TableAt (s.pageIncref pp) d va f :=
    ⟨h.npages_le, h.entry, h.lt, h.ne, h.alone, fun p hp => by
      have hlink : (s.pageIncref pp).link = s.link := link_setRef ..
      rw [hlink]
      exact h.page p hp⟩
  split_ifs with hE
  · obtain ⟨s1, hs1, hn, ⟨_, hnone⟩ | hmem⟩ := h'.remove
    · exact absurd hE (frameOf_eq_none.mp hnone)
    · refine ⟨s1, _, hs1, rfl, hn, ?_⟩
      -- the store of zero by page_remove is overwritten
      rw [write, write, hmem]
      simp [write]
  · exact ⟨s.pageIncref pp, _, rfl, rfl, rfl, rfl⟩

/-- **The two-level page table is a finite map**, as far as the directory does not refer to
    itself: `page_insert` fails without any effect or sets the one entry, `page_remove` clears it,
    and `pgdir_walk` changes nothing. -/
theorem page_table_map (wf : WellFormed s d) (hva : va < utop) :
    (∀ pp perm, pp < s.npages → IsPerm perm →
      s.pageInsert (some d) pp va perm = some (s, -eNoMem) ∨
      ∃ s' w, s.pageInsert (some d) pp va perm = some (s', 0) ∧
        s'.mapping d va = some (some (pp, w)) ∧ pteFlags w = perm ||| pteP ∧
        ∀ va', pgnum va' ≠ pgnum va → frameOf (s.mem d (pdx va')) ≠ some d →
          s'.mapping d va' = s.mapping d va') ∧
    (∃ s', s.pageRemove (some d) va = some s' ∧ s'.mapping d va = some none ∧
      ∀ va', pgnum va' ≠ pgnum va → s'.mapping d va' = s.mapping d va') ∧
    ∃ s' pte, s.pgdirWalk (some d) va true = some (s', pte) ∧
      ∀ va', frameOf (s.mem d (pdx va')) ≠ some d → s'.mapping d va' = s.mapping d va' := by
  refine ⟨fun pp perm hpp hperm => ?insert, ?remove, ?walk⟩
  case insert =>
    have hpp' : pp < 2 ^ 20 := hpp.trans_le wf.npages_le
    rw [pageInsert]
    rcases wf.walk hva with ⟨_, hwalk⟩ | ⟨s₁, f, hwalk, htab, hn, hkeep⟩
    · rw [hwalk]
      exact .inl rfl
    · obtain ⟨s₂, s', hs₂, rfl, hn', hmem⟩ := htab.insert pp perm
      obtain ⟨hat, hother⟩ := htab.store hn' hmem
      rw [frameOf_mkPte hpp' hperm, hn] at hat
      refine .inr ⟨_, mkPte pp perm, ?_, hat.trans (if_pos hpp), pteFlags_mkPte hpp' hperm,
        fun va' hne hself => (hother va' hne).trans (hkeep va' hself)⟩
      rw [hwalk, Option.bind_some]
      simp only [hs₂, Option.bind_some]
  case remove =>
    cases h : frameOf (s.mem d (pdx va)) with
    | none =>
      refine ⟨s, ?_, mapping_no_table h, fun _ _ => rfl⟩
      simp [pageRemove, pageLookup, pgdirWalk, frameOf_eq_none.mp h]
    | some f =>
      have htab := wf.tableAt hva h
      obtain ⟨s', hs', hn, ⟨rfl, hnone⟩ | hmem⟩ := htab.remove
      · refine ⟨s', hs', ?_, fun _ _ => rfl⟩
        rw [mapping_table h htab.lt, hnone]
      · obtain ⟨hat, hother⟩ := htab.store hn hmem
        exact ⟨s', hs', hat, hother⟩
  case walk =>
    rcases wf.walk hva with ⟨_, hwalk⟩ | ⟨s', f, hwalk, _, _, hkeep⟩
    · exact ⟨s, none, hwalk, fun _ _ => rfl⟩
    · exact ⟨s', _, hwalk, hkeep⟩

end

/-! ### A directory with a free page -/

/-- The sample machine, with frame 11 free. -/
def Pmap.spare : Pmap := { Kernel.sample.pmap with pageFreeList := some 11 }

theorem frameOf_spare (i : Idx) : frameOf (Pmap.spare.mem 8 i) =
    if i = pdx utext then some 9 else if i = pdx uvpt then some 8
    else if i = pdx kernbase then some 5 else none := by
  simp only [spare, Kernel.sample]
  split_ifs <;> first | rfl | simp_all

theorem wellFormed_spare : WellFormed Pmap.spare 8 := by
  have hrow : ∀ i < pdxUtop, ∀ f, frameOf (spare.mem 8 i) = some f →
      i = pdx utext ∧ f = 9 := by
    intro i hi f hf
    rw [frameOf_spare] at hf
    split_ifs at hf with h1 h2 h3
    · exact ⟨h1, (Option.some.inj hf).symm⟩
    · rw [h2] at hi
      exact absurd hi (by decide)
    · rw [h3] at hi
      exact absurd hi (by decide)
  refine ⟨by decide, fun i hi f hf => ?_, fun i hi j f hf hj => ?_, fun i hi f t p hf hp => ?_,
    fun q hq => ?_⟩
  · obtain ⟨rfl, rfl⟩ := hrow i hi f hf
    decide
  · obtain ⟨rfl, rfl⟩ := hrow i hi f hf
    rw [frameOf_spare] at hj
    split_ifs at hj with h1
    · exact h1
    · exact absurd hj (by decide)
    · exact absurd hj (by decide)
  · obtain ⟨rfl, rfl⟩ := hrow i hi f hf
    have hword : spare.mem 9 t = if t = 0 then mkPte 10 (pteU ||| pteW) else 0#32 := by
      simp [spare, Kernel.sample]
    rw [hword] at hp
    split_ifs at hp
    · cases (show frameOf (mkPte 10 (pteU ||| pteW)) = some 10 by decide).symm.trans hp
      decide
    · cases hp
  · cases hq
    refine ⟨by decide, by decide, by decide, fun i hi => ?_⟩
    rw [frameOf_spare] at hi
    split_ifs at hi <;> exact absurd hi (by decide)

/-- A page is mapped at address 0, for which there was no table. -/
theorem page_table_map_spare :
    WellFormed Pmap.spare 8 ∧ ∃ s' w, Pmap.spare.pageInsert (some 8) 10 0#32 pteU = some (s', 0) ∧
      s'.mapping 8 0#32 = some (some (10, w)) ∧ pteFlags w = pteU ||| pteP ∧
      s'.mapping 8 utext = Pmap.spare.mapping 8 utext := by
  have hcode : (spare.pageInsert (some 8) 10 0#32 pteU).map Prod.snd = some 0 := by decide
  rcases (page_table_map wellFormed_spare (show 0#32 < utop by decide)).1 10 pteU (by decide)
    (by decide) with hfail | ⟨s', w, hs', hat, hflags, hother⟩
  · rw [hfail] at hcode
    exact absurd hcode (by decide)
  · exact ⟨wellFormed_spare, s', w, hs', hat, hflags, hother utext (by decide) (by decide)⟩

/-- With the table for address 0 a page appears at `UVPT`, although all tables are distinct. -/
theorem walk_shows_table : WellFormed Pmap.spare 8 ∧
    (∀ i j f, frameOf (Pmap.spare.mem 8 i) = some f →
      frameOf (Pmap.spare.mem 8 j) = some f → i = j) ∧
    pgoff uvpt = 0#32 ∧ pgnum uvpt ≠ pgnum 0#32 ∧ Pmap.spare.mapping 8 uvpt = some none ∧
    (Pmap.spare.pgdirWalk (some 8) 0#32 true).map (fun r => r.1.mapping 8 uvpt) =
      some (some (some (11, tableWord 11))) ∧
    (Pmap.spare.pageInsert (some 8) 10 0#32 pteU).map (fun r => (r.1.mapping 8 uvpt, r.2)) =
      some (some (some (11, tableWord 11)), 0) := by
  refine ⟨wellFormed_spare, fun i j f hi hj =>
    ?_, by decide, by decide, by decide, by decide, by decide⟩
  rw [frameOf_spare] at hi hj
  split_ifs at hi hj <;> first | (subst_vars; rfl) | exact absurd (hi.trans hj.symm) (by decide)

end LinuxStudy.Jos
