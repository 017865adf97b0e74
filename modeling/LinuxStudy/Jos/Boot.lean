import LinuxStudy.Jos.AddressSpace

/-!
# The state `page_init` leaves

`page_init` threads all pages but the reserved ones onto the free list. At that time
`kern_pgdir` only maps itself, and there are no environments, so nothing refers to a page the
allocator owns.
-/

namespace LinuxStudy.Jos

open RefCount

/-- The condition of `page_init` for a page that must not be handed out. -/
def Reserved (npagesBasemem extendedFree i : ℕ) : Prop :=
  i = 0 ∨ (npagesBasemem ≤ i ∧ i < extendedFree) ∨ i = pgnum mpentryPaddr

instance (b x i : ℕ) : Decidable (Reserved b x i) :=
  inferInstanceAs (Decidable (_ ∨ _ ∨ _))

/-- The frames `page_init` puts on the free list. -/
def freeFrames (npages npagesBasemem extendedFree : ℕ) : Set ℕ :=
  { i | i < npages ∧ ¬ Reserved npagesBasemem extendedFree i }

/-- No environment has an address space. -/
def noDirs : EnvIx → Option ℕ := fun _ => none

namespace Pmap

/-- Memory just before `page_init`: the free list is empty, and `kern_pgdir`, itself in the
    reserved part, refers to no page that is about to be freed. -/
structure Early (s : Pmap) (npagesBasemem extendedFree : ℕ) : Prop where
  npages_le : s.npages ≤ 2 ^ 20
  no_list : s.pageFreeList = none
  kern_dir : s.kernPgdir ∉ freeFrames s.npages npagesBasemem extendedFree
  kern_user : ∀ i < pdxUtop, frameOf (s.mem s.kernPgdir i) = none
  kern_frame : ∀ i f, frameOf (s.mem s.kernPgdir i) = some f →
    f ∉ freeFrames s.npages npagesBasemem extendedFree

variable {s : Pmap} {b x : ℕ}

/-- The frames freed in the first `n` iterations, the last one first. -/
def freed (b x : ℕ) : ℕ → List ℕ
  | 0 => []
  | n + 1 => if Reserved b x n then freed b x n else n :: freed b x n

theorem mem_freed {n i : ℕ} : i ∈ freed b x n ↔ i < n ∧ ¬ Reserved b x i := by
  induction n with
  | zero => simp [freed]
  | succ n ih =>
    by_cases hn : Reserved b x n
    · rw [freed, if_pos hn, ih]
      constructor
      · rintro ⟨hi, hr⟩
        exact ⟨by omega, hr⟩
      · rintro ⟨hi, hr⟩
        have : i ≠ n := by
          rintro rfl
          exact hr hn
        exact ⟨by omega, hr⟩
    · rw [freed, if_neg hn, List.mem_cons, ih]
      constructor
      · rintro (rfl | ⟨hi, hr⟩)
        · exact ⟨by omega, hn⟩
        · exact ⟨by omega, hr⟩
      · rintro ⟨hi, hr⟩
        by_cases h : i = n
        · exact Or.inl h
        · exact Or.inr ⟨by omega, hr⟩

/-- The state of the loop of `page_init` after `n` iterations. -/
structure InitLoop (s : Pmap) (b x n : ℕ) (t : Pmap) : Prop where
  mem : t.mem = s.mem
  npages : t.npages = s.npages
  kern : t.kernPgdir = s.kernPgdir
  chain : Chain t.link t.pageFreeList (freed b x n)
  cleared : ∀ i < n, (t.pages i).ppRef = 0 ∧ (Reserved b x i → t.link i = none)

theorem initLoop_step {n : ℕ} {t : Pmap} (h : InitLoop s b x n t) :
    InitLoop s b x (n + 1) (t.pageInitStep b x n) := by
  have hlink : (t.setRef n 0).link = t.link := link_setRef _ _ _
  have hn : n ∉ freed b x n := fun hm => absurd (mem_freed.mp hm).1 (by omega)
  -- the new link of page `n` in either branch
  have hcleared : ∀ v i, i < n + 1 → (((t.setRef n 0).setLink n v).pages i).ppRef = 0 := by
    intro v i hi
    rw [ppRef_setLink]
    by_cases hin : i = n
    · subst hin
      exact ppRef_setRef_self _ _ _
    · rw [ppRef_setRef_of_ne _ hin]
      exact (h.cleared i (by omega)).1
  have hnone : ∀ v i, i < n + 1 → i ≠ n → Reserved b x i →
      ((t.setRef n 0).setLink n v).link i = none := by
    intro v i hi hin hr
    rw [link_setLink, Function.update_of_ne hin, hlink]
    exact (h.cleared i (by omega)).2 hr
  by_cases hr : Reserved b x n
  · have hstep : t.pageInitStep b x n = (t.setRef n 0).setLink n none := by
      exact if_pos hr
    rw [hstep]
    refine ⟨h.mem, h.npages, h.kern, ?_, fun i hi => ⟨hcleared none i hi, fun hri => ?_⟩⟩
    · rw [freed, if_pos hr, link_setLink, hlink]
      exact h.chain.update_of_notMem hn none
    · by_cases hin : i = n
      · subst hin
        rw [link_setLink, Function.update_self]
      · exact hnone none i hi hin hri
  · have hstep : t.pageInitStep b x n =
        { (t.setRef n 0).setLink n t.pageFreeList with pageFreeList := some n } := by
      exact if_neg hr
    rw [hstep]
    refine ⟨h.mem, h.npages, h.kern, ?_, fun i hi => ⟨hcleared _ i hi, fun hri => ?_⟩⟩
    · rw [freed, if_neg hr]
      show Chain ((t.setRef n 0).setLink n t.pageFreeList).link (some n) _
      rw [link_setLink, hlink]
      exact h.chain.push hn
    · have hin : i ≠ n := by
        rintro rfl
        exact hr hri
      exact hnone _ i hi hin hri

theorem ref_noDirs (s : Pmap) {y : Site} {p : ℕ} (h : ref noDirs s y = some p) :
    ∃ i, y = .kern i ∧ frameOf (s.mem s.kernPgdir i) = some p := by
  cases y with
  | dir e => simp [ref, noDirs] at h
  | table e i => simp [ref, pde, noDirs] at h
  | page e i t => simp [ref, pte, pde, noDirs] at h
  | kern i => exact ⟨i, rfl, h⟩

/-- **`page_init`.** It does not panic, and afterwards the ledger is sound: the free list is
    all that refers to a page. -/
theorem Early.pageInit (h : s.Early b x) :
    ∃ s', s.pageInit b x = some s' ∧ s'.mem = s.mem ∧ s'.kernPgdir = s.kernPgdir ∧
      Sound (freeFrames s.npages b x) noDirs s' (freed b x s.npages) := by
  obtain ⟨t, ht, I⟩ := forUpTo_rule
    (f := fun i t => some (t.pageInitStep b x i)) (n := s.npages) (s := s)
    (fun n t => InitLoop s b x n t)
    ⟨rfl, rfl, rfl, Chain.nil_iff.mpr h.no_list, fun i hi => absurd hi (by omega)⟩
    (fun n t _ I => ⟨_, rfl, initLoop_step I⟩)
  have hF : ∀ p, p ∈ freeFrames s.npages b x ↔ p ∈ freed b x s.npages := fun p => mem_freed.symm
  have hno : ∀ y p, ref noDirs t y = some p → p ∉ freeFrames s.npages b x := by
    intro y p hy
    obtain ⟨i, _, hi⟩ := ref_noDirs t hy
    rw [I.mem, I.kern] at hi
    exact h.kern_frame i p hi
  have hrefs : ∀ p ∈ freeFrames s.npages b x, refs noDirs t p = 0 := by
    intro p hp
    exact count_eq_zero_iff.mpr fun y hy => hno y p hy hp
  refine ⟨t, ?_, I.mem, I.kern, ?_⟩
  · rw [Pmap.pageInit, if_neg (by simp [h.no_list])]
    exact ht
  · refine ⟨I.npages ▸ h.npages_le, fun p hp => I.npages ▸ hp.1, I.chain, ?_, ?_, ?_, ?_, ?_,
      I.kern ▸ h.kern_dir, ?_⟩
    · intro p hp
      exact ⟨(hF p).mpr hp, hrefs p ((hF p).mpr hp), rfl⟩
    · intro p hp hpl
      exact absurd ((hF p).mp hp) hpl
    · intro p hp
      rw [hrefs p hp, (I.cleared p hp.1).1]
      rfl
    · intro y p hy hyk
      obtain ⟨i, rfl, _⟩ := ref_noDirs t hy
      exact absurd trivial hyk
    · intro y p hy hp _
      exact absurd hp (hno y p hy)
    · intro i hi
      rw [I.mem, I.kern]
      exact h.kern_user i hi

end Pmap

end LinuxStudy.Jos
