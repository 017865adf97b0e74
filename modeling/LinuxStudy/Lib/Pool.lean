import Mathlib.Data.Fintype.Card

/-!
# A pool of slots

An array of flags that says which slots are taken, and the list of those who have taken them.

## Main definitions

- `Pool.Holds use l` — the flags say that exactly the slots of `l` are taken
-/

namespace LinuxStudy.Pool

variable {α : Type*}

/-- The slots of `l`, each taken once, are those whose flag is set. -/
structure Holds (use : α → Bool) (l : List α) : Prop where
  nodup : l.Nodup
  mem_iff : ∀ i, use i = true ↔ i ∈ l

namespace Holds

variable {use : α → Bool} {l l' : List α} {i : α}

theorem empty : Holds (fun _ : α => false) [] := ⟨List.nodup_nil, by simp⟩

theorem perm (h : Holds use l) (hp : l.Perm l') : Holds use l' :=
  ⟨hp.nodup_iff.mp h.nodup, fun i => (h.mem_iff i).trans hp.mem_iff⟩

theorem card [Fintype α] (h : Holds use l) :
    (Finset.univ.filter fun i => use i = true).card = l.length := by
  classical
  have hset : (Finset.univ.filter fun i => use i = true) = l.toFinset := by
    ext i
    simp [h.mem_iff]
  rw [hset, List.toFinset_card_of_nodup h.nodup]

/-- When every flag is set, there are as many takers as slots. -/
theorem full [Fintype α] (h : Holds use l) (hall : ∀ i, use i = true) :
    l.length = Fintype.card α := by
  rw [← h.card, Finset.filter_true_of_mem fun i _ => hall i, Finset.card_univ]

variable [DecidableEq α]

theorem take (h : Holds use l) (hi : use i = false) :
    Holds (Function.update use i true) (i :: l) := by
  have hnot : i ∉ l := fun hmem => by
    rw [(h.mem_iff i).mpr hmem] at hi
    cases hi
  refine ⟨List.nodup_cons.mpr ⟨hnot, h.nodup⟩, fun j => ?_⟩
  rcases eq_or_ne j i with rfl | hj
  · simp
  · rw [Function.update_of_ne hj, h.mem_iff, List.mem_cons, or_iff_right hj]

theorem give (h : Holds use (i :: l)) : Holds (Function.update use i false) l := by
  obtain ⟨hnot, hnodup⟩ := List.nodup_cons.mp h.nodup
  refine ⟨hnodup, fun j => ?_⟩
  rcases eq_or_ne j i with rfl | hj
  · simpa using hnot
  · rw [Function.update_of_ne hj, h.mem_iff, List.mem_cons, or_iff_right hj]

end Holds

end LinuxStudy.Pool
