import Mathlib.Data.Fintype.Card
import Mathlib.Data.Fintype.Basic
import Mathlib.Data.Fintype.Sum

/-!
# Counting references

A finite set of *sites*, each of which may hold a reference to a target. The
count of a target is the number of sites that hold it. All a reference-counted
data structure does to the sites is to overwrite one of them at a time, and
`count_update` says what that does to every count at once.

## Main definitions

- `count f b` — the number of sites that hold `b`
-/

namespace LinuxStudy.RefCount

variable {α β : Type*} [Fintype α] [DecidableEq β]

/-- The number of sites holding a reference to `b`. -/
def count (f : α → Option β) (b : β) : ℕ :=
  (Finset.univ.filter fun x => f x = some b).card

variable {f : α → Option β} {x y : α} {b : β}

theorem count_le_card {s : Finset α} (h : ∀ x, f x = some b → x ∈ s) : count f b ≤ s.card :=
  Finset.card_le_card fun x hx => h x (Finset.mem_filter.mp hx).2

theorem count_pos_iff : 0 < count f b ↔ ∃ x, f x = some b := by
  simp [count, Finset.card_pos, Finset.filter_nonempty_iff]

theorem count_eq_zero_iff : count f b = 0 ↔ ∀ x, f x ≠ some b := by
  simp [count, Finset.filter_eq_empty_iff]

theorem count_pos (h : f x = some b) : 0 < count f b :=
  count_pos_iff.mpr ⟨x, h⟩

theorem count_le_count {g : α → Option β} (h : ∀ x, g x = some b → f x = some b) :
    count g b ≤ count f b :=
  Finset.card_le_card (Finset.monotone_filter_right _ fun x _ hx => h x hx)

theorem count_le_one (x : α) (h : ∀ y, f y = some b → y = x) : count f b ≤ 1 := by
  refine Finset.card_le_one.mpr fun y hy z hz => ?_
  rw [h y (Finset.mem_filter.mp hy).2, h z (Finset.mem_filter.mp hz).2]

/-- A target with at most one reference is held by at most one site. -/
theorem eq_of_count_le_one (h : count f b ≤ 1) (hx : f x = some b) (hy : f y = some b) :
    x = y := by
  apply Finset.card_le_one.mp h
  · simpa using hx
  · simpa using hy

theorem count_sum {γ : Type*} [Fintype γ] (f : α → Option β) (g : γ → Option β) (b : β) :
    count (Sum.elim f g) b = count f b + count g b := by
  have hsplit : (Finset.univ.filter fun x => Sum.elim f g x = some b) =
      (Finset.univ.filter fun x => f x = some b).disjSum
        (Finset.univ.filter fun x => g x = some b) := by
    ext x
    cases x with
    | inl a => simp
    | inr c => simp
  rw [count, hsplit, Finset.card_disjSum]
  rfl

theorem count_equiv {γ : Type*} [Fintype γ] (e : γ ≃ α) (f : α → Option β) (b : β) :
    count (fun x => f (e x)) b = count f b := by
  apply Finset.card_bij fun x _ => e x
  · simp
  · intro x _ y _ hxy
    exact e.injective hxy
  · intro y hy
    exact ⟨e.symm y, by simpa using hy, e.apply_symm_apply y⟩

variable [DecidableEq α]

omit [Fintype α] [DecidableEq β] in
/-- What a site holds after one of them is overwritten. -/
theorem update_cases {γ : Type*} {f : α → γ} {v c : γ} (h : Function.update f x v y = c) :
    y = x ∧ v = c ∨ y ≠ x ∧ f y = c := by
  rcases eq_or_ne y x with rfl | hne
  · exact .inl ⟨rfl, (Function.update_self ..).symm.trans h⟩
  · exact .inr ⟨hne, (Function.update_of_ne hne ..).symm.trans h⟩

/-- Overwriting one site drops the reference it held and adds the new one. -/
theorem count_update (f : α → Option β) (x : α) (v : Option β) (b : β) :
    count (Function.update f x v) b + (if f x = some b then 1 else 0) =
      count f b + (if v = some b then 1 else 0) := by
  -- away from `x` the two site maps hold the same references
  have hsplit : ∀ g : α → Option β, count g b =
      ((Finset.univ.erase x).filter fun y => g y = some b).card +
        (if g x = some b then 1 else 0) := by
    intro g
    have hu : (Finset.univ : Finset α) = insert x (Finset.univ.erase x) :=
      (Finset.insert_erase (Finset.mem_univ x)).symm
    rw [count, hu, Finset.filter_insert]
    split
    · simp
    · simp
  have hrest : ((Finset.univ.erase x).filter fun y => Function.update f x v y = some b) =
      (Finset.univ.erase x).filter fun y => f y = some b := by
    apply Finset.filter_congr
    intro y hy
    rw [Function.update_of_ne (Finset.ne_of_mem_erase hy)]
  rw [hsplit (Function.update f x v), hsplit f, hrest, Function.update_self]
  omega

theorem count_update_some (hx : f x = none) (b c : β) :
    count (Function.update f x (some c)) b = count f b + (if c = b then 1 else 0) := by
  have h := count_update f x (some c) b
  simpa [hx] using h

theorem count_update_none (f : α → Option β) (x : α) (b : β) :
    count (Function.update f x none) b + (if f x = some b then 1 else 0) = count f b := by
  simpa using count_update f x none b

end LinuxStudy.RefCount
