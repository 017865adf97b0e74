import Mathlib.Data.List.Basic
import Mathlib.Data.Nat.Basic

/-!
# Blocks in a row and their links

A list of blocks, each with an address,
  a size and pointers to its neighbours. Two things can be said
of such a list: that the blocks follow each other in memory without a gap, and that the pointers are
those of a doubly linked list.

## Main definitions

- `Tiles start size s l` — the blocks of `l` fill the addresses from `s` to `endOf size s l`
- `Linked addr prev next p l q` — the list is linked in both directions, between `p` and `q`
-/

namespace LinuxStudy.BlockList

variable {α ι : Type*}

section Tiles

variable {start size : α → ℕ} {s : ℕ} {l xs ys : List α} {a : α}

/-- The first address behind the blocks. -/
def endOf (size : α → ℕ) (s : ℕ) : List α → ℕ
  | [] => s
  | a :: l => endOf size (s + size a) l

/-- The blocks follow each other from `s` on; none is smaller than `least`. -/
def Tiles (start size : α → ℕ) (least : ℕ) (s : ℕ) : List α → Prop
  | [] => True
  | a :: l => start a = s ∧ least ≤ size a ∧ Tiles start size least (s + size a) l

theorem endOf_append : endOf size s (xs ++ ys) = endOf size (endOf size s xs) ys := by
  induction xs generalizing s with
  | nil => rfl
  | cons a xs ih => exact ih

variable {least : ℕ}

theorem tiles_append : Tiles start size least s (xs ++ ys) ↔
    Tiles start size least s xs ∧ Tiles start size least (endOf size s xs) ys := by
  induction xs generalizing s with
  | nil => simp [Tiles, endOf]
  | cons a xs ih => simp only [List.cons_append, Tiles, endOf, ih, and_assoc]

theorem le_endOf : s ≤ endOf size s l := by
  induction l generalizing s with
  | nil => exact Nat.le_refl _
  | cons a l ih => exact Nat.le_trans (Nat.le_add_right s (size a)) ih

section

variable (h : Tiles start size least s l)
include h

theorem Tiles.bounds (ha : a ∈ l) :
    s ≤ start a ∧ start a + size a ≤ endOf size s l ∧ least ≤ size a := by
  induction l generalizing s with
  | nil => cases ha
  | cons b l ih =>
    obtain ⟨hb, hleast, hl⟩ := h
    rcases List.mem_cons.mp ha with rfl | ha
    · exact ⟨Nat.le_of_eq hb.symm, hb ▸ le_endOf, hleast⟩
    · obtain ⟨hlo, hhi, hsize⟩ := ih hl ha
      exact ⟨by omega, hhi, hsize⟩

theorem Tiles.pairwise : l.Pairwise fun a b => start a + size a ≤ start b := by
  induction l generalizing s with
  | nil => exact .nil
  | cons b l ih =>
    obtain ⟨hb, _, hl⟩ := h
    exact .cons (fun a ha => hb ▸ (hl.bounds ha).1) (ih hl)

/-- Two blocks are the same or have no address in common. -/
theorem Tiles.apart {b : α} (ha : a ∈ l) (hb : b ∈ l) :
    a = b ∨ start a + size a ≤ start b ∨ start b + size b ≤ start a := by
  induction l generalizing s with
  | nil => cases ha
  | cons c l ih =>
    obtain ⟨hc, _, hl⟩ := h
    rcases List.mem_cons.mp ha with rfl | ha' <;> rcases List.mem_cons.mp hb with rfl | hb'
    · exact .inl rfl
    · exact .inr (.inl (hc ▸ (hl.bounds hb').1))
    · exact .inr (.inr (hc ▸ (hl.bounds ha').1))
    · exact ih hl ha' hb'

theorem Tiles.length_le : s + least * l.length ≤ endOf size s l := by
  induction l generalizing s with
  | nil => exact Nat.le_refl _
  | cons b l ih =>
    obtain ⟨_, hleast, hl⟩ := h
    have hrest := ih hl
    rw [List.length_cons, Nat.mul_add, endOf]
    omega

end

end Tiles

section Linked

variable {addr prev next : α → ι} {p q : ι} {xs ys : List α} {a : α}

/-- The address of the first block, or `q`. -/
def headOr (addr : α → ι) (q : ι) : List α → ι
  | [] => q
  | a :: _ => addr a

/-- The address of the last block, or `p`. -/
def lastOr (addr : α → ι) (p : ι) : List α → ι
  | [] => p
  | a :: l => lastOr addr (addr a) l

/-- Every block points to the one before it and to the one after it; `p` is before the first and `q`
    after the last. -/
def Linked (addr prev next : α → ι) (p : ι) : List α → ι → Prop
  | [], _ => True
  | a :: l, q => prev a = p ∧ next a = headOr addr q l ∧ Linked addr prev next (addr a) l q

@[simp] theorem headOr_append : headOr addr q (xs ++ ys) = headOr addr (headOr addr q ys) xs := by
  cases xs with
  | nil => rfl
  | cons a xs => rfl

@[simp] theorem lastOr_append : lastOr addr p (xs ++ ys) = lastOr addr (lastOr addr p xs) ys := by
  induction xs generalizing p with
  | nil => rfl
  | cons a xs ih => exact ih

theorem linked_append : Linked addr prev next p (xs ++ ys) q ↔
    Linked addr prev next p xs (headOr addr q ys) ∧
    Linked addr prev next (lastOr addr p xs) ys q := by
  induction xs generalizing p with
  | nil => simp [Linked, lastOr]
  | cons a xs ih => simp only [List.cons_append, Linked, lastOr, ih, headOr_append, and_assoc]

theorem linked_concat : Linked addr prev next p (xs ++ [a]) q ↔
    Linked addr prev next p xs (addr a) ∧ prev a = lastOr addr p xs ∧ next a = q := by
  simp [linked_append, Linked, headOr]

end Linked

end LinuxStudy.BlockList
