import Mathlib.Data.BitVec

/-!
# Byte memories

A memory is a function from addresses to bytes. Every store replaces the bytes of one range;
a word is four bytes, the lowest first.

## Main definitions

- `ByteMem.overwrite m a n g` — the bytes `g` in the range of length `n` from `a`
- `ByteMem.word`, `ByteMem.putWord`, `ByteMem.putWords` — little-endian words
-/

namespace LinuxStudy

/-- Bytes by address. -/
abbrev ByteMem := ℕ → BitVec 8

namespace ByteMem

variable {m m' : ByteMem} {a b n x : ℕ} {g : ℕ → BitVec 8} {w : BitVec 32}

/-- The bytes `g` at the addresses from `a` up to `a + n`. -/
def overwrite (m : ByteMem) (a n : ℕ) (g : ℕ → BitVec 8) : ByteMem :=
  fun x => if a ≤ x ∧ x < a + n then g x else m x

/-- The word at an address. -/
def word (m : ByteMem) (a : ℕ) : BitVec 32 := m (a + 3) ++ m (a + 2) ++ m (a + 1) ++ m a

/-- Byte `x - a` of a word, for the addresses from `a` on. -/
def wordByte (w : BitVec 32) (a : ℕ) : ℕ → BitVec 8 := fun x => w.extractLsb' (8 * (x - a)) 8

def putWord (m : ByteMem) (a : ℕ) (w : BitVec 32) : ByteMem := m.overwrite a 4 (wordByte w a)

theorem overwrite_in (h : a ≤ x) (h' : x < a + n) : m.overwrite a n g x = g x :=
  if_pos ⟨h, h'⟩

theorem overwrite_out (h : x < a ∨ a + n ≤ x) : m.overwrite a n g x = m x :=
  if_neg (by omega)

theorem word_congr (h : ∀ x, a ≤ x → x < a + 4 → m x = m' x) : m.word a = m'.word a := by
  rw [word, word, h a (by omega) (by omega), h (a + 1) (by omega) (by omega),
    h (a + 2) (by omega) (by omega), h (a + 3) (by omega) (by omega)]

theorem word_congr_shift (h : ∀ o < 4, m (a + o) = m' (b + o)) : m.word a = m'.word b := by
  have h0 : m a = m' b := h 0 (by omega)
  rw [word, word, h0, h 1 (by omega), h 2 (by omega), h 3 (by omega)]

theorem byte_of_word (h : m.word a = m'.word a) (hx : a ≤ x) (hx' : x < a + 4) : m x = m' x := by
  have hbyte : ∀ (m : ByteMem), ∀ i < 4, (m.word a).extractLsb' (8 * i) 8 = m (a + i) := by
    intro m i hi
    have hcases : i = 0 ∨ i = 1 ∨ i = 2 ∨ i = 3 := by omega
    rw [word]
    rcases hcases with rfl | rfl | rfl | rfl <;>
      (ext j hj; grind)
  obtain ⟨i, rfl⟩ : ∃ i, x = a + i := ⟨x - a, by omega⟩
  rw [← hbyte m i (by omega), ← hbyte m' i (by omega), h]

theorem word_overwrite (h : b + 4 ≤ a ∨ a + n ≤ b) : (m.overwrite a n g).word b = m.word b :=
  word_congr fun _ _ _ => overwrite_out (by omega)

theorem word_putWord (h : b + 4 ≤ a ∨ a + 4 ≤ b) : (m.putWord a w).word b = m.word b :=
  word_overwrite h

@[simp] theorem word_putWord_self : (m.putWord a w).word a = w := by
  have hbyte : ∀ i < 4, m.putWord a w (a + i) = w.extractLsb' (8 * i) 8 := by
    intro i hi
    rw [putWord, overwrite_in (by omega) (by omega), wordByte, Nat.add_sub_cancel_left]
  rw [word, hbyte 3 (by omega), hbyte 2 (by omega), hbyte 1 (by omega)]
  rw [show m.putWord a w a = w.extractLsb' (8 * 0) 8 from hbyte 0 (by omega)]
  rw [BitVec.extractLsb'_append_extractLsb'_eq_extractLsb' (by omega),
    BitVec.extractLsb'_append_extractLsb'_eq_extractLsb' (by omega),
    BitVec.extractLsb'_append_extractLsb'_eq_extractLsb' (by omega)]
  simp

theorem putWord_eq_update :
    m.putWord a w = Function.update (Function.update (Function.update (Function.update m
    a (w.extractLsb' 0 8)) (a + 1) (w.extractLsb' 8 8)) (a + 2) (w.extractLsb' 16 8)) (a + 3)
    (w.extractLsb' 24 8) := by
  funext x
  simp only [putWord, overwrite, wordByte, Function.update_apply]
  by_cases hx : a ≤ x ∧ x < a + 4
  · obtain ⟨i, hi, rfl⟩ : ∃ i < 4, x = a + i := ⟨x - a, by omega, by omega⟩
    obtain rfl | rfl | rfl | rfl : i = 0 ∨ i = 1 ∨ i = 2 ∨ i = 3 := by omega
    all_goals simp
  · rw [if_neg hx, if_neg (by omega), if_neg (by omega), if_neg (by omega), if_neg (by omega)]

/-- Words one after the other. -/
def putWords (m : ByteMem) (a : ℕ) : List (BitVec 32) → ByteMem
  | [] => m
  | w :: ws => putWords (m.putWord a w) (a + 4) ws

theorem putWords_out {ws : List (BitVec 32)} (h : x < a ∨ a + 4 * ws.length ≤ x) :
    m.putWords a ws x = m x := by
  induction ws generalizing m a with
  | nil => rfl
  | cons w ws ih =>
    rw [List.length_cons] at h
    rw [putWords, ih (by omega), putWord, overwrite_out (by omega)]

theorem word_putWords {ws : List (BitVec 32)} {i : ℕ} (h : ws[i]? = some w) :
    (m.putWords a ws).word (a + 4 * i) = w := by
  induction ws generalizing m a i with
  | nil => cases h
  | cons w' ws ih =>
    rw [putWords]
    cases i with
    | zero =>
      rw [List.getElem?_cons_zero, Option.some.injEq] at h
      rw [h, Nat.mul_zero, Nat.add_zero]
      refine (word_congr fun x h1 h2 => putWords_out (by omega)).trans word_putWord_self
    | succ i =>
      rw [List.getElem?_cons_succ] at h
      have hrest := ih (m := m.putWord a w') (a := a + 4) h
      rwa [show a + 4 + 4 * i = a + 4 * (i + 1) by omega] at hrest

end ByteMem

end LinuxStudy
