import Mathlib.Data.Option.Basic
import Mathlib.Order.Basic
import Mathlib.Order.Defs.Unbundled

/-!
# Procedures

A procedure changes a state and returns a value, or fails. A call that did not fail is taken
apart with `Proc.bind_eq_some`.

## Main definitions

- `Proc σ α` — procedures on the state `σ`
- `Proc.require p`, `Proc.when p x` — conditions
- `Proc.search n i body` — a counting loop that may return early
- `Proc.Within R x` — `R` relates the states before and after `x`
- `Proc.Yields I x a` — from `I`, the procedure `x` returns `a` and keeps `I`
-/

namespace LinuxStudy

variable {σ α β : Type}

abbrev Proc (σ α : Type) := StateT σ Option α

namespace Proc

variable {s s' t : σ} {a : α} {b : β} {x : Proc σ α} {f : α → Proc σ β}

/-- The procedure that fails. -/
def fail : Proc σ α := fun _ => none

@[simp] theorem fail_eq_some : ¬ (fail : Proc σ α) s = some (a, s') := nofun

/-- Go on only if the condition holds. -/
def require (p : Prop) [Decidable p] : Proc σ Unit := fun s => if p then some ((), s) else none

/-- A statement under a condition, without an alternative. -/
def when (p : Prop) [Decidable p] (x : Proc σ Unit) : Proc σ Unit :=
  fun s => if p then x s else some ((), s)

theorem bind_apply : (x >>= f) s = (x s).bind fun p => f p.1 p.2 := rfl

theorem bind_eq_some : (x >>= f) s = some (b, s') ↔ ∃ a t, x s = some (a, t) ∧
    f a t = some (b, s') := by
  rw [bind_apply, Option.bind_eq_some_iff]
  constructor
  · rintro ⟨⟨a, t⟩, hx, hf⟩
    exact ⟨a, t, hx, hf⟩
  · rintro ⟨a, t, hx, hf⟩
    exact ⟨(a, t), hx, hf⟩

theorem bind_of_eq (h : x s = some (a, t)) : (x >>= f) s = f a t := by
  rw [bind_apply, h]
  rfl

theorem pure_eq_some {a' : α} : (pure a : Proc σ α) s = some (a', s') ↔ a = a' ∧ s = s' := by
  show some (a, s) = some (a', s') ↔ _
  rw [Option.some.injEq, Prod.mk.injEq]

@[simp] theorem pure_apply : (pure a : Proc σ α) s = some (a, s) := rfl

theorem get_eq_some {u : σ} : (get : Proc σ σ) s = some (u, s') ↔ s = u ∧ s = s' := by
  show some (s, s) = some (u, s') ↔ _
  rw [Option.some.injEq, Prod.mk.injEq]

variable {u : Unit} {p : Prop} {body : ℕ → Proc σ (Option β)} {n i : ℕ}

theorem modify_eq_some {g : σ → σ} : (modify g : Proc σ Unit) s = some (u, s') ↔ g s = s' := by
  show some ((), g s) = some (u, s') ↔ _
  rw [Option.some.injEq, Prod.mk.injEq]
  exact and_iff_right rfl

theorem get_apply : (get : Proc σ σ) s = some (s, s) := rfl

theorem require_pos [Decidable p] (hp : p) : (require p : Proc σ Unit) s = some ((), s) :=
  if_pos hp

theorem require_eq_some [Decidable p] :
    (require p : Proc σ Unit) s = some (u, s') ↔ p ∧ s = s' := by
  rw [require]
  split
  · next hp => simp [hp]
  · next hp => simp [hp]

theorem when_pos [Decidable p] {x : Proc σ Unit} (hp : p) : when p x s = x s := if_pos hp

theorem when_neg [Decidable p] {x : Proc σ Unit} (hp : ¬ p) :
    when p x s = some ((), s) := if_neg hp

theorem when_eq_some [Decidable p] {x : Proc σ Unit} :
    when p x s = some (u, s') ↔ (p ∧ x s = some (u, s')) ∨ (¬ p ∧ s = s') := by
  by_cases hp : p
  · rw [when_pos hp]
    simp [hp]
  · rw [when_neg hp]
    simp [hp]

/-- `for (j = i; j < i + n; j++)`, left as soon as the body has a result. -/
def search (body : ℕ → Proc σ (Option β)) : ℕ → ℕ → Proc σ (Option β)
  | 0, _ => pure none
  | n + 1, i => do
    match ← body i with
    | some b => pure (some b)
    | none => search body n (i + 1)

/-- **Loop rule.** The invariant holds when the loop runs to its end, and a result comes from
    an iteration that starts with the invariant. -/
theorem search_rule (I : ℕ → σ → Prop) (Q : β → σ → Prop)
    {r : Option β}
    (hnext : ∀ j s s', j < i + n → I j s → body j s = some (none, s') → I (j + 1) s')
    (hdone : ∀ j s b s', j < i + n → I j s → body j s = some (some b, s') → Q b s')
    (h : search body n i s = some (r, s')) (h0 : I i s) :
    (r = none ∧ I (i + n) s') ∨ ∃ b, r = some b ∧ Q b s' := by
  induction n generalizing i s with
  | zero =>
    obtain ⟨rfl, rfl⟩ := pure_eq_some.mp h
    exact .inl ⟨rfl, h0⟩
  | succ n ih =>
    rw [search, bind_eq_some] at h
    obtain ⟨o, t, hbody, h⟩ := h
    cases o with
    | some b =>
      obtain ⟨rfl, rfl⟩ := pure_eq_some.mp h
      exact .inr ⟨b, rfl, hdone i s b t (by omega) h0 hbody⟩
    | none =>
      have hrest :=
        ih (fun j s s' hj => hnext j s s' (by omega))
          (fun j s b s' hj => hdone j s b s' (by omega)) h
        (hnext i s t (by omega) h0 hbody)
      rcases hrest with ⟨hr, hI⟩ | hres
      · rw [Nat.add_right_comm, Nat.add_assoc] at hI
        exact .inl ⟨hr, hI⟩
      · exact .inr hres

/-- The same for a body that does not fail: the loop does not fail. -/
theorem search_total (I : ℕ → σ → Prop) (Q : β → σ → Prop)
    (hbody : ∀ j s, I j s → (∃ s', body j s = some (none, s') ∧ I (j + 1) s') ∨
      ∃ b s', body j s = some (some b, s') ∧ Q b s') (h0 : I i s) :
    (∃ s', search body n i s = some (none, s') ∧ I (i + n) s') ∨
      ∃ b s', search body n i s = some (some b, s') ∧ Q b s' := by
  induction n generalizing i s with
  | zero => exact .inl ⟨s, rfl, h0⟩
  | succ n ih =>
    rcases hbody i s h0 with ⟨t, ht, hI⟩ | ⟨b, t, ht, hQ⟩
    · rw [search, bind_of_eq ht]
      rcases ih hI with ⟨s', hs', hI'⟩ | hres
      · rw [Nat.add_right_comm, Nat.add_assoc] at hI'
        exact .inl ⟨s', hs', hI'⟩
      · exact .inr hres
    · rw [search, bind_of_eq ht]
      exact .inr ⟨b, t, rfl, hQ⟩

/-- `R` relates the states before and after each call that does not fail. -/
def Within (R : σ → σ → Prop) (x : Proc σ α) : Prop := ∀ s a s', x s = some (a, s') → R s s'

section Within

variable {R : σ → σ → Prop}

theorem Within.pure [Std.Refl R] (a : α) : Within R (pure a) := by
  intro s a' s' h
  obtain ⟨_, rfl⟩ := pure_eq_some.mp h
  exact Std.Refl.refl s

theorem Within.get [Std.Refl R] : Within R (get : Proc σ σ) := by
  intro s a s' h
  obtain ⟨_, rfl⟩ := get_eq_some.mp h
  exact Std.Refl.refl s

theorem Within.bind [IsTrans σ R] (hx : Within R x) (hf : ∀ a, Within R (f a)) :
    Within R (x >>= f) := by
  intro s b s' h
  obtain ⟨a, t, h1, h2⟩ := bind_eq_some.mp h
  exact Trans.trans (hx s a t h1) (hf a t b s' h2)

theorem Within.when [Std.Refl R] {p : Prop} [Decidable p] {x : Proc σ Unit} (hx : Within R x) :
    Within R (when p x) := by
  intro s u s' h
  rcases when_eq_some.mp h with ⟨_, h⟩ | ⟨_, rfl⟩
  · exact hx s u s' h
  · exact Std.Refl.refl s

theorem Within.ite {p : Prop} [Decidable p] {x y : Proc σ α} (hx : Within R x) (hy : Within R y) :
    Within R (if p then x else y) := by
  split
  · exact hx
  · exact hy

end Within

/-- From a state that satisfies `I`, the procedure returns `a`, in such a state. -/
def Yields (I : σ → Prop) (x : Proc σ α) (a : α) :
    Prop := ∀ s, I s → ∃ s', x s = some (a, s') ∧ I s'

section Yields

variable {I : σ → Prop}

theorem Yields.pure (a : α) : Yields I (pure a) a := fun s hs => ⟨s, rfl, hs⟩

theorem Yields.require {p : Prop} [Decidable p] (hp : p) : Yields I (require p) () :=
  fun s hs => ⟨s, require_pos hp, hs⟩

theorem Yields.bind (hx : Yields I x a) (hf : Yields I (f a) b) : Yields I (x >>= f) b := by
  intro s hs
  obtain ⟨t, ht, hI⟩ := hx s hs
  obtain ⟨s', hs', hI'⟩ := hf t hI
  exact ⟨s', (bind_of_eq ht).trans hs', hI'⟩

/-- A loop whose iterations all only look: the first result, if there is one. -/
theorem Yields.search {body : ℕ → Proc σ (Option β)} {g : ℕ → Option β} {n i : ℕ}
    (h : ∀ j, i ≤ j → j < i + n → Yields I (body j) (g j)) :
    Yields I (search body n i) ((List.range' i n).findSome? g) := by
  induction n generalizing i with
  | zero => exact .pure none
  | succ n ih =>
    have hrest := ih (i := i + 1) fun j h1 h2 => h j (by omega) (by omega)
    refine (h i (Nat.le_refl i) (by omega)).bind ?_
    rw [List.range'_succ, List.findSome?_cons]
    cases g i with
    | none => exact hrest
    | some b => exact .pure (some b)

end Yields

end Proc

end LinuxStudy
