import LinuxStudy.Lib.Proc

/-!
# Procedures with an error return

A procedure that returns a value or an error, in both cases with the state it leaves behind.

## Main definitions

- `Attempt ε σ α` — procedures on the state `σ` with errors `ε`
- `Attempt.onError x g` — `g` cleans up after an error of `x`
- `Attempt.orPanic x` — an error of `x` ends the program
- `Attempt.loop body n i` — a counting loop that an error leaves
- `Attempt.Fails P x` — every error of `x` satisfies `P`
- `Attempt.Preserves I x` — `I` holds after `x`, with an error or without, if it did before
-/

namespace LinuxStudy

variable {ε σ α β : Type}

abbrev Attempt (ε σ α : Type) := ExceptT ε (Proc σ) α

namespace Attempt

variable {s s' : σ} {x : Attempt ε σ α} {f : α → Attempt ε σ β}

def onError (x : Attempt ε σ α) (g : σ → σ) : Attempt ε σ α := fun s =>
  match x s with
  | some (.error e, t) => some (.error e, g t)
  | r => r

def orPanic (x : Attempt ε σ α) : Attempt ε σ α := fun s =>
  match x s with
  | some (.error _, _) => none
  | r => r

/-- `for (j = i; j < i + n; j++)`. -/
def loop (body : ℕ → Attempt ε σ Unit) : ℕ → ℕ → Attempt ε σ Unit
  | 0, _ => pure ()
  | n + 1, i => do
    body i
    loop body n (i + 1)

@[simp] theorem pure_apply (a : α) : (pure a : Attempt ε σ α) s = some (.ok a, s) := rfl

variable {a : α} {r : Except ε α} {g : σ → σ}

theorem bind_of_ok (h : x s = some (.ok a, s')) : (x >>= f) s = f a s' := by
  show (x s).bind _ = _
  rw [h]
  rfl

theorem bind_of_error {e : ε} (h : x s = some (.error e, s')) :
    (x >>= f) s = some (.error e, s') := by
  show (x s).bind _ = _
  rw [h]
  rfl

theorem bind_of_none (h : x s = none) : (x >>= f) s = none := by
  show (x s).bind _ = _
  rw [h]
  rfl

/-- A sequence that returns: the second part returns after the first, or the first has an error. -/
theorem bind_eq_some {r : Except ε β} (h : (x >>= f) s = some (r, s')) :
    (∃ a t, x s = some (.ok a, t) ∧ f a t = some (r, s')) ∨ ∃ e, x s = some (.error e, s') ∧
    r = .error e := by
  cases hx : x s with
  | none =>
    rw [bind_of_none hx] at h
    cases h
  | some p =>
    obtain ⟨e | a, t⟩ := p
    · rw [bind_of_error hx] at h
      cases h
      exact .inr ⟨e, rfl, rfl⟩
    · rw [bind_of_ok hx] at h
      exact .inl ⟨a, t, rfl, h⟩

theorem bind_eq_ok {b : β} (h : (x >>= f) s = some (.ok b, s')) :
    ∃ a t, x s = some (.ok a, t) ∧ f a t = some (.ok b, s') := by
  rcases bind_eq_some h with h | ⟨e, _, h⟩
  · exact h
  · cases h

theorem onError_eq_some (h : onError x g s = some (r, s')) :
    (∃ a, r = .ok a ∧ x s = some (.ok a, s')) ∨ ∃ e t, r = .error e ∧ x s = some (.error e, t) ∧
    g t = s' := by
  rw [onError] at h
  rcases hx : x s with _ | ⟨e | a, t⟩ <;> rw [hx] at h <;> cases h
  · exact .inr ⟨e, t, rfl, rfl, rfl⟩
  · exact .inl ⟨a, rfl, rfl⟩

theorem orPanic_eq_some (h : orPanic x s = some (r, s')) :
    ∃ a, r = .ok a ∧ x s = some (.ok a, s') := by
  rw [orPanic] at h
  rcases hx : x s with _ | ⟨e | a, t⟩ <;> rw [hx] at h <;> cases h
  exact ⟨a, rfl, rfl⟩

/-- Every error satisfies `P`. -/
def Fails (P : ε → Prop) (x : Attempt ε σ α) : Prop := ∀ s e s', x s = some (.error e, s') → P e

section Fails

variable {P : ε → Prop}

theorem Fails.mono {Q : ε → Prop} (hx : Fails Q x) (hQ : ∀ e, Q e → P e) : Fails P x :=
  fun s e s' h => hQ e (hx s e s' h)

theorem Fails.pure (a : α) : Fails P (pure a : Attempt ε σ α) := nofun

theorem Fails.bind (hx : Fails P x) (hf : ∀ a, Fails P (f a)) : Fails P (x >>= f) := by
  intro s e s' h
  rcases bind_eq_some h with ⟨a, t, _, h⟩ | ⟨e', h, he⟩
  · exact hf a t e s' h
  · cases he
    exact hx s e s' h

theorem Fails.onError {g : σ → σ} (hx : Fails P x) : Fails P (onError x g) := by
  intro s e s' h
  rcases onError_eq_some h with ⟨_, h, _⟩ | ⟨e', t, he, h, _⟩
  · cases h
  · cases he
    exact hx s e t h

theorem Fails.orPanic : Fails P (orPanic x) := by
  intro s e s' h
  obtain ⟨_, h, _⟩ := orPanic_eq_some h
  cases h

theorem Fails.loop {body : ℕ → Attempt ε σ Unit} (hbody : ∀ i, Fails P (body i)) (n i : ℕ) :
    Fails P (loop body n i) := by
  induction n generalizing i with
  | zero => exact .pure ()
  | succ n ih => exact .bind (hbody i) fun _ => ih (i + 1)

end Fails

def Preserves (I : σ → Prop) (x : Attempt ε σ α) : Prop := ∀ s r s', x s = some (r, s') → I s → I s'

section Preserves

variable {I : σ → Prop}

theorem Preserves.pure (a : α) : Preserves I (pure a : Attempt ε σ α) := by
  intro s r s' h hI
  cases h
  exact hI

theorem Preserves.bind (hx : Preserves I x) (hf : ∀ a, Preserves I (f a)) :
    Preserves I (x >>= f) := by
  intro s r s' h hI
  rcases bind_eq_some h with ⟨a, t, h1, h2⟩ | ⟨e, h1, _⟩
  · exact hf a t r s' h2 (hx s _ t h1 hI)
  · exact hx s _ s' h1 hI

theorem Preserves.onError {g : σ → σ} (hx : Preserves I x) (hg : ∀ s, I s → I (g s)) :
    Preserves I (onError x g) := by
  intro s r s' h hI
  rcases onError_eq_some h with ⟨a, _, hrun⟩ | ⟨e, t, _, hrun, rfl⟩
  · exact hx s _ s' hrun hI
  · exact hg t (hx s _ t hrun hI)

end Preserves

end Attempt

end LinuxStudy
