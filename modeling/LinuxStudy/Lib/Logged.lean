import Mathlib.Data.List.Basic
import Mathlib.Order.Basic

/-!
# Computations with a log

A computation that may fail and that keeps a log of its effects, the log of a failed
computation included. Whether all logged effects are permitted is then a question
about the log.

## Main definitions

- `Logged ε α` — a log of effects and a result, if there is one
- `Logged.Within P m` — all effects satisfy `P`
-/

namespace LinuxStudy

variable {ε α β : Type*}

/-- A log, and the result unless the computation failed. -/
def Logged (ε α : Type*) := List ε × Option α

namespace Logged

def pure (a : α) : Logged ε α := ([], some a)

/-- Log one effect; the computation fails if the effect has no result. -/
def effect (e : ε) (r : Option α) : Logged ε α := ([e], r)

def bind (m : Logged ε α) (f : α → Logged ε β) : Logged ε β :=
  match m.2 with
  | none => (m.1, none)
  | some a => (m.1 ++ (f a).1, (f a).2)

def map (f : α → β) (m : Logged ε α) : Logged ε β := m.bind fun a => pure (f a)

/-- Run a computation without effects. -/
def lift (r : Option α) : Logged ε α := ([], r)

/-- Every logged effect satisfies `P`. -/
def Within (P : ε → Prop) (m : Logged ε α) : Prop := ∀ e ∈ m.1, P e

variable {P : ε → Prop} {m : Logged ε α} {f : α → Logged ε β}

@[simp] theorem within_pure (P : ε → Prop) (a : α) : Within P (pure a : Logged ε α) := by
  simp [Within, pure]

@[simp] theorem within_effect {e : ε} {r : Option α} :
    Within P (effect e r : Logged ε α) ↔ P e := by
  simp [Within, effect]

/-- The continuation only matters at the result the first part has. -/
theorem within_bind :
    Within P (m.bind f) ↔ Within P m ∧ ∀ a, m.2 = some a → Within P (f a) := by
  obtain ⟨l, r⟩ := m
  cases r with
  | none => simp [Within, bind]
  | some a =>
    simp only [Within, bind, List.mem_append, Option.some.injEq, forall_eq']
    constructor
    · intro h
      exact ⟨fun e he => h e (Or.inl he), fun e he => h e (Or.inr he)⟩
    · rintro ⟨hl, hr⟩ e (he | he)
      · exact hl e he
      · exact hr e he

theorem bind_result {b : β} (h : (m.bind f).2 = some b) :
    ∃ a, m.2 = some a ∧ (f a).2 = some b := by
  obtain ⟨l, r⟩ := m
  cases r with
  | none => simp [bind] at h
  | some a => exact ⟨a, rfl, h⟩

theorem lift_some_bind {a : α} : (lift (some a) : Logged ε α).bind f = f a := rfl

theorem bind_of_result {a : α} (h : m.2 = some a) :
    (m.bind f).1 = m.1 ++ (f a).1 ∧ (m.bind f).2 = (f a).2 := by
  obtain ⟨l, r⟩ := m
  obtain rfl : r = some a := h
  exact ⟨rfl, rfl⟩

end Logged

end LinuxStudy
