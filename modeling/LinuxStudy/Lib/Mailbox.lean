import LinuxStudy.Lib.Run

/-!
# A one-place mailbox

A party that waits, a message that ends the wait, and the party going on. A message is
accepted only while the party waits, and the party goes on only when it does not. Whatever
the order in which senders come, each wait that ends has been ended by one message, and that
message stays in the box until the next wait.

## Main definitions

- `Mailbox.State`, `Mailbox.Act` — idle, waiting or full; waiting, filling, going on
- `Mailbox.Step` — the transitions
-/

namespace LinuxStudy.Mailbox

open Run

variable {α : Type*}

inductive State (α : Type*)
  | idle
  | waiting
  | full (a : α)

inductive Act (α : Type*)
  | wait
  | fill (a : α)
  | resume
  deriving DecidableEq

inductive Step : State α → Act α → State α → Prop
  | wait (s : State α) : Step s .wait .waiting
  | fill (a : α) : Step .waiting (.fill a) (.full a)
  | resume {s : State α} (h : s ≠ .waiting) : Step s .resume s

variable {s s' : State α} {l l₁ l₂ l₃ : List (Act α)} {a : α}

theorem full_run (h : Run Step (.full a) l s') (hl : .wait ∉ l) :
    s' = .full a ∧ ∀ x ∈ l, x = .resume := by
  induction l with
  | nil => exact ⟨(nil_iff.mp h).symm, by simp⟩
  | cons x l ih =>
    obtain ⟨t, hs, h⟩ := cons_iff.mp h
    obtain ⟨hx, htail⟩ := not_or.mp (mt List.mem_cons.mpr hl)
    cases hs with
    | wait => exact absurd rfl hx
    | resume =>
      obtain ⟨rfl, hall⟩ := ih h htail
      exact ⟨rfl, by simpa using hall⟩

/-- Between a wait and going on there is exactly one message, and it comes first. -/
theorem filled_once (h : Run Step s (l₁ ++ .wait :: l₂ ++ .resume :: l₃) s')
    (hl : .wait ∉ l₂) : ∃ a r, l₂ = .fill a :: r ∧ ∀ x ∈ r, x = .resume := by
  obtain ⟨t, h, h3⟩ := append_iff.mp h
  obtain ⟨u, _, h⟩ := append_iff.mp h
  obtain ⟨v, hwait, h⟩ := cons_iff.mp h
  obtain ⟨w, hresume, _⟩ := cons_iff.mp h3
  cases hwait
  cases l₂ with
  | nil =>
    obtain rfl := nil_iff.mp h
    cases hresume with
    | resume hne => exact absurd rfl hne
  | cons x r =>
    obtain ⟨hx, hr⟩ := not_or.mp (mt List.mem_cons.mpr hl)
    obtain ⟨v, hs, h⟩ := cons_iff.mp h
    cases hs with
    | wait => exact absurd rfl hx
    | fill a => exact ⟨a, r, rfl, (full_run h hr).2⟩
    | resume hne => exact absurd rfl hne

theorem wait_last (h : Run Step s l .waiting) (hs : s ≠ .waiting) : ∃ l0, l = l0 ++ [.wait] := by
  cases h with
  | nil => exact absurd rfl hs
  | snoc h hstep =>
    cases hstep with
    | wait => exact ⟨_, rfl⟩
    | resume hne => exact absurd rfl hne

theorem fill_after_wait (h : Run Step s (l₁ ++ .fill a :: l₂) s') (hs : s ≠ .waiting) :
    ∃ l0, l₁ = l0 ++ [.wait] := by
  obtain ⟨t, h, h2⟩ := append_iff.mp h
  obtain ⟨u, hfill, _⟩ := cons_iff.mp h2
  cases hfill
  exact wait_last h hs

theorem kept (h : Run Step s (l₁ ++ .fill a :: l₂) s') (hl : .wait ∉ l₂) : s' = .full a := by
  obtain ⟨t, _, h⟩ := append_iff.mp h
  obtain ⟨u, hfill, h⟩ := cons_iff.mp h
  cases hfill
  exact (full_run h hl).1

end LinuxStudy.Mailbox
