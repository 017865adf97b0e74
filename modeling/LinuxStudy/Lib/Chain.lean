import Mathlib.Data.List.Nodup
import Mathlib.Logic.Function.Basic

/-!
# Intrusive singly linked lists

A list threaded through a `link` field: `link a` is the successor of node `a`,
`none` is the null pointer, and a list is given by its head pointer. The same
shape serves a page free list and an environment free list.

## Main definitions

- `Chain link h l` — following `link` from `h` visits exactly the nodes `l` and
  then reaches null
- `Reach link h a` — node `a` is visited when `link` is followed from `h`; this
  makes sense even when the list is cyclic
-/

namespace LinuxStudy

open Function (update update_of_ne update_self)

variable {α : Type*}

/-- Following `link` from the head pointer visits exactly the listed nodes. -/
def Chain (link : α → Option α) : Option α → List α → Prop
  | none, [] => True
  | some a, b :: l => a = b ∧ Chain link (link a) l
  | none, _ :: _ => False
  | some _, [] => False

namespace Chain

variable {link : α → Option α} {h : Option α} {a : α} {l l' : List α}

@[simp] theorem nil_iff : Chain link h [] ↔ h = none := by
  cases h <;> simp [Chain]

@[simp] theorem cons_iff : Chain link h (a :: l) ↔ h = some a ∧ Chain link (link a) l := by
  cases h with
  | none => simp [Chain]
  | some b =>
    simp only [Chain, Option.some.injEq]
    constructor
    · rintro ⟨rfl, hc⟩
      exact ⟨rfl, hc⟩
    · rintro ⟨rfl, hc⟩
      exact ⟨rfl, hc⟩

theorem unique (hl : Chain link h l) (hl' : Chain link h l') : l = l' := by
  induction l generalizing h l' with
  | nil =>
    rw [nil_iff] at hl
    subst hl
    cases l' with
    | nil => rfl
    | cons b l' => simp at hl'
  | cons a l ih =>
    rw [cons_iff] at hl
    obtain ⟨rfl, hl⟩ := hl
    cases l' with
    | nil => simp at hl'
    | cons b l' =>
      rw [cons_iff] at hl'
      obtain ⟨hab, hl'⟩ := hl'
      cases hab
      rw [ih hl hl']

/-- Each visited node heads the chain of what follows it. -/
theorem exists_suffix (hl : Chain link h l) (ha : a ∈ l) :
    ∃ r, Chain link (some a) (a :: r) ∧ (a :: r) <:+ l := by
  induction l generalizing h with
  | nil => simp at ha
  | cons b l ih =>
    obtain ⟨rfl, hrest⟩ := cons_iff.mp hl
    by_cases hab : a = b
    · subst hab
      exact ⟨l, hl, List.suffix_refl _⟩
    · obtain ⟨r, hr, hs⟩ := ih hrest (by simpa [hab] using ha)
      exact ⟨r, hr, hs.trans (List.suffix_cons b l)⟩

/-- A list that ends has no node twice: from the second visit on, the walk would
    have to repeat for ever. -/
theorem nodup (hl : Chain link h l) : l.Nodup := by
  induction l generalizing h with
  | nil => exact List.nodup_nil
  | cons a l ih =>
    obtain ⟨rfl, hrest⟩ := cons_iff.mp hl
    refine List.nodup_cons.mpr ⟨fun ha => ?_, ih hrest⟩
    obtain ⟨r, hr, hs⟩ := exists_suffix hrest ha
    have he : a :: r = a :: l := unique hr hl
    have hlen := hs.length_le
    rw [he, List.length_cons] at hlen
    omega

variable [DecidableEq α]

/-- Changing the link of a node off the list leaves the list alone. -/
theorem update_of_notMem (hl : Chain link h l) (ha : a ∉ l) (v : Option α) :
    Chain (update link a v) h l := by
  induction l generalizing h with
  | nil => simpa using hl
  | cons b l ih =>
    obtain ⟨rfl, hrest⟩ := cons_iff.mp hl
    rw [List.mem_cons, not_or] at ha
    refine cons_iff.mpr ⟨rfl, ?_⟩
    rw [update_of_ne (Ne.symm ha.1)]
    exact ih hrest ha.2

/-- Linking an outside node to the head puts it in front. -/
theorem push (hl : Chain link h l) (ha : a ∉ l) :
    Chain (update link a h) (some a) (a :: l) := by
  refine cons_iff.mpr ⟨rfl, ?_⟩
  rw [update_self]
  exact hl.update_of_notMem ha h

theorem pop (hl : Chain link h (a :: l)) :
    Chain (update link a none) (link a) l := by
  have hn := List.nodup_cons.mp hl.nodup
  exact (cons_iff.mp hl).2.update_of_notMem hn.1 none

end Chain

/-- Following `link` from the head pointer reaches the node. Unlike `Chain` this
    does not say that the walk ends. -/
inductive Reach (link : α → Option α) : Option α → α → Prop
  | here (a : α) : Reach link (some a) a
  | next {a b : α} : Reach link (link a) b → Reach link (some a) b

/-- On a list that ends, the reachable nodes are the visited ones. -/
theorem Chain.reach_iff {link : α → Option α} {h : Option α} {l : List α} {a : α}
    (hl : Chain link h l) : Reach link h a ↔ a ∈ l := by
  constructor
  · intro hr
    induction hr generalizing l with
    | here a =>
      cases l with
      | nil => simp at hl
      | cons b l =>
        obtain ⟨hab, _⟩ := cons_iff.mp hl
        cases hab
        exact List.mem_cons_self
    | @next a b _ ih =>
      cases l with
      | nil => simp at hl
      | cons c l =>
        obtain ⟨hac, hl⟩ := cons_iff.mp hl
        cases hac
        exact List.mem_cons_of_mem _ (ih hl)
  · intro ha
    induction l generalizing h with
    | nil => simp at ha
    | cons b l ih =>
      obtain ⟨rfl, hrest⟩ := cons_iff.mp hl
      rcases List.mem_cons.mp ha with rfl | ha
      · exact .here a
      · exact .next (ih hrest ha)

namespace Reach

variable [DecidableEq α] {link : α → Option α} {h : Option α} {a b : α}

theorem of_update_none (hr : Reach (update link a none) h b) : Reach link h b := by
  induction hr with
  | here c => exact .here c
  | @next c d hr ih =>
    by_cases hc : c = a
    · subst hc
      rw [update_self] at hr
      cases hr
    · rw [update_of_ne hc] at ih
      exact .next ih

theorem of_pop (hr : Reach (update link a none) (link a) b) :
    Reach link (some a) b :=
  .next hr.of_update_none

/-- After a node is pushed, only it and what was reachable before is reachable,
    even when it was on the list already. -/
theorem of_push (hr : Reach (update link a h) (some a) b) :
    b = a ∨ Reach link h b := by
  suffices hgen : ∀ {p : Option α}, Reach (update link a h) p b →
      (p = some a → b = a ∨ Reach link h b) ∧ (b = a ∨ Reach link h b ∨ Reach link p b) by
    exact (hgen hr).1 rfl
  clear hr
  intro p hp
  induction hp with
  | here c =>
    refine ⟨fun hc => .inl (Option.some.inj hc), .inr (.inr (.here c))⟩
  | @next c d _ ih =>
    by_cases hc : c = a
    · subst hc
      rw [update_self] at ih
      have hd : d = c ∨ Reach link h d := by
        rcases ih.2 with hd | hd | hd
        · exact .inl hd
        · exact .inr hd
        · exact .inr hd
      exact ⟨fun _ => hd, hd.imp id .inl⟩
    · rw [update_of_ne hc] at ih
      refine ⟨fun hca => absurd (Option.some.inj hca) hc, ?_⟩
      rcases ih.2 with hd | hd | hd
      · exact .inl hd
      · exact .inr (.inl hd)
      · exact .inr (.inr (.next hd))

end Reach

end LinuxStudy
