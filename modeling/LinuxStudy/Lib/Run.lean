import Mathlib.Data.List.Basic
import Mathlib.Data.List.Induction
import Mathlib.Order.Basic

/-!
# Loops and runs

Counting loops whose body may fail, and runs of a labelled transition system.

## Main definitions

- `forUpTo n f s` — `for (i = 0; i < n; i++)` with a body that may fail
- `Run R s l s'` — the labels `l`, in this order, lead from `s` to `s'`
- `exec step l s` — the run of a step function, computed
- `Throughout P l` — each label, with those before it, satisfies `P`
-/

namespace LinuxStudy

variable {σ ι : Type*}

/-- `for (i = 0; i < n; i++) s = f(i, s)`, where `none` is a failed body. -/
def forUpTo (f : ℕ → σ → Option σ) : ℕ → σ → Option σ
  | 0, s => some s
  | n + 1, s => (forUpTo f n s).bind (f n)

variable {f : ℕ → σ → Option σ} {n : ℕ} {s t : σ}

/-- Loop rule: an invariant indexed by the counter, whose body does not fail. -/
theorem forUpTo_rule (P : ℕ → σ → Prop) (h0 : P 0 s)
    (hstep : ∀ i t, i < n → P i t → ∃ t', f i t = some t' ∧ P (i + 1) t') :
    ∃ t, forUpTo f n s = some t ∧ P n t := by
  induction n with
  | zero => exact ⟨s, rfl, h0⟩
  | succ n ih =>
    obtain ⟨t, ht, hP⟩ := ih fun i t hi => hstep i t (by omega)
    obtain ⟨t', ht', hP'⟩ := hstep n t (by omega) hP
    exact ⟨t', by rw [forUpTo, ht, Option.bind_some, ht'], hP'⟩

/-- Loop rule for a body that may fail: what it preserves when it succeeds holds
    after a loop that succeeds. -/
theorem forUpTo_preserves (P : σ → Prop) (h0 : P s)
    (hstep : ∀ i u u', f i u = some u' → P u → P u') (h : forUpTo f n s = some t) : P t := by
  induction n generalizing t with
  | zero =>
    cases h
    exact h0
  | succ n ih =>
    rw [forUpTo, Option.bind_eq_some_iff] at h
    obtain ⟨u, hu, ht⟩ := h
    exact hstep n u t ht (ih hu)

/-- Loop rule for a body that may fail, with an invariant indexed by the counter. -/
theorem forUpTo_counts (P : ℕ → σ → Prop) (h0 : P 0 s)
    (hstep : ∀ i u u', i < n → f i u = some u' → P i u → P (i + 1) u')
    (h : forUpTo f n s = some t) : P n t := by
  induction n generalizing t with
  | zero =>
    cases h
    exact h0
  | succ n ih =>
    rw [forUpTo, Option.bind_eq_some_iff] at h
    obtain ⟨u, hu, ht⟩ := h
    exact hstep n u t (by omega) ht (ih (fun i u u' hi => hstep i u u' (by omega)) hu)

/-- The labels lead from the first state to the last, one step each. -/
inductive Run (R : σ → ι → σ → Prop) : σ → List ι → σ → Prop
  | nil (s : σ) : Run R s [] s
  | snoc {s t u : σ} {l : List ι} {i : ι} : Run R s l t → R t i u → Run R s (l ++ [i]) u

namespace Run

variable {R : σ → ι → σ → Prop} {s t u : σ} {l l' : List ι}

/-- **Invariant rule.** What holds at the start and survives every step holds at
    the end of every run. -/
theorem invariant (P : σ → Prop) (h : Run R s l t) (h0 : P s)
    (hstep : ∀ a i b, P a → R a i b → P b) : P t := by
  induction h with
  | nil => exact h0
  | snoc _ hs ih => exact hstep _ _ _ ih hs

/-- Runs over a smaller step relation are runs over the larger one. -/
theorem mono {R' : σ → ι → σ → Prop} (h : Run R s l t) (hsub : ∀ a i b, R a i b → R' a i b) :
    Run R' s l t := by
  induction h with
  | nil => exact .nil _
  | snoc _ hs ih => exact .snoc ih (hsub _ _ _ hs)

theorem append (h : Run R s l t) (h' : Run R t l' u) : Run R s (l ++ l') u := by
  induction h' with
  | nil => simpa using h
  | snoc _ hs ih =>
    rw [← List.append_assoc]
    exact .snoc ih hs

theorem single {i : ι} (h : R s i t) : Run R s [i] t := .snoc (.nil s) h

theorem nil_iff : Run R s [] t ↔ s = t := by
  constructor
  · intro h
    generalize hl : ([] : List ι) = l at h
    cases h with
    | nil => rfl
    | snoc => simp at hl
  · rintro rfl
    exact .nil s

theorem snoc_iff {i : ι} : Run R s (l ++ [i]) u ↔ ∃ t, Run R s l t ∧ R t i u := by
  constructor
  · intro h
    generalize hl : l ++ [i] = l1 at h
    cases h with
    | nil => simp at hl
    | snoc h hs =>
      obtain ⟨rfl, hi⟩ := List.append_inj' hl rfl
      obtain rfl := List.head_eq_of_cons_eq hi
      exact ⟨_, h, hs⟩
  · rintro ⟨t, h, hs⟩
    exact .snoc h hs

theorem append_iff : Run R s (l ++ l') u ↔ ∃ t, Run R s l t ∧ Run R t l' u := by
  constructor
  · intro h
    induction l' using List.reverseRecOn generalizing u with
    | nil => exact ⟨u, by simpa using h, .nil u⟩
    | append_singleton l' i ih =>
      rw [← List.append_assoc, snoc_iff] at h
      obtain ⟨v, h, hs⟩ := h
      obtain ⟨t, h, h'⟩ := ih h
      exact ⟨t, h, .snoc h' hs⟩
  · rintro ⟨t, h, h'⟩
    exact h.append h'

theorem cons_iff {i : ι} : Run R s (i :: l) u ↔ ∃ t, R s i t ∧ Run R t l u := by
  rw [← List.singleton_append, append_iff]
  constructor
  · rintro ⟨t, h, h'⟩
    obtain ⟨v, hv, hs⟩ := snoc_iff.mp (show Run R s ([] ++ [i]) t from h)
    obtain rfl := nil_iff.mp hv
    exact ⟨t, hs, h'⟩
  · rintro ⟨t, hs, h'⟩
    exact ⟨t, single hs, h'⟩

/-- **Forward simulation.** If every step from related states is matched by a run of the
    other system, so is every run. -/
theorem simulate {τ κ : Type*} {Q : τ → κ → τ → Prop} (rel : σ → τ → Prop) (f : ι → List κ)
    (hstep : ∀ a i b x, rel a x → R a i b → ∃ y, Run Q x (f i) y ∧ rel b y) (h : Run R s l t)
    {x : τ} (h0 : rel s x) : ∃ y, Run Q x (l.flatMap f) y ∧ rel t y := by
  induction h with
  | nil => exact ⟨x, .nil x, h0⟩
  | snoc _ hs ih =>
    obtain ⟨y, hy, hrel⟩ := ih
    obtain ⟨z, hz, hrel'⟩ := hstep _ _ _ y hrel hs
    refine ⟨z, ?_, hrel'⟩
    rw [List.flatMap_append, List.flatMap_singleton]
    exact hy.append hz

/-- The labels one after the other. -/
def exec (step : ι → σ → Option σ) : List ι → σ → Option σ
  | [], s => some s
  | i :: l, s => (step i s).bind (exec step l)

theorem of_exec {step : ι → σ → Option σ} (h : exec step l s = some t) :
    Run (fun a i b => step i a = some b) s l t := by
  induction l generalizing s with
  | nil =>
    obtain rfl := Option.some.inj h
    exact .nil s
  | cons i l ih =>
    obtain ⟨u, hstep, hrest⟩ := Option.bind_eq_some_iff.mp h
    exact cons_iff.mpr ⟨u, hstep, ih hrest⟩

end Run

/-- Each label of a run, with the labels before it, satisfies `P`. -/
def Throughout (P : List ι → ι → Prop) (l : List ι) : Prop :=
  ∀ i (h : i < l.length), P (l.take i) l[i]

namespace Throughout

variable {P : List ι → ι → Prop} {l : List ι} {a : ι}

instance [∀ l a, Decidable (P l a)] : Decidable (Throughout P l) :=
  inferInstanceAs (Decidable (∀ i (_ : i < l.length), _))

theorem and {Q : List ι → ι → Prop} (h : Throughout P l) (h' : Throughout Q l) :
    Throughout (fun l a => P l a ∧ Q l a) l :=
  fun i hi => ⟨h i hi, h' i hi⟩

theorem snoc_iff : Throughout P (l ++ [a]) ↔ Throughout P l ∧ P l a := by
  constructor
  · intro h
    refine ⟨fun i hi => ?_, ?_⟩
    · have := h i (by simp; omega)
      rwa [List.take_append_of_le_length (Nat.le_of_lt hi), List.getElem_append_left hi] at this
    · have := h l.length (by simp)
      rwa [List.take_left' rfl, List.getElem_concat_length rfl] at this
  · rintro ⟨h, ha⟩ i hi
    rw [List.length_append, List.length_singleton] at hi
    rcases Nat.lt_succ_iff_lt_or_eq.mp hi with hi | rfl
    · rw [List.take_append_of_le_length (Nat.le_of_lt hi), List.getElem_append_left hi]
      exact h i hi
    · rwa [List.take_left' rfl, List.getElem_concat_length rfl]

end Throughout

/-- **Invariant rule with a history.** What holds at the start and survives every step that
    satisfies `P` holds at the end of a run that satisfies `P` throughout. -/
theorem Run.invariant_throughout {R : σ → ι → σ → Prop} {l : List ι}
    {P : List ι → ι → Prop} (I : List ι → σ → Prop) (h : Run R s l t) (hP : Throughout P l)
    (h0 : I [] s) (hstep : ∀ l a i b, I l a → R a i b → P l i → I (l ++ [i]) b) : I l t := by
  induction h with
  | nil => exact h0
  | snoc _ hs ih =>
    obtain ⟨hl, hi⟩ := Throughout.snoc_iff.mp hP
    exact hstep _ _ _ _ (ih hl) hs hi

end LinuxStudy
