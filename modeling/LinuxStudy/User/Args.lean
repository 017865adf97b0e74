import LinuxStudy.Jos.UserMem

/-!
# Option parsing

`lib/args.c`. A string is the list of its characters before the NUL, `curarg` is what is left of the
string it points into, and `none` is a null pointer; a call that follows one has no result.
-/

namespace LinuxStudy.User.Args

open Jos
open List (suffix_rfl suffix_cons)

/-- `struct Argstate`, with the array and the count it points to. -/
structure Argstate where
  argc : ℕ
  argv : ℕ → Option (List Byte)
  curarg : Option (List Byte)
  argvalue : Option (List Byte)

def argstart (argc : ℕ) (argv : ℕ → Option (List Byte)) : Argstate :=
  ⟨argc, argv, if 1 < argc then some [] else none, none⟩

namespace Argstate

/-- The `memmove` of `argc - 1` pointers, and `(*argc)--`. -/
def shift (s : Argstate) : Argstate :=
  { s with argv := fun i => if 1 ≤ i ∧ i < 1 + (s.argc - 1) then s.argv (i + 1) else s.argv i
           argc := s.argc - 1 }

def endofargs (s : Argstate) : ℤ × Argstate := (-1, { s with curarg := none })

/-- `arg = (unsigned char) *curarg; curarg++`. -/
def take (s : Argstate) (cur : List Byte) : ℤ × Argstate :=
  ((cur.headD 0).toNat, { s with curarg := some cur.tail })

def argnext (s : Argstate) : Option (ℤ × Argstate) :=
  let s := { s with argvalue := none }
  match s.curarg with
  | none => some (-1, s)
  | some (c :: cur) => some (s.take (c :: cur))
  | some [] =>
    if s.argc = 1 then some s.endofargs
    else (s.argv 1).bind fun arg =>
      if arg[0]? ≠ some 45 ∨ arg[1]? = none then some s.endofargs
      else
        let cur := arg.drop 1
        if cur[0]? = some 45 ∧
          cur[1]? = none then some s.shift.endofargs else some (s.shift.take cur)

def argnextvalue (s : Argstate) : Option (List Byte) × Argstate :=
  match s.curarg with
  | none => (none, s)
  | some (c :: cur) => (some (c :: cur), { s with argvalue := some (c :: cur), curarg := some [] })
  | some [] =>
    if 1 < s.argc then (s.argv 1, { s.shift with argvalue := s.argv 1 })
    else (none, { s with argvalue := none, curarg := none })

def argvalue_ (s : Argstate) : Option (List Byte) × Argstate :=
  match s.argvalue with
  | some v => (some v, s)
  | none => s.argnextvalue

/-- `argnext` until it returns -1: the results before, in at most so many calls. -/
def flags : ℕ → Argstate → Option (List ℤ × Argstate)
  | 0, _ => none
  | n + 1, s => s.argnext.bind fun r =>
    if r.1 = -1 then some ([], r.2) else (flags n r.2).map fun q => (r.1 :: q.1, q.2)

/-- These are the entries from `argv[1]` on, and a null pointer ends them. -/
def Holds (s : Argstate) (l : List (List Byte)) : Prop :=
  s.argc = l.length + 1 ∧ ∀ i ≤ l.length, s.argv (i + 1) = l[i]?

end Argstate

inductive Call
  | next
  | nextvalue
  | value

def Call.run (s : Argstate) : Call → Option Argstate
  | .next => s.argnext.map (·.2)
  | .nextvalue => some s.argnextvalue.2
  | .value => some s.argvalue_.2

/-! ## What the options are -/

/-- Starts with a dash, has two characters or more, and is not `"--"`. -/
def isOption (a : List Byte) : Bool := a[0]? = some 45 ∧ 2 ≤ a.length ∧ a ≠ [45, 45]

/-- The characters after the dashes. -/
def options (l : List (List Byte)) : List Byte := (l.takeWhile isOption).flatMap List.tail

/-- What is left of the arguments when the options and a `"--"` behind them are gone. -/
def operands (l : List (List Byte)) : List (List Byte) :=
  let r := l.dropWhile isOption
  if r.head? = some [45, 45] then r.tail else r

namespace Argstate

variable {s : Argstate} {a cur : List Byte} {l : List (List Byte)}

theorem Holds.shift (h : s.Holds (a :: l)) : s.shift.Holds l := by
  obtain ⟨hc, hv⟩ := h
  rw [List.length_cons] at hc hv
  refine ⟨by rw [Argstate.shift, hc, Nat.add_sub_cancel], fun i hi => ?_⟩
  rw [← List.getElem?_cons_succ, ← hv (i + 1) (by omega)]
  exact if_pos (by omega)

/-- A call takes arguments away from the front. As long as there is a `curarg`, it returns the next
    character of it or of the options that follow. -/
theorem argnext_spec (h : s.Holds l) : ∃ c t l', s.argnext = some (c, t) ∧ l' <:+ l ∧ t.Holds l' ∧
    ∀ cur, s.curarg = some cur → (c = -1 ∧ cur ++ options l = [] ∧ l' = operands l) ∨
      ∃ (b : Byte) (cur' : List Byte), c = b.toNat ∧ t.curarg = some cur' ∧
        cur ++ options l = b :: (cur' ++ options l') ∧ operands l' = operands l := by
  have hc := h.1
  rcases hcur : s.curarg with _ | _ | ⟨b, cur⟩ <;> simp only [argnext, hcur]
  · exact ⟨_, _, l, rfl, suffix_rfl, h, nofun⟩
  · simp only [Option.some.injEq, forall_eq', List.nil_append]
    cases l with
    | nil => exact ⟨_, _, [], if_pos hc, suffix_rfl, h, .inl ⟨rfl, rfl, rfl⟩⟩
    | cons a l =>
      rw [List.length_cons] at hc
      rw [if_neg (by omega), show s.argv 1 = some a from h.2 0 (Nat.zero_le _), Option.bind_some]
      by_cases hdash : a[0]? ≠ some 45 ∨ a[1]? = none
      · have hopt : isOption a = false ∧ a ≠ [45, 45] := by
          rcases a with _ | ⟨c, _ | ⟨b, cur⟩⟩ <;> simp [isOption] at hdash ⊢
          tauto
        refine ⟨_, _, a :: l, if_pos hdash, suffix_rfl, h, .inl ⟨rfl, ?_, ?_⟩⟩
        · simp [options, hopt.1]
        · rw [operands, List.dropWhile_cons_of_neg (by simp [hopt.1]),
            if_neg (by simpa using hopt.2)]
      obtain ⟨b, cur, rfl⟩ : ∃ b cur, a = 45 :: b :: cur := by
        rcases a with _ | ⟨c, _ | ⟨b, cur⟩⟩ <;> simp at hdash ⊢
        exact hdash
      by_cases hend : b = 45 ∧ cur = []
      · obtain ⟨rfl, rfl⟩ := hend
        exact ⟨_, _, l, rfl, suffix_cons .., h.shift, .inl ⟨rfl, rfl, rfl⟩⟩
      · have hopt : isOption (45 :: b :: cur) := decide_eq_true ⟨rfl, by simp, by simpa using hend⟩
        have hne : ¬((b :: cur)[0]? = some 45 ∧ (b :: cur)[1]? = none) := by simpa using hend
        refine ⟨_, _, l, if_neg hne, suffix_cons .., h.shift, .inr ⟨b, cur, rfl, rfl, ?_, ?_⟩⟩
        · rw [options, List.takeWhile_cons_of_pos hopt]
          rfl
        · rw [operands, operands, List.dropWhile_cons_of_pos hopt]
  · refine ⟨_, _, l, rfl, suffix_rfl, h, ?_⟩
    rintro _ ⟨⟩
    exact .inr ⟨b, cur, rfl, rfl, rfl, rfl⟩

/-- By the characters still to come. -/
theorem flags_spec {p : List Byte} (h : s.Holds l) (hcur : s.curarg = some cur)
    (hp : cur ++ options l = p) :
    ∃ n t, flags n s = some (p.map fun b => (b.toNat : ℤ), t) ∧ t.Holds (operands l) := by
  induction p generalizing s cur l with
  | nil =>
    obtain ⟨c, t, l', hnext, -, ht, hspec⟩ := argnext_spec h
    rcases hspec cur hcur with ⟨rfl, -, rfl⟩ | ⟨b, cur', -, -, hcons, -⟩
    · refine ⟨1, t, ?_, ht⟩
      rw [flags, hnext]
      rfl
    · rw [hp] at hcons
      cases hcons
  | cons c p ih =>
    obtain ⟨c, t, l', hnext, -, ht, hspec⟩ := argnext_spec h
    rcases hspec cur hcur with ⟨-, hnil, -⟩ | ⟨b, cur', rfl, hcur', hcons, hrest⟩
    · rw [hp] at hnil
      cases hnil
    · obtain ⟨rfl, hp'⟩ := List.cons.inj (hp.symm.trans hcons)
      obtain ⟨n, u, hflags, hu⟩ := ih ht hcur' hp'.symm
      refine ⟨n + 1, u, ?_, hrest ▸ hu⟩
      rw [flags, hnext, Option.bind_some, if_neg (by dsimp only; omega), hflags]
      rfl

theorem call_spec (h : s.Holds l) (c : Call) : ∃ t l', c.run s = some t ∧ l' <:+ l ∧
    t.Holds l' := by
  have hvalue : ∃ l', l' <:+ l ∧ s.argnextvalue.2.Holds l' := by
    rw [argnextvalue]
    split
    · exact ⟨l, suffix_rfl, h⟩
    · exact ⟨l, suffix_rfl, h⟩
    · split_ifs with hargc
      · cases l with
        | nil => exact absurd h.1 hargc.ne'
        | cons a l => exact ⟨l, suffix_cons .., h.shift⟩
      · exact ⟨l, suffix_rfl, h⟩
  obtain ⟨l', hsuf, hholds⟩ := hvalue
  cases c with
  | next =>
    obtain ⟨c, t, l', hnext, hsuf, ht, -⟩ := argnext_spec h
    exact ⟨t, l', by rw [Call.run, hnext]; rfl, hsuf, ht⟩
  | nextvalue => exact ⟨_, l', rfl, hsuf, hholds⟩
  | value =>
    rw [Call.run, argvalue_]
    split
    · exact ⟨s, l, rfl, suffix_rfl, h⟩
    · exact ⟨_, l', rfl, hsuf, hholds⟩

theorem calls_spec (h : s.Holds l) (calls : List Call) :
    ∃ t l', Run.exec (fun c s => Call.run s c) calls s = some t ∧ l' <:+ l ∧ t.Holds l' := by
  induction calls generalizing s l with
  | nil => exact ⟨s, l, rfl, suffix_rfl, h⟩
  | cons c calls ih =>
    obtain ⟨t, l1, ht, h1, hholds⟩ := call_spec h c
    obtain ⟨u, l2, hu, h2, hrest⟩ := ih hholds
    exact ⟨u, l2, by rw [Run.exec, ht]; exact hu, h2.trans h1, hrest⟩

end Argstate

/-- **Option parsing consumes exactly the flags**, and any calls leave a count and a null pointer
    that fit the arguments that remain. -/
theorem options_consumed (argv : ℕ → Option (List Byte)) (l : List (List Byte))
    (h : ∀ i ≤ l.length, argv (i + 1) = l[i]?) :
    (∃ n t, (argstart (l.length + 1) argv).flags n =
      some ((options l).map fun b => (b.toNat : ℤ), t) ∧ t.Holds (operands l)) ∧
    ∀ calls, ∃ t l',
    Run.exec (fun c s => Call.run s c) calls (argstart (l.length + 1) argv) = some t ∧
      l' <:+ l ∧ t.Holds l' ∧ t.argv t.argc = none := by
  have hholds : (argstart (l.length + 1) argv).Holds l := ⟨rfl, h⟩
  constructor
  · cases l with
    | nil => exact ⟨1, _, rfl, hholds⟩
    | cons a l =>
      have hcur : (argstart ((a :: l).length + 1) argv).curarg = some [] := by simp [argstart]
      exact Argstate.flags_spec hholds hcur rfl
  · intro calls
    obtain ⟨t, l', hrun, hsuf, ht⟩ := Argstate.calls_spec hholds calls
    refine ⟨t, l', hrun, hsuf, ht, ?_⟩
    rw [ht.1, ht.2 _ le_rfl, List.getElem?_eq_none le_rfl]

theorem options_consumed_sh :
    let l : List (List Byte) := [[45, 114, 120], [45, 102], [45, 45], [45, 114]]
    ∃ n t, (argstart 5 fun i => ([115] :: l)[i]?).flags n = some ([114, 120, 102], t) ∧
      t.Holds [[45, 114]] := by
  intro l
  have h := (options_consumed _ l fun _ _ => List.getElem?_cons_succ (a := [115])).1
  have hl : options l = [114, 120, 102] ∧ operands l = [[45, 114]] := by decide
  rwa [hl.1, hl.2] at h

end LinuxStudy.User.Args
