import LinuxStudy.Jos.UserMem
import LinuxStudy.Lib.Bytes

/-!
# readline

`lib/readline.c`: the loop that edits a line in `buf`, against the line that the characters
typed so far leave. A delete on an empty line is stored in front of the line,
  and the two differ until it is
erased.
-/

namespace LinuxStudy.User.Readline

open Jos

def buflen : ℕ := 1024

def eEof : ℤ := 8

/-- What a call prints. -/
inductive Output
  | prompt (s : List Byte)
  | readError (c : ℤ)
  | char (c : ℤ)
  deriving DecidableEq

/-- `buf` and `i`, with the output so far. -/
structure Line where
  buf : ByteMem
  i : ℕ
  out : List Output

inductive Status
  | reading
  | null
  | line
  deriving DecidableEq

namespace Line

def print (o : Output) (s : Line) : Line := { s with out := s.out ++ [o] }

def cputchar (echoing : Bool) (c : ℤ) (s : Line) : Line := if echoing then s.print (.char c) else s

/-- `buf[i] = c`, unless that is outside of the array. -/
def put (c : ℤ) (s : Line) : Option Line :=
  if s.i < buflen then some { s with buf := Function.update s.buf s.i (BitVec.ofInt 8 c) } else none

/-- The characters before `buf[i]`. -/
def kept (s : Line) : List Byte := (List.range s.i).map s.buf

/-- One turn of the loop, `c` from `getchar`. -/
def turn (echoing : Bool) (c : ℤ) (s : Line) : Option (Status × Line) :=
  if c < 0 then some (.null, if c ≠ -eEof then s.print (.readError c) else s)
  else if (c = 8 ∨ c = 127) ∧ 0 < s.i then
    some (.reading, { s.cputchar echoing 8 with i := s.i - 1 })
  else if 32 ≤ c ∧ s.i < buflen - 1 then
    ((s.cputchar echoing c).put c).map fun t => (.reading, { t with i := t.i + 1 })
  else if c = 10 ∨ c = 13 then ((s.cputchar echoing 10).put 0).map fun t => (.line, t)
  else some (.reading, s)

/-- The loop on the results of `getchar`; it waits where they end. -/
def loop (echoing : Bool) : List ℤ → Line → Option (Status × Line)
  | [], s => some (.reading, s)
  | c :: cs, s => (turn echoing c s).bind fun r =>
    match r.1 with
    | .reading => loop echoing cs r.2
    | _ => some r

end Line

def readline (prompt : Option (List Byte)) (echoing : Bool) (buf : ByteMem) (input : List ℤ) :
    Option (Status × Line) :=
  Line.loop echoing input ⟨buf, 0, prompt.toList.map .prompt⟩

/-! ## The line that is typed -/

/-- One character: backspace and delete take the last one back. -/
def edit (l : List Byte) (c : Byte) : List Byte :=
  if c = 8 ∨ c = 127 then l.dropLast
  else if 32 ≤ c.toNat ∧ l.length < buflen - 1 then l ++ [c]
  else l

def edited (cs : List Byte) : List Byte := cs.foldl edit []

variable {e : Bool} {s : Line} {c : Byte}

@[simp] theorem cputchar_eq {d : ℤ} : (s.cputchar e d).buf = s.buf ∧ (s.cputchar e d).i = s.i := by
  rw [Line.cputchar]
  split <;> exact ⟨rfl, rfl⟩

theorem put_spec {d : ℤ} (h : s.i < buflen) : ∃ t, s.put d = some t ∧ t.i = s.i ∧ t.kept = s.kept ∧
    t.buf s.i = BitVec.ofInt 8 d := by
  refine ⟨_, if_pos h, rfl, ?_, Function.update_self ..⟩
  apply List.map_congr_left
  intro x hx
  exact Function.update_of_ne (List.mem_range.mp hx).ne _ _

/-- What a turn makes of the line. -/
def keep (l : List Byte) (c : Byte) : List Byte :=
  if (c = 8 ∨ c = 127) ∧ 0 < l.length then l.dropLast
  else if 32 ≤ c.toNat ∧ l.length < buflen - 1 then l ++ [c]
  else l

/-- A turn keeps the index inside `buf`. -/
theorem turn_spec (hi : s.i < buflen) (hc : c ≠ 10 ∧ c ≠ 13) : ∃ t,
    s.turn e c.toNat = some (.reading, t) ∧ t.i < buflen ∧ t.kept = keep s.kept c := by
  have hlen : s.kept.length = s.i := by simp [Line.kept]
  have hback : (c.toNat : ℤ) = 8 ∨ (c.toNat : ℤ) = 127 ↔ c = 8 ∨ c = 127 := by bv_omega
  rw [Line.turn, if_neg (by omega), keep, hlen]
  simp only [hback]
  by_cases hdrop : (c = 8 ∨ c = 127) ∧ 0 < s.i
  · refine ⟨_, if_pos hdrop, by show s.i - 1 < _; omega, ?_⟩
    obtain ⟨k, hk⟩ : ∃ k, s.i = k + 1 := ⟨s.i - 1, by omega⟩
    rw [if_pos hdrop]
    simp [Line.kept, hk, List.range_succ]
  rw [if_neg hdrop, if_neg hdrop]
  by_cases hprint : 32 ≤ (c.toNat : ℤ) ∧ s.i < buflen - 1
  · obtain ⟨t, ht, hti, hkept, hbyte⟩ :=
      put_spec (s := s.cputchar e c.toNat) (d := c.toNat) (by simpa using hi)
    rw [if_pos hprint, if_pos (by omega), ht]
    simp only [cputchar_eq] at hti hbyte
    refine ⟨_, rfl, by show t.i + 1 < _; omega, ?_⟩
    simp only [Line.kept, List.range_succ, List.map_append, hti, cputchar_eq] at hkept ⊢
    rw [hkept, List.map_singleton, hbyte, BitVec.ofInt_natCast, BitVec.ofNat_toNat,
      BitVec.setWidth_eq]
  · exact ⟨s, by rw [if_neg hprint, if_neg (by bv_omega)], hi, by rw [if_neg (by omega)]⟩

/-- The characters before the end of the line, one turn each. -/
theorem loop_spec {cs : List Byte} {l : List ℤ} (hi : s.i < buflen)
    (hcs : ∀ c ∈ cs, c ≠ 10 ∧ c ≠ 13) :
    ∃ t : Line, s.loop e (cs.map (fun c => (c.toNat : ℤ)) ++ l) = t.loop e l ∧ t.i < buflen ∧
      t.kept = cs.foldl keep s.kept := by
  induction cs generalizing s with
  | nil => exact ⟨s, rfl, hi, rfl⟩
  | cons c cs ih =>
    obtain ⟨u, hu, hui, hkept⟩ := turn_spec (e := e) hi (hcs c List.mem_cons_self)
    obtain ⟨t, ht, hti, hrest⟩ := ih hui fun d hd => hcs d (List.mem_cons_of_mem c hd)
    refine ⟨t, ?_, hti, ?_⟩
    · rw [List.map_cons, List.cons_append, Line.loop, hu, Option.bind_some]
      exact ht
    · rw [hrest, hkept, List.foldl_cons]

/-- Whether a delete typed on an empty line is still to be erased, and how many characters follow
    it. It takes a place of the line. -/
def stray (st : Bool × ℕ) (c : Byte) : Bool × ℕ :=
  if c = 8 ∨ c = 127 then (if st.2 = 0 then (!st.1 && c = 127, 0) else (st.1, st.2 - 1))
  else if 32 ≤ c.toNat ∧ st.2 + st.1.toNat < buflen - 1 then (st.1, st.2 + 1)
  else st

/-- Every delete typed on an empty line is erased. -/
def Erased (cs : List Byte) : Prop := (cs.foldl stray (false, 0)).1 = false

instance decidableErased : DecidablePred Erased := fun _ => inferInstanceAs (Decidable (_ = _))

/-- The line of `readline` and the one that is typed. Where a delete stands in front of the first,
    the second may have a character more. -/
structure Astray (st : Bool × ℕ) (line typed : List Byte) : Prop where
  length : line.length = st.2 + st.1.toNat
  synced : st.1 = false → line = typed
  front : st.1 = true → line.head? = some 127 ∧ (typed.length = st.2 ∨ typed.length = st.2 + 1)
  noDelete : 127 ∉ typed

theorem Astray.delete {st : Bool × ℕ} {line typed : List Byte} (h : Astray st line typed)
    (hc : c = 8 ∨ c = 127) : Astray (stray st c) (keep line c) (edit typed c) := by
  obtain ⟨b, n⟩ := st
  have hlen : line.length = n + b.toNat := h.length
  have hno : 127 ∉ typed.dropLast := fun hm => h.noDelete (List.mem_of_mem_dropLast hm)
  rw [stray, if_pos hc, edit, if_pos hc, keep]
  cases b with
  | false =>
    obtain rfl := h.synced rfl
    by_cases hn : n = 0
    · obtain rfl := List.length_eq_zero_iff.mp (hlen.trans hn)
      rcases hc with rfl | rfl
      · rw [if_pos hn]
        exact ⟨rfl, fun _ => rfl, nofun, hno⟩
      · rw [if_pos hn]
        exact ⟨rfl, nofun, fun _ => ⟨rfl, .inl rfl⟩, hno⟩
    · have hpos : 0 < line.length := by
        rw [hlen]
        exact Nat.pos_of_ne_zero hn
      rw [if_pos (And.intro hc hpos), if_neg hn]
      exact ⟨by rw [List.length_dropLast, hlen]; rfl, fun _ => rfl, nofun, hno⟩
  | true =>
    obtain ⟨hfront, htyped⟩ := h.front rfl
    have hpos : 0 < line.length := by
      rw [hlen]
      exact Nat.succ_pos n
    rw [if_pos (And.intro hc hpos)]
    by_cases hn : n = 0
    · have hline : line.dropLast = [] :=
        List.length_eq_zero_iff.mp (by rw [List.length_dropLast, hlen, hn]; rfl)
      have hempty : typed.dropLast = [] :=
        List.length_eq_zero_iff.mp (by rw [List.length_dropLast]; omega)
      rw [if_pos hn, hline, hempty]
      exact ⟨rfl, fun _ => rfl, nofun, List.not_mem_nil⟩
    · rw [if_neg hn]
      refine ⟨?_, nofun, fun _ => ⟨?_, by rw [List.length_dropLast]; omega⟩, hno⟩
      · rw [List.length_dropLast, hlen]
        show n + 1 - 1 = n - 1 + 1
        omega
      · rwa [List.head?_dropLast, if_pos (by rw [hlen]; show 1 < n + 1; omega)]

theorem Astray.print {st : Bool × ℕ} {line typed : List Byte} (h : Astray st line typed)
    (hc : ¬(c = 8 ∨ c = 127)) : Astray (stray st c) (keep line c) (edit typed c) := by
  obtain ⟨b, n⟩ := st
  have hlen : line.length = n + b.toNat := h.length
  have hno : 127 ∉ typed ++ [c] := fun hm => (List.mem_append.mp hm).elim h.noDelete fun hm =>
    hc (.inr (List.mem_singleton.mp hm).symm)
  rw [stray, if_neg hc, edit, if_neg hc, keep, if_neg fun hd : (c = 8 ∨ c = 127) ∧
    0 < line.length => hc hd.1, hlen]
  cases b with
  | false =>
    obtain rfl := h.synced rfl
    rw [hlen]
    by_cases hprint : 32 ≤ c.toNat ∧ n + false.toNat < buflen - 1
    · rw [if_pos hprint, if_pos hprint]
      exact ⟨by rw [List.length_append, hlen]; rfl, fun _ => rfl, nofun, hno⟩
    · rwa [if_neg hprint, if_neg hprint]
  | true =>
    obtain ⟨hfront, htyped⟩ := h.front rfl
    have hone : true.toNat = 1 := rfl
    dsimp only at htyped
    by_cases hprint : 32 ≤ c.toNat ∧ n + true.toNat < buflen - 1
    · have htail : 32 ≤ c.toNat ∧ typed.length < buflen - 1 := by omega
      rw [if_pos hprint, if_pos hprint, if_pos htail]
      refine ⟨by simp [hlen], nofun,
        fun _ => ⟨?_, by rw [List.length_append, List.length_singleton]; omega⟩, hno⟩
      rw [List.head?_append, hfront]
      rfl
    · rw [if_neg hprint, if_neg hprint]
      refine ⟨hlen, nofun, fun _ => ⟨hfront, ?_⟩, ?_⟩
      · split
        · rw [List.length_append, List.length_singleton]
          omega
        · exact htyped
      · split
        · exact hno
        · exact h.noDelete

theorem Astray.run {cs : List Byte} {st : Bool × ℕ} {line typed : List Byte}
    (h : Astray st line typed) :
    Astray (cs.foldl stray st) (cs.foldl keep line) (cs.foldl edit typed) := by
  induction cs generalizing st line typed with
  | nil => exact h
  | cons c cs ih => exact ih ((em (c = 8 ∨ c = 127)).elim h.delete h.print)

/-- The lines agree where nothing is left to erase: no delete is in the typed line. -/
theorem keep_eq_edited {cs : List Byte} : cs.foldl keep [] = edited cs ↔ Erased cs := by
  have h : Astray (cs.foldl stray (false, 0)) (cs.foldl keep []) (edited cs) :=
    Astray.run ⟨rfl, fun _ => rfl, nofun, List.not_mem_nil⟩
  refine ⟨fun heq => Bool.eq_false_iff.mpr fun hstray => h.noDelete ?_, h.synced⟩
  rw [← heq]
  exact List.mem_of_mem_head? (h.front hstray).1

/-- **Line editing is faithful** when every delete typed on an empty line is erased again, and only
    then; and no call writes outside of `buf`, which holds the line and a NUL. -/
theorem readline_edits (prompt : Option (List Byte)) (echoing : Bool) (buf : ByteMem)
    (cs : List Byte) (e : Byte)
    (rest : List ℤ) (hcs : ∀ c ∈ cs, c ≠ 10 ∧ c ≠ 13) (he : e = 10 ∨ e = 13) :
    ∃ s, readline prompt echoing buf ((cs ++ [e]).map (fun c => (c.toNat : ℤ)) ++ rest) =
      some (.line, s) ∧ s.buf s.i = 0 ∧ s.i < buflen ∧ (s.kept = edited cs ↔ Erased cs) := by
  obtain ⟨t, ht, hti, hkept⟩ := loop_spec (e := echoing) (l := (e.toNat : ℤ) :: rest)
    (s := ⟨buf, 0, prompt.toList.map .prompt⟩) (by show 0 < _; decide) hcs
  obtain ⟨u, hu, hui, hukept, hbyte⟩ :=
    put_spec (s := t.cputchar echoing 10) (d := 0) (by simpa using hti)
  simp only [cputchar_eq] at hui hbyte
  have hturn : t.turn echoing e.toNat = some (.line, u) := by
    rw [Line.turn, if_neg (by omega), if_neg (by bv_omega), if_neg (by bv_omega),
      if_pos (by bv_omega), hu]
    rfl
  refine ⟨u, ?_, by rw [hui]; exact hbyte, by omega, ?_⟩
  · rw [readline, List.map_append, List.append_assoc]
    refine ht.trans ?_
    rw [Line.loop, hturn]
    rfl
  · rw [hukept, Line.kept, cputchar_eq.1, cputchar_eq.2, ← keep_eq_edited]
    exact iff_of_eq (congrArg (· = edited cs) hkept)

theorem readline_edits_typed : ∃ s,
    readline none true (fun _ => 0) [127, 8, 97, 98, 127, 13] = some (.line, s) ∧
    s.kept = [97] := by
  obtain ⟨s, hs, -, -, hkept⟩ :=
    readline_edits none true (fun _ => 0) [127, 8, 97, 98, 127] 13 [] (by decide)
    (.inr rfl)
  exact ⟨s, hs, hkept.mpr (by decide)⟩

/-- A delete on an empty line is kept. -/
theorem readline_keeps_delete : edited [127] = [] ∧
    (readline none true (fun _ => 0) [127, 10]).map (fun r => (r.1, r.2.kept)) =
    some (.line, [127]) := by
  decide

end LinuxStudy.User.Readline
