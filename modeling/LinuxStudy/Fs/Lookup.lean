import LinuxStudy.Fs.FullDisk

/-!
# Paths in a directory tree without holes

Where every directory has all its blocks, `dir_lookup`, `walk_path` and `file_open` only look: they
return what a search of the list of entries returns, and the disk is as before.
-/

namespace LinuxStudy.Fs

open Jos

/-- A server that sees `v`. -/
def Seen (v : ByteMem) (s : Server) : Prop := Calm s ∧ s.view = v

instance NameIs.decidable (v : ByteMem) : ∀ (p : ℕ) (name : List Byte), Decidable (NameIs v p name)
  | p, [] => inferInstanceAs (Decidable (v p = 0#8))
  | p, c :: cs =>
    have := NameIs.decidable v (p + 1) cs
    inferInstanceAs (Decidable (v p ≠ 0#8 ∧ v p = c ∧ NameIs v (p + 1) cs))

section Names

variable {v : ByteMem} {p : ℕ} {name nm str : List Byte}

theorem nameIs_of_bytes (hnz : ∀ c ∈ str, c ≠ 0#8)
    (h : ∀ i ≤ str.length, v (p + i) = str.getD i 0#8) : NameIs v p str := by
  induction str generalizing p with
  | nil => exact h 0 le_rfl
  | cons c str ih =>
    have h0 : v p = c := h 0 (Nat.zero_le _)
    refine ⟨by rw [h0]; exact hnz c List.mem_cons_self, h0,
      ih (fun d hd => hnz d (List.mem_cons_of_mem c hd)) fun i hi => ?_⟩
    rw [Nat.add_assoc, Nat.add_comm 1]
    exact h (i + 1) (by rw [List.length_cons]; omega)

theorem NameIs.unique (h : NameIs v p name) (h' : NameIs v p nm) :
    name = nm := by
  induction name generalizing p nm with
  | nil =>
    cases nm with
    | nil => rfl
    | cons c cs => exact absurd h h'.1
  | cons c cs ih =>
    cases nm with
    | nil => exact absurd h' h.1
    | cons c' cs' => rw [← h.2.1, ← h'.2.1, ih h.2.2 h'.2.2]

end Names

/-! ### Directories -/

/-- All blocks of a directory are allocated. -/
structure Filled (v : ByteMem) (d : ℕ) : Prop where
  mod : (v.word (fSize d)).srem 4096#32 = 0#32
  blocks : ∀ n, n < dirLen v d → n < ndirect + nindirect ∧ target v d (.data n) ≠ 0#32 ∧
    InUse v (target v d (.data n)) ∧ (¬ n < ndirect → InUse v (v.word (fIndirect d)))

def entryOf (v : ByteMem) (d n j : ℕ) : ℕ := blkaddr (target v d (.data n)) + 256 * j

def blockEntries (v : ByteMem) (d n : ℕ) : List ℕ := (List.range blkfiles).map (entryOf v d n)

/-- The entries of a directory, as `dir_lookup` and `dir_alloc_file` go through them. -/
def entries (v : ByteMem) (d : ℕ) : List ℕ := (List.range (dirLen v d)).flatMap (blockEntries v d)

def lookup (v : ByteMem) (d : ℕ) (name : List Byte) : Option ℕ :=
  (entries v d).find? fun e => decide (NameIs v e name)

/-- The walk along a path. -/
def walkIn (v : ByteMem) (dir : Option ℕ) (f : ℕ) : List (List Byte) → Walk
  | [] => .found dir f
  | name :: rest =>
    if maxnamelen ≤ name.length then .error (-eBadPath)
    else if v.word (fType f) ≠ ftypeDir then .error (-eNotFound)
    else
      match lookup v f name with
      | some f' => walkIn v (some f) f' rest
      | none => if rest = [] then .missing f name else .error (-eNotFound)

section Entries

variable {v : ByteMem} {d e : ℕ} {name : List Byte}

theorem mem_blockEntries {n : ℕ} : e ∈ blockEntries v d n ↔ ∃ j, j < blkfiles ∧
    e = entryOf v d n j := by
  simp only [blockEntries, List.mem_map, List.mem_range]
  constructor
  · rintro ⟨j, hj, rfl⟩
    exact ⟨j, hj, rfl⟩
  · rintro ⟨j, hj, rfl⟩
    exact ⟨j, hj, rfl⟩

theorem mem_entries : e ∈ entries v d ↔ ∃ n j, n < dirLen v d ∧ j < blkfiles ∧
    e = entryOf v d n j := by
  simp only [entries, List.mem_flatMap, List.mem_range, mem_blockEntries]
  constructor
  · rintro ⟨n, hn, j, hj, he⟩
    exact ⟨n, j, hn, hj, he⟩
  · rintro ⟨n, j, hn, hj, he⟩
    exact ⟨n, hn, j, hj, he⟩

theorem lookup_eq_some (h : lookup v d name = some e) : e ∈ entries v d ∧ NameIs v e name := by
  have hname := List.find?_some h
  exact ⟨List.mem_of_find?_eq_some h, of_decide_eq_true hname⟩

theorem lookup_eq_none : lookup v d name = none ↔ ∀ e ∈ entries v d, ¬ NameIs v e name := by
  simp [lookup]

theorem Filled.mem_tree (ha : Filled v d) (hd : d ∈ dirs v) (he : e ∈ entries v d)
    (hname : v e ≠ 0#8) : e ∈ tree v := by
  obtain ⟨n, j, hn, hj, rfl⟩ := mem_entries.mp he
  obtain ⟨hlt, hne, -⟩ := ha.blocks n hn
  exact hd.1.tail ⟨hd.2, n, j, hn, hlt, hj, hne, rfl, hname⟩

end Entries

section Looks

variable {v : ByteMem} {I : Server → Prop} {d f n p : ℕ} {name : List Byte}

theorem Seen.of_fills {s s' : Server} (h : Seen v s) (hfill : Fills s s') : Seen v s' :=
  ⟨h.1.of_fills hfill, hfill.view.trans h.2⟩

theorem Filled.held_entry (ha : Filled v d) (hsized : Sized v) {j : ℕ} (hn : n < dirLen v d)
    (hj : j < blkfiles) : Held v (entryOf v d n j) 256 := by
  obtain ⟨-, -, huse, -⟩ := ha.blocks n hn
  refine held_of_block hsized huse ?_ ?_ <;>
    simp only [entryOf, blkfiles, blksize] at hj ⊢ <;> omega

theorem find?_map_eq {α β : Type} (q : β → Prop) [DecidablePred q] (g : α → β) (l : List α) :
    (l.map g).find? (fun b => decide (q b)) = l.findSome? fun a =>
    if q (g a) then some (g a) else none := by
  induction l with
  | nil => rfl
  | cons a l ih =>
    rw [List.map_cons, List.find?_cons, List.findSome?_cons, ih]
    by_cases hq : q (g a) <;> simp [hq]

theorem looking_seen (v : ByteMem) : Looking v (Seen v) where
  calm _ h := h.1
  view _ h _ _ := by rw [h.2]
  loads _ _ h hfill _ := h.of_fills hfill

section

variable (hI : Looking v I)
include hI

theorem yields_strcmpEq (hp : Held v p (name.length + 1)) :
    Proc.Yields I (strcmpEq p name) (decide (NameIs v p name)) := by
  induction name generalizing p with
  | nil =>
    refine (yields_loadb hI hp).bind ?_
    exact .pure _
  | cons c cs ih =>
    rw [List.length_cons] at hp
    refine (yields_loadb hI (hp.take (by omega))).bind ?_
    by_cases hc : v p ≠ 0#8 ∧ v p = c
    · rw [if_pos hc, show decide (NameIs v p (c :: cs)) = decide (NameIs v (p + 1) cs) from
        decide_eq_decide.mpr ⟨fun h => h.2.2, fun h => ⟨hc.1, hc.2, h⟩⟩]
      exact ih (hp.sub (by omega))
    · rw [if_neg hc, show decide (NameIs v p (c :: cs)) = false from
        decide_eq_false fun h => hc ⟨h.1, h.2.1⟩]
      exact .pure false

/-- What the search through a directory finds, for a test that only looks. -/
theorem yields_dirSearch {entry : ℕ → ℕ → FsM (Option ℕ)} {P : ℕ → Prop} [DecidablePred P]
    (hd : Held v d 256) (ha : Filled v d)
    (hentry : ∀ n j, n < dirLen v d → j < blkfiles → Proc.Yields I
      (entry (blkaddr (target v d (.data n))) j)
      (if P (entryOf v d n j) then some (entryOf v d n j) else none)) :
    Proc.Yields I (Proc.search (searchBlock d entry) (dirLen v d) 0)
      (((entries v d).find? fun e => decide (P e)).map Except.ok) := by
  have hblock : ∀ i, 0 ≤ i → i < 0 + dirLen v d → Proc.Yields I (searchBlock d entry i)
      (((blockEntries v d i).find? fun e => decide (P e)).map Except.ok) := by
    intro i _ hi
    rw [Nat.zero_add] at hi
    obtain ⟨hlt, hne, huse, hind⟩ := ha.blocks i hi
    have hnat : (BitVec.ofNat 32 i).toNat = i := by
      rw [BitVec.toNat_ofNat, Nat.mod_eq_of_lt (hi.trans (dirLen_lt v d))]
    refine (yields_fileGetBlock hI (by rw [hnat]; exact ⟨hd, hlt, hne, huse, hind⟩)).bind ?_
    rw [hnat]
    refine (Proc.Yields.search fun j _ hj => hentry i j hi (by omega)).bind ?_
    rw [blockEntries, find?_map_eq, ← List.range_eq_range']
    cases (List.range blkfiles).findSome? _ with
    | none => exact .pure _
    | some e => exact .pure _
  have hsearch := Proc.Yields.search hblock
  rw [← List.range_eq_range'] at hsearch
  rw [entries, List.find?_flatMap, List.map_findSome?]
  exact hsearch

theorem yields_dirBlocks (hd : Held v d 256) (ha : Filled v d) :
    Proc.Yields I (dirBlocks d) (dirLen v d) :=
  (yields_loadw hI (hd.sub (o := 128) (by omega))).bind
    ((Proc.Yields.require ha.mod).bind (.pure _))

/-- **`dir_lookup`** returns the first entry with the name. -/
theorem yields_dirLookup (hsized : Sized v) (hd : Held v d 256) (ha : Filled v d)
    (hname : name.length < maxnamelen) :
    Proc.Yields I (dirLookup d name)
      (match lookup v d name with
        | some e => .ok e
        | none => .error (-eNotFound)) := by
  refine (yields_dirBlocks hI hd ha).bind ?_
  have hsearch : Proc.Yields I (Proc.search (searchBlock d (lookupEntry name)) (dirLen v d) 0)
      (((entries v d).find? fun e => decide (NameIs v e name)).map Except.ok) := by
    refine yields_dirSearch hI hd ha fun n j hn hj => ?_
    rw [maxnamelen] at hname
    refine (yields_strcmpEq hI ((ha.held_entry hsized hn hj).take (by omega))).bind ?_
    by_cases h : NameIs v (entryOf v d n j) name
    · rw [decide_eq_true h, if_pos rfl, if_pos h]
      exact .pure _
    · rw [decide_eq_false h, if_neg Bool.false_ne_true, if_neg h]
      exact .pure none
  refine hsearch.bind ?_
  rw [lookup]
  cases (entries v d).find? _ with
  | none => exact .pure _
  | some e => exact .pure _

/-- **`walk_path`**, from a file of the tree. -/
theorem yields_walkFrom (hsized : Sized v) (halloc : ∀ d ∈ dirs v, Filled v d)
    {comps : List (List Byte)}
    (hcomps : ∀ c ∈ comps, c ≠ []) (dir : Option ℕ) (hf : f ∈ tree v) (hheld : Held v f 256) :
    Proc.Yields I (walkFrom dir f comps) (walkIn v dir f comps) := by
  induction comps generalizing dir f with
  | nil => exact .pure _
  | cons name rest ih =>
    rw [walkFrom, walkIn]
    by_cases hlen : maxnamelen ≤ name.length
    · rw [if_pos hlen, if_pos hlen]
      exact .pure _
    rw [if_neg hlen, if_neg hlen]
    refine (yields_loadw hI (hheld.sub (o := 132) (by omega))).bind ?_
    show Proc.Yields I (if v.word (fType f) ≠ ftypeDir then _ else _) _
    by_cases htype : v.word (fType f) = ftypeDir
    swap
    · rw [if_pos htype, if_pos htype]
      exact .pure _
    rw [if_neg (not_not.mpr htype), if_neg (not_not.mpr htype)]
    have hd : f ∈ dirs v := ⟨hf, htype⟩
    refine (yields_dirLookup hI hsized hheld (halloc f hd) (by omega)).bind ?_
    cases hlook : lookup v f name with
    | none =>
      by_cases hrest : rest = []
      · simp only [hrest, and_self, if_true]
        exact .pure _
      · simp only [hrest, and_false, if_false]
        exact .pure _
    | some f' =>
      obtain ⟨hmem, hname⟩ := lookup_eq_some hlook
      have htree := (halloc f hd).mem_tree hd hmem (hname.ne_zero (hcomps name List.mem_cons_self))
      obtain ⟨n, j, hn, hj, rfl⟩ := mem_entries.mp hmem
      exact ih (fun c hc => hcomps c (List.mem_cons_of_mem name hc)) (some f) htree
        ((halloc f hd).held_entry hsized hn hj)

end

/-- **`walk_path`** of any path. -/
theorem yields_walkPath (halloc : ∀ d ∈ dirs v, Filled v d) (path : List Byte) :
    Proc.Yields (Seen v) (walkPath path) (walkIn v none sRoot (components path)) := by
  rintro s ⟨hcalm, rfl⟩
  exact yields_walkFrom (looking_seen _) hcalm.mounted.sized halloc
    (fun c hc => components_ne_nil hc) none
    (root_mem_tree s.view)
      (held_root hcalm.mounted.sized (hcalm.mounted.reserved 1#32 one_le_lastBitmap) hcalm.two)
    s ⟨hcalm, rfl⟩

end Looks

end LinuxStudy.Fs
