import Mathlib.Data.List.TakeWhile
import LinuxStudy.Fs.Lookup

/-!
# Paths as text

`walk_path` goes through the characters of the path: it skips slashes, copies the next part into a
buffer, and looks it up. This is the loop `walkFrom` over the parts of the path.
-/

namespace LinuxStudy.Fs

open Jos

def skipSlash (p : List Byte) : List Byte := p.dropWhile (· = 0x2F#8)

/-- The characters before the next slash. -/
def element (path : List Byte) : List Byte := path.takeWhile (· ≠ 0x2F#8)

/-- The path behind the next element and the slashes after it. -/
def afterElement (path : List Byte) : List Byte := skipSlash (path.dropWhile (· ≠ 0x2F#8))

/-- The result of `walk_path`, `*pdir`, `*pf`, and what is copied to `lastelem`. -/
structure WalkOut where
  r : Int
  pdir : ℕ
  pf : ℕ
  lastelem : Option (List Byte)

section Text

variable {path : List Byte}

theorem skipSlash_head : (skipSlash path).head? ≠ some 0x2F#8 := by
  intro h
  have hno := List.head?_dropWhile_not (· = 0x2F#8) path
  rw [← skipSlash, h] at hno
  simp at hno

theorem afterElement_lt (hne : path ≠ []) : (afterElement path).length < path.length := by
  obtain ⟨c, cs, rfl⟩ := List.exists_cons_of_ne_nil hne
  have hle : ∀ q : Byte → Bool, (cs.dropWhile q).length ≤ cs.length := fun q =>
    (List.dropWhile_suffix q).length_le
  rw [afterElement, skipSlash]
  by_cases hc : c = 0x2F#8
  · simpa [hc] using Nat.lt_succ_of_le (hle _)
  · have hdrop : (c :: cs).dropWhile (· ≠ 0x2F#8) = cs.dropWhile (· ≠ 0x2F#8) := by simp [hc]
    rw [hdrop]
    exact Nat.lt_succ_of_le ((List.dropWhile_suffix _).length_le.trans (hle _))

end Text

/-- The loop of `walk_path`. A null pointer is 0. -/
def walkLoop (dir f : ℕ) (path : List Byte) : FsM WalkOut :=
  if _ : path = [] then pure ⟨0, dir, f, none⟩
  else if maxnamelen ≤ (element path).length then pure ⟨-eBadPath, 0, 0, none⟩
  else do
    if (← loadw (fType f)) ≠ ftypeDir then pure ⟨-eNotFound, 0, 0, none⟩
    else
      match ← dirLookup f (element path) with
      | .ok f' => walkLoop f f' (afterElement path)
      | .error r =>
        if r = -eNotFound ∧ afterElement path = [] then pure ⟨r, f, 0, some (element path)⟩
        else pure ⟨r, 0, 0, none⟩
termination_by path.length
decreasing_by exact afterElement_lt ‹_›

/-- `walk_path`. -/
def walkText (path : List Byte) : FsM WalkOut := walkLoop 0 sRoot (skipSlash path)

def Walk.out : Walk → WalkOut
  | .found dir f => ⟨0, dir.getD 0, f, none⟩
  | .missing dir name => ⟨-eNotFound, dir, 0, some name⟩
  | .error r => ⟨r, 0, 0, none⟩

section Parts

variable {path : List Byte}

theorem components_append_slash (p q : List Byte) :
    components (p ++ 0x2F#8 :: q) = components p ++ components q := by
  rw [components, List.splitOn_append_cons_self, List.filter_append, components, components]

theorem components_skipSlash (path : List Byte) :
    components (skipSlash path) = components path := by
  induction path with
  | nil => rfl
  | cons c cs ih =>
    by_cases hc : c = 0x2F#8
    · have happ := components_append_slash [] cs
      rw [List.nil_append, show components [] = [] by decide, List.nil_append] at happ
      rw [hc, happ, ← ih, skipSlash, List.dropWhile_cons_of_pos (by simp), skipSlash]
    · rw [skipSlash, List.dropWhile_cons_of_neg (by simpa using hc)]

theorem components_cons (hne : path ≠ []) (hhead : path.head? ≠ some 0x2F#8) :
    components path = element path :: components (afterElement path) := by
  have hslash : 0x2F#8 ∉ element path := fun hmem => by simpa using List.mem_takeWhile_imp hmem
  have helem : element path ≠ [] := by
    obtain ⟨c, cs, rfl⟩ := List.exists_cons_of_ne_nil hne
    rw [element, List.takeWhile_cons_of_pos (by simpa using hhead)]
    nofun
  have hpath : element path ++ path.dropWhile (· ≠ 0x2F#8) = path := List.takeWhile_append_dropWhile
  rw [afterElement, components_skipSlash]
  cases hrest : path.dropWhile (· ≠ 0x2F#8) with
  | nil =>
    rw [hrest, List.append_nil] at hpath
    nth_rewrite 1 [← hpath]
    exact components_single helem hslash
  | cons c cs =>
    have hc : c = 0x2F#8 := by
      have hno := List.head?_dropWhile_not (· ≠ 0x2F#8) path
      rw [hrest] at hno
      simpa using hno
    have happ := components_append_slash [] cs
    rw [List.nil_append, show components [] = [] by decide, List.nil_append] at happ
    rw [hrest, hc] at hpath
    rw [hc, happ]
    nth_rewrite 1 [← hpath]
    rw [components_append_slash, components_single helem hslash, List.singleton_append]

end Parts

theorem walkLoop_eq (dir : Option ℕ) {f : ℕ} {path : List Byte} (hhead : path.head? ≠ some 0x2F#8) :
    walkLoop (dir.getD 0) f path = Walk.out <$> walkFrom dir f (components path) := by
  induction hlen : path.length using Nat.strong_induction_on generalizing dir f path with
  | _ n ih =>
    subst hlen
    rw [walkLoop]
    by_cases hne : path = []
    · rw [dif_pos hne, hne, show components [] = [] by decide, walkFrom, map_pure]
      rfl
    rw [dif_neg hne, components_cons hne hhead, walkFrom]
    by_cases hlong : maxnamelen ≤ (element path).length
    · rw [if_pos hlong, if_pos hlong, map_pure]
      rfl
    rw [if_neg hlong, if_neg hlong, map_bind]
    refine bind_congr fun w => ?_
    by_cases htype : w ≠ ftypeDir
    · rw [if_pos htype, if_pos htype, map_pure]
      rfl
    rw [if_neg htype, if_neg htype, map_bind]
    refine bind_congr fun o => ?_
    cases o with
    | ok f' => exact ih _ (afterElement_lt hne) (some f) skipSlash_head rfl
    | error r =>
      -- slashes at the end of the path have been skipped when the test is made
      have hlast : afterElement path = [] ↔ components (afterElement path) = [] := by
        constructor
        · intro hnil
          rw [hnil]
          decide
        · intro hnil
          by_contra hmore
          rw [components_cons hmore skipSlash_head] at hnil
          cases hnil
      by_cases hmiss : r = -eNotFound ∧ afterElement path = []
      · simp only [if_pos hmiss, if_pos (show _ ∧ _ from ⟨hmiss.1, hlast.mp hmiss.2⟩), map_pure]
        rw [hmiss.1]
        rfl
      · simp only [if_neg hmiss, if_neg (fun h : _ ∧ _ => hmiss ⟨h.1, hlast.mpr h.2⟩), map_pure]
        rfl

/-- **The two forms of `walk_path`.** -/
theorem walkText_eq (path : List Byte) : walkText path = Walk.out <$> walkPath path := by
  rw [walkText, walkPath, ← components_skipSlash path]
  exact walkLoop_eq none skipSlash_head

/-- Where all blocks of all directories are allocated, `walk_path` returns and stores what the walk
    along the parts of the path gives, from the root, one lookup after the other; the disk stays as
    it is. -/
theorem walk_path_folds {s : Server} (hcalm : Calm s) (hdirs : ∀ d ∈ dirs s.view, Filled s.view d)
    (path : List Byte) :
    ∃ s', walkText path s = some ((walkIn s.view none sRoot (components path)).out, s') ∧
    s'.view = s.view := by
  obtain ⟨s', hs', -, hview⟩ := yields_walkPath hdirs path s ⟨hcalm, rfl⟩
  refine ⟨s', ?_, hview⟩
  rw [walkText_eq, map_eq_pure_bind, Proc.bind_of_eq hs']
  rfl

theorem smallDisk_calm : Calm (serverOn smallDisk) :=
  ⟨up_serverOn (by decide) (by decide), by decide, by
    rw [view_serverOn]
    decide⟩

/-- The root directory has no blocks, and there is no other one. -/
theorem smallDisk_filled : ∀ d ∈ dirs (serverOn smallDisk).view,
    Filled (serverOn smallDisk).view d := by
  rw [view_serverOn]
  have hlen : dirLen smallDisk sRoot = 0 := by decide
  intro d hd
  obtain rfl := tree_of_empty hlen hd.1
  refine ⟨by decide, fun n hn => ?_⟩
  omega

/-- A name that the root directory of the small disk does not have, between slashes. -/
theorem walk_path_folds_missing : ∃ s',
    walkText [0x2F#8, 0x2F#8, 0x61#8, 0x2F#8] (serverOn smallDisk) =
    some (⟨-eNotFound, sRoot, 0, some [0x61#8]⟩, s') := by
  obtain ⟨s', hs', -⟩ :=
    walk_path_folds smallDisk_calm smallDisk_filled [0x2F#8, 0x2F#8, 0x61#8, 0x2F#8]
  rw [show components [0x2F#8, 0x2F#8, 0x61#8, 0x2F#8] = components [0x61#8] by decide] at hs'
  exact ⟨s', hs'⟩

end LinuxStudy.Fs
