import LinuxStudy.Jos.Pmap

/-!
# dup

`dup` of `lib/fd.c` on the pages of an address space. The Fd pages of the descriptors below `MAXFD`
lie right below their data pages, and `dup` does not check that the new number is below `MAXFD`.
-/

namespace LinuxStudy.User

open Jos

inductive Dev
  | file
  | sock
  | pipe
  | cons
  deriving DecidableEq

/-- The frame mapped at each page, and the device that a `struct Fd` at the start of a frame
    names. -/
structure FdSpace where
  frame : ℕ → Option ℕ
  dev : ℕ → Option Dev

def maxfd : ℤ := 32

/-- `INDEX2FD(i)`, the number of a page. -/
def index2fd (i : ℤ) : ℕ := ((0xD0000 + i) % 2 ^ 20).toNat

/-- `INDEX2DATA(i)`, as far as `fd2data` uses it. -/
def index2data (i : ℕ) : ℕ := (0xD0000 + 32 + i) % 2 ^ 20

def fd2num (fd : ℕ) : ℕ := (fd + 2 ^ 20 - 0xD0000) % 2 ^ 20

def fd2data (fd : ℕ) : ℕ := index2data (fd2num fd)

namespace FdSpace

def set (s : FdSpace) (p : ℕ) (f : Option ℕ) :
    FdSpace := { s with frame := Function.update s.frame p f }

/-- `sys_page_unmap`, which refuses addresses from `UTOP` on. -/
def pageUnmap (s : FdSpace) (p : ℕ) : FdSpace := if p < 0xeec00 then s.set p none else s

/-- `sys_page_map`; whether there is memory for a page table is up to the kernel. -/
def pageMap (s : FdSpace) (ok : Bool) (src dst : ℕ) : ℤ × FdSpace :=
  match s.frame src with
  | none => (-eInval, s)
  | some f =>
    if 0xeec00 ≤ dst then (-eInval, s)
    else if ok then (0, s.set dst (some f)) else (-eNoMem, s)

def fdLookup (s : FdSpace) (fdnum : ℤ) : Option ℕ :=
  if fdnum < 0 ∨ maxfd ≤ fdnum then none
  else if (s.frame (index2fd fdnum)).isSome then some (index2fd fdnum) else none

/-- `dev_close`, the mappings: only a pipe has any. -/
def devClose (s : FdSpace) (fd : ℕ) : FdSpace :=
  if (s.frame fd).bind s.dev = some .pipe then (s.pageUnmap fd).pageUnmap (fd2data fd) else s

def fdClose (s : FdSpace) (fd : ℕ) : FdSpace :=
  if s.fdLookup (fd2num fd) = some fd then (s.devClose fd).pageUnmap fd else s

def close (s : FdSpace) (fdnum : ℤ) : FdSpace :=
  match s.fdLookup fdnum with
  | none => s
  | some fd => s.fdClose fd

/-- The first `sys_page_map` of `dup`, if there is a data page. -/
def dupData (s : FdSpace) (ok : Bool) (ova nva : ℕ) : ℤ × FdSpace :=
  if (s.frame ova).isSome then s.pageMap ok ova nva else (0, s)

/-- `dup` after the new descriptor has been closed. -/
def dupPages (s : FdSpace) (ok : ℕ → Bool) (oldfd ova newfd nva : ℕ) (newfdnum : ℤ) : ℤ × FdSpace :=
  let d := s.dupData (ok 0) ova nva
  if d.1 < 0 then (d.1, (d.2.pageUnmap newfd).pageUnmap nva)
  else
    let f := d.2.pageMap (ok 1) oldfd newfd
    if f.1 < 0 then (f.1, (f.2.pageUnmap newfd).pageUnmap nva) else (newfdnum, f.2)

def dup (s : FdSpace) (ok : ℕ → Bool) (oldfdnum newfdnum : ℤ) : ℤ × FdSpace :=
  match s.fdLookup oldfdnum with
  | none => (-eInval, s)
  | some oldfd =>
    (s.close newfdnum).dupPages ok oldfd (fd2data oldfd) (index2fd newfdnum)
      (fd2data (index2fd newfdnum)) newfdnum

/-- The Fd page and the data page of a descriptor. -/
def fdPage (s : FdSpace) (i : ℤ) : Option ℕ := s.frame (index2fd i)

def dataPage (s : FdSpace) (i : ℤ) : Option ℕ := s.frame (fd2data (index2fd i))

/-- `s'` is `s` but for two pages. -/
def Outside (a b : ℕ) (s s' : FdSpace) : Prop := ∀ p, p ≠ a → p ≠ b → s'.frame p = s.frame p

section Pages

variable {s s' t : FdSpace} {p q a b : ℕ} {f : Option ℕ}

theorem set_frame_self : (s.set p f).frame p = f := Function.update_self ..

theorem set_frame_ne (h : q ≠ p) : (s.set p f).frame q = s.frame q := Function.update_of_ne h ..

theorem Outside.refl : Outside a b s s := fun _ _ _ => rfl

theorem Outside.set (h : Outside a b s t) (hp : p = a ∨ p = b) : Outside a b s (t.set p f) := by
  intro q h1 h2
  rw [set_frame_ne, h q h1 h2]
  rintro rfl
  exact hp.elim h1 h2

theorem Outside.unmap (h : Outside a b s t) (hp : p = a ∨ p = b) :
    Outside a b s (t.pageUnmap p) := by
  rw [pageUnmap]
  split_ifs
  · exact h.set hp
  · exact h

theorem unmap_frame : (s.pageUnmap p).frame q = if q = p ∧
    p < 0xeec00 then none else s.frame q := by
  rw [pageUnmap]
  split_ifs with hp hq hq
  · rw [hq.1, set_frame_self]
  · rw [set_frame_ne fun heq => hq ⟨heq, hp⟩]
  · exact absurd hq.2 hp
  · rfl

theorem pageMap_eq {ok : Bool} {src dst f : ℕ} (hsrc : s.frame src = some f) (hdst : dst < 0xeec00)
    (hok : ok = true) : s.pageMap ok src dst = (0, s.set dst (some f)) := by
  rw [pageMap, hsrc]
  dsimp only
  rw [if_neg (by omega), if_pos hok]

theorem pageMap_refused {ok : Bool} {src dst : ℕ}
    (h : s.frame src = none ∨ 0xeec00 ≤ dst ∨ ok = false) :
    (s.pageMap ok src dst).1 < 0 ∧ (s.pageMap ok src dst).2 = s := by
  have hinval : -eInval < 0 := by decide
  have hmem : -eNoMem < 0 := by decide
  rw [pageMap]
  cases hsrc : s.frame src with
  | none => exact ⟨hinval, rfl⟩
  | some f =>
    dsimp only
    split_ifs with hdst hok
    · exact ⟨hinval, rfl⟩
    · simp [hsrc, hdst, hok] at h
    · exact ⟨hmem, rfl⟩

end Pages

/-- The kernel refuses one of the mappings of `dup`. -/
def Refused (s : FdSpace) (ok : ℕ → Bool) (ova newfd nva : ℕ) : Prop :=
  s.frame ova ≠ none ∧ (0xeec00 ≤ nva ∨ ok 0 = false) ∨ 0xeec00 ≤ newfd ∨ ok 1 = false

/-- The first mapping of `dup`, where it is not refused. -/
def withData (s : FdSpace) (ova nva : ℕ) : FdSpace :=
  if (s.frame ova).isSome then s.set nva (s.frame ova) else s

section DupPages

variable {s : FdSpace} {ok : ℕ → Bool} {p oldfd ova newfd nva : ℕ} {n : ℤ}

theorem withData_frame_ne (h : p ≠ nva) : (s.withData ova nva).frame p = s.frame p := by
  rw [withData]
  split_ifs
  · exact set_frame_ne h
  · rfl

theorem withData_frame_self :
    (s.withData ova nva).frame nva = if s.frame ova = none then s.frame nva else s.frame ova := by
  rw [withData]
  cases hova : s.frame ova with
  | none => simp
  | some f => simp [set_frame_self]

theorem withData_open (h : s.frame p ≠ none) : (s.withData ova nva).frame p ≠ none := by
  by_cases heq : p = nva
  · subst heq
    rw [withData_frame_self]
    split_ifs with hova
    · exact h
    · exact hova
  · rwa [withData_frame_ne heq]

theorem dupData_eq (h : ¬ (s.frame ova ≠ none ∧ (0xeec00 ≤ nva ∨ ok 0 = false))) :
    s.dupData (ok 0) ova nva = (0, s.withData ova nva) := by
  rw [dupData, withData]
  split_ifs with hmap
  · obtain ⟨f, hf⟩ := Option.isSome_iff_exists.mp hmap
    have hfits := not_and.mp h (Option.isSome_iff_ne_none.mp hmap)
    rw [not_or, Bool.not_eq_false] at hfits
    rw [pageMap_eq hf (by omega) hfits.2, hf]
  · rfl

/-- A refused mapping, or a source that is not there: both new pages are unmapped. -/
theorem dupPages_fails (oldfd : ℕ) (n : ℤ)
    (h : s.Refused ok ova newfd nva ∨ (s.withData ova nva).frame oldfd = none) :
    ∃ (r : ℤ) (t : FdSpace), s.dupPages ok oldfd ova newfd nva n = (r, t) ∧ r < 0 ∧
      Outside newfd nva s t ∧ ∀ p < 0xeec00, p = newfd ∨ p = nva → t.frame p = none := by
  have hunmap : ∀ t : FdSpace, (∀ p, p ≠ nva → t.frame p = s.frame p) →
      Outside newfd nva s ((t.pageUnmap newfd).pageUnmap nva) ∧
      ∀ p < 0xeec00, p = newfd ∨ p = nva → ((t.pageUnmap newfd).pageUnmap nva).frame p = none := by
    intro t ht
    refine ⟨fun p h1 h2 => ?_, fun p hp hor => ?_⟩
    · rw [unmap_frame, if_neg fun h => h2 h.1, unmap_frame, if_neg fun h => h1 h.1, ht p h2]
    · rw [unmap_frame, unmap_frame]
      rcases hor with rfl | rfl <;> simp [hp]
  by_cases hdata : s.frame ova ≠ none ∧ (0xeec00 ≤ nva ∨ ok 0 = false)
  · have hfirst : (s.dupData (ok 0) ova nva).1 < 0 ∧ (s.dupData (ok 0) ova nva).2 = s := by
      rw [dupData, if_pos (Option.isSome_iff_ne_none.mpr hdata.1)]
      exact pageMap_refused (.inr hdata.2)
    rw [dupPages, if_pos hfirst.1, hfirst.2]
    exact ⟨_, _, rfl, hfirst.1, hunmap s fun _ _ => rfl⟩
  · have hsecond : ((s.withData ova nva).pageMap (ok 1) oldfd newfd).1 < 0 ∧
        ((s.withData ova nva).pageMap (ok 1) oldfd newfd).2 = s.withData ova nva := by
      refine pageMap_refused ?_
      rcases h with href | hnone
      · exact .inr (href.resolve_left hdata)
      · exact .inl hnone
    rw [dupPages, dupData_eq hdata, if_neg (lt_irrefl 0), if_pos hsecond.1, hsecond.2]
    exact ⟨_, _, rfl, hsecond.1, hunmap _ fun _ hp => withData_frame_ne hp⟩

theorem dupPages_mapped {f : ℕ} (h : ¬ s.Refused ok ova newfd nva)
    (hsrc : (s.withData ova nva).frame oldfd = some f) :
    s.dupPages ok oldfd ova newfd nva n = (n, (s.withData ova nva).set newfd (some f)) := by
  obtain ⟨hdata, hnew⟩ := not_or.mp h
  rw [not_or, Bool.not_eq_false] at hnew
  rw [dupPages, dupData_eq hdata, if_neg (lt_irrefl 0), pageMap_eq hsrc (by omega) hnew.2,
    if_neg (lt_irrefl 0)]

/-- The new descriptor has the data page of the old one, or the one that was left there. -/
theorem dupPages_shares {f : ℕ} (h : ¬ s.Refused ok ova newfd nva) (hopen : s.frame oldfd = some f)
    (hfd : oldfd ≠ nva) (hne : nva ≠ newfd) : ∃ t :
    FdSpace, s.dupPages ok oldfd ova newfd nva n = (n, t) ∧
      Outside newfd nva s t ∧ t.frame newfd = some f ∧
      (t.frame nva = s.frame ova ↔ s.frame ova ≠ none ∨ s.frame nva = none) := by
  refine ⟨_, dupPages_mapped h (by rw [withData_frame_ne hfd, hopen]), fun p h1 h2 => ?_,
    set_frame_self, ?_⟩
  · rw [set_frame_ne h1, withData_frame_ne h2]
  · rw [set_frame_ne hne, withData_frame_self]
    split_ifs with hnone
    · simp [hnone]
    · simp [hnone]

end DupPages

section Descriptors

variable {s s' : FdSpace} {i j : ℤ}

theorem pages_eq (hi : 0 ≤ i ∧ i < maxfd) : index2fd i = 0xD0000 + i.toNat ∧
    fd2data (index2fd i) = 0xD0000 + 32 + i.toNat ∧ fd2num (index2fd i) = i ∧ i.toNat < 32 := by
  rw [maxfd] at hi
  have hfd : index2fd i = 0xD0000 + i.toNat := by
    rw [index2fd]
    omega
  rw [fd2data, index2data, fd2num, hfd]
  omega

theorem fdLookup_eq_some {fd : ℕ} :
    s.fdLookup i = some fd ↔ (0 ≤ i ∧ i < maxfd) ∧ s.fdPage i ≠ none ∧ fd = index2fd i := by
  rw [fdLookup, fdPage, ← Option.isSome_iff_ne_none]
  split_ifs with hrange hmap
  · exact iff_of_false nofun fun h => by omega
  · rw [Option.some.injEq, eq_comm]
    exact ⟨fun h => ⟨by omega, hmap, h⟩, fun h => h.2.2⟩
  · exact iff_of_false nofun fun h => hmap h.2.1

/-- `close` takes the Fd page away, and touches nothing but the pages of its descriptor. -/
theorem close_outside (hi : 0 ≤ i ∧ i < maxfd) :
    Outside (index2fd i) (fd2data (index2fd i)) s (s.close i) ∧ (s.close i).fdPage i = none := by
  obtain ⟨hfd, -, hnum, hlt⟩ := pages_eq hi
  by_cases hopen : s.fdPage i = none
  · have hlook : s.fdLookup i = none :=
      Option.eq_none_iff_forall_not_mem.mpr fun _ h => (fdLookup_eq_some.mp h).2.1 hopen
    rw [close, hlook]
    exact ⟨.refl, hopen⟩
  · have hlook : s.fdLookup i = some (index2fd i) := fdLookup_eq_some.mpr ⟨hi, hopen, rfl⟩
    have hclose : s.close i = (s.devClose (index2fd i)).pageUnmap (index2fd i) := by
      rw [close, hlook]
      exact if_pos (by rw [hnum]; exact hlook)
    have hdev : Outside (index2fd i) (fd2data (index2fd i)) s (s.devClose (index2fd i)) := by
      rw [devClose]
      split_ifs
      · exact (Outside.refl.unmap (.inl rfl)).unmap (.inr rfl)
      · exact .refl
    rw [hclose]
    refine ⟨hdev.unmap (.inl rfl), ?_⟩
    rw [fdPage, pageUnmap, if_pos (by omega), set_frame_self]

theorem Outside.pages (h : Outside (index2fd i) (fd2data (index2fd i)) s s')
    (hi : 0 ≤ i ∧ i < maxfd)
    (hj : 0 ≤ j ∧ j < maxfd) (hne : j ≠ i) : s'.fdPage j = s.fdPage j ∧
    s'.dataPage j = s.dataPage j := by
  obtain ⟨hi1, hi2, -, hi3⟩ := pages_eq hi
  obtain ⟨hj1, hj2, -, hj3⟩ := pages_eq hj
  constructor
  · refine h _ ?_ ?_ <;> omega
  · refine h _ ?_ ?_ <;> omega

end Descriptors

/-- A page of the descriptor table: an Fd page or a data page. -/
def TablePage (p : ℕ) : Prop := 0xD0000 ≤ p ∧ p < 0xD0040

/-- What `dup` promises: the new descriptor shares the pages of the old one, or there is an error;
    the pages of the others are as before. -/
def TargetOnly (s s' : FdSpace) (oldfdnum newfdnum r : ℤ) : Prop :=
  (r = newfdnum ∧ (0 ≤ newfdnum ∧ newfdnum < maxfd) ∧ s'.fdPage oldfdnum ≠ none ∧
      s'.fdPage newfdnum = s'.fdPage oldfdnum ∧ s'.dataPage newfdnum = s'.dataPage oldfdnum ∨
    r < 0 ∧ ∀ i, 0 ≤ i ∧ i < maxfd → i ≠ newfdnum → s.fdPage i ≠ none → s'.fdPage i ≠ none) ∧
  ∀ i, 0 ≤ i ∧ i < maxfd → i ≠ newfdnum → s'.fdPage i = s.fdPage i ∧ s'.dataPage i = s.dataPage i

/-- A number below `MAXFD` gets no data page that was left behind. -/
def CleanTarget (s : FdSpace) (oldfdnum newfdnum : ℤ) : Prop :=
  s.dataPage oldfdnum ≠ none ∨ s.dataPage newfdnum = none ∨
    (s.fdPage newfdnum).bind s.dev = some .pipe

/-- A number out of range, whose pages may be pages of the table: with an error nothing is unmapped
    there; without one the number is negative, as an error is, and what is mapped there was
    there. -/
def HarmlessTarget (s : FdSpace) (ok : ℕ → Bool) (oldfdnum : ℤ) (newfd nva : ℕ) (newfdnum : ℤ) :
    Prop :=
  s.Refused ok (fd2data (index2fd oldfdnum)) newfd nva ∧
      (TablePage newfd → s.frame newfd = none) ∧ (TablePage nva → s.frame nva = none) ∨
    ¬ s.Refused ok (fd2data (index2fd oldfdnum)) newfd nva ∧ newfdnum < 0 ∧
      (TablePage newfd → s.frame newfd = s.fdPage oldfdnum) ∧
      (TablePage nva → s.dataPage oldfdnum = none ∨ s.frame nva = s.dataPage oldfdnum)

section Dup

variable {s s' : FdSpace} {ok : ℕ → Bool} {i oldfdnum newfdnum r : ℤ}

/-- The data page goes with the descriptor of a pipe only. -/
theorem close_dataPage (hi : 0 ≤ i ∧ i < maxfd) : (s.close i).dataPage i = none ↔
    s.dataPage i = none ∨ (s.fdPage i).bind s.dev = some .pipe := by
  obtain ⟨hfd, hdata, hnum, hlt⟩ := pages_eq hi
  by_cases hopen : s.fdPage i = none
  · have hlook : s.fdLookup i = none :=
      Option.eq_none_iff_forall_not_mem.mpr fun _ h => (fdLookup_eq_some.mp h).2.1 hopen
    rw [close, hlook, hopen]
    simp
  · have hlook : s.fdLookup i = some (index2fd i) := fdLookup_eq_some.mpr ⟨hi, hopen, rfl⟩
    have hclose : s.close i = (s.devClose (index2fd i)).pageUnmap (index2fd i) := by
      rw [close, hlook]
      exact if_pos (by rw [hnum]; exact hlook)
    rw [hclose, dataPage, unmap_frame, if_neg (by omega), devClose]
    split_ifs with hpipe
    · rw [unmap_frame, if_pos (by omega)]
      exact iff_of_true rfl (.inr hpipe)
    · exact ⟨.inl, fun h => h.resolve_right hpipe⟩

/-- Of an error only the pages of the others matter. -/
theorem targetOnly_of_neg (hneg : r < 0)
    (h : ∀ i, 0 ≤ i ∧ i < maxfd → i ≠ newfdnum →
      s'.fdPage i = s.fdPage i ∧ s'.dataPage i = s.dataPage i) :
    TargetOnly s s' oldfdnum newfdnum r := by
  refine ⟨.inr ⟨hneg, fun i hi hne hopen => ?_⟩, h⟩
  rwa [(h i hi hne).1]

theorem dup_targetOnly_inside (hold : 0 ≤ oldfdnum ∧ oldfdnum < maxfd)
    (hopen : s.fdPage oldfdnum ≠ none) (hnew : 0 ≤ newfdnum ∧ newfdnum < maxfd) :
    TargetOnly s (s.dup ok oldfdnum newfdnum).2 oldfdnum newfdnum (s.dup ok oldfdnum newfdnum).1 ↔
      oldfdnum = newfdnum ∨ s.Refused ok (fd2data (index2fd oldfdnum)) (index2fd newfdnum)
        (fd2data (index2fd newfdnum)) ∨ s.CleanTarget oldfdnum newfdnum := by
  obtain ⟨hi1, hi2, -, hi3⟩ := pages_eq hnew
  obtain ⟨hj1, hj2, -, hj3⟩ := pages_eq hold
  obtain ⟨hclose, hclosed⟩ := close_outside (s := s) hnew
  have hleft := close_dataPage (s := s) hnew
  rw [dup, fdLookup_eq_some.mpr ⟨hold, hopen, rfl⟩]
  dsimp only
  have hothers : ∀ {t},
      Outside (index2fd newfdnum) (fd2data (index2fd newfdnum)) (s.close newfdnum) t →
      ∀ i, 0 ≤ i ∧ i < maxfd → i ≠ newfdnum →
        t.fdPage i = s.fdPage i ∧ t.dataPage i = s.dataPage i :=
    fun ht i hi hne =>
      Outside.pages (fun p h1 h2 => (ht p h1 h2).trans (hclose p h1 h2)) hnew hi hne
  by_cases heq : oldfdnum = newfdnum
  · have hnone : ((s.close newfdnum).withData (fd2data (index2fd oldfdnum))
        (fd2data (index2fd newfdnum))).frame (index2fd oldfdnum) = none := by
      rw [heq, withData_frame_ne (by omega)]
      exact hclosed
    obtain ⟨r, t, hdup, hneg, hout, -⟩ := dupPages_fails (index2fd oldfdnum) newfdnum
      (show (s.close newfdnum).Refused ok _ (index2fd newfdnum) _ ∨ _ from .inr hnone)
    rw [hdup]
    exact iff_of_true (targetOnly_of_neg hneg (hothers hout)) (.inl heq)
  obtain ⟨hfd, hdata⟩ := hothers .refl oldfdnum hold heq
  have hrefused : (s.close newfdnum).Refused ok (fd2data (index2fd oldfdnum)) (index2fd newfdnum)
      (fd2data (index2fd newfdnum)) ↔ s.Refused ok (fd2data (index2fd oldfdnum)) (index2fd newfdnum)
      (fd2data (index2fd newfdnum)) := by
    rw [dataPage, dataPage] at hdata
    rw [Refused, Refused, hdata]
  by_cases href : s.Refused ok (fd2data (index2fd oldfdnum)) (index2fd newfdnum)
      (fd2data (index2fd newfdnum))
  · obtain ⟨r, t, hdup, hneg, hout, -⟩ := dupPages_fails (index2fd oldfdnum) newfdnum
      (.inl (hrefused.mpr href))
    rw [hdup]
    exact iff_of_true (targetOnly_of_neg hneg (hothers hout)) (.inr (.inl href))
  · obtain ⟨f, hf⟩ := Option.ne_none_iff_exists'.mp hopen
    obtain ⟨t, hdup, hout, hshare, hpages⟩ := dupPages_shares (n := newfdnum)
      (fun h => href (hrefused.mp h)) (hfd.trans hf) (by omega) (by omega)
    obtain ⟨hfd', hdata'⟩ := hothers hout oldfdnum hold heq
    have hclean : t.dataPage newfdnum = t.dataPage oldfdnum ↔ s.CleanTarget oldfdnum newfdnum := by
      rw [hdata', ← hdata, CleanTarget, ← hdata, ← hleft]
      exact hpages
    rw [hdup, or_iff_right heq, or_iff_right href, ← hclean]
    constructor
    · rintro ⟨⟨-, -, -, -, h⟩ | ⟨hneg, -⟩, -⟩
      · exact h
      · exact absurd hneg (by omega)
    · intro h
      refine ⟨.inl ⟨rfl, hnew, ?_, ?_, h⟩, hothers hout⟩
      · rw [hfd', hf]
        nofun
      · rw [hfd', hf]
        exact hshare

/-- With a number out of range there is no target: no page of the table may change. -/
theorem targetOnly_outside (hnew : ¬ (0 ≤ newfdnum ∧ newfdnum < maxfd)) :
    TargetOnly s s' oldfdnum newfdnum r ↔ r < 0 ∧ ∀ p, TablePage p → s'.frame p = s.frame p := by
  constructor
  · rintro ⟨⟨-, h, -⟩ | ⟨hneg, -⟩, hsame⟩
    · exact absurd h hnew
    · refine ⟨hneg, fun p hp => ?_⟩
      rw [TablePage] at hp
      by_cases hfd : p < 0xD0020
      · have hi : 0 ≤ ((p - 0xD0000 : ℕ) : ℤ) ∧ ((p - 0xD0000 : ℕ) : ℤ) < maxfd := by
          rw [maxfd]
          omega
        have hpage : index2fd ((p - 0xD0000 : ℕ) : ℤ) = p := by
          rw [(pages_eq hi).1]
          omega
        have := (hsame _ hi fun h => hnew (h ▸ hi)).1
        rwa [fdPage, fdPage, hpage] at this
      · have hi : 0 ≤ ((p - 0xD0020 : ℕ) : ℤ) ∧ ((p - 0xD0020 : ℕ) : ℤ) < maxfd := by
          rw [maxfd]
          omega
        have hpage : fd2data (index2fd ((p - 0xD0020 : ℕ) : ℤ)) = p := by
          rw [(pages_eq hi).2.1]
          omega
        have := (hsame _ hi fun h => hnew (h ▸ hi)).2
        rwa [dataPage, dataPage, hpage] at this
  · rintro ⟨hneg, hsame⟩
    refine targetOnly_of_neg hneg fun i hi _ => ?_
    obtain ⟨h1, h2, -, h3⟩ := pages_eq hi
    exact ⟨hsame _ (by rw [TablePage]; omega), hsame _ (by rw [TablePage]; omega)⟩

theorem dup_targetOnly_outside (hold : 0 ≤ oldfdnum ∧ oldfdnum < maxfd)
    (hopen : s.fdPage oldfdnum ≠ none) (hnew : ¬ (0 ≤ newfdnum ∧ newfdnum < maxfd)) :
    TargetOnly s (s.dup ok oldfdnum newfdnum).2 oldfdnum newfdnum (s.dup ok oldfdnum newfdnum).1 ↔
      s.HarmlessTarget ok oldfdnum (index2fd newfdnum) (fd2data (index2fd newfdnum)) newfdnum := by
  have hclose : s.close newfdnum = s := by
    rw [close, fdLookup, if_pos (by omega)]
  have hne : fd2data (index2fd newfdnum) ≠ index2fd newfdnum := by
    rw [fd2data, index2data, fd2num]
    omega
  have hbelow : ∀ {p}, TablePage p → p < 0xeec00 := fun h => h.2.trans (by decide)
  rw [dup, fdLookup_eq_some.mpr ⟨hold, hopen, rfl⟩, hclose, targetOnly_outside hnew, HarmlessTarget]
  dsimp only
  generalize index2fd newfdnum = newfd at *
  generalize fd2data newfd = nva at *
  by_cases href : s.Refused ok (fd2data (index2fd oldfdnum)) newfd nva
  · obtain ⟨r, t, hdup, hneg, hout, hnone⟩ := dupPages_fails (index2fd oldfdnum) newfdnum
      (.inl href)
    rw [hdup, or_iff_left fun h => h.1 href, and_iff_right hneg, and_iff_right href]
    refine ⟨fun h => ⟨fun hp => ?_, fun hp => ?_⟩, fun ⟨h1, h2⟩ p hp => ?_⟩
    · rw [← h _ hp, hnone _ (hbelow hp) (.inl rfl)]
    · rw [← h _ hp, hnone _ (hbelow hp) (.inr rfl)]
    · by_cases hp1 : p = newfd
      · rw [hnone _ (hbelow hp) (.inl hp1), hp1, h1 (hp1 ▸ hp)]
      by_cases hp2 : p = nva
      · rw [hnone _ (hbelow hp) (.inr hp2), hp2, h2 (hp2 ▸ hp)]
      exact hout p hp1 hp2
  · -- the source of the second mapping is there, even if the first one replaced it
    have hthere : (s.withData (fd2data (index2fd oldfdnum)) nva).frame (index2fd oldfdnum) ≠ none :=
      withData_open hopen
    obtain ⟨f, hf⟩ := Option.ne_none_iff_exists'.mp hthere
    rw [dupPages_mapped href hf, or_iff_right fun h => href h.1, and_iff_right href]
    have hsame (h : TablePage nva → s.dataPage oldfdnum = none ∨ s.frame nva = s.dataPage oldfdnum)
        (p : ℕ) (hp : TablePage p) :
        (s.withData (fd2data (index2fd oldfdnum)) nva).frame p = s.frame p := by
      by_cases heq : p = nva
      · rw [heq, withData_frame_self]
        split_ifs with hnone
        · rfl
        · exact ((h (heq ▸ hp)).resolve_left hnone).symm
      · exact withData_frame_ne heq
    have hold' : TablePage (index2fd oldfdnum) := by
      obtain ⟨h1, -, -, h3⟩ := pages_eq hold
      rw [TablePage]
      omega
    refine and_congr_right fun _ => ⟨fun h => ?_, fun ⟨h1, h2⟩ p hp => ?_⟩
    · have hdata : TablePage nva → s.dataPage oldfdnum = none ∨
        s.frame nva = s.dataPage oldfdnum := by
        intro hp
        have hnva := h _ hp
        rw [set_frame_ne hne, withData_frame_self] at hnva
        split_ifs at hnva with hnone
        · exact .inl hnone
        · exact .inr hnva.symm
      refine ⟨fun hp => ?_, hdata⟩
      rw [fdPage, ← hsame hdata _ hold', hf, ← h _ hp, set_frame_self]
    · by_cases heq : p = newfd
      · rw [heq, set_frame_self, h1 (heq ▸ hp), fdPage, ← hsame h2 _ hold', hf]
      · rw [set_frame_ne heq, hsame h2 p hp]

end Dup

end FdSpace

open FdSpace

/-- **`dup` affects its target only** exactly if the old descriptor is not open or is the new one,
    or the new number is in range and gets no stale data page, or it is out of range and happens to
    do no harm. -/
theorem dup_affects_target {s : FdSpace} {ok : ℕ → Bool} {oldfdnum newfdnum : ℤ} :
    TargetOnly s (s.dup ok oldfdnum newfdnum).2 oldfdnum newfdnum (s.dup ok oldfdnum newfdnum).1 ↔
      s.fdLookup oldfdnum = none ∨ oldfdnum = newfdnum ∨
      (0 ≤ newfdnum ∧ newfdnum < maxfd) ∧ (s.Refused ok (fd2data (index2fd oldfdnum))
        (index2fd newfdnum) (fd2data (index2fd newfdnum)) ∨ s.CleanTarget oldfdnum newfdnum) ∨
      ¬ (0 ≤ newfdnum ∧ newfdnum < maxfd) ∧
        s.HarmlessTarget ok oldfdnum (index2fd newfdnum) (fd2data (index2fd newfdnum))
        newfdnum := by
  cases hlook : s.fdLookup oldfdnum with
  | none =>
    refine iff_of_true ?_ (.inl rfl)
    rw [dup, hlook]
    exact targetOnly_of_neg (show -eInval < 0 by decide) fun _ _ _ => ⟨rfl, rfl⟩
  | some fd =>
    obtain ⟨hold, hopen, -⟩ := fdLookup_eq_some.mp hlook
    by_cases hnew : 0 ≤ newfdnum ∧ newfdnum < maxfd
    · rw [dup_targetOnly_inside hold hopen hnew]
      simp [hnew]
    · have hne : oldfdnum ≠ newfdnum := fun h => hnew (h ▸ hold)
      rw [dup_targetOnly_outside hold hopen hnew]
      simp [hnew, hne]

/-- Descriptor 0 is a pipe, with its data page at frame 2. -/
def onePipe : FdSpace :=
  ⟨fun p => if p = 0xD0000 then some 1 else if p = 0xD0020 then some 2 else none,
    fun _ => some .pipe⟩

/-- `dup(0, 32)` succeeds, and the data page of descriptor 0 is its Fd page. -/
theorem dup_overlaps_data : onePipe.dataPage 0 = some 2 ∧
    (onePipe.dup (fun _ => true) 0 32).1 = 32 ∧
    (onePipe.dup (fun _ => true) 0 32).2.dataPage 0 = some 1 := by
  decide

end LinuxStudy.User
