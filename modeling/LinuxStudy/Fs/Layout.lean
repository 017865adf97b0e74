import LinuxStudy.Fs.BlockCache
import LinuxStudy.Fs.File

/-!
# What the procedures of `fs/fs.c` do to the disk

The file system as it is laid out in the bytes the server sees, and the few kinds of change
that the procedures make to it, one label each. A procedure that returns has made a sequence
of such changes; what they preserve it preserves.
-/

namespace LinuxStudy.Fs

open Jos
open Proc (bind_eq_some get_eq_some pure_eq_some when_eq_some)

/-! ### Layout -/

/-- The file system fits into the disk map, as `check_super` makes sure. -/
def Sized (v : ByteMem) : Prop := (v.word sNblocks).toNat ≤ disksize / blksize

/-- `block_is_free` returns 1. -/
def IsFree (v : ByteMem) (b : Word) : Prop :=
  b < v.word sNblocks ∧ has (v.word (bitmapAddr b)) (bitmapBit b)

instance (v : ByteMem) (b : Word) : Decidable (IsFree v b) := inferInstanceAs (Decidable (_ ∧ _))

/-- The bitmap with a block marked as in use. -/
def takeBlock (v : ByteMem) (b : Word) : ByteMem :=
  v.putWord (bitmapAddr b) (v.word (bitmapAddr b) &&& ~~~bitmapBit b)

/-- The bitmap with a block marked as free. -/
def giveBlock (v : ByteMem) (b : Word) : ByteMem :=
  v.putWord (bitmapAddr b) (v.word (bitmapAddr b) ||| bitmapBit b)

/-- The address of the number of block `n` of a file. -/
def slotAddr (v : ByteMem) (f n : ℕ) : ℕ :=
  if n < ndirect then fDirect f n else blkaddr (v.word (fIndirect f)) + 4 * (n - ndirect)

/-- The file has a place for the number of block `n`. -/
def Reaches (v : ByteMem) (f n : ℕ) : Prop :=
  n < ndirect + nindirect ∧
    (n < ndirect ∨ v.word (fIndirect f) ≠ 0#32 ∧ v.word (fIndirect f) < v.word sNblocks)

/-- The range lies outside the disk map. -/
def OffMap (a n : ℕ) : Prop := a + n ≤ diskmap ∨ diskmap + disksize ≤ a

/-- The changes. -/
inductive Edit
  /-- Bytes outside the disk map. -/
  | ram (a n : ℕ)
  /-- Block `b` becomes the indirect block of `f`. -/
  | indirect (f : ℕ) (b : Word)
  /-- Block `b` becomes block `n` of `f`. -/
  | data (f n : ℕ) (b : Word)
  /-- Block `n` of `f` is freed. -/
  | dropData (f n : ℕ)
  /-- The indirect block of `f` is freed. -/
  | dropIndirect (f : ℕ)
  | size (f : ℕ) (x : Word)
  /-- Bytes of block `n` of `f`. -/
  | write (f n : ℕ)
  /-- Entry `j` of block `n` of `d` gets a name. -/
  | name (d n j : ℕ)

/-- What each change needs and what it leaves. -/
inductive Edits (v : ByteMem) : Edit → ByteMem → Prop
  | ram {a n : ℕ} (g : ℕ → Byte) : OffMap a n → Edits v (.ram a n) (v.overwrite a n g)
  | indirect {f : ℕ} {b : Word} : v.word (fIndirect f) = 0#32 → b ≠ 0#32 → IsFree v b →
      Edits v (.indirect f b)
        (((takeBlock v b).putWord (fIndirect f) b).overwrite (blkaddr b) blksize fun _ => 0#8)
  | data {f n : ℕ} {b : Word} : Reaches v f n → v.word (slotAddr v f n) = 0#32 → b ≠ 0#32 →
      IsFree v b → Edits v (.data f n b) ((takeBlock v b).putWord (slotAddr v f n) b)
  | dropData {f n : ℕ} : Reaches v f n → v.word (slotAddr v f n) ≠ 0#32 →
      Edits v (.dropData f n)
        ((giveBlock v (v.word (slotAddr v f n))).putWord (slotAddr v f n) 0#32)
  | dropIndirect {f : ℕ} : v.word (fIndirect f) ≠ 0#32 →
      Edits v (.dropIndirect f)
        ((giveBlock v (v.word (fIndirect f))).putWord (fIndirect f) 0#32)
  | size {f : ℕ} {x : Word} : Edits v (.size f x) (v.putWord (fSize f) x)
  | write {f n a m : ℕ} (g : ℕ → Byte) : Reaches v f n → v.word (slotAddr v f n) ≠ 0#32 →
      v.word (slotAddr v f n) < v.word sNblocks → blkaddr (v.word (slotAddr v f n)) ≤ a →
      a + m ≤ blkaddr (v.word (slotAddr v f n)) + blksize →
      Edits v (.write f n) (v.overwrite a m g)
  | name {d n j m : ℕ} (g : ℕ → Byte) : Reaches v d n → v.word (slotAddr v d n) ≠ 0#32 →
      v.word (slotAddr v d n) < v.word sNblocks → j < blkfiles → m ≤ maxnamelen →
      Edits v (.name d n j) (v.overwrite (blkaddr (v.word (slotAddr v d n)) + 256 * j) m g)

/-- The changes of kind `K` preserve `I`, and `I` keeps the size of the file system. -/
structure Closed (K : Edit → Prop) (I : ByteMem → Prop) : Prop where
  sized : ∀ v, I v → Sized v
  step : ∀ v e v', I v → K e → Edits v e v' → I v'

theorem Closed.run {K : Edit → Prop} {I : ByteMem → Prop} (hc : Closed K I) {v v' : ByteMem}
    {es : List Edit} (hrun : Run Edits v es v') (hK : ∀ e ∈ es, K e) (h0 : I v) : I v' := by
  induction hrun with
  | nil => exact h0
  | snoc hrun hs ih =>
    have hI := ih fun e he => hK e (List.mem_append_left _ he)
    exact hc.step _ _ _ hI (hK _ (by simp)) hs

/-- From `s`, changes of kind `K` have been made, and nothing has left the cache. -/
structure Made (K : Edit → Prop) (s s' : Server) : Prop where
  shows : Shows s'.view s s'
  edits : ∃ es, Run Edits s.view es s'.view ∧ ∀ e ∈ es, K e

section Made

variable {K K' : Edit → Prop} {I : ByteMem → Prop} {s s' s'' : Server} {e : Edit}

theorem Made.of_shows (h : Shows s.view s s') : Made K s s' := by
  refine ⟨by rw [h.view]; exact h, [], ?_, nofun⟩
  rw [h.view]
  exact .nil _

theorem Made.of_fills (h : Fills s s') : Made K s s' := .of_shows h.shows

theorem Made.of_edit {v' : ByteMem} (h : Shows v' s s') (he : Edits s.view e v') (hK : K e) :
    Made K s s' := by
  refine ⟨by rw [h.view]; exact h, [e], ?_, by simpa using hK⟩
  rw [h.view]
  exact .single he

theorem Made.trans (h : Made K s s') (h' : Made K s' s'') : Made K s s'' := by
  obtain ⟨es, hrun, hes⟩ := h.edits
  obtain ⟨es', hrun', hes'⟩ := h'.edits
  refine ⟨h.shows.trans h'.shows, es ++ es', hrun.append hrun', fun e he => ?_⟩
  rcases List.mem_append.mp he with he | he
  · exact hes e he
  · exact hes' e he

theorem Made.inv (h : Made K s s') (hc : Closed K I) (h0 : I s.view) : I s'.view := by
  obtain ⟨es, hrun, hes⟩ := h.edits
  exact hc.run hrun hes h0

end Made

section Bitmap

variable {s s' : Server} {a : ℕ} {b : Word} {u : Unit}

theorem word_of_present (h : s.Present a) (ha : a % 4096 ≤ 4092) : s.mem.word a = s.view.word a :=
  ByteMem.word_congr fun _ _ _ => (Server.view_of_present (present_of_page (by omega) h)).symm

theorem bitmapAddr_mod (b : Word) : bitmapAddr b % 4096 ≤ 4092 := by
  simp only [bitmapAddr, diskmap, blksize]
  omega

theorem blockIsFree_cases {r : Bool} (h : blockIsFree b s = some (r, s')) :
    Fills s s' ∧ (r = true ↔ s.super = true ∧ IsFree s.view b) := by
  refine ⟨blockIsFreeBy_fills bcPgfault_fills h, ?_⟩
  rw [blockIsFree, blockIsFreeBy, bind_eq_some] at h
  obtain ⟨_, _, hget, h⟩ := h
  cases hget
  split at h
  · next hsuper =>
    cases h
    simp [hsuper]
  · next hsuper =>
    obtain ⟨_, s1, htouch, h⟩ := bind_eq_some.mp h
    obtain ⟨hfill1, hpresent1⟩ := touch_fills htouch
    rw [Proc.bind_of_eq Proc.get_apply] at h
    rw [word_of_present hpresent1 (by decide), hfill1.view] at h
    split at h
    · next hlt =>
      cases h
      simp [IsFree, hlt]
    · next hlt =>
      obtain ⟨_, s2, htouch2, h⟩ := bind_eq_some.mp h
      obtain ⟨hfill2, hpresent2⟩ := touch_fills htouch2
      cases h
      rw [word_of_present hpresent2 (bitmapAddr_mod b), hfill2.view, hfill1.view]
      simp only [decide_eq_true_eq, IsFree, hsuper, not_not.mp hlt, true_and]

theorem freeBlock_shows (h : freeBlock b s = some (u, s')) :
    b ≠ 0#32 ∧ Shows (giveBlock s.view b) s s' := by
  simp only [freeBlock, bind_eq_some, Proc.require_eq_some] at h
  obtain ⟨_, _, ⟨hb, rfl⟩, w, s1, hload, h⟩ := h
  obtain ⟨hfill, rfl⟩ := loadw_cases hload
  have hstore := storew_shows h
  rw [hfill.view] at hstore
  exact ⟨hb, hfill.shows.trans hstore⟩

theorem IsFree.toInt_nonneg {v : ByteMem} (h : IsFree v b) (hs : Sized v) : ¬ b.toInt < 0 := by
  have hlt := h.1
  simp only [Sized, disksize, blksize] at hs
  rw [BitVec.lt_def] at hlt
  rw [BitVec.toInt_eq_toNat_of_lt (by omega)]
  omega

variable {r : Int} {i : ℕ} {t t' : Server}

theorem allocStep_cases {r : Option Int} (h : allocStep i s = some (r, s')) :
    (r = none ∧ Shows s.view s s' ∧ BitVec.ofNat 32 i < s.view.word sNblocks) ∨
    (r = some (-eNoDisk) ∧ Shows s.view s s') ∨
    (r = some (BitVec.ofNat 32 i).toInt ∧ s.super = true ∧ IsFree s.view (BitVec.ofNat 32 i) ∧
      Shows (takeBlock s.view (BitVec.ofNat 32 i)) s s') := by
  obtain ⟨w, s1, hload, h⟩ := bind_eq_some.mp h
  obtain ⟨hfill1, rfl⟩ := loadw_cases hload
  split at h
  · next hlt =>
    obtain ⟨free, s2, hfree, h⟩ := bind_eq_some.mp h
    obtain ⟨hfill2, hiff⟩ := blockIsFree_cases hfree
    rw [hfill1.super, hfill1.view] at hiff
    have hfill := hfill1.trans hfill2
    split at h
    · next htrue =>
      simp only [bind_eq_some, pure_eq_some] at h
      obtain ⟨w, s3, hload, _, s4, hstore, _, s5, hflush, rfl, rfl⟩ := h
      obtain ⟨hfill3, rfl⟩ := loadw_cases hload
      have hshows := storew_shows hstore
      obtain ⟨_, hflush, _, _⟩ := flushBlock_shows hflush
      rw [hfill3.view, hfill.view] at hshows
      rw [hshows.view] at hflush
      obtain ⟨hsuper, hisfree⟩ := hiff.mp htrue
      exact .inr (.inr ⟨rfl, hsuper, hisfree,
        ((hfill.trans hfill3).shows.trans hshows).trans hflush⟩)
    · cases h
      exact .inl ⟨rfl, hfill.shows, hlt⟩
  · cases h
    exact .inr (.inl ⟨rfl, hfill1.shows⟩)

/-- The loop of `alloc_block` before it looks at block `i`. -/
structure Allocating (s : Server) (i : ℕ) (t : Server) : Prop where
  shows : Shows s.view s t
  one_le : 1 ≤ i
  lt : i < 2 ^ 32

/-- A result of `alloc_block`: a block that was free, or an error and no change. -/
def Allocated (s : Server) (r : Int) (t : Server) : Prop :=
  (r = -eNoDisk ∧ Shows s.view s t) ∨ ∃ b : Word, r = b.toInt ∧ b ≠ 0#32 ∧ IsFree s.view b ∧
    Shows (takeBlock s.view b) s t

theorem Allocating.next (h : Allocating s i t)
    (hstep : allocStep i t = some (none, t')) : Allocating s (i + 1) t' := by
  rcases allocStep_cases hstep with ⟨_, hshows, hlt⟩ | ⟨hr, _⟩ | ⟨hr, _⟩
  · rw [h.shows.view] at hshows
    rw [BitVec.lt_def, BitVec.toNat_ofNat, Nat.mod_eq_of_lt h.lt] at hlt
    exact ⟨h.shows.trans hshows, by omega, by omega⟩
  · cases hr
  · cases hr

theorem Allocating.done (h : Allocating s i t)
    (hstep : allocStep i t = some (some r, t')) : Allocated s r t' := by
  rcases allocStep_cases hstep with ⟨hr, _⟩ | ⟨hr, hshows⟩ | ⟨hr, _, hfree, hshows⟩
  · cases hr
  · cases hr
    rw [h.shows.view] at hshows
    exact .inl ⟨rfl, h.shows.trans hshows⟩
  · cases hr
    rw [h.shows.view] at hfree hshows
    refine .inr ⟨_, rfl, fun h0 => ?_, hfree, h.shows.trans hshows⟩
    have h0' := congrArg BitVec.toNat h0
    rw [BitVec.toNat_ofNat, Nat.mod_eq_of_lt h.lt] at h0'
    have := h.one_le
    simp at h0'
    omega

theorem allocBlock_cases (h : allocBlock s = some (r, s')) : Allocated s r s' := by
  obtain ⟨o, s1, hloop, h⟩ := bind_eq_some.mp h
  rcases Proc.search_rule (Allocating s) (Allocated s) (fun _ _ _ _ hI hstep => hI.next hstep)
      (fun _ _ _ _ _ hI hstep => hI.done hstep) hloop ⟨Shows.refl s, le_refl 1, by decide⟩ with
    ⟨rfl, _⟩ | ⟨r', rfl, hr⟩
  · exact absurd h Proc.fail_eq_some
  · cases h
    exact hr

end Bitmap

section Blocks

variable {K : Edit → Prop} {I : ByteMem → Prop} {s s' : Server} {f : ℕ} {n : Word} {u : Unit}

/-- The block number of `f` that is stored last is the one read next. -/
def Anchored (I : ByteMem → Prop) (f : ℕ) : Prop :=
  ∀ v n b v', I v → Edits v (.data f n b) v' →
    v'.word (fIndirect f) = v.word (fIndirect f) ∧ v'.word sNblocks = v.word sNblocks

variable {r : Except Int ℕ} {alloc : Bool} {v v' : ByteMem} {i k : ℕ} {e : Int} {newsize : Word}

theorem indirectSlot_cases (hsuper : s.super = true) (hn : n.toNat < ndirect + nindirect)
    (hn' : ndirect ≤ n.toNat) (h : indirectSlot f n s = some (r, s')) :
    Fills s s' ∧ Reaches s.view f n.toNat ∧ r = .ok (slotAddr s.view f n.toNat) := by
  simp only [indirectSlot, bind_eq_some, pure_eq_some] at h
  obtain ⟨w, s1, hload, addr, s2, haddr, rfl, rfl⟩ := h
  obtain ⟨hfill1, rfl⟩ := loadw_cases hload
  obtain ⟨hfill2, rfl, h0, hlt⟩ := diskaddr_cases haddr
  have hlt' := hlt (hfill1.super.trans hsuper)
  rw [hfill1.view] at hlt'
  refine ⟨hfill1.trans hfill2, ⟨hn, .inr ⟨h0, hlt'⟩⟩, ?_⟩
  rw [slotAddr, if_neg (by omega)]

/-- A new indirect block; when the disk is full the server panics. -/
theorem allocIndirect_cases (hsuper : s.super = true) (hsized : Sized s.view) (hf : sRoot ≤ f)
    (h0 : s.view.word (fIndirect f) = 0#32) (h : allocIndirect f s = some (u, s')) :
    ∃ b v', Edits s.view (.indirect f b) v' ∧ Shows v' s s' := by
  simp only [allocIndirect, bind_eq_some] at h
  obtain ⟨r, s1, halloc, _, s2, hstore, w, s3, hload, a, s4, haddr, _, s5, hset, w', s6,
    hload', a', s7, haddr', hflush⟩ := h
  obtain ⟨hfill3, rfl⟩ := loadw_cases hload
  obtain ⟨hfill4, rfl, _, hlt⟩ := diskaddr_cases haddr
  obtain ⟨hfill6, rfl⟩ := loadw_cases hload'
  obtain ⟨hfill7, rfl, _, _⟩ := diskaddr_cases haddr'
  have hset := store_shows hset
  obtain ⟨_, hflush, _, _⟩ := flushBlock_shows hflush
  have hstore := storew_shows hstore
  rw [hstore.view, ByteMem.word_putWord_self] at hlt hset
  have hlt' := hlt (by rw [hfill3.super, hstore.super, (by
    rcases allocBlock_cases halloc with ⟨_, hs⟩ | ⟨_, _, _, _, hs⟩
    · exact hs.super
    · exact hs.super : s1.super = s.super), hsuper])
  rw [hfill3.view, hstore.view, ByteMem.word_putWord (by
    simp only [sNblocks, sRoot, fIndirect, diskmap, blksize] at *; omega)] at hlt'
  rw [hfill4.view, hfill3.view, hstore.view] at hset
  rw [hfill7.view, hfill6.view, hset.view] at hflush
  have hrest : Shows _ s2 s' := ((((hfill3.trans hfill4).shows.trans hset).trans
    (hfill6.trans hfill7).shows).trans hflush)
  rcases allocBlock_cases halloc with ⟨rfl, hshows⟩ | ⟨b, rfl, hb, hfree, hshows⟩
  · rw [hshows.view] at hlt'
    exact absurd hlt' (by
      rw [BitVec.lt_def]
      simp only [Sized, disksize, blksize] at hsized
      have : (BitVec.ofInt 32 (-eNoDisk)).toNat = 4294967287 := by decide
      omega)
  · rw [hshows.view, BitVec.ofInt_toInt] at hrest
    exact ⟨b, _, .indirect h0 hb hfree, (hshows.trans hstore).trans hrest⟩

/-- A result of `file_block_walk`. -/
inductive Walked (f : ℕ) (n : Word) (alloc : Bool) (s : Server) : Except Int ℕ → Server → Prop
  | far (hn : ndirect + nindirect ≤ n.toNat) : Walked f n alloc s (.error (-eInval)) s
  | missing {t : Server} (hno : alloc = false) (hn : ndirect ≤ n.toNat)
      (h0 : s.view.word (fIndirect f) = 0#32) (hfill : Fills s t) :
      Walked f n alloc s (.error (-eNotFound)) t
  | there {t : Server} (hfill : Fills s t) (hreach : Reaches s.view f n.toNat) :
      Walked f n alloc s (.ok (slotAddr s.view f n.toNat)) t
  | made {t : Server} {b : Word} {v' : ByteMem} (hyes : alloc = true) (hn : ndirect ≤ n.toNat)
      (hedit : Edits s.view (.indirect f b) v') (hshows : Shows v' s t)
      (hreach : Reaches v' f n.toNat) : Walked f n alloc s (.ok (slotAddr v' f n.toNat)) t

theorem fileBlockWalk_walked (hsuper : s.super = true)
    (hsized : Sized s.view) (hf : sRoot ≤ f) (h : fileBlockWalk f n alloc s = some (r, s')) :
    Walked f n alloc s r s' := by
  rw [fileBlockWalk] at h
  split at h
  · next hfar =>
    cases h
    exact .far hfar
  split at h
  · next hlt hdirect =>
    cases h
    have hslot : slotAddr s.view f n.toNat = fDirect f n.toNat := if_pos hdirect
    rw [← hslot]
    exact .there (.refl s) ⟨by omega, .inl hdirect⟩
  next hlt hdirect =>
  obtain ⟨w, s1, hload, h⟩ := bind_eq_some.mp h
  obtain ⟨hfill1, rfl⟩ := loadw_cases hload
  have hsuper1 := hfill1.super.trans hsuper
  split at h
  · next hzero =>
    split at h
    · next hno =>
      cases h
      exact .missing hno (by omega) hzero hfill1
    · next hyes =>
      obtain ⟨_, s2, hnew, h⟩ := bind_eq_some.mp h
      obtain ⟨b, v', hedit, hshows⟩ :=
        allocIndirect_cases hsuper1 (by rw [hfill1.view]; exact hsized) hf
        (by rw [hfill1.view]; exact hzero) hnew
      obtain ⟨hfill2, hreach, rfl⟩ := indirectSlot_cases (hshows.super.trans hsuper1) (by omega)
        (by omega) h
      have hrest := hfill2.shows
      rw [hshows.view] at hreach hrest ⊢
      rw [hfill1.view] at hedit
      exact .made (Bool.not_eq_false _ ▸ hyes) (by omega)
        hedit ((hfill1.shows.trans hshows).trans hrest) hreach
  · obtain ⟨hfill2, hreach, rfl⟩ := indirectSlot_cases hsuper1 (by omega) (by omega) h
    rw [hfill1.view] at hreach ⊢
    exact .there (hfill1.trans hfill2) hreach

theorem Walked.slot {slot : ℕ} (h : Walked f n alloc s (.ok slot) s') :
    Reaches s'.view f n.toNat ∧ slot = slotAddr s'.view f n.toNat := by
  cases h with
  | there hfill hreach =>
    rw [hfill.view]
    exact ⟨hreach, rfl⟩
  | made _ _ _ hshows hreach =>
    rw [hshows.view]
    exact ⟨hreach, rfl⟩

theorem Walked.shows (h : Walked f n false s r s') : Shows s.view s s' := by
  cases h with
  | far => exact .refl s
  | missing _ _ _ hfill => exact hfill.shows
  | there hfill => exact hfill.shows
  | made hyes => cases hyes

theorem Walked.to_made (hK : ∀ b, ndirect ≤ n.toNat → K (.indirect f b))
    (h : Walked f n alloc s r s') : Made K s s' := by
  cases h with
  | far => exact .of_fills (.refl s)
  | missing _ _ _ hfill => exact .of_fills hfill
  | there hfill => exact .of_fills hfill
  | made _ hn hedit hshows => exact .of_edit hshows hedit (hK _ hn)

theorem slotAddr_congr (h : v'.word (fIndirect f) = v.word (fIndirect f)) :
    slotAddr v' f i = slotAddr v f i := by
  rw [slotAddr, slotAddr, h]

theorem reaches_congr (h : v'.word (fIndirect f) = v.word (fIndirect f))
    (hn : v'.word sNblocks = v.word sNblocks) : Reaches v' f i ↔ Reaches v f i := by
  rw [Reaches, Reaches, h, hn]

/-- Block `n` of `f` is block `t` of the disk. -/
def HasBlock (v : ByteMem) (f n : ℕ) (t : Word) : Prop :=
  Reaches v f n ∧ v.word (slotAddr v f n) = t ∧ t ≠ 0#32 ∧ t < v.word sNblocks

/-- A result of `file_get_block`, from where the place of the block number is there: the block, an
    error for want of one, or a new one. -/
inductive Got (f : ℕ) (n : Word) (s : Server) : Except Int ℕ → Server → Prop
  | there {t : Server} (hne : s.view.word (slotAddr s.view f n.toNat) ≠ 0#32)
      (hlt : s.view.word (slotAddr s.view f n.toNat) < s.view.word sNblocks) (hfill : Fills s t) :
      Got f n s (.ok (blkaddr (s.view.word (slotAddr s.view f n.toNat)))) t
  | full {s₁ t : Server} (hzero : s.view.word (slotAddr s.view f n.toNat) = 0#32)
      (hfill : Fills s s₁)
      (halloc : allocBlock s₁ = some (-eNoDisk, t)) (hshows : Shows s.view s t) :
      Got f n s (.error (-eNoDisk)) t
  | taken {t : Server} {b : Word} {v' : ByteMem} (hedit : Edits s.view (.data f n.toNat b) v')
      (hshows : Shows v' s t) : Got f n s (.ok (blkaddr b)) t

theorem fileGetBlock_got (hsuper : s.super = true) (hsized : Sized s.view) (hf : sRoot ≤ f)
    (hnext : ∀ b v', ndirect ≤ n.toNat → Edits s.view (.indirect f b) v' → Sized v')
    (h : fileGetBlock f n s = some (r, s')) :
    ndirect + nindirect ≤ n.toNat ∧ r = .error (-eInval) ∧ s' = s ∨
      ∃ slot s1, Walked f n true s (.ok slot) s1 ∧ Got f n s1 r s' := by
  obtain ⟨o, s1, hwalk, h⟩ := bind_eq_some.mp h
  have hwalk := fileBlockWalk_walked hsuper hsized hf hwalk
  cases o with
  | error e =>
    cases h
    cases hwalk with
    | far hn => exact .inl ⟨hn, rfl, rfl⟩
    | missing hno => cases hno
  | ok slot =>
    refine .inr ⟨slot, s1, hwalk, ?_⟩
    have hsized1 : Sized s1.view ∧ s1.super = true := by
      cases hwalk with
      | there hfill _ =>
        rw [hfill.view]
        exact ⟨hsized, hfill.super.trans hsuper⟩
      | made _ hn hedit hshows _ =>
        rw [hshows.view]
        exact ⟨hnext _ _ hn hedit, hshows.super.trans hsuper⟩
    obtain ⟨hreach, rfl⟩ := hwalk.slot
    obtain ⟨w, s2, hload, h⟩ := bind_eq_some.mp h
    obtain ⟨hfill2, rfl⟩ := loadw_cases hload
    split at h
    · next hzero =>
      obtain ⟨q, s3, halloc, h⟩ := bind_eq_some.mp h
      rcases allocBlock_cases halloc with ⟨rfl, hshows⟩ | ⟨b, rfl, hb, hfree, hshows⟩
      · cases h
        rw [hfill2.view] at hshows
        exact .full hzero hfill2 halloc (hfill2.shows.trans hshows)
      · rw [hfill2.view] at hfree hshows
        rw [if_neg (hfree.toInt_nonneg hsized1.1), BitVec.ofInt_toInt] at h
        simp only [bind_eq_some, pure_eq_some] at h
        obtain ⟨_, s4, hstore, w, s5, hload', blk, s6, haddr, rfl, rfl⟩ := h
        have hstore := storew_shows hstore
        obtain ⟨hfill5, rfl⟩ := loadw_cases hload'
        obtain ⟨hfill6, rfl, _⟩ := diskaddr_cases haddr
        rw [hstore.view, ByteMem.word_putWord_self] at haddr ⊢
        rw [hshows.view] at hstore
        have hrest := hstore.trans (hfill5.trans hfill6).shows
        rw [hstore.view] at hrest
        exact .taken (.data hreach hzero hb hfree) (hfill2.shows.trans (hshows.trans hrest))
    · next hne =>
      simp only [bind_eq_some, pure_eq_some] at h
      obtain ⟨w, s3, hload', blk, s4, haddr, rfl, rfl⟩ := h
      obtain ⟨hfill3, rfl⟩ := loadw_cases hload'
      obtain ⟨hfill4, rfl, _, hlt⟩ := diskaddr_cases haddr
      have hlt := hlt (hfill3.super.trans (hfill2.super.trans hsized1.2))
      rw [hfill3.view, hfill2.view] at hlt
      rw [hfill2.view]
      exact .there hne hlt (hfill2.trans (hfill3.trans hfill4))

theorem fileGetBlock_made (hc : Closed K I) (ha : Anchored I f)
    (hsuper : s.super = true) (hf : sRoot ≤ f) (h0 : I s.view)
    (hind : ∀ b, ndirect ≤ n.toNat → K (.indirect f b)) (hdata : ∀ b, K (.data f n.toNat b))
    (h : fileGetBlock f n s = some (r, s')) :
    Made K s s' ∧ ∀ blk, r = .ok blk → ∃ t, HasBlock s'.view f n.toNat t ∧ blk = blkaddr t := by
  rcases fileGetBlock_got hsuper (hc.sized _ h0) hf (fun b v' hn hedit =>
    hc.sized _ (hc.step _ _ _ h0 (hind b hn) hedit)) h with ⟨_, rfl, rfl⟩ | ⟨slot, s1, hwalk, hgot⟩
  · exact ⟨.of_fills (.refl _), nofun⟩
  have hmade := hwalk.to_made hind
  obtain ⟨hreach, _⟩ := hwalk.slot
  cases hgot with
  | there hne hlt hfill =>
    refine ⟨hmade.trans (.of_fills hfill), fun blk hr => ?_⟩
    rw [hfill.view]
    exact ⟨_, ⟨hreach, rfl, hne, hlt⟩, (Except.ok.inj hr).symm⟩
  | full _ _ _ hshows => exact ⟨hmade.trans (.of_shows hshows), nofun⟩
  | @taken _ b _ hedit hshows =>
    refine ⟨hmade.trans (.of_edit hshows hedit (hdata b)), fun blk hr => ?_⟩
    obtain ⟨hanch, hnb⟩ := ha _ _ _ _ (hmade.inv hc h0) hedit
    rw [hshows.view]
    refine ⟨b, ⟨(reaches_congr hanch hnb).mpr hreach, ?_⟩, (Except.ok.inj hr).symm⟩
    rw [slotAddr_congr hanch, hnb]
    cases hedit with
    | data _ _ hb hfree => exact ⟨ByteMem.word_putWord_self, hb, hfree.1⟩

theorem indirectSlot_ok : ¬ indirectSlot f n s = some (.error e, s') := by
  intro h
  simp only [indirectSlot, bind_eq_some, pure_eq_some] at h
  obtain ⟨_, _, _, _, _, _, hno, _⟩ := h
  cases hno

theorem fileBlockWalk_error (h : fileBlockWalk f n true s = some (.error e, s')) :
    e = -eInval ∧ ndirect + nindirect ≤ n.toNat ∧ s' = s := by
  rw [fileBlockWalk] at h
  split at h
  · next hn =>
    obtain ⟨he, rfl⟩ := pure_eq_some.mp h
    exact ⟨(Except.error.inj he).symm, hn, rfl⟩
  · split at h
    · obtain ⟨he, _⟩ := pure_eq_some.mp h
      cases he
    · obtain ⟨w, s1, _, h⟩ := bind_eq_some.mp h
      split at h
      · obtain ⟨_, _, _, h⟩ := bind_eq_some.mp h
        exact absurd h indirectSlot_ok
      · exact absurd h indirectSlot_ok

theorem fileGetBlock_error (h : fileGetBlock f n s = some (.error e, s')) :
    e = -eInval ∧ ndirect + nindirect ≤ n.toNat ∨ e = -eNoDisk := by
  obtain ⟨o, s1, hwalk, h⟩ := bind_eq_some.mp h
  cases o with
  | error e' =>
    obtain ⟨he, rfl⟩ := pure_eq_some.mp h
    obtain ⟨rfl, hn, _⟩ := fileBlockWalk_error hwalk
    exact .inl ⟨(Except.error.inj he).symm, hn⟩
  | ok slot =>
    have hno : ∀ {t t' : Server}, ¬ (do pure (Except.ok (← diskaddr (← loadw slot))) :
        FsM (Except Int ℕ)) t = some (.error e, t') := by
      intro t t' h
      simp only [bind_eq_some, pure_eq_some] at h
      obtain ⟨_, _, _, _, _, _, hno, _⟩ := h
      cases hno
    obtain ⟨w, s2, hload, h⟩ := bind_eq_some.mp h
    split at h
    · obtain ⟨r', s3, halloc, h⟩ := bind_eq_some.mp h
      split at h
      · obtain ⟨he, _⟩ := pure_eq_some.mp h
        exact .inr (Except.error.inj he).symm
      · obtain ⟨_, s4, _, h⟩ := bind_eq_some.mp h
        exact absurd h hno
    · exact absurd h hno

theorem fileFreeBlock_cases {r : Int} (hsuper : s.super = true) (hsized : Sized s.view)
    (hf : sRoot ≤ f)
    (h : fileFreeBlock f n s = some (r, s')) :
    Shows s.view s s' ∧
    (ndirect + nindirect ≤ n.toNat ∨ ndirect ≤ n.toNat ∧ s.view.word (fIndirect f) = 0#32 ∨
      Reaches s.view f n.toNat ∧ s.view.word (slotAddr s.view f n.toNat) = 0#32) ∨
    ∃ v', Edits s.view (.dropData f n.toNat) v' ∧ Shows v' s s' := by
  obtain ⟨o, s1, hwalk, h⟩ := bind_eq_some.mp h
  have hwalk := fileBlockWalk_walked hsuper hsized hf hwalk
  have hshows1 := hwalk.shows
  cases o with
  | error e =>
    cases h
    refine .inl ⟨hshows1, ?_⟩
    cases hwalk with
    | far hn => exact .inl hn
    | missing _ hn hzero => exact .inr (.inl ⟨hn, hzero⟩)
  | ok slot =>
    obtain ⟨hreach, rfl⟩ := hwalk.slot
    rw [hshows1.view] at hreach h
    simp only [bind_eq_some, pure_eq_some] at h
    obtain ⟨w, s2, hload, _, s3, hwhen, _, rfl⟩ := h
    obtain ⟨hfill2, rfl⟩ := loadw_cases hload
    have hshows2 : Shows s.view s s2 := by
      have hread := hfill2.shows
      rw [hshows1.view] at hread
      exact hshows1.trans hread
    rw [hshows1.view] at hwhen
    rcases when_eq_some.mp hwhen with ⟨hne, hwhen⟩ | ⟨hzero, rfl⟩
    · obtain ⟨_, s4, hfree, hstore⟩ := bind_eq_some.mp hwhen
      obtain ⟨_, hshows⟩ := freeBlock_shows hfree
      have hstore := storew_shows hstore
      rw [hshows2.view] at hshows
      rw [hshows.view] at hstore
      exact .inr ⟨_, .dropData hreach hne, (hshows2.trans hshows).trans hstore⟩
    · exact .inl ⟨hshows2, .inr (.inr ⟨hreach, not_not.mp hzero⟩)⟩

theorem fileFreeBlock_made {r : Int} (hsuper : s.super = true) (hsized : Sized s.view)
    (hf : sRoot ≤ f)
    (hK : K (.dropData f n.toNat)) (h : fileFreeBlock f n s = some (r, s')) : Made K s s' := by
  rcases fileFreeBlock_cases hsuper hsized hf h with ⟨hshows, _⟩ | ⟨v', he, hshows⟩
  · exact .of_shows hshows
  · exact .of_edit hshows he hK

/-- The loop of `file_truncate_blocks` frees the blocks it counts, and no others. -/
theorem truncateLoop_made (hc : Closed K I) {bno : ℕ} (hbno : bno + k ≤ 2 ^ 32)
    (hsuper : s.super = true) (hf : sRoot ≤ f) (h0 : I s.view)
    (hK : ∀ i, bno ≤ i → i < bno + k → K (.dropData f i))
    (h : truncateLoop f k bno s = some (u, s')) : Made K s s' := by
  induction k generalizing bno s with
  | zero =>
    obtain ⟨_, rfl⟩ := pure_eq_some.mp h
    exact .of_fills (.refl s)
  | succ k ih =>
    obtain ⟨r, s1, hfree, h⟩ := bind_eq_some.mp h
    have hnat : (BitVec.ofNat 32 bno).toNat = bno := by
      rw [BitVec.toNat_ofNat, Nat.mod_eq_of_lt (by omega)]
    have hmade : Made K s s1 := fileFreeBlock_made hsuper (hc.sized _ h0) hf
      (by rw [hnat]; exact hK bno (by omega) (by omega)) hfree
    exact hmade.trans (ih (by omega) (hmade.shows.super.trans hsuper) (hmade.inv hc h0)
      (fun i h1 h2 => hK i (by omega) (by omega)) h)

theorem truncateEnd_made {nblocks : ℕ} (hK : nblocks ≤ ndirect → K (.dropIndirect f))
    (h : Proc.when (nblocks ≤ ndirect ∧ s.view.word (fIndirect f) ≠ 0#32) (do
      freeBlock (s.view.word (fIndirect f))
      storew (fIndirect f) 0#32) s = some (u, s')) : Made K s s' := by
  rcases when_eq_some.mp h with ⟨⟨hle, hne⟩, h⟩ | ⟨_, rfl⟩
  · obtain ⟨_, s1, hfree, hstore⟩ := bind_eq_some.mp h
    obtain ⟨_, hshows⟩ := freeBlock_shows hfree
    have hstore := storew_shows hstore
    rw [hshows.view] at hstore
    exact .of_edit (hshows.trans hstore) (.dropIndirect hne) (hK hle)
  · exact .of_fills (.refl s)

theorem fileTruncateBlocks_made (hc : Closed K I) (hsuper : s.super = true)
    (hf : sRoot ≤ f) (h0 : I s.view)
    (hK : ∀ i, (sizeBlocks newsize).toNat ≤ i → i < (sizeBlocks (s.view.word (fSize f))).toNat →
      K (.dropData f i))
    (hK' : (sizeBlocks newsize).toNat ≤ ndirect → K (.dropIndirect f))
    (h : fileTruncateBlocks f newsize s = some (u, s')) : Made K s s' := by
  simp only [fileTruncateBlocks, bind_eq_some] at h
  obtain ⟨w, s1, hload, _, s2, hloop, p, s3, hload', hwhen⟩ := h
  obtain ⟨hfill1, rfl⟩ := loadw_cases hload
  obtain ⟨hfill3, rfl⟩ := loadw_cases hload'
  have hI1 : I s1.view := by
    rw [hfill1.view]
    exact h0
  have hmade2 := truncateLoop_made hc (by omega) (hfill1.super.trans hsuper) hf hI1
    (fun i h1 h2 => hK i h1 (by omega)) hloop
  refine ((Made.of_fills hfill1).trans hmade2).trans ((Made.of_fills hfill3).trans ?_)
  rw [← hfill3.view] at hwhen
  exact truncateEnd_made hK' hwhen

/-- `file_set_size` frees blocks beyond the new size, and stores it. -/
theorem fileSetSize_made (hc : Closed K I) {r : Int} (hsuper : s.super = true)
    (hf : sRoot ≤ f) (h0 : I s.view)
    (hK : ∀ i, newsize.toInt < (s.view.word (fSize f)).toInt → (sizeBlocks newsize).toNat ≤ i →
      i < (sizeBlocks (s.view.word (fSize f))).toNat → K (.dropData f i))
    (hK' : newsize.toInt < (s.view.word (fSize f)).toInt → (sizeBlocks newsize).toNat ≤ ndirect →
      K (.dropIndirect f))
    (hsize : K (.size f newsize)) (h : fileSetSize f newsize s = some (r, s')) :
    r = 0 ∧ Made K s s' := by
  simp only [fileSetSize, bind_eq_some, pure_eq_some] at h
  obtain ⟨w, s1, hload, _, s2, hwhen, _, s3, hstore, _, s4, hflush, rfl, rfl⟩ := h
  obtain ⟨hfill1, rfl⟩ := loadw_cases hload
  obtain ⟨_, hflush, _, _⟩ := flushBlock_shows hflush
  have hI1 : I s1.view := by
    rw [hfill1.view]
    exact h0
  have hmade2 : Made K s1 s2 := by
    rcases when_eq_some.mp hwhen with ⟨hlt, hwhen⟩ | ⟨_, rfl⟩
    · rw [← hfill1.view] at hK hK' hlt
      exact fileTruncateBlocks_made hc (hfill1.super.trans hsuper) hf hI1 (fun i => hK i hlt)
        (hK' hlt) hwhen
    · exact .of_fills (.refl s1)
  have hmade3 : Made K s2 s3 := .of_edit (storew_shows hstore) .size hsize
  exact ⟨rfl, ((Made.of_fills hfill1).trans hmade2).trans (hmade3.trans (.of_shows hflush))⟩

theorem flushPtr_shows {p : Word}
    (h : Proc.when (p ≠ 0#32) (do flushBlock (← diskaddr p) : FsM Unit) s = some (u, s')) :
    Shows s.view s s' := by
  rcases when_eq_some.mp h with ⟨_, h⟩ | ⟨_, rfl⟩
  · obtain ⟨a, s1, haddr, hflush⟩ := bind_eq_some.mp h
    obtain ⟨hfill, _⟩ := diskaddr_cases haddr
    obtain ⟨_, hflush, _, _⟩ := flushBlock_shows hflush
    rw [hfill.view] at hflush
    exact hfill.shows.trans hflush
  · exact Shows.refl s

theorem flushStep_shows (hsuper : s.super = true) (hsized : Sized s.view) (hf : sRoot ≤ f)
    (h : flushStep f i s = some (u, s')) : Shows s.view s s' := by
  obtain ⟨o, s1, hwalk, h⟩ := bind_eq_some.mp h
  have hshows1 := (fileBlockWalk_walked hsuper hsized hf hwalk).shows
  cases o with
  | error e =>
    cases h
    exact hshows1
  | ok slot =>
    obtain ⟨p, s2, hload, h⟩ := bind_eq_some.mp h
    obtain ⟨hfill2, rfl⟩ := loadw_cases hload
    have hshows2 := flushPtr_shows h
    rw [hfill2.view, hshows1.view] at hshows2
    exact (hshows1.trans hfill2.shows).trans hshows2

theorem flushLoop_shows (hsuper : s.super = true) (hsized : Sized s.view) (hf : sRoot ≤ f)
    (h : flushLoop f k i s = some (u, s')) : Shows s.view s s' := by
  induction k generalizing i s with
  | zero =>
    obtain ⟨_, rfl⟩ := pure_eq_some.mp h
    exact Shows.refl s
  | succ k ih =>
    obtain ⟨_, s1, hstep, h⟩ := bind_eq_some.mp h
    have hshows := flushStep_shows hsuper hsized hf hstep
    have hrest := ih (hshows.super.trans hsuper) (by rw [hshows.view]; exact hsized) h
    rw [hshows.view] at hrest
    exact hshows.trans hrest

theorem fileFlush_shows (hsuper : s.super = true) (hsized : Sized s.view) (hf : sRoot ≤ f)
    (h : fileFlush f s = some (u, s')) : Shows s.view s s' := by
  simp only [fileFlush, bind_eq_some] at h
  obtain ⟨w, s1, hload, _, s2, hloop, _, s3, hflush, p, s4, hload', hlast⟩ := h
  obtain ⟨hfill1, rfl⟩ := loadw_cases hload
  obtain ⟨hfill4, rfl⟩ := loadw_cases hload'
  have hloop :=
    flushLoop_shows (hfill1.super.trans hsuper) (by rw [hfill1.view]; exact hsized) hf hloop
  obtain ⟨_, hflush, _, _⟩ := flushBlock_shows hflush
  have hlast := flushPtr_shows hlast
  have hall := (((hfill1.shows.trans hloop).trans hflush).trans hfill4.shows).trans hlast
  rw [hfill4.view, hflush.view, hloop.view, hfill1.view] at hall
  exact hall

end Blocks

end LinuxStudy.Fs
