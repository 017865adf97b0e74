import LinuxStudy.Fs.Tree

/-!
# Accesses that do not panic

A block that is in use can be read into the cache: its own page fault may take one on the block
of the bitmap that has its bit, and that one takes one on the first block of the bitmap, but no
more.
-/

namespace LinuxStudy.Fs

open Jos
open Proc (bind_of_eq bind_eq_some get_apply when_pos require_pos)
open Proc
open BitVec (toNat_ofNat lt_def)

/-- The server between two calls. -/
structure Calm (s : Server) : Prop extends Up s where
  one : s.Mapped (sNblocks / 4096)
  two : 2 < (s.view.word sNblocks).toNat

/-- A block of the file system that is not free. -/
def InUse (v : ByteMem) (b : Word) : Prop := b < v.word sNblocks ∧ ¬ IsFree v b

/-- The block an address of the disk map is in. -/
def blockNo (a : ℕ) : Word := BitVec.ofNat 32 ((a - diskmap) / blksize)

section Faults

variable {s s' : Server} {a d n : ℕ} {b : Word}

theorem Calm.of_shows (h : Calm s) (hshows : Shows s.view s s') : Calm s' :=
  ⟨⟨hshows.super.trans h.super, by rw [hshows.view]; exact h.mounted⟩, hshows.mapped _ h.one,
    by rw [hshows.view]; exact h.two⟩

theorem Calm.of_fills (h : Calm s) (hfill : Fills s s') : Calm s' := h.of_shows hfill.shows

theorem Calm.present_nblocks (h : Calm s) : s.Present sNblocks := fun _ => h.one

theorem Calm.nblocks (h : Calm s) : s.mem.word sNblocks = s.view.word sNblocks :=
  word_of_present h.present_nblocks (by decide)

theorem touchBy_of_present {fault : ℕ → FsM Unit} (h : s.Present a) :
    touchBy fault a s = some ((), s) :=
  if_neg fun hn => hn.2 (h hn.1)

theorem blockIsFreeBy_total {fault : ℕ → FsM Unit} (h : Calm s) (hb : InUse s.view b)
    (htouch : touchBy fault (bitmapAddr b) s = some ((), s')) (hf : FaultSpec fault) :
    blockIsFreeBy fault b s = some (false, s') := by
  obtain ⟨hfill, hpresent⟩ := touchBy_fills hf htouch
  have hbit : s'.mem.word (bitmapAddr b) = s.view.word (bitmapAddr b) := by
    rw [word_of_present hpresent (bitmapAddr_mod b), hfill.view]
  have hno : ¬ has (s'.mem.word (bitmapAddr b)) (bitmapBit b) := by
    rw [hbit]
    exact fun hbit => hb.2 ⟨hb.1, hbit⟩
  rw [blockIsFreeBy, bind_of_eq get_apply, if_neg (by simp [h.super])]
  rw [bind_of_eq (touchBy_of_present h.present_nblocks), bind_of_eq get_apply]
  rw [if_neg (by rw [h.nblocks]; exact not_not.mpr hb.1), bind_of_eq htouch, bind_of_eq get_apply]
  rw [decide_eq_false hno]
  rfl

/-- The page of an address, read from the disk. -/
def Server.filled (s : Server) (a : ℕ) : Server :=
  ((s.sysPageAlloc (a / 4096)).ideRead (a / 4096)).sysPageMap (a / 4096)

/-- A page fault on a block in use succeeds if its bit can be read afterwards. -/
theorem fault_step (h : Calm s) (hmap : InMap a) (hnot : ¬ s.Mapped (a / 4096))
    (hb : InUse s.view (blockNo a))
    (hnext : ∃ s', touchBy (bcPgfault d) (bitmapAddr (blockNo a)) (s.filled a) = some ((), s')) :
    ∃ s', bcPgfault (d + 1) a s = some ((), s') := by
  obtain ⟨hfill, _⟩ := fill_page hmap hnot
  have hwhen : Proc.when (s.super = true) (do
      touchBy (bcPgfault d) sNblocks
      Proc.require (blockNo a < (← get).mem.word sNblocks) : FsM Unit) s = some ((), s) := by
    rw [when_pos h.super, bind_of_eq (touchBy_of_present h.present_nblocks),
      bind_of_eq get_apply]
    exact require_pos (by rw [h.nblocks]; exact hb.1)
  obtain ⟨s', hs'⟩ := hnext
  have hcalm : Calm (s.filled a) := h.of_fills hfill
  have hcheck := blockIsFreeBy_total hcalm (b := blockNo a)
    (by rw [show (s.filled a).view = s.view from hfill.view]; exact hb) hs' bcPgfault_fills
  have hrun : bcPgfault (d + 1) a s = Proc.when ((s.filled a).bitmap = true)
      (do Proc.require ((← blockIsFreeBy (bcPgfault d) (blockNo a)) = false)) (s.filled a) := by
    rw [bcPgfault, bind_of_eq (require_pos hmap), bind_of_eq get_apply]
    refine (bind_of_eq hwhen).trans ?_
    rfl
  rw [hrun]
  by_cases hbm : (s.filled a).bitmap = true
  · rw [when_pos hbm, bind_of_eq hcheck]
    exact ⟨s', require_pos rfl⟩
  · rw [when_neg hbm]
    exact ⟨_, rfl⟩

theorem touchBy_step (h : Calm s) (hb : InUse s.view (blockNo a))
    (hnext : InMap a → ¬ s.Mapped (a / 4096) →
      ∃ s', touchBy (bcPgfault d) (bitmapAddr (blockNo a)) (s.filled a) = some ((), s')) :
    ∃ s', touchBy (bcPgfault (d + 1)) a s = some ((), s') := by
  rw [touchBy]
  split
  · next hfault => exact fault_step h hfault.1 hfault.2 hb (hnext hfault.1 hfault.2)
  · exact ⟨s, rfl⟩

theorem Calm.filled (h : Calm s) (hmap : InMap a) (hnot : ¬ s.Mapped (a / 4096)) :
    Calm (s.filled a) ∧ (s.filled a).view = s.view ∧ (s.filled a).Mapped (a / 4096) := by
  obtain ⟨hfill, hm⟩ := fill_page hmap hnot
  exact ⟨h.of_fills hfill, hfill.view, hm⟩

theorem bitmapAddr_page (hb : b.toNat < 786432) :
    bitmapAddr b / 4096 = diskmap / 4096 + 2 + b.toNat / 32768 ∧
      (blockNo (bitmapAddr b)).toNat = 2 + b.toNat / 32768 := by
  simp only [bitmapAddr, blockNo, diskmap, blksize, toNat_ofNat]
  omega

theorem Calm.nblocks_le (h : Calm s) : (s.view.word sNblocks).toNat ≤ 786432 := h.mounted.sized

theorem Calm.inUse_bitmap (h : Calm s) (hb : b < s.view.word sNblocks) :
    InUse s.view (blockNo (bitmapAddr b)) := by
  have hle := h.nblocks_le
  have htwo := h.two
  rw [lt_def] at hb
  obtain ⟨_, hk⟩ := bitmapAddr_page (b := b) (by omega)
  refine ⟨?_, h.mounted.reserved _ ?_⟩
  · rw [lt_def, hk]
    omega
  · rw [hk, lastBitmap]
    omega

theorem touchBy_first (h : Calm s) (hb : b.toNat < 32768) (hlt : b < s.view.word sNblocks) :
    ∃ s', touchBy (bcPgfault (d + 1)) (bitmapAddr b) s = some ((), s') := by
  obtain ⟨hpage, hk⟩ := bitmapAddr_page (b := b) (by omega)
  refine touchBy_step h (h.inUse_bitmap hlt) fun hmap hnot => ⟨s.filled (bitmapAddr b), ?_⟩
  obtain ⟨_, _, hm⟩ := h.filled hmap hnot
  refine touchBy_of_present fun _ => ?_
  obtain ⟨hpage', _⟩ := bitmapAddr_page (b := blockNo (bitmapAddr b)) (by omega)
  rw [hpage', hk, show (2 + b.toNat / 32768) / 32768 = b.toNat / 32768 by omega, ← hpage]
  exact hm

theorem touchBy_bitmap (h : Calm s) (hlt : b < s.view.word sNblocks) :
    ∃ s', touchBy (bcPgfault (d + 2)) (bitmapAddr b) s = some ((), s') := by
  have hle := h.nblocks_le
  have hlt' := hlt
  rw [lt_def] at hlt'
  obtain ⟨_, hk⟩ := bitmapAddr_page (b := b) (by omega)
  refine touchBy_step h (h.inUse_bitmap hlt) fun hmap hnot => ?_
  obtain ⟨hcalm, hview, _⟩ := h.filled hmap hnot
  refine touchBy_first hcalm (by omega) ?_
  rw [hview]
  exact (h.inUse_bitmap hlt).1

/-- **A block in use can be accessed.** -/
theorem touch_total (h : Calm s) (hb : InMap a → InUse s.view (blockNo a)) :
    ∃ s', touch a s = some ((), s') ∧ Fills s s' := by
  have hrun : ∃ s', touch a s = some ((), s') := by
    by_cases hmap : InMap a
    · refine touchBy_step h (hb hmap) fun hmap hnot => ?_
      obtain ⟨hcalm, hview, _⟩ := h.filled hmap hnot
      refine touchBy_bitmap hcalm ?_
      rw [hview]
      exact (hb hmap).1
    · exact ⟨s, touch_of_present fun hno => absurd hno hmap⟩
  obtain ⟨s', hs'⟩ := hrun
  exact ⟨s', hs', (touch_fills hs').1⟩

end Faults

section Accesses

variable {s s' : Server} {a n : ℕ} {b : Word}

/-- Every block the range has bytes of is in use. -/
def Accessible (v : ByteMem) (a n : ℕ) : Prop :=
  ∀ x, a ≤ x → x < a + n → InMap x → InUse v (blockNo x)

theorem touchPages_total (h : Calm s) (ha : a % 4096 = 0)
    (hb : ∀ x, a ≤ x → x < a + n * 4096 → x % 4096 = 0 → InMap x → InUse s.view (blockNo x)) :
    ∃ s', touchPages n a s = some ((), s') := by
  induction n generalizing a s with
  | zero => exact ⟨s, rfl⟩
  | succ n ih =>
    obtain ⟨s1, htouch, hfill⟩ := touch_total h (hb a (by omega) (by omega) ha)
    rw [touchPages, bind_of_eq htouch]
    refine ih (h.of_fills hfill) (by omega) fun x h1 h2 h3 => ?_
    rw [hfill.view]
    exact hb x (by omega) (by omega) h3

theorem touchRange_total (h : Calm s) (hacc : Accessible s.view a n) :
    ∃ s', touchRange a n s = some ((), s') := by
  rw [touchRange]
  split
  · exact ⟨s, rfl⟩
  · next hn =>
    refine touchPages_total h (by omega) fun x h1 h2 h3 hmap => ?_
    -- a byte of the range that is in the page of `x`
    obtain ⟨y, hy1, hy2, hy⟩ : ∃ y, a ≤ y ∧ y < a + n ∧ y / 4096 = x / 4096 := by
      by_cases hax : a ≤ x
      · exact ⟨x, hax, by omega, rfl⟩
      · exact ⟨a, le_refl _, by omega, by omega⟩
    have hin : InMap y := (inMap_of_page hy).mpr hmap
    have hblock : (x - diskmap) / blksize = (y - diskmap) / blksize := by
      have hx := hmap.1
      have hy' := hin.1
      simp only [diskmap, blksize] at hx hy' ⊢
      omega
    rw [blockNo, hblock]
    exact hacc y hy1 hy2 hin

theorem loadw_total (h : Calm s) (hacc : Accessible s.view a 4) :
    ∃ s', loadw a s = some (s.view.word a, s') ∧ Fills s s' := by
  obtain ⟨s', hs'⟩ := touchRange_total h hacc
  have hload : loadw a s = some (s'.mem.word a, s') := by
    rw [loadw, bind_of_eq hs']
    rfl
  obtain ⟨hfill, hw⟩ := loadw_cases hload
  exact ⟨s', by rw [hload, hw], hfill⟩

theorem loadb_total (h : Calm s) (hacc : Accessible s.view a 1) :
    ∃ s', loadb a s = some (s.view a, s') ∧ Fills s s' := by
  obtain ⟨s', hs', _⟩ := touch_total h (a := a) (hacc a (le_refl a) (by omega))
  have hload : loadb a s = some (s'.mem a, s') := by
    rw [loadb, bind_of_eq hs']
    rfl
  obtain ⟨hfill, hw⟩ := loadb_cases hload
  exact ⟨s', by rw [hload, hw], hfill⟩

theorem diskaddr_total (h : Calm s) (h0 : b ≠ 0#32) (hlt : b < s.view.word sNblocks) :
    diskaddr b s = some (blkaddr b, s) :=
  Ready.diskaddr ⟨h.super, h.one, h.mounted.sized⟩ h0 hlt

theorem blockNo_of_inBlock {x : ℕ} (hb : b.toNat < 786432) (hx : InBlock b x) : blockNo x = b := by
  rw [InBlock, blkaddr_lt hb] at hx
  apply BitVec.eq_of_toNat_eq
  simp only [blockNo, diskmap, blksize, toNat_ofNat] at *
  omega

theorem accessible_of_block {v : ByteMem} (hs : Sized v) (hb : InUse v b) (h1 : blkaddr b ≤ a)
    (h2 : a + n ≤ blkaddr b + blksize) : Accessible v a n := by
  have hs : (v.word sNblocks).toNat ≤ 786432 := hs
  have hlt := hb.1
  rw [lt_def] at hlt
  intro x hx1 hx2 _
  rw [blockNo_of_inBlock (b := b) (by omega) ⟨by omega, by omega⟩]
  exact hb

theorem accessible_of_offMap {v : ByteMem} (h : OffMap a n) : Accessible v a n := by
  intro x h1 h2 hmap
  simp only [OffMap, InMap] at *
  omega

theorem store_total {g : ℕ → Byte} (h : Calm s) (hacc : Accessible s.view a n) :
    ∃ s', store a n g s = some ((), s') := by
  obtain ⟨s1, hs1⟩ := touchRange_total h hacc
  rw [store, bind_of_eq hs1]
  exact ⟨_, rfl⟩

end Accesses

/-! ### Blocks that come into the cache -/

/-- From a state after `fs_init`, only blocks in use have come into the cache. -/
def Loads (s s' : Server) : Prop :=
  Calm s → s.bitmap = true → Fills s s' ∧
    ∀ pn, s'.Mapped pn → s.Mapped pn ∨ InUse s.view (blockNo (pn * 4096))

instance : Std.Refl Loads := ⟨fun s _ _ => ⟨.refl s, fun _ => .inl⟩⟩

instance : IsTrans Server Loads where
  trans s t s' h h' := by
    intro hcalm hbm
    obtain ⟨hfill, hnew⟩ := h hcalm hbm
    obtain ⟨hfill', hnew'⟩ := h' (hcalm.of_fills hfill) (hfill.bitmap.trans hbm)
    refine ⟨hfill.trans hfill', fun pn hpn => ?_⟩
    rcases hnew' pn hpn with hm | huse
    · exact hnew pn hm
    · rw [hfill.view] at huse
      exact .inr huse

section Loads

variable {s s' : Server} {a d n : ℕ} {b : Word}

theorem blockNo_page (a : ℕ) (h : InMap a) : blockNo (a / 4096 * 4096) = blockNo a := by
  have h1 := h.1
  have hblock : (a / 4096 * 4096 - diskmap) / blksize = (a - diskmap) / blksize := by
    simp only [diskmap, blksize] at h1 ⊢
    omega
  rw [blockNo, hblock, blockNo]

theorem mapped_filled {pn : ℕ} (h : (s.filled a).Mapped pn) : s.Mapped pn ∨ pn = a / 4096 := by
  by_cases hpn : pn = a / 4096
  · exact .inr hpn
  · refine .inl ?_
    simpa only [Server.Mapped, Server.filled, Server.sysPageMap, Server.ideRead,
      Server.sysPageAlloc, Function.update_of_ne hpn] using h

/-- `block_is_free` says no: the block is in use, and what was loaded for it. -/
theorem blockIsFreeBy_loads {fault : ℕ → FsM Unit} (hf : FaultSpec fault)
    (hloads : ∀ x, Proc.Within Loads (touchBy fault x)) (hcalm : Calm s) (hbm : s.bitmap = true)
    (hlt : b < s.view.word sNblocks) (h : blockIsFreeBy fault b s = some (false, s')) :
    InUse s.view b ∧ ∀ pn, s'.Mapped pn → s.Mapped pn ∨ InUse s.view (blockNo (pn * 4096)) := by
  rw [blockIsFreeBy, bind_of_eq get_apply, if_neg (by simp [hcalm.super]),
    bind_of_eq (touchBy_of_present hcalm.present_nblocks), bind_of_eq get_apply,
    if_neg (by rw [hcalm.nblocks]; exact not_not.mpr hlt), bind_eq_some] at h
  obtain ⟨_, s1, htouch, h⟩ := h
  obtain ⟨hfill, hpresent⟩ := touchBy_fills hf htouch
  obtain ⟨hbit, rfl⟩ := pure_eq_some.mp h
  rw [word_of_present hpresent (bitmapAddr_mod b), hfill.view] at hbit
  exact ⟨⟨hlt, fun hfree => of_decide_eq_false hbit hfree.2⟩, (hloads _ _ _ _ htouch hcalm hbm).2⟩

theorem bcPgfault_loads (d x : ℕ) : Proc.Within Loads (touchBy (bcPgfault d) x) := by
  induction d generalizing x with
  | zero =>
    intro s u s' h hcalm hbm
    rw [touchBy] at h
    split at h
    · exact absurd h fail_eq_some
    · obtain rfl : s = s' := (Prod.ext_iff.mp (Option.some.inj h)).2
      exact ⟨.refl s, fun _ => .inl⟩
  | succ d ih =>
    intro s u s' h hcalm hbm
    refine ⟨(touchBy_fills bcPgfault_fills h).1, ?_⟩
    rw [touchBy] at h
    split at h
    · next hfault =>
      obtain ⟨hmap, hnot⟩ := hfault
      obtain ⟨hcalm1, hview1, -⟩ := hcalm.filled hmap hnot
      rw [bcPgfault, bind_of_eq (require_pos hmap), bind_of_eq get_apply, bind_eq_some] at h
      obtain ⟨_, s1, hwhen, h⟩ := h
      rw [when_pos hcalm.super, bind_of_eq (touchBy_of_present hcalm.present_nblocks),
        bind_of_eq get_apply] at hwhen
      obtain ⟨hlt, rfl⟩ := require_eq_some.mp hwhen
      rw [hcalm.nblocks] at hlt
      simp only [bind_eq_some, modify_eq_some, get_eq_some] at h
      obtain ⟨_, _, rfl, _, _, rfl, _, _, rfl, _, _, ⟨rfl, rfl⟩, h⟩ := h
      rw [when_pos (by exact hbm), bind_eq_some] at h
      obtain ⟨r, s2, hfree, h⟩ := h
      obtain ⟨rfl, rfl⟩ := require_eq_some.mp h
      obtain ⟨huse, hnew⟩ := blockIsFreeBy_loads bcPgfault_fills ih hcalm1 (by exact hbm)
        (by rw [hview1]; exact hlt) hfree
      rw [hview1] at huse hnew
      intro pn hpn
      rcases hnew pn hpn with hm | hm
      · rcases mapped_filled hm with hm | rfl
        · exact .inl hm
        · rw [blockNo_page x hmap]
          exact .inr huse
      · exact .inr hm
    · obtain rfl : s = s' := (Prod.ext_iff.mp (Option.some.inj h)).2
      exact fun _ => .inl

/-- **A page that comes into the cache is a block in use.** -/
theorem touch_loads (a : ℕ) : Proc.Within Loads (touch a) := bcPgfault_loads _ a

theorem touchPages_loads (n a : ℕ) : Proc.Within Loads (touchPages n a) := by
  induction n generalizing a with
  | zero => exact .pure ()
  | succ n ih => exact .bind (touch_loads a) fun _ => ih _

theorem touchRange_loads (a n : ℕ) : Proc.Within Loads (touchRange a n) := by
  exact .ite (.pure ()) (touchPages_loads _ _)

theorem loadw_loads (a : ℕ) : Proc.Within Loads (loadw a) :=
  .bind (touchRange_loads a 4) fun _ => .bind .get fun _ => .pure _

theorem loadb_loads (a : ℕ) : Proc.Within Loads (loadb a) :=
  .bind (touch_loads a) fun _ => .bind .get fun _ => .pure _

end Loads

/-! ### Looking at the disk -/

/-- The range is in the disk map, in blocks that are in use. -/
def Held (v : ByteMem) (a n : ℕ) : Prop := Accessible v a n ∧ diskmap ≤ a ∧
    a + n ≤ diskmap + disksize

/-- `I` says that the server sees `v` in the disk map, and survives what comes into the cache. -/
structure Looking (v : ByteMem) (I : Server → Prop) : Prop where
  calm : ∀ s, I s → Calm s
  view : ∀ s, I s → ∀ a, InMap a → s.view a = v a
  loads : ∀ s s', I s → Fills s s' → Loads s s' → I s'

section Looking

variable {v v' : ByteMem} {I : Server → Prop} {s : Server} {a n : ℕ} {b : Word}

theorem word_congr_map (h : ∀ a, InMap a → v' a = v a) (h1 : InMap a) (h2 : InMap (a + 3)) :
    v'.word a = v.word a := by
  refine ByteMem.word_congr fun y hy1 hy2 => h y ?_
  simp only [InMap] at *
  omega

theorem isFree_congr_map (h : ∀ a, InMap a → v' a = v a) : IsFree v' b ↔ IsFree v b := by
  rw [IsFree, IsFree, word_congr_map (a := sNblocks) h (by decide) (by decide)]
  rw [word_congr_map h]
  · simp only [InMap, bitmapAddr, diskmap, disksize, blksize]
    omega
  · simp only [InMap, bitmapAddr, diskmap, disksize, blksize]
    omega

theorem inUse_congr_map (h : ∀ a, InMap a → v' a = v a) : InUse v' b ↔ InUse v b := by
  rw [InUse, InUse, word_congr_map (a := sNblocks) h (by decide) (by decide), isFree_congr_map h]

theorem mounted_congr_map (h : ∀ a, InMap a → v' a = v a) (hm : Mounted v) : Mounted v' := by
  have hn := word_congr_map (a := sNblocks) h (by decide) (by decide)
  constructor
  · rw [Sized, hn]
    exact hm.sized
  · intro b hb hfree
    rw [lastBitmap, hn] at hb
    exact hm.reserved b hb ((isFree_congr_map h).mp hfree)

theorem Held.sub {m o : ℕ} (h : Held v a n) (ho : o + m ≤ n) : Held v (a + o) m :=
  ⟨fun x h1 h2 => h.1 x (by omega) (by omega), by have := h.2; omega⟩

theorem Held.take {m : ℕ} (h : Held v a n) (hm : m ≤ n) : Held v a m := h.sub (o := 0) (by omega)

theorem Held.inMap (h : Held v a n) {i : ℕ} (hi : i < n) : InMap (a + i) := by
  obtain ⟨-, h1, h2⟩ := h
  exact ⟨by omega, by omega⟩

theorem held_of_block (hs : Sized v) (hb : InUse v b) (h1 : blkaddr b ≤ a)
    (h2 : a + n ≤ blkaddr b + blksize) : Held v a n := by
  refine ⟨accessible_of_block hs hb h1 h2, ?_⟩
  have hs : (v.word sNblocks).toNat ≤ 786432 := hs
  have hlt := hb.1
  rw [lt_def] at hlt
  rw [blkaddr_lt (by omega)] at h1 h2
  simp only [diskmap, disksize, blksize] at *
  omega

section

variable (hI : Looking v I)
include hI

theorem Looking.nblocks (hs : I s) : s.view.word sNblocks = v.word sNblocks :=
  word_congr_map (hI.view s hs) (by decide) (by decide)

theorem Looking.sized (hs : I s) : Sized v := by
  rw [Sized, ← hI.nblocks hs]
  exact (hI.calm s hs).mounted.sized

theorem Looking.inUse (hs : I s) : InUse s.view b ↔ InUse v b :=
  inUse_congr_map (hI.view s hs)

theorem Looking.accessible (hs : I s) (hacc : Accessible v a n) : Accessible s.view a n :=
  fun y h1 h2 hmap => (hI.inUse hs).mpr (hacc y h1 h2 hmap)

theorem yields_loadw (h : Held v a 4) : Proc.Yields I (loadw a) (v.word a) := by
  intro s hs
  obtain ⟨s', hs', hfill⟩ := loadw_total (hI.calm s hs) (hI.accessible hs h.1)
  rw [word_congr_map (a := a) (hI.view s hs) (h.inMap (i := 0) (by omega))
    (h.inMap (by omega))] at hs'
  exact ⟨s', hs', hI.loads s s' hs hfill (loadw_loads a s _ s' hs')⟩

theorem yields_loadb (h : Held v a 1) : Proc.Yields I (loadb a) (v a) := by
  intro s hs
  obtain ⟨s', hs', hfill⟩ := loadb_total (hI.calm s hs) (hI.accessible hs h.1)
  rw [hI.view s hs a (h.inMap (i := 0) (by omega))] at hs'
  exact ⟨s', hs', hI.loads s s' hs hfill (loadb_loads a s _ s' hs')⟩

theorem yields_diskaddr (h0 : b ≠ 0#32) (hlt : b < v.word sNblocks) :
    Proc.Yields I (diskaddr b) (blkaddr b) :=
  fun s hs => ⟨s, diskaddr_total (hI.calm s hs) h0 (by rw [hI.nblocks hs]; exact hlt), hs⟩

theorem yields_blockIsFree (hb : InUse v b) : Proc.Yields I (blockIsFree b) false := by
  intro s hs
  have hcalm := hI.calm s hs
  have hb' := (hI.inUse hs).mpr hb
  obtain ⟨s', hs', hfill⟩ := touch_total hcalm (a := bitmapAddr b) fun _ => hcalm.inUse_bitmap hb'.1
  exact ⟨s', blockIsFreeBy_total hcalm hb' hs' bcPgfault_fills,
    hI.loads s s' hs hfill (touch_loads _ s _ s' hs')⟩

end

end Looking

end LinuxStudy.Fs
