import LinuxStudy.Fs.Access

/-!
# The block bitmap

`alloc_block` and `free_block` as operations on the set of free blocks: the one takes the least
element out, the other puts an element in.
-/

namespace LinuxStudy.Fs

open Jos
open Proc (bind_of_eq get_apply require_pos)

/-- `super` is set, its block is in the cache, and no access of the bitmap panics. -/
structure Legible (s : Server) : Prop where
  super : s.super = true
  one : s.Mapped (sNblocks / 4096)
  touch : ∀ t, Shows s.view s t → ∀ b < s.view.word sNblocks, ∀ a, a / 4096 = bitmapAddr b / 4096 →
    ∃ t', touch a t = some ((), t')

/-- The block `b` was the least free one. It is taken, and the block of the bitmap that holds its
    bit, and no other, is written to the disk. -/
structure TakenBlock (s : Server) (b : Word) (t : Server) : Prop where
  ne_zero : b ≠ 0#32
  free : IsFree s.view b
  least : ∀ c, c ≠ 0#32 → c < b → ¬ IsFree s.view c
  shows : Shows (takeBlock s.view b) s t
  others : ∀ x, x / 4096 ≠ bitmapAddr b / 4096 → t.disk x = s.disk x
  flushed : s.Coherent → ∀ x, x / 4096 = bitmapAddr b / 4096 → t.disk x = t.view x

/-- There was no free block, and nothing has changed. -/
structure Exhausted (s t : Server) : Prop where
  none : ∀ b, b ≠ 0#32 → ¬ IsFree s.view b
  fills : Fills s t

section Bitmap

variable {s t : Server} {a i : ℕ} {b : Word}

/-- The file system that passes the checks of `fs_init`. -/
theorem Calm.legible (h : Calm s) : Legible s where
  super := h.super
  one := h.one
  touch t ht b hb a ha := by
    have hcalm := h.of_shows ht
    have hmod : (a - diskmap) / blksize = (bitmapAddr b - diskmap) / blksize := by
      simp only [diskmap, blksize] at ha ⊢
      omega
    obtain ⟨t', ht', _⟩ := touch_total hcalm (a := a) fun _ => by
      rw [blockNo, hmod]
      exact hcalm.inUse_bitmap (by rw [ht.view]; exact hb)
    exact ⟨t', ht'⟩

/-- A server with everything in the cache, whatever the bitmap says. -/
theorem Legible.of_mapped (hsuper : s.super = true) (h : ∀ pn, s.Mapped pn) : Legible s :=
  ⟨hsuper, h _, fun t ht _ _ _ _ => ⟨t, touch_of_present fun _ => ht.mapped _ (h _)⟩⟩

theorem Legible.of_fills (h : Legible s) (hfill : Fills s t) : Legible t := by
  refine ⟨hfill.super.trans h.super, hfill.mapped h.one, fun u hu b hb a ha => ?_⟩
  rw [hfill.view] at hu hb
  exact h.touch u (hfill.shows.trans hu) b hb a ha

theorem Legible.nblocks (h : Legible s) : loadw sNblocks s = some (s.view.word sNblocks, s) :=
  loadw_of_present fun x h1 h2 => present_of_page (a := sNblocks)
    (by simp only [sNblocks, diskmap, blksize] at *; omega) fun _ => h.one

theorem present_bitmap (h : s.Present (bitmapAddr b)) :
    ∀ x, bitmapAddr b ≤ x → x < bitmapAddr b + 4 → s.Present x := by
  intro x h1 h2
  have := bitmapAddr_mod b
  exact present_of_page (by omega) h

theorem storew_of_present {w : Word} (h : s.Present (bitmapAddr b)) :
    storew (bitmapAddr b) w s =
      some ((), s.put (bitmapAddr b) 4 (ByteMem.wordByte w (bitmapAddr b))) := by
  rw [storew, store, bind_of_eq (touchRange_of_present (present_bitmap h))]
  rfl

theorem blockIsFree_total (h : Legible s) (hlt : b < s.view.word sNblocks) :
    ∃ s', blockIsFree b s = some (decide (IsFree s.view b), s') ∧ Fills s s' ∧
      s'.Present (bitmapAddr b) := by
  obtain ⟨s', htouch⟩ := h.touch s (.refl s) b hlt _ rfl
  obtain ⟨hfill, hpresent⟩ := touch_fills htouch
  have hone : s.Present sNblocks := fun _ => h.one
  have hbit : s'.mem.word (bitmapAddr b) = s.view.word (bitmapAddr b) := by
    rw [word_of_present hpresent (bitmapAddr_mod b), hfill.view]
  refine ⟨s', ?_, hfill, hpresent⟩
  rw [blockIsFree, blockIsFreeBy, bind_of_eq get_apply, if_neg (by simp [h.super]),
    bind_of_eq (touchBy_of_present hone), bind_of_eq get_apply,
    if_neg (by rw [word_of_present hone (by decide)]; exact not_not.mpr hlt)]
  rw [touch] at htouch
  rw [bind_of_eq htouch, bind_of_eq get_apply, hbit, Proc.pure_apply]
  simp only [IsFree, hlt, true_and]

/-- A bit of the bitmap is cleared, and its block flushed. -/
theorem take_total (h : s.Present (bitmapAddr b)) : ∃ t s',
    storew (bitmapAddr b) (s.view.word (bitmapAddr b) &&& ~~~bitmapBit b) s = some ((), t) ∧
    flushBlock (bitmapAddr b) t = some ((), s') ∧ Shows (takeBlock s.view b) s s' ∧
    (∀ x, x / 4096 ≠ bitmapAddr b / 4096 → s'.disk x = s.disk x) ∧
    (s.Coherent → ∀ x, x / 4096 = bitmapAddr b / 4096 → s'.disk x = s'.view x) := by
  have hstore := storew_of_present (w := s.view.word (bitmapAddr b) &&& ~~~bitmapBit b) h
  have hshows := storew_shows hstore
  obtain ⟨s', hflush⟩ := flushBlock_total (s := s.put (bitmapAddr b) 4 (ByteMem.wordByte
      (s.view.word (bitmapAddr b) &&& ~~~bitmapBit b) (bitmapAddr b))) (a := bitmapAddr b) (by
    simp only [InMap, bitmapAddr, diskmap, disksize, blksize]
    omega)
  obtain ⟨_, hkept, hothers, hflushed⟩ := flushBlock_shows hflush
  refine ⟨_, s', hstore, hflush, ?_, hothers, fun hc x hx => ?_⟩
  · rw [hshows.view] at hkept
    exact hshows.trans hkept
  · rw [hkept.view]
    exact hflushed (hshows.coherent hc) x hx

/-- What a call of `alloc_block` has seen before it looks at block `i`. -/
structure Scanned (s : Server) (i : ℕ) (t : Server) : Prop where
  fills : Fills s t
  one_le : 1 ≤ i
  lt : i < 2 ^ 32
  used : ∀ k, 1 ≤ k → k < i → ¬ IsFree s.view (BitVec.ofNat 32 k)

theorem Scanned.not_free (h : Scanned s i t) (h0 : b ≠ 0#32) (hlt : b.toNat < i) :
    ¬ IsFree s.view b := by
  have hpos : b.toNat ≠ 0 := fun hb => h0 (BitVec.eq_of_toNat_eq hb)
  have hused := h.used b.toNat (by omega) hlt
  rwa [BitVec.ofNat_toNat, BitVec.setWidth_eq] at hused

/-- One look at a block: the next one, the end of the disk, or a free block. -/
theorem Scanned.step (h : Legible s) (hi : Scanned s i t) :
    (∃ t', allocStep i t = some (none, t') ∧ Scanned s (i + 1) t') ∨
      ∃ r t', allocStep i t = some (some r, t') ∧
        ((r = -eNoDisk ∧ Exhausted s t') ∨ ∃ b : Word, r = b.toInt ∧ TakenBlock s b t') := by
  have hlegible := h.of_fills hi.fills
  have hview := hi.fills.view
  have hof : (BitVec.ofNat 32 i).toNat = i := by
    rw [BitVec.toNat_ofNat, Nat.mod_eq_of_lt hi.lt]
  rw [allocStep, bind_of_eq hlegible.nblocks]
  by_cases hlt : BitVec.ofNat 32 i < t.view.word sNblocks
  · obtain ⟨t1, hfree, hfill, hpresent⟩ := blockIsFree_total hlegible hlt
    rw [if_pos hlt, bind_of_eq hfree]
    have hfill1 := hi.fills.trans hfill
    by_cases hf : IsFree s.view (BitVec.ofNat 32 i)
    · obtain ⟨t2, t3, hstore, hflush, hshows, hothers, hflushed⟩ := take_total hpresent
      rw [hfill1.view] at hshows
      refine .inr ⟨(BitVec.ofNat 32 i).toInt, t3, ?_, .inr ⟨BitVec.ofNat 32 i, rfl, ?_⟩⟩
      · rw [decide_eq_true (by rw [hview]; exact hf), if_pos rfl,
          bind_of_eq (loadw_of_present (present_bitmap hpresent)), bind_of_eq hstore,
          bind_of_eq hflush]
        rfl
      · refine ⟨fun h0 => ?_, hf, fun c h0 hc => hi.not_free h0 ?_, hfill1.shows.trans hshows,
          fun x hx => (hothers x hx).trans (congrFun hfill1.disk x),
          fun hc => hflushed (hfill1.coherent hc)⟩
        · have hone := hi.one_le
          rw [h0] at hof
          simp at hof
          omega
        · rw [BitVec.lt_def, hof] at hc
          exact hc
    · refine .inl ⟨t1, ?_, hfill1, by omega, ?_, fun k h1 hk => ?_⟩
      · rw [decide_eq_false (by rw [hview]; exact hf)]
        rfl
      · rw [BitVec.lt_def, hof] at hlt
        omega
      · rcases Nat.lt_succ_iff_lt_or_eq.mp hk with hk | rfl
        · exact hi.used k h1 hk
        · exact hf
  · refine .inr ⟨-eNoDisk, t, ?_, .inl ⟨rfl, fun b h0 hb => ?_, hi.fills⟩⟩
    · rw [if_neg hlt]
      rfl
    · rw [hview, BitVec.lt_def, hof, not_lt] at hlt
      exact hi.not_free h0 (Nat.lt_of_lt_of_le hb.1 hlt) hb

theorem allocBlock_set (h : Legible s) :
    (∃ s', allocBlock s = some (-eNoDisk, s') ∧ Exhausted s s') ∨
      ∃ (b : Word) (s' : Server), allocBlock s = some (b.toInt, s') ∧ TakenBlock s b s' := by
  rcases Proc.search_total (Scanned s) _ (fun i t hi => hi.step h) (n := 2 ^ 32) (i := 1)
      ⟨.refl s, le_refl 1, by decide, fun k h1 hk => absurd h1 (by omega)⟩ with
    ⟨s', _, hend⟩ | ⟨r, s', hloop, hr⟩
  · -- the loop counts further than the disk has blocks
    exact absurd hend.lt (by decide)
  · have halloc : allocBlock s = some (r, s') := by
      rw [allocBlock, bind_of_eq hloop]
      rfl
    obtain ⟨rfl, hno⟩ | ⟨b, rfl, htaken⟩ := hr
    · exact .inl ⟨s', halloc, hno⟩
    · exact .inr ⟨b, s', halloc, htaken⟩

theorem freeBlock_total (h : Legible s) (h0 : b ≠ 0#32) (hlt : b < s.view.word sNblocks) :
    ∃ s', freeBlock b s = some ((), s') := by
  have hmod := bitmapAddr_mod b
  obtain ⟨s1, htouch⟩ := h.touch s (.refl s) b hlt (bitmapAddr b / 4096 * 4096) (by omega)
  have hrange : touchRange (bitmapAddr b) 4 s = some ((), s1) := by
    rw [touchRange, if_neg (by decide),
      show (bitmapAddr b + 4 - 1) / 4096 - bitmapAddr b / 4096 + 1 = 1 by omega, touchPages,
      bind_of_eq htouch]
    rfl
  have hload : loadw (bitmapAddr b) s = some (s1.mem.word (bitmapAddr b), s1) := by
    rw [loadw, bind_of_eq hrange]
    rfl
  have hpresent := (touchRange_fills hrange).2 _ le_rfl (by omega)
  rw [freeBlock, bind_of_eq (require_pos h0), bind_of_eq hload]
  exact ⟨_, storew_of_present hpresent⟩

end Bitmap

/-- **The bitmap is a set of blocks.** `alloc_block` takes the least free block, apart from block
    0, and flushes its bit, or fails and changes nothing if there is none; `free_block` adds the
    block to the free ones. -/
theorem bitmap_refines_set {s : Server} (h : Legible s) :
    ((∃ (b : Word) (s' : Server), allocBlock s = some (b.toInt, s') ∧ TakenBlock s b s' ∧
        (Sized s.view → b.toInt = b.toNat) ∧ ∀ x, IsFree s'.view x ↔ IsFree s.view x ∧ x ≠ b) ∨
      ∃ s', allocBlock s = some (-eNoDisk, s') ∧ s'.view = s.view ∧ s'.disk = s.disk ∧
        ∀ b, b ≠ 0#32 → ¬ IsFree s.view b) ∧
    ∀ b, b ≠ 0#32 → b < s.view.word sNblocks → ∃ s', freeBlock b s = some ((), s') ∧
      ∀ x, IsFree s'.view x ↔ IsFree s.view x ∨ x = b := by
  refine ⟨?_, fun b h0 hlt => ?_⟩
  · obtain ⟨s', halloc, hno⟩ | ⟨b, s', halloc, htaken⟩ := allocBlock_set h
    · exact .inr ⟨s', halloc, hno.fills.view, hno.fills.disk, hno.none⟩
    · refine .inl ⟨b, s', halloc, htaken, fun hsized => ?_, fun x => ?_⟩
      · have hlt := htaken.free.1
        simp only [Sized, disksize, blksize] at hsized
        rw [BitVec.lt_def] at hlt
        exact BitVec.toInt_eq_toNat_of_lt (by omega)
      · rw [htaken.shows.view]
        exact isFree_takeBlock
  · obtain ⟨s', hfree⟩ := freeBlock_total h h0 hlt
    refine ⟨s', hfree, fun x => ?_⟩
    rw [(freeBlock_shows hfree).2.view]
    exact isFree_giveBlock hlt

/-- On a disk of four blocks with block 3 free, a block is found. -/
theorem bitmap_refines_set_three : ∃ s : Server, Legible s ∧
    ∃ (b : Word) (s' : Server), allocBlock s = some (b.toInt, s') ∧ IsFree s.view b := by
  let s : Server := { emptyCache with
    super := true
    uvpt := fun _ => pteP
    mem := (emptyCache.mem.putWord sNblocks 4#32).putWord (bitmapAddr 0#32) 8#32 }
  have hthree : IsFree s.view 3#32 := by decide
  have hmapped : has pteP pteP := by decide
  have hlegible : Legible s := .of_mapped rfl fun _ => hmapped
  obtain ⟨⟨b, s', halloc, htaken, _⟩ | ⟨_, _, _, _, hno⟩, _⟩ := bitmap_refines_set hlegible
  · exact ⟨s, hlegible, b, s', halloc, htaken.free⟩
  · exact absurd hthree (hno _ (by decide))

end LinuxStudy.Fs
