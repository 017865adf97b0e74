import LinuxStudy.Fs.Bitmap
import LinuxStudy.Fs.Content
import LinuxStudy.Fs.OneFile

/-!
# `file_get_block` on a disk that may be full

`alloc_block` returns a block that was free, or `-E_NO_DISK` if there is none. `file_get_block`
calls it for the data block and, before that, for the indirect block, where the result is kept in
an unsigned number: the error is stored as a block number, and `diskaddr` panics.
-/

namespace LinuxStudy.Fs

open Jos
open Proc (bind_of_eq get_apply)
open ByteMem

section Alloc

variable {s s' : Server} {v : ByteMem} {a b x : Word}

theorem Calm.of_edit (h : Calm s) (hshows : Shows v s s')
    (hn : v.word sNblocks = s.view.word sNblocks)
    (hfree : ∀ x, IsFree v x → IsFree s.view x) : Calm s' := by
  have hn' : s'.view.word sNblocks = s.view.word sNblocks := by
    rw [hshows.view, hn]
  refine ⟨⟨hshows.super.trans h.super, ?_, fun x hx hno => ?_⟩, hshows.mapped _ h.one, ?_⟩
  · rw [Sized, hn']
    exact h.mounted.sized
  · rw [lastBitmap, hn'] at hx
    rw [hshows.view] at hno
    exact h.mounted.reserved x hx (hfree x hno)
  · rw [hn']
    exact h.two

theorem Calm.take (h : Calm s) (hshows : Shows (takeBlock s.view b) s s') : Calm s' :=
  h.of_edit hshows takeBlock_nblocks fun _ hx => (isFree_takeBlock.mp hx).1

/-- **`alloc_block`** returns, and fails only if no block is free. -/
theorem allocBlock_total (h : Calm s) :
    (∃ s', allocBlock s = some (-eNoDisk, s') ∧ Shows s.view s s' ∧ ∀ b, ¬ IsFree s.view b) ∨
      ∃ (b : Word) (s' : Server), allocBlock s = some (b.toInt, s') ∧ b ≠ 0#32 ∧ IsFree s.view b ∧
        Shows (takeBlock s.view b) s s' := by
  obtain ⟨s', halloc, hno⟩ | ⟨b, s', halloc, htaken⟩ := allocBlock_set h.legible
  · refine .inl ⟨s', halloc, hno.fills.shows, fun b => ?_⟩
    by_cases h0 : b = 0#32
    · rw [h0]
      exact h.mounted.reserved _ (Nat.zero_le _)
    · exact hno.none b h0
  · exact .inr ⟨b, s', halloc, htaken.ne_zero, htaken.free, htaken.shows⟩

end Alloc

section Blocks

variable {S D : Set ℕ} {s s' : Server} {v : ByteMem} {f : ℕ} {n b : Word}

theorem Accessible.mono {v' : ByteMem} {a k : ℕ} (h : Accessible v a k)
    (hn : v'.word sNblocks = v.word sNblocks) (hfree : ∀ x, IsFree v' x → IsFree v x) :
    Accessible v' a k := by
  intro x h1 h2 hmap
  obtain ⟨hlt, hno⟩ := h x h1 h2 hmap
  exact ⟨by rw [hn]; exact hlt, fun hf => hno (hfree _ hf)⟩

/-- **A new indirect block**, if a block is free. -/
theorem allocIndirect_total (hcalm : Calm s) (hown : OwnOn S D s.view) (hf : f ∈ S)
    (h0 : s.view.word (fIndirect f) = 0#32) (hroom : ∃ b, IsFree s.view b) :
    ∃ s', allocIndirect f s = some ((), s') := by
  rcases allocBlock_total hcalm with ⟨_, _, _, hnone⟩ | ⟨b, s1, halloc, hb, hfree, hshows1⟩
  · obtain ⟨b, hb⟩ := hroom
    exact absurd hb (hnone b)
  have hfield : Accessible s.view (fIndirect f) 4 :=
    hown.accessible_field hcalm.two hf (show 176 + 4 ≤ 256 by omega)
  -- the number is stored
  have hcalm1 := hcalm.take hshows1
  obtain ⟨s2, hstore⟩ :=
    store_total (g := ByteMem.wordByte b (fIndirect f)) (a := fIndirect f) (n := 4) hcalm1 (by
    rw [hshows1.view]
    exact hfield.mono takeBlock_nblocks fun _ h => (isFree_takeBlock.mp h).1)
  have hshows2 := storew_shows hstore
  rw [hshows1.view] at hshows2
  obtain ⟨hn2, hbits2⟩ := hown.after_store (f := f) (q := .indirect) (w := b)
    (fieldOk hf (by omega) (by omega) (by omega)) (takeBlock_nblocks (b := b))
  have hsub2 : ∀ x, IsFree s2.view x → IsFree s.view x ∧ x ≠ b := by
    intro x hx
    rw [hshows2.view] at hx
    exact isFree_takeBlock.mp ((hbits2 x).mp hx)
  have hn2' : s2.view.word sNblocks = s.view.word sNblocks := by
    rw [hshows2.view]
    exact hn2
  have hshows2' : Shows s2.view s s2 := (hshows1.trans hshows2).steady
  have hcalm2 : Calm s2 := hcalm.of_edit hshows2' hn2' fun x hx => (hsub2 x hx).1
  have huse2 : InUse s2.view b := ⟨by rw [hn2']; exact hfree.1, fun hno => (hsub2 b hno).2 rfl⟩
  have hw2 : s2.view.word (fIndirect f) = b := by
    rw [hshows2.view, word_putWord_self]
  obtain ⟨s3, hload3, hfill3⟩ := loadw_total hcalm2 (hfield.mono hn2' fun x hx => (hsub2 x hx).1)
  rw [hw2] at hload3
  have hcalm3 := hcalm2.of_fills hfill3
  have haddr3 := diskaddr_total hcalm3 hb (by rw [hfill3.view]; exact huse2.1)
  -- the block is cleared
  obtain ⟨s5, hset⟩ := store_total (g := fun _ => 0#8) (a := blkaddr b) (n := blksize) hcalm3 (by
    rw [hfill3.view]
    exact accessible_of_block hcalm2.mounted.sized huse2 (le_refl _) (le_refl _))
  have hshows5 := store_shows hset
  rw [hfill3.view, hshows2.view] at hshows5
  have hafter := (Edits.indirect h0 hb hfree).after_indirect hown hf
  rw [← hshows5.view] at hafter
  have hcalm5 : Calm s5 :=
    hcalm.of_edit (hshows2'.trans (hfill3.shows.trans hshows5)).steady hafter.nblocks
    fun x hx => ((hafter.free x).mp hx).1
  have hw5 : s5.view.word (fIndirect f) = b := by
    have htarget := hafter.target f hf .indirect trivial
    rwa [if_pos ⟨rfl, rfl⟩] at htarget
  obtain ⟨s6, hload6, hfill6⟩ := loadw_total hcalm5
    (hfield.mono hafter.nblocks fun x hx => ((hafter.free x).mp hx).1)
  rw [hw5] at hload6
  have haddr6 := diskaddr_total (hcalm5.of_fills hfill6) hb (by
    rw [hfill6.view, hafter.nblocks]
    exact hfree.1)
  obtain ⟨s7, hflush⟩ := flushBlock_total (s := s6) (a := blkaddr b)
    (inMap_block (hown.toNat_lt hfree.1) ⟨le_refl _, by simp [blksize]⟩)
  refine ⟨s7, ?_⟩
  rw [allocIndirect, bind_of_eq halloc, BitVec.ofInt_toInt, storew, bind_of_eq hstore,
    bind_of_eq hload3, bind_of_eq haddr3, memset0, bind_of_eq hset, bind_of_eq hload6,
    bind_of_eq haddr6]
  exact hflush

/-- The room that `file_get_block` needs for an indirect block. -/
def IndirectRoom (v : ByteMem) (f n : ℕ) : Prop :=
  ndirect ≤ n → n < ndirect + nindirect → v.word (fIndirect f) = 0#32 → ∃ b, IsFree v b

/-- `file_block_walk` finds the place of a block number in range. -/
theorem fileBlockWalk_returns (hcalm : Calm s) (hown : OwnOn S D s.view) (hf : f ∈ S)
    (hn : n.toNat < ndirect + nindirect) (hroom : IndirectRoom s.view f n.toNat) :
    ∃ s', fileBlockWalk f n true s = some (.ok (slotAddr s'.view f n.toNat), s') ∧ Calm s' ∧
      OwnOn S D s'.view ∧ Reaches s'.view f n.toNat := by
  -- what has happened is known as soon as the call returns
  suffices hret : ∃ o s', fileBlockWalk f n true s = some (o, s') by
    obtain ⟨o, s', hwalk⟩ := hret
    cases fileBlockWalk_walked hcalm.super hown.sized (hown.sRoot_le hf) hwalk with
    | far hno => omega
    | missing hno => cases hno
    | there hfill hreach =>
      refine ⟨s', ?_, hcalm.of_fills hfill, ?_, ?_⟩ <;> rw [hfill.view]
      · exact hwalk
      · exact hown
      · exact hreach
    | @made _ b _ _ _ hedit hshows hreach =>
      have hafter := hedit.after_indirect hown hf
      refine ⟨s', ?_, hcalm.of_edit hshows hafter.nblocks fun x hx =>
        ((hafter.free x).mp hx).1, ?_, ?_⟩ <;>
        rw [hshows.view]
      · exact hwalk
      · exact hown.step (e := .indirect f b) hf hedit
      · exact hreach
  by_cases hdir : n.toNat < ndirect
  · refine ⟨.ok (fDirect f n.toNat), s, ?_⟩
    rw [fileBlockWalk, if_neg (by omega), if_pos hdir]
    rfl
  obtain ⟨s1, hload, hfill1⟩ := loadw_total (a := fIndirect f) hcalm
    (hown.accessible_field hcalm.two hf (show 176 + 4 ≤ 256 by omega))
  have hcalm1 := hcalm.of_fills hfill1
  have hown1 : OwnOn S D s1.view := by rw [hfill1.view]; exact hown
  rw [fileBlockWalk, if_neg (by omega), if_neg hdir, bind_of_eq hload]
  by_cases h0 : s.view.word (fIndirect f) = 0#32
  · have h1 : s1.view.word (fIndirect f) = 0#32 := by rw [hfill1.view]; exact h0
    obtain ⟨s2, halloc⟩ := allocIndirect_total hcalm1 hown1 hf h1 (by
      rw [hfill1.view]
      exact hroom (by omega) hn h0)
    obtain ⟨b, v', hedit, hshows⟩ :=
      allocIndirect_cases hcalm1.super hown1.sized (hown1.sRoot_le hf) h1 halloc
    have hafter := hedit.after_indirect hown1 hf
    have hcalm2 : Calm s2 :=
      hcalm1.of_edit hshows hafter.nblocks fun x hx => ((hafter.free x).mp hx).1
    have hown2 : OwnOn S D s2.view := by
      rw [hshows.view]
      exact hown1.step (e := .indirect f b) hf hedit
    have hind : s2.view.word (fIndirect f) ≠ 0#32 := by
      have htarget := hafter.target f hf .indirect trivial
      rw [if_pos ⟨rfl, rfl⟩, ← hshows.view, target] at htarget
      rw [htarget]
      cases hedit with
      | indirect _ hb _ => exact hb
    obtain ⟨s3, hslot, _⟩ :=
      indirectSlot_total hcalm2 (fun _ => hown2.accessible_field hcalm2.two hf) hind
      (hown2.range f hf .indirect trivial hind).2.1 hdir
    rw [if_pos h0, if_neg (by decide), bind_of_eq halloc]
    exact ⟨_, s3, hslot⟩
  · have hind : s1.view.word (fIndirect f) ≠ 0#32 := by rw [hfill1.view]; exact h0
    obtain ⟨s2, hslot, _⟩ :=
      indirectSlot_total hcalm1 (fun _ => hown1.accessible_field hcalm1.two hf) hind
      (hown1.range f hf .indirect trivial hind).2.1 hdir
    rw [if_neg h0]
    exact ⟨_, s2, hslot⟩

/-- **`file_get_block` returns**, and leaves the files well formed. -/
theorem fileGetBlock_returns (hcalm : Calm s) (hown : OwnOn S D s.view) (hf : f ∈ S)
    (hroom : IndirectRoom s.view f n.toNat) :
    ∃ r s', fileGetBlock f n s = some (r, s') ∧ Calm s' ∧ OwnOn S D s'.view := by
  by_cases hn : n.toNat < ndirect + nindirect
  swap
  · refine ⟨.error (-eInval), s, ?_, hcalm, hown⟩
    rw [fileGetBlock, fileBlockWalk, if_pos (by omega)]
    rfl
  obtain ⟨s1, hwalk, hcalm1, hown1, hreach⟩ := fileBlockWalk_returns hcalm hown hf hn hroom
  have hacc := hown1.accessible_slot hcalm1.two hf hreach
  obtain ⟨s2, hload2, hfill2⟩ := loadw_total hcalm1 hacc
  have hcalm2 := hcalm1.of_fills hfill2
  rw [fileGetBlock, bind_of_eq hwalk]
  show ∃ r s', (loadw _ >>= _) s1 = _ ∧ _
  rw [bind_of_eq hload2, ← hreach.target]
  by_cases hzero : target s1.view f (.data n.toNat) = 0#32
  · rw [if_pos hzero]
    rcases allocBlock_total hcalm2 with ⟨s3, halloc, hshows3, _⟩ | ⟨b, s3, halloc, hb,
      hfree, hshows3⟩
    · rw [bind_of_eq halloc, if_pos (by decide)]
      refine ⟨_, s3, rfl, hcalm2.of_shows hshows3, ?_⟩
      rw [hshows3.view, hfill2.view]
      exact hown1
    · -- the number of the new block is stored, and read back
      have hnonneg := hfree.toInt_nonneg hcalm2.mounted.sized
      rw [hfill2.view] at hfree hshows3
      have hcalm3 : Calm s3 := hcalm1.take (hfill2.shows.trans hshows3)
      obtain ⟨s4, hstore⟩ :=
        store_total (g := ByteMem.wordByte b (slotAddr s1.view f n.toNat)) hcalm3 (by
        rw [hshows3.view]
        exact hacc.mono takeBlock_nblocks fun _ h => (isFree_takeBlock.mp h).1)
      have hshows4 := storew_shows hstore
      rw [hshows3.view] at hshows4
      have hedit : Edits s1.view (.data f n.toNat b) s4.view := by
        rw [hshows4.view]
        exact .data hreach (hreach.target.symm.trans hzero) hb hfree
      have hafter := hedit.after_data hown1 hf
      have hcalm4 : Calm s4 :=
        hcalm1.of_edit (hfill2.shows.trans (hshows3.trans hshows4)).steady hafter.nblocks
        fun x hx => ((hafter.free x).mp hx).1
      obtain ⟨s5, hload5, hfill5⟩ := loadw_total hcalm4
        (hacc.mono hafter.nblocks fun x hx => ((hafter.free x).mp hx).1)
      have hw : s4.view.word (slotAddr s1.view f n.toNat) = b := by
        rw [hshows4.view, word_putWord_self]
      rw [hw] at hload5
      have haddr := diskaddr_total (hcalm4.of_fills hfill5) hb (by
        rw [hfill5.view, hafter.nblocks]
        exact hfree.1)
      refine ⟨.ok (blkaddr b), s5, ?_, hcalm4.of_fills hfill5, ?_⟩
      · rw [bind_of_eq halloc, if_neg hnonneg, BitVec.ofInt_toInt, storew, bind_of_eq hstore,
          bind_of_eq hload5, bind_of_eq haddr]
        rfl
      · rw [hfill5.view]
        exact hown1.step (e := .data f n.toNat b) hf hedit
  · obtain ⟨s3, hload3, hfill3⟩ := loadw_total hcalm2 (by rw [hfill2.view]; exact hacc)
    rw [hfill2.view, ← hreach.target] at hload3
    have haddr := diskaddr_total (hcalm2.of_fills hfill3) hzero (by
      rw [hfill3.view, hfill2.view]
      exact (hown1.range f hf (.data n.toNat) hn hzero).2.1)
    refine ⟨.ok (blkaddr (target s1.view f (.data n.toNat))), s3, ?_, hcalm2.of_fills hfill3, ?_⟩
    · rw [if_neg hzero, bind_of_eq hload3, bind_of_eq haddr]
      rfl
    · rw [hfill3.view, hfill2.view]
      exact hown1

/-- **On a full disk** the error of `alloc_block` becomes the number of the indirect block, which
    `diskaddr` rejects. -/
theorem allocIndirect_full (hcalm : Calm s) (hown : OwnOn S D s.view) (hf : f ∈ S)
    (h0 : s.view.word (fIndirect f) = 0#32) (hnone : ∀ b, ¬ IsFree s.view b) :
    allocIndirect f s = none ∧ ∃ s1 s2, allocBlock s = some (-eNoDisk, s1) ∧
      storew (fIndirect f) (BitVec.ofInt 32 (-eNoDisk)) s1 = some ((), s2) ∧
      s2.view.word (fIndirect f) = 0xFFFFFFF7#32 ∧ diskaddr 0xFFFFFFF7#32 s2 = none := by
  have hpanic : allocIndirect f s = none := by
    rw [Option.eq_none_iff_forall_ne_some]
    intro r hr
    obtain ⟨b, v', hedit, _⟩ := allocIndirect_cases hcalm.super hown.sized (hown.sRoot_le hf) h0 hr
    cases hedit with
    | indirect _ _ hfree => exact hnone b hfree
  rcases allocBlock_total hcalm with ⟨s1, halloc, hshows1, _⟩ | ⟨b, _, _, _, hfree, _⟩
  swap
  · exact absurd hfree (hnone b)
  have hcalm1 := hcalm.of_shows hshows1
  obtain ⟨s2, hstore⟩ :=
    store_total (g := ByteMem.wordByte (BitVec.ofInt 32 (-eNoDisk)) (fIndirect f)) (n := 4)
    (a := fIndirect f) hcalm1 (by
      rw [hshows1.view]
      exact hown.accessible_field hcalm.two hf (show 176 + 4 ≤ 256 by omega))
  have hshows2 := storew_shows hstore
  refine ⟨hpanic, s1, s2, halloc, hstore, ?_, ?_⟩
  · rw [hshows2.view, word_putWord_self]
    rfl
  · rw [Option.eq_none_iff_forall_ne_some]
    intro r hr
    obtain ⟨_, _, _, hlt⟩ := diskaddr_cases hr
    have hlt := hlt (hshows2.super.trans hcalm1.super)
    have hle := hcalm.nblocks_le
    have hroot := hown.sRoot_le hf
    rw [hshows2.view, hshows1.view, word_putWord (by
      simp only [sNblocks, sRoot, fIndirect, diskmap, blksize] at *; omega), BitVec.lt_def] at hlt
    simp only [BitVec.toNat_ofNat, Nat.reducePow, Nat.reduceMod] at hlt
    omega

/-- **Without room for the indirect block** `file_get_block` panics. -/
theorem fileGetBlock_panics (hcalm : Calm s) (hown : OwnOn S D s.view) (hf : f ∈ S)
    (hroom : ¬ IndirectRoom s.view f n.toNat) : fileGetBlock f n s = none := by
  simp only [IndirectRoom, Classical.not_imp, not_exists] at hroom
  obtain ⟨hdirect, hn, h0, hnone⟩ := hroom
  obtain ⟨s₁, hload, hfill⟩ := loadw_total (a := fIndirect f) hcalm
    (hown.accessible_field hcalm.two hf (show 176 + 4 ≤ 256 by omega))
  obtain ⟨hpanic, _⟩ :=
    allocIndirect_full (hcalm.of_fills hfill) (by rw [hfill.view]; exact hown) hf
    (by rw [hfill.view]; exact h0) (fun b => by rw [hfill.view]; exact hnone b)
  rw [fileGetBlock, Proc.bind_apply, fileBlockWalk, if_neg (by omega), if_neg (by omega),
    bind_of_eq hload, if_pos h0, if_neg (by decide), Proc.bind_apply, hpanic]
  rfl

end Blocks

/-! ### The statement -/

/-- **Block lookup.** For every file that is well formed, every block number and every bitmap,
    `file_get_block` returns the address of a block in use, `-E_NO_DISK` or `-E_INVAL`, and the
    block pointers of the file are those of blocks in use, if and only if there is a free block
    where an indirect block is needed. -/
theorem get_block_returns {S D : Set ℕ} {s : Server} {f : ℕ} {n : Word} (hcalm : Calm s)
    (hown : OwnOn S D s.view) (hf : f ∈ S) :
    (∃ r s', fileGetBlock f n s = some (r, s') ∧
      ((∃ t, r = .ok (blkaddr t) ∧ HasBlock s'.view f n.toNat t ∧ InUse s'.view t) ∨
        r = .error (-eNoDisk) ∨ r = .error (-eInval)) ∧
      ∀ p : Ptr, p.Valid → target s'.view f p ≠ 0#32 → InUse s'.view (target s'.view f p)) ↔
    IndirectRoom s.view f n.toNat := by
  refine ⟨?_, fun hroom => ?_⟩
  · rintro ⟨r, s', hget, -⟩
    by_contra hroom
    rw [fileGetBlock_panics hcalm hown hf hroom] at hget
    cases hget
  obtain ⟨r, s', hget, hcalm', hown'⟩ := fileGetBlock_returns hcalm hown hf hroom
  refine ⟨r, s', hget, ?_, fun p hp hne => hown'.inUse hf hp hne⟩
  cases r with
  | error e =>
    rcases fileGetBlock_error hget with ⟨rfl, _⟩ | rfl
    · exact .inr (.inr rfl)
    · exact .inr (.inl rfl)
  | ok blk =>
    obtain ⟨_, hok⟩ :=
      fileGetBlock_made OwnOn.closed (OwnOn.anchored hf) hcalm.super (hown.sRoot_le hf) hown
      (fun b _ => hf) (fun b => hf) hget
    obtain ⟨t, hblk, rfl⟩ := hok blk rfl
    obtain ⟨hn, htarget, hne⟩ := hblk.target
    refine .inl ⟨t, rfl, hblk, ?_⟩
    rw [← htarget]
    exact hown'.inUse hf (p := .data n.toNat) hn (by rw [htarget]; exact hne)

/-- The first block of the file that goes through the indirect block, with one free block. -/
theorem get_block_returns_one_free : ∃ r s',
    fileGetBlock (blkaddr 3#32) 10#32 (serverOn fileDisk) = some (r, s') ∧
    ((∃ t, r = .ok (blkaddr t) ∧ InUse s'.view t) ∨ r = .error (-eNoDisk) ∨
      r = .error (-eInval)) := by
  have hup := fileDisk_settled
  have hcalm : Calm (serverOn fileDisk) := ⟨hup.toUp, hup.one, by
    rw [view_serverOn]
    decide⟩
  obtain ⟨r, s', hget, hr, _⟩ := (get_block_returns (n := 10#32) hcalm
    (fileDisk_oneFile.owned.ownOn hup.mounted) fileDisk_oneFile.mem_tree).mpr fun _ _ _ => ⟨4#32, by
      rw [view_serverOn]
      decide⟩
  refine ⟨r, s', hget, ?_⟩
  rcases hr with ⟨t, hr, _, huse⟩ | hr
  · exact .inl ⟨t, hr, huse⟩
  · exact .inr hr

/-- Four blocks, all of them in use, and an empty file. -/
def fullDisk : ByteMem := diskWith 4#32 0#32 0#32

theorem fullDisk_oneFile : OneFile (serverOn fullDisk).view := by
  decide

theorem fullDisk_calm : Calm (serverOn fullDisk) :=
  ⟨up_serverOn (by decide) (by decide), by decide, by
    rw [view_serverOn]
    decide⟩

theorem fullDisk_full (b : Word) : ¬ IsFree (serverOn fullDisk).view b := by
  rw [view_serverOn]
  rintro ⟨hlt, hbit⟩
  have hn : fullDisk.word sNblocks = 4#32 := by decide
  rw [hn, BitVec.lt_def] at hlt
  have haddr : bitmapAddr b = bitmapAddr 0#32 := by
    rw [bitmapAddr_inj]
    simp only [BitVec.toNat_ofNat, Nat.reducePow, Nat.reduceMod] at hlt ⊢
    omega
  have hzero : fullDisk.word (bitmapAddr 0#32) = 0#32 := by decide
  rw [haddr, hzero, bitmapBit, has_bit (Nat.mod_lt _ (by omega))] at hbit
  simp at hbit

/-- **The first indirect block on a full disk.** The file is empty and well formed. `alloc_block`
    returns `-E_NO_DISK`, `f_indirect` is set to it, and `diskaddr` panics. -/
theorem get_block_panics : Calm (serverOn fullDisk) ∧ Owned (serverOn fullDisk).view ∧
    blkaddr 3#32 ∈ tree (serverOn fullDisk).view ∧
    (serverOn fullDisk).view.word (fIndirect (blkaddr 3#32)) = 0#32 ∧
    fileGetBlock (blkaddr 3#32) 10#32 (serverOn fullDisk) = none ∧
    ∃ s₁ s₂, allocBlock (serverOn fullDisk) = some (-eNoDisk, s₁) ∧
      storew (fIndirect (blkaddr 3#32)) (BitVec.ofInt 32 (-eNoDisk)) s₁ = some ((), s₂) ∧
      s₂.view.word (fIndirect (blkaddr 3#32)) = 0xFFFFFFF7#32 ∧
      diskaddr 0xFFFFFFF7#32 s₂ = none := by
  have hone := fullDisk_oneFile
  have hcalm := fullDisk_calm
  have hown := hone.owned.ownOn hcalm.mounted
  have hmem := hone.mem_tree
  have h0 : (serverOn fullDisk).view.word (fIndirect (blkaddr 3#32)) = 0#32 := by
    rw [view_serverOn]
    decide
  obtain ⟨_, hsteps⟩ := allocIndirect_full hcalm hown hmem h0 fullDisk_full
  refine ⟨hcalm, hone.owned, hmem, h0, fileGetBlock_panics hcalm hown hmem fun hroom => ?_, hsteps⟩
  obtain ⟨b, hb⟩ := hroom (by decide) (by decide) h0
  exact fullDisk_full b hb

end LinuxStudy.Fs
