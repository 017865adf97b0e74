import LinuxStudy.Fs.Access
import LinuxStudy.Fs.Ownership

/-!
# The contents of files

`file_write` changes the bytes of its file that it is given and no others. The fields and block
pointers that a call uses are in blocks in use.
-/

namespace LinuxStudy.Fs

open Jos
open Proc (bind_eq_some pure_eq_some bind_of_eq)
open ByteMem
open BitVec (lt_def toNat_add le_def)

/-- The block that a position of a file is in, or 0. -/
def blockAt (v : ByteMem) (f pos : ℕ) : Word := target v f (.data (pos / blksize))

/-- A byte of a file, where it has a block. -/
def byteAt (v : ByteMem) (f pos : ℕ) : Byte := v (blkaddr (blockAt v f pos) + pos % blksize)

section Bytes

variable {S D : Set ℕ} {v v' v₀ : ByteMem} {f g pos : ℕ} {B : ℕ → ℕ → Prop} {L : ℕ → Word}

theorem inBlock_byteAt (v : ByteMem) (f pos : ℕ) :
    InBlock (blockAt v f pos) (blkaddr (blockAt v f pos) + pos % blksize) := by
  refine ⟨Nat.le_add_right _ _, ?_⟩
  have := Nat.mod_lt pos (show 0 < blksize by decide)
  omega

theorem Grown.byteAt (hg : Grown S D B L v₀ v) (hf : f ∈ S) (hD : f ∉ D)
    (hpos : pos / blksize < ndirect + nindirect) (hne : blockAt v₀ f pos ≠ 0#32) :
    blockAt v f pos = blockAt v₀ f pos ∧ byteAt v f pos = byteAt v₀ f pos := by
  have htgt : blockAt v f pos = blockAt v₀ f pos := hg.target f hf (.data _) hpos hne
  have hin := inBlock_byteAt v f pos
  refine ⟨htgt, ?_⟩
  rw [← htgt] at hne
  have hclean := hg.own.clean_data hf hD hpos hne hin
  rw [Fs.byteAt, Fs.byteAt, hg.bytes f hf _ hpos hne _ hin hclean.notField, htgt]

theorem not_inMap_of_offMap {a n x : ℕ} (h : OffMap a n) (h1 : a ≤ x) (h2 : x < a + n) :
    ¬ InMap x := by
  simp only [OffMap, InMap] at *
  omega

theorem toInt_of_small {x : Word} (h : x.toNat < 2 ^ 31) : x.toInt = x.toNat := by
  rw [BitVec.toInt_eq_toNat_cond, if_pos (by omega)]

theorem OwnOn.offMap (h : OwnOn S D v) {e : Edit} (he : Edits v e v') (hon : e.On S D)
    (hram : ∀ a n, e ≠ .ram a n) {x : ℕ} (hx : ¬ InMap x) : v' x = v x := by
  have hin : ∀ t : Word, t < v.word sNblocks → InBlock t x → False := fun t ht hx' =>
    hx (inMap_block (h.toNat_lt ht) hx')
  refine he.bytes h hon (h.clean_offMap (by simp only [InMap] at hx; omega)) fun hw => ?_
  cases he with
  | ram g _ => exact hram _ _ rfl
  | indirect _ _ hfree => exact hin _ hfree.1 hw
  | write g hreach _ hlt =>
    rw [← hreach.target] at hlt
    exact hin _ hlt hw
  | name g hreach _ hlt hj =>
    rw [← hreach.target] at hlt
    refine hin _ hlt ?_
    simp only [Edit.Writes] at hw
    simp only [InBlock, blksize, blkfiles] at *
    omega
  | data | dropData | dropIndirect | size => exact hw

end Bytes

/-! ### One block -/

/-- The changes of `v` add blocks where `B` allows them, and nothing outside the disk map
    changes. -/
structure Sprouted (S D : Set ℕ) (B : ℕ → ℕ → Prop) (L : ℕ → Word) (v₀ w v : ByteMem) : Prop where
  grown : Grown S D B L v₀ v
  ram : ∀ x, ¬ InMap x → v x = w x

/-- The changes of `file_get_block`. -/
def Edit.Sprouts (S : Set ℕ) (B : ℕ → ℕ → Prop) : Edit → Prop
  | .ram _ _ => False
  | e => e.Adds S B

section Block

variable {S D : Set ℕ} {B : ℕ → ℕ → Prop} {L : ℕ → Word} {v w v₀ : ByteMem} {s s' : Server}
  {f n a m : ℕ}

theorem Sprouted.closed : Closed (Edit.Sprouts S B) (Sprouted S D B L v₀ w) := by
  refine ⟨fun _ h => h.grown.own.sized, fun v e v' h hK he => ?_⟩
  have hadd : e.Adds S B := by
    cases e <;> first | exact hK | exact hK.elim
  refine ⟨h.grown.step hadd he, fun x hx => ?_⟩
  rw [h.grown.own.offMap he hadd.on (fun a n hram => by rw [hram] at hK; exact hK) hx, h.ram x hx]

theorem fileGetBlock_grown {n : Word} {r : Except Int ℕ} (hl : Live (Grown S D B L v₀) s)
    (hf : f ∈ S)
    (hB : B f n.toNat) (h : fileGetBlock f n s = some (r, s')) :
    Live (Grown S D B L v₀) s' ∧ (∀ x, ¬ InMap x → s'.view x = s.view x) ∧
      ∀ blk, r = .ok blk → ∃ t, HasBlock s'.view f n.toNat t ∧ blk = blkaddr t := by
  have hclosed : Closed (Edit.Sprouts S B) (Sprouted S D B L v₀ s.view) := Sprouted.closed
  have hanch : Anchored (Sprouted S D B L v₀ s.view) f := fun v k b v' hI he =>
    OwnOn.anchored hf v k b v' hI.grown.own he
  have h0 : Sprouted S D B L v₀ s.view s.view := ⟨hl.inv, fun _ _ => rfl⟩
  obtain ⟨hmade, hok⟩ := fileGetBlock_made hclosed hanch hl.super (hl.inv.own.sRoot_le hf) h0
    (fun b hle => ⟨hf, _, hle, hB⟩) (fun b => ⟨hf, hB⟩) h
  have hs := hmade.inv hclosed h0
  exact ⟨⟨hmade.shows.super.trans hl.super, hs.grown⟩, hs.ram, hok⟩

theorem OwnOn.store_block {k : ℕ} {t : Word} {g : ℕ → Byte} (h : OwnOn S D v) (hf : f ∈ S)
    (hD : f ∉ D)
    (hblk : HasBlock v f k t) (ham : a + m ≤ blksize) :
    OwnOn S D (v.overwrite (blkaddr t + a) m g) ∧
    (∀ d ∈ S, ∀ p : Ptr, p.Valid → target (v.overwrite (blkaddr t + a) m g) d p = target v d p) ∧
    (∀ d ∈ S, (v.overwrite (blkaddr t + a) m g).word (fSize d) = v.word (fSize d)) ∧
    (∀ x, ¬ InMap x → v.overwrite (blkaddr t + a) m g x = v x) ∧
    ∀ pos, pos / blksize < ndirect + nindirect → blockAt v f pos ≠ 0#32 →
      byteAt (v.overwrite (blkaddr t + a) m g) f pos =
        if pos / blksize = k ∧ a ≤ pos % blksize ∧
        pos % blksize < a + m then g (blkaddr t + pos % blksize)
        else byteAt v f pos := by
  obtain ⟨hn, htgt, hne⟩ := hblk.target
  obtain ⟨hreach, hword, _, hlt⟩ := hblk
  have hedit : Edits v (.write f k) (v.overwrite (blkaddr t + a) m g) := by
    refine .write g hreach ?_ ?_ ?_ ?_ <;> rw [hword]
    · exact hne
    · exact hlt
    · omega
    · omega
  have hon : (Edit.write f k).On S D := ⟨hf, hD⟩
  have ha := hedit.after_keep h hon nofun
  refine ⟨h.step hon hedit, ha.target, fun d hd => hedit.size_same h hon hd nofun,
    fun x hx => h.offMap hedit hon nofun hx, fun pos hpos hpne => ?_⟩
  have hsame : blockAt (v.overwrite (blkaddr t + a) m g) f pos = blockAt v f pos :=
    ha.target f hf (.data _) hpos
  rw [byteAt, hsame, byteAt]
  by_cases hk : pos / blksize = k
  · rw [blockAt, hk, htgt]
    by_cases hin : a ≤ pos % blksize ∧ pos % blksize < a + m
    · rw [if_pos ⟨rfl, hin⟩, overwrite_in (by omega) (by omega)]
    · rw [if_neg (not_and_of_not_right _ hin), overwrite_out (by omega)]
  · -- the bytes of another block
    rw [if_neg (not_and_of_not_left _ hk)]
    have hin := inBlock_byteAt v f pos
    have hrange := h.range f hf (.data _) hpos hpne
    have hother : blockAt v f pos ≠ t := by
      rw [← htgt]
      intro heq
      exact hk (Ptr.data.inj (h.inj f hf (.data _) hpos f hf (.data k) hn hpne heq).2)
    refine overwrite_out ?_
    by_contra hno
    refine hother (hin.unique (h.toNat_lt hrange.2.1) (h.toNat_lt hlt) ⟨?_, ?_⟩) <;> omega

end Block

/-! ### The loop of `file_write` -/

/-- The bytes from `offset` to `pos` are those of the buffer, and the others are as in `v₀`. -/
structure Poured (S D : Set ℕ) (L : ℕ → Word) (f offset buf : ℕ) (v₀ : ByteMem) (pos : ℕ)
    (v : ByteMem) : Prop where
  own : OwnOn S D v
  size : ∀ g ∈ S, v.word (fSize g) = L g
  ram : ∀ x, ¬ InMap x → v x = v₀ x
  keep : ∀ p, p / blksize < ndirect + nindirect → blockAt v₀ f p ≠ 0#32 →
    blockAt v f p = blockAt v₀ f p
  done : ∀ p, offset ≤ p → p < pos → p / blksize < ndirect + nindirect ∧ blockAt v f p ≠ 0#32 ∧
    byteAt v f p = v₀ (buf + (p - offset))
  rest : ∀ p, p / blksize < ndirect + nindirect → p < offset ∨ pos ≤ p → blockAt v₀ f p ≠ 0#32 →
    byteAt v f p = byteAt v₀ f p

section Pour

variable {S D : Set ℕ} {L : ℕ → Word} {v v' v₀ : ByteMem} {s s' : Server} {f buf fuel : ℕ}
  {stop : Word}

variable {offset pos : ℕ} {r : Int} {x : Word}

theorem Poured.refl (h : OwnOn S D v) : Poured S D (sizes v) f offset buf v offset v :=
  ⟨h, fun _ _ => rfl, fun _ _ => rfl, fun _ _ _ => rfl, fun _ h1 h2 =>
    absurd h1 (Nat.not_le.mpr h2), fun _ _ _ _ => rfl⟩

theorem Poured.grow {B : ℕ → ℕ → Prop} (hp : Poured S D L f offset buf v₀ pos v) (hf : f ∈ S)
    (hD : f ∉ D) (hg : Grown S D B (sizes v) v v') (hram : ∀ x, ¬ InMap x → v' x = v x) :
    Poured S D L f offset buf v₀ pos v' := by
  refine ⟨hg.own, fun g hgS => (hg.size g hgS).trans (hp.size g hgS), fun x hx =>
    (hram x hx).trans (hp.ram x hx),
    fun p hlt hne => ?_, fun p h1 h2 => ?_, fun p hlt hout hne => ?_⟩
  · have hold := hp.keep p hlt hne
    rw [← hold] at hne ⊢
    exact (hg.byteAt hf hD hlt hne).1
  · obtain ⟨hlt, hne, hbyte⟩ := hp.done p h1 h2
    obtain ⟨htgt, hsame⟩ := hg.byteAt hf hD hlt hne
    refine ⟨hlt, ?_, hsame.trans hbyte⟩
    rw [htgt]
    exact hne
  · have hold := hp.keep p hlt hne
    rw [← hp.rest p hlt hout hne]
    rw [← hold] at hne
    exact (hg.byteAt hf hD hlt hne).2

theorem Poured.copy {n : ℕ} {t : Word} (hp : Poured S D L f offset buf v₀ pos v) (hf : f ∈ S)
    (hD : f ∉ D) (hblk : HasBlock v f (pos / blksize) t) (hle : offset ≤ pos)
    (hn : pos % blksize + n ≤ blksize)
    (hbuf : ∀ i < n, ¬ InMap (buf + (pos - offset) + i)) :
    Poured S D L f offset buf v₀ (pos + n) (v.overwrite (blkaddr t + pos % blksize) n
      fun x => v (buf + (pos - offset) + (x - (blkaddr t + pos % blksize)))) := by
  obtain ⟨hlt, htgt, hne⟩ := hblk.target
  obtain ⟨hown, hptr, hsize, hram, hbytes⟩ := hp.own.store_block (m := n) hf hD hblk hn
  generalize hv' : v.overwrite (blkaddr t + pos % blksize) n
    (fun x => v (buf + (pos - offset) + (x - (blkaddr t + pos % blksize)))) = v' at *
  have hblock : ∀ p, p / blksize < ndirect + nindirect → blockAt v' f p = blockAt v f p :=
    fun p hp => hptr f hf (.data _) hp
  refine ⟨hown, fun g hg => (hsize g hg).trans (hp.size g hg), fun x hx =>
    (hram x hx).trans (hp.ram x hx),
    fun p hlt hne => (hblock p hlt).trans (hp.keep p hlt hne), fun p h1 h2 =>
    ?_, fun p hlt hout hne => ?_⟩
  · by_cases hpos : p < pos
    · obtain ⟨hlt, hne, hbyte⟩ := hp.done p h1 hpos
      refine ⟨hlt, by rw [hblock p hlt]; exact hne, ?_⟩
      rw [hbytes p hlt hne, if_neg ?_, hbyte]
      rintro ⟨hk, ha, _⟩
      have h1 := Nat.div_add_mod p blksize
      have h2 := Nat.div_add_mod pos blksize
      rw [hk] at h1
      omega
    · -- a byte of this copy
      have hdiv : p / blksize = pos / blksize ∧ p % blksize = pos % blksize + (p - pos) := by
        simp only [blksize] at *
        omega
      have hlt' : p / blksize < ndirect + nindirect := by
        rw [hdiv.1]
        exact hlt
      have hne' : blockAt v f p ≠ 0#32 := by
        rw [blockAt, hdiv.1, htgt]
        exact hne
      refine ⟨hlt', by rw [hblock p hlt']; exact hne', ?_⟩
      rw [hbytes p hlt' hne', if_pos ⟨hdiv.1, by omega, by omega⟩, hdiv.2]
      rw [show buf + (pos - offset) +
        (blkaddr t + (pos % blksize + (p - pos)) - (blkaddr t + pos % blksize)) =
        buf + (p - offset) by omega]
      refine hp.ram _ ?_
      have := hbuf (p - pos) (by omega)
      rwa [show buf + (pos - offset) + (p - pos) = buf + (p - offset) by omega] at this
  · have hne' : blockAt v f p ≠ 0#32 := by
      rw [hp.keep p hlt hne]
      exact hne
    rw [hbytes p hlt hne', if_neg ?_]
    · exact hp.rest p hlt (by omega) hne
    · simp only [blksize] at *
      omega

/-- How far the loop has come. -/
structure Pouring (S D : Set ℕ) (L : ℕ → Word) (f offset buf : ℕ) (stop : Word) (v₀ : ByteMem)
    (pos : Word)
    (b : ℕ) (s : Server) : Prop where
  super : s.super = true
  poured : Poured S D L f offset buf v₀ pos.toNat s.view
  buf_eq : b = buf + (pos.toNat - offset)
  le : offset ≤ pos.toNat
  lt : pos.toNat < 2 ^ 31
  stop_le : pos.toNat ≤ max offset stop.toNat

theorem Pouring.step {b : ℕ} {blk : ℕ} {pos : Word} {s1 s2 : Server}
    (hp : Pouring S D L f offset buf stop v₀ pos b s) (hf : f ∈ S) (hD : f ∉ D)
    (hbuf : ∀ x, buf ≤ x → x < buf + (stop.toNat - offset) → ¬ InMap x) (hlt : pos < stop)
    (hget : fileGetBlock f (pos.sdiv 4096#32) s = some (.ok blk, s1))
    (hmove : memmove (BitVec.ofNat 32 blk + pos.srem 4096#32).toNat b (chunk stop pos).toNat s1 =
      some ((), s2)) :
    Pouring S D L f offset buf stop v₀ (pos + chunk stop pos) (b + (chunk stop pos).toNat) s2 := by
  have hl : Live (Grown S D (fun _ _ => True) (sizes s.view) s.view) s :=
    ⟨hp.super, .refl hp.poured.own⟩
  obtain ⟨hl1, hram, hok⟩ := fileGetBlock_grown hl hf trivial hget
  obtain ⟨t, hblk, rfl⟩ := hok blk rfl
  rw [sdiv_block hp.lt] at hblk
  have hp1 := hp.poured.grow hf hD hl1.inv hram
  rw [addr_in_block (hblk.toNat_lt hp1.own.sized).2 hp.lt] at hmove
  have hshows := memmove_shows hmove
  have hchunk := chunk_toNat hp.lt hlt
  have hpos := toNat_add_chunk hlt
  rw [lt_def] at hlt
  have hle := hp.le
  have hn := (hblk.toNat_lt hp1.own.sized).1
  refine ⟨hshows.super.trans hl1.super, ?_, ?_, ?_, ?_, ?_⟩
  · have hcopy := hp1.copy hf hD hblk hp.le (n := (chunk stop pos).toNat)
      (by simp only [blksize]; omega) (fun i hi => hbuf _ (by omega) (by omega))
    rw [hshows.view, hpos, hp.buf_eq]
    exact hcopy
  · rw [hpos, hp.buf_eq]
    omega
  · omega
  · omega
  · omega

theorem OwnOn.store_size (h : OwnOn S D v) (hf : f ∈ S) :
    OwnOn S D (v.putWord (fSize f) x) ∧
    (∀ g ∈ S, (v.putWord (fSize f) x).word (fSize g) = Function.update (sizes v) f x g) ∧
    (∀ g ∈ S, ∀ p : Ptr, p.Valid → target (v.putWord (fSize f) x) g p = target v g p) ∧
    (∀ y, ¬ InMap y → v.putWord (fSize f) x y = v y) ∧
    ∀ y, Clean S v y → v.putWord (fSize f) x y = v y := by
  have hedit : Edits v (.size f x) (v.putWord (fSize f) x) := .size
  have hg := (Grown.refl h (B := fun _ _ => True)).resize hf hedit
  have ha := hedit.after_keep h (show (Edit.size f x).On S D from hf) fun c hs =>
    ⟨f, by cases c <;> exact hs⟩
  exact ⟨hg.own, hg.size, ha.target, fun y hy => h.offMap hedit hf nofun hy,
    fun y hy => hedit.bytes h hf hy id⟩

theorem OwnOn.isFree_size {b : Word} (h : OwnOn S D v) (hf : f ∈ S) :
    IsFree (v.putWord (fSize f) x) b ↔ IsFree v b :=
  ((Edits.size (v := v) (f := f) (x := x)).after_keep h hf fun c hs =>
    ⟨f, by cases c <;> exact hs⟩).free b

theorem fileSetSize_grow {newsize : Word} (hle : ¬ newsize.toInt < (s.view.word (fSize f)).toInt)
    (h : fileSetSize f newsize s = some (r, s')) :
    Shows (s.view.putWord (fSize f) newsize) s s' := by
  simp only [fileSetSize, bind_eq_some, pure_eq_some] at h
  obtain ⟨size, s1, hload, _, s2, hwhen, _, s3, hstore, _, s4, hflush, _, rfl⟩ := h
  obtain ⟨hfill, rfl⟩ := loadw_cases hload
  rcases Proc.when_eq_some.mp hwhen with ⟨hlt, _⟩ | ⟨_, rfl⟩
  · exact absurd hlt hle
  · have hstore := storew_shows hstore
    rw [hfill.view] at hstore
    have hflush := (flushBlock_shows hflush).2.1
    rw [hstore.view] at hflush
    exact (hfill.shows.trans hstore).trans hflush

end Pour

/-! ### What `file_read` delivers -/

section Draw

variable {offset size count : Word}

/-- The number of bytes a call of `file_read` delivers. -/
def readCount (size count offset : Word) : ℕ := min count.toNat (size.toNat - offset.toNat)

theorem minu_readCount (hle : offset.toNat ≤ size.toNat) :
    (minu count (size - offset)).toNat = readCount size count offset := by
  have hsub : (size - offset).toNat = size.toNat - offset.toNat := by
    rw [BitVec.toNat_sub]
    omega
  rw [minu, readCount]
  split
  · next h =>
    rw [le_def] at h
    omega
  · next h =>
    rw [le_def] at h
    omega

end Draw

/-! ### The addresses that a call reaches -/

section Total

variable {S D : Set ℕ} {v : ByteMem} {s s' : Server} {f n fuel buf : ℕ} {stop pos : Word}

theorem OwnOn.inUse (h : OwnOn S D v) (hf : f ∈ S) {p : Ptr} (hp : p.Valid)
    (hne : target v f p ≠ 0#32) : InUse v (target v f p) := (h.range f hf p hp hne).2

theorem held_root (hsized : Sized v) (hone : ¬ IsFree v 1#32) (htwo : 2 < (v.word sNblocks).toNat) :
    Held v sRoot 256 := by
  have huse : InUse v 1#32 := by
    refine ⟨?_, hone⟩
    rw [lt_def]
    simp only [BitVec.toNat_ofNat]
    omega
  refine held_of_block hsized huse ?_ ?_ <;>
    simp only [show blkaddr 1#32 = 0x10001000 by decide, sRoot, diskmap, blksize] <;> omega

theorem OwnOn.held (h : OwnOn S D v) (htwo : 2 < (v.word sNblocks).toNat) (hf : f ∈ S) :
    Held v f 256 := by
  rcases h.home f hf with rfl | ⟨d, hd, k, j, hk, hj, hne, rfl⟩
  · exact held_root h.sized (h.reserved 1#32 one_le_lastBitmap) htwo
  · refine held_of_block h.sized (h.inUse (h.sub hd) (p := .data k) hk hne) ?_ ?_ <;>
      simp only [blkfiles, blksize] at * <;> omega

theorem OwnOn.accessible_field (h : OwnOn S D v) (htwo : 2 < (v.word sNblocks).toNat)
    (hf : f ∈ S) {o : ℕ}
    (ho : o + 4 ≤ 256) : Accessible v (f + o) 4 := ((h.held htwo hf).sub ho).1

theorem Held.slot (hf : Held v f 256) (hsized : Sized v) (hn : n < ndirect + nindirect)
    (hind : ¬ n < ndirect → InUse v (v.word (fIndirect f))) : Held v (slotAddr v f n) 4 := by
  rw [slotAddr]
  split
  · next hdir =>
    rw [fDirect, Nat.add_assoc]
    refine hf.sub ?_
    simp only [ndirect] at hdir
    omega
  · next hdir =>
    refine held_of_block hsized (hind hdir)
      ?_ ?_ <;> simp only [ndirect, nindirect, blksize] at * <;> omega

theorem OwnOn.accessible_slot (h : OwnOn S D v) (htwo : 2 < (v.word sNblocks).toNat) (hf : f ∈ S)
    (hreach : Reaches v f n) : Accessible v (slotAddr v f n) 4 :=
  ((h.held htwo hf).slot h.sized hreach.1 fun hdir =>
    h.inUse hf (p := .indirect) trivial (hreach.2.resolve_left hdir).1).1

/-- Block `n` of a file is there and can be read. -/
structure Readable (v : ByteMem) (f n : ℕ) : Prop where
  held : Held v f 256
  lt : n < ndirect + nindirect
  ne : target v f (.data n) ≠ 0#32
  inUse : InUse v (target v f (.data n))
  indirect : ¬ n < ndirect → InUse v (v.word (fIndirect f))

theorem indirect_ne_zero (hdir : ¬ n < ndirect) (hne : target v f (.data n) ≠ 0#32) :
    v.word (fIndirect f) ≠ 0#32 := by
  intro hzero
  rw [target, if_neg hdir, if_pos hzero] at hne
  exact hne rfl

theorem indirectSlot_total {n : Word} (hcalm : Calm s)
    (hfield : ∀ o, o + 4 ≤ 256 → Accessible s.view (f + o) 4)
    (hind : s.view.word (fIndirect f) ≠ 0#32)
    (hlt : s.view.word (fIndirect f) < s.view.word sNblocks)
    (hdir : ¬ n.toNat < ndirect) :
    ∃ s', indirectSlot f n s = some (.ok (slotAddr s.view f n.toNat), s') ∧ Fills s s' := by
  obtain ⟨s1, hload, hfill⟩ := loadw_total (a := fIndirect f) hcalm (hfield 176 (by omega))
  have haddr := diskaddr_total (hcalm.of_fills hfill) hind (by rw [hfill.view]; exact hlt)
  refine ⟨s1, ?_, hfill⟩
  rw [slotAddr, if_neg hdir, indirectSlot, bind_of_eq hload, bind_of_eq haddr]
  rfl

/-- **`file_get_block`** of a block that is there. -/
theorem yields_fileGetBlock {I : Server → Prop} {n : Word} (hI : Looking v I)
    (hr : Readable v f n.toNat) :
    Proc.Yields I (fileGetBlock f n) (.ok (blkaddr (target v f (.data n.toNat)))) := by
  intro s hs
  have hlt := hr.lt
  obtain ⟨hwalk, hreach⟩ : Proc.Yields I (fileBlockWalk f n true) (.ok (slotAddr v f n.toNat)) ∧
      Reaches v f n.toNat := by
    rw [fileBlockWalk, if_neg (by omega), slotAddr]
    by_cases hdir : n.toNat < ndirect
    · rw [if_pos hdir, if_pos hdir]
      exact ⟨.pure _, hlt, .inl hdir⟩
    · have hne := indirect_ne_zero hdir hr.ne
      have huse := (hr.indirect hdir).1
      have hload : Proc.Yields I (loadw (fIndirect f)) _ :=
        yields_loadw hI (hr.held.sub (o := 176) (by omega))
      rw [if_neg hdir, if_neg hdir]
      refine ⟨hload.bind ?_, hlt, .inr ⟨hne, huse⟩⟩
      rw [if_neg hne]
      exact hload.bind ((yields_diskaddr hI hne huse).bind (.pure _))
  have hload := yields_loadw hI (hr.held.slot (hI.sized hs) hlt hr.indirect)
  rw [← hreach.target] at hload
  have hgo : Proc.Yields I (fileGetBlock f n) _ := hwalk.bind (hload.bind (by
    rw [if_neg hr.ne]
    exact hload.bind ((yields_diskaddr hI hr.ne hr.inUse.1).bind (.pure _))))
  exact hgo s hs

/-- **Total rule** for the loop, where every iteration succeeds. -/
theorem xferLoop_total {move : ℕ → ℕ → ℕ → FsM Unit} (J : Word → ℕ → Server → Prop)
    (hstep : ∀ pos buf s, J pos buf s → pos < stop → pos.toNat < 2 ^ 31 ∧ ∃ blk s1 s2,
      fileGetBlock f (pos.sdiv 4096#32) s = some (.ok blk, s1) ∧
      move buf (BitVec.ofNat 32 blk + pos.srem 4096#32).toNat (chunk stop pos).toNat s1 =
      some ((), s2) ∧ J (pos + chunk stop pos) (buf + (chunk stop pos).toNat) s2)
    (hfuel : stop.toNat - pos.toNat < fuel) (h0 : J pos buf s) :
    ∃ s', xferLoop move f stop fuel pos buf s = some (none, s') ∧
      ∃ pos' buf', ¬ pos' < stop ∧ J pos' buf' s' := by
  induction fuel generalizing pos buf s with
  | zero => omega
  | succ fuel ih =>
    rw [xferLoop]
    split
    · next hlt =>
      obtain ⟨hpos, blk, s1, s2, hget, hmove, hJ⟩ := hstep pos buf s h0 hlt
      have hchunk := chunk_toNat hpos hlt
      have hadd := toNat_add_chunk hlt
      rw [lt_def] at hlt
      obtain ⟨s', hs', hend⟩ := ih (by omega) hJ
      refine ⟨s', ?_, hend⟩
      rw [bind_of_eq hget]
      exact (bind_of_eq hmove).trans hs'
    · next hge => exact ⟨s, rfl, pos, buf, hge, h0⟩

end Total

end LinuxStudy.Fs
