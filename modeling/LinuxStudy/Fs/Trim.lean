import LinuxStudy.Fs.Clients
import Mathlib.Data.List.TakeWhile

/-!
# Sizes and block pointers

A file is trimmed if its size is in range and it has no blocks past its end. The calls of the
file system keep files so as long as they are given sizes and offsets in range. The file server
does not check what its clients ask for.
-/

namespace LinuxStudy.Fs

open Jos
open Proc (bind_eq_some pure_eq_some when_eq_some bind_of_eq get_apply)
open Made
open BitVec (toNat_add toNat_ofNat lt_def)
open Function (update_self update_of_ne)

/-- The number of blocks for so many bytes. -/
def blocksFor (size : ℕ) : ℕ := (size + 4095) / blksize

/-- The size of `f` is in range, and the block pointers past its end are zero. -/
structure Trim (v : ByteMem) (f : ℕ) : Prop where
  size : (v.word (fSize f)).toNat ≤ maxfilesize
  slots : ∀ n, blocksFor (v.word (fSize f)).toNat ≤ n → n < ndirect + nindirect →
    target v f (.data n) = 0#32

def Trimmed (v : ByteMem) : Prop := ∀ f ∈ tree v, Trim v f

section Size

variable {x : Word}

theorem sizeBlocks_toNat (h : x.toNat ≤ maxfilesize) :
    (sizeBlocks x).toNat = blocksFor x.toNat := by
  simp only [maxfilesize, ndirect, nindirect, blksize] at h
  have hadd : (x + 4095#32).toNat = x.toNat + 4095 := by
    rw [toNat_add]
    simp only [toNat_ofNat]
    omega
  rw [sizeBlocks, sdiv_block (by omega), hadd, blocksFor, blksize]

theorem blocksFor_mono {a b : ℕ} (h : a ≤ b) : blocksFor a ≤ blocksFor b :=
  Nat.div_le_div_right (by omega)

theorem toInt_lt_iff {x y : Word} (hx : x.toNat ≤ maxfilesize) (hy : y.toNat ≤ maxfilesize) :
    x.toInt < y.toInt ↔ x.toNat < y.toNat := by
  have hmax : maxfilesize = 4235264 := rfl
  rw [toInt_of_small (by omega), toInt_of_small (by omega)]
  omega

end Size

/-! ### Truncation -/

/-- Blocks of `f` below `old` are freed, from `new` on. -/
def Edit.Cuts (f new old : ℕ) : Edit → Prop
  | .dropData g n => g = f ∧ new ≤ n ∧ n < old
  | .dropIndirect g => g = f ∧ new ≤ ndirect
  | _ => False

/-- Only the blocks of `f` from `new` to `old` have become free, and its indirect block if `new`
    does not need it. -/
def FreesOnly (v : ByteMem) (f new old : ℕ) (v' : ByteMem) : Prop :=
  ∀ b, IsFree v' b → IsFree v b ∨ (∃ n, new ≤ n ∧ n < old ∧ b = target v f (.data n)) ∨
    b = target v f .indirect ∧ new ≤ ndirect

/-- The state in the course of `file_truncate_blocks`. -/
structure Cut (S D : Set ℕ) (f new old : ℕ) (v₀ v : ByteMem) : Prop where
  own : OwnOn S D v
  size : ∀ g ∈ S, v.word (fSize g) = v₀.word (fSize g)
  ptr : ∀ p : Ptr, p.Valid → target v f p = 0#32 ∨ target v f p = target v₀ f p
  free : FreesOnly v₀ f new old v

section Truncate

variable {S D : Set ℕ} {v v₀ : ByteMem} {s s' : Server} {f new old : ℕ} {u : Unit}

theorem Cut.closed (hf : f ∈ S) (hD : f ∉ D) :
    Closed (Edit.Cuts f new old) (Cut S D f new old v₀) := by
  refine ⟨fun _ h => h.own.sized, fun v e v' h hK he => ?_⟩
  have hsize : ∀ g ∈ S, (∀ x, e ≠ .size g x) → e.On S D → v'.word (fSize g) = v₀.word (fSize g) :=
    fun g hg hne hon => (he.size_same h.own hon hg hne).trans (h.size g hg)
  cases e with
  | ram | indirect | data | size | write | name => exact hK.elim
  | dropData g n =>
    obtain ⟨rfl, hge, hlt⟩ := hK
    have ha := he.after_dropData h.own hf hD
    refine ⟨h.own.step (e := .dropData g n) ⟨hf, hD⟩ he, fun k hk =>
      hsize k hk nofun ⟨hf, hD⟩, fun p hp => ?_, fun b hb => ?_⟩
    · rw [ha.target g hf p hp]
      split
      · exact .inl rfl
      · exact h.ptr p hp
    · have hne : target v g (.data n) ≠ 0#32 ∧ n < ndirect + nindirect := by
        cases he with
        | dropData hreach hne => exact ⟨by rw [hreach.target]; exact hne, hreach.1⟩
      rcases (ha.free b).mp hb with hfree | rfl
      · exact h.free b hfree
      · exact .inr (.inl ⟨n, hge, hlt, (h.ptr (.data n) hne.2).resolve_left hne.1⟩)
  | dropIndirect g =>
    obtain ⟨rfl, hle⟩ := hK
    have ha := he.after_dropIndirect h.own hf hD
    refine ⟨h.own.step (e := .dropIndirect g) ⟨hf, hD⟩ he, fun k hk => hsize k hk nofun ⟨hf, hD⟩,
      fun p hp => ?_, fun b hb => ?_⟩
    · rw [ha.target g hf p hp]
      split
      · exact .inl rfl
      · exact h.ptr p hp
    · have hne : target v g .indirect ≠ 0#32 := by
        cases he with
        | dropIndirect hne => exact hne
      rcases (ha.free b).mp hb with hfree | rfl
      · exact h.free b hfree
      · exact .inr (.inr ⟨(h.ptr .indirect trivial).resolve_left hne, hle⟩)

theorem Cut.refl (h : OwnOn S D v) : Cut S D f new old v v :=
  ⟨h, fun _ _ => rfl, fun _ _ => .inr rfl, fun _ hb => .inl hb⟩

theorem Cut.zero (h : Cut S D f new old v₀ v) {p : Ptr} (hp : p.Valid) (hz : target v₀ f p = 0#32) :
    target v f p = 0#32 := by
  rcases h.ptr p hp with h0 | h0
  · exact h0
  · rw [h0, hz]

theorem fileFreeBlock_zero {n : Word} {r : Int} (hl : Live (OwnOn S D) s) (hf : f ∈ S) (hD : f ∉ D)
    (hn : n.toNat < ndirect + nindirect) (h : fileFreeBlock f n s = some (r, s')) :
    target s'.view f (.data n.toNat) = 0#32 := by
  rcases fileFreeBlock_cases hl.super hl.inv.sized (hl.inv.sRoot_le hf) h with
    ⟨hshows, hbig | ⟨hdeep, hind⟩ | ⟨hreach, hzero⟩⟩ | ⟨v', he, hshows⟩
  · omega
  · rw [hshows.view, target, if_neg (Nat.not_lt.mpr hdeep), if_pos hind]
  · rw [hshows.view, hreach.target, hzero]
  · rw [hshows.view, (he.after_dropData hl.inv hf hD).target f hf (.data n.toNat) hn,
      if_pos ⟨rfl, rfl⟩]

theorem truncateLoop_zero {k bno : ℕ} (hl : Live (OwnOn S D) s) (hf : f ∈ S) (hD : f ∉ D)
    (hbno : bno + k ≤ 2 ^ 32)
    (h : truncateLoop f k bno s = some (u, s')) {n : ℕ} (h1 : bno ≤ n) (h2 : n < bno + k)
    (hn : n < ndirect + nindirect) : target s'.view f (.data n) = 0#32 := by
  induction k generalizing bno s with
  | zero => omega
  | succ k ih =>
    obtain ⟨r, s1, hfree, h⟩ := bind_eq_some.mp h
    have hnat : (BitVec.ofNat 32 bno).toNat = bno := by
      rw [toNat_ofNat, Nat.mod_eq_of_lt (by omega)]
    have hclosed := OwnOn.closed (S := S) (D := D)
    have hl1 : Live (OwnOn S D) s1 := (fileFreeBlock_made hl.super hl.inv.sized (hl.inv.sRoot_le hf)
      (K := Edit.On S D) ⟨hf, hD⟩ hfree).live hclosed hl
    rcases Nat.eq_or_lt_of_le h1 with rfl | hlt
    · have hzero : target s1.view f (.data bno) = 0#32 := by
        have := fileFreeBlock_zero hl hf hD (by rw [hnat]; exact hn) hfree
        rwa [hnat] at this
      -- what is zero now is not stored to again
      have hcut : Cut S D f 0 (bno + 1 + k) s1.view s'.view :=
        (truncateLoop_made (Cut.closed hf hD) (by omega) hl1.super (hl1.inv.sRoot_le hf)
          (.refl hl1.inv)
          (fun i _ hi => ⟨rfl, Nat.zero_le i, hi⟩) h).inv (Cut.closed hf hD) (.refl hl1.inv)
      exact hcut.zero hn hzero
    · exact ih hl1 (by omega) h (by omega) (by omega)

/-- **`file_truncate_blocks`** frees the blocks between the sizes, and leaves none past the new
    one. -/
theorem fileTruncateBlocks_cut {newsize : Word} (hl : Live (OwnOn S D) s) (hf : f ∈ S) (hD : f ∉ D)
    (ht : Trim s.view f) (hnew : newsize.toNat ≤ maxfilesize)
    (h : fileTruncateBlocks f newsize s = some (u, s')) : s'.super = true ∧
    Cut S D f (blocksFor newsize.toNat) (blocksFor (s.view.word (fSize f)).toNat) s.view s'.view ∧
    ∀ n, blocksFor newsize.toNat ≤ n → n < ndirect + nindirect →
    target s'.view f (.data n) = 0#32 := by
  have hold := sizeBlocks_toNat ht.size
  have hnew' := sizeBlocks_toNat hnew
  have hclosed : Closed _ (Cut S D f (blocksFor newsize.toNat)
        (blocksFor (s.view.word (fSize f)).toNat) s.view) :=
    Cut.closed hf hD
  have hmade := fileTruncateBlocks_made hclosed hl.super (hl.inv.sRoot_le hf) (.refl hl.inv)
    (fun i h1 h2 => ⟨rfl, by omega, by omega⟩) (fun hle => ⟨rfl, by omega⟩) h
  have hcut := hmade.inv hclosed (.refl hl.inv)
  refine ⟨hmade.shows.super.trans hl.super, hcut, fun n hge hlt => ?_⟩
  rcases Nat.lt_or_ge n (blocksFor (s.view.word (fSize f)).toNat) with hin | hout
  · simp only [fileTruncateBlocks, bind_eq_some] at h
    obtain ⟨w, s1, hload, _, s2, hloop, p, s3, hload', hwhen⟩ := h
    obtain ⟨hfill1, rfl⟩ := loadw_cases hload
    obtain ⟨hfill3, rfl⟩ := loadw_cases hload'
    have hl1 : Live (OwnOn S D) s1 := (of_fills hfill1).live OwnOn.closed hl
    have hzero :=
      truncateLoop_zero hl1 hf hD (by rw [hold, hnew']; omega) hloop (n := n) (by omega)
        (by omega) hlt
    rw [← hfill3.view] at hzero hwhen
    have hl2 :=
      (truncateLoop_made (OwnOn.closed (S := S) (D := D)) (by rw [hold, hnew']; omega) hl1.super
      (hl1.inv.sRoot_le hf) hl1.inv (fun _ _ _ => ⟨hf, hD⟩) hloop).live OwnOn.closed hl1
    have hend : Cut S D f 0 0 s3.view s'.view :=
      (truncateEnd_made (fun _ => ⟨rfl, Nat.zero_le _⟩) hwhen).inv
      (Cut.closed hf hD) (.refl (by rw [hfill3.view]; exact hl2.inv))
    exact hend.zero hlt hzero
  · exact hcut.zero hlt (ht.slots n hout hlt)

theorem Trim.store_size {x : Word} (h : OwnOn S D v) (hf : f ∈ S) (hx : x.toNat ≤ maxfilesize)
    (hz : ∀ n, blocksFor x.toNat ≤ n → n < ndirect + nindirect → target v f (.data n) = 0#32) :
    Trim (v.putWord (fSize f) x) f := by
  obtain ⟨_, hsize, htarget, _⟩ := h.store_size (x := x) hf
  have hx' : (v.putWord (fSize f) x).word (fSize f) = x := by
    rw [hsize f hf, update_self]
  refine ⟨by rw [hx']; exact hx, fun n hge hlt => ?_⟩
  rw [htarget f hf (.data n) hlt]
  rw [hx'] at hge
  exact hz n hge hlt

/-- **`file_set_size`** to a size in range. -/
theorem fileSetSize_trim {newsize : Word} {r : Int} (hl : Live (OwnOn S D) s) (hf : f ∈ S)
    (hD : f ∉ D)
    (ht : Trim s.view f) (hnew : newsize.toNat ≤ maxfilesize)
    (h : fileSetSize f newsize s = some (r, s')) : Trim s'.view f ∧
      FreesOnly s.view f (blocksFor newsize.toNat) (blocksFor (s.view.word (fSize f)).toNat)
      s'.view := by
  simp only [fileSetSize, bind_eq_some, pure_eq_some] at h
  obtain ⟨w, s1, hload, _, s2, hwhen, _, s3, hstore, _, s4, hflush, rfl, rfl⟩ := h
  obtain ⟨hfill, rfl⟩ := loadw_cases hload
  obtain ⟨_, hflush, _, _⟩ := flushBlock_shows hflush
  have hstore := storew_shows hstore
  have hl1 : Live (OwnOn S D) s1 := (of_fills hfill).live OwnOn.closed hl
  have hcut :
    Cut S D f (blocksFor newsize.toNat) (blocksFor (s.view.word (fSize f)).toNat) s.view s2.view ∧
      ∀ n, blocksFor newsize.toNat ≤ n → n < ndirect + nindirect →
      target s2.view f (.data n) = 0#32 := by
    rcases when_eq_some.mp hwhen with ⟨_, hwhen⟩ | ⟨hge, rfl⟩
    · rw [← hfill.view] at ht ⊢
      exact (fileTruncateBlocks_cut hl1 hf hD ht hnew hwhen).2
    · rw [hfill.view]
      rw [toInt_lt_iff hnew ht.size, not_lt] at hge
      exact ⟨.refl hl.inv, fun n hn hlt => ht.slots n ((blocksFor_mono hge).trans hn) hlt⟩
  obtain ⟨hcut, hzero⟩ := hcut
  rw [hflush.view, hstore.view]
  exact ⟨.store_size hcut.own hf hnew hzero, fun b hb =>
    hcut.free b ((hcut.own.isFree_size hf).mp hb)⟩

end Truncate

/-! ### The calls -/

/-- Data is written to `f`, and blocks are added below `N`. -/
def Edit.Below (f N : ℕ) : Edit → Prop
  | .data g n _ => g = f ∧ n < N
  | .indirect g _ | .write g _ => g = f
  | _ => False

/-- The file `f` has the size `x`, and no blocks from `N` on. Blocks that are free were so in
    `v₀`. -/
structure Bounded (S D : Set ℕ) (f N : ℕ) (x : Word) (v₀ v : ByteMem) : Prop where
  own : OwnOn S D v
  size : v.word (fSize f) = x
  slots : ∀ n, N ≤ n → n < ndirect + nindirect → target v f (.data n) = 0#32
  free : ∀ b, IsFree v b → IsFree v₀ b

section Write

variable {S D : Set ℕ} {s s' : Server} {f buf N : ℕ} {x : Word} {v v₀ : ByteMem} {e : Edit}

theorem Edit.Below.on (h : e.Below f N) (hf : f ∈ S) (hD : f ∉ D) : e.On S D := by
  cases e with
  | ram | size | dropData | dropIndirect | name => exact h.elim
  | indirect g b =>
    obtain rfl : g = f := h
    exact hf
  | data g n b => exact h.1 ▸ hf
  | write g n =>
    obtain rfl : g = f := h
    exact ⟨hf, hD⟩

theorem Bounded.closed (hf : f ∈ S) (hD : f ∉ D) :
    Closed (Edit.Below f N) (Bounded S D f N x v₀) := by
  refine ⟨fun _ h => h.own.sized, fun v e v' h hK he => ?_⟩
  have hon : e.On S D := hK.on hf hD
  have hsize : v'.word (fSize f) = x := by
    rw [he.size_same h.own hon hf (by rintro y rfl; exact hK), h.size]
  cases e with
  | ram | size | dropData | dropIndirect | name => exact hK.elim
  | indirect g b =>
    have ha := he.after_indirect h.own hon
    refine ⟨h.own.step hon he, hsize, fun n hge hlt => ?_, fun t ht =>
      h.free t ((ha.free t).mp ht).1⟩
    rw [ha.target f hf (.data n) hlt, if_neg (fun hno => nomatch hno.2)]
    exact h.slots n hge hlt
  | data g k b =>
    have ha := he.after_data h.own hon
    refine ⟨h.own.step hon he, hsize, fun n hge hlt => ?_, fun t ht =>
      h.free t ((ha.free t).mp ht).1⟩
    have hne : ¬ (f = g ∧ Ptr.data n = Ptr.data k) := by
      rintro ⟨_, hno⟩
      have := Ptr.data.inj hno
      have := hK.2
      omega
    rw [ha.target f hf (.data n) hlt, if_neg hne]
    exact h.slots n hge hlt
  | write g k =>
    have ha := he.after_keep h.own hon nofun
    refine ⟨h.own.step hon he, hsize, fun n hge hlt => ?_, fun t ht => h.free t ((ha.free t).mp ht)⟩
    rw [ha.target f hf (.data n) hlt]
    exact h.slots n hge hlt

theorem Bounded.writable (hf : f ∈ S) (hD : f ∉ D) (hle : sRoot ≤ f) :
    Writable (Edit.Below f N) (Bounded S D f N x v₀) f N where
  closed := Bounded.closed hf hD
  anchored := fun v n b v' h he => OwnOn.anchored hf v n b v' h.own he
  root_le := hle
  indirect := fun _ _ _ _ => rfl
  data := fun _ hn _ => ⟨rfl, hn⟩
  write := fun _ _ => rfl

theorem Bounded.trim (h : Bounded S D f (blocksFor x.toNat) x v₀ v) (hx : x.toNat ≤ maxfilesize) :
    Trim v f := by
  refine ⟨by rw [h.size]; exact hx, fun n hge hlt => ?_⟩
  rw [h.size] at hge
  exact h.slots n hge hlt

/-- **`file_write`** up to an offset in range. No block becomes free. -/
theorem fileWrite_trim {count offset : Word} {r : Int} (hl : Live (OwnOn S D) s) (hf : f ∈ S)
    (hD : f ∉ D)
    (ht : Trim s.view f) (hrange : offset.toNat + count.toNat ≤ maxfilesize)
    (h : fileWrite f buf count offset s = some (r, s')) :
    Trim s'.view f ∧ ∀ b, IsFree s'.view b → IsFree s.view b := by
  have hmax : maxfilesize = 4235264 := rfl
  obtain ⟨s1, s2, o, hfill, hset, hloop, _⟩ := fileWrite_cases h
  have hend : (offset + count).toNat = offset.toNat + count.toNat := by
    rw [toNat_add]
    omega
  have hl1 : Live (OwnOn S D) s1 := (of_fills hfill).live OwnOn.closed hl
  rw [← hfill.view] at ht hset ⊢
  have hgrown : Live (OwnOn S D) s2 ∧ Trim s2.view f ∧ (∀ b, IsFree s2.view b → IsFree s1.view b) ∧
      offset.toNat + count.toNat ≤ (s2.view.word (fSize f)).toNat := by
    rcases hset with ⟨hlt, q, hcall⟩ | ⟨hge, rfl⟩
    · rw [lt_def] at hlt
      have hshows := fileSetSize_grow (by rw [toInt_lt_iff (by omega) ht.size]; omega) hcall
      have hstore := hl1.inv.store_size (x := offset + count) hf
      refine ⟨⟨hshows.super.trans hl1.super, by rw [hshows.view]; exact hstore.1⟩,
        (fileSetSize_trim hl1 hf hD ht (by omega) hcall).1, fun b hb => ?_, ?_⟩
      · rw [hshows.view] at hb
        exact (hl1.inv.isFree_size hf).mp hb
      · rw [hshows.view, hstore.2.1 f hf, update_self, hend]
    · rw [lt_def] at hge
      exact ⟨hl1, ht, fun _ hb => hb, by omega⟩
  obtain ⟨hl2, ht2, hfree, hle⟩ := hgrown
  have hw :
    Writable _ (Bounded S D f (blocksFor (s2.view.word (fSize f)).toNat) (s2.view.word (fSize f))
      s1.view) f _ := Bounded.writable hf hD (hl2.inv.sRoot_le hf)
  have hbelow : ∀ pos : Word, pos < offset + count → pos.toNat < 2 ^ 31 →
      pos.toNat / 4096 < blocksFor (s2.view.word (fSize f)).toNat := by
    intro pos hpos _
    rw [lt_def] at hpos
    simp only [blocksFor, blksize]
    omega
  have hstart : Bounded S D f (blocksFor (s2.view.word (fSize f)).toNat) (s2.view.word (fSize f))
      s1.view s2.view :=
    ⟨hl2.inv, rfl, ht2.slots, hfree⟩
  obtain ⟨ms, hmoved⟩ := writeLoop_made hw ⟨hl2.super, hstart⟩ (by omega) hbelow hloop
  have hbounded := hmoved.inv hw.closed hstart
  exact ⟨hbounded.trim ht2.size, hbounded.free⟩

end Write

/-- Sizes and offsets in range. For `file_create` a directory has an entry without a name or room
    for another block, and the sizes in such entries are in range. -/
def Modest (v : ByteMem) (op : FsOp) : Prop :=
  Careful v op ∧ match op with
  | .fileCreate _ => (∀ d ∈ dirs v, Full v d → (v.word (fSize d)).toNat + blksize ≤ maxfilesize) ∧
      ∀ d ∈ dirs v, ∀ n < dirLen v d, n < ndirect + nindirect → target v d (.data n) ≠ 0#32 →
        ∀ j < blkfiles, v (blkaddr (target v d (.data n)) + 256 * j) = 0#8 →
          (v.word (fSize (blkaddr (target v d (.data n)) + 256 * j))).toNat ≤ maxfilesize
  | .fileRead _ _ _ offset => 0 ≤ offset.toInt
  | .fileWrite _ _ count offset => offset.toNat + count.toNat ≤ maxfilesize
  | .fileSetSize _ newsize => newsize.toNat ≤ maxfilesize
  | .fileOpen _ | .fileFlush _ => True

section Calls

variable {s s' : Server} {op : FsOp} {v v' v₀ : ByteMem} {f : ℕ} {L : ℕ → Word}

theorem dirLen_le_blocksFor {x : Word} (h : x.toNat ≤ maxfilesize) :
    (x.sdiv 4096#32).toNat ≤ blocksFor x.toNat := by
  have hmax : maxfilesize = 4235264 := rfl
  rw [sdiv_block (by omega), blocksFor, blksize]
  omega

theorem Stretch.size_le (h : Stretch v L) (f : ℕ) (hmax : (v.word (fSize f)).toNat ≤ maxfilesize) :
    (v.word (fSize f)).toNat ≤ (L f).toNat := by
  have hmax' : maxfilesize = 4235264 := rfl
  rcases h with rfl | ⟨dir, _, _, _, rfl⟩
  · exact le_refl _
  · by_cases hfd : f = dir
    · subst hfd
      rw [update_self, sizes, toNat_add]
      simp only [toNat_ofNat]
      omega
    · rw [update_of_ne hfd]
      exact le_refl _

theorem Grown.trim (hg : Grown (tree v₀) (dirs v₀) (inDirs (dirs v₀) L) L v₀ v) (hs : Stretch v₀ L)
    (ht : Trim v₀ f) (hf : f ∈ tree v₀) (hL : (L f).toNat ≤ maxfilesize) : Trim v f := by
  have hsize := hg.size f hf
  refine ⟨by rw [hsize]; exact hL, fun n hge hlt => ?_⟩
  rw [hsize] at hge
  have hout : ¬ inDirs (dirs v₀) L f n := fun hin =>
    absurd hin.2 (Nat.not_lt.mpr ((dirLen_le_blocksFor hL).trans hge))
  rw [hg.slots f hf n hlt hout]
  exact ht.slots n ((blocksFor_mono (hs.size_le f ht.size)).trans hge) hlt

theorem Trim.congr (ht : Trim v f) (hsize : v'.word (fSize f) = v.word (fSize f))
    (htarget : ∀ p : Ptr, p.Valid → target v' f p = target v f p) : Trim v' f := by
  refine ⟨by rw [hsize]; exact ht.size, fun n hge hlt => ?_⟩
  rw [htarget (.data n) hlt]
  rw [hsize] at hge
  exact ht.slots n hge hlt

theorem Named.trim {w : ByteMem} {dir n j e : ℕ} (h : Named L v₀ w dir n j e v') (ht : Trimmed v₀)
    (hfresh : Fresh v₀ v')
    (hptr : ∀ p : Ptr, p.Valid → target v₀ e p = 0#32)
    (hsize : (v₀.word (fSize e)).toNat ≤ maxfilesize)
    (hL : ∀ f ∈ tree v₀, (L f).toNat ≤ maxfilesize) : Trimmed v' := by
  intro f hf
  rcases h.tree_sub hfresh hptr hf with hf | ⟨rfl, hno⟩
  · refine (h.grown.trim h.stretch (ht f hf) hf (hL f hf)).congr ?_ fun p hp =>
      h.after.target f hf p hp
    rw [h.size hf, h.grown.size f hf]
  · refine ⟨?_, fun n _ hlt => h.target_zero hno hptr (p := .data n) hlt⟩
    rw [fSize, h.word hno (by decide) (by decide)]
    exact hsize

theorem fileCreate_trimmed {path : List Byte} {r : Except Int ℕ} (hgood : Good s)
    (ht : Trimmed s.view)
    (hm : Modest s.view (.fileCreate path)) (h : fileCreate path s = some (r, s')) :
    Trimmed s'.view := by
  obtain ⟨hc, hdirs, hentry⟩ := hm
  have hL : ∀ {L : ℕ → Word}, Stretch s.view L → ∀ f ∈ tree s.view, (L f).toNat ≤ maxfilesize := by
    intro L hs f hf
    have hmax : maxfilesize = 4235264 := rfl
    rcases hs with rfl | ⟨dir, hdir, _, hfull, rfl⟩
    · exact (ht f hf).size
    · by_cases hfd : f = dir
      · have hroom := hdirs dir hdir hfull
        rw [hfd, update_self, sizes, toNat_add]
        simp only [toNat_ofNat, blksize] at hroom ⊢
        omega
      · rw [update_of_ne hfd]
        exact (ht f hf).size
  rcases fileCreate_cases hgood hc.holes h with ⟨_, L, _, hs, hl⟩ | ⟨e, L, w, dir, n, j, rfl,
    _, hnamed, _⟩
  · intro f hf
    have hf := hl.inv.tree_ge (hl.inv.fresh_of_stretch hs hc) hf
    exact hl.inv.trim hs (ht f hf) hf (hL hs f hf)
  · refine hnamed.trim ht (hnamed.fresh hc) (hnamed.no_pointers hc) ?_ (hL hnamed.stretch)
    obtain ⟨hn, hj, _, _⟩ := hnamed.entry.target
    rcases hnamed.was_unused hc with hzero | ⟨hlt, hne, rfl, hbyte⟩
    · rw [(zero_entry hzero).1]
      exact Nat.zero_le _
    · exact hentry dir hnamed.mem n hlt hn hne j hj hbyte

theorem Kept.trimmed (hk : Kept (tree v) (dirs v) f v v') (hf : f ∈ tree v) (hD : f ∉ dirs v)
    (ht : Trimmed v)
    (hself : Trim v' f) : Trimmed v' := by
  intro g hg
  have hg := hk.tree_ge hf hD hg
  by_cases hgf : g = f
  · rw [hgf]
    exact hself
  · exact (ht g hg).congr (hk.size g hg hgf) (hk.target g hg hgf)

theorem fileRead_trimmed {buf : ℕ} {count offset : Word} (ht : Trimmed v) (hf : f ∈ tree v)
    (hoff : 0 ≤ offset.toInt) (hfresh : Fresh v v')
    (heff : Effect v (.fileRead f buf count offset) v') : Trimmed v' := by
  have hmax : maxfilesize = 4235264 := rfl
  have hsize := (ht f hf).size
  have hoff' := nonneg_lt hoff
  have hg := heff (blocksFor (sizes v f).toNat) (by
    intro hlt pos hpos
    rw [sizes, toInt_of_small hoff', toInt_of_small (by omega)] at hlt
    have hcount : (minu count (sizes v f - offset)).toNat = readCount (sizes v f) count offset :=
      minu_readCount (by rw [sizes]; omega)
    have hstop : (offset + minu count (sizes v f - offset)).toNat ≤ (sizes v f).toNat := by
      rw [toNat_add, hcount, readCount, sizes]
      omega
    have hpos' : pos.toNat < (v.word (fSize f)).toNat := (lt_def.mp hpos).trans_le hstop
    rw [sdiv_block (by omega), blocksFor, sizes, blksize]
    omega)
  intro g hgt
  have hgt := hg.tree_ge hfresh hgt
  have hgsize : v'.word (fSize g) = v.word (fSize g) := hg.size g hgt
  refine ⟨by rw [hgsize]; exact (ht g hgt).size, fun n hge hlt => ?_⟩
  rw [hgsize] at hge
  have hout : ¬ (g = f ∧ n < blocksFor (sizes v f).toNat) := by
    rintro ⟨rfl, hin⟩
    rw [sizes] at hin
    omega
  rw [hg.slots g hgt n hlt hout]
  exact (ht g hgt).slots n hge hlt

/-- **Calls with sizes and offsets in range keep the files trimmed.** -/
theorem fsStep_trimmed (hgood : Good s) (ht : Trimmed s.view) (hstep : FsStep s op s')
    (hm : Modest s.view op) : Trimmed s'.view := by
  have hout := fsStep_outcome hgood hstep hm.1
  have hl : Live (OwnOn (tree s.view) (dirs s.view)) s := ⟨hgood.1.super, hgood.ownOn⟩
  cases op with
  | fileCreate path =>
    obtain ⟨r, h⟩ := hstep
    exact fileCreate_trimmed hgood ht hm h
  | fileOpen path =>
    have hlook : Looked s.view s'.view := hout.effect
    intro f hf
    have hf := hlook.tree_ge (hlook.fresh_of_holes hm.1) hf
    exact hlook.trim (.inl rfl) (ht f hf) hf (ht f hf).size
  | fileRead f buf count offset =>
      exact fileRead_trimmed ht hstep.1 hm.2 (fileRead_fresh hm.1 hout.effect) hout.effect
  | fileWrite f buf count offset =>
    obtain ⟨hf, r, h⟩ := hstep
    exact hout.effect.2.2.trimmed hf hm.1.1 ht (fileWrite_trim hl hf hm.1.1 (ht f hf) hm.2 h).1
  | fileSetSize f newsize =>
    obtain ⟨hf, r, h⟩ := hstep
    exact hout.effect.2.2.trimmed hf hm.1 ht (fileSetSize_trim hl hf hm.1 (ht f hf) hm.2 h).1
  | fileFlush f =>
    rw [show s'.view = s.view from hout.effect]
    exact ht

/-- Blocks become free by `file_set_size` only, and only those between the sizes. -/
def FreesInRange (s : Server) (op : FsOp) (s' : Server) : Prop :=
  match op with
  | .fileSetSize f newsize =>
    FreesOnly s.view f (blocksFor newsize.toNat) (blocksFor (s.view.word (fSize f)).toNat) s'.view
  | _ => ∀ b, IsFree s'.view b → IsFree s.view b

theorem fsStep_frees (hgood : Good s) (ht : Trimmed s.view) (hstep : FsStep s op s')
    (hm : Modest s.view op) : FreesInRange s op s' := by
  have hout := fsStep_outcome hgood hstep hm.1
  have hl : Live (OwnOn (tree s.view) (dirs s.view)) s := ⟨hgood.1.super, hgood.ownOn⟩
  cases op with
  | fileCreate path =>
    rcases hout.effect with ⟨L, _, hg⟩ | ⟨L, w, dir, n, j, e, hnamed⟩
    · exact fun b hb => (hg.free b hb).1
    · exact fun b hb => (hnamed.grown.free b ((hnamed.after.free b).mp hb)).1
  | fileOpen path => exact fun b hb => (Grown.free hout.effect b hb).1
  | fileRead f buf count offset =>
    exact fun b hb => ((hout.effect (2 ^ 32) fun _ _ _ => BitVec.isLt _).free b hb).1
  | fileWrite f buf count offset =>
    obtain ⟨hf, r, h⟩ := hstep
    exact (fileWrite_trim hl hf hm.1.1 (ht f hf) hm.2 h).2
  | fileSetSize f newsize =>
    obtain ⟨hf, r, h⟩ := hstep
    exact (fileSetSize_trim hl hf hm.1 (ht f hf) hm.2 h).2
  | fileFlush f =>
    intro b hb
    rwa [show s'.view = s.view from hout.effect] at hb

end Calls

/-! ### The requests -/

/-- What holds between two requests: ownership, trimmed files, and open files are in the tree. -/
structure Sound (s : Serv) : Prop where
  good : Good s.fs
  trimmed : Trimmed s.fs.view
  opened : ∀ i, 1 < s.refs i → (s.opentab i).file ∈ tree s.fs.view

/-- From `s` to `s'` the server has made calls. If they were modest and `P` held before, then the
    server stays sound, and `Q` holds after them. -/
def Keeps (P : Prop) (s s' : Serv) (Q : Prop) : Prop :=
  ∃ l, s'.calls = s.calls ++ l ∧ ((∀ c ∈ l, Modest c.1.view c.2.1) → Sound s → P →
    Sound s' ∧ (∀ c ∈ l, FreesInRange c.1 c.2.1 c.2.2) ∧ Q)

section Requests

variable {s s' s'' : Serv} {P Q R : Prop} {α : Type} {i : Fin maxopen} {r : Int}

theorem Keeps.trans (h : Keeps P s s' Q) (h' : Keeps Q s' s'' R) : Keeps P s s'' R := by
  obtain ⟨l, hl, hQ⟩ := h
  obtain ⟨l', hl', hR⟩ := h'
  refine ⟨l ++ l', by rw [hl', hl, List.append_assoc], fun hm hs hP => ?_⟩
  obtain ⟨hs', hfree, hq⟩ := hQ (fun c hc => hm c (List.mem_append_left _ hc)) hs hP
  obtain ⟨hs'', hfree', hr⟩ := hR (fun c hc => hm c (List.mem_append_right _ hc)) hs' hq
  refine ⟨hs'', fun c hc => ?_, hr⟩
  rcases List.mem_append.mp hc with hc | hc
  · exact hfree c hc
  · exact hfree' c hc

theorem Keeps.quiet (hcalls : s'.calls = s.calls) (h : Sound s → P → Sound s' ∧ Q) :
    Keeps P s s' Q := by
  refine ⟨[], by rw [hcalls, List.append_nil], fun _ hs hP => ?_⟩
  obtain ⟨hs', hq⟩ := h hs hP
  exact ⟨hs', nofun, hq⟩

theorem Keeps.refl (h : P → Q) : Keeps P s s Q := .quiet rfl fun hs hP => ⟨hs, h hP⟩

variable {a n f : ℕ} {g : ℕ → Byte} {op : FsOp} {x : Except Int ℕ} {path : List Byte} {mem : Bool}
  {o : Option (Fin maxopen)} {omode : Word} {u : Unit}

theorem Good.ram {t t' : Server} (hgood : Good t) (ht : Trimmed t.view) (hoff : OffMap a n)
    (hview : t'.view = t.view.overwrite a n g) (hsuper : t'.super = t.super) :
    Good t' ∧ Trimmed t'.view ∧ tree t.view ⊆ tree t'.view := by
  have hg : Grown (tree t.view) (dirs t.view) (fun _ _ => False) (sizes t.view) t.view t'.view := by
    rw [hview]
    exact (Grown.refl hgood.ownOn).step (e := .ram a n) trivial (.ram g hoff)
  have hfresh : Fresh t.view t'.view := by
    intro d hd n hlen hn _
    refine .inl ⟨(hg.slots d hd.1 n hn id).symm, ?_⟩
    rw [dirLen, hg.size d hd.1] at hlen
    exact hlen
  refine ⟨⟨⟨hsuper.trans hgood.1.super, hg.own.mounted⟩, hg.owned hfresh⟩, fun f hf => ?_,
    hg.tree_le (.inl rfl)⟩
  have hf := hg.tree_ge hfresh hf
  have hsize : t'.view.word (fSize f) = t.view.word (fSize f) := hg.size f hf
  refine ⟨by rw [hsize]; exact (ht f hf).size, fun n hge hlt => ?_⟩
  rw [hsize] at hge
  rw [hg.slots f hf n hlt id]
  exact (ht f hf).slots n hge hlt

theorem Sound.ram (hs : Sound s) (hoff : OffMap a n)
    (hview : s'.fs.view = s.fs.view.overwrite a n g) (hsuper : s'.fs.super = s.fs.super)
    (hopen : ∀ i, 1 < s'.refs i → (s'.opentab i).file ∈ tree s.fs.view) : Sound s' := by
  obtain ⟨hgood, ht, hle⟩ := hs.good.ram hs.trimmed hoff hview hsuper
  exact ⟨hgood, ht, fun i hi => hle (hopen i hi)⟩

theorem call_keeps {x : FsM α} {a : α} (hcall : call op x s = some (a, s'))
    (hstep : Sound s → P → ∀ t, x s.fs = some (a, t) → FsStep s.fs op t)
    (hQ : Sound s → P → ∀ t, Modest s.fs.view op → x s.fs = some (a, t) →
    tree s.fs.view ⊆ tree t.view → s'.fs = t → Q) : Keeps P s s' Q := by
  obtain ⟨t, hx, rfl⟩ := call_eq_some.mp hcall
  refine ⟨[(s.fs, op, t)], rfl, fun hm hs hP => ?_⟩
  have hm := hm _ (List.mem_singleton_self _)
  have hstep := hstep hs hP t hx
  have hout := fsStep_outcome hs.good hstep hm.1
  refine ⟨⟨hout.good, fsStep_trimmed hs.good hs.trimmed hstep hm, fun i hi =>
    hout.tree_le (hs.opened i hi)⟩, fun c hc => ?_, hQ hs hP t hm hx hout.tree_le rfl⟩
  rw [List.mem_singleton.mp hc]
  exact fsStep_frees hs.good hs.trimmed hstep hm

theorem call_file_keeps {x : FsM α} {a : α} (hcall : call op x s = some (a, s'))
    (hf : Sound s → P → f ∈ tree s.fs.view)
    (hstep : f ∈ tree s.fs.view → ∀ t, x s.fs = some (a, t) → FsStep s.fs op t) :
    Keeps P s s' True :=
  call_keeps hcall (fun hs hP t hx => hstep (hf hs hP) t hx) fun _ _ _ _ _ _ _ => trivial

theorem fileOpen_keeps (h : call (.fileOpen path) (fileOpen path) s = some (x, s')) :
    Keeps P s s' (∀ f, x = .ok f → f ∈ tree s'.fs.view) :=
  call_keeps h (fun _ _ t hx => ⟨x, hx⟩) fun hs _ t hm hx hle hfs f hxf => by
    rw [hfs]
    exact hle ((fileOpen_outcome hs.good hm.1 hx).2 f hxf)

theorem fileCreate_keeps (hpath : ∀ b ∈ path, b ≠ 0#8)
    (h : call (.fileCreate path) (fileCreate path) s = some (x, s')) :
    Keeps P s s' (∀ f, x = .ok f → f ∈ tree s'.fs.view) :=
  call_keeps h (fun _ _ t hx => ⟨x, hx⟩) fun hs _ t hm hx hle hfs f hxf => by
    rw [hfs]
    rcases fileCreate_cases hs.good hm.1.holes hx with ⟨_, _, herr, _⟩ | ⟨e, _, _, _, _, _, hok, _,
      hnamed, hbyte⟩
    · rw [hxf] at herr
      cases herr
    · rw [hxf] at hok
      obtain rfl := Except.ok.inj hok
      exact hnamed.mem_tree (hbyte hpath)

theorem Meddles.keeps (h : Meddles (fun _ => 1) s s') : Keeps P s s' P := by
  refine .quiet h.calls fun hs hP => ⟨?_, hP⟩
  obtain ⟨g, g', hfs⟩ := h.fs
  have hreq : OffMap fsreq pgsize := fsreq_offMap (o := 0) (le_refl _)
  obtain ⟨hgood, ht, hle⟩ := hs.good.ram hs.trimmed hreq (Server.view_poke hreq (g := g)) rfl
  obtain ⟨hgood', ht', hle'⟩ := hgood.ram ht fds_offMap (Server.view_poke fds_offMap (g := g')) rfl
  rw [← hfs] at hgood' ht' hle'
  refine ⟨hgood', ht', fun i hi => ?_⟩
  have hrefs : 1 < s.refs i := by
    by_contra hle
    rw [h.mine i (Nat.not_lt.mp hle)] at hi
    exact hle hi
  rw [h.opentab]
  exact hle' (hle (hs.opened i hrefs))

theorem openfileAlloc_keeps (h : openfileAlloc mem s = some ((r, o), s')) : Keeps P s s' P := by
  rcases openfileAlloc_cases h with ⟨_, rfl⟩ | ⟨i, hrefs, ht, _, _⟩
  · exact .refl id
  · refine .quiet ht.calls fun hs hP =>
      ⟨hs.ram (fd_offMap i 0 pgsize) ht.shows.view ht.shows.super fun j hj => ?_, hP⟩
    rw [ht.refs] at hj
    by_cases hji : j = i
    · rw [hji, update_self] at hj
      exact absurd hj (lt_irrefl 1)
    · rw [update_of_ne hji] at hj
      rw [ht.opentab, update_of_ne hji]
      exact hs.opened j hj

theorem openOrCreate_keeps (hpath : ∀ b ∈ path, b ≠ 0#8)
    (h : openOrCreate path omode s = some (x, s')) :
    Keeps P s s' (∀ f, x = .ok f → f ∈ tree s'.fs.view) := by
  rw [openOrCreate] at h
  split at h
  · obtain ⟨y, s1, hcreate, h⟩ := bind_eq_some.mp h
    have hkeep := fileCreate_keeps (P := P) hpath hcreate
    cases y with
    | ok f =>
      cases h
      exact hkeep
    | error e =>
      simp only at h
      split at h
      · exact hkeep.trans (fileOpen_keeps h)
      · cases h
        exact hkeep.trans (.refl fun _ => nofun)
  · exact fileOpen_keeps h

theorem openfileFill_keeps (h : openfileFill i f omode s = some (u, s')) :
    Keeps (f ∈ tree s.fs.view) s s' ((s'.opentab i).file ∈ tree s'.fs.view) := by
  simp only [openfileFill, bind_eq_some, Proc.modify_eq_some, Proc.get_eq_some] at h
  obtain ⟨_, _, rfl, _, _, ⟨rfl, rfl⟩, haccess⟩ := h
  obtain ⟨t, hstores, rfl⟩ := access_eq_some.mp haccess
  simp only [bind_eq_some] at hstores
  obtain ⟨_, t1, h1, _, t2, h2, h3⟩ := hstores
  refine .quiet rfl fun hs hf => ?_
  have hshows1 := storew_shows h1
  have hshows2 := storew_shows h2
  have hshows3 := storew_shows h3
  obtain ⟨hg1, ht1, hle1⟩ := hs.good.ram hs.trimmed (fd_offMap i 12 4) hshows1.view hshows1.super
  obtain ⟨hg2, ht2, hle2⟩ := hg1.ram ht1 (fd_offMap i 8 4) hshows2.view hshows2.super
  obtain ⟨hg3, ht3, hle3⟩ := hg2.ram ht2 (fd_offMap i 0 4) hshows3.view hshows3.super
  have hle : tree s.fs.view ⊆ tree t.view := fun _ hx => hle3 (hle2 (hle1 hx))
  have hi : ((s.setFile i { s.opentab i with file := f, mode := omode }).opentab i).file ∈
      tree t.view := by
    rw [Serv.setFile_self]
    exact hle hf
  refine ⟨⟨hg3, ht3, fun j hj => ?_⟩, hi⟩
  by_cases hji : j = i
  · rw [hji]
    exact hi
  · rw [Serv.setFile_ne hji]
    exact hle (hs.opened j hj)

theorem reqPath_ne_zero {m : ByteMem} {b : Byte} (h : b ∈ reqPath m) : b ≠ 0#8 := by
  have := List.mem_takeWhile_imp h
  simpa using this

theorem serveOpen_keeps (h : serveOpen mem s = some ((r, o), s')) :
    Keeps True s s' (∀ i, o = some i → (s'.opentab i).file ∈ tree s'.fs.view) := by
  rw [serveOpen, bind_of_eq get_apply, bind_eq_some] at h
  obtain ⟨⟨r1, o1⟩, s1, halloc, h⟩ := h
  have hkeep1 := openfileAlloc_keeps (P := True) halloc
  cases o1 with
  | none =>
    obtain ⟨hr, rfl⟩ := pure_eq_some.mp h
    cases hr
    exact hkeep1.trans (.refl fun _ => nofun)
  | some i =>
    simp only at h
    rw [serveOpenAt, bind_of_eq (access_loadw (fsreq_offMap (by decide))), bind_eq_some] at h
    obtain ⟨x, s2, hopen, h⟩ := h
    have hkeep2 := hkeep1.trans (openOrCreate_keeps (fun b hb => reqPath_ne_zero hb) hopen)
    cases x with
    | error e =>
      obtain ⟨hr, rfl⟩ := pure_eq_some.mp h
      cases hr
      exact hkeep2.trans (.refl fun _ => nofun)
    | ok f =>
      simp only [bind_eq_some] at h
      obtain ⟨_, s3, htrunc, y, s4, hagain, h⟩ := h
      have hkeep3 : Keeps True s s3 True := by
        refine hkeep2.trans ?_
        rcases when_eq_some.mp htrunc with ⟨_, htrunc⟩ | ⟨_, rfl⟩
        · obtain ⟨r', _, hcall, hpure⟩ := bind_eq_some.mp htrunc
          cases hpure
          exact call_file_keeps hcall (fun _ hP => hP f rfl) fun hf t hx => ⟨hf, r', hx⟩
        · exact .refl fun _ => trivial
      have hkeep4 := hkeep3.trans (fileOpen_keeps hagain)
      cases y with
      | error e =>
        obtain ⟨hr, rfl⟩ := pure_eq_some.mp h
        cases hr
        exact hkeep4.trans (.refl fun _ => nofun)
      | ok f' =>
        obtain ⟨_, s5, hfill, h⟩ := bind_eq_some.mp h
        obtain ⟨hr, rfl⟩ := pure_eq_some.mp h
        cases hr
        have hkeep5 := (hkeep4.trans (.refl fun hP => hP f' rfl)).trans (openfileFill_keeps hfill)
        refine hkeep5.trans (.refl fun hfile j hj => ?_)
        cases hj
        exact hfile

theorem sendPage_keeps {accept : Bool} (h : sendPage accept i s = some (u, s')) :
    Keeps ((s.opentab i).file ∈ tree s.fs.view) s s' True := by
  rcases when_eq_some.mp h with ⟨_, h⟩ | ⟨_, rfl⟩
  · cases h
    refine .quiet rfl fun hs hf => ⟨⟨hs.good, hs.trimmed, fun j hj => ?_⟩, trivial⟩
    by_cases hji : j = i
    · rw [hji]
      exact hf
    · rw [Serv.setRefs_ne hji] at hj
      exact hs.opened j hj
  · exact .refl fun _ => trivial

theorem serveSetSize_keeps (h : serveSetSize s = some (r, s')) : Keeps True s s' True := by
  rcases withOpenFile_cases h with ⟨_, _, rfl⟩ | ⟨hres, h⟩
  · exact .refl id
  · exact call_file_keeps h (fun hs _ => hs.opened _ hres.1) fun hf t hx => ⟨hf, r, hx⟩

theorem advance_keeps {q : Int} (h : advance i q s = some (r, s')) : Keeps P s s' P := by
  obtain ⟨_, ⟨_, rfl⟩ | ⟨_, t, rfl, hshows⟩⟩ := advance_cases h
  · exact .refl id
  · exact .quiet rfl fun hs hP => ⟨hs.ram (fd_offMap i 4 4) hshows.view hshows.super hs.opened, hP⟩

theorem serveRead_keeps (h : serveRead s = some (r, s')) : Keeps True s s' True := by
  rcases serveRead_cases h with ⟨_, _, rfl⟩ | ⟨hres, t, s1, hread, hs1, hadv⟩
  · exact .refl id
  · have hcall :=
      call_file_keeps (P := True) (call_eq_some.mpr ⟨t, hread, hs1⟩)
        (fun hs _ => hs.opened _ hres.1)
      fun hf t hx => ⟨hf, r, hx⟩
    exact hcall.trans (advance_keeps hadv)

theorem serveWrite_keeps (h : serveWrite s = some (r, s')) : Keeps True s s' True := by
  rcases serveWrite_cases h with ⟨_, _, rfl⟩ | ⟨hres, t, s1, hwrite, hs1, hadv⟩
  · exact .refl id
  · have hcall :=
      call_file_keeps (P := True) (call_eq_some.mpr ⟨t, hwrite, hs1⟩)
        (fun hs _ => hs.opened _ hres.1)
      fun hf t hx => ⟨hf, r, hx⟩
    exact hcall.trans (advance_keeps hadv)

/-- The requests that can change sizes and blocks. -/
def Request.Sizing : Request → Prop
  | .fsreqOpen _ _ | .fsreqSetSize | .fsreqRead | .fsreqWrite => True
  | .fsreqStat | .fsreqFlush => False

/-- **A request.** -/
theorem servStep_keeps {q : Request} (hq : q.Sizing) (h : ServStep s q s') :
    Keeps True s s' True := by
  obtain ⟨t, r, hmeddle, h⟩ := h
  refine hmeddle.keeps.trans ?_
  cases q with
  | fsreqOpen mem accept =>
    obtain ⟨⟨r', o⟩, t1, hopen, h⟩ := bind_eq_some.mp h
    have hkeep := serveOpen_keeps hopen
    cases o with
    | none =>
      cases h
      exact hkeep.trans (.refl fun _ => trivial)
    | some i =>
      simp only [bind_eq_some, pure_eq_some] at h
      obtain ⟨_, t2, hsend, _, rfl⟩ := h
      exact (hkeep.trans (.refl fun hP => hP i rfl)).trans (sendPage_keeps hsend)
  | fsreqSetSize => exact serveSetSize_keeps h
  | fsreqRead => exact serveRead_keeps h
  | fsreqWrite => exact serveWrite_keeps h
  | fsreqStat | fsreqFlush => exact hq.elim

end Requests

theorem servOn_sound {disk : ByteMem} {n : Word} (hone : OneFile (servOn disk n).fs.view)
    (hup : Up (servOn disk n).fs)
    (hsize : ((servOn disk n).fs.view.word (fSize (blkaddr 3#32))).toNat ≤ maxfilesize)
    (hzero : ∀ p : Ptr, target (servOn disk n).fs.view (blkaddr 3#32) p = 0#32) :
    Sound (servOn disk n) := by
  refine ⟨⟨hup, hone.owned⟩, fun f hf => ?_, fun _ _ => hone.mem_tree⟩
  rcases hone.tree_cases hf with rfl | rfl
  · refine ⟨by rw [hone.2.1]; decide, fun k hge _ => ?_⟩
    rw [hone.2.1] at hge
    rw [hone.root_target, if_neg]
    rintro hk
    cases hk
    exact absurd hge (by decide)
  · exact ⟨hsize, fun k _ _ => hzero _⟩

theorem fileDisk_sound {n : Word} (hone : OneFile (servOn fileDisk n).fs.view)
    (hup : Up (servOn fileDisk n).fs)
    (hsize : (servOn fileDisk n).fs.view.word (fSize (blkaddr 3#32)) = 0#32) :
    Sound (servOn fileDisk n) :=
  servOn_sound hone hup (by rw [hsize]; decide) fun p =>
    target_zero hone.2.2.2.2.2.2.1 hone.2.2.2.2.2.2.2.1 p

/-- **Sizes and blocks under arbitrary requests.** In every run of requests to open files, set
    their size, read and write, in which the calls of the file system are modest, every file is
    trimmed in every state reached, and the calls free only blocks between the sizes. -/
theorem files_stay_trimmed {s s' : Serv} {qs : List Request} (hs : Sound s)
    (hrun : Run (fun s q s' => ServStep s q s' ∧ q.Sizing) s qs s') :
    ∃ l, s'.calls = s.calls ++ l ∧ ((∀ c ∈ l, Modest c.1.view c.2.1) →
      Trimmed s'.fs.view ∧ ∀ c ∈ l, FreesInRange c.1 c.2.1 c.2.2) := by
  have hkeep : Keeps True s s' True := by
    induction hrun with
    | nil => exact .refl id
    | snoc _ hstep ih => exact ih.trans (servStep_keeps hstep.2 hstep.1)
  obtain ⟨l, hl, hres⟩ := hkeep
  refine ⟨l, hl, fun hm => ?_⟩
  obtain ⟨hsound, hfree, _⟩ := hres hm hs trivial
  exact ⟨hsound.trimmed, hfree⟩

/-- A request to make the empty file one byte long. -/
theorem files_stay_trimmed_byte : ∃ s',
    Run (fun s q s' => ServStep s q s' ∧ q.Sizing) (servOn fileDisk 1#32)
    [.fsreqSetSize] s' ∧ Trimmed s'.fs.view ∧ s'.fs.view.word (fSize (blkaddr 3#32)) = 1#32 := by
  have hone : OneFile (servOn fileDisk 1#32).fs.view := by
    rw [servOn, view_serverOn]
    decide
  have hup : Up (servOn fileDisk 1#32).fs := up_serverOn (by decide) (by decide)
  have hsize : (servOn fileDisk 1#32).fs.view.word (fSize (blkaddr 3#32)) = 0#32 := by
    rw [servOn, view_serverOn]
    decide
  obtain ⟨⟨r, s'⟩, hserve, hr⟩ : ∃ p ∈ serveSetSize (servOn fileDisk 1#32),
      p.2.fs.view.word (fSize (blkaddr 3#32)) = 1#32 := by decide
  have hrun :
      Run (fun s q s' => ServStep s q s' ∧ q.Sizing) (servOn fileDisk 1#32) [.fsreqSetSize] s' :=
    .single ⟨⟨_, r, .refl _ _, hserve⟩, trivial⟩
  obtain ⟨l, hl, hres⟩ := files_stay_trimmed (fileDisk_sound hone hup hsize) hrun
  refine ⟨s', hrun, (hres fun c hc => ?_).1, hr⟩
  -- the one call is for a file that is not a directory
  have hreq : (servOn fileDisk 1#32).reqN = 1#32 := by decide
  rcases withOpenFile_cases hserve with ⟨hno, _⟩ | ⟨_, h⟩
  · exact absurd (by decide) hno
  · rw [bind_of_eq access_reqN, bind_of_eq get_apply, hreq] at h
    obtain ⟨t, _, rfl⟩ := call_eq_some.mp h
    obtain rfl := List.append_cancel_left hl
    rw [List.mem_singleton.mp hc]
    exact ⟨hone.not_dir, show (1#32 : Word).toNat ≤ maxfilesize by decide⟩

/-- **A request to set the size to -10000**, which the server answers with success. The file has a
    negative size after that. -/
theorem negative_size_kept : Sound (servOn fileDisk 0xFFFFD8F0#32) ∧
    ∃ s', Run (fun s q s' => ServStep s q s' ∧ q.Sizing) (servOn fileDisk 0xFFFFD8F0#32)
    [.fsreqSetSize] s' ∧
      blkaddr 3#32 ∈ tree s'.fs.view ∧ (s'.fs.view.word (fSize (blkaddr 3#32))).toInt = -10000 := by
  have hone : OneFile (servOn fileDisk 0xFFFFD8F0#32).fs.view := by
    rw [servOn, view_serverOn]
    decide
  have hup : Up (servOn fileDisk 0xFFFFD8F0#32).fs := up_serverOn (by decide) (by decide)
  have hsize : (servOn fileDisk 0xFFFFD8F0#32).fs.view.word (fSize (blkaddr 3#32)) = 0#32 := by
    rw [servOn, view_serverOn]
    decide
  obtain ⟨⟨r, s'⟩, hserve, hone', hneg⟩ : ∃ p ∈ serveSetSize (servOn fileDisk 0xFFFFD8F0#32),
      OneFile p.2.fs.view ∧ (p.2.fs.view.word (fSize (blkaddr 3#32))).toInt = -10000 := by decide
  exact ⟨fileDisk_sound hone hup hsize, s', .single ⟨⟨_, r, .refl _ _, hserve⟩, trivial⟩,
    hone'.mem_tree, hneg⟩

end LinuxStudy.Fs
