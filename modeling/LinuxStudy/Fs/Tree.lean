import LinuxStudy.Fs.Layout
import Mathlib.Logic.Relation

/-!
# Who owns a block

The block pointers of a set of files: every one is in range, marked as in use, and no two are
equal. From this follows where the words of the file system are: two of them never share an
address, and none of them lies in a free block or in a block of data. So each change of
`Edits` is known by the words it changes.
-/

namespace LinuxStudy.Fs

open Jos
open ByteMem
open BitVec (twoPow_eq eq_of_toNat_eq lt_def)

section Bits

variable {v : ByteMem} {w b x : Word} {i j : ℕ}

theorem has_bit (hj : j < 32) : has w (1#32 <<< j) ↔ w.getLsbD j = true := by
  rw [has, ← twoPow_eq, BitVec.and_twoPow]
  split
  · next h =>
    refine iff_of_true (fun h0 => ?_) h
    have hbit : (BitVec.twoPow 32 j).getLsbD j = true := by simp [hj]
    rw [h0] at hbit
    simp at hbit
  · next h => exact iff_of_false (fun h0 => h0 rfl) h

theorem has_clear (hi : i < 32) (hj : j < 32) :
    has (w &&& ~~~(1#32 <<< i)) (1#32 <<< j) ↔ has w (1#32 <<< j) ∧ j ≠ i := by
  rw [has_bit hj, has_bit hj, BitVec.getLsbD_and, BitVec.getLsbD_not, ← twoPow_eq,
    BitVec.getLsbD_twoPow]
  simp only [hi, hj, decide_true, Bool.true_and, Bool.and_eq_true, Bool.not_eq_true',
    decide_eq_false_iff_not]
  exact and_congr_right fun _ => ⟨fun h h' => h h'.symm, fun h h' => h h'.symm⟩

theorem has_set (hi : i < 32) (hj : j < 32) :
    has (w ||| 1#32 <<< i) (1#32 <<< j) ↔ has w (1#32 <<< j) ∨ j = i := by
  rw [has_bit hj, has_bit hj, BitVec.getLsbD_or, ← twoPow_eq, BitVec.getLsbD_twoPow]
  simp only [hi, decide_true, Bool.true_and, Bool.or_eq_true, decide_eq_true_eq]
  exact or_congr_right ⟨fun h => h.symm, fun h => h.symm⟩

theorem word_putWord_aligned {a c : ℕ} (ha : a % 4 = 0) (hc : c % 4 = 0) :
    (v.putWord a w).word c = if c = a then w else v.word c := by
  split
  · next h => rw [h, word_putWord_self]
  · next h => exact word_putWord (by omega)

theorem bitmapAddr_aligned (b : Word) : bitmapAddr b % 4 = 0 := by
  simp only [bitmapAddr, diskmap, blksize]
  omega

theorem bitmapAddr_inj : bitmapAddr x = bitmapAddr b ↔ x.toNat / 32 = b.toNat / 32 := by
  simp only [bitmapAddr, diskmap, blksize]
  omega

theorem sNblocks_aligned : sNblocks % 4 = 0 := by decide

theorem bitmapAddr_ne_sNblocks : bitmapAddr b ≠ sNblocks := by
  simp only [bitmapAddr, sNblocks, diskmap, blksize]
  omega

theorem word_eq_of_div_mod (hd : x.toNat / 32 = b.toNat / 32) (hm : x.toNat % 32 = b.toNat % 32) :
    x = b := eq_of_toNat_eq (by omega)

theorem takeBlock_nblocks : (takeBlock v b).word sNblocks = v.word sNblocks := by
  rw [takeBlock, word_putWord_aligned (bitmapAddr_aligned b) sNblocks_aligned,
    if_neg bitmapAddr_ne_sNblocks.symm]

theorem giveBlock_nblocks : (giveBlock v b).word sNblocks = v.word sNblocks := by
  rw [giveBlock, word_putWord_aligned (bitmapAddr_aligned b) sNblocks_aligned,
    if_neg bitmapAddr_ne_sNblocks.symm]

theorem isFree_takeBlock : IsFree (takeBlock v b) x ↔ IsFree v x ∧ x ≠ b := by
  rw [IsFree, takeBlock_nblocks, takeBlock,
    word_putWord_aligned (bitmapAddr_aligned b) (bitmapAddr_aligned x)]
  by_cases hx : bitmapAddr x = bitmapAddr b
  · rw [if_pos hx, bitmapBit, bitmapBit, has_clear (by omega) (by omega), IsFree, bitmapBit, hx]
    have hd := bitmapAddr_inj.mp hx
    have hiff : x.toNat % 32 ≠ b.toNat % 32 ↔ x ≠ b :=
      ⟨fun h h' => h (by rw [h']), fun h h' => h (word_eq_of_div_mod hd h')⟩
    rw [hiff, and_assoc]
  · rw [if_neg hx, IsFree]
    refine ⟨fun h => ⟨h, fun hb => hx (by rw [hb])⟩, fun h => h.1⟩

theorem isFree_giveBlock (hb : b < v.word sNblocks) :
    IsFree (giveBlock v b) x ↔ IsFree v x ∨ x = b := by
  rw [IsFree, giveBlock_nblocks, giveBlock,
    word_putWord_aligned (bitmapAddr_aligned b) (bitmapAddr_aligned x)]
  by_cases hx : bitmapAddr x = bitmapAddr b
  · rw [if_pos hx, bitmapBit, bitmapBit, has_set (by omega) (by omega), IsFree, bitmapBit, hx]
    have hd := bitmapAddr_inj.mp hx
    have hiff : x.toNat % 32 = b.toNat % 32 ↔ x = b :=
      ⟨fun h' => word_eq_of_div_mod hd h', fun h => by rw [h]⟩
    rw [hiff, and_or_left]
    exact or_congr_right ⟨fun h => h.2, fun h => ⟨by rw [h]; exact hb, h⟩⟩
  · rw [if_neg hx, IsFree]
    exact ⟨.inl, fun h => h.resolve_right fun hb' => hx (by rw [hb'])⟩

end Bits

/-! ### Block pointers -/

/-- A block pointer of a file. -/
inductive Ptr
  /-- The number of block `n` of the file. -/
  | data (n : ℕ)
  /-- `f_indirect`. -/
  | indirect
  deriving DecidableEq

def Ptr.Valid : Ptr → Prop
  | .data n => n < ndirect + nindirect
  | .indirect => True

/-- The block a pointer refers to; without an indirect block its entries count as zero. -/
def target (v : ByteMem) (f : ℕ) : Ptr → Word
  | .indirect => v.word (fIndirect f)
  | .data n =>
    if n < ndirect then v.word (fDirect f n)
    else if v.word (fIndirect f) = 0#32 then 0#32
    else v.word (blkaddr (v.word (fIndirect f)) + 4 * (n - ndirect))

/-- The last block of the bitmap. -/
def lastBitmap (v : ByteMem) : ℕ := 1 + ((v.word sNblocks).toNat + 32767) / 32768

/-- Block pointers are used once. The structure of each file is the one in the superblock or lies
    in a block of a directory of `D`. -/
structure OwnOn (S D : Set ℕ) (v : ByteMem) : Prop where
  sized : Sized v
  reserved : ∀ b : Word, b.toNat ≤ lastBitmap v → ¬ IsFree v b
  sub : D ⊆ S
  home : ∀ f ∈ S, f = sRoot ∨ ∃ d ∈ D, ∃ n j, n < ndirect + nindirect ∧ j < blkfiles ∧
    target v d (.data n) ≠ 0#32 ∧ f = blkaddr (target v d (.data n)) + 256 * j
  range : ∀ f ∈ S, ∀ p : Ptr, p.Valid → target v f p ≠ 0#32 →
    lastBitmap v < (target v f p).toNat ∧ target v f p < v.word sNblocks ∧ ¬ IsFree v (target v f p)
  inj : ∀ f ∈ S, ∀ p : Ptr, p.Valid → ∀ g ∈ S, ∀ q : Ptr, q.Valid → target v f p ≠ 0#32 →
    target v f p = target v g q → f = g ∧ p = q

/-! ### Cells -/

/-- The words of the file system. -/
inductive Cell
  | nblocks
  /-- The word of the bitmap for a block. -/
  | bitmap (b : Word)
  /-- The word at offset `o` of the structure of a file. -/
  | field (f o : ℕ)
  /-- Entry `i` of the indirect block of a file. -/
  | entry (f i : ℕ)

def Cell.addr (v : ByteMem) : Cell → ℕ
  | .nblocks => sNblocks
  | .bitmap b => bitmapAddr b
  | .field f o => f + o
  | .entry f i => blkaddr (v.word (fIndirect f)) + 4 * i

/-- The cells of the files of `S`, without the names. -/
def Cell.Ok (S : Set ℕ) (v : ByteMem) : Cell → Prop
  | .nblocks => True
  | .bitmap b => b < v.word sNblocks
  | .field f o => f ∈ S ∧ 128 ≤ o ∧ o < 180 ∧ o % 4 = 0
  | .entry f i => f ∈ S ∧ v.word (fIndirect f) ≠ 0#32 ∧ i < nindirect

/-- The cells of the superblock and of the bitmap. -/
def Cell.Low (v : ByteMem) : Cell → Prop
  | .nblocks => True
  | .bitmap b => b < v.word sNblocks
  | .field f o => f = sRoot ∧ 128 ≤ o ∧ o < 180 ∧ o % 4 = 0
  | .entry _ _ => False

/-- The same word: the same cell, or two blocks that share a word of the bitmap. -/
def Cell.Same : Cell → Cell → Prop
  | .bitmap b, .bitmap b' => b.toNat / 32 = b'.toNat / 32
  | c, c' => c = c'

/-- The block a cell lies in, and its offset there. -/
inductive Place (S D : Set ℕ) (v : ByteMem) : Cell → Word → ℕ → Prop
  | low {c : Cell} {t : Word} {o : ℕ} : c.Low v → t.toNat ≤ lastBitmap v →
      c.addr v = blkaddr t + o → o + 4 ≤ blksize → o % 4 = 0 → Place S D v c t o
  | file {d n j o : ℕ} : d ∈ D → n < ndirect + nindirect → j < blkfiles →
      target v d (.data n) ≠ 0#32 → 128 ≤ o → o < 180 → o % 4 = 0 →
      Place S D v (.field (blkaddr (target v d (.data n)) + 256 * j) o) (target v d (.data n))
        (256 * j + o)
  | entry {f i : ℕ} : f ∈ S → v.word (fIndirect f) ≠ 0#32 → i < nindirect →
      Place S D v (.entry f i) (v.word (fIndirect f)) (4 * i)

section Cells

variable {S D : Set ℕ} {v v' : ByteMem} {c c' : Cell} {t u b : Word} {f o o' : ℕ}

theorem blkaddr_lt (ht : t.toNat < 786432) : blkaddr t = diskmap + t.toNat * blksize :=
  blkaddr_eq (by omega)

theorem Cell.Low.same (hc : c.Low v) (hc' : c'.Low v) (ha : c.addr v = c'.addr v) : c.Same c' := by
  cases c with
  | nblocks =>
    cases c' with
    | nblocks => exact rfl
    | bitmap b => exact absurd ha.symm bitmapAddr_ne_sNblocks
    | field f o =>
      obtain ⟨rfl, _⟩ := hc'
      simp only [Cell.addr, sNblocks, sRoot, diskmap, blksize] at ha
      omega
    | entry f i => exact hc'.elim
  | bitmap b =>
    cases c' with
    | nblocks => exact absurd ha bitmapAddr_ne_sNblocks
    | bitmap b' => exact bitmapAddr_inj.mp ha
    | field f o =>
      obtain ⟨rfl, _, ho, _⟩ := hc'
      simp only [Cell.addr, bitmapAddr, sRoot, diskmap, blksize] at ha
      omega
    | entry f i => exact hc'.elim
  | field f o =>
    obtain ⟨rfl, _, ho, _⟩ := hc
    cases c' with
    | nblocks =>
      simp only [Cell.addr, sNblocks, sRoot, diskmap, blksize] at ha
      omega
    | bitmap b' =>
      simp only [Cell.addr, bitmapAddr, sRoot, diskmap, blksize] at ha
      omega
    | field f' o' =>
      obtain ⟨rfl, _⟩ := hc'
      obtain rfl : o = o' := Nat.add_left_cancel ha
      exact rfl
    | entry f i => exact hc'.elim
  | entry f i => exact hc.elim

theorem OwnOn.nblocks_le (h : OwnOn S D v) : (v.word sNblocks).toNat ≤ 786432 := h.sized

theorem OwnOn.lastBitmap_le (h : OwnOn S D v) : lastBitmap v ≤ 25 := by
  have := h.nblocks_le
  simp only [lastBitmap]
  omega

theorem one_le_lastBitmap : 1 ≤ lastBitmap v := by simp [lastBitmap]

theorem OwnOn.place (h : OwnOn S D v) (hc : c.Ok S v) : ∃ t o, Place S D v c t o := by
  have hone : blkaddr 1#32 = diskmap + blksize := by decide
  cases c with
  | nblocks =>
    refine ⟨1#32, 4, .low trivial one_le_lastBitmap ?_ (by decide) (by decide)⟩
    rw [hone, Cell.addr, sNblocks]
  | bitmap b =>
    have hb : b < v.word sNblocks := hc
    rw [lt_def] at hb
    have hnat : (BitVec.ofNat 32 (2 + b.toNat / 32768)).toNat = 2 + b.toNat / 32768 := by
      rw [BitVec.toNat_ofNat]
      omega
    refine ⟨BitVec.ofNat 32 (2 + b.toNat / 32768), 4 * (b.toNat / 32 % 1024),
      .low hc ?_ ?_ ?_ (by omega)⟩
    · rw [hnat, lastBitmap]
      omega
    · rw [blkaddr_lt (by omega), hnat]
      simp only [Cell.addr, bitmapAddr, diskmap, blksize]
      omega
    · simp only [blksize]
      omega
  | entry f i =>
    obtain ⟨hf, hne, hi⟩ := hc
    exact ⟨_, _, .entry hf hne hi⟩
  | field f o =>
    obtain ⟨hf, h1, h2, h3⟩ := hc
    rcases h.home f hf with rfl | ⟨d, hd, n, j, hn, hj, hne, rfl⟩
    · refine ⟨1#32, 8 + o, .low ⟨rfl, h1, h2, h3⟩ one_le_lastBitmap ?_ ?_ (by omega)⟩
      · rw [hone, Cell.addr, sRoot, Nat.add_assoc]
      · simp only [blksize]
        omega
    · exact ⟨_, _, .file hd hn hj hne h1 h2 h3⟩

section

variable (hp : Place S D v c t o)
include hp

/-- A cell lies in a reserved block or in one that is the target of a pointer. -/
theorem Place.block (h : OwnOn S D v) :
    t.toNat ≤ lastBitmap v ∨ lastBitmap v < t.toNat ∧ t < v.word sNblocks ∧ ¬ IsFree v t := by
  cases hp with
  | low _ hle => exact .inl hle
  | file hd hn _ hne => exact .inr (h.range _ (h.sub hd) (.data _) hn hne)
  | entry hf hne => exact .inr (h.range _ hf .indirect trivial hne)

theorem Place.not_isFree (h : OwnOn S D v) : ¬ IsFree v t := by
  rcases hp.block h with hle | ⟨_, _, hfree⟩
  · exact h.reserved t hle
  · exact hfree

theorem Place.toNat_lt (h : OwnOn S D v) : t.toNat < 786432 := by
  have h1 := h.lastBitmap_le
  have h2 := h.nblocks_le
  rcases hp.block h with hle | ⟨_, hlt, _⟩
  · omega
  · rw [lt_def] at hlt
    omega

theorem Place.addr_eq :
    c.addr v = blkaddr t + o ∧ o + 4 ≤ blksize ∧ o % 4 = 0 := by
  cases hp with
  | low _ _ haddr hlt hmod => exact ⟨haddr, hlt, hmod⟩
  | file hd hn hj hne h1 h2 h3 =>
    simp only [Cell.addr, blksize, blkfiles] at *
    omega
  | entry hf hne hi =>
    simp only [blksize, nindirect] at *
    exact ⟨rfl, by omega, by omega⟩

end

theorem OwnOn.addr_aligned (h : OwnOn S D v) (hc : c.Ok S v) : c.addr v % 4 = 0 := by
  obtain ⟨t, o, hp⟩ := h.place hc
  obtain ⟨haddr, _, ho⟩ := hp.addr_eq
  rw [haddr, blkaddr_lt (hp.toNat_lt h)]
  simp only [diskmap, blksize]
  omega

theorem Place.unique (h : OwnOn S D v) (hp : Place S D v c t o) (hq : Place S D v c' u o')
    (ha : c.addr v = c'.addr v) : t = u ∧ o = o' := by
  obtain ⟨h1, h2, _⟩ := hp.addr_eq
  obtain ⟨h3, h4, _⟩ := hq.addr_eq
  rw [blkaddr_lt (hp.toNat_lt h)] at h1
  rw [blkaddr_lt (hq.toNat_lt h)] at h3
  simp only [blksize] at *
  exact ⟨eq_of_toNat_eq (by omega), by omega⟩

/-- **Cells do not overlap.** -/
theorem OwnOn.addr_inj (h : OwnOn S D v) (hc : c.Ok S v) (hc' : c'.Ok S v)
    (ha : c.addr v = c'.addr v) : c.Same c' := by
  obtain ⟨t, o, hp⟩ := h.place hc
  obtain ⟨u, o', hq⟩ := h.place hc'
  obtain ⟨ht, ho⟩ := hp.unique h hq ha
  cases hp with
  | low hlow hle =>
    cases hq with
    | low hlow' => exact hlow.same hlow' ha
    | file hd hn _ hne =>
      have hgt := (h.range _ (h.sub hd) (.data _) hn hne).1
      rw [← ht] at hgt
      omega
    | entry hf hne =>
      have hgt := (h.range _ hf .indirect trivial hne).1
      rw [target, ← ht] at hgt
      omega
  | file hd hn hj hne h1 h2 =>
    cases hq with
    | low _ hle =>
      have hgt := (h.range _ (h.sub hd) (.data _) hn hne).1
      rw [ht] at hgt
      omega
    | file hd' hn' hj' hne' h1' h2' =>
      rw [ht]
      congr 1 <;> omega
    | entry hf hne' =>
      obtain ⟨_, hno⟩ := h.inj _ (h.sub hd) (.data _) hn _ hf .indirect trivial hne ht
      cases hno
  | entry hf hne hi =>
    cases hq with
    | low _ hle =>
      have hgt := (h.range _ hf .indirect trivial hne).1
      rw [target, ht] at hgt
      omega
    | file hd hn _ hne' =>
      obtain ⟨_, hno⟩ := h.inj _ hf .indirect trivial _ (h.sub hd) (.data _) hn hne ht
      cases hno
    | entry hf' hne' hi' =>
      obtain ⟨rfl, _⟩ := h.inj _ hf .indirect trivial _ hf' .indirect trivial hne ht
      obtain rfl := Nat.eq_of_mul_eq_mul_left (by omega : 0 < 4) ho
      exact rfl

theorem Cell.Same.refl (c : Cell) : c.Same c := by
  cases c <;> exact rfl

theorem OwnOn.word_putWord {d : Cell} (h : OwnOn S D v) (hc : c.Ok S v) (hd : d.Ok S v)
    (hne : ¬ d.Same c)
    {m : ByteMem} {w : Word} : (m.putWord (c.addr v) w).word (d.addr v) = m.word (d.addr v) := by
  rw [word_putWord_aligned (h.addr_aligned hc) (h.addr_aligned hd)]
  exact if_neg fun ha => hne (h.addr_inj hd hc ha)

/-- A byte that belongs to no cell. -/
def Clean (S : Set ℕ) (v : ByteMem) (x : ℕ) : Prop :=
  ∀ c : Cell, c.Ok S v → x < c.addr v ∨ c.addr v + 4 ≤ x

/-- The bytes of a block. -/
def InBlock (t : Word) (x : ℕ) : Prop := blkaddr t ≤ x ∧ x < blkaddr t + blksize

variable {d x n : ℕ}

theorem InBlock.unique (ht : t.toNat < 786432) (hu : u.toNat < 786432) (hx : InBlock t x)
    (hx' : InBlock u x) : t = u := by
  rw [InBlock, blkaddr_lt ht] at hx
  rw [InBlock, blkaddr_lt hu] at hx'
  simp only [blksize] at *
  exact eq_of_toNat_eq (by omega)

theorem OwnOn.clean_of_block (h : OwnOn S D v) (ht : t.toNat < 786432) (hx : InBlock t x)
    (hno : ∀ c o, ¬ Place S D v c t o) : Clean S v x := by
  intro c hc
  obtain ⟨u, o, hp⟩ := h.place hc
  by_contra hx'
  obtain ⟨haddr, hlt, _⟩ := hp.addr_eq
  have hu : InBlock u x := by
    rw [InBlock]
    omega
  obtain rfl := hx.unique ht (hp.toNat_lt h) hu
  exact hno c o hp

theorem OwnOn.toNat_lt (h : OwnOn S D v) (hlt : t < v.word sNblocks) : t.toNat < 786432 := by
  have := h.nblocks_le
  rw [lt_def] at hlt
  omega

theorem OwnOn.clean_free (h : OwnOn S D v) (hfree : IsFree v t) (hx : InBlock t x) :
    Clean S v x :=
  h.clean_of_block (h.toNat_lt hfree.1) hx fun _ _ hp => hp.not_isFree h hfree

theorem OwnOn.clean_data (h : OwnOn S D v) (hf : f ∈ S) (hD : f ∉ D)
    (hn : n < ndirect + nindirect) (hne : target v f (.data n) ≠ 0#32)
    (hx : InBlock (target v f (.data n)) x) : Clean S v x := by
  obtain ⟨hgt, hlt, _⟩ := h.range f hf (.data n) hn hne
  refine h.clean_of_block (h.toNat_lt hlt) hx fun c o hp => ?_
  generalize ht : target v f (.data n) = t at hp hgt
  cases hp with
  | low _ hle => omega
  | file hd hn' =>
    obtain ⟨rfl, _⟩ := h.inj f hf (.data n) hn _ (h.sub hd) (.data _) hn' hne ht
    exact hD hd
  | entry hg =>
    obtain ⟨_, hno⟩ := h.inj f hf (.data n) hn _ hg .indirect trivial hne ht
    cases hno

/-- A byte that is not between the sizes and the last pointers of the files. -/
def NotField (S : Set ℕ) (x : ℕ) : Prop := ∀ g ∈ S, x < g + 128 ∨ g + 180 ≤ x

theorem Clean.notField (hx : Clean S v x) : NotField S x := by
  intro g hg
  by_contra hno
  have := hx (.field g ((x - g) / 4 * 4)) ⟨hg, by omega, by omega, by omega⟩
  simp only [Cell.addr] at this
  omega

/-- A block of a directory holds the structures of its entries and no other cell. -/
theorem OwnOn.cell_of_dir (h : OwnOn S D v) (hd : d ∈ D) (hn : n < ndirect + nindirect)
    (hne : target v d (.data n) ≠ 0#32) (hx : InBlock (target v d (.data n)) x) (hc : c.Ok S v)
    (hcx : ¬ (x < c.addr v ∨ c.addr v + 4 ≤ x)) :
    ∃ j o, c = .field (blkaddr (target v d (.data n)) + 256 * j) o ∧ 128 ≤ o ∧ o < 180 ∧
    o % 4 = 0 := by
  obtain ⟨hgt, hlt, _⟩ := h.range d (h.sub hd) (.data n) hn hne
  obtain ⟨u, o, hp⟩ := h.place hc
  obtain ⟨haddr, ho, _⟩ := hp.addr_eq
  have hu : InBlock u x := by
    rw [InBlock]
    omega
  obtain rfl := hx.unique (h.toNat_lt hlt) (hp.toNat_lt h) hu
  generalize ht : target v d (.data n) = t at *
  cases hp with
  | low _ hle => omega
  | file hd' hn' hj' hne' h1 h2 h3 => exact ⟨_, _, rfl, h1, h2, h3⟩
  | entry hg =>
    obtain ⟨_, hno⟩ := h.inj d (h.sub hd) (.data n) hn _ hg .indirect trivial (ht ▸ hne) ht
    cases hno

theorem OwnOn.clean_dir (h : OwnOn S D v) (hd : d ∈ D) (hn : n < ndirect + nindirect)
    (hne : target v d (.data n) ≠ 0#32) (hx : InBlock (target v d (.data n)) x)
    (hx' : NotField S x) : Clean S v x := by
  intro c hc
  by_contra hno
  obtain ⟨j, o, rfl, h1, h2, _⟩ := h.cell_of_dir hd hn hne hx hc hno
  have := hx' _ hc.1
  simp only [Cell.addr] at hno
  omega

/-- An entry of a directory is clean up to its name, and as a whole if it is not a file of `S`. -/
theorem OwnOn.clean_entry {j k : ℕ} (h : OwnOn S D v) (hd : d ∈ D) (hn : n < ndirect + nindirect)
    (hj : j < blkfiles) (hne : target v d (.data n) ≠ 0#32)
    (hk : k ≤ 128 ∨ k ≤ 256 ∧ blkaddr (target v d (.data n)) + 256 * j ∉ S)
    (hx : blkaddr (target v d (.data n)) + 256 * j ≤ x)
    (hx' : x < blkaddr (target v d (.data n)) + 256 * j + k) : Clean S v x := by
  have hin : InBlock (target v d (.data n)) x := by
    simp only [InBlock, blksize, blkfiles] at *
    omega
  intro c hc
  by_contra hno
  obtain ⟨i, o, rfl, h1, h2, _⟩ := h.cell_of_dir hd hn hne hin hc hno
  simp only [Cell.addr] at hno
  obtain rfl : i = j := by omega
  rcases hk with hk | ⟨_, hk⟩
  · omega
  · exact hk hc.1

theorem OwnOn.clean_offMap (h : OwnOn S D v) (hx : x < diskmap ∨ diskmap + disksize ≤ x) :
    Clean S v x := by
  intro c hc
  obtain ⟨t, o, hp⟩ := h.place hc
  obtain ⟨haddr, ho, _⟩ := hp.addr_eq
  have ht := hp.toNat_lt h
  rw [blkaddr_lt ht] at haddr
  simp only [diskmap, disksize, blksize] at *
  omega

end Cells

/-! ### The words and bytes of a change -/

/-- The cell of a pointer. -/
def ptrCell (f : ℕ) : Ptr → Cell
  | .indirect => .field f 176
  | .data n => if n < ndirect then .field f (136 + 4 * n) else .entry f (n - ndirect)

/-- The file a change is made to. -/
def Edit.On (S D : Set ℕ) : Edit → Prop
  | .ram _ _ => True
  | .indirect f _ | .data f _ _ | .size f _ => f ∈ S
  | .dropData f _ | .dropIndirect f | .write f _ => f ∈ S ∧ f ∉ D
  | .name d _ _ => d ∈ D

/-- The cells a change stores to. -/
def Edit.Sets (v : ByteMem) : Edit → Cell → Prop
  | .indirect f b, c => c.Same (.bitmap b) ∨ c.Same (.field f 176)
  | .data f n b, c => c.Same (.bitmap b) ∨ c.Same (ptrCell f (.data n))
  | .dropData f n, c => c.Same (.bitmap (target v f (.data n))) ∨ c.Same (ptrCell f (.data n))
  | .dropIndirect f, c => c.Same (.bitmap (target v f .indirect)) ∨ c.Same (.field f 176)
  | .size f _, c => c.Same (.field f 128)
  | .ram _ _, _ | .write _ _, _ | .name _ _ _, _ => False

/-- The other bytes a change stores to. -/
def Edit.Writes (v : ByteMem) : Edit → ℕ → Prop
  | .ram a n, x => a ≤ x ∧ x < a + n
  | .indirect _ b, x => InBlock b x
  | .write f n, x => InBlock (target v f (.data n)) x
  | .name d n j, x => blkaddr (target v d (.data n)) + 256 * j ≤ x ∧
      x < blkaddr (target v d (.data n)) + 256 * j + 128
  | _, _ => False

section Effects

variable {S D : Set ℕ} {v v' : ByteMem} {c : Cell} {e : Edit} {b : Word} {f n : ℕ} {p : Ptr}

theorem ptrCell_addr : (ptrCell f (.data n)).addr v = slotAddr v f n := by
  rw [ptrCell, slotAddr]
  split
  · simp only [Cell.addr, fDirect]
    omega
  · rfl

theorem Reaches.ok (h : Reaches v f n) (hf : f ∈ S) : (ptrCell f (.data n)).Ok S v := by
  obtain ⟨hn, hreach⟩ := h
  rw [ptrCell]
  split
  · next hlt =>
    simp only [ndirect] at hlt
    exact ⟨hf, by omega, by omega, by omega⟩
  · next hlt =>
    rcases hreach with hlt' | ⟨hne, _⟩
    · exact absurd hlt' hlt
    · exact ⟨hf, hne, by omega⟩

theorem Reaches.target (h : Reaches v f n) : target v f (.data n) = v.word (slotAddr v f n) := by
  obtain ⟨_, hreach⟩ := h
  rw [Fs.target, slotAddr]
  split
  · rfl
  · next hlt =>
    rcases hreach with hlt' | ⟨hne, _⟩
    · exact absurd hlt' hlt
    · rw [if_neg hne]

theorem fieldOk (hf : f ∈ S) {o : ℕ} (h1 : 128 ≤ o) (h2 : o < 180) (h3 : o % 4 = 0) :
    (Cell.field f o).Ok S v := ⟨hf, h1, h2, h3⟩

theorem inMap_block {x : ℕ} (hb : b.toNat < 786432) (hx : InBlock b x) : InMap x := by
  rw [InBlock, blkaddr_lt hb] at hx
  simp only [InMap, diskmap, disksize, blksize] at *
  omega

theorem Clean.overwrite_word {m : ByteMem} {g : ℕ → Byte} {a k : ℕ}
    (hclean : ∀ x, a ≤ x → x < a + k → Clean S v x) (hc : c.Ok S v) :
    (m.overwrite a k g).word (c.addr v) = m.word (c.addr v) := by
  refine word_congr fun x h1 h2 => overwrite_out ?_
  by_contra hx
  have := hclean x (by omega) (by omega) c hc
  omega

theorem Clean.putWord {m : ByteMem} {w : Word} {x : ℕ} (hx : Clean S v x) (hc : c.Ok S v) :
    m.putWord (c.addr v) w x = m x :=
  overwrite_out (hx c hc)

theorem Edits.cells (he : Edits v e v') (h : OwnOn S D v) (hon : e.On S D) (hc : c.Ok S v)
    (hset : ¬ e.Sets v c) : v'.word (c.addr v) = v.word (c.addr v) := by
  cases he with
  | ram g hoff =>
    refine Clean.overwrite_word (fun x h1 h2 => h.clean_offMap ?_) hc
    rcases hoff with hoff | hoff <;> omega
  | @indirect f b h0 hb hfree =>
    obtain ⟨hbit, hptr⟩ := not_or.mp hset
    rw [Clean.overwrite_word (fun x h1 h2 => h.clean_free hfree ⟨h1, h2⟩) hc]
    rw [show fIndirect f = (Cell.field f 176).addr v from rfl,
      h.word_putWord (fieldOk hon (by omega) (by omega) (by omega)) hc hptr]
    exact h.word_putWord (c := .bitmap b) hfree.1 hc hbit
  | @data f n b hreach h0 hb hfree =>
    obtain ⟨hbit, hptr⟩ := not_or.mp hset
    rw [← ptrCell_addr, h.word_putWord (hreach.ok hon) hc hptr]
    exact h.word_putWord (c := .bitmap b) hfree.1 hc hbit
  | @dropData f n hreach hne =>
    obtain ⟨hbit, hptr⟩ := not_or.mp hset
    rw [hreach.target] at hbit
    rw [← ptrCell_addr, h.word_putWord (hreach.ok hon.1) hc hptr, ptrCell_addr]
    refine h.word_putWord (c := .bitmap _) ?_ hc hbit
    rw [← hreach.target] at hne ⊢
    exact (h.range f hon.1 (.data n) hreach.1 hne).2.1
  | @dropIndirect f hne =>
    obtain ⟨hbit, hptr⟩ := not_or.mp hset
    rw [show fIndirect f = (Cell.field f 176).addr v from rfl,
      h.word_putWord (fieldOk hon.1 (by omega) (by omega) (by omega)) hc hptr]
    exact h.word_putWord (c := .bitmap _) (h.range f hon.1 .indirect trivial hne).2.1 hc hbit
  | @size f x =>
    exact h.word_putWord (c := .field f 128) (fieldOk hon (by omega) (by omega) (by omega)) hc hset
  | @write f n a k g hreach hne _ ha hk =>
    refine Clean.overwrite_word (fun x h1 h2 => h.clean_data hon.1 hon.2 hreach.1 ?_ ?_) hc
    · rw [hreach.target]
      exact hne
    · rw [hreach.target]
      exact ⟨by omega, by omega⟩
  | @name d n j k g hreach hne _ hj hk =>
    rw [← hreach.target] at hne ⊢
    exact Clean.overwrite_word (fun x h1 h2 => h.clean_entry hon hreach.1 hj hne (.inl hk) h1 h2) hc

theorem Edits.bytes (he : Edits v e v') (h : OwnOn S D v) (hon : e.On S D) {x : ℕ}
    (hx : Clean S v x) (hw : ¬ e.Writes v x) : v' x = v x := by
  cases he with
  | ram g hoff =>
    simp only [Edit.Writes] at hw
    exact overwrite_out (by omega)
  | @indirect f b h0 hb hfree =>
    simp only [Edit.Writes, InBlock] at hw
    rw [overwrite_out (by omega)]
    rw [show fIndirect f = (Cell.field f 176).addr v from rfl,
      hx.putWord (fieldOk hon (by omega) (by omega) (by omega))]
    exact hx.putWord (c := .bitmap b) hfree.1
  | @data f n b hreach h0 hb hfree =>
    rw [← ptrCell_addr, hx.putWord (hreach.ok hon)]
    exact hx.putWord (c := .bitmap b) hfree.1
  | @dropData f n hreach hne =>
    rw [← ptrCell_addr, hx.putWord (hreach.ok hon.1), ptrCell_addr]
    refine hx.putWord (c := .bitmap _) ?_
    rw [← hreach.target] at hne ⊢
    exact (h.range f hon.1 (.data n) hreach.1 hne).2.1
  | @dropIndirect f hne =>
    rw [show fIndirect f = (Cell.field f 176).addr v from rfl,
      hx.putWord (fieldOk hon.1 (by omega) (by omega) (by omega))]
    exact hx.putWord (c := .bitmap _) (h.range f hon.1 .indirect trivial hne).2.1
  | @size f w => exact hx.putWord (c := .field f 128) (fieldOk hon (by omega) (by omega) (by omega))
  | @write f n a k g hreach hne _ ha hk =>
    simp only [Edit.Writes, InBlock, hreach.target] at hw
    exact overwrite_out (by omega)
  | @name d n j k g hreach hne _ hj hk =>
    simp only [Edit.Writes, maxnamelen, hreach.target] at hw hk
    exact overwrite_out (by omega)

end Effects

/-! ### The pointers and the bitmap after a change -/

/-- The free blocks and the block pointers of `v'`. -/
structure After (S : Set ℕ) (v v' : ByteMem) (free : Word → Prop) (tgt : ℕ → Ptr → Word) :
    Prop where
  nblocks : v'.word sNblocks = v.word sNblocks
  free : ∀ x, IsFree v' x ↔ free x
  target : ∀ g ∈ S, ∀ p : Ptr, p.Valid → target v' g p = tgt g p

section After

variable {S D : Set ℕ} {v v' m : ByteMem} {c : Cell} {b t x w : Word} {f g n : ℕ} {p q : Ptr}

variable {free : Word → Prop} {tgt : ℕ → Ptr → Word} {e : Edit}

theorem After.lastBitmap (ha : After S v v' free tgt) :
    lastBitmap v' = lastBitmap v := by
  rw [Fs.lastBitmap, Fs.lastBitmap, ha.nblocks]

theorem After.sized (ha : After S v v' free tgt)
    (h : OwnOn S D v) : Sized v' := by
  rw [Sized, ha.nblocks]
  exact h.sized

theorem OwnOn.after (h : OwnOn S D v) (ha : After S v v' free tgt)
    (hres : ∀ x : Word, x.toNat ≤ lastBitmap v → ¬ free x)
    (hdir : ∀ d ∈ D, ∀ n, n < ndirect + nindirect → target v d (.data n) ≠ 0#32 →
      tgt d (.data n) = target v d (.data n))
    (hrange : ∀ g ∈ S, ∀ p : Ptr, p.Valid → tgt g p ≠ 0#32 →
      lastBitmap v < (tgt g p).toNat ∧ tgt g p < v.word sNblocks ∧ ¬ free (tgt g p))
    (hinj : ∀ g ∈ S, ∀ p : Ptr, p.Valid → ∀ g' ∈ S, ∀ p' : Ptr, p'.Valid → tgt g p ≠ 0#32 →
      tgt g p = tgt g' p' → g = g' ∧ p = p') : OwnOn S D v' := by
  refine ⟨ha.sized h, fun x hx hfree => ?_, h.sub, fun g hg => ?_, fun g hg p hp hne => ?_,
    fun g hg p hp g' hg' p' hp' hne heq => ?_⟩
  · rw [ha.lastBitmap] at hx
    exact hres x hx ((ha.free x).mp hfree)
  · rcases h.home g hg with rfl | ⟨d, hd, n, j, hn, hj, hne, rfl⟩
    · exact .inl rfl
    · refine .inr ⟨d, hd, n, j, hn, hj, ?_⟩
      rw [ha.target d (h.sub hd) (.data n) hn, hdir d hd n hn hne]
      exact ⟨hne, rfl⟩
  · rw [ha.lastBitmap, ha.nblocks, ha.free]
    rw [ha.target g hg p hp] at hne ⊢
    exact hrange g hg p hp hne
  · rw [ha.target g hg p hp] at hne heq
    rw [ha.target g' hg' p' hp'] at heq
    exact hinj g hg p hp g' hg' p' hp' hne heq

theorem OwnOn.take (h : OwnOn S D v) (h0 : target v f q = 0#32) (hb : IsFree v b)
    (ha : After S v v' (fun x => IsFree v x ∧ x ≠ b)
      (fun g p => if g = f ∧ p = q then b else target v g p)) : OwnOn S D v' := by
  have hother : ∀ g ∈ S, ∀ p : Ptr, p.Valid → target v g p ≠ b := by
    intro g hg p hp heq
    by_cases hne : target v g p = 0#32
    · rw [hne] at heq
      rw [← heq] at hb
      exact h.reserved 0#32 (Nat.zero_le _) hb
    · exact (h.range g hg p hp hne).2.2 (by rw [heq]; exact hb)
  refine h.after ha (fun x hx hfree => h.reserved x hx hfree.1)
    (fun d hd n hn hne => if_neg fun heq => hne (by rw [heq.1, heq.2, h0]))
      (fun g hg p hp hne => ?_)
    fun g hg p hp g' hg' p' hp' hne heq => ?_
  · split at hne
    · next heq =>
      rw [if_pos heq]
      refine ⟨?_, hb.1, fun hno => hno.2 rfl⟩
      by_contra hle
      exact h.reserved b (by omega) hb
    · next heq =>
      rw [if_neg heq]
      obtain ⟨h1, h2, h3⟩ := h.range g hg p hp hne
      exact ⟨h1, h2, fun hno => h3 hno.1⟩
  · split at hne
    · next hfq =>
      rw [if_pos hfq] at heq
      split at heq
      · next hfq' => exact ⟨hfq.1.trans hfq'.1.symm, hfq.2.trans hfq'.2.symm⟩
      · exact absurd heq.symm (hother g' hg' p' hp')
    · next hfq =>
      rw [if_neg hfq] at heq
      split at heq
      · exact absurd heq (hother g hg p hp)
      · exact h.inj g hg p hp g' hg' p' hp' hne heq

/-- Pointers of a file that is not a directory become null, and the block of one of them free. -/
theorem OwnOn.drop (h : OwnOn S D v) (hf : f ∈ S) (hD : f ∉ D) {P : Ptr → Prop} [DecidablePred P]
    (hq : q.Valid) (hP : P q) (hne : target v f q ≠ 0#32)
    (ha : After S v v' (fun x => IsFree v x ∨ x = target v f q)
      (fun g p => if g = f ∧ P p then 0#32 else target v g p)) : OwnOn S D v' := by
  refine h.after ha (fun x hx hfree => ?_)
    (fun d hd n _ _ => if_neg (by rintro ⟨rfl, _⟩; exact hD hd))
    (fun g hg p hp hne' => ?_) fun g hg p hp g' hg' p' hp' hne' heq => ?_
  · rcases hfree with hfree | rfl
    · exact h.reserved x hx hfree
    · have := (h.range f hf q hq hne).1
      omega
  · split at hne'
    · exact absurd rfl hne'
    · next hno =>
      rw [if_neg hno]
      obtain ⟨h1, h2, h3⟩ := h.range g hg p hp hne'
      refine ⟨h1, h2, fun hfree => ?_⟩
      rcases hfree with hfree | htgt
      · exact h3 hfree
      · obtain ⟨rfl, rfl⟩ := h.inj g hg p hp f hf q hq hne' htgt
        exact hno ⟨rfl, hP⟩
  · split at hne'
    · exact absurd rfl hne'
    · next hno =>
      rw [if_neg hno] at heq
      split at heq
      · exact absurd heq hne'
      · exact h.inj g hg p hp g' hg' p' hp' hne' heq

theorem OwnOn.keep (h : OwnOn S D v) (ha : After S v v' (IsFree v) (target v)) : OwnOn S D v' :=
  h.after ha h.reserved (fun _ _ _ _ _ => rfl) h.range h.inj

theorem ptrCell_ne_bitmap : ¬ (ptrCell f p).Same (.bitmap b) := by
  cases p with
  | indirect => exact nofun
  | data n =>
    rw [ptrCell]
    split <;> exact nofun

theorem ptrCell_same_iff : (ptrCell g p).Same (ptrCell f q) ↔ g = f ∧ p = q := by
  refine ⟨fun h => ?_, fun ⟨h1, h2⟩ => by rw [h1, h2]; exact Cell.Same.refl _⟩
  have heq : ptrCell g p = ptrCell f q := by
    revert h
    cases p <;> cases q <;> simp only [ptrCell] <;> repeat' split
    all_goals exact id
  cases p with
  | indirect =>
    cases q with
    | indirect =>
      simp only [ptrCell, Cell.field.injEq, and_true] at heq
      exact ⟨heq, rfl⟩
    | data n =>
      simp only [ptrCell] at heq
      split at heq
      · next hlt =>
        simp only [Cell.field.injEq, ndirect] at heq hlt
        omega
      · cases heq
  | data n =>
    cases q with
    | indirect =>
      simp only [ptrCell] at heq
      split at heq
      · next hlt =>
        simp only [Cell.field.injEq, ndirect] at heq hlt
        omega
      · cases heq
    | data k =>
      simp only [ptrCell] at heq
      split at heq <;> split at heq
      · simp only [Cell.field.injEq] at heq
        exact ⟨heq.1, by rw [show n = k by omega]⟩
      · cases heq
      · cases heq
      · simp only [Cell.entry.injEq] at heq
        exact ⟨heq.1, by rw [show n = k by omega]⟩

theorem target_congr (hg : g ∈ S) (hp : p.Valid)
    (hind : v'.word (fIndirect g) = v.word (fIndirect g))
    (hcell : (ptrCell g p).Ok S v →
      v'.word ((ptrCell g p).addr v) = v.word ((ptrCell g p).addr v)) :
    target v' g p = target v g p := by
  cases p with
  | indirect => exact hind
  | data n =>
    rw [target, target, hind]
    rw [ptrCell] at hcell
    split
    · next hlt =>
      rw [if_pos hlt] at hcell
      simp only [ndirect] at hlt
      rw [fDirect, Nat.add_assoc]
      exact hcell (fieldOk hg (by omega) (by omega) (by omega))
    · next hlt =>
      rw [if_neg hlt] at hcell
      split
      · rfl
      · next hne =>
        have hn : n < ndirect + nindirect := hp
        exact hcell ⟨hg, hne, by omega⟩

theorem isFree_congr (hn : v'.word sNblocks = v.word sNblocks)
    (hbit : x < v.word sNblocks → v'.word (bitmapAddr x) = v.word (bitmapAddr x)) :
    IsFree v' x ↔ IsFree v x := by
  rw [IsFree, IsFree, hn]
  exact and_congr_right fun hx => by rw [hbit hx]

theorem Edits.after_keep (he : Edits v e v') (h : OwnOn S D v) (hon : e.On S D)
    (hset : ∀ c, e.Sets v c → ∃ f, c = .field f 128) : After S v v' (IsFree v) (target v) := by
  have hptr : ∀ g ∈ S, ∀ p : Ptr, (ptrCell g p).Ok S v →
      v'.word ((ptrCell g p).addr v) = v.word ((ptrCell g p).addr v) := by
    intro g hg p hc
    refine he.cells h hon hc fun hs => ?_
    obtain ⟨f, hf⟩ := hset _ hs
    cases p with
    | indirect =>
      rw [ptrCell, Cell.field.injEq] at hf
      omega
    | data n =>
      rw [ptrCell] at hf
      split at hf
      · rw [Cell.field.injEq] at hf
        omega
      · cases hf
  have hn : v'.word sNblocks = v.word sNblocks := by
    refine he.cells h hon (c := .nblocks) trivial fun hs => ?_
    obtain ⟨f, hf⟩ := hset _ hs
    cases hf
  refine ⟨hn, fun x => isFree_congr hn fun hx => he.cells h hon (c := .bitmap x) hx fun hs => ?_,
    fun g hg p hp => target_congr hg hp ?_ (hptr g hg p)⟩
  · obtain ⟨f, hf⟩ := hset _ hs
    cases hf
  · exact hptr g hg .indirect (fieldOk hg (by omega) (by omega) (by omega))

theorem OwnOn.after_store (h : OwnOn S D v) (hc : (ptrCell f q).Ok S v)
    (hm : m.word sNblocks = v.word sNblocks) :
    (m.putWord ((ptrCell f q).addr v) w).word sNblocks = v.word sNblocks ∧
    ∀ x, IsFree (m.putWord ((ptrCell f q).addr v) w) x ↔ IsFree m x := by
  have hn : (m.putWord ((ptrCell f q).addr v) w).word sNblocks = m.word sNblocks := by
    refine h.word_putWord (d := .nblocks) hc trivial fun hs => ?_
    cases q with
    | indirect => cases hs
    | data n =>
      rw [ptrCell] at hs
      split at hs <;> cases hs
  refine ⟨hn.trans hm, fun x => isFree_congr hn fun hx => ?_⟩
  rw [hm] at hx
  refine h.word_putWord (d := .bitmap x) hc hx fun hs => ?_
  cases q with
  | indirect => cases hs
  | data n =>
    rw [ptrCell] at hs
    split at hs <;> cases hs

/-- A change of one bit of the bitmap and one pointer leaves the other pointers. -/
theorem ptrCell_kept (hcells : ∀ c : Cell, c.Ok S v →
    ¬ (c.Same (.bitmap b) ∨ c.Same (ptrCell f q)) →
    v'.word (c.addr v) = v.word (c.addr v)) (hne : ¬ (g = f ∧ p = q)) (hc : (ptrCell g p).Ok S v) :
    v'.word ((ptrCell g p).addr v) = v.word ((ptrCell g p).addr v) := by
  refine hcells _ hc fun hs => ?_
  rcases hs with hs | hs
  · exact ptrCell_ne_bitmap hs
  · exact hne (ptrCell_same_iff.mp hs)

theorem indirect_ok (hf : f ∈ S) : (ptrCell f .indirect).Ok S v :=
    fieldOk hf (by omega) (by omega) (by omega)

theorem target_after_slot (hcells : ∀ c : Cell, c.Ok S v →
    ¬ (c.Same (.bitmap b) ∨ c.Same (ptrCell f (.data n))) →
    v'.word (c.addr v) = v.word (c.addr v)) (hn : v'.word sNblocks = v.word sNblocks)
    (hreach : Reaches v f n)
    (hself : v'.word (slotAddr v f n) = w) (hg : g ∈ S) (hp : p.Valid) :
    target v' g p = if g = f ∧ p = .data n then w else target v g p := by
  have hind : v'.word (fIndirect g) = v.word (fIndirect g) :=
    ptrCell_kept (p := .indirect) hcells (fun hno => by cases hno.2) (indirect_ok hg)
  split
  · next heq =>
    obtain ⟨rfl, rfl⟩ := heq
    rw [Reaches.target ((reaches_congr hind hn).mpr hreach), slotAddr_congr hind, hself]
  · next hne => exact target_congr hg hp hind (ptrCell_kept hcells hne)

/-- The pointers that do not go through an indirect block that has changed. -/
theorem target_after_indirect (hcells : ∀ c : Cell, c.Ok S v →
    ¬ (c.Same (.bitmap b) ∨ c.Same (ptrCell f .indirect)) →
    v'.word (c.addr v) = v.word (c.addr v)) (hg : g ∈ S) (hp : p.Valid)
    (hne : g ≠ f ∨ ∃ n < ndirect, p = .data n) : target v' g p = target v g p := by
  rcases hne with hne | ⟨n, hlt, rfl⟩
  · exact target_congr hg hp
      (ptrCell_kept (p := .indirect) hcells (fun hno => hne hno.1) (indirect_ok hg))
      (ptrCell_kept hcells fun hno => hne hno.1)
  · have hcell := ptrCell_kept (g := g) (p := .data n) hcells (fun hno => by cases hno.2)
    rw [ptrCell_addr, slotAddr, if_pos hlt] at hcell
    rw [target, target, if_pos hlt, if_pos hlt]
    exact hcell (Reaches.ok ⟨hp, .inl hlt⟩ hg)

theorem Edits.after_data (he : Edits v (.data f n b) v') (h : OwnOn S D v) (hf : f ∈ S) :
    After S v v' (fun x => IsFree v x ∧ x ≠ b)
      (fun g p => if g = f ∧ p = .data n then b else target v g p) := by
  have hcells := fun c hc hset => he.cells (c := c) h hf hc hset
  cases he with
  | data hreach h0 hb hfree =>
    rw [← ptrCell_addr] at hcells ⊢
    obtain ⟨hn, hbits⟩ := h.after_store (w := b) (hreach.ok hf) (takeBlock_nblocks (b := b))
    refine ⟨hn, fun x => (hbits x).trans isFree_takeBlock, fun g hg p hp =>
      target_after_slot hcells hn hreach ?_ hg hp⟩
    rw [ptrCell_addr, word_putWord_self]

theorem Edits.after_dropData (he : Edits v (.dropData f n) v') (h : OwnOn S D v) (hf : f ∈ S)
    (hD : f ∉ D) : After S v v' (fun x => IsFree v x ∨ x = target v f (.data n))
      (fun g p => if g = f ∧ p = .data n then 0#32 else target v g p) := by
  have hcells := fun c hc hset => he.cells (c := c) h (show f ∈ S ∧ f ∉ D from ⟨hf, hD⟩) hc hset
  cases he with
  | dropData hreach hne =>
    rw [← ptrCell_addr] at hcells ⊢
    obtain ⟨hn, hbits⟩ := h.after_store (w := 0#32) (hreach.ok hf)
      (giveBlock_nblocks (b := v.word ((ptrCell f (.data n)).addr v)))
    rw [ptrCell_addr] at hbits
    rw [← hreach.target] at hne
    have hlt := (h.range f hf (.data n) hreach.1 hne).2.1
    rw [hreach.target] at hlt
    refine ⟨hn, fun x => ?_, fun g hg p hp => target_after_slot hcells hn hreach ?_ hg hp⟩
    · rw [ptrCell_addr, hbits, isFree_giveBlock hlt, hreach.target]
    · rw [ptrCell_addr, word_putWord_self]

theorem word_zero {a : ℕ} (h : ∀ x, a ≤ x → x < a + 4 → m x = 0#8) : m.word a = 0#32 := by
  rw [ByteMem.word, h a (by omega) (by omega), h (a + 1) (by omega) (by omega),
    h (a + 2) (by omega) (by omega), h (a + 3) (by omega) (by omega)]
  decide

theorem Edits.after_indirect (he : Edits v (.indirect f b) v') (h : OwnOn S D v) (hf : f ∈ S) :
    After S v v' (fun x => IsFree v x ∧ x ≠ b)
      (fun g p => if g = f ∧ p = .indirect then b else target v g p) := by
  have hcells := fun c hc hset => he.cells (c := c) h hf hc hset
  cases he with
  | indirect h0 hb hfree =>
    have hok : (ptrCell f .indirect).Ok S v := indirect_ok hf
    have hclear : ∀ c : Cell, c.Ok S v → ∀ m : ByteMem,
        (m.overwrite (blkaddr b) blksize fun _ => 0#8).word (c.addr v) = m.word (c.addr v) :=
      fun c hc m => Clean.overwrite_word (fun x h1 h2 => h.clean_free hfree ⟨h1, h2⟩) hc
    obtain ⟨hn, hbits⟩ := h.after_store (w := b) hok (takeBlock_nblocks (b := b))
    have hn' := (hclear .nblocks trivial _).trans hn
    refine ⟨hn', fun x => ?_, fun g hg p hp => ?_⟩
    · rw [← isFree_takeBlock, ← hbits]
      refine isFree_congr (hclear .nblocks trivial _) fun hx => hclear (.bitmap x) ?_ _
      rw [hn] at hx
      exact hx
    by_cases hgf : g = f
    · subst hgf
      have hself := hclear (ptrCell g .indirect) hok ((takeBlock v b).putWord (fIndirect g) b)
      rw [show (ptrCell g .indirect).addr v = fIndirect g from rfl, word_putWord_self] at hself
      cases p with
      | indirect =>
        rw [if_pos ⟨rfl, rfl⟩]
        exact hself
      | data n =>
        rw [if_neg fun hno => by cases hno.2]
        by_cases hlt : n < ndirect
        · exact target_after_indirect hcells hg hp (.inr ⟨n, hlt, rfl⟩)
        · have hn : n < ndirect + nindirect := hp
          rw [target, target, if_neg hlt, if_neg hlt, hself, h0, if_pos rfl, if_neg hb]
          simp only [ndirect, nindirect] at hlt hn ⊢
          exact word_zero fun x h1 h2 => overwrite_in (by omega) (by simp only [blksize]; omega)
    · rw [if_neg fun hno => hgf hno.1]
      exact target_after_indirect hcells hg hp (.inl hgf)

/-- The pointers that go through the indirect block. -/
def Ptr.Deep : Ptr → Prop
  | .indirect => True
  | .data n => ndirect ≤ n

instance : DecidablePred Ptr.Deep
  | .indirect => inferInstanceAs (Decidable True)
  | .data n => inferInstanceAs (Decidable (ndirect ≤ n))

theorem Edits.after_dropIndirect (he : Edits v (.dropIndirect f) v') (h : OwnOn S D v) (hf : f ∈ S)
    (hD : f ∉ D) :
    After S v v' (fun x => IsFree v x ∨ x = target v f .indirect)
      (fun g p => if g = f ∧ p.Deep then 0#32 else target v g p) := by
  have hcells := fun c hc hset => he.cells (c := c) h (show f ∈ S ∧ f ∉ D from ⟨hf, hD⟩) hc hset
  cases he with
  | dropIndirect hne =>
    obtain ⟨hn, hbits⟩ :=
      h.after_store (w := 0#32) (indirect_ok hf) (giveBlock_nblocks (b := v.word (fIndirect f)))
    have hlt := (h.range f hf .indirect trivial hne).2.1
    refine ⟨hn, fun x => (hbits x).trans (isFree_giveBlock hlt), fun g hg p hp => ?_⟩
    by_cases hgf : g = f
    · subst hgf
      cases p with
      | indirect =>
        rw [if_pos ⟨rfl, trivial⟩]
        exact word_putWord_self
      | data n =>
        by_cases hlt : n < ndirect
        · rw [if_neg (fun hno => absurd hno.2 (Nat.not_le.mpr hlt))]
          exact target_after_indirect hcells hg hp (.inr ⟨n, hlt, rfl⟩)
        · rw [if_pos ⟨rfl, Nat.not_lt.mp hlt⟩, target, if_neg hlt, if_pos word_putWord_self]
    · rw [if_neg fun hno => hgf hno.1]
      exact target_after_indirect hcells hg hp (.inl hgf)

/-- **Every change of a file of `S` preserves ownership.** -/
theorem OwnOn.step (h : OwnOn S D v) (hon : e.On S D) (he : Edits v e v') : OwnOn S D v' := by
  cases e with
  | ram a n => exact h.keep (he.after_keep h hon nofun)
  | size f x =>
    refine h.keep (he.after_keep h hon fun c hs => ⟨f, ?_⟩)
    cases c <;> exact hs
  | write f n => exact h.keep (he.after_keep h hon nofun)
  | name d n j => exact h.keep (he.after_keep h hon nofun)
  | data f n b =>
    have ha := he.after_data h hon
    cases he with
    | data hreach h0 hb hfree => exact h.take (hreach.target.trans h0) hfree ha
  | indirect f b =>
    have ha := he.after_indirect h hon
    cases he with
    | indirect h0 hb hfree => exact h.take (q := .indirect) h0 hfree ha
  | dropData f n =>
    have ha := he.after_dropData h hon.1 hon.2
    cases he with
    | dropData hreach hne =>
      rw [← hreach.target] at hne
      exact h.drop hon.1 hon.2 (P := (· = .data n)) (q := .data n) hreach.1 rfl hne ha
  | dropIndirect f =>
    have ha := he.after_dropIndirect h hon.1 hon.2
    cases he with
    | dropIndirect hne => exact h.drop hon.1 hon.2 (q := .indirect) trivial trivial hne ha

theorem OwnOn.closed : Closed (Edit.On S D) (OwnOn S D) :=
  ⟨fun _ h => h.sized, fun _ _ _ h hon he => h.step hon he⟩

theorem OwnOn.sRoot_le (h : OwnOn S D v) (hf : f ∈ S) : sRoot ≤ f := by
  rcases h.home f hf with rfl | ⟨d, hd, n, j, hn, hj, hne, rfl⟩
  · exact le_refl _
  · obtain ⟨hgt, hlt, _⟩ := h.range d (h.sub hd) (.data n) hn hne
    have := one_le_lastBitmap (v := v)
    rw [blkaddr_lt (h.toNat_lt hlt)]
    simp only [sRoot, diskmap, blksize]
    omega

theorem OwnOn.anchored (hf : f ∈ S) : Anchored (OwnOn S D) f := by
  intro v n b v' h he
  have ha := he.after_data h hf
  refine ⟨?_, ha.nblocks⟩
  have := ha.target f hf .indirect trivial
  rwa [if_neg (fun hno => by cases hno.2)] at this

end After

/-- What `check_super` and `check_bitmap` make sure of. -/
structure Mounted (v : ByteMem) : Prop where
  sized : Sized v
  reserved : ∀ b : Word, b.toNat ≤ lastBitmap v → ¬ IsFree v b

/-- `super` is set, and the disk is as `fs_init` checks it. -/
structure Up (s : Server) : Prop where
  super : s.super = true
  mounted : Mounted s.view

end LinuxStudy.Fs
