import LinuxStudy.Fs.Tree

/-!
# The formatter of `fs/fsformat.c`

`fsformat` builds a disk image out of host files: a superblock, a bitmap, the blocks of each
file one after the other, and last the blocks of the one directory. The entries of the
directory are collected in memory from `malloc`, which nothing clears.

A byte of the image is at the address it has in the disk map of the server, and the memory of
the entries is below it. The macro `ROUNDUP` is unsigned in `alloc` and in `finishfile` and
signed in `finishdir`; both are kept. A host file is a regular file that can be read.
-/

namespace LinuxStudy.Fs

open Jos
open Proc (bind_eq_some get_eq_some require_eq_some pure_eq_some)
open ByteMem Proc
open Nat (add_zero add_assoc mul_add)

/-! ### The formatter -/

/-- A regular file of the host. -/
structure HostFile where
  path : List Byte
  data : List Byte

structure Format where
  mem : ByteMem
  diskpos : ℕ
  /-- `root.n`. -/
  n : ℕ

abbrev FormatM := Proc Format

/-- `root.ents`, memory from `malloc`. -/
def dirEnts : ℕ := 0x1000

def maxDirEnts : ℕ := 128

/-- `ROUNDUP(n, BLKSIZE)` for an unsigned number. -/
def roundup (n : ℕ) : ℕ :=
  let m := (n + 2 ^ 32 - 1) % 2 ^ 32
  (m + blksize - m % blksize) % 2 ^ 32

/-- `ROUNDUP(n, BLKSIZE)` for a signed number. -/
def roundupInt (n : Int) : Int := n - 1 + blksize - (n - 1).tmod blksize

def blockof (pos : ℕ) : ℕ := (pos - diskmap) / blksize

/-- `alloc(bytes)`; `nblocks` is the size of the disk. -/
def alloc (nblocks bytes : ℕ) : FormatM ℕ := do
  let start := (← get).diskpos
  modify fun s => { s with diskpos := start + roundup bytes }
  Proc.require (blockof (start + roundup bytes) < nblocks)
  pure start

/-- A store to memory. -/
def put (g : ByteMem → ByteMem) : FormatM Unit := modify fun s => { s with mem := g s.mem }

/-- `for (i = 0; i < k; ++i) a[i] = start + i`. -/
def putNumbers (a start : ℕ) : ℕ → ByteMem → ByteMem
  | 0, m => m
  | i + 1, m => (putNumbers a start i m).putWord (a + 4 * i) (BitVec.ofNat 32 (start + i))

/-- `strcpy`. -/
def putString (a : ℕ) (str : List Byte) (m : ByteMem) : ByteMem :=
  m.overwrite a (str.length + 1) fun x => str.getD (x - a) 0#8

/-- The superblock and the bitmap, on a disk of zeros. -/
def opendisk (nblocks : ℕ) : FormatM Unit := do
  let _ ← alloc nblocks blksize
  let super ← alloc nblocks blksize
  put fun m => m.putWord super fsMagic
  put fun m => m.putWord (super + 4) (BitVec.ofNat 32 nblocks)
  put fun m => m.putWord (fType (super + 8)) ftypeDir
  put (putString (super + 8) [0x2F#8])
  let nbitblocks := (nblocks + 32767) / 32768
  let bitmap ← alloc nblocks (nbitblocks * blksize)
  put fun m => m.overwrite bitmap (nbitblocks * blksize) fun _ => 0xFF#8

/-- `finishfile(f, start, len)`. The loop over the direct blocks stops at `NDIRECT` also for a
    file of exactly that many blocks. -/
def finishfile (nblocks f start len : ℕ) : FormatM Unit := do
  put fun m => m.putWord (fSize f) (BitVec.ofNat 32 len)
  let n := roundup len / blksize
  put (putNumbers (fDirect f 0) start (min n ndirect))
  Proc.when (ndirect ≤ n) do
    let ind ← alloc nblocks blksize
    put fun m => m.putWord (fIndirect f) (BitVec.ofNat 32 (blockof ind))
    put (putNumbers ind (start + ndirect) (n - ndirect))

/-- `diradd(d, FTYPE_REG, name)`. -/
def diradd (name : List Byte) : FormatM ℕ := do
  let out := dirEnts + 256 * (← get).n
  modify fun s => { s with n := s.n + 1 }
  Proc.require ((← get).n ≤ maxDirEnts)
  put (putString out name)
  put fun m => m.putWord (fType out) 0#32
  pure out

/-- The part of a path after its last slash. -/
def baseName (path : List Byte) : List Byte := (path.reverse.takeWhile (· ≠ 0x2F#8)).reverse

def writefile (nblocks : ℕ) (file : HostFile) : FormatM Unit := do
  Proc.require (file.data.length < maxfilesize)
  let f ← diradd (baseName file.path)
  let start ← alloc nblocks file.data.length
  put fun m => m.overwrite start file.data.length fun x => file.data.getD (x - start) 0#8
  finishfile nblocks f (blockof start) file.data.length

def writefiles (nblocks : ℕ) : List HostFile → FormatM Unit
  | [] => pure ()
  | file :: files => do
    writefile nblocks file
    writefiles nblocks files

def finishdir (nblocks : ℕ) : FormatM Unit := do
  let size := (← get).n * 256
  let start ← alloc nblocks size
  put fun m => m.overwrite start size fun x => m (dirEnts + (x - start))
  finishfile nblocks sRoot (blockof start) (roundupInt size).toNat

/-- `for (i = 0; i < k; ++i) bitmap[i/32] &= ~(1<<(i%32))`. -/
def clearBits : ℕ → ByteMem → ByteMem
  | 0, m => m
  | i + 1, m => takeBlock (clearBits i m) (BitVec.ofNat 32 i)

def finishdisk : FormatM Unit := do
  let i := blockof (← get).diskpos
  put (clearBits i)

/-- `main`, after its arguments have been read. -/
def formatDisk (nblocks : ℕ) (files : List HostFile) : FormatM Unit := do
  Proc.require (2 ≤ nblocks ∧ nblocks ≤ 1024)
  opendisk nblocks
  writefiles nblocks files
  finishdir nblocks
  finishdisk

/-- The memory the formatter starts with: zeros in the disk map, and elsewhere any bytes. -/
def formatStart (junk : ByteMem) : Format :=
  { mem := fun a => if diskmap ≤ a then 0#8 else junk a
    diskpos := diskmap
    n := 0 }

/-- The image that `fsformat` leaves, unless it panics. -/
def format (nblocks : ℕ) (files : List HostFile) (junk : ByteMem) : Option ByteMem :=
  (formatDisk nblocks files (formatStart junk)).map fun r => r.2.mem

/-! ### Arithmetic and stores -/

/-- The blocks that `len` bytes take. -/
def blockCount (len : ℕ) : ℕ := (len + 4095) / 4096

theorem roundup_eq {n : ℕ} (h : n < 2 ^ 31) : roundup n = 4096 * blockCount n := by
  simp only [roundup, blockCount, blksize]
  omega

theorem roundupInt_eq {n : ℕ} (h : 0 < n) : (roundupInt n).toNat = 4096 * blockCount n := by
  have hmod : ((n : Int) - 1).tmod blksize = ((n - 1) % 4096 : ℕ) := by
    rw [show (n : Int) - 1 = ((n - 1 : ℕ) : Int) by omega]
    rfl
  rw [roundupInt, hmod, blockCount, blksize]
  omega

theorem blockof_eq (k : ℕ) : blockof (diskmap + 4096 * k) = k := by
  rw [blockof, blksize]
  omega

section Stores

variable {m : ByteMem} {a start k x : ℕ} {str : List Byte}

theorem putNumbers_out (h : x < a ∨ a + 4 * k ≤ x) : putNumbers a start k m x = m x := by
  induction k with
  | zero => rfl
  | succ k ih =>
    rw [putNumbers, putWord, overwrite_out (by omega)]
    exact ih (by omega)

theorem word_putNumbers_out (h : x + 4 ≤ a ∨ a + 4 * k ≤ x) :
    (putNumbers a start k m).word x = m.word x :=
  word_congr fun _ _ _ => putNumbers_out (by omega)

theorem word_putNumbers {i : ℕ} (h : i < k) :
    (putNumbers a start k m).word (a + 4 * i) = BitVec.ofNat 32 (start + i) := by
  induction k with
  | zero => omega
  | succ k ih =>
    rw [putNumbers]
    rcases Nat.lt_succ_iff_lt_or_eq.mp h with hi | rfl
    · rw [word_putWord (by omega), ih hi]
    · rw [word_putWord_self]

theorem putString_out (h : x < a ∨ a + str.length + 1 ≤ x) : putString a str m x = m x :=
  overwrite_out (by omega)

theorem clearBits_out (h : x < diskmap + 8192 ∨ diskmap + 12288 ≤ x) (hk : k ≤ 32768) :
    clearBits k m x = m x := by
  induction k with
  | zero => rfl
  | succ k ih =>
    have hword : diskmap + 8192 ≤ bitmapAddr (BitVec.ofNat 32 k) ∧
        bitmapAddr (BitVec.ofNat 32 k) + 4 ≤ diskmap + 12288 := by
      simp only [bitmapAddr, blksize, BitVec.toNat_ofNat]
      omega
    rw [clearBits, takeBlock, putWord, overwrite_out (by omega), ih (by omega)]

theorem isFree_clearBits {b : Word} (hk : k ≤ 2 ^ 32) :
    IsFree (clearBits k m) b ↔ IsFree m b ∧ k ≤ b.toNat := by
  induction k with
  | zero => simp [clearBits]
  | succ k ih =>
    have hne : b ≠ BitVec.ofNat 32 k ↔ b.toNat ≠ k := by
      rw [ne_eq, ← BitVec.toNat_inj, BitVec.toNat_ofNat, Nat.mod_eq_of_lt (by omega)]
    rw [clearBits, isFree_takeBlock, ih (by omega), hne]
    constructor
    · rintro ⟨⟨hfree, hle⟩, hb⟩
      exact ⟨hfree, by omega⟩
    · rintro ⟨hfree, hle⟩
      exact ⟨⟨hfree, by omega⟩, by omega⟩

end Stores

/-! ### Files of an image -/

/-- The blocks that a file of `nb` blocks takes, its indirect block included. -/
def width (nb : ℕ) : ℕ := nb + if ndirect ≤ nb then 1 else 0

theorem le_width (nb : ℕ) : nb ≤ width nb := Nat.le_add_right _ _

theorem width_of_lt {nb : ℕ} (h : nb < ndirect) : width nb = nb := by
  rw [width, if_neg (by omega), add_zero]

theorem width_of_le {nb : ℕ} (h : ndirect ≤ nb) : width nb = nb + 1 := by
  rw [width, if_pos h]

/-- The file at `f` has `nb` blocks from `start` on, and then its indirect block. -/
structure Pointers (v : ByteMem) (f start nb : ℕ) : Prop where
  direct : ∀ i, i < nb → i < ndirect → v.word (fDirect f i) = BitVec.ofNat 32 (start + i)
  indirect : ndirect ≤ nb → v.word (fIndirect f) = BitVec.ofNat 32 (start + nb)
  entries : ndirect ≤ nb → ∀ i < nindirect, v.word (diskmap + 4096 * (start + nb) + 4 * i) =
    if ndirect + i < nb then BitVec.ofNat 32 (start + (ndirect + i)) else 0#32

/-- An offset in the block pointers of a file that a file of `nb` blocks does not use. -/
def UnusedAt (nb o : ℕ) : Prop :=
  (136 + 4 * nb ≤ o ∧ o < 176) ∨ (nb < ndirect ∧ 176 ≤ o ∧ o < 180)

/-- The entry at `e` is the one of a host file whose blocks start at `start`. -/
structure EntryOf (v : ByteMem) (e : ℕ) (file : HostFile) (start : ℕ) : Prop where
  size : v.word (fSize e) = BitVec.ofNat 32 file.data.length
  pointers : Pointers v e start (blockCount file.data.length)
  name : (baseName file.path).length < maxnamelen →
    ∀ i ≤ (baseName file.path).length, v (e + i) = (baseName file.path).getD i 0#8
  content : ∀ i < file.data.length, v (diskmap + 4096 * start + i) = file.data.getD i 0#8

section Numbers

variable {k : ℕ}

theorem ofNat_toNat (h : k < 1024) : (BitVec.ofNat 32 k).toNat = k := by
  rw [BitVec.toNat_ofNat]
  omega

theorem ofNat_ne_zero (h : k < 1024) (h0 : 0 < k) : BitVec.ofNat 32 k ≠ 0#32 := by
  intro he
  have hnat := congrArg BitVec.toNat he
  rw [ofNat_toNat h, BitVec.toNat_ofNat] at hnat
  omega

theorem blkaddr_ofNat (h : k < 1024) : blkaddr (BitVec.ofNat 32 k) = diskmap + 4096 * k := by
  rw [blkaddr_lt (by rw [ofNat_toNat h]; omega), ofNat_toNat h, blksize, Nat.mul_comm]

section

variable {v : ByteMem} {f start nb : ℕ} (h : Pointers v f start nb) (h0 : 0 < start)
  (hlt : start + nb < 1024)
include h h0 hlt

theorem Pointers.target_far (hge : ndirect ≤ nb) (hk : ¬ k < ndirect)
    (hmax : k < ndirect + nindirect) :
    target v f (.data k) = if k < nb then BitVec.ofNat 32 (start + k) else 0#32 := by
  have hentry := h.entries hge (k - ndirect) (by omega)
  rw [Nat.add_sub_cancel' (Nat.le_of_not_lt hk)] at hentry
  rw [target, if_neg hk, h.indirect hge, if_neg (ofNat_ne_zero hlt (by omega)),
    blkaddr_ofNat hlt, hentry]

/-- A block that the file uses. -/
theorem Pointers.target_of_lt (hk : k < nb) :
    target v f (.data k) = BitVec.ofNat 32 (start + k) := by
  by_cases hten : k < ndirect
  · rw [target, if_pos hten, h.direct k hk hten]
  · rw [h.target_far h0 hlt (by omega) hten (by simp only [nindirect]; omega), if_pos hk]

end

end Numbers

section Congr

variable {v v' : ByteMem} {e e' f start nb : ℕ} {file : HostFile}

theorem Pointers.congr (h : Pointers v e start nb)
    (hfields : ∀ o, 136 ≤ o → o < 180 → v' (e' + o) = v (e + o))
    (hblocks : ∀ x, diskmap + 4096 * start ≤ x → x < diskmap + 4096 * (start + width nb) →
      v' x = v x) : Pointers v' e' start nb := by
  have hword : ∀ o, 136 ≤ o → o ≤ 176 → v'.word (e' + o) = v.word (e + o) := by
    intro o h1 h2
    refine word_congr_shift fun i hi => ?_
    rw [add_assoc, add_assoc]
    exact hfields (o + i) (by omega) (by omega)
  constructor
  · intro i hi hi'
    simp only [ndirect] at hi'
    have hsame := hword (136 + 4 * i) (by omega) (by omega)
    rw [← add_assoc, ← add_assoc] at hsame
    rw [fDirect, hsame]
    exact h.direct i hi hi'
  · intro hnb
    rw [fIndirect, hword 176 (by omega) (by omega)]
    exact h.indirect hnb
  · intro hnb i hi
    rw [← h.entries hnb i hi]
    simp only [nindirect] at hi
    rw [width_of_le hnb] at hblocks
    exact word_congr fun x h1 h2 => hblocks x (by omega) (by omega)

/-- What an entry consists of: its structure, and the blocks of the file. -/
theorem EntryOf.congr (h : EntryOf v e file start) (hfields : ∀ o < 256, v' (e' + o) = v (e + o))
    (hblocks : ∀ x, diskmap + 4096 * start ≤ x →
      x < diskmap + 4096 * (start + width (blockCount file.data.length)) → v' x = v x) :
    EntryOf v' e' file start := by
  constructor
  · rw [← h.size]
    refine word_congr_shift fun i hi => ?_
    rw [fSize, fSize, add_assoc, add_assoc]
    exact hfields (128 + i) (by omega)
  · exact h.pointers.congr (fun o _ ho => hfields o (by omega)) hblocks
  · intro hlen i hi
    have hmax : i < 128 := Nat.lt_of_le_of_lt hi hlen
    rw [hfields i (by omega)]
    exact h.name hlen i hi
  · intro i hi
    have hwidth := le_width (blockCount file.data.length)
    rw [hblocks _ (by omega)]
    · exact h.content i hi
    · simp only [blockCount] at hwidth ⊢
      omega

/-- The blocks a file does not use keep what its structure had there. -/
theorem unused_lt {o : ℕ} (h : UnusedAt nb o) : 136 ≤ o ∧ o < 180 := by
  rcases h with h | h
  · omega
  · omega

end Congr

section Steps

variable {s s' : Format} {u : Unit} {nblocks c bytes f start len : ℕ}

theorem put_eq_some {g : ByteMem → ByteMem} :
    put g s = some (u, s') ↔ { s with mem := g s.mem } = s' :=
  modify_eq_some

theorem alloc_cases {r : ℕ} (hpos : s.diskpos = diskmap + 4096 * c) (hbytes : bytes < 2 ^ 31)
    (h : alloc nblocks bytes s = some (r, s')) :
    r = diskmap + 4096 * c ∧ c + blockCount bytes < nblocks ∧
      s' = { s with diskpos := diskmap + 4096 * (c + blockCount bytes) } := by
  simp only [alloc, bind_eq_some, get_eq_some, modify_eq_some, require_eq_some, pure_eq_some] at h
  obtain ⟨_, _, ⟨rfl, rfl⟩, _, _, rfl, _, _, ⟨hlt, rfl⟩, rfl, rfl⟩ := h
  rw [roundup_eq hbytes, hpos, add_assoc, ← mul_add, blockof_eq] at hlt
  refine ⟨hpos, hlt, ?_⟩
  rw [roundup_eq hbytes, hpos, add_assoc, ← mul_add]

/-- What `finishfile` leaves, for blocks that end where the next free block is. -/
structure Finished (nblocks f start len : ℕ) (s s' : Format) : Prop where
  n : s'.n = s.n
  pos : s'.diskpos = diskmap + 4096 * (start + width (blockCount len))
  lt : start + width (blockCount len) < nblocks
  size : s'.mem.word (fSize f) = BitVec.ofNat 32 len
  pointers : Pointers s'.mem f start (blockCount len)
  unused : ∀ o, UnusedAt (blockCount len) o → s'.mem (f + o) = s.mem (f + o)
  frame : ∀ x, x < f + 128 ∨ (f + 132 ≤ x ∧ x < f + 136) ∨ f + 180 ≤ x →
    x < s.diskpos ∨ s'.diskpos ≤ x → s'.mem x = s.mem x

/-- The entry after its size and its first `k` direct pointers are stored. -/
theorem putNumbers_head (f start k : ℕ) (v : ByteMem) (w : Word) :
    (putNumbers (fDirect f 0) start k (v.putWord (fSize f) w)).word (fSize f) = w ∧
    (∀ i < k, (putNumbers (fDirect f 0) start k (v.putWord (fSize f) w)).word (fDirect f i) =
      BitVec.ofNat 32 (start + i)) ∧
    ∀ x, x < f + 128 ∨ (f + 132 ≤ x ∧ x < f + 136) ∨ f + 136 + 4 * k ≤ x →
      putNumbers (fDirect f 0) start k (v.putWord (fSize f) w) x = v x := by
  refine ⟨?_, fun i hi => word_putNumbers hi, fun x hx => ?_⟩
  · rw [word_putNumbers_out (by simp only [fSize, fDirect]; omega), word_putWord_self]
  · rw [putNumbers_out (by simp only [fDirect]; omega), putWord,
      overwrite_out (by simp only [fSize]; omega)]

theorem finishfile_cases (hpos : s.diskpos = diskmap + 4096 * (start + blockCount len))
    (hlt : start + blockCount len < nblocks) (hlen : len < 2 ^ 31) (hf : f + 180 ≤ s.diskpos)
    (hmax : blockCount len ≤ ndirect + nindirect)
    (hclear : ∀ x, s.diskpos ≤ x → s.mem x = 0#8)
    (h : finishfile nblocks f start len s = some (u, s')) : Finished nblocks f start len s s' := by
  have hblocks : roundup len / blksize = blockCount len := by
    rw [roundup_eq hlen, blksize, Nat.mul_div_cancel_left _ (by omega)]
  simp only [finishfile, hblocks, bind_eq_some, put_eq_some] at h
  obtain ⟨_, s1, rfl, _, s2, rfl, h⟩ := h
  dsimp only at h
  generalize hnb : blockCount len = nb at *
  obtain ⟨hsize, hdirect, hout⟩ :=
    putNumbers_head f start (min nb ndirect) s.mem (BitVec.ofNat 32 len)
  generalize putNumbers (fDirect f 0) start (min nb ndirect) (s.mem.putWord (fSize f) _) = m at *
  simp only [ndirect, nindirect] at hmax
  rcases when_eq_some.mp h with ⟨hge, h⟩ | ⟨hlt', rfl⟩
  · -- the indirect block is the next one
    obtain ⟨ind, s3, halloc, h⟩ := bind_eq_some.mp h
    obtain ⟨rfl, hlt'', rfl⟩ := alloc_cases (c := start + nb) (by exact hpos)
      (show blksize < 2 ^ 31 by decide) halloc
    obtain ⟨_, _, rfl, rfl⟩ := h
    have hten : 10 ≤ nb := hge
    rw [Nat.min_eq_right hge] at hdirect hout
    have hone : blockCount blksize = 1 := by decide
    simp only [blockof_eq, hone]
    simp only [ndirect] at hdirect hout
    refine ⟨rfl, ?_, ?_, ?_, ?_, fun o ho => ?_, fun x hx hx' => ?_⟩
    · rw [hnb, width_of_le hge, add_assoc]
    · rw [hnb, width_of_le hge]
      omega
    · rw [word_putNumbers_out (by simp only [fSize]; omega),
        word_putWord (by simp only [fSize, fIndirect]; omega), hsize]
    · rw [hnb]
      refine ⟨fun i hi hi' => ?_, fun _ => ?_, fun _ i hi => ?_⟩
      · rw [word_putNumbers_out (by simp only [fDirect, ndirect] at *; omega),
          word_putWord (by simp only [fDirect, fIndirect, ndirect] at *; omega), hdirect i hi']
      · rw [word_putNumbers_out (by simp only [fIndirect]; omega), word_putWord_self]
      · split
        · next hi' => rw [word_putNumbers (by omega), Nat.add_assoc]
        · next hi' =>
          simp only [ndirect] at hi'
          rw [word_putNumbers_out (by simp only [ndirect]; omega),
            word_putWord (by simp only [fIndirect]; omega)]
          have hzero : ∀ y, s.diskpos ≤ y → m y = 0#8 :=
            fun y hy => (hout y (by omega)).trans (hclear y hy)
          rw [ByteMem.word, hzero _ (by omega), hzero _ (by omega), hzero _ (by omega),
            hzero _ (by omega)]
          decide
    · rcases ho with ho | ho
      · omega
      · omega
    · dsimp only at hx' ⊢
      rw [putNumbers_out (by simp only [ndirect]; omega), ByteMem.putWord,
        overwrite_out (by simp only [fIndirect]; omega), hout x (by omega)]
  · have hten : nb < ndirect := by omega
    have hten' : nb < 10 := hten
    rw [Nat.min_eq_left hten.le] at hdirect hout
    refine ⟨rfl, ?_, ?_, hsize, ?_, fun o ho => hout _ ?_, fun x hx _ => hout x (by omega)⟩
    · rw [hnb, width_of_lt hten]
      exact hpos
    · rw [hnb, width_of_lt hten]
      exact hlt
    · rw [hnb]
      exact ⟨fun i hi _ => hdirect i hi, fun hge => by omega, fun hge => by omega⟩
    · rcases ho with ho | ho
      · omega
      · omega

end Steps

/-! ### The files one after the other -/

/-- The blocks in use after some files. The first three are block 0, the superblock and the
    bitmap. -/
def used (files : List HostFile) : ℕ :=
  3 + (files.map fun file => width (blockCount file.data.length)).sum

/-- The first block of file `k`. -/
def startOf (files : List HostFile) (k : ℕ) : ℕ := used (files.take k)

/-- The base names leave the block pointers of their entries alone. -/
def ShortNames (files : List HostFile) : Prop :=
  ∀ file ∈ files, (baseName file.path).length < 136

/-- The superblock and the bitmap as `opendisk` leaves them. -/
structure Headed (nblocks : ℕ) (v : ByteMem) : Prop where
  magic : v.word (diskmap + blksize) = fsMagic
  nblocks : v.word sNblocks = BitVec.ofNat 32 nblocks
  rootType : v.word (fType sRoot) = ftypeDir
  rootBlank : ∀ o, 136 ≤ o → o < 180 → v (sRoot + o) = 0#8
  bits : ∀ x, diskmap + 8192 ≤ x → x < diskmap + 12288 → v x = 0xFF#8

/-- The formatter after some of the files. -/
structure Formatting (nblocks : ℕ) (junk : ByteMem) (files : List HostFile) (s : Format) :
    Prop where
  n : s.n = files.length
  le : files.length ≤ maxDirEnts
  pos : s.diskpos = diskmap + 4096 * used files
  lt : used files < nblocks
  headed : Headed nblocks s.mem
  entry : ∀ k file, files[k]? = some file →
    EntryOf s.mem (dirEnts + 256 * k) file (startOf files k)
  unused : ∀ k file, files[k]? = some file → ∀ o, UnusedAt (blockCount file.data.length) o →
    s.mem (dirEnts + 256 * k + o) = junk (dirEnts + 256 * k + o)
  rest : ∀ x, dirEnts + 256 * files.length ≤ x → x < diskmap → s.mem x = junk x
  clear : ∀ x, s.diskpos ≤ x → s.mem x = 0#8

section Formatting

variable {nblocks k : ℕ} {junk v v' : ByteMem} {files rest : List HostFile} {file : HostFile}
  {s s' : Format} {u : Unit}

theorem three_le_used (files : List HostFile) : 3 ≤ used files := Nat.le_add_right _ _

theorem used_append : used (files ++ rest) =
    used files + (rest.map fun file => width (blockCount file.data.length)).sum := by
  rw [used, used, List.map_append, List.sum_append, add_assoc]

theorem used_snoc : used (files ++ [file]) = used files + width (blockCount file.data.length) := by
  rw [used_append, List.map_singleton, List.sum_singleton]

theorem startOf_snoc (h : k ≤ files.length) : startOf (files ++ [file]) k = startOf files k := by
  rw [startOf, List.take_append_of_le_length h, startOf]

theorem startOf_length : startOf files files.length = used files := by
  rw [startOf, List.take_length]

theorem startOf_succ (h : files[k]? = some file) :
    startOf files (k + 1) = startOf files k + width (blockCount file.data.length) := by
  rw [startOf, List.take_add_one, h, Option.toList_some, used_snoc, startOf]

theorem startOf_mono {i j : ℕ} (h : i ≤ j) : startOf files i ≤ startOf files j := by
  have hsplit := List.take_append_drop i (files.take j)
  rw [List.take_take, Nat.min_eq_left h] at hsplit
  rw [startOf, startOf, ← hsplit, used_append]
  exact Nat.le_add_right _ _

theorem startOf_le (k : ℕ) : startOf files k ≤ used files := by
  rcases Nat.le_total k files.length with h | h
  · rw [← startOf_length]
    exact startOf_mono h
  · rw [startOf, List.take_of_length_le h]

theorem three_le_startOf (files : List HostFile) (k : ℕ) : 3 ≤ startOf files k := three_le_used _

theorem startOf_add_le (h : files[k]? = some file) :
    startOf files k + width (blockCount file.data.length) ≤ used files := by
  rw [← startOf_succ h]
  exact startOf_le _

theorem Headed.congr (h : Headed nblocks v)
    (hsame : ∀ x, diskmap + 4096 ≤ x → x < diskmap + 12288 → v' x = v x) : Headed nblocks v' := by
  have hword : ∀ o, o ≤ 4092 →
      v'.word (diskmap + blksize + o) = v.word (diskmap + blksize + o) := by
    intro o ho
    refine word_congr fun x h1 h2 => hsame x ?_ ?_
    · simp only [diskmap, blksize] at h1 ⊢
      omega
    · simp only [diskmap, blksize] at h2 ⊢
      omega
  constructor
  · rw [← h.magic]
    exact hword 0 (by omega)
  · rw [← h.nblocks]
    exact hword 4 (by omega)
  · rw [← h.rootType]
    exact hword 140 (by omega)
  · intro o h1 h2
    rw [hsame (sRoot + o) (by simp only [sRoot, diskmap, blksize]; omega)
      (by simp only [sRoot, diskmap, blksize]; omega)]
    exact h.rootBlank o h1 h2
  · intro x h1 h2
    rw [hsame x (by simp only [diskmap] at h1 ⊢; omega) h2]
    exact h.bits x h1 h2

theorem opendisk_formatting (hsize : nblocks ≤ 1024)
    (h : opendisk nblocks (formatStart junk) = some (u, s)) : Formatting nblocks junk [] s := by
  have hblk : blockCount blksize = 1 := by decide
  obtain ⟨_, s1, halloc, h⟩ := bind_eq_some.mp h
  obtain ⟨-, hlt, rfl⟩ := alloc_cases (c := 0) rfl (by decide) halloc
  obtain ⟨super, s2, halloc', h⟩ := bind_eq_some.mp h
  obtain ⟨rfl, -, rfl⟩ := alloc_cases (c := 1) rfl (by decide) halloc'
  simp only [bind_eq_some, put_eq_some] at h
  obtain ⟨_, _, rfl, _, _, rfl, _, _, rfl, _, _, rfl, bitmap, s3, halloc'', rfl⟩ := h
  have hbit : (nblocks + 32767) / 32768 = 1 := by omega
  rw [hbit] at halloc''
  obtain ⟨rfl, hlt', rfl⟩ := alloc_cases (c := 2) (by rw [hblk]) (by decide) halloc''
  have hused : 2 + blockCount (1 * blksize) = used [] := by decide
  have hsuper : diskmap + 4096 * 1 = diskmap + blksize := by decide
  rw [hused] at hlt' ⊢
  rw [hbit, hsuper]
  have hframe : ∀ x, x < diskmap + 4096 ∨ (sRoot + 136 ≤ x ∧ x < diskmap + 8192) ∨
    diskmap + 12288 ≤ x →
      ((putString (diskmap + blksize + 8) [0x2F#8]
        ((((formatStart junk).mem.putWord (diskmap + blksize)
        fsMagic).putWord (diskmap + blksize + 4) (BitVec.ofNat 32 nblocks)).putWord
          (fType (diskmap + blksize + 8)) ftypeDir)).overwrite (diskmap + 4096 * 2) (1 * blksize)
            fun _ => 0xFF#8) x = (formatStart junk).mem x := by
    intro x hx
    have hstr : ([0x2F#8] : List Byte).length = 1 := rfl
    simp only [sRoot, diskmap, blksize] at hx
    rw [overwrite_out (by simp only [diskmap, blksize]; omega),
      putString_out (by simp only [diskmap, blksize, hstr]; omega), putWord,
      overwrite_out (by simp only [fType, diskmap, blksize]; omega), putWord,
      overwrite_out (by simp only [diskmap, blksize]; omega), putWord,
      overwrite_out (by simp only [diskmap, blksize]; omega)]
  refine ⟨rfl, by decide, rfl, hlt', ⟨?_, ?_, ?_, ?_, ?_⟩, by simp, by simp, ?_, ?_⟩
  · rw [word_overwrite (by decide), putString, word_overwrite (by decide),
      word_putWord (by decide), word_putWord (by decide), word_putWord_self]
  · rw [word_overwrite (by decide), putString, word_overwrite (by decide),
      word_putWord (by decide), sNblocks, word_putWord_self]
  · rw [word_overwrite (by decide), putString, word_overwrite (by decide), sRoot, word_putWord_self]
  · intro o h1 h2
    refine (hframe (sRoot + o) ?_).trans (if_pos ?_)
    · simp only [sRoot, diskmap, blksize]
      omega
    · simp only [sRoot, diskmap, blksize]
      omega
  · intro x h1 h2
    dsimp only
    refine overwrite_in ?_ ?_
    · omega
    · simp only [diskmap, blksize] at h2 ⊢
      omega
  · intro x h1 h2
    refine (hframe x (.inl ?_)).trans (if_neg (by omega))
    simp only [diskmap] at h2 ⊢
    omega
  · intro x h1
    have hpos : diskmap + 4096 * used [] = diskmap + 12288 := by decide
    refine (hframe x (.inr (.inr h1))).trans (if_pos ?_)
    simp only [diskmap] at h1 ⊢
    omega

theorem diradd_cases {name : List Byte} {r : ℕ} (h : diradd name s = some (r, s')) :
    r = dirEnts + 256 * s.n ∧ s.n + 1 ≤ maxDirEnts ∧
      s' = { s with n := s.n + 1, mem := (putString r name s.mem).putWord (fType r) 0#32 } := by
  simp only [diradd, bind_eq_some, get_eq_some, modify_eq_some, require_eq_some,
    pure_eq_some, put_eq_some] at h
  obtain ⟨_, _, ⟨rfl, rfl⟩, _, _, rfl, _, _, ⟨rfl, rfl⟩, _, _, ⟨hle, rfl⟩, _, _, rfl, _, _, rfl,
    rfl, rfl⟩ := h
  exact ⟨rfl, hle, rfl⟩

theorem snoc_getElem? {g : HostFile} (hk : files.length ≤ k) (h : (files ++ [file])[k]? = some g) :
    k = files.length ∧ file = g := by
  obtain ⟨hlt, hget⟩ := List.getElem?_eq_some_iff.mp h
  obtain rfl : k = files.length := by
    rw [List.length_append, List.length_singleton] at hlt
    omega
  rw [← hget, List.getElem_append_right le_rfl]
  simp

/-- A file's entry and blocks come after those of the files before it. -/
theorem Formatting.snoc (h : Formatting nblocks junk files s) {f : ℕ}
    (hf : f = dirEnts + 256 * files.length) (hn : s'.n = s.n + 1)
    (hle : files.length + 1 ≤ maxDirEnts)
    (hpos : s'.diskpos = diskmap + 4096 * used (files ++ [file]))
    (hlt : used (files ++ [file]) < nblocks)
    (hframe : ∀ x, x < f ∨ f + 180 ≤ x → x < s.diskpos ∨ s'.diskpos ≤ x → s'.mem x = s.mem x)
    (hentry : EntryOf s'.mem f file (used files))
    (hunused : ∀ o, UnusedAt (blockCount file.data.length) o → s'.mem (f + o) = s.mem (f + o)) :
    Formatting nblocks junk (files ++ [file]) s' := by
  have hlow : f + 256 ≤ diskmap := by
    simp only [hf, maxDirEnts, dirEnts, diskmap] at hle ⊢
    omega
  have hpos' := h.pos
  have hused := three_le_used files
  have hmore : used (files ++ [file]) = used files + _ := used_snoc
  have hlen : (files ++ [file]).length = files.length + 1 := by simp
  -- the entries before the new one
  have hold : ∀ k g, files[k]? = some g → ∀ o < 256,
      s'.mem (dirEnts + 256 * k + o) = s.mem (dirEnts + 256 * k + o) := by
    intro k g hk o ho
    obtain ⟨hk', -⟩ := List.getElem?_eq_some_iff.mp hk
    exact hframe _ (by omega) (by omega)
  refine ⟨?_, by rwa [hlen], hpos, hlt,
    h.headed.congr fun x h1 h2 => hframe x (by omega) (by omega), ?_, ?_, ?_, ?_⟩
  · rw [hn, hlen, h.n]
  · intro k g hk
    rcases Nat.lt_or_ge k files.length with hk' | hk'
    · rw [List.getElem?_append_left hk'] at hk
      rw [startOf_snoc (by omega)]
      have hblocks := startOf_add_le hk
      exact (h.entry k g hk).congr (hold k g hk) fun x h1 h2 => hframe x (by omega) (by omega)
    · obtain ⟨rfl, rfl⟩ := snoc_getElem? hk' hk
      rwa [startOf_snoc le_rfl, startOf_length, ← hf]
  · intro k g hk o ho
    have ho' := unused_lt ho
    rcases Nat.lt_or_ge k files.length with hk' | hk'
    · rw [List.getElem?_append_left hk'] at hk
      rw [hold k g hk o (by omega)]
      exact h.unused k g hk o ho
    · obtain ⟨rfl, rfl⟩ := snoc_getElem? hk' hk
      rw [← hf, hunused o ho]
      exact h.rest (f + o) (by omega) (by omega)
  · intro x h1 h2
    rw [hframe x (by omega) (by omega)]
    exact h.rest x (by omega) h2
  · intro x hx
    rw [hframe x (by omega) (.inr hx)]
    exact h.clear x (by omega)

theorem Formatting.writefile (h : Formatting nblocks junk files s)
    (hname : (baseName file.path).length < 136) (hw : writefile nblocks file s = some (u, s')) :
    Formatting nblocks junk (files ++ [file]) s' := by
  obtain ⟨_, _, hreq, hw⟩ := bind_eq_some.mp hw
  obtain ⟨hmax, rfl⟩ := require_eq_some.mp hreq
  obtain ⟨f, s1, hadd, hw⟩ := bind_eq_some.mp hw
  obtain ⟨hf, hle, rfl⟩ := diradd_cases hadd
  obtain ⟨start, s2, halloc, hw⟩ := bind_eq_some.mp hw
  have hlen : file.data.length < 2 ^ 31 := lt_of_lt_of_le hmax (by decide)
  obtain ⟨rfl, hlt, rfl⟩ := alloc_cases (c := used files) (by exact h.pos) hlen halloc
  obtain ⟨_, s3, hput, hw⟩ := bind_eq_some.mp hw
  obtain rfl := put_eq_some.mp hput
  rw [blockof_eq] at hw
  rw [h.n] at hf hle
  simp only [maxDirEnts] at hle
  have hlow : f + 256 ≤ diskmap := by
    rw [hf]
    simp only [dirEnts, diskmap]
    omega
  have hpos := h.pos
  have hbytes : file.data.length ≤ 4096 * blockCount file.data.length := by
    simp only [blockCount]
    omega
  -- the entry has its name and its type, and the blocks their contents
  generalize hmem : ((putString f (baseName file.path) s.mem).putWord (fType f) 0#32).overwrite
    (diskmap + 4096 * used files) file.data.length
    (fun x => file.data.getD (x - (diskmap + 4096 * used files)) 0#8) = mem at hw
  have hsame : ∀ x, x < f ∨ f + 136 ≤ x → x < s.diskpos ∨ s.diskpos + file.data.length ≤ x →
      mem x = s.mem x := by
    intro x h1 h2
    rw [← hmem, overwrite_out (by omega), putWord,
      overwrite_out (by simp only [fType]; omega), putString_out (by omega)]
  have hfin := finishfile_cases rfl hlt hlen (by dsimp only; omega)
    (by simp only [blockCount, maxfilesize, ndirect, nindirect, blksize] at hmax ⊢; omega)
    (fun x hx => by
      dsimp only at hx ⊢
      rw [hsame x (by omega) (by omega)]
      exact h.clear x (by omega)) hw
  have hframe : ∀ x, x < f ∨ f + 180 ≤ x → x < s.diskpos ∨ s'.diskpos ≤ x → s'.mem x = s.mem x := by
    intro x h1 h2
    have hend := hfin.pos
    have hwidth := le_width (blockCount file.data.length)
    rw [hfin.frame x (by omega) (by dsimp only; omega)]
    exact hsame x (by omega) (by omega)
  refine h.snoc hf hfin.n (by simpa only [maxDirEnts] using hle) (by rw [hfin.pos, used_snoc])
    (by rw [used_snoc]; exact hfin.lt) hframe
    ⟨hfin.size, hfin.pointers, fun hshort i hi => ?_, fun i hi => ?_⟩ fun o ho => ?_
  · simp only [maxnamelen] at hshort
    rw [hfin.frame (f + i) (by omega) (by dsimp only; omega)]
    dsimp only
    rw [← hmem, overwrite_out (by omega), putWord,
      overwrite_out (by simp only [fType]; omega), putString,
      overwrite_in (by omega) (by omega), Nat.add_sub_cancel_left]
  · rw [hfin.frame _ (by omega) (by dsimp only; omega)]
    dsimp only
    rw [← hmem, overwrite_in (by omega) (by omega), Nat.add_sub_cancel_left]
  · have ho' := unused_lt ho
    rw [hfin.unused o ho]
    exact hsame (f + o) (by omega) (by omega)

theorem Formatting.writefiles (h : Formatting nblocks junk files s) (hnames : ShortNames rest)
    (hw : writefiles nblocks rest s = some (u, s')) :
    Formatting nblocks junk (files ++ rest) s' := by
  induction rest generalizing files s with
  | nil =>
    cases hw
    rwa [List.append_nil]
  | cons file rest ih =>
    obtain ⟨_, t, hfile, hw⟩ := bind_eq_some.mp hw
    have hstep := h.writefile (hnames file (by simp)) hfile
    have hrest := ih hstep (fun g hg => hnames g (List.mem_cons_of_mem _ hg)) hw
    rwa [List.append_assoc, List.singleton_append] at hrest

end Formatting

/-! ### The image -/

/-- The blocks of the directory. -/
def rootBlocks (files : List HostFile) : ℕ := blockCount (files.length * 256)

/-- The address of entry `k` in the directory. -/
def entryAddr (files : List HostFile) (k : ℕ) : ℕ := diskmap + 4096 * used files + 256 * k

/-- The superblock, the files and the directory, whose blocks come after those of the files. -/
structure Laid (nblocks : ℕ) (junk : ByteMem) (files : List HostFile) (v : ByteMem) : Prop where
  le : files.length ≤ maxDirEnts
  lt : used files + rootBlocks files < nblocks
  magic : v.word (diskmap + blksize) = fsMagic
  count : v.word sNblocks = BitVec.ofNat 32 nblocks
  rootType : v.word (fType sRoot) = ftypeDir
  rootSize : v.word (fSize sRoot) = BitVec.ofNat 32 (4096 * rootBlocks files)
  root : Pointers v sRoot (used files) (rootBlocks files)
  rootUnused : ∀ o, UnusedAt (rootBlocks files) o → v (sRoot + o) = 0#8
  entry : ∀ k file, files[k]? = some file → EntryOf v (entryAddr files k) file (startOf files k)
  unused : ∀ k file, files[k]? = some file → ∀ o, UnusedAt (blockCount file.data.length) o →
    v (entryAddr files k + o) = junk (dirEnts + 256 * k + o)
  spare : ∀ x, entryAddr files files.length ≤ x → v x = 0#8

/-- An image of some files: the blocks before those that are free are in use. -/
structure Formatted (nblocks : ℕ) (junk : ByteMem) (files : List HostFile) (v : ByteMem) : Prop
    extends Laid nblocks junk files v where
  free : ∀ b : Word, IsFree v b ↔ b.toNat < nblocks ∧ used files + rootBlocks files ≤ b.toNat

section Formatted

variable {nblocks k : ℕ} {junk v v' : ByteMem} {files : List HostFile} {file : HostFile}
  {s s' : Format} {u : Unit}

theorem rootBlocks_le (h : files.length ≤ maxDirEnts) : rootBlocks files ≤ 8 := by
  simp only [maxDirEnts] at h
  simp only [rootBlocks, blockCount]
  omega

theorem Laid.congr (h : Laid nblocks junk files v)
    (hsame : ∀ x, x < diskmap + 8192 ∨ diskmap + 12288 ≤ x → v' x = v x) :
    Laid nblocks junk files v' := by
  have hlow : ∀ o, o ≤ 4092 → v'.word (diskmap + blksize + o) = v.word (diskmap + blksize + o) := by
    intro o ho
    refine word_congr fun x h1 h2 => hsame x (.inl ?_)
    simp only [diskmap, blksize] at h2 ⊢
    omega
  have hroot : ∀ o < 256, v' (sRoot + o) = v (sRoot + o) := by
    intro o ho
    refine hsame _ (.inl ?_)
    simp only [sRoot, diskmap, blksize]
    omega
  have hhigh : ∀ b x, 3 ≤ b → diskmap + 4096 * b ≤ x → v' x = v x := by
    intro b x hb hx
    refine hsame _ (.inr ?_)
    omega
  have hentry : ∀ k o, v' (entryAddr files k + o) = v (entryAddr files k + o) := by
    intro k o
    refine hhigh (used files) _ (three_le_used _) ?_
    rw [entryAddr]
    omega
  exact
    { le := h.le
      lt := h.lt
      magic := (hlow 0 (by omega)).trans h.magic
      count := (hlow 4 (by omega)).trans h.count
      rootType := (hlow 140 (by omega)).trans h.rootType
      rootSize := (hlow 136 (by omega)).trans h.rootSize
      root := h.root.congr (fun o _ ho => hroot o (by omega)) fun x hx _ =>
      hhigh _ x (three_le_used _) hx
      rootUnused := fun o ho => (hroot o (by have := unused_lt ho; omega)).trans (h.rootUnused o ho)
      entry := fun k file hk => (h.entry k file hk).congr (fun o _ => hentry k o) fun x hx _ =>
        hhigh _ x (three_le_startOf _ _) hx
      unused := fun k file hk o ho => (hentry k o).trans (h.unused k file hk o ho)
      spare := fun x hx =>
      (hhigh (used files) x (three_le_used _) (by rw [entryAddr] at hx; omega)).trans
        (h.spare x hx) }

/-- The image, when the directory has been copied to its end and the root entry points to it. -/
theorem Formatting.laid (h : Formatting nblocks junk files s)
    (hlt : used files + rootBlocks files < nblocks)
    (hsize : v.word (fSize sRoot) = BitVec.ofNat 32 (4096 * rootBlocks files))
    (hroot : Pointers v sRoot (used files) (rootBlocks files))
    (hunused : ∀ o, UnusedAt (rootBlocks files) o → v (sRoot + o) = s.mem (sRoot + o))
    (hlow : ∀ x, x < sRoot + 128 ∨ (sRoot + 132 ≤ x ∧ x < sRoot + 136) ∨ sRoot + 180 ≤ x →
      x < s.diskpos → v x = s.mem x)
    (hentry : ∀ k < files.length, ∀ o < 256,
      v (entryAddr files k + o) = s.mem (dirEnts + 256 * k + o))
    (hspare : ∀ x, entryAddr files files.length ≤ x → v x = 0#8) : Laid nblocks junk files v := by
  have hused := three_le_used files
  have hpos := h.pos
  have hword : ∀ o, o ≤ 4 →
      v.word (diskmap + blksize + o) = s.mem.word (diskmap + blksize + o) := by
    intro o ho
    refine word_congr fun x h1 h2 => hlow x (.inl ?_) ?_
    · simp only [sRoot, diskmap, blksize] at h2 ⊢
      omega
    · simp only [diskmap, blksize] at h2 hpos
      omega
  refine ⟨h.le, hlt, (hword 0 (by omega)).trans h.headed.magic,
    (hword 4 le_rfl).trans h.headed.nblocks,
    ?_, hsize, hroot, fun o ho => ?_, fun k file hk => ?_, fun k file hk o ho => ?_, hspare⟩
  · rw [← h.headed.rootType]
    refine word_congr fun x h1 h2 => hlow x (.inr (.inl ?_)) ?_
    · simp only [fType] at h1 h2
      omega
    · simp only [fType, sRoot, diskmap, blksize] at h2 hpos
      omega
  · have ho' := unused_lt ho
    rw [hunused o ho]
    exact h.headed.rootBlank o ho'.1 ho'.2
  · obtain ⟨hk', -⟩ := List.getElem?_eq_some_iff.mp hk
    have hstart := three_le_startOf files k
    have hstop := startOf_add_le hk
    refine (h.entry k file hk).congr (hentry k hk') fun x h1 h2 => hlow x (.inr (.inr ?_)) ?_
    · simp only [sRoot, diskmap, blksize] at h1 ⊢
      omega
    · omega
  · obtain ⟨hk', -⟩ := List.getElem?_eq_some_iff.mp hk
    rw [hentry k hk' o (by have := unused_lt ho; omega)]
    exact h.unused k file hk o ho

theorem Formatting.finishdir (h : Formatting nblocks junk files s) (hsome : files ≠ [])
    (hw : finishdir nblocks s = some (u, s')) :
    s'.diskpos = diskmap + 4096 * (used files + rootBlocks files) ∧ Laid nblocks junk files s'.mem ∧
      ∀ x, diskmap + 8192 ≤ x → x < diskmap + 12288 → s'.mem x = 0xFF#8 := by
  obtain ⟨_, _, hget, hw⟩ := bind_eq_some.mp hw
  cases hget
  rw [h.n, bind_eq_some] at hw
  obtain ⟨start, s1, halloc, hw⟩ := hw
  have hle : files.length ≤ 128 := h.le
  have hone := List.length_pos_iff.mpr hsome
  have hblocks := rootBlocks_le h.le
  have hused := three_le_used files
  have hpos := h.pos
  obtain ⟨rfl, hlt, rfl⟩ := alloc_cases (c := used files) h.pos (by omega) halloc
  obtain ⟨_, s2, hput, hw⟩ := bind_eq_some.mp hw
  obtain rfl := put_eq_some.mp hput
  have hlen : (roundupInt (files.length * 256 : ℕ)).toNat = 4096 * rootBlocks files :=
    roundupInt_eq (by omega)
  have hwhole : blockCount (4096 * rootBlocks files) = rootBlocks files := by
    simp only [blockCount]
    omega
  have hsize : files.length * 256 ≤ 4096 * rootBlocks files := by
    simp only [rootBlocks, blockCount]
    omega
  rw [blockof_eq, hlen] at hw
  -- the entries have been copied into the image
  generalize hmem : s.mem.overwrite (diskmap + 4096 * used files) (files.length * 256)
    (fun x => s.mem (dirEnts + (x - (diskmap + 4096 * used files)))) = mem at hw
  have hcopy : ∀ k < files.length, ∀ o < 256,
      mem (entryAddr files k + o) = s.mem (dirEnts + 256 * k + o) := by
    intro k hk o ho
    rw [← hmem, entryAddr, overwrite_in (by omega) (by omega)]
    congr 1
    omega
  have hsame : ∀ x, x < s.diskpos ∨ entryAddr files files.length ≤ x → mem x = s.mem x := by
    intro x hx
    rw [entryAddr] at hx
    rw [← hmem]
    exact overwrite_out (by omega)
  have hroot : sRoot + 256 ≤ diskmap + 4096 * used files := by
    simp only [sRoot, diskmap, blksize]
    omega
  have hten : rootBlocks files < ndirect := Nat.lt_of_le_of_lt hblocks (by decide)
  have hfin := finishfile_cases (by rw [hwhole]; rfl) (by rw [hwhole]; exact hlt) (by omega)
    (by dsimp only; omega) (by rw [hwhole]; omega)
    (fun x hx => by
      dsimp only at hx ⊢
      rw [hsame x (.inr (by rw [entryAddr]; simp only [rootBlocks] at hsize; omega))]
      exact h.clear x (by omega)) hw
  have hend := hfin.pos
  rw [hwhole, width_of_lt hten] at hend
  have hframe : ∀ x, x < sRoot + 128 ∨ (sRoot + 132 ≤ x ∧ x < sRoot + 136) ∨ sRoot + 180 ≤ x →
      s'.mem x = mem x := by
    intro x hx
    refine hfin.frame x hx ?_
    rw [hend]
    exact Nat.lt_or_ge _ _
  have hentry : ∀ k < files.length, ∀ o < 256,
      s'.mem (entryAddr files k + o) = s.mem (dirEnts + 256 * k + o) := by
    intro k hk o ho
    rw [hframe _ (by rw [entryAddr]; omega)]
    exact hcopy k hk o ho
  have hlow : ∀ x, x < sRoot + 128 ∨ (sRoot + 132 ≤ x ∧ x < sRoot + 136) ∨ sRoot + 180 ≤ x →
      x < s.diskpos → s'.mem x = s.mem x := fun x hx hx' => (hframe x hx).trans (hsame x (.inl hx'))
  refine ⟨hend, h.laid hlt hfin.size (by rw [← hwhole]; exact hfin.pointers) (fun o ho => ?_) hlow
    hentry fun x hx => ?_, fun x h1 h2 => ?_⟩
  · have ho' := unused_lt ho
    rw [← hwhole] at ho
    rw [hfin.unused o ho]
    exact hsame _ (.inl (by omega))
  · rw [hframe x (by rw [entryAddr] at hx; omega), hsame x (.inr hx)]
    exact h.clear x (by rw [entryAddr] at hx; omega)
  · rw [hlow x (.inr (.inr ?_)) ?_]
    · exact h.headed.bits x h1 h2
    · simp only [sRoot, diskmap, blksize] at h1 ⊢
      omega
    · omega

theorem isFree_of_ones (hn : nblocks ≤ 1024) (hcount : v.word sNblocks = BitVec.ofNat 32 nblocks)
    (hbits : ∀ x, diskmap + 8192 ≤ x → x < diskmap + 12288 → v x = 0xFF#8) (b : Word) :
    IsFree v b ↔ b.toNat < nblocks := by
  rw [IsFree, hcount, BitVec.lt_def, BitVec.toNat_ofNat, Nat.mod_eq_of_lt (by omega)]
  refine ⟨fun h => h.1, fun h => ⟨h, ?_⟩⟩
  have hword : v.word (bitmapAddr b) = 0xFFFFFFFF#32 := by
    have hbyte : ∀ o < 4, v (bitmapAddr b + o) = 0xFF#8 := by
      intro o ho
      refine hbits _ ?_ ?_
      · simp only [bitmapAddr, diskmap, blksize]
        omega
      · simp only [bitmapAddr, diskmap, blksize]
        omega
    rw [ByteMem.word, hbyte 1 (by omega), hbyte 2 (by omega), hbyte 3 (by omega),
      show v (bitmapAddr b) = 0xFF#8 from hbyte 0 (by omega)]
    rfl
  rw [hword, bitmapBit, has_bit (by omega)]
  rw [show 0xFFFFFFFF#32 = BitVec.allOnes 32 from rfl, BitVec.getLsbD_allOnes]
  simp only [decide_eq_true_eq]
  omega

/-- **The image of `fsformat`** for at least one file. -/
theorem format_formatted (hnames : ShortNames files) (hsome : files ≠ [])
    (h : format nblocks files junk = some v) : Formatted nblocks junk files v := by
  rw [format, Option.map_eq_some_iff] at h
  obtain ⟨⟨u, t⟩, h, rfl⟩ := h
  simp only [formatDisk, bind_eq_some, require_eq_some] at h
  obtain ⟨_, _, ⟨hsize, rfl⟩, _, s1, hopen, _, s2, hfiles, _, s3, hdir, hdisk⟩ := h
  have hdone := (opendisk_formatting hsize.2 hopen).writefiles hnames hfiles
  obtain ⟨hpos, hlaid, hones⟩ := hdone.finishdir hsome hdir
  obtain ⟨_, _, hget, hdisk⟩ := bind_eq_some.mp hdisk
  cases hget
  obtain rfl := put_eq_some.mp hdisk
  rw [List.nil_append] at hpos hlaid
  rw [hpos, blockof_eq]
  have hlt := hlaid.lt
  refine ⟨hlaid.congr fun x hx => clearBits_out hx (by omega), fun b => ?_⟩
  rw [isFree_clearBits (by omega), isFree_of_ones hsize.2 hlaid.count hones]

theorem format_le (h : format nblocks files junk = some v) : nblocks ≤ 1024 := by
  rw [format, Option.map_eq_some_iff] at h
  obtain ⟨⟨u, t⟩, h, rfl⟩ := h
  simp only [formatDisk, bind_eq_some, require_eq_some] at h
  obtain ⟨_, _, ⟨hsize, rfl⟩, _⟩ := h
  exact hsize.2

end Formatted

end LinuxStudy.Fs
