import LinuxStudy.Fs.Format

/-!
# Block ownership in a fresh image

`fsformat` hands out blocks in order, so the blocks of two files are apart. What it does not
do is to clear the entries of the directory: a block pointer that a file does not use is what
`malloc` left there. And a directory without entries gets a block that was not allocated.
-/

namespace LinuxStudy.Fs

open Jos

/-- The root, and every entry in a block of it. -/
def rootFiles (v : ByteMem) : Set ℕ :=
  {f | f = sRoot ∨ ∃ n j, n < ndirect + nindirect ∧ j < blkfiles ∧
    target v sRoot (.data n) ≠ 0#32 ∧ f = blkaddr (target v sRoot (.data n)) + 256 * j}

section Pointers

variable {v : ByteMem} {f start nb n : ℕ}

/-- The pointers a file does not use are zero. -/
def Blank (v : ByteMem) (f nb : ℕ) : Prop := ∀ o, UnusedAt nb o → v (f + o) = 0#8

theorem Blank.word {o : ℕ} (h : Blank v f nb) (ho : ∀ i < 4, UnusedAt nb (o + i)) :
    v.word (f + o) = 0#32 := by
  have hbyte : ∀ i < 4, v (f + o + i) = 0#8 := fun i hi => by
    rw [Nat.add_assoc]
    exact h _ (ho i hi)
  rw [ByteMem.word, hbyte 1 (by omega), hbyte 2 (by omega), hbyte 3 (by omega),
    show v (f + o) = 0#8 from hbyte 0 (by omega)]
  rfl

theorem Pointers.target_indirect (h : Pointers v f start nb) (hblank : Blank v f nb) :
    target v f .indirect = if ndirect ≤ nb then BitVec.ofNat 32 (start + nb) else 0#32 := by
  split
  · next hge => exact h.indirect hge
  · next hlt =>
    exact hblank.word fun i hi => .inr ⟨by omega, by omega, by omega⟩

theorem Pointers.target_data (h : Pointers v f start nb) (hblank : Blank v f nb)
    (hstart : 0 < start)
    (hlt : start + nb < 1024) (hn : n < ndirect + nindirect) :
    target v f (.data n) = if n < nb then BitVec.ofNat 32 (start + n) else 0#32 := by
  split
  · next hnb => exact h.target_of_lt hstart hlt hnb
  · next hnb =>
    by_cases hten : n < ndirect
    · rw [target, if_pos hten, fDirect, Nat.add_assoc]
      simp only [ndirect] at hten
      exact hblank.word fun i hi => .inl ⟨by omega, by omega⟩
    · by_cases hge : ndirect ≤ nb
      · rw [h.target_far hstart hlt hge hten hn, if_neg hnb]
      · have hind := h.target_indirect hblank
        rw [if_neg hge] at hind
        rw [target, if_neg hten]
        exact if_pos hind

/-- Where the block of a pointer is among the blocks of its file. -/
def Ptr.offset (nb : ℕ) : Ptr → ℕ
  | .data n => n
  | .indirect => nb

/-- A pointer that a file of `nb` blocks uses. -/
def Ptr.Used (nb : ℕ) : Ptr → Prop
  | .data n => n < nb
  | .indirect => ndirect ≤ nb

theorem Pointers.target_cases {p : Ptr} (h : Pointers v f start nb) (hblank : Blank v f nb)
    (hstart : 0 < start)
    (hlt : start + nb < 1024) (hp : p.Valid) (hne : target v f p ≠ 0#32) :
    target v f p = BitVec.ofNat 32 (start + p.offset nb) ∧ p.offset nb < width nb ∧ p.Used nb := by
  cases p with
  | data n =>
    rw [h.target_data hblank hstart hlt hp] at hne ⊢
    have hn : n < nb := by
      by_contra hno
      exact hne (if_neg hno)
    exact ⟨if_pos hn, Nat.lt_of_lt_of_le hn (le_width nb), hn⟩
  | indirect =>
    rw [h.target_indirect hblank] at hne ⊢
    have hge : ndirect ≤ nb := by
      by_contra hno
      exact hne (if_neg hno)
    refine ⟨if_pos hge, ?_, hge⟩
    rw [width_of_le hge]
    exact Nat.lt_succ_self nb

theorem Ptr.eq_of_offset {p q : Ptr} (hp : p.Used nb) (hq : q.Used nb)
    (h : p.offset nb = q.offset nb) : p = q := by
  cases p with
  | data n =>
    cases q with
    | data m => exact congrArg Ptr.data h
    | indirect => exact absurd h (Nat.ne_of_lt hp)
  | indirect =>
    cases q with
    | data m => exact absurd h.symm (Nat.ne_of_lt hq)
    | indirect => rfl

/-- A pointer that is not used and not zero. -/
theorem exists_unused {nb o : ℕ} (ho : UnusedAt nb o) (hne : v (f + o) ≠ 0#8) :
    ∃ p : Ptr, p.Valid ∧ target v f p ≠ 0#32 ∧ ¬ p.Used nb := by
  have hword : ∀ a, a ≤ f + o → f + o < a + 4 → v.word a ≠ 0#32 := fun a h1 h2 hzero => by
    have hsame : v.word a = ByteMem.word (fun _ => 0#8) a := hzero.trans (by rw [ByteMem.word]; rfl)
    exact hne (ByteMem.byte_of_word hsame h1 h2)
  rcases ho with ⟨hlo, hhi⟩ | ⟨hten, hlo, hhi⟩
  · refine ⟨.data ((o - 136) / 4), ?_, ?_, ?_⟩
    · show (o - 136) / 4 < ndirect + nindirect
      simp only [ndirect]
      omega
    · rw [target, if_pos (by simp only [ndirect]; omega)]
      exact hword _ (by rw [fDirect]; omega) (by rw [fDirect]; omega)
    · show ¬ (o - 136) / 4 < nb
      omega
  · exact ⟨.indirect, trivial, hword _ (by rw [fIndirect]; omega) (by rw [fIndirect]; omega),
      Nat.not_le.mpr hten⟩

end Pointers

/-! ### The files of an image -/

/-- The address of file `i`; the root counts as the last one. -/
def fileAddr (files : List HostFile) (i : ℕ) : ℕ :=
  if i = files.length then sRoot else entryAddr files i

/-- The number of blocks of file `i`. -/
def blocksOf (files : List HostFile) (i : ℕ) : ℕ :=
  match files[i]? with
  | some file => blockCount file.data.length
  | none => rootBlocks files

/-- The block pointers that the files do not use are zero in the memory that `malloc` returned. -/
def ZeroPointers (files : List HostFile) (junk : ByteMem) : Prop :=
  ∀ k file, files[k]? = some file → ∀ o, UnusedAt (blockCount file.data.length) o →
    junk (dirEnts + 256 * k + o) = 0#8

section Image

variable {nblocks i j : ℕ} {junk v : ByteMem} {files : List HostFile} {f : ℕ}

theorem blocksOf_length : blocksOf files files.length = rootBlocks files := by
  rw [blocksOf, List.getElem?_eq_none le_rfl]

theorem startOf_apart (files : List HostFile) (hij : i < j) (hj : j ≤ files.length) :
    startOf files i + width (blocksOf files i) ≤ startOf files j := by
  have hi : files[i]? = some (files.get ⟨i, by omega⟩) := List.getElem?_eq_getElem (by omega)
  rw [blocksOf, hi, ← startOf_succ hi]
  exact startOf_mono hij

section

variable (h : Formatted nblocks junk files v)
include h

theorem Formatted.stop_le (hi : i ≤ files.length) :
    startOf files i + width (blocksOf files i) ≤ used files + rootBlocks files := by
  rcases Nat.lt_or_eq_of_le hi with hlt | rfl
  · have hle := startOf_apart files hlt le_rfl
    rw [startOf_length] at hle
    omega
  · rw [startOf_length, blocksOf_length, width_of_lt]
    exact Nat.lt_of_le_of_lt (rootBlocks_le h.le) (by decide)

/-- A block of the directory has 16 entries. -/
theorem Formatted.root_entry (hn : nblocks ≤ 1024) {n : ℕ} (hoff : n < rootBlocks files) :
    target v sRoot (.data n) ≠ 0#32 ∧
    blkaddr (target v sRoot (.data n)) + 256 * j = entryAddr files (16 * n + j) := by
  have hlt := h.lt
  have hused := three_le_used files
  rw [h.root.target_of_lt (by omega) (by omega) hoff, blkaddr_ofNat (by omega), entryAddr]
  exact ⟨ofNat_ne_zero (by omega) (by omega), by omega⟩

theorem Formatted.pointers (hi : i ≤ files.length) :
    Pointers v (fileAddr files i) (startOf files i) (blocksOf files i) := by
  rcases Nat.lt_or_eq_of_le hi with hlt | rfl
  · have hget : files[i]? = some (files.get ⟨i, hlt⟩) := List.getElem?_eq_getElem hlt
    rw [fileAddr, if_neg (by omega), blocksOf, hget]
    exact (h.entry _ _ hget).pointers
  · rw [fileAddr, if_pos rfl, startOf_length, blocksOf_length]
    exact h.root

/-- A file of the image: one of those that were laid out, or an entry without pointers. -/
theorem Formatted.owner (hn : nblocks ≤ 1024)
    (hzero : ZeroPointers files junk) (hf : f ∈ rootFiles v) :
    (∃ i ≤ files.length, f = fileAddr files i ∧ Blank v f (blocksOf files i)) ∨
    (Pointers v f 1 0 ∧ Blank v f 0) := by
  have hlt := h.lt
  have hused := three_le_used files
  rcases hf with rfl | ⟨n, j, hn', hj, hne, rfl⟩
  · refine .inl ⟨files.length, le_rfl, (if_pos rfl).symm, ?_⟩
    rw [blocksOf_length]
    exact h.rootUnused
  · obtain ⟨-, -, hoff⟩ :=
      h.root.target_cases (p := .data n) h.rootUnused (by omega) (by omega) hn' hne
    rw [(h.root_entry hn hoff).2]
    rcases Nat.lt_or_ge (16 * n + j) files.length with hk | hk
    · have hget : files[16 * n + j]? = some (files.get ⟨16 * n + j, hk⟩) :=
        List.getElem?_eq_getElem hk
      refine .inl ⟨16 * n + j, by omega, (if_neg (by omega)).symm, fun o ho => ?_⟩
      rw [blocksOf, hget] at ho
      rw [h.unused _ _ hget o ho]
      exact hzero _ _ hget o ho
    · refine .inr
        ⟨⟨by simp, fun hge => absurd hge (by decide), fun hge => absurd hge (by decide)⟩,
          fun o _ => ?_⟩
      refine h.spare _ ?_
      rw [entryAddr, entryAddr]
      omega

theorem Formatted.inj (hn : nblocks ≤ 1024)
    (hzero : ZeroPointers files junk) {g : ℕ} {p q : Ptr} (hf : f ∈ rootFiles v)
    (hg : g ∈ rootFiles v)
    (hp : p.Valid) (hq : q.Valid) (hne : target v f p ≠ 0#32) (heq : target v f p = target v g q) :
    f = g ∧ p = q := by
  have hlt := h.lt
  have hne' : target v g q ≠ 0#32 := heq ▸ hne
  rcases h.owner hn hzero hf with ⟨i, hi, rfl, hblank⟩ | ⟨hptr, hblank⟩
  · rcases h.owner hn hzero hg with ⟨j, hj, rfl, hblank'⟩ | ⟨hptr', hblank'⟩
    · have hstop := h.stop_le hi
      have hstop' := h.stop_le hj
      have hwidth := le_width (blocksOf files i)
      have hwidth' := le_width (blocksOf files j)
      have hstart := three_le_startOf files i
      have hstart' := three_le_startOf files j
      obtain ⟨ht, hoff, hcase⟩ := (h.pointers hi).target_cases hblank (by omega) (by omega) hp hne
      obtain ⟨ht', hoff', hcase'⟩ :=
        (h.pointers hj).target_cases hblank' (by omega) (by omega) hq hne'
      -- equal block numbers lie in the blocks of one file only
      have hsum : startOf files i + p.offset (blocksOf files i) =
          startOf files j + q.offset (blocksOf files j) := by
        have hnat := congrArg BitVec.toNat (ht.symm.trans (heq.trans ht'))
        rw [BitVec.toNat_ofNat, BitVec.toNat_ofNat] at hnat
        omega
      obtain rfl : i = j := by
        rcases Nat.lt_trichotomy i j with hij | hij | hij
        · have := startOf_apart files hij hj
          omega
        · exact hij
        · have := startOf_apart files hij hi
          omega
      exact ⟨rfl, Ptr.eq_of_offset hcase hcase' (by omega)⟩
    · obtain ⟨-, hoff, hcase⟩ := hptr'.target_cases hblank' (by omega) (by omega) hq hne'
      exact absurd hoff (Nat.not_lt_zero _)
  · obtain ⟨-, hoff, hcase⟩ := hptr.target_cases hblank (by omega) (by omega) hp hne
    exact absurd hoff (Nat.not_lt_zero _)

theorem Formatted.range (hn : nblocks ≤ 1024)
    (hzero : ZeroPointers files junk) {p : Ptr} (hf : f ∈ rootFiles v) (hp : p.Valid)
    (hne : target v f p ≠ 0#32) :
    3 ≤ (target v f p).toNat ∧ (target v f p).toNat < used files + rootBlocks files := by
  have hlt := h.lt
  rcases h.owner hn hzero hf with ⟨i, hi, rfl, hblank⟩ | ⟨hptr, hblank⟩
  · have hstop := h.stop_le hi
    have hwidth := le_width (blocksOf files i)
    have hstart := three_le_startOf files i
    obtain ⟨ht, hoff, -⟩ := (h.pointers hi).target_cases hblank (by omega) (by omega) hp hne
    rw [ht, BitVec.toNat_ofNat]
    omega
  · obtain ⟨-, hoff, -⟩ := hptr.target_cases hblank (by omega) (by omega) hp hne
    exact absurd hoff (Nat.not_lt_zero _)

theorem Formatted.bitmap (hn : nblocks ≤ 1024) : (v.word sNblocks).toNat = nblocks ∧
    lastBitmap v = 2 := by
  have hlt := h.lt
  have hused := three_le_used files
  have hcount : (v.word sNblocks).toNat = nblocks := by
    rw [h.count, BitVec.toNat_ofNat]
    omega
  refine ⟨hcount, ?_⟩
  rw [lastBitmap, hcount]
  omega

theorem Formatted.owned (hn : nblocks ≤ 1024) (hzero : ZeroPointers files junk) :
    OwnOn (rootFiles v) {sRoot} v := by
  have hlt := h.lt
  have hused := three_le_used files
  obtain ⟨hcount, hlast⟩ := h.bitmap hn
  refine ⟨?_, fun b hb hfree => ?_, fun f hf => .inl hf, fun f hf => ?_,
    fun f hf p hp hne => ?_, fun f hf p hp g hg q hq hne heq => h.inj hn hzero hf hg hp hq hne heq⟩
  · rw [Sized, hcount]
    exact le_trans hn (by decide)
  · rw [hlast] at hb
    rw [h.free] at hfree
    omega
  · rcases hf with rfl | ⟨n, j, hn', hj, hne, rfl⟩
    · exact .inl rfl
    · exact .inr ⟨sRoot, rfl, n, j, hn', hj, hne, rfl⟩
  · obtain ⟨hlo, hhi⟩ := h.range hn hzero hf hp hne
    refine ⟨by omega, ?_, fun hfree => ?_⟩
    · rw [BitVec.lt_def, hcount]
      omega
    · rw [h.free] at hfree
      omega

theorem Formatted.fileAddr_mem (hn : nblocks ≤ 1024) (hi : i ≤ files.length) :
    fileAddr files i ∈ rootFiles v := by
  rw [fileAddr]
  split
  · exact .inl rfl
  · have hblock : i / 16 < rootBlocks files := by
      simp only [rootBlocks, blockCount]
      omega
    have hle := rootBlocks_le h.le
    obtain ⟨hne, haddr⟩ := h.root_entry (j := i % 16) hn hblock
    refine .inr ⟨i / 16, i % 16, by simp only [ndirect]; omega, Nat.mod_lt _ (by decide), hne, ?_⟩
    rw [haddr, Nat.div_add_mod]

/-- Every block that is in use is one that a file uses. -/
theorem Formatted.pointed (hn : nblocks ≤ 1024) {b : ℕ} (hlo : 3 ≤ b)
    (hhi : b < used files + rootBlocks files) :
    ∃ i ≤ files.length, ∃ p : Ptr, p.Valid ∧ target v (fileAddr files i) p = BitVec.ofNat 32 b ∧
      p.Used (blocksOf files i) := by
  -- the file whose blocks the block is among
  have hfind : ∀ m ≤ files.length, b < startOf files m →
      ∃ i < m, startOf files i ≤ b ∧ b < startOf files i + width (blocksOf files i) := by
    intro m
    induction m with
    | zero =>
      intro _ hb
      exact absurd hb (Nat.not_lt.mpr hlo)
    | succ m ih =>
      intro hm hb
      rcases Nat.lt_or_ge b (startOf files m) with hlt | hge
      · obtain ⟨i, hi, hmem⟩ := ih (by omega) hlt
        exact ⟨i, by omega, hmem⟩
      · have hget : files[m]? = some (files.get ⟨m, hm⟩) := List.getElem?_eq_getElem hm
        rw [startOf_succ hget] at hb
        exact ⟨m, by omega, hge, by rw [blocksOf, hget]; exact hb⟩
  obtain ⟨i, hi, hge, hlt⟩ : ∃ i ≤ files.length, startOf files i ≤ b ∧
      b < startOf files i + width (blocksOf files i) := by
    rcases Nat.lt_or_ge b (used files) with hb | hb
    · obtain ⟨i, hi, hmem⟩ := hfind files.length le_rfl (by rwa [startOf_length])
      exact ⟨i, hi.le, hmem⟩
    · refine ⟨files.length, le_rfl, ?_⟩
      rw [startOf_length, blocksOf_length]
      exact ⟨hb, hhi.trans_le (Nat.add_le_add_left (le_width _) _)⟩
  have hstop := h.stop_le hi
  have htotal := h.lt
  have hwidth := le_width (blocksOf files i)
  have hstart := three_le_startOf files i
  have hptr := h.pointers hi
  rcases Nat.lt_or_ge b (startOf files i + blocksOf files i) with hb | hb
  · refine ⟨i, hi, .data (b - startOf files i), ?_, ?_,
      (by omega : b - startOf files i < blocksOf files i)⟩
    · show b - startOf files i < ndirect + nindirect
      simp only [ndirect, nindirect]
      omega
    · rw [hptr.target_of_lt (by omega) (by omega) (by omega), Nat.add_sub_cancel' hge]
  · have hten : ndirect ≤ blocksOf files i := by
      by_contra hno
      rw [width_of_lt (by omega)] at hlt
      omega
    rw [width_of_le hten] at hlt
    refine ⟨i, hi, .indirect, trivial, (hptr.indirect hten).trans ?_, hten⟩
    rw [show startOf files i + blocksOf files i = b by omega]

theorem Formatted.zeroPointers (hn : nblocks ≤ 1024) (hown : OwnOn (rootFiles v) {sRoot} v) :
    ZeroPointers files junk := by
  intro k file hk o ho
  by_contra hne
  obtain ⟨hlt, -⟩ := List.getElem?_eq_some_iff.mp hk
  have hmem := h.fileAddr_mem hn hlt.le
  have haddr : fileAddr files k = entryAddr files k := if_neg hlt.ne
  rw [haddr] at hmem
  rw [← h.unused k file hk o ho] at hne
  obtain ⟨p, hp, hpne, hunused⟩ := exists_unused ho hne
  obtain ⟨hlo, hbelow, hinUse⟩ := hown.range _ hmem p hp hpne
  obtain ⟨hcount, hlast⟩ := h.bitmap hn
  have hhi : (target v (entryAddr files k) p).toNat < used files + rootBlocks files := by
    by_contra hge
    rw [h.free, ← hcount] at hinUse
    exact hinUse ⟨hbelow, Nat.not_lt.mp hge⟩
  obtain ⟨i, hi, q, hq, htarget, hqused⟩ := h.pointed hn (by omega) hhi
  rw [BitVec.ofNat_toNat, BitVec.setWidth_eq] at htarget
  obtain ⟨hf, rfl⟩ := hown.inj _ hmem p hp _ (h.fileAddr_mem hn hi) q hq hpne htarget.symm
  have hik : i = k := by
    rw [fileAddr] at hf
    split at hf
    · have hused := three_le_used files
      simp only [entryAddr, sRoot, diskmap, blksize] at hf
      omega
    · simp only [entryAddr] at hf
      omega
  rw [hik, blocksOf, hk] at hqused
  exact hunused hqused

end

/-- Without files, the directory has the first block after the bitmap, which nobody has
    allocated. -/
theorem format_empty_not_owned (h : format nblocks [] junk = some v) :
    ¬ OwnOn (rootFiles v) {sRoot} v := by
  rw [format, Option.map_eq_some_iff] at h
  obtain ⟨⟨u, t⟩, h, rfl⟩ := h
  simp only [formatDisk, writefiles, finishdir, finishfile, finishdisk, Proc.bind_eq_some,
    Proc.require_eq_some, Proc.pure_eq_some, Proc.get_eq_some, put_eq_some] at h
  obtain ⟨_, _, ⟨hsize, rfl⟩, _, s, hopen, _, _, ⟨-, rfl⟩, h⟩ := h
  have hs := opendisk_formatting hsize.2 hopen
  obtain ⟨_, _, ⟨_, _, ⟨rfl, rfl⟩, start, s1, halloc, _, _, rfl, _, _, rfl, _, _, rfl, hwhen⟩, _, _,
    ⟨rfl, rfl⟩, rfl⟩ := h
  rw [hs.n, List.length_nil] at halloc hwhen
  obtain ⟨rfl, -, rfl⟩ := alloc_cases (c := 3) hs.pos (by decide) halloc
  obtain ⟨hge, -⟩ | ⟨-, rfl⟩ := Proc.when_eq_some.mp hwhen
  · exact absurd hge (by decide)
  -- the size and the first pointer are all that changes
  have hone :
    min (roundup (roundupInt ((0 * 256 : ℕ) : ℤ)).toNat / blksize) ndirect = 1 := by decide
  have hnext : blockof (diskmap + 4096 * (3 + blockCount (0 * 256))) = 3 := by decide
  simp only [hone, hnext, putNumbers, blockof_eq]
  generalize hm : ByteMem.putWord _ _ _ = m
  have hsame : ∀ x, x < sRoot + 128 ∨ sRoot + 140 ≤ x → m x = s.mem x := fun x hx => by
    have hdirect : x < fDirect sRoot 0 + 4 * 0 ∨
      fDirect sRoot 0 + 4 * 0 + 4 ≤ x := by rw [fDirect]; omega
    have hfsize : x < fSize sRoot ∨ fSize sRoot + 4 ≤ x := by rw [fSize]; omega
    rw [← hm]
    refine (ByteMem.overwrite_out hdirect).trans ((ByteMem.overwrite_out hfsize).trans ?_)
    rw [Nat.zero_mul]
    exact ByteMem.overwrite_out (Nat.lt_or_ge x _)
  have hcount : m.word sNblocks = BitVec.ofNat 32 nblocks := by
    rw [← hs.headed.nblocks]
    refine ByteMem.word_congr fun x _ h2 => hsame x (.inl ?_)
    simp only [sNblocks, sRoot, diskmap, blksize] at h2 ⊢
    omega
  have hbits : ∀ x, diskmap + 8192 ≤ x → x < diskmap + 12288 → m x = 0xFF#8 := fun x h1 h2 => by
    rw [hsame x (.inr (by simp only [sRoot, diskmap, blksize] at h1 ⊢; omega))]
    exact hs.headed.bits x h1 h2
  have hlow : ∀ a, a < diskmap + 8000 → (clearBits 3 m).word a = m.word a := fun a ha =>
    ByteMem.word_congr fun x _ h2 => clearBits_out (.inl (by omega)) (by decide)
  have htarget : target (clearBits 3 m) sRoot (.data 0) = 3#32 := by
    rw [target, if_pos (by decide), hlow _ (by decide), ← hm]
    exact ByteMem.word_putWord_self
  intro hown
  obtain ⟨-, hlt, hfree⟩ :=
    hown.range sRoot (.inl rfl) (.data 0) (show 0 < ndirect + nindirect by decide)
    (by rw [htarget]; decide)
  rw [htarget, isFree_clearBits (by decide), isFree_of_ones hsize.2 hcount hbits] at hfree
  rw [htarget, hlow _ (by decide), hcount, BitVec.lt_def, BitVec.toNat_ofNat,
    BitVec.toNat_ofNat] at hlt
  exact hfree ⟨by simp only [BitVec.toNat_ofNat]; omega, by decide⟩

end Image

/-! ### Ownership -/

/-- **The image is consistent**, for base names that stay out of the block pointers, if there is a
    file and the pointers that the files do not use were zero, and only then. -/
theorem format_owned (nblocks : ℕ) (files : List HostFile) (junk v : ByteMem)
    (hformat : format nblocks files junk = some v) (hnames : ShortNames files) :
    v.word sNblocks = BitVec.ofNat 32 nblocks ∧ OwnOn (rootFiles v) {sRoot} v ↔
      files ≠ [] ∧ ZeroPointers files junk := by
  have hn := format_le hformat
  refine ⟨fun ⟨_, hown⟩ => ?_, fun ⟨hsome, hzero⟩ => ?_⟩
  · have hsome : files ≠ [] := fun hno => format_empty_not_owned (hno ▸ hformat) hown
    exact ⟨hsome, (format_formatted hnames hsome hformat).zeroPointers hn hown⟩
  · have h := format_formatted hnames hsome hformat
    exact ⟨h.count, h.owned hn hzero⟩

/-- One file of one byte on a disk of eight blocks. -/
theorem format_owned_one :
    ∃ v, format 8 [⟨[0x61#8], [0x31#8]⟩] (fun _ => 0#8) = some v ∧
    OwnOn (rootFiles v) {sRoot} v := by
  have hsome : (format 8 [⟨[0x61#8], [0x31#8]⟩] fun _ => 0#8).isSome = true := by decide
  obtain ⟨v, hv⟩ := Option.isSome_iff_exists.mp hsome
  have hnames : ShortNames [⟨[0x61#8], [0x31#8]⟩] := by
    intro file hfile
    obtain rfl := List.mem_singleton.mp hfile
    decide
  exact ⟨v, hv,
    ((format_owned 8 _ (fun _ => 0#8) v hv hnames).mpr ⟨by simp, fun _ _ _ _ _ => rfl⟩).2⟩

/-- Without files, the directory has block 3, whose bit says that it is free: the signed
    `ROUNDUP(0, BLKSIZE)` is a block and the unsigned one is none. -/
theorem format_empty_free :
    ∃ v, format 4 [] (fun _ => 0#8) = some v ∧ target v sRoot (.data 0) = 3#32 ∧ IsFree v 3#32 ∧
      ¬ OwnOn (rootFiles v) {sRoot} v := by
  obtain ⟨v, hv, htarget, hfree⟩ : ∃ v ∈ format 4 [] fun _ => 0#8,
      target v sRoot (.data 0) = 3#32 ∧ IsFree v 3#32 := by decide
  exact ⟨v, hv, htarget, hfree, format_empty_not_owned hv⟩

end LinuxStudy.Fs
