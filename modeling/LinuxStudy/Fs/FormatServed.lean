import Mathlib.Data.List.TakeWhile
import LinuxStudy.Fs.Format
import LinuxStudy.Fs.Lookup

/-!
# The server on a fresh image

What `fsformat` writes, `fs/fs.c` reads back: `file_open` finds each file by its base name, and
`file_read` returns its bytes. The server then only brings blocks into its cache, and every one of
them is in use, since `bc_pgfault` panics for a free block. The block pointers that a file does not
use, where the formatter leaves whatever `malloc` returned, are never looked at: the size of a file
says how many of them are used.
-/

namespace LinuxStudy.Fs

open Jos
open Proc (require_pos bind_of_eq get_apply when_neg Yields)
open ByteMem Server
open BitVec (toNat_ofNat lt_def)

/-! ### The server on a disk -/

/-- The disk is `v`, in the cache or not, and the blocks in the cache are in use. -/
structure Serving (v : ByteMem) (s : Server) : Prop where
  calm : Calm s
  bitmap : s.bitmap = true
  view : ∀ a, InMap a → s.view a = v a
  disk : ∀ a, InMap a → s.disk a = v a
  used : ∀ pn, InMap (pn * 4096) → s.Mapped pn → InUse v (blockNo (pn * 4096))

/-- Memory outside the disk map is the same. -/
def SameRam (s s' : Server) : Prop := ∀ a, ¬ InMap a → s'.mem a = s.mem a

section Serving

variable {v : ByteMem} {s s' : Server} {a n : ℕ} {g : ℕ → Byte}

theorem Serving.of_loads (h : Serving v s) (hloads : Loads s s') : Serving v s' ∧ SameRam s s' := by
  obtain ⟨hfill, hnew⟩ := hloads h.calm h.bitmap
  refine ⟨⟨h.calm.of_fills hfill, hfill.bitmap.trans h.bitmap, fun a ha => ?_, fun a ha => ?_,
    fun pn hpn hm => ?_⟩, fun a ha => ?_⟩
  · rw [hfill.view]
    exact h.view a ha
  · rw [hfill.disk]
    exact h.disk a ha
  · rcases hnew pn hm with hm | huse
    · exact h.used pn hpn hm
    · exact (inUse_congr_map h.view).mp huse
  · rw [← view_of_not_inMap ha, hfill.view, view_of_not_inMap ha]

/-- A server that only looks goes on serving the disk. -/
theorem looking_serving (v : ByteMem) (s : Server) : Looking v fun t => Serving v t ∧
    SameRam s t where
  calm _ h := h.1.calm
  view _ h := h.1.view
  loads _ _ h _ hloads :=
    have ⟨hs, hram⟩ := h.1.of_loads hloads
    ⟨hs, fun a ha => (hram a ha).trans (h.2 a ha)⟩

theorem Server.put_mem : (s.put a n g).mem = s.mem.overwrite a n g := rfl

theorem Serving.put (h : Serving v s) (hoff : OffMap a n) : Serving v (s.put a n g) := by
  have hpresent : ∀ y, a ≤ y → y < a + n → s.Present y := by
    intro y h1 h2 hmap
    simp only [OffMap, InMap] at hoff hmap
    omega
  have hshows := put_shows (g := g) hpresent
  have hview : ∀ y, InMap y → (s.put a n g).view y = s.view y := by
    intro y hy
    rw [hshows.view]
    refine overwrite_out ?_
    simp only [OffMap, InMap] at hoff hy
    omega
  have hmapped : ∀ pn, (s.put a n g).Mapped pn → s.Mapped pn := by
    intro pn hpn
    simp only [Server.Mapped, Server.put] at hpn ⊢
    split at hpn
    · exact has_or_D.mp hpn
    · exact hpn
  refine ⟨⟨⟨h.calm.super, mounted_congr_map hview h.calm.mounted⟩, hshows.mapped _ h.calm.one, ?_⟩,
    h.bitmap, fun y hy => (hview y hy).trans (h.view y hy),
    h.disk, fun pn hpn hm => h.used pn hpn (hmapped pn hm)⟩
  rw [word_congr_map (a := sNblocks) hview (by decide) (by decide)]
  exact h.calm.two

theorem memmove_serving {dst src : ℕ} (h : Serving v s) (hsrc : Accessible v src n) (h1 : InMap src)
    (h2 : InMap (src + n)) (hdst : OffMap dst n) :
    ∃ s', memmove dst src n s = some ((), s') ∧ Serving v s' ∧
      (∀ i < n, s'.mem (dst + i) = v (src + i)) ∧
      ∀ y, ¬ InMap y → (y < dst ∨ dst + n ≤ y) → s'.mem y = s.mem y := by
  have hmoved : Serving v { s with moves := s.moves ++ [⟨dst, src, n⟩] } :=
    ⟨⟨⟨h.calm.super, h.calm.mounted⟩, h.calm.one, h.calm.two⟩, h.bitmap, h.view, h.disk, h.used⟩
  obtain ⟨s1, hs1⟩ :=
    touchRange_total hmoved.calm ((looking_serving v _).accessible ⟨hmoved, fun _ _ => rfl⟩ hsrc)
  obtain ⟨hserv1, hram1⟩ := hmoved.of_loads (touchRange_loads _ _ _ _ _ hs1)
  obtain ⟨s2, hs2⟩ := touchRange_total (a := dst) (n := n) hserv1.calm (accessible_of_offMap hdst)
  obtain ⟨hserv2, hram2⟩ := hserv1.of_loads (touchRange_loads _ _ _ _ _ hs2)
  refine ⟨s2.put dst n fun y => s1.mem (src + (y - dst)), ?_,
    hserv2.put hdst, fun i hi => ?_, fun y hy hout => ?_⟩
  · refine (bind_of_eq (a := ()) rfl).trans ?_
    rw [bind_of_eq hs1, bind_of_eq get_apply]
    rw [store, bind_of_eq hs2]
    rfl
  · have hpresent := (touchRange_fills hs1).2 (src + i) (by omega) (by omega)
    have hmap : InMap (src + i) := by
      simp only [InMap] at h1 h2 ⊢
      omega
    rw [put_mem, overwrite_in (by omega) (by omega), Nat.add_sub_cancel_left,
      ← view_of_present hpresent]
    exact hserv1.view _ hmap
  · rw [put_mem, overwrite_out hout, hram2 y hy, hram1 y hy]

end Serving

section Blocks

variable {nblocks k n a f start nb : ℕ} {junk v : ByteMem} {files : List HostFile} {file : HostFile}

section

variable (h : Formatted nblocks junk files v)
include h

theorem Formatted.count_toNat (hn : nblocks ≤ 1024) :
    (v.word sNblocks).toNat = nblocks := by
  rw [h.count, toNat_ofNat]
  omega

theorem Formatted.inUse (hn : nblocks ≤ 1024) {b : Word}
    (hb : b.toNat < used files + rootBlocks files) : InUse v b := by
  have hlt := h.lt
  refine ⟨?_, fun hfree => ?_⟩
  · rw [lt_def, h.count_toNat hn]
    omega
  · have := ((h.free b).mp hfree).2
    omega

theorem Formatted.held (hn : nblocks ≤ 1024) (h1 : diskmap ≤ a)
    (h2 : a + n ≤ diskmap + 4096 * (used files + rootBlocks files)) : Held v a n := by
  have hlt := h.lt
  refine ⟨fun x hx1 hx2 hmap => h.inUse hn ?_, h1, ?_⟩
  · have hx := hmap.1
    simp only [blockNo, diskmap, blksize, toNat_ofNat] at h2 hx ⊢
    omega
  · simp only [disksize]
    omega

theorem Formatted.held_root (hn : nblocks ≤ 1024) : Held v sRoot 256 := by
  have hused := three_le_used files
  refine h.held hn ?_ ?_ <;> simp only [sRoot, diskmap, blksize] <;> omega

theorem Formatted.held_entry (hn : nblocks ≤ 1024) (hk : k < 16 * rootBlocks files) :
    Held v (entryAddr files k) 256 := by
  refine h.held hn ?_ ?_ <;> rw [entryAddr] <;> omega

/-- The blocks that a file of the image uses. -/
theorem Formatted.readable (hn : nblocks ≤ 1024) (hf : Held v f 256) (hp : Pointers v f start nb)
    (h0 : 0 < start)
    (hstop : start + width nb ≤ used files + rootBlocks files) (hk : k < nb) :
    Readable v f k ∧ target v f (.data k) = BitVec.ofNat 32 (start + k) := by
  have hlt := h.lt
  have hwidth := le_width nb
  have htgt := hp.target_of_lt h0 (by omega) hk
  refine ⟨⟨hf, by simp only [ndirect, nindirect]; omega, ?_, ?_, fun hdir => ?_⟩, htgt⟩
  · rw [htgt]
    exact ofNat_ne_zero (by omega) (by omega)
  · rw [htgt]
    exact h.inUse hn (by rw [ofNat_toNat (by omega)]; omega)
  · have hge : ndirect ≤ nb := by omega
    rw [width_of_le hge] at hstop
    rw [hp.indirect hge]
    exact h.inUse hn (by rw [ofNat_toNat (by omega)]; omega)

end

end Blocks

/-! ### The directory -/

/-- The name in entry `k`; entries after the last file have none. -/
def nameAt (files : List HostFile) (k : ℕ) : List Byte :=
  match files[k]? with
  | some file => baseName file.path
  | none => []

/-- Base names as C strings that fit into an entry. -/
structure GoodNames (files : List HostFile) : Prop where
  pos : ∀ file ∈ files, baseName file.path ≠ []
  short : ∀ file ∈ files, (baseName file.path).length < maxnamelen
  nonzero : ∀ file ∈ files, ∀ c ∈ baseName file.path, c ≠ 0#8
  distinct : (files.map fun file => baseName file.path).Nodup

section Directory

variable {nblocks i k : ℕ} {junk v : ByteMem} {files : List HostFile} {file : HostFile}
  {name : List Byte}

section

variable (h : Formatted nblocks junk files v)
include h

theorem Formatted.name_bytes (hnames : GoodNames files) (k : ℕ) :
    (nameAt files k).length < 128 ∧ (∀ c ∈ nameAt files k, c ≠ 0#8) ∧
      ∀ i ≤ (nameAt files k).length, v (entryAddr files k + i) = (nameAt files k).getD i 0#8 := by
  rw [nameAt]
  cases hk : files[k]? with
  | some file =>
    have hmem : file ∈ files := List.mem_of_getElem? hk
    exact ⟨hnames.short file hmem, hnames.nonzero file hmem,
      (h.entry k file hk).name (hnames.short file hmem)⟩
  | none =>
    have hge := List.getElem?_eq_none_iff.mp hk
    refine ⟨by decide, by simp, fun i hi => ?_⟩
    refine (h.spare _ ?_).trans (by simp)
    rw [entryAddr, entryAddr]
    omega

theorem Formatted.nameIs (hnames : GoodNames files) : NameIs v (entryAddr files k) name ↔
    nameAt files k = name := by
  obtain ⟨-, hnz, hbytes⟩ := h.name_bytes hnames k
  have hname := nameIs_of_bytes hnz hbytes
  constructor
  · exact hname.unique
  · rintro rfl
    exact hname

variable (hn : nblocks ≤ 1024)
include hn

theorem Formatted.readable_root (hi : i < rootBlocks files) :
    Readable v sRoot i ∧ target v sRoot (.data i) = BitVec.ofNat 32 (used files + i) := by
  have hten : rootBlocks files < ndirect := Nat.lt_of_le_of_lt (rootBlocks_le h.le) (by decide)
  have hused := three_le_used files
  exact h.readable hn (h.held_root hn) h.root (by omega) (by rw [width_of_lt hten]) hi

theorem Formatted.filled : Filled v sRoot ∧ dirLen v sRoot = rootBlocks files := by
  have hblocks := rootBlocks_le h.le
  have hsize : (BitVec.ofNat 32 (4096 * rootBlocks files)).toNat = 4096 * rootBlocks files := by
    rw [toNat_ofNat]
    omega
  have hlen : dirLen v sRoot = rootBlocks files := by
    rw [dirLen, h.rootSize, sdiv_block (by omega), hsize, Nat.mul_div_cancel_left _ (by omega)]
  refine ⟨⟨?_, fun i hi => ?_⟩, hlen⟩
  · apply BitVec.eq_of_toNat_eq
    rw [h.rootSize, srem_block (by omega), hsize, Nat.mul_mod_right]
    rfl
  · rw [hlen] at hi
    have hr := (h.readable_root hn hi).1
    exact ⟨hr.lt, hr.ne, hr.inUse, hr.indirect⟩

theorem Formatted.mem_entries {e : ℕ} :
    e ∈ entries v sRoot ↔ ∃ k, k < 16 * rootBlocks files ∧ e = entryAddr files k := by
  have hlt := h.lt
  have haddr : ∀ i j, i < rootBlocks files →
      entryOf v sRoot i j = entryAddr files (16 * i + j) := by
    intro i j hi
    rw [entryOf, (h.readable_root hn hi).2, blkaddr_ofNat (by omega), entryAddr]
    omega
  rw [Fs.mem_entries, (h.filled hn).2]
  constructor
  · rintro ⟨i, j, hi, hj, rfl⟩
    simp only [blkfiles] at hj
    exact ⟨16 * i + j, by omega, haddr i j hi⟩
  · rintro ⟨k, hk, rfl⟩
    refine ⟨k / 16, k % 16, by omega, Nat.mod_lt _ (by decide), ?_⟩
    rw [haddr _ _ (by omega), Nat.div_add_mod]

variable (hnames : GoodNames files)
include hnames

theorem Formatted.lookup_found (hk : files[k]? = some file) :
    lookup v sRoot (baseName file.path) = some (entryAddr files k) := by
  obtain ⟨hlt, -⟩ := List.getElem?_eq_some_iff.mp hk
  have hname : nameAt files k = baseName file.path := by rw [nameAt, hk]
  cases hfind : lookup v sRoot (baseName file.path) with
  | none =>
    refine absurd ((h.nameIs hnames).mpr hname)
      (lookup_eq_none.mp hfind _ ((h.mem_entries hn).mpr ⟨k, ?_, rfl⟩))
    simp only [rootBlocks, blockCount]
    omega
  | some e =>
    obtain ⟨hmem, hm⟩ := lookup_eq_some hfind
    obtain ⟨m, -, rfl⟩ := (h.mem_entries hn).mp hmem
    rw [h.nameIs hnames, nameAt] at hm
    -- no other entry has the name
    cases hget : files[m]? with
    | none =>
      rw [hget] at hm
      exact absurd hm.symm (hnames.pos file (List.mem_of_getElem? hk))
    | some other =>
      rw [hget] at hm
      obtain ⟨hmlt, -⟩ := List.getElem?_eq_some_iff.mp hget
      have hsame : m = k := by
        refine (List.getElem?_inj (by rwa [List.length_map]) hnames.distinct).mp ?_
        rw [List.getElem?_map, List.getElem?_map, hget, hk]
        exact congrArg some hm
      rw [hsame]

theorem Formatted.lookup_missing (hname : name ≠ [])
    (hno : ∀ file ∈ files, baseName file.path ≠ name) : lookup v sRoot name = none := by
  refine lookup_eq_none.mpr fun e he hm => ?_
  obtain ⟨m, -, rfl⟩ := (h.mem_entries hn).mp he
  rw [h.nameIs hnames, nameAt] at hm
  split at hm
  · next other hget => exact hno other (List.mem_of_getElem? hget) hm
  · exact hname hm.symm

end

theorem slash_not_mem_baseName {path : List Byte} : 0x2F#8 ∉ baseName path := by
  rw [baseName, List.mem_reverse]
  intro hmem
  simpa using List.mem_takeWhile_imp hmem

theorem Formatted.mounted (h : Formatted nblocks junk files v) (hn : nblocks ≤ 1024) :
    Mounted v := by
  have hcount := h.count_toNat hn
  have hused := three_le_used files
  constructor
  · rw [Sized, hcount]
    exact le_trans hn (by decide)
  · intro b hb hfree
    have hlast : lastBitmap v = 2 := by
      have := h.lt
      rw [lastBitmap, hcount]
      omega
    have := ((h.free b).mp hfree).2
    omega

theorem Formatted.fileOpen {I : Server → Prop} (h : Formatted nblocks junk files v)
    (hn : nblocks ≤ 1024)
    (hI : Looking v I) (hname : name ≠ []) (hshort : name.length < maxnamelen)
    (hslash : 0x2F#8 ∉ name) : Yields I (fileOpen name)
      (match lookup v sRoot name with
        | some e => .ok e
        | none => .error (-eNotFound)) := by
  have hheld := h.held_root hn
  have hwalk : Yields I (walkPath name)
      (match lookup v sRoot name with
        | some e => .found (some sRoot) e
        | none => .missing sRoot name) := by
    rw [walkPath, components_single hname hslash, walkFrom, if_neg (by omega)]
    refine (yields_loadw hI (hheld.sub (o := 132) (by omega))).bind ?_
    rw [show v.word (sRoot + 132) = ftypeDir from h.rootType, if_neg (by simp)]
    refine (yields_dirLookup hI (h.mounted hn).sized hheld (h.filled hn).1 hshort).bind ?_
    cases lookup v sRoot name with
    | none => exact .pure _
    | some e => exact .pure _
  refine hwalk.bind ?_
  cases lookup v sRoot name with
  | none => exact .pure _
  | some e => exact .pure _

end Directory

section Contents

variable {nblocks k buf : ℕ} {junk v : ByteMem} {files : List HostFile} {file : HostFile}
  {s : Server}

/-- The loop of `file_read` after `pos` bytes. -/
structure ReadTo (v : ByteMem) (file : HostFile) (buf : ℕ) (pos : Word) (b : ℕ) (t : Server) :
    Prop where
  serving : Serving v t
  buf_eq : b = buf + pos.toNat
  le : pos.toNat ≤ file.data.length
  bytes : ∀ i < pos.toNat, t.mem (buf + i) = file.data.getD i 0#8

theorem ReadTo.step {pos : Word} {b : ℕ} {t : Server} (h : Formatted nblocks junk files v)
    (hn : nblocks ≤ 1024)
    (hk : files[k]? = some file) (hbuf : OffMap buf file.data.length)
    (hr : ReadTo v file buf pos b t) (hlt : pos < BitVec.ofNat 32 file.data.length) :
    pos.toNat < 2 ^ 31 ∧ ∃ blk t1 t2,
      fileGetBlock (entryAddr files k) (pos.sdiv 4096#32) t = some (.ok blk, t1) ∧
      memmove b (BitVec.ofNat 32 blk + pos.srem 4096#32).toNat
        (chunk (BitVec.ofNat 32 file.data.length) pos).toNat t1 = some ((), t2) ∧
      ReadTo v file buf (pos + chunk (BitVec.ofNat 32 file.data.length) pos)
        (b + (chunk (BitVec.ofNat 32 file.data.length) pos).toNat) t2 := by
  obtain ⟨hklt, -⟩ := List.getElem?_eq_some_iff.mp hk
  have hused := h.lt
  have hstart := three_le_startOf files k
  have hstop := startOf_add_le hk
  have hwidth := le_width (blockCount file.data.length)
  have hcount : blockCount file.data.length = (file.data.length + 4095) / 4096 := rfl
  have hlen : (BitVec.ofNat 32 file.data.length).toNat = file.data.length := by
    rw [toNat_ofNat]
    omega
  have hlt' := lt_def.mp hlt
  have hpos : pos.toNat < 2 ^ 31 := by omega
  have hchunk := chunk_toNat hpos hlt
  have hdiv := sdiv_block hpos
  obtain ⟨hread, htgt⟩ :=
    h.readable hn (h.held_entry hn (k := k) (by simp only [rootBlocks, blockCount]; omega))
    (h.entry k file hk).pointers (k := (pos.sdiv 4096#32).toNat) (by omega) (by omega)
      (by rw [hdiv, hcount]; omega)
  obtain ⟨t1, hget, hserv1, hram1⟩ :=
    yields_fileGetBlock (looking_serving v t) hread t ⟨hr.serving, fun _ _ => rfl⟩
  rw [htgt, hdiv, blkaddr_ofNat (by omega)] at hget
  have hsrc : (BitVec.ofNat 32 (diskmap + 4096 * (startOf files k + pos.toNat / 4096)) +
      pos.srem 4096#32).toNat = diskmap + 4096 * startOf files k + pos.toNat := by
    rw [BitVec.toNat_add, srem_block hpos, toNat_ofNat]
    simp only [diskmap]
    omega
  have hb := hr.buf_eq
  have hacc : Accessible v (diskmap + 4096 * startOf files k + pos.toNat)
      (chunk (BitVec.ofNat 32 file.data.length) pos).toNat := (h.held hn (by omega) (by omega)).1
  have hoff : OffMap b (chunk (BitVec.ofNat 32 file.data.length) pos).toNat := by
    simp only [OffMap] at hbuf ⊢
    omega
  obtain ⟨t2, hmove, hserv2, hnew, hold⟩ := memmove_serving hserv1 hacc
    (by simp only [InMap, diskmap, disksize]; omega)
      (by simp only [InMap, diskmap, disksize]; omega) hoff
  refine ⟨hpos, _, t1, t2, hget, by rw [hsrc]; exact hmove, ?_⟩
  have hnext := toNat_add_chunk hlt
  constructor
  · exact hserv2
  · omega
  · omega
  · intro i hi
    have hout : ¬ InMap (buf + i) := by
      simp only [OffMap, InMap] at hbuf ⊢
      omega
    rcases Nat.lt_or_ge i pos.toNat with hi' | hi'
    · rw [hold _ hout (by omega), hram1 _ hout]
      exact hr.bytes i hi'
    · have hbyte := hnew (i - pos.toNat) (by omega)
      rw [hb, Nat.add_assoc, Nat.add_sub_cancel' hi'] at hbyte
      rw [hbyte, Nat.add_assoc, Nat.add_sub_cancel' hi']
      exact (h.entry k file hk).content i (by omega)

/-- **`file_read` of a whole file.** -/
theorem Formatted.fileRead (h : Formatted nblocks junk files v) (hn : nblocks ≤ 1024)
    (hk : files[k]? = some file) (hs : Serving v s) (hbuf : OffMap buf file.data.length) :
    ∃ s', fileRead (entryAddr files k) buf (BitVec.ofNat 32 file.data.length) 0#32 s =
        some ((file.data.length : Int), s') ∧ Serving v s' ∧
      ∀ i < file.data.length, s'.mem (buf + i) = file.data.getD i 0#8 := by
  obtain ⟨hklt, -⟩ := List.getElem?_eq_some_iff.mp hk
  have hused := h.lt
  have hstop := startOf_add_le hk
  have hwidth := le_width (blockCount file.data.length)
  have hcount : blockCount file.data.length = (file.data.length + 4095) / 4096 := rfl
  have hheld := h.held_entry hn (k := k) (by simp only [rootBlocks, blockCount]; omega)
  have hlen : (BitVec.ofNat 32 file.data.length).toNat = file.data.length := by
    rw [toNat_ofNat]
    omega
  have hint : (BitVec.ofNat 32 file.data.length).toInt = file.data.length := by
    rw [toInt_of_small (by omega), hlen]
  obtain ⟨s1, hload, hserv1, -⟩ :=
    yields_loadw (looking_serving v s) (hheld.sub (o := 128) (by omega)) s
    ⟨hs, fun _ _ => rfl⟩
  rw [← fSize, (h.entry k file hk).size] at hload
  rw [Fs.fileRead, bind_of_eq hload, hint]
  split
  · next hzero =>
    have hnil : file.data.length = 0 := by
      have : ((0#32 : Word).toInt : Int) = 0 := rfl
      omega
    rw [hnil]
    exact ⟨s1, rfl, hserv1, fun i hi => absurd hi (Nat.not_lt_zero i)⟩
  · have hmin : minu (BitVec.ofNat 32 file.data.length) (BitVec.ofNat 32 file.data.length - 0#32) =
        BitVec.ofNat 32 file.data.length := by
      rw [BitVec.sub_zero, minu, if_pos (BitVec.le_refl _)]
    rw [hmin]
    dsimp only
    rw [BitVec.zero_add]
    have hstart : ReadTo v file buf 0#32 buf s1 :=
      ⟨hserv1, rfl, Nat.zero_le _, fun i hi => absurd hi (Nat.not_lt_zero i)⟩
    obtain ⟨s2, hloop, pos, b, hge, hend⟩ := xferLoop_total (ReadTo v file buf)
      (fun pos b t hr hlt => ReadTo.step h hn hk hbuf hr hlt)
      (show (BitVec.ofNat 32 file.data.length).toNat - (0#32 : Word).toNat <
        (BitVec.ofNat 32 file.data.length).toNat + 1 by omega) hstart
    have hall : pos.toNat = file.data.length := by
      have := hend.le
      rw [lt_def, hlen] at hge
      omega
    refine ⟨s2, ?_, hend.serving, fun i hi => hend.bytes i (by omega)⟩
    rw [bind_of_eq hloop]
    exact congrArg (fun r => some (r, s2)) hint

end Contents

/-! ### `fs_init` -/

/-- The server before `fs_init`: nothing of the disk is in the cache. -/
structure Booting (v : ByteMem) (s : Server) : Prop where
  super : s.super = false
  bitmap : s.bitmap = false
  disk : ∀ a, InMap a → s.disk a = v a
  empty : ∀ pn, InMap (pn * 4096) → ¬ s.Mapped pn

section Init

variable {nblocks : ℕ} {junk v : ByteMem} {files : List HostFile} {s : Server}

theorem Formatted.checkBitmap {I : Server → Prop} (h : Formatted nblocks junk files v)
    (hn : nblocks ≤ 1024)
    (hI : Looking v I) : Yields I checkBitmap () := by
  have hlt := h.lt
  have hused := three_le_used files
  have hcount := h.count_toNat hn
  have hfree : ∀ b : Word, b.toNat < 3 → Yields I (blockIsFree b) false :=
    fun b hb => yields_blockIsFree hI (h.inUse hn (by omega))
  have hload : Yields I (loadw sNblocks) (v.word sNblocks) := by
    refine yields_loadw hI (h.held hn ?_ ?_) <;> simp only [sNblocks, diskmap, blksize] <;> omega
  have hzero : Yields I (checkBitmapStep 0) none := by
    refine hload.bind ?_
    rw [if_pos (by rw [lt_def, hcount]; simp only [Nat.zero_mul, toNat_ofNat]; omega)]
    exact (hfree _ (by decide)).bind ((Yields.require rfl).bind (.pure none))
  have hone : Yields I (checkBitmapStep 1) (some ()) := by
    refine hload.bind ?_
    rw [if_neg (by rw [lt_def, hcount]; simp only [blksize, toNat_ofNat]; omega)]
    exact .pure (some ())
  have hloop : Yields I (Proc.search checkBitmapStep (2 ^ 32) 0) (some ()) := by
    refine hzero.bind ?_
    exact hone.bind (.pure (some ()))
  refine hloop.bind ?_
  exact (hfree _ (by decide)).bind
    ((Yields.require rfl).bind ((hfree _ (by decide)).bind (.require rfl)))

theorem diskaddr_one (hs : s.super = false) : diskaddr 1#32 s = some (diskmap + 4096, s) := by
  rw [diskaddr, bind_of_eq (require_pos (by decide)), bind_of_eq get_apply]
  rw [bind_of_eq (a := ()) (t := s) (when_neg (by simp [hs]))]
  exact congrArg (fun r => some (r, s)) (by decide)

theorem Booting.bcInit (hs : Booting v s) : bcInit s = some ((), s.filled (diskmap + 4096)) := by
  have hmap : InMap (diskmap + 4096) := by decide
  have hnot : ¬ s.Mapped ((diskmap + 4096) / 4096) := hs.empty _ (by decide)
  have htouch : touch (diskmap + 4096) s = some ((), s.filled (diskmap + 4096)) := by
    rw [touch, touchBy, if_pos ⟨hmap, hnot⟩, faultDepth, bcPgfault, bind_of_eq (require_pos hmap),
      bind_of_eq get_apply, bind_of_eq (a := ()) (t := s) (when_neg (by simp [hs.super]))]
    exact when_neg (by
      show ¬ s.bitmap = true
      simp [hs.bitmap])
  rw [Fs.bcInit, bind_of_eq (diskaddr_one hs.super), touchRange, if_neg (by decide)]
  show touchPages 1 (diskmap + 4096) s = _
  rw [touchPages, bind_of_eq htouch]
  rfl

section

variable (h : Formatted nblocks junk files v)
include h

theorem Formatted.calm (hn : nblocks ≤ 1024) (hs : Booting v s) :
    Calm { s.filled (diskmap + 4096) with super := true } ∧
      ∀ a, InMap a → (s.filled (diskmap + 4096)).view a = v a := by
  obtain ⟨hfill, hm⟩ := fill_page (a := diskmap + 4096) (by decide) (hs.empty _ (by decide))
  have hview : ∀ a, InMap a → (s.filled (diskmap + 4096)).view a = v a := by
    intro a ha
    have hpage : InMap (a / 4096 * 4096) := (inMap_of_page (by omega)).mpr ha
    rw [Server.filled, hfill.view, view_of_not_mapped ha (hs.empty _ hpage)]
    exact hs.disk a ha
  refine ⟨⟨⟨rfl, mounted_congr_map hview (h.mounted hn)⟩, hm, ?_⟩, hview⟩
  have hlt := h.lt
  have hused := three_le_used files
  have hcount : ((s.filled (diskmap + 4096)).view.word sNblocks).toNat = nblocks := by
    rw [word_congr_map (a := sNblocks) hview (by decide) (by decide), h.count_toNat hn]
  show 2 < ((s.filled (diskmap + 4096)).view.word sNblocks).toNat
  omega

theorem checkSuper_serves {t : Server} (hn : nblocks ≤ 1024) (hcalm : Calm t)
    (hview : ∀ a, InMap a → t.view a = v a) : checkSuper t = some ((), t) := by
  have hload : ∀ o ≤ 4,
      loadw (diskmap + blksize + o) t = some (v.word (diskmap + blksize + o), t) := by
    intro o ho
    have h1 : InMap (diskmap + blksize + o) ∧ InMap (diskmap + blksize + o + 3) := by
      simp only [InMap, diskmap, disksize, blksize]
      omega
    rw [← word_congr_map hview h1.1 h1.2]
    refine loadw_of_present fun x hx1 hx2 _ => ?_
    have hpage : x / 4096 = sNblocks / 4096 := by
      simp only [sNblocks, diskmap, blksize] at hx1 hx2 ⊢
      omega
    rw [hpage]
    exact hcalm.one
  have hmagic := hload 0 (by omega)
  rw [Nat.add_zero] at hmagic
  rw [checkSuper, bind_of_eq hmagic, bind_of_eq (require_pos h.magic)]
  rw [sNblocks, bind_of_eq (hload 4 (by omega))]
  exact require_pos (h.mounted hn).sized

theorem Formatted.serving (hn : nblocks ≤ 1024) (hs : Booting v s) :
    Serving v { s.filled (diskmap + 4096) with super := true, bitmap := true } := by
  obtain ⟨hcalm, hview⟩ := h.calm hn hs
  have hused := three_le_used files
  have hdisk : (s.filled (diskmap + 4096)).disk = s.disk := rfl
  refine ⟨⟨⟨rfl, hcalm.mounted⟩, hcalm.one, hcalm.two⟩, rfl,
    hview, fun a ha => ?_, fun pn hpn hm => ?_⟩
  · exact hs.disk a ha
  · rcases mapped_filled hm with hm | rfl
    · exact absurd hm (hs.empty pn hpn)
    · have hone : (blockNo ((diskmap + 4096) / 4096 * 4096)).toNat = 1 := by decide
      exact h.inUse hn (by omega)

/-- **`fs_init` accepts the image.** -/
theorem Formatted.fsInit (hn : nblocks ≤ 1024) (hs : Booting v s) :
    ∃ s', fsInit s = some ((), s') ∧ Serving v s' := by
  obtain ⟨hcalm, hview⟩ := h.calm hn hs
  obtain ⟨s', hbitmap, hs', -⟩ :=
    h.checkBitmap hn (looking_serving v _) _ ⟨h.serving hn hs, fun _ _ => rfl⟩
  have hsuper1 : (s.filled (diskmap + 4096)).super = false := hs.super
  have hcheck := checkSuper_serves h hn hcalm hview
  have haddr := diskaddr_total (b := 2#32) hcalm (by decide) (by rw [lt_def]; exact hcalm.two)
  refine ⟨s', ?_, hs'⟩
  rw [Fs.fsInit, bind_of_eq hs.bcInit]
  generalize s.filled (diskmap + 4096) = s1 at *
  have hset :
  (modify fun s => { s with super := true } : FsM Unit) s1 = some ((), { s1 with super := true }) :=
    Proc.modify_eq_some.mpr rfl
  have hset' : (modify fun s => { s with bitmap := true } : FsM Unit) { s1 with super := true } =
      some ((), { s1 with super := true, bitmap := true }) := Proc.modify_eq_some.mpr rfl
  rw [bind_of_eq (diskaddr_one hsuper1), bind_of_eq hset, bind_of_eq hcheck,
    bind_of_eq haddr, bind_of_eq hset', hbitmap]

end

end Init

/-! ### Formatter and server -/

/-- **Formatter and server agree.** On an image of files with distinct base names, `fs_init`
    returns, and from then on `file_open` finds each file and `file_read` returns its bytes,
    and no other name is found. The disk stays as it is, and no block that is free comes into
    the cache. -/
theorem format_served (nblocks : ℕ) (files : List HostFile) (junk v : ByteMem) (s₀ : Server)
    (hformat : format nblocks files junk = some v) (hsome : files ≠ []) (hnames : GoodNames files)
    (hboot : Booting v s₀) :
    (∃ s, fsInit s₀ = some ((), s) ∧ Serving v s) ∧
    ∀ s, Serving v s →
      (∀ file ∈ files, ∃ f s', fileOpen (baseName file.path) s = some (.ok f, s') ∧ Serving v s' ∧
        ∀ t buf, Serving v t → OffMap buf file.data.length →
          ∃ t', fileRead f buf (BitVec.ofNat 32 file.data.length) 0#32 t =
              some ((file.data.length : Int), t') ∧ Serving v t' ∧
            ∀ i < file.data.length, t'.mem (buf + i) = file.data.getD i 0#8) ∧
      ∀ name : List Byte, name ≠ [] → name.length < maxnamelen → 0x2F#8 ∉ name → 0#8 ∉ name →
        name ∉ files.map (fun file => baseName file.path) →
        ∃ s', fileOpen name s = some (.error (-eNotFound), s') ∧ Serving v s' := by
  have hshort :
    ShortNames files := fun file hfile => Nat.lt_trans (hnames.short file hfile) (by decide)
  have h := format_formatted hshort hsome hformat
  have hn := format_le hformat
  refine ⟨h.fsInit hn hboot, fun s hs =>
    ⟨fun file hfile => ?_, fun name hne hlen hslash _ hno => ?_⟩⟩
  · obtain ⟨k, hk⟩ := List.mem_iff_getElem?.mp hfile
    obtain ⟨s', hopen, hs', -⟩ := h.fileOpen hn (looking_serving v s) (hnames.pos file hfile)
      (hnames.short file hfile) slash_not_mem_baseName s ⟨hs, fun _ _ => rfl⟩
    rw [h.lookup_found hn hnames hk] at hopen
    exact ⟨entryAddr files k, s', hopen, hs', fun t buf ht hbuf => h.fileRead hn hk ht hbuf⟩
  · obtain ⟨s', hopen, hs', -⟩ :=
      h.fileOpen hn (looking_serving v s) hne hlen hslash s ⟨hs, fun _ _ => rfl⟩
    rw [h.lookup_missing hn hnames hne fun file hfile heq =>
      hno (List.mem_map.mpr ⟨file, hfile, heq⟩)] at hopen
    exact ⟨s', hopen, hs'⟩

/-- The file `a` with the byte `1` in it, written and read back. -/
theorem format_served_one :
    ∃ v s₀ s₁ f s₂ s₃, format 8 [⟨[0x61#8], [0x31#8]⟩] (fun _ => 0xAB#8) = some v ∧ Booting v s₀ ∧
      fsInit s₀ = some ((), s₁) ∧ fileOpen [0x61#8] s₁ = some (.ok f, s₂) ∧
      fileRead f 0x2000 1#32 0#32 s₂ = some (1, s₃) ∧ s₃.mem 0x2000 = 0x31#8 := by
  have hsome : (format 8 [⟨[0x61#8], [0x31#8]⟩] fun _ => 0xAB#8).isSome = true := by decide
  obtain ⟨v, hv⟩ := Option.isSome_iff_exists.mp hsome
  have hnames : GoodNames [⟨[0x61#8], [0x31#8]⟩] := by
    constructor
    all_goals decide
  let s₀ : Server := ⟨fun _ => 0#8, fun _ => 0#32, v, false, false, []⟩
  have hno : ¬ has 0#32 pteP := by decide
  have hboot : Booting v s₀ := ⟨rfl, rfl, fun _ _ => rfl, fun _ _ hm => hno hm⟩
  obtain ⟨⟨s₁, hinit, hs₁⟩, hserve⟩ :=
    format_served 8 _ (fun _ => 0xAB#8) v s₀ hv (by simp) hnames hboot
  obtain ⟨f, s₂, hopen, hs₂, hread⟩ := (hserve s₁ hs₁).1 _ (List.mem_singleton.mpr rfl)
  obtain ⟨s₃, hcall, -, hbyte⟩ := hread s₂ 0x2000 hs₂ (Or.inl (by decide))
  exact ⟨v, s₀, s₁, f, s₂, s₃, hv, hboot, hinit, hopen, hcall, hbyte 0 (by decide)⟩

end LinuxStudy.Fs
