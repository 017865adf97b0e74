import LinuxStudy.Fs.Growth

/-!
# Block ownership

Each call of `fs/fs.c` works on files of the tree it finds. It keeps the files of the tree and
every block pointer a pointer of its own, unless a block comes into a directory with something
in it, or bytes of a directory are stored to as if they were data.
-/

namespace LinuxStudy.Fs

open Jos
open ByteMem Proc

/-! ### The calls -/

/-- The calls of the file system. -/
inductive FsOp
  | fileCreate (path : List Byte)
  | fileOpen (path : List Byte)
  | fileRead (f buf : ℕ) (count offset : Word)
  | fileWrite (f buf : ℕ) (count offset : Word)
  | fileSetSize (f : ℕ) (newsize : Word)
  | fileFlush (f : ℕ)

/-- A call that returns. A file is one of those that `file_open` and `file_create` find. -/
def FsStep (s : Server) (op : FsOp) (s' : Server) : Prop :=
  match op with
  | .fileCreate path => ∃ r, fileCreate path s = some (r, s')
  | .fileOpen path => ∃ r, fileOpen path s = some (r, s')
  | .fileRead f buf count offset => f ∈ tree s.view ∧ ∃ r,
      fileRead f buf count offset s = some (r, s')
  | .fileWrite f buf count offset => f ∈ tree s.view ∧ ∃ r,
      fileWrite f buf count offset s = some (r, s')
  | .fileSetSize f newsize => f ∈ tree s.view ∧ ∃ r, fileSetSize f newsize s = some (r, s')
  | .fileFlush f => f ∈ tree s.view ∧ ∃ r, fileFlush f s = some (r, s')

/-- What a call brings into a directory holds zeros, the entries that `file_create` may take have no
    block pointers, `file_read` has a buffer outside the disk map, and `file_write` and
    `file_set_size` are for files that are not directories, from an offset that is not negative. -/
def Careful (v : ByteMem) : FsOp → Prop
  | .fileCreate _ => Spotless v
  | .fileOpen _ => NoStaleHoles v
  | .fileRead f buf count _ => OffMap buf count.toNat ∧ (f ∈ dirs v → NoStaleHoles v)
  | .fileWrite f _ _ offset => f ∉ dirs v ∧ 0 ≤ offset.toInt
  | .fileSetSize f _ => f ∉ dirs v
  | .fileFlush _ => True

/-- What a call does to the files. -/
def Effect (v : ByteMem) (op : FsOp) (v' : ByteMem) : Prop :=
  match op with
  | .fileCreate _ =>
    (∃ L, Stretch v L ∧ Grown (tree v) (dirs v) (inDirs (dirs v) L) L v v') ∨
      ∃ L w dir n j e, Named L v w dir n j e v'
  | .fileOpen _ => Looked v v'
  | .fileRead f _ count offset =>
    ∀ N, (offset.toInt < (sizes v f).toInt →
        ∀ pos : Word, pos < offset + minu count (sizes v f - offset) →
        (pos.sdiv 4096#32).toNat < N) →
      Grown (tree v) (dirs v) (fun g n => g = f ∧ n < N) (sizes v) v v'
  | .fileWrite f _ _ _ | .fileSetSize f _ => f ∈ tree v ∧ f ∉ dirs v ∧ Kept (tree v) (dirs v) f v v'
  | .fileFlush _ => v' = v

section Steps

variable {s s' : Server} {op : FsOp}

/-- Ownership holds between two calls. -/
def Good (s : Server) : Prop := Up s ∧ Owned s.view

/-- What a call does and what it leaves. -/
structure Outcome (s : Server) (op : FsOp) (s' : Server) : Prop where
  good : Good s'
  tree_le : tree s.view ⊆ tree s'.view
  type : ∀ f ∈ tree s.view, s'.view.word (fType f) = s.view.word (fType f)
  effect : Effect s.view op s'.view

theorem Good.ownOn (h : Good s) : OwnOn (tree s.view) (dirs s.view) s.view := h.2.ownOn h.1.mounted

theorem Live.outcome {B : ℕ → ℕ → Prop} {L : ℕ → Word}
    (hl : Live (Grown (tree s.view) (dirs s.view) B L s.view) s') (hs : Stretch s.view L)
    (hfresh : Fresh s.view s'.view) (heff : Effect s.view op s'.view) : Outcome s op s' :=
  ⟨⟨⟨hl.super, hl.inv.own.mounted⟩, hl.inv.owned hfresh⟩, hl.inv.tree_le hs, hl.inv.type, heff⟩

variable {path : List Byte} {r : Except Int ℕ} {f buf : ℕ} {count offset : Word} {v₀ : ByteMem}
  {S D : Set ℕ}

/-- What `file_create` does: an error, with blocks added to the directories, or a new name. -/
theorem fileCreate_cases (hgood : Good s)
    (hholes : NoStaleHoles s.view) (h : fileCreate path s = some (r, s')) :
    (∃ err L, r = .error err ∧ Stretch s.view L ∧
      Live (Grown (tree s.view) (dirs s.view) (inDirs (dirs s.view) L) L s.view) s') ∨
    ∃ e L w dir n j, r = .ok e ∧ s'.super = true ∧ Named L s.view w dir n j e s'.view ∧
      ((∀ b ∈ path, b ≠ 0#8) → s'.view e ≠ 0#8) := by
  obtain ⟨w, s1, hpath, h⟩ := bind_eq_some.mp h
  obtain ⟨hl1, _, hmiss⟩ := walkPath_looked hgood.ownOn hgood.1.super hholes hpath
  cases w with
  | found | error =>
    cases h
    exact .inl ⟨_, _, rfl, .inl rfl, hl1⟩
  | missing dir name =>
    obtain ⟨hdir, hlen, hname⟩ := hmiss dir name rfl
    obtain ⟨o, s2, halloc, h⟩ := bind_eq_some.mp h
    obtain ⟨L, hstretch, hl2, hok⟩ := dirAllocFile_grown hl1 hdir halloc
    cases o with
    | error e =>
      cases h
      exact .inl ⟨_, L, rfl, hstretch, hl2⟩
    | ok e =>
      simp only [bind_eq_some, pure_eq_some] at h
      obtain ⟨_, s3, hcpy, _, s4, hflush, rfl, rfl⟩ := h
      have hcpy := store_shows hcpy
      obtain ⟨n, j, hentry, hlt, hunused⟩ := hok e rfl
      have hnamed : Named L s.view s2.view dir n j e s3.view := by
        refine ⟨hstretch, hl2.inv, hdir, hentry, hlt, hunused, ?_⟩
        rw [hcpy.view]
        exact hentry.name_edit hlen fun x => name.getD (x - e) 0#8
      have hsuper3 := hcpy.super.trans hl2.super
      have hflush := fileFlush_shows hsuper3 hnamed.own.sized (hnamed.own.sRoot_le hdir.1) hflush
      rw [← hflush.view] at hnamed
      refine .inr ⟨e, L, _, dir, n, j, rfl, hflush.super.trans hsuper3, hnamed, fun hbytes => ?_⟩
      -- the name is not empty, and its first byte is one of the path
      cases name with
      | nil => exact absurd rfl (components_ne_nil hname)
      | cons c cs =>
        rw [hflush.view, hcpy.view, overwrite_in (le_refl e) (by simp), Nat.sub_self]
        exact hbytes c (mem_of_components hname List.mem_cons_self)

theorem fileCreate_outcome (hgood : Good s)
    (hc : Careful s.view (.fileCreate path)) (h : fileCreate path s = some (r, s')) :
    Outcome s (.fileCreate path) s' := by
  rcases fileCreate_cases hgood hc.holes h with
    ⟨_, L, _, hs, hl⟩ | ⟨e, L, w, dir, n, j, rfl, hsuper, hnamed, _⟩
  · exact hl.outcome hs (hl.inv.fresh_of_stretch hs hc) (.inl ⟨L, hs, hl.inv⟩)
  · exact ⟨⟨⟨hsuper, hnamed.own.mounted⟩, hnamed.owned (hnamed.fresh hc) (hnamed.no_pointers hc)⟩,
      hnamed.tree_le, fun f hf => hnamed.type hf, .inr ⟨L, _, dir, n, j, e, hnamed⟩⟩

theorem fileOpen_outcome (hgood : Good s)
    (hc : Careful s.view (.fileOpen path)) (h : fileOpen path s = some (r, s')) :
    Outcome s (.fileOpen path) s' ∧ ∀ f, r = .ok f → f ∈ tree s.view := by
  obtain ⟨w, s1, hpath, h⟩ := bind_eq_some.mp h
  obtain ⟨hl1, hfound, _⟩ := walkPath_looked hgood.ownOn hgood.1.super hc hpath
  have hout : Outcome s (.fileOpen path) s1 :=
    hl1.outcome (.inl rfl) (hl1.inv.fresh_of_holes hc) hl1.inv
  cases w with
  | found d f =>
    cases h
    refine ⟨hout, fun g hg => ?_⟩
    cases hg
    exact hfound d f rfl
  | missing | error =>
    cases h
    exact ⟨hout, nofun⟩

/-- What `file_read` adds to a directory fills holes. -/
theorem fileRead_fresh {v v' : ByteMem} (hc : Careful v (.fileRead f buf count offset))
    (hg : ∀ N, (offset.toInt < (sizes v f).toInt →
        ∀ pos : Word, pos < offset + minu count (sizes v f - offset) →
        (pos.sdiv 4096#32).toNat < N) →
      Grown (tree v) (dirs v) (fun g n => g = f ∧ n < N) (sizes v) v v') : Fresh v v' := by
  have hg := hg (2 ^ 32) fun _ _ _ => BitVec.isLt _
  by_cases hf : f ∈ dirs v
  · exact hg.fresh_of_holes (hc.2 hf)
  · intro d hd n hlen hn _
    have hdf : d ≠ f := ne_of_mem_of_not_mem hd hf
    refine .inl ⟨(hg.slots d hd.1 n hn fun h => hdf h.1).symm, ?_⟩
    rw [dirLen, hg.size d hd.1] at hlen
    exact hlen

theorem fileRead_outcome {r : Int} (hgood : Good s) (hf : f ∈ tree s.view)
    (hc : Careful s.view (.fileRead f buf count offset))
    (h : fileRead f buf count offset s = some (r, s')) :
    Outcome s (.fileRead f buf count offset) s' := by
  have hown := hgood.ownOn
  have hgrown : ∀ N, (offset.toInt < (sizes s.view f).toInt → ∀ pos : Word,
      pos < offset + minu count (sizes s.view f - offset) → (pos.sdiv 4096#32).toNat < N) →
      Live (Grown (tree s.view) (dirs s.view) (fun g n => g = f ∧ n < N) (sizes s.view) s.view)
      s' := by
    intro N hN
    have hw : Walkable (Edit.Adds (tree s.view) fun g n => g = f ∧ n < N)
        (Grown (tree s.view) (dirs s.view) (fun g n => g = f ∧ n < N) (sizes s.view) s.view) f N :=
      Grown.walkable hf (hown.sRoot_le hf) fun n hn => ⟨rfl, hn⟩
    have hl :
        Live (Grown (tree s.view) (dirs s.view) (fun g n => g = f ∧ n < N) (sizes s.view) s.view)
        s :=
      ⟨hgood.1.super, .refl hown⟩
    obtain ⟨ms, hmoved⟩ := fileRead_made hw (fun _ _ => trivial) hl hc.1 hN h
    exact hmoved.live hw.closed hl
  exact (hgrown (2 ^ 32) fun _ _ _ => BitVec.isLt _).outcome (.inl rfl)
    (fileRead_fresh hc fun N hN => (hgrown N hN).inv) fun N hN => (hgrown N hN).inv

theorem Live.outcome_private (hl : Live (Kept (tree s.view) (dirs s.view) f s.view) s')
    (hf : f ∈ tree s.view) (hD : f ∉ dirs s.view) (heff : Effect s.view op s'.view) :
    Outcome s op s' :=
  ⟨⟨⟨hl.super, hl.inv.own.mounted⟩, hl.inv.owned hf hD⟩, hl.inv.tree_le hf hD, hl.inv.type, heff⟩

theorem fileSetSize_kept {newsize : Word} {r : Int} (hf : f ∈ S)
    (hD : f ∉ D) (hl : Live (Kept S D f v₀) s) (h : fileSetSize f newsize s = some (r, s')) :
    Live (Kept S D f v₀) s' := by
  have hclosed := Kept.closed hf hD v₀
  obtain ⟨_, hmade⟩ := fileSetSize_made hclosed hl.super (hl.inv.own.sRoot_le hf) hl.inv
    (fun _ _ _ _ => rfl) (fun _ _ => rfl) rfl h
  exact hmade.live hclosed hl

theorem Kept.writable {N : ℕ} (hf : f ∈ S) (hD : f ∉ D) (hle : sRoot ≤ f) :
    Writable (Edit.Private f) (Kept S D f v₀) f N where
  closed := Kept.closed hf hD v₀
  anchored := fun v n b v' h he => OwnOn.anchored hf v n b v' h.own he
  root_le := hle
  indirect := fun _ _ _ _ => rfl
  data := fun _ _ _ => rfl
  write := fun _ _ => rfl

theorem nonneg_lt {x : Word} (h : 0 ≤ x.toInt) : x.toNat < 2 ^ 31 := by
  rw [BitVec.toInt_eq_toNat_cond] at h
  split at h <;> omega

theorem fileWrite_kept {r : Int} (hf : f ∈ S) (hD : f ∉ D) (hoff : 0 ≤ offset.toInt)
    (hl : Live (Kept S D f v₀) s)
    (h : fileWrite f buf count offset s = some (r, s')) : Live (Kept S D f v₀) s' := by
  obtain ⟨s1, s2, o, hfill, hset, hloop, _⟩ := fileWrite_cases h
  have hw : Writable (Edit.Private f) (Kept S D f v₀) f (2 ^ 32) :=
    Kept.writable hf hD (hl.inv.own.sRoot_le hf)
  have hl1 : Live (Kept S D f v₀) s1 := (Made.of_fills hfill).live hw.closed hl
  have hl2 : Live (Kept S D f v₀) s2 := by
    rcases hset with ⟨_, q, hcall⟩ | ⟨_, rfl⟩
    · exact fileSetSize_kept hf hD hl1 hcall
    · exact hl1
  obtain ⟨ms, hmoved⟩ := writeLoop_made hw hl2 (nonneg_lt hoff) (fun pos _ hpos => by omega) hloop
  exact hmoved.live hw.closed hl2

theorem fileFlush_outcome {u : Unit} (hgood : Good s) (hf : f ∈ tree s.view)
    (h : fileFlush f s = some (u, s')) : Outcome s (.fileFlush f) s' := by
  have hown := hgood.ownOn
  have hshows := fileFlush_shows hgood.1.super hown.sized (hown.sRoot_le hf) h
  refine ⟨⟨⟨hshows.super.trans hgood.1.super, ?_⟩, ?_⟩, ?_, fun g _ => ?_, hshows.view⟩ <;>
    rw [hshows.view]
  · exact hown.mounted
  · exact hgood.2

theorem fsStep_outcome (hgood : Good s) (hstep : FsStep s op s') (hc : Careful s.view op) :
    Outcome s op s' := by
  have hown := hgood.ownOn
  have hl : ∀ f, Live (Kept (tree s.view) (dirs s.view) f s.view) s := fun f =>
    ⟨hgood.1.super, .refl hown⟩
  cases op with
  | fileCreate path =>
    obtain ⟨r, h⟩ := hstep
    exact fileCreate_outcome hgood hc h
  | fileOpen path =>
    obtain ⟨r, h⟩ := hstep
    exact (fileOpen_outcome hgood hc h).1
  | fileRead f buf count offset =>
    obtain ⟨hf, r, h⟩ := hstep
    exact fileRead_outcome hgood hf hc h
  | fileWrite f buf count offset =>
    obtain ⟨hf, r, h⟩ := hstep
    have hkept := fileWrite_kept hf hc.1 hc.2 (hl f) h
    exact hkept.outcome_private hf hc.1 ⟨hf, hc.1, hkept.inv⟩
  | fileSetSize f newsize =>
    obtain ⟨hf, r, h⟩ := hstep
    have hkept := fileSetSize_kept hf hc (hl f) h
    exact hkept.outcome_private hf hc ⟨hf, hc, hkept.inv⟩
  | fileFlush f =>
    obtain ⟨hf, r, h⟩ := hstep
    exact fileFlush_outcome hgood hf h

end Steps

/-! ### A disk with an empty root directory -/

def blankDisk : ByteMem := fun _ => 0#8

/-- Four blocks. The root directory is empty, and block 3 is free. -/
def smallDisk : ByteMem :=
  (((blankDisk.putWord (diskmap + blksize) fsMagic).putWord sNblocks 4#32).putWord
    (fType sRoot) ftypeDir).putWord (bitmapAddr 0#32) 8#32

/-- Block 3 has bytes of an earlier use: where a directory would have its second entry, a name
    and a first block pointer 1. -/
def staleDisk : ByteMem :=
  (smallDisk.putWord (diskmap + 3 * blksize + 256) 0x78#32).putWord
    (fDirect (diskmap + 3 * blksize + 256) 0) 1#32

/-- The server on a disk, with block 1 in the cache. -/
def serverOn (disk : ByteMem) : Server where
  mem := disk
  uvpt pn := if pn = sNblocks / 4096 then pteP ||| pteU ||| pteW else 0#32
  disk := disk
  super := true
  bitmap := true
  moves := []

section SmallDisk

variable {v : ByteMem} {f : ℕ}

theorem view_serverOn (disk : ByteMem) : (serverOn disk).view = disk := by
  funext a
  rw [Server.view]
  split <;> rfl

theorem tree_of_empty (h : dirLen v sRoot = 0) (hf : f ∈ tree v) : f = sRoot := by
  refine tree_sub (S := {sRoot}) rfl (fun d hd e he => ?_) hf
  obtain rfl : d = sRoot := hd
  obtain ⟨_, n, j, hn, _⟩ := he
  omega

theorem owned_of_empty (h : dirLen v sRoot = 0)
    (hdirect : ∀ n < ndirect, v.word (fDirect sRoot n) = 0#32)
    (hind : v.word (fIndirect sRoot) = 0#32) : Owned v := by
  have hzero : ∀ f ∈ tree v, ∀ p, target v f p = 0#32 := by
    intro f hf p
    rw [tree_of_empty h hf]
    exact target_zero hdirect hind p
  exact ⟨fun f hf p _ hne => absurd (hzero f hf p) hne, fun f hf p _ _ _ _ _ hne =>
    absurd (hzero f hf p) hne⟩

theorem up_serverOn {disk : ByteMem} (hn : 0 < (disk.word sNblocks).toNat ∧
    (disk.word sNblocks).toNat ≤ 32768)
    (hbit : ∀ b < 3, ¬ has (disk.word (bitmapAddr 0#32)) (1#32 <<< b)) : Up (serverOn disk) := by
  refine ⟨rfl, ?_⟩
  rw [view_serverOn]
  refine ⟨?_, fun b hb hfree => ?_⟩
  · simp only [Sized, disksize, blksize]
    omega
  · have hb : b.toNat ≤ 2 := by
      rw [lastBitmap] at hb
      omega
    have haddr : bitmapAddr b = bitmapAddr 0#32 := by
      rw [bitmapAddr, bitmapAddr, show b.toNat / 32 = 0 by omega]
      rfl
    obtain ⟨_, hfree⟩ := hfree
    rw [haddr, bitmapBit, Nat.mod_eq_of_lt (by omega)] at hfree
    exact hbit b.toNat (by omega) hfree

theorem smallDisk_owned : Owned (serverOn smallDisk).view := by
  exact owned_of_empty (by decide) (by decide) (by decide)

theorem smallDisk_zero {x : ℕ} (hx : InBlock 3#32 x) : smallDisk x = 0#8 := by
  rw [InBlock, show blkaddr 3#32 = 0x10003000 by decide] at hx
  simp only [smallDisk, ByteMem.putWord, diskmap, blksize, sNblocks, fType, sRoot, bitmapAddr] at *
  rw [overwrite_out (by simp; omega), overwrite_out (by omega),
    overwrite_out (by omega), overwrite_out (by omega)]
  rfl

theorem smallDisk_free {t : Word} (h : IsFree smallDisk t) : t = 3#32 := by
  obtain ⟨hlt, hbit⟩ := h
  have hlt' : t.toNat < 4 := hlt
  have haddr : bitmapAddr t = bitmapAddr 0#32 := by
    rw [bitmapAddr_inj]
    simp only [BitVec.toNat_ofNat, Nat.reducePow, Nat.reduceMod]
    omega
  rw [haddr, show smallDisk.word (bitmapAddr 0#32) =
    8#32 by decide, bitmapBit, Nat.mod_eq_of_lt (by omega)] at hbit
  refine BitVec.eq_of_toNat_eq ?_
  generalize t.toNat = k at hlt' hbit
  obtain rfl | rfl | rfl | rfl : k = 0 ∨ k = 1 ∨ k = 2 ∨ k = 3 := by omega
  · exact absurd hbit (by decide)
  · exact absurd hbit (by decide)
  · exact absurd hbit (by decide)
  · rfl

theorem smallDisk_blank : FreeBlank smallDisk := by
  intro t ht x hx
  rw [smallDisk_free ht] at hx
  exact smallDisk_zero hx

/-- A root directory without blocks is spotless if the free blocks hold zeros. -/
theorem spotless_of_empty (hlen : dirLen v sRoot = 0)
    (hdirect : ∀ n < ndirect, v.word (fDirect sRoot n) = 0#32)
    (hind : v.word (fIndirect sRoot) = 0#32) (hblank : FreeBlank v) : Spotless v := by
  have hroot : ∀ d ∈ dirs v, d = sRoot := fun d hd => tree_of_empty hlen hd.1
  refine ⟨fun d hd n hn => ?_, fun d hd _ _ =>
    ⟨fun _ => hblank, fun hne => ?_⟩, fun d hd n hn => ?_⟩
  · rw [hroot d hd] at hn
    omega
  · rw [hroot d hd] at hne
    exact absurd (target_zero hdirect hind _) hne
  · rw [hroot d hd] at hn
    omega

end SmallDisk

/-- **Block ownership.** Every sequence of calls that meet the condition keeps it. -/
theorem block_ownership {s₀ s : Server} {ops : List FsOp} (hup : Up s₀) (h0 : Owned s₀.view)
    (hrun : Run (fun s op s' => FsStep s op s' ∧ Careful s.view op) s₀ ops s) : Owned s.view :=
  (hrun.invariant Good ⟨hup, h0⟩ fun _ _ _ hgood hstep =>
    (fsStep_outcome hgood hstep.1 hstep.2).good).2

theorem block_ownership_create : ∃ s', Run (fun s op s' => FsStep s op s' ∧ Careful s.view op)
    (serverOn smallDisk) [.fileCreate [0x61#8]] s' ∧ Owned s'.view := by
  obtain ⟨⟨r, s'⟩, hrun⟩ := Option.isSome_iff_exists.mp
    (show (fileCreate [0x61#8] (serverOn smallDisk)).isSome by decide)
  have hcareful : Careful (serverOn smallDisk).view (.fileCreate [0x61#8]) := by
    rw [view_serverOn]
    exact spotless_of_empty (by decide) (by decide) (by decide) smallDisk_blank
  have hsteps := Run.single (R := fun s op s' => FsStep s op s' ∧ Careful s.view op)
    (s := serverOn smallDisk) (i := .fileCreate [0x61#8]) ⟨⟨r, hrun⟩, hcareful⟩
  exact ⟨s', hsteps, block_ownership (up_serverOn (by decide) (by decide)) smallDisk_owned hsteps⟩

/-- The root directory has got block 3, whose second entry is a file with block 1. -/
def SecondEntryShown (v : ByteMem) : Prop :=
  v.word (fType sRoot) = ftypeDir ∧ 0 < dirLen v sRoot ∧ target v sRoot (.data 0) = 3#32 ∧
    v (blkaddr 3#32 + 256) ≠ 0#8 ∧ target v (blkaddr 3#32 + 256) (.data 0) = 1#32

instance (v : ByteMem) : Decidable (SecondEntryShown v) := inferInstanceAs (Decidable (_ ∧ _))

/-- **`file_create` of a file in the empty root directory** extends the directory by a block as it
    is, and with it come a file of an earlier use and its block pointer to the superblock. -/
theorem create_claims_superblock : Up (serverOn staleDisk) ∧ Owned (serverOn staleDisk).view ∧
    ∃ s', FsStep (serverOn staleDisk) (.fileCreate [0x61#8]) s' ∧ ¬ Owned s'.view := by
  refine ⟨up_serverOn (by decide) (by decide), ?_, ?_⟩
  · rw [view_serverOn]
    exact owned_of_empty (by decide) (by decide) (by decide)
  · obtain ⟨⟨r, s'⟩, hrun, htype, hlen, htgt, hname, hptr⟩ :
        ∃ p ∈ fileCreate [0x61#8] (serverOn staleDisk), SecondEntryShown p.2.view := by decide
    refine ⟨s', ⟨r, hrun⟩, fun howned => ?_⟩
    have hmem : blkaddr 3#32 + 256 ∈ tree s'.view := by
      refine (root_mem_tree _).tail ⟨htype, 0, 1, hlen, by decide, by decide, ?_, ?_, hname⟩
      · rw [htgt]
        decide
      · rw [htgt]
    have hrange := (howned.range _ hmem (.data 0) (show 0 < ndirect + nindirect by decide)
      (by rw [hptr]; decide)).1
    rw [hptr] at hrange
    have := one_le_lastBitmap (v := s'.view)
    simp at hrange
    omega

end LinuxStudy.Fs
