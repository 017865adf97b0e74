import LinuxStudy.Fs.Ownership

/-!
# A disk with one file

Disks whose root directory has one block with one entry, which is an empty file: their blocks are
owned. The examples of the calls on files and of the requests start from such a disk.
-/

namespace LinuxStudy.Fs

open Jos

/-- The server after `fs_init`. -/
structure Settled (s : Server) : Prop extends Up s where
  one : s.Mapped (sNblocks / 4096)

/-- The root directory has block 3, with one entry, which is an empty file. -/
def OneFile (v : ByteMem) : Prop :=
  v.word (fType sRoot) = ftypeDir ∧ v.word (fSize sRoot) = 4096#32 ∧
    (∀ n < ndirect, v.word (fDirect sRoot n) = if n = 0 then 3#32 else 0#32) ∧
    v.word (fIndirect sRoot) = 0#32 ∧ (∀ j < blkfiles, v (blkaddr 3#32 + 256 * j) ≠ 0#8 ↔ j = 0) ∧
    v.word (fType (blkaddr 3#32)) ≠ ftypeDir ∧
    (∀ n < ndirect, v.word (fDirect (blkaddr 3#32) n) = 0#32) ∧
    v.word (fIndirect (blkaddr 3#32)) = 0#32 ∧ 3#32 < v.word sNblocks ∧
    (v.word sNblocks).toNat ≤ 32768 ∧ ¬ IsFree v 3#32

instance (v : ByteMem) : Decidable (OneFile v) := inferInstanceAs (Decidable (_ ∧ _))

section OneFile

variable {v : ByteMem} {f : ℕ}

theorem OneFile.root_target (h : OneFile v) (p : Ptr) :
    target v sRoot p = if p = .data 0 then 3#32 else 0#32 := by
  obtain ⟨_, _, hdirect, hind, _⟩ := h
  cases p with
  | indirect => exact hind
  | data n =>
    rw [target, if_pos hind]
    split
    · next hn => simp [hdirect n hn]
    · next hn => exact (if_neg fun hno => hn (by rw [Ptr.data.inj hno]; decide)).symm

theorem OneFile.tree_cases (h : OneFile v) (hf : f ∈ tree v) : f = sRoot ∨ f = blkaddr 3#32 := by
  have htgt := h.root_target
  obtain ⟨_, hsize, _, _, hname, htype, _⟩ := h
  refine tree_sub (S := {sRoot, blkaddr 3#32}) (.inl rfl) (fun d hd e he => ?_) hf
  obtain ⟨hdir, n, j, hlen, _, hj, _, rfl, hbyte⟩ := he
  rcases hd with rfl | rfl
  · rw [dirLen, hsize] at hlen
    obtain rfl : n = 0 := by
      have : ((4096#32 : Word).sdiv 4096#32).toNat = 1 := by decide
      omega
    rw [htgt, if_pos rfl] at hbyte ⊢
    obtain rfl := (hname j hj).mp hbyte
    exact .inr rfl
  · exact absurd hdir htype

theorem OneFile.mem_tree (h : OneFile v) : blkaddr 3#32 ∈ tree v := by
  have htgt := h.root_target (.data 0)
  obtain ⟨htype, hsize, _, _, hname, _⟩ := h
  rw [if_pos rfl] at htgt
  refine (root_mem_tree v).tail ⟨htype, 0, 0, ?_, by decide, by decide, ?_, ?_, ?_⟩
  · rw [dirLen, hsize]
    decide
  · rw [htgt]
    decide
  · rw [htgt, Nat.mul_zero, Nat.add_zero]
  · exact (hname 0 (by decide)).mpr rfl

theorem OneFile.not_dir (h : OneFile v) : blkaddr 3#32 ∉ dirs v := fun hno => h.2.2.2.2.2.1 hno.2

/-- Of all block pointers only the first one of the root directory is not zero. -/
theorem OneFile.owned (h : OneFile v) : Owned v := by
  have honly : ∀ f ∈ tree v, ∀ p, target v f p ≠ 0#32 → f = sRoot ∧ p = .data 0 ∧
      target v f p = 3#32 := by
    intro f hf p hne
    rcases h.tree_cases hf with rfl | rfl
    · rw [h.root_target] at hne ⊢
      split at hne
      · next hp => exact ⟨rfl, hp, if_pos hp⟩
      · exact absurd rfl hne
    · exact absurd (target_zero h.2.2.2.2.2.2.1 h.2.2.2.2.2.2.2.1 p) hne
  obtain ⟨_, _, _, _, _, _, _, _, hlt, hle, hused⟩ := h
  refine ⟨fun f hf p _ hne => ?_, fun f hf p _ g hg q _ hne heq => ?_⟩
  · obtain ⟨_, _, htgt⟩ := honly f hf p hne
    rw [htgt]
    refine ⟨?_, hlt, hused⟩
    rw [lastBitmap]
    simp only [BitVec.toNat_ofNat]
    omega
  · have hne' : target v g q ≠ 0#32 := by
      rw [← heq]
      exact hne
    obtain ⟨rfl, rfl, _⟩ := honly f hf p hne
    obtain ⟨rfl, rfl, _⟩ := honly g hg q hne'
    exact ⟨rfl, rfl⟩

end OneFile

/-- A disk of up to 32 blocks, with the number of blocks, the bitmap and the size of the file. Block
    3 has the root directory. -/
def diskWith (nblocks bitmap size : Word) : ByteMem :=
  (((((((blankDisk.putWord (diskmap + blksize) fsMagic).putWord sNblocks nblocks).putWord
    (fType sRoot) ftypeDir).putWord (fSize sRoot) 4096#32).putWord (fDirect sRoot 0) 3#32).putWord
      (bitmapAddr 0#32) bitmap).putWord (blkaddr 3#32) 0x61#32).putWord (fSize (blkaddr 3#32)) size

/-- Five blocks, of which block 4 is free, and an empty file. -/
def fileDisk : ByteMem := diskWith 5#32 16#32 0#32

theorem fileDisk_oneFile : OneFile (serverOn fileDisk).view := by
  decide

theorem fileDisk_settled : Settled (serverOn fileDisk) :=
  ⟨up_serverOn (by decide) (by decide), by decide⟩

end LinuxStudy.Fs
