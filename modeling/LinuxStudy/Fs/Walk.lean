import LinuxStudy.Fs.Steady
import LinuxStudy.Fs.Tree

/-!
# What reading, writing and searching do to the disk

The loops of `fs/fs.c` over the blocks of a file, in terms of the changes of `Edits`. Each call
of `memmove` is a change too, and is kept in the log of the server.
-/

namespace LinuxStudy.Fs

open Jos
open Proc (bind_eq_some pure_eq_some)
open Proc
open BitVec (sdiv_eq toNat_udiv srem_eq toNat_umod lt_def toNat_sub toNat_ofNat le_def toNat_add
  toNat_neg)

/-! ### Files that are walked -/

/-- `super` is set, and the invariant holds for what the server sees. -/
structure Live (I : ByteMem → Prop) (s : Server) : Prop where
  super : s.super = true
  inv : I s.view

/-- The blocks below `N` that `file_get_block` adds to `f` are changes of kind `K`, which
    preserve `I`. -/
structure Walkable (K : Edit → Prop) (I : ByteMem → Prop) (f N : ℕ) : Prop where
  closed : Closed K I
  anchored : Anchored I f
  root_le : sRoot ≤ f
  indirect : ∀ n < N, ndirect ≤ n → ∀ b, K (.indirect f b)
  data : ∀ n < N, ∀ b, K (.data f n b)

/-- So are the changes of `file_write`. -/
structure Writable (K : Edit → Prop) (I : ByteMem → Prop) (f N : ℕ) :
    Prop extends Walkable K I f N where
  write : ∀ n < N, K (.write f n)

/-- Changes of kind `K`, with the calls of `memmove` among them. -/
def Moved (K : Edit → Prop) (ms : List Move) (s s' : Server) : Prop :=
  Made K { s with moves := s.moves ++ ms } s'

section Moved

variable {K : Edit → Prop} {I : ByteMem → Prop} {s s' s'' : Server} {ms ms' : List Move} {u : Unit}
  {f n : ℕ}

theorem Made.live (h : Made K s s') (hc : Closed K I) (hl : Live I s) : Live I s' :=
  ⟨h.shows.super.trans hl.super, h.inv hc hl.inv⟩

theorem Made.relog (h : Made K s s') (l : List Move) :
    Made K { s with moves := l } { s' with moves := l } := by
  obtain ⟨hshows, hedits⟩ := h
  exact ⟨⟨hshows.view, hshows.super, hshows.bitmap, rfl, hshows.mapped, hshows.coherent⟩, hedits⟩

theorem Made.moved (h : Made K s s') : Moved K [] s s' := by
  rw [Moved, List.append_nil]
  exact h

theorem Moved.log (h : Moved K ms s s') : s'.moves = s.moves ++ ms := h.shows.moves

theorem Moved.live (h : Moved K ms s s') (hc : Closed K I) (hl : Live I s) : Live I s' :=
  Made.live h hc ⟨hl.super, hl.inv⟩

theorem Moved.trans (h : Moved K ms s s') (h' : Moved K ms' s' s'') :
    Moved K (ms ++ ms') s s'' := by
  have hfirst := h.relog (s.moves ++ (ms ++ ms'))
  rw [Moved, h.log, List.append_assoc] at h'
  exact hfirst.trans h'

theorem Moved.inv (h : Moved K ms s s') (hc : Closed K I) (h0 : I s.view) : I s'.view :=
  Made.inv (show Made K { s with moves := s.moves ++ ms } s' from h) hc h0

theorem memmove_ram {dst src : ℕ} (hoff : OffMap dst n) (hK : K (.ram dst n))
    (h : memmove dst src n s = some (u, s')) : Moved K [⟨dst, src, n⟩] s s' :=
  .of_edit (memmove_shows h) (.ram _ hoff) hK

theorem memmove_write {dst src k : ℕ} {t : Word} (hblk : HasBlock s.view f k t)
    (h1 : blkaddr t ≤ dst)
    (h2 : dst + n ≤ blkaddr t + blksize) (hK : K (.write f k))
    (h : memmove dst src n s = some (u, s')) : Moved K [⟨dst, src, n⟩] s s' := by
  obtain ⟨hreach, rfl, hne, hlt⟩ := hblk
  exact .of_edit (memmove_shows h) (.write _ hreach hne hlt h1 h2) hK

theorem Walkable.getBlock {n : Word} {N : ℕ} {r : Except Int ℕ} (hw : Walkable K I f N)
    (hl : Live I s)
    (hn : n.toNat < N) (h : fileGetBlock f n s = some (r, s')) :
    Made K s s' ∧ ∀ blk, r = .ok blk → ∃ t, HasBlock s'.view f n.toNat t ∧ blk = blkaddr t :=
  fileGetBlock_made hw.closed hw.anchored hl.super hw.root_le hl.inv
    (fun b hle => hw.indirect _ hn hle b) (hw.data _ hn) h

end Moved

section Transfer

variable {K : Edit → Prop} {I : ByteMem → Prop} {s s' : Server} {f buf fuel N : ℕ} {stop pos : Word}

theorem sdiv_block (h : pos.toNat < 2 ^ 31) : (pos.sdiv 4096#32).toNat = pos.toNat / 4096 := by
  have hmsb : pos.msb = false := by
    rw [BitVec.msb_eq_false_iff_two_mul_lt]
    omega
  rw [sdiv_eq, hmsb, show (4096#32 : Word).msb = false by decide]
  exact toNat_udiv

theorem srem_block (h : pos.toNat < 2 ^ 31) : (pos.srem 4096#32).toNat = pos.toNat % 4096 := by
  have hmsb : pos.msb = false := by
    rw [BitVec.msb_eq_false_iff_two_mul_lt]
    omega
  rw [srem_eq, hmsb, show (4096#32 : Word).msb = false by decide]
  exact toNat_umod

/-- From a position that is not negative, an iteration stays in one block. -/
theorem chunk_toNat (h : pos.toNat < 2 ^ 31) (hlt : pos < stop) :
    (chunk stop pos).toNat = min (4096 - pos.toNat % 4096) (stop.toNat - pos.toNat) := by
  rw [lt_def] at hlt
  have h1 : (4096#32 - pos.srem 4096#32).toNat = 4096 - pos.toNat % 4096 := by
    rw [toNat_sub, srem_block h]
    simp only [toNat_ofNat]
    omega
  have h2 : (stop - pos).toNat = stop.toNat - pos.toNat := by
    rw [toNat_sub]
    omega
  rw [chunk, minu]
  split
  · next hle =>
    rw [le_def] at hle
    omega
  · next hle =>
    rw [le_def] at hle
    omega

theorem addr_in_block {t : Word} (ht : t.toNat < 786432) (h : pos.toNat < 2 ^ 31) :
    (BitVec.ofNat 32 (blkaddr t) + pos.srem 4096#32).toNat = blkaddr t + pos.toNat % 4096 := by
  rw [toNat_add, srem_block h, toNat_ofNat, blkaddr_lt ht]
  simp only [diskmap, blksize]
  omega

theorem fileRead_made {count offset : Word} {r : Int} (hw : Walkable K I f N)
    (hram : ∀ a n, K (.ram a n))
    (hl : Live I s) (hoff : OffMap buf count.toNat)
    (hN : offset.toInt < (s.view.word (fSize f)).toInt →
      ∀ pos : Word, pos < offset + minu count (s.view.word (fSize f) - offset) →
      (pos.sdiv 4096#32).toNat < N)
    (h : fileRead f buf count offset s = some (r, s')) : ∃ ms, Moved K ms s s' := by
  obtain ⟨size, s1, hload, h⟩ := bind_eq_some.mp h
  obtain ⟨hfill, rfl⟩ := loadw_cases hload
  have hmade1 : Made K s s1 := .of_fills hfill
  split at h
  · cases h
    exact ⟨[], hmade1.moved⟩
  · next hlt =>
    have hN := hN (Int.not_le.mp hlt)
    have hle := minu_le count (s.view.word (fSize f) - offset)
    generalize minu count (s.view.word (fSize f) - offset) = count' at h hN hle
    obtain ⟨o, s2, hloop, h⟩ := bind_eq_some.mp h
    -- `b` is the part of the buffer that is still to be filled
    have hrun := xferLoop_rule
      (fun pos b t => (∃ ms, Moved K ms s t) ∧ buf ≤ b ∧
        b + (offset + count' - pos).toNat ≤ buf + count.toNat)
      (fun e t => ∃ ms, Moved K ms s t)
      (by
        rintro pos b t blk t1 t2 ⟨⟨ms, hmoved⟩, hb, hb'⟩ hlt hget hmove
        have hmade := (hw.getBlock (hmoved.live hw.closed hl) (hN pos hlt) hget).1
        have hn := chunk_le (offset + count') pos
        have hcopy := memmove_ram (K := K) (by simp only [OffMap] at *; omega) (hram _ _) hmove
        refine ⟨⟨_, (hmoved.trans hmade.moved).trans hcopy⟩, by omega, ?_⟩
        rw [chunk_rest]
        omega)
      (by
        rintro pos b t e t1 ⟨⟨ms, hmoved⟩, hb, hb'⟩ hlt hget
        have hmade := (hw.getBlock (hmoved.live hw.closed hl) (hN pos hlt) hget).1
        exact ⟨_, hmoved.trans hmade.moved⟩)
      hloop ⟨⟨[], hmade1.moved⟩, le_refl _, by rw [BitVec.add_comm, BitVec.add_sub_cancel]; omega⟩
    obtain rfl : s2 = s' := by
      cases o <;> exact (pure_eq_some.mp h).2
    rcases hrun with ⟨_, _, _, _, hmoved, _⟩ | ⟨_, _, hmoved⟩ <;> exact hmoved

theorem HasBlock.toNat_lt {v : ByteMem} {n : ℕ} {t : Word} (h : HasBlock v f n t) (hs : Sized v) :
    n < 1034 ∧ t.toNat < 786432 := by
  obtain ⟨⟨hn, _⟩, _, _, hlt⟩ := h
  rw [lt_def] at hlt
  have hs : (v.word sNblocks).toNat ≤ 786432 := hs
  exact ⟨hn, by omega⟩

theorem write_step {b : ℕ} {blk : ℕ} {s1 s2 : Server} (hw : Writable K I f N) (hl : Live I s)
    (hpos : pos.toNat < 2 ^ 31) (hlt : pos < stop) (hN : pos.toNat / 4096 < N)
    (hget : fileGetBlock f (pos.sdiv 4096#32) s = some (.ok blk, s1))
    (hmove : memmove (BitVec.ofNat 32 blk + pos.srem 4096#32).toNat b (chunk stop pos).toNat s1 =
      some ((), s2)) :
    (pos + chunk stop pos).toNat < 2 ^ 31 ∧ ∃ t, HasBlock s1.view f (pos.toNat / 4096) t ∧
      Moved K [⟨blkaddr t + pos.toNat % 4096, b, (chunk stop pos).toNat⟩] s s2 := by
  obtain ⟨hmade, hok⟩ := hw.toWalkable.getBlock hl (by rw [sdiv_block hpos]; exact hN) hget
  obtain ⟨t, hblk, rfl⟩ := hok blk rfl
  rw [sdiv_block hpos] at hblk
  have hsized := hw.closed.sized _ (hmade.inv hw.closed hl.inv)
  obtain ⟨hn, ht⟩ := hblk.toNat_lt hsized
  rw [addr_in_block ht hpos] at hmove
  have hchunk := chunk_toNat hpos hlt
  refine ⟨?_, t, hblk, hmade.moved.trans (memmove_write hblk (by omega) ?_ (hw.write _ hN) hmove)⟩
  · rw [toNat_add]
    omega
  · simp only [blksize]
    omega

/-- The loop of `file_write`, from an offset that is not negative, stores into blocks of the
    file. -/
theorem writeLoop_made {offset : Word} {r : Option Int} (hw : Writable K I f N) (hl : Live I s)
    (hoff : offset.toNat < 2 ^ 31)
    (hN : ∀ pos : Word, pos < stop → pos.toNat < 2 ^ 31 → pos.toNat / 4096 < N)
    (h : xferLoop (fun buf blk n => memmove blk buf n) f stop fuel offset buf s = some (r, s')) :
    ∃ ms, Moved K ms s s' := by
  have hrun := xferLoop_rule (fun pos _ t => (∃ ms, Moved K ms s t) ∧ pos.toNat < 2 ^ 31)
    (fun e t => ∃ ms, Moved K ms s t)
    (by
      rintro pos b t blk t1 t2 ⟨⟨ms, hmoved⟩, hpos⟩ hlt hget hmove
      obtain ⟨hpos', w, _, hcopy⟩ := write_step hw (hmoved.live hw.closed hl) hpos hlt
        (hN pos hlt hpos) hget hmove
      exact ⟨⟨_, hmoved.trans hcopy⟩, hpos'⟩)
    (by
      rintro pos b t e t1 ⟨⟨ms, hmoved⟩, hpos⟩ hlt hget
      have hmade := (hw.toWalkable.getBlock (hmoved.live hw.closed hl)
        (by rw [sdiv_block hpos]; exact hN pos hlt hpos) hget).1
      exact ⟨_, hmoved.trans hmade.moved⟩)
    h ⟨⟨[], (Made.of_fills (.refl s)).moved⟩, hoff⟩
  rcases hrun with ⟨_, _, _, _, hmoved, _⟩ | ⟨_, _, hmoved⟩ <;> exact hmoved

end Transfer

/-! ### Directories -/

/-- The string at an address, for a string of nonzero bytes. -/
def NameIs (v : ByteMem) (p : ℕ) : List Byte → Prop
  | [] => v p = 0#8
  | c :: cs => v p ≠ 0#8 ∧ v p = c ∧ NameIs v (p + 1) cs

section Directories

variable {K : Edit → Prop} {I : ByteMem → Prop} {s s' : Server} {dir blk j N : ℕ} {name : List Byte}

theorem strcmpEq_cases {p : ℕ} {r : Bool} (h : strcmpEq p name s = some (r, s')) :
    Fills s s' ∧ (r = true ↔ NameIs s.view p name) := by
  induction name generalizing p s with
  | nil =>
    simp only [strcmpEq, bind_eq_some, pure_eq_some] at h
    obtain ⟨b, s1, hload, rfl, rfl⟩ := h
    obtain ⟨hfill, rfl⟩ := loadb_cases hload
    exact ⟨hfill, by simp [NameIs]⟩
  | cons c cs ih =>
    obtain ⟨b, s1, hload, h⟩ := bind_eq_some.mp h
    obtain ⟨hfill, rfl⟩ := loadb_cases hload
    split at h
    · next hb =>
      obtain ⟨hfill', hr⟩ := ih h
      rw [hfill.view] at hr
      exact ⟨hfill.trans hfill', by rw [hr, NameIs, and_iff_right hb.1, and_iff_right hb.2]⟩
    · next hb =>
      cases h
      refine ⟨hfill, ?_⟩
      refine iff_of_false (by decide) fun hno => hb ⟨hno.1, hno.2.1⟩

/-- The test of an entry only reads, and accepts the entries that satisfy `P`. -/
def EntryTest (entry : ℕ → ℕ → FsM (Option ℕ)) (P : ByteMem → ℕ → Prop) : Prop :=
  ∀ blk j s r s', entry blk j s = some (r, s') → Fills s s' ∧
    ((r = none ∧ ¬ P s.view (blk + 256 * j)) ∨
      (r = some (blk + 256 * j) ∧ P s.view (blk + 256 * j)))

theorem lookupEntry_test : EntryTest (lookupEntry name) (fun v p => NameIs v p name) := by
  intro blk j s r s' h
  obtain ⟨b, s1, hcmp, h⟩ := bind_eq_some.mp h
  obtain ⟨hfill, hb⟩ := strcmpEq_cases hcmp
  split at h
  · next htrue =>
    cases h
    exact ⟨hfill, .inr ⟨rfl, hb.mp htrue⟩⟩
  · next hfalse =>
    cases h
    exact ⟨hfill, .inl ⟨rfl, fun hno => hfalse (hb.mpr hno)⟩⟩

theorem freeEntry_test : EntryTest freeEntry (fun v p => v p = 0#8) := by
  intro blk j s r s' h
  obtain ⟨b, s1, hload, h⟩ := bind_eq_some.mp h
  obtain ⟨hfill, rfl⟩ := loadb_cases hload
  split at h
  · next hzero =>
    cases h
    exact ⟨hfill, .inr ⟨rfl, hzero⟩⟩
  · next hne =>
    cases h
    exact ⟨hfill, .inl ⟨rfl, hne⟩⟩

/-- Entry `j` of block `n` of a directory. -/
structure EntryAt (v : ByteMem) (dir n j e : ℕ) : Prop where
  block : ∃ t, HasBlock v dir n t ∧ e = blkaddr t + 256 * j
  lt : j < blkfiles

/-- Block `n` of a directory is there, and no entry in it satisfies `P`. -/
def BlockLacks (P : ByteMem → ℕ → Prop) (v : ByteMem) (dir n : ℕ) : Prop :=
  ∃ t, HasBlock v dir n t ∧ ∀ j < blkfiles, ¬ P v (blkaddr t + 256 * j)

variable {r : Option (Except Int ℕ)} {entry : ℕ → ℕ → FsM (Option ℕ)}
  {P : ByteMem → ℕ → Prop} {n : ℕ}

theorem searchBlock_made (ht : EntryTest entry P) (hw : Walkable K I dir N) (hl : Live I s) {i : ℕ}
    (hi : i < 2 ^ 32)
    (hN : i < N) (h : searchBlock dir entry i s = some (r, s')) :
    Made K s s' ∧ (r = none → ∃ u, Live I u ∧ BlockLacks P u.view dir i) ∧
      ∀ e, r = some (.ok e) → ∃ j, EntryAt s'.view dir i j e ∧ P s'.view e := by
  have hnat : (BitVec.ofNat 32 i).toNat = i := by
    rw [toNat_ofNat, Nat.mod_eq_of_lt hi]
  obtain ⟨o, s1, hget, h⟩ := bind_eq_some.mp h
  obtain ⟨hmade, hok⟩ := hw.getBlock hl (by rw [hnat]; exact hN) hget
  cases o with
  | error r' =>
    cases h
    exact ⟨hmade, nofun, by simp⟩
  | ok blk =>
    obtain ⟨t, hblk, rfl⟩ := hok blk rfl
    rw [hnat] at hblk
    obtain ⟨o, s2, hsearch, h⟩ := bind_eq_some.mp h
    have hrun := search_rule
      (fun j u => Fills s1 u ∧ ∀ i < j, ¬ P s1.view (blkaddr t + 256 * i))
      (fun e t' => Fills s1 t' ∧ ∃ j, j < blkfiles ∧ e = blkaddr t + 256 * j ∧ P t'.view e)
      (by
        rintro j u u' _ ⟨hI, hno⟩ hstep
        obtain ⟨hfill, ⟨_, hj⟩ | ⟨he, _⟩⟩ := ht _ _ _ _ _ hstep
        · refine ⟨hI.trans hfill, fun i hi => ?_⟩
          rcases Nat.lt_succ_iff_lt_or_eq.mp hi with hlt | rfl
          · exact hno i hlt
          · rwa [hI.view] at hj
        · cases he)
      (by
        rintro j u e u' hj ⟨hI, _⟩ hstep
        obtain ⟨hfill, hcase⟩ := ht _ _ _ _ _ hstep
        rcases hcase with ⟨hno, _⟩ | ⟨he, hP⟩
        · cases hno
        · cases he
          rw [← hfill.view] at hP
          exact ⟨hI.trans hfill, j, by omega, rfl, hP⟩)
      hsearch ⟨Fills.refl s1, nofun⟩
    rcases hrun with ⟨rfl, hfill, hno⟩ | ⟨e, rfl, hfill, j, hj, rfl, hP⟩
    · cases h
      exact ⟨hmade.trans (.of_fills hfill),
        fun _ => ⟨s1, hmade.live hw.closed hl, t, hblk, fun j hj => hno j (by omega)⟩, nofun⟩
    · cases h
      refine ⟨hmade.trans (.of_fills hfill), nofun, fun e he => ?_⟩
      cases he
      exact ⟨j, ⟨⟨t, by rw [hfill.view]; exact hblk, rfl⟩, hj⟩, hP⟩

/-- The number of blocks of a directory. -/
def dirLen (v : ByteMem) (dir : ℕ) : ℕ := ((v.word (fSize dir)).sdiv 4096#32).toNat

theorem dirLen_lt (v : ByteMem) (dir : ℕ) : dirLen v dir < 2 ^ 32 := BitVec.isLt _

theorem dirBlocks_cases (h : dirBlocks dir s = some (n, s')) :
    Fills s s' ∧ n = dirLen s.view dir ∧ (s.view.word (fSize dir)).srem 4096#32 = 0#32 := by
  simp only [dirBlocks, bind_eq_some, require_eq_some, pure_eq_some] at h
  obtain ⟨size, s1, hload, _, _, ⟨hmod, rfl⟩, rfl, rfl⟩ := h
  obtain ⟨hfill, rfl⟩ := loadw_cases hload
  exact ⟨hfill, rfl, hmod⟩

theorem dirSearch_made (ht : EntryTest entry P) (hw : Walkable K I dir N) (hl : Live I s)
    (hn : n ≤ 2 ^ 32)
    (hN : n ≤ N)
    (h : Proc.search (searchBlock dir entry) n 0 s = some (r, s')) :
    Made K s s' ∧ (r = none → ∀ i < n, ∃ u, Live I u ∧ BlockLacks P u.view dir i) ∧
      ∀ e, r = some (.ok e) → ∃ i j, i < n ∧ EntryAt s'.view dir i j e ∧ P s'.view e := by
  have hrun := search_rule
    (fun i t => Made K s t ∧ ∀ k < i, ∃ u, Live I u ∧ BlockLacks P u.view dir k)
    (fun r t => Made K s t ∧ ∀ e, r = .ok e → ∃ i j, i < n ∧ EntryAt t.view dir i j e ∧ P t.view e)
    (by
      rintro i t t' hi ⟨hI, hlack⟩ hstep
      obtain ⟨hmade, hnone, _⟩ :=
        searchBlock_made ht hw (hI.live hw.closed hl) (by omega) (by omega) hstep
      refine ⟨hI.trans hmade, fun k hk => ?_⟩
      rcases Nat.lt_succ_iff_lt_or_eq.mp hk with hlt | rfl
      · exact hlack k hlt
      · exact hnone rfl)
    (by
      rintro i t o t' hi ⟨hI, _⟩ hstep
      obtain ⟨hmade, _, hok⟩ :=
        searchBlock_made ht hw (hI.live hw.closed hl) (by omega) (by omega) hstep
      refine ⟨hI.trans hmade, fun e he => ?_⟩
      obtain ⟨j, hentry, hP⟩ := hok e (by rw [he])
      exact ⟨i, j, by omega, hentry, hP⟩)
    h ⟨Made.of_fills (Fills.refl s), nofun⟩
  rcases hrun with ⟨rfl, hmade, hlack⟩ | ⟨o, rfl, hmade, hok⟩
  · exact ⟨hmade, fun _ i hi => hlack i (by omega), nofun⟩
  · exact ⟨hmade, nofun, fun e he => hok e (Option.some.inj he)⟩

theorem dirLookup_made {r : Except Int ℕ} (hw : Walkable K I dir (dirLen s.view dir))
    (hl : Live I s)
    (h : dirLookup dir name s = some (r, s')) :
    Made K s s' ∧ ∀ e, r = .ok e → ∃ n j, n < dirLen s.view dir ∧ EntryAt s'.view dir n j e ∧
      NameIs s'.view e name := by
  simp only [dirLookup, bind_eq_some] at h
  obtain ⟨n, s1, hblocks, o, s2, hsearch, h⟩ := h
  obtain ⟨hfill, rfl, _⟩ := dirBlocks_cases hblocks
  have hmade1 : Made K s s1 := .of_fills hfill
  obtain ⟨hmade2, _, hok⟩ := dirSearch_made lookupEntry_test hw (hmade1.live hw.closed hl)
    (dirLen_lt _ _).le (le_refl _) hsearch
  cases o with
  | none =>
    cases h
    exact ⟨hmade1.trans hmade2, nofun⟩
  | some r' =>
    cases h
    exact ⟨hmade1.trans hmade2, fun e he => hok e (by rw [he])⟩

/-- `dir_alloc_file` returns an entry without a name, or finds none and makes the directory longer
    by a block, and returns the first entry of that block. -/
theorem dirAllocFile_cases {r : Except Int ℕ} (hw : Walkable K I dir (dirLen s.view dir))
    (hl : Live I s)
    (h : dirAllocFile dir s = some (r, s')) :
    (Made K s s' ∧ ∀ e, r = .ok e →
      ∃ n j, n < dirLen s.view dir ∧ EntryAt s'.view dir n j e ∧ s'.view e = 0#8) ∨
    ∃ s1 s2, Made K s s1 ∧ (s.view.word (fSize dir)).srem 4096#32 = 0#32 ∧
      (∀ n < dirLen s.view dir, ∃ u, Live I u ∧ BlockLacks (fun v p => v p = 0#8) u.view dir n) ∧
      Shows (s1.view.putWord (fSize dir) (s1.view.word (fSize dir) + 4096#32)) s1 s2 ∧
      fileGetBlock dir (BitVec.ofNat 32 (dirLen s.view dir)) s2 = some (r, s') := by
  simp only [dirAllocFile, bind_eq_some] at h
  obtain ⟨n, s1, hblocks, o, s2, hsearch, h⟩ := h
  obtain ⟨hfill, rfl, hmod⟩ := dirBlocks_cases hblocks
  have hmade1 : Made K s s1 := .of_fills hfill
  obtain ⟨hmade2, hlack, hok⟩ := dirSearch_made freeEntry_test hw (hmade1.live hw.closed hl)
    (dirLen_lt _ _).le (le_refl _) hsearch
  have hmade := hmade1.trans hmade2
  cases o with
  | some r' =>
    cases h
    exact .inl ⟨hmade, fun e he => hok e (by rw [he])⟩
  | none =>
    simp only [bind_eq_some] at h
    obtain ⟨size, s3, hload, _, s4, hstore, hget⟩ := h
    obtain ⟨hfill3, rfl⟩ := loadw_cases hload
    have hstore := storew_shows hstore
    rw [hfill3.view] at hstore
    exact .inr ⟨s2, s4, hmade, hmod, hlack rfl, hfill3.shows.trans hstore, hget⟩

theorem dirSize_eq {x : Word} (hmod : x.srem 4096#32 = 0#32)
    (hlen : (x.sdiv 4096#32).toNat ≤ ndirect + nindirect) :
    x.toNat = (x.sdiv 4096#32).toNat * 4096 := by
  by_cases hx : x.toNat < 2 ^ 31
  · have hrem := srem_block hx
    rw [hmod] at hrem
    rw [sdiv_block hx]
    simp at hrem
    omega
  · -- the quotient of a negative size is a large number
    have hmsb : x.msb = true := by
      rw [BitVec.msb_eq_true_iff_two_mul_ge]
      omega
    have h4096 : (4096#32 : Word).msb = false := by decide
    have hneg : (-x).toNat = 2 ^ 32 - x.toNat := by
      rw [toNat_neg]
      omega
    have hrem : (-x).toNat % 4096 = 0 := by
      rw [srem_eq, hmsb, h4096] at hmod
      have hzero : (-x).umod 4096#32 = 0#32 := BitVec.neg_eq_zero_iff.mp hmod
      have := congrArg BitVec.toNat hzero
      rwa [BitVec.umod_eq, toNat_umod] at this
    rw [sdiv_eq, hmsb, h4096] at hlen
    have hdiv : ((-x).udiv 4096#32).toNat = (-x).toNat / 4096 := toNat_udiv
    simp only [toNat_neg, hdiv, ndirect, nindirect] at hlen
    omega

end Directories

end LinuxStudy.Fs
