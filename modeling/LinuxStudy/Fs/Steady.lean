import LinuxStudy.Fs.Layout

/-!
# What no call of the file system changes

Whatever is on the disk, the pages of the disk map that are mapped stay mapped, and the pointers
`super` and `bitmap` stay set. Only `file_read` and `file_write` call `memmove`: the one copies
into its buffer, and the other from its buffer.
-/

namespace LinuxStudy.Fs

open Jos
open Proc (bind_eq_some pure_eq_some)

/-- The pages that are mapped stay mapped, and `memmove` is not called. -/
def Steady (s s' : Server) : Prop := Shows s'.view s s'

instance : Std.Refl Steady := ⟨Shows.refl⟩

instance : IsTrans Server Steady := ⟨fun _ _ _ h h' => h.trans h'⟩

section Steady

open Proc

variable {s s' : Server} {f n : ℕ}

theorem Shows.steady {v : ByteMem} (h : Shows v s s') : Steady s s' := by
  rw [Steady, h.view]
  exact h

theorem Fills.steady (h : Fills s s') : Steady s s' := h.shows.steady

end Steady

section Transfer

variable {s s' : Server} {f buf fuel : ℕ} {stop pos : Word} {move : ℕ → ℕ → ℕ → FsM Unit}

/-- The number of bytes moved by an iteration. -/
def chunk (stop pos : Word) : Word := minu (4096#32 - pos.srem 4096#32) (stop - pos)

/-- **Loop rule** for `file_read` and `file_write`. -/
theorem xferLoop_rule (J : Word → ℕ → Server → Prop) (Q : Int → Server → Prop)
    (hstep : ∀ pos buf s blk s1 s2, J pos buf s → pos < stop →
      fileGetBlock f (pos.sdiv 4096#32) s = some (.ok blk, s1) →
      move buf (BitVec.ofNat 32 blk + pos.srem 4096#32).toNat (chunk stop pos).toNat s1 =
      some ((), s2) → J (pos + chunk stop pos) (buf + (chunk stop pos).toNat) s2)
    (herr : ∀ pos buf s r s1, J pos buf s → pos < stop →
      fileGetBlock f (pos.sdiv 4096#32) s = some (.error r, s1) → Q r s1)
    {r : Option Int} (h : xferLoop move f stop fuel pos buf s = some (r, s')) (h0 : J pos buf s) :
    (r = none ∧ ∃ pos' buf', ¬ pos' < stop ∧ J pos' buf' s') ∨ ∃ e, r = some e ∧ Q e s' := by
  induction fuel generalizing pos buf s with
  | zero => exact absurd h Proc.fail_eq_some
  | succ fuel ih =>
    rw [xferLoop] at h
    split at h
    · next hlt =>
      obtain ⟨o, s1, hget, h⟩ := bind_eq_some.mp h
      cases o with
      | error e =>
        cases h
        exact .inr ⟨e, rfl, herr pos buf s e _ h0 hlt hget⟩
      | ok blk =>
        obtain ⟨_, s2, hmove, h⟩ := bind_eq_some.mp h
        exact ih h (hstep pos buf s blk s1 s2 h0 hlt hget hmove)
    · next hge =>
      cases h
      exact .inl ⟨rfl, pos, buf, hge, h0⟩

theorem chunk_le (stop pos : Word) : (chunk stop pos).toNat ≤ (stop - pos).toNat := by
  rw [chunk, minu]
  split
  · next hle => exact hle
  · exact le_refl _

theorem toNat_add_chunk (hlt : pos < stop) :
    (pos + chunk stop pos).toNat = pos.toNat + (chunk stop pos).toNat := by
  have hle := chunk_le stop pos
  rw [BitVec.lt_def] at hlt
  rw [BitVec.toNat_sub] at hle
  rw [BitVec.toNat_add]
  omega

theorem chunk_rest :
    (stop - (pos + chunk stop pos)).toNat = (stop - pos).toNat - (chunk stop pos).toNat := by
  have hle := chunk_le stop pos
  rw [BitVec.toNat_sub, BitVec.toNat_add]
  rw [BitVec.toNat_sub] at hle ⊢
  omega

theorem minu_le (a b : Word) : (minu a b).toNat ≤ a.toNat := by
  rw [minu]
  split
  · exact le_refl _
  · next hno =>
    rw [BitVec.le_def] at hno
    omega

variable {r e : Int} {addr : Move → ℕ} {b : ℕ} {offset count : Word}

/-- Calls of `memmove` for consecutive pieces of a buffer, from `b` to `e`. -/
def Tiles (addr : Move → ℕ) (b e : ℕ) : List Move → Prop
  | [] => b = e
  | m :: ms => addr m = b ∧ Tiles addr (b + m.n) e ms

section Tiles

variable {addr : Move → ℕ} {b c e : ℕ} {ms ms' : List Move}

theorem Tiles.append (h : Tiles addr b c ms) (h' : Tiles addr c e ms') :
    Tiles addr b e (ms ++ ms') := by
  induction ms generalizing b with
  | nil =>
    obtain rfl : b = c := h
    exact h'
  | cons m ms ih => exact ⟨h.1, ih h.2⟩

theorem Tiles.le (h : Tiles addr b e ms) : b ≤ e := by
  induction ms generalizing b with
  | nil => exact h.le
  | cons m ms ih => exact (Nat.le_add_right _ _).trans (ih h.2)

theorem Tiles.mem (h : Tiles addr b e ms) {m : Move} (hm : m ∈ ms) : b ≤ addr m ∧
    addr m + m.n ≤ e := by
  induction ms generalizing b with
  | nil => cases hm
  | cons k ms ih =>
    obtain ⟨hk, hms⟩ := h
    have hle := hms.le
    rcases List.mem_cons.mp hm with rfl | hm
    · omega
    · have := ih hms hm
      omega

end Tiles

/-- The calls of `memmove` go through a buffer from `b` to `e`. -/
def Copies (addr : Move → ℕ) (b e : ℕ) (s s' : Server) : Prop :=
  ∃ ms, Shows s'.view { s with moves := s.moves ++ ms } s' ∧ Tiles addr b e ms

theorem Copies.trans {c e : ℕ} {s'' : Server} (h : Copies addr b c s s')
    (h' : Copies addr c e s' s'') : Copies addr b e s s'' := by
  obtain ⟨ms, hshows, hms⟩ := h
  obtain ⟨ms', hshows', hms'⟩ := h'
  refine ⟨ms ++ ms', ⟨rfl, hshows'.super.trans hshows.super, hshows'.bitmap.trans hshows.bitmap, ?_,
    fun pn hm => hshows'.mapped pn (hshows.mapped pn hm), fun hc =>
    hshows'.coherent (hshows.coherent hc)⟩, hms.append hms'⟩
  rw [hshows'.moves, ← List.append_assoc]
  exact congrArg (· ++ ms') hshows.moves

theorem fileWrite_cases (h : fileWrite f buf count offset s = some (r, s')) :
    ∃ s1 s2 o, Fills s s1 ∧
      (s.view.word (fSize f) < offset + count ∧
        (∃ q, fileSetSize f (offset + count) s1 = some (q, s2)) ∨
        ¬ s.view.word (fSize f) < offset + count ∧ s2 = s1) ∧
      xferLoop (fun buf blk n => memmove blk buf n) f (offset + count) (count.toNat + 1)
        offset buf s2 = some (o, s') ∧ r = o.getD count.toInt := by
  simp only [fileWrite, bind_eq_some] at h
  obtain ⟨size, s1, hload, _, s2, hset, o, s3, hloop, h⟩ := h
  obtain ⟨hfill, rfl⟩ := loadw_cases hload
  obtain ⟨rfl, rfl⟩ : o.getD count.toInt = r ∧ s3 = s' := by
    cases o <;> exact pure_eq_some.mp h
  refine ⟨s1, s2, o, hfill, ?_, hloop, rfl⟩
  rcases Proc.when_eq_some.mp hset with ⟨hlt, hgrow⟩ | ⟨hge, rfl⟩
  · obtain ⟨q, _, hcall, hend⟩ := bind_eq_some.mp hgrow
    cases hend
    exact .inl ⟨hlt, q, hcall⟩
  · exact .inr ⟨hge, rfl⟩

end Transfer

end LinuxStudy.Fs
