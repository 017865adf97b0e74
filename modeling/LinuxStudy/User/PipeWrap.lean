import LinuxStudy.User.PipeEof

/-!
# Pipe positions

Whether the positions of a pipe index its buffer. They count every byte since the pipe was made,
the remainder is taken of a signed position, and the test for a full pipe adds to an unsigned one.
-/

namespace LinuxStudy.User

open Jos

theorem bufIndex_mem {r : Word} (h : r.toNat < 2 ^ 31) :
    0 ≤ bufIndex r ∧ bufIndex r < pipebufsiz := by
  rw [bufIndex_eq h, pipebufsiz]
  omega

/-- In every run of one reader and of writers whose calls do not overlap, as long as fewer than
    2³¹ bytes are written, the indices of `devpipe_read` and `devpipe_write` are in the buffer,
    and the pipe is found full if and only if a whole buffer is unread. -/
theorem pipe_positions {ι : Type*} [DecidableEq ι] {s : PipeSys ι} {ls : List (PipeLabel ι)}
    (h : Run (fun s l s' => PipeStep s l s' ∧ Solo s l) .new ls s)
    (hsmall : s.stored.length < 2 ^ 31) :
    (∀ r, s.reader.pc = .byte r → 0 ≤ bufIndex r ∧ bufIndex r < pipebufsiz) ∧
      (∀ j w, (s.writers j).pc = .byte w → 0 ≤ bufIndex w ∧ bufIndex w < pipebufsiz) ∧
      (isFull s.pipe.pRpos s.pipe.pWpos ↔
        (unreadBytes s.pipe s.stored).length = pipebufsiz) := by
  obtain ⟨a, ha⟩ := PipeInv.run h hsmall
  have hle := ha.page.le
  have hroom := ha.page.room
  have hcounted := ha.page.counted
  refine ⟨fun r hr => ?_, fun j w hw => ?_, ?_⟩
  · have hrd := ha.reader
    simp only [ReaderOk, hr] at hrd
    exact bufIndex_mem (by rw [hrd.1]; omega)
  · obtain ⟨hwr, -⟩ := ha.active fun hidle => by rw [hw] at hidle; cases hidle
    simp only [WriterOk, hw] at hwr
    exact bufIndex_mem (by rw [hwr.1]; omega)
  · rw [isFull_iff (by omega), ha.page.length_unread]
    omega

/-- The second byte goes next to the first one. -/
theorem pipe_positions_second : ∃ ls, ∃ s : PipeSys Unit,
    Run (fun s l s' => PipeStep s l s' ∧ Solo s l) .new ls s ∧ s.stored = [7] ∧
      (s.writers ()).pc = .byte 1#32 ∧ 0 ≤ bufIndex 1#32 := by
  have h1 : Run (fun s l s' => PipeStep s l s' ∧ Solo s l) (.new : PipeSys Unit) _ _ :=
    .single ⟨.write (j := ()) (show WriteStep _ _ (.call [7, 8]) _ _ from .call rfl), solo_unit _ _⟩
  have h2 := h1.snoc ⟨.write (j := ()) (.loadW rfl (List.cons_ne_nil _ _)), solo_unit _ _⟩
  have h3 := h2.snoc ⟨.write (j := ()) (.testR rfl), solo_unit _ _⟩
  have h4 := h3.snoc ⟨.write (j := ()) (.index rfl), solo_unit _ _⟩
  have h5 := h4.snoc ⟨.write (j := ()) (.byte rfl rfl), solo_unit _ _⟩
  have h6 := h5.snoc ⟨.write (j := ()) (.bump rfl), solo_unit _ _⟩
  have h7 := h6.snoc ⟨.write (j := ()) (.store rfl), solo_unit _ _⟩
  have h8 := h7.snoc ⟨.write (j := ()) (.loadW rfl (List.cons_ne_nil _ _)), solo_unit _ _⟩
  have h9 := h8.snoc ⟨.write (j := ()) (.testR rfl), solo_unit _ _⟩
  have h10 := h9.snoc ⟨.write (j := ()) (.index rfl), solo_unit _ _⟩
  exact ⟨_, _, h10, rfl, rfl, ((pipe_positions h10 (by decide)).2.1 () _ rfl).1⟩

/-! ### Beyond 2³¹ bytes -/

section Passing

variable {s : PipeSys Unit} {ls : List (PipeLabel Unit)}

/-- Nobody is in a call, and `n` bytes have passed. -/
structure Passed (n : ℕ) (s : PipeSys Unit) : Prop where
  rpos : s.pipe.pRpos = BitVec.ofNat 32 n
  wpos : s.pipe.pWpos = BitVec.ofNat 32 n
  reader : s.reader.pc = .idle
  buf : s.reader.buf = []
  writer : (s.writers ()).pc = .idle

/-- A writer that sees room comes to the store of its byte. -/
theorem run_to_byte (h : Run PipeStep .new ls s) (hidle : (s.writers ()).pc = .idle)
    (hroom : ¬ isFull s.pipe.pRpos s.pipe.pWpos) : ∃ ls t, Run PipeStep .new ls t ∧
      t.writers () = ⟨.byte s.pipe.pWpos, [7]⟩ ∧ t.reader = s.reader ∧ t.pipe = s.pipe := by
  have h1 := h.snoc (.write (j := ()) (show WriteStep _ _ (.call [7]) _ _ from .call hidle))
  have h2 := h1.snoc (.write (j := ()) (.loadW rfl (List.cons_ne_nil _ _)))
  have h3 := h2.snoc (.write (j := ()) (.testR rfl))
  have h4 := h3.snoc (.write (j := ()) (.index (if_neg hroom)))
  exact ⟨_, _, h4, rfl, rfl, rfl⟩

theorem run_write (h : Run PipeStep .new ls s) (hidle : (s.writers ()).pc = .idle)
    (hroom : ¬ isFull s.pipe.pRpos s.pipe.pWpos) : ∃ ls t, Run PipeStep .new ls t ∧
      (t.writers ()).pc = .idle ∧ t.reader = s.reader ∧ t.pipe.pRpos = s.pipe.pRpos ∧
      t.pipe.pWpos = s.pipe.pWpos + 1#32 := by
  obtain ⟨_, t, h, hw, hreader, hpipe⟩ := run_to_byte h hidle hroom
  rw [← hreader, ← hpipe]
  have h1 := h.snoc (.write (j := ()) (.byte (by rw [hw]) (by rw [hw])))
  have h2 := h1.snoc (.write (j := ()) (.bump rfl))
  have h3 := h2.snoc (.write (j := ()) (.store rfl))
  have h4 := h3.snoc (.write (j := ()) (.done rfl rfl))
  exact ⟨_, _, h4, rfl, rfl, rfl, rfl⟩

/-- A reader that sees a byte comes to the load of it. -/
theorem run_to_load (h : Run PipeStep .new ls s) (hidle : s.reader.pc = .idle)
    (hbuf : s.reader.buf = []) (hsome : s.pipe.pRpos ≠ s.pipe.pWpos) :
    ∃ ls t, Run PipeStep .new ls t ∧ t.writers = s.writers ∧ t.reader.n = 1 ∧
      t.reader.pc = .byte s.pipe.pRpos ∧ t.reader.buf = [] ∧ t.pipe = s.pipe := by
  have h1 := h.snoc (.read (.call (n := 1) hidle))
  have h2 := h1.snoc (.read (.loadW rfl (by rw [hbuf]; exact Nat.one_pos)))
  have h3 := h2.snoc (.read (.testR rfl))
  have h4 := h3.snoc (.read (.index (if_neg hsome)))
  exact ⟨_, _, h4, rfl, rfl, rfl, hbuf, rfl⟩

theorem run_read (h : Run PipeStep .new ls s) (hidle : s.reader.pc = .idle)
    (hbuf : s.reader.buf = []) (hsome : s.pipe.pRpos ≠ s.pipe.pWpos) :
    ∃ ls t, Run PipeStep .new ls t ∧ t.writers = s.writers ∧ t.reader.pc = .idle ∧
      t.reader.buf = [] ∧ t.pipe.pRpos = s.pipe.pRpos + 1#32 ∧ t.pipe.pWpos = s.pipe.pWpos := by
  obtain ⟨_, t, h, hwriters, hn, hpc, hbuf, hpipe⟩ := run_to_load h hidle hbuf hsome
  rw [← hwriters, ← hpipe]
  have h1 := h.snoc (.read (.byte hpc))
  have h2 := h1.snoc (.read (.bump rfl))
  have h3 := h2.snoc (.read (.store rfl))
  have h4 := h3.snoc (.read (.done rfl (by simp [hn])))
  exact ⟨_, _, h4, rfl, rfl, rfl, rfl, rfl⟩

theorem Passed.room {n : ℕ} (hp : Passed n s) (hn : n < 2 ^ 32 - pipebufsiz) :
    ¬ isFull s.pipe.pRpos s.pipe.pWpos := by
  rw [hp.rpos, hp.wpos, isFull, BitVec.le_def, ← BitVec.ofNat_add, BitVec.toNat_ofNat,
    BitVec.toNat_ofNat]
  rw [pipebufsiz] at hn ⊢
  omega

theorem exists_passed {n : ℕ} (hn : n ≤ 2 ^ 32 - pipebufsiz) :
    ∃ ls s, Run PipeStep .new ls s ∧ Passed n s := by
  induction n with
  | zero => exact ⟨_, _, .nil _, rfl, rfl, rfl, rfl, rfl⟩
  | succ n ih =>
    obtain ⟨_, s, h, hp⟩ := ih (by omega)
    obtain ⟨_, t, h, hwriter, hreader, hr, hw⟩ := run_write h hp.writer (hp.room (by omega))
    have hsome : t.pipe.pRpos ≠ t.pipe.pWpos := by
      rw [hr, hw, hp.rpos, hp.wpos]
      exact fun heq => absurd (congrArg BitVec.toNat heq) (by simp; omega)
    obtain ⟨_, u, h, hwriters, hidle, hbuf, hr', hw'⟩ :=
      run_read h (hreader ▸ hp.reader) (hreader ▸ hp.buf) hsome
    refine ⟨_, u, h, ?_, ?_, hidle, hbuf, hwriters ▸ hwriter⟩
    · rw [hr', hr, hp.rpos, BitVec.ofNat_add]
    · rw [hw', hw, hp.wpos, BitVec.ofNat_add]

end Passing

/-- After 2³¹ + 1 bytes the writer stores 31 bytes before the buffer, and after 2³² - 32 bytes it
    finds the empty pipe full. -/
theorem pipe_positions_wrap : (∃ ls, ∃ s : PipeSys Unit, Run PipeStep .new ls s ∧
      ∃ w, (s.writers ()).pc = .byte w ∧ bufIndex w = -31) ∧
    ∃ ls, ∃ s : PipeSys Unit, Run PipeStep .new ls s ∧ unreadBytes s.pipe s.stored = [] ∧
      isFull s.pipe.pRpos s.pipe.pWpos := by
  obtain ⟨_, _, h, hp⟩ := exists_passed (n := 2 ^ 31 + 1) (by decide)
  obtain ⟨ls, t, ht, hw, _⟩ := run_to_byte h hp.writer (hp.room (by decide))
  rw [hp.wpos] at hw
  obtain ⟨ls', s, hs, hp'⟩ := exists_passed (n := 2 ^ 32 - 32) (by decide)
  refine ⟨⟨ls, t, ht, _, congrArg Writer.pc hw, by decide⟩, ls', s, hs, ?_, ?_⟩
  · rw [unreadBytes, hp'.rpos, hp'.wpos]
    exact List.drop_eq_nil_of_le (List.length_take_le _ _)
  · rw [hp'.rpos, hp'.wpos]
    decide

end LinuxStudy.User
