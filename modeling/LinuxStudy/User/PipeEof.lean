import Mathlib.Data.Finset.Card
import Mathlib.Data.Fintype.Card
import LinuxStudy.User.Pipe

/-!
# End of file on a pipe

The pipe with its reference counts. Each writer has a write end: its Fd page and the page of the
pipe, which `devpipe_close` unmaps in this order. The reader has one Fd page of its own, so
`_pipeisclosed` finds `pageref(fd) == pageref(p)` once the page of the pipe is mapped by nobody
else. It loads both counts between two loads of `env_runs` and starts again if that has changed;
`env_runs` may change at any time, and on several processors the other environments run on
without it changing.
-/

namespace LinuxStudy.User

open Jos

/-- A write end, on its way through `devpipe_close`. -/
inductive WriteEnd
  | opened
  /-- The Fd page is unmapped. -/
  | fdUnmapped
  | closed
  deriving DecidableEq, Repr

/-- Where the reader is in `_pipeisclosed`. -/
inductive CheckPc
  | idle
  /-- `n` is loaded. -/
  | gotN (n : ℕ)
  /-- `pageref(fd)` is loaded as well, and then `pageref(p)` comes. -/
  | gotFd (n fd : ℕ)
  /-- The other order. -/
  | gotP (n p : ℕ)
  /-- Both are loaded and compared. -/
  | compared (n : ℕ) (ret : Bool)
  deriving DecidableEq, Repr

structure EofSys (ι : Type*) where
  sys : PipeSys ι
  ends : ι → WriteEnd
  check : CheckPc
  envRuns : ℕ

section Steps

variable {ι : Type*} [Fintype ι] [DecidableEq ι]

namespace EofSys

/-- The mappings of the reader's Fd page; `pp_ref` has 16 bits. -/
def pagerefFd : ℕ := 1 % 2 ^ 16

/-- The mappings of the page of the pipe. -/
def pagerefP (s : EofSys ι) : ℕ :=
  (1 + (Finset.univ.filter fun j => s.ends j ≠ .closed).card) % 2 ^ 16

end EofSys

inductive EofLabel (ι : Type*)
  | pipe (l : PipeLabel ι)
  | check
  /-- The reader was taken off its processor and is back. -/
  | resched
  | close (j : ι)
  deriving DecidableEq

inductive EofStep : EofSys ι → EofLabel ι → EofSys ι → Prop
  /-- A step of the reader other than an answer of `_pipeisclosed`. -/
  | read {s : EofSys ι} {l : ReadLabel} {t : PipeSys ι} (hl : ∀ b, l ≠ .closed b)
      (h : PipeStep s.sys (.reader l) t) : EofStep s (.pipe (.reader l)) { s with sys := t }
  | write {s : EofSys ι} {j : ι} {l : WriteLabel} {t : PipeSys ι} (hopen : s.ends j = .opened)
      (h : PipeStep s.sys (.writer j l) t) : EofStep s (.pipe (.writer j l)) { s with sys := t }
  | loadN {s : EofSys ι} (hpc : s.sys.reader.pc = .empty) (hbuf : s.sys.reader.buf = [])
      (h : s.check = .idle) : EofStep s .check { s with check := .gotN s.envRuns }
  | loadFd {s : EofSys ι} {n : ℕ} (h : s.check = .gotN n) :
      EofStep s .check { s with check := .gotFd n EofSys.pagerefFd }
  | loadP {s : EofSys ι} {n : ℕ} (h : s.check = .gotN n) :
      EofStep s .check { s with check := .gotP n s.pagerefP }
  | compareP {s : EofSys ι} {n fd : ℕ} (h : s.check = .gotFd n fd) :
      EofStep s .check { s with check := .compared n (fd == s.pagerefP) }
  | compareFd {s : EofSys ι} {n p : ℕ} (h : s.check = .gotP n p) :
      EofStep s .check { s with check := .compared n (EofSys.pagerefFd == p) }
  /-- `n == nn`: the answer. -/
  | answer {s : EofSys ι} {n : ℕ} {ret : Bool} {t : PipeSys ι} (h : s.check = .compared n ret)
      (hn : n = s.envRuns) (hs : PipeStep s.sys (.reader (.closed ret)) t) :
      EofStep s (.pipe (.reader (.closed ret))) { s with sys := t, check := .idle }
  | retry {s : EofSys ι} {n : ℕ} {ret : Bool} (h : s.check = .compared n ret)
      (hn : n ≠ s.envRuns) : EofStep s .check { s with check := .idle }
  | resched {s : EofSys ι} {n : ℕ} : EofStep s .resched { s with envRuns := n }
  | closeFd {s : EofSys ι} {j : ι} (hidle : (s.sys.writers j).pc = .idle)
      (hopen : s.ends j = .opened) :
      EofStep s (.close j) { s with ends := Function.update s.ends j .fdUnmapped }
  | closeData {s : EofSys ι} {j : ι} (h : s.ends j = .fdUnmapped) :
      EofStep s (.close j) { s with ends := Function.update s.ends j .closed }

/-- A new pipe with all its write ends open. -/
def EofSys.new : EofSys ι where
  sys := .new
  ends _ := .opened
  check := .idle
  envRuns := 0

/-- The reader has loaded `p_wpos` for a test that finds the pipe empty before anything was
    read, and has not got its answer from `_pipeisclosed`. -/
def InWindow (rd : Reader) : Prop := rd.buf = [] ∧ ((∃ w, rd.pc = .gotW w) ∨ rd.pc = .empty)

/-- A step that does not move `p_wpos` in the window of the reader, in which no two writers are
    in a call, and after which fewer than 2³¹ bytes were written. -/
def CalmStep (s : EofSys ι) (l : EofLabel ι) (s' : EofSys ι) : Prop :=
  EofStep s l s' ∧ (InWindow s.sys.reader → s'.sys.pipe.pWpos = s.sys.pipe.pWpos) ∧
    (∀ l', l = .pipe l' → Solo s.sys l') ∧ s'.sys.stored.length < 2 ^ 31

end Steps

section Invariant

variable {ι : Type*} [Fintype ι] [DecidableEq ι] {s s' : EofSys ι} {l : EofLabel ι}

/-- What the reader knows in its window. -/
def WindowOk (p : Pipe) (rd : Reader) : Prop :=
  rd.buf = [] → (∀ w, rd.pc = .gotW w → w = p.pWpos) ∧ (rd.pc = .empty → p.pRpos = p.pWpos)

/-- What the reader knows in `_pipeisclosed`: a write end that is closed stays so. -/
def CheckOk (s : EofSys ι) : Prop :=
  match s.check with
  | .idle | .gotN _ => True
  | .gotFd _ fd => fd = EofSys.pagerefFd
  | .gotP _ p => p = EofSys.pagerefFd → ∀ j, s.ends j = .closed
  | .compared _ ret => ret = true → ∀ j, s.ends j = .closed

structure EofInv (s : EofSys ι) (a : Option ι) : Prop where
  pipe : PipeInv s.sys a
  window : WindowOk s.sys.pipe s.sys.reader
  check : CheckOk s
  asking : s.check ≠ .idle → s.sys.reader.pc = .empty ∧ s.sys.reader.buf = []
  ended : ∀ j, s.ends j ≠ .opened → (s.sys.writers j).pc = .idle

omit [DecidableEq ι] in
/-- The counts agree only when every write end is closed; there are at most `NENV * MAXFD`. -/
theorem closed_of_pageref (hcard : Fintype.card ι ≤ 1024 * 32)
    (h : EofSys.pagerefFd = s.pagerefP) (j : ι) : s.ends j = .closed := by
  have hle : (Finset.univ.filter fun j => s.ends j ≠ .closed).card ≤ Fintype.card ι :=
    Finset.card_le_univ _
  have hzero : (Finset.univ.filter fun j => s.ends j ≠ .closed).card = 0 := by
    rw [EofSys.pagerefFd, EofSys.pagerefP] at h
    omega
  by_contra hj
  have hmem : j ∈ Finset.univ.filter fun j => s.ends j ≠ .closed :=
    Finset.mem_filter.mpr ⟨Finset.mem_univ j, hj⟩
  rw [Finset.card_eq_zero.mp hzero] at hmem
  exact absurd hmem (Finset.notMem_empty j)

variable {p p' : Pipe} {rd rd' : Reader} {a : Option ι}

theorem WindowOk.read {l : ReadLabel} {stored : List Byte}
    (h : WindowOk p rd) (hrd : ReaderOk p stored rd) (hs : ReadStep p rd l p' rd') :
    WindowOk p' rd' := by
  cases hs with
  | loadW => exact fun _ => ⟨fun w hw => (ReadPc.gotW.inj hw).symm, by rintro ⟨⟩⟩
  | testW hpc =>
    simp only [ReaderOk, hpc] at hrd
    intro _
    split_ifs with heq
    · exact ⟨by rintro _ ⟨⟩, fun _ => hrd.1 ▸ heq⟩
    · exact ⟨by rintro _ ⟨⟩, by rintro ⟨⟩⟩
  | testR hpc =>
    intro hbuf
    have hw := (h hbuf).1 _ hpc
    split_ifs with heq
    · exact ⟨by rintro _ ⟨⟩, fun _ => heq.trans hw⟩
    · exact ⟨by rintro _ ⟨⟩, by rintro ⟨⟩⟩
  | _ => exact fun _ => ⟨by rintro _ ⟨⟩, by rintro ⟨⟩⟩

/-- A reader that asks whether the pipe is closed does nothing else. -/
theorem ReadStep.asking {l : ReadLabel}
    (hs : ReadStep p rd l p' rd') (hpc : rd.pc = .empty) (hbuf : rd.buf = []) :
    ∃ b, l = .closed b := by
  cases hs with
  | eof => exact ⟨true, rfl⟩
  | again => exact ⟨false, rfl⟩
  | short _ hi => exact absurd hbuf hi
  | _ h => rw [hpc] at h; cases h

omit [Fintype ι] [DecidableEq ι] in
theorem EofInv.new : EofInv (EofSys.new : EofSys ι) none :=
  ⟨.new, fun _ => ⟨nofun, nofun⟩, trivial, fun h => absurd rfl h, fun _ h => absurd rfl h⟩

omit [Fintype ι] [DecidableEq ι] in
/-- A step that leaves the reader and the pipe alone and moves `_pipeisclosed` on. -/
theorem EofInv.checking (h : EofInv s a) {c : CheckPc}
    (hask : s.sys.reader.pc = .empty ∧ s.sys.reader.buf = [])
    (hok : CheckOk { s with check := c }) : EofInv { s with check := c } a :=
  ⟨h.pipe, h.window, hok, fun _ => hask, h.ended⟩

omit [Fintype ι] in
theorem EofInv.ending (h : EofInv s a) {j : ι} {e : WriteEnd}
    (hj : s.ends j ≠ .closed) (hidle : (s.sys.writers j).pc = .idle) :
    EofInv { s with ends := Function.update s.ends j e } a := by
  refine ⟨h.pipe, h.window, ?_, h.asking, fun k hk => ?_⟩
  · -- while an end is open nothing has been concluded from the counts
    have hcheck := h.check
    unfold CheckOk at hcheck ⊢
    dsimp only
    split at hcheck
    · trivial
    · trivial
    · exact hcheck
    · exact fun hp => absurd (hcheck hp j) hj
    · exact fun hret => absurd (hcheck hret j) hj
  · by_cases hkj : k = j
    · rw [hkj]
      exact hidle
    · dsimp only at hk
      rw [Function.update_of_ne hkj] at hk
      exact h.ended k hk

theorem EofInv.step (hcard : Fintype.card ι ≤ 1024 * 32) (h : EofInv s a)
    (hs : CalmStep s l s') : ∃ a, EofInv s' a := by
  obtain ⟨hs, hcalm, hsolo, hsmall⟩ := hs
  cases hs with
  | read hl hs =>
    obtain ⟨a', ha'⟩ := h.pipe.step hs trivial hsmall
    cases hs with
    | read hr =>
      have hidle : s.check = .idle := by
        by_contra hne
        obtain ⟨hpc, hbuf⟩ := h.asking hne
        obtain ⟨b, hb⟩ := hr.asking hpc hbuf
        exact hl b hb
      exact ⟨a', ha', h.window.read h.pipe.reader hr, h.check, fun hne => absurd hidle hne, h.ended⟩
  | @write j _ _ hopen hs =>
    obtain ⟨a', ha'⟩ := h.pipe.step hs (hsolo _ rfl) hsmall
    cases hs with
    | @write _ _ p wr hw =>
      obtain ⟨hwr, -⟩ := h.pipe.active (hsolo _ rfl)
      obtain ⟨-, -, hrpos, -⟩ := write_preserves h.pipe.page hwr hw hsmall
      refine ⟨a', ha', ?_, h.check, h.asking, fun k hk => ?_⟩
      · intro hbuf
        obtain ⟨hgot, hempty⟩ := h.window hbuf
        refine ⟨fun w hpc => ?_, fun hpc => ?_⟩
        · exact (hgot w hpc).trans (hcalm ⟨hbuf, Or.inl ⟨w, hpc⟩⟩).symm
        · exact hrpos.trans ((hempty hpc).trans (hcalm ⟨hbuf, Or.inr hpc⟩).symm)
      · have hkj : k ≠ j := by
          rintro rfl
          exact hk hopen
        dsimp only
        rw [Function.update_of_ne hkj]
        exact h.ended k hk
  | loadN hpc hbuf _ => exact ⟨a, h.checking ⟨hpc, hbuf⟩ trivial⟩
  | loadFd hc => exact ⟨a, h.checking (h.asking (by rw [hc]; nofun)) rfl⟩
  | loadP hc =>
    exact ⟨a, h.checking (h.asking (by rw [hc]; nofun)) fun hp => closed_of_pageref hcard hp.symm⟩
  | compareP hc =>
    have hfd := h.check
    simp only [CheckOk, hc] at hfd
    refine ⟨a, h.checking (h.asking (by rw [hc]; nofun)) fun hret => ?_⟩
    rw [beq_iff_eq, hfd] at hret
    exact closed_of_pageref hcard hret
  | compareFd hc =>
    have hp := h.check
    simp only [CheckOk, hc] at hp
    refine ⟨a, h.checking (h.asking (by rw [hc]; nofun)) fun hret => ?_⟩
    rw [beq_iff_eq] at hret
    exact hp hret.symm
  | answer hc _ hs =>
    obtain ⟨a', ha'⟩ := h.pipe.step hs trivial hsmall
    cases hs with
    | read hr =>
      exact ⟨a', ha', h.window.read h.pipe.reader hr, trivial, fun hne => absurd rfl hne, h.ended⟩
  | retry hc _ =>
    exact ⟨a, h.pipe, h.window, trivial, fun hne => absurd rfl hne, h.ended⟩
  | resched => exact ⟨a, h.pipe, h.window, h.check, h.asking, h.ended⟩
  | closeFd hidle hopen => exact ⟨a, h.ending (by rw [hopen]; nofun) hidle⟩
  | closeData hfd => exact ⟨a, h.ending (by rw [hfd]; nofun) (h.ended _ (by rw [hfd]; nofun))⟩

omit [Fintype ι] [DecidableEq ι] in
/-- The reader is told that the pipe is closed when there is nothing more to come. -/
theorem EofInv.answered (h : EofInv s a) {n : ℕ} (hc : s.check = .compared n true) :
    (∀ j, s.ends j = .closed) ∧ s.sys.reader.returned = s.sys.stored := by
  have hclosed : ∀ j, s.ends j = .closed := by
    have := h.check
    simp only [CheckOk, hc] at this
    exact this trivial
  obtain ⟨hpc, hbuf⟩ := h.asking (by rw [hc]; nofun)
  have hpos := (h.window hbuf).2 hpc
  have hlen : s.sys.stored.length = s.sys.pipe.pWpos.toNat := by
    obtain ⟨-, hlen⟩ | ⟨j, -, hwr⟩ := h.pipe.writer
    · exact hlen
    · have hidle := h.ended j (by rw [hclosed j]; nofun)
      simpa only [WriterOk, hidle] using hwr
  have hrd := h.pipe.reader
  simp only [ReaderOk, hpc, Reader.taken, hbuf, List.append_nil, hpos, ← hlen,
    List.take_length] at hrd
  exact ⟨hclosed, hrd⟩

end Invariant

/-- `devpipe_read` returns 0 although some bytes were asked for. -/
def ReturnsZero {ι : Type*} (s s' : EofSys ι) : Prop :=
  s.sys.reader.pc ≠ .idle ∧ 0 < s.sys.reader.n ∧ s'.sys.reader.pc = .idle ∧
    s'.sys.reader.returned = s.sys.reader.returned

/-- **End of file is not premature.** In every run of a reader and any number of writers that
    write and then close, if `p_wpos` never moves in the window of the reader, writes do not
    overlap and fewer than 2³¹ bytes are written: a read that returns 0 does so when every write
    end is closed and every byte stored has been returned. -/
theorem eof_not_premature {ι : Type*} [Fintype ι] [DecidableEq ι]
    (hcard : Fintype.card ι ≤ 1024 * 32) {s s' : EofSys ι} {ls : List (EofLabel ι)} {l : EofLabel ι}
    (h : Run CalmStep .new ls s) (hs : CalmStep s l s') (hzero : ReturnsZero s s') :
    (∀ j, s.ends j = .closed) ∧ s.sys.reader.returned = s.sys.stored := by
  obtain ⟨a, ha⟩ := h.invariant (fun s => ∃ a, EofInv s a) ⟨none, .new⟩
    fun s l s' ⟨a, ha⟩ hs => ha.step hcard hs
  obtain ⟨hbusy, hn, hidle, hreturned⟩ := hzero
  obtain ⟨hs, -⟩ := hs
  cases hs with
  | read hl hs =>
    -- the other ways out of the call return at least one byte
    cases hs with
    | read hr =>
      cases hr with
      | call hpc => exact absurd hpc hbusy
      | short hpc hi =>
        exact absurd (List.append_right_eq_self.mp hreturned) hi
      | eof => exact absurd rfl (hl true)
      | done hpc hi =>
        rw [List.append_right_eq_self.mp hreturned, List.length_nil] at hi
        exact absurd hn hi
      | testW | testR =>
        dsimp only at hidle
        split_ifs at hidle
      | _ => cases hidle
  | answer hc _ hs =>
    cases hs with
    | read hr =>
      cases hr with
      | eof => exact ha.answered hc
      | again => cases hidle
  | write _ hs =>
    cases hs
    exact absurd hidle hbusy
  | _ => exact absurd hidle hbusy

/-- The writer writes a byte and closes its end; a first read returns the byte and a second one
    returns 0. -/
theorem eof_not_premature_byte : ∃ (s s' : EofSys Unit) (ls : List (EofLabel Unit))
    (l : EofLabel Unit), Run CalmStep .new ls s ∧ CalmStep s l s' ∧ ReturnsZero s s' ∧
      s.sys.stored = [7] ∧ (∀ j, s.ends j = .closed) ∧ s.sys.reader.returned = s.sys.stored := by
  have hcalm : ∀ {s s' : EofSys Unit} {l : EofLabel Unit}, EofStep s l s' →
      s'.sys.pipe.pWpos = s.sys.pipe.pWpos → s'.sys.stored.length < 2 ^ 31 → CalmStep s l s' :=
    fun hs hw hsmall => ⟨hs, fun _ => hw, fun _ _ => solo_unit _ _, hsmall⟩
  -- the writer runs while the reader is in no call
  have hwrite : ∀ {s : EofSys Unit} {ls : List (EofLabel Unit)} {l : WriteLabel} {t : PipeSys Unit},
      Run CalmStep .new ls s → s.ends () = .opened ∧ s.sys.reader.pc = .idle →
      PipeStep s.sys (.writer () l) t → t.stored.length < 2 ^ 31 →
      Run CalmStep .new (ls ++ [.pipe (.writer () l)]) { s with sys := t } := by
    rintro s ls l t h ⟨hopen, hidle⟩ hs hsmall
    refine h.snoc ⟨.write hopen hs, ?_, fun _ _ => solo_unit _ _, hsmall⟩
    rintro ⟨-, ⟨w, hw⟩ | hw⟩ <;> cases hidle.symm.trans hw
  have h1 := hwrite (.nil _) ⟨rfl, rfl⟩
    (.write (show WriteStep _ _ (.call [7]) _ _ from .call rfl)) (by decide)
  have h2 := hwrite h1 ⟨rfl, rfl⟩ (.write (.loadW rfl (by nofun))) (by decide)
  have h3 := hwrite h2 ⟨rfl, rfl⟩ (.write (.testR rfl)) (by decide)
  have h4 := hwrite h3 ⟨rfl, rfl⟩ (.write (.index rfl)) (by decide)
  have h5 := hwrite h4 ⟨rfl, rfl⟩ (.write (.byte rfl rfl)) (by decide)
  have h6 := hwrite h5 ⟨rfl, rfl⟩ (.write (.bump rfl)) (by decide)
  have h7 := hwrite h6 ⟨rfl, rfl⟩ (.write (.store rfl)) (by decide)
  have h8 := hwrite h7 ⟨rfl, rfl⟩ (.write (.done rfl rfl)) (by decide)
  have h9 := h8.snoc (hcalm (.closeFd (j := ()) rfl rfl) rfl (by decide))
  have h10 := h9.snoc (hcalm (.closeData (j := ()) rfl) rfl (by decide))
  have hread : ∀ {s : EofSys Unit} {ls : List (EofLabel Unit)} {l : ReadLabel} {t : PipeSys Unit},
      Run CalmStep .new ls s → (∀ b, l ≠ .closed b) → PipeStep s.sys (.reader l) t →
      t.pipe.pWpos = s.sys.pipe.pWpos ∧ t.stored.length < 2 ^ 31 →
      Run CalmStep .new (ls ++ [.pipe (.reader l)]) { s with sys := t } :=
    fun h hl hs hsame => h.snoc (hcalm (.read hl hs) hsame.1 hsame.2)
  have h11 := hread h10 (by nofun) (.read (show ReadStep _ _ (.call 1) _ _ from .call rfl))
    ⟨rfl, by decide⟩
  have h12 := hread h11 (by nofun) (.read (.loadW rfl (by decide))) ⟨rfl, by decide⟩
  have h13 := hread h12 (by nofun) (.read (.testR rfl)) ⟨rfl, by decide⟩
  have h14 := hread h13 (by nofun) (.read (.index rfl)) ⟨rfl, by decide⟩
  have h15 := hread h14 (by nofun) (.read (.byte rfl)) ⟨rfl, by decide⟩
  have h16 := hread h15 (by nofun) (.read (.bump rfl)) ⟨rfl, by decide⟩
  have h17 := hread h16 (by nofun) (.read (.store rfl)) ⟨rfl, by decide⟩
  have h18 := hread h17 (by nofun) (.read (.done rfl (by decide))) ⟨rfl, by decide⟩
  have h19 := hread h18 (by nofun) (.read (show ReadStep _ _ (.call 1) _ _ from .call rfl))
    ⟨rfl, by decide⟩
  have h20 := hread h19 (by nofun) (.read (.loadW rfl (by decide))) ⟨rfl, by decide⟩
  have h21 := hread h20 (by nofun) (.read (.testR rfl)) ⟨rfl, by decide⟩
  have h22 := h21.snoc (hcalm (.loadN rfl rfl rfl) rfl (by decide))
  have h23 := h22.snoc (hcalm (.loadFd rfl) rfl (by decide))
  have h24 := h23.snoc (hcalm (.compareP rfl) rfl (by decide))
  refine ⟨_, _, _, _, h24, hcalm (.answer rfl rfl (.read (.eof rfl rfl))) rfl (by decide),
    ⟨nofun, by decide, rfl, rfl⟩, rfl, ?_⟩
  exact eof_not_premature (by decide) h24
    (hcalm (.answer rfl rfl (.read (.eof rfl rfl))) rfl (by decide)) ⟨nofun, by decide, rfl, rfl⟩

/-- The reader finds the pipe empty; before it asks whether the pipe is closed, the writer writes
    a byte and closes its end. The read returns 0 with the byte in the pipe. -/
theorem eof_premature : ∃ (s s' : EofSys Unit) (ls : List (EofLabel Unit)) (l : EofLabel Unit),
    Run EofStep .new ls s ∧ EofStep s l s' ∧ ReturnsZero s s' ∧ s.sys.stored = [7] ∧
      s.sys.reader.returned = [] := by
  have h1 : Run EofStep (.new : EofSys Unit) _ _ :=
    .single (.read (by nofun) (.read (show ReadStep _ _ (.call 1) _ _ from .call rfl)))
  have h2 := h1.snoc (.read (by nofun) (.read (.loadW rfl (by decide))))
  have h3 := h2.snoc (.read (by nofun) (.read (.testR rfl)))
  have h4 := h3.snoc (.write (j := ()) rfl
    (.write (show WriteStep _ _ (.call [7]) _ _ from .call rfl)))
  have h5 := h4.snoc (.write (j := ()) rfl (.write (.loadW rfl nofun)))
  have h6 := h5.snoc (.write (j := ()) rfl (.write (.testR rfl)))
  have h7 := h6.snoc (.write (j := ()) rfl (.write (.index rfl)))
  have h8 := h7.snoc (.write (j := ()) rfl (.write (.byte rfl rfl)))
  have h9 := h8.snoc (.write (j := ()) rfl (.write (.bump rfl)))
  have h10 := h9.snoc (.write (j := ()) rfl (.write (.store rfl)))
  have h11 := h10.snoc (.write (j := ()) rfl (.write (.done rfl rfl)))
  have h12 := h11.snoc (.closeFd (j := ()) rfl rfl)
  have h13 := h12.snoc (.closeData (j := ()) rfl)
  have h14 := h13.snoc (.loadN rfl rfl rfl)
  have h15 := h14.snoc (.loadFd rfl)
  have h16 := h15.snoc (.compareP rfl)
  exact ⟨_, _, _, _, h16, .answer rfl rfl (.read (.eof rfl rfl)), ⟨nofun, by decide, rfl, rfl⟩,
    rfl, rfl⟩

end LinuxStudy.User
