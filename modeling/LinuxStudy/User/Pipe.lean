import LinuxStudy.Lib.Ring
import LinuxStudy.Jos.UserMem

/-!
# Pipes

`devpipe_read` and `devpipe_write` of `lib/pipe.c`, cut at every load and store of the shared
page. A reader and writers run without locks: each load of a position, each load or store of a
byte and each store of a position is a step of its own, and steps of different environments come
in any order. C does not say in which order the two positions of a test are loaded, so both
orders are steps. What `_pipeisclosed` answers is part of the label.

The positions are of type `off_t`, a signed 32-bit integer; the test for a full pipe compares
unsigned, because `sizeof` is.
-/

namespace LinuxStudy.User

open Jos
open Function (update update_of_ne update_self)
open List (length_append append_nil take_prefix)

def pipebufsiz : ℕ := 32

/-- `struct Pipe`. The bytes of `p_buf` are given by their offset, which is negative if the
    position is. -/
structure Pipe where
  pRpos : Word
  pWpos : Word
  pBuf : ℤ → Byte

/-- The C expression `pos % PIPEBUFSIZ`. -/
def bufIndex (pos : Word) : ℤ := pos.toInt.tmod pipebufsiz

/-! ### Reading -/

/-- Where a reader is in `devpipe_read`. -/
inductive ReadPc
  | idle
  /-- Before the test of the loops. -/
  | head
  /-- In the test for an empty pipe, with `p_rpos` loaded first. -/
  | gotR (r : Word)
  /-- In the test for an empty pipe, with `p_wpos` loaded first. -/
  | gotW (w : Word)
  /-- The pipe was found empty. -/
  | empty
  /-- Before the load of `p_rpos` for the index. -/
  | index
  /-- Before the load of the byte. -/
  | byte (r : Word)
  /-- Before the load of `p_rpos` for the increment. -/
  | bump
  /-- Before the store of `p_rpos`. -/
  | store (r : Word)
  deriving DecidableEq, Repr

/-- A reading environment: the size asked for, the bytes of `buf` so far, and all bytes that
    its calls have returned. -/
structure Reader where
  pc : ReadPc
  n : ℕ
  buf : List Byte
  returned : List Byte
  deriving DecidableEq, Repr

inductive ReadLabel
  | call (n : ℕ)
  | tau
  /-- `_pipeisclosed` answers. -/
  | closed (b : Bool)
  | ret
  deriving DecidableEq, Repr

/-- The steps of `devpipe_read`. -/
inductive ReadStep : Pipe → Reader → ReadLabel → Pipe → Reader → Prop
  | call {p : Pipe} {rd : Reader} {n : ℕ} (h : rd.pc = .idle) :
      ReadStep p rd (.call n) p { rd with pc := .head, n := n }
  | loadR {p : Pipe} {rd : Reader} (h : rd.pc = .head) (hi : rd.buf.length < rd.n) :
      ReadStep p rd .tau p { rd with pc := .gotR p.pRpos }
  | loadW {p : Pipe} {rd : Reader} (h : rd.pc = .head) (hi : rd.buf.length < rd.n) :
      ReadStep p rd .tau p { rd with pc := .gotW p.pWpos }
  | testW {p : Pipe} {rd : Reader} {r : Word} (h : rd.pc = .gotR r) :
      ReadStep p rd .tau p { rd with pc := if r = p.pWpos then .empty else .index }
  | testR {p : Pipe} {rd : Reader} {w : Word} (h : rd.pc = .gotW w) :
      ReadStep p rd .tau p { rd with pc := if p.pRpos = w then .empty else .index }
  /-- Nothing is left and some bytes were read: `return i`. -/
  | short {p : Pipe} {rd : Reader} (h : rd.pc = .empty) (hi : rd.buf ≠ []) :
      ReadStep p rd .ret p { rd with pc := .idle, buf := [], returned := rd.returned ++ rd.buf }
  /-- The writers are gone: `return 0`. -/
  | eof {p : Pipe} {rd : Reader} (h : rd.pc = .empty) (hi : rd.buf = []) :
      ReadStep p rd (.closed true) p { rd with pc := .idle }
  /-- `sys_yield` and another test. -/
  | again {p : Pipe} {rd : Reader} (h : rd.pc = .empty) (hi : rd.buf = []) :
      ReadStep p rd (.closed false) p { rd with pc := .head }
  | index {p : Pipe} {rd : Reader} (h : rd.pc = .index) :
      ReadStep p rd .tau p { rd with pc := .byte p.pRpos }
  | byte {p : Pipe} {rd : Reader} {r : Word} (h : rd.pc = .byte r) :
      ReadStep p rd .tau p { rd with pc := .bump, buf := rd.buf ++ [p.pBuf (bufIndex r)] }
  | bump {p : Pipe} {rd : Reader} (h : rd.pc = .bump) :
      ReadStep p rd .tau p { rd with pc := .store p.pRpos }
  | store {p : Pipe} {rd : Reader} {r : Word} (h : rd.pc = .store r) :
      ReadStep p rd .tau { p with pRpos := r + 1#32 } { rd with pc := .head }
  | done {p : Pipe} {rd : Reader} (h : rd.pc = .head) (hi : ¬rd.buf.length < rd.n) :
      ReadStep p rd .ret p { rd with pc := .idle, buf := [], returned := rd.returned ++ rd.buf }

/-! ### Writing -/

/-- Where a writer is in `devpipe_write`. -/
inductive WritePc
  | idle
  | head
  /-- In the test for a full pipe, with `p_wpos` loaded first. -/
  | gotW (w : Word)
  /-- In the test for a full pipe, with `p_rpos` loaded first. -/
  | gotR (r : Word)
  | full
  | index
  /-- Before the store of the byte. -/
  | byte (w : Word)
  | bump
  | store (w : Word)
  deriving DecidableEq, Repr

/-- A writing environment: the bytes of `buf` that are left. -/
structure Writer where
  pc : WritePc
  rest : List Byte
  deriving DecidableEq, Repr

inductive WriteLabel
  | call (buf : List Byte)
  | tau
  /-- A byte is stored in `p_buf`. -/
  | byte (b : Byte)
  | closed (b : Bool)
  | ret
  deriving DecidableEq, Repr

/-- The C condition `p_wpos >= p_rpos + sizeof(p_buf)`. -/
def isFull (r w : Word) : Prop := r + BitVec.ofNat 32 pipebufsiz ≤ w

instance (r w : Word) : Decidable (isFull r w) := inferInstanceAs (Decidable (_ ≤ _))

/-- The steps of `devpipe_write`. -/
inductive WriteStep : Pipe → Writer → WriteLabel → Pipe → Writer → Prop
  | call {p : Pipe} {wr : Writer} {buf : List Byte} (h : wr.pc = .idle) :
      WriteStep p wr (.call buf) p { wr with pc := .head, rest := buf }
  | loadW {p : Pipe} {wr : Writer} (h : wr.pc = .head) (hi : wr.rest ≠ []) :
      WriteStep p wr .tau p { wr with pc := .gotW p.pWpos }
  | loadR {p : Pipe} {wr : Writer} (h : wr.pc = .head) (hi : wr.rest ≠ []) :
      WriteStep p wr .tau p { wr with pc := .gotR p.pRpos }
  | testR {p : Pipe} {wr : Writer} {w : Word} (h : wr.pc = .gotW w) :
      WriteStep p wr .tau p { wr with pc := if isFull p.pRpos w then .full else .index }
  | testW {p : Pipe} {wr : Writer} {r : Word} (h : wr.pc = .gotR r) :
      WriteStep p wr .tau p { wr with pc := if isFull r p.pWpos then .full else .index }
  /-- The readers are gone: `return 0`. -/
  | gone {p : Pipe} {wr : Writer} (h : wr.pc = .full) :
      WriteStep p wr (.closed true) p { wr with pc := .idle }
  | again {p : Pipe} {wr : Writer} (h : wr.pc = .full) :
      WriteStep p wr (.closed false) p { wr with pc := .head }
  | index {p : Pipe} {wr : Writer} (h : wr.pc = .index) :
      WriteStep p wr .tau p { wr with pc := .byte p.pWpos }
  | byte {p : Pipe} {wr : Writer} {w : Word} {b : Byte} {rest : List Byte}
      (h : wr.pc = .byte w) (hb : wr.rest = b :: rest) :
      WriteStep p wr (.byte b) { p with pBuf := update p.pBuf (bufIndex w) b }
        { wr with pc := .bump, rest := rest }
  | bump {p : Pipe} {wr : Writer} (h : wr.pc = .bump) :
      WriteStep p wr .tau p { wr with pc := .store p.pWpos }
  | store {p : Pipe} {wr : Writer} {w : Word} (h : wr.pc = .store w) :
      WriteStep p wr .tau { p with pWpos := w + 1#32 } { wr with pc := .head }
  | done {p : Pipe} {wr : Writer} (h : wr.pc = .head) (hi : wr.rest = []) :
      WriteStep p wr .ret p { wr with pc := .idle }

/-! ### All together -/

/-- The pipe with one reader and writers `ι`, and all bytes that were ever stored in it. -/
structure PipeSys (ι : Type*) where
  pipe : Pipe
  reader : Reader
  writers : ι → Writer
  stored : List Byte

inductive PipeLabel (ι : Type*)
  | reader (l : ReadLabel)
  | writer (j : ι) (l : WriteLabel)
  deriving DecidableEq

/-- The byte a step stores. -/
def WriteLabel.bytes : WriteLabel → List Byte
  | .byte b => [b]
  | .call _ | .tau | .closed _ | .ret => []

section System

variable {ι : Type*} [DecidableEq ι]

inductive PipeStep : PipeSys ι → PipeLabel ι → PipeSys ι → Prop
  | read {s : PipeSys ι} {l : ReadLabel} {p : Pipe} {rd : Reader}
      (h : ReadStep s.pipe s.reader l p rd) :
      PipeStep s (.reader l) { s with pipe := p, reader := rd }
  | write {s : PipeSys ι} {j : ι} {l : WriteLabel} {p : Pipe} {wr : Writer}
      (h : WriteStep s.pipe (s.writers j) l p wr) :
      PipeStep s (.writer j l)
        { s with pipe := p, writers := update s.writers j wr,
                 stored := s.stored ++ l.bytes }

/-- A new pipe: the page is zero and nobody is in a call. -/
def PipeSys.new : PipeSys ι where
  pipe := { pRpos := 0, pWpos := 0, pBuf := fun _ => 0 }
  reader := { pc := .idle, n := 0, buf := [], returned := [] }
  writers _ := { pc := .idle, rest := [] }
  stored := []

end System

section Positions

variable {r w : Word}

theorem bufIndex_eq (h : r.toNat < 2 ^ 31) : bufIndex r = ((r.toNat % pipebufsiz : ℕ) : ℤ) := by
  rw [bufIndex, BitVec.toInt_eq_toNat_of_lt (by omega), Int.ofNat_tmod]

theorem isFull_iff (hr : r.toNat < 2 ^ 31) : isFull r w ↔ r.toNat + pipebufsiz ≤ w.toNat := by
  rw [isFull, BitVec.le_def, BitVec.toNat_add, BitVec.toNat_ofNat, pipebufsiz]
  omega

theorem pos_succ (h : r.toNat < 2 ^ 31) : (r + 1#32).toNat = r.toNat + 1 := by
  rw [BitVec.toNat_add, BitVec.toNat_ofNat]
  omega

end Positions

/-! ### The invariant -/

/-- The bytes the reader has taken out. -/
def Reader.taken (rd : Reader) : List Byte := rd.returned ++ rd.buf

/-- What the reader knows: `p_rpos` is its own, and once it has seen a byte there is one. The
    last byte taken is not counted in `p_rpos` before the store. -/
def ReaderOk (p : Pipe) (stored : List Byte) (rd : Reader) : Prop :=
  match rd.pc with
  | .idle => rd.buf = [] ∧ rd.taken = stored.take p.pRpos.toNat
  | .head | .empty => rd.taken = stored.take p.pRpos.toNat
  | .gotR r => r = p.pRpos ∧ rd.taken = stored.take p.pRpos.toNat
  | .gotW w => p.pRpos.toNat ≤ w.toNat ∧ w.toNat ≤ p.pWpos.toNat ∧
      rd.taken = stored.take p.pRpos.toNat
  | .index => p.pRpos.toNat < p.pWpos.toNat ∧ rd.taken = stored.take p.pRpos.toNat
  | .byte r => r = p.pRpos ∧ p.pRpos.toNat < p.pWpos.toNat ∧
      rd.taken = stored.take p.pRpos.toNat
  | .bump => p.pRpos.toNat < p.pWpos.toNat ∧ rd.taken = stored.take (p.pRpos.toNat + 1)
  | .store r => r = p.pRpos ∧ p.pRpos.toNat < p.pWpos.toNat ∧
      rd.taken = stored.take (p.pRpos.toNat + 1)

/-- What the writer knows: `p_wpos` is its own, and once it has seen room there is some. The
    last byte stored is not counted in `p_wpos` before the store of the position. -/
def WriterOk (p : Pipe) (stored : List Byte) (wr : Writer) : Prop :=
  match wr.pc with
  | .idle | .head | .full => stored.length = p.pWpos.toNat
  | .gotW w => w = p.pWpos ∧ stored.length = p.pWpos.toNat
  | .gotR r => r.toNat ≤ p.pRpos.toNat ∧ stored.length = p.pWpos.toNat
  | .index => p.pWpos.toNat < p.pRpos.toNat + pipebufsiz ∧ stored.length = p.pWpos.toNat
  | .byte w => w = p.pWpos ∧ p.pWpos.toNat < p.pRpos.toNat + pipebufsiz ∧
      stored.length = p.pWpos.toNat
  | .bump => p.pWpos.toNat < p.pRpos.toNat + pipebufsiz ∧
      stored.drop p.pWpos.toNat = [p.pBuf (p.pWpos.toNat % pipebufsiz : ℕ)]
  | .store w => w = p.pWpos ∧ p.pWpos.toNat < p.pRpos.toNat + pipebufsiz ∧
      stored.drop p.pWpos.toNat = [p.pBuf (p.pWpos.toNat % pipebufsiz : ℕ)]

/-- The bytes between the positions. -/
def unreadBytes (p : Pipe) (stored : List Byte) : List Byte :=
  (stored.take p.pWpos.toNat).drop p.pRpos.toNat

/-- The page holds the bytes that are stored and not taken. -/
structure PageOk (p : Pipe) (stored : List Byte) : Prop where
  le : p.pRpos.toNat ≤ p.pWpos.toNat
  room : p.pWpos.toNat ≤ p.pRpos.toNat + pipebufsiz
  counted : p.pWpos.toNat ≤ stored.length
  small : stored.length < 2 ^ 31
  holds : Ring.Holds pipebufsiz (fun i => p.pBuf i) p.pRpos.toNat (unreadBytes p stored)

/-- Nobody but the writer `a` is in a call. -/
structure PipeInv {ι : Type*} (s : PipeSys ι) (a : Option ι) : Prop where
  page : PageOk s.pipe s.stored
  reader : ReaderOk s.pipe s.stored s.reader
  idle : ∀ j, some j ≠ a → (s.writers j).pc = .idle
  writer : (a = none ∧ s.stored.length = s.pipe.pWpos.toNat) ∨
    ∃ j, a = some j ∧ WriterOk s.pipe s.stored (s.writers j)

section Preservation

variable {p p' : Pipe} {stored : List Byte} {rd rd' : Reader} {wr wr' : Writer} {l : ReadLabel}
  {lw : WriteLabel}

theorem PageOk.length_unread (h : PageOk p stored) :
    (unreadBytes p stored).length = p.pWpos.toNat - p.pRpos.toNat := by
  have := h.counted
  rw [unreadBytes, List.length_drop, List.length_take]
  omega

theorem PageOk.take (h : PageOk p stored) (hlt : p.pRpos.toNat < p.pWpos.toNat) :
    PageOk { p with pRpos := p.pRpos + 1#32 } stored := by
  have hsucc : (p.pRpos + 1#32).toNat = p.pRpos.toNat + 1 :=
    pos_succ (by have := h.counted; have := h.small; omega)
  have hroom := h.room
  refine ⟨?_, ?_, h.counted, h.small, ?_⟩
  · rw [hsucc]
    exact hlt
  · dsimp only
    omega
  · have hlen := h.length_unread
    rw [unreadBytes, hsucc, ← List.drop_drop]
    have hholds := h.holds
    rw [unreadBytes] at hholds hlen
    generalize (stored.take p.pWpos.toNat).drop p.pRpos.toNat = q at hholds hlen
    rcases q with _ | ⟨b, q⟩
    · rw [List.length_nil] at hlen
      omega
    · exact hholds.pop.2

theorem PageOk.first (h : PageOk p stored) (hlt : p.pRpos.toNat < p.pWpos.toNat) :
    stored.take (p.pRpos.toNat + 1) =
      stored.take p.pRpos.toNat ++ [p.pBuf (bufIndex p.pRpos)] := by
  have hcounted := h.counted
  have hsmall := h.small
  have hcell := h.holds.cell 0 (by rw [h.length_unread]; omega)
  simp only [Nat.add_zero, unreadBytes, List.getElem_drop, List.getElem_take] at hcell
  rw [bufIndex_eq (by omega)]
  refine (List.take_succ_eq_append_getElem (by omega)).trans ?_
  rw [hcell]

theorem read_preserves (hpage : PageOk p stored) (hrd : ReaderOk p stored rd)
    (h : ReadStep p rd l p' rd') :
    PageOk p' stored ∧ ReaderOk p' stored rd' ∧ p'.pWpos = p.pWpos ∧ p'.pBuf = p.pBuf ∧
      p.pRpos.toNat ≤ p'.pRpos.toNat := by
  have hle := hpage.le
  have hcounted := hpage.counted
  have hsmall := hpage.small
  cases h with
  | call h =>
    simp only [ReaderOk, h] at hrd
    exact ⟨hpage, hrd.2, rfl, rfl, le_rfl⟩
  | loadR h _ =>
    simp only [ReaderOk, h] at hrd
    exact ⟨hpage, ⟨rfl, hrd⟩, rfl, rfl, le_rfl⟩
  | loadW h _ =>
    simp only [ReaderOk, h] at hrd
    exact ⟨hpage, ⟨hle, le_rfl, hrd⟩, rfl, rfl, le_rfl⟩
  | testW h =>
    simp only [ReaderOk, h] at hrd
    obtain ⟨rfl, hrd⟩ := hrd
    refine ⟨hpage, ?_, rfl, rfl, le_rfl⟩
    split_ifs with heq
    · exact hrd
    · exact ⟨lt_of_le_of_ne hle fun h => heq (BitVec.eq_of_toNat_eq h), hrd⟩
  | testR h =>
    simp only [ReaderOk, h] at hrd
    obtain ⟨hrw, hw, hrd⟩ := hrd
    refine ⟨hpage, ?_, rfl, rfl, le_rfl⟩
    split_ifs with heq
    · exact hrd
    · exact ⟨(lt_of_le_of_ne hrw fun h => heq (BitVec.eq_of_toNat_eq h)).trans_le hw, hrd⟩
  | short h _ =>
    simp only [ReaderOk, h] at hrd
    exact ⟨hpage, ⟨rfl, by rw [← hrd]; simp [Reader.taken]⟩, rfl, rfl, le_rfl⟩
  | eof h hi =>
    simp only [ReaderOk, h] at hrd
    exact ⟨hpage, ⟨hi, hrd⟩, rfl, rfl, le_rfl⟩
  | again h _ =>
    simp only [ReaderOk, h] at hrd
    exact ⟨hpage, hrd, rfl, rfl, le_rfl⟩
  | index h =>
    simp only [ReaderOk, h] at hrd
    exact ⟨hpage, ⟨rfl, hrd⟩, rfl, rfl, le_rfl⟩
  | byte h =>
    simp only [ReaderOk, h] at hrd
    obtain ⟨rfl, hlt, hrd⟩ := hrd
    refine ⟨hpage, ⟨hlt, ?_⟩, rfl, rfl, le_rfl⟩
    rw [hpage.first hlt, ← hrd]
    simp [Reader.taken]
  | bump h =>
    simp only [ReaderOk, h] at hrd
    exact ⟨hpage, ⟨rfl, hrd⟩, rfl, rfl, le_rfl⟩
  | store h =>
    simp only [ReaderOk, h] at hrd
    obtain ⟨rfl, hlt, hrd⟩ := hrd
    have hsucc : (p.pRpos + 1#32).toNat = p.pRpos.toNat + 1 := pos_succ (by omega)
    refine ⟨hpage.take hlt, ?_, rfl, rfl, ?_⟩
    · simp only [ReaderOk, hsucc]
      exact hrd
    · dsimp only
      omega
  | done h _ =>
    simp only [ReaderOk, h] at hrd
    exact ⟨hpage, ⟨rfl, by rw [← hrd]; simp [Reader.taken]⟩, rfl, rfl, le_rfl⟩

theorem WriterOk.read (h : WriterOk p stored wr) (hw : p'.pWpos = p.pWpos) (hb : p'.pBuf = p.pBuf)
    (hr : p.pRpos.toNat ≤ p'.pRpos.toNat) : WriterOk p' stored wr := by
  unfold WriterOk at h ⊢
  split <;> simp_all <;> omega

theorem ReaderOk.write (h : ReaderOk p stored rd) {bs : List Byte} (hr : p'.pRpos = p.pRpos)
    (hw : p.pWpos.toNat ≤ p'.pWpos.toNat) (hpage : PageOk p stored) :
    ReaderOk p' (stored ++ bs) rd := by
  have hle := hpage.le
  have hcounted := hpage.counted
  have htake : ∀ k ≤ p.pWpos.toNat, (stored ++ bs).take k = stored.take k :=
    fun k hk => List.take_append_of_le_length (hk.trans hcounted)
  unfold ReaderOk at h ⊢
  rw [hr]
  split at h
  · rw [htake _ hle]
    exact h
  · rw [htake _ hle]
    exact h
  · rw [htake _ hle]
    exact h
  · rw [htake _ hle]
    exact h
  · rw [htake _ hle]
    exact ⟨h.1, h.2.1.trans hw, h.2.2⟩
  · rw [htake _ hle]
    exact ⟨h.1.trans_le hw, h.2⟩
  · rw [htake _ hle]
    exact ⟨h.1, h.2.1.trans_le hw, h.2.2⟩
  · rw [htake _ h.1]
    exact ⟨h.1.trans_le hw, h.2⟩
  · rw [htake _ h.2.1]
    exact ⟨h.1, h.2.1.trans_le hw, h.2.2⟩

theorem PageOk.byte (h : PageOk p stored) {b : Byte}
    (hroom : p.pWpos.toNat < p.pRpos.toNat + pipebufsiz) (hlen : stored.length = p.pWpos.toNat)
    (hsmall : (stored ++ [b]).length < 2 ^ 31) :
    PageOk { p with pBuf := update p.pBuf (bufIndex p.pWpos) b } (stored ++ [b]) := by
  have hle := h.le
  refine ⟨h.le, h.room, ?_, hsmall, ?_⟩
  · rw [length_append]
    exact h.counted.trans (Nat.le_add_right _ _)
  · have hsame : unreadBytes { p with pBuf := update p.pBuf (bufIndex p.pWpos) b }
        (stored ++ [b]) = unreadBytes p stored := by
      rw [unreadBytes, unreadBytes, List.take_append_of_le_length h.counted]
    rw [hsame]
    refine h.holds.congr fun i hi => ?_
    have hcount := h.length_unread
    have hne := Ring.cell_ne (n := pipebufsiz) (r := p.pRpos.toNat) hi (by omega)
    rw [hcount, Nat.add_sub_cancel' hle] at hne
    rw [bufIndex_eq (by rw [length_append] at hsmall; omega)]
    exact update_of_ne (fun heq => hne (Int.ofNat_inj.mp heq)) _ _

theorem PageOk.put (h : PageOk p stored) (hroom : p.pWpos.toNat < p.pRpos.toNat + pipebufsiz)
    (hlast : stored.drop p.pWpos.toNat = [p.pBuf (p.pWpos.toNat % pipebufsiz : ℕ)]) :
    PageOk { p with pWpos := p.pWpos + 1#32 } stored ∧
      stored.length = (p.pWpos + 1#32).toNat := by
  have hle := h.le
  have hsmall := h.small
  have hlen : stored.length = p.pWpos.toNat + 1 := by
    have := congrArg List.length hlast
    rw [List.length_drop, List.length_singleton] at this
    omega
  have hsucc : (p.pWpos + 1#32).toNat = p.pWpos.toNat + 1 := pos_succ (by omega)
  refine ⟨⟨?_, ?_, ?_, hsmall, ?_⟩, by rw [hsucc, hlen]⟩
  · dsimp only
    omega
  · dsimp only
    omega
  · dsimp only
    omega
  · have hall : unreadBytes { p with pWpos := p.pWpos + 1#32 } stored =
        unreadBytes p stored ++ [p.pBuf (p.pWpos.toNat % pipebufsiz : ℕ)] := by
      rw [unreadBytes, unreadBytes, hsucc, ← hlen, List.take_length, ← hlast]
      nth_rewrite 1 [← List.take_append_drop p.pWpos.toNat stored]
      refine List.drop_append_of_le_length ?_
      rw [List.length_take]
      exact le_min hle (hle.trans h.counted)
    have hcount := h.length_unread
    rw [hall]
    refine h.holds.push ?_ (fun _ _ => rfl) ?_
    · omega
    · rw [hcount, Nat.add_sub_cancel' hle]

theorem write_preserves (hpage : PageOk p stored) (hwr : WriterOk p stored wr)
    (h : WriteStep p wr lw p' wr') (hsmall : (stored ++ lw.bytes).length < 2 ^ 31) :
    PageOk p' (stored ++ lw.bytes) ∧ WriterOk p' (stored ++ lw.bytes) wr' ∧
      p'.pRpos = p.pRpos ∧ p.pWpos.toNat ≤ p'.pWpos.toNat := by
  have hle := hpage.le
  have hcounted := hpage.counted
  have hsmall' := hpage.small
  cases h with
  | call h =>
    simp only [WriterOk, h] at hwr
    rw [WriteLabel.bytes, append_nil]
    exact ⟨hpage, hwr, rfl, le_rfl⟩
  | loadW h _ =>
    simp only [WriterOk, h] at hwr
    rw [WriteLabel.bytes, append_nil]
    exact ⟨hpage, ⟨rfl, hwr⟩, rfl, le_rfl⟩
  | loadR h _ =>
    simp only [WriterOk, h] at hwr
    rw [WriteLabel.bytes, append_nil]
    exact ⟨hpage, ⟨le_rfl, hwr⟩, rfl, le_rfl⟩
  | testR h =>
    simp only [WriterOk, h] at hwr
    obtain ⟨rfl, hwr⟩ := hwr
    rw [WriteLabel.bytes, append_nil]
    refine ⟨hpage, ?_, rfl, le_rfl⟩
    split_ifs with hfull
    · exact hwr
    · rw [isFull_iff (by omega), not_le] at hfull
      exact ⟨hfull, hwr⟩
  | testW h =>
    simp only [WriterOk, h] at hwr
    obtain ⟨hr, hwr⟩ := hwr
    rw [WriteLabel.bytes, append_nil]
    refine ⟨hpage, ?_, rfl, le_rfl⟩
    split_ifs with hfull
    · exact hwr
    · rw [isFull_iff (by omega), not_le] at hfull
      exact ⟨hfull.trans_le (Nat.add_le_add_right hr _), hwr⟩
  | gone h =>
    simp only [WriterOk, h] at hwr
    rw [WriteLabel.bytes, append_nil]
    exact ⟨hpage, hwr, rfl, le_rfl⟩
  | again h =>
    simp only [WriterOk, h] at hwr
    rw [WriteLabel.bytes, append_nil]
    exact ⟨hpage, hwr, rfl, le_rfl⟩
  | index h =>
    simp only [WriterOk, h] at hwr
    rw [WriteLabel.bytes, append_nil]
    exact ⟨hpage, ⟨rfl, hwr⟩, rfl, le_rfl⟩
  | byte h hb =>
    simp only [WriterOk, h] at hwr
    obtain ⟨rfl, hroom, hlen⟩ := hwr
    refine ⟨hpage.byte hroom hlen hsmall, ⟨hroom, ?_⟩, rfl, le_rfl⟩
    rw [WriteLabel.bytes, List.drop_append_of_le_length hlen.ge, List.drop_of_length_le hlen.le,
      List.nil_append, bufIndex_eq (by omega)]
    dsimp only
    rw [update_self]
  | bump h =>
    simp only [WriterOk, h] at hwr
    rw [WriteLabel.bytes, append_nil]
    exact ⟨hpage, ⟨rfl, hwr⟩, rfl, le_rfl⟩
  | store h =>
    simp only [WriterOk, h] at hwr
    obtain ⟨rfl, hroom, hlast⟩ := hwr
    obtain ⟨hpage', hlen⟩ := hpage.put hroom hlast
    rw [WriteLabel.bytes, append_nil]
    refine ⟨hpage', hlen, rfl, ?_⟩
    dsimp only
    omega
  | done h _ =>
    simp only [WriterOk, h] at hwr
    rw [WriteLabel.bytes, append_nil]
    exact ⟨hpage, hwr, rfl, le_rfl⟩

end Preservation

/-! ### Runs -/

/-- A writer begins a call only while no other is in one. -/
def Solo {ι : Type*} (s : PipeSys ι) : PipeLabel ι → Prop
  | .reader _ => True
  | .writer j _ => (s.writers j).pc = .idle → ∀ k ≠ j, (s.writers k).pc = .idle

theorem solo_unit (s : PipeSys Unit) (l : PipeLabel Unit) : Solo s l := by
  cases l with
  | reader => trivial
  | writer j => exact fun _ k hk => absurd rfl hk

section Runs

variable {ι : Type*} [DecidableEq ι] {s s' : PipeSys ι} {a : Option ι} {l : PipeLabel ι}
  {ls : List (PipeLabel ι)}

omit [DecidableEq ι] in
theorem PipeInv.new : PipeInv (PipeSys.new : PipeSys ι) none := by
  refine ⟨⟨le_rfl, Nat.zero_le _, le_rfl, Nat.two_pow_pos 31, .nil⟩, ⟨rfl, rfl⟩, fun _ _ => rfl,
    .inl ⟨rfl, rfl⟩⟩

/-- The writer that takes a step is the only one that may be in a call. -/
theorem PipeInv.active (h : PipeInv s a) {j : ι} (hsolo : (s.writers j).pc = .idle →
    ∀ k ≠ j, (s.writers k).pc = .idle) :
    WriterOk s.pipe s.stored (s.writers j) ∧ ∀ k ≠ j, (s.writers k).pc = .idle := by
  by_cases hj : a = some j
  · obtain ⟨hnone, _⟩ | ⟨k, hk, hwr⟩ := h.writer
    · rw [hj] at hnone
      cases hnone
    · cases hj.symm.trans hk
      exact ⟨hwr, fun k hk => h.idle k fun heq => hk (Option.some.inj (heq.trans hj))⟩
  · have hidle := h.idle j (Ne.symm hj)
    have hlen : s.stored.length = s.pipe.pWpos.toNat := by
      obtain ⟨_, hlen⟩ | ⟨k, hk, hwr⟩ := h.writer
      · exact hlen
      · have hkj : k ≠ j := fun heq => hj (heq ▸ hk)
        simpa only [WriterOk, hsolo hidle k hkj] using hwr
    exact ⟨by simpa only [WriterOk, hidle] using hlen, hsolo hidle⟩

theorem PipeInv.step (h : PipeInv s a) (hs : PipeStep s l s') (hsolo : Solo s l)
    (hsmall : s'.stored.length < 2 ^ 31) : ∃ a, PipeInv s' a := by
  cases hs with
  | read hs =>
    obtain ⟨hpage, hrd, hw, hb, hr⟩ := read_preserves h.page h.reader hs
    refine ⟨a, hpage, hrd, h.idle, ?_⟩
    obtain ⟨ha, hlen⟩ | ⟨j, hj, hwr⟩ := h.writer
    · exact .inl ⟨ha, hw ▸ hlen⟩
    · exact .inr ⟨j, hj, hwr.read hw hb hr⟩
  | @write j _ _ wr hs =>
    obtain ⟨hwr, hidle⟩ := h.active hsolo
    obtain ⟨hpage, hwr', hr, hw⟩ := write_preserves h.page hwr hs hsmall
    refine ⟨some j, hpage, h.reader.write hr hw h.page, fun k hk => ?_, .inr ⟨j, rfl, ?_⟩⟩
    · have hkj : k ≠ j := fun heq => hk (congrArg some heq)
      dsimp only
      rw [update_of_ne hkj]
      exact hidle k hkj
    · dsimp only
      rw [update_self]
      exact hwr'

theorem PipeStep.stored_le (hs : PipeStep s l s') : s.stored.length ≤ s'.stored.length := by
  cases hs with
  | read => exact le_rfl
  | write =>
    rw [length_append]
    omega

theorem PipeInv.run (h : Run (fun s l s' => PipeStep s l s' ∧ Solo s l) .new ls s)
    (hsmall : s.stored.length < 2 ^ 31) : ∃ a, PipeInv s a := by
  induction h with
  | nil => exact ⟨none, .new⟩
  | snoc _ hs ih =>
    obtain ⟨a, ha⟩ := ih (hs.1.stored_le.trans_lt hsmall)
    exact ha.step hs.1 hs.2 hsmall

theorem ReaderOk.taken_isPrefix {p : Pipe} {stored : List Byte} {rd : Reader}
    (h : ReaderOk p stored rd) : rd.taken <+: stored := by
  unfold ReaderOk at h
  split at h
  · exact h.2 ▸ take_prefix _ _
  · exact h ▸ take_prefix _ _
  · exact h ▸ take_prefix _ _
  · exact h.2 ▸ take_prefix _ _
  · exact h.2.2 ▸ take_prefix _ _
  · exact h.2 ▸ take_prefix _ _
  · exact h.2.2 ▸ take_prefix _ _
  · exact h.2 ▸ take_prefix _ _
  · exact h.2.2 ▸ take_prefix _ _

theorem PipeInv.kept (h : PipeInv s a) (hs : PipeStep s l s') (hsolo : Solo s l)
    (hsmall : s'.stored.length < 2 ^ 31) {k : ℕ} (hk : s.pipe.pRpos.toNat ≤ k)
    (hk' : k < s.stored.length) :
    s'.pipe.pBuf (k % pipebufsiz : ℕ) = s.pipe.pBuf (k % pipebufsiz : ℕ) := by
  cases hs with
  | read hs =>
    obtain ⟨-, -, -, hb, -⟩ := read_preserves h.page h.reader hs
    exact congrFun hb _
  | write hs =>
    obtain ⟨hwr, -⟩ := h.active hsolo
    cases hs with
    | byte hpc _ =>
      simp only [WriterOk, hpc] at hwr
      obtain ⟨rfl, hroom, hlen⟩ := hwr
      have hsmall' := h.page.small
      have hne := Ring.cell_ne (n := pipebufsiz) (r := 0) (i := k) (j := s.pipe.pWpos.toNat)
        (by omega) (by omega)
      rw [Nat.zero_add, Nat.zero_add] at hne
      rw [bufIndex_eq (by omega)]
      exact update_of_ne (fun heq => hne (Int.ofNat_inj.mp heq)) _ _
    | _ => rfl

end Runs

/-- **A pipe is a queue.** In every run of one reader and one writer on a new pipe, as long as
    fewer than 2³¹ bytes are written: what the reads have returned, and what the read in progress
    has taken, is a prefix of what was stored; the positions are at most a buffer apart; and no
    step changes the cell of a byte that is stored and not counted as read. -/
theorem pipe_fifo {s : PipeSys Unit} {ls : List (PipeLabel Unit)} (h : Run PipeStep .new ls s)
    (hsmall : s.stored.length < 2 ^ 31) :
    s.reader.returned <+: s.stored ∧ s.reader.returned ++ s.reader.buf <+: s.stored ∧
      0 ≤ s.pipe.pWpos.toInt - s.pipe.pRpos.toInt ∧
      s.pipe.pWpos.toInt - s.pipe.pRpos.toInt ≤ pipebufsiz ∧
      ∀ l s', PipeStep s l s' → s'.stored.length < 2 ^ 31 →
        ∀ k, s.pipe.pRpos.toNat ≤ k → k < s.stored.length →
          s'.pipe.pBuf (k % pipebufsiz : ℕ) = s.pipe.pBuf (k % pipebufsiz : ℕ) := by
  obtain ⟨a, ha⟩ := PipeInv.run (h.mono fun _ _ _ hs => ⟨hs, solo_unit _ _⟩) hsmall
  have htaken := ha.reader.taken_isPrefix
  have hle := ha.page.le
  have hroom := ha.page.room
  have hcounted := ha.page.counted
  rw [BitVec.toInt_eq_toNat_of_lt (by omega), BitVec.toInt_eq_toNat_of_lt (by omega)]
  refine ⟨(List.prefix_append _ _).trans htaken, htaken, by omega, by omega, ?_⟩
  intro l s' hs hsmall' k hk hk'
  exact ha.kept hs (solo_unit _ _) hsmall' hk hk'

/-- One byte goes through the pipe. -/
theorem pipe_fifo_byte : ∃ (s : PipeSys Unit) (ls : List (PipeLabel Unit)),
    Run PipeStep .new ls s ∧ s.stored = [7] ∧ s.reader.returned = [7] ∧
      s.reader.returned <+: s.stored := by
  have h1 : Run PipeStep (.new : PipeSys Unit) _ _ :=
    .single (.write (j := ()) (show WriteStep _ _ (.call [7]) _ _ from .call rfl))
  have h2 := h1.snoc (.write (j := ()) (.loadW rfl nofun))
  have h3 := h2.snoc (.write (j := ()) (.testR rfl))
  have h4 := h3.snoc (.write (j := ()) (.index rfl))
  have h5 := h4.snoc (.write (j := ()) (.byte rfl rfl))
  have h6 := h5.snoc (.write (j := ()) (.bump rfl))
  have h7 := h6.snoc (.write (j := ()) (.store rfl))
  have h8 := h7.snoc (.read (show ReadStep _ _ (.call 1) _ _ from .call rfl))
  have h9 := h8.snoc (.read (.loadW rfl (by decide)))
  have h10 := h9.snoc (.read (.testR rfl))
  have h11 := h10.snoc (.read (.index rfl))
  have h12 := h11.snoc (.read (.byte rfl))
  have h13 := h12.snoc (.read (.bump rfl))
  have h14 := h13.snoc (.read (.store rfl))
  have h15 := h14.snoc (.read (.done rfl (by decide)))
  exact ⟨_, _, h15, rfl, rfl, (pipe_fifo h15 (by decide)).1⟩

end LinuxStudy.User
