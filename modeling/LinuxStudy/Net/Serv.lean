import LinuxStudy.Lib.Pool
import LinuxStudy.Lib.Run
import LinuxStudy.Jos.Mmu

/-!
# The network server

The main loop of `net/serv.c` with its request buffers, and the threads it makes for requests. The
threads are cooperative: another one runs only while this one is in `thread_yield`, and nothing
runs while the main loop is in `ipc_recv`, which blocks the whole environment. Which thread runs
next, and how often a request waits inside lwIP, is left open.
-/

namespace LinuxStudy.Net

open Jos

/-- `QUEUE_SIZE`. -/
def queueSize : ℕ := 20

instance : NeZero queueSize := ⟨by decide⟩

/-- The page at `REQVA + i * PGSIZE`. -/
abbrev Buffer := Fin queueSize

def nsreqInput : Word := 10

def nsreqTimer : Word := 12

/-- `struct st_args`. -/
structure StArgs where
  reqno : Word
  whom : Word
  req : Buffer
  deriving DecidableEq, Repr

/-- What `ipc_recv` returns: the value, the sender, and `env_ipc_perm`. When no page came with the
    message, this can be the permission of an earlier one. -/
structure Message where
  reqno : Word
  whom : Word
  perm : Word
  deriving DecidableEq, Repr

inductive ServePanic
  /-- `NS: buffer overflow`. -/
  | bufferOverflow
  /-- `could not allocate thread args structure`. -/
  | noArgs
  /-- `ipc_send` panics when the receiver is gone. -/
  | ipcSend
  deriving DecidableEq, Repr

/-- Where the main loop is. -/
inductive ServePc
  /-- After `i` yields of the first loop. -/
  | flush (i : ℕ)
  | recv (va : Buffer)
  /-- `process_timer`, in `thread_yield`. -/
  | timer (va : Buffer)
  /-- The `thread_yield` after `thread_create`. -/
  | created
  | panicked (why : ServePanic)
  deriving DecidableEq, Repr

structure Server where
  buse : Buffer → Bool
  pc : ServePc
  /-- The request threads that have not finished. -/
  threads : List StArgs
  timerEnvid : Word

/-- The first buffer that is not in use; `none` is the panic. -/
def getBuffer (buse : Buffer → Bool) : Option Buffer :=
  (List.finRange queueSize).find? fun i => !buse i

def putBuffer (buse : Buffer → Bool) (va : Buffer) : Buffer → Bool := Function.update buse va false

/-- The main loop lets the other threads run. -/
def ServePc.yields : ServePc → Bool
  | .flush _ | .timer _ | .created => true
  | .recv _ | .panicked _ => false

/-- The buffer that the main loop has taken and not passed on. -/
def ServePc.held : ServePc → List Buffer
  | .recv va | .timer va => [va]
  | .flush _ | .created | .panicked _ => []

inductive ServeLabel
  | main
  /-- A message arrives; when a thread is to be made for it, `created` says whether
      `thread_create` succeeded. -/
  | message (m : Message) (created : Bool)
  | thread (a : StArgs)

inductive ServeStep : Server → ServeLabel → Server → Prop
  | flush {s : Server} {i : ℕ} (hpc : s.pc = .flush i) (hi : i < 32) :
      ServeStep s .main { s with pc := .flush (i + 1) }
  | getBuffer {s : Server} {i : ℕ} {va : Buffer} (hpc : s.pc = .flush i)
      (hva : getBuffer s.buse = some va) :
      ServeStep s .main { s with buse := Function.update s.buse va true, pc := .recv va }
  | overflow {s : Server} {i : ℕ} (hpc : s.pc = .flush i) (hva : getBuffer s.buse = none) :
      ServeStep s .main { s with pc := .panicked .bufferOverflow }
  | timer {s : Server} {va : Buffer} {m : Message} {c : Bool} (hpc : s.pc = .recv va)
      (hreq : m.reqno = nsreqTimer) (hwhom : m.whom = s.timerEnvid) :
      ServeStep s (.message m c) { s with pc := .timer va }
  /-- From an environment that is not the timer. -/
  | notTimer {s : Server} {va : Buffer} {m : Message} {c : Bool} (hpc : s.pc = .recv va)
      (hreq : m.reqno = nsreqTimer) (hwhom : m.whom ≠ s.timerEnvid) :
      ServeStep s (.message m c) { s with buse := putBuffer s.buse va, pc := .flush 0 }
  | timerDone {s : Server} {va : Buffer} (hpc : s.pc = .timer va) :
      ServeStep s .main { s with buse := putBuffer s.buse va, pc := .flush 0 }
  | timerPanic {s : Server} {va : Buffer} (hpc : s.pc = .timer va) :
      ServeStep s .main { s with pc := .panicked .ipcSend }
  /-- `continue; // just leave it hanging...`, with the buffer. -/
  | noPage {s : Server} {va : Buffer} {m : Message} {c : Bool} (hpc : s.pc = .recv va)
      (hreq : m.reqno ≠ nsreqTimer) (hpage : ¬has m.perm pteP) :
      ServeStep s (.message m c) { s with pc := .flush 0 }
  | noArgs {s : Server} {va : Buffer} {m : Message} {c : Bool} (hpc : s.pc = .recv va)
      (hreq : m.reqno ≠ nsreqTimer) (hpage : has m.perm pteP) :
      ServeStep s (.message m c) { s with pc := .panicked .noArgs }
  | request {s : Server} {va : Buffer} {m : Message} (hpc : s.pc = .recv va)
      (hreq : m.reqno ≠ nsreqTimer) (hpage : has m.perm pteP) :
      ServeStep s (.message m true)
        { s with threads := s.threads ++ [⟨m.reqno, m.whom, va⟩], pc := .created }
  /-- The result of `thread_create` is not looked at. -/
  | noThread {s : Server} {va : Buffer} {m : Message} (hpc : s.pc = .recv va)
      (hreq : m.reqno ≠ nsreqTimer) (hpage : has m.perm pteP) :
      ServeStep s (.message m false) { s with pc := .created }
  | resume {s : Server} (hpc : s.pc = .created) : ServeStep s .main { s with pc := .flush 0 }
  /-- A request waits inside lwIP. -/
  | wait {s : Server} {a : StArgs} (hpc : s.pc.yields = true) (ha : a ∈ s.threads) :
      ServeStep s (.thread a) s
  | finish {s : Server} {a : StArgs} (hpc : s.pc.yields = true) (ha : a ∈ s.threads) :
      ServeStep s (.thread a)
        { s with buse := putBuffer s.buse a.req, threads := s.threads.erase a }
  | threadPanic {s : Server} {a : StArgs} (hpc : s.pc.yields = true) (ha : a ∈ s.threads)
      (hreq : a.reqno ≠ nsreqInput) :
      ServeStep s (.thread a) { s with pc := .panicked .ipcSend }

/-- At the beginning of `serve`. -/
def Server.init (timerEnvid : Word) : Server where
  buse _ := false
  pc := .flush 0
  threads := []
  timerEnvid := timerEnvid

/-- A message that is not for the timer is reported with a page and gets a thread. -/
def ServeLabel.Served : ServeLabel → Prop
  | .message m c => m.reqno ≠ nsreqTimer → has m.perm pteP ∧ c = true
  | .main | .thread _ => True

def ServedStep (s : Server) (l : ServeLabel) (s' : Server) : Prop := ServeStep s l s' ∧ l.Served

/-! ### Who has which buffer -/

theorem getBuffer_some {buse : Buffer → Bool} {va : Buffer} (h : getBuffer buse = some va) :
    buse va = false := by
  simpa using List.find?_some h

theorem getBuffer_none {buse : Buffer → Bool} (h : getBuffer buse = none) (va : Buffer) :
    buse va = true := by
  simpa using List.find?_eq_none.mp h va (List.mem_finRange va)

namespace Server

/-- The buffers of the main loop and of the unfinished requests. -/
def taken (s : Server) : List Buffer := s.pc.held ++ s.threads.map StArgs.req

/-- The flags that are set are those of the taken buffers and of buffers that are lost. -/
structure Inv (s : Server) (lost : List Buffer) : Prop where
  holds : (∀ why, s.pc ≠ .panicked why) → Pool.Holds s.buse (s.taken ++ lost)
  nodup : (s.threads.map StArgs.req).Nodup
  overflow : s.pc = .panicked .bufferOverflow → queueSize ≤ s.threads.length + lost.length

namespace Inv

variable {s s' : Server} {l : ServeLabel} {lost : List Buffer}

theorem init (t : Word) : (Server.init t).Inv [] where
  holds _ := .empty
  nodup := List.nodup_nil
  overflow h := by cases h

section

variable (h : s.Inv lost)
include h

theorem setPc {pc : ServePc} (hlive : ∀ why, s.pc ≠ .panicked why)
    (hheld : pc.held = s.pc.held) (hnot : pc ≠ .panicked .bufferOverflow) :
    Inv { s with pc := pc } lost where
  holds _ := by
    rw [taken, hheld]
    exact h.holds hlive
  nodup := h.nodup
  overflow hpc := absurd hpc hnot

theorem put {va : Buffer} (hlive : ∀ why, s.pc ≠ .panicked why)
    (hheld : s.pc.held = [va]) :
    Inv { s with buse := putBuffer s.buse va, pc := .flush 0 } lost where
  holds _ := by
    have hh := h.holds hlive
    rw [taken, hheld] at hh
    exact hh.give
  nodup := h.nodup
  overflow hpc := by cases hpc

theorem lose {va : Buffer} {pc : ServePc} (hlive : ∀ why, s.pc ≠ .panicked why)
    (hheld : s.pc.held = [va]) (hpc : pc.held = []) (hnot : pc ≠ .panicked .bufferOverflow) :
    Inv { s with pc := pc } (va :: lost) where
  holds _ := by
    have hh := h.holds hlive
    rw [taken, hheld] at hh
    rw [taken, hpc]
    exact hh.perm List.perm_middle.symm
  nodup := h.nodup
  overflow hpc' := absurd hpc' hnot

theorem panic {why : ServePanic} (hwhy : why ≠ .bufferOverflow) :
    Inv { s with pc := .panicked why } lost where
  holds hlive := absurd rfl (hlive why)
  nodup := h.nodup
  overflow hpc := by
    cases hpc
    exact absurd rfl hwhy

/-- A buffer is lost only by a message without a page or without a thread. -/
theorem step (hs : ServeStep s l s') :
    ∃ lost', s'.Inv lost' ∧ (l.Served → lost' = lost) := by
  cases hs with
  | flush hpc | resume hpc =>
    exact ⟨lost, h.setPc (by rw [hpc]; nofun) (by rw [hpc]; rfl) nofun, fun _ => rfl⟩
  | getBuffer hpc hva =>
    have hh := h.holds (by rw [hpc]; nofun)
    rw [taken, hpc] at hh
    exact ⟨lost, ⟨fun _ => hh.take (getBuffer_some hva), h.nodup, by nofun⟩, fun _ => rfl⟩
  | overflow hpc hva =>
    have hh := h.holds (by rw [hpc]; nofun)
    rw [taken, hpc] at hh
    refine ⟨lost, ⟨fun hlive => absurd rfl (hlive _), h.nodup, fun _ => ?_⟩, fun _ => rfl⟩
    have hfull := hh.full (getBuffer_none hva)
    simpa [ServePc.held] using hfull.ge
  | timer hpc => exact ⟨lost, h.setPc (by rw [hpc]; nofun) (by rw [hpc]; rfl) nofun, fun _ => rfl⟩
  | notTimer hpc | timerDone hpc =>
    exact ⟨lost, h.put (by rw [hpc]; nofun) (by rw [hpc]; rfl), fun _ => rfl⟩
  | @noPage va m c hpc hreq hpage =>
    refine ⟨va :: lost, h.lose (by rw [hpc]; nofun) (by rw [hpc]; rfl) rfl nofun, fun hserved => ?_⟩
    exact absurd (hserved hreq).1 hpage
  | @noThread va m hpc hreq =>
    refine ⟨va :: lost, h.lose (by rw [hpc]; nofun) (by rw [hpc]; rfl) rfl nofun, fun hserved => ?_⟩
    have hc := (hserved hreq).2
    cases hc
  | request hpc =>
    have hh := h.holds (by rw [hpc]; nofun)
    rw [taken, hpc] at hh
    -- the buffer goes from the loop to the request
    have hh' := hh.perm (List.perm_append_comm.append_right lost)
    refine ⟨lost, ⟨fun _ => ?_, ?_, by nofun⟩, fun _ => rfl⟩
    · rw [taken, List.map_append]
      exact hh'
    · rw [List.map_append]
      exact (List.nodup_append.mp hh'.nodup).1
  | noArgs | timerPanic | threadPanic => exact ⟨lost, h.panic nofun, fun _ => rfl⟩
  | wait => exact ⟨lost, h, fun _ => rfl⟩
  | @finish a hpc ha =>
    have hlive : ∀ why, s.pc ≠ .panicked why := by
      intro why hw
      rw [hw] at hpc
      cases hpc
    have hh := h.holds hlive
    -- the buffer of this request, then the others
    have hperm : (s.taken ++ lost).Perm
        (a.req :: ((s.pc.held ++ (s.threads.erase a).map StArgs.req) ++ lost)) := by
      have hmap := (List.perm_cons_erase ha).map StArgs.req
      exact ((hmap.append_left _).trans List.perm_middle).append_right lost
    refine ⟨lost, ⟨fun _ => (hh.perm hperm).give, ?_, fun hp => absurd hp (hlive _)⟩, fun _ => rfl⟩
    exact (List.erase_sublist.map StArgs.req).nodup h.nodup

end

end Inv

end Server

/-- In every run in which each message that is not for the timer is reported with a page and gets a
    thread: while the server waits in `ipc_recv`, one flag is set for the buffer it waits with and
    one for each unfinished request; no two of these share a buffer; and `get_buffer` panics only
    with at least `QUEUE_SIZE - 1` unfinished requests. -/
theorem buffers_accounted {t : Word} {ls : List ServeLabel} {s : Server}
    (h : Run ServedStep (.init t) ls s) :
    (∀ va, s.pc = .recv va →
      (Finset.univ.filter fun i => s.buse i = true).card = 1 + s.threads.length) ∧
    (s.threads.map StArgs.req).Nodup ∧
    (s.pc = .panicked .bufferOverflow → queueSize - 1 ≤ s.threads.length) := by
  have hinv : s.Inv [] := by
    refine h.invariant (fun s => s.Inv []) (.init t) fun a l b ha hs => ?_
    obtain ⟨lost, hb, hserved⟩ := ha.step hs.1
    rwa [hserved hs.2] at hb
  refine ⟨fun va hpc => ?_, hinv.nodup, fun hpc => (Nat.sub_le _ _).trans (hinv.overflow hpc)⟩
  have hh := hinv.holds (by rw [hpc]; nofun)
  rw [List.append_nil] at hh
  rw [hh.card, Server.taken, hpc, List.length_append, List.length_map]
  rfl

/-- Two requests, of the environments 7 and 8, while the server waits for the next message. -/
theorem buffers_accounted_two : ∃ (ls : List ServeLabel) (s : Server),
    Run ServedStep (.init 5) ls s ∧ s.pc = .recv 2 ∧ s.threads = [⟨9, 7, 0⟩, ⟨10, 8, 1⟩] ∧
      (Finset.univ.filter fun i => s.buse i = true).card = 1 + s.threads.length := by
  have h1 : Run ServedStep (.init 5) _ _ :=
    .single ⟨.getBuffer rfl (show getBuffer _ = some 0 by decide), trivial⟩
  have hperm : has (pteP ||| pteU) pteP := by decide
  have h2 := h1.snoc ⟨.request (m := ⟨9, 7, _⟩) rfl (by decide) hperm, fun _ => ⟨hperm, rfl⟩⟩
  have h3 := h2.snoc ⟨.resume rfl, trivial⟩
  have h4 := h3.snoc ⟨.getBuffer rfl (show getBuffer _ = some 1 by decide), trivial⟩
  have h5 := h4.snoc ⟨.request (m := ⟨10, 8, _⟩) rfl (by decide) hperm, fun _ => ⟨hperm, rfl⟩⟩
  have h6 := h5.snoc ⟨.resume rfl, trivial⟩
  have h7 := h6.snoc ⟨.getBuffer rfl (show getBuffer _ = some 2 by decide), trivial⟩
  exact ⟨_, _, h7, rfl, rfl, (buffers_accounted h7).1 2 rfl⟩

/-- After one message without a page the server waits with two flags set and no request. -/
theorem buffer_leaked : ∃ (ls : List ServeLabel) (s : Server),
    Run ServeStep (.init 5) ls s ∧ s.pc = .recv 1 ∧ s.threads = [] ∧
      (Finset.univ.filter fun i => s.buse i = true).card = 2 := by
  have h1 : Run ServeStep (.init 5) _ _ :=
    .single (.getBuffer rfl (show getBuffer _ = some 0 by decide))
  have h2 := h1.snoc (.noPage (m := ⟨9, 7, 0⟩) (c := false) rfl (by decide) (by decide))
  have h3 := h2.snoc (.getBuffer rfl (show getBuffer _ = some 1 by decide))
  exact ⟨_, _, h3, rfl, rfl, by decide⟩

end LinuxStudy.Net
