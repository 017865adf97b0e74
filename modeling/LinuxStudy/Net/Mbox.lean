import LinuxStudy.Lib.Ring
import LinuxStudy.Lib.Run
import LinuxStudy.Jos.Mmu

/-!
# The mailboxes of the lwIP port

A mailbox is a ring of 32 messages with two semaphores, one that counts the messages and one that
counts the free slots. The threads are cooperative: a thread runs until it yields in `thread_wait`,
which it does only to wait for a semaphore. What is modelled here lets another thread run also
between two turns of the loop in `sys_arch_sem_wait`, so every schedule of the threads is among the
runs. The clock may show anything.
-/

namespace LinuxStudy.Net.Mbox

open Jos
open Function (update update_of_ne update_self)

def nsem : ℕ := 256
def mboxslots : ℕ := 32
def sysArchTimeout : Word := 0xffffffff
def sysArchNowait : Word := 0xfffffffe

instance : NeZero nsem := ⟨by decide⟩

abbrev SemIx := Fin nsem

/-! ### Semaphores -/

/-- `struct sys_sem_entry`. -/
structure SemEntry where
  freed : Bool
  gen : Word
  counter : BitVec 16
  waiters : BitVec 16

/-- The two halves of the union, as one word. -/
def SemEntry.v (e : SemEntry) : Word := e.waiters ++ e.counter

/-- `sems` and `sem_free`: the list holds the free semaphores, each once. -/
structure SemTable where
  sems : SemIx → SemEntry
  semFree : List SemIx
  nodup : semFree.Nodup
  mem_iff : ∀ i, i ∈ semFree ↔ (sems i).freed = true

namespace SemTable

/-- `sys_sem_new`: the first free semaphore, if there is one. -/
def sysSemNew (tab : SemTable) (count : BitVec 8) : SemTable × Option SemIx :=
  match h : tab.semFree with
  | [] => (tab, none)
  | i :: rest =>
    ({ sems := update tab.sems i
         { tab.sems i with freed := false, counter := count.zeroExtend 16, gen :=
           (tab.sems i).gen + 1 }
       semFree := rest
       nodup := by
         have hnodup := tab.nodup
         rw [h] at hnodup
         exact hnodup.of_cons
       mem_iff := by
         intro j
         have hnodup := tab.nodup
         have hj := tab.mem_iff j
         rw [h] at hnodup hj
         by_cases hji : j = i
         · subst hji
           simp [(List.nodup_cons.mp hnodup).1]
         · rw [update_of_ne hji, ← hj, List.mem_cons, or_iff_right hji] }, some i)

theorem sysSemNew_some {tab tab' : SemTable} {count : BitVec 8} {i : SemIx}
    (h : tab.sysSemNew count = (tab', some i)) :
    i ∈ tab.semFree ∧ (tab'.sems i).freed = false ∧ (tab'.sems i).counter = count.zeroExtend 16 ∧
      ∀ j ≠ i, tab'.sems j = tab.sems j := by
  rw [sysSemNew] at h
  split at h
  · cases h
  · next i' rest hfree =>
    obtain ⟨rfl, hi⟩ := Prod.mk.inj h
    obtain rfl := Option.some.inj hi
    have hmem : i' ∈ tab.semFree := hfree ▸ List.mem_cons_self ..
    refine ⟨hmem, ?_, ?_, fun j hj => ?_⟩
    · simp
    · simp
    · exact update_of_ne hj ..

/-- `sys_init`. -/
def sysInit (sems : SemIx → SemEntry) : SemTable where
  sems i := { sems i with freed := true }
  semFree := (List.finRange nsem).reverse
  nodup := List.nodup_reverse.mpr (List.nodup_finRange nsem)
  mem_iff i := by simp

end SemTable

/-! ### A mailbox -/

/-- `struct sys_mbox_entry`. -/
structure MboxEntry (M : Type*) where
  freed : Bool
  head : ℤ
  nextq : ℤ
  msg : ℕ → M
  queuedMsg : SemIx
  freeMsg : SemIx

/-- The stores of `sys_mbox_trypost` into the entry. -/
def MboxEntry.put {M : Type*} (mbox : MboxEntry M) (msg : M) : MboxEntry M :=
  let slot := mbox.nextq
  { mbox with
    nextq := (slot + 1).tmod mboxslots
    msg := update mbox.msg slot.toNat msg
    head := if mbox.head = -1 then slot else mbox.head }

/-- The stores of `sys_arch_mbox_fetch` into the entry. -/
def MboxEntry.drop {M : Type*} (mbox : MboxEntry M) : MboxEntry M :=
  let head := (mbox.head + 1).tmod mboxslots
  { mbox with head := if head = mbox.nextq then -1 else head }

/-- `sys_mbox_new`, on an entry that is free: a failed assertion, or no semaphore, is `none`. -/
def sysMboxNew {M : Type*} (tab : SemTable) (mbe : MboxEntry M) (size : ℤ) :
    Option (SemTable × MboxEntry M) :=
  if size < mboxslots ∧ mbe.freed = true then
    match tab.sysSemNew 0 with
    | (_, none) => none
    | (tab, some queuedMsg) =>
      match tab.sysSemNew (BitVec.ofNat 8 mboxslots) with
      | (_, none) => none
      | (tab, some freeMsg) =>
        some (tab, { mbe with freed := false, head := -1, nextq := 0, queuedMsg, freeMsg })
  else none

/-- The fields of `struct thread_context` that waiting is about. -/
structure ThreadContext where
  waitAddr : Option SemIx
  wakeup : Bool

/-- A call on the mailbox. -/
inductive Call (M : Type*)
  | trypost (msg : M)
  | fetch (tmMsec : Word)

/-- `sys_arch_mbox_tryfetch`. -/
def Call.tryfetch {M : Type*} : Call M := .fetch sysArchNowait

/-- What a call returns. -/
inductive Ret (M : Type*)
  /-- `ERR_OK`. -/
  | ok
  /-- `ERR_MEM`. -/
  | errMem
  | fetched (msg : M) (waited : Word)
  /-- `SYS_ARCH_TIMEOUT`. -/
  | timeout
  /-- `no message`, or a failed assertion. -/
  | panic

/-- Where a thread is. -/
inductive Pc (M : Type*)
  /-- In no call on this mailbox. -/
  | idle
  /-- At the head of the loop of `sys_arch_sem_wait`. -/
  | test (c : Call M) (gen waited : Word)
  /-- At the head of the loop of `thread_wait`. -/
  | wait (c : Call M) (gen waited a curV sleepUntil s p : Word)

structure Lwip (T M : Type*) where
  sems : SemIx → SemEntry
  mbox : MboxEntry M
  threads : T → ThreadContext
  pc : T → Pc M

/-- The semaphore a call waits for, and for how long. -/
def Call.sem {M : Type*} (mbox : MboxEntry M) : Call M → SemIx
  | .trypost _ => mbox.freeMsg
  | .fetch _ => mbox.queuedMsg

def Call.tmMsec {M : Type*} : Call M → Word
  | .trypost _ => 0
  | .fetch tm => tm

/-- One turn of the loop in `sys_arch_sem_wait`. -/
inductive Turn
  | take
  | timeout
  | block

def semTurn (e : SemEntry) (tmMsec waited : Word) : Turn :=
  if tmMsec = 0 ∨ waited < tmMsec then
    if 0 < e.counter then .take
    else if tmMsec = sysArchNowait then .timeout
    else .block
  else .timeout

/-- The test of the loop in `thread_wait`. -/
def keepsWaiting (p msec s v val : Word) (wakeup : Bool) : Prop :=
  p < msec ∧ ¬ p < s ∧ v = val ∧ wakeup = false

def Lwip.setSem {T M : Type*} (st : Lwip T M) (i : SemIx) (f : SemEntry → SemEntry) : Lwip T M :=
  { st with sems := update st.sems i (f (st.sems i)) }

/-- The semaphore is taken. -/
def Lwip.decr {T M : Type*} (st : Lwip T M) (i : SemIx) : Lwip T M :=
  st.setSem i fun e => { e with counter := e.counter - 1 }

def Lwip.setMbox {T M : Type*} (st : Lwip T M) (mbox : MboxEntry M) : Lwip T M :=
  { st with mbox := mbox }

section Calls

variable {T M : Type*} [DecidableEq T]

namespace Lwip

variable (st : Lwip T M) (t : T)

/-- `thread_wakeup`; the thread that runs is not in the queue. -/
def threadWakeup (i : SemIx) : Lwip T M :=
  { st with threads := fun u =>
      if u ≠ t ∧ (st.threads u).waitAddr = some i then { st.threads u with wakeup := true }
      else st.threads u }

def sysSemSignal (i : SemIx) : Option (Lwip T M) :=
  if (st.sems i).freed then none
  else
    let st := st.setSem i fun e => { e with counter := e.counter + 1 }
    if (st.sems i).waiters ≠ 0 then
      some ((st.setSem i fun e => { e with waiters := 0 }).threadWakeup t i)
    else some st

/-- `sys_mbox_trypost` after the wait, whose result it does not look at. -/
def trypostRest (msg : M) : Lwip T M × Ret M :=
  if st.mbox.nextq = st.mbox.head then (st, .errMem)
  else
    match (st.setMbox (st.mbox.put msg)).sysSemSignal t st.mbox.queuedMsg with
    | none => (st, .panic)
    | some st => (st, .ok)

/-- `sys_arch_mbox_fetch` after the wait. -/
def fetchRest (waited : Word) : Lwip T M × Ret M :=
  if waited = sysArchTimeout then (st, .timeout)
  else
    let slot := st.mbox.head
    if slot = -1 then (st, .panic)
    else
      let msg := st.mbox.msg slot.toNat
      match (st.setMbox st.mbox.drop).sysSemSignal t st.mbox.freeMsg with
      | none => (st, .panic)
      | some st => (st, .fetched msg waited)

def rest (c : Call M) (waited : Word) : Lwip T M × Ret M :=
  match c with
  | .trypost msg => st.trypostRest t msg
  | .fetch _ => st.fetchRest t waited

def setPc (pc : Pc M) : Lwip T M := { st with pc := update st.pc t pc }

def setThread (tc : ThreadContext) : Lwip T M :=
  { st with threads := update st.threads t tc }

end Lwip

inductive Label (T M : Type*)
  | ret (t : T) (c : Call M) (r : Ret M)
  /-- A thread starts a call, or waits. -/
  | run (t : T)
  | other

inductive Step : Lwip T M → Label T M → Lwip T M → Prop
  | call {st : Lwip T M} {t : T} (c : Call M) (hpc : st.pc t = .idle)
      (hmbox : st.mbox.freed = false)
      (hsem : (st.sems (c.sem st.mbox)).freed = false) :
      Step st (.run t) (st.setPc t (.test c (st.sems (c.sem st.mbox)).gen 0))
  | assert {st : Lwip T M} {t : T} (c : Call M) (hpc : st.pc t = .idle)
      (hfreed : st.mbox.freed = true ∨ (st.sems (c.sem st.mbox)).freed = true) :
      Step st (.ret t c .panic) st
  | take {st st' : Lwip T M} {t : T} {c : Call M} {gen waited : Word} {r : Ret M}
      (hpc : st.pc t = .test c gen waited)
      (hturn : semTurn (st.sems (c.sem st.mbox)) c.tmMsec waited = .take)
      (hrest : (st.decr (c.sem st.mbox)).rest t c waited = (st', r)) :
      Step st (.ret t c r) (st'.setPc t .idle)
  | timeout {st st' : Lwip T M} {t : T} {c : Call M} {gen waited : Word} {r : Ret M}
      (hpc : st.pc t = .test c gen waited)
      (hturn : semTurn (st.sems (c.sem st.mbox)) c.tmMsec waited = .timeout)
      (hrest : st.rest t c sysArchTimeout = (st', r)) :
      Step st (.ret t c r) (st'.setPc t .idle)
  /-- The clock is read twice, in `sys_arch_sem_wait` and in `thread_wait`. -/
  | block {st : Lwip T M} {t : T} {c : Call M} {gen waited : Word} (a s : Word)
      (hpc : st.pc t = .test c gen waited)
      (hturn : semTurn (st.sems (c.sem st.mbox)) c.tmMsec waited = .block) :
      Step st (.run t)
        (((st.setSem (c.sem st.mbox) fun e => { e with waiters := 1 }).setThread t
          ⟨some (c.sem st.mbox), false⟩).setPc t
          (.wait c gen waited a ({ st.sems (c.sem st.mbox) with waiters := 1 } : SemEntry).v
            (if c.tmMsec ≠ 0 then a + (c.tmMsec - waited) else 0xffffffff) s s))
  /-- The thread has yielded and reads the clock. -/
  | yield {st : Lwip T M} {t : T} {c : Call M} {gen waited a curV sleepUntil s p : Word} (p' : Word)
      (hpc : st.pc t = .wait c gen waited a curV sleepUntil s p)
      (hwait : keepsWaiting p sleepUntil s (st.sems (c.sem st.mbox)).v curV (st.threads t).wakeup) :
      Step st (.run t) (st.setPc t (.wait c gen waited a curV sleepUntil s p'))
  | wake {st : Lwip T M} {t : T} {c : Call M} {gen waited a curV sleepUntil s p : Word} (b : Word)
      (hpc : st.pc t = .wait c gen waited a curV sleepUntil s p)
      (hwait : ¬ keepsWaiting p sleepUntil s (st.sems (c.sem st.mbox)).v curV (st.threads t).wakeup)
      (hgen : gen = (st.sems (c.sem st.mbox)).gen) :
      Step st (.run t) ((st.setThread t ⟨none, false⟩).setPc t (.test c gen (waited + (b - a))))
  /-- `sem freed under waiter!` -/
  | gone {st st' : Lwip T M} {t : T} {c : Call M} {gen waited a curV sleepUntil s p :
      Word} {r : Ret M}
      (hpc : st.pc t = .wait c gen waited a curV sleepUntil s p)
      (hwait : ¬ keepsWaiting p sleepUntil s (st.sems (c.sem st.mbox)).v curV (st.threads t).wakeup)
      (hgen : gen ≠ (st.sems (c.sem st.mbox)).gen)
      (hrest : (st.setThread t ⟨none, false⟩).rest t c sysArchTimeout = (st', r)) :
      Step st (.ret t c r) (st'.setPc t .idle)
  /-- What threads do with other mailboxes and semaphores. -/
  | other {st st' : Lwip T M} (hmbox : st'.mbox = st.mbox) (hpc : st'.pc = st.pc)
      (hthreads : ∀ t, st.pc t ≠ .idle → st'.threads t = st.threads t)
      (hsems : ∀ i, i = st.mbox.queuedMsg ∨ i = st.mbox.freeMsg → st'.sems i = st.sems i) :
      Step st .other st'

/-- The messages posted, in the order in which they were stored. -/
def posted (l : List (Label T M)) : List M :=
  l.filterMap fun
    | .ret _ (.trypost msg) .ok => some msg
    | _ => none

/-- The messages fetched. -/
def fetched (l : List (Label T M)) : List M :=
  l.filterMap fun
    | .ret _ _ (.fetched msg _) => some msg
    | _ => none

end Calls

section Invariant

variable {T M : Type*}

/-! ### The ring -/

/-- The ring holds the queue `q`; `head` is -1 if it is empty. -/
def MboxEntry.Queues (mbox : MboxEntry M) (q : List M) : Prop :=
  ∃ r < 32, mbox.nextq = ((r + q.length) % 32 : ℕ) ∧ mbox.head = (if q = [] then -1 else (r : ℤ)) ∧
    Ring.Holds 32 mbox.msg r q

theorem tmod_succ (n : ℕ) : ((n : ℤ) + 1).tmod mboxslots = ((n + 1) % 32 : ℕ) := by
  rw [mboxslots, Int.tmod_eq_emod_of_nonneg (by omega)]
  omega

namespace MboxEntry.Queues

variable {mbox : MboxEntry M} {q : List M} {msg : M}

theorem nextq_ne_head (h : mbox.Queues q) (hlen : q.length < 32) : mbox.nextq ≠ mbox.head := by
  obtain ⟨r, hr, hnextq, hhead, _⟩ := h
  rw [hnextq, hhead]
  split_ifs with hq
  · omega
  · have hpos := List.length_pos_of_ne_nil hq
    omega

theorem put (h : mbox.Queues q) (hlen : q.length < 32) : (mbox.put msg).Queues (q ++ [msg]) := by
  obtain ⟨r, hr, hnextq, hhead, hholds⟩ := h
  have hnext : (mbox.nextq + 1).tmod mboxslots = ((r + (q ++ [msg]).length) % 32 : ℕ) := by
    rw [hnextq, tmod_succ, List.length_append, List.length_singleton]
    omega
  refine ⟨r, hr, hnext, ?_, ?_⟩
  · rw [if_neg (List.append_ne_nil_of_right_ne_nil q (List.cons_ne_nil msg []))]
    show (if mbox.head = -1 then mbox.nextq else mbox.head) = r
    rw [hhead, hnextq]
    by_cases hq : q = []
    · rw [if_pos hq, if_pos rfl, hq, List.length_nil]
      omega
    · rw [if_neg hq, if_neg (by omega)]
  · have hcell : mbox.nextq.toNat = (r + q.length) % 32 := by rw [hnextq, Int.toNat_natCast]
    rw [MboxEntry.put, hcell]
    exact hholds.push_update hlen

theorem drop (h : mbox.Queues (msg :: q)) :
    mbox.head ≠ -1 ∧ mbox.msg mbox.head.toNat = msg ∧ mbox.drop.Queues q := by
  obtain ⟨r, hr, hnextq, hhead, hholds⟩ := h
  rw [if_neg (List.cons_ne_nil msg q)] at hhead
  obtain ⟨hfirst, hrest⟩ := hholds.pop
  have hlen := hholds.length_le
  rw [List.length_cons] at hlen hnextq
  have hnew : (mbox.head + 1).tmod mboxslots = ((r + 1) % 32 : ℕ) := by rw [hhead, tmod_succ]
  refine ⟨by rw [hhead]; omega, ?_, (r + 1) % 32, Nat.mod_lt _ (by decide), ?_, ?_,
    hrest.of_mod_eq (Nat.mod_mod ..).symm⟩
  · rw [hhead, Int.toNat_natCast, ← hfirst, Nat.mod_eq_of_lt hr]
  · show mbox.nextq = _
    omega
  · show (if (mbox.head + 1).tmod mboxslots = mbox.nextq then -1
      else (mbox.head + 1).tmod mboxslots) = _
    rw [hnew, hnextq]
    by_cases hq : q = []
    · rw [if_pos hq, hq, List.length_nil, if_pos rfl]
    · have hpos := List.length_pos_of_ne_nil hq
      rw [if_neg hq, if_neg (by omega)]

end MboxEntry.Queues

/-! ### What holds in every state -/

/-- A thread in a call has seen the semaphore as it is. -/
def Pc.GenOk (sems : SemIx → SemEntry) (mbox : MboxEntry M) : Pc M → Prop
  | .idle => True
  | .test c gen _ | .wait c gen _ _ _ _ _ _ => gen = (sems (c.sem mbox)).gen

/-- The mailbox holds `q`. The counter of free slots is exact; that of the messages may be too
    small, when a thread took it after waiting for `SYS_ARCH_TIMEOUT` milliseconds. -/
structure Holds (st : Lwip T M) (q : List M) : Prop where
  apart : st.mbox.queuedMsg ≠ st.mbox.freeMsg
  live : st.mbox.freed = false
  live_sem : ∀ c : Call M, (st.sems (c.sem st.mbox)).freed = false
  gen : ∀ t, (st.pc t).GenOk st.sems st.mbox
  free : (st.sems st.mbox.freeMsg).counter.toNat + q.length = 32
  queued : (st.sems st.mbox.queuedMsg).counter.toNat ≤ q.length
  ring : st.mbox.Queues q

/-- The same semaphores belong to the mailbox, and none of them was freed. -/
structure Keeps (st st' : Lwip T M) : Prop where
  queuedMsg : st'.mbox.queuedMsg = st.mbox.queuedMsg
  freeMsg : st'.mbox.freeMsg = st.mbox.freeMsg
  freed : st'.mbox.freed = st.mbox.freed
  sem : ∀ c : Call M, (st'.sems (c.sem st.mbox)).freed = (st.sems (c.sem st.mbox)).freed ∧
    (st'.sems (c.sem st.mbox)).gen = (st.sems (c.sem st.mbox)).gen

variable {st st' st'' : Lwip T M} {t : T} {c : Call M} {q q' : List M} {msg : M} {waited gen : Word}
  {r : Ret M} {i : SemIx}

theorem Keeps.sem_eq (k : Keeps st st') (c : Call M) : c.sem st'.mbox = c.sem st.mbox := by
  cases c with
  | trypost => exact k.freeMsg
  | fetch => exact k.queuedMsg

theorem Keeps.trans (k : Keeps st st') (k' : Keeps st' st'') : Keeps st st'' := by
  refine ⟨k'.queuedMsg.trans k.queuedMsg, k'.freeMsg.trans k.freeMsg, k'.freed.trans k.freed,
    fun c => ?_⟩
  have hc := k'.sem c
  rw [k.sem_eq] at hc
  exact ⟨hc.1.trans (k.sem c).1, hc.2.trans (k.sem c).2⟩

variable {pc : Pc M} {j : SemIx} {mbox : MboxEntry M} {l : List (Label T M)} {x : Label T M}
  {w : BitVec 16}

theorem Pc.GenOk.keeps (h : pc.GenOk st.sems st.mbox) (k : Keeps st st') :
    pc.GenOk st'.sems st'.mbox := by
  cases pc with
  | idle => trivial
  | test c =>
    rw [Pc.GenOk, k.sem_eq, (k.sem c).2]
    exact h
  | wait c =>
    rw [Pc.GenOk, k.sem_eq, (k.sem c).2]
    exact h

theorem Holds.update (h : Holds st q) (k : Keeps st st')
    (hpc : ∀ t, (st'.pc t).GenOk st.sems st.mbox)
    (hfree : (st'.sems st.mbox.freeMsg).counter.toNat + q'.length = 32)
    (hqueued : (st'.sems st.mbox.queuedMsg).counter.toNat ≤ q'.length)
    (hring : st'.mbox.Queues q') : Holds st' q' := by
  refine ⟨?_, k.freed.trans h.live, fun c => ?_, fun t => (hpc t).keeps k, ?_, ?_, hring⟩
  · rw [k.queuedMsg, k.freeMsg]
    exact h.apart
  · rw [k.sem_eq, (k.sem c).1]
    exact h.live_sem c
  · rw [k.freeMsg]
    exact hfree
  · rw [k.queuedMsg]
    exact hqueued

theorem Holds.quiet (h : Holds st q) (k : Keeps st st') (hmbox : st'.mbox = st.mbox)
    (hcount : ∀ i, (st'.sems i).counter = (st.sems i).counter ∨
      (i ≠ st.mbox.queuedMsg ∧ i ≠ st.mbox.freeMsg))
    (hpc : ∀ t, (st'.pc t).GenOk st.sems st.mbox) : Holds st' q := by
  refine h.update k hpc ?_ ?_ (hmbox ▸ h.ring)
  · rw [(hcount st.mbox.freeMsg).resolve_right fun h => h.2 rfl]
    exact h.free
  · rw [(hcount st.mbox.queuedMsg).resolve_right fun h => h.1 rfl]
    exact h.queued

@[simp] theorem sems_setSem_self (f : SemEntry → SemEntry) :
    (st.setSem i f).sems i = f (st.sems i) := update_self ..

@[simp] theorem sems_setSem_of_ne (hj : j ≠ i) (f : SemEntry → SemEntry) :
    (st.setSem i f).sems j = st.sems j := update_of_ne hj ..

theorem keeps_setSem (st : Lwip T M) (i : SemIx) {f : SemEntry → SemEntry}
    (hf : ∀ e, (f e).freed = e.freed ∧ (f e).gen = e.gen) : Keeps st (st.setSem i f) := by
  refine ⟨rfl, rfl, rfl, fun c => ?_⟩
  by_cases hc : c.sem st.mbox = i
  · rw [hc, sems_setSem_self]
    exact hf _
  · rw [sems_setSem_of_ne hc]
    exact ⟨rfl, rfl⟩

@[simp] theorem sems_decr_self : (st.decr i).sems i =
    { st.sems i with counter := (st.sems i).counter - 1 } := sems_setSem_self _

@[simp] theorem sems_decr_of_ne (hj : j ≠ i) : (st.decr i).sems j = st.sems j :=
  sems_setSem_of_ne hj _

theorem keeps_decr (hq : mbox.queuedMsg = st.mbox.queuedMsg)
    (hf : mbox.freeMsg = st.mbox.freeMsg) (hfreed : mbox.freed = st.mbox.freed) :
    Keeps st ((st.decr i).setMbox mbox) :=
  have k : Keeps st (st.decr i) := keeps_setSem st i fun _ => ⟨rfl, rfl⟩
  ⟨hq, hf, hfreed, k.sem⟩

theorem Keeps.of_sems (hmbox : st'.mbox = st.mbox) (hsems : st'.sems = st.sems) : Keeps st st' := by
  refine ⟨?_, ?_, ?_, fun c => ?_⟩
  · rw [hmbox]
  · rw [hmbox]
  · rw [hmbox]
  · rw [hsems]
    exact ⟨rfl, rfl⟩

/-- What a call may return. -/
def Fine : Call M → Ret M → Prop
  | .trypost _, r => r = .ok
  | .fetch _, r => r = .timeout ∨ ∃ msg waited, r = .fetched msg waited

/-- What was posted has been fetched or is in the mailbox, and every call has returned well. -/
def Good (l : List (Label T M)) (st : Lwip T M) : Prop :=
  (∃ q, posted l = fetched l ++ q ∧ Holds st q) ∧ ∀ t c r, .ret t c r ∈ l → Fine c r

theorem Good.run (hg : Good l st)
    (hx : ∀ t c r, x ≠ .ret t c r) (hq : ∀ q, Holds st q → Holds st' q) : Good (l ++ [x]) st' := by
  obtain ⟨⟨q, hposted, h⟩, hfine⟩ := hg
  have hsame : posted (l ++ [x]) = posted l ∧ fetched (l ++ [x]) = fetched l := by
    cases x with
    | ret t c r => exact absurd rfl (hx t c r)
    | run t => simp [posted, fetched]
    | other => simp [posted, fetched]
  refine ⟨⟨q, by rw [hsame.1, hsame.2, hposted], hq q h⟩, fun t c r hmem => ?_⟩
  rcases List.mem_append.mp hmem with hmem | hmem
  · exact hfine t c r hmem
  · exact absurd (List.mem_singleton.mp hmem).symm (hx t c r)

theorem Good.ret (hg : Good l st) (hr : Fine c r)
    (hq : ∀ q, Holds st q → ∃ q', q ++ posted [Label.ret t c r] = fetched [Label.ret t c r] ++ q' ∧
      Holds st' q') : Good (l ++ [.ret t c r]) st' := by
  obtain ⟨⟨q, hposted, h⟩, hfine⟩ := hg
  obtain ⟨q', hnew, h'⟩ := hq q h
  have hp : posted (l ++ [.ret t c r]) = posted l ++ posted [.ret t c r] := List.filterMap_append ..
  have hf : fetched (l ++ [.ret t c r]) = fetched l ++ fetched [.ret t c r] :=
    List.filterMap_append ..
  refine ⟨⟨q', ?_, h'⟩, fun u c' r' hmem => ?_⟩
  · rw [hp, hf, hposted, List.append_assoc, hnew, List.append_assoc]
  · rcases List.mem_append.mp hmem with hmem | hmem
    · exact hfine u c' r' hmem
    · cases List.mem_singleton.mp hmem
      exact hr

theorem sysMboxNew_holds {tab tab' : SemTable} {mbe : MboxEntry M} {size : ℤ}
    (h : sysMboxNew tab mbe size = some (tab', mbox)) (threads : T → ThreadContext) :
    Holds (⟨tab'.sems, mbox, threads, fun _ => .idle⟩ : Lwip T M) [] := by
  rw [sysMboxNew] at h
  split_ifs at h
  split at h
  · cases h
  · next tab1 queuedMsg hqueued =>
    split at h
    · cases h
    · next tab2 freeMsg hfree =>
      obtain ⟨rfl, rfl⟩ := Prod.mk.inj (Option.some.inj h)
      obtain ⟨_, hlive1, hcount1, _⟩ := SemTable.sysSemNew_some hqueued
      obtain ⟨hmem, hlive2, hcount2, hother⟩ := SemTable.sysSemNew_some hfree
      -- the second semaphore was free when the first was in use
      have hne : queuedMsg ≠ freeMsg := by
        rintro rfl
        exact absurd (((tab1.mem_iff _).mp hmem).symm.trans hlive1) (by decide)
      refine ⟨hne, rfl, fun c => ?_, fun _ => trivial, ?_, ?_,
        0, by decide, rfl, rfl, Ring.Holds.nil⟩
      · cases c with
        | trypost => exact hlive2
        | fetch => exact (congrArg SemEntry.freed (hother _ hne)).trans hlive1
      · rw [hcount2]
        rfl
      · show (tab2.sems queuedMsg).counter.toNat ≤ 0
        rw [hother _ hne, hcount1]
        decide

variable [DecidableEq T]

theorem signal_ok (h : (st.sems i).freed = false) :
    ∃ st', st.sysSemSignal t i = some st' ∧ Keeps st st' ∧ st'.mbox = st.mbox ∧ st'.pc = st.pc ∧
      (st'.sems i).counter = (st.sems i).counter + 1 ∧ ∀ j ≠ i, st'.sems j = st.sems j := by
  have hcount : Keeps st (st.setSem i fun e => { e with counter := e.counter + 1 }) :=
    keeps_setSem st i fun _ => ⟨rfl, rfl⟩
  rw [Lwip.sysSemSignal, h, if_neg Bool.false_ne_true]
  dsimp only
  split_ifs
  · have hwaiters : Keeps (st.setSem i fun e => { e with counter := e.counter + 1 })
        ((st.setSem i fun e => { e with counter := e.counter + 1 }).setSem i
          fun e => { e with waiters := 0 }) := keeps_setSem _ i fun _ => ⟨rfl, rfl⟩
    refine ⟨_, rfl, (hcount.trans hwaiters).trans (.of_sems rfl rfl), rfl, rfl, ?_, fun j hj => ?_⟩
    · simp [Lwip.threadWakeup]
    · simp [Lwip.threadWakeup, hj]
  · exact ⟨_, rfl, hcount, rfl, rfl, by simp, fun j hj => by simp [hj]⟩

/-! ### The calls -/

theorem semTurn_forever (e : SemEntry) (waited : Word) : semTurn e 0 waited ≠ .timeout := by
  rw [semTurn, if_pos (Or.inl rfl), if_neg (show ¬ (0 : Word) = sysArchNowait by decide)]
  split_ifs <;> nofun

theorem semTurn_take {e : SemEntry} {tmMsec : Word} (h : semTurn e tmMsec waited = .take) :
    0 < e.counter.toNat := by
  rw [semTurn] at h
  split_ifs at h with _ hpos
  exact hpos

theorem counter_sub_one (h : 0 < w.toNat) : (w - 1).toNat = w.toNat - 1 := by
  rw [BitVec.toNat_sub_of_le (by rw [BitVec.le_def]; exact h)]
  rfl

theorem counter_add_one (h : w.toNat < 32) : (w + 1).toNat = w.toNat + 1 := by
  rw [BitVec.toNat_add, show (1 : BitVec 16).toNat = 1 from rfl]
  omega

/-- **A slot was taken**: the message is stored behind the others. -/
theorem Holds.post (h : Holds st q) (hpos : 0 < (st.sems st.mbox.freeMsg).counter.toNat)
    (hrest : (st.decr st.mbox.freeMsg).trypostRest t msg = (st', r)) :
    r = .ok ∧ Holds st' (q ++ [msg]) ∧ st'.pc = st.pc := by
  have hfree := h.free
  have hqueued := h.queued
  have hlen : q.length < 32 := by omega
  have k1 : Keeps st ((st.decr st.mbox.freeMsg).setMbox (st.mbox.put msg)) := keeps_decr rfl rfl rfl
  have hlive := (k1.sem (.fetch 0)).1.trans (h.live_sem (.fetch 0))
  obtain ⟨st2, hst2, k2, hmbox, hpc, hcount, hother⟩ := signal_ok (t := t) hlive
  have hsignal :
    ((st.decr st.mbox.freeMsg).setMbox ((st.decr st.mbox.freeMsg).mbox.put msg)).sysSemSignal
      t (st.decr st.mbox.freeMsg).mbox.queuedMsg = some st2 := hst2
  have hfull : ¬ (st.decr st.mbox.freeMsg).mbox.nextq = (st.decr st.mbox.freeMsg).mbox.head :=
    h.ring.nextq_ne_head hlen
  rw [Lwip.trypostRest, if_neg hfull, hsignal] at hrest
  obtain ⟨rfl, rfl⟩ := Prod.mk.inj hrest
  refine ⟨rfl, h.update (k1.trans k2) (fun u => ?_) ?_ ?_ ?_, hpc⟩
  · rw [hpc]
    exact h.gen u
  · rw [hother _ h.apart.symm, show ((st.decr st.mbox.freeMsg).setMbox (st.mbox.put msg)).sems =
      (st.decr st.mbox.freeMsg).sems from rfl, sems_decr_self, counter_sub_one hpos,
      List.length_append, List.length_singleton]
    omega
  · have hsame : ((st.decr st.mbox.freeMsg).setMbox (st.mbox.put msg)).sems st.mbox.queuedMsg =
        st.sems st.mbox.queuedMsg := sems_decr_of_ne h.apart
    have hcount' : (st2.sems st.mbox.queuedMsg).counter = (st.sems st.mbox.queuedMsg).counter + 1 :=
      hcount.trans (congrArg (fun e => e.counter + 1) hsame)
    rw [hcount', counter_add_one (by omega), List.length_append, List.length_singleton]
    omega
  · rw [hmbox]
    exact h.ring.put hlen

/-- **A message was taken**: it is the first of the queue, unless the time waited looks like a
    time-out. -/
theorem Holds.fetch (h : Holds st q) (hpos : 0 < (st.sems st.mbox.queuedMsg).counter.toNat)
    (hrest : (st.decr st.mbox.queuedMsg).fetchRest t waited = (st', r)) :
    st'.pc = st.pc ∧ ((r = .timeout ∧ Holds st' q) ∨
      ∃ msg q', q = msg :: q' ∧ r = .fetched msg waited ∧ Holds st' q') := by
  have hfree := h.free
  have hqueued := h.queued
  obtain ⟨msg, q', rfl⟩ : ∃ msg q', q = msg :: q' := by
    cases q with
    | nil => exact absurd hqueued (by rw [List.length_nil]; omega)
    | cons msg q' => exact ⟨msg, q', rfl⟩
  rw [List.length_cons] at hfree hqueued
  obtain ⟨hhead, hmsg, hring⟩ := h.ring.drop
  rw [Lwip.fetchRest] at hrest
  by_cases htimeout : waited = sysArchTimeout
  · rw [if_pos htimeout] at hrest
    cases hrest
    have k : Keeps st (st.decr st.mbox.queuedMsg) := keeps_setSem st _ fun _ => ⟨rfl, rfl⟩
    refine ⟨rfl, .inl ⟨rfl, h.update k h.gen ?_ ?_ h.ring⟩⟩
    · rw [sems_decr_of_ne h.apart.symm, List.length_cons]
      exact hfree
    · rw [sems_decr_self, counter_sub_one hpos, List.length_cons]
      omega
  · have k1 : Keeps st ((st.decr st.mbox.queuedMsg).setMbox st.mbox.drop) := keeps_decr rfl rfl rfl
    have hlive := (k1.sem (.trypost msg)).1.trans (h.live_sem (.trypost msg))
    obtain ⟨st2, hst2, k2, hmbox, hpc, hcount, hother⟩ := signal_ok (t := t) hlive
    have hsignal :
      ((st.decr st.mbox.queuedMsg).setMbox (st.decr st.mbox.queuedMsg).mbox.drop).sysSemSignal
        t (st.decr st.mbox.queuedMsg).mbox.freeMsg = some st2 := hst2
    have hhead' : ¬ (st.decr st.mbox.queuedMsg).mbox.head = -1 := hhead
    rw [if_neg htimeout, if_neg hhead', hsignal] at hrest
    obtain ⟨rfl, rfl⟩ := Prod.mk.inj hrest
    refine ⟨hpc, .inr ⟨msg, q', rfl, congrArg (Ret.fetched · waited) hmsg,
      h.update (k1.trans k2) (fun u => ?_) ?_ ?_ ?_⟩⟩
    · rw [hpc]
      exact h.gen u
    · have hsame : ((st.decr st.mbox.queuedMsg).setMbox st.mbox.drop).sems st.mbox.freeMsg =
          st.sems st.mbox.freeMsg := sems_decr_of_ne h.apart.symm
      have hcount' : (st2.sems st.mbox.freeMsg).counter = (st.sems st.mbox.freeMsg).counter + 1 :=
        hcount.trans (congrArg (fun e => e.counter + 1) hsame)
      rw [hcount', counter_add_one (by omega)]
      omega
    · rw [hother _ h.apart, show ((st.decr st.mbox.queuedMsg).setMbox st.mbox.drop).sems =
        (st.decr st.mbox.queuedMsg).sems from rfl, sems_decr_self, counter_sub_one hpos]
      omega
    · rw [hmbox]
      exact hring

/-! ### Runs -/

theorem gen_setPc (h : ∀ u, (st.pc u).GenOk st.sems st.mbox)
    (hpc : pc.GenOk st.sems st.mbox) (hst : st'.pc = update st.pc t pc) (u : T) :
    (st'.pc u).GenOk st.sems st.mbox := by
  rw [hst]
  by_cases hu : u = t
  · subst hu
    rw [update_self]
    exact hpc
  · rw [update_of_ne hu]
    exact h u

theorem Holds.setPc (h : Holds st q) (hpc : pc.GenOk st.sems st.mbox) :
    Holds (st.setPc t pc) q :=
  h.quiet (.of_sems rfl rfl) rfl (fun _ => .inl rfl) (gen_setPc h.gen hpc rfl)

/-- **What every step preserves.** -/
theorem Good.step (hg : Good l st) (hs : Step st x st') :
    Good (l ++ [x]) st' := by
  obtain ⟨q0, _, h0⟩ := hg.1
  cases hs with
  | call c hpc hmbox hsem =>
    exact hg.run (fun _ _ _ => by nofun) fun q h => h.setPc rfl
  | assert c hpc hfreed =>
    rcases hfreed with hfreed | hfreed
    · exact absurd (h0.live.symm.trans hfreed) (by decide)
    · exact absurd ((h0.live_sem c).symm.trans hfreed) (by decide)
  | @take st1 t c gen waited r hpc hturn hrest =>
    have hpos := semTurn_take hturn
    cases c with
    | trypost msg =>
      obtain ⟨rfl, _, _⟩ := h0.post hpos hrest
      refine hg.ret rfl fun q h => ⟨q ++ [msg], rfl, ?_⟩
      exact (h.post hpos hrest).2.1.setPc trivial
    | fetch tm =>
      refine hg.ret ?_ fun q h => ?_
      · rcases (h0.fetch hpos hrest).2 with ⟨rfl, _⟩ | ⟨msg, _, _, rfl, _⟩
        · exact .inl rfl
        · exact .inr ⟨msg, waited, rfl⟩
      · rcases (h.fetch hpos hrest).2 with ⟨rfl, h'⟩ | ⟨msg, q', rfl, rfl, h'⟩
        · exact ⟨q, List.append_nil q, h'.setPc trivial⟩
        · exact ⟨q', List.append_nil _, h'.setPc trivial⟩
  | @timeout st1 t c gen waited r hpc hturn hrest =>
    cases c with
    | trypost msg => exact absurd hturn (semTurn_forever _ _)
    | fetch tm =>
      cases hrest
      exact hg.ret (.inl rfl) fun q h => ⟨q, List.append_nil q, h.setPc trivial⟩
  | @block t c gen waited a s hpc hturn =>
    refine hg.run (fun _ _ _ => by nofun) fun q h => ?_
    have hgen := h.gen t
    rw [hpc] at hgen
    have k : Keeps st (st.setSem (c.sem st.mbox) fun e => { e with waiters := 1 }) :=
      keeps_setSem st _ fun _ => ⟨rfl, rfl⟩
    have h1 : Holds (st.setSem (c.sem st.mbox) fun e => { e with waiters := 1 }) q := by
      refine h.quiet k rfl (fun i => .inl ?_) h.gen
      by_cases hi : i = c.sem st.mbox
      · rw [hi, sems_setSem_self]
      · rw [sems_setSem_of_ne hi]
    have h2 : Holds ((st.setSem (c.sem st.mbox) fun e => { e with waiters := 1 }).setThread t
        ⟨some (c.sem st.mbox), false⟩) q :=
      h1.quiet (.of_sems rfl rfl) rfl (fun _ => .inl rfl) h1.gen
    exact h2.setPc (hgen.trans (k.sem c).2.symm)
  | @yield t c gen waited a curV sleepUntil s p p' hpc hwait =>
    refine hg.run (fun _ _ _ => by nofun) fun q h => ?_
    have hgen := h.gen t
    rw [hpc] at hgen
    exact h.setPc hgen
  | @wake t c gen waited a curV sleepUntil s p b hpc hwait hgen =>
    refine hg.run (fun _ _ _ => by nofun) fun q h => ?_
    have h' : Holds (st.setThread t ⟨none, false⟩) q :=
      h.quiet (.of_sems rfl rfl) rfl (fun _ => .inl rfl) h.gen
    exact h'.setPc hgen
  | @gone st1 t c gen waited a curV sleepUntil s p r hpc hwait hgen hrest =>
    have hgen' := h0.gen t
    rw [hpc] at hgen'
    exact absurd hgen' hgen
  | other hmbox hpc hthreads hsems =>
    refine hg.run (fun _ _ _ => by nofun) fun q h => ?_
    have hsem : ∀ c : Call M, st'.sems (c.sem st.mbox) = st.sems (c.sem st.mbox) := by
      intro c
      cases c with
      | trypost => exact hsems _ (.inr rfl)
      | fetch => exact hsems _ (.inl rfl)
    refine h.quiet ⟨by rw [hmbox], by rw [hmbox], by rw [hmbox], fun c => ?_⟩ hmbox (fun i => ?_) ?_
    · rw [hsem c]
      exact ⟨rfl, rfl⟩
    · by_cases hi : i = st.mbox.queuedMsg ∨ i = st.mbox.freeMsg
      · exact .inl (by rw [hsems i hi])
      · exact .inr (not_or.mp hi)
    · rw [hpc]
      exact h.gen

/-- **A mailbox is a bounded queue.** From `sys_mbox_new` on, for all threads, clocks and orders of
    their steps: the messages fetched are the first of the messages posted, at most `MBOXSLOTS` of
    them wait in the mailbox, posting never fails, and fetching times out or returns a message. -/
theorem mbox_fifo {tab tab' : SemTable} {mbe mbox : MboxEntry M} {size : ℤ}
    {threads : T → ThreadContext} {l : List (Label T M)}
    (hnew : sysMboxNew tab mbe size = some (tab', mbox))
    (hrun : Run Step ⟨tab'.sems, mbox, threads, fun _ => .idle⟩ l st) :
    fetched l <+: posted l ∧ (posted l).length ≤ (fetched l).length + mboxslots ∧
      (∀ t msg r, .ret t (.trypost msg) r ∈ l → r = .ok) ∧ ∀ t c r, .ret t c r ∈ l →
      r ≠ .panic := by
  have hgood : Good l st := by
    generalize hst₀ : (⟨tab'.sems, mbox, threads, fun _ => .idle⟩ : Lwip T M) = st₀ at hrun
    induction hrun with
    | nil => exact ⟨⟨[], rfl, hst₀ ▸ sysMboxNew_holds hnew threads⟩, by nofun⟩
    | snoc _ hs ih => exact ih.step hs
  obtain ⟨⟨q, hposted, h⟩, hfine⟩ := hgood
  refine ⟨⟨q, hposted.symm⟩, ?_, fun t msg r hr => hfine t _ r hr, fun t c r hr => ?_⟩
  · have hfree := h.free
    rw [hposted, List.length_append, mboxslots]
    omega
  · have hc := hfine t c r hr
    cases c with
    | trypost msg =>
      obtain rfl : r = .ok := hc
      nofun
    | fetch tm =>
      obtain rfl | ⟨msg, waited, rfl⟩ := hc <;> nofun

end Invariant

/-- A table with two free semaphores. -/
def SemTable.two : SemTable where
  sems i := ⟨decide (i = 0 ∨ i = 1), 0, 0, 0⟩
  semFree := [0, 1]
  nodup := by decide
  mem_iff i := by simp

/-- The new mailbox, with one thread. -/
def Lwip.fresh : Lwip Unit ℕ where
  sems := update (update SemTable.two.sems 0 ⟨false, 1, 0, 0⟩) 1 ⟨false, 1, 32, 0⟩
  mbox := ⟨false, -1, 0, fun _ => 0, 0, 1⟩
  threads _ := ⟨none, false⟩
  pc _ := .idle

/-- After the call `c`, which finds what it needs. -/
def Lwip.after (s : Lwip Unit ℕ) (c : Call ℕ) : Lwip Unit ℕ :=
  (((s.setPc () (.test c 1 0)).decr (c.sem s.mbox)).rest () c 0).1.setPc () .idle

/-- Two messages are posted and then fetched. -/
theorem mbox_fifo_two : ∃ (tab' : SemTable) (mbox : MboxEntry ℕ) (st : Lwip Unit ℕ)
    (l : List (Label Unit ℕ)),
    sysMboxNew SemTable.two ⟨true, 0, 0, fun _ => 0, 0, 0⟩ 20 = some (tab', mbox) ∧
    Run Step ⟨tab'.sems, mbox, fun _ => ⟨none, false⟩, fun _ => .idle⟩ l st ∧
    posted l = [7, 8] ∧ fetched l = [7, 8] ∧ fetched l <+: posted l := by
  obtain ⟨tab', mbox, hnew, hfresh⟩ : ∃ (tab' : SemTable) (mbox : MboxEntry ℕ),
      sysMboxNew SemTable.two ⟨true, 0, 0, fun _ => 0, 0, 0⟩ 20 = some (tab', mbox) ∧
      (⟨tab'.sems, mbox, fun _ => ⟨none, false⟩, fun _ => .idle⟩ : Lwip Unit ℕ) = .fresh :=
    ⟨_, _, rfl, rfl⟩
  have h1 : Run Step Lwip.fresh _ _ := .single (.call (.trypost 7) (t := ()) rfl rfl rfl)
  have h2 := h1.snoc (show Step _ (.ret () (.trypost 7) .ok) (Lwip.fresh.after (.trypost 7)) from
    .take rfl rfl rfl)
  have h3 := h2.snoc (.call (.trypost 8) (t := ()) rfl rfl rfl)
  have h4 := h3.snoc (show Step _ (.ret () (.trypost 8) .ok)
    ((Lwip.fresh.after (.trypost 7)).after (.trypost 8)) from .take rfl rfl rfl)
  have h5 := h4.snoc (.call (.fetch 0) (t := ()) rfl rfl rfl)
  have h6 := h5.snoc (show Step _ (.ret () (.fetch 0) (.fetched 7 0))
    (((Lwip.fresh.after (.trypost 7)).after (.trypost 8)).after (.fetch 0)) from .take rfl rfl rfl)
  have h7 := h6.snoc (.call (.fetch 0) (t := ()) rfl rfl rfl)
  have h8 := h7.snoc (show Step _ (.ret () (.fetch 0) (.fetched 8 0)) _ from .take rfl rfl rfl)
  rw [← hfresh] at h8
  exact ⟨tab', mbox, _, _, hnew, h8, rfl, rfl, (mbox_fifo hnew h8).1⟩

end LinuxStudy.Net.Mbox
