import LinuxStudy.Lib.Mailbox
import LinuxStudy.Jos.LifeCycle

/-!
# IPC delivers exactly once

`sys_ipc_recv` and `sys_ipc_try_send` meet in three fields of the receiver, `env_ipc_recving`,
`env_ipc_from` and `env_status`. Seen by one environment they are a one-place mailbox: the
machine, restricted to steps that change no status by other means, simulates `Mailbox` for
each environment, and what is true of the mailbox is true of the messages.
-/

namespace LinuxStudy.Jos

open Mailbox
open Kernel Logged
open Option (bind_eq_some_iff map_eq_some_iff ite_none_right_eq_some)

/-- What a send leaves in the fields of the receiver: the id of the sender, the value, and the
    permission of the page it mapped, or what was there before if it mapped none. -/
structure Message where
  src : Word
  value : Word
  perm : Word
  deriving DecidableEq

/-- An environment, and what happens to its mailbox. -/
abbrev IpcEvent := EnvIx × Act Message

/-- The message of a send that succeeds. -/
def Kernel.message (k : Kernel) (cur dst : EnvIx) (value srcva perm : Word) : Message where
  src := (k.envs cur).envId
  value := value
  perm := if srcva < utop ∧ (k.envs dst).envIpcDstva ≠ 0#32 then perm else (k.envs dst).envIpcPerm

/-- A receive that is accepted opens the caller's mailbox; a send that succeeds fills that of
    the environment it names. -/
def Kernel.ipcEvents (k : Kernel) (cur : EnvIx) : Call → Outcome → List IpcEvent
  | .ipcRecv _, .yield _ => [(cur, .wait)]
  | .ipcTrySend envid value srcva perm, .ret r _ =>
    if r = 0 then
      match k.envid2env cur envid false with
      | some dst => [(dst, .fill (k.message cur dst value srcva perm))]
      | none => []
    else []
  | _, _ => []

namespace Machine

/-- The events of the system call a step makes. -/
def callEvents (m : Machine) : Label → List IpcEvent
  | .trap c tf faultVa dev =>
    match m.curenv c, Trap.decode tf faultVa dev with
    | some cur, .syscall call dev =>
      match (m.kernel.trapSyscall cur (m.cpus c).cr3 dev tf call).2 with
      | some o => m.kernel.ipcEvents cur call o
      | none => []
    | _, _ => []
  | _ => []

/-- The environment a section under the lock ends in goes on. -/
def runEvents (m' : Machine) (l : Label) : List IpcEvent :=
  match l.enters with
  | some c => ((m'.curenv c).map fun e => (e, .resume)).toList
  | none => []

end Machine

/-- The calls that do not write a status, the two IPC calls apart. -/
def Call.KeepsStatus : Call → Prop
  | .envDestroy _ | .exofork | .envSetStatus _ _ | .cputs _ _ | .envSetTrapframe _ _ => False
  | _ => True

/-- The traps that write no status but by IPC and scheduling. -/
def Trap.KeepsStatus : Trap → Prop
  | .syscall call _ => call.KeepsStatus
  | .timer | .ignored => True
  | .pageFault _ | .unexpected => False

/-- No status is changed but by IPC and scheduling. -/
def Machine.Quiet (m : Machine) : Label → Prop
  | .trap c tf faultVa dev => (Trap.decode tf faultVa dev).KeepsStatus ∧
      ∀ cur ∈ m.curenv c, (m.kernel.envs cur).envStatus ≠ .dying
  | _ => True

instance (call : Call) : Decidable call.KeepsStatus := by
  cases call <;> first | exact instDecidableTrue | exact instDecidableFalse

instance (t : Trap) : Decidable t.KeepsStatus := by
  cases t with
  | syscall call _ => exact inferInstanceAs (Decidable call.KeepsStatus)
  | timer | ignored => exact instDecidableTrue
  | pageFault _ | unexpected => exact instDecidableFalse

-- the test is on the current environment alone: for `Fin` it would be on all of them
instance (m : Machine) : (l : Label) → Decidable (m.Quiet l)
  | .trap _ _ _ _ => @instDecidableAnd _ _ inferInstance (Option.decidableForallMem _)
  | .start _ | .pop _ | .wake _ | .store _ _ _ => instDecidableTrue

/-- A quiet step and its events. -/
def IpcStep (m : Machine) (x : Label × List IpcEvent) (m' : Machine) : Prop :=
  m.Step x.1 m' ∧ m.Quiet x.1 ∧ x.2 = m.callEvents x.1 ++ m'.runEvents x.1

/-- Steps that pass a test, with their events, as a function. -/
def Machine.ipcSteps (ok : Machine → Label → Bool) (m : Machine) :
    List Label → Option (Machine × List (Label × List IpcEvent))
  | [] => some (m, [])
  | l :: ls =>
    if ok m l then (m.step l).bind fun m₁ => (m₁.ipcSteps ok ls).map fun (m', xs) =>
      (m', (l, m.callEvents l ++ m₁.runEvents l) :: xs)
    else none

/-- What happens to one mailbox. -/
def mail (e : EnvIx) (evs : List IpcEvent) : List (Act Message) :=
  evs.filterMap fun x => if x.1 = e then some x.2 else none

@[simp] theorem mail_nil (e : EnvIx) : mail e [] = [] := rfl

/-- What happens to one mailbox in a run. -/
def mailLog (e : EnvIx) (ls : List (Label × List IpcEvent)) : List (Act Message) :=
  ls.flatMap fun x => mail e x.2

/-- The fields of an environment as a state of its mailbox. -/
def Represents (env : Env) : State Message → Prop
  | .idle => env.envIpcRecving = false
  | .waiting => env.envIpcRecving = true ∧ env.envStatus = .notRunnable
  | .full a => env.envIpcRecving = false ∧ env.envIpcFrom = a.src ∧ env.envIpcValue = a.value ∧
      env.envIpcPerm = a.perm

section Simulation

variable {m m' : Machine} {k k' : Kernel} {c : CpuIx} {e e' cur : EnvIx} {s : State Message}
  {env env' : Env} {call : Call} {o : Outcome} {cr3 : ℕ} {dev : Int} {tf : Trapframe} {l : Label}

theorem run_of_ipcSteps {ok : Machine → Label → Bool} {ls : List Label}
    {xs : List (Label × List IpcEvent)} (h : m.ipcSteps ok ls = some (m', xs)) :
    Run (fun m x m' => m.Step x.1 m' ∧ ok m x.1 = true ∧
      x.2 = m.callEvents x.1 ++ m'.runEvents x.1) m xs m' := by
  induction ls generalizing m xs with
  | nil =>
    obtain ⟨rfl, rfl⟩ := Prod.mk.inj (Option.some.inj h)
    exact Run.nil m
  | cons l ls ih =>
    rw [Machine.ipcSteps] at h
    split at h
    · next hok =>
      rw [bind_eq_some_iff] at h
      obtain ⟨m1, hstep, h⟩ := h
      rw [map_eq_some_iff] at h
      obtain ⟨⟨m2, xs'⟩, h, heq⟩ := h
      cases heq
      exact Run.cons_iff.mpr ⟨m1, ⟨hstep, hok, rfl⟩, ih h⟩
    · cases h

theorem mail_append (e : EnvIx) (evs evs' : List IpcEvent) :
    mail e (evs ++ evs') = mail e evs ++ mail e evs' := List.filterMap_append

@[simp] theorem mail_self (e : EnvIx) (a : Act Message) : mail e [(e, a)] = [a] := by
  simp [mail]

theorem mail_other (h : e' ≠ e) (a : Act Message) : mail e [(e', a)] = [] := by
  simp [mail, h]

/-- The fields the mailbox is read from. -/
structure SameBox (env env' : Env) : Prop where
  recving : env'.envIpcRecving = env.envIpcRecving
  src : env'.envIpcFrom = env.envIpcFrom
  value : env'.envIpcValue = env.envIpcValue
  perm : env'.envIpcPerm = env.envIpcPerm

theorem Represents.of_same (h : Represents env s) (hbox : SameBox env env')
    (hstatus : s = .waiting → env'.envStatus = env.envStatus) : Represents env' s := by
  cases s with
  | idle => exact hbox.recving.trans h
  | waiting => exact ⟨hbox.recving.trans h.1, (hstatus rfl).trans h.2⟩
  | full a =>
    exact ⟨hbox.recving.trans h.1, hbox.src.trans h.2.1, hbox.value.trans h.2.2.1,
      hbox.perm.trans h.2.2.2⟩

variable {f : Env → Env} {srcva perm envid value : Word} {r : Int} {x b n : ℕ} {s₀ : Pmap}
  {nic : E1000}

theorem sameBox_setEnv (hf : ∀ env, SameBox env (f env)) (k : Kernel)
    (e e' : EnvIx) : SameBox (k.envs e') ((k.setEnv e f).envs e') :=
  ⟨setEnv_field Env.envIpcRecving (fun env => (hf env).recving) k e e',
    setEnv_field Env.envIpcFrom (fun env => (hf env).src) k e e',
    setEnv_field Env.envIpcValue (fun env => (hf env).value) k e e',
    setEnv_field Env.envIpcPerm (fun env => (hf env).perm) k e e'⟩

theorem Represents.setEnv (h : Represents (k.envs e') s)
    (hf : ∀ env, SameBox env (f env)) (hstatus : ∀ env, (f env).envStatus = env.envStatus)
    (e : EnvIx) : Represents ((k.setEnv e f).envs e') s :=
  h.of_same (sameBox_setEnv hf k e e') fun _ => setEnv_field Env.envStatus hstatus k e e'

theorem Represents.setEax (h : Represents (k.envs e') s) (e : EnvIx) (r : Int) :
    Represents ((k.setEax e r).envs e') s :=
  h.setEnv (by intro; exact ⟨rfl, rfl, rfl, rfl⟩) (by intro; rfl) e

theorem Represents.saveTf (h : Represents (k.envs e') s) (e : EnvIx) (tf : Trapframe) :
    Represents ((k.saveTf e tf).envs e') s :=
  h.setEnv (by intro; exact ⟨rfl, rfl, rfl, rfl⟩) (by intro; rfl) e

/-- The page transfer and the environment table: the permission, if a page is mapped. -/
theorem transfer_fields {dst : EnvIx} (h : k.ipcTransfer cur dst srcva perm = some (k', r))
    (hr : ¬ r < 0) : (k'.envs cur).envId = (k.envs cur).envId ∧
      (k'.envs dst).envIpcPerm = (if srcva < utop ∧ (k.envs dst).envIpcDstva ≠ 0#32 then perm
        else (k.envs dst).envIpcPerm) ∧
      ∀ e, e ≠ dst → k'.envs e = k.envs e := by
  rcases ipcTransfer_cases h with ⟨hneg, _⟩ | ⟨_, rfl, hnone⟩ |
    ⟨_, _, s', _, hsrc, hdst, _, _, _, _, _, _, rfl⟩
  · exact absurd hneg hr
  · refine ⟨rfl, ?_, fun _ _ => rfl⟩
    rw [if_neg fun hpage => hpage.2 (hnone hpage.1)]
  · refine ⟨setEnv_field Env.envId (by intro; rfl) (k.setPmap s') dst cur, ?_, fun e he => ?_⟩
    · rw [if_pos ⟨hsrc, hdst⟩]
      simp [setEnv]
    · simp [setEnv, setPmap, he]

theorem send_mail (hrep : Represents (k.envs e) s)
    (h : k.sysIpcTrySend cur envid value srcva perm = some o) :
    (o.leave = .back ∨ o.leave = .yield) ∧
      ∃ s', Run Mailbox.Step s (mail e
        (k.ipcEvents cur (.ipcTrySend envid value srcva perm) o)) s' ∧
        Represents (o.kernel.envs e) s' := by
  rcases sysIpcTrySend_cases h with ⟨r, hr, rfl⟩ | ⟨dst, k1, hdst, hrecv, _, htr, rfl⟩
  · refine ⟨.inl rfl, ?_⟩
    have hnone : k.ipcEvents cur (.ipcTrySend envid value srcva perm) (.ret r k) = [] :=
      if_neg hr.ne
    rw [hnone]
    exact ⟨s, Run.nil s, hrep⟩
  · refine ⟨.inl rfl, ?_⟩
    have hevent : k.ipcEvents cur (.ipcTrySend envid value srcva perm)
        (.ret 0 (k1.ipcDeliver cur dst value)) =
        [(dst, .fill (k.message cur dst value srcva perm))] := by
      simp [ipcEvents, hdst]
    obtain ⟨hid, hperm, hother⟩ := transfer_fields htr (lt_irrefl 0)
    rw [hevent, Outcome.kernel_ret]
    by_cases he : dst = e
    · subst he
      rw [mail_self]
      refine ⟨.full (k.message cur dst value srcva perm), Run.single ?_, ?_⟩
      · cases s with
        | idle => exact absurd (hrecv.symm.trans hrep) (by decide)
        | waiting => exact .fill _
        | full a => exact absurd (hrecv.symm.trans hrep.1) (by decide)
      · simp [Represents, ipcDeliver, setEnv, message, hid, hperm]
    · rw [mail_other he]
      have hsame : (k1.ipcDeliver cur dst value).envs e = k.envs e := by
        simp [ipcDeliver, setEnv, Ne.symm he, hother e (Ne.symm he)]
      rw [hsame]
      exact ⟨s, Run.nil s, hrep⟩

/-- A call that writes no status but by IPC: it comes back, and one mailbox sees its events. -/
theorem call_mail (hc : call.KeepsStatus) (hrep : Represents (k.envs e) s)
    (h : (k.call cur cr3 dev call).2 = some o) :
    (o.leave = .back ∨ o.leave = .yield) ∧
      ∃ s', Run Mailbox.Step s (mail e (k.ipcEvents cur call o)) s' ∧
        Represents (o.kernel.envs e) s' := by
  -- most calls do not touch the table
  have hsame : k.ipcEvents cur call o = [] → Represents (o.kernel.envs e) s →
      ∃ s', Run Mailbox.Step s (mail e (k.ipcEvents cur call o)) s' ∧
        Represents (o.kernel.envs e) s' := by
    intro hnone hrep'
    rw [hnone]
    exact ⟨s, Run.nil s, hrep'⟩
  cases call with
  | cgetc =>
    cases h
    exact ⟨.inl rfl, hsame rfl hrep⟩
  | getenvid =>
    cases h
    exact ⟨.inl rfl, hsame rfl hrep⟩
  | pageAlloc envid va perm =>
    rcases sysPageAlloc_cases h with ⟨r, _, rfl⟩ | ⟨_, _, _, _, _, _, _, _, _, _, rfl⟩
    · exact ⟨.inl rfl, hsame rfl hrep⟩
    · exact ⟨.inl rfl, hsame rfl hrep⟩
  | pageMap srcenvid srcva dstenvid dstva perm =>
    rcases sysPageMap_cases h with
      ⟨r, _, rfl⟩ | ⟨_, _, _, _, _, _, _, _, _, _, _, _, _, rfl⟩
    · exact ⟨.inl rfl, hsame rfl hrep⟩
    · exact ⟨.inl rfl, hsame rfl hrep⟩
  | pageUnmap envid va =>
    rcases sysPageUnmap_cases h with ⟨r, _, rfl⟩ | ⟨_, _, _, _, _, rfl⟩
    · exact ⟨.inl rfl, hsame rfl hrep⟩
    · exact ⟨.inl rfl, hsame rfl hrep⟩
  | envSetPgfaultUpcall envid func =>
    have ho := (Option.some.inj h).symm
    rw [sysEnvSetPgfaultUpcall] at ho
    split at ho
    · subst ho
      exact ⟨.inl rfl, hsame rfl hrep⟩
    · subst ho
      refine ⟨.inl rfl, hsame rfl ?_⟩
      rw [Outcome.kernel_ret]
      exact hrep.setEnv (by intro; exact ⟨rfl, rfl, rfl, rfl⟩) (by intro; rfl) _
  | yield =>
    cases h
    exact ⟨.inr rfl, hsame rfl hrep⟩
  | ipcTrySend envid value srcva perm => exact send_mail hrep h
  | ipcRecv dstva =>
    have ho := (Option.some.inj h).symm
    rw [sysIpcRecv] at ho
    split at ho
    · subst ho
      exact ⟨.inl rfl, hsame rfl hrep⟩
    · subst ho
      refine ⟨.inr rfl, ?_⟩
      show ∃ s', Run Mailbox.Step s (mail e [(cur, .wait)]) s' ∧ _
      by_cases he : cur = e
      · subst he
        rw [mail_self]
        exact ⟨.waiting, Run.single (.wait s), by simp [Represents, setEnv]⟩
      · rw [mail_other he]
        refine ⟨s, Run.nil s, ?_⟩
        simpa [setEnv, Ne.symm he] using hrep
  | timeMsec =>
    cases h
    exact ⟨.inl rfl, hsame rfl hrep⟩
  | pktSend data len =>
    obtain ⟨⟨_, _, _⟩, _, ho⟩ := bind_result h
    cases ho
    exact ⟨.inl rfl, hsame rfl hrep⟩
  | pktRecv addr len =>
    obtain ⟨⟨_, _, _⟩, _, ho⟩ := bind_result h
    cases ho
    exact ⟨.inl rfl, hsame rfl hrep⟩
  | _ => exact absurd hc id

theorem ipcEvents_saveTf (k : Kernel) (cur : EnvIx) (tf : Trapframe) (call : Call) (o : Outcome) :
    (k.saveTf cur tf).ipcEvents cur call o = k.ipcEvents cur call o := by
  have hid := saveTf_field Env.envId (fun _ _ => rfl) k cur tf
  have hdstva := saveTf_field Env.envIpcDstva (fun _ _ => rfl) k cur tf
  have hperm := saveTf_field Env.envIpcPerm (fun _ _ => rfl) k cur tf
  cases call <;> cases o <;>
    simp only [ipcEvents, message, envid2env_saveTf, hid, hdstva, hperm]

theorem trapSyscall_mail (hc : call.KeepsStatus) (halive : (k.envs cur).envStatus ≠ .dying)
    (hrep : Represents (k.envs e) s) (h : (k.trapSyscall cur cr3 dev tf call).2 = some o) :
    (o.leave = .back ∨ o.leave = .yield) ∧
      ∃ s', Run Mailbox.Step s (mail e (k.ipcEvents cur call o)) s' ∧
        Represents (o.kernel.envs e) s' := by
  rcases trapSyscall_cases h with ⟨hdying, _⟩ | ⟨_, o1, ho1, _, hres⟩
  · exact absurd hdying halive
  · obtain ⟨hleave, s', hrun, hrep'⟩ := call_mail hc (hrep.saveTf cur tf) ho1
    rw [ipcEvents_saveTf] at hrun
    rcases hres with ⟨r, k', rfl, rfl⟩ | ⟨rfl, _⟩
    · refine ⟨.inl rfl, s', ?_, hrep'.setEax cur r⟩
      cases call <;> exact hrun
    · exact ⟨hleave, s', hrun, hrep'⟩

theorem envRun_mail (hl : l.enters = some c) (hrep : Represents (m.kernel.envs e) s)
    (hstatus : (m.kernel.envs e').envStatus ≠ .notRunnable) (h : m.envRun c e' = some m') :
    ∃ s', Run Mailbox.Step s (mail e (m'.runEvents l)) s' ∧ Represents (m'.kernel.envs e) s' := by
  obtain ⟨d, _, h⟩ := bind_eq_some_iff.mp h
  cases h
  have hne : s = .waiting → e ≠ e' := by
    rintro rfl rfl
    exact hstatus hrep.2
  have hsuspend : Represents ((m.kernel.suspend (m.curenv c)).envs e) s := by
    cases m.curenv c with
    | none => exact hrep
    | some now =>
      rw [suspend]
      split
      · next hrun =>
        refine hrep.of_same (sameBox_setEnv (by intro; exact ⟨rfl, rfl, rfl, rfl⟩) _ now e) ?_
        rintro rfl
        have hnow : e ≠ now := by
          rintro rfl
          rw [hrep.2] at hrun
          cases hrun
        simp [setEnv, hnow]
      · exact hrep
  have hrun : Represents ((m.kernel.envRun (m.curenv c) e').envs e) s := by
    refine hsuspend.of_same (sameBox_setEnv (by intro; exact ⟨rfl, rfl, rfl, rfl⟩) _ e' e) fun hs =>
      ?_
    simp [envRun, setEnv, hne hs]
  refine ⟨s, ?_, hrun⟩
  have hevents : ((m.setKernel (m.kernel.envRun (m.curenv c) e')).setCpu c
      { mode := .leaving, cpuEnv := some e', cr3 := d }).runEvents l = [(e', .resume)] := by
    simp [Machine.runEvents, hl, Machine.curenv, Machine.setCpu]
  rw [hevents]
  by_cases he : e' = e
  · subst he
    rw [mail_self]
    exact Run.single (.resume fun hs => hne hs rfl)
  · rw [mail_other he]
    exact Run.nil s

theorem schedYield_mail (hl : l.enters = some c) (hrep : Represents (m.kernel.envs e) s)
    (h : m.schedYield c = some m') :
    ∃ s', Run Mailbox.Step s (mail e (m'.runEvents l)) s' ∧ Represents (m'.kernel.envs e) s' := by
  rcases Machine.schedYield_cases h with ⟨e', hs, h⟩ | ⟨hs, _, h⟩ | rfl
  · exact envRun_mail hl hrep (by rw [hs]; decide) h
  · exact envRun_mail hl hrep (by rw [hs]; decide) h
  · refine ⟨s, ?_, hrep⟩
    simpa [Machine.runEvents, hl, Machine.curenv, Machine.setCpu] using Run.nil s

theorem leave_mail {v : Leave} (hl : l.enters = some c) (hv : v = .back ∨ v = .yield)
    (hrep : Represents (m.kernel.envs e) s) (h : m.leave c cur v = some m') :
    ∃ s', Run Mailbox.Step s (mail e (m'.runEvents l)) s' ∧ Represents (m'.kernel.envs e) s' := by
  rcases hv with rfl | rfl
  · rw [Machine.leave] at h
    split at h
    · next hs => exact envRun_mail hl hrep (by rw [hs]; decide) h
    · exact schedYield_mail hl hrep h
  · exact schedYield_mail hl hrep h

/-- A section under the lock, seen by one mailbox: the call, and who goes on. -/
theorem trap_mail {faultVa : Word} (hquiet : m.Quiet (.trap c tf faultVa dev))
    (hrep : Represents (m.kernel.envs e) s)
    (h : m.trap c tf (.decode tf faultVa dev) = some m') :
    ∃ s', Run Mailbox.Step s (mail e (m.callEvents (.trap c tf faultVa dev) ++
      m'.runEvents (.trap c tf faultVa dev))) s' ∧ Represents (m'.kernel.envs e) s' := by
  obtain ⟨cur, hc, h⟩ := bind_eq_some_iff.mp h
  obtain ⟨⟨k, v⟩, htrap, h⟩ := bind_eq_some_iff.mp h
  obtain ⟨hkeeps, hdying⟩ := hquiet
  have halive := hdying cur hc
  unfold trapUser at htrap
  rw [if_neg halive] at htrap
  rw [mail_append]
  -- nothing happens but the end of the section
  have hquick : (k, v) = (m.kernel.saveTf cur tf, v) → (v = .back ∨ v = .yield) →
      m.callEvents (.trap c tf faultVa dev) = [] →
      ∃ s', Run Mailbox.Step s (mail e (m.callEvents (.trap c tf faultVa dev)) ++
        mail e (m'.runEvents (.trap c tf faultVa dev))) s' ∧ Represents (m'.kernel.envs e) s' := by
    intro hk hv hnone
    cases hk
    rw [hnone]
    exact leave_mail (m := m.setKernel _) (l := .trap c tf faultVa dev) rfl hv
      (hrep.saveTf cur tf) h
  cases hdec : Trap.decode tf faultVa dev with
  | syscall call dev' =>
    rw [hdec] at htrap hkeeps
    obtain ⟨o, ho, heq⟩ := bind_result htrap
    cases heq
    have hevents : m.callEvents (.trap c tf faultVa dev) = m.kernel.ipcEvents cur call o := by
      simp only [Machine.callEvents, hc, hdec, ho]
    obtain ⟨hleave, s1, hrun1, hrep1⟩ := trapSyscall_mail hkeeps halive hrep ho
    obtain ⟨s2, hrun2, hrep2⟩ := leave_mail (m := m.setKernel o.kernel)
      (l := .trap c tf faultVa dev) rfl hleave hrep1 h
    rw [hevents]
    exact ⟨s2, hrun1.append hrun2, hrep2⟩
  | timer =>
    rw [hdec] at htrap
    cases htrap
    exact hquick rfl (.inr rfl) (by simp only [Machine.callEvents, hc, hdec])
  | ignored =>
    rw [hdec] at htrap
    cases htrap
    exact hquick rfl (.inl rfl) (by simp only [Machine.callEvents, hc, hdec])
  | pageFault va =>
    rw [hdec] at hkeeps
    exact absurd hkeeps id
  | unexpected =>
    rw [hdec] at hkeeps
    exact absurd hkeeps id

/-- **Simulation.** Each quiet step of the machine is matched by every mailbox. -/
theorem ipc_step_simulates {x : Label × List IpcEvent} (h : IpcStep m x m')
    (hrep : Represents (m.kernel.envs e) s) :
    ∃ s', Run Mailbox.Step s (mail e x.2) s' ∧ Represents (m'.kernel.envs e) s' := by
  obtain ⟨l, evs⟩ := x
  obtain ⟨hstep, hquiet, hevs⟩ := h
  dsimp only at hstep hquiet hevs ⊢
  subst hevs
  cases l with
  | start c =>
    simp only [Machine.Step, Machine.step, ite_none_right_eq_some] at hstep
    exact schedYield_mail (l := .start c) rfl hrep hstep.2
  | wake c =>
    simp only [Machine.Step, Machine.step, ite_none_right_eq_some] at hstep
    exact schedYield_mail (l := .wake c) rfl hrep hstep.2
  | pop c =>
    simp only [Machine.Step, Machine.step, ite_none_right_eq_some, Machine.envPopTf,
      bind_eq_some_iff] at hstep
    obtain ⟨_, cur, _, heq⟩ := hstep
    cases heq
    have hrep' : Represents ((m.kernel.setEnv cur
        fun env => { env with envCpunum := c.val }).envs e) s :=
      hrep.setEnv (by intro; exact ⟨rfl, rfl, rfl, rfl⟩) (by intro; rfl) cur
    exact ⟨s, Run.nil s, hrep'⟩
  | trap c tf faultVa dev =>
    simp only [Machine.Step, Machine.step, ite_none_right_eq_some] at hstep
    exact trap_mail hquiet hrep hstep.2
  | store c va b =>
    simp only [Machine.Step, Machine.step, ite_none_right_eq_some, map_eq_some_iff] at hstep
    obtain ⟨_, _, _, rfl⟩ := hstep
    exact ⟨s, Run.nil s, hrep⟩

/-- A send that fails changes the registers of the sender and nothing else. -/
theorem send_failed
    (h : (k.trapSyscall cur cr3 dev tf (.ipcTrySend envid value srcva perm)).2 = some (.ret r k'))
    (hr : r < 0) :
    k'.pmap = k.pmap ∧ ∀ e, k'.envs e = { k.envs e with envTf := (k'.envs e).envTf } := by
  rcases trapSyscall_cases h with ⟨_, _, _, heq⟩ | ⟨_, o1, ho1, _, hret | ⟨heq, hno⟩⟩
  · cases heq
  · obtain ⟨r', k1, rfl, heq⟩ := hret
    cases heq
    rcases sysIpcTrySend_cases ho1 with ⟨r', _, heq⟩ | ⟨_, _, _, _, _, _, heq⟩
    · cases heq
      refine ⟨rfl, fun e => ?_⟩
      by_cases he : e = cur
      · subst he
        simp [setEax, saveTf, setEnv]
      · simp [setEax, saveTf, setEnv, he]
    · rw [(Outcome.ret.inj heq).1] at hr
      exact absurd hr (lt_irrefl 0)
  · exact absurd heq.symm (hno r k')

theorem envAlloc_recving {parentId : Word} {r : Except Int EnvIx}
    (h : k.envAlloc parentId = some (k', r)) (hk : (k.envs e).envIpcRecving = false) :
    (k'.envs e).envIpcRecving = false := by
  rcases envAlloc_cases h with ⟨_, _, rfl⟩ | ⟨e1, k1, i, _, hset, hres⟩
  · exact hk
  · have hk1 : (k1.envs e).envIpcRecving = false := by
      obtain ⟨⟨s, p⟩, _, hset⟩ := bind_eq_some_iff.mp hset
      cases p with
      | none =>
        cases hset
        exact hk
      | some p =>
        simp only [bind_eq_some_iff, Option.some.injEq, Prod.mk.injEq] at hset
        obtain ⟨d, _, rfl, _⟩ := hset
        rw [setEnv_field Env.envIpcRecving (by intro; rfl)]
        exact hk
    rcases hres with ⟨_, _, rfl⟩ | ⟨_, _, rfl⟩
    · exact hk1
    · by_cases he : e = e1
      · subst he
        simp [setEnv, initEnv]
      · simpa [setEnv, he] using hk1

theorem boot_not_recving (h : Kernel.boot s₀ nic b x n = some k) (e : EnvIx) :
    (k.envs e).envIpcRecving = false := by
  obtain ⟨s, _, h⟩ := bind_eq_some_iff.mp h
  refine forUpTo_preserves (fun k => (k.envs e).envIpcRecving = false) ?_
    (fun i k1 k2 halloc hk1 => ?_) h
  · rw [envInit]
    -- for any list, so that the table of 1024 is not unfolded
    generalize List.finRange 1024 = js
    exact envInitLoop_field Env.envIpcRecving (fun _ _ => rfl) _ js e
  · rw [map_eq_some_iff] at halloc
    obtain ⟨⟨k', r⟩, halloc, rfl⟩ := halloc
    exact envAlloc_recving halloc hk1

theorem boot_simulates {ncpu : ℕ}
    {ls : List (Label × List IpcEvent)} (hboot : Kernel.boot s₀ nic b x n = some k)
    (hrun : Run IpcStep (.ofKernel k ncpu) ls m) (e : EnvIx) :
    ∃ s, Run Mailbox.Step .idle (mailLog e ls) s ∧ Represents (m.kernel.envs e) s :=
  hrun.simulate (fun m s => Represents (m.kernel.envs e) s) (fun x => mail e x.2)
    (fun _ _ _ _ hrep hs => ipc_step_simulates hs hrep)
    (show Represents ((Machine.ofKernel k ncpu).kernel.envs e) .idle from boot_not_recving hboot e)

end Simulation

/-- **IPC delivers exactly once.** In every run of quiet steps from a kernel that is up, for
    every environment `e`: between a receive of `e` and its going on, with no other receive in
    between, there is exactly one send that succeeds; every send that succeeds answers the
    receive just before it, and its value and sender are in the fields of `e` until the next
    receive. A send that fails in a state reached changes nothing but registers of the
    sender. -/
theorem ipc_exactly_once {s₀ : Pmap} {nic : E1000} {b x n ncpu : ℕ} {k : Kernel} {m : Machine}
    {ls : List (Label × List IpcEvent)} (hboot : Kernel.boot s₀ nic b x n = some k)
    (hrun : Run IpcStep (.ofKernel k ncpu) ls m) (e : EnvIx) :
    (∀ l₁ l₂ l₃, mailLog e ls = l₁ ++ .wait :: l₂ ++ .resume :: l₃ → .wait ∉ l₂ →
      ∃ a r, l₂ = .fill a :: r ∧ ∀ y ∈ r, y = .resume) ∧
    (∀ l₁ a l₂, mailLog e ls = l₁ ++ .fill a :: l₂ → (∃ l₀, l₁ = l₀ ++ [.wait]) ∧
      (.wait ∉ l₂ → (m.kernel.envs e).envIpcFrom = a.src ∧
        (m.kernel.envs e).envIpcValue = a.value)) ∧
    ∀ (cur : EnvIx) (cr3 : ℕ) (dev : Int) (tf : Trapframe) (envid value srcva perm : Word) (r : Int)
      (k' : Kernel), (m.kernel.trapSyscall cur cr3 dev tf
        (.ipcTrySend envid value srcva perm)).2 = some (.ret r k') → r < 0 →
      k'.pmap = m.kernel.pmap ∧
        ∀ e, k'.envs e = { m.kernel.envs e with envTf := (k'.envs e).envTf } := by
  obtain ⟨s, hmail, hrep⟩ := boot_simulates hboot hrun e
  refine ⟨fun l₁ l₂ l₃ hlog hl => ?_, fun l₁ a l₂ hlog => ?_, ?_⟩
  · rw [hlog] at hmail
    exact filled_once hmail hl
  · rw [hlog] at hmail
    refine ⟨fill_after_wait hmail nofun, fun hl => ?_⟩
    obtain rfl := kept hmail hl
    exact ⟨hrep.2.1, hrep.2.2.1⟩
  · intro cur cr3 dev tf envid value srcva perm r k' h hr
    exact send_failed h hr

/-- Sixteen pages and four environments. -/
def Kernel.four : Option Kernel := Kernel.boot (.blank 16 4) E1000.blank 4 6 4

/-- Environment 1 receives on the second processor, environment 0 sends the value 7 on the
    first and yields, and environment 1 goes on there: one message, and its fields are still
    there. -/
theorem ipc_exactly_once_seven : ∃ (k : Kernel) (m : Machine) (ls : List (Label × List IpcEvent)),
    Kernel.four = some k ∧ Run IpcStep (.ofKernel k 2) ls m ∧
      mailLog 1 ls = [.resume, .wait, .fill ⟨0x1000#32, 7#32, 0#32⟩, .resume] ∧
      (m.kernel.envs 1).envIpcFrom = 0x1000#32 ∧ (m.kernel.envs 1).envIpcValue = 7#32 := by
  let labels : List Label := [.start 0, .pop 0, .start 1, .pop 1,
    .forCall 1 13#32 utop 0 0 0 0, .forCall 0 12#32 0x1001#32 7#32 utop 0 0, .pop 0,
    .forCall 0 11#32 0 0 0 0 0]
  obtain ⟨k, hk, ⟨m, ls⟩, hls, hlog⟩ : ∃ k ∈ four,
      ∃ x ∈ (Machine.ofKernel k 2).ipcSteps (fun m l => decide (m.Quiet l)) labels,
        mailLog 1 x.2 = [.resume, .wait, .fill ⟨0x1000#32, 7#32, 0#32⟩, .resume] := by
    decide +kernel
  have hrun : Run IpcStep (.ofKernel k 2) ls m :=
    (run_of_ipcSteps hls).mono fun _ _ _ hs => ⟨hs.1, of_decide_eq_true hs.2.1, hs.2.2⟩
  obtain ⟨_, hfill, _⟩ := ipc_exactly_once hk hrun 1
  obtain ⟨_, hkept⟩ := hfill [.resume, .wait] ⟨0x1000#32, 7#32, 0#32⟩ [.resume] hlog
  obtain ⟨hsrc, hvalue⟩ := hkept (by decide)
  exact ⟨k, m, ls, hk, hrun, hlog, hsrc, hvalue⟩

end LinuxStudy.Jos
