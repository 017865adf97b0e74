import LinuxStudy.Jos.Ipc
import LinuxStudy.Jos.WriteAuthority

/-!
# The permission `ipc_recv` reports

The file and network servers trust the permission that `ipc_recv` stores: nonzero if and only
if the message came with a page. The kernel writes `env_ipc_perm` when a page is mapped and
never clears it, maps a page at every `env_ipc_dstva` that is not null, and maps none at
address 0. So the permission is right for messages with a page to a receiver that waits for
one between 0 and `UTOP`, and for messages without a page to a receiver that has never got
one.
-/

namespace LinuxStudy.Jos

open Mailbox
open Kernel Machine

structure Received where
  fromEnv : Word
  perm : Word
  ret : Int

/-- The stores of `ipc_recv`, from the result of `sys_ipc_recv` and `thisenv`. -/
def ipcRecv (thisenv : Env) (r : Int) : Received :=
  { fromEnv := if r < 0 then 0#32 else thisenv.envIpcFrom
    perm := if r < 0 then 0#32 else thisenv.envIpcPerm
    ret := if r < 0 then r else thisenv.envIpcValue.toInt }

/-- A page is sent to a receiver that waits for one above 0 and below `UTOP`, and no page to
    one whose `env_ipc_perm` is still 0. -/
def Kernel.SendsTruthfully (k : Kernel) (cur : EnvIx) : Call → Prop
  | .ipcTrySend envid _ srcva _ => ∀ dst ∈ k.envid2env cur envid false,
      (k.envs dst).envIpcRecving = true →
        if srcva < utop then (k.envs dst).envIpcDstva ≠ 0#32 ∧ (k.envs dst).envIpcDstva < utop
        else (k.envs dst).envIpcPerm = 0#32
  | _ => True

def Label.isStore : Label → Bool
  | .store _ _ _ => true
  | _ => false

/-- The system call of a step is a page call, a receive, a truthful send or a yield. -/
def Machine.Truthful (m : Machine) (l : Label) : Prop :=
  l.isStore = false ∧ ∀ call ∈ l.call, (call.Paging ∨ call = .yield) ∧
    ∀ c ∈ l.enters, ∀ cur ∈ m.curenv c, m.kernel.SendsTruthfully cur call

instance : (call : Call) → Decidable call.Paging
  | .pageAlloc .. | .pageMap .. | .pageUnmap .. | .ipcTrySend .. | .ipcRecv _ => instDecidableTrue
  | .cputs .. | .cgetc | .getenvid | .envDestroy _ | .exofork | .envSetStatus ..
  | .envSetTrapframe .. | .envSetPgfaultUpcall .. | .yield | .timeMsec | .pktSend ..
  | .pktRecv .. => instDecidableFalse

instance (k : Kernel) (cur : EnvIx) : (call : Call) → Decidable (k.SendsTruthfully cur call)
  | .ipcTrySend .. => Option.decidableForallMem _
  | .cputs .. | .cgetc | .getenvid | .envDestroy _ | .pageAlloc .. | .pageMap .. | .pageUnmap ..
  | .exofork | .envSetStatus .. | .envSetTrapframe .. | .envSetPgfaultUpcall .. | .yield
  | .ipcRecv _ | .timeMsec | .pktSend .. | .pktRecv .. => instDecidableTrue

instance (m : Machine) (l : Label) : Decidable (m.Truthful l) :=
  have (call : Call) (c : CpuIx) :
      Decidable (∀ cur ∈ m.curenv c, m.kernel.SendsTruthfully cur call) :=
    Option.decidableForallMem _
  inferInstanceAs (Decidable (_ ∧ _))

def TruthfulStep (m : Machine) (x : Label × List IpcEvent) (m' : Machine) : Prop :=
  IpcStep m x m' ∧ m.Truthful x.1

section Truthful

variable {m m' : Machine} {k k' : Kernel} {c : CpuIx} {cur dst : EnvIx} {tf : Trapframe}
  {faultVa : Word} {dev dev' : Int} {x : Label × List IpcEvent} {envid value srcva perm : Word}
  {o : Outcome} {cr3 : ℕ}

theorem Kernel.SendsTruthfully.below {call : Call} (h : k.SendsTruthfully cur call) :
    k.SendsBelow cur call := by
  cases call with
  | ipcTrySend envid value srcva perm =>
    intro hsrc dst hdst hrecv
    have hcond := h dst hdst hrecv
    rw [if_pos hsrc] at hcond
    exact hcond.2
  | _ => trivial

theorem TruthfulStep.apart (h : TruthfulStep m x m') (A : Apart m.kernel.dirs m.kernel.pmap) :
    Apart m'.kernel.dirs m'.kernel.pmap := by
  obtain ⟨l, evs⟩ := x
  obtain ⟨⟨hstep, hquiet, _⟩, htruth⟩ := h
  -- what leaves memory alone keeps the directories apart
  have hsame : ∀ {k : Kernel}, Apart k.dirs k.pmap →
      m'.kernel.pmap = k.pmap ∧ m'.kernel.dirs = k.dirs → Apart m'.kernel.dirs m'.kernel.pmap := by
    rintro k A ⟨hpmap, hdirs⟩
    rw [hpmap, hdirs]
    exact A
  cases l with
  | start c =>
    simp only [Machine.Step, step, Option.ite_none_right_eq_some] at hstep
    exact hsame A (schedYield_memory hstep.2)
  | wake c =>
    simp only [Machine.Step, step, Option.ite_none_right_eq_some] at hstep
    exact hsame A (schedYield_memory hstep.2)
  | pop c =>
    simp only [Machine.Step, step, Option.ite_none_right_eq_some] at hstep
    exact hsame A (envPopTf_memory hstep.2)
  | store c va b => exact absurd htruth.1 (by rintro ⟨⟩)
  | trap c tf faultVa dev =>
    simp only [Machine.Step, step, Option.ite_none_right_eq_some] at hstep
    obtain ⟨_, hstep⟩ := hstep
    obtain ⟨cur, hc, hstep⟩ := Option.bind_eq_some_iff.mp hstep
    obtain ⟨⟨k, v⟩, htrap, hleave⟩ := Option.bind_eq_some_iff.mp hstep
    have hmemory := leave_memory hleave
    obtain ⟨hkeeps, hdying⟩ := hquiet
    have halive := hdying cur hc
    unfold trapUser at htrap
    rw [if_neg halive] at htrap
    have hsaved : Apart (m.kernel.saveTf cur tf).dirs (m.kernel.saveTf cur tf).pmap := by
      rw [(Kernel.Agree.saveTf m.kernel cur tf).dirs]
      exact A
    cases hdec : Trap.decode tf faultVa dev with
    | syscall call dev' =>
      rw [hdec] at htrap
      obtain ⟨o, ho, heq⟩ := Logged.bind_result htrap
      cases heq
      obtain ⟨hcall, hsend⟩ := htruth.2 call (by simp [Label.call, hdec])
      refine hsame ?_ hmemory
      rcases hcall with hpaging | rfl
      · obtain ⟨hag, hE⟩ := trap_edit A halive hpaging (hsend c rfl cur hc).below ho
        show Apart o.kernel.dirs o.kernel.pmap
        rw [hag.dirs]
        exact hE.apart
      · rcases trapSyscall_cases ho with ⟨hd, _⟩ | ⟨_, o1, ho1, _, hres⟩
        · exact absurd hd halive
        · cases ho1
          rcases hres with ⟨_, _, heq, _⟩ | ⟨rfl, _⟩
          · cases heq
          · exact hsaved
    | timer =>
      rw [hdec] at htrap
      cases htrap
      exact hsame hsaved hmemory
    | ignored =>
      rw [hdec] at htrap
      cases htrap
      exact hsame hsaved hmemory
    | pageFault va =>
      rw [hdec] at hkeeps
      exact absurd hkeeps id
    | unexpected =>
      rw [hdec] at hkeeps
      exact absurd hkeeps id

theorem sent_cases {a : Message} (hc : m.curenv c = some cur)
    (hdec : Trap.decode tf faultVa dev = .syscall (.ipcTrySend envid value srcva perm) dev')
    (hsent : m.callEvents (.trap c tf faultVa dev) = [(dst, .fill a)]) :
    ∃ k', (m.kernel.trapSyscall cur (m.cpus c).cr3 dev' tf
        (.ipcTrySend envid value srcva perm)).2 = some (.ret 0 k') ∧
      m.kernel.envid2env cur envid false = some dst ∧
      a = m.kernel.message cur dst value srcva perm := by
  simp only [callEvents, hc, hdec] at hsent
  split at hsent
  · next o ho =>
    cases o with
    | ret r k' =>
      simp only [ipcEvents] at hsent
      split at hsent
      · next hr =>
        subst hr
        split at hsent
        · next dst' hdst =>
          obtain ⟨rfl, rfl⟩ := hsent
          exact ⟨k', ho, hdst, rfl⟩
        · simp at hsent
      · simp at hsent
    | yield k' => simp [ipcEvents] at hsent
    | exit k' => simp [ipcEvents] at hsent
  · simp at hsent

theorem send_no_page (hsrc : ¬ srcva < utop)
    (h : (k.trapSyscall cur cr3 dev tf (.ipcTrySend envid value srcva perm)).2 =
      some (.ret 0 k')) : k'.pmap = k.pmap := by
  rcases trapSyscall_cases h with ⟨_, _, _, heq⟩ | ⟨_, o1, ho1, _, hret | ⟨heq, hno⟩⟩
  · cases heq
  · obtain ⟨r, k1, rfl, heq⟩ := hret
    cases heq
    rcases sysIpcTrySend_cases ho1 with ⟨r, hr, heq⟩ | ⟨_, k2, _, _, _, htr, heq⟩
    · rw [← (Outcome.ret.inj heq).1] at hr
      exact absurd hr (lt_irrefl 0)
    · cases heq
      rcases ipcTransfer_cases htr with ⟨hneg, _⟩ | ⟨_, rfl, _⟩ | ⟨_, _, _, _, hlt, _⟩
      · exact absurd hneg (lt_irrefl 0)
      · rfl
      · exact absurd hlt hsrc
  · exact absurd heq.symm (hno 0 k')

theorem truthful_send (A : Apart k.dirs k.pmap) (hsend : k.SendsTruthfully cur
      (.ipcTrySend envid value srcva perm))
    (hdst : k.envid2env cur envid false = some dst)
    (h : (k.trapSyscall cur cr3 dev tf (.ipcTrySend envid value srcva perm)).2 =
      some (.ret 0 k')) :
    (srcva < utop ∧ (k.envs dst).envIpcDstva < utop ∧ perm ≠ 0#32 ∧
      (k.message cur dst value srcva perm).perm = perm ∧
      ∃ p, frameOf (pte k.dirs k.pmap cur (pdx srcva) (ptx srcva)) = some p ∧
        pte k'.dirs k'.pmap dst (pdx (k.envs dst).envIpcDstva) (ptx (k.envs dst).envIpcDstva) =
          mkPte p perm) ∨
    (¬ srcva < utop ∧ (k.message cur dst value srcva perm).perm = 0#32 ∧ k'.pmap = k.pmap) := by
  rcases trapSyscall_cases h with ⟨_, _, _, heq⟩ | ⟨_, o1, ho1, _, hret | ⟨heq, hno⟩⟩
  · cases heq
  · obtain ⟨r, k1, rfl, heq⟩ := hret
    cases heq
    have hdirs := (Kernel.Agree.saveTf k cur tf).dirs
    have hdstva := saveTf_field Env.envIpcDstva (fun _ _ => rfl) k cur tf
    rcases sysIpcTrySend_cases ho1 with
      ⟨r, hr, heq⟩ | ⟨dst', k2, hdst', hrecv, _, htr, heq⟩
    · rw [← (Outcome.ret.inj heq).1] at hr
      exact absurd hr (lt_irrefl 0)
    · cases heq
      rw [envid2env_saveTf, hdst] at hdst'
      cases hdst'
      rw [saveTf_field Env.envIpcRecving fun _ _ => rfl] at hrecv
      have hcond := hsend dst hdst hrecv
      rcases ipcTransfer_cases htr with ⟨hneg, _⟩ | ⟨_, rfl, hnone⟩ |
        ⟨p, slot, s', _, hsrc, hne, hP, _, hperm, hfound, _, hins, rfl⟩
      · exact absurd hneg (lt_irrefl 0)
      · have hsrc : ¬ srcva < utop := by
          intro hsrc
          rw [if_pos hsrc] at hcond
          exact hcond.1 (hdstva dst ▸ hnone hsrc)
        rw [if_neg hsrc] at hcond
        refine Or.inr ⟨hsrc, ?_, rfl⟩
        rw [message, if_neg fun hpage => hsrc hpage.1]
        exact hcond
      · rw [if_pos hsrc] at hcond
        rw [hdirs] at hfound hins
        rw [hdstva] at hins
        obtain ⟨_, _, hpage⟩ := Pmap.pageLookup_found hsrc hfound
        obtain ⟨_, hpte⟩ := A.insert hcond.2 hperm (Apart.frameOf_lt hpage) (A.page _ _ _ _ hpage)
          hins
        have hperm0 : perm ≠ 0#32 := by
          rintro rfl
          exact hP (BitVec.zero_and)
        have hmessage : (k.message cur dst value srcva perm).perm = perm := by
          rw [message, if_pos ⟨hsrc, hcond.1⟩]
        refine Or.inl ⟨hsrc, hcond.2, hperm0, hmessage, p, hpage, ?_⟩
        have hag : (k.saveTf cur tf).Agree
            (((((k.saveTf cur tf).setPmap s').setEnv dst fun env =>
              { env with envIpcPerm := perm }).ipcDeliver cur dst value).setEax cur 0) :=
          ((Kernel.Agree.setPmap _ s').trans (Kernel.Agree.setEnv _ dst (by intro; rfl)
            (by intro; rfl))).trans ((Kernel.Agree.ipcDeliver _ _ _ _).trans
              (Kernel.Agree.setEax _ _ _))
        rw [hag.dirs, hdirs]
        exact hpte rfl
  · exact absurd heq.symm (hno 0 k')

theorem trap_memory {call : Call} (hc : m.curenv c = some cur)
    (halive : (m.kernel.envs cur).envStatus ≠ .dying)
    (ho : (m.kernel.trapSyscall cur (m.cpus c).cr3 dev tf call).2 = some o)
    (h : m.trap c tf (.syscall call dev) = some m') :
    m'.kernel.pmap = o.kernel.pmap ∧ m'.kernel.dirs = o.kernel.dirs := by
  have htrap : (m.kernel.trapUser cur (m.cpus c).cr3 tf (.syscall call dev)).2 =
      some (o.kernel, o.leave) := by
    unfold trapUser
    rw [if_neg halive]
    exact (Logged.bind_of_result ho).2
  unfold trap at h
  rw [hc, Option.bind_some, htrap, Option.bind_some] at h
  exact leave_memory h

theorem wait_notMem_runEvents (m : Machine) (l : Label) (e : EnvIx) :
    Act.wait ∉ mail e (m.runEvents l) := by
  intro hmem
  simp only [mail, runEvents, List.mem_filterMap] at hmem
  obtain ⟨y, hy, hact⟩ := hmem
  split at hy
  · rw [Option.mem_toList, Option.map_eq_some_iff] at hy
    obtain ⟨_, _, rfl⟩ := hy
    split at hact
    · cases hact
    · cases hact
  · simp at hy

/-- The message of a send stays with the receiver until its next receive. -/
theorem message_kept {s0 : Pmap} {nic : E1000} {b x n ncpu : ℕ} {m1 m2 : Machine}
    {ls ls' : List (Label × List IpcEvent)} {l : Label} {evs : List IpcEvent} {a : Message}
    (hboot : Kernel.boot s0 nic b x n = some k) (hrun : Run IpcStep (.ofKernel k ncpu) ls m)
    (hsent : m.callEvents l = [(dst, .fill a)]) (hstep : IpcStep m (l, evs) m1)
    (hafter : Run IpcStep m1 ls' m2) (hno : .wait ∉ mailLog dst ls') :
    Represents (m2.kernel.envs dst) (.full a) := by
  obtain ⟨s, hmail, hrep⟩ := boot_simulates hboot ((Run.snoc hrun hstep).append hafter) dst
  have hevs : evs = [(dst, .fill a)] ++ m1.runEvents l := by
    rw [← hsent]
    exact hstep.2.2
  have hmid : mail dst evs = .fill a :: mail dst (m1.runEvents l) := by
    rw [hevs, mail_append, mail_self]
    rfl
  have hlog : mailLog dst (ls ++ [(l, evs)] ++ ls') =
      mailLog dst ls ++ .fill a :: (mail dst (m1.runEvents l) ++ mailLog dst ls') := by
    simp [mailLog, hmid]
  rw [hlog] at hmail
  obtain rfl := kept hmail (by
    rw [List.mem_append]
    exact not_or.mpr ⟨wait_notMem_runEvents m1 l dst, hno⟩)
  exact hrep

end Truthful

/-- **The permission is right for truthful sends.** After any run of such steps from a kernel
    that is up, let a send to `dst` succeed. If sender and receiver passed addresses below
    `UTOP`, the sender's page is now mapped at the receiver's address with the permission of
    the send; otherwise memory is unchanged. Until the next receive of `dst`, what `ipc_recv`
    reports is that permission, which is not 0, and 0 otherwise. -/
theorem ipc_perm_truthful {s₀ : Pmap} {nic : E1000} {b x n ncpu : ℕ} {k : Kernel}
    {m m₁ m₂ : Machine} {ls ls' : List (Label × List IpcEvent)} {evs : List IpcEvent} {c : CpuIx}
    {tf : Trapframe} {faultVa : Word} {dev dev' : Int} {cur dst : EnvIx} {a : Message}
    {envid value srcva perm : Word} (hn : n ≤ 1024) (hearly : s₀.Early b x)
    (hboot : Kernel.boot s₀ nic b x n = some k)
    (hrun : Run TruthfulStep (.ofKernel k ncpu) ls m) (hcur : m.curenv c = some cur)
    (hdec : Trap.decode tf faultVa dev = .syscall (.ipcTrySend envid value srcva perm) dev')
    (hsent : m.callEvents (.trap c tf faultVa dev) = [(dst, .fill a)])
    (hstep : TruthfulStep m (.trap c tf faultVa dev, evs) m₁)
    (hafter : Run TruthfulStep m₁ ls' m₂) (hno : .wait ∉ mailLog dst ls') :
    let dstva := (m.kernel.envs dst).envIpcDstva
    (srcva < utop ∧ dstva < utop → perm ≠ 0#32 ∧ (ipcRecv (m₂.kernel.envs dst) 0).perm = perm ∧
      ∃ p, frameOf (pte m.kernel.dirs m.kernel.pmap cur (pdx srcva) (ptx srcva)) = some p ∧
        pte m₁.kernel.dirs m₁.kernel.pmap dst (pdx dstva) (ptx dstva) = mkPte p perm) ∧
    (¬ (srcva < utop ∧ dstva < utop) → m₁.kernel.pmap = m.kernel.pmap ∧
      (ipcRecv (m₂.kernel.envs dst) 0).perm = 0#32) := by
  intro dstva
  have A : Apart m.kernel.dirs m.kernel.pmap :=
    hrun.invariant (fun m => Apart m.kernel.dirs m.kernel.pmap)
      (booted_boot hn hearly hboot).1.apart fun _ _ _ A hs => hs.apart A
  obtain ⟨k', ho, hdst, rfl⟩ := sent_cases hcur hdec hsent
  have hipc : ∀ {m₁ m₂ : Machine} {ls}, Run TruthfulStep m₁ ls m₂ → Run IpcStep m₁ ls m₂ :=
    fun h => h.mono fun _ _ _ hs => hs.1
  have hkept := message_kept hboot (hipc hrun) hsent hstep.1 (hipc hafter) hno
  obtain ⟨⟨hmachine, ⟨_, hdying⟩, _⟩, htruth⟩ := hstep
  have hmemory : m₁.kernel.pmap = k'.pmap ∧ m₁.kernel.dirs = k'.dirs := by
    simp only [Machine.Step, step, Option.ite_none_right_eq_some, hdec] at hmachine
    exact trap_memory hcur (hdying cur hcur) ho hmachine.2
  have hperm : (ipcRecv (m₂.kernel.envs dst) 0).perm =
      (m.kernel.message cur dst value srcva perm).perm := hkept.2.2.2
  rw [hperm, hmemory.1, hmemory.2]
  have hsend : m.kernel.SendsTruthfully cur (.ipcTrySend envid value srcva perm) :=
    (htruth.2 _ (by simp [Label.call, hdec])).2 c rfl cur hcur
  rcases truthful_send A hsend hdst ho with
    ⟨hsrc, hbelow, hperm0, hmessage, hpage⟩ | ⟨hsrc, hmessage, hpmap⟩
  · exact ⟨fun _ => ⟨hperm0, hmessage, hpage⟩, fun hnot => absurd ⟨hsrc, hbelow⟩ hnot⟩
  · exact ⟨fun hboth => absurd hboth.1 hsrc, fun _ => ⟨hpmap, hmessage⟩⟩

/-- Environment 0 takes a page at `UTEMP`; environment 1 waits for one at `UTEXT`. -/
def beforeSend : List Label :=
  [.start 0, .pop 0, .forCall 0 4#32 0 utemp (pteP ||| pteU ||| pteW) 0 0, .pop 0, .start 1, .pop 1,
    .forCall 1 13#32 utext 0 0 0 0]

/-- The registers for a send of environment 0 to environment 1. -/
def sendTf (value srcva perm : Word) : Trapframe := .forCall 12#32 0x1001#32 value srcva perm 0

theorem decode_sendTf (value srcva perm : Word) (dev : Int) :
    Trap.decode (sendTf value srcva perm) 0 dev =
      .syscall (.ipcTrySend 0x1001#32 value srcva perm) dev := rfl

/-- The theorem at work on a message with that page: its permission is reported, and its page
    is mapped. -/
theorem ipc_perm_truthful_page : ∃ (k : Kernel) (m m₁ : Machine) (p : ℕ)
    (ls : List (Label × List IpcEvent)) (evs : List IpcEvent), Kernel.four = some k ∧
    Run TruthfulStep (.ofKernel k 3) ls m ∧
    TruthfulStep m (.trap 0 (sendTf 7#32 utemp (pteP ||| pteU ||| pteW)) 0 0, evs) m₁ ∧
      (ipcRecv (m₁.kernel.envs 1) 0).perm = pteP ||| pteU ||| pteW ∧
      pte m₁.kernel.dirs m₁.kernel.pmap 1 (pdx utext) (ptx utext) =
        mkPte p (pteP ||| pteU ||| pteW) := by
  let ok : Machine → Label → Bool := fun m l => decide (m.Quiet l ∧ m.Truthful l)
  let send : Label := .trap 0 (sendTf 7#32 utemp (pteP ||| pteU ||| pteW)) 0 0
  let a : Message := ⟨0x1000#32, 7#32, pteP ||| pteU ||| pteW⟩
  obtain ⟨k, hk, ⟨m, ls⟩, hls, m₁, hstep, hok, hcur, hsent, hdstva⟩ : ∃ k ∈ four,
      ∃ x ∈ (ofKernel k 3).ipcSteps ok beforeSend, ∃ _ ∈ x.1.step send,
        ok x.1 send = true ∧ x.1.curenv 0 = some 0 ∧ x.1.callEvents send = [(1, .fill a)] ∧
        (x.1.kernel.envs 1).envIpcDstva = utext := by
    decide +kernel
  have hrun : Run TruthfulStep (.ofKernel k 3) ls m := by
    refine (run_of_ipcSteps hls).mono fun _ _ _ hs => ?_
    obtain ⟨hquiet, htruth⟩ := of_decide_eq_true hs.2.1
    exact ⟨⟨hs.1, hquiet, hs.2.2⟩, htruth⟩
  obtain ⟨hquiet, htruth⟩ := of_decide_eq_true hok
  have hsend : TruthfulStep m (send, m.callEvents send ++ m₁.runEvents send) m₁ :=
    ⟨⟨hstep, hquiet, rfl⟩, htruth⟩
  obtain ⟨hpage, _⟩ := ipc_perm_truthful (by decide)
    (Pmap.blank_early (by decide) (by decide) (by decide))
      hk hrun hcur (decode_sendTf ..) hsent hsend
    (Run.nil m₁) (by simp [mailLog])
  rw [hdstva] at hpage
  obtain ⟨_, hperm, p, _, hpte⟩ := hpage (by decide)
  exact ⟨k, m, m₁, p, ls, _, hk, hrun, hsend, hperm, hpte⟩

/-- Environment 0 sends a page and then a message without one, both to environment 1, which
    waits with `UTOP` the second time. The second message maps nothing, and `ipc_recv`
    reports the permission of the first. -/
theorem ipc_perm_stale : ∃ (k : Kernel) (m m₁ : Machine) (ls : List (Label × List IpcEvent))
    (evs : List IpcEvent) (a : Message), Kernel.four = some k ∧
    Run IpcStep (.ofKernel k 3) ls m ∧ IpcStep m (.trap 0 (sendTf 9#32 utop 0) 0 0, evs) m₁ ∧
      (1, .fill a) ∈ evs ∧ m₁.kernel.pmap = m.kernel.pmap ∧
      (ipcRecv (m₁.kernel.envs 1) 0).perm = pteP ||| pteU ||| pteW := by
  let ok : Machine → Label → Bool := fun m l => decide (m.Quiet l)
  let send : Label := .trap 0 (sendTf 9#32 utop 0) 0 0
  -- the third processor takes environment 1 over after the first message
  let labels : List Label := beforeSend ++
    [.trap 0 (sendTf 7#32 utemp (pteP ||| pteU ||| pteW)) 0 0, .pop 0, .start 2, .pop 2,
      .forCall 2 13#32 utop 0 0 0 0]
  let a : Message := ⟨0x1000#32, 9#32, pteP ||| pteU ||| pteW⟩
  obtain ⟨k, hk, ⟨m, ls⟩, hls, m₁, hstep, hok, hcur, hsent, hperm⟩ : ∃ k ∈ four,
      ∃ x ∈ (ofKernel k 3).ipcSteps ok labels, ∃ m₁ ∈ x.1.step send,
        ok x.1 send = true ∧ x.1.curenv 0 = some 0 ∧ x.1.callEvents send = [(1, .fill a)] ∧
        (ipcRecv (m₁.kernel.envs 1) 0).perm = pteP ||| pteU ||| pteW := by
    decide +kernel
  have hrun : Run IpcStep (.ofKernel k 3) ls m :=
    (run_of_ipcSteps hls).mono fun _ _ _ hs => ⟨hs.1, of_decide_eq_true hs.2.1, hs.2.2⟩
  have hquiet : m.Quiet send := of_decide_eq_true hok
  have hsend : IpcStep m (send, m.callEvents send ++ m₁.runEvents send) m₁ :=
    ⟨hstep, hquiet, rfl⟩
  have hdec := decode_sendTf 9#32 utop 0 0
  obtain ⟨k', ho, _, _⟩ := sent_cases hcur hdec hsent
  have hpmap : m₁.kernel.pmap = m.kernel.pmap := by
    simp only [step, send, Option.mem_def, Option.ite_none_right_eq_some, hdec] at hstep
    rw [(trap_memory hcur (hquiet.2 0 hcur) ho hstep.2).1]
    exact send_no_page (by decide) ho
  have hmem : (1, .fill a) ∈ m.callEvents send ++ m₁.runEvents send := by
    rw [hsent]
    exact List.mem_append_left _ List.mem_cons_self
  exact ⟨k, m, m₁, ls, _, a, hk, hrun, hsend, hmem, hpmap, hperm⟩

end LinuxStudy.Jos
