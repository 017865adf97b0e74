import LinuxStudy.Jos.DataStore

/-!
# System calls and scheduling as a transition system

The kernel seen as a sequence of sections under the big lock, a trap for a system call or a
context switch, and of stores by user programs. Which environment traps, stores or is switched
to is arbitrary here; the processors and the scheduler's choice come in `Machine`.
-/

namespace LinuxStudy.Jos

open RefCount
open Kernel Logged

/-- The first lines of `env_run`: a running `curenv` becomes runnable. -/
def Kernel.suspend (k : Kernel) : Option EnvIx → Kernel
  | none => k
  | some cur =>
    if (k.envs cur).envStatus = .running then
      k.setEnv cur fun env => { env with envStatus := .runnable }
    else k

/-- `env_run`, on the environment table. -/
def Kernel.envRun (k : Kernel) (curenv : Option EnvIx) (e : EnvIx) : Kernel :=
  (k.suspend curenv).setEnv e fun env =>
    { env with envStatus := .running, envRuns := env.envRuns + 1 }

/-- A system call as it arrives: the caller, its registers, what the devices will say. -/
structure Request where
  cur : EnvIx
  tf : Trapframe
  dev : Int
  call : Call

inductive Event
  /-- A system call. -/
  | trap (r : Request)
  /-- A store by a user program; what is at or above `UTOP` it cannot write. -/
  | store (e : EnvIx) (va : Word) (b : Byte)
  /-- A context switch. -/
  | run (curenv : Option EnvIx) (e : EnvIx)

namespace Kernel

/-- One section under the big kernel lock that does not panic, or one store by a program. -/
def Step (k : Kernel) : Event → Kernel → Prop
  | .trap r, k' => ∃ cr3 o, k.dirs r.cur = some cr3 ∧
      (k.trapSyscall r.cur cr3 r.dev r.tf r.call).2 = some o ∧ k' = o.kernel
  | .store e va b, k' => ∃ cr3 s', k.dirs e = some cr3 ∧ va < utop ∧
      (k.pmap.storeByte cr3 va b).2 = some s' ∧ k' = k.setPmap s'
  | .run curenv e, k' => k' = k.envRun curenv e

/-- A sequence of system calls, as a function. -/
def traps (k : Kernel) : List Request → Option Kernel
  | [] => some k
  | r :: rs => (k.dirs r.cur).bind fun cr3 =>
      (k.trapSyscall r.cur cr3 r.dev r.tf r.call).2.bind fun o => o.kernel.traps rs

variable {k k' : Kernel} {curenv : EnvIx} {cr3 : ℕ} {dev : Int} {tf : Trapframe} {c : Call}
  {o : Outcome}

theorem run_of_traps {rs : List Request} (h : k.traps rs = some k') :
    Run Step k (rs.map .trap) k' := by
  induction rs generalizing k with
  | nil =>
    obtain rfl := Option.some.inj h
    exact Run.nil k
  | cons r rs ih =>
    obtain ⟨cr3, hcr3, h⟩ := Option.bind_eq_some_iff.mp h
    obtain ⟨o, ho, h⟩ := Option.bind_eq_some_iff.mp h
    have hstep : Step k (.trap r) o.kernel := ⟨cr3, o, hcr3, ho, rfl⟩
    exact (Run.snoc (Run.nil k) hstep).append (ih h)

/-- `curenv->env_tf = *tf`. -/
def saveTf (k : Kernel) (curenv : EnvIx) (tf : Trapframe) : Kernel :=
  k.setEnv curenv fun env => { env with envTf := tf }

/-- A trap frees a dying caller, or makes the call with the registers saved. -/
theorem trapSyscall_cases (h : (k.trapSyscall curenv cr3 dev tf c).2 = some o) :
    ((k.envs curenv).envStatus = .dying ∧ ∃ k', k.envFree curenv = some k' ∧ o = .exit k') ∨
    ((k.envs curenv).envStatus ≠ .dying ∧ ∃ o1,
      ((k.saveTf curenv tf).call curenv cr3 dev c).2 = some o1 ∧
      (k.trapSyscall curenv cr3 dev tf c).1 = ((k.saveTf curenv tf).call curenv cr3 dev c).1 ∧
      ((∃ r k', o1 = .ret r k' ∧ o = .ret r (k'.setEax curenv r)) ∨
        o = o1 ∧ ∀ r k', o1 ≠ .ret r k')) := by
  rw [trapSyscall] at h ⊢
  split at h
  · next hdying =>
    left
    simp only [Logged.lift, Option.map_eq_some_iff] at h
    obtain ⟨k', hfree, rfl⟩ := h
    exact ⟨hdying, k', hfree, rfl⟩
  · next hdying =>
    right
    obtain ⟨o1, ho1, h⟩ := bind_result h
    refine ⟨hdying, o1, ho1, ?_, ?_⟩
    · rw [if_neg hdying]
      refine (bind_of_result ho1).1.trans ?_
      cases o1 <;> exact List.append_nil _
    · cases o1 with
      | ret r k' => exact .inl ⟨r, k', rfl, (Option.some.inj h).symm⟩
      | yield k' => exact .inr ⟨(Option.some.inj h).symm, by simp⟩
      | exit k' => exact .inr ⟨(Option.some.inj h).symm, by simp⟩

theorem trapSyscall_ret {r : Int} (halive : (k.envs curenv).envStatus ≠ .dying)
    (h : ((k.saveTf curenv tf).call curenv cr3 dev c).2 = some (.ret r k')) :
    (k.trapSyscall curenv cr3 dev tf c).2 = some (.ret r (k'.setEax curenv r)) := by
  rw [trapSyscall, if_neg halive]
  exact (bind_of_result h).2

theorem Agree.saveTf (k : Kernel) (curenv : EnvIx) (tf : Trapframe) :
    k.Agree (k.saveTf curenv tf) :=
  Agree.setEnv k curenv (fun _ => rfl) fun _ => rfl

theorem Agree.suspend (k : Kernel) (curenv : Option EnvIx) :
    k.Agree (k.suspend curenv) ∧ (k.suspend curenv).pmap = k.pmap := by
  cases curenv with
  | none => exact ⟨Agree.refl k, rfl⟩
  | some cur =>
    rw [Kernel.suspend]
    split
    · exact ⟨Agree.setEnv k cur (by intro; rfl) (by intro; rfl), rfl⟩
    · exact ⟨Agree.refl k, rfl⟩

theorem Agree.envRun (k : Kernel) (curenv : Option EnvIx) (e : EnvIx) :
    k.Agree (k.envRun curenv e) ∧ (k.envRun curenv e).pmap = k.pmap := by
  obtain ⟨hag, hm⟩ := Agree.suspend k curenv
  exact ⟨hag.trans (Agree.setEnv _ e (by intro; rfl) (by intro; rfl)), hm⟩

theorem setEnv_field {α : Type*} (g : Env → α) {f : Env → Env} (hf : ∀ env, g (f env) = g env)
    (k : Kernel) (e e' : EnvIx) : g ((k.setEnv e f).envs e') = g (k.envs e') := by
  by_cases he : e' = e
  · subst he
    simp [setEnv, hf]
  · simp [setEnv, he]

/-- Saving the registers of the caller changes no other field of an environment. -/
theorem saveTf_field {α : Type*} (g : Env → α) (hg : ∀ env tf, g { env with envTf := tf } = g env)
    (k : Kernel) (curenv : EnvIx) (tf : Trapframe) (e : EnvIx) :
    g ((k.saveTf curenv tf).envs e) = g (k.envs e) :=
  setEnv_field g (fun env => hg env tf) k curenv e

theorem envid2env_saveTf (k : Kernel) (curenv : EnvIx) (tf : Trapframe) (envid : Word)
    (checkperm : Bool) :
    (k.saveTf curenv tf).envid2env curenv envid checkperm =
      k.envid2env curenv envid checkperm := by
  have hstatus := saveTf_field Env.envStatus (fun _ _ => rfl) k curenv tf
  have hid := saveTf_field Env.envId (fun _ _ => rfl) k curenv tf
  have hparent := saveTf_field Env.envParentId (fun _ _ => rfl) k curenv tf
  simp only [envid2env, hstatus, hid, hparent]

theorem SendsBelow.saveTf (h : k.SendsBelow curenv c) (tf : Trapframe) :
    (k.saveTf curenv tf).SendsBelow curenv c := by
  cases c with
  | ipcTrySend envid value srcva perm =>
    intro hsrc dst hdst hrecv
    rw [envid2env_saveTf] at hdst
    rw [saveTf_field Env.envIpcRecving fun _ _ => rfl] at hrecv
    rw [saveTf_field Env.envIpcDstva fun _ _ => rfl]
    exact h hsrc dst hdst hrecv
  | _ => trivial

theorem loses_saveTf : (k.saveTf curenv tf).Loses curenv c ↔ k.Loses curenv c := by
  have hdirs := (Agree.saveTf k curenv tf).dirs
  cases c with
  | pageAlloc envid va perm =>
    show LastPage _ _ _ _ _ ↔ LastPage _ _ _ _ _
    simp only [LastPage, envid2env_saveTf, hdirs]
    rfl
  | _ => exact Iff.rfl

end Kernel

section Steps

variable {F : Set ℕ} {k k' : Kernel} {l : List ℕ} {le : List EnvIx} {curenv : EnvIx} {cr3 : ℕ}
  {dev : Int} {tf : Trapframe} {c : Call} {o : Outcome}

/-- Around the call: what a call does to the kernel with saved registers, the trap does. -/
theorem KEvolves.trap (K : KSound F k l le) (hb : Bounded k) {lost : Prop}
    (h : (k.trapSyscall curenv cr3 dev tf c).2 = some o)
    (hcall : ∀ o1, KSound F (k.saveTf curenv tf) l le → Bounded (k.saveTf curenv tf) →
      ((k.saveTf curenv tf).call curenv cr3 dev c).2 = some o1 →
      (k.trapSyscall curenv cr3 dev tf c).1 = ((k.saveTf curenv tf).call curenv cr3 dev c).1 →
      KEvolves F (k.saveTf curenv tf) l o1.kernel lost) :
    KEvolves F k l o.kernel lost := by
  have hag := Kernel.Agree.saveTf k curenv tf
  rcases trapSyscall_cases h with ⟨_, k', hfree, rfl⟩ | ⟨_, o1, ho1, hlog, ho⟩
  · obtain ⟨l', P, _⟩ := K.envFree hb hfree
    exact P.kevolves lost
  · have hb' : Bounded (k.saveTf curenv tf) := by
      intro p
      rw [hag.dirs]
      exact hb p
    have hev := hcall o1 (K.of_agree hag K.ledger) hb' ho1 hlog
    have hev' : KEvolves F k l o1.kernel lost := by
      obtain ⟨⟨l', le', K', hacc⟩, hevolves⟩ := hev
      rw [hag.dirs] at hacc hevolves
      exact ⟨⟨l', le', K', hacc⟩, hevolves⟩
    rcases ho with ⟨r, k', rfl, rfl⟩ | ⟨rfl, _⟩
    · exact hev'.agree (Kernel.Agree.setEax k' curenv r) rfl
    · exact hev'

theorem KSound.trap (K : KSound F k l le) (hb : Bounded k) (hc : c.NoPointers)
    (hsend : k.SendsBelow curenv c) (h : (k.trapSyscall curenv cr3 dev tf c).2 = some o) :
    KEvolves F k l o.kernel (k.Loses curenv c) :=
  KEvolves.trap K hb h fun o1 K' hb' ho1 _ => by
    have := K'.call hb' hc (hsend.saveTf tf) ho1
    rwa [loses_saveTf] at this

theorem KSound.envRun (K : KSound F k l le) (cur : Option EnvIx) (e : EnvIx) (lost : Prop) :
    KEvolves F k l (k.envRun cur e) lost := by
  obtain ⟨hag, hm⟩ := Kernel.Agree.envRun k cur e
  exact (K.refl.kevolves lost).agree hag hm

end Steps

/-! ### Where runs start -/

/-- No page of the allocator is lost: it is free or it is referred to. -/
def Accounted (F : Set ℕ) (k : Kernel) : Prop :=
  ∀ p ∈ F, Reach k.pmap.link k.pmap.pageFreeList p ∨ 0 < (k.pmap.pages p).ppRef.toNat

/-- Every address space has the kernel half of `kern_pgdir`, and itself at `UVPT`. -/
def MapsKernel (k : Kernel) : Prop :=
  ∀ e d, k.dirs e = some d → ∀ j, pdxUtop ≤ j → k.pmap.mem d j = template k.pmap d j

/-- A kernel that is up: its bookkeeping is sound and complete, and every environment has the
    kernel mapped. -/
structure Booted (F : Set ℕ) (k : Kernel) : Prop where
  sound : ∃ l le, KSound F k l le
  bounded : Bounded k
  accounted : Accounted F k
  half : MapsKernel k

/-- One iteration of the loop of `env_init`. -/
def Kernel.envInitStep (k : Kernel) (i : EnvIx) : Kernel :=
  { k.setEnv i fun env => { env with envLink := k.envFreeList } with envFreeList := some i }

/-- The loop of `env_init`, on the zeroed table; it runs downwards. -/
def Kernel.envInitLoop (k : Kernel) (js : List EnvIx) : Kernel :=
  js.foldr (fun i k => Kernel.envInitStep k i)
    { k with envs := fun _ => Env.blank, envFreeList := none }

def Kernel.envInit (k : Kernel) : Kernel := k.envInitLoop (List.finRange 1024)

/-- `page_init`, `env_init`, and one `env_create` for each environment to start with. -/
def Kernel.boot (s₀ : Pmap) (nic : E1000) (npagesBasemem extendedFree n : ℕ) : Option Kernel :=
  (s₀.pageInit npagesBasemem extendedFree).bind fun s =>
    forUpTo (fun _ k => (Kernel.envAlloc k 0).map Prod.fst) n
      (Kernel.envInit ⟨s, fun _ => Env.blank, none, nic⟩)

section Boot

variable {F : Set ℕ} {k k' : Kernel} {l : List ℕ} {le : List EnvIx} {s₀ : Pmap} {b x : ℕ}

theorem KSound.accounted_iff (K : KSound F k l le) (hb : Bounded k) :
    Accounted F k ↔ ∀ p ∈ F, p ∈ l ∨ 0 < refs k.dirs k.pmap p := by
  have hpp : ∀ p ∈ F, (k.pmap.pages p).ppRef.toNat = refs k.dirs k.pmap p := by
    intro p hp
    rw [K.ledger.ref_eq p hp, Nat.add_zero, BitVec.toNat_ofNat, Nat.mod_eq_of_lt (hb p)]
  constructor
  · intro h p hp
    rw [← hpp p hp, ← K.ledger.chain.reach_iff]
    exact h p hp
  · intro h p hp
    rw [hpp p hp, K.ledger.chain.reach_iff]
    exact h p hp

theorem MapsKernel.evolve (h : MapsKernel k) (hev : Evolves k.dirs k.pmap k'.dirs k'.pmap) :
    MapsKernel k' := by
  intro e d hd j hj
  have htemplate : template k'.pmap d j = template k.pmap d j := by
    rw [template, template, hev.kern_dir, hev.kern_row]
  rw [htemplate]
  rcases hev.upper e d hd with ⟨hd0, hsame⟩ | hnew
  · rw [hsame j hj]
    exact h e d hd0 j hj
  · exact hnew j hj

theorem Booted.evolve (h : Booted F k) (hb' : Bounded k')
    (hstep : ∀ l le, KSound F k l le → KEvolves F k l k' False) : Booted F k' := by
  obtain ⟨⟨l, le, K⟩, hb, hacc, hhalf⟩ := h
  obtain ⟨⟨l', le', K', hacc'⟩, hev⟩ := hstep l le K
  refine ⟨⟨l', le', K'⟩, hb', (K'.accounted_iff hb').mpr fun p hp => ?_, hhalf.evolve hev⟩
  exact hacc'.resolve_left id p hp ((K.accounted_iff hb).mp hacc p hp)

theorem envInitLoop_spec (k : Kernel) {js : List EnvIx} (hjs : js.Nodup) :
    Chain (k.envInitLoop js).envLink (k.envInitLoop js).envFreeList js ∧
      (k.envInitLoop js).dirs = noDirs ∧ (k.envInitLoop js).pmap = k.pmap := by
  induction js with
  | nil => exact ⟨Chain.nil_iff.mpr rfl, rfl, rfl⟩
  | cons j js ih =>
    obtain ⟨hj, hnodup⟩ := List.nodup_cons.mp hjs
    obtain ⟨hchain, hdirs, hpmap⟩ := ih hnodup
    rw [show k.envInitLoop (j :: js) = (k.envInitLoop js).envInitStep j from rfl]
    generalize k.envInitLoop js = k1 at hchain hdirs hpmap ⊢
    have hlink : (k1.envInitStep j).envLink = Function.update k1.envLink j k1.envFreeList := by
      funext e
      by_cases he : e = j
      · subst he
        simp [envLink, envInitStep, setEnv]
      · simp [envLink, envInitStep, setEnv, he]
    refine ⟨?_, ?_, hpmap⟩
    · rw [hlink]
      exact hchain.push hj
    · rw [← hdirs]
      funext e
      by_cases he : e = j
      · subst he
        simp [dirs, envInitStep, setEnv]
      · simp [dirs, envInitStep, setEnv, he]

theorem AfterPageInit.booted (h : AfterPageInit k s₀ b x)
    (hchain : Chain k.envLink k.envFreeList le) : Booted (freeFrames s₀.npages b x) k := by
  obtain ⟨_, hb⟩ := h.managed
  obtain ⟨hearly, hinit, hdirs⟩ := h
  obtain ⟨s', hs', _, _, L⟩ := hearly.pageInit
  cases hs'.symm.trans hinit
  have K : KSound (freeFrames s₀.npages b x) k (Pmap.freed b x s₀.npages) le := by
    refine ⟨by rw [hdirs]; exact L, hchain, fun e _ => by rw [hdirs]; rfl⟩
  refine ⟨⟨_, _, K⟩, hb, (K.accounted_iff hb).mpr fun p hp => .inl (Pmap.mem_freed.mpr hp), ?_⟩
  intro e d hd
  rw [hdirs] at hd
  cases hd

theorem booted_envInit (hearly : s₀.Early b x) (hinit : s₀.pageInit b x = some k.pmap) :
    Booted (freeFrames s₀.npages b x) k.envInit ∧
      ∀ p, refs k.envInit.dirs k.envInit.pmap p ≤ 1024 := by
  -- for any list of environments, so that the table of 1024 is not unfolded
  have hloop : ∀ js : List EnvIx, js.Nodup →
      Booted (freeFrames s₀.npages b x) (k.envInitLoop js) ∧
        ∀ p, refs (k.envInitLoop js).dirs (k.envInitLoop js).pmap p ≤ 1024 := by
    intro js hjs
    obtain ⟨hchain, hdirs, hpmap⟩ := envInitLoop_spec k hjs
    refine ⟨AfterPageInit.booted ⟨hearly, by rw [hpmap]; exact hinit, hdirs⟩ hchain, ?_⟩
    rw [hdirs]
    exact refs_noDirs_le _
  exact hloop _ (List.nodup_finRange 1024)

/-- `env_create`: the kernel makes an environment for itself to start. -/
theorem Booted.envAlloc (h : Booted F k) {parentId : Word} {r : Except Int EnvIx} {n : ℕ}
    (halloc : k.envAlloc parentId = some (k', r)) (hn : n < 65535)
    (hle : ∀ p, refs k.dirs k.pmap p ≤ n) :
    Booted F k' ∧ ∀ p, refs k'.dirs k'.pmap p ≤ n + 1 := by
  have hle' : ∀ p, refs k'.dirs k'.pmap p ≤ n + 1 := by
    intro p
    have hp := hle p
    obtain ⟨l, le, K⟩ := h.sound
    rcases K.envAlloc halloc with ⟨_, _, rfl⟩ | ⟨e, q, _, _, _, _, href⟩
    · omega
    · have hcount := count_update (ref k.dirs k.pmap) (.dir e) (some q) p
      rw [refs] at hp
      rw [refs, href]
      split at hcount <;> split at hcount <;> omega
  refine ⟨h.evolve (fun p => ?_) fun l le K => ?_, hle'⟩
  · have := hle' p
    omega
  · rcases K.envAlloc halloc with ⟨_, _, rfl⟩ | ⟨_, _, _, _, _, P, _⟩
    · exact K.refl.kevolves False
    · exact P.kevolves False

theorem booted_boot {nic : E1000} {n : ℕ} (hn : n ≤ 1024) (hearly : s₀.Early b x)
    (h : Kernel.boot s₀ nic b x n = some k) :
    Booted (freeFrames s₀.npages b x) k ∧ ∀ p, refs k.dirs k.pmap p ≤ 1024 + n := by
  obtain ⟨s, hs, h⟩ := Option.bind_eq_some_iff.mp h
  have h0 := booted_envInit (k := ⟨s, fun _ => Env.blank, none, nic⟩) hearly hs
  generalize envInit ⟨s, fun _ => Env.blank, none, nic⟩ = k0 at h h0
  have hloop : ∀ m k, m ≤ 1024 →
      forUpTo (fun _ k => (envAlloc k 0).map Prod.fst) m k0 = some k →
      Booted (freeFrames s₀.npages b x) k ∧ ∀ p, refs k.dirs k.pmap p ≤ 1024 + m := by
    intro m
    induction m with
    | zero =>
      intro k _ hk
      cases hk
      exact h0
    | succ m ih =>
      intro k hm hk
      obtain ⟨k1, hk1, hk⟩ := Option.bind_eq_some_iff.mp hk
      obtain ⟨hb1, hle1⟩ := ih k1 (by omega) hk1
      rw [Option.map_eq_some_iff] at hk
      obtain ⟨⟨k2, r⟩, halloc, rfl⟩ := hk
      have hlt : 1024 + m < 65535 := by omega
      exact hb1.envAlloc halloc hlt hle1
  exact hloop n k hn h

theorem Booted.pageAlloc (h : Booted F k) {curenv : EnvIx} {cr3 n : ℕ} {dev : Int}
    {tf : Trapframe} {envid va perm : Word} (hn : n + 2 < 65536)
    (hle : ∀ p, refs k.dirs k.pmap p ≤ n)
    (ho : (k.trapSyscall curenv cr3 dev tf (.pageAlloc envid va perm)).2 = some (.ret 0 k')) :
    Booted F k' ∧ ∀ p, refs k'.dirs k'.pmap p ≤ n + 2 := by
  rcases trapSyscall_cases ho with ⟨_, _, _, heq⟩ | ⟨_, o1, ho1, _, hret | ⟨heq, hno⟩⟩
  · cases heq
  · obtain ⟨r, k1, rfl, heq⟩ := hret
    cases heq
    have hag := Kernel.Agree.saveTf k curenv tf
    have hag1 := Kernel.Agree.setEax k1 curenv 0
    have hb : Bounded (k.saveTf curenv tf) := by
      intro p
      rw [hag.dirs]
      exact h.bounded p
    have hstep : ∀ l le, KSound F k l le → KEvolves F k l (k1.setEax curenv 0) False ∧
        ∀ p, refs (k1.setEax curenv 0).dirs (k1.setEax curenv 0).pmap p ≤ n + 2 := by
      intro l le K
      rcases (K.of_agree hag K.ledger).pageAlloc hb ho1 with
        ⟨r, hr, heq⟩ | ⟨_, l', heq, P, hgrow⟩ | ⟨_, heq, _⟩
      · rw [← (Outcome.ret.inj heq).1] at hr
        exact absurd hr (lt_irrefl 0)
      · cases heq
        refine ⟨?_, fun p => ?_⟩
        · obtain ⟨K', hprog⟩ := P
          rw [hag.dirs] at hprog
          exact (KProgress.kevolves ⟨K', hprog⟩ False).agree hag1 rfl
        · have := hgrow p
          rw [hag.dirs] at this
          rw [hag1.dirs]
          exact this.trans (Nat.add_le_add_right (hle p) 2)
      · exact absurd (Outcome.ret.inj heq).1 (by decide)
    obtain ⟨l, le, K⟩ := h.sound
    have hle' := (hstep l le K).2
    exact ⟨h.evolve (fun p => lt_of_le_of_lt (hle' p) hn) fun l le K => (hstep l le K).1, hle'⟩
  · exact absurd heq.symm (hno 0 k')

end Boot

end LinuxStudy.Jos
