import LinuxStudy.Jos.Machine

/-!
# The life of an environment, as the table sees it

The fields of `struct Env` that say in which stage of its life an environment is, and the
moves the kernel makes on them for a calling environment. A system call makes one move; it
frees or marks an environment that is on another processor only if asked to by a call that
does not look, and `SparesOthers` says when that is not so.
-/

namespace LinuxStudy.Jos

open Logged Outcome

/-- Running, or running when it was destroyed: on a processor, as far as the table says. -/
def EnvStatus.Active (s : EnvStatus) : Prop := s = .running ∨ s = .dying

structure Row where
  status : EnvStatus
  link : Option EnvIx
  pgdir : Option ℕ
  id : Word
  cpunum : ℕ

def Env.row (env : Env) : Row :=
  ⟨env.envStatus, env.envLink, env.envPgdir, env.envId, env.envCpunum⟩

structure Table where
  rows : EnvIx → Row
  head : Option EnvIx

def Kernel.table (k : Kernel) : Table := ⟨fun e => (k.envs e).row, k.envFreeList⟩

namespace Table

def set (t : Table) (e : EnvIx) (r : Row) : Table := { t with rows := Function.update t.rows e r }

def setStatus (t : Table) (e : EnvIx) (s : EnvStatus) : Table :=
  t.set e { t.rows e with status := s }

/-- An environment goes back to the free list. -/
def release (t : Table) (e : EnvIx) : Table :=
  { t.set e { t.rows e with pgdir := none, status := .free, link := t.head } with head := some e }

/-- The first free environment gets a directory, a new id and a status. -/
def alloc (t : Table) (e : EnvIx) (d : ℕ) (s : EnvStatus) : Table :=
  { t.set e
    { t.rows e with pgdir := some d, status := s, id := Kernel.nextEnvId (t.rows e).id e } with
    head := (t.rows e).link }

variable (t : Table) (e e' : EnvIx) (r : Row) (s : EnvStatus)

@[simp] theorem set_rows_self : (t.set e r).rows e = r := Function.update_self ..

@[simp] theorem set_rows_of_ne (h : e' ≠ e) : (t.set e r).rows e' = t.rows e' :=
  Function.update_of_ne h ..

@[simp] theorem set_rows : t.set e (t.rows e) = t := by
  simp [set]

@[simp] theorem alloc_setStatus (d : ℕ) (s' : EnvStatus) :
    (t.alloc e d s).setStatus e s' = t.alloc e d s' := by
  simp [alloc, setStatus, set]

end Table

/-- What a system call of `cur` may do to the table. -/
inductive Move (cur : EnvIx) (t : Table) : Table → Prop
  | refl : Move cur t t
  /-- A new status, for the caller or for an environment that is on no processor. -/
  | status (e : EnvIx) (s : EnvStatus) (hs : s = .runnable ∨ s = .notRunnable)
      (hlive : (t.rows e).status ≠ .free) (he : e = cur ∨ ¬ (t.rows e).status.Active) :
      Move cur t (t.setStatus e s)
  /-- An environment that runs elsewhere is marked. -/
  | dying (e : EnvIx) (he : e ≠ cur) (hrun : (t.rows e).status = .running) :
      Move cur t (t.setStatus e .dying)
  | free (e : EnvIx) (he : e ≠ cur) (hlive : (t.rows e).status ≠ .free)
      (hoff : ¬ (t.rows e).status.Active) : Move cur t (t.release e)
  | alloc (e : EnvIx) (d : ℕ) (s : EnvStatus) (hhead : t.head = some e)
      (hs : s = .runnable ∨ s = .notRunnable) : Move cur t (t.alloc e d s)

/-- A section under the lock releases the caller or makes one move. -/
def Effect (cur : EnvIx) (t : Table) (l : Leave) (t' : Table) : Prop :=
  (l = .gone ∧ t' = t.release cur) ∨ (l ≠ .gone ∧ Move cur t t')

/-- What a section under the lock does to the table, in any state. `spares` stands for the condition
    under which nobody else's environment is written while it runs. -/
inductive Alters (cur : EnvIx) (spares : Prop) (t : Table) : Leave → Table → Prop
  | same {l : Leave} (hl : l ≠ .gone) : Alters cur spares t l t
  | gone : Alters cur spares t .gone (t.release cur)
  | status {l : Leave} (hl : l ≠ .gone) (e : EnvIx) (s : EnvStatus)
      (hs : s = .runnable ∨ s = .notRunnable)
      (hlive : e = cur ∨ (t.rows e).status ≠ .free)
      (hoff : spares → e = cur ∨ ¬ (t.rows e).status.Active) :
      Alters cur spares t l (t.setStatus e s)
  | dying {l : Leave} (hl : l ≠ .gone) (e : EnvIx) (he : e ≠ cur)
      (hrun : (t.rows e).status = .running) : Alters cur spares t l (t.setStatus e .dying)
  | free {l : Leave} (hl : l ≠ .gone) (e : EnvIx) (he : e ≠ cur) (hlive : (t.rows e).status ≠ .free)
      (hoff : spares → ¬ (t.rows e).status.Active) : Alters cur spares t l (t.release e)
  | alloc {l : Leave} (hl : l ≠ .gone) (e : EnvIx) (d : ℕ) (s : EnvStatus) (hhead : t.head = some e)
      (hs : s = .runnable ∨ s = .notRunnable) : Alters cur spares t l (t.alloc e d s)

theorem Alters.effect {cur : EnvIx} {spares : Prop} {t t' : Table} {l : Leave}
    (h : Alters cur spares t l t')
    (hspare : spares) (hcur : (t.rows cur).status ≠ .free) : Effect cur t l t' := by
  cases h with
  | same hl => exact .inr ⟨hl, .refl⟩
  | gone => exact .inl ⟨rfl, rfl⟩
  | status hl e s hs hlive hoff =>
    have hlive' : (t.rows e).status ≠ .free := by
      rcases hlive with rfl | hlive
      · exact hcur
      · exact hlive
    exact .inr ⟨hl, .status e s hs hlive' (hoff hspare)⟩
  | dying hl e he hrun => exact .inr ⟨hl, .dying e he hrun⟩
  | free hl e he hlive hoff => exact .inr ⟨hl, .free e he hlive (hoff hspare)⟩
  | alloc hl e d s hhead hs => exact .inr ⟨hl, .alloc e d s hhead hs⟩

namespace Kernel

/-- The call does not write the status of an environment that is on another processor, and
    does not destroy one for the second time. -/
def SparesOthers (k : Kernel) (cur : EnvIx) : Call → Prop
  | .envSetStatus envid _ => ∀ e, k.envid2env cur envid true = some e →
      e = cur ∨ ¬ (k.envs e).envStatus.Active
  | .ipcTrySend envid _ _ _ => ∀ e, k.envid2env cur envid false = some e →
      (k.envs e).envIpcRecving = true → e = cur ∨ ¬ (k.envs e).envStatus.Active
  | .envDestroy envid | .envSetTrapframe envid _ => ∀ e, k.envid2env cur envid true = some e →
      e = cur ∨ (k.envs e).envStatus ≠ .dying
  | _ => True

variable {k k' : Kernel} {cur e : EnvIx} {cr3 : ℕ} {dev : Int} {tf : Trapframe} {c : Call}
  {o : Outcome}

/-! ### The table after an update -/

theorem table_setEnv (k : Kernel) (e : EnvIx) (f : Env → Env) :
    (k.setEnv e f).table = k.table.set e (f (k.envs e)).row := by
  refine congrArg (Table.mk · k.envFreeList) (funext fun e' => ?_)
  by_cases he : e' = e
  · subst he
    simp [setEnv]
  · simp [setEnv, table, he]

theorem table_setEnv_same (k : Kernel) (e : EnvIx) {f : Env → Env}
    (hf : ∀ env, (f env).row = env.row) : (k.setEnv e f).table = k.table := by
  rw [table_setEnv, hf]
  exact k.table.set_rows e

@[simp] theorem table_saveTf (k : Kernel) (e : EnvIx) (tf : Trapframe) :
    (k.saveTf e tf).table = k.table := table_setEnv_same k e fun _ => rfl

@[simp] theorem table_setEax (k : Kernel) (e : EnvIx) (r : Int) :
    (k.setEax e r).table = k.table := table_setEnv_same k e fun _ => rfl

theorem table_releaseEnv (k : Kernel) (e : EnvIx) : (k.releaseEnv e).table = k.table.release e := by
  refine congrArg (Table.mk · (some e)) ?_
  exact congrArg Table.rows (table_setEnv k e fun env =>
    { env with envPgdir := none, envStatus := .free, envLink := k.envFreeList })

theorem table_envFree (h : k.envFree e = some k') : k'.table = k.table.release e := by
  obtain ⟨d, s, _, _, rfl⟩ := envFree_cases h
  exact table_releaseEnv (k.setPmap s) e

/-! ### The moves of the system calls -/

/-- `envid2env` gives the caller or an environment that is not free. -/
theorem envid2env_live {envid : Word} {checkperm : Bool}
    (h : k.envid2env cur envid checkperm = some e) : e = cur ∨ (k.envs e).envStatus ≠ .free := by
  rw [envid2env] at h
  split at h
  · exact .inl (Option.some.inj h).symm
  · dsimp only at h
    split at h
    · cases h
    · next hfree =>
      split at h
      · cases h
      · cases h
        exact .inr fun hs => hfree (.inl hs)

/-- `env_destroy` for the caller; it is `gone` when it has released itself. -/
theorem envDestroy_alters {spares : Prop} {gone : Bool}
    (h : k.envDestroy (some cur) e = some (k', gone))
    (hlive : e = cur ∨ (k.envs e).envStatus ≠ .free)
    (hok : spares → e = cur ∨ (k.envs e).envStatus ≠ .dying) {l : Leave}
    (hl : l = .gone ↔ gone = true) : Alters cur spares k.table l k'.table := by
  rcases envDestroy_cases h with ⟨hrun, hne, rfl, rfl⟩ | ⟨hnot, hfree, rfl⟩
  · have he : e ≠ cur := fun he => hne (he ▸ rfl)
    rw [table_setEnv]
    exact .dying (fun hgone => nomatch hl.mp hgone) e he hrun
  · rw [table_envFree hfree]
    by_cases he : e = cur
    · subst he
      rw [hl.mpr (decide_eq_true rfl)]
      exact .gone
    · have hne : some cur ≠ some e := fun h => he (Option.some.inj h).symm
      refine .free (fun hgone => hne (of_decide_eq_true (hl.mp hgone)))
        e he (hlive.resolve_left he) fun hspare => ?_
      rintro (hrun | hdying)
      · exact hnot ⟨hrun, hne⟩
      · exact (hok hspare).resolve_left he hdying

theorem userMemAssert_alters {spares : Prop} {va len perm : Word} {gone : Bool}
    (h : k.userMemAssert cur e va len perm = some (k', gone))
    (hlive : e = cur ∨ (k.envs e).envStatus ≠ .free)
    (hok : spares → e = cur ∨ (k.envs e).envStatus ≠ .dying) {l : Leave}
    (hl : l = .gone ↔ gone = true) :
    Alters cur spares k.table l k'.table := by
  rcases userMemAssert_cases h with ⟨rfl, rfl, _⟩ | h
  · exact .same fun hgone => nomatch hl.mp hgone
  · exact envDestroy_alters h hlive hok hl

theorem envAlloc_table {parentId : Word} {r : Except Int EnvIx}
    (h : k.envAlloc parentId = some (k', r)) :
    ((∃ n, r = .error n) ∧ k'.table = k.table) ∨
    ∃ e d, r = .ok e ∧ k.envFreeList = some e ∧ k'.table = k.table.alloc e d .runnable := by
  rcases envAlloc_cases h with ⟨_, rfl, rfl⟩ | ⟨e, k1, i, he, hset, hres⟩
  · exact .inl ⟨⟨_, rfl⟩, rfl⟩
  · obtain ⟨⟨s, p⟩, _, hset⟩ := Option.bind_eq_some_iff.mp hset
    cases p with
    | none =>
      cases hset
      rcases hres with ⟨_, rfl, rfl⟩ | ⟨hi, _⟩
      · exact .inl ⟨⟨_, rfl⟩, rfl⟩
      · exact absurd (by decide) hi
    | some p =>
      simp only [Option.bind_eq_some_iff, Option.some.injEq, Prod.mk.injEq] at hset
      obtain ⟨d, _, rfl, rfl⟩ := hset
      rcases hres with ⟨hi, _⟩ | ⟨_, rfl, rfl⟩
      · exact absurd hi (lt_irrefl 0)
      · refine .inr ⟨e, d, rfl, he, ?_⟩
        refine congrArg₂ Table.mk ?_ ?_
        · funext e'
          by_cases hne : e' = e
          · subst hne
            simp [setEnv, setPmap, initEnv, Env.row, table]
          · simp [setEnv, table, hne, setPmap]
        · simp [setEnv, initEnv, envLink, table, Env.row, setPmap]

theorem exofork_alters {spares : Prop} (h : k.sysExofork cur = some o) :
    Alters cur spares k.table o.leave o.kernel.table := by
  rcases sysExofork_cases h with ⟨k', r, halloc, rfl⟩ | ⟨k', e, halloc, rfl⟩
  · rcases envAlloc_table halloc with ⟨_, heq⟩ | ⟨_, _, herr, _⟩
    · rw [kernel_ret, heq]
      exact .same nofun
    · cases herr
  · rcases envAlloc_table halloc with ⟨⟨_, herr⟩, _⟩ | ⟨e', d, hok, hhead, heq⟩
    · cases herr
    · cases hok
      rw [kernel_ret, table_setEnv]
      show Alters cur spares k.table _ (k'.table.setStatus e .notRunnable)
      rw [heq, Table.alloc_setStatus]
      exact .alloc (by nofun) e d _ hhead (.inr rfl)

/-- The pointer checks of `sys_cputs` and `sys_env_set_trapframe`, and what comes after. -/
theorem assert_alters {spares : Prop} {e : EnvIx} {va len perm : Word}
    {f : Kernel × Bool → Logged Access Outcome}
    (h : ((Logged.lift (k.userMemAssert cur e va len perm)).bind f).2 = some o)
    (hlive : e = cur ∨ (k.envs e).envStatus ≠ .free)
    (hok : spares → e = cur ∨ (k.envs e).envStatus ≠ .dying)
    (hgone : ∀ k', f (k', true) = .pure (.exit k'))
    (hstay : ∀ k' o, (f (k', false)).2 = some o → ∃ r k'', o = .ret r k'' ∧ k''.table = k'.table) :
    Alters cur spares k.table o.leave o.kernel.table := by
  obtain ⟨⟨k', gone⟩, hassert, h⟩ := bind_result h
  cases gone with
  | true =>
    rw [hgone] at h
    cases h
    exact userMemAssert_alters hassert hlive hok (iff_of_true rfl rfl)
  | false =>
    obtain ⟨r, k'', rfl, heq⟩ := hstay k' o h
    rw [kernel_ret, heq]
    exact userMemAssert_alters hassert hlive hok (iff_of_false nofun nofun)

/-- Most calls return and leave the table alone. -/
theorem ret_alters {spares : Prop} {r : Int} {k' : Kernel} (ho : o = .ret r k')
    (htable : k'.table = k.table) : Alters cur spares k.table o.leave o.kernel.table := by
  rw [ho, kernel_ret, htable]
  exact .same (by rintro ⟨⟩)

theorem trySend_alters {spares : Prop} {envid value srcva perm : Word}
    (hspare : spares → k.SparesOthers cur (.ipcTrySend envid value srcva perm))
    (h : (k.call cur cr3 dev (.ipcTrySend envid value srcva perm)).2 = some o) :
    Alters cur spares k.table o.leave o.kernel.table := by
  rcases sysIpcTrySend_cases h with ⟨r, _, ho⟩ | ⟨dst, k1, hdst, hrecv, _, htr, ho⟩
  · exact ret_alters ho rfl
  · have htable : k1.table = k.table := by
      rcases ipcTransfer_cases htr with ⟨_, rfl⟩ | ⟨_, rfl, _⟩ |
        ⟨_, _, _, _, _, _, _, _, _, _, _, _, rfl⟩
      · rfl
      · rfl
      · exact table_setEnv_same _ dst fun _ => rfl
    subst ho
    rw [kernel_ret, ipcDeliver, table_setEnv]
    show Alters cur spares k.table _ (k1.table.setStatus dst .runnable)
    rw [htable]
    exact .status (by rintro ⟨⟩) dst _ (.inl rfl) (envid2env_live hdst) fun hs =>
      hspare hs dst hdst hrecv

/-- **What a system call does to the table.** -/
theorem call_alters {spares : Prop} (hspare : spares → k.SparesOthers cur c)
    (h : (k.call cur cr3 dev c).2 = some o) : Alters cur spares k.table o.leave o.kernel.table := by
  cases c with
  | cputs s len =>
    refine assert_alters h (.inl rfl) (fun _ => .inl rfl) (fun _ => rfl) fun k' o ho => ?_
    obtain ⟨_, _, ho⟩ := bind_result ho
    exact ⟨_, k', (Option.some.inj ho).symm, rfl⟩
  | cgetc => exact ret_alters (Option.some.inj h).symm rfl
  | getenvid => exact ret_alters (Option.some.inj h).symm rfl
  | envDestroy envid =>
    rcases sysEnvDestroy_cases h with ⟨r, _, ho⟩ | ⟨e, k', gone, he, hd, ho⟩
    · exact ret_alters ho rfl
    · have hok := fun hs => hspare hs e he
      cases gone with
      | true =>
        obtain rfl : o = .exit k' := ho
        exact envDestroy_alters hd (envid2env_live he) hok (iff_of_true rfl rfl)
      | false =>
        obtain rfl : o = .ret 0 k' := ho
        exact envDestroy_alters hd (envid2env_live he)
          hok (iff_of_false (by rintro ⟨⟩) (by rintro ⟨⟩))
  | pageAlloc envid va perm =>
    rcases sysPageAlloc_cases h with ⟨r, _, ho⟩ | ⟨_, _, _, _, _, _, _, _, _, _, ho⟩ <;>
      exact ret_alters ho rfl
  | pageMap srcenvid srcva dstenvid dstva perm =>
    rcases sysPageMap_cases h with ⟨r, _, ho⟩ | ⟨_, _, _, _, _, _, _, _, _, _, _, _, _, ho⟩ <;>
      exact ret_alters ho rfl
  | pageUnmap envid va =>
    rcases sysPageUnmap_cases h with ⟨r, _, ho⟩ | ⟨_, _, _, _, _, ho⟩ <;>
      exact ret_alters ho rfl
  | exofork => exact exofork_alters h
  | envSetStatus envid status =>
    have ho := (Option.some.inj h).symm
    rw [sysEnvSetStatus] at ho
    split at ho
    · exact ret_alters ho rfl
    · split at ho
      · exact ret_alters ho rfl
      · next e he =>
        subst ho
        rw [kernel_ret, table_setEnv]
        exact .status (by rintro ⟨⟩) e _ (by split <;> simp) (envid2env_live he) fun hs =>
          hspare hs e he
  | envSetTrapframe envid tf =>
    change (k.sysEnvSetTrapframe cur cr3 envid tf).2 = some o at h
    rw [sysEnvSetTrapframe] at h
    split at h
    · exact ret_alters (Option.some.inj h).symm rfl
    · next e he =>
      refine assert_alters h (envid2env_live he) (fun hs => hspare hs e he)
        (fun _ => rfl) fun k' o ho => ?_
      obtain ⟨⟨s, frame⟩, _, ho⟩ := bind_result ho
      exact ⟨_, _, (Option.some.inj ho).symm, table_setEnv_same _ e fun _ => rfl⟩
  | envSetPgfaultUpcall envid func =>
    have ho := (Option.some.inj h).symm
    rw [sysEnvSetPgfaultUpcall] at ho
    split at ho
    · exact ret_alters ho rfl
    · exact ret_alters ho (table_setEnv_same _ _ fun _ => rfl)
  | yield =>
    cases h
    exact .same (by rintro ⟨⟩)
  | ipcTrySend envid value srcva perm => exact trySend_alters hspare h
  | ipcRecv dstva =>
    have ho := (Option.some.inj h).symm
    rw [sysIpcRecv] at ho
    split at ho
    · exact ret_alters ho rfl
    · subst ho
      rw [kernel_yield, table_setEnv]
      exact .status (by rintro ⟨⟩) cur _ (.inr rfl) (.inl rfl) fun _ => .inl rfl
  | timeMsec => exact ret_alters (Option.some.inj h).symm rfl
  | pktSend data len =>
    obtain ⟨⟨s, nic, r⟩, _, ho⟩ := bind_result h
    exact ret_alters (Option.some.inj ho).symm rfl
  | pktRecv addr len =>
    obtain ⟨⟨s, nic, r⟩, _, ho⟩ := bind_result h
    exact ret_alters (Option.some.inj ho).symm rfl

theorem SparesOthers.saveTf (h : k.SparesOthers cur c) (tf : Trapframe) :
    (k.saveTf cur tf).SparesOthers cur c := by
  have hstatus := saveTf_field Env.envStatus (fun _ _ => rfl) k cur tf
  have hrecving := saveTf_field Env.envIpcRecving (fun _ _ => rfl) k cur tf
  cases c <;> simp only [SparesOthers, envid2env_saveTf, hstatus, hrecving] at h ⊢ <;> exact h

/-- The trap handler around it: the same for every trap, and a dying caller is released. -/
theorem trapUser_alters {spares : Prop} {t : Trap} {l : Leave}
    (hspare : spares → ∀ c dev, t = .syscall c dev → k.SparesOthers cur c)
    (h : (k.trapUser cur cr3 tf t).2 = some (k', l)) :
    Alters cur spares k.table l k'.table ∧ ((k.envs cur).envStatus = .dying → l = .gone) := by
  have hdestroy : ((k.saveTf cur tf).destroyCurenv cur).2 = some (k', l) →
      Alters cur spares k.table l k'.table := by
    intro h
    rw [destroyCurenv, Logged.lift, Option.map_eq_some_iff] at h
    obtain ⟨⟨k1, gone⟩, hd, heq⟩ := h
    cases heq
    rcases envDestroy_cases hd with ⟨_, hne, _⟩ | ⟨_, hfree, _⟩
    · exact absurd rfl hne
    · rw [table_envFree hfree, table_saveTf]
      exact .gone
  unfold trapUser at h
  split at h
  · rw [Logged.lift, Option.map_eq_some_iff] at h
    obtain ⟨k1, hfree, heq⟩ := h
    cases heq
    rw [table_envFree hfree]
    exact ⟨.gone, fun _ => rfl⟩
  · next halive =>
    refine ⟨?_, fun hdying => absurd hdying halive⟩
    cases t with
    | syscall c dev =>
      obtain ⟨o, ho, heq⟩ := bind_result h
      cases heq
      rcases trapSyscall_cases ho with ⟨hdying, _⟩ | ⟨_, o1, ho1, _, hres⟩
      · exact absurd hdying halive
      · have hA := call_alters (fun hs => (hspare hs c dev rfl).saveTf tf) ho1
        rw [table_saveTf] at hA
        rcases hres with ⟨r, k1, rfl, rfl⟩ | ⟨rfl, _⟩
        · rw [kernel_ret, table_setEax]
          exact hA
        · exact hA
    | pageFault faultVa =>
      change ((k.saveTf cur tf).pageFaultHandler cur cr3 tf faultVa).2 = some (k', l) at h
      rw [pageFaultHandler] at h
      split at h
      · exact hdestroy h
      · obtain ⟨⟨k1, gone⟩, hassert, h⟩ := bind_result h
        rw [← table_saveTf k cur tf]
        cases gone with
        | true =>
          cases h
          exact userMemAssert_alters hassert (.inl rfl) (fun _ => .inl rfl) (iff_of_true rfl rfl)
        | false =>
          obtain ⟨s, _, h⟩ := bind_result h
          cases h
          rw [table_setEnv_same _ _ (by intro; rfl)]
          exact userMemAssert_alters hassert (.inl rfl) (fun _ => .inl rfl)
            (iff_of_false (by rintro ⟨⟩) (by rintro ⟨⟩))
    | timer | ignored =>
      cases h
      rw [table_saveTf]
      exact .same (by rintro ⟨⟩)
    | unexpected => exact hdestroy h

end Kernel

end LinuxStudy.Jos
