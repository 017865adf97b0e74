import LinuxStudy.Jos.LifeCycle

/-!
# What `sched_yield` chooses

`sched_yield` takes an environment that is runnable, or goes on with the one at which its search
started, if that is marked as running on this processor. With an environment of its own the search
starts there; without one it starts at environment 0, and then the mark may be a stale one:
`env_pop_tf` stores `env_cpunum` after the lock has been released. There is no other way to take
an environment away from another processor, whatever the system calls do.
-/

namespace LinuxStudy.Jos

open Function (update update_self update_of_ne)
open Kernel Machine Table
open Option (ite_none_right_eq_some bind_eq_some_iff bind_some map_eq_some_iff)

namespace Machine

variable (m : Machine) (c : CpuIx)

/-- The environment that `sched_yield` passes to `env_run`; without one it halts. -/
def chosen : Option EnvIx :=
  match m.nextRunnable c with
  | some e => some e
  | none =>
    if (m.kernel.envs (m.startid c)).envStatus = .running ∧
        (m.kernel.envs (m.startid c)).envCpunum = c.val then some (m.startid c)
    else none

theorem schedYield_eq : m.schedYield c = match m.chosen c with
    | some e => m.envRun c e
    | none => m.schedHalt c := by
  unfold schedYield chosen
  cases m.nextRunnable c with
  | some e => rfl
  | none =>
    dsimp only
    split_ifs <;> rfl

/-- The state in which `sched_yield` is called in a step, and the processor that calls it. -/
def yieldsIn (m : Machine) : Label → Option (Machine × CpuIx)
  | .start c => if (m.cpus c).mode = .starting then some (m, c) else none
  | .wake c => if (m.cpus c).mode = .halted then some (m, c) else none
  | .trap c tf faultVa dev =>
    if (m.cpus c).mode = .user then
      (m.curenv c).bind fun cur =>
        (m.kernel.trapUser cur (m.cpus c).cr3 tf (.decode tf faultVa dev)).2.bind fun (k, l) =>
          match l with
          | .back => if (k.envs cur).envStatus = .running then none else some (m.setKernel k, c)
          | .resume => none
          | .yield => some (m.setKernel k, c)
          | .gone => some ((m.setKernel k).setCpu c { m.cpus c with cpuEnv := none }, c)
    else none
  | .pop _ | .store _ _ _ => none

variable {m : Machine} {c : CpuIx} {m₁ : Machine} {l : Label} {e : EnvIx}

/-- The search finds an environment that is runnable, if there is one. -/
theorem nextRunnable_some (h : m.nextRunnable c = some e) :
    (m.kernel.envs e).envStatus = .runnable := by
  simpa using List.find?_some h

theorem nextRunnable_none (h : m.nextRunnable c = none) (e : EnvIx) :
    (m.kernel.envs e).envStatus ≠ .runnable := by
  have hall := List.find?_eq_none.mp h
  have hmem : e ∈ (List.range nenv).map fun i => m.startid c + Fin.ofNat 1024 i := by
    rw [List.mem_map]
    refine ⟨(e - m.startid c).val, List.mem_range.mpr (e - m.startid c).isLt, ?_⟩
    rw [Fin.ofNat_val_eq_self]
    exact add_sub_cancel _ _
  intro hrunnable
  exact hall e hmem (decide_eq_true hrunnable)

/-- What is chosen is runnable, or marked as running on this processor. -/
theorem chosen_some (h : m.chosen c = some e) : (m.kernel.envs e).envStatus = .runnable ∨
    e = m.startid c ∧ (m.kernel.envs e).envStatus = .running ∧
    (m.kernel.envs e).envCpunum = c.val := by
  unfold chosen at h
  cases hnext : m.nextRunnable c with
  | some e' =>
    rw [hnext] at h
    cases h
    exact .inl (nextRunnable_some hnext)
  | none =>
    rw [hnext] at h
    split_ifs at h with hrun
    cases h
    exact .inr ⟨rfl, hrun⟩

theorem chosen_none (h : m.chosen c = none) : (∀ e, (m.kernel.envs e).envStatus ≠ .runnable) ∧
    ¬ ((m.kernel.envs (m.startid c)).envStatus = .running ∧
      (m.kernel.envs (m.startid c)).envCpunum = c.val) := by
  unfold chosen at h
  cases hnext : m.nextRunnable c with
  | some e =>
    rw [hnext] at h
    cases h
  | none =>
    rw [hnext] at h
    split_ifs at h with hrun
    exact ⟨nextRunnable_none hnext, hrun⟩

theorem step_of_yieldsIn (h : m.yieldsIn l = some (m₁, c)) : m.step l = m₁.schedYield c := by
  cases l with
  | start c' =>
    simp only [yieldsIn, ite_none_right_eq_some, Option.some.injEq, Prod.mk.injEq] at h
    obtain ⟨hmode, rfl, rfl⟩ := h
    exact if_pos hmode
  | wake c' =>
    simp only [yieldsIn, ite_none_right_eq_some, Option.some.injEq, Prod.mk.injEq] at h
    obtain ⟨hmode, rfl, rfl⟩ := h
    exact if_pos hmode
  | trap c' tf faultVa dev =>
    simp only [yieldsIn, ite_none_right_eq_some, bind_eq_some_iff] at h
    obtain ⟨hmode, cur, hcur, ⟨k, lv⟩, htrap, h⟩ := h
    have hstep : m.step (.trap c' tf faultVa dev) = (m.setKernel k).leave c' cur lv := by
      rw [step, if_pos hmode, trap, hcur, bind_some, htrap, bind_some]
    rw [hstep]
    cases lv with
    | back =>
      split_ifs at h with hrun
      cases h
      exact if_neg hrun
    | resume => cases h
    | yield =>
      cases h
      rfl
    | gone =>
      cases h
      rfl
  | pop c' => cases h
  | store c' va b => cases h

end Machine

/-! ### What comes before the choice -/

/-- `env_cpunum` is not stored, nothing is marked as running, and an environment that is not free
    has the index of its slot in its id, if that was so before. -/
structure Calm (t t' : Table) : Prop where
  cpunum : ∀ e, (t'.rows e).cpunum = (t.rows e).cpunum
  running : ∀ e, (t'.rows e).status = .running → (t.rows e).status = .running
  index : ∀ e, envx (t.rows e).id = e → envx (t'.rows e).id = e
  live : ∀ e, (t'.rows e).status ≠ .free → (t.rows e).status ≠ .free ∨ envx (t'.rows e).id = e

namespace Calm

variable {t t' t'' : Table} {e : EnvIx} {s : EnvStatus}

theorem refl (t : Table) : Calm t t := ⟨fun _ => rfl, fun _ h => h, fun _ h => h, fun _ h => .inl h⟩

theorem of_row (hother : ∀ e' ≠ e, t'.rows e' = t.rows e')
    (hnum : (t'.rows e).cpunum = (t.rows e).cpunum)
    (hrun : (t'.rows e).status = .running → (t.rows e).status = .running)
    (hid : envx (t.rows e).id = e → envx (t'.rows e).id = e)
    (hlive : (t'.rows e).status ≠ .free → (t.rows e).status ≠ .free ∨ envx (t'.rows e).id = e) :
    Calm t t' := by
  have hcase : ∀ {P : Row → Row → EnvIx → Prop}, (∀ r e', P r r e') → P (t.rows e) (t'.rows e) e →
      ∀ e', P (t.rows e') (t'.rows e') e' := by
    intro P hrefl he e'
    by_cases hne : e' = e
    · subst hne
      exact he
    · rw [hother e' hne]
      exact hrefl _ _
  exact ⟨hcase (P := fun r r' _ => r'.cpunum = r.cpunum) (fun _ _ => rfl) hnum,
    hcase (P := fun r r' _ => r'.status = .running → r.status = .running) (fun _ _ h => h) hrun,
    hcase (P := fun r r' e => envx r.id = e → envx r'.id = e) (fun _ _ h => h) hid,
    hcase (P := fun r r' e => r'.status ≠ .free → r.status ≠ .free ∨ envx r'.id = e)
      (fun _ _ h => .inl h) hlive⟩

theorem setStatus (hs : s ≠ .running) (he : (t.rows e).status ≠ .free ∨ envx (t.rows e).id = e) :
    Calm t (t.setStatus e s) := by
  have hrow : (t.setStatus e s).rows e = { t.rows e with status := s } := set_rows_self ..
  refine of_row (fun e' hne => set_rows_of_ne _ _ _ _ hne) ?_ ?_ ?_ ?_ <;> rw [hrow]
  · exact fun h => absurd h hs
  · exact fun h => h
  · exact fun _ => he

theorem release (t : Table) (e : EnvIx) : Calm t (t.release e) := by
  have hrow : (t.release e).rows e =
      { t.rows e with pgdir := none, status := .free, link := t.head } := set_rows_self ..
  refine of_row (fun e' hne => set_rows_of_ne _ _ _ _ hne) ?_ ?_ ?_ ?_ <;> rw [hrow]
  · exact fun h => by cases h
  · exact fun h => h
  · exact fun h => absurd rfl h

theorem alloc (t : Table) (e : EnvIx) (d : ℕ) (hs : s ≠ .running) : Calm t (t.alloc e d s) := by
  have hrow : (t.alloc e d s).rows e = { t.rows e with
      pgdir := some d, status := s, id := nextEnvId (t.rows e).id e } := set_rows_self ..
  refine of_row (fun e' hne => set_rows_of_ne _ _ _ _ hne) ?_ ?_ ?_ ?_ <;> rw [hrow]
  · exact fun h => absurd h hs
  · exact fun _ => envx_nextEnvId _ e
  · exact fun _ => .inr (envx_nextEnvId _ e)

end Calm

/-- **A section marks nothing as running** and does not store `env_cpunum` before it ends; a caller
    that is gone is free. -/
theorem Alters.calm {cur : EnvIx} {spares : Prop} {t t' : Table} {l : Leave}
    (h : Alters cur spares t l t')
    (hcur : envx (t.rows cur).id = cur) : Calm t t' ∧
    (l = .gone → (t'.rows cur).status = .free) := by
  cases h with
  | same hl => exact ⟨.refl t, fun h => absurd h hl⟩
  | gone => exact ⟨.release t cur, fun _ => congrArg Row.status (set_rows_self ..)⟩
  | status hl e s hs hlive =>
    refine ⟨.setStatus ?_ ?_, fun h => absurd h hl⟩
    · rcases hs with rfl | rfl <;> nofun
    · rcases hlive with rfl | hlive
      · exact .inr hcur
      · exact .inl hlive
  | dying hl e he hrun =>
      exact ⟨.setStatus nofun (.inl (by rw [hrun]; nofun)), fun h => absurd h hl⟩
  | free hl e => exact ⟨.release t e, fun h => absurd h hl⟩
  | alloc hl e d s hhead hs =>
    refine ⟨.alloc t e d ?_, fun h => absurd h hl⟩
    rcases hs with rfl | rfl <;> nofun

/-! ### Where running environments are -/

/-- An environment marked as running is on a processor that is about to store its number, or on
    the processor whose number is stored. -/
structure Placed (t : Table) (cpus : CpuIx → Cpu) : Prop where
  ids : ∀ e, (t.rows e).status ≠ .free → envx (t.rows e).id = e
  cpu_ids : ∀ c e, (cpus c).cpuEnv = some e → envx (t.rows e).id = e
  running : ∀ e, (t.rows e).status = .running →
    (∃ c, (cpus c).mode = .leaving ∧ (cpus c).cpuEnv = some e) ∨
    ∃ c : CpuIx, c.val = (t.rows e).cpunum ∧ (cpus c).cpuEnv = some e

namespace Placed

variable {t t' : Table} {cpus : CpuIx → Cpu} {c : CpuIx} {cpu : Cpu} {m m' : Machine}
  {e cur : EnvIx}

theorem calm (h : Placed t cpus) (hcalm : Calm t t') : Placed t' cpus := by
  refine ⟨fun e he => ?_, fun c e hc => hcalm.index e (h.cpu_ids c e hc), fun e he => ?_⟩
  · rcases hcalm.live e he with hlive | hx
    · exact hcalm.index e (h.ids e hlive)
    · exact hx
  · rw [hcalm.cpunum e]
    exact h.running e (hcalm.running e he)

/-- A processor that is in the kernel drops its environment, which is not marked as running on
    it. -/
theorem drop (h : Placed t cpus) (hmode : (cpus c).mode ≠ .leaving) (hcpu : cpu.cpuEnv = none)
    (hcur : ∀ e, (cpus c).cpuEnv = some e → (t.rows e).status = .running →
    (t.rows e).cpunum ≠ c.val) : Placed t (update cpus c cpu) := by
  have hother : ∀ c' e, (update cpus c cpu c').cpuEnv = some e → c' ≠ c := by
    rintro c' e hc' rfl
    rw [update_self, hcpu] at hc'
    cases hc'
  refine ⟨h.ids, fun c' e hc' => ?_, fun e he => ?_⟩
  · rw [update_of_ne (hother c' e hc')] at hc'
    exact h.cpu_ids c' e hc'
  · rcases h.running e he with ⟨c', hleaving, hc'⟩ | ⟨c', hnum, hc'⟩
    · have hne : c' ≠ c := by
        rintro rfl
        exact hmode hleaving
      exact .inl ⟨c', by rw [update_of_ne hne]; exact ⟨hleaving, hc'⟩⟩
    · have hne : c' ≠ c := by
        rintro rfl
        exact hcur e hc' he hnum.symm
      exact .inr ⟨c', hnum, by rw [update_of_ne hne]; exact hc'⟩

/-- The environment that `env_run` takes off the processor is not marked as running any more. -/
theorem suspend (h : Placed t cpus) (cur : Option EnvIx) : Placed (t.suspend cur) cpus ∧
    Calm t (t.suspend cur) ∧ ∀ e, cur = some e → ((t.suspend cur).rows e).status ≠ .running := by
  cases cur with
  | none => exact ⟨h, Calm.refl t, by rintro _ ⟨⟩⟩
  | some cur =>
    rw [Table.suspend]
    split
    · next hrun =>
      have hcalm : Calm t (t.setStatus cur .runnable) :=
        Calm.setStatus (by decide) (.inl (by rw [hrun]; decide))
      refine ⟨h.calm hcalm, hcalm, ?_⟩
      rintro e heq
      cases heq
      rw [Table.setStatus, set_rows_self]
      rintro ⟨⟩
    · next hrun =>
      refine ⟨h, Calm.refl t, ?_⟩
      rintro e heq
      cases heq
      exact hrun

theorem envRun (h : Placed m.kernel.table m.cpus) (he : envx (m.kernel.table.rows e).id = e)
    (hrun : m.envRun c e = some m') : Placed m'.kernel.table m'.cpus := by
  obtain ⟨d, _, hrun⟩ := bind_eq_some_iff.mp hrun
  cases hrun
  have htable : (m.kernel.envRun (m.curenv c) e).table =
      (m.kernel.table.suspend (m.curenv c)).setStatus e .running := by
    rw [Kernel.envRun, table_setEnv, ← table_suspend]
    rfl
  obtain ⟨h1, hcalm, hcur⟩ := h.suspend (m.curenv c)
  have he1 := hcalm.index e he
  show Placed (m.kernel.envRun (m.curenv c) e).table
    (update m.cpus c { mode := .leaving, cpuEnv := some e, cr3 := d })
  rw [htable]
  generalize m.kernel.table.suspend (m.curenv c) = t1 at h1 hcur he1
  have hself : (t1.setStatus e .running).rows e = { t1.rows e with status := .running } :=
    set_rows_self ..
  have hother : ∀ e', e' ≠ e → (t1.setStatus e .running).rows e' = t1.rows e' :=
    fun e' hne => set_rows_of_ne _ _ _ _ hne
  have hid : ∀ e', envx (t1.rows e').id = e' →
      envx ((t1.setStatus e .running).rows e').id = e' := by
    intro e' hx
    by_cases hne : e' = e
    · subst hne
      rwa [hself]
    · rwa [hother e' hne]
  refine ⟨fun e' hlive => ?_, fun c' e' hc' => ?_, fun e' hrunning => ?_⟩
  · refine hid e' ?_
    by_cases hne : e' = e
    · subst hne
      exact he1
    · rw [hother e' hne] at hlive
      exact h1.ids e' hlive
  · refine hid e' ?_
    by_cases hne : c' = c
    · subst hne
      rw [update_self] at hc'
      cases hc'
      exact he1
    · rw [update_of_ne hne] at hc'
      exact h1.cpu_ids c' e' hc'
  · by_cases hne : e' = e
    · subst hne
      exact .inl ⟨c, by rw [update_self]; exact ⟨rfl, rfl⟩⟩
    · rw [hother e' hne] at hrunning ⊢
      -- the processor had another environment, or one that was suspended
      have hcpu : ∀ c', (m.cpus c').cpuEnv = some e' → c' ≠ c := by
        rintro c' hc' rfl
        exact hcur e' hc' hrunning
      rcases h1.running e' hrunning with ⟨c', hleaving, hc'⟩ | ⟨c', hnum, hc'⟩
      · exact .inl ⟨c', by rw [update_of_ne (hcpu c' hc')]; exact ⟨hleaving, hc'⟩⟩
      · exact .inr ⟨c', hnum, by rw [update_of_ne (hcpu c' hc')]; exact hc'⟩

theorem startid_eq (h : Placed m.kernel.table m.cpus) (hcur : m.curenv c = some cur) :
    m.startid c = cur := by
  rw [startid, hcur]
  exact h.cpu_ids c cur hcur

theorem schedYield (h : Placed m.kernel.table m.cpus) (hmode : (m.cpus c).mode ≠ .leaving)
    (hy : m.schedYield c = some m') : Placed m'.kernel.table m'.cpus := by
  rw [schedYield_eq] at hy
  cases hchosen : m.chosen c with
  | some e =>
    rw [hchosen] at hy
    refine h.envRun (h.ids e ?_) hy
    show (m.kernel.envs e).envStatus ≠ .free
    rcases chosen_some hchosen with hs | ⟨_, hs, _⟩
    · rw [hs]
      decide
    · rw [hs]
      decide
  | none =>
    rw [hchosen] at hy
    rw [schedHalt] at hy
    split_ifs at hy
    cases hy
    refine h.drop hmode rfl fun e hc hrun hnum => ?_
    -- then it would have been chosen
    have hnot := (chosen_none hchosen).2
    rw [h.startid_eq hc] at hnot
    exact hnot ⟨hrun, hnum⟩

theorem pop (h : Placed m.kernel.table m.cpus) (hpop : m.envPopTf c = some m') :
    Placed m'.kernel.table m'.cpus := by
  obtain ⟨cur, hc, hpop⟩ := bind_eq_some_iff.mp hpop
  cases hpop
  show Placed (m.kernel.setEnv cur fun env => { env with envCpunum := c.val }).table
    (update m.cpus c { m.cpus c with mode := .user })
  rw [table_setEnv]
  change Placed (m.kernel.table.set cur { m.kernel.table.rows cur with cpunum := c.val }) _
  have hself := set_rows_self m.kernel.table cur { m.kernel.table.rows cur with cpunum := c.val }
  have hother : ∀ e, e ≠ cur →
      (m.kernel.table.set cur { m.kernel.table.rows cur with cpunum := c.val }).rows e =
        m.kernel.table.rows e := fun e hne => set_rows_of_ne _ _ _ _ hne
  have hfield : ∀ e,
      ((m.kernel.table.set cur { m.kernel.table.rows cur with cpunum := c.val }).rows e).status =
        (m.kernel.table.rows e).status ∧
      ((m.kernel.table.set cur { m.kernel.table.rows cur with cpunum := c.val }).rows e).id =
        (m.kernel.table.rows e).id := by
    intro e
    by_cases hne : e = cur
    · subst hne
      rw [hself]
      exact ⟨rfl, rfl⟩
    · rw [hother e hne]
      exact ⟨rfl, rfl⟩
  have hcpuEnv : ∀ c', (update m.cpus c { m.cpus c with mode := .user } c').cpuEnv =
      (m.cpus c').cpuEnv := by
    intro c'
    by_cases hne : c' = c
    · subst hne
      rw [update_self]
    · rw [update_of_ne hne]
  refine ⟨fun e hlive => ?_, fun c' e hc' => ?_, fun e hrun => ?_⟩
  · rw [(hfield e).1] at hlive
    rw [(hfield e).2]
    exact h.ids e hlive
  · rw [hcpuEnv] at hc'
    rw [(hfield e).2]
    exact h.cpu_ids c' e hc'
  · rw [(hfield e).1] at hrun
    by_cases hne : e = cur
    · subst hne
      exact .inr ⟨c, by rw [hself], by rw [hcpuEnv]; exact hc⟩
    · rw [hother e hne]
      rcases h.running e hrun with ⟨c', hleaving, hc'⟩ | ⟨c', hnum, hc'⟩
      · have hcc : c' ≠ c := by
          rintro rfl
          exact hne (Option.some.inj (hc'.symm.trans hc))
        exact .inl ⟨c', by rw [update_of_ne hcc]; exact ⟨hleaving, hc'⟩⟩
      · exact .inr ⟨c', hnum, by rw [hcpuEnv]; exact hc'⟩

end Placed

section Runs

variable {m m' m₁ : Machine} {l : Label} {c : CpuIx} {k : Kernel}

/-- When `sched_yield` is called, the invariant holds and the processor is in the kernel. -/
theorem Placed.yieldsIn (h : Placed m.kernel.table m.cpus) (hy : m.yieldsIn l = some (m₁, c)) :
    Placed m₁.kernel.table m₁.cpus ∧ (m₁.cpus c).mode ≠ .leaving := by
  cases l with
  | start c' =>
    simp only [yieldsIn, ite_none_right_eq_some, Option.some.injEq, Prod.mk.injEq] at hy
    obtain ⟨hmode, rfl, rfl⟩ := hy
    exact ⟨h, by rw [hmode]; decide⟩
  | wake c' =>
    simp only [yieldsIn, ite_none_right_eq_some, Option.some.injEq, Prod.mk.injEq] at hy
    obtain ⟨hmode, rfl, rfl⟩ := hy
    exact ⟨h, by rw [hmode]; decide⟩
  | trap c' tf faultVa dev =>
    simp only [yieldsIn, ite_none_right_eq_some, bind_eq_some_iff] at hy
    obtain ⟨hmode, cur, hcur, ⟨k, lv⟩, htrap, hy⟩ := hy
    have hmode' : (m.cpus c').mode ≠ .leaving := by
      rw [hmode]
      decide
    obtain ⟨hcalm, hgone⟩ := (trapUser_alters False.elim htrap).1.calm (h.cpu_ids c' cur hcur)
    have h1 : Placed k.table m.cpus := h.calm hcalm
    cases lv with
    | back =>
      split_ifs at hy
      cases hy
      exact ⟨h1, hmode'⟩
    | resume => cases hy
    | yield =>
      cases hy
      exact ⟨h1, hmode'⟩
    | gone =>
      cases hy
      refine ⟨h1.drop hmode' rfl fun e hc hrun => ?_, ?_⟩
      · cases hc.symm.trans hcur
        rw [hgone rfl] at hrun
        cases hrun
      · simp [setCpu, hmode]
  | pop c' => cases hy
  | store c' va b => cases hy

/-- **What one step preserves.** -/
theorem placed_step (h : Placed m.kernel.table m.cpus) (hs : m.step l = some m') :
    Placed m'.kernel.table m'.cpus := by
  cases hy : m.yieldsIn l with
  | some r =>
    obtain ⟨h1, hmode⟩ := h.yieldsIn hy
    rw [step_of_yieldsIn hy] at hs
    exact h1.schedYield hmode hs
  | none =>
    -- the step does not schedule
    cases l with
    | start c =>
      simp only [step, ite_none_right_eq_some] at hs
      simp [yieldsIn, hs.1] at hy
    | wake c =>
      simp only [step, ite_none_right_eq_some] at hs
      simp [yieldsIn, hs.1] at hy
    | pop c =>
      simp only [step, ite_none_right_eq_some] at hs
      exact h.pop hs.2
    | trap c tf faultVa dev =>
      simp only [step, ite_none_right_eq_some, trap, bind_eq_some_iff] at hs
      obtain ⟨hmode, cur, hcur, ⟨k, lv⟩, htrap, hs⟩ := hs
      obtain ⟨hcalm, _⟩ := (trapUser_alters False.elim htrap).1.calm (h.cpu_ids c cur hcur)
      have h1 : Placed k.table m.cpus := h.calm hcalm
      simp only [yieldsIn, hmode, if_true, hcur, bind_some, htrap] at hy
      have hrun : (m.setKernel k).envRun c cur = some m' → Placed m'.kernel.table m'.cpus :=
        Placed.envRun (m := m.setKernel k) h1 (h1.cpu_ids c cur hcur)
      cases lv with
      | back =>
        split_ifs at hy with hrunning
        exact hrun ((if_pos hrunning).symm.trans hs)
      | resume => exact hrun hs
      | yield => cases hy
      | gone => cases hy
    | store c va b =>
      simp only [step, ite_none_right_eq_some, map_eq_some_iff] at hs
      obtain ⟨_, s, _, rfl⟩ := hs
      exact h

theorem placed_boot {s0 : Pmap} {nic : E1000} {b x n ncpu : ℕ}
    (hboot : Kernel.boot s0 nic b x n = some k) :
    Placed (Machine.ofKernel k ncpu).kernel.table (Machine.ofKernel k ncpu).cpus := by
  have O : Orderly k.table (ofKernel k ncpu).cpus none := orderly_boot hboot fun _ => rfl
  refine ⟨O.ids, by nofun, fun e he => ?_⟩
  obtain ⟨s, _, hboot⟩ := bind_eq_some_iff.mp hboot
  have hnot : ∀ e, (k.table.rows e).status ≠ .running := by
    refine forUpTo_preserves (fun k => ∀ e, (k.table.rows e).status ≠ .running) (fun e => ?_)
      (fun i k1 k2 halloc hk1 e hrun => ?_) hboot
    · rw [envInit]
      generalize List.finRange 1024 = js
      have hfree := envInitLoop_field Env.envStatus (fun _ _ => rfl)
        ⟨s, fun _ => Env.blank, none, nic⟩ js e
      exact fun hrun => absurd (hfree.symm.trans hrun) (by decide)
    · rw [map_eq_some_iff] at halloc
      obtain ⟨⟨k', r⟩, halloc, rfl⟩ := halloc
      rcases envAlloc_table halloc with ⟨_, heq⟩ | ⟨e', d, _, _, heq⟩
      · rw [heq] at hrun
        exact hk1 e hrun
      · rw [heq] at hrun
        exact hk1 e ((Calm.alloc k1.table e' d (by decide)).running e hrun)
  exact absurd he (hnot e)

end Runs

/-- **`sched_yield` takes no environment away from another processor**, for any number of
    processors and in every order of their steps: what it passes to `env_run` is runnable or the
    processor's own, unless the processor has none and another one is about to store `env_cpunum` of
    environment 0 over its number. If an environment is runnable the processor does not halt. -/
theorem sched_yield_takes_own {s₀ : Pmap} {nic : E1000} {b x n ncpu : ℕ} {k : Kernel}
    {m m₁ : Machine}
    {ls : List Label} {l : Label} {c : CpuIx} (hboot : Kernel.boot s₀ nic b x n = some k)
    (hrun : Run Machine.Step (.ofKernel k ncpu) ls m) (hy : m.yieldsIn l = some (m₁, c))
    (hrace : m₁.curenv c = none → NoRace m₁.kernel.table m₁.cpus c) :
    m.step l = (match m₁.chosen c with
      | some e => m₁.envRun c e
      | none => m₁.schedHalt c) ∧
    (∀ e, m₁.chosen c = some e →
      (m₁.kernel.envs e).envStatus = .runnable ∨ m₁.curenv c = some e) ∧
    ((∃ e, (m₁.kernel.envs e).envStatus = .runnable) → m₁.chosen c ≠ none) := by
  have h : Placed m.kernel.table m.cpus :=
    hrun.invariant (fun m => Placed m.kernel.table m.cpus) (placed_boot hboot)
      fun _ _ _ h hs => placed_step h hs
  obtain ⟨h₁, hmode⟩ := h.yieldsIn hy
  refine ⟨(step_of_yieldsIn hy).trans (m₁.schedYield_eq c), fun e hchosen => ?_, ?_⟩
  · rcases chosen_some hchosen with hs | ⟨rfl, hs, hnum⟩
    · exact .inl hs
    · right
      cases hcur : m₁.curenv c with
      | some cur => rw [h₁.startid_eq hcur]
      | none =>
        have hstart : m₁.startid c = 0 := by rw [startid, hcur]
        rw [hstart] at hs hnum
        -- the number belongs to a processor that has environment 0, and this one has none
        rcases h₁.running 0 hs with ⟨c', hleaving, hc'⟩ | ⟨c', hnum', hc'⟩
        · have heq := hrace hcur c' hleaving hc' hnum
          rw [heq] at hleaving
          exact absurd hleaving hmode
        · have heq : c' = c := Fin.ext (hnum'.trans hnum)
          rw [heq] at hc'
          exact absurd (hcur.symm.trans hc') (by rintro ⟨⟩)
  · rintro ⟨e, he⟩ hnone
    exact (chosen_none hnone).1 e he

/-- A timer interrupt. -/
def Label.timer (c : CpuIx) : Label := .trap c { Trapframe.user with tfTrapno := 32#32 } 0 0

/-- A run from a kernel on two processors, and the choice made after it: what is chosen, the status
    of environment 0, and what the processors have. -/
def Machine.choiceAfter (k : Option Kernel) (ls : List Label) (l : Label) (c : CpuIx) :
    Option (Option EnvIx × EnvStatus × Option EnvIx × Option EnvIx × CpuIx) :=
  k.bind fun k => ((Machine.ofKernel k 2).steps ls).bind fun m => (m.yieldsIn l).map fun y =>
    (y.1.chosen c, (y.1.kernel.envs 0).envStatus, y.1.curenv 0, y.1.curenv 1, y.2)

theorem exists_choice {k0 : Option Kernel} {ls : List Label} {l : Label} {c : CpuIx}
    {r : Option EnvIx}
    {s : EnvStatus} {e0 e1 : Option EnvIx}
    (h : Machine.choiceAfter k0 ls l c = some (r, s, e0, e1, c)) :
    ∃ k m m₁, k0 = some k ∧ Run Machine.Step (.ofKernel k 2) ls m ∧ m.yieldsIn l = some (m₁, c) ∧
      m₁.chosen c = r ∧ (m₁.kernel.envs 0).envStatus = s ∧ m₁.curenv 0 = e0 ∧ m₁.curenv 1 = e1 := by
  obtain ⟨k, hk, h⟩ := bind_eq_some_iff.mp h
  obtain ⟨m, hm, h⟩ := bind_eq_some_iff.mp h
  rw [map_eq_some_iff] at h
  obtain ⟨⟨m₁, c'⟩, hy, heq⟩ := h
  simp only [Prod.mk.injEq] at heq
  obtain ⟨hchosen, hstatus, hcur0, hcur1, rfl⟩ := heq
  exact ⟨k, m, m₁, hk, run_of_steps hm, hy, hchosen, hstatus, hcur0, hcur1⟩

/-- Environment 0 makes a child and lets it run, and the second processor takes it. -/
theorem sched_yield_takes_own_child : ∃ (k : Kernel) (m m₁ : Machine) (ls : List Label),
    Kernel.tiny = some k ∧ Run Machine.Step (.ofKernel k 2) ls m ∧ m.curenv 0 = some 0 ∧
      m.yieldsIn (.start 1) = some (m₁, 1) ∧ m₁.chosen 1 = some 1 ∧
      ((m₁.kernel.envs 1).envStatus = .runnable ∨ m₁.curenv 1 = some 1) := by
  let ls : List Label := [.start 0, .pop 0, .forCall 0 7#32 0 0 0 0 0, .pop 0,
    .forCall 0 8#32 0x1001#32 envRunnable 0 0 0, .pop 0]
  obtain ⟨k, hk, m, hm, hcur, ⟨m₁, _⟩, hy, rfl, hchosen, hnum⟩ : ∃ k ∈ tiny,
      ∃ m ∈ (ofKernel k 2).steps ls, m.curenv 0 = some 0 ∧
        ∃ y ∈ m.yieldsIn (.start 1), y.2 = 1 ∧ y.1.chosen 1 = some 1 ∧
          (y.1.kernel.table.rows 0).cpunum ≠ 1 := by
    decide +kernel
  have hrun := run_of_steps hm
  have hrace : m₁.curenv 1 = none → NoRace m₁.kernel.table m₁.cpus 1 :=
    fun _ _ _ _ heq => absurd heq hnum
  exact ⟨k, m, m₁, ls, hk, hrun, hcur, hy, hchosen,
    (sched_yield_takes_own hk hrun hy hrace).2.1 1 hchosen⟩

/-- An entry of the table after `env_init`. -/
def Env.linked (e : EnvIx) : Env :=
  { Env.blank with envLink := if h : e.val + 1 < 1024 then some ⟨e.val + 1, h⟩ else none }

theorem envInitLoop_drop (k : Kernel) (m : ℕ) : ∀ n, n + m = 1024 →
    k.envInitLoop ((List.finRange 1024).drop n) =
      { k with envs := fun e => if n ≤ e.val then Env.linked e else Env.blank
               envFreeList := if h : n < 1024 then some ⟨n, h⟩ else none } := by
  induction m with
  | zero =>
    intro n hn
    have hnil : (List.finRange 1024).drop n = [] :=
      List.drop_eq_nil_of_le (by rw [List.length_finRange]; omega)
    have henvs : (fun e : EnvIx => if n ≤ e.val then Env.linked e else Env.blank) =
        fun _ => Env.blank := by
      funext e
      exact if_neg (by omega)
    rw [hnil, dif_neg (by omega), henvs]
    rfl
  | succ m ih =>
    intro n hn
    have hlt : n < 1024 := by omega
    rw [List.drop_eq_getElem_cons (by rw [List.length_finRange]; exact hlt), List.getElem_finRange]
    show (k.envInitLoop ((List.finRange 1024).drop (n + 1))).envInitStep _ = _
    rw [ih (n + 1) (by omega), dif_pos hlt]
    refine congrArg₂ (fun envs list => ({ k with envs := envs, envFreeList := list } : Kernel))
      (funext fun e => ?_) rfl
    by_cases he : e = ⟨n, hlt⟩
    · subst he
      simp [Env.linked, setEnv]
    · have hval : e.val ≠ n := fun h => he (Fin.ext h)
      have hiff : n + 1 ≤ e.val ↔ n ≤ e.val := by omega
      exact (update_of_ne he _ _).trans (if_congr hiff rfl rfl)

theorem boot_eq (s0 : Pmap) (nic : E1000) (b x n : ℕ) : Kernel.boot s0 nic b x n =
    (s0.pageInit b x).bind fun s => forUpTo (fun _ k => (Kernel.envAlloc k 0).map Prod.fst) n
      ⟨s, Env.linked, some 0, nic⟩ := by
  rw [boot]
  refine congrArg _ (funext fun s => congrArg _ ?_)
  have h := envInitLoop_drop ⟨s, fun _ => Env.blank, none, nic⟩ 1024 0 rfl
  rw [List.drop_zero] at h
  rw [envInit, h]
  refine congrArg₂ (fun envs list => (⟨s, envs, list, nic⟩ : Kernel)) (funext fun e => ?_) rfl
  exact if_pos (Nat.zero_le _)

/-- Environment 0 runs on the second processor and is set aside for environment 1; the first
    processor takes it; environment 1 waits for a message, and the second processor halts. -/
def raceLabels : List Label :=
  [.start 1, .pop 1, .timer 1, .pop 1, .start 0, .forCall 1 13#32 utop 0 0 0 0]

theorem choice_race : Machine.choiceAfter (Kernel.boot (.blank 8 1) E1000.blank 1 3 2) raceLabels
    (.wake 1) 1 = some (some 0, .running, some 0, none, 1) := by
  rw [boot_eq]
  decide +kernel

/-- The first processor has not stored `env_cpunum` yet when the second one wakes up, and that takes
    environment 0 as well. -/
theorem sched_yield_takes_other : ∃ (k : Kernel) (m m₁ : Machine),
    Kernel.boot (.blank 8 1) E1000.blank 1 3 2 = some k ∧
    Run Machine.Step (.ofKernel k 2) raceLabels m ∧
    (∀ l ∈ raceLabels, ∀ envid status, l.call ≠ some (.envSetStatus envid status)) ∧
    m.yieldsIn (.wake 1) = some (m₁, 1) ∧ m₁.chosen 1 = some 0 ∧
    (m₁.kernel.envs 0).envStatus = .running ∧ m₁.curenv 0 = some 0 ∧ m₁.curenv 1 = none := by
  obtain ⟨k, m, m₁, hk, hrun, hrest⟩ := exists_choice choice_race
  refine ⟨k, m, m₁, hk, hrun, fun l hl envid status h => ?_, hrest⟩
  simp only [raceLabels, List.mem_cons, List.not_mem_nil, or_false] at hl
  rcases hl with rfl | rfl | rfl | rfl | rfl | rfl <;> cases h

end LinuxStudy.Jos
