import LinuxStudy.Jos.EnvTable
import LinuxStudy.Jos.PageLeak

/-!
# The life cycle of environments on several processors

Each transition of an environment's life looks at one status field. They fit together if no
processor touches the status of an environment that another one runs: then an environment is
on one processor at most, it is not free there, and the list of free environments is right.
The source does not see to that. `sys_env_set_status` and the wake-up by `sys_ipc_try_send`
store a status without looking at the old one, a second `sys_env_destroy` frees what is still
running, and a processor without environment may believe a stale `env_cpunum`.
-/

namespace LinuxStudy.Jos

open Kernel Table
open Function (update_self update_of_ne)
open Option (bind_eq_some_iff ite_none_right_eq_some)

/-! ### The invariant -/

/-- The free list is the list of the free environments, each once. -/
def Table.FreeList (t : Table) : Prop :=
  ∃ le, Chain (fun e => (t.rows e).link) t.head le ∧ ∀ e, e ∈ le ↔ (t.rows e).status = .free

/-- What a processor may rely on about its environment; `busy` is the one in the kernel. -/
structure OnCpu (r : Row) (cpu : Cpu) (c : CpuIx) (busy : Option CpuIx) : Prop where
  live : r.status ≠ .free
  active : busy ≠ some c → r.status.Active
  dir : r.pgdir = some cpu.cr3
  num : cpu.mode = .user → r.cpunum = c.val
  mode : cpu.mode = .user ∨ cpu.mode = .leaving

structure Orderly (t : Table) (cpus : CpuIx → Cpu) (busy : Option CpuIx) : Prop where
  free : t.FreeList
  ids : ∀ e, (t.rows e).status ≠ .free → envx (t.rows e).id = e
  alone : ∀ c c' e, (cpus c).cpuEnv = some e → (cpus c').cpuEnv = some e → c = c'
  cpu : ∀ c e, (cpus c).cpuEnv = some e → OnCpu (t.rows e) (cpus c) c busy

/-- No other processor is about to store `env_cpunum` of environment 0 over the number of
    this one. -/
def NoRace (t : Table) (cpus : CpuIx → Cpu) (c : CpuIx) : Prop :=
  ∀ c', (cpus c').mode = .leaving → (cpus c').cpuEnv = some 0 → (t.rows 0).cpunum = c.val → c' = c

section Moves

variable {t t' : Table} {cpus : CpuIx → Cpu} {busy : Option CpuIx} {c : CpuIx} {e cur : EnvIx}
  {s : EnvStatus} {d : ℕ}

theorem Table.FreeList.of_eq (h : t.FreeList) (hhead : t'.head = t.head)
    (hlink : ∀ e, (t'.rows e).link = (t.rows e).link)
    (hstatus : ∀ e, (t'.rows e).status = .free ↔ (t.rows e).status = .free) : t'.FreeList := by
  obtain ⟨le, hchain, hmem⟩ := h
  exact ⟨le, by simpa only [hlink, hhead] using hchain, fun e => (hmem e).trans (hstatus e).symm⟩

theorem Table.FreeList.setStatus (h : t.FreeList) (hlive : (t.rows e).status ≠ .free)
    (hs : s ≠ .free) : (t.setStatus e s).FreeList := by
  refine h.of_eq rfl (fun e' => ?_) fun e' => ?_
  · by_cases he : e' = e
    · subst he
      simp [Table.setStatus]
    · simp [Table.setStatus, he]
  · by_cases he : e' = e
    · subst he
      simp [Table.setStatus, hlive, hs]
    · simp [Table.setStatus, he]

theorem Table.FreeList.release (h : t.FreeList) (hlive : (t.rows e).status ≠ .free) :
    (t.release e).FreeList := by
  obtain ⟨le, hchain, hmem⟩ := h
  have hlink : (fun e' => ((t.release e).rows e').link) =
      Function.update (fun e' => (t.rows e').link) e t.head := by
    funext e'
    by_cases he : e' = e
    · subst he
      simp [Table.release, Table.set]
    · simp [Table.release, Table.set, he]
  refine ⟨e :: le, ?_, fun e' => ?_⟩
  · rw [hlink]
    exact hchain.push fun hin => hlive ((hmem e).mp hin)
  · by_cases he : e' = e
    · subst he
      simp [Table.release, Table.set]
    · simp [hmem, Table.release, Table.set, he]

/-- The environment `env_alloc` takes is free, and the rest of the list stays. -/
theorem Table.FreeList.alloc (h : t.FreeList) (hhead : t.head = some e) (hs : s ≠ .free) :
    (t.rows e).status = .free ∧ (t.alloc e d s).FreeList := by
  obtain ⟨le, hchain, hmem⟩ := h
  rw [hhead] at hchain
  cases le with
  | nil => simp at hchain
  | cons a le =>
    obtain ⟨ha, htail⟩ := Chain.cons_iff.mp hchain
    cases ha
    have hnot := (List.nodup_cons.mp hchain.nodup).1
    have hlink : (fun e' => ((t.alloc e d s).rows e').link) = fun e' => (t.rows e').link := by
      funext e'
      by_cases he : e' = e
      · subst he
        simp [Table.alloc, Table.set]
      · simp [Table.alloc, Table.set, he]
    refine ⟨(hmem e).mp List.mem_cons_self, le, by rw [hlink]; exact htail, fun e' => ?_⟩
    by_cases he : e' = e
    · subst he
      simp [Table.alloc, Table.set, hs, hnot]
    · rw [show ((t.alloc e d s).rows e').status = (t.rows e').status by
        simp [Table.alloc, Table.set, he], ← hmem, List.mem_cons, or_iff_right he]

/-- The index is in the low bits of every id that `env_alloc` makes. -/
theorem envx_nextEnvId (old : Word) (e : EnvIx) : envx (Kernel.nextEnvId old e) = e := by
  have hor : ∀ g : Word, g &&& 1023#32 = 0#32 → envx (g ||| BitVec.ofNat 32 e.val) = e := by
    intro g hg
    have hlow : (g ||| BitVec.ofNat 32 e.val) &&& 1023#32 = BitVec.ofNat 32 e.val := by
      rw [BitVec.and_or_distrib_right, hg, BitVec.zero_or]
      apply BitVec.eq_of_toNat_eq
      rw [BitVec.toNat_and, BitVec.toNat_ofNat, BitVec.toNat_ofNat,
        Nat.mod_eq_of_lt (by omega : e.val < 2 ^ 32), show 1023 % 2 ^ 32 = 2 ^ 10 - 1 by decide,
        Nat.and_two_pow_sub_one_eq_mod, Nat.mod_eq_of_lt (by omega : e.val < 2 ^ 10)]
    apply Fin.ext
    have hval := congrArg BitVec.toNat hlow
    rw [BitVec.toNat_and, BitVec.toNat_ofNat, BitVec.toNat_ofNat,
      Nat.mod_eq_of_lt (by omega : e.val < 2 ^ 32), show 1023 % 2 ^ 32 = 2 ^ 10 - 1 by decide,
      Nat.and_two_pow_sub_one_eq_mod] at hval
    exact hval
  apply hor
  split
  · decide
  · rw [BitVec.and_assoc]
    exact BitVec.and_zero

section

variable (O : Orderly t cpus busy)
include O

theorem Orderly.update (hrows : ∀ e', e' ≠ e → t'.rows e' = t.rows e')
    (hfree : t'.FreeList) (hid : (t'.rows e).status ≠ .free → envx (t'.rows e).id = e)
    (hcpu : ∀ c, (cpus c).cpuEnv = some e → OnCpu (t'.rows e) (cpus c) c busy) :
    Orderly t' cpus busy := by
  refine ⟨hfree, fun e' he' => ?_, O.alone, fun c e' hc => ?_⟩
  · by_cases he : e' = e
    · subst he
      exact hid he'
    · rw [hrows e' he] at he' ⊢
      exact O.ids e' he'
  · by_cases he : e' = e
    · subst he
      exact hcpu c hc
    · rw [hrows e' he]
      exact O.cpu c e' hc

theorem Orderly.setStatus (hlive : (t.rows e).status ≠ .free)
    (hs : s ≠ .free) (hact : ∀ c, (cpus c).cpuEnv = some e → busy ≠ some c → s.Active) :
    Orderly (t.setStatus e s) cpus busy := by
  refine O.update (e := e) (fun e' he => ?_) (O.free.setStatus hlive hs) (fun _ => ?_)
    fun c hc => ?_
  · simp [Table.setStatus, he]
  · simpa [Table.setStatus] using O.ids e hlive
  · have h := O.cpu c e hc
    simp only [Table.setStatus, set_rows_self]
    exact ⟨hs, hact c hc, h.dir, h.num, h.mode⟩

theorem Orderly.release (hlive : (t.rows e).status ≠ .free)
    (hoff : ∀ c, (cpus c).cpuEnv ≠ some e) : Orderly (t.release e) cpus busy := by
  refine O.update (fun e' he => ?_) (O.free.release hlive) (fun hs => ?_)
    fun c hc => absurd hc (hoff c)
  · simp [Table.release, Table.set, he]
  · simp [Table.release, Table.set] at hs

theorem Orderly.alloc (hhead : t.head = some e)
    (hs : s = .runnable ∨ s = .notRunnable) : Orderly (t.alloc e d s) cpus busy := by
  have hs' : s ≠ .free := by
    rintro rfl
    simp at hs
  obtain ⟨hfree, hlist⟩ := O.free.alloc (d := d) hhead hs'
  refine O.update (fun e' he => ?_) hlist (fun _ => ?_)
    fun c hc => absurd hfree (O.cpu c e hc).live
  · simp [Table.alloc, Table.set, he]
  · simp [Table.alloc, Table.set, envx_nextEnvId]

end

theorem Orderly.move (O : Orderly t cpus (some c)) (hc : (cpus c).cpuEnv = some cur)
    (h : Move cur t t') : Orderly t' cpus (some c) := by
  -- an environment that is on no processor, or on this one
  have hoff : ∀ e c', e = cur ∨ ¬ (t.rows e).status.Active → (cpus c').cpuEnv = some e →
      c' = c := by
    rintro e c' (rfl | hact) hc'
    · exact O.alone c' c e hc' hc
    · by_contra hne
      exact hact ((O.cpu c' e hc').active fun heq => hne (Option.some.inj heq).symm)
  cases h with
  | refl => exact O
  | status e s hs hlive he =>
    refine O.setStatus hlive (by rintro rfl; simp at hs) fun c' hc' hbusy => ?_
    exact absurd (congrArg some (hoff e c' he hc').symm) hbusy
  | dying e he hrun =>
    refine O.setStatus (by rw [hrun]; decide) (by decide) fun _ _ _ => .inr rfl
  | free e he hlive hact =>
    refine O.release hlive fun c' hc' => he ?_
    obtain rfl := hoff e c' (.inr hact) hc'
    exact Option.some.inj (hc'.symm.trans hc)
  | alloc e d s hhead hs => exact O.alloc hhead hs

theorem Move.cpunum (h : Move cur t t') (e : EnvIx) : (t'.rows e).cpunum = (t.rows e).cpunum := by
  have hset : ∀ (e' : EnvIx) (r : Row), r.cpunum = (t.rows e').cpunum →
      ((t.set e' r).rows e).cpunum = (t.rows e).cpunum := by
    intro e' r hr
    by_cases he : e = e'
    · subst he
      simp [hr]
    · simp [he]
  cases h with
  | refl => rfl
  | status e' s => exact hset e' _ rfl
  | dying e' => exact hset e' _ rfl
  | free e' => exact hset e' _ rfl
  | alloc e' d s => exact hset e' _ rfl

theorem Move.dying_kept (h : Move cur t t') (hcur : (t.rows cur).status ≠ .dying)
    (hfree : t.FreeList) (he : (t.rows e).status = .dying) : (t'.rows e).status = .dying := by
  have hset : ∀ (e' : EnvIx) (r : Row), e ≠ e' → ((t.set e' r).rows e).status = .dying := by
    intro e' r hne
    simp [hne, he]
  cases h with
  | refl => exact he
  | status e' s hs hlive hact =>
    refine hset e' _ ?_
    rintro rfl
    rcases hact with rfl | hact
    · exact hcur he
    · exact hact (.inr he)
  | dying e' hne hrun =>
    refine hset e' _ ?_
    rintro rfl
    rw [he] at hrun
    cases hrun
  | free e' hne hlive hact =>
    refine hset e' _ ?_
    rintro rfl
    exact hact (.inr he)
  | alloc e' d s hhead hs =>
    refine hset e' _ ?_
    rintro rfl
    have hs' : s ≠ .free := by rintro rfl; simp at hs
    have := (hfree.alloc (d := d) hhead hs').1
    rw [he] at this
    cases this

theorem Move.alive (h : Move cur t t') (hcur : (t.rows cur).status ≠ .dying) :
    (t'.rows cur).status ≠ .dying := by
  have hset : ∀ (e' : EnvIx) (r : Row), (cur = e' → r.status ≠ .dying) →
      ((t.set e' r).rows cur).status ≠ .dying := by
    intro e' r hr
    by_cases he : cur = e'
    · subst he
      simpa using hr rfl
    · simpa [he] using hcur
  have hnew : ∀ s : EnvStatus, s = .runnable ∨ s = .notRunnable → s ≠ .dying := by
    rintro s (rfl | rfl) <;> decide
  cases h with
  | refl => exact hcur
  | status e' s hs => exact hset e' _ fun _ => hnew s hs
  | dying e' hne => exact hset e' _ fun he => absurd he.symm hne
  | free e' hne => exact hset e' _ fun he => absurd he.symm hne
  | alloc e' d s hhead hs => exact hset e' _ fun _ => hnew s hs

theorem Orderly.enter (O : Orderly t cpus none) (c : CpuIx) : Orderly t cpus (some c) := by
  refine ⟨O.free, O.ids, O.alone, fun c' e hc' => ?_⟩
  have h := O.cpu c' e hc'
  exact ⟨h.live, fun _ => h.active nofun, h.dir, h.num, h.mode⟩

/-- The race is not brought about by the processor that looks for it. -/
theorem NoRace.of_eq {cpus' : CpuIx → Cpu} (h : NoRace t cpus c)
    (hnum : (t'.rows 0).cpunum = (t.rows 0).cpunum) (hcpus : ∀ c', c' ≠ c → cpus' c' = cpus c') :
    NoRace t' cpus' c := by
  intro c' hmode hc' hcpunum
  by_contra hne
  rw [hcpus c' hne] at hmode hc'
  exact hne (h c' hmode hc' (hnum ▸ hcpunum))

theorem Orderly.clear (O : Orderly t cpus (some c)) (cpu : Cpu) (hcpu : cpu.cpuEnv = none)
    (busy : Option CpuIx) : Orderly t (Function.update cpus c cpu) busy := by
  have hne : ∀ c' e, (Function.update cpus c cpu c').cpuEnv = some e → c' ≠ c := by
    rintro c' e hc' rfl
    rw [update_self, hcpu] at hc'
    cases hc'
  refine ⟨O.free, O.ids, fun c1 c2 e h1 h2 => ?_, fun c' e hc' => ?_⟩
  · have hn1 := hne c1 e h1
    have hn2 := hne c2 e h2
    rw [update_of_ne hn1] at h1
    rw [update_of_ne hn2] at h2
    exact O.alone c1 c2 e h1 h2
  · have hn := hne c' e hc'
    rw [update_of_ne hn] at hc' ⊢
    have h := O.cpu c' e hc'
    exact ⟨h.live, fun _ => h.active fun heq => hn (Option.some.inj heq).symm, h.dir, h.num, h.mode⟩

/-- A processor leaves the kernel into an environment nobody else has. -/
theorem Orderly.run (O : Orderly t cpus (some c)) (hlive : (t.rows e).status ≠ .free)
    (hd : (t.rows e).pgdir = some d) (honly : ∀ c', (cpus c').cpuEnv = some e → c' = c) :
    Orderly (t.setStatus e .running) (Function.update cpus c ⟨.leaving, some e, d⟩) none := by
  have O' : Orderly (t.setStatus e .running) cpus (some c) :=
    O.setStatus hlive (by decide) fun _ _ _ => .inl rfl
  have hother : ∀ c' e', c' ≠ c → (cpus c').cpuEnv = some e' → e' ≠ e := by
    rintro c' e' hn hc' rfl
    exact hn (honly c' hc')
  refine ⟨O'.free, O'.ids, fun c1 c2 e' h1 h2 => ?_, fun c' e' hc' => ?_⟩
  · by_cases hn1 : c1 = c <;> by_cases hn2 : c2 = c
    · rw [hn1, hn2]
    · subst hn1
      rw [update_self] at h1
      rw [update_of_ne hn2] at h2
      exact absurd (Option.some.inj h1).symm (hother c2 e' hn2 h2)
    · subst hn2
      rw [update_self] at h2
      rw [update_of_ne hn1] at h1
      exact absurd (Option.some.inj h2).symm (hother c1 e' hn1 h1)
    · rw [update_of_ne hn1] at h1
      rw [update_of_ne hn2] at h2
      exact O'.alone c1 c2 e' h1 h2
  · by_cases hn : c' = c
    · subst hn
      rw [update_self] at hc' ⊢
      cases hc'
      simp only [Table.setStatus, set_rows_self]
      exact ⟨by rintro ⟨⟩, fun _ => .inl rfl, hd, by rintro ⟨⟩, .inr rfl⟩
    · rw [update_of_ne hn] at hc' ⊢
      have h := O'.cpu c' e' hc'
      exact ⟨h.live, fun _ => h.active fun heq => hn (Option.some.inj heq).symm, h.dir, h.num,
        h.mode⟩

end Moves

namespace Table

/-- The first lines of `env_run`. -/
def suspend (t : Table) : Option EnvIx → Table
  | none => t
  | some cur => if (t.rows cur).status = .running then t.setStatus cur .runnable else t

end Table

/-- Nobody on the way out is disturbed: the dying and the free keep their status, and the
    processor does not run them. -/
def Undisturbed (t : Table) (c : CpuIx) (m : Machine) : Prop :=
  ∀ e, (t.rows e).status = .dying ∨ (t.rows e).status = .free →
    (m.kernel.table.rows e).status = (t.rows e).status ∧ m.curenv c ≠ some e

section Sections

variable {m m' : Machine} {c : CpuIx} {e cur : EnvIx} {l : Leave}

theorem Kernel.table_suspend (k : Kernel) (cur : Option EnvIx) :
    (k.suspend cur).table = k.table.suspend cur := by
  cases cur with
  | none => rfl
  | some cur =>
    rw [suspend, Table.suspend]
    by_cases hrun : (k.envs cur).envStatus = .running
    · rw [if_pos hrun, if_pos (show (k.table.rows cur).status = .running from hrun), table_setEnv]
      rfl
    · rw [if_neg hrun, if_neg (show ¬ (k.table.rows cur).status = .running from hrun)]

theorem Orderly.suspend {t : Table} {cpus : CpuIx → Cpu} (O : Orderly t cpus (some c)) :
    Orderly (t.suspend (cpus c).cpuEnv) cpus (some c) := by
  cases hc : (cpus c).cpuEnv with
  | none => exact O
  | some cur =>
    rw [Table.suspend]
    split
    · next hrun =>
      refine O.setStatus (by rw [hrun]; decide) (by decide) fun c' hc' hbusy => ?_
      exact absurd (congrArg some (O.alone c c' cur hc hc')) hbusy
    · exact O

theorem Table.suspend_status (t : Table) (cur : Option EnvIx) (e : EnvIx) :
    ((t.suspend cur).rows e).status = (t.rows e).status ∨
      (t.rows e).status = .running ∧ ((t.suspend cur).rows e).status = .runnable := by
  cases cur with
  | none => exact .inl rfl
  | some cur =>
    rw [suspend]
    split
    · next hrun =>
      by_cases he : e = cur
      · subst he
        exact .inr ⟨hrun, by simp [setStatus]⟩
      · exact .inl (by simp [setStatus, he])
    · exact .inl rfl

section

variable (O : Orderly m.kernel.table m.cpus (some c))
include O

theorem orderly_envRun
    (hlive : (m.kernel.table.rows e).status ≠ .free)
    (halive : (m.kernel.table.rows e).status ≠ .dying)
    (honly : ∀ c', m.curenv c' = some e → c' = c) (h : m.envRun c e = some m') :
    Orderly m'.kernel.table m'.cpus none ∧ Undisturbed m.kernel.table c m' := by
  obtain ⟨d, hd, h⟩ := bind_eq_some_iff.mp h
  cases h
  have htable : (m.kernel.envRun (m.curenv c) e).table =
      (m.kernel.table.suspend (m.curenv c)).setStatus e .running := by
    rw [envRun, table_setEnv, ← table_suspend]
    rfl
  have hd' : ((m.kernel.table.suspend (m.curenv c)).rows e).pgdir = some d := by
    have hrow : ((m.kernel.envRun (m.curenv c) e).table.rows e).pgdir = some d := hd
    rw [htable] at hrow
    simpa [setStatus] using hrow
  have hstatus := m.kernel.table.suspend_status (m.curenv c)
  have hlive' : ((m.kernel.table.suspend (m.curenv c)).rows e).status ≠ .free := by
    rcases hstatus e with heq | ⟨_, heq⟩
    · rw [heq]
      exact hlive
    · rw [heq]
      decide
  refine ⟨?_, fun e' he' => ?_⟩
  · show Orderly (m.kernel.envRun (m.curenv c) e).table _ none
    rw [htable]
    exact O.suspend.run hlive' hd' honly
  · have hne : e' ≠ e := by
      rintro rfl
      exact he'.elim halive hlive
    refine ⟨?_, ?_⟩
    · show ((m.kernel.envRun (m.curenv c) e).table.rows e').status = _
      rw [htable]
      rcases hstatus e' with heq | ⟨hrun, _⟩
      · simpa [setStatus, hne] using heq
      · rw [hrun] at he'
        simp at he'
    · simpa [Machine.curenv, Machine.setCpu] using hne.symm

theorem orderly_schedYield
    (hrace : NoRace m.kernel.table m.cpus c) (h : m.schedYield c = some m') :
    Orderly m'.kernel.table m'.cpus none ∧ Undisturbed m.kernel.table c m' := by
  rcases Machine.schedYield_cases h with ⟨e, hrunnable, h⟩ | ⟨hrunning, hnum, h⟩ | rfl
  · have hs : (m.kernel.table.rows e).status = .runnable := hrunnable
    refine orderly_envRun O (by rw [hs]; decide) (by rw [hs]; decide) (fun c' hc' => ?_) h
    -- a runnable environment is on no other processor
    by_contra hne
    have hact := (O.cpu c' e hc').active fun heq => hne (Option.some.inj heq).symm
    rw [hs] at hact
    simp [EnvStatus.Active] at hact
  · have hs : (m.kernel.table.rows (m.startid c)).status = .running := hrunning
    refine orderly_envRun O (by rw [hs]; decide) (by rw [hs]; decide) (fun c' hc' => ?_) h
    cases hc : m.curenv c with
    | some cur =>
      have hstart : m.startid c = cur := by
        rw [Machine.startid, hc]
        exact O.ids cur (O.cpu c cur hc).live
      rw [hstart] at hc'
      exact O.alone c' c cur hc' hc
    | none =>
      have hstart : m.startid c = 0 := by
        rw [Machine.startid, hc]
      rw [hstart] at hc' hnum
      rcases (O.cpu c' 0 hc').mode with hmode | hmode
      · exact Fin.ext (((O.cpu c' 0 hc').num hmode).symm.trans hnum)
      · exact hrace c' hmode hc' hnum
  · exact ⟨O.clear _ rfl none, fun e _ => ⟨rfl, by simp [Machine.curenv, Machine.setCpu]⟩⟩

theorem orderly_leave
    (hrace : NoRace m.kernel.table m.cpus c) (hc : m.curenv c = some cur) (hl : l ≠ .gone)
    (halive : (m.kernel.table.rows cur).status ≠ .dying) (h : m.leave c cur l = some m') :
    Orderly m'.kernel.table m'.cpus none ∧ Undisturbed m.kernel.table c m' := by
  have hrun : m.envRun c cur = some m' →
      Orderly m'.kernel.table m'.cpus none ∧ Undisturbed m.kernel.table c m' :=
    orderly_envRun O (O.cpu c cur hc).live halive fun c' hc' => O.alone c' c cur hc' hc
  cases l with
  | back =>
    rw [Machine.leave] at h
    split at h
    · exact hrun h
    · exact orderly_schedYield O hrace h
  | resume => exact hrun h
  | yield => exact orderly_schedYield O hrace h
  | gone => exact absurd rfl hl

end

/-- A whole section from a trap: order is kept, and what was dying is dying still or freed,
    and does not run. -/
theorem orderly_trap {tf : Trapframe} {t : Trap} (O : Orderly m.kernel.table m.cpus none)
    (hrace : NoRace m.kernel.table m.cpus c)
    (hspare : ∀ cur call dev, m.curenv c = some cur → t = .syscall call dev →
      m.kernel.SparesOthers cur call)
    (h : m.trap c tf t = some m') :
    Orderly m'.kernel.table m'.cpus none ∧ ∀ e, (m.kernel.table.rows e).status = .dying →
      ((m'.kernel.table.rows e).status = .dying ∨ (m'.kernel.table.rows e).status = .free) ∧
        m'.curenv c ≠ some e := by
  obtain ⟨cur, hc, h⟩ := bind_eq_some_iff.mp h
  obtain ⟨⟨k, l⟩, htrap, h⟩ := bind_eq_some_iff.mp h
  have hlive := (O.cpu c cur hc).live
  obtain ⟨hA, hdying⟩ := trapUser_alters (fun hs => hs) htrap
  have hE := hA.effect (hspare cur · · hc) hlive
  rcases hE with ⟨rfl, htable⟩ | ⟨hl, hmove⟩
  · -- the caller is gone, and the processor has none
    have O1 := (O.enter c).clear { m.cpus c with cpuEnv := none } rfl (some c)
    have hoff : ∀ c', (Function.update m.cpus c { m.cpus c with cpuEnv := none } c').cpuEnv ≠
        some cur := by
      intro c' hc'
      by_cases hne : c' = c
      · subst hne
        simp at hc'
      · rw [update_of_ne hne] at hc'
        exact hne (O.alone c' c cur hc' hc)
    have O2 := O1.release hlive hoff
    have hnum : ((m.kernel.table.release cur).rows 0).cpunum = (m.kernel.table.rows 0).cpunum := by
      by_cases hz : (0 : EnvIx) = cur
      · simp [Table.release, Table.set, ← hz]
      · simp [Table.release, Table.set, hz]
    have hrace2 : NoRace (m.kernel.table.release cur)
        (Function.update m.cpus c { m.cpus c with cpuEnv := none }) c :=
      hrace.of_eq hnum fun c' hne => update_of_ne hne ..
    rw [← htable] at O2 hrace2
    obtain ⟨O', hund⟩ := orderly_schedYield
      (m := (m.setKernel k).setCpu c { m.cpus c with cpuEnv := none }) O2 hrace2 h
    refine ⟨O', fun e he => ?_⟩
    have hmid : (k.table.rows e).status = .dying ∨ (k.table.rows e).status = .free := by
      rw [htable]
      by_cases hz : e = cur
      · subst hz
        exact .inr (by simp [Table.release, Table.set])
      · exact .inl (by simpa [Table.release, Table.set, hz] using he)
    obtain ⟨hstatus, hrun⟩ := hund e hmid
    exact ⟨by rw [hstatus]; exact hmid, hrun⟩
  · have hcur : (m.kernel.table.rows cur).status ≠ .dying := fun hd => hl (hdying hd)
    have O1 := (O.enter c).move hc hmove
    have hrace1 : NoRace k.table m.cpus c := hrace.of_eq (hmove.cpunum 0) fun _ _ => rfl
    obtain ⟨O', hund⟩ := orderly_leave (m := m.setKernel k) O1 hrace1 hc hl (hmove.alive hcur) h
    refine ⟨O', fun e he => ?_⟩
    have hkept := hmove.dying_kept hcur O.free he
    obtain ⟨hstatus, hrun⟩ := hund e (.inl hkept)
    exact ⟨.inl (hstatus.trans hkept), hrun⟩

theorem orderly_envPopTf (O : Orderly m.kernel.table m.cpus none) (h : m.envPopTf c = some m') :
    Orderly m'.kernel.table m'.cpus none ∧
      ∀ e, (m'.kernel.table.rows e).status = (m.kernel.table.rows e).status := by
  obtain ⟨cur, hc, h⟩ := bind_eq_some_iff.mp h
  cases h
  let t' := m.kernel.table.set cur { m.kernel.table.rows cur with cpunum := c.val }
  have htable : (m.kernel.setEnv cur fun env => { env with envCpunum := c.val }).table = t' :=
    table_setEnv _ cur _
  have hrow : ∀ e, e ≠ cur → t'.rows e = m.kernel.table.rows e :=
    fun e he => set_rows_of_ne _ _ _ _ he
  have hself : t'.rows cur = { m.kernel.table.rows cur with cpunum := c.val } :=
    set_rows_self _ _ _
  have hfield : ∀ e, (t'.rows e).status = (m.kernel.table.rows e).status ∧
      (t'.rows e).link = (m.kernel.table.rows e).link ∧
      (t'.rows e).id = (m.kernel.table.rows e).id := by
    intro e
    by_cases he : e = cur
    · subst he
      rw [hself]
      exact ⟨rfl, rfl, rfl⟩
    · rw [hrow e he]
      exact ⟨rfl, rfl, rfl⟩
  have hcpuEnv : ∀ c', (Function.update m.cpus c { m.cpus c with mode := .user } c').cpuEnv =
      (m.cpus c').cpuEnv := by
    intro c'
    by_cases hne : c' = c
    · subst hne
      simp
    · simp [hne]
  have hkeep : Orderly t' (Function.update m.cpus c { m.cpus c with mode := .user }) none := by
    refine ⟨O.free.of_eq rfl (fun e => (hfield e).2.1) (fun e => by rw [(hfield e).1]),
      fun e he => ?_, fun c1 c2 e h1 h2 => ?_, fun c' e hc' => ?_⟩
    · rw [(hfield e).1] at he
      rw [(hfield e).2.2]
      exact O.ids e he
    · rw [hcpuEnv] at h1 h2
      exact O.alone c1 c2 e h1 h2
    · rw [hcpuEnv] at hc'
      have h := O.cpu c' e hc'
      by_cases hne : c' = c
      · subst hne
        cases hc.symm.trans hc'
        rw [update_self, hself]
        exact ⟨h.live, h.active, h.dir, fun _ => rfl, .inl rfl⟩
      · have he : e ≠ cur := by
          rintro rfl
          exact hne (O.alone c' c e hc' hc)
        rw [update_of_ne hne, hrow e he]
        exact h
  refine ⟨?_, fun e => ?_⟩
  · show Orderly (m.kernel.setEnv cur fun env => { env with envCpunum := c.val }).table _ none
    rw [htable]
    exact hkeep
  · show ((m.kernel.setEnv cur fun env => { env with envCpunum := c.val }).table.rows e).status = _
    rw [htable]
    exact (hfield e).1

end Sections

/-! ### Runs -/

/-- The processor that takes the lock in a step. -/
def Label.enters : Label → Option CpuIx
  | .start c => some c
  | .trap c _ _ _ => some c
  | .wake c => some c
  | _ => none

/-- The system call made in a step. -/
def Label.call : Label → Option Call
  | .trap _ tf faultVa dev =>
    match Trap.decode tf faultVa dev with
    | .syscall c _ => some c
    | _ => none
  | _ => none

/-- A step whose system call spares the environments on other processors, taken by a
    processor that does not race with a store of `env_cpunum`. -/
def OrderlyStep (m : Machine) (l : Label) (m' : Machine) : Prop :=
  m.Step l m' ∧ ∀ c, l.enters = some c → NoRace m.kernel.table m.cpus c ∧
    ∀ cur call, m.curenv c = some cur → l.call = some call → m.kernel.SparesOthers cur call

section Runs

variable {m m' : Machine} {l : Label} {k k' : Kernel}

theorem orderly_step (O : Orderly m.kernel.table m.cpus none) (h : OrderlyStep m l m') :
    Orderly m'.kernel.table m'.cpus none ∧ ∀ e, (m.kernel.envs e).envStatus = .dying →
      ((m'.kernel.envs e).envStatus = .dying ∨ (m'.kernel.envs e).envStatus = .free) ∧
        ∀ c, l.enters = some c → m'.curenv c ≠ some e := by
  obtain ⟨hstep, hok⟩ := h
  -- a processor that only schedules
  have hsched : ∀ c, l.enters = some c → m.schedYield c = some m' →
      Orderly m'.kernel.table m'.cpus none ∧ ∀ e, (m.kernel.envs e).envStatus = .dying →
        ((m'.kernel.envs e).envStatus = .dying ∨ (m'.kernel.envs e).envStatus = .free) ∧
          ∀ c, l.enters = some c → m'.curenv c ≠ some e := by
    intro c hc h
    obtain ⟨O', hund⟩ := orderly_schedYield (O.enter c) (hok c hc).1 h
    refine ⟨O', fun e he => ?_⟩
    obtain ⟨hstatus, hrun⟩ := hund e (.inl he)
    refine ⟨.inl (hstatus.trans he), fun c' hc' => ?_⟩
    cases hc.symm.trans hc'
    exact hrun
  cases l with
  | start c =>
    simp only [Machine.Step, Machine.step, ite_none_right_eq_some] at hstep
    exact hsched c rfl hstep.2
  | wake c =>
    simp only [Machine.Step, Machine.step, ite_none_right_eq_some] at hstep
    exact hsched c rfl hstep.2
  | pop c =>
    simp only [Machine.Step, Machine.step, ite_none_right_eq_some] at hstep
    obtain ⟨O', hstatus⟩ := orderly_envPopTf O hstep.2
    exact ⟨O', fun e he => ⟨.inl ((hstatus e).trans he), nofun⟩⟩
  | trap c tf faultVa dev =>
    simp only [Machine.Step, Machine.step, ite_none_right_eq_some] at hstep
    obtain ⟨hrace, hspare⟩ := hok c rfl
    obtain ⟨O', hdying⟩ := orderly_trap O hrace (fun cur call dev' hcur ht =>
      hspare cur call hcur (by rw [Label.call, ht])) hstep.2
    refine ⟨O', fun e he => ⟨(hdying e he).1, fun c' hc' => ?_⟩⟩
    cases hc'
    exact (hdying e he).2
  | store c va b =>
    simp only [Machine.Step, Machine.step, ite_none_right_eq_some, Option.map_eq_some_iff] at hstep
    obtain ⟨_, s, _, rfl⟩ := hstep
    exact ⟨O, fun e he => ⟨.inl he, nofun⟩⟩

theorem envInitLoop_field {α : Type*} (g : Env → α)
    (hg : ∀ env link, g { env with envLink := link } = g env) (k : Kernel) (js : List EnvIx)
    (e : EnvIx) : g ((k.envInitLoop js).envs e) = g Env.blank := by
  induction js with
  | nil => rfl
  | cons j js ih =>
    rw [← ih]
    exact setEnv_field g (fun env => hg env _) (k.envInitLoop js) j e

/-- When the kernel is up and no processor has an environment, all is in order. -/
theorem orderly_boot {s0 : Pmap} {nic : E1000} {b x n : ℕ} (h : Kernel.boot s0 nic b x n = some k)
    {cpus : CpuIx → Cpu} (hcpus : ∀ c, (cpus c).cpuEnv = none) : Orderly k.table cpus none := by
  have hnone : ∀ {P : Prop} {c e}, (cpus c).cpuEnv = some e → P := by
    intro P c e hc
    rw [hcpus c] at hc
    cases hc
  obtain ⟨s, _, h⟩ := bind_eq_some_iff.mp h
  refine forUpTo_preserves (fun k => Orderly k.table cpus none) ?_ (fun i k1 k2 halloc O => ?_) h
  · have hloop : ∀ js : List EnvIx, js.Nodup → (∀ e, e ∈ js) →
        Orderly (envInitLoop ⟨s, fun _ => Env.blank, none, nic⟩ js).table cpus none := by
      intro js hjs hall
      have hfree := envInitLoop_field Env.envStatus (fun _ _ => rfl)
        ⟨s, fun _ => Env.blank, none, nic⟩ js
      exact ⟨⟨js, (envInitLoop_spec _ hjs).1, fun e => ⟨fun _ => hfree e, fun _ => hall e⟩⟩,
        fun e he => absurd (hfree e) he, fun _ _ _ hc => hnone hc, fun _ _ hc => hnone hc⟩
    exact hloop _ (List.nodup_finRange 1024) List.mem_finRange
  · rw [Option.map_eq_some_iff] at halloc
    obtain ⟨⟨k', r⟩, halloc, rfl⟩ := halloc
    rcases envAlloc_table halloc with ⟨_, heq⟩ | ⟨e, d, _, hhead, heq⟩
    · rw [heq]
      exact O
    · rw [heq]
      exact O.alloc hhead (.inl rfl)

end Runs

/-- **The life cycle of environments, if processors spare each other.** In every state
    reached: no environment is on two processors; one that is on a processor is not on the
    free list and its page directory is the one in `%cr3`; the free list has exactly the free
    environments, each once; and an orderly step from there leaves what is dying dying or
    frees it, and does not run it. -/
theorem env_life_cycle {s₀ : Pmap} {nic : E1000} {b x n ncpu : ℕ} {k : Kernel} {m : Machine}
    {ls : List Label} (hboot : Kernel.boot s₀ nic b x n = some k)
    (hrun : Run OrderlyStep (.ofKernel k ncpu) ls m) :
    (∀ c c' e, m.curenv c = some e → m.curenv c' = some e → c = c') ∧
    (∀ c e, m.curenv c = some e → ¬ Reach m.kernel.envLink m.kernel.envFreeList e ∧
      m.kernel.dirs e = some (m.cpus c).cr3) ∧
    (∃ le : List EnvIx, le.Nodup ∧ Chain m.kernel.envLink m.kernel.envFreeList le ∧
      ∀ e, e ∈ le ↔ (m.kernel.envs e).envStatus = .free) ∧
    ∀ l m' e, OrderlyStep m l m' → (m.kernel.envs e).envStatus = .dying →
      ((m'.kernel.envs e).envStatus = .dying ∨ (m'.kernel.envs e).envStatus = .free) ∧
        ∀ c, l.enters = some c → m'.curenv c ≠ some e := by
  have O : Orderly m.kernel.table m.cpus none :=
    hrun.invariant (fun m => Orderly m.kernel.table m.cpus none)
      (orderly_boot hboot fun _ => rfl) fun _ _ _ O hs => (orderly_step O hs).1
  obtain ⟨le, hchain, hmem⟩ := O.free
  refine ⟨O.alone, fun c e hc => ⟨fun hreach => ?_, (O.cpu c e hc).dir⟩,
    ⟨le, hchain.nodup, hchain, hmem⟩, fun l m' e hs he => (orderly_step O hs).2 e he⟩
  exact (O.cpu c e hc).live ((hmem e).mp (hchain.reach_iff.mp hreach))

/-- Two processors schedule one environment each and go to user mode. -/
theorem env_life_cycle_two : ∃ (k : Kernel) (m : Machine),
    Kernel.boot (.blank 8 1) E1000.blank 1 3 2 = some k ∧
    Run OrderlyStep (.ofKernel k 2) [.start 0, .pop 0, .start 1, .pop 1] m ∧
      (m.curenv 0 = some 0 ∧ m.kernel.dirs 0 = some (m.cpus 0).cr3) ∧
      m.curenv 1 = some 1 ∧ m.kernel.dirs 1 = some (m.cpus 1).cr3 := by
  obtain ⟨k, hk, m₁, hm₁, m₂, hm₂, hmode, m₃, hm₃, m, hm, hcur, hcur'⟩ :
      ∃ k ∈ boot (.blank 8 1) E1000.blank 1 3 2,
        ∃ m₁ ∈ (Machine.ofKernel k 2).step (.start 0), ∃ m₂ ∈ m₁.step (.pop 0),
        (∀ c, (m₂.cpus c).mode ≠ .leaving) ∧ ∃ m₃ ∈ m₂.step (.start 1), ∃ m ∈ m₃.step (.pop 1),
          m.curenv 0 = some 0 ∧ m.curenv 1 = some 1 := by
    decide +kernel
  have hstart : OrderlyStep (.ofKernel k 2) (.start 0) m₁ :=
    ⟨hm₁, fun c _ => ⟨fun c' _ hc' _ => (by cases hc'), fun _ _ _ hcall => (by cases hcall)⟩⟩
  have hpop : OrderlyStep m₁ (.pop 0) m₂ := ⟨hm₂, nofun⟩
  have hstart' : OrderlyStep m₂ (.start 1) m₃ :=
    ⟨hm₃, fun c _ => ⟨fun c' hc' => absurd hc' (hmode c'), fun _ _ _ hcall => (by cases hcall)⟩⟩
  have hpop' : OrderlyStep m₃ (.pop 1) m := ⟨hm, nofun⟩
  have hrun := (((Run.single hstart).snoc hpop).snoc hstart').snoc hpop'
  have hdir := (env_life_cycle hk hrun).2.1
  exact ⟨k, m, hk, hrun, ⟨hcur, (hdir 0 0 hcur).2⟩, hcur', (hdir 1 1 hcur').2⟩

/-- A system call of the program on a processor. -/
def Label.forCall (c : CpuIx) (no a1 a2 a3 a4 a5 : Word) : Label :=
  .trap c (.forCall no a1 a2 a3 a4 a5) 0 0

/-- Environment 0 makes a child and lets it run; it runs on the second processor. Made
    runnable by environment 0 once more, it is run by the first one as well when environment 0
    yields. -/
theorem set_status_runs_twice : ∃ (k : Kernel) (m : Machine) (ls : List Label),
    Kernel.tiny = some k ∧ Run Machine.Step (.ofKernel k 2) ls m ∧
      m.curenv 0 = some 1 ∧ m.curenv 1 = some 1 := by
  let setRunnable : Label := .forCall 0 8#32 0x1001#32 envRunnable 0 0 0
  let ls : List Label := [.start 0, .pop 0, .forCall 0 7#32 0 0 0 0 0, .pop 0, setRunnable, .pop 0,
    .start 1, .pop 1, setRunnable, .pop 0, .forCall 0 11#32 0 0 0 0 0]
  obtain ⟨k, hk, m, hm, h0, h1⟩ : ∃ k ∈ tiny, ∃ m ∈ (Machine.ofKernel k 2).steps ls,
      m.curenv 0 = some 1 ∧ m.curenv 1 = some 1 := by
    decide +kernel
  exact ⟨k, m, ls, hk, Machine.run_of_steps hm, h0, h1⟩

end LinuxStudy.Jos
