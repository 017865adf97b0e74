import LinuxStudy.Jos.System

/-!
# Processors, traps and the scheduler

The trap handler of `kern/trap.c`, the scheduler of `kern/sched.c` and the part of
`kern/env.c` that belongs to a processor. Up to eight processors take the big kernel lock in
turn, so a section under the lock is one step. What a processor does after `unlock_kernel`
is a step of its own: `env_pop_tf` stores `env_cpunum` without the lock.

The kernel monitor does nothing to the state when it is entered from a breakpoint; from
`sched_halt` it is never left, and the section has no end. The environment table and the
processors are data of the kernel: it reaches them through mappings above `UTOP`, which
`KernelHalf` is about.
-/

namespace LinuxStudy.Jos

/-! ### Traps -/

/-- A trap from user mode, by what `trap_dispatch` does with it. -/
inductive Trap
  | pageFault (faultVa : Word)
  | syscall (c : Call) (dev : Int)
  | timer
  /-- A breakpoint, a device interrupt or an unknown system call. -/
  | ignored
  | unexpected
  deriving DecidableEq, Repr

/-- The numbers of `inc/trap.h`; `faultVa` is `%cr2` and `dev` what the devices will say. -/
def Trap.decode (tf : Trapframe) (faultVa : Word) (dev : Int) : Trap :=
  match tf.tfTrapno.toNat with
  | 14 => .pageFault faultVa
  | 3 => .ignored
  | 48 =>
    match Jos.decode tf.tfRegs.regEax tf.tfRegs.regEdx tf.tfRegs.regEcx tf.tfRegs.regEbx
        tf.tfRegs.regEdi tf.tfRegs.regEsi with
    | none => .ignored
    | some c => .syscall c dev
  | 39 => .ignored
  | 32 => .timer
  | 33 => .ignored
  | 36 => .ignored
  | _ => .unexpected

/-- The registers with which a program makes a system call. -/
def Trapframe.forCall (no a1 a2 a3 a4 a5 : Word) : Trapframe :=
  { Trapframe.user with
    tfTrapno := 48#32
    tfRegs := { Trapframe.user.tfRegs with
      regEax := no, regEdx := a1, regEcx := a2, regEbx := a3, regEdi := a4, regEsi := a5 } }

/-- How a section under the lock goes on after the trap has been dealt with. -/
inductive Leave
  /-- Back in `trap`, which looks at the status of `curenv`. -/
  | back
  /-- `env_run(curenv)`. -/
  | resume
  /-- `sched_yield()`. -/
  | yield
  /-- `curenv = NULL` and `sched_yield()`. -/
  | gone
  deriving DecidableEq, Repr

def Outcome.leave : Outcome → Leave
  | .ret _ _ => .back
  | .yield _ => .yield
  | .exit _ => .gone

/-- `sizeof(struct UTrapframe)`. -/
def utrapframeSize : Word := 52#32

def pushRegsBytes (r : PushRegs) : List Byte :=
  wordBytes r.regEdi ++ wordBytes r.regEsi ++ wordBytes r.regEbp ++ wordBytes r.regOesp ++
    wordBytes r.regEbx ++ wordBytes r.regEdx ++ wordBytes r.regEcx ++ wordBytes r.regEax

/-- Where `page_fault_handler` puts the frame: below the stack pointer when that is on the
    exception stack, with a word to spare, and at the top of it otherwise. -/
def utfAddr (esp : Word) : Word :=
  if uxstacktop - 4096#32 ≤ esp ∧ esp ≤ uxstacktop - 1#32 then esp - 4#32 - utrapframeSize
  else uxstacktop - utrapframeSize

namespace Pmap

/-- The stores through `utf`, in the order of the source. -/
def storeUtf (s : Pmap) (cr3 : ℕ) (utf : Word) (tf : Trapframe) (faultVa : Word) :
    Logged Access Pmap :=
  (s.storeBytes cr3 (utf + 48#32) (wordBytes tf.tfEsp)).bind fun s =>
  (s.storeBytes cr3 (utf + 44#32) (wordBytes tf.tfEflags)).bind fun s =>
  (s.storeBytes cr3 (utf + 40#32) (wordBytes tf.tfEip)).bind fun s =>
  (s.storeBytes cr3 (utf + 8#32) (pushRegsBytes tf.tfRegs)).bind fun s =>
  (s.storeBytes cr3 (utf + 4#32) (wordBytes tf.tfErr)).bind fun s =>
  s.storeBytes cr3 utf (wordBytes faultVa)

end Pmap

namespace Kernel

variable (k : Kernel) (curenv : EnvIx) (cr3 : ℕ)

/-- `env_destroy(curenv)`, which does not return. -/
def destroyCurenv : Logged Access (Kernel × Leave) :=
  .lift ((k.envDestroy (some curenv) curenv).map fun (k, _) => (k, .gone))

/-- `page_fault_handler`, for a fault in user mode. -/
def pageFaultHandler (tf : Trapframe) (faultVa : Word) : Logged Access (Kernel × Leave) :=
  let upcall := (k.envs curenv).envPgfaultUpcall
  if upcall = 0#32 then k.destroyCurenv curenv
  else
    let utf := utfAddr tf.tfEsp
    (Logged.lift (k.userMemAssert curenv curenv utf 1#32 pteW)).bind fun (k, gone) =>
      if gone then .pure (k, .gone)
      else (k.pmap.storeUtf cr3 utf tf faultVa).bind fun s =>
        .pure ((k.setPmap s).setEnv curenv fun env =>
          { env with envTf := { env.envTf with tfEip := upcall, tfEsp := utf } }, .resume)

/-- `trap`, from user mode and up to the choice of what runs next. -/
def trapUser (tf : Trapframe) (t : Trap) : Logged Access (Kernel × Leave) :=
  if (k.envs curenv).envStatus = .dying then
    .lift ((k.envFree curenv).map fun k => (k, .gone))
  else
    match t with
    | .syscall c dev => (k.trapSyscall curenv cr3 dev tf c).map fun o => (o.kernel, o.leave)
    | .pageFault faultVa => (k.saveTf curenv tf).pageFaultHandler curenv cr3 tf faultVa
    | .timer => .pure (k.saveTf curenv tf, .yield)
    | .ignored => .pure (k.saveTf curenv tf, .back)
    | .unexpected => (k.saveTf curenv tf).destroyCurenv curenv

end Kernel

/-! ### Processors -/

/-- `NCPU` processors. -/
abbrev CpuIx := Fin 8

instance instNeZeroCpuIx : NeZero 8 := ⟨by decide⟩

/-- Where a processor is; `cpu_status` is `CPU_UNUSED`, `CPU_HALTED`, and otherwise
    `CPU_STARTED`. -/
inductive CpuMode
  | unused
  /-- About to call `sched_yield` for the first time. -/
  | starting
  /-- In `env_run`, with the lock released and `env_cpunum` not yet stored. -/
  | leaving
  | user
  | halted
  deriving DecidableEq, Repr

structure Cpu where
  mode : CpuMode
  cpuEnv : Option EnvIx
  /-- The frame of the page directory in `%cr3`. -/
  cr3 : ℕ
  deriving DecidableEq, Repr

structure Machine where
  kernel : Kernel
  cpus : CpuIx → Cpu

inductive Label
  /-- The end of `i386_init` or `mp_main`. -/
  | start (c : CpuIx)
  /-- `env_pop_tf`. -/
  | pop (c : CpuIx)
  /-- A trap from user mode. -/
  | trap (c : CpuIx) (tf : Trapframe) (faultVa : Word) (dev : Int)
  /-- An interrupt that ends the halt. -/
  | wake (c : CpuIx)
  /-- A store by the program that runs. -/
  | store (c : CpuIx) (va : Word) (b : Byte)

namespace Machine

variable (m : Machine) (c : CpuIx)

/-- `curenv` on a processor. -/
def curenv : Option EnvIx := (m.cpus c).cpuEnv

def setCpu (cpu : Cpu) : Machine := { m with cpus := Function.update m.cpus c cpu }

def setKernel (k : Kernel) : Machine := { m with kernel := k }

/-- `env_run`. The address of a missing page directory has no physical address. -/
def envRun (e : EnvIx) : Option Machine :=
  let k := m.kernel.envRun (m.curenv c) e
  (k.dirs e).bind fun pgdir =>
    some ((m.setKernel k).setCpu c { mode := .leaving, cpuEnv := some e, cr3 := pgdir })

/-- `sched_halt`; with nothing left to run it stays in the monitor. -/
def schedHalt : Option Machine :=
  if ∃ e, (m.kernel.envs e).envStatus = .runnable ∨ (m.kernel.envs e).envStatus = .running ∨
      (m.kernel.envs e).envStatus = .dying then
    some (m.setCpu c { mode := .halted, cpuEnv := none, cr3 := m.kernel.pmap.kernPgdir })
  else none

/-- Where `sched_yield` starts to look. -/
def startid : EnvIx :=
  match m.curenv c with
  | some now => envx (m.kernel.envs now).envId
  | none => 0

/-- The loop of `sched_yield`. -/
def nextRunnable : Option EnvIx :=
  ((List.range nenv).map fun i => m.startid c + Fin.ofNat 1024 i).find? fun e =>
    (m.kernel.envs e).envStatus = .runnable

def schedYield : Option Machine :=
  match m.nextRunnable c with
  | some e => m.envRun c e
  | none =>
    let e := m.startid c
    if (m.kernel.envs e).envStatus = .running ∧ (m.kernel.envs e).envCpunum = c.val then
      m.envRun c e
    else m.schedHalt c

/-- The end of a section under the lock. -/
def leave (cur : EnvIx) : Leave → Option Machine
  | .back =>
    if (m.kernel.envs cur).envStatus = .running then m.envRun c cur else m.schedYield c
  | .resume => m.envRun c cur
  | .yield => m.schedYield c
  | .gone => (m.setCpu c { m.cpus c with cpuEnv := none }).schedYield c

/-- A whole section under the lock, from a trap in user mode. -/
def trap (tf : Trapframe) (t : Trap) : Option Machine :=
  (m.curenv c).bind fun cur =>
    (m.kernel.trapUser cur (m.cpus c).cr3 tf t).2.bind fun (k, l) => (m.setKernel k).leave c cur l

/-- `env_pop_tf`: the store, and into user mode. -/
def envPopTf : Option Machine :=
  (m.curenv c).bind fun cur =>
    some ((m.setKernel (m.kernel.setEnv cur fun env => { env with envCpunum := c.val })).setCpu c
      { m.cpus c with mode := .user })

/-- The transitions; `none` if the label does not apply or the kernel does not come back. -/
def step (m : Machine) : Label → Option Machine
  | .start c => if (m.cpus c).mode = .starting then m.schedYield c else none
  | .pop c => if (m.cpus c).mode = .leaving then m.envPopTf c else none
  | .trap c tf faultVa dev =>
    if (m.cpus c).mode = .user then m.trap c tf (.decode tf faultVa dev) else none
  | .wake c => if (m.cpus c).mode = .halted then m.schedYield c else none
  | .store c va b =>
    if (m.cpus c).mode = .user ∧ va < utop then
      (m.kernel.pmap.storeByte (m.cpus c).cr3 va b).2.map fun s => m.setKernel (m.kernel.setPmap s)
    else none

def Step (m : Machine) (l : Label) (m' : Machine) : Prop := m.step l = some m'

/-- Several steps, as a function. -/
def steps (m : Machine) : List Label → Option Machine
  | [] => some m
  | l :: ls => (m.step l).bind fun m => m.steps ls

/-- The machine when the kernel is up: `ncpu` processors are about to schedule. -/
def ofKernel (k : Kernel) (ncpu : ℕ) : Machine where
  kernel := k
  cpus c := { mode := if c.val < ncpu then .starting else .unused, cpuEnv := none,
              cr3 := k.pmap.kernPgdir }

variable {m m' : Machine} {c : CpuIx}

theorem run_of_steps {ls : List Label} (h : m.steps ls = some m') : Run Step m ls m' := by
  induction ls generalizing m with
  | nil =>
    obtain rfl := Option.some.inj h
    exact Run.nil m
  | cons l ls ih =>
    obtain ⟨m1, hstep, h⟩ := Option.bind_eq_some_iff.mp h
    exact (Run.snoc (Run.nil m) hstep).append (ih h)

/-! ### What the scheduler does -/

/-- `sched_yield` runs a runnable environment, the one it starts at if that is running here,
    or halts the processor. -/
theorem schedYield_cases (h : m.schedYield c = some m') :
    (∃ e, (m.kernel.envs e).envStatus = .runnable ∧ m.envRun c e = some m') ∨
    ((m.kernel.envs (m.startid c)).envStatus = .running ∧
      (m.kernel.envs (m.startid c)).envCpunum = c.val ∧ m.envRun c (m.startid c) = some m') ∨
    m' = m.setCpu c { mode := .halted, cpuEnv := none, cr3 := m.kernel.pmap.kernPgdir } := by
  unfold schedYield at h
  split at h
  · next e hnext =>
    exact .inl ⟨e, by simpa using List.find?_some hnext, h⟩
  · dsimp only at h
    split at h
    · next hrunning => exact .inr (.inl ⟨hrunning.1, hrunning.2, h⟩)
    · unfold schedHalt at h
      split at h
      · exact .inr (.inr (Option.some.inj h).symm)
      · cases h

theorem envRun_memory {e : EnvIx} (h : m.envRun c e = some m') :
    m'.kernel.pmap = m.kernel.pmap ∧ m'.kernel.dirs = m.kernel.dirs := by
  obtain ⟨_, _, h⟩ := Option.bind_eq_some_iff.mp h
  cases h
  obtain ⟨hag, hm⟩ := Kernel.Agree.envRun m.kernel (m.curenv c) e
  exact ⟨hm, hag.dirs⟩

theorem schedYield_memory (h : m.schedYield c = some m') :
    m'.kernel.pmap = m.kernel.pmap ∧ m'.kernel.dirs = m.kernel.dirs := by
  rcases schedYield_cases h with ⟨e, _, h⟩ | ⟨_, _, h⟩ | rfl
  · exact envRun_memory h
  · exact envRun_memory h
  · exact ⟨rfl, rfl⟩

theorem leave_memory {cur : EnvIx} {l : Leave} (h : m.leave c cur l = some m') :
    m'.kernel.pmap = m.kernel.pmap ∧ m'.kernel.dirs = m.kernel.dirs := by
  cases l with
  | back =>
    rw [leave] at h
    split at h
    · exact envRun_memory h
    · exact schedYield_memory h
  | resume =>
    exact envRun_memory h
  | yield =>
    rw [leave] at h
    exact schedYield_memory h
  | gone =>
    rw [leave] at h
    obtain ⟨hpmap, hdirs⟩ := schedYield_memory h
    exact ⟨hpmap, hdirs⟩

theorem envPopTf_memory (h : m.envPopTf c = some m') :
    m'.kernel.pmap = m.kernel.pmap ∧ m'.kernel.dirs = m.kernel.dirs := by
  obtain ⟨cur, _, h⟩ := Option.bind_eq_some_iff.mp h
  cases h
  have hag := Kernel.Agree.setEnv m.kernel cur
    (f := fun env => { env with envCpunum := c.val }) (fun _ => rfl) fun _ => rfl
  exact ⟨rfl, hag.dirs⟩

end Machine

end LinuxStudy.Jos
