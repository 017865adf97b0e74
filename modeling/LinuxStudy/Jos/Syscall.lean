import LinuxStudy.Jos.Env

/-!
# System calls of `kern/syscall.c`

Every system call, with the checks in the order of the source. `curenv` is the calling
environment and `cr3` the page directory the processor runs on. A call ends in an `Outcome`:
it returns to the trap handler, it gives up the processor, or the caller is gone. A call
without an outcome has run into a failed assertion or a page fault in kernel mode. Bytes
touched through pointer arguments are in the log. `cons_getc` and `time_msec` read devices;
what they return is a parameter.
-/

namespace LinuxStudy.Jos

inductive Outcome
  /-- The call returns `r`. -/
  | ret (r : Int) (k : Kernel)
  /-- The caller gives up the processor. -/
  | yield (k : Kernel)
  /-- The caller was destroyed. -/
  | exit (k : Kernel)

def Outcome.kernel : Outcome → Kernel
  | .ret _ k => k
  | .yield k => k
  | .exit k => k

@[simp] theorem Outcome.kernel_ret (r : Int) (k : Kernel) : (Outcome.ret r k).kernel = k := rfl

@[simp] theorem Outcome.kernel_yield (k : Kernel) : (Outcome.yield k).kernel = k := rfl

/-- `ENV_RUNNABLE` and `ENV_NOT_RUNNABLE` of `inc/env.h`. -/
def envRunnable : Word := 2#32
def envNotRunnable : Word := 4#32

namespace Kernel

variable (k : Kernel) (curenv : EnvIx)

/-- `user_mem_assert`; the flag says that the current environment is gone. -/
def userMemAssert (e : EnvIx) (va len perm : Word) : Option (Kernel × Bool) :=
  (k.pmap.userMemCheck (k.dirs e) va len (perm ||| pteU)).bind fun bad =>
    match bad with
    | none => some (k, false)
    | some _ => k.envDestroy (some curenv) e

/-- The loop of `vprintfmt` for `%s`. The last byte looked at is not printed when the
    precision runs out first. Memory without a zero byte is read for ever. -/
def putString (s : Pmap) (cr3 : ℕ) : ℕ → Int → Word → Logged Access Unit
  | 0, _, _ => .lift none
  | fuel + 1, precision, p => (s.loadByte cr3 p).bind fun ch =>
      if ch = 0 then .pure ()
      else if precision < 0 then putString s cr3 fuel precision (p + 1)
      else if 0 ≤ precision - 1 then putString s cr3 fuel (precision - 1) (p + 1)
      else .pure ()

/-- `cprintf("%.*s", len, s)`; a null pointer prints a string of the kernel's own. -/
def cprintfString (pmap : Pmap) (cr3 : ℕ) (s len : Word) : Logged Access Unit :=
  if s = 0#32 then .pure () else putString pmap cr3 (2 ^ 32 + 1) len.toInt s

/-- `sys_cputs`, and `sys_cgetc`, into which its `case` falls through. -/
def sysCputs (cr3 : ℕ) (dev : Int) (s len : Word) : Logged Access Outcome :=
  (Logged.lift (k.userMemAssert curenv curenv s len (pteP ||| pteU))).bind fun (k, gone) =>
    if gone then .pure (.exit k)
    else (cprintfString k.pmap cr3 s len).bind fun _ => .pure (.ret dev k)

def sysGetenvid : Outcome := .ret (k.envs curenv).envId.toInt k

def sysEnvDestroy (envid : Word) : Option Outcome :=
  match k.envid2env curenv envid true with
  | none => some (.ret (-eBadEnv) k)
  | some e => (k.envDestroy (some curenv) e).bind fun (k, gone) =>
      some (if gone then .exit k else .ret 0 k)

/-- The registers `sys_exofork` gives the child: the parent's, returning 0. -/
def forkTf (tf : Trapframe) : Trapframe := { tf with tfRegs := { tf.tfRegs with regEax := 0 } }

def sysExofork : Option Outcome :=
  (k.envAlloc (k.envs curenv).envId).bind fun (k, r) =>
    match r with
    | .error r => some (.ret r k)
    | .ok e =>
      let k := k.setEnv e fun env =>
        { env with envStatus := .notRunnable, envTf := forkTf (k.envs curenv).envTf }
      some (.ret (k.envs e).envId.toInt k)

def sysEnvSetStatus (envid status : Word) : Outcome :=
  if status ≠ envRunnable ∧ status ≠ envNotRunnable then .ret (-eInval) k
  else
    match k.envid2env curenv envid true with
    | none => .ret (-eBadEnv) k
    | some e => .ret 0 (k.setEnv e fun env =>
        { env with envStatus := if status = envRunnable then .runnable else .notRunnable })

/-- The stores of `sys_env_set_trapframe` through `tf`, and the copy of the frame. -/
def fixTrapframe (s : Pmap) (cr3 : ℕ) (tf : Word) : Logged Access (Pmap × Trapframe) :=
  let eflags := tf + 56#32
  let cs := tf + 52#32
  (s.loadBytes cr3 4 eflags).bind fun b =>
  (s.storeBytes cr3 eflags (wordBytes (word b 0 &&& ~~~flIoplMask))).bind fun s =>
  (s.loadBytes cr3 4 eflags).bind fun b =>
  (s.storeBytes cr3 eflags (wordBytes (word b 0 ||| flIf))).bind fun s =>
  (s.loadBytes cr3 2 cs).bind fun b =>
  (s.storeBytes cr3 cs (halfBytes (half b 0 ||| (gdUt ||| 3)))).bind fun s =>
  (s.loadBytes cr3 trapframeSize tf).bind fun b => .pure (s, Trapframe.ofBytes b)

/-- `sys_env_set_trapframe`. The address is checked for the target, not for the caller, and
    when the target is destroyed for it the call goes on. -/
def sysEnvSetTrapframe (cr3 : ℕ) (envid tf : Word) : Logged Access Outcome :=
  match k.envid2env curenv envid true with
  | none => .pure (.ret (-eBadEnv) k)
  | some e =>
    (Logged.lift (k.userMemAssert curenv e tf (BitVec.ofNat 32 trapframeSize) pteU)).bind
      fun (k, gone) =>
        if gone then .pure (.exit k)
        else (fixTrapframe k.pmap cr3 tf).bind fun (s, frame) =>
          .pure (.ret 0 ((k.setPmap s).setEnv e fun env => { env with envTf := frame }))

def sysEnvSetPgfaultUpcall (envid func : Word) : Outcome :=
  match k.envid2env curenv envid true with
  | none => .ret (-eBadEnv) k
  | some e => .ret 0 (k.setEnv e fun env => { env with envPgfaultUpcall := func })

/-- The tests on an address and on permissions that the page calls share. -/
def badVa (va : Word) : Prop := ¬ va < utop ∨ pgoff va ≠ 0#32
def badPerm (perm : Word) : Prop := perm &&& pteSyscall = 0#32 ∨ has perm (~~~pteSyscall)

instance (va : Word) : Decidable (badVa va) := inferInstanceAs (Decidable (_ ∨ _))
instance (perm : Word) : Decidable (badPerm perm) := inferInstanceAs (Decidable (_ ∨ _))

/-- `sys_page_alloc`. When `page_insert` fails the page just allocated is not given back. -/
def sysPageAlloc (envid va perm : Word) : Option Outcome :=
  match k.envid2env curenv envid true with
  | none => some (.ret (-eBadEnv) k)
  | some e =>
    if badVa va then some (.ret (-eInval) k)
    else if badPerm perm then some (.ret (-eInval) k)
    else (k.pmap.pageAlloc true).bind fun (s, pp) =>
      match pp with
      | none => some (.ret (-eNoMem) (k.setPmap s))
      | some pp => (s.pageInsert (k.dirs e) pp va perm).bind fun (s, r) =>
          some (.ret (if r < 0 then -eNoMem else 0) (k.setPmap s))

def sysPageMap (srcenvid srcva dstenvid dstva perm : Word) : Option Outcome :=
  match k.envid2env curenv srcenvid true, k.envid2env curenv dstenvid true with
  | some src, some dst =>
    if badVa srcva ∨ badVa dstva then some (.ret (-eInval) k)
    else if badPerm perm then some (.ret (-eInval) k)
    else (k.pmap.pageLookup (k.dirs src) srcva).bind fun found =>
      match found with
      | none => some (.ret (-eInval) k)
      | some (pp, pte) =>
        if has perm pteW ∧ ¬ has (k.pmap.mem pte.1 pte.2) pteW then some (.ret (-eInval) k)
        else (k.pmap.pageInsert (k.dirs dst) pp dstva perm).bind fun (s, r) =>
          some (.ret (if r < 0 then -eNoMem else 0) (k.setPmap s))
  | _, _ => some (.ret (-eBadEnv) k)

def sysPageUnmap (envid va : Word) : Option Outcome :=
  match k.envid2env curenv envid true with
  | none => some (.ret (-eBadEnv) k)
  | some e =>
    if badVa va then some (.ret (-eInval) k)
    else (k.pmap.pageRemove (k.dirs e) va).bind fun s => some (.ret 0 (k.setPmap s))

/-- The page transfer of `sys_ipc_try_send`: a negative result is returned to the sender. A
    receiver is taken to want a page whenever its `env_ipc_dstva` is not null. -/
def ipcTransfer (dst : EnvIx) (srcva perm : Word) : Option (Kernel × Int) :=
  if ¬ srcva < utop then some (k, 0)
  else if pgoff srcva ≠ 0#32 then some (k, -eInval)
  else if ¬ has perm pteP ∨ ¬ has perm pteU then some (k, -eInval)
  else if has perm (~~~pteSyscall) then some (k, -eInval)
  else (k.pmap.pageLookup (k.dirs curenv) srcva).bind fun found =>
    match found with
    | none => some (k, -eInval)
    | some (pp, pte) =>
      if has perm pteW ∧ ¬ has (k.pmap.mem pte.1 pte.2) pteW then some (k, -eInval)
      else if (k.envs dst).envIpcDstva = 0#32 then some (k, 0)
      else (k.pmap.pageInsert (k.dirs dst) pp (k.envs dst).envIpcDstva perm).bind fun (s, r) =>
        if r < 0 then some (k.setPmap s, r)
        else some ((k.setPmap s).setEnv dst fun env => { env with envIpcPerm := perm }, 0)

/-- The fields a completed send sets; `env_ipc_perm` is not among them. -/
def ipcDeliver (dst : EnvIx) (value : Word) : Kernel :=
  k.setEnv dst fun env =>
    { env with envIpcFrom := (k.envs curenv).envId
               envIpcRecving := false
               envIpcValue := value
               envStatus := .runnable
               envTf := { env.envTf with tfRegs := { env.envTf.tfRegs with regEax := 0 } } }

def sysIpcTrySend (envid value srcva perm : Word) : Option Outcome :=
  match k.envid2env curenv envid false with
  | none => some (.ret (-eBadEnv) k)
  | some dst =>
    if (k.envs dst).envIpcRecving ≠ true ∨ (k.envs dst).envIpcFrom ≠ 0#32 then
      some (.ret (-eIpcNotRecv) k)
    else (k.ipcTransfer curenv dst srcva perm).bind fun (k, r) =>
      if r < 0 then some (.ret r k) else some (.ret 0 (k.ipcDeliver curenv dst value))

def sysIpcRecv (dstva : Word) : Outcome :=
  if dstva < utop ∧ pgoff dstva ≠ 0#32 then .ret (-eInval) k
  else .yield (k.setEnv curenv fun env =>
    { env with envIpcDstva := dstva
               envStatus := .notRunnable
               envIpcRecving := true
               envIpcFrom := 0 })

def sysPktSend (cr3 : ℕ) (data len : Word) : Logged Access Outcome :=
  (e1000Transmit k.pmap k.nic cr3 data len).bind fun (s, nic, r) =>
    .pure (.ret r { k with pmap := s, nic := nic })

def sysPktRecv (cr3 : ℕ) (addr len : Word) : Logged Access Outcome :=
  (e1000Receive k.pmap k.nic cr3 addr len).bind fun (s, nic, r) =>
    .pure (.ret r { k with pmap := s, nic := nic })

end Kernel

/-! ### The dispatcher -/

inductive Call
  | cputs (s len : Word)
  | cgetc
  | getenvid
  | envDestroy (envid : Word)
  | pageAlloc (envid va perm : Word)
  | pageMap (srcenvid srcva dstenvid dstva perm : Word)
  | pageUnmap (envid va : Word)
  | exofork
  | envSetStatus (envid status : Word)
  | envSetTrapframe (envid tf : Word)
  | envSetPgfaultUpcall (envid func : Word)
  | yield
  | ipcTrySend (envid value srcva perm : Word)
  | ipcRecv (dstva : Word)
  | timeMsec
  | pktSend (data len : Word)
  | pktRecv (addr len : Word)
  deriving DecidableEq, Repr

/-- The numbers of `inc/syscall.h`. -/
def decode (no a1 a2 a3 a4 a5 : Word) : Option Call :=
  match no.toNat with
  | 0 => some (.cputs a1 a2)
  | 1 => some .cgetc
  | 2 => some .getenvid
  | 3 => some (.envDestroy a1)
  | 4 => some (.pageAlloc a1 a2 a3)
  | 5 => some (.pageMap a1 a2 a3 a4 a5)
  | 6 => some (.pageUnmap a1 a2)
  | 7 => some .exofork
  | 8 => some (.envSetStatus a1 a2)
  | 9 => some (.envSetTrapframe a1 a2)
  | 10 => some (.envSetPgfaultUpcall a1 a2)
  | 11 => some .yield
  | 12 => some (.ipcTrySend a1 a2 a3 a4)
  | 13 => some (.ipcRecv a1)
  | 14 => some .timeMsec
  | 15 => some (.pktSend a1 a2)
  | 16 => some (.pktRecv a1 a2)
  | _ => none

namespace Kernel

variable (k : Kernel) (curenv : EnvIx) (cr3 : ℕ) (dev : Int)

def call : Call → Logged Access Outcome
  | .cputs s len => k.sysCputs curenv cr3 dev s len
  | .cgetc => .pure (.ret dev k)
  | .getenvid => .pure (k.sysGetenvid curenv)
  | .envDestroy envid => .lift (k.sysEnvDestroy curenv envid)
  | .pageAlloc envid va perm => .lift (k.sysPageAlloc curenv envid va perm)
  | .pageMap srcenvid srcva dstenvid dstva perm =>
      .lift (k.sysPageMap curenv srcenvid srcva dstenvid dstva perm)
  | .pageUnmap envid va => .lift (k.sysPageUnmap curenv envid va)
  | .exofork => .lift (k.sysExofork curenv)
  | .envSetStatus envid status => .pure (k.sysEnvSetStatus curenv envid status)
  | .envSetTrapframe envid tf => k.sysEnvSetTrapframe curenv cr3 envid tf
  | .envSetPgfaultUpcall envid func => .pure (k.sysEnvSetPgfaultUpcall curenv envid func)
  | .yield => .pure (.yield k)
  | .ipcTrySend envid value srcva perm => .lift (k.sysIpcTrySend curenv envid value srcva perm)
  | .ipcRecv dstva => .pure (k.sysIpcRecv curenv dstva)
  | .timeMsec => .pure (.ret dev k)
  | .pktSend data len => k.sysPktSend cr3 data len
  | .pktRecv addr len => k.sysPktRecv cr3 addr len

def syscall (no a1 a2 a3 a4 a5 : Word) : Logged Access Outcome :=
  match decode no a1 a2 a3 a4 a5 with
  | none => .pure (.ret (-eInval) k)
  | some c => k.call curenv cr3 dev c

/-- `tf->tf_regs.reg_eax = r`. -/
def setEax (e : EnvIx) (r : Int) : Kernel :=
  k.setEnv e fun env =>
    { env with envTf :=
        { env.envTf with tfRegs := { env.envTf.tfRegs with regEax := BitVec.ofInt 32 r } } }

/-- A trap for a system call, up to the choice of what runs next: a dying environment is
    freed, the registers `tf` are saved, the result goes to `eax`. -/
def trapSyscall (tf : Trapframe) (c : Call) : Logged Access Outcome :=
  if (k.envs curenv).envStatus = .dying then .lift ((k.envFree curenv).map .exit)
  else
    ((k.setEnv curenv fun env => { env with envTf := tf }).call curenv cr3 dev c).bind fun o =>
      match o with
      | .ret r k => .pure (.ret r (k.setEax curenv r))
      | o => .pure o

end Kernel

end LinuxStudy.Jos
