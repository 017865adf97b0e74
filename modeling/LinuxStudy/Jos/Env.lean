import LinuxStudy.Jos.E1000
import LinuxStudy.Jos.Ledger

/-!
# Environments of `kern/env.c`

The table `envs[]`, the environment free list, and the functions that create and destroy
environments. The part of the kernel state all processors share is a `Kernel`; what belongs
to one processor (`curenv`, `%cr3`) is passed to the functions that look at it.
-/

namespace LinuxStudy.Jos

structure PushRegs where
  regEdi : Word
  regEsi : Word
  regEbp : Word
  regOesp : Word
  regEbx : Word
  regEdx : Word
  regEcx : Word
  regEax : Word
  deriving DecidableEq, Repr

structure Trapframe where
  tfRegs : PushRegs
  tfEs : BitVec 16
  tfPadding1 : BitVec 16
  tfDs : BitVec 16
  tfPadding2 : BitVec 16
  tfTrapno : Word
  tfErr : Word
  tfEip : Word
  tfCs : BitVec 16
  tfPadding3 : BitVec 16
  tfEflags : Word
  tfEsp : Word
  tfSs : BitVec 16
  tfPadding4 : BitVec 16
  deriving DecidableEq, Repr

/-- `sizeof(struct Trapframe)`. -/
def trapframeSize : ℕ := 68

def gdUt : BitVec 16 := 0x18
def gdUd : BitVec 16 := 0x20
def flIf : Word := 0x200#32
def flIoplMask : Word := 0x3000#32

/-- `memset(tf, 0, sizeof(*tf))`. -/
def Trapframe.zero : Trapframe :=
  { tfRegs := ⟨0, 0, 0, 0, 0, 0, 0, 0⟩, tfEs := 0, tfPadding1 := 0, tfDs := 0, tfPadding2 := 0,
    tfTrapno := 0, tfErr := 0, tfEip := 0, tfCs := 0, tfPadding3 := 0, tfEflags := 0, tfEsp := 0,
    tfSs := 0, tfPadding4 := 0 }

/-- The saved registers `env_alloc` starts an environment with. -/
def Trapframe.user : Trapframe :=
  { Trapframe.zero with tfDs := gdUd ||| 3, tfEs := gdUd ||| 3, tfSs := gdUd ||| 3,
                        tfEsp := ustacktop, tfCs := gdUt ||| 3, tfEflags := 0 ||| flIf }

/-- The trap frame stored at a pointer, byte by byte. -/
def Trapframe.ofBytes (bs : List Byte) : Trapframe :=
  { tfRegs := ⟨word bs 0, word bs 4, word bs 8, word bs 12, word bs 16, word bs 20, word bs 24,
      word bs 28⟩
    tfEs := half bs 32, tfPadding1 := half bs 34, tfDs := half bs 36, tfPadding2 := half bs 38
    tfTrapno := word bs 40, tfErr := word bs 44, tfEip := word bs 48
    tfCs := half bs 52, tfPadding3 := half bs 54, tfEflags := word bs 56, tfEsp := word bs 60
    tfSs := half bs 64, tfPadding4 := half bs 66 }

inductive EnvStatus
  | free
  | dying
  | runnable
  | running
  | notRunnable
  deriving DecidableEq, Repr

inductive EnvType
  | user
  | fs
  | ns
  deriving DecidableEq, Repr

structure Env where
  envTf : Trapframe
  envLink : Option EnvIx
  envId : Word
  envParentId : Word
  envType : EnvType
  envStatus : EnvStatus
  envRuns : Word
  envCpunum : ℕ
  /-- The frame of the page directory. -/
  envPgdir : Option ℕ
  envPgfaultUpcall : Word
  envIpcRecving : Bool
  envIpcDstva : Word
  envIpcValue : Word
  envIpcFrom : Word
  envIpcPerm : Word

structure Kernel where
  pmap : Pmap
  envs : EnvIx → Env
  envFreeList : Option EnvIx
  nic : E1000

def nenv : ℕ := 1024
def envgenshift : ℕ := 12

def envx (envid : Word) : EnvIx := Fin.ofNat 1024 envid.toNat

namespace Kernel

variable (k : Kernel)

/-- The page directories of all environments. -/
def dirs (e : EnvIx) : Option ℕ := (k.envs e).envPgdir

/-- The link field of `envs[]`. -/
def envLink (e : EnvIx) : Option EnvIx := (k.envs e).envLink

def setEnv (e : EnvIx) (f : Env → Env) : Kernel :=
  { k with envs := Function.update k.envs e (f (k.envs e)) }

def setPmap (s : Pmap) : Kernel := { k with pmap := s }

/-- `envid2env`; the only error it has is `-E_BAD_ENV`. -/
def envid2env (curenv : EnvIx) (envid : Word) (checkperm : Bool) : Option EnvIx :=
  if envid = 0#32 then some curenv
  else
    let e := envx envid
    if (k.envs e).envStatus = .free ∨ (k.envs e).envId ≠ envid then none
    else if checkperm = true ∧ e ≠ curenv ∧ (k.envs e).envParentId ≠ (k.envs curenv).envId then none
    else some e

/-- The word that maps a page directory into itself at `UVPT`. -/
def selfWord (d : ℕ) : Word := page2pa d ||| pteP ||| pteU

def envSetupVm (e : EnvIx) : Option (Kernel × Int) :=
  (k.pmap.pageAlloc true).bind fun (s, p) =>
    match p with
    | none => some (k.setPmap s, -eNoMem)
    | some p =>
      (s.page2kva p).bind fun pgdir =>
        let s := s.pageIncref p
        let s := s.copyPage pgdir s.kernPgdir
        let s := s.write pgdir (pdx uvpt) (selfWord pgdir)
        some ((k.setPmap s).setEnv e fun env => { env with envPgdir := some pgdir }, 0)

/-- The next id for a table entry: a new generation in the high bits, the index below. -/
def nextEnvId (old : Word) (e : EnvIx) : Word :=
  let generation := (old + (1#32 <<< envgenshift)) &&& ~~~(BitVec.ofNat 32 (nenv - 1))
  let generation := if generation.toInt ≤ 0 then 1#32 <<< envgenshift else generation
  generation ||| BitVec.ofNat 32 e.val

/-- `env_alloc`: an error code, or the new environment. -/
def envAlloc (parentId : Word) : Option (Kernel × Except Int EnvIx) :=
  match k.envFreeList with
  | none => some (k, .error (-eNoFreeEnv))
  | some e =>
    (k.envSetupVm e).bind fun (k, r) =>
      if r < 0 then some (k, .error r)
      else
        let k := k.setEnv e fun env =>
          { env with envId := nextEnvId env.envId e
                     envParentId := parentId
                     envType := .user
                     envStatus := .runnable
                     envRuns := 0
                     envTf := Trapframe.user
                     envPgfaultUpcall := 0
                     envIpcRecving := false }
        some ({ k with envFreeList := k.envLink e }, .ok e)

end Kernel

namespace Pmap

variable (s : Pmap)

/-- The body of the inner loop of `env_free`. -/
def envFreePte (pgdir : ℕ) (pdeno : Idx) (pt : ℕ) (pteno : Idx) : Option Pmap :=
  if has (s.mem pt pteno) pteP then s.pageRemove (some pgdir) (pgaddr pdeno pteno 0#32)
  else some s

/-- The body of the outer loop of `env_free`: all pages of one table, then the table. -/
def envFreeTable (pgdir : ℕ) (pdeno : Idx) : Option Pmap :=
  if has (s.mem pgdir pdeno) pteP then
    let pa := pteAddr (s.mem pgdir pdeno)
    (s.kaddr pa).bind fun pt =>
      (forUpTo (fun pteno s => s.envFreePte pgdir pdeno pt (Fin.ofNat 1024 pteno)) 1024 s).bind
        fun s =>
          let s := s.write pgdir pdeno 0#32
          (s.pa2page pa).bind fun pp => s.pageDecref pp
  else some s

/-- The memory side of `env_free`: the user half, then the directory itself. -/
def envFreeVm (pgdir : ℕ) : Option Pmap :=
  (forUpTo (fun pdeno s => s.envFreeTable pgdir (Fin.ofNat 1024 pdeno)) pdxUtop.val s).bind fun s =>
    (s.pa2page (page2pa pgdir)).bind fun pp => s.pageDecref pp

end Pmap

namespace Kernel

variable (k : Kernel)

/-- The last lines of `env_free`: the environment goes back to the free list. -/
def releaseEnv (e : EnvIx) : Kernel :=
  { k.setEnv e fun env =>
      { env with envPgdir := none, envStatus := .free, envLink := k.envFreeList } with
    envFreeList := some e }

def envFree (e : EnvIx) : Option Kernel :=
  match (k.envs e).envPgdir with
  | none => none
  | some pgdir => (k.pmap.envFreeVm pgdir).bind fun s => some ((k.setPmap s).releaseEnv e)

/-- `env_destroy` up to the choice of another environment: the flag says that the current
    environment is gone and `sched_yield` is called. -/
def envDestroy (curenv : Option EnvIx) (e : EnvIx) : Option (Kernel × Bool) :=
  if (k.envs e).envStatus = .running ∧ curenv ≠ some e then
    some (k.setEnv e fun env => { env with envStatus := .dying }, false)
  else (k.envFree e).bind fun k => some (k, decide (curenv = some e))

end Kernel

end LinuxStudy.Jos
