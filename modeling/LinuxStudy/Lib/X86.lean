import LinuxStudy.Lib.Bytes

/-!
# A few instructions of the 80386

The general registers, `%eip`, `%eflags` and a memory of bytes, and the instructions that code
which switches stacks by hand is made of. Arithmetic leaves status flags that are not modelled
further: `exec` is told them. In user mode `popfl` changes the flags of `userFlags` only.

## Main definitions

- `Reg`, `Core` — registers and memory
- `Instr`, `exec` — instructions
-/

namespace LinuxStudy.X86

inductive Reg
  | eax | ecx | edx | ebx | esp | ebp | esi | edi
  deriving DecidableEq, Repr

structure Core where
  reg : Reg → BitVec 32
  eip : BitVec 32
  eflags : BitVec 32
  mem : ByteMem

/-- CF, PF, AF, ZF, SF and OF. -/
def statusFlags : BitVec 32 := 0x8D5#32

/-- The flags a program can set with `popfl`: the status flags, TF, DF, NT, AC and ID. -/
def userFlags : BitVec 32 := 0x244DD5#32

/-- RF, which the processor sets in the flags it saves for a fault. -/
def resumeFlag : BitVec 32 := 0x10000#32

namespace Core

def setReg (c : Core) (r : Reg) (w : BitVec 32) :
    Core := { c with reg := Function.update c.reg r w }

def load (c : Core) (a : BitVec 32) : BitVec 32 := c.mem.word a.toNat

def store (c : Core) (a w : BitVec 32) : Core := { c with mem := c.mem.putWord a.toNat w }

def goto (c : Core) (a : BitVec 32) : Core := { c with eip := a }

/-- New status flags. -/
def setStatus (c : Core) (flags : BitVec 32) : Core :=
  { c with eflags := c.eflags &&& ~~~statusFlags ||| flags &&& statusFlags }

/-- What `popfl` makes of a word. -/
def setUserFlags (c : Core) (w : BitVec 32) : Core :=
  { c with eflags := c.eflags &&& ~~~userFlags ||| w &&& userFlags }

/-- `pushl` of a word. -/
def push (c : Core) (w : BitVec 32) : Core :=
  (c.store (c.reg .esp - 4#32) w).setReg .esp (c.reg .esp - 4#32)

end Core

inductive Instr
  | pushl (r : Reg)
  /-- `movl a, %r`. -/
  | movlAbs (a : BitVec 32) (r : Reg)
  /-- `call *%r`. -/
  | call (r : Reg)
  /-- `addl $n, %r`. -/
  | addl (n : BitVec 32) (r : Reg)
  /-- `movl d(%b), %r`. -/
  | movlLoad (d : BitVec 32) (b r : Reg)
  /-- `subl $n, d(%b)`. -/
  | sublMem (n d : BitVec 32) (b : Reg)
  /-- `movl %r, (%b)`. -/
  | movlStore (r b : Reg)
  | popal
  | popfl
  | popl (r : Reg)
  | ret
  deriving DecidableEq, Repr

/-- An instruction whose successor is at `next`; `flags` are the status flags it leaves. -/
def exec (i : Instr) (next flags : BitVec 32) (c : Core) : Core :=
  match i with
  | .pushl r => (c.push (c.reg r)).goto next
  | .movlAbs a r => (c.setReg r (c.load a)).goto next
  | .call r => (c.push next).goto (c.reg r)
  | .addl n r => ((c.setReg r (c.reg r + n)).setStatus flags).goto next
  | .movlLoad d b r => (c.setReg r (c.load (c.reg b + d))).goto next
  | .sublMem n d b => ((c.store (c.reg b + d) (c.load (c.reg b + d) - n)).setStatus flags).goto next
  | .movlStore r b => (c.store (c.reg b) (c.reg r)).goto next
  | .popal =>
    let esp := c.reg .esp
    ((((((((c.setReg .edi (c.load esp)).setReg .esi (c.load (esp + 4#32))).setReg .ebp
      (c.load (esp + 8#32))).setReg .ebx (c.load (esp + 16#32))).setReg .edx
        (c.load (esp + 20#32))).setReg .ecx (c.load (esp + 24#32))).setReg .eax
          (c.load (esp + 28#32))).setReg .esp (esp + 32#32)).goto next
  | .popfl => ((c.setUserFlags (c.load (c.reg .esp))).setReg .esp (c.reg .esp + 4#32)).goto next
  | .popl r => ((c.setReg .esp (c.reg .esp + 4#32)).setReg r (c.load (c.reg .esp))).goto next
  | .ret => (c.setReg .esp (c.reg .esp + 4#32)).goto (c.load (c.reg .esp))

section Lemmas

variable {c : Core} {r q : Reg} {w a n d next flags : BitVec 32}

@[simp] theorem setReg_self : (c.setReg r w).reg r = w := Function.update_self ..

theorem setReg_ne (h : q ≠ r) : (c.setReg r w).reg q = c.reg q := Function.update_of_ne h ..

@[simp] theorem setReg_mem : (c.setReg r w).mem = c.mem := rfl
@[simp] theorem setReg_eip : (c.setReg r w).eip = c.eip := rfl
@[simp] theorem setReg_eflags : (c.setReg r w).eflags = c.eflags := rfl
@[simp] theorem store_mem : (c.store a w).mem = c.mem.putWord a.toNat w := rfl
@[simp] theorem store_reg : (c.store a w).reg = c.reg := rfl
@[simp] theorem store_eflags : (c.store a w).eflags = c.eflags := rfl
@[simp] theorem goto_mem : (c.goto a).mem = c.mem := rfl
@[simp] theorem goto_reg : (c.goto a).reg = c.reg := rfl
@[simp] theorem goto_eip : (c.goto a).eip = a := rfl
@[simp] theorem goto_eflags : (c.goto a).eflags = c.eflags := rfl
@[simp] theorem setStatus_mem : (c.setStatus flags).mem = c.mem := rfl
@[simp] theorem setStatus_reg : (c.setStatus flags).reg = c.reg := rfl
@[simp] theorem setUserFlags_mem : (c.setUserFlags w).mem = c.mem := rfl
@[simp] theorem setUserFlags_reg : (c.setUserFlags w).reg = c.reg := rfl
@[simp] theorem push_eflags : (c.push w).eflags = c.eflags := rfl
@[simp] theorem push_mem : (c.push w).mem = c.mem.putWord (c.reg .esp - 4#32).toNat w := rfl
@[simp] theorem push_esp : (c.push w).reg .esp = c.reg .esp - 4#32 := setReg_self

theorem setStatus_system :
    (c.setStatus flags).eflags &&& ~~~userFlags = c.eflags &&& ~~~userFlags := by
  have hsub : statusFlags &&& ~~~userFlags = 0#32 := by decide
  have hnot : ~~~statusFlags &&& ~~~userFlags = ~~~userFlags := by decide
  rw [Core.setStatus, BitVec.and_or_distrib_right, BitVec.and_assoc, BitVec.and_assoc, hsub, hnot,
    BitVec.and_zero, BitVec.or_zero]

/-- `popfl` restores flags whose other bits have stayed. -/
theorem setUserFlags_restore {f : BitVec 32} (h : c.eflags &&& ~~~userFlags = f &&& ~~~userFlags) :
    (c.setUserFlags (f ||| resumeFlag)).eflags = f := by
  have hrf : resumeFlag &&& userFlags = 0#32 := by decide
  have hword : (f ||| resumeFlag) &&& userFlags = f &&& userFlags := by
    rw [BitVec.and_or_distrib_right, hrf, BitVec.or_zero]
  have hall : ~~~userFlags ||| userFlags = BitVec.allOnes 32 := by decide
  rw [Core.setUserFlags, h, hword]
  rw [← BitVec.and_or_distrib_left, hall, BitVec.and_allOnes]

end Lemmas

end LinuxStudy.X86
