import LinuxStudy.Jos.Machine
import LinuxStudy.Lib.X86

/-!
# The page-fault upcall of `lib/pfentry.S`

`page_fault_handler` stores a `struct UTrapframe` on the exception stack and lets the program go
on at `_pgfault_upcall`, which calls the handler in C and then goes back to the instruction that
faulted. The handler may fault itself, and so may the upcall until it has pushed `%eip` on the
stack it goes back to; each fault puts a new frame below the one before.

The machine has the processor's state and the faults being served, innermost first, each with
the state it interrupted. Memory is that of the program, by virtual address. C code is any
sequence of changes that keeps to the calling convention.
-/

namespace LinuxStudy.Jos.Upcall

open X86
open ByteMem
open BitVec (le_def toNat_sub toNat_ofNat)

/-! ### The code -/

/-- `_pgfault_upcall`, with the length of each instruction; the variable `_pgfault_handler` is
    at `handlerVar`. -/
def pgfaultUpcall (handlerVar : Word) : List (Instr × ℕ) :=
  [(.pushl .esp, 1), (.movlAbs handlerVar .eax, 5), (.call .eax, 2), (.addl 4#32 .esp, 3),
   (.movlLoad 0x28#32 .esp .eax, 4), (.sublMem 4#32 0x30#32 .esp, 5),
   (.movlLoad 0x30#32 .esp .edx, 4),
   (.movlStore .eax .edx, 2), (.addl 8#32 .esp, 3), (.popal, 1), (.addl 4#32 .esp, 3), (.popfl, 1),
   (.popl .esp, 1), (.ret, 1)]

/-- The offset of instruction `k`. -/
def offset (k : ℕ) : ℕ := (((pgfaultUpcall 0#32).take k).map Prod.snd).sum

/-- The address of instruction `k`. -/
def addr (entry : Word) (k : ℕ) : Word := entry + BitVec.ofNat 32 (offset k)

/-! ### Faults -/

/-- The test of `page_fault_handler`. -/
def OnException (esp : Word) : Prop := uxstacktop - 4096#32 ≤ esp ∧ esp ≤ uxstacktop - 1#32

instance (esp : Word) : Decidable (OnException esp) := inferInstanceAs (Decidable (_ ∧ _))

/-- On the normal stack, with room for a word. -/
def OnNormal (esp : Word) : Prop := 4 ≤ esp.toNat ∧ esp ≤ ustacktop

/-- The words of a `struct UTrapframe`, as `page_fault_handler` fills it. -/
def utfWords (tf : Trapframe) (faultVa : Word) : List Word :=
  [faultVa, tf.tfErr, tf.tfRegs.regEdi, tf.tfRegs.regEsi, tf.tfRegs.regEbp, tf.tfRegs.regOesp,
   tf.tfRegs.regEbx, tf.tfRegs.regEdx, tf.tfRegs.regEcx, tf.tfRegs.regEax, tf.tfEip, tf.tfEflags,
   tf.tfEsp]

/-- The trap frame of a page fault; `oesp` is what `pushal` leaves for `%esp`. -/
def trapframe (c : Core) (err oesp : Word) : Trapframe :=
  { Trapframe.user with
    tfTrapno := 14#32
    tfErr := err
    tfRegs :=
    ⟨c.reg .edi, c.reg .esi, c.reg .ebp, oesp, c.reg .ebx, c.reg .edx, c.reg .ecx, c.reg .eax⟩
    tfEip := c.eip
    tfEflags := c.eflags ||| resumeFlag
    tfEsp := c.reg .esp }

/-- The processor at the first instruction of the upcall. -/
def faulted (entry : Word) (c : Core) (err oesp faultVa : Word) : Core :=
  { c.setReg .esp (utfAddr (c.reg .esp)) with
    eip := entry
    mem := c.mem.putWords (utfAddr (c.reg .esp)).toNat (utfWords (trapframe c err oesp) faultVa) }

/-- Whose code runs while a fault is served. -/
inductive Mode
  | upcall
  | handler
  deriving DecidableEq

/-- A fault being served. -/
structure Act where
  /-- The state it interrupted. -/
  trap : Core
  mode : Mode

namespace Act

variable (a : Act)

def esp : Word := a.trap.reg .esp

/-- The address of its `struct UTrapframe`. -/
def utf : Word := utfAddr a.esp

/-- The end of the stack that was interrupted. -/
def top : ℕ := if OnException a.esp then uxstacktop.toNat else ustacktop.toNat

/-- A byte of the frame, or of the stack that was interrupted. -/
def Live (x : ℕ) : Prop :=
  (a.utf.toNat ≤ x ∧ x < a.utf.toNat + 52) ∨ (a.esp.toNat ≤ x ∧ x < a.top)

/-- Where the part of the exception stack begins that was in use before. -/
def liveFrom : ℕ := if OnException a.esp then a.esp.toNat else uxstacktop.toNat

end Act

structure Sys where
  cpu : Core
  /-- The faults being served, innermost first. -/
  acts : List Act

/-- What the handler in C may do: it leaves memory from its argument on alone, keeps its stack
    below it, and cannot change the flags that `popfl` cannot. -/
structure Obeys (a : Act) (c c' : Core) : Prop where
  mem : ∀ x, a.utf.toNat ≤ x → c'.mem x = c.mem x
  esp : (c'.reg .esp).toNat + 4 ≤ a.utf.toNat
  system : c'.eflags &&& ~~~userFlags = c.eflags &&& ~~~userFlags

/-- An instruction may fault: one of the program, of a handler, or of the upcall before it has
    stored to the stack it goes back to. After that it only reads what it, or the kernel, has
    just stored. -/
def MayFault (entry : Word) (s : Sys) : Prop :=
  match s.acts with
  | [] => OnException (s.cpu.reg .esp) ∨ OnNormal (s.cpu.reg .esp)
  | a :: _ => OnException (s.cpu.reg .esp) ∧
      (a.mode = .handler ∨ a.mode = .upcall ∧ ∃ k ≤ 7, s.cpu.eip = addr entry k)

inductive Label
  /-- The program, while no fault is served. -/
  | user
  | fault
  | instr (k : ℕ)
  /-- The handler goes on. -/
  | handler
  /-- The handler has returned. -/
  | back
  | ret

section

variable (entry handlerVar : Word)

inductive Step : Sys → Label → Sys → Prop
  | user {s : Sys} (c : Core) (h : s.acts = []) : Step s .user ⟨c, []⟩
  | fault {s : Sys} (err oesp faultVa : Word) (h : MayFault entry s) :
      Step s .fault ⟨faulted entry s.cpu err oesp faultVa, ⟨s.cpu, .upcall⟩ :: s.acts⟩
  | instr {s : Sys} {t : Core} {rest : List Act} {k n : ℕ} {i : Instr} (flags : Word)
      (h : s.acts = ⟨t, .upcall⟩ :: rest) (hpc : s.cpu.eip = addr entry k)
      (hi : (pgfaultUpcall handlerVar)[k]? = some (i, n)) (hcall : k ≠ 2) (hret : k ≠ 13) :
      Step s (.instr k) ⟨exec i (addr entry (k + 1)) flags s.cpu, s.acts⟩
  | call {s : Sys} {t : Core} {rest : List Act} (h : s.acts = ⟨t, .upcall⟩ :: rest)
      (hpc : s.cpu.eip = addr entry 2) :
      Step s (.instr 2) ⟨exec (.call .eax) (addr entry 3) 0#32 s.cpu, ⟨t, .handler⟩ :: rest⟩
  | handler {s : Sys} {a : Act} {rest : List Act} {c : Core} (h : s.acts = a :: rest)
      (hmode : a.mode = .handler) (hc : Obeys a s.cpu c) : Step s .handler ⟨c, s.acts⟩
  | back {s : Sys} {t : Core} {rest : List Act} (h : s.acts = ⟨t, .handler⟩ :: rest)
      (hpc : s.cpu.eip = addr entry 3) (hesp : s.cpu.reg .esp = (Act.mk t .handler).utf - 4#32) :
      Step s .back ⟨s.cpu, ⟨t, .upcall⟩ :: rest⟩
  | ret {s : Sys} {t : Core} {rest : List Act} (h : s.acts = ⟨t, .upcall⟩ :: rest)
      (hpc : s.cpu.eip = addr entry 13) : Step s .ret ⟨exec .ret 0#32 0#32 s.cpu, rest⟩

end

section Addresses

variable {entry esp : Word} {i j : ℕ}

theorem addr_inj (hi : i < 14) (hj : j < 14) (h : addr entry i = addr entry j) : i = j := by
  have hoff : ∀ i < 14, ∀ j < 14, BitVec.ofNat 32 (offset i) = BitVec.ofNat 32 (offset j) →
    i = j := by decide
  exact hoff i hi j hj (add_left_cancel h)

theorem onException_toNat : OnException esp ↔ 4005556224 ≤ esp.toNat ∧ esp.toNat < 4005560320 := by
  rw [OnException, le_def, le_def]
  have h1 : (uxstacktop - 4096#32).toNat = 4005556224 := by decide
  have h2 : (uxstacktop - 1#32).toNat = 4005560319 := by decide
  omega

theorem utfAddr_onException (h : OnException esp) : (utfAddr esp).toNat = esp.toNat - 56 := by
  have hutf : utfAddr esp = esp - 4#32 - 52#32 := if_pos h
  rw [onException_toNat] at h
  rw [hutf, toNat_sub, toNat_sub]
  simp only [toNat_ofNat]
  omega

theorem utfAddr_onNormal (h : ¬ OnException esp) : (utfAddr esp).toNat = 4005560268 := by
  have hutf : utfAddr esp = uxstacktop - 52#32 := if_neg h
  rw [hutf]
  decide

theorem utfAddr_bounds (esp : Word) : 4005556168 ≤ (utfAddr esp).toNat ∧
    (utfAddr esp).toNat ≤ 4005560268 := by
  by_cases h : OnException esp
  · rw [utfAddr_onException h]
    rw [onException_toNat] at h
    omega
  · rw [utfAddr_onNormal h]
    omega

end Addresses

/-! ### A fault being served -/

/-- The offset of a register in a `struct UTrapframe`. -/
def slot : Reg → ℕ
  | .edi => 8
  | .esi => 12
  | .ebp => 16
  | .esp => 20
  | .ebx => 24
  | .edx => 28
  | .ecx => 32
  | .eax => 36

/-- The general registers are as they were, up to `%esp`. -/
def General (a : Act) (c : Core) : Prop := ∀ r ≠ .esp, c.reg r = a.trap.reg r

/-- The registers before instruction `k`. -/
def Regs (a : Act) (c : Core) : ℕ → Prop
  | 0 => c.reg .esp = a.utf
  | 1 | 2 | 3 => c.reg .esp = a.utf - 4#32
  | 4 => c.reg .esp = a.utf
  | 5 | 6 => c.reg .esp = a.utf ∧ c.reg .eax = a.trap.eip
  | 7 => c.reg .esp = a.utf ∧ c.reg .eax = a.trap.eip ∧ c.reg .edx = a.esp - 4#32
  | 8 => c.reg .esp = a.utf
  | 9 => c.reg .esp = a.utf + 8#32
  | 10 => c.reg .esp = a.utf + 40#32 ∧ General a c
  | 11 => c.reg .esp = a.utf + 44#32 ∧ General a c
  | 12 => c.reg .esp = a.utf + 48#32 ∧ General a c ∧ c.eflags = a.trap.eflags
  | 13 => c.reg .esp = a.esp - 4#32 ∧ General a c ∧ c.eflags = a.trap.eflags
  | _ => False

/-- The frame before instruction `k`, and the memory above it. -/
structure Holds (a : Act) (k : ℕ) (m : ByteMem) : Prop where
  regs : ∀ r ≠ .esp, m.word (a.utf.toNat + slot r) = a.trap.reg r
  eip : m.word (a.utf.toNat + 40) = a.trap.eip
  eflags : m.word (a.utf.toNat + 44) = a.trap.eflags ||| resumeFlag
  esp : m.word (a.utf.toNat + 48) = if k ≤ 5 then a.esp else a.esp - 4#32
  pushed : 8 ≤ k → m.word (a.esp.toNat - 4) = a.trap.eip
  live : ∀ x, a.liveFrom ≤ x → m x = a.trap.mem x

/-- The flags that a program cannot set are as they were. -/
def SameSystem (a : Act) (c : Core) : Prop :=
  c.eflags &&& ~~~userFlags = a.trap.eflags &&& ~~~userFlags

/-- A fault that came on one of the two stacks. -/
def Act.Stacked (a : Act) : Prop := OnException a.esp ∨ OnNormal a.esp

section Serving

variable {a : Act} {k : ℕ} {m m' : ByteMem}

theorem Act.utf_bounds (a : Act) : 4005556168 ≤ a.utf.toNat ∧ a.utf.toNat + 52 ≤ a.liveFrom ∧
    a.liveFrom ≤ 4005560320 := by
  rw [utf, liveFrom]
  by_cases h : OnException a.esp
  · rw [if_pos h, utfAddr_onException h]
    rw [onException_toNat] at h
    omega
  · rw [if_neg h, utfAddr_onNormal h]
    have htop : uxstacktop.toNat = 4005560320 := by decide
    omega

/-- The word that is pushed lies between the frame and the stack that was interrupted, or below
    both. -/
theorem Act.Stacked.pushed (h : a.Stacked) : (a.esp - 4#32).toNat = a.esp.toNat - 4 ∧
    4 ≤ a.esp.toNat ∧
    (a.esp.toNat ≤ a.utf.toNat ∨ a.utf.toNat + 52 ≤ a.esp.toNat - 4) ∧
    a.esp.toNat ≤ a.liveFrom := by
  have hbounds := a.utf_bounds
  rcases h with h | ⟨h4, hle⟩
  · have hutf := utfAddr_onException h
    have hlive : a.liveFrom = a.esp.toNat := if_pos h
    rw [← Act.utf] at hutf
    rw [toNat_sub, hlive]
    simp only [toNat_ofNat]
    omega
  · have htop : ustacktop.toNat = 4005552128 := by decide
    rw [le_def, htop] at hle
    rw [toNat_sub]
    simp only [toNat_ofNat]
    omega

theorem Holds.congr {k' : ℕ} (h : Holds a k m) (h5 : k ≤ 5 ↔ k' ≤ 5) (h8 : 8 ≤ k' → 8 ≤ k) :
    Holds a k' m :=
  ⟨h.regs, h.eip, h.eflags, by rw [h.esp]; simp only [h5], fun hk => h.pushed (h8 hk), h.live⟩

theorem slot_lt (r : Reg) : 8 ≤ slot r ∧ slot r ≤ 36 := by
  cases r
  all_goals decide

theorem Holds.below (h : Holds a k m) (hk : k < 8) (hsame : ∀ x, a.utf.toNat ≤ x → m' x = m x) :
    Holds a k m' := by
  have hword : ∀ o, m'.word (a.utf.toNat + o) = m.word (a.utf.toNat + o) := fun o =>
    word_congr fun x h1 _ => hsame x (by omega)
  have hbounds := a.utf_bounds
  exact ⟨fun r hr => (hword _).trans (h.regs r hr), (hword _).trans h.eip, (hword _).trans h.eflags,
    (hword _).trans h.esp,
    fun hk' => by omega, fun x hx => (hsame x (by omega)).trans (h.live x hx)⟩

theorem Holds.subl (h : Holds a 5 m) : Holds a 6 (m.putWord (a.utf.toNat + 48) (a.esp - 4#32)) := by
  have hbounds := a.utf_bounds
  refine ⟨fun r hr => ?_, ?_, ?_, ?_, fun hk => by omega, fun x hx => ?_⟩
  · have hslot := slot_lt r
    rw [word_putWord (by omega)]
    exact h.regs r hr
  · rw [word_putWord (by omega)]
    exact h.eip
  · rw [word_putWord (by omega)]
    exact h.eflags
  · rw [word_putWord_self]
    rfl
  · rw [ByteMem.putWord, overwrite_out (by omega)]
    exact h.live x hx

/-- `movl %eax, (%edx)`: the push on the stack that was interrupted. -/
theorem Holds.push (h : Holds a 7 m) (hs : a.Stacked) :
    Holds a 8 (m.putWord (a.esp - 4#32).toNat a.trap.eip) := by
  obtain ⟨hnat, h4, hout, hlive⟩ := hs.pushed
  rw [hnat]
  refine ⟨fun r hr => ?_, ?_, ?_, ?_, fun _ => word_putWord_self, fun x hx => ?_⟩
  · have hslot := slot_lt r
    rw [word_putWord (by omega)]
    exact h.regs r hr
  · rw [word_putWord (by omega)]
    exact h.eip
  · rw [word_putWord (by omega)]
    exact h.eflags
  · rw [word_putWord (by omega)]
    exact h.esp
  · rw [ByteMem.putWord, overwrite_out (by omega)]
    exact h.live x hx

theorem Act.utf_add (a : Act) {o : ℕ} (ho : o ≤ 52) :
    (a.utf + BitVec.ofNat 32 o).toNat = a.utf.toNat + o := by
  have hbounds := a.utf_bounds
  rw [BitVec.toNat_add, toNat_ofNat]
  omega

theorem Act.utf_sub (a : Act) {o : ℕ} (ho : o ≤ 52) :
    (a.utf - BitVec.ofNat 32 o).toNat = a.utf.toNat - o := by
  have hbounds := a.utf_bounds
  rw [toNat_sub, toNat_ofNat]
  omega

end Serving

end LinuxStudy.Jos.Upcall
