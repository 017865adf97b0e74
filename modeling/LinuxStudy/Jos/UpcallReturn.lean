import LinuxStudy.Jos.Upcall

/-!
# Returning from a page fault

One instruction of the upcall takes what holds before it to what holds before the next one, and
faults in between leave the frames above them alone. So each fault that is served ends with the
state it interrupted.
-/

namespace LinuxStudy.Jos.Upcall

open X86
open ByteMem

section Instructions

variable {handlerVar flags next : Word} {a : Act} {c : Core} {k n : ℕ} {i : Instr}

theorem load_frame (a : Act) (c : Core) {o : ℕ} (ho : o ≤ 52) :
    c.load (a.utf + BitVec.ofNat 32 o) = c.mem.word (a.utf.toNat + o) := by
  rw [Core.load, a.utf_add ho]

/-- What one instruction needs and leaves. -/
structure Before (a : Act) (k : ℕ) (c : Core) : Prop where
  regs : Regs a c k
  holds : Holds a k c.mem
  system : SameSystem a c

theorem pushl_step (h : Before a 0 c) : Before a 1 (exec (.pushl .esp) next flags c) := by
  have hesp : c.reg .esp = a.utf := h.regs
  have hbounds := a.utf_bounds
  have hsub := a.utf_sub (o := 4) (by omega)
  refine ⟨?_, ?_, h.system⟩
  · show (c.push (c.reg .esp)).reg .esp = a.utf - 4#32
    rw [push_esp, hesp]
  · refine (h.holds.below (by omega) fun x hx => ?_).congr (by omega) (by omega)
    show (c.push (c.reg .esp)).mem x = c.mem x
    rw [push_mem, hesp, ByteMem.putWord, overwrite_out (by omega)]

theorem movlAbs_step (h : Before a 1 c) :
    Before a 2 (exec (.movlAbs handlerVar .eax) next flags c) := by
  refine ⟨?_, h.holds.congr (by omega) (by omega), h.system⟩
  exact h.regs

theorem addl_step {k' : ℕ} {d : Word} (h : Before a k c) (h5 : k ≤ 5 ↔ k' ≤ 5) (h8 : 8 ≤ k' → 8 ≤ k)
    (hregs : Regs a (exec (.addl d .esp) next flags c) k') :
    Before a k' (exec (.addl d .esp) next flags c) :=
  ⟨hregs, h.holds.congr h5 h8, setStatus_system.trans h.system⟩

theorem addl_esp {d : Word} : (exec (.addl d .esp) next flags c).reg .esp = c.reg .esp + d := by
  simp [exec]

theorem addl_general {d : Word} (h : General a c) : General a (exec (.addl d .esp) next flags c) :=
  fun r hr =>
    (show (c.setReg .esp (c.reg .esp + d)).reg r = c.reg r from setReg_ne hr).trans (h r hr)

theorem movlLoad_eip_step (h : Before a 4 c) :
    Before a 5 (exec (.movlLoad 0x28#32 .esp .eax) next flags c) := by
  have hesp : c.reg .esp = a.utf := h.regs
  refine ⟨⟨?_, ?_⟩, h.holds.congr (by omega) (by omega), h.system⟩
  · show (c.setReg .eax (c.load (c.reg .esp + 0x28#32))).reg .esp = a.utf
    rw [setReg_ne (by decide), hesp]
  · show (c.setReg .eax (c.load (c.reg .esp + 0x28#32))).reg .eax = a.trap.eip
    rw [setReg_self, hesp, ← h.holds.eip]
    exact load_frame a c (by omega)

theorem sublMem_step (h : Before a 5 c) :
    Before a 6 (exec (.sublMem 4#32 0x30#32 .esp) next flags c) := by
  obtain ⟨hesp, heax⟩ : c.reg .esp = a.utf ∧ c.reg .eax = a.trap.eip := h.regs
  have hload : c.load (c.reg .esp + 0x30#32) = a.esp := by
    rw [hesp]
    exact (load_frame a c (by omega)).trans h.holds.esp
  have haddr : (c.reg .esp + 0x30#32).toNat = a.utf.toNat + 48 := by
    rw [hesp]
    exact a.utf_add (by omega)
  refine ⟨⟨hesp, heax⟩, ?_, setStatus_system.trans h.system⟩
  show Holds a 6 (c.mem.putWord (c.reg .esp + 0x30#32).toNat (c.load (c.reg .esp + 0x30#32) - 4#32))
  rw [hload, haddr]
  exact h.holds.subl

theorem movlLoad_esp_step (h : Before a 6 c) :
    Before a 7 (exec (.movlLoad 0x30#32 .esp .edx) next flags c) := by
  obtain ⟨hesp, heax⟩ : c.reg .esp = a.utf ∧ c.reg .eax = a.trap.eip := h.regs
  refine ⟨⟨?_, ?_, ?_⟩, h.holds.congr (by omega) (by omega), h.system⟩
  · show (c.setReg .edx (c.load (c.reg .esp + 0x30#32))).reg .esp = a.utf
    rw [setReg_ne (by decide), hesp]
  · show (c.setReg .edx (c.load (c.reg .esp + 0x30#32))).reg .eax = a.trap.eip
    rw [setReg_ne (by decide), heax]
  · show (c.setReg .edx (c.load (c.reg .esp + 0x30#32))).reg .edx = a.esp - 4#32
    rw [setReg_self, hesp]
    exact (load_frame a c (by omega)).trans h.holds.esp

theorem movlStore_step (h : Before a 7 c) (hs : a.Stacked) :
    Before a 8 (exec (.movlStore .eax .edx) next flags c) := by
  obtain ⟨hesp, heax, hedx⟩ : c.reg .esp = a.utf ∧ c.reg .eax = a.trap.eip ∧
    c.reg .edx = a.esp - 4#32 := h.regs
  refine ⟨hesp, ?_, h.system⟩
  show Holds a 8 (c.mem.putWord (c.reg .edx).toNat (c.reg .eax))
  rw [heax, hedx]
  exact h.holds.push hs

theorem popal_reg {r : Reg} (hr : r ≠ .esp) :
    (exec .popal next flags c).reg r = c.load (c.reg .esp + BitVec.ofNat 32 (slot r - 8)) := by
  cases r
  case esp => exact absurd rfl hr
  all_goals simp [exec, slot, setReg_ne]

theorem popal_step (h : Before a 9 c) : Before a 10 (exec .popal next flags c) := by
  have hesp : c.reg .esp = a.utf + 8#32 := h.regs
  refine ⟨⟨?_, fun r hr => ?_⟩, h.holds.congr (by omega) (by omega), h.system⟩
  · have hpop : (exec .popal next flags c).reg .esp = c.reg .esp + 32#32 := by simp [exec]
    rw [hpop, hesp, BitVec.add_assoc]
    rfl
  · have hslot := slot_lt r
    have hsum : 8#32 + BitVec.ofNat 32 (slot r - 8) = BitVec.ofNat 32 (slot r) := by
      rw [show 8#32 = BitVec.ofNat 32 8 from rfl, ← BitVec.ofNat_add]
      congr 1
      omega
    rw [popal_reg hr, hesp, BitVec.add_assoc, hsum, load_frame a c (by omega)]
    exact h.holds.regs r hr

theorem popfl_step (h : Before a 11 c) : Before a 12 (exec .popfl next flags c) := by
  obtain ⟨hesp, hgen⟩ : c.reg .esp = a.utf + 44#32 ∧ General a c := h.regs
  have hload : c.load (c.reg .esp) = a.trap.eflags ||| resumeFlag := by
    rw [hesp, ← h.holds.eflags]
    exact load_frame a c (by omega)
  have hflags : (c.setUserFlags (c.load (c.reg .esp))).eflags = a.trap.eflags := by
    rw [hload]
    exact setUserFlags_restore h.system
  refine ⟨⟨?_, fun r hr => ?_, hflags⟩, h.holds.congr (by omega) (by omega), ?_⟩
  · show ((c.setUserFlags (c.load (c.reg .esp))).setReg .esp (c.reg .esp + 4#32)).reg .esp =
      a.utf + 48#32
    rw [setReg_self, hesp, BitVec.add_assoc]
    rfl
  · show ((c.setUserFlags (c.load (c.reg .esp))).setReg .esp (c.reg .esp + 4#32)).reg r =
      a.trap.reg r
    rw [setReg_ne hr]
    exact hgen r hr
  · show (c.setUserFlags (c.load (c.reg .esp))).eflags &&& ~~~userFlags = _
    rw [hflags]

theorem popl_step (h : Before a 12 c) : Before a 13 (exec (.popl .esp) next flags c) := by
  obtain ⟨hesp, hgen, hflags⟩ : c.reg .esp = a.utf + 48#32 ∧ General a c ∧
    c.eflags = a.trap.eflags := h.regs
  refine ⟨⟨?_, fun r hr => ?_, hflags⟩, h.holds.congr (by omega) (by omega), h.system⟩
  · show ((c.setReg .esp (c.reg .esp + 4#32)).setReg .esp (c.load (c.reg .esp))).reg .esp =
      a.esp - 4#32
    rw [setReg_self, hesp]
    exact (load_frame a c (by omega)).trans h.holds.esp
  · show ((c.setReg .esp (c.reg .esp + 4#32)).setReg .esp (c.load (c.reg .esp))).reg r =
      a.trap.reg r
    rw [setReg_ne hr, setReg_ne hr]
    exact hgen r hr

/-- What holds before an instruction of the upcall, other than the call and the return, gives what
    holds before the next one. -/
theorem instr_step (hi : (pgfaultUpcall handlerVar)[k]? = some (i, n)) (hcall : k ≠ 2)
    (hret : k ≠ 13)
    (hs : a.Stacked) (h : Before a k c) : Before a (k + 1) (exec i next flags c) := by
  match k, hi with
  | 0, hi => cases hi; exact pushl_step h
  | 1, hi => cases hi; exact movlAbs_step h
  | 2, _ => exact absurd rfl hcall
  | 3, hi =>
    cases hi
    refine addl_step h (by omega) (by omega) ?_
    have hesp : c.reg .esp = a.utf - 4#32 := h.regs
    exact addl_esp.trans (by rw [hesp, BitVec.sub_add_cancel])
  | 4, hi => cases hi; exact movlLoad_eip_step h
  | 5, hi => cases hi; exact sublMem_step h
  | 6, hi => cases hi; exact movlLoad_esp_step h
  | 7, hi => cases hi; exact movlStore_step h hs
  | 8, hi =>
    cases hi
    refine addl_step h (by omega) (by omega) ?_
    have hesp : c.reg .esp = a.utf := h.regs
    exact addl_esp.trans (by rw [hesp])
  | 9, hi => cases hi; exact popal_step h
  | 10, hi =>
    cases hi
    obtain ⟨hesp, hgen⟩ : c.reg .esp = a.utf + 40#32 ∧ General a c := h.regs
    refine addl_step h (by omega) (by omega) ⟨addl_esp.trans ?_, addl_general hgen⟩
    rw [hesp, BitVec.add_assoc]
    rfl
  | 11, hi => cases hi; exact popfl_step h
  | 12, hi => cases hi; exact popl_step h
  | 13, _ => exact absurd rfl hret

theorem call_step (next flags : Word) (h : Before a 2 c) :
    ((exec (.call .eax) next flags c).reg .esp).toNat + 4 ≤ a.utf.toNat ∧
      Holds a 3 (exec (.call .eax) next flags c).mem ∧
      SameSystem a (exec (.call .eax) next flags c) := by
  have hesp : c.reg .esp = a.utf - 4#32 := h.regs
  have hbounds := a.utf_bounds
  have hpush : (c.reg .esp - 4#32).toNat = a.utf.toNat - 8 := by
    have h4 : (a.utf - 4#32).toNat = a.utf.toNat - 4 := a.utf_sub (by omega)
    rw [hesp, BitVec.toNat_sub, h4, BitVec.toNat_ofNat]
    omega
  refine ⟨?_, (h.holds.below (by omega) fun x hx => ?_).congr (by omega) (by omega), h.system⟩
  · show ((c.push next).reg .esp).toNat + 4 ≤ a.utf.toNat
    rw [push_esp, hpush]
    omega
  · show (c.push next).mem x = c.mem x
    rw [push_mem, ByteMem.putWord, overwrite_out (by omega)]

/-- The last instruction: the state is that of the fault, with the memory that was in use. -/
theorem ret_step (next flags : Word) (h : Before a 13 c) (hs : a.Stacked) :
    (exec .ret next flags c).reg = a.trap.reg ∧ (exec .ret next flags c).eip = a.trap.eip ∧
      (exec .ret next flags c).eflags = a.trap.eflags ∧
      ∀ x, a.liveFrom ≤ x → (exec .ret next flags c).mem x = a.trap.mem x := by
  obtain ⟨hesp, hgen, hflags⟩ : c.reg .esp = a.esp - 4#32 ∧ General a c ∧
    c.eflags = a.trap.eflags := h.regs
  refine ⟨?_, ?_, hflags, h.holds.live⟩
  · funext r
    show (c.setReg .esp (c.reg .esp + 4#32)).reg r = a.trap.reg r
    by_cases hr : r = .esp
    · rw [hr, setReg_self, hesp, BitVec.sub_add_cancel]
      rfl
    · rw [setReg_ne hr, hgen r hr]
  · show c.load (c.reg .esp) = a.trap.eip
    rw [Core.load, hesp, hs.pushed.1]
    exact h.holds.pushed (by omega)

end Instructions

/-! ### Faults within faults -/

/-- A fault being served has what it needs to return. -/
def Serves (entry : Word) (a : Act) (c : Core) : Prop :=
  match a.mode with
  | .handler => (c.reg .esp).toNat + 4 ≤ a.utf.toNat ∧ Holds a 3 c.mem ∧ SameSystem a c
  | .upcall => ∃ k, c.eip = addr entry k ∧ Before a k c

/-- Every fault being served has what it needs to return, the outer ones in the state that the
    one inside them interrupted. -/
inductive Good (entry : Word) : Core → List Act → Prop
  | nil (c : Core) : Good entry c []
  | cons {a : Act} {c : Core} {rest : List Act} (serves : Serves entry a c)
      (fault : MayFault entry ⟨a.trap, rest⟩) (outer : Good entry a.trap rest) :
      Good entry c (a :: rest)

section Faults

variable {entry handlerVar : Word} {a b : Act} {c c' : Core} {k : ℕ} {rest : List Act}
  {s s' : Sys} {l : Label}

theorem Before.lt (h : Before a k c) : k < 14 := by
  by_contra hk
  obtain ⟨j, rfl⟩ := Nat.exists_eq_add_of_le (not_lt.mp hk)
  rw [Nat.add_comm] at h
  exact h.regs

theorem MayFault.stacked (h : MayFault entry ⟨a.trap, rest⟩) : a.Stacked := by
  match rest, h with
  | [], h => exact h
  | _ :: _, h => exact .inl h.1

theorem Before.esp_le (h : Before a k c) (hk : k ≤ 7) : (c.reg .esp).toNat ≤ a.utf.toNat := by
  have hregs : c.reg .esp = a.utf ∨ c.reg .esp = a.utf - 4#32 := by
    match k, hk, h.regs with
    | 0, _, h | 4, _, h => exact .inl h
    | 1, _, h | 2, _, h | 3, _, h => exact .inr h
    | 5, _, h | 6, _, h | 7, _, h => exact .inl h.1
  have hsub : (a.utf - 4#32).toNat = a.utf.toNat - 4 := a.utf_sub (by omega)
  rcases hregs with h | h
  · rw [h]
  · rw [h]
    omega

/-- When a fault comes while another one is served, the frame of the outer one is above. -/
theorem Serves.esp_le (h : Serves entry b c) (hf : MayFault entry ⟨c, b :: rest⟩) :
    (c.reg .esp).toNat ≤ b.utf.toNat := by
  obtain ⟨_, hmode | ⟨hmode, k, hk, hpc⟩⟩ := hf
  · rw [Serves, hmode] at h
    omega
  · rw [Serves, hmode] at h
    obtain ⟨j, hj, hb⟩ := h
    obtain rfl : j = k := addr_inj hb.lt (by omega) (hj.symm.trans hpc)
    exact hb.esp_le hk

theorem Regs.congr (h : Regs a c k) (hreg : c'.reg = c.reg) (hflags : c'.eflags = c.eflags) :
    Regs a c' k := by
  obtain ⟨reg, eip, eflags, mem⟩ := c'
  obtain rfl : reg = c.reg := hreg
  obtain rfl : eflags = c.eflags := hflags
  exact h

theorem Serves.congr (h : Serves entry b c) (hf : MayFault entry ⟨c, b :: rest⟩)
    (hreg : c'.reg = c.reg)
    (heip : c'.eip = c.eip) (hflags : c'.eflags = c.eflags)
    (hmem : ∀ x, (c.reg .esp).toNat ≤ x → c'.mem x = c.mem x) : Serves entry b c' := by
  have hle := h.esp_le hf
  have hsame : ∀ x, b.utf.toNat ≤ x → c'.mem x = c.mem x := fun x hx => hmem x (by omega)
  have hsys : SameSystem b c →
    SameSystem b c' := fun h => (congrArg (· &&& ~~~userFlags) hflags).trans h
  obtain ⟨_, hmode | ⟨hmode, k, hk, hpc⟩⟩ := hf
  · rw [Serves, hmode] at h ⊢
    exact ⟨by rw [hreg]; exact h.1, h.2.1.below (by omega) hsame, hsys h.2.2⟩
  · rw [Serves, hmode] at h ⊢
    obtain ⟨j, hj, hb⟩ := h
    obtain rfl : j = k := addr_inj hb.lt (by omega) (hj.symm.trans hpc)
    refine ⟨j, heip.trans hj, ?_, hb.holds.below (by omega) hsame, hsys hb.system⟩
    exact hb.regs.congr hreg hflags

theorem Good.congr (h : Good entry c rest) (hf : MayFault entry ⟨c, rest⟩) (hreg : c'.reg = c.reg)
    (heip : c'.eip = c.eip) (hflags : c'.eflags = c.eflags)
    (hmem : ∀ x, (c.reg .esp).toNat ≤ x → c'.mem x = c.mem x) : Good entry c' rest := by
  cases h with
  | nil => exact .nil c'
  | cons serves fault outer => exact .cons (serves.congr hf hreg heip hflags hmem) fault outer

theorem faulted_before (c : Core) (err oesp faultVa : Word) :
    Before ⟨c, .upcall⟩ 0 (faulted entry c err oesp faultVa) := by
  have hbounds := (Act.mk c .upcall).utf_bounds
  have hword : ∀ {i w}, (utfWords (trapframe c err oesp) faultVa)[i]? = some w →
      (faulted entry c err oesp faultVa).mem.word ((Act.mk c .upcall).utf.toNat + 4 * i) = w :=
    word_putWords
  have hesp : (faulted entry c err oesp faultVa).reg .esp = (Act.mk c .upcall).utf :=
    (setReg_self : (c.setReg .esp (utfAddr (c.reg .esp))).reg .esp = _)
  refine ⟨hesp, ⟨fun r hr => ?_, hword (i := 10) rfl, hword (i := 11) rfl, hword (i := 12) rfl,
    fun h => by omega, fun x hx => ?_⟩, rfl⟩
  · cases r
    case esp => exact absurd rfl hr
    case edi => exact hword (i := 2) rfl
    case esi => exact hword (i := 3) rfl
    case ebp => exact hword (i := 4) rfl
    case ebx => exact hword (i := 6) rfl
    case edx => exact hword (i := 7) rfl
    case ecx => exact hword (i := 8) rfl
    case eax => exact hword (i := 9) rfl
  · exact putWords_out (.inr (hbounds.2.1.trans hx))

variable {t : Core} {m : Mode} {x : ℕ}

theorem Holds.mode {m' : Mode} {mem : ByteMem} (h : Holds ⟨t, m⟩ k mem) : Holds ⟨t, m'⟩ k mem :=
  ⟨h.regs, h.eip, h.eflags, h.esp, h.pushed, h.live⟩

theorem instr_eip {n : ℕ} {i : Instr} {next flags : Word}
    (hi : (pgfaultUpcall handlerVar)[k]? = some (i, n))
    (hcall : k ≠ 2) (hret : k ≠ 13) : (exec i next flags c).eip = next := by
  match k, hi with
  | 2, _ => exact absurd rfl hcall
  | 13, _ => exact absurd rfl hret
  | 0, hi | 1, hi | 3, hi | 4, hi | 5, hi | 6, hi | 7, hi | 8, hi | 9, hi | 10, hi | 11,
      hi | 12, hi =>
    cases hi
    rfl

theorem Good.step (h : Good entry s.cpu s.acts) (hstep : Step entry handlerVar s l s') :
    Good entry s'.cpu s'.acts := by
  cases hstep with
  | user c _ => exact .nil c
  | fault err oesp faultVa hf =>
    refine .cons ⟨0, ?_, faulted_before s.cpu err oesp faultVa⟩ hf h
    exact (BitVec.add_zero entry).symm
  | @instr t rest k n i flags hacts hpc hi hcall hret =>
    rw [hacts] at h ⊢
    obtain ⟨⟩ | ⟨⟨j, hj, hb⟩, hf, hout⟩ := h
    have hk : k < 14 := (List.getElem?_eq_some_iff.mp hi).1
    obtain rfl : j = k := addr_inj hb.lt hk (hj.symm.trans hpc)
    exact .cons ⟨j + 1, instr_eip hi hcall hret, instr_step hi hcall hret hf.stacked hb⟩ hf hout
  | @call t rest hacts hpc =>
    rw [hacts] at h
    obtain ⟨⟩ | ⟨⟨j, hj, hb⟩, hf, hout⟩ := h
    obtain rfl : j = 2 := addr_inj hb.lt (by omega) (hj.symm.trans hpc)
    obtain ⟨hesp, hholds, hsys⟩ := call_step (addr entry 3) 0#32 hb
    exact .cons ⟨hesp, hholds.mode, hsys⟩ hf hout
  | @handler a rest c hacts hmode hc =>
    rw [hacts] at h ⊢
    obtain ⟨⟩ | ⟨hserves, hf, hout⟩ := h
    refine .cons ?_ hf hout
    rw [Serves, hmode] at hserves ⊢
    exact ⟨hc.esp, hserves.2.1.below (by omega) hc.mem, hc.system.trans hserves.2.2⟩
  | @back t rest hacts hpc hesp =>
    rw [hacts] at h
    obtain ⟨⟩ | ⟨⟨_, hholds, hsys⟩, hf, hout⟩ := h
    exact .cons ⟨3, hpc, hesp, hholds.mode, hsys⟩ hf hout
  | @ret t rest hacts hpc =>
    rw [hacts] at h
    obtain ⟨⟩ | ⟨⟨j, hj, hb⟩, hf, hout⟩ := h
    obtain rfl : j = 13 := addr_inj hb.lt (by omega) (hj.symm.trans hpc)
    obtain ⟨hreg, heip, hflags, hmem⟩ := ret_step 0#32 0#32 hb hf.stacked
    -- an outer fault is served from the state that this one restores
    cases hout with
    | nil => exact .nil _
    | cons serves fault outer =>
      have hlive : (Act.mk t .upcall).liveFrom = (t.reg .esp).toNat := if_pos hf.1
      exact (Good.cons serves fault outer).congr hf hreg heip hflags fun x hx =>
        hmem x (hlive.trans_le hx)

/-! ### What is stored where -/

theorem MayFault.onException (h : MayFault entry ⟨c, rest⟩) (hb : b ∈ rest) :
    OnException (c.reg .esp) := by
  match rest, hb, h with
  | _ :: _, _, h => exact h.1

theorem Act.utf_le_esp (h : OnException b.esp) : b.utf.toNat + 56 = b.esp.toNat := by
  have hutf : b.utf.toNat = b.esp.toNat - 56 := utfAddr_onException h
  rw [onException_toNat] at h
  omega

/-- All that is in use on the exception stack is from the frame on. -/
theorem Act.Live.ge (h : b.Live x) : b.utf.toNat ≤ x ∨ x < ustacktop.toNat := by
  rcases h with h | ⟨h1, h2⟩
  · exact .inl h.1
  · by_cases hon : OnException b.esp
    · have := utf_le_esp hon
      omega
    · have htop : b.top = ustacktop.toNat := if_neg hon
      omega

/-- When a fault comes, the frames of the outer ones are all above. -/
theorem Good.esp_le (h : Good entry c rest) (hf : MayFault entry ⟨c, rest⟩) :
    ∀ b ∈ rest, (c.reg .esp).toNat ≤ b.utf.toNat := by
  induction h with
  | nil => exact fun b hb => absurd hb (List.not_mem_nil)
  | @cons a c rest serves fault outer ih =>
    have hhead := serves.esp_le hf
    intro b hb
    rcases List.mem_cons.mp hb with rfl | hb
    · exact hhead
    · have hup := Act.utf_le_esp (b := a) (fault.onException hb)
      have hnext : a.esp.toNat ≤ b.utf.toNat := ih fault b hb
      omega

theorem Good.frame_free (h : Good entry c rest) (hf : MayFault entry ⟨c, rest⟩)
    (hx : (utfAddr (c.reg .esp)).toNat ≤ x ∧ x < (utfAddr (c.reg .esp)).toNat + 52) :
    ¬ ((c.reg .esp).toNat ≤ x ∧ x < (Act.mk c .upcall).top) ∧ ∀ b ∈ rest, ¬ b.Live x := by
  have hbounds := utfAddr_bounds (c.reg .esp)
  have htop : ustacktop.toNat = 4005552128 := by decide
  refine ⟨fun hlive => ?_, fun b hb hlive => ?_⟩
  · by_cases hon : OnException (c.reg .esp)
    · have hutf : (utfAddr (c.reg .esp)).toNat + 56 = (c.reg .esp).toNat :=
        Act.utf_le_esp (b := ⟨c, .upcall⟩) hon
      omega
    · have : (Act.mk c .upcall).top = ustacktop.toNat := if_neg hon
      omega
  · have hon := hf.onException hb
    have hle := h.esp_le hf b hb
    have hge := hlive.ge
    have hutf : (utfAddr (c.reg .esp)).toNat + 56 = (c.reg .esp).toNat :=
      Act.utf_le_esp (b := ⟨c, .upcall⟩) hon
    omega

theorem Good.push_free (h : Good entry c (⟨t, .upcall⟩ :: rest)) (hpc : c.eip = addr entry 7)
    (hx : (c.reg .edx).toNat ≤ x ∧ x < (c.reg .edx).toNat + 4) : ∀ b ∈ Act.mk t .upcall :: rest,
    ¬ b.Live x := by
  obtain ⟨⟩ | ⟨⟨j, hj, hb⟩, hf, hout⟩ := h
  obtain rfl : j = 7 := addr_inj hb.lt (by omega) (hj.symm.trans hpc)
  obtain ⟨_, _, hedx⟩ : c.reg .esp = _ ∧ _ ∧ c.reg .edx = (Act.mk t .upcall).esp - 4#32 := hb.regs
  obtain ⟨hnat, h4, hframe, hlive⟩ := (hf.stacked : (Act.mk t .upcall).Stacked).pushed
  rw [hedx, hnat] at hx
  intro b hb hlive
  rcases List.mem_cons.mp hb with rfl | hb
  · rcases hlive with hlive | hlive
    · omega
    · omega
  · have hon : OnException (Act.mk t .upcall).esp := hf.onException hb
    have hle : (Act.mk t .upcall).esp.toNat ≤ b.utf.toNat := hout.esp_le hf b hb
    have hge := hlive.ge
    have htop : ustacktop.toNat = 4005552128 := by decide
    rw [onException_toNat] at hon
    omega

/-! ### From a fault to its return -/

/-- A step after which more than `n` faults are being served. -/
def Inner (entry handlerVar : Word) (n : ℕ) (s : Sys) (l : Label) (s' : Sys) : Prop :=
  Step entry handlerVar s l s' ∧ n < s'.acts.length

theorem Good.ret (h : Good entry s.cpu s.acts) (hstep : Step entry handlerVar s .ret s')
    (hacts : s.acts = ⟨t, .upcall⟩ :: rest) :
    s'.cpu.reg = t.reg ∧ s'.cpu.eip = t.eip ∧ s'.cpu.eflags = t.eflags ∧
      ∀ x, (Act.mk t .upcall).liveFrom ≤ x → s'.cpu.mem x = t.mem x := by
  cases hstep with
  | @ret t' rest' hacts' hpc =>
    rw [hacts] at h
    obtain ⟨⟩ | ⟨⟨j, hj, hb⟩, hf, hout⟩ := h
    obtain rfl : j = 13 := addr_inj hb.lt (by omega) (hj.symm.trans hpc)
    exact ret_step 0#32 0#32 hb hf.stacked

theorem Step.keeps {pre : List Act} (h : Step entry handlerVar s l s')
    (hacts : s.acts = pre ++ ⟨t, m⟩ :: rest) :
    (∃ pre' m', s'.acts = pre' ++ ⟨t, m'⟩ :: rest) ∨
    (l = .ret ∧ pre = [] ∧ m = .upcall ∧ s'.acts = rest) := by
  have hcons : ∀ {a : Act} {r : List Act}, s.acts = a :: r →
      (pre = [] ∧ Act.mk t m = a ∧ rest = r) ∨ ∃ pre', r = pre' ++ ⟨t, m⟩ :: rest := by
    intro a r h
    rcases List.append_eq_cons_iff.mp (hacts.symm.trans h) with ⟨rfl, h⟩ | ⟨pre', rfl, h⟩
    · exact .inl ⟨rfl, List.cons.inj h⟩
    · exact .inr ⟨pre', h⟩
  cases h with
  | user c h => simp [h] at hacts
  | fault err oesp faultVa _ => exact .inl ⟨⟨s.cpu, .upcall⟩ :: pre, m, by rw [hacts]; rfl⟩
  | instr => exact .inl ⟨pre, m, hacts⟩
  | handler => exact .inl ⟨pre, m, hacts⟩
  | @call t' r h =>
    rcases hcons h with ⟨_, heq, rfl⟩ | ⟨pre', rfl⟩
    · cases heq
      exact .inl ⟨[], .handler, rfl⟩
    · exact .inl ⟨⟨t', .handler⟩ :: pre', m, rfl⟩
  | @back t' r h =>
    rcases hcons h with ⟨_, heq, rfl⟩ | ⟨pre', rfl⟩
    · cases heq
      exact .inl ⟨[], .upcall, rfl⟩
    · exact .inl ⟨⟨t', .upcall⟩ :: pre', m, rfl⟩
  | @ret t' r h =>
    rcases hcons h with ⟨hpre, heq, rfl⟩ | ⟨pre', rfl⟩
    · cases heq
      exact .inr ⟨rfl, hpre, rfl, rfl⟩
    · exact .inl ⟨pre', m, rfl⟩

theorem inner_keeps {ls : List Label} (hrun : Run (Inner entry handlerVar rest.length) s ls s')
    (h : ∃ pre m, s.acts = pre ++ ⟨t, m⟩ :: rest) : ∃ pre m, s'.acts = pre ++ ⟨t, m⟩ :: rest := by
  refine hrun.invariant (fun s => ∃ pre m, s.acts = pre ++ ⟨t, m⟩ :: rest) h
    fun s l s' ⟨pre, m, hacts⟩ ⟨hstep, hlen⟩ => ?_
  rcases hstep.keeps hacts with hkeep | ⟨_, _, _, hrest⟩
  · exact hkeep
  · exact absurd hlen (by rw [hrest]; exact lt_irrefl _)

theorem exists_instr (handlerVar : Word) (hacts : s.acts = ⟨t, .upcall⟩ :: rest)
    (hpc : s.cpu.eip = addr entry k)
    (hk : k < 13) (hcall : k ≠ 2) :
    ∃ s', Step entry handlerVar s (.instr k) s' ∧ s'.acts = ⟨t, .upcall⟩ :: rest ∧
    s'.cpu.eip = addr entry (k + 1) := by
  have hlt : k < (pgfaultUpcall handlerVar).length := by
    show k < 14
    omega
  have hi := List.getElem?_eq_getElem hlt
  exact ⟨_, .instr 0#32 hacts hpc hi hcall (by omega), hacts, instr_eip hi hcall (by omega)⟩

/-- From the return of the handler on, the upcall reaches its last instruction. -/
theorem exists_finish (handlerVar : Word) (hacts : s.acts = ⟨t, .upcall⟩ :: rest) (hk : k ≤ 13)
    (hpc : s.cpu.eip = addr entry k) (h3 : 3 ≤ k) :
    ∃ s3 s4, Run (fun s l s' => Step entry handlerVar s l s' ∧ s'.acts = ⟨t, .upcall⟩ :: rest) s
      ((List.range' k (13 - k)).map .instr) s3 ∧ Step entry handlerVar s3 .ret s4 ∧
      s4.acts = rest := by
  obtain ⟨d, hd⟩ : ∃ d, 13 - k = d := ⟨_, rfl⟩
  rw [hd]
  induction d generalizing s k with
  | zero =>
    obtain rfl : k = 13 := by omega
    exact ⟨s, _, .nil s, .ret hacts hpc, rfl⟩
  | succ d ih =>
    obtain ⟨s', hstep, hacts', hpc'⟩ := exists_instr handlerVar hacts hpc (by omega) (by omega)
    obtain ⟨s3, s4, hrun, hret, hrest⟩ := ih hacts' (by omega) hpc' (by omega) (by omega)
    refine ⟨s3, s4, ?_, hret, hrest⟩
    rw [List.range'_succ, List.map_cons, Run.cons_iff]
    exact ⟨_, ⟨hstep, hacts'⟩, hrun⟩

/-- With a handler that returns at once, a fault is served to its end. -/
theorem exists_served (handlerVar : Word) (hacts : s.acts = ⟨t, .upcall⟩ :: rest)
    (hpc : s.cpu.eip = addr entry 0) :
    ∃ ls s3 s4, Run (Inner entry handlerVar rest.length) s ls s3 ∧
      Step entry handlerVar s3 .ret s4 ∧ s4.acts = rest := by
  have hlen : ∀ {s : Sys} {a : Act}, s.acts = a :: rest → rest.length < s.acts.length := by
    intro s a h
    rw [h]
    exact Nat.lt_succ_self _
  obtain ⟨s1, hpush, hacts1, hpc1⟩ := exists_instr handlerVar hacts hpc (by omega) (by omega)
  obtain ⟨s2, hmov, hacts2, hpc2⟩ := exists_instr handlerVar hacts1 hpc1 (by omega) (by omega)
  obtain ⟨s3, hcall, hacts3⟩ : ∃ s', Step entry handlerVar s2 (.instr 2) s' ∧
      s'.acts = ⟨t, .handler⟩ :: rest :=
    ⟨_, .call hacts2 hpc2, rfl⟩
  obtain ⟨a, ha⟩ : ∃ a, Act.mk t .handler = a := ⟨_, rfl⟩
  rw [ha] at hacts3
  -- the handler pops its return address and goes there
  obtain ⟨s4, hret, hacts4, hpc4, hesp⟩ : ∃ s', Step entry handlerVar s3 .handler s' ∧
      s'.acts = a :: rest ∧ s'.cpu.eip = addr entry 3 ∧ s'.cpu.reg .esp = a.utf - 4#32 := by
    have hsub : (a.utf - 4#32).toNat = a.utf.toNat - 4 := a.utf_sub (by omega)
    have hbounds := a.utf_bounds
    have hself :
      ((s3.cpu.setReg .esp (a.utf - 4#32)).goto (addr entry 3)).reg .esp = a.utf - 4#32 := by simp
    refine ⟨⟨(s3.cpu.setReg .esp (a.utf - 4#32)).goto (addr entry 3), s3.acts⟩,
      .handler hacts3 (by rw [← ha]) ⟨fun x _ => rfl, ?_, rfl⟩, hacts3, rfl, hself⟩
    rw [hself, hsub]
    omega
  have hback : Step entry handlerVar s4 .back ⟨s4.cpu, ⟨t, .upcall⟩ :: rest⟩ := by
    subst ha
    exact .back hacts4 hpc4 hesp
  obtain ⟨s5, s6, hrun, hlast, hrest⟩ := exists_finish handlerVar
    (s := ⟨s4.cpu, ⟨t, .upcall⟩ :: rest⟩) rfl (by omega) hpc4 (by omega)
  have hrun' : Run (Inner entry handlerVar rest.length) _ _ s5 :=
    hrun.mono fun _ _ _ h => ⟨h.1, hlen h.2⟩
  have hfirst : Run (Inner entry handlerVar rest.length) s _ s2 :=
    (Run.single ⟨hpush, hlen hacts1⟩).snoc ⟨hmov, hlen hacts2⟩
  have hreturn : Run (Inner entry handlerVar rest.length) s _ s4 :=
    (hfirst.snoc ⟨hcall, hlen hacts3⟩).snoc ⟨hret, hlen hacts4⟩
  exact ⟨_, s5, s6, (hreturn.snoc ⟨hback, Nat.lt_succ_self _⟩).append hrun', hlast, hrest⟩

/-- **A page fault and the return from its upcall are the identity.** From any state without
    faults being served, whatever happened before a fault and while it was served, faults within
    it included: the step that ends it is the last `ret` of the upcall and restores the general
    registers, `%eip`, `%eflags` and the exception stack that was in use; once the handler has
    returned that `ret` is reached; and neither a frame nor a pushed `%eip` is stored over
    anything that a fault being served, or the stack it interrupted, still needs. -/
theorem fault_return_identity {s₀ s₁ s₂ s₃ : Sys} {l₁ l₂ : List Label} (h0 : s₀.acts = [])
    (hrun : Run (Step entry handlerVar) s₀ l₁ s₁) (hfault : Step entry handlerVar s₁ .fault s₂)
    (hserve : Run (Inner entry handlerVar s₁.acts.length) s₂ l₂ s₃) :
    (∀ l s₄, Step entry handlerVar s₃ l s₄ → s₄.acts.length = s₁.acts.length →
      l = .ret ∧ s₄.acts = s₁.acts ∧ s₄.cpu.reg = s₁.cpu.reg ∧ s₄.cpu.eip = s₁.cpu.eip ∧
        s₄.cpu.eflags = s₁.cpu.eflags ∧
        ∀ x, (Act.mk s₁.cpu .upcall).liveFrom ≤ x → s₄.cpu.mem x = s₁.cpu.mem x) ∧
    (∀ k t rest, 3 ≤ k → k ≤ 13 → s₃.acts = ⟨t, .upcall⟩ :: rest → s₃.cpu.eip = addr entry k →
      ∃ s₄, Run (Step entry handlerVar) s₃ ((List.range' k (13 - k)).map .instr ++ [.ret]) s₄ ∧
      s₄.acts = rest) ∧
    (∀ x, (utfAddr (s₁.cpu.reg .esp)).toNat ≤ x → x < (utfAddr (s₁.cpu.reg .esp)).toNat + 52 →
      ¬ ((s₁.cpu.reg .esp).toNat ≤ x ∧ x < (Act.mk s₁.cpu .upcall).top) ∧ ∀ b ∈ s₁.acts,
    ¬ b.Live x) ∧ ∀ t rest x, s₃.acts = ⟨t, .upcall⟩ :: rest → s₃.cpu.eip = addr entry 7 →
      (s₃.cpu.reg .edx).toNat ≤ x → x < (s₃.cpu.reg .edx).toNat + 4 → ∀ b ∈ s₃.acts,
      ¬ b.Live x := by
  have hgood₁ : Good entry s₁.cpu s₁.acts :=
    hrun.invariant (fun s => Good entry s.cpu s.acts) (by rw [h0]; exact .nil _) fun _ _ _ h
      hs => h.step hs
  have hgood₃ : Good entry s₃.cpu s₃.acts :=
    hserve.invariant (fun s => Good entry s.cpu s.acts) (hgood₁.step hfault) fun _ _ _ h
      hs => h.step hs.1
  obtain ⟨hmay, hacts₂⟩ : MayFault entry s₁ ∧ s₂.acts = ⟨s₁.cpu, .upcall⟩ :: s₁.acts := by
    cases hfault with
    | fault err oesp faultVa hmay => exact ⟨hmay, rfl⟩
  obtain ⟨pre, m, hacts₃⟩ := inner_keeps hserve ⟨[], .upcall, hacts₂⟩
  refine ⟨fun l s₄ hstep hlen => ?_, fun k t rest h3 hk hacts hpc => ?_,
    fun x h1 h2 => hgood₁.frame_free hmay ⟨h1, h2⟩, fun t rest x hacts hpc h1 h2 => ?_⟩
  · rcases hstep.keeps hacts₃ with ⟨pre', m', hkeep⟩ | ⟨rfl, rfl, rfl, hrest⟩
    · rw [hkeep, List.length_append, List.length_cons] at hlen
      omega
    · exact ⟨rfl, hrest, hgood₃.ret hstep hacts₃⟩
  · obtain ⟨s, s₄, hsteps, hret, hrest⟩ := exists_finish handlerVar hacts hk hpc h3
    exact ⟨s₄, (hsteps.mono fun _ _ _ h => h.1).snoc hret, hrest⟩
  · rw [hacts] at hgood₃ ⊢
    exact hgood₃.push_free hpc ⟨h1, h2⟩

/-- A fault on the normal stack, served by a handler that returns at once. -/
theorem fault_return_identity_once :
    ∃ (c : Core) (s₄ : Sys), c.reg .esp = 0xEEBFDF00#32 ∧ s₄.acts = [] ∧ s₄.cpu.reg = c.reg ∧
      s₄.cpu.eip = c.eip ∧ s₄.cpu.eflags = c.eflags := by
  let c : Core :=
    ⟨fun r => if r = .esp then 0xEEBFDF00#32 else 7#32, 0x800040#32, 0x246#32, fun _ => 0⟩
  have hmay : MayFault 0x800020#32 ⟨c, []⟩ := .inr ⟨by decide, by decide⟩
  have hfault : Step 0x800020#32 0x804000#32 ⟨c, []⟩ .fault
      ⟨faulted 0x800020#32 c 6#32 0#32 0x800000#32, [⟨c, .upcall⟩]⟩ := .fault _ _ _ hmay
  obtain ⟨ls, s₃, s₄, hserve, hret, hacts⟩ :=
    exists_served 0x804000#32 (s := ⟨faulted 0x800020#32 c 6#32 0#32 0x800000#32, [⟨c, .upcall⟩]⟩)
      rfl
      (BitVec.add_zero 0x800020#32).symm
  have hid := (fault_return_identity rfl (.nil ⟨c, []⟩) hfault hserve).1 _ s₄ hret (by rw [hacts])
  exact ⟨c, s₄, rfl, hacts, hid.2.2.1, hid.2.2.2.1, hid.2.2.2.2.1⟩

end Faults

end LinuxStudy.Jos.Upcall
