import LinuxStudy.Lib.Ring
import LinuxStudy.Jos.LifeCycle

/-!
# The console input buffer of `kern/console.c`

Characters come from the serial port and the keyboard. An interrupt of either device, or the
poll at the head of `cons_getc`, moves what the device has into a ring of `CONSBUFSIZE` bytes;
`cons_getc` takes one out. The console runs beside the machine: an interrupt is a trap, from
user mode or from a halted processor, and `cons_getc` is reached by `SYS_cgetc` and, because
the `case` of `SYS_cputs` has no `break`, by every `SYS_cputs` that passes its check.

What a device has to say is a list: the values that `(*proc)()` returns before it returns -1.
-/

namespace LinuxStudy.Jos

open List (filter_append length_cons length_append append_assoc cons_ne_nil mem_append)

/-! ### The ring -/

def consbufsize : ℕ := 512

structure Cons where
  buf : ℕ → Byte
  rpos : ℕ
  wpos : ℕ

namespace Cons

/-- The static variable, which is zero when the kernel starts. -/
def zero : Cons := { buf := fun _ => 0, rpos := 0, wpos := 0 }

variable (s : Cons)

/-- The loop of `cons_intr`, for the values that `proc` returns before -1. -/
def consIntr (s : Cons) : List Byte → Cons
  | [] => s
  | c :: cs =>
    if c = 0 then s.consIntr cs
    else
      let wpos := s.wpos + 1
      { s with buf := Function.update s.buf s.wpos c
               wpos := if wpos = consbufsize then 0 else wpos }.consIntr cs

/-- `cons_getc`, with what `serial_intr` and then `kbd_intr` find. -/
def consGetc (serial kbd : List Byte) : Cons × Byte :=
  let s := (s.consIntr serial).consIntr kbd
  if s.rpos ≠ s.wpos then
    let rpos := s.rpos + 1
    ({ s with rpos := if rpos = consbufsize then 0 else rpos }, s.buf s.rpos)
  else (s, 0)

@[simp] theorem consIntr_rpos (cs : List Byte) : (s.consIntr cs).rpos = s.rpos := by
  induction cs generalizing s with
  | nil => rfl
  | cons c cs ih =>
    rw [consIntr]
    split_ifs
    · exact ih s
    · exact ih _

end Cons

/-- The characters among what a device returns; 0 stands for a key that makes none. -/
def chars (cs : List Byte) : List Byte := cs.filter (· ≠ 0)

@[simp] theorem chars_append (cs ds : List Byte) : chars (cs ++ ds) = chars cs ++ chars ds :=
  filter_append cs ds

/-- The ring holds the queue `q`. -/
structure Cons.Queue (s : Cons) (q : List Byte) : Prop where
  holds : Ring.Holds consbufsize s.buf s.rpos q
  rpos_lt : s.rpos < consbufsize
  wpos_eq : s.wpos = (s.rpos + q.length) % consbufsize
  length_lt : q.length < consbufsize

namespace Cons.Queue

variable {s : Cons} {q : List Byte} {c : Byte} {cs serial kbd : List Byte}

theorem zero : Cons.zero.Queue [] := ⟨.nil, by decide, rfl, by decide⟩

theorem wrap_eq {p : ℕ} (hp : p < consbufsize) :
    (if p + 1 = consbufsize then 0 else p + 1) = (p + 1) % consbufsize := by
  split_ifs with h
  · rw [h, Nat.mod_self]
  · exact (Nat.mod_eq_of_lt (by omega)).symm

theorem consIntr (h : s.Queue q) (hlen : q.length + (chars cs).length < consbufsize) :
    (s.consIntr cs).Queue (q ++ chars cs) := by
  induction cs generalizing s q with
  | nil => simpa [Cons.consIntr, chars] using h
  | cons c cs ih =>
    by_cases hc : c = 0
    · subst hc
      simpa [Cons.consIntr, chars] using ih h (by simpa [chars] using hlen)
    · have hcons : chars (c :: cs) = c :: chars cs :=
        List.filter_cons_of_pos (by simpa using hc)
      rw [hcons, length_cons] at hlen
      have hlast : s.wpos < consbufsize := h.wpos_eq ▸ Nat.mod_lt _ (by decide)
      rw [Cons.consIntr, if_neg hc, hcons, List.append_cons]
      refine ih ⟨?_, h.rpos_lt, ?_, ?_⟩ ?_
      · have hpush := h.holds.push_update (a := c) h.length_lt
        rwa [← h.wpos_eq] at hpush
      · rw [wrap_eq hlast, h.wpos_eq, Nat.mod_add_mod, length_append, List.length_singleton,
          Nat.add_assoc]
      · rw [length_append, List.length_singleton]
        omega
      · rw [length_append, List.length_singleton]
        omega

theorem rpos_eq_wpos (h : s.Queue q) : s.rpos = s.wpos ↔ q = [] := by
  have hlen := h.length_lt
  have hr := h.rpos_lt
  constructor
  · intro heq
    by_contra hq
    have hpos := List.length_pos_iff.mpr hq
    have hne := Ring.cell_ne (n := consbufsize) (r := s.rpos) hpos (by omega)
    rw [Nat.add_zero, Nat.mod_eq_of_lt hr, ← h.wpos_eq] at hne
    exact hne heq
  · rintro rfl
    rw [h.wpos_eq, List.length_nil, Nat.add_zero, Nat.mod_eq_of_lt hr]

/-- `cons_getc` takes the first character, with those it has just polled at the end. -/
theorem consGetc (h : s.Queue q)
    (hlen : q.length + (chars (serial ++ kbd)).length < consbufsize) :
    (s.consGetc serial kbd).1.Queue (q ++ chars (serial ++ kbd)).tail ∧
      (s.consGetc serial kbd).2 = (q ++ chars (serial ++ kbd)).headD 0 ∧
      ((s.consGetc serial kbd).1.rpos = s.rpos ↔ q ++ chars (serial ++ kbd) = []) := by
  rw [chars_append, length_append] at hlen
  have h1 : (s.consIntr serial).Queue (q ++ chars serial) := h.consIntr (by omega)
  have h2 : ((s.consIntr serial).consIntr kbd).Queue (q ++ chars (serial ++ kbd)) := by
    rw [chars_append, ← append_assoc]
    exact h1.consIntr (by rw [length_append]; omega)
  have hempty := h2.rpos_eq_wpos
  have hrpos : ((s.consIntr serial).consIntr kbd).rpos = s.rpos := by simp
  rw [Cons.consGetc]
  generalize q ++ chars (serial ++ kbd) = q' at h2 hempty
  rcases q' with _ | ⟨c, q'⟩
  · rw [if_neg (not_not_intro (hempty.mpr rfl))]
    exact ⟨h2, rfl, iff_of_true hrpos rfl⟩
  · rw [if_pos (mt hempty.mp (cons_ne_nil c q'))]
    obtain ⟨hfirst, hrest⟩ := h2.holds.pop
    rw [Nat.mod_eq_of_lt h2.rpos_lt] at hfirst
    have hlt := h2.length_lt
    rw [length_cons] at hlt
    refine ⟨⟨hrest.of_mod_eq ?_, ?_, ?_, ?_⟩, hfirst, iff_of_false ?_ (cons_ne_nil c q')⟩
    · dsimp only
      rw [wrap_eq h2.rpos_lt, Nat.mod_mod]
    · dsimp only
      rw [wrap_eq h2.rpos_lt]
      exact Nat.mod_lt _ (by decide)
    · dsimp only
      rw [wrap_eq h2.rpos_lt, Nat.mod_add_mod, h2.wpos_eq, length_cons, List.tail_cons]
      congr 1
      omega
    · rw [List.tail_cons]
      omega
    · dsimp only
      rw [← hrpos]
      split_ifs with hend
      · intro hzero
        rw [← hzero] at hend
        exact absurd hend (by decide)
      · omega

end Cons.Queue

/-! ### The console beside the machine -/

/-- What a section under the lock does to the console. -/
inductive ConsUse
  | idle
  | serialIntr
  | kbdIntr
  /-- `cons_getc`, for `SYS_cgetc`. -/
  | cgetc
  /-- `cons_getc`, for a `SYS_cputs` that falls through. -/
  | cputs
  deriving DecidableEq, Repr

/-- What `trap_dispatch` does for a device interrupt, by its number. -/
def ConsUse.ofTrapno (trapno : Word) : ConsUse :=
  match trapno.toNat with
  | 33 => .kbdIntr
  | 36 => .serialIntr
  | _ => .idle

/-- What the devices have, should they be asked, and the number of the interrupt that ends a
    halt, should one be ended. -/
structure ConsInput where
  serial : List Byte
  kbd : List Byte
  trapno : Word
  deriving DecidableEq, Repr

/-- What a step does to the console. A trap of a dying environment is not dispatched. -/
def Machine.consUse (m : Machine) (trapno : Word) : Label → ConsUse
  | .wake _ => .ofTrapno trapno
  | .trap c tf faultVa dev =>
    match m.curenv c with
    | none => .idle
    | some cur =>
      if (m.kernel.envs cur).envStatus = .dying then .idle
      else
        match Trap.decode tf faultVa dev with
        | .syscall .cgetc _ => .cgetc
        | .syscall (.cputs s len) dev =>
          match (m.kernel.trapSyscall cur (m.cpus c).cr3 dev tf (.cputs s len)).2 with
          | some (.ret _ _) => .cputs
          | _ => .idle
        | .ignored => .ofTrapno tf.tfTrapno
        | _ => .idle
  | _ => .idle

/-- The console after a step, and the result of `cons_getc` where it is called. -/
def Cons.use (s : Cons) (i : ConsInput) : ConsUse → Cons × Byte
  | .idle => (s, 0)
  | .serialIntr => (s.consIntr i.serial, 0)
  | .kbdIntr => (s.consIntr i.kbd, 0)
  | .cgetc | .cputs => s.consGetc i.serial i.kbd

/-- What the devices return in a step. -/
def ConsInput.polled (i : ConsInput) : ConsUse → List Byte
  | .idle => []
  | .serialIntr => i.serial
  | .kbdIntr => i.kbd
  | .cgetc | .cputs => i.serial ++ i.kbd

structure ConsMachine where
  machine : Machine
  cons : Cons

/-- What happened to the characters in a step. -/
structure ConsEvent where
  use : ConsUse
  /-- The characters the devices delivered. -/
  delivered : List Byte
  /-- What `cons_getc` returned. -/
  result : Byte
  /-- A character was removed: `rpos` has moved. -/
  removed : Bool
  deriving DecidableEq, Repr

/-- What the devices say to the system call of a label. -/
def Label.dev : Label → Int
  | .trap _ _ _ dev => dev
  | _ => 0

/-- A breakpoint: the monitor reads the console. -/
def Label.monitor : Label → Bool
  | .trap _ tf _ _ => tf.tfTrapno = 3#32
  | _ => false

/-- A step of the machine with its console, not to the monitor; the result of `cons_getc` is what
    the system call returns. -/
def ConsMachine.step (s : ConsMachine) (l : Label) (i : ConsInput) :
    Option (ConsMachine × ConsEvent) :=
  let use := s.machine.consUse i.trapno l
  let (cons, r) := s.cons.use i use
  if l.monitor = true ∨ (use = .cgetc ∨ use = .cputs) ∧ l.dev ≠ r.toNat then none
  else (s.machine.step l).map fun m =>
    (⟨m, cons⟩, ⟨use, chars (i.polled use), r, cons.rpos ≠ s.cons.rpos⟩)

def ConsMachine.Step (s : ConsMachine) (x : Label × ConsInput × ConsEvent) (s' : ConsMachine) :
    Prop :=
  s.step x.1 x.2.1 = some (s', x.2.2)

/-- The characters delivered in a run. -/
def deliveredLog (xs : List (Label × ConsInput × ConsEvent)) : List Byte :=
  xs.flatMap fun x => x.2.2.delivered

/-- The nonzero results of the `SYS_cgetc` calls of a run. -/
def cgetcLog (xs : List (Label × ConsInput × ConsEvent)) : List Byte :=
  chars ((xs.filter fun x => x.2.2.use = .cgetc).map fun x => x.2.2.result)

/-- The number of characters removed in a run. -/
def removedCount (xs : List (Label × ConsInput × ConsEvent)) : ℕ :=
  xs.countP fun x => x.2.2.removed

/-- What was delivered, at boot and since, and is not removed. -/
def unread (boot : List Byte) (xs : List (Label × ConsInput × ConsEvent)) (delivered : List Byte) :
    ℕ :=
  (chars boot).length + (deliveredLog xs).length + delivered.length - removedCount xs

/-- With what comes in this step, fewer than `CONSBUFSIZE` characters are unread. -/
def Roomy (boot : List Byte) (xs : List (Label × ConsInput × ConsEvent))
    (x : Label × ConsInput × ConsEvent) : Prop :=
  unread boot xs x.2.2.delivered < consbufsize

/-- If this is a `SYS_cputs` that falls through, nothing is unread and the devices have
    nothing. -/
def CputsQuiet (boot : List Byte) (xs : List (Label × ConsInput × ConsEvent))
    (x : Label × ConsInput × ConsEvent) : Prop :=
  x.2.2.use = .cputs → unread boot xs x.2.2.delivered = 0

instance (boot : List Byte) (xs : List (Label × ConsInput × ConsEvent))
    (x : Label × ConsInput × ConsEvent) : Decidable (Roomy boot xs x) :=
  inferInstanceAs (Decidable (_ < _))

instance (boot : List Byte) (xs : List (Label × ConsInput × ConsEvent))
    (x : Label × ConsInput × ConsEvent) : Decidable (CputsQuiet boot xs x) :=
  inferInstanceAs (Decidable (_ → _))

section Order

variable {boot q : List Byte} {xs : List (Label × ConsInput × ConsEvent)}
  {x : Label × ConsInput × ConsEvent} {s s' : ConsMachine}

@[simp] theorem deliveredLog_append :
    deliveredLog (xs ++ [x]) = deliveredLog xs ++ x.2.2.delivered := by
  simp [deliveredLog]

@[simp] theorem removedCount_append :
    removedCount (xs ++ [x]) = removedCount xs + x.2.2.removed.toNat := by
  cases h : x.2.2.removed <;> simp [removedCount, List.countP_append, h]

theorem cgetcLog_append_cgetc (h : x.2.2.use = .cgetc) :
    cgetcLog (xs ++ [x]) = cgetcLog xs ++ chars [x.2.2.result] := by
  simp [cgetcLog, filter_append, h]

theorem cgetcLog_append_other (h : x.2.2.use ≠ .cgetc) :
    cgetcLog (xs ++ [x]) = cgetcLog xs := by
  simp [cgetcLog, filter_append, h]

theorem ConsMachine.Step.inv (hs : s.Step x s') : ∃ use,
    s'.cons = (s.cons.use x.2.1 use).1 ∧
    x.2.2 = ⟨use, chars (x.2.1.polled use), (s.cons.use x.2.1 use).2,
      decide (s'.cons.rpos ≠ s.cons.rpos)⟩ := by
  rw [ConsMachine.Step, ConsMachine.step] at hs
  dsimp only at hs
  split at hs
  · cases hs
  · obtain ⟨m, -, hs⟩ := Option.map_eq_some_iff.mp hs
    obtain ⟨rfl, hevent⟩ := Prod.mk.inj hs
    exact ⟨_, rfl, hevent.symm⟩

/-- The queue holds what was delivered and is not yet returned, and nothing but `SYS_cgetc`
    has removed a character. -/
structure ConsInv (boot : List Byte) (xs : List (Label × ConsInput × ConsEvent))
    (s : ConsMachine) (q : List Byte) : Prop where
  queue : s.cons.Queue q
  nonzero : ∀ c ∈ q, c ≠ 0
  order : chars boot ++ deliveredLog xs = cgetcLog xs ++ q
  count : removedCount xs = (cgetcLog xs).length
  only : ∀ x ∈ xs, x.2.2.use ≠ .cgetc → x.2.2.removed = false

theorem mem_chars {c : Byte} {cs : List Byte} (h : c ∈ chars cs) : c ≠ 0 := by
  simpa using (List.mem_filter.mp h).2

namespace ConsInv

section

variable (h : ConsInv boot xs s q)
include h

theorem unread_eq (ds : List Byte) :
    unread boot xs ds = q.length + ds.length := by
  have hlen := congrArg List.length h.order
  rw [length_append, length_append] at hlen
  rw [unread, hlen, h.count]
  omega

theorem listen {cs : List Byte} (hcons : s'.cons = s.cons.consIntr cs)
    (hdelivered : x.2.2.delivered = chars cs) (hremoved : x.2.2.removed = false)
    (huse : x.2.2.use ≠ .cgetc) (hroom : q.length + x.2.2.delivered.length < consbufsize) :
    ConsInv boot (xs ++ [x]) s' (q ++ chars cs) := by
  refine ⟨?_, ?_, ?_, ?_, ?_⟩
  · rw [hcons]
    exact h.queue.consIntr (hdelivered ▸ hroom)
  · intro c hc
    rcases mem_append.mp hc with hc | hc
    · exact h.nonzero c hc
    · exact mem_chars hc
  · rw [deliveredLog_append, cgetcLog_append_other huse, ← append_assoc, h.order, hdelivered,
      append_assoc]
  · rw [removedCount_append, cgetcLog_append_other huse, hremoved, h.count]
    rfl
  · intro y hy huse'
    rcases mem_append.mp hy with hy | hy
    · exact h.only y hy huse'
    · rw [List.mem_singleton.mp hy]
      exact hremoved

theorem getc {serial kbd : List Byte}
    (hcons : s'.cons = (s.cons.consGetc serial kbd).1)
    (hresult : x.2.2.result = (s.cons.consGetc serial kbd).2)
    (hdelivered : x.2.2.delivered = chars (serial ++ kbd))
    (hremoved : x.2.2.removed = decide (s'.cons.rpos ≠ s.cons.rpos))
    (huse : x.2.2.use ≠ .cgetc → q ++ x.2.2.delivered = [])
    (hroom : q.length + x.2.2.delivered.length < consbufsize) :
    ConsInv boot (xs ++ [x]) s' (q ++ chars (serial ++ kbd)).tail := by
  obtain ⟨hqueue, hhead, hrpos⟩ := h.queue.consGetc (hdelivered ▸ hroom)
  rw [← hdelivered] at hqueue hhead hrpos ⊢
  rw [← hcons] at hqueue hrpos
  have hsound : ∀ c ∈ q ++ x.2.2.delivered, c ≠ 0 := by
    intro c hc
    rcases mem_append.mp hc with hc | hc
    · exact h.nonzero c hc
    · exact mem_chars (hdelivered ▸ hc)
  have hall : chars boot ++ deliveredLog (xs ++ [x]) = cgetcLog xs ++ (q ++ x.2.2.delivered) := by
    rw [deliveredLog_append, ← append_assoc, h.order, append_assoc]
  -- the characters returned are those removed, whoever asked
  have hlog : cgetcLog (xs ++ [x]) = cgetcLog xs ++ (q ++ x.2.2.delivered).take 1 := by
    by_cases hc : x.2.2.use = .cgetc
    · rw [cgetcLog_append_cgetc hc, hresult, hhead]
      generalize q ++ x.2.2.delivered = q' at hsound
      cases q' with
      | nil => rfl
      | cons c q' => simpa [chars] using hsound c List.mem_cons_self
    · rw [cgetcLog_append_other hc, huse hc, List.take_nil, List.append_nil]
  have hcount : x.2.2.removed.toNat = ((q ++ x.2.2.delivered).take 1).length := by
    rw [hremoved]
    generalize q ++ x.2.2.delivered = q' at hrpos
    cases q' with
    | nil => simp [hrpos.mpr rfl]
    | cons c q' => simp [mt hrpos.mp (cons_ne_nil c q')]
  refine ⟨hqueue, fun c hc => hsound c (List.mem_of_mem_tail hc), ?_, ?_, ?_⟩
  · rw [hall, hlog, append_assoc]
    rw [← List.drop_one, List.take_append_drop]
  · rw [removedCount_append, hlog, length_append, h.count, hcount]
  · intro y hy huse'
    rcases mem_append.mp hy with hy | hy
    · exact h.only y hy huse'
    · obtain rfl := List.mem_singleton.mp hy
      rw [hremoved, decide_eq_false_iff_not, not_not]
      exact hrpos.mpr (huse huse')

theorem step (hs : s.Step x s')
    (hroom : Roomy boot xs x) (hquiet : CputsQuiet boot xs x) :
    ∃ q, ConsInv boot (xs ++ [x]) s' q := by
  rw [Roomy, h.unread_eq] at hroom
  rw [CputsQuiet, h.unread_eq] at hquiet
  obtain ⟨use, hcons, hevent⟩ := hs.inv
  have hlisten : ∀ cs, s'.cons = s.cons.consIntr cs → x.2.1.polled use = cs → use ≠ .cgetc →
      ∃ q, ConsInv boot (xs ++ [x]) s' q := by
    intro cs hcons hpolled huse
    refine ⟨_, h.listen hcons ?_ ?_ ?_ hroom⟩
    · rw [hevent, hpolled]
    · simp [hevent, hcons]
    · rwa [hevent]
  cases use with
  | idle => exact hlisten [] hcons rfl nofun
  | serialIntr => exact hlisten _ hcons rfl nofun
  | kbdIntr => exact hlisten _ hcons rfl nofun
  | cgetc =>
    refine ⟨_, h.getc hcons ?_ ?_ ?_ ?_ hroom⟩
    · rw [hevent, Cons.use]
    · rw [hevent, ConsInput.polled]
    · rw [hevent]
    · rw [hevent]
      exact fun hne => absurd rfl hne
  | cputs =>
    refine ⟨_, h.getc hcons ?_ ?_ ?_ ?_ hroom⟩
    · rw [hevent, Cons.use]
    · rw [hevent, ConsInput.polled]
    · rw [hevent]
    · intro _
      have hnone := hquiet (by rw [hevent])
      rw [← length_append] at hnone
      exact List.length_eq_zero_iff.mp hnone

end

theorem init (hcons : s.cons = Cons.zero.consIntr boot)
    (hroom : (chars boot).length < consbufsize) : ConsInv boot [] s (chars boot) := by
  refine ⟨?_, fun c hc => mem_chars hc, by simp [deliveredLog, cgetcLog, chars], rfl, by simp⟩
  rw [hcons]
  have hlen : ([] : List Byte).length + (chars boot).length < consbufsize := by simpa using hroom
  simpa using Cons.Queue.zero.consIntr hlen

end ConsInv

end Order

/-- Several steps, as a function. -/
def ConsMachine.steps (s : ConsMachine) :
    List (Label × ConsInput) → Option (ConsMachine × List (Label × ConsInput × ConsEvent))
  | [] => some (s, [])
  | (l, i) :: ls => (s.step l i).bind fun (s, e) =>
      (s.steps ls).map fun (s', xs) => (s', (l, i, e) :: xs)

theorem ConsMachine.run_of_steps {s s' : ConsMachine} {ls : List (Label × ConsInput)}
    {xs : List (Label × ConsInput × ConsEvent)} (h : s.steps ls = some (s', xs)) :
    Run ConsMachine.Step s xs s' := by
  induction ls generalizing s xs with
  | nil =>
    obtain ⟨rfl, rfl⟩ := Prod.mk.inj (Option.some.inj h)
    exact .nil s
  | cons l ls ih =>
    obtain ⟨⟨t, e⟩, hstep, h⟩ := Option.bind_eq_some_iff.mp h
    obtain ⟨⟨u, ys⟩, hys, h⟩ := Option.map_eq_some_iff.mp h
    cases h
    exact Run.cons_iff.mpr ⟨t, hstep, ih hys⟩

/-- **Console order.** From the console that `cons_init` leaves, with the keys typed before it,
    in every run with room for the unread characters in which no `SYS_cputs` meets a character:
    the nonzero results of `SYS_cgetc` are a prefix of what the devices delivered, and no step
    but a `SYS_cgetc` removes a character. -/
theorem console_in_order {boot : List Byte} {xs : List (Label × ConsInput × ConsEvent)}
    {s s' : ConsMachine} (h0 : s.cons = Cons.zero.consIntr boot)
    (h : Run ConsMachine.Step s xs s') (hboot : (chars boot).length < consbufsize)
    (hroom : Throughout (Roomy boot) xs) (hquiet : Throughout (CputsQuiet boot) xs) :
    cgetcLog xs <+: chars boot ++ deliveredLog xs ∧
      ∀ x ∈ xs, x.2.2.use ≠ .cgetc → x.2.2.removed = false := by
  obtain ⟨q, hq⟩ := h.invariant_throughout (fun xs s => ∃ q, ConsInv boot xs s q)
    (hroom.and hquiet) ⟨_, .init h0 hboot⟩
    fun xs s x s' ⟨q, hq⟩ hstep ⟨hroom, hquiet⟩ => hq.step hstep hroom hquiet
  exact ⟨⟨q, hq.order.symm⟩, hq.only⟩

/-- A device interrupt on the first processor, with what the keyboard has. -/
def keys (kbd : List Byte) : Label × ConsInput :=
  (.trap 0 { Trapframe.user with tfTrapno := 33#32 } 0 0, ⟨[], kbd, 0⟩)

/-- A system call on the first processor that `cons_getc` answers with `r`. -/
def consCall (no : Word) (r : Byte) : Label × ConsInput :=
  (.trap 0 (.forCall no 0 0 0 0 0) 0 r.toNat, ⟨[], [], 0⟩)

/-- A step without console input. -/
def noInput (l : Label) : Label × ConsInput := (l, ⟨[], [], 0⟩)

/-- The machine with its console when the kernel is up. -/
def ConsMachine.ofKernel (k : Kernel) : ConsMachine := ⟨.ofKernel k 1, .zero⟩

/-- Two keys, a `SYS_cputs` after both are read, a third key: two of three characters are
    returned, in order. -/
theorem console_in_order_two : ∃ (k : Kernel) (s : ConsMachine)
    (xs : List (Label × ConsInput × ConsEvent)), Kernel.tiny = some k ∧
      Run ConsMachine.Step (.ofKernel k) xs s ∧ cgetcLog xs = [97, 98] ∧
      deliveredLog xs = [97, 98, 99] ∧ cgetcLog xs <+: deliveredLog xs := by
  let labels : List (Label × ConsInput) := [noInput (.start 0), noInput (.pop 0), keys [97, 0, 98],
    noInput (.pop 0), consCall 1#32 97, noInput (.pop 0), consCall 1#32 98, noInput (.pop 0),
    consCall 0#32 0, noInput (.pop 0), keys [99]]
  obtain ⟨k, hk, ⟨s, xs⟩, hsteps, hcgetc, hdelivered, hroom, hquiet⟩ : ∃ k ∈ Kernel.tiny,
      ∃ x ∈ (ConsMachine.ofKernel k).steps labels, cgetcLog x.2 = [97, 98] ∧
        deliveredLog x.2 = [97, 98, 99] ∧ Throughout (Roomy []) x.2 ∧
        Throughout (CputsQuiet []) x.2 := by
    decide +kernel
  have hrun := ConsMachine.run_of_steps hsteps
  obtain ⟨horder, -⟩ := console_in_order rfl hrun (by decide) hroom hquiet
  exact ⟨k, s, xs, hk, hrun, hcgetc, hdelivered, horder⟩

/-- Two keys, and a `SYS_cputs` before the first `SYS_cgetc`: the first character is lost. -/
theorem cputs_takes_character : ∃ (k : Kernel) (s : ConsMachine)
    (xs : List (Label × ConsInput × ConsEvent)), Kernel.tiny = some k ∧
      Run ConsMachine.Step (.ofKernel k) xs s ∧ Throughout (Roomy []) xs ∧
      cgetcLog xs = [98] ∧ deliveredLog xs = [97, 98] ∧ ¬cgetcLog xs <+: deliveredLog xs ∧
      ∃ x ∈ xs, x.2.2.use = .cputs ∧ x.2.2.removed = true := by
  let labels : List (Label × ConsInput) := [noInput (.start 0), noInput (.pop 0), keys [97, 98],
    noInput (.pop 0), consCall 0#32 97, noInput (.pop 0), consCall 1#32 98]
  obtain ⟨k, hk, ⟨s, xs⟩, hsteps, heval⟩ : ∃ k ∈ Kernel.tiny,
      ∃ x ∈ (ConsMachine.ofKernel k).steps labels, Throughout (Roomy []) x.2 ∧ cgetcLog x.2 = [98] ∧
        deliveredLog x.2 = [97, 98] ∧ ¬cgetcLog x.2 <+: deliveredLog x.2 ∧
        ∃ y ∈ x.2, y.2.2.use = .cputs ∧ y.2.2.removed = true := by
    decide +kernel
  exact ⟨k, s, xs, hk, ConsMachine.run_of_steps hsteps, heval⟩

end LinuxStudy.Jos
