import LinuxStudy.Jos.System

/-!
# System calls and lost pages

Whether every page of the allocator stays free or referred to over any sequence of system
calls, and whether a call that fails leaves memory as it was. `sys_page_alloc` breaks both in
one situation: the page it takes is the last free one, and the page table it needs to map it
is missing. The page is then neither mapped nor given back.
-/

namespace LinuxStudy.Jos

open Kernel

/-- The step is a store, a context switch or a system call without pointers, no page is sent to an
    address at or above `UTOP`, and `sys_page_alloc` is not about to lose the last page. -/
def Event.Careful (k : Kernel) : Event → Prop
  | .trap r => r.call.NoPointers ∧ k.SendsBelow r.cur r.call ∧ ¬ k.Loses r.cur r.call
  | .store _ _ _ => True
  | .run _ _ => True

/-- A careful step to a state in which no page has 65536 references. -/
def CarefulStep (k : Kernel) (ev : Event) (k' : Kernel) : Prop :=
  k.Step ev k' ∧ ev.Careful k ∧ Bounded k'

def Call.MapsPages : Call → Prop
  | .pageAlloc _ _ _ | .pageMap _ _ _ _ _ | .ipcTrySend _ _ _ _ => True
  | _ => False

section Leak

variable {F : Set ℕ} {k k' : Kernel} {curenv : EnvIx} {cr3 : ℕ} {dev n : Int} {tf : Trapframe}
  {c : Call} {o : Outcome} {ev : Event} {evs : List Event}

theorem Booted.careful_step (h : Booted F k) (hs : CarefulStep k ev k') : Booted F k' := by
  obtain ⟨hstep, hcare, hb'⟩ := hs
  refine h.evolve hb' fun l le K => ?_
  cases ev with
  | run cur e =>
    obtain rfl := hstep
    exact K.envRun cur e False
  | store e va b =>
    obtain ⟨cr3, s', hcr3, hva, hs, rfl⟩ := hstep
    exact K.store hcr3 hva hs False
  | trap r =>
    obtain ⟨cr3, o, _, ho, rfl⟩ := hstep
    obtain ⟨hc, hsend, hlose⟩ := hcare
    obtain ⟨⟨l', le', K', hacc⟩, hev⟩ := K.trap h.bounded hc hsend ho
    exact ⟨⟨l', le', K', Or.inr (hacc.resolve_left hlose)⟩, hev⟩

theorem Booted.careful_run (h : Booted F k) (hrun : Run CarefulStep k evs k') : Booted F k' :=
  hrun.invariant (Booted F) h fun _ _ _ => Booted.careful_step

/-- Without the last-page situation a call that maps pages and fails changes nothing. -/
theorem call_failed (h : Booted F k) (hc : c.MapsPages) (hlose : ¬ k.Loses curenv c)
    (ho : (k.call curenv cr3 dev c).2 = some (.ret n k')) (hn : n < 0) : k' = k := by
  -- a refusal is what the lemmas about the calls say it is
  have hrefused : (∃ r, r < 0 ∧ Outcome.ret n k' = .ret r k) → k' = k := by
    rintro ⟨r, _, heq⟩
    exact (Outcome.ret.inj heq).2
  cases c with
  | pageAlloc envid va perm =>
    obtain ⟨l, le, K⟩ := h.sound
    rcases K.pageAlloc h.bounded ho with hr | ⟨_, _, heq, _⟩ | ⟨_, _, hlast, _⟩
    · exact hrefused hr
    · rw [(Outcome.ret.inj heq).1] at hn
      exact absurd hn (lt_irrefl 0)
    · exact absurd hlast hlose
  | pageMap srcenvid srcva dstenvid dstva perm =>
    rcases sysPageMap_cases ho with hr | ⟨_, _, _, _, _, _, _, _, _, _, _, _, _, heq⟩
    · exact hrefused hr
    · rw [(Outcome.ret.inj heq).1] at hn
      exact absurd hn (lt_irrefl 0)
  | ipcTrySend envid value srcva perm =>
    rcases sysIpcTrySend_cases ho with hr | ⟨_, _, _, _, _, _, heq⟩
    · exact hrefused hr
    · rw [(Outcome.ret.inj heq).1] at hn
      exact absurd hn (lt_irrefl 0)
  | _ => exact absurd hc id

/-- The same for the whole trap: memory and the address spaces are as they were. -/
theorem trap_failed (h : Booted F k) (hc : c.MapsPages) (hlose : ¬ k.Loses curenv c)
    (ho : (k.trapSyscall curenv cr3 dev tf c).2 = some (.ret n k')) (hn : n < 0) :
    k'.pmap = k.pmap ∧ k'.dirs = k.dirs := by
  rcases trapSyscall_cases ho with ⟨_, _, _, heq⟩ | ⟨_, o1, ho1, _, hret | ⟨heq, hno⟩⟩
  · cases heq
  · obtain ⟨r, k1, rfl, heq⟩ := hret
    cases heq
    have hag := Kernel.Agree.saveTf k curenv tf
    have hsame : Booted F (k.saveTf curenv tf) := by
      refine h.evolve (fun p => ?_) fun l le K => (K.refl.agree hag rfl).kevolves False
      rw [hag.dirs]
      exact h.bounded p
    have hk1 := call_failed hsame hc (fun hl => hlose (loses_saveTf.mp hl)) ho1 hn
    subst hk1
    exact ⟨rfl, (Kernel.Agree.setEax _ curenv n).dirs.trans hag.dirs⟩
  · exact absurd heq.symm (hno n k')

end Leak

/-! ### The result, and a machine with four free pages -/

/-- Environment 0 asks for a page. -/
def Request.pageAlloc (va : Word) : Request :=
  { cur := 0, tf := Trapframe.user, dev := 0, call := .pageAlloc 0 va (pteP ||| pteU ||| pteW) }

/-- Eight pages, four of them for the allocator, and one environment. -/
def Kernel.tiny : Option Kernel := Kernel.boot (.blank 8 1) E1000.blank 1 3 1

theorem tiny_booted {k : Kernel} (h : Kernel.tiny = some k) : Booted (freeFrames 8 1 3) k :=
  (booted_boot (by decide) (Pmap.blank_early (by decide) (by decide) (by decide)) h).1

theorem tiny_eq_some : ∃ k, Kernel.tiny = some k :=
  Option.isSome_iff_exists.mp (by decide +kernel)

/-- **No page is lost, short of memory for the last page table.** In every run of careful
    steps from a kernel that is up, each page of the allocator is free or referred to; and in
    every state reached, a call that maps pages and returns an error leaves memory, reference
    counts, free list and address spaces as they were. -/
theorem no_page_lost {F : Set ℕ} {k k' : Kernel} {evs : List Event} (h : Booted F k)
    (hrun : Run CarefulStep k evs k') :
    (∀ p ∈ F, Reach k'.pmap.link k'.pmap.pageFreeList p ∨ 0 < (k'.pmap.pages p).ppRef.toNat) ∧
    ∀ (r : Request) (cr3 : ℕ) (n : Int) (k'' : Kernel), r.call.MapsPages →
      ¬ k'.Loses r.cur r.call →
      (k'.trapSyscall r.cur cr3 r.dev r.tf r.call).2 = some (.ret n k'') → n < 0 →
      k''.pmap = k'.pmap ∧ k''.dirs = k'.dirs := by
  have h' := h.careful_run hrun
  exact ⟨h'.accounted, fun r cr3 n k'' hc hlose ho hn => trap_failed h' hc hlose ho hn⟩

/-- What a call returns, if it does. -/
def Outcome.value : Outcome → Option Int
  | .ret r _ => some r
  | _ => none

theorem Outcome.eq_of_value {o : Outcome} {r : Int} (h : o.value = some r) :
    o = .ret r o.kernel := by
  cases o <;> cases h
  rfl

/-- `sys_page_alloc` at an address of the page table of `UTEMP`. -/
def Request.third : Request := .pageAlloc (utemp + 0x2000#32)

/-- `sys_page_map` from an address where nothing is mapped. -/
def Request.unmapped : Request :=
  { cur := 0, tf := Trapframe.user, dev := 0,
    call := .pageMap 0 (utemp + 0x2000#32) 0 (utemp + 0x3000#32) (pteP ||| pteU ||| pteW) }

/-- Two pages are mapped, and none is left for a third one; and a page that is not there cannot be
    mapped again. -/
theorem no_page_lost_run : ∃ (k k' k₁ k₂ : Kernel) (cr3 : ℕ), Booted (freeFrames 8 1 3) k ∧
    Run CarefulStep k [.trap (.pageAlloc utemp), .trap (.pageAlloc (utemp + 0x1000#32))] k' ∧
    (∀ p ∈ freeFrames 8 1 3, Reach k'.pmap.link k'.pmap.pageFreeList p ∨
      0 < (k'.pmap.pages p).ppRef.toNat) ∧
    ((k'.trapSyscall 0 cr3 0 .user Request.third.call).2 = some (.ret (-eNoMem) k₁) ∧
      k₁.pmap = k'.pmap ∧ k₁.dirs = k'.dirs) ∧
    (k'.trapSyscall 0 cr3 0 .user Request.unmapped.call).2 = some (.ret (-eInval) k₂) ∧
      k₂.pmap = k'.pmap ∧ k₂.dirs = k'.dirs := by
  obtain ⟨k, hk, hfree, cr3, hcr3, o, ho, hval, henv, htable, cr3', hcr3', o', ho', hval',
      hnone, cr3'', -, ⟨o₁, ho₁, hval₁⟩, o₂, ho₂, hval₂⟩ :
      ∃ k ∈ tiny, (k.pmap.pageFreeList.bind k.pmap.link).isSome ∧ ∃ cr3 ∈ k.dirs 0,
        ∃ o ∈ (k.trapSyscall 0 cr3 0 .user (Request.pageAlloc utemp).call).2, o.value = some 0 ∧
        o.kernel.envid2env 0 0 true = some 0 ∧
        (frameOf (pde o.kernel.dirs o.kernel.pmap 0 1)).isSome ∧ ∃ cr3 ∈ o.kernel.dirs 0,
        ∃ o' ∈ (o.kernel.trapSyscall 0 cr3 0 .user (Request.pageAlloc (utemp + 0x1000#32)).call).2,
          o'.value = some 0 ∧ o'.kernel.pmap.pageFreeList = none ∧ ∃ cr3 ∈ o'.kernel.dirs 0,
          (∃ o₁ ∈ (o'.kernel.trapSyscall 0 cr3 0 .user Request.third.call).2,
            o₁.value = some (-eNoMem)) ∧
            ∃ o₂ ∈ (o'.kernel.trapSyscall 0 cr3 0 .user Request.unmapped.call).2,
            o₂.value = some (-eInval) := by
    decide +kernel
  rw [Option.mem_def, Outcome.eq_of_value hval] at ho
  rw [Option.mem_def, Outcome.eq_of_value hval'] at ho'
  rw [Option.mem_def, Outcome.eq_of_value hval₁] at ho₁
  rw [Option.mem_def, Outcome.eq_of_value hval₂] at ho₂
  obtain ⟨hbooted, hle⟩ := booted_boot (by decide)
    (Pmap.blank_early (by decide) (by decide) (by decide)) hk
  obtain ⟨hbooted₁, hle₁⟩ := hbooted.pageAlloc (by decide) hle ho
  obtain ⟨-, hle₂⟩ := hbooted₁.pageAlloc (by decide) hle₁ ho'
  have hlose : ¬ k.Loses 0 (Request.pageAlloc utemp).call := by
    rintro ⟨e, q, _, _, _, hq, hlink, _⟩
    rw [hq, Option.bind_some, hlink] at hfree
    cases hfree
  have hlose₁ : ¬ o.kernel.Loses 0 (Request.pageAlloc (utemp + 0x1000#32)).call := by
    rintro ⟨e, q, he, _, _, _, _, hmissing⟩
    obtain rfl := Option.some.inj (henv.symm.trans he)
    rw [show pdx (utemp + 0x1000#32) = 1 by decide] at hmissing
    rw [hmissing] at htable
    cases htable
  have hlose₂ : ¬ o'.kernel.Loses 0 Request.third.call := by
    rintro ⟨e, q, _, _, _, hq, _⟩
    rw [hnone] at hq
    cases hq
  have hrun : Run CarefulStep k [.trap (.pageAlloc utemp), .trap (.pageAlloc (utemp + 0x1000#32))]
      o'.kernel :=
    (Run.single ⟨⟨cr3, _, hcr3, ho, rfl⟩, ⟨trivial, trivial, hlose⟩, fun p =>
        (hle₁ p).trans_lt (by decide)⟩).snoc
      ⟨⟨cr3', _, hcr3', ho', rfl⟩, ⟨trivial, trivial, hlose₁⟩, fun p =>
        (hle₂ p).trans_lt (by decide)⟩
  obtain ⟨haccounted, hfailed⟩ := no_page_lost hbooted hrun
  exact ⟨k, _, _, _, cr3'', hbooted, hrun, haccounted,
    ⟨ho₁, hfailed .third cr3'' _ _ trivial hlose₂ ho₁ (by decide)⟩,
    ho₂, hfailed .unmapped cr3'' _ _ trivial id ho₂ (by decide)⟩

/-- With three pages left, two calls of `sys_page_alloc` at addresses under different
    tables: the second takes page 3, fails for want of a table, and page 3 is gone. -/
theorem page_alloc_loses_page : ∃ k k' : Kernel, Booted (freeFrames 8 1 3) k ∧
    Run Kernel.Step k [.trap (.pageAlloc utemp), .trap (.pageAlloc utext)] k' ∧
      3 ∈ freeFrames 8 1 3 ∧ ¬ Reach k'.pmap.link k'.pmap.pageFreeList 3 ∧
      (k'.pmap.pages 3).ppRef = 0 := by
  obtain ⟨k, hk, k', hk', hfl, href⟩ : ∃ k ∈ tiny,
      ∃ k' ∈ k.traps [.pageAlloc utemp, .pageAlloc utext],
        k'.pmap.pageFreeList = none ∧ (k'.pmap.pages 3).ppRef = 0 := by
    decide +kernel
  have hmem : 3 ∈ freeFrames 8 1 3 := by
    show 3 < 8 ∧ ¬ Reserved 1 3 3
    decide
  refine ⟨k, k', tiny_booted hk, run_of_traps hk', hmem, ?_, href⟩
  rw [hfl]
  intro hr
  cases hr

end LinuxStudy.Jos
