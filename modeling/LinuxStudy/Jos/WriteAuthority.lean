import LinuxStudy.Jos.Apart
import LinuxStudy.Jos.PageLeak

/-!
# Write authority is not amplified

`sys_page_alloc`, `sys_page_map`, `sys_page_unmap` and `sys_ipc_try_send` copy mappings with
permissions their callers choose. A page that nobody can write stays that way for as long as
it is in use: a new writable entry is for a page just taken from the free list, or for one
that had a writable entry. Nothing here depends on the reference counts.
-/

namespace LinuxStudy.Jos

open Kernel

/-- No environment has an entry with `PTE_W` for page `p`. -/
def NoWriter (k : Kernel) (p : ℕ) : Prop :=
  ∀ e i t, frameOf (pte k.dirs k.pmap e i t) = some p → ¬ has (pte k.dirs k.pmap e i t) pteW

/-- The calls that create, copy and remove mappings, and the one that waits for a page. -/
def Call.Paging : Call → Prop
  | .pageAlloc _ _ _ | .pageMap _ _ _ _ _ | .pageUnmap _ _ | .ipcTrySend _ _ _ _
  | .ipcRecv _ => True
  | _ => False

/-- One of these calls by an environment that is not dying; pages are sent below `UTOP`. -/
def PagingStep (k : Kernel) (r : Request) (k' : Kernel) : Prop :=
  k.Step (.trap r) k' ∧ (k.envs r.cur).envStatus ≠ .dying ∧ r.call.Paging ∧
    k.SendsBelow r.cur r.call

/-- A paging step in a state where page `p` is not free. -/
def PagingStepWhileUsed (p : ℕ) (k : Kernel) (r : Request) (k' : Kernel) : Prop :=
  PagingStep k r k' ∧ ¬ Reach k.pmap.link k.pmap.pageFreeList p

section Authority

variable {k k' : Kernel} {curenv : EnvIx} {cr3 p : ℕ} {dev : Int} {c : Call} {o : Outcome}
  {perm f : Word} {r : Request}

/-- The flags of an entry are those that were asked for, and `PTE_P`. -/
theorem has_mkPte (hp : p < 2 ^ 20) (hperm : IsPerm perm) (hf : 0xFFF#32 &&& f = f)
    (hf' : pteP &&& f = 0#32) : has (mkPte p perm) f ↔ has perm f := by
  have hflags := pteFlags_mkPte hp hperm
  have hand : mkPte p perm &&& f = perm &&& f := by
    rw [← hf, ← BitVec.and_assoc, ← pteFlags, hflags, hf, BitVec.and_or_distrib_right, hf',
      BitVec.or_zero]
  rw [has, has, hand]

/-- A page that can be written, or is about to be handed out. -/
def Writable (k : Kernel) (p : ℕ) : Prop :=
  Reach k.pmap.link k.pmap.pageFreeList p ∨
    ∃ e i t, frameOf (pte k.dirs k.pmap e i t) = some p ∧ has (pte k.dirs k.pmap e i t) pteW

theorem insert_edit {s s' : Pmap} {dst : EnvIx} {va : Word} {r : Int}
    (hE : Edit k.dirs (fun _ => False) k.pmap s) (hva : va < utop) (hperm : IsPerm perm)
    (hlt : p < 2 ^ 20) (hnot : NotDir k.dirs p) (hw : has perm pteW → Writable k p)
    (h : s.pageInsert (k.dirs dst) p va perm = some (s', r)) :
    Edit k.dirs (fun w => ∀ q, frameOf w = some q → has w pteW → Writable k q) k.pmap s' := by
  obtain ⟨E, _⟩ := hE.apart.insert hva hperm hlt hnot h
  refine ⟨E.apart, fun e i t => ?_⟩
  rcases E.pte_cases e i t with hsame | hzero | hword
  · rcases hE.pte_cases e i t with hsame' | hzero' | hfalse
    · exact .inl (hsame.trans hsame')
    · exact .inr (.inl (hsame.trans hzero'))
    · exact absurd hfalse id
  · exact .inr (.inl hzero)
  · refine .inr (.inr fun q hq hW => ?_)
    rw [hword, frameOf_mkPte hlt hperm] at hq
    rw [hword, has_mkPte hlt hperm (by decide) (by decide)] at hW
    rw [← Option.some.inj hq]
    exact hw hW

/-- What a call does to the entries: each keeps its word, is cleared, or gets a word that is
    writable only for a page that was. -/
structure KEdit (k k' : Kernel) : Prop where
  agree : k.Agree k'
  edit : Edit k.dirs (fun w => ∀ q, frameOf w = some q → has w pteW → Writable k q) k.pmap k'.pmap

theorem KEdit.refl (A : Apart k.dirs k.pmap) : KEdit k k :=
  ⟨Kernel.Agree.refl k, Edit.refl A _⟩

theorem KEdit.agree_right {k'' : Kernel} (h : KEdit k k') (hag : k'.Agree k'')
    (hm : k''.pmap = k'.pmap) : KEdit k k'' :=
  ⟨h.agree.trans hag, by rw [hm]; exact h.edit⟩

/-- A page found in an address space, inserted with `PTE_W` only if it was found with it. -/
theorem insert_found_edit (A : Apart k.dirs k.pmap) {src dst : EnvIx} {slot : Slot}
    {srcva dstva : Word} {s' : Pmap} {r : Int} (hsrc : srcva < utop) (hdst : dstva < utop)
    (hperm : IsPerm perm) (hfound : k.pmap.pageLookup (k.dirs src) srcva = some (some (p, slot)))
    (hw : has perm pteW → has (k.pmap.mem slot.1 slot.2) pteW)
    (h : k.pmap.pageInsert (k.dirs dst) p dstva perm = some (s', r)) : KEdit k (k.setPmap s') := by
  obtain ⟨htable, hslot, hpage⟩ := Pmap.pageLookup_found hsrc hfound
  refine ⟨Kernel.Agree.setPmap k s', insert_edit (Edit.refl A _) hdst hperm
    (Apart.frameOf_lt hpage) (A.page _ _ _ _ hpage) (fun hW => ?_) h⟩
  have hword : k.pmap.mem slot.1 slot.2 = pte k.dirs k.pmap src (pdx srcva) (ptx srcva) := by
    rw [pte_of_table htable, hslot]
  exact .inr ⟨src, _, _, hpage, hword ▸ hw hW⟩

theorem call_edit (A : Apart k.dirs k.pmap) (hc : c.Paging) (hsend : k.SendsBelow curenv c)
    (h : (k.call curenv cr3 dev c).2 = some o) : KEdit k o.kernel := by
  cases c with
  | pageAlloc envid va perm =>
    rcases sysPageAlloc_cases h with ⟨_, _, rfl⟩ | ⟨e, q, s, s', r, _, hva, hperm, hs, hins, rfl⟩
    · exact KEdit.refl A
    · obtain ⟨E, hfree, _, _⟩ := A.alloc hs (fun _ => False)
      obtain ⟨hlt, hnot⟩ := A.free q hfree
      exact ⟨Kernel.Agree.setPmap k s', insert_edit E (not_badVa hva).1
        (isPerm_of_not_badPerm hperm) hlt hnot (fun _ => .inl hfree) hins⟩
  | pageMap srcenvid srcva dstenvid dstva perm =>
    rcases sysPageMap_cases h with
      ⟨_, _, rfl⟩ | ⟨_, _, _, _, s', _, _, hsrc, hdst, hperm, hfound, hw, hins, rfl⟩
    · exact KEdit.refl A
    · exact insert_found_edit A hsrc hdst hperm hfound hw hins
  | pageUnmap envid va =>
    rcases sysPageUnmap_cases h with ⟨_, _, rfl⟩ | ⟨_, s', _, hva, hrem, rfl⟩
    · exact KEdit.refl A
    · exact ⟨Kernel.Agree.setPmap k s', (A.remove hva hrem _).1⟩
  | ipcTrySend envid value srcva perm =>
    rcases sysIpcTrySend_cases h with ⟨_, _, rfl⟩ | ⟨dst, k1, hdst, hrecv, _, htr, rfl⟩
    · exact KEdit.refl A
    · rcases ipcTransfer_cases htr with ⟨hneg, _⟩ | ⟨_, rfl, _⟩ |
        ⟨_, _, s', _, hsrc, _, _, _, hperm, hfound, hw, hins, rfl⟩
      · exact absurd hneg (lt_irrefl 0)
      · exact (KEdit.refl A).agree_right (Kernel.Agree.ipcDeliver _ _ _ _) rfl
      · have hE := insert_found_edit A hsrc (hsend hsrc dst hdst hrecv) hperm hfound hw hins
        have hag := (Kernel.Agree.setEnv (k.setPmap s') dst
          (f := fun env => { env with envIpcPerm := perm }) (fun _ => rfl) fun _ => rfl).trans
          (Kernel.Agree.ipcDeliver _ curenv dst value)
        exact hE.agree_right hag rfl
  | ipcRecv dstva =>
    cases h
    obtain ⟨hag, hm⟩ := k.sysIpcRecv_agree curenv dstva
    exact (KEdit.refl A).agree_right hag hm
  | _ => exact absurd hc id

theorem trap_edit {tf : Trapframe} (A : Apart k.dirs k.pmap)
    (halive : (k.envs curenv).envStatus ≠ .dying) (hc : c.Paging) (hsend : k.SendsBelow curenv c)
    (h : (k.trapSyscall curenv cr3 dev tf c).2 = some o) : KEdit k o.kernel := by
  rcases trapSyscall_cases h with ⟨hdying, _⟩ | ⟨_, o1, ho1, _, hres⟩
  · exact absurd hdying halive
  · have hag := Kernel.Agree.saveTf k curenv tf
    have A1 : Apart (k.saveTf curenv tf).dirs (k.saveTf curenv tf).pmap := by
      rw [hag.dirs]
      exact A
    obtain ⟨hag1, hE⟩ := call_edit A1 hc (hsend.saveTf tf) ho1
    have hE1 : KEdit k o1.kernel := by
      refine ⟨hag.trans hag1, ?_⟩
      simp only [Writable, hag.dirs] at hE
      exact hE
    rcases hres with ⟨_, _, rfl, rfl⟩ | ⟨rfl, _⟩
    · exact hE1.agree_right (Kernel.Agree.setEax _ _ _) rfl
    · exact hE1

theorem PagingStep.edit (hs : PagingStep k r k') (A : Apart k.dirs k.pmap) : KEdit k k' := by
  obtain ⟨⟨cr3, o, _, ho, rfl⟩, halive, hc, hsend⟩ := hs
  exact trap_edit A halive hc hsend ho

theorem PagingStep.apart (hs : PagingStep k r k') (A : Apart k.dirs k.pmap) :
    Apart k'.dirs k'.pmap := by
  obtain ⟨hag, hE⟩ := hs.edit A
  rw [hag.dirs]
  exact hE.apart

theorem NoWriter.step (h : NoWriter k p) (A : Apart k.dirs k.pmap)
    (hs : PagingStepWhileUsed p k r k') : NoWriter k' p := by
  obtain ⟨hstep, hused⟩ := hs
  obtain ⟨hag, hE⟩ := hstep.edit A
  intro e i t hp hW
  rw [hag.dirs] at hp hW
  rcases hE.pte_cases e i t with hsame | hzero | hnew
  · rw [hsame] at hp hW
    exact h e i t hp hW
  · rw [hzero, frameOf_zero] at hp
    cases hp
  · rcases hnew p hp hW with hfree | ⟨e', i', t', hp', hW'⟩
    · exact hused hfree
    · exact h e' i' t' hp' hW'

theorem Booted.apart {F : Set ℕ} (h : Booted F k) : Apart k.dirs k.pmap := by
  obtain ⟨l, le, K⟩ := h.sound
  exact K.ledger.apart

/-- A page with one reference, which is not writable, has no writer. -/
theorem Booted.noWriter {F : Set ℕ} (h : Booted F k) {e : EnvIx} {i t : Idx}
    (hp : frameOf (pte k.dirs k.pmap e i t) = some p) (href : (k.pmap.pages p).ppRef = 1)
    (hro : ¬ has (pte k.dirs k.pmap e i t) pteW) : NoWriter k p := by
  obtain ⟨l, le, K⟩ := h.sound
  have hone : refs k.dirs k.pmap p = 1 := by
    have heq := K.ledger.ref_eq p (K.ledger.mapped_page hp).1
    have hb := h.bounded p
    rw [href] at heq
    have := congrArg BitVec.toNat heq
    simp at this
    omega
  intro e' i' t' hp'
  have hsite : Site.page e' i' t' = Site.page e i t := RefCount.eq_of_count_le_one hone.le hp' hp
  obtain ⟨rfl, rfl, rfl⟩ := Site.page.inj hsite
  exact hro

end Authority

/-- **Write authority is not amplified.** After any sequence of these calls, from a kernel
    whose directories are apart: if nobody has a writable entry for page `p`, then nobody gets
    one by any further sequence of them until `p` is free. -/
theorem write_authority_not_amplified {k₀ k k' : Kernel} {p : ℕ} {rs₀ rs : List Request}
    (h : Apart k₀.dirs k₀.pmap) (hpre : Run PagingStep k₀ rs₀ k) (hno : NoWriter k p)
    (hrun : Run (PagingStepWhileUsed p) k rs k') : NoWriter k' p := by
  have A : Apart k.dirs k.pmap := hpre.invariant (fun k => Apart k.dirs k.pmap) h
    fun _ _ _ A hs => hs.apart A
  have hinv := hrun.invariant (fun k => Apart k.dirs k.pmap ∧ NoWriter k p) ⟨A, hno⟩ (by
    rintro k₁ r k₂ ⟨A₁, h₁⟩ hs
    exact ⟨hs.1.apart A₁, h₁.step A₁ hs⟩)
  exact hinv.2

/-- Environment 0 asks for a page without `PTE_W`. -/
def Request.readOnly : Request :=
  { cur := 0, tf := Trapframe.user, dev := 0, call := .pageAlloc 0 utemp (pteP ||| pteU) }

/-- Environment 0 maps this page at a second address. -/
def Request.again : Request :=
  { cur := 0, tf := Trapframe.user, dev := 0
    call := .pageMap 0 utemp 0 (utemp + 0x1000#32) (pteP ||| pteU) }

/-- On the small machine, nobody can write a page allocated without `PTE_W` when it is mapped at a
    second address. -/
theorem write_authority_not_amplified_map : ∃ (k₀ k k' : Kernel) (p : ℕ),
    Apart k₀.dirs k₀.pmap ∧ Run PagingStep k₀ [.readOnly] k ∧ NoWriter k p ∧
      Run (PagingStepWhileUsed p) k [.again] k' ∧ frameOf (pte k'.dirs k'.pmap 0 1 1) = some p ∧
      NoWriter k' p := by
  obtain ⟨k, hk, hs, d, hd, o, ho, hval, hs', hro, d', hd', o', ho', p, hp', hp, href⟩ :
      ∃ k ∈ Kernel.tiny, (k.envs 0).envStatus ≠ .dying ∧ ∃ d ∈ k.dirs 0,
        ∃ o ∈ (k.trapSyscall 0 d 0 .user Request.readOnly.call).2, o.value = some 0 ∧
        (o.kernel.envs 0).envStatus ≠ .dying ∧
        ¬ has (pte o.kernel.dirs o.kernel.pmap 0 1 0) pteW ∧ ∃ d ∈ o.kernel.dirs 0,
        ∃ o' ∈ (o.kernel.trapSyscall 0 d 0 .user Request.again.call).2,
        ∃ p ∈ frameOf (pte o'.kernel.dirs o'.kernel.pmap 0 1 1),
          frameOf (pte o.kernel.dirs o.kernel.pmap 0 1 0) = some p ∧
          (o.kernel.pmap.pages p).ppRef = 1 := by
    decide +kernel
  rw [Option.mem_def, Outcome.eq_of_value hval] at ho
  obtain ⟨hbooted, hle⟩ := booted_boot (by decide)
    (Pmap.blank_early (by decide) (by decide) (by decide)) hk
  obtain ⟨hbooted', -⟩ := hbooted.pageAlloc (by decide) hle ho
  have hno := hbooted'.noWriter hp href hro
  have hused : ¬ Reach o.kernel.pmap.link o.kernel.pmap.pageFreeList p := fun hfree => by
    obtain ⟨l, le, K⟩ := hbooted'.sound
    exact (K.ledger.mapped_page hp).2.1 (K.ledger.chain.reach_iff.mp hfree)
  have hpre : Run PagingStep k [.readOnly] o.kernel :=
    .single ⟨⟨d, _, hd, ho, rfl⟩, hs, trivial, trivial⟩
  have hrun : Run (PagingStepWhileUsed p) o.kernel [.again] o'.kernel :=
    .single ⟨⟨⟨d', _, hd', ho', rfl⟩, hs', trivial, trivial⟩, hused⟩
  exact ⟨k, _, _, p, hbooted.apart, hpre, hno, hrun, hp',
    write_authority_not_amplified hbooted.apart hpre hno hrun⟩

end LinuxStudy.Jos
