import LinuxStudy.Jos.PageLeak
import LinuxStudy.Jos.UserPointers

/-!
# The kernel half of every address space

No system call may change a mapping at or above `UTOP`. Two kinds of calls can: a send whose
receiver waits with `env_ipc_dstva` at or above `UTOP`, because `sys_ipc_recv` accepts such an
address and `sys_ipc_try_send` inserts the page there; and calls that store through unchecked
pointers, or past the end of a transmit buffer. All others leave the kernel half alone.
-/

namespace LinuxStudy.Jos

open Kernel

/-- The transmit buffers lie in frames that are neither the allocator's nor part of the
    kernel's page tables, and the ring index is in range. -/
structure BuffersApart (F : Set ℕ) (k : Kernel) : Prop where
  ring : k.nic.tdt.toNat < txdescs
  apart : ∀ pa, k.nic.txBufferArray ≤ pa → pa < k.nic.txBufferArray + txdescs * txPktSize →
    pa / pgsize ∉ F ∧ pa / pgsize ≠ k.pmap.kernPgdir ∧
      ∀ i, frameOf (k.pmap.mem k.pmap.kernPgdir i) ≠ some (pa / pgsize)

/-- `kern_pgdir`, its tables and the upper half of every address space are as in `k₀`. -/
structure KernelHalf (k₀ k : Kernel) : Prop where
  kern_dir : k.pmap.kernPgdir = k₀.pmap.kernPgdir
  kern_row : k.pmap.mem k₀.pmap.kernPgdir = k₀.pmap.mem k₀.pmap.kernPgdir
  kern_table : ∀ i f, frameOf (k₀.pmap.mem k₀.pmap.kernPgdir i) = some f →
    k.pmap.mem f = k₀.pmap.mem f
  upper : ∀ e d, k.dirs e = some d → ∀ j, pdxUtop ≤ j → k.pmap.mem d j = template k₀.pmap d j

/-- What a call stores through its pointers lies below `UTOP`, and a packet fits its buffer. A call
    that is refused before it stores anything may have any pointer. -/
def Kernel.StoresBelow (k : Kernel) (curenv : EnvIx) : Call → Prop
  | .envSetTrapframe envid tf => ∀ e, k.envid2env curenv envid true = some e →
      k.GoesOn curenv e tf ∨ k.FreesTarget curenv e tf → ∀ a ∈ frameAccesses tf, WritesBelow a
  | .pktSend _ len =>
      (k.nic.txDescArray k.nic.tdt.toNat).status &&& e1000TxdStatDD = 0 ∨ len.toNat ≤ txPktSize
  | .pktRecv addr len =>
      (k.nic.rxDescArray k.nic.next).status &&& e1000RxdStatDD = 0 ∨
        (k.nic.rxDescArray k.nic.next).errors ≠ 0 ∨ (∀ i < 4, byteAt len i < utop) ∧
          ∀ i < (k.nic.rxDescArray k.nic.next).length.toNat, byteAt addr i < utop
  | _ => True

/-- Pages are sent below `UTOP`, packets fit their buffer, and the bytes stored through
    pointers are below `UTOP`. -/
def Event.Benign (k : Kernel) : Event → Prop
  | .trap r => k.SendsBelow r.cur r.call ∧ k.StoresBelow r.cur r.call
  | .store _ _ _ => True
  | .run _ _ => True

/-- A benign step to a state in which no page has 65536 references. -/
def BenignStep (k : Kernel) (ev : Event) (k' : Kernel) : Prop :=
  k.Step ev k' ∧ ev.Benign k ∧ Bounded k'

section Calls

open Logged

variable {F : Set ℕ} {k k' : Kernel} {l : List ℕ} {le : List EnvIx} {curenv : EnvIx} {cr3 : ℕ}
  {dev : Int} {c : Call} {o : Outcome}

/-- What a benign call does: the kernel evolves, and the driver's buffers stay where they are. -/
structure Kept (F : Set ℕ) (k : Kernel) (l : List ℕ) (k' : Kernel) : Prop where
  evolves : KEvolves F k l k' True
  buffers : k'.nic.txBufferArray = k.nic.txBufferArray
  ring : k.nic.tdt.toNat < txdescs → k'.nic.tdt.toNat < txdescs

theorem BuffersApart.kept (h : BuffersApart F k) (hk : Kept F k l k') : BuffersApart F k' := by
  refine ⟨hk.ring h.ring, ?_⟩
  rw [hk.buffers, hk.evolves.evolves.kern_dir, hk.evolves.evolves.kern_row]
  exact h.apart

theorem KEvolves.trans {k'' : Kernel} (h : KEvolves F k l k' True)
    (h' : ∀ l' le', KSound F k' l' le' → KEvolves F k' l' k'' True) : KEvolves F k l k'' True := by
  obtain ⟨⟨l', le', K', _⟩, hev⟩ := h
  obtain ⟨⟨l'', le'', K'', _⟩, hev'⟩ := h' l' le' K'
  exact ⟨⟨l'', le'', K'', .inl trivial⟩, hev.trans hev'⟩

/-! ### The card and the calls that do not use it -/

variable {e : EnvIx} {gone : Bool} {len tf : Word}

theorem nic_envSetupVm {r : Int} (h : k.envSetupVm e = some (k', r)) :
    k'.nic = k.nic := by
  obtain ⟨⟨s, p⟩, _, h⟩ := Option.bind_eq_some_iff.mp h
  cases p with
  | none =>
    cases h
    rfl
  | some p =>
    simp only [Option.bind_eq_some_iff, Option.some.injEq, Prod.mk.injEq] at h
    obtain ⟨pgdir, _, rfl, _⟩ := h
    rfl

theorem nic_envDestroy {cur : Option EnvIx} (h : k.envDestroy cur e = some (k', gone)) :
    k'.nic = k.nic := by
  rcases envDestroy_cases h with ⟨_, _, _, rfl⟩ | ⟨_, hfree, _⟩
  · rfl
  · obtain ⟨d, s, _, _, rfl⟩ := envFree_cases hfree
    rfl

theorem nic_envAlloc {parentId : Word} {r : Except Int EnvIx}
    (h : k.envAlloc parentId = some (k', r)) : k'.nic = k.nic := by
  rcases envAlloc_cases h with ⟨_, _, rfl⟩ | ⟨e, k1, i, _, hset, hrest⟩
  · rfl
  · have hnic := nic_envSetupVm hset
    rcases hrest with ⟨_, _, rfl⟩ | ⟨_, _, rfl⟩
    · exact hnic
    · exact hnic

theorem nic_call (hc : c.NoPointers) (h : (k.call curenv cr3 dev c).2 = some o) :
    o.kernel.nic = k.nic := by
  cases c with
  | cgetc => cases h; rfl
  | getenvid => cases h; rfl
  | timeMsec => cases h; rfl
  | yield => cases h; rfl
  | envDestroy envid =>
    rcases sysEnvDestroy_cases h with ⟨_, _, rfl⟩ | ⟨e, k', gone, _, hd, rfl⟩
    · rfl
    · cases gone with
      | true => exact nic_envDestroy hd
      | false => exact nic_envDestroy hd
  | exofork =>
    rcases sysExofork_cases h with ⟨k', r, halloc, rfl⟩ | ⟨k', e, halloc, rfl⟩
    · exact nic_envAlloc halloc
    · have hnic := nic_envAlloc halloc
      exact hnic
  | pageAlloc envid va perm =>
    rcases sysPageAlloc_cases h with ⟨_, _, rfl⟩ | ⟨_, _, _, _, _, _, _, _, _, _, rfl⟩
    · rfl
    · rfl
  | pageMap srcenvid srcva dstenvid dstva perm =>
    rcases sysPageMap_cases h with
      ⟨_, _, rfl⟩ | ⟨_, _, _, _, _, _, _, _, _, _, _, _, _, rfl⟩
    · rfl
    · rfl
  | pageUnmap envid va =>
    rcases sysPageUnmap_cases h with ⟨_, _, rfl⟩ | ⟨_, _, _, _, _, rfl⟩
    · rfl
    · rfl
  | ipcTrySend envid value srcva perm =>
    rcases sysIpcTrySend_cases h with ⟨_, _, rfl⟩ | ⟨dst, k', _, _, _, htr, rfl⟩
    · rfl
    · rcases ipcTransfer_cases htr with
        ⟨_, rfl⟩ | ⟨_, rfl, _⟩ | ⟨_, _, _, _, _, _, _, _, _, _, _, _, rfl⟩
      · rfl
      · rfl
      · rfl
  | envSetStatus envid status =>
    cases h
    rw [sysEnvSetStatus]
    split
    · rfl
    · split <;> rfl
  | envSetPgfaultUpcall envid func =>
    cases h
    rw [sysEnvSetPgfaultUpcall]
    split <;> rfl
  | ipcRecv dstva =>
    cases h
    rw [sysIpcRecv]
    split <;> rfl
  | cputs s len => exact absurd hc id
  | envSetTrapframe envid tf => exact absurd hc id
  | pktSend data len => exact absurd hc id
  | pktRecv addr len => exact absurd hc id

/-! ### The calls with pointers -/

theorem KSound.userMemAssert (K : KSound F k l le) (hb : Bounded k)
    {va perm : Word}
    (h : k.userMemAssert curenv e va len perm = some (k', gone)) :
    Kept F k l k' ∧ (gone = false → k'.dirs curenv = k.dirs curenv) := by
  rcases userMemAssert_cases h with ⟨rfl, _, _⟩ | hd
  · exact ⟨⟨K.refl.kevolves True, rfl, id⟩, fun _ => rfl⟩
  · obtain ⟨l', le', P, hsame⟩ := K.envDestroy hb hd
    have hnic := nic_envDestroy hd
    exact ⟨⟨P.kevolves True, by rw [hnic], by rw [hnic]; exact id⟩, fun hg => (hsame hg).1⟩

theorem KSound.cputs (K : KSound F k l le) (hb : Bounded k) {s : Word}
    (h : (k.sysCputs curenv cr3 dev s len).2 = some o) : Kept F k l o.kernel := by
  obtain ⟨⟨k', gone⟩, hassert, h⟩ := bind_result h
  obtain ⟨hkept, _⟩ := K.userMemAssert hb hassert
  cases gone with
  | true =>
    cases h
    exact hkept
  | false =>
    obtain ⟨_, _, h⟩ := bind_result h
    cases h
    exact hkept

theorem fixTrapframe_data {dirs : EnvIx → Option ℕ} {s s' : Pmap} {frame : Trapframe}
    (L : Sound F dirs s l) (he : dirs curenv = some cr3)
    (hlog : Within WritesBelow (Kernel.fixTrapframe s cr3 tf))
    (h : (Kernel.fixTrapframe s cr3 tf).2 = some (s', frame)) : DataStore dirs s s' := by
  simp only [fixTrapframe, within_bind] at hlog
  obtain ⟨b1, hb1, h⟩ := bind_result h
  obtain ⟨s1, hs1, h⟩ := bind_result h
  obtain ⟨b2, hb2, h⟩ := bind_result h
  obtain ⟨s2, hs2, h⟩ := bind_result h
  obtain ⟨b3, hb3, h⟩ := bind_result h
  obtain ⟨s3, hs3, h⟩ := bind_result h
  obtain ⟨b4, _, h⟩ := bind_result h
  cases h
  obtain ⟨hw1, hlog⟩ := hlog.2 b1 hb1
  obtain ⟨hw2, hlog⟩ := (hlog s1 hs1).2 b2 hb2
  obtain ⟨hw3, _⟩ := (hlog s2 hs2).2 b3 hb3
  have D1 := storeBytes_data L he hw1 hs1
  have L1 := L.data_store D1
  have D2 := storeBytes_data L1 he hw2 hs2
  have D3 := storeBytes_data (L1.data_store D2) he hw3 hs3
  exact (D1.trans D2).trans D3

theorem KSound.envSetTrapframe (K : KSound F k l le) (hb : Bounded k)
    (hcr3 : k.dirs curenv = some cr3) {envid : Word}
    (hstores : k.StoresBelow curenv (.envSetTrapframe envid tf))
    (h : (k.sysEnvSetTrapframe curenv cr3 envid tf).2 = some o) : Kept F k l o.kernel := by
  rw [sysEnvSetTrapframe] at h
  split at h
  · cases h
    exact ⟨K.refl.kevolves True, rfl, id⟩
  · next e he =>
    obtain ⟨⟨k', gone⟩, hassert, h⟩ := bind_result h
    obtain ⟨hkept, hdirs⟩ := K.userMemAssert hb hassert
    cases gone with
    | true =>
      cases h
      exact hkept
    | false =>
      have hbelow := hstores e he ((userMemAssert_frame hassert).imp_left And.left)
      obtain ⟨⟨s', frame⟩, hfix, h⟩ := bind_result h
      cases h
      have hcr3' : k'.dirs curenv = some cr3 := (hdirs rfl).trans hcr3
      refine ⟨hkept.evolves.trans fun l' le' K' => ?_, hkept.buffers, hkept.ring⟩
      have D := fixTrapframe_data K'.ledger hcr3' (fixTrapframe_within hbelow) hfix
      have hag := (Kernel.Agree.setPmap k' s').trans (Kernel.Agree.setEnv _ e
        (f := fun env => { env with envTf := frame }) (fun _ => rfl) fun _ => rfl)
      exact K'.data hag D True

theorem KSound.pktSend (K : KSound F k l le) (hbuf : BuffersApart F k) {data : Word}
    (hstores : k.StoresBelow curenv (.pktSend data len))
    (h : (k.sysPktSend cr3 data len).2 = some o) : Kept F k l o.kernel := by
  obtain ⟨⟨s', nic, r⟩, htx, h⟩ := bind_result h
  cases h
  rw [e1000Transmit] at htx
  split at htx
  · obtain ⟨rfl, rfl, _⟩ := htx
    exact ⟨K.refl.kevolves True, rfl, id⟩
  · next hfree =>
    have hlen := hstores.resolve_left hfree
    obtain ⟨bs, hbs, htx⟩ := bind_result htx
    obtain ⟨rfl, rfl, _⟩ := htx
    have hsize := loadBytes_length hbs
    have hring := hbuf.ring
    rw [txdescs] at hring
    rw [txPktSize] at hlen
    have D : DataStore k.dirs k.pmap
        (k.pmap.storePhysBytes (k.nic.txBufferArray + k.nic.tdt.toNat * txPktSize) bs) := by
      refine storePhysBytes_data fun j hj => ?_
      obtain ⟨hF, hk, hkt⟩ := hbuf.apart
        (k.nic.txBufferArray + k.nic.tdt.toNat * txPktSize + j) (by omega) (by
          rw [txPktSize, txdescs]
          omega)
      exact K.ledger.reserved_data hF hk hkt
    refine ⟨K.data ?_ D True, rfl, fun _ => ?_⟩
    · exact ⟨rfl, rfl, rfl⟩
    show (BitVec.ofNat 16 ((k.nic.tdt.toNat + 1) % txdescs)).toNat < txdescs
    rw [BitVec.toNat_ofNat, txdescs]
    omega

theorem KSound.pktRecv (K : KSound F k l le) (hcr3 : k.dirs curenv = some cr3) {addr : Word}
    (hstores : k.StoresBelow curenv (.pktRecv addr len))
    (h : (k.sysPktRecv cr3 addr len).2 = some o) : Kept F k l o.kernel := by
  obtain ⟨⟨s', nic, r⟩, hrx, h⟩ := bind_result h
  cases h
  have hlog : Within WritesBelow (e1000Receive k.pmap k.nic cr3 addr len) :=
    e1000Receive_within (fun _ _ => nofun)
      (hstores.imp_right fun h => h.imp_right fun ⟨hlen, haddr⟩ =>
      ⟨fun i hi _ => hlen i hi, fun i hi _ => haddr i hi⟩)
  rw [e1000Receive] at hrx hlog
  split at hrx
  · obtain ⟨rfl, rfl, _⟩ := hrx
    exact ⟨K.refl.kevolves True, rfl, id⟩
  · next hdone =>
    rw [if_neg hdone] at hlog
    split at hrx
    · obtain ⟨rfl, rfl, _⟩ := hrx
      exact ⟨K.refl.kevolves True, rfl, id⟩
    · next herr =>
      rw [if_neg herr] at hlog
      simp only [within_bind] at hlog
      obtain ⟨s1, hs1, hrx⟩ := bind_result hrx
      obtain ⟨b, hb, hrx⟩ := bind_result hrx
      obtain ⟨s2, hs2, hrx⟩ := bind_result hrx
      obtain ⟨rfl, rfl, _⟩ := hrx
      have D1 := storeBytes_data K.ledger hcr3 hlog.1 hs1
      have D2 := storeBytes_data (K.ledger.data_store D1) hcr3 ((hlog.2 s1 hs1).2 b hb).1 hs2
      refine ⟨K.data ?_ (D1.trans D2) True, rfl, id⟩
      exact ⟨rfl, rfl, rfl⟩

/-- Every call that sends below `UTOP` and stores below `UTOP` leaves the kernel half alone. -/
theorem KSound.call_benign (K : KSound F k l le) (hb : Bounded k) (hbuf : BuffersApart F k)
    (hcr3 : k.dirs curenv = some cr3) (hsend : k.SendsBelow curenv c)
    (hstores : k.StoresBelow curenv c)
    (h : (k.call curenv cr3 dev c).2 = some o) : Kept F k l o.kernel := by
  have hplain : c.NoPointers → Kept F k l o.kernel := by
    intro hc
    obtain ⟨⟨l', le', K', _⟩, hev⟩ := K.call hb hc hsend h
    have hnic := nic_call hc h
    exact ⟨⟨⟨l', le', K', .inl trivial⟩, hev⟩, by rw [hnic], by rw [hnic]; exact id⟩
  cases c with
  | cputs s len => exact K.cputs hb h
  | envSetTrapframe envid tf => exact K.envSetTrapframe hb hcr3 hstores h
  | pktSend data len => exact K.pktSend hbuf hstores h
  | pktRecv addr len => exact K.pktRecv hcr3 hstores h
  | _ => exact hplain trivial

theorem Kernel.StoresBelow.saveTf (h : k.StoresBelow curenv c) (tf : Trapframe) :
    (k.saveTf curenv tf).StoresBelow curenv c := by
  cases c with
  | envSetTrapframe envid va =>
    intro e he hgoes
    rw [envid2env_saveTf] at he
    have hcheck : (k.saveTf curenv tf).frameCheck e va = k.frameCheck e va := by
      rw [frameCheck, (Kernel.Agree.saveTf k curenv tf).dirs]
      rfl
    rw [Kernel.GoesOn, Kernel.FreesTarget, hcheck, saveTf_field Env.envStatus fun _ _ =>
      rfl] at hgoes
    exact h e he hgoes
  | _ => exact h

end Calls

section Runs

variable {F : Set ℕ} {k k' : Kernel} {l : List ℕ} {le : List EnvIx} {ev : Event} {evs : List Event}

theorem KSound.benign_step (K : KSound F k l le) (hb : Bounded k) (hbuf : BuffersApart F k)
    (hs : BenignStep k ev k') : Kept F k l k' := by
  obtain ⟨hstep, hben, _⟩ := hs
  cases ev with
  | run cur e =>
    obtain rfl := hstep
    have hnic : (k.envRun cur e).nic = k.nic := by
      cases cur with
      | none => rfl
      | some cur =>
        rw [Kernel.envRun, Kernel.suspend]
        split <;> rfl
    exact ⟨K.envRun cur e True, by rw [hnic], by rw [hnic]; exact id⟩
  | store e va b =>
    obtain ⟨cr3, s', hcr3, hva, hs, rfl⟩ := hstep
    exact ⟨K.store hcr3 hva hs True, rfl, id⟩
  | trap r =>
    obtain ⟨cr3, o, hcr3, ho, rfl⟩ := hstep
    obtain ⟨hsend, hstores⟩ := hben
    have hag := Kernel.Agree.saveTf k r.cur r.tf
    -- the call, on the kernel with the registers saved
    have hcall : ∀ o1, KSound F (k.saveTf r.cur r.tf) l le → Bounded (k.saveTf r.cur r.tf) →
        ((k.saveTf r.cur r.tf).call r.cur cr3 r.dev r.call).2 = some o1 →
        Kept F (k.saveTf r.cur r.tf) l o1.kernel := by
      intro o1 K' hb' ho1
      exact K'.call_benign hb' ⟨hbuf.ring, hbuf.apart⟩ (by rw [hag.dirs]; exact hcr3)
        (hsend.saveTf r.tf) (hstores.saveTf r.tf) ho1
    have hev := KEvolves.trap K hb ho fun o1 K' hb' ho1 _ => (hcall o1 K' hb' ho1).evolves
    rcases trapSyscall_cases ho with ⟨_, k', hfree, rfl⟩ | ⟨_, o1, ho1, _, hres⟩
    · obtain ⟨d, s, _, _, rfl⟩ := envFree_cases hfree
      exact ⟨hev, rfl, id⟩
    · have hb' : Bounded (k.saveTf r.cur r.tf) := by
        intro p
        rw [hag.dirs]
        exact hb p
      have hk := hcall o1 (K.of_agree hag K.ledger) hb' ho1
      rcases hres with ⟨_, _, rfl, rfl⟩ | ⟨rfl, _⟩
      · exact ⟨hev, hk.buffers, hk.ring⟩
      · exact ⟨hev, hk.buffers, hk.ring⟩

theorem KernelHalf.refl (h : MapsKernel k) : KernelHalf k k :=
  ⟨rfl, rfl, fun _ _ _ => rfl, h⟩

theorem KernelHalf.evolve {k0 : Kernel} (h : KernelHalf k0 k)
    (hev : Evolves k.dirs k.pmap k'.dirs k'.pmap) : KernelHalf k0 k' := by
  have hrow : k.pmap.mem k.pmap.kernPgdir = k0.pmap.mem k0.pmap.kernPgdir := by
    rw [h.kern_dir, h.kern_row]
  refine ⟨hev.kern_dir.trans h.kern_dir, ?_, ?_, ?_⟩
  · rw [← h.kern_dir, hev.kern_row, h.kern_dir, h.kern_row]
  · intro i f hf
    rw [← hrow] at hf
    rw [hev.kern_table i f hf]
    rw [hrow] at hf
    exact h.kern_table i f hf
  · intro e d hd j hj
    rcases hev.upper e d hd with ⟨hd0, hsame⟩ | hnew
    · rw [hsame j hj]
      exact h.upper e d hd0 j hj
    · rw [hnew j hj, template, template, hrow]

end Runs

/-! ### A machine with `envs` mapped at `UENVS` -/

/-- 32 pages; `kern_pgdir` in frame 1 has a table in frame 2 for `UENVS`. -/
def Pmap.withUenvs : Pmap :=
  ((Pmap.blank 32 1).write 1 (pdx uenvs) (tableWord 2)).write 2 0 (mkPte 15 pteU)

/-- Two environments; the transmit buffers start at frame 3. -/
def Kernel.pair : Option Kernel :=
  Kernel.boot .withUenvs { E1000.blank with txBufferArray := 3 * pgsize } 1 16 2

theorem withUenvs_early : Pmap.withUenvs.Early 1 16 := by
  have hkern : ∀ i : Idx, ∀ f ∈ frameOf (Pmap.withUenvs.mem 1 i), Reserved 1 16 f := by
    decide +kernel
  refine ⟨by decide, rfl, ?_, by decide +kernel, ?_⟩
  · rintro ⟨_, h⟩
    exact h (by decide)
  · rintro i f hf ⟨_, h⟩
    exact h (hkern i f hf)

theorem pair_booted {k : Kernel} (h : Kernel.pair = some k) : Booted (freeFrames 32 1 16) k :=
  (booted_boot (by decide) withUenvs_early h).1

/-- **The kernel half is immutable, for benign calls.** In every run of benign steps from a
    kernel that is up, `kern_pgdir` and its tables keep every word, and every address space
    has the kernel half it had at the start, with itself at `UVPT`. -/
theorem kernel_half_immutable {F : Set ℕ} {k k' : Kernel} {evs : List Event} (h : Booted F k)
    (hbuf : BuffersApart F k) (hrun : Run BenignStep k evs k') : KernelHalf k k' := by
  have hinv := hrun.invariant
    (fun k₁ => (∃ l le, KSound F k₁ l le) ∧ Bounded k₁ ∧ BuffersApart F k₁ ∧ KernelHalf k k₁)
    ⟨h.sound, h.bounded, hbuf, KernelHalf.refl h.half⟩ (by
      intro k₁ ev k₂ hI hs
      obtain ⟨⟨l, le, K⟩, hb, hbuf, hhalf⟩ := hI
      have hk := K.benign_step hb hbuf hs
      obtain ⟨l', le', K', _⟩ := hk.evolves.sound
      exact ⟨⟨l', le', K'⟩, hs.2.2, hbuf.kept hk, hhalf.evolve hk.evolves.evolves⟩)
  exact hinv.2.2.2

/-- Environment 0 maps two pages, the first with a new page table. -/
theorem kernel_half_immutable_two_pages : ∃ k k' : Kernel, Booted (freeFrames 32 1 16) k ∧
    BuffersApart (freeFrames 32 1 16) k ∧
    Run BenignStep k [.trap (.pageAlloc utemp), .trap (.pageAlloc (utemp + 0x1000#32))] k' ∧
    frameOf (pde k.dirs k.pmap 0 1) = none ∧ (frameOf (pde k'.dirs k'.pmap 0 1)).isSome ∧
    KernelHalf k k' := by
  obtain ⟨k, hk, ⟨htdt, htx, hkern, hrow⟩, hbefore, cr3, hcr3, o, ho, hval, cr3', hcr3', o', ho',
    hval', hafter⟩ :
      ∃ k ∈ pair, (k.nic.tdt = 0 ∧ k.nic.txBufferArray = 3 * pgsize ∧ k.pmap.kernPgdir = 1 ∧
        ∀ i : Idx, ∀ f ∈ frameOf (k.pmap.mem 1 i), f < 3) ∧ frameOf (pde k.dirs k.pmap 0 1) = none ∧
        ∃ cr3 ∈ k.dirs 0,
        ∃ o ∈ (k.trapSyscall 0 cr3 0 .user (Request.pageAlloc utemp).call).2, o.value = some 0 ∧
        ∃ cr3 ∈ o.kernel.dirs 0,
        ∃ o' ∈ (o.kernel.trapSyscall 0 cr3 0 .user (Request.pageAlloc (utemp + 0x1000#32)).call).2,
          o'.value = some 0 ∧ (frameOf (pde o'.kernel.dirs o'.kernel.pmap 0 1)).isSome := by
    decide +kernel
  rw [Option.mem_def, Outcome.eq_of_value hval] at ho
  rw [Option.mem_def, Outcome.eq_of_value hval'] at ho'
  have hbuf : BuffersApart (freeFrames 32 1 16) k := by
    refine ⟨by rw [htdt]; decide, fun pa hle hlt => ?_⟩
    rw [htx, pgsize] at hle hlt
    rw [txdescs, txPktSize] at hlt
    rw [hkern, pgsize]
    refine ⟨fun hF => hF.2 (.inr (.inl ⟨by omega, by omega⟩)), by omega, fun i hi => ?_⟩
    have := hrow i _ hi
    omega
  obtain ⟨hbooted, hle⟩ := booted_boot (by decide) withUenvs_early hk
  obtain ⟨hbooted₁, hle₁⟩ := hbooted.pageAlloc (by decide) hle ho
  obtain ⟨-, hle₂⟩ := hbooted₁.pageAlloc (by decide) hle₁ ho'
  have hrun : Run BenignStep k [.trap (.pageAlloc utemp), .trap (.pageAlloc (utemp + 0x1000#32))]
      o'.kernel :=
    (Run.single
      ⟨⟨cr3, _, hcr3, ho, rfl⟩, ⟨trivial, trivial⟩, fun p => (hle₁ p).trans_lt (by decide)⟩).snoc
      ⟨⟨cr3', _, hcr3', ho', rfl⟩, ⟨trivial, trivial⟩, fun p => (hle₂ p).trans_lt (by decide)⟩
  exact ⟨k, _, hbooted, hbuf, hrun, hbefore, hafter, kernel_half_immutable hbooted hbuf hrun⟩

/-- Environment 1 waits for a page at `UTOP`; environment 0 sends it one. The entry of the
    page table all address spaces share for `UENVS` is replaced. -/
theorem ipc_maps_kernel_half : ∃ k k' : Kernel, Booted (freeFrames 32 1 16) k ∧
    Run Kernel.Step k [.trap ⟨1, Trapframe.user, 0, .ipcRecv utop⟩, .trap (.pageAlloc utemp),
      .trap ⟨0, Trapframe.user, 0, .ipcTrySend 0x1001 0 utemp (pteP ||| pteU ||| pteW)⟩] k' ∧
    k.pmap.mem 1 (pdx utop) = tableWord 2 ∧ k.pmap.kernPgdir = 1 ∧
    k.pmap.mem 2 0 = mkPte 15 pteU ∧ k'.pmap.mem 2 0 = mkPte 29 (pteU ||| pteW) := by
  obtain ⟨k, hk, k', hk', htable, hkern, hentry, hentry'⟩ : ∃ k ∈ pair,
      ∃ k' ∈ k.traps [⟨1, Trapframe.user, 0, .ipcRecv utop⟩, .pageAlloc utemp,
        ⟨0, Trapframe.user, 0, .ipcTrySend 0x1001 0 utemp (pteP ||| pteU ||| pteW)⟩],
        k.pmap.mem 1 (pdx utop) = tableWord 2 ∧ k.pmap.kernPgdir = 1 ∧
        k.pmap.mem 2 0 = mkPte 15 pteU ∧ k'.pmap.mem 2 0 = mkPte 29 (pteU ||| pteW) := by
    decide +kernel
  exact ⟨k, k', pair_booted hk, run_of_traps hk', htable, hkern, hentry, hentry'⟩

end LinuxStudy.Jos
