import LinuxStudy.Jos.SyscallCases
import LinuxStudy.Jos.Bookkeeping

/-!
# What the kernel touches through user pointers

A system call should touch, through a pointer argument, only bytes the caller may touch
itself. `sys_cputs` and `sys_env_set_trapframe` check their argument with `user_mem_assert`,
the packet calls do not check at all. This file says under which condition on its arguments
and on the caller's memory each call stays within that memory. A call whose access faults
stops there, so what counts are the bytes up to the first one that the processor refuses.
-/

namespace LinuxStudy.Jos

open BitVec (ofNat_add add_assoc toNat_add toNat_ofNat lt_def)

/-- The page-table entry for an address, in the way `pgdir_walk` finds it. -/
def Pmap.userPte (s : Pmap) (pgdir : Option ℕ) (va : Word) : Option Word :=
  match pgdir with
  | none => none
  | some d =>
    if has (s.mem d (pdx va)) pteP then some (s.mem (pgnum (s.mem d (pdx va))) (ptx va)) else none

/-- The caller may touch this byte itself. -/
def Allowed (k : Kernel) (curenv : EnvIx) (a : Access) : Prop :=
  a.va < ulim ∧ ∃ w, k.pmap.userPte (k.dirs curenv) a.va = some w ∧
    has w pteP ∧ has w pteU ∧ (a.write = true → has w pteW)

/-- The `i`-th byte of a range. -/
def byteAt (va : Word) (i : ℕ) : Word := va + BitVec.ofNat 32 i

theorem byteAt_zero (va : Word) : byteAt va 0 = va := by
  simp [byteAt]

theorem byteAt_succ (va : Word) (i : ℕ) : byteAt (va + 1) i = byteAt va (i + 1) := by
  rw [byteAt, byteAt, Nat.add_comm i 1, ofNat_add, ← add_assoc]
  rfl

theorem byteAt_add (va : Word) (m i : ℕ) :
    byteAt (va + BitVec.ofNat 32 m) i = byteAt va (m + i) := by
  rw [byteAt, byteAt, ofNat_add, add_assoc]

/-- Loads and stores of the bytes of a range, in order. -/
def loads (va : Word) (n : ℕ) : List Access := (List.range n).map fun i => ⟨byteAt va i, false⟩
def stores (va : Word) (n : ℕ) : List Access := (List.range n).map fun i => ⟨byteAt va i, true⟩

/-- `tf_eflags` is loaded and stored twice and `tf_cs` once, and then the frame is copied. -/
def frameAccesses (tf : Word) : List Access :=
  loads (tf + 56#32)
    4 ++ (stores (tf + 56#32) 4 ++ (loads (tf + 56#32) 4 ++ (stores (tf + 56#32) 4 ++
    (loads (tf + 52#32) 2 ++ (stores (tf + 52#32) 2 ++ loads tf trapframeSize)))))

/-- The test of `sys_env_set_trapframe`, which is made for the target. -/
def Kernel.frameCheck (k : Kernel) (e : EnvIx) (tf : Word) : Option (Option Word) :=
  k.pmap.userMemCheck (k.dirs e) tf (BitVec.ofNat 32 trapframeSize) (pteU ||| pteU)

/-- The call goes on in the same memory: the test is passed, or its target runs elsewhere and is
    marked. -/
def Kernel.GoesOn (k : Kernel) (curenv e : EnvIx) (tf : Word) : Prop :=
  k.frameCheck e tf = some none ∨
    (k.frameCheck e tf).join.isSome ∧ e ≠ curenv ∧ (k.envs e).envStatus = .running

/-- The test frees the target, and the call goes on. -/
def Kernel.FreesTarget (k : Kernel) (curenv e : EnvIx) (tf : Word) : Prop :=
  (k.frameCheck e tf).join.isSome ∧ e ≠ curenv ∧ (k.envs e).envStatus ≠ .running

theorem rounddown_toNat (a : Word) : (Pmap.rounddown a).toNat = a.toNat / 4096 * 4096 := by
  have hpg : (Pmap.rounddown a).toNat / 4096 = a.toNat / 4096 := by
    have hnum := pgnum_pteAddr a
    rw [pgnum, pgnum, Nat.shiftRight_eq_div_pow, Nat.shiftRight_eq_div_pow] at hnum
    exact hnum
  have hlow : (Pmap.rounddown a).toNat % 4096 = 0 := by
    refine pgoff_eq_zero_iff.mp ?_
    rw [pgoff, Pmap.rounddown, BitVec.and_assoc,
      show ~~~0xFFF#32 &&& 0xFFF#32 = 0#32 by decide, BitVec.and_zero]
  omega

theorem roundup_toNat (a : Word) :
    (Pmap.roundup a).toNat = (a.toNat + 4095) % 2 ^ 32 / 4096 * 4096 := by
  have hval : (a + 4096#32 - 1#32).toNat = (a.toNat + 4095) % 2 ^ 32 := by
    rw [BitVec.toNat_sub, toNat_add]
    simp only [toNat_ofNat]
    omega
  rw [Pmap.roundup, rounddown_toNat, hval]

variable {va len start perm : Word} {s : Pmap} {pgdir : Option ℕ}

/-- The number of pages `user_mem_check` looks at when the range does not wrap. -/
theorem pages_toNat (h : va.toNat + len.toNat + 4095 < 2 ^ 32) :
    (Pmap.roundup (va + len)).toNat = (va.toNat + len.toNat + 4095) / 4096 * 4096 := by
  rw [roundup_toNat, toNat_add]
  omega

section Ranges

open Logged

variable {P : Access → Prop} {s : Pmap} {cr3 : ℕ}

variable {n fuel : ℕ} {va p : Word}

theorem within_loadBytes (h : ∀ i < n, P ⟨byteAt va i, false⟩) :
    Within P (s.loadBytes cr3 n va) := by
  induction n generalizing va with
  | zero => simp [Pmap.loadBytes]
  | succ n ih =>
    have h0 := h 0 (by omega)
    rw [byteAt_zero] at h0
    rw [Pmap.loadBytes, within_bind]
    refine ⟨within_effect.mpr h0, fun b _ => ?_⟩
    rw [within_bind]
    refine ⟨ih fun i hi => ?_, fun bs _ => within_pure P _⟩
    rw [byteAt_succ]
    exact h (i + 1) (by omega)

theorem within_storeBytes {bs : List Byte}
    (h : ∀ i < bs.length, P ⟨byteAt va i, true⟩) : Within P (s.storeBytes cr3 va bs) := by
  induction bs generalizing s va with
  | nil => simp [Pmap.storeBytes]
  | cons b bs ih =>
    have h0 := h 0 (by simp)
    rw [byteAt_zero] at h0
    rw [Pmap.storeBytes, within_bind]
    refine ⟨within_effect.mpr h0, fun s _ => ih fun i hi => ?_⟩
    rw [byteAt_succ]
    exact h (i + 1) (by simpa using hi)

variable {β : Type} {as as' : List Access}

/-- No page that the caller's directory lets one write below `ULIM` is the directory or one of its
    tables. -/
def Pmap.TablesApart (s : Pmap) (cr3 : ℕ) : Prop :=
  ∀ va pa, va < ulim → s.translate cr3 va true = some pa →
    pa / pgsize ≠ cr3 ∧ ∀ i, pa / pgsize ≠ pgnum (s.mem cr3 i)

/-- A store below `ULIM` leaves the tables as they are. -/
theorem TablesApart.storeByte {s' : Pmap} {b : Byte} (h : s.TablesApart cr3) (hva : va < ulim)
    (hs : (s.storeByte cr3 va b).2 = some s') :
    s'.TablesApart cr3 ∧ ∀ va w, s'.translate cr3 va w = s.translate cr3 va w := by
  obtain ⟨pa, hpa, rfl⟩ := Option.map_eq_some_iff.mp hs
  obtain ⟨hdir, htable⟩ := h va pa hva hpa
  have hrow : (s.storePhys pa b).mem cr3 = s.mem cr3 := Function.update_of_ne hdir.symm ..
  have htrans : ∀ va w, (s.storePhys pa b).translate cr3 va w = s.translate cr3 va w :=
    fun va w => by
    have htab :
        (s.storePhys pa b).mem (pgnum (s.mem cr3 (pdx va))) = s.mem (pgnum (s.mem cr3 (pdx va))) :=
      Function.update_of_ne (htable _).symm ..
    simp only [Pmap.translate, hrow, htab]
  refine ⟨fun va' pa' hva' hpa' => ?_, htrans⟩
  rw [htrans] at hpa'
  rw [hrow]
  exact h va' pa' hva' hpa'

end Ranges

/-! ### The calls -/

section Calls

open Logged

variable {k k' : Kernel} {curenv : EnvIx} {cr3 : ℕ} {dev : Int}

variable {va len : Word} {s : Pmap} {P : Access → Prop} {nic : E1000}

/-- `user_mem_assert` on the caller passes, or it does not come back. -/
theorem userMemAssert_self {perm : Word} :
    k.userMemAssert curenv curenv va len perm = some (k', false) ↔
    k' = k ∧ k.pmap.userMemCheck (k.dirs curenv) va len (perm ||| pteU) = some none := by
  rw [Kernel.userMemAssert]
  rcases k.pmap.userMemCheck (k.dirs curenv) va len (perm ||| pteU) with _ | _ | bad
  · simp
  · simp [eq_comm]
  · simp [Kernel.envDestroy, Option.bind_eq_some_iff]

/-- In any state that the frame is fixed in, no other byte is touched. -/
theorem fixTrapframe_within {tf : Word} (h : ∀ a ∈ frameAccesses tf, P a) :
    Within P (Kernel.fixTrapframe s cr3 tf) := by
  simp only [frameAccesses, loads, stores, List.forall_mem_append, List.forall_mem_map,
    List.mem_range] at h
  obtain ⟨hflags, hflags', _, _, hcs, hcs', hframe⟩ := h
  simp only [Kernel.fixTrapframe, within_bind]
  refine ⟨within_loadBytes hflags, fun b1 _ => ⟨within_storeBytes hflags', fun s1 _ => ?_⟩⟩
  refine ⟨within_loadBytes hflags, fun b2 _ => ⟨within_storeBytes hflags', fun s2 _ => ?_⟩⟩
  refine ⟨within_loadBytes hcs, fun b3 _ => ⟨within_storeBytes hcs', fun s3 _ => ?_⟩⟩
  exact ⟨within_loadBytes hframe, fun b4 _ => within_pure P _⟩

theorem e1000Receive_within {addr : Word}
    (hPread : ∀ va, P ⟨va, true⟩ → P ⟨va, false⟩)
    (h : (nic.rxDescArray nic.next).status &&& e1000RxdStatDD = 0 ∨
      (nic.rxDescArray nic.next).errors ≠ 0 ∨ (∀ i < 4, P ⟨byteAt len i, true⟩) ∧
        ∀ i < (nic.rxDescArray nic.next).length.toNat, P ⟨byteAt addr i, true⟩) :
    Within P (e1000Receive s nic cr3 addr len) := by
  rw [e1000Receive]
  split
  · exact within_pure P _
  · next hdone =>
    split
    · exact within_pure P _
    · next herr =>
      obtain ⟨hlen, haddr⟩ := (h.resolve_left hdone).resolve_left herr
      simp only [within_bind]
      refine ⟨within_storeBytes fun i hi => hlen i hi, fun s1 _ => ?_⟩
      refine ⟨within_loadBytes fun i hi => hPread _ (hlen i hi), fun _ _ => ?_⟩
      refine ⟨within_storeBytes fun i hi => haddr i ?_, fun s2 _ => within_pure P _⟩
      simpa [Pmap.loadPhysBytes] using hi

theorem Allowed.below {a : Access} (h : Allowed k curenv a) : a.va < ulim := h.1

theorem userMemAssert_eq {e : EnvIx} {tf : Word} :
    k.userMemAssert curenv e tf (BitVec.ofNat 32 trapframeSize) pteU =
      (k.frameCheck e tf).bind fun bad => match bad with
        | none => some (k, false)
        | some _ => k.envDestroy (some curenv) e := rfl

/-- The call goes on where the test of the target leaves the memory alone, and where it frees the
    target. -/
theorem userMemAssert_frame {e : EnvIx} {tf : Word}
    (h : k.userMemAssert curenv e tf (BitVec.ofNat 32 trapframeSize) pteU = some (k', false)) :
    k.GoesOn curenv e tf ∧ k'.pmap = k.pmap ∨ k.FreesTarget curenv e tf := by
  rw [userMemAssert_eq] at h
  rw [Kernel.GoesOn, Kernel.FreesTarget]
  rcases hcheck : k.frameCheck e tf with _ | _ | bad <;> rw [hcheck] at h
  · cases h
  · cases h
    exact .inl ⟨.inl rfl, rfl⟩
  · rcases Kernel.envDestroy_cases h with ⟨hrun, hne, _, rfl⟩ | ⟨hrun, _, hgone⟩
    · exact .inl ⟨.inr ⟨rfl, fun he => hne (he ▸ rfl), hrun⟩, rfl⟩
    · have hne : some curenv ≠ some e := of_decide_eq_false hgone.symm
      exact .inr ⟨rfl, fun he => hne (he ▸ rfl), fun h => hrun ⟨h, hne⟩⟩

theorem Kernel.GoesOn.userMemAssert {e : EnvIx} {tf : Word} (h : k.GoesOn curenv e tf) :
    ∃ k', k.userMemAssert curenv e tf (BitVec.ofNat 32 trapframeSize) pteU = some (k', false) ∧
      k'.pmap = k.pmap := by
  rw [userMemAssert_eq]
  rcases h with hpass | ⟨hbad, hne, hrun⟩
  · exact ⟨k, by rw [hpass]; rfl, rfl⟩
  · obtain ⟨bad, hbad⟩ := Option.isSome_iff_exists.mp hbad
    rw [Option.join_eq_some_iff.mp hbad]
    exact ⟨_, if_pos ⟨hrun, fun he => hne (Option.some.inj he).symm⟩, rfl⟩

end Calls

/-- A kernel with one environment: its directory is frame 8, the kernel is mapped at
    `KERNBASE` through the table in frame 5, and one page, frame 10, at `UTEXT`. -/
def Kernel.sample : Kernel where
  pmap :=
    { npages := 16
      pages := fun _ => ⟨none, 0⟩
      pageFreeList := none
      mem := fun f j =>
        if f = 8 ∧ j = pdx utext then tableWord 9
        else if f = 9 ∧ j = 0 then mkPte 10 (pteU ||| pteW)
        else if (f = 4 ∨ f = 8) ∧ j = pdx uvpt then Kernel.selfWord f
        else if (f = 4 ∨ f = 8) ∧ j = pdx kernbase then tableWord 5
        else if f = 5 then mkPte j.val pteW
        else 0#32
      kernPgdir := 4 }
  envs e := if e = 0 then { Env.blank with envId := 0x1000, envStatus := .running,
                                           envPgdir := some 8 } else Env.blank
  envFreeList := none
  nic := E1000.blank

theorem sample_row (i : Idx) : Kernel.sample.pmap.mem 8 i =
    if i = pdx utext then tableWord 9 else if i = pdx uvpt then Kernel.selfWord 8
    else if i = pdx kernbase then tableWord 5 else 0#32 := by
  simp [Kernel.sample]

end LinuxStudy.Jos
