import LinuxStudy.Jos.Syscall

/-!
# What each system call can do

One inversion lemma for each function that system calls are made of: from a result, the
branch of the source it came from. Nothing is assumed about the state. Later proofs use these
and do not unfold the calls again.
-/

namespace LinuxStudy.Jos

open Pmap
open Option (bind_eq_some_iff)

namespace Pmap

variable {s s' : Pmap} {pgdir : Option ℕ} {pp : ℕ} {va perm : Word}

/-- `page_alloc` fails on an empty free list only, and changes nothing then. -/
theorem pageAlloc_none {zero : Bool} (h : s.pageAlloc zero = some (s', none)) :
    s.pageFreeList = none ∧ s' = s := by
  rw [pageAlloc] at h
  split at h
  · next hnone =>
    simp only [Option.some.injEq, Prod.mk.injEq, and_true] at h
    exact ⟨hnone, h.symm⟩
  · split at h
    · obtain ⟨kva, _, h⟩ := bind_eq_some_iff.mp h
      simp at h
    · simp at h

theorem pgdirWalk_none {create : Bool} (h : s.pgdirWalk pgdir va create = some (s', none)) :
    s' = s := by
  cases pgdir with
  | none => simp [pgdirWalk] at h
  | some d =>
    rw [pgdirWalk] at h
    split at h
    · simp [pteSlot, bind_eq_some_iff] at h
    · split at h
      · simp only [Option.some.injEq, Prod.mk.injEq, and_true] at h
        exact h.symm
      · obtain ⟨⟨s1, page⟩, halloc, h⟩ := bind_eq_some_iff.mp h
        cases page with
        | none =>
          simp only [Option.some.injEq, Prod.mk.injEq, and_true] at h
          rw [← h]
          exact (pageAlloc_none halloc).2
        | some page =>
          simp only at h
          split at h
          · simp at h
          · split at h
            · simp at h
            · simp [pteSlot, bind_eq_some_iff] at h

/-- `page_insert` in its two cases: no entry for `va`, or count, remove and store. -/
theorem pageInsert_cases {r : Int} (h : s.pageInsert pgdir pp va perm = some (s', r)) :
    (r = -eNoMem ∧ s' = s ∧ s.pgdirWalk pgdir va true = some (s, none)) ∨
    ∃ s1 slot s2, r = 0 ∧ s.pgdirWalk pgdir va true = some (s1, some slot) ∧
      (if has ((s1.pageIncref pp).mem slot.1 slot.2) pteP
        then (s1.pageIncref pp).pageRemove pgdir va else some (s1.pageIncref pp)) = some s2 ∧
      s' = s2.write slot.1 slot.2 (mkPte pp perm) := by
  rw [pageInsert, bind_eq_some_iff] at h
  obtain ⟨⟨s1, slot⟩, hwalk, h⟩ := h
  cases slot with
  | none =>
    simp only [Option.some.injEq, Prod.mk.injEq] at h
    obtain rfl := pgdirWalk_none hwalk
    exact .inl ⟨h.2.symm, h.1.symm, hwalk⟩
  | some slot =>
    simp only [bind_eq_some_iff, Option.some.injEq, Prod.mk.injEq] at h
    obtain ⟨s2, hs2, rfl, rfl⟩ := h
    exact .inr ⟨s1, slot, s2, rfl, hwalk, hs2, rfl⟩

theorem pageInsert_neg {r : Int} (h : s.pageInsert pgdir pp va perm = some (s', r)) (hr : r < 0) :
    s' = s := by
  rcases pageInsert_cases h with ⟨_, hs, _⟩ | ⟨_, _, _, rfl, _⟩
  · exact hs
  · exact absurd hr (lt_irrefl 0)

theorem pageInsert_nonneg {r : Int} (h : s.pageInsert pgdir pp va perm = some (s', r))
    (hr : ¬ r < 0) : r = 0 := by
  rcases pageInsert_cases h with ⟨rfl, _⟩ | ⟨_, _, _, hr0, _⟩
  · exact absurd (by decide) hr
  · exact hr0

/-- A page found by `page_lookup` below `UTOP` is mapped there, by the entry it returns. -/
theorem pageLookup_found {dirs : EnvIx → Option ℕ} {e : EnvIx} {slot : Slot} (hva : va < utop)
    (h : s.pageLookup (dirs e) va = some (some (pp, slot))) :
    frameOf (pde dirs s e (pdx va)) = some slot.1 ∧ slot.2 = ptx va ∧
      frameOf (pte dirs s e (pdx va) (ptx va)) = some pp := by
  cases hd : dirs e with
  | none =>
    rw [hd] at h
    simp [pageLookup, pgdirWalk] at h
  | some d =>
    have hpde : pde dirs s e (pdx va) = s.mem d (pdx va) := pde_of_dir hd ((lt_utop_iff va).mp hva)
    rw [hd, pageLookup, pgdirWalk] at h
    by_cases hP : has (s.mem d (pdx va)) pteP
    · rw [if_pos hP, pteSlot, kaddr, pgnum_pteAddr] at h
      split at h
      · simp only [Option.bind_some] at h
        split at h
        · next hP' =>
          rw [pa2page, pgnum_pteAddr] at h
          split at h
          · cases h
            have htable : frameOf (pde dirs s e (pdx va)) = some (pgnum (s.mem d (pdx va))) := by
              rw [hpde]
              exact frameOf_eq_some.mpr ⟨hP, rfl⟩
            refine ⟨htable, rfl, ?_⟩
            rw [pte_of_table htable]
            exact frameOf_eq_some.mpr ⟨hP', rfl⟩
          · simp at h
        · simp at h
      · simp at h
    · simp [hP] at h

theorem exists_pgdir_of_insert {r : Int} (h : s.pageInsert pgdir pp va perm = some (s', r)) :
    ∃ d, pgdir = some d := by
  cases pgdir with
  | none => simp [pageInsert, pgdirWalk] at h
  | some d => exact ⟨d, rfl⟩

end Pmap

namespace Kernel

variable {k : Kernel} {curenv : EnvIx} {o : Outcome}

variable {va perm envid srcva : Word} {k' : Kernel} {e : EnvIx} {gone : Bool}

theorem not_badVa (h : ¬ badVa va) : va < utop ∧ pgoff va = 0#32 := by
  rw [badVa, not_or, not_not, ne_eq, not_not] at h
  exact h

theorem isPerm_of_not_badPerm (h : ¬ badPerm perm) : IsPerm perm := by
  rw [badPerm, not_or] at h
  exact isPerm_of_syscall h.2

/-- A rejected `sys_page_alloc` changes nothing; otherwise `page_insert` decides. -/
theorem sysPageAlloc_cases
    (h : k.sysPageAlloc curenv envid va perm = some o) :
    (∃ r, r < 0 ∧ o = .ret r k) ∨
    ∃ e pp s s' r, k.envid2env curenv envid true = some e ∧ ¬ badVa va ∧ ¬ badPerm perm ∧
      k.pmap.pageAlloc true = some (s, some pp) ∧
      s.pageInsert (k.dirs e) pp va perm = some (s', r) ∧
      o = .ret (if r < 0 then -eNoMem else 0) (k.setPmap s') := by
  rw [sysPageAlloc] at h
  split at h
  · exact .inl ⟨_, by decide, (Option.some.inj h).symm⟩
  · next e he =>
    split at h
    · exact .inl ⟨_, by decide, (Option.some.inj h).symm⟩
    · next hva =>
      split at h
      · exact .inl ⟨_, by decide, (Option.some.inj h).symm⟩
      · next hperm =>
        obtain ⟨⟨s, pp⟩, halloc, h⟩ := bind_eq_some_iff.mp h
        cases pp with
        | none =>
          obtain ⟨_, rfl⟩ := pageAlloc_none halloc
          exact .inl ⟨_, by decide, (Option.some.inj h).symm⟩
        | some pp =>
          simp only [bind_eq_some_iff, Option.some.injEq] at h
          obtain ⟨⟨s', r⟩, hins, h⟩ := h
          exact .inr ⟨e, pp, s, s', r, he, hva, hperm, halloc, hins, h.symm⟩

/-- A rejected `sys_page_map` changes nothing; otherwise a page found in the source, with
    `PTE_W` if that is asked for, is inserted in the destination. -/
theorem sysPageMap_cases {srcenvid dstenvid dstva : Word}
    (h : k.sysPageMap curenv srcenvid srcva dstenvid dstva perm = some o) :
    (∃ r, r < 0 ∧ o = .ret r k) ∨
    ∃ src dst pp pte s', k.envid2env curenv srcenvid true = some src ∧
      k.envid2env curenv dstenvid true = some dst ∧ srcva < utop ∧ dstva < utop ∧ IsPerm perm ∧
      k.pmap.pageLookup (k.dirs src) srcva = some (some (pp, pte)) ∧
      (has perm pteW → has (k.pmap.mem pte.1 pte.2) pteW) ∧
      k.pmap.pageInsert (k.dirs dst) pp dstva perm = some (s', 0) ∧ o = .ret 0 (k.setPmap s') := by
  rw [sysPageMap] at h
  split at h
  · next src dst hsrc hdst =>
    split at h
    · exact .inl ⟨_, by decide, (Option.some.inj h).symm⟩
    · next hva =>
      rw [not_or] at hva
      split at h
      · exact .inl ⟨_, by decide, (Option.some.inj h).symm⟩
      · next hperm =>
        obtain ⟨found, hfound, h⟩ := bind_eq_some_iff.mp h
        cases found with
        | none => exact .inl ⟨_, by decide, (Option.some.inj h).symm⟩
        | some found =>
          obtain ⟨pp, pte⟩ := found
          simp only at h
          split at h
          · exact .inl ⟨_, by decide, (Option.some.inj h).symm⟩
          · next hw =>
            rw [not_and, not_not] at hw
            obtain ⟨⟨s', r⟩, hins, h⟩ := bind_eq_some_iff.mp h
            by_cases hr : r < 0
            · obtain rfl := pageInsert_neg hins hr
              simp only [hr, if_true] at h
              exact .inl ⟨_, by decide, (Option.some.inj h).symm⟩
            · obtain rfl := pageInsert_nonneg hins hr
              exact .inr ⟨src, dst, pp, pte, s', hsrc, hdst, (not_badVa hva.1).1,
                (not_badVa hva.2).1, isPerm_of_not_badPerm hperm, hfound, hw, hins,
                (Option.some.inj h).symm⟩
  · exact .inl ⟨_, by decide, (Option.some.inj h).symm⟩

theorem sysPageUnmap_cases (h : k.sysPageUnmap curenv envid va = some o) :
    (∃ r, r < 0 ∧ o = .ret r k) ∨
    ∃ e s', k.envid2env curenv envid true = some e ∧ va < utop ∧
      k.pmap.pageRemove (k.dirs e) va = some s' ∧ o = .ret 0 (k.setPmap s') := by
  rw [sysPageUnmap] at h
  split at h
  · exact .inl ⟨_, by decide, (Option.some.inj h).symm⟩
  · next e he =>
    split at h
    · exact .inl ⟨_, by decide, (Option.some.inj h).symm⟩
    · next hva =>
      obtain ⟨s', hs', h⟩ := bind_eq_some_iff.mp h
      exact .inr ⟨e, s', he, (not_badVa hva).1, hs', (Option.some.inj h).symm⟩

/-! ### IPC -/

/-- The page transfer of a send: refused without a trace, nothing to transfer, or a page of
    the sender inserted at the receiver's `env_ipc_dstva`, whatever that is. -/
theorem ipcTransfer_cases {dst : EnvIx} {r : Int}
    (h : k.ipcTransfer curenv dst srcva perm = some (k', r)) :
    (r < 0 ∧ k' = k) ∨
    (r = 0 ∧ k' = k ∧ (srcva < utop → (k.envs dst).envIpcDstva = 0#32)) ∨
    ∃ pp pte s', r = 0 ∧ srcva < utop ∧ (k.envs dst).envIpcDstva ≠ 0#32 ∧
      has perm pteP ∧ has perm pteU ∧ IsPerm perm ∧
      k.pmap.pageLookup (k.dirs curenv) srcva = some (some (pp, pte)) ∧
      (has perm pteW → has (k.pmap.mem pte.1 pte.2) pteW) ∧
      k.pmap.pageInsert (k.dirs dst) pp (k.envs dst).envIpcDstva perm = some (s', 0) ∧
      k' = (k.setPmap s').setEnv dst fun env => { env with envIpcPerm := perm } := by
  -- the refusals all look alike
  have hrefuse : ∀ {e : Int}, -e < 0 → some (k, -e) = some (k', r) → r < 0 ∧ k' = k := by
    intro e he heq
    cases heq
    exact ⟨he, rfl⟩
  rw [ipcTransfer] at h
  split at h
  · next hsrc =>
    simp only [Option.some.injEq, Prod.mk.injEq] at h
    exact .inr (.inl ⟨h.2.symm, h.1.symm, fun hlt => absurd hlt hsrc⟩)
  · next hsrc =>
    rw [not_not] at hsrc
    split at h
    · exact .inl (hrefuse (by decide) h)
    · split at h
      · exact .inl (hrefuse (by decide) h)
      · next hpu =>
        rw [not_or, not_not, not_not] at hpu
        split at h
        · exact .inl (hrefuse (by decide) h)
        · next hperm =>
          obtain ⟨found, hfound, h⟩ := bind_eq_some_iff.mp h
          cases found with
          | none => exact .inl (hrefuse (by decide) h)
          | some found =>
            obtain ⟨pp, pte⟩ := found
            simp only at h
            split at h
            · exact .inl (hrefuse (by decide) h)
            · next hw =>
              rw [not_and, not_not] at hw
              split at h
              · next hdst =>
                simp only [Option.some.injEq, Prod.mk.injEq] at h
                exact .inr (.inl ⟨h.2.symm, h.1.symm, fun _ => hdst⟩)
              · next hdst =>
                obtain ⟨⟨s', r'⟩, hins, h⟩ := bind_eq_some_iff.mp h
                split at h
                · next hr =>
                  obtain rfl := pageInsert_neg hins hr
                  simp only [Option.some.injEq, Prod.mk.injEq] at h
                  exact .inl ⟨h.2 ▸ hr, h.1.symm⟩
                · next hr =>
                  obtain rfl := pageInsert_nonneg hins hr
                  simp only [Option.some.injEq, Prod.mk.injEq] at h
                  exact .inr (.inr ⟨pp, pte, s', h.2.symm, hsrc, hdst, hpu.1, hpu.2,
                    isPerm_of_syscall hperm, hfound, hw, hins, h.1.symm⟩)

/-- A send that fails changes nothing; one that succeeds found a waiting receiver. -/
theorem sysIpcTrySend_cases {value : Word}
    (h : k.sysIpcTrySend curenv envid value srcva perm = some o) :
    (∃ r, r < 0 ∧ o = .ret r k) ∨
    ∃ dst k', k.envid2env curenv envid false = some dst ∧ (k.envs dst).envIpcRecving = true ∧
      (k.envs dst).envIpcFrom = 0#32 ∧ k.ipcTransfer curenv dst srcva perm = some (k', 0) ∧
      o = .ret 0 (k'.ipcDeliver curenv dst value) := by
  rw [sysIpcTrySend] at h
  split at h
  · exact .inl ⟨_, by decide, (Option.some.inj h).symm⟩
  · next dst hdst =>
    split at h
    · exact .inl ⟨_, by decide, (Option.some.inj h).symm⟩
    · next hwait =>
      rw [not_or, not_not, not_not] at hwait
      rw [bind_eq_some_iff] at h
      obtain ⟨⟨k', r⟩, htr, h⟩ := h
      simp only at h
      split at h
      · next hr =>
        rcases ipcTransfer_cases htr with ⟨_, rfl⟩ | ⟨rfl, _⟩ | ⟨_, _, _, rfl, _⟩
        · exact .inl ⟨r, hr, (Option.some.inj h).symm⟩
        · exact absurd hr (lt_irrefl 0)
        · exact absurd hr (lt_irrefl 0)
      · next hr =>
        have hr0 : r = 0 := by
          rcases ipcTransfer_cases htr with ⟨hneg, _⟩ | ⟨hr0, _⟩ | ⟨_, _, _, hr0, _⟩
          · exact absurd hneg hr
          · exact hr0
          · exact hr0
        subst hr0
        exact .inr ⟨dst, k', hdst, hwait.1, hwait.2, htr, (Option.some.inj h).symm⟩

/-! ### Environments -/

/-- `env_destroy`: a mark for an environment that runs elsewhere, or `env_free`. -/
theorem envDestroy_cases {cur : Option EnvIx} (h : k.envDestroy cur e = some (k', gone)) :
    ((k.envs e).envStatus = .running ∧ cur ≠ some e ∧ gone = false ∧
      k' = k.setEnv e fun env => { env with envStatus := .dying }) ∨
    (¬ ((k.envs e).envStatus = .running ∧ cur ≠ some e) ∧ k.envFree e = some k' ∧
      gone = decide (cur = some e)) := by
  rw [envDestroy] at h
  split at h
  · next hrun =>
    simp only [Option.some.injEq, Prod.mk.injEq] at h
    exact .inl ⟨hrun.1, hrun.2, h.2.symm, h.1.symm⟩
  · next hrun =>
    obtain ⟨k1, hfree, h⟩ := bind_eq_some_iff.mp h
    cases h
    exact .inr ⟨hrun, hfree, rfl⟩

theorem envFree_cases (h : k.envFree e = some k') :
    ∃ d s, k.dirs e = some d ∧ k.pmap.envFreeVm d = some s ∧ k' = (k.setPmap s).releaseEnv e := by
  rw [envFree] at h
  split at h
  · simp at h
  · next d hd =>
    obtain ⟨s, hs, h⟩ := bind_eq_some_iff.mp h
    exact ⟨d, s, hd, hs, (Option.some.inj h).symm⟩

theorem sysEnvDestroy_cases (h : k.sysEnvDestroy curenv envid = some o) :
    (∃ r, r < 0 ∧ o = .ret r k) ∨
    ∃ e k' gone, k.envid2env curenv envid true = some e ∧
      k.envDestroy (some curenv) e = some (k', gone) ∧
      o = if gone then .exit k' else .ret 0 k' := by
  rw [sysEnvDestroy] at h
  split at h
  · exact .inl ⟨_, by decide, (Option.some.inj h).symm⟩
  · next e he =>
    obtain ⟨⟨k', gone⟩, hd, h⟩ := bind_eq_some_iff.mp h
    exact .inr ⟨e, k', gone, he, hd, (Option.some.inj h).symm⟩

/-- `user_mem_assert`: the check passes, or the environment is destroyed. -/
theorem userMemAssert_cases {len : Word}
    (h : k.userMemAssert curenv e va len perm = some (k', gone)) : (k' = k ∧ gone = false ∧
      k.pmap.userMemCheck (k.dirs e) va len (perm ||| pteU) = some none) ∨
    k.envDestroy (some curenv) e = some (k', gone) := by
  obtain ⟨bad, hbad, h⟩ := bind_eq_some_iff.mp h
  cases bad with
  | none =>
    simp only [Option.some.injEq, Prod.mk.injEq] at h
    exact .inl ⟨h.1.symm, h.2.symm, hbad⟩
  | some a => exact .inr h

/-- The fields `env_alloc` gives a new environment, besides its page directory. -/
def initEnv (e : EnvIx) (parentId : Word) (env : Env) : Env :=
  { env with envId := nextEnvId env.envId e
             envParentId := parentId
             envType := .user
             envStatus := .runnable
             envRuns := 0
             envTf := Trapframe.user
             envPgfaultUpcall := 0
             envIpcRecving := false }

theorem envAlloc_cases {parentId : Word} {r : Except Int EnvIx}
    (h : k.envAlloc parentId = some (k', r)) :
    (k.envFreeList = none ∧ r = .error (-eNoFreeEnv) ∧ k' = k) ∨
    ∃ e k1 i, k.envFreeList = some e ∧ k.envSetupVm e = some (k1, i) ∧
      ((i < 0 ∧ r = .error i ∧ k' = k1) ∨
        (¬ i < 0 ∧ r = .ok e ∧ k' = { k1.setEnv e (initEnv e parentId) with
          envFreeList := (k1.setEnv e (initEnv e parentId)).envLink e })) := by
  rw [envAlloc] at h
  split at h
  · next hnone =>
    simp only [Option.some.injEq, Prod.mk.injEq] at h
    exact .inl ⟨hnone, h.2.symm, h.1.symm⟩
  · next e he =>
    obtain ⟨⟨k1, i⟩, hset, h⟩ := bind_eq_some_iff.mp h
    simp only at h
    split at h
    · next hi =>
      simp only [Option.some.injEq, Prod.mk.injEq] at h
      exact .inr ⟨e, k1, i, he, hset, .inl ⟨hi, h.2.symm, h.1.symm⟩⟩
    · next hi =>
      simp only [Option.some.injEq, Prod.mk.injEq] at h
      exact .inr ⟨e, k1, i, he, hset, .inr ⟨hi, h.2.symm, h.1.symm⟩⟩

theorem sysExofork_cases (h : k.sysExofork curenv = some o) :
    (∃ k' r, k.envAlloc (k.envs curenv).envId = some (k', .error r) ∧ o = .ret r k') ∨
    ∃ k' e, k.envAlloc (k.envs curenv).envId = some (k', .ok e) ∧
      o = .ret ((k'.envs e).envId.toInt) (k'.setEnv e fun env =>
        { env with envStatus := .notRunnable, envTf := forkTf (k'.envs curenv).envTf }) := by
  obtain ⟨⟨k', r⟩, halloc, h⟩ := bind_eq_some_iff.mp h
  cases r with
  | error r => exact .inl ⟨k', r, halloc, (Option.some.inj h).symm⟩
  | ok e =>
    refine .inr ⟨k', e, halloc, ?_⟩
    rw [← Option.some.inj h]
    simp [setEnv]

end Kernel

end LinuxStudy.Jos
