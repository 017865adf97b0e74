import LinuxStudy.Jos.Bookkeeping
import LinuxStudy.Jos.SyscallCases

/-!
# System calls on a sound kernel

The bookkeeping invariant of the whole kernel, with the list of free environments, and what
the calls that manage pages and environments do to it. For each call: it is refused and
changes nothing, or it is progress. The one exception is `sys_page_alloc`, which can lose the
page it has allocated.
-/

namespace LinuxStudy.Jos

open RefCount
open Kernel Pmap Outcome Chain

/-- The bookkeeping of pages and of environments is sound. -/
structure KSound (F : Set ℕ) (k : Kernel) (l : List ℕ) (le : List EnvIx) : Prop where
  ledger : Sound F k.dirs k.pmap l
  envs : Chain k.envLink k.envFreeList le
  no_dir : ∀ e ∈ le, k.dirs e = none

/-- The kernel stays sound, keeps the kernel half and loses no page. -/
structure KProgress (F : Set ℕ) (k : Kernel) (l : List ℕ) (k' : Kernel) (l' : List ℕ)
    (le' : List EnvIx) : Prop where
  sound : KSound F k' l' le'
  progress : Progress F k.dirs k.pmap l k'.dirs k'.pmap l'

/-- The two kernels have the same address spaces and the same list of free environments. -/
structure Kernel.Agree (k k' : Kernel) : Prop where
  dirs : k'.dirs = k.dirs
  link : k'.envLink = k.envLink
  list : k'.envFreeList = k.envFreeList

/-- `sys_page_alloc` passes its checks, one page is free, and the table for `va` is missing. -/
def Kernel.LastPage (k : Kernel) (curenv : EnvIx) (envid va perm : Word) :
    Prop :=
  ∃ e q, k.envid2env curenv envid true = some e ∧ ¬ Kernel.badVa va ∧ ¬ Kernel.badPerm perm ∧
    k.pmap.pageFreeList = some q ∧ k.pmap.link q = none ∧
    frameOf (pde k.dirs k.pmap e (pdx va)) = none

/-- A page is sent only to a receiver that waits for it below `UTOP`. -/
def Kernel.SendsBelow (k : Kernel) (curenv : EnvIx) : Call → Prop
  | .ipcTrySend envid _ srcva _ => srcva < utop → ∀ dst, k.envid2env curenv envid false = some dst →
      (k.envs dst).envIpcRecving = true → (k.envs dst).envIpcDstva < utop
  | _ => True

namespace Kernel

variable {k k' : Kernel}

theorem Agree.refl (k : Kernel) : k.Agree k := ⟨rfl, rfl, rfl⟩

theorem Agree.setPmap (k : Kernel) (s : Pmap) : k.Agree (k.setPmap s) := ⟨rfl, rfl, rfl⟩

theorem Agree.trans {k'' : Kernel} (h : k.Agree k') (h' : k'.Agree k'') : k.Agree k'' :=
  ⟨h'.dirs.trans h.dirs, h'.link.trans h.link, h'.list.trans h.list⟩

theorem Agree.setEnv (k : Kernel) (e : EnvIx) {f : Env → Env}
    (hd : ∀ env, (f env).envPgdir = env.envPgdir) (hl : ∀ env, (f env).envLink = env.envLink) :
    k.Agree (k.setEnv e f) := by
  refine ⟨?_, ?_, rfl⟩
  · funext e'
    by_cases he : e' = e
    · subst he
      simp [Kernel.dirs, Kernel.setEnv, hd]
    · simp [Kernel.dirs, Kernel.setEnv, he]
  · funext e'
    by_cases he : e' = e
    · subst he
      simp [Kernel.envLink, Kernel.setEnv, hl]
    · simp [Kernel.envLink, Kernel.setEnv, he]

theorem Agree.ipcDeliver (k : Kernel) (cur dst : EnvIx) (value : Word) :
    k.Agree (k.ipcDeliver cur dst value) :=
  Agree.setEnv k dst (fun _ => rfl) fun _ => rfl

theorem sysEnvSetStatus_agree (k : Kernel) (curenv : EnvIx) (envid status : Word) :
    k.Agree (k.sysEnvSetStatus curenv envid status).kernel ∧
      (k.sysEnvSetStatus curenv envid status).kernel.pmap = k.pmap := by
  rw [sysEnvSetStatus]
  split
  · exact ⟨Agree.refl k, rfl⟩
  · split
    · exact ⟨Agree.refl k, rfl⟩
    · rw [kernel_ret]
      exact ⟨Agree.setEnv k _ (by intro; rfl) (by intro; rfl), rfl⟩

theorem sysEnvSetPgfaultUpcall_agree (k : Kernel) (curenv : EnvIx) (envid func : Word) :
    k.Agree (k.sysEnvSetPgfaultUpcall curenv envid func).kernel ∧
      (k.sysEnvSetPgfaultUpcall curenv envid func).kernel.pmap = k.pmap := by
  rw [sysEnvSetPgfaultUpcall]
  split
  · exact ⟨Agree.refl k, rfl⟩
  · rw [kernel_ret]
    exact ⟨Agree.setEnv k _ (by intro; rfl) (by intro; rfl), rfl⟩

theorem sysIpcRecv_agree (k : Kernel) (curenv : EnvIx) (dstva : Word) :
    k.Agree (k.sysIpcRecv curenv dstva).kernel ∧
      (k.sysIpcRecv curenv dstva).kernel.pmap = k.pmap := by
  rw [sysIpcRecv]
  split
  · exact ⟨Agree.refl k, rfl⟩
  · rw [kernel_yield]
    exact ⟨Agree.setEnv k _ (by intro; rfl) (by intro; rfl), rfl⟩

theorem Agree.setEax (k : Kernel) (e : EnvIx) (r : Int) : k.Agree (k.setEax e r) :=
  Agree.setEnv k e (fun _ => rfl) fun _ => rfl

end Kernel

namespace KSound

variable {F : Set ℕ} {k k' : Kernel} {l l' : List ℕ} {le : List EnvIx} {e curenv : EnvIx}
  {o : Outcome}

theorem of_agree (K : KSound F k l le) (h : k.Agree k') (L : Sound F k.dirs k'.pmap l') :
    KSound F k' l' le := by
  refine ⟨by rw [h.dirs]; exact L, ?_, ?_⟩
  · rw [h.link, h.list]
    exact K.envs
  · rw [h.dirs]
    exact K.no_dir

theorem progress_of_agree (K : KSound F k l le) (h : k.Agree k')
    (P : Progress F k.dirs k.pmap l k.dirs k'.pmap l') : KProgress F k l k' l' le :=
  ⟨K.of_agree h P.ledger, by rw [h.dirs]; exact P⟩

theorem refl (K : KSound F k l le) : KProgress F k l k l le :=
  ⟨K, Progress.refl K.ledger⟩

end KSound

theorem KProgress.agree {F : Set ℕ} {k k' k'' : Kernel} {l l' : List ℕ}
    {le : List EnvIx} (P : KProgress F k l k' l' le) (h : k'.Agree k'') (hm : k''.pmap = k'.pmap) :
    KProgress F k l k'' l' le := by
  refine ⟨P.sound.of_agree h (by rw [hm]; exact P.sound.ledger), ?_⟩
  rw [h.dirs, hm]
  exact P.progress

namespace KSound

variable {F : Set ℕ} {k k' : Kernel} {l l' : List ℕ} {le : List EnvIx} {e curenv : EnvIx}
  {o : Outcome}

/-! ### Environments -/

section

variable (K : KSound F k l le)
include K

/-- `env_free` returns the environment and everything it referred to. -/
theorem envFree (hb : Bounded k) (h : k.envFree e = some k') :
    ∃ l', KProgress F k l k' l' (e :: le) ∧ Untouched e k.dirs k.pmap k'.dirs k'.pmap := by
  obtain ⟨d, s, hd, hs, rfl⟩ := envFree_cases h
  obtain ⟨s', l', hs', S, U⟩ := K.ledger.freeVm hd fun p => (hb p).le
  obtain rfl : s' = s := Option.some.inj (hs'.symm.trans hs)
  have hdirs : ((k.setPmap s').releaseEnv e).dirs = Function.update k.dirs e none :=
    (k.setPmap s').dirs_releaseEnv e
  have hlink : ((k.setPmap s').releaseEnv e).envLink =
      Function.update k.envLink e k.envFreeList := by
    funext e'
    by_cases he : e' = e
    · subst he
      simp [envLink, releaseEnv, setEnv, setPmap]
    · simp [envLink, releaseEnv, setEnv, setPmap, he]
  have hnot : e ∉ le := by
    intro he
    rw [K.no_dir e he] at hd
    cases hd
  refine ⟨l', ⟨⟨?_, ?_, ?_⟩, ?_⟩, ?_⟩
  · rw [hdirs]
    exact S.ledger
  · rw [hlink]
    exact K.envs.push hnot
  · intro e' he'
    rw [hdirs]
    by_cases hee : e' = e
    · rw [hee, Function.update_self]
    · rw [Function.update_of_ne hee]
      exact K.no_dir e' ((List.mem_cons.mp he').resolve_left hee)
  · rw [hdirs]
    exact S.toProgress
  · rw [hdirs]
    exact U

/-- `env_destroy` marks the environment or frees it; if it comes back, the address space of
    the current environment is as before. -/
theorem envDestroy (hb : Bounded k) {gone : Bool}
    (h : k.envDestroy (some curenv) e = some (k', gone)) :
    ∃ l' le', KProgress F k l k' l' le' ∧ (gone = false →
      k'.dirs curenv = k.dirs curenv ∧ pde k'.dirs k'.pmap curenv = pde k.dirs k.pmap curenv ∧
        pte k'.dirs k'.pmap curenv = pte k.dirs k.pmap curenv) := by
  rcases envDestroy_cases h with ⟨_, _, _, rfl⟩ | ⟨_, hfree, hgone⟩
  · have hag := Kernel.Agree.setEnv k e (f := fun env => { env with envStatus := .dying })
      (fun _ => rfl) fun _ => rfl
    refine ⟨l, le, K.progress_of_agree hag (Progress.refl K.ledger), fun _ => ?_⟩
    rw [hag.dirs]
    exact ⟨rfl, rfl, rfl⟩
  · obtain ⟨l', P, U⟩ := K.envFree hb hfree
    refine ⟨l', e :: le, P, fun hg => U curenv ?_⟩
    rintro rfl
    simp [hg] at hgone

variable {envid va perm srcva dstva : Word}

theorem sysEnvDestroy (hb : Bounded k)
    (h : k.sysEnvDestroy curenv envid = some o) : ∃ l' le', KProgress F k l o.kernel l' le' := by
  rcases sysEnvDestroy_cases h with ⟨r, _, rfl⟩ | ⟨e, k', gone, _, hd, rfl⟩
  · exact ⟨l, le, K.refl⟩
  · obtain ⟨l', le', P, _⟩ := K.envDestroy hb hd
    refine ⟨l', le', ?_⟩
    cases gone with
    | true => exact P
    | false => exact P

/-- `env_alloc` fails without a trace, or gives an address space to the first free
    environment. -/
theorem envAlloc {parentId : Word} {r : Except Int EnvIx}
    (h : k.envAlloc parentId = some (k', r)) :
    (∃ i, r = .error i ∧ k' = k) ∨
    ∃ e q l' le', r = .ok e ∧ KProgress F k l k' l' le' ∧
      ref k'.dirs k'.pmap = Function.update (ref k.dirs k.pmap) (.dir e) (some q) := by
  rcases envAlloc_cases h with ⟨_, rfl, rfl⟩ | ⟨e, k1, i, hfl, hset, hrest⟩
  · exact .inl ⟨_, rfl, rfl⟩
  · -- the environment at the head of the list has no address space
    obtain ⟨le', rfl⟩ : ∃ le', le = e :: le' := by
      have := K.envs
      rw [hfl] at this
      cases le with
      | nil => simp at this
      | cons e' le' =>
        obtain ⟨he, _⟩ := cons_iff.mp this
        exact ⟨le', by rw [Option.some.inj he]⟩
    have hchain := K.envs
    have hnot : e ∉ le' := (List.nodup_cons.mp hchain.nodup).1
    rcases K.ledger.setupVm (K.no_dir e List.mem_cons_self) with
      ⟨_, hs⟩ | ⟨q, l0, s', _, hs, P, href⟩
    · cases hset.symm.trans hs
      rcases hrest with ⟨_, rfl, rfl⟩ | ⟨hneg, _⟩
      · exact .inl ⟨_, rfl, rfl⟩
      · exact absurd (by decide) hneg
    · cases hset.symm.trans hs
      rcases hrest with ⟨hneg, _⟩ | ⟨_, rfl, rfl⟩
      · exact absurd hneg (by decide)
      · right
        have hag := Kernel.Agree.setEnv
          ((k.setPmap s').setEnv e fun env => { env with envPgdir := some q }) e
          (f := initEnv e parentId) (fun _ => rfl) fun _ => rfl
        have hd := hag.dirs.trans (k.dirs_setPgdir s' e (some q))
        have hlink : (((k.setPmap s').setEnv e fun env => { env with envPgdir := some q }).setEnv e
            (initEnv e parentId)).envLink = k.envLink := by
          refine hag.link.trans ?_
          funext e'
          by_cases he : e' = e
          · subst he
            simp [envLink, setEnv, setPmap]
          · simp [envLink, setEnv, setPmap, he]
        refine ⟨e, q, l0, le', rfl, ⟨⟨?_, ?_, ?_⟩, ?_⟩, ?_⟩
        · show Sound F (dirs (setEnv _ _ _)) _ _
          rw [hd]
          exact P.ledger
        · show Chain (envLink (setEnv _ _ _))
            (envLink (setEnv _ _ _) e) _
          rw [hlink]
          exact (cons_iff.mp hchain).2
        · intro e' he'
          show dirs (setEnv _ _ _) e' = none
          have hee : e' ≠ e := fun h => hnot (h ▸ he')
          rw [hd, Function.update_of_ne hee]
          exact K.no_dir e' (List.mem_cons_of_mem _ he')
        · show Progress F k.dirs k.pmap l (dirs (setEnv _ _ _)) _ _
          rw [hd]
          exact P
        · show ref (dirs (setEnv _ _ _)) _ = _
          rw [hd]
          exact href

theorem exofork (h : k.sysExofork curenv = some o) :
    ∃ l' le', KProgress F k l o.kernel l' le' := by
  rcases sysExofork_cases h with ⟨k', r, halloc, rfl⟩ | ⟨k', e, halloc, rfl⟩
  · rcases K.envAlloc halloc with ⟨_, _, rfl⟩ | ⟨_, _, _, _, hr, _⟩
    · exact ⟨l, le, K.refl⟩
    · cases hr
  · rcases K.envAlloc halloc with ⟨_, hr, _⟩ | ⟨_, _, l', le', _, P, _⟩
    · cases hr
    · have hag := Kernel.Agree.setEnv k' e (f := fun env =>
        { env with envStatus := .notRunnable, envTf := forkTf (k'.envs curenv).envTf })
        (fun _ => rfl) fun _ => rfl
      exact ⟨l', le', P.agree hag rfl⟩

/-! ### Pages -/

/-- `sys_page_alloc` is refused without a trace, or maps a page, or loses the last one. -/
theorem pageAlloc (hb : Bounded k)
    (h : k.sysPageAlloc curenv envid va perm = some o) :
    (∃ r, r < 0 ∧ o = .ret r k) ∨
    (∃ k' l', o = .ret 0 k' ∧ KProgress F k l k' l' le ∧
      ∀ p, refs k'.dirs k'.pmap p ≤ refs k.dirs k.pmap p + 2) ∨
    ∃ k', o = .ret (-eNoMem) k' ∧ k.LastPage curenv envid va perm ∧ KSound F k' [] le ∧
      Evolves k.dirs k.pmap k'.dirs k'.pmap := by
  rcases sysPageAlloc_cases h with hrefused | ⟨e, pp, s, s', r, he, hva, hperm, hs, hins, rfl⟩
  · exact .inl hrefused
  · right
    obtain ⟨d, hd⟩ := exists_pgdir_of_insert hins
    rw [hd] at hins
    rcases K.ledger.alloc_insert hd (not_badVa hva).1 (isPerm_of_not_badPerm hperm)
      true hb with ⟨_, hs1⟩ | ⟨q, l1, s1, rfl, hs1, L1, _, _, href, hev, _, _, hrest⟩
    · rw [hs] at hs1
      simp at hs1
    · obtain ⟨rfl, rfl⟩ : s1 = s ∧ q = pp := by
        rw [hs] at hs1
        simp only [Option.some.injEq, Prod.mk.injEq] at hs1
        exact ⟨hs1.1.symm, hs1.2.symm⟩
      have hag := Kernel.Agree.setPmap k s'
      rcases hrest with ⟨htable, rfl, hfail⟩ | ⟨s2, l', hok, E⟩
      · right
        obtain ⟨rfl, rfl⟩ : s1 = s' ∧ -eNoMem = r := by
          rw [hins] at hfail
          simp only [Option.some.injEq, Prod.mk.injEq] at hfail
          exact ⟨hfail.1.symm, hfail.2.symm⟩
        obtain ⟨hfl, hlink⟩ := cons_iff.mp K.ledger.chain
        exact ⟨_, rfl, ⟨e, q, he, hva, hperm, hfl, nil_iff.mp hlink, htable⟩,
          K.of_agree hag L1, hev⟩
      · left
        obtain ⟨rfl, rfl⟩ : s2 = s' ∧ 0 = r := by
          rw [hins] at hok
          simp only [Option.some.injEq, Prod.mk.injEq] at hok
          exact ⟨hok.1.symm, hok.2.symm⟩
        refine ⟨_, l', rfl, K.progress_of_agree hag ⟨E.ledger, hev.trans (L1.evolves E.keeps), ?_⟩,
          fun p => ?_⟩
        rotate_left
        · have hle := L1.refs_set_le E p
          have hsame : refs k.dirs s1 p = refs k.dirs k.pmap p := by rw [refs, refs, href]
          rw [hsame] at hle
          exact hle
        intro p hp hacc
        have hE := E.accounted p hp
        rw [Nat.add_zero, Nat.add_zero] at hE
        by_cases hpq : p = q
        · -- the new page is mapped now
          subst hpq
          have hqlt : p < 2 ^ 20 := lt_of_lt_of_le (K.ledger.frame_lt p hp) K.ledger.npages_le
          have hpte : ref k.dirs s2 (.page e (pdx va) (ptx va)) = some p := by
            show frameOf (pte k.dirs s2 e (pdx va) (ptx va)) = some p
            rw [E.pte_eq, if_pos ⟨rfl, rfl, rfl⟩]
            exact frameOf_mkPte hqlt (isPerm_of_not_badPerm hperm)
          exact .inr (count_pos hpte)
        · refine hE (hacc.imp (fun h => (List.mem_cons.mp h).resolve_left hpq) fun h => ?_)
          rw [refs, href]
          exact h

theorem insert_found (hb : Bounded k) {src dst : EnvIx} {pp : ℕ}
    {slot : Slot} {s' : Pmap} (hsrc : srcva < utop) (hdst : dstva < utop)
    (hperm : IsPerm perm) (hfound : k.pmap.pageLookup (k.dirs src) srcva = some (some (pp, slot)))
    (hins : k.pmap.pageInsert (k.dirs dst) pp dstva perm = some (s', 0)) :
    ∃ l', Progress F k.dirs k.pmap l k.dirs s' l' := by
  obtain ⟨_, _, hp⟩ := pageLookup_found hsrc hfound
  obtain ⟨d, hd⟩ := exists_pgdir_of_insert hins
  rw [hd] at hins
  rcases K.ledger.insert_mapped hd hdst hperm hp hb with ⟨_, hs⟩ | ⟨s1, l', hs, E⟩
  · rw [hins] at hs
    exact absurd (Prod.mk.inj (Option.some.inj hs)).2 (by decide)
  · obtain rfl : s1 = s' := (Prod.mk.inj (Option.some.inj (hs.symm.trans hins))).1
    exact ⟨l', K.ledger.progress E⟩

theorem pageMap (hb : Bounded k)
    {srcenvid dstenvid : Word}
    (h : k.sysPageMap curenv srcenvid srcva dstenvid dstva perm = some o) :
    (∃ r, r < 0 ∧ o = .ret r k) ∨ ∃ l', KProgress F k l o.kernel l' le := by
  rcases sysPageMap_cases h with
    hrefused | ⟨src, dst, pp, slot, s', _, _, hsrc, hdst, hperm, hfound, _, hins, rfl⟩
  · exact .inl hrefused
  · obtain ⟨l', P⟩ := K.insert_found hb hsrc hdst hperm hfound hins
    exact .inr ⟨l', K.progress_of_agree (Kernel.Agree.setPmap k s') P⟩

theorem pageUnmap (hb : Bounded k)
    (h : k.sysPageUnmap curenv envid va = some o) : ∃ l', KProgress F k l o.kernel l' le := by
  rcases sysPageUnmap_cases h with ⟨r, _, rfl⟩ | ⟨e, s', _, hva, hrem, rfl⟩
  · exact ⟨l, K.refl⟩
  · cases hd : k.dirs e with
    | none =>
      rw [hd] at hrem
      simp [Pmap.pageRemove, Pmap.pageLookup, Pmap.pgdirWalk] at hrem
    | some d =>
      rw [hd] at hrem
      obtain ⟨s1, l', hs1, P⟩ := K.ledger.remove hd hva fun p => (hb p).le
      obtain rfl : s1 = s' := Option.some.inj (hs1.symm.trans hrem)
      exact ⟨l', K.progress_of_agree (Kernel.Agree.setPmap k s1) P⟩

theorem ipcTrySend (hb : Bounded k) {value : Word}
    (hsend : k.SendsBelow curenv (.ipcTrySend envid value srcva perm))
    (h : k.sysIpcTrySend curenv envid value srcva perm = some o) :
    (∃ r, r < 0 ∧ o = .ret r k) ∨ ∃ l', KProgress F k l o.kernel l' le := by
  rcases sysIpcTrySend_cases h with hrefused | ⟨dst, k', hdst, hrecv, _, htr, rfl⟩
  · exact .inl hrefused
  · right
    rcases ipcTransfer_cases htr with
      ⟨hneg, _⟩ | ⟨_, rfl, _⟩ | ⟨pp, slot, s', _, hsrc, _, _, _, hperm, hfound, _, hins, rfl⟩
    · exact absurd hneg (lt_irrefl 0)
    · exact ⟨l, K.refl.agree (Kernel.Agree.ipcDeliver _ _ _ _) rfl⟩
    · obtain ⟨l', P⟩ := K.insert_found hb hsrc (hsend hsrc dst hdst hrecv) hperm hfound hins
      have hperm' := Kernel.Agree.setEnv (k.setPmap s') dst
        (f := fun env => { env with envIpcPerm := perm }) (fun _ => rfl) fun _ => rfl
      exact ⟨l', ((K.progress_of_agree (Kernel.Agree.setPmap k s') P).agree hperm' rfl).agree
        (Kernel.Agree.ipcDeliver _ _ _ _) rfl⟩

end

end KSound

/-! ### Calls without pointers, and the trap around them -/

/-- The call takes no pointer into the caller's memory. -/
def Call.NoPointers : Call → Prop
  | .cputs _ _ | .envSetTrapframe _ _ | .pktSend _ _ | .pktRecv _ _ => False
  | _ => True

/-- The call is `sys_page_alloc` about to lose the last free page. -/
def Kernel.Loses (k : Kernel) (curenv : EnvIx) : Call → Prop
  | .pageAlloc envid va perm => k.LastPage curenv envid va perm
  | _ => False

/-- What is left of progress when a page may be lost. -/
structure KEvolves (F : Set ℕ) (k : Kernel) (l : List ℕ) (k' : Kernel) (lost : Prop) : Prop where
  sound : ∃ l' le', KSound F k' l' le' ∧ (lost ∨ ∀ q ∈ F, q ∈ l ∨ 0 < refs k.dirs k.pmap q →
    q ∈ l' ∨ 0 < refs k'.dirs k'.pmap q)
  evolves : Evolves k.dirs k.pmap k'.dirs k'.pmap

section Calls

variable {F : Set ℕ} {k k' k'' : Kernel} {l l' : List ℕ} {le le' : List EnvIx} {curenv : EnvIx}
  {cr3 : ℕ} {dev : Int} {o : Outcome} {c : Call} {tf : Trapframe} {lost : Prop}

theorem KProgress.kevolves (P : KProgress F k l k' l' le') (lost : Prop) :
    KEvolves F k l k' lost :=
  ⟨⟨l', le', P.sound, .inr P.progress.accounted⟩, P.progress.evolves⟩

theorem KEvolves.agree (h : KEvolves F k l k' lost) (hag : k'.Agree k'')
    (hm : k''.pmap = k'.pmap) : KEvolves F k l k'' lost := by
  obtain ⟨⟨l', le', K, hacc⟩, hev⟩ := h
  refine ⟨⟨l', le', K.of_agree hag (by rw [hm]; exact K.ledger), ?_⟩, ?_⟩
  · rw [hag.dirs, hm]
    exact hacc
  · rw [hag.dirs, hm]
    exact hev

/-- A call without pointers keeps the kernel sound, and loses a page only in the one way
    there is. -/
theorem KSound.call (K : KSound F k l le) (hb : Bounded k) (hc : c.NoPointers)
    (hsend : k.SendsBelow curenv c) (h : (k.call curenv cr3 dev c).2 = some o) :
    KEvolves F k l o.kernel (k.Loses curenv c) := by
  have hsame : ∀ {r : Int}, some (Outcome.ret r k) = some o →
      KEvolves F k l o.kernel (k.Loses curenv c) := by
    intro r ho
    rw [← Option.some.inj ho]
    exact K.refl.kevolves _
  cases c with
  | cgetc => exact hsame h
  | getenvid => exact hsame h
  | timeMsec => exact hsame h
  | yield =>
    cases h
    exact K.refl.kevolves _
  | envDestroy envid =>
    obtain ⟨l', le', P⟩ := K.sysEnvDestroy hb h
    exact P.kevolves _
  | exofork =>
    obtain ⟨l', le', P⟩ := K.exofork h
    exact P.kevolves _
  | pageAlloc envid va perm =>
    rcases K.pageAlloc hb h with ⟨r, _, rfl⟩ | ⟨k', l', rfl, P, _⟩ | ⟨k', rfl, hlast, K', hev⟩
    · exact K.refl.kevolves _
    · exact P.kevolves _
    · exact ⟨⟨[], le, K', .inl hlast⟩, hev⟩
  | pageMap srcenvid srcva dstenvid dstva perm =>
    rcases K.pageMap hb h with ⟨r, _, rfl⟩ | ⟨l', P⟩
    · exact K.refl.kevolves _
    · exact P.kevolves _
  | pageUnmap envid va =>
    obtain ⟨l', P⟩ := K.pageUnmap hb h
    exact P.kevolves _
  | ipcTrySend envid value srcva perm =>
    rcases K.ipcTrySend hb hsend h with ⟨r, _, rfl⟩ | ⟨l', P⟩
    · exact K.refl.kevolves _
    · exact P.kevolves _
  | envSetStatus envid status =>
    cases h
    obtain ⟨hag, hm⟩ := k.sysEnvSetStatus_agree curenv envid status
    exact (K.refl.agree hag hm).kevolves _
  | envSetPgfaultUpcall envid func =>
    cases h
    obtain ⟨hag, hm⟩ := k.sysEnvSetPgfaultUpcall_agree curenv envid func
    exact (K.refl.agree hag hm).kevolves _
  | ipcRecv dstva =>
    cases h
    obtain ⟨hag, hm⟩ := k.sysIpcRecv_agree curenv dstva
    exact (K.refl.agree hag hm).kevolves _
  | cputs s len => exact absurd hc id
  | envSetTrapframe envid tf => exact absurd hc id
  | pktSend data len => exact absurd hc id
  | pktRecv addr len => exact absurd hc id

end Calls

end LinuxStudy.Jos
