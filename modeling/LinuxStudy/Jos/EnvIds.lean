import LinuxStudy.Jos.LifeCycle

/-!
# Environment ids

`env_alloc` makes the id of a new environment from the id of the one that had the slot before: a
new generation from bit 12 on, and the index in the low ten bits. The generation is kept positive,
so it takes `2 ^ 19 - 1` values, one after the other.
-/

namespace LinuxStudy.Jos

open Kernel Table
open BitVec (toNat_ofNat)
open Nat (mod_lt mod_eq_of_lt succ_sub_one)

/-! ### Generations -/

/-- The number of generations. -/
def generations : ℕ := 2 ^ 19 - 1

/-- The id in slot `e` after the `n`-th allocation of the slot; 0 before the first. -/
def idAfter (e : EnvIx) : ℕ → ℕ
  | 0 => 0
  | n + 1 => (n % generations + 1) * 4096 + e.val

theorem idAfter_lt (e : EnvIx) (n : ℕ) : idAfter e n < 2 ^ 31 := by
  cases n with
  | zero => exact Nat.two_pow_pos 31
  | succ n =>
    have hn : n % generations < 2 ^ 19 - 1 := mod_lt _ (by decide)
    rw [idAfter]
    omega

theorem idAfter_ne (e : EnvIx) {n m : ℕ} (hn : 0 < n) (hm : 0 < m) (hlt : m < generations) :
    idAfter e (n + m) ≠ idAfter e n := by
  obtain ⟨n, rfl⟩ := Nat.exists_eq_succ_of_ne_zero hn.ne'
  intro heq
  rw [Nat.succ_add, idAfter, idAfter] at heq
  have hmod : (n + m) % generations = n % generations := by omega
  have hzero : m % generations = 0 := by
    have h : n + m ≡ n + 0 [MOD generations] := hmod
    exact Nat.ModEq.add_left_cancel' n h
  rw [mod_eq_of_lt hlt] at hzero
  omega

theorem envx_idAfter (e : EnvIx) {n : ℕ} (hn : 0 < n) :
    envx (BitVec.ofNat 32 (idAfter e n)) = e := by
  have hlt := idAfter_lt e n
  obtain ⟨n, rfl⟩ := Nat.exists_eq_succ_of_ne_zero hn.ne'
  apply Fin.ext
  rw [envx, Fin.val_ofNat, toNat_ofNat, mod_eq_of_lt (show _ < 2 ^ 32 by omega), idAfter]
  omega

theorem clear_index (w : Word) :
    (w &&& ~~~BitVec.ofNat 32 (nenv - 1)).toNat = w.toNat / 1024 * 1024 := by
  have hhigh : (w &&& ~~~BitVec.ofNat 32 (nenv - 1)) >>> 10 = w >>> 10 := by
    rw [BitVec.ushiftRight_and_distrib]
    have hmask : (~~~BitVec.ofNat 32 (nenv - 1)) >>> 10 = BitVec.allOnes 32 >>> 10 := by decide
    rw [hmask, ← BitVec.ushiftRight_and_distrib, BitVec.and_allOnes]
  have hdiv : (w &&& ~~~BitVec.ofNat 32 (nenv - 1)).toNat / 1024 = w.toNat / 1024 := by
    have h := congrArg BitVec.toNat hhigh
    rwa [BitVec.toNat_ushiftRight, BitVec.toNat_ushiftRight, Nat.shiftRight_eq_div_pow,
      Nat.shiftRight_eq_div_pow] at h
  have hlow : (w &&& ~~~BitVec.ofNat 32 (nenv - 1)).toNat % 1024 = 0 := by
    have hzero : (w &&& ~~~BitVec.ofNat 32 (nenv - 1)) &&& 0x3FF#32 = 0#32 := by
      rw [BitVec.and_assoc, show ~~~BitVec.ofNat 32 (nenv - 1) &&& 0x3FF#32 = 0#32 by decide,
        BitVec.and_zero]
    have h := congrArg BitVec.toNat hzero
    rwa [BitVec.toNat_and, show (0x3FF#32).toNat = 2 ^ 10 - 1 from rfl,
      Nat.and_two_pow_sub_one_eq_mod] at h
  omega

theorem or_index (e : EnvIx) {g : ℕ} (hg : g < 2 ^ 20) :
    BitVec.ofNat 32 (g * 4096) ||| BitVec.ofNat 32 e.val = BitVec.ofNat 32 (g * 4096 + e.val) := by
  have hsum : g * 4096 + e.val < 2 ^ 32 := by omega
  apply BitVec.eq_of_toNat_eq
  have hor : 4096 * g ||| e.val = 4096 * g + e.val := by
    have h := Nat.two_pow_add_eq_or_of_lt (show e.val < 2 ^ 12 by omega) g
    exact h.symm
  rw [BitVec.toNat_or, toNat_ofNat, toNat_ofNat, toNat_ofNat,
    mod_eq_of_lt ((Nat.le_add_right ..).trans_lt hsum), mod_eq_of_lt (show e.val < 2 ^ 32 by omega),
    mod_eq_of_lt hsum, Nat.mul_comm g, hor]

/-- **The arithmetic of `env_alloc`.** After the last generation the sum is negative as a signed
    number, and the first generation comes again. -/
theorem nextEnvId_idAfter (e : EnvIx) (n : ℕ) :
    Kernel.nextEnvId (BitVec.ofNat 32 (idAfter e n)) e = BitVec.ofNat 32 (idAfter e (n + 1)) := by
  have hlt := idAfter_lt e n
  -- The generation that is computed, before the test of its sign.
  have hgen : (BitVec.ofNat 32 (idAfter e n) + (1#32 <<< envgenshift)) &&&
      ~~~BitVec.ofNat 32 (nenv - 1) = BitVec.ofNat 32 ((idAfter e n / 4096 + 1) * 4096) := by
    have hlow : idAfter e n % 4096 < 1024 := by
      cases n with
      | zero => exact Nat.zero_lt_succ _
      | succ n =>
        rw [idAfter]
        omega
    apply BitVec.eq_of_toNat_eq
    rw [clear_index, BitVec.toNat_add, toNat_ofNat, toNat_ofNat,
      show (1#32 <<< envgenshift).toNat = 4096 from rfl]
    omega
  have hsize : (idAfter e n / 4096 + 1) * 4096 < 2 ^ 32 := by omega
  have hsign : (BitVec.ofNat 32 ((idAfter e n / 4096 + 1) * 4096)).toInt ≤ 0 ↔
      generations ≤ idAfter e n / 4096 := by
    rw [BitVec.toInt_eq_toNat_cond, toNat_ofNat, mod_eq_of_lt hsize, generations]
    split <;> omega
  have hnext : idAfter e n / 4096 = if n = 0 then 0 else (n - 1) % generations + 1 := by
    cases n with
    | zero => rw [if_pos rfl, idAfter, Nat.zero_div]
    | succ n =>
      rw [idAfter, if_neg (Nat.succ_ne_zero n), succ_sub_one]
      omega
  rw [nextEnvId, hgen]
  by_cases hwrap : generations ≤ idAfter e n / 4096
  · rw [if_pos (hsign.mpr hwrap), show (1#32 <<< envgenshift) = BitVec.ofNat 32 (1 * 4096) from rfl,
      or_index e (by decide), idAfter]
    have hn : n % generations = 0 := by
      rw [hnext] at hwrap
      split at hwrap
      · next h =>
        rw [h]
        exact Nat.zero_mod _
      · next h =>
        obtain ⟨m, rfl⟩ := Nat.exists_eq_succ_of_ne_zero h
        rw [succ_sub_one] at hwrap
        have hm : m % generations < generations := mod_lt _ (by decide)
        rw [Nat.succ_eq_add_one, Nat.add_mod, show m % generations = generations - 1 by omega]
        decide
    rw [hn]
  · rw [if_neg (fun h => hwrap (hsign.mp h)), or_index e (by omega), idAfter]
    have hn : n % generations = idAfter e n / 4096 := by
      rw [hnext] at hwrap ⊢
      split at hwrap
      · next h => rw [h, if_pos rfl, Nat.zero_mod]
      · next h =>
        obtain ⟨m, rfl⟩ := Nat.exists_eq_succ_of_ne_zero h
        rw [succ_sub_one] at hwrap
        rw [if_neg h, succ_sub_one, Nat.succ_eq_add_one, ← Nat.mod_add_mod,
          mod_eq_of_lt (Nat.not_le.mp hwrap)]
    rw [hn]

/-! ### Runs -/

inductive EnvCall where
  /-- `env_alloc(&e, parent)`, with what it returned. -/
  | alloc (parentId : Word) (r : Except Int EnvIx)
  | free (e : EnvIx)
  /-- What the kernel does between two such calls. -/
  | other

/-- Besides `env_alloc` and `env_free` nothing stores an id or an `ENV_FREE`, or takes an
    environment that is free. -/
inductive EnvStep : Kernel → EnvCall → Kernel → Prop
  | alloc {k k' : Kernel} {parentId : Word} {r : Except Int EnvIx}
      (h : k.envAlloc parentId = some (k', r)) : EnvStep k (.alloc parentId r) k'
  | free {k k' : Kernel} {e : EnvIx} (h : k.envFree e = some k') : EnvStep k (.free e) k'
  | other {k k' : Kernel} (hid : ∀ e, (k'.envs e).envId = (k.envs e).envId)
      (hfree : ∀ e, (k'.envs e).envStatus = .free ↔ (k.envs e).envStatus = .free) :
      EnvStep k .other k'

/-- How often slot `e` has been allocated. -/
def allocs (e : EnvIx) (l : List EnvCall) : ℕ :=
  l.countP fun
    | .alloc _ (.ok e') => decide (e' = e)
    | _ => false

theorem allocs_append (e : EnvIx) (l l' : List EnvCall) :
    allocs e (l ++ l') = allocs e l + allocs e l' := List.countP_append

theorem allocs_ok (e e' : EnvIx) (parentId : Word) :
    allocs e [.alloc parentId (.ok e')] = if e' = e then 1 else 0 := by
  by_cases h : e' = e <;> simp [allocs, h]

/-- Each slot holds the id of its last allocation, and a slot never allocated is free. -/
def IdsAfter (l : List EnvCall) (k : Kernel) : Prop :=
  ∀ e, (k.envs e).envId = BitVec.ofNat 32 (idAfter e (allocs e l)) ∧
    ((k.envs e).envStatus ≠ .free → 0 < allocs e l)

section Steps

variable {k k' k₁ k₂ : Kernel} {l l' : List EnvCall} {c : EnvCall} {e : EnvIx}

theorem idsAfter_envInit (k : Kernel) : IdsAfter [] k.envInit := by
  intro e
  rw [envInit]
  generalize List.finRange 1024 = js
  have hid := envInitLoop_field Env.envId (fun _ _ => rfl) k js e
  have hstatus := envInitLoop_field Env.envStatus (fun _ _ => rfl) k js e
  exact ⟨hid, fun hlive => absurd hstatus hlive⟩

/-- What a step does to one slot: it is allocated, or keeps its id and is not taken. -/
theorem EnvStep.slot (h : EnvStep k c k') (e : EnvIx) :
    (allocs e [c] = 1 ∧ (k'.envs e).envId = Kernel.nextEnvId (k.envs e).envId e) ∨
    (allocs e [c] = 0 ∧ (k'.envs e).envId = (k.envs e).envId ∧
      ((k.envs e).envStatus = .free → (k'.envs e).envStatus = .free)) := by
  have hrow : ∀ {t : Table}, k'.table = t → (k'.envs e).row = t.rows e := by
    rintro t rfl
    rfl
  cases h with
  | alloc halloc =>
    rcases envAlloc_table halloc with ⟨⟨n, rfl⟩, heq⟩ | ⟨e', d, rfl, _, heq⟩
    · have h := hrow heq
      exact .inr ⟨rfl, congrArg Row.id h, fun hs => (congrArg Row.status h).trans hs⟩
    · have h := hrow heq
      rw [allocs_ok]
      by_cases he : e' = e
      · subst he
        refine .inl ⟨if_pos rfl, ?_⟩
        exact (congrArg Row.id h).trans (congrArg Row.id (set_rows_self ..))
      · have hne : (k.table.alloc e' d .runnable).rows e = k.table.rows e :=
          set_rows_of_ne _ _ _ _ (Ne.symm he)
        rw [hne] at h
        exact .inr ⟨if_neg he, congrArg Row.id h, fun hs => (congrArg Row.status h).trans hs⟩
  | @free _ e' hfree =>
    have h := hrow (table_envFree hfree)
    refine .inr ⟨rfl, ?_⟩
    by_cases he : e = e'
    · subst he
      have hself : (k.table.release e).rows e =
          { k.table.rows e with pgdir := none, status := .free, link := k.table.head } :=
        set_rows_self ..
      rw [hself] at h
      exact ⟨congrArg Row.id h, fun _ => congrArg Row.status h⟩
    · have hne : (k.table.release e').rows e = k.table.rows e := set_rows_of_ne _ _ _ _ he
      rw [hne] at h
      exact ⟨congrArg Row.id h, fun hs => (congrArg Row.status h).trans hs⟩
  | other hid hfree => exact .inr ⟨rfl, hid e, (hfree e).mpr⟩

theorem IdsAfter.step (h : IdsAfter l k) (hstep : EnvStep k c k') : IdsAfter (l ++ [c]) k' := by
  intro e
  obtain ⟨hid, hlive⟩ := h e
  rw [allocs_append]
  rcases hstep.slot e with ⟨hone, hnew⟩ | ⟨hzero, hsame, hfree⟩
  · rw [hone, hnew, hid, nextEnvId_idAfter]
    exact ⟨rfl, fun _ => Nat.succ_pos _⟩
  · rw [hzero, hsame]
    exact ⟨hid, fun hs => hlive fun h => hs (hfree h)⟩

theorem IdsAfter.run (h : IdsAfter l k) (hrun : Run EnvStep k l' k') : IdsAfter (l ++ l') k' := by
  induction hrun with
  | nil => rwa [List.append_nil]
  | snoc _ hstep ih =>
    rw [← List.append_assoc]
    exact ih.step hstep

theorem free_run (hrun : Run EnvStep k l k') (hfree : (k.envs e).envStatus = .free)
    (hzero : allocs e l = 0) : (k'.envs e).envStatus = .free := by
  induction hrun with
  | nil => exact hfree
  | snoc _ hstep ih =>
    rw [allocs_append] at hzero
    rcases hstep.slot e with ⟨hone, _⟩ | ⟨_, _, hkeep⟩
    · omega
    · exact hkeep (ih (by omega))

theorem IdsAfter.positive (h : IdsAfter l k) (hn : 0 < allocs e l) :
    0 < (k.envs e).envId.toInt ∧ envx (k.envs e).envId = e := by
  have hlt := idAfter_lt e (allocs e l)
  rw [(h e).1]
  refine ⟨?_, envx_idAfter e hn⟩
  obtain ⟨n, heq⟩ := Nat.exists_eq_succ_of_ne_zero hn.ne'
  rw [heq] at hlt ⊢
  rw [BitVec.toInt_eq_toNat_cond, toNat_ofNat, mod_eq_of_lt (by omega), if_pos (by omega), idAfter]
  omega

/-- Ids within the range of the generations are told apart by the word. -/
theorem ofNat_idAfter_inj {n m : ℕ}
    (h : BitVec.ofNat 32 (idAfter e n) = BitVec.ofNat 32 (idAfter e m)) :
    idAfter e n = idAfter e m := by
  have hn := idAfter_lt e n
  have hm := idAfter_lt e m
  have heq := congrArg BitVec.toNat h
  rwa [toNat_ofNat, toNat_ofNat, mod_eq_of_lt (by omega), mod_eq_of_lt (by omega)] at heq

theorem envid2env_stale {envid : Word} {curenv : EnvIx} {checkperm : Bool} (hne : envid ≠ 0#32)
    (h : (k.envs (envx envid)).envStatus = .free ∨ (k.envs (envx envid)).envId ≠ envid) :
    k.envid2env curenv envid checkperm = none := by
  rw [envid2env, if_neg hne]
  exact if_pos h

end Steps

/-- **Environment ids do not alias.** After any sequence of calls `l₁` from `env_init` on, the id
    of a live environment is positive, names its slot, and no other live environment has it. If
    the slot has been allocated before, and again in `l₂`, but not through all generations, then
    its new id differs; and as long as that is so, `envid2env` refuses the id of an environment
    that was freed. -/
theorem env_ids_unique {k₀ k₁ k₂ : Kernel} {l₁ l₂ : List EnvCall}
    (h₁ : Run EnvStep k₀.envInit l₁ k₁) (h₂ : Run EnvStep k₁ l₂ k₂) :
    (∀ e, (k₁.envs e).envStatus ≠ .free →
      0 < (k₁.envs e).envId.toInt ∧ envx (k₁.envs e).envId = e) ∧
    (∀ e e', (k₁.envs e).envStatus ≠ .free → (k₁.envs e').envStatus ≠ .free → e ≠ e' →
      (k₁.envs e).envId ≠ (k₁.envs e').envId) ∧
    (∀ e, 0 < allocs e l₁ → 0 < allocs e l₂ → allocs e l₂ < 2 ^ 19 - 1 →
      (k₂.envs e).envId ≠ (k₁.envs e).envId) ∧
    ∀ e, 0 < allocs e l₁ → (k₁.envs e).envStatus = .free → allocs e l₂ < 2 ^ 19 - 1 →
      ∀ curenv checkperm, k₂.envid2env curenv (k₁.envs e).envId checkperm = none := by
  have hids₁ : IdsAfter l₁ k₁ := (idsAfter_envInit k₀).run h₁
  have hids₂ : IdsAfter (l₁ ++ l₂) k₂ := hids₁.run h₂
  have hlive : ∀ e, (k₁.envs e).envStatus ≠ .free → envx (k₁.envs e).envId = e :=
    fun e he => (hids₁.positive ((hids₁ e).2 he)).2
  have hnew : ∀ e, 0 < allocs e l₁ → 0 < allocs e l₂ → allocs e l₂ < 2 ^ 19 - 1 →
      (k₂.envs e).envId ≠ (k₁.envs e).envId := by
    intro e hn hm hlt heq
    rw [(hids₁ e).1, (hids₂ e).1, allocs_append] at heq
    refine idAfter_ne e hn hm hlt (ofNat_idAfter_inj ?_)
    exact heq
  refine ⟨fun e he => hids₁.positive ((hids₁ e).2 he), fun e e' he he' hne heq => ?_, hnew,
    fun e hn hfree hlt curenv checkperm => ?_⟩
  · rw [← hlive e he, ← hlive e' he', heq] at hne
    exact hne rfl
  · obtain ⟨hpos, hx⟩ := hids₁.positive hn
    refine envid2env_stale (fun h => ?_) ?_
    · rw [h] at hpos
      exact absurd hpos (by decide)
    · rw [hx]
      -- The slot is still free, or has been given another id.
      rcases Nat.eq_zero_or_pos (allocs e l₂) with hzero | hm
      · exact .inl (free_run h₂ hfree hzero)
      · exact .inr (hnew e hn hm hlt)

-- A machine with one free frame: environment 0 is made, freed and made again.

structure OneFrame (k : Kernel) : Prop where
  head : k.envFreeList = some 0
  frame : k.pmap.pageFreeList = some 3
  npages : k.pmap.npages = 16
  ref : (k.pmap.pages 3).ppRef = 0
  kern : k.pmap.kernPgdir = 4
  empty : ∀ j, k.pmap.mem 4 j = 0#32

/-- The frame is the directory of environment 0. -/
structure FrameUsed (k : Kernel) : Prop where
  dir : (k.envs 0).envPgdir = some 3
  npages : k.pmap.npages = 16
  page : k.pmap.pages 3 = ⟨none, 1⟩
  kern : k.pmap.kernPgdir = 4
  empty : ∀ j, k.pmap.mem 4 j = 0#32
  user : ∀ j < pdxUtop, k.pmap.mem 3 j = 0#32

theorem OneFrame.alloc {k : Kernel} (h : OneFrame k) :
    ∃ k', k.envAlloc 0 = some (k', .ok 0) ∧ FrameUsed k' := by
  have hpg : pgnum (page2pa 3) = 3 := by decide
  have hpage : k.pmap.pageAlloc true =
      some (({ k.pmap with pageFreeList := (k.pmap.pages 3).ppLink }.setLink 3 none).clear 3,
        some 3) := by
    simp [Pmap.pageAlloc, h.frame, Pmap.page2kva, Pmap.kaddr, Pmap.setLink, hpg, h.npages]
  have hset : ∃ k₁, k.envSetupVm 0 = some (k₁, 0) ∧ FrameUsed k₁ := by
    simp only [envSetupVm, hpage, Option.bind_some, Pmap.page2kva, Pmap.kaddr, hpg,
      Pmap.clear, Pmap.setLink, h.npages, show 3 < 16 by decide, if_true]
    refine ⟨_, rfl, ?_⟩
    refine ⟨?dir, rfl, ?page, h.kern, fun j => ?empty, fun j hj => ?user⟩
    case dir => simp [setEnv]
    case page =>
      simp [setEnv, setPmap, Pmap.write, Pmap.copyPage, Pmap.pageIncref, Pmap.setRef, h.ref]
    case empty =>
      simp [setEnv, setPmap, Pmap.write, Pmap.copyPage, Pmap.pageIncref, Pmap.setRef, h.empty]
    case user =>
      have hne : j ≠ pdx uvpt := by
        rintro rfl
        exact absurd hj (by decide)
      simp [setEnv, setPmap, Pmap.write, Pmap.copyPage, Pmap.pageIncref, Pmap.setRef,
        h.kern, h.empty, hne]
  obtain ⟨k₁, hset, hused⟩ := hset
  simp only [envAlloc, h.head, hset, Option.bind_some, lt_irrefl, if_false]
  refine ⟨_, rfl, ?_⟩
  exact ⟨by simpa [setEnv] using hused.dir, hused.npages, hused.page, hused.kern,
    hused.empty, hused.user⟩

theorem FrameUsed.free {k : Kernel} (h : FrameUsed k) : ∃ k', k.envFree 0 = some k' ∧
    OneFrame k' := by
  have hpg : pgnum (page2pa 3) = 3 := by decide
  have hloop : forUpTo (fun pdeno s => s.envFreeTable 3 (Fin.ofNat 1024 pdeno)) pdxUtop.val k.pmap =
      some k.pmap := by
    have hskip : ∀ i s, i < pdxUtop.val → s = k.pmap →
        ∃ s', s.envFreeTable 3 (Fin.ofNat 1024 i) = some s' ∧ s' = k.pmap := by
      rintro i s hi rfl
      have hi' : Fin.ofNat 1024 i < pdxUtop := by
        rw [Fin.lt_def, Fin.val_ofNat]
        omega
      have habs : ¬ has (0#32) pteP := by decide
      exact ⟨k.pmap, by rw [Pmap.envFreeTable, h.user _ hi', if_neg habs], rfl⟩
    obtain ⟨s, hs, rfl⟩ := forUpTo_rule (fun _ s => s = k.pmap) rfl hskip
    exact hs
  have hvm : ∃ s, k.pmap.envFreeVm 3 = some s ∧ s.pageFreeList = some 3 ∧ s.npages = 16 ∧
      (s.pages 3).ppRef = 0 ∧ s.kernPgdir = 4 ∧ ∀ j, s.mem 4 j = 0#32 := by
    rw [Pmap.envFreeVm, hloop]
    simp [Pmap.pa2page, hpg, h.npages, Pmap.pageDecref, Pmap.setRef, h.page,
      Pmap.pageFree, Pmap.setLink, h.kern, h.empty]
  obtain ⟨s, hs, hframe, hnp, href, hkern, hempty⟩ := hvm
  exact ⟨_, k.envFree_eq h.dir hs, rfl, hframe, hnp, href, hkern, hempty⟩

/-- Environment 0 is made, freed and made again: it gets another id, and the old one is refused. -/
theorem env_ids_unique_reuse :
    ∃ k₀ k₁ k₂, Run EnvStep (Kernel.envInit k₀) [.alloc 0 (.ok 0), .free 0] k₁ ∧
      Run EnvStep k₁ [.alloc 0 (.ok 0)] k₂ ∧ (k₁.envs 0).envStatus = .free ∧
      (k₂.envs 0).envId ≠ (k₁.envs 0).envId ∧
      ∀ curenv checkperm, k₂.envid2env curenv (k₁.envs 0).envId checkperm = none := by
  obtain ⟨k₀, hk₀⟩ : ∃ k₀ : Kernel, OneFrame k₀.envInit := by
    refine ⟨⟨⟨16, fun _ => ⟨none, 0⟩, some 3, fun _ _ => 0#32, 4⟩, fun _ => Env.blank, none,
      E1000.blank⟩, ?_⟩
    obtain ⟨_, _, hpmap⟩ := envInitLoop_spec ⟨⟨16, fun _ => ⟨none, 0⟩, some 3, fun _ _ => 0#32, 4⟩,
      fun _ => Env.blank, none, E1000.blank⟩ (List.nodup_finRange 1024)
    refine ⟨?_, ?_, ?_, ?_, ?_, ?_⟩
    · rw [envInit, List.finRange_succ]
      rfl
    all_goals
      rw [envInit, hpmap]
    intro j
    rfl
  obtain ⟨k, halloc, hused⟩ := hk₀.alloc
  obtain ⟨k₁, hfree, hk₁⟩ := hused.free
  obtain ⟨k₂, halloc', _⟩ := hk₁.alloc
  have hrun₁ : Run EnvStep k₀.envInit [.alloc 0 (.ok 0), .free 0] k₁ :=
    (Run.single (.alloc halloc)).snoc (.free hfree)
  have hrun₂ : Run EnvStep k₁ [.alloc 0 (.ok 0)] k₂ := .single (.alloc halloc')
  have hstatus : (k₁.envs 0).envStatus = .free := by
    have h := congrArg (fun t : Table => (t.rows 0).status) (table_envFree hfree)
    exact h.trans (congrArg Row.status (set_rows_self ..))
  obtain ⟨_, _, hnew, hstale⟩ := env_ids_unique hrun₁ hrun₂
  exact ⟨k₀, k₁, k₂, hrun₁, hrun₂, hstatus, hnew 0 (by decide) (by decide) (by decide),
    hstale 0 (by decide) hstatus (by decide)⟩

end LinuxStudy.Jos
