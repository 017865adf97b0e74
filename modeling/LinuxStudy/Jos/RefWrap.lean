import LinuxStudy.Jos.PageLeak

/-!
# Freeing a page that is still mapped

`pp_ref` has 16 bits. As long as no page is referred to 65536 times, `sys_page_map` and
`sys_page_unmap` never put a mapped page on the free list. One environment can map a page
65537 times, though, with 64 page tables; the counter is then 1 again, and the next
`sys_page_unmap` frees the page under the remaining mappings.
-/

namespace LinuxStudy.Jos

open RefCount

/-- `sys_page_map` or `sys_page_unmap`. -/
def Call.Remaps : Call → Prop
  | .pageMap _ _ _ _ _ | .pageUnmap _ _ => True
  | _ => False

/-- One such call, to a state in which no page has 65536 references. -/
def MapStep (k : Kernel) (r : Request) (k' : Kernel) : Prop :=
  k.Step (.trap r) k' ∧ r.call.Remaps ∧ Bounded k'

theorem Booted.map_step {F : Set ℕ} {k k' : Kernel} {r : Request} (h : Booted F k)
    (hs : MapStep k r k') : Booted F k' := by
  obtain ⟨hstep, hc, hb'⟩ := hs
  refine h.careful_step ⟨hstep, ?_, hb'⟩
  show r.call.NoPointers ∧ k.SendsBelow r.cur r.call ∧ ¬ k.Loses r.cur r.call
  cases hcall : r.call with
  | pageMap srcenvid srcva dstenvid dstva perm => exact ⟨trivial, trivial, id⟩
  | pageUnmap envid va => exact ⟨trivial, trivial, id⟩
  | _ =>
    rw [hcall] at hc
    exact absurd hc id

/-! ### The long run -/

/-- The `n`-th address the page is mapped at, from `UTEXT` on. -/
def aliasVa (n : ℕ) : Word := pgaddr (Fin.ofNat 1024 (2 + n / 1024)) (Fin.ofNat 1024 n) 0#32

/-- Environment 0 maps its page at `UTEMP` once more, or unmaps it there. -/
def Request.alias (n : ℕ) : Request :=
  { cur := 0, tf := Trapframe.user, dev := 0
    call := .pageMap 0 utemp 0 (aliasVa n) (pteP ||| pteU) }

def Request.unalias : Request :=
  { cur := 0, tf := Trapframe.user, dev := 0, call := .pageUnmap 0 utemp }

theorem pdx_aliasVa {n : ℕ} (hn : n < 65536) : (pdx (aliasVa n)).val = 2 + n / 1024 := by
  rw [aliasVa, pdx_pgaddr, Fin.val_ofNat, Nat.mod_eq_of_lt (by omega)]

theorem ptx_aliasVa (n : ℕ) : (ptx (aliasVa n)).val = n % 1024 := by
  rw [aliasVa, ptx_pgaddr, Fin.val_ofNat]

theorem pgoff_pgaddr (i t : Idx) : pgoff (pgaddr i t 0#32) = 0#32 := by
  rw [pgoff_eq_zero_iff, pgaddr_toNat]
  omega

theorem aliasVa_lt_utop {n : ℕ} (hn : n < 65536) : aliasVa n < utop := by
  rw [lt_utop_iff, Fin.lt_def, pdx_aliasVa hn, pdxUtop_val]
  omega

theorem not_badVa_alias {n : ℕ} (hn : n < 65536) : ¬ Kernel.badVa (aliasVa n) := by
  rw [Kernel.badVa, not_or, not_not, ne_eq, not_not]
  exact ⟨aliasVa_lt_utop hn, pgoff_pgaddr _ _⟩

theorem aliasVa_entry_inj {m n : ℕ} (hm : m < 65536) (hn : n < 65536)
    (hi : pdx (aliasVa m) = pdx (aliasVa n)) (ht : ptx (aliasVa m) = ptx (aliasVa n)) : m = n := by
  have hi' := congrArg Fin.val hi
  have ht' := congrArg Fin.val ht
  rw [pdx_aliasVa hm, pdx_aliasVa hn] at hi'
  rw [ptx_aliasVa, ptx_aliasVa] at ht'
  omega

/-- Environment 0 after mapping page `p` at the first `n` addresses: the page has `n + 1`
    references, the other addresses are free, and so are enough pages for the tables. -/
structure Aliased (F : Set ℕ) (p n : ℕ) (k : Kernel) : Prop where
  alive : (k.envs 0).envStatus ≠ .dying
  source : frameOf (pte k.dirs k.pmap 0 (pdx utemp) (ptx utemp)) = some p
  mapped : ∀ m < n, frameOf (pte k.dirs k.pmap 0 (pdx (aliasVa m)) (ptx (aliasVa m))) = some p
  fresh : ∀ m, n ≤ m → m < 65536 →
    frameOf (pte k.dirs k.pmap 0 (pdx (aliasVa m)) (ptx (aliasVa m))) = none
  count : refs k.dirs k.pmap p = n + 1
  sound : ∃ l, Sound F k.dirs k.pmap l ∧ 64 ≤ l.length + (n + 1023) / 1024

section Alias

variable {F : Set ℕ} {k k' : Kernel} {p n : ℕ}

/-- `sys_page_map` of a page that is there, at an address where nothing is. -/
theorem sysPageMap_eq {pp : ℕ} {slot : Slot} {srcva dstva perm : Word} {s' : Pmap}
    (hsrc : ¬ Kernel.badVa srcva) (hdst : ¬ Kernel.badVa dstva) (hperm : ¬ Kernel.badPerm perm)
    (hlookup : k.pmap.pageLookup (k.dirs 0) srcva = some (some (pp, slot)))
    (hw : ¬ has perm pteW)
    (hins : k.pmap.pageInsert (k.dirs 0) pp dstva perm = some (s', 0)) :
    k.sysPageMap 0 0 srcva 0 dstva perm = some (.ret 0 (k.setPmap s')) := by
  simp [Kernel.sysPageMap, Kernel.envid2env, hsrc, hdst, hperm, hlookup, hw, hins]

/-- The table for the next address is there, except for the first address under it. -/
theorem Aliased.table (A : Aliased F p n k) (hn : n < 65536)
    (htable : frameOf (pde k.dirs k.pmap 0 (pdx (aliasVa n))) = none) : n % 1024 = 0 := by
  by_contra hmod
  have hprev := A.mapped (n - 1) (by omega)
  obtain ⟨f, hf, _⟩ := exists_table_of_page hprev
  have hsame : pdx (aliasVa (n - 1)) = pdx (aliasVa n) := by
    apply Fin.ext
    rw [pdx_aliasVa (by omega), pdx_aliasVa hn]
    omega
  rw [hsame, htable] at hf
  cases hf

theorem refs_alias {l l' : List ℕ} {s' : Pmap} {i t : Idx} {w : Word}
    (L : Sound F k.dirs k.pmap l)
    (E : EntrySet F k.dirs k.pmap (fun _ => 0) l 0 i t w s' l') (hp : p ∉ l)
    (hpage : ∀ x, ref k.dirs k.pmap x = some p → x.isPage)
    (hold : frameOf (pte k.dirs k.pmap 0 i t) = none) (hw : frameOf w = some p) :
    refs k.dirs s' p = refs k.dirs k.pmap p + 1 := by
  have hnew : frameOf (pde k.dirs s' 0 i) ≠ some p := by
    intro h
    rcases E.pde_eq 0 i with hsame | ⟨_, _, _, q, hq, hword⟩
    · rw [hsame] at h
      exact hpage (.table 0 i) h
    · have hlt : q < 2 ^ 20 := lt_of_lt_of_le (L.frame_lt q (L.free q hq).1) L.npages_le
      rw [hword, frameOf_tableWord hlt] at h
      exact hp (Option.some.inj h ▸ hq)
  have htable : ref k.dirs k.pmap (.table 0 i) ≠ some p := fun h => hpage _ h
  have hentry : Function.update (ref k.dirs k.pmap) (.table 0 i) (frameOf (pde k.dirs s' 0 i))
      (.page 0 i t) = none := by
    exact hold
  have h1 := count_update (ref k.dirs k.pmap) (.table 0 i) (frameOf (pde k.dirs s' 0 i)) p
  rw [if_neg htable, if_neg hnew] at h1
  rw [refs, L.ref_set E, hw, count_update_some hentry, if_pos rfl, refs]
  omega

theorem Aliased.step (A : Aliased F p n k) (hn : n < 65536) :
    ∃ k', k.Step (.trap (.alias n)) k' ∧ Aliased F p (n + 1) k' ∧
      ∀ q, refs k'.dirs k'.pmap q ≤ refs k.dirs k.pmap q + 2 := by
  obtain ⟨l, L, hlen⟩ := A.sound
  obtain ⟨f, hf, _⟩ := exists_table_of_page A.source
  obtain ⟨d, hd, _, _⟩ := exists_dir_of_table hf
  obtain ⟨hpF, hpl, hpage⟩ := L.mapped_page A.source
  have hold := A.fresh n le_rfl hn
  have hlt : p < 2 ^ 20 := lt_of_lt_of_le (L.frame_lt p hpF) L.npages_le
  have hperm : IsPerm (pteP ||| pteU) := by decide
  have hw : frameOf (mkPte p (pteP ||| pteU)) = some p := frameOf_mkPte hlt hperm
  rcases L.insert hd ((lt_utop_iff _).mp (aliasVa_lt_utop hn)) hperm hpF hpl hpage (by
    intro q hq
    rw [hold] at hq
    cases hq) with ⟨htable, rfl, _⟩ | ⟨s', l', hins, E⟩
  · have := A.table hn htable
    rw [List.length_nil] at hlen
    omega
  · have hsave := (Kernel.Agree.saveTf k 0 Trapframe.user).dirs
    have hlookup : k.pmap.pageLookup ((k.saveTf 0 Trapframe.user).dirs 0) utemp =
        some (some (p, (f, ptx utemp))) := by
      rw [hsave, hd]
      exact L.lookup_present hd hf A.source
    have hins' : k.pmap.pageInsert ((k.saveTf 0 Trapframe.user).dirs 0) p (aliasVa n)
        (pteP ||| pteU) = some (s', 0) := by
      rw [hsave, hd]
      exact hins
    have hcall := sysPageMap_eq (k := k.saveTf 0 Trapframe.user) (by decide) (not_badVa_alias hn)
      (by decide) hlookup (by decide) hins'
    refine ⟨((k.saveTf 0 Trapframe.user).setPmap s').setEax 0 0,
      ⟨d, .ret 0 _, hd, Kernel.trapSyscall_ret A.alive hcall, rfl⟩, ?_⟩
    have hdirs : (((k.saveTf 0 Trapframe.user).setPmap s').setEax 0 0).dirs = k.dirs :=
      (Kernel.Agree.setEax _ 0 0).dirs.trans (Kernel.Agree.saveTf k 0 Trapframe.user).dirs
    have hutemp : pdx utemp ≠ pdx (aliasVa n) := by
      intro h
      have := congrArg Fin.val h
      rw [pdx_aliasVa hn, show (pdx utemp).val = 1 by decide] at this
      omega
    rw [hdirs]
    refine ⟨⟨A.alive, ?_, ?_, ?_, ?_, ?_⟩, L.refs_set_le E⟩
    all_goals rw [hdirs]
    · show frameOf (pte k.dirs s' _ _ _) = _
      rw [E.pte_eq, if_neg fun h => hutemp h.2.1]
      exact A.source
    · intro m hm
      show frameOf (pte k.dirs s' _ _ _) = _
      rw [E.pte_eq]
      split
      · exact hw
      · next hne =>
        refine A.mapped m (lt_of_le_of_ne (Nat.lt_succ_iff.mp hm) ?_)
        rintro rfl
        exact hne ⟨rfl, rfl, rfl⟩
    · intro m hnm hm
      show frameOf (pte k.dirs s' _ _ _) = _
      rw [E.pte_eq, if_neg fun h => by
        have := aliasVa_entry_inj hm hn h.2.1 h.2.2
        omega]
      exact A.fresh m (by omega) hm
    · show refs k.dirs s' p = _
      rw [refs_alias L E hpl hpage hold hw, A.count]
    · refine ⟨l', E.ledger, ?_⟩
      have hlen' := L.free_length E fun q hq h => by
        rw [hw] at h
        exact hpl (Option.some.inj h ▸ hq)
      split at hlen'
      · next htable =>
        have := A.table hn htable
        omega
      · omega

theorem Aliased.run (A : Aliased F p 0 k) (hn : n ≤ 65536) :
    ∃ k', Run Kernel.Step k ((List.range n).map fun m => .trap (.alias m)) k' ∧
      Aliased F p n k' := by
  induction n with
  | zero => exact ⟨k, Run.nil k, A⟩
  | succ n ih =>
    obtain ⟨k1, hrun, A1⟩ := ih (by omega)
    obtain ⟨k', hstep, A', _⟩ := A1.step (by omega)
    refine ⟨k', ?_, A'⟩
    rw [List.range_succ, List.map_append]
    exact hrun.snoc hstep

/-- With 65537 references the counter is 1, and the next `sys_page_unmap` frees the page. -/
theorem Aliased.unmap (A : Aliased F p 65536 k) :
    ∃ k', k.Step (.trap .unalias) k' ∧ k'.pmap.pageFreeList = some p ∧
      frameOf (pte k'.dirs k'.pmap 0 (pdx (aliasVa 0)) (ptx (aliasVa 0))) = some p := by
  obtain ⟨l, L, _⟩ := A.sound
  obtain ⟨f, hf, _⟩ := exists_table_of_page A.source
  obtain ⟨d, hd, _, _⟩ := exists_dir_of_table hf
  obtain ⟨hpF, hpl, _⟩ := L.mapped_page A.source
  have hone : (k.pmap.pages p).ppRef = 1 := by
    rw [L.ref_eq p hpF, A.count]
    decide
  have hlink : (k.pmap.pages p).ppLink = none := L.link_none p hpF hpl
  -- the state `page_free` leaves
  let s1 := (k.pmap.write f (ptx utemp) 0#32).setRef p 0
  let s2 : Pmap := { s1.setLink p s1.pageFreeList with pageFreeList := some p }
  have hremove : k.pmap.pageRemove (some d) utemp = some s2 := by
    rw [Pmap.pageRemove, L.lookup_present hd hf A.source]
    simp [Pmap.pageDecref, Pmap.pageFree, Pmap.setRef, Pmap.write, hone, hlink, s2, s1]
  have hcall : (k.saveTf 0 Trapframe.user).sysPageUnmap 0 0 utemp =
      some (.ret 0 ((k.saveTf 0 Trapframe.user).setPmap s2)) := by
    have hva : ¬ Kernel.badVa utemp := by decide
    have hrem : (k.saveTf 0 Trapframe.user).pmap.pageRemove
        ((k.saveTf 0 Trapframe.user).dirs 0) utemp = some s2 := by
      rw [(Kernel.Agree.saveTf k 0 Trapframe.user).dirs, hd]
      exact hremove
    simp [Kernel.sysPageUnmap, Kernel.envid2env, hva, hrem]
  refine ⟨((k.saveTf 0 Trapframe.user).setPmap s2).setEax 0 0,
    ⟨d, .ret 0 _, hd, Kernel.trapSyscall_ret A.alive hcall, rfl⟩, rfl, ?_⟩
  show frameOf (pte k.dirs s2 _ _ _) = _
  rw [show pte k.dirs s2 = pte k.dirs (k.pmap.write f (ptx utemp) 0#32) from pte_congr rfl,
    L.pte_write_table hf, if_neg (by decide)]
  exact A.mapped 0 (by omega)

end Alias

/-- 128 pages, and one environment that asks for a page at `UTEMP`: the return value and the
    state. -/
def Kernel.aliasStart : Option (Int × Kernel) :=
  (Kernel.boot (.blank 128 1) E1000.blank 1 3 1).bind fun k => (k.dirs 0).bind fun cr3 =>
    (k.trapSyscall 0 cr3 0 Trapframe.user (Request.pageAlloc utemp).call).2.bind fun o =>
      match o with
      | .ret r k => some (r, k)
      | _ => none

/-- What can be read off the state: the page is mapped once, no other table is there, and
    most pages are unreferenced. -/
def Kernel.AliasReady (k : Kernel) : Prop :=
  (k.envs 0).envStatus ≠ .dying ∧
    frameOf (pte k.dirs k.pmap 0 (pdx utemp) (ptx utemp)) = some 126 ∧
    (k.pmap.pages 126).ppRef = 1 ∧
    (∀ i : Idx, 2 ≤ i.val → frameOf (pde k.dirs k.pmap 0 i) = none) ∧
    ∀ q ∈ List.range' 8 100, (k.pmap.pages q).ppRef = 0

instance (k : Kernel) : Decidable k.AliasReady :=
  inferInstanceAs (Decidable (_ ∧ _ ∧ _ ∧ _ ∧ _))

theorem aliasStart_ready : Kernel.aliasStart.map (fun x => (x.1, decide x.2.AliasReady)) =
    some (0, true) := by
  decide +kernel

theorem aliased_start : ∃ k, Booted (freeFrames 128 1 3) k ∧
    (∀ q, refs k.dirs k.pmap q ≤ 1027) ∧ Aliased (freeFrames 128 1 3) 126 0 k := by
  obtain ⟨⟨r, k⟩, hstart, hready⟩ := Option.map_eq_some_iff.mp aliasStart_ready
  obtain ⟨rfl, hready⟩ := Prod.mk.inj hready
  obtain ⟨halive, hsource, hone, htables, hunused⟩ := of_decide_eq_true hready
  -- the kernel is still up after the first call
  have hup : Booted (freeFrames 128 1 3) k ∧ ∀ q, refs k.dirs k.pmap q ≤ 1027 := by
    obtain ⟨k0, hk0, hstart⟩ := Option.bind_eq_some_iff.mp hstart
    obtain ⟨cr3, _, hstart⟩ := Option.bind_eq_some_iff.mp hstart
    obtain ⟨o, ho, hstart⟩ := Option.bind_eq_some_iff.mp hstart
    obtain ⟨h0, hle0⟩ := booted_boot (by decide)
      (Pmap.blank_early (by decide) (by decide) (by decide)) hk0
    cases o with
    | ret r k1 =>
      cases hstart
      exact h0.pageAlloc (by decide) hle0 ho
    | yield k1 => cases hstart
    | exit k1 => cases hstart
  obtain ⟨hbooted, hle⟩ := hup
  refine ⟨k, hbooted, hle, halive, hsource, fun m hm => absurd hm (by omega), ?_, ?_, ?_⟩
  · intro m _ hm
    rw [pte_of_no_table (htables _ (by rw [pdx_aliasVa hm]; omega)), frameOf_zero]
  all_goals obtain ⟨l, le, K⟩ := hbooted.sound
  · have hpF := (K.ledger.mapped_page hsource).1
    have hppRef := K.ledger.ref_eq 126 hpF
    rw [hone, Nat.add_zero] at hppRef
    have := congrArg BitVec.toNat hppRef
    rw [BitVec.toNat_ofNat, Nat.mod_eq_of_lt (hbooted.bounded 126)] at this
    exact this.symm
  · refine ⟨l, K.ledger, ?_⟩
    have hsub : List.range' 8 100 ⊆ l := by
      intro q hq
      have hq' := List.mem_range'_1.mp hq
      have hqF : q ∈ freeFrames 128 1 3 := by
        refine ⟨by omega, ?_⟩
        rw [Reserved, show pgnum mpentryPaddr = 7 by decide]
        omega
      rcases hbooted.accounted q hqF with hreach | hpos
      · exact K.ledger.chain.reach_iff.mp hreach
      · rw [hunused q hq] at hpos
        exact absurd hpos (lt_irrefl 0)
    have := (List.subperm_of_subset List.nodup_range' hsub).length_le
    rw [List.length_range'] at this
    omega

/-! ### Free pages and mapped pages -/

/-- **Mapped pages are not free, while the counters do not wrap.** After any sequence of
    `sys_page_map` and `sys_page_unmap` in which no page gets 65536 references, no page on
    the free list is mapped anywhere. -/
theorem free_page_unmapped {F : Set ℕ} {k k' : Kernel} {rs : List Request} {p : ℕ}
    (h : Booted F k) (hrun : Run MapStep k rs k')
    (hfree : Reach k'.pmap.link k'.pmap.pageFreeList p) (e : EnvIx) (i t : Idx) :
    frameOf (pte k'.dirs k'.pmap e i t) ≠ some p := by
  have h' : Booted F k' := hrun.invariant (Booted F) h fun _ _ _ h hs => h.map_step hs
  obtain ⟨l, le, K⟩ := h'.sound
  intro hp
  exact (K.ledger.mapped_page hp).2.1 (K.ledger.chain.reach_iff.mp hfree)

/-- The theorem at work on one mapping: the next page the allocator would hand out is mapped
    nowhere. -/
theorem free_page_unmapped_alias : ∃ (k k' : Kernel) (p : ℕ), Booted (freeFrames 128 1 3) k ∧
    Run MapStep k [.alias 0] k' ∧ Reach k'.pmap.link k'.pmap.pageFreeList p ∧
    ∀ e i t, frameOf (pte k'.dirs k'.pmap e i t) ≠ some p := by
  obtain ⟨k, hbooted, hle, A⟩ := aliased_start
  obtain ⟨k', hstep, A', hgrow⟩ := A.step (by decide)
  have hb' : Bounded k' := by
    intro q
    have := hle q
    have := hgrow q
    omega
  have hrun : Run MapStep k [.alias 0] k' := Run.snoc (Run.nil k) ⟨hstep, trivial, hb'⟩
  obtain ⟨l, L, hlen⟩ := A'.sound
  obtain ⟨p, hp⟩ : ∃ p, p ∈ l := List.exists_mem_of_length_pos (by omega)
  have hfree : Reach k'.pmap.link k'.pmap.pageFreeList p := L.chain.reach_iff.mpr hp
  exact ⟨k, k', p, hbooted, hrun, hfree, free_page_unmapped hbooted hrun hfree⟩

/-- A page mapped at 65537 addresses and unmapped at one of them is free and still mapped. -/
theorem wrapped_page_freed : ∃ (k k' : Kernel) (p : ℕ), Booted (freeFrames 128 1 3) k ∧
    Run Kernel.Step k
      ((List.range 65536).map (fun n => .trap (.alias n)) ++ [.trap .unalias]) k' ∧
    Reach k'.pmap.link k'.pmap.pageFreeList p ∧
    ∃ e i t, frameOf (pte k'.dirs k'.pmap e i t) = some p := by
  obtain ⟨k, hbooted, _, A⟩ := aliased_start
  obtain ⟨k₁, hrun, A₁⟩ := A.run le_rfl
  obtain ⟨k', hstep, hfree, hmapped⟩ := A₁.unmap
  refine ⟨k, k', 126, hbooted, hrun.snoc hstep, ?_, 0, _, _, hmapped⟩
  rw [hfree]
  exact Reach.here 126

end LinuxStudy.Jos
