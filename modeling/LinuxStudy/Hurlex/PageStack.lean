import LinuxStudy.Lib.Run
import LinuxStudy.Hurlex.Paging

/-!
# The stack of physical pages

`init_pmm` of `mm/pmm.c`, and the calls of `pmm_alloc_page` and `pmm_free_page` after it. The end of
the memory map is computed with a pointer to its entries: the loop looks at `mmap_length` entries of
24 bytes, and not at `mmap_length` bytes. The map is in the first 4 MB, where at that time addresses
are physical ones.
-/

namespace LinuxStudy.Hurlex

open Proc (bind_of_eq get_apply when_neg when_pos)
open Proc
open BitVec (le_def lt_def)

/-- The static variables before boot. -/
def reset (mem : ByteMem) : Kernel :=
  { pmmStack := [], pgdKern := fun _ => 0#32, mem := mem, heapMax := heapStart, heapFirst := 0#32 }

/-- The memory that `init_pmm` takes its pages from. -/
def MmapEntry.Usable (e : MmapEntry) : Prop := e.type = 1#32 ∧ e.baseAddrLow = 0x100000#32

instance (e : MmapEntry) : Decidable e.Usable := inferInstanceAs (Decidable (_ ∧ _))

/-- The entry at an address. -/
def mmapEntry (mem : ByteMem) (p : Word) : MmapEntry :=
  ⟨mem.word (p + 20#32).toNat, mem.word (p + 4#32).toNat, mem.word (p + 12#32).toNat⟩

/-- `for (map_entry = mmap_start_addr; map_entry < mmap_end_addr; map_entry++)`: where it looks. -/
def mapEntries (stop : Word) : ℕ → Word → Option (List Word)
  | 0, _ => none
  | n + 1, p => if p < stop then (mapEntries stop n (p + 24#32)).map (p :: ·) else some []

/-- The entries of the map at `mmapAddr` that are looked at. -/
def lookedAt (mmapAddr mmapLength : Word) : Option (List Word) :=
  mapEntries (mmapAddr + 24#32 * mmapLength) (2 ^ 32) mmapAddr

/-- `init_pmm`, with the map at `mmapAddr`. -/
def initPmmAt (size mmapAddr mmapLength : Word) : KernM Unit := do
  let mem := (← get).mem
  match lookedAt mmapAddr mmapLength with
  | some entries => initPmm size (entries.map (mmapEntry mem))
  | none => Proc.fail

/-- The address of an entry of the map. -/
def entryAddr (mmapAddr : Word) (i : ℕ) : Word := mmapAddr + BitVec.ofNat 32 (24 * i)

section Boot

variable {k : Kernel} {size : Word} {entries : List MmapEntry}

/-- The pages of an entry are pushed from the lowest on, and there is room for them. -/
theorem freePages_pushes {l p : Word} {n : ℕ} (hn : 0x20000000 < p.toNat + 4096 * n)
    (hroom : 4096 * k.pmmStack.length + 4096 ≤ p.toNat) :
    ∃ ps, freePages l (n + 1) p k = some ((), { k with pmmStack := ps ++ k.pmmStack }) ∧
      ps.Pairwise (· > ·) ∧
      ∀ a, a ∈ ps ↔ (∃ i, a.toNat = p.toNat + 4096 * i) ∧ a < l ∧ a ≤ pmmMaxSize := by
  have hmax : pmmMaxSize.toNat = 0x20000000 := rfl
  induction n generalizing k p with
  | zero =>
    have hcond : ¬ (p < l ∧ p ≤ pmmMaxSize) := fun h => absurd h.2 (by
      rw [le_def]
      omega)
    refine ⟨[], by rw [freePages, if_neg hcond]; rfl, .nil, fun a => ⟨nofun, ?_⟩⟩
    rintro ⟨⟨i, ha⟩, -, hle⟩
    rw [le_def] at hle
    omega
  | succ n ih =>
    rw [freePages]
    by_cases hcond : p < l ∧ p ≤ pmmMaxSize
    · have hle := le_def.mp hcond.2
      have hnext : (p + pageSize).toNat = p.toNat + 4096 :=
        toNat_add (by rw [show pageSize.toNat = 4096 from rfl]; omega)
      have hpush : pmmFreePage p k = some ((), { k with pmmStack := p :: k.pmmStack }) := by
        rw [pmmFreePage, bind_of_eq get_apply,
          bind_of_eq (require_pos (by rw [pageMaxSize]; omega))]
        rfl
      obtain ⟨ps, hrun, hdesc, hps⟩ := ih (k := { k with pmmStack := p :: k.pmmStack })
        (p := p + pageSize) (by omega) (by rw [hnext, List.length_cons]; omega)
      refine ⟨ps ++ [p], ?_, ?_, fun a => ?_⟩
      · rw [if_pos hcond, bind_of_eq hpush, hrun, List.append_assoc]
        rfl
      · refine List.pairwise_append.mpr ⟨hdesc, List.pairwise_singleton .., fun a ha b hb => ?_⟩
        obtain ⟨⟨i, hi⟩, -⟩ := (hps a).mp ha
        rw [List.mem_singleton.mp hb, gt_iff_lt, lt_def]
        omega
      · rw [List.mem_append, List.mem_singleton, hps]
        constructor
        · rintro (⟨⟨i, hi⟩, h⟩ | rfl)
          · exact ⟨⟨i + 1, by omega⟩, h⟩
          · exact ⟨⟨0, rfl⟩, hcond⟩
        · rintro ⟨⟨_ | i, hi⟩, h⟩
          · exact .inr (BitVec.eq_of_toNat_eq hi)
          · exact .inl ⟨⟨i, by omega⟩, h⟩
    · refine ⟨[], if_neg hcond ▸ rfl, .nil, fun a => ⟨nofun, ?_⟩⟩
      rintro ⟨⟨i, ha⟩, hlt, hle⟩
      refine absurd ⟨lt_def.mpr ?_, le_def.mpr ?_⟩ hcond
      · rw [lt_def] at hlt
        omega
      · rw [le_def] at hle
        omega

theorem initPmm_unusable (h : ∀ e ∈ entries, ¬ e.Usable) :
    initPmm size entries k = some ((), k) := by
  induction entries with
  | nil => rfl
  | cons e entries ih =>
    have he : ¬ (e.type = 1#32 ∧ e.baseAddrLow = 0x100000#32) := h e (by simp)
    rw [initPmm, bind_of_eq (when_neg he)]
    exact ih fun e' he' => h e' (by simp [he'])

/-- The stack after `init_pmm`, if the memory map has the memory from 1 MB on once. -/
theorem initPmm_pages (size : Word) (honce : entries.Pairwise fun e e' => ¬ (e.Usable ∧ e'.Usable))
    (hsize : ∀ e ∈ entries, e.Usable → 0x100000 + size.toNat < 2 ^ 32) (hstack : k.pmmStack = []) :
    ∃ ps, initPmm size entries k = some ((), { k with pmmStack := ps }) ∧ ps.Pairwise (· > ·) ∧
      ∀ a, a ∈ ps ↔ ∃ e ∈ entries, e.Usable ∧ (∃ i, a.toNat = 0x100000 + size.toNat + 4096 * i) ∧
        a < 0x100000#32 + e.lengthLow ∧ a ≤ pmmMaxSize := by
  induction entries with
  | nil => exact ⟨[], by rw [← hstack]; rfl, .nil, by simp⟩
  | cons e entries ih =>
    obtain ⟨hfirst, honce⟩ := List.pairwise_cons.mp honce
    by_cases he : e.type = 1#32 ∧ e.baseAddrLow = 0x100000#32
    · have hp : (0x100000#32 + size).toNat = 0x100000 + size.toNat :=
        toNat_add (hsize e (by simp) he)
      have hrest : ∀ e' ∈ entries, ¬ e'.Usable := fun e' he' huse => hfirst e' he' ⟨he, huse⟩
      obtain ⟨ps, hrun, hdesc, hps⟩ := freePages_pushes (k := k) (p := 0x100000#32 + size)
        (l := 0x100000#32 + e.lengthLow) (n := pageMaxSize) (by rw [pageMaxSize]; omega)
        (by rw [hstack, hp, List.length_nil]; omega)
      refine ⟨ps, ?_, hdesc, fun a => ?_⟩
      · rw [hstack, List.append_nil] at hrun
        rw [initPmm, bind_of_eq ((when_pos he).trans (he.2 ▸ hrun)), initPmm_unusable hrest]
      · rw [hps, hp]
        refine ⟨fun h => ⟨e, by simp, he, h⟩, ?_⟩
        rintro ⟨e', he', huse, h⟩
        rcases List.mem_cons.mp he' with rfl | he'
        · exact h
        · exact absurd huse (hrest e' he')
    · obtain ⟨ps, hrun, hdesc, hps⟩ := ih honce fun e' he' => hsize e' (by simp [he'])
      refine ⟨ps, ?_, hdesc, fun a => (hps a).trans ?_⟩
      · rw [initPmm, bind_of_eq (when_neg he)]
        exact hrun
      · have he : ¬ e.Usable := he
        simp [he]

theorem mapEntries_eq {stop p : Word} {m n : ℕ} (hstop : stop.toNat = p.toNat + 24 * m)
    (hn : m < n) : mapEntries stop n p = some ((List.range m).map (entryAddr p)) := by
  obtain ⟨n, rfl⟩ : ∃ n', n = n' + 1 := ⟨n - 1, by omega⟩
  induction m generalizing p n with
  | zero =>
    rw [mapEntries, if_neg (by rw [lt_def]; omega)]
    rfl
  | succ m ih =>
    obtain ⟨n, rfl⟩ : ∃ n', n = n' + 1 := ⟨n - 1, by omega⟩
    have hnext : (p + 24#32).toNat = p.toNat + 24 := toNat_add (by have := stop.isLt; simp; omega)
    have hp : entryAddr p 0 = p := BitVec.add_zero p
    rw [mapEntries, if_pos (by rw [lt_def]; omega), ih (by omega) n (by omega), Option.map_some,
      List.range_succ_eq_map, List.map_cons, List.map_map, hp]
    refine congrArg (fun l => some (p :: l)) (List.map_congr_left fun i _ => ?_)
    rw [Function.comp, entryAddr, entryAddr, BitVec.add_assoc, Nat.mul_succ, BitVec.ofNat_add,
      BitVec.add_comm (24#32)]

theorem lookedAt_eq {mmapAddr mmapLength : Word}
    (h : mmapAddr.toNat + 24 * mmapLength.toNat < 2 ^ 32) :
    lookedAt mmapAddr mmapLength =
    some ((List.range mmapLength.toNat).map (entryAddr mmapAddr)) := by
  refine mapEntries_eq ?_ mmapLength.isLt
  rw [BitVec.toNat_add, BitVec.toNat_mul, show (24#32).toNat = 24 from rfl]
  omega

end Boot

/-! ### Calls after boot -/

inductive PageOp
  | alloc (p : Word)
  | free (p : Word)

/-- A call, with the pages that are handed out. Only these are given back. -/
inductive PageStep : Kernel × List Word → PageOp → Kernel × List Word → Prop
  | alloc {k k' : Kernel} {out : List Word} {p : Word} (h : pmmAllocPage k = some (p, k')) :
      PageStep (k, out) (.alloc p) (k', p :: out)
  | free {k k' : Kernel} {out : List Word} {p : Word} (hp : p ∈ out)
      (h : pmmFreePage p k = some ((), k')) : PageStep (k, out) (.free p) (k', out.erase p)

section Calls

variable {k k' : Kernel} {out : List Word} {p : Word}

theorem pmmAllocPage_eq (h : pmmAllocPage k = some (p, k')) : k.pmmStack = p :: k'.pmmStack := by
  rw [pmmAllocPage] at h
  split at h
  · cases h
  · next hstack =>
    cases h
    exact hstack

/-- No page is on the stack twice, or both on the stack and handed out. -/
theorem PageStep.nodup {s s' : Kernel × List Word} {op : PageOp} (hs : PageStep s op s')
    (h : (s.1.pmmStack ++ s.2).Nodup) : (s'.1.pmmStack ++ s'.2).Nodup := by
  cases hs with
  | alloc hcall =>
    rw [pmmAllocPage_eq hcall] at h
    exact List.perm_middle.nodup_iff.mpr h
  | free hp hcall =>
    rw [pmmFreePage, bind_of_eq get_apply, bind_eq_some] at hcall
    obtain ⟨_, _, hreq, hcall⟩ := hcall
    obtain ⟨_, rfl⟩ := require_eq_some.mp hreq
    cases hcall
    exact List.perm_middle.nodup_iff.mp (((List.perm_cons_erase hp).append_left _).nodup_iff.mp h)

/-- A page is handed out once at a time, from a stack that has it once. -/
theorem alloc_fresh (h : k.pmmStack.Nodup) {ops : List PageOp} {s : Kernel × List Word}
    (hs : Run PageStep (k, []) ops s) (halloc : pmmAllocPage s.1 = some (p, k')) : p ∉ s.2 := by
  have hinv :=
    hs.invariant (fun s => (s.1.pmmStack ++ s.2).Nodup) (by simpa using h) fun _ _ _ h
      hs => hs.nodup h
  rw [pmmAllocPage_eq halloc] at hinv
  exact fun hp => (List.nodup_cons.mp hinv).1 (List.mem_append_right _ hp)

end Calls

/-! ### Only usable pages -/

/-- An available entry with base 1 MB, and the end of its memory. Both are of 64 bits. -/
def Available (mem : ByteMem) (p : Word) (stop : ℕ) : Prop :=
  mem.word (p + 20#32).toNat = 1#32 ∧
    (mem.word (p + 4#32).toNat).toNat + 2 ^ 32 * (mem.word (p + 8#32).toNat).toNat = 0x100000 ∧
    0x100000 + (mem.word (p + 12#32).toNat).toNat + 2 ^ 32 *
    (mem.word (p + 16#32).toNat).toNat = stop

/-- What `init_pmm` relies on: of the memory from 1 MB on there is one entry, in the map; its high
    words are 0; no sum overflows; and 512 MB is not the address of one of its pages. -/
structure PlainMap (mem : ByteMem) (size mmapAddr mmapLength : Word) : Prop where
  once : ∀ i j, i < j → j < mmapLength.toNat → ¬ ((mmapEntry mem (entryAddr mmapAddr i)).Usable ∧
    (mmapEntry mem (entryAddr mmapAddr j)).Usable)
  behind : ∀ i, mmapLength.toNat / 24 ≤ i → i < mmapLength.toNat →
    ¬ (mmapEntry mem (entryAddr mmapAddr i)).Usable
  entry : ∀ i < mmapLength.toNat / 24, (mmapEntry mem (entryAddr mmapAddr i)).Usable →
    0x100000 + size.toNat < 2 ^ 32 ∧
    mem.word (entryAddr mmapAddr i + 8#32).toNat = 0#32 ∧
    mem.word (entryAddr mmapAddr i + 16#32).toNat = 0#32 ∧
    0x100000 + (mmapEntry mem (entryAddr mmapAddr i)).lengthLow.toNat < 2 ^ 32 ∧
    ¬ (4096 ∣ size.toNat ∧
      0x20000000 < 0x100000 + (mmapEntry mem (entryAddr mmapAddr i)).lengthLow.toNat)

/-- No entry beyond the `mmap_length` bytes of the map is looked at. -/
def LooksInside (mmapAddr mmapLength : Word) : Prop :=
  ∃ entries, lookedAt mmapAddr mmapLength = some entries ∧
    ∀ p ∈ entries, mmapAddr ≤ p ∧ p.toNat + 24 ≤ mmapAddr.toNat + mmapLength.toNat

/-- The pages of the available memory from 1 MB on that are behind the kernel and below 512 MB are
    on the stack once each, and no page is handed out twice. -/
def UsablePages (k : Kernel) (size mmapAddr mmapLength : Word) : Prop :=
  ∃ k', initPmmAt size mmapAddr mmapLength k = some ((), k') ∧ k'.pmmStack.Nodup ∧
    (∀ a, a ∈ k'.pmmStack ↔ ∃ i < mmapLength.toNat / 24, ∃ stop,
      Available k.mem (entryAddr mmapAddr i) stop ∧
      (∃ j, a.toNat = 0x100000 + size.toNat + 4096 * j) ∧ a.toNat < stop ∧ a.toNat < 0x20000000) ∧
    ∀ ops s, Run PageStep (k', []) ops s → ∀ p t, pmmAllocPage s.1 = some (p, t) → p ∉ s.2

section Map

variable {k : Kernel} {size mmapAddr mmapLength : Word}

theorem PlainMap.usablePages (h : PlainMap k.mem size mmapAddr mmapLength)
    (hstack : k.pmmStack = [])
    (haddr : mmapAddr.toNat + 24 * mmapLength.toNat < 2 ^ 32) :
    UsablePages k size mmapAddr mmapLength := by
  have hin : ∀ i < mmapLength.toNat, (mmapEntry k.mem (entryAddr mmapAddr i)).Usable →
      i < mmapLength.toNat / 24 := by
    intro i hi huse
    by_contra hout
    exact h.behind i (by omega) hi huse
  have honce :
    (((List.range mmapLength.toNat).map (entryAddr mmapAddr)).map (mmapEntry k.mem)).Pairwise
      fun e e' => ¬ (e.Usable ∧ e'.Usable) := by
    rw [List.map_map]
    exact List.pairwise_map.mpr (List.pairwise_lt_range.imp_of_mem fun _ hj hlt =>
      h.once _ _ hlt (List.mem_range.mp hj))
  obtain ⟨ps, hrun, hdesc, hps⟩ := initPmm_pages size honce (by
    intro e he huse
    rw [List.map_map] at he
    obtain ⟨i, hi, rfl⟩ := List.mem_map.mp he
    exact (h.entry i (hin i (List.mem_range.mp hi) huse) huse).1) hstack
  have hnodup : ps.Nodup := hdesc.imp fun {a b} (hgt : a > b) (heq : a = b) =>
    BitVec.lt_irrefl b (heq ▸ hgt)
  refine ⟨{ k with pmmStack := ps }, ?_, hnodup, fun a => (hps a).trans ⟨?_, ?_⟩,
    fun ops s hs p t halloc => alloc_fresh hnodup hs halloc⟩
  · rw [initPmmAt, bind_of_eq get_apply, lookedAt_eq haddr]
    exact hrun
  · rintro ⟨e, he, huse, hj, hlt, hle⟩
    rw [List.map_map] at he
    obtain ⟨i, hi, rfl⟩ := List.mem_map.mp he
    obtain ⟨-, hbase, hlen, hsum, hlast⟩ := h.entry i (hin i (List.mem_range.mp hi) huse) huse
    rw [lt_def, Function.comp, toNat_add (a := 0x100000#32) hsum] at hlt
    refine ⟨i, hin i (List.mem_range.mp hi) huse, _, ⟨huse.1, ?_, rfl⟩, hj, ?_, ?_⟩
    · rw [show k.mem.word (entryAddr mmapAddr i + 4#32).toNat = 0x100000#32 from huse.2, hbase]
      rfl
    · rw [hlen]
      exact hlt
    · have hle : a.toNat ≤ 0x20000000 := hle
      obtain ⟨j, hj⟩ := hj
      refine hle.lt_of_ne fun heq => hlast ⟨by omega, ?_⟩
      exact heq ▸ hlt
  · rintro ⟨i, hi, stop, ⟨htype, hbase, rfl⟩, hj, hlt, hle⟩
    have hlow : k.mem.word (entryAddr mmapAddr i + 4#32).toNat = 0x100000#32 := by
      refine BitVec.eq_of_toNat_eq ?_
      rw [show (0x100000#32).toNat = 0x100000 from rfl]
      omega
    obtain ⟨-, -, hlen, hsum, -⟩ := h.entry i hi ⟨htype, hlow⟩
    rw [hlen] at hlt
    refine ⟨_, List.mem_map_of_mem (List.mem_map_of_mem (List.mem_range.mpr (by omega))),
      ⟨htype, hlow⟩, hj, ?_, ?_⟩
    · rw [lt_def, toNat_add (a := 0x100000#32) hsum]
      exact hlt
    · exact hle.le

/-- Of a map that is not empty the last entry that is looked at lies behind it. -/
theorem looksInside_iff (haddr : mmapAddr.toNat + 24 * mmapLength.toNat < 2 ^ 32) :
    LooksInside mmapAddr mmapLength ↔ mmapLength = 0#32 := by
  rw [LooksInside, lookedAt_eq haddr]
  constructor
  · rintro ⟨_, ⟨⟩, hin⟩
    by_contra hne
    have hpos : 0 < mmapLength.toNat := Nat.pos_of_ne_zero fun h => hne (BitVec.eq_of_toNat_eq h)
    have hlast := (hin _ (List.mem_map_of_mem (List.mem_range.mpr (Nat.sub_one_lt_of_lt hpos)))).2
    rw [entryAddr, BitVec.toNat_add, BitVec.toNat_ofNat] at hlast
    omega
  · rintro rfl
    exact ⟨_, rfl, nofun⟩

end Map

/-- **Only usable pages are handed out, from a look at the map alone**, where the map is empty: of
    every other map entries behind it are looked at. If these are not taken for memory, still only
    usable pages are handed out, and each to one owner at a time. -/
theorem pmm_pages_usable {k : Kernel} {size mmapAddr mmapLength : Word} (hstack : k.pmmStack = [])
    (haddr : mmapAddr.toNat + 24 * mmapLength.toNat < 2 ^ 32) :
    (LooksInside mmapAddr mmapLength ∧ UsablePages k size mmapAddr mmapLength ↔ mmapLength = 0#32) ∧
      (PlainMap k.mem size mmapAddr mmapLength → UsablePages k size mmapAddr mmapLength) := by
  refine ⟨⟨fun h => (looksInside_iff haddr).mp h.1, ?_⟩, fun h => h.usablePages hstack haddr⟩
  rintro rfl
  exact ⟨(looksInside_iff haddr).mpr rfl, PlainMap.usablePages ⟨nofun, nofun, nofun⟩ hstack haddr⟩

/-- A memory map at 4096: an entry of the given type for 16 KB, and another one behind it. -/
def mapMem (type type' : Word) : ByteMem := ByteMem.putWords (fun _ => 0#8) 4096
  [20#32, 0x100000#32, 0#32, 0x4000#32, 0#32, type, 20#32, 0x100000#32, 0#32, 0x2000#32,
    0#32, type']

theorem pmm_pages_usable_three : ∃ k', initPmmAt 0x1000#32 4096#32 24#32 (reset (mapMem 1 0)) =
    some ((), k') ∧ k'.pmmStack.Nodup ∧ 0x103000#32 ∈ k'.pmmStack := by
  have hnone : ∀ i, 1 ≤ i → i < 24 → ¬ (mmapEntry (mapMem 1 0) (entryAddr 4096#32 i)).Usable := by
    decide
  have hmap : PlainMap (reset (mapMem 1 0)).mem 0x1000#32 4096#32 24#32 :=
    ⟨fun i j hij hj hu => hnone j (by omega) hj hu.2, hnone, by decide⟩
  obtain ⟨k', hrun, hnodup, hmem, -⟩ := (pmm_pages_usable rfl (by decide)).2 hmap
  exact ⟨k', hrun, hnodup, (hmem _).mpr ⟨0, by decide, 0x104000,
    ⟨by decide, by decide, by decide⟩, ⟨2, rfl⟩, by decide, by decide⟩⟩

/-- A map of one reserved entry, with bytes behind it that look like an available one. -/
theorem pmm_pages_behind_map : ((initPmmAt 0#32 4096#32 24#32 (reset (mapMem 2 1))).map
    (·.2.pmmStack)) = some [0x101000#32, 0x100000#32] := by
  decide

end LinuxStudy.Hurlex
