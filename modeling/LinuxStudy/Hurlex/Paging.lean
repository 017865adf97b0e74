import Mathlib.Order.Interval.Finset.Nat
import LinuxStudy.Hurlex.Heap

/-!
# The pages of the hurlex heap

`heap_max` is a count of pages: those from `HEAP_START` up to it are mapped, each to a physical page
of its own that is neither free nor a page table. Seen through the page tables, the heap is then a
memory of bytes with an upper end, and stores to it leave the tables alone.
-/

namespace LinuxStudy.Hurlex

open Function (update_of_ne update_self)
open Proc (bind_of_eq get_apply bind_apply)
open ByteMem
open BitVec (toNat_and toNat_ofNat eq_of_toNat_eq lt_def)
open List (nodup_append length_append mem_cons length_singleton map_cons)

section Words

variable {f : ℕ}

theorem pgdIndex_eq (x : Word) : pgdIndex x = x.toNat / 2 ^ 22 := by
  rw [pgdIndex, toNat_and, BitVec.toNat_ushiftRight, show (0x3FF#32).toNat = 2 ^ 10 - 1 from rfl,
    Nat.and_two_pow_sub_one_eq_mod, Nat.shiftRight_eq_div_pow]
  omega

theorem pteIndex_eq (x : Word) : pteIndex x = x.toNat / 4096 % 1024 := by
  rw [pteIndex, toNat_and, BitVec.toNat_ushiftRight, show (0x3FF#32).toNat = 2 ^ 10 - 1 from rfl,
    Nat.and_two_pow_sub_one_eq_mod, Nat.shiftRight_eq_div_pow]

theorem offsetIndex_eq (x : Word) : offsetIndex x = x.toNat % 4096 := by
  rw [offsetIndex, toNat_and, show (0xFFF#32).toNat = 2 ^ 12 - 1 from rfl,
    Nat.and_two_pow_sub_one_eq_mod]

theorem toNat_pageMask (x : Word) : (x &&& pageMask).toNat = x.toNat / 4096 * 4096 := by
  have hhigh : (x &&& pageMask).toNat / 2 ^ 12 = x.toNat / 2 ^ 12 := by
    rw [← Nat.shiftRight_eq_div_pow, ← Nat.shiftRight_eq_div_pow, toNat_and,
      Nat.shiftRight_and_distrib,
      show pageMask.toNat >>> 12 = 2 ^ 20 - 1 from rfl, Nat.and_two_pow_sub_one_eq_mod,
      Nat.shiftRight_eq_div_pow]
    omega
  have hlow : (x &&& pageMask).toNat % 2 ^ 12 = 0 := by
    rw [toNat_and, Nat.and_mod_two_pow, show pageMask.toNat % 2 ^ 12 = 0 from rfl, Nat.and_zero]
  omega

/-- The entry for a page or a page table: present and writable. -/
def entry (f : ℕ) : Word := BitVec.ofNat 32 (f + 3)

theorem toNat_entry (hf : f ≤ 0x20000000) : (entry f).toNat = f + 3 := by
  rw [entry, toNat_ofNat, Nat.mod_eq_of_lt (by omega)]

theorem entry_present (hd : 4096 ∣ f) (hf : f ≤ 0x20000000) : entry f &&& pagePresent ≠ 0#32 := by
  intro h
  have hbit := congrArg BitVec.toNat h
  rw [toNat_and, toNat_entry hf, show pagePresent.toNat = 1 from rfl, Nat.and_one_is_mod] at hbit
  simp only [toNat_ofNat] at hbit
  omega

theorem entry_page (hd : 4096 ∣ f) (hf : f ≤ 0x20000000) : (entry f &&& pageMask).toNat = f := by
  rw [toNat_pageMask, toNat_entry hf]
  omega

theorem entry_ne_zero (hf : f ≤ 0x20000000) : entry f ≠ 0#32 := by
  intro h
  have hval := congrArg BitVec.toNat h
  rw [toNat_entry hf] at hval
  simp at hval

theorem or_flags {p : Word} (hd : 4096 ∣ p.toNat) (hf : p.toNat ≤ 0x20000000) :
    p ||| (pagePresent ||| pageWrite) = entry p.toNat := by
  obtain ⟨c, hc⟩ := hd
  apply eq_of_toNat_eq
  rw [BitVec.toNat_or, toNat_entry hf, show (pagePresent ||| pageWrite).toNat = 3 from rfl, hc,
    ← show c <<< 12 = 4096 *
    c by rw [Nat.shiftLeft_eq]; omega, Nat.shiftLeft_add_eq_or_of_lt (by omega)]

theorem pages_apart {g : ℕ} (hf : 4096 ∣ f) (hg : 4096 ∣ g) (hne : f ≠ g) : f + 4096 ≤ g ∨
    g + 4096 ≤ f := by
  omega

theorem toNat_add {a n : Word} (h : a.toNat + n.toNat < 2 ^ 32) :
    (a + n).toNat = a.toNat + n.toNat := by
  rw [BitVec.toNat_add, Nat.mod_eq_of_lt h]

end Words

/-! ### The tables -/

/-- The map of the first 512 MB at `PAGE_OFFSET`, with `pte_kern` at `K`; page 0 is left out. -/
structure Linear (K : ℕ) (k : Kernel) : Prop where
  aligned : 4096 ∣ K
  pde : ∀ j < 128, k.pgdKern (768 + j) = entry (K + 4096 * j)
  pte : ∀ i, 1 ≤ i → i < 0x20000 → k.mem.word (K + 4 * i) = entry (4096 * i)

/-- The physical pages of the heap in the order of their addresses, the free ones from the top of
    the stack, and the page tables of the heap. Pages come from the stack and go back to it in
    order, so that `pages ++ stack` only changes when a page table is taken out of it. `init_pmm`
    may push the page at 512 MB, which the linear map does not reach; it is the first page the heap
    takes and the last it gives back, and so never becomes a page table. -/
structure Frames (K : ℕ) (pages stack tabs : List ℕ) : Prop where
  nodup : (pages ++ stack ++ tabs).Nodup
  frame : ∀ f ∈ pages ++ stack ++ tabs, 4096 ∣ f ∧ K + 0x80000 ≤ f ∧ f ≤ 0x20000000
  low : ∀ f ∈ (pages ++ stack).tail ++ tabs, f < 0x20000000

/-- What `pgd_kern` and the page tables say. -/
structure Tables (K : ℕ) (k : Kernel) (pages tabs : List ℕ) : Prop where
  linear : Linear K k
  table : ∀ {i t}, tabs[i]? = some t → k.pgdKern (896 + i) = entry t
  noTable : ∀ i, tabs.length ≤ i → i < 128 → k.pgdKern (896 + i) = 0#32
  pte : ∀ {n f}, pages[n]? = some f → ∃ t, tabs[n / 1024]? = some t ∧
    k.mem.word (t + 4 * (n % 1024)) = entry f

structure Paged (K : ℕ) (k : Kernel) (pages tabs : List ℕ) : Prop where
  frames : Frames K pages (k.pmmStack.map BitVec.toNat) tabs
  tables : Tables K k pages tabs
  top : k.heapMax.toNat = heapStart.toNat + 4096 * pages.length

/-- The physical address for an address of the heap. -/
def phys (pages : List ℕ) (x : ℕ) : ℕ := pages.getD ((x - heapStart.toNat) / 4096) 0 + x % 4096

theorem phys_eq {pages : List ℕ} {n f x : ℕ} (hpage : pages[n]? = some f)
    (hx : heapStart.toNat + 4096 * n ≤ x)
    (hx' : x < heapStart.toNat + 4096 * (n + 1)) : phys pages x = f + x % 4096 := by
  have hn : (x - heapStart.toNat) / 4096 = n := by omega
  rw [phys, hn, List.getD_eq_getElem?_getD, hpage, Option.getD_some]

section Translate

variable {k : Kernel} {va : Word} {t f : ℕ}

theorem translate_eq (hpde : k.pgdKern (va.toNat / 2 ^ 22) = entry t)
    (hpte : k.mem.word (t + 4 * (va.toNat / 4096 % 1024)) = entry f)
    (ht : 4096 ∣ t) (ht' : t ≤ 0x20000000) (hf : 4096 ∣ f) (hf' : f ≤ 0x20000000) :
    k.translate va = some (f + va.toNat % 4096) := by
  have htab : k.pte va = some (entry f) := by
    rw [Kernel.pte, pgdIndex_eq, hpde, if_neg (entry_present ht ht'), entry_page ht ht',
      pteIndex_eq, hpte]
  rw [Kernel.translate, htab, Option.bind_eq_bind, Option.bind_some, if_neg (entry_present hf hf'),
    entry_page hf hf', offsetIndex_eq]

theorem table_none (h : k.pgdKern (va.toNat / 2 ^ 22) = 0#32) : k.table va = none := by
  rw [Kernel.table, pgdIndex_eq, h]
  rfl

theorem table_some (h : k.pgdKern (va.toNat / 2 ^ 22) = entry t) (ht : 4096 ∣ t) (h0 : t ≠ 0)
    (ht' : t ≤ 0x20000000) : k.table va = some (BitVec.ofNat 32 t + pageOffset) := by
  have hmask : entry t &&& pageMask = BitVec.ofNat 32 t := by
    apply eq_of_toNat_eq
    rw [entry_page ht ht', toNat_ofNat, Nat.mod_eq_of_lt (by omega)]
  have hne : BitVec.ofNat 32 t ≠ 0#32 := by
    intro h
    have hval := congrArg BitVec.toNat h
    rw [toNat_ofNat, Nat.mod_eq_of_lt (by omega)] at hval
    exact h0 hval
  rw [Kernel.table, pgdIndex_eq, h, hmask, if_neg hne]

end Translate

namespace Linear

variable {K : ℕ} {k : Kernel} {pa : ℕ} {w : Word}

theorem translate (hl : Linear K k) (hK : K + 0x80000 ≤ 0x20000000) {va : Word}
    (hva : va.toNat = pa + pageOffset.toNat)
    (hpa : 4096 ≤ pa) (hpa' : pa < 0x20000000) : k.translate va = some pa := by
  rw [show pageOffset.toNat = 0xC0000000 from rfl] at hva
  have hi : va.toNat / 2 ^ 22 = 768 + pa / 2 ^ 22 := by omega
  have hj : va.toNat / 4096 % 1024 = pa / 4096 % 1024 := by omega
  obtain ⟨c, rfl⟩ := hl.aligned
  rw [translate_eq (t := 4096 * c + 4096 * (pa / 2 ^ 22)) (f := 4096 * (pa / 4096))]
  · congr 1
    omega
  · rw [hi, hl.pde _ (by omega)]
  · rw [hj, ← hl.pte (pa / 4096) (by omega) (by omega)]
    congr 1
    omega
  · exact ⟨c + pa / 2 ^ 22, by omega⟩
  · omega
  · exact ⟨pa / 4096, rfl⟩
  · omega

end Linear

section Access

variable {k : Kernel} {va w : Word} {p : ℕ → ℕ}

theorem word_eq (h : ∀ i < 4, k.translate (va + BitVec.ofNat 32 i) = some (p i)) :
    k.word va = some (k.mem (p 3) ++ k.mem (p 2) ++ k.mem (p 1) ++ k.mem (p 0)) := by
  have h0 : k.translate va = some (p 0) := by simpa using h 0 (by omega)
  rw [Kernel.word, h0, h 1 (by omega), h 2 (by omega), h 3 (by omega)]
  rfl

theorem storew_eq (h : ∀ i < 4, k.translate (va + BitVec.ofNat 32 i) = some (p i)) :
    storew va w k = some ((), { k with
      mem := Function.update (Function.update
        (Function.update (Function.update k.mem (p 0) (w.extractLsb' 0 8))
        (p 1) (w.extractLsb' 8 8)) (p 2) (w.extractLsb' 16 8)) (p 3) (w.extractLsb' 24 8) }) := by
  have h0 : k.translate va = some (p 0) := by simpa using h 0 (by omega)
  rw [storew, h0, h 1 (by omega), h 2 (by omega), h 3 (by omega)]
  rfl

theorem toNat_byte {n i : ℕ} (hn : va.toNat = n) (h : n + 4 ≤ 2 ^ 32) (hi : i < 4) :
    (va + BitVec.ofNat 32 i).toNat = n + i := by
  have hval : (BitVec.ofNat 32 i).toNat = i := by
    rw [toNat_ofNat, Nat.mod_eq_of_lt (by omega)]
  rw [toNat_add (by rw [hval]; omega), hval, hn]

end Access

namespace Linear

variable {K : ℕ} {k : Kernel} {pa : ℕ} {va w : Word}

theorem bytes (hl : Linear K k) (hK : K + 0x80000 ≤ 0x20000000)
    (hva : va.toNat = pa + pageOffset.toNat)
    (hpa : 4096 ≤ pa) (hpa' : pa + 4 ≤ 0x20000000) : ∀ i < 4,
    k.translate (va + BitVec.ofNat 32 i) = some (pa + i) := by
  intro i hi
  rw [show pageOffset.toNat = 0xC0000000 from rfl] at hva
  refine hl.translate hK ?_ (by omega) (by omega)
  rw [toNat_byte hva (by omega) hi, show pageOffset.toNat = 0xC0000000 from rfl]
  omega

theorem loadw (hl : Linear K k) (hK : K + 0x80000 ≤ 0x20000000)
    (hva : va.toNat = pa + pageOffset.toNat)
    (hpa : 4096 ≤ pa) (hpa' : pa + 4 ≤ 0x20000000) : loadw va k = some (k.mem.word pa, k) := by
  rw [Hurlex.loadw, word_eq (hl.bytes hK hva hpa hpa')]
  rfl

theorem storew (hl : Linear K k) (hK : K + 0x80000 ≤ 0x20000000) (hva :
    va.toNat = pa + pageOffset.toNat)
    (hpa : 4096 ≤ pa) (hpa' : pa + 4 ≤ 0x20000000) :
    storew va w k = some ((), { k with mem := k.mem.putWord pa w }) := by
  rw [storew_eq (hl.bytes hK hva hpa hpa'), putWord_eq_update]
  rfl

end Linear

namespace Frames

variable {K : ℕ} {pages stack tabs : List ℕ} {n m f t : ℕ}

section

variable (hf : Frames K pages stack tabs)
include hf

theorem page (h : pages[n]? = some f) :
    4096 ∣ f ∧ K + 0x80000 ≤ f ∧ f ≤ 0x20000000 :=
  hf.frame f (by simp [List.mem_of_getElem? h])

theorem tab (h : tabs[n]? = some t) :
    4096 ∣ t ∧ K + 0x80000 ≤ t ∧ t < 0x20000000 := by
  obtain ⟨hd, hK, _⟩ := hf.frame t (by simp [List.mem_of_getElem? h])
  exact ⟨hd, hK, hf.low t (by simp [List.mem_of_getElem? h])⟩

theorem page_ne_tab (hn : pages[n]? = some f) (hm : tabs[m]? = some t) :
    f + 4096 ≤ t ∨ t + 4096 ≤ f := by
  have hne :=
    (List.nodup_append.mp hf.nodup).2.2 f (by simp [List.mem_of_getElem? hn])
      t (List.mem_of_getElem? hm)
  exact pages_apart (hf.page hn).1 (hf.tab hm).1 hne

theorem page_inj (hn : pages[n]? = some f) (hm : pages[m]? = some f) : n = m := by
  have hnodup := (nodup_append.mp (nodup_append.mp hf.nodup).1).1
  obtain ⟨hlt, rfl⟩ := List.getElem?_eq_some_iff.mp hn
  obtain ⟨hlt', heq⟩ := List.getElem?_eq_some_iff.mp hm
  exact (hnodup.getElem_inj_iff.mp heq).symm

theorem slot_apart {u : ℕ} (hne : n ≠ m) (hn : tabs[n / 1024]? = some t)
    (hm : tabs[m / 1024]? = some u) :
    t + 4 * (n % 1024) + 4 ≤ u + 4 * (m % 1024) ∨ u + 4 * (m % 1024) + 4 ≤ t + 4 * (n % 1024) := by
  by_cases htu : t = u
  · subst htu
    have hnodup := (nodup_append.mp hf.nodup).2.1
    obtain ⟨hlt, heq⟩ := List.getElem?_eq_some_iff.mp hn
    obtain ⟨hlt', heq'⟩ := List.getElem?_eq_some_iff.mp hm
    have := hnodup.getElem_inj_iff.mp (heq.trans heq'.symm)
    omega
  · have := pages_apart (hf.tab hn).1 (hf.tab hm).1 htu
    omega

/-- There are fewer pages than the heap has addresses for, and than the stack has room for. -/
theorem count : pages.length + stack.length + tabs.length < 0x20000 := by
  have hnodup : ((pages ++ stack ++ tabs).map (· / 4096)).Nodup := by
    refine hf.nodup.map_on fun x hx y hy h => ?_
    obtain ⟨⟨a, rfl⟩, _⟩ := hf.frame x hx
    obtain ⟨⟨b, rfl⟩, _⟩ := hf.frame y hy
    omega
  have hsub : ((pages ++ stack ++ tabs).map (· / 4096)).toFinset ⊆ Finset.Ico 128 0x20001 := by
    intro q hq
    obtain ⟨x, hx, rfl⟩ := List.mem_map.mp (List.mem_toFinset.mp hq)
    obtain ⟨_, hlo, hhi⟩ := hf.frame x hx
    rw [Finset.mem_Ico]
    omega
  have hcard := Finset.card_le_card hsub
  rw [List.toFinset_card_of_nodup hnodup, List.length_map, length_append, length_append,
    Nat.card_Ico] at hcard
  omega

end

theorem take (hf : Frames K pages (f :: stack) tabs) : Frames K (pages ++ [f]) stack tabs := by
  have hlist : pages ++ [f] ++ stack = pages ++ f :: stack := by simp
  exact ⟨hlist ▸ hf.nodup, hlist ▸ hf.frame, hlist ▸ hf.low⟩

theorem give (hf : Frames K (pages ++ [f]) stack tabs) : Frames K pages (f :: stack) tabs := by
  have hlist : pages ++ [f] ++ stack = pages ++ f :: stack := by simp
  exact ⟨hlist ▸ hf.nodup, hlist ▸ hf.frame, hlist ▸ hf.low⟩

theorem takeTable (hf : Frames K pages (f :: t :: stack) tabs) :
    Frames K pages (f :: stack) (tabs ++ [t]) := by
  have hperm : (pages ++ f :: stack ++ (tabs ++ [t])).Perm (pages ++ f :: t :: stack ++ tabs) := by
    have hmove : (stack ++ (tabs ++ [t])).Perm (t :: (stack ++ tabs)) := by
      rw [← List.append_assoc]
      exact List.perm_append_singleton t _
    simpa using (hmove.cons f).append_left pages
  refine ⟨hperm.nodup_iff.mpr hf.nodup, fun x hx => hf.frame x (hperm.mem_iff.mp hx), fun x hx =>
    hf.low x ?_⟩
  cases pages with
  | nil =>
    simp only [List.nil_append, List.tail_cons, List.mem_append, mem_cons] at hx ⊢
    tauto
  | cons p ps =>
    simp only [List.cons_append, List.tail_cons, List.mem_append, mem_cons] at hx ⊢
    tauto

end Frames

namespace Paged

variable {K : ℕ} {k : Kernel} {pages tabs : List ℕ} {x y : ℕ}

section

variable (hp : Paged K k pages tabs)
include hp

theorem page_of (hx : heapStart.toNat ≤ x) (hx' : x < k.heapMax.toNat) :
    ∃ n f, pages[n]? = some f ∧ heapStart.toNat + 4096 * n ≤ x ∧
      x < heapStart.toNat + 4096 * (n + 1) ∧ phys pages x = f + x % 4096 := by
  rw [hp.top] at hx'
  have hn : (x - heapStart.toNat) / 4096 < pages.length := by omega
  have hpage := List.getElem?_eq_getElem hn
  exact ⟨_, _, hpage, by omega, by omega, phys_eq hpage (by omega) (by omega)⟩

theorem translate {va : Word} (hva : heapStart.toNat ≤ va.toNat) (hva' : va < k.heapMax) :
    k.translate va = some (phys pages va.toNat) := by
  obtain ⟨n, f, hpage, hlo, hhi, hphys⟩ := hp.page_of hva hva'
  obtain ⟨t, htab, hpte⟩ := hp.tables.pte hpage
  obtain ⟨hft, _, hf⟩ := hp.frames.page hpage
  obtain ⟨htt, _, ht⟩ := hp.frames.tab htab
  rw [show heapStart.toNat = 0xE0000000 from rfl] at hlo hhi
  rw [hphys]
  refine translate_eq ?_ ?_ htt (by omega) hft hf
  · rw [← hp.tables.table htab]
    congr 1
    omega
  · rw [← hpte]
    congr 2
    omega

theorem translate_byte {a : Word} (ha : heapStart.toNat ≤ a.toNat)
    (ha' : a.toNat + 4 ≤ k.heapMax.toNat) :
    ∀ i < 4, k.translate (a + BitVec.ofNat 32 i) = some (phys pages (a.toNat + i)) := by
  intro i hi
  have hnat := toNat_byte rfl (show a.toNat + 4 ≤ 2 ^ 32 by omega) hi
  rw [hp.translate (by omega) (by rw [lt_def]; omega), hnat]

theorem phys_inj (hx : heapStart.toNat ≤ x) (hx' : x < k.heapMax.toNat)
    (hy : heapStart.toNat ≤ y) (hy' : y < k.heapMax.toNat) (h : phys pages x = phys pages y) :
    x = y := by
  obtain ⟨n, f, hf, hnx, hnx', hpx⟩ := hp.page_of hx hx'
  obtain ⟨m, g, hg, hmy, hmy', hpy⟩ := hp.page_of hy hy'
  have hfg : f = g := by
    by_contra hne
    have := pages_apart (hp.frames.page hf).1 (hp.frames.page hg).1 hne
    omega
  subst hfg
  obtain rfl := hp.frames.page_inj hf hg
  omega

theorem of_mem {mem : ByteMem}
    (h : ∀ x, (∀ f ∈ pages, x < f ∨ f + 4096 ≤ x) → mem x = k.mem x) :
    Paged K { k with mem := mem } pages tabs := by
  refine ⟨hp.frames,
    ⟨⟨hp.tables.linear.aligned, hp.tables.linear.pde, ?_⟩, hp.tables.table, hp.tables.noTable, ?_⟩,
    hp.top⟩
  · intro i hi hi'
    rw [← hp.tables.linear.pte i hi hi']
    refine word_congr fun x hx hx' => h x fun f hf => ?_
    have := (hp.frames.frame f (by simp [hf])).2.1
    omega
  · intro n f hf
    obtain ⟨t, ht, hpte⟩ := hp.tables.pte hf
    refine ⟨t, ht, ?_⟩
    rw [← hpte]
    refine word_congr fun x hx hx' => h x fun g hg => ?_
    obtain ⟨m, hm⟩ := List.mem_iff_getElem?.mp hg
    have := hp.frames.page_ne_tab hm ht
    omega

theorem update (hx : heapStart.toNat ≤ x) (hx' : x < k.heapMax.toNat) (b : BitVec 8) :
    Paged K { k with mem := Function.update k.mem (phys pages x) b } pages tabs := by
  obtain ⟨n, f, hf, _, _, hphys⟩ := hp.page_of hx hx'
  refine hp.of_mem fun y hy => update_of_ne ?_ ..
  have := hy f (List.mem_of_getElem? hf)
  omega

end

end Paged

/-- The bytes of the heap, up to `top`, in memory. -/
def Sees (pages : List ℕ) (top : ℕ) (mem m : ByteMem) : Prop :=
  ∀ x, heapStart.toNat ≤ x → x < top → m x = mem (phys pages x)

/-- The heap is mapped up to `heap_max` and looks like the memory `m`. -/
def Mapped (k : Kernel) (m : ByteMem) : Prop :=
  ∃ K pages tabs, Paged K k pages tabs ∧ Sees pages k.heapMax.toNat k.mem m

namespace Tables

variable {K : ℕ} {k k' : Kernel} {pages stack tabs : List ℕ} {n f t p : ℕ} {va w : Word}

theorem slot (ht : Tables K k pages tabs) (hf : Frames K pages stack tabs)
    (hva : va.toNat = heapStart.toNat + 4096 * n) (htab : tabs[n / 1024]? = some t) :
    k.table va = some (BitVec.ofNat 32 t + pageOffset) ∧
      (pteSlot (BitVec.ofNat 32 t + pageOffset) va).toNat = t + 4 * (n % 1024) +
      pageOffset.toNat := by
  obtain ⟨hd, hK, hlt⟩ := hf.tab htab
  rw [show heapStart.toNat = 0xE0000000 from rfl] at hva
  constructor
  · refine table_some ?_ hd (by omega) (by omega)
    rw [← ht.table htab]
    congr 1
    omega
  · have hoff : (BitVec.ofNat 32 t + pageOffset).toNat = t + 0xC0000000 := by
      rw [BitVec.toNat_add, BitVec.toNat_ofNat, show pageOffset.toNat = 0xC0000000 from rfl]
      omega
    have hidx : pteIndex va = n % 1024 := by
      rw [pteIndex_eq]
      omega
    rw [pteSlot, hidx, BitVec.toNat_add, hoff,
      BitVec.toNat_ofNat, show pageOffset.toNat = 0xC0000000 from rfl]
    omega

theorem storew_slot (ht : Tables K k pages tabs) (hf : Frames K pages stack tabs)
    (hva : va.toNat = heapStart.toNat + 4096 * n) (htab : tabs[n / 1024]? = some t) :
    storew (pteSlot (BitVec.ofNat 32 t + pageOffset) va) w k =
      some ((), { k with mem := k.mem.putWord (t + 4 * (n % 1024)) w }) := by
  obtain ⟨⟨c, rfl⟩, hK, hlt⟩ := hf.tab htab
  exact ht.linear.storew (by omega) (ht.slot hf hva htab).2 (by omega) (by omega)

/-- A store to the entry of one page leaves the entries of the other pages. -/
theorem putWord (ht : Tables K k pages tabs) (hf : Frames K pages stack tabs)
    (htab : tabs[n / 1024]? = some t) :
    Linear K { k with mem := k.mem.putWord (t + 4 * (n % 1024)) w } ∧ ∀ {m f}, m ≠ n →
    pages[m]? = some f →
      ∃ u, tabs[m / 1024]? = some u ∧
      (k.mem.putWord (t + 4 * (n % 1024)) w).word (u + 4 * (m % 1024)) = entry f := by
  refine ⟨⟨ht.linear.aligned, ht.linear.pde, fun i hi hi' => ?_⟩, fun {m f} hne hm => ?_⟩
  · rw [← ht.linear.pte i hi hi']
    have := (hf.tab htab).2.1
    exact word_putWord (by omega)
  · obtain ⟨u, hu, hpte⟩ := ht.pte hm
    refine ⟨u, hu, ?_⟩
    rw [← hpte]
    exact word_putWord (hf.slot_apart hne hu htab)

/-- The tables have room for the next page, or the next page is the first of its table. -/
theorem nextTable (ht : Tables K k pages tabs) (h : tabs.length ≤ pages.length / 1024) :
    tabs.length = pages.length / 1024 := by
  cases hlen : pages.length with
  | zero =>
    omega
  | succ n =>
    obtain ⟨t, htab, _⟩ := ht.pte (List.getElem?_eq_getElem (show n < pages.length by omega))
    have := (List.getElem?_eq_some_iff.mp htab).1
    omega

theorem addTable (ht : Tables K k pages tabs) (hf : Frames K pages (p :: t :: stack) tabs)
    (hlen : tabs.length < 128) {zero : ℕ → BitVec 8}
    (hpgd : k'.pgdKern = Function.update k.pgdKern (896 + tabs.length) (entry t))
    (hmem : k'.mem = k.mem.overwrite t 4096 zero) : Tables K k' pages (tabs ++ [t]) := by
  obtain ⟨hd, hK, _⟩ := hf.frame t (by simp)
  refine ⟨⟨ht.linear.aligned, fun j hj => ?_, fun i hi hi' => ?_⟩, fun {i u} hu =>
    ?_, fun i hi hi' => ?_, fun {n f} hn => ?_⟩
  · rw [hpgd, update_of_ne (by omega), ht.linear.pde j hj]
  · rw [hmem, ByteMem.word_overwrite (by omega), ht.linear.pte i hi hi']
  · rw [hpgd]
    by_cases hi : i < tabs.length
    · rw [update_of_ne (by omega)]
      rw [List.getElem?_append_left hi] at hu
      exact ht.table hu
    · rw [List.getElem?_append_right (by omega), List.getElem?_singleton] at hu
      split at hu
      · next h =>
        cases hu
        rw [show i = tabs.length by omega, update_self]
      · cases hu
  · rw [List.length_append, List.length_singleton] at hi
    rw [hpgd, update_of_ne (by omega), ht.noTable i (by omega) hi']
  · obtain ⟨u, hu, hpte⟩ := ht.pte hn
    have hlt := (List.getElem?_eq_some_iff.mp hu).1
    refine ⟨u, by rw [List.getElem?_append_left hlt, hu], ?_⟩
    have hne : t ≠ u := by
      intro h
      exact (List.nodup_append.mp hf.nodup).2.2 t (by simp) u (List.mem_of_getElem? hu) h
    have := pages_apart hd (hf.tab hu).1 hne
    rw [hmem, ByteMem.word_overwrite (by omega), hpte]

end Tables

/-- The bytes of the pages are the same. -/
def KeepsPages (pages : List ℕ) (k k' : Kernel) : Prop :=
  k'.heapFirst = k.heapFirst ∧ ∀ f ∈ pages, ∀ x, f ≤ x → x < f + 4096 → k'.mem x = k.mem x

section Grow

variable {K : ℕ} {k : Kernel} {pages tabs : List ℕ} {p : ℕ} {va : Word}

/-- **The page table for the next page** of the heap, for which `p` has been taken from the
    stack. -/
theorem makeTable_cases (ht : Tables K k pages tabs)
    (hf : Frames K pages (p :: k.pmmStack.map BitVec.toNat) tabs)
    (hva : va.toNat = heapStart.toNat + 4096 * pages.length) :
    (makeTable va k = none ∧ k.pmmStack = []) ∨
    ∃ t tabs' k', makeTable va k = some (BitVec.ofNat 32 t + pageOffset, k') ∧
      tabs'[pages.length / 1024]? = some t ∧ Tables K k' pages tabs' ∧
      Frames K pages (p :: k'.pmmStack.map BitVec.toNat) tabs' ∧ k'.heapMax = k.heapMax ∧
      KeepsPages pages k k' ∧ k.pmmStack.length ≤ k'.pmmStack.length + 1 := by
  rw [show heapStart.toNat = 0xE0000000 from rfl] at hva
  rw [makeTable, bind_of_eq get_apply]
  by_cases hroom : pages.length / 1024 < tabs.length
  · have htab := List.getElem?_eq_getElem hroom
    refine .inr ⟨_, tabs, k, ?_, htab, ht, hf, rfl, ⟨rfl, fun _ _ _ _ _ => rfl⟩, by omega⟩
    rw [(ht.slot hf hva htab).1]
    rfl
  · have hlen := ht.nextTable (by omega)
    have hnone : k.table va = none := by
      refine table_none ?_
      rw [show va.toNat / 2 ^ 22 = 896 + tabs.length by omega]
      exact ht.noTable _ le_rfl (by omega)
    rw [hnone]
    dsimp only
    cases hstack : k.pmmStack with
    | nil =>
      refine .inl ⟨?_, rfl⟩
      rw [bind_apply, pmmAllocPage, hstack]
      rfl
    | cons t rest =>
      rw [hstack, map_cons] at hf
      obtain ⟨hd, hK, ht512⟩ := hf.frame t.toNat (by simp)
      have hlow := hf.takeTable.low t.toNat (by simp)
      have hidx : pgdIndex va = 896 + tabs.length := by
        rw [pgdIndex_eq]
        omega
      have hentry : t ||| pagePresent ||| pageWrite = entry t.toNat := by
        rw [BitVec.or_assoc, or_flags hd ht512]
      have htnat : BitVec.ofNat 32 t.toNat = t := by simp
      let k' : Kernel := { k with
        pmmStack := rest
        pgdKern := Function.update k.pgdKern (896 + tabs.length) (entry t.toNat)
        mem := k.mem.overwrite t.toNat 4096 fun _ => 0#8 }
      have hlinear : Linear K { k with
          pmmStack := rest
          pgdKern := Function.update k.pgdKern (896 + tabs.length) (entry t.toNat) } :=
        ⟨ht.linear.aligned, fun j hj => (update_of_ne (by omega) ..).trans (ht.linear.pde j hj),
          ht.linear.pte⟩
      have hrun : pmmAllocPage k = some (t, { k with pmmStack := rest }) := by
        rw [pmmAllocPage, hstack]
      refine .inr ⟨t.toNat, tabs ++ [t.toNat], k', ?_, ?_, ht.addTable hf (by omega) rfl rfl,
        hf.takeTable, rfl, ⟨rfl, fun f hfp x hx hx' => ?_⟩, ?_⟩
      · rw [bind_of_eq hrun, bind_of_eq rfl, hidx, hentry, htnat]
        have hoff : (t + pageOffset).toNat = t.toNat + pageOffset.toNat :=
          toNat_add (by rw [show pageOffset.toNat = 0xC0000000 from rfl]; omega)
        have htrans := hlinear.translate (by omega) hoff (by omega) hlow
        rw [bind_apply, bzeroPage, htrans]
        rfl
      · rw [List.getElem?_append_right (by omega), hlen, Nat.sub_self]
        rfl
      · have hne : f ≠ t.toNat := by
          intro h
          have hnodup := (nodup_append.mp (nodup_append.mp hf.nodup).1).2.2
          exact hnodup f hfp t.toNat (by simp) h
        have hapart := pages_apart (hf.frame f (by simp [hfp])).1 hd hne
        show (k.mem.overwrite t.toNat 4096 fun _ => 0#8) x = k.mem x
        exact overwrite_out (by omega)
      · simp [k']

/-- **One page more.** -/
theorem Paged.growPage (hp : Paged K k pages tabs) :
    (growPage k = none ∧ k.pmmStack.length < 2) ∨
    ∃ f tabs' k', growPage k = some ((), k') ∧
    Paged K k' (pages ++ [f]) tabs' ∧ KeepsPages pages k k' ∧
      k.pmmStack.length ≤ k'.pmmStack.length + 2 := by
  rw [Hurlex.growPage]
  cases hstack : k.pmmStack with
  | nil =>
    refine .inl ⟨?_, by simp⟩
    rw [bind_apply, pmmAllocPage, hstack]
    rfl
  | cons p rest =>
    have hrun : pmmAllocPage k = some (p, { k with pmmStack := rest }) := by
      rw [pmmAllocPage, hstack]
    have hf := hp.frames
    rw [hstack, map_cons] at hf
    have ht : Tables K { k with pmmStack := rest } pages tabs :=
      ⟨⟨hp.tables.linear.aligned, hp.tables.linear.pde, hp.tables.linear.pte⟩,
        hp.tables.table, hp.tables.noTable, hp.tables.pte⟩
    rw [bind_of_eq hrun, bind_of_eq get_apply]
    obtain ⟨hnone, hempty⟩ | ⟨t, tabs', k1, hmake, htab, ht1, hf1, hmax, hkeeps,
      hlen⟩ := makeTable_cases ht hf hp.top
    · refine .inl ⟨?_, ?_⟩
      · rw [bind_apply, map, bind_apply, hnone]
        rfl
      · obtain rfl : rest = [] := hempty
        simp
    · obtain ⟨hd, _, hp512⟩ := hf.frame p.toNat (by simp)
      have hpage : p &&& pageMask ||| (pagePresent ||| pageWrite) = entry p.toNat := by
        have hmask : p &&& pageMask = p := by
          apply eq_of_toNat_eq
          rw [toNat_pageMask]
          omega
        rw [hmask, or_flags hd hp512]
      have hmap : map k.heapMax p (pagePresent ||| pageWrite) { k with pmmStack := rest } =
          some ((),
            { k1 with mem := k1.mem.putWord (t + 4 * (pages.length % 1024)) (entry p.toNat) }) := by
        rw [map, bind_of_eq hmake, hpage]
        exact ht1.storew_slot hf1 hp.top htab
      obtain ⟨hlinear, hpte⟩ := ht1.putWord (w := entry p.toNat) hf1 htab
      replace hmax : k1.heapMax = k.heapMax := hmax
      have hcount := hf.count
      rw [List.length_cons] at hcount
      have htop := hp.top
      rw [show heapStart.toNat = 0xE0000000 from rfl] at htop
      refine .inr ⟨p.toNat, tabs', { k1 with
        mem := k1.mem.putWord (t + 4 * (pages.length % 1024)) (entry p.toNat)
        heapMax := k1.heapMax + pageSize },
        ?_, ⟨hf1.take, ⟨⟨hlinear.aligned, hlinear.pde, hlinear.pte⟩, ht1.table, ht1.noTable, ?_⟩,
          ?_⟩, ⟨hkeeps.1, fun f hfp x hx hx' => ?_⟩, ?_⟩
      · rw [bind_of_eq hmap]
        rfl
      · intro n f hn
        by_cases hnew : n < pages.length
        · rw [List.getElem?_append_left hnew] at hn
          exact hpte (by omega) hn
        · obtain rfl : n = pages.length := by
            have := (List.getElem?_eq_some_iff.mp hn).1
            rw [length_append, length_singleton] at this
            omega
          rw [List.getElem?_concat_length, Option.some.injEq] at hn
          exact ⟨t, htab, by rw [← hn]; exact word_putWord_self⟩
      · rw [length_append, length_singleton, hmax, show heapStart.toNat = 0xE0000000 from rfl]
        rw [toNat_add (by rw [show pageSize.toNat = 4096 from rfl]; omega), show pageSize.toNat =
          4096 from rfl]
        omega
      · obtain ⟨n, hn⟩ := List.mem_iff_getElem?.mp hfp
        have := hf1.page_ne_tab hn htab
        rw [← hkeeps.2 f hfp x hx hx']
        exact overwrite_out (by omega)
      · exact Nat.succ_le_succ hlen

/-- **One page less.** -/
theorem Paged.shrinkPage {f : ℕ} (hp : Paged K k (pages ++ [f]) tabs) :
    ∃ k', shrinkPage k = some ((), k') ∧ Paged K k' pages tabs ∧ KeepsPages pages k k' := by
  have hf := hp.frames
  have hlast : (pages ++ [f])[pages.length]? = some f := List.getElem?_concat_length
  obtain ⟨t, htab, hpte⟩ := hp.tables.pte hlast
  obtain ⟨hd, hK, hf512⟩ := hf.page hlast
  obtain ⟨⟨c, hc⟩, htK, ht512⟩ := hf.tab htab
  have htop := hp.top
  rw [length_append, length_singleton, show heapStart.toNat = 0xE0000000 from rfl] at htop
  -- the state with the new `heap_max`
  let k1 : Kernel := { k with heapMax := k.heapMax - pageSize }
  have htop1 : k1.heapMax.toNat = heapStart.toNat + 4096 * pages.length := by
    rw [BitVec.toNat_sub_of_le (by rw [BitVec.le_def, show pageSize.toNat = 4096 from rfl]; omega),
      show pageSize.toNat = 4096 from rfl, show heapStart.toNat = 0xE0000000 from rfl]
    omega
  have ht1 : Tables K k1 (pages ++ [f]) tabs :=
    ⟨⟨hp.tables.linear.aligned, hp.tables.linear.pde, hp.tables.linear.pte⟩, hp.tables.table,
      hp.tables.noTable, hp.tables.pte⟩
  obtain ⟨htable, hslot⟩ := ht1.slot hf htop1 htab
  have hget : getMapping k1.heapMax k1 = some (some (BitVec.ofNat 32 f), k1) := by
    have hload := ht1.linear.loadw (by omega) hslot (by omega) (by omega)
    have hpage : entry f &&& pageMask = BitVec.ofNat 32 f := by
      apply eq_of_toNat_eq
      rw [entry_page hd hf512, toNat_ofNat, Nat.mod_eq_of_lt (by omega)]
    rw [getMapping, bind_of_eq get_apply, htable]
    dsimp only
    rw [bind_of_eq hload, show k1.mem = k.mem from rfl, hpte, if_pos (entry_ne_zero hf512), hpage]
    rfl
  have hunmap : unmap k1.heapMax k1 =
      some ((), { k1 with mem := k.mem.putWord (t + 4 * (pages.length % 1024)) 0#32 }) := by
    rw [unmap, bind_of_eq get_apply, htable]
    exact ht1.storew_slot hf htop1 htab
  have hroom : k.pmmStack.length ≠ pageMaxSize := by
    have := hf.count
    rw [List.length_map] at this
    rw [pageMaxSize]
    omega
  obtain ⟨hlinear, hothers⟩ := ht1.putWord (w := 0#32) hf htab
  refine ⟨{ k with
    pmmStack := BitVec.ofNat 32 f :: k.pmmStack
    mem := k.mem.putWord (t + 4 * (pages.length % 1024)) 0#32
    heapMax := k.heapMax - pageSize }, ?_,
    ⟨?_, ⟨⟨hlinear.aligned, hlinear.pde, hlinear.pte⟩, ht1.table, ht1.noTable, ?_⟩, htop1⟩,
    rfl, fun g hg x hx hx' => ?_⟩
  · have hmax : (modify fun k : Kernel => { k with heapMax := k.heapMax - pageSize } : KernM PUnit)
      k = some ((), k1) := rfl
    rw [Hurlex.shrinkPage, bind_of_eq hmax, bind_of_eq get_apply, bind_of_eq hget]
    dsimp only
    rw [bind_of_eq get_apply, bind_of_eq hunmap, pmmFreePage, bind_of_eq get_apply,
      bind_of_eq (Proc.require_pos hroom)]
    rfl
  · have hnat : (BitVec.ofNat 32 f).toNat = f := by
      rw [toNat_ofNat, Nat.mod_eq_of_lt (by omega)]
    rw [map_cons, hnat]
    exact hf.give
  · intro n g hn
    have hlt := (List.getElem?_eq_some_iff.mp hn).1
    exact hothers (by omega) (by rw [List.getElem?_append_left hlt, hn])
  · obtain ⟨n, hn⟩ := List.mem_iff_getElem?.mp hg
    have hn' : (pages ++ [f])[n]? = some g := by
      rw [List.getElem?_append_left (List.getElem?_eq_some_iff.mp hn).1, hn]
    have := hf.page_ne_tab hn' htab
    exact overwrite_out (by omega)

end Grow

section Sees

variable {K : ℕ} {k : Kernel} {pages tabs : List ℕ} {m : ByteMem} {x : ℕ}

/-- A store to one byte of the heap, in physical memory and as it is seen. -/
theorem Sees.update (hp : Paged K k pages tabs) {mem : ByteMem}
    (hs : Sees pages k.heapMax.toNat mem m)
    (hx : heapStart.toNat ≤ x) (hx' : x < k.heapMax.toNat) (b : BitVec 8) :
    Sees pages k.heapMax.toNat (Function.update mem (phys pages x) b) (Function.update m x b) := by
  intro y hy hy'
  by_cases hyx : y = x
  · rw [hyx, update_self, update_self]
  · rw [update_of_ne hyx, update_of_ne, hs y hy hy']
    exact fun h => hyx (hp.phys_inj hy hy' hx hx' h)

theorem Sees.of_keeps {k' : Kernel} (hp : Paged K k pages tabs)
    (hs : Sees pages k.heapMax.toNat k.mem m)
    (hkeeps : KeepsPages pages k k') {more : List ℕ} (hx : heapStart.toNat ≤ x)
    (hx' : x < k.heapMax.toNat) : k'.mem (phys (pages ++ more) x) = m x := by
  obtain ⟨n, f, hf, hlo, hhi, hphys⟩ := hp.page_of hx hx'
  have hf' : (pages ++ more)[n]? = some f := by
    rw [List.getElem?_append_left (List.getElem?_eq_some_iff.mp hf).1, hf]
  rw [phys_eq hf' hlo hhi, hs x hx hx', hphys]
  exact hkeeps.2 f (List.mem_of_getElem? hf) _ (by omega) (by omega)

end Sees

namespace Mapped

variable {k : Kernel} {m : ByteMem} {a w : Word}

section

variable (h : Mapped k m)
include h

theorem bounds : heapStart.toNat ≤ k.heapMax.toNat ∧ 4096 ∣ k.heapMax.toNat ∧
    k.heapMax.toNat + 4096 ≤ 2 ^ 32 := by
  obtain ⟨K, pages, tabs, hp, _⟩ := h
  have htop := hp.top
  rw [show heapStart.toNat = 0xE0000000 from rfl] at htop ⊢
  exact ⟨by omega, by omega, by omega⟩

theorem setFirst (f : Word) : Mapped { k with heapFirst := f } m := by
  obtain ⟨K, pages, tabs, hp, hs⟩ := h
  have hl := hp.tables.linear
  exact ⟨K, pages, tabs,
    ⟨hp.frames, ⟨⟨hl.aligned, hl.pde, hl.pte⟩, hp.tables.table, hp.tables.noTable, hp.tables.pte⟩,
    hp.top⟩, hs⟩

theorem translate (ha : heapStart.toNat ≤ a.toNat) (ha' : a.toNat < k.heapMax.toNat) :
    (k.translate a).isSome := by
  obtain ⟨K, pages, tabs, hp, _⟩ := h
  rw [hp.translate ha ha']
  rfl

theorem word (ha : heapStart.toNat ≤ a.toNat) (ha' : a.toNat + 4 ≤ k.heapMax.toNat) :
    k.word a = some (m.word a.toNat) := by
  obtain ⟨K, pages, tabs, hp, hs⟩ := h
  rw [word_eq (hp.translate_byte ha ha'), ByteMem.word, hs _ (by omega) (by omega),
    hs _ (by omega) (by omega), hs _ (by omega) (by omega), hs _ ha (by omega)]
  rfl

theorem loadw (ha : heapStart.toNat ≤ a.toNat) (ha' : a.toNat + 4 ≤ k.heapMax.toNat) :
    loadw a k = some (m.word a.toNat, k) := by
  rw [Hurlex.loadw, h.word ha ha']
  rfl

theorem storew (ha : heapStart.toNat ≤ a.toNat) (ha' : a.toNat + 4 ≤ k.heapMax.toNat) :
    ∃ mem, storew a w k = some ((), { k with mem := mem }) ∧
      Mapped { k with mem := mem } (m.putWord a.toNat w) := by
  obtain ⟨K, pages, tabs, hp, hs⟩ := h
  refine ⟨_, storew_eq (hp.translate_byte ha ha'), K, pages, tabs, ?_, ?_⟩
  · have h0 := hp.update ha (show a.toNat + 0 < k.heapMax.toNat by omega) (w.extractLsb' 0 8)
    have h1 := h0.update (show heapStart.toNat ≤ a.toNat + 1 by omega)
      (show _ < k.heapMax.toNat by omega) (w.extractLsb' 8 8)
    have h2 := h1.update (show heapStart.toNat ≤ a.toNat + 2 by omega)
      (show _ < k.heapMax.toNat by omega) (w.extractLsb' 16 8)
    exact h2.update (show heapStart.toNat ≤ a.toNat + 3 by omega)
      (show _ < k.heapMax.toNat by omega) (w.extractLsb' 24 8)
  · rw [putWord_eq_update]
    have h0 := hs.update hp ha (show a.toNat + 0 < k.heapMax.toNat by omega) (w.extractLsb' 0 8)
    have h1 := h0.update hp (show heapStart.toNat ≤ a.toNat + 1 by omega) (by omega)
      (w.extractLsb' 8 8)
    have h2 := h1.update hp (show heapStart.toNat ≤ a.toNat + 2 by omega) (by omega)
      (w.extractLsb' 16 8)
    exact h2.update hp (show heapStart.toNat ≤ a.toNat + 3 by omega) (by omega) (w.extractLsb' 24 8)

theorem storeb (ha : heapStart.toNat ≤ a.toNat) (ha' : a.toNat < k.heapMax.toNat) (b : BitVec 8) :
    ∃ mem, storeb a b k = some ((), { k with mem := mem }) ∧
      Mapped { k with mem := mem } (Function.update m a.toNat b) := by
  obtain ⟨K, pages, tabs, hp, hs⟩ := h
  refine ⟨_, ?_, K, pages, tabs, hp.update ha ha' b, hs.update hp ha ha' b⟩
  rw [Hurlex.storeb, hp.translate ha ha']
  rfl

/-- **One page more.** -/
theorem growPage :
    (growPage k = none ∧ k.pmmStack.length < 2) ∨
    ∃ k' m', growPage k = some ((), k') ∧ Mapped k' m' ∧ k'.heapMax.toNat = k.heapMax.toNat + 4096 ∧
      k'.heapFirst = k.heapFirst ∧ (∀ x, x < k.heapMax.toNat → m' x = m x) ∧
      k.pmmStack.length ≤ k'.pmmStack.length + 2 := by
  obtain ⟨K, pages, tabs, hp, hs⟩ := h
  refine hp.growPage.imp_right ?_
  rintro ⟨f, tabs', k', hrun, hp', hkeeps, hlen⟩
  have htop := hp.top
  have htop' := hp'.top
  rw [length_append, length_singleton] at htop'
  have hgrow : k'.heapMax.toNat = k.heapMax.toNat + 4096 := by
    rw [htop, htop', Nat.mul_add, Nat.add_assoc]
  let m' : ByteMem := fun x => if x < k.heapMax.toNat then m x else k'.mem (phys (pages ++ [f]) x)
  refine ⟨k', m', hrun, ⟨K, _, tabs', hp', fun x hx hx' => ?_⟩, hgrow,
    hkeeps.1, fun x hx => if_pos hx, hlen⟩
  by_cases hold : x < k.heapMax.toNat
  · rw [show m' x = m x from if_pos hold]
    exact (hs.of_keeps hp hkeeps hx hold).symm
  · exact if_neg hold

/-- **One page less.** -/
theorem shrinkPage (hne : heapStart.toNat < k.heapMax.toNat) :
    ∃ k', shrinkPage k = some ((), k') ∧ Mapped k' m ∧ k'.heapMax.toNat + 4096 = k.heapMax.toNat ∧
      k'.heapFirst = k.heapFirst := by
  obtain ⟨K, pages, tabs, hp, hs⟩ := h
  have htop := hp.top
  rcases List.eq_nil_or_concat' pages with rfl | ⟨ps, f, rfl⟩
  · rw [List.length_nil] at htop
    omega
  obtain ⟨k', hrun, hp', hkeeps⟩ := hp.shrinkPage
  have htop' := hp'.top
  rw [List.length_append, List.length_singleton] at htop
  have hshrink : k'.heapMax.toNat + 4096 = k.heapMax.toNat := by
    rw [htop, htop', Nat.mul_add, Nat.add_assoc]
  refine ⟨k', hrun, ⟨K, ps, tabs, hp', fun x hx hx' => ?_⟩, hshrink, hkeeps.1⟩
  obtain ⟨n, g, hn, hlo, hhi, hphys⟩ := hp'.page_of hx hx'
  have hn' : (ps ++ [f])[n]? = some g := by
    rw [List.getElem?_append_left (List.getElem?_eq_some_iff.mp hn).1, hn]
  rw [hs x hx (by omega), phys_eq hn' hlo hhi, hphys]
  exact (hkeeps.2 g (List.mem_of_getElem? hn) _ (by omega) (by omega)).symm

end

end Mapped

end LinuxStudy.Hurlex
