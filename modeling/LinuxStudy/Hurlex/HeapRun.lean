import LinuxStudy.Hurlex.Chunks
import LinuxStudy.Hurlex.PageStack

/-!
# Runs of the hurlex heap

The kernel after boot,
  and any sequence of `kmalloc`, of `kfree` of live blocks and of stores to live
blocks. As long as no call of `kmalloc` splits a chunk,
  the chunks fill the heap from `HEAP_START` on,
are linked in both directions and hold the live blocks apart, in mapped pages.

`split_chunk` does not change `prev` of the chunk after the new one. When that chunk is freed, it is
joined with, or cut off behind, the wrong chunk.
-/

namespace LinuxStudy.Hurlex

open BlockList
open Proc (bind_eq_some bind_of_eq get_apply modify_eq_some when_neg)
open ByteMem
open List (pairwise_map nil_append append_nil mem_map mem_cons)

/-! ### Boot -/

/-- What `kern_entry` and `kern_init` do before the heap is used, for a kernel of `size` bytes with
    `pte_kern` at the physical address `pteKern`. -/
def kernInit (size : Word) (entries : List MmapEntry) (pteKern : ℕ) : KernM Unit := do
  initPmm size entries
  initVmm pteKern
  initHeap

/-- The kernel lies in whole pages from 1 MB on, within the linear map, and `pte_kern` in it; the
    memory map has this memory once. -/
structure Loaded (size : Word) (entries : List MmapEntry) (pteKern : ℕ) : Prop where
  pages : 4096 ∣ size.toNat
  linear : 0x100000 + size.toNat ≤ 0x20000000
  aligned : 4096 ∣ pteKern
  image : pteKern + 0x80000 ≤ 0x100000 + size.toNat
  once : entries.Pairwise fun e e' => ¬ (e.Usable ∧ e'.Usable)

def Booted (k : Kernel) : Prop :=
  ∃ size entries pteKern mem, Loaded size entries pteKern ∧
    kernInit size entries pteKern (reset mem) = some ((), k)

section Boot

variable {k k' : Kernel} {K : ℕ} {size : Word} {entries : List MmapEntry} {mem : ByteMem}

theorem initPmm_frames (hload : Loaded size entries K)
    (hrun : initPmm size entries k = some ((), k'))
    (hstack : k.pmmStack = []) :
    Frames K [] (k'.pmmStack.map BitVec.toNat) [] ∧ k' = { k with pmmStack := k'.pmmStack } := by
  have hlin := hload.linear
  have himage := hload.image
  have hpages := hload.pages
  obtain ⟨ps, hps, hdesc, hmem⟩ := initPmm_pages size hload.once (by omega) hstack
  cases hrun.symm.trans hps
  have hle : ∀ a ∈ ps, a.toNat ≤ 0x20000000 := fun a ha => by
    obtain ⟨_, -, -, -, -, hle⟩ := (hmem a).mp ha
    exact hle
  have hdesc' : (ps.map BitVec.toNat).Pairwise (· > ·) := pairwise_map.mpr hdesc
  refine ⟨⟨?_, fun f hf => ?_, ?_⟩, rfl⟩
  · rw [nil_append, append_nil]
    exact hdesc'.imp ne_of_gt
  · rw [nil_append, append_nil] at hf
    obtain ⟨a, ha, rfl⟩ := mem_map.mp hf
    obtain ⟨_, -, -, ⟨i, hi⟩, -⟩ := (hmem a).mp ha
    exact ⟨by omega, by omega, hle a ha⟩
  · -- all but the first are below it
    rw [nil_append, append_nil]
    cases ps with
    | nil => nofun
    | cons a ps =>
      intro f hf
      exact (List.rel_of_pairwise_cons hdesc' hf).trans_le (hle a (by simp))

theorem initVmm_linear (hload : Loaded size entries K) (hrun : initVmm K k = some ((), k')) :
    Linear K k' := by
  cases hrun
  have hlin := hload.linear
  have himage := hload.image
  refine ⟨hload.aligned, fun j hj => ?_, fun i hi hi' => ?_⟩
  · have hnat : (BitVec.ofNat 32 (K + 4096 * j)).toNat = K + 4096 * j := by
      rw [BitVec.toNat_ofNat, Nat.mod_eq_of_lt (by omega)]
    have hflags := or_flags (p := BitVec.ofNat 32 (K + 4096 * j))
      (by rw [hnat]; exact Nat.dvd_add hload.aligned (Nat.dvd_mul_right ..)) (by omega)
    rw [hnat] at hflags
    show (if 768 ≤ 768 + j ∧ 768 + j < 896 then
      BitVec.ofNat 32 (K + 4096 * (768 + j - 768)) ||| pagePresent ||| pageWrite else _) = _
    rw [if_pos (by omega), Nat.add_sub_cancel_left, BitVec.or_assoc, hflags]
  · have hnat : (BitVec.ofNat 32 i <<< 12).toNat = 4096 * i := by
      rw [BitVec.toNat_shiftLeft, BitVec.toNat_ofNat, Nat.shiftLeft_eq]
      omega
    have hflags :=
      or_flags (p := BitVec.ofNat 32 i <<< 12) (by rw [hnat]; exact Nat.dvd_mul_right ..) (by omega)
    rw [hnat] at hflags
    refine Eq.trans (word_congr fun x hx hx' => ?_)
      (word_putWord_self (m := k.mem) (w := entry (4096 * i)))
    rw [ByteMem.putWord, overwrite_in hx hx', ← hflags, ← BitVec.or_assoc]
    refine (overwrite_in (by omega) (by omega)).trans ?_
    rw [show (x - K) / 4 = i by omega, Nat.mul_comm i 4, Nat.add_comm (4 * i) K]

/-- **After boot the heap is empty.** -/
theorem Booted.heap (h : Booted k) : Heap k [] := by
  obtain ⟨size, entries, K, mem, hload, hrun⟩ := h
  obtain ⟨_, k1, hpmm, hrun⟩ := bind_eq_some.mp hrun
  obtain ⟨_, k2, hvmm, hrun⟩ := bind_eq_some.mp hrun
  obtain ⟨hframes, hsame⟩ := initPmm_frames hload hpmm rfl
  have hlin := initVmm_linear hload hvmm
  cases hvmm
  cases hrun
  have htop : k1.heapMax = heapStart := congrArg Kernel.heapMax hsame
  refine ⟨⟨mem, ⟨K, [], [], ⟨hframes, ⟨⟨hlin.aligned, hlin.pde, hlin.pte⟩, ?_, ?_, ?_⟩, ?_⟩, ?_⟩,
    ?_, .nil⟩, trivial, trivial, ?_, rfl⟩
  · intro i t ht
    cases ht
  · intro i _ hi
    show (if 768 ≤ 896 + i ∧ 896 + i < 896 then _ else k1.pgdKern (896 + i)) = _
    rw [if_neg (by omega), congrArg Kernel.pgdKern hsame]
    rfl
  · intro n f hf
    cases hf
  · rw [htop]
    rfl
  · intro x hx hx'
    exact absurd hx' (by show ¬ x < k1.heapMax.toNat; rw [htop]; omega)
  · intro c hc
    cases hc
  · rw [htop]
    exact le_rfl

end Boot

/-! ### Calls -/

/-- The kernel and its live blocks: pointer and size. -/
structure System where
  kernel : Kernel
  live : List (Word × Word)

inductive Op
  | kmalloc (size : Word)
  | kfree (p : Word)
  /-- The owner of a live block stores a byte to it. -/
  | store (a : Word) (b : BitVec 8)

/-- `a` is the address of a byte of the block. -/
def InBlock (a : Word) (b : Word × Word) : Prop := b.1.toNat ≤ a.toNat ∧
    a.toNat < b.1.toNat + b.2.toNat

instance (a : Word) (b : Word × Word) : Decidable (InBlock a b) :=
    inferInstanceAs (Decidable (_ ∧ _))

/-- A call. `kfree` is only given live blocks, and stores stay in live blocks. -/
def step (op : Op) (s : System) : Option System :=
  match op with
  | .kmalloc size => (kmalloc size s.kernel).map fun r => ⟨r.2, (r.1, size) :: s.live⟩
  | .kfree p => if p ∈ s.live.map Prod.fst then
      (kfree p s.kernel).map fun r => ⟨r.2, s.live.filter fun b => b.1 ≠ p⟩ else none
  | .store a b => if ∃ l ∈ s.live, InBlock a l then
      (storeb a b s.kernel).map fun r => ⟨r.2, s.live⟩ else none

/-- The header at an address. -/
def Kernel.chunkAt (k : Kernel) (a : Word) : Option Chunk := do
  let p ← k.word a
  let n ← k.word (a + 4#32)
  let w ← k.word (a + 8#32)
  some ⟨a, p, n, decide (w &&& 1#32 ≠ 0#32), w >>> 1⟩

/-- The chunks from `a` on, along `next`. -/
def Kernel.Chunks (k : Kernel) : Word → List Chunk → Prop
  | a, [] => a = 0#32
  | a, c :: cs => a ≠ 0#32 ∧ k.chunkAt a = some c ∧ k.Chunks c.next cs

/-- The blocks have no byte in common, and a header fits between them. -/
def BlocksApart (b b' : Word × Word) : Prop :=
  b.1.toNat + b.2.toNat + 12 ≤ b'.1.toNat ∨ b'.1.toNat + b'.2.toNat + 12 ≤ b.1.toNat

/-- **The invariant of the heap.** The chunks reachable from `heap_first` fill the addresses from
    `HEAP_START` on, `next` and `prev` are inverse along the list, every live block is an allocated
    chunk, live blocks do not overlap, and every byte of a live block is below `heap_max` and
    mapped. -/
def WellFormed (s : System) : Prop :=
  ∃ cs, s.kernel.Chunks s.kernel.heapFirst cs ∧
    Tiles Chunk.start Chunk.size 12 heapStart.toNat cs ∧
    Linked Chunk.addr Chunk.prev Chunk.next 0#32 cs 0#32 ∧
    (∀ b ∈ s.live, ∃ c ∈ cs, c.allocated = true ∧ b.1 = c.addr + headerSize ∧
    b.2.toNat + 12 ≤ c.size) ∧ s.live.Pairwise BlocksApart ∧
    ∀ b ∈ s.live, b.1.toNat + b.2.toNat ≤ s.kernel.heapMax.toNat ∧
      ∀ i < b.2.toNat, (s.kernel.translate (b.1 + BitVec.ofNat 32 i)).isSome

/-- Where a call of `kmalloc` puts its block: in a free chunk, with so many bytes left over, or in a
    new chunk. -/
inductive Place
  | reuse (left : Word)
  | extend (start : Word)

def place (size : Word) : KernM Place := do
  let (cur, before) ← findChunk (size + headerSize) (2 ^ 32) (← get).heapFirst 0#32
  if cur ≠ 0#32 then
    pure (.reuse ((← length cur) - (size + headerSize)))
  else
    pure (.extend (← newStart before))

/-- `kmalloc` does not split a chunk, and the addresses and sizes it computes are below 2^32. -/
def careful (s : System) : Op → Bool
  | .kmalloc size => size.toNat + 12 < 2 ^ 32 && match (place size s.kernel).map Prod.fst with
    | some (.reuse left) => left ≤ headerSize
    | some (.extend start) => start.toNat + size.toNat + 12 < 2 ^ 32
    | none => false
  | _ => true

/-- There are two free pages for every page a new chunk needs, one for a page table. -/
def hasPages (s : System) (size : Word) : Bool :=
  match (place size s.kernel).map Prod.fst with
  | some (.extend start) =>
    start.toNat + size.toNat + 12 ≤ s.kernel.heapMax.toNat + 4096 * (s.kernel.pmmStack.length / 2)
  | _ => true

section Invariant

variable {k k' : Kernel} {cs cs' pre post : List Chunk} {c : Chunk} {size a : Word}
  {live : List (Word × Word)}
  {s t : System}

theorem HeapMem.chunkAt (h : HeapMem k cs) (hc : c ∈ cs) : k.chunkAt c.addr = some c := by
  have hword : ∀ (a w : Word), loadw a k = some (w, k) → k.word a = some w := by
    intro a w hload
    obtain ⟨w', hw, heq⟩ := Option.map_eq_some_iff.mp hload
    rw [hw, (Prod.mk.inj heq).1]
  obtain ⟨w, hload, hbit, hlen⟩ := h.flags hc
  rw [Kernel.chunkAt, hword _ _ (h.prev hc), hword _ _ (h.next hc), hword _ _ hload]
  refine congrArg some (Chunk.ext rfl rfl rfl ?_ hlen)
  rw [hbit, Chunk.bit]
  cases c.allocated <;> rfl

theorem Heap.chunks (h : Heap k (pre ++ post)) : k.Chunks (headOr Chunk.addr 0#32 post) post := by
  induction post generalizing pre with
  | nil => rfl
  | cons c post ih =>
    have hc : c ∈ pre ++ c :: post := by simp
    have hrest : Heap k ((pre ++ [c]) ++ post) := by simpa using h
    exact ⟨h.addr_ne_zero hc, h.mem.chunkAt hc, h.next_eq ▸ ih hrest⟩

theorem mem_used {u : Word × Word} : u ∈ used cs ↔ ∃ c ∈ cs, c.allocated = true ∧
    u = (c.addr, c.length) := by
  simp only [used, mem_map, List.mem_filter, and_assoc, eq_comm]

theorem Heap.used_nodup (h : Heap k cs) : ((used cs).map Prod.fst).Nodup := by
  rw [used, List.map_map, List.Nodup, pairwise_map]
  refine (h.tiles.pairwise.sublist List.filter_sublist).imp_of_mem fun {c d} hc _ hle heq => ?_
  have hleast := (h.tiles.bounds (List.mem_of_mem_filter hc)).2.2
  have hsame : c.start = d.start := congrArg BitVec.toNat heq
  omega

/-- The live blocks are allocated chunks. -/
def Live (live : List (Word × Word)) (cs : List Chunk) : Prop :=
  (live.map Prod.fst).Nodup ∧ ∀ b ∈ live, ∃ u ∈ used cs, b.1 = u.1 + headerSize ∧
    b.2.toNat + 12 ≤ u.2.toNat

def Inv (s : System) : Prop := ∃ cs, Heap s.kernel cs ∧ Live s.live cs

theorem Live.add (a len : Word) (hlive : Live live cs) (hk : Heap k' cs')
    (hused : (used cs').Perm ((a, len) :: used cs))
    (hsize : size.toNat + 12 ≤ len.toNat) : Live ((a + headerSize, size) :: live) cs' := by
  obtain ⟨hnodup, hblocks⟩ := hlive
  refine ⟨List.nodup_cons.mpr ⟨fun hmem => ?_, hnodup⟩, fun b hb => ?_⟩
  · obtain ⟨b, hb, heq⟩ := mem_map.mp hmem
    obtain ⟨u, hu, hptr, _⟩ := hblocks b hb
    have hau : a = u.1 := (BitVec.add_left_inj headerSize).mp (heq.symm.trans hptr)
    have hcs' := (hused.map Prod.fst).nodup_iff.mp hk.used_nodup
    exact (List.nodup_cons.mp hcs').1 (mem_map.mpr ⟨u, hu, hau.symm⟩)
  · rcases mem_cons.mp hb with rfl | hb
    · exact ⟨(a, len), hused.mem_iff.mpr (by simp), rfl, hsize⟩
    · obtain ⟨u, hu, hptr, hlen⟩ := hblocks b hb
      exact ⟨u, hused.mem_iff.mpr (by simp [hu]), hptr, hlen⟩

theorem place_reuse (h : Heap k cs) (hfind : cs.find? (Chunk.fits (size + headerSize)) = some c) :
    place size k = some (.reuse (c.length - (size + headerSize)), k) := by
  obtain ⟨before, hrun, _⟩ := h.find (size + headerSize)
  have hc := List.mem_of_find?_eq_some hfind
  rw [hfind, Option.toList_some, headOr] at hrun
  rw [place, bind_of_eq get_apply, bind_of_eq hrun]
  dsimp only
  rw [if_pos (h.addr_ne_zero hc), bind_of_eq (h.mem.length hc)]
  rfl

theorem place_extend (h : Heap k cs) (hfind : cs.find? (Chunk.fits (size + headerSize)) = none) :
    ∃ a k1, place size k = some (.extend a, k1) ∧
    a.toNat = endOf Chunk.size heapStart.toNat cs := by
  obtain ⟨before, hrun, hbefore⟩ := h.find (size + headerSize)
  obtain rfl := hbefore hfind
  obtain ⟨a, k1, hstart, ha, _⟩ := h.newStart
  refine ⟨a, k1, ?_, ha⟩
  rw [hfind, Option.toList_none, headOr] at hrun
  rw [place, bind_of_eq get_apply, bind_of_eq hrun]
  dsimp only
  rw [if_neg (not_not.mpr rfl), bind_of_eq hstart]
  rfl

/-- **`kmalloc`**, with care: it keeps the invariant, and returns if there are pages. -/
theorem Inv.kmalloc (h : Inv s) (hcare : careful s (.kmalloc size) = true) :
    (step (.kmalloc size) s = none ∧ hasPages s size = false) ∨ ∃ t,
    step (.kmalloc size) s = some t ∧ Inv t := by
  obtain ⟨cs, hk, hlive⟩ := h
  rw [careful, Bool.and_eq_true, decide_eq_true_eq] at hcare
  obtain ⟨hsize, hcare⟩ := hcare
  have hlen : (size + headerSize).toNat = size.toNat + 12 :=
    toNat_add (by rw [show headerSize.toNat = 12 from rfl]; omega)
  rw [step]
  cases hfind : cs.find? (Chunk.fits (size + headerSize)) with
  | some c =>
    rw [place_reuse hk hfind] at hcare
    have hleft : c.length - (size + headerSize) ≤ headerSize := by simpa using hcare
    obtain ⟨mem, pre, post, rfl, hrun, hk'⟩ := hk.kmalloc_reuses hfind (BitVec.not_lt.mpr hleft)
    have hfits : c.allocated = false ∧ size + headerSize ≤ c.length := by
      simpa [Chunk.fits] using List.find?_some hfind
    refine .inr ⟨_, by rw [hrun]; rfl, _, hk', Live.add c.addr c.length hlive hk' ?_ ?_⟩
    · rw [used_append, used_append, used_cons rfl, used_cons_free hfits.1]
      exact List.perm_middle
    · have hle := hfits.2
      rw [BitVec.le_def] at hle
      omega
  | none =>
    obtain ⟨a, k1, hplace, ha⟩ := place_extend hk hfind
    rw [hplace] at hcare
    have hroom : a.toNat + size.toNat + 12 < 2 ^ 32 := by simpa using hcare
    obtain ⟨hnone, hfew⟩ | ⟨a', k', cs', hrun, hk', hused⟩ := hk.kmalloc_extends hfind (ha ▸ hroom)
    · refine .inl ⟨by rw [hnone]; rfl, ?_⟩
      rw [hasPages, hplace]
      simp only [Option.map_some, decide_eq_false_iff_not]
      omega
    · refine .inr
        ⟨_, by rw [hrun]; rfl, cs', hk', Live.add a' (size + headerSize) hlive hk' ?_ hlen.ge⟩
      rw [hused]
      exact List.perm_append_singleton ..

/-- **`kfree`** of a live block returns and keeps the invariant. -/
theorem Inv.kfree (h : Inv s) {p : Word} (hp : p ∈ s.live.map Prod.fst) : ∃ t,
    step (.kfree p) s = some t ∧ Inv t := by
  obtain ⟨cs, hk, hnodup, hblocks⟩ := h
  obtain ⟨b, hb, rfl⟩ := mem_map.mp hp
  obtain ⟨u, hu, hptr, _⟩ := hblocks b hb
  obtain ⟨c, hc, halloc, rfl⟩ := mem_used.mp hu
  obtain ⟨pre, post, rfl⟩ := List.append_of_mem hc
  obtain ⟨k', cs', hrun, hk', hused⟩ := hk.kfree
  rw [← hptr] at hrun
  refine ⟨_, by rw [step, if_pos hp, hrun]; rfl, cs', hk',
    hnodup.sublist (List.filter_sublist.map _), fun b' hb' => ?_⟩
  obtain ⟨hmem, hne⟩ := List.mem_filter.mp hb'
  obtain ⟨u, hu, hptr', hlen⟩ := hblocks b' hmem
  refine ⟨u, ?_, hptr', hlen⟩
  rw [used_append, used_cons halloc, List.mem_append, mem_cons] at hu
  rw [hused, List.mem_append]
  rcases hu with hu | rfl | hu
  · exact .inl hu
  · exact absurd (hptr'.trans hptr.symm) (by simpa using hne)
  · exact .inr hu

theorem Live.inBlock (hk : Heap k cs) (hlive : Live live cs) {b : Word × Word} (hb : b ∈ live) :
    ∃ c ∈ cs, c.allocated = true ∧ b.1 = c.addr + headerSize ∧ b.1.toNat = c.start + 12 ∧
    b.2.toNat + 12 ≤ c.size := by
  obtain ⟨u, hu, hptr, hlen⟩ := hlive.2 b hb
  obtain ⟨c, hc, halloc, rfl⟩ := mem_used.mp hu
  have hhi := (hk.bounds hc).2.1
  refine ⟨c, hc, halloc, hptr, ?_, hlen⟩
  rw [hptr]
  have hsize : b.2.toNat + 12 ≤ c.size := hlen
  exact toNat_add (by
    show c.start + 12 < 2 ^ 32
    omega)

/-- **A store** to a live block keeps the invariant. -/
theorem Inv.store (h : Inv s) {b : BitVec 8} (hstep : step (.store a b) s = some t) : Inv t := by
  obtain ⟨cs, hk, hlive⟩ := h
  rw [step] at hstep
  split at hstep
  · next hin =>
    obtain ⟨l, hl, hlo, hhi⟩ := hin
    obtain ⟨c, hc, _, _, hstart, hsize⟩ := hlive.inBlock hk hl
    obtain ⟨hclo, hchi, _⟩ := hk.bounds hc
    obtain ⟨mem, hrun, hmem⟩ := hk.mem.storeb (a := a) (by omega) (by omega) (fun d hd => by
      obtain rfl | hle | hle := hk.tiles.apart hc hd
      · omega
      · omega
      · omega) b
    rw [hrun, Option.map_some, Option.some.injEq] at hstep
    subst hstep
    exact ⟨cs, ⟨hmem, hk.tiles, hk.linked, hk.fits, hk.first⟩, hlive⟩
  · cases hstep

theorem Inv.step {op : Op} (h : Inv s) (hcare : careful s op = true) (hstep : step op s = some t) :
    Inv t := by
  cases op with
  | kmalloc size =>
    obtain ⟨hnone, _⟩ | ⟨t', ht', hinv⟩ := h.kmalloc hcare
    · rw [hnone] at hstep
      cases hstep
    · rw [ht'] at hstep
      exact Option.some.inj hstep ▸ hinv
  | kfree p =>
    have hp : p ∈ s.live.map Prod.fst := by
      by_contra hno
      rw [Hurlex.step, if_neg hno] at hstep
      cases hstep
    obtain ⟨t', ht', hinv⟩ := h.kfree hp
    rw [ht'] at hstep
    exact Option.some.inj hstep ▸ hinv
  | store a b => exact h.store hstep

theorem Inv.wellFormed (h : Inv s) : WellFormed s := by
  obtain ⟨cs, hk, hlive⟩ := h
  have hall : Heap s.kernel ([] ++ cs) := hk
  have hchunks := hall.chunks
  refine ⟨cs, hk.first ▸ hchunks, hk.tiles, hk.linked, fun b hb => ?_, ?_, fun b hb => ?_⟩
  · obtain ⟨c, hc, halloc, hptr, _, hsize⟩ := hlive.inBlock hk hb
    exact ⟨c, hc, halloc, hptr, hsize⟩
  · refine (pairwise_map.mp hlive.1).imp_of_mem fun {b b'} hb hb' hne => ?_
    obtain ⟨c, hc, _, hptr, hstart, hsize⟩ := hlive.inBlock hk hb
    obtain ⟨c', hc', _, hptr', hstart', hsize'⟩ := hlive.inBlock hk hb'
    rw [BlocksApart]
    obtain rfl | hle | hle := hk.tiles.apart hc hc'
    · exact absurd (hptr.trans hptr'.symm) hne
    · omega
    · omega
  · obtain ⟨c, hc, _, _, hstart, hsize⟩ := hlive.inBlock hk hb
    obtain ⟨hlo, hhi, _⟩ := hk.bounds hc
    obtain ⟨m, hm, _⟩ := hk.mem
    refine ⟨by omega, fun i hi => ?_⟩
    have hnat : (b.1 + BitVec.ofNat 32 i).toNat = b.1.toNat + i := by
      have hval :
        (BitVec.ofNat 32 i).toNat = i := by rw [BitVec.toNat_ofNat, Nat.mod_eq_of_lt (by omega)]
      rw [toNat_add (by omega), hval]
    exact hm.translate (by omega) (by omega)

end Invariant

/-- **The heap in every careful run.** Besides, `kfree` of a live block returns, and so does
    `kmalloc` if there are free pages. -/
theorem heap_wellFormed {k : Kernel} {ops : List Op} {s : System} (hboot : Booted k)
    (hrun : Run (fun a op b => careful a op = true ∧ step op a = some b) ⟨k, []⟩ ops s) :
    WellFormed s ∧ (∀ b ∈ s.live, ∃ t, step (.kfree b.1) s = some t) ∧
      ∀ size, careful s (.kmalloc size) = true → hasPages s size = true → ∃ t,
      step (.kmalloc size) s = some t := by
  have hinv : Inv s := by
    refine hrun.invariant Inv ⟨[], hboot.heap, List.nodup_nil, by simp⟩ ?_
    rintro a op b ha ⟨hcare, hstep⟩
    exact ha.step hcare hstep
  refine ⟨hinv.wellFormed, fun b hb => ?_, fun size hcare hpages => ?_⟩
  · obtain ⟨t, ht, _⟩ := hinv.kfree (mem_map.mpr ⟨b, hb, rfl⟩)
    exact ⟨t, ht⟩
  · obtain ⟨_, hno⟩ | ⟨t, ht, _⟩ := hinv.kmalloc hcare
    · rw [hpages] at hno
      cases hno
    · exact ⟨t, ht⟩

/-! ### A machine with 16 pages -/

/-- A kernel of 1 MB, and 64 KB behind it. -/
def smallMap : List MmapEntry := [⟨1#32, 0x100000#32, 0x110000#32⟩]

theorem smallMap_loaded : Loaded 0x100000#32 smallMap 0x120000 :=
  ⟨by decide, by decide, by decide, by decide, List.pairwise_singleton ..⟩

/-- The kernel on that machine, after boot and some calls. -/
def smallRun (call : Op → System → Option System) (ops : List Op) : Option (Kernel × System) := do
  let r ← kernInit 0x100000#32 smallMap 0x120000 (reset fun _ => 0#8)
  let s ← Run.exec call ops ⟨r.2, []⟩
  some (r.2, s)

theorem smallRun_booted {call : Op → System → Option System} {ops : List Op} {k : Kernel}
    {s : System}
    (h : smallRun call ops = some (k, s)) :
    Booted k ∧ Run (fun a op b => call op a = some b) ⟨k, []⟩ ops s := by
  unfold smallRun at h
  generalize hboot : kernInit 0x100000#32 smallMap 0x120000 (reset fun _ => 0#8) = o at h
  obtain ⟨⟨_, k0⟩, ho, hrest⟩ := Option.bind_eq_some_iff.mp h
  obtain ⟨s0, hexec, hend⟩ := Option.bind_eq_some_iff.mp hrest
  cases hend
  rw [ho] at hboot
  exact ⟨⟨_, _, _, _, smallMap_loaded, hboot⟩, .of_exec hexec⟩

/-- Two blocks, the first of which is freed and its chunk used again. -/
theorem heap_wellFormed_reuse : ∃ k s, Booted k ∧
    Run (fun a op b => careful a op = true ∧ step op a = some b) ⟨k, []⟩
      [.kmalloc 100#32, .kmalloc 10#32, .kfree 0xE000000C#32, .kmalloc 90#32] s ∧ WellFormed s := by
  have hsome : (smallRun (fun op s => if careful s op then step op s else none)
      [.kmalloc 100#32, .kmalloc 10#32, .kfree 0xE000000C#32,
        .kmalloc 90#32]).isSome := by decide +kernel
  obtain ⟨⟨k, s⟩, hrun⟩ := Option.isSome_iff_exists.mp hsome
  obtain ⟨hboot, hrun⟩ := smallRun_booted hrun
  have hcareful := hrun.mono fun a op b h => show careful a op = true ∧ step op a = some b by
    split at h
    · next hcare => exact ⟨hcare, h⟩
    · cases h
  exact ⟨k, s, hboot, hcareful, (heap_wellFormed hboot hcareful).1⟩

/-- **A split breaks the list.** After two blocks, of which the first is freed, a smaller one is put
    in its chunk: the chunk cut off is followed by one whose `prev` is another. A block is put in
    the chunk cut off; when the second block is freed, its chunk is no longer in the list, and the
    next block is put in the same place. -/
theorem split_breaks_list : ∃ k s t, Booted k ∧
    Run (fun a op b => step op a = some b) ⟨k, []⟩
      [.kmalloc 100#32, .kmalloc 10#32, .kfree 0xE000000C#32, .kmalloc 10#32] s ∧
    (∃ c d, s.kernel.chunkAt 0xE0000016#32 = some c ∧ s.kernel.chunkAt c.next = some d ∧
      d.prev ≠ c.addr) ∧
    Run (fun a op b => step op a = some b)
    s [.kmalloc 60#32, .kfree 0xE000007C#32, .kmalloc 20#32] t ∧
    (0xE0000022#32, 20#32) ∈ t.live ∧ (0xE0000022#32, 60#32) ∈ t.live ∧ ¬ WellFormed t := by
  obtain ⟨⟨k, s⟩, hfirst, c, hc, d, hd, t, hexec, hprev, hlive⟩ : ∃ x ∈ smallRun step
        [.kmalloc 100#32, .kmalloc 10#32, .kfree 0xE000000C#32, .kmalloc 10#32],
      ∃ c ∈ x.2.kernel.chunkAt 0xE0000016#32, ∃ d ∈ x.2.kernel.chunkAt c.next,
      ∃ t ∈ Run.exec step [.kmalloc 60#32, .kfree 0xE000007C#32, .kmalloc 20#32] x.2,
      d.prev ≠ c.addr ∧
        t.live = [(0xE0000022#32, 20#32), (0xE0000022#32, 60#32),
          (0xE000000C#32, 10#32)] := by decide +kernel
  obtain ⟨hboot, hrun₁⟩ := smallRun_booted hfirst
  refine ⟨k, s, t, hboot, hrun₁, ⟨c, d, hc, hd, hprev⟩,
    .of_exec hexec, by simp [hlive], by simp [hlive], ?_⟩
  rintro ⟨_, _, _, _, _, hpair, _⟩
  rw [hlive] at hpair
  have happart : BlocksApart (0xE0000022#32, 20#32) (0xE0000022#32, 60#32) :=
    List.rel_of_pairwise_cons hpair (by simp)
  simp [BlocksApart] at happart

end LinuxStudy.Hurlex
