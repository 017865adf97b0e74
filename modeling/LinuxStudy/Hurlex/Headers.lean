import LinuxStudy.Hurlex.Paging

/-!
# Chunk headers of the hurlex heap

The headers of the chunks, as the functions of `mm/heap.c` read and write them through the page
tables. A list of headers that do not overlap is followed through stores to their fields and through
the loops that map and unmap pages.
-/

namespace LinuxStudy.Hurlex

open Proc (bind_of_eq get_apply)
open ByteMem Proc
open BitVec (getElem_and getElem_or getElem_not getElem_one getLsbD_one getLsbD_or getLsbD_and
  lt_def le_def)

/-! ### Headers -/

/-- A `header_t` and where it is. -/
@[ext] structure Chunk where
  addr : Word
  prev : Word
  next : Word
  allocated : Bool
  length : Word
  deriving DecidableEq, Repr

namespace Chunk

def start (c : Chunk) : ℕ := c.addr.toNat

def size (c : Chunk) : ℕ := c.length.toNat

def bit (c : Chunk) : Word := if c.allocated then 1#32 else 0#32

@[simp] theorem bit_eq_zero {c : Chunk} : c.bit = 0#32 ↔ c.allocated = false := by
  rw [bit]
  cases c.allocated <;> decide

end Chunk

/-- The header of a chunk in memory. -/
structure HeaderAt (m : ByteMem) (c : Chunk) : Prop where
  prev : m.word c.start = c.prev
  next : m.word (c.start + 4) = c.next
  bit : m.word (c.start + 8) &&& 1#32 = c.bit
  length : m.word (c.start + 8) >>> 1 = c.length

namespace HeaderAt

variable {m m' : ByteMem} {c : Chunk} {w : Word}

theorem congr (h : HeaderAt m c) (hm : ∀ x, c.start ≤ x → x < c.start + 12 → m' x = m x) :
    HeaderAt m' c := by
  have hword : ∀ o, o + 4 ≤ 12 → m'.word (c.start + o) = m.word (c.start + o) := fun o ho =>
    word_congr fun x hx hx' => hm x (by omega) (by omega)
  refine ⟨(hword 0 (by omega)).trans h.prev, (hword 4 (by omega)).trans h.next, ?_, ?_⟩
  · rw [hword 8 (by omega), h.bit]
  · rw [hword 8 (by omega), h.length]

theorem setPrev (h : HeaderAt m c) : HeaderAt (m.putWord c.start w) { c with prev := w } := by
  have hflags : (m.putWord c.start w).word (c.start + 8) = m.word (c.start + 8) :=
    word_putWord (by omega)
  refine ⟨word_putWord_self, (word_putWord (.inr (Nat.le_refl _))).trans h.next, ?_, ?_⟩
  · exact hflags ▸ h.bit
  · exact hflags ▸ h.length

theorem setNext (h : HeaderAt m c) : HeaderAt (m.putWord (c.start + 4) w) { c with next := w } := by
  have hflags : (m.putWord (c.start + 4) w).word (c.start + 8) = m.word (c.start + 8) :=
    word_putWord (by omega)
  refine ⟨(word_putWord (.inl (Nat.le_refl _))).trans h.prev, word_putWord_self, ?_, ?_⟩
  · exact hflags ▸ h.bit
  · exact hflags ▸ h.length

theorem setFlags (h : HeaderAt m c) {b : Bool} {len : Word}
    (hbit : w &&& 1#32 = if b then 1#32 else 0#32)
    (hlen : w >>> 1 = len) :
    HeaderAt (m.putWord (c.start + 8) w) { c with allocated := b, length := len } := by
  have hprev : (m.putWord (c.start + 8) w).word c.start = m.word c.start := word_putWord (by omega)
  have hnext : (m.putWord (c.start + 8) w).word (c.start + 4) = m.word (c.start + 4) :=
    word_putWord (by omega)
  have hflags : (m.putWord (c.start + 8) w).word (c.start + 8) = w := word_putWord_self
  refine ⟨hprev.trans h.prev, hnext.trans h.next, ?_, ?_⟩
  · exact (congrArg (· &&& 1#32) hflags).trans hbit
  · show (m.putWord (c.start + 8) w).word (c.start + 8) >>> 1 = len
    rw [hflags, hlen]

end HeaderAt

/-! ### The third word -/

theorem flags_setAllocated (w : Word) (b : Bool) :
    (w &&& ~~~1#32 ||| (if b then 1#32 else 0#32) &&& 1#32) &&& 1#32 = (if b then 1#32 else 0#32) ∧
      (w &&& ~~~1#32 ||| (if b then 1#32 else 0#32) &&& 1#32) >>> 1 = w >>> 1 := by
  constructor
  · ext i hi
    cases b with
    | false =>
      simp only [getElem_and, getElem_or, getElem_not, getElem_one, BitVec.getElem_zero,
        Bool.false_eq_true, if_false]
      cases decide (i = 0) <;> simp
    | true =>
      simp only [getElem_and, getElem_or, getElem_not, getElem_one, if_true]
      cases decide (i = 0) <;> simp
  · have hone : ∀ i, (1#32).getLsbD (1 + i) = false := by
      simp
    ext i hi
    simp only [BitVec.getElem_ushiftRight, getLsbD_or, getLsbD_and, BitVec.getLsbD_not, hone]
    by_cases h : 1 + i < 32
    · simp [h]
    · rw [BitVec.getLsbD_of_ge w _ (by omega)]
      simp

theorem flags_setLength (w : Word) {len : Word} (h : len.toNat < 2 ^ 31) :
    (w &&& 1#32 ||| len <<< 1) &&& 1#32 = w &&& 1#32 ∧ (w &&& 1#32 ||| len <<< 1) >>> 1 = len := by
  constructor
  · ext i hi
    by_cases h0 : i = 0 <;> simp [h0]
  · ext i hi
    by_cases h31 : i = 31
    · subst h31
      have htop : len.getLsbD 31 = false := by rw [BitVec.getLsbD, Nat.testBit_lt_two_pow h]
      simpa using htop.symm
    · simp [show 1 + i < 32 by omega]

/-! ### Reading and writing headers -/

/-- The header lies in the mapped part of the heap. -/
def Chunk.InHeap (c : Chunk) (k : Kernel) : Prop := heapStart.toNat ≤ c.start ∧
    c.start + 12 ≤ k.heapMax.toNat

/-- The headers `cs` are in memory, without overlap. -/
def HeapMem (k : Kernel) (cs : List Chunk) : Prop :=
  ∃ m, Mapped k m ∧ (∀ c ∈ cs, HeaderAt m c ∧ c.InHeap k) ∧
    cs.Pairwise fun c d => c.start + 12 ≤ d.start

namespace HeapMem

variable {k : Kernel} {cs pre post : List Chunk} {c : Chunk} {w : Word}

section

variable (h : HeapMem k cs)
include h

theorem sublist {ds : List Chunk} (hsub : ds.Sublist cs) : HeapMem k ds := by
  obtain ⟨m, hm, hhead, hpair⟩ := h
  exact ⟨m, hm, fun c hc => hhead c (hsub.subset hc), hpair.sublist hsub⟩

theorem setFirst (f : Word) : HeapMem { k with heapFirst := f } cs := by
  obtain ⟨m, hm, hhead, hpair⟩ := h
  exact ⟨m, hm.setFirst f, hhead, hpair⟩

section

variable (hc : c ∈ cs)
include hc

theorem addr {o : ℕ} (ho : o + 4 ≤ 12) : (c.addr + BitVec.ofNat 32 o).toNat = c.start + o ∧
    heapStart.toNat ≤ c.start + o ∧ c.start + o + 4 ≤ k.heapMax.toNat := by
  obtain ⟨m, hm, hhead, _⟩ := h
  obtain ⟨hlo, hhi⟩ := (hhead c hc).2
  have hval : (BitVec.ofNat 32 o).toNat = o := by
    rw [BitVec.toNat_ofNat, Nat.mod_eq_of_lt (by omega)]
  refine ⟨?_, by omega, by omega⟩
  rw [toNat_add (by rw [hval]; rw [Chunk.start] at hhi; omega), hval, Chunk.start]

theorem prev : prev c.addr k = some (c.prev, k) := by
  obtain ⟨ha, hlo, hhi⟩ := h.addr hc (show 0 + 4 ≤ 12 by omega)
  obtain ⟨m, hm, hhead, _⟩ := h
  rw [Hurlex.prev, hm.loadw hlo hhi]
  exact congrArg (fun w => some (w, k)) (hhead c hc).1.prev

theorem next : next c.addr k = some (c.next, k) := by
  obtain ⟨ha, hlo, hhi⟩ := h.addr hc (show 4 + 4 ≤ 12 by omega)
  obtain ⟨m, hm, hhead, _⟩ := h
  rw [Hurlex.next, hm.loadw (by rw [ha]; exact hlo) (by rw [ha]; exact hhi), ha,
    (hhead c hc).1.next]

theorem flags :
    ∃ w, loadw (c.addr + 8#32) k = some (w, k) ∧ w &&& 1#32 = c.bit ∧ w >>> 1 = c.length := by
  obtain ⟨ha, hlo, hhi⟩ := h.addr hc (show 8 + 4 ≤ 12 by omega)
  obtain ⟨m, hm, hhead, _⟩ := h
  refine ⟨_, hm.loadw (by rw [ha]; exact hlo) (by rw [ha]; exact hhi), ?_, ?_⟩
  · rw [ha, (hhead c hc).1.bit]
  · rw [ha, (hhead c hc).1.length]

theorem allocated : allocated c.addr k = some (c.bit, k) := by
  obtain ⟨w, hload, hbit, _⟩ := h.flags hc
  rw [Hurlex.allocated, bind_of_eq hload, hbit]
  rfl

theorem length : length c.addr k = some (c.length, k) := by
  obtain ⟨w, hload, _, hlen⟩ := h.flags hc
  rw [Hurlex.length, bind_of_eq hload, hlen]
  rfl

end

end

/-- A store to a word of a header changes this header and no other. -/
theorem storew (c' : Chunk) (h : HeapMem k (pre ++ c :: post)) {o : ℕ} (ho : o + 4 ≤ 12)
    (haddr : c'.addr = c.addr)
    (hc : ∀ m, HeaderAt m c → HeaderAt (m.putWord (c.start + o) w) c') :
    ∃ mem, storew (c.addr + BitVec.ofNat 32 o) w k = some ((), { k with mem := mem }) ∧
      HeapMem { k with mem := mem } (pre ++ c' :: post) := by
  obtain ⟨ha, hlo, hhi⟩ := h.addr (show c ∈ pre ++ c :: post by simp) ho
  obtain ⟨m, hm, hhead, hpair⟩ := h
  obtain ⟨mem, hstore, hm'⟩ := hm.storew (w := w) (by rw [ha]; exact hlo) (by rw [ha]; exact hhi)
  rw [ha] at hm'
  have hstart : c'.start = c.start := congrArg BitVec.toNat haddr
  obtain ⟨hpre, hrest, hcross⟩ := List.pairwise_append.mp hpair
  obtain ⟨hafter, hpost⟩ := List.pairwise_cons.mp hrest
  have hkeep : ∀ d, (d.start + 12 ≤ c.start ∨ c.start + 12 ≤ d.start) → HeaderAt m d →
      HeaderAt (m.putWord (c.start + o) w) d := fun d hd hdm =>
    hdm.congr fun x hx hx' => overwrite_out (by omega)
  refine ⟨mem, hstore, _, hm', fun d hd => ?_, ?_⟩
  · rcases List.mem_append.mp hd with hd | hd
    · obtain ⟨hdm, hin⟩ := hhead d (by simp [hd])
      exact ⟨hkeep d (.inl (hcross d hd c (by simp))) hdm, hin⟩
    · rcases List.mem_cons.mp hd with rfl | hd
      · obtain ⟨hcm, hin⟩ := hhead c (by simp)
        exact ⟨hc m hcm, by rw [Chunk.InHeap, hstart]; exact hin⟩
      · obtain ⟨hdm, hin⟩ := hhead d (by simp [hd])
        exact ⟨hkeep d (.inr (hafter d hd)) hdm, hin⟩
  · refine List.pairwise_append.mpr
      ⟨hpre, List.pairwise_cons.mpr ⟨fun d hd => ?_, hpost⟩, fun d hd e he => ?_⟩
    · rw [hstart]
      exact hafter d hd
    · rcases List.mem_cons.mp he with rfl | he
      · rw [hstart]
        exact hcross d hd c (by simp)
      · exact hcross d hd e (by simp [he])

theorem storeb (h : HeapMem k cs) {a : Word} (hlo : heapStart.toNat ≤ a.toNat)
    (hhi : a.toNat < k.heapMax.toNat)
    (hout : ∀ c ∈ cs, a.toNat < c.start ∨ c.start + 12 ≤ a.toNat) (b : BitVec 8) :
    ∃ mem, storeb a b k = some ((), { k with mem := mem }) ∧ HeapMem { k with mem := mem } cs := by
  obtain ⟨m, hm, hhead, hpair⟩ := h
  obtain ⟨mem, hrun, hm'⟩ := hm.storeb hlo hhi b
  refine ⟨mem, hrun, _, hm', fun c hc => ?_, hpair⟩
  obtain ⟨hcm, hin⟩ := hhead c hc
  have := hout c hc
  exact ⟨hcm.congr fun x hx hx' => Function.update_of_ne (by omega) .., hin⟩

theorem setPrev (h : HeapMem k (pre ++ c :: post)) : ∃ mem,
    setPrev c.addr w k = some ((), { k with mem := mem }) ∧
    HeapMem { k with mem := mem } (pre ++ { c with prev := w } :: post) := by
  have hstore :=
    HeapMem.storew { c with prev := w } h (o := 0) (w := w) (by omega) rfl fun m hm => hm.setPrev
  rwa [BitVec.add_zero] at hstore

theorem setNext (h : HeapMem k (pre ++ c :: post)) : ∃ mem,
    setNext c.addr w k = some ((), { k with mem := mem }) ∧
    HeapMem { k with mem := mem } (pre ++ { c with next := w } :: post) :=
  HeapMem.storew { c with next := w } h (by omega) rfl fun m hm => hm.setNext

theorem setAllocated (h : HeapMem k (pre ++ c :: post)) (b : Bool) :
    ∃ mem, setAllocated c.addr (if b then 1#32 else 0#32) k = some ((), { k with mem := mem }) ∧
      HeapMem { k with mem := mem } (pre ++ { c with allocated := b } :: post) := by
  obtain ⟨w, hload, _, hlen⟩ := h.flags (show c ∈ pre ++ c :: post by simp)
  obtain ⟨hbit', hlen'⟩ := flags_setAllocated w b
  rw [Hurlex.setAllocated, bind_of_eq hload]
  exact HeapMem.storew { c with allocated := b } h (by omega) rfl fun m hm =>
    hm.setFlags hbit' (hlen'.trans hlen)

theorem setLength (h : HeapMem k (pre ++ c :: post)) {len : Word} (hlen : len.toNat < 2 ^ 31) :
    ∃ mem, setLength c.addr len k = some ((), { k with mem := mem }) ∧
      HeapMem { k with mem := mem } (pre ++ { c with length := len } :: post) := by
  obtain ⟨w, hload, hbit, _⟩ := h.flags (show c ∈ pre ++ c :: post by simp)
  obtain ⟨hbit', hlen'⟩ := flags_setLength w hlen
  rw [Hurlex.setLength, bind_of_eq hload]
  exact HeapMem.storew { c with length := len } h (by omega) rfl fun m hm =>
    hm.setFlags (hbit'.trans hbit) hlen'

end HeapMem

namespace HeapMem

variable {k : Kernel} {cs : List Chunk} {limit chunk : Word}

section

variable (h : HeapMem k cs)
include h

theorem bounds : heapStart.toNat ≤ k.heapMax.toNat ∧ 4096 ∣ k.heapMax.toNat ∧
    k.heapMax.toNat + 4096 ≤ 2 ^ 32 := by
  obtain ⟨m, hm, _⟩ := h
  exact hm.bounds

theorem growPage :
    (growPage k = none ∧ k.pmmStack.length < 2) ∨
    ∃ k', growPage k = some ((), k') ∧ HeapMem k' cs ∧ k'.heapMax.toNat = k.heapMax.toNat + 4096 ∧
      k'.heapFirst = k.heapFirst ∧ k.pmmStack.length ≤ k'.pmmStack.length + 2 := by
  obtain ⟨m, hm, hhead, hpair⟩ := h
  refine hm.growPage.imp_right ?_
  rintro ⟨k', m', hrun, hm', hmax, hfirst, hsame, hlen⟩
  refine ⟨k', hrun, ⟨m', hm', fun c hc => ?_, hpair⟩, hmax, hfirst, hlen⟩
  obtain ⟨hcm, hlo, hhi⟩ := hhead c hc
  exact ⟨hcm.congr fun x _ hx => hsame x (by omega), hlo, by omega⟩

theorem shrinkPage (hlast : heapStart.toNat < k.heapMax.toNat)
    (hcs : ∀ c ∈ cs, c.start + 12 + 4096 ≤ k.heapMax.toNat) :
    ∃ k', shrinkPage k = some ((), k') ∧ HeapMem k' cs ∧ k'.heapMax.toNat + 4096 = k.heapMax.toNat ∧
      k'.heapFirst = k.heapFirst := by
  obtain ⟨m, hm, hhead, hpair⟩ := h
  obtain ⟨k', hrun, hm', hmax, hfirst⟩ := hm.shrinkPage hlast
  refine ⟨k', hrun, ⟨m, hm', fun c hc => ?_, hpair⟩, hmax, hfirst⟩
  obtain ⟨hcm, hlo, _⟩ := hhead c hc
  have := hcs c hc
  exact ⟨hcm, hlo, by omega⟩

theorem allocLoop {n : ℕ} {k' : Kernel} (hrun : allocLoop limit n k = some ((), k')) :
    HeapMem k' cs ∧ limit.toNat ≤ k'.heapMax.toNat ∧ k.heapMax.toNat ≤ k'.heapMax.toNat ∧
    k'.heapFirst = k.heapFirst := by
  induction n generalizing k with
  | zero => exact absurd hrun fail_eq_some
  | succ n ih =>
    rw [Hurlex.allocLoop, bind_of_eq get_apply] at hrun
    by_cases hlim : limit > k.heapMax
    · rw [if_pos hlim] at hrun
      obtain ⟨hnone, _⟩ | ⟨k1, hgrow, hk1, hmax, hfirst, _⟩ := h.growPage
      · rw [bind_apply, hnone] at hrun
        cases hrun
      · rw [bind_of_eq hgrow] at hrun
        obtain ⟨hk', hle, hle', hfirst'⟩ := ih hk1 hrun
        exact ⟨hk', hle, by omega, hfirst'.trans hfirst⟩
    · rw [if_neg hlim] at hrun
      obtain ⟨_, rfl⟩ := pure_eq_some.mp hrun
      exact ⟨h, by rw [gt_iff_lt, lt_def] at hlim; omega, le_rfl, rfl⟩

theorem allocLoop_total {n : ℕ} (hn : limit.toNat ≤ k.heapMax.toNat + 4096 * n)
    (hpages : limit.toNat ≤ k.heapMax.toNat + 4096 * (k.pmmStack.length / 2)) :
    ∃ k', Hurlex.allocLoop limit (n + 1) k = some ((), k') := by
  induction n generalizing k with
  | zero =>
    rw [Hurlex.allocLoop, bind_of_eq get_apply, if_neg (by rw [gt_iff_lt, lt_def]; omega)]
    exact ⟨k, rfl⟩
  | succ n ih =>
    rw [Hurlex.allocLoop, bind_of_eq get_apply]
    by_cases hlim : limit > k.heapMax
    · rw [if_pos hlim]
      rw [gt_iff_lt, lt_def] at hlim
      obtain ⟨_, hfew⟩ | ⟨k1, hgrow, hk1, hmax, _, hlen⟩ := h.growPage
      · omega
      · rw [bind_of_eq hgrow]
        refine ih hk1 (by omega) ?_
        omega
    · rw [if_neg hlim]
      exact ⟨k, rfl⟩

theorem freeLoop (hcs : ∀ c ∈ cs, c.start + 12 ≤ chunk.toNat) (hlo : heapStart.toNat ≤ chunk.toNat)
    (hhi : chunk.toNat ≤ k.heapMax.toNat) {n : ℕ} (hn : k.heapMax.toNat < chunk.toNat + 4096 * n) :
    ∃ k', freeLoop chunk n k = some ((), k') ∧ HeapMem k' cs ∧ chunk.toNat ≤ k'.heapMax.toNat ∧
      k'.heapFirst = k.heapFirst := by
  induction n generalizing k with
  | zero => omega
  | succ n ih =>
    rw [Hurlex.freeLoop, bind_of_eq get_apply]
    obtain ⟨hstart, _, _⟩ := h.bounds
    have hsub : (k.heapMax - pageSize).toNat = k.heapMax.toNat - 4096 := by
      rw [show heapStart.toNat = 0xE0000000 from rfl] at hstart
      rw [BitVec.toNat_sub_of_le (by rw [le_def, show pageSize.toNat = 4096 from rfl]; omega)]
      rfl
    by_cases hpage : k.heapMax - pageSize ≥ chunk
    · rw [if_pos hpage]
      rw [ge_iff_le, le_def, hsub] at hpage
      have hbig : chunk.toNat + 4096 ≤ k.heapMax.toNat := by
        rw [show heapStart.toNat = 0xE0000000 from rfl] at hlo
        omega
      obtain ⟨k1, hrun, hk1, hmax, hfirst⟩ :=
        h.shrinkPage (by omega) fun c hc => by have := hcs c hc; omega
      obtain ⟨k', hrun', hk', hle, hfirst'⟩ := ih hk1 (by omega) (by omega)
      refine ⟨k', ?_, hk', hle, hfirst'.trans hfirst⟩
      rw [bind_of_eq hrun, hrun']
    · exact ⟨k, by rw [if_neg hpage]; rfl, h, hhi, rfl⟩

/-- Whatever is in memory behind the chunks can be read as a header. -/
theorem fresh {a : Word} (hcs : ∀ c ∈ cs, c.start + 12 ≤ a.toNat) (hlo : heapStart.toNat ≤ a.toNat)
    (hhi : a.toNat + 12 ≤ k.heapMax.toNat) : ∃ c : Chunk, c.addr = a ∧ HeapMem k (cs ++ [c]) := by
  obtain ⟨m, hm, hhead, hpair⟩ := h
  let w := m.word (a.toNat + 8)
  have hbit : w &&& 1#32 = if decide (w &&& 1#32 ≠ 0#32) then 1#32 else 0#32 := by
    by_cases hw : w &&& 1#32 = 0#32
    · rw [if_neg (by simp [hw]), hw]
    · rw [if_pos (by simp [hw])]
      have hmod : (w &&& 1#32).toNat = w.toNat % 2 := by
        rw [BitVec.toNat_and, show (1#32).toNat = 1 from rfl, Nat.and_one_is_mod]
      apply BitVec.eq_of_toNat_eq
      rw [show (1#32).toNat = 1 from rfl]
      have hne : (w &&& 1#32).toNat ≠ 0 := fun h0 => hw (BitVec.eq_of_toNat_eq h0)
      omega
  let c : Chunk := ⟨a, m.word a.toNat, m.word (a.toNat + 4), decide (w &&& 1#32 ≠ 0#32), w >>> 1⟩
  refine ⟨c, rfl, m, hm, fun d hd => ?_, ?_⟩
  · rcases List.mem_append.mp hd with hd | hd
    · exact hhead d hd
    · obtain rfl := List.mem_singleton.mp hd
      exact ⟨⟨rfl, rfl, hbit, rfl⟩, hlo, hhi⟩
  · refine List.pairwise_append.mpr ⟨hpair, List.pairwise_singleton .., fun d hd e he => ?_⟩
    obtain rfl := List.mem_singleton.mp he
    exact hcs d hd

theorem allocChunk {start len : Word} :
    (allocChunk start len k = none ∧
      k.heapMax.toNat + 4096 * (k.pmmStack.length / 2) < (start + len).toNat) ∨
    ∃ k', allocChunk start len k = some ((), k') ∧ HeapMem k' cs ∧
    (start + len).toNat ≤ k'.heapMax.toNat ∧
      k.heapMax.toNat ≤ k'.heapMax.toNat ∧ k'.heapFirst = k.heapFirst := by
  have heq :
      Hurlex.allocChunk start len k = Hurlex.allocLoop (start + len) (k.pmmStack.length + 1) k := by
    rw [Hurlex.allocChunk, bind_of_eq get_apply]
  rw [heq]
  cases hrun : Hurlex.allocLoop (start + len) (k.pmmStack.length + 1) k with
  | none =>
    refine .inl ⟨rfl, ?_⟩
    by_contra hle
    obtain ⟨k', hk'⟩ :=
      h.allocLoop_total
        (show (start + len).toNat ≤ k.heapMax.toNat + 4096 * k.pmmStack.length by omega)
      (by omega)
    rw [hrun] at hk'
    cases hk'
  | some r =>
    obtain ⟨⟨⟩, k'⟩ := r
    exact .inr ⟨k', rfl, h.allocLoop hrun⟩

end

theorem newChunk {α : Type} {x : KernM α} {a : Word} (before len : Word) (h : HeapMem k cs)
    (hcs : ∀ c ∈ cs, c.start + 12 ≤ a.toNat) (hlo : heapStart.toNat ≤ a.toNat)
    (hhi : a.toNat + 12 ≤ k.heapMax.toNat)
    (hlen : len.toNat < 2 ^ 31) :
    ∃ mem, (do
        Hurlex.setPrev a before
        Hurlex.setNext a 0#32
        Hurlex.setAllocated a 1#32
        Hurlex.setLength a len
        x) k = x { k with mem := mem } ∧
        HeapMem { k with mem := mem } (cs ++ [⟨a, before, 0#32, true, len⟩]) := by
  obtain ⟨c, rfl, hc⟩ := h.fresh hcs hlo hhi
  obtain ⟨m1, hrun1, h1⟩ := hc.setPrev (w := before)
  obtain ⟨m2, hrun2, h2⟩ := h1.setNext (w := 0#32)
  obtain ⟨m3, hrun3, h3⟩ := h2.setAllocated true
  obtain ⟨m4, hrun4, h4⟩ := h3.setLength hlen
  refine ⟨m4, ?_, h4⟩
  rw [bind_of_eq hrun1]
  exact (bind_of_eq hrun2).trans ((bind_of_eq hrun3).trans (bind_of_eq hrun4))

end HeapMem

end LinuxStudy.Hurlex
