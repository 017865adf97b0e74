import LinuxStudy.Lib.BlockList
import LinuxStudy.Hurlex.Headers

/-!
# The chunks of the hurlex heap

What `kmalloc` and `kfree` do to the list of chunks. `split_chunk` is left out here: it
  does not keep
the list linked.
-/

namespace LinuxStudy.Hurlex

open BlockList
open Proc (when_pos bind_of_eq when_neg)
open Chunk Proc

structure Heap (k : Kernel) (cs : List Chunk) : Prop where
  mem : HeapMem k cs
  tiles : Tiles Chunk.start Chunk.size 12 heapStart.toNat cs
  linked : Linked Chunk.addr Chunk.prev Chunk.next 0#32 cs 0#32
  fits : endOf Chunk.size heapStart.toNat cs ≤ k.heapMax.toNat
  first : k.heapFirst = headOr Chunk.addr 0#32 cs

/-- Address and length of the allocated chunks. -/
def used (cs : List Chunk) : List (Word × Word) :=
    (cs.filter (·.allocated)).map fun c => (c.addr, c.length)

section Used

variable {cs ds : List Chunk} {c : Chunk}

@[simp] theorem used_append : used (cs ++ ds) = used cs ++ used ds := by
  simp [used]

theorem used_cons_free (h : c.allocated = false) : used (c :: cs) = used cs := by
  simp [used, h]

theorem used_cons (h : c.allocated = true) : used (c :: cs) = (c.addr, c.length) :: used cs := by
  simp [used, h]

theorem used_congr {c' : Chunk} (haddr : c'.addr = c.addr) (hlen : c'.length = c.length)
    (halloc : c'.allocated = c.allocated) : used (c' :: cs) = used (c :: cs) := by
  simp only [used, List.filter_cons, halloc]
  cases c.allocated with
  | true => simp [haddr, hlen]
  | false => rfl

end Used

namespace Heap

variable {k : Kernel} {cs pre post : List Chunk} {b c d : Chunk}

/-! ### Addresses -/

theorem bounds (h : Heap k cs) (hc : c ∈ cs) : heapStart.toNat ≤ c.start ∧
    c.start + c.size ≤ k.heapMax.toNat ∧ 12 ≤ c.size := by
  obtain ⟨hlo, hhi, hsize⟩ := h.tiles.bounds hc
  exact ⟨hlo, hhi.trans h.fits, hsize⟩

theorem addr_ne_zero (h : Heap k cs) (hc : c ∈ cs) : c.addr ≠ 0#32 := by
  intro h0
  have hlo := (h.bounds hc).1
  rw [start, h0, show heapStart.toNat = 0xE0000000 from rfl] at hlo
  simp at hlo

/-- Two chunks that follow each other are far smaller than the length field allows. -/
theorem toNat_length_add (h : Heap k (pre ++ c :: d :: post)) :
    (c.length + d.length).toNat = c.size + d.size ∧ c.size + d.size < 2 ^ 31 := by
  obtain ⟨_, hpair, _⟩ := List.pairwise_append.mp h.tiles.pairwise
  have hcd := (List.pairwise_cons.mp hpair).1 d (by simp)
  have hc := (h.bounds (show c ∈ pre ++ c :: d :: post by simp)).1
  have hd := (h.bounds (show d ∈ pre ++ c :: d :: post by simp)).2.1
  rw [show heapStart.toNat = 0xE0000000 from rfl] at hc
  have hsum : c.size + d.size < 2 ^ 31 := by omega
  exact ⟨toNat_add (by rw [size, size] at hsum; omega), hsum⟩

theorem start_eq (h : Heap k (pre ++ c :: post)) : c.start = endOf Chunk.size heapStart.toNat pre :=
  (tiles_append.mp h.tiles).2.1

theorem next_eq (h : Heap k (pre ++ c :: post)) : c.next = headOr Chunk.addr 0#32 post :=
  (linked_append.mp h.linked).2.2.1

theorem prev_eq (h : Heap k (pre ++ c :: post)) : c.prev = lastOr Chunk.addr 0#32 pre :=
  (linked_append.mp h.linked).2.1

/-! ### glue_chunk -/

theorem setAllocated (h : Heap k (pre ++ c :: post)) (b : Bool) :
    ∃ mem, setAllocated c.addr (if b then 1#32 else 0#32) k = some ((), { k with mem := mem }) ∧
      Heap { k with mem := mem } (pre ++ { c with allocated := b } :: post) := by
  obtain ⟨mem, hrun, hmem⟩ := h.mem.setAllocated b
  refine ⟨mem, hrun, hmem, ?_, ?_, ?_, ?_⟩
  · have htiles := tiles_append.mp h.tiles
    exact tiles_append.mpr htiles
  · have hlinked := linked_append.mp h.linked
    exact linked_append.mpr hlinked
  · have hfits := h.fits
    rw [endOf_append] at hfits ⊢
    exact hfits
  · have hfirst := h.first
    rw [headOr_append] at hfirst ⊢
    exact hfirst

/-- The list after two chunks that follow each other have become one: `c` with the room of `d`, and
    the chunk after `d`, if there is one, linked to it. -/
theorem joined {mem : ByteMem} {post' : List Chunk} {len : Word} {n : Word}
    (h : Heap k (pre ++ c :: d :: post))
    (hmem : HeapMem { k with mem := mem } (pre ++ { c with length := len, next := n } :: post'))
    (hlen : len = c.length + d.length) (hn : n = headOr addr 0#32 post)
    (hpost : (post = [] ∧ post' = []) ∨ ∃ e rest, post = e :: rest ∧
      post' = { e with prev := c.addr } :: rest) :
    Heap { k with mem := mem } (pre ++ { c with length := len, next := n } :: post') := by
  obtain ⟨hsum, _⟩ := h.toNat_length_add
  have hsize : ({ c with length := len, next := n } : Chunk).size = c.size + d.size := by
    rw [← hsum, ← hlen]
    rfl
  obtain ⟨hpre, hstart, hleast, hdstart, hdleast, htiles⟩ := tiles_append.mp h.tiles
  obtain ⟨hlpre, hprev, _, _, _, hlinked⟩ := linked_append.mp h.linked
  have hfits := h.fits
  rw [endOf_append] at hfits
  refine ⟨hmem, tiles_append.mpr ⟨hpre, hstart, ?_, ?_⟩,
    linked_append.mpr ⟨hlpre, hprev, ?_, ?_⟩, ?_, ?_⟩
  · rw [hsize]
    exact hleast.trans (Nat.le_add_right ..)
  · rw [hsize, ← Nat.add_assoc]
    obtain ⟨rfl, rfl⟩ | ⟨e, rest, rfl, rfl⟩ := hpost
    · trivial
    · exact htiles
  · rw [hn]
    obtain ⟨rfl, rfl⟩ | ⟨e, rest, rfl, rfl⟩ := hpost
    · rfl
    · rfl
  · obtain ⟨rfl, rfl⟩ | ⟨e, rest, rfl, rfl⟩ := hpost
    · trivial
    · exact ⟨rfl, hlinked.2⟩
  · rw [endOf_append, endOf, hsize, ← Nat.add_assoc]
    obtain ⟨rfl, rfl⟩ | ⟨e, rest, rfl, rfl⟩ := hpost
    · exact hfits
    · exact hfits
  · have hfirst := h.first
    rw [headOr_append] at hfirst ⊢
    exact hfirst

theorem relink {mem : ByteMem} {xs : List Chunk} {p : Word}
    (hmem : HeapMem { k with mem := mem } (xs ++ post))
    (hne : ∀ e ∈ post, e.addr ≠ 0#32) : ∃ mem' post',
    Proc.when (headOr addr 0#32 post ≠ 0#32) (setPrev (headOr addr 0#32 post) p)
        { k with mem := mem } = some ((), { k with mem := mem' }) ∧
          HeapMem { k with mem := mem' } (xs ++ post') ∧
      ((post = [] ∧ post' = []) ∨ ∃ e rest, post = e :: rest ∧
      post' = { e with prev := p } :: rest) ∧ used post' = used post := by
  cases post with
  | nil => exact ⟨mem, [], rfl, hmem, .inl ⟨rfl, rfl⟩, rfl⟩
  | cons e rest =>
    obtain ⟨mem', hrun, hmem'⟩ := hmem.setPrev (w := p)
    refine ⟨mem', _, ?_, hmem', .inr ⟨e, rest, rfl, rfl⟩, ?_⟩
    · rw [headOr, when_pos (hne e (by simp))]
      exact hrun
    · exact used_congr rfl rfl rfl

/-- **Joining a chunk with a free one after it.** -/
theorem glueNext (h : Heap k (pre ++ c :: post)) (hfree : c.allocated = false) :
    ∃ mem c' post', glueNext c.addr k = some ((), { k with mem := mem }) ∧
      Heap { k with mem := mem } (pre ++ c' :: post') ∧ c'.addr = c.addr ∧ c'.allocated = false ∧
      used post' = used post := by
  have hnext := h.mem.next (show c ∈ pre ++ c :: post by simp)
  rw [Hurlex.glueNext, bind_of_eq hnext, h.next_eq]
  cases post with
  | nil => exact ⟨k.mem, c, [], rfl, h, rfl, hfree, rfl⟩
  | cons d post =>
    have hd : d ∈ pre ++ c :: d :: post := by simp
    rw [headOr, if_pos (h.addr_ne_zero hd), bind_of_eq (h.mem.allocated hd)]
    cases halloc : d.allocated with
    | true =>
      rw [if_neg (by rw [bit_eq_zero, halloc]; decide)]
      exact ⟨k.mem, c, d :: post, rfl, h, rfl, hfree, rfl⟩
    | false =>
      rw [if_pos (bit_eq_zero.mpr halloc), bind_of_eq (h.mem.length (by simp)),
        bind_of_eq (h.mem.length hd)]
      obtain ⟨hsum, hlt⟩ := h.toNat_length_add
      obtain ⟨m1, hrun1, hm1⟩ :=
        h.mem.setLength (show (c.length + d.length).toNat < 2 ^ 31 by omega)
      have hd1 : d ∈ pre ++ { c with length := c.length + d.length } :: d :: post := by simp
      have hdnext : d.next = headOr addr 0#32 post := by
        have h' : Heap k ((pre ++ [c]) ++ d :: post) := by simpa using h
        exact h'.next_eq
      have hne : ∀ e ∈ post, e.addr ≠ 0#32 := fun e he => h.addr_ne_zero (by simp [he])
      have hm1' : HeapMem { k with mem := m1 }
          ((pre ++ [{ c with length := c.length + d.length }, d]) ++ post) := by
        simpa using hm1
      obtain ⟨m2, post', hrun2, hm2, hpost, hused⟩ := relink hm1' hne (p := c.addr)
      have hm2' : HeapMem { k with mem := m2 }
          (pre ++ { c with length := c.length + d.length } :: d :: post') := by
        simpa using hm2
      obtain ⟨m3, hrun3, hm3⟩ := hm2'.setNext (w := d.next)
      have hsub : (pre ++ { c with length := c.length + d.length, next := d.next } :: post').Sublist
          (pre ++ { c with length := c.length + d.length, next := d.next } :: d :: post') :=
        (List.Sublist.cons_cons _ (List.sublist_cons_self ..)).append_left pre
      refine ⟨m3, _, post', ?_, h.joined (hm3.sublist hsub) rfl hdnext hpost, rfl, hfree, ?_⟩
      · rw [bind_of_eq hrun1, bind_of_eq (hm1.next hd1), hdnext, bind_of_eq hrun2,
          bind_of_eq (hm2'.next (c := d) (by simp))]
        exact hrun3
      · rw [hused, used_cons_free halloc]

/-- **Joining a free chunk with a free one before it.** -/
theorem gluePrev (h : Heap k (pre ++ c :: post)) (hfree : c.allocated = false) :
    ∃ mem pre' c' post', gluePrev c.addr k = some (c'.addr, { k with mem := mem }) ∧
      Heap { k with mem := mem } (pre' ++ c' :: post') ∧ c'.allocated = false ∧
      used pre' = used pre ∧ used post' = used post := by
  have hc : c ∈ pre ++ c :: post := by simp
  rw [Hurlex.gluePrev, bind_of_eq (h.mem.prev hc), h.prev_eq]
  rcases List.eq_nil_or_concat' pre with rfl | ⟨pre, b, rfl⟩
  · exact ⟨k.mem, [], c, post, rfl, h, hfree, rfl, rfl⟩
  have hb : b ∈ (pre ++ [b]) ++ c :: post := by simp
  rw [lastOr_append, lastOr, lastOr, if_pos (h.addr_ne_zero hb), bind_of_eq (h.mem.allocated hb)]
  cases halloc : b.allocated with
  | true =>
    rw [if_neg (by rw [bit_eq_zero, halloc]; decide)]
    exact ⟨k.mem, pre ++ [b], c, post, rfl, h, hfree, rfl, rfl⟩
  | false =>
    have hcprev : c.prev = b.addr := by
      rw [h.prev_eq, lastOr_append]
      rfl
    have hcnext := h.next_eq
    have hne : ∀ e ∈ post, e.addr ≠ 0#32 := fun e he => h.addr_ne_zero (by simp [he])
    rw [if_pos (bit_eq_zero.mpr halloc), bind_of_eq (h.mem.length hb), bind_of_eq (h.mem.length hc)]
    rw [List.append_assoc, List.singleton_append] at h
    obtain ⟨hsum, hlt⟩ := h.toNat_length_add
    obtain ⟨m1, hrun1, hm1⟩ := h.mem.setLength (show (b.length + c.length).toNat < 2 ^ 31 by omega)
    obtain ⟨m2, hrun2, hm2⟩ := hm1.setNext (w := c.next)
    have hm2' : HeapMem { k with mem := m2 }
        ((pre ++ [{ b with length := b.length + c.length, next := c.next }, c]) ++ post) := by
      simpa using hm2
    obtain ⟨m3, post', hrun3, hm3, hpost, hused⟩ := relink hm2' hne (p := b.addr)
    have hm3' : HeapMem { k with mem := m3 }
        (pre ++ { b with length := b.length + c.length, next := c.next } :: c :: post') := by
      simpa using hm3
    have hsub : (pre ++ { b with length := b.length + c.length, next := c.next } :: post').Sublist
        (pre ++ { b with length := b.length + c.length, next := c.next } :: c :: post') :=
      (List.Sublist.cons_cons _ (List.sublist_cons_self ..)).append_left pre
    refine ⟨m3, pre, _, post', ?_, h.joined (hm3'.sublist hsub) rfl hcnext hpost, halloc, ?_, hused⟩
    · have hprev2 := hm2.prev (show c ∈ _ by simp)
      rw [bind_of_eq hrun1, bind_of_eq (hm1.next (c := c) (by simp)), bind_of_eq hrun2,
        bind_of_eq (hm2.next (c := c) (by simp)), hcnext]
      have hwhen : Proc.when (headOr addr 0#32 post ≠ 0#32)
          (do setPrev (headOr addr 0#32 post) (← prev c.addr)) { k with mem := m2 } =
          some ((), { k with mem := m3 }) := by
        rw [← hrun3]
        by_cases h0 : headOr addr 0#32 post ≠ 0#32
        · rw [when_pos h0, when_pos h0, bind_of_eq hprev2, hcprev]
        · rw [when_neg h0, when_neg h0]
      rw [bind_of_eq hwhen, hm3'.prev (c := c) (by simp), hcprev]
    · rw [used_append, used_cons_free halloc]
      simp [used]

/-- **The last chunk is given back**, with the pages behind it. -/
theorem freeChunk (h : Heap k (pre ++ [c])) :
    ∃ k' pre', freeChunk c.addr k = some ((), k') ∧ Heap k' pre' ∧ used pre' = used pre := by
  have hc : c ∈ pre ++ [c] := by simp
  have hmax := k.heapMax.isLt
  have hcstart := h.start_eq
  obtain ⟨hclo, hchi, hcsize⟩ := h.bounds hc
  have hcle : c.addr.toNat ≤ k.heapMax.toNat := (Nat.le_add_right c.start c.size).trans hchi
  have hfuel : k.heapMax.toNat < c.addr.toNat + 4096 * (pageMaxSize + 1) := by
    rw [start, show heapStart.toNat = 0xE0000000 from rfl] at hclo
    rw [pageMaxSize]
    omega
  rw [Hurlex.freeChunk, bind_of_eq (h.mem.prev hc), h.prev_eq]
  rcases List.eq_nil_or_concat' pre with rfl | ⟨pre, b, rfl⟩
  · rw [lastOr, if_pos rfl]
    have hempty : HeapMem { k with heapFirst := 0#32 } [] :=
      (h.mem.sublist (List.nil_sublist _)).setFirst 0#32
    obtain ⟨k', hrun, hk', hle, hfirst⟩ := hempty.freeLoop (by simp) hclo hcle hfuel
    exact ⟨k', [], hrun, ⟨hk', trivial, trivial, hclo.trans hle, hfirst⟩, rfl⟩
  · have hb : b ∈ (pre ++ [b]) ++ [c] := by simp
    rw [lastOr_append, lastOr, lastOr, if_neg (h.addr_ne_zero hb)]
    obtain ⟨htpre, _⟩ := tiles_append.mp h.tiles
    obtain ⟨hlpre, _⟩ := linked_append.mp h.linked
    obtain ⟨hlpre', hbprev, _⟩ := linked_concat.mp hlpre
    have hmem : HeapMem k (pre ++ b :: [c]) := by simpa using h.mem
    obtain ⟨m1, hrun1, hm1⟩ := hmem.setNext (w := 0#32)
    have hsub :
        (pre ++ [{ b with next := 0#32 }]).Sublist (pre ++ { b with next := 0#32 } :: [c]) :=
      (List.Sublist.cons_cons _ (List.nil_sublist _)).append_left pre
    have htpre' : Tiles start size 12 heapStart.toNat (pre ++ [{ b with next := 0#32 }]) := by
      have hparts := tiles_append.mp htpre
      exact tiles_append.mpr hparts
    have hend : endOf size heapStart.toNat (pre ++ [{ b with next := 0#32 }]) = c.addr.toNat := by
      rw [← start, hcstart, endOf_append, endOf_append]
      rfl
    have hbelow : ∀ d ∈ pre ++ [{ b with next := 0#32 }], d.start + 12 ≤ c.addr.toNat := by
      intro d hd
      obtain ⟨_, hhi, hleast⟩ := htpre'.bounds hd
      omega
    obtain ⟨k', hrun, hk', hle, hfirst⟩ := (hm1.sublist hsub).freeLoop hbelow hclo hcle hfuel
    refine ⟨k', pre ++ [{ b with next := 0#32 }], ?_,
      ⟨hk', htpre', linked_concat.mpr ⟨hlpre', hbprev, rfl⟩, ?_, ?_⟩, ?_⟩
    · rw [bind_of_eq hrun1]
      exact hrun
    · rw [hend]
      exact hle
    · have hfirst0 := h.first
      rw [headOr_append, headOr_append] at hfirst0
      rw [hfirst, headOr_append]
      exact hfirst0
    · rw [used_append, used_append]
      exact congrArg _ (used_congr rfl rfl rfl)

/-- **`glue_chunk`** of a chunk just freed. -/
theorem glueChunk (h : Heap k (pre ++ c :: post)) (hfree : c.allocated = false) :
    ∃ k' cs', glueChunk c.addr k = some ((), k') ∧ Heap k' cs' ∧
    used cs' = used pre ++ used post := by
  obtain ⟨m1, c1, post1, hrun1, h1, haddr, hfree1, hused1⟩ := h.glueNext hfree
  obtain ⟨m2, pre2, c2, post2, hrun2, h2, hfree2, hpre2, hpost2⟩ := h1.gluePrev hfree1
  have hnext := h2.mem.next (show c2 ∈ pre2 ++ c2 :: post2 by simp)
  rw [Hurlex.glueChunk, bind_of_eq hrun1, ← haddr, bind_of_eq hrun2, bind_of_eq hnext, h2.next_eq]
  cases post2 with
  | nil =>
    obtain ⟨k', pre', hrun, hk', hused⟩ := h2.freeChunk
    refine ⟨k', pre', ?_, hk', ?_⟩
    · rw [headOr, if_pos rfl, hrun]
    · rw [hused, hpre2, ← hused1, ← hpost2, used, used, List.filter_nil, List.map_nil,
        List.append_nil]
  | cons d post2 =>
    refine ⟨_, _, ?_, h2, ?_⟩
    · rw [headOr, if_neg (h2.addr_ne_zero (show d ∈ pre2 ++ c2 :: d :: post2 by simp))]
      rfl
    · rw [used_append, used_cons_free hfree2, hpre2, hpost2, hused1]

/-- **`kfree`** of an allocated chunk. -/
theorem kfree (h : Heap k (pre ++ c :: post)) :
    ∃ k' cs', kfree (c.addr + headerSize) k = some ((), k') ∧ Heap k' cs' ∧
    used cs' = used pre ++ used post := by
  obtain ⟨m1, hrun1, h1⟩ := h.setAllocated false
  obtain ⟨k', cs', hrun, hk', hused⟩ := h1.glueChunk rfl
  refine ⟨k', cs', ?_, hk', hused⟩
  rw [Hurlex.kfree, BitVec.add_sub_cancel]
  exact (bind_of_eq hrun1).trans hrun

/-! ### kmalloc -/

end Heap

/-- The chunk is free and large enough. -/
def Chunk.fits (len : Word) (c : Chunk) : Bool := !c.allocated && decide (len ≤ c.length)

namespace Heap

variable {len : Word}

/-- **The search**, from some chunk on. -/
theorem findChunk (h : Heap k (pre ++ post)) {n : ℕ} (hn : post.length < n) :
    ∃ before, findChunk len n (headOr Chunk.addr 0#32 post) (lastOr Chunk.addr 0#32 pre) k =
        some ((headOr Chunk.addr 0#32 (post.find? (Chunk.fits len)).toList, before), k) ∧
      (post.find? (Chunk.fits len) = none → before = lastOr Chunk.addr 0#32 (pre ++ post)) := by
  induction post generalizing pre n with
  | nil =>
    obtain ⟨n, rfl⟩ : ∃ m, n = m + 1 := ⟨n - 1, by rw [List.length_nil] at hn; omega⟩
    refine ⟨_, ?_, fun _ => by rw [List.append_nil]⟩
    rw [Hurlex.findChunk, headOr, if_pos rfl]
    rfl
  | cons c post ih =>
    obtain ⟨n, rfl⟩ : ∃ m, n = m + 1 := ⟨n - 1, by omega⟩
    have hc : c ∈ pre ++ c :: post := by simp
    rw [Hurlex.findChunk, headOr, if_neg (h.addr_ne_zero hc), bind_of_eq (h.mem.allocated hc)]
    have hrest : Heap k ((pre ++ [c]) ++ post) := by simpa using h
    obtain ⟨before, hrun, hnone⟩ := ih hrest (n := n) (by rw [List.length_cons] at hn; omega)
    rw [lastOr_append, lastOr, lastOr, ← h.next_eq] at hrun
    -- the turn goes on to the next chunk unless this one fits
    have hgo : c.fits len = false → (do Hurlex.findChunk len n (← Hurlex.next c.addr) c.addr) k =
        some ((headOr Chunk.addr 0#32 ((c :: post).find? (Chunk.fits len)).toList, before), k) := by
      intro hfits
      rw [bind_of_eq (h.mem.next hc), hrun, List.find?_cons_of_neg (by rw [hfits]; decide)]
    cases halloc : c.allocated with
    | true =>
      have hfits : c.fits len = false := by simp [Chunk.fits, halloc]
      refine ⟨before, ?_, fun hfind => ?_⟩
      · rw [if_neg (by rw [bit_eq_zero, halloc]; decide)]
        exact hgo hfits
      · rw [hnone (by rwa [List.find?_cons_of_neg (by rw [hfits]; decide)] at hfind),
          List.append_assoc]
        rfl
    | false =>
      rw [if_pos (bit_eq_zero.mpr halloc), bind_of_eq (h.mem.length hc)]
      by_cases hlen : len ≤ c.length
      · have hfits : c.fits len = true := by simp [Chunk.fits, halloc, hlen]
        refine ⟨lastOr Chunk.addr 0#32 pre, ?_, fun hfind => ?_⟩
        · rw [if_pos hlen, List.find?_cons_of_pos hfits]
          rfl
        · rw [List.find?_cons_of_pos hfits] at hfind
          cases hfind
      · have hfits : c.fits len = false := by simp [Chunk.fits, halloc, hlen]
        refine ⟨before, ?_, fun hfind => ?_⟩
        · rw [if_neg hlen]
          exact hgo hfits
        · rw [hnone (by rwa [List.find?_cons_of_neg (by rw [hfits]; decide)] at hfind),
            List.append_assoc]
          rfl

theorem find (h : Heap k cs) (len : Word) : ∃ before,
    Hurlex.findChunk len (2 ^ 32) k.heapFirst 0#32 k =
      some ((headOr Chunk.addr 0#32 (cs.find? (Chunk.fits len)).toList, before), k) ∧
    (cs.find? (Chunk.fits len) = none → before = lastOr Chunk.addr 0#32 cs) := by
  have hlen := h.tiles.length_le
  have hfits := h.fits
  rw [h.first]
  have h' : Heap k ([] ++ cs) := h
  exact h'.findChunk (by omega)

/-- **`kmalloc` of a free chunk** that is not split. -/
theorem kmalloc_reuses {size : Word} (h : Heap k cs)
    (hfind : cs.find? (Chunk.fits (size + headerSize)) = some c)
    (hsplit : ¬ c.length - (size + headerSize) > headerSize) :
    ∃ mem pre post, cs = pre ++ c :: post ∧
    kmalloc size k = some (c.addr + headerSize, { k with mem := mem }) ∧
      Heap { k with mem := mem } (pre ++ { c with allocated := true } :: post) := by
  obtain ⟨before, hrun, _⟩ := h.find (size + headerSize)
  have hc := List.mem_of_find?_eq_some hfind
  obtain ⟨pre, post, rfl⟩ := List.append_of_mem hc
  obtain ⟨mem, hset, hmem⟩ := h.setAllocated true
  refine ⟨mem, pre, post, rfl, ?_, hmem⟩
  have hkeep : splitChunk c.addr (size + headerSize) k = some ((), k) := by
    rw [splitChunk, bind_of_eq (h.mem.length hc), if_neg hsplit]
    rfl
  rw [hfind, Option.toList_some, headOr] at hrun
  rw [Hurlex.kmalloc, bind_of_eq get_apply, bind_of_eq hrun]
  dsimp only
  rw [if_pos (h.addr_ne_zero hc), bind_of_eq hkeep]
  exact bind_of_eq hset

theorem chunkStart (h : Heap k (pre ++ [b])) :
    (b.addr + b.length).toNat = endOf Chunk.size heapStart.toNat (pre ++ [b]) := by
  have hb := (h.bounds (show b ∈ pre ++ [b] by simp)).2.1
  rw [toNat_add (by rw [start, size] at hb; omega), endOf_append, ← h.start_eq]
  rfl

theorem newStart (h : Heap k cs) : ∃ a k1, newStart (lastOr Chunk.addr 0#32 cs) k = some (a, k1) ∧
    a.toNat = endOf Chunk.size heapStart.toNat cs ∧ HeapMem k1 cs ∧ k1.heapMax = k.heapMax ∧
    k1.pmmStack = k.pmmStack ∧ k1.heapFirst = headOr Chunk.addr a cs := by
  rcases List.eq_nil_or_concat' cs with rfl | ⟨pre, b, rfl⟩
  · exact ⟨heapStart, { k with heapFirst := heapStart }, rfl, rfl, h.mem.setFirst heapStart,
      rfl, rfl, rfl⟩
  · have hb : b ∈ pre ++ [b] := by simp
    have hfirst := h.first
    refine ⟨b.addr + b.length, k, ?_, h.chunkStart, h.mem, rfl, rfl, ?_⟩
    · rw [lastOr_append, lastOr, lastOr, Hurlex.newStart, if_pos (h.addr_ne_zero hb),
        bind_of_eq (h.mem.length hb)]
      rfl
    · rw [headOr_append] at hfirst ⊢
      exact hfirst

theorem linkLast {k' : Kernel} {new : Chunk} (h : Heap k cs) (hmem : HeapMem k' (cs ++ [new])) :
    ∃ mem cs',
    Proc.when (lastOr Chunk.addr 0#32 cs ≠ 0#32) (setNext (lastOr Chunk.addr 0#32 cs) new.addr) k' =
        some ((), { k' with mem := mem }) ∧ HeapMem { k' with mem := mem } (cs' ++ [new]) ∧
      Tiles Chunk.start Chunk.size 12 heapStart.toNat cs' ∧
      Linked Chunk.addr Chunk.prev Chunk.next 0#32 cs' new.addr ∧
      endOf Chunk.size heapStart.toNat cs' = endOf Chunk.size heapStart.toNat cs ∧
      (∀ q, headOr Chunk.addr q cs' = headOr Chunk.addr q cs) ∧
      lastOr Chunk.addr 0#32 cs' = lastOr Chunk.addr 0#32 cs ∧ used cs' = used cs := by
  rcases List.eq_nil_or_concat' cs with rfl | ⟨pre, b, rfl⟩
  · exact ⟨k'.mem, [], rfl, hmem, trivial, trivial, rfl, fun _ => rfl, rfl, rfl⟩
  · rw [List.append_assoc] at hmem
    obtain ⟨mem, hrun, hmem'⟩ := hmem.setNext (w := new.addr)
    obtain ⟨hlinked, hprev, _⟩ := linked_concat.mp h.linked
    refine ⟨mem, pre ++ [{ b with next := new.addr }], ?_, ?_, ?_,
      linked_concat.mpr ⟨hlinked, hprev, rfl⟩, ?_, ?_, ?_, ?_⟩
    · rw [lastOr_append, lastOr, lastOr, when_pos (h.addr_ne_zero (by simp))]
      exact hrun
    · rw [List.append_assoc]
      exact hmem'
    · have htiles := tiles_append.mp h.tiles
      exact tiles_append.mpr htiles
    · rw [endOf_append, endOf_append]
      rfl
    · intro q
      rw [headOr_append, headOr_append]
      rfl
    · rw [lastOr_append, lastOr_append]
      rfl
    · rw [used_append, used_append]
      exact congrArg _ (used_congr rfl rfl rfl)

/-- **`kmalloc` of a new chunk** behind the others. -/
theorem kmalloc_extends {size : Word} (h : Heap k cs)
    (hfind : cs.find? (Chunk.fits (size + headerSize)) = none)
    (hroom : endOf Chunk.size heapStart.toNat cs + size.toNat + 12 < 2 ^ 32) :
    (kmalloc size k = none ∧
      k.heapMax.toNat + 4096 * (k.pmmStack.length / 2) < endOf Chunk.size heapStart.toNat cs +
    size.toNat + 12) ∨ ∃ a k' cs', kmalloc size k = some (a + headerSize, k') ∧ Heap k' cs' ∧
      used cs' = used cs ++ [(a, size + headerSize)] := by
  obtain ⟨before, hrun, hbefore⟩ := h.find (size + headerSize)
  obtain rfl := hbefore hfind
  obtain ⟨a, k1, hstart, ha, hk1, hmax, hstack, hfirst⟩ := h.newStart
  have hle : heapStart.toNat ≤ endOf Chunk.size heapStart.toNat cs := le_endOf
  have hlo : 0xE0000000 ≤ endOf Chunk.size heapStart.toNat cs := hle
  have hlen : (size + headerSize).toNat = size.toNat + 12 :=
    toNat_add (by rw [show headerSize.toNat = 12 from rfl]; omega)
  have hlimit :
      (a + (size + headerSize)).toNat = endOf Chunk.size heapStart.toNat cs + size.toNat + 12 := by
    rw [toNat_add (by omega), ha, hlen, Nat.add_assoc]
  rw [hfind, Option.toList_none, headOr] at hrun
  rw [Hurlex.kmalloc, bind_of_eq get_apply, bind_of_eq hrun]
  dsimp only
  rw [if_neg (not_not.mpr rfl), bind_of_eq hstart]
  have hbelow : ∀ c ∈ cs, c.start + 12 ≤ a.toNat := by
    intro c hc
    obtain ⟨_, hhi, hleast⟩ := h.tiles.bounds hc
    omega
  obtain ⟨hnone, hfew⟩ | ⟨k2, halloc, hk2, hle2, _, hfirst2⟩ : _ ∨ _ := hk1.allocChunk
  · refine .inl ⟨?_, ?_⟩
    · rw [bind_apply, hnone]
      rfl
    · rwa [hmax, hstack, hlimit] at hfew
  -- the header of the new chunk, then the link to it from the one before
  obtain ⟨m3, hrun3, hk3⟩ :=
    HeapMem.newChunk (lastOr Chunk.addr 0#32 cs) (size + headerSize) hk2 hbelow
    (ha ▸ hle) (by omega) (by omega)
  obtain ⟨m4, cs', hrun4, hk4, htiles, hlinked, hend, hhead, hlast, hused⟩ := h.linkLast hk3
  refine .inr
    ⟨a, { k2 with mem := m4 },
      cs' ++ [⟨a, lastOr Chunk.addr 0#32 cs, 0#32, true, size + headerSize⟩],
    ?_, ⟨hk4, ?_, ?_, ?_, ?_⟩, ?_⟩
  · rw [bind_of_eq halloc, hrun3, bind_of_eq hrun4]
    rfl
  · refine tiles_append.mpr ⟨htiles, ?_, ?_, trivial⟩
    · rw [hend, ← ha]
      rfl
    · show 12 ≤ (size + headerSize).toNat
      omega
  · exact linked_concat.mpr ⟨hlinked, hlast.symm, rfl⟩
  · rw [endOf_append, hend, endOf, endOf]
    show _ + (size + headerSize).toNat ≤ k2.heapMax.toNat
    omega
  · rw [headOr_append, hhead]
    exact hfirst2.trans hfirst
  · rw [used_append, hused]
    rfl

end Heap

end LinuxStudy.Hurlex
