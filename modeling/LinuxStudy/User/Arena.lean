import LinuxStudy.User.MallocInv

/-!
# The arena of malloc

`malloc` hands out addresses between `mbegin` and `mend`. Its cursor `mptr` is compared with `mend`
only for equality and only in the search for new pages, so this rests on the cursor never being
`mend` when a search starts; and the size is rounded up before it is compared with `MAXMALLOC`, so
the largest sizes become 0.
-/

namespace LinuxStudy.User

open Jos Heap

/-- The state in which `malloc(n)` starts to look for new pages, when it gets there. -/
def Heap.searchFrom (h : Heap) (n : ℕ) : Option Heap :=
  let h := if h.mptr = 0 then h.setMptr mbegin else h
  if maxMalloc ≤ roundup4 n then none
  else if h.mptr % 4096 ≠ 0 then
    if h.mptr / 4096 = (h.mptr + roundup4 n - 1 + 4) % 2 ^ 32 / 4096 then none
    else (h.free h.mptr).map fun g => g.setMptr ((h.mptr + 4096) % 2 ^ 32 / 4096 * 4096)
  else some h

inductive AllocStep : Prog → HeapOp → Prog → Prop
  | malloc {s : Prog} {avail : ℕ → Bool} {n v : ℕ} {h : Heap} (hn : n < 2 ^ 32)
      (hs : s.heap.malloc avail n = some (v, h)) :
      AllocStep s (.malloc n) ⟨h, if v = 0 then s.live else ⟨v, n⟩ :: s.live⟩
  | free {s : Prog} {b : Block} {h : Heap} (hb : b ∈ s.live) (hs : s.heap.free b.addr = some h) :
      AllocStep s (.free b.addr) ⟨h, s.live.erase b⟩

/-- The size does not wrap when it is rounded up, and no search starts at `mend`, which it does when
    the cursor is in the last page of the arena and the block does not fit there. -/
def Roomy (h : Heap) : HeapOp → Prop
  | .malloc n => n ≤ 0xfffffffc ∧ ∀ g, h.searchFrom n = some g → g.mptr ≠ mend
  | _ => True

/-- The cursor is not set or in the arena. -/
def InArena (h : Heap) : Prop := h.mptr = 0 ∨ mbegin ≤ h.mptr ∧ h.mptr < mend

section

variable {h h' g : Heap} {n v : ℕ} {avail : ℕ → Bool}

theorem malloc_of_searchFrom (hg : h.searchFrom n = some g) :
    h.malloc avail n = g.mallocPages avail (roundup4 n) := by
  rw [searchFrom] at hg
  rw [malloc]
  generalize (if h.mptr = 0 then h.setMptr mbegin else h) = h1 at *
  split_ifs at hg ⊢ with hmax hopen hfit
  · obtain ⟨h2, hfree, rfl⟩ := Option.map_eq_some_iff.mp hg
    rw [hfree, Option.bind_some]
  · rw [Option.some.inj hg]

namespace InArena

theorem opened (ha : InArena h) : mbegin ≤ (if h.mptr = 0 then h.setMptr mbegin else h).mptr ∧
    (if h.mptr = 0 then h.setMptr mbegin else h).mptr < mend := by
  split_ifs with hz
  · exact ⟨le_rfl, by rw [setMptr_mptr]; decide⟩
  · exact ha.resolve_left hz

theorem searchFrom (ha : InArena h) (hg : h.searchFrom n = some g) :
    roundup4 n < maxMalloc ∧ g.mptr % 4096 = 0 ∧ mbegin ≤ g.mptr ∧ g.mptr ≤ mend := by
  have hopened := ha.opened
  rw [Heap.searchFrom] at hg
  generalize (if h.mptr = 0 then h.setMptr mbegin else h) = h1 at *
  rw [mbegin, mend] at *
  split_ifs at hg with hmax hopen hfit
  · obtain ⟨h2, -, rfl⟩ := Option.map_eq_some_iff.mp hg
    rw [setMptr_mptr]
    omega
  · cases hg
    omega

/-- **The search ends.** Two sweeps of the arena are enough for it. -/
theorem search (ha : InArena h) (hg : h.searchFrom n = some g) (hroom : g.mptr ≠ mend)
    (avail : ℕ → Bool) :
    ∃ m found, g.search (roundup4 n) (2 * ((mend - mbegin) / 4096)) g.mptr 0 = some (m, found) ∧
      g.search (roundup4 n) searchFuel g.mptr 0 = some (m, found) ∧ mbegin ≤ m ∧ m < mend ∧
      (found = false → h.malloc avail n = some (0, g.setMptr mbegin)) := by
  obtain ⟨-, halign, hlo, hhi⟩ := ha.searchFrom hg
  have hlt : g.mptr < mend := lt_of_le_of_ne hhi hroom
  have hlt32 : g.mptr < 2 ^ 32 := hlt.trans (by decide)
  have hfuel : toMend g.mptr + (1 - 0) * 2 ^ 15 < 2 * ((mend - mbegin) / 4096) := by
    rw [mbegin, mend] at *
    rw [toMend, mend]
    omega
  obtain ⟨⟨m, found⟩, hr⟩ := search_total halign hlt32 Nat.zero_lt_two hfuel
  obtain ⟨-, -, -, hbegin, hm⟩ := search_spec halign hlt32 hr
  have hr' := search_mono hr (show _ ≤ searchFuel by decide)
  refine ⟨m, found, hr, hr', (hm hlo hlt).1, (hm hlo hlt).2, ?_⟩
  rintro rfl
  rw [malloc_of_searchFrom hg, mallocPages, hr', Option.map_some, if_neg (by rintro ⟨⟩), hbegin rfl]

/-- One call: the cursor stays in the arena, and so does the block. -/
theorem malloc (ha : InArena h) (hroom : Roomy h (.malloc n))
    (hm : h.malloc avail n = some (v, h')) :
    InArena h' ∧ (v ≠ 0 → mbegin ≤ v ∧ v + n ≤ mend ∧
      ∀ a, v ≤ a → a < v + n → h'.pte (a / 4096) ≠ none) := by
  obtain ⟨hn, hroom⟩ := hroom
  have hround : n ≤ roundup4 n := by
    rw [roundup4]
    omega
  cases hg : h.searchFrom n with
  | some g =>
    obtain ⟨hmax, halign, hlo, hhi⟩ := ha.searchFrom hg
    obtain ⟨m, found, -, hsearch, hmlo, hmhi, -⟩ := ha.search hg (hroom g hg) avail
    rw [malloc_of_searchFrom hg] at hm
    obtain ⟨q, ⟨found', hq⟩, hcases⟩ := mallocPages_spec halign (hhi.trans_lt (by decide)) hmax hm
    cases hsearch.symm.trans hq
    rcases hcases with ⟨rfl, -, hmptr⟩ | ⟨rfl, hnew⟩
    · exact ⟨.inr (by rw [hmptr]; exact ⟨hmlo, hmhi⟩), fun hv => absurd rfl hv⟩
    · have hlow := hnew.low
      have hpages : pagesFor (roundup4 n) = (roundup4 n + 4 + 4095) / 4096 := rfl
      rw [mend] at *
      refine ⟨.inr ?_, fun _ => ⟨hmlo, by omega, fun a h1 h2 => ?_⟩⟩
      · rw [hnew.mptr, mend]
        omega
      · rw [hnew.pte, if_pos (by omega)]
        rintro ⟨⟩
  | none =>
    have hopened := ha.opened
    rw [Heap.searchFrom] at hg
    rw [Heap.malloc] at hm
    generalize (if h.mptr = 0 then h.setMptr mbegin else h) = h₁ at *
    split_ifs at hg hm with hmax hopen hfit
    · cases hm
      exact ⟨.inr hopened, fun hv => absurd rfl hv⟩
    · -- the rest of the open page, which is mapped because its count has been written
      obtain ⟨cont, hpte, heq⟩ := Option.map_eq_some_iff.mp hm
      cases heq
      rw [mbegin, mend, maxMalloc] at *
      refine ⟨.inr ?_, fun _ => ⟨hopened.1, by omega, fun a h1 h2 => ?_⟩⟩
      · rw [setMptr_mptr, mbegin, mend]
        omega
      · rw [setMptr_pte, setRef_pte, show a / 4096 = h₁.mptr / 4096 by omega, hpte]
        rintro ⟨⟩
    · rw [Option.map_eq_none_iff.mp hg] at hm
      cases hm

theorem step {s s' : Prog} {op : HeapOp} (ha : InArena s.heap) (hroom : Roomy s.heap op)
    (hs : AllocStep s op s') : InArena s'.heap := by
  cases hs with
  | malloc hn hm => exact (ha.malloc hroom hm).1
  | @free b h hb hfree =>
    have hmptr : h.mptr = s.heap.mptr := by
      rcases eq_or_ne b.addr 0 with hz | hz
      · rw [Heap.free, if_pos hz] at hfree
        rw [Option.some.inj hfree]
      · obtain ⟨-, -, f, -, hd⟩ := free_drops hz hfree
        exact hd.mptr
    rw [InArena, hmptr]
    exact ha

end InArena

end

/-- In every state that is reached by roomy calls of `malloc` and by freeing live blocks: the search
    of another roomy call ends after at most two sweeps of the arena, and the call returns 0 when it
    has found nothing; and any block that the call returns lies in the arena with all its bytes
    mapped. -/
theorem malloc_in_arena {pte₀ : ℕ → Option Bool} {mem : ℕ → Word} {ops : List HeapOp} {s : Prog}
    {n : ℕ} (hrun : Run (fun a op b => AllocStep a op b ∧ Roomy a.heap op) (.init pte₀ mem) ops s)
    (hroom : Roomy s.heap (.malloc n)) (avail : ℕ → Bool) :
    (∀ g, s.heap.searchFrom n = some g → ∃ m found,
      g.search (roundup4 n) (2 * ((mend - mbegin) / 4096)) g.mptr 0 = some (m, found) ∧
      g.search (roundup4 n) searchFuel g.mptr 0 = some (m, found) ∧
      (found = false → ∃ h, s.heap.malloc avail n = some (0, h))) ∧
    ∀ v h, s.heap.malloc avail n = some (v, h) → v ≠ 0 →
      mbegin ≤ v ∧ v + n ≤ mend ∧ ∀ a, v ≤ a → a < v + n → h.pte (a / 4096) ≠ none := by
  have ha : InArena s.heap := hrun.invariant (fun s => InArena s.heap) (.inl rfl)
    fun _ _ _ ha hstep => ha.step hstep.2 hstep.1
  refine ⟨fun g hg => ?_, fun v h hm => (ha.malloc hroom hm).2⟩
  obtain ⟨m, found, h1, h2, -, -, h3⟩ := ha.search hg (hroom.2 g hg) avail
  exact ⟨m, found, h1, h2, fun hf => ⟨_, h3 hf⟩⟩

/-- The first block, of 8 bytes, in an empty address space. -/
theorem malloc_in_arena_first :
    ∃ v h, Heap.malloc (fun _ => true) 8 ⟨0, fun _ => none, fun _ => 0⟩ = some (v, h) ∧ v ≠ 0 ∧
      mbegin ≤ v ∧ v + 8 ≤ mend ∧ ∀ a, v ≤ a → a < v + 8 → h.pte (a / 4096) ≠ none := by
  obtain ⟨h, hm, -⟩ := malloc_first (show roundup4 8 + 4 ≤ 4096 by decide)
  have hroom : Roomy (Prog.init (fun _ => none) fun _ => 0).heap (.malloc 8) := by
    refine ⟨by decide, fun g hg => ?_⟩
    cases hg
    decide
  have hblock := (malloc_in_arena (.nil _) hroom fun _ => true).2 mbegin h hm (by decide)
  exact ⟨mbegin, h, hm, by decide, hblock⟩

/-- A request for nearly 4 GB gets a page: the size wraps to 0 when it is rounded up. -/
theorem malloc_size_wraps :
    ∃ h, Heap.malloc (fun _ => true) 0xfffffffd ⟨0, fun _ => none, fun _ => 0⟩ = some (mbegin, h) ∧
      mbegin ≠ 0 ∧ mend < mbegin + 0xfffffffd := by
  obtain ⟨h, hm, -⟩ := malloc_first (show roundup4 0xfffffffd + 4 ≤ 4096 by decide)
  exact ⟨h, hm, by decide, by decide⟩

end LinuxStudy.User
