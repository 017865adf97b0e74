import LinuxStudy.User.Arena

/-!
# malloc gives its pages back

As long as no block fills its pages to the end, the counts of the pages are exact: `mptr` lets go of
its page when it moves on, and a page without blocks goes with the last reference. A block whose
size is a multiple of the page size leaves `mptr` at the start of a page, where `malloc` sees no
page to let go of.
-/

namespace LinuxStudy.User

open Jos Heap

/-- A size that is rounded up to no multiple of the page size, or one that is refused. -/
def Uneven : HeapOp → Prop
  | .malloc n => roundup4 n % 4096 ≠ 0 ∨ maxMalloc ≤ roundup4 n
  | _ => True

/-- A call or a store of the program, with an uneven size. -/
def UnevenStep (s : Prog) (op : HeapOp) (s' : Prog) : Prop :=
  (AllocStep s op s' ∨ HeapStep s op s') ∧ Uneven op

/-- The references to a page: of the blocks that end in it, and of `mptr`. -/
def Prog.uses (s : Prog) (p : ℕ) : ℕ := s.live.countP (fun b => b.fin = p) + openRef s.heap p

theorem Prog.uses_mk (h : Heap) (live : List Block) (p : ℕ) :
    Prog.uses ⟨h, live⟩ p = live.countP (fun b => b.fin = p) + openRef h p := rfl

/-- Every page of the arena that was mapped by `malloc` is there for a block or for `mptr`. -/
structure Exact (pte₀ : ℕ → Option Bool) (s : Prog) : Prop extends HeapInv pte₀ s where
  counted : ∀ p, mbegin / 4096 ≤ p → pte₀ p = none → s.heap.pte p = some false →
    (s.heap.ref p).toNat = s.uses p ∧ 0 < s.uses p
  marked : ∀ p, mbegin / 4096 ≤ p → pte₀ p = none → s.heap.pte p = some true →
    ∃ b ∈ s.live, b.addr / 4096 ≤ p ∧ p < b.fin

namespace Exact

variable {pte₀ : ℕ → Option Bool} {s : Prog} {h' : Heap} {b : Block} {live : List Block} {n m : ℕ}

theorem init (pte₀ : ℕ → Option Bool) (mem : ℕ → Word) : Exact pte₀ (.init pte₀ mem) where
  toHeapInv := .init pte₀ mem
  counted p _ h hp := by
    rw [show pte₀ p = some false from hp] at h
    cases h
  marked p _ h hp := by
    rw [show pte₀ p = some true from hp] at h
    cases h

section

variable (he : Exact pte₀ s)
include he

theorem kept (halign : s.heap.mptr % 4096 = 0) (hk : Kept s.heap h') : Exact pte₀ ⟨h', s.live⟩ := by
  have huses : ∀ p, Prog.uses ⟨h', s.live⟩ p = s.uses p := fun p => by
    rw [Prog.uses_mk, Prog.uses, openRef, openRef, if_neg fun h => h.1 hk.align,
      if_neg fun h => h.1 halign]
  refine ⟨he.toHeapInv.kept hk, fun p hlo hp hpte => ?_, fun p hlo hp hpte => ?_⟩
  · have hpte : s.heap.pte p = some false := (hk.pte p).symm.trans hpte
    rw [huses, show h'.ref p = s.heap.ref p from hk.refs p (by rw [hpte]; rintro ⟨⟩)]
    exact he.counted p hlo hp hpte
  · exact he.marked p hlo hp ((hk.pte p).symm.trans hpte)

/-- **Dropping a reference**, and with it the marked pages of the block that had it. -/
theorem drop {c f : ℕ} (hd : Drops s.heap c f h') (hinv : HeapInv pte₀ ⟨h'.setMptr m, live⟩)
    (hcount : ∀ p, Prog.uses ⟨h'.setMptr m, live⟩ p + (if p = f then 1 else 0) = s.uses p)
    (hlive : ∀ b ∈ s.live, b ∈ live ∨ c ≤ b.addr / 4096 ∧ b.fin ≤ f) :
    Exact pte₀ ⟨h'.setMptr m, live⟩ := by
  have hout : ∀ p x, p ≠ f → h'.pte p = some x → ¬ (c ≤ p ∧ p < f) ∧ s.heap.pte p = some x := by
    intro p x hne hp
    have hin : ¬ (c ≤ p ∧ p < f) := fun hin => by
      rw [hd.gone p hin.1 hin.2] at hp
      cases hp
    exact ⟨hin, (hd.same p (by omega)).symm.trans hp⟩
  refine ⟨hinv, fun p hlo hp hpte => ?_, fun p hlo hp hpte => ?_⟩
  · have hc := hcount p
    show (h'.ref p).toNat = _ ∧ _
    rcases eq_or_ne p f with rfl | hne
    · -- the page is still there, so this was not the last reference
      have hmem : h'.ref p = s.heap.ref p - 1 := by rw [Heap.ref, hd.mem, Function.update_self]
      have hleft : (s.heap.ref p - 1).toNat ≠ 0 := by
        intro hz
        have hgone := hd.dropped
        rw [if_pos (BitVec.eq_of_toNat_eq hz), show h'.pte p = some false from hpte] at hgone
        cases hgone
      obtain ⟨href, hpos⟩ := he.counted p hlo hp hd.last
      have hsub : (s.heap.ref p - 1).toNat = (s.heap.ref p).toNat - 1 := by
        refine BitVec.toNat_sub_of_le ?_
        rw [BitVec.le_def]
        show 1 ≤ _
        omega
      rw [if_pos rfl] at hc
      rw [hmem]
      omega
    · rw [if_neg hne, Nat.add_zero] at hc
      rw [hd.ref_ne hne, hc]
      exact he.counted p hlo hp (hout p false hne hpte).2
  · have hne : p ≠ f := by
      rintro rfl
      have hno := hd.dropped.symm.trans hpte
      split_ifs at hno
      cases hno
    obtain ⟨hin, hpte⟩ := hout p true hne hpte
    obtain ⟨b, hb, h1, h2⟩ := he.marked p hlo hp hpte
    rcases hlive b hb with hb | ⟨hc, hf⟩
    · exact ⟨b, hb, h1, h2⟩
    · omega

theorem free (hb : b ∈ s.live) (hfree : s.heap.free b.addr = some h') :
    Exact pte₀ ⟨h', s.live.erase b⟩ := by
  have hok := he.blocks b hb
  obtain ⟨-, -, f, -, hd⟩ := free_drops hok.nonnull hfree
  obtain rfl := hok.fin_eq hd.le hd.cont hd.last
  refine he.drop (m := h'.mptr) hd (he.toHeapInv.free hb hfree) (fun p => ?_) fun b' hb' => ?_
  · have hopen : openRef (h'.setMptr h'.mptr) p = openRef s.heap p := by
      rw [openRef, openRef, setMptr_mptr, hd.mptr]
    rw [Prog.uses_mk, Prog.uses, hopen, countP_fin_erase hb]
    omega
  · rcases eq_or_ne b' b with rfl | hne
    · exact .inr ⟨le_rfl, le_rfl⟩
    · exact .inl ((List.mem_erase_of_ne hne).mpr hb')

theorem close (hne : s.heap.mptr % 4096 ≠ 0) (hfree : s.heap.free s.heap.mptr = some h')
    (halign : m % 4096 = 0) (hlt : m < 2 ^ 32) : Exact pte₀ ⟨h'.setMptr m, s.live⟩ := by
  refine he.drop (he.drops_open hne hfree) (he.toHeapInv.close hne hfree halign hlt) (fun p => ?_)
    fun b hb => .inl hb
  rw [Prog.uses_mk, HeapInv.openRef_aligned halign, HeapInv.openRef_close hne]
  rfl

theorem newPages {q : ℕ} (halign : s.heap.mptr % 4096 = 0) (hpos : 0 < n) (hn : n < maxMalloc)
    (huneven : roundup4 n % 4096 ≠ 0) (hnew : NewPages s.heap (roundup4 n) q h') :
    Exact pte₀ ⟨h', if q * 4096 = 0 then s.live else ⟨q * 4096, n⟩ :: s.live⟩ := by
  obtain ⟨hr4, -, hlt4⟩ := roundup4_spec hn
  obtain ⟨hlast, hq, -, hunmapped, hcount⟩ := HeapInv.newPages_last hr4 hnew
  have hmptr := hnew.mptr
  have hfin : (⟨q * 4096, n⟩ : Block).fin = h'.mptr / 4096 := by
    rw [Block.fin, Block.stop, hmptr]
  -- address 0 counts as a failure, but it is not in the arena
  have hnz : ∀ p, mbegin / 4096 ≤ p → p ≤ h'.mptr / 4096 → q * 4096 ≠ 0 := by
    intro p hlo hp
    rw [mbegin] at hlo
    rw [maxMalloc] at hn
    omega
  refine ⟨he.toHeapInv.newPages hpos hn hnew, fun p hlo hp hpte => ?_, fun p hlo hp hpte => ?_⟩
  · rcases eq_or_ne p (h'.mptr / 4096) with rfl | hne
    · have hnone : s.live.countP (fun b => b.fin = h'.mptr / 4096) = 0 := by
        refine List.countP_eq_zero.mpr fun b hb heq => ?_
        have hmapped := (he.blocks b hb).last.1
        rw [of_decide_eq_true heq, hunmapped] at hmapped
        cases hmapped
      have hopen : openRef h' (h'.mptr / 4096) = 1 := if_pos ⟨by omega, rfl⟩
      rw [if_neg (hnz _ hlo le_rfl), Prog.uses, List.countP_cons, hnone, hopen, hfin,
        if_pos (by simp), hcount]
      decide
    · obtain ⟨hpte, href⟩ := HeapInv.newPages_old hr4 hnew hpte hne
      have huses : Prog.uses ⟨h', if q * 4096 = 0 then s.live else ⟨q * 4096, n⟩ :: s.live⟩
          p = s.uses p := by
        have hopen : openRef h' p = 0 := if_neg fun h => hne h.2.symm
        have hopen0 : openRef s.heap p = 0 := if_neg fun h => h.1 halign
        rw [Prog.uses_mk, Prog.uses, hopen, hopen0]
        split_ifs
        · rfl
        · rw [List.countP_cons_of_neg (by simpa [hfin] using Ne.symm hne)]
      rw [huses, href]
      exact he.counted p hlo hp hpte
  · have hpte := (hnew.pte p).symm.trans hpte
    split_ifs at hpte with hin
    · have hlt := of_decide_eq_true (Option.some.inj hpte)
      rw [if_neg (hnz p hlo (by omega))]
      exact ⟨_, List.mem_cons_self, by dsimp only; omega, by rw [hfin]; omega⟩
    · obtain ⟨b, hb, hrange⟩ := he.marked p hlo hp hpte
      refine ⟨b, ?_, hrange⟩
      split_ifs
      · exact hb
      · exact List.mem_cons_of_mem _ hb

theorem small (hpos : 0 < n) (hn : n < maxMalloc) (hne : s.heap.mptr % 4096 ≠ 0)
    (hfit : s.heap.mptr / 4096 = (s.heap.mptr + roundup4 n - 1 + 4) % 2 ^ 32 / 4096) :
    Exact pte₀ ⟨(s.heap.setRef (s.heap.mptr / 4096) (s.heap.ref (s.heap.mptr / 4096) + 1)).setMptr
      ((s.heap.mptr + roundup4 n) % 2 ^ 32), ⟨s.heap.mptr, n⟩ :: s.live⟩ := by
  obtain ⟨hmod, hfin, href, hopen⟩ := he.small_spec hn hne hfit
  refine ⟨he.toHeapInv.small hpos hn hne hfit, fun p hlo hp hpte => ?_, fun p hlo hp hpte => ?_⟩
  · obtain ⟨hold, hpos⟩ := he.counted p hlo hp hpte
    rw [Prog.uses] at hold hpos
    rw [Prog.uses, hmod, hopen, setMptr_ref, List.countP_cons, hfin]
    rcases eq_or_ne p (s.heap.mptr / 4096) with rfl | hp
    · rw [setRef_ref_self, href, if_pos (by simp)]
      omega
    · rw [setRef_ref_ne _ _ fun h => hp (refWord_inj h), if_neg (by simpa using Ne.symm hp)]
      exact ⟨hold, hpos⟩
  · obtain ⟨b, hb, hrange⟩ := he.marked p hlo hp hpte
    exact ⟨b, List.mem_cons_of_mem _ hb, hrange⟩

theorem mallocPages {avail : ℕ → Bool} {v : ℕ} (hpos : 0 < n) (hn : n < maxMalloc)
    (hround : roundup4 n < maxMalloc) (huneven : roundup4 n % 4096 ≠ 0)
    (halign : s.heap.mptr % 4096 = 0)
    (hm : s.heap.mallocPages avail (roundup4 n) = some (v, h')) :
    Exact pte₀ ⟨h', if v = 0 then s.live else ⟨v, n⟩ :: s.live⟩ := by
  obtain ⟨q, -, ⟨rfl, hkept, -⟩ | ⟨rfl, hnew⟩⟩ := mallocPages_spec halign he.mptr_lt hround hm
  · exact he.kept halign hkept
  · exact he.newPages halign hpos hn huneven hnew

theorem malloc {avail : ℕ → Bool} {v : ℕ} (hlt : n < 2 ^ 32) (huneven : Uneven (.malloc n))
    (hm : s.heap.malloc avail n = some (v, h')) :
    Exact pte₀ ⟨h', if v = 0 then s.live else ⟨v, n⟩ :: s.live⟩ := by
  obtain ⟨h1, hh1, he1, hnz⟩ : ∃ h1,
    (if s.heap.mptr = 0 then s.heap.setMptr mbegin else s.heap) = h1 ∧
      Exact pte₀ ⟨h1, s.live⟩ ∧ h1.mptr ≠ 0 := by
    split_ifs with hz
    · exact ⟨_, rfl,
        he.kept (by rw [hz]) ⟨fun _ => rfl, fun _ _ => rfl, (by decide : mbegin % 4096 = 0),
        (by decide : mbegin < 2 ^ 32)⟩, by rw [setMptr_mptr]; decide⟩
    · exact ⟨_, rfl, he, hz⟩
  rw [Heap.malloc, hh1] at hm
  split_ifs at hm with hmax hopen hfit
  · cases hm
    exact he1
  all_goals
    have huneven := huneven.resolve_right hmax
    have hsize : 0 < n ∧ n < maxMalloc := by
      rw [roundup4] at huneven hmax
      omega
  · obtain ⟨_, -, heq⟩ := Option.map_eq_some_iff.mp hm
    cases heq
    rw [if_neg hnz]
    exact he1.small hsize.1 hsize.2 hopen hfit
  · obtain ⟨h2, hfree, hm⟩ := Option.bind_eq_some_iff.mp hm
    have he2 :=
      he1.close (m := (h1.mptr + 4096) % 2 ^ 32 / 4096 * 4096) hopen hfree (by omega) (by omega)
    exact he2.mallocPages hsize.1 hsize.2 (not_le.mp hmax) huneven (Nat.mul_mod_left _ _) hm
  · exact he1.mallocPages hsize.1 hsize.2 (not_le.mp hmax) huneven (not_not.mp hopen) hm

theorem step {op : HeapOp} {s' : Prog} (hs : UnevenStep s op s') : Exact pte₀ s' := by
  obtain ⟨hs | hs, huneven⟩ := hs
  · cases hs with
    | malloc hn hm => exact he.malloc hn huneven hm
    | free hb hfree => exact he.free hb hfree
  · cases hs with
    | malloc _ hn hm => exact he.malloc (hn.trans (by decide)) huneven hm
    | free hb hfree => exact he.free hb hfree
    | store hb hlo hhi =>
      refine ⟨he.toHeapInv.store hb hlo hhi, fun p h1 h2 hpte => ?_, he.marked⟩
      rw [he.ref_store hb hlo hhi hpte]
      exact he.counted p h1 h2 hpte

end

end Exact

/-- **All memory is returned.** In every run of `malloc`, `free` and stores to live blocks in which
    no size is rounded up to a multiple of the page size: when no block is live, a page of the arena
    that `malloc` has mapped is the one `mptr` points into. -/
theorem heap_pages_returned {pte₀ : ℕ → Option Bool} {mem : ℕ → Word} {ops : List HeapOp} {s : Prog}
    (hrun : Run UnevenStep (.init pte₀ mem) ops s) (hlive : s.live = []) {p : ℕ}
    (hlo : mbegin / 4096 ≤ p) (hp : s.heap.pte p ≠ none) (hp' : pte₀ p = none) :
    s.heap.mptr % 4096 ≠ 0 ∧ s.heap.mptr / 4096 = p := by
  have he : Exact pte₀ s :=
    hrun.invariant (Exact pte₀) (.init pte₀ mem) fun _ _ _ he hs => he.step hs
  rcases hpte : s.heap.pte p with _ | ⟨_ | _⟩
  · exact absurd hpte hp
  · obtain ⟨-, hpos⟩ := he.counted p hlo hp' hpte
    rw [Prog.uses, hlive, List.countP_nil, Nat.zero_add, openRef] at hpos
    by_contra hno
    rw [if_neg hno] at hpos
    exact absurd hpos (lt_irrefl 0)
  · obtain ⟨b, hb, -⟩ := he.marked p hlo hp' hpte
    rw [hlive] at hb
    cases hb

/-- A block of 8 bytes, which is freed again. -/
theorem heap_pages_returned_eight : ∃ s, Run UnevenStep (.init (fun _ => none) fun _ => 0)
    [.malloc 8, .free mbegin] s ∧ s.live = [] ∧ s.heap.pte 0x8000 = some false ∧
      s.heap.mptr % 4096 ≠ 0 ∧ s.heap.mptr / 4096 = 0x8000 := by
  have hcalls : ((Heap.malloc (fun _ => true) 8 ⟨0, fun _ => none, fun _ => 0⟩).bind fun r =>
      (r.2.free mbegin).map fun h => h.pte 0x8000) = some (some false) := by decide
  obtain ⟨h, hm, -⟩ := malloc_first (show roundup4 8 + 4 ≤ 4096 by decide)
  rw [hm] at hcalls
  obtain ⟨h', hfree, hpte⟩ := Option.map_eq_some_iff.mp hcalls
  have h₁ : UnevenStep (.init (fun _ => none) fun _ => 0) (.malloc 8) _ :=
    ⟨.inl (.malloc (by decide) hm), .inl (by decide)⟩
  rw [if_neg (by decide)] at h₁
  have h₂ : UnevenStep ⟨h, [⟨mbegin, 8⟩]⟩ (.free mbegin) ⟨h', []⟩ :=
    ⟨.inl (.free (b := ⟨mbegin, 8⟩) List.mem_cons_self hfree), trivial⟩
  have hrun := (Run.single h₁).snoc h₂
  have hp : h'.pte 0x8000 ≠ none := by
    rw [hpte]
    nofun
  exact ⟨_, hrun, rfl, hpte, heap_pages_returned hrun rfl (by decide) hp rfl⟩

/-- `malloc(4096)` needs a second page for the count only, and `mptr` is then at the start of that
    page: after all blocks are freed it is still mapped, and so is the page `mptr` has gone on
    to. -/
theorem page_boundary_leaks : (do
    let (v, h) ← malloc (fun _ => true) 4096 ⟨0, fun _ => none, fun _ => 0⟩
    let (w, h) ← h.malloc (fun _ => true) 4
    let h ← (← h.free v).free w
    pure (v, w, h.mptr / 4096, h.pte 0x8001, h.pte 0x8002)) =
      some (0x8000000, 0x8002000, 0x8002, some false, some false) := by
  decide

end LinuxStudy.User
