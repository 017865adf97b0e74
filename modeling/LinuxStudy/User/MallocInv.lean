import Mathlib.Data.List.Count
import LinuxStudy.User.Malloc

/-!
# Live blocks stay apart

A program that calls `malloc` and `free` and writes to its live blocks, from an address space in
which any pages may be mapped already. A page is a page of the heap when it is mapped and was not
at the start. Everything rests on the count of references in each page: it is never smaller than
the number of live blocks that end in the page, plus one when `mptr` points into it.
-/

namespace LinuxStudy.User

open Jos Heap

/-- A result of `malloc` and the size it was called with. -/
structure Block where
  addr : ℕ
  size : ℕ
  deriving DecidableEq, Repr

namespace Block

/-- The end of the block, rounded up to a word. -/
def stop (b : Block) : ℕ := b.addr + roundup4 b.size

/-- The page in which the block ends. -/
def fin (b : Block) : ℕ := b.stop / 4096

end Block

structure Prog where
  heap : Heap
  live : List Block

inductive HeapOp
  | malloc (n : ℕ)
  | free (v : ℕ)
  | store (a : ℕ) (x : Word)

inductive HeapStep : Prog → HeapOp → Prog → Prop
  | malloc {s : Prog} {avail : ℕ → Bool} {n v : ℕ} {h : Heap} (hpos : 0 < n) (hn : n < maxMalloc)
      (hs : s.heap.malloc avail n = some (v, h)) :
      HeapStep s (.malloc n) ⟨h, if v = 0 then s.live else ⟨v, n⟩ :: s.live⟩
  | free {s : Prog} {b : Block} {h : Heap} (hb : b ∈ s.live) (hs : s.heap.free b.addr = some h) :
      HeapStep s (.free b.addr) ⟨h, s.live.erase b⟩
  /-- The program writes the word `a` of a live block. -/
  | store {s : Prog} {b : Block} {a : ℕ} {x : Word} (hb : b ∈ s.live) (hlo : b.addr ≤ 4 * a)
      (hhi : 4 * a < b.addr + b.size) :
      HeapStep s (.store a x) ⟨{ s.heap with mem := Function.update s.heap.mem a x }, s.live⟩

/-- Before the first call, with any pages mapped. -/
def Prog.init (pte₀ : ℕ → Option Bool) (mem : ℕ → Word) : Prog := ⟨⟨0, pte₀, mem⟩, []⟩

/-! ### The invariant -/

/-- A block in its pages: all but the last marked `PTE_CONTINUED`, all of them of the heap. -/
structure BlockOk (pte₀ : ℕ → Option Bool) (h : Heap) (b : Block) : Prop where
  addr4 : b.addr % 4 = 0
  nonnull : b.addr ≠ 0
  size4 : roundup4 b.size % 4 = 0
  le_round : b.size ≤ roundup4 b.size
  pos : 0 < b.size
  cont : ∀ p, b.addr / 4096 ≤ p → p < b.fin → h.pte p = some true ∧ pte₀ p = none
  last : h.pte b.fin = some false ∧ pte₀ b.fin = none

/-- The reference of `mptr` to the page it points into. -/
def openRef (h : Heap) (p : ℕ) : ℕ := if h.mptr % 4096 ≠ 0 ∧ h.mptr / 4096 = p then 1 else 0

structure HeapInv (pte₀ : ℕ → Option Bool) (s : Prog) : Prop where
  mptr4 : s.heap.mptr % 4 = 0
  mptr_lt : s.heap.mptr < 2 ^ 32
  foreign : ∀ p, pte₀ p ≠ none → s.heap.pte p = pte₀ p
  low : ∀ p, s.heap.pte p ≠ none → pte₀ p = none → p < mend / 4096
  openPage : s.heap.mptr % 4096 ≠ 0 → s.heap.pte (s.heap.mptr / 4096) = some false ∧
    pte₀ (s.heap.mptr / 4096) = none ∧
    ∀ b ∈ s.live, b.fin = s.heap.mptr / 4096 → b.stop ≤ s.heap.mptr
  blocks : ∀ b ∈ s.live, BlockOk pte₀ s.heap b
  apart : s.live.Pairwise fun b b' => b.stop ≤ b'.addr ∨ b'.stop ≤ b.addr
  refs : ∀ p, s.heap.pte p = some false → pte₀ p = none →
    s.live.countP (fun b => b.fin = p) + openRef s.heap p ≤ (s.heap.ref p).toNat
  /-- A page has room for at most 1024 blocks. -/
  bound : ∀ p, s.heap.pte p = some false → pte₀ p = none →
    (s.heap.ref p).toNat ≤ if openRef s.heap p = 1 then 2 + s.heap.mptr % 4096 / 4 else 1026

section

variable {pte₀ : ℕ → Option Bool} {s : Prog} {h h' : Heap} {b b' : Block} {live : List Block}

theorem roundup4_spec {n : ℕ} (hn : n < maxMalloc) :
    roundup4 n % 4 = 0 ∧ n ≤ roundup4 n ∧ roundup4 n < n + 4 := by
  rw [maxMalloc] at hn
  rw [roundup4]
  omega

section

variable (hb : BlockOk pte₀ h b)
include hb

theorem BlockOk.stop4 : b.stop % 4 = 0 := by
  have := hb.addr4
  have := hb.size4
  rw [Block.stop]
  omega

theorem BlockOk.addr_lt_stop : b.addr < b.stop := by
  have := hb.pos
  have := hb.le_round
  rw [Block.stop]
  omega

theorem BlockOk.page_le : b.addr / 4096 ≤ b.fin :=
  Nat.div_le_div_right hb.addr_lt_stop.le

theorem BlockOk.mapped {p : ℕ} (h1 : b.addr / 4096 ≤ p) (h2 : p ≤ b.fin) : h.pte p ≠ none := by
  rcases Nat.eq_or_lt_of_le h2 with rfl | h2
  · rw [hb.last.1]
    nofun
  · rw [(hb.cont p h1 h2).1]
    nofun

/-- A block is in order as long as its pages stay as they are. -/
theorem BlockOk.keep (hpte : ∀ p, b.addr / 4096 ≤ p → p ≤ b.fin → h'.pte p = h.pte p) :
    BlockOk pte₀ h' b :=
  ⟨hb.addr4, hb.nonnull, hb.size4, hb.le_round, hb.pos,
    fun p h1 h2 => by rw [hpte p h1 h2.le]; exact hb.cont p h1 h2,
    by rw [hpte _ hb.page_le le_rfl]; exact hb.last⟩

theorem cont_unique (hb' : BlockOk pte₀ h b')
    (hapart : b.stop ≤ b'.addr ∨ b'.stop ≤ b.addr) {p : ℕ} (h1 : b.addr / 4096 ≤ p) (h2 : p < b.fin)
    (h1' : b'.addr / 4096 ≤ p) : b'.fin < p := by
  have hcont := (hb.cont p h1 h2).1
  by_contra hle
  have hne : p ≠ b'.fin := by
    rintro rfl
    rw [hb'.last.1] at hcont
    cases hcont
  have hpage := hb.page_le
  rw [Block.fin] at h2 hle hne hpage
  rcases hapart with hapart | hapart
  · omega
  · omega

theorem BlockOk.fin_eq {f : ℕ} (hle : b.addr / 4096 ≤ f)
    (hcont : ∀ p, b.addr / 4096 ≤ p → p < f → h.pte p = some true)
    (hlast : h.pte f = some false) : f = b.fin := by
  rcases Nat.lt_trichotomy f b.fin with hlt | heq | hgt
  · rw [(hb.cont f hle hlt).1] at hlast
    cases hlast
  · exact heq
  · have hc := hcont b.fin hb.page_le hgt
    rw [hb.last.1] at hc
    cases hc

end

theorem countP_fin_erase (hb : b ∈ live) (p : ℕ) : live.countP (fun b => b.fin = p) =
    (live.erase b).countP (fun b => b.fin = p) + if p = b.fin then 1 else 0 := by
  rw [(List.perm_cons_erase hb).countP_eq, List.countP_cons]
  exact congrArg _ (if_congr (by rw [decide_eq_true_iff, eq_comm]) rfl rfl)

/-- The live blocks after a `malloc` that gave `v`. -/
theorem mem_live {v n : ℕ} (hb : b ∈ (if v = 0 then live else ⟨v, n⟩ :: live)) :
    b ∈ live ∨ (b = ⟨v, n⟩ ∧ v ≠ 0) := by
  split_ifs at hb with hz
  · exact .inl hb
  · rcases List.mem_cons.mp hb with rfl | hb
    · exact .inr ⟨rfl, hz⟩
    · exact .inl hb

theorem countP_live (live : List Block) (v n p : ℕ) :
    (if v = 0 then live else ⟨v, n⟩ :: live).countP (fun b => b.fin = p) ≤
      live.countP (fun b => b.fin = p) + if (⟨v, n⟩ : Block).fin = p then 1 else 0 := by
  split_ifs with hz hp hp
  · omega
  · omega
  · rw [List.countP_cons]
    split_ifs <;> omega
  · rw [List.countP_cons_of_neg (by simpa using hp)]
    omega

namespace HeapInv

theorem init (pte₀ : ℕ → Option Bool) (mem : ℕ → Word) : HeapInv pte₀ (.init pte₀ mem) where
  mptr4 := rfl
  mptr_lt := Nat.two_pow_pos 32
  foreign _ _ := rfl
  low p hp hp' := absurd hp' hp
  openPage hne := absurd rfl hne
  blocks _ hb := by cases hb
  apart := List.Pairwise.nil
  refs p hp hp' := by
    rw [show pte₀ p = some false from hp] at hp'
    cases hp'
  bound p hp hp' := by
    rw [show pte₀ p = some false from hp] at hp'
    cases hp'

section

variable (hs : HeapInv pte₀ s)
include hs

variable {p m n q v a : ℕ} {avail : ℕ → Bool} {x : Word}

theorem ref_le (hp : s.heap.pte p = some false)
    (hp' : pte₀ p = none) : (s.heap.ref p).toNat ≤ 1026 := by
  have hb := hs.bound p hp hp'
  split_ifs at hb <;> omega

/-- `mptr` may move to the start of a page; the reference it leaves behind does no harm. -/
theorem setMptr (halign : m % 4096 = 0) (hlt : m < 2 ^ 32) :
    HeapInv pte₀ ⟨s.heap.setMptr m, s.live⟩ := by
  have hopen : ∀ p, openRef (s.heap.setMptr m) p = 0 := fun p => if_neg fun h => h.1 halign
  refine ⟨by dsimp only [setMptr_mptr]; omega, hlt, hs.foreign, hs.low,
    fun hne => absurd halign hne, fun b hb => (hs.blocks b hb).keep fun _ _ _ => rfl, hs.apart,
    fun p hp hp' => ?_, fun p hp hp' => ?_⟩
  · rw [hopen]
    exact (Nat.le_add_right _ _).trans (hs.refs p hp hp')
  · rw [hopen, if_neg (by omega)]
    exact hs.ref_le hp hp'

/-- Page `f` stays when a block or `mptr` has another reference to it. -/
theorem drop_stays {c f : ℕ} (hd : Drops s.heap c f h') (hf : pte₀ f = none)
    (hmore : 1 < s.live.countP (fun b => b.fin = f) + openRef s.heap f) :
    h'.pte f = some false := by
  have hle := hs.refs f hd.last hf
  rw [hd.dropped, if_neg]
  intro hzero
  rw [sub_eq_zero.mp hzero] at hle
  exact absurd (hmore.trans_le hle) (by decide)

/-- The blocks that stay do not use the pages that go. -/
theorem drop_block {c f : ℕ} (hd : Drops s.heap c f h') (hb : b ∈ s.live)
    (hused : ∀ p, b.addr / 4096 ≤ p → p ≤ b.fin → c ≤ p → f ≤ p)
    (hstays : b.fin = f → h'.pte f = some false) : BlockOk pte₀ h' b := by
  have hok := hs.blocks b hb
  refine hok.keep fun p h1 h2 => ?_
  rcases Nat.lt_or_ge p c with hlt | hge
  · exact hd.same p (.inl hlt)
  rcases Nat.eq_or_lt_of_le (hused p h1 h2 hge) with rfl | hgt
  · -- the page is not marked, so the block ends in it
    have hfin : b.fin = f := by
      refine ((Nat.eq_or_lt_of_le h2).resolve_right fun hlt => ?_).symm
      have hcont := (hok.cont f h1 hlt).1
      rw [hd.last] at hcont
      cases hcont
    rw [hstays hfin, hd.last]
  · exact hd.same p (.inr hgt)

/-- **Dropping a reference.** The pages that go are used by no block that stays. -/
theorem drop {c f : ℕ} (hd : Drops s.heap c f h')
    (hown : ∀ p, c ≤ p → p ≤ f → pte₀ p = none) (hsub : live.Sublist s.live)
    (hused : ∀ b ∈ live, ∀ p, b.addr / 4096 ≤ p → p ≤ b.fin → c ≤ p → f ≤ p)
    (hm4 : m % 4 = 0) (hmlt : m < 2 ^ 32) (hm : m % 4096 ≠ 0 → m = s.heap.mptr)
    (hcount : ∀ p, live.countP (fun b => b.fin = p) + openRef (h'.setMptr m) p +
      (if p = f then 1 else 0) ≤ s.live.countP (fun b => b.fin = p) + openRef s.heap p) :
    HeapInv pte₀ ⟨h'.setMptr m, live⟩ := by
  have hf := hown f hd.le le_rfl
  have hreff := hs.refs f hd.last hf
  have hcountf := hcount f
  rw [if_pos rfl] at hcountf
  have href : (h'.ref f).toNat = (s.heap.ref f).toNat - 1 := by
    rw [Heap.ref, hd.mem, Function.update_self, BitVec.toNat_sub_of_le]
    · rfl
    · rw [BitVec.le_def]
      exact (show 1 ≤ _ by omega)
  have hstays : 0 < live.countP (fun b => b.fin = f) + openRef (h'.setMptr m) f →
      h'.pte f = some false := fun hpos => hs.drop_stays hd hf (by omega)
  have hkeep : ∀ p, h'.pte p ≠ none → s.heap.pte p = h'.pte p :=
    fun p hp => ((hd.pte_cases p).resolve_left hp).symm
  have hfalse : ∀ p, h'.pte p = some false → s.heap.pte p = some false :=
    fun p hp => (hkeep p (hp ▸ Option.some_ne_none _)).trans hp
  refine ⟨hm4, hmlt, ?_, fun p hp hp' => hs.low p (by rwa [hkeep p hp]) hp', ?_, ?_,
    hs.apart.sublist hsub, ?_, ?_⟩
  · intro p hp
    have hout : p < c ∨ f < p := by
      by_contra hin
      exact hp (hown p (by omega) (by omega))
    exact (hd.same p hout).trans (hs.foreign p hp)
  · intro hne
    obtain rfl : m = s.heap.mptr := hm hne
    obtain ⟨hpte, hpte0, hstop⟩ := hs.openPage hne
    refine ⟨?_, hpte0, fun b hb hfin => hstop b (hsub.subset hb) hfin⟩
    rw [setMptr_mptr, setMptr_pte]
    rcases eq_or_ne (s.heap.mptr / 4096) f with heq | hpf
    · rw [heq]
      refine hstays ?_
      have hone : openRef (h'.setMptr s.heap.mptr) f = 1 := if_pos ⟨hne, heq⟩
      omega
    · exact hd.pte_false hpte hpf
  · intro b hb
    have hok := hs.drop_block hd (hsub.subset hb) (hused b hb) fun hfin => hstays (by
      have hpos : 0 < live.countP (fun b => b.fin = f) :=
        List.countP_pos_iff.mpr ⟨b, hb, by simpa using hfin⟩
      omega)
    exact hok.keep fun _ _ _ => rfl
  · intro p hp hp'
    have hle := hs.refs p (hfalse p hp) hp'
    have hc := hcount p
    dsimp only
    rcases eq_or_ne p f with rfl | hne
    · rw [setMptr_ref, href]
      omega
    · rw [setMptr_ref, hd.ref_ne hne]
      omega
  · intro p hp hp'
    have hle : (h'.ref p).toNat ≤ (s.heap.ref p).toNat := by
      rcases eq_or_ne p f with rfl | hne
      · omega
      · rw [hd.ref_ne hne]
    split_ifs with hopen
    · have hopen' : m % 4096 ≠ 0 ∧ m / 4096 = p := by
        by_contra hno
        rw [openRef, setMptr_mptr, if_neg hno] at hopen
        cases hopen
      have hmeq := hm hopen'.1
      have hb := hs.bound p (hfalse p hp) hp'
      rw [openRef, ← hmeq, if_pos hopen', if_pos rfl] at hb
      exact hle.trans hb
    · exact hle.trans (hs.ref_le (hfalse p hp) hp')

theorem free (hb : b ∈ s.live) (hfree : s.heap.free b.addr = some h') :
    HeapInv pte₀ ⟨h', s.live.erase b⟩ := by
  have hok := hs.blocks b hb
  obtain ⟨-, -, f, -, hd⟩ := free_drops hok.nonnull hfree
  obtain rfl := hok.fin_eq hd.le hd.cont hd.last
  have hmptr : h'.setMptr s.heap.mptr = h' := by
    rw [← hd.mptr]
    rfl
  have hperm := List.perm_cons_erase hb
  rw [← hmptr]
  refine hs.drop hd (fun p h1 h2 => ?_) List.erase_sublist ?_ hs.mptr4 hs.mptr_lt (fun _ => rfl) ?_
  · rcases Nat.eq_or_lt_of_le h2 with rfl | h2
    · exact hok.last.2
    · exact (hok.cont p h1 h2).2
  · intro b' hb' p h1 h2 hp
    have hapart : b.stop ≤ b'.addr ∨ b'.stop ≤ b.addr := by
      have hpair := hperm.pairwise_iff (fun h => Or.symm h) |>.mp hs.apart
      exact (List.pairwise_cons.mp hpair).1 b' hb'
    have hlt' := cont_unique hok (hs.blocks b' (List.erase_subset hb')) hapart hp
    omega
  · intro p
    have hopen : openRef h' p = openRef s.heap p := by rw [openRef, openRef, hd.mptr]
    rw [countP_fin_erase hb, hmptr, hopen]
    omega

/-- `free(mptr)` drops a reference to the page `mptr` points into. -/
theorem drops_open (hne : s.heap.mptr % 4096 ≠ 0) (hfree : s.heap.free s.heap.mptr = some h') :
    Drops s.heap (s.heap.mptr / 4096) (s.heap.mptr / 4096) h' := by
  have hnz : s.heap.mptr ≠ 0 := by
    intro hz
    rw [hz] at hne
    exact hne rfl
  obtain ⟨-, -, f, -, hd⟩ := free_drops hnz hfree
  rcases Nat.eq_or_lt_of_le hd.le with rfl | hlt
  · exact hd
  · have hpte := (hs.openPage hne).1
    rw [hd.cont _ le_rfl hlt] at hpte
    cases hpte

omit hs in
theorem openRef_aligned (halign : m % 4096 = 0) (p : ℕ) : openRef (h'.setMptr m) p = 0 :=
  if_neg fun h => h.1 halign

omit hs in
theorem openRef_close (hne : s.heap.mptr % 4096 ≠ 0) :
    (if p = s.heap.mptr / 4096 then 1 else 0) = openRef s.heap p :=
  if_congr ⟨fun h => ⟨hne, h.symm⟩, fun h => h.2.symm⟩ rfl rfl

theorem close (hne : s.heap.mptr % 4096 ≠ 0)
    (hfree : s.heap.free s.heap.mptr = some h') (halign : m % 4096 = 0) (hlt : m < 2 ^ 32) :
    HeapInv pte₀ ⟨h'.setMptr m, s.live⟩ := by
  refine hs.drop (hs.drops_open hne hfree) (fun p h1 h2 => ?_) (List.Sublist.refl _)
    (fun b hb p _ _ hp => hp) (by omega) hlt (fun h => absurd halign h) fun p => ?_
  · rw [show p = s.heap.mptr / 4096 by omega]
    exact (hs.openPage hne).2.1
  · rw [openRef_aligned halign, openRef_close hne]
    omega

theorem own_of_unmapped (hp : s.heap.pte p = none) :
    pte₀ p = none := by
  by_contra hne
  rw [hs.foreign p hne] at hp
  exact hne hp

omit hs in
theorem pagesFor_eq (hr4 : n % 4 = 0) : pagesFor n = n / 4096 + 1 := by
  rw [pagesFor]
  omega

omit hs in
/-- The page where the new block ends, into which `mptr` points. -/
theorem newPages_last (hr4 : n % 4 = 0) (hnew : NewPages s.heap n q h') :
    q + pagesFor n = h'.mptr / 4096 + 1 ∧ q ≤ h'.mptr / 4096 ∧
    h'.pte (h'.mptr / 4096) = some false ∧
      s.heap.pte (h'.mptr / 4096) = none ∧ h'.ref (h'.mptr / 4096) = 2 := by
  have hK := pagesFor_eq hr4
  have hlast : q + pagesFor n = h'.mptr / 4096 + 1 := by
    rw [hnew.mptr, hK]
    omega
  have hcount := hnew.count
  rw [hlast] at hcount
  refine ⟨hlast, by omega, ?_, hnew.free _ (by omega) (by omega), hcount⟩
  rw [hnew.pte, if_pos (by omega), decide_eq_false (by omega)]

omit hs in
theorem newPages_old (hr4 : n % 4 = 0) (hnew : NewPages s.heap n q h')
    (hp : h'.pte p = some false) (hne : p ≠ h'.mptr / 4096) :
    s.heap.pte p = some false ∧ h'.ref p = s.heap.ref p := by
  have hlast := (newPages_last hr4 hnew).1
  have hout : ¬(q ≤ p ∧ p < q + pagesFor n) := by
    intro hin
    rw [hnew.pte, if_pos hin, decide_eq_true (by omega)] at hp
    cases hp
  rw [hnew.pte, if_neg hout] at hp
  exact ⟨hp, hnew.refs p (by omega)⟩

omit hs in
theorem newPages_pte (hnew : NewPages s.heap n q h') (hp : s.heap.pte p ≠ none) :
    h'.pte p = s.heap.pte p := by
  rw [hnew.pte, if_neg]
  exact fun hin => hp (hnew.free p hin.1 hin.2)

/-- Old blocks end elsewhere. -/
theorem newPages_other (hr4 : n % 4 = 0) (hnew : NewPages s.heap n q h') (hb : b ∈ s.live) :
    b.fin ≠ h'.mptr / 4096 := by
  intro heq
  have hlast := (hs.blocks b hb).last.1
  rw [heq, (newPages_last hr4 hnew).2.2.2.1] at hlast
  cases hlast

/-- Old blocks lie before or after the new pages. -/
theorem newPages_sides (hr4 : n % 4 = 0) (hnew : NewPages s.heap n q h') (hb : b ∈ s.live) :
    b.stop ≤ q * 4096 ∨ q * 4096 + n ≤ b.addr := by
  have hok := hs.blocks b hb
  have hK := pagesFor_eq hr4
  have hout : ∀ p, b.addr / 4096 ≤ p → p ≤ b.fin → ¬(q ≤ p ∧ p < q + pagesFor n) :=
    fun p h1 h2 hin => hok.mapped h1 h2 (hnew.free p hin.1 hin.2)
  have hpage := hok.page_le
  have h1 := hout (b.addr / 4096) le_rfl hpage
  have h2 := hout q
  rw [Block.fin] at *
  omega

/-- The new block is in order. -/
theorem newPages_block (hpos : 0 < n) (hn : n < maxMalloc)
    (hnew : NewPages s.heap (roundup4 n) q h') (hz : q * 4096 ≠ 0) :
    BlockOk pte₀ h' ⟨q * 4096, n⟩ := by
  obtain ⟨hr4, hle, -⟩ := roundup4_spec hn
  have hK := pagesFor_eq hr4
  obtain ⟨hlast, -, hLfalse, hLfree, -⟩ := newPages_last hr4 hnew
  have hfin : (⟨q * 4096, n⟩ : Block).fin = h'.mptr / 4096 := by
    rw [Block.fin, Block.stop, hnew.mptr]
  refine ⟨by dsimp only; omega, hz, hr4, hle, hpos, fun p h1 h2 => ?_, ?_⟩
  · dsimp only at h1
    have hin : q ≤ p ∧ p < q + pagesFor (roundup4 n) := by omega
    refine ⟨?_, hs.own_of_unmapped (hnew.free p hin.1 hin.2)⟩
    rw [hnew.pte, if_pos hin, decide_eq_true (by omega)]
  · rw [hfin]
    exact ⟨hLfalse, hs.own_of_unmapped hLfree⟩

theorem newPages (hpos : 0 < n) (hn : n < maxMalloc)
    (hnew : NewPages s.heap (roundup4 n) q h') :
    HeapInv pte₀ ⟨h', if q * 4096 = 0 then s.live else ⟨q * 4096, n⟩ :: s.live⟩ := by
  obtain ⟨hr4, hle, -⟩ := roundup4_spec hn
  have hmend : mend / 4096 = 0x10000 := by decide
  have hlow := hnew.low
  have hK := pagesFor_eq hr4
  obtain ⟨hlast, hq, hLfalse, hLfree, hcount⟩ := newPages_last hr4 hnew
  have hfin : (⟨q * 4096, n⟩ : Block).fin = h'.mptr / 4096 := by
    rw [Block.fin, Block.stop, hnew.mptr]
  have hclosed : ∀ p, p ≠ h'.mptr / 4096 → openRef h' p = 0 :=
    fun p hp => if_neg fun h => hp h.2.symm
  refine ⟨?_, ?_, ?_, ?_, fun _ => ⟨hLfalse, hs.own_of_unmapped hLfree, ?_⟩, ?_, ?_, ?_, ?_⟩
  · rw [hnew.mptr]
    omega
  · rw [hnew.mptr]
    omega
  · intro p hp
    have hmapped : s.heap.pte p ≠ none := by rwa [hs.foreign p hp]
    rw [newPages_pte hnew hmapped, hs.foreign p hp]
  · intro p hp hp'
    rw [hnew.pte] at hp
    split_ifs at hp with hin
    · omega
    · exact hs.low p hp hp'
  · intro b hb hbfin
    rcases mem_live hb with hb | ⟨rfl, -⟩
    · exact absurd hbfin (hs.newPages_other hr4 hnew hb)
    · rw [hnew.mptr, Block.stop]
  · intro b hb
    rcases mem_live hb with hb | ⟨rfl, hz⟩
    · have hok := hs.blocks b hb
      exact hok.keep fun p h1 h2 => newPages_pte hnew (hok.mapped h1 h2)
    · exact hs.newPages_block hpos hn hnew hz
  · split_ifs with hz
    · exact hs.apart
    · exact List.pairwise_cons.mpr ⟨fun b hb => (hs.newPages_sides hr4 hnew hb).symm, hs.apart⟩
  · intro p hp hp'
    dsimp only at hp ⊢
    have hc := countP_live s.live (q * 4096) n p
    rw [hfin] at hc
    rcases eq_or_ne p (h'.mptr / 4096) with rfl | hne
    · rw [hcount]
      have hone : openRef h' (h'.mptr / 4096) ≤ 1 := by
        rw [openRef]
        split_ifs <;> omega
      have hnone : s.live.countP (fun b => b.fin = h'.mptr / 4096) = 0 :=
        List.countP_eq_zero.mpr fun b hb => by simpa using hs.newPages_other hr4 hnew hb
      rw [hnone, if_pos rfl] at hc
      have : (2 : Word).toNat = 2 := rfl
      omega
    · obtain ⟨hp, href⟩ := newPages_old hr4 hnew hp hne
      rw [href, hclosed p hne]
      rw [if_neg hne.symm] at hc
      have := hs.refs p hp hp'
      omega
  · intro p hp hp'
    rcases eq_or_ne p (h'.mptr / 4096) with rfl | hne
    · rw [hcount]
      have : (2 : Word).toNat = 2 := rfl
      split_ifs <;> omega
    · obtain ⟨hp, href⟩ := newPages_old hr4 hnew hp hne
      rw [href, hclosed p hne, if_neg (by omega)]
      exact hs.ref_le hp hp'

/-- The block fits: `mptr` stays in its page, whose count goes up. -/
theorem small_spec (hn : n < maxMalloc) (hne : s.heap.mptr % 4096 ≠ 0)
    (hfit : s.heap.mptr / 4096 = (s.heap.mptr + roundup4 n - 1 + 4) % 2 ^ 32 / 4096) :
    (s.heap.mptr + roundup4 n) % 2 ^ 32 = s.heap.mptr + roundup4 n ∧
      (⟨s.heap.mptr, n⟩ : Block).fin = s.heap.mptr / 4096 ∧
      (s.heap.ref (s.heap.mptr / 4096) + 1).toNat = (s.heap.ref (s.heap.mptr / 4096)).toNat + 1 ∧
      ∀ g p, openRef (Heap.setMptr g (s.heap.mptr + roundup4 n)) p = openRef s.heap p := by
  have hr := roundup4_spec hn
  rw [maxMalloc] at hn
  obtain ⟨hpte, hpte0, -⟩ := hs.openPage hne
  have hle := hs.ref_le hpte hpte0
  have hfin : (s.heap.mptr + roundup4 n) / 4096 = s.heap.mptr / 4096 := by omega
  refine ⟨Nat.mod_eq_of_lt (by omega), hfin, ?_, fun g p => ?_⟩
  · exact Nat.mod_eq_of_lt (show _ + 1 < 2 ^ 32 by omega)
  · rw [openRef, openRef, setMptr_mptr]
    exact if_congr (by omega) rfl rfl

theorem small (hpos : 0 < n) (hn : n < maxMalloc)
    (hne : s.heap.mptr % 4096 ≠ 0)
    (hfit : s.heap.mptr / 4096 = (s.heap.mptr + roundup4 n - 1 + 4) % 2 ^ 32 / 4096) :
    HeapInv pte₀ ⟨(s.heap.setRef (s.heap.mptr / 4096) (s.heap.ref (s.heap.mptr / 4096) + 1)).setMptr
      ((s.heap.mptr + roundup4 n) % 2 ^ 32), ⟨s.heap.mptr, n⟩ :: s.live⟩ := by
  obtain ⟨hr4, hle, hlt4⟩ := roundup4_spec hn
  obtain ⟨hmod, hfin, hnew, hopen'⟩ := hs.small_spec hn hne hfit
  obtain ⟨hpte, hpte0, hstops⟩ := hs.openPage hne
  have hm4 := hs.mptr4
  have hbound := hs.bound _ hpte hpte0
  have hopen : openRef s.heap (s.heap.mptr / 4096) = 1 := if_pos ⟨hne, rfl⟩
  rw [hopen, if_pos rfl] at hbound
  have hpage : (s.heap.mptr + roundup4 n) / 4096 = s.heap.mptr / 4096 := hfin
  rw [hmod]
  generalize hP : s.heap.mptr / 4096 = P at *
  generalize hr : roundup4 n = r at *
  have hoff : (s.heap.mptr + r) % 4096 = s.heap.mptr % 4096 + r := by omega
  have hsame : ∀ p, p ≠ P → (s.heap.setRef P (s.heap.ref P + 1)).ref p = s.heap.ref p :=
    fun p hp => setRef_ref_ne _ _ fun h => hp (refWord_inj h)
  refine ⟨?_, ?_, hs.foreign, hs.low, fun _ => ?_, ?_, ?_, ?_, ?_⟩
  · rw [setMptr_mptr]
    omega
  · rw [setMptr_mptr]
    omega
  · rw [setMptr_mptr, hpage]
    refine ⟨hpte, hpte0, fun b hb hbfin => ?_⟩
    rcases List.mem_cons.mp hb with rfl | hb
    · rw [Block.stop, hr]
    · exact (hstops b hb hbfin).trans (Nat.le_add_right _ _)
  · intro b hb
    rcases List.mem_cons.mp hb with rfl | hb
    · refine ⟨hm4, fun hz => hne (by rw [show s.heap.mptr = 0 from hz]), by rw [hr]; exact hr4,
        by rw [hr]; exact hle, hpos, fun p h1 h2 => ?_, ?_⟩
      · dsimp only at h1
        omega
      · rw [hfin]
        exact ⟨hpte, hpte0⟩
    · exact (hs.blocks b hb).keep fun _ _ _ => rfl
  · refine List.pairwise_cons.mpr ⟨fun b hb => ?_, hs.apart⟩
    have hok := hs.blocks b hb
    rw [show (⟨s.heap.mptr, n⟩ : Block).stop = s.heap.mptr + r by rw [Block.stop, hr]]
    dsimp only
    rcases Nat.lt_trichotomy b.fin P with hlt | heq | hgt
    · rw [Block.fin] at hlt
      omega
    · exact .inr (hstops b hb heq)
    · -- the block begins after the page, which would be marked otherwise
      by_contra hbefore
      have hcont := (hok.cont P (by omega) hgt).1
      rw [hpte] at hcont
      cases hcont
  · intro p hp hp'
    rw [hopen', setMptr_ref, List.countP_cons]
    rcases eq_or_ne p P with rfl | hpP
    · have := hs.refs p hp hp'
      rw [setRef_ref_self, hnew, hfin, if_pos (by simp)]
      omega
    · rw [hsame p hpP, hfin, if_neg (by simpa using Ne.symm hpP)]
      exact hs.refs p hp hp'
  · intro p hp hp'
    rw [hopen', setMptr_ref, setMptr_mptr, hoff]
    rcases eq_or_ne p P with rfl | hpP
    · rw [setRef_ref_self, hnew, hopen, if_pos rfl]
      omega
    · have hno : openRef s.heap p = 0 := if_neg fun h => hpP (h.2.symm.trans hP)
      rw [hsame p hpP, hno, if_neg (by omega)]
      exact hs.ref_le hp hp'

/-- Nothing but `mptr` has changed, and that is at the start of a page. -/
theorem kept (hk : Kept s.heap h') : HeapInv pte₀ ⟨h', s.live⟩ := by
  have hm := hs.setMptr hk.align hk.lt
  have hopen : openRef h' = openRef (s.heap.setMptr h'.mptr) := rfl
  have href : ∀ p, s.heap.pte p = some false → h'.ref p = s.heap.ref p :=
    fun p hp => hk.refs p (by rw [hp]; nofun)
  have hpte : h'.pte = s.heap.pte := funext hk.pte
  refine ⟨hm.mptr4, hm.mptr_lt, ?_, ?_, fun hne => absurd hk.align hne,
    fun b hb => (hs.blocks b hb).keep fun p _ _ => hk.pte p, hs.apart, ?_, ?_⟩
  · rw [hpte]
    exact hs.foreign
  · rw [hpte]
    exact hs.low
  · intro p hp hp'
    rw [hpte] at hp
    rw [hopen, href p hp]
    exact hm.refs p hp hp'
  · intro p hp hp'
    rw [hpte] at hp
    rw [hopen, href p hp]
    exact hm.bound p hp hp'

theorem mallocPages (hpos : 0 < n)
    (hn : n < maxMalloc) (hround : roundup4 n < maxMalloc) (halign : s.heap.mptr % 4096 = 0)
    (hm : s.heap.mallocPages avail (roundup4 n) = some (v, h')) :
    HeapInv pte₀ ⟨h', if v = 0 then s.live else ⟨v, n⟩ :: s.live⟩ := by
  obtain ⟨q, -, ⟨rfl, hkept, -⟩ | ⟨rfl, hnew⟩⟩ := mallocPages_spec halign hs.mptr_lt hround hm
  · exact hs.kept hkept
  · exact hs.newPages hpos hn hnew

theorem malloc (hpos : 0 < n)
    (hn : n < maxMalloc) (hm : s.heap.malloc avail n = some (v, h')) :
    HeapInv pte₀ ⟨h', if v = 0 then s.live else ⟨v, n⟩ :: s.live⟩ := by
  -- `mptr` is set on the first call
  obtain ⟨h1, hh1, hs1, hnz⟩ : ∃ h1,
    (if s.heap.mptr = 0 then s.heap.setMptr mbegin else s.heap) = h1 ∧
      HeapInv pte₀ ⟨h1, s.live⟩ ∧ h1.mptr ≠ 0 := by
    split_ifs with hz
    · exact ⟨_, rfl, hs.setMptr (by decide) (by decide), by rw [setMptr_mptr]; decide⟩
    · exact ⟨_, rfl, hs, hz⟩
  rw [Heap.malloc, hh1] at hm
  split_ifs at hm with hmax hopen hfit
  · cases hm
    exact hs1
  · obtain ⟨_, -, heq⟩ := Option.map_eq_some_iff.mp hm
    cases heq
    rw [if_neg hnz]
    exact hs1.small hpos hn hopen hfit
  · obtain ⟨h2, hfree, hm⟩ := Option.bind_eq_some_iff.mp hm
    have hs2 := hs1.close (m := (h1.mptr + 4096) % 2 ^ 32 / 4096 * 4096) hopen hfree (by omega)
      (by omega)
    exact hs2.mallocPages hpos hn (not_le.mp hmax) (Nat.mul_mod_left _ _) hm
  · exact hs1.mallocPages hpos hn (not_le.mp hmax) (not_not.mp hopen) hm

/-- The counts are not in the blocks. -/
theorem ref_store (hb : b ∈ s.live) (hlo : b.addr ≤ 4 * a)
    (hhi : 4 * a < b.addr + b.size) (hp : s.heap.pte p = some false) :
    Heap.ref { s.heap with mem := Function.update s.heap.mem a x } p = s.heap.ref p := by
  have hok := hs.blocks b hb
  refine Function.update_of_ne (fun heq => ?_) _ _
  rw [refWord] at heq
  have hstop4 := hok.stop4
  have hle := hok.le_round
  have hstop : b.stop = b.addr + roundup4 b.size := rfl
  have hpfin : p < b.fin := by
    rw [Block.fin]
    omega
  rw [(hok.cont p (by omega) hpfin).1] at hp
  cases hp

theorem store (hb : b ∈ s.live) (hlo : b.addr ≤ 4 * a)
    (hhi : 4 * a < b.addr + b.size) :
    HeapInv pte₀ ⟨{ s.heap with mem := Function.update s.heap.mem a x }, s.live⟩ := by
  refine ⟨hs.mptr4, hs.mptr_lt, hs.foreign, hs.low, hs.openPage,
    fun b hb => (hs.blocks b hb).keep fun _ _ _ => rfl, hs.apart, ?_, ?_⟩
  · intro p hp hp'
    rw [hs.ref_store hb hlo hhi hp]
    exact hs.refs p hp hp'
  · intro p hp hp'
    rw [hs.ref_store hb hlo hhi hp]
    exact hs.bound p hp hp'

theorem step {op : HeapOp} {s' : Prog} (h : HeapStep s op s') :
    HeapInv pte₀ s' := by
  cases h with
  | malloc hpos hn hm => exact hs.malloc hpos hn hm
  | free hb hfree => exact hs.free hb hfree
  | store hb hlo hhi => exact hs.store hb hlo hhi

end

end HeapInv

end

/-- Page `p` is the final page of a block at `v`: the first one from there on without
    `PTE_CONTINUED`. -/
def Heap.IsFinal (h : Heap) (v p : ℕ) : Prop :=
  v / 4096 ≤ p ∧ h.pte p ≠ some true ∧ ∀ q < p, v / 4096 ≤ q → h.pte q = some true

instance (h : Heap) (v p : ℕ) : Decidable (h.IsFinal v p) :=
  inferInstanceAs (Decidable (_ ∧ _ ∧ _))

/-- In every state that a program reaches with `malloc`, `free` of live blocks and writes to them:
    every byte of a live block is mapped; two live blocks do not overlap; no live block overlaps the
    last word of a heap page without `PTE_CONTINUED`; and that word is at least the number of live
    blocks of which this is the final page. -/
theorem blocks_apart {pte₀ : ℕ → Option Bool} {mem : ℕ → Word} {ops : List HeapOp} {s : Prog}
    (h : Run HeapStep (.init pte₀ mem) ops s) :
    (∀ b ∈ s.live, ∀ a, b.addr ≤ a → a < b.addr + b.size → s.heap.pte (a / 4096) ≠ none) ∧
    s.live.Pairwise (fun b b' => b.addr + b.size ≤ b'.addr ∨ b'.addr + b'.size ≤ b.addr) ∧
    (∀ b ∈ s.live, ∀ p, s.heap.pte p = some false → pte₀ p = none →
      b.addr + b.size ≤ p * 4096 + 4092 ∨ p * 4096 + 4096 ≤ b.addr) ∧
    ∀ p, s.heap.pte p = some false → pte₀ p = none →
      s.live.countP (fun b => s.heap.IsFinal b.addr p) ≤ (s.heap.ref p).toNat := by
  have hs : HeapInv pte₀ s :=
    h.invariant (HeapInv pte₀) (.init pte₀ mem) fun _ _ _ ha hab => ha.step hab
  have hle : ∀ b ∈ s.live, b.addr + b.size ≤ b.stop := by
    intro b hb
    have := (hs.blocks b hb).le_round
    rw [Block.stop]
    omega
  refine ⟨fun b hb a h1 h2 => ?_, ?_, fun b hb p hp hp' => ?_, fun p hp hp' => ?_⟩
  · have hb' := hle b hb
    exact (hs.blocks b hb).mapped (Nat.div_le_div_right h1) (Nat.div_le_div_right (by omega))
  · refine hs.apart.imp_of_mem fun {b b'} hb hb' hapart => ?_
    have h1 := hle b hb
    have h2 := hle b' hb'
    omega
  · have hok := hs.blocks b hb
    have hb' := hle b hb
    have hstop4 := hok.stop4
    by_contra hover
    -- the page would be one of the block's, and its last one leaves the word free
    have hpfin : p < b.fin := by
      rw [Block.fin]
      omega
    rw [(hok.cont p (by omega) hpfin).1] at hp
    cases hp
  · refine le_trans ?_ ((Nat.le_add_right _ _).trans (hs.refs p hp hp'))
    refine List.countP_mono_left fun b hb hfinal => ?_
    obtain ⟨hle, -, hcont⟩ := of_decide_eq_true hfinal
    have hfin := (hs.blocks b hb).fin_eq hle (fun q h1 h2 => hcont q h2 h1) hp
    exact decide_eq_true hfin.symm

/-- The first small block in an empty address space is at `mbegin`. -/
theorem malloc_first {n : ℕ} (hn : roundup4 n + 4 ≤ 4096) :
    ∃ h, Heap.malloc (fun _ => true) n ⟨0, fun _ => none, fun _ => 0⟩ = some (mbegin, h) ∧
      h.pte (mbegin / 4096) = some false ∧ h.mptr = mbegin + roundup4 n := by
  have hsearch : search ((⟨0, fun _ => none, fun _ => 0⟩ : Heap).setMptr mbegin) (roundup4 n)
      searchFuel mbegin 0 = some (mbegin, true) := by
    rw [show searchFuel = 1114111 + 1 by decide, search, if_pos]
    refine isfree_iff.mpr fun k hk => ⟨?_, rfl⟩
    rw [mbegin] at *
    rw [mend]
    omega
  have hone : pagesFor (roundup4 n) = 0 + 1 := by
    rw [pagesFor]
    omega
  refine ⟨?heap, ?result, ?page, ?next⟩
  case result =>
    rw [Heap.malloc, if_pos rfl, if_neg (by rw [maxMalloc]; omega), if_neg (by decide),
      Heap.mallocPages, setMptr_mptr, hsearch, Option.map_some, if_pos rfl, hone, allocLoop,
      if_pos ⟨by decide, rfl⟩, allocLoop, finish]
  case page =>
    exact congrArg some (decide_eq_false (by omega))
  case next =>
    rw [setMptr_mptr, mbegin]
    omega

/-- Two blocks of 8 bytes from `mbegin` on, in an empty address space. -/
theorem blocks_apart_two : ∃ (ops : List HeapOp) (s : Prog),
    Run HeapStep (.init (fun _ => none) fun _ => 0) ops s ∧
      s.live = [⟨mbegin + 8, 8⟩, ⟨mbegin, 8⟩] ∧ s.heap.pte (mbegin / 4096) = some false ∧
      2 ≤ (s.heap.ref (mbegin / 4096)).toNat := by
  obtain ⟨h, hm, hpte, hmptr⟩ := malloc_first (show roundup4 8 + 4 ≤ 4096 by decide)
  have hmptr8 : h.mptr = mbegin + 8 := hmptr
  have hm' : Heap.malloc (fun _ => true) 8 h = some (mbegin + 8,
      (h.setRef (mbegin / 4096) (h.ref (mbegin / 4096) + 1)).setMptr (mbegin + 16)) := by
    have hne : h.mptr ≠ 0 := by
      rw [hmptr8]
      decide
    simp only [Heap.malloc, if_neg hne]
    rw [hmptr8, if_neg (by decide), if_pos (by decide), if_pos (by decide),
      show (mbegin + 8) / 4096 = mbegin / 4096 by decide, hpte]
    rfl
  have h1 : Run HeapStep (.init (fun _ => none) fun _ => 0) _ _ :=
    .single (.malloc (by decide) (by decide) hm)
  have h2 := h1.snoc (.malloc (by decide) (by decide) hm')
  have hcount := (blocks_apart h2).2.2.2 (mbegin / 4096) hpte rfl
  refine ⟨_, _, h2, rfl, hpte, le_trans (Eq.ge ?_) hcount⟩
  have hfinal : ∀ v, v / 4096 = mbegin / 4096 → h.IsFinal v (mbegin / 4096) := fun v hv =>
    ⟨hv.le, by rw [hpte]; nofun, fun q h1 h2 => absurd (hv ▸ h2) (not_le.mpr h1)⟩
  refine List.countP_eq_length.mpr fun b hb => decide_eq_true (hfinal (Block.addr b) ?_)
  obtain rfl | hb := List.mem_cons.mp hb
  · decide
  · rw [List.mem_singleton.mp hb]

end LinuxStudy.User
