import Mathlib.Data.Nat.Basic
import LinuxStudy.Lib.Run
import LinuxStudy.Jos.Mmu

/-!
# malloc and free

The allocator of `lib/malloc.c`. Small blocks are cut one after the other from the page `mptr`
points into; a block that does not fit gets pages of its own, all but the last marked with
`PTE_CONTINUED`, and the rest of the last page is used for the next small blocks. The last word of a
page without `PTE_CONTINUED` counts its references: one for each block that ends in it and one for
`mptr`.

Addresses and sizes are 32-bit numbers and wrap as such. Memory is cut into words. Whether a
`sys_page_alloc` finds a free page is up to the kernel, `avail`; a failed assertion or an access to
an unmapped page ends the program (`none`).
-/

namespace LinuxStudy.User

open Jos
open Function (update update_apply update_of_ne)

structure Heap where
  mptr : ℕ
  /-- Page table entries by page number: present, and then whether `PTE_CONTINUED` is set. -/
  pte : ℕ → Option Bool
  /-- Memory, by the number of the word. -/
  mem : ℕ → Word

namespace Heap

/-- `MAXMALLOC`. -/
def maxMalloc : ℕ := 1024 * 1024

def mbegin : ℕ := 0x08000000

def mend : ℕ := 0x10000000

/-- `ROUNDUP(n, 4)`. -/
def roundup4 (n : ℕ) : ℕ := (n + 3) % 2 ^ 32 / 4 * 4

/-- The number of the last word of a page. -/
def refWord (p : ℕ) : ℕ := p * 1024 + 1023

def ref (h : Heap) (p : ℕ) : Word := h.mem (refWord p)

def setRef (h : Heap) (p : ℕ) (x : Word) : Heap :=
  { h with mem := update h.mem (refWord p) x }

def setMptr (h : Heap) (m : ℕ) : Heap := { h with mptr := m }

/-- `sys_page_unmap`, which refuses addresses from `UTOP` on. -/
def unmap (h : Heap) (p : ℕ) : Heap :=
  if p < 0xeec00 then { h with pte := update h.pte p none } else h

/-- `sys_page_alloc` of a zeroed page. -/
def alloc (h : Heap) (p : ℕ) (cont : Bool) : Heap :=
  { h with pte := update h.pte p (some cont)
           mem := fun a => if a / 1024 = p then 0 else h.mem a }

def isfree (h : Heap) (v n : ℕ) : Bool :=
  let endVa := (v + n) % 2 ^ 32
  (List.range ((endVa - v + 4095) / 4096)).all fun k =>
    decide (v + k * 4096 < mend) && (h.pte ((v + k * 4096) / 4096)).isNone

/-- The loop of `free`: `c` is a page, and the fuel runs out where the assertion fails. -/
def freeLoop : ℕ → ℕ → Heap → Option Heap
  | 0, _, _ => none
  | k + 1, c, h =>
    match h.pte c with
    | none => none
    | some true => freeLoop k (c + 1) (h.unmap c)
    | some false =>
      let r := h.ref c - 1
      some (if r = 0 then (h.setRef c r).unmap c else h.setRef c r)

def free (h : Heap) (v : ℕ) : Option Heap :=
  if v = 0 then some h
  else if mbegin ≤ v ∧ v < mend then freeLoop (mend / 4096 - v / 4096) (v / 4096) h
  else none

/-- `for (; i >= 0; i -= PGSIZE) sys_page_unmap(0, mptr + i)`, with pages. -/
def unmapDown (b : ℕ) : ℕ → Heap → Heap
  | 0, h => h.unmap (b % 2 ^ 20)
  | k + 1, h => unmapDown b k (h.unmap ((b + (k + 1)) % 2 ^ 20))

/-- The loop that allocates the pages of a block from page `b` on, with the number of rounds left
    and the number of this round. -/
def allocLoop (avail : ℕ → Bool) (b n : ℕ) : ℕ → ℕ → Heap → Heap × Bool
  | 0, _, h => (h, true)
  | r + 1, k, h =>
    if (b + k) % 2 ^ 20 < 0xeec00 ∧ avail k = true then
      allocLoop avail b n r (k + 1)
        (h.alloc ((b + k) % 2 ^ 20) (decide (k * 4096 + 4096 < n + 4)))
    else (unmapDown b k h, false)

/-- The search for address space, from `mptr` on: where it ends and whether it found any. -/
def search (h : Heap) (n : ℕ) : ℕ → ℕ → ℕ → Option (ℕ × Bool)
  | 0, _, _ => none
  | k + 1, mptr, nwrap =>
    if h.isfree mptr (n + 4) then some (mptr, true)
    else if (mptr + 4096) % 2 ^ 32 = mend then
      if nwrap + 1 = 2 then some (mbegin, false) else search h n k mbegin (nwrap + 1)
    else search h n k ((mptr + 4096) % 2 ^ 32) nwrap

/-- Enough for two ways around. -/
def searchFuel : ℕ := 2 ^ 20 + 2 ^ 16

/-- The number of pages of a block with its reference count. -/
def pagesFor (n : ℕ) : ℕ := (n + 4 + 4095) / 4096

/-- The end of `malloc`: one reference for `mptr` and one for the returned block. -/
def finish (mptr n : ℕ) : Heap × Bool → ℕ × Heap
  | (h, false) => (0, h)
  | (h, true) =>
    (mptr, (h.setRef (mptr / 4096 + pagesFor n - 1) 2).setMptr ((mptr + n) % 2 ^ 32))

/-- The second half of `malloc`, for a block that gets new pages. -/
def mallocPages (avail : ℕ → Bool) (n : ℕ) (h : Heap) : Option (ℕ × Heap) :=
  (h.search n searchFuel h.mptr 0).map fun r =>
    if r.2 then finish r.1 n (allocLoop avail (r.1 / 4096) n (pagesFor n) 0 (h.setMptr r.1))
    else (0, h.setMptr r.1)

def malloc (avail : ℕ → Bool) (n : ℕ) (h : Heap) : Option (ℕ × Heap) :=
  let h := if h.mptr = 0 then h.setMptr mbegin else h
  let n := roundup4 n
  if maxMalloc ≤ n then some (0, h)
  else if h.mptr % 4096 ≠ 0 then
    if h.mptr / 4096 = (h.mptr + n - 1 + 4) % 2 ^ 32 / 4096 then
      -- the chunk fits into the page `mptr` points into
      (h.pte (h.mptr / 4096)).map fun _ =>
        (h.mptr, (h.setRef (h.mptr / 4096) (h.ref (h.mptr / 4096) + 1)).setMptr
          ((h.mptr + n) % 2 ^ 32))
    else
      (h.free h.mptr).bind fun h' =>
        mallocPages avail n (h'.setMptr ((h.mptr + 4096) % 2 ^ 32 / 4096 * 4096))
  else mallocPages avail n h

/-! ### What the loops do -/

variable {h h' : Heap}

@[simp] theorem setMptr_mptr (m : ℕ) : (h.setMptr m).mptr = m := rfl

@[simp] theorem setMptr_pte (m : ℕ) : (h.setMptr m).pte = h.pte := rfl

@[simp] theorem setMptr_ref (m p : ℕ) : (h.setMptr m).ref p = h.ref p := rfl

@[simp] theorem setRef_pte (p : ℕ) (x : Word) : (h.setRef p x).pte = h.pte := rfl

@[simp] theorem setRef_mem (p : ℕ) (x : Word) :
    (h.setRef p x).mem = update h.mem (refWord p) x := rfl

@[simp] theorem unmap_mptr (p : ℕ) : (h.unmap p).mptr = h.mptr := by
  rw [unmap]
  split_ifs <;> rfl

@[simp] theorem unmap_mem (p : ℕ) : (h.unmap p).mem = h.mem := by
  rw [unmap]
  split_ifs <;> rfl

variable {p v n k mptr nwrap b r q : ℕ} {avail : ℕ → Bool}

theorem unmap_pte (hp : p < 0xeec00) (q : ℕ) :
    (h.unmap p).pte q = if q = p then none else h.pte q := by
  rw [unmap, if_pos hp]
  exact update_apply ..

theorem isfree_iff : h.isfree v n = true ↔
    ∀ k < ((v + n) % 2 ^ 32 - v + 4095) / 4096,
      v + k * 4096 < mend ∧ h.pte ((v + k * 4096) / 4096) = none := by
  simp [isfree]

/-- The pages from `v` to the end of the search, counted around the address space. -/
def toMend (v : ℕ) : ℕ := (mend + 2 ^ 32 - v - 1) % 2 ^ 32 / 4096

/-- **The search ends.** Each round moves `mptr` one page towards `mend`. -/
theorem search_total (halign : mptr % 4096 = 0) (hlt : mptr < 2 ^ 32)
    (hwrap : nwrap < 2) (hk : toMend mptr + (1 - nwrap) * 2 ^ 15 < k) :
    ∃ r, h.search n k mptr nwrap = some r := by
  induction k generalizing mptr nwrap with
  | zero => omega
  | succ k ih =>
    rw [search]
    split_ifs with hfree hend htwice
    · exact ⟨_, rfl⟩
    · exact ⟨_, rfl⟩
    · have hbegin : toMend mbegin = 2 ^ 15 - 1 := by decide
      refine ih (by decide) (by decide) (by omega) ?_
      omega
    · refine ih ?_ (Nat.mod_lt _ (by norm_num)) hwrap ?_
      · omega
      · rw [toMend, mend] at hk ⊢
        rw [mend] at hend
        omega

/-- The search stops at free address space or at `mbegin`, and does not leave the arena. -/
theorem search_spec {m : ℕ} {b : Bool} (halign : mptr % 4096 = 0)
    (hlt : mptr < 2 ^ 32) (hs : h.search n k mptr nwrap = some (m, b)) :
    m % 4096 = 0 ∧ m < 2 ^ 32 ∧ (b = true → h.isfree m (n + 4) = true) ∧ (b = false → m = mbegin) ∧
      (mbegin ≤ mptr → mptr < mend → mbegin ≤ m ∧ m < mend) := by
  induction k generalizing mptr nwrap with
  | zero => cases hs
  | succ k ih =>
    rw [search] at hs
    split_ifs at hs with hfree hend htwice
    · cases hs
      exact ⟨halign, hlt, fun _ => hfree, nofun, And.intro⟩
    · cases hs
      exact ⟨by decide, by decide, nofun, fun _ => rfl, fun _ _ => by decide⟩
    · obtain ⟨h1, h2, h3, h4, h5⟩ := ih (by decide) (by decide) hs
      exact ⟨h1, h2, h3, h4, fun _ _ => h5 (by decide) (by decide)⟩
    · obtain ⟨h1, h2, h3, h4, h5⟩ := ih (by omega) (Nat.mod_lt _ (by norm_num)) hs
      rw [mbegin, mend] at *
      exact ⟨h1, h2, h3, h4, fun hlo hhi => h5 (by omega) (by omega)⟩

theorem search_mono {k' : ℕ} {r : ℕ × Bool} (hs : h.search n k mptr nwrap = some r)
    (hle : k ≤ k') : h.search n k' mptr nwrap = some r := by
  induction k generalizing k' mptr nwrap with
  | zero => cases hs
  | succ k ih =>
    obtain ⟨k', rfl⟩ := Nat.exists_eq_add_of_le' hle
    rw [search] at hs
    rw [← Nat.add_assoc, search]
    split_ifs at hs ⊢ with hfree hend htwice
    · exact hs
    · exact hs
    · exact ih hs (by omega)
    · exact ih hs (by omega)

theorem refWord_inj (h : refWord p = refWord q) : p = q := by
  rw [refWord, refWord] at h
  omega

/-- `h'` is `h` after a reference to page `f` has been dropped and the pages from `c` to `f` have
    been unmapped. -/
structure Drops (h : Heap) (c f : ℕ) (h' : Heap) : Prop where
  le : c ≤ f
  cont : ∀ p, c ≤ p → p < f → h.pte p = some true
  last : h.pte f = some false
  mptr : h'.mptr = h.mptr
  mem : h'.mem = update h.mem (refWord f) (h.ref f - 1)
  gone : ∀ p, c ≤ p → p < f → h'.pte p = none
  dropped : h'.pte f = if h.ref f - 1 = 0 then none else some false
  same : ∀ p, p < c ∨ f < p → h'.pte p = h.pte p

namespace Drops

variable {c f : ℕ} (hd : Drops h c f h')
include hd

theorem pte_cases (p : ℕ) : h'.pte p = none ∨ h'.pte p = h.pte p := by
  rcases Nat.lt_or_ge p c with hlt | hge
  · exact .inr (hd.same p (.inl hlt))
  rcases Nat.lt_trichotomy p f with hlt | rfl | hgt
  · exact .inl (hd.gone p hge hlt)
  · rw [hd.dropped, hd.last]
    split_ifs
    · exact .inl rfl
    · exact .inr rfl
  · exact .inr (hd.same p (.inr hgt))

/-- An unmarked page other than `f` is not one of those unmapped. -/
theorem pte_false (hp : h.pte p = some false) (hne : p ≠ f) : h'.pte p = some false := by
  have hout : p < c ∨ f < p := by
    by_contra hin
    rw [hd.cont p (by omega) (by omega)] at hp
    cases hp
  rwa [hd.same p hout]

theorem ref_ne (hp : p ≠ f) : h'.ref p = h.ref p := by
  rw [ref, hd.mem, Function.update_of_ne fun h => hp (refWord_inj h), ref]

end Drops

theorem freeLoop_drops {c : ℕ} (hk : c + k ≤ 0xeec00) (hs : freeLoop k c h = some h') :
    ∃ f, f < c + k ∧ Drops h c f h' := by
  induction k generalizing c h with
  | zero => cases hs
  | succ k ih =>
    have hunmap : ∀ (g : Heap) q, (g.unmap c).pte q = if q = c then none else g.pte q :=
      fun g => unmap_pte (by omega)
    rw [freeLoop] at hs
    split at hs
    · cases hs
    · next hc =>
      obtain ⟨f, hf, hd⟩ := ih (by omega) hs
      have hle := hd.le
      have hne : ∀ p, c + 1 ≤ p → (h.unmap c).pte p = h.pte p := fun p hp => by
        rw [hunmap, if_neg (by omega)]
      refine ⟨f, by omega, ⟨by omega, fun p h1 h2 => ?_, ?_, ?_, ?_, fun p h1 h2 => ?_, ?_,
        fun p hp => ?_⟩⟩
      · rcases Nat.eq_or_lt_of_le h1 with rfl | h1
        · exact hc
        · rw [← hne p h1, hd.cont p h1 h2]
      · rw [← hne f hle, hd.last]
      · rw [hd.mptr, unmap_mptr]
      · rw [hd.mem, ref, unmap_mem, ← ref]
      · rcases Nat.eq_or_lt_of_le h1 with rfl | h1
        · rw [hd.same c (by omega), hunmap, if_pos rfl]
        · exact hd.gone p h1 h2
      · rw [hd.dropped, ref, unmap_mem, ← ref]
      · rw [hd.same p (by omega), hunmap, if_neg (by omega)]
    · next hc =>
      -- the last page: its count goes down by one
      cases hs
      refine ⟨c, by omega, ⟨le_rfl, fun p h1 h2 => by omega, hc, ?_, ?_, fun p h1 h2 => by omega,
        ?_, fun p hp => ?_⟩⟩
      · split_ifs
        · rw [unmap_mptr]
          rfl
        · rfl
      · split_ifs
        · rw [unmap_mem]
          rfl
        · rfl
      · split_ifs
        · rw [hunmap, if_pos rfl]
        · exact hc
      · split_ifs
        · rw [hunmap, if_neg (by omega)]
          rfl
        · rfl

/-- `free` of an address that is not null: the references of the page where its block ends. -/
theorem free_drops (hv : v ≠ 0) (hs : h.free v = some h') :
    mbegin ≤ v ∧ v < mend ∧ ∃ f, f < mend / 4096 ∧ Drops h (v / 4096) f h' := by
  rw [free, if_neg hv] at hs
  split_ifs at hs with hrange
  obtain ⟨hlo, hhi⟩ := hrange
  rw [mend] at hhi
  have hpage : v / 4096 + (mend / 4096 - v / 4096) = mend / 4096 := by
    rw [mend]
    omega
  obtain ⟨f, hf, hd⟩ := freeLoop_drops (by rw [hpage]; decide) hs
  exact ⟨hlo, hhi, f, by rwa [hpage] at hf, hd⟩

theorem unmapDown_spec (hb : b + k < 0xeec00) (h : Heap) :
    (unmapDown b k h).mptr = h.mptr ∧ (unmapDown b k h).mem = h.mem ∧
      ∀ p, (unmapDown b k h).pte p = if b ≤ p ∧ p ≤ b + k then none else h.pte p := by
  induction k generalizing h with
  | zero =>
    rw [unmapDown, Nat.mod_eq_of_lt (show b < 2 ^ 20 by omega)]
    refine ⟨unmap_mptr b, unmap_mem b, fun p => ?_⟩
    rw [unmap_pte (by omega)]
    exact if_congr (by omega) rfl rfl
  | succ k ih =>
    rw [unmapDown, Nat.mod_eq_of_lt (show b + (k + 1) < 2 ^ 20 by omega)]
    obtain ⟨h1, h2, h3⟩ := ih (by omega) (h.unmap (b + (k + 1)))
    refine ⟨h1.trans (unmap_mptr _), h2.trans (unmap_mem _), fun p => ?_⟩
    rw [h3, unmap_pte hb]
    split_ifs <;> first | rfl | omega

/-- All pages were there: those from round `k` on are new, and only the last has a count. -/
theorem allocLoop_ok (hb : b + k + r ≤ 2 ^ 20)
    (hs : allocLoop avail b n r k h = (h', true)) :
    h'.mptr = h.mptr ∧
      (∀ p, h'.pte p = if b + k ≤ p ∧ p < b + k + r then
        some (decide ((p - b) * 4096 + 4096 < n + 4)) else h.pte p) ∧
      ∀ a, a / 1024 < b + k ∨ b + k + r ≤ a / 1024 → h'.mem a = h.mem a := by
  induction r generalizing k h with
  | zero =>
    obtain rfl := (Prod.mk.inj hs).1
    refine ⟨rfl, fun p => ?_, fun _ _ => rfl⟩
    rw [if_neg (by omega)]
  | succ r ih =>
    rw [allocLoop] at hs
    split_ifs at hs with hok
    · obtain ⟨h1, h2, h3⟩ := ih (by omega) hs
      refine ⟨h1, fun p => ?_, fun a ha => ?_⟩
      · rw [h2]
        dsimp only [alloc]
        rw [update_apply]
        split_ifs with hlater hnow hthis hthis
        · rfl
        · omega
        · rw [show p - b = k by omega]
        · omega
        · omega
        · rfl
      · rw [h3 a (by omega)]
        exact if_neg (by omega)
    · cases (Prod.mk.inj hs).2

/-- A page was missing: those of the earlier rounds are given back. -/
theorem allocLoop_failed (hb : b + k + r ≤ 0xeec00)
    (hfree : ∀ p, b + k ≤ p → p < b + k + r → h.pte p = none)
    (hs : allocLoop avail b n r k h = (h', false)) :
    h'.mptr = h.mptr ∧
      (∀ p, h'.pte p = if b ≤ p ∧ p < b + k + r then none else h.pte p) ∧
      ∀ a, a / 1024 < b + k ∨ b + k + r ≤ a / 1024 → h'.mem a = h.mem a := by
  induction r generalizing k h with
  | zero => cases (Prod.mk.inj hs).2
  | succ r ih =>
    rw [allocLoop] at hs
    split_ifs at hs with hok
    · rw [Nat.mod_eq_of_lt (show b + k < 2 ^ 20 by omega)] at hs
      have hlater : ∀ p, b + (k + 1) ≤ p → p < b + (k + 1) + r →
          (h.alloc (b + k) (decide (k * 4096 + 4096 < n + 4))).pte p = none := by
        intro p h1 h2
        refine (update_of_ne ?_ _ _).trans (hfree p ?_ ?_) <;> omega
      obtain ⟨h1, h2, h3⟩ := ih (by omega) hlater hs
      refine ⟨h1, fun p => ?_, fun a ha => ?_⟩
      · rw [h2]
        dsimp only [alloc]
        rw [update_apply]
        split_ifs <;> first | rfl | omega
      · rw [h3 a (by omega)]
        exact if_neg (by omega)
    · obtain rfl := (Prod.mk.inj hs).1
      obtain ⟨h1, h2, h3⟩ := unmapDown_spec (show b + k < 0xeec00 by omega) h
      refine ⟨h1, fun p => ?_, fun a _ => by rw [h2]⟩
      rw [h3]
      split_ifs with hdown hall hall
      · rfl
      · omega
      · exact hfree p (by omega) (by omega)
      · rfl

theorem allocLoop_high (hb : 0xeec00 ≤ b) (hlt : b < 2 ^ 20) :
    allocLoop avail b n (r + 1) 0 h = (h, false) := by
  have hmod : (b + 0) % 2 ^ 20 = b := Nat.mod_eq_of_lt hlt
  rw [allocLoop, hmod, if_neg (by omega), unmapDown, Nat.mod_eq_of_lt hlt, unmap, if_neg (by omega)]

/-- `h'` is `h` with a block of `n` bytes in new pages from page `b` on. -/
structure NewPages (h : Heap) (n b : ℕ) (h' : Heap) : Prop where
  low : b + pagesFor n ≤ mend / 4096
  free : ∀ p, b ≤ p → p < b + pagesFor n → h.pte p = none
  pte : ∀ p, h'.pte p = if b ≤ p ∧ p < b + pagesFor n then
    some (decide (p + 1 < b + pagesFor n)) else h.pte p
  count : h'.ref (b + pagesFor n - 1) = 2
  refs : ∀ p, p < b ∨ b + pagesFor n ≤ p → h'.ref p = h.ref p
  mptr : h'.mptr = b * 4096 + n

/-- `h'` is `h` but for `mptr`, which is at the start of a page. -/
structure Kept (h h' : Heap) : Prop where
  pte : ∀ p, h'.pte p = h.pte p
  refs : ∀ p, h.pte p ≠ none → h'.ref p = h.ref p
  align : h'.mptr % 4096 = 0
  lt : h'.mptr < 2 ^ 32

theorem refWord_div (p : ℕ) : refWord p / 1024 = p := by
  rw [refWord]
  omega

theorem setRef_ref_self (h : Heap) (p : ℕ) (x : Word) : (h.setRef p x).ref p = x := by
  rw [ref, setRef_mem, Function.update_self]

theorem setRef_ref_ne (h : Heap) (x : Word) (hne : refWord q ≠ refWord p) :
    (h.setRef p x).ref q = h.ref q := by
  rw [ref, setRef_mem, update_of_ne hne, ref]

theorem mallocPages_spec (halign : h.mptr % 4096 = 0)
    (hlt : h.mptr < 2 ^ 32) (hn : n < maxMalloc) (hs : h.mallocPages avail n = some (v, h')) :
    ∃ q, (∃ found, h.search n searchFuel h.mptr 0 = some (q * 4096, found)) ∧
      (v = 0 ∧ Kept h h' ∧ h'.mptr = q * 4096 ∨ v = q * 4096 ∧ NewPages h n q h') := by
  rw [maxMalloc] at hn
  rw [mallocPages, Option.map_eq_some_iff] at hs
  obtain ⟨r, hsearch, hs⟩ := hs
  obtain ⟨m, found⟩ := r
  obtain ⟨hmalign, hmlt, hfree, -⟩ := search_spec halign hlt hsearch
  have hm : m = m / 4096 * 4096 := by omega
  refine ⟨m / 4096, ⟨found, by rw [← hm]; exact hsearch⟩, ?_⟩
  have hK : 0 < pagesFor n := by
    rw [pagesFor]
    omega
  split_ifs at hs with hfound
  · replace hfree := isfree_iff.mp (hfree hfound)
    by_cases hover : 2 ^ 32 ≤ m + (n + 4)
    · -- `isfree` says yes to a range that wraps, but nothing can be allocated there
      have hhigh : allocLoop avail (m / 4096) n (pagesFor n) 0 (h.setMptr m) =
          (h.setMptr m, false) := by
        rw [show pagesFor n = pagesFor n - 1 + 1 by omega]
        exact allocLoop_high (by omega) (by omega)
      rw [hhigh] at hs
      cases hs
      exact .inl ⟨rfl, ⟨fun _ => rfl, fun _ _ => rfl, hmalign, hmlt⟩, hm⟩
    have hcount : ((m + (n + 4)) % 2 ^ 32 - m + 4095) / 4096 = pagesFor n := by
      rw [Nat.mod_eq_of_lt (by omega), pagesFor]
      omega
    have hpage : ∀ k, (m + k * 4096) / 4096 = m / 4096 + k := by
      omega
    have hlow : m / 4096 + pagesFor n ≤ mend / 4096 := by
      have hlast := (hfree (pagesFor n - 1) (by omega)).1
      rw [mend] at hlast ⊢
      omega
    have hunmapped : ∀ p, m / 4096 ≤ p → p < m / 4096 + pagesFor n → h.pte p = none := by
      intro p h1 h2
      have hp := (hfree (p - m / 4096) (by omega)).2
      rwa [hpage, Nat.add_sub_cancel' h1] at hp
    have hmend : mend / 4096 = 0x10000 := by decide
    rcases hloop : allocLoop avail (m / 4096) n (pagesFor n) 0 (h.setMptr m) with ⟨g, ok⟩
    rw [hloop] at hs
    cases ok with
    | false =>
      cases hs
      have hunmapped' : ∀ p, m / 4096 + 0 ≤ p → p < m / 4096 + 0 + pagesFor n →
          (h.setMptr m).pte p = none := fun p hp hp' => hunmapped p (by omega) (by omega)
      obtain ⟨h1, h2, h3⟩ := allocLoop_failed (by omega) hunmapped' hloop
      refine .inl ⟨rfl, ⟨fun p => ?_, fun p hp => ?_, by rw [h1]; exact hmalign,
        by rw [h1]; exact hmlt⟩, h1.trans hm⟩
      · rw [h2]
        split_ifs with hin
        · exact (hunmapped p hin.1 hin.2).symm
        · rfl
      · refine h3 _ ?_
        rw [refWord_div]
        by_contra hin
        exact hp (hunmapped p (by omega) (by omega))
    | true =>
      obtain ⟨rfl, rfl⟩ := Prod.mk.inj hs
      obtain ⟨h1, h2, h3⟩ := allocLoop_ok (by omega) hloop
      refine .inr ⟨hm, hlow, hunmapped, fun p => ?_, ?_, fun p hp => ?_, ?_⟩
      · rw [setMptr_pte, setRef_pte, h2, Nat.add_zero]
        split_ifs with hin
        · rw [Option.some.injEq, decide_eq_decide, pagesFor]
          omega
        · rfl
      · rw [setMptr_ref, setRef_ref_self]
      · have hne : refWord p ≠ refWord (m / 4096 + pagesFor n - 1) := by
          intro heq
          have := refWord_inj heq
          omega
        have hkept : g.ref p = h.ref p := h3 _ (by rw [refWord_div]; omega)
        rw [setMptr_ref, setRef_ref_ne g 2 hne, hkept]
      · rw [setMptr_mptr, Nat.mod_eq_of_lt (by omega)]
        omega
  · cases hs
    exact .inl ⟨rfl, ⟨fun _ => rfl, fun _ _ => rfl, hmalign, hmlt⟩, hm⟩

end Heap

end LinuxStudy.User
