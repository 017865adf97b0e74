import LinuxStudy.Jos.PageMap
import LinuxStudy.Jos.WriteAuthority

/-!
# Device memory: `mmio_map_region`

The region `[MMIOBASE, MMIOLIM)` is one entry of `kern_pgdir`, and its table the only one that
`mmio_map_region` writes. Seen from there the calls only extend a list of reservations, each
mapped where it was placed, as long as the size does not vanish when it is rounded up.
-/

namespace LinuxStudy.Jos

open Function (update update_self update_of_ne)
open Pmap
open BitVec (toNat_add toNat_ofNat toNat_sub toNat_and)

/-- The permissions of device memory. -/
def mmioPerm : Word := ptePCD ||| ptePWT ||| pteW

namespace Pmap

/-- `mmio_map_region(pa, size)`: the state, the new value of `base`, and the result. -/
def mmioMapRegion (s : Pmap) (base pa size : Word) : Option (Pmap × Word × Word) :=
  let sizeUp := roundup size
  if sizeUp > mmiolim - base then none
  else
    (s.bootMapRegion s.kernPgdir base (sizeUp.toNat / pgsize) pa mmioPerm).bind fun s =>
      some (s, base + sizeUp, base + sizeUp - sizeUp)

/-- Entry `j` of the table for device memory, as far as there is one. -/
def mmioPte (s : Pmap) (j : Idx) : Word :=
  match frameOf (s.mem s.kernPgdir (pdx mmiobase)) with
  | none => 0#32
  | some f => s.mem f j

end Pmap

/-- The table for device memory, or else the page that would become it, is not `kern_pgdir`. -/
structure MmioReady (s : Pmap) : Prop where
  npages_le : s.npages ≤ 2 ^ 20
  table : ∀ f, frameOf (s.mem s.kernPgdir (pdx mmiobase)) = some f →
    f < s.npages ∧ f ≠ s.kernPgdir ∧ has (s.mem s.kernPgdir (pdx mmiobase)) pteW
  free : frameOf (s.mem s.kernPgdir (pdx mmiobase)) = none → ∀ q, s.pageFreeList = some q →
    q < s.npages ∧ q ≠ s.kernPgdir ∧ (s.pages q).ppRef = 0

section

variable {s s' : Pmap} {va pa perm w : Word} {j : Idx}

/-! ### Addresses of the region -/

theorem mmiobase_toNat : mmiobase.toNat = 0xEF800000 := by decide

theorem mmiolim_toNat : mmiolim.toNat = 0xEFC00000 := by decide

theorem pdx_mmio (hlo : mmiobase.toNat ≤ va.toNat) (hhi : va.toNat < mmiolim.toNat) :
    pdx va = pdx mmiobase := by
  apply Fin.ext
  rw [pdx_val, pdx_val]
  rw [mmiobase_toNat] at *
  rw [mmiolim_toNat] at hhi
  omega

theorem ptx_mmio (hlo : mmiobase.toNat ≤ va.toNat) (hhi : va.toNat < mmiolim.toNat) :
    (ptx va).val = (va.toNat - mmiobase.toNat) / 4096 := by
  rw [ptx_val]
  rw [mmiobase_toNat] at *
  rw [mmiolim_toNat] at hhi
  omega

/-! ### One entry -/

theorem Pmap.mmioPte_table {f : ℕ} (h : frameOf (s.mem s.kernPgdir (pdx mmiobase)) = some f) :
    s.mmioPte j = s.mem f j := by
  rw [mmioPte, h]

theorem MmioReady.store {f : ℕ} (h : MmioReady s)
    (hf : frameOf (s.mem s.kernPgdir (pdx mmiobase)) = some f) :
    MmioReady (s.write f j w) ∧ (s.write f j w).mmioPte = update s.mmioPte j w := by
  have hne := (h.table f hf).2.1
  have hdir : (s.write f j w).mem s.kernPgdir = s.mem s.kernPgdir := mem_write_of_ne _ _ _ hne.symm
  have hf' : frameOf ((s.write f j w).mem (s.write f j w).kernPgdir (pdx mmiobase)) = some f := by
    rw [show (s.write f j w).kernPgdir = s.kernPgdir from rfl, hdir, hf]
  refine ⟨⟨h.npages_le, fun g hg => ?_, fun hnone => ?_⟩, funext fun i => ?_⟩
  · rw [show (s.write f j w).kernPgdir = s.kernPgdir from rfl, hdir] at hg ⊢
    exact h.table g hg
  · rw [hf'] at hnone
    cases hnone
  · rw [mmioPte_table hf', mem_write_self]
    by_cases hi : i = j
    · rw [hi, update_self, update_self]
    · rw [update_of_ne hi, update_of_ne hi, mmioPte_table hf]

/-- `pgdir_walk` with `create` gives the entry in the table, which may be new. -/
theorem MmioReady.walk (h : MmioReady s) (hva : pdx va = pdx mmiobase) {pte : Option Slot}
    (hw : s.pgdirWalk (some s.kernPgdir) va true = some (s', pte)) :
    MmioReady s' ∧ s'.kernPgdir = s.kernPgdir ∧ s'.mmioPte = s.mmioPte ∧
      ∀ slot, pte = some slot → slot.2 = ptx va ∧
        frameOf (s'.mem s'.kernPgdir (pdx mmiobase)) = some slot.1 := by
  cases hf : frameOf (s.mem s.kernPgdir (pdx mmiobase)) with
  | some f =>
    obtain ⟨hlt, -, -⟩ := h.table f hf
    obtain ⟨hP, hpg⟩ := frameOf_eq_some.mp hf
    have hfound : s.pgdirWalk (some s.kernPgdir) va true = some (s, some (f, ptx va)) := by
      simp [pgdirWalk, hva, hP, pteSlot, kaddr, pgnum_pteAddr, hpg, hlt]
    cases hfound.symm.trans hw
    refine ⟨h, rfl, rfl, fun slot hslot => ?_⟩
    cases hslot
    exact ⟨rfl, hf⟩
  | none =>
    have hP : ¬ has (s.mem s.kernPgdir (pdx va)) pteP := by
      rw [hva]
      exact frameOf_eq_none.mp hf
    cases hfree : s.pageFreeList with
    | none =>
      have hfull : s.pgdirWalk (some s.kernPgdir) va true = some (s, none) := by
        simp [pgdirWalk, hP, pageAlloc, hfree]
      cases hfull.symm.trans hw
      refine ⟨h, rfl, rfl, fun slot hslot => ?_⟩
      cases hslot
    | some q =>
      obtain ⟨hlt, hne, href⟩ := h.free hf q hfree
      have hq : q < 2 ^ 20 := hlt.trans_le h.npages_le
      obtain ⟨rfl, rfl⟩ := Prod.mk.inj
        (Option.some.inj ((pgdirWalk_new hP hfree hlt hq href).symm.trans hw))
      have hentry : (s.newTable s.kernPgdir va q).mem s.kernPgdir (pdx mmiobase) = tableWord q := by
        rw [newTable, mem_write_self, ← hva, update_self]
      have hzero : ∀ t, (s.newTable s.kernPgdir va q).mem q t = 0#32 := by
        intro t
        rw [newTable, mem_write_of_ne _ _ _ hne, mem_pageIncref, mem_clear_self]
      have hq' : frameOf ((s.newTable s.kernPgdir va q).mem
          (s.newTable s.kernPgdir va q).kernPgdir (pdx mmiobase)) = some q := by
        rw [show (s.newTable s.kernPgdir va q).kernPgdir = s.kernPgdir from rfl, hentry,
          frameOf_tableWord hq]
      refine ⟨⟨h.npages_le, fun g hg => ?_, fun hnone => ?_⟩, rfl, funext fun i => ?_,
        fun slot hslot => ?_⟩
      · cases hq'.symm.trans hg
        refine ⟨hlt, hne, ?_⟩
        rw [show (s.newTable s.kernPgdir va q).kernPgdir = s.kernPgdir from rfl, hentry]
        rw [tableWord_eq]
        exact (has_mkPte hq (by decide) (by decide) (by decide)).mpr (by decide)
      · rw [hq'] at hnone
        cases hnone
      · -- there was no table, and the new one is empty
        rw [mmioPte_table hq', hzero, mmioPte, hf]
      · cases hslot
        exact ⟨rfl, hq'⟩

theorem MmioReady.mapStep (h : MmioReady s) (hva : pdx va = pdx mmiobase)
    (hs : s.bootMapStep s.kernPgdir va pa perm = some s') :
    MmioReady s' ∧ s'.kernPgdir = s.kernPgdir ∧
      s'.mmioPte = update s.mmioPte (ptx va) (pa ||| perm ||| pteP) := by
  obtain ⟨⟨s1, pte⟩, hwalk, hs⟩ := Option.bind_eq_some_iff.mp hs
  obtain ⟨slot, rfl, hs⟩ := Option.bind_eq_some_iff.mp hs
  obtain ⟨h1, hk, hpte, hslot⟩ := h.walk hva hwalk
  obtain ⟨hidx, hframe⟩ := hslot slot rfl
  obtain ⟨h2, hpte2⟩ := h1.store (j := slot.2) (w := pa ||| perm ||| pteP) hframe
  cases hs
  exact ⟨h2, hk, by rw [hpte2, hpte, hidx]⟩

/-! ### One call -/

/-- The index of the page of the region that `va` lies in. -/
def mmioIndex (va : Word) : ℕ := (va.toNat - mmiobase.toNat) / 4096

/-- The loop of **`boot_map_region`** in the region: the entries it writes, and no others. -/
theorem MmioReady.mapRegion (h : MmioReady s) {base : Word} {n : ℕ} (hal : base.toNat % 4096 = 0)
    (hlo : mmiobase.toNat ≤ base.toNat) (hhi : base.toNat + n * 4096 ≤ mmiolim.toNat)
    (hs : s.bootMapRegion s.kernPgdir base n pa perm = some s') :
    MmioReady s' ∧ s'.kernPgdir = s.kernPgdir ∧ ∀ j : Idx, s'.mmioPte j =
      if mmioIndex base ≤ j.val ∧ j.val < mmioIndex base + n then
        (pa + BitVec.ofNat 32 ((j.val - mmioIndex base) * pgsize)) ||| perm ||| pteP
      else s.mmioPte j := by
  refine forUpTo_counts (fun i t => MmioReady t ∧ t.kernPgdir = s.kernPgdir ∧ ∀ j :
    Idx, t.mmioPte j = if mmioIndex base ≤ j.val ∧ j.val < mmioIndex base + i then
      (pa + BitVec.ofNat 32 ((j.val - mmioIndex base) * pgsize)) ||| perm ||| pteP
    else s.mmioPte j) ⟨h, rfl, fun j => ?_⟩ ?_ hs
  · rw [if_neg (by omega)]
  · rintro i t t' hi hstep ⟨hready, hk, hpte⟩
    have hva : (base + BitVec.ofNat 32 (i * pgsize)).toNat = base.toNat + i * 4096 := by
      rw [toNat_add, toNat_ofNat, pgsize]
      omega
    have hidx : (ptx (base + BitVec.ofNat 32 (i * pgsize))).val = mmioIndex base + i := by
      rw [ptx_mmio (by omega) (by omega), hva, mmioIndex]
      omega
    rw [← hk] at hstep
    obtain ⟨hready', hk', hpte'⟩ := hready.mapStep (pdx_mmio (by omega) (by omega)) hstep
    refine ⟨hready', hk'.trans hk, fun j => ?_⟩
    rw [hpte']
    by_cases hj : j = ptx (base + BitVec.ofNat 32 (i * pgsize))
    · rw [hj, update_self, hidx, if_pos (by omega), Nat.add_sub_cancel_left]
    · have hne : j.val ≠ mmioIndex base + i := fun hval => hj (Fin.ext (hval.trans hidx.symm))
      rw [update_of_ne hj, hpte j]
      split_ifs <;> first | rfl | omega

theorem MmioReady.translate (h : MmioReady s) {p : ℕ} (hp : p < 2 ^ 20)
    (hlo : mmiobase.toNat ≤ va.toNat) (hhi : va.toNat < mmiolim.toNat)
    (hpte : s.mmioPte (ptx va) = mkPte p mmioPerm) :
    s.translate s.kernPgdir va true = some (p * pgsize + va.toNat % pgsize) := by
  have hperm : IsPerm mmioPerm := by decide
  have hW : has (mkPte p mmioPerm) pteW :=
    (has_mkPte hp hperm (by decide) (by decide)).mpr (by decide)
  have hP := has_mkPte_P p mmioPerm
  cases hf : frameOf (s.mem s.kernPgdir (pdx mmiobase)) with
  | none =>
    rw [Pmap.mmioPte, hf] at hpte
    rw [← hpte] at hP
    exact absurd (BitVec.zero_and ..) hP
  | some f =>
    obtain ⟨-, -, hdirW⟩ := h.table f hf
    obtain ⟨hdirP, hpg⟩ := frameOf_eq_some.mp hf
    rw [mmioPte_table hf] at hpte
    rw [Pmap.translate, pdx_mmio hlo hhi]
    simp only [hpg, hpte]
    rw [if_pos ⟨hdirP, hP, fun _ => ⟨hdirW, hW⟩⟩, pgnum_mkPte hp hperm]

end

/-! ### Reservations -/

/-- A reservation: where it was placed, and what for. -/
structure Region where
  start : Word
  pa : Word
  size : Word
  deriving DecidableEq, Repr

namespace Region

/-- The number of pages that hold `size` bytes. -/
def pages (r : Region) : ℕ := (r.size.toNat + 4095) / 4096

/-- The page of the region, as an entry must have it. -/
def entry (r : Region) (i : ℕ) : Word :=
  (r.pa + BitVec.ofNat 32 (i * pgsize)) ||| mmioPerm ||| pteP

end Region

/-- **A reservation that holds**: page-aligned, inside the region, and every byte of it mapped to
    its byte of the device, writable and uncached, and not for user mode. -/
structure Region.Held (r : Region) (s : Pmap) : Prop where
  aligned : pgoff r.start = 0#32
  lower : mmiobase.toNat ≤ r.start.toNat
  upper : r.start.toNat + r.size.toNat ≤ mmiolim.toNat
  maps : ∀ k < r.size.toNat, s.translate s.kernPgdir (r.start + BitVec.ofNat 32 k) true =
    some (r.pa + BitVec.ofNat 32 k).toNat
  flags : ∀ k < r.size.toNat, pteFlags (s.mmioPte (ptx (r.start + BitVec.ofNat 32 k))) =
    pteW ||| ptePCD ||| ptePWT ||| pteP

/-- No byte is in both. -/
def Region.Disjoint (r r' : Region) : Prop :=
  r.start.toNat + r.size.toNat ≤ r'.start.toNat ∨ r'.start.toNat + r'.size.toNat ≤ r.start.toNat

/-- The kernel's memory, the variable `base`, and the reservations made, in order. -/
structure Mmio where
  pmap : Pmap
  base : Word
  reserved : List Region

/-- `mmio_map_region`, which did not panic, or work elsewhere in the kernel. -/
inductive MmioStep : Mmio → Option (Word × Word) → Mmio → Prop
  | call {m : Mmio} {s' : Pmap} {base' pa size v : Word}
      (h : m.pmap.mmioMapRegion m.base pa size = some (s', base', v)) :
      MmioStep m (some (pa, size)) ⟨s', base', m.reserved ++ [⟨v, pa, size⟩]⟩
  | other {m : Mmio} {s' : Pmap} (h : MmioReady s') (hk : s'.kernPgdir = m.pmap.kernPgdir)
      (hpte : s'.mmioPte = m.pmap.mmioPte) : MmioStep m none { m with pmap := s' }

/-- A device address on a page boundary, and a size that can be rounded up to whole pages. -/
def Roundable : Option (Word × Word) → Prop
  | none => True
  | some (pa, size) => pgoff pa = 0#32 ∧ size.toNat ≤ 0xFFFFF000

/-- The reservations fill the region from below and are all mapped. -/
structure MmioInv (m : Mmio) : Prop where
  ready : MmioReady m.pmap
  base_aligned : m.base.toNat % 4096 = 0
  base_lower : mmiobase.toNat ≤ m.base.toNat
  base_upper : m.base.toNat ≤ mmiolim.toNat
  placed : ∀ r ∈ m.reserved, r.start.toNat % 4096 = 0 ∧ mmiobase.toNat ≤ r.start.toNat ∧
    r.start.toNat + r.pages * 4096 ≤ m.base.toNat ∧ r.pa.toNat % 4096 = 0
  entries : ∀ r ∈ m.reserved, ∀ i < r.pages, ∀ j : Idx, j.val = mmioIndex r.start + i →
    m.pmap.mmioPte j = r.entry i
  apart : m.reserved.Pairwise fun r r' => r.start.toNat + r.pages * 4096 ≤ r'.start.toNat

namespace MmioInv

variable {m m' : Mmio} {c : Option (Word × Word)}

theorem start {s : Pmap} (h : MmioReady s) : MmioInv ⟨s, mmiobase, []⟩ where
  ready := h
  base_aligned := show mmiobase.toNat % 4096 = 0 by decide
  base_lower := Nat.le_refl _
  base_upper := show mmiobase.toNat ≤ mmiolim.toNat by decide
  placed r hr := absurd hr List.not_mem_nil
  entries r hr := absurd hr List.not_mem_nil
  apart := .nil

theorem call (I : MmioInv m) {s' : Pmap} {base' pa size v : Word} (hpa : pgoff pa = 0#32)
    (hsize : size.toNat ≤ 0xFFFFF000)
    (h : m.pmap.mmioMapRegion m.base pa size = some (s', base', v)) :
    MmioInv ⟨s', base', m.reserved ++ [⟨v, pa, size⟩]⟩ := by
  have hlo := I.base_lower
  have hhi := I.base_upper
  have hal := I.base_aligned
  have hup : (roundup size).toNat = (size.toNat + 4095) / 4096 * 4096 := by
    rw [roundup_toNat]
    omega
  rw [mmioMapRegion] at h
  split_ifs at h with hfit
  have hroom : m.base.toNat + (size.toNat + 4095) / 4096 * 4096 ≤ mmiolim.toNat := by
    rw [gt_iff_lt, BitVec.not_lt, BitVec.le_def, toNat_sub, hup] at hfit
    omega
  obtain ⟨s1, hs1, hout⟩ := Option.bind_eq_some_iff.mp h
  obtain ⟨rfl, hvals⟩ := Prod.mk.inj (Option.some.inj hout)
  cases hvals
  rw [BitVec.add_sub_cancel]
  rw [hup, pgsize, Nat.mul_div_cancel _ (by decide : 0 < 4096)] at hs1
  obtain ⟨hready, hk, hpte⟩ := I.ready.mapRegion hal hlo hroom hs1
  have hnew : (m.base + roundup size).toNat = m.base.toNat + (size.toNat + 4095) / 4096 * 4096 := by
    rw [toNat_add, hup]
    omega
  refine ⟨hready, ?_, ?_, ?_, fun r hr => ?_, fun r hr i hi j hj => ?_, ?_⟩
  · rw [hnew]
    omega
  · rw [hnew]
    omega
  · rw [hnew]
    omega
  · rcases List.mem_append.mp hr with hr | hr
    · obtain ⟨h1, h2, h3, h4⟩ := I.placed r hr
      exact ⟨h1, h2, by rw [hnew]; omega, h4⟩
    · obtain rfl := List.mem_singleton.mp hr
      exact ⟨hal, hlo, by rw [hnew]; exact Nat.le_refl _, pgoff_eq_zero_iff.mp hpa⟩
  · rw [hpte j]
    rcases List.mem_append.mp hr with hr | hr
    · obtain ⟨h1, h2, h3, -⟩ := I.placed r hr
      have hbelow :
          ¬ (mmioIndex m.base ≤ j.val ∧ j.val < mmioIndex m.base + (size.toNat + 4095) / 4096) := by
        rw [hj, mmioIndex, mmioIndex]
        omega
      rw [if_neg hbelow, I.entries r hr i hi j hj]
    · obtain rfl := List.mem_singleton.mp hr
      have hi' : i < (size.toNat + 4095) / 4096 := hi
      rw [hj, if_pos (by dsimp only; omega), Nat.add_sub_cancel_left, Region.entry]
  · rw [List.pairwise_append]
    refine ⟨I.apart, List.pairwise_singleton .., fun r hr r' hr' => ?_⟩
    obtain rfl := List.mem_singleton.mp hr'
    exact (I.placed r hr).2.2.1

theorem step (I : MmioInv m) (hc : Roundable c) (h : MmioStep m c m') : MmioInv m' := by
  cases h with
  | call h => exact I.call hc.1 hc.2 h
  | other hready hk hpte =>
    exact ⟨hready, I.base_aligned, I.base_lower, I.base_upper, I.placed,
      fun r hr i hi j hj => by rw [hpte]; exact I.entries r hr i hi j hj, I.apart⟩

theorem reserved_holds (I : MmioInv m) {r : Region} (hr : r ∈ m.reserved) : r.Held m.pmap := by
  obtain ⟨hal, hlo, hhi, hpa⟩ := I.placed r hr
  have hbase := mmiobase_toNat
  have hup := I.base_upper
  have hsize : r.size.toNat ≤ r.pages * 4096 := by
    rw [Region.pages]
    omega
  have hadd : ∀ k < r.size.toNat, (r.start + BitVec.ofNat 32 k).toNat = r.start.toNat + k := by
    intro k hk
    rw [toNat_add, toNat_ofNat]
    omega
  have hperm : IsPerm mmioPerm := by decide
  have hentry : ∀ k < r.size.toNat, m.pmap.mmioPte (ptx (r.start + BitVec.ofNat 32 k)) =
      mkPte ((r.pa + BitVec.ofNat 32 k).toNat / 4096) mmioPerm := by
    intro k hk
    have hva := hadd k hk
    have hpage : k / 4096 < r.pages := by
      omega
    rw [I.entries r hr (k / 4096)
      hpage _ (by rw [ptx_mmio (by omega) (by omega), hva, mmioIndex]; omega)]
    rw [Region.entry, mkPte]
    congr 2
    -- the page of the device that byte `k` lies in
    apply BitVec.eq_of_toNat_eq
    have hlt : (r.pa + BitVec.ofNat 32 k).toNat / 4096 < 2 ^ 20 := by omega
    rw [page2pa_toNat hlt, Nat.shiftLeft_eq, toNat_add, toNat_add, toNat_ofNat, toNat_ofNat, pgsize]
    omega
  refine ⟨pgoff_eq_zero_iff.mpr hal, hlo, by omega, fun k hk => ?_, fun k hk => ?_⟩
  · have hva := hadd k hk
    have hlt : (r.pa + BitVec.ofNat 32 k).toNat / 4096 < 2 ^ 20 := by omega
    rw [I.ready.translate hlt (by omega) (by omega) (hentry k hk), hva, pgsize]
    congr 1
    rw [toNat_add, toNat_ofNat]
    omega
  · have hlt : (r.pa + BitVec.ofNat 32 k).toNat / 4096 < 2 ^ 20 := by omega
    rw [hentry k hk, pteFlags_mkPte hlt hperm]
    decide

/-- Regions that end on page boundaries before the next begins have no byte in common. -/
theorem reserved_disjoint (I : MmioInv m) : m.reserved.Pairwise Region.Disjoint :=
  I.apart.imp fun {r r'} h => .inl (by
    have : r.size.toNat ≤ r.pages * 4096 := by
      rw [Region.pages]
      omega
    omega)

end MmioInv

/-- **Reservations of device memory are disjoint and complete**, in every run whose calls ask for
    at most `0xFFFFF000` bytes. -/
theorem mmio_reservations {s : Pmap} (hs : MmioReady s) {l : List (Option (Word × Word))} {m : Mmio}
    (h : Run (fun a c b => MmioStep a c b ∧ Roundable c) ⟨s, mmiobase, []⟩ l m) :
    (∀ r ∈ m.reserved, r.Held m.pmap) ∧ m.reserved.Pairwise Region.Disjoint := by
  have I : MmioInv m := h.invariant MmioInv (.start hs) fun a c b I hstep => I.step hstep.2 hstep.1
  exact ⟨fun r hr => I.reserved_holds hr, I.reserved_disjoint⟩

/-! ### Runs -/

theorem mmioReady_spare : MmioReady Pmap.spare where
  npages_le := by decide
  table f hf := by
    cases hf
  free _ q hq := by
    cases hq
    decide

/-- The registers of the local APIC and of the network card, on the first two pages. -/
theorem mmio_reservations_devices :
    ∃ s' s'', Pmap.spare.mmioMapRegion mmiobase 0xFEE00000#32 4096#32 =
        some (s', mmiobase + 4096#32, mmiobase) ∧
      s'.mmioMapRegion (mmiobase + 4096#32) 0xFEBC0000#32 4096#32 =
        some (s'', mmiobase + 8192#32, mmiobase + 4096#32) ∧
      Region.Held ⟨mmiobase, 0xFEE00000#32, 4096#32⟩ s'' ∧
      Region.Held ⟨mmiobase + 4096#32, 0xFEBC0000#32, 4096#32⟩ s'' ∧
      Region.Disjoint ⟨mmiobase, 0xFEE00000#32, 4096#32⟩
        ⟨mmiobase + 4096#32, 0xFEBC0000#32, 4096#32⟩ := by
  obtain ⟨⟨s', _⟩, hcall, rfl, ⟨s'', _⟩, hcall', rfl⟩ :
      ∃ o ∈ spare.mmioMapRegion mmiobase 0xFEE00000#32 4096#32,
        o.2 = (mmiobase + 4096#32, mmiobase) ∧
        ∃ o' ∈ o.1.mmioMapRegion (mmiobase + 4096#32) 0xFEBC0000#32 4096#32,
          o'.2 = (mmiobase + 8192#32, mmiobase + 4096#32) := by decide
  have hstep : MmioStep ⟨spare, mmiobase, []⟩ (some (0xFEE00000#32, 4096#32))
      ⟨s', mmiobase + 4096#32, [⟨mmiobase, 0xFEE00000#32, 4096#32⟩]⟩ := .call hcall
  have hstep' : MmioStep ⟨s', mmiobase + 4096#32, [⟨mmiobase, 0xFEE00000#32, 4096#32⟩]⟩
      (some (0xFEBC0000#32, 4096#32)) _ := .call hcall'
  obtain ⟨hheld, happart⟩ := mmio_reservations mmioReady_spare
    (.snoc (.single ⟨hstep, by decide, by decide⟩) ⟨hstep', by decide, by decide⟩)
  exact ⟨s', s'', hcall, hcall', hheld _ (List.mem_cons_self ..),
    hheld _ (List.mem_cons_of_mem _ (List.mem_singleton_self _)), List.pairwise_pair.mp happart⟩

/-- **A size above `0xFFFFF000` is rounded up to 0**: the call returns `MMIOBASE` for a region that
    ends far beyond `MMIOLIM`, maps nothing there, and the next call returns the same address. -/
theorem mmio_size_wraps : MmioReady Pmap.spare ∧ pgoff 0xFEE00000#32 = 0#32 ∧
    ∃ s', Pmap.spare.mmioMapRegion mmiobase 0xFEE00000#32 0xFFFFF001#32 =
        some (s', mmiobase, mmiobase) ∧
      mmiolim.toNat < mmiobase.toNat + (0xFFFFF001#32 : Word).toNat ∧
      s'.translate s'.kernPgdir mmiobase true = none ∧
      ((s'.mmioMapRegion mmiobase 0xFEE00000#32 4096#32).map fun out => out.2.2) =
      some mmiobase := by
  refine ⟨mmioReady_spare, by decide, spare, ?_, by decide, by decide, by decide⟩
  rfl

end LinuxStudy.Jos
