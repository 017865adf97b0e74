import LinuxStudy.Jos.UserPointers

/-!
# What `user_mem_check` decides

The addresses of a range are natural numbers here, so that a range may go past the end of the
address space. `user_mem_check` rounds both of its ends in 32-bit arithmetic.
-/

namespace LinuxStudy.Jos

open BitVec (toNat_ofNat lt_def toNat_add)

namespace Pmap

/-- The address is below `ULIM`, and its page-table entry has `PTE_P` and all of `perm`. -/
def AddressOk (s : Pmap) (pgdir : ℕ) (perm : Word) (x : ℕ) : Prop :=
  x < ulim.toNat ∧
    ∃ w, s.userPte (some pgdir) (BitVec.ofNat 32 x) = some w ∧ has w pteP ∧ w &&& perm = perm

/-- The page tables of a directory are pages of the machine. -/
def TablesInRam (s : Pmap) (pgdir : ℕ) : Prop :=
  ∀ i, has (s.mem pgdir i) pteP → pgnum (s.mem pgdir i) < s.npages

section

variable {s : Pmap} {d n x y : ℕ} {start va len perm : Word}

theorem addressOk_page (hx : x < 2 ^ 32) (hpage : y / 4096 = x / 4096) :
    s.AddressOk d perm y ↔ s.AddressOk d perm x := by
  have hpte : s.userPte (some d) (BitVec.ofNat 32 y) = s.userPte (some d) (BitVec.ofNat 32 x) := by
    have hpdx : pdx (BitVec.ofNat 32 y) = pdx (BitVec.ofNat 32 x) := by
      apply Fin.ext
      rw [pdx_val, pdx_val, toNat_ofNat, toNat_ofNat]
      omega
    have hptx : ptx (BitVec.ofNat 32 y) = ptx (BitVec.ofNat 32 x) := by
      apply Fin.ext
      rw [ptx_val, ptx_val, toNat_ofNat, toNat_ofNat]
      omega
    simp only [userPte, hpdx, hptx]
  have hlim : y < ulim.toNat ↔ x < ulim.toNat := by
    rw [ulim_eq, toNat_ofNat]
    omega
  rw [AddressOk, AddressOk, hpte, hlim]

theorem userPageOk_iff (s : Pmap) (perm : Word)
    (h : has (s.mem d (pdx start)) pteP → pgnum (s.mem d (pdx start)) < s.npages) :
    ∃ ok, s.userPageOk (some d) start perm = some ok ∧
    (ok = true ↔ s.AddressOk d perm start.toNat) := by
  rw [AddressOk, BitVec.ofNat_toNat, BitVec.setWidth_eq, userPageOk, userPte, pgdirWalk]
  by_cases hP : has (s.mem d (pdx start)) pteP
  · rw [if_pos hP, if_pos hP, pteSlot, kaddr, pgnum_pteAddr, if_pos (h hP)]
    refine ⟨_, rfl, ?_⟩
    rw [decide_eq_true_iff, lt_def]
    constructor
    · rintro ⟨hlt, hw⟩
      exact ⟨hlt, _, rfl, hw⟩
    · rintro ⟨hlt, w, hw, hok⟩
      cases hw
      exact ⟨hlt, hok⟩
  · rw [if_neg hP, if_neg hP, if_pos rfl]
    exact ⟨false, rfl, by simp⟩

/-- **The loop.** Either all of the `n` pages pass, or it stops at the first that does not. -/
theorem userMemLoop_exact (s : Pmap) (perm : Word) (h : s.TablesInRam d)
    (hend : start.toNat + 4096 * n < 2 ^ 32) : (s.userMemLoop (some d) perm n start = some none ∧
      ∀ i < n, s.AddressOk d perm (start.toNat + 4096 * i)) ∨
    ∃ i < n, s.userMemLoop (some d) perm n start = some (some (byteAt start (4096 * i))) ∧
      ¬ s.AddressOk d perm (start.toNat + 4096 * i) ∧
      ∀ j < i, s.AddressOk d perm (start.toNat + 4096 * j) := by
  induction n generalizing start with
  | zero => exact .inl ⟨rfl, fun i hi => by omega⟩
  | succ n ih =>
    obtain ⟨ok, hok, hiff⟩ := s.userPageOk_iff perm (h (pdx start))
    rw [userMemLoop, hok, Option.bind_some]
    cases ok with
    | false =>
      refine .inr ⟨0, by omega, ?_, fun hz => ?_, fun j hj => by omega⟩
      · rw [if_neg (by decide), byteAt_zero]
      · exact Bool.false_ne_true (hiff.mpr hz)
    | true =>
      have hfirst := hiff.mp rfl
      have hnext : (start + 4096#32).toNat = start.toNat + 4096 := by
        rw [toNat_add, toNat_ofNat]
        omega
      have hshift : ∀ i, (start + 4096#32).toNat + 4096 * i = start.toNat + 4096 * (i + 1) := by
        omega
      -- what holds of the pages after the first one
      have hall : ∀ m, (∀ j < m, s.AddressOk d perm ((start + 4096#32).toNat + 4096 * j)) →
          ∀ j < m + 1, s.AddressOk d perm (start.toNat + 4096 * j) := by
        intro m hm j hj
        cases j with
        | zero => exact hfirst
        | succ j =>
          rw [← hshift]
          exact hm j (by omega)
      rw [if_pos rfl]
      rcases ih (show (start + 4096#32).toNat + 4096 * n < 2 ^ 32 by omega) with
        ⟨hres, hrest⟩ | ⟨i, hi, hres, hbad, hrest⟩
      · exact .inl ⟨hres, hall n hrest⟩
      · refine .inr ⟨i + 1, by omega, ?_, ?_, hall i hrest⟩
        · rw [hres, show start + 4096#32 = start + BitVec.ofNat 32 4096 from rfl, byteAt_add,
            show 4096 + 4096 * i = 4096 * (i + 1) by omega]
        · rwa [← hshift]

end

end Pmap

theorem tablesInRam_sample : Kernel.sample.pmap.TablesInRam 8 := by
  intro i hP
  rw [sample_row] at hP ⊢
  split_ifs at hP ⊢
  · decide
  · decide
  · decide
  · exact absurd hP (by decide)

/-! ### Ranges -/

/-- What `user_mem_check` is to say of `[va, va + len)`: the result is 0 if and only if every
    address of the range passes the test, and otherwise `-E_FAULT` with the smallest address that
    does not. -/
def CheckExact (s : Pmap) (d : ℕ) (va len perm : Word) : Prop :=
  (s.userMemCheck (some d) va len perm = some none ↔
    ∀ x, va.toNat ≤ x → x < va.toNat + len.toNat → s.AddressOk d perm x) ∧
  ((∃ x, va.toNat ≤ x ∧ x < va.toNat + len.toNat ∧ ¬ s.AddressOk d perm x) →
    ∃ bad : Word, s.userMemCheck (some d) va len perm = some (some bad) ∧
      va.toNat ≤ bad.toNat ∧ bad.toNat < va.toNat + len.toNat ∧ ¬ s.AddressOk d perm bad.toNat ∧
      ∀ x, va.toNat ≤ x → x < bad.toNat → s.AddressOk d perm x)

section Ranges

variable {s : Pmap} {d : ℕ} {va len perm : Word}

theorem checkExact_of_fits (htables : s.TablesInRam d) (hlen : 0#32 < len)
    (hwrap : va.toNat + len.toNat + 4095 < 2 ^ 32) : CheckExact s d va len perm := by
  have hlen' : 0 < len.toNat := hlen
  obtain ⟨n, hn⟩ : ∃ n,
    ((Pmap.roundup (va + len)).toNat - (Pmap.rounddown va).toNat) / pgsize = n := ⟨_, rfl⟩
  have hcheck : s.userMemCheck (some d) va len perm =
      (s.userMemLoop (some d) perm n (Pmap.rounddown va)).bind fun bad =>
        some (bad.map fun start => if start < va then va else start) := by
    rw [← hn]
    rfl
  rw [pages_toNat hwrap, rounddown_toNat, show pgsize = 4096 from rfl] at hn
  have hstart := rounddown_toNat va
  -- an address of the range is in one of the pages, and each page has such an address
  have hpageOf : ∀ x, va.toNat ≤ x → x < va.toNat + len.toNat →
      (s.AddressOk d perm x ↔
        s.AddressOk d perm ((Pmap.rounddown va).toNat + 4096 * (x / 4096 - va.toNat / 4096))) := by
    intro x h1 h2
    refine Pmap.addressOk_page ?_ ?_
    · omega
    · omega
  rcases s.userMemLoop_exact perm htables
    (show (Pmap.rounddown va).toNat + 4096 * n < 2 ^ 32 by omega) with
    ⟨hres, hok⟩ | ⟨i, hi, hres, hbad, hok⟩
  · have hall : ∀ x, va.toNat ≤ x → x < va.toNat + len.toNat →
      s.AddressOk d perm x := fun x h1 h2 =>
      (hpageOf x h1 h2).mpr (hok _ (by omega))
    rw [CheckExact, hcheck, hres]
    refine ⟨⟨fun _ => hall, fun _ => rfl⟩, ?_⟩
    rintro ⟨x, h1, h2, hx⟩
    exact absurd (hall x h1 h2) hx
  · have hpage :
      (byteAt (Pmap.rounddown va) (4096 * i)).toNat = va.toNat / 4096 * 4096 + 4096 * i := by
      rw [byteAt, toNat_add, toNat_ofNat, hstart]
      omega
    obtain ⟨bad, hbadeq⟩ : ∃ bad, (if byteAt (Pmap.rounddown va) (4096 * i) < va then va
        else byteAt (Pmap.rounddown va) (4096 * i)) = bad := ⟨_, rfl⟩
    -- the first address of the range in the page
    have hbadNat : va.toNat ≤ bad.toNat ∧ bad.toNat < va.toNat + len.toNat ∧
        bad.toNat / 4096 = va.toNat / 4096 + i ∧ (bad.toNat = va.toNat ∨ bad.toNat % 4096 = 0) := by
      split_ifs at hbadeq with hlt
      · rw [lt_def, hpage] at hlt
        rw [← hbadeq]
        omega
      · rw [lt_def, hpage] at hlt
        rw [← hbadeq, hpage]
        omega
    have hres' : s.userMemCheck (some d) va len perm = some (some bad) := by
      rw [hcheck, hres, Option.bind_some, Option.map_some, hbadeq]
    have hnot : ¬ s.AddressOk d perm bad.toNat := by
      rw [hpageOf _ hbadNat.1 hbadNat.2.1, hbadNat.2.2.1, Nat.add_sub_cancel_left]
      exact hbad
    rw [CheckExact, hres']
    refine ⟨⟨fun h => ?_, fun hall => absurd (hall _ hbadNat.1 hbadNat.2.1) hnot⟩,
      fun _ => ⟨bad, rfl, hbadNat.1, hbadNat.2.1, hnot, fun x h1 h2 => ?_⟩⟩
    · cases Option.some.inj h
    · exact (hpageOf x h1 (by omega)).mpr (hok _ (by omega))

/-- The number of pages when the range wraps: none, or only the one of `va`. -/
theorem pages_wrapped (hwrap : 2 ^ 32 ≤ va.toNat + len.toNat + 4095) :
    ((Pmap.roundup (va + len)).toNat - (Pmap.rounddown va).toNat) / pgsize =
      if 2 ^ 32 < va.toNat % 4096 + len.toNat ∧ va.toNat < 2 ^ 32 - 4096 then 1 else 0 := by
  have hva := va.isLt
  have hlen := len.isLt
  rw [roundup_toNat, rounddown_toNat, toNat_add, show pgsize = 4096 from rfl]
  split_ifs with h
  · omega
  · omega

theorem not_checkExact_of_none (hwrap : 2 ^ 32 ≤ va.toNat + len.toNat + 4095) (hlen : 0#32 < len)
    (hnone : s.userMemCheck (some d) va len perm = some none) : ¬ CheckExact s d va len perm := by
  intro h
  have hlen' : 0 < len.toNat := hlen
  -- the last address of the range is above `ULIM`
  have hlast := (h.1.mp hnone (va.toNat + len.toNat - 1) (by omega) (by omega)).1
  rw [ulim_eq, toNat_ofNat] at hlast
  omega

/-- **`user_mem_check` is exact** if and only if the end of the range, rounded up, is in the address
    space, or the range wraps so far that the page of `va` is looked at and `va` does not pass. -/
theorem user_mem_check_exact (htables : s.TablesInRam d) (hlen : 0#32 < len) :
    CheckExact s d va len perm ↔ va.toNat + len.toNat + 4095 < 2 ^ 32 ∨
      2 ^ 32 < va.toNat % 4096 + len.toNat ∧ va.toNat < 2 ^ 32 - 4096 ∧
      ¬ s.AddressOk d perm va.toNat := by
  by_cases hwrap : va.toNat + len.toNat + 4095 < 2 ^ 32
  · exact ⟨fun _ => .inl hwrap, fun _ => checkExact_of_fits htables hlen hwrap⟩
  rw [not_lt] at hwrap
  have hlt := len.isLt
  have hpage : s.AddressOk d perm (Pmap.rounddown va).toNat ↔ s.AddressOk d perm va.toNat :=
    Pmap.addressOk_page va.isLt (by rw [rounddown_toNat]; omega)
  have hcheck : s.userMemCheck (some d) va len perm = (s.userMemLoop (some d) perm
      (if 2 ^ 32 < va.toNat % 4096 + len.toNat ∧ va.toNat < 2 ^ 32 - 4096 then 1 else 0)
        (Pmap.rounddown va)).bind fun bad =>
        some (bad.map fun start => if start < va then va else start) := by
    rw [← pages_wrapped hwrap]
    rfl
  split_ifs at hcheck with hone
  · obtain ⟨ok, hok, hiff⟩ := s.userPageOk_iff perm (htables (pdx (Pmap.rounddown va)))
    rw [Pmap.userMemLoop, hok, Option.bind_some] at hcheck
    cases ok with
    | true =>
      have hva := hpage.mp (hiff.mp rfl)
      exact ⟨fun h => absurd h (not_checkExact_of_none hwrap hlen hcheck),
        fun h => h.elim (fun h => by omega) fun h => absurd hva h.2.2⟩
    | false =>
      have hva :
        ¬ s.AddressOk d perm va.toNat := fun hva => Bool.false_ne_true (hiff.mpr (hpage.mpr hva))
      have hres : s.userMemCheck (some d) va len perm = some (some va) := by
        rw [hcheck, if_neg Bool.false_ne_true, Option.bind_some, Option.map_some, if_pos]
        rw [lt_def, rounddown_toNat]
        omega
      refine ⟨fun _ => .inr ⟨hone.1, hone.2, hva⟩, fun _ =>
        ⟨⟨fun h => ?_, fun h => ?_⟩, fun _ => ?_⟩⟩
      · cases hres.symm.trans h
      · exact absurd (h _ le_rfl (by omega)) hva
      · exact ⟨va, hres, le_rfl, by omega, hva, fun x h1 h2 => by omega⟩
  · exact ⟨fun h => absurd h (not_checkExact_of_none hwrap hlen hcheck),
      fun h => h.elim (fun h => by omega) fun h => absurd ⟨h.1, h.2.1⟩ hone⟩

end Ranges

/-- The page at `UTEXT` may be written, the page after it is not mapped; and a range that wraps. -/
theorem user_mem_check_exact_utext :
    CheckExact Kernel.sample.pmap 8 utext 4096#32 (pteU ||| pteW) ∧
    Kernel.sample.pmap.userMemCheck (some 8) (utext + 4095#32) 2#32 (pteU ||| pteW) =
      some (some (utext + 4096#32)) ∧
    CheckExact Kernel.sample.pmap 8 0x1800#32 0xFFFFFC00#32 (pteU ||| pteW) := by
  refine ⟨(user_mem_check_exact tablesInRam_sample (by decide)).mpr (.inl (by decide)), by decide,
    (user_mem_check_exact tablesInRam_sample (by decide)).mpr (.inr ⟨by decide, by decide, ?_⟩)⟩
  rintro ⟨_, w, hw, _⟩
  have hnone : Kernel.sample.pmap.userPte (some 8) (BitVec.ofNat 32 0x1800) = none := by decide
  cases hnone.symm.trans hw

/-- A range around the whole address space passes, although address 0 is not mapped. -/
theorem user_mem_check_wraps : ∃ (s : Pmap) (d : ℕ), s.TablesInRam d ∧
    s.userMemCheck (some d) 0#32 0xFFFFFFFF#32 (pteU ||| pteW) = some none ∧
      ¬ s.AddressOk d (pteU ||| pteW) 0 := by
  refine ⟨Kernel.sample.pmap, 8, tablesInRam_sample, by decide, ?_⟩
  rintro ⟨_, w, hw, _⟩
  have hnone : Kernel.sample.pmap.userPte (some 8) (BitVec.ofNat 32 0) = none := by decide
  cases hnone.symm.trans hw

end LinuxStudy.Jos
