import LinuxStudy.Jos.UserMem

/-!
# Numbers of `lib/printfmt.c`
-/

namespace LinuxStudy.User

open Jos

def hexDigits : List Byte := "0123456789abcdef".toList.map fun c => BitVec.ofNat 8 c.toNat

/-- `printnum`, in at most `n` calls; what it gives to `putch`. -/
def printnum (base : ℕ) (padc : Byte) : ℕ → ℕ → ℤ → Option (List Byte)
  | 0, _, _ => none
  | n + 1, num, width => do
    let front ← if base ≤ num then printnum base padc n (num / base) (width - 1)
      else some (List.replicate (width - 1).toNat padc)
    let c ← hexDigits[num % base]?
    some (front ++ [c])

/-- The number that a text stands for. -/
def textNum (base : ℕ) (ds : List Byte) : ℕ := ds.foldl (fun v c => v * base + hexDigits.idxOf c) 0

/-- **What is printed reads back**: digits of the base, padded to the width. -/
theorem printnum_reads_back {base n num : ℕ} (padc : Byte) (width : ℤ) (hb : 1 < base)
    (hb' : base ≤ 16)
    (hn : num < n) : ∃ ds, (∀ c ∈ ds, hexDigits.idxOf c < base) ∧ textNum base ds = num ∧
      printnum base padc n num width =
      some (List.replicate (width.toNat - ds.length) padc ++ ds) := by
  induction n generalizing num width with
  | zero => omega
  | succ n ih =>
    have hdigit : ∀ d < 16, ∃ c ∈ hexDigits[d]?, hexDigits.idxOf c = d := by decide
    have hlast : num % base < base := Nat.mod_lt _ (by omega)
    obtain ⟨c, hc : _ = _, hidx⟩ := hdigit (num % base) (hlast.trans_le hb')
    rw [← hidx] at hlast
    by_cases h : base ≤ num
    · have hlt : num / base < num := Nat.div_lt_self (by omega) hb
      obtain ⟨ds, hall, hval, hds⟩ := ih (width - 1) (hlt.trans_le (by omega))
      refine ⟨ds ++ [c], ?_, ?_, ?_⟩
      · exact List.forall_mem_append.mpr ⟨hall, List.forall_mem_singleton.mpr hlast⟩
      · rw [textNum, List.foldl_concat, ← textNum, hval, hidx, Nat.div_add_mod']
      · simp [printnum, h, hds,
          hc, show (width - 1).toNat = width.toNat - 1 by omega, Nat.sub_sub, Nat.add_comm]
    · have hmod : num % base = num := Nat.mod_eq_of_lt (by omega)
      exact ⟨[c], List.forall_mem_singleton.mpr
        hlast, by simp [textNum, hidx, hmod], by simp [printnum, h, hc]⟩

/-- 255 in base 16. -/
theorem printnum_reads_back_ff : ∃ ds, (∀ c ∈ ds, hexDigits.idxOf c < 16) ∧ textNum 16 ds = 255 ∧
    printnum 16 32#8 256 255 4 = some (List.replicate (4 - ds.length) 32#8 ++ ds) :=
  printnum_reads_back 32#8 4 (by decide) (by decide) (by decide)

end LinuxStudy.User
