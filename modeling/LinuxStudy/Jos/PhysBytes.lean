import LinuxStudy.Jos.E1000

/-!
# Loads and stores of physical bytes

Physical memory is kept in words. These are the rules for its bytes: what a load finds after
a store, for single bytes and for ranges.
-/

namespace LinuxStudy.Jos

open Logged
open Function (update_self update_of_ne)

theorem word_wordBytes (w : Word) : word (wordBytes w) 0 = w := by
  simp only [word, half, wordBytes, List.getD_cons_zero, List.getD_cons_succ]
  rw [BitVec.extractLsb'_append_extractLsb'_eq_extractLsb' (by rfl),
    BitVec.extractLsb'_append_extractLsb'_eq_extractLsb' (by rfl),
    BitVec.extractLsb'_append_extractLsb'_eq_extractLsb' (by rfl)]
  exact BitVec.extractLsb'_eq_self

namespace Pmap

variable {s s' : Pmap} {pa pa' n : ℕ} {b : Byte} {bs : List Byte}

theorem extract_replace (w : Word) (b : Byte) {j k : ℕ} (hj : j < 4) (hk : k < 4) :
    (w &&& ~~~(0xFF#32 <<< (8 * k)) ||| b.setWidth 32 <<< (8 * k)).extractLsb' (8 * j) 8 =
      if j = k then b else w.extractLsb' (8 * j) 8 := by
  have hff : ∀ i, (0xFF#32).getLsbD i = decide (i < 8) := by
    intro i
    rw [show 0xFF#32 = (BitVec.allOnes 8).setWidth 32 from rfl, BitVec.getLsbD_setWidth,
      BitVec.getLsbD_allOnes]
    simp only [← Bool.decide_and]
    exact decide_eq_decide.mpr (by omega)
  ext i hi
  rw [BitVec.getElem_extractLsb']
  simp only [BitVec.getLsbD_or, BitVec.getLsbD_and, BitVec.getLsbD_not, BitVec.getLsbD_shiftLeft,
    hff, BitVec.getLsbD_setWidth]
  have hlt : 8 * j + i < 32 := by omega
  split_ifs with h
  · subst h
    have hpos : ¬8 * j + i < 8 * j := by omega
    simp [hlt, hpos, hi]
    omega
  · rcases Nat.lt_or_gt_of_ne h with h | h
    · have hpos : 8 * j + i < 8 * k := by omega
      simp [hlt, hpos]
    · have hpos : ¬8 * j + i < 8 * k := by omega
      have hfar : ¬8 * j + i - 8 * k < 8 := by omega
      simp [hlt, hpos, hfar, BitVec.getLsbD_of_ge b _ (Nat.le_of_not_lt hfar)]

theorem loadPhys_storePhys_self : (s.storePhys pa b).loadPhys pa = b := by
  rw [loadPhys, storePhys, write]
  dsimp only
  rw [update_self, update_self]
  exact (extract_replace _ b (Nat.mod_lt _ (by decide)) (Nat.mod_lt _ (by decide))).trans
    (if_pos rfl)

theorem loadPhys_storePhys_ne (h : pa' ≠ pa) :
    (s.storePhys pa b).loadPhys pa' = s.loadPhys pa' := by
  rw [loadPhys, storePhys, write, loadPhys]
  dsimp only
  by_cases hframe : pa' / pgsize = pa / pgsize
  · rw [hframe, update_self]
    by_cases hword : Fin.ofNat 1024 (pa' % pgsize / 4) = Fin.ofNat 1024 (pa % pgsize / 4)
    · rw [hword, update_self,
        extract_replace _ b (Nat.mod_lt _ (by decide)) (Nat.mod_lt _ (by decide)), if_neg]
      -- the same word of the same frame: the bytes differ
      have hix := congrArg Fin.val hword
      simp only [Fin.val_ofNat, pgsize] at hix hframe
      omega
    · rw [update_of_ne hword]
  · rw [update_of_ne hframe]

theorem loadPhys_storePhysBytes_out (h : pa' < pa ∨ pa + bs.length ≤ pa') :
    (s.storePhysBytes pa bs).loadPhys pa' = s.loadPhys pa' := by
  induction bs generalizing s pa with
  | nil => rfl
  | cons b bs ih =>
    rw [List.length_cons] at h
    rw [storePhysBytes, ih (by omega), loadPhys_storePhys_ne (by omega)]

theorem loadPhysBytes_congr (h : ∀ i < n, s.loadPhys (pa + i) = s'.loadPhys (pa + i)) :
    s.loadPhysBytes pa n = s'.loadPhysBytes pa n :=
  List.map_congr_left fun i hi => h i (List.mem_range.mp hi)

theorem loadPhysBytes_succ :
    s.loadPhysBytes pa (n + 1) = s.loadPhys pa :: s.loadPhysBytes (pa + 1) n := by
  rw [loadPhysBytes, List.range_succ_eq_map, List.map_cons, List.map_map, loadPhysBytes]
  congr 1
  refine List.map_congr_left fun i _ => ?_
  rw [Function.comp_apply, Nat.succ_eq_add_one, Nat.add_comm i 1, Nat.add_assoc]

theorem loadPhysBytes_storePhysBytes_self :
    (s.storePhysBytes pa bs).loadPhysBytes pa bs.length = bs := by
  induction bs generalizing s pa with
  | nil => rfl
  | cons b bs ih =>
    rw [storePhysBytes, List.length_cons, loadPhysBytes_succ, ih,
      loadPhys_storePhysBytes_out (Or.inl (Nat.lt_succ_self pa)), loadPhys_storePhys_self]

/-! ### Stores through a pointer, inside one page -/

/-- With the page directory in frame `cr3` the page of `va` is frame `f`, writable, and `f` holds
    neither of the tables that say so. -/
def MapsPage (s : Pmap) (cr3 : ℕ) (va : Word) (f : ℕ) : Prop :=
  ∃ pde pte, s.mem cr3 (pdx va) = pde ∧ s.mem (pgnum pde) (ptx va) = pte ∧
    (has pde pteP ∧ has pde pteW) ∧ (has pte pteP ∧ has pte pteW) ∧
    pgnum pte = f ∧ f ≠ cr3 ∧ f ≠ pgnum pde

namespace MapsPage

variable {cr3 f : ℕ} {va va' : Word}

theorem translate (h : s.MapsPage cr3 va f) (write : Bool) :
    s.translate cr3 va write = some (f * pgsize + va.toNat % pgsize) := by
  obtain ⟨pde, pte, hpde, hpte, ⟨hP, hW⟩, ⟨hP', hW'⟩, rfl, -, -⟩ := h
  rw [Pmap.translate, hpde, hpte]
  exact if_pos ⟨hP, hP', fun _ => ⟨hW, hW'⟩⟩

theorem of_mem_eq (h : s.MapsPage cr3 va f) (hmem : ∀ g ≠ f, s'.mem g = s.mem g) :
    s'.MapsPage cr3 va f := by
  obtain ⟨pde, pte, hpde, hpte, hd, ht, hf, hdir, htable⟩ := h
  exact ⟨pde, pte, by rw [hmem cr3 hdir.symm, hpde], by rw [hmem _ htable.symm, hpte], hd, ht, hf,
    hdir, htable⟩

theorem same_page (h : s.MapsPage cr3 va f) (hpage : va'.toNat / pgsize = va.toNat / pgsize) :
    s.MapsPage cr3 va' f := by
  have hd : pdx va' = pdx va := Fin.ext (by
    rw [pdx_val, pdx_val]
    rw [pgsize] at hpage
    omega)
  have ht : ptx va' = ptx va := Fin.ext (by
    rw [ptx_val, ptx_val]
    rw [pgsize] at hpage
    omega)
  rw [MapsPage, hd, ht]
  exact h

end MapsPage

variable {f cr3 : ℕ} {va : Word}

theorem storePhysBytes_mem {g : ℕ} (hpa : f * pgsize ≤ pa)
    (hend : pa + bs.length ≤ (f + 1) * pgsize)
    (hg : g ≠ f) : (s.storePhysBytes pa bs).mem g = s.mem g := by
  induction bs generalizing s pa with
  | nil => rfl
  | cons b bs ih =>
    rw [List.length_cons] at hend
    rw [storePhysBytes, ih (by omega) (by omega), storePhys, write]
    have hframe : pa / pgsize = f := by
      rw [pgsize] at hpa hend ⊢
      omega
    rw [hframe]
    exact update_of_ne hg _ _

theorem page_succ (h : va.toNat % pgsize + 1 < pgsize) :
    (va + 1).toNat / pgsize = va.toNat / pgsize ∧
      (va + 1).toNat % pgsize = va.toNat % pgsize + 1 := by
  rw [show (1 : Word) = 1#32 from rfl, BitVec.toNat_add, BitVec.toNat_ofNat]
  rw [pgsize] at h ⊢
  omega

theorem loadBytes_page (h : s.MapsPage cr3 va f)
    (hend : va.toNat % pgsize + n ≤ pgsize) :
    (s.loadBytes cr3 n va).2 = some (s.loadPhysBytes (f * pgsize + va.toNat % pgsize) n) := by
  induction n generalizing va with
  | zero => rfl
  | succ n ih =>
    have hbyte : (s.loadByte cr3 va).2 = some (s.loadPhys (f * pgsize + va.toNat % pgsize)) := by
      rw [loadByte, Logged.effect, h.translate]
      rfl
    rw [loadBytes, (bind_of_result hbyte).2, loadPhysBytes_succ]
    rcases n with _ | n
    · rfl
    · obtain ⟨hpage, hoff⟩ := page_succ (show va.toNat % pgsize + 1 < pgsize by omega)
      have hrest := ih (h.same_page hpage) (by rw [hoff]; omega)
      rw [hoff, ← Nat.add_assoc] at hrest
      rw [(bind_of_result hrest).2]
      rfl

theorem storeBytes_page (h : s.MapsPage cr3 va f)
    (hend : va.toNat % pgsize + bs.length ≤ pgsize) :
    (s.storeBytes cr3 va bs).2 = some (s.storePhysBytes (f * pgsize + va.toNat % pgsize) bs) := by
  induction bs generalizing s va with
  | nil => rfl
  | cons b bs ih =>
    rw [List.length_cons] at hend
    have hbyte :
        (s.storeByte cr3 va b).2 = some (s.storePhys (f * pgsize + va.toNat % pgsize) b) := by
      rw [storeByte, Logged.effect, h.translate]
      rfl
    rw [storeBytes, (bind_of_result hbyte).2, storePhysBytes]
    rcases bs with _ | ⟨b', bs⟩
    · rfl
    · rw [List.length_cons] at hend ih
      obtain ⟨hpage, hoff⟩ := page_succ (show va.toNat % pgsize + 1 < pgsize by omega)
      have hmaps : (s.storePhys (f * pgsize + va.toNat % pgsize) b).MapsPage cr3 (va + 1) f := by
        have hin : f * pgsize + va.toNat % pgsize + [b].length ≤ (f + 1) * pgsize := by
          rw [List.length_singleton, Nat.add_mul, Nat.one_mul]
          omega
        exact (h.same_page hpage).of_mem_eq fun g hg =>
          storePhysBytes_mem (Nat.le_add_right _ _) hin hg
      have := ih hmaps (by rw [hoff]; omega)
      rw [hoff, ← Nat.add_assoc] at this
      exact this

section Own

variable {P : Word → Prop} {frame : Word → ℕ}

/-! ### Memory of its own -/

/-- The addresses are in writable pages, each in a frame of its own, and these frames hold none of
    the tables by which the pages are reached. -/
structure Own (s : Pmap) (cr3 : ℕ) (P : Word → Prop) (frame : Word → ℕ) : Prop where
  maps : ∀ va, P va → s.MapsPage cr3 va (frame va)
  tables : ∀ va va', P va → P va' → frame va ≠ pgnum (s.mem cr3 (pdx va'))
  single : ∀ va va', P va → P va' → frame va = frame va' → va.toNat / pgsize = va'.toNat / pgsize

/-- The byte at an address, whose page is in the frame. -/
def byteIn (s : Pmap) (frame : Word → ℕ) (va : Word) : Byte :=
    s.loadPhys (frame va * pgsize + va.toNat % pgsize)

theorem add_one_ofNat (i : ℕ) : va + 1 + BitVec.ofNat 32 i = va + BitVec.ofNat 32 (i + 1) := by
  rw [BitVec.ofNat_add, BitVec.add_assoc, BitVec.add_comm (1 : Word)]
  rfl

namespace Own

/-- What is stored in these pages leaves the tables. -/
theorem of_mem_eq (h : s.Own cr3 P frame) (hmem : ∀ g, (∀ va, P va → frame va ≠ g) →
    s'.mem g = s.mem g) : s'.Own cr3 P frame := by
  have hdir : ∀ va, P va → s'.mem cr3 = s.mem cr3 := fun va hva => hmem cr3 fun va' hva' => by
    obtain ⟨_, _, _, _, _, _, _, hne, _⟩ := h.maps va' hva'
    exact hne
  refine ⟨fun va hva => ?_, fun va va' hva hva' => ?_, h.single⟩
  · obtain ⟨pde, pte, hpde, hpte, hrest⟩ := h.maps va hva
    refine ⟨pde, pte, by rw [hdir va hva, hpde], ?_, hrest⟩
    rw [hmem (pgnum pde) fun va' hva' => hpde ▸ h.tables va' va hva' hva, hpte]
  · rw [hdir va hva]
    exact h.tables va va' hva hva'

theorem store (h : s.Own cr3 P frame) (hva : P va) (b : Byte) : ∃ s',
    (s.storeByte cr3 va b).2 = some s' ∧
    (∀ g ≠ frame va, s'.mem g = s.mem g) ∧ s'.byteIn frame va = b ∧
      ∀ va', P va' → va' ≠ va → s'.byteIn frame va' = s.byteIn frame va' := by
  refine ⟨s.storePhys (frame va * pgsize + va.toNat % pgsize) b, ?_, fun g hg => ?_,
    loadPhys_storePhys_self, fun va' hva' hne => loadPhys_storePhys_ne fun hpa => hne ?_⟩
  · rw [storeByte, Logged.effect, (h.maps va hva).translate]
    rfl
  · show (s.storePhysBytes _ [b]).mem g = _
    refine storePhysBytes_mem (Nat.le_add_right _ _) ?_ hg
    have := Nat.mod_lt va.toNat (show 0 < pgsize by decide)
    rw [List.length_singleton, Nat.add_mul, Nat.one_mul]
    omega
  · -- the same physical address: the same frame, and so the same page
    have hoff : ∀ x : Word, x.toNat % pgsize < pgsize := fun x => Nat.mod_lt _ (by decide)
    have h1 := hoff va
    have h2 := hoff va'
    have hframe : frame va' = frame va := by
      rw [pgsize] at *
      omega
    have hpage := h.single va' va hva' hva hframe
    rw [hframe] at hpa
    exact BitVec.eq_of_toNat_eq (by rw [pgsize] at *; omega)

/-- A range is stored, and the other bytes stay. -/
theorem storeBytes (h : s.Own cr3 P frame) (hlen : bs.length ≤ 2 ^ 32)
    (hin : ∀ i < bs.length, P (va + BitVec.ofNat 32 i)) : ∃ s',
    (s.storeBytes cr3 va bs).2 = some s' ∧
      (∀ g, (∀ va, P va → frame va ≠ g) → s'.mem g = s.mem g) ∧
      (∀ i (hi : i < bs.length), s'.byteIn frame (va + BitVec.ofNat 32 i) = bs[i]) ∧
      ∀ va', P va' → (∀ i < bs.length, va' ≠ va + BitVec.ofNat 32 i) →
      s'.byteIn frame va' = s.byteIn frame va' := by
  induction bs generalizing s va with
  | nil => exact ⟨s, rfl, fun _ _ => rfl, nofun, fun _ _ _ => rfl⟩
  | cons b bs ih =>
    rw [List.length_cons] at hlen hin
    have hva : P va := by simpa using hin 0 (Nat.succ_pos _)
    obtain ⟨s1, hstore, hmem1, hself, hother⟩ := h.store hva b
    obtain ⟨s2, hrest, hmem2, hbytes, hkept⟩ :=
      ih (h.of_mem_eq fun g hg => hmem1 g (hg va hva).symm) (by omega) fun i hi =>
        show P (va + 1 + _) by rw [add_one_ofNat]; exact hin (i + 1) (by omega)
    refine ⟨s2, ?_, fun g hg => (hmem2 g hg).trans (hmem1 g (hg va hva).symm), fun i hi =>
      ?_, fun va' hva' hout => ?_⟩
    · rw [Pmap.storeBytes, (bind_of_result hstore).2, hrest]
    · rcases i with _ | i
      · rw [show va + BitVec.ofNat 32 0 = va from BitVec.add_zero va,
          hkept va hva fun i hi => ?_, hself]
        · rfl
        · rw [add_one_ofNat]
          intro heq
          have hnum := congrArg BitVec.toNat heq
          rw [BitVec.toNat_add, BitVec.toNat_ofNat] at hnum
          have := va.isLt
          omega
      · rw [← add_one_ofNat, hbytes i (by simpa using hi)]
        rfl
    · rw [hkept va' hva' fun i hi => by
        rw [add_one_ofNat]; exact hout (i + 1) (by rw [List.length_cons]; omega)]
      exact hother va' hva' fun heq =>
        hout 0 (Nat.succ_pos _) (by rw [heq]; exact (BitVec.add_zero va).symm)

theorem loadBytes (h : s.Own cr3 P frame) {n : ℕ} (hin : ∀ i < n, P (va + BitVec.ofNat 32 i)) :
    (s.loadBytes cr3 n va).2 =
    some ((List.range n).map fun i => s.byteIn frame (va + BitVec.ofNat 32 i)) := by
  induction n generalizing va with
  | zero => rfl
  | succ n ih =>
    have hva : P va := by simpa using hin 0 (Nat.succ_pos _)
    have hbyte : (s.loadByte cr3 va).2 = some (s.byteIn frame va) := by
      rw [loadByte, Logged.effect, (h.maps va hva).translate]
      rfl
    have hrest := ih fun i hi =>
      show P (va + 1 + _) by rw [add_one_ofNat]; exact hin (i + 1) (by omega)
    rw [Pmap.loadBytes, (bind_of_result hbyte).2, (bind_of_result hrest).2, List.range_succ_eq_map,
      List.map_cons, List.map_map, show va + BitVec.ofNat 32 0 = va from BitVec.add_zero va]
    refine congrArg (fun l => some (s.byteIn frame va :: l)) (List.map_congr_left fun i _ => ?_)
    rw [add_one_ofNat, Function.comp_apply]

end Own

end Own

end Pmap

end LinuxStudy.Jos
