import Mathlib.Order.Interval.Finset.Nat
import LinuxStudy.Jos.UserPointers
import LinuxStudy.Jos.WriteAuthority

/-!
# Loading a program: `region_alloc` and `load_icode`

`load_icode` makes room for each segment of an ELF image with `region_alloc` and then copies the
segment through the new environment's own page directory. `region_alloc` rounds the start of the
segment down and its length up, each for itself; if the segment does not start on a page boundary
its last page may not be among the pages mapped, and the copy faults in the kernel.
-/

namespace LinuxStudy.Jos

open RefCount
open BitVec (toNat_ofNat toNat_add lt_def)

namespace Pmap

/-- A new page at `v`, as in the loop of `region_alloc`; without one the kernel panics. -/
def mapPage (s : Pmap) (pgdir : Option ℕ) (v : Word) : Option Pmap :=
  (s.pageAlloc false).bind fun (s, p) =>
    p.bind fun p => (s.pageInsert pgdir p v (pteU ||| pteW)).bind fun (s, r) =>
      if r = 0 then some s else none

/-- `region_alloc(e, va, len)`, with the page directory of `e`. -/
def regionAlloc (s : Pmap) (pgdir : Option ℕ) (va len : Word) : Option Pmap :=
  let v := rounddown va
  let l := roundup len
  forUpTo (fun i s =>
    (s.mapPage pgdir (v + BitVec.ofNat 32 (i * pgsize))).bind fun s =>
      -- v has been advanced when it is compared
      if v + BitVec.ofNat 32 (i * pgsize) + 4096#32 > va ∧
      BitVec.ofNat 32 (i * pgsize) < len then some s
      else none) (l.toNat / pgsize) s

end Pmap

/-- A little-endian halfword and a word of the image. -/
def halfAt (binary : ℕ → Byte) (i : ℕ) : BitVec 16 := binary (i + 1) ++ binary i
def wordAt (binary : ℕ → Byte) (i : ℕ) : Word := halfAt binary (i + 2) ++ halfAt binary i

def elfMagic : Word := 0x464C457F#32
def elfProgLoad : Word := 1#32

/-- The fields of `struct Proghdr` that `load_icode` reads. -/
structure Proghdr where
  pType : Word
  pOffset : Word
  pVa : Word
  pFilesz : Word
  pMemsz : Word
  deriving DecidableEq, Repr

/-- The program header at an offset in the image. -/
def proghdr (binary : ℕ → Byte) (i : ℕ) : Proghdr where
  pType := wordAt binary i
  pOffset := wordAt binary (i + 4)
  pVa := wordAt binary (i + 8)
  pFilesz := wordAt binary (i + 16)
  pMemsz := wordAt binary (i + 20)

/-- The `e_phnum` headers from `e_phoff` on. -/
def proghdrs (binary : ℕ → Byte) : List Proghdr :=
  (List.range (halfAt binary 44).toNat).map fun i =>
    proghdr binary ((wordAt binary 28).toNat + 32 * i)

namespace Pmap

/-- `memcpy` of the file's bytes of a segment and `memset` of the rest. -/
def copySegment (s : Pmap) (cr3 : ℕ) (binary : ℕ → Byte) (ph : Proghdr) : Option Pmap :=
  (s.storeBytes cr3 ph.pVa
    ((List.range ph.pFilesz.toNat).map fun j => binary (ph.pOffset.toNat + j))).2.bind fun s =>
      if ph.pFilesz < ph.pMemsz then
        (s.storeBytes cr3 (ph.pVa + ph.pFilesz) (List.replicate (ph.pMemsz - ph.pFilesz).toNat 0)).2
      else some s

/-- The loop of `load_icode` over the program headers. -/
def loadSegments (s : Pmap) (cr3 : ℕ) (binary : ℕ → Byte) : List Proghdr → Option Pmap
  | [] => some s
  | ph :: phs =>
    if ph.pType = elfProgLoad then
      (s.regionAlloc (some cr3) ph.pVa ph.pMemsz).bind fun s =>
        (s.copySegment cr3 binary ph).bind fun s => s.loadSegments cr3 binary phs
    else s.loadSegments cr3 binary phs

end Pmap

/-- The loop of `load_icode` comes to the segment `ph` in state `s₁`. -/
def SegmentAt (s : Pmap) (cr3 : ℕ) (binary : ℕ → Byte) (phs : List Proghdr) (ph : Proghdr)
    (s₁ : Pmap) : Prop :=
  ph.pType = elfProgLoad ∧ ∃ before after, phs = before ++ ph :: after ∧
    s.loadSegments cr3 binary before = some s₁

/-- `load_icode(e, binary)`. -/
def Kernel.loadIcode (k : Kernel) (e : EnvIx) (binary : ℕ → Byte) : Option Kernel :=
  if wordAt binary 0 = elfMagic then
    (k.envs e).envPgdir.bind fun cr3 =>
      (k.pmap.loadSegments cr3 binary (proghdrs binary)).bind fun s =>
        (s.regionAlloc (some cr3) (ustacktop - 4096#32) 4096#32).bind fun s =>
          some ((k.setPmap s).setEnv e fun env =>
            { env with envTf := { env.envTf with tfEip := wordAt binary 24 } })
  else none

section Fresh

variable {F : Set ℕ} {dirs : EnvIx → Option ℕ} {s s' : Pmap} {l l' : List ℕ} {e : EnvIx}
  {i t : Idx} {w : Word} {pp q : ℕ} {x : Site}

namespace EntrySet

/-- Where a reference comes from after an entry was set: it was there, or is the entry itself, or
    a new table from the free list. -/
theorem ref_cases (L : Sound F dirs s l) (E : EntrySet F dirs s (fun _ => 0) l e i t w s' l')
    (h : ref dirs s' x = some q) :
    ref dirs s x = some q ∨ x = .page e i t ∧ frameOf w = some q ∨
      x = .table e i ∧ q ∈ l ∧ frameOf (pde dirs s e i) = none := by
  cases x with
  | dir e' => exact .inl h
  | table e' i' =>
    rcases E.pde_eq e' i' with hsame | ⟨rfl, rfl, hnone, q', hq', hnew⟩
    · rw [ref, hsame] at h
      exact .inl h
    · have hlt : q' < 2 ^ 20 := (L.frame_lt q' (L.free q' hq').1).trans_le L.npages_le
      rw [ref, hnew, frameOf_tableWord hlt] at h
      cases h
      exact .inr (.inr ⟨rfl, hq', hnone⟩)
  | page e' i' t' =>
    rw [ref, E.pte_eq] at h
    split_ifs at h with hat
    · obtain ⟨rfl, rfl, rfl⟩ := hat
      exact .inr (.inl ⟨rfl, h⟩)
    · exact .inl h
  | kern j =>
    obtain ⟨hk, hkeep⟩ := E.keeps
    have hrow : s'.mem s.kernPgdir j = s.mem s.kernPgdir j :=
      hkeep _ j (fun hl => L.kern_dir (L.free _ hl).1) (fun e' i' ht => L.kern_dir (L.table_mem ht))
        fun e' hd => absurd (L.dir_mem hd) L.kern_dir
    rw [ref, hk, hrow] at h
    exact .inl h

theorem bounded (L : Sound F dirs s l)
    (E : EntrySet F dirs s (fun _ => 0) l e i t (mkPte pp (pteU ||| pteW)) s' l')
    (hpp : pp < 2 ^ 20) (hfresh : refs dirs s pp = 0) (hppl : pp ∉ l)
    (hb : ∀ p, refs dirs s p < 65536) (p : ℕ) : refs dirs s' p < 65536 := by
  have hw : frameOf (mkPte pp (pteU ||| pteW)) = some pp := frameOf_mkPte hpp (by decide)
  have hunused : ∀ p, refs dirs s p = 0 → ∀ y, ref dirs s y ≠ some p := fun p hp =>
    count_eq_zero_iff.mp hp
  by_cases hp : p = pp
  · subst hp
    have hone : refs dirs s' p ≤ 1 := by
      refine count_le_one (.page e i t) fun y hy => ?_
      rcases E.ref_cases L hy with hold | ⟨hat, -⟩ | ⟨-, hl, -⟩
      · exact absurd hold (hunused p hfresh y)
      · exact hat
      · exact absurd hl hppl
    omega
  · by_cases hl : p ∈ l
    · have hone : refs dirs s' p ≤ 1 := by
        refine count_le_one (.table e i) fun y hy => ?_
        rcases E.ref_cases L hy with hold | ⟨-, hwp⟩ | ⟨hat, -, -⟩
        · exact absurd hold (hunused p (L.free p hl).2.1 y)
        · exact absurd (Option.some.inj (hwp.symm.trans hw)) hp
        · exact hat
      omega
    · refine (count_le_count fun y hy => ?_).trans_lt (hb p)
      rcases E.ref_cases L hy with hold | ⟨-, hwp⟩ | ⟨-, hl', -⟩
      · exact hold
      · exact absurd (Option.some.inj (hwp.symm.trans hw)) hp
      · exact absurd hl' hl

theorem free_length (L : Sound F dirs s l)
    (E : EntrySet F dirs s (fun _ => 0) l e i t (mkPte pp (pteU ||| pteW)) s' l')
    (hpp : pp < 2 ^ 20) (hppl : pp ∉ l) :
    l.length ≤ l'.length + if frameOf (pde dirs s e i) = none then 1 else 0 := by
  have hw : frameOf (mkPte pp (pteU ||| pteW)) = some pp := frameOf_mkPte hpp (by decide)
  have hgone : ∀ q ∈ l, q ∉ l' →
      frameOf (pde dirs s e i) = none ∧ frameOf (pde dirs s' e i) = some q := by
    intro q hq hq'
    obtain ⟨hF, hzero, -⟩ := L.free q hq
    have hpos : 0 < refs dirs s' q := by
      have := (E.accounted q hF (.inl hq)).resolve_left hq'
      omega
    obtain ⟨x, hx⟩ := count_pos_iff.mp hpos
    rcases E.ref_cases L hx with hold | ⟨-, hwq⟩ | ⟨rfl, -, hnone⟩
    · exact absurd hold (count_eq_zero_iff.mp hzero x)
    · cases hw.symm.trans hwq
      exact absurd hq hppl
    · exact ⟨hnone, hx⟩
  have hnodup : l.Nodup := L.chain.nodup
  split_ifs with habsent
  · -- all but the new table are still there
    cases hq : frameOf (pde dirs s' e i) with
    | none =>
      have hsub : l ⊆ l' := fun q hql => by
        by_contra hq'
        rw [(hgone q hql hq').2] at hq
        cases hq
      exact (hnodup.subperm hsub).length_le.trans (Nat.le_succ _)
    | some r =>
      have hsub : l.erase r ⊆ l' := fun q hql => by
        by_contra hq'
        have hne := (hnodup.mem_erase_iff.mp hql).1
        have := (hgone q (List.mem_of_mem_erase hql) hq').2
        exact hne (Option.some.inj (this.symm.trans hq))
      have hlen := ((hnodup.erase r).subperm hsub).length_le
      have : l.length - 1 ≤ (l.erase r).length := by
        rw [List.length_erase]
        split_ifs <;> omega
      omega
  · have hsub : l ⊆ l' := fun q hql => by
      by_contra hq'
      exact habsent (hgone q hql hq').1
    exact (hnodup.subperm hsub).length_le

end EntrySet

end Fresh

/-! ### One page -/

/-- The directory of `e`, with the pages on the free list; its tables are open to user mode, as
    `pgdir_walk` makes them. -/
structure Loading (F : Set ℕ) (dirs : EnvIx → Option ℕ) (s : Pmap) (e : EnvIx) (d : ℕ)
    (l : List ℕ) : Prop where
  ledger : Sound F dirs s l
  dir : dirs e = some d
  bounded : ∀ p, refs dirs s p < 65536
  tables : ∀ i f, frameOf (pde dirs s e i) = some f → has (pde dirs s e i) pteU ∧
    has (pde dirs s e i) pteW

/-- User mode can write at `va`. -/
structure UserWritable (dirs : EnvIx → Option ℕ) (s : Pmap) (e : EnvIx) (va : Word) : Prop where
  table : frameOf (pde dirs s e (pdx va)) ≠ none
  table_user : has (pde dirs s e (pdx va)) pteU ∧ has (pde dirs s e (pdx va)) pteW
  page : frameOf (pte dirs s e (pdx va) (ptx va)) ≠ none
  page_user : has (pte dirs s e (pdx va) (ptx va)) pteU ∧ has (pte dirs s e (pdx va) (ptx va)) pteW

section Load

variable {F : Set ℕ} {dirs : EnvIx → Option ℕ} {s s' : Pmap} {e : EnvIx} {d : ℕ} {l : List ℕ}
  {v va va' len : Word}

/-- Tables stay, and mapped pages are mapped again at most. -/
structure Maps (dirs : EnvIx → Option ℕ) (s s' : Pmap) (e : EnvIx) (v : Word) : Prop where
  here : UserWritable dirs s' e v
  tables : ∀ i, frameOf (pde dirs s e i) ≠ none → pde dirs s' e i = pde dirs s e i
  pages : ∀ i t, ¬ (i = pdx v ∧ t = ptx v) → pte dirs s' e i t = pte dirs s e i t

theorem has_tableWord (q : ℕ) (hq : q < 2 ^ 20) : has (tableWord q) pteU ∧
    has (tableWord q) pteW := by
  rw [tableWord_eq]
  exact ⟨(has_mkPte hq (by decide) (by decide) (by decide)).mpr (by decide),
    (has_mkPte hq (by decide) (by decide) (by decide)).mpr (by decide)⟩

/-- **One iteration of `region_alloc`**: a page at `v`, if there is one for it and one for its
    table. -/
theorem Loading.mapPage (L : Loading F dirs s e d l) (hv : v < utop) :
    (s.mapPage (some d) v = none ∧
      l.length < 1 + if frameOf (pde dirs s e (pdx v)) = none then 1 else 0) ∨
    ∃ s' l', s.mapPage (some d) v = some s' ∧ Loading F dirs s' e d l' ∧ Maps dirs s s' e v ∧
      l.length ≤ l'.length + 1 + if frameOf (pde dirs s e (pdx v)) = none then 1 else 0 := by
  have hi := (lt_utop_iff v).mp hv
  cases l with
  | nil =>
    left
    rw [Pmap.mapPage, L.ledger.alloc_nil]
    exact ⟨rfl, by rw [List.length_nil]; omega⟩
  | cons p l =>
    obtain ⟨s1, halloc, L1, hpde, hpte, href, -⟩ := L.ledger.alloc false
    obtain ⟨hpF, hfree, -⟩ := L.ledger.free p List.mem_cons_self
    have hnodup := List.nodup_cons.mp L.ledger.chain.nodup
    have hlt : p < 2 ^ 20 := (L.ledger.frame_lt p hpF).trans_le L.ledger.npages_le
    have hrefs : ∀ q, refs dirs s1 q = refs dirs s q := fun q => by rw [refs, refs, href]
    have hfresh : refs dirs s1 p = 0 := (hrefs p).trans hfree
    have hb : ∀ q, refs dirs s1 q < 65536 := fun q => by rw [hrefs]; exact L.bounded q
    have hmap :
      s.mapPage (some d) v = (s1.pageInsert (some d) p v (pteU ||| pteW)).bind fun (s, r) =>
        if r = 0 then some s else none := by
      rw [Pmap.mapPage, halloc]
      rfl
    rw [hmap, ← hpde]
    rcases L1.insert L.dir hi (show IsPerm (pteU ||| pteW) by decide) hpF hnodup.1
      (fun x hx => absurd hx (count_eq_zero_iff.mp hfresh x))
        (fun q _ => by rw [Nat.add_zero]; exact hb q) with
      ⟨hnone, rfl, hins⟩ | ⟨s', l', hins, E⟩
    · left
      rw [if_pos hnone, hins]
      exact ⟨rfl, by rw [List.length_singleton]; omega⟩
    · right
      have hword : pte dirs s' e (pdx v) (ptx v) = mkPte p (pteU ||| pteW) := by
        rw [E.pte_eq, if_pos ⟨rfl, rfl, rfl⟩]
      have hpage : frameOf (pte dirs s' e (pdx v) (ptx v)) ≠ none := by
        rw [hword, frameOf_mkPte hlt (by decide)]
        rintro ⟨⟩
      have htables : ∀ i f, frameOf (pde dirs s' e i) = some f →
          has (pde dirs s' e i) pteU ∧ has (pde dirs s' e i) pteW := by
        intro i f hf
        rcases E.pde_eq e i with hsame | ⟨-, rfl, -, q, hq, hnew⟩
        · rw [hsame, hpde] at hf ⊢
          exact L.tables i f hf
        · rw [hnew]
          exact has_tableWord q ((L1.frame_lt q (L1.free q hq).1).trans_le L1.npages_le)
      obtain ⟨g, hg, -⟩ := exists_table_of_page (Option.ne_none_iff_exists'.mp hpage).choose_spec
      refine ⟨s', l', by rw [hins]; rfl,
        ⟨E.ledger, L.dir, E.bounded L1 hlt hfresh hnodup.1 hb, htables⟩,
        ⟨⟨by rw [hg]; rintro ⟨⟩, htables _ g hg, hpage, ?_⟩, fun i hi' => ?_, fun i t hne => ?_⟩,
        ?_⟩
      · rw [hword]
        exact ⟨(has_mkPte hlt (by decide) (by decide) (by decide)).mpr (by decide),
          (has_mkPte hlt (by decide) (by decide) (by decide)).mpr (by decide)⟩
      · rcases E.pde_eq e i with hsame | ⟨-, rfl, hnone, -⟩
        · rw [hsame, hpde]
        · rw [hpde] at hnone
          exact absurd hnone hi'
      · rw [E.pte_eq, if_neg fun h => hne h.2, hpte]
      · have := E.free_length L1 hlt hnodup.1
        rw [List.length_cons]
        omega

theorem UserWritable.of_maps (h : UserWritable dirs s e va) (M : Maps dirs s s' e v) :
    UserWritable dirs s' e va := by
  have htable := M.tables _ h.table
  by_cases hat : pdx va = pdx v ∧ ptx va = ptx v
  · obtain ⟨hd, ht⟩ := hat
    have := M.here
    exact ⟨by rw [hd]; exact this.table, by rw [hd]; exact this.table_user,
      by rw [hd, ht]; exact this.page, by rw [hd, ht]; exact this.page_user⟩
  · have hpage := M.pages _ _ hat
    exact ⟨by rw [htable]; exact h.table, by rw [htable]; exact h.table_user,
      by rw [hpage]; exact h.page, by rw [hpage]; exact h.page_user⟩

theorem UserWritable.was (h : UserWritable dirs s' e va) (M : Maps dirs s s' e v)
    (hat : ¬ (pdx va = pdx v ∧ ptx va = ptx v)) : UserWritable dirs s e va := by
  obtain ⟨_, hu, hp, hpu⟩ := h
  rw [M.pages _ _ hat] at hp hpu
  obtain ⟨p, hp'⟩ := Option.ne_none_iff_exists'.mp hp
  obtain ⟨g, hg, -⟩ := exists_table_of_page hp'
  have hne : frameOf (pde dirs s e (pdx va)) ≠ none := by
    rw [hg]
    rintro ⟨⟩
  rw [M.tables _ hne] at hu
  exact ⟨hne, hu, hp, hpu⟩

theorem UserWritable.same_page (h : UserWritable dirs s e va)
    (hpage : va'.toNat / 4096 = va.toNat / 4096) : UserWritable dirs s e va' := by
  have hd : pdx va' = pdx va := Fin.ext (by rw [pdx_val, pdx_val]; omega)
  have ht : ptx va' = ptx va := Fin.ext (by rw [ptx_val, ptx_val]; omega)
  exact ⟨by rw [hd]; exact h.table, by rw [hd]; exact h.table_user, by rw [hd, ht]; exact h.page,
    by rw [hd, ht]; exact h.page_user⟩

/-! ### region_alloc -/

/-- The directory entries without a table, among those for pages `i` with `i ∈ I` from `v` on. -/
def missingTables (dirs : EnvIx → Option ℕ) (s : Pmap) (e : EnvIx) (v : Word) (I : Finset ℕ) :
    Finset Idx :=
  (I.image fun i => pdx (v + BitVec.ofNat 32 (i * pgsize))).filter fun j =>
    frameOf (pde dirs s e j) = none

/-- The number of pages that `region_alloc` maps. -/
def regionPages (len : Word) : ℕ := (Pmap.roundup len).toNat / pgsize

/-- The last byte of the range is in one of the pages that `region_alloc` maps. -/
def RoundedEnd (va len : Word) : Prop := va.toNat % pgsize + len.toNat ≤ regionPages len * pgsize

instance (va len : Word) : Decidable (RoundedEnd va len) := inferInstanceAs (Decidable (_ ≤ _))

/-- There is no last byte, or `region_alloc` maps its page, or it was mapped before. -/
def Covered (dirs : EnvIx → Option ℕ) (s : Pmap) (e : EnvIx) (va len : Word) : Prop :=
  len = 0#32 ∨ RoundedEnd va len ∨ UserWritable dirs s e (va + len - 1#32)

theorem regionPages_eq (h : va.toNat + len.toNat ≤ utop.toNat) :
    regionPages len = (len.toNat + 4095) / 4096 := by
  have hval : (len + 4096#32 - 1#32).toNat = len.toNat + 4095 := by
    rw [utop_eq] at h
    simp only [toNat_ofNat] at h
    rw [BitVec.toNat_sub, toNat_add]
    simp only [toNat_ofNat]
    omega
  rw [regionPages, Pmap.roundup, rounddown_toNat, hval, pgsize, Nat.mul_div_cancel _ (by decide)]

theorem region_page (h : va.toNat + len.toNat ≤ utop.toNat) {i : ℕ} (hi : i < regionPages len) :
    (Pmap.rounddown va + BitVec.ofNat 32 (i * pgsize)).toNat = va.toNat / 4096 * 4096 + i * 4096 ∧
      Pmap.rounddown va + BitVec.ofNat 32 (i * pgsize) < utop ∧
      (Pmap.rounddown va + BitVec.ofNat 32 (i * pgsize) + 4096#32 > va ∧
        BitVec.ofNat 32 (i * pgsize) < len) := by
  rw [regionPages_eq h] at hi
  rw [utop_eq] at h ⊢
  simp only [toNat_ofNat] at h
  have hv : (Pmap.rounddown va + BitVec.ofNat 32 (i * pgsize)).toNat = va.toNat / 4096 * 4096 +
      i * 4096 := by
    rw [toNat_add, rounddown_toNat, toNat_ofNat, pgsize]
    omega
  refine ⟨hv, ?_, ?_, ?_⟩
  · rw [lt_def, hv, toNat_ofNat]
    omega
  · rw [gt_iff_lt, lt_def, toNat_add, hv, toNat_ofNat]
    omega
  · rw [lt_def, toNat_ofNat, pgsize]
    omega

theorem last_byte (hend : va.toNat + len.toNat ≤ utop.toNat) (hpos : 0 < len.toNat) :
    (va + len - 1#32).toNat = va.toNat + len.toNat - 1 := by
  rw [utop_eq] at hend
  simp only [toNat_ofNat] at hend
  rw [BitVec.toNat_sub, toNat_add]
  simp only [toNat_ofNat]
  omega

section

variable (L : Loading F dirs s e d l)
include L

section

variable (hend : va.toNat + len.toNat ≤ utop.toNat)
include hend

/-- After **`region_alloc`** every page that it counts is mapped, with enough pages or not; a page
    that it does not count is mapped if it was before. -/
theorem Loading.regionAlloc
    (h : s.regionAlloc (some d) va len = some s') :
    (∃ l', Loading F dirs s' e d l') ∧
      (∀ i < regionPages len,
        UserWritable dirs s' e (Pmap.rounddown va + BitVec.ofNat 32 (i * pgsize))) ∧
      ∀ a : Word, (UserWritable dirs s e a → UserWritable dirs s' e a) ∧
        (va.toNat / 4096 + regionPages len ≤ a.toNat / 4096 → UserWritable dirs s' e a →
          UserWritable dirs s e a) := by
  refine forUpTo_counts (fun n t => (∃ l', Loading F dirs t e d l') ∧
    (∀ i < n, UserWritable dirs t e (Pmap.rounddown va + BitVec.ofNat 32 (i * pgsize))) ∧
    ∀ a : Word, (UserWritable dirs s e a → UserWritable dirs t e a) ∧
      (va.toNat / 4096 + regionPages len ≤ a.toNat / 4096 → UserWritable dirs t e a →
        UserWritable dirs s e a))
    ⟨⟨l, L⟩, fun i hi => absurd hi (Nat.not_lt_zero i), fun a => ⟨id, fun _ => id⟩⟩ ?_ h
  rintro n t t' hn hstep ⟨⟨lt, Lt⟩, hmapped, hrest⟩
  obtain ⟨hval, hv, hassert⟩ := region_page hend hn
  obtain ⟨t1, hmap, hstep⟩ := Option.bind_eq_some_iff.mp hstep
  rw [if_pos hassert] at hstep
  cases hstep
  rcases Lt.mapPage hv with ⟨hnone, -⟩ | ⟨t2, l', hmap', Lt', M, -⟩
  · rw [hnone] at hmap
    cases hmap
  · cases hmap'.symm.trans hmap
    refine ⟨⟨l', Lt'⟩, fun i hi => ?_, fun a =>
      ⟨fun ha => ((hrest a).1 ha).of_maps M, fun hpast ha => ?_⟩⟩
    · rcases Nat.lt_succ_iff_lt_or_eq.mp hi with hi | rfl
      · exact (hmapped i hi).of_maps M
      · exact M.here
    · refine (hrest a).2 hpast (ha.was M ?_)
      rintro ⟨hd, ht⟩
      have hd := congrArg Fin.val hd
      have ht := congrArg Fin.val ht
      rw [pdx_val, pdx_val, hval] at hd
      rw [ptx_val, ptx_val, hval] at ht
      omega

/-- With a page for each page and each table that is missing **`region_alloc` returns**. -/
theorem Loading.regionAlloc_returns
    (hfree : regionPages len +
      (missingTables dirs s e (Pmap.rounddown va) (Finset.range (regionPages len))).card ≤
    l.length) : ∃ s', s.regionAlloc (some d) va len = some s' := by
  let n := regionPages len
  have hloop := forUpTo_rule (n := n) (s := s) (f := fun i s =>
    (s.mapPage (some d) (Pmap.rounddown va + BitVec.ofNat 32 (i * pgsize))).bind fun s =>
      if Pmap.rounddown va + BitVec.ofNat 32 (i * pgsize) + 4096#32 > va ∧
        BitVec.ofNat 32 (i * pgsize) < len then some s else none)
    (fun i t => ∃ l', Loading F dirs t e d l' ∧
      (n - i) + (missingTables dirs t e (Pmap.rounddown va) (Finset.Ico i n)).card ≤ l'.length)
    ⟨l, L, by rw [Nat.sub_zero, ← Finset.range_eq_Ico]; exact hfree⟩ ?_
  · obtain ⟨t, ht, -⟩ := hloop
    exact ⟨t, ht⟩
  · rintro i t hi ⟨lt, Lt, hroom⟩
    obtain ⟨-, hv, hassert⟩ := region_page hend hi
    -- the table for page `i`, if it is missing, is counted
    have hmem :
      frameOf (pde dirs t e (pdx (Pmap.rounddown va + BitVec.ofNat 32 (i * pgsize)))) = none →
        pdx (Pmap.rounddown va + BitVec.ofNat 32 (i * pgsize)) ∈
          missingTables dirs t e (Pmap.rounddown va) (Finset.Ico i n) := fun hnone =>
      Finset.mem_filter.mpr
        ⟨Finset.mem_image_of_mem _ (Finset.mem_Ico.mpr ⟨Nat.le_refl i, hi⟩), hnone⟩
    have hpos :
      (if frameOf (pde dirs t e (pdx (Pmap.rounddown va + BitVec.ofNat 32 (i * pgsize)))) = none
        then 1 else 0) ≤ (missingTables dirs t e (Pmap.rounddown va) (Finset.Ico i n)).card := by
      split_ifs with hnone
      · exact Finset.card_pos.mpr ⟨_, hmem hnone⟩
      · exact Nat.zero_le _
    rcases Lt.mapPage hv with ⟨-, hshort⟩ | ⟨t', l', hmap, Lt', M, hlen⟩
    · omega
    · refine ⟨t', by rw [hmap, Option.bind_some, if_pos hassert], l', Lt', ?_⟩
      have hsub : missingTables dirs t' e (Pmap.rounddown va) (Finset.Ico (i + 1) n) ⊆
          (missingTables dirs t e (Pmap.rounddown va) (Finset.Ico i n)).erase
            (pdx (Pmap.rounddown va + BitVec.ofNat 32 (i * pgsize))) := by
        intro j hj
        obtain ⟨hj, hnone⟩ := Finset.mem_filter.mp hj
        have hold : frameOf (pde dirs t e j) = none := by
          by_contra hsome
          rw [M.tables j hsome] at hnone
          exact hsome hnone
        refine Finset.mem_erase.mpr ⟨?_, Finset.mem_filter.mpr ⟨?_, hold⟩⟩
        · rintro rfl
          exact M.here.table hnone
        · exact Finset.image_subset_image (Finset.Ico_subset_Ico_left (Nat.le_succ i)) hj
      have hcard := Finset.card_le_card hsub
      split_ifs at hlen hpos with hnone
      · rw [Finset.card_erase_of_mem (hmem hnone)] at hcard
        omega
      · have :=
          Finset.card_erase_le (s := missingTables dirs t e (Pmap.rounddown va) (Finset.Ico i n))
          (a := pdx (Pmap.rounddown va + BitVec.ofNat 32 (i * pgsize)))
        omega

/-- **The whole range is mapped** if and only if its last page is counted or was there. -/
theorem Loading.range_iff (h : s.regionAlloc (some d) va len = some s') :
    (∀ a : Word, va.toNat ≤ a.toNat → a.toNat < va.toNat + len.toNat → UserWritable dirs s' e a) ↔
      Covered dirs s e va len := by
  obtain ⟨-, hpages, hrest⟩ := L.regionAlloc hend h
  -- a page of the range that is not counted is the last one
  have hcounted (a : Word) (hlo : va.toNat ≤ a.toNat)
      (hlt : a.toNat / 4096 < va.toNat / 4096 + regionPages len) : UserWritable dirs s' e a := by
    have hi : a.toNat / 4096 - va.toNat / 4096 < regionPages len := by omega
    refine (hpages _ hi).same_page ?_
    rw [(region_page hend hi).1]
    omega
  have hn := regionPages_eq hend
  by_cases hlen : len = 0#32
  · refine iff_of_true (fun a hlo hhi => ?_) (.inl hlen)
    rw [hlen, toNat_ofNat] at hhi
    omega
  by_cases hround : RoundedEnd va len
  · refine iff_of_true (fun a hlo hhi => hcounted a hlo ?_) (.inr (.inl hround))
    rw [RoundedEnd, pgsize] at hround
    omega
  rw [Covered, or_iff_right hlen, or_iff_right hround]
  have hpos : 0 < len.toNat :=
    Nat.pos_iff_ne_zero.mpr fun hzero => hlen (BitVec.eq_of_toNat_eq hzero)
  have hlast := last_byte hend hpos
  rw [RoundedEnd, pgsize, hn] at hround
  constructor
  · intro hall
    refine (hrest _).2 ?_ (hall _ ?_ ?_) <;> rw [hlast]
    · omega
    · omega
    · omega
  · intro hwas a hlo hhi
    by_cases hlt : a.toNat / 4096 < va.toNat / 4096 + regionPages len
    · exact hcounted a hlo hlt
    · refine ((hrest _).1 hwas).same_page ?_
      rw [hlast]
      omega

end

/-! ### load_icode -/

theorem Loading.translate (hva : va < utop) (h : UserWritable dirs s e va) :
    ∃ pa, s.translate d va true = some pa := by
  obtain ⟨f, hf⟩ := Option.ne_none_iff_exists'.mp h.table
  obtain ⟨p, hp⟩ := Option.ne_none_iff_exists'.mp h.page
  have hpde := pde_of_dir (s := s) L.dir ((lt_utop_iff va).mp hva)
  have hpte := pte_of_table (t := ptx va) hf
  rw [hpte] at hp
  have hW := h.table_user.2
  have hW' := h.page_user.2
  rw [hpte] at hW'
  rw [hpde] at hf hW
  obtain ⟨hP, rfl⟩ := frameOf_eq_some.mp hf
  rw [Pmap.translate, if_pos ⟨hP, (frameOf_eq_some.mp hp).1, fun _ => ⟨hW, hW'⟩⟩]
  exact ⟨_, rfl⟩

/-- A store to addresses that user mode can write does not fault, and maps nothing. -/
theorem Loading.storeBytes {bs : List Byte}
    (hend : va.toNat + bs.length ≤ utop.toNat)
    (h : ∀ a : Word, va.toNat ≤ a.toNat → a.toNat < va.toNat + bs.length →
    UserWritable dirs s e a) : ∃ s', (s.storeBytes d va bs).2 = some s' ∧ Loading F dirs s' e d l ∧
      pde dirs s' = pde dirs s ∧ pte dirs s' = pte dirs s := by
  induction bs generalizing s va with
  | nil => exact ⟨s, rfl, L, rfl, rfl⟩
  | cons b bs ih =>
    rw [List.length_cons] at hend h
    have hva : va < utop := by
      rw [lt_def]
      omega
    obtain ⟨pa, hpa⟩ := L.translate hva (h va (Nat.le_refl _) (by omega))
    have hbyte : (s.storeByte d va b).2 = some (s.storePhys pa b) := by
      rw [Pmap.storeByte, Logged.effect, hpa]
      rfl
    have D := storeByte_data L.ledger L.dir hva hbyte
    have hrefs : ∀ p, refs dirs (s.storePhys pa b) p = refs dirs s p := fun p => by
      rw [refs, refs, D.ref_eq]
    have L' : Loading F dirs (s.storePhys pa b) e d l :=
      ⟨L.ledger.data_store D, L.dir, fun p => by rw [hrefs]; exact L.bounded p,
        by rw [D.pde_eq]; exact L.tables⟩
    have hnext : (va + 1).toNat = va.toNat + 1 := by
      rw [show (1 : Word) = 1#32 from rfl, toNat_add]
      simp only [toNat_ofNat] at hend ⊢
      omega
    obtain ⟨s', hs', Ls', hpde, hpte⟩ := ih L' (by rw [hnext]; omega) fun a hlo hhi => by
      obtain ⟨h1, h2, h3, h4⟩ := h a (by omega) (by omega)
      rw [← D.pde_eq] at h1 h2
      rw [← D.pte_eq] at h3 h4
      exact ⟨h1, h2, h3, h4⟩
    refine ⟨s', ?_, Ls', hpde.trans D.pde_eq, hpte.trans D.pte_eq⟩
    rw [Pmap.storeBytes, (Logged.bind_of_result hbyte).2]
    exact hs'

/-- A segment as the linker makes it, below `UTOP`. -/
def Proghdr.Fits (ph : Proghdr) : Prop :=
  ph.pFilesz.toNat ≤ ph.pMemsz.toNat ∧ ph.pVa.toNat + ph.pMemsz.toNat ≤ utop.toNat

theorem Loading.copySegment {ph : Proghdr} (hph : ph.Fits)
    (hcover : Covered dirs s e ph.pVa ph.pMemsz)
    (h : s.regionAlloc (some d) ph.pVa ph.pMemsz = some s') (binary : ℕ → Byte) :
    ∃ s'' l', s'.copySegment d binary ph = some s'' ∧ Loading F dirs s'' e d l' := by
  obtain ⟨hsize, hend⟩ := hph
  obtain ⟨⟨l', L'⟩, -⟩ := L.regionAlloc hend h
  have hmapped := (L.range_iff hend h).mpr hcover
  rw [Pmap.copySegment]
  generalize hbs : (List.range ph.pFilesz.toNat).map (fun j => binary (ph.pOffset.toNat + j)) = bs
  have hlen : bs.length = ph.pFilesz.toNat := by
    rw [← hbs, List.length_map, List.length_range]
  have hfits : ph.pVa.toNat + bs.length ≤ utop.toNat := by omega
  obtain ⟨s1, hs1, L1, hpde, hpte⟩ := L'.storeBytes hfits fun a hlo hhi => hmapped a hlo (by omega)
  rw [hs1, Option.bind_some]
  split_ifs with hlt
  · have hstart : (ph.pVa + ph.pFilesz).toNat = ph.pVa.toNat + ph.pFilesz.toNat := by
      rw [toNat_add]
      omega
    have hrest : (ph.pMemsz - ph.pFilesz).toNat = ph.pMemsz.toNat - ph.pFilesz.toNat :=
      BitVec.toNat_sub_of_le hsize
    have hzeros : (ph.pVa + ph.pFilesz).toNat +
        (List.replicate (ph.pMemsz - ph.pFilesz).toNat (0 : Byte)).length ≤ utop.toNat := by
      rw [List.length_replicate]
      omega
    obtain ⟨s2, hs2, L2, -⟩ := L1.storeBytes hzeros fun a hlo hhi => by
        rw [List.length_replicate] at hhi
        obtain ⟨h1, h2, h3, h4⟩ := hmapped a (by omega) (by omega)
        rw [← hpde] at h1 h2
        rw [← hpte] at h3 h4
        exact ⟨h1, h2, h3, h4⟩
    exact ⟨s2, l', hs2, L2⟩
  · exact ⟨s1, l', rfl, L1⟩

omit L in
theorem SegmentAt.tail {binary : ℕ → Byte} {ph q : Proghdr} {phs : List Proghdr} {s₁ : Pmap}
    (hcons : ∀ qs, s.loadSegments d binary (ph :: qs) = s'.loadSegments d binary qs)
    (h : SegmentAt s' d binary phs q s₁) : SegmentAt s d binary (ph :: phs) q s₁ := by
  obtain ⟨hload, before, after, rfl, hs₁⟩ := h
  exact ⟨hload, ph :: before, after, rfl, (hcons before).trans hs₁⟩

/-- **The loop of `load_icode`** runs to its end, or `region_alloc` has no page for a segment. -/
theorem Loading.loadSegments {binary : ℕ → Byte} {phs : List Proghdr}
    (hphs : ∀ ph s₁, SegmentAt s d binary phs ph s₁ → ph.Fits ∧
      Covered dirs s₁ e ph.pVa ph.pMemsz) :
    (∃ s' l', s.loadSegments d binary phs = some s' ∧ Loading F dirs s' e d l') ∨
      ∃ ph s₁, SegmentAt s d binary phs ph s₁ ∧
      s₁.regionAlloc (some d) ph.pVa ph.pMemsz = none := by
  induction phs generalizing s l with
  | nil => exact .inl ⟨s, l, rfl, L⟩
  | cons ph phs ih =>
    by_cases hload : ph.pType = elfProgLoad
    · have hhead : SegmentAt s d binary (ph :: phs) ph s := ⟨hload, [], phs, rfl, rfl⟩
      obtain ⟨hfits, hcover⟩ := hphs ph s hhead
      cases halloc : s.regionAlloc (some d) ph.pVa ph.pMemsz with
      | none => exact .inr ⟨ph, s, hhead, halloc⟩
      | some s1 =>
        obtain ⟨s2, l2, hcopy, L2⟩ := L.copySegment hfits hcover halloc binary
        have hcons : ∀ qs, s.loadSegments d binary (ph :: qs) = s2.loadSegments d binary qs :=
          fun qs => by
          rw [Pmap.loadSegments, if_pos hload, halloc, Option.bind_some, hcopy, Option.bind_some]
        rw [hcons]
        exact (ih L2 fun q s₁ h => hphs q s₁ (h.tail hcons)).imp_right fun ⟨q, s₁, h, hnone⟩ =>
          ⟨q, s₁, h.tail hcons, hnone⟩
    · have hcons : ∀ qs, s.loadSegments d binary (ph :: qs) = s.loadSegments d binary qs :=
        fun qs => by
        rw [Pmap.loadSegments, if_neg hload]
      rw [hcons]
      exact (ih L fun q s₁ h => hphs q s₁ (h.tail hcons)).imp_right fun ⟨q, s₁, h, hnone⟩ =>
        ⟨q, s₁, h.tail hcons, hnone⟩

end

end Load

/-- **The loader maps every byte of a segment** if and only if the range is empty, or the rounded
    length covers its last page, or that page was mapped. With a page for each page of the range and
    each table that is missing, `region_alloc` returns, and makes every byte of such a range
    writable for user mode. And if the segments are such, then the copies of `load_icode` find their
    memory mapped: it stops only where `region_alloc` has no page. -/
theorem loader_maps_segments {F : Set ℕ} {k : Kernel} (hk : Booted F k) {e : EnvIx} {d : ℕ}
    (he : k.dirs e = some d)
    (htables : ∀ i f, frameOf (pde k.dirs k.pmap e i) = some f →
      has (pde k.dirs k.pmap e i) pteU ∧ has (pde k.dirs k.pmap e i) pteW) :
    (∀ (va len : Word) (free : List ℕ), Chain k.pmap.link k.pmap.pageFreeList free →
      va.toNat + len.toNat ≤ utop.toNat →
      regionPages len + (missingTables k.dirs k.pmap e (Pmap.rounddown va)
        (Finset.range (regionPages len))).card ≤ free.length →
      ∃ s', k.pmap.regionAlloc (some d) va len = some s' ∧
        ((∀ a : Word, va.toNat ≤ a.toNat → a.toNat < va.toNat + len.toNat →
          UserWritable k.dirs s' e a) ↔ Covered k.dirs k.pmap e va len)) ∧
    ∀ binary : ℕ → Byte, wordAt binary 0 = elfMagic →
      (∀ ph s₁, SegmentAt k.pmap d binary (proghdrs binary) ph s₁ →
        ph.Fits ∧ Covered k.dirs s₁ e ph.pVa ph.pMemsz) →
      k.loadIcode e binary = none →
      (∃ ph s₁, SegmentAt k.pmap d binary (proghdrs binary) ph s₁ ∧
        s₁.regionAlloc (some d) ph.pVa ph.pMemsz = none) ∨
      ∃ s₁, k.pmap.loadSegments d binary (proghdrs binary) = some s₁ ∧
        s₁.regionAlloc (some d) (ustacktop - 4096#32) 4096#32 = none := by
  obtain ⟨l, le, K⟩ := hk.sound
  have L : Loading F k.dirs k.pmap e d l := ⟨K.ledger, he, hk.bounded, htables⟩
  refine ⟨fun va len free hchain hend hfree => ?_, fun binary hmagic hphs hnone => ?_⟩
  · obtain rfl := hchain.unique K.ledger.chain
    obtain ⟨s', hs'⟩ := L.regionAlloc_returns hend hfree
    exact ⟨s', hs', L.range_iff hend hs'⟩
  · rcases L.loadSegments hphs with ⟨s', l', hs', -⟩ | hstop
    · have hdir : (k.envs e).envPgdir = some d := he
      rw [Kernel.loadIcode, if_pos hmagic, hdir, Option.bind_some, hs', Option.bind_some] at hnone
      refine .inr ⟨s', hs', ?_⟩
      cases halloc : s'.regionAlloc (some d) (ustacktop - 4096#32) 4096#32 with
      | none => rfl
      | some s'' =>
        rw [halloc] at hnone
        cases hnone
    · exact .inl hstop

/-! ### A kernel with three free pages -/

/-- The small kernel: its environment has frame 6 as directory, without tables. -/
theorem tiny_loading {k : Kernel} (h : Kernel.tiny = some k) : Booted (freeFrames 8 1 3) k ∧
    k.dirs 0 = some 6 ∧ (∀ i, frameOf (pde k.dirs k.pmap 0 i) = none) ∧
    Chain k.pmap.link k.pmap.pageFreeList [5, 4, 3] := by
  have heval : ∀ k ∈ Kernel.tiny, k.dirs 0 = some 6 ∧
      (∀ i, frameOf (pde k.dirs k.pmap 0 i) = none) ∧ k.pmap.pageFreeList = some 5 ∧
      k.pmap.link 5 = some 4 ∧ k.pmap.link 4 = some 3 ∧ k.pmap.link 3 = none := by
    decide +kernel
  obtain ⟨hdir, htables, h5, h4, h3, h0⟩ := heval k h
  exact ⟨tiny_booted h, hdir, htables, by simp [h5, h4, h3, h0]⟩

theorem missingTables_one (dirs : EnvIx → Option ℕ) (s : Pmap) (e : EnvIx) (v : Word) :
    (missingTables dirs s e v (Finset.range 1)).card ≤ 1 :=
  (Finset.card_filter_le _ _).trans Finset.card_image_le

/-- A page at `UTEXT`. -/
theorem loader_maps_segments_utext : ∃ k s', Kernel.tiny = some k ∧
    k.pmap.regionAlloc (some 6) utext 4096#32 = some s' ∧ UserWritable k.dirs s' 0 utext := by
  obtain ⟨k, hk⟩ := tiny_eq_some
  obtain ⟨hbooted, hdir, htables, hfree⟩ := tiny_loading hk
  have hone := missingTables_one k.dirs k.pmap 0 (Pmap.rounddown utext)
  obtain ⟨s', hs', hmapped⟩ := (loader_maps_segments hbooted hdir fun i f hf => by
    rw [htables] at hf
    cases hf).1 utext 4096#32 [5, 4, 3] hfree (by decide)
      (Nat.add_le_add (by decide) hone |>.trans (by decide : 1 + 1 ≤ 3))
  exact ⟨k, s', hk, hs', hmapped.mpr (.inr (.inl (by decide))) utext (Nat.le_refl _) (by decide)⟩

/-- Two bytes on the border of two pages, with nothing of them in the file but their length. -/
def Proghdr.border : Proghdr := ⟨elfProgLoad, 0#32, utext + 0xFFF#32, 2#32, 2#32⟩

/-- **`region_alloc` misses the second page** of a range of two bytes that ends in it, with pages
    to spare, and the copy of `load_icode` ends in a page fault of the kernel. -/
theorem region_alloc_misses_page : ∃ k s', Kernel.tiny = some k ∧ Booted (freeFrames 8 1 3) k ∧
    Chain k.pmap.link k.pmap.pageFreeList [5, 4, 3] ∧
    Proghdr.border.pVa.toNat + Proghdr.border.pMemsz.toNat ≤ utop.toNat ∧
    k.pmap.regionAlloc (some 6) Proghdr.border.pVa Proghdr.border.pMemsz = some s' ∧
    (Proghdr.border.pVa + 1#32).toNat < Proghdr.border.pVa.toNat + Proghdr.border.pMemsz.toNat ∧
    s'.translate 6 (Proghdr.border.pVa + 1#32) true = none ∧
    s'.copySegment 6 (fun _ => 0) Proghdr.border = none := by
  obtain ⟨k, hk, s', hs', hfault, hcopy⟩ : ∃ k ∈ Kernel.tiny,
      ∃ s ∈ k.pmap.regionAlloc (some 6) Proghdr.border.pVa Proghdr.border.pMemsz,
        s.translate 6 (Proghdr.border.pVa + 1#32) true = none ∧
        (s.copySegment 6 (fun _ => 0) Proghdr.border).isNone := by
    decide +kernel
  obtain ⟨hbooted, -, -, hfree⟩ := tiny_loading hk
  exact ⟨k, s', hk, hbooted, hfree, by decide, hs', by decide, hfault,
    Option.isNone_iff_eq_none.mp hcopy⟩

end LinuxStudy.Jos
