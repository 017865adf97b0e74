import LinuxStudy.Jos.KernelInv

/-!
# Stores into data pages

A store into a frame that holds no page-directory and no page-table word is invisible to the
bookkeeping. Pages mapped below `UTOP` are such frames, so a store through an environment's
own mapping is one of these, and so is a store into the transmit buffers of the driver.
-/

namespace LinuxStudy.Jos

open RefCount
open Logged

/-- The frame holds no word of a page directory or page table. -/
structure DataFrame (dirs : EnvIx → Option ℕ) (s : Pmap) (f : ℕ) : Prop where
  not_dir : ∀ e, dirs e ≠ some f
  not_table : ∀ e i, frameOf (pde dirs s e i) ≠ some f
  not_kern : f ≠ s.kernPgdir
  not_kern_table : ∀ i, frameOf (s.mem s.kernPgdir i) ≠ some f

/-- Memory changed in data frames only. -/
structure DataStore (dirs : EnvIx → Option ℕ) (s s' : Pmap) : Prop where
  pages : s'.pages = s.pages
  list : s'.pageFreeList = s.pageFreeList
  npages : s'.npages = s.npages
  kern : s'.kernPgdir = s.kernPgdir
  mem : ∀ f, ¬ DataFrame dirs s f → s'.mem f = s.mem f

/-- A byte that is written is below `UTOP`. -/
def WritesBelow (a : Access) : Prop := a.write = true → a.va < utop

section Data

variable {F : Set ℕ} {dirs : EnvIx → Option ℕ} {s s' s'' : Pmap} {held : ℕ → ℕ} {l : List ℕ}
  {e : EnvIx} {f cr3 : ℕ}

namespace DataStore

theorem refl (dirs : EnvIx → Option ℕ) (s : Pmap) : DataStore dirs s s :=
  ⟨rfl, rfl, rfl, rfl, fun _ _ => rfl⟩

section

variable (D : DataStore dirs s s')
include D

theorem pde_eq : pde dirs s' = pde dirs s :=
  pde_congr_dirs fun e d hd => D.mem d fun h => h.not_dir e hd

theorem pte_eq : pte dirs s' = pte dirs s := by
  funext e i t
  rw [pte, pte, D.pde_eq]
  cases ht : frameOf (pde dirs s e i) with
  | none => rfl
  | some f =>
    show s'.mem f t = s.mem f t
    rw [D.mem f fun h => h.not_table e i ht]

theorem kern_row : s'.mem s'.kernPgdir = s.mem s.kernPgdir := by
  rw [D.kern]
  exact D.mem _ fun h => h.not_kern rfl

theorem ref_eq : ref dirs s' = ref dirs s := by
  funext x
  cases x with
  | dir e => rfl
  | table e i => rw [ref, ref, D.pde_eq]
  | page e i t => rw [ref, ref, D.pte_eq]
  | kern i => rw [ref, ref, D.kern_row]

theorem dataFrame_iff (f : ℕ) :
    DataFrame dirs s' f ↔ DataFrame dirs s f := by
  constructor
  · rintro ⟨hd, ht, hk, hkt⟩
    rw [D.pde_eq] at ht
    rw [D.kern] at hk
    rw [D.kern_row] at hkt
    exact ⟨hd, ht, hk, hkt⟩
  · rintro ⟨hd, ht, hk, hkt⟩
    refine ⟨hd, ?_, ?_, ?_⟩
    · rw [D.pde_eq]
      exact ht
    · rw [D.kern]
      exact hk
    · rw [D.kern_row]
      exact hkt

theorem trans (D' : DataStore dirs s' s'') : DataStore dirs s s'' := by
  refine ⟨D'.pages.trans D.pages, D'.list.trans D.list, D'.npages.trans D.npages,
    D'.kern.trans D.kern, fun f hf => ?_⟩
  rw [D'.mem f fun h => hf ((D.dataFrame_iff f).mp h), D.mem f hf]

end

theorem write (hf : DataFrame dirs s f) (i : Idx) (w : Word) :
    DataStore dirs s (s.write f i w) := by
  refine ⟨rfl, rfl, rfl, rfl, fun g hg => s.mem_write_of_ne i w fun h => ?_⟩
  exact hg (h ▸ hf)

theorem evolves (D : DataStore dirs s s') : Evolves dirs s dirs s' := by
  refine ⟨D.kern, ?_, ?_, ?_⟩
  · rw [← D.kern_row, D.kern]
  · intro i f hf
    exact D.mem f fun h => h.not_kern_table i hf
  · intro e d hd
    exact Or.inl ⟨hd, fun j _ => by rw [D.mem d fun h => h.not_dir e hd]⟩

end DataStore

namespace Ledger

theorem page_data (L : Ledger F dirs s held l) {i t : Idx} {p : ℕ}
    (hp : frameOf (pte dirs s e i t) = some p) : DataFrame dirs s p := by
  obtain ⟨hpF, _, hpage⟩ := L.mapped_page hp
  exact ⟨fun e he => hpage (.dir e) he, fun e i ht => hpage (.table e i) ht,
    (L.kern_ne hpF).symm, fun i hk => hpage (.kern i) hk⟩

/-- A frame the allocator does not own and the kernel's own page tables do not use. -/
theorem reserved_data (L : Ledger F dirs s held l) (hF : f ∉ F) (hk : f ≠ s.kernPgdir)
    (hkt : ∀ i, frameOf (s.mem s.kernPgdir i) ≠ some f) : DataFrame dirs s f :=
  ⟨fun _ he => hF (L.dir_mem he), fun _ _ ht => hF (L.table_mem ht), hk, hkt⟩

/-- **Data stores and the ledger.** Neither the ledger nor any address space changes. -/
theorem data_store (L : Ledger F dirs s held l) (D : DataStore dirs s s') :
    Ledger F dirs s' held l := by
  have hrefs : refs dirs s' = refs dirs s := by
    funext p
    rw [refs, refs, D.ref_eq]
  have hlink : s'.link = s.link := by
    funext p
    rw [Pmap.link, Pmap.link, D.pages]
  refine ⟨D.npages ▸ L.npages_le, D.npages ▸ L.frame_lt, ?_, ?_, ?_, ?_, ?_, ?_, ?_, ?_⟩
  · rw [hlink, D.list]
    exact L.chain
  · rw [hrefs]
    exact L.free
  · rw [hlink]
    exact L.link_none
  · rw [hrefs, D.pages]
    exact L.ref_eq
  · rw [D.ref_eq]
    exact L.owned
  · rw [D.ref_eq, hrefs]
    exact L.single
  · rw [D.kern]
    exact L.kern_dir
  · rw [D.kern_row]
    exact L.kern_user

end Ledger

/-! ### Bytes -/

variable {pa : ℕ} {bs : List Byte} {va : Word} {b : Byte} {k : Kernel} {le : List EnvIx}

theorem storePhys_data (hf : DataFrame dirs s (pa / pgsize)) (b : Byte) :
    DataStore dirs s (s.storePhys pa b) :=
  DataStore.write hf _ _

theorem storePhysBytes_data (hf : ∀ j < bs.length, DataFrame dirs s ((pa + j) / pgsize)) :
    DataStore dirs s (s.storePhysBytes pa bs) := by
  induction bs generalizing s pa with
  | nil => exact DataStore.refl dirs s
  | cons b bs ih =>
    have D : DataStore dirs s (s.storePhys pa b) := storePhys_data (hf 0 (by simp)) b
    refine D.trans (ih fun j hj => ?_)
    rw [D.dataFrame_iff, Nat.add_assoc, Nat.add_comm 1 j]
    exact hf (j + 1) (by simpa using hj)

/-- An address below `UTOP` is translated to the page mapped there. -/
theorem translate_user {write : Bool} (he : dirs e = some cr3)
    (hva : va < utop) (h : s.translate cr3 va write = some pa) :
    frameOf (pte dirs s e (pdx va) (ptx va)) = some (pa / pgsize) := by
  rw [Pmap.translate] at h
  split at h
  · next hok =>
    obtain ⟨hP, hP', _⟩ := hok
    have hpde : pde dirs s e (pdx va) = s.mem cr3 (pdx va) :=
      pde_of_dir he ((lt_utop_iff va).mp hva)
    have htable : frameOf (pde dirs s e (pdx va)) = some (pgnum (s.mem cr3 (pdx va))) := by
      rw [hpde]
      exact frameOf_eq_some.mpr ⟨hP, rfl⟩
    rw [pte_of_table htable, frameOf_eq_some]
    refine ⟨hP', ?_⟩
    rw [← Option.some.inj h, pgsize]
    omega
  · cases h

theorem storeByte_data (L : Ledger F dirs s held l) (he : dirs e = some cr3) (hva : va < utop)
    (h : (s.storeByte cr3 va b).2 = some s') : DataStore dirs s s' := by
  rw [Pmap.storeByte, Logged.effect, Option.map_eq_some_iff] at h
  obtain ⟨pa, hpa, rfl⟩ := h
  exact storePhys_data (L.page_data (translate_user he hva hpa)) b

theorem storeBytes_data (L : Ledger F dirs s held l) (he : dirs e = some cr3)
    (hlog : Logged.Within WritesBelow (s.storeBytes cr3 va bs))
    (h : (s.storeBytes cr3 va bs).2 = some s') : DataStore dirs s s' := by
  induction bs generalizing s va with
  | nil =>
    obtain rfl := Option.some.inj h
    exact DataStore.refl dirs s
  | cons b bs ih =>
    obtain ⟨s1, hs1, h⟩ := bind_result h
    obtain ⟨hfirst, hrest⟩ := within_bind.mp hlog
    have D : DataStore dirs s s1 :=
      storeByte_data L he (within_effect.mp hfirst rfl) hs1
    exact D.trans (ih (L.data_store D) (hrest s1 hs1) h)

theorem loadBytes_length {n : ℕ} (h : (s.loadBytes cr3 n va).2 = some bs) : bs.length = n := by
  induction n generalizing va bs with
  | zero =>
    cases h
    rfl
  | succ n ih =>
    obtain ⟨b, _, h⟩ := bind_result h
    obtain ⟨bs', hbs', h⟩ := bind_result h
    cases h
    rw [List.length_cons, ih hbs']

theorem KSound.data {k' : Kernel} (K : KSound F k l le) (hag : k.Agree k')
    (D : DataStore k.dirs k.pmap k'.pmap) (lost : Prop) : KEvolves F k l k' lost := by
  refine ⟨⟨l, le, K.of_agree hag (K.ledger.data_store D), Or.inr fun q _ hq => ?_⟩, ?_⟩
  · rw [refs, hag.dirs, D.ref_eq]
    exact hq
  · rw [hag.dirs]
    exact D.evolves

theorem KSound.store (K : KSound F k l le)
    (he : k.dirs e = some cr3) (hva : va < utop)
    (h : (k.pmap.storeByte cr3 va b).2 = some s') (lost : Prop) :
    KEvolves F k l (k.setPmap s') lost :=
  K.data (Kernel.Agree.setPmap k s') (storeByte_data K.ledger he hva h) lost

end Data

end LinuxStudy.Jos
