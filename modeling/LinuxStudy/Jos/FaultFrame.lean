import LinuxStudy.Jos.Upcall
import LinuxStudy.Jos.UserMemExact

/-!
# Where `page_fault_handler` writes

The handler checks the first byte of the frame and then stores all 52 bytes of it with the
caller's page directory loaded. A byte it may not write is a page fault in the kernel.
-/

namespace LinuxStudy.Jos

open Logged
open BitVec (toNat_ofNat lt_def)

namespace Pmap

/-- Below `UTOP` the tables of a directory are pages of the machine, entered as writable, and
    neither the directory nor one of its tables is mapped as a page. -/
structure UserHalf (s : Pmap) (d : ℕ) : Prop where
  tables : ∀ i < pdxUtop, has (s.mem d i) pteP → has (s.mem d i) pteW ∧ pgnum (s.mem d i) < s.npages
  pages : ∀ i < pdxUtop, ∀ t, has (s.mem d i) pteP → has (s.mem (pgnum (s.mem d i)) t) pteP →
    pgnum (s.mem (pgnum (s.mem d i)) t) ≠ d ∧
      ∀ j < pdxUtop, has (s.mem d j) pteP → pgnum (s.mem (pgnum (s.mem d i)) t) ≠ pgnum (s.mem d j)

/-- The user may write the byte. -/
def UserWrites (s : Pmap) (d : ℕ) (va : Word) : Prop :=
  va < utop ∧ ∃ w, s.userPte (some d) va = some w ∧ has w pteP ∧ has w pteU ∧ has w pteW

/-- The directory and its tables below `UTOP` are as they were. -/
structure SameTables (d : ℕ) (s s' : Pmap) : Prop where
  npages : s'.npages = s.npages
  dir : s'.mem d = s.mem d
  table : ∀ i < pdxUtop, has (s.mem d i) pteP →
    s'.mem (pgnum (s.mem d i)) = s.mem (pgnum (s.mem d i))

section

variable {s s' s'' : Pmap} {d : ℕ} {va : Word} {b : Byte} {bs : List Byte}

theorem SameTables.refl (d : ℕ) (s : Pmap) : SameTables d s s := ⟨rfl, rfl, fun _ _ _ => rfl⟩

theorem SameTables.trans (h : SameTables d s s') (h' : SameTables d s' s'') :
    SameTables d s s'' where
  npages := h'.npages.trans h.npages
  dir := h'.dir.trans h.dir
  table i hi hP := by
    have := h'.table i hi (by rwa [h.dir])
    rw [h.dir] at this
    exact this.trans (h.table i hi hP)

theorem SameTables.userWrites (h : SameTables d s s') (hw : s.UserWrites d va) :
    s'.UserWrites d va := by
  obtain ⟨hlt, w, hpte, hbits⟩ := hw
  refine ⟨hlt, w, ?_, hbits⟩
  rw [userPte] at hpte ⊢
  rw [h.dir]
  split_ifs at hpte ⊢ with hP
  rw [h.table _ ((lt_utop_iff va).mp hlt) hP]
  exact hpte

theorem SameTables.userHalf (h : SameTables d s s') (hu : s.UserHalf d) : s'.UserHalf d where
  tables i hi hP := by
    rw [h.dir] at hP ⊢
    rw [h.npages]
    exact hu.tables i hi hP
  pages i hi t hP ht := by
    rw [h.dir] at hP
    rw [h.dir, h.table i hi hP] at ht
    rw [h.dir, h.table i hi hP]
    exact hu.pages i hi t hP ht

theorem UserHalf.storeByte (hu : s.UserHalf d) (hw : s.UserWrites d va) (b : Byte) :
    ∃ s', (s.storeByte d va b).2 = some s' ∧ SameTables d s s' := by
  obtain ⟨hlt, w, hpte, hP, _, hW⟩ := hw
  have hi := (lt_utop_iff va).mp hlt
  rw [userPte] at hpte
  split_ifs at hpte with hdir
  cases hpte
  obtain ⟨hdirW, _⟩ := hu.tables _ hi hdir
  obtain ⟨hne, hnet⟩ := hu.pages _ hi _ hdir hP
  have htrans : s.translate d va true =
      some (pgnum (s.mem (pgnum (s.mem d (pdx va))) (ptx va)) * pgsize + va.toNat % pgsize) :=
    if_pos ⟨hdir, hP, fun _ => ⟨hdirW, hW⟩⟩
  have hframe :
    (pgnum (s.mem (pgnum (s.mem d (pdx va))) (ptx va)) * pgsize + va.toNat % pgsize) / pgsize =
      pgnum (s.mem (pgnum (s.mem d (pdx va))) (ptx va)) := by
    rw [pgsize]
    omega
  refine ⟨_, by rw [Pmap.storeByte, Logged.effect, htrans, Option.map_some], ?_⟩
  refine ⟨rfl, ?_, fun j hj hjP => ?_⟩
  · rw [storePhys, hframe]
    exact s.mem_write_of_ne _ _ hne.symm
  · rw [storePhys, hframe]
    exact s.mem_write_of_ne _ _ (hnet j hj hjP).symm

/-- **Stores to bytes the user may write do not fault.** -/
theorem UserHalf.storeBytes (hu : s.UserHalf d)
    (hw : ∀ i < bs.length, s.UserWrites d (byteAt va i)) :
    ∃ s', (s.storeBytes d va bs).2 = some s' ∧ SameTables d s s' := by
  induction bs generalizing s va with
  | nil => exact ⟨s, rfl, .refl d s⟩
  | cons b bs ih =>
    have hfirst := hw 0 (by simp)
    rw [byteAt_zero] at hfirst
    obtain ⟨s1, hs1, hsame⟩ := hu.storeByte hfirst b
    have hrest : ∀ i < bs.length, s1.UserWrites d (byteAt (va + 1) i) := by
      intro i hi
      rw [byteAt_succ]
      exact hsame.userWrites (hw (i + 1) (by simp; omega))
    obtain ⟨s2, hs2, hsame2⟩ := ih (hsame.userHalf hu) hrest
    exact ⟨s2, (bind_of_result hs1).2.trans hs2, hsame.trans hsame2⟩

theorem UserHalf.storeUtf {utf : Word} (hu : s.UserHalf d) (tf : Trapframe) (faultVa : Word)
    (hw : ∀ i < 52, s.UserWrites d (byteAt utf i)) : ∃ s',
    (s.storeUtf d utf tf faultVa).2 = some s' := by
  have piece : ∀ (s1 : Pmap) (o : ℕ) (bs : List Byte), SameTables d s s1 → o + bs.length ≤ 52 →
      ∃ s2, (s1.storeBytes d (utf + BitVec.ofNat 32 o) bs).2 = some s2 ∧ SameTables d s s2 := by
    intro s1 o bs hsame hlen
    have hbytes : ∀ i < bs.length, s1.UserWrites d (byteAt (utf + BitVec.ofNat 32 o) i) := by
      intro i hi
      rw [byteAt_add]
      exact hsame.userWrites (hw _ (by omega))
    obtain ⟨s2, hs2, hsame2⟩ := (hsame.userHalf hu).storeBytes hbytes
    exact ⟨s2, hs2, hsame.trans hsame2⟩
  obtain ⟨s1, h1, e1⟩ := piece s 48 (wordBytes tf.tfEsp) (.refl d s) (show 48 + 4 ≤ 52 by decide)
  obtain ⟨s2, h2, e2⟩ := piece s1 44 (wordBytes tf.tfEflags) e1 (show 44 + 4 ≤ 52 by decide)
  obtain ⟨s3, h3, e3⟩ := piece s2 40 (wordBytes tf.tfEip) e2 (show 40 + 4 ≤ 52 by decide)
  obtain ⟨s4, h4, e4⟩ := piece s3 8 (pushRegsBytes tf.tfRegs) e3 (show 8 + 32 ≤ 52 by decide)
  obtain ⟨s5, h5, e5⟩ := piece s4 4 (wordBytes tf.tfErr) e4 (show 4 + 4 ≤ 52 by decide)
  obtain ⟨s6, h6, _⟩ := piece s5 0 (wordBytes faultVa) e5 (show 0 + 4 ≤ 52 by decide)
  rw [show BitVec.ofNat 32 0 = 0#32 from rfl, BitVec.add_zero] at h6
  refine ⟨s6, ?_⟩
  rw [Pmap.storeUtf, (bind_of_result h1).2, (bind_of_result h2).2, (bind_of_result h3).2,
    (bind_of_result h4).2, (bind_of_result h5).2]
  exact h6

theorem storeUtf_bind_ne_nil {α : Type} {cr3 : ℕ} {utf faultVa : Word} {tf : Trapframe}
    (f : Pmap → Logged Access α) : ((s.storeUtf cr3 utf tf faultVa).bind f).1 ≠ [] := by
  intro hnil
  have hnone : Logged.Within (fun _ => False) ((s.storeUtf cr3 utf tf faultVa).bind f) := by
    rw [Logged.Within, hnil]
    exact List.forall_mem_nil _
  exact within_effect.mp (within_bind.mp (within_bind.mp (within_bind.mp hnone).1).1).1

theorem storeUtf_within {cr3 : ℕ} {utf faultVa : Word} {tf : Trapframe} :
    Logged.Within (fun a => ∃ i < 52, a = ⟨byteAt utf i, true⟩)
    (s.storeUtf cr3 utf tf faultVa) := by
  have piece : ∀ (s1 : Pmap) (o : ℕ) (bs : List Byte), o + bs.length ≤ 52 →
      Logged.Within (fun a => ∃ i < 52, a = ⟨byteAt utf i, true⟩)
        (s1.storeBytes cr3 (utf + BitVec.ofNat 32 o) bs) := by
    intro s1 o bs hlen
    refine within_storeBytes fun i hi => ⟨o + i, by omega, ?_⟩
    rw [byteAt_add]
  have hlast : ∀ s1 : Pmap, Logged.Within (fun a => ∃ i < 52, a = ⟨byteAt utf i, true⟩)
      (s1.storeBytes cr3 utf (wordBytes faultVa)) :=
    fun s1 => within_storeBytes fun i hi => ⟨i, hi.trans (show 4 < 52 by decide), rfl⟩
  refine within_bind.mpr ⟨piece s 48 _ (show 48 + 4 ≤ 52 by decide), fun s1 _ => ?_⟩
  refine within_bind.mpr ⟨piece s1 44 _ (show 44 + 4 ≤ 52 by decide), fun s2 _ => ?_⟩
  refine within_bind.mpr ⟨piece s2 40 _ (show 40 + 4 ≤ 52 by decide), fun s3 _ => ?_⟩
  refine within_bind.mpr ⟨piece s3 8 _ (show 8 + 32 ≤ 52 by decide), fun s4 _ => ?_⟩
  exact within_bind.mpr ⟨piece s4 4 _ (show 4 + 4 ≤ 52 by decide), fun s5 _ => hlast s5⟩

end

end Pmap

/-! ### The handler -/

/-- There is no upcall, or the first byte of the frame must not be written; or the frame is in one
    page, or its last byte may be written too. -/
def FrameOk (k : Kernel) (curenv : EnvIx) (tf : Trapframe) : Prop :=
  (k.envs curenv).envPgfaultUpcall = 0#32 ∨ ¬ Allowed k curenv ⟨utfAddr tf.tfEsp, true⟩ ∨
    (utfAddr tf.tfEsp).toNat % 4096 + 52 ≤ 4096 ∨
    Allowed k curenv ⟨byteAt (utfAddr tf.tfEsp) 51, true⟩

section Handler

variable {k k' : Kernel} {curenv : EnvIx} {cr3 : ℕ} {tf : Trapframe} {faultVa : Word}

theorem byteAt_utf (tf : Trapframe) {i : ℕ} (hi : i < 52) :
    (byteAt (utfAddr tf.tfEsp) i).toNat = (utfAddr tf.tfEsp).toNat + i := by
  have hbounds := Upcall.utfAddr_bounds tf.tfEsp
  rw [byteAt, BitVec.toNat_add, toNat_ofNat]
  omega

theorem Allowed.same_page {va va' : Word} {write : Bool} (h : Allowed k curenv ⟨va, write⟩)
    (hpage : va'.toNat / 4096 = va.toNat / 4096) : Allowed k curenv ⟨va', write⟩ := by
  obtain ⟨hlt, w, hw, hbits⟩ := h
  dsimp only at hlt hw hbits
  refine ⟨?_, w, ?_, hbits⟩
  · rw [lt_def, ulim_eq, toNat_ofNat] at hlt ⊢
    dsimp only
    omega
  · rw [← hw]
    have hpdx : pdx va' = pdx va := by
      apply Fin.ext
      rw [pdx_val, pdx_val]
      omega
    have hptx : ptx va' = ptx va := by
      apply Fin.ext
      rw [ptx_val, ptx_val]
      omega
    cases k.dirs curenv with
    | none => rfl
    | some d => simp only [Pmap.userPte, hpdx, hptx]

/-- The check of the first byte, and the condition, are enough for the whole frame. -/
theorem FrameOk.all (hok : FrameOk k curenv tf) (hupcall : (k.envs curenv).envPgfaultUpcall ≠ 0#32)
    (hfirst : Allowed k curenv ⟨utfAddr tf.tfEsp, true⟩) :
    ∀ i < 52, Allowed k curenv ⟨byteAt (utfAddr tf.tfEsp) i, true⟩ := by
  intro i hi
  have hnat := byteAt_utf tf hi
  by_cases hpage : (byteAt (utfAddr tf.tfEsp) i).toNat / 4096 = (utfAddr tf.tfEsp).toNat / 4096
  · exact hfirst.same_page hpage
  · rcases hok with hno | hno | hone | hlast
    · exact absurd hno hupcall
    · exact absurd hfirst hno
    · omega
    · have hnat' := byteAt_utf tf (show 51 < 52 by omega)
      exact hlast.same_page (by omega)

theorem gone_of_envDestroy {gone : Bool} (h : k.envDestroy (some curenv) curenv = some (k', gone)) :
    gone = true := by
  rw [Kernel.envDestroy, if_neg fun h => h.2 rfl, Option.bind_eq_some_iff] at h
  obtain ⟨_, _, heq⟩ := h
  cases heq
  exact decide_eq_true rfl

theorem userMemCheck_byte {s : Pmap} {d : ℕ} {va perm : Word} {ok : Bool}
    (hva : va.toNat + 4096 < 2 ^ 32)
    (h : s.userPageOk (some d) (Pmap.rounddown va) perm = some ok) :
    ok = true ∧ s.userMemCheck (some d) va 1#32 perm = some none ∨
      ok = false ∧ ∃ bad, s.userMemCheck (some d) va 1#32 perm = some (some bad) := by
  have hone : (1#32).toNat = 1 := rfl
  have hpages : ((Pmap.roundup (va + 1#32)).toNat - (Pmap.rounddown va).toNat) / pgsize = 1 := by
    rw [pages_toNat (by omega), rounddown_toNat, show pgsize = 4096 from rfl, hone]
    omega
  rw [Pmap.userMemCheck, hpages, Pmap.userMemLoop, h, Option.bind_some]
  cases ok with
  | false => exact .inr ⟨rfl, _, rfl⟩
  | true => exact .inl ⟨rfl, rfl⟩

theorem and_eq_of_has {w : Word} {i : ℕ} (h : has w (BitVec.twoPow 32 i)) :
    w &&& BitVec.twoPow 32 i = BitVec.twoPow 32 i := by
  rw [has, BitVec.and_twoPow] at h
  rw [BitVec.and_twoPow]
  split_ifs at h ⊢
  · rfl
  · exact absurd rfl h

theorem has_of_and_eq {w perm f : Word} (h : w &&& perm = perm) (hf : has perm f) : has w f := by
  intro h0
  apply hf
  rw [← h, BitVec.and_assoc, BitVec.and_comm perm f, ← BitVec.and_assoc, h0, BitVec.zero_and]

/-- What `user_mem_assert` says of the first byte. -/
theorem userMemAssert_utf (tf : Trapframe) (hdir : k.dirs curenv = some cr3)
    (hu : k.pmap.UserHalf cr3) :
    k.userMemAssert curenv curenv (utfAddr tf.tfEsp) 1#32 pteW = some (k, false) ∧
        Allowed k curenv ⟨utfAddr tf.tfEsp, true⟩ ∨
      k.userMemAssert curenv curenv (utfAddr tf.tfEsp) 1#32 pteW =
        k.envDestroy (some curenv) curenv ∧
        ¬ Allowed k curenv ⟨utfAddr tf.tfEsp, true⟩ := by
  have hbounds := Upcall.utfAddr_bounds tf.tfEsp
  have hpage :
      (Pmap.rounddown (utfAddr tf.tfEsp)).toNat / 4096 = (utfAddr tf.tfEsp).toNat / 4096 := by
    rw [rounddown_toNat]
    omega
  have hlow : pdx (Pmap.rounddown (utfAddr tf.tfEsp)) < pdxUtop := by
    rw [← lt_utop_iff, lt_def, rounddown_toNat, utop_eq, toNat_ofNat]
    omega
  obtain ⟨ok, hpageOk, hiff⟩ :=
    k.pmap.userPageOk_iff (pteW ||| pteU) fun hP => (hu.tables _ hlow hP).2
  rw [Kernel.userMemAssert, hdir]
  rw [Pmap.AddressOk, BitVec.ofNat_toNat, BitVec.setWidth_eq] at hiff
  rcases userMemCheck_byte (by omega) hpageOk with ⟨rfl, hcheck⟩ | ⟨rfl, bad, hcheck⟩
  · obtain ⟨hlt, w, hw, hP, hperm⟩ := hiff.mp rfl
    have hfirst : Allowed k curenv ⟨Pmap.rounddown (utfAddr tf.tfEsp), true⟩ :=
      ⟨hlt, w, by rw [hdir]; exact hw, hP,
      has_of_and_eq hperm (by decide), fun _ => has_of_and_eq hperm (by decide)⟩
    rw [hcheck]
    exact .inl ⟨rfl, hfirst.same_page hpage.symm⟩
  · rw [hcheck]
    refine .inr ⟨rfl, fun hfirst => ?_⟩
    obtain ⟨hlt, w, hw, hP, hU, hW⟩ := hfirst.same_page hpage
    rw [hdir] at hw
    have hWU : w &&& (pteW ||| pteU) = pteW ||| pteU := by
      have hW : w &&& pteW = pteW := and_eq_of_has (i := 1) (hW rfl)
      have hU : w &&& pteU = pteU := and_eq_of_has (i := 2) hU
      rw [BitVec.and_or_distrib_left, hW, hU]
    exact Bool.false_ne_true (hiff.mpr ⟨hlt, w, hw, hP, hWU⟩)

/-- **The frame goes into memory that the user may write**, if and only if the handler stores
    nothing or the frame is all right: the handler destroys the environment without a store; or it
    comes back, the user may write each of the 52 bytes of the frame, and nothing else has been
    stored to. -/
theorem fault_frame_writable (hdir : k.dirs curenv = some cr3) (hu : k.pmap.UserHalf cr3) :
    (((k.pageFaultHandler curenv cr3 tf faultVa).1 = [] ∧
      (k.pageFaultHandler curenv cr3 tf faultVa).2 = (k.destroyCurenv curenv).2) ∨
    (∃ k', (k.pageFaultHandler curenv cr3 tf faultVa).2 = some (k', .resume)) ∧
      (∀ i < 52, Allowed k curenv ⟨byteAt (utfAddr tf.tfEsp) i, true⟩) ∧
      ∀ a ∈ (k.pageFaultHandler curenv cr3 tf faultVa).1,
        ∃ i < 52, a = ⟨byteAt (utfAddr tf.tfEsp) i, true⟩) ↔ FrameOk k curenv tf := by
  have hbounds := Upcall.utfAddr_bounds tf.tfEsp
  rw [Kernel.pageFaultHandler]
  dsimp only
  split_ifs with hupcall
  · exact ⟨fun _ => .inl hupcall, fun _ => .inl ⟨rfl, rfl⟩⟩
  rcases userMemAssert_utf tf hdir hu with ⟨hassert, hfirst⟩ | ⟨hassert, hfirst⟩
  · rw [hassert, lift_some_bind, if_neg Bool.false_ne_true]
    constructor
    · rintro (⟨hlog, _⟩ | ⟨_, hall, _⟩)
      · exact absurd hlog (Pmap.storeUtf_bind_ne_nil _)
      · exact .inr (.inr (.inr (hall 51 (by decide))))
    · intro hok
      have hall := hok.all hupcall hfirst
      have hwrites : ∀ i < 52, k.pmap.UserWrites cr3 (byteAt (utfAddr tf.tfEsp) i) := by
        intro i hi
        obtain ⟨_, w, hw, hP, hU, hW⟩ := hall i hi
        rw [hdir] at hw
        refine ⟨?_, w, hw, hP, hU, hW rfl⟩
        rw [lt_def, byteAt_utf tf hi, utop_eq, toNat_ofNat]
        omega
      obtain ⟨s, hs⟩ := hu.storeUtf tf faultVa hwrites
      obtain ⟨hlog, hres⟩ := bind_of_result hs
      refine .inr ⟨⟨_, hres⟩, hall, fun a ha => ?_⟩
      rw [hlog] at ha
      exact Pmap.storeUtf_within a ((List.mem_append.mp ha).resolve_right List.not_mem_nil)
  · refine ⟨fun _ => .inr (.inl hfirst), fun _ => .inl ?_⟩
    rw [hassert, Kernel.destroyCurenv]
    cases hdestroy : k.envDestroy (some curenv) curenv with
    | none => exact ⟨rfl, rfl⟩
    | some r =>
      obtain ⟨k', gone⟩ := r
      obtain rfl := gone_of_envDestroy hdestroy
      exact ⟨rfl, rfl⟩

end Handler

/-- An environment with an upcall whose directory, frame 8, maps the page `p` of the top 4 MB
    below `UTOP`, writable. -/
def Kernel.guarded (p : Idx) : Kernel :=
  { Kernel.sample with
    pmap :=
      { Kernel.sample.pmap with
        mem := fun f j =>
          if f = 8 ∧ j = pdx (utop - 1#32) then tableWord 9
          else if f = 9 ∧ j = p then mkPte 10 (pteU ||| pteW)
          else 0#32 }
    envs := fun e => { Kernel.sample.envs e with envPgfaultUpcall := utext } }

theorem userHalf_guarded (p : Idx) : (Kernel.guarded p).pmap.UserHalf 8 := by
  have hdir : ∀ i, has ((Kernel.guarded p).pmap.mem 8 i) pteP →
      (Kernel.guarded p).pmap.mem 8 i = tableWord 9 := by
    intro i hP
    by_cases hi : i = pdx (utop - 1#32)
    · simp [Kernel.guarded, hi]
    · rw [show (Kernel.guarded p).pmap.mem 8 i = 0#32 by simp [Kernel.guarded, hi]] at hP
      exact absurd hP (by decide)
  have htable : ∀ t, has ((Kernel.guarded p).pmap.mem 9 t) pteP →
      (Kernel.guarded p).pmap.mem 9 t = mkPte 10 (pteU ||| pteW) := by
    intro t hP
    by_cases ht : t = p
    · simp [Kernel.guarded, ht]
    · rw [show (Kernel.guarded p).pmap.mem 9 t = 0#32 by simp [Kernel.guarded, ht]] at hP
      exact absurd hP (by decide)
  have hnine : pgnum (tableWord 9) = 9 := by decide
  refine ⟨fun i _ hP => ?_, fun i _ t hP ht => ?_⟩
  · rw [hdir i hP]
    exact ⟨by decide, show pgnum (tableWord 9) < 16 by decide⟩
  · rw [hdir i hP, hnine] at ht ⊢
    rw [htable t ht]
    refine ⟨by decide, fun j _ hj => ?_⟩
    rw [hdir j hj]
    decide

/-- A fault on the normal stack of an environment with an exception stack. -/
theorem fault_frame_writable_normal :
    (∃ k', ((Kernel.guarded 1023).pageFaultHandler 0 8 Trapframe.user 0#32).2 =
      some (k', .resume)) ∧
      ∀ i < 52,
      Allowed (Kernel.guarded 1023) 0 ⟨byteAt (utfAddr Trapframe.user.tfEsp) i, true⟩ := by
  have hok : FrameOk (Kernel.guarded 1023) 0 Trapframe.user := .inr (.inr (.inl (by decide)))
  have hwrote : ((Kernel.guarded 1023).pageFaultHandler 0 8 Trapframe.user 0#32).1 ≠ [] := by decide
  rcases (fault_frame_writable rfl (userHalf_guarded 1023)).mpr hok with ⟨hlog, _⟩ | ⟨hres, hall, _⟩
  · exact absurd hlog hwrote
  · exact ⟨hres, hall⟩

/-- With the guard page mapped and the exception stack not, a frame that begins in the guard page
    passes the check, and its first store is a page fault in the kernel. -/
theorem fault_frame_straddles :
    ((Kernel.guarded 1022).pageFaultHandler 0 8 { Trapframe.user with tfEsp :=
        uxstacktop - 4096#32 + 20#32 } 0#32).2 = none ∧
      ¬ Allowed (Kernel.guarded 1022) 0 ⟨byteAt (utfAddr (uxstacktop - 4096#32 + 20#32)) 48, true⟩ ∧
      (⟨byteAt (utfAddr (uxstacktop - 4096#32 + 20#32)) 48, true⟩ : Access) ∈
      ((Kernel.guarded 1022).pageFaultHandler
        0 8 { Trapframe.user with tfEsp := uxstacktop - 4096#32 + 20#32 } 0#32).1 := by
  refine ⟨by decide, ?_, by decide⟩
  rintro ⟨_, w, hw, hP, _⟩
  have hpte : (Kernel.guarded 1022).pmap.userPte ((Kernel.guarded 1022).dirs 0)
      (byteAt (utfAddr (uxstacktop - 4096#32 + 20#32)) 48) = some 0#32 := by decide
  rw [hpte] at hw
  rw [← Option.some.inj hw] at hP
  exact absurd hP (by decide)

end LinuxStudy.Jos
