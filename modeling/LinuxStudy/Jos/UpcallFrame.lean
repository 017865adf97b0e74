import LinuxStudy.Jos.Upcall
import LinuxStudy.Jos.PhysBytes
import LinuxStudy.Jos.UserPointers

/-!
# The frame that `page_fault_handler` stores

The stores of the kernel through `utf`, in the order of the source, leave the words of
`Upcall.utfWords` in the page of the exception stack and change no other byte; the environment
goes on at its upcall with `%esp` at the frame. So `Upcall.faulted` is what the kernel does.
-/

namespace LinuxStudy.Jos

open ByteMem Logged

namespace Pmap

variable {s : Pmap} {cr3 f pa : ℕ} {w utf : Word} {bs bs' : List Byte}

theorem loadPhys_storeWord :
    (s.storePhysBytes pa (wordBytes w)).loadPhys = ByteMem.putWord s.loadPhys pa w := by
  funext x
  by_cases hx : pa ≤ x ∧ x < pa + 4
  · obtain ⟨i, hi, rfl⟩ : ∃ i < 4, x = pa + i := ⟨x - pa, by omega, by omega⟩
    rw [putWord, overwrite_in (by omega) (by omega), wordByte,
      Nat.add_sub_cancel_left]
    have hlist : (s.storePhysBytes pa (wordBytes w)).loadPhysBytes pa 4 = wordBytes w :=
      loadPhysBytes_storePhysBytes_self
    have hget := congrArg (·[i]?) hlist
    rcases (show i = 0 ∨ i = 1 ∨ i = 2 ∨ i = 3 by omega) with rfl | rfl | rfl | rfl <;>
      exact Option.some.inj hget
  · rw [loadPhys_storePhysBytes_out (by simp [wordBytes]; omega), putWord,
      overwrite_out (by omega)]

theorem storePhysBytes_append :
    s.storePhysBytes pa (bs ++ bs') = (s.storePhysBytes pa bs).storePhysBytes
    (pa + bs.length) bs' := by
  induction bs generalizing s pa with
  | nil => rfl
  | cons b bs ih =>
    rw [List.cons_append, storePhysBytes, storePhysBytes, ih, List.length_cons, Nat.add_assoc,
      Nat.add_comm 1]

/-- A store through a pointer `o` bytes into a mapped page, and the page after it. -/
theorem MapsPage.store (h : s.MapsPage cr3 utf f) (o : ℕ) (bs : List Byte)
    (ho : utf.toNat % pgsize + o < pgsize)
    (hend : utf.toNat % pgsize + o + bs.length ≤ pgsize) :
    (s.storeBytes cr3 (utf + BitVec.ofNat 32 o) bs).2 =
        some (s.storePhysBytes (f * pgsize + utf.toNat % pgsize + o) bs) ∧
      (s.storePhysBytes (f * pgsize + utf.toNat % pgsize + o) bs).MapsPage cr3 utf f := by
  have haddr : (utf + BitVec.ofNat 32 o).toNat = utf.toNat + o := by
    rw [pgsize] at ho
    rw [BitVec.toNat_add, BitVec.toNat_ofNat]
    omega
  have hmod : (utf.toNat + o) % pgsize = utf.toNat % pgsize + o ∧
      (utf.toNat + o) / pgsize = utf.toNat / pgsize := by
    rw [pgsize] at ho ⊢
    omega
  constructor
  · rw [storeBytes_page (h.same_page (by rw [haddr, hmod.2])) (by rw [haddr, hmod.1]; exact hend),
      haddr, hmod.1, Nat.add_assoc]
  · refine h.of_mem_eq fun g hg => storePhysBytes_mem ?_ ?_ hg
    · omega
    · rw [Nat.add_mul, Nat.one_mul]
      omega

theorem loadPhys_storePushRegs {r : PushRegs} : (s.storePhysBytes pa (pushRegsBytes r)).loadPhys =
    ((((((((ByteMem.putWord s.loadPhys pa r.regEdi).putWord (pa + 4) r.regEsi).putWord (pa + 8)
      r.regEbp).putWord
      (pa + 12) r.regOesp).putWord (pa + 16) r.regEbx).putWord (pa + 20) r.regEdx).putWord (pa + 24)
        r.regEcx).putWord (pa + 28) r.regEax) := by
  simp only [pushRegsBytes, storePhysBytes_append, loadPhys_storeWord, List.length_append]
  rfl

/-- **The stores of `page_fault_handler`.** The frame, which is in one page, holds its words, and
    every other byte is as it was. -/
theorem storeUtf_frame (tf : Trapframe) (faultVa : Word) (h : s.MapsPage cr3 utf f)
    (hpage : utf.toNat % pgsize + 52 ≤ pgsize) : ∃ s', (s.storeUtf cr3 utf tf faultVa).2 = some s' ∧
      (∀ i w, (Upcall.utfWords tf faultVa)[i]? = some w →
        ByteMem.word s'.loadPhys (f * pgsize + utf.toNat % pgsize + 4 * i) = w) ∧
      ∀ x, x < f * pgsize + utf.toNat % pgsize ∨ f * pgsize + utf.toNat % pgsize + 52 ≤ x →
        s'.loadPhys x = s.loadPhys x := by
  have hword : ∀ w : Word, (wordBytes w).length = 4 := fun _ => rfl
  have hregs : ∀ r, (pushRegsBytes r).length = 32 := fun _ => rfl
  obtain ⟨h1, m1⟩ := h.store 48 (wordBytes tf.tfEsp) (by omega) (by rw [hword]; omega)
  obtain ⟨h2, m2⟩ := m1.store 44 (wordBytes tf.tfEflags) (by omega) (by rw [hword]; omega)
  obtain ⟨h3, m3⟩ := m2.store 40 (wordBytes tf.tfEip) (by omega) (by rw [hword]; omega)
  obtain ⟨h4, m4⟩ := m3.store 8 (pushRegsBytes tf.tfRegs) (by omega) (by rw [hregs]; omega)
  obtain ⟨h5, m5⟩ := m4.store 4 (wordBytes tf.tfErr) (by omega) (by rw [hword]; omega)
  obtain ⟨h6, _⟩ := m5.store 0 (wordBytes faultVa) (by omega) (by rw [hword]; omega)
  rw [show BitVec.ofNat 32 0 = 0#32 from rfl, BitVec.add_zero] at h6
  refine ⟨?frame, ?stored, fun i w hw => ?_, fun x hx => ?_⟩
  case stored =>
    rw [storeUtf, (bind_of_result h1).2, (bind_of_result h2).2, (bind_of_result h3).2,
      (bind_of_result h4).2, (bind_of_result h5).2]
    exact h6
  · simp only [loadPhys_storeWord, loadPhys_storePushRegs, Nat.add_assoc, Nat.reduceAdd]
    match i, hw with
    | 0, hw | 1, hw | 2, hw | 3, hw | 4, hw | 5, hw | 6, hw | 7, hw | 8, hw | 9, hw | 10, hw | 11,
        hw | 12, hw =>
      cases hw
      simp (disch := omega) only [Nat.reduceMul, word_putWord, word_putWord_self]
  · simp only [loadPhys_storeWord, loadPhys_storePushRegs]
    simp (disch := omega) only [ByteMem.putWord, overwrite_out]

end Pmap

namespace Kernel

variable {k k' : Kernel} {curenv : EnvIx} {cr3 f : ℕ} {tf : Trapframe} {faultVa : Word}

/-- An environment that goes on after a page fault is at its upcall, with the frame below it. -/
theorem pageFaultHandler_frame
    (h : (k.pageFaultHandler curenv cr3 tf faultVa).2 = some (k', .resume))
    (hmap : k.pmap.MapsPage cr3 (utfAddr tf.tfEsp) f)
    (hpage : (utfAddr tf.tfEsp).toNat % pgsize + 52 ≤ pgsize) :
    (k'.envs curenv).envTf = { (k.envs curenv).envTf with
        tfEip := (k.envs curenv).envPgfaultUpcall, tfEsp := utfAddr tf.tfEsp } ∧
      (∀ i w, (Upcall.utfWords tf faultVa)[i]? = some w →
        ByteMem.word k'.pmap.loadPhys
          (f * pgsize + (utfAddr tf.tfEsp).toNat % pgsize + 4 * i) = w) ∧
      ∀ x, x < f * pgsize + (utfAddr tf.tfEsp).toNat % pgsize ∨
        f * pgsize + (utfAddr tf.tfEsp).toNat % pgsize + 52 ≤ x →
        k'.pmap.loadPhys x = k.pmap.loadPhys x := by
  rw [pageFaultHandler] at h
  split at h
  · -- without an upcall the environment is destroyed
    obtain ⟨⟨_, _⟩, _, heq⟩ := Option.map_eq_some_iff.mp h
    cases heq
  · obtain ⟨⟨k1, gone⟩, hassert, h⟩ := bind_result h
    cases gone with
    | true => cases h
    | false =>
      obtain ⟨rfl, _⟩ := userMemAssert_self.mp hassert
      obtain ⟨s, hs, h⟩ := bind_result h
      cases h
      obtain ⟨s', hs', hframe⟩ := Pmap.storeUtf_frame tf faultVa hmap hpage
      cases hs.symm.trans hs'
      refine ⟨?_, hframe⟩
      simp [setEnv, setPmap]

/-- A fault on the normal stack; the exception stack is frame 10. -/
theorem pageFaultHandler_frame_normal : ∃ k k' : Kernel,
    (k.pageFaultHandler 0 8 .user 0#32).2 = some (k', .resume) ∧
    ByteMem.word k'.pmap.loadPhys (11 * pgsize - 4) = Trapframe.user.tfEsp := by
  let k : Kernel := { sample with
    pmap := { sample.pmap with mem := fun f _ => mkPte (f + 1) (pteU ||| pteW) }
    envs := fun e => { sample.envs e with envPgfaultUpcall := utext } }
  obtain ⟨⟨k', _⟩, hk, rfl⟩ :
      ∃ p ∈ (k.pageFaultHandler 0 8 .user 0#32).2, p.2 = Leave.resume := by decide
  have hmap : k.pmap.MapsPage 8 (utfAddr Trapframe.user.tfEsp) 10 :=
    ⟨_, _, rfl, rfl, by decide, by decide, by decide, by decide, by decide⟩
  obtain ⟨_, hwords, _⟩ := pageFaultHandler_frame hk hmap (by decide)
  exact ⟨k, k', hk, hwords 12 _ rfl⟩

end Kernel

end LinuxStudy.Jos
