import LinuxStudy.Jos.Rings
import LinuxStudy.Jos.UserPointers

/-!
# A packet in its buffer

`sys_pkt_send` passes a length from user mode to `e1000_transmit`, which copies that many bytes
into the buffer of the current descriptor and stores the length in 16 bits. Nothing compares it
with the size of a buffer.
-/

namespace LinuxStudy.Jos

open Pmap Logged

/-- The packet `p` is in the current buffer and its length in the current descriptor; no other
    byte of memory and no other descriptor changed. -/
structure Kernel.Queued (k : Kernel) (p : Packet) (k' : Kernel) : Prop where
  fits : p.length ≤ txPktSize
  packet : k'.pmap.loadPhysBytes (k.nic.txBufferArray + k.nic.tdt.toNat * txPktSize) p.length = p
  length : (k'.nic.txDescArray k.nic.tdt.toNat).length.toNat = p.length
  memory : ∀ pa, (pa < k.nic.txBufferArray + k.nic.tdt.toNat * txPktSize ∨
    k.nic.txBufferArray + k.nic.tdt.toNat * txPktSize + p.length ≤ pa) →
      k'.pmap.loadPhys pa = k.pmap.loadPhys pa
  buffers : ∀ i ≠ k.nic.tdt.toNat, ∀ j < txPktSize,
    k'.pmap.loadPhys (k.nic.txBufferArray + i * txPktSize + j) =
      k.pmap.loadPhys (k.nic.txBufferArray + i * txPktSize + j)
  descriptors : ∀ i ≠ k.nic.tdt.toNat, k'.nic.txDescArray i = k.nic.txDescArray i
  receiving : k'.nic.rxDescArray = k.nic.rxDescArray

section

variable {k : Kernel} {cr3 : ℕ} {data len : Word}

/-- A range of at most the size of a buffer, at the start of buffer `i`, meets no other buffer. -/
theorem buffer_apart {base i i' j n : ℕ} (hne : i' ≠ i) (hj : j < txPktSize) (hn : n ≤ txPktSize) :
    base + i' * txPktSize + j < base + i * txPktSize ∨
      base + i * txPktSize + n ≤ base + i' * txPktSize + j := by
  rcases Nat.lt_or_gt_of_ne hne with h | h
  · have := row_le txPktSize h
    omega
  · have := row_le txPktSize h
    omega

theorem sysPktSend_full (hfull :
    (k.nic.txDescArray k.nic.tdt.toNat).status &&& e1000TxdStatDD = 0) :
    (k.sysPktSend cr3 data len).2 = some (.ret (-eTransmitRetry) k) := by
  rw [Kernel.sysPktSend, e1000Transmit, if_pos hfull]
  rfl

theorem sysPktSend_free {p : Packet}
    (hfull : ¬ (k.nic.txDescArray k.nic.tdt.toNat).status &&& e1000TxdStatDD = 0)
    (hdata : (k.pmap.loadBytes cr3 len.toNat data).2 = some p) :
    ∃ desc : TxDesc, desc.length = len.setWidth 16 ∧
    (k.sysPktSend cr3 data len).2 = some (.ret 0 { k with
      pmap := k.pmap.storePhysBytes (k.nic.txBufferArray + k.nic.tdt.toNat * txPktSize) p
      nic := { k.nic with
        txDescArray := Function.update k.nic.txDescArray k.nic.tdt.toNat desc
        tdt := BitVec.ofNat 16 ((k.nic.tdt.toNat + 1) % txdescs) } }) := by
  rw [Kernel.sysPktSend, e1000Transmit, if_neg hfull, (bind_of_result (bind_of_result hdata).2).2]
  exact ⟨_, rfl, rfl⟩

/-- **Transmitting stays in the packet's buffer**, if and only if the ring is full, or the packet
    fits and the kernel can read it: the call fails without any effect, or the packet is queued. -/
theorem pkt_send_stays_in_buffer :
    (∃ r k', (k.sysPktSend cr3 data len).2 = some (.ret r k') ∧ (r < 0 ∧ k' = k ∨
      r = 0 ∧ ∃ p, (k.pmap.loadBytes cr3 len.toNat data).2 = some p ∧ p.length = len.toNat ∧
    k.Queued p k')) ↔ (k.nic.txDescArray k.nic.tdt.toNat).status &&& e1000TxdStatDD = 0 ∨
      len.toNat ≤ txPktSize ∧ ∃ p, (k.pmap.loadBytes cr3 len.toNat data).2 = some p := by
  by_cases hfull : (k.nic.txDescArray k.nic.tdt.toNat).status &&& e1000TxdStatDD = 0
  · exact ⟨fun _ => .inl hfull, fun _ => ⟨_, k, sysPktSend_full hfull, .inl ⟨by decide, rfl⟩⟩⟩
  rw [or_iff_right hfull]
  constructor
  · rintro ⟨r, k', hcall, ⟨hr, -⟩ | ⟨-, p, hdata, hplen, hq⟩⟩
    · -- with a free descriptor the only result is 0
      rw [Kernel.sysPktSend, e1000Transmit, if_neg hfull] at hcall
      obtain ⟨_, hsend, hcall⟩ := bind_result hcall
      obtain ⟨_, _, hsend⟩ := bind_result hsend
      cases hsend
      cases hcall
      exact absurd hr (lt_irrefl 0)
    · exact ⟨hplen ▸ hq.fits, p, hdata⟩
  · rintro ⟨hlen, p, hdata⟩
    have hplen : p.length = len.toNat := loadBytes_length hdata
    have hfits : p.length ≤ txPktSize := hplen ▸ hlen
    obtain ⟨desc, hdesc, hcall⟩ := sysPktSend_free hfull hdata
    refine ⟨_, _, hcall, .inr ⟨rfl, p, hdata, hplen, hfits, loadPhysBytes_storePhysBytes_self, ?_,
      fun pa hpa => loadPhys_storePhysBytes_out hpa,
      fun i hi j hj => loadPhys_storePhysBytes_out (buffer_apart hi hj hfits),
      fun i hi => Function.update_of_ne hi .., rfl⟩⟩
    -- sixteen bits are enough for the length
    dsimp only
    rw [Function.update_self, hdesc, hplen, BitVec.toNat_setWidth, Nat.mod_eq_of_lt]
    exact hlen.trans_lt (by decide)

end

/-! ### Two packets -/

/-- The sample kernel with a page of `0xAA` bytes at `UTEXT`, the packet buffers from frame 12 on,
    and descriptor 1 still with the card. -/
def Kernel.sending : Kernel :=
  { Kernel.sample with
    pmap := { Kernel.sample.pmap with
      mem := fun f j => if f = 10 then 0xAAAAAAAA#32 else Kernel.sample.pmap.mem f j }
    nic := { E1000.blank with
      txBufferArray := 12 * pgsize
      txDescArray := fun i => if i = 1 then ⟨4, 9, 0⟩ else ⟨0, 0, e1000TxdStatDD⟩ } }

theorem Kernel.sending_maps : Kernel.sending.pmap.MapsPage 8 utext 10 :=
  ⟨tableWord 9, mkPte 10 (pteU ||| pteW), rfl, by decide, by decide⟩

theorem Kernel.sending_data {n : ℕ} (hn : n ≤ pgsize) :
    (Kernel.sending.pmap.loadBytes 8 n utext).2 =
      some (Kernel.sending.pmap.loadPhysBytes (10 * pgsize) n) := by
  have hoff : utext.toNat % pgsize = 0 := by decide
  have hload := loadBytes_page (n := n) sending_maps (by rw [hoff, Nat.zero_add]; exact hn)
  rwa [hoff, Nat.add_zero] at hload

/-- Four bytes are queued in the first buffer. -/
theorem pkt_send_stays_in_buffer_four : ∃ k',
    (Kernel.sending.sysPktSend 8 utext 4#32).2 = some (.ret 0 k') ∧
      Kernel.sending.Queued [0xAA, 0xAA, 0xAA, 0xAA] k' := by
  have hbytes :
    Kernel.sending.pmap.loadPhysBytes (10 * pgsize) 4 = [0xAA, 0xAA, 0xAA, 0xAA] := by decide
  have hdata := Kernel.sending_data (n := (4#32).toNat) (by decide)
  rw [show (4#32).toNat = 4 from rfl, hbytes] at hdata
  obtain ⟨r, k', hcall, hfail | ⟨rfl, p, hp, -, hq⟩⟩ :=
    pkt_send_stays_in_buffer.mpr (.inr ⟨show (4#32 : Word).toNat ≤ txPktSize by decide, _, hdata⟩)
  · have hdone : ∀ o ∈ (Kernel.sending.sysPktSend 8 utext 4#32).2, o.kernel.nic.tdt = 1 := by decide
    have htdt : k'.nic.tdt = 1 := hdone _ hcall
    rw [hfail.2] at htdt
    exact absurd htdt (by decide)
  · cases hdata.symm.trans hp
    exact ⟨k', hcall, hq⟩

/-- **A packet of 1519 bytes overruns its buffer**: its last byte is written over the first byte of
    the packet that the card is sending. -/
theorem pkt_send_overruns : ∃ k', (Kernel.sending.sysPktSend 8 utext 1519#32).2 = some (.ret 0 k') ∧
    Kernel.sending.nic.tdt.toNat = 0 ∧
    (Kernel.sending.nic.txDescArray 1).status &&& e1000TxdStatDD = 0 ∧
    Kernel.sending.pmap.loadPhys (Kernel.sending.nic.txBufferArray + 1 * txPktSize) = 0 ∧
    k'.pmap.loadPhys (Kernel.sending.nic.txBufferArray + 1 * txPktSize) = 0xAA := by
  have hdata := Kernel.sending_data (n := (1519#32).toNat) (by decide)
  generalize hp : Kernel.sending.pmap.loadPhysBytes (10 * pgsize) (1519#32).toNat = p at hdata
  have hplen : p.length = 1519 := by
    rw [← hp, Pmap.loadPhysBytes, List.length_map, List.length_range]
    rfl
  obtain ⟨desc, -, hcall⟩ := sysPktSend_free (by decide) hdata
  refine ⟨_, hcall, rfl, by decide, by decide, ?_⟩
  -- byte 1518 of the packet is the last one
  have hcopy : (Kernel.sending.pmap.storePhysBytes (12 * pgsize + 0 * txPktSize) p).loadPhysBytes
      (12 * pgsize + 0 * txPktSize) p.length = p := loadPhysBytes_storePhysBytes_self
  have hbyte := congrArg (fun bs => bs[1518]?) hcopy
  have hlast : p[1518]? = some 0xAA := by
    rw [← hp, Pmap.loadPhysBytes, List.getElem?_map, List.getElem?_range (by decide)]
    decide
  rw [hplen, Pmap.loadPhysBytes] at hbyte
  rw [List.getElem?_map, List.getElem?_range (by decide), hlast] at hbyte
  exact Option.some.inj hbyte

end LinuxStudy.Jos
