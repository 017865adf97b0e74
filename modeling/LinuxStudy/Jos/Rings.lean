import LinuxStudy.Lib.Ring
import LinuxStudy.Jos.PhysBytes
import LinuxStudy.Jos.DataStore

/-!
# The descriptor rings between the driver and the 82540EM

The driver of `kern/e1000.c` with the card it drives. The card processes transmit descriptors
from `TDH` up to `TDT` and fills receive descriptors from `RDH` up to `RDT`, modulo the length
it was told in `TDLEN` and `RDLEN`. The `LEN` field of these registers counts units of 128
bytes, eight descriptors each; the driver stores the number of descriptors in it, so the rings
of the card are eight times as long as the arrays, while the driver wraps at their end. Until
the first wrap the two agree.

A packet is a list of bytes. Frames longer than a receive buffer do not arrive: `RCTL` does not
enable long packets. Memory outside the buffers changes freely between the steps.
-/

namespace LinuxStudy.Jos

open Function (update update_of_ne update_self)

structure Nic where
  pmap : Pmap
  drv : E1000
  tdlen : BitVec 13
  tdh : BitVec 16
  rdlen : BitVec 13
  rdh : BitVec 16

abbrev Packet := List Byte

/-- Descriptors in a ring, from the `LEN` field of its length register: units of 128 bytes, 16
    bytes a descriptor. -/
def ringLen (len : BitVec 13) : ℕ := len.toNat * 128 / 16

variable {k cr3 : ℕ} {n n' : Nic}

theorem notMem_snoc {α : Type*} {f : ℕ → α} {l : List α} {a : α} (hl : ∀ i, f i ∉ l)
    (ha : ∀ i, a ≠ f i) : ∀ i, f i ∉ l ++ [a] := by
  intro i hi
  rcases List.mem_append.mp hi with hi | hi
  · exact hl i hi
  · exact ha i (List.mem_singleton.mp hi).symm

theorem row_le (size : ℕ) {i : ℕ} (h : i < k) : i * size + size ≤ k * size := by
  have := Nat.mul_le_mul_right size (Nat.succ_le_of_lt h)
  rwa [Nat.succ_mul] at this

namespace Nic

variable (n : Nic)

/-- The packet that transmit descriptor `i` describes. -/
def txPacket (i : ℕ) : Packet :=
  n.pmap.loadPhysBytes (n.drv.txBufferArray + i * txPktSize) (n.drv.txDescArray i).length.toNat

/-- The packet that receive descriptor `i` describes. -/
def rxPacket (i : ℕ) : Packet :=
  n.pmap.loadPhysBytes (n.drv.rxBufferArray + i * rxPktSize) (n.drv.rxDescArray i).length.toNat

end Nic

/-! ### Transmission -/

def e1000TransmitInit (n : Nic) : Nic :=
  { n with
    drv := { n.drv with
      txDescArray := fun i =>
        let desc := n.drv.txDescArray i
        if i < txdescs then { desc with cmd := 0, status := desc.status ||| e1000TxdStatDD }
        else desc
      tdt := 0 }
    tdlen := BitVec.ofNat 13 txdescs
    tdh := 0 }

inductive TxEvent
  /-- `e1000_transmit` returned 0. -/
  | accepted (p : Packet)
  | refused
  | sent (p : Packet)
  /-- The card processed what lies at the place of a descriptor past the array. -/
  | outside (i : ℕ)
  | other
  deriving DecidableEq, Repr

/-- The card after it has sent the packet of descriptor `TDH`. -/
def Nic.txDone (n : Nic) : Nic :=
  let i := n.tdh.toNat
  let desc := n.drv.txDescArray i
  { n with
    drv := { n.drv with
      txDescArray := update n.drv.txDescArray i
        { desc with status := desc.status ||| e1000TxdStatDD } }
    tdh := BitVec.ofNat 16 ((i + 1) % ringLen n.tdlen) }

inductive TxStep : Nic → TxEvent → Nic → Prop
  | accept {n : Nic} {cr3 : ℕ} {data len : Word} {s : Pmap} {drv : E1000} {p : Packet}
      (hlen : len.toNat ≤ txPktSize) (hdata : (n.pmap.loadBytes cr3 len.toNat data).2 = some p)
      (h : (e1000Transmit n.pmap n.drv cr3 data len).2 = some (s, drv, 0)) :
      TxStep n (.accepted p) { n with pmap := s, drv := drv }
  | refuse {n : Nic} {cr3 : ℕ} {data len : Word} {s : Pmap} {drv : E1000} {r : Int}
      (h : (e1000Transmit n.pmap n.drv cr3 data len).2 = some (s, drv, r)) (hr : r ≠ 0) :
      TxStep n .refused { n with pmap := s, drv := drv }
  | send {n : Nic} (hready : n.tdh ≠ n.drv.tdt) (hin : n.tdh.toNat < txdescs) :
      TxStep n (.sent (n.txPacket n.tdh.toNat)) n.txDone
  | stray {n : Nic} (hready : n.tdh ≠ n.drv.tdt) (hout : txdescs ≤ n.tdh.toNat) :
      TxStep n (.outside n.tdh.toNat)
        { n with tdh := BitVec.ofNat 16 ((n.tdh.toNat + 1) % ringLen n.tdlen) }
  | other {n : Nic} {s : Pmap}
      (h : ∀ j < txdescs * txPktSize,
        s.loadPhys (n.drv.txBufferArray + j) = n.pmap.loadPhys (n.drv.txBufferArray + j)) :
      TxStep n .other { n with pmap := s }

def accepted (es : List TxEvent) : List Packet :=
  es.filterMap fun e => match e with | .accepted p => some p | _ => none

def sent (es : List TxEvent) : List Packet :=
  es.filterMap fun e => match e with | .sent p => some p | _ => none

/-- The packets in the window `[TDH, TDT)` of the card's ring. -/
def Nic.txWindow (n : Nic) : List Packet :=
  let len := ringLen n.tdlen
  (List.range ((n.drv.tdt.toNat + len - n.tdh.toNat) % len)).map fun j =>
    n.txPacket ((n.tdh.toNat + j) % len)

section Transmit

variable {n n' : Nic} {es : List TxEvent} {e : TxEvent} {q : List Packet} {s s' : Pmap}
  {drv drv' : E1000} {cr3 : ℕ} {data len : Word} {r : Int} {p : Packet}

/-- What `e1000_transmit` does: nothing when the descriptor is not done, and otherwise the copy
    and the new tail. -/
theorem e1000Transmit_cases (h : (e1000Transmit s drv cr3 data len).2 = some (s', drv', r)) :
    (r ≠ 0 ∧ s' = s ∧ drv' = drv) ∨
    ∃ p, (s.loadBytes cr3 len.toNat data).2 = some p ∧ r = 0 ∧
      s' = s.storePhysBytes (drv.txBufferArray + drv.tdt.toNat * txPktSize) p ∧
      ∃ desc : TxDesc, desc.length = len.setWidth 16 ∧
        drv' = { drv with txDescArray := update drv.txDescArray drv.tdt.toNat desc
                          tdt := BitVec.ofNat 16 ((drv.tdt.toNat + 1) % txdescs) } := by
  rw [e1000Transmit] at h
  split at h
  · obtain ⟨rfl, rfl, rfl⟩ : s = s' ∧ drv = drv' ∧ -eTransmitRetry = r := by
      simpa [Logged.pure] using h
    exact .inl ⟨by decide, rfl, rfl⟩
  · obtain ⟨p, hp, h⟩ := Logged.bind_result h
    obtain ⟨rfl, hrest⟩ := Prod.mk.inj (Option.some.inj h)
    cases hrest
    exact .inr ⟨p, hp, rfl, rfl, _, rfl, rfl⟩

/-- The packet of a descriptor depends on its length and its buffer. -/
theorem Nic.txPacket_congr {i : ℕ} (hbuf : n'.drv.txBufferArray = n.drv.txBufferArray)
    (hlength : (n'.drv.txDescArray i).length = (n.drv.txDescArray i).length)
    (hmem : ∀ j < (n.drv.txDescArray i).length.toNat,
      n'.pmap.loadPhys (n.drv.txBufferArray + i * txPktSize + j) =
        n.pmap.loadPhys (n.drv.txBufferArray + i * txPktSize + j)) :
    n'.txPacket i = n.txPacket i := by
  rw [txPacket, txPacket, hbuf, hlength]
  exact Pmap.loadPhysBytes_congr hmem

@[simp] theorem Nic.txPacket_length {i : ℕ} :
    (n.txPacket i).length = (n.drv.txDescArray i).length.toNat := by
  simp [txPacket, Pmap.loadPhysBytes]

@[simp] theorem accepted_append : accepted (es ++ [e]) = accepted es ++ accepted [e] :=
  List.filterMap_append

@[simp] theorem sent_append : sent (es ++ [e]) = sent es ++ sent [e] :=
  List.filterMap_append

/-- Before the first wrap: the heads and tails count the packets, and the buffers from `TDH` on
    hold those that are accepted and not sent. -/
structure TxInv (es : List TxEvent) (n : Nic) (q : List Packet) : Prop where
  tdlen : n.tdlen = BitVec.ofNat 13 txdescs
  tdh : n.tdh.toNat = (sent es).length
  tdt : n.drv.tdt.toNat = (accepted es).length
  line : Ring.Line txdescs (·.length ≤ txPktSize) n.txPacket (accepted es) (sent es) q
  inside : ∀ i, .outside i ∉ es

namespace TxInv

theorem length_le (h : TxInv es n q) {i : ℕ} (hi : i < q.length) :
    (n.drv.txDescArray ((sent es).length + i)).length.toNat ≤ txPktSize := by
  rw [← n.txPacket_length, h.line.cell i hi]
  exact h.line.all _ (List.getElem_mem hi)

/-- A step that leaves the lengths and the buffers of the window as they are. -/
theorem same (h : TxInv es n q) (he : accepted [e] = [] ∧ sent [e] = [])
    (hin : ∀ i, e ≠ .outside i) (hlen : n'.tdlen = n.tdlen) (htdh : n'.tdh = n.tdh)
    (htdt : n'.drv.tdt = n.drv.tdt)
    (hcells : ∀ i < q.length,
      n'.txPacket ((sent es).length + i) = n.txPacket ((sent es).length + i)) :
    TxInv (es ++ [e]) n' q := by
  have hacc : accepted (es ++ [e]) = accepted es := by
    rw [accepted_append, he.1, List.append_nil]
  have hsent : sent (es ++ [e]) = sent es := by
    rw [sent_append, he.2, List.append_nil]
  refine ⟨hlen.trans h.tdlen, ?_, ?_, ?_, notMem_snoc h.inside hin⟩
  · rw [htdh, hsent, h.tdh]
  · rw [htdt, hacc, h.tdt]
  · rw [hacc, hsent]
    exact h.line.congr hcells

theorem accept (h : TxInv es n q) (hfew : (accepted (es ++ [.accepted p])).length < txdescs)
    (hlen : len.toNat ≤ txPktSize) (hdata : (n.pmap.loadBytes cr3 len.toNat data).2 = some p)
    (hcall : (e1000Transmit n.pmap n.drv cr3 data len).2 = some (s, drv, 0)) :
    TxInv (es ++ [.accepted p]) { n with pmap := s, drv := drv } (q ++ [p]) := by
  have hacc : accepted (es ++ [.accepted p]) = accepted es ++ [p] := accepted_append
  have hsent : sent (es ++ [.accepted p]) = sent es := sent_append.trans (List.append_nil _)
  rw [hacc] at hfew
  have hfew' := hfew
  rw [List.length_append, List.length_singleton] at hfew'
  obtain ⟨hr, _⟩ | ⟨p', hp', -, rfl, desc, hdesc, rfl⟩ := e1000Transmit_cases hcall
  · exact absurd rfl hr
  · cases hdata.symm.trans hp'
    have hplen : p.length = len.toNat := loadBytes_length hdata
    have htdt := h.tdt
    have hnum := h.line.length_eq
    have hlen16 : (len.setWidth 16).toNat = len.toNat := by
      rw [BitVec.toNat_setWidth, Nat.mod_eq_of_lt]
      exact hlen.trans_lt (by decide)
    refine ⟨h.tdlen, ?_, ?_, ?_, notMem_snoc h.inside nofun⟩
    · rw [hsent]
      exact h.tdh
    · rw [hacc, List.length_append, List.length_singleton, htdt, BitVec.toNat_ofNat,
        Nat.mod_eq_of_lt hfew', Nat.mod_eq_of_lt (hfew'.trans (by decide))]
    · rw [hacc, hsent]
      refine h.line.push hfew (hplen ▸ hlen) (fun i hi => ?_) ?_
      · have hne : (sent es).length + i ≠ n.drv.tdt.toNat := by omega
        refine Nic.txPacket_congr rfl ?_ fun j hj => ?_
        · dsimp only
          rw [update_of_ne hne]
        · refine Pmap.loadPhys_storePhysBytes_out (.inl ?_)
          have hshort := h.length_le hi
          have hrow := row_le txPktSize (show (sent es).length + i < n.drv.tdt.toNat by omega)
          omega
      · rw [← htdt, Nic.txPacket]
        dsimp only
        rw [update_self, hdesc, hlen16, ← hplen]
        exact Pmap.loadPhysBytes_storePhysBytes_self

theorem send (h : TxInv es n q) (hready : n.tdh ≠ n.drv.tdt) :
    ∃ q', TxInv (es ++ [.sent (n.txPacket n.tdh.toNat)]) n.txDone q' := by
  have hnum := h.line.length_eq
  have hfew := h.line.few
  rcases q with _ | ⟨p, q⟩
  · refine absurd (BitVec.eq_of_toNat_eq ?_) hready
    rw [h.tdh, h.tdt, hnum, List.length_nil, Nat.add_zero]
  · obtain ⟨hfirst, hrest⟩ := h.line.pop
    rw [← h.tdh] at hfirst
    have hacc : accepted (es ++ [.sent (n.txPacket n.tdh.toNat)]) = accepted es :=
      accepted_append.trans (List.append_nil _)
    have hsent : sent (es ++ [.sent (n.txPacket n.tdh.toNat)]) = sent es ++ [p] := by
      rw [sent_append, hfirst]
      rfl
    have hpacket : ∀ i, n.txDone.txPacket i = n.txPacket i := by
      intro i
      refine Nic.txPacket_congr rfl ?_ fun j hj => rfl
      simp only [Nic.txDone, Function.update_apply]
      split_ifs with hi
      · rw [hi]
      · rfl
    refine ⟨q, h.tdlen, ?_, ?_, ?_, notMem_snoc h.inside nofun⟩
    · rw [hsent, List.length_append, List.length_singleton, Nic.txDone]
      rw [h.tdlen, h.tdh, BitVec.toNat_ofNat]
      have hlen : ringLen (BitVec.ofNat 13 txdescs) = 256 := by decide
      have : txdescs = 32 := rfl
      rw [hlen]
      omega
    · rw [hacc]
      exact h.tdt
    · rw [hacc, hsent]
      exact hrest.congr fun i _ => hpacket _

theorem step (h : TxInv es n q) (hs : TxStep n e n')
    (hfew : (accepted (es ++ [e])).length < txdescs) : ∃ q', TxInv (es ++ [e]) n' q' := by
  have hnum := h.line.length_eq
  have hroom := h.line.few
  cases hs with
  | accept hlen hdata hcall => exact ⟨_, h.accept hfew hlen hdata hcall⟩
  | refuse hcall hr =>
    obtain ⟨-, rfl, rfl⟩ | ⟨_, _, hzero, _⟩ := e1000Transmit_cases hcall
    · exact ⟨q, h.same ⟨rfl, rfl⟩ nofun rfl rfl rfl fun i _ => rfl⟩
    · exact absurd hzero hr
  | send hready _ => exact h.send hready
  | stray hready hout =>
    -- the head is a number of packets, and the array has room for all of them
    have := h.tdh
    omega
  | other hmem =>
    refine ⟨q, h.same ⟨rfl, rfl⟩ nofun rfl rfl rfl fun i hi => ?_⟩
    refine Nic.txPacket_congr rfl rfl fun j hj => ?_
    have hshort := h.length_le hi
    have hrow := row_le txPktSize (show (sent es).length + i < txdescs by omega)
    rw [Nat.add_assoc]
    exact hmem _ (by omega)

theorem init (n : Nic) : TxInv [] (e1000TransmitInit n) [] :=
  ⟨rfl, rfl, rfl, .nil (by decide), by simp⟩

end TxInv

end Transmit

/-- **Transmit ring.** In every run from `e1000_transmit_init` in which fewer than `TXDESCS`
    packets are accepted, the packets sent are a prefix of those accepted, the card stays inside
    `tx_desc_array`, and the window `[TDH, TDT)` holds the accepted packets that are not sent,
    with their bytes. -/
theorem transmit_ring {n n' : Nic} {es : List TxEvent} (h : Run TxStep (e1000TransmitInit n) es n')
    (hfew : (accepted es).length < txdescs) :
    sent es <+: accepted es ∧ (∀ i, .outside i ∉ es) ∧
      n'.txWindow = (accepted es).drop (sent es).length := by
  have hinv : ∃ q, TxInv es n' q := by
    induction h with
    | nil => exact ⟨[], .init n⟩
    | snoc _ hs ih =>
      obtain ⟨q, hq⟩ := ih (by
        rw [accepted_append, List.length_append] at hfew
        omega)
      exact hq.step hs hfew
  obtain ⟨q, hq⟩ := hinv
  refine ⟨⟨q, hq.line.order.symm⟩, hq.inside, ?_⟩
  have hnum := hq.line.length_eq
  have hlen : ringLen n'.tdlen = 256 := by
    rw [hq.tdlen]
    decide
  have htx : txdescs = 32 := rfl
  have hcount : (n'.drv.tdt.toNat + 256 - n'.tdh.toNat) % 256 = q.length := by
    rw [hq.tdt, hq.tdh]
    omega
  rw [Nic.txWindow, hlen, hcount, hq.line.order, List.drop_left]
  refine List.ext_getElem (by simp) fun i hi hi' => ?_
  rw [List.getElem_map, List.getElem_range, hq.tdh, Nat.mod_eq_of_lt (by omega), hq.line.cell i hi']

/-- A call of `e1000_transmit`, as a function. -/
def Nic.transmit (n : Nic) (cr3 : ℕ) (data len : Word) : Option (Nic × TxEvent) :=
  (n.pmap.loadBytes cr3 len.toNat data).2.bind fun p =>
    (e1000Transmit n.pmap n.drv cr3 data len).2.map fun (s, drv, r) =>
      ({ n with pmap := s, drv := drv }, if r = 0 then .accepted p else .refused)

theorem Nic.transmit_step {data len : Word} {e : TxEvent}
    (hlen : len.toNat ≤ txPktSize) (h : n.transmit cr3 data len = some (n', e)) :
    TxStep n e n' := by
  obtain ⟨p, hp, h⟩ := Option.bind_eq_some_iff.mp h
  obtain ⟨⟨s, drv, r⟩, hcall, h⟩ := Option.map_eq_some_iff.mp h
  cases h
  by_cases hr : r = 0
  · subst hr
    exact .accept hlen hp hcall
  · rw [if_neg hr]
    exact .refuse hcall hr

/-- Calls with the one-byte packets at the addresses below `k`. -/
def Nic.transmits (n : Nic) (cr3 : ℕ) : ℕ → Option (Nic × List TxEvent)
  | 0 => some (n, [])
  | k + 1 => (n.transmits cr3 k).bind fun (n, es) =>
      (n.transmit cr3 (BitVec.ofNat 32 k) 1#32).map fun (n, e) => (n, es ++ [e])

theorem Nic.transmits_run {es : List TxEvent}
    (h : n.transmits cr3 k = some (n', es)) : Run TxStep n es n' := by
  induction k generalizing n' es with
  | zero =>
    obtain ⟨rfl, rfl⟩ := Prod.mk.inj (Option.some.inj h)
    exact .nil n
  | succ k ih =>
    rw [transmits, Option.bind_eq_some_iff] at h
    obtain ⟨⟨n1, es1⟩, h1, h⟩ := h
    obtain ⟨⟨n2, e⟩, h2, h⟩ := Option.map_eq_some_iff.mp h
    obtain ⟨rfl, rfl⟩ := Prod.mk.inj h
    exact .snoc (ih h1) (transmit_step (by decide) h2)

/-- A card that was reset. Its driver has the page directory in frame 1 and a page table in
    frame 2, which map frame 3 at address 0; the bytes there count from 0. -/
def Nic.reset : Nic where
  pmap := { npages := 8, pages := fun _ => ⟨none, 0⟩, pageFreeList := none, kernPgdir := 1,
            mem := fun f i =>
              match f with
              | 1 => if i = 0 then 0x2007#32 else 0#32
              | 2 => if i = 0 then 0x3007#32 else 0#32
              | 3 => 0x03020100#32 + 0x04040404#32 * BitVec.ofNat 32 i.val
              | _ => 0#32 }
  drv := { tdt := 0, txDescArray := fun _ => ⟨0, 0, 0⟩, txBufferArray := 0x10000, rdt := 0,
           next := 0, rxDescArray := fun _ => ⟨0, 0, 0⟩, rxBufferArray := 0x20000 }
  tdlen := 0
  tdh := 0
  rdlen := 0
  rdh := 0

/-- Two packets, of which the card has sent the first. -/
theorem transmit_ring_two : ∃ es n, Run TxStep (e1000TransmitInit .reset) es n ∧
    accepted es = [[0], [1]] ∧ sent es = [[0]] ∧ sent es <+: accepted es ∧ n.txWindow = [[1]] := by
  obtain ⟨⟨n, _⟩, hcalls, rfl, hready, hin, hfirst⟩ :
    ∃ x ∈ (e1000TransmitInit .reset).transmits 1 2,
      x.2 = [.accepted [0], .accepted [1]] ∧ x.1.tdh ≠ x.1.drv.tdt ∧ x.1.tdh.toNat < txdescs ∧
        x.1.txPacket x.1.tdh.toNat = [0] := by
    decide
  have hrun := (Nic.transmits_run hcalls).snoc (.send hready hin)
  rw [hfirst] at hrun
  obtain ⟨horder, -, hwindow⟩ := transmit_ring hrun (by decide)
  exact ⟨_, _, hrun, rfl, rfl, horder, hwindow⟩

/-- With 32 packets accepted and none sent, `TDT` is `TDH` again: the window is empty. -/
theorem transmit_ring_wraps : ∃ es n, Run TxStep (e1000TransmitInit .reset) es n ∧
    (accepted es).length = 32 ∧ sent es = [] ∧ n.txWindow = [] := by
  obtain ⟨⟨n, es⟩, hcalls, heval⟩ : ∃ x ∈ (e1000TransmitInit .reset).transmits 1 32,
      (accepted x.2).length = 32 ∧ sent x.2 = [] ∧ x.1.txWindow = [] := by
    decide
  exact ⟨es, n, Nic.transmits_run hcalls, heval⟩

/-! ### Reception -/

def e1000RxdStatEop : Byte := 0x02

/-- The static arrays are zero before. -/
def e1000ReceiveInit (n : Nic) : Nic :=
  { n with
    drv := { n.drv with rdt := BitVec.ofNat 16 (rxdescs - 1) }
    rdlen := BitVec.ofNat 13 rxdescs
    rdh := 0 }

inductive RxEvent
  /-- The card put a packet into a descriptor. -/
  | arrived (p : Packet)
  /-- The card had no descriptor for a packet. -/
  | dropped
  /-- The card filled what lies at the place of a descriptor past the array. -/
  | outside (i : ℕ)
  /-- `e1000_receive` returned 0. -/
  | returned (p : Packet)
  | retry
  | other
  deriving DecidableEq, Repr

/-- The card after it has put `p` into descriptor `RDH`. -/
def Nic.rxFill (n : Nic) (p : Packet) : Nic :=
  let i := n.rdh.toNat
  { n with
    pmap := n.pmap.storePhysBytes (n.drv.rxBufferArray + i * rxPktSize) p
    drv := { n.drv with
      rxDescArray := update n.drv.rxDescArray i
        { length := BitVec.ofNat 16 p.length, status := e1000RxdStatDD ||| e1000RxdStatEop,
          errors := 0 } }
    rdh := BitVec.ofNat 16 ((i + 1) % ringLen n.rdlen) }

/-- The receive buffers are the same in both memories. -/
def Nic.SameRx (n : Nic) (s : Pmap) : Prop :=
  ∀ j < rxdescs * rxPktSize,
    s.loadPhys (n.drv.rxBufferArray + j) = n.pmap.loadPhys (n.drv.rxBufferArray + j)

/-- The bytes that a call writes for its caller: the length and the packet. -/
def Nic.CallerByte (n : Nic) (addr len va : Word) : Prop :=
  (∃ i < 4, va = len + BitVec.ofNat 32 i) ∨
    ∃ i < (n.drv.rxDescArray n.drv.next).length.toNat, va = addr + BitVec.ofNat 32 i

/-- The pointers of the caller are to memory of its own, outside of the receive buffers, and the
    length is not inside of the packet. -/
structure Nic.Caller (n : Nic) (cr3 : ℕ) (addr len : Word) (frame : Word → ℕ) : Prop where
  own : n.pmap.Own cr3 (n.CallerByte addr len) frame
  buffers : ∀ va, n.CallerByte addr len va →
    ∀ j < rxdescs * rxPktSize, frame va ≠ (n.drv.rxBufferArray + j) / pgsize
  apart : ∀ i < 4, ∀ j < (n.drv.rxDescArray n.drv.next).length.toNat,
    len + BitVec.ofNat 32 i ≠ addr + BitVec.ofNat 32 j

inductive RxStep : Nic → RxEvent → Nic → Prop
  | arrive {n : Nic} {p : Packet} (hlen : p.length ≤ rxPktSize) (hready : n.rdh ≠ n.drv.rdt)
      (hin : n.rdh.toNat < rxdescs) : RxStep n (.arrived p) (n.rxFill p)
  | drop {n : Nic} (hfull : n.rdh = n.drv.rdt) : RxStep n .dropped n
  | stray {n : Nic} (hready : n.rdh ≠ n.drv.rdt) (hout : rxdescs ≤ n.rdh.toNat) :
      RxStep n (.outside n.rdh.toNat)
        { n with rdh := BitVec.ofNat 16 ((n.rdh.toNat + 1) % ringLen n.rdlen) }
  /-- A call that returns 0, and what the caller then finds: the length at `len`, and so many bytes
      at `addr`. -/
  | receive {n : Nic} {cr3 : ℕ} {addr len : Word} {frame : Word → ℕ} {s : Pmap} {drv : E1000}
      {ws : List Byte}
      {p : Packet} (hcaller : n.Caller cr3 addr len frame)
      (h : (e1000Receive n.pmap n.drv cr3 addr len).2 = some (s, drv, 0))
      (hlen : (s.loadBytes cr3 4 len).2 = some ws)
        (hp : (s.loadBytes cr3 (word ws 0).toNat addr).2 = some p) :
      RxStep n (.returned p) { n with pmap := s, drv := drv }
  | retry {n : Nic} {cr3 : ℕ} {addr len : Word} {s : Pmap} {drv : E1000} {r : Int}
      (h : (e1000Receive n.pmap n.drv cr3 addr len).2 = some (s, drv, r)) (hr : r ≠ 0) :
      RxStep n .retry { n with pmap := s, drv := drv }
  | other {n : Nic} {s : Pmap} (h : n.SameRx s) : RxStep n .other { n with pmap := s }

def arrived (es : List RxEvent) : List Packet :=
  es.filterMap fun e => match e with | .arrived p => some p | _ => none

def returned (es : List RxEvent) : List Packet :=
  es.filterMap fun e => match e with | .returned p => some p | _ => none

section Receive

variable {n n' : Nic} {es : List RxEvent} {e : RxEvent} {q : List Packet} {s s' s₁ : Pmap}
  {drv drv' : E1000} {cr3 : ℕ} {addr len : Word} {r : Int} {p : Packet}

@[simp] theorem arrived_append : arrived (es ++ [e]) = arrived es ++ arrived [e] :=
  List.filterMap_append

@[simp] theorem returned_append : returned (es ++ [e]) = returned es ++ returned [e] :=
  List.filterMap_append

/-- What `e1000_receive` does: nothing when the descriptor is not done or has errors, and
    otherwise it moves on to the next one. -/
theorem e1000Receive_cases (h : (e1000Receive s drv cr3 addr len).2 = some (s', drv', r)) :
    (r ≠ 0 ∧ s' = s ∧ drv' = drv ∧
      ((drv.rxDescArray drv.next).status &&& e1000RxdStatDD = 0 ∨
        (drv.rxDescArray drv.next).errors ≠ 0)) ∨
    (r = 0 ∧ (drv.rxDescArray drv.next).status &&& e1000RxdStatDD ≠ 0 ∧
      (drv.rxDescArray drv.next).errors = 0 ∧
      drv' = { drv with rdt := BitVec.ofNat 16 ((drv.rdt.toNat + 1) % rxdescs)
                        next := (drv.next + 1) % rxdescs }) := by
  rw [e1000Receive] at h
  split at h
  · next hdd =>
    obtain ⟨rfl, rfl, rfl⟩ : s = s' ∧ drv = drv' ∧ -eReceiveRetry = r := by
      simpa [Logged.pure] using h
    exact .inl ⟨by decide, rfl, rfl, .inl hdd⟩
  · next hdd =>
    split at h
    · next herr =>
      obtain ⟨rfl, rfl, rfl⟩ : s = s' ∧ drv = drv' ∧ -eReceiveRetry = r := by
        simpa [Logged.pure] using h
      exact .inl ⟨by decide, rfl, rfl, .inr herr⟩
    · next herr =>
      obtain ⟨_, -, h⟩ := Logged.bind_result h
      obtain ⟨_, -, h⟩ := Logged.bind_result h
      obtain ⟨_, -, h⟩ := Logged.bind_result h
      obtain ⟨rfl, hrest⟩ := Prod.mk.inj (Option.some.inj h)
      cases hrest
      exact .inr ⟨rfl, hdd, not_not.mp herr, rfl⟩

theorem Nic.rxPacket_congr {i : ℕ} (hbuf : n'.drv.rxBufferArray = n.drv.rxBufferArray)
    (hlength : (n'.drv.rxDescArray i).length = (n.drv.rxDescArray i).length)
    (hmem : ∀ j < (n.drv.rxDescArray i).length.toNat,
      n'.pmap.loadPhys (n.drv.rxBufferArray + i * rxPktSize + j) =
        n.pmap.loadPhys (n.drv.rxBufferArray + i * rxPktSize + j)) :
    n'.rxPacket i = n.rxPacket i := by
  rw [rxPacket, rxPacket, hbuf, hlength]
  exact Pmap.loadPhysBytes_congr hmem

@[simp] theorem Nic.rxPacket_length {i : ℕ} :
    (n.rxPacket i).length = (n.drv.rxDescArray i).length.toNat := by
  simp [rxPacket, Pmap.loadPhysBytes]

/-- The memory of the caller after a call: the length and the bytes of the packet. -/
theorem Nic.Caller.receive {frame : Word → ℕ} (h : n.Caller cr3 addr len frame)
    (hdd : (n.drv.rxDescArray n.drv.next).status &&& e1000RxdStatDD ≠ 0)
    (herr : (n.drv.rxDescArray n.drv.next).errors = 0) (hnext : n.drv.next < rxdescs)
    (hshort : (n.drv.rxDescArray n.drv.next).length.toNat ≤ rxPktSize) :
    ∃ s, (e1000Receive n.pmap n.drv cr3 addr len).2 =
        some (s, { n.drv with rdt := BitVec.ofNat 16 ((n.drv.rdt.toNat + 1) % rxdescs)
                              next := (n.drv.next + 1) % rxdescs }, 0) ∧ n.SameRx s ∧
      (s.loadBytes cr3 4 len).2 =
      some (wordBytes ((n.drv.rxDescArray n.drv.next).length.setWidth 32)) ∧
      (s.loadBytes cr3 (n.drv.rxDescArray n.drv.next).length.toNat addr).2 =
      some (n.rxPacket n.drv.next) := by
  have hsame : ∀ s : Pmap,
      (∀ g, (∀ va, n.CallerByte addr len va → frame va ≠ g) → s.mem g = n.pmap.mem g) →
      n.SameRx s := fun s hmem j hj => by
    rw [Pmap.loadPhys, Pmap.loadPhys, hmem _ fun va hva => h.buffers va hva j hj]
  have hlens : ∀ i < 4, n.CallerByte addr len (len + BitVec.ofNat 32 i) := fun i hi =>
    .inl ⟨i, hi, rfl⟩
  -- the store of `*len`, the load of it, and the copy
  obtain ⟨s₁, hstore, hmem₁, hword, -⟩ := h.own.storeBytes
    (show (wordBytes ((n.drv.rxDescArray n.drv.next).length.setWidth 32)).length ≤ 2 ^ 32 by
      simp [wordBytes]) hlens
  have hown₁ := h.own.of_mem_eq hmem₁
  have hload := hown₁.loadBytes hlens
  have hbytes : s₁.loadPhysBytes (n.drv.rxBufferArray + n.drv.next * rxPktSize)
      (n.drv.rxDescArray n.drv.next).length.toNat = n.rxPacket n.drv.next := by
    refine Pmap.loadPhysBytes_congr fun j hj => ?_
    have hrow := row_le rxPktSize hnext
    rw [Nat.add_assoc]
    exact hsame s₁ hmem₁ _ (by omega)
  have haddrs : ∀ i < (n.rxPacket n.drv.next).length,
      n.CallerByte addr len (addr + BitVec.ofNat 32 i) :=
    fun i hi => .inr ⟨i, by rwa [← n.rxPacket_length], rfl⟩
  obtain ⟨s₂, hcopy, hmem₂, hpacket, hkept⟩ :=
    hown₁.storeBytes (show (n.rxPacket n.drv.next).length ≤ 2 ^ 32 by
      rw [n.rxPacket_length]; exact (BitVec.isLt _).le.trans (by decide)) haddrs
  have hmem : ∀ g, (∀ va, n.CallerByte addr len va → frame va ≠ g) → s₂.mem g = n.pmap.mem g :=
    fun g hg => (hmem₂ g hg).trans (hmem₁ g hg)
  have hown₂ := h.own.of_mem_eq hmem
  refine ⟨s₂, ?_, hsame s₂ hmem, ?_, ?_⟩
  · rw [e1000Receive, if_neg hdd, if_neg (not_not_intro herr), (Logged.bind_of_result hstore).2,
      (Logged.bind_of_result hload).2, hbytes, (Logged.bind_of_result hcopy).2]
    rfl
  · rw [hown₂.loadBytes hlens]
    refine congrArg some (List.ext_getElem rfl fun i hi hi' => ?_)
    rw [List.getElem_map, List.getElem_range, hkept _ (hlens i hi') fun j hj => h.apart i hi' j
      (by rwa [← n.rxPacket_length]), hword i hi']
  · rw [← n.rxPacket_length, hown₂.loadBytes haddrs]
    refine congrArg some (List.ext_getElem (by simp) fun i hi hi' => ?_)
    rw [List.getElem_map, List.getElem_range, hpacket i hi']

/-- Before the first wrap: the head and `next` count the packets, the buffers from `next` on
    hold those that are not returned, and exactly these descriptors and the ones before them are
    done. -/
structure RxInv (es : List RxEvent) (n : Nic) (q : List Packet) : Prop where
  rdlen : n.rdlen = BitVec.ofNat 13 rxdescs
  rdh : n.rdh.toNat = (arrived es).length
  next : n.drv.next = (returned es).length
  line : Ring.Line rxdescs (·.length ≤ rxPktSize) n.rxPacket (arrived es) (returned es) q
  done : ∀ i < (arrived es).length, (n.drv.rxDescArray i).status &&& e1000RxdStatDD ≠ 0 ∧
    (n.drv.rxDescArray i).errors = 0
  fresh : ∀ i, (arrived es).length ≤ i → (n.drv.rxDescArray i).status = 0
  inside : ∀ i, .outside i ∉ es

namespace RxInv

theorem length_le (h : RxInv es n q) {i : ℕ} (hi : i < q.length) :
    (n.drv.rxDescArray ((returned es).length + i)).length.toNat ≤ rxPktSize := by
  rw [← n.rxPacket_length, h.line.cell i hi]
  exact h.line.all _ (List.getElem_mem hi)

/-- The packets of the queue are the same in a memory with the same receive buffers. -/
theorem packet_same (h : RxInv es n q) (hmem : n.SameRx s)
    (hdesc : drv.rxDescArray = n.drv.rxDescArray)
    (hbuf : drv.rxBufferArray = n.drv.rxBufferArray) {i : ℕ} (hi : i < q.length) :
    Nic.rxPacket { n with pmap := s, drv := drv } ((returned es).length + i) =
      n.rxPacket ((returned es).length + i) := by
  refine Nic.rxPacket_congr hbuf (by rw [hdesc]) fun j hj => ?_
  have hshort := h.length_le hi
  have hnum := h.line.length_eq
  have hfew := h.line.few
  have hrow := row_le rxPktSize (show (returned es).length + i < rxdescs by omega)
  rw [Nat.add_assoc]
  exact hmem _ (by omega)

/-- A step that leaves the descriptors and the receive buffers as they are. -/
theorem same (h : RxInv es n q) (he : arrived [e] = [] ∧ returned [e] = [])
    (hin : ∀ i, e ≠ .outside i) (hmem : n.SameRx s) : RxInv (es ++ [e]) { n with pmap := s } q := by
  have harr : arrived (es ++ [e]) = arrived es := by rw [arrived_append, he.1, List.append_nil]
  have hret : returned (es ++ [e]) = returned es := by rw [returned_append, he.2, List.append_nil]
  refine ⟨h.rdlen, ?_, ?_, ?_, ?_, ?_, notMem_snoc h.inside hin⟩
  · rw [harr]
    exact h.rdh
  · rw [hret]
    exact h.next
  · rw [harr, hret]
    exact h.line.congr fun i hi => h.packet_same hmem rfl rfl hi
  · rw [harr]
    exact h.done
  · rw [harr]
    exact h.fresh

theorem arrive (h : RxInv es n q) (hfew : (arrived (es ++ [.arrived p])).length < rxdescs)
    (hlen : p.length ≤ rxPktSize) :
    RxInv (es ++ [.arrived p]) (n.rxFill p) (q ++ [p]) := by
  have harr : arrived (es ++ [.arrived p]) = arrived es ++ [p] := arrived_append
  have hret : returned (es ++ [.arrived p]) = returned es :=
    returned_append.trans (List.append_nil _)
  have hrdh := h.rdh
  have hnum := h.line.length_eq
  have hrx : rxdescs = 128 := rfl
  have hring : ringLen n.rdlen = 1024 := by
    rw [h.rdlen]
    decide
  have hlen16 : (BitVec.ofNat 16 p.length).toNat = p.length := by
    rw [BitVec.toNat_ofNat, Nat.mod_eq_of_lt]
    exact hlen.trans_lt (by decide)
  rw [harr] at hfew
  have hfew' := hfew
  rw [List.length_append, List.length_singleton] at hfew'
  refine ⟨h.rdlen, ?_, ?_, ?_, ?_, ?_, notMem_snoc h.inside nofun⟩
  · rw [harr, List.length_append, List.length_singleton, Nic.rxFill]
    rw [hring, hrdh, BitVec.toNat_ofNat]
    omega
  · rw [hret]
    exact h.next
  · rw [harr, hret]
    refine h.line.push hfew hlen (fun i hi => ?_) ?_
    · have hne : (returned es).length + i ≠ n.rdh.toNat := by omega
      refine Nic.rxPacket_congr rfl ?_ fun j hj => ?_
      · rw [Nic.rxFill]
        dsimp only
        rw [update_of_ne hne]
      · refine Pmap.loadPhys_storePhysBytes_out (.inl ?_)
        have hshort := h.length_le hi
        have hrow := row_le rxPktSize (show (returned es).length + i < n.rdh.toNat by omega)
        omega
    · rw [← hrdh, Nic.rxPacket, Nic.rxFill]
      dsimp only
      rw [update_self, hlen16]
      exact Pmap.loadPhysBytes_storePhysBytes_self
  · intro i hi
    rw [harr, List.length_append, List.length_singleton] at hi
    rw [Nic.rxFill]
    dsimp only
    by_cases hi' : i = n.rdh.toNat
    · rw [hi', update_self]
      exact ⟨show (e1000RxdStatDD ||| e1000RxdStatEop) &&& e1000RxdStatDD ≠ 0 by decide, rfl⟩
    · rw [update_of_ne hi']
      exact h.done i (by omega)
  · intro i hi
    rw [harr, List.length_append, List.length_singleton] at hi
    rw [Nic.rxFill]
    dsimp only
    rw [update_of_ne (by omega)]
    exact h.fresh i (by omega)

/-- The driver finds its next descriptor done exactly when a packet waits. -/
theorem done_iff (h : RxInv es n q) :
    ((n.drv.rxDescArray n.drv.next).status &&& e1000RxdStatDD ≠ 0 ∧
      (n.drv.rxDescArray n.drv.next).errors = 0) ↔ q ≠ [] := by
  have hnum := h.line.length_eq
  rw [h.next]
  constructor
  · rintro ⟨hdd, -⟩ rfl
    rw [h.fresh _ (by simp_all)] at hdd
    exact hdd (by decide)
  · intro hq
    have := List.length_pos_iff.mpr hq
    exact h.done _ (by omega)

theorem receive (h : RxInv es n q) {frame : Word → ℕ} {ws : List Byte}
    (hcaller : n.Caller cr3 addr len frame)
    (hcall : (e1000Receive n.pmap n.drv cr3 addr len).2 = some (s, drv, 0))
    (hlen : (s.loadBytes cr3 4 len).2 = some ws)
    (hp : (s.loadBytes cr3 (word ws 0).toNat addr).2 = some p) :
    ∃ q', RxInv (es ++ [.returned p]) { n with pmap := s, drv := drv } q' := by
  obtain ⟨hr, _⟩ | ⟨-, hdd, herr, -⟩ := e1000Receive_cases hcall
  · exact absurd rfl hr
  · have hwaits := h.done_iff.mp ⟨hdd, herr⟩
    have hnum := h.line.length_eq
    have hfew := h.line.few
    obtain ⟨p', q, rfl⟩ := List.exists_cons_of_ne_nil hwaits
    obtain ⟨hfirst, -⟩ := h.line.pop
    rw [List.length_cons] at hnum
    have hshort := h.length_le (i := 0) (by simp)
    rw [Nat.add_zero, ← h.next] at hshort
    obtain ⟨s', hcall', hsame, hlen', hp'⟩ :=
      hcaller.receive hdd herr (by rw [h.next]; omega) hshort
    obtain ⟨rfl, hdrv⟩ := Prod.mk.inj (Option.some.inj (hcall.symm.trans hcall'))
    obtain ⟨rfl, -⟩ := Prod.mk.inj hdrv
    obtain rfl := Option.some.inj (hlen.symm.trans hlen')
    have hpacket : p = p' := by
      rw [word_wordBytes, BitVec.toNat_setWidth,
        Nat.mod_eq_of_lt ((BitVec.isLt _).trans (by decide)), hp'] at hp
      rw [← Option.some.inj hp, h.next, hfirst]
    rw [hpacket]
    have harr : arrived (es ++ [.returned p']) = arrived es :=
      arrived_append.trans (List.append_nil _)
    have hret : returned (es ++ [.returned p']) = returned es ++ [p'] := returned_append
    refine ⟨q, h.rdlen, ?_, ?_, ?_, ?_, ?_, notMem_snoc h.inside nofun⟩
    · rw [harr]
      exact h.rdh
    · rw [hret, List.length_append, List.length_singleton]
      dsimp only
      rw [h.next, Nat.mod_eq_of_lt (by omega)]
    · rw [harr, hret]
      exact (h.line.congr fun i hi => h.packet_same hsame rfl rfl hi).pop.2
    · rw [harr]
      exact h.done
    · rw [harr]
      exact h.fresh

theorem step (h : RxInv es n q) (hs : RxStep n e n')
    (hfew : (arrived (es ++ [e])).length < rxdescs) : ∃ q', RxInv (es ++ [e]) n' q' := by
  cases hs with
  | arrive hlen _ _ => exact ⟨_, h.arrive hfew hlen⟩
  | drop _ => exact ⟨q, h.same ⟨rfl, rfl⟩ nofun fun j _ => rfl⟩
  | stray _ hout =>
    -- the head is a number of packets, and the array has room for all of them
    have := h.rdh
    have := h.line.few
    omega
  | receive hcaller hcall hlen hp => exact h.receive hcaller hcall hlen hp
  | retry hcall hr =>
    obtain ⟨-, rfl, rfl, _⟩ | ⟨hzero, _⟩ := e1000Receive_cases hcall
    · exact ⟨q, h.same ⟨rfl, rfl⟩ nofun fun j _ => rfl⟩
    · exact absurd hzero hr
  | other hmem => exact ⟨q, h.same ⟨rfl, rfl⟩ nofun hmem⟩

theorem init (hnext : n.drv.next = 0) (hzero : ∀ i, (n.drv.rxDescArray i).status = 0) :
    RxInv [] (e1000ReceiveInit n) [] :=
  ⟨rfl, rfl, hnext, .nil (by decide), by simp [arrived], fun i _ => hzero i, by simp⟩

end RxInv

end Receive

/-- **Receive ring.** In every run from `e1000_receive_init`, with the static data zero, in which
    fewer than `RXDESCS` packets arrive, the packets returned are a prefix of those that arrived,
    the card stays inside `rx_desc_array`, the descriptors from `next` up to `RDH` hold the
    packets that arrived and are not returned, and a call fails only when there are none. -/
theorem receive_ring {n n' : Nic} {es : List RxEvent} (hnext : n.drv.next = 0)
    (hzero : ∀ i, (n.drv.rxDescArray i).status = 0) (h : Run RxStep (e1000ReceiveInit n) es n')
    (hfew : (arrived es).length < rxdescs) :
    returned es <+: arrived es ∧ (∀ i, .outside i ∉ es) ∧
      (List.range (n'.rdh.toNat - n'.drv.next)).map (fun j => n'.rxPacket (n'.drv.next + j)) =
        (arrived es).drop (returned es).length ∧
      ∀ cr3 addr len s drv r, (e1000Receive n'.pmap n'.drv cr3 addr len).2 = some (s, drv, r) →
        r ≠ 0 → returned es = arrived es := by
  have hinv : ∃ q, RxInv es n' q := by
    induction h with
    | nil => exact ⟨[], .init hnext hzero⟩
    | snoc _ hs ih =>
      obtain ⟨q, hq⟩ := ih (by
        rw [arrived_append, List.length_append] at hfew
        omega)
      exact hq.step hs hfew
  obtain ⟨q, hq⟩ := hinv
  refine ⟨⟨q, hq.line.order.symm⟩, hq.inside, ?_, ?_⟩
  · rw [hq.rdh, hq.next, hq.line.length_eq, Nat.add_sub_cancel_left, hq.line.order, List.drop_left]
    refine List.ext_getElem (by simp) fun i hi hi' => ?_
    rw [List.getElem_map, List.getElem_range, hq.line.cell i hi']
  · intro cr3 addr len s drv r hcall hr
    obtain ⟨-, -, -, hnot⟩ | ⟨hz, _⟩ := e1000Receive_cases hcall
    · have hq0 : q = [] := by
        by_contra hne
        obtain ⟨hdd, herr⟩ := hq.done_iff.mpr hne
        rcases hnot with hnot | hnot
        · exact hdd hnot
        · exact hnot herr
      rw [hq.line.order, hq0, List.append_nil]
    · exact absurd hz hr

/-- A packet that waits is returned to a caller whose pointers are in one page, apart from the
    receive buffers. -/
theorem receive_mapped {f : ℕ} (addr : Word) {len : Word} (hmaps : n.pmap.MapsPage cr3 len f)
    (hpage : addr.toNat / pgsize = len.toNat / pgsize) (hapart : len.toNat + 4 ≤ addr.toNat)
    (hdd : (n.drv.rxDescArray n.drv.next).status &&& e1000RxdStatDD ≠ 0)
    (herr : (n.drv.rxDescArray n.drv.next).errors = 0)
    (hbytes : addr.toNat % pgsize + (n.drv.rxDescArray n.drv.next).length.toNat ≤ pgsize)
    (hbuf : (f + 1) * pgsize ≤ n.drv.rxBufferArray) (hnext : n.drv.next < rxdescs)
    (hshort : (n.drv.rxDescArray n.drv.next).length.toNat ≤ rxPktSize) :
    ∃ s, RxStep n (.returned (n.rxPacket n.drv.next))
      { n with pmap := s
               drv := { n.drv with rdt := BitVec.ofNat 16 ((n.drv.rdt.toNat + 1) % rxdescs)
                                   next := (n.drv.next + 1) % rxdescs } } := by
  have haddr := addr.isLt
  have hlens : ∀ i < 4, (len + BitVec.ofNat 32 i).toNat = len.toNat + i := fun i hi => by
    rw [BitVec.toNat_add, BitVec.toNat_ofNat]
    omega
  have haddrs : ∀ i < (n.drv.rxDescArray n.drv.next).length.toNat,
      (addr + BitVec.ofNat 32 i).toNat = addr.toNat + i := fun i hi => by
    rw [BitVec.toNat_add, BitVec.toNat_ofNat]
    rw [pgsize] at hbytes
    omega
  have hin : ∀ va, n.CallerByte addr len va → va.toNat / pgsize = len.toNat / pgsize := by
    rw [pgsize] at *
    rintro va (⟨i, hi, rfl⟩ | ⟨i, hi, rfl⟩)
    · rw [hlens i hi]
      omega
    · rw [haddrs i hi]
      omega
  have hcaller : n.Caller cr3 addr len fun _ => f := by
    refine ⟨⟨fun va hva => hmaps.same_page (hin va hva), fun va va' _ hva' => ?_,
      fun va va' hva hva' _ => (hin va hva).trans (hin va' hva').symm⟩, fun va _ j _ hf =>
      ?_, fun i hi j hj heq => ?_⟩
    · obtain ⟨_, _, rfl, _, _, _, _, _, htable⟩ := hmaps.same_page (hin va' hva')
      exact htable
    · rw [pgsize] at *
      omega
    · have := congrArg BitVec.toNat heq
      rw [hlens i hi, haddrs j hj] at this
      omega
  obtain ⟨s, hcall, -, hlen, hp⟩ := hcaller.receive hdd herr hnext hshort
  refine ⟨s, .receive hcaller hcall hlen ?_⟩
  rw [word_wordBytes, BitVec.toNat_setWidth, Nat.mod_eq_of_lt ((BitVec.isLt _).trans (by decide))]
  exact hp

/-- `k` arrivals of the packet `p`. -/
def Nic.arrivals (n : Nic) (p : Packet) : ℕ → Option Nic
  | 0 => some n
  | k + 1 => (n.arrivals p k).bind fun n =>
      if n.rdh ≠ n.drv.rdt ∧ n.rdh.toNat < rxdescs then some (n.rxFill p) else none

theorem Nic.arrivals_run {p : Packet} (hlen : p.length ≤ rxPktSize)
    (h : n.arrivals p k = some n') : Run RxStep n (List.replicate k (.arrived p)) n' := by
  induction k generalizing n' with
  | zero =>
    cases h
    exact .nil n
  | succ k ih =>
    obtain ⟨n1, h1, h⟩ := Option.bind_eq_some_iff.mp h
    split at h
    · next hready =>
      cases h
      rw [List.replicate_succ']
      exact .snoc (ih h1) (.arrive hlen hready.1 hready.2)
    · cases h

/-- The page of the caller stays mapped when packets arrive elsewhere. -/
theorem Nic.reset_maps (h1 : n.pmap.mem 1 0 = 0x2007#32) (h2 : n.pmap.mem 2 0 = 0x3007#32) :
    n.pmap.MapsPage 1 0#32 3 :=
  ⟨_, _, h1, h2, by decide⟩

/-- Two packets, of which the first is returned. -/
theorem receive_ring_two : ∃ es n, Run RxStep (e1000ReceiveInit .reset) es n ∧
    arrived es = [[7], [7]] ∧ returned es = [[7]] ∧ returned es <+: arrived es := by
  obtain ⟨n, harrivals, h1, h2, hnext, hdesc, hbuf, hpacket⟩ :
      ∃ n ∈ (e1000ReceiveInit .reset).arrivals [7] 2, n.pmap.mem 1 0 = 0x2007#32 ∧
        n.pmap.mem 2 0 = 0x3007#32 ∧ n.drv.next = 0 ∧ n.drv.rxDescArray 0 = ⟨1, 3, 0⟩ ∧
        n.drv.rxBufferArray = 0x20000 ∧ n.rxPacket 0 = [7] := by
    decide
  obtain ⟨s, hstep⟩ := receive_mapped 8#32 (Nic.reset_maps h1 h2) (by decide) (by decide)
    (by rw [hnext, hdesc]; decide) (by rw [hnext, hdesc]) (by rw [hnext, hdesc]; decide)
      (by rw [hbuf]; decide)
    (by rw [hnext]; decide) (by rw [hnext, hdesc]; decide)
  rw [hnext, hpacket] at hstep
  have hrun := (Nic.arrivals_run (by decide) harrivals).snoc hstep
  obtain ⟨horder, -⟩ := receive_ring rfl (fun _ => rfl) hrun (by decide)
  exact ⟨_, _, hrun, rfl, rfl, horder⟩

/-- 127 packets, one call, and two more packets: the last one goes to a descriptor that is not
    in the array. -/
theorem receive_ring_overruns : ∃ es n, Run RxStep (e1000ReceiveInit .reset) es n ∧
    .outside 128 ∈ es := by
  obtain ⟨n, harrivals, h1, h2, hnext, hdesc, hbuf, hrdh, hrdt, hrdlen⟩ :
      ∃ n ∈ (e1000ReceiveInit .reset).arrivals [7] 127, n.pmap.mem 1 0 = 0x2007#32 ∧
        n.pmap.mem 2 0 = 0x3007#32 ∧ n.drv.next = 0 ∧ n.drv.rxDescArray 0 = ⟨1, 3, 0⟩ ∧
        n.drv.rxBufferArray = 0x20000 ∧ n.rdh = 127#16 ∧ n.drv.rdt = 127#16 ∧ n.rdlen = 128#13 := by
    decide +kernel
  obtain ⟨s, hstep⟩ := receive_mapped 8#32 (Nic.reset_maps h1 h2) (by decide) (by decide)
    (by rw [hnext, hdesc]; decide) (by rw [hnext, hdesc]) (by rw [hnext, hdesc]; decide)
      (by rw [hbuf]; decide)
    (by rw [hnext]; decide) (by rw [hnext, hdesc]; decide)
  rw [hrdt] at hstep
  have hrun := (Nic.arrivals_run (by decide) harrivals).snoc hstep
  have harrive := hrun.snoc (RxStep.arrive (p := [7]) (by decide)
    (by dsimp only; rw [hrdh]; decide) (by dsimp only; rw [hrdh]; decide))
  have hrdh' : BitVec.ofNat 16 ((n.rdh.toNat + 1) % ringLen n.rdlen) = 128#16 := by
    rw [hrdh, hrdlen]
    decide
  have hstray := harrive.snoc (RxStep.stray (by rw [Nic.rxFill]; dsimp only; rw [hrdh']; decide)
    (by rw [Nic.rxFill]; dsimp only; rw [hrdh']; decide))
  refine ⟨_, _, hstray, List.mem_append_right _ (List.mem_singleton.mpr ?_)⟩
  rw [Nic.rxFill]
  dsimp only
  rw [hrdh']
  rfl

end LinuxStudy.Jos
