import LinuxStudy.Jos.UserMem

/-!
# The network card driver of `kern/e1000.c`

The descriptor rings of the 82540EM and the two functions the packet system calls reach. The
packet buffers are arrays of the kernel image; the state keeps their physical addresses and
their bytes are in physical memory, so a copy that is too long runs on into whatever follows.
-/

namespace LinuxStudy.Jos

def txdescs : ℕ := 32
def txPktSize : ℕ := 1518
def rxdescs : ℕ := 128
def rxPktSize : ℕ := 1518

def e1000TxdStatDD : Byte := 0x01
def e1000TxdCmdEop : Byte := 0x01
def e1000TxdCmdRs : Byte := 0x08
def e1000RxdStatDD : Byte := 0x01

def eTransmitRetry : Int := 1
def eReceiveRetry : Int := 2

structure TxDesc where
  length : BitVec 16
  cmd : Byte
  status : Byte
  deriving DecidableEq, Repr

structure RxDesc where
  length : BitVec 16
  status : Byte
  errors : Byte
  deriving DecidableEq, Repr

structure E1000 where
  tdt : BitVec 16
  txDescArray : ℕ → TxDesc
  /-- Physical address of `tx_buffer_array`. -/
  txBufferArray : ℕ
  rdt : BitVec 16
  /-- The static variable of `e1000_receive`. -/
  next : ℕ
  rxDescArray : ℕ → RxDesc
  /-- Physical address of `rx_buffer_array`. -/
  rxBufferArray : ℕ

/-- Physical loads at consecutive addresses. -/
def Pmap.loadPhysBytes (s : Pmap) (pa n : ℕ) : List Byte :=
  (List.range n).map fun j => s.loadPhys (pa + j)

def e1000Transmit (s : Pmap) (nic : E1000) (cr3 : ℕ) (data len : Word) :
    Logged Access (Pmap × E1000 × Int) :=
  let current := nic.tdt.toNat
  let desc := nic.txDescArray current
  if desc.status &&& e1000TxdStatDD = 0 then .pure (s, nic, -eTransmitRetry)
  else
    let desc : TxDesc := { length := len.setWidth 16
                           status := desc.status &&& ~~~e1000TxdStatDD
                           cmd := desc.cmd ||| (e1000TxdCmdEop ||| e1000TxdCmdRs) }
    (s.loadBytes cr3 len.toNat data).bind fun bs =>
      .pure (s.storePhysBytes (nic.txBufferArray + current * txPktSize) bs,
        { nic with txDescArray := Function.update nic.txDescArray current desc
                   tdt := BitVec.ofNat 16 ((current + 1) % txdescs) }, 0)

def e1000Receive (s : Pmap) (nic : E1000) (cr3 : ℕ) (addr len : Word) :
    Logged Access (Pmap × E1000 × Int) :=
  let desc := nic.rxDescArray nic.next
  if desc.status &&& e1000RxdStatDD = 0 then .pure (s, nic, -eReceiveRetry)
  else if desc.errors ≠ 0 then .pure (s, nic, -eReceiveRetry)
  else
    (s.storeBytes cr3 len (wordBytes (desc.length.setWidth 32))).bind fun s =>
      -- `*len` is read again for the length of the copy, which is the value just stored
      (s.loadBytes cr3 4 len).bind fun _ =>
        (s.storeBytes cr3 addr (s.loadPhysBytes (nic.rxBufferArray + nic.next * rxPktSize)
          desc.length.toNat)).bind fun s =>
          .pure (s, { nic with rdt := BitVec.ofNat 16 ((nic.rdt.toNat + 1) % rxdescs)
                               next := (nic.next + 1) % rxdescs }, 0)

end LinuxStudy.Jos
