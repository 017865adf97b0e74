import LinuxStudy.Net.Serv
import LinuxStudy.Jos.E1000

/-!
# Packets from the input environment

The loop of `net/input.c` beside the server. The packet goes to the server as a mapping of the
input environment's page `nsipcbuf`, which is the same page every time: `jif_input` reads it while
the input environment may already be copying the next packet into it. The copy and the reading are
cut into single bytes, and the sleep may be of any length compared with what the server does.
-/

namespace LinuxStudy.Net

open Jos
open Function (update update_self update_of_ne)

/-- Where the input environment is. -/
inductive InputPc
  | recv
  /-- `memcpy` of the packet, with `i` bytes copied. -/
  | copy (pkt : List Byte) (i : ℕ)
  | send
  | sleep
  deriving DecidableEq

/-- The `struct jif_pkt` in the page. -/
structure JifPkt where
  jpLen : ℕ
  jpData : ℕ → Byte

/-- `low_level_input`, with the length it loaded and the bytes it has copied. The length is loaded
    as a 16-bit number, which is enough for a packet. -/
structure JifRead where
  args : StArgs
  len : ℕ
  bytes : List Byte

/-- What `jif_input` saw for a message. -/
structure Seen where
  k : ℕ
  len : ℕ
  bytes : List Byte
  deriving DecidableEq

structure NetSys where
  serv : Server
  inputEnvid : Word
  input : InputPc
  page : JifPkt
  /-- The thread that is reading a packet; no other thread runs meanwhile. -/
  jif : Option JifRead
  /-- The number of the message whose request has the buffer, and whether `jif_input` is still to
      come for it. -/
  nth : Buffer → ℕ
  unread : Buffer → Bool
  /-- The packets that `sys_pkt_recv` returned, and how many messages were sent. -/
  pkts : List (List Byte)
  sent : ℕ
  seen : List Seen

namespace NetSys

/-- The request is a packet from the input environment. -/
def IsInput (s : NetSys) (a : StArgs) : Prop := a.reqno = nsreqInput ∧ a.whom = s.inputEnvid

/-- `jif_input` has not finished with this request. -/
def Pending (s : NetSys) (a : StArgs) : Prop :=
  a ∈ s.serv.threads ∧ s.IsInput a ∧ s.unread a.req = true

/-- The message that the input environment sends. -/
def message (s : NetSys) : Message := ⟨nsreqInput, s.inputEnvid, pteP ||| pteU ||| pteW⟩

end NetSys

inductive NetLabel
  | input
  /-- The input environment writes to the page. -/
  | write
  | serve (l : ServeLabel)
  | jif

inductive NetStep : NetSys → NetLabel → NetSys → Prop
  | pktRecv {s : NetSys} {pkt : List Byte} (hpc : s.input = .recv)
      (hlen : pkt.length ≤ rxPktSize) :
      NetStep s .input { s with input := .copy pkt 0, pkts := s.pkts ++ [pkt] }
  | copyByte {s : NetSys} {pkt : List Byte} {i : ℕ} {b : Byte} (hpc : s.input = .copy pkt i)
      (hb : pkt[i]? = some b) :
      NetStep s .write
        { s with page := { s.page with jpData := update s.page.jpData i b }
                 input := .copy pkt (i + 1) }
  | setLen {s : NetSys} {pkt : List Byte} {i : ℕ} (hpc : s.input = .copy pkt i)
      (hi : i = pkt.length) :
      NetStep s .write { s with page := { s.page with jpLen := pkt.length }, input := .send }
  /-- `sys_ipc_try_send` succeeds: the server was in `ipc_recv` with buffer `va`. -/
  | send {s : NetSys} {v : Server} {c : Bool} {va : Buffer} (hpc : s.input = .send)
      (hjif : s.jif = none) (hva : s.serv.pc = .recv va)
      (hs : ServeStep s.serv (.message s.message c) v) :
      NetStep s (.serve (.message s.message c))
        { s with serv := v, input := .sleep, sent := s.sent + 1,
                 nth := update s.nth va s.sent
                 unread := update s.unread va true }
  | wake {s : NetSys} (hpc : s.input = .sleep) : NetStep s .input { s with input := .recv }
  /-- A step of the server that is not about a packet. -/
  | serve {s : NetSys} {l : ServeLabel} {v : Server} (hjif : s.jif = none)
      (hs : ServeStep s.serv l v)
      (hmsg : ∀ m c, l = .message m c → m.whom ≠ s.inputEnvid)
      (hthread : ∀ a, l = .thread a → s.IsInput a → s.unread a.req = false) :
      NetStep s (.serve l) { s with serv := v }
  | jifStart {s : NetSys} {a : StArgs} (hjif : s.jif = none) (hpc : s.serv.pc.yields = true)
      (ha : s.Pending a) : NetStep s .jif { s with jif := some ⟨a, s.page.jpLen, []⟩ }
  | jifByte {s : NetSys} {r : JifRead} (hjif : s.jif = some r) (hlt : r.bytes.length < r.len) :
      NetStep s .jif
        { s with jif := some { r with bytes := r.bytes ++ [s.page.jpData r.bytes.length] } }
  | jifEnd {s : NetSys} {r : JifRead} (hjif : s.jif = some r) (hlen : r.bytes.length = r.len) :
      NetStep s .jif
        { s with jif := none, unread := update s.unread r.args.req false
                 seen := s.seen ++ [⟨s.nth r.args.req, r.len, r.bytes⟩] }
  /-- `pbuf_alloc` failed. -/
  | jifDrop {s : NetSys} {r : JifRead} (hjif : s.jif = some r) :
      NetStep s .jif { s with jif := none, unread := update s.unread r.args.req false }

def NetSys.init (timerEnvid inputEnvid : Word) : NetSys where
  serv := .init timerEnvid
  inputEnvid := inputEnvid
  input := .recv
  page := ⟨0, fun _ => 0⟩
  jif := none
  nth _ := 0
  unread _ := false
  pkts := []
  sent := 0
  seen := []

/-- The input environment writes to its page only when `jif_input` has finished with every packet
    it sent before. -/
def InTimeStep (s : NetSys) (l : NetLabel) (s' : NetSys) : Prop :=
  NetStep s l s' ∧ (l = .write → ∀ a, ¬ s.Pending a)

/-! ### What is in the page -/

/-- The first `n` bytes of the packet are in the page. -/
def JifPkt.Has (p : JifPkt) (pkt : List Byte) (n : ℕ) : Prop :=
  ∀ j < n, pkt[j]? = some (p.jpData j)

/-- The whole packet is in the page. -/
def JifPkt.Is (p : JifPkt) (pkt : List Byte) : Prop := p.jpLen = pkt.length ∧ p.Has pkt pkt.length

/-- How far the input environment is with its packet. -/
def NetSys.InputOk (s : NetSys) : InputPc → Prop
  | .recv | .sleep => s.pkts.length = s.sent
  | .copy pkt i => s.pkts.length = s.sent + 1 ∧ s.pkts[s.sent]? = some pkt ∧ i ≤ pkt.length ∧
      s.page.Has pkt i
  | .send => s.pkts.length = s.sent + 1 ∧ ∃ pkt, s.pkts[s.sent]? = some pkt ∧ s.page.Is pkt

structure NetInv (s : NetSys) : Prop where
  serv : ∃ lost, s.serv.Inv lost
  input : s.InputOk s.input
  /-- What is still to be read is in the page. -/
  pending : ∀ a, s.Pending a → ∃ pkt, s.pkts[s.nth a.req]? = some pkt ∧ s.page.Is pkt
  reading : ∀ r, s.jif = some r → s.Pending r.args ∧ r.len = s.page.jpLen ∧
    r.bytes.length ≤ r.len ∧ ∀ j < r.bytes.length, r.bytes[j]? = some (s.page.jpData j)
  seen : ∀ e ∈ s.seen, s.pkts[e.k]? = some e.bytes ∧ e.len = e.bytes.length

theorem ServeStep.threads_mem {s s' : Server} {l : ServeLabel} (h : ServeStep s l s') {a : StArgs}
    (ha : a ∈ s'.threads) :
    a ∈ s.threads ∨ ∃ m c va, l = .message m c ∧ s.pc = .recv va ∧ a = ⟨m.reqno, m.whom, va⟩ := by
  cases h with
  | @request va m hpc =>
    rcases List.mem_append.mp ha with ha | ha
    · exact .inl ha
    · exact .inr ⟨m, true, va, rfl, hpc, List.mem_singleton.mp ha⟩
  | finish => exact .inl (List.mem_of_mem_erase ha)
  | _ => exact .inl ha

theorem Server.Inv.recv_free {s : Server} {lost : List Buffer} (h : s.Inv lost) {va : Buffer}
    (hpc : s.pc = .recv va) {a : StArgs} (ha : a ∈ s.threads) : a.req ≠ va := by
  have hnodup := (h.holds (by rw [hpc]; nofun)).nodup
  rw [Server.taken, hpc] at hnodup
  rintro rfl
  exact (List.nodup_cons.mp hnodup).1 (List.mem_append_left _ (List.mem_map_of_mem ha))

theorem JifPkt.Has.update {p : JifPkt} {pkt : List Byte} {i : ℕ} {b : Byte} (h : p.Has pkt i)
    (hb : pkt[i]? = some b) :
    JifPkt.Has { p with jpData := update p.jpData i b } pkt (i + 1) := by
  intro j hj
  dsimp only
  rcases eq_or_ne j i with rfl | hne
  · rw [update_self, hb]
  · rw [update_of_ne hne]
    exact h j (by omega)

namespace NetInv

variable {s s' : NetSys} {l : NetLabel}

theorem init (t i : Word) : NetInv (.init t i) where
  serv := ⟨[], .init t⟩
  input := rfl
  pending a ha := by simp [NetSys.Pending, NetSys.init, Server.init] at ha
  reading r hr := by cases hr
  seen e he := by cases he

section

variable (h : NetInv s)
include h

theorem setServ (hjif : s.jif = none) {v : Server} (hv : ∃ lost, v.Inv lost)
    (hsub : ∀ a ∈ v.threads, s.IsInput a → a ∈ s.serv.threads) : NetInv { s with serv := v } where
  serv := hv
  input := h.input
  pending a ha := h.pending a ⟨hsub a ha.1 ha.2.1, ha.2⟩
  reading r hr := by
    rw [hjif] at hr
    cases hr
  seen := h.seen

theorem send (hpc : s.input = .send) (hjif : s.jif = none) {v : Server} {c : Bool}
    {va : Buffer} (hva : s.serv.pc = .recv va) (hs : ServeStep s.serv (.message s.message c) v) :
    NetInv { s with serv := v, input := .sleep, sent := s.sent + 1,
                    nth := update s.nth va s.sent
                    unread := update s.unread va true } := by
  obtain ⟨lost, hserv⟩ := h.serv
  obtain ⟨lost', hv, -⟩ := hserv.step hs
  have hin := h.input
  rw [hpc] at hin
  obtain ⟨hlen, pkt, hpkt, his⟩ := hin
  refine ⟨⟨lost', hv⟩, hlen, ?_, ?_, h.seen⟩
  · rintro a ⟨ha, hisInput, hunread⟩
    dsimp only at hunread ⊢
    rcases hs.threads_mem ha with hold | ⟨m, c', va', hm, hva', rfl⟩
    · have hne := hserv.recv_free hva hold
      rw [update_of_ne hne] at hunread
      rw [update_of_ne hne]
      exact h.pending a ⟨hold, hisInput, hunread⟩
    · obtain rfl : va = va' := by
        rw [hva] at hva'
        exact ServePc.recv.inj hva'
      rw [update_self]
      exact ⟨pkt, hpkt, his⟩
  · intro r hr
    rw [show s.jif = some r from hr] at hjif
    cases hjif

theorem jifByte {r : JifRead} (hjif : s.jif = some r)
    (hlt : r.bytes.length < r.len) :
    NetInv { s with
      jif := some { r with bytes := r.bytes ++ [s.page.jpData r.bytes.length] } } := by
  refine ⟨h.serv, h.input, h.pending, ?_, h.seen⟩
  intro r' hr'
  obtain ⟨hpending, hlen, hle, hbytes⟩ := h.reading r hjif
  cases hr'
  refine ⟨hpending, hlen, ?_, fun j hj => ?_⟩
  · rw [List.length_append, List.length_singleton]
    exact hlt
  · rw [List.length_append, List.length_singleton] at hj
    rcases eq_or_ne j r.bytes.length with rfl | hne
    · simp
    · rw [List.getElem?_append_left (by omega)]
      exact hbytes j (by omega)

theorem doneRead {b : Buffer} {seen : List Seen}
    (hseen : ∀ e ∈ seen, s.pkts[e.k]? = some e.bytes ∧ e.len = e.bytes.length) :
    NetInv { s with jif := none, unread := update s.unread b false, seen := seen } := by
  refine ⟨h.serv, h.input, ?_, by nofun, hseen⟩
  rintro a ⟨ha, hisInput, hunread⟩
  dsimp only at hunread
  have hne : a.req ≠ b := by
    rintro rfl
    rw [update_self] at hunread
    cases hunread
  rw [update_of_ne hne] at hunread
  exact h.pending a ⟨ha, hisInput, hunread⟩

theorem read_eq {r : JifRead} (hjif : s.jif = some r)
    (hlen : r.bytes.length = r.len) : s.pkts[s.nth r.args.req]? = some r.bytes := by
  obtain ⟨hpending, hplen, -, hbytes⟩ := h.reading r hjif
  obtain ⟨pkt, hpkt, hpagelen, hhas⟩ := h.pending r.args hpending
  have heq : r.bytes = pkt := by
    refine List.ext_getElem? fun j => ?_
    by_cases hj : j < r.bytes.length
    · rw [hbytes j hj, hhas j (by omega)]
    · rw [List.getElem?_eq_none (by omega), List.getElem?_eq_none (by omega)]
  rw [hpkt, heq]

theorem step (hs : InTimeStep s l s') : NetInv s' := by
  obtain ⟨hs, hquiet⟩ := hs
  cases hs with
  | @pktRecv pkt hpc hlen =>
    have hin := h.input
    rw [hpc] at hin
    have hmono : ∀ {k : ℕ} {x : List Byte}, s.pkts[k]? = some x →
        (s.pkts ++ [pkt])[k]? = some x := by
      intro k x hk
      rw [List.getElem?_append_left (List.getElem?_eq_some_iff.mp hk).1, hk]
    refine ⟨h.serv, ⟨?_, ?_, Nat.zero_le _, by nofun⟩, ?_, h.reading, ?_⟩
    · rw [List.length_append, hin]
      rfl
    · have hsent : s.sent = s.pkts.length := hin.symm
      rw [hsent]
      simp
    · intro a ha
      obtain ⟨pkt', hpkt', his⟩ := h.pending a ha
      exact ⟨pkt', hmono hpkt', his⟩
    · intro e he
      obtain ⟨hk, hl⟩ := h.seen e he
      exact ⟨hmono hk, hl⟩
  | @copyByte pkt i b hpc hb =>
    have hin := h.input
    rw [hpc] at hin
    obtain ⟨hlen, hpkt, hle, hhas⟩ := hin
    have hnone := hquiet rfl
    have hlt : i < pkt.length := (List.getElem?_eq_some_iff.mp hb).1
    refine ⟨h.serv, ⟨hlen, hpkt, hlt, hhas.update hb⟩, fun a ha => absurd ha (hnone a), ?_, h.seen⟩
    intro r hr
    exact absurd (h.reading r hr).1 (hnone _)
  | @setLen pkt i hpc hi =>
    have hin := h.input
    rw [hpc] at hin
    obtain ⟨hlen, hpkt, -, hhas⟩ := hin
    have hnone := hquiet rfl
    refine ⟨h.serv, ⟨hlen, pkt, hpkt, rfl, hi ▸ hhas⟩, fun a ha => absurd ha (hnone a), ?_, h.seen⟩
    intro r hr
    exact absurd (h.reading r hr).1 (hnone _)
  | send hpc hjif hva hs => exact h.send hpc hjif hva hs
  | wake hpc =>
    have hin := h.input
    rw [hpc] at hin
    exact ⟨h.serv, hin, h.pending, h.reading, h.seen⟩
  | @serve l v hjif hs hmsg hthread =>
    obtain ⟨lost, hserv⟩ := h.serv
    obtain ⟨lost', hv, -⟩ := hserv.step hs
    refine h.setServ hjif ⟨lost', hv⟩ fun a ha hisInput => ?_
    rcases hs.threads_mem ha with hold | ⟨m, c, va, hm, -, rfl⟩
    · exact hold
    · exact absurd hisInput.2 (hmsg m c hm)
  | @jifStart a hjif hpc ha =>
    refine ⟨h.serv, h.input, h.pending, ?_, h.seen⟩
    intro r hr
    cases hr
    exact ⟨ha, rfl, Nat.zero_le _, by nofun⟩
  | jifByte hjif hlt => exact h.jifByte hjif hlt
  | @jifEnd r hjif hlen =>
    refine h.doneRead fun e he => ?_
    rcases List.mem_append.mp he with he | he
    · exact h.seen e he
    · obtain rfl := List.mem_singleton.mp he
      exact ⟨h.read_eq hjif hlen, hlen.symm⟩
  | jifDrop => exact h.doneRead h.seen

end

end NetInv

/-- In every run in which the input environment writes to its page only when `jif_input` has
    finished with the packets sent before, what `jif_input` saw for the `k`-th message is the
    `k`-th packet of `sys_pkt_recv`. -/
theorem packets_intact {t i : Word} {ls : List NetLabel} {s : NetSys}
    (h : Run InTimeStep (.init t i) ls s) :
    ∀ e ∈ s.seen, s.pkts[e.k]? = some e.bytes ∧ e.len = e.bytes.length :=
  (h.invariant NetInv (.init t i) fun _ _ _ ha hs => ha.step hs).seen

/-- Two packets of one byte, the second one received when the server has read the first. -/
theorem packets_intact_two : ∃ (ls : List NetLabel) (s : NetSys),
    Run InTimeStep (.init 5 6) ls s ∧ s.seen = [⟨0, 1, [3]⟩, ⟨1, 1, [4]⟩] ∧
      s.pkts[0]? = some [3] ∧ s.pkts[1]? = some [4] := by
  have hnone : ∀ {s : NetSys}, s.serv.threads = [] → ∀ a, ¬ s.Pending a := by
    rintro s hs a ⟨ha, -⟩
    rw [hs] at ha
    cases ha
  have hread : ∀ {s : NetSys} {r : StArgs}, s.serv.threads = [r] → s.unread r.req = false →
      ∀ a, ¬ s.Pending a := by
    rintro s r hs hr a ⟨ha, -, hu⟩
    rw [hs] at ha
    rw [List.mem_singleton.mp ha, hr] at hu
    cases hu
  have h1 : Run InTimeStep (.init 5 6) _ _ :=
    .single ⟨.pktRecv rfl (show ([3] : List Byte).length ≤ rxPktSize by decide), by nofun⟩
  have h2 := h1.snoc ⟨.copyByte rfl rfl, fun _ => hnone rfl⟩
  have h3 := h2.snoc ⟨.setLen rfl rfl, fun _ => hnone rfl⟩
  have h4 := h3.snoc ⟨.serve rfl (.getBuffer rfl (show getBuffer _ = some 0 by decide)) (by nofun)
    (by nofun), by nofun⟩
  have h5 := h4.snoc ⟨.send rfl rfl rfl (.request rfl (by decide) (by decide)), by nofun⟩
  have h6 := h5.snoc ⟨.jifStart rfl rfl ⟨List.mem_singleton.mpr rfl, ⟨rfl, rfl⟩, rfl⟩, by nofun⟩
  have h7 := h6.snoc ⟨.jifByte rfl (by decide), by nofun⟩
  have h8 := h7.snoc ⟨.jifEnd rfl rfl, by nofun⟩
  have h9 := h8.snoc ⟨.wake rfl, by nofun⟩
  have h10 := h9.snoc ⟨.serve rfl (.resume rfl) (by nofun) (by nofun), by nofun⟩
  have h11 := h10.snoc ⟨.serve rfl (.getBuffer rfl (show getBuffer _ = some 1 by decide))
    (by nofun) (by nofun), by nofun⟩
  have h12 := h11.snoc ⟨.pktRecv rfl (show ([4] : List Byte).length ≤ rxPktSize by decide),
    by nofun⟩
  have h13 := h12.snoc ⟨.copyByte rfl rfl, fun _ => hread rfl rfl⟩
  have h14 := h13.snoc ⟨.setLen rfl rfl, fun _ => hread rfl rfl⟩
  have h15 := h14.snoc ⟨.send rfl rfl rfl (.request rfl (by decide) (by decide)), by nofun⟩
  have h16 := h15.snoc ⟨.jifStart rfl rfl ⟨List.mem_cons_of_mem _ (List.mem_singleton.mpr rfl),
    ⟨rfl, rfl⟩, rfl⟩, by nofun⟩
  have h17 := h16.snoc ⟨.jifByte rfl (by decide), by nofun⟩
  have h18 := h17.snoc ⟨.jifEnd rfl rfl, by nofun⟩
  have hseen := packets_intact h18
  exact ⟨_, _, h18, rfl, (hseen ⟨0, 1, [3]⟩ (List.mem_cons_self ..)).1,
    (hseen ⟨1, 1, [4]⟩ (List.mem_cons_of_mem _ (List.mem_singleton.mpr rfl))).1⟩

/-- The sleep ends before the server reads the first packet, and the second one is copied over
    it: for message 0 `jif_input` sees the byte of packet 1. -/
theorem packet_overwritten : ∃ (ls : List NetLabel) (s : NetSys),
    Run NetStep (.init 5 6) ls s ∧ s.pkts = [[3], [4]] ∧ s.seen = [⟨0, 1, [4]⟩] := by
  have h1 : Run NetStep (.init 5 6) _ _ :=
    .single (.pktRecv rfl (show ([3] : List Byte).length ≤ rxPktSize by decide))
  have h2 := h1.snoc (.copyByte rfl rfl)
  have h3 := h2.snoc (.setLen rfl rfl)
  have h4 := h3.snoc (.serve rfl (.getBuffer rfl (show getBuffer _ = some 0 by decide)) (by nofun)
    (by nofun))
  have h5 := h4.snoc (.send rfl rfl rfl (.request rfl (by decide) (by decide)))
  have h6 := h5.snoc (.wake rfl)
  have h7 := h6.snoc (.pktRecv rfl (show ([4] : List Byte).length ≤ rxPktSize by decide))
  have h8 := h7.snoc (.copyByte rfl rfl)
  have h9 := h8.snoc (.jifStart rfl rfl ⟨List.mem_singleton.mpr rfl, ⟨rfl, rfl⟩, rfl⟩)
  have h10 := h9.snoc (.jifByte rfl (by decide))
  have h11 := h10.snoc (.jifEnd rfl rfl)
  exact ⟨_, _, h11, rfl, rfl⟩

end LinuxStudy.Net
