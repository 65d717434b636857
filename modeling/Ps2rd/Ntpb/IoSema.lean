import Ps2rd.Ntpb.Client

/-!
# The io semaphore and the errors of a reply

`ntpbserverSendData` and `ntpbserverEndReply` take `ntpbserver_io_sema`, send a packet
and wait for the client's answer.  They run here against any outcome of the network
calls.  The error returns skip the `SignalSema` at the end, so that after one of them
the semaphore is lost, and the next reply waits for it without end.

`none` stands for a call that does not return with the given outcomes.
-/

namespace Ps2rd.Ntpb.IoSema

open Region

/-- A semaphore of the IOP kernel. -/
structure Sema where
  count : ℕ
  max : ℕ
  count_le : count ≤ max

/-- `WaitSema`, which blocks when the count is 0. -/
def Sema.wait (s : Sema) : Option Sema :=
  if s.count = 0 then none else some ⟨s.count - 1, s.max, (Nat.sub_le _ _).trans s.count_le⟩

/-- `SignalSema`, which fails when the count is at its maximum. -/
def Sema.signal (s : Sema) : Sema := ⟨min s.max (s.count + 1), s.max, Nat.min_le_left _ _⟩

theorem Sema.signal_of_wait {s t : Sema} (h : s.wait = some t) : t.signal = s := by
  unfold wait at h
  split_ifs at h with hzero
  cases h
  have hle := s.count_le
  have hmin : min s.max (s.count - 1 + 1) = s.count := by omega
  cases s
  simp only [signal, Sema.mk.injEq, and_true]
  exact hmin

theorem Sema.of_wait {s t : Sema} (h : s.wait = some t) :
    s.count ≠ 0 ∧ t.count = s.count - 1 ∧ t.max = s.max := by
  unfold wait at h
  split_ifs at h with hzero
  cases h
  exact ⟨hzero, rfl, rfl⟩

theorem Sema.count_ne_of_wait {s t : Sema} (h : s.wait = some t) : t.count ≠ s.count := by
  obtain ⟨hzero, hcount, -⟩ := of_wait h
  omega

/-- What `recv_noblock` meets: an error of `lwip_select`, an error of `lwip_recv`, or the
bytes that `lwip_recv` brings, which are none when the client has closed the connection. -/
inductive Reception where
  | selectError
  | recvError
  | data (bytes : List Byte)
deriving DecidableEq, Repr

/-- `recv_noblock`: its result, and the bytes it has put into the buffer.  No call brings
more than it asks for. -/
def recvNoblock (bsize : ℕ) : Reception → Option (ℤ × List Byte)
  | .selectError => some (-1, [])
  | .recvError => some (-2, [])
  | .data bytes => if bytes.length ≤ bsize then some (bytes.length, bytes) else none

/-- The results of the calls of `lwip_send` and of `recv_noblock`, in order. -/
structure Outcomes where
  sends : List ℤ
  receptions : List Reception

/-- The loop that sends a packet, with `sent_size` bytes of it sent: whether it came to its
end, and the outcomes that are left. -/
def sendPacket (packetSize : ℤ) : ℤ → List ℤ → Option (Bool × List ℤ)
  | sentSize, [] => if sentSize < packetSize then none else some (true, [])
  | sentSize, sndSize :: sends =>
      if sentSize < packetSize then
        if sndSize < 0 then some (false, sends)
        else sendPacket packetSize (sentSize + sndSize) sends
      else some (true, sndSize :: sends)

/-- The calls of `recv_noblock`, up to a complete packet or an error. -/
def receivePacket : Receiver → List Reception → Option (Bool × Receiver × List Reception)
  | r, [] => if r.complete then some (true, r, []) else none
  | r, reception :: receptions =>
      if r.complete then some (true, r, reception :: receptions)
      else
        (recvNoblock r.bsize reception).bind fun (rcvSize, bytes) =>
          if rcvSize ≤ 0 then some (false, r, receptions)
          else receivePacket (r.recv bytes) receptions

/-- The common part of the two functions: a packet goes out of `ntpb_buf`, the answer comes
into the same buffer and is checked.  The result is what the function returns. -/
def exchange (packetSize : ℕ) (buf : Region Byte) (outcomes : Outcomes) :
    Option (ℤ × Region Byte × Outcomes) :=
  (sendPacket packetSize 0 outcomes.sends).bind fun (sent, sends) =>
    if sent then
      (receivePacket (.idle buf) outcomes.receptions).map fun (received, r, receptions) =>
        (if received = false then -1
          else if checkNtpbHeader r.buf = false then -2
          else if r.buf.u16 hdrSize ≠ 1 then -2
          else 0,
         r.buf, ⟨sends, receptions⟩)
    else some (-1, buf, ⟨sends, outcomes.receptions⟩)

structure Server where
  ntpbBuf : Region Byte
  ioSema : Sema
  cmdSema : Sema

/-- `ntpbserverSendData` -/
def ntpbserverSendData (cmd : ℕ) (data : List Byte) (outcomes : Outcomes) (s : Server) :
    Option (ℤ × Server × Outcomes) :=
  s.ioSema.wait.bind fun ioSema =>
    let buf := (((s.ntpbBuf.write 0 magic).put16 6 data.length).put16 8 cmd).write 10 data
    (exchange (data.length + hdrSize) buf outcomes).map fun (ret, ntpbBuf, outcomes) =>
      (ret, { s with ntpbBuf, ioSema := if ret = 0 then ioSema.signal else ioSema }, outcomes)

/-- `ntpbserverEndReply` -/
def ntpbserverEndReply (outcomes : Outcomes) (s : Server) : Option (ℤ × Server × Outcomes) :=
  s.ioSema.wait.bind fun ioSema =>
    let buf := ((s.ntpbBuf.write 0 magic).put16 6 0).put16 8 cmdEot
    (exchange hdrSize buf outcomes).map fun (ret, ntpbBuf, outcomes) =>
      (ret,
       { ntpbBuf
         ioSema := if ret = 0 then ioSema.signal else ioSema
         cmdSema := if ret = 0 then s.cmdSema.signal else s.cmdSema }, outcomes)

/-! ### When the semaphore is given back -/

/-- The bytes that were received. -/
def received (receptions : List Reception) : List Byte :=
  receptions.flatMap fun
    | .data bytes => bytes
    | _ => []

/-- Every call on the network succeeds, and the answer, which comes over the packet in
`ntpb_buf`, has the magic and says 1. -/
structure Acknowledged (buf : Region Byte) (outcomes : Outcomes) : Prop where
  sends : ∀ sndSize ∈ outcomes.sends, 0 ≤ sndSize
  receptions : ∀ reception ∈ outcomes.receptions, ∃ bytes, reception = .data bytes ∧ bytes ≠ []
  magic : checkNtpbHeader (buf.write 0 (received outcomes.receptions)) = true
  status : (buf.write 0 (received outcomes.receptions)).u16 hdrSize = 1

theorem sendPacket_iff {packetSize sentSize : ℤ} {sends : List ℤ} {sent : Bool}
    (h : sendPacket packetSize sentSize sends = some (sent, [])) :
    sent = true ↔ ∀ sndSize ∈ sends, 0 ≤ sndSize := by
  induction sends generalizing sentSize with
  | nil =>
      rw [sendPacket] at h
      split_ifs at h
      cases h
      simp
  | cons sndSize sends ih =>
      rw [sendPacket] at h
      split_ifs at h with hlt hneg
      · cases h
        simp [hneg]
      · rw [ih h, List.forall_mem_cons]
        exact ⟨fun hall => ⟨not_lt.mp hneg, hall⟩, fun hall => hall.2⟩
      · cases h

theorem recvNoblock_pos_iff {bsize : ℕ} {reception : Reception} {rcvSize : ℤ} {bytes : List Byte}
    (h : recvNoblock bsize reception = some (rcvSize, bytes)) :
    ¬ rcvSize ≤ 0 ↔ reception = .data bytes ∧ bytes ≠ [] := by
  cases reception with
  | selectError =>
      cases h
      simp
  | recvError =>
      cases h
      simp
  | data bytes' =>
      rw [recvNoblock] at h
      split_ifs at h
      cases h
      simp

/-- The packet is complete exactly when no call has failed, and then the buffer holds all
that was received. -/
theorem receivePacket_spec {r r' : Receiver} {receptions : List Reception} {complete : Bool}
    (h : receivePacket r receptions = some (complete, r', [])) :
    (complete = true ↔
      ∀ reception ∈ receptions, ∃ bytes, reception = .data bytes ∧ bytes ≠ []) ∧
    (complete = true → r'.buf = r.buf.write r.recvSize (received receptions)) := by
  induction receptions generalizing r with
  | nil =>
      rw [receivePacket] at h
      split_ifs at h
      cases h
      simp [received, write_nil]
  | cons reception receptions ih =>
      rw [receivePacket] at h
      split_ifs at h with hcomplete
      · cases h
      · obtain ⟨⟨rcvSize, bytes⟩, hcall, hrest⟩ := Option.bind_eq_some_iff.mp h
        have hpos := recvNoblock_pos_iff hcall
        dsimp only at hrest
        split_ifs at hrest with herror
        · cases hrest
          refine ⟨?_, fun hfalse => absurd hfalse Bool.false_ne_true⟩
          refine iff_of_false Bool.false_ne_true fun hall => ?_
          obtain ⟨bytes', rfl, hne⟩ := hall reception List.mem_cons_self
          -- the bytes of the call are those of its outcome
          rw [recvNoblock] at hcall
          split_ifs at hcall
          cases hcall
          exact hpos.mpr ⟨rfl, hne⟩ herror
        · obtain ⟨rfl, hne⟩ := hpos.mp herror
          obtain ⟨hiff, hbuf⟩ := ih hrest
          refine ⟨?_, fun htrue => ?_⟩
          · rw [hiff, List.forall_mem_cons]
            exact ⟨fun hall => ⟨⟨bytes, rfl, hne⟩, hall⟩, fun hall => hall.2⟩
          · rw [hbuf htrue]
            exact write_append r.buf r.recvSize bytes (received receptions)

theorem exchange_iff {packetSize : ℕ} {buf buf' : Region Byte} {outcomes : Outcomes} {ret : ℤ}
    (h : exchange packetSize buf outcomes = some (ret, buf', ⟨[], []⟩)) :
    ret = 0 ↔ Acknowledged buf outcomes := by
  obtain ⟨⟨sent, sends⟩, hsend, hrest⟩ := Option.bind_eq_some_iff.mp h
  cases sent with
  | false =>
      obtain ⟨rfl, -, rfl, -⟩ : -1 = ret ∧ buf = buf' ∧ sends = [] ∧ outcomes.receptions = [] := by
        simpa using hrest
      refine iff_of_false (by decide) fun hack => ?_
      exact Bool.false_ne_true ((sendPacket_iff hsend).mpr hack.sends)
  | true =>
      obtain ⟨⟨complete, r, receptions⟩, hreceive, heq⟩ := Option.map_eq_some_iff.mp hrest
      simp only [Prod.mk.injEq, Outcomes.mk.injEq] at heq
      obtain ⟨hret, -, rfl, rfl⟩ := heq
      obtain ⟨hiff, hbuf⟩ := receivePacket_spec hreceive
      have hsends := (sendPacket_iff hsend).mp rfl
      rw [← hret]
      constructor
      · intro hzero
        split_ifs at hzero with hcomplete hmagic hstatus
        have htrue : complete = true := by simpa using hcomplete
        have hsame := hbuf htrue
        refine ⟨hsends, hiff.mp htrue, ?_, ?_⟩
        · have hmagic' : checkNtpbHeader r.buf = true := by simpa using hmagic
          rwa [hsame] at hmagic'
        · have hstatus' : r.buf.u16 hdrSize = 1 := by simpa using hstatus
          rwa [hsame] at hstatus'
      · intro hack
        have htrue := hiff.mpr hack.receptions
        have hsame := hbuf htrue
        have hmagic : checkNtpbHeader r.buf = true := by
          rw [hsame]
          exact hack.magic
        have hstatus : r.buf.u16 hdrSize = 1 := by
          rw [hsame]
          exact hack.status
        simp [htrue, hmagic, hstatus]

/-- The semaphore has its old count again exactly when the function returns 0. -/
theorem count_eq_iff {s t : Sema} (h : s.wait = some t) (ret : ℤ) :
    (if ret = 0 then t.signal else t).count = s.count ↔ ret = 0 := by
  split_ifs with hzero
  · rw [Sema.signal_of_wait h]
    exact iff_of_true rfl hzero
  · exact iff_of_false (Sema.count_ne_of_wait h) hzero

/-- The io semaphore is given back exactly when every call on the network succeeds and the
client's answer is as expected.  The outcomes are those of the calls that were made. -/
theorem ioSema_restored_iff (s t : Server) (outcomes : Outcomes) (ret : ℤ) :
    (∀ cmd data, ntpbserverSendData cmd data outcomes s = some (ret, t, ⟨[], []⟩) →
      (t.ioSema.count = s.ioSema.count ↔
        Acknowledged (s.ntpbBuf.write 0 (packet cmd data)) outcomes)) ∧
    (ntpbserverEndReply outcomes s = some (ret, t, ⟨[], []⟩) →
      (t.ioSema.count = s.ioSema.count ↔
        Acknowledged (s.ntpbBuf.write 0 (packet cmdEot [])) outcomes)) := by
  constructor
  · intro cmd data h
    obtain ⟨ioSema, hwait, hrest⟩ := Option.bind_eq_some_iff.mp h
    obtain ⟨⟨ret', buf, left⟩, hexchange, heq⟩ := Option.map_eq_some_iff.mp hrest
    cases heq
    rw [count_eq_iff hwait, ← write_packet]
    exact exchange_iff hexchange
  · intro h
    obtain ⟨ioSema, hwait, hrest⟩ := Option.bind_eq_some_iff.mp h
    obtain ⟨⟨ret', buf, left⟩, hexchange, heq⟩ := Option.map_eq_some_iff.mp hrest
    cases heq
    rw [count_eq_iff hwait, ← write_packet_nil]
    exact exchange_iff hexchange

/-- After `_start`. -/
def started : Server where
  ntpbBuf := fun _ => 0
  ioSema := ⟨1, 1, le_rfl⟩
  cmdSema := ⟨0, 1, Nat.zero_le 1⟩

/-- Packets that go out in two pieces and are acknowledged. -/
theorem ioSema_restored_iff_acknowledged :
    (∃ t, ntpbserverSendData cmdSendDump [1, 2] ⟨[5, 7], [.data ack]⟩ started =
        some (0, t, ⟨[], []⟩) ∧
      (t.ioSema.count = started.ioSema.count ↔
        Acknowledged (started.ntpbBuf.write 0 (packet cmdSendDump [1, 2]))
          ⟨[5, 7], [.data ack]⟩)) ∧
    ∃ t, ntpbserverEndReply ⟨[5, 5], [.data ack]⟩ started = some (0, t, ⟨[], []⟩) ∧
      (t.ioSema.count = started.ioSema.count ↔
        Acknowledged (started.ntpbBuf.write 0 (packet cmdEot [])) ⟨[5, 5], [.data ack]⟩) := by
  constructor
  · have hrun : ∃ t, ntpbserverSendData cmdSendDump [1, 2] ⟨[5, 7], [.data ack]⟩ started =
        some (0, t, ⟨[], []⟩) := ⟨_, rfl⟩
    obtain ⟨t, ht⟩ := hrun
    exact ⟨t, ht, (ioSema_restored_iff started t _ 0).1 _ _ ht⟩
  · have hrun : ∃ t, ntpbserverEndReply ⟨[5, 5], [.data ack]⟩ started =
        some (0, t, ⟨[], []⟩) := ⟨_, rfl⟩
    obtain ⟨t, ht⟩ := hrun
    exact ⟨t, ht, (ioSema_restored_iff started t _ 0).2 ht⟩

/-- The client closes the connection instead of answering: the call returns -1 without the
semaphore, and the end of the reply waits for it whatever the network does. -/
theorem ioSema_lost_on_hangup :
    ∃ t, ntpbserverSendData cmdSendDump [1, 2] ⟨[12], [.data []]⟩ started =
        some (-1, t, ⟨[], []⟩) ∧
      t.ioSema.count ≠ started.ioSema.count ∧
      ∀ outcomes, ntpbserverEndReply outcomes t = none := by
  refine ⟨_, rfl, by decide, fun outcomes => rfl⟩

end Ps2rd.Ntpb.IoSema
