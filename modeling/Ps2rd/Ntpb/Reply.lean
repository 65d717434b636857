import Ps2rd.Ntpb.Framing

/-!
# A reply on the socket

Two threads of the IOP write to the client socket, and both build what they send in
`ntpb_buf`.  The server thread (`handleClient`) takes a request, leaves its command in
`remote_cmd` and sends a response of 12 bytes.  The RPC thread hands the command to the
EE and then sends, one call after the other, the data packets of the EE
(`ntpbserverSendData`) and the end of the reply (`ntpbserverEndReply`); it waits for the
client's acknowledgement in the same buffer.

A thread can be interrupted where it blocks: in `lwip_send`, in `lwip_recv` and
`lwip_select`, in `WaitSema`.  What it does from there to the next such point is one
step.  A send takes any number of bytes out of the buffer, a receive puts any bytes into
it.  There is one connection.
-/

namespace Ps2rd.Ntpb.Reply

open Region

/-- The calls of the EE that send something. -/
inductive Call
  | sendData (m : Msg)
  | endReply

/-- The packet that the client should get. -/
def Call.msg : Call → Msg
  | sendData m => m
  | endReply => eot

/-- The stores of `ntpbserverSendData` and `ntpbserverEndReply` to `ntpb_buf`. -/
def Call.build (buf : Region Byte) : Call → Region Byte
  | sendData m => (((buf.write 0 magic).put16 6 m.2.length).put16 8 m.1).write hdrSize m.2
  | endReply => ((buf.write 0 magic).put16 6 0).put16 8 cmdEot

def Call.packetSize : Call → ℕ
  | sendData m => m.2.length + hdrSize
  | endReply => hdrSize

/-- The end of the reply is the last call that the EE makes for a command. -/
def Call.isLast : Call → Bool
  | sendData _ => false
  | endReply => true

/-- The server thread. -/
inductive Server
  /-- in the receive loop of `handleClient` -/
  | receiving (recvSize packetSize : ℕ)
  /-- sends the response -/
  | responding (sentSize : ℕ)
  /-- in `WaitSema(ntpbserver_cmd_sema)` -/
  | waiting
  /-- has returned from `handleClient` after an error, with that much of a response sent -/
  | closed (sentSize : ℕ)
  deriving DecidableEq

/-- The RPC thread. -/
inductive Rpc
  | idle
  /-- in `WaitSema(ntpbserver_io_sema)` -/
  | waiting (c : Call)
  /-- sends the packet -/
  | sending (c : Call) (sentSize : ℕ)
  /-- in the receive loop for the acknowledgement -/
  | receiving (c : Call) (recvSize packetSize : ℕ)

/-- The send loop of `handleClient` with that much of the response sent. -/
def Server.sent (sentSize : ℕ) : Server :=
  if sentSize < hdrSize + 2 then .responding sentSize else .waiting

/-- The send loop of a call with that much of its packet sent. -/
def Rpc.sent (c : Call) (sentSize : ℕ) : Rpc :=
  if sentSize < c.packetSize then .sending c sentSize else .receiving c 0 0

structure State where
  ntpbBuf : Region Byte
  ioSema : ℕ
  cmdSema : ℕ
  remoteCmd : ℕ
  server : Server
  rpc : Rpc
  /-- the EE has fetched a command and is in `execRemoteCmd` with it -/
  executing : Bool
  /-- the command that was accepted last -/
  cmd : Option ℕ
  /-- the calls that the EE has made for it -/
  calls : List Call
  /-- the bytes written to the socket since it was accepted -/
  written : List Byte

/-- A client has connected; `ntpb_buf` holds anything. -/
def initial (buf : Region Byte) : State where
  ntpbBuf := buf
  ioSema := 1
  cmdSema := 0
  remoteCmd := 0
  server := .receiving 0 0
  rpc := .idle
  executing := false
  cmd := none
  calls := []
  written := []

inductive Event
  | serverRecv (chunk : List Byte)
  /-- `recv` or `select` fails, or `ntpb_buf` is full -/
  | serverRecvFails
  /-- `lwip_send` takes `n` bytes of the response -/
  | serverSend (n : ℕ)
  | serverSendFails
  | serverWake
  /-- the RPC `GETREMOTECMD` -/
  | fetch
  /-- the RPC `SENDDATA` or `ENDREPLY` -/
  | call (c : Call)
  /-- the EE has no branch for the command -/
  | giveUp
  /-- the RPC thread gets the io semaphore and builds its packet -/
  | rpcWake
  /-- `lwip_send` takes `n` bytes of the packet -/
  | rpcSend (n : ℕ)
  | rpcSendFails
  | rpcRecv (chunk : List Byte)
  | rpcRecvFails

namespace State

/-- `handleClient` with a complete packet. -/
def handlePacket (s : State) (pbuf : Region Byte) : State :=
  if checkNtpbHeader pbuf then
    { s with
      ntpbBuf := (pbuf.put16 6 0).put16 hdrSize 1
      remoteCmd := pbuf.u16 8
      server := .sent 0
      cmd := some (pbuf.u16 8)
      calls := []
      written := [] }
  else { s with ntpbBuf := pbuf, server := .receiving 0 0 }

/-- The call returns to the EE. -/
def finish (s : State) (c : Call) : State :=
  { s with rpc := .idle, executing := s.executing && !c.isLast }

/-- The RPC thread with a complete acknowledgement.  It posts the semaphores only if
that is as expected. -/
def handleAck (s : State) (c : Call) (buf : Region Byte) : State :=
  let s := { s with ntpbBuf := buf }
  if checkNtpbHeader buf && buf.u16 hdrSize == 1 then
    { s with
      ioSema := signal s.ioSema
      cmdSema := if c.isLast then signal s.cmdSema else s.cmdSema }.finish c
  else s.finish c

/-- `recv` may return the bytes `chunk` with `recvSize` bytes of the packet there. -/
def Receivable (chunk : List Byte) (recvSize : ℕ) : Prop :=
  chunk ≠ [] ∧ chunk.length ≤ ntpbBufSize - recvSize

instance (chunk : List Byte) (recvSize : ℕ) : Decidable (Receivable chunk recvSize) :=
  inferInstanceAs (Decidable (_ ∧ _))

/-- The receive loop of `handleClient` after a `recv`. -/
def serverGot (s : State) (r : Receiver) : State :=
  if r.complete then s.handlePacket r.buf
  else { s with ntpbBuf := r.buf, server := .receiving r.recvSize r.packetSize }

def serverRecv (s : State) (chunk : List Byte) : Option State :=
  match s.server with
  | .receiving recvSize packetSize =>
      if Receivable chunk recvSize then
        some (s.serverGot ((Receiver.mk s.ntpbBuf recvSize packetSize).recv chunk))
      else none
  | _ => none

def serverSend (s : State) (n : ℕ) : Option State :=
  match s.server with
  | .responding sentSize =>
      if sentSize + n ≤ hdrSize + 2 then
        some { s with
          written := s.written ++ s.ntpbBuf.read sentSize n
          server := .sent (sentSize + n) }
      else none
  | _ => none

def rpcSend (s : State) (n : ℕ) : Option State :=
  match s.rpc with
  | .sending c sentSize =>
      if sentSize + n ≤ c.packetSize then
        some { s with
          written := s.written ++ s.ntpbBuf.read sentSize n
          rpc := .sent c (sentSize + n) }
      else none
  | _ => none

/-- The receive loop for an acknowledgement after a `recv`. -/
def rpcGot (s : State) (c : Call) (r : Receiver) : State :=
  if r.complete then s.handleAck c r.buf
  else { s with ntpbBuf := r.buf, rpc := .receiving c r.recvSize r.packetSize }

def rpcRecv (s : State) (chunk : List Byte) : Option State :=
  match s.rpc with
  | .receiving c recvSize packetSize =>
      if Receivable chunk recvSize then
        some (s.rpcGot c ((Receiver.mk s.ntpbBuf recvSize packetSize).recv chunk))
      else none
  | _ => none

def step (s : State) : Event → Option State
  | .serverRecv chunk => s.serverRecv chunk
  | .serverRecvFails =>
      match s.server with
      | .receiving _ _ => some { s with server := .closed (hdrSize + 2) }
      | _ => none
  | .serverSend n => s.serverSend n
  | .serverSendFails =>
      match s.server with
      | .responding sentSize => some { s with server := .closed sentSize }
      | _ => none
  | .serverWake =>
      match s.server with
      | .waiting =>
          if s.cmdSema ≠ 0 then
            some { s with cmdSema := s.cmdSema - 1, server := .receiving 0 0 }
          else none
      | _ => none
  | .fetch =>
      match s.rpc, s.executing with
      | .idle, false =>
          some { s with remoteCmd := 0, executing := s.remoteCmd != 0 }
      | _, _ => none
  | .call c =>
      match s.rpc, s.executing with
      | .idle, true => some { s with rpc := .waiting c, calls := s.calls ++ [c] }
      | _, _ => none
  | .giveUp =>
      match s.rpc with
      | .idle => some { s with executing := false }
      | _ => none
  | .rpcWake =>
      match s.rpc with
      | .waiting c =>
          if s.ioSema ≠ 0 then
            some { s with
              ioSema := s.ioSema - 1
              ntpbBuf := c.build s.ntpbBuf
              rpc := .sent c 0 }
          else none
      | _ => none
  | .rpcSend n => s.rpcSend n
  | .rpcSendFails =>
      match s.rpc with
      | .sending c _ => some (s.finish c)
      | _ => none
  | .rpcRecv chunk => s.rpcRecv chunk
  | .rpcRecvFails =>
      match s.rpc with
      | .receiving c _ _ => some (s.finish c)
      | _ => none

/-- What the client should get for its command: the response, then the packets in the
order of the calls. -/
def reply (s : State) : List Byte :=
  s.cmd.elim [] responseBytes ++ s.calls.flatMap fun c => c.msg.bytes

end State

/-- The bytes of the response that the server thread has yet to send, or will not send
any more. -/
def Server.rest (cmd : Option ℕ) : Server → List Byte
  | receiving _ _ | waiting => []
  | responding sentSize | closed sentSize => (cmd.elim [] responseBytes).drop sentSize

/-- The bytes of a packet that the RPC thread has yet to send. -/
def Rpc.rest : Rpc → List Byte
  | idle | receiving _ _ _ => []
  | waiting c => c.msg.bytes
  | sending c sentSize => c.msg.bytes.drop sentSize

/-- The call that the RPC thread is in. -/
def Rpc.call : Rpc → Option Call
  | idle => none
  | waiting c | sending c _ | receiving c _ _ => some c

/-- The RPC thread has the io semaphore. -/
def Rpc.Inside : Rpc → Prop
  | idle | waiting _ => False
  | sending _ _ | receiving _ _ _ => True

/-- A run of calls that the EE makes for a command: data only, so far. -/
def DataOnly (calls : List Call) : Prop := ∀ c ∈ calls, c ≠ .endReply

/-- The bytes on the socket are those of the reply, as far as they go, and all of them
once the end of the reply has been acknowledged and the semaphore of the server thread
posted. -/
structure InOrder (s : State) : Prop where
  ordered : s.written <+: s.reply
  whole : s.cmdSema ≠ 0 → s.written = s.reply ∧
    ∃ data, DataOnly data ∧ s.calls = data ++ [.endReply]

/-- The condition under which the threads keep apart: the RPC thread builds a packet
only while the server thread waits for its semaphore, with the response sent, and the
packet fits into `ntpb_buf`. -/
def Apart (s : State) : Event → Prop
  | .rpcWake => s.server = .waiting ∧ ∀ c ∈ s.rpc.call, c.packetSize ≤ ntpbBufSize
  | _ => True

instance (s : State) (e : Event) : Decidable (Apart s e) := by
  unfold Apart
  split <;> infer_instance

/-- What holds as long as the threads keep apart.  A send that failed leaves bytes
behind; the io semaphore is lost with them. -/
structure Inv (s : State) : Prop where
  balance : ∃ lost, s.written ++ (s.server.rest s.cmd ++ (lost ++ s.rpc.rest)) = s.reply ∧
    (lost ≠ [] → s.ioSema = 0 ∧ ¬ s.rpc.Inside ∧ s.cmdSema = 0)
  response : ∀ k, s.server = .responding k →
    s.ntpbBuf.read 0 (hdrSize + 2) = s.cmd.elim [] responseBytes
  packet : ∀ c k, s.rpc = .sending c k → s.ntpbBuf.read 0 c.packetSize = c.msg.bytes
  ioSema : s.ioSema ≤ 1
  inside : s.rpc.Inside → s.server = .waiting ∧ s.ioSema = 0
  busy : ∀ c, s.rpc.call = some c → s.executing = true ∧ s.remoteCmd = 0 ∧
    ∃ data, DataOnly data ∧ s.calls = data ++ [c]
  executing : s.rpc = .idle → s.executing = true → s.remoteCmd = 0 ∧ DataOnly s.calls
  receiving : ∀ n p, s.server = .receiving n p →
    s.rpc = .idle ∧ s.executing = false ∧ s.remoteCmd = 0 ∧ s.cmdSema = 0
  signalled : s.cmdSema ≠ 0 → s.cmdSema = 1 ∧ s.server = .waiting ∧ s.rpc = .idle ∧
    s.executing = false ∧ s.remoteCmd = 0 ∧ ∃ data, DataOnly data ∧ s.calls = data ++ [.endReply]
  published : s.remoteCmd ≠ 0 → s.calls = []

theorem Inv.inOrder {s : State} (h : Inv s) : InOrder s := by
  obtain ⟨lost, hbalance, hlost⟩ := h.balance
  refine ⟨⟨_, hbalance⟩, fun hsema => ?_⟩
  obtain ⟨-, hserver, hrpc, -, -, hcalls⟩ := h.signalled hsema
  have hnone : lost = [] := by
    by_contra hne
    exact hsema (hlost hne).2.2
  refine ⟨?_, hcalls⟩
  simpa [hserver, hrpc, hnone, Server.rest, Rpc.rest] using hbalance

/-! ### One step -/

theorem Call.build_eq (buf : Region Byte) (c : Call) : c.build buf = buf.write 0 c.msg.bytes := by
  cases c with
  | sendData m => exact write_packet buf m.1 m.2
  | endReply => exact write_packet_nil buf cmdEot

theorem Call.length_bytes (c : Call) : c.msg.bytes.length = c.packetSize := by
  cases c with
  | sendData m => exact length_packet m.1 m.2
  | endReply => rfl

theorem Server.rest_sent {cmd : Option ℕ} {n : ℕ} (hn : n ≤ hdrSize + 2) :
    (Server.sent n).rest cmd = (cmd.elim [] responseBytes).drop n := by
  unfold Server.sent
  split_ifs with hlt
  · rfl
  · cases cmd with
    | none => simp [Server.rest]
    | some cmd => exact (List.drop_of_length_le (by simp; omega)).symm

theorem Server.sent_ne_receiving (n m p : ℕ) : Server.sent n ≠ .receiving m p := by
  unfold Server.sent
  split_ifs <;> simp

theorem Rpc.rest_sent (c : Call) {n : ℕ} (hn : n ≤ c.packetSize) :
    (Rpc.sent c n).rest = c.msg.bytes.drop n := by
  unfold Rpc.sent
  split_ifs with hlt
  · rfl
  · exact (List.drop_of_length_le (by rw [c.length_bytes]; omega)).symm

theorem Rpc.call_sent (c : Call) (n : ℕ) : (Rpc.sent c n).call = some c := by
  unfold Rpc.sent
  split_ifs <;> rfl

theorem Rpc.sent_ne_idle (c : Call) (n : ℕ) : Rpc.sent c n ≠ .idle := by
  unfold Rpc.sent
  split_ifs <;> simp

theorem Rpc.eq_of_sent_eq {c c' : Call} {n k : ℕ} (h : Rpc.sent c n = .sending c' k) : c' = c := by
  unfold Rpc.sent at h
  split_ifs at h
  cases h
  rfl

section Step

variable {s t : State}

/-- What a send takes out of a buffer that holds `bytes` is the next part of them. -/
theorem read_append_drop {buf : Region Byte} {bytes : List Byte} {size k n : ℕ}
    (hbuf : buf.read 0 size = bytes) (hn : k + n ≤ size) (more : List Byte) :
    buf.read k n ++ (bytes.drop (k + n) ++ more) = bytes.drop k ++ more := by
  have hread : buf.read k n = (bytes.drop k).take n := by
    rw [← hbuf, drop_take_read buf hn, Nat.zero_add]
  rw [hread, ← List.append_assoc, ← List.drop_drop, List.take_append_drop]

/-- While a packet is under way nothing has been left behind. -/
theorem Inv.balance_inside (h : Inv s) (hinside : s.rpc.Inside) :
    s.written ++ s.rpc.rest = s.reply := by
  obtain ⟨lost, hbalance, hlost⟩ := h.balance
  have hnone : lost = [] := by
    by_contra hne
    exact (hlost hne).2.1 hinside
  simpa [(h.inside hinside).1, hnone, Server.rest] using hbalance

theorem Inv.cmdSema_of_busy (h : Inv s) (hrpc : s.rpc ≠ .idle) : s.cmdSema = 0 := by
  by_contra hne
  exact hrpc (h.signalled hne).2.2.1

theorem Inv.cmdSema_of_server (h : Inv s) (hserver : s.server ≠ .waiting) : s.cmdSema = 0 := by
  by_contra hne
  exact hserver (h.signalled hne).2.1

theorem Inv.not_inside (h : Inv s) (hserver : s.server ≠ .waiting) : ¬ s.rpc.Inside :=
  fun hinside => hserver (h.inside hinside).1

/-- In the receive loop of `handleClient` only the buffer changes. -/
theorem Inv.receive (h : Inv s) {n p : ℕ} (hserver : s.server = .receiving n p)
    (buf : Region Byte) (n' p' : ℕ) :
    Inv { s with ntpbBuf := buf, server := .receiving n' p' } := by
  have hidle := h.receiving n p hserver
  have hbalance := h.balance
  rw [hserver] at hbalance
  exact { h with
    balance := hbalance
    response := fun k hk => by cases hk
    packet := fun c k hc => by rw [hidle.1] at hc; cases hc
    inside := fun hin => by rw [hidle.1] at hin; cases hin
    receiving := fun _ _ _ => hidle
    signalled := fun hne => absurd hidle.2.2.2 hne }

/-- A request is accepted: its command is there for the EE, the response in the
buffer. -/
theorem Inv.accept (h : Inv s) {n p : ℕ} (hserver : s.server = .receiving n p)
    {pbuf : Region Byte} (hheader : checkNtpbHeader pbuf = true) :
    Inv { s with
      ntpbBuf := (pbuf.put16 6 0).put16 hdrSize 1
      remoteCmd := pbuf.u16 8
      server := .sent 0
      cmd := some (pbuf.u16 8)
      calls := []
      written := [] } := by
  obtain ⟨hrpc, hexec, -, hsema⟩ := h.receiving n p hserver
  exact
    { balance := ⟨[], by
        rw [hrpc, Server.rest_sent (Nat.zero_le _)]
        simp [Rpc.rest, State.reply], by simp⟩
      response := fun _ _ => read_response hheader
      packet := fun c k hc => by rw [hrpc] at hc; cases hc
      ioSema := h.ioSema
      inside := fun hin => by rw [hrpc] at hin; cases hin
      busy := fun c hc => by rw [hrpc] at hc; cases hc
      executing := fun _ hex => by rw [hexec] at hex; cases hex
      receiving := fun m q hr => absurd hr (Server.sent_ne_receiving 0 m q)
      signalled := fun hne => absurd hsema hne
      published := fun _ => rfl }

theorem Inv.serverRecv (h : Inv s) {chunk : List Byte} (hstep : s.serverRecv chunk = some t) :
    Inv t := by
  unfold State.serverRecv at hstep
  split at hstep
  · next n p hserver =>
      split_ifs at hstep
      cases hstep
      unfold State.serverGot State.handlePacket
      split_ifs with hcomplete hheader
      · exact h.accept hserver hheader
      · exact h.receive hserver _ _ _
      · exact h.receive hserver _ _ _
  · cases hstep

theorem Inv.serverSend (h : Inv s) {n : ℕ} (hstep : s.serverSend n = some t) : Inv t := by
  unfold State.serverSend at hstep
  split at hstep
  · next k hserver =>
      split_ifs at hstep with hn
      cases hstep
      have hne : s.server ≠ .waiting := by rw [hserver]; simp
      have hbuf := h.response k hserver
      obtain ⟨lost, hbalance, hlost⟩ := h.balance
      rw [hserver] at hbalance
      exact { h with
        balance := ⟨lost, by
          rw [Server.rest_sent hn, List.append_assoc, read_append_drop hbuf hn]
          exact hbalance, hlost⟩
        response := fun _ _ => hbuf
        inside := fun hin => absurd hin (h.not_inside hne)
        receiving := fun m p hr => absurd hr (Server.sent_ne_receiving _ m p)
        signalled := fun hsema => absurd (h.cmdSema_of_server hne) hsema }
  · cases hstep

/-- An error of `handleClient`, whatever it has left to send. -/
theorem Inv.close (h : Inv s) {k : ℕ} (hne : s.server ≠ .waiting)
    (hrest : s.server.rest s.cmd = (s.cmd.elim [] responseBytes).drop k) :
    Inv { s with server := .closed k } := by
  have hbalance := h.balance
  rw [hrest] at hbalance
  exact { h with
    balance := hbalance
    response := fun _ hk => by cases hk
    inside := fun hin => absurd hin (h.not_inside hne)
    receiving := fun _ _ hr => by cases hr
    signalled := fun hsema => absurd (h.cmdSema_of_server hne) hsema }

theorem Inv.serverWake (h : Inv s) (hserver : s.server = .waiting) (hsema : s.cmdSema ≠ 0) :
    Inv { s with cmdSema := s.cmdSema - 1, server := .receiving 0 0 } := by
  obtain ⟨hone, -, hrpc, hexec, hremote, -⟩ := h.signalled hsema
  obtain ⟨lost, hbalance, hlost⟩ := h.balance
  rw [hserver] at hbalance
  have hzero : s.cmdSema - 1 = 0 := by omega
  exact { h with
    balance := ⟨lost, hbalance, fun hne => absurd (hlost hne).2.2 hsema⟩
    response := fun _ hk => by cases hk
    inside := fun hin => by rw [hrpc] at hin; cases hin
    receiving := fun _ _ _ => ⟨hrpc, hexec, hremote, hzero⟩
    signalled := fun hne => absurd hzero hne }

theorem Inv.fetch (h : Inv s) (hrpc : s.rpc = .idle) :
    Inv { s with remoteCmd := 0, executing := s.remoteCmd != 0 } := by
  exact { h with
    busy := fun c hc => by rw [hrpc] at hc; cases hc
    executing := fun _ hexec => by
      refine ⟨rfl, ?_⟩
      have hcalls : s.calls = [] := h.published (by simpa using hexec)
      rw [hcalls]
      intro c hc
      cases hc
    receiving := fun n p hr => by
      obtain ⟨-, -, hremote, hsema⟩ := h.receiving n p hr
      exact ⟨hrpc, by simp [hremote], rfl, hsema⟩
    signalled := fun hne => by
      obtain ⟨hone, hserver, -, -, hremote, hcalls⟩ := h.signalled hne
      exact ⟨hone, hserver, hrpc, by simp [hremote], rfl, hcalls⟩
    published := fun hne => absurd rfl hne }

theorem Inv.call (h : Inv s) (hrpc : s.rpc = .idle) (hexec : s.executing = true) (c : Call) :
    Inv { s with rpc := .waiting c, calls := s.calls ++ [c] } := by
  obtain ⟨hremote, hdata⟩ := h.executing hrpc hexec
  obtain ⟨lost, hbalance, hlost⟩ := h.balance
  rw [hrpc] at hbalance
  exact { h with
    balance := by
      refine ⟨lost, ?_, fun hne => ⟨(hlost hne).1, not_false, (hlost hne).2.2⟩⟩
      have hreply : State.reply { s with rpc := .waiting c, calls := s.calls ++ [c] } =
          s.reply ++ c.msg.bytes := by
        simp [State.reply]
      rw [hreply, ← hbalance]
      simp [Rpc.rest]
    packet := fun _ _ hc => by cases hc
    inside := fun hin => by cases hin
    busy := fun c' hc => by
      cases hc
      exact ⟨hexec, hremote, s.calls, hdata, rfl⟩
    executing := fun hidle => by cases hidle
    receiving := fun n p hr => by
      have hfalse := (h.receiving n p hr).2.1
      rw [hexec] at hfalse
      cases hfalse
    signalled := fun hne => by
      have hfalse := (h.signalled hne).2.2.2.1
      rw [hexec] at hfalse
      cases hfalse
    published := fun hne => absurd hremote hne }

theorem Inv.giveUp (h : Inv s) (hrpc : s.rpc = .idle) : Inv { s with executing := false } := by
  exact { h with
    busy := fun c hc => by rw [hrpc] at hc; cases hc
    executing := fun _ hexec => by cases hexec
    receiving := fun n p hr => by
      obtain ⟨-, -, hremote, hsema⟩ := h.receiving n p hr
      exact ⟨hrpc, rfl, hremote, hsema⟩
    signalled := fun hne => by
      obtain ⟨hone, hserver, -, -, hremote, hcalls⟩ := h.signalled hne
      exact ⟨hone, hserver, hrpc, rfl, hremote, hcalls⟩ }

/-- The packet is built while the server thread waits, so the response is not in the
buffer any more. -/
theorem Inv.rpcWake (h : Inv s) (hserver : s.server = .waiting) {c : Call}
    (hrpc : s.rpc = .waiting c) (hsema : s.ioSema ≠ 0) :
    Inv { s with ioSema := s.ioSema - 1, ntpbBuf := c.build s.ntpbBuf, rpc := .sent c 0 } := by
  have hbusy := h.busy c (by rw [hrpc]; rfl)
  have hcmd := h.cmdSema_of_busy (by rw [hrpc]; simp)
  have hone := h.ioSema
  have hzero : s.ioSema - 1 = 0 := by omega
  obtain ⟨lost, hbalance, hlost⟩ := h.balance
  have hnone : lost = [] := by
    by_contra hne
    exact hsema (hlost hne).1
  rw [hrpc] at hbalance
  exact { h with
    balance := by
      refine ⟨lost, ?_, fun hne => absurd hnone hne⟩
      rw [Rpc.rest_sent c (Nat.zero_le _)]
      exact hbalance
    response := fun k hk => by rw [hserver] at hk; cases hk
    packet := fun c' k hc => by
      rw [Rpc.eq_of_sent_eq hc, Call.build_eq, read_write_of_length _ _ c.length_bytes]
    ioSema := by rw [hzero]; exact Nat.zero_le 1
    inside := fun _ => ⟨hserver, hzero⟩
    busy := fun c' hc => by
      rw [Rpc.call_sent] at hc
      cases hc
      exact hbusy
    executing := fun hidle => absurd hidle (Rpc.sent_ne_idle c 0)
    receiving := fun n p hr => by rw [hserver] at hr; cases hr
    signalled := fun hne => absurd hcmd hne }

theorem Inv.rpcSend (h : Inv s) {n : ℕ} (hstep : s.rpcSend n = some t) : Inv t := by
  unfold State.rpcSend at hstep
  split at hstep
  · next c k hrpc =>
      split_ifs at hstep with hn
      cases hstep
      have hinside : s.rpc.Inside := by rw [hrpc]; trivial
      obtain ⟨hserver, hsema⟩ := h.inside hinside
      have hbuf := h.packet c k hrpc
      have hbusy := h.busy c (by rw [hrpc]; rfl)
      have hcmd := h.cmdSema_of_busy (by rw [hrpc]; simp)
      have hbalance := h.balance_inside hinside
      rw [hrpc] at hbalance
      exact { h with
        balance := by
          refine ⟨[], ?_, by simp⟩
          have hnext := read_append_drop hbuf hn []
          rw [List.append_nil, List.append_nil] at hnext
          rw [Rpc.rest_sent c hn, hserver, Server.rest, List.nil_append, List.nil_append,
            List.append_assoc, hnext]
          exact hbalance
        packet := fun c' k' hc => by rw [Rpc.eq_of_sent_eq hc]; exact hbuf
        inside := fun _ => ⟨hserver, hsema⟩
        busy := fun c' hc => by
          rw [Rpc.call_sent] at hc
          cases hc
          exact hbusy
        executing := fun hidle => absurd hidle (Rpc.sent_ne_idle c _)
        receiving := fun m p hr => by rw [hserver] at hr; cases hr
        signalled := fun hne => absurd hcmd hne }
  · cases hstep

/-- A call returns without posting a semaphore. -/
theorem Inv.finish (h : Inv s) {c : Call} (hcall : s.rpc.call = some c)
    (hinside : s.rpc.Inside) (buf : Region Byte) :
    Inv ({ s with ntpbBuf := buf }.finish c) := by
  obtain ⟨hserver, hsema⟩ := h.inside hinside
  obtain ⟨hexec, hremote, data, hdata, hcalls⟩ := h.busy c hcall
  have hidle : s.rpc ≠ .idle := by
    intro hidle
    rw [hidle] at hcall
    cases hcall
  have hcmd := h.cmdSema_of_busy hidle
  exact
    { balance := by
        refine ⟨s.rpc.rest, ?_, fun _ => ⟨hsema, not_false, hcmd⟩⟩
        have hbalance := h.balance_inside hinside
        simpa [State.finish, State.reply, hserver, Server.rest, Rpc.rest] using hbalance
      response := fun k hk => by cases hserver.symm.trans hk
      packet := fun _ _ hc => by cases hc
      ioSema := h.ioSema
      inside := fun hin => by cases hin
      busy := fun _ hc => by cases hc
      executing := fun _ hexec' => by
        refine ⟨hremote, fun c' hc => ?_⟩
        change c' ∈ s.calls at hc
        rw [hcalls, List.mem_append, List.mem_singleton] at hc
        rcases hc with hc | rfl
        · exact hdata c' hc
        · rintro rfl
          simp [State.finish, Call.isLast] at hexec'
      receiving := fun n p hr => by cases hserver.symm.trans hr
      signalled := fun hne => absurd hcmd hne
      published := fun hne => absurd hremote hne }

/-- The client has acknowledged the packet: all of it was sent, and the semaphores are
posted. -/
theorem Inv.acknowledge (h : Inv s) {c : Call} {n p : ℕ} (hrpc : s.rpc = .receiving c n p)
    (buf : Region Byte) :
    Inv ({ s with
      ntpbBuf := buf
      ioSema := signal s.ioSema
      cmdSema := if c.isLast then signal s.cmdSema else s.cmdSema }.finish c) := by
  have hcall : s.rpc.call = some c := by rw [hrpc]; rfl
  have hinside : s.rpc.Inside := by rw [hrpc]; trivial
  have hserver := (h.inside hinside).1
  obtain ⟨-, hremote, data, hdata, hcalls⟩ := h.busy c hcall
  have hcmd := h.cmdSema_of_busy (by rw [hrpc]; simp)
  have hfinish := h.finish hcall hinside buf
  have hbalance := h.balance_inside hinside
  rw [hrpc] at hbalance
  exact { hfinish with
    balance := by
      refine ⟨[], ?_, by simp⟩
      simpa [State.finish, State.reply, hserver, Server.rest, Rpc.rest] using hbalance
    ioSema := Nat.min_le_left 1 _
    inside := fun hin => by cases hin
    receiving := fun m q hr => by cases hserver.symm.trans hr
    signalled := fun hne => by
      cases c with
      | sendData m => exact absurd hcmd hne
      | endReply =>
          have hone : signal s.cmdSema = 1 := by rw [hcmd]; rfl
          exact ⟨hone, hserver, rfl, Bool.and_false _, hremote, data, hdata, hcalls⟩ }

theorem Inv.handleAck (h : Inv s) {c : Call} {n p : ℕ} (hrpc : s.rpc = .receiving c n p)
    (buf : Region Byte) : Inv (s.handleAck c buf) := by
  unfold State.handleAck
  by_cases hack : (checkNtpbHeader buf && buf.u16 hdrSize == 1) = true
  · rw [if_pos hack]
    exact h.acknowledge hrpc buf
  · rw [if_neg hack]
    exact h.finish (by rw [hrpc]; rfl) (by rw [hrpc]; trivial) buf

theorem Inv.rpcRecv (h : Inv s) {chunk : List Byte} (hstep : s.rpcRecv chunk = some t) :
    Inv t := by
  unfold State.rpcRecv at hstep
  split at hstep
  · next c n p hrpc =>
      split_ifs at hstep
      cases hstep
      unfold State.rpcGot
      split_ifs
      · exact h.handleAck hrpc _
      · have hcall : s.rpc.call = some c := by rw [hrpc]; rfl
        have hinside : s.rpc.Inside := by rw [hrpc]; trivial
        have hserver := (h.inside hinside).1
        have hbalance := h.balance
        rw [hrpc] at hbalance
        exact { h with
          balance := hbalance
          response := fun k hk => by rw [hserver] at hk; cases hk
          packet := fun _ _ hc => by cases hc
          inside := fun _ => h.inside hinside
          busy := fun c' hc => h.busy c' (hcall.trans hc)
          executing := fun hidle => by cases hidle
          receiving := fun m q hr => by rw [hserver] at hr; cases hr
          signalled := fun hne => absurd (h.cmdSema_of_busy (by rw [hrpc]; simp)) hne }
  · cases hstep

/-- The step lemma. -/
theorem Inv.step (h : Inv s) {e : Event} (hok : Apart s e) (hstep : s.step e = some t) :
    Inv t := by
  cases e with
  | serverRecv chunk => exact h.serverRecv hstep
  | serverRecvFails =>
      simp only [State.step] at hstep
      split at hstep
      · next n p hserver =>
          cases hstep
          refine h.close (by rw [hserver]; simp) ?_
          rw [hserver, ← Server.rest_sent le_rfl]
          rfl
      · cases hstep
  | serverSend n => exact h.serverSend hstep
  | serverSendFails =>
      simp only [State.step] at hstep
      split at hstep
      · next k hserver =>
          cases hstep
          exact h.close (by rw [hserver]; simp) (by rw [hserver]; rfl)
      · cases hstep
  | serverWake =>
      simp only [State.step] at hstep
      split at hstep
      · next hserver =>
          split_ifs at hstep with hsema
          cases hstep
          exact h.serverWake hserver hsema
      · cases hstep
  -- the EE, in `execRemoteCmd`
  | fetch =>
      simp only [State.step] at hstep
      split at hstep
      · next hrpc _ =>
          cases hstep
          exact h.fetch hrpc
      · cases hstep
  | call c =>
      simp only [State.step] at hstep
      split at hstep
      · next hrpc hexec =>
          cases hstep
          exact h.call hrpc hexec c
      · cases hstep
  | giveUp =>
      simp only [State.step] at hstep
      split at hstep
      · next hrpc =>
          cases hstep
          exact h.giveUp hrpc
      · cases hstep
  -- the RPC thread, with the packet in `ntpb_buf`
  | rpcWake =>
      simp only [State.step] at hstep
      split at hstep
      · next c hrpc =>
          split_ifs at hstep with hsema
          cases hstep
          exact h.rpcWake hok.1 hrpc hsema
      · cases hstep
  | rpcSend n => exact h.rpcSend hstep
  | rpcSendFails =>
      simp only [State.step] at hstep
      split at hstep
      · next c k hrpc =>
          cases hstep
          exact h.finish (by rw [hrpc]; rfl) (by rw [hrpc]; trivial) s.ntpbBuf
      · cases hstep
  | rpcRecv chunk => exact h.rpcRecv hstep
  | rpcRecvFails =>
      simp only [State.step] at hstep
      split at hstep
      · next c n p hrpc =>
          cases hstep
          exact h.finish (by rw [hrpc]; rfl) (by rw [hrpc]; trivial) s.ntpbBuf
      · cases hstep

end Step

theorem inv_initial (buf : Region Byte) : Inv (initial buf) where
  balance := ⟨[], rfl, by simp⟩
  response := fun _ hk => by cases hk
  packet := fun _ _ hc => by cases hc
  ioSema := le_rfl
  inside := fun hin => by cases hin
  busy := fun _ hc => by cases hc
  executing := fun _ hexec => by cases hexec
  receiving := fun _ _ _ => ⟨rfl, rfl, rfl, rfl⟩
  signalled := fun hne => absurd rfl hne
  published := fun hne => absurd rfl hne

/-! ### Whole runs -/

/-- In every run in which the RPC thread starts a packet only when the response is
out, the client gets the reply in order. -/
theorem inOrder_of_apart {buf : Region Byte} {events : List Event} {s : State}
    (hrun : Run State.step Apart (initial buf) events s) : InOrder s := by
  have hinv : Inv s := hrun.invariant (inv_initial buf) fun _ _ _ h hok hstep => h.step hok hstep
  exact hinv.inOrder

/-- A dump of two bytes.  The response and the data packet go out in two pieces each;
the EE fetches the command before the rest of the response is sent. -/
def twoBytes : List Event :=
  [.serverRecv (packet cmdDump [0, 0, 0x10, 0, 2, 0, 0x10, 0]), .serverSend 5, .fetch,
    .call (.sendData (cmdSendDump, [1, 2])), .serverSend 7, .rpcWake, .rpcSend 4, .rpcSend 8,
    .rpcRecv ack, .call .endReply, .rpcWake, .rpcSend 10, .rpcRecv ack]

theorem inOrder_of_apart_twoBytes :
    ∃ s, Run State.step Apart (initial fun _ => 0) twoBytes s ∧ s.cmdSema = 1 ∧ InOrder s := by
  have hsema : (Run.along State.step Apart (initial fun _ => 0) twoBytes).map State.cmdSema =
      some 1 := by decide +kernel
  obtain ⟨s, hs, hone⟩ := Option.map_eq_some_iff.mp hsema
  exact ⟨s, .of_along hs, hone, inOrder_of_apart (.of_along hs)⟩

/-- The end of the reply is built while the server thread is about to send its response:
the client gets the bytes of the one in the place of the other. -/
theorem halt_not_inOrder :
    ∃ s, Run State.step (fun _ _ => True) (initial fun _ => 0)
      [.serverRecv (packet 0x201 []), .fetch, .call .endReply, .rpcWake, .serverSend 12] s ∧
      s.written = packet cmdEot [] ++ [1, 0] ∧ ¬ InOrder s := by
  have hwritten : (Run.along State.step (fun _ _ => True) (initial fun _ => 0)
      [.serverRecv (packet 0x201 []), .fetch, .call .endReply, .rpcWake, .serverSend 12]).map
        (fun s => (s.written, s.reply)) =
      some (packet cmdEot [] ++ [1, 0], responseBytes 0x201 ++ packet cmdEot []) := by
    decide +kernel
  obtain ⟨s, hs, hboth⟩ := Option.map_eq_some_iff.mp hwritten
  rw [Prod.mk.injEq] at hboth
  refine ⟨s, .of_along hs, hboth.1, fun h => ?_⟩
  have hordered := h.ordered
  rw [hboth.1, hboth.2] at hordered
  revert hordered
  decide

end Ps2rd.Ntpb.Reply
