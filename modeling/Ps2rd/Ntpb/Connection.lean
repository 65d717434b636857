import Ps2rd.Lib.Run
import Ps2rd.Ntpb.Client

/-!
# One connection, byte by byte

The client sends a request and collects the reply; the server takes the request in
`handleClient`, and the reply goes out packet by packet through
`ntpbserverSendData` and `ntpbserverEndReply`, each waiting for the client's
acknowledgement.  TCP carries two streams of bytes.  A `recv` takes any number of
bytes that are there, up to the size it asks for, so it may end inside a packet and
it may run on into the next one.

The reply to a request starts after `handleClient` has sent its response.
-/

namespace Ps2rd.Ntpb

open Region

abbrev Msg.bytes (m : Msg) : List Byte := packet m.1 m.2

/-- The packet fits into `ntpb_buf`. -/
structure Msg.Sendable (m : Msg) : Prop where
  cmd : m.1 < 2 ^ 16
  size : m.2.length ≤ 4086

/-- The packet that ends a reply. -/
def eot : Msg := (cmdEot, [])

/-- The client's acknowledgement, with the two bytes that the server looks at. -/
def ackMsg : Msg := (cmdEot, leBytes 2 1)

/-- What the two sides have to say: the client's request and, for every command that
the server may get, the packets the EE sends back before the end of the reply.

The data of a packet is limited to the 4086 bytes that `ntpb_buf` has room for behind the
header.  `sendDump` does not keep to this: it sends pieces of 4096 bytes, which run past the
end of the buffer (see `Dump`). -/
structure Exchange where
  request : Msg
  replies : Msg → List Msg
  request_sendable : request.Sendable
  replies_sendable : ∀ q, ∀ m ∈ replies q, m.Sendable
  replies_ne_eot : ∀ q, ∀ m ∈ replies q, m.1 ≠ cmdEot

/-- All packets of the reply to `q`. -/
def Exchange.answer (x : Exchange) (q : Msg) : List Msg := x.replies q ++ [eot]

inductive Server
  /-- in the receive loop of `handleClient` -/
  | handling (r : Receiver)
  /-- about to send the next packet of a reply -/
  | replying (buf : Region Byte) (todo : List Msg)
  /-- in the receive loop of `ntpbserverSendData` or `ntpbserverEndReply` -/
  | acking (r : Receiver) (todo : List Msg)
  /-- returned with an error: the io semaphore or the connection is lost -/
  | failed

inductive ClientState
  | start
  /-- in the `recv` of `ntpb_send_cmd` -/
  | response
  /-- in `ntpb_recv_data` -/
  | receiving (r : Client.Receiver)
  | done

/-- `while (!$eot)`, after a packet with command `cmd` -/
def ClientState.next (cmd : ℕ) : ClientState :=
  if cmd = cmdEot then .done else .receiving .idle

/-- The two programs, the bytes on their way, and the packets that each side has
recovered so far. -/
structure Conn where
  server : Server
  client : ClientState
  toServer : List Byte
  toClient : List Byte
  serverLog : List Msg
  clientLog : List Msg

inductive Event
  | clientSend
  | clientRecv (n : ℕ)
  | serverSend
  | serverRecv (n : ℕ)

namespace Conn

/-- The client has just connected; `ntpb_buf` holds anything. -/
def initial (buf : Region Byte) : Conn := ⟨.handling (.idle buf), .start, [], [], [], []⟩

/-- `handleClient` with a complete packet.  The response goes out of the same buffer;
its size field says 0 although two bytes follow the header. -/
def handlePacket (x : Exchange) (r : Receiver) (c : Conn) : Conn :=
  if checkNtpbHeader r.buf then
    let q : Msg := (r.buf.u16 8, r.buf.read hdrSize (r.packetSize - hdrSize))
    let buf := (r.buf.put16 6 0).put16 hdrSize 1
    { c with
      server := .replying buf (x.answer q)
      toClient := c.toClient ++ buf.read 0 12
      serverLog := c.serverLog ++ [q] }
  else { c with server := .handling (.idle r.buf) }

/-- `ntpbserverSendData` and `ntpbserverEndReply` with a complete acknowledgement.
After the end of the reply `handleClient` goes on. -/
def handleAck (r : Receiver) (todo : List Msg) (c : Conn) : Conn :=
  if checkNtpbHeader r.buf && r.buf.u16 hdrSize == 1 then
    { c with
      server := if todo = [] then .handling (.idle r.buf) else .replying r.buf todo
      serverLog := c.serverLog ++ [(r.buf.u16 8, r.buf.read hdrSize 2)] }
  else { c with server := .failed }

/-- `ntpb_recv_data` with a complete packet. -/
def handleData (r : Client.Receiver) (c : Conn) : Conn :=
  { c with
    client := .next r.cmd
    toServer := c.toServer ++ ack
    clientLog := c.clientLog ++ [(r.cmd, r.buf.drop hdrSize)] }

/-- A `recv` of the server that finds `n` bytes, in the loop with receiver `r`.  With
`ntpb_buf` full it returns 0 and the connection is given up. -/
def recvInto (n : ℕ) (r : Receiver) (more : Receiver → Server) (complete : Receiver → Conn → Conn)
    (c : Conn) : Option Conn :=
  if r.bsize = 0 ∧ c.toServer ≠ [] then some { c with server := .failed }
  else if 0 < n ∧ n ≤ min c.toServer.length r.bsize then
    let r' := r.recv (c.toServer.take n)
    let c' := { c with toServer := c.toServer.drop n }
    some (if r'.complete then complete r' c' else { c' with server := more r' })
  else none

def serverRecv (x : Exchange) (n : ℕ) (c : Conn) : Option Conn :=
  match c.server with
  | .handling r => c.recvInto n r .handling (handlePacket x)
  | .acking r todo => c.recvInto n r (.acking · todo) (handleAck · todo)
  | _ => none

/-- The next packet of the reply: `ntpbserverSendData` or `ntpbserverEndReply` up to
its receive loop. -/
def serverSend (c : Conn) : Option Conn :=
  match c.server with
  | .replying buf ((cmd, data) :: todo) =>
      let buf := (((buf.write 0 magic).put16 6 data.length).put16 8 cmd).write 10 data
      some { c with
        server := .acking (.idle buf) todo
        toClient := c.toClient ++ buf.read 0 (data.length + hdrSize) }
  | _ => none

/-- `send` of `ntpb_send_cmd` -/
def clientSend (x : Exchange) (c : Conn) : Option Conn :=
  match c.client with
  | .start => some { c with
      client := .response
      toServer := c.toServer ++ x.request.bytes }
  | _ => none

/-- A `recv` of the client that finds `n` bytes.  The one of `ntpb_send_cmd` does not
look at what it gets. -/
def clientRecv (n : ℕ) (c : Conn) : Option Conn :=
  let rest := { c with toClient := c.toClient.drop n }
  match c.client with
  | .response =>
      if 0 < n ∧ n ≤ min c.toClient.length Client.bufSize then
        some { rest with client := .receiving .idle }
      else none
  | .receiving r =>
      if 0 < n ∧ n ≤ min c.toClient.length r.bsize then
        let r' := r.recv (c.toClient.take n)
        some (if r'.complete then handleData r' rest else { rest with client := .receiving r' })
      else none
  | _ => none

def step (x : Exchange) (c : Conn) : Event → Option Conn
  | .clientSend => c.clientSend x
  | .clientRecv n => c.clientRecv n
  | .serverSend => c.serverSend
  | .serverRecv n => c.serverRecv x n

/-- The packets the server recovers if every packet arrives in exactly one `recv`. -/
def wholeServer (x : Exchange) : List Msg :=
  x.request :: (x.answer x.request).map fun _ => ackMsg

/-- The packets the client recovers if every packet arrives in exactly one `recv`. -/
def wholeClient (x : Exchange) : List Msg := x.answer x.request

/-- Both sides have recovered the packets that were sent and no others, and if
nothing more can happen they have recovered all of them. -/
structure Faithful (x : Exchange) (c : Conn) : Prop where
  server : c.serverLog <+: wholeServer x
  client : c.clientLog <+: wholeClient x
  all : (∀ e, c.step x e = none) → c.serverLog = wholeServer x ∧ c.clientLog = wholeClient x

/-- The `recv` does not divide what its caller takes for granted: the first one of a
packet brings the size field (for the client the whole header), the response of
`handleClient` comes alone and in one piece, and an acknowledgement is not cut before its
last byte. -/
def Undivided (c : Conn) : Event → Prop
  | .serverRecv n =>
      match c.server with
      | .handling r => r.recvSize = 0 → 8 ≤ n
      | .acking r _ => (r.recvSize = 0 → 8 ≤ n) ∧ r.recvSize + n ≠ 11
      | _ => True
  | .clientRecv n =>
      match c.client with
      | .response => n = 12
      | .receiving r => r.buf = [] → 10 ≤ n
      | _ => True
  | _ => True

instance (c : Conn) (e : Event) : Decidable (c.Undivided e) := by
  unfold Undivided
  split
  · split <;> infer_instance
  · split <;> infer_instance
  · infer_instance

end Conn

/-! ### Receivers in the middle of a packet -/

/-- The server's receiver after the first `m` bytes of a packet. -/
def Receiver.upTo (buf : Region Byte) (bytes : List Byte) (size m : ℕ) : Receiver :=
  ⟨buf.write 0 (bytes.take m), m, if m = 0 then 0 else size + hdrSize⟩

theorem Receiver.idle_eq_upTo (buf : Region Byte) (bytes : List Byte) (size : ℕ) :
    Receiver.idle buf = .upTo buf bytes size 0 := by
  simp [Receiver.idle, Receiver.upTo]

theorem Receiver.complete_upTo (buf : Region Byte) (bytes : List Byte) (size m : ℕ) :
    (Receiver.upTo buf bytes size m).complete = true ↔ size + hdrSize ≤ m := by
  unfold hdrSize
  rcases Nat.eq_zero_or_pos m with rfl | hm
  · simp [Receiver.complete, Receiver.upTo]
  · simp [Receiver.complete, Receiver.upTo, hm, hm.ne', hdrSize]

/-- Once the first `recv` brings the size field, the rest may come in any pieces. -/
theorem Receiver.recv_upTo (buf : Region Byte) (bytes : List Byte) {size m n : ℕ}
    (hsize : leNat ((bytes.drop 6).take 2) = size) (hn : 0 < n) (hle : m + n ≤ bytes.length)
    (hfirst : m = 0 → 8 ≤ n) :
    (Receiver.upTo buf bytes size m).recv ((bytes.drop m).take n) =
      .upTo buf bytes size (m + n) := by
  have hlen : ((bytes.drop m).take n).length = n := by simp; omega
  have htake : (bytes.take m).length = m := by simp; omega
  have hwrite : (buf.write 0 (bytes.take m)).write m ((bytes.drop m).take n) =
      buf.write 0 (bytes.take (m + n)) := by
    have happend := write_append buf 0 (bytes.take m) ((bytes.drop m).take n)
    rwa [htake, ← List.take_add, Nat.zero_add] at happend
  have hfield : 8 ≤ m + n → (buf.write 0 (bytes.take (m + n))).u16 6 = size := by
    intro h8
    rw [u16, read_write_within _ (Nat.zero_le 6) (by simp; omega), ← hsize, Nat.sub_zero,
      List.drop_take, List.take_take, min_eq_left (by omega)]
  have hpos : m + n ≠ 0 := by omega
  simp only [Receiver.recv, Receiver.upTo, hlen, hwrite, hpos, if_false]
  split_ifs with hm
  · rw [hfield (by have := hfirst hm; omega)]
  · rfl

/-- The client's receiver after the first `m` bytes of a packet. -/
def Client.Receiver.upTo (msg : Msg) (m : ℕ) : Client.Receiver :=
  if m = 0 then .idle else ⟨msg.bytes.take m, msg.2.length + hdrSize, msg.1⟩

theorem Client.Receiver.buf_upTo (msg : Msg) (m : ℕ) :
    (Client.Receiver.upTo msg m).buf = msg.bytes.take m := by
  unfold Client.Receiver.upTo
  split_ifs with hm
  · simp [hm, Client.Receiver.idle]
  · rfl

theorem Client.Receiver.complete_upTo (msg : Msg) {m : ℕ} (hm : m ≤ msg.2.length + hdrSize) :
    (Client.Receiver.upTo msg m).complete = true ↔ m = msg.2.length + hdrSize := by
  unfold hdrSize at *
  unfold Client.Receiver.upTo
  split_ifs with hzero
  · simp [Client.Receiver.complete, Client.Receiver.idle, hzero]
  · have hlen : (msg.bytes.take m).length = m := by simp; omega
    have hne : msg.bytes.take m ≠ [] := by
      intro hnil
      simp [hnil] at hlen
      omega
    simp only [Client.Receiver.complete, hne, hlen, hdrSize, decide_true, ne_eq, not_false_eq_true,
      Bool.true_and, decide_eq_true_eq]
    omega

theorem Client.Receiver.recv_upTo {msg : Msg} {m n : ℕ} (hmsg : msg.Sendable) (hn : 0 < n)
    (hle : m + n ≤ msg.bytes.length) (hfirst : m = 0 → 10 ≤ n) :
    (Client.Receiver.upTo msg m).recv ((msg.bytes.drop m).take n) =
      .upTo msg (m + n) := by
  have hlt : msg.2.length < 2 ^ 16 := by have := hmsg.size; omega
  have hpos : m + n ≠ 0 := by omega
  simp only [Client.Receiver.recv, Client.Receiver.buf_upTo]
  rcases Nat.eq_zero_or_pos m with rfl | hm
  · have h10 := hfirst rfl
    rw [Nat.zero_add] at hle
    simp [Client.Receiver.upTo, hn.ne', Client.unpackS_take (show 6 + 2 ≤ n by omega) hle,
      Client.unpackS_take (show 8 + 2 ≤ n by omega) hle, Client.unpackS_size msg.1 hlt,
      Client.unpackS_cmd msg.2 hmsg.cmd]
  · have hne : msg.bytes.take m ≠ [] := by
      intro hnil
      have hlen := congrArg List.length hnil
      simp only [List.length_take, List.length_nil] at hlen
      omega
    simp [Client.Receiver.upTo, hm.ne', hne, ← List.take_add]

end Ps2rd.Ntpb
