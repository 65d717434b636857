import Ps2rd.Ntpb.Packet

/-!
# Requests, from the network to `execRemoteCmd`

One round of the loop of `handleClient` receives a packet into `ntpb_buf` and
copies its data to `cmdbuf`; the next poll of the EE copies it on to the parameter
of the `GETREMOTECMD` call and from there to `cmd_buf` of `execRemoteCmd`.  The
size of every one of these copies is the 16-bit size field of the packet.

What the client sends and how the network cuts it into pieces is arbitrary, and so
is what `ntpb_buf` holds at the beginning of a round.
-/

namespace Ps2rd.Ntpb

open Region

/-- The client's end of a connection: the bytes not yet delivered, and how many of
them, less one, each of the coming `recv` calls finds.  With no bytes or no pieces
left the connection is closed and `recv` returns 0. -/
structure Net where
  bytes : List Byte
  pieces : List ℕ

/-- `recv_noblock` in a loop, until the packet is complete.  Returns the copies made
into `ntpb_buf` and, unless a call returns 0, the complete packet. -/
def receive (r : Receiver) (bytes : List Byte) : List ℕ → List Copy × Option (Receiver × Net)
  | [] => ([], none)
  | piece :: pieces =>
      let chunk := bytes.take (min (piece + 1) r.bsize)
      -- nothing left, or no room: `rcvSize <= 0`
      if chunk = [] then ([], none) else
        let copy : Copy := ⟨.ntpbBuf, r.recvSize, chunk.length⟩
        let r' := r.recv chunk
        let rest := bytes.drop chunk.length
        if r'.complete then ([copy], some (r', ⟨rest, pieces⟩))
        else
          let (copies, result) := receive r' rest pieces
          (copy :: copies, result)

/-- The places a request passes through behind `ntpb_buf`, and the copies made into
them. -/
structure Mailbox where
  /-- `remote_cmd` of the server -/
  remoteCmd : ℕ
  cmdbuf : Region Byte
  cmdsize : ℕ
  rpcBuf : Region Byte
  getRemoteCmdParam : Region Byte
  /-- `remote_cmd`, `cmd_buf` and `size` of `execRemoteCmd` -/
  execCmd : ℕ
  execCmdBuf : Region Byte
  execSize : ℕ
  copies : List Copy

namespace Mailbox

def log (m : Mailbox) (c : Copy) : Mailbox := { m with copies := c :: m.copies }

/-- Offset of `size` in `g_getRemoteCmdParam_t`.  The comments of the source say 58,
but an `int` is aligned to 4. -/
def sizeOffset : ℕ := 60

/-- `sizeof(getRemoteCmdParam)` -/
def paramSize : ℕ := 68

/-- `handleClient`: the command and data of the packet in `pbuf`. -/
def store (pbuf : Region Byte) (ntpbpktSize : ℕ) (m : Mailbox) : Mailbox :=
  let m := { m with remoteCmd := pbuf.u16 8, cmdsize := ntpbpktSize }
  if m.cmdsize = 0 then m
  else { m with cmdbuf := m.cmdbuf.write 0 (pbuf.read hdrSize m.cmdsize) }.log
    ⟨.cmdbuf, 0, m.cmdsize⟩

/-- `_rpcNTPBgetRemoteCmd` on the IOP -/
def fetch (m : Mailbox) : Mailbox :=
  let rpcBuf := m.rpcBuf.put16 0 m.remoteCmd
  let rpcBuf := (rpcBuf.write 2 (m.cmdbuf.read 0 m.cmdsize)).put32 sizeOffset m.cmdsize
  { m with remoteCmd := 0, rpcBuf }.log ⟨.remoteCmdBuf, 0, m.cmdsize⟩

/-- `rpcNTPBgetRemoteCmd` on the EE, once the reply has landed -/
def getRemoteCmd (m : Mailbox) : Mailbox :=
  let param := m.getRemoteCmdParam.write 0 (m.rpcBuf.read 0 paramSize)
  let size := param.u32 sizeOffset
  let m := { m with getRemoteCmdParam := param, execCmd := param.u16 0, execSize := size }
  if size = 0 then m
  else { m with execCmdBuf := m.execCmdBuf.write 0 (param.read 2 size) }.log
    ⟨.execCmdBuf, 0, size⟩

/-- A request on its way from `ntpb_buf` to `execRemoteCmd`. -/
def carry (pbuf : Region Byte) (ntpbpktSize : ℕ) (m : Mailbox) : Mailbox :=
  ((m.store pbuf ntpbpktSize).fetch).getRemoteCmd

end Mailbox

/-- The server at the head of the loop of `handleClient`. -/
structure Head where
  ntpbBuf : Region Byte
  net : Net
  mailbox : Mailbox

namespace Head

/-- One round: the copies it makes and, if the connection lasts, the head of the
next round.  `reply` is what `ntpb_buf` holds when the reply is over. -/
def round (h : Head) (reply : Region Byte) : List Copy × Option Head :=
  match receive (Receiver.idle h.ntpbBuf) h.net.bytes h.net.pieces with
  | (copies, none) => (copies, none)
  | (copies, some (r, net)) =>
      if checkNtpbHeader r.buf then
        let m := { h.mailbox with copies := [] }.carry r.buf (r.packetSize - hdrSize)
        (copies ++ m.copies, some ⟨reply, net, m⟩)
      else (copies, some ⟨r.buf, net, h.mailbox⟩)

/-- The head of round `k`, if the connection lasts so long. -/
def head (h : Head) (reply : ℕ → Region Byte) : ℕ → Option Head
  | 0 => some h
  | k + 1 => (h.head reply k).bind fun h' => (h'.round (reply k)).2

/-- The size field as `handleClient` reads it: after the first `recv`, from
`ntpb_buf`.  If that call brought less than eight bytes, some of it is what the
buffer held before. -/
def sizeField (h : Head) : ℕ :=
  let first := match h.net.pieces with
    | [] => []
    | piece :: _ => h.net.bytes.take (min (piece + 1) ntpbBufSize)
  (h.ntpbBuf.write 0 first).u16 6

/-- The bytes the client gets through before the connection is closed. -/
def delivered (h : Head) : ℕ := min h.net.bytes.length (h.net.pieces.map (· + 1)).sum

/-- A whole packet with the right magic arrives. -/
def Arrives (h : Head) : Prop :=
  h.sizeField + hdrSize ≤ min ntpbBufSize h.delivered ∧ h.net.bytes.take 6 = magic

end Head

/-! ### Receiving -/

/-- `recv` is never asked for more than what is left of `ntpb_buf`. -/
theorem receive_copies_fit (r : Receiver) (bytes : List Byte) (pieces : List ℕ)
    (hr : r.recvSize ≤ ntpbBufSize) : ∀ c ∈ (receive r bytes pieces).1, c.Fits := by
  induction pieces generalizing r bytes with
  | nil => simp [receive]
  | cons piece pieces ih =>
      set chunk := bytes.take (min (piece + 1) r.bsize) with hchunk
      have hlen : r.recvSize + chunk.length ≤ ntpbBufSize := by
        simp only [hchunk, List.length_take, Receiver.bsize]
        omega
      simp only [receive, ← hchunk]
      split_ifs with hempty hcomplete
      · simp
      · simpa [Copy.Fits, Buffer.size] using hlen
      · intro c hc
        rcases List.mem_cons.mp hc with rfl | hc
        · exact hlen
        · exact ih (r.recv chunk) (bytes.drop chunk.length) hlen c hc

theorem Receiver.recv_of_pos {r : Receiver} (hr : 0 < r.recvSize) (chunk : List Byte) :
    r.recv chunk = ⟨r.buf.write r.recvSize chunk, r.recvSize + chunk.length, r.packetSize⟩ := by
  simp [Receiver.recv, hr.ne']

/-- The number of bytes that one `recv` brings. -/
def Receiver.arriving (r : Receiver) (bytes : List Byte) (piece : ℕ) : ℕ :=
  min (min (piece + 1) r.bsize) bytes.length

theorem receive_cons (r : Receiver) (bytes : List Byte) (piece : ℕ) (pieces : List ℕ) {n : ℕ}
    (hn : n = r.arriving bytes piece) :
    (receive r bytes (piece :: pieces)).2 =
      if n = 0 then none
      else if (r.recv (bytes.take n)).complete then
        some (r.recv (bytes.take n), ⟨bytes.drop n, pieces⟩)
      else (receive (r.recv (bytes.take n)) (bytes.drop n) pieces).2 := by
  have hchunk : bytes.take (min (piece + 1) r.bsize) = bytes.take n := by
    rw [hn]
    exact List.take_eq_take_min
  have hlen : (bytes.take n).length = n := by simp [hn, Receiver.arriving]
  have hempty : bytes.take n = [] ↔ n = 0 := by
    rw [← List.length_eq_zero_iff, hlen]
  simp only [receive, hchunk, hempty, hlen]
  split_ifs <;> rfl

/-- What comes of a packet of `size` bytes of which `buf` holds the first `start`: it
is completed exactly when there is room for it and the client gets enough of `bytes`
through, the first `budget` of them. -/
def Outcome (buf : Region Byte) (start size budget : ℕ) (bytes : List Byte)
    (result : Option (Receiver × Net)) : Prop :=
  (∃ m net, result = some (⟨buf.write start (bytes.take m), start + m, size⟩, net) ∧
    size ≤ start + m ∧ m ≤ bytes.length ∧ size ≤ ntpbBufSize ∧ size ≤ start + budget) ∨
  result = none ∧ ¬ (size ≤ ntpbBufSize ∧ size ≤ start + budget)

/-- The first `n` bytes may come in before. -/
theorem Outcome.of_recv {buf : Region Byte} {start size budget budget' n : ℕ} {bytes : List Byte}
    {result : Option (Receiver × Net)} (hn : n ≤ bytes.length)
    (hbudget : size ≤ ntpbBufSize → (size ≤ start + budget ↔ size ≤ start + n + budget'))
    (h : Outcome (buf.write start (bytes.take n)) (start + n) size budget' (bytes.drop n) result) :
    Outcome buf start size budget bytes result := by
  have hlen : (bytes.take n).length = n := by simp [hn]
  rcases h with ⟨m, net, hresult, henough, hm, hroom, hcame⟩ | ⟨hresult, hshort⟩
  · left
    have hwrite : (buf.write start (bytes.take n)).write (start + n) ((bytes.drop n).take m) =
        buf.write start (bytes.take (n + m)) := by
      have happend := write_append buf start (bytes.take n) ((bytes.drop n).take m)
      rwa [hlen, ← List.take_add] at happend
    rw [hwrite, Nat.add_assoc] at hresult
    rw [List.length_drop] at hm
    exact ⟨n + m, net, hresult, by omega, by omega, hroom, (hbudget hroom).mpr hcame⟩
  · right
    exact ⟨hresult, fun hboth => hshort ⟨hboth.1, (hbudget hboth.1).mp hboth.2⟩⟩

/-- The continuation of a packet. -/
theorem receive_of_incomplete (r : Receiver) (bytes : List Byte) (pieces : List ℕ)
    (hr : 0 < r.recvSize) (hmissing : r.recvSize < r.packetSize) :
    Outcome r.buf r.recvSize r.packetSize (min bytes.length (pieces.map (· + 1)).sum) bytes
      (receive r bytes pieces).2 := by
  induction pieces generalizing r bytes with
  | nil =>
      right
      refine ⟨rfl, ?_⟩
      simp
      omega
  | cons piece pieces ih =>
      obtain ⟨n, hn⟩ : ∃ n, n = r.arriving bytes piece := ⟨_, rfl⟩
      rw [receive_cons r bytes piece pieces hn]
      unfold Receiver.arriving Receiver.bsize at hn
      have hlen : (bytes.take n).length = n := by simp [hn]
      have hcomplete : (r.recv (bytes.take n)).complete = true ↔ r.packetSize ≤ r.recvSize + n := by
        simp [Receiver.recv_of_pos hr, Receiver.complete, hlen]
        omega
      rw [Receiver.recv_of_pos hr, hlen] at hcomplete ⊢
      simp only [hcomplete, List.map_cons, List.sum_cons]
      split_ifs with hzero hdone
      · right
        exact ⟨rfl, by omega⟩
      · left
        exact ⟨n, ⟨bytes.drop n, pieces⟩, rfl, hdone, by omega, by omega, by omega⟩
      · refine .of_recv (by omega) (fun _ => ?_) (ih ⟨_, r.recvSize + n, r.packetSize⟩ _ ?_ ?_)
        · rw [List.length_drop]
          omega
        · exact Nat.add_pos_left hr n
        · exact Nat.lt_of_not_le hdone

/-- A packet from its first `recv` on, with or without the right magic. -/
theorem Head.receive_idle (h : Head) :
    Outcome h.ntpbBuf 0 (h.sizeField + hdrSize) h.delivered h.net.bytes
      (receive (Receiver.idle h.ntpbBuf) h.net.bytes h.net.pieces).2 := by
  obtain ⟨buf, ⟨bytes, pieces⟩, mailbox⟩ := h
  cases pieces with
  | nil =>
      right
      simp [receive, delivered, hdrSize]
  | cons piece pieces =>
      obtain ⟨n, hn⟩ : ∃ n, n = (Receiver.idle buf).arriving bytes piece := ⟨_, rfl⟩
      rw [receive_cons _ bytes piece pieces hn]
      have hlen : (bytes.take n).length = n := by simp [hn, Receiver.arriving]
      have hfield : sizeField ⟨buf, ⟨bytes, piece :: pieces⟩, mailbox⟩ =
          (buf.write 0 (bytes.take n)).u16 6 := by
        have hchunk : bytes.take (min (piece + 1) ntpbBufSize) = bytes.take n := by
          rw [hn]
          exact List.take_eq_take_min
        simp only [sizeField, hchunk]
      have hrecv : (Receiver.idle buf).recv (bytes.take n) =
          ⟨buf.write 0 (bytes.take n), n, (buf.write 0 (bytes.take n)).u16 6 + hdrSize⟩ := by
        simp [Receiver.recv, Receiver.idle, hlen]
      rw [hrecv, hfield]
      generalize hsize : (buf.write 0 (bytes.take n)).u16 6 + hdrSize = size
      have hhdr : 10 ≤ size := hsize ▸ Nat.le_add_left _ _
      -- the sizes are compared with the facts below, without the value of `ntpbBufSize`
      obtain ⟨hnpiece, hnbuf, hnbytes, hneq⟩ : n ≤ piece + 1 ∧ n ≤ ntpbBufSize ∧
          n ≤ bytes.length ∧ (n = piece + 1 ∨ n = ntpbBufSize ∨ n = bytes.length) := by
        rw [hn, Receiver.arriving, Receiver.bsize, Receiver.idle, Nat.sub_zero]
        generalize ntpbBufSize = room
        omega
      clear hrecv hfield hn
      have hbuf : 0 < ntpbBufSize := by decide
      simp only [Receiver.complete, Bool.and_eq_true, decide_eq_true_eq, delivered, List.map_cons,
        List.sum_cons]
      split_ifs with hzero hdone
      · right
        exact ⟨rfl, by omega⟩
      · left
        refine ⟨n, ⟨bytes.drop n, pieces⟩, ?_, by omega, by omega, by omega, by omega⟩
        rw [Nat.zero_add]
      · have hrest := receive_of_incomplete ⟨buf.write 0 (bytes.take n), n, size⟩ (bytes.drop n)
          pieces (Nat.pos_of_ne_zero hzero) (by dsimp only; omega)
        rw [List.length_drop] at hrest
        refine .of_recv hnbytes (fun _ => ?_) (by rwa [Nat.zero_add])
        omega

/-! ### Carrying on -/

namespace Mailbox

/-- The size reaches the EE whatever the copy before it overwrote. -/
theorem u32_param (m : Mailbox) (hsize : m.cmdsize < 2 ^ 32) :
    (m.fetch.getRemoteCmdParam.write 0 (m.fetch.rpcBuf.read 0 paramSize)).u32 sizeOffset =
      m.cmdsize := by
  rw [u32, read_write_read _ _ (by decide)]
  exact (u32_put32_self _ sizeOffset m.cmdsize).trans (Nat.mod_eq_of_lt hsize)

/-- The copies of the poll that fetches a request. -/
theorem copies_getRemoteCmd_fetch (m : Mailbox) (hsize : m.cmdsize < 2 ^ 32) :
    m.fetch.getRemoteCmd.copies = if m.cmdsize = 0 then ⟨.remoteCmdBuf, 0, 0⟩ :: m.copies
      else ⟨.execCmdBuf, 0, m.cmdsize⟩ :: ⟨.remoteCmdBuf, 0, m.cmdsize⟩ :: m.copies := by
  simp only [getRemoteCmd, u32_param m hsize]
  split_ifs with hzero
  · simp [fetch, log, hzero]
  · rfl

@[simp]
theorem cmdsize_store (m : Mailbox) (pbuf : Region Byte) (n : ℕ) :
    (m.store pbuf n).cmdsize = n := by
  simp only [store]
  split_ifs <;> rfl

@[simp]
theorem remoteCmd_store (m : Mailbox) (pbuf : Region Byte) (n : ℕ) :
    (m.store pbuf n).remoteCmd = pbuf.u16 8 := by
  simp only [store]
  split_ifs <;> rfl

theorem read_cmdbuf_store (m : Mailbox) (pbuf : Region Byte) (n : ℕ) :
    (m.store pbuf n).cmdbuf.read 0 n = pbuf.read hdrSize n := by
  simp only [store]
  split_ifs with hzero
  · simp [hzero, Region.read]
  · exact read_write_of_length _ 0 (length_read _ _ _)

/-- All three copies have the size of the size field, so the smallest array decides. -/
theorem carry_copies_fit_iff (m : Mailbox) (pbuf : Region Byte) {n : ℕ} (hn : n < 2 ^ 32) :
    (∀ c ∈ ({ m with copies := [] }.carry pbuf n).copies, c.Fits) ↔ n ≤ 56 := by
  rw [carry, copies_getRemoteCmd_fetch _ (by simpa using hn), cmdsize_store]
  rcases Nat.eq_zero_or_pos n with rfl | hpos
  · simp [store, Copy.Fits]
  · simp [store, log, hpos.ne', Copy.Fits, Buffer.size]
    omega

theorem execCmd_getRemoteCmd_fetch (m : Mailbox) :
    m.fetch.getRemoteCmd.execCmd = m.remoteCmd % 2 ^ 16 := by
  have hparam : (m.fetch.getRemoteCmdParam.write 0 (m.fetch.rpcBuf.read 0 paramSize)).u16 0 =
      m.remoteCmd % 2 ^ 16 := by
    rw [u16, read_write_read _ _ (by decide)]
    simp only [fetch, log, put32]
    rw [read_write_of_disjoint _ (by simp [sizeOffset]), read_write_of_disjoint _ (by simp)]
    exact u16_put16_self m.rpcBuf 0 m.remoteCmd
  simp only [getRemoteCmd]
  split_ifs <;> exact hparam

/-- Up to 56 bytes the copy into the parameter leaves the size field alone. -/
theorem read_execCmdBuf_getRemoteCmd_fetch (m : Mailbox) (hsize : m.cmdsize ≤ 56) :
    m.fetch.getRemoteCmd.execCmdBuf.read 0 m.cmdsize = m.cmdbuf.read 0 m.cmdsize := by
  have hparam : (m.fetch.getRemoteCmdParam.write 0 (m.fetch.rpcBuf.read 0 paramSize)).read 2
      m.cmdsize = m.cmdbuf.read 0 m.cmdsize := by
    rw [read_write_read _ _ (by simp [paramSize]; omega)]
    simp only [fetch, log, put32]
    rw [read_write_of_disjoint _ (by simp [sizeOffset]; omega)]
    exact read_write_of_length _ 2 (length_read _ _ _)
  simp only [getRemoteCmd, u32_param m (by omega)]
  split_ifs with hzero
  · simp [hzero, Region.read]
  · exact (read_write_of_length _ 0 (length_read _ _ _)).trans hparam

theorem execCmd_carry (m : Mailbox) (pbuf : Region Byte) (n : ℕ) :
    (m.carry pbuf n).execCmd = pbuf.u16 8 := by
  rw [carry, execCmd_getRemoteCmd_fetch, remoteCmd_store, Nat.mod_eq_of_lt (u16_lt _ _)]

/-- A request of at most 56 bytes reaches `execRemoteCmd` with its own command and data. -/
theorem carry_delivers (m : Mailbox) (pbuf : Region Byte) {n : ℕ} (hn : n ≤ 56) :
    (m.carry pbuf n).execCmd = pbuf.u16 8 ∧
      (m.carry pbuf n).execCmdBuf.read 0 n = pbuf.read hdrSize n := by
  have hdata := read_execCmdBuf_getRemoteCmd_fetch (m.store pbuf n) (by simpa using hn)
  rw [cmdsize_store, read_cmdbuf_store] at hdata
  exact ⟨m.execCmd_carry pbuf n, hdata⟩

end Mailbox

/-! ### Rounds of `handleClient` -/

namespace Head

/-- The magic is checked in `ntpb_buf`, but all of it came over the network. -/
theorem checkNtpbHeader_iff (h : Head) {m : ℕ} (hm : 10 ≤ m) (hle : m ≤ h.net.bytes.length) :
    checkNtpbHeader (h.ntpbBuf.write 0 (h.net.bytes.take m)) = true ↔
      h.net.bytes.take 6 = magic := by
  rw [checkNtpbHeader, beq_iff_eq, read_write_within _ (Nat.zero_le 0) (by simp; omega),
    Nat.sub_zero, List.drop_zero, List.take_take, min_eq_left (by omega)]

theorem sizeField_lt (h : Head) : h.sizeField < 2 ^ 16 := u16_lt _ _

/-- The copies of a round that have nothing to do with receiving stay inside their
arrays exactly when the packet, if there is one, carries at most 56 bytes. -/
theorem round_copies_fit_iff (h : Head) (reply : Region Byte) :
    (∀ c ∈ (h.round reply).1, c.Fits) ↔ (h.Arrives → h.sizeField ≤ 56) := by
  have hrecv := receive_copies_fit (Receiver.idle h.ntpbBuf) h.net.bytes h.net.pieces
    (Nat.zero_le _)
  unfold round Arrives
  have houtcome := h.receive_idle
  rw [Outcome, Nat.zero_add, ← le_min_iff] at houtcome
  rcases houtcome with ⟨m, net, hresult, henough, hm, hroom⟩ | ⟨hresult, hshort⟩
  · have hsplit : receive (Receiver.idle h.ntpbBuf) h.net.bytes h.net.pieces =
        ((receive (Receiver.idle h.ntpbBuf) h.net.bytes h.net.pieces).1, some _) :=
      Prod.ext rfl hresult
    have hhdr : hdrSize = 10 := rfl
    rw [hsplit]
    simp only [checkNtpbHeader_iff h (show 10 ≤ m by omega) hm, Nat.add_sub_cancel]
    have hlt := h.sizeField_lt
    split_ifs with hmagic
    · have hcarry := h.mailbox.carry_copies_fit_iff (h.ntpbBuf.write 0 (h.net.bytes.take m))
        (show h.sizeField < 2 ^ 32 by omega)
      simp only [List.mem_append, or_imp, forall_and, hcarry, hroom, hmagic, and_self,
        forall_const]
      exact and_iff_right hrecv
    · exact iff_of_true hrecv fun harrives => absurd harrives.2 hmagic
  · have hsplit : receive (Receiver.idle h.ntpbBuf) h.net.bytes h.net.pieces =
        ((receive (Receiver.idle h.ntpbBuf) h.net.bytes h.net.pieces).1, none) :=
      Prod.ext rfl hresult
    rw [hsplit]
    exact iff_of_true hrecv fun harrives => absurd harrives.1 hshort

/-- Every copy that a request is carried onward by, in every round, stays inside its array. -/
def RequestsFit (h : Head) (reply : ℕ → Region Byte) : Prop :=
  ∀ k h', h.head reply k = some h' → ∀ c ∈ (h'.round (reply k)).1, c.Fits

/-- No request overruns a buffer exactly when no packet that arrives announces more
than the 56 bytes of the RPC parameter. -/
theorem requestsFit_iff (h : Head) (reply : ℕ → Region Byte) :
    h.RequestsFit reply ↔
      ∀ k h', h.head reply k = some h' → h'.Arrives → h'.sizeField ≤ 56 :=
  forall₃_congr fun k h' _ => h'.round_copies_fit_iff (reply k)

/-- A client that sends one request with 300 bytes of data, all in one piece. -/
def longRequest : Head where
  ntpbBuf := fun _ => 0
  net := ⟨packet 0x100 (List.replicate 300 0x41), [309]⟩
  mailbox := ⟨0, fun _ => 0, 0, fun _ => 0, fun _ => 0, 0, fun _ => 0, 0, []⟩

/-- The 300 bytes do not fit into `cmdbuf`, nor into anything behind it. -/
theorem longRequest_not_requestsFit : ¬ longRequest.RequestsFit fun _ _ => 0 := by
  intro hfits
  have hsize : longRequest.sizeField = 300 := by decide +kernel
  have harrives : longRequest.Arrives := by
    unfold Arrives
    decide +kernel
  have hle := (longRequest.round_copies_fit_iff _).mp (hfits 0 longRequest rfl) harrives
  omega

end Head

end Ps2rd.Ntpb
