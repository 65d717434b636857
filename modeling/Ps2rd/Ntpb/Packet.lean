import Ps2rd.Basic
import Ps2rd.Lib.Region

/-!
# NTPB packets

The wire format that the PC client and the server on the IOP share: six bytes of
magic, a 16-bit size of the data, a 16-bit command, the data.  Numbers are
little-endian on both sides.

`Receiver` is the receive loop that `handleClient`, `ntpbserverSendData` and
`ntpbserverEndReply` have in common.  It reads the size field once, after the
first `recv`, whatever that call brought.
-/

namespace Ps2rd.Ntpb

open Region

/-- `ntpb_hdrmagic`, `NTPB_MAGIC` -/
def magic : List Byte := [0xff, 0x00, 0x4e, 0x54, 0x50, 0x42]

/-- `ntpb_hdrSize`, `NTPB_HDR_SIZE` -/
def hdrSize : ℕ := 10

/-- `sizeof(ntpb_buf)` -/
def ntpbBufSize : ℕ := 4096

/-- `SignalSema` on `ntpbserver_io_sema` or `ntpbserver_cmd_sema`, whose maximum is 1 -/
def signal (count : ℕ) : ℕ := min 1 (count + 1)

/-- The arrays that data passes through on its way between the PC and the EE. -/
inductive Buffer
  /-- `g_buf[BUFSIZE]` on the EE -/
  | gBuf
  /-- `sendDataParam.buf[4090]` on the EE -/
  | sendDataBuf
  /-- `ntpbserver_rpc_buf[4096]` on the IOP -/
  | rpcBuf
  /-- `ntpb_buf[4096]` on the IOP -/
  | ntpbBuf
  /-- `cmdbuf[256]` on the IOP -/
  | cmdbuf
  /-- `g_getRemoteCmdParam.buf[56]` on the IOP -/
  | remoteCmdBuf
  /-- `cmd_buf[64]` of `execRemoteCmd` on the EE -/
  | execCmdBuf
  deriving DecidableEq, Repr

def Buffer.size : Buffer → ℕ
  | .gBuf => 80 * 1024
  | .sendDataBuf => 4090
  | .rpcBuf => 4096
  | .ntpbBuf => ntpbBufSize
  | .cmdbuf => 256
  | .remoteCmdBuf => 56
  | .execCmdBuf => 64

/-- A copy of `len` bytes to offset `off` of an array. -/
structure Copy where
  dst : Buffer
  off : ℕ
  len : ℕ
  deriving DecidableEq, Repr

/-- The copy ends inside its array. -/
def Copy.Fits (c : Copy) : Prop := c.off + c.len ≤ c.dst.size

instance (c : Copy) : Decidable c.Fits := inferInstanceAs (Decidable (_ ≤ _))

/-- A packet as its receiver understands it: the command and the data. -/
abbrev Msg := ℕ × List Byte

/-- The packet that carries `data` under `cmd`. -/
def packet (cmd : ℕ) (data : List Byte) : List Byte :=
  magic ++ leBytes 2 data.length ++ leBytes 2 cmd ++ data

@[simp]
theorem length_magic : magic.length = 6 := rfl

@[simp]
theorem length_packet (cmd : ℕ) (data : List Byte) :
    (packet cmd data).length = data.length + 10 := by
  simp [packet]
  omega

/-- A 16-bit field of a packet is found at the length of what stands before it. -/
theorem leNat_field (front back : List Byte) {v : ℕ} (hv : v < 2 ^ 16) :
    leNat (((front ++ leBytes 2 v ++ back).drop front.length).take 2) = v := by
  rw [List.append_assoc, List.drop_left, List.take_left' (length_leBytes 2 v),
    leNat_leBytes]
  exact Nat.mod_eq_of_lt hv

theorem leNat_size_packet (cmd : ℕ) {data : List Byte} (hdata : data.length < 2 ^ 16) :
    leNat (((packet cmd data).drop 6).take 2) = data.length := by
  have h := leNat_field magic (leBytes 2 cmd ++ data) hdata
  rwa [← List.append_assoc] at h

theorem leNat_cmd_packet {cmd : ℕ} (data : List Byte) (hcmd : cmd < 2 ^ 16) :
    leNat (((packet cmd data).drop 8).take 2) = cmd :=
  leNat_field (magic ++ leBytes 2 data.length) data hcmd

@[simp]
theorem drop_packet (cmd : ℕ) (data : List Byte) : (packet cmd data).drop hdrSize = data :=
  List.drop_left' (by simp [hdrSize])

/-- The server's stores to `ntpb_buf` put the packet there. -/
theorem write_packet (buf : Region Byte) (cmd : ℕ) (data : List Byte) :
    (((buf.write 0 magic).put16 6 data.length).put16 8 cmd).write 10 data =
      buf.write 0 (packet cmd data) := by
  have hsize : (buf.write 0 magic).put16 6 data.length =
      buf.write 0 (magic ++ leBytes 2 data.length) := write_append buf 0 magic _
  have hcmd : (buf.write 0 (magic ++ leBytes 2 data.length)).put16 8 cmd =
      buf.write 0 (magic ++ leBytes 2 data.length ++ leBytes 2 cmd) := write_append buf 0 _ _
  rw [hsize, hcmd]
  exact write_append buf 0 (magic ++ leBytes 2 data.length ++ leBytes 2 cmd) data

theorem write_packet_nil (buf : Region Byte) (cmd : ℕ) :
    ((buf.write 0 magic).put16 6 0).put16 8 cmd = buf.write 0 (packet cmd []) := by
  rw [← write_packet, write_nil]
  rfl

/-- `check_ntpb_header` -/
def checkNtpbHeader (buf : Region Byte) : Bool := buf.read 0 6 == magic

/-- What the server finds in `ntpb_buf` once a packet is there. -/
theorem read_of_packet (buf : Region Byte) {cmd : ℕ} (data : List Byte) (hcmd : cmd < 2 ^ 16) :
    checkNtpbHeader (buf.write 0 (packet cmd data)) = true ∧
      (buf.write 0 (packet cmd data)).u16 8 = cmd ∧
      (buf.write 0 (packet cmd data)).read hdrSize data.length = data := by
  have hread : ∀ off n, off + n ≤ data.length + 10 →
      (buf.write 0 (packet cmd data)).read off n = ((packet cmd data).drop off).take n := by
    intro off n hn
    exact read_write_within buf (Nat.zero_le off) (by simpa using hn)
  refine ⟨?_, ?_, ?_⟩
  · rw [checkNtpbHeader, hread 0 6 (by omega), packet, List.append_assoc, List.append_assoc]
    rfl
  · rw [u16, hread 8 2 (by omega), leNat_cmd_packet data hcmd]
  · rw [hread _ _ (by unfold hdrSize; omega), drop_packet, List.take_length]

/-- The receive loop of the server: `ntpb_buf`, the bytes received of the packet
so far, and the packet's size as computed after the first `recv`. -/
structure Receiver where
  buf : Region Byte
  recvSize : ℕ
  packetSize : ℕ

namespace Receiver

/-- Before the first `recv` of a packet. -/
def idle (buf : Region Byte) : Receiver := ⟨buf, 0, 0⟩

/-- The size that is passed to `recv`. -/
def bsize (r : Receiver) : ℕ := ntpbBufSize - r.recvSize

/-- `recv` returned the bytes `chunk`. -/
def recv (r : Receiver) (chunk : List Byte) : Receiver :=
  let buf := r.buf.write r.recvSize chunk
  { buf
    recvSize := r.recvSize + chunk.length
    packetSize := if r.recvSize = 0 then buf.u16 6 + hdrSize else r.packetSize }

/-- The loop is left: there was a first `recv` and nothing is missing. -/
def complete (r : Receiver) : Bool := 0 < r.recvSize && r.packetSize ≤ r.recvSize

end Receiver

end Ps2rd.Ntpb
