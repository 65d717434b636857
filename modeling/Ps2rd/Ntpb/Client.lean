import Ps2rd.Ntpb.Packet

/-!
# The PC client

`ntpbclient` sends one command and then collects the reply with
`ntpb_recv_data`, which acknowledges every packet and stops after the one that
ends the reply.
-/

namespace Ps2rd.Ntpb

open Region

/-- `NTPB_DUMP` -/
def cmdDump : ℕ := 0x0100

/-- `NTPB_SEND_DUMP`, `NTPBCMD_SEND_DUMP` -/
def cmdSendDump : ℕ := 0x0300

/-- `NTPB_EOT` -/
def cmdEot : ℕ := 0xffff

/-- The acknowledgement `ntpb_recv_data` sends.  Its size field is the length of
the *decimal text* of `NTPB_ACK`, that is 1, although two bytes follow the header. -/
def ack : List Byte := magic ++ leBytes 2 1 ++ leBytes 2 cmdEot ++ leBytes 2 1

namespace Client

/-- `BUFSIZE` -/
def bufSize : ℕ := 65536

/-- `unpack("… S …", $buf)` at offset `off`: Perl takes a field that the string
is too short for as undefined, which is 0 in arithmetic. -/
def unpackS (buf : List Byte) (off : ℕ) : ℕ :=
  if off + 2 ≤ buf.length then leNat ((buf.drop off).take 2) else 0

/-- The receive loop of `ntpb_recv_data`: `$buf`, and `$size` and `$cmd` as
unpacked from what the first `recv` brought. -/
structure Receiver where
  buf : List Byte
  size : ℕ
  cmd : ℕ

namespace Receiver

/-- Before the first `recv` of a packet. -/
def idle : Receiver := ⟨[], 0, 0⟩

/-- The size that is passed to `recv`. -/
def bsize (r : Receiver) : ℕ := bufSize - r.buf.length

/-- `recv` returned the bytes `chunk`. -/
def recv (r : Receiver) (chunk : List Byte) : Receiver :=
  if r.buf = [] then ⟨chunk, unpackS chunk 6 + hdrSize, unpackS chunk 8⟩
  else { r with buf := r.buf ++ chunk }

/-- The loop is left: there was a first `recv` and nothing is missing. -/
def complete (r : Receiver) : Bool := r.buf ≠ [] && r.size ≤ r.buf.length

end Receiver

/-- What `ntpb_recv_data` has collected. -/
structure Download where
  file : List Byte
  eot : Bool

/-- The part of the loop after a packet is complete. -/
def Download.take (d : Download) (r : Receiver) : Download :=
  if r.cmd = cmdSendDump then { d with file := d.file ++ r.buf.drop hdrSize }
  else if r.cmd = cmdEot then { d with eot := true }
  else d

end Client

theorem Client.unpackS_size (cmd : ℕ) {data : List Byte} (hdata : data.length < 2 ^ 16) :
    Client.unpackS (packet cmd data) 6 = data.length := by
  rw [Client.unpackS, if_pos (by simp), leNat_size_packet cmd hdata]

theorem Client.unpackS_cmd {cmd : ℕ} (data : List Byte) (hcmd : cmd < 2 ^ 16) :
    Client.unpackS (packet cmd data) 8 = cmd := by
  rw [Client.unpackS, if_pos (by simp), leNat_cmd_packet data hcmd]

/-- A field is unpacked from any piece of the packet that holds it. -/
theorem Client.unpackS_take {bytes : List Byte} {off n : ℕ} (hn : off + 2 ≤ n)
    (hle : n ≤ bytes.length) : Client.unpackS (bytes.take n) off = Client.unpackS bytes off := by
  have htake : off + 2 ≤ (bytes.take n).length := by simp; omega
  rw [Client.unpackS, Client.unpackS, if_pos htake, if_pos (by omega), List.drop_take,
    List.take_take, min_eq_left (by omega)]

/-- A packet that arrives whole is complete, under its own size and command. -/
theorem Client.recv_packet (cmd : ℕ) (data : List Byte) (hcmd : cmd < 2 ^ 16)
    (hdata : data.length < 2 ^ 16) :
    Client.Receiver.idle.recv (packet cmd data) = ⟨packet cmd data, data.length + 10, cmd⟩ := by
  simp [Client.Receiver.recv, Client.Receiver.idle, Client.unpackS_size cmd hdata,
    Client.unpackS_cmd data hcmd, hdrSize]

/-- What the server finds in `ntpb_buf` once an acknowledgement is there. -/
theorem read_of_ack (buf : Region Byte) :
    checkNtpbHeader (buf.write 0 ack) = true ∧ (buf.write 0 ack).u16 6 = 1 ∧
      (buf.write 0 ack).u16 8 = cmdEot ∧ (buf.write 0 ack).read hdrSize 2 = leBytes 2 1 := by
  have hread : ∀ off n, off + n ≤ 12 → (buf.write 0 ack).read off n = (ack.drop off).take n := by
    intro off n hn
    exact read_write_within buf (Nat.zero_le off) hn
  refine ⟨?_, ?_, ?_, ?_⟩
  · rw [checkNtpbHeader, hread 0 6 (by decide)]
    decide
  · rw [u16, hread 6 2 (by decide)]
    decide
  · rw [u16, hread 8 2 (by decide)]
    decide
  · rw [hdrSize, hread 10 2 (by decide)]
    decide

theorem u16_ack (buf : Region Byte) : (buf.write 0 ack).u16 hdrSize = 1 := by
  rw [u16, (read_of_ack buf).2.2.2, leNat_leBytes]
  rfl

/-- The acknowledgement that arrives whole is complete. -/
theorem recv_ack (buf : Region Byte) :
    (Receiver.idle buf).recv ack = ⟨buf.write 0 ack, 12, 11⟩ := by
  simp only [Receiver.recv, Receiver.idle, (read_of_ack buf).2.1]
  rfl

end Ps2rd.Ntpb
