import Ps2rd.Ntpb.Connection

/-!
# Framing

A stream of NTPB packets can be cut into packets by their size fields, provided that
each side puts the number of data bytes there.  Five places of the two programs build
packets; three of them do.
-/

namespace Ps2rd.Ntpb

open Region

/-! ### Decoding by lengths -/

/-- The packet at the head of a stream, and the rest of the stream. -/
def decodeOne (stream : List Byte) : Option (Msg × List Byte) :=
  let size := leNat ((stream.drop 6).take 2)
  if stream.take 6 = magic ∧ hdrSize + size ≤ stream.length then
    some ((leNat ((stream.drop 8).take 2), (stream.drop hdrSize).take size),
      stream.drop (hdrSize + size))
  else none

theorem length_lt_of_decodeOne {stream rest : List Byte} {m : Msg}
    (h : decodeOne stream = some (m, rest)) : rest.length < stream.length := by
  unfold decodeOne at h
  dsimp only at h
  split_ifs at h with hhead
  cases h
  rw [List.length_drop]
  unfold hdrSize at hhead ⊢
  omega

/-- All packets of a stream, if there is nothing else in it. -/
def decode (stream : List Byte) : Option (List Msg) :=
  if stream = [] then some [] else
    match _hone : decodeOne stream with
    | none => none
    | some (m, rest) => (decode rest).map (m :: ·)
termination_by stream.length
decreasing_by exact length_lt_of_decodeOne _hone

theorem decodeOne_packet {cmd : ℕ} {data : List Byte} (hcmd : cmd < 2 ^ 16)
    (hdata : data.length < 2 ^ 16) (rest : List Byte) :
    decodeOne (packet cmd data ++ rest) = some ((cmd, data), rest) := by
  have hlen : (packet cmd data).length = hdrSize + data.length := by
    rw [length_packet, hdrSize, Nat.add_comm]
  -- every field lies in the packet, whatever follows it
  have hfield : ∀ off, off + 2 ≤ hdrSize →
      ((packet cmd data ++ rest).drop off).take 2 = ((packet cmd data).drop off).take 2 := by
    intro off hoff
    have hle : off ≤ (packet cmd data).length := by omega
    rw [List.drop_append_of_le_length hle, List.take_append_of_le_length]
    rw [List.length_drop]
    omega
  have hsize := leNat_size_packet cmd hdata
  have hword := leNat_cmd_packet data hcmd
  have hmagic : (packet cmd data ++ rest).take 6 = magic := by
    rw [packet, List.append_assoc, List.append_assoc, List.append_assoc]
    exact List.take_left' length_magic
  unfold decodeOne
  dsimp only
  rw [hfield 6 (by decide), hfield 8 (by decide), hsize, hword, if_pos ⟨hmagic, by simp [hlen]⟩,
    List.drop_append_of_le_length (by omega), drop_packet, List.take_left' rfl,
    List.drop_left' hlen]

theorem decode_packet {cmd : ℕ} {data : List Byte} (hcmd : cmd < 2 ^ 16)
    (hdata : data.length < 2 ^ 16) (rest : List Byte) :
    decode (packet cmd data ++ rest) = (decode rest).map ((cmd, data) :: ·) := by
  have hne : packet cmd data ++ rest ≠ [] := by simp [packet, magic]
  rw [decode, if_neg hne]
  split
  · next hnone =>
      rw [decodeOne_packet hcmd hdata] at hnone
      cases hnone
  · next m rest' hone =>
      rw [decodeOne_packet hcmd hdata] at hone
      cases hone
      rfl

/-! ### The builders -/

/-- `$buf ||= ""`: Perl takes an undefined string for false, and the strings of no
character and of the character `0`. -/
def orEmpty : Option (List Byte) → List Byte
  | none => []
  | some buf => if buf = [] ∨ buf = [0x30] then [] else buf

/-- What `ntpb_send_cmd` sends. -/
def ntpbSendCmd (cmd : ℕ) (buf : Option (List Byte)) : List Byte :=
  let buf := orEmpty buf
  magic ++ (leBytes 2 buf.length ++ leBytes 2 cmd) ++ buf

/-- The response of `handleClient` to a request with command `cmd`. -/
def responseBytes (cmd : ℕ) : List Byte :=
  magic ++ leBytes 2 0 ++ leBytes 2 cmd ++ leBytes 2 1

@[simp]
theorem length_responseBytes (cmd : ℕ) : (responseBytes cmd).length = hdrSize + 2 := by
  simp [responseBytes, hdrSize]

/-- Its stores leave the magic and the command of the request in place. -/
theorem read_response {pbuf : Region Byte} (hheader : checkNtpbHeader pbuf = true) :
    ((pbuf.put16 6 0).put16 hdrSize 1).read 0 (hdrSize + 2) = responseBytes (pbuf.u16 8) := by
  have hmagic : pbuf.read 0 6 = magic := by simpa [checkNtpbHeader] using hheader
  have hsplit : hdrSize + 2 = 6 + 2 + 2 + 2 := rfl
  rw [hsplit, read_add, read_add, read_add]
  have hfirst : ((pbuf.put16 6 0).put16 hdrSize 1).read 0 6 = magic := by
    rw [put16, read_write_of_disjoint _ (by simp [hdrSize]), put16,
      read_write_of_disjoint _ (by simp), hmagic]
  have hsize : ((pbuf.put16 6 0).put16 hdrSize 1).read 6 2 = leBytes 2 0 := by
    rw [put16, read_write_of_disjoint _ (by simp [hdrSize]), put16,
      read_write_of_length _ _ (length_leBytes 2 0)]
  have hcmd : ((pbuf.put16 6 0).put16 hdrSize 1).read 8 2 = leBytes 2 (pbuf.u16 8) := by
    rw [put16, read_write_of_disjoint _ (by simp [hdrSize]), put16,
      read_write_of_disjoint _ (by simp), leBytes_u16]
  have hdata : ((pbuf.put16 6 0).put16 hdrSize 1).read 10 2 = leBytes 2 1 :=
    read_write_of_length _ _ (length_leBytes 2 1)
  rw [hfirst, hsize, hcmd, hdata]
  rfl

/-- A place that builds a packet, with what it is given there.  `ntpb_buf` holds
anything, except that `handleClient` answers only a packet with the magic. -/
inductive Builder
  | sendCmd (cmd : ℕ) (buf : Option (List Byte))
  | recvDataAck
  | response (pbuf : Region Byte) (hheader : checkNtpbHeader pbuf = true)
  | sendData (ntpbBuf : Region Byte) (cmd : ℕ) (buf : List Byte)
  | endReply (ntpbBuf : Region Byte)

namespace Builder

/-- The bytes that go out, as long as the packet is built inside `ntpb_buf` and no send
fails. -/
def sent : Builder → Option (List Byte)
  | sendCmd cmd buf => some (ntpbSendCmd cmd buf)
  | recvDataAck => some ack
  | response pbuf _ =>
      let pbuf := (pbuf.put16 6 0).put16 hdrSize 1
      some (pbuf.read 0 (hdrSize + 2))
  | sendData ntpbBuf cmd buf =>
      let ntpbBuf := (((ntpbBuf.write 0 magic).put16 6 buf.length).put16 8 cmd).write hdrSize buf
      if (Copy.mk .ntpbBuf hdrSize buf.length).Fits then
        some (ntpbBuf.read 0 (buf.length + hdrSize))
      else none
  | endReply ntpbBuf =>
      let ntpbBuf := ((ntpbBuf.write 0 magic).put16 6 0).put16 8 cmdEot
      some (ntpbBuf.read 0 hdrSize)

/-- The command and the data that the packet is built for.  The answers carry the word 1
as data; the one of `handleClient` repeats the command of the request. -/
def msg : Builder → Msg
  | sendCmd cmd buf => (cmd, buf.getD [])
  | recvDataAck => ackMsg
  | response pbuf _ => (pbuf.u16 8, leBytes 2 1)
  | sendData _ cmd buf => (cmd, buf)
  | endReply _ => eot

/-- Command and data length have 16 bits. -/
structure Fits (b : Builder) : Prop where
  cmd : b.msg.1 < 2 ^ 16
  data : b.msg.2.length < 2 ^ 16

/-- Where the size field is right: not in the two answers. -/
def Sized : Builder → Prop
  | sendCmd _ buf => buf ≠ some [0x30]
  | recvDataAck => False
  | response _ _ => False
  | sendData _ _ buf => buf.length + hdrSize ≤ ntpbBufSize
  | endReply _ => True

theorem sent_sendCmd_iff (cmd : ℕ) (buf : Option (List Byte)) :
    (sendCmd cmd buf).sent = some (sendCmd cmd buf).msg.bytes ↔ buf ≠ some [0x30] := by
  have hsent : (sendCmd cmd buf).sent = some (packet cmd (orEmpty buf)) := by
    simp [sent, ntpbSendCmd, packet]
  rw [hsent, Option.some_inj]
  constructor
  · rintro h rfl
    have hlen := congrArg List.length h
    simp [orEmpty, msg] at hlen
  · intro hne
    have hor : orEmpty buf = buf.getD [] := by
      cases buf with
      | none => rfl
      | some buf =>
          by_cases hempty : buf = []
          · rw [hempty]
            rfl
          · rw [orEmpty, if_neg]
            · rfl
            · rintro (h | h)
              · exact hempty h
              · exact hne (congrArg some h)
    rw [hor]
    rfl

/-- The acknowledgement says one byte of data. -/
theorem sent_recvDataAck : recvDataAck.sent ≠ some recvDataAck.msg.bytes := by
  decide

/-- The response says that it has no data. -/
theorem sent_response (pbuf : Region Byte) (hheader : checkNtpbHeader pbuf = true) :
    (response pbuf hheader).sent ≠ some (response pbuf hheader).msg.bytes := by
  have hsent : (response pbuf hheader).sent = some (responseBytes (pbuf.u16 8)) := by
    rw [sent, read_response hheader]
  intro h
  rw [hsent, Option.some_inj] at h
  simp [responseBytes, packet, msg, leBytes] at h

theorem sent_sendData_iff (ntpbBuf : Region Byte) (cmd : ℕ) (buf : List Byte) :
    (sendData ntpbBuf cmd buf).sent = some (sendData ntpbBuf cmd buf).msg.bytes ↔
      buf.length + hdrSize ≤ ntpbBufSize := by
  have hfits : (Copy.mk .ntpbBuf hdrSize buf.length).Fits ↔ buf.length + hdrSize ≤ ntpbBufSize := by
    rw [Copy.Fits, Nat.add_comm]
    rfl
  rw [sent, ← hfits]
  split_ifs with h
  · refine iff_of_true ?_ h
    have hpacket : (((ntpbBuf.write 0 magic).put16 6 buf.length).put16 8 cmd).write hdrSize buf =
        ntpbBuf.write 0 (packet cmd buf) := write_packet ntpbBuf cmd buf
    rw [hpacket, read_write_of_length _ _ (by simp [hdrSize])]
    rfl
  · exact iff_of_false (by simp) h

theorem sent_endReply (ntpbBuf : Region Byte) :
    (endReply ntpbBuf).sent = some (endReply ntpbBuf).msg.bytes := by
  rw [sent, write_packet_nil, read_write_of_length _ _ (by simp [hdrSize])]
  rfl

theorem sent_iff (b : Builder) : b.sent = some b.msg.bytes ↔ b.Sized := by
  cases b with
  | sendCmd cmd buf => exact sent_sendCmd_iff cmd buf
  | recvDataAck => exact iff_of_false sent_recvDataAck not_false
  | response pbuf hheader => exact iff_of_false (sent_response pbuf hheader) not_false
  | sendData ntpbBuf cmd buf => exact sent_sendData_iff ntpbBuf cmd buf
  | endReply ntpbBuf => exact iff_of_true (sent_endReply ntpbBuf) trivial

/-- The stream that the builders send one after the other. -/
def stream : List Builder → Option (List Byte)
  | [] => some []
  | b :: bs => b.sent.bind fun bytes => (stream bs).map (bytes ++ ·)

theorem decode_stream {bs : List Builder} (hfits : ∀ b ∈ bs, b.Fits)
    (hsent : ∀ b ∈ bs, b.sent = some b.msg.bytes) :
    (stream bs).bind decode = some (bs.map msg) := by
  have hstream : stream bs = some (bs.flatMap fun b => b.msg.bytes) := by
    clear hfits
    induction bs with
    | nil => rfl
    | cons b bs ih =>
        rw [stream, hsent b (by simp), Option.bind_some, ih fun c hc => hsent c (by simp [hc])]
        rfl
  rw [hstream, Option.bind_some]
  clear hstream hsent
  induction bs with
  | nil => simp [decode]
  | cons b bs ih =>
      have hb := hfits b (by simp)
      rw [List.flatMap_cons, decode_packet hb.cmd hb.data, ih fun c hc => hfits c (by simp [hc])]
      rfl

end Builder

/-- Each packet is its magic, the number of its data bytes, its command and its data,
and the stream they make can be decoded by lengths alone. -/
structure SelfDelimiting (bs : List Builder) : Prop where
  framed : ∀ b ∈ bs, b.sent = some b.msg.bytes
  decoded : (Builder.stream bs).bind decode = some (bs.map Builder.msg)

/-- Which packets are self-delimiting: commands, unless their data is the text `0`, data
packets that fit into `ntpb_buf`, and the end of a reply. -/
theorem selfDelimiting_iff {bs : List Builder} (hfits : ∀ b ∈ bs, b.Fits) :
    SelfDelimiting bs ↔ ∀ b ∈ bs, b.Sized := by
  constructor
  · intro h b hb
    exact b.sent_iff.mp (h.framed b hb)
  · intro h
    have hsent : ∀ b ∈ bs, b.sent = some b.msg.bytes := fun b hb => b.sent_iff.mpr (h b hb)
    exact ⟨hsent, Builder.decode_stream hfits hsent⟩

/-- A dump of two bytes and the end of the reply. -/
theorem selfDelimiting_iff_twoBytes :
    SelfDelimiting [.sendData (fun _ => 0) cmdSendDump [1, 2], .endReply fun _ => 0] := by
  refine (selfDelimiting_iff fun b hb => ?_).mpr fun b hb => ?_
  · rw [List.mem_pair] at hb
    rcases hb with rfl | rfl <;> exact ⟨by decide, by decide⟩
  · rw [List.mem_pair] at hb
    rcases hb with rfl | rfl
    · change 2 + hdrSize ≤ ntpbBufSize
      decide
    · trivial

/-- The acknowledgement of the client, followed by anything, cannot be decoded: a zero
byte is left over where the next magic should be. -/
theorem not_selfDelimiting_ack :
    decode ack = none ∧ ¬ SelfDelimiting [.recvDataAck] := by
  refine ⟨?_, fun h => Builder.sent_recvDataAck (h.framed _ (by simp))⟩
  have hone : decodeOne ack = some ((cmdEot, [1]), [0]) := by decide
  have hrest : decodeOne [0] = none := by decide
  rw [decode, if_neg (by decide)]
  split
  · rfl
  · next m rest h =>
      rw [hone] at h
      cases h
      rw [decode, if_neg (by decide)]
      split
      · rfl
      · next m rest h =>
          rw [hrest] at h
          cases h

end Ps2rd.Ntpb
