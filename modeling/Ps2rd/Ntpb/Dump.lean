import Ps2rd.Mips.Memory
import Ps2rd.Lib.While
import Ps2rd.Ntpb.Client

/-!
# Memory dumps, from EE memory to the client's file

The path of a `DUMP` reply: `sendDump` reads the range in pieces of up to 80 KiB
into `g_buf` and hands each piece over in chunks of up to 4096 bytes;
`rpcNTPBsendData` puts a chunk into `sendDataParam`; the SIF RPC carries the 4096
bytes of that structure to `ntpbserver_rpc_buf`; `ntpbserverSendData` builds a
packet in `ntpb_buf` and sends it; `ntpb_recv_data` writes what follows the header
to the file and acknowledges.

Every send arrives whole in one `recv`, and the dumped range holds none of the
buffers of the path.  `none` stands for a call that never returns.
-/

namespace Ps2rd.Ntpb

open Region Mips

/-- The storage on the path, the server's semaphores, the client, and the copies
made so far, the last one first. -/
structure Path where
  gBuf : Region Byte
  sendDataParam : Region Byte
  rpcBuf : Region Byte
  ntpbBuf : Region Byte
  ioSema : ℕ
  cmdSema : ℕ
  client : Client.Download
  copies : List Copy

namespace Path

/-- The path before a dump: the buffers hold anything, nobody is in the middle of
a reply, and the client has just opened its file. -/
def fresh (gBuf sendDataParam rpcBuf ntpbBuf : Region Byte) : Path :=
  { gBuf, sendDataParam, rpcBuf, ntpbBuf
    ioSema := 1, cmdSema := 0, client := ⟨[], false⟩, copies := [] }

def log (p : Path) (c : Copy) : Path := { p with copies := c :: p.copies }

/-- Some copy ran past the end of its array. -/
def Overrun (p : Path) : Prop := ∃ c ∈ p.copies, ¬ c.Fits

end Path

/-- `memory[start..start + n)` -/
def memRange (mem : Mem) (start : Word) (n : ℕ) : List Byte :=
  (List.range n).map fun i => mem (start + BitVec.ofNat 32 i)

/-! ### IOP -/

/-- The common part of `ntpbserverSendData` and `ntpbserverEndReply`: the packet in
`ntpb_buf` goes out, the acknowledgement comes back into the same buffer and is
checked.  The client that has seen the end of the reply is gone. -/
def exchange (packetSize : ℕ) (p : Path) : Option (Bool × Path) :=
  if p.client.eot then some (false, p) else
    let r := Client.Receiver.idle.recv (p.ntpbBuf.read 0 packetSize)
    let s := (Receiver.idle p.ntpbBuf).recv ack
    -- a side that has not got its whole packet waits for more, and none comes
    if r.complete && s.complete then
      some (checkNtpbHeader s.buf && s.buf.u16 hdrSize == 1,
        { p with ntpbBuf := s.buf, client := p.client.take r }.log ⟨.ntpbBuf, 0, ack.length⟩)
    else none

/-- `ntpbserverSendData`; `data` is what stands behind `buf`.  The io semaphore is
given back only when the client's reply is as expected. -/
def ntpbserverSendData (cmd : ℕ) (data : List Byte) (p : Path) : Option Path :=
  if p.ioSema = 0 then none else
    let ntpbBuf := (((p.ntpbBuf.write 0 magic).put16 6 data.length).put16 8 cmd).write 10 data
    let p := { p with ioSema := p.ioSema - 1, ntpbBuf }.log ⟨.ntpbBuf, hdrSize, data.length⟩
    (exchange (data.length + hdrSize) p).map fun (ok, p) =>
      if ok then { p with ioSema := signal p.ioSema } else p

/-- `ntpbserverEndReply` -/
def ntpbserverEndReply (p : Path) : Option Path :=
  if p.ioSema = 0 then none else
    let ntpbBuf := ((p.ntpbBuf.write 0 magic).put16 6 0).put16 8 cmdEot
    let p := { p with ioSema := p.ioSema - 1, ntpbBuf }
    (exchange hdrSize p).map fun (ok, p) =>
      if ok then { p with cmdSema := signal p.cmdSema, ioSema := signal p.ioSema } else p

/-- `_rpcNTPBsendDataToClient`, with the fields of `g_sendDataParam_t` at 0, 2 and 4092 -/
def rpcNTPBsendDataToClient (p : Path) : Option Path :=
  ntpbserverSendData (p.rpcBuf.u16 0) (p.rpcBuf.read 2 (p.rpcBuf.u32 4092)) p

/-! ### EE -/

/-- `read_mem` into `g_buf` -/
def readMem (mem : Mem) (addr : Word) (size : ℕ) (p : Path) : Path :=
  { p with gBuf := p.gBuf.write 0 (memRange mem addr size) }.log ⟨.gBuf, 0, size⟩

/-- `rpcNTPBsendData`.  The size is stored after the data, over whatever the copy
left in that place; then the RPC takes the 4096 bytes of the structure. -/
def rpcNTPBsendData (cmd : ℕ) (data : List Byte) (p : Path) : Option Path :=
  let param := ((p.sendDataParam.put16 0 cmd).write 2 data).put32 4092 data.length
  let p := { p with sendDataParam := param }.log ⟨.sendDataBuf, 0, data.length⟩
  let p := { p with rpcBuf := p.rpcBuf.write 0 (param.read 0 4096) }.log ⟨.rpcBuf, 0, 4096⟩
  rpcNTPBsendDataToClient p

/-- `BUFSIZE` -/
def bufSize : ℤ := 80 * 1024

/-- The variables of the inner loop of `sendDump`. -/
structure Sending where
  rpos : ℤ
  sndSize : ℤ
  path : Path

/-- One round of the inner loop. -/
def sendChunk (dumpSize : ℤ) (s : Sending) : Option Sending :=
  (rpcNTPBsendData cmdSendDump (s.path.gBuf.read s.rpos.toNat s.sndSize.toNat) s.path).map
    fun path =>
      let rpos := s.rpos + s.sndSize
      { rpos, path
        sndSize := if dumpSize - rpos < 4096 then dumpSize - rpos else s.sndSize }

/-- The variables of the outer loop of `sendDump`. -/
structure Dumping where
  dpos : ℤ
  dumpSize : ℤ
  path : Path

/-- One round of the outer loop. -/
def dumpPart (fuel : ℕ) (mem : Mem) (start : Word) (len : ℤ) (s : Dumping) : Option Dumping :=
  let path := readMem mem (start + BitVec.ofInt 32 s.dpos) s.dumpSize.toNat s.path
  let sndSize := if s.dumpSize > 4096 then 4096 else s.dumpSize
  (whileM (fun i => i.rpos < s.dumpSize) (sendChunk s.dumpSize) fuel ⟨0, sndSize, path⟩).map
    fun i =>
      let dpos := s.dpos + s.dumpSize
      { dpos, path := i.path
        dumpSize := if len - dpos < bufSize then len - dpos else s.dumpSize }

/-- `sendDump` -/
def sendDump (fuel : ℕ) (mem : Mem) (start stop : Word) (p : Path) : Option Path :=
  let len := (stop - start).toInt
  let dumpSize := if len > bufSize then bufSize else len
  (whileM (fun s => s.dpos < len) (dumpPart fuel mem start len) fuel ⟨0, dumpSize, p⟩).bind
    fun s => ntpbserverEndReply s.path

/-- The dump ends, the client's file holds the range and nothing else, and no copy
on the way ran past the end of its array.  Memory is the same `mem` for every piece:
nothing writes to the range during the dump. -/
def DumpFaithful (mem : Mem) (start stop : Word) (p : Path) : Prop :=
  ∃ fuel q, sendDump fuel mem start stop p = some q ∧ q.client.eot ∧
    q.client.file = memRange mem start (stop - start).toNat ∧ ¬ q.Overrun

/-! ### One packet of the reply -/

/-- The reply is under way, and every copy so far stayed inside its array. -/
structure Path.Clean (p : Path) : Prop where
  io : p.ioSema = 1
  eot : p.client.eot = false
  fits : ¬ p.Overrun

theorem Path.not_overrun_log {p : Path} {c : Copy} (hp : ¬ p.Overrun) (hc : c.Fits) :
    ¬ (p.log c).Overrun := by
  rintro ⟨d, hd, hover⟩
  rcases List.mem_cons.mp hd with rfl | hd
  · exact hover hc
  · exact hp ⟨d, hd, hover⟩

theorem exchange_packet {p : Path} (cmd : ℕ) (data : List Byte) (heot : p.client.eot = false)
    (hcmd : cmd < 2 ^ 16) (hdata : data.length < 2 ^ 16) {buf : Region Byte}
    (hbuf : p.ntpbBuf = buf.write 0 (packet cmd data)) :
    exchange (data.length + hdrSize) p = some (true,
      { p with
        ntpbBuf := p.ntpbBuf.write 0 ack
        client := p.client.take ⟨packet cmd data, data.length + 10, cmd⟩ }.log
          ⟨.ntpbBuf, 0, ack.length⟩) := by
  have hread : p.ntpbBuf.read 0 (data.length + hdrSize) = packet cmd data := by
    rw [hbuf]
    exact read_write_of_length buf 0 (length_packet cmd data)
  have hne : packet cmd data ≠ [] := by
    intro h
    simpa [h] using length_packet cmd data
  simp [exchange, heot, hread, Client.recv_packet cmd data hcmd hdata, recv_ack,
    (read_of_ack p.ntpbBuf).1, u16_ack, Client.Receiver.complete, Receiver.complete, hne]

/-- Data of at most 4086 bytes fits into `ntpb_buf` behind the header and reaches
the file as it is. -/
theorem ntpbserverSendData_of_le {p : Path} {data : List Byte} (hp : p.Clean)
    (hdata : data.length ≤ 4086) :
    ∃ q, ntpbserverSendData cmdSendDump data p = some q ∧ q.Clean ∧
      q.client.file = p.client.file ++ data := by
  have hfits : ¬ (p.log ⟨.ntpbBuf, hdrSize, data.length⟩).Overrun :=
    Path.not_overrun_log hp.fits (by simp [Copy.Fits, Buffer.size, hdrSize, ntpbBufSize]; omega)
  simp only [ntpbserverSendData, hp.io, write_packet, one_ne_zero, if_false]
  rw [exchange_packet cmdSendDump data ?_ (by decide) (by omega) rfl]
  · refine ⟨_, rfl, ⟨rfl, ?_, ?_⟩, ?_⟩
    · exact hp.eot
    · exact Path.not_overrun_log hfits (by decide)
    · simp [Path.log, Client.Download.take]
  · exact hp.eot

/-- The end of the reply reaches the client and wakes the server thread. -/
theorem ntpbserverEndReply_of_clean {p : Path} (hp : p.Clean) :
    ∃ q, ntpbserverEndReply p = some q ∧ q.client.eot = true ∧ ¬ q.Overrun ∧
      q.client.file = p.client.file := by
  simp only [ntpbserverEndReply, hp.io, write_packet_nil, one_ne_zero, if_false]
  have hexchange := exchange_packet cmdEot []
    (p := { p with ioSema := 0, ntpbBuf := p.ntpbBuf.write 0 (packet cmdEot []) })
    hp.eot (by decide) (by decide) rfl
  rw [List.length_nil, Nat.zero_add] at hexchange
  rw [hexchange]
  exact ⟨_, rfl, rfl, Path.not_overrun_log hp.fits (by decide), rfl⟩

/-- The RPC hands the server exactly the data, as long as it leaves the size field alone. -/
theorem rpcNTPBsendData_eq (p : Path) (data : List Byte) (hdata : data.length ≤ 4090) :
    ∃ param rpcBuf, rpcNTPBsendData cmdSendDump data p =
      ntpbserverSendData cmdSendDump data (({ p with sendDataParam := param, rpcBuf }.log
        ⟨.sendDataBuf, 0, data.length⟩).log ⟨.rpcBuf, 0, 4096⟩) := by
  set param := ((p.sendDataParam.put16 0 cmdSendDump).write 2 data).put32 4092 data.length
    with hparam
  set rpcBuf := p.rpcBuf.write 0 (param.read 0 4096) with hrpcBuf
  have hcmd : rpcBuf.u16 0 = cmdSendDump := by
    rw [u16, hrpcBuf, read_write_read _ _ (by decide), hparam, put32,
      read_write_of_disjoint _ (by simp), read_write_of_disjoint _ (by simp)]
    exact u16_put16_self p.sendDataParam 0 cmdSendDump
  have hsize : rpcBuf.u32 4092 = data.length := by
    rw [u32, hrpcBuf, read_write_read _ _ (by decide)]
    exact (u32_put32_self _ 4092 data.length).trans (Nat.mod_eq_of_lt (by omega))
  have hread : rpcBuf.read 2 data.length = data := by
    rw [hrpcBuf, read_write_read _ _ (by omega), hparam, put32,
      read_write_of_disjoint _ (by simp; omega), read_write_self]
  refine ⟨param, rpcBuf, ?_⟩
  simp only [rpcNTPBsendData, rpcNTPBsendDataToClient, Path.log, ← hparam, ← hrpcBuf, hcmd, hsize,
    hread]

/-- A chunk of at most 4086 bytes reaches the file unchanged. -/
theorem rpcNTPBsendData_of_le {p : Path} (data : List Byte) (hp : p.Clean)
    (hdata : data.length ≤ 4086) :
    ∃ q, rpcNTPBsendData cmdSendDump data p = some q ∧ q.Clean ∧
      q.client.file = p.client.file ++ data := by
  obtain ⟨param, rpcBuf, heq⟩ := rpcNTPBsendData_eq p data (by omega)
  rw [heq]
  refine ntpbserverSendData_of_le ⟨hp.io, hp.eot, ?_⟩ hdata
  refine Path.not_overrun_log (Path.not_overrun_log hp.fits ?_) (by decide)
  simp [Copy.Fits, Buffer.size]
  omega

/-! ### Short ranges -/

@[simp]
theorem length_memRange (mem : Mem) (start : Word) (n : ℕ) : (memRange mem start n).length = n := by
  simp [memRange]

/-- A part of at most 4086 bytes is one chunk. -/
theorem dumpPart_of_le (mem : Mem) (start : Word) {n : ℕ} {p : Path} (hp : p.Clean) (hpos : 0 < n)
    (hn : n ≤ 4086) :
    ∃ q : Path, dumpPart 2 mem start n ⟨0, n, p⟩ = some ⟨n, 0, q⟩ ∧ q.Clean ∧
      q.client.file = p.client.file ++ memRange mem start n := by
  set p' := readMem mem start n p with hp'
  have hclean : p'.Clean := by
    refine ⟨hp.io, hp.eot, Path.not_overrun_log hp.fits ?_⟩
    simp [Copy.Fits, Buffer.size]
    omega
  have hread : p'.gBuf.read 0 n = memRange mem start n :=
    read_write_of_length p.gBuf 0 (length_memRange mem start n)
  obtain ⟨q, hsend, hq, hfile⟩ :=
    rpcNTPBsendData_of_le (memRange mem start n) hclean (by simpa using hn)
  have hchunk : sendChunk n ⟨0, n, p'⟩ = some ⟨n, 0, q⟩ := by
    simp [sendChunk, hread, hsend]
  have hinner : whileM (fun i => i.rpos < (n : ℤ)) (sendChunk n) 2 ⟨0, n, p'⟩ = some ⟨n, 0, q⟩ := by
    rw [whileM_of_body (by simpa using hpos) hchunk, whileM_of_not (by simp)]
  have hsnd : ¬ (n : ℤ) > 4096 := by omega
  refine ⟨q, ?_, hq, hfile⟩
  simp [dumpPart, ← hp', hsnd, hinner, bufSize]

theorem sendDump_of_le (mem : Mem) {start stop : Word} {p : Path} (hp : p.Clean)
    (hn : (stop - start).toNat ≤ 4086) :
    ∃ q, sendDump 2 mem start stop p = some q ∧ q.client.eot = true ∧ ¬ q.Overrun ∧
      q.client.file = p.client.file ++ memRange mem start (stop - start).toNat := by
  set n := (stop - start).toNat with hdef
  have hlen : (stop - start).toInt = n := by
    rw [BitVec.toInt_eq_toNat_of_lt]
    omega
  have hsize : ¬ (n : ℤ) > bufSize := by
    unfold bufSize
    omega
  have hloop : ∃ d, whileM (fun s => s.dpos < (n : ℤ)) (dumpPart 2 mem start n) 2 ⟨0, n, p⟩ =
      some d ∧ d.path.Clean ∧ d.path.client.file = p.client.file ++ memRange mem start n := by
    rcases Nat.eq_zero_or_pos n with hzero | hpos
    · exact ⟨⟨0, n, p⟩, whileM_of_not (by simp [hzero]) 1, hp, by simp [hzero, memRange]⟩
    · obtain ⟨q, hpart, hq, hfile⟩ := dumpPart_of_le mem start hp hpos hn
      refine ⟨⟨n, 0, q⟩, ?_, hq, hfile⟩
      rw [whileM_of_body (by simpa using hpos) hpart, whileM_of_not (by simp)]
  obtain ⟨d, hrun, hd, hfile⟩ := hloop
  obtain ⟨q, hend, heot, hfits, hsame⟩ := ntpbserverEndReply_of_clean hd
  refine ⟨q, ?_, heot, hfits, hsame.trans hfile⟩
  simp [sendDump, hlen, hsize, hrun, hend]

/-! ### Long ranges -/

theorem exchange_overrun {p q : Path} {n : ℕ} {ok : Bool} (h : exchange n p = some (ok, q))
    (hp : p.Overrun) : q.Overrun := by
  obtain ⟨c, hc, hover⟩ := hp
  simp only [exchange] at h
  split_ifs at h with heot hcomplete
  · cases h
    exact ⟨c, hc, hover⟩
  · cases h
    exact ⟨c, List.mem_cons_of_mem _ hc, hover⟩

theorem ntpbserverSendData_overrun {p q : Path} {cmd : ℕ} {data : List Byte}
    (h : ntpbserverSendData cmd data p = some q) (hp : p.Overrun ∨ 4086 < data.length) :
    q.Overrun := by
  unfold ntpbserverSendData at h
  split_ifs at h with hio
  obtain ⟨⟨ok, q'⟩, hexchange, rfl⟩ := Option.map_eq_some_iff.mp h
  have hq' : q'.Overrun := by
    refine exchange_overrun hexchange ?_
    rcases hp with ⟨c, hc, hover⟩ | hlong
    · exact ⟨c, List.mem_cons_of_mem _ hc, hover⟩
    · refine ⟨_, List.mem_cons_self, ?_⟩
      simp [Copy.Fits, Buffer.size, hdrSize, ntpbBufSize]
      omega
  dsimp only
  split_ifs
  · exact hq'
  · exact hq'

theorem ntpbserverEndReply_overrun {p q : Path} (h : ntpbserverEndReply p = some q)
    (hp : p.Overrun) : q.Overrun := by
  unfold ntpbserverEndReply at h
  split_ifs at h with hio
  obtain ⟨⟨ok, q'⟩, hexchange, rfl⟩ := Option.map_eq_some_iff.mp h
  have hq' : q'.Overrun := exchange_overrun hexchange hp
  dsimp only
  split_ifs
  · exact hq'
  · exact hq'

/-- The size field is stored after the data, so it always reaches the server. -/
theorem rpcNTPBsendData_overrun {p q : Path} {cmd : ℕ} {data : List Byte}
    (h : rpcNTPBsendData cmd data p = some q)
    (hp : p.Overrun ∨ 4086 < data.length ∧ data.length < 2 ^ 32) : q.Overrun := by
  refine ntpbserverSendData_overrun h ?_
  rcases hp with ⟨c, hc, hover⟩ | ⟨hlong, hlt⟩
  · exact Or.inl ⟨c, List.mem_cons_of_mem _ (List.mem_cons_of_mem _ hc), hover⟩
  · right
    rw [length_read, u32, Path.log, read_write_read _ _ (by decide)]
    refine lt_of_lt_of_eq hlong (Eq.symm ?_)
    exact (u32_put32_self _ 4092 data.length).trans (Nat.mod_eq_of_lt hlt)

theorem sendChunk_overrun {dumpSize : ℤ} {s t : Sending} (h : sendChunk dumpSize s = some t)
    (hs : s.path.Overrun ∨ 4086 < s.sndSize ∧ s.sndSize < 2 ^ 32) : t.path.Overrun := by
  obtain ⟨q, hsend, rfl⟩ := Option.map_eq_some_iff.mp h
  refine rpcNTPBsendData_overrun hsend (hs.imp_right fun ⟨hlong, hlt⟩ => ?_)
  rw [length_read]
  omega

theorem dumpPart_overrun {fuel : ℕ} {mem : Mem} {start : Word} {len : ℤ} {s t : Dumping}
    (h : dumpPart fuel mem start len s = some t)
    (hs : s.path.Overrun ∨ 4086 < s.dumpSize) : t.path.Overrun := by
  obtain ⟨i, hloop, rfl⟩ := Option.map_eq_some_iff.mp h
  have hpreserves {fuel : ℕ} {i j : Sending}
      (hrun : whileM (fun i => i.rpos < s.dumpSize) (sendChunk s.dumpSize) fuel i = some j)
      (hi : i.path.Overrun) : j.path.Overrun :=
    whileM_preserves (P := fun i => i.path.Overrun)
      (fun _ _ _ hstep hover => sendChunk_overrun hstep (Or.inl hover)) hrun hi
  rcases hs with ⟨c, hc, hover⟩ | hlong
  · exact hpreserves hloop ⟨c, List.mem_cons_of_mem _ hc, hover⟩
  · obtain ⟨i', rest, hfirst, hrest⟩ :=
      exists_of_whileM_eq_some (by simpa using show (0 : ℤ) < s.dumpSize by omega) hloop
    refine hpreserves hrest (sendChunk_overrun hfirst (Or.inr ?_))
    dsimp only
    split_ifs <;> omega

theorem sendDump_overrun {fuel : ℕ} {mem : Mem} {start stop : Word} {p q : Path}
    (h : sendDump fuel mem start stop p = some q) (hlong : 4086 < (stop - start).toInt) :
    q.Overrun := by
  obtain ⟨d, hloop, hend⟩ := Option.bind_eq_some_iff.mp h
  refine ntpbserverEndReply_overrun hend ?_
  obtain ⟨d', rest, hfirst, hrest⟩ :=
    exists_of_whileM_eq_some (by simpa using show 0 < (stop - start).toInt by omega) hloop
  refine whileM_preserves (P := fun s => s.path.Overrun)
    (fun _ _ _ hstep hover => dumpPart_overrun hstep (Or.inl hover)) hrest ?_
  refine dumpPart_overrun hfirst (Or.inr ?_)
  dsimp only [bufSize]
  split_ifs <;> omega

/-! ### Dumps -/

theorem Path.fresh_clean (gBuf sendDataParam rpcBuf ntpbBuf : Region Byte) :
    (Path.fresh gBuf sendDataParam rpcBuf ntpbBuf).Clean :=
  ⟨rfl, rfl, by simp [Path.Overrun, Path.fresh]⟩

/-- A range whose size is negative as an `int` is dumped as an empty file. -/
theorem sendDump_file_of_neg {fuel : ℕ} {mem : Mem} {start stop : Word} {p q : Path} (hp : p.Clean)
    (hneg : (stop - start).toInt ≤ 0) (h : sendDump fuel mem start stop p = some q) :
    q.client.file = p.client.file := by
  obtain ⟨d, hloop, hend⟩ := Option.bind_eq_some_iff.mp h
  cases fuel with
  | zero => exact absurd hloop whileM_zero_ne_some
  | succ fuel =>
      rw [whileM_of_not (by simpa using hneg)] at hloop
      cases hloop
      obtain ⟨q', hend', -, -, hfile⟩ := ntpbserverEndReply_of_clean hp
      rw [hend'] at hend
      exact Option.some.inj hend ▸ hfile

/-- A dump is faithful exactly for the ranges that fit, with the packet header, into
`ntpb_buf`: a single byte more runs past the end of that buffer. -/
theorem dumpFaithful_iff (mem : Mem) (start stop : Word)
    (gBuf sendDataParam rpcBuf ntpbBuf : Region Byte) :
    DumpFaithful mem start stop (Path.fresh gBuf sendDataParam rpcBuf ntpbBuf) ↔
      (stop - start).toNat ≤ 4086 := by
  have hclean := Path.fresh_clean gBuf sendDataParam rpcBuf ntpbBuf
  constructor
  · rintro ⟨fuel, q, hrun, -, hfile, hfits⟩
    by_contra hlong
    by_cases hsign : 0 < (stop - start).toInt
    · refine hfits (sendDump_overrun hrun ?_)
      rw [BitVec.toInt_eq_toNat_cond] at hsign ⊢
      split_ifs at hsign ⊢ <;> omega
    · rw [sendDump_file_of_neg hclean (by omega) hrun] at hfile
      have hsize := congrArg List.length hfile
      rw [length_memRange] at hsize
      change 0 = _ at hsize
      omega
  · intro hshort
    obtain ⟨q, hrun, heot, hfits, hfile⟩ := sendDump_of_le mem hclean hshort
    exact ⟨2, q, hrun, heot, hfile, hfits⟩

/-- The first 4096 bytes of memory. -/
theorem firstPage_not_dumpFaithful :
    ¬ DumpFaithful (fun a => a.setWidth 8) 0 4096
      (Path.fresh (fun _ => 0) (fun _ => 0) (fun _ => 0) (fun _ => 0)) := by
  rintro ⟨fuel, q, hrun, -, -, hfits⟩
  exact hfits (sendDump_overrun hrun (by decide))

end Ps2rd.Ntpb
