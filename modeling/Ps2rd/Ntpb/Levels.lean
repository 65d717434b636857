import Ps2rd.Ntpb.Dump
import Ps2rd.Ntpb.IoSema
import Ps2rd.Ntpb.Reply
import Ps2rd.Ntpb.Request
import Ps2rd.Ntpb.Session

/-!
# One server in several degrees of detail

`handleClient`, `ntpbserverSendData` and `ntpbserverEndReply` are described in several
modules, each time with what matters there.  `Reply` has every point at which a thread
can be interrupted, and the others are tied to it here.

* `IoSema` has one call from `WaitSema` to its return.  `Reply.run_call`: with nothing
  between them, the steps of the RPC thread do what the call does.
* `Dump` has the call whose packet is sent and acknowledged in one piece.
  `Path.perform_call`: it is the call of `IoSema` with these results of the network calls.
* `Request` has the receive loop of `handleClient` and the copies behind it.
  `Reply.run_round`: a round of the loop is a run of the server thread.
* `Connection` lets the threads take turns and send whole packets.  `Conn.run_simulated`:
  every run of a connection is one of the two threads, and one in which they keep apart.
* `Session` has whole requests and whole calls.  `Session.sendData_call`,
  `Session.endReply_call`: the semaphores are those of the calls of `IoSema`;
  `Session.accept_store`, `Session.fetch_carry`: the requests are those of `Request`.
-/

namespace Ps2rd.Ntpb

open Region

/-! ### A call of the RPC thread -/

namespace IoSema

/-- The function of a call of the EE. -/
def call : Reply.Call → Outcomes → Server → Option (ℤ × Server × Outcomes)
  | .sendData m => ntpbserverSendData m.1 m.2
  | .endReply => ntpbserverEndReply

/-- The end of a call that returns `ret`, with `buf` in `ntpb_buf`. -/
def Server.posted (s : Server) (c : Reply.Call) (buf : Region Byte) (ret : ℤ) : Server where
  ntpbBuf := buf
  ioSema := if ret = 0 then s.ioSema.signal else s.ioSema
  cmdSema := if c.isLast then if ret = 0 then s.cmdSema.signal else s.cmdSema else s.cmdSema

theorem call_eq (c : Reply.Call) (outcomes : Outcomes) (s : Server) :
    call c outcomes s = s.ioSema.wait.bind fun ioSema =>
      (exchange c.packetSize (c.build s.ntpbBuf) outcomes).map fun (ret, ntpbBuf, outcomes) =>
        (ret, { s with ioSema }.posted c ntpbBuf ret, outcomes) := by
  cases c <;> rfl

/-- The server with this buffer and these counts of its semaphores, which `_start` creates
with a maximum of 1. -/
structure Server.Holds (t : Server) (ntpbBuf : Region Byte) (io cmd : ℕ) : Prop where
  ntpbBuf : t.ntpbBuf = ntpbBuf
  io : t.ioSema.count = io
  cmd : t.cmdSema.count = cmd
  io_max : t.ioSema.max = 1
  cmd_max : t.cmdSema.max = 1

section Holds

variable {t : Server} {buf : Region Byte} {io cmd : ℕ}

theorem Server.Holds.io_le (h : t.Holds buf io cmd) : io ≤ 1 := by
  have hle := t.ioSema.count_le
  rwa [h.io, h.io_max] at hle

theorem Server.Holds.wait (h : t.Holds buf io cmd) {ioSema : Sema}
    (hwait : t.ioSema.wait = some ioSema) :
    io ≠ 0 ∧ { t with ioSema }.Holds buf (io - 1) cmd := by
  obtain ⟨hpos, hcount, hmax⟩ := Sema.of_wait hwait
  rw [h.io] at hpos hcount
  exact ⟨hpos, ⟨h.ntpbBuf, hcount, h.cmd, hmax.trans h.io_max, h.cmd_max⟩⟩

theorem Server.Holds.exists_wait (h : t.Holds buf io cmd) (hio : io ≠ 0) :
    ∃ ioSema, t.ioSema.wait = some ioSema ∧ { t with ioSema }.Holds buf (io - 1) cmd := by
  obtain ⟨ioSema, hwait⟩ : ∃ ioSema, t.ioSema.wait = some ioSema := by
    rw [Sema.wait, if_neg (by rwa [h.io])]
    exact ⟨_, rfl⟩
  exact ⟨ioSema, hwait, (h.wait hwait).2⟩

theorem Sema.count_signal {s : Sema} (hmax : s.max = 1) :
    s.signal.count = Ntpb.signal s.count := by
  show min s.max _ = min 1 _
  rw [hmax]

theorem Server.Holds.posted_zero (h : t.Holds buf io cmd) (c : Reply.Call) (buf' : Region Byte) :
    (t.posted c buf' 0).Holds buf' (Ntpb.signal io)
      (if c.isLast then Ntpb.signal cmd else cmd) := by
  have hio := Sema.count_signal h.io_max
  have hcmd := Sema.count_signal h.cmd_max
  rw [h.io] at hio
  rw [h.cmd] at hcmd
  -- the end of the reply posts the semaphore of the server thread as well
  cases c with
  | sendData m => exact ⟨rfl, hio, h.cmd, h.io_max, h.cmd_max⟩
  | endReply => exact ⟨rfl, hio, hcmd, h.io_max, h.cmd_max⟩

theorem Server.Holds.posted_error (h : t.Holds buf io cmd) (c : Reply.Call) (buf' : Region Byte)
    {ret : ℤ} (hret : ret ≠ 0) : (t.posted c buf' ret).Holds buf' io cmd := by
  rw [posted, if_neg hret, if_neg hret, ite_self]
  exact { h with ntpbBuf := rfl }

end Holds

end IoSema

namespace Reply

/-- A result of `lwip_send` as an event of the RPC thread. -/
def sendEvent (sndSize : ℤ) : Event :=
  if sndSize < 0 then .rpcSendFails else .rpcSend sndSize.toNat

/-- A result of `recv_noblock` as an event of the RPC thread. -/
def recvEvent : IoSema.Reception → Event
  | .selectError | .recvError | .data [] => .rpcRecvFails
  | .data (b :: bytes) => .rpcRecv (b :: bytes)

/-- The events of a call. -/
def callEvents (outcomes : IoSema.Outcomes) : List Event :=
  .rpcWake :: (outcomes.sends.map sendEvent ++ outcomes.receptions.map recvEvent)

/-- The bytes that the calls of `lwip_send` have taken. -/
def taken (sends : List ℤ) : ℕ := (sends.map Int.toNat).sum

/-- Any run of the two threads. -/
abbrev Steps (s : State) (events : List Event) (t : State) : Prop :=
  Run State.step (fun _ _ => True) s events t

section Calls

variable {s : State} {c : Call}

/-- The state at the end of the send loop. -/
def afterSends (s : State) (c : Call) (sentSize : ℕ) (sends : List ℤ) (sent : Bool) : State :=
  let s := { s with written := s.written ++ s.ntpbBuf.read sentSize (taken sends) }
  if sent then { s with rpc := .receiving c 0 0 } else s.finish c

theorem step_rpcWake (hrpc : s.rpc = .waiting c) (hio : s.ioSema ≠ 0) :
    s.step .rpcWake = some { s with
      ioSema := s.ioSema - 1, ntpbBuf := c.build s.ntpbBuf, rpc := .sent c 0 } := by
  rw [State.step, hrpc]
  exact if_pos hio

theorem step_rpcSend {sentSize n : ℕ} (hrpc : s.rpc = .sending c sentSize)
    (hn : sentSize + n ≤ c.packetSize) :
    s.step (.rpcSend n) = some { s with
      written := s.written ++ s.ntpbBuf.read sentSize n
      rpc := .sent c (sentSize + n) } := by
  rw [State.step, State.rpcSend, hrpc]
  exact if_pos hn

theorem afterSends_cons (sentSize n : ℕ) (sends : List ℤ) (sent : Bool) (rpc : Rpc) :
    afterSends { s with written := s.written ++ s.ntpbBuf.read sentSize n, rpc } c (sentSize + n)
      sends sent = afterSends s c sentSize (n :: sends) sent := by
  have hread : s.ntpbBuf.read sentSize (taken (n :: sends)) =
      s.ntpbBuf.read sentSize n ++ s.ntpbBuf.read (sentSize + n) (taken sends) := by
    rw [← read_add]
    simp [taken]
  simp only [afterSends, hread, List.append_assoc]
  rfl

theorem run_sendPacket {sentSize : ℕ} {sends : List ℤ} {sent : Bool}
    (hrpc : s.rpc = .sent c sentSize) (htaken : sentSize + taken sends ≤ c.packetSize)
    (h : IoSema.sendPacket c.packetSize sentSize sends = some (sent, [])) :
    Steps s (sends.map sendEvent) (afterSends s c sentSize sends sent) := by
  induction sends generalizing s sentSize with
  | nil =>
      rw [IoSema.sendPacket] at h
      split_ifs at h with hlt
      cases h
      have hdone : s.rpc = .receiving c 0 0 := by
        rw [hrpc, Rpc.sent, if_neg (by omega)]
      have hsame : afterSends s c sentSize [] true = s := by
        cases s
        cases hdone
        simp [afterSends, taken, Region.read]
      rw [hsame]
      exact .nil
  | cons sndSize sends ih =>
      have hsending (hlt : sentSize < c.packetSize) : s.rpc = .sending c sentSize := by
        rw [hrpc, Rpc.sent, if_pos hlt]
      rw [IoSema.sendPacket] at h
      split_ifs at h with hlt hneg
      · cases h
        have hzero : taken [sndSize] = 0 := by
          simp [taken]
          omega
        refine .cons trivial ?_ .nil
        simp [sendEvent, hneg, State.step, hsending (by omega), afterSends, hzero,
          Region.read, State.finish]
      · obtain ⟨n, rfl⟩ := Int.eq_ofNat_of_zero_le (not_lt.mp hneg)
        have hcons : taken (n :: sends) = n + taken sends := by simp [taken]
        rw [hcons] at htaken
        have hevent : sendEvent n = .rpcSend n := by simp [sendEvent]
        rw [List.map_cons, hevent, ← afterSends_cons]
        refine .cons trivial (step_rpcSend (hsending (by omega)) (by omega)) (ih rfl (by omega) ?_)
        exact_mod_cast h
      · cases h

theorem recvEvent_of_error {bsize : ℕ} {reception : IoSema.Reception} {rcvSize : ℤ}
    {bytes : List Byte} (h : IoSema.recvNoblock bsize reception = some (rcvSize, bytes))
    (herror : rcvSize ≤ 0) : recvEvent reception = .rpcRecvFails := by
  cases reception with
  | selectError => rfl
  | recvError => rfl
  | data bytes' =>
      cases bytes' with
      | nil => rfl
      | cons b bytes' => exact absurd herror ((IoSema.recvNoblock_pos_iff h).mpr (by
          rw [IoSema.recvNoblock] at h
          split_ifs at h
          cases h
          simp))

theorem recvEvent_of_ne {bytes : List Byte} (hne : bytes ≠ []) :
    recvEvent (.data bytes) = .rpcRecv bytes := by
  cases bytes with
  | nil => exact absurd rfl hne
  | cons b bytes => rfl

theorem length_le_of_recvNoblock {bsize : ℕ} {bytes bytes' : List Byte} {rcvSize : ℤ}
    (h : IoSema.recvNoblock bsize (.data bytes) = some (rcvSize, bytes')) :
    bytes.length ≤ bsize := by
  rw [IoSema.recvNoblock] at h
  split_ifs at h with hle
  exact hle

theorem step_rpcRecv {r : Receiver} {bytes : List Byte}
    (hrpc : s.rpc = .receiving c r.recvSize r.packetSize) (hbuf : s.ntpbBuf = r.buf)
    (hne : bytes ≠ []) (hle : bytes.length ≤ r.bsize) :
    s.step (.rpcRecv bytes) = some (s.rpcGot c (r.recv bytes)) := by
  rw [State.step, State.rpcRecv, hrpc, hbuf]
  exact if_pos ⟨hne, hle⟩

/-- The receive loop, from a state in which the packet is not complete. -/
theorem run_receivePacket {r r' : Receiver} {receptions : List IoSema.Reception} {received : Bool}
    (hrpc : s.rpc = .receiving c r.recvSize r.packetSize) (hbuf : s.ntpbBuf = r.buf)
    (hr : r.complete = false)
    (h : IoSema.receivePacket r receptions = some (received, r', [])) :
    Steps s (receptions.map recvEvent)
      (if received then s.handleAck c r'.buf else { s with ntpbBuf := r'.buf }.finish c) := by
  induction receptions generalizing s r with
  | nil =>
      rw [IoSema.receivePacket, hr] at h
      cases h
  | cons reception receptions ih =>
      rw [IoSema.receivePacket, hr] at h
      obtain ⟨⟨rcvSize, bytes⟩, hcall, hrest⟩ := Option.bind_eq_some_iff.mp h
      dsimp only at hrest
      split_ifs at hrest with herror
      · rw [List.map_cons, recvEvent_of_error hcall herror]
        cases hrest
        refine .cons trivial ?_ .nil
        simp [State.step, hrpc, ← hbuf, State.finish]
      · obtain ⟨rfl, hne⟩ := (IoSema.recvNoblock_pos_iff hcall).mp herror
        have hstep := step_rpcRecv hrpc hbuf hne (length_le_of_recvNoblock hcall)
        rw [List.map_cons, recvEvent_of_ne hne]
        refine .cons trivial hstep ?_
        by_cases hcomplete : (r.recv bytes).complete = true
        · -- the call returns, and the results end here
          rw [State.rpcGot, if_pos hcomplete]
          cases receptions with
          | nil =>
              rw [IoSema.receivePacket, if_pos hcomplete] at hrest
              cases hrest
              exact .nil
          | cons reception receptions =>
              rw [IoSema.receivePacket, if_pos hcomplete] at hrest
              cases hrest
        · rw [State.rpcGot, if_neg hcomplete]
          exact ih rfl rfl (Bool.eq_false_iff.mpr hcomplete) hrest

theorem State.handleAck_frame (s : State) (c : Call) (buf : Region Byte) :
    (s.handleAck c buf).rpc = .idle ∧ (s.handleAck c buf).server = s.server ∧
      (s.handleAck c buf).written = s.written := by
  unfold State.handleAck
  split_ifs <;> exact ⟨rfl, rfl, rfl⟩

/-- What the RPC thread does with an acknowledgement, by the value that the call returns. -/
theorem holds_handleAck {t : IoSema.Server} {buf₀ buf : Region Byte}
    (ht : t.Holds buf₀ s.ioSema s.cmdSema) (c : Call) {ret : ℤ}
    (hret : ret = if checkNtpbHeader buf = false then -2 else if buf.u16 hdrSize ≠ 1 then -2
      else 0) :
    (t.posted c buf ret).Holds (s.handleAck c buf).ntpbBuf (s.handleAck c buf).ioSema
      (s.handleAck c buf).cmdSema := by
  by_cases hack : (checkNtpbHeader buf && buf.u16 hdrSize == 1) = true
  · have hzero : ret = 0 := by
      simp only [Bool.and_eq_true, beq_iff_eq] at hack
      simp [hret, hack]
    rw [State.handleAck, if_pos hack, hzero]
    exact ht.posted_zero c buf
  · have hne : ret ≠ 0 := by
      simp only [Bool.and_eq_true, beq_iff_eq, not_and] at hack
      rw [hret]
      split_ifs with hheader hstatus <;> simp_all
    rw [State.handleAck, if_neg hack]
    exact ht.posted_error c buf hne

/-- The results of the network calls of one call lead the RPC thread, if it is not
interrupted, to the return of that call. -/
theorem run_call {outcomes : IoSema.Outcomes} {t t' : IoSema.Server} {ret : ℤ}
    (ht : t.Holds s.ntpbBuf s.ioSema s.cmdSema) (hrpc : s.rpc = .waiting c)
    (htaken : taken outcomes.sends ≤ c.packetSize)
    (h : IoSema.call c outcomes t = some (ret, t', ⟨[], []⟩)) :
    ∃ s', Steps s (callEvents outcomes) s' ∧ t'.Holds s'.ntpbBuf s'.ioSema s'.cmdSema ∧
      s'.rpc = .idle ∧ s'.server = s.server ∧
      s'.written = s.written ++ (c.build s.ntpbBuf).read 0 (taken outcomes.sends) := by
  have hbuild : c.build t.ntpbBuf = c.build s.ntpbBuf := by rw [ht.ntpbBuf]
  rw [IoSema.call_eq, hbuild] at h
  obtain ⟨ioSema, hwait, hrest⟩ := Option.bind_eq_some_iff.mp h
  obtain ⟨⟨ret', buf, left⟩, hexchange, heq⟩ := Option.map_eq_some_iff.mp hrest
  cases heq
  obtain ⟨hpos, hinside⟩ := ht.wait hwait
  set s₁ : State := { s with
    ioSema := s.ioSema - 1, ntpbBuf := c.build s.ntpbBuf, rpc := .sent c 0 } with hs₁
  have hwake : s.step .rpcWake = some s₁ := step_rpcWake hrpc hpos
  obtain ⟨⟨sent, sends⟩, hsend, hafter⟩ := Option.bind_eq_some_iff.mp hexchange
  have hsends : sends = [] → Steps s (.rpcWake :: outcomes.sends.map sendEvent)
      (afterSends s₁ c 0 outcomes.sends sent) := by
    rintro rfl
    exact .cons trivial hwake (run_sendPacket rfl (by rwa [Nat.zero_add]) hsend)
  -- the packet is sent, or `lwip_send` fails on the way
  cases sent with
  | false =>
      simp only [Bool.false_eq_true, if_false, Option.some.injEq, Prod.mk.injEq,
        IoSema.Outcomes.mk.injEq] at hafter
      obtain ⟨rfl, rfl, hleft, hnone⟩ := hafter
      refine ⟨afterSends s₁ c 0 outcomes.sends false, ?_, ?_, rfl, rfl, rfl⟩
      · rw [callEvents, hnone, List.map_nil, List.append_nil]
        exact hsends hleft
      · exact hinside.posted_error c _ (by decide)
  | true =>
      obtain ⟨⟨received, r, receptions⟩, hreceive, heq⟩ := Option.map_eq_some_iff.mp hafter
      simp only [Prod.mk.injEq, IoSema.Outcomes.mk.injEq] at heq
      obtain ⟨hret, rfl, hleft, rfl⟩ := heq
      have hreceptions := run_receivePacket (s := afterSends s₁ c 0 outcomes.sends true)
        (r := .idle (c.build s.ntpbBuf)) rfl rfl rfl hreceive
      refine ⟨_, (hsends hleft).append hreceptions, ?_⟩
      cases received with
      | false =>
          refine ⟨hinside.posted_error c r.buf ?_, rfl, rfl, rfl⟩
          rw [← hret, if_pos rfl]
          decide
      | true =>
          obtain ⟨hidle, hserver, hwritten⟩ :=
            (afterSends s₁ c 0 outcomes.sends true).handleAck_frame c r.buf
          exact ⟨holds_handleAck hinside c hret.symm, hidle, hserver, hwritten⟩

end Calls

end Reply

/-! ### A call during a dump -/

namespace Path

/-- The function of a call of the EE, with the client of `Dump` at the other end. -/
def perform : Reply.Call → Path → Option Path
  | .sendData m => ntpbserverSendData m.1 m.2
  | .endReply => ntpbserverEndReply

/-- The results of the network calls: the packet goes out in one piece, and the client
acknowledges it in one piece, or has closed the connection. -/
def outcomes (p : Path) (packetSize : ℕ) : IoSema.Outcomes :=
  ⟨[packetSize], [.data (if p.client.eot then [] else ack)]⟩

/-- What the call returns. -/
def ret (p : Path) : ℤ := if p.client.eot then -1 else 0

theorem perform_eq (c : Reply.Call) (p : Path) :
    ∃ copies, p.perform c =
      if p.ioSema = 0 then none else
        (exchange c.packetSize { p with
            ioSema := p.ioSema - 1, ntpbBuf := c.build p.ntpbBuf, copies }).map fun (ok, p) =>
          if ok then { p with
            ioSema := signal p.ioSema
            cmdSema := if c.isLast then signal p.cmdSema else p.cmdSema } else p := by
  cases c <;> exact ⟨_, rfl⟩

theorem exchange_outcomes {p q : Path} {packetSize : ℕ} {ok : Bool} (hsize : 0 < packetSize)
    (h : exchange packetSize p = some (ok, q)) :
    IoSema.exchange packetSize p.ntpbBuf (p.outcomes packetSize) =
        some (p.ret, q.ntpbBuf, ⟨[], []⟩) ∧
      (ok = true ↔ p.ret = 0) ∧ q.ioSema = p.ioSema ∧ q.cmdSema = p.cmdSema := by
  have hsend : IoSema.sendPacket packetSize 0 [(packetSize : ℤ)] = some (true, []) := by
    simp [IoSema.sendPacket, hsize]
  unfold exchange at h
  by_cases heot : p.client.eot = true
  · rw [if_pos heot] at h
    cases h
    simp [IoSema.exchange, outcomes, ret, heot, hsend, IoSema.receivePacket, IoSema.recvNoblock,
      Receiver.complete, Receiver.idle]
  · rw [if_neg heot] at h
    have hmagic := (read_of_ack p.ntpbBuf).1
    have hstatus := u16_ack p.ntpbBuf
    simp only [recv_ack] at h
    split_ifs at h
    cases h
    have hreceive : IoSema.receivePacket (.idle p.ntpbBuf) [.data ack] =
        some (true, ⟨p.ntpbBuf.write 0 ack, 12, 11⟩, []) := by
      have hcall : IoSema.recvNoblock (Receiver.idle p.ntpbBuf).bsize (.data ack) =
          some (12, ack) := rfl
      rw [IoSema.receivePacket, if_neg (by simp [Receiver.complete, Receiver.idle]), hcall]
      show IoSema.receivePacket ((Receiver.idle p.ntpbBuf).recv ack) [] = _
      rw [recv_ack]
      rfl
    simp [IoSema.exchange, outcomes, ret, heot, hsend, hreceive, hmagic, hstatus, log]

/-- A call during a dump is the call of `IoSema` with these results. -/
theorem perform_call {c : Reply.Call} {p q : Path} {t : IoSema.Server}
    (ht : t.Holds p.ntpbBuf p.ioSema p.cmdSema) (h : p.perform c = some q) :
    ∃ t', IoSema.call c (p.outcomes c.packetSize) t = some (p.ret, t', ⟨[], []⟩) ∧
      t'.Holds q.ntpbBuf q.ioSema q.cmdSema := by
  obtain ⟨copies, heq⟩ := perform_eq c p
  rw [heq] at h
  by_cases hzero : p.ioSema = 0
  · rw [if_pos hzero] at h
    cases h
  · rw [if_neg hzero] at h
    obtain ⟨⟨ok, q'⟩, hexchange, hq⟩ := Option.map_eq_some_iff.mp h
    have hsize : 0 < c.packetSize := by
      cases c <;> simp [Reply.Call.packetSize, hdrSize]
    obtain ⟨hcall, hok, hio, hcmd⟩ := exchange_outcomes hsize hexchange
    have hcall' : IoSema.exchange c.packetSize (c.build t.ntpbBuf) (p.outcomes c.packetSize) =
        some (p.ret, q'.ntpbBuf, ⟨[], []⟩) := by
      rw [ht.ntpbBuf]
      exact hcall
    obtain ⟨ioSema, hwait, hinside⟩ := ht.exists_wait hzero
    refine ⟨_, by rw [IoSema.call_eq, hwait, Option.bind_some, hcall']; rfl, ?_⟩
    dsimp only at hq hio hcmd
    by_cases hret : p.ret = 0
    · rw [if_pos (hok.mpr hret)] at hq
      rw [← hq, hio, hcmd, hret]
      exact hinside.posted_zero c _
    · rw [if_neg fun htrue => hret (hok.mp htrue)] at hq
      rw [← hq, hio, hcmd]
      exact hinside.posted_error c _ hret

end Path

/-! ### A round of `handleClient` -/

namespace Reply

section Rounds

variable {s : State}

theorem step_serverRecv {r : Receiver} {chunk : List Byte}
    (hserver : s.server = .receiving r.recvSize r.packetSize) (hbuf : s.ntpbBuf = r.buf)
    (hne : chunk ≠ []) (hle : chunk.length ≤ r.bsize) :
    s.step (.serverRecv chunk) = some (s.serverGot (r.recv chunk)) := by
  rw [State.step, State.serverRecv, hserver, hbuf]
  exact if_pos ⟨hne, hle⟩

theorem run_receive {r r' : Receiver} {bytes : List Byte} {pieces : List ℕ} {net : Net}
    (hserver : s.server = .receiving r.recvSize r.packetSize) (hbuf : s.ntpbBuf = r.buf)
    (h : (receive r bytes pieces).2 = some (r', net)) :
    ∃ chunks : List (List Byte), Steps s (chunks.map .serverRecv) (s.handlePacket r'.buf) ∧
      bytes = chunks.flatten ++ net.bytes := by
  induction pieces generalizing s r bytes with
  | nil => cases h
  | cons piece pieces ih =>
      obtain ⟨n, hn⟩ : ∃ n, n = r.arriving bytes piece := ⟨_, rfl⟩
      rw [receive_cons r bytes piece pieces hn] at h
      unfold Receiver.arriving at hn
      split_ifs at h with hzero hcomplete
      all_goals
        have hlen : (bytes.take n).length = n := by
          rw [List.length_take]
          omega
        have hne : bytes.take n ≠ [] := by
          intro hnil
          rw [hnil] at hlen
          exact hzero hlen.symm
        have hstep := step_serverRecv hserver hbuf hne (by omega)
      · cases h
        refine ⟨[bytes.take n], .cons trivial hstep ?_, by simp⟩
        rw [State.serverGot, if_pos hcomplete]
        exact .nil
      · rw [State.serverGot, if_neg hcomplete] at hstep
        generalize r.recv (bytes.take n) = r₁ at hstep h
        obtain ⟨chunks, hrun, hbytes⟩ := ih (s := { s with
          ntpbBuf := r₁.buf, server := .receiving r₁.recvSize r₁.packetSize }) rfl rfl h
        refine ⟨bytes.take n :: chunks, .cons trivial hstep hrun, ?_⟩
        rw [List.flatten_cons, List.append_assoc, ← hbytes, List.take_append_drop]

/-- A round of `Request` is a run of the server thread.  The command that it leaves for the
EE is the one that reaches `execRemoteCmd`; a packet without the magic changes only the
buffer. -/
theorem run_round {h h' : Head} {reply : Region Byte} (hserver : s.server = .receiving 0 0)
    (hbuf : s.ntpbBuf = h.ntpbBuf) (hround : (h.round reply).2 = some h') :
    ∃ (chunks : List (List Byte)) (s' : State), Steps s (chunks.map .serverRecv) s' ∧
      h.net.bytes = chunks.flatten ++ h'.net.bytes ∧
      (s'.server = .responding 0 ∧ s'.remoteCmd = h'.mailbox.execCmd ∨
        s'.server = .receiving 0 0 ∧ s'.ntpbBuf = h'.ntpbBuf) := by
  unfold Head.round at hround
  split at hround
  · cases hround
  · next copies r net hreceive =>
      have hresult : (receive (.idle h.ntpbBuf) h.net.bytes h.net.pieces).2 = some (r, net) := by
        rw [hreceive]
      obtain ⟨chunks, hrun, hbytes⟩ := run_receive hserver hbuf hresult
      refine ⟨chunks, _, hrun, ?_⟩
      split_ifs at hround with hheader
      · cases hround
        refine ⟨hbytes, Or.inl ?_⟩
        rw [State.handlePacket, if_pos hheader, Mailbox.execCmd_carry]
        exact ⟨rfl, rfl⟩
      · cases hround
        refine ⟨hbytes, Or.inr ?_⟩
        rw [State.handlePacket, if_neg hheader]
        exact ⟨rfl, rfl⟩

end Rounds

end Reply

/-! ### A connection -/

namespace Conn

/-- What is left of a reply: packets that fit into `ntpb_buf`, and its end. -/
def Pending (todo : List Msg) : Prop := ∃ data, todo = data ++ [eot] ∧ ∀ m ∈ data, m.Sendable

/-- The server of a connection as a state of the two threads.  A connection that has failed
is closed, or has lost the io semaphore. -/
inductive Shows (s : Reply.State) : Server → Prop
  | handling {r : Receiver} (hserver : s.server = .receiving r.recvSize r.packetSize)
      (hbuf : s.ntpbBuf = r.buf) (hrpc : s.rpc = .idle) (hexec : s.executing = false)
      (hio : s.ioSema = 1) (hcmd : s.cmdSema = 0) : Shows s (.handling r)
  | replying {todo : List Msg} (hserver : s.server = .waiting) (hrpc : s.rpc = .idle)
      (hexec : s.executing = true) (hio : s.ioSema = 1) (hcmd : s.cmdSema = 0)
      (htodo : Pending todo) : Shows s (.replying s.ntpbBuf todo)
  | acking {r : Receiver} {todo : List Msg} {call : Reply.Call} (hserver : s.server = .waiting)
      (hbuf : s.ntpbBuf = r.buf) (hrpc : s.rpc = .receiving call r.recvSize r.packetSize)
      (hexec : s.executing = true) (hio : s.ioSema = 0) (hcmd : s.cmdSema = 0)
      (hlast : call.isLast = true ↔ todo = []) (htodo : todo ≠ [] → Pending todo) :
      Shows s (.acking r todo)
  | failed (hlost : (∃ k, s.server = .closed k) ∨ s.ioSema = 0 ∧ s.rpc = .idle) : Shows s .failed

/-- The threads keep apart in all of this. -/
abbrev Threads (s : Reply.State) (events : List Reply.Event) (t : Reply.State) : Prop :=
  Run Reply.State.step Reply.Apart s events t

/-- The bytes that the server of the connection has added to the stream are those that the
threads have written; with a request they begin to count anew. -/
def Wrote (c c' : Conn) (s s' : Reply.State) : Prop :=
  ∃ n out, c'.toClient = c.toClient.drop n ++ out ∧
    (s'.written = s.written ++ out ∨ s'.written = out)

section

variable {s : Reply.State}

theorem Wrote.none {c c' : Conn} {s' : Reply.State} (hclient : c'.toClient = c.toClient)
    (hwritten : s'.written = s.written) : Wrote c c' s s' :=
  ⟨0, [], by simp [hclient], by simp [hwritten]⟩

/-- The call that sends the next packet of a reply. -/
theorem Pending.exists_call {m : Msg} {todo : List Msg} (h : Pending (m :: todo)) :
    ∃ call : Reply.Call, (∀ buf : Region Byte, call.build buf =
        (((buf.write 0 magic).put16 6 m.2.length).put16 8 m.1).write 10 m.2) ∧
      call.packetSize = m.2.length + hdrSize ∧ call.packetSize ≤ ntpbBufSize ∧
      (call.isLast = true ↔ todo = []) ∧ (todo ≠ [] → Pending todo) := by
  obtain ⟨data, heq, hsend⟩ := h
  cases data with
  | nil =>
      cases heq
      refine ⟨.endReply, fun buf => ?_, rfl, by decide, by simp [Reply.Call.isLast], by simp⟩
      simp [Reply.Call.build, eot]
  | cons m' data =>
      cases heq
      have hsize := (hsend m List.mem_cons_self).size
      refine ⟨.sendData m, fun buf => rfl, rfl, ?_, ?_, fun _ => ⟨data, rfl, ?_⟩⟩
      · simp only [Reply.Call.packetSize, hdrSize, ntpbBufSize]
        omega
      · simp [Reply.Call.isLast]
      · exact fun m' hm' => hsend m' (List.mem_cons_of_mem m hm')

theorem Shows.send {buf buf' : Region Byte} {m : Msg} {todo : List Msg}
    (h : Shows s (.replying buf (m :: todo)))
    (hbuf' : buf' = (((buf.write 0 magic).put16 6 m.2.length).put16 8 m.1).write 10 m.2) :
    ∃ events s', Threads s events s' ∧ Shows s' (.acking (.idle buf') todo) ∧
      s'.written = s.written ++ buf'.read 0 (m.2.length + hdrSize) := by
  cases h with
  | replying hserver hrpc hexec hio hcmd htodo =>
      obtain ⟨call, hbuild, hsize, hfits, hlast, hrest⟩ := htodo.exists_call
      rw [hbuf', ← hbuild, ← hsize]
      have hstart : Reply.Rpc.sent call 0 = .sending call 0 := by
        rw [Reply.Rpc.sent, hsize, if_pos (Nat.add_pos_right _ (by decide))]
      have hend : Reply.Rpc.sent call (0 + call.packetSize) = .receiving call 0 0 := by
        rw [Reply.Rpc.sent, if_neg (by omega)]
      have hcall : s.step (.call call) = some { s with
          rpc := .waiting call, calls := s.calls ++ [call] } := by
        simp [Reply.State.step, hrpc, hexec]
      have hwake := Reply.step_rpcWake (s := { s with
        rpc := .waiting call, calls := s.calls ++ [call] }) rfl (by simp [hio])
      have hsend := Reply.step_rpcSend (s := { s with
        calls := s.calls ++ [call], ioSema := s.ioSema - 1, ntpbBuf := call.build s.ntpbBuf
        rpc := .sent call 0 }) (n := call.packetSize) hstart (by omega)
      have hapart : Reply.Apart { s with rpc := .waiting call, calls := s.calls ++ [call] }
          .rpcWake := by
        refine ⟨hserver, fun c hc => ?_⟩
        cases hc
        exact hfits
      refine ⟨[.call call, .rpcWake, .rpcSend call.packetSize], _,
        .cons trivial hcall (.cons hapart hwake (.cons trivial hsend .nil)), ?_, rfl⟩
      refine .acking hserver rfl hend hexec ?_ hcmd hlast hrest
      simp [hio]

theorem Shows.handle {r : Receiver} (h : Shows s (.handling r)) (x : Exchange) (r' : Receiver)
    (c : Conn) (hword : checkNtpbHeader r'.buf = true → r'.buf.u16 8 ≠ 0) :
    ∃ events s', Threads (s.handlePacket r'.buf) events s' ∧
      Shows s' (handlePacket x r' c).server ∧ Wrote c (handlePacket x r' c) s s' := by
  cases h with
  | handling hserver hbuf hrpc hexec hio hcmd =>
      rw [handlePacket, Reply.State.handlePacket]
      split_ifs with hheader
      · set s₁ : Reply.State := { s with
          ntpbBuf := (r'.buf.put16 6 0).put16 hdrSize 1
          remoteCmd := r'.buf.u16 8
          server := .sent 0
          cmd := some (r'.buf.u16 8)
          calls := []
          written := [] } with hs₁
        have hsend : s₁.step (.serverSend 12) = some { s₁ with
            written := s₁.ntpbBuf.read 0 12, server := .waiting } := rfl
        have hfetch : Reply.State.step { s₁ with
            written := s₁.ntpbBuf.read 0 12, server := .waiting } .fetch = some { s₁ with
            written := s₁.ntpbBuf.read 0 12, server := .waiting
            remoteCmd := 0, executing := true } := by
          simp [Reply.State.step, hs₁, hrpc, hexec, hword hheader]
        refine ⟨[.serverSend 12, .fetch], _,
          .cons trivial hsend (.cons trivial hfetch .nil), ?_, 0, s₁.ntpbBuf.read 0 12, rfl,
          Or.inr rfl⟩
        refine .replying rfl hrpc rfl hio hcmd ⟨x.replies _, rfl, ?_⟩
        exact x.replies_sendable _
      · exact ⟨[], _, .nil, .handling rfl rfl hrpc hexec hio hcmd, .none rfl rfl⟩

/-- The acknowledgement of a packet.  With that of the end of the reply the server thread
wakes up. -/
theorem Shows.acknowledge {r : Receiver} {todo : List Msg} (h : Shows s (.acking r todo))
    {call : Reply.Call} {n k : ℕ} (hrpc : s.rpc = .receiving call n k) (r' : Receiver) (c : Conn) :
    ∃ events s', Threads (s.handleAck call r'.buf) events s' ∧
      Shows s' (handleAck r' todo c).server ∧ Wrote c (handleAck r' todo c) s s' := by
  cases h with
  | @acking _ _ call' hserver hbuf hrpc' hexec hio hcmd hlast htodo =>
      obtain rfl : call = call' := by
        rw [hrpc, Reply.Rpc.receiving.injEq] at hrpc'
        exact hrpc'.1
      rw [handleAck, Reply.State.handleAck]
      by_cases hack : (checkNtpbHeader r'.buf && r'.buf.u16 hdrSize == 1) = true
      · simp only [if_pos hack]
        by_cases hdone : todo = []
        · have hcall := hlast.mpr hdone
          rw [if_pos hdone]
          refine ⟨[.serverWake], _, .cons trivial (t := { s with
            ntpbBuf := r'.buf, ioSema := 1, cmdSema := 0, server := .receiving 0 0, rpc := .idle
            executing := false }) ?_ .nil, ?_, .none rfl rfl⟩
          · simp [Reply.State.step, Reply.State.finish, hserver, hcall, hcmd, hio, signal]
          · exact .handling rfl rfl rfl rfl rfl rfl
        · have hcall : call.isLast = false := Bool.eq_false_iff.mpr fun h => hdone (hlast.mp h)
          rw [if_neg hdone]
          refine ⟨[], _, .nil, .replying hserver rfl ?_ ?_ ?_ (htodo hdone), .none rfl rfl⟩
          · simp [Reply.State.finish, hexec, hcall]
          · simp [Reply.State.finish, hio, signal]
          · simp [Reply.State.finish, hcmd, hcall]
      · simp only [if_neg hack]
        exact ⟨[], _, .nil, .failed (Or.inr ⟨hio, rfl⟩), .none rfl rfl⟩

/-- What a `recv` of the server comes to: the buffer is full, or it brings some bytes. -/
theorem recvInto_cases {n : ℕ} {r : Receiver} {more : Receiver → Server}
    {complete : Receiver → Conn → Conn} {c c' : Conn}
    (h : c.recvInto n r more complete = some c') :
    c' = { c with server := .failed } ∨
      ∃ chunk, chunk ≠ [] ∧ chunk.length ≤ r.bsize ∧
        c' = if (r.recv chunk).complete then
            complete (r.recv chunk) { c with toServer := c.toServer.drop n }
          else { c with toServer := c.toServer.drop n, server := more (r.recv chunk) } := by
  unfold recvInto at h
  split_ifs at h with hfull hn
  · cases h
    exact Or.inl rfl
  · have hlen : (c.toServer.take n).length = n := by
      rw [List.length_take]
      omega
    refine Or.inr ⟨c.toServer.take n, fun hnil => ?_, by omega, (Option.some.inj h).symm⟩
    rw [hnil] at hlen
    exact hn.1.ne hlen

theorem mem_serverLog_handlePacket (x : Exchange) {r : Receiver} (c : Conn)
    (hheader : checkNtpbHeader r.buf = true) :
    (r.buf.u16 8, r.buf.read hdrSize (r.packetSize - hdrSize)) ∈
      (handlePacket x r c).serverLog := by
  rw [handlePacket, if_pos hheader]
  simp

theorem Shows.recv {x : Exchange} {c c' : Conn} {n : ℕ} (h : Shows s c.server)
    (hstep : c.serverRecv x n = some c') (hword : ∀ q ∈ c'.serverLog, q.1 ≠ 0) :
    ∃ events s', Threads s events s' ∧ Shows s' c'.server ∧ Wrote c c' s s' := by
  unfold serverRecv at hstep
  split at hstep
  · next r hr =>
      rw [hr] at h
      have hshows := h
      cases h with
      | handling hserver hbuf hrpc hexec hio hcmd =>
          -- `ntpb_buf` is full, or some bytes come in
          rcases recvInto_cases hstep with rfl | ⟨chunk, hne, hle, rfl⟩
          · have hfails : s.step .serverRecvFails = some { s with
                server := .closed (hdrSize + 2) } := by
              rw [Reply.State.step, hserver]
            exact ⟨[.serverRecvFails], _, .cons trivial hfails .nil, .failed (Or.inl ⟨_, rfl⟩),
              .none rfl rfl⟩
          · have hgot := Reply.step_serverRecv hserver hbuf hne hle
            rw [Reply.State.serverGot] at hgot
            by_cases hcomplete : (r.recv chunk).complete = true
            · rw [if_pos hcomplete] at hword hgot ⊢
              obtain ⟨events, s', hrun, hresult⟩ := hshows.handle x (r.recv chunk)
                { c with toServer := c.toServer.drop n }
                fun hheader => hword _ (mem_serverLog_handlePacket x _ hheader)
              exact ⟨.serverRecv chunk :: events, s', .cons trivial hgot hrun, hresult⟩
            · rw [if_neg hcomplete] at hgot ⊢
              exact ⟨[.serverRecv chunk], _, .cons trivial hgot .nil,
                .handling rfl rfl hrpc hexec hio hcmd, .none rfl rfl⟩
  · -- the acknowledgement comes in where the packet went out
    next r todo hr =>
      rw [hr] at h
      have hshows := h
      cases h with
      | @acking _ _ call hserver hbuf hrpc hexec hio hcmd hlast htodo =>
          rcases recvInto_cases hstep with rfl | ⟨chunk, hne, hle, rfl⟩
          · have hfails : s.step .rpcRecvFails = some (s.finish call) := by
              rw [Reply.State.step, hrpc]
            exact ⟨[.rpcRecvFails], _, .cons trivial hfails .nil, .failed (Or.inr ⟨hio, rfl⟩),
              .none rfl rfl⟩
          · have hgot := Reply.step_rpcRecv hrpc hbuf hne hle
            rw [Reply.State.rpcGot] at hgot
            by_cases hcomplete : (r.recv chunk).complete = true
            · rw [if_pos hcomplete] at hgot ⊢
              obtain ⟨events, s', hrun, hresult⟩ := hshows.acknowledge hrpc (r.recv chunk)
                { c with toServer := c.toServer.drop n }
              exact ⟨.rpcRecv chunk :: events, s', .cons trivial hgot hrun, hresult⟩
            · rw [if_neg hcomplete] at hgot ⊢
              exact ⟨[.rpcRecv chunk], _, .cons trivial hgot .nil,
                .acking hserver rfl rfl hexec hio hcmd hlast htodo, .none rfl rfl⟩
  · cases hstep

/-- A step of the client leaves the server alone. -/
theorem server_of_clientSend {x : Exchange} {c c' : Conn} (hstep : c.clientSend x = some c') :
    c'.server = c.server ∧ c'.serverLog = c.serverLog ∧ c'.toClient = c.toClient := by
  unfold clientSend at hstep
  split at hstep
  · cases hstep
    exact ⟨rfl, rfl, rfl⟩
  · cases hstep

theorem server_of_clientRecv {c c' : Conn} {n : ℕ} (hstep : c.clientRecv n = some c') :
    c'.server = c.server ∧ c'.serverLog = c.serverLog ∧ c'.toClient = c.toClient.drop n := by
  unfold clientRecv at hstep
  dsimp only at hstep
  split at hstep
  · split_ifs at hstep
    cases hstep
    exact ⟨rfl, rfl, rfl⟩
  · split_ifs at hstep <;> cases hstep <;> exact ⟨rfl, rfl, rfl⟩
  · cases hstep

/-- The server forgets no packet. -/
theorem serverLog_subset {x : Exchange} {c c' : Conn} {e : Event} (hstep : c.step x e = some c') :
    c.serverLog ⊆ c'.serverLog := by
  cases e with
  | clientSend => exact (server_of_clientSend hstep).2.1 ▸ List.Subset.refl _
  | clientRecv n => exact (server_of_clientRecv hstep).2.1 ▸ List.Subset.refl _
  | serverSend =>
      rw [step, serverSend] at hstep
      split at hstep
      · cases hstep
        exact List.Subset.refl _
      · cases hstep
  | serverRecv n =>
      rw [step, serverRecv] at hstep
      split at hstep
      · rcases recvInto_cases hstep with rfl | ⟨chunk, -, -, rfl⟩
        · exact List.Subset.refl _
        · unfold handlePacket
          split_ifs <;> simp
      · rcases recvInto_cases hstep with rfl | ⟨chunk, -, -, rfl⟩
        · exact List.Subset.refl _
        · unfold handleAck
          split_ifs <;> simp
      · cases hstep

/-- Every step of a connection is a run of the two threads, and puts the same bytes on the
way to the client.  The EE has nothing to fetch for the command word 0. -/
theorem step_simulated {x : Exchange} {c c' : Conn} {e : Event} (h : Shows s c.server)
    (hstep : c.step x e = some c') (hword : ∀ q ∈ c'.serverLog, q.1 ≠ 0) :
    ∃ events s', Threads s events s' ∧ Shows s' c'.server ∧ Wrote c c' s s' := by
  cases e with
  | clientSend =>
      obtain ⟨hserver, -, hclient⟩ := server_of_clientSend hstep
      exact ⟨[], s, .nil, by rwa [hserver], .none hclient rfl⟩
  | clientRecv n =>
      obtain ⟨hserver, -, hclient⟩ := server_of_clientRecv hstep
      exact ⟨[], s, .nil, by rwa [hserver], n, [], by simp [hclient], by simp⟩
  | serverSend =>
      rw [step, serverSend] at hstep
      split at hstep
      · next buf cmd data todo hserver =>
          rw [hserver] at h
          obtain ⟨events, s', hrun, hshows, hwritten⟩ := h.send rfl
          cases hstep
          exact ⟨events, s', hrun, hshows, 0, _, rfl, Or.inl hwritten⟩
      · cases hstep
  | serverRecv n => exact h.recv hstep hword

end

/-- Every run of a connection, however its streams are cut, is a run of the two threads in
which they keep apart; so the client gets its reply in order. -/
theorem run_simulated {x : Exchange} {ok : Conn → Event → Prop} {buf : Region Byte}
    {events : List Event} {c : Conn} (hrun : Run (step x) ok (initial buf) events c)
    (hword : ∀ q ∈ c.serverLog, q.1 ≠ 0) :
    ∃ events' s, Threads (Reply.initial buf) events' s ∧ Shows s c.server ∧ Reply.InOrder s := by
  suffices ∃ events' s, Threads (Reply.initial buf) events' s ∧ Shows s c.server by
    obtain ⟨events', s, hthreads, hshows⟩ := this
    have hinv : Reply.Inv s :=
      hthreads.invariant (Reply.inv_initial buf) fun _ _ _ h hok hstep => h.step hok hstep
    exact ⟨events', s, hthreads, hshows, hinv.inOrder⟩
  induction hrun with
  | nil => exact ⟨[], _, .nil, .handling rfl rfl rfl rfl rfl rfl⟩
  | snoc _ _ hstep ih =>
      obtain ⟨events', s, hthreads, hshows⟩ := ih fun q hq => hword q (serverLog_subset hstep hq)
      obtain ⟨more, s', hmore, hshows', -⟩ := step_simulated hshows hstep hword
      exact ⟨events' ++ more, s', hthreads.append hmore, hshows'⟩

end Conn

/-! ### Commands -/

/-- The semaphores after a call, by the value that it returns. -/
theorem IoSema.Server.Holds.call {t t' : Server} {buf : Region Byte} {io cmd : ℕ}
    (h : t.Holds buf io cmd) {c : Reply.Call} {outcomes left : Outcomes} {ret : ℤ}
    (hcall : IoSema.call c outcomes t = some (ret, t', left)) :
    io = 1 ∧ t'.Holds t'.ntpbBuf (if ret = 0 then 1 else 0)
      (if ret = 0 ∧ c.isLast = true then signal cmd else cmd) := by
  rw [call_eq] at hcall
  obtain ⟨ioSema, hwait, hrest⟩ := Option.bind_eq_some_iff.mp hcall
  obtain ⟨⟨ret', buf', left'⟩, -, heq⟩ := Option.map_eq_some_iff.mp hrest
  cases heq
  obtain ⟨hpos, hinside⟩ := h.wait hwait
  obtain rfl : io = 1 := by
    have hle := h.io_le
    omega
  refine ⟨rfl, ?_⟩
  by_cases hret : ret = 0
  · subst hret
    simp only [true_and, if_true]
    exact hinside.posted_zero c buf'
  · rw [if_neg hret, if_neg fun h => hret h.1]
    exact hinside.posted_error c buf' hret

namespace Session

section

variable {s : State} {t t' : IoSema.Server} {buf : Region Byte} {outcomes left : IoSema.Outcomes}
  {ret : ℤ}

theorem sendData_call (mode : RpcMode) {m : Msg} (hee : s.ee = .dumping)
    (ht : t.Holds buf s.ioSema s.cmdSema)
    (hcall : IoSema.call (.sendData m) outcomes t = some (ret, t', left)) :
    ∃ s', step mode s (.sendData (ret = 0)) = some s' ∧
      t'.Holds t'.ntpbBuf s'.ioSema s'.cmdSema := by
  obtain ⟨hio, hholds⟩ := ht.call hcall
  have hstep : step mode s (.sendData (ret = 0)) =
      some { s with ioSema := if ret = 0 then 1 else 0 } := by
    simp [step, serverStep, rpcStep, eeStep, hee, hio]
  exact ⟨_, hstep, by simpa [Reply.Call.isLast] using hholds⟩

theorem endReply_call (mode : RpcMode) {word : ℕ} (hee : s.ee = .ending word)
    (ht : t.Holds buf s.ioSema s.cmdSema)
    (hcall : IoSema.call .endReply outcomes t = some (ret, t', left)) :
    ∃ s', step mode s (.endReply (ret = 0)) = some s' ∧ s'.ee = .ended word ∧
      t'.Holds t'.ntpbBuf s'.ioSema s'.cmdSema := by
  obtain ⟨hio, hholds⟩ := ht.call hcall
  have hstep : step mode s (.endReply (ret = 0)) = some { s with
      ee := .ended word
      ioSema := if ret = 0 then 1 else 0
      cmdSema := if ret = 0 then signal s.cmdSema else s.cmdSema } := by
    by_cases hret : ret = 0 <;> simp [step, serverStep, rpcStep, eeStep, hee, hio, hret]
  exact ⟨_, hstep, rfl, by simpa [Reply.Call.isLast] using hholds⟩

/-- The request that waits in `remote_cmd` and `cmdbuf`. -/
structure State.Waits (s : State) (m : Mailbox) : Prop where
  remoteCmd : s.remoteCmd = m.remoteCmd
  data : s.data = m.cmdbuf.read 0 m.cmdsize

theorem accept_store (mode : RpcMode) (m : Mailbox) (pbuf : Region Byte) (n : ℕ)
    (hserver : s.server = .receiving) :
    ∃ s', step mode s (.accept (pbuf.u16 8, pbuf.read hdrSize n)) = some s' ∧
      s'.Waits (m.store pbuf n) := by
  have hstep : step mode s (.accept (pbuf.u16 8, pbuf.read hdrSize n)) = some { s with
      server := .responding
      remoteCmd := pbuf.u16 8
      data := pbuf.read hdrSize n
      accepted := s.accepted ++ [(pbuf.u16 8, pbuf.read hdrSize n)] } := by
    simp [step, serverStep, hserver]
  refine ⟨_, hstep, (m.remoteCmd_store pbuf n).symm, ?_⟩
  rw [m.cmdsize_store]
  exact (m.read_cmdbuf_store pbuf n).symm

/-- The fetch of a request by the RPC thread.  What arrives at the EE is what `Request`
carries there, as long as the data fits into the parameter. -/
theorem fetch_carry (mode : RpcMode) {m : Mailbox} (hrpc : s.rpc = .called) (hwaits : s.Waits m) :
    ∃ s', Run (step mode) (fun _ _ => True) s [.take, .clear, .copy, .land] s' ∧
      s'.Waits m.fetch ∧
      (m.remoteCmd < 2 ^ 16 → m.cmdsize ≤ 56 → s'.param = (m.fetch.getRemoteCmd.execCmd,
        m.fetch.getRemoteCmd.execCmdBuf.read 0 m.cmdsize)) := by
  set s' : State := { s with
    rpc := .idle
    remoteCmd := 0
    fetched := if s.remoteCmd = 0 then none else some s.accepted.length
    param := (s.remoteCmd, s.data) }
  have halong : Run.along (step mode) (fun _ _ => True) s [.take, .clear, .copy, .land] =
      some s' := by
    simp [Run.along, step, serverStep, rpcStep, hrpc, s']
  refine ⟨s', .of_along halong, ⟨rfl, hwaits.data⟩, fun hcmd hsize => ?_⟩
  rw [m.execCmd_getRemoteCmd_fetch, Nat.mod_eq_of_lt hcmd,
    m.read_execCmdBuf_getRemoteCmd_fetch hsize, ← hwaits.remoteCmd, ← hwaits.data]

end

end Session

end Ps2rd.Ntpb
