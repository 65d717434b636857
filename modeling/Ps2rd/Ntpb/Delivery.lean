import Ps2rd.Ntpb.Connection

/-!
# What both sides recover

As long as no `recv` divides what its caller takes for granted, the two programs go
through the phases below one after the other, and both recover the packets that
were sent, however else the streams are cut.
-/

namespace Ps2rd.Ntpb

open Region

variable {x : Exchange}

/-! ### The packets of a reply -/

theorem Exchange.sendable_of_mem (x : Exchange) {q m : Msg} (hm : m ∈ x.answer q) :
    m.Sendable := by
  rcases List.mem_append.mp hm with hm | hm
  · exact x.replies_sendable q m hm
  · rw [List.mem_singleton.mp hm]
    exact ⟨by decide, by decide⟩

/-- The client takes exactly the last packet of a reply for its end. -/
theorem Exchange.cmdEot_iff (x : Exchange) {q p : Msg} {sent todo : List Msg}
    (hanswer : x.answer q = sent ++ p :: todo) : p.1 = cmdEot ↔ todo = [] := by
  rcases List.eq_nil_or_concat todo with rfl | ⟨init, last, rfl⟩
  · have hp : eot = p := (List.append_inj' hanswer rfl).2 |> List.head_eq_of_cons_eq
    simp [← hp, eot]
  · have hreplies : x.replies q = sent ++ p :: init := by
      rw [List.concat_eq_append, ← List.cons_append, ← List.append_assoc] at hanswer
      exact (List.append_inj' hanswer rfl).1
    have hne := x.replies_ne_eot q p (by simp [hreplies])
    simp [hne]

namespace Conn

/-! ### Phases -/

/-- The phases of an exchange.  `sent` are the packets of the reply that the client
has got, `p` is the one on its way. -/
inductive Phase (x : Exchange) : Conn → Prop
  | start (buf : Region Byte) : Phase x (initial buf)
  | request (buf : Region Byte) (m : ℕ) (hm : m < x.request.bytes.length) :
      Phase x ⟨.handling (.upTo buf x.request.bytes x.request.2.length m),
        .response, x.request.bytes.drop m, [], [], []⟩
  | accepted (buf : Region Byte) (response : List Byte) (hresponse : response.length = 12) :
      Phase x ⟨.replying buf (x.answer x.request), .response, [], response, [x.request], []⟩
  | early (buf : Region Byte) (response : List Byte) (hresponse : response.length = 12) (p : Msg)
      (todo : List Msg) (hanswer : x.answer x.request = p :: todo) :
      Phase x ⟨.acking (.idle buf) todo, .response, [], response ++ p.bytes, [x.request], []⟩
  | ready (buf : Region Byte) (sent : List Msg) (p : Msg) (todo : List Msg)
      (hanswer : x.answer x.request = sent ++ p :: todo) :
      Phase x ⟨.replying buf (p :: todo), .receiving .idle, [], [],
        x.request :: sent.map fun _ => ackMsg, sent⟩
  | data (buf : Region Byte) (sent : List Msg) (p : Msg) (todo : List Msg)
      (hanswer : x.answer x.request = sent ++ p :: todo) (m : ℕ)
      (hm : m < p.bytes.length) :
      Phase x ⟨.acking (.idle buf) todo, .receiving (.upTo p m), [], p.bytes.drop m,
        x.request :: sent.map fun _ => ackMsg, sent⟩
  | acked (buf : Region Byte) (sent : List Msg) (p : Msg) (todo : List Msg)
      (hanswer : x.answer x.request = sent ++ p :: todo) (m : ℕ) (hm : m < 11) :
      Phase x ⟨.acking (.upTo buf ack 1 m) todo, .next p.1, ack.drop m, [],
        x.request :: sent.map fun _ => ackMsg, sent ++ [p]⟩
  | finished (buf : Region Byte) :
      Phase x ⟨.handling (.idle buf), .done, [], [],
        x.request :: (x.answer x.request).map fun _ => ackMsg, x.answer x.request⟩

/-! ### Steps -/

theorem recvInto_eq_some {c c' : Conn} {n : ℕ} {r : Receiver} {more : Receiver → Server}
    {complete : Receiver → Conn → Conn} (hroom : r.bsize ≠ 0)
    (h : c.recvInto n r more complete = some c') :
    (0 < n ∧ n ≤ c.toServer.length) ∧
      c' = if (r.recv (c.toServer.take n)).complete then
          complete (r.recv (c.toServer.take n)) { c with toServer := c.toServer.drop n }
        else { c with
          toServer := c.toServer.drop n, server := more (r.recv (c.toServer.take n)) } := by
  simp only [recvInto, hroom, false_and, if_false] at h
  by_cases hn : 0 < n ∧ n ≤ min c.toServer.length r.bsize
  · rw [if_pos hn] at h
    exact ⟨⟨hn.1, (le_min_iff.mp hn.2).1⟩, (Option.some.inj h).symm⟩
  · rw [if_neg hn] at h
    cases h

theorem recvInto_nil (n : ℕ) (r : Receiver) (more : Receiver → Server)
    (complete : Receiver → Conn → Conn) {c : Conn} (hc : c.toServer = []) :
    c.recvInto n r more complete = none := by
  simp [recvInto, hc, Nat.pos_iff_ne_zero]

theorem bsize_upTo_ne_zero (buf : Region Byte) (bytes : List Byte) (size : ℕ) {m : ℕ}
    (hm : m < ntpbBufSize) : (Receiver.upTo buf bytes size m).bsize ≠ 0 := by
  simp only [Receiver.bsize, Receiver.upTo]
  omega

/-- The server takes a piece of the request. -/
theorem phase_of_request {buf : Region Byte} {m n : ℕ} {c' : Conn}
    (hm : m < x.request.bytes.length) (hfirst : m = 0 → 8 ≤ n)
    (h : recvInto n (.upTo buf x.request.bytes x.request.2.length m) .handling (handlePacket x)
      ⟨.handling (.upTo buf x.request.bytes x.request.2.length m), .response,
        x.request.bytes.drop m, [], [], []⟩ = some c') : Phase x c' := by
  obtain ⟨hcmd, hsize⟩ := x.request_sendable
  rw [length_packet] at hm
  obtain ⟨⟨hpos, hle⟩, rfl⟩ :=
    recvInto_eq_some (bsize_upTo_ne_zero _ _ _ (by unfold ntpbBufSize; omega)) h
  simp only [List.length_drop, length_packet] at hle
  have hrecv := Receiver.recv_upTo buf x.request.bytes
    (leNat_size_packet x.request.1 (by omega)) hpos (by rw [length_packet]; omega) hfirst
  simp only [hrecv, Receiver.complete_upTo, List.drop_drop]
  split_ifs with hcomplete
  · have hall : m + n = x.request.bytes.length := by
      rw [length_packet]
      unfold hdrSize at hcomplete
      omega
    obtain ⟨hheader, hword, hdata⟩ := read_of_packet buf x.request.2 hcmd
    have hpacket : Receiver.upTo buf x.request.bytes x.request.2.length (m + n) =
        ⟨buf.write 0 x.request.bytes, m + n, x.request.2.length + hdrSize⟩ := by
      rw [Receiver.upTo, if_neg (by omega), hall, List.take_length]
    simp only [hpacket, handlePacket, hheader, if_true, hword, Nat.add_sub_cancel, hdata,
      List.nil_append]
    rw [hall, List.drop_length]
    exact .accepted _ _ (length_read _ _ _)
  · refine .request buf (m + n) ?_
    rw [length_packet]
    unfold hdrSize at hcomplete
    omega

/-- The server takes a piece of an acknowledgement. -/
theorem phase_of_ack {buf : Region Byte} {sent todo : List Msg} {p : Msg} {m n : ℕ} {c' : Conn}
    (hanswer : x.answer x.request = sent ++ p :: todo) (hm : m < 11) (hfirst : m = 0 → 8 ≤ n)
    (hlast : m + n ≠ 11)
    (h : recvInto n (.upTo buf ack 1 m) (.acking · todo) (handleAck · todo)
      ⟨.acking (.upTo buf ack 1 m) todo, .next p.1, ack.drop m, [],
        x.request :: sent.map fun _ => ackMsg, sent ++ [p]⟩ = some c') :
    Phase x c' := by
  obtain ⟨⟨hpos, hle⟩, rfl⟩ :=
    recvInto_eq_some (bsize_upTo_ne_zero _ _ _ (by unfold ntpbBufSize; omega)) h
  have hlen : ack.length = 12 := rfl
  simp only [List.length_drop, hlen] at hle
  have hsize : leNat ((ack.drop 6).take 2) = 1 := by decide
  have hrecv := Receiver.recv_upTo buf ack hsize hpos (by rw [hlen]; omega) hfirst
  simp only [hrecv, Receiver.complete_upTo, List.drop_drop]
  split_ifs with hcomplete
  · -- 11 bytes would do for the loop, but the condition leaves only all 12
    have hall : m + n = 12 := by
      unfold hdrSize at hcomplete
      omega
    obtain ⟨hheader, -, hword, hdata⟩ := read_of_ack buf
    have hbuf : (Receiver.upTo buf ack 1 (m + n)).buf = buf.write 0 ack := by
      rw [Receiver.upTo, hall]
      rfl
    have hdrop : ack.drop (m + n) = [] := by
      rw [hall]
      rfl
    have hlog : (x.request :: sent.map fun _ => ackMsg) ++ [ackMsg] =
        x.request :: (sent ++ [p]).map fun _ => ackMsg := by simp
    simp only [handleAck, hbuf, hheader, u16_ack, hword, hdata, hdrop, beq_self_eq_true,
      Bool.and_self, if_true]
    rw [show (cmdEot, leBytes 2 1) = ackMsg from rfl, hlog]
    have heot := x.cmdEot_iff hanswer
    -- after the last packet both sides are done, else the server sends the next one
    cases todo with
    | nil =>
        rw [ClientState.next, if_pos (heot.mpr rfl), if_pos rfl, ← hanswer]
        exact .finished _
    | cons p' todo =>
        have hne : ¬ p.1 = cmdEot := fun hp => List.cons_ne_nil p' todo (heot.mp hp)
        rw [ClientState.next, if_neg hne, if_neg (List.cons_ne_nil p' todo)]
        exact .ready _ (sent ++ [p]) p' todo (by simp [hanswer])
  · refine .acked buf sent p todo hanswer (m + n) ?_
    unfold hdrSize at hcomplete
    omega

/-- The client takes a piece of a packet of the reply. -/
theorem phase_of_data {buf : Region Byte} {sent todo : List Msg} {p : Msg} {m n : ℕ} {c' : Conn}
    (hanswer : x.answer x.request = sent ++ p :: todo) (hm : m < p.bytes.length)
    (hfirst : m = 0 → 10 ≤ n)
    (h : clientRecv n ⟨.acking (.idle buf) todo, .receiving (.upTo p m), [], p.bytes.drop m,
        x.request :: sent.map fun _ => ackMsg, sent⟩ = some c') :
    Phase x c' := by
  have hp : p.Sendable := x.sendable_of_mem (q := x.request) (by simp [hanswer])
  rw [length_packet] at hm
  simp only [clientRecv, List.length_drop, length_packet] at h
  by_cases hn : 0 < n ∧ n ≤ min (p.2.length + 10 - m) (Client.Receiver.upTo p m).bsize
  swap
  · rw [if_neg hn] at h
    cases h
  rw [if_pos hn] at h
  obtain rfl := Option.some.inj h
  obtain ⟨hpos, hle⟩ := And.imp_right (fun h => (le_min_iff.mp h).1) hn
  have hrecv := Client.Receiver.recv_upTo hp hpos (by rw [length_packet]; omega) hfirst
  have hcomplete := Client.Receiver.complete_upTo p (m := m + n)
    (by unfold hdrSize; omega)
  simp only [hrecv, hcomplete, List.drop_drop]
  split_ifs with hall
  · have hdrop : p.bytes.drop (m + n) = [] := by
      rw [hall]
      exact List.drop_eq_nil_of_le (by simp [hdrSize])
    have hpacket : Client.Receiver.upTo p (m + n) = ⟨p.bytes, p.2.length + hdrSize, p.1⟩ := by
      rw [Client.Receiver.upTo, if_neg (by omega), hall, List.take_of_length_le (by simp [hdrSize])]
    simp only [handleData, hpacket, hdrop, List.nil_append, drop_packet]
    rw [Receiver.idle_eq_upTo buf ack 1]
    exact .acked buf sent p todo hanswer 0 (by decide)
  · refine .data buf sent p todo hanswer (m + n) ?_
    rw [length_packet]
    unfold hdrSize at hall
    omega

/-- The next packet of a reply goes out. -/
theorem serverSend_replying (buf : Region Byte) (p : Msg) (todo : List Msg) (client : ClientState)
    (toServer toClient : List Byte) (serverLog clientLog : List Msg) :
    serverSend ⟨.replying buf (p :: todo), client, toServer, toClient, serverLog, clientLog⟩ =
      some ⟨.acking (.idle (buf.write 0 p.bytes)) todo, client, toServer, toClient ++ p.bytes,
        serverLog, clientLog⟩ := by
  obtain ⟨cmd, data⟩ := p
  simp only [serverSend, write_packet]
  rw [read_write_of_length buf 0 (n := data.length + hdrSize) (length_packet cmd data)]

theorem clientRecv_nil (n : ℕ) {c : Conn} (hc : c.toClient = []) : c.clientRecv n = none := by
  unfold clientRecv
  split <;> simp [hc, Nat.pos_iff_ne_zero]

/-- `ntpb_send_cmd` takes the response and leaves what follows it. -/
theorem clientRecv_response (server : Server) (toServer : List Byte) {response : List Byte}
    (hresponse : response.length = 12) (rest : List Byte) (serverLog clientLog : List Msg) :
    clientRecv 12 ⟨server, .response, toServer, response ++ rest, serverLog, clientLog⟩ =
      some ⟨server, .receiving .idle, toServer, rest, serverLog, clientLog⟩ := by
  have hdrop : (response ++ rest).drop 12 = rest := List.drop_left' hresponse
  simp [clientRecv, hresponse, hdrop, Client.bufSize]

/-- The only steps there are in a phase lead to the phases that may follow it. -/
theorem Phase.step {c c' : Conn} {e : Event} (hc : Phase x c) (hok : c.Undivided e)
    (hstep : c.step x e = some c') : Phase x c' := by
  cases hc with
  | start buf =>
      cases e with
      | clientSend =>
          obtain rfl := Option.some.inj hstep
          simp only [initial, List.nil_append]
          rw [Receiver.idle_eq_upTo buf x.request.bytes x.request.2.length]
          exact .request buf 0 (by simp)
      | clientRecv n => simp [Conn.step, initial, clientRecv_nil] at hstep
      | serverSend => simp [Conn.step, serverSend, initial] at hstep
      | serverRecv n => simp [Conn.step, serverRecv, initial, recvInto_nil] at hstep
  | request buf m hm =>
      cases e with
      | clientSend => simp [Conn.step, clientSend] at hstep
      | clientRecv n => simp [Conn.step, clientRecv_nil] at hstep
      | serverSend => simp [Conn.step, serverSend] at hstep
      | serverRecv n => exact phase_of_request hm hok hstep
  -- the response is on its way: the client takes it alone, or the server sends on before
  | accepted buf response hresponse =>
      obtain ⟨p, todo, hanswer⟩ : ∃ p todo, x.answer x.request = p :: todo :=
        List.exists_cons_of_ne_nil (by simp [Exchange.answer])
      cases e with
      | clientSend => simp [Conn.step, clientSend] at hstep
      | clientRecv n =>
          obtain rfl : n = 12 := hok
          have hrecv := clientRecv_response (.replying buf (x.answer x.request)) [] hresponse []
            [x.request] []
          rw [List.append_nil] at hrecv
          obtain rfl := Option.some.inj (hrecv.symm.trans hstep)
          rw [hanswer]
          exact .ready buf [] p todo hanswer
      | serverSend =>
          rw [hanswer] at hstep
          obtain rfl := Option.some.inj ((serverSend_replying ..).symm.trans hstep)
          exact .early _ response hresponse p todo hanswer
      | serverRecv n => simp [Conn.step, serverRecv] at hstep
  | early buf response hresponse p todo hanswer =>
      cases e with
      | clientSend => simp [Conn.step, clientSend] at hstep
      | clientRecv n =>
          obtain rfl : n = 12 := hok
          obtain rfl := Option.some.inj ((clientRecv_response _ _ hresponse _ _ _).symm.trans hstep)
          exact .data buf [] p todo hanswer 0 (by simp)
      | serverSend => simp [Conn.step, serverSend] at hstep
      | serverRecv n => simp [Conn.step, serverRecv, recvInto_nil] at hstep
  | ready buf sent p todo hanswer =>
      cases e with
      | clientSend => simp [Conn.step, clientSend] at hstep
      | clientRecv n => simp [Conn.step, clientRecv_nil] at hstep
      | serverSend =>
          obtain rfl := Option.some.inj ((serverSend_replying ..).symm.trans hstep)
          exact .data _ sent p todo hanswer 0 (by simp)
      | serverRecv n => simp [Conn.step, serverRecv] at hstep
  -- the client is in the middle of a packet, and the server waits
  | data buf sent p todo hanswer m hm =>
      cases e with
      | clientSend => simp [Conn.step, clientSend] at hstep
      | clientRecv n =>
          refine phase_of_data hanswer hm (fun hzero => hok ?_) hstep
          rw [Client.Receiver.buf_upTo, hzero]
          rfl
      | serverSend => simp [Conn.step, serverSend] at hstep
      | serverRecv n => simp [Conn.step, serverRecv, recvInto_nil] at hstep
  | acked buf sent p todo hanswer m hm =>
      cases e with
      | clientSend =>
          simp only [Conn.step, clientSend, ClientState.next] at hstep
          split_ifs at hstep
      | clientRecv n => simp [Conn.step, clientRecv_nil] at hstep
      | serverSend => simp [Conn.step, serverSend] at hstep
      | serverRecv n => exact phase_of_ack hanswer hm hok.1 hok.2 hstep
  | finished buf =>
      cases e with
      | clientSend => simp [Conn.step, clientSend] at hstep
      | clientRecv n => simp [Conn.step, clientRecv_nil] at hstep
      | serverSend => simp [Conn.step, serverSend] at hstep
      | serverRecv n => simp [Conn.step, serverRecv, recvInto_nil] at hstep

/-! ### Runs -/

theorem recvInto_ne_none {c : Conn} {r : Receiver} (hc : c.toServer ≠ []) (more : Receiver → Server)
    (complete : Receiver → Conn → Conn) : c.recvInto 1 r more complete ≠ none := by
  have hlen : 1 ≤ c.toServer.length := List.length_pos_iff.mpr hc
  unfold recvInto
  split_ifs with hfull hone
  · simp
  · simp
  · exact absurd ⟨Nat.one_pos, le_min hlen (by simp [hc] at hfull; omega)⟩ hone

/-- Until everything has been recovered, something can happen. -/
theorem Phase.exists_step {c : Conn} (hc : Phase x c) :
    (∃ e, c.step x e ≠ none) ∨ c.serverLog = wholeServer x ∧ c.clientLog = wholeClient x := by
  cases hc with
  | start buf => exact Or.inl ⟨.clientSend, by simp [Conn.step, clientSend, initial]⟩
  | request buf m hm =>
      refine Or.inl ⟨.serverRecv 1, recvInto_ne_none ?_ _ _⟩
      simpa using hm
  | accepted buf response hresponse =>
      obtain ⟨p, todo, hanswer⟩ : ∃ p todo, x.answer x.request = p :: todo :=
        List.exists_cons_of_ne_nil (by simp [Exchange.answer])
      refine Or.inl ⟨.serverSend, ?_⟩
      rw [hanswer, Conn.step, serverSend_replying]
      simp
  | early buf response hresponse p todo hanswer =>
      refine Or.inl ⟨.clientRecv 12, ?_⟩
      rw [Conn.step, clientRecv_response _ _ hresponse]
      simp
  | ready buf sent p todo hanswer =>
      refine Or.inl ⟨.serverSend, ?_⟩
      rw [Conn.step, serverSend_replying]
      simp
  -- the client's buffer is larger than any packet, so a byte can always be taken
  | data buf sent p todo hanswer m hm =>
      have hp : p.Sendable := x.sendable_of_mem (q := x.request) (by simp [hanswer])
      have hroom : 1 ≤ (Client.Receiver.upTo p m).bsize := by
        have hsize := hp.size
        rw [length_packet] at hm
        simp only [Client.Receiver.bsize, Client.Receiver.buf_upTo, List.length_take, length_packet,
          Client.bufSize]
        omega
      have hone : 0 < 1 ∧ 1 ≤ min (p.bytes.drop m).length (Client.Receiver.upTo p m).bsize :=
        ⟨Nat.one_pos, le_min (by rw [List.length_drop]; omega) hroom⟩
      refine Or.inl ⟨.clientRecv 1, ?_⟩
      simp only [Conn.step, clientRecv]
      rw [if_pos hone]
      simp
  | acked buf sent p todo hanswer m hm =>
      refine Or.inl ⟨.serverRecv 1, ?_⟩
      simp only [Conn.step, serverRecv]
      refine recvInto_ne_none (List.ne_nil_of_length_pos ?_) _ _
      rw [List.length_drop, show ack.length = 12 from rfl]
      omega
  | finished buf => exact Or.inr ⟨rfl, rfl⟩

theorem Phase.faithful {c : Conn} (hc : Phase x c) : Faithful x c := by
  refine ⟨?_, ?_, fun hstuck => ?_⟩
  · cases hc with
    | start buf => exact List.nil_prefix
    | request buf m hm => exact List.nil_prefix
    | accepted buf response hresponse => exact ⟨_, rfl⟩
    | early buf response hresponse p todo hanswer => exact ⟨_, rfl⟩
    | ready buf sent p todo hanswer => simp [wholeServer, hanswer]
    | data buf sent p todo hanswer m hm => simp [wholeServer, hanswer]
    | acked buf sent p todo hanswer m hm => simp [wholeServer, hanswer]
    | finished buf => exact List.prefix_rfl
  · cases hc with
    | start buf => exact List.nil_prefix
    | request buf m hm => exact List.nil_prefix
    | accepted buf response hresponse => exact List.nil_prefix
    | early buf response hresponse p todo hanswer => exact List.nil_prefix
    | ready buf sent p todo hanswer => exact ⟨_, hanswer.symm⟩
    | data buf sent p todo hanswer m hm => exact ⟨_, hanswer.symm⟩
    | acked buf sent p todo hanswer m hm => exact ⟨todo, by simp [wholeClient, hanswer]⟩
    | finished buf => exact List.prefix_rfl
  · exact hc.exists_step.resolve_left fun ⟨e, he⟩ => he (hstuck e)

/-- Whatever else TCP does with the two streams, both sides recover the packets that
were sent. -/
theorem faithful_of_undivided {buf : Region Byte} {events : List Event} {c : Conn}
    (hrun : Run (step x) Undivided (initial buf) events c) : Faithful x c :=
  have hphase : Phase x c := hrun.invariant (.start buf) fun _ _ _ h hok hstep => h.step hok hstep
  hphase.faithful

/-- A dump of four bytes. -/
def fourBytes : Exchange where
  request := (cmdDump, [0, 0, 0x10, 0, 4, 0, 0x10, 0])
  replies := fun _ => [(cmdSendDump, [1, 2, 3, 4])]
  request_sendable := ⟨by decide, by decide⟩
  replies_sendable := by
    intro q m hm
    rw [List.mem_singleton.mp hm]
    exact ⟨by decide, by decide⟩
  replies_ne_eot := by
    intro q m hm
    rw [List.mem_singleton.mp hm]
    decide

/-- The request, the data and an acknowledgement each come in two pieces. -/
theorem faithful_of_undivided_fourBytes :
    ∃ c, Run (step fourBytes) Undivided (initial fun _ => 0)
      [.clientSend, .serverRecv 9, .serverRecv 9, .serverSend, .clientRecv 12, .clientRecv 10,
        .clientRecv 4, .serverRecv 8, .serverRecv 4] c ∧ Faithful fourBytes c := by
  have hsome : (Run.along (step fourBytes) Undivided (initial fun _ => 0)
      [.clientSend, .serverRecv 9, .serverRecv 9, .serverSend, .clientRecv 12, .clientRecv 10,
        .clientRecv 4, .serverRecv 8, .serverRecv 4]).isSome = true := by decide +kernel
  obtain ⟨c, hc⟩ := Option.isSome_iff_exists.mp hsome
  exact ⟨c, .of_along hc, faithful_of_undivided (.of_along hc)⟩

/-- The response of `handleClient` and the first packet of the reply come in one `recv`:
`ntpb_send_cmd` throws both away, and then both sides wait for ever. -/
theorem fourBytes_merged_not_faithful :
    ∃ c, Run (step fourBytes) (fun _ _ => True) (initial fun _ => 0)
      [.clientSend, .serverRecv 18, .serverSend, .clientRecv 26] c ∧ ¬ Faithful fourBytes c := by
  obtain ⟨r, todo, r', log, hc⟩ : ∃ r todo r' log, Run.along (step fourBytes) (fun _ _ => True)
      (initial fun _ => 0) [.clientSend, .serverRecv 18, .serverSend, .clientRecv 26] =
        some ⟨.acking r todo, .receiving r', [], [], log, []⟩ := ⟨_, _, _, _, rfl⟩
  refine ⟨_, .of_along hc, fun hfaithful => ?_⟩
  have hstuck : ∀ e, step fourBytes ⟨.acking r todo, .receiving r', [], [], log, []⟩ e = none := by
    intro e
    cases e with
    | clientSend => rfl
    | clientRecv n => simp [step, clientRecv_nil]
    | serverSend => rfl
    | serverRecv n => simp [step, serverRecv, recvInto_nil]
  simpa [wholeClient, Exchange.answer] using (hfaithful.all hstuck).2

end Conn

end Ps2rd.Ntpb
