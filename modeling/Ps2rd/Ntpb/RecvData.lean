import Ps2rd.Lib.While
import Ps2rd.Ntpb.Client

/-!
# The client and the end of the connection

`ntpb_recv_data` collects packets until one of them ends the reply.  The size of a
packet is taken from what its first `recv` brings, and the rest of it is fetched in an
inner loop, which checks for errors but not for the end of the connection: there `recv`
succeeds with an empty string, the buffer does not grow, and the loop does not end.

The results of `recv` are a list here, after which the connection is closed; `sends i`
tells whether the `i`-th acknowledgement can be sent.
-/

namespace Ps2rd.Ntpb.RecvData

open Client (unpackS Download)

/-- The results of `recv` that are still to come. -/
abbrev Results := List (List Byte)

/-- `$sock->recv($x, len)`, which brings no more than `len` bytes. -/
def recv (len : ℕ) : Results → List Byte × Results
  | [] => ([], [])
  | result :: results => (result.take len, results)

/-- The header fields of what the first `recv` of a packet has brought. -/
def unpack (buf : List Byte) : Client.Receiver :=
  ⟨buf, unpackS buf 6 + hdrSize, unpackS buf 8⟩

/-- The packet is not complete. -/
def short (r : Client.Receiver) : Bool := r.buf.length < r.size

/-- The body of the inner loop: what `recv` brings is appended to `$buf`. -/
def recvMore (x : Client.Receiver × Results) : Client.Receiver × Results :=
  let (chunk, results) := recv (Client.bufSize - x.1.buf.length) x.2
  ({ x.1 with buf := x.1.buf ++ chunk }, results)

/-- The inner loop, for the packet of which the first `recv` has brought a part. -/
def recvRest (fuel : ℕ) (x : Client.Receiver × Results) : Option (Client.Receiver × Results) :=
  whileM (fun x => short x.1) (fun x => some (recvMore x)) fuel x

structure State where
  results : Results
  download : Download
  /-- the acknowledgements sent so far -/
  acks : ℕ
  /-- `send` has failed, so that the function returns -/
  failed : Bool

/-- The end of the outer loop's body: the packet is looked at and acknowledged. -/
def State.after (s : State) (sends : ℕ → Bool) (x : Client.Receiver × Results) : State where
  results := x.2
  download := s.download.take x.1
  acks := s.acks + 1
  failed := !sends s.acks

/-- The body of the outer loop. -/
def recvPacket (sends : ℕ → Bool) (fuel : ℕ) (s : State) : Option State :=
  let (buf, results) := recv Client.bufSize s.results
  (recvRest fuel (unpack buf, results)).map (s.after sends)

/-- The loops go on. -/
def State.going (s : State) : Bool := !s.download.eot && !s.failed

/-- `ntpb_recv_data`, with the file open. -/
def ntpbRecvData (sends : ℕ → Bool) (fuel : ℕ) (results : Results) : Option State :=
  whileM State.going (recvPacket sends fuel) fuel ⟨results, ⟨[], false⟩, 0, false⟩

/-- `ntpb_recv_data` returns. -/
def Terminates (sends : ℕ → Bool) (results : Results) : Prop :=
  ∃ fuel, (ntpbRecvData sends fuel results).isSome

/-! ### As the receiver of the exchange

`Client.Receiver` has the same loop for results that are not empty, which is all that an
open connection brings. -/

theorem unpack_eq_recv (chunk : List Byte) : unpack chunk = Client.Receiver.idle.recv chunk := by
  simp [unpack, Client.Receiver.recv, Client.Receiver.idle]

theorem recvMore_eq_recv {r : Client.Receiver} (hbuf : r.buf ≠ []) (results : Results) :
    recvMore (r, results) = (r.recv (recv r.bsize results).1, (recv r.bsize results).2) := by
  simp [recvMore, Client.Receiver.recv, Client.Receiver.bsize, hbuf]

theorem short_eq_not_complete {r : Client.Receiver} (hbuf : r.buf ≠ []) :
    short r = !r.complete := by
  rw [Bool.eq_iff_iff]
  simp [short, Client.Receiver.complete, hbuf]

/-! ### The packets that the results complete -/

/-- The packets that are complete before the connection is closed; `current` is the packet
of which a part has been received. -/
def packets (current : Option Client.Receiver) : Results → List Client.Receiver
  | [] => []
  | result :: results =>
      let r := match current with
        | none => unpack (result.take Client.bufSize)
        | some r => { r with buf := r.buf ++ result.take (Client.bufSize - r.buf.length) }
      if short r then packets (some r) results else r :: packets none results

/-- The inner loop without fuel: the packet it ends with, and the results left, if it
ends. -/
def completion (r : Client.Receiver) : Results → Option (Client.Receiver × Results)
  | [] => if short r then none else some (r, [])
  | result :: results =>
      if short r then
        completion { r with buf := r.buf ++ result.take (Client.bufSize - r.buf.length) } results
      else some (r, result :: results)

section InnerLoop

variable {r : Client.Receiver} {results : Results}

theorem completion_of_not_short (h : short r = false) :
    completion r results = some (r, results) := by
  cases results <;> simp [completion, h]

theorem recvRest_of_not_short (fuel : ℕ) (h : short r = false) :
    recvRest (fuel + 1) (r, results) = some (r, results) :=
  whileM_of_not (s := (r, results)) h fuel

theorem recvRest_of_short (fuel : ℕ) (h : short r = true) :
    recvRest (fuel + 1) (r, results) = recvRest fuel (recvMore (r, results)) := by
  rw [recvRest, whileM_succ, if_pos h]
  rfl

/-- When the inner loop ends, it has completed the packet. -/
theorem completion_of_recvRest {fuel : ℕ} {y : Client.Receiver × Results}
    (h : recvRest fuel (r, results) = some y) : completion r results = some y := by
  induction fuel generalizing r results with
  | zero => exact absurd h whileM_zero_ne_some
  | succ fuel ih =>
      cases hshort : short r with
      | false =>
          rw [recvRest_of_not_short fuel hshort] at h
          rw [completion_of_not_short hshort, h]
      | true =>
          rw [recvRest_of_short fuel hshort] at h
          cases results with
          | nil =>
              -- the connection is closed, and the loop is where it was
              have hsame : recvMore (r, []) = (r, []) := by simp [recvMore, recv]
              rw [hsame] at h
              exact ih h
          | cons result results =>
              rw [completion, if_pos hshort]
              exact ih h

/-- The inner loop ends if the packet is completed. -/
theorem recvRest_of_completion {y : Client.Receiver × Results}
    (h : completion r results = some y) : ∃ fuel, recvRest fuel (r, results) = some y := by
  induction results generalizing r with
  | nil =>
      rw [completion] at h
      split_ifs at h with hshort
      exact ⟨1, by rw [recvRest_of_not_short 0 (by simpa using hshort), h]⟩
  | cons result results ih =>
      cases hshort : short r with
      | false =>
          rw [completion_of_not_short hshort] at h
          exact ⟨1, by rw [recvRest_of_not_short 0 hshort, h]⟩
      | true =>
          rw [completion, if_pos hshort] at h
          obtain ⟨fuel, hrun⟩ := ih h
          exact ⟨fuel + 1, by rw [recvRest_of_short fuel hshort]; exact hrun⟩

theorem packets_some (h : short r = true) :
    packets (some r) results =
      ((completion r results).map fun x => x.1 :: packets none x.2).getD [] := by
  induction results generalizing r with
  | nil => simp [packets, completion, h]
  | cons result results ih =>
      rw [packets, completion, if_pos h]
      split_ifs with hshort
      · exact ih hshort
      · rw [completion_of_not_short (by simpa using hshort)]
        rfl

end InnerLoop

/-- The packet that comes next, with the results left after it. -/
def nextPacket (results : Results) : Option (Client.Receiver × Results) :=
  completion (unpack (recv Client.bufSize results).1) (recv Client.bufSize results).2

theorem packets_none (results : Results) :
    packets none results =
      ((nextPacket results).map fun x => x.1 :: packets none x.2).getD [] := by
  cases results with
  | nil =>
      have hshort : short (unpack []) = true := rfl
      simp [packets, nextPacket, recv, completion, hshort]
  | cons result results =>
      rw [packets, nextPacket, recv]
      dsimp only
      split_ifs with hshort
      · exact packets_some hshort
      · rw [completion_of_not_short (by simpa using hshort)]
        rfl

theorem packets_of_nextPacket {results : Results} {x : Client.Receiver × Results}
    (h : nextPacket results = some x) : packets none results = x.1 :: packets none x.2 := by
  rw [packets_none, h]
  rfl

theorem nextPacket_of_packets {results : Results} {i : ℕ} {p : Client.Receiver}
    (h : (packets none results)[i]? = some p) :
    ∃ x, nextPacket results = some x ∧ (x.1 :: packets none x.2)[i]? = some p := by
  rw [packets_none] at h
  cases hnext : nextPacket results with
  | none => simp [hnext] at h
  | some x => exact ⟨x, rfl, by simpa [hnext] using h⟩

/-! ### The outer loop -/

section OuterLoop

variable {sends : ℕ → Bool} {s s' : State}

theorem recvPacket_mono {fuel fuel' : ℕ} (hle : fuel ≤ fuel') (s t : State)
    (h : recvPacket sends fuel s = some t) : recvPacket sends fuel' s = some t := by
  obtain ⟨x, hx, hafter⟩ := Option.map_eq_some_iff.mp h
  have hx' := whileM_mono (fun _ _ h => h) hle hx
  exact Option.map_eq_some_iff.mpr ⟨x, hx', hafter⟩

theorem nextPacket_of_recvPacket {fuel : ℕ} (h : recvPacket sends fuel s = some s') :
    ∃ x, nextPacket s.results = some x ∧ s' = s.after sends x := by
  obtain ⟨x, hx, hafter⟩ := Option.map_eq_some_iff.mp h
  exact ⟨x, completion_of_recvRest hx, hafter.symm⟩

theorem recvPacket_of_nextPacket (sends : ℕ → Bool) {x : Client.Receiver × Results}
    (h : nextPacket s.results = some x) :
    ∃ fuel, recvPacket sends fuel s = some (s.after sends x) := by
  obtain ⟨fuel, hrun⟩ := recvRest_of_completion h
  exact ⟨fuel, Option.map_eq_some_iff.mpr ⟨x, hrun, rfl⟩⟩

/-- What makes the outer loop end: the packet, or the acknowledgement of it. -/
def Last (sends : ℕ → Bool) (i : ℕ) (p : Client.Receiver) : Prop :=
  p.cmd = cmdEot ∨ sends i = false

theorem acks_after (x : Client.Receiver × Results) (i : ℕ) :
    (s.after sends x).acks + i = s.acks + (i + 1) := by
  show s.acks + 1 + i = _
  omega

theorem going_after (hgoing : s.going = true) (x : Client.Receiver × Results) :
    (s.after sends x).going = false ↔ Last sends s.acks x.1 := by
  obtain ⟨results, ⟨file, eot⟩, acks, failed⟩ := s
  obtain ⟨rfl, rfl⟩ : eot = false ∧ failed = false := by simpa [State.going] using hgoing
  have hne : cmdSendDump ≠ cmdEot := by decide
  simp only [State.going, State.after, Download.take, Last]
  split_ifs with hdump heot
  · simp [hdump, hne]
  · simp [heot]
  · simp [heot]

/-- The outer loop ends, with some fuel. -/
def Ends (sends : ℕ → Bool) (s : State) : Prop :=
  ∃ fuel, (whileM State.going (recvPacket sends fuel) fuel s).isSome

theorem Ends.of_not_going (h : s.going = false) : Ends sends s :=
  ⟨1, by rw [whileM_of_not h]; rfl⟩

/-- A packet more before the loop ends. -/
theorem Ends.of_recvPacket {fuel : ℕ} (hgoing : s.going = true)
    (hstep : recvPacket sends fuel s = some s') (h : Ends sends s') : Ends sends s := by
  obtain ⟨n, hn⟩ := h
  obtain ⟨t, ht⟩ := Option.isSome_iff_exists.mp hn
  have hstep' := recvPacket_mono (le_max_left fuel (n + 1)) s s' hstep
  have hrun : whileM State.going (recvPacket sends (max fuel (n + 1))) (n + 1) s = some t := by
    rw [whileM_of_body hgoing hstep']
    exact whileM_mono (recvPacket_mono (by omega)) le_rfl ht
  exact ⟨max fuel (n + 1), by rw [whileM_mono (fun _ _ h => h) (le_max_right ..) hrun]; rfl⟩

/-- A run that ends has received a packet that ends it. -/
theorem last_of_run {inner fuel : ℕ} (hgoing : s.going = true)
    (h : (whileM State.going (recvPacket sends inner) fuel s).isSome) :
    ∃ i p, (packets none s.results)[i]? = some p ∧ Last sends (s.acks + i) p := by
  induction fuel generalizing s with
  | zero => cases h
  | succ fuel ih =>
      obtain ⟨t, ht⟩ := Option.isSome_iff_exists.mp h
      obtain ⟨s', hstep, hrest⟩ := exists_of_whileM_succ hgoing ht
      obtain ⟨x, hnext, rfl⟩ := nextPacket_of_recvPacket hstep
      rw [packets_of_nextPacket hnext]
      cases hafter : (s.after sends x).going with
      | false => exact ⟨0, x.1, rfl, (going_after hgoing x).mp hafter⟩
      | true =>
          obtain ⟨i, p, hp, hlast⟩ := ih hafter (Option.isSome_iff_exists.mpr ⟨t, hrest⟩)
          exact ⟨i + 1, p, hp, by rwa [acks_after] at hlast⟩

/-- The loop ends if a packet that ends it is completed. -/
theorem ends_of_last {i : ℕ} {p : Client.Receiver} (hgoing : s.going = true)
    (hp : (packets none s.results)[i]? = some p) (hlast : Last sends (s.acks + i) p) :
    Ends sends s := by
  induction i generalizing s with
  | zero =>
      obtain ⟨x, hnext, hp⟩ := nextPacket_of_packets hp
      obtain ⟨fuel, hstep⟩ := recvPacket_of_nextPacket sends hnext
      obtain rfl : x.1 = p := by simpa using hp
      exact .of_recvPacket hgoing hstep (.of_not_going ((going_after hgoing x).mpr hlast))
  | succ i ih =>
      obtain ⟨x, hnext, hp⟩ := nextPacket_of_packets hp
      obtain ⟨fuel, hstep⟩ := recvPacket_of_nextPacket sends hnext
      refine .of_recvPacket hgoing hstep ?_
      cases hafter : (s.after sends x).going with
      | false => exact .of_not_going hafter
      | true =>
          exact ih hafter hp (by rwa [acks_after])

end OuterLoop

/-- `ntpb_recv_data` ends in exactly these cases: before the connection is closed, a packet is
completed that ends the reply, or one whose acknowledgement cannot be sent. -/
theorem recvData_terminates_iff (sends : ℕ → Bool) (results : Results) :
    Terminates sends results ↔
      ∃ i p, (packets none results)[i]? = some p ∧ (p.cmd = cmdEot ∨ sends i = false) := by
  constructor
  · rintro ⟨fuel, hrun⟩
    obtain ⟨i, p, hp, hlast⟩ := last_of_run rfl hrun
    exact ⟨i, p, hp, by simpa [Last] using hlast⟩
  · rintro ⟨i, p, hp, hlast⟩
    exact ends_of_last (s := ⟨results, ⟨[], false⟩, 0, false⟩) rfl hp (by simpa [Last] using hlast)

/-- A server that goes away after a packet of two bytes: the client asks for the next packet
for ever. -/
theorem recvData_loops_after_close :
    ¬ Terminates (fun _ => true) [packet cmdSendDump [1#8, 2#8]] := by
  rintro ⟨fuel, hrun⟩
  obtain ⟨i, p, hp, hlast⟩ := last_of_run rfl hrun
  -- the only packet that is completed is the data packet
  have hpackets : packets none [packet cmdSendDump [1#8, 2#8]] =
      [⟨packet cmdSendDump [1#8, 2#8], 12, cmdSendDump⟩] := rfl
  rw [hpackets, List.getElem?_singleton] at hp
  split_ifs at hp
  obtain rfl := Option.some.inj hp
  rcases hlast with heot | hfailed
  · exact absurd heot (by decide)
  · exact Bool.noConfusion hfailed

end Ps2rd.Ntpb.RecvData
