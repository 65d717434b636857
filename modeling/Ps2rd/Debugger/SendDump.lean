import Ps2rd.Ntpb.Dump

/-!
# The loops of sendDump

`sendDump` cuts a range into parts of up to 80 KiB, which are read into `g_buf`,
and each part into pieces of up to 4096 bytes, which are sent from there.  Both
loops adjust the size of their step only after they have advanced.  Here the calls
that they make are kept in order, and the `int` sums are checked: `none` stands for
an overflow or for a loop that has not ended within the fuel.

`Ntpb.Dump` follows the same loops with the effect of each call; `sendDump_performs`
is the connection.
-/

namespace Ps2rd.Debugger

open Ntpb (bufSize)

/-- The calls that `sendDump` makes: `read_mem` into `g_buf`, `rpcNTPBsendData` with
`&g_buf[off]`, and `rpcNTPBEndReply`. -/
inductive DumpCall where
  | readMem (addr : Word) (size : ℤ)
  | sendData (off size : ℤ)
  | endReply
deriving DecidableEq, Repr

/-- The result of an `int` sum, unless it overflows. -/
def int (x : ℤ) : Option ℤ := if -2 ^ 31 ≤ x ∧ x < 2 ^ 31 then some x else none

/-- The variables of the inner loop. -/
structure Sending where
  rpos : ℤ
  sndSize : ℤ
  calls : List DumpCall

/-- One round of the inner loop. -/
def sendPiece (dumpSize : ℤ) (s : Sending) : Option Sending :=
  (int (s.rpos + s.sndSize)).bind fun rpos =>
    (int (dumpSize - rpos)).map fun rest =>
      { rpos
        sndSize := if rest < 4096 then rest else s.sndSize
        calls := s.calls ++ [.sendData s.rpos s.sndSize] }

/-- The variables of the outer loop. -/
structure Dumping where
  dpos : ℤ
  dumpSize : ℤ
  calls : List DumpCall

/-- One round of the outer loop. -/
def dumpPart (fuel : ℕ) (start : Word) (len : ℤ) (s : Dumping) : Option Dumping :=
  let calls := s.calls ++ [.readMem (start + BitVec.ofInt 32 s.dpos) s.dumpSize]
  let sndSize := if s.dumpSize > 4096 then 4096 else s.dumpSize
  (whileM (fun i => i.rpos < s.dumpSize) (sendPiece s.dumpSize) fuel ⟨0, sndSize, calls⟩).bind
    fun i =>
      (int (s.dpos + s.dumpSize)).bind fun dpos =>
        (int (len - dpos)).map fun rest =>
          { dpos
            dumpSize := if rest < bufSize then rest else s.dumpSize
            calls := i.calls }

/-- `sendDump` -/
def sendDump (fuel : ℕ) (start stop : Word) : Option (List DumpCall) :=
  let len := (stop - start).toInt
  let dumpSize := if len > bufSize then bufSize else len
  (whileM (fun s => s.dpos < len) (dumpPart fuel start len) fuel ⟨0, dumpSize, []⟩).map
    fun s => s.calls ++ [.endReply]

/-! ### What the calls amount to -/

/-- The addresses of `n` bytes from `a` on. -/
def addresses (a : Word) (n : ℕ) : List Word :=
  (List.range n).map fun k => a + BitVec.ofNat 32 k

/-- The pieces that are sent, each with the address its bytes were read from; `base` is
the address of the last `read_mem`. -/
def pieces (base : Word) : List DumpCall → List (Word × ℤ)
  | [] => []
  | .readMem addr _ :: calls => pieces addr calls
  | .sendData off size :: calls => (base + BitVec.ofInt 32 off, size) :: pieces base calls
  | .endReply :: calls => pieces base calls

/-- Every piece lies in the part of `g_buf` that the last `read_mem` has filled, which has
`filled` bytes at the start. -/
def InsideRead (filled : ℤ) : List DumpCall → Prop
  | [] => True
  | .readMem _ size :: calls => InsideRead size calls
  | .sendData off size :: calls => 0 ≤ off ∧ off + size ≤ filled ∧ InsideRead filled calls
  | .endReply :: calls => InsideRead filled calls

/-- The calls send the bytes of the range one after the other. -/
structure Exact (start : Word) (len : ℕ) (calls : List DumpCall) : Prop where
  covers : (pieces start calls).flatMap (fun piece => addresses piece.1 piece.2.toNat) =
    addresses start len
  sizes : ∀ piece ∈ pieces start calls, 0 < piece.2 ∧ piece.2 ≤ 4096
  inside : InsideRead 0 calls
  reads : ∀ addr size, .readMem addr size ∈ calls → 0 < size ∧ size ≤ bufSize
  ends : ∃ before, calls = before ++ [.endReply] ∧ .endReply ∉ before

/-! ### The loops -/

/-- Calls that go on from `pos` bytes of the range to all of them: the buffer holds `size`
bytes from offset `base` on. -/
inductive Tiles (start : Word) (len : ℤ) : ℤ → ℤ → ℤ → List DumpCall → Prop
  | done {base size : ℤ} : Tiles start len len base size [.endReply]
  | read {pos base size n : ℤ} {calls : List DumpCall} (hpos : 0 < n) (hle : n ≤ bufSize)
      (h : Tiles start len pos pos n calls) :
      Tiles start len pos base size (.readMem (start + BitVec.ofInt 32 pos) n :: calls)
  | send {base size off n : ℤ} {calls : List DumpCall} (hoff : 0 ≤ off) (hpos : 0 < n)
      (hle : n ≤ 4096) (hsize : off + n ≤ size)
      (h : Tiles start len (base + off + n) base size calls) :
      Tiles start len (base + off) base size (.sendData off n :: calls)

section

variable {start : Word} {len pos base size : ℤ} {calls : List DumpCall}

theorem Tiles.le (h : Tiles start len pos base size calls) : pos ≤ len := by
  induction h with
  | done => exact le_rfl
  | read _ _ _ ih => exact ih
  | send _ hpos _ _ _ ih => omega

theorem addresses_add (a : Word) (m n : ℕ) :
    addresses a (m + n) = addresses a m ++ addresses (a + BitVec.ofNat 32 m) n := by
  unfold addresses
  rw [List.range_add, List.map_append, List.map_map]
  congr 1
  apply List.map_congr_left
  intro k _
  rw [Function.comp_apply, BitVec.ofNat_add, BitVec.add_assoc]

theorem Tiles.covers (h : Tiles start len pos base size calls) :
    (pieces (start + BitVec.ofInt 32 base) calls).flatMap
        (fun piece => addresses piece.1 piece.2.toNat) =
      addresses (start + BitVec.ofInt 32 pos) (len - pos).toNat := by
  induction h with
  | done =>
      rw [Int.sub_self]
      rfl
  | read _ _ _ ih => exact ih
  | @send base size off n calls hoff hpos hle hsize h ih =>
      have hend := h.le
      have hsplit : (len - (base + off)).toNat = n.toNat + (len - (base + off + n)).toNat := by
        omega
      have hnext : start + BitVec.ofInt 32 (base + off) + BitVec.ofNat 32 n.toNat =
          start + BitVec.ofInt 32 (base + off + n) := by
        rw [BitVec.ofInt_add _ n, ← BitVec.add_assoc, ← BitVec.ofInt_natCast,
          Int.toNat_of_nonneg hpos.le]
      rw [pieces, List.flatMap_cons, ih, hsplit, addresses_add, hnext, BitVec.add_assoc,
        ← BitVec.ofInt_add]

theorem Tiles.sizes (h : Tiles start len pos base size calls) (a : Word) :
    ∀ piece ∈ pieces a calls, 0 < piece.2 ∧ piece.2 ≤ 4096 := by
  induction h generalizing a with
  | done => exact fun piece hpiece => absurd hpiece List.not_mem_nil
  | read _ _ _ ih => exact ih _
  | send _ hpos hle _ _ ih =>
      intro piece hpiece
      rcases List.mem_cons.mp hpiece with rfl | hpiece
      · exact ⟨hpos, hle⟩
      · exact ih a piece hpiece

theorem Tiles.inside (h : Tiles start len pos base size calls) : InsideRead size calls := by
  induction h with
  | done => trivial
  | read _ _ _ ih => exact ih
  | send hoff _ _ hsize _ ih => exact ⟨hoff, hsize, ih⟩

theorem Tiles.reads (h : Tiles start len pos base size calls) :
    ∀ addr n, DumpCall.readMem addr n ∈ calls → 0 < n ∧ n ≤ bufSize := by
  induction h with
  | done => simp
  | read hpos hle _ ih =>
      intro addr n hmem
      rcases List.mem_cons.mp hmem with heq | hmem
      · cases heq
        exact ⟨hpos, hle⟩
      · exact ih addr n hmem
  | send _ _ _ _ _ ih =>
      intro addr n hmem
      rcases List.mem_cons.mp hmem with heq | hmem
      · cases heq
      · exact ih addr n hmem

theorem Tiles.ends (h : Tiles start len pos base size calls) :
    ∃ before, calls = before ++ [.endReply] ∧ DumpCall.endReply ∉ before := by
  induction h with
  | done => exact ⟨[], rfl, List.not_mem_nil⟩
  | @read pos _ _ n _ _ _ _ ih =>
      obtain ⟨before, rfl, hbefore⟩ := ih
      refine ⟨.readMem (start + BitVec.ofInt 32 pos) n :: before, rfl, ?_⟩
      simpa using hbefore
  | @send _ _ off n _ _ _ _ _ _ ih =>
      obtain ⟨before, rfl, hbefore⟩ := ih
      refine ⟨.sendData off n :: before, rfl, ?_⟩
      simpa using hbefore

theorem eq_of_int {x y : ℤ} (h : int x = some y) : y = x := by
  unfold int at h
  split_ifs at h
  exact (Option.some.inj h).symm

theorem int_of_bounds {x : ℤ} (hlow : -2 ^ 31 ≤ x) (hhigh : x < 2 ^ 31) : int x = some x :=
  if_pos ⟨hlow, hhigh⟩

/-- One round of the inner loop sends the next piece. -/
theorem sendPiece_eq {dumpSize rpos : ℤ} (hrpos : 0 ≤ rpos) (hlt : rpos < dumpSize)
    (hmax : dumpSize ≤ bufSize) (calls : List DumpCall) :
    sendPiece dumpSize ⟨rpos, min 4096 (dumpSize - rpos), calls⟩ =
      some ⟨rpos + min 4096 (dumpSize - rpos),
        min 4096 (dumpSize - (rpos + min 4096 (dumpSize - rpos))),
        calls ++ [.sendData rpos (min 4096 (dumpSize - rpos))]⟩ := by
  have hbuf : bufSize = 81920 := rfl
  have hnext : int (rpos + min 4096 (dumpSize - rpos)) = some _ :=
    int_of_bounds (by omega) (by omega)
  have hrest : int (dumpSize - (rpos + min 4096 (dumpSize - rpos))) = some _ :=
    int_of_bounds (by omega) (by omega)
  simp only [sendPiece, hnext, hrest, Option.bind_some, Option.map_some]
  congr 2
  split_ifs <;> omega

/-- The inner loop sends the rest of the part that is in the buffer. -/
theorem whileM_sendPiece (start : Word) (len base : ℤ) {dumpSize : ℤ}
    (hmax : dumpSize ≤ bufSize) (rpos : ℤ) (hrpos : 0 ≤ rpos)
    (hle : rpos ≤ dumpSize) {fuel : ℕ} (hfuel : dumpSize - rpos < fuel) (calls : List DumpCall) :
    ∃ sent, whileM (fun i : Sending => i.rpos < dumpSize) (sendPiece dumpSize) fuel
        ⟨rpos, min 4096 (dumpSize - rpos), calls⟩ = some ⟨dumpSize, 0, calls ++ sent⟩ ∧
      ∀ rest, Tiles start len (base + dumpSize) base dumpSize rest →
        Tiles start len (base + rpos) base dumpSize (sent ++ rest) := by
  induction fuel generalizing rpos calls with
  | zero => omega
  | succ fuel ih =>
      rcases hle.eq_or_lt with rfl | hlt
      · refine ⟨[], ?_, fun rest hrest => hrest⟩
        rw [whileM_of_not (by simp)]
        simp
      · obtain ⟨sent, hrun, htiles⟩ := ih (rpos + min 4096 (dumpSize - rpos)) (by omega)
          (by omega) (by omega) (calls ++ [.sendData rpos (min 4096 (dumpSize - rpos))])
        refine ⟨.sendData rpos (min 4096 (dumpSize - rpos)) :: sent, ?_, fun rest hrest => ?_⟩
        · rw [whileM_of_body (by simpa using hlt) (sendPiece_eq hrpos hlt hmax calls), hrun,
            List.append_assoc]
          rfl
        · have hnext := htiles rest hrest
          rw [← add_assoc] at hnext
          exact .send hrpos (by omega) (by omega) (by omega) hnext

/-- One round of the outer loop reads the next part and sends it. -/
theorem dumpPart_eq (start : Word) {dpos : ℤ} (hdpos : 0 ≤ dpos) (hlt : dpos < len)
    (hlen : len < 2 ^ 31) {fuel : ℕ} (hfuel : len < fuel) (calls : List DumpCall) :
    ∃ sent, dumpPart fuel start len ⟨dpos, min bufSize (len - dpos), calls⟩ =
        some ⟨dpos + min bufSize (len - dpos),
          min bufSize (len - (dpos + min bufSize (len - dpos))), calls ++ sent⟩ ∧
      ∀ rest, (∀ base size,
          Tiles start len (dpos + min bufSize (len - dpos)) base size rest) →
        ∀ base size, Tiles start len dpos base size (sent ++ rest) := by
  have hbuf : bufSize = 81920 := rfl
  set dumpSize := min bufSize (len - dpos) with hdump
  have hsnd : (if dumpSize > 4096 then 4096 else dumpSize) = min 4096 (dumpSize - 0) := by
    split_ifs <;> omega
  obtain ⟨sent, hrun, htiles⟩ := whileM_sendPiece start len dpos
    (show dumpSize ≤ bufSize by omega) 0 le_rfl (by omega) (show dumpSize - 0 < fuel by omega)
    (calls ++ [.readMem (start + BitVec.ofInt 32 dpos) dumpSize])
  have hnext : int (dpos + dumpSize) = some (dpos + dumpSize) :=
    int_of_bounds (by omega) (by omega)
  have hrest : int (len - (dpos + dumpSize)) = some (len - (dpos + dumpSize)) :=
    int_of_bounds (by omega) (by omega)
  refine ⟨.readMem (start + BitVec.ofInt 32 dpos) dumpSize :: sent, ?_, fun rest hrest' => ?_⟩
  · simp only [dumpPart, hsnd, hrun, hnext, hrest, Option.bind_some, Option.map_some]
    congr 2
    · split_ifs <;> omega
    · rw [List.append_assoc]
      rfl
  · intro base size
    refine .read (by omega) (by omega) ?_
    have hpart := htiles rest (hrest' _ _)
    rwa [add_zero] at hpart

/-- The outer loop sends the rest of the range. -/
theorem whileM_dumpPart (start : Word) (hlen : len < 2 ^ 31) {inner : ℕ} (hinner : len < inner)
    (dpos : ℤ) (hdpos : 0 ≤ dpos) (hle : dpos ≤ len) {fuel : ℕ} (hfuel : len - dpos < fuel)
    (calls : List DumpCall) :
    ∃ s sent, whileM (fun s : Dumping => s.dpos < len) (dumpPart inner start len) fuel
        ⟨dpos, min bufSize (len - dpos), calls⟩ = some s ∧ s.calls = calls ++ sent ∧
      ∀ base size, Tiles start len dpos base size (sent ++ [.endReply]) := by
  have hbuf : bufSize = 81920 := rfl
  induction fuel generalizing dpos calls with
  | zero => omega
  | succ fuel ih =>
      rcases hle.eq_or_lt with rfl | hlt
      · exact ⟨_, [], whileM_of_not (by simp) _, (List.append_nil _).symm, fun _ _ => .done⟩
      · obtain ⟨part, hpart, htiles⟩ := dumpPart_eq start hdpos hlt hlen hinner calls
        obtain ⟨s, sent, hrun, hcalls, hrest⟩ := ih (dpos + min bufSize (len - dpos))
          (by omega) (by omega) (by omega) (calls ++ part)
        refine ⟨s, part ++ sent, ?_, ?_, fun base size => ?_⟩
        · rw [whileM_of_body (by simpa using hlt) hpart, hrun]
        · rw [hcalls, List.append_assoc]
        · rw [List.append_assoc]
          exact htiles _ hrest base size

end

/-- As much fuel as the range has bytes is always enough. -/
theorem sendDump_exact (start stop : Word) (hlen : (stop - start).toNat < 2 ^ 31) :
    ∃ calls, sendDump ((stop - start).toNat + 1) start stop = some calls ∧
      Exact start (stop - start).toNat calls := by
  have hint : (stop - start).toInt = ((stop - start).toNat : ℤ) :=
    BitVec.toInt_eq_toNat_of_lt (by omega)
  generalize (stop - start).toNat = len at hlen hint ⊢
  have hsize : (if (len : ℤ) > bufSize then bufSize else (len : ℤ)) = min bufSize (len - 0) := by
    split_ifs <;> omega
  have hfuel : (len : ℤ) < (len + 1 : ℕ) := by omega
  obtain ⟨s, sent, hrun, hcalls, htiles⟩ := whileM_dumpPart start (by omega) hfuel 0 le_rfl
    (by omega) (by rwa [sub_zero]) []
  refine ⟨sent ++ [.endReply], ?_, ?_⟩
  · simp only [sendDump, hint, hsize, hrun, Option.map_some, hcalls, List.nil_append]
  · have hfirst := htiles 0 0
    have hcovers := hfirst.covers
    have hzero : start + BitVec.ofInt 32 0 = start := BitVec.add_zero start
    rw [hzero, sub_zero, Int.toNat_natCast] at hcovers
    exact {
      covers := hcovers
      sizes := hfirst.sizes start
      inside := hfirst.inside
      reads := hfirst.reads
      ends := hfirst.ends }

/-- A size that is negative as an `int` ends the reply at once. -/
theorem sendDump_of_neg {start stop : Word} (hneg : (stop - start).toInt < 0) (fuel : ℕ) :
    sendDump (fuel + 1) start stop = some [.endReply] := by
  rw [sendDump, whileM_of_not (by simpa using hneg.le)]
  rfl

/-- `sendDump` covers the range exactly once, whatever its start and its size. -/
theorem sendDump_covers (start stop : Word) (hlen : (stop - start).toNat < 2 ^ 31) :
    ∃ fuel calls, sendDump fuel start stop = some calls ∧
      Exact start (stop - start).toNat calls :=
  ⟨_, sendDump_exact start stop hlen⟩

/-- A range of 81921 bytes: the second part is a single byte. -/
theorem sendDump_covers_remainder :
    ∃ fuel calls, sendDump fuel 0x00100000 0x00114001 = some calls ∧
      Exact 0x00100000 81921 calls :=
  sendDump_covers 0x00100000 0x00114001 (by decide)

/-! ### The calls and their effect -/

open Mips (Mem)

/-- What a call does on the way of a dump to the client. -/
def DumpCall.perform (mem : Mem) (p : Ntpb.Path) : DumpCall → Option Ntpb.Path
  | .readMem addr size => some (Ntpb.readMem mem addr size.toNat p)
  | .sendData off size =>
      Ntpb.rpcNTPBsendData Ntpb.cmdSendDump (p.gBuf.read off.toNat size.toNat) p
  | .endReply => Ntpb.ntpbserverEndReply p

/-- The calls one after the other. -/
def performAll (mem : Mem) (p : Ntpb.Path) (calls : List DumpCall) : Option Ntpb.Path :=
  calls.foldlM (DumpCall.perform mem) p

section

variable {mem : Mem} {start : Word} {len dumpSize : ℤ} {inner fuel : ℕ}

theorem performAll_append (p : Ntpb.Path) (calls calls' : List DumpCall) :
    performAll mem p (calls ++ calls') =
      (performAll mem p calls).bind fun q => performAll mem q calls' :=
  List.foldlM_append

/-- A loop that keeps calls and a loop that performs them go through the same rounds;
`view s` adds to the variables of the first loop what the second one works on. -/
theorem whileM_performs (mem : Mem) {σ τ : Type*} (calls : σ → List DumpCall)
    (view : σ → Ntpb.Path → τ) {cond : σ → Bool} (cond' : τ → Bool) {body : σ → Option σ}
    {body' : τ → Option τ}
    (hcond : ∀ s p, cond' (view s p) = cond s)
    (hbody : ∀ s t, body s = some t → ∃ sent, calls t = calls s ++ sent ∧
      ∀ p, body' (view s p) = (performAll mem p sent).map (view t))
    {s t : σ} (hrun : whileM cond body fuel s = some t) :
    ∃ sent, calls t = calls s ++ sent ∧
      ∀ p, whileM cond' body' fuel (view s p) = (performAll mem p sent).map (view t) := by
  induction fuel generalizing s with
  | zero => simp [whileM] at hrun
  | succ fuel ih =>
      cases hc : cond s with
      | false =>
          rw [whileM_of_not hc] at hrun
          cases hrun
          refine ⟨[], (List.append_nil _).symm, fun p => ?_⟩
          rw [whileM_of_not ((hcond _ p).trans hc)]
          rfl
      | true =>
          obtain ⟨s', hstep, hrest⟩ := exists_of_whileM_succ hc hrun
          obtain ⟨first, hfirst, hperform⟩ := hbody s s' hstep
          obtain ⟨sent, hsent, hloop⟩ := ih hrest
          refine ⟨first ++ sent, ?_, fun p => ?_⟩
          · rw [hsent, hfirst, List.append_assoc]
          · rw [whileM, if_pos ((hcond s p).trans hc), hperform, performAll_append,
              Option.bind_map, Option.map_bind]
            exact Option.bind_congr fun q _ => hloop q

theorem sendPiece_performs {s t : Sending} (h : sendPiece dumpSize s = some t) :
    ∃ sent, t.calls = s.calls ++ sent ∧ ∀ p,
      Ntpb.sendChunk dumpSize ⟨s.rpos, s.sndSize, p⟩ =
        (performAll mem p sent).map fun q => ⟨t.rpos, t.sndSize, q⟩ := by
  obtain ⟨rpos, hrpos, h⟩ := Option.bind_eq_some_iff.mp h
  obtain ⟨rest, hrest, rfl⟩ := Option.map_eq_some_iff.mp h
  obtain rfl := eq_of_int hrpos
  obtain rfl := eq_of_int hrest
  refine ⟨[.sendData s.rpos s.sndSize], rfl, fun p => ?_⟩
  simp only [Ntpb.sendChunk, performAll, List.foldlM_cons, List.foldlM_nil, DumpCall.perform]
  rw [bind_pure]

theorem dumpPart_performs {s t : Dumping} (h : dumpPart inner start len s = some t) :
    ∃ sent, t.calls = s.calls ++ sent ∧ ∀ p,
      Ntpb.dumpPart inner mem start len ⟨s.dpos, s.dumpSize, p⟩ =
        (performAll mem p sent).map fun q => ⟨t.dpos, t.dumpSize, q⟩ := by
  obtain ⟨i, hinner, hsums⟩ := Option.bind_eq_some_iff.mp h
  obtain ⟨dpos, hdpos, hsum⟩ := Option.bind_eq_some_iff.mp hsums
  obtain ⟨rest, hrest, rfl⟩ := Option.map_eq_some_iff.mp hsum
  obtain rfl := eq_of_int hdpos
  obtain rfl := eq_of_int hrest
  obtain ⟨sent, hsent, hloop⟩ := whileM_performs mem Sending.calls
    (fun i p => (⟨i.rpos, i.sndSize, p⟩ : Ntpb.Sending)) (fun i => i.rpos < s.dumpSize)
    (fun _ _ => rfl) (fun _ _ => sendPiece_performs) hinner
  refine ⟨.readMem (start + BitVec.ofInt 32 s.dpos) s.dumpSize :: sent, ?_, fun p => ?_⟩
  · dsimp only
    rw [hsent, List.append_assoc]
    rfl
  · have hloop := hloop
      (Ntpb.readMem mem (start + BitVec.ofInt 32 s.dpos) s.dumpSize.toNat p)
    rw [Ntpb.dumpPart]
    dsimp only at hloop ⊢
    rw [hloop, Option.map_map]
    rfl

/-- When the sums do not overflow, performing the calls is what the model of the whole
path does. -/
theorem sendDump_performs {stop : Word} {calls : List DumpCall}
    (h : sendDump fuel start stop = some calls) (p : Ntpb.Path) :
    Ntpb.sendDump fuel mem start stop p = performAll mem p calls := by
  obtain ⟨s, hloop, rfl⟩ := Option.map_eq_some_iff.mp h
  obtain ⟨sent, hsent, hperform⟩ := whileM_performs mem Dumping.calls
    (fun s p => (⟨s.dpos, s.dumpSize, p⟩ : Ntpb.Dumping))
    (fun s => s.dpos < (stop - start).toInt) (fun _ _ => rfl)
    (fun _ _ => dumpPart_performs) hloop
  rw [hsent, List.nil_append, performAll_append, Ntpb.sendDump]
  dsimp only at hperform ⊢
  rw [hperform p, Option.bind_map]
  apply Option.bind_congr
  intro q _
  simp only [performAll, List.foldlM_cons, List.foldlM_nil, DumpCall.perform, Function.comp_apply]
  rw [bind_pure]

end

end Ps2rd.Debugger
