import Ps2rd.Debugger.SendDump
import Ps2rd.Ntpb.Session

/-!
# Halting and resuming the game

The game calls `execRemoteCmd` once per frame, and each call fetches one word from
the client.  A `HALT` keeps the call in a loop that calls `execRemoteCmd` again and
again until a `RESUME`, fetched by one of these inner calls, clears `haltState`.

The activations of `execRemoteCmd` are kept on a stack here.  A step is the delivery
of a word: the activation that waits for it goes through its branch, and then control
either comes back to the game or to an activation that asks for the next word.
-/

namespace Ps2rd.Debugger.RemoteCmd

open Ntpb (cmdDump cmdHalt cmdResume cmdAddMemPatches cmdClearMemPatches cmdAddRawCodes
  cmdClearRawCodes)
open Ntpb.Session (Known)

/-- What `rpcNTPBgetRemoteCmd` delivers: `remote_cmd`, and the first two words of
`cmd_buf`. -/
structure Delivered where
  cmd : BitVec 16
  start : Word
  stop : Word
deriving DecidableEq, Repr

/-- Where an activation of `execRemoteCmd` is. -/
inductive Activation where
  /-- in `rpcNTPBgetRemoteCmd` -/
  | fetching
  /-- at the condition of `while (haltState)` -/
  | halting
deriving DecidableEq, Repr

structure State where
  /-- the activations, the innermost one first -/
  stack : List Activation
  haltState : Bool
  /-- the largest number of activations so far -/
  deepest : ℕ
  /-- the calls made for each of the words -/
  replies : List (List DumpCall)
deriving DecidableEq, Repr

/-- Before the first word, in the game. -/
def initial : State := ⟨[], false, 0, []⟩

/-- `execRemoteCmd` is called and goes on to the fetch. -/
def enter (s : State) : State :=
  { s with
    stack := .fetching :: s.stack
    deepest := max s.deepest (s.stack.length + 1) }

/-- The calls made for a word. -/
def reply (s : State) (calls : List DumpCall) : State := { s with replies := s.replies ++ [calls] }

/-- The activation on top returns, and the rest goes on. -/
def leave (s : State) (rest : List Activation) : State := { s with stack := rest }

/-- The branches of `execRemoteCmd`; `rest` are the activations below. -/
def dispatch (s : State) (rest : List Activation) (word : Delivered) : Option State :=
  let cmd := word.cmd.toNat
  if cmd = 0 then some (leave (reply s []) rest)
  else if cmd = cmdDump then
    -- enough fuel for the loops over the whole range
    (sendDump ((word.stop - word.start).toNat + 1) word.start word.stop).map fun calls =>
      leave (reply s calls) rest
  else if cmd = cmdHalt then
    let s := reply s [.endReply]
    if !s.haltState then some { s with haltState := true, stack := .halting :: rest }
    else some (leave s rest)
  else if cmd = cmdResume then
    let s := reply s [.endReply]
    if s.haltState then some (leave { s with haltState := false } rest)
    else some (leave s rest)
  else if cmd = cmdAddMemPatches then some (leave (reply s [.endReply]) rest)
  else if cmd = cmdClearMemPatches then some (leave (reply s [.endReply]) rest)
  else if cmd = cmdAddRawCodes then some (leave (reply s [.endReply]) rest)
  else if cmd = cmdClearRawCodes then some (leave (reply s [.endReply]) rest)
  else some (leave (reply s []) rest)

/-- The activations go on until one of them waits for a word or all have returned. -/
def goOn (s : State) : List Activation → State
  | .halting :: rest =>
      if s.haltState then enter { s with stack := .halting :: rest } else goOn s rest
  | stack => { s with stack }

/-- A word is delivered; the game calls `execRemoteCmd` if no activation waits for it.
With an `rpc_mode` of -1 the call returns before the fetch, so that there is no delivery. -/
def deliver (rpcMode : ℤ) (s : State) (word : Delivered) : Option State :=
  if rpcMode = -1 then none
  else
    let s := if s.stack = [] then enter s else s
    match s.stack with
    | .fetching :: rest => (dispatch s rest word).map fun t => goOn t t.stack
    | _ => none

def run (rpcMode : ℤ) (words : List Delivered) : Option State :=
  words.foldlM (deliver rpcMode) initial

/-- The game does not get control before the next word. -/
def Withheld (s : State) : Prop := s.stack ≠ []

/-- The last `HALT` or `RESUME` among the words. -/
def lastHaltOrResume (words : List Delivered) : Option ℕ :=
  List.getLast? <| (words.map fun word => word.cmd.toNat).filter
    fun cmd => cmd = cmdHalt ∨ cmd = cmdResume

/-- A known command is answered with its data and one end of the reply, any other word with
nothing. -/
def Replied (word : Delivered) (calls : List DumpCall) : Prop :=
  if Known word.cmd.toNat then ∃ data, calls = data ++ [.endReply] ∧ DumpCall.endReply ∉ data
  else calls = []

/-! ### One word -/

open Ntpb.Session (halted)

theorem sendDump_replies (start stop : Word) :
    ∃ data, sendDump ((stop - start).toNat + 1) start stop = some (data ++ [.endReply]) ∧
      DumpCall.endReply ∉ data := by
  by_cases hlen : (stop - start).toNat < 2 ^ 31
  · obtain ⟨calls, hrun, hexact⟩ := sendDump_exact start stop hlen
    obtain ⟨data, rfl, hdata⟩ := hexact.ends
    exact ⟨data, hrun, hdata⟩
  · have hneg : (stop - start).toInt < 0 := by
      have hlt := (stop - start).isLt
      rw [BitVec.toInt_eq_toNat_cond]
      split_ifs <;> omega
    exact ⟨[], sendDump_of_neg hneg _, List.not_mem_nil⟩

theorem replied_short {word : Delivered} (hknown : Known word.cmd.toNat) :
    Replied word [.endReply] := by
  rw [Replied, if_pos hknown]
  exact ⟨[], rfl, List.not_mem_nil⟩

theorem replied_unknown {word : Delivered} (hknown : ¬ Known word.cmd.toNat) :
    Replied word [] := by
  rw [Replied, if_neg hknown]

/-- The branches differ in the calls and in what becomes of `haltState`. -/
theorem dispatch_eq (s : State) (rest : List Activation) (word : Delivered) :
    ∃ calls, Replied word calls ∧ dispatch s rest word = some
      { s with
        replies := s.replies ++ [calls]
        haltState := halted word.cmd.toNat s.haltState
        stack := if word.cmd.toNat = cmdHalt ∧ s.haltState = false then .halting :: rest
          else rest } := by
  unfold dispatch
  dsimp only
  by_cases hdump : word.cmd.toNat = cmdDump
  · obtain ⟨data, hrun, hdata⟩ := sendDump_replies word.start word.stop
    refine ⟨data ++ [.endReply], ?_, ?_⟩
    · rw [Replied, if_pos (by rw [hdump]; decide)]
      exact ⟨data, rfl, hdata⟩
    · rw [hrun, hdump]
      rfl
  by_cases hhalt : word.cmd.toNat = cmdHalt
  · refine ⟨[.endReply], replied_short (by rw [hhalt]; decide), ?_⟩
    rw [hhalt]
    cases hstate : s.haltState <;> simp [cmdHalt, cmdDump, leave, reply, halted, hstate]
  by_cases hresume : word.cmd.toNat = cmdResume
  · refine ⟨[.endReply], replied_short (by rw [hresume]; decide), ?_⟩
    rw [hresume]
    cases hstate : s.haltState <;>
      simp [cmdHalt, cmdResume, cmdDump, leave, reply, halted, hstate]
  have hsame : halted word.cmd.toNat s.haltState = s.haltState := by
    simp [halted, hhalt, hresume]
  by_cases hknown : Known word.cmd.toNat
  · -- the four commands that are only acknowledged
    refine ⟨[.endReply], replied_short hknown, ?_⟩
    simp only [Known, Ntpb.Session.shortCmds, List.mem_cons, List.not_mem_nil, or_false, hdump,
      hhalt, hresume, false_or] at hknown
    rcases hknown with h | h | h | h <;> rw [hsame, h] <;> rfl
  · refine ⟨[], replied_unknown hknown, ?_⟩
    simp only [Known, Ntpb.Session.shortCmds, List.mem_cons, List.not_mem_nil, or_false,
      not_or] at hknown
    obtain ⟨-, -, -, hadd, hclear, haddRaw, hclearRaw⟩ := hknown
    simp [hsame, hdump, hhalt, hresume, hadd, hclear, haddRaw, hclearRaw, leave, reply]

/-- A call that waits for `RESUME` asks for the next word, unless it has come. -/
theorem goOn_halting (s : State) :
    goOn s [.halting] = if s.haltState
      then { s with stack := [.fetching, .halting], deepest := max s.deepest 2 }
      else { s with stack := [] } := by
  unfold goOn
  split_ifs <;> rfl

/-! ### Every sequence of words -/

theorem lastHaltOrResume_append (words : List Delivered) (word : Delivered) :
    lastHaltOrResume (words ++ [word]) =
      if word.cmd.toNat = cmdHalt ∨ word.cmd.toNat = cmdResume then some word.cmd.toNat
      else lastHaltOrResume words := by
  unfold lastHaltOrResume
  rw [List.map_append, List.filter_append]
  split_ifs with h
  · simp [h]
  · simp [h]

/-- What holds between two words: the game has control, or the outer call is in its loop
and the inner one waits. -/
structure Settled (words : List Delivered) (s : State) : Prop where
  stack : s.stack = if s.haltState then [.fetching, .halting] else []
  halt : s.haltState = true ↔ lastHaltOrResume words = some cmdHalt
  deepest : s.deepest ≤ 2
  replies : List.Forall₂ Replied words s.replies

theorem settled_initial : Settled [] initial where
  stack := rfl
  halt := by simp [initial, lastHaltOrResume]
  deepest := Nat.zero_le 2
  replies := .nil

theorem halted_iff (words : List Delivered) (word : Delivered) {haltState : Bool}
    (h : haltState = true ↔ lastHaltOrResume words = some cmdHalt) :
    halted word.cmd.toNat haltState = true ↔
      lastHaltOrResume (words ++ [word]) = some cmdHalt := by
  rw [lastHaltOrResume_append, halted]
  by_cases hhalt : word.cmd.toNat = cmdHalt
  · simp [hhalt]
  · by_cases hresume : word.cmd.toNat = cmdResume
    · simp [hresume, cmdHalt, cmdResume]
    · simpa [hhalt, hresume] using h

theorem deliver_eq {s t : State} {rest : List Activation} {rpcMode : ℤ} (hmode : rpcMode ≠ -1)
    (ht : (if s.stack = [] then enter s else s) = t) (hstack : t.stack = .fetching :: rest)
    (word : Delivered) :
    deliver rpcMode s word = (dispatch t rest word).map fun t => goOn t t.stack := by
  unfold deliver
  rw [if_neg hmode]
  simp only [ht, hstack]

section Step

variable {words : List Delivered} {s : State} {rpcMode : ℤ}

theorem Settled.replies_append (h : Settled words s) {word : Delivered} {calls : List DumpCall}
    (hcalls : Replied word calls) :
    List.Forall₂ Replied (words ++ [word]) (s.replies ++ [calls]) :=
  List.rel_append h.replies (.cons hcalls .nil)

/-- The game is running and calls `execRemoteCmd`, which returns unless the word is a
`HALT`. -/
theorem Settled.deliver_running (h : Settled words s) (hmode : rpcMode ≠ -1)
    (hstate : s.haltState = false) (word : Delivered) :
    ∃ t, RemoteCmd.deliver rpcMode s word = some t ∧ Settled (words ++ [word]) t := by
  have hhalt := halted_iff words word h.halt
  rw [hstate] at hhalt
  have hstack : s.stack = [] := by rw [h.stack, hstate]; rfl
  obtain ⟨calls, hcalls, hdispatch⟩ := dispatch_eq (enter s) [] word
  have hentered : (enter s).stack = [.fetching] := by rw [enter, hstack]
  have hsame : (enter s).haltState = false := hstate
  have hdepth : (enter s).deepest ≤ 2 := by
    show max s.deepest (s.stack.length + 1) ≤ 2
    rw [hstack]
    exact max_le h.deepest (by decide)
  by_cases hcmd : word.cmd.toNat = cmdHalt
  · have htrue : halted word.cmd.toNat false = true := by rw [hcmd]; rfl
    rw [if_pos ⟨hcmd, hsame⟩, hsame, htrue] at hdispatch
    rw [deliver_eq hmode (if_pos hstack) hentered, hdispatch, Option.map_some]
    refine ⟨_, rfl, ?_⟩
    rw [goOn_halting, if_pos rfl]
    exact ⟨rfl, by rwa [htrue] at hhalt, max_le hdepth le_rfl, h.replies_append hcalls⟩
  · have hfalse : halted word.cmd.toNat false = false := by simp [halted, hcmd]
    rw [if_neg (fun hand => hcmd hand.1), hsame, hfalse] at hdispatch
    rw [deliver_eq hmode (if_pos hstack) hentered, hdispatch, Option.map_some]
    exact ⟨_, rfl, rfl, by rwa [hfalse] at hhalt, hdepth, h.replies_append hcalls⟩

/-- The game is halted: the inner call takes the word and returns, and the outer one calls
`execRemoteCmd` again unless the word was a `RESUME`. -/
theorem Settled.deliver_halted (h : Settled words s) (hmode : rpcMode ≠ -1)
    (hstate : s.haltState = true) (word : Delivered) :
    ∃ t, RemoteCmd.deliver rpcMode s word = some t ∧ Settled (words ++ [word]) t := by
  have hhalt := halted_iff words word h.halt
  rw [hstate] at hhalt
  have hstack : s.stack = [.fetching, .halting] := by rw [h.stack, hstate]; rfl
  obtain ⟨calls, hcalls, hdispatch⟩ := dispatch_eq s [.halting] word
  rw [if_neg (by simp [hstate]), hstate] at hdispatch
  rw [deliver_eq hmode (if_neg (by rw [hstack]; exact List.cons_ne_nil _ _)) hstack, hdispatch,
    Option.map_some]
  refine ⟨_, rfl, ?_⟩
  rw [goOn_halting]
  cases hnext : halted word.cmd.toNat true with
  | true =>
      rw [if_pos rfl]
      exact ⟨rfl, by rwa [hnext] at hhalt, max_le h.deepest le_rfl, h.replies_append hcalls⟩
  | false =>
      rw [if_neg Bool.false_ne_true]
      exact ⟨rfl, by rwa [hnext] at hhalt, h.deepest, h.replies_append hcalls⟩

theorem Settled.deliver (h : Settled words s) (hmode : rpcMode ≠ -1) (word : Delivered) :
    ∃ t, RemoteCmd.deliver rpcMode s word = some t ∧ Settled (words ++ [word]) t := by
  cases hstate : s.haltState with
  | false => exact h.deliver_running hmode hstate word
  | true => exact h.deliver_halted hmode hstate word

end Step

theorem run_append (rpcMode : ℤ) (words : List Delivered) (word : Delivered) :
    run rpcMode (words ++ [word]) = (run rpcMode words).bind fun s => deliver rpcMode s word := by
  rw [run, List.foldlM_append]
  simp [run]

theorem exists_run_settled {rpcMode : ℤ} (hmode : rpcMode ≠ -1) (words : List Delivered) :
    ∃ s, run rpcMode words = some s ∧ Settled words s := by
  induction words using List.reverseRecOn with
  | nil => exact ⟨initial, rfl, settled_initial⟩
  | append_singleton words word ih =>
      obtain ⟨s, hrun, hs⟩ := ih
      obtain ⟨t, hdeliver, ht⟩ := hs.deliver hmode word
      refine ⟨t, ?_, ht⟩
      rw [run_append, hrun, Option.bind_some, hdeliver]

/-- After any words the game is kept from control exactly when the last `HALT` or `RESUME`
was a `HALT`; there are never more than two activations, and every known command was
answered with its data and one end of the reply. -/
theorem halt_follows_words (rpcMode : ℤ) (hmode : rpcMode ≠ -1) (words : List Delivered) :
    ∃ s, run rpcMode words = some s ∧
      (Withheld s ↔ lastHaltOrResume words = some cmdHalt) ∧ s.deepest ≤ 2 ∧
      List.Forall₂ Replied words s.replies := by
  obtain ⟨s, hrun, hs⟩ := exists_run_settled hmode words
  refine ⟨s, hrun, ?_, hs.deepest, hs.replies⟩
  rw [← hs.halt, Withheld, hs.stack]
  cases s.haltState <;> simp

/-- A dump while the game is halted, with a second `HALT` before it. -/
theorem halt_follows_words_dump :
    ∃ s, run 1 [⟨0x201, 0, 0⟩, ⟨0x201, 0, 0⟩, ⟨0x100, 0x100000, 0x100010⟩] = some s ∧
      (Withheld s ↔ lastHaltOrResume
        [⟨0x201, 0, 0⟩, ⟨0x201, 0, 0⟩, ⟨0x100, 0x100000, 0x100010⟩] = some cmdHalt) ∧
      s.deepest ≤ 2 ∧
      List.Forall₂ Replied [⟨0x201, 0, 0⟩, ⟨0x201, 0, 0⟩, ⟨0x100, 0x100000, 0x100010⟩]
        s.replies :=
  halt_follows_words 1 (by decide) _

end Ps2rd.Debugger.RemoteCmd
