import Ps2rd.Lib.Run
import Ps2rd.Ntpb.Client

/-!
# Commands between the server thread, the RPC thread and the EE

`handleClient` leaves an accepted command in `remote_cmd` and waits for
`ntpbserver_cmd_sema`.  `execRemoteCmd`, called once per frame, asks for it with the
RPC `GETREMOTECMD`, executes it, and has the RPC thread post the semaphore with
`ENDREPLY`.  The three run concurrently; a step of the system is one of them going on
to the next point where another may interfere.

Packets are whole here, and their data passes from one buffer to the next unchanged;
for how they are received and how much data the buffers hold see `Connection` and
`Request`.
-/

namespace Ps2rd.Ntpb

/-- The command words of `execRemoteCmd`. -/
def cmdHalt : ℕ := 0x201
def cmdResume : ℕ := 0x202
def cmdAddMemPatches : ℕ := 0x501
def cmdClearMemPatches : ℕ := 0x502
def cmdAddRawCodes : ℕ := 0x601
def cmdClearRawCodes : ℕ := 0x602

namespace Session

/-- The commands that are answered with nothing but the end of the reply. -/
def shortCmds : List ℕ :=
  [cmdHalt, cmdResume, cmdAddMemPatches, cmdClearMemPatches, cmdAddRawCodes, cmdClearRawCodes]

/-- `execRemoteCmd` has a branch for the command. -/
def Known (word : ℕ) : Prop := word ∈ cmdDump :: shortCmds

instance (word : ℕ) : Decidable (Known word) := inferInstanceAs (Decidable (_ ∈ _))

/-- `g_debugger_opts.rpc_mode`: `RPC_M_NORMAL` waits in `SifCallRpc` until the reply has
landed, `RPC_M_NOWAIT` does not. -/
inductive RpcMode
  | normal
  | nowait
  deriving DecidableEq

inductive Server
  /-- in `lwip_accept` -/
  | accepting
  /-- in the receive loop of `handleClient` -/
  | receiving
  /-- has stored a command and sends the response -/
  | responding
  /-- in `WaitSema(ntpbserver_cmd_sema)` -/
  | waiting
  deriving DecidableEq

/-- The RPC thread, as far as `GETREMOTECMD` goes. -/
inductive Rpc
  | idle
  /-- the call has been sent to the IOP -/
  | called
  /-- between `eP->cmd = remote_cmd` and `remote_cmd = 0`; `serial` is the number of
  the command that was read -/
  | taken (word serial : ℕ)
  /-- between `remote_cmd = 0` and the `memcpy` from `cmdbuf` -/
  | cleared (word : ℕ)
  /-- the reply is on its way to `getRemoteCmdParam` -/
  | replied (m : Msg)
  deriving DecidableEq

/-- `execRemoteCmd` -/
inductive Ee
  /-- not in `execRemoteCmd`, or in its loop for a halted game, about to call it again -/
  | idle
  /-- in `rpcNTPBgetRemoteCmd`, before `getRemoteCmdParam` is read -/
  | calling
  /-- has read the parameter and is in `rpcNTPBSync` -/
  | syncing (m : Msg)
  /-- in `sendDump`, before its `ENDREPLY` -/
  | dumping
  /-- in `ENDREPLY` -/
  | ending (word : ℕ)
  /-- the server has completed `ENDREPLY`, the call has yet to return -/
  | ended (word : ℕ)
  deriving DecidableEq

structure State where
  server : Server
  remoteCmd : ℕ
  /-- `cmdbuf`, up to `cmdsize` -/
  data : List Byte
  cmdSema : ℕ
  ioSema : ℕ
  rpc : Rpc
  param : Msg
  ee : Ee
  haltState : Bool
  /-- number of the command that the last `GETREMOTECMD` fetched -/
  fetched : Option ℕ
  /-- the commands that `handleClient` has accepted -/
  accepted : List Msg
  /-- the commands that `execRemoteCmd` has executed -/
  executed : List Msg
  deriving DecidableEq

/-- After `_start`, with the options of `_init`. -/
def initial : State where
  server := .accepting
  remoteCmd := 0
  data := []
  cmdSema := 0
  ioSema := 1
  rpc := .idle
  param := (0, [])
  ee := .idle
  haltState := false
  fetched := none
  accepted := []
  executed := []

inductive Event
  /-- a client connects -/
  | connect
  /-- a request arrives -/
  | accept (m : Msg)
  /-- a packet without the magic arrives -/
  | reject
  /-- `recv` fails: the client is gone -/
  | hangup
  /-- the response of `handleClient` goes out, or fails to -/
  | respond (ok : Bool)
  /-- `WaitSema(ntpbserver_cmd_sema)` returns -/
  | wake
  /-- `SifCallRpc` of `GETREMOTECMD` is accepted -/
  | poll
  /-- it is not: `remote_cmd` and `cmd_buf` of `execRemoteCmd` stay uninitialised -/
  | pollFails (stack : Msg)
  /-- the steps of `_rpcNTPBgetRemoteCmd`: `eP->cmd = remote_cmd`, `remote_cmd = 0`, and the
  rest -/
  | take
  | clear
  | copy
  /-- the reply arrives in `getRemoteCmdParam` -/
  | land
  /-- `rpcNTPBgetRemoteCmd` reads `getRemoteCmdParam` -/
  | read
  /-- `rpcNTPBSync` returns and `execRemoteCmd` looks at the command -/
  | dispatch
  /-- a packet of `sendDump` is acknowledged, or an error occurs -/
  | sendData (ok : Bool)
  /-- `sendDump` has sent the whole range -/
  | sentAll
  /-- `ntpbserverEndReply` returns with or without an error -/
  | endReply (ok : Bool)
  /-- `SifCallRpc` of `ENDREPLY` fails -/
  | endReplyFails
  /-- `rpcNTPBSync` after `ENDREPLY` returns -/
  | finish
  deriving DecidableEq

/-- Where `execRemoteCmd` goes on with a command. -/
def Ee.branch (word : ℕ) : Ee :=
  if word = cmdDump then .dumping
  else if word ∈ shortCmds then .ending word
  else .idle

/-- What `execRemoteCmd` does after the end of a reply. -/
def halted (word : ℕ) (haltState : Bool) : Bool :=
  if word = cmdHalt then true else if word = cmdResume then false else haltState

/-- One step of the server thread. -/
def serverStep (s : State) : Event → Option State
  | .connect => if s.server = .accepting then some { s with server := .receiving } else none
  | .accept m =>
      if s.server = .receiving then
        some { s with
          server := .responding, remoteCmd := m.1, data := m.2, accepted := s.accepted ++ [m] }
      else none
  | .reject => if s.server = .receiving then some s else none
  | .hangup => if s.server = .receiving then some { s with server := .accepting } else none
  | .respond ok =>
      if s.server = .responding then
        some { s with server := if ok then .waiting else .accepting }
      else none
  | .wake =>
      if s.server = .waiting ∧ 0 < s.cmdSema then
        some { s with server := .receiving, cmdSema := s.cmdSema - 1 }
      else none
  | _ => none

/-- One step of the RPC thread in `GETREMOTECMD`, and of the DMA with its reply.  The event `copy`
does the `memcpy` from `cmdbuf` and the store to `eP->size` in one step, although the server thread
could take another request between the two. -/
def rpcStep (s : State) (e : Event) : Option State :=
  match e, s.rpc with
  | .take, .called => some { s with rpc := .taken s.remoteCmd s.accepted.length }
  | .clear, .taken word serial =>
      some { s with
        rpc := .cleared word, remoteCmd := 0
        fetched := if word = 0 then none else some serial }
  | .copy, .cleared word => some { s with rpc := .replied (word, s.data) }
  | .land, .replied m => some { s with rpc := .idle, param := m }
  | _, _ => none

/-- One step of `execRemoteCmd`, with the RPC thread in `SENDDATA` and `ENDREPLY`.  These
wait for the io semaphore and give it back only if no error occurs. -/
def eeStep (mode : RpcMode) (s : State) (e : Event) : Option State :=
  match e, s.ee with
  | .poll, .idle => some { s with ee := .calling, rpc := .called, fetched := none }
  | .pollFails stack, .idle => some { s with ee := .syncing stack, fetched := none }
  | .read, .calling =>
      if mode = .normal ∧ s.rpc ≠ .idle then none
      else some { s with ee := .syncing s.param }
  | .dispatch, .syncing m =>
      if s.rpc = .idle then
        some { s with
          ee := Ee.branch m.1
          executed := if Known m.1 then s.executed ++ [m] else s.executed }
      else none
  | .sendData ok, .dumping =>
      if s.ioSema = 0 then none
      else some { s with ioSema := if ok then s.ioSema else s.ioSema - 1 }
  | .sentAll, .dumping => some { s with ee := .ending cmdDump }
  | .endReply ok, .ending word =>
      if s.ioSema = 0 then none
      else if ok then some { s with ee := .ended word, cmdSema := signal s.cmdSema }
      else some { s with ee := .ended word, ioSema := s.ioSema - 1 }
  | .endReplyFails, .ending word => some { s with ee := .ended word }
  | .finish, .ended word =>
      some { s with ee := .idle, haltState := halted word s.haltState }
  | _, _ => none

/-- Every event belongs to one of the three. -/
def step (mode : RpcMode) (s : State) (e : Event) : Option State :=
  (serverStep s e).or ((rpcStep s e).or (eeStep mode s e))

/-- What each event does, and when it can happen. -/
inductive Effect (mode : RpcMode) (s : State) : Event → State → Prop
  | connect (hserver : s.server = .accepting) :
      Effect mode s .connect { s with server := .receiving }
  | accept (hserver : s.server = .receiving) (m : Msg) :
      Effect mode s (.accept m) { s with
        server := .responding, remoteCmd := m.1, data := m.2, accepted := s.accepted ++ [m] }
  | reject (hserver : s.server = .receiving) : Effect mode s .reject s
  | hangup (hserver : s.server = .receiving) :
      Effect mode s .hangup { s with server := .accepting }
  | respond (hserver : s.server = .responding) (ok : Bool) :
      Effect mode s (.respond ok) { s with server := if ok then .waiting else .accepting }
  | wake (hserver : s.server = .waiting) (hsema : 0 < s.cmdSema) :
      Effect mode s .wake { s with server := .receiving, cmdSema := s.cmdSema - 1 }
  | take (hrpc : s.rpc = .called) :
      Effect mode s .take { s with rpc := .taken s.remoteCmd s.accepted.length }
  | clear {word serial : ℕ} (hrpc : s.rpc = .taken word serial) :
      Effect mode s .clear { s with
        rpc := .cleared word, remoteCmd := 0
        fetched := if word = 0 then none else some serial }
  | copy {word : ℕ} (hrpc : s.rpc = .cleared word) :
      Effect mode s .copy { s with rpc := .replied (word, s.data) }
  | land {m : Msg} (hrpc : s.rpc = .replied m) :
      Effect mode s .land { s with rpc := .idle, param := m }
  | poll (hee : s.ee = .idle) :
      Effect mode s .poll { s with ee := .calling, rpc := .called, fetched := none }
  | pollFails (hee : s.ee = .idle) (stack : Msg) :
      Effect mode s (.pollFails stack) { s with ee := .syncing stack, fetched := none }
  | read (hee : s.ee = .calling) (hmode : mode = .normal → s.rpc = .idle) :
      Effect mode s .read { s with ee := .syncing s.param }
  | dispatch {m : Msg} (hee : s.ee = .syncing m) (hrpc : s.rpc = .idle) :
      Effect mode s .dispatch { s with
        ee := Ee.branch m.1
        executed := if Known m.1 then s.executed ++ [m] else s.executed }
  | sendData (hee : s.ee = .dumping) (hio : s.ioSema ≠ 0) (ok : Bool) :
      Effect mode s (.sendData ok) { s with ioSema := if ok then s.ioSema else s.ioSema - 1 }
  | sentAll (hee : s.ee = .dumping) :
      Effect mode s .sentAll { s with ee := .ending cmdDump }
  | endReply {word : ℕ} (hee : s.ee = .ending word) (hio : s.ioSema ≠ 0) :
      Effect mode s (.endReply true) { s with ee := .ended word, cmdSema := signal s.cmdSema }
  | endReplyError {word : ℕ} (hee : s.ee = .ending word) (hio : s.ioSema ≠ 0) :
      Effect mode s (.endReply false) { s with ee := .ended word, ioSema := s.ioSema - 1 }
  | endReplyFails {word : ℕ} (hee : s.ee = .ending word) :
      Effect mode s .endReplyFails { s with ee := .ended word }
  | finish {word : ℕ} (hee : s.ee = .ended word) :
      Effect mode s .finish { s with ee := .idle, haltState := halted word s.haltState }

theorem effect_of_serverStep {mode : RpcMode} {s s' : State} {e : Event}
    (h : serverStep s e = some s') : Effect mode s e s' := by
  unfold serverStep at h
  split at h
  · split_ifs at h with hserver
    cases h
    exact .connect hserver
  · split_ifs at h with hserver
    cases h
    exact .accept hserver _
  · split_ifs at h with hserver
    cases h
    exact .reject hserver
  · split_ifs at h with hserver
    cases h
    exact .hangup hserver
  · by_cases hserver : s.server = .responding
    · rw [if_pos hserver] at h
      cases h
      exact .respond hserver _
    · rw [if_neg hserver] at h
      cases h
  · split_ifs at h with hserver
    cases h
    exact .wake hserver.1 hserver.2
  · cases h

theorem effect_of_rpcStep {mode : RpcMode} {s s' : State} {e : Event}
    (h : rpcStep s e = some s') : Effect mode s e s' := by
  unfold rpcStep at h
  split at h
  case h_1 hrpc =>
    cases h
    exact .take hrpc
  case h_2 hrpc =>
    cases h
    exact .clear hrpc
  case h_3 hrpc =>
    cases h
    exact .copy hrpc
  case h_4 hrpc =>
    cases h
    exact .land hrpc
  case h_5 => cases h

theorem effect_of_eeStep {mode : RpcMode} {s s' : State} {e : Event}
    (h : eeStep mode s e = some s') : Effect mode s e s' := by
  unfold eeStep at h
  split at h
  case h_1 hee =>
    cases h
    exact .poll hee
  case h_2 hee =>
    cases h
    exact .pollFails hee _
  case h_3 hee =>
    split_ifs at h with hmode
    cases h
    exact .read hee (by tauto)
  case h_4 hee =>
    by_cases hrpc : s.rpc = .idle
    · rw [if_pos hrpc] at h
      cases h
      exact .dispatch hee hrpc
    · rw [if_neg hrpc] at h
      cases h
  -- the calls that wait for the io semaphore
  case h_5 hee =>
    by_cases hio : s.ioSema = 0
    · rw [if_pos hio] at h
      cases h
    · rw [if_neg hio] at h
      cases h
      exact .sendData hee hio _
  case h_6 hee =>
    cases h
    exact .sentAll hee
  case h_7 ok word hee =>
    split_ifs at h with hio hok
    · cases h
      rw [hok]
      exact .endReply hee hio
    · cases h
      rw [Bool.not_eq_true] at hok
      rw [hok]
      exact .endReplyError hee hio
  case h_8 hee =>
    cases h
    exact .endReplyFails hee
  case h_9 hee =>
    cases h
    exact .finish hee
  case h_10 => cases h

theorem effect_of_step {mode : RpcMode} {s s' : State} {e : Event} (h : step mode s e = some s') :
    Effect mode s e s' := by
  rw [step, Option.or_eq_some_iff, Option.or_eq_some_iff] at h
  rcases h with h | ⟨-, h | ⟨-, h⟩⟩
  · exact effect_of_serverStep h
  · exact effect_of_rpcStep h
  · exact effect_of_eeStep h

/-! ### What the steps of a run have to meet -/

/-- A command has been read from `remote_cmd` that is still there. -/
def Rpc.midFetch : Rpc → Bool
  | .taken _ _ => true
  | _ => false

/-- The command word is one of those that `execRemoteCmd` knows and does not arrive while
another one is being taken out of `remote_cmd`; `SifCallRpc` accepts the call; the reply
is read after it has landed, which `RPC_M_NORMAL` makes sure of. -/
def Orderly (s : State) : Event → Prop
  | .accept m => Known m.1 ∧ s.rpc.midFetch = false
  | .pollFails _ => False
  | .read => s.rpc = .idle
  | _ => True

instance (s : State) (e : Event) : Decidable (Orderly s e) := by
  cases e <;> unfold Orderly <;> infer_instance

/-! ### The way of a command -/

/-- `word` is what the current call of `execRemoteCmd` has fetched. -/
def State.Carries (s : State) (word : ℕ) : Prop := word = 0 ∧ s.fetched = none ∨ Known word

/-- How far the current call of `execRemoteCmd` and its `GETREMOTECMD` have come. -/
def State.Flow (s : State) : Prop :=
  match s.ee, s.rpc with
  | .calling, .called => s.fetched = none
  | .calling, .taken word serial =>
      word = s.remoteCmd ∧ serial = s.accepted.length ∧ s.fetched = none
  | .calling, .cleared word => s.Carries word
  | .calling, .replied m => s.Carries m.1
  | .calling, .idle => s.Carries s.param.1
  | .syncing m, .idle => s.Carries m.1
  | .idle, .idle => True
  | .dumping, .idle => True
  | .ending _, .idle => True
  | .ended _, .idle => True
  | _, _ => False

/-- Only known commands are on their way. -/
structure Pipeline (s : State) : Prop where
  slot : s.remoteCmd = 0 ∨ Known s.remoteCmd
  flow : s.Flow

theorem pipeline_initial : Pipeline initial := ⟨Or.inl rfl, trivial⟩

theorem known_ne_zero {word : ℕ} (h : Known word) : word ≠ 0 := by
  rintro rfl
  exact absurd h (by decide)

theorem State.Flow.ee_eq {s : State} (hs : s.Flow) (hrpc : s.rpc ≠ .idle) : s.ee = .calling := by
  unfold State.Flow at hs
  split at hs <;> simp_all

theorem State.Flow.rpc_eq {s : State} (hs : s.Flow) (hee : s.ee ≠ .calling) : s.rpc = .idle := by
  unfold State.Flow at hs
  split at hs <;> simp_all

/-- Nothing but a store to `remote_cmd` in the middle of a fetch disturbs the flow. -/
theorem State.Flow.store {s : State} (hs : s.Flow)
    (htaken : s.rpc.midFetch = false)
    (server : Server) (word : ℕ) (data : List Byte) (accepted : List Msg) :
    State.Flow { s with server, remoteCmd := word, data, accepted } := by
  unfold State.Flow at hs ⊢
  dsimp only
  split at hs <;> simp_all [State.Carries, Rpc.midFetch]

/-- The branch taken has nothing more to do with `GETREMOTECMD`. -/
theorem State.Flow.branch {s : State} (hrpc : s.rpc = .idle) (word : ℕ) (executed : List Msg) :
    State.Flow { s with ee := Ee.branch word, executed } := by
  unfold Ee.branch
  split_ifs <;> simp [State.Flow, hrpc]

/-- The way of a command is kept by every orderly step. -/
theorem Pipeline.step {mode : RpcMode} {s s' : State} {e : Event} (hs : Pipeline s)
    (hok : Orderly s e) (h : Effect mode s e s') : Pipeline s' := by
  have hflow := hs.flow
  cases h with
  | connect hserver => exact ⟨hs.slot, hs.flow⟩
  | accept hserver m => exact ⟨Or.inr hok.1, hs.flow.store hok.2 _ _ _ _⟩
  | reject hserver => exact hs
  | hangup hserver => exact ⟨hs.slot, hs.flow⟩
  | respond hserver ok => exact ⟨hs.slot, hs.flow⟩
  | wake hserver hsema => exact ⟨hs.slot, hs.flow⟩
  -- the RPC thread is in its call only while the EE waits for it
  | take hrpc =>
      have hee := hflow.ee_eq (by simp [hrpc])
      simp only [State.Flow, hee, hrpc] at hflow
      exact ⟨hs.slot, by simp [State.Flow, hee, hflow]⟩
  | clear hrpc =>
      have hee := hflow.ee_eq (by simp [hrpc])
      simp only [State.Flow, hee, hrpc] at hflow
      refine ⟨Or.inl rfl, ?_⟩
      simp only [State.Flow, hee, State.Carries, hflow.1]
      rcases hs.slot with hzero | hknown
      · simp [hzero]
      · exact Or.inr hknown
  | copy hrpc =>
      have hee := hflow.ee_eq (by simp [hrpc])
      simp only [State.Flow, hee, hrpc] at hflow
      refine ⟨hs.slot, ?_⟩
      simpa [State.Flow, hee, State.Carries] using hflow
  | land hrpc =>
      have hee := hflow.ee_eq (by simp [hrpc])
      simp only [State.Flow, hee, hrpc] at hflow
      refine ⟨hs.slot, ?_⟩
      simpa [State.Flow, hee, State.Carries] using hflow
  | poll hee => exact ⟨hs.slot, rfl⟩
  | pollFails hee stack => exact hok.elim
  -- in order: the reply has landed before it is read
  | read hee hmode =>
      have hrpc : s.rpc = .idle := hok
      simp only [State.Flow, hee, hrpc] at hflow
      refine ⟨hs.slot, ?_⟩
      simpa [State.Flow, hrpc, State.Carries] using hflow
  | dispatch hee hrpc => exact ⟨hs.slot, .branch hrpc _ _⟩
  | sendData hee hio ok => exact ⟨hs.slot, hs.flow⟩
  | sentAll hee => exact ⟨hs.slot, by simp [State.Flow, hflow.rpc_eq (by simp [hee])]⟩
  | endReply hee hio => exact ⟨hs.slot, by simp [State.Flow, hflow.rpc_eq (by simp [hee])]⟩
  | endReplyError hee hio => exact ⟨hs.slot, by simp [State.Flow, hflow.rpc_eq (by simp [hee])]⟩
  | endReplyFails hee => exact ⟨hs.slot, by simp [State.Flow, hflow.rpc_eq (by simp [hee])]⟩
  | finish hee => exact ⟨hs.slot, by simp [State.Flow, hflow.rpc_eq (by simp [hee])]⟩

end Session

end Ps2rd.Ntpb
