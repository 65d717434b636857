import Ps2rd.Ntpb.Session

/-!
# Commands are executed exactly once

`execRemoteCmd` executes the commands that `handleClient` accepted, each once, in
their order and with their own data, as long as every reply of `GETREMOTECMD` has
landed before it is read and no command is overwritten before it and its data are
fetched.
-/

namespace Ps2rd.Ntpb.Session

variable {mode : RpcMode} {s s' : State} {e : Event}

/-- A command word of 0 stands for no command. -/
def onWay (m : Msg) : List Msg := if m.1 = 0 then [] else [m]

/-- The command that the current call of `execRemoteCmd` has fetched and not yet looked at. -/
def State.inCall (s : State) : List Msg :=
  match s.ee, s.rpc with
  | .calling, .cleared word => onWay (word, s.data)
  | .calling, .replied m => onWay m
  | .calling, .idle => onWay s.param
  | .syncing m, _ => onWay m
  | _, _ => []

/-- The commands on their way from `handleClient` to `execRemoteCmd`. -/
def State.inFlight (s : State) : List Msg := s.inCall ++ onWay (s.remoteCmd, s.data)

/-- The commands that were accepted are those that have been executed, each once, and after
them those that are still on their way. -/
def State.ExactlyOnce (s : State) : Prop := s.accepted = s.executed ++ s.inFlight

instance (s : State) : Decidable s.ExactlyOnce := inferInstanceAs (Decidable (_ = _))

/-- `handleClient` stores to `remote_cmd`. -/
def Event.stores : Event → Bool
  | .accept _ => true
  | _ => false

/-- The data of a command is still to be read from `cmdbuf`. -/
def Rpc.midCopy : Rpc → Bool
  | .cleared _ => true
  | _ => false

/-- An orderly step that does not overwrite a command or its data. -/
def Unhurried (s : State) (e : Event) : Prop :=
  Orderly s e ∧ (e.stores = true → s.remoteCmd = 0 ∧ s.rpc.midCopy = false)

instance (s : State) (e : Event) : Decidable (Unhurried s e) := inferInstanceAs (Decidable (_ ∧ _))

/-- Nothing lost and nothing twice so far. -/
structure Delivered (s : State) : Prop where
  pipeline : Pipeline s
  once : s.ExactlyOnce

theorem delivered_initial : Delivered initial := ⟨pipeline_initial, rfl⟩

theorem onWay_of_ne_zero {m : Msg} (h : m.1 ≠ 0) : onWay m = [m] := if_neg h

@[simp]
theorem onWay_zero (data : List Byte) : onWay (0, data) = [] := rfl

/-- A store to `remote_cmd` and `cmdbuf` leaves alone what has been fetched. -/
theorem State.inCall_store (h : s.rpc.midCopy = false) (server : Server) (word : ℕ)
    (data : List Byte) (accepted : List Msg) :
    State.inCall { s with server, remoteCmd := word, data, accepted } = s.inCall := by
  unfold State.inCall
  dsimp only
  split <;> simp_all [Rpc.midCopy]

/-- Behind the dispatch no command is left in the call. -/
theorem inCall_branch (s : State) (word : ℕ) (executed : List Msg) :
    State.inCall { s with ee := Ee.branch word, executed } = [] := by
  unfold Ee.branch
  split_ifs <;> simp [State.inCall]

theorem Delivered.step (hs : Delivered s) (hok : Unhurried s e) (h : Effect mode s e s') :
    Delivered s' := by
  refine ⟨hs.pipeline.step hok.1 h, ?_⟩
  have hflow := hs.pipeline.flow
  have honce := hs.once
  unfold State.ExactlyOnce State.inFlight at honce ⊢
  cases h with
  | connect hserver => exact honce
  -- the slot is empty, so the request does not take the place of another
  | accept hserver m =>
      obtain ⟨hslot, hcopy⟩ := hok.2 rfl
      rw [hslot, onWay_zero, List.append_nil] at honce
      have hm : onWay (m.1, m.2) = [m] := onWay_of_ne_zero (known_ne_zero hok.1.1)
      simp only [State.inCall_store hcopy, hm, honce, List.append_assoc]
  | reject hserver => exact honce
  | hangup hserver => exact honce
  | respond hserver ok => exact honce
  | wake hserver hsema => exact honce
  | take hrpc =>
      have hee := hflow.ee_eq (by simp [hrpc])
      simpa [State.inCall, hee, hrpc] using honce
  | clear hrpc =>
      have hee := hflow.ee_eq (by simp [hrpc])
      simp only [State.Flow, hee, hrpc] at hflow
      obtain ⟨rfl, -, -⟩ := hflow
      simpa [State.inCall, hee, hrpc] using honce
  | copy hrpc =>
      have hee := hflow.ee_eq (by simp [hrpc])
      simpa [State.inCall, hee, hrpc] using honce
  | land hrpc =>
      have hee := hflow.ee_eq (by simp [hrpc])
      simpa [State.inCall, hee, hrpc] using honce
  | poll hee => simpa [State.inCall, hee] using honce
  | pollFails hee stack => exact hok.1.elim
  | read hee hmode =>
      have hrpc : s.rpc = .idle := hok.1
      simpa [State.inCall, hee, hrpc] using honce
  -- the command is executed, or the EE had fetched the empty slot
  | dispatch hee hrpc =>
      simp only [State.Flow, hee, hrpc, State.Carries] at hflow
      rw [inCall_branch]
      simp only [State.inCall, hee] at honce
      rcases hflow with ⟨hzero, -⟩ | hknown
      · have hunknown : ¬ Known 0 := fun hknown => known_ne_zero hknown rfl
        simpa [onWay, hzero, hunknown] using honce
      · simpa [hknown, onWay_of_ne_zero (known_ne_zero hknown)] using honce
  | sendData hee hio ok => exact honce
  | sentAll hee => simpa [State.inCall, hee] using honce
  | endReply hee hio => simpa [State.inCall, hee] using honce
  | endReplyError hee hio => simpa [State.inCall, hee] using honce
  | endReplyFails hee => simpa [State.inCall, hee] using honce
  | finish hee => simpa [State.inCall, hee] using honce

theorem exactlyOnce_of_unhurried {events : List Event}
    (hrun : Run (step mode) Unhurried initial events s) : s.ExactlyOnce := by
  have hs : Delivered s :=
    hrun.invariant delivered_initial fun _ _ _ h hok hstep => h.step hok (effect_of_step hstep)
  exact hs.once

/-- A client halts the game and resumes it, and the next poll finds nothing. -/
def haltResume : List Event :=
  [.connect, .accept (cmdHalt, []), .respond true,
    .poll, .take, .clear, .copy, .land, .read, .dispatch, .endReply true, .finish, .wake,
    .accept (cmdResume, []), .respond true,
    .poll, .take, .clear, .copy, .land, .read, .dispatch, .endReply true, .finish, .wake,
    .poll, .take, .clear, .copy, .land, .read, .dispatch]

theorem exactlyOnce_of_unhurried_haltResume :
    ∃ s, Run (step .nowait) Unhurried initial haltResume s ∧ s.ExactlyOnce := by
  obtain ⟨s, hs⟩ : ∃ s, Run.along (step .nowait) Unhurried initial haltResume = some s :=
    ⟨_, rfl⟩
  exact ⟨s, .of_along hs, exactlyOnce_of_unhurried (.of_along hs)⟩

/-- Without waiting, the second poll reads the parameter before its reply has landed, and the
command of the first one is executed again. -/
theorem earlyRead_not_exactlyOnce :
    ∃ s, Run (step .nowait) (fun _ _ => True) initial
      [.connect, .accept (cmdHalt, []), .respond true,
        .poll, .take, .clear, .copy, .land, .read, .dispatch, .endReply true, .finish,
        .poll, .read, .take, .clear, .copy, .land, .dispatch] s ∧
      s.accepted = [(cmdHalt, [])] ∧ s.executed = [(cmdHalt, []), (cmdHalt, [])] ∧
      ¬ s.ExactlyOnce := by
  obtain ⟨s, hs, htwice⟩ : ∃ s, Run.along (step .nowait) (fun _ _ => True) initial
      [.connect, .accept (cmdHalt, []), .respond true,
        .poll, .take, .clear, .copy, .land, .read, .dispatch, .endReply true, .finish,
        .poll, .read, .take, .clear, .copy, .land, .dispatch] = some s ∧
      s.accepted = [(cmdHalt, [])] ∧ s.executed = [(cmdHalt, []), (cmdHalt, [])] ∧
      ¬ s.ExactlyOnce := ⟨_, rfl, by decide⟩
  exact ⟨s, .of_along hs, htwice⟩

end Ps2rd.Ntpb.Session
