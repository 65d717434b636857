import Ps2rd.Ntpb.Session

/-!
# The server thread is not left waiting

If the server thread is blocked on `ntpbserver_cmd_sema`, some command is still to be
completed.  This holds as long as every command is one `execRemoteCmd` knows, is
fetched properly, and has its `ENDREPLY` succeed.
-/

namespace Ps2rd.Ntpb.Session

variable {mode : RpcMode} {s s' : State} {e : Event}

/-- The server thread is blocked in `WaitSema(ntpbserver_cmd_sema)`. -/
def State.Blocked (s : State) : Prop := s.server = .waiting ∧ s.cmdSema = 0

instance (s : State) : Decidable s.Blocked := inferInstanceAs (Decidable (_ ∧ _))

/-- The last command that was accepted has not been fetched, or `execRemoteCmd` is still
in the call that fetched it, with the `ENDREPLY` of that call not yet returned. -/
def State.Outstanding (s : State) : Prop :=
  s.remoteCmd ≠ 0 ∨ s.fetched = some s.accepted.length ∧ s.ee ≠ .idle

instance (s : State) : Decidable s.Outstanding := inferInstanceAs (Decidable (_ ∨ _))

/-- An orderly step in which no `ENDREPLY` fails. -/
def Completing (s : State) (e : Event) : Prop :=
  Orderly s e ∧ e ≠ .endReply false ∧ e ≠ .endReplyFails

instance (s : State) (e : Event) : Decidable (Completing s e) := inferInstanceAs (Decidable (_ ∧ _))

/-- The call has its `ENDREPLY` still before it. -/
def Ee.Unfinished : Ee → Prop
  | .calling | .syncing _ | .dumping | .ending _ => True
  | .idle | .ended _ => False

/-- The semaphore has been posted, or it is going to be. -/
def State.Expected (s : State) : Prop :=
  0 < s.cmdSema ∨ s.remoteCmd ≠ 0 ∨ s.fetched = some s.accepted.length ∧ s.ee.Unfinished

/-- While the server thread relies on the semaphore, it can expect it. -/
structure Completion (s : State) : Prop where
  pipeline : Pipeline s
  expected : s.server = .responding ∨ s.server = .waiting → s.Expected

theorem completion_initial : Completion initial := ⟨pipeline_initial, by simp [initial]⟩

theorem Ee.branch_unfinished {word : ℕ} (h : Known word) : (Ee.branch word).Unfinished := by
  unfold Ee.branch
  split_ifs with hdump hshort
  · trivial
  · trivial
  · rcases List.mem_cons.mp h with h | h
    · exact hdump h
    · exact hshort h

theorem Completion.step (hs : Completion s) (hok : Completing s e) (h : Effect mode s e s') :
    Completion s' := by
  refine ⟨hs.pipeline.step hok.1 h, ?_⟩
  have hflow := hs.pipeline.flow
  have hexpected := hs.expected
  unfold State.Expected at hexpected ⊢
  -- what a blocked server waits for moves on from `remote_cmd` to the EE, then to the semaphore
  cases h with
  | connect hserver => simp
  | accept hserver m => exact fun _ => Or.inr (Or.inl (known_ne_zero hok.1.1))
  | reject hserver => exact hexpected
  | hangup hserver => simp
  | respond hserver ok => exact fun _ => hexpected (Or.inl hserver)
  | wake hserver hsema => simp
  | take hrpc => exact hexpected
  | clear hrpc =>
      have hee := hflow.ee_eq (by simp [hrpc])
      simp only [State.Flow, hee, hrpc] at hflow
      obtain ⟨rfl, rfl, hfetched⟩ := hflow
      intro hserver
      by_cases hzero : s.remoteCmd = 0
      · simpa [hzero, hfetched] using hexpected hserver
      · exact Or.inr (Or.inr ⟨by simp [hzero], by simp [hee, Ee.Unfinished]⟩)
  | copy hrpc => exact hexpected
  | land hrpc => exact hexpected
  | poll hee =>
      intro hserver
      simpa [hee, Ee.Unfinished] using hexpected hserver
  | pollFails hee stack => exact hok.1.elim
  | read hee hmode =>
      intro hserver
      simpa [hee, Ee.Unfinished] using hexpected hserver
  -- nothing was fetched, or a command that has a branch
  | dispatch hee hrpc =>
      intro hserver
      simp only [State.Flow, hee, hrpc, State.Carries] at hflow
      rcases hflow with ⟨-, hfetched⟩ | hknown
      · simpa [hfetched] using hexpected hserver
      · refine (hexpected hserver).imp_right (Or.imp_right fun hfetched => ?_)
        exact ⟨hfetched.1, Ee.branch_unfinished hknown⟩
  | sendData hee hio ok => exact hexpected
  | sentAll hee =>
      intro hserver
      simpa [hee, Ee.Unfinished] using hexpected hserver
  | endReply hee hio => exact fun _ => Or.inl (by simp [signal])
  | endReplyError hee hio => exact absurd rfl hok.2.1
  | endReplyFails hee => exact absurd rfl hok.2.2
  | finish hee =>
      intro hserver
      simpa [hee, Ee.Unfinished] using hexpected hserver

/-- A blocked server thread has a command outstanding. -/
theorem outstanding_of_completing {events : List Event}
    (hrun : Run (step mode) Completing initial events s) (hblocked : s.Blocked) :
    s.Outstanding := by
  have hs : Completion s :=
    hrun.invariant completion_initial fun _ _ _ h hok hstep => h.step hok (effect_of_step hstep)
  obtain ⟨hserver, hsema⟩ := hblocked
  rcases hs.expected (Or.inr hserver) with hposted | hslot | ⟨hfetched, hee⟩
  · omega
  · exact Or.inl hslot
  · refine Or.inr ⟨hfetched, fun hidle => ?_⟩
    simp [hidle, Ee.Unfinished] at hee

/-- A client sends `HALT`, and `execRemoteCmd` has got as far as its `ENDREPLY`. -/
def haltEvents : List Event :=
  [.connect, .accept (cmdHalt, []), .respond true, .poll, .take, .clear, .copy, .land, .read,
    .dispatch]

theorem outstanding_of_completing_haltEvents :
    ∃ s, Run (step .nowait) Completing initial haltEvents s ∧ s.Blocked ∧ s.Outstanding := by
  obtain ⟨s, hs, hblocked⟩ : ∃ s, Run.along (step .nowait) Completing initial haltEvents = some s ∧
      s.Blocked := ⟨_, rfl, by decide⟩
  exact ⟨s, .of_along hs, hblocked, outstanding_of_completing (.of_along hs) hblocked⟩

/-- A client sends a command word without a branch in `execRemoteCmd`: the poll that fetches
it returns without an `ENDREPLY`, and the server thread waits until the next reboot. -/
theorem unknown_not_outstanding :
    ∃ s, Run (step .normal) (fun _ _ => True) initial
      [.connect, .accept (0x203, []), .respond true, .poll, .take, .clear, .copy, .land, .read,
        .dispatch] s ∧ s.Blocked ∧ ¬ s.Outstanding := by
  obtain ⟨s, hs, hwedged⟩ : ∃ s, Run.along (step .normal) (fun _ _ => True) initial
      [.connect, .accept (0x203, []), .respond true, .poll, .take, .clear, .copy, .land, .read,
        .dispatch] = some s ∧ s.Blocked ∧ ¬ s.Outstanding := ⟨_, rfl, by decide⟩
  exact ⟨s, .of_along hs, hwedged⟩

end Ps2rd.Ntpb.Session
