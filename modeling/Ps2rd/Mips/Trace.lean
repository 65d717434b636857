import Ps2rd.Mips.Flow

/-!
# The stores of a run

The memory at the end of a run does not tell how often a program has written to
it.  `Traced` follows a run up to the first state at which `stop` holds and keeps
the stores that it makes, with their addresses and values and in order.
-/

namespace Ps2rd.Mips

variable {L S : Type}

/-- A store: the address, and the bytes that are written there. -/
structure Write where
  addr : Word
  size : ℕ
  val : BitVec (8 * size)
deriving DecidableEq

/-- What an instruction stores. -/
def Op.write (c : Core) : Op S → Option Write
  | sb rt off base => some ⟨c.addr off base, 1, (c.get rt).setWidth _⟩
  | sh rt off base => some ⟨c.addr off base, 2, (c.get rt).setWidth _⟩
  | sw rt off base => some ⟨c.addr off base, 4, (c.get rt).setWidth _⟩
  | sd rt off base => some ⟨c.addr off base, 8, (c.get rt).setWidth _⟩
  | _ => none

/-- What the next step stores. -/
def State.write (s : State L S) : Option Write := s.executes.bind (Op.write s.core)

/-- The memory after a store. -/
def Write.apply (m : Mem) (w : Write) : Mem := m.store w.size w.addr w.val

theorem Core.mem_store {c d : Core} {n : ℕ} {rt : Reg} {a : Word} (h : c.store n rt a = some d) :
    d.mem = Write.apply c.mem ⟨a, n, (c.get rt).setWidth _⟩ := by
  obtain ⟨-, rfl⟩ := Core.store_eq_some h
  exact Mem.store_of_setWidth_eq rfl rfl

/-- The stores are all that an instruction does to memory. -/
theorem Op.mem_exec {sym : S → Word} {c d : Core} {o : Op S} (h : o.exec sym c = some d) :
    d.mem = (o.write c).toList.foldl Write.apply c.mem := by
  cases o
  case sb | sh | sw | sd => exact Core.mem_store h
  case lwSym | lb | lbu | lhu | lw | ld =>
    rw [exec] at h
    obtain ⟨-, rfl⟩ := Core.load_eq_some h
    rfl
  all_goals
    cases h
    rfl

namespace Program

variable [DecidableEq L] (P : Program L S) (layout : Layout L S)

/-- From `s` to a state up to the first one at which `stop` holds, with the stores on the
way. -/
inductive Traced (stop : State L S → Prop) : State L S → List Write → State L S → Prop
  | here (s : State L S) : Traced stop s [] s
  | step {s t u : State L S} {writes : List Write} (hns : ¬ stop s)
      (hstep : P.step layout s = some t) (h : Traced stop t writes u) :
      Traced stop s (s.write.toList ++ writes) u

variable {P layout}

namespace Traced

variable {stop : State L S → Prop} {s t u : State L S} {writes writes' : List Write}

theorem trans (h : P.Traced layout stop s writes t) (h' : P.Traced layout stop t writes' u) :
    P.Traced layout stop s (writes ++ writes') u := by
  induction h with
  | here => exact h'
  | step hns hstep _ ih =>
      rw [List.append_assoc]
      exact .step hns hstep (ih h')

/-- A step that stores nothing. -/
theorem quiet (hns : ¬ stop s) (hwrite : s.write = none) (hstep : P.step layout s = some t)
    (h : P.Traced layout stop t writes u) : P.Traced layout stop s writes u := by
  have hstep' := Traced.step hns hstep h
  rwa [hwrite] at hstep'

theorem store {w : Write} (hns : ¬ stop s) (hwrite : s.write = some w)
    (hstep : P.step layout s = some t) (h : P.Traced layout stop t writes u) :
    P.Traced layout stop s (w :: writes) u := by
  have hstep' := Traced.step hns hstep h
  rwa [hwrite] at hstep'

/-- The stores are all that a run does to memory. -/
theorem mem (h : P.Traced layout stop s writes t) :
    t.core.mem = writes.foldl Write.apply s.core.mem := by
  induction h with
  | here => rfl
  | @step s t u writes _ hstep _ ih =>
      have hfirst : t.core.mem = s.write.toList.foldl Write.apply s.core.mem := by
        rcases Program.step_core hstep with ⟨hnone, hcore⟩ | ⟨o, ho, hexec⟩
        · rw [State.write, hnone, hcore]
          rfl
        · rw [State.write, ho]
          exact Op.mem_exec hexec
      rw [List.foldl_append, ← hfirst]
      exact ih

/-- A run that comes to its end passes through each of its states and makes the stores up
to there first. -/
theorem toward (ht : P.Traced layout stop s writes t) (hu : P.Traced layout stop s writes' u)
    (hstop : stop u) :
    ∃ rest, writes' = writes ++ rest ∧ P.Traced layout stop t rest u := by
  induction ht generalizing writes' with
  | here => exact ⟨writes', rfl, hu⟩
  | @step s s₁ t writes hns hstep _ ih =>
      cases hu with
      | here => exact absurd hstop hns
      | step _ hstep' hu' =>
          rw [hstep] at hstep'
          cases hstep'
          obtain ⟨rest, rfl, hrest⟩ := ih hu'
          exact ⟨rest, (List.append_assoc _ _ _).symm, hrest⟩

/-- There is one run to the end, so the stores on the way are determined. -/
theorem unique (ht : P.Traced layout stop s writes t) (hstop : stop t)
    (hu : P.Traced layout stop s writes' u) (hstop' : stop u) : writes' = writes ∧ u = t := by
  obtain ⟨rest, rfl, hrest⟩ := ht.toward hu hstop'
  cases hrest with
  | here => exact ⟨List.append_nil _, rfl⟩
  | step hns => exact absurd hstop hns

/-- A run that raises an exception on the way does not come to its end. -/
theorem not_stop_of_stuck (ht : P.Traced layout stop s writes t) (hns : ¬ stop t)
    (hstuck : P.step layout t = none) (hu : P.Traced layout stop s writes' u) : ¬ stop u := by
  intro hstop
  obtain ⟨rest, -, hrest⟩ := ht.toward hu hstop
  cases hrest with
  | here => exact hns hstop
  | step _ hstep =>
      rw [hstuck] at hstep
      cases hstep

end Traced

variable (P layout) in
/-- From `s` a state with `Q` is reached up to `stop`, with these stores on the way. -/
def Traces (stop : State L S → Prop) (s : State L S) (writes : List Write)
    (Q : State L S → Prop) : Prop :=
  ∃ t, P.Traced layout stop s writes t ∧ Q t

namespace Traces

variable {stop Q R : State L S → Prop} {s : State L S} {writes writes' : List Write}
  {c c' : Core} {l target : L} {o slot : Op S} {rest : List (Instr L S)} {test : Test}

theorem here (h : Q s) : P.Traces layout stop s [] Q := ⟨s, .here s, h⟩

theorem trans (h : P.Traces layout stop s writes R)
    (hnext : ∀ t, R t → P.Traces layout stop t writes' Q) :
    P.Traces layout stop s (writes ++ writes') Q := by
  obtain ⟨t, ht, hR⟩ := h
  obtain ⟨u, hu, hQ⟩ := hnext t hR
  exact ⟨u, ht.trans hu, hQ⟩

theorem op (hns : ¬ stop ⟨c, .block l (.op o :: rest)⟩) (hwrite : o.write c = none)
    (ho : o.exec layout.sym c = some c')
    (h : P.Traces layout stop ⟨c', .block l rest⟩ writes Q) :
    P.Traces layout stop ⟨c, .block l (.op o :: rest)⟩ writes Q := by
  obtain ⟨t, ht, hQ⟩ := h
  exact ⟨t, ht.quiet hns hwrite (step_op ho), hQ⟩

theorem store {w : Write} (hns : ¬ stop ⟨c, .block l (.op o :: rest)⟩)
    (hwrite : o.write c = some w) (ho : o.exec layout.sym c = some c')
    (h : P.Traces layout stop ⟨c', .block l rest⟩ writes Q) :
    P.Traces layout stop ⟨c, .block l (.op o :: rest)⟩ (w :: writes) Q := by
  obtain ⟨t, ht, hQ⟩ := h
  exact ⟨t, ht.store hns hwrite (step_op ho), hQ⟩

theorem fall {next : L} (hns : ¬ stop ⟨c, .block l []⟩) (hnext : P.after l = some next)
    (h : P.Traces layout stop ⟨c, P.start next⟩ writes Q) :
    P.Traces layout stop ⟨c, .block l []⟩ writes Q := by
  obtain ⟨t, ht, hQ⟩ := h
  exact ⟨t, ht.quiet hns rfl (step_fall hnext), hQ⟩

theorem b (hns : ¬ stop ⟨c, .block l (.b target :: .op slot :: rest)⟩)
    (hwrite : slot.write c = none) (ho : slot.exec layout.sym c = some c')
    (h : P.Traces layout stop ⟨c', P.start target⟩ writes Q) :
    P.Traces layout stop ⟨c, .block l (.b target :: .op slot :: rest)⟩ writes Q := by
  obtain ⟨t, ht, hQ⟩ := h
  exact ⟨t, ht.quiet hns hwrite (step_b ho), hQ⟩

/-- A branch whose slot is executed on both ways. -/
theorem branch (hns : ¬ stop ⟨c, .block l (.branch test false target :: .op slot :: rest)⟩)
    (hwrite : slot.write c = none) (ho : slot.exec layout.sym c = some c')
    (h : P.Traces layout stop
      ⟨c', if test.holds c then P.start target else .block l rest⟩ writes Q) :
    P.Traces layout stop ⟨c, .block l (.branch test false target :: .op slot :: rest)⟩
      writes Q := by
  obtain ⟨t, ht, hQ⟩ := h
  have hquiet : State.write ⟨c, .block (S := S) l
      (.branch test false target :: .op slot :: rest)⟩ = none := by
    simpa [State.write, State.executes] using hwrite
  refine ⟨t, ht.quiet hns hquiet ?_, hQ⟩
  split_ifs with htest
  · exact step_taken htest ho
  · exact step_notTaken htest ho

end Traces

end Program

end Ps2rd.Mips
