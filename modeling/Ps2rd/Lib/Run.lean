import Mathlib.Tactic

/-!
# Runs of a transition system

A system is a partial step function: `step s e` is the state after event `e`, or
`none` where the event cannot happen.  `Run step ok s events t` leads from `s` to `t`
along `events`, with every step meeting the condition `ok` on the state before it
and the event.  Invariants of such runs follow from what one step preserves.
-/

variable {σ ε : Type*}

/-- A run whose steps all meet `ok`. -/
inductive Run (step : σ → ε → Option σ) (ok : σ → ε → Prop) (s : σ) : List ε → σ → Prop
  | nil : Run step ok s [] s
  | snoc {events : List ε} {t u : σ} {e : ε} (hrun : Run step ok s events t) (hok : ok t e)
      (hstep : step t e = some u) : Run step ok s (events ++ [e]) u

namespace Run

variable {step : σ → ε → Option σ} {ok : σ → ε → Prop}

/-- What every step that meets the condition preserves holds in every state reached. -/
theorem invariant {P : σ → Prop} {s t : σ} {events : List ε} (hrun : Run step ok s events t)
    (hinit : P s) (hpreserves : ∀ a e b, P a → ok a e → step a e = some b → P b) : P t := by
  induction hrun with
  | nil => exact hinit
  | snoc _ hok hstep ih => exact hpreserves _ _ _ ih hok hstep

/-- The run along given events, if each of them can happen and meets the condition. -/
def along (step : σ → ε → Option σ) (ok : σ → ε → Prop) [∀ s e, Decidable (ok s e)] :
    σ → List ε → Option σ
  | s, [] => some s
  | s, e :: events => if ok s e then (step s e).bind fun t => along step ok t events else none

theorem cons {s t u : σ} {e : ε} {events : List ε} (hok : ok s e) (hstep : step s e = some t)
    (hrun : Run step ok t events u) : Run step ok s (e :: events) u := by
  induction hrun with
  | nil => exact .snoc .nil hok hstep
  | snoc _ hok' hstep' ih => exact .snoc ih hok' hstep'

theorem append {s t u : σ} {events events' : List ε} (hrun : Run step ok s events t)
    (hrun' : Run step ok t events' u) : Run step ok s (events ++ events') u := by
  induction hrun' with
  | nil => rwa [List.append_nil]
  | snoc _ hok hstep ih =>
      rw [← List.append_assoc]
      exact .snoc ih hok hstep

theorem of_along [∀ s e, Decidable (ok s e)] {s t : σ} {events : List ε}
    (h : along step ok s events = some t) : Run step ok s events t := by
  induction events generalizing s with
  | nil =>
      cases h
      exact .nil
  | cons e events ih =>
      simp only [along] at h
      split_ifs at h with hok
      obtain ⟨s', hstep, hrest⟩ := Option.bind_eq_some_iff.mp h
      exact cons hok hstep (ih hrest)

end Run
