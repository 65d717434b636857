import Mathlib.Tactic
import Ps2rd.Lib.First

/-!
# Counted scans

`scan stop n i` is the loop `for (k = i; k < i + n; k++) if (stop k) break;`.  The test
may be undefined at an index, for example when it reads outside of an array, and then
the scan is undefined if it gets there: `none`.  Otherwise the result is the index at
which the scan stopped, `some none` if it went through.
-/

/-- Tests `n` indices from `i` on, up to the first at which `stop` holds. -/
def scan (stop : ℕ → Option Bool) : ℕ → ℕ → Option (Option ℕ)
  | 0, _ => some none
  | n + 1, i => (stop i).bind fun b => if b then some (some i) else scan stop n (i + 1)

variable {stop : ℕ → Option Bool} {n i p : ℕ}

theorem scan_succ_of_false (h : stop i = some false) :
    scan stop (n + 1) i = scan stop n (i + 1) := by
  simp [scan, h]

theorem scan_succ_of_true (h : stop i = some true) : scan stop (n + 1) i = some (some i) := by
  simp [scan, h]

theorem scan_succ_of_none (h : stop i = none) : scan stop (n + 1) i = none := by
  simp [scan, h]

/-- The scan goes on behind the indices it has passed. -/
theorem scan_of_passed (hpassed : ∀ k < p, stop (i + k) = some false) :
    scan stop (p + n) i = scan stop n (i + p) := by
  induction p generalizing i with
  | zero => rw [Nat.zero_add, Nat.add_zero]
  | succ p ih =>
      have hfirst : stop i = some false := hpassed 0 (Nat.succ_pos p)
      have hrest : ∀ k < p, stop (i + 1 + k) = some false := by
        intro k hk
        have hk' := hpassed (k + 1) (Nat.succ_lt_succ hk)
        rwa [← Nat.add_assoc, Nat.add_right_comm] at hk'
      rw [Nat.add_right_comm, scan_succ_of_false hfirst, ih hrest, Nat.add_assoc, Nat.add_comm 1]

/-- The three ways in which a scan can end. -/
theorem scan_cases (stop : ℕ → Option Bool) (n i : ℕ) :
    (∀ k < n, stop (i + k) = some false) ∧ scan stop n i = some none ∨
    ∃ p < n, (∀ k < p, stop (i + k) = some false) ∧
      (stop (i + p) = some true ∧ scan stop n i = some (some (i + p)) ∨
        stop (i + p) = none ∧ scan stop n i = none) := by
  by_cases hall : ∀ k < n, stop (i + k) = some false
  · refine .inl ⟨hall, ?_⟩
    have hpassed := scan_of_passed (n := 0) hall
    rwa [Nat.add_zero] at hpassed
  · push Not at hall
    -- the first index that is not passed decides
    obtain ⟨hlt, hstop⟩ := Nat.find_spec hall
    have hpassed : ∀ k < Nat.find hall, stop (i + k) = some false := by
      intro k hk
      by_contra hne
      exact Nat.find_min hall hk ⟨hk.trans hlt, hne⟩
    obtain ⟨rest, hrest⟩ := Nat.exists_eq_add_of_lt hlt
    have hscan : scan stop n i = scan stop (rest + 1) (i + Nat.find hall) := calc
      scan stop n i = scan stop (Nat.find hall + (rest + 1)) i := congrArg (scan stop · i) hrest
      _ = scan stop (rest + 1) (i + Nat.find hall) := scan_of_passed hpassed
    refine .inr ⟨Nat.find hall, hlt, hpassed, ?_⟩
    cases hvalue : stop (i + Nat.find hall) with
    | none => exact .inr ⟨rfl, hscan.trans (scan_succ_of_none hvalue)⟩
    | some b =>
        cases b with
        | false => exact absurd hvalue hstop
        | true => exact .inl ⟨rfl, hscan.trans (scan_succ_of_true hvalue)⟩

theorem scan_eq_some_none_iff : scan stop n i = some none ↔ ∀ k < n, stop (i + k) = some false := by
  constructor
  · intro h
    rcases scan_cases stop n i with ⟨hall, -⟩ | ⟨p, -, -, ⟨-, heq⟩ | ⟨-, heq⟩⟩
    · exact hall
    · simp [h] at heq
    · simp [h] at heq
  · intro hall
    have hpassed := scan_of_passed (n := 0) hall
    rwa [Nat.add_zero] at hpassed

/-- A scan with a test that is defined everywhere finds the first index at which it holds. -/
theorem isFirst_scan {P : ℕ → Prop} [DecidablePred P]
    (hstop : ∀ k < n, stop k = some (decide (P k))) :
    ∃ r, scan stop n 0 = some r ∧ IsFirst (fun k => k < n ∧ P k) r := by
  rcases scan_cases stop n 0 with ⟨hall, heq⟩ | ⟨p, hp, hpassed, ⟨htrue, heq⟩ | ⟨hnone, -⟩⟩
  · refine ⟨none, heq, IsFirst.none ?_⟩
    rintro q ⟨hq, hPq⟩
    have hfalse := hall q hq
    rw [Nat.zero_add, hstop q hq] at hfalse
    simp [hPq] at hfalse
  · rw [Nat.zero_add] at htrue heq
    refine ⟨some p, heq, ?_, ?_⟩
    · rintro q ⟨⟩
      refine ⟨hp, ?_⟩
      rw [hstop p hp] at htrue
      simpa using htrue
    · rintro q ⟨hq, hPq⟩
      refine ⟨p, rfl, ?_⟩
      by_contra hlt
      have hfalse := hpassed q (Nat.lt_of_not_le hlt)
      rw [Nat.zero_add, hstop q hq] at hfalse
      simp [hPq] at hfalse
  · rw [Nat.zero_add, hstop p hp] at hnone
    cases hnone
