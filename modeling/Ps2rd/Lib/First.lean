import Mathlib.Data.Option.Basic
import Mathlib.Data.Nat.Notation

/-!
# The first index with a property

A search that runs through indices in order and stops at the first hit returns the
least index with the property that it tests, or nothing.  When it stops at more
than it should, `IsFirst.iff_forall_exists` says when that does not matter.
-/

/-- `r` is the least index with `P`, or `none` if there is no such index. -/
structure IsFirst (P : ℕ → Prop) (r : Option ℕ) : Prop where
  holds : ∀ p ∈ r, P p
  least : ∀ q, P q → ∃ p ∈ r, p ≤ q

namespace IsFirst

variable {P Q : ℕ → Prop} {r : Option ℕ}

theorem congr (h : IsFirst P r) (hiff : ∀ p, P p ↔ Q p) : IsFirst Q r :=
  ⟨fun p hp => (hiff p).mp (h.holds p hp), fun q hq => h.least q ((hiff q).mpr hq)⟩

theorem none (h : ∀ q, ¬ P q) : IsFirst P none := by
  refine ⟨?_, fun q hq => absurd hq (h q)⟩
  rintro p ⟨⟩

theorem zero (h : P 0) : IsFirst P (some 0) := by
  refine ⟨fun p hp => ?_, fun q _ => ⟨0, rfl, Nat.zero_le q⟩⟩
  cases hp
  exact h

/-- The search goes on behind an index without the property. -/
theorem succ (h₀ : ¬ P 0) (h : IsFirst (fun p => P (p + 1)) r) : IsFirst P (r.map (· + 1)) := by
  constructor
  · intro p hp
    obtain ⟨p', hp', rfl⟩ := Option.mem_map.mp hp
    exact h.holds p' hp'
  · intro q hq
    cases q with
    | zero => exact absurd hq h₀
    | succ q =>
        obtain ⟨p, hp, hle⟩ := h.least q hq
        exact ⟨p + 1, Option.mem_map_of_mem _ hp, Nat.succ_le_succ hle⟩

theorem of_succ (h : IsFirst P (r.map (· + 1))) : IsFirst (fun p => P (p + 1)) r := by
  refine ⟨fun p hp => h.holds (p + 1) (Option.mem_map_of_mem _ hp), fun q hq => ?_⟩
  obtain ⟨p, hp, hle⟩ := h.least (q + 1) hq
  obtain ⟨p', hp', rfl⟩ := Option.mem_map.mp hp
  exact ⟨p', hp', Nat.le_of_succ_le_succ hle⟩

theorem isSome_iff (h : IsFirst P r) : r.isSome = true ↔ ∃ p, P p := by
  rw [Option.isSome_iff_exists]
  constructor
  · rintro ⟨p, hp⟩
    exact ⟨p, h.holds p hp⟩
  · rintro ⟨q, hq⟩
    obtain ⟨p, hp, -⟩ := h.least q hq
    exact ⟨p, hp⟩

theorem unique {r' : Option ℕ} (h : IsFirst P r) (h' : IsFirst P r') : r = r' := by
  cases r with
  | none =>
      cases r' with
      | none => rfl
      | some q =>
          obtain ⟨p, hp, -⟩ := h.least q (h'.holds q rfl)
          cases hp
  | some p =>
      obtain ⟨q, hq, hqp⟩ := h'.least p (h.holds p rfl)
      obtain ⟨p', hp', hle⟩ := h.least q (h'.holds q hq)
      cases hp'
      rw [hq, Nat.le_antisymm hle hqp]

/-- A search that also stops at indices with `Q` finds the first index with `P`
exactly if each of those comes after one with `P`. -/
theorem iff_forall_exists (h : IsFirst (fun p => P p ∨ Q p) r) (hdisj : ∀ q, P q → ¬ Q q) :
    IsFirst P r ↔ ∀ q, Q q → ∃ p < q, P p := by
  constructor
  · intro hP q hq
    obtain ⟨p, hp, hle⟩ := h.least q (.inr hq)
    have hPp := hP.holds p hp
    refine ⟨p, Nat.lt_of_le_of_ne hle ?_, hPp⟩
    rintro rfl
    exact hdisj p hPp hq
  · intro hall
    refine ⟨fun p hp => ?_, fun q hq => h.least q (.inl hq)⟩
    rcases h.holds p hp with hP | hQ
    · exact hP
    · obtain ⟨q, hlt, hPq⟩ := hall p hQ
      obtain ⟨p', hp', hle⟩ := h.least q (.inl hPq)
      cases Option.mem_unique hp hp'
      exact absurd hlt (Nat.not_lt.mpr hle)

/-- A search of the indices below `n` finds the first index with `P` exactly if there is
one below `n` whenever there is one at all. -/
theorem below_iff {n : ℕ} (h : IsFirst (fun p => p < n ∧ P p) r) :
    IsFirst P r ↔ ∀ q, P q → ∃ p < n, P p := by
  constructor
  · intro hP q hq
    obtain ⟨p, hp, -⟩ := hP.least q hq
    exact ⟨p, h.holds p hp⟩
  · intro hall
    refine ⟨fun p hp => (h.holds p hp).2, fun q hq => ?_⟩
    by_cases hlt : q < n
    · exact h.least q ⟨hlt, hq⟩
    · obtain ⟨p', hp', hP⟩ := hall q hq
      obtain ⟨p, hp, hle⟩ := h.least p' ⟨hp', hP⟩
      exact ⟨p, hp, Nat.le_trans hle (Nat.le_of_lt (Nat.lt_of_lt_of_le hp' (Nat.le_of_not_lt hlt)))⟩

end IsFirst

/-! ### The condition of `IsFirst.iff_forall_exists` at the first index -/

theorem forall_exists_lt_of_zero {P Q : ℕ → Prop} (hP : P 0) (hQ : ¬ Q 0) :
    ∀ q, Q q → ∃ p < q, P p := by
  intro q hq
  refine ⟨0, Nat.pos_of_ne_zero ?_, hP⟩
  rintro rfl
  exact hQ hq

theorem not_forall_exists_lt {P Q : ℕ → Prop} (hQ : Q 0) : ¬ ∀ q, Q q → ∃ p < q, P p := by
  intro hall
  obtain ⟨p, hp, -⟩ := hall 0 hQ
  exact Nat.not_lt_zero p hp

/-- The condition one index further on. -/
theorem forall_exists_lt_succ_iff {P Q : ℕ → Prop} (hP : ¬ P 0) (hQ : ¬ Q 0) :
    (∀ q, Q q → ∃ p < q, P p) ↔ ∀ q, Q (q + 1) → ∃ p < q, P (p + 1) := by
  constructor
  · intro hall q hq
    obtain ⟨p, hp, hPp⟩ := hall (q + 1) hq
    cases p with
    | zero => exact absurd hPp hP
    | succ p => exact ⟨p, Nat.lt_of_succ_lt_succ hp, hPp⟩
  · intro hall q hq
    cases q with
    | zero => exact absurd hq hQ
    | succ q =>
        obtain ⟨p, hp, hPp⟩ := hall q hq
        exact ⟨p + 1, Nat.succ_lt_succ hp, hPp⟩
