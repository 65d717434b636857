import Mathlib.Tactic

/-!
# Chains in a table of links

A table gives each cell the next one, or an end mark.  `Chain next isEnd c l` says that the
cells from `c` on, up to the one with the end mark, are those of `l`.
-/

namespace LinkTable

variable {α : Type*} {next : α → α} {isEnd : α → Prop}

/-- The cells that follow one another from `c` on, with `c`. -/
inductive Chain (next : α → α) (isEnd : α → Prop) : α → List α → Prop
  | last {c : α} (hend : isEnd (next c)) : Chain next isEnd c [c]
  | link {c : α} {l : List α} (hnext : ¬ isEnd (next c)) (hl : Chain next isEnd (next c) l) :
      Chain next isEnd c (c :: l)

namespace Chain

variable {c : α} {l : List α}

theorem exists_cons (h : Chain next isEnd c l) : ∃ t, l = c :: t := by
  cases h with
  | last => exact ⟨[], rfl⟩
  | link _ hl => exact ⟨_, rfl⟩

/-- The chain of a cell of a chain is the rest of it. -/
theorem drop (h : Chain next isEnd c l) {k : ℕ} {x : α} (hx : l[k]? = some x) :
    Chain next isEnd x (l.drop k) := by
  induction h generalizing k with
  | last hend =>
      cases k with
      | zero =>
          cases hx
          exact .last hend
      | succ k => simp at hx
  | link hnext hl ih =>
      cases k with
      | zero =>
          cases hx
          exact .link hnext hl
      | succ k => exact ih hx

theorem unique (h : Chain next isEnd c l) {l' : List α} (h' : Chain next isEnd c l') : l = l' := by
  induction h generalizing l' with
  | last hend =>
      cases h' with
      | last => rfl
      | link hnext => exact absurd hend hnext
  | link hnext hl ih =>
      cases h' with
      | last hend => exact absurd hend hnext
      | link _ hl' => rw [ih hl']

/-- A chain that ends does not come back to a cell. -/
theorem eq_of_getElem? (h : Chain next isEnd c l) {i j : ℕ} {x : α} (hi : l[i]? = some x)
    (hj : l[j]? = some x) : i = j := by
  have hlen := congrArg List.length ((h.drop hi).unique (h.drop hj))
  have hi' := (List.getElem?_eq_some_iff.mp hi).1
  have hj' := (List.getElem?_eq_some_iff.mp hj).1
  rw [List.length_drop, List.length_drop] at hlen
  omega

end Chain

end LinkTable
