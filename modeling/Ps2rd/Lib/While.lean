import Mathlib.Tactic

/-!
# While loops that may block

`whileM cond body fuel` runs `body` as long as `cond` holds.  The body is a
partial function: `none` stands for a call that never returns.  A result means
that the loop ended within the fuel; the rules below say what can be concluded
from one, and when there is one.
-/

variable {σ : Type*}

/-- `while (cond) body`, with at most `fuel` tests of the condition. -/
def whileM (cond : σ → Bool) (body : σ → Option σ) : ℕ → σ → Option σ
  | 0, _ => none
  | fuel + 1, s => if cond s then (body s).bind (whileM cond body fuel) else some s

variable {cond : σ → Bool} {body : σ → Option σ}

theorem whileM_zero_ne_some {s t : σ} : whileM cond body 0 s ≠ some t := nofun

theorem whileM_succ (fuel : ℕ) (s : σ) : whileM cond body (fuel + 1) s =
    if cond s then (body s).bind (whileM cond body fuel) else some s :=
  rfl

theorem whileM_of_not {s : σ} (hcond : cond s = false) (fuel : ℕ) :
    whileM cond body (fuel + 1) s = some s := by
  rw [whileM_succ, hcond]
  rfl

theorem whileM_of_body {s s' : σ} (hcond : cond s = true) (hbody : body s = some s') (fuel : ℕ) :
    whileM cond body (fuel + 1) s = whileM cond body fuel s' := by
  rw [whileM_succ, if_pos hcond, hbody, Option.bind_some]

/-- A finished loop that entered its body did so with a body that returned. -/
theorem exists_of_whileM_succ {s t : σ} {fuel : ℕ} (hcond : cond s = true)
    (hrun : whileM cond body (fuel + 1) s = some t) :
    ∃ s', body s = some s' ∧ whileM cond body fuel s' = some t := by
  rw [whileM_succ, if_pos hcond] at hrun
  exact Option.bind_eq_some_iff.mp hrun

theorem exists_of_whileM_eq_some {s t : σ} {fuel : ℕ} (hcond : cond s = true)
    (hrun : whileM cond body fuel s = some t) :
    ∃ s' rest, body s = some s' ∧ whileM cond body rest s' = some t := by
  cases fuel with
  | zero => exact absurd hrun whileM_zero_ne_some
  | succ fuel =>
      obtain ⟨s', hbody, hrest⟩ := exists_of_whileM_succ hcond hrun
      exact ⟨s', fuel, hbody, hrest⟩

/-- What the body preserves, the loop preserves. -/
theorem whileM_preserves {P : σ → Prop}
    (hstep : ∀ s s', cond s = true → body s = some s' → P s → P s') {fuel : ℕ} {s t : σ}
    (hrun : whileM cond body fuel s = some t) (hs : P s) : P t := by
  induction fuel generalizing s with
  | zero => exact absurd hrun whileM_zero_ne_some
  | succ fuel ih =>
      cases hcond : cond s with
      | false =>
          rw [whileM_of_not hcond] at hrun
          exact Option.some.inj hrun ▸ hs
      | true =>
          obtain ⟨s', hbody, hrest⟩ := exists_of_whileM_succ hcond hrun
          exact ih hrest (hstep s s' hcond hbody hs)

/-- A loop that has ended ends in the same way with more fuel, and with a body that returns
more often. -/
theorem whileM_mono {body' : σ → Option σ} (hbody : ∀ s t, body s = some t → body' s = some t)
    {fuel fuel' : ℕ} (hfuel : fuel ≤ fuel') {s t : σ} (hrun : whileM cond body fuel s = some t) :
    whileM cond body' fuel' s = some t := by
  induction fuel generalizing fuel' s with
  | zero => exact absurd hrun whileM_zero_ne_some
  | succ fuel ih =>
      obtain ⟨rest, rfl⟩ := Nat.exists_eq_add_of_le' (Nat.one_le_of_lt hfuel)
      cases hcond : cond s with
      | false =>
          rw [whileM_of_not hcond] at hrun ⊢
          exact hrun
      | true =>
          obtain ⟨s', hstep, hrest⟩ := exists_of_whileM_succ hcond hrun
          rw [whileM_of_body hcond (hbody s s' hstep)]
          exact ih (by omega) hrest

/-- A loop that takes one element after the other from a list: `R l s` says that the elements of
`l` are left in state `s`. -/
theorem exists_whileM_of_list {α : Type*} {R : List α → σ → Prop}
    (hnil : ∀ s, R [] s → cond s = false)
    (hcons : ∀ a l s, R (a :: l) s → cond s = true ∧ ∃ s', body s = some s' ∧ R l s')
    {l : List α} {s : σ} (hs : R l s) {fuel : ℕ} (hfuel : l.length < fuel) :
    ∃ t, whileM cond body fuel s = some t ∧ R [] t := by
  induction l generalizing s fuel with
  | nil =>
      obtain ⟨fuel, rfl⟩ := Nat.exists_eq_succ_of_ne_zero (Nat.ne_zero_of_lt hfuel)
      exact ⟨s, whileM_of_not (hnil s hs) fuel, hs⟩
  | cons a l ih =>
      obtain ⟨fuel, rfl⟩ := Nat.exists_eq_succ_of_ne_zero (Nat.ne_zero_of_lt hfuel)
      obtain ⟨hcond, s', hbody, hs'⟩ := hcons a l s hs
      rw [Nat.succ_eq_add_one, whileM_of_body hcond hbody]
      exact ih hs' (Nat.lt_of_succ_lt_succ hfuel)
