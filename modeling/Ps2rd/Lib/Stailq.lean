import Mathlib.Tactic

/-!
# Singly-linked tail queues

The tail queue of `queue.h`: a head with the first element and a pointer to the last
`stqe_next` field, and one link in each element.  The links of all elements are a function
`next`, so several queues can share it as long as they share no element.

`IsQueue next h l` says that the queue holds the elements of the list `l`.  There is at most one
such list, and it has no element twice (`IsQueue.unique`, `IsQueue.nodup`).
-/

namespace Stailq

variable {α : Type*}

/-- `STAILQ_HEAD`.  The pointer `stqh_last` is `none` for `&head->stqh_first`, and `some e` for
`&e->stqe_next`. -/
structure QueueHead (α : Type*) where
  first : Option α
  last : Option α

/-- `STAILQ_INIT` -/
def QueueHead.init : QueueHead α := ⟨none, none⟩

/-- `STAILQ_REMOVE_HEAD`; `none` if there is no first element. -/
def removeHead (h : QueueHead α) (next : α → Option α) : Option (QueueHead α) :=
  h.first.map fun e => if next e = none then ⟨none, none⟩ else { h with first := next e }

section

variable [DecidableEq α]

/-- `STAILQ_INSERT_TAIL` -/
def insertTail (h : QueueHead α) (next : α → Option α) (e : α) : QueueHead α × (α → Option α) :=
  let next := Function.update next e none
  match h.last with
  | none => (⟨some e, some e⟩, next)
  | some last => (⟨h.first, some e⟩, Function.update next last (some e))

/-- The loop of `STAILQ_REMOVE`: the element before `e`, from `curelm` on.  The result is `none`
if the loop runs out of fuel or off the end of the queue. -/
def before (next : α → Option α) (e : α) : ℕ → α → Option α
  | 0, _ => none
  | fuel + 1, curelm =>
      if next curelm = some e then some curelm
      else (next curelm).bind (before next e fuel)

/-- `STAILQ_REMOVE` -/
def remove (fuel : ℕ) (h : QueueHead α) (next : α → Option α) (e : α) :
    Option (QueueHead α × (α → Option α)) :=
  if h.first = some e then (removeHead h next).map fun h => (h, next)
  else (h.first.bind (before next e fuel)).map fun curelm =>
    let link := (next curelm).bind next
    (if link = none then { h with last := some curelm } else h, Function.update next curelm link)

end

/-! ### The elements of a queue -/

/-- Following the links from `p`, one meets the elements of the list and then `NULL`. -/
def Chain (next : α → Option α) : Option α → List α → Prop
  | p, [] => p = none
  | p, a :: l => p = some a ∧ Chain next (next a) l

structure IsQueue (next : α → Option α) (h : QueueHead α) (l : List α) : Prop where
  chain : Chain next h.first l
  last : h.last = l.getLast?

section

variable {next next' : α → Option α} {p : Option α} {h : QueueHead α} {l l' : List α} {e : α}

theorem Chain.unique (hl : Chain next p l) (hl' : Chain next p l') : l = l' := by
  induction l generalizing p l' with
  | nil =>
      cases l' with
      | nil => rfl
      | cons a l' => exact absurd (hl'.1.symm.trans hl) (by simp)
  | cons a l ih =>
      cases l' with
      | nil => exact absurd (hl.1.symm.trans hl') (by simp)
      | cons b l' =>
          obtain rfl : a = b := Option.some.inj (hl.1.symm.trans hl'.1)
          rw [ih hl.2 hl'.2]

/-- The rest of a chain is the chain from its first element on. -/
theorem Chain.of_append {a : α} (hl : Chain next p (l ++ a :: l')) :
    Chain next (some a) (a :: l') := by
  induction l generalizing p with
  | nil => exact ⟨rfl, hl.2⟩
  | cons b l ih => exact ih hl.2

/-- An element that came twice would be followed by two different rests. -/
theorem Chain.nodup (hl : Chain next p l) : l.Nodup := by
  induction l generalizing p with
  | nil => exact List.nodup_nil
  | cons a l ih =>
      refine List.nodup_cons.mpr ⟨fun ha => ?_, ih hl.2⟩
      obtain ⟨front, rest, rfl⟩ := List.append_of_mem ha
      have hrest : Chain next (some a) (a :: rest) := hl.2.of_append
      have hsame := Chain.unique hrest.2 hl.2
      have hlen := congrArg List.length hsame
      rw [List.length_append, List.length_cons] at hlen
      omega

theorem Chain.congr (hl : Chain next p l) (heq : ∀ a ∈ l, next' a = next a) : Chain next' p l := by
  induction l generalizing p with
  | nil => exact hl
  | cons a l ih =>
      refine ⟨hl.1, ?_⟩
      rw [heq a List.mem_cons_self]
      exact ih hl.2 fun b hb => heq b (List.mem_cons_of_mem a hb)

theorem IsQueue.unique (hl : IsQueue next h l) (hl' : IsQueue next h l') : l = l' :=
  hl.chain.unique hl'.chain

theorem IsQueue.nodup (hl : IsQueue next h l) : l.Nodup := hl.chain.nodup

/-- A queue depends on the links of its own elements only. -/
theorem IsQueue.congr (hl : IsQueue next h l) (heq : ∀ a ∈ l, next' a = next a) :
    IsQueue next' h l :=
  ⟨hl.chain.congr heq, hl.last⟩

theorem isQueue_init (next : α → Option α) : IsQueue next QueueHead.init [] := ⟨rfl, rfl⟩

theorem IsQueue.eq_init (hl : IsQueue next h []) : h = QueueHead.init := by
  obtain ⟨first, last⟩ := h
  obtain ⟨hfirst, hlast⟩ := hl
  cases hfirst
  cases hlast
  rfl

/-! ### The operations -/

theorem IsQueue.removeHead_eq {a : α} (hl : IsQueue next h (a :: l)) :
    ∃ h', removeHead h next = some h' ∧ IsQueue next h' l := by
  obtain ⟨⟨hfirst, hrest⟩, hlast⟩ := hl
  rw [removeHead, hfirst, Option.map_some]
  refine ⟨_, rfl, ?_⟩
  cases l with
  | nil =>
      have hnext : next a = none := hrest
      rw [if_pos hnext]
      exact isQueue_init next
  | cons b l =>
      have hne : next a ≠ none := by
        rw [hrest.1]
        exact Option.some_ne_none b
      rw [if_neg hne]
      exact ⟨hrest, hlast.trans (by simp)⟩

/-- A chain does not start with an element that stands behind another. -/
theorem Chain.ne_some {a : α} {front back : List α}
    (hl : Chain next p (front ++ a :: e :: back)) : p ≠ some e := by
  rintro rfl
  have hnodup := hl.nodup
  cases front with
  | nil =>
      obtain rfl : e = a := Option.some.inj hl.1
      simp at hnodup
  | cons b front =>
      obtain rfl : e = b := Option.some.inj hl.1
      simp at hnodup

section

variable [DecidableEq α]

/-- The first element is removed without a search, and no link changes. -/
theorem IsQueue.remove_first {a : α} (hl : IsQueue next h (a :: l)) :
    ∃ h', (∀ fuel, remove fuel h next a = some (h', next)) ∧ IsQueue next h' l := by
  obtain ⟨h', hremove, hl'⟩ := hl.removeHead_eq
  refine ⟨h', fun fuel => ?_, hl'⟩
  rw [remove, if_pos hl.chain.1, hremove]
  rfl

/-- The search stops at the element before `e`. -/
theorem Chain.before_eq {a : α} {front back : List α} {fuel : ℕ}
    (hl : Chain next p (front ++ a :: e :: back)) (hfuel : front.length < fuel) :
    p.bind (before next e fuel) = some a := by
  induction front generalizing p fuel with
  | nil =>
      obtain ⟨fuel, rfl⟩ := Nat.exists_eq_succ_of_ne_zero (Nat.ne_zero_of_lt hfuel)
      rw [hl.1, Option.bind_some, before, if_pos hl.2.1]
  | cons b front ih =>
      obtain ⟨fuel, rfl⟩ := Nat.exists_eq_succ_of_ne_zero (Nat.ne_zero_of_lt hfuel)
      have hrest : Chain next (next b) (front ++ a :: e :: back) := hl.2
      rw [hl.1, Option.bind_some, before, if_neg hrest.ne_some]
      exact ih hrest (Nat.lt_of_succ_lt_succ hfuel)

/-- The links after `e` is taken out behind `a`. -/
theorem Chain.skip {a : α} {front back : List α} (hl : Chain next p (front ++ a :: e :: back)) :
    Chain (Function.update next a (next e)) p (front ++ a :: back) := by
  have hnodup := hl.nodup
  induction front generalizing p with
  | nil =>
      obtain ⟨hp, -, hback⟩ := hl
      have ha : a ∉ back := fun hmem => by simp [hmem] at hnodup
      refine ⟨hp, ?_⟩
      rw [Function.update_self]
      exact hback.congr fun b hb => Function.update_of_ne (ne_of_mem_of_not_mem hb ha) _ _
  | cons b front ih =>
      have hba : b ≠ a := fun heq => by simp [heq] at hnodup
      refine ⟨hl.1, ?_⟩
      rw [Function.update_of_ne hba]
      exact ih hl.2 hnodup.of_cons

/-- Any element can be removed.  The others stay in their order, and no link outside of the queue
changes. -/
theorem IsQueue.exists_remove {front back : List α} (hl : IsQueue next h (front ++ e :: back)) :
    ∃ h' next', (∀ fuel > front.length, remove fuel h next e = some (h', next')) ∧
      IsQueue next' h' (front ++ back) ∧ ∀ a ∉ front ++ e :: back, next' a = next a := by
  rcases List.eq_nil_or_concat' front with rfl | ⟨front, a, rfl⟩
  · obtain ⟨h', hremove, hl'⟩ := hl.remove_first
    exact ⟨h', next, fun fuel _ => hremove fuel, hl', fun _ _ => rfl⟩
  · rw [List.append_assoc, List.singleton_append] at hl
    have hrest : Chain next (some a) (a :: e :: back) := hl.chain.of_append
    have hlink : (next a).bind next = next e := by rw [hrest.2.1, Option.bind_some]
    refine ⟨if next e = none then { h with last := some a } else h,
      Function.update next a (next e), fun fuel hfuel => ?_, ⟨?_, ?_⟩, fun b hb => ?_⟩
    · rw [List.length_append] at hfuel
      have hbefore := hl.chain.before_eq (Nat.lt_of_succ_lt hfuel)
      rw [remove, if_neg hl.chain.ne_some, hbefore, Option.map_some, hlink]
    · rw [List.append_assoc]
      split_ifs <;> exact hl.chain.skip
    · cases back with
      | nil =>
          have hnone : next e = none := hrest.2.2
          rw [if_pos hnone]
          simp
      | cons b back =>
          have hne : next e ≠ none := by
            rw [hrest.2.2.1]
            exact Option.some_ne_none b
          rw [if_neg hne, hl.last]
          simp
    · apply Function.update_of_ne
      rintro rfl
      simp at hb

/-- The links after `e` is put behind the last element `a`. -/
theorem Chain.concat {a : α} {front : List α} (hl : Chain next p (front ++ [a]))
    (he : e ∉ front ++ [a]) :
    Chain (Function.update (Function.update next e none) a (some e)) p (front ++ [a] ++ [e]) := by
  have hnodup := hl.nodup
  induction front generalizing p with
  | nil =>
      have hea : e ≠ a := fun heq => he (heq ▸ List.mem_cons_self)
      exact ⟨hl.1, Function.update_self .., by simp [Chain, hea]⟩
  | cons b front ih =>
      have hba : b ≠ a := fun heq => by simp [heq] at hnodup
      have hbe : b ≠ e := fun heq => he (heq ▸ List.mem_cons_self)
      refine ⟨hl.1, ?_⟩
      rw [Function.update_of_ne hba, Function.update_of_ne hbe]
      exact ih hl.2 (fun hmem => he (List.mem_cons_of_mem b hmem)) hnodup.of_cons

/-- A new element is put behind the others. -/
theorem IsQueue.insertTail_append (hl : IsQueue next h l) (he : e ∉ l) :
    IsQueue (insertTail h next e).2 (insertTail h next e).1 (l ++ [e]) := by
  rcases List.eq_nil_or_concat' l with rfl | ⟨front, a, rfl⟩
  · rw [hl.eq_init]
    exact ⟨⟨rfl, Function.update_self ..⟩, rfl⟩
  · have hlast : h.last = some a := hl.last.trans (by simp)
    rw [insertTail, hlast]
    exact ⟨hl.chain.concat he, by simp⟩

end

end

end Stailq
