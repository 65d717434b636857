import Mathlib.Data.List.Induction
import Mathlib.Data.List.Nodup

/-!
# A bounded log of keys

A log of at most `n` keys records a key once, with the value that came with it first, and
takes no more keys when it is full.  What it holds after a sequence of pairs can be said
without the log: the first `n` distinct keys of the sequence (`keys_ofList`), each with the
value of its first pair (`lookup_of_mem_ofList`).
-/

/-- At most `n` keys with their values, in the order in which they came. -/
structure BoundedLog (n : ℕ) (α β : Type*) where
  entries : List (α × β)
  nodup : (entries.map Prod.fst).Nodup
  length_le : entries.length ≤ n

namespace BoundedLog

variable {n : ℕ} {α β : Type*}

def empty : BoundedLog n α β := ⟨[], List.nodup_nil, Nat.zero_le n⟩

def keys (log : BoundedLog n α β) : List α := log.entries.map Prod.fst

theorem length_keys (log : BoundedLog n α β) : log.keys.length = log.entries.length :=
  List.length_map _

/-- The key is new, and there is room for it. -/
def Accepts (log : BoundedLog n α β) (a : α) : Prop := a ∉ log.keys ∧ log.entries.length < n

variable [DecidableEq α]

instance (log : BoundedLog n α β) (a : α) : Decidable (log.Accepts a) :=
  inferInstanceAs (Decidable (_ ∧ _))

/-- A key that the log does not accept changes nothing. -/
def insert (log : BoundedLog n α β) (e : α × β) : BoundedLog n α β :=
  if h : log.Accepts e.1 then
    { entries := log.entries ++ [e]
      nodup := by
        rw [List.map_append]
        exact log.nodup.append (List.nodup_singleton _) (List.disjoint_singleton.mpr h.1)
      length_le := by
        rw [List.length_append]
        exact h.2 }
  else log

theorem entries_insert_of_accepts {log : BoundedLog n α β} {e : α × β} (h : log.Accepts e.1) :
    (log.insert e).entries = log.entries ++ [e] := by
  rw [insert, dif_pos h]

theorem insert_of_not_accepts {log : BoundedLog n α β} {e : α × β} (h : ¬ log.Accepts e.1) :
    log.insert e = log :=
  dif_neg h

/-- The log of a sequence of pairs. -/
def ofList (pairs : List (α × β)) : BoundedLog n α β := pairs.foldl insert empty

theorem ofList_concat (pairs : List (α × β)) (e : α × β) :
    (ofList (pairs ++ [e]) : BoundedLog n α β) = (ofList pairs).insert e := by
  rw [ofList, List.foldl_concat]
  rfl

theorem eraseDups_concat (l : List α) (a : α) :
    (l ++ [a]).eraseDups = if a ∈ l then l.eraseDups else l.eraseDups ++ [a] := by
  rw [List.eraseDups_append]
  split_ifs with h
  · simp [List.removeAll, h]
  · simp [List.removeAll, h, List.eraseDups_cons]

/-- The log has room as long as the sequence has less than `n` distinct keys. -/
theorem accepts_iff {log : BoundedLog n α β} {l : List α} (h : log.keys = l.eraseDups.take n)
    (a : α) : log.Accepts a ↔ a ∉ l ∧ l.eraseDups.length < n := by
  have hlength : log.entries.length = min n l.eraseDups.length := by
    rw [← length_keys, h, List.length_take]
  have hroom : log.entries.length < n ↔ l.eraseDups.length < n := by omega
  unfold Accepts
  rw [hroom, h]
  apply and_congr_left
  intro hlt
  rw [List.take_of_length_le (Nat.le_of_lt hlt), List.mem_eraseDups]

/-- The log of a sequence holds its first `n` distinct keys. -/
theorem keys_ofList (pairs : List (α × β)) :
    (ofList pairs : BoundedLog n α β).keys = (pairs.map Prod.fst).eraseDups.take n := by
  induction pairs using List.reverseRecOn with
  | nil => exact List.take_nil.symm
  | append_singleton pairs e ih =>
      rw [ofList_concat, List.map_append, List.map_singleton, eraseDups_concat]
      by_cases haccepts : (ofList pairs : BoundedLog n α β).Accepts e.1
      · obtain ⟨hnew, hlt⟩ := (accepts_iff ih e.1).mp haccepts
        rw [if_neg hnew, keys, entries_insert_of_accepts haccepts, List.map_append, ← keys, ih,
          List.take_of_length_le (Nat.le_of_lt hlt), List.take_of_length_le]
        · rfl
        · rw [List.length_append]
          exact hlt
      · rw [insert_of_not_accepts haccepts, ih]
        rw [accepts_iff ih, not_and, Nat.not_lt] at haccepts
        split_ifs with hmem
        · rfl
        · rw [List.take_append_of_le_length (haccepts hmem)]

theorem accepts_ofList_iff (pairs : List (α × β)) (a : α) :
    (ofList pairs : BoundedLog n α β).Accepts a ↔
      a ∉ pairs.map Prod.fst ∧ (pairs.map Prod.fst).eraseDups.length < n :=
  accepts_iff (keys_ofList pairs) a

/-- A key of the log has the value of its first pair. -/
theorem lookup_of_mem_ofList {pairs : List (α × β)} {e : α × β}
    (he : e ∈ (ofList pairs : BoundedLog n α β).entries) : pairs.lookup e.1 = some e.2 := by
  induction pairs using List.reverseRecOn with
  | nil => cases he
  | append_singleton pairs e' ih =>
      rw [ofList_concat] at he
      rw [List.lookup_append]
      by_cases haccepts : (ofList pairs : BoundedLog n α β).Accepts e'.1
      · rw [entries_insert_of_accepts haccepts, List.mem_append, List.mem_singleton] at he
        rcases he with he | rfl
        · rw [ih he, Option.some_or]
        · obtain ⟨a, b⟩ := e
          have hnew := ((accepts_ofList_iff pairs a).mp haccepts).1
          have hnone : pairs.lookup a = none := by
            rw [List.lookup_eq_none_iff]
            intro e' he'
            simpa using fun heq => hnew (List.mem_map.mpr ⟨e', he', heq.symm⟩)
          rw [hnone, Option.none_or, List.lookup_cons_self]
      · rw [insert_of_not_accepts haccepts] at he
        rw [ih he, Option.some_or]

end BoundedLog
