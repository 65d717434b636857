import Ps2rd.Loader.CheatMan

/-!
# What the engine holds after an activation

`reset_cheats` clears the words below the counts of the two lists only.  That is
enough: the words beyond the counts are zero from the start and stay so, whatever
is activated and reset in between.  So a reset always leads back to the first
state of the engine, and the lists that `activate_cheats` fills from there hold
the first lines offered to each of them and nothing else.
-/

namespace Ps2rd.Loader

open Cheats Engine

/-! ### An array with a count -/

/-- The entries below the count, two words each. -/
def entries (list : ℕ → Word) (num : ℕ) : List (Word × Word) :=
  (List.range num).map fun i => (list (i * 2), list (i * 2 + 1))

/-- The array of a list with limit `max` and count `num` holds the entries `es`, and
nothing beyond them. -/
structure Held (max num : ℕ) (list : ℕ → Word) (es : List (Word × Word)) : Prop where
  entries : entries list num = es
  limit : num ≤ max
  rest : ∀ i, num * 2 ≤ i → list i = 0

section Held

variable {max num : ℕ} {list : ℕ → Word} {es : List (Word × Word)}

theorem length_entries (list : ℕ → Word) (num : ℕ) : (entries list num).length = num := by
  simp [entries]

theorem Held.num_eq (h : Held max num list es) : num = es.length := by
  rw [← h.entries, length_entries]

theorem held_zero (max : ℕ) : Held max 0 (fun _ => 0) [] :=
  ⟨rfl, Nat.zero_le max, fun _ _ => rfl⟩

theorem entries_store (list : ℕ → Word) (num : ℕ) (addr val : Word) :
    entries (Lists.store list num addr val) (num + 1) = entries list num ++ [(addr, val)] := by
  unfold entries
  rw [List.range_succ, List.map_append]
  congr 1
  · apply List.map_congr_left
    intro i hi
    have hlt := List.mem_range.mp hi
    have hfirst : i * 2 ≠ num * 2 := by omega
    have hsecond : i * 2 + 1 ≠ num * 2 := by omega
    have hfirst' : i * 2 ≠ num * 2 + 1 := by omega
    simp [Lists.store, hfirst, hsecond, hfirst']
  · simp [Lists.store]

/-- An entry is added below the limit. -/
theorem Held.store (h : Held max num list es) (hlt : num < max) (addr val : Word) :
    Held max (num + 1) (Lists.store list num addr val) (es ++ [(addr, val)]) := by
  refine ⟨?_, hlt, fun i hi => ?_⟩
  · rw [entries_store, h.entries]
  · have hne : i ≠ num * 2 + 1 := by omega
    have hne' : i ≠ num * 2 := by omega
    rw [Lists.store, Function.update_of_ne hne, Function.update_of_ne hne']
    exact h.rest i (by omega)

/-- Clearing the words below the count leaves no word that is not zero. -/
theorem Held.clear (h : Held max num list es) : Lists.clear list (num * 2) = fun _ => 0 := by
  funext i
  unfold Lists.clear
  split_ifs with hi
  · rfl
  · exact h.rest i (Nat.not_lt.mp hi)

end Held

/-! ### The two lists of the engine -/

/-- The hook list and the code list hold the given entries. -/
structure Holds (engine : Lists) (hooks codes : List (Word × Word)) : Prop where
  hooks : Held engine.maxhooks engine.numhooks engine.hooklist hooks
  codes : Held engine.maxcodes engine.numcodes engine.codelist codes

/-- The engine as it is loaded: the limits are in `.rodata`, the counts and the lists in
`.bss`, which is zero. -/
def freshEngine (maxhooks maxcodes : ℕ) : Lists where
  maxhooks := maxhooks
  numhooks := 0
  hooklist := fun _ => 0
  maxcodes := maxcodes
  numcodes := 0
  codelist := fun _ => 0

/-- The entry that `add_hook` stores for a call, if the call is one. -/
def Call.hookEntry : Call → Option (Word × Word)
  | .addHook addr val => some (addr &&& 0x01FFFFFC, val)
  | .addCode _ _ => none

/-- The entry that `add_code` stores for a call, if the call is one. -/
def Call.codeEntry : Call → Option (Word × Word)
  | .addHook _ _ => none
  | .addCode addr val => some (addr, val)

/-- The code line that a call was made for. -/
def Call.line : Call → Word × Word
  | .addHook addr val => (addr, val)
  | .addCode addr val => (addr, val)

variable {engine : Lists} {hooks codes : List (Word × Word)}

theorem holds_freshEngine (maxhooks maxcodes : ℕ) :
    Holds (freshEngine maxhooks maxcodes) [] [] :=
  ⟨held_zero maxhooks, held_zero maxcodes⟩

/-- A full list stays as it is, and any other list gains the entry at its end. -/
theorem take_append_singleton {α : Type*} (es : List α) (e : α) (max : ℕ)
    (hle : es.length ≤ max) :
    (es ++ [e]).take max = if es.length ≥ max then es else es ++ [e] := by
  split_ifs with hfull
  · rw [List.take_append_of_le_length hfull, List.take_of_length_le hle]
  · apply List.take_of_length_le
    rw [List.length_append, List.length_singleton]
    omega

theorem Call.run_maxhooks (engine : Lists) (call : Call) :
    (call.run engine).maxhooks = engine.maxhooks := by
  cases call <;> simp [Call.run]

theorem Call.run_maxcodes (engine : Lists) (call : Call) :
    (call.run engine).maxcodes = engine.maxcodes := by
  cases call <;> simp [Call.run]

/-- One call offers its entry to one of the lists. -/
theorem Holds.run (h : Holds engine hooks codes) (call : Call) :
    Holds (call.run engine) ((hooks ++ call.hookEntry.toList).take engine.maxhooks)
      ((codes ++ call.codeEntry.toList).take engine.maxcodes) := by
  have hhooks : hooks.length ≤ engine.maxhooks := h.hooks.num_eq ▸ h.hooks.limit
  have hcodes : codes.length ≤ engine.maxcodes := h.codes.num_eq ▸ h.codes.limit
  cases call with
  | addHook addr val =>
      have hrest : (codes ++ []).take engine.maxcodes = codes := by
        rw [List.append_nil, List.take_of_length_le hcodes]
      simp only [Call.hookEntry, Call.codeEntry, Option.toList_some, Option.toList_none]
      rw [hrest, take_append_singleton _ _ _ hhooks, ← h.hooks.num_eq]
      simp only [Call.run, Lists.addHook]
      split_ifs with hfull
      · exact h
      · exact ⟨h.hooks.store (Nat.not_le.mp hfull) _ _, h.codes⟩
  | addCode addr val =>
      have hrest : (hooks ++ []).take engine.maxhooks = hooks := by
        rw [List.append_nil, List.take_of_length_le hhooks]
      simp only [Call.hookEntry, Call.codeEntry, Option.toList_some, Option.toList_none]
      rw [hrest, take_append_singleton _ _ _ hcodes, ← h.codes.num_eq]
      simp only [Call.run, Lists.addCode]
      split_ifs with hfull
      · exact h
      · exact ⟨h.hooks, h.codes.store (Nat.not_le.mp hfull) _ _⟩

theorem take_take_append {α : Type*} (es es' : List α) (max : ℕ) :
    (es.take max ++ es').take max = (es ++ es').take max := by
  rw [List.take_append, List.take_append, List.take_take, min_self, List.length_take]
  congr 2
  omega

/-- A run of calls keeps the limits, and each list gains the entries offered to it up to
its limit. -/
theorem Holds.foldl_run (calls : List Call) (h : Holds engine hooks codes) :
    (calls.foldl Call.run engine).maxhooks = engine.maxhooks ∧
      (calls.foldl Call.run engine).maxcodes = engine.maxcodes ∧
      Holds (calls.foldl Call.run engine)
        ((hooks ++ calls.filterMap Call.hookEntry).take engine.maxhooks)
        ((codes ++ calls.filterMap Call.codeEntry).take engine.maxcodes) := by
  induction calls generalizing engine hooks codes with
  | nil =>
      have hhooks : hooks.length ≤ engine.maxhooks := h.hooks.num_eq ▸ h.hooks.limit
      have hcodes : codes.length ≤ engine.maxcodes := h.codes.num_eq ▸ h.codes.limit
      refine ⟨rfl, rfl, ?_⟩
      rw [List.filterMap_nil, List.filterMap_nil, List.append_nil, List.append_nil,
        List.take_of_length_le hhooks, List.take_of_length_le hcodes]
      exact h
  | cons call calls ih =>
      obtain ⟨hmaxhooks, hmaxcodes, hholds⟩ := ih (h.run call)
      rw [Call.run_maxhooks] at hmaxhooks hholds
      rw [Call.run_maxcodes] at hmaxcodes hholds
      refine ⟨hmaxhooks, hmaxcodes, ?_⟩
      rw [take_take_append, take_take_append, List.append_assoc, List.append_assoc] at hholds
      have hhook : call.hookEntry.toList ++ calls.filterMap Call.hookEntry =
          (call :: calls).filterMap Call.hookEntry := by
        cases call <;> rfl
      have hcode : call.codeEntry.toList ++ calls.filterMap Call.codeEntry =
          (call :: calls).filterMap Call.codeEntry := by
        cases call <;> rfl
      rw [hhook, hcode] at hholds
      exact hholds

/-- A reset leads back to the engine as it was loaded. -/
theorem Holds.resetCheats (h : Holds engine hooks codes) :
    Loader.resetCheats engine = freshEngine engine.maxhooks engine.maxcodes := by
  unfold Loader.resetCheats Lists.clearHooks Lists.clearCodes freshEngine
  simp only
  rw [h.hooks.clear, h.codes.clear]

/-! ### Histories -/

/-- What the loader does with the lists: it resets them, or activates the cheats of a
game. -/
inductive Request where
  | reset
  | activate (game : Game)

def Request.run (engine : Lists) : Request → Lists
  | .reset => resetCheats engine
  | .activate game => activateCheats game engine

/-- A request keeps the limits and never fills a list with anything but its entries. -/
theorem Holds.request (h : Holds engine hooks codes) (request : Request) :
    (request.run engine).maxhooks = engine.maxhooks ∧
      (request.run engine).maxcodes = engine.maxcodes ∧
      ∃ hooks' codes', Holds (request.run engine) hooks' codes' := by
  cases request with
  | reset =>
      refine ⟨rfl, rfl, [], [], ?_⟩
      rw [Request.run, h.resetCheats]
      exact holds_freshEngine _ _
  | activate game =>
      obtain ⟨hmaxhooks, hmaxcodes, hholds⟩ := h.foldl_run (activateCalls game)
      exact ⟨hmaxhooks, hmaxcodes, _, _, hholds⟩

/-- The same over a history of requests. -/
theorem Holds.foldl_request (history : List Request) (h : Holds engine hooks codes) :
    (history.foldl Request.run engine).maxhooks = engine.maxhooks ∧
      (history.foldl Request.run engine).maxcodes = engine.maxcodes ∧
      ∃ hooks' codes', Holds (history.foldl Request.run engine) hooks' codes' := by
  induction history generalizing engine hooks codes with
  | nil => exact ⟨rfl, rfl, hooks, codes, h⟩
  | cons request history ih =>
      obtain ⟨hmaxhooks, hmaxcodes, hooks', codes', hholds⟩ := h.request request
      obtain ⟨hmaxhooks', hmaxcodes', hholds'⟩ := ih hholds
      exact ⟨hmaxhooks'.trans hmaxhooks, hmaxcodes'.trans hmaxcodes, hholds'⟩

/-- Whatever was activated before, a reset leads back to the engine as it was loaded. -/
theorem resetCheats_of_history (maxhooks maxcodes : ℕ) (history : List Request) :
    resetCheats (history.foldl Request.run (freshEngine maxhooks maxcodes)) =
      freshEngine maxhooks maxcodes := by
  obtain ⟨hmaxhooks, hmaxcodes, _, _, hholds⟩ :=
    (holds_freshEngine maxhooks maxcodes).foldl_request history
  rw [hholds.resetCheats, hmaxhooks, hmaxcodes]
  rfl

/-! ### The activation -/

theorem line_activateCode (flag : ℤ) (code : Code) :
    (activateCode flag code).1.line = (code.addr, code.val) := by
  unfold activateCode
  split_ifs <;> rfl

/-- The loop offers each line once, after the lines before it. -/
theorem foldl_visitCode_line (lines : List Code) (calls : List Call) (flag : ℤ) :
    (lines.foldl visitCode (calls, flag)).1.map Call.line =
      calls.map Call.line ++ lines.map fun code => (code.addr, code.val) := by
  induction lines generalizing calls flag with
  | nil => simp
  | cons code lines ih =>
      rw [List.foldl_cons, visitCode, ih, List.map_append, List.map_singleton,
        line_activateCode, List.map_cons, List.append_assoc, List.singleton_append]

theorem activateCalls_line (game : Game) :
    (activateCalls game).map Call.line = game.lines.map fun code => (code.addr, code.val) := by
  rw [activateCalls_eq_foldl, foldl_visitCode_line, List.map_nil, List.nil_append]

/-- Activation loses, duplicates and reorders nothing: the lines of the game are offered
in order, each of them to one of the lists, and the lists end up with the first entries
offered to them and with nothing else. -/
structure Activated (game : Game) (maxhooks maxcodes : ℕ) (engine : Lists) : Prop where
  offered : (activateCalls game).map Call.line =
    game.lines.map fun code => (code.addr, code.val)
  hooks : entries engine.hooklist engine.numhooks =
    ((activateCalls game).filterMap Call.hookEntry).take maxhooks
  codes : entries engine.codelist engine.numcodes =
    ((activateCalls game).filterMap Call.codeEntry).take maxcodes
  hooksRest : ∀ i, engine.numhooks * 2 ≤ i → engine.hooklist i = 0
  codesRest : ∀ i, engine.numcodes * 2 ≤ i → engine.codelist i = 0

theorem activated_freshEngine (game : Game) (maxhooks maxcodes : ℕ) :
    Activated game maxhooks maxcodes (activateCheats game (freshEngine maxhooks maxcodes)) := by
  obtain ⟨_, _, hholds⟩ :=
    (holds_freshEngine maxhooks maxcodes).foldl_run (activateCalls game)
  rw [List.nil_append, List.nil_append] at hholds
  exact {
    offered := activateCalls_line game
    hooks := hholds.hooks.entries
    codes := hholds.codes.entries
    hooksRest := hholds.hooks.rest
    codesRest := hholds.codes.rest }

/-- After any history of activations and resets, a reset followed by an activation fills
the lists from the game alone. -/
theorem activated_of_history (maxhooks maxcodes : ℕ) (history : List Request) (game : Game) :
    Activated game maxhooks maxcodes (activateCheats game
      (resetCheats (history.foldl Request.run (freshEngine maxhooks maxcodes)))) ∧
    ∀ history' : List Request,
      activateCheats game
          (resetCheats (history.foldl Request.run (freshEngine maxhooks maxcodes))) =
        activateCheats game
          (resetCheats (history'.foldl Request.run (freshEngine maxhooks maxcodes))) := by
  refine ⟨?_, fun history' => ?_⟩
  · rw [resetCheats_of_history]
    exact activated_freshEngine game maxhooks maxcodes
  · rw [resetCheats_of_history, resetCheats_of_history]

end Ps2rd.Loader
