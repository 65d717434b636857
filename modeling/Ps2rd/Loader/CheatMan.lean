import Ps2rd.Cheats.CheatList
import Ps2rd.Engine.Lists

/-!
# Activating the cheats of a game

`activate_cheats` walks all code lines of a game and hands each of them either
to `add_hook` or to `add_code`.  A line with the bits of a hook code is data,
and not a hook, when it is the second line of a two-line code before it; the
function keeps the flag `nextCodeCanBeHook` to tell the two apart.

The flag is cleared after every line: the condition
`(code->addr & 0xf0000000) == 0x40000000 || 0x30000000` ends in a non-zero
constant and is always true.  `activateCalls_eq` is the closed form of what the
loops do, and `hooksExact_iff` says which games are still activated as intended.
-/

namespace Ps2rd.Loader

open Cheats Engine

/-- A call that `activate_cheats` makes through the `engine_t` context. -/
inductive Call where
  | addHook (addr val : Word)
  | addCode (addr val : Word)
deriving DecidableEq, Repr

/-- The effect of a call on the engine; the return value is not looked at. -/
def Call.run (engine : Lists) : Call → Lists
  | .addHook addr val => (engine.addHook addr val).2
  | .addCode addr val => (engine.addCode addr val).2

/-- `(addr & 0xfe000000) == 0x90000000`. -/
def hasHookBits (code : Code) : Bool := code.addr &&& 0xfe000000 = 0x90000000

/-- The body of the inner loop: the call made for a code line, and the next
value of `nextCodeCanBeHook`. -/
def activateCode (nextCodeCanBeHook : ℤ) (code : Code) : Call × ℤ :=
  (if hasHookBits code ∧ nextCodeCanBeHook = 1 then .addHook code.addr code.val
    else .addCode code.addr code.val,
   if code.addr &&& 0xf0000000 = 0x40000000 ∨ (0x30000000 : Word) ≠ 0 then 0 else 1)

/-- One iteration of the inner loop on the calls made so far. -/
def visitCode (state : List Call × ℤ) (code : Code) : List Call × ℤ :=
  (state.1 ++ [(activateCode state.2 code).1], (activateCode state.2 code).2)

/-- The calls made for a game, in order. -/
def activateCalls (game : Game) : List Call :=
  (game.cheats.foldl (fun state cheat => cheat.codes.foldl visitCode state) ([], 1)).1

/-- `activate_cheats`. -/
def activateCheats (game : Game) (engine : Lists) : Lists :=
  (activateCalls game).foldl Call.run engine

/-- `reset_cheats`. -/
def resetCheats (engine : Lists) : Lists := engine.clearHooks.clearCodes

/-! ### The intended classification -/

/-- The codes that take two lines: 32-bit type 3, and types 4, 5 and 6. -/
def isTwoLine (code : Code) : Bool :=
  (code.addr >>> 28 = 3 && (code.addr >>> 20) &&& 6 = 4) ||
    code.addr >>> 28 = 4 || code.addr >>> 28 = 5 || code.addr >>> 28 = 6

/-- Line `i` is the second line of the two-line code before it. -/
def isSecondLine (lines : List Code) : ℕ → Bool
  | 0 => false
  | i + 1 => !isSecondLine lines i && (lines[i]?).any isTwoLine

/-- Line `i` is a hook code. -/
def isHookCode (lines : List Code) (i : ℕ) : Bool :=
  (lines[i]?).any hasHookBits && !isSecondLine lines i

/-- The call that the documentation asks for at line `i`. -/
def intendedCall (lines : List Code) (i : ℕ) (code : Code) : Call :=
  if isHookCode lines i then .addHook code.addr code.val else .addCode code.addr code.val

/-- The number of hook codes among the lines. -/
def hookCodeCount (lines : List Code) : ℕ :=
  (List.range lines.length).countP (isHookCode lines)

/-- Hook codes are recognised exactly: every line gets its intended call, and a
freshly reset engine ends with one hook per hook code, up to its limit. -/
structure HooksExact (game : Game) : Prop where
  calls : activateCalls game = game.lines.mapIdx (intendedCall game.lines)
  hooks : ∀ engine : Lists, (activateCheats game (resetCheats engine)).numhooks =
    min (hookCodeCount game.lines) engine.maxhooks

/-! ### What the loops do -/

/-- Once the flag is cleared every line is handed to `add_code`. -/
theorem foldl_visitCode_of_cleared (codes : List Code) (calls : List Call) :
    codes.foldl visitCode (calls, 0) =
      (calls ++ codes.map fun code => .addCode code.addr code.val, 0) := by
  induction codes generalizing calls with
  | nil => simp
  | cons code codes ih =>
      have hvisit : visitCode (calls, 0) code = (calls ++ [.addCode code.addr code.val], 0) := by
        simp [visitCode, activateCode]
      rw [List.foldl_cons, hvisit, ih]
      simp

/-- The nested loops visit the lines of the game in one sequence. -/
theorem activateCalls_eq_foldl (game : Game) :
    activateCalls game = (game.lines.foldl visitCode ([], 1)).1 := by
  rw [activateCalls, Game.lines, List.foldl_flatMap]

/-- Only the first line of a game can become a hook. -/
theorem activateCalls_eq (game : Game) :
    activateCalls game = match game.lines with
      | [] => []
      | code :: codes =>
          (if hasHookBits code then .addHook code.addr code.val
            else .addCode code.addr code.val) ::
            codes.map fun code => .addCode code.addr code.val := by
  rw [activateCalls_eq_foldl]
  cases game.lines with
  | nil => rfl
  | cons code codes =>
      have hfirst : visitCode ([], 1) code =
          ([if hasHookBits code then .addHook code.addr code.val
            else .addCode code.addr code.val], 0) := by
        simp [visitCode, activateCode]
      rw [List.foldl_cons, hfirst, foldl_visitCode_of_cleared]
      rfl

/-! ### Counting the hooks -/

/-- The call goes to `add_hook`. -/
def Call.isAddHook : Call → Bool
  | .addHook _ _ => true
  | .addCode _ _ => false

/-- A run of calls leaves one hook for each `add_hook` among them, up to the limit. -/
theorem foldl_run_numhooks (calls : List Call) (engine : Lists)
    (hle : engine.numhooks ≤ engine.maxhooks) :
    (calls.foldl Call.run engine).numhooks =
      min (engine.numhooks + calls.countP Call.isAddHook) engine.maxhooks := by
  induction calls generalizing engine with
  | nil => simpa using hle
  | cons call calls ih =>
      rw [List.foldl_cons]
      cases call with
      | addHook addr val =>
          have hnum := engine.addHook_numhooks addr val hle
          have hmax := engine.addHook_maxhooks addr val
          rw [ih _ (by simp only [Call.run]; omega)]
          rw [List.countP_cons_of_pos (by rfl)]
          simp only [Call.run, hnum, hmax]
          omega
      | addCode addr val =>
          rw [ih _ (by simpa [Call.run] using hle)]
          simp [Call.run, Call.isAddHook]

/-- The list of codes is never filled beyond its limit. -/
theorem foldl_run_numcodes_le (calls : List Call) (engine : Lists)
    (hle : engine.numcodes ≤ engine.maxcodes) :
    (calls.foldl Call.run engine).numcodes ≤ engine.maxcodes := by
  induction calls generalizing engine with
  | nil => exact hle
  | cons call calls ih =>
      rw [List.foldl_cons]
      cases call with
      | addHook addr val =>
          have hadd : (engine.addHook addr val).2.numcodes ≤
              (engine.addHook addr val).2.maxcodes := by
            simpa using hle
          simpa [Call.run] using ih (engine.addHook addr val).2 hadd
      | addCode addr val =>
          have hadd := engine.addCode_numcodes_le addr val hle
          simpa [Call.run] using ih (engine.addCode addr val).2 (by simpa using hadd)

/-- The intended calls contain one `add_hook` per hook code. -/
theorem countP_intendedCall (lines : List Code) :
    (lines.mapIdx (intendedCall lines)).countP Call.isAddHook = hookCodeCount lines := by
  have hcall : ∀ i code, (intendedCall lines i code).isAddHook = isHookCode lines i := by
    intro i code
    unfold intendedCall
    split <;> simp_all [Call.isAddHook]
  have hmap : (lines.mapIdx (intendedCall lines)).map Call.isAddHook =
      (List.range lines.length).map (isHookCode lines) := by
    apply List.ext_getElem
    · simp
    · intro i h₁ h₂
      simp [hcall]
  have hcount : ∀ {α : Type} (f : α → Bool) (l : List α),
      l.countP f = (l.map f).countP id := by
    intro α f l
    rw [List.countP_map]
    rfl
  rw [hookCodeCount, hcount, hmap, ← hcount]

/-! ### When hook codes are recognised -/

theorem isHookCode_zero (code : Code) (codes : List Code) :
    isHookCode (code :: codes) 0 = hasHookBits code := by
  simp [isHookCode, isSecondLine]

/-- A hook code after the first line of the game is handed to `add_code`. -/
theorem not_hooksExact_of_isHookCode {game : Game} {i : ℕ} (hi : 1 ≤ i)
    (hhook : isHookCode game.lines i = true) : ¬ HooksExact game := by
  intro hexact
  have hlen : i < game.lines.length := by
    by_contra hge
    simp [isHookCode, List.getElem?_eq_none (not_lt.mp hge)] at hhook
  have hcalls := congrArg (fun calls => calls[i]?) hexact.calls
  rw [activateCalls_eq] at hcalls
  cases hlines : game.lines with
  | nil => simp [hlines] at hlen
  | cons code codes =>
      obtain ⟨j, rfl⟩ : ∃ j, i = j + 1 := ⟨i - 1, by omega⟩
      have hj : j < codes.length := by simpa [hlines] using hlen
      rw [hlines] at hcalls hhook
      simp [intendedCall, hhook, hj] at hcalls

/-- Hook codes are recognised exactly in the games in which only the first line
can be one. -/
theorem hooksExact_iff (game : Game) :
    HooksExact game ↔ ∀ i, 1 ≤ i → isHookCode game.lines i = false := by
  constructor
  · intro hexact i hi
    by_contra hhook
    exact not_hooksExact_of_isHookCode hi (by simpa using hhook) hexact
  · intro hnone
    have hcalls : activateCalls game = game.lines.mapIdx (intendedCall game.lines) := by
      rw [activateCalls_eq]
      cases hlines : game.lines with
      | nil => rfl
      | cons code codes =>
          rw [hlines] at hnone
          have hrest : codes.map (fun code => Call.addCode code.addr code.val) =
              codes.mapIdx fun i => intendedCall (code :: codes) (i + 1) := by
            apply List.ext_getElem
            · simp
            · intro i h₁ h₂
              simp [intendedCall, hnone (i + 1) (by omega)]
          rw [List.mapIdx_cons, intendedCall, isHookCode_zero, ← hrest]
    refine ⟨hcalls, fun engine => ?_⟩
    rw [activateCheats, foldl_run_numhooks _ _ (by simp [resetCheats, Lists.clearHooks,
      Lists.clearCodes]), hcalls, countP_intendedCall]
    simp [resetCheats, Lists.clearHooks, Lists.clearCodes]

/-- A mastercode line for an ELF. -/
def sampleHook (addr : Word) : Code := { addr, val := 0x0C0B95F6, tag := 0 }

/-- A game with two mastercodes, one for each of its ELFs. -/
def multiElfGame : Game :=
  { title := List.Vector.replicate _ 0
    cheats := [{ desc := List.Vector.replicate _ 0
                 codes := [sampleHook 0x902D51F8, sampleHook 0x9012AC28]
                 tag := 0 }]
    tag := 0 }

/-- The second mastercode of a multi-ELF game is not recognised. -/
theorem multiElfGame_not_hooksExact : ¬ HooksExact multiElfGame :=
  not_hooksExact_of_isHookCode (i := 1) le_rfl (by decide)

end Ps2rd.Loader
