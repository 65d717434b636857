import Ps2rd.Basic

/-!
# The hook list and the code list of the cheat engine

The C side of the engine: two bounded lists that the loader fills before the
game is started.  `hooklist` and `codelist` are word arrays with two words per
entry; an entry offered to a full list is dropped and `-1` is returned.
-/

namespace Ps2rd.Engine

structure Lists where
  maxhooks : ℕ
  numhooks : ℕ
  hooklist : ℕ → Word
  maxcodes : ℕ
  numcodes : ℕ
  codelist : ℕ → Word

namespace Lists

/-- Stores one entry, its address word first. -/
def store (list : ℕ → Word) (index : ℕ) (addr val : Word) : ℕ → Word :=
  Function.update (Function.update list (index * 2) addr) (index * 2 + 1) val

/-- `add_hook`. -/
def addHook (engine : Lists) (addr val : Word) : ℤ × Lists :=
  if engine.numhooks ≥ engine.maxhooks then (-1, engine)
  else
    (0, { engine with
      hooklist := store engine.hooklist engine.numhooks (addr &&& 0x01FFFFFC) val
      numhooks := engine.numhooks + 1 })

/-- `add_code`. -/
def addCode (engine : Lists) (addr val : Word) : ℤ × Lists :=
  if engine.numcodes ≥ engine.maxcodes then (-1, engine)
  else
    (0, { engine with
      codelist := store engine.codelist engine.numcodes addr val
      numcodes := engine.numcodes + 1 })

/-- Zeroes the words below `count`. -/
def clear (list : ℕ → Word) (count : ℕ) : ℕ → Word :=
  fun i => if i < count then 0 else list i

/-- `clear_hooks`. -/
def clearHooks (engine : Lists) : Lists :=
  { engine with hooklist := clear engine.hooklist (engine.numhooks * 2), numhooks := 0 }

/-- `clear_codes`. -/
def clearCodes (engine : Lists) : Lists :=
  { engine with codelist := clear engine.codelist (engine.numcodes * 2), numcodes := 0 }

@[simp] theorem addHook_maxhooks (engine : Lists) (addr val : Word) :
    (engine.addHook addr val).2.maxhooks = engine.maxhooks := by
  unfold addHook
  split <;> rfl

@[simp] theorem addCode_maxhooks (engine : Lists) (addr val : Word) :
    (engine.addCode addr val).2.maxhooks = engine.maxhooks := by
  unfold addCode
  split <;> rfl

@[simp] theorem addCode_numhooks (engine : Lists) (addr val : Word) :
    (engine.addCode addr val).2.numhooks = engine.numhooks := by
  unfold addCode
  split <;> rfl

/-- An offered hook is counted unless the list is full. -/
theorem addHook_numhooks (engine : Lists) (addr val : Word)
    (hle : engine.numhooks ≤ engine.maxhooks) :
    (engine.addHook addr val).2.numhooks = min (engine.numhooks + 1) engine.maxhooks := by
  unfold addHook
  split <;> simp only <;> omega

@[simp] theorem addHook_maxcodes (engine : Lists) (addr val : Word) :
    (engine.addHook addr val).2.maxcodes = engine.maxcodes := by
  unfold addHook
  split <;> rfl

@[simp] theorem addHook_numcodes (engine : Lists) (addr val : Word) :
    (engine.addHook addr val).2.numcodes = engine.numcodes := by
  unfold addHook
  split <;> rfl

@[simp] theorem addCode_maxcodes (engine : Lists) (addr val : Word) :
    (engine.addCode addr val).2.maxcodes = engine.maxcodes := by
  unfold addCode
  split <;> rfl

theorem addCode_numcodes_le (engine : Lists) (addr val : Word)
    (hle : engine.numcodes ≤ engine.maxcodes) :
    (engine.addCode addr val).2.numcodes ≤ engine.maxcodes := by
  unfold addCode
  split <;> simp only <;> omega

end Lists

end Ps2rd.Engine
