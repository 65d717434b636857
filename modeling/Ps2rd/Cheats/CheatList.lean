import Ps2rd.CString.Basic

/-!
# Games, cheats and codes

The objects of `cheatlist.h` and the functions of `cheatlist.c` that create
them.  The tail queues are lists here, and `*_INSERT_TAIL` appends.  A title or
a description is the whole `char` array of the object, because `strncpy` leaves
its last byte as `malloc` returned it.
-/

namespace Ps2rd.Cheats

open CString

/-- Max cheat description length. -/
def cheatDescMax : ℕ := 80

/-- Max game title length. -/
def gameTitleMax : ℕ := 80

/-- `code_t`. -/
structure Code where
  addr : Word
  val : Word
  tag : Word
deriving DecidableEq, Repr

/-- `cheat_t`. -/
structure Cheat where
  desc : CharArray (cheatDescMax + 1)
  codes : List Code
  tag : Word
deriving DecidableEq

/-- `game_t`. -/
structure Game where
  title : CharArray (gameTitleMax + 1)
  cheats : List Cheat
  tag : Word
deriving DecidableEq

abbrev GameList := List Game

/-- What one call of `malloc` returns: `NULL`, or a block whose character array
still has some earlier content. -/
abbrev Block := Option (CharArray 81)

/-- `make_code`. -/
def makeCode (block : Block) (addr val tag : Word) : Option Code :=
  block.map fun _ => { addr, val, tag }

/-- The text `"-"`, used when no description or title is given. -/
def dash : List Byte := [0x2D]

/-- `make_cheat`.  `strcpy(cheat->desc, "-")` overwrites the first two bytes. -/
def makeCheat (block : Block) (desc : Option (List Byte)) (codes : List Code) (tag : Word) :
    Option Cheat :=
  block.map fun content =>
    { desc := match desc with
        | some desc => content.strncpy desc cheatDescMax (by decide)
        | none => content.strncpy dash 2 (by decide)
      codes
      tag }

/-- `make_game`. -/
def makeGame (block : Block) (title : Option (List Byte)) (cheats : List Cheat) (tag : Word) :
    Option Game :=
  block.map fun content =>
    { title := match title with
        | some title => content.strncpy title gameTitleMax (by decide)
        | none => content.strncpy dash 2 (by decide)
      cheats
      tag }

/-- The code lines of a game, in the order in which `CHEATS_FOREACH` and
`CODES_FOREACH` visit them. -/
def Game.lines (game : Game) : List Code := game.cheats.flatMap Cheat.codes

end Ps2rd.Cheats
