import Mathlib.Tactic

/-!
# Bytes and words

The fixed-width values that all parts of the debugger exchange, and their
little-endian layout in memory.
-/

namespace Ps2rd

abbrev Byte := BitVec 8

abbrev Word := BitVec 32

end Ps2rd
