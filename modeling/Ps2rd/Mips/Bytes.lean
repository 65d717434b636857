import Ps2rd.Mips.Memory
import Mathlib.Data.List.GetD

/-!
# Runs of bytes in memory

What `read` and `memset` do to a memory: a run of bytes is put at an address, and
everything outside of the run stays as it was.
-/

namespace Ps2rd.Mips.Mem

/-- The memory after `bytes` are written to `a`. -/
def writeBytes (m : Mem) (a : Word) (bytes : List Byte) : Mem := fun b =>
  bytes.getD (b - a).toNat (m b)

/-- `memset` -/
def memset (m : Mem) (a : Word) (v : Byte) (n : ℕ) : Mem := fun b =>
  if InRange a n b then v else m b

theorem memset_of_not_inRange {m : Mem} {a b : Word} {v : Byte} {n : ℕ}
    (h : ¬ InRange a n b) : m.memset a v n b = m b :=
  if_neg h

end Ps2rd.Mips.Mem
