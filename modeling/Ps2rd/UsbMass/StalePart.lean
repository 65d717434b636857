import Ps2rd.UsbMass.FileSession

/-!
# A part that is taken for another one

The driver keeps the last part of a chain that it has read, with the cluster it asked for it
with, and does not keep whether the part starts with this cluster or behind it.  `fat_readFile`
asks for the first part of a chain with the first cluster of the part, and for a further one
with the last cluster of the part before.  If this cluster is also in the seek table, a read that
starts with it gets the part behind it, and returns the bytes that are one cluster further on.

This is the case that `Volume.seek` excludes.
-/

namespace Ps2rd.UsbMass

variable {ss : ℕ} {bpb : Bpb} {disk : Region Byte}

end Ps2rd.UsbMass
