import Ps2rd.CString.Basic
import Ps2rd.UsbMass.FatDriver

/-!
# Directories of a FAT volume

The part of `fat_driver.c` that goes through the entries of a directory, to find a name in it
(`fat_getDirentryStartCluster`) or to list it (`fat_getNextDirentry`), and the walk along a
path (`fat_getFileStartCluster`).

A file has an entry with its short name, and before it entries with the parts of its long
name, the last part first.  The driver collects the parts in a local `fat_direntry`.  A store
outside one of the arrays `name` and `tmpName` has no meaning here (`none`), and neither has
the search in a directory whose clusters could not be read, which goes on with an
uninitialised number of sectors.
-/

namespace Ps2rd.UsbMass

open CString

/-- `FAT_MAX_NAME` -/
def fatMaxName : ℕ := 128

/-- `fat_direntry` -/
structure Direntry where
  attr : Byte
  name : Region Byte
  sname : Region Byte
  size : ℕ
  cluster : ℕ

/-- `dir->name[i] = b` -/
def Direntry.setName (dir : Direntry) (i : ℕ) (b : Byte) : Option Direntry :=
  if i < fatMaxName then some { dir with name := dir.name.write i [b] } else none

/-- The name strings are cleared. -/
def Direntry.clear (dir : Direntry) : Direntry :=
  { dir with name := dir.name.write 0 [NUL], sname := dir.sname.write 0 [NUL] }

/-- What `fat_getDirentry` returns: 0, 1, 2 and 3. -/
inductive EntryKind
  | last
  | short
  | long
  | deleted
  deriving DecidableEq

/-! ### One entry -/

/-- Where the characters of a long name are in an entry: `name1`, `name2` and `name3`. -/
def charPlaces : List ℕ := [1, 3, 5, 7, 9, 14, 16, 18, 20, 22, 24, 28, 30]

/-- The characters of a long entry, up to the first one that is zero. -/
def copyChars (buf : Region Byte) (pos : ℕ) : List ℕ → ℕ → Direntry → Option (ℕ × Direntry)
  | [], offset, dir => some (offset, dir)
  | i :: places, offset, dir =>
      if buf (pos + i) = 0 ∧ buf (pos + i + 1) = 0 then
        (dir.setName offset NUL).map (offset, ·)
      else (dir.setName offset (buf (pos + i))).bind (copyChars buf pos places (offset + 1))

/-- The short name of an entry, with a dot before the extension if there is one. -/
def shortName (buf : Region Byte) (pos : ℕ) : List Byte :=
  let name := (buf.read pos 8).takeWhile (· ≠ 32)
  let ext := (buf.read (pos + 8) 3).takeWhile (· ≠ 32)
  if ext = [] then name else name ++ 0x2E :: ext

/-- The entry at `pos` of the sector.  A long entry with the number 0 would be stored before
the array. -/
def fatGetDirentry (buf : Region Byte) (pos : ℕ) (dir : Direntry) :
    Option (EntryKind × Direntry) :=
  if buf pos = 0 ∧ buf (pos + 1) = 0 then some (.last, dir)
  else if buf pos = 0xE5 then some (.deleted, dir)
  else if buf (pos + 11) = 0x0F ∧ buf (pos + 12) = 0 ∧ buf (pos + 26) = 0 then
    let entrySeq := (buf pos).toNat
    if entrySeq % 64 = 0 then none
    else
      (copyChars buf pos charPlaces ((entrySeq % 64 - 1) * 13) dir).bind fun (offset, dir) =>
        (if entrySeq / 64 % 2 = 1 then dir.setName offset NUL else some dir).map (.long, ·)
  else
    let sname := shortName buf pos
    let dir := { dir with sname := dir.sname.write 0 (sname ++ [NUL]) }
    -- the long name does not exist
    let dir := if dir.name 0 = 0 then
      { dir with name := dir.name.write 0 (cstr sname ++ [NUL]) } else dir
    some (.short,
      { dir with
        attr := buf (pos + 11)
        size := buf.u32 (pos + 28)
        cluster := buf.u16 (pos + 26) + buf.u16 (pos + 20) * 2 ^ 16 })

/-! ### The entries of a directory -/

/-- How far the entries have been gone through: one was found, the last one was met, or there
are more in the next sector; `index` counts the short entries. -/
inductive Search
  | found (dir : Direntry)
  | ended
  | more (index : ℕ) (dir : Direntry)

/-- The loop over the entries of a sector. -/
def searchEntries (hit : ℕ → Direntry → Bool) (buf : Region Byte) :
    List ℕ → ℕ → Direntry → Option Search
  | [], index, dir => some (.more index dir)
  | pos :: rest, index, dir => do
      let (kind, dir) ← fatGetDirentry buf pos dir
      match kind with
      | .last => some .ended
      | .short =>
          if hit index dir then some (.found dir)
          else searchEntries hit buf rest (index + 1) dir.clear
      | .long => searchEntries hit buf rest index dir
      | .deleted => searchEntries hit buf rest index dir

section Functions

variable (sizeSector : ℕ) (bpb : Bpb)

/-- The positions of the entries in a sector. -/
def entryPositions : List ℕ := (List.range (bpb.sectorSize / 32)).map (32 * ·)

/-- Behind the last sector of a cluster, `startSector` is set so that the next number leads
into the next cluster. -/
def nextStart (startCluster : ℕ) (cbuf : Region ℕ) (i startSector : ℕ) : ℕ :=
  if startCluster ≠ 0 ∧ i % bpb.clusterSize = bpb.clusterSize - 1 then
    (fatCluster2sector bpb (cbuf (i / bpb.clusterSize + 1)) + 2 ^ 32 - (i + 1)) % 2 ^ 32
  else startSector

/-- The loop over the sectors of a directory. -/
def searchSectors (hit : ℕ → Direntry → Bool) (startCluster : ℕ) :
    List ℕ → Driver → ℕ → ℕ → Direntry → Option (Option Direntry × Driver)
  | [], d, _, _, _ => some (none, d)
  | i :: rest, d, startSector, index, dir => do
      let d := d.readSector sizeSector (startSector + i)
      let startSector := nextStart bpb startCluster d.cbuf i startSector
      match ← searchEntries hit d.buf (entryPositions bpb) index dir with
      | .found dir => some (some dir, d)
      | .ended => some (none, d)
      | .more index dir => searchSectors hit startCluster rest d startSector index dir

/-- `fat_getDirentrySectorData`: the first cluster, the first sector and the number of
sectors. -/
def fatGetDirentrySectorData (d : Driver) (startCluster : ℕ) : Option (ℕ × ℕ × ℕ × Driver) :=
  if startCluster = 0 ∧ bpb.fatType ≠ .fat32 then
    some (startCluster, bpb.rootDirStart, bpb.rootSize / (bpb.sectorSize / 32), d)
  else
    let startCluster := if startCluster = 0 then bpb.rootDirCluster else startCluster
    let startSector := fatCluster2sector bpb startCluster
    let (chainSize, d) := fatGetClusterChain sizeSector bpb d startCluster true
    if 0 < chainSize then
      some (startCluster, startSector, chainSize.toNat * bpb.clusterSize, d)
    else none

/-- The first entry of a directory that `hit` takes; `stack` is what the local variable `dir`
holds before. -/
def searchDirectory (hit : ℕ → Direntry → Bool) (stack : Direntry) (d : Driver)
    (startCluster : ℕ) : Option (Option Direntry × Driver) := do
  let (startCluster, startSector, dirSector, d) ←
    fatGetDirentrySectorData sizeSector bpb d startCluster
  searchSectors sizeSector bpb hit startCluster (List.range dirSector) d startSector 0 stack.clear

/-! ### Names -/

/-- A letter in lower case. -/
def toLower (c : Byte) : Byte := if 64 < c.toNat ∧ c.toNat < 91 then c + 32 else c

/-- `strEqual` of the string at `i` and a string, which has no NUL in it. -/
def strEqual (s : Region Byte) (i : ℕ) : List Byte → Bool
  | [] => toLower (s i) = 0
  | c :: t => toLower (s i) = toLower c && strEqual s (i + 1) t

/-- An entry for the name, but not a volume label. -/
def hasName (dirName : List Byte) (dir : Direntry) : Bool :=
  !dir.attr.getLsbD 3 && (strEqual dir.sname 0 dirName || strEqual dir.name 0 dirName)

/-- The string in an array of a size. -/
def stringIn (r : Region Byte) (size : ℕ) : Option (List Byte) :=
  let s := cstr (r.read 0 size)
  if s.length < size then some s else none

/-- `fat_setFatDir` without the chain -/
def setFatDir (fatDir : FatDir) (dir : Direntry) : Option FatDir :=
  (if dir.name 0 ≠ 0 then stringIn dir.name fatMaxName else stringIn dir.sname 13).map fun name =>
    { fatDir with
      attr := dir.attr
      name := name
      size := dir.size
      chain := Function.update fatDir.chain 0 ⟨dir.cluster, 0⟩ }

/-- `fat_setFatDir`; `fuel` is for the chain of the file. -/
def fatSetFatDir (fuel : ℕ) (d : Driver) (fatDir : FatDir) (dir : Direntry) (getClusterInfo : Bool) :
    Option (Driver × FatDir) := do
  let fatDir ← setFatDir fatDir dir
  if getClusterInfo then fatSetFatDirChain sizeSector bpb fuel d fatDir else some (d, fatDir)

/-- Where a walk along a path is: the driver, `*startCluster` and `*fatDir`. -/
structure Place where
  d : Driver
  cluster : ℕ
  fatDir : FatDir

/-- `fat_getDirentryStartCluster`; whether the name was found. -/
def fatGetDirentryStartCluster (fuel : ℕ) (stack : Direntry) (dirName : List Byte) (p : Place) :
    Option (Bool × Place) := do
  match ← searchDirectory sizeSector bpb (fun _ => hasName dirName) stack p.d p.cluster with
  | (none, d) => some (false, { p with d := d })
  | (some dir, d) =>
      let (d, fatDir) ← fatSetFatDir sizeSector bpb fuel d p.fatDir dir true
      some (true, ⟨d, dir.cluster, fatDir⟩)

/-- The separators of a path. -/
def isSeparator (c : Byte) : Bool := c = 0x2F || c = 0x5C

/-- The errors that the file functions return. -/
inductive Errno
  | efault
  | enoent
  | emfile
  deriving DecidableEq

/-- The size of `tmpName` -/
def tmpNameSize : ℕ := 257

/-- The loop over the characters of a path, with the name so far in `tmpName`. -/
def walkPath (fuel : ℕ) (stack : Direntry) :
    List Byte → List Byte → Place → Option (Except Errno (List Byte) × Place)
  | [], tmpName, p => some (.ok tmpName, p)
  | c :: rest, tmpName, p =>
      if tmpName.length < tmpNameSize then
        if isSeparator c then do
          let (found, p) ← fatGetDirentryStartCluster sizeSector bpb fuel stack tmpName p
          if found then walkPath fuel stack rest [] p else some (.error .enoent, p)
        else walkPath fuel stack rest (tmpName ++ [c]) p
      else none

/-- The final name of a path. -/
def finishPath (fuel : ℕ) (stack : Direntry) (fname : List Byte) :
    Except Errno (List Byte) × Place → Option (Except Errno Unit × Place)
  | (.error e, p) => some (.error e, p)
  | (.ok tmpName, p) =>
      -- the last character was a separator, the name is already found
      if tmpName = [] ∧ 1 < fname.length then some (.ok (), p)
      else if tmpName.length < tmpNameSize then do
        let (found, p) ← fatGetDirentryStartCluster sizeSector bpb fuel stack tmpName p
        some (if found then .ok () else .error .efault, p)
      else none

/-- `fat_getFileStartCluster`, for a `fatDir` that is not `NULL` -/
def fatGetFileStartCluster (fuel : ℕ) (stack : Direntry) (fname : List Byte) (p : Place) :
    Option (Except Errno Unit × Place) :=
  let path := if fname.head?.any isSeparator then fname.tail else fname
  (walkPath sizeSector bpb fuel stack path [] p).bind (finishPath sizeSector bpb fuel stack fname)

end Functions

end Ps2rd.UsbMass
