import Ps2rd.UsbMass.FatDirectory

/-!
# The file functions of the USB driver

The functions of `fat_driver.c` that the I/O manager calls: `fs_open`, `fs_close`, `fs_lseek`
and `fs_read` for files, `fs_dopen` and `fs_dread` for directories.  The driver is built without
`WRITE_SUPPORT`, and the disk is mounted and stays it.

A file that is open has a slot in `fsRec` and `fsDir`, and the I/O manager keeps a pointer to
the slot; a slot is found again by the number `fd` in it.  A list of a directory has no slot:
where it is stands in the variables `direntryCluster` and `direntryIndex`, of which there is
one pair.

`fsCounter`, which the numbers come from, grows without bound here; the `int` of the source
wraps after 2^31 opens.
-/

namespace Ps2rd.UsbMass

/-- `MAX_FILES` -/
def maxFiles : ℕ := 16

/-- `fs_rec` -/
structure FsRec where
  fd : ℤ
  filePos : ℕ

/-- The variables of the file functions. -/
structure Fs where
  d : Driver
  fsRec : ℕ → FsRec
  fsDir : ℕ → FatDir
  fsCounter : ℕ
  direntryCluster : ℕ
  direntryIndex : ℕ

/-- What `direntryCluster` is if no directory is being listed. -/
def noDirectory : ℕ := 0xFFFFFFFF

/-! ### Files -/

/-- `fs_findFreeFileSlot` -/
def Fs.findSlot (s : Fs) (fd : ℤ) : Option ℕ :=
  (List.range maxFiles).find? fun i => (s.fsRec i).fd = fd

/-- `fs_findFileSlot`, for the file whose `privdata` leads to `slot` -/
def Fs.findFileSlot (s : Fs) (slot : ℕ) : Option ℕ := s.findSlot (s.fsRec slot).fd

def Fs.setRec (s : Fs) (i : ℕ) (r : FsRec) : Fs := { s with fsRec := Function.update s.fsRec i r }

/-- `fs_close` -/
def fsClose (s : Fs) (slot : ℕ) : Except Errno Unit × Fs :=
  match s.findFileSlot slot with
  | none => (.error .efault, s)
  | some index => (.ok (), s.setRec index { s.fsRec index with fd := -1 })

/-- The place that `fs_lseek` is asked for, if `whence` is one of the three that it knows. -/
def seekTarget (filePos size offset : ℕ) : ℕ → Option ℕ
  | 0 => some offset
  | 1 => some ((filePos + offset) % 2 ^ 32)
  | 2 => some ((size + offset) % 2 ^ 32)
  | _ => none

/-- `fs_lseek`.  The place is unsigned, so the test for one that is negative never holds, and a
place before the start of the file is taken for one behind its end. -/
def fsLseek (s : Fs) (slot offset whence : ℕ) : Except Errno (Option ℕ) × Fs :=
  match s.findFileSlot slot with
  | none => (.error .efault, s)
  | some index =>
      let r := s.fsRec index
      let size := (s.fsDir index).size
      match seekTarget r.filePos size offset whence with
      | none => (.ok none, s)
      | some filePos =>
          let filePos := if size < filePos then size else filePos
          (.ok (some filePos), s.setRec index { r with filePos := filePos })

section Functions

variable (sizeSector : ℕ) (bpb : Bpb) (fuel : ℕ) (stack : Direntry)

/-- `fs_open`, with the slot that `privdata` is set to.  A path that is not found may have left
a directory of it in the slot. -/
def fsOpen (s : Fs) (name : List Byte) : Option (Except Errno ℕ × Fs) :=
  match s.findSlot (-1) with
  | none => some (.error .emfile, s)
  | some index => do
      let (ret, p) ← fatGetFileStartCluster sizeSector bpb fuel stack name
        ⟨s.d, 0, s.fsDir index⟩
      let s := { s with d := p.d, fsDir := Function.update s.fsDir index p.fatDir }
      match ret with
      | .error e => some (.error e, s)
      | .ok () =>
          let fsCounter := s.fsCounter + 1
          some (.ok index, { s.setRec index ⟨fsCounter, 0⟩ with fsCounter := fsCounter })

/-- `fs_read`; `none` is for -1. -/
def fsRead (s : Fs) (slot : ℕ) (size : Int32) : Option (Option (List Byte) × Fs) :=
  match s.findFileSlot slot with
  | none => some (none, s)
  | some index =>
      if size ≤ 0 then some (some [], s)
      else do
        let r := s.fsRec index
        let dir := s.fsDir index
        -- the sum is unsigned and wraps, the difference is an `int` again
        let size := if dir.size < (r.filePos + size.toNatClampNeg) % 2 ^ 32
          then Int32.ofInt (dir.size - r.filePos) else size
        let (bytes, d) ← fatReadFile sizeSector bpb fuel s.d dir r.filePos size.toNatClampNeg
        some (some bytes,
          { s.setRec index { r with filePos := (r.filePos + bytes.length) % 2 ^ 32 } with d := d })

/-! ### Directories -/

/-- `fat_getNextDirentry`; whether there was one. -/
def fatGetNextDirentry (s : Fs) (fatDir : FatDir) : Option (Bool × FatDir × Fs) :=
  if s.direntryCluster = noDirectory then some (false, fatDir, s)
  else do
    match ← searchDirectory sizeSector bpb (fun index _ => index = s.direntryIndex) stack s.d
      s.direntryCluster with
    | (some dir, d) =>
        let fatDir ← setFatDir fatDir dir
        some (true, fatDir, { s with d := d, direntryIndex := s.direntryIndex + 1 })
    | (none, d) => some (false, fatDir, { s with d := d, direntryCluster := noDirectory })

/-- A path that stands for the root directory. -/
def isRoot (name : List Byte) : Bool :=
  match name with
  | [] => true
  | c :: rest => c = 0x2E || isSeparator c && (rest.head?.all (· = 0x2E))

/-- `fat_getFirstDirentry`; whether there was one. -/
def fatGetFirstDirentry (s : Fs) (name : List Byte) (fatDir : FatDir) :
    Option (Bool × FatDir × Fs) :=
  if isRoot name then
    fatGetNextDirentry sizeSector bpb stack { s with direntryCluster := 0, direntryIndex := 0 } fatDir
  else do
    let (ret, p) ← fatGetFileStartCluster sizeSector bpb fuel stack name ⟨s.d, 0, fatDir⟩
    let s := { s with d := p.d }
    match ret with
    | .error _ => some (false, p.fatDir, s)
    | .ok () =>
        if p.fatDir.attr.getLsbD 4 then
          fatGetNextDirentry sizeSector bpb stack
            { s with direntryCluster := p.cluster, direntryIndex := 0 } p.fatDir
        else some (false, p.fatDir, s)

/-- `D_PRIVATE` -/
structure DirHandle where
  status : Bool
  fatdir : FatDir

/-- `fs_dopen`; `fatdir` is what the local variable holds before. -/
def fsDopen (s : Fs) (name : List Byte) (fatdir : FatDir) : Option (Option DirHandle × Fs) := do
  let s := { s with fsCounter := s.fsCounter + 1 }
  let (found, fatdir, s) ← fatGetFirstDirentry sizeSector bpb fuel stack s name fatdir
  some (if found then some ⟨false, fatdir⟩ else none, s)

/-- The parts of `fio_dirent_t` that are set. -/
structure Dirent where
  isDir : Bool
  size : ℕ
  name : List Byte

/-- `fs_dread`.  The next entry is read before the one that was read last is returned; a volume
name is left out. -/
def fsDread : ℕ → Fs → DirHandle → Option (Option Dirent × DirHandle × Fs)
  | 0, _, _ => none
  | n + 1, s, h =>
      if h.status then some (none, h, s)
      else do
        let (found, fatdir, s) ← fatGetNextDirentry sizeSector bpb stack s h.fatdir
        let next : DirHandle := ⟨!found, fatdir⟩
        if h.fatdir.attr.getLsbD 3 then fsDread n s next
        else some (some ⟨h.fatdir.attr.getLsbD 4, h.fatdir.size, h.fatdir.name⟩, next, s)

end Functions

end Ps2rd.UsbMass
