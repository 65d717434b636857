import Ps2rd.Lib.While
import Ps2rd.UsbMass.SectorCache

/-!
# Reading files from a FAT volume

The part of `fat_driver.c` that finds the clusters of a file and reads them.  The driver
keeps one sector pointer, `sbuf`, which leads into the buffer of the sector cache, and one
list of clusters, `cbuf`, with room for `MAX_DIR_CLUSTER` of them: the clusters of a chain are
read from the FAT in parts.  `lastChainCluster` says which part is in `cbuf`, so that a second
request for it does not read the FAT again.

To find a place in a file without following its chain from the start, `fat_dir` has a table
of 32 clusters that are spread over the file.

The sizes that this table is made with are of type `int`, and wrap.
-/

namespace Ps2rd.UsbMass

/-- `MAX_DIR_CLUSTER` -/
def maxDirCluster : ℕ := 512

/-- `DIR_CHAIN_SIZE` -/
def dirChainSize : ℕ := 32

/-- `fatType` -/
inductive FatType
  | fat12
  | fat16
  | fat32
  deriving DecidableEq

/-- `fat_bpb` -/
structure Bpb where
  sectorSize : ℕ
  clusterSize : ℕ
  resSectors : ℕ
  rootSize : ℕ
  partStart : ℕ
  rootDirStart : ℕ
  rootDirCluster : ℕ
  fatType : FatType

/-- The size of a cluster in bytes. -/
def Bpb.clusterBytes (bpb : Bpb) : ℕ := bpb.clusterSize * bpb.sectorSize

/-- The variables of the driver. -/
structure Driver where
  cache : Cache
  /-- where the current sector is in the buffer of the cache -/
  sbuf : ℕ
  cbuf : Region ℕ
  lastChainCluster : ℕ
  lastChainResult : ℤ

/-- The bytes behind `sbuf`. -/
def Driver.buf (d : Driver) : Region Byte := fun i => d.cache.sectorBuf (d.sbuf + i)

/-- `READ_SECTOR`, with the size of the device's sectors. -/
def Driver.readSector (sizeSector : ℕ) (d : Driver) (sector : ℕ) : Driver :=
  let (ptr, cache) := UsbMass.readSector sizeSector d.cache (sector % 2 ^ 32)
  { d with cache := cache, sbuf := ptr }

def fatCluster2sector1216 (bpb : Bpb) (cluster : ℕ) : ℕ :=
  (bpb.rootDirStart + bpb.rootSize / (bpb.sectorSize / 32) +
    bpb.clusterSize * (cluster + 2 ^ 32 - 2)) % 2 ^ 32

def fatCluster2sector32 (bpb : Bpb) (cluster : ℕ) : ℕ :=
  (bpb.rootDirStart + bpb.clusterSize * (cluster + 2 ^ 32 - 2)) % 2 ^ 32

def fatCluster2sector (bpb : Bpb) (cluster : ℕ) : ℕ :=
  match bpb.fatType with
  | .fat32 => fatCluster2sector32 bpb cluster
  | _ => fatCluster2sector1216 bpb cluster

/-- Two of these records share three bytes. -/
def fatGetClusterRecord12 (buf : Region Byte) (off type : ℕ) : ℕ :=
  if type ≠ 0 then (buf (off + 1)).toNat * 16 + (buf off).toNat / 16
  else (buf (off + 1)).toNat % 16 * 256 + (buf off).toNat

section Functions

variable (sizeSector : ℕ) (bpb : Bpb)

/-! ### Cluster chains -/

/-- The driver while it follows a chain, with `cluster` and `lastFatSector`. -/
structure Walk where
  d : Driver
  cluster : ℕ
  lastFatSector : Option ℕ

/-- The record of the cluster is read, with the sector it is in if that is not the last one. -/
def fetchRecord (width : ℕ) (w : Walk) : Walk :=
  let indexCount := bpb.sectorSize / width
  let fatSector := w.cluster / indexCount
  let d := if w.lastFatSector ≠ some fatSector then
    w.d.readSector sizeSector (bpb.partStart + bpb.resSectors + fatSector) else w.d
  ⟨d, Region.leNat (d.buf.read (w.cluster % indexCount * width) width), some fatSector⟩

/-- The record of a cluster in a FAT12, which may lie in two sectors. -/
def fetchRecord12 (w : Walk) : Walk :=
  let recordOffset := w.cluster * 3 % 2 ^ 32 / 2
  let fatSector := recordOffset / bpb.sectorSize
  let sectorSpan := recordOffset % bpb.sectorSize = bpb.sectorSize - 1
  let start := bpb.partStart + bpb.resSectors + fatSector
  let d := if w.lastFatSector ≠ some fatSector ∨ sectorSpan then
    w.d.readSector sizeSector start else w.d
  if sectorSpan then
    let d₂ := d.readSector sizeSector (start + 1)
    let xbuf : Region Byte := fun i =>
      if i < 2 then d.buf (bpb.sectorSize - 2 + i) else d₂.buf (i - 2)
    ⟨d₂, fatGetClusterRecord12 xbuf (recordOffset % bpb.sectorSize - (bpb.sectorSize - 2))
      (w.cluster % 2), some fatSector⟩
  else
    ⟨d, fatGetClusterRecord12 d.buf (recordOffset % bpb.sectorSize) (w.cluster % 2),
      some fatSector⟩

/-- The loop of the chain functions, with the room that is left in `cbuf`. -/
def chainLoop (fetch : Walk → Walk) (isEnd : ℕ → Bool) (entry : ℕ → ℕ) :
    ℕ → ℕ → Walk → ℤ × Driver
  | 0, _, w => (0, w.d)
  | n + 1, i, w =>
      let w := fetch w
      if isEnd w.cluster then (i, w.d)
      else
        chainLoop fetch isEnd entry n (i + 1)
          { w with d := { w.d with cbuf := w.d.cbuf.write i [entry w.cluster] } }

/-- A part of a chain is put into `cbuf`, with the first cluster if `start` is set. -/
def clusterChain (fetch : Walk → Walk) (isEnd : ℕ → Bool) (entry : ℕ → ℕ) (d : Driver)
    (cluster : ℕ) (start : Bool) : ℤ × Driver :=
  if start then
    chainLoop fetch isEnd entry (maxDirCluster - 1) 1
      ⟨{ d with cbuf := d.cbuf.write 0 [cluster] }, cluster, none⟩
  else chainLoop fetch isEnd entry maxDirCluster 0 ⟨d, cluster, none⟩

def fatGetClusterChain12 : Driver → ℕ → Bool → ℤ × Driver :=
  clusterChain (fetchRecord12 sizeSector bpb) (fun c => decide (0xFF8 ≤ c)) id

def fatGetClusterChain16 : Driver → ℕ → Bool → ℤ × Driver :=
  clusterChain (fetchRecord sizeSector bpb 2) (fun c => decide (0xFFF8 ≤ c)) id

/-- The next record is looked up with the cluster as it was read, `cbuf` gets it without the
upper four bits. -/
def fatGetClusterChain32 : Driver → ℕ → Bool → ℤ × Driver :=
  clusterChain (fetchRecord sizeSector bpb 4) (fun c => decide (0xFFFFFF8 ≤ c % 2 ^ 28))
    (· % 2 ^ 28)

/-- The number of clusters in `cbuf`, 0 if it is full.  What `start` was for the part in
`cbuf` is not asked. -/
def fatGetClusterChain (d : Driver) (cluster : ℕ) (start : Bool) : ℤ × Driver :=
  if cluster = d.lastChainCluster then (d.lastChainResult, d)
  else
    let (result, d) := match bpb.fatType with
      | .fat12 => fatGetClusterChain12 sizeSector bpb d cluster start
      | .fat16 => fatGetClusterChain16 sizeSector bpb d cluster start
      | .fat32 => fatGetClusterChain32 sizeSector bpb d cluster start
    (result, { d with lastChainCluster := cluster, lastChainResult := result })

/-! ### Places in a file -/

/-- `fat_dir_chain_record` -/
structure ChainRecord where
  cluster : ℕ
  index : ℕ

/-- `fat_dir`, without date and time; `name` is the string without its terminator -/
structure FatDir where
  attr : Byte
  name : List Byte
  size : ℕ
  lastCluster : ℕ
  chain : ℕ → ChainRecord

/-- The variables of `fat_setFatDirChain`. -/
structure ChainScan where
  d : Driver
  dir : FatDir
  fileCluster : ℕ
  nextChain : Bool
  clusterChainStart : ℕ
  j : ℕ
  fileSize : Int32
  index : ℕ
  i : ℕ

/-- `blockSize` of `fat_setFatDirChain`, for a file of this size -/
def seekBlockSize (size : ℕ) : Int32 := Int32.ofNat size / Int32.ofNat dirChainSize

/-- Entries of the table for a cluster, as long as the file has come to their place. -/
def setChainRecords (blockSize fileSize : Int32) (r : ChainRecord) :
    ℕ → FatDir × ℕ → FatDir × ℕ
  | 0, s => s
  | n + 1, (dir, j) =>
      if Int32.ofNat j * blockSize ≤ fileSize ∧ j < dirChainSize then
        setChainRecords blockSize fileSize r n
          ({ dir with chain := Function.update dir.chain j r }, j + 1)
      else (dir, j)

/-- A cluster of `cbuf` is counted. -/
def scanCluster (blockSize : Int32) (s : ChainScan) (i : ℕ) : ChainScan :=
  let fileSize := s.fileSize + Int32.ofNat bpb.clusterBytes
  let (dir, j) := setChainRecords blockSize fileSize ⟨s.d.cbuf i, s.index⟩ dirChainSize (s.dir, s.j)
  { s with dir := dir, j := j, fileSize := fileSize, index := s.index + 1 }

/-- A round of the loop: a part of the chain.  Its first cluster is the last one of the part
before. -/
def scanPart (blockSize : Int32) (s : ChainScan) : ChainScan :=
  let (chainSize, d) := fatGetClusterChain sizeSector bpb s.d s.fileCluster true
  let (chainSize, s) :=
    if chainSize = 0 then
      (maxDirCluster, { s with d := d, fileCluster := d.cbuf (maxDirCluster - 1) })
    else (chainSize.toNat, { s with d := d, nextChain := false })
  let start := s.clusterChainStart
  let s := (List.range' start (chainSize - start)).foldl (scanCluster bpb blockSize) s
  { s with clusterChainStart := 1, i := max start chainSize }

def fatSetFatDirChain (fuel : ℕ) (d : Driver) (dir : FatDir) : Option (Driver × FatDir) :=
  let fileCluster := (dir.chain 0).cluster
  if fileCluster < 2 then some (d, dir)
  else do
    let s ← whileM (·.nextChain)
      (fun s => some (scanPart sizeSector bpb (seekBlockSize dir.size) s)) fuel
      ⟨d, dir, fileCluster, true, 0, 1, 0, 0, 0⟩
    some (s.d, { s.dir with lastCluster := s.d.cbuf (s.i - 1) })

/-- The entry of the table that `fat_getClusterAtFilePos` takes. -/
def chainRecordAt (dir : FatDir) (filePos : ℕ) : ChainRecord :=
  let blockSize := bpb.clusterBytes
  let j := (List.range (dirChainSize - 1)).find? fun i =>
    decide ((dir.chain i).index * blockSize ≤ filePos) &&
      decide (filePos < (dir.chain (i + 1)).index * blockSize)
  dir.chain (j.getD (dirChainSize - 1))

/-- `fat_getClusterAtFilePos`, with `cluster` and `clusterPos` -/
def fatGetClusterAtFilePos (dir : FatDir) (filePos : ℕ) : ℕ × ℕ :=
  let r := chainRecordAt bpb dir filePos
  (r.cluster, r.index * bpb.clusterBytes)

/-! ### Reading -/

/-- The variables of `fat_readFile` that its inner loops change; `out` is what was copied to
`buffer` so far. -/
structure Copying where
  d : Driver
  size : ℕ
  out : List Byte
  bufSize : ℕ
  dataSkip : ℕ
  sectorSkip : ℕ

/-- The variables of its outer loop. -/
structure ReadScan extends Copying where
  clusterSkip : ℕ
  fileCluster : ℕ
  chainSize : ℕ
  nextChain : Bool
  clusterChainStart : Bool

/-- The next part of the chain. -/
def nextPart (s : ReadScan) : ReadScan :=
  let (chainSize, d) := fatGetClusterChain sizeSector bpb s.d s.fileCluster s.clusterChainStart
  let s := { s with d := d, clusterChainStart := false }
  if chainSize = 0 then
    { s with chainSize := maxDirCluster, fileCluster := d.cbuf (maxDirCluster - 1) }
  else { s with chainSize := chainSize.toNat, nextChain := false }

/-- Parts are skipped as long as the place in the file is behind them. -/
def skipParts : ℕ → ReadScan → ReadScan
  | 0, s => s
  | n + 1, s =>
      if maxDirCluster ≤ s.clusterSkip then
        let s := nextPart sizeSector bpb s
        skipParts n { s with clusterSkip := s.clusterSkip - maxDirCluster }
      else s

/-- A sector is read, and what is asked for of it is copied. -/
def copySector (s : Copying) (sector : ℕ) : Copying :=
  let d := s.d.readSector sizeSector sector
  let bufSize := if s.size < s.bufSize then s.size + s.dataSkip else s.bufSize
  let bufSize := if sizeSector < bufSize then sizeSector else bufSize
  let n := bufSize - s.dataSkip
  { s with
    d := d
    size := s.size - n
    out := s.out ++ d.buf.read s.dataSkip n
    dataSkip := 0
    bufSize := sizeSector }

/-- The loop over the sectors of a cluster. -/
def copySectors (s : Copying) : List ℕ → Copying
  | [] => s
  | sector :: rest => if 0 < s.size then copySectors (copySector sizeSector s sector) rest else s

/-- The loop over the clusters in `cbuf`. -/
def copyClusters (s : Copying) : List ℕ → Copying
  | [] => s
  | cluster :: rest =>
      if 0 < s.size then
        let startSector := fatCluster2sector bpb cluster
        let s := copySectors sizeSector s
          (List.range' (startSector + s.sectorSkip) (bpb.clusterSize - s.sectorSkip))
        copyClusters { s with sectorSkip := 0 } rest
      else s

/-- A round of the loop over the parts of the chain. -/
def readPart (s : ReadScan) : ReadScan :=
  let s := nextPart sizeSector bpb s
  let s := skipParts sizeSector bpb s.clusterSkip s
  let clusters := s.d.cbuf.read s.clusterSkip (s.chainSize - s.clusterSkip)
  { s with toCopying := copyClusters sizeSector bpb s.toCopying clusters, clusterSkip := 0 }

/-- `fat_readFile`; the number of bytes that it returns is the length of the list. -/
def fatReadFile (fuel : ℕ) (d : Driver) (dir : FatDir) (filePos size : ℕ) :
    Option (List Byte × Driver) :=
  let (fileCluster, clusterPos) := fatGetClusterAtFilePos bpb dir filePos
  let sectorSkip := (filePos - clusterPos) / bpb.sectorSize
  if fileCluster < 2 then some ([], d)
  else do
    let s ← whileM (fun s => s.nextChain && decide (0 < s.size))
      (fun s => some (readPart sizeSector bpb s)) fuel
      ⟨⟨d, size, [], sizeSector, filePos % bpb.sectorSize, sectorSkip % bpb.clusterSize⟩,
        sectorSkip / bpb.clusterSize, fileCluster, 0, true, true⟩
    some (s.out, s.d)

end Functions

end Ps2rd.UsbMass
