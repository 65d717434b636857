import Ps2rd.Basic
import Ps2rd.Lib.Region

/-!
# The sector cache of the USB driver

`scache.c` keeps 32 slots of 4096 bytes in front of the device.  A slot holds the
sectors from `rec[i].sector` on, as many as fit; a free slot has the sector number
`0xFFFFFFF0`.  The file system reads and changes the sectors in place:
`scache_readSector` gives it a pointer into the cache buffer, and `scache_writeSector`
marks the slot as dirty afterwards.  A dirty slot is written to the device when it is
needed for other sectors or when the cache is flushed, which it is on request and after
every 16 misses and writes.

The device is a region of bytes in which sector `s` starts at `s * sectorSize`.
`mass_stor_readSector4096` and `mass_stor_writeSector4096` repeat a transfer until it
succeeds, so the branches of the cache for a failed transfer are not taken.  `tax` does
not overflow here; it decides about the victim of an eviction and about nothing else.
-/

namespace Ps2rd.UsbMass

/-- `CACHE_SIZE` -/
def cacheSize : ℕ := 32

/-- `FLUSH_TRIGGER` -/
def flushTrigger : ℕ := 16

/-- The sector number of a free slot. -/
def freeSector : ℕ := 0xFFFFFFF0

/-- `cache_record` -/
structure CacheRecord where
  sector : ℕ
  tax : ℤ
  writeDirty : ℕ

/-- The variables of `scache.c`, and the device behind it. -/
structure Cache where
  records : ℕ → CacheRecord
  sectorBuf : Region Byte
  cacheAccess : ℕ
  cacheHits : ℕ
  writeFlag : ℕ
  flushCounter : ℕ
  device : Region Byte

/-- `scache_init`, with what `malloc` finds in the memory for the buffer. -/
def scacheInit (sectorBuf device : Region Byte) : Cache where
  records := fun _ => ⟨freeSector, 0, 0⟩
  sectorBuf := sectorBuf
  cacheAccess := 0
  cacheHits := 0
  writeFlag := 0
  flushCounter := 0
  device := device

/-- Bytes are stored in the cache buffer, by a transfer or by the file system. -/
def Cache.store (c : Cache) (ptr : ℕ) (data : List Byte) : Cache :=
  { c with sectorBuf := c.sectorBuf.write ptr data }

section Functions

variable (sectorSize : ℕ)

/-- The number of sectors in a slot. -/
def indexLimit : ℕ := 4096 / sectorSize

/-- The slot has the sector. -/
def CacheRecord.covers (r : CacheRecord) (sector : ℕ) : Bool :=
  decide (r.sector ≤ sector) && decide (sector < (r.sector + indexLimit sectorSize) % 2 ^ 32)

def getSlot (c : Cache) (sector : ℕ) : Option ℕ :=
  (List.range cacheSize).find? fun i => (c.records i).covers sectorSize sector

/-- A round of the loop of `getIndexRead`, with `records` and `index`. -/
def visit (sector : ℕ) (s : (ℕ → CacheRecord) × Option ℕ) (i : ℕ) :
    (ℕ → CacheRecord) × Option ℕ :=
  let hit := (s.1 i).covers sectorSize sector
  let tax := if hit then max (s.1 i).tax 0 + 2 else (s.1 i).tax
  (Function.update s.1 i { s.1 i with tax := tax - 1 }, if hit then some i else s.2)

/-- The loop of `getIndexRead`. -/
def lookUp (records : ℕ → CacheRecord) (sector : ℕ) : (ℕ → CacheRecord) × Option ℕ :=
  (List.range cacheSize).foldl (visit sectorSize sector) (records, none)

/-- The index counts sectors, not slots. -/
def getIndexRead (c : Cache) (sector : ℕ) : Option ℕ × Cache :=
  let (records, slot) := lookUp sectorSize c.records sector
  (slot.map fun i => i * indexLimit sectorSize + (sector - (records i).sector),
    { c with records := records })

/-- A round of the loop of `getIndexWrite`, with `index` and `minTax`. -/
def compareTax (records : ℕ → CacheRecord) (s : ℕ × ℤ) (i : ℕ) : ℕ × ℤ :=
  if (records i).tax < s.2 then (i, (records i).tax) else s

/-- The slot that `getIndexWrite` chooses. -/
def cheapest (records : ℕ → CacheRecord) : ℕ :=
  ((List.range cacheSize).foldl (compareTax records) (0, 0x0FFFFFFF)).1

/-- The slot is written to the device if it is dirty. -/
def writeBack (c : Cache) (i : ℕ) : Cache :=
  if (c.records i).writeDirty ≠ 0 then
    { c with
      device := c.device.write ((c.records i).sector * sectorSize)
        (c.sectorBuf.read (i * 4096) 4096)
      records := Function.update c.records i { c.records i with writeDirty := 0 } }
  else c

def getIndexWrite (c : Cache) (sector : ℕ) : ℕ × Cache :=
  let index := cheapest c.records
  let c := writeBack sectorSize c index
  let r := c.records index
  (index * indexLimit sectorSize,
    { c with records :=
      Function.update c.records index { r with tax := r.tax + 2, sector := sector } })

/-- A round of the loop of `scache_flushSectors`, with the number of slots written. -/
def flushSlot (s : ℕ × Cache) (i : ℕ) : ℕ × Cache :=
  if (s.2.records i).writeDirty ≠ 0 then (s.1 + 1, writeBack sectorSize s.2 i) else s

/-- `scache_flushSectors` -/
def flushSectors (c : Cache) : ℕ × Cache :=
  let c := { c with flushCounter := 0 }
  if c.writeFlag = 0 then (0, c)
  else
    let (counter, c) := (List.range cacheSize).foldl (flushSlot sectorSize) (0, c)
    (counter, { c with writeFlag := 0 })

/-- The write precaution at the end of a miss and of a write. -/
def precaution (c : Cache) : Cache :=
  let c := { c with flushCounter := (c.flushCounter + 1) % 2 ^ 32 }
  if c.flushCounter = flushTrigger then (flushSectors sectorSize c).2 else c

/-- `scache_readSector`, with the offset of the sector in `sectorBuf`. -/
def readSector (c : Cache) (sector : ℕ) : ℕ × Cache :=
  match getIndexRead sectorSize { c with cacheAccess := (c.cacheAccess + 1) % 2 ^ 32 } sector with
  | (some index, c) => (index * sectorSize, { c with cacheHits := (c.cacheHits + 1) % 2 ^ 32 })
  | (none, c) =>
      let allignedSector := sector / indexLimit sectorSize * indexLimit sectorSize
      let (index, c) := getIndexWrite sectorSize c allignedSector
      let c := c.store (index * sectorSize) (c.device.read (allignedSector * sectorSize) 4096)
      (index * sectorSize + sector % indexLimit sectorSize * sectorSize, precaution sectorSize c)

/-- `scache_allocSector`: on a miss nothing is read from the device. -/
def allocSector (c : Cache) (sector : ℕ) : ℕ × Cache :=
  match getIndexRead sectorSize c sector with
  | (some index, c) => (index * sectorSize, c)
  | (none, c) =>
      let allignedSector := sector / indexLimit sectorSize * indexLimit sectorSize
      let (index, c) := getIndexWrite sectorSize c allignedSector
      (index * sectorSize + sector % indexLimit sectorSize * sectorSize, c)

/-- The slot of a sector that was written. -/
def markDirty (c : Cache) (index : ℕ) : Cache :=
  let r := c.records index
  { c with
    records := Function.update c.records index
      { r with tax := r.tax + 2, writeDirty := (r.writeDirty + 1) % 256 }
    writeFlag := (c.writeFlag + 1) % 2 ^ 32 }

/-- `scache_writeSector`; `none` is the error for a sector that is not in the cache. -/
def writeSector (c : Cache) (sector : ℕ) : Option Cache :=
  (getSlot sectorSize c sector).map fun index => precaution sectorSize (markDirty c index)

/-- A sector is read (`READ_SECTOR`), `data` is copied into it, and it is written. -/
def changeSector (c : Cache) (sector off : ℕ) (data : List Byte) : Option Cache :=
  let (ptr, c) := readSector sectorSize c sector
  writeSector sectorSize (c.store (ptr + off) data) sector

/-- A sector is filled with zeros in a slot that is only allocated for it. -/
def zeroSector (c : Cache) (sector : ℕ) : Option Cache :=
  let (ptr, c) := allocSector sectorSize c sector
  writeSector sectorSize (c.store ptr (List.replicate sectorSize 0)) sector

/-- The loop of `enlargeDirentryClusterSpace` that cleans the directory space. -/
def cleanSectors (c : Cache) (start count : ℕ) : Option Cache :=
  (List.range count).foldlM (fun c i => zeroSector sectorSize c (start + i)) c

end Functions

end Ps2rd.UsbMass
