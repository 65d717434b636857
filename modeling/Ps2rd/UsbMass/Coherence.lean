import Ps2rd.Lib.Blocks
import Ps2rd.Lib.WriteBack
import Ps2rd.UsbMass.SectorCache

/-!
# The invariant of the sector cache

The cache of `scache.c` is a write-back cache of blocks of 4096 bytes.  `Sound` says what
device it stands for, and every function of the interface is followed through it.  The
counters of the flush trigger are part of the invariant: `writeDirty` is a `char`, and it
does not wrap because a flush comes after 16 writes at the latest.
-/

namespace Ps2rd.UsbMass

/-- The sector sizes that the driver supports. -/
structure SizeOk (sectorSize : ℕ) : Prop where
  dvd : sectorSize ∣ 4096
  le : 512 ≤ sectorSize

namespace SizeOk

variable {ss : ℕ}

theorem limit_mul (hss : SizeOk ss) : indexLimit ss * ss = 4096 := Nat.div_mul_cancel hss.dvd

theorem limit_pos (hss : SizeOk ss) : 0 < indexLimit ss := by
  refine Nat.pos_of_ne_zero fun h => ?_
  have := hss.limit_mul
  simp [h] at this

theorem limit_le (hss : SizeOk ss) : indexLimit ss ≤ 8 := by
  have := hss.le
  calc indexLimit ss = 4096 / ss := rfl
    _ ≤ 4096 / 512 := Nat.div_le_div_left hss.le (by norm_num)
    _ = 8 := by norm_num

/-- Where a sector lies in its block. -/
theorem sector_add_le (hss : SizeOk ss) (s : ℕ) : s % indexLimit ss * ss + ss ≤ 4096 := by
  have hlt : s % indexLimit ss + 1 ≤ indexLimit ss := Nat.mod_lt s hss.limit_pos
  calc s % indexLimit ss * ss + ss = (s % indexLimit ss + 1) * ss := by ring
    _ ≤ indexLimit ss * ss := Nat.mul_le_mul_right ss hlt
    _ = 4096 := hss.limit_mul

/-- The first byte of a block of sectors. -/
theorem block_start (hss : SizeOk ss) (k : ℕ) : k * indexLimit ss * ss = 4096 * k := by
  rw [Nat.mul_assoc, hss.limit_mul, Nat.mul_comm]

/-- The first byte of a sector. -/
theorem sector_start (hss : SizeOk ss) (s : ℕ) :
    4096 * (s / indexLimit ss) + s % indexLimit ss * ss = s * ss := by
  rw [← hss.block_start, ← Nat.add_mul, Nat.div_add_mod']

end SizeOk

/-! ### The cache as slots in front of blocks -/

variable {ss slack : ℕ} {c c' : Cache} {m : Region Byte} {i k s : ℕ}

/-- Slots with blocks of the device in them. -/
def Cache.slots (ss : ℕ) (c : Cache) : WriteBack ℕ ℕ (List Byte) where
  tag := fun i =>
    if i < cacheSize ∧ (c.records i).sector ≠ freeSector then
      some ((c.records i).sector / indexLimit ss)
    else none
  dirty := fun i => decide ((c.records i).writeDirty ≠ 0)
  line := c.sectorBuf.block 4096
  store := c.device.block 4096

theorem line_slots (ss : ℕ) (c : Cache) : (c.slots ss).line = c.sectorBuf.block 4096 := rfl

theorem store_slots (ss : ℕ) (c : Cache) : (c.slots ss).store = c.device.block 4096 := rfl

/-- Slots are free or start at a block. -/
def Placed (ss : ℕ) (c : Cache) : Prop :=
  ∀ i < cacheSize, (c.records i).sector ≠ freeSector →
    indexLimit ss ∣ (c.records i).sector ∧ (c.records i).sector < freeSector

/-- The cache stands for a device with the bytes `m`.  With `slack` 1 a write has been
counted in `writeFlag`, but not yet in `flushCounter`. -/
structure Sound (ss slack : ℕ) (c : Cache) (m : Region Byte) : Prop where
  placed : Placed ss c
  free : ∀ i < cacheSize, (c.records i).sector = freeSector → (c.records i).writeDirty = 0
  dirty : ∀ i < cacheSize, (c.records i).writeDirty ≤ c.writeFlag
  flag : c.writeFlag ≤ c.flushCounter + slack
  counter : c.flushCounter < flushTrigger
  represents : (c.slots ss).Represents (m.block 4096)

theorem tag_eq_some_iff : (c.slots ss).tag i = some k ↔
    i < cacheSize ∧ (c.records i).sector ≠ freeSector ∧
      (c.records i).sector / indexLimit ss = k := by
  simp only [Cache.slots]
  split_ifs with h
  · simp [h]
  · simp only [false_iff]
    tauto

theorem Placed.sector_eq (hplaced : Placed ss c) (htag : (c.slots ss).tag i = some k) :
    (c.records i).sector = k * indexLimit ss := by
  obtain ⟨hi, hused, hk⟩ := tag_eq_some_iff.mp htag
  rw [← hk, Nat.div_mul_cancel (hplaced i hi hused).1]

/-- A slot covers a sector if the sector lies in its block. -/
theorem Placed.covers_iff (hplaced : Placed ss c) (hss : SizeOk ss) (hi : i < cacheSize)
    (hs : s < freeSector) : (c.records i).covers ss s = true ↔
      (c.slots ss).tag i = some (s / indexLimit ss) := by
  have hpos := hss.limit_pos
  have hle := hss.limit_le
  rw [tag_eq_some_iff]
  simp only [CacheRecord.covers, Bool.and_eq_true, decide_eq_true_eq, hi, true_and]
  unfold freeSector at *
  by_cases hused : (c.records i).sector = 0xFFFFFFF0
  · simp only [hused]
    omega
  · obtain ⟨⟨q, hq⟩, hlt⟩ := hplaced i hi hused
    unfold freeSector at hlt
    have hmod : ((c.records i).sector + indexLimit ss) % 2 ^ 32 =
        (c.records i).sector + indexLimit ss := Nat.mod_eq_of_lt (by omega)
    simp only [hmod, ne_eq, hused, not_false_eq_true, true_and]
    rw [hq, Nat.mul_div_cancel_left q hpos, eq_comm, Nat.div_eq_iff hpos, Nat.mul_comm q]
    omega

/-- Nothing has changed but the taxes and the statistics. -/
structure Alike (c c' : Cache) : Prop where
  sector : ∀ i, (c'.records i).sector = (c.records i).sector
  dirty : ∀ i, (c'.records i).writeDirty = (c.records i).writeDirty
  buf : c'.sectorBuf = c.sectorBuf
  flag : c'.writeFlag = c.writeFlag
  counter : c'.flushCounter = c.flushCounter
  device : c'.device = c.device

theorem Alike.slots_eq (h : Alike c c') (ss : ℕ) : c'.slots ss = c.slots ss := by
  simp only [Cache.slots, h.sector, h.dirty, h.buf, h.device]

theorem Sound.alike (h : Sound ss slack c m) (halike : Alike c c') : Sound ss slack c' m where
  placed := by simpa only [Placed, halike.sector] using h.placed
  free := by simpa only [halike.sector, halike.dirty] using h.free
  dirty := by simpa only [halike.dirty, halike.flag] using h.dirty
  flag := by simpa only [halike.flag, halike.counter] using h.flag
  counter := by simpa only [halike.counter] using h.counter
  represents := by simpa only [halike.slots_eq] using h.represents

theorem Sound.weaken (h : Sound ss 0 c m) : Sound ss 1 c m :=
  { h with flag := h.flag.trans (Nat.le_succ _) }

/-! ### Looking a sector up -/

/-- A record keeps its sector and its dirty count in `getIndexRead`. -/
theorem foldl_visit_record (s : ℕ) (l : List ℕ) (r : (ℕ → CacheRecord) × Option ℕ) (j : ℕ) :
    ((l.foldl (visit ss s) r).1 j).sector = (r.1 j).sector ∧
      ((l.foldl (visit ss s) r).1 j).writeDirty = (r.1 j).writeDirty := by
  induction l generalizing r with
  | nil => exact ⟨rfl, rfl⟩
  | cons i l ih =>
      obtain ⟨hsector, hdirty⟩ := ih (visit ss s r i)
      rw [List.foldl_cons, hsector, hdirty]
      simp only [visit, Function.update_apply]
      split_ifs with hji <;> simp [hji]

theorem covers_visit (s : ℕ) (r : (ℕ → CacheRecord) × Option ℕ) (i j : ℕ) :
    ((visit ss s r i).1 j).covers ss s = (r.1 j).covers ss s := by
  have h : ((visit ss s r i).1 j).sector = (r.1 j).sector := (foldl_visit_record s [i] r j).1
  simp only [CacheRecord.covers]
  rw [← h]

/-- The loop comes back without an index only if no slot covers the sector. -/
theorem foldl_visit_none {s : ℕ} {l : List ℕ} {r : (ℕ → CacheRecord) × Option ℕ}
    (h : (l.foldl (visit ss s) r).2 = none) :
    r.2 = none ∧ ∀ i ∈ l, ¬ (r.1 i).covers ss s = true := by
  induction l generalizing r with
  | nil => exact ⟨h, by simp⟩
  | cons i l ih =>
      obtain ⟨hnone, hrest⟩ := ih h
      have hmiss : ¬ (r.1 i).covers ss s = true := fun hhit => by simp [visit, hhit] at hnone
      refine ⟨by simpa [visit, hmiss] using hnone, fun j hj => ?_⟩
      rcases List.mem_cons.mp hj with rfl | hj
      · exact hmiss
      · exact covers_visit s r i j ▸ hrest j hj

/-- An index that the loop comes back with is that of a slot that covers the sector. -/
theorem foldl_visit_some {s i : ℕ} {l : List ℕ} {r : (ℕ → CacheRecord) × Option ℕ}
    (h : (l.foldl (visit ss s) r).2 = some i) :
    r.2 = some i ∨ i ∈ l ∧ (r.1 i).covers ss s = true := by
  induction l generalizing r with
  | nil => exact .inl h
  | cons j l ih =>
      rcases ih h with hnow | ⟨hmem, hcovers⟩
      · by_cases hhit : (r.1 j).covers ss s = true
        · have hij : j = i := by simpa [visit, hhit] using hnow
          exact .inr ⟨by simp [hij], hij ▸ hhit⟩
        · exact .inl (by simpa [visit, hhit] using hnow)
      · exact .inr ⟨List.mem_cons_of_mem _ hmem, covers_visit s r j i ▸ hcovers⟩

theorem getIndexRead_fst (ss : ℕ) (c : Cache) (s : ℕ) :
    (getIndexRead ss c s).1 = (lookUp ss c.records s).2.map fun i =>
      i * indexLimit ss + (s - ((lookUp ss c.records s).1 i).sector) := rfl

theorem alike_getIndexRead (ss : ℕ) (c : Cache) (s : ℕ) : Alike c (getIndexRead ss c s).2 := by
  have hrecord : ∀ i, ((lookUp ss c.records s).1 i).sector = (c.records i).sector ∧
      ((lookUp ss c.records s).1 i).writeDirty = (c.records i).writeDirty := fun i =>
    foldl_visit_record s (List.range cacheSize) (c.records, none) i
  exact ⟨fun i => (hrecord i).1, fun i => (hrecord i).2, rfl, rfl, rfl, rfl⟩

/-- A miss in `getIndexRead`. -/
theorem Sound.absent_of_none (h : Sound ss slack c m) (hss : SizeOk ss) (hs : s < freeSector)
    (hnone : (getIndexRead ss c s).1 = none) : (c.slots ss).Absent (s / indexLimit ss) := by
  intro i htag
  have hi := (tag_eq_some_iff.mp htag).1
  rw [getIndexRead_fst, Option.map_eq_none_iff, lookUp] at hnone
  refine (foldl_visit_none hnone).2 i (List.mem_range.mpr hi) ?_
  exact (h.placed.covers_iff hss hi hs).mpr htag

/-- A hit in `getIndexRead`: the index leads to the sector in the buffer. -/
theorem Sound.index_of_some (h : Sound ss slack c m) (hss : SizeOk ss) (hs : s < freeSector)
    {index : ℕ} (hsome : (getIndexRead ss c s).1 = some index) :
    ∃ i, (c.slots ss).tag i = some (s / indexLimit ss) ∧
      index * ss = 4096 * i + s % indexLimit ss * ss := by
  rw [getIndexRead_fst, Option.map_eq_some_iff] at hsome
  obtain ⟨i, hfound, hindex⟩ := hsome
  rw [show ((lookUp ss c.records s).1 i).sector = (c.records i).sector from
    (alike_getIndexRead ss c s).sector i] at hindex
  rw [lookUp] at hfound
  obtain ⟨hmem, hcovers⟩ := (foldl_visit_some hfound).resolve_left (by simp)
  have htag := (h.placed.covers_iff hss (List.mem_range.mp hmem) hs).mp hcovers
  rw [h.placed.sector_eq htag] at hindex
  have hmod : s - s / indexLimit ss * indexLimit ss = s % indexLimit ss := by
    have := Nat.div_add_mod' s (indexLimit ss)
    omega
  exact ⟨i, htag, by rw [← hindex, hmod, Nat.add_mul, hss.block_start]⟩

theorem getSlot_eq (hplaced : Placed ss c) (hss : SizeOk ss) (hs : s < freeSector)
    (htag : (c.slots ss).tag i = some (s / indexLimit ss))
    (hunique : ∀ j, (c.slots ss).tag j = some (s / indexLimit ss) → j = i) :
    getSlot ss c s = some i := by
  have hi : i < cacheSize := (tag_eq_some_iff.mp htag).1
  have hcovers := (hplaced.covers_iff hss hi hs).mpr htag
  cases hslot : getSlot ss c s with
  | none =>
      rw [getSlot, List.find?_eq_none] at hslot
      exact absurd hcovers (hslot i (List.mem_range.mpr hi))
  | some j =>
      rw [getSlot] at hslot
      have hj : j < cacheSize := List.mem_range.mp (List.mem_of_find?_eq_some hslot)
      have hfound : (c.records j).covers ss s = true := by simpa using List.find?_some hslot
      rw [hunique j ((hplaced.covers_iff hss hj hs).mp hfound)]

/-! ### Writing slots back -/

theorem foldl_compareTax_lt (records : ℕ → CacheRecord) {n : ℕ} (l : List ℕ) (s : ℕ × ℤ)
    (hl : ∀ i ∈ l, i < n) (hs : s.1 < n) : (l.foldl (compareTax records) s).1 < n := by
  induction l generalizing s with
  | nil => exact hs
  | cons i l ih =>
      refine ih _ (fun j hj => hl j (List.mem_cons_of_mem _ hj)) ?_
      unfold compareTax
      split_ifs
      · exact hl i List.mem_cons_self
      · exact hs

theorem cheapest_lt (records : ℕ → CacheRecord) : cheapest records < cacheSize :=
  foldl_compareTax_lt records _ _ (fun _ hi => List.mem_range.mp hi) (by decide)

theorem writeDirty_writeBack (ss : ℕ) (c : Cache) (i j : ℕ) :
    ((writeBack ss c i).records j).writeDirty = if j = i then 0 else (c.records j).writeDirty := by
  unfold writeBack
  split_ifs with hdirty hji hji
  · simp [hji]
  · simp [hji]
  · rw [hji]
    exact not_not.mp hdirty
  · rfl

theorem sector_writeBack (ss : ℕ) (c : Cache) (i j : ℕ) :
    ((writeBack ss c i).records j).sector = (c.records j).sector := by
  unfold writeBack
  split_ifs
  · simp only [Function.update_apply]
    split_ifs with hji <;> simp [hji]
  · rfl

theorem writeBack_rest (ss : ℕ) (c : Cache) (i : ℕ) :
    (writeBack ss c i).sectorBuf = c.sectorBuf ∧ (writeBack ss c i).writeFlag = c.writeFlag ∧
      (writeBack ss c i).flushCounter = c.flushCounter := by
  unfold writeBack
  split_ifs <;> exact ⟨rfl, rfl, rfl⟩

theorem Sound.device_writeBack (h : Sound ss slack c m) (hss : SizeOk ss) (hi : i < cacheSize) :
    (writeBack ss c i).device.block 4096 = ((c.slots ss).clean i).store := by
  by_cases hdirty : (c.records i).writeDirty = 0
  · have hclean : (c.slots ss).dirty i = false := by simp [Cache.slots, hdirty]
    rw [writeBack, if_neg (not_not_intro hdirty), WriteBack.clean, hclean, if_neg (by decide),
      store_slots]
  · have hused : (c.records i).sector ≠ freeSector := fun hfree => hdirty (h.free i hi hfree)
    have htag : (c.slots ss).tag i = some ((c.records i).sector / indexLimit ss) :=
      tag_eq_some_iff.mpr ⟨hi, hused, rfl⟩
    have hstart : (c.records i).sector * ss = 4096 * ((c.records i).sector / indexLimit ss) := by
      rw [← hss.block_start, ← h.placed.sector_eq htag]
    have hset : (c.slots ss).dirty i = true := by simp [Cache.slots, hdirty]
    rw [writeBack, if_pos hdirty, WriteBack.clean, hset, if_pos rfl, htag, Option.elim_some,
      hstart, Nat.mul_comm i, Region.block_write_whole _ (Region.length_read _ _ _), line_slots,
      store_slots, Region.block]

/-- The slots after one of them was written back. -/
theorem Sound.slots_writeBack (h : Sound ss slack c m) (hss : SizeOk ss) (hi : i < cacheSize) :
    (writeBack ss c i).slots ss = (c.slots ss).clean i := by
  have htag : ((writeBack ss c i).slots ss).tag = (c.slots ss).tag := by
    simp only [Cache.slots, sector_writeBack]
  ext1
  · rw [htag, WriteBack.tag_clean]
  · funext j
    rw [WriteBack.dirty_clean, Function.update_apply]
    simp only [Cache.slots, writeDirty_writeBack]
    split_ifs <;> simp
  · rw [WriteBack.line_clean, line_slots, line_slots, (writeBack_rest ss c i).1]
  · rw [store_slots, h.device_writeBack hss hi]

theorem Sound.cleaned (h : Sound ss slack c m) (hss : SizeOk ss) (hi : i < cacheSize) :
    Sound ss slack (writeBack ss c i) m := by
  obtain ⟨-, hflag, hcounter⟩ := writeBack_rest ss c i
  refine ⟨?_, ?_, ?_, ?_, ?_, ?_⟩
  · simpa only [Placed, sector_writeBack] using h.placed
  · intro j hj hfree
    rw [sector_writeBack] at hfree
    rw [writeDirty_writeBack]
    split_ifs
    · rfl
    · exact h.free j hj hfree
  · intro j hj
    rw [writeDirty_writeBack, hflag]
    split_ifs
    · exact Nat.zero_le _
    · exact h.dirty j hj
  · rw [hflag, hcounter]
    exact h.flag
  · rw [hcounter]
    exact h.counter
  · rw [h.slots_writeBack hss hi]
    exact h.represents.clean i

/-! ### Flushing -/

theorem foldl_flushSlot (ss : ℕ) (l : List ℕ) (s : ℕ × Cache) :
    (l.foldl (flushSlot ss) s).2 = l.foldl (writeBack ss) s.2 := by
  induction l generalizing s with
  | nil => rfl
  | cons i l ih =>
      rw [List.foldl_cons, List.foldl_cons, ih, flushSlot]
      split_ifs with hdirty
      · rfl
      · rw [writeBack, if_neg hdirty]

theorem Sound.foldl_writeBack (h : Sound ss slack c m) (hss : SizeOk ss) {l : List ℕ}
    (hl : ∀ i ∈ l, i < cacheSize) :
    Sound ss slack (l.foldl (writeBack ss) c) m ∧
      (l.foldl (writeBack ss) c).slots ss = l.foldl WriteBack.clean (c.slots ss) ∧
      (l.foldl (writeBack ss) c).writeFlag = c.writeFlag ∧
      (l.foldl (writeBack ss) c).flushCounter = c.flushCounter := by
  induction l generalizing c with
  | nil => exact ⟨h, rfl, rfl, rfl⟩
  | cons i l ih =>
      have hi := hl i List.mem_cons_self
      obtain ⟨hsound, hslots, hflag, hcounter⟩ :=
        ih (h.cleaned hss hi) fun j hj => hl j (List.mem_cons_of_mem _ hj)
      obtain ⟨-, hflag', hcounter'⟩ := writeBack_rest ss c i
      refine ⟨hsound, ?_, hflag.trans hflag', hcounter.trans hcounter'⟩
      rw [List.foldl_cons, List.foldl_cons, hslots, h.slots_writeBack hss hi]

/-- What a flush does: the device has everything, and no slot changes hands. -/
structure Flushed (ss : ℕ) (c c' : Cache) (m : Region Byte) : Prop where
  sound : Sound ss 0 c' m
  device : c'.device = m
  tag : (c'.slots ss).tag = (c.slots ss).tag

/-- Once no slot is dirty, the counters may be reset. -/
theorem Sound.flushed (h : Sound ss slack c m) (hflag : c.writeFlag = 0)
    (hcounter : c.flushCounter = 0) (hclean : ∀ i < cacheSize, (c.records i).writeDirty = 0) :
    Sound ss 0 c m ∧ c.device = m := by
  refine ⟨{ h with flag := by omega }, ?_⟩
  refine Region.eq_of_block_eq (by norm_num) (h.represents.store_eq fun i hi => ?_)
  obtain ⟨k, hk⟩ := Option.ne_none_iff_exists'.mp hi
  simp [Cache.slots, hclean i (tag_eq_some_iff.mp hk).1]

theorem Sound.flush (h : Sound ss slack c m) (hss : SizeOk ss) :
    Flushed ss c (flushSectors ss c).2 m := by
  have hreset : Sound ss c.writeFlag { c with flushCounter := 0 } m :=
    { h with flag := Nat.le_add_left _ _, counter := Nat.succ_pos _ }
  unfold flushSectors
  dsimp only
  split_ifs with hflag
  · have hclean : ∀ i < cacheSize, (c.records i).writeDirty = 0 := fun i hi =>
      Nat.le_zero.mp (hflag ▸ h.dirty i hi)
    obtain ⟨hsound, hdevice⟩ := hreset.flushed hflag rfl hclean
    exact ⟨hsound, hdevice, rfl⟩
  · obtain ⟨hsound, hslots, hflag', hcounter⟩ :=
      hreset.foldl_writeBack hss (l := List.range cacheSize) fun i hi => List.mem_range.mp hi
    rw [foldl_flushSlot]
    generalize (List.range cacheSize).foldl (writeBack ss) _ = c₁ at *
    have hclean : ∀ i < cacheSize, (c₁.records i).writeDirty = 0 := by
      intro i hi
      have hdirty := WriteBack.dirty_foldl_clean
        (Cache.slots ss { c with flushCounter := 0 }) (List.range cacheSize) i
      rw [← hslots] at hdirty
      simpa [Cache.slots, hi] using hdirty
    have hzero : Sound ss c₁.writeFlag { c₁ with writeFlag := 0 } m :=
      { hsound with
        dirty := fun i hi => (hclean i hi).le
        flag := Nat.zero_le _ }
    obtain ⟨hsound', hdevice⟩ := hzero.flushed rfl hcounter hclean
    refine ⟨hsound', hdevice, ?_⟩
    exact (congrArg WriteBack.tag hslots).trans (WriteBack.tag_foldl_clean _ _)

theorem flushSectors_counter (ss : ℕ) (c : Cache) (n : ℕ) :
    flushSectors ss { c with flushCounter := n } = flushSectors ss c := by
  simp only [flushSectors]

/-- The write precaution counts the write that is ahead, or flushes. -/
theorem Sound.counted (h : Sound ss 1 c m) (hss : SizeOk ss) :
    Sound ss 0 (precaution ss c) m ∧ ((precaution ss c).slots ss).tag = (c.slots ss).tag := by
  have hcounter := h.counter
  unfold flushTrigger at hcounter
  have hmod : (c.flushCounter + 1) % 2 ^ 32 = c.flushCounter + 1 := Nat.mod_eq_of_lt (by omega)
  unfold precaution
  dsimp only
  rw [hmod]
  split_ifs with htrigger
  · rw [flushSectors_counter]
    have hflushed := h.flush hss
    exact ⟨hflushed.sound, hflushed.tag⟩
  · refine ⟨{ h with flag := h.flag, counter := ?_ }, rfl⟩
    exact Nat.lt_of_le_of_ne h.counter htrigger

/-! ### Slots change hands -/

/-- Slot `i` has the number of block `k`; the buffer may have changed as well. -/
structure Retagged (ss i k : ℕ) (c c' : Cache) : Prop where
  records : ∃ r : CacheRecord, c'.records = Function.update c.records i r ∧
    r.sector = k * indexLimit ss ∧ r.writeDirty = (c.records i).writeDirty
  flag : c'.writeFlag = c.writeFlag
  counter : c'.flushCounter = c.flushCounter
  device : c'.device = c.device

theorem Retagged.store (h : Retagged ss i k c c') (ptr : ℕ) (data : List Byte) :
    Retagged ss i k c (c'.store ptr data) := ⟨h.records, h.flag, h.counter, h.device⟩

/-- A slot that has the block already. -/
theorem Placed.retagged (hplaced : Placed ss c) (htag : (c.slots ss).tag i = some k) :
    Retagged ss i k c c :=
  ⟨⟨c.records i, (Function.update_eq_self i c.records).symm, hplaced.sector_eq htag, rfl⟩,
    rfl, rfl, rfl⟩

/-- `getIndexWrite` evicts a slot: it is written back and then given away. -/
theorem Sound.evicted (h : Sound ss slack c m) (hss : SizeOk ss) (k : ℕ) :
    ∃ i < cacheSize, (getIndexWrite ss c (k * indexLimit ss)).1 * ss = 4096 * i ∧
      (getIndexWrite ss c (k * indexLimit ss)).2.sectorBuf = c.sectorBuf ∧
      ∃ c₁, Sound ss slack c₁ m ∧ (c₁.slots ss).dirty i = false ∧
        (c₁.slots ss).tag = (c.slots ss).tag ∧ c₁.sectorBuf = c.sectorBuf ∧
        Retagged ss i k c₁ (getIndexWrite ss c (k * indexLimit ss)).2 := by
  have hi := cheapest_lt c.records
  unfold getIndexWrite
  dsimp only
  generalize cheapest c.records = i at *
  have hbuf := (writeBack_rest ss c i).1
  refine ⟨i, hi, hss.block_start i, hbuf, writeBack ss c i, h.cleaned hss hi, ?_, ?_,
    hbuf, ⟨_, rfl, rfl, rfl⟩, rfl, rfl, rfl⟩
  · simp [Cache.slots, writeDirty_writeBack]
  · rw [h.slots_writeBack hss hi, WriteBack.tag_clean]

theorem tag_retagged (hss : SizeOk ss) (hi : i < cacheSize) (hk : k * indexLimit ss < freeSector)
    {r : CacheRecord} (hr : r.sector = k * indexLimit ss)
    (hrecords : c'.records = Function.update c.records i r) :
    (c'.slots ss).tag = Function.update (c.slots ss).tag i (some k) := by
  funext j
  by_cases hji : j = i
  · rw [hji, Function.update_self, tag_eq_some_iff, hrecords, Function.update_self, hr,
      Nat.mul_div_cancel k hss.limit_pos]
    exact ⟨hi, hk.ne, rfl⟩
  · rw [Function.update_of_ne hji]
    simp only [Cache.slots, hrecords, Function.update_of_ne hji]

theorem Placed.update (h : Placed ss c) (hk : k * indexLimit ss < freeSector) {r : CacheRecord}
    (hr : r.sector = k * indexLimit ss)
    (hrecords : c'.records = Function.update c.records i r) : Placed ss c' := by
  intro j hj hused
  rw [hrecords] at hused ⊢
  by_cases hji : j = i
  · rw [hji, Function.update_self, hr]
    exact ⟨Nat.dvd_mul_left _ _, hk⟩
  · rw [Function.update_of_ne hji] at hused ⊢
    exact h j hj hused

/-- A slot that is given to block `k`: what is left to show is what the cache stands for. -/
theorem Sound.update {slack' : ℕ} {m' : Region Byte} (h : Sound ss slack c m)
    (hk : k * indexLimit ss < freeSector) {r : CacheRecord} (hr : r.sector = k * indexLimit ss)
    (hrecords : c'.records = Function.update c.records i r) (hdirty : r.writeDirty ≤ c'.writeFlag)
    (hflag : c.writeFlag ≤ c'.writeFlag) (hslack : c'.writeFlag ≤ c'.flushCounter + slack')
    (hcounter : c'.flushCounter = c.flushCounter)
    (hrep : (c'.slots ss).Represents (m'.block 4096)) : Sound ss slack' c' m' := by
  refine ⟨h.placed.update hk hr hrecords, fun j hj hfree => ?_, fun j hj => ?_, hslack,
    hcounter ▸ h.counter, hrep⟩
  · rw [hrecords] at hfree ⊢
    by_cases hji : j = i
    · rw [hji, Function.update_self, hr] at hfree
      exact absurd hfree hk.ne
    · rw [Function.update_of_ne hji] at hfree ⊢
      exact h.free j hj hfree
  · rw [hrecords]
    by_cases hji : j = i
    · rw [hji, Function.update_self]
      exact hdirty
    · rw [Function.update_of_ne hji]
      exact (h.dirty j hj).trans hflag

/-- The evicted slot is filled from the device. -/
theorem Sound.load (h : Sound ss slack c m) (hss : SizeOk ss) (hi : i < cacheSize)
    (hk : k * indexLimit ss < freeSector) (hclean : (c.slots ss).dirty i = false)
    (habsent : (c.slots ss).Absent k) (hretag : Retagged ss i k c c')
    (hbuf : c'.sectorBuf = c.sectorBuf) :
    Sound ss slack (c'.store (4096 * i) (c'.device.read (4096 * k) 4096)) m ∧
      ((c'.store (4096 * i) (c'.device.read (4096 * k) 4096)).slots ss).tag i = some k := by
  obtain ⟨r, hrecords, hsector, hdirty⟩ := hretag.records
  have hslots : (c'.store (4096 * i) (c'.device.read (4096 * k) 4096)).slots ss =
      (c.slots ss).load i k := by
    ext1
    · exact tag_retagged hss hi hk hsector hrecords
    · funext j
      by_cases hji : j = i
      · simp [Cache.slots, Cache.store, WriteBack.load, hrecords, hji, hdirty]
      · simp [Cache.slots, Cache.store, WriteBack.load, hrecords, hji]
    · rw [line_slots, Cache.store, Region.block_write_whole _ (Region.length_read _ _ _),
        hbuf, hretag.device, WriteBack.load, line_slots, store_slots, Region.block]
    · rw [store_slots, Cache.store, hretag.device, WriteBack.load, store_slots]
  refine ⟨h.update hk hsector hrecords ?_ hretag.flag.ge ?_ hretag.counter ?_, ?_⟩
  · rw [hdirty, Cache.store, hretag.flag]
    exact h.dirty i hi
  · rw [Cache.store, hretag.flag, hretag.counter]
    exact h.flag
  · rw [hslots]
    exact h.represents.load hclean habsent
  · rw [hslots]
    exact Function.update_self _ _ _

/-- A slot that holds block `k`, or a clean one if no slot does, has got new content for
the block and is counted as written. -/
theorem Sound.marked (h : Sound ss 0 c m) (hss : SizeOk ss) (hi : i < cacheSize)
    (hk : k * indexLimit ss < freeSector)
    (hslot : (c.slots ss).tag i = some k ∨ (c.slots ss).dirty i = false ∧ (c.slots ss).Absent k)
    (hretag : Retagged ss i k c c') {o : ℕ} {data : List Byte} (hfit : o + data.length ≤ 4096)
    (hbuf : c'.sectorBuf = c.sectorBuf.write (4096 * i + o) data) :
    Sound ss 1 (markDirty c' i) (m.write (4096 * k) (c'.sectorBuf.block 4096 i)) ∧
      ((markDirty c' i).slots ss).tag i = some k := by
  obtain ⟨r, hrecords, hsector, hdirty⟩ := hretag.records
  have hrecord : c'.records i = r := by rw [hrecords, Function.update_self]
  have hbound : (c.records i).writeDirty ≤ c.writeFlag := h.dirty i hi
  have hflag : c.writeFlag ≤ c.flushCounter := h.flag
  have hcounter : c.flushCounter < 16 := h.counter
  -- neither of the counters wraps
  have hdirty' : (r.writeDirty + 1) % 256 = (c.records i).writeDirty + 1 := by
    rw [hdirty, Nat.mod_eq_of_lt (by omega)]
  have hflag' : (markDirty c' i).writeFlag = c.writeFlag + 1 := by
    rw [markDirty, hretag.flag]
    exact Nat.mod_eq_of_lt (by omega)
  obtain ⟨r', hsector', hcount, hupdate⟩ : ∃ r' : CacheRecord, r'.sector = k * indexLimit ss ∧
      r'.writeDirty = (c.records i).writeDirty + 1 ∧
      (markDirty c' i).records = Function.update c.records i r' := by
    refine ⟨{ r with tax := r.tax + 2, writeDirty := (r.writeDirty + 1) % 256 }, hsector,
      hdirty', ?_⟩
    rw [markDirty]
    dsimp only
    rw [hrecord, hrecords, Function.update_idem]
  have hslots : (markDirty c' i).slots ss =
      (c.slots ss).put i k (c'.sectorBuf.block 4096 i) := by
    ext1
    · exact tag_retagged hss hi hk hsector' hupdate
    · funext j
      by_cases hji : j = i
      · simp [Cache.slots, WriteBack.put, hupdate, hji, hcount]
      · simp [Cache.slots, WriteBack.put, hupdate, hji]
    · rw [line_slots, markDirty, WriteBack.put, line_slots, hbuf]
      exact Region.block_write c.sectorBuf hfit
    · rw [store_slots, markDirty, WriteBack.put, store_slots, hretag.device]
  refine ⟨h.update hk hsector' hupdate (by omega) (by omega) ?_ hretag.counter ?_, ?_⟩
  · rw [hflag', markDirty, hretag.counter]
    omega
  · rw [hslots, Region.block_write_whole m (Region.length_block _ _ _)]
    exact h.represents.put hslot _
  · rw [hslots]
    exact Function.update_self _ _ _

/-! ### The functions of the interface -/

theorem div_mul_lt_freeSector (hs : s < freeSector) (n : ℕ) : s / n * n < freeSector :=
  (Nat.div_mul_le_self s n).trans_lt hs

/-- `scache_readSector` leaves the sector in the slot that its pointer leads to. -/
theorem Sound.read (h : Sound ss 0 c m) (hss : SizeOk ss) (hs : s < freeSector) :
    ∃ i, (readSector ss c s).1 = 4096 * i + s % indexLimit ss * ss ∧
      Sound ss 0 (readSector ss c s).2 m ∧
      ((readSector ss c s).2.slots ss).tag i = some (s / indexLimit ss) := by
  have hk := div_mul_lt_freeSector hs (indexLimit ss)
  set c₀ : Cache := { c with cacheAccess := (c.cacheAccess + 1) % 2 ^ 32 } with hc₀
  have hsound₀ : Sound ss 0 c₀ m :=
    h.alike ⟨fun _ => rfl, fun _ => rfl, rfl, rfl, rfl, rfl⟩
  have halike := alike_getIndexRead ss c₀ s
  unfold readSector
  rw [← hc₀]
  rcases hread : getIndexRead ss c₀ s with ⟨_ | index, c₁⟩
  · rw [hread] at halike
    have hsound₁ := hsound₀.alike halike
    have habsent := hsound₀.absent_of_none hss hs (by rw [hread])
    obtain ⟨i, hi, hptr, hbuf, c₂, hsound₂, hclean, htag, hbuf₂, hretag⟩ :=
      hsound₁.evicted hss (s / indexLimit ss)
    dsimp only
    have habsent₂ : (c₂.slots ss).Absent (s / indexLimit ss) := by
      rwa [WriteBack.Absent, htag, halike.slots_eq]
    rw [hptr, hss.block_start]
    obtain ⟨hsound₃, htag₃⟩ := hsound₂.load hss hi hk hclean habsent₂ hretag (hbuf.trans hbuf₂.symm)
    obtain ⟨hsound₄, htag₄⟩ := hsound₃.weaken.counted hss
    exact ⟨i, rfl, hsound₄, htag₄ ▸ htag₃⟩
  · rw [hread] at halike
    obtain ⟨i, htag, hptr⟩ := hsound₀.index_of_some hss hs (by rw [hread])
    have halike' : Alike c₀ { c₁ with cacheHits := (c₁.cacheHits + 1) % 2 ^ 32 } :=
      ⟨halike.sector, halike.dirty, halike.buf, halike.flag, halike.counter, halike.device⟩
    exact ⟨i, hptr, hsound₀.alike halike', by rw [halike'.slots_eq, htag]⟩

/-- `scache_writeSector` behind a change of the sector in its slot. -/
theorem Sound.written (h : Sound ss 0 c m) (hss : SizeOk ss) (hs : s < freeSector)
    (hi : i < cacheSize)
    (hslot : (c.slots ss).tag i = some (s / indexLimit ss) ∨
      (c.slots ss).dirty i = false ∧ (c.slots ss).Absent (s / indexLimit ss))
    (hretag : Retagged ss i (s / indexLimit ss) c c') {o : ℕ} {data : List Byte}
    (hfit : o + data.length ≤ 4096) (hbuf : c'.sectorBuf = c.sectorBuf.write (4096 * i + o) data) :
    ∃ c'', writeSector ss c' s = some c'' ∧
      Sound ss 0 c'' (m.write (4096 * (s / indexLimit ss)) (c'.sectorBuf.block 4096 i)) ∧
      (c''.slots ss).tag i = some (s / indexLimit ss) := by
  have hk := div_mul_lt_freeSector hs (indexLimit ss)
  obtain ⟨r, hrecords, hsector, hdirty⟩ := hretag.records
  have htag := tag_retagged hss hi hk hsector hrecords
  have hfound : getSlot ss c' s = some i := by
    refine getSlot_eq (h.placed.update hk hsector hrecords) hss hs ?_ fun j hj => ?_
    · rw [htag, Function.update_self]
    · by_contra hji
      rw [htag, Function.update_of_ne hji] at hj
      rcases hslot with hi' | ⟨-, habsent⟩
      · exact hji (h.represents.distinct j i _ hj hi')
      · exact habsent j hj
  obtain ⟨hsound, htag'⟩ := h.marked hss hi hk hslot hretag hfit hbuf
  obtain ⟨hsound', hkept⟩ := hsound.counted hss
  exact ⟨_, by rw [writeSector, hfound, Option.map_some], hsound', hkept ▸ htag'⟩

/-- A change of a sector through the cache is a change of the device. -/
theorem Sound.changed (h : Sound ss 0 c m) (hss : SizeOk ss) (hs : s < freeSector) {off : ℕ}
    {data : List Byte} (hoff : off + data.length ≤ ss) :
    ∃ c', changeSector ss c s off data = some c' ∧ Sound ss 0 c' (m.write (s * ss + off) data) := by
  obtain ⟨i, hptr, hsound, htag⟩ := h.read hss hs
  unfold changeSector
  generalize readSector ss c s = found at *
  obtain ⟨ptr, c₁⟩ := found
  dsimp only at hptr hsound htag ⊢
  have hi := (tag_eq_some_iff.mp htag).1
  have hroom := hss.sector_add_le s
  have hfit : s % indexLimit ss * ss + off + data.length ≤ 4096 := by omega
  have hline : c₁.sectorBuf.block 4096 i = m.block 4096 (s / indexLimit ss) :=
    hsound.represents.line i _ htag
  rw [hptr, Nat.add_assoc]
  obtain ⟨c', hwrite, hsound', -⟩ := hsound.written hss hs hi (.inl htag)
    ((hsound.placed.retagged htag).store _ data) hfit rfl
  refine ⟨c', hwrite, ?_⟩
  rwa [Cache.store, Region.write_block_write hline hfit (by norm_num), ← Nat.add_assoc,
    hss.sector_start] at hsound'

end Ps2rd.UsbMass
