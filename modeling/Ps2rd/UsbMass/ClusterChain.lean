import Ps2rd.Lib.LinkTable
import Ps2rd.UsbMass.FatDriver
import Ps2rd.UsbMass.Transparent

/-!
# Cluster chains as they are on the disk

`fat_getClusterChain` leaves in `cbuf` what the links of the FAT on the disk say, for the
three kinds of FAT.  Two things can go wrong.  The FAT12 loop keeps the second of the two
sectors that a record lies in, but remembers the number of the first, so the next cluster must
not have its record in the first one (`Bpb.Follows`).  And the FAT32 loop looks up the next
record with the upper four bits of a record, so these must be zero.
-/

namespace Ps2rd.UsbMass

open LinkTable

variable {ss : ℕ} {disk : Region Byte} {d : Driver} {bpb : Bpb}

/-! ### Sectors -/

/-- `sbuf` leads to the sector. -/
def Driver.Holds (ss : ℕ) (d : Driver) (disk : Region Byte) (sector : ℕ) : Prop :=
  ∀ i < ss, d.buf i = disk (sector * ss + i)

theorem Driver.Holds.read {sector off n : ℕ} (h : d.Holds ss disk sector) (hfit : off + n ≤ ss) :
    d.buf.read off n = disk.read (sector * ss + off) n := by
  refine List.map_congr_left fun i hi => ?_
  rw [h (off + i) (by have := List.mem_range.mp hi; omega), Nat.add_assoc]

/-- `READ_SECTOR` through the cache. -/
theorem Driver.readSector_spec (hss : SizeOk ss) (h : Sound ss 0 d.cache disk) {sector : ℕ}
    (hs : sector < freeSector) :
    Sound ss 0 (d.readSector ss sector).cache disk ∧
      (d.readSector ss sector).Holds ss disk sector := by
  have hmod : sector % 2 ^ 32 = sector :=
    Nat.mod_eq_of_lt (hs.trans (by norm_num [freeSector]))
  obtain ⟨c, hperform, hsound⟩ := h.perform hss (a := .read sector) hs
  simp only [Access.perform, Access.direct, Option.some.injEq, Prod.mk.injEq] at hperform
  obtain ⟨hbytes, rfl⟩ := hperform
  rw [Driver.readSector, hmod]
  refine ⟨hsound, fun i hi => ?_⟩
  have hi' : i < (Region.read (UsbMass.readSector ss d.cache sector).2.sectorBuf
      (UsbMass.readSector ss d.cache sector).1 ss).length := by simpa using hi
  have hbyte := List.getElem_of_eq hbytes hi'
  rw [Region.getElem_read, Region.getElem_read] at hbyte
  exact hbyte

@[simp]
theorem Driver.readSector_cbuf (ss : ℕ) (d : Driver) (sector : ℕ) :
    (d.readSector ss sector).cbuf = d.cbuf := rfl

/-! ### The FAT on the disk -/

namespace Bpb

/-- The byte of the disk where the FAT starts. -/
def fatStart (bpb : Bpb) : ℕ := (bpb.partStart + bpb.resSectors) * bpb.sectorSize

/-- Where the record of a cluster starts in the FAT. -/
def recordOffset (bpb : Bpb) (c : ℕ) : ℕ :=
  match bpb.fatType with
  | .fat12 => c * 3 / 2
  | .fat16 => c * 2
  | .fat32 => c * 4

/-- The link of a cluster. -/
def link (bpb : Bpb) (disk : Region Byte) (c : ℕ) : ℕ :=
  match bpb.fatType with
  | .fat12 => fatGetClusterRecord12 disk (bpb.fatStart + bpb.recordOffset c) (c % 2)
  | .fat16 => disk.u16 (bpb.fatStart + bpb.recordOffset c)
  | .fat32 => disk.u32 (bpb.fatStart + bpb.recordOffset c)

/-- The end marks. -/
def isEnd (bpb : Bpb) (v : ℕ) : Bool :=
  match bpb.fatType with
  | .fat12 => decide (0xFF8 ≤ v)
  | .fat16 => decide (0xFFF8 ≤ v)
  | .fat32 => decide (0xFFFFFF8 ≤ v % 2 ^ 28)

/-- The record lies in two sectors. -/
def Spans (bpb : Bpb) (c : ℕ) : Prop :=
  bpb.fatType = .fat12 ∧ bpb.recordOffset c % bpb.sectorSize = bpb.sectorSize - 1

/-- One cluster behind another one: the sector that the driver thinks it has is not needed. -/
def Follows (bpb : Bpb) (c c' : ℕ) : Prop :=
  bpb.Spans c → bpb.recordOffset c' / bpb.sectorSize ≠ bpb.recordOffset c / bpb.sectorSize

/-- The first sector of the data. -/
def dataStart (bpb : Bpb) : ℕ :=
  match bpb.fatType with
  | .fat32 => bpb.rootDirStart
  | _ => bpb.rootDirStart + bpb.rootSize / (bpb.sectorSize / 32)

/-- A cluster whose record and whose data are on the disk. -/
structure ClusterOk (bpb : Bpb) (c : ℕ) : Prop where
  two_le : 2 ≤ c
  small : c < 2 ^ 28
  fat : bpb.partStart + bpb.resSectors + c * 4 / bpb.sectorSize + 1 < freeSector
  data : bpb.dataStart + bpb.clusterSize * (c - 2) + bpb.clusterSize ≤ freeSector

/-- A chain that can be followed. -/
structure IsChain (bpb : Bpb) (disk : Region Byte) (c : ℕ) (l : List ℕ) : Prop where
  chain : Chain (bpb.link disk) (fun v => bpb.isEnd v = true) c l
  ok : ∀ c ∈ l, bpb.ClusterOk c
  follows : l.IsChain bpb.Follows

/-- The function that reads a record, and what is stored of it. -/
def fetch (ss : ℕ) (bpb : Bpb) (w : Walk) : Walk :=
  match bpb.fatType with
  | .fat12 => fetchRecord12 ss bpb w
  | .fat16 => fetchRecord ss bpb 2 w
  | .fat32 => fetchRecord ss bpb 4 w

def entry (bpb : Bpb) (c : ℕ) : ℕ :=
  match bpb.fatType with
  | .fat32 => c % 2 ^ 28
  | _ => c

end Bpb

theorem Bpb.IsChain.isEnd_link {c : ℕ} (h : bpb.IsChain disk c [c]) :
    bpb.isEnd (bpb.link disk c) = true := by
  cases h.chain with
  | last hend => exact hend
  | link _ hl => exact absurd hl.exists_cons (by simp)

/-- The next cluster of a chain. -/
theorem Bpb.IsChain.next {c c' : ℕ} {t : List ℕ} (h : bpb.IsChain disk c (c :: c' :: t)) :
    bpb.isEnd c' = false ∧ bpb.link disk c = c' ∧ bpb.Follows c c' ∧
      bpb.IsChain disk c' (c' :: t) := by
  cases h.chain with
  | link hnext hl =>
      obtain ⟨_, hcons⟩ := hl.exists_cons
      obtain ⟨hc', -⟩ := List.cons.inj hcons
      rw [← hc'] at hnext hl
      obtain ⟨hfollows, hrest⟩ := List.isChain_cons_cons.mp h.follows
      exact ⟨by simpa using hnext, hc'.symm, hfollows,
        hl, fun x hx => h.ok x (List.mem_cons_of_mem _ hx), hrest⟩

/-- The chain from a later cluster on. -/
theorem Bpb.IsChain.drop {c x k : ℕ} {l : List ℕ} (h : bpb.IsChain disk c l)
    (hx : l[k]? = some x) : bpb.IsChain disk x (l.drop k) :=
  ⟨h.chain.drop hx, fun y hy => h.ok y (List.mem_of_mem_drop hy), h.follows.drop k⟩

theorem Bpb.ClusterOk.entry {c : ℕ} (h : bpb.ClusterOk c) : bpb.entry c = c := by
  unfold Bpb.entry
  split
  · exact Nat.mod_eq_of_lt h.small
  · rfl

/-- The sector of the record, as the driver has it while it follows a chain. -/
structure Ready (ss : ℕ) (bpb : Bpb) (disk : Region Byte) (w : Walk) : Prop where
  sound : Sound ss 0 w.d.cache disk
  holds : w.lastFatSector = some (bpb.recordOffset w.cluster / bpb.sectorSize) →
    ¬ bpb.Spans w.cluster →
    w.d.Holds ss disk (bpb.partStart + bpb.resSectors + bpb.recordOffset w.cluster / bpb.sectorSize)

/-! ### One record -/

/-- What reading the record of a cluster does. -/
structure Fetched (ss : ℕ) (bpb : Bpb) (disk : Region Byte) (w w' : Walk) : Prop where
  cluster : w'.cluster = bpb.link disk w.cluster
  sound : Sound ss 0 w'.d.cache disk
  last : w'.lastFatSector = some (bpb.recordOffset w.cluster / bpb.sectorSize)
  holds : ¬ bpb.Spans w.cluster →
    w'.d.Holds ss disk (bpb.partStart + bpb.resSectors + bpb.recordOffset w.cluster / bpb.sectorSize)
  cbuf : w'.d.cbuf = w.d.cbuf

theorem Fetched.ready {w w' : Walk} (h : Fetched ss bpb disk w w')
    (hfollows : bpb.Follows w.cluster w'.cluster) : Ready ss bpb disk w' := by
  refine ⟨h.sound, fun hlast _ => ?_⟩
  rw [h.last, Option.some.injEq] at hlast
  rw [← hlast]
  exact h.holds fun hspans => hfollows hspans hlast.symm

theorem SizeOk.entries_dvd (hss : SizeOk ss) : 32 ∣ ss := by
  obtain ⟨k, hk⟩ := hss.dvd
  have hle := hss.le
  have hk8 : k ≤ 8 := by
    by_contra hlt
    have : 512 * 9 ≤ ss * k := Nat.mul_le_mul hle (by omega)
    omega
  interval_cases k <;> omega

section Records

variable (hss : SizeOk ss) (hsize : bpb.sectorSize = ss) {w : Walk}

include hss hsize

/-- The sector of the record is read, if the driver does not have it. -/
theorem Ready.sector (hready : Ready ss bpb disk w) (hok : bpb.ClusterOk w.cluster) {f : ℕ}
    (hf : f = bpb.recordOffset w.cluster / ss) (hle : bpb.recordOffset w.cluster ≤ w.cluster * 4)
    (hspans : ¬ bpb.Spans w.cluster) :
    ∀ d', d' = (if w.lastFatSector ≠ some f then
        w.d.readSector ss (bpb.partStart + bpb.resSectors + f) else w.d) →
      Sound ss 0 d'.cache disk ∧ d'.Holds ss disk (bpb.partStart + bpb.resSectors + f) ∧
        d'.cbuf = w.d.cbuf := by
  rintro d' rfl
  split_ifs with hlast
  · have hfit : bpb.partStart + bpb.resSectors + f < freeSector := by
      have hfat := hok.fat
      have hdiv : f ≤ w.cluster * 4 / ss := hf ▸ Nat.div_le_div_right hle
      rw [hsize] at hfat
      omega
    obtain ⟨hsound, hholds⟩ := Driver.readSector_spec hss hready.sound hfit
    exact ⟨hsound, hholds, rfl⟩
  · have hholds := hready.holds (by rw [hsize, ← hf]; exact not_not.mp hlast) hspans
    rw [hsize, ← hf] at hholds
    exact ⟨hready.sound, hholds, rfl⟩

/-- A record of 2 or 4 bytes. -/
theorem fetchRecord_spec {width : ℕ} (hwidth : width ∣ ss) (hpos : 0 < width) (hle : width ≤ 4)
    (hoff : bpb.recordOffset w.cluster = w.cluster * width)
    (hlink : bpb.link disk w.cluster =
      Region.leNat (disk.read (bpb.fatStart + bpb.recordOffset w.cluster) width))
    (hspans : ¬ bpb.Spans w.cluster) (hready : Ready ss bpb disk w)
    (hok : bpb.ClusterOk w.cluster) : Fetched ss bpb disk w (fetchRecord ss bpb width w) := by
  obtain ⟨n, rfl⟩ := hwidth
  have hn : width * n / width = n := Nat.mul_div_cancel_left n hpos
  have hnpos : 0 < n := Nat.pos_of_mul_pos_left ((by norm_num : 0 < 512).trans_le hss.le)
  have hf : w.cluster / n = bpb.recordOffset w.cluster / (width * n) := by
    rw [hoff, Nat.mul_comm w.cluster, Nat.mul_div_mul_left _ _ hpos]
  obtain ⟨hsound, hholds, hcbuf⟩ := hready.sector hss hsize hok hf
    (hoff ▸ Nat.mul_le_mul_left _ hle) hspans _ rfl
  have hfit : w.cluster % n * width + width ≤ width * n := by
    calc w.cluster % n * width + width = width * (w.cluster % n + 1) := by ring
      _ ≤ width * n := Nat.mul_le_mul_left _ (Nat.mod_lt _ hnpos)
  have hplace : (bpb.partStart + bpb.resSectors + w.cluster / n) * (width * n) +
      w.cluster % n * width = bpb.fatStart + bpb.recordOffset w.cluster := by
    have hdiv := Nat.div_add_mod w.cluster n
    calc _ = (bpb.partStart + bpb.resSectors) * (width * n) +
          (n * (w.cluster / n) + w.cluster % n) * width := by ring
      _ = bpb.fatStart + bpb.recordOffset w.cluster := by rw [hdiv, Bpb.fatStart, hsize, hoff]
  unfold fetchRecord
  rw [hsize, hn]
  refine ⟨?_, hsound, ?_, fun _ => ?_, hcbuf⟩
  · dsimp only
    rw [hholds.read hfit, hplace, hlink]
  · dsimp only
    rw [hf, hsize]
  · rw [hsize, ← hf]
    exact hholds

omit hss hsize in
theorem record12_congr {r r' : Region Byte} {o o' : ℕ} (h₀ : r o = r' o') (h₁ : r (o + 1) = r' (o' + 1))
    (type : ℕ) : fatGetClusterRecord12 r o type = fatGetClusterRecord12 r' o' type := by
  rw [fatGetClusterRecord12, fatGetClusterRecord12, h₀, h₁]

/-- A record of a FAT12. -/
theorem fetchRecord12_spec (htype : bpb.fatType = .fat12) (hready : Ready ss bpb disk w)
    (hok : bpb.ClusterOk w.cluster) : Fetched ss bpb disk w (fetchRecord12 ss bpb w) := by
  have hoff : bpb.recordOffset w.cluster = w.cluster * 3 / 2 := by rw [Bpb.recordOffset, htype]
  have hlink : bpb.link disk w.cluster = fatGetClusterRecord12 disk
      (bpb.fatStart + bpb.recordOffset w.cluster) (w.cluster % 2) := by rw [Bpb.link, htype]
  have hmod : w.cluster * 3 % 2 ^ 32 / 2 = bpb.recordOffset w.cluster := by
    have := hok.small
    rw [hoff, Nat.mod_eq_of_lt (by omega)]
  have hle : bpb.recordOffset w.cluster ≤ w.cluster * 4 := by omega
  have hpos := hss.le
  have hlt : bpb.recordOffset w.cluster % ss < ss := Nat.mod_lt _ (by omega)
  have hplace : (bpb.partStart + bpb.resSectors + bpb.recordOffset w.cluster / ss) * ss +
      bpb.recordOffset w.cluster % ss = bpb.fatStart + bpb.recordOffset w.cluster := by
    have hdiv := Nat.div_add_mod' (bpb.recordOffset w.cluster) ss
    rw [Bpb.fatStart, hsize, Nat.add_mul, Nat.add_assoc, hdiv]
  unfold fetchRecord12
  rw [hsize, hmod]
  dsimp only
  by_cases hspan : bpb.recordOffset w.cluster % ss = ss - 1
  · -- both sectors are read, whatever the driver has
    have hfat := hok.fat
    have hdiv : bpb.recordOffset w.cluster / ss ≤ w.cluster * 4 / ss := Nat.div_le_div_right hle
    rw [hsize] at hfat
    rw [if_pos hspan, if_pos (.inr hspan)]
    obtain ⟨hsound, hholds⟩ := Driver.readSector_spec hss hready.sound
      (show bpb.partStart + bpb.resSectors + bpb.recordOffset w.cluster / ss < freeSector by omega)
    obtain ⟨hsound₂, hholds₂⟩ := Driver.readSector_spec hss hsound
      (show bpb.partStart + bpb.resSectors + bpb.recordOffset w.cluster / ss + 1 < freeSector by
        omega)
    refine ⟨?_, hsound₂, by rw [hsize], fun hnot => absurd ⟨htype, by rw [hsize, hspan]⟩ hnot, rfl⟩
    dsimp only
    rw [hlink]
    refine record12_congr ?_ ?_ _
    · rw [if_pos (by omega), hholds _ (by omega), ← hplace, hspan]
      congr 1
      omega
    · rw [if_neg (by omega), hholds₂ _ (by omega), ← hplace, hspan]
      congr 1
      rw [Nat.add_mul]
      omega
  · have hnot : ¬ bpb.Spans w.cluster := fun hspans => hspan (by rw [← hsize]; exact hspans.2)
    rw [if_neg hspan]
    simp only [hspan, or_false]
    obtain ⟨hsound, hholds, hcbuf⟩ := hready.sector hss hsize hok rfl hle hnot _ rfl
    refine ⟨?_, hsound, by rw [hsize], fun _ => by rw [hsize]; exact hholds, hcbuf⟩
    dsimp only
    rw [hlink]
    refine record12_congr ?_ ?_ _
    · rw [hholds _ hlt, hplace]
    · rw [hholds _ (by omega), ← Nat.add_assoc, hplace]

/-- A record is read as it is on the disk. -/
theorem fetch_spec (hready : Ready ss bpb disk w) (hok : bpb.ClusterOk w.cluster) :
    Fetched ss bpb disk w (bpb.fetch ss w) := by
  have hdvd : 4 ∣ ss := (by norm_num : 4 ∣ 32).trans hss.entries_dvd
  have hnot : bpb.fatType ≠ .fat12 → ¬ bpb.Spans w.cluster := fun hne hspans => hne hspans.1
  unfold Bpb.fetch
  split
  · exact fetchRecord12_spec hss hsize ‹_› hready hok
  · rename_i htype
    exact fetchRecord_spec hss hsize ((by norm_num : 2 ∣ 4).trans hdvd) (by norm_num) (by norm_num)
      (by rw [Bpb.recordOffset, htype]) (by rw [Bpb.link, htype]; rfl)
      (hnot (by simp [htype])) hready hok
  · rename_i htype
    exact fetchRecord_spec hss hsize hdvd (by norm_num) le_rfl
      (by rw [Bpb.recordOffset, htype]) (by rw [Bpb.link, htype]; rfl)
      (hnot (by simp [htype])) hready hok

/-! ### Parts of a chain -/

/-- The loop stores the clusters behind the first one, as many as there is room for. -/
theorem chainLoop_spec {t : List ℕ} (hchain : bpb.IsChain disk w.cluster (w.cluster :: t))
    (hready : Ready ss bpb disk w) (n i : ℕ) :
    ∃ d', chainLoop (bpb.fetch ss) bpb.isEnd bpb.entry n i w =
        (if t.length < n then ((i + t.length : ℕ) : ℤ) else 0, d') ∧
      Sound ss 0 d'.cache disk ∧ d'.cbuf = w.d.cbuf.write i (t.take n) := by
  induction n generalizing w t i with
  | zero => exact ⟨w.d, rfl, hready.sound, by rw [List.take_zero, Region.write_nil]⟩
  | succ n ih =>
      have hfetched := fetch_spec hss hsize hready (hchain.ok w.cluster (by simp))
      rw [chainLoop]
      generalize bpb.fetch ss w = w' at *
      cases t with
      | nil =>
          refine ⟨w'.d, ?_, hfetched.sound, ?_⟩
          · rw [hfetched.cluster]
            simp [hchain.isEnd_link]
          · rw [hfetched.cbuf, List.take_nil, Region.write_nil]
      | cons c t =>
          obtain ⟨hnext, hlink, hfollows, hrest⟩ := hchain.next
          have hcluster : w'.cluster = c := hfetched.cluster.trans hlink
          have hready' := hfetched.ready (hcluster ▸ hfollows)
          rw [← hcluster] at hnext hrest
          obtain ⟨d', hloop, hsound, hcbuf⟩ := ih
            (w := { w' with d := { w'.d with cbuf := w'.d.cbuf.write i [bpb.entry w'.cluster] } })
            hrest ⟨hready'.sound, hready'.holds⟩ (i + 1)
          refine ⟨d', ?_, hsound, ?_⟩
          · rw [hnext, if_neg (by decide), hloop, List.length_cons, Nat.add_right_comm i 1,
              Nat.add_assoc i]
            simp only [Nat.add_lt_add_iff_right]
          · have hentry := (hrest.ok w'.cluster (by simp)).entry
            rw [hcbuf, hentry, hfetched.cbuf, hcluster, List.take_succ_cons]
            exact Region.write_append _ i [c] (t.take n)

omit hss hsize in
theorem fatGetClusterChain_of_ne {c : ℕ} (hne : c ≠ d.lastChainCluster) (start : Bool) :
    fatGetClusterChain ss bpb d c start =
      ((clusterChain (bpb.fetch ss) bpb.isEnd bpb.entry d c start).1,
        { (clusterChain (bpb.fetch ss) bpb.isEnd bpb.entry d c start).2 with
          lastChainCluster := c
          lastChainResult := (clusterChain (bpb.fetch ss) bpb.isEnd bpb.entry d c start).1 }) := by
  rw [fatGetClusterChain, if_neg hne]
  obtain ⟨_, _, _, _, _, _, _, fatType⟩ := bpb
  cases fatType <;> rfl

end Records

/-- What `fat_getClusterChain` returns for a part. -/
def chainResult (q : List ℕ) : ℤ := if q.length < maxDirCluster then q.length else 0

/-- The part `q` of a chain is in `cbuf`, as the one for the cluster `c`. -/
structure Driver.HasPart (ss : ℕ) (d : Driver) (disk : Region Byte) (c : ℕ) (q : List ℕ) :
    Prop where
  sound : Sound ss 0 d.cache disk
  cluster : d.lastChainCluster = c
  result : d.lastChainResult = chainResult q
  stored : d.cbuf.read 0 (q.take maxDirCluster).length = q.take maxDirCluster

variable {c : ℕ} {t q : List ℕ}

theorem Driver.HasPart.getClusterChain (h : d.HasPart ss disk c q) (start : Bool) :
    fatGetClusterChain ss bpb d c start = (chainResult q, d) := by
  rw [fatGetClusterChain, if_pos h.cluster.symm, h.result]

theorem clusterChain_spec (hss : SizeOk ss) (hsize : bpb.sectorSize = ss)
    (hchain : bpb.IsChain disk c (c :: t)) (hsound : Sound ss 0 d.cache disk) (start : Bool) :
    ∃ d', clusterChain (bpb.fetch ss) bpb.isEnd bpb.entry d c start =
        (chainResult (if start then c :: t else t), d') ∧ Sound ss 0 d'.cache disk ∧
      d'.cbuf = d.cbuf.write 0 ((if start then c :: t else t).take maxDirCluster) := by
  have hready : ∀ cbuf, Ready ss bpb disk ⟨{ d with cbuf := cbuf }, c, none⟩ := fun _ =>
    ⟨hsound, nofun⟩
  cases start with
  | true =>
      obtain ⟨d', hloop, hsound', hcbuf⟩ := chainLoop_spec hss hsize
        (w := ⟨{ d with cbuf := d.cbuf.write 0 [c] }, c, none⟩) hchain (hready _)
        (maxDirCluster - 1) 1
      refine ⟨d', ?_, hsound', ?_⟩
      · rw [clusterChain, if_pos rfl, hloop, if_pos rfl, chainResult, List.length_cons]
        simp only [Nat.lt_sub_iff_add_lt, Nat.add_comm 1]
      · rw [hcbuf, if_pos rfl]
        exact Region.write_append _ 0 [c] (t.take (maxDirCluster - 1))
  | false =>
      obtain ⟨d', hloop, hsound', hcbuf⟩ := chainLoop_spec hss hsize (w := ⟨d, c, none⟩) hchain
        (hready _) maxDirCluster 0
      refine ⟨d', ?_, hsound', hcbuf⟩
      rw [clusterChain, if_neg (by decide), hloop, Nat.zero_add]
      rfl

/-- The part of a chain that `fat_getClusterChain` reads, the first cluster included or not. -/
theorem fatGetClusterChain_spec (hss : SizeOk ss) (hsize : bpb.sectorSize = ss)
    (hchain : bpb.IsChain disk c (c :: t)) (hsound : Sound ss 0 d.cache disk)
    (hne : c ≠ d.lastChainCluster) (start : Bool) :
    ∃ d', fatGetClusterChain ss bpb d c start = (chainResult (if start then c :: t else t), d') ∧
      d'.HasPart ss disk c (if start then c :: t else t) := by
  obtain ⟨d', hloop, hsound', hcbuf⟩ := clusterChain_spec hss hsize hchain hsound start
  rw [fatGetClusterChain_of_ne hne, hloop]
  refine ⟨_, rfl, hsound', rfl, rfl, ?_⟩
  rw [hcbuf, Region.read_write_self]

/-- A part that starts with its cluster is read, or it is there. -/
theorem fatGetClusterChain_true (hss : SizeOk ss) (hsize : bpb.sectorSize = ss)
    (hchain : bpb.IsChain disk c q) (hsound : Sound ss 0 d.cache disk)
    (hcached : d.lastChainCluster = c → d.HasPart ss disk c q) :
    ∃ d', fatGetClusterChain ss bpb d c true = (chainResult q, d') ∧ d'.HasPart ss disk c q := by
  by_cases hc : d.lastChainCluster = c
  · exact ⟨d, (hcached hc).getClusterChain true, hcached hc⟩
  · obtain ⟨t, rfl⟩ := hchain.chain.exists_cons
    exact fatGetClusterChain_spec hss hsize hchain hsound (Ne.symm hc) true

theorem Driver.HasPart.cbuf_eq (h : d.HasPart ss disk c q) {i x : ℕ} (hi : i < maxDirCluster)
    (hx : q[i]? = some x) : d.cbuf i = x := by
  obtain ⟨hlt, rfl⟩ := List.getElem?_eq_some_iff.mp hx
  have hi' : i < (q.take maxDirCluster).length := by
    rw [List.length_take]
    omega
  have hget := List.getElem_of_eq h.stored.symm hi'
  rw [Region.getElem_read, List.getElem_take, Nat.zero_add] at hget
  exact hget.symm

theorem chainResult_of_lt (hlt : q.length < maxDirCluster) : chainResult q = q.length := if_pos hlt

theorem chainResult_of_le (hle : maxDirCluster ≤ q.length) : chainResult q = 0 :=
  if_neg (not_lt.mpr hle)

end Ps2rd.UsbMass
