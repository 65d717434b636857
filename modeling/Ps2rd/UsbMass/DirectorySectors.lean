import Mathlib.Data.List.GetD
import Ps2rd.UsbMass.DirectoryEntries
import Ps2rd.UsbMass.FileRead

/-!
# The sectors of a directory

The table of a directory is the content of the clusters of its chain, or, for the root
directory of a FAT12 or FAT16, of the sectors before the first cluster.  The driver goes through
it sector by sector.  What it finds is what a search through the whole table finds, with what it
has collected of a long name taken along from one sector to the next.
-/

namespace Ps2rd.UsbMass

variable {ss : ℕ} {disk : Region Byte} {bpb : Bpb}

/-! ### Entries do not depend on where they are -/

section Congr

variable {buf D : Region Byte} {p q : ℕ} (h : ∀ j < 32, buf (p + j) = D (q + j))

include h

theorem read_entry (off n : ℕ) (hfit : off + n ≤ 32) : buf.read (p + off) n = D.read (q + off) n := by
  refine List.map_congr_left fun i hi => ?_
  have hi' := List.mem_range.mp hi
  rw [Nat.add_assoc, Nat.add_assoc]
  exact h (off + i) (by omega)

theorem copyChars_congr {places : List ℕ} (hplaces : ∀ i ∈ places, i + 1 < 32) :
    copyChars buf p places = copyChars D q places := by
  induction places with
  | nil => rfl
  | cons i places ih =>
      have hi : i + 1 < 32 := hplaces i List.mem_cons_self
      have ih' := ih fun j hj => hplaces j (List.mem_cons_of_mem _ hj)
      funext offset dir
      rw [copyChars, copyChars, h i (by omega), Nat.add_assoc, h (i + 1) hi, ← Nat.add_assoc, ih']

theorem fatGetDirentry_congr (dir : Direntry) :
    fatGetDirentry buf p dir = fatGetDirentry D q dir := by
  have h₀ : buf p = D q := h 0 (by norm_num)
  have hname : shortName buf p = shortName D q := by
    have h8 : buf.read p 8 = D.read q 8 := read_entry h 0 8 (by norm_num)
    rw [shortName, shortName, h8, read_entry h 8 3 (by norm_num)]
  have hplaces : ∀ i ∈ charPlaces, i + 1 < 32 := by decide
  rw [fatGetDirentry, fatGetDirentry, h₀, h 1 (by norm_num), h 11 (by norm_num),
    h 12 (by norm_num), h 26 (by norm_num), hname, Region.u32, Region.u32, Region.u16, Region.u16,
    Region.u16, Region.u16, read_entry h 28 4 (by norm_num), read_entry h 26 2 (by norm_num),
    read_entry h 20 2 (by norm_num), copyChars_congr h hplaces]

end Congr

theorem searchEntries_congr {α : Type*} {buf D : Region Byte} {l : List α} {f g : α → ℕ}
    (h : ∀ x ∈ l, ∀ j < 32, buf (f x + j) = D (g x + j)) (hit : ℕ → Direntry → Bool) (index : ℕ)
    (dir : Direntry) :
    searchEntries hit buf (l.map f) index dir = searchEntries hit D (l.map g) index dir := by
  induction l generalizing index dir with
  | nil => rfl
  | cons x l ih =>
      have ih' := ih fun y hy => h y (List.mem_cons_of_mem _ hy)
      simp only [List.map_cons, searchEntries, fatGetDirentry_congr (h x List.mem_cons_self), ih']

/-- A search that goes on behind some entries. -/
def Search.resume (next : ℕ → Direntry → Option Search) : Search → Option Search
  | .more index dir => next index dir
  | r => some r

theorem searchEntries_append (hit : ℕ → Direntry → Bool) (D : Region Byte) (ps qs : List ℕ)
    (index : ℕ) (dir : Direntry) :
    searchEntries hit D (ps ++ qs) index dir =
      (searchEntries hit D ps index dir).bind (Search.resume (searchEntries hit D qs)) := by
  induction ps generalizing index dir with
  | nil => rfl
  | cons p ps ih =>
      simp only [List.cons_append, searchEntries]
      cases fatGetDirentry D p dir with
      | none => rfl
      | some r =>
          obtain ⟨kind, dir⟩ := r
          cases kind with
          | last => rfl
          | short =>
              simp only [Option.bind_eq_bind, Option.bind_some]
              split_ifs
              · rfl
              · exact ih ..
          | long => exact ih ..
          | deleted => exact ih ..

/-! ### The loop over the sectors -/

/-- The driver has the same part of a chain as before. -/
structure Driver.SamePart (d d' : Driver) : Prop where
  cbuf : d'.cbuf = d.cbuf
  cluster : d'.lastChainCluster = d.lastChainCluster
  result : d'.lastChainResult = d.lastChainResult

theorem Driver.SamePart.refl (d : Driver) : d.SamePart d := ⟨rfl, rfl, rfl⟩

theorem Driver.SamePart.trans {d d' d'' : Driver} (h : d.SamePart d') (h' : d'.SamePart d'') :
    d.SamePart d'' :=
  ⟨h'.cbuf.trans h.cbuf, h'.cluster.trans h.cluster, h'.result.trans h.result⟩

theorem Driver.samePart_readSector (ss : ℕ) (d : Driver) (sector : ℕ) :
    d.SamePart (d.readSector ss sector) := ⟨rfl, rfl, rfl⟩

theorem Driver.readSector_of_mod {d : Driver} {sector sector' : ℕ}
    (h : sector % 2 ^ 32 = sector') : d.readSector ss sector = d.readSector ss sector' := by
  rw [Driver.readSector, Driver.readSector, ← h, Nat.mod_mod]

/-- The entry that was found. -/
def Search.result : Search → Option Direntry
  | .found dir => some dir
  | _ => none

theorem positions_append {a b c : ℕ} (hab : a ≤ b) (hbc : b ≤ c) :
    positions a c = positions a b ++ positions b c := by
  obtain ⟨m, rfl⟩ := Nat.exists_eq_add_of_le hab
  obtain ⟨n, rfl⟩ := Nat.exists_eq_add_of_le hbc
  unfold positions
  rw [← List.map_append, Nat.add_sub_cancel_left, Nat.add_sub_cancel_left,
    show a + m + n - a = m + n by omega]
  congr 1
  exact List.range'_append_1.symm

section Sectors

variable (hss : SizeOk ss) (hsize : bpb.sectorSize = ss) (D : Region Byte) (sec : ℕ → ℕ) {N : ℕ}

include hss hsize

/-- The entries of the sector in `sbuf`. -/
theorem searchEntries_sector {d : Driver} {i : ℕ} (hholds : d.Holds ss disk (sec i))
    (hD : ∀ j < ss, D (i * ss + j) = disk (sec i * ss + j)) (hit : ℕ → Direntry → Bool)
    (index : ℕ) (dir : Direntry) :
    searchEntries hit d.buf (entryPositions bpb) index dir =
      searchEntries hit D (positions (i * (ss / 32)) ((i + 1) * (ss / 32))) index dir := by
  have hE : 32 * (ss / 32) = ss := Nat.mul_div_cancel' hss.entries_dvd
  have hpositions : positions (i * (ss / 32)) ((i + 1) * (ss / 32)) =
      (List.range (ss / 32)).map fun j => 32 * (i * (ss / 32) + j) := by
    rw [positions, Nat.add_mul, Nat.one_mul, Nat.add_sub_cancel_left, List.range'_eq_map_range,
      List.map_map]
    rfl
  rw [entryPositions, hsize, hpositions]
  refine searchEntries_congr (fun j hj t ht => ?_) hit index dir
  have hj' := List.mem_range.mp hj
  have hlt : 32 * j + t < ss := by omega
  have hplace : 32 * (i * (ss / 32) + j) + t = i * ss + (32 * j + t) := by
    calc _ = i * (32 * (ss / 32)) + (32 * j + t) := by ring
      _ = i * ss + (32 * j + t) := by rw [hE]
  rw [hplace, hD _ hlt]
  exact hholds _ hlt

/-- The search through the sectors from number `i` on is the search through their entries. -/
theorem searchSectors_spec (hD : ∀ i < N, ∀ j < ss, D (i * ss + j) = disk (sec i * ss + j))
    (hsec : ∀ i < N, sec i < freeSector) (hit : ℕ → Direntry → Bool) (c : ℕ) (cbuf : Region ℕ)
    (hnext : ∀ i s, i + 1 < N → (s + i) % 2 ^ 32 = sec i →
      (nextStart bpb c cbuf i s + (i + 1)) % 2 ^ 32 = sec (i + 1))
    {d : Driver} (hsound : Sound ss 0 d.cache disk) (hcbuf : d.cbuf = cbuf) {i m : ℕ}
    (hN : i + m = N) (start : ℕ) (hstart : 0 < m → (start + i) % 2 ^ 32 = sec i) (index : ℕ)
    (dir : Direntry) :
    ∃ d', searchSectors ss bpb hit c (List.range' i m) d start index dir =
        (searchEntries hit D (positions (i * (ss / 32)) (N * (ss / 32))) index dir).map
          (fun r => (r.result, d')) ∧
      Sound ss 0 d'.cache disk ∧ d.SamePart d' := by
  induction m generalizing i d start index dir with
  | zero =>
      obtain rfl : i = N := hN
      rw [positions_self]
      exact ⟨d, rfl, hsound, .refl d⟩
  | succ m ih =>
      have hi : i < N := by omega
      have hsector := hstart (Nat.succ_pos m)
      obtain ⟨hsound₁, hholds⟩ := Driver.readSector_spec hss hsound (hsec i hi)
      have hentries := searchEntries_sector hss hsize D sec hholds (hD i hi) hit index dir
      have hsplit := positions_append (a := i * (ss / 32)) (b := (i + 1) * (ss / 32))
        (c := N * (ss / 32)) (Nat.mul_le_mul_right _ (Nat.le_succ i)) (Nat.mul_le_mul_right _ hi)
      have hsame := d.samePart_readSector ss (sec i)
      rw [List.range'_succ, searchSectors, Driver.readSector_of_mod hsector, hsplit,
        searchEntries_append, hentries]
      generalize d.readSector ss (sec i) = d₁ at *
      cases searchEntries hit D (positions (i * (ss / 32)) ((i + 1) * (ss / 32))) index dir with
      | none => exact ⟨d₁, rfl, hsound₁, hsame⟩
      | some r =>
          cases r with
          | found dir => exact ⟨d₁, rfl, hsound₁, hsame⟩
          | ended => exact ⟨d₁, rfl, hsound₁, hsame⟩
          | more index dir =>
              have hcbuf₁ : d₁.cbuf = cbuf := hsame.cbuf.trans hcbuf
              obtain ⟨d', hrun, hsound', hsame'⟩ := ih hsound₁ hcbuf₁ (i := i + 1) (by omega)
                (nextStart bpb c d₁.cbuf i start)
                (fun hm => by rw [hcbuf₁]; exact hnext i start (by omega) hsector) index dir
              exact ⟨d', hrun, hsound', hsame.trans hsame'⟩

end Sectors

/-! ### Directories on the disk -/

/-- The content of a chain as a table. -/
def Bpb.table (bpb : Bpb) (disk : Region Byte) (l : List ℕ) : Region Byte :=
  fun i => (bpb.content disk l).getD i 0

/-- The directory with the start cluster `c` has the clusters `l` and the table `D` of `n`
entries.  Where 0 stands for the root directory and this is not in clusters, `l` is empty. -/
inductive Bpb.Directory (bpb : Bpb) (disk : Region Byte) :
    ℕ → List ℕ → Region Byte → ℕ → Prop
  | root (htype : bpb.fatType ≠ .fat32)
      (hfit : bpb.rootDirStart + bpb.rootSize / (bpb.sectorSize / 32) ≤ freeSector) :
      Directory bpb disk 0 [] (fun i => disk (bpb.rootDirStart * bpb.sectorSize + i))
        (bpb.rootSize / (bpb.sectorSize / 32) * (bpb.sectorSize / 32))
  | chain {c c' : ℕ} {l : List ℕ} (htype : c = 0 → bpb.fatType = .fat32)
      (hc' : (if c = 0 then bpb.rootDirCluster else c) = c') (hchain : bpb.IsChain disk c' l)
      (hlength : l.length < maxDirCluster) (hsectors : l.length * bpb.clusterSize < 2 ^ 31) :
      Directory bpb disk c l (bpb.table disk l)
        (l.length * bpb.clusterSize * (bpb.sectorSize / 32))

/-- The sector of a directory in clusters. -/
def Bpb.sectorOf (bpb : Bpb) (l : List ℕ) (i : ℕ) : ℕ :=
  fatCluster2sector bpb (l.getD (i / bpb.clusterSize) 0) + i % bpb.clusterSize

theorem Bpb.content_getElem? (bpb : Bpb) (disk : Region Byte) {l : List ℕ} {k x r : ℕ}
    (hx : l[k]? = some x) (hr : r < bpb.clusterBytes) :
    (bpb.content disk l)[k * bpb.clusterBytes + r]? =
      some (disk (fatCluster2sector bpb x * bpb.sectorSize + r)) := by
  obtain ⟨t, ht⟩ : ∃ t, l.drop k = x :: t := by
    obtain ⟨hlt, rfl⟩ := List.getElem?_eq_some_iff.mp hx
    exact ⟨_, List.drop_eq_getElem_cons hlt⟩
  have hdrop := bpb.content_drop disk l k
  rw [ht, Bpb.content_cons] at hdrop
  rw [← List.getElem?_drop, ← hdrop, List.getElem?_append_left (by simpa using hr), Bpb.cluster,
    List.getElem?_eq_getElem (by simpa using hr), Region.getElem_read]

theorem Bpb.table_sector (bpb : Bpb) (disk : Region Byte) {l : List ℕ} (hcs : 0 < bpb.clusterSize)
    {i j : ℕ} (hi : i < l.length * bpb.clusterSize) (hj : j < bpb.sectorSize) :
    bpb.table disk l (i * bpb.sectorSize + j) =
      disk (bpb.sectorOf l i * bpb.sectorSize + j) := by
  have hk : i / bpb.clusterSize < l.length := (Nat.div_lt_iff_lt_mul hcs).mpr hi
  have hmod : i % bpb.clusterSize < bpb.clusterSize := Nat.mod_lt _ hcs
  have hr : i % bpb.clusterSize * bpb.sectorSize + j < bpb.clusterBytes := by
    calc i % bpb.clusterSize * bpb.sectorSize + j
        < (i % bpb.clusterSize + 1) * bpb.sectorSize := by rw [Nat.add_mul, Nat.one_mul]; omega
      _ ≤ bpb.clusterBytes := Nat.mul_le_mul_right _ hmod
  have hplace : i * bpb.sectorSize + j =
      i / bpb.clusterSize * bpb.clusterBytes + (i % bpb.clusterSize * bpb.sectorSize + j) := by
    calc i * bpb.sectorSize + j
        = (bpb.clusterSize * (i / bpb.clusterSize) + i % bpb.clusterSize) * bpb.sectorSize + j := by
          rw [Nat.div_add_mod]
      _ = _ := by rw [Bpb.clusterBytes]; ring
  have hx : l[i / bpb.clusterSize]? = some (l.getD (i / bpb.clusterSize) 0) := by
    rw [List.getD_eq_getElem _ _ hk, List.getElem?_eq_getElem hk]
  rw [Bpb.table, hplace, List.getD_eq_getElem?_getD, bpb.content_getElem? disk hx hr,
    Bpb.sectorOf, Nat.add_mul, Nat.add_assoc]
  rfl

section Chain

variable {c : ℕ} {l : List ℕ} (hok : ∀ x ∈ l, bpb.ClusterOk x) (hcs : 0 < bpb.clusterSize)

include hok hcs

theorem Bpb.sectorOf_lt {i : ℕ} (hi : i < l.length * bpb.clusterSize) :
    bpb.sectorOf l i < freeSector := by
  have hk : i / bpb.clusterSize < l.length := (Nat.div_lt_iff_lt_mul hcs).mpr hi
  have hmod : i % bpb.clusterSize < bpb.clusterSize := Nat.mod_lt _ hcs
  have hcluster := hok _ (List.getElem_mem hk)
  have hdata := hcluster.data
  rw [Bpb.sectorOf, List.getD_eq_getElem _ _ hk, fatCluster2sector_eq hcluster]
  omega

/-- The next sector, in the same cluster or in the next one. -/
theorem Bpb.sectorOf_next {cbuf : Region ℕ} (hcbuf : ∀ k x, l[k]? = some x → cbuf k = x)
    (hc : c ≠ 0) (hsectors : l.length * bpb.clusterSize < 2 ^ 31) {i s : ℕ}
    (hi : i + 1 < l.length * bpb.clusterSize) (hs : (s + i) % 2 ^ 32 = bpb.sectorOf l i) :
    (nextStart bpb c cbuf i s + (i + 1)) % 2 ^ 32 = bpb.sectorOf l (i + 1) := by
  have hnext := Bpb.sectorOf_lt hok hcs hi
  have hfree : freeSector < 2 ^ 32 := by decide
  have hdiv := Nat.div_add_mod i bpb.clusterSize
  have hmod : i % bpb.clusterSize < bpb.clusterSize := Nat.mod_lt _ hcs
  unfold nextStart
  split_ifs with hend
  · -- the first sector of the next cluster
    obtain ⟨hk, hzero⟩ := (Nat.div_mod_unique hcs).mpr
      (show 0 + bpb.clusterSize * (i / bpb.clusterSize + 1) = i + 1 ∧ 0 < bpb.clusterSize by
        rw [Nat.mul_add]
        omega)
    have hlt : (i + 1) / bpb.clusterSize < l.length := (Nat.div_lt_iff_lt_mul hcs).mpr hi
    have hx := hcbuf _ _ (List.getElem?_eq_getElem hlt)
    rw [Bpb.sectorOf, List.getD_eq_getElem _ _ hlt, hzero, Nat.add_zero] at hnext ⊢
    rw [← hk, hx, Nat.mod_add_mod]
    omega
  · have hne : i % bpb.clusterSize ≠ bpb.clusterSize - 1 := fun h => hend ⟨hc, h⟩
    obtain ⟨hk, hsucc⟩ := (Nat.div_mod_unique hcs).mpr
      (show i % bpb.clusterSize + 1 + bpb.clusterSize * (i / bpb.clusterSize) = i + 1 ∧
          i % bpb.clusterSize + 1 < bpb.clusterSize by omega)
    rw [Bpb.sectorOf, hk, hsucc] at hnext ⊢
    rw [Bpb.sectorOf] at hs
    omega

end Chain

section Directory

variable (hss : SizeOk ss) (hsize : bpb.sectorSize = ss) {d : Driver}
  (hsound : Sound ss 0 d.cache disk) (hit : ℕ → Direntry → Bool) (dir : Direntry)

include hss hsize hsound

/-- The root directory before the clusters. -/
theorem searchSectors_root
    (hfit : bpb.rootDirStart + bpb.rootSize / (ss / 32) ≤ freeSector) :
    ∃ d', searchSectors ss bpb hit 0 (List.range (bpb.rootSize / (ss / 32))) d bpb.rootDirStart 0
        dir =
        (searchEntries hit (fun i => disk (bpb.rootDirStart * ss + i))
          (positions 0 (bpb.rootSize / (ss / 32) * (ss / 32))) 0 dir).map
            (fun r => (r.result, d')) ∧
      Sound ss 0 d'.cache disk ∧ d.SamePart d' := by
  have hfree : freeSector < 2 ^ 32 := by decide
  have hD : ∀ i < bpb.rootSize / (ss / 32), ∀ j < ss,
      disk (bpb.rootDirStart * ss + (i * ss + j)) = disk ((bpb.rootDirStart + i) * ss + j) := by
    intro i _ j _
    rw [Nat.add_mul, Nat.add_assoc]
  have hnext : ∀ i s, i + 1 < bpb.rootSize / (ss / 32) →
      (s + i) % 2 ^ 32 = bpb.rootDirStart + i →
      (nextStart bpb 0 d.cbuf i s + (i + 1)) % 2 ^ 32 = bpb.rootDirStart + (i + 1) := by
    intro i s hi hs
    have hstart : nextStart bpb 0 d.cbuf i s = s := if_neg fun h => h.1 rfl
    rw [hstart]
    omega
  have hrun := searchSectors_spec hss hsize (fun i => disk (bpb.rootDirStart * ss + i))
    (bpb.rootDirStart + ·) hD (fun i hi => by omega) hit 0 d.cbuf hnext hsound rfl
    (Nat.zero_add _) bpb.rootDirStart (fun hpos => Nat.mod_eq_of_lt (by omega)) 0 dir
  rwa [Nat.zero_mul, ← List.range_eq_range'] at hrun

/-- A directory in clusters. -/
theorem searchSectors_chain (hcs : 0 < bpb.clusterSize) {c : ℕ} {l : List ℕ}
    (hchain : bpb.IsChain disk c l) (hlength : l.length < maxDirCluster)
    (hsectors : l.length * bpb.clusterSize < 2 ^ 31) (hpart : d.HasPart ss disk c l) :
    ∃ d', searchSectors ss bpb hit c (List.range (l.length * bpb.clusterSize)) d
        (fatCluster2sector bpb c) 0 dir =
        (searchEntries hit (bpb.table disk l)
          (positions 0 (l.length * bpb.clusterSize * (ss / 32))) 0 dir).map
            (fun r => (r.result, d')) ∧
      Sound ss 0 d'.cache disk ∧ d.SamePart d' := by
  obtain ⟨t, rfl⟩ := hchain.chain.exists_cons
  have hfree : freeSector < 2 ^ 32 := by decide
  have hok := hchain.ok
  have htwo := (hok c List.mem_cons_self).two_le
  have hD : ∀ i < (c :: t).length * bpb.clusterSize, ∀ j < ss,
      bpb.table disk (c :: t) (i * ss + j) = disk (bpb.sectorOf (c :: t) i * ss + j) := by
    intro i hi j hj
    rw [← hsize] at hj ⊢
    exact bpb.table_sector disk hcs hi hj
  have hcbuf : ∀ k x, (c :: t)[k]? = some x → d.cbuf k = x := by
    intro k x hx
    have hk := (List.getElem?_eq_some_iff.mp hx).1
    exact hpart.cbuf_eq (by omega) hx
  have hfirst : bpb.sectorOf (c :: t) 0 = fatCluster2sector bpb c := by
    rw [Bpb.sectorOf, Nat.zero_div, Nat.zero_mod]
    rfl
  have hstart : 0 < (c :: t).length * bpb.clusterSize →
      (fatCluster2sector bpb c + 0) % 2 ^ 32 = bpb.sectorOf (c :: t) 0 := by
    intro hpos
    have hlt := Bpb.sectorOf_lt hok hcs hpos
    rw [hfirst] at hlt ⊢
    exact Nat.mod_eq_of_lt (by omega)
  have hrun := searchSectors_spec hss hsize (bpb.table disk (c :: t)) (bpb.sectorOf (c :: t)) hD
    (fun i hi => Bpb.sectorOf_lt hok hcs hi) hit c d.cbuf
    (fun i s hi hs => Bpb.sectorOf_next hok hcs hcbuf (by omega) hsectors hi hs) hsound rfl
    (Nat.zero_add _) (fatCluster2sector bpb c) hstart 0 dir
  rwa [Nat.zero_mul, ← List.range_eq_range'] at hrun

end Directory

/-- A search in a directory is a search through its table. -/
theorem searchDirectory_spec (hss : SizeOk ss) (hsize : bpb.sectorSize = ss)
    (hcs : 0 < bpb.clusterSize) {c n : ℕ} {l : List ℕ} {D : Region Byte}
    (h : bpb.Directory disk c l D n) {d : Driver} (hsound : Sound ss 0 d.cache disk)
    (hcached : ∀ x, l[0]? = some x → d.lastChainCluster = x → d.HasPart ss disk x l)
    (hit : ℕ → Direntry → Bool) (stack : Direntry) :
    ∃ d', searchDirectory ss bpb hit stack d c =
        (searchEntries hit D (positions 0 n) 0 stack.clear).map (fun r => (r.result, d')) ∧
      Sound ss 0 d'.cache disk ∧
      (d.SamePart d' ∨ ∃ x, l[0]? = some x ∧ d'.HasPart ss disk x l) := by
  unfold searchDirectory fatGetDirentrySectorData
  cases h with
  | root htype hfit =>
      rw [hsize] at hfit ⊢
      rw [if_pos ⟨rfl, htype⟩]
      obtain ⟨d', hrun, hsound', hsame⟩ :=
        searchSectors_root hss hsize hsound hit stack.clear hfit
      exact ⟨d', hrun, hsound', .inl hsame⟩
  | @chain _ c' _ htype hc' hchain hlength hsectors =>
      have hhead : l[0]? = some c' := by
        obtain ⟨t, rfl⟩ := hchain.chain.exists_cons
        rfl
      have hpos : 0 < l.length := (List.getElem?_eq_some_iff.mp hhead).1
      obtain ⟨d₁, hget, hpart⟩ :=
        fatGetClusterChain_true hss hsize hchain hsound (hcached c' hhead)
      obtain ⟨d', hrun, hsound', hsame⟩ := searchSectors_chain hss hsize hpart.sound hit
        stack.clear hcs hchain hlength hsectors hpart
      have hpart' : d'.HasPart ss disk c' l := ⟨hsound', hsame.cluster.trans hpart.cluster,
        hsame.result.trans hpart.result, by rw [hsame.cbuf]; exact hpart.stored⟩
      refine ⟨d', ?_, hsound', .inr ⟨c', hhead, hpart'⟩⟩
      rw [if_neg (fun h => h.2 (htype h.1)), hc']
      dsimp only
      rw [hget, chainResult_of_lt hlength, hsize]
      dsimp only
      rw [if_pos (by exact_mod_cast hpos)]
      exact hrun

end Ps2rd.UsbMass
