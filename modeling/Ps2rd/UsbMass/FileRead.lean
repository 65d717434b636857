import Ps2rd.UsbMass.SeekTable

/-!
# Reading a file gives its content

The content of a file is that of the clusters of its chain, one behind the other.
`fat_readFile` starts at the cluster of an entry of the seek table, skips clusters, sectors
and bytes up to the place in the file, and then copies sector by sector.
-/

namespace Ps2rd.UsbMass

variable {ss : ℕ} {disk : Region Byte} {bpb : Bpb}

/-! ### The content of clusters -/

/-- The data of a cluster. -/
def Bpb.cluster (bpb : Bpb) (disk : Region Byte) (c : ℕ) : List Byte :=
  disk.read (fatCluster2sector bpb c * bpb.sectorSize) bpb.clusterBytes

/-- The data of a chain. -/
def Bpb.content (bpb : Bpb) (disk : Region Byte) (l : List ℕ) : List Byte :=
  l.flatMap (bpb.cluster disk)

@[simp]
theorem Bpb.length_cluster (bpb : Bpb) (disk : Region Byte) (c : ℕ) :
    (bpb.cluster disk c).length = bpb.clusterBytes := Region.length_read ..

@[simp]
theorem Bpb.content_nil (bpb : Bpb) (disk : Region Byte) : bpb.content disk [] = [] := rfl

@[simp]
theorem Bpb.content_cons (bpb : Bpb) (disk : Region Byte) (c : ℕ) (l : List ℕ) :
    bpb.content disk (c :: l) = bpb.cluster disk c ++ bpb.content disk l := rfl

@[simp]
theorem Bpb.length_content (bpb : Bpb) (disk : Region Byte) (l : List ℕ) :
    (bpb.content disk l).length = l.length * bpb.clusterBytes := by
  induction l with
  | nil => simp
  | cons c l ih => rw [Bpb.content_cons, List.length_append, Bpb.length_cluster, ih,
      List.length_cons, Nat.add_mul, Nat.one_mul, Nat.add_comm]

/-- Clusters that are left out are so many bytes less. -/
theorem Bpb.content_drop (bpb : Bpb) (disk : Region Byte) (l : List ℕ) (k : ℕ) :
    bpb.content disk (l.drop k) = (bpb.content disk l).drop (k * bpb.clusterBytes) := by
  induction l generalizing k with
  | nil => simp
  | cons c l ih =>
      cases k with
      | zero => simp
      | succ k =>
          have hnil : (bpb.cluster disk c).drop ((k + 1) * bpb.clusterBytes) = [] := by
            refine List.drop_eq_nil_of_le ?_
            rw [Bpb.length_cluster]
            exact Nat.le_mul_of_pos_left _ (Nat.succ_pos k)
          rw [List.drop_succ_cons, ih, Bpb.content_cons, List.drop_append, hnil, List.nil_append,
            Bpb.length_cluster, Nat.add_mul, Nat.one_mul, Nat.add_sub_cancel]

theorem Bpb.content_take (bpb : Bpb) (disk : Region Byte) (l : List ℕ) (k : ℕ) :
    bpb.content disk (l.take k) = (bpb.content disk l).take (k * bpb.clusterBytes) := by
  induction l generalizing k with
  | nil => simp
  | cons c l ih =>
      cases k with
      | zero => simp
      | succ k =>
          have hwhole : (bpb.cluster disk c).take ((k + 1) * bpb.clusterBytes) =
              bpb.cluster disk c := by
            refine List.take_of_length_le ?_
            rw [Bpb.length_cluster]
            exact Nat.le_mul_of_pos_left _ (Nat.succ_pos k)
          rw [List.take_succ_cons, Bpb.content_cons, ih, Bpb.content_cons, List.take_append, hwhole,
            Bpb.length_cluster, Nat.add_mul, Nat.one_mul, Nat.add_sub_cancel]

/-! ### Copying -/

/-- What the inner loops do: `bytes` are copied. -/
structure Copied (ss : ℕ) (disk : Region Byte) (s s' : Copying) (bytes : List Byte) : Prop where
  sound : Sound ss 0 s'.d.cache disk
  cbuf : s'.d.cbuf = s.d.cbuf
  lastChainCluster : s'.d.lastChainCluster = s.d.lastChainCluster
  lastChainResult : s'.d.lastChainResult = s.d.lastChainResult
  out : s'.out = s.out ++ bytes
  size : s'.size = s.size - bytes.length
  bufSize : s'.bufSize = ss
  dataSkip : s'.dataSkip < ss
  skipped : s'.size = 0 ∨ s'.dataSkip = 0

theorem Copied.refl {s : Copying} (hsound : Sound ss 0 s.d.cache disk) (hbuf : s.bufSize = ss)
    (hskip : s.dataSkip < ss) (hskipped : s.size = 0 ∨ s.dataSkip = 0) :
    Copied ss disk s s [] :=
  ⟨hsound, rfl, rfl, rfl, (List.append_nil _).symm, rfl, hbuf, hskip, hskipped⟩

theorem Copied.trans {s s' s'' : Copying} {b b' : List Byte} (h : Copied ss disk s s' b)
    (h' : Copied ss disk s' s'' b') : Copied ss disk s s'' (b ++ b') where
  sound := h'.sound
  cbuf := h'.cbuf.trans h.cbuf
  lastChainCluster := h'.lastChainCluster.trans h.lastChainCluster
  lastChainResult := h'.lastChainResult.trans h.lastChainResult
  out := by rw [h'.out, h.out, List.append_assoc]
  size := by rw [h'.size, h.size, List.length_append, Nat.sub_sub]
  bufSize := h'.bufSize
  dataSkip := h'.dataSkip
  skipped := h'.skipped

theorem take_append_length {α : Type*} (x y : List α) (n : ℕ) :
    (x ++ y).take n = x.take n ++ y.take (n - (x.take n).length) := by
  rw [List.take_append, List.length_take]
  congr 2
  omega

section Sectors

variable (hss : SizeOk ss)

include hss

theorem copySector_spec {s : Copying} {sector : ℕ} (hsound : Sound ss 0 s.d.cache disk)
    (hbuf : s.bufSize = ss) (hskip : s.dataSkip < ss) (hsector : sector < freeSector) :
    Copied ss disk s (copySector ss s sector)
      (((disk.read (sector * ss) ss).drop s.dataSkip).take s.size) := by
  obtain ⟨hsound', hholds⟩ := Driver.readSector_spec hss hsound hsector
  have hn : (if ss < (if s.size < ss then s.size + s.dataSkip else ss) then ss
      else if s.size < ss then s.size + s.dataSkip else ss) - s.dataSkip =
        min s.size (ss - s.dataSkip) := by
    split_ifs <;> omega
  have hbytes : (s.d.readSector ss sector).buf.read s.dataSkip (min s.size (ss - s.dataSkip)) =
      ((disk.read (sector * ss) ss).drop s.dataSkip).take s.size := by
    rw [hholds.read (by omega), ← Region.drop_take_read disk (by omega : s.dataSkip + _ ≤ ss),
      List.take_eq_take_iff]
    simp
  have hpos : 0 < ss := (Nat.zero_le _).trans_lt hskip
  have hlength : (((disk.read (sector * ss) ss).drop s.dataSkip).take s.size).length =
      min s.size (ss - s.dataSkip) := by simp
  unfold copySector
  dsimp only
  rw [hbuf, hn, hbytes]
  exact ⟨hsound', rfl, rfl, rfl, rfl, by rw [hlength], rfl, hpos, .inr rfl⟩

/-- Consecutive sectors. -/
theorem copySectors_spec {s : Copying} (hsound : Sound ss 0 s.d.cache disk) (hbuf : s.bufSize = ss)
    (hskip : s.dataSkip < ss) {a m : ℕ} (hfit : a + m ≤ freeSector)
    (hm : 0 < m ∨ s.dataSkip = 0) :
    Copied ss disk s (copySectors ss s (List.range' a m))
      (((disk.read (a * ss) (m * ss)).drop s.dataSkip).take s.size) := by
  induction m generalizing s a with
  | zero =>
      rw [Nat.zero_mul, show disk.read (a * ss) 0 = [] from rfl, List.drop_nil, List.take_nil]
      exact .refl hsound hbuf hskip (.inr (hm.resolve_left (lt_irrefl 0)))
  | succ m ih =>
      rw [List.range'_succ, copySectors]
      split_ifs with hsize
      · have hfirst := copySector_spec hss hsound hbuf hskip (show a < freeSector by omega)
        have hrest := ih hfirst.sound hfirst.bufSize hfirst.dataSkip (a := a + 1) (by omega)
          (.inr rfl)
        have hbytes : ((disk.read (a * ss) ((m + 1) * ss)).drop s.dataSkip).take s.size =
            ((disk.read (a * ss) ss).drop s.dataSkip).take s.size ++
              ((disk.read ((a + 1) * ss) (m * ss)).drop (copySector ss s a).dataSkip).take
                (copySector ss s a).size := by
          rw [hfirst.size, show (copySector ss s a).dataSkip = 0 from rfl, List.drop_zero,
            Nat.add_mul, Nat.one_mul, Nat.add_comm (m * ss), Region.read_add,
            List.drop_append_of_le_length (by simpa using hskip.le), take_append_length,
            Nat.add_mul, Nat.one_mul]
        rw [hbytes]
        exact hfirst.trans hrest
      · rw [Nat.eq_zero_of_not_pos hsize, List.take_zero]
        exact .refl hsound hbuf hskip (.inl (Nat.eq_zero_of_not_pos hsize))

end Sectors

theorem fatCluster2sector_eq {c : ℕ} (h : bpb.ClusterOk c) :
    fatCluster2sector bpb c = bpb.dataStart + bpb.clusterSize * (c - 2) := by
  have hmod : ∀ x, x + bpb.clusterSize * (c - 2) + bpb.clusterSize ≤ freeSector →
      (x + bpb.clusterSize * (c + 2 ^ 32 - 2)) % 2 ^ 32 = x + bpb.clusterSize * (c - 2) := by
    intro x hx
    have hsplit : c + 2 ^ 32 - 2 = c - 2 + 2 ^ 32 := by
      have := h.two_le
      omega
    have hfree : freeSector < 2 ^ 32 := by decide
    rw [hsplit, Nat.mul_add, ← Nat.add_assoc, Nat.add_mul_mod_self_right,
      Nat.mod_eq_of_lt (by omega)]
  have hdata := h.data
  unfold Bpb.dataStart at hdata ⊢
  unfold fatCluster2sector
  cases htype : bpb.fatType with
  | fat32 =>
      rw [htype] at hdata
      exact hmod _ hdata
  | fat12 =>
      rw [htype] at hdata
      exact hmod _ hdata
  | fat16 =>
      rw [htype] at hdata
      exact hmod _ hdata

section Clusters

variable (hss : SizeOk ss) (hsize : bpb.sectorSize = ss)

include hss hsize

/-- The rest of a cluster. -/
theorem copySectors_cluster {s : Copying} (hsound : Sound ss 0 s.d.cache disk)
    (hbuf : s.bufSize = ss) (hskip : s.dataSkip < ss) (hsector : s.sectorSkip < bpb.clusterSize)
    {c : ℕ} (hok : bpb.ClusterOk c) :
    Copied ss disk s
      (copySectors ss s (List.range' (fatCluster2sector bpb c + s.sectorSkip)
        (bpb.clusterSize - s.sectorSkip)))
      (((bpb.cluster disk c).drop (s.sectorSkip * ss + s.dataSkip)).take s.size) := by
  have hdata := hok.data
  have hfit : fatCluster2sector bpb c + s.sectorSkip + (bpb.clusterSize - s.sectorSkip) ≤
      freeSector := by
    rw [fatCluster2sector_eq hok]
    omega
  have hbytes : (bpb.cluster disk c).drop (s.sectorSkip * ss) =
      disk.read ((fatCluster2sector bpb c + s.sectorSkip) * ss)
        ((bpb.clusterSize - s.sectorSkip) * ss) := by
    have hsplit : bpb.clusterSize * ss =
        s.sectorSkip * ss + (bpb.clusterSize - s.sectorSkip) * ss := by
      rw [← Nat.add_mul, Nat.add_sub_cancel' hsector.le]
    rw [Bpb.cluster, Bpb.clusterBytes, hsize, hsplit, Region.read_add, Nat.add_mul,
      List.drop_append_of_le_length (by rw [Region.length_read]), List.drop_eq_nil_of_le
        (by rw [Region.length_read]), List.nil_append]
  rw [← List.drop_drop, hbytes]
  exact copySectors_spec hss hsound hbuf hskip hfit (.inl (by omega))

/-- Consecutive clusters. -/
theorem copyClusters_spec {s : Copying} (hsound : Sound ss 0 s.d.cache disk)
    (hbuf : s.bufSize = ss) (hskip : s.dataSkip < ss) (hsector : s.sectorSkip < bpb.clusterSize)
    {cl : List ℕ} (hok : ∀ c ∈ cl, bpb.ClusterOk c) (hcl : cl ≠ [] ∨ s.size = 0 ∨ s.dataSkip = 0) :
    Copied ss disk s (copyClusters ss bpb s cl)
      (((bpb.content disk cl).drop (s.sectorSkip * ss + s.dataSkip)).take s.size) := by
  induction cl generalizing s with
  | nil =>
      rw [Bpb.content_nil, List.drop_nil, List.take_nil]
      exact .refl hsound hbuf hskip (hcl.resolve_left (fun hne => hne rfl))
  | cons c cl ih =>
      rw [copyClusters]
      split_ifs with hsize'
      · have hfirst := copySectors_cluster hss hsize hsound hbuf hskip hsector
          (hok c List.mem_cons_self)
        dsimp only
        generalize copySectors ss s (List.range' (fatCluster2sector bpb c + s.sectorSkip)
          (bpb.clusterSize - s.sectorSkip)) = s₁ at *
        have hrest := ih (s := { s₁ with sectorSkip := 0 }) hfirst.sound hfirst.bufSize
          hfirst.dataSkip ((Nat.zero_le _).trans_lt hsector)
          (fun x hx => hok x (List.mem_cons_of_mem _ hx)) (.inr hfirst.skipped)
        have hnone : ((bpb.content disk cl).drop (0 * ss + s₁.dataSkip)).take s₁.size =
            (bpb.content disk cl).take s₁.size := by
          rcases hfirst.skipped with hzero | hzero
          · rw [hzero, List.take_zero, List.take_zero]
          · rw [hzero, Nat.zero_mul, List.drop_zero]
        have hle : s.sectorSkip * ss + s.dataSkip ≤ (bpb.cluster disk c).length := by
          rw [Bpb.length_cluster, Bpb.clusterBytes, hsize]
          calc s.sectorSkip * ss + s.dataSkip ≤ s.sectorSkip * ss + ss := by omega
            _ = (s.sectorSkip + 1) * ss := by ring
            _ ≤ bpb.clusterSize * ss := Nat.mul_le_mul_right ss hsector
        rw [Bpb.content_cons, List.drop_append_of_le_length hle, take_append_length, ← hfirst.size,
          ← hnone]
        exact hfirst.trans ⟨hrest.sound, hrest.cbuf, hrest.lastChainCluster, hrest.lastChainResult,
          hrest.out, hrest.size, hrest.bufSize, hrest.dataSkip, hrest.skipped⟩
      · rw [Nat.eq_zero_of_not_pos hsize', List.take_zero]
        exact .refl hsound hbuf hskip (.inl (Nat.eq_zero_of_not_pos hsize'))

end Clusters

theorem copyClusters_sectorSkip (ss : ℕ) (bpb : Bpb) {s : Copying} {cl : List ℕ}
    (h : s.sectorSkip = 0 ∨ cl ≠ [] ∧ 0 < s.size) : (copyClusters ss bpb s cl).sectorSkip = 0 := by
  induction cl generalizing s with
  | nil => exact h.resolve_right fun hne => hne.1 rfl
  | cons c cl ih =>
      rw [copyClusters]
      split_ifs with hsize
      · exact ih (.inl rfl)
      · exact h.resolve_right fun hpos => hsize hpos.2

/-! ### Parts of the chain -/

/-- The cluster `x` that the part at index `p` of a chain was asked for with: `c₁` for the
first one, at index `a`, and the last cluster of the part before for any other. -/
def PartFrom (l : List ℕ) (a c₁ p x : ℕ) : Prop :=
  p = a ∧ x = c₁ ∨ ∃ m, p = a + 512 * (m + 1) ∧ l[a + 512 * m + 511]? = some x

/-- The loop has the part at index `p` of the chain `l`. -/
structure AtPart (ss : ℕ) (bpb : Bpb) (disk : Region Byte) (l : List ℕ) (a c₁ p : ℕ)
    (s : ReadScan) : Prop where
  part : ∃ x, PartFrom l a c₁ p x ∧ s.d.HasPart ss disk x (l.drop p)
  start : s.clusterChainStart = false
  last : (l.drop p).length < maxDirCluster →
    s.chainSize = (l.drop p).length ∧ s.nextChain = false
  full : maxDirCluster ≤ (l.drop p).length →
    s.chainSize = maxDirCluster ∧ s.nextChain = true ∧ l[p + 511]? = some s.fileCluster

variable {l : List ℕ} {a a₁ c₁ c₀ p : ℕ} {s : ReadScan}

/-- `nextPart` changes nothing but the part. -/
theorem nextPart_same (ss : ℕ) (bpb : Bpb) (s : ReadScan) :
    (nextPart ss bpb s).toCopying = { s.toCopying with d := (nextPart ss bpb s).d } ∧
      (nextPart ss bpb s).clusterSkip = s.clusterSkip := by
  unfold nextPart
  dsimp only
  split_ifs <;> exact ⟨rfl, rfl⟩

theorem AtPart.of_get {x : ℕ} {d' : Driver} (hp : p < l.length) (hnext : s.nextChain = true)
    (hfrom : PartFrom l a c₁ p x)
    (hget : fatGetClusterChain ss bpb s.d s.fileCluster s.clusterChainStart =
      (chainResult (l.drop p), d')) (hpart : d'.HasPart ss disk x (l.drop p)) :
    AtPart ss bpb disk l a c₁ p (nextPart ss bpb s) := by
  have hlength : (l.drop p).length = l.length - p := List.length_drop
  unfold nextPart
  rw [hget]
  dsimp only
  rcases Nat.lt_or_ge (l.drop p).length maxDirCluster with hshort | hfull
  · have hne : chainResult (l.drop p) ≠ 0 := by
      rw [chainResult_of_lt hshort]
      omega
    rw [if_neg hne, chainResult_of_lt hshort]
    exact ⟨⟨x, hfrom, hpart⟩, rfl, fun _ => ⟨Int.toNat_natCast _, rfl⟩, fun hle => absurd hle
      (not_le.mpr hshort)⟩
  · rw [if_pos (chainResult_of_le hfull)]
    refine ⟨⟨x, hfrom, hpart⟩, rfl, fun hlt => absurd hlt (not_lt.mpr hfull), fun _ =>
      ⟨rfl, hnext, ?_⟩⟩
    have hroom : maxDirCluster = 512 := rfl
    have hx : (l.drop p)[511]? = l[p + 511]? := List.getElem?_drop
    have hlt : p + 511 < l.length := by omega
    rw [List.getElem?_eq_getElem hlt] at hx ⊢
    rw [← hpart.cbuf_eq (by omega) hx]
    rfl

section Parts

variable (hss : SizeOk ss) (hsize : bpb.sectorSize = ss) (hchain : bpb.IsChain disk c₀ l)
  (hfirst : l[a₁]? = some c₁) (ha : a₁ ≤ a)

include hss hsize hchain hfirst ha

/-- The part behind a full one. -/
theorem AtPart.next (h : AtPart ss bpb disk l a c₁ p s) (hp : p + 512 < l.length) :
    AtPart ss bpb disk l a c₁ (p + 512) (nextPart ss bpb s) := by
  have hroom : maxDirCluster = 512 := rfl
  have hlength : (l.drop p).length = l.length - p := List.length_drop
  obtain ⟨x, hfrom, hpart⟩ := h.part
  obtain ⟨-, hnext, hfile⟩ := h.full (by omega)
  have hrest : l.drop (p + 511) = s.fileCluster :: l.drop (p + 512) := by
    obtain ⟨hlt, hget⟩ := List.getElem?_eq_some_iff.mp hfile
    rw [List.drop_eq_getElem_cons hlt, hget]
  have hchain' := hchain.drop hfile
  rw [hrest] at hchain'
  -- the chain does not come back to the cluster that the driver has the part for
  have hne : s.fileCluster ≠ s.d.lastChainCluster := by
    rw [hpart.cluster]
    rintro rfl
    rcases hfrom with ⟨rfl, hx⟩ | ⟨m, rfl, hx⟩
    · have := hchain.chain.eq_of_getElem? hfile (hx ▸ hfirst)
      omega
    · have := hchain.chain.eq_of_getElem? hfile hx
      omega
  obtain ⟨d', hget, hpart'⟩ := fatGetClusterChain_spec hss hsize hchain' hpart.sound hne false
  refine .of_get hp hnext ?_ (by rw [h.start]; exact hget) hpart'
  rcases hfrom with ⟨rfl, -⟩ | ⟨m, rfl, -⟩
  · exact .inr ⟨0, rfl, hfile⟩
  · exact .inr ⟨m + 1, by ring, hfile⟩

/-- Parts that lie before the place in the file are skipped. -/
theorem AtPart.skipParts (h : AtPart ss bpb disk l a c₁ p s) (hp : p + s.clusterSkip < l.length)
    {n : ℕ} (hn : s.clusterSkip ≤ n) :
    ∃ s' p', skipParts ss bpb n s = s' ∧ AtPart ss bpb disk l a c₁ p' s' ∧
      s'.clusterSkip < maxDirCluster ∧ p ≤ p' ∧ p' + s'.clusterSkip = p + s.clusterSkip ∧
      s'.toCopying = { s.toCopying with d := s'.d } := by
  have hroom : maxDirCluster = 512 := rfl
  induction n generalizing s p with
  | zero => exact ⟨s, p, rfl, h, by omega, le_rfl, rfl, rfl⟩
  | succ n ih =>
      rw [UsbMass.skipParts]
      split_ifs with hskip
      · obtain ⟨hcopying, hclusterSkip⟩ := nextPart_same ss bpb s
        have hnext := h.next hss hsize hchain hfirst ha (by omega)
        dsimp only
        generalize nextPart ss bpb s = s₁ at *
        obtain ⟨s', p', hskipped, hat, hlt, hle, hsum, hcopying'⟩ := ih
          (s := { s₁ with clusterSkip := s₁.clusterSkip - maxDirCluster })
          ⟨hnext.part, hnext.start, hnext.last, hnext.full⟩ (by dsimp only; omega) (by dsimp only; omega)
        refine ⟨s', p', hskipped, hat, hlt, by omega, ?_, ?_⟩
        · dsimp only at hsum
          omega
        · rw [hcopying', hcopying]
      · exact ⟨s, p, rfl, h, by omega, le_rfl, rfl, rfl⟩

/-! ### Rounds -/

/-- The loop has copied all but `s.size` of the `n` bytes from `pos` on, and the next byte is
the one `place`s into the content. -/
structure Copies (ss : ℕ) (bpb : Bpb) (disk : Region Byte) (l : List ℕ) (pos n place : ℕ)
    (s : Copying) : Prop where
  out : s.out = ((bpb.content disk l).drop pos).take (n - s.size)
  le : s.size ≤ n
  bufSize : s.bufSize = ss
  dataSkip : s.dataSkip < ss
  sectorSkip : s.sectorSkip < bpb.clusterSize
  place : pos + (n - s.size) = place + s.sectorSkip * ss + s.dataSkip

section Copies

omit hss hsize hchain hfirst ha

variable {pos n k m : ℕ} {t : Copying}

theorem Copies.skip_lt (h : Copies ss bpb disk l pos n k t) (hsize : bpb.sectorSize = ss) :
    t.sectorSkip * ss + t.dataSkip < bpb.clusterBytes := by
  have hskip := h.dataSkip
  rw [Bpb.clusterBytes, hsize]
  calc t.sectorSkip * ss + t.dataSkip < t.sectorSkip * ss + ss := by omega
    _ = (t.sectorSkip + 1) * ss := by ring
    _ ≤ bpb.clusterSize * ss := Nat.mul_le_mul_right ss h.sectorSkip

/-- The bytes that `m` clusters have of what is left. -/
theorem Copies.bytes (h : Copies ss bpb disk l pos n (k * bpb.clusterBytes) t) :
    ((bpb.content disk ((l.drop k).take m)).drop (t.sectorSkip * ss + t.dataSkip)).take t.size =
      ((bpb.content disk l).drop (pos + (n - t.size))).take
        (min t.size (m * bpb.clusterBytes - (t.sectorSkip * ss + t.dataSkip))) := by
  rw [Bpb.content_take, Bpb.content_drop, List.drop_take, List.drop_drop, List.take_take, h.place,
    Nat.add_assoc]

theorem Copies.length_bytes (h : Copies ss bpb disk l pos n k t)
    (hfit : pos + n ≤ l.length * bpb.clusterBytes) (m : ℕ) :
    (((bpb.content disk l).drop (pos + (n - t.size))).take
      (min t.size (m * bpb.clusterBytes - (t.sectorSkip * ss + t.dataSkip)))).length =
        min t.size (m * bpb.clusterBytes - (t.sectorSkip * ss + t.dataSkip)) := by
  have hle := h.le
  rw [List.length_take, List.length_drop, Bpb.length_content]
  omega

end Copies

omit hss hsize hchain hfirst ha in
/-- The clusters of a part that are left. -/
theorem AtPart.clusters (h : AtPart ss bpb disk l a c₁ p s) :
    s.chainSize = min maxDirCluster (l.length - p) ∧
      s.d.cbuf.read s.clusterSkip (s.chainSize - s.clusterSkip) =
        (l.drop (p + s.clusterSkip)).take (s.chainSize - s.clusterSkip) := by
  have hlength : (l.drop p).length = l.length - p := List.length_drop
  have hsize : s.chainSize = min maxDirCluster (l.length - p) := by
    rcases Nat.lt_or_ge (l.drop p).length maxDirCluster with hshort | hfull
    · have := (h.last hshort).1
      omega
    · have := (h.full hfull).1
      omega
  obtain ⟨x, -, hpart⟩ := h.part
  refine ⟨hsize, List.ext_getElem (by simp; omega) fun i hi _ => ?_⟩
  rw [Region.length_read] at hi
  have hlt : p + (s.clusterSkip + i) < l.length := by omega
  have hx : (l.drop p)[s.clusterSkip + i]? = some l[p + (s.clusterSkip + i)] := by
    rw [List.getElem?_drop, List.getElem?_eq_getElem hlt]
  rw [Region.getElem_read, hpart.cbuf_eq (by omega) hx, List.getElem_take, List.getElem_drop]
  simp only [Nat.add_assoc]

variable {pos n : ℕ}

/-- The last of the `n` bytes from `pos` on is in the part at index `p`. -/
def Bpb.EndsIn (bpb : Bpb) (p pos n : ℕ) : Prop :=
  p * bpb.clusterBytes < pos + n ∧ pos + n ≤ (p + 512) * bpb.clusterBytes

omit hfirst ha in
/-- What is left of a part is copied. -/
theorem AtPart.copy (h : AtPart ss bpb disk l a c₁ p s) (hskip : s.clusterSkip < maxDirCluster)
    (hp : p + s.clusterSkip < l.length)
    (hc : Copies ss bpb disk l pos n ((p + s.clusterSkip) * bpb.clusterBytes) s.toCopying)
    (hpos : 0 < s.size) (hfit : pos + n ≤ l.length * bpb.clusterBytes) :
    ∃ t : Copying, copyClusters ss bpb s.toCopying
        (s.d.cbuf.read s.clusterSkip (s.chainSize - s.clusterSkip)) = t ∧
      AtPart ss bpb disk l a c₁ p { s with toCopying := t, clusterSkip := 0 } ∧
      (t.size = 0 ∧ t.out = ((bpb.content disk l).drop pos).take n ∧ bpb.EndsIn p pos n ∨
        0 < t.size ∧ s.nextChain = true ∧
          Copies ss bpb disk l pos n ((p + 512) * bpb.clusterBytes) t ∧
          t.sectorSkip = 0 ∧ t.dataSkip = 0) := by
  obtain ⟨hchainSize, hclusters⟩ := h.clusters
  rw [hclusters]
  set k := p + s.clusterSkip with hk
  set m := s.chainSize - s.clusterSkip with hm
  obtain ⟨x, hfrom, hpart⟩ := h.part
  have hne : (l.drop k).take m ≠ [] := by
    have : ((l.drop k).take m).length ≠ 0 := by
      rw [List.length_take, List.length_drop]
      omega
    exact fun hnil => this (by rw [hnil]; rfl)
  have hcopied := copyClusters_spec hss hsize hpart.sound hc.bufSize hc.dataSkip hc.sectorSkip
    (fun c hc => hchain.ok c (List.mem_of_mem_drop (List.mem_of_mem_take hc))) (.inl hne)
  have hsector : (copyClusters ss bpb s.toCopying ((l.drop k).take m)).sectorSkip = 0 :=
    copyClusters_sectorSkip ss bpb (.inr ⟨hne, hpos⟩)
  generalize copyClusters ss bpb s.toCopying ((l.drop k).take m) = t at *
  rw [hc.bytes] at hcopied
  have hle := hc.le
  have hplace := hc.place
  have hshorter := hc.skip_lt hsize
  have hlength := hc.length_bytes hfit m
  have htsize : t.size = s.size - min s.size (m * bpb.clusterBytes - (s.sectorSkip * ss + s.dataSkip)) := by
    rw [hcopied.size, hlength]
  have hout : t.out = ((bpb.content disk l).drop pos).take (n - t.size) := by
    have hsum : n - t.size = n - s.size +
        min s.size (m * bpb.clusterBytes - (s.sectorSkip * ss + s.dataSkip)) := by omega
    rw [hcopied.out, hc.out, hsum, List.take_add, List.drop_drop]
  have hat : AtPart ss bpb disk l a c₁ p { s with toCopying := t, clusterSkip := 0 } := by
    refine ⟨⟨x, hfrom, hcopied.sound, ?_, ?_, ?_⟩, h.start, h.last, h.full⟩
    · exact hcopied.lastChainCluster.trans hpart.cluster
    · exact hcopied.lastChainResult.trans hpart.result
    · change t.d.cbuf.read 0 _ = _
      rw [hcopied.cbuf]
      exact hpart.stored
  refine ⟨t, rfl, hat, ?_⟩
  have hmul : (k + m) * bpb.clusterBytes = k * bpb.clusterBytes + m * bpb.clusterBytes :=
    Nat.add_mul k m _
  rcases Nat.eq_zero_or_pos t.size with hzero | htpos
  · have hlow : p * bpb.clusterBytes ≤ k * bpb.clusterBytes :=
      Nat.mul_le_mul_right _ (Nat.le_add_right p _)
    have hhigh : (k + m) * bpb.clusterBytes ≤ (p + 512) * bpb.clusterBytes :=
      Nat.mul_le_mul_right _ (by have : maxDirCluster = 512 := rfl; omega)
    have hone : bpb.clusterBytes ≤ m * bpb.clusterBytes := Nat.le_mul_of_pos_left _ (by omega)
    exact .inl ⟨hzero, by rw [hout, hzero, Nat.sub_zero], by omega, by omega⟩
  · have hdata : t.dataSkip = 0 := hcopied.skipped.resolve_left htpos.ne'
    have hlength' : (l.drop p).length = l.length - p := List.length_drop
    -- the last part would have been long enough
    have hfull : maxDirCluster ≤ (l.drop p).length := by
      by_contra hshort
      have hkm : k + m = l.length := by omega
      rw [hkm] at hmul
      omega
    have hkm : k + m = p + 512 := by
      have : maxDirCluster = 512 := rfl
      omega
    have hone : bpb.clusterBytes ≤ m * bpb.clusterBytes := Nat.le_mul_of_pos_left _ (by omega)
    refine .inr ⟨htpos, (h.full hfull).2.1, ⟨hout, by omega, hcopied.bufSize, hcopied.dataSkip, ?_, ?_⟩,
      hsector, hdata⟩
    · rw [hsector]
      exact (Nat.zero_le _).trans_lt hc.sectorSkip
    · rw [hsector, hdata, ← hkm, hmul]
      omega

/-- The state behind a round: all is copied, or all of the part. -/
structure Behind (ss : ℕ) (bpb : Bpb) (disk : Region Byte) (l : List ℕ) (a c₁ pos n p : ℕ)
    (s : ReadScan) : Prop where
  atPart : AtPart ss bpb disk l a c₁ p s
  clusterSkip : s.clusterSkip = 0
  done : s.size = 0 ∧ s.out = ((bpb.content disk l).drop pos).take n ∧ bpb.EndsIn p pos n ∨
    0 < s.size ∧ s.nextChain = true ∧
      Copies ss bpb disk l pos n ((p + 512) * bpb.clusterBytes) s.toCopying

/-- A round that gets the part at index `p`. -/
theorem AtPart.readPart (h : AtPart ss bpb disk l a c₁ p (nextPart ss bpb s))
    (hp : p + s.clusterSkip < l.length)
    (hc : Copies ss bpb disk l pos n ((p + s.clusterSkip) * bpb.clusterBytes) s.toCopying)
    (hpos : 0 < s.size) (hfit : pos + n ≤ l.length * bpb.clusterBytes) :
    ∃ s' p', readPart ss bpb s = s' ∧ p ≤ p' ∧ Behind ss bpb disk l a c₁ pos n p' s' := by
  obtain ⟨hcopying, hclusterSkip⟩ := nextPart_same ss bpb s
  unfold UsbMass.readPart
  dsimp only
  generalize nextPart ss bpb s = s₁ at *
  rw [← hclusterSkip] at hp hc
  obtain ⟨s₂, p', hskipped, hat, hlt, hle, hsum, hcopying'⟩ :=
    h.skipParts hss hsize hchain hfirst ha hp le_rfl
  rw [hskipped]
  have hsame : s₂.toCopying = { s.toCopying with d := s₂.d } := by rw [hcopying', hcopying]
  have hc' : Copies ss bpb disk l pos n ((p' + s₂.clusterSkip) * bpb.clusterBytes)
      s₂.toCopying := by
    rw [hsum, hsame]
    exact ⟨hc.out, hc.le, hc.bufSize, hc.dataSkip, hc.sectorSkip, hc.place⟩
  obtain ⟨t, ht, hat', hdone⟩ := hat.copy hss hsize hchain hlt (hsum ▸ hp) hc'
    (by rw [hsame]; exact hpos) hfit
  refine ⟨_, p', rfl, hle, ⟨?_, rfl, ?_⟩⟩
  · rw [ht]
    exact hat'
  · rw [ht]
    rcases hdone with hdone | ⟨htpos, hnext, hcopies, -⟩
    · exact .inl hdone
    · exact .inr ⟨htpos, hnext, hcopies⟩

/-- The loop over the parts. -/
theorem Behind.loop (h : Behind ss bpb disk l a c₁ pos n p s)
    (hfit : pos + n ≤ l.length * bpb.clusterBytes) {fuel : ℕ} (hfuel : l.length - p < fuel) :
    ∃ s' p', whileM (fun s => s.nextChain && decide (0 < s.size))
        (fun s => some (UsbMass.readPart ss bpb s)) fuel s = some s' ∧
      AtPart ss bpb disk l a c₁ p' s' ∧ s'.out = ((bpb.content disk l).drop pos).take n ∧
      bpb.EndsIn p' pos n := by
  induction fuel generalizing s p with
  | zero => omega
  | succ fuel ih =>
      rcases h.done with ⟨hzero, hdone⟩ | ⟨hpos, hnext, hc⟩
      · exact ⟨s, p, whileM_of_not (by simp [hzero]) fuel, h.atPart, hdone⟩
      · have hp : p + 512 < l.length := by
          have hplace := hc.place
          have hle := hc.le
          refine Nat.lt_of_mul_lt_mul_right (a := bpb.clusterBytes) ?_
          omega
        have hc' : Copies ss bpb disk l pos n ((p + 512 + s.clusterSkip) * bpb.clusterBytes)
            s.toCopying := by rwa [h.clusterSkip]
        obtain ⟨s', p', hs', hle, hbehind⟩ := (h.atPart.next hss hsize hchain hfirst ha
          hp).readPart hss hsize hchain hfirst ha (by rwa [h.clusterSkip]) hc' hpos hfit
        rw [whileM_of_body (by simp [hnext, hpos]) (by rw [hs'])]
        exact ih hbehind (by omega)

end Parts

/-! ### A read -/

/-- The entry of the seek table for a place does not lie behind it. -/
theorem chainRecordAt_spec (bpb : Bpb) {dir : FatDir} (hzero : (dir.chain 0).index = 0)
    (filePos : ℕ) : ∃ j < dirChainSize, chainRecordAt bpb dir filePos = dir.chain j ∧
      (dir.chain j).index * bpb.clusterBytes ≤ filePos := by
  unfold chainRecordAt
  dsimp only
  cases hfind : (List.range (dirChainSize - 1)).find? _ with
  | some i =>
      have hmem := List.mem_range.mp (List.mem_of_find?_eq_some hfind)
      have hcond := List.find?_some hfind
      rw [Bool.and_eq_true, decide_eq_true_eq] at hcond
      exact ⟨i, by omega, rfl, hcond.1⟩
  | none =>
      have hall : ∀ i ≤ dirChainSize - 1, (dir.chain i).index * bpb.clusterBytes ≤ filePos := by
        intro i
        induction i with
        | zero => simp [hzero]
        | succ i ih =>
            intro hi
            have hnot := List.find?_eq_none.mp hfind i (List.mem_range.mpr hi)
            simp only [ih (by omega), decide_true, Bool.true_and, decide_eq_true_eq, not_lt] at hnot
            exact hnot
      exact ⟨dirChainSize - 1, by decide, rfl, hall _ le_rfl⟩

/-- A place in a file as clusters, sectors and bytes behind an entry of the seek table. -/
theorem place_eq (cs ss : ℕ) {i filePos : ℕ} (hle : i * (cs * ss) ≤ filePos) :
    filePos = (i + (filePos - i * (cs * ss)) / ss / cs) * (cs * ss) +
      (filePos - i * (cs * ss)) / ss % cs * ss + filePos % ss := by
  obtain ⟨x, rfl⟩ := Nat.exists_eq_add_of_le hle
  have hmod : (i * (cs * ss) + x) % ss = x % ss := by
    rw [← Nat.mul_assoc, Nat.mul_add_mod_self_right]
  rw [Nat.add_sub_cancel_left, hmod]
  have hsectors := Nat.div_add_mod' (x / ss) cs
  have hbytes := Nat.div_add_mod' x ss
  calc i * (cs * ss) + x = i * (cs * ss) + ((x / ss / cs * cs + x / ss % cs) * ss + x % ss) := by
        rw [hsectors, hbytes]
    _ = _ := by ring

/-- `fat_readFile`, if the part that the driver has for the entry of the seek table starts `k`
clusters behind it. -/
theorem fatReadFile_spec (hss : SizeOk ss) (hsize : bpb.sectorSize = ss)
    (hchain : bpb.IsChain disk c₀ l) {d d' : Driver} {dir : FatDir} {filePos n k fuel : ℕ}
    {r : ChainRecord} (hr : chainRecordAt bpb dir filePos = r) (hcluster : l[r.index]? = some r.cluster)
    (hle : r.index * bpb.clusterBytes ≤ filePos)
    (hget : fatGetClusterChain ss bpb d r.cluster true = (chainResult (l.drop (r.index + k)), d'))
    (hpart : d'.HasPart ss disk r.cluster (l.drop (r.index + k)))
    (hfit : filePos + k * bpb.clusterBytes + n ≤ l.length * bpb.clusterBytes)
    (hcs : 0 < bpb.clusterSize) (hfuel : l.length + 1 < fuel) :
    ∃ d'', fatReadFile ss bpb fuel d dir filePos n =
        some (((bpb.content disk l).drop (filePos + k * bpb.clusterBytes)).take n, d'') ∧
      (n = 0 ∧ d'' = d ∨
        ∃ p x, PartFrom l (r.index + k) r.cluster p x ∧ d''.HasPart ss disk x (l.drop p) ∧
          bpb.EndsIn p (filePos + k * bpb.clusterBytes) n) := by
  have htwo := (hchain.ok r.cluster (List.mem_of_getElem? hcluster)).two_le
  obtain ⟨fuel, rfl⟩ := Nat.exists_eq_add_of_le' (Nat.one_le_of_lt hfuel)
  unfold fatReadFile fatGetClusterAtFilePos
  rw [hr]
  dsimp only
  rw [if_neg (by omega)]
  set s : ReadScan := ⟨⟨d, n, [], ss, filePos % bpb.sectorSize,
    (filePos - r.index * bpb.clusterBytes) / bpb.sectorSize % bpb.clusterSize⟩,
    (filePos - r.index * bpb.clusterBytes) / bpb.sectorSize / bpb.clusterSize, r.cluster, 0, true,
    true⟩ with hs
  rcases Nat.eq_zero_or_pos n with rfl | hn
  · rw [whileM_of_not (by simp [hs])]
    exact ⟨d, by simp [hs], .inl ⟨rfl, rfl⟩⟩
  · -- the bytes come from a place `k` clusters behind the one that was asked for
    have hplace : filePos = (r.index + s.clusterSkip) * bpb.clusterBytes + s.sectorSkip * ss +
        s.dataSkip := by
      rw [hs, ← hsize]
      exact place_eq bpb.clusterSize bpb.sectorSize hle
    have hplace' : filePos + k * bpb.clusterBytes = (r.index + k + s.clusterSkip) * bpb.clusterBytes +
        s.sectorSkip * ss + s.dataSkip := by
      rw [Nat.add_right_comm r.index, Nat.add_mul _ k]
      omega
    have hp : r.index + k + s.clusterSkip < l.length := by
      refine Nat.lt_of_mul_lt_mul_right (a := bpb.clusterBytes) ?_
      omega
    have hpos : 0 < bpb.sectorSize := by
      have := hss.le
      omega
    have hat : AtPart ss bpb disk l (r.index + k) r.cluster (r.index + k) (nextPart ss bpb s) :=
      .of_get (by omega) rfl (.inl ⟨rfl, rfl⟩) hget hpart
    have hcopies : Copies ss bpb disk l (filePos + k * bpb.clusterBytes) n
        ((r.index + k + s.clusterSkip) * bpb.clusterBytes) s.toCopying := by
      refine ⟨?_, le_rfl, rfl, ?_, Nat.mod_lt _ hcs, ?_⟩
      · rw [show s.size = n from rfl, Nat.sub_self, List.take_zero]
      · exact hsize ▸ Nat.mod_lt _ hpos
      · rw [show s.size = n from rfl, Nat.sub_self, Nat.add_zero, hplace']
    -- the first part is read from where the entry stands, the others one after the other
    obtain ⟨s', p, hround, hle', hbehind⟩ := hat.readPart hss hsize hchain hcluster
      (Nat.le_add_right _ k) hp hcopies hn hfit
    obtain ⟨s'', p', hloop, hat', hout, hends⟩ := hbehind.loop hss hsize hchain hcluster
      (Nat.le_add_right _ k) hfit (show l.length - p < fuel by omega)
    rw [whileM_of_body (by simp [hs, hn]) (by rw [hround]), hloop]
    obtain ⟨x, hfrom, hpart'⟩ := hat'.part
    exact ⟨s''.d, by rw [Option.bind_eq_bind, Option.bind_some, hout], .inr
      ⟨p', x, hfrom, hpart', hends⟩⟩

end Ps2rd.UsbMass
