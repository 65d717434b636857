import Ps2rd.UsbMass.ClusterChain

/-!
# The seek table of a file

`fat_setFatDirChain` follows the chain of a file once and notes 32 of its clusters: the one
with number `j` is where the first `j` of 32 equal pieces of the file end.  All that reading
relies on is that each entry of the table has a cluster of the chain and its index.

The function counts with variables of type `int`.  They hold what is meant up to the cluster
where the table is complete, if the file and one more cluster have less than 2 GiB (`IntSize`).
-/

namespace Ps2rd.UsbMass

variable {ss : ℕ} {disk : Region Byte} {d : Driver} {bpb : Bpb} {l : List ℕ}

/-- The index of entry `j` of the table. -/
def Bpb.seekIndex (bpb : Bpb) (size j : ℕ) : ℕ := (j * (size / dirChainSize) - 1) / bpb.clusterBytes

/-- An entry of the table belongs to the chain `l`. -/
def Bpb.IsRecord (bpb : Bpb) (l : List ℕ) (size j : ℕ) (r : ChainRecord) : Prop :=
  r.index = bpb.seekIndex size j ∧ l[r.index]? = some r.cluster

/-- The size of a file and of one more cluster fits into an `int`. -/
def Bpb.IntSize (bpb : Bpb) (size : ℕ) : Prop := size + bpb.clusterBytes < 2 ^ 31

theorem mul_div_dirChainSize_le {j : ℕ} (hj : j ≤ dirChainSize) (size : ℕ) :
    j * (size / dirChainSize) ≤ size :=
  calc j * (size / dirChainSize)
      ≤ dirChainSize * (size / dirChainSize) := Nat.mul_le_mul_right _ hj
    _ ≤ size := Nat.mul_div_le _ _

/-- The end of piece `j` is reached, if nothing wraps. -/
theorem ofNat_mul_seekBlockSize_le {size j x : ℕ} (hsize : size < 2 ^ 31) (hx : x < 2 ^ 31)
    (hj : j ≤ dirChainSize) :
    Int32.ofNat j * seekBlockSize size ≤ Int32.ofNat x ↔ j * (size / dirChainSize) ≤ x := by
  have hdiv : seekBlockSize size = Int32.ofNat (size / dirChainSize) :=
    (Int32.ofNat_div hsize (by decide)).symm
  rw [hdiv, ← Int32.ofNat_mul]
  exact Int32.ofNat_le_iff_le ((mul_div_dirChainSize_le hj size).trans_lt hsize) hx

/-! ### One cluster -/

/-- The entries that a cluster gets. -/
theorem setChainRecords_spec (blockSize fileSize : Int32) (r : ChainRecord) (n : ℕ) (dir : FatDir)
    (j : ℕ) (hj : j ≤ dirChainSize) (hn : dirChainSize - j ≤ n) :
    ∃ dir' j', setChainRecords blockSize fileSize r n (dir, j) = (dir', j') ∧
      (dir'.size = dir.size ∧ dir'.attr = dir.attr) ∧ j ≤ j' ∧ j' ≤ dirChainSize ∧
      (j' < dirChainSize → ¬ Int32.ofNat j' * blockSize ≤ fileSize) ∧
      ∀ m, (dir'.chain m = dir.chain m ∧ (m < j ∨ j' ≤ m)) ∨
        (dir'.chain m = r ∧ j ≤ m ∧ m < j' ∧ Int32.ofNat m * blockSize ≤ fileSize) := by
  induction n generalizing dir j with
  | zero =>
      refine ⟨dir, j, rfl, ⟨rfl, rfl⟩, le_rfl, hj, by omega, fun m => .inl ⟨rfl, ?_⟩⟩
      omega
  | succ n ih =>
      rw [setChainRecords]
      split_ifs with hcond
      · obtain ⟨dir', j', hset, hsize, hle, hle', hstop, hchain⟩ :=
          ih { dir with chain := Function.update dir.chain j r } (j + 1) hcond.2 (by omega)
        refine ⟨dir', j', hset, hsize, by omega, hle', hstop, fun m => ?_⟩
        by_cases hm : m = j
        · subst hm
          rcases hchain m with ⟨hsame, -⟩ | ⟨-, hlt, -⟩
          · exact .inr ⟨hsame.trans (Function.update_self ..), le_rfl, by omega, hcond.1⟩
          · omega
        · rcases hchain m with ⟨hsame, hout⟩ | ⟨hset, hin⟩
          · exact .inl ⟨hsame.trans (Function.update_of_ne hm ..), by omega⟩
          · exact .inr ⟨hset, by omega, hin.2⟩
      · exact ⟨dir, j, rfl, ⟨rfl, rfl⟩, le_rfl, hj, fun hlt hle => hcond ⟨hle, hlt⟩,
          fun m => .inl ⟨rfl, by omega⟩⟩

/-- `k` clusters of the chain are counted. -/
structure Scanned (bpb : Bpb) (l : List ℕ) (size : ℕ) (attr : Byte) (k : ℕ) (s : ChainScan) :
    Prop where
  index : s.index = k
  fileSize : s.fileSize = Int32.ofNat (k * bpb.clusterBytes)
  dirSize : s.dir.size = size
  dirAttr : s.dir.attr = attr
  pos : 1 ≤ s.j
  le : s.j ≤ dirChainSize
  done : bpb.IntSize size → k = 0 ∨
    (s.j < dirChainSize → k * bpb.clusterBytes < s.j * (size / dirChainSize))
  records : bpb.IntSize size → ∀ j < s.j, bpb.IsRecord l size j (s.dir.chain j)

variable {size k : ℕ} {attr : Byte} {s : ChainScan}

/-- As long as the table is not complete, the bytes that were counted fit into an `int`. -/
theorem Scanned.lt (h : Scanned bpb l size attr k s) (hint : bpb.IntSize size)
    (hj : s.j < dirChainSize) : (k + 1) * bpb.clusterBytes < 2 ^ 31 := by
  unfold Bpb.IntSize at hint
  rw [Nat.succ_mul]
  rcases h.done hint with rfl | hdone
  · omega
  · have hlt := hdone hj
    have hle := mul_div_dirChainSize_le hj.le size
    omega

theorem Scanned.step (h : Scanned bpb l size attr k s) (hpos : 0 < bpb.clusterBytes) {i : ℕ}
    (hi : l[k]? = some (s.d.cbuf i)) :
    Scanned bpb l size attr (k + 1) (scanCluster bpb (seekBlockSize size) s i) ∧
      (scanCluster bpb (seekBlockSize size) s i).d = s.d ∧
      (scanCluster bpb (seekBlockSize size) s i).fileCluster = s.fileCluster ∧
      (scanCluster bpb (seekBlockSize size) s i).nextChain = s.nextChain := by
  have hfileSize : s.fileSize + Int32.ofNat bpb.clusterBytes =
      Int32.ofNat ((k + 1) * bpb.clusterBytes) := by
    rw [h.fileSize, Nat.succ_mul, Int32.ofNat_add]
  obtain ⟨dir', j', hset, hsize, hle, hle', hstop, hchain⟩ := setChainRecords_spec
    (seekBlockSize size) (Int32.ofNat ((k + 1) * bpb.clusterBytes)) ⟨s.d.cbuf i, s.index⟩
    dirChainSize s.dir s.j h.le (Nat.sub_le _ _)
  have hscan : scanCluster bpb (seekBlockSize size) s i =
      { s with dir := dir', j := j', fileSize := Int32.ofNat ((k + 1) * bpb.clusterBytes),
               index := s.index + 1 } := by
    rw [scanCluster, hfileSize, hset]
  -- what the comparison of `int` values says
  have hreach : bpb.IntSize size → s.j < dirChainSize → ∀ m ≤ dirChainSize,
      (Int32.ofNat m * seekBlockSize size ≤ Int32.ofNat ((k + 1) * bpb.clusterBytes) ↔
        m * (size / dirChainSize) ≤ (k + 1) * bpb.clusterBytes) := fun hint hj m hm =>
    ofNat_mul_seekBlockSize_le (lt_of_le_of_lt (Nat.le_add_right _ _) hint) (h.lt hint hj) hm
  rw [hscan]
  refine ⟨⟨by rw [h.index], rfl, hsize.1.trans h.dirSize, hsize.2.trans h.dirAttr,
    h.pos.trans hle, hle', fun hint => .inr fun hlt => ?_, fun hint j hj => ?_⟩, rfl, rfl, rfl⟩
  · dsimp only at hlt ⊢
    have hnot := hstop hlt
    rw [hreach hint (hle.trans_lt hlt) _ hle'] at hnot
    exact not_le.mp hnot
  · dsimp only at hj ⊢
    rcases hchain j with ⟨hsame, hout⟩ | ⟨hnew, hge, -, hreached⟩
    · rw [hsame]
      exact h.records hint j (by omega)
    · -- the file comes to the end of piece `j` in this cluster
      rw [hnew]
      refine ⟨?_, by rw [h.index]; exact hi⟩
      rw [hreach hint (by omega) _ (by omega)] at hreached
      have hbefore : k * bpb.clusterBytes ≤ j * (size / dirChainSize) - 1 := by
        rcases h.done hint with rfl | hdone
        · simp
        · have hlt := hdone (by omega)
          have hmono : s.j * (size / dirChainSize) ≤ j * (size / dirChainSize) :=
            Nat.mul_le_mul_right _ hge
          omega
      rw [h.index, Bpb.seekIndex]
      refine (Nat.div_eq_of_lt_le hbefore ?_).symm
      have hpos' : 0 < (k + 1) * bpb.clusterBytes := Nat.mul_pos (Nat.succ_pos k) hpos
      omega

/-- Only the counters and the table matter. -/
theorem Scanned.congr {s' : ChainScan} (h : Scanned bpb l size attr k s) (hdir : s'.dir = s.dir)
    (hj : s'.j = s.j) (hfileSize : s'.fileSize = s.fileSize) (hindex : s'.index = s.index) :
    Scanned bpb l size attr k s' := by
  obtain ⟨h₁, h₂, h₃, h₄, h₅, h₆, h₇, h₈⟩ := h
  rw [← hdir, ← hj, ← hfileSize, ← hindex] at *
  exact ⟨h₁, h₂, h₃, h₄, h₅, h₆, h₇, h₈⟩

/-- Consecutive clusters of `cbuf`. -/
theorem Scanned.foldl (h : Scanned bpb l size attr k s) (hpos : 0 < bpb.clusterBytes) {i n : ℕ}
    (hcbuf : ∀ m < n, l[k + m]? = some (s.d.cbuf (i + m))) :
    ∃ s', (List.range' i n).foldl (scanCluster bpb (seekBlockSize size)) s = s' ∧
      Scanned bpb l size attr (k + n) s' ∧ s'.d = s.d ∧ s'.fileCluster = s.fileCluster ∧
      s'.nextChain = s.nextChain := by
  induction n generalizing s k i with
  | zero => exact ⟨s, rfl, h, rfl, rfl, rfl⟩
  | succ n ih =>
      obtain ⟨hstep, hd, hfile, hnext⟩ := h.step hpos (hcbuf 0 (Nat.succ_pos n))
      obtain ⟨s', hfold, hscanned, hd', hfile', hnext'⟩ := ih hstep (i := i + 1) fun m hm => by
        have := hcbuf (m + 1) (by omega)
        rw [hd, Nat.add_assoc k, Nat.add_comm 1, Nat.add_assoc i, Nat.add_comm 1]
        exact this
      refine ⟨s', ?_, ?_, hd'.trans hd, hfile'.trans hfile, hnext'.trans hnext⟩
      · rw [List.range'_succ, List.foldl_cons]
        exact hfold
      · rwa [Nat.add_assoc, Nat.add_comm 1] at hscanned

/-! ### The whole chain -/

section Scan

variable (hss : SizeOk ss) (hsize : bpb.sectorSize = ss) (hpos : 0 < bpb.clusterBytes)

include hss hsize hpos

/-- A part of the chain: the last one, or a full one whose last cluster is taken up again. -/
theorem Scanned.part {p c : ℕ} (h : Scanned bpb l size attr (p + s.clusterChainStart) s)
    (hchain : bpb.IsChain disk c l) (hfile : l[p]? = some s.fileCluster)
    (hstart : s.clusterChainStart ≤ 1) (hsound : Sound ss 0 s.d.cache disk)
    (hcached : s.d.lastChainCluster = s.fileCluster → s.d.HasPart ss disk s.fileCluster (l.drop p)) :
    ∃ s', scanPart ss bpb (seekBlockSize size) s = s' ∧
      s'.d.HasPart ss disk s.fileCluster (l.drop p) ∧
      (s'.nextChain = false ∧ Scanned bpb l size attr l.length s' ∨
        s'.nextChain = s.nextChain ∧ s'.clusterChainStart = 1 ∧
          l[p + 511]? = some s'.fileCluster ∧ Scanned bpb l size attr (p + 512) s') := by
  obtain ⟨d', hget, hpart⟩ := fatGetClusterChain_true hss hsize (hchain.drop hfile) hsound hcached
  have hlt := (List.getElem?_eq_some_iff.mp hfile).1
  have hlength : (l.drop p).length = l.length - p := List.length_drop
  have hentry : ∀ i < maxDirCluster, p + i < l.length → l[p + i]? = some (d'.cbuf i) := by
    intro i hi hil
    have hx : (l.drop p)[i]? = some l[p + i] := by
      rw [List.getElem?_drop, List.getElem?_eq_getElem hil]
    rw [hpart.cbuf_eq hi hx, List.getElem?_eq_getElem hil]
  unfold scanPart
  rw [hget]
  dsimp only
  -- the chain ends in this part, or all 512 places of `cbuf` are full
  rcases Nat.lt_or_ge (l.drop p).length maxDirCluster with hshort | hfull
  · have hne : chainResult (l.drop p) ≠ 0 := by
      rw [chainResult_of_lt hshort]
      omega
    rw [if_neg hne, chainResult_of_lt hshort]
    dsimp only
    rw [Int.toNat_natCast]
    have h' : Scanned bpb l size attr (p + s.clusterChainStart)
        { s with d := d', nextChain := false } := h.congr rfl rfl rfl rfl
    obtain ⟨s', hfold, hscanned, hd, -, hnext⟩ := h'.foldl hpos (i := s.clusterChainStart)
      (n := (l.drop p).length - s.clusterChainStart) fun m hm => by
        rw [Nat.add_assoc]
        exact hentry _ (by omega) (by omega)
    rw [hfold]
    have hend : p + s.clusterChainStart + ((l.drop p).length - s.clusterChainStart) = l.length := by
      omega
    rw [hend] at hscanned
    exact ⟨_, rfl, by rw [hd]; exact hpart, .inl ⟨hnext, hscanned.congr rfl rfl rfl rfl⟩⟩
  · have hroom : maxDirCluster = 512 := rfl
    rw [if_pos (chainResult_of_le hfull)]
    dsimp only
    have h' : Scanned bpb l size attr (p + s.clusterChainStart)
        { s with d := d', fileCluster := d'.cbuf (maxDirCluster - 1) } := h.congr rfl rfl rfl rfl
    obtain ⟨s', hfold, hscanned, hd, hfile', hnext⟩ := h'.foldl hpos
      (i := s.clusterChainStart) (n := maxDirCluster - s.clusterChainStart) fun m hm => by
        rw [Nat.add_assoc]
        exact hentry _ (by omega) (by omega)
    rw [hfold]
    have hend : p + s.clusterChainStart + (maxDirCluster - s.clusterChainStart) = p + 512 := by
      omega
    rw [hend] at hscanned
    refine ⟨_, rfl, by rw [hd]; exact hpart, .inr ⟨hnext, rfl, ?_, hscanned.congr rfl rfl rfl rfl⟩⟩
    rw [hfile']
    exact hentry 511 (by omega) (by omega)

/-- The loop over the parts. -/
theorem Scanned.loop {p c : ℕ} (h : Scanned bpb l size attr (p + s.clusterChainStart) s)
    (hchain : bpb.IsChain disk c l) (hfile : l[p]? = some s.fileCluster)
    (hstart : s.clusterChainStart ≤ 1) (hnext : s.nextChain = true)
    (hsound : Sound ss 0 s.d.cache disk)
    (hcached : s.d.lastChainCluster = s.fileCluster → s.d.HasPart ss disk s.fileCluster (l.drop p))
    {fuel : ℕ} (hfuel : l.length - p < fuel) :
    ∃ s' p' x, whileM (·.nextChain)
        (fun s => some (scanPart ss bpb (seekBlockSize size) s)) fuel s = some s' ∧
      Scanned bpb l size attr l.length s' ∧ l[p']? = some x ∧ s'.d.HasPart ss disk x (l.drop p') := by
  induction fuel generalizing s p with
  | zero => omega
  | succ fuel ih =>
      obtain ⟨s', hpart, hcbuf, hresult⟩ :=
        h.part hss hsize hpos hchain hfile hstart hsound hcached
      rw [whileM_of_body hnext (by rw [hpart])]
      rcases hresult with ⟨hlast, hscanned⟩ | ⟨hnext', hstart', hfile', hscanned⟩
      · cases fuel with
        | zero =>
            have := (List.getElem?_eq_some_iff.mp hfile).1
            omega
        | succ fuel =>
            exact ⟨s', p, s.fileCluster, whileM_of_not hlast fuel, hscanned, hfile, hcbuf⟩
      · refine ih (p := p + 511) (by rw [hstart']; exact hscanned) hfile' hstart'.le
          (hnext'.trans hnext) hcbuf.sound (fun hsame => ?_) ?_
        · -- the driver has the part before, and a chain does not come back
          rw [hcbuf.cluster] at hsame
          have := hchain.chain.eq_of_getElem? hfile (hsame ▸ hfile')
          omega
        · have := (List.getElem?_eq_some_iff.mp hfile').1
          omega

end Scan

/-- The table of a file with the chain `l`, and the part of the chain that the driver has
in the end. -/
theorem fatSetFatDirChain_spec (hss : SizeOk ss) (hsize : bpb.sectorSize = ss)
    (hpos : 0 < bpb.clusterBytes) {c : ℕ} (hchain : bpb.IsChain disk c l) {dir : FatDir}
    (hfirst : dir.chain 0 = ⟨c, 0⟩) (hcover : dir.size ≤ l.length * bpb.clusterBytes)
    (hsound : Sound ss 0 d.cache disk) (hcached : d.lastChainCluster = c → d.HasPart ss disk c l)
    {fuel : ℕ} (hfuel : l.length < fuel) :
    ∃ d' dir', fatSetFatDirChain ss bpb fuel d dir = some (d', dir') ∧ dir'.size = dir.size ∧
      dir'.attr = dir.attr ∧
      (bpb.IntSize dir.size → ∀ j < dirChainSize, bpb.IsRecord l dir.size j (dir'.chain j)) ∧
      ∃ p x, l[p]? = some x ∧ d'.HasPart ss disk x (l.drop p) := by
  obtain ⟨t, rfl⟩ := hchain.chain.exists_cons
  have htwo := (hchain.ok c (by simp)).two_le
  have hinit : Scanned bpb (c :: t) dir.size dir.attr 0 ⟨d, dir, c, true, 0, 1, 0, 0, 0⟩ := by
    refine ⟨rfl, by rw [Nat.zero_mul]; rfl, rfl, rfl, le_rfl, (by decide : 1 ≤ dirChainSize),
      fun _ => .inl rfl, fun _ j hj => ?_⟩
    obtain rfl : j = 0 := Nat.lt_one_iff.mp hj
    rw [hfirst]
    exact ⟨by simp [Bpb.seekIndex], rfl⟩
  obtain ⟨s, p, x, hloop, hscanned, hx, hpart⟩ := Scanned.loop (p := 0)
    (s := ⟨d, dir, c, true, 0, 1, 0, 0, 0⟩) hss hsize hpos hinit hchain rfl (Nat.zero_le 1) rfl
    hsound hcached (by rwa [Nat.sub_zero])
  have hdone : bpb.IntSize dir.size → s.j = dirChainSize := by
    -- the pieces of the table do not go beyond the file, nor this beyond its clusters
    refine fun hint => le_antisymm hscanned.le (not_lt.mp fun hlt => ?_)
    rcases hscanned.done hint with hnil | hdone
    · simp at hnil
    · have hbound := hdone hlt
      have := mul_div_dirChainSize_le hlt.le dir.size
      omega
  unfold fatSetFatDirChain
  rw [hfirst, if_neg (by dsimp only; omega), hloop]
  exact ⟨_, _, rfl, hscanned.dirSize, hscanned.dirAttr,
    fun hint j hj => hscanned.records hint j (hdone hint ▸ hj), p, x, hx, hpart⟩

end Ps2rd.UsbMass
