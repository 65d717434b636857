import Ps2rd.UsbMass.Coherence

/-!
# The sector cache is transparent

A file system that reads and changes sectors through the cache sees what it would see
without it, and after a flush the device has everything.

A sector that is only allocated, not read, makes an exception.  Its slot keeps what the
evicted block left in it, and as the slot is dirty afterwards this goes to the device
together with the sector, over its neighbours in the block.  `enlargeDirentryClusterSpace`
allocates the sectors of a cluster one by one; that is fine for clusters that consist of
whole blocks, because then the loop comes to the neighbours itself.
-/

namespace Ps2rd.UsbMass

variable {ss : ℕ} {c : Cache} {m : Region Byte} {i s : ℕ}

/-! ### Sectors that are only allocated -/

/-- What a device has become when sector `s` was filled with zeros in slot `i` of the cache:
the rest of the block is what the slot had in it. -/
structure Zeroed (ss s i : ℕ) (c : Cache) (m m' : Region Byte) : Prop where
  sector : ∀ x, s * ss ≤ x → x < s * ss + ss → m' x = 0
  inside : ∀ x, x / 4096 = s / indexLimit ss → x < s * ss ∨ s * ss + ss ≤ x →
    m' x = c.sectorBuf (4096 * i + x % 4096)
  outside : ∀ x, x / 4096 ≠ s / indexLimit ss → m' x = m x

theorem zeroed_write (hss : SizeOk ss) (s i : ℕ) (c : Cache) (m : Region Byte) :
    Zeroed ss s i c m (m.write (4096 * (s / indexLimit ss))
      ((c.sectorBuf.write (4096 * i + s % indexLimit ss * ss) (List.replicate ss 0)).block
        4096 i)) := by
  have hstart := hss.sector_start s
  have hroom := hss.sector_add_le s
  refine ⟨fun x hge hlt => ?_, fun x hx hbeside => ?_, fun x hx => ?_⟩
  · rw [Region.write_block_of_div_eq (by norm_num) _ _ (by omega),
      Region.write_of_mem _ (by omega) (by rw [List.length_replicate]; omega),
      List.getElem_replicate]
  · rw [Region.write_block_of_div_eq (by norm_num) _ _ hx, Region.write_of_disjoint]
    rw [List.length_replicate]
    omega
  · exact Region.write_block_of_div_ne (by norm_num) _ _ hx

/-- One round of the cleaning loop. -/
theorem Sound.zeroed (h : Sound ss 0 c m) (hss : SizeOk ss) (hs : s < freeSector) :
    ∃ i < cacheSize, ((c.slots ss).tag i = some (s / indexLimit ss) ∨
        (c.slots ss).Absent (s / indexLimit ss)) ∧
      ∃ c' m', zeroSector ss c s = some c' ∧ Sound ss 0 c' m' ∧
        (c'.slots ss).tag i = some (s / indexLimit ss) ∧ Zeroed ss s i c m m' := by
  have hk := div_mul_lt_freeSector hs (indexLimit ss)
  have hfit : s % indexLimit ss * ss + (List.replicate ss (0 : Byte)).length ≤ 4096 := by
    rw [List.length_replicate]
    exact hss.sector_add_le s
  have halike := alike_getIndexRead ss c s
  unfold zeroSector allocSector
  rcases hread : getIndexRead ss c s with ⟨_ | index, c₁⟩
  · rw [hread] at halike
    have hsound₁ := h.alike halike
    have habsent := h.absent_of_none hss hs (by rw [hread])
    obtain ⟨i, hi, hptr, hbuf, c₂, hsound₂, hclean, htag, hbuf₂, hretag⟩ :=
      hsound₁.evicted hss (s / indexLimit ss)
    have habsent₂ : (c₂.slots ss).Absent (s / indexLimit ss) := by
      rwa [WriteBack.Absent, htag, halike.slots_eq]
    dsimp only
    rw [hptr]
    obtain ⟨c', hwrite, hsound', htag'⟩ := hsound₂.written hss hs hi (.inr ⟨hclean, habsent₂⟩)
      (hretag.store _ _) hfit (by rw [Cache.store, hbuf, hbuf₂])
    rw [Cache.store, hbuf, halike.buf] at hsound'
    exact ⟨i, hi, .inr habsent, c', _, hwrite, hsound', htag', zeroed_write hss s i c m⟩
  · rw [hread] at halike
    obtain ⟨i, htag, hptr⟩ := h.index_of_some hss hs (by rw [hread])
    have hi := (tag_eq_some_iff.mp htag).1
    have hsound₁ := h.alike halike
    have htag₁ : (c₁.slots ss).tag i = some (s / indexLimit ss) := by rw [halike.slots_eq, htag]
    dsimp only
    rw [hptr]
    obtain ⟨c', hwrite, hsound', htag'⟩ := hsound₁.written hss hs hi (.inl htag₁)
      ((hsound₁.placed.retagged htag₁).store _ _) hfit rfl
    rw [Cache.store, halike.buf] at hsound'
    exact ⟨i, hi, .inl htag, c', _, hwrite, hsound', htag', zeroed_write hss s i c m⟩

/-- In a slot that had the block, nothing but the sector has changed. -/
theorem Zeroed.eq_of_tag {m' : Region Byte} (h : Zeroed ss s i c m m') (hsound : Sound ss 0 c m)
    (htag : (c.slots ss).tag i = some (s / indexLimit ss)) {x : ℕ}
    (hx : x < s * ss ∨ s * ss + ss ≤ x) : m' x = m x := by
  by_cases hin : x / 4096 = s / indexLimit ss
  · have hline := Region.block_eq_block_iff.mp (hsound.represents.line i _ htag) (x % 4096)
      (Nat.mod_lt x (by norm_num))
    rw [← hin, Nat.div_add_mod] at hline
    rw [h.inside x hin hx, hline]
  · exact h.outside x hin

/-- The cleaning loop after `j` rounds: if it is inside of a block, the rest of that block is
anything, and the block is in the cache. -/
structure Cleaning (ss start j : ℕ) (m m' : Region Byte) (c : Cache) : Prop where
  sound : Sound ss 0 c m'
  below : ∀ x < start * ss, m' x = m x
  zero : ∀ x, start * ss ≤ x → x < (start + j) * ss → m' x = 0
  above : ∀ x, (start + j) * ss ≤ x →
    (j % indexLimit ss ≠ 0 → x / 4096 ≠ (start + j) / indexLimit ss) → m' x = m x
  cached : j % indexLimit ss ≠ 0 → ¬ (c.slots ss).Absent ((start + j) / indexLimit ss)

/-- A round leaves alone what lies below its sector. -/
theorem Cleaning.eq_below {m' m'' : Region Byte} {start j : ℕ} (h : Cleaning ss start j m m' c)
    (hss : SizeOk ss) (hstart : indexLimit ss ∣ start)
    (hslot : (c.slots ss).tag i = some ((start + j) / indexLimit ss) ∨
      (c.slots ss).Absent ((start + j) / indexLimit ss))
    (hzeroed : Zeroed ss (start + j) i c m' m'') {x : ℕ} (hx : x < (start + j) * ss) :
    m'' x = m' x := by
  rcases hslot with htag | habsent
  · exact hzeroed.eq_of_tag h.sound htag (.inl hx)
  · -- the round begins a block
    have hmod : (start + j) % indexLimit ss = 0 := by
      by_contra hne
      rw [Nat.add_mod, Nat.mod_eq_zero_of_dvd hstart, Nat.zero_add, Nat.mod_mod] at hne
      exact h.cached hne habsent
    have hsector := hss.sector_start (start + j)
    rw [hmod, Nat.zero_mul, Nat.add_zero] at hsector
    refine hzeroed.outside x ?_
    omega

/-- The bytes behind a round lie in the same block only if another round follows there. -/
theorem div_ne_of_succ_le (hss : SizeOk ss) {x : ℕ} (hx : s * ss + ss ≤ x)
    (hrest : (s + 1) % indexLimit ss ≠ 0 → x / 4096 ≠ (s + 1) / indexLimit ss) :
    x / 4096 ≠ s / indexLimit ss := by
  intro hblock
  have hsector := hss.sector_start (s + 1)
  have hsucc : (s + 1) * ss = s * ss + ss := by ring
  by_cases hend : (s + 1) % indexLimit ss = 0
  · rw [hend, Nat.zero_mul, Nat.add_zero, Nat.succ_div, if_pos (Nat.dvd_of_mod_eq_zero hend)]
      at hsector
    omega
  · refine hrest hend ?_
    rw [hblock, Nat.succ_div, if_neg (fun hdvd => hend (Nat.mod_eq_zero_of_dvd hdvd)), Nat.add_zero]

theorem Cleaning.step {m' : Region Byte} {start j : ℕ} (h : Cleaning ss start j m m' c)
    (hss : SizeOk ss) (hstart : indexLimit ss ∣ start) (hs : start + j < freeSector) :
    ∃ c' m'', zeroSector ss c (start + j) = some c' ∧ Cleaning ss start (j + 1) m m'' c' := by
  obtain ⟨i, hi, hslot, c', m'', hzero, hsound, htag, hzeroed⟩ := h.sound.zeroed hss hs
  have hbelow : ∀ x < (start + j) * ss, m'' x = m' x := fun x hx =>
    h.eq_below hss hstart hslot hzeroed hx
  have hle : start * ss ≤ (start + j) * ss := Nat.mul_le_mul_right ss (Nat.le_add_right _ _)
  have hsucc : (start + (j + 1)) * ss = (start + j) * ss + ss := by ring
  have hmod : ∀ t, (start + t) % indexLimit ss = t % indexLimit ss := fun t => by
    rw [Nat.add_mod, Nat.mod_eq_zero_of_dvd hstart, Nat.zero_add, Nat.mod_mod]
  refine ⟨c', m'', hzero, hsound, fun x hx => ?_, fun x hge hlt => ?_, fun x hge hrest => ?_, ?_⟩
  · rw [hbelow x (hx.trans_le hle), h.below x hx]
  · rw [hsucc] at hlt
    by_cases hx : x < (start + j) * ss
    · rw [hbelow x hx, h.zero x hge hx]
    · exact hzeroed.sector x (not_lt.mp hx) hlt
  · rw [hsucc] at hge
    have hne : x / 4096 ≠ (start + j) / indexLimit ss :=
      div_ne_of_succ_le hss hge (by rwa [Nat.add_assoc, hmod])
    rw [hzeroed.outside x hne, h.above x (by omega) fun _ => hne]
  · intro hne habsent
    refine habsent i ?_
    rw [htag, ← Nat.add_assoc, Nat.succ_div, if_neg, Nat.add_zero]
    intro hdvd
    rw [← hmod, ← Nat.add_assoc] at hne
    exact hne (Nat.mod_eq_zero_of_dvd hdvd)

/-- The cleaning loop fills whole blocks with zeros. -/
theorem Sound.cleaned_range (h : Sound ss 0 c m) (hss : SizeOk ss) {start count : ℕ}
    (hstart : indexLimit ss ∣ start) (hcount : indexLimit ss ∣ count)
    (hs : start + count ≤ freeSector) :
    ∃ c', cleanSectors ss c start count = some c' ∧
      Sound ss 0 c' (m.write (start * ss) (List.replicate (count * ss) 0)) := by
  have hloop : ∀ j ≤ count, ∃ c' m', (List.range j).foldlM
      (fun c i => zeroSector ss c (start + i)) c = some c' ∧ Cleaning ss start j m m' c' := by
    intro j
    induction j with
    | zero =>
        intro _
        refine ⟨c, m, rfl, h, fun _ _ => rfl, fun x hge hlt => ?_, fun _ _ _ => rfl, fun hne => ?_⟩
        · exact absurd hlt (not_lt.mpr hge)
        · exact absurd (Nat.zero_mod _) hne
    | succ j ih =>
        intro hj
        obtain ⟨c', m', hfold, hcleaning⟩ := ih (by omega)
        obtain ⟨c'', m'', hzero, hcleaning'⟩ := hcleaning.step hss hstart (by omega)
        refine ⟨c'', m'', ?_, hcleaning'⟩
        rw [List.range_succ, List.foldlM_append, hfold]
        simp [hzero]
  obtain ⟨c', m', hfold, hcleaning⟩ := hloop count le_rfl
  refine ⟨c', hfold, ?_⟩
  have heq : m' = m.write (start * ss) (List.replicate (count * ss) 0) := by
    funext x
    have hend : (start + count) * ss = start * ss + count * ss := Nat.add_mul _ _ _
    by_cases hlow : x < start * ss
    · rw [hcleaning.below x hlow, Region.write_of_disjoint m (.inl hlow)]
    by_cases hhigh : x < (start + count) * ss
    · rw [hcleaning.zero x (not_lt.mp hlow) hhigh, Region.write_of_mem m (not_lt.mp hlow)
        (by rw [List.length_replicate]; omega), List.getElem_replicate]
    · rw [hcleaning.above x (not_lt.mp hhigh) fun hne => absurd (Nat.mod_eq_zero_of_dvd hcount) hne,
        Region.write_of_disjoint m (.inr (by rw [List.length_replicate]; omega))]
  exact heq ▸ hcleaning.sound

/-! ### Whole sessions -/

/-- What the file system does with the cache. -/
inductive Access where
  /-- a sector is read -/
  | read (sector : ℕ)
  /-- bytes are copied into a sector -/
  | change (sector off : ℕ) (data : List Byte)
  /-- sectors are filled with zeros -/
  | clean (start count : ℕ)
  | flush

/-- An access through the cache, with the bytes that it reads. -/
def Access.perform (ss : ℕ) (c : Cache) : Access → Option (List Byte × Cache)
  | .read sector =>
      let (ptr, c) := readSector ss c sector
      some (c.sectorBuf.read ptr ss, c)
  | .change sector off data => (changeSector ss c sector off data).map fun c => ([], c)
  | .clean start count => (cleanSectors ss c start count).map fun c => ([], c)
  | .flush => some ([], (flushSectors ss c).2)

/-- The same access to a device without a cache. -/
def Access.direct (ss : ℕ) (m : Region Byte) : Access → List Byte × Region Byte
  | .read sector => (m.read (sector * ss) ss, m)
  | .change sector off data => ([], m.write (sector * ss + off) data)
  | .clean start count => ([], m.write (start * ss) (List.replicate (count * ss) 0))
  | .flush => ([], m)

/-- The access stays below the number of a free slot, in its sector, and cleans whole
blocks only. -/
def Access.Ok (ss : ℕ) : Access → Prop
  | .read sector => sector < freeSector
  | .change sector off data => sector < freeSector ∧ off + data.length ≤ ss
  | .clean start count =>
      indexLimit ss ∣ start ∧ indexLimit ss ∣ count ∧ start + count ≤ freeSector
  | .flush => True

/-- The accesses of a session, with everything that they read. -/
def session (ss : ℕ) : Cache → List Access → Option (List (List Byte) × Cache)
  | c, [] => some ([], c)
  | c, a :: as => do
      let (bytes, c) ← a.perform ss c
      let (rest, c) ← session ss c as
      some (bytes :: rest, c)

def directSession (ss : ℕ) : Region Byte → List Access → List (List Byte) × Region Byte
  | m, [] => ([], m)
  | m, a :: as =>
      ((a.direct ss m).1 :: (directSession ss (a.direct ss m).2 as).1,
        (directSession ss (a.direct ss m).2 as).2)

/-- An access through a cache that stands for a device. -/
theorem Sound.perform (h : Sound ss 0 c m) (hss : SizeOk ss) {a : Access} (hok : a.Ok ss) :
    ∃ c', a.perform ss c = some ((a.direct ss m).1, c') ∧ Sound ss 0 c' (a.direct ss m).2 := by
  cases a with
  | read s =>
      obtain ⟨i, hptr, hsound, htag⟩ := h.read hss hok
      refine ⟨_, ?_, hsound⟩
      have hline := hsound.represents.line i _ htag
      rw [line_slots] at hline
      rw [Access.perform, Access.direct]
      dsimp only
      rw [hptr, Region.read_of_block_eq hline (hss.sector_add_le s), hss.sector_start]
  | change s off data =>
      obtain ⟨c', hchange, hsound⟩ := h.changed hss hok.1 hok.2
      exact ⟨c', by rw [Access.perform, hchange]; rfl, hsound⟩
  | clean start count =>
      obtain ⟨c', hclean, hsound⟩ := h.cleaned_range hss hok.1 hok.2.1 hok.2.2
      exact ⟨c', by rw [Access.perform, hclean]; rfl, hsound⟩
  | flush => exact ⟨_, rfl, (h.flush hss).sound⟩

theorem Sound.session (h : Sound ss 0 c m) (hss : SizeOk ss) {accesses : List Access}
    (hok : ∀ a ∈ accesses, a.Ok ss) :
    ∃ c', session ss c accesses = some ((directSession ss m accesses).1, c') ∧
      Sound ss 0 c' (directSession ss m accesses).2 := by
  induction accesses generalizing c m with
  | nil => exact ⟨c, rfl, h⟩
  | cons a as ih =>
      obtain ⟨c₁, hperform, hsound₁⟩ := h.perform hss (hok a List.mem_cons_self)
      obtain ⟨c₂, hrest, hsound₂⟩ := ih hsound₁ fun b hb => hok b (List.mem_cons_of_mem _ hb)
      refine ⟨c₂, ?_, hsound₂⟩
      simp only [UsbMass.session, hperform, hrest, Option.bind_eq_bind, Option.bind_some,
        directSession]

theorem sound_scacheInit (ss : ℕ) (sectorBuf device : Region Byte) :
    Sound ss 0 (scacheInit sectorBuf device) device := by
  have htag : ∀ i, ((scacheInit sectorBuf device).slots ss).tag i = none := fun i => by
    simp [Cache.slots, scacheInit]
  refine ⟨fun i _ hused => absurd rfl hused, fun _ _ _ => rfl, fun _ _ => Nat.zero_le _,
    Nat.le_refl _, Nat.succ_pos _, ⟨?_, ?_, fun _ _ => rfl⟩⟩
  · intro i j k hi
    simp [htag] at hi
  · intro i k hi
    simp [htag] at hi

end Ps2rd.UsbMass
