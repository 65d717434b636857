import Ps2rd.Basic

/-!
# Byte-addressed memory

A flat little-endian memory of 32-bit addresses.  Address arithmetic wraps
around, so a region is given by its first address and its size, and an address
lies in it when its distance from the start is below the size.
-/

namespace Ps2rd.Mips

abbrev Mem := Word → Byte

/-- `b` lies in the region of `n` bytes that starts at `a`. -/
def InRange (a : Word) (n : ℕ) (b : Word) : Prop := (b - a).toNat < n

instance (a : Word) (n : ℕ) (b : Word) : Decidable (InRange a n b) :=
  inferInstanceAs (Decidable (_ < _))

theorem toNat_add_sub_self (a : Word) {k : ℕ} (hk : k < 2 ^ 32) :
    (a + BitVec.ofNat 32 k - a).toNat = k := by
  rw [BitVec.add_comm, BitVec.add_sub_cancel, BitVec.toNat_ofNat]
  exact Nat.mod_eq_of_lt hk

theorem InRange.add_self (a : Word) {n k : ℕ} (hk : k < n) (hn : n ≤ 2 ^ 32) :
    InRange a n (a + BitVec.ofNat 32 k) := by
  rw [InRange, toNat_add_sub_self a (by omega)]
  exact hk

theorem InRange.of_add {a b : Word} {n k : ℕ} (h : InRange (a + BitVec.ofNat 32 k) n b)
    (hk : k + n < 2 ^ 32) : InRange a (k + n) b := by
  unfold InRange at *
  have hb := b.isLt
  have ha := a.isLt
  simp only [BitVec.toNat_sub, BitVec.toNat_add, BitVec.toNat_ofNat] at *
  omega

theorem InRange.mono {a b : Word} {n k : ℕ} (h : InRange a n b) (hnk : n ≤ k) : InRange a k b :=
  Nat.lt_of_lt_of_le h hnk

/-- A region that does not wrap around. -/
theorem inRange_ofNat_iff {n k : ℕ} (hk : k + n ≤ 2 ^ 32) (b : Word) :
    InRange (BitVec.ofNat 32 k) n b ↔ k ≤ b.toNat ∧ b.toNat < k + n := by
  unfold InRange
  have hb := b.isLt
  rw [BitVec.toNat_sub, BitVec.toNat_ofNat]
  omega

/-- Two neighbouring regions do not overlap. -/
theorem InRange.not_of_add {a b : Word} {n k : ℕ} (h : InRange (a + BitVec.ofNat 32 k) n b)
    (hk : k + n < 2 ^ 32) : ¬ InRange a k b := by
  unfold InRange at *
  have hb := b.isLt
  have ha := a.isLt
  simp only [BitVec.toNat_sub, BitVec.toNat_add, BitVec.toNat_ofNat] at *
  omega

/-- Natural alignment of an access of `n` bytes. -/
def Aligned (n : ℕ) (a : Word) : Prop := n ∣ a.toNat

instance (n : ℕ) (a : Word) : Decidable (Aligned n a) :=
  inferInstanceAs (Decidable (_ ∣ _))

theorem Aligned.add_of_dvd {n : ℕ} {a b : Word} (hn : n ∣ 2 ^ 32) (ha : Aligned n a)
    (hb : Aligned n b) : Aligned n (a + b) := by
  unfold Aligned at *
  rw [BitVec.toNat_add]
  exact (Nat.dvd_mod_iff hn).mpr (dvd_add ha hb)

theorem Aligned.add {a b : Word} (ha : Aligned 4 a) (hb : Aligned 4 b) : Aligned 4 (a + b) :=
  .add_of_dvd (by decide) ha hb

theorem Aligned.of_dvd {n k : ℕ} {a : Word} (ha : Aligned k a) (h : n ∣ k) : Aligned n a :=
  h.trans ha

namespace Mem

def load8 (m : Mem) (a : Word) : Byte := m a

def load16 (m : Mem) (a : Word) : BitVec 16 := m (a + 1) ++ m a

def load32 (m : Mem) (a : Word) : Word := m (a + 3) ++ m (a + 2) ++ m (a + 1) ++ m a

def load64 (m : Mem) (a : Word) : BitVec 64 := m.load32 (a + 4) ++ m.load32 a

/-- The memory after the low `n` bytes of `v` are stored at `a`. -/
def store (n : ℕ) (m : Mem) (a : Word) {w : ℕ} (v : BitVec w) : Mem := fun b =>
  if InRange a n b then (v >>> (8 * (b - a).toNat)).setWidth 8 else m b

/-- The memory after `n` bytes are copied from `src` to `dst`. -/
def copy (m : Mem) (dst src : Word) (n : ℕ) : Mem := fun b =>
  if InRange dst n b then m (src + (b - dst)) else m b

theorem copy_of_not_inRange {n : ℕ} {m : Mem} {dst src b : Word} (h : ¬ InRange dst n b) :
    m.copy dst src n b = m b :=
  if_neg h

theorem copy_apply_add (m : Mem) (dst src : Word) {n k : ℕ} (hk : k < n) (hn : n ≤ 2 ^ 32) :
    m.copy dst src n (dst + BitVec.ofNat 32 k) = m (src + BitVec.ofNat 32 k) := by
  rw [copy, if_pos (InRange.add_self dst hk hn), BitVec.add_comm dst, BitVec.add_sub_cancel]

theorem store_of_not_inRange {n w : ℕ} {m : Mem} {a b : Word} {v : BitVec w}
    (h : ¬ InRange a n b) : m.store n a v b = m b :=
  if_neg h

/-- A store sees only the low bytes of its value. -/
theorem store_congr {n w w' : ℕ} (m : Mem) (a : Word) {v : BitVec w} {v' : BitVec w'}
    (h : ∀ i < 8 * n, v.getLsbD i = v'.getLsbD i) : m.store n a v = m.store n a v' := by
  funext b
  unfold store
  split_ifs with hb
  · apply BitVec.eq_of_getLsbD_eq
    intro i hi
    have hbit := h (8 * (b - a).toNat + i) (by unfold InRange at hb; omega)
    rw [BitVec.getLsbD_setWidth, BitVec.getLsbD_setWidth, BitVec.getLsbD_ushiftRight,
      BitVec.getLsbD_ushiftRight, hbit]
  · rfl

/-- A value may be cut down to the bytes that are stored. -/
theorem store_of_setWidth_eq {n w k : ℕ} {m : Mem} {a : Word} {v : BitVec w} {v' : BitVec k}
    (hk : k = 8 * n) (h : v.setWidth k = v') : m.store n a v = m.store n a v' := by
  apply store_congr
  intro i hi
  subst h hk
  simp [hi]

theorem load32_congr {m m' : Mem} {a : Word}
    (h : ∀ b, InRange a 4 b → m b = m' b) : m.load32 a = m'.load32 a := by
  have hbyte (k : ℕ) (hk : k < 4) : m (a + BitVec.ofNat 32 k) = m' (a + BitVec.ofNat 32 k) :=
    h _ (InRange.add_self a hk (by decide))
  have hfirst : m a = m' a := by simpa using hbyte 0 (by decide)
  have h1 : m (a + 1) = m' (a + 1) := hbyte 1 (by decide)
  have h2 : m (a + 2) = m' (a + 2) := hbyte 2 (by decide)
  have h3 : m (a + 3) = m' (a + 3) := hbyte 3 (by decide)
  rw [load32, load32, hfirst, h1, h2, h3]

theorem load8_congr {m m' : Mem} {a : Word} (h : ∀ b, InRange a 1 b → m b = m' b) :
    m.load8 a = m'.load8 a :=
  h a (by simp [InRange])

theorem load16_congr {m m' : Mem} {a : Word}
    (h : ∀ b, InRange a 2 b → m b = m' b) : m.load16 a = m'.load16 a := by
  have hfirst : m a = m' a := h a (by simp [InRange])
  have h1 : m (a + 1) = m' (a + 1) := h _ (InRange.add_self a (by decide : 1 < 2) (by decide))
  rw [load16, load16, hfirst, h1]

/-- The bits of four bytes put together. -/
theorem getLsbD_bytes (b₃ b₂ b₁ b₀ : Byte) (i : ℕ) :
    (b₃ ++ b₂ ++ b₁ ++ b₀).getLsbD i =
      if i < 8 then b₀.getLsbD i
      else if i - 8 < 8 then b₁.getLsbD (i - 8)
      else if i - 8 - 8 < 8 then b₂.getLsbD (i - 8 - 8)
      else b₃.getLsbD (i - 8 - 8 - 8) := by
  rw [BitVec.getLsbD_append, BitVec.getLsbD_append, BitVec.getLsbD_append]

/-- The upper half of a word is the half-word two bytes on. -/
theorem load16_add_two (m : Mem) (a : Word) :
    m.load16 (a + 2) = (m.load32 a).extractLsb' 16 16 := by
  apply BitVec.eq_of_getLsbD_eq
  intro i hi
  have h1 : ¬ 16 + i < 8 := by omega
  have h2 : ¬ 16 + i - 8 < 8 := by omega
  have h3 : 16 + i - 8 - 8 = i := by omega
  have hword : (m.load32 a).getLsbD (16 + i) = _ := getLsbD_bytes _ _ _ _ (16 + i)
  have hhalf : (m.load16 (a + 2)).getLsbD i = _ := BitVec.getLsbD_append
  rw [BitVec.getLsbD_extractLsb', hword, hhalf, BitVec.add_assoc]
  simp only [hi, h1, h2, h3, if_false, decide_true, Bool.true_and]
  rfl

/-! ### Reading back -/

/-- A byte of a value that was stored. -/
theorem store_apply_add {n w k : ℕ} (m : Mem) (a : Word) (v : BitVec w) (hk : k < n)
    (hn : n ≤ 2 ^ 32) : m.store n a v (a + BitVec.ofNat 32 k) = v.extractLsb' (8 * k) 8 := by
  rw [store, if_pos (InRange.add_self a hk hn), toNat_add_sub_self a (by omega)]
  apply BitVec.eq_of_getLsbD_eq
  intro i hi
  simp [hi]

theorem append_bytes {w : ℕ} (v : BitVec w) (i : ℕ) :
    (v.extractLsb' (i + 24) 8 ++ v.extractLsb' (i + 16) 8 ++ v.extractLsb' (i + 8) 8 ++
      v.extractLsb' i 8 : Word) = v.extractLsb' i 32 := by
  apply BitVec.eq_of_getLsbD_eq
  intro j hj
  refine (getLsbD_bytes _ _ _ _ j).trans ?_
  simp only [BitVec.getLsbD_extractLsb']
  split_ifs with h1 h2 h3
  · simp [h1, hj]
  · have : i + 8 + (j - 8) = i + j := by omega
    simp [h2, hj, this]
  · have : i + 16 + (j - 8 - 8) = i + j := by omega
    simp [h3, hj, this]
  · have : i + 24 + (j - 8 - 8 - 8) = i + j := by omega
    have h4 : j - 8 - 8 - 8 < 8 := by omega
    simp [h4, hj, this]

/-- A byte of a word in memory. -/
theorem extractLsb'_load32 (m : Mem) (a : Word) {k : ℕ} (hk : k < 4) :
    (m.load32 a).extractLsb' (8 * k) 8 = m (a + BitVec.ofNat 32 k) := by
  apply BitVec.eq_of_getLsbD_eq
  intro i hi
  have hword : (m.load32 a).getLsbD (8 * k + i) = _ := getLsbD_bytes _ _ _ _ (8 * k + i)
  rw [BitVec.getLsbD_extractLsb', hword]
  interval_cases k
  · simp [hi]
  · have h1 : ¬ 8 * 1 + i < 8 := by omega
    have h2 : 8 * 1 + i - 8 = i := by omega
    simp [hi, h1, h2]
  · have h1 : ¬ 8 * 2 + i < 8 := by omega
    have h2 : ¬ 8 * 2 + i - 8 < 8 := by omega
    have h3 : 8 * 2 + i - 8 - 8 = i := by omega
    simp [hi, h1, h2, h3]
  · have h1 : ¬ 8 * 3 + i < 8 := by omega
    have h2 : ¬ 8 * 3 + i - 8 < 8 := by omega
    have h3 : ¬ 8 * 3 + i - 8 - 8 < 8 := by omega
    have h4 : 8 * 3 + i - 8 - 8 - 8 = i := by omega
    simp [hi, h1, h2, h3, h4]

theorem store_load32 (m : Mem) (a : Word) : m.store 4 a (m.load32 a) = m := by
  funext b
  by_cases hb : InRange a 4 b
  · obtain ⟨k, hk, rfl⟩ : ∃ k < 4, b = a + BitVec.ofNat 32 k := by
      refine ⟨(b - a).toNat, hb, ?_⟩
      rw [BitVec.ofNat_toNat, BitVec.setWidth_eq, BitVec.add_comm, BitVec.sub_add_cancel]
    rw [store_apply_add m a _ hk (by decide), extractLsb'_load32 m a hk]
  · exact store_of_not_inRange hb
/-- A word of a value that was stored. -/
theorem load32_store_add {n w k : ℕ} (m : Mem) (a : Word) (v : BitVec w) (hk : k + 4 ≤ n)
    (hn : n ≤ 2 ^ 32) :
    (m.store n a v).load32 (a + BitVec.ofNat 32 k) = v.extractLsb' (8 * k) 32 := by
  have hbyte (j : ℕ) (hj : j < 4) : m.store n a v (a + BitVec.ofNat 32 k + BitVec.ofNat 32 j) =
      v.extractLsb' (8 * k + 8 * j) 8 := by
    rw [BitVec.add_assoc, ← BitVec.ofNat_add, store_apply_add m a v (by omega) hn, Nat.mul_add]
  have h0 := store_apply_add m a v (k := k) (by omega) hn
  rw [← append_bytes, load32, h0]
  exact congrArg₂ _ (congrArg₂ _ (congrArg₂ _ (hbyte 3 (by omega)) (hbyte 2 (by omega)))
    (hbyte 1 (by omega))) rfl

theorem load32_store_self (m : Mem) (a v : Word) : (m.store 4 a v).load32 a = v := by
  have h := load32_store_add m a v (k := 0) (by decide : 0 + 4 ≤ 4) (by decide)
  simpa using h

/-- Words at different addresses do not overlap. -/
theorem load32_store_of_ne {w : ℕ} {m : Mem} {a b : Word} {v : BitVec w} (ha : Aligned 4 a)
    (hb : Aligned 4 b) (hne : b ≠ a) : (m.store 4 a v).load32 b = m.load32 b := by
  refine load32_congr fun x hx => store_of_not_inRange fun hxa => hne ?_
  unfold Aligned InRange at *
  apply BitVec.eq_of_toNat_eq
  simp only [BitVec.toNat_sub] at hx hxa
  omega

theorem load64_congr {m m' : Mem} {a : Word}
    (h : ∀ b, InRange a 8 b → m b = m' b) : m.load64 a = m'.load64 a := by
  have hhigh : m.load32 (a + 4) = m'.load32 (a + 4) :=
    load32_congr fun b hb => h b (InRange.of_add (k := 4) hb (by decide))
  rw [load64, load64, load32_congr fun b hb => h b (hb.mono (by decide)), hhigh]

theorem load64_store_self (m : Mem) (a : Word) (v : BitVec 64) :
    (m.store 8 a v).load64 a = v := by
  have hlow := load32_store_add m a v (k := 0) (by decide : 0 + 4 ≤ 8) (by decide)
  have hhigh := load32_store_add m a v (k := 4) (by decide : 4 + 4 ≤ 8) (by decide)
  rw [BitVec.add_zero] at hlow
  rw [load64, hlow]
  erw [hhigh]
  apply BitVec.eq_of_getLsbD_eq
  intro i hi
  rw [BitVec.getLsbD_append]
  simp only [BitVec.getLsbD_extractLsb']
  split_ifs with h
  · simp [h]
  · have : 8 * 4 + (i - 32) = i := by omega
    have h32 : i - 32 < 32 := by omega
    simp [h32, this]

end Mem

end Ps2rd.Mips
