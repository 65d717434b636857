import Mathlib.Tactic

/-!
# Byte regions

A region is the storage behind a C pointer: cells numbered from the address the
pointer holds, with no end of their own.  A copy that is longer than the array
it is meant for therefore still has a meaning here, and whether it stays inside
the array is a separate question about its offset and length.

Numbers are stored little-endian.
-/

/-- The cells behind a pointer. -/
def Region (α : Type*) := ℕ → α

namespace Region

variable {α : Type*}

/-- `memcpy` of `cells` to offset `off`. -/
def write (r : Region α) (off : ℕ) (cells : List α) : Region α :=
  fun i => if off ≤ i then cells.getD (i - off) (r i) else r i

/-- The `n` cells from offset `off` on. -/
def read (r : Region α) (off n : ℕ) : List α :=
  (List.range n).map fun i => r (off + i)

@[simp]
theorem length_read (r : Region α) (off n : ℕ) : (r.read off n).length = n := by
  simp [read]

theorem getElem_read (r : Region α) (off n i : ℕ) (hi : i < (r.read off n).length) :
    (r.read off n)[i] = r (off + i) := by
  simp [read]

theorem read_congr {r r' : Region α} {off n : ℕ} (h : ∀ i < n, r (off + i) = r' (off + i)) :
    r.read off n = r'.read off n := by
  refine List.map_congr_left fun i hi => h i ?_
  exact List.mem_range.mp hi

theorem read_add (r : Region α) (off m n : ℕ) :
    r.read off (m + n) = r.read off m ++ r.read (off + m) n := by
  simp [read, List.range_add, Nat.add_assoc]

theorem read_succ (r : Region α) (off n : ℕ) :
    r.read off (n + 1) = r off :: r.read (off + 1) n := by
  rw [Nat.add_comm, read_add]
  rfl

/-- A part of a block that was read. -/
theorem drop_take_read (r : Region α) {off m k n : ℕ} (h : k + n ≤ m) :
    ((r.read off m).drop k).take n = r.read (off + k) n := by
  refine List.ext_getElem (by simp; omega) fun i hi _ => ?_
  rw [List.getElem_take, List.getElem_drop, getElem_read, getElem_read, Nat.add_assoc]

theorem write_of_mem (r : Region α) {off i : ℕ} {cells : List α} (hoff : off ≤ i)
    (hi : i - off < cells.length) : r.write off cells i = cells[i - off] := by
  simp [write, hoff, hi]

theorem write_of_disjoint (r : Region α) {off i : ℕ} {cells : List α}
    (h : i < off ∨ off + cells.length ≤ i) : r.write off cells i = r i := by
  unfold write
  split_ifs with hoff
  · have hout : cells.length ≤ i - off := by omega
    simp [hout]
  · rfl

/-- What was written is read back. -/
@[simp]
theorem read_write_self (r : Region α) (off : ℕ) (cells : List α) :
    (r.write off cells).read off cells.length = cells := by
  refine List.ext_getElem (by simp) fun i _ hi => ?_
  rw [getElem_read, write_of_mem _ (by omega) (by omega)]
  simp

theorem read_write_of_length (r : Region α) (off : ℕ) {n : ℕ} {cells : List α}
    (hn : cells.length = n) : (r.write off cells).read off n = cells := by
  rw [← hn, read_write_self]

/-- A piece of a block that was written. -/
theorem read_write_within (r : Region α) {off off' n : ℕ} {cells : List α} (hoff : off ≤ off')
    (hn : off' - off + n ≤ cells.length) :
    (r.write off cells).read off' n = (cells.drop (off' - off)).take n := by
  refine List.ext_getElem (by simp; omega) fun i hi _ => ?_
  rw [length_read] at hi
  rw [getElem_read, write_of_mem _ (by omega) (by omega), List.getElem_take, List.getElem_drop]
  congr 1
  omega

/-- A block that was copied from another region reads as it does there. -/
theorem read_write_read (r s : Region α) {off n m : ℕ} (hm : off + m ≤ n) :
    (r.write 0 (s.read 0 n)).read off m = s.read off m := by
  refine read_congr fun i hi => ?_
  rw [write_of_mem _ (Nat.zero_le _) (by simp; omega), getElem_read]
  simp

/-- A write leaves every block beside it alone. -/
theorem read_write_of_disjoint (r : Region α) {off off' n : ℕ} {cells : List α}
    (h : off' + n ≤ off ∨ off + cells.length ≤ off') :
    (r.write off cells).read off' n = r.read off' n :=
  read_congr fun i hi => write_of_disjoint r (by omega)

@[simp]
theorem write_nil (r : Region α) (off : ℕ) : r.write off [] = r :=
  funext fun i => write_of_disjoint r (by simp; omega)

/-- Writing a block cell by cell or in two pieces is the same. -/
theorem write_append (r : Region α) (off : ℕ) (cells cells' : List α) :
    (r.write off cells).write (off + cells.length) cells' = r.write off (cells ++ cells') := by
  funext i
  by_cases hlow : i < off + cells.length
  · rw [write_of_disjoint _ (Or.inl hlow)]
    by_cases hoff : off ≤ i
    · rw [write_of_mem _ hoff (by omega), write_of_mem _ hoff (by simp; omega),
        List.getElem_append_left]
    · rw [write_of_disjoint _ (by omega), write_of_disjoint _ (by omega)]
  · by_cases hhigh : i < off + cells.length + cells'.length
    · rw [write_of_mem _ (by omega) (by omega), write_of_mem _ (by omega) (by simp; omega),
        List.getElem_append_right (by omega)]
      congr 1
      omega
    · rw [write_of_disjoint _ (by omega), write_of_disjoint _ (by omega),
        write_of_disjoint _ (by simp; omega)]

/-! ### Little-endian numbers -/

/-- The `n` low bytes of `v`, the lowest first. -/
def leBytes : ℕ → ℕ → List (BitVec 8)
  | 0, _ => []
  | n + 1, v => BitVec.ofNat 8 v :: leBytes n (v / 256)

/-- The number a block of bytes holds. -/
def leNat : List (BitVec 8) → ℕ
  | [] => 0
  | b :: bs => b.toNat + 256 * leNat bs

@[simp]
theorem length_leBytes (n v : ℕ) : (leBytes n v).length = n := by
  induction n generalizing v with
  | zero => rfl
  | succ n ih => simp [leBytes, ih]

theorem leNat_leBytes (n v : ℕ) : leNat (leBytes n v) = v % 256 ^ n := by
  induction n generalizing v with
  | zero => simp [leBytes, leNat, Nat.mod_one]
  | succ n ih =>
      have hsplit : v % (256 * 256 ^ n) = v % 256 + 256 * (v / 256 % 256 ^ n) := Nat.mod_mul
      rw [pow_succ', hsplit]
      simp [leBytes, leNat, ih]

theorem leBytes_leNat (bs : List (BitVec 8)) : leBytes bs.length (leNat bs) = bs := by
  induction bs with
  | nil => rfl
  | cons b bs ih =>
      have hdiv : (b.toNat + 256 * leNat bs) / 256 = leNat bs := by
        have hb := b.isLt
        omega
      rw [List.length_cons, leBytes, leNat, hdiv, ih]
      congr 1
      apply BitVec.eq_of_toNat_eq
      have hb := b.isLt
      rw [BitVec.toNat_ofNat]
      omega

theorem leNat_lt (bs : List (BitVec 8)) : leNat bs < 256 ^ bs.length := by
  induction bs with
  | nil => simp [leNat]
  | cons b bs ih =>
      have hb := b.isLt
      simp only [leNat, List.length_cons, pow_succ]
      omega

/-- `*(u16 *)&buf[off]` -/
def u16 (r : Region (BitVec 8)) (off : ℕ) : ℕ := leNat (r.read off 2)

/-- `*(int *)&buf[off]`, for values that are not negative -/
def u32 (r : Region (BitVec 8)) (off : ℕ) : ℕ := leNat (r.read off 4)

/-- `*(u16 *)&buf[off] = v` -/
def put16 (r : Region (BitVec 8)) (off v : ℕ) : Region (BitVec 8) := r.write off (leBytes 2 v)

/-- `*(int *)&buf[off] = v` -/
def put32 (r : Region (BitVec 8)) (off v : ℕ) : Region (BitVec 8) := r.write off (leBytes 4 v)

theorem u16_lt (r : Region (BitVec 8)) (off : ℕ) : r.u16 off < 2 ^ 16 := by
  simpa [u16] using leNat_lt (r.read off 2)

theorem leBytes_u16 (r : Region (BitVec 8)) (off : ℕ) : leBytes 2 (r.u16 off) = r.read off 2 := by
  have h := leBytes_leNat (r.read off 2)
  rwa [length_read] at h

theorem u16_put16_self (r : Region (BitVec 8)) (off v : ℕ) :
    (r.put16 off v).u16 off = v % 2 ^ 16 := by
  rw [u16, put16, read_write_of_length r off (length_leBytes 2 v), leNat_leBytes]
  rfl

theorem u32_put32_self (r : Region (BitVec 8)) (off v : ℕ) :
    (r.put32 off v).u32 off = v % 2 ^ 32 := by
  rw [u32, put32, read_write_of_length r off (length_leBytes 4 v), leNat_leBytes]
  rfl

end Region
