import Mathlib.Tactic

/-!
# Blocks one behind the other

Blocks of different sizes that are put into memory without gaps: each starts where the one
before it ends.  Blocks that lie anywhere in a piece of memory take no more than it has, if they do
not overlap (`total_le_of_disjoint`).
-/

namespace Layout

variable {α : Type*} (size : α → ℕ)

/-- What all blocks take together. -/
def total (blocks : List α) : ℕ := (blocks.map size).sum

/-- Where block `i` starts. -/
def offset (blocks : List α) (i : ℕ) : ℕ := total size (blocks.take i)

theorem total_cons (b : α) (blocks : List α) :
    total size (b :: blocks) = size b + total size blocks := rfl

@[simp]
theorem offset_zero (blocks : List α) : offset size blocks 0 = 0 := rfl

@[simp]
theorem offset_cons_succ (b : α) (blocks : List α) (i : ℕ) :
    offset size (b :: blocks) (i + 1) = size b + offset size blocks i := rfl

theorem offset_length (blocks : List α) : offset size blocks blocks.length = total size blocks := by
  rw [offset, List.take_length]

/-- Fewer blocks take less. -/
theorem total_le_of_sublist {blocks blocks' : List α} (h : blocks.Sublist blocks') :
    total size blocks ≤ total size blocks' :=
  (h.map size).sum_le_sum fun _ _ => Nat.zero_le _

variable {size} {blocks : List α}

/-- A block ends before any later one starts. -/
theorem offset_add_size_le {i j : ℕ} {b : α} (hb : blocks[i]? = some b) (hij : i < j) :
    offset size blocks i + size b ≤ offset size blocks j := by
  induction blocks generalizing i j with
  | nil => cases hb
  | cons a blocks ih =>
      obtain ⟨j, rfl⟩ := Nat.exists_eq_succ_of_ne_zero (Nat.ne_zero_of_lt hij)
      rw [Nat.succ_eq_add_one, offset_cons_succ]
      cases i with
      | zero =>
          cases hb
          rw [offset_zero, Nat.zero_add]
          exact Nat.le_add_right _ _
      | succ i =>
          have hrest := ih hb (Nat.lt_of_succ_lt_succ hij)
          rw [offset_cons_succ, Nat.add_assoc]
          exact Nat.add_le_add_left hrest _

theorem offset_add_size_le_total {i : ℕ} {b : α} (hb : blocks[i]? = some b) :
    offset size blocks i + size b ≤ total size blocks := by
  rw [← offset_length]
  exact offset_add_size_le hb (List.getElem?_eq_some_iff.mp hb).1

/-- Blocks between `lo` and `hi` that do not overlap. -/
theorem total_le_of_disjoint {start : α → ℕ} {lo hi : ℕ} (hlo : ∀ b ∈ blocks, lo ≤ start b)
    (hhi : ∀ b ∈ blocks, start b + size b ≤ hi)
    (hapart : blocks.Pairwise fun a b => start a + size a ≤ start b ∨ start b + size b ≤ start a) :
    total size blocks ≤ hi - lo := by
  -- the addresses of all blocks are different addresses between `lo` and `hi`
  let cells := blocks.flatMap fun b => List.range' (start b) (size b)
  have hnodup : cells.Nodup := by
    refine List.nodup_flatMap.mpr ⟨fun b _ => List.nodup_range', hapart.imp fun h x hx hx' => ?_⟩
    rw [List.mem_range'_1] at hx hx'
    omega
  have hsub : cells ⊆ List.range' lo (hi - lo) := by
    intro x hx
    obtain ⟨b, hb, hmem⟩ := List.mem_flatMap.mp hx
    have hstart := hlo b hb
    have hend := hhi b hb
    rw [List.mem_range'_1] at hmem ⊢
    omega
  calc total size blocks = cells.length := by simp [cells, total, List.length_flatMap]
    _ ≤ (List.range' lo (hi - lo)).length := (hnodup.subperm hsub).length_le
    _ = hi - lo := List.length_range'

end Layout
