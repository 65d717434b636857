import Ps2rd.Lib.Region

/-!
# Regions in blocks

A region cut into blocks of `n` cells.  A write that stays inside of one block changes
that block only, and changes it in the same way wherever the block lies.
-/

namespace Region

variable {α : Type*} {n k l o : ℕ} {r s : Region α} {cells : List α}

theorem read_eq_read_iff {off off' : ℕ} :
    r.read off n = s.read off' n ↔ ∀ j < n, r (off + j) = s (off' + j) := by
  simp only [read, List.map_inj_left, List.mem_range]

/-- The block `k` of `n` cells. -/
@[irreducible]
def block (n : ℕ) (r : Region α) (k : ℕ) : List α := r.read (n * k) n

@[simp]
theorem length_block (n : ℕ) (r : Region α) (k : ℕ) : (r.block n k).length = n := by
  rw [block, length_read]

theorem block_eq_block_iff :
    r.block n k = s.block n l ↔ ∀ j < n, r (n * k + j) = s (n * l + j) := by
  rw [block, block, read_eq_read_iff]

/-- A region is determined by its blocks. -/
theorem eq_of_block_eq (hn : 0 < n) (h : r.block n = s.block n) : r = s := by
  funext x
  have hx := block_eq_block_iff.mp (congrFun h (x / n)) (x % n) (Nat.mod_lt x hn)
  rwa [Nat.div_add_mod] at hx

/-- A part of a block. -/
theorem read_of_block_eq (h : r.block n k = s.block n l) {m : ℕ} (hfit : o + m ≤ n) :
    r.read (n * k + o) m = s.read (n * l + o) m := by
  rw [block, block] at h
  rw [← drop_take_read r hfit, ← drop_take_read s hfit, h]

theorem mul_add_lt_of_lt {j : ℕ} (hkl : k < l) (hj : j < n) : n * k + j < n * l :=
  calc n * k + j < n * k + n := by omega
    _ = n * (k + 1) := (Nat.mul_succ n k).symm
    _ ≤ n * l := Nat.mul_le_mul_left n hkl

theorem block_write_of_ne (hfit : o + cells.length ≤ n) (hne : l ≠ k) :
    (r.write (n * k + o) cells).block n l = r.block n l := by
  refine block_eq_block_iff.mpr fun j hj => write_of_disjoint r ?_
  rcases Nat.lt_or_gt_of_ne hne with hlt | hlt
  · have := mul_add_lt_of_lt hlt hj
    omega
  · have : n * k + n ≤ n * l := by
      rw [← Nat.mul_succ]
      exact Nat.mul_le_mul_left n hlt
    omega

/-- The same write into two equal blocks leaves equal blocks. -/
theorem block_write_congr (h : r.block n k = s.block n l) (o : ℕ) (cells : List α) :
    (r.write (n * k + o) cells).block n k = (s.write (n * l + o) cells).block n l := by
  rw [block_eq_block_iff] at h ⊢
  intro j hj
  by_cases hin : o ≤ j ∧ j - o < cells.length
  · rw [write_of_mem r (by omega) (by omega), write_of_mem s (by omega) (by omega)]
    congr 1
    omega
  · rw [write_of_disjoint r (by omega), write_of_disjoint s (by omega)]
    exact h j hj

/-- A write inside of a block changes that block only. -/
theorem block_write (r : Region α) (hfit : o + cells.length ≤ n) :
    (r.write (n * k + o) cells).block n =
      Function.update (r.block n) k ((r.write (n * k + o) cells).block n k) := by
  funext l
  by_cases hne : l = k
  · rw [hne, Function.update_self]
  · rw [Function.update_of_ne hne, block_write_of_ne hfit hne]

/-- A whole block is replaced. -/
theorem block_write_whole (r : Region α) (hlen : cells.length = n) :
    (r.write (n * k) cells).block n = Function.update (r.block n) k cells := by
  have hfit : 0 + cells.length ≤ n := by omega
  have h := block_write (k := k) r hfit
  rw [Nat.add_zero] at h
  rw [h, block, read_write_of_length r _ hlen]

/-- Copying a changed block back changes the original in the same way. -/
theorem write_block_write (h : r.block n k = s.block n l) (hfit : o + cells.length ≤ n)
    (hn : 0 < n) :
    s.write (n * l) ((r.write (n * k + o) cells).block n k) = s.write (n * l + o) cells := by
  refine eq_of_block_eq hn ?_
  rw [block_write_whole s (length_block n _ k), block_write s hfit, block_write_congr h]

/-! ### Single cells -/

/-- A cell in a block that was copied from elsewhere. -/
theorem write_block_of_div_eq (hn : 0 < n) (r s : Region α) {x : ℕ} (hx : x / n = l) :
    s.write (n * l) (r.block n k) x = r (n * k + x % n) := by
  have hsub : x - n * l = x % n := by rw [← hx, Nat.mod_eq_sub]
  have hle : n * l ≤ x := hx ▸ Nat.mul_div_le x n
  rw [write_of_mem s hle (by rw [hsub, length_block]; exact Nat.mod_lt x hn)]
  simp only [block, getElem_read, hsub]

theorem write_block_of_div_ne (hn : 0 < n) (r s : Region α) {x : ℕ} (hx : x / n ≠ l) :
    s.write (n * l) (r.block n k) x = s x := by
  refine write_of_disjoint s ?_
  rw [length_block]
  by_contra hin
  rw [not_or, not_lt, not_le] at hin
  exact hx ((Nat.div_eq_iff hn).mpr (by rw [Nat.mul_comm l]; omega))

end Region
