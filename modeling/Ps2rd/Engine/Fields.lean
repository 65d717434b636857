import Ps2rd.Engine.CodeTypes
import Ps2rd.Mips.Exec

/-!
# Bit fields of a code line

The code handler takes the fields of a line apart with shifts and masks, the
description of the language names them by their digits.  The lemmas below go
from the first form to the second.
-/

namespace Ps2rd.Engine

open Mips

/-! ### Fields at the upper end of a word -/

theorem ushiftRight_eq_setWidth_extractLsb' {w k n : ℕ} (x : BitVec w) (h : w ≤ k + n) :
    x >>> k = (x.extractLsb' k n).setWidth w := by
  apply BitVec.eq_of_getLsbD_eq
  intro i hi
  simp only [BitVec.getLsbD_ushiftRight, BitVec.getLsbD_setWidth, BitVec.getLsbD_extractLsb', hi,
    decide_true, Bool.true_and]
  by_cases hn : i < n
  · simp [hn]
  · simp [hn, BitVec.getLsbD_of_ge x (k + i) (by omega)]

theorem shr_28 (w : Word) : w >>> 28 = (digit 7 w).setWidth 32 :=
  ushiftRight_eq_setWidth_extractLsb' w (by decide)

theorem shr_24 (w : Word) : w >>> 24 = (w.extractLsb' 24 8).setWidth 32 :=
  ushiftRight_eq_setWidth_extractLsb' w (by decide)

theorem shr_16 (w : Word) : w >>> 16 = (w.extractLsb' 16 16).setWidth 32 :=
  ushiftRight_eq_setWidth_extractLsb' w (by decide)

/-! ### Fields at the lower end of a word -/

theorem toNat_and_ones (w : Word) {k : ℕ} (hk : k ≤ 32) :
    (w &&& BitVec.ofNat 32 (2 ^ k - 1)).toNat = w.toNat % 2 ^ k := by
  have hlt : 2 ^ k - 1 < 2 ^ 32 := by
    have := Nat.pow_le_pow_right (show 0 < 2 by decide) hk
    have := Nat.two_pow_pos k
    omega
  rw [BitVec.toNat_and, BitVec.toNat_ofNat, Nat.mod_eq_of_lt hlt, Nat.and_two_pow_sub_one_eq_mod]

theorem and_ones_eq_setWidth (w : Word) {k : ℕ} (hk : k ≤ 32) :
    w &&& BitVec.ofNat 32 (2 ^ k - 1) = (w.setWidth k).setWidth 32 := by
  apply BitVec.eq_of_toNat_eq
  have hlt : w.toNat % 2 ^ k < 2 ^ 32 := (Nat.mod_le _ _).trans_lt w.isLt
  rw [toNat_and_ones w hk, BitVec.toNat_setWidth, BitVec.toNat_setWidth, Nat.mod_eq_of_lt hlt]

/-! ### Addresses and digits -/

theorem shl_shr_seven (w : Word) : w <<< 7 >>> 7 = address w := by
  unfold address
  ext i hi
  simp only [BitVec.getElem_ushiftRight, BitVec.getLsbD_shiftLeft, BitVec.getElem_and]
  interval_cases i <;> simp

theorem address_eq_self {w : Word} (h : w.toNat < 2 ^ 25) : address w = w := by
  apply BitVec.eq_of_toNat_eq
  exact (toNat_and_ones w (by decide)).trans (Nat.mod_eq_of_lt h)

/-- A digit shifted down and masked. -/
theorem shr_and {k : ℕ} (w mask : Word) (hmask : 0xf &&& mask = mask) :
    w >>> (4 * k) &&& mask = (digit k w).setWidth 32 &&& mask := by
  rw [← hmask, ← BitVec.and_assoc, ← BitVec.and_assoc]
  congr 1
  unfold digit
  ext i hi
  simp only [BitVec.getElem_and, BitVec.getElem_ushiftRight, BitVec.getElem_setWidth,
    BitVec.getLsbD_extractLsb']
  interval_cases i <;> simp

/-- Digit 5 is not affected when the word is cut down to an address. -/
theorem address_shr_and (w mask : Word) (hmask : 0xf &&& mask = mask) :
    address w >>> 20 &&& mask = (digit 5 w).setWidth 32 &&& mask := by
  have hdigit : digit 5 (address w) = digit 5 w := by
    unfold digit address
    ext i hi
    simp only [BitVec.getElem_extractLsb', BitVec.getLsbD_and]
    interval_cases i <;> simp
  rw [← hdigit]
  exact shr_and (k := 5) (address w) mask hmask

theorem serialStep_eq (line : Line) : (line.val &&& 0xffff) <<< 2 = serialStep line := by
  have hand : (line.val &&& 0xffff).toNat = line.val.toNat % 2 ^ 16 :=
    toNat_and_ones (k := 16) line.val (by decide)
  unfold serialStep
  apply BitVec.eq_of_toNat_eq
  simp only [BitVec.toNat_shiftLeft, hand, BitVec.toNat_mul, BitVec.toNat_setWidth,
    BitVec.extractLsb'_toNat, Nat.shiftLeft_eq, BitVec.reduceToNat]
  omega

/-! ### The conversion of E codes -/

/-- The line that `type_e` stores in the place of an E code.  For a line with the
documented digits it is the converted line. -/
def rewritten (line : Line) : Line where
  addr := 0xd0000000 ||| address line.val
  val := (address line.addr &&& 0xffff) ||| (line.val >>> 28 <<< 20) |||
    (address line.addr >>> 24 <<< 16) ||| (address line.addr >>> 16 <<< 24)

theorem rewritten_eq_convert {line : Line}
    (hsize : digit 6 line.addr = 0 ∨ digit 6 line.addr = 1) : rewritten line = convert line := by
  -- the handler drops the upper bits of digit 6 with the rest of the type word
  have hbits : ∀ k < 4, 1 ≤ k → line.addr.getLsbD (24 + k) = false := by
    intro k hk h1
    have hdigit : line.addr.getLsbD (24 + k) = (digit 6 line.addr).getLsbD k := by
      simp [digit, hk]
    rw [hdigit]
    rcases hsize with h | h <;> rw [h] <;> interval_cases k <;> rfl
  have h25 : line.addr[25] = false := by simpa using hbits 1 (by decide) (by decide)
  have h26 : line.addr[26] = false := by simpa using hbits 2 (by decide) (by decide)
  have h27 : line.addr[27] = false := by simpa using hbits 3 (by decide) (by decide)
  unfold rewritten convert
  refine congrArg (Line.mk _) ?_
  unfold digit address
  apply BitVec.eq_of_getLsbD_eq
  intro i hi
  interval_cases i <;> simp [h25, h26, h27]

end Ps2rd.Engine
