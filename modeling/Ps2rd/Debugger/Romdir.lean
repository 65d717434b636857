import Ps2rd.CString.Basic
import Ps2rd.Lib.Region
import Ps2rd.Lib.Scan

/-!
# The directory of an IOPRP image

An image starts with its directory, a table of entries of 16 bytes: the name in ten bytes, the
size of some extra information, and the size of the module as an `int`.  An empty name
ends the table.  The modules lie one after the other, each on a multiple of 16, so
`Get_Mod_Offset` adds up rounded sizes until it comes to the module it looks for.

It compares only as many characters as the name it looks for has.  So it stops at the
first entry whose name *begins* with that name (`getModOffset_eq`).
-/

namespace Ps2rd.Debugger

open CString (NUL)

/-! ### The function -/

/-- `romdir_fs->fileSize` of entry `k`. -/
def fileSize (romdir : Region Byte) (k : ℕ) : Word := BitVec.ofNat 32 (romdir.u32 (16 * k + 12))

/-- The inner loop, and the test `i == modname_len` behind it: the loop stops at the end of
the file name or at the first character that differs. -/
def nameMatches (romdir : Region Byte) (modname : List Byte) (k : ℕ) : Bool :=
  scan (fun i => some (romdir (16 * k + i) = NUL || modname.getD i NUL ≠ romdir (16 * k + i)))
    modname.length 0 = some none

/-- What a file adds to the offset. -/
def alignedSize (size : Word) : Word :=
  if size.srem 0x10#32 = 0 then size else (size + 0x10#32) &&& 0xfffffff0#32

/-- The loop of `Get_Mod_Offset` from entry `k` on. -/
def getModOffsetFrom (romdir : Region Byte) (modname : List Byte) :
    ℕ → ℕ → Word → Option Word
  | 0, _, _ => none
  | fuel + 1, k, offset =>
      -- `strlen(fileName) > 0`
      if romdir (16 * k) = NUL then some (-1)
      else if nameMatches romdir modname k then some offset
      else getModOffsetFrom romdir modname fuel (k + 1) (offset + alignedSize (fileSize romdir k))

/-- `Get_Mod_Offset` -/
def getModOffset (fuel : ℕ) (romdir : Region Byte) (modname : List Byte) : Option Word :=
  getModOffsetFrom romdir modname fuel 0 0

/-! ### The directory -/

/-- The directory has `n` entries. -/
structure Romdir (romdir : Region Byte) (n : ℕ) : Prop where
  full : ∀ k < n, romdir (16 * k) ≠ NUL
  ends : romdir (16 * n) = NUL

/-- The name of entry `k` begins with `modname`. -/
def StartsWith (romdir : Region Byte) (modname : List Byte) (k : ℕ) : Prop :=
  romdir.read (16 * k) modname.length = modname

instance (romdir : Region Byte) (modname : List Byte) (k : ℕ) :
    Decidable (StartsWith romdir modname k) :=
  inferInstanceAs (Decidable (_ = _))

/-- The name of entry `k` is `modname`. -/
def Named (romdir : Region Byte) (modname : List Byte) (k : ℕ) : Prop :=
  romdir.read (16 * k) (modname.length + 1) = modname ++ [NUL]

instance (romdir : Region Byte) (modname : List Byte) (k : ℕ) :
    Decidable (Named romdir modname k) :=
  inferInstanceAs (Decidable (_ = _))

/-- The least multiple of 16 that is not below `size`. -/
def roundUp (size : ℤ) : ℤ := (size + 15) / 16 * 16

/-- Where module `k` starts: the rounded sizes of the modules before it. -/
def modPos (romdir : Region Byte) (k : ℕ) : ℤ :=
  ∑ i ∈ Finset.range k, roundUp (fileSize romdir i).toInt

/-! ### The comparison of a name -/

section

variable {romdir : Region Byte} {modname : List Byte} {k : ℕ}

theorem startsWith_iff :
    StartsWith romdir modname k ↔
      ∀ i < modname.length, romdir (16 * k + i) = modname.getD i NUL := by
  unfold StartsWith
  constructor
  · intro h i hi
    have hget := congrArg (fun s => s.getD i NUL) h
    simpa [Region.read, hi] using hget
  · intro h
    refine List.ext_getElem (by simp) fun i hi hi' => ?_
    rw [Region.getElem_read, h i hi']
    simp [hi']

theorem StartsWith.of_named (h : Named romdir modname k) : StartsWith romdir modname k := by
  unfold Named at h
  rw [Region.read_add] at h
  exact (List.append_inj h (by simp)).1

theorem nameMatches_iff (hname : NUL ∉ modname) :
    nameMatches romdir modname k = true ↔ StartsWith romdir modname k := by
  have hchar : ∀ i < modname.length, modname.getD i NUL ≠ NUL := by
    intro i hi hnul
    apply hname
    rw [← hnul, List.getD_eq_getElem?_getD, List.getElem?_eq_getElem hi]
    exact List.getElem_mem hi
  unfold nameMatches
  rw [decide_eq_true_iff, scan_eq_some_none_iff, startsWith_iff]
  refine forall₂_congr fun i hi => ?_
  simp only [Nat.zero_add, Option.some.injEq, Bool.or_eq_false_iff, decide_eq_false_iff_not]
  constructor
  · rintro ⟨-, heq⟩
    exact (not_not.mp heq).symm
  · intro heq
    rw [heq]
    exact ⟨hchar i hi, not_not.mpr rfl⟩

end

/-! ### The rounded size -/

theorem toNat_and_mask (x : Word) : (x &&& 0xfffffff0#32).toNat = x.toNat - x.toNat % 16 := by
  have hmask : x &&& 0xfffffff0#32 = x >>> 4 <<< 4 := by
    rw [BitVec.shiftLeft_ushiftRight]
    rfl
  have hlt := x.isLt
  rw [hmask, BitVec.toNat_shiftLeft, BitVec.toNat_ushiftRight, Nat.shiftRight_eq_div_pow,
    Nat.shiftLeft_eq]
  omega

theorem srem_eq_zero_iff (size : Word) : size.srem 0x10#32 = 0 ↔ size.toInt % 16 = 0 := by
  have hzero : (0 : Word).toInt = 0 := rfl
  have hsixteen : (0x10#32).toInt = 16 := rfl
  rw [← BitVec.toInt_inj, BitVec.toInt_srem, hzero, hsixteen, ← Int.dvd_iff_tmod_eq_zero,
    Int.dvd_iff_emod_eq_zero]

/-- The size is rounded up, also where it is negative as an `int`. -/
theorem alignedSize_eq (size : Word) : alignedSize size = BitVec.ofInt 32 (roundUp size.toInt) := by
  unfold alignedSize roundUp
  split_ifs with h
  · rw [srem_eq_zero_iff] at h
    have hround : (size.toInt + 15) / 16 * 16 = size.toInt := by omega
    rw [hround, BitVec.ofInt_toInt]
  · rw [srem_eq_zero_iff] at h
    apply BitVec.eq_of_toNat_eq
    have hlt := size.isLt
    have hint := BitVec.toInt_eq_toNat_cond size
    rw [toNat_and_mask, BitVec.toNat_ofInt, BitVec.toNat_add, BitVec.toNat_ofNat]
    split_ifs at hint <;> omega

/-! ### The search -/

section

variable {romdir : Region Byte} {modname : List Byte} {n : ℕ}

theorem modPos_succ (romdir : Region Byte) (k : ℕ) :
    modPos romdir (k + 1) = modPos romdir k + roundUp (fileSize romdir k).toInt :=
  Finset.sum_range_succ _ _

/-- A round that goes on keeps the offset of the entry it comes to. -/
theorem getModOffsetFrom_succ (hname : NUL ∉ modname) {k : ℕ} (hfull : romdir (16 * k) ≠ NUL)
    (hother : ¬ StartsWith romdir modname k) (fuel : ℕ) :
    getModOffsetFrom romdir modname (fuel + 1) k (BitVec.ofInt 32 (modPos romdir k)) =
      getModOffsetFrom romdir modname fuel (k + 1) (BitVec.ofInt 32 (modPos romdir (k + 1))) := by
  rw [getModOffsetFrom, if_neg hfull, if_neg (mt (nameMatches_iff hname).mp hother),
    alignedSize_eq, ← BitVec.ofInt_add, ← modPos_succ]

/-- The rounds up to entry `k`, none of which stops. -/
theorem getModOffset_eq_from (hname : NUL ∉ modname) {k : ℕ}
    (hfull : ∀ i < k, romdir (16 * i) ≠ NUL) (hother : ∀ i < k, ¬ StartsWith romdir modname i)
    (fuel : ℕ) :
    getModOffset (k + fuel) romdir modname =
      getModOffsetFrom romdir modname fuel k (BitVec.ofInt 32 (modPos romdir k)) := by
  induction k generalizing fuel with
  | zero => rw [Nat.zero_add]; rfl
  | succ k ih =>
      rw [Nat.add_right_comm, Nat.add_assoc, ih (fun i hi => hfull i (by omega))
        (fun i hi => hother i (by omega)), getModOffsetFrom_succ hname (hfull k (by omega))
        (hother k (by omega))]

/-- More fuel does not change a result. -/
theorem getModOffsetFrom_mono {fuel fuel' : ℕ} (hfuel : fuel ≤ fuel') {k : ℕ} {offset result : Word}
    (h : getModOffsetFrom romdir modname fuel k offset = some result) :
    getModOffsetFrom romdir modname fuel' k offset = some result := by
  induction fuel generalizing fuel' k offset with
  | zero => cases h
  | succ fuel ih =>
      obtain ⟨fuel', rfl⟩ := Nat.exists_eq_add_of_le' (Nat.one_le_of_lt hfuel)
      rw [getModOffsetFrom] at h ⊢
      split_ifs at h ⊢
      · exact h
      · exact h
      · exact ih (by omega) h

/-- The result for a directory of `n` entries: the position of the first module whose name
begins with the one that is looked for, or -1. -/
theorem getModOffset_eq (hname : NUL ∉ modname) (hromdir : Romdir romdir n) {r : Option ℕ}
    (hfirst : IsFirst (fun k => k < n ∧ StartsWith romdir modname k) r) (fuel : ℕ) :
    getModOffset (n + 1 + fuel) romdir modname =
      some (r.elim (-1) fun k => BitVec.ofInt 32 (modPos romdir k)) := by
  cases r with
  | none =>
      have hother : ∀ i < n, ¬ StartsWith romdir modname i := by
        intro i hi hstarts
        obtain ⟨p, hp, -⟩ := hfirst.least i ⟨hi, hstarts⟩
        cases hp
      rw [Nat.add_assoc, getModOffset_eq_from hname hromdir.full hother, Nat.add_comm,
        getModOffsetFrom, if_pos hromdir.ends]
      rfl
  | some k =>
      obtain ⟨hk, hstarts⟩ := hfirst.holds k rfl
      have hother : ∀ i < k, ¬ StartsWith romdir modname i := by
        intro i hi hstarts
        obtain ⟨p, hp, hle⟩ := hfirst.least i ⟨hi.trans hk, hstarts⟩
        cases hp
        omega
      have hfuel : n + 1 + fuel = k + (n - k + fuel + 1) := by omega
      rw [hfuel, getModOffset_eq_from hname (fun i hi => hromdir.full i (hi.trans hk)) hother,
        getModOffsetFrom, if_neg (hromdir.full k hk), if_pos ((nameMatches_iff hname).mpr hstarts)]
      rfl

end

end Ps2rd.Debugger
