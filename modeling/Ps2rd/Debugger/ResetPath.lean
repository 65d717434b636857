import Ps2rd.CString.Basic
import Ps2rd.Debugger.ResetHook
import Ps2rd.Lib.Scan

/-!
# The path in a reset packet

`NewSifSetDma` looks for `rom0:UDNL cdrom` in the 0x50 bytes of `arg` of a reset packet and
copies the path that follows to a buffer on the stack, for `MySifRebootIop`.

Three things can go wrong, and `recognised_iff` says that there are no others.  The comparison
does not stop at the end of `arg`, so it reads behind it when `arg` ends with a
beginning of the pattern.  `strlen` does so when no NUL follows the path.  And `__strcpy`
writes no terminator, so the path goes on with what was on the stack.

`none` is the result of a read behind `arg`.
-/

namespace Ps2rd.Debugger

open CString

/-! ### The function -/

/-- `reset_pkt->arg[i+j] != ioprp_pattern[j]` -/
def argDiffers (arg : List Byte) (i j : ℕ) : Option Bool := do
  let a ← arg[i + j]?
  let p ← ioprpPattern[j]?
  return a ≠ p

/-- The inner loop, and the test `j == 15` behind it. -/
def patternAt (arg : List Byte) (i : ℕ) : Option Bool :=
  (scan (argDiffers arg i) 15 0).map Option.isNone

/-- The outer loop: where the pattern is found. -/
def findIoprp (arg : List Byte) : Option (Option ℕ) := scan (patternAt arg) 0x50 0

/-- The string at a pointer to `mem`, if its terminator is there. -/
def stringAt (mem : List Byte) : Option (List Byte) := if NUL ∈ mem then some (cstr mem) else none

/-- `NewSifSetDma`: the buffer with the path for `MySifRebootIop`, or `some none` if the packet
is sent on.  `stack` is what the buffer held before. -/
def newSifSetDma (dmaHookDisabled : Bool) (arg stack : CharArray 0x50) :
    Option (Option (List Byte)) :=
  (findIoprp arg.val).bind fun
    | none => some none
    | some i =>
        (stringAt (arg.val.drop (i + 10))).map fun src =>
          -- `__strcpy(ioprp_path, &arg[i+10])`
          let ioprpPath := strncpy stack.val src src.length
          if dmaHookDisabled then none else some ioprpPath

/-! ### What it is for -/

/-- The pattern occurs in `arg` at `i`. -/
def OccursAt (arg : List Byte) (i : ℕ) : Prop := ioprpPattern <+: arg.drop i

instance (arg : List Byte) (i : ℕ) : Decidable (OccursAt arg i) :=
  inferInstanceAs (Decidable (_ <+: _))

/-- The packet is recognised as it should be: nothing is read outside of `arg`, the reset is
taken over if the pattern occurs and the hook is not disabled, and the path is the text
from `cdrom` of the first occurrence up to the next NUL, with its terminator in the buffer. -/
def Recognised (dmaHookDisabled : Bool) (arg stack : CharArray 0x50) : Prop :=
  ∃ r, newSifSetDma dmaHookDisabled arg stack = some r ∧
    (r.isSome = true ↔ dmaHookDisabled = false ∧ ∃ i, OccursAt arg.val i) ∧
    ∀ path ∈ r, ∀ i, IsFirst (OccursAt arg.val) (some i) →
      path.length = 0x50 ∧ NUL ∈ path ∧ cstr path = cstr (arg.val.drop (i + 10))

/-- The packet and the stack are such that all goes well. -/
structure WellPlaced (dmaHookDisabled : Bool) (arg stack : CharArray 0x50) : Prop where
  /-- without the pattern, `arg` does not end with a beginning of it -/
  overhang : (∀ i, ¬ OccursAt arg.val i) → ∀ i < 0x50, ¬ arg.val.drop i <+: ioprpPattern
  /-- a NUL follows the path -/
  ended : ∀ i, IsFirst (OccursAt arg.val) (some i) → NUL ∈ arg.val.drop (i + 10)
  /-- the byte behind the path in the buffer was NUL before -/
  terminated : dmaHookDisabled = false → ∀ i, IsFirst (OccursAt arg.val) (some i) →
    stack.val.getD (cstr (arg.val.drop (i + 10))).length NUL = NUL

/-! ### The scan -/

theorem length_ioprpPattern : ioprpPattern.length = 15 := rfl

section

variable {arg : List Byte} {i j : ℕ}

theorem argDiffers_eq_some_false_iff (hj : j < 15) :
    argDiffers arg i j = some false ↔ (arg.drop i)[j]? = ioprpPattern[j]? := by
  have hpattern := List.getElem?_eq_getElem (l := ioprpPattern) hj
  rw [List.getElem?_drop, hpattern]
  cases harg : arg[i + j]? with
  | none => simp [argDiffers, harg]
  | some a => simp [argDiffers, harg, hpattern]

theorem argDiffers_eq_none_iff (hj : j < 15) :
    argDiffers arg i j = none ↔ (arg.drop i).length ≤ j := by
  have hpattern := List.getElem?_eq_getElem (l := ioprpPattern) hj
  rw [← List.getElem?_eq_none_iff, List.getElem?_drop]
  cases harg : arg[i + j]? with
  | none => simp [argDiffers, harg]
  | some a => simp [argDiffers, harg, hpattern]

/-- Comparing byte by byte: all of the pattern is found, or the text ends before it does, or
a byte differs. -/
theorem patternAt_cases (arg : List Byte) (i : ℕ) :
    OccursAt arg i ∧ patternAt arg i = some true ∨
    ¬ OccursAt arg i ∧ arg.drop i <+: ioprpPattern ∧ patternAt arg i = none ∨
    ¬ OccursAt arg i ∧ ¬ arg.drop i <+: ioprpPattern ∧ patternAt arg i = some false := by
  rcases scan_cases (argDiffers arg i) 15 0 with
    ⟨hall, heq⟩ | ⟨p, hp, hpassed, ⟨htrue, heq⟩ | ⟨hnone, heq⟩⟩
  · refine .inl ⟨List.prefix_iff_getElem?.mpr fun k hk => ?_, by simp [patternAt, heq]⟩
    have hk' := hall k hk
    rw [Nat.zero_add, argDiffers_eq_some_false_iff hk] at hk'
    rw [hk', List.getElem?_eq_getElem hk]
  · rw [Nat.zero_add] at htrue
    have hne : (arg.drop i)[p]? ≠ ioprpPattern[p]? := by
      rw [Ne, ← argDiffers_eq_some_false_iff hp, htrue]
      simp
    have hlt : p < (arg.drop i).length := by
      rw [← Nat.not_le, ← argDiffers_eq_none_iff hp, htrue]
      simp
    refine .inr (.inr ⟨fun hoccurs => hne ?_, fun hprefix => hne ?_, by simp [patternAt, heq]⟩)
    · rw [List.prefix_iff_getElem?.mp hoccurs p hp, List.getElem?_eq_getElem hp]
    · rw [List.prefix_iff_getElem?.mp hprefix p hlt, List.getElem?_eq_getElem hlt]
  · rw [Nat.zero_add, argDiffers_eq_none_iff hp] at hnone
    refine .inr (.inl ⟨fun hoccurs => ?_, List.prefix_iff_getElem?.mpr fun k hk => ?_,
      by simp [patternAt, heq]⟩)
    · have hlength := hoccurs.length_le
      rw [length_ioprpPattern] at hlength
      omega
    · have hk' := hpassed k (by omega)
      rw [Nat.zero_add, argDiffers_eq_some_false_iff (by omega)] at hk'
      rw [← hk', List.getElem?_eq_getElem hk]

theorem occursAt_of_patternAt (h : patternAt arg i = some true) : OccursAt arg i := by
  rcases patternAt_cases arg i with ⟨hoccurs, -⟩ | ⟨-, -, heq⟩ | ⟨-, -, heq⟩
  · exact hoccurs
  · simp [h] at heq
  · simp [h] at heq

theorem passed_of_patternAt (h : patternAt arg i = some false) :
    ¬ OccursAt arg i ∧ ¬ arg.drop i <+: ioprpPattern := by
  rcases patternAt_cases arg i with ⟨-, heq⟩ | ⟨-, -, heq⟩ | ⟨hoccurs, hprefix, -⟩
  · simp [h] at heq
  · simp [h] at heq
  · exact ⟨hoccurs, hprefix⟩

theorem overhangs_of_patternAt (h : patternAt arg i = none) :
    ¬ OccursAt arg i ∧ arg.drop i <+: ioprpPattern := by
  rcases patternAt_cases arg i with ⟨-, heq⟩ | ⟨hoccurs, hprefix, -⟩ | ⟨-, -, heq⟩
  · simp [h] at heq
  · exact ⟨hoccurs, hprefix⟩
  · simp [h] at heq

/-- There is room for the pattern where it occurs. -/
theorem OccursAt.length_le (h : OccursAt arg i) : i + 15 ≤ arg.length := by
  have hlength := List.IsPrefix.length_le h
  rw [length_ioprpPattern, List.length_drop] at hlength
  omega

end

/-- The scan of a packet finds the first occurrence, or finds that there is none; or it reads
behind `arg`, and there is none either. -/
theorem findIoprp_cases (arg : CharArray 0x50) :
    (∃ i, IsFirst (OccursAt arg.val) (some i) ∧ findIoprp arg.val = some (some i)) ∨
    (∀ i, ¬ OccursAt arg.val i) ∧ (∀ i < 0x50, ¬ arg.val.drop i <+: ioprpPattern) ∧
      findIoprp arg.val = some none ∨
    (∀ i, ¬ OccursAt arg.val i) ∧ (∃ i < 0x50, arg.val.drop i <+: ioprpPattern) ∧
      findIoprp arg.val = none := by
  have hlength : arg.val.length = 0x50 := arg.property
  have hrange : ∀ {i}, OccursAt arg.val i → i < 0x50 := by
    intro i hoccurs
    have hroom := hoccurs.length_le
    omega
  rcases scan_cases (patternAt arg.val) 0x50 0 with
    ⟨hall, heq⟩ | ⟨p, hp, hpassed, ⟨htrue, heq⟩ | ⟨hnone, heq⟩⟩
  · simp only [Nat.zero_add] at hall
    refine .inr (.inl ⟨fun i hoccurs => ?_, fun i hi => (passed_of_patternAt (hall i hi)).2, heq⟩)
    exact (passed_of_patternAt (hall i (hrange hoccurs))).1 hoccurs
  · simp only [Nat.zero_add] at hpassed htrue heq
    refine .inl ⟨p, ⟨?_, fun q hq => ⟨p, rfl, ?_⟩⟩, heq⟩
    · rintro i ⟨⟩
      exact occursAt_of_patternAt htrue
    · by_contra hlt
      exact (passed_of_patternAt (hpassed q (Nat.lt_of_not_le hlt))).1 hq
  · simp only [Nat.zero_add] at hpassed hnone
    obtain ⟨hoccurs, hprefix⟩ := overhangs_of_patternAt hnone
    refine .inr (.inr ⟨fun q hq => ?_, ⟨p, hp, hprefix⟩, heq⟩)
    -- an occurrence before `p` would have been found, behind it there is no room
    rcases Nat.lt_trichotomy q p with hlt | rfl | hgt
    · exact (passed_of_patternAt (hpassed q hlt)).1 hq
    · exact hoccurs hq
    · have hroom := hq.length_le
      have hshort := hprefix.length_le
      rw [length_ioprpPattern, List.length_drop] at hshort
      omega

/-! ### The packet -/

section

variable {dmaHookDisabled : Bool} {arg stack : CharArray 0x50}

/-- The path is copied without its terminator. -/
theorem strncpy_path {src : List Byte} (hsrc : NUL ∉ src) :
    strncpy stack.val src src.length = src ++ stack.val.drop src.length := by
  rw [strncpy, cstr_eq_self hsrc, List.take_length, Nat.sub_self, List.replicate_zero,
    List.append_nil]

/-- The buffer holds the path as a string exactly if the byte behind it was NUL. -/
theorem path_terminated_iff (stack : CharArray 0x50) {src : List Byte} (hsrc : NUL ∉ src)
    (hlen : src.length < 0x50) :
    (strncpy stack.val src src.length).length = 0x50 ∧ NUL ∈ strncpy stack.val src src.length ∧
        cstr (strncpy stack.val src src.length) = src ↔
      stack.val.getD src.length NUL = NUL := by
  rw [strncpy_path hsrc, cstr_append hsrc, List.append_right_eq_self, cstr_drop_eq_nil_iff]
  have hstack : stack.val.length = 0x50 := stack.property
  constructor
  · exact fun h => h.2.2
  · intro h
    refine ⟨by simp; omega, List.mem_append_right _ ?_, h⟩
    rw [List.getD_eq_getElem?_getD, List.getElem?_eq_getElem (by omega), Option.getD_some] at h
    exact List.mem_drop_iff_getElem.mpr ⟨0, by omega, h⟩

/-- A packet in which the pattern is found, with a NUL behind the path. -/
theorem newSifSetDma_of_found (dmaHookDisabled : Bool) (stack : CharArray 0x50) {i : ℕ}
    (hfind : findIoprp arg.val = some (some i))
    (hend : NUL ∈ arg.val.drop (i + 10)) :
    newSifSetDma dmaHookDisabled arg stack = some (if dmaHookDisabled then none else
      some (strncpy stack.val (cstr (arg.val.drop (i + 10)))
        (cstr (arg.val.drop (i + 10))).length)) := by
  simp [newSifSetDma, hfind, stringAt, hend]

theorem recognised_iff_of_found {i : ℕ} (hfirst : IsFirst (OccursAt arg.val) (some i))
    (hfind : findIoprp arg.val = some (some i)) :
    Recognised dmaHookDisabled arg stack ↔ WellPlaced dmaHookDisabled arg stack := by
  have hoccurs : OccursAt arg.val i := hfirst.holds i rfl
  by_cases hend : NUL ∈ arg.val.drop (i + 10)
  · have hlen : (cstr (arg.val.drop (i + 10))).length < 0x50 := by
      have hle : (cstr (arg.val.drop (i + 10))).length ≤ (arg.val.drop (i + 10)).length :=
        (List.takeWhile_prefix _).length_le
      rw [List.length_drop, arg.property] at hle
      omega
    have hpath := path_terminated_iff stack (nul_notMem_cstr (arg.val.drop (i + 10))) hlen
    have hrun := newSifSetDma_of_found dmaHookDisabled stack hfind hend
    have honly : ∀ i', IsFirst (OccursAt arg.val) (some i') → i' = i :=
      fun i' hi' => Option.some.inj (hi'.unique hfirst)
    constructor
    · rintro ⟨r, hrun', -, hpaths⟩
      refine ⟨fun hnone => absurd hoccurs (hnone i), fun i' hi' => ?_, fun henabled i' hi' => ?_⟩
      · rw [honly i' hi']
        exact hend
      · rw [honly i' hi']
        rw [hrun, henabled] at hrun'
        exact hpath.mp (hpaths _ (Option.some.inj hrun').symm i hfirst)
    · intro h
      refine ⟨_, hrun, ?_, fun path hmem i' hi' => ?_⟩
      · cases dmaHookDisabled with
        | false => simpa using ⟨i, hoccurs⟩
        | true => simp
      · rw [honly i' hi']
        cases dmaHookDisabled with
        | false =>
            obtain rfl := Option.some.inj hmem
            exact hpath.mpr (h.terminated rfl i hfirst)
        | true => cases hmem
  · constructor
    · rintro ⟨r, hrun, -⟩
      simp [newSifSetDma, hfind, stringAt, hend] at hrun
    · intro h
      exact absurd (h.ended i hfirst) hend

/-- A packet is recognised as it should be exactly under those conditions on it and on the
stack. -/
theorem recognised_iff (dmaHookDisabled : Bool) (arg stack : CharArray 0x50) :
    Recognised dmaHookDisabled arg stack ↔ WellPlaced dmaHookDisabled arg stack := by
  rcases findIoprp_cases arg with
    ⟨i, hfirst, hfind⟩ | ⟨hnone, hprefix, hfind⟩ | ⟨hnone, ⟨i, hi, hprefix⟩, hfind⟩
  · exact recognised_iff_of_found hfirst hfind
  · have hcontra : ∀ i, ¬ IsFirst (OccursAt arg.val) (some i) :=
      fun i hfirst => hnone i (hfirst.holds i rfl)
    refine iff_of_true ⟨none, by simp [newSifSetDma, hfind], ?_, ?_⟩ ⟨fun _ => hprefix, ?_, ?_⟩
    · simp [hnone]
    · rintro path ⟨⟩
    · exact fun i hfirst => absurd hfirst (hcontra i)
    · exact fun _ i hfirst => absurd hfirst (hcontra i)
  · refine iff_of_false ?_ fun h => h.overhang hnone i hi hprefix
    rintro ⟨r, hrun, -⟩
    simp [newSifSetDma, hfind] at hrun

end

/-- A packet with the path `cdrom` and NULs behind it. -/
def cdromPacket : CharArray 0x50 := ⟨ioprpPattern ++ List.replicate 65 NUL, rfl⟩

/-- The path is not terminated where no byte of the stack was NUL. -/
theorem not_recognised_of_filled_stack :
    NUL ∈ cdromPacket.val ∧ ¬ Recognised false cdromPacket ⟨List.replicate 0x50 0x58, rfl⟩ := by
  refine ⟨by decide +kernel, ?_⟩
  rintro ⟨r, hrun, -, hpaths⟩
  have hvalue : newSifSetDma false cdromPacket ⟨List.replicate 0x50 0x58, rfl⟩ =
      some (some ([0x63, 0x64, 0x72, 0x6f, 0x6d] ++ List.replicate 75 0x58)) := by
    decide +kernel
  rw [hvalue] at hrun
  obtain ⟨-, hnul, -⟩ := hpaths _ (Option.some.inj hrun).symm 0 (IsFirst.zero (by decide +kernel))
  exact absurd hnul (by decide +kernel)

/-! ### The packet as the hooks see it -/

section

variable {arg : CharArray 0x50} {sdd : Transfer}

/-- The pattern stands at `i` in the memory of a transfer. -/
theorem ioprpImg_iff (sdd : Transfer) : sdd.ioprpImg = true ↔
    ∃ i < 0x50, ∀ j < 15, sdd.arg (i + j) = ioprpPattern.getD j 0 := by
  simp [Transfer.ioprpImg]

/-- In memory that starts with `arg`, the pattern stands in it or overhangs it. -/
theorem occursAt_or_prefix (hsdd : ∀ i < 0x50, sdd.arg i = arg.val.getD i NUL) {i : ℕ}
    (hmatch : ∀ j < 15, sdd.arg (i + j) = ioprpPattern.getD j 0) :
    OccursAt arg.val i ∨ arg.val.drop i <+: ioprpPattern := by
  have hlength : arg.val.length = 0x50 := arg.property
  have hequal : ∀ j < 15, i + j < 0x50 → (arg.val.drop i)[j]? = ioprpPattern[j]? := by
    intro j hj hij
    have hbyte := hmatch j hj
    have hpattern := List.getElem?_eq_getElem (l := ioprpPattern) hj
    rw [hsdd (i + j) hij, List.getD_eq_getElem?_getD, List.getD_eq_getElem?_getD, hpattern,
      List.getElem?_eq_getElem (by omega), Option.getD_some, Option.getD_some] at hbyte
    rw [List.getElem?_drop, List.getElem?_eq_getElem (by omega), hpattern, hbyte]
  rcases Nat.le_total (i + 15) 0x50 with hroom | hcut
  · refine .inl (List.prefix_iff_getElem?.mpr fun j hj => ?_)
    rw [hequal j hj (by rw [length_ioprpPattern] at hj; omega), List.getElem?_eq_getElem hj]
  · refine .inr (List.prefix_iff_getElem?.mpr fun j hj => ?_)
    have hj' := hj
    rw [List.length_drop, hlength] at hj'
    rw [← hequal j (by omega) (by omega), List.getElem?_eq_getElem hj]

/-- Where nothing is read behind `arg`, the hooks decide by the same test. -/
theorem ioprpImg_eq_isSome {r : Option ℕ} (hfind : findIoprp arg.val = some r)
    (hsdd : ∀ i < 0x50, sdd.arg i = arg.val.getD i NUL) : sdd.ioprpImg = r.isSome := by
  rw [Bool.eq_iff_iff, ioprpImg_iff]
  have hlength : arg.val.length = 0x50 := arg.property
  rcases findIoprp_cases arg with ⟨i, hfirst, heq⟩ | ⟨hnone, hprefix, heq⟩ | ⟨-, -, heq⟩
  · rw [hfind] at heq
    cases heq
    refine iff_of_true ⟨i, ?_, fun j hj => ?_⟩ rfl
    · have hroom := (hfirst.holds i rfl).length_le
      omega
    · have hoccurs : OccursAt arg.val i := hfirst.holds i rfl
      have hroom := hoccurs.length_le
      have hbyte := List.prefix_iff_getElem?.mp hoccurs j hj
      rw [List.getElem?_drop] at hbyte
      rw [hsdd (i + j) (by omega), List.getD_eq_getElem?_getD, List.getD_eq_getElem?_getD, hbyte,
        List.getElem?_eq_getElem (l := ioprpPattern) hj]
      rfl
  · rw [hfind] at heq
    cases heq
    refine iff_of_false ?_ (by simp)
    rintro ⟨i, hi, hmatch⟩
    rcases occursAt_or_prefix hsdd hmatch with hoccurs | hover
    · exact hnone i hoccurs
    · exact hprefix i hi hover
  · rw [hfind] at heq
    cases heq

end

end Ps2rd.Debugger
