import Ps2rd.CString.Basic
import Ps2rd.Lib.First

/-!
# Search with a wildcard

`__strstr_wc` looks for a needle in a haystack, where the wildcard character of
either string stands for any character.  `__strncmp_wc` compares the wildcard
before it looks for the end of the haystack, so a wildcard of the needle also
matches the terminator, and the comparison ends there with success.
`findsFirst_iff` says that this is all that goes wrong: the search finds the first
occurrence unless a piece of the needle that is cut off like this comes first.

Memory is the list of the bytes from a pointer on, up to the last one that may be
read; `none` is the result of a read behind it.
-/

namespace Ps2rd.Loader

open CString

/-! ### The functions -/

/-- `strlen` -/
def strlen : List Byte → Option ℕ
  | [] => none
  | c :: s => if c = NUL then some 0 else (strlen s).map (· + 1)

/-- The character is the wildcard; `wc` is an `int`. -/
def isWc (wc : ℤ) (c : Byte) : Bool := (c.toNat : ℤ) = wc

/-- `__strncmp_wc` -/
def strncmpWc (wc : ℤ) : ℕ → List Byte → List Byte → Option ℤ
  | 0, _, _ => some 0
  | n + 1, a :: s1, b :: s2 =>
      if a ≠ b ∧ !isWc wc a ∧ !isWc wc b then some (a.toNat - b.toNat)
      else if a = NUL then some 0
      else strncmpWc wc n s1 s2
  | _ + 1, _, _ => none

/-- The loop of `__strstr_wc`: `mem` is what stands at `pos`. -/
def strstrWcFrom (wc : ℤ) (needle : List Byte) : List Byte → ℕ → Option (Option ℕ)
  | [], _ => none
  | c :: rest, pos =>
      if c = NUL then some none
      else (strlen needle).bind fun n =>
        (strncmpWc wc n (c :: rest) needle).bind fun diff =>
          if diff = 0 then some (some pos) else strstrWcFrom wc needle rest (pos + 1)

/-- `__strstr_wc`; the pointer that it returns is an index into the haystack. -/
def strstrWc (haystack needle : List Byte) (wc : ℤ) : Option (Option ℕ) :=
  (strlen needle).bind fun n =>
    if n = 0 then some (some 0) else strstrWcFrom wc needle haystack 0

/-! ### What it is for -/

/-- The characters are equal, or one of them is the wildcard. -/
def Alike (wc : ℤ) (a b : Byte) : Prop := a = b ∨ isWc wc a = true ∨ isWc wc b = true

/-- The needle `w` occurs in `h` at `p`. -/
structure Occurs (wc : ℤ) (h w : List Byte) (p : ℕ) : Prop where
  fits : p + w.length ≤ h.length
  alike : ∀ j < w.length, ∀ a ∈ h[p + j]?, ∀ b ∈ w[j]?, Alike wc a b

/-- The needle occurs at `p` up to the end of the haystack, and goes on there with
a wildcard. -/
structure Overhangs (wc : ℤ) (h w : List Byte) (p : ℕ) : Prop where
  inside : p < h.length
  beyond : h.length < p + w.length
  alike : ∀ j < h.length - p, ∀ a ∈ h[p + j]?, ∀ b ∈ w[j]?, Alike wc a b
  wildcard : ∀ b ∈ w[h.length - p]?, Alike wc NUL b

/-! ### The comparison -/

section Matches

variable {wc : ℤ} {s w : List Byte}

/-- What `__strncmp_wc` finds equal: the characters are alike up to the end of the
needle, or up to the terminator of the string. -/
def Matches (wc : ℤ) : List Byte → List Byte → Prop
  | _, [] => True
  | [], b :: _ => Alike wc NUL b
  | a :: s, b :: w => Alike wc a b ∧ Matches wc s w

theorem alike_iff (wc : ℤ) (a b : Byte) :
    Alike wc a b ↔ ¬ (a ≠ b ∧ !isWc wc a ∧ !isWc wc b) := by
  unfold Alike
  cases isWc wc a <;> cases isWc wc b <;> simp

theorem toNat_sub_ne_zero {a b : Byte} (h : a ≠ b) : (a.toNat : ℤ) - b.toNat ≠ 0 := by
  intro heq
  apply h
  apply BitVec.eq_of_toNat_eq
  omega

/-- It reads neither string behind its terminator, where `past` and `past'` begin. -/
theorem strncmpWc_spec (wc : ℤ) (w past past' : List Byte) (hs : NUL ∉ s) :
    ∃ diff, strncmpWc wc w.length (s ++ NUL :: past) (w ++ NUL :: past') = some diff ∧
      (diff = 0 ↔ Matches wc s w) := by
  induction w generalizing s with
  | nil => exact ⟨0, by simp [strncmpWc], by simp [Matches]⟩
  | cons b w ih =>
      cases s with
      | nil =>
          simp only [List.nil_append, List.cons_append, List.length_cons, strncmpWc, Matches,
            alike_iff]
          split_ifs with hdiff
          · exact ⟨_, rfl, iff_of_false (toNat_sub_ne_zero hdiff.1) (not_not.mpr hdiff)⟩
          · exact ⟨0, rfl, iff_of_true rfl hdiff⟩
      | cons a s =>
          have ha : a ≠ NUL := fun h => hs (by simp [h])
          simp only [List.cons_append, List.length_cons, strncmpWc, Matches, alike_iff]
          rw [if_neg ha]
          split_ifs with hdiff
          · exact ⟨_, rfl, iff_of_false (toNat_sub_ne_zero hdiff.1) (fun h => h.1 hdiff)⟩
          · obtain ⟨diff, hrun, hiff⟩ := ih fun h => hs (List.mem_cons_of_mem a h)
            exact ⟨diff, hrun, by rw [hiff, and_iff_right hdiff]⟩

theorem matches_iff (wc : ℤ) (s w : List Byte) :
    Matches wc s w ↔
      (∀ j : ℕ, ∀ a ∈ s[j]?, ∀ b ∈ w[j]?, Alike wc a b) ∧ ∀ b ∈ w[s.length]?, Alike wc NUL b := by
  induction w generalizing s with
  | nil => simp [Matches]
  | cons b w ih =>
      cases s with
      | nil => simp [Matches]
      | cons a s =>
          rw [Matches, ih s]
          constructor
          · rintro ⟨hab, hall, hend⟩
            refine ⟨fun j => ?_, by simpa using hend⟩
            cases j with
            | zero => simpa using hab
            | succ j => simpa using hall j
          · rintro ⟨hall, hend⟩
            exact ⟨by simpa using hall 0, fun j => by simpa using hall (j + 1),
              by simpa using hend⟩

/-- So it takes two kinds of positions for occurrences. -/
theorem matches_drop_iff {h : List Byte} {p : ℕ} (hp : p < h.length) :
    Matches wc (h.drop p) w ↔ Occurs wc h w p ∨ Overhangs wc h w p := by
  rw [matches_iff, List.length_drop]
  constructor
  · rintro ⟨hall, hend⟩
    have halike : ∀ j : ℕ, ∀ a ∈ h[p + j]?, ∀ b ∈ w[j]?, Alike wc a b := by
      intro j a ha
      exact hall j a (by rwa [List.getElem?_drop])
    by_cases hfits : p + w.length ≤ h.length
    · exact .inl ⟨hfits, fun j _ => halike j⟩
    · exact .inr ⟨hp, by omega, fun j _ => halike j, hend⟩
  · rintro (⟨hfits, hall⟩ | ⟨-, hbeyond, hall, hend⟩)
    · refine ⟨fun j a ha b hb => ?_, fun b hb => ?_⟩
      · rw [List.getElem?_drop] at ha
        exact hall j (List.getElem?_eq_some_iff.mp hb).1 a ha b hb
      · have hlt := (List.getElem?_eq_some_iff.mp hb).1
        omega
    · refine ⟨fun j a ha b hb => ?_, hend⟩
      rw [List.getElem?_drop] at ha
      have hlt := (List.getElem?_eq_some_iff.mp ha).1
      exact hall j (by omega) a ha b hb

end Matches

/-! ### The search -/

section Search

variable {wc : ℤ} {h w : List Byte}

theorem strlen_append_nul (hw : NUL ∉ w) (past : List Byte) :
    strlen (w ++ NUL :: past) = some w.length := by
  induction w with
  | nil => rfl
  | cons c w ih =>
      have hc : c ≠ NUL := fun h => hw (by simp [h])
      rw [List.cons_append, strlen, if_neg hc, ih fun h => hw (List.mem_cons_of_mem c h)]
      rfl

theorem strstrWcFrom_spec (wc : ℤ) (hh : NUL ∉ h) (hw : NUL ∉ w) (past past' : List Byte)
    (pos : ℕ) :
    ∃ r, strstrWcFrom wc (w ++ NUL :: past') (h ++ NUL :: past) pos =
        some (r.map (pos + ·)) ∧
      IsFirst (fun p => p < h.length ∧ Matches wc (h.drop p) w) r := by
  induction h generalizing pos with
  | nil => exact ⟨none, rfl, .none fun q hq => absurd hq.1 (Nat.not_lt_zero q)⟩
  | cons c h ih =>
      have hc : c ≠ NUL := fun heq => hh (by simp [heq])
      obtain ⟨diff, hcmp, hdiff⟩ := strncmpWc_spec wc w past past' hh
      rw [List.cons_append] at hcmp
      simp only [List.cons_append, strstrWcFrom, if_neg hc, strlen_append_nul hw past', hcmp,
        Option.bind_some]
      by_cases hzero : diff = 0
      · rw [if_pos hzero]
        exact ⟨some 0, rfl, .zero ⟨by simp, hdiff.mp hzero⟩⟩
      · obtain ⟨r, hrun, hfirst⟩ := ih (fun hmem => hh (List.mem_cons_of_mem c hmem)) (pos + 1)
        refine ⟨r.map (· + 1), ?_, .succ (fun hP => hzero (hdiff.mpr hP.2)) ?_⟩
        · rw [if_neg hzero, hrun, Option.map_map]
          congr 2
          funext p
          exact Nat.add_right_comm pos 1 p
        · exact hfirst.congr fun p => by simp

theorem Occurs.not_overhangs {p : ℕ} (hp : Occurs wc h w p) : ¬ Overhangs wc h w p :=
  fun hover => absurd hp.fits (Nat.not_le.mpr hover.beyond)

theorem strstrWc_spec (wc : ℤ) (hh : NUL ∉ h) (hw : NUL ∉ w) (past past' : List Byte) :
    ∃ r, strstrWc (h ++ NUL :: past) (w ++ NUL :: past') wc = some r ∧
      IsFirst (fun p => Occurs wc h w p ∨ Overhangs wc h w p) r := by
  rw [strstrWc, strlen_append_nul hw past', Option.bind_some]
  by_cases hne : w = []
  · subst hne
    exact ⟨some 0, rfl, .zero (.inl ⟨Nat.zero_le _, by simp⟩)⟩
  · rw [if_neg (mt List.length_eq_zero_iff.mp hne)]
    obtain ⟨r, hrun, hfirst⟩ := strstrWcFrom_spec wc hh hw past past' 0
    refine ⟨r, ?_, hfirst.congr fun p => ⟨?_, fun hor => ?_⟩⟩
    · rw [hrun]
      simp
    · rintro ⟨hp, hmatches⟩
      exact (matches_drop_iff hp).mp hmatches
    · have hp : p < h.length := by
        rcases hor with hoccurs | hover
        · have hfits := hoccurs.fits
          have hpos := List.length_pos_iff.mpr hne
          omega
        · exact hover.inside
      exact ⟨hp, (matches_drop_iff hp).mpr hor⟩

/-- Without the wildcard in one of the strings, an occurrence is a substring. -/
theorem exists_occurs_iff (hh : ∀ a ∈ h, isWc wc a = false) (hw : ∀ b ∈ w, isWc wc b = false) :
    (∃ p, Occurs wc h w p) ↔ w <:+: h := by
  constructor
  · rintro ⟨p, hfits, halike⟩
    have heq : (h.drop p).take w.length = w := by
      apply List.ext_getElem?
      intro j
      rw [List.getElem?_take]
      split_ifs with hj
      · rw [List.getElem?_drop]
        have ha : p + j < h.length := by omega
        rw [List.getElem?_eq_getElem ha, List.getElem?_eq_getElem hj]
        rcases halike j hj h[p + j] (by simp [ha]) w[j] (by simp) with heq | hwc | hwc
        · rw [heq]
        · rw [hh _ (List.getElem_mem ha)] at hwc
          cases hwc
        · rw [hw _ (List.getElem_mem hj)] at hwc
          cases hwc
      · exact (List.getElem?_eq_none (Nat.not_lt.mp hj)).symm
    rw [← heq]
    exact (List.take_prefix _ _).isInfix.trans (List.drop_suffix _ _).isInfix
  · rintro ⟨l, l', rfl⟩
    refine ⟨l.length, by simp, fun j hj a ha b hb => .inl ?_⟩
    rw [List.append_assoc, List.getElem?_append_right (Nat.le_add_right _ _),
      Nat.add_sub_cancel_left, List.getElem?_append_left hj] at ha
    exact Option.mem_unique ha hb

theorem not_overhangs {p : ℕ} (hw : ∀ b ∈ w, isWc wc b = false) (hnul : isWc wc NUL = false)
    (hw₀ : NUL ∉ w) : ¬ Overhangs wc h w p := by
  rintro ⟨hinside, hbeyond, -, hwild⟩
  have hlt : h.length - p < w.length := by omega
  have hmem := List.getElem_mem hlt
  rcases hwild w[h.length - p] (by simp [hlt]) with heq | hwc | hwc
  · exact hw₀ (heq ▸ hmem)
  · rw [hnul] at hwc
    cases hwc
  · rw [hw _ hmem] at hwc
    cases hwc

theorem strstrWc_of_not_isWc (hh : NUL ∉ h) (hw : NUL ∉ w) (hwc : ∀ a ∈ h, isWc wc a = false)
    (hwc' : ∀ b ∈ w, isWc wc b = false) (hnul : isWc wc NUL = false) (past past' : List Byte) :
    ∃ r, strstrWc (h ++ NUL :: past) (w ++ NUL :: past') wc = some r ∧
      (r.isSome = true ↔ w <:+: h) := by
  obtain ⟨r, hrun, hfirst⟩ := strstrWc_spec wc hh hw past past'
  refine ⟨r, hrun, ?_⟩
  rw [hfirst.isSome_iff, ← exists_occurs_iff hwc hwc']
  exact exists_congr fun p => or_iff_left (not_overhangs hwc' hnul hw)

/-- `__strstr_wc` returns without a read behind a terminator.  What it returns is the
first occurrence exactly if no occurrence that the end of the haystack cuts off comes
before it. -/
theorem findsFirst_iff (h w : List Byte) (wc : ℤ) (hh : NUL ∉ h) (hw : NUL ∉ w) :
    ∃ r, strstrWc (h ++ [NUL]) (w ++ [NUL]) wc = some r ∧
      (IsFirst (Occurs wc h w) r ↔ ∀ q, Overhangs wc h w q → ∃ p < q, Occurs wc h w p) := by
  obtain ⟨r, hrun, hfirst⟩ := strstrWc_spec wc hh hw [] []
  exact ⟨r, hrun, hfirst.iff_forall_exists fun _ => Occurs.not_overhangs⟩

end Search

/-- `SLES_820.11;1` -/
def elfName : List Byte :=
  [0x53, 0x4C, 0x45, 0x53, 0x5F, 0x38, 0x32, 0x30, 0x2E, 0x31, 0x31, 0x3B, 0x31]

/-- `SLES_820.1?` -/
def elfPattern : List Byte := [0x53, 0x4C, 0x45, 0x53, 0x5F, 0x38, 0x32, 0x30, 0x2E, 0x31, 0x3F]

/-- The pattern occurs at the start, before any occurrence could be cut off. -/
theorem findsFirst_iff_elfName :
    strstrWc (elfName ++ [NUL]) (elfPattern ++ [NUL]) 0x3F = some (some 0) ∧
      IsFirst (Occurs 0x3F elfName elfPattern) (some 0) := by
  obtain ⟨r, hr, hiff⟩ := findsFirst_iff elfName elfPattern 0x3F (by decide) (by decide)
  have hrun : strstrWc (elfName ++ [NUL]) (elfPattern ++ [NUL]) 0x3F = some (some 0) := by decide
  obtain rfl := Option.some.inj (hrun.symm.trans hr)
  refine ⟨hrun, hiff.mpr fun q hover => ⟨0, ?_, by decide, ?_⟩⟩
  · have hbeyond := hover.beyond
    have hlen : elfName.length = 13 := rfl
    have hlen' : elfPattern.length = 11 := rfl
    omega
  · intro j hj a ha b hb
    have hj : j < 11 := hj
    rw [Nat.zero_add] at ha
    interval_cases j <;> cases ha <;> cases hb <;> unfold Alike <;> decide

/-- The name without the character that the wildcard stands for. -/
theorem not_findsFirst_short :
    strstrWc (elfName.take 10 ++ [NUL]) (elfPattern ++ [NUL]) 0x3F = some (some 0) ∧
      ¬ IsFirst (Occurs 0x3F (elfName.take 10) elfPattern) (some 0) := by
  refine ⟨by decide, fun hfirst => ?_⟩
  have hfits := (hfirst.holds 0 rfl).fits
  exact absurd hfits (by decide)

end Ps2rd.Loader
