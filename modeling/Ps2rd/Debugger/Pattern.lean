import Ps2rd.Basic
import Ps2rd.Lib.Scan

/-!
# The search for instruction patterns

`find_pattern_with_mask` compares the words of a buffer under a mask with a sequence.
Its outer loop ends one position early: `i < bufsize - len`, where the last place for
the sequence is `i = bufsize - len`.  So the search is exact on all other positions
(`isFirst_findPatternWithMask`), and exact altogether unless the first match is that
last one (`searchesExactly_iff`).

A buffer is a partial function from indices to words; `none` is a word that may not be
read, and a search that reads one is undefined.
-/

namespace Ps2rd.Debugger

/-- `pattern_t` -/
structure Pattern where
  seq : List Word
  mask : List Word
  tag : ℕ
  length_mask : mask.length = seq.length := by rfl

/-- `len`, the size of both arrays in bytes. -/
def Pattern.len (pat : Pattern) : ℕ := 4 * pat.seq.length

/-- `(buf[i + j] & mask[j]) != seq[j]` -/
def wordDiffers (buf : ℕ → Option Word) (seq mask : List Word) (i j : ℕ) : Option Bool := do
  let b ← buf (i + j)
  let m ← mask[j]?
  let s ← seq[j]?
  return b &&& m ≠ s

/-- The inner loop, and the test `j == len` behind it. -/
def matchesAt (buf : ℕ → Option Word) (seq mask : List Word) (len i : ℕ) : Option Bool :=
  (scan (wordDiffers buf seq mask i) len 0).map Option.isNone

/-- `find_pattern_with_mask`; the pointer that it returns is an index into the buffer.
Where `bufsize - len` is negative in the source, there is no round. -/
def findPatternWithMask (buf : ℕ → Option Word) (bufsize : ℕ) (seq mask : List Word) (len : ℕ) :
    Option (Option ℕ) :=
  let len := len / 4
  let bufsize := bufsize / 4
  scan (matchesAt buf seq mask len) (bufsize - len) 0

/-- `find_pattern` -/
def findPattern (buf : ℕ → Option Word) (bufsize : ℕ) (pat : Pattern) : Option (Option ℕ) :=
  findPatternWithMask buf bufsize pat.seq pat.mask pat.len

/-! ### What the search is for -/

/-- Under the mask, word `i + j` of the buffer is word `j` of the sequence. -/
def Pattern.EqualAt (pat : Pattern) (buf : ℕ → Option Word) (i j : ℕ) : Prop :=
  ∃ b ∈ buf (i + j), ∃ m ∈ pat.mask[j]?, ∃ s ∈ pat.seq[j]?, b &&& m = s

instance (pat : Pattern) (buf : ℕ → Option Word) (i j : ℕ) : Decidable (pat.EqualAt buf i j) :=
  inferInstanceAs (Decidable (∃ b ∈ _, _))

/-- The words of the buffer from `i` on match the pattern. -/
def Pattern.Matches (pat : Pattern) (buf : ℕ → Option Word) (i : ℕ) : Prop :=
  ∀ j < pat.seq.length, pat.EqualAt buf i j

instance (pat : Pattern) (buf : ℕ → Option Word) (i : ℕ) : Decidable (pat.Matches buf i) :=
  inferInstanceAs (Decidable (∀ j < _, _))

/-- The pattern occurs in the buffer at word `i`. -/
structure Pattern.Occurs (pat : Pattern) (buf : List Word) (i : ℕ) : Prop where
  fits : i + pat.seq.length ≤ buf.length
  equal : pat.Matches (fun k => buf[k]?) i

/-! ### The loops -/

section

variable {buf : ℕ → Option Word} {pat : Pattern} {i : ℕ}

/-- The comparison of a word that may be read. -/
theorem wordDiffers_eq {j : ℕ} (hj : j < pat.seq.length) (hbuf : (buf (i + j)).isSome) :
    wordDiffers buf pat.seq pat.mask i j = some (decide ¬ pat.EqualAt buf i j) := by
  obtain ⟨b, hb⟩ := Option.isSome_iff_exists.mp hbuf
  have hm : j < pat.mask.length := by rwa [pat.length_mask]
  have hequal : pat.EqualAt buf i j ↔ b &&& pat.mask[j] = pat.seq[j] := by
    simp [Pattern.EqualAt, hb, hj, hm, eq_comm]
  simp [wordDiffers, hb, hj, hm, hequal]

/-- The inner loop decides whether the pattern stands at a place. -/
theorem matchesAt_eq (hbuf : ∀ j < pat.seq.length, (buf (i + j)).isSome) :
    matchesAt buf pat.seq pat.mask pat.seq.length i = some (decide (pat.Matches buf i)) := by
  obtain ⟨r, hscan, hfirst⟩ := isFirst_scan fun j hj => wordDiffers_eq hj (hbuf j hj)
  have hnone : r.isNone = true ↔ pat.Matches buf i := by
    rw [Option.isNone_iff_eq_none, ← Option.not_isSome_iff_eq_none, hfirst.isSome_iff]
    push Not
    rfl
  rw [matchesAt, hscan, Option.map_some]
  congr 1
  rw [Bool.eq_iff_iff, hnone, decide_eq_true_iff]

/-- In a buffer of `n` words the search finds the first match that does not reach to the
end. -/
theorem isFirst_findPatternWithMask (buf : ℕ → Option Word) (pat : Pattern) {n : ℕ}
    (hbuf : ∀ k < n, (buf k).isSome) :
    ∃ r, findPatternWithMask buf (4 * n) pat.seq pat.mask pat.len = some r ∧
      IsFirst (fun i => i < n - pat.seq.length ∧ pat.Matches buf i) r := by
  have hlen : pat.len / 4 = pat.seq.length := Nat.mul_div_cancel_left _ (by decide)
  have hsize : 4 * n / 4 = n := Nat.mul_div_cancel_left _ (by decide)
  simp only [findPatternWithMask, hlen, hsize]
  apply isFirst_scan
  intro i hi
  apply matchesAt_eq
  intro j hj
  exact hbuf (i + j) (by omega)

end

/-! ### Exactness -/

/-- `find_pattern_with_mask` returns the first occurrence in the buffer, or none if there
is none, and reads nothing outside of the buffer. -/
def SearchesExactly (buf : List Word) (pat : Pattern) : Prop :=
  ∃ r, findPatternWithMask (fun k => buf[k]?) (4 * buf.length) pat.seq pat.mask pat.len = some r ∧
    IsFirst (pat.Occurs buf) r

/-- The search is exact unless the only occurrence is at the last possible place. -/
theorem searchesExactly_iff (buf : List Word) (pat : Pattern) :
    SearchesExactly buf pat ↔
      (pat.Occurs buf (buf.length - pat.seq.length) →
        ∃ i < buf.length - pat.seq.length, pat.Occurs buf i) := by
  obtain ⟨r, hfind, hfirst⟩ := isFirst_findPatternWithMask (fun k => buf[k]?) pat
    (n := buf.length) (by simp)
  have hbelow : IsFirst (fun i => i < buf.length - pat.seq.length ∧ pat.Occurs buf i) r := by
    apply hfirst.congr
    intro i
    refine and_congr_right fun hi => ⟨fun h => ⟨by omega, h⟩, fun h => h.equal⟩
  have hexact : SearchesExactly buf pat ↔ IsFirst (pat.Occurs buf) r := by
    constructor
    · rintro ⟨r', hfind', hfirst'⟩
      rw [hfind] at hfind'
      cases hfind'
      exact hfirst'
    · exact fun h => ⟨r, hfind, h⟩
  rw [hexact, hbelow.below_iff]
  refine ⟨fun h => h _, fun h q hq => ?_⟩
  -- an occurrence is either below the last place or at it
  have hfits := hq.fits
  rcases Nat.lt_or_ge q (buf.length - pat.seq.length) with hlt | hge
  · exact ⟨q, hlt, hq⟩
  · obtain rfl : q = buf.length - pat.seq.length := by omega
    exact h hq

/-- A buffer of one word that is the pattern. -/
theorem not_searchesExactly_singleton :
    ¬ SearchesExactly [0x0c040000] ⟨[0x0c040000], [0xffffffff], 0, rfl⟩ := by
  rintro ⟨r, hfind, hfirst⟩
  have hnone : r = none := Option.some.inj (hfind.symm.trans (by decide))
  obtain ⟨p, hp, -⟩ := hfirst.least 0 ⟨by decide, by simp [Pattern.Matches, Pattern.EqualAt]⟩
  rw [hnone] at hp
  cases hp

end Ps2rd.Debugger
