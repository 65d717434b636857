import Ps2rd.CString.Basic
import Mathlib.Data.List.DropRight

/-!
# The string helpers of libcheats

`mystring.c`, on strings given as the list of their bytes.  The functions that
take a pointer into a larger buffer (`chrIdx`, `isEmptySubstr`) read the bytes
from the pointer on, the terminator included; the others are only called on the
local `line` array and work on the string in it.
-/

namespace Ps2rd.Cheats

open CString

/-- `chr_idx`: the index of the first `c` before the end of the string. -/
def chrIdx (s : List Byte) (c : Byte) : Option ℕ :=
  let i := (s.takeWhile fun b => b ≠ NUL && b ≠ c).length
  if s.getD i NUL = c then some i else none

/-- `term_str`: cuts the string where the callback accepts the rest of it. -/
def termStr (callback : List Byte → Bool) : List Byte → List Byte
  | [] => []
  | c :: s => if callback (c :: s) then [] else c :: termStr callback s

/-- `is_empty_str`: no byte is printable. -/
def isEmptyStr (s : List Byte) : Bool := s.all fun c => !isgraph c

/-- `is_empty_substr`: none of the first `count` bytes is printable. -/
def isEmptySubstr (s : List Byte) (count : ℕ) : Bool := isEmptyStr (s.take count)

/-- `trim_str`: `first` and `last` are the positions of the first and the last
byte that is no white space.  A string without a printable byte is left as it
is, white space included. -/
def trimStr (s : List Byte) : List Byte :=
  if isEmptyStr s then s
  else
    let first := (s.takeWhile isspace).length
    let last := s.length - 1 - (s.rtakeWhile isspace).length
    (s.drop first).take (last - first + 1)

/-! ### Scanning a line -/

/-- The scan for a line feed stops there, or at the end of the string. -/
theorem takeWhile_scan {s : List Byte} (hnul : NUL ∉ s) (hlf : LF ∉ s) {b : Byte}
    (hb : b = NUL ∨ b = LF) (rest : List Byte) :
    (s ++ b :: rest).takeWhile (fun c => c ≠ NUL && c ≠ LF) = s := by
  rw [List.takeWhile_append_of_pos]
  · rcases hb with rfl | rfl <;> simp
  · intro c hc
    have h₁ : c ≠ NUL := fun h => hnul (h ▸ hc)
    have h₂ : c ≠ LF := fun h => hlf (h ▸ hc)
    simp [h₁, h₂]

theorem chrIdx_append {line : List Byte} (hnul : NUL ∉ line) (hlf : LF ∉ line)
    (rest : List Byte) : chrIdx (line ++ LF :: rest) LF = some line.length := by
  simp only [chrIdx, takeWhile_scan hnul hlf (.inr rfl)]
  simp

theorem chrIdx_eq_none {s : List Byte} (hnul : NUL ∉ s) (hlf : LF ∉ s) (rest : List Byte) :
    chrIdx (s ++ NUL :: rest) LF = none := by
  simp only [chrIdx, takeWhile_scan hnul hlf (.inl rfl)]
  simp [NUL, LF]

/-! ### Cutting and trimming -/

theorem termStr_prefix_self (callback : List Byte → Bool) (s : List Byte) :
    termStr callback s <+: s := by
  induction s with
  | nil => simp [termStr]
  | cons c s ih =>
      rw [termStr]
      split
      · exact List.nil_prefix
      · exact List.prefix_cons_inj c |>.mpr ih

/-- A string in which the callback accepts no suffix is kept. -/
theorem termStr_eq_self {callback : List Byte → Bool} {s : List Byte}
    (h : ∀ t, t ≠ [] → t <:+ s → callback t = false) : termStr callback s = s := by
  induction s with
  | nil => rfl
  | cons c s ih =>
      have hc : callback (c :: s) = false := h _ (by simp) (List.suffix_refl _)
      rw [termStr, hc, if_neg (by simp), ih]
      exact fun t hne ht => h t hne (ht.trans (List.suffix_cons c s))

/-- Trimming takes a contiguous part of the string. -/
theorem trimStr_infix_self (s : List Byte) : trimStr s <:+: s := by
  unfold trimStr
  split
  · exact List.infix_refl s
  · exact (List.take_prefix _ _).isInfix.trans (List.drop_suffix _ _).isInfix

theorem isEmptyStr_append (s t : List Byte) :
    isEmptyStr (s ++ t) = (isEmptyStr s && isEmptyStr t) := by
  simp [isEmptyStr]

theorem isEmptyStr_of_isspace {s : List Byte} (h : ∀ c ∈ s, isspace c = true) :
    isEmptyStr s = true := by
  rw [isEmptyStr, List.all_eq_true]
  intro c hc
  cases hgraph : isgraph c with
  | false => rfl
  | true =>
      have hspace := h c hc
      rw [not_isspace_of_isgraph hgraph] at hspace
      cases hspace

/-- White space around a string that begins and ends with something else. -/
structure Trimmed (s body : List Byte) : Prop where
  parts : ∃ before after, s = before ++ body ++ after ∧ (∀ c ∈ before, isspace c = true) ∧
    ∀ c ∈ after, isspace c = true
  graph : isEmptyStr body = false
  head : ∀ c ∈ body.head?, isspace c = false
  last : ∀ c ∈ body.getLast?, isspace c = false

/-- `trim_str` leaves what stands between the white space. -/
theorem Trimmed.trimStr_eq {s body : List Byte} (h : Trimmed s body) : trimStr s = body := by
  obtain ⟨before, after, rfl, hbefore, hafter⟩ := h.parts
  have hne : body ≠ [] := by
    rintro rfl
    exact absurd h.graph (by simp [isEmptyStr])
  have hfirst : (before ++ body ++ after).takeWhile isspace = before := by
    rw [List.append_assoc, List.takeWhile_append_of_pos hbefore]
    cases body with
    | nil => exact absurd rfl hne
    | cons c body => simp [h.head c (by simp)]
  have hend : (before ++ body ++ after).rtakeWhile isspace = after := by
    rw [List.rtakeWhile, List.reverse_append,
      List.takeWhile_append_of_pos (by simpa using hafter), List.reverse_append]
    induction body using List.reverseRecOn with
    | nil => exact absurd rfl hne
    | append_singleton body c _ => simp [h.last c (by simp)]
  have hgraph : ¬ isEmptyStr (before ++ body ++ after) = true := by
    simp [isEmptyStr_append, h.graph]
  have hcount : (before ++ body ++ after).length - 1 - after.length - before.length + 1 =
      body.length := by
    have := List.length_pos_iff.mpr hne
    simp only [List.length_append]
    omega
  rw [trimStr, if_neg hgraph]
  simp only [hfirst, hend, hcount]
  rw [List.append_assoc, List.drop_left, List.take_left]

/-- Every string with a printable byte has such a part. -/
theorem exists_trimmed {s : List Byte} (h : isEmptyStr s = false) : ∃ body, Trimmed s body := by
  obtain ⟨rest, hrest⟩ : ∃ rest, s.dropWhile isspace = rest := ⟨_, rfl⟩
  have hs : s = s.takeWhile isspace ++ rest.rdropWhile isspace ++ rest.rtakeWhile isspace := by
    rw [List.append_assoc, List.rdropWhile_append_rtakeWhile, ← hrest,
      List.takeWhile_append_dropWhile]
  have hbefore : ∀ c ∈ s.takeWhile isspace, isspace c = true :=
    fun c hc => List.mem_takeWhile_imp hc
  have hafter : ∀ c ∈ rest.rtakeWhile isspace, isspace c = true :=
    fun c hc => List.mem_rtakeWhile_imp hc
  have hgraph : isEmptyStr (rest.rdropWhile isspace) = false := by
    rw [hs, isEmptyStr_append, isEmptyStr_append, isEmptyStr_of_isspace hbefore,
      isEmptyStr_of_isspace hafter] at h
    simpa using h
  have hne : rest.rdropWhile isspace ≠ [] := by
    intro hnil
    rw [hnil] at hgraph
    cases hgraph
  refine ⟨rest.rdropWhile isspace, ⟨_, _, hs, hbefore, hafter⟩, hgraph, ?_, ?_⟩
  · intro c hc
    obtain ⟨tail, htail⟩ := List.rdropWhile_prefix isspace (l := rest)
    have hhead : rest.head? = some c := by
      rw [← htail, List.head?_append_of_ne_nil _ hne]
      exact hc
    have hnot := List.head?_dropWhile_not isspace s
    rw [hrest, hhead] at hnot
    simpa using hnot
  · intro c hc
    have hnot := List.rdropWhile_last_not isspace rest hne
    rw [List.getLast?_eq_some_getLast hne, Option.mem_some_iff] at hc
    rw [hc] at hnot
    simpa using hnot

/-- A string that begins and ends with something other than white space is kept. -/
theorem trimStr_eq_self {s : List Byte} (hhead : ∀ c ∈ s.head?, isspace c = false)
    (hlast : ∀ c ∈ s.getLast?, isspace c = false) : trimStr s = s := by
  cases hgraph : isEmptyStr s with
  | true => rw [trimStr, if_pos hgraph]
  | false => exact Trimmed.trimStr_eq ⟨⟨[], [], by simp⟩, hgraph, hhead, hlast⟩

/-- White space at the end makes no difference. -/
theorem trimStr_append_of_isspace {s t : List Byte} (hs : isEmptyStr s = false)
    (ht : ∀ c ∈ t, isspace c = true) : trimStr (s ++ t) = trimStr s := by
  obtain ⟨body, h⟩ := exists_trimmed hs
  obtain ⟨before, after, hparts, hbefore, hafter⟩ := h.parts
  have hlonger : Trimmed (s ++ t) body := by
    refine ⟨⟨before, after ++ t, by rw [hparts, List.append_assoc], hbefore, ?_⟩,
      h.graph, h.head, h.last⟩
    intro c hc
    exact (List.mem_append.mp hc).elim (hafter c) (ht c)
  rw [hlonger.trimStr_eq, h.trimStr_eq]

end Ps2rd.Cheats
