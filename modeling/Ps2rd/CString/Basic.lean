import Ps2rd.Basic
import Mathlib.Data.List.TakeWhile
import Mathlib.Data.Vector.Basic

/-!
# C strings as byte lists

A pointer into a byte array is read here as the list of the bytes from the
pointer on; the string it denotes is what stands before the first NUL.  The
character classes are those of the C locale, where no byte above `0x7e` is
printable, white space or a digit.
-/

namespace Ps2rd.CString

/-- The terminator of a C string. -/
def NUL : Byte := 0x00

/-- Line feed. -/
def LF : Byte := 0x0A

instance (c : Byte) (s : List Byte) : Decidable (c ∈ s) := List.instDecidableMemOfLawfulBEq c s

/-! ### Character classes -/

def isspace (c : Byte) : Bool := c = 0x20 || (0x09 ≤ c && c ≤ 0x0D)

def isgraph (c : Byte) : Bool := 0x21 ≤ c && c ≤ 0x7E

def isdigit (c : Byte) : Bool := 0x30 ≤ c && c ≤ 0x39

def isxdigit (c : Byte) : Bool :=
  isdigit c || (0x41 ≤ c && c ≤ 0x46) || (0x61 ≤ c && c ≤ 0x66)

theorem isgraph_of_isxdigit {c : Byte} (h : isxdigit c = true) : isgraph c = true := by
  simp only [isxdigit, isdigit, isgraph, Bool.or_eq_true, Bool.and_eq_true, decide_eq_true_eq,
    BitVec.le_def, BitVec.reduceToNat] at h ⊢
  omega

theorem not_isspace_of_isgraph {c : Byte} (h : isgraph c = true) : isspace c = false := by
  rw [Bool.eq_false_iff]
  simp only [isspace, isgraph, ne_eq, Bool.or_eq_true, Bool.and_eq_true, decide_eq_true_eq,
    BitVec.le_def, BitVec.reduceToNat, ← BitVec.toNat_inj] at h ⊢
  omega

theorem not_isspace_of_isxdigit {c : Byte} (h : isxdigit c = true) : isspace c = false :=
  not_isspace_of_isgraph (isgraph_of_isxdigit h)

/-! ### Strings in memory -/

/-- The string at a pointer: the bytes before the first NUL. -/
def cstr (mem : List Byte) : List Byte := mem.takeWhile (· ≠ NUL)

/-- The string a NUL-free list stands for when it is followed by a NUL. -/
theorem cstr_append_nul {s : List Byte} (hs : NUL ∉ s) (rest : List Byte) :
    cstr (s ++ NUL :: rest) = s := by
  unfold cstr
  rw [List.takeWhile_append_of_pos]
  · simp
  · intro c hc
    simp only [ne_eq, decide_eq_true_eq]
    exact fun h => hs (h ▸ hc)

theorem cstr_eq_self {s : List Byte} (hs : NUL ∉ s) : cstr s = s := by
  unfold cstr
  rw [List.takeWhile_eq_self_iff]
  intro c hc
  simp only [ne_eq, decide_eq_true_eq]
  exact fun h => hs (h ▸ hc)

theorem cstr_append {s : List Byte} (hs : NUL ∉ s) (rest : List Byte) :
    cstr (s ++ rest) = s ++ cstr rest := by
  unfold cstr
  rw [List.takeWhile_append_of_pos]
  intro c hc
  simp only [ne_eq, decide_eq_true_eq]
  exact fun h => hs (h ▸ hc)

theorem cstr_drop_eq_nil_iff (mem : List Byte) (k : ℕ) :
    cstr (mem.drop k) = [] ↔ mem.getD k NUL = NUL := by
  unfold cstr
  rcases Nat.lt_or_ge k mem.length with hlt | hge
  · rw [List.drop_eq_getElem_cons hlt, List.takeWhile_cons]
    simp [hlt]
  · rw [List.drop_eq_nil_of_le hge]
    simp [hge]

/-- A string ends at a NUL at the latest. -/
theorem length_cstr_le {mem : List Byte} {k : ℕ} (h : mem.getD k NUL = NUL) :
    (cstr mem).length ≤ k := by
  by_contra hlt
  have hk : k < (cstr mem).length := Nat.lt_of_not_le hlt
  have hprefix : (cstr mem)[k] ∈ cstr mem := List.getElem_mem hk
  have hget : (cstr mem)[k] = mem.getD k NUL := by
    rw [List.getD_eq_getElem?_getD, List.getElem?_eq_getElem (hk.trans_le
      (List.takeWhile_prefix _).length_le)]
    exact (List.takeWhile_prefix _).getElem hk
  rw [hget, h] at hprefix
  simpa using List.mem_takeWhile_imp hprefix

theorem nul_notMem_cstr (mem : List Byte) : NUL ∉ cstr mem := by
  intro hmem
  simpa using List.mem_takeWhile_imp hmem

/-- Memory with a NUL holds a string, its terminator, and what follows. -/
theorem eq_cstr_append {mem : List Byte} (h : NUL ∈ mem) :
    ∃ past, mem = cstr mem ++ NUL :: past := by
  induction mem with
  | nil => cases h
  | cons c mem ih =>
      by_cases hc : c = NUL
      · exact ⟨mem, by simp [cstr, hc]⟩
      · obtain ⟨past, hpast⟩ := ih ((List.mem_cons.mp h).resolve_left (Ne.symm hc))
        refine ⟨past, ?_⟩
        have hcons : cstr (c :: mem) = c :: cstr mem := by simp [cstr, hc]
        rw [hcons, List.cons_append, ← hpast]

/-- `strncpy(dst, src, n)`: at most `n` bytes of the source string, filled up
with NULs to exactly `n` bytes; what lies behind them in `dst` is kept. -/
def strncpy (dst src : List Byte) (n : ℕ) : List Byte :=
  ((cstr src).take n ++ List.replicate (n - (cstr src).length) NUL) ++ dst.drop n

theorem length_strncpy {dst : List Byte} (src : List Byte) {n : ℕ} (hn : n ≤ dst.length) :
    (strncpy dst src n).length = dst.length := by
  simp only [strncpy, List.length_append, List.length_take, List.length_replicate,
    List.length_drop]
  omega

/-- A string shorter than the count is stored with its terminator. -/
theorem cstr_strncpy {dst src : List Byte} {n : ℕ} (hlen : (cstr src).length < n) :
    cstr (strncpy dst src n) = cstr src := by
  have hfill : List.replicate (n - (cstr src).length) NUL =
      NUL :: List.replicate (n - (cstr src).length - 1) NUL := by
    rw [← List.replicate_succ]
    congr 1
    omega
  rw [strncpy, List.take_of_length_le hlen.le, hfill, List.append_assoc, List.cons_append]
  exact cstr_append_nul (nul_notMem_cstr src) _

/-- A `char` array of `n` bytes. -/
abbrev CharArray (n : ℕ) := List.Vector Byte n

/-- `strncpy` into an array that has room for the count. -/
def CharArray.strncpy {n : ℕ} (dst : CharArray n) (src : List Byte) (count : ℕ)
    (hcount : count ≤ n) : CharArray n :=
  ⟨CString.strncpy dst.val src count, by
    rw [length_strncpy src (by rw [dst.property]; exact hcount), dst.property]⟩

/-- The string held by an array. -/
def CharArray.str {n : ℕ} (a : CharArray n) : List Byte := cstr a.val

theorem CharArray.str_strncpy {n : ℕ} (dst : CharArray n) {src : List Byte} {count : ℕ}
    (hcount : count ≤ n) (hnul : NUL ∉ src) (hlen : src.length < count) :
    (dst.strncpy src count hcount).str = src := by
  have hsrc := cstr_eq_self hnul
  unfold CharArray.str CharArray.strncpy
  rw [cstr_strncpy (by rwa [hsrc]), hsrc]

end Ps2rd.CString
