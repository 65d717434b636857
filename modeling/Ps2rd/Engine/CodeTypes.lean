import Ps2rd.Mips.Memory

/-!
# The cheat language

An interpreter for the code types as `code_types.txt` describes them.  A code
line is two words, written as eight hexadecimal digits each; the digits are
counted here from the least significant one, so that digit 7 of the first word
is the code type.  Addresses have 25 bits.

`interpret` walks the code list once.  Lines are skipped when they are the
second line of a two-line code or when a conditional code does not hold.  The
deprecated E codes are converted to D codes, and the converted line takes the
place of the E code in the list.
-/

namespace Ps2rd.Engine

open Mips

/-- A line of the code list. -/
structure Line where
  addr : Word
  val : Word
deriving DecidableEq, Repr

/-- The lines stand in memory from `here` on. -/
def ListAt (here : Word) : List Line → Mem → Prop
  | [], _ => True
  | line :: rest, m =>
      m.load32 here = line.addr ∧ m.load32 (here + 4) = line.val ∧ ListAt (here + 8) rest m

theorem ListAt.congr {here : Word} {lines : List Line} {m m' : Mem} (h : ListAt here lines m)
    (hlen : 8 * lines.length < 2 ^ 32)
    (heq : ∀ b, InRange here (8 * lines.length) b → m b = m' b) : ListAt here lines m' := by
  induction lines generalizing here with
  | nil => trivial
  | cons line rest ih =>
      obtain ⟨haddr, hval, hrest⟩ := h
      rw [List.length_cons] at hlen heq
      refine ⟨?_, ?_, ih hrest (by omega) fun b hb => heq b ?_⟩
      · refine (Mem.load32_congr fun b hb => heq b ?_).symm.trans haddr
        exact hb.mono (by omega)
      · refine (Mem.load32_congr fun b hb => heq b ?_).symm.trans hval
        exact (hb.of_add (k := 4) (by omega)).mono (by omega)
      · exact (hb.of_add (k := 8) (by omega)).mono (by omega)

/-- A hexadecimal digit of a word. -/
def digit (k : ℕ) (w : Word) : BitVec 4 := w.extractLsb' (4 * k) 4

/-- The 25-bit address in a word. -/
def address (w : Word) : Word := w &&& 0x01ffffff

def Line.type (line : Line) : ℕ := (digit 7 line.addr).toNat

/-- What a line does: continue after `skip` more lines, or end the run. -/
inductive Outcome where
  | next (m : Mem) (skip : ℕ)
  | stop

/-! ### The code types -/

/-- Type 3, increment and decrement. -/
def increment (line second : Line) (m : Mem) : Outcome :=
  let a := address line.val
  match (digit 5 line.addr).toNat with
  | 0 => .next (m.store 1 a (m.load8 a + line.addr.setWidth 8)) 0
  | 1 => .next (m.store 1 a (m.load8 a - line.addr.setWidth 8)) 0
  | 2 => .next (m.store 2 a (m.load16 a + line.addr.setWidth 16)) 0
  | 3 => .next (m.store 2 a (m.load16 a - line.addr.setWidth 16)) 0
  | 4 => .next (m.store 4 a (m.load32 a + second.addr)) 1
  | 5 => .next (m.store 4 a (m.load32 a - second.addr)) 1
  | _ => .next m 0

/-- Type 4: `n` words from address `a` on. -/
def serialWrite (m : Mem) (a v step inc : Word) : ℕ → Mem
  | 0 => m
  | n + 1 => serialWrite (m.store 4 a v) (a + step) (v + inc) step inc n

/-- The number of words that a type 4 code writes. -/
def serialCount (line : Line) : ℕ := (line.val.extractLsb' 16 16).toNat

/-- The address step of a type 4 code. -/
def serialStep (line : Line) : Word := 4 * (line.val.extractLsb' 0 16).setWidth 32

/-- Type 5: `n` bytes in ascending order. -/
def copyBytes (m : Mem) (s d : Word) : ℕ → Mem
  | 0 => m
  | n + 1 => copyBytes (m.store 1 d (m.load8 s)) (s + 1) (d + 1) n

/-- The bytes that a write of sub-type 0, 1 or 2 takes. -/
def writeSize (subtype : ℕ) : ℕ := 2 ^ subtype

/-- The sub-type of a type 6 code, which stands in the second line. -/
def pointerType (second : Line) : ℕ := (second.addr.extractLsb' 16 16).toNat

/-- Type 6, pointer write. -/
def pointerWrite (line second : Line) (m : Mem) : Outcome :=
  let base := m.load32 (address line.addr)
  if base = 0 then .next m 1
  else .next (m.store (writeSize (pointerType second)) (base + second.val) line.val) 1

/-- Type 7, boolean operation. -/
def boolean (line : Line) (m : Mem) : Outcome :=
  let a := address line.addr
  match (digit 5 line.val).toNat with
  | 0 => .next (m.store 1 a (m.load8 a ||| line.val.setWidth 8)) 0
  | 1 => .next (m.store 2 a (m.load16 a ||| line.val.setWidth 16)) 0
  | 2 => .next (m.store 1 a (m.load8 a &&& line.val.setWidth 8)) 0
  | 3 => .next (m.store 2 a (m.load16 a &&& line.val.setWidth 16)) 0
  | 4 => .next (m.store 1 a (m.load8 a ^^^ line.val.setWidth 8)) 0
  | 5 => .next (m.store 2 a (m.load16 a ^^^ line.val.setWidth 16)) 0
  | _ => .next m 0

/-- The test conditions of types D and E. -/
def condition (t : ℕ) {w : ℕ} (x v : BitVec w) : Bool :=
  match t with
  | 0 => x = v
  | 1 => x ≠ v
  | 2 => x < v
  | 3 => x > v
  | 4 => x &&& v = 0
  | 5 => x &&& v ≠ 0
  | 6 => x ||| v = 0
  | 7 => x ||| v ≠ 0
  | _ => false

/-- The number of lines under a conditional code; 0 stands for 1. -/
def condLines (val : Word) : ℕ :=
  let n := (val.extractLsb' 24 8).toNat
  if n = 0 then 1 else n

/-- The condition of a D code with address `a`. -/
def condHit (a val : Word) (m : Mem) : Bool :=
  if digit 4 val = 1 then condition (digit 5 val).toNat (m.load8 a) (val.setWidth 8)
  else condition (digit 5 val).toNat (m.load16 a) (val.setWidth 16)

/-- Type D: the next lines are executed only if the condition holds. -/
def doIf (a val : Word) (m : Mem) : Outcome :=
  .next m (if condHit a val m then 0 else condLines val)

/-- The D code that an E code is converted to: digits `E-fnnvvvv taaaaaaa` become
`D-aaaaaaa nntfvvvv`. -/
def convert (line : Line) : Line where
  addr := 0xd0000000 ||| address line.val
  val := (line.addr.extractLsb' 16 8).setWidth 32 <<< 24 |||
    (digit 7 line.val).setWidth 32 <<< 20 ||| (digit 6 line.addr).setWidth 32 <<< 16 |||
    (line.addr.extractLsb' 0 16).setWidth 32

/-- One line, at the place `here` of the list; `second` is the line after it. -/
def exec (here : Word) (line second : Line) (m : Mem) : Outcome :=
  let a := address line.addr
  if line.addr = 0 then .next m 0
  else
    match line.type with
    | 0 => .next (m.store 1 a line.val) 0
    | 1 => .next (m.store 2 a line.val) 0
    | 2 => .next (m.store 4 a line.val) 0
    | 3 => increment line second m
    | 4 => .next (serialWrite m a second.addr (serialStep line) second.val (serialCount line)) 1
    | 5 => .next (copyBytes m a (address second.addr) line.val.toNat) 1
    | 6 => pointerWrite line second m
    | 7 => boolean line m
    | 12 => if m.load32 a = line.val then .next m 0 else .stop
    | 13 => doIf a line.val m
    | 14 =>
        doIf (address line.val) (convert line).val
          ((m.store 4 here (convert line).addr).store 4 (here + 4) (convert line).val)
    | _ => .next m 0

/-- The lines from `here` on, of which the first `skip` are passed over. -/
def walk (here : Word) : ℕ → List Line → Mem → Mem
  | _, [], m => m
  | skip + 1, _ :: rest, m => walk (here + 8) skip rest m
  | 0, line :: rest, m =>
      match exec here line (rest.headD ⟨0, 0⟩) m with
      | .next m' skip => walk (here + 8) skip rest m'
      | .stop => m

/-- The memory after one run over the code list at `codelist`. -/
def interpret (codelist : Word) (codes : List Line) (m : Mem) : Mem := walk codelist 0 codes m

/-! ### Codes that can be executed

The conditions under which a line has the documented layout and makes only
aligned accesses, none of which writes to the memory `own` of the engine. -/

/-- The region of `n` bytes at `a` does not meet `own`. -/
def Free (own : Word → Prop) (a : Word) (n : ℕ) : Prop := ∀ b, InRange a n b → ¬ own b

/-- The documented layout and the alignment of a D code. -/
structure CondOk (a val : Word) : Prop where
  size : digit 4 val = 0 ∨ digit 4 val = 1
  test : (digit 5 val).toNat ≤ 7
  aligned : digit 4 val = 0 → Aligned 2 a

/-- The bytes that a type 3 or type 7 code reads and writes. -/
def accessSize (type subtype : ℕ) : ℕ :=
  if type = 3 then writeSize (subtype / 2) else writeSize (subtype % 2)

/-- A pointer write with a base that is not 0. -/
structure PointerOk (own : Word → Prop) (base : Word) (second : Line) : Prop where
  aligned : Aligned (writeSize (pointerType second)) (base + second.val)
  free : Free own (base + second.val) (writeSize (pointerType second))

/-- The line may be executed; `rest` are the lines after it. -/
def LineOk (own : Word → Prop) (line : Line) (rest : List Line) (m : Mem) : Prop :=
  let a := address line.addr
  let second := rest.headD ⟨0, 0⟩
  match line.type with
  | 0 => Free own a 1
  | 1 => Aligned 2 a ∧ Free own a 2
  | 2 => Aligned 4 a ∧ Free own a 4
  | 3 =>
      let subtype := (digit 5 line.addr).toNat
      let size := accessSize 3 subtype
      subtype ≤ 5 ∧ (4 ≤ subtype → rest ≠ []) ∧ Aligned size (address line.val) ∧
        Free own (address line.val) size
  | 4 =>
      rest ≠ [] ∧ 1 ≤ serialCount line ∧ Aligned 4 a ∧
        ∀ k < serialCount line, Free own (a + BitVec.ofNat 32 k * serialStep line) 4
  | 5 =>
      rest ≠ [] ∧ 1 ≤ line.val.toNat ∧ line.val.toNat < 2 ^ 31 ∧ second.addr.toNat < 2 ^ 25 ∧
        ∀ k < line.val.toNat, Free own (address second.addr + BitVec.ofNat 32 k) 1
  | 6 =>
      let base := m.load32 a
      rest ≠ [] ∧ pointerType second ≤ 2 ∧ Aligned 4 a ∧ Aligned 4 base ∧
        base.toNat < 0x40000000 ∧ (base ≠ 0 → PointerOk own base second)
  | 7 =>
      let subtype := (digit 5 line.val).toNat
      let size := accessSize 7 subtype
      subtype ≤ 5 ∧ Aligned size a ∧ Free own a size
  | 12 => Aligned 4 a
  | 13 => CondOk a line.val
  | 14 =>
      (digit 6 line.addr = 0 ∨ digit 6 line.addr = 1) ∧ CondOk (address line.val) (convert line).val
  | _ => True

/-- Every line that is executed may be executed. -/
def WalkOk (own : Word → Prop) (here : Word) : ℕ → List Line → Mem → Prop
  | _, [], _ => True
  | skip + 1, _ :: rest, m => WalkOk own (here + 8) skip rest m
  | 0, line :: rest, m =>
      (line.addr ≠ 0 → LineOk own line rest m) ∧
        match exec here line (rest.headD ⟨0, 0⟩) m with
        | .next m' skip => WalkOk own (here + 8) skip rest m'
        | .stop => True

/-! ### What a line leaves alone -/

theorem store_of_free {own : Word → Prop} {a b : Word} {n w : ℕ} (h : Free own a n) (hb : own b)
    (m : Mem) (v : BitVec w) : m.store n a v b = m b :=
  Mem.store_of_not_inRange fun hrange => h b hrange hb

theorem serialWrite_of_free {own : Word → Prop} {a b step : Word} {n : ℕ}
    (h : ∀ k < n, Free own (a + BitVec.ofNat 32 k * step) 4) (hb : own b) (m : Mem) (v inc : Word) :
    serialWrite m a v step inc n b = m b := by
  induction n generalizing a m v with
  | zero => rfl
  | succ n ih =>
      have hfirst : Free own a 4 := by simpa using h 0 n.succ_pos
      rw [serialWrite, ih, store_of_free hfirst hb]
      intro k hk
      have hnext := h (k + 1) (by omega)
      rwa [BitVec.ofNat_add, BitVec.add_mul, BitVec.one_mul, BitVec.add_comm _ step,
        ← BitVec.add_assoc] at hnext

theorem copyBytes_of_free {own : Word → Prop} {s d b : Word} {n : ℕ}
    (h : ∀ k < n, Free own (d + BitVec.ofNat 32 k) 1) (hb : own b) (m : Mem) :
    copyBytes m s d n b = m b := by
  induction n generalizing s d m with
  | zero => rfl
  | succ n ih =>
      have hfirst : Free own d 1 := by simpa using h 0 n.succ_pos
      rw [copyBytes, ih, store_of_free hfirst hb]
      intro k hk
      have hnext := h (k + 1) (by omega)
      rwa [BitVec.ofNat_add, BitVec.add_comm (BitVec.ofNat 32 k), ← BitVec.add_assoc] at hnext

theorem increment_frame {own : Word → Prop} {b : Word} {line second : Line} {m m' : Mem} {skip : ℕ}
    (hfree : Free own (address line.val) (accessSize 3 (digit 5 line.addr).toNat))
    (hexec : increment line second m = .next m' skip) (hb : own b) : m' b = m b := by
  unfold increment at hexec
  split at hexec <;> rename_i hsub <;> cases hexec
  case h_7 => rfl
  all_goals
    rw [hsub] at hfree
    exact store_of_free hfree hb _ _

theorem boolean_frame {own : Word → Prop} {b : Word} {line : Line} {m m' : Mem} {skip : ℕ}
    (hfree : Free own (address line.addr) (accessSize 7 (digit 5 line.val).toNat))
    (hexec : boolean line m = .next m' skip) (hb : own b) : m' b = m b := by
  unfold boolean at hexec
  split at hexec <;> rename_i hsub <;> cases hexec
  case h_7 => rfl
  all_goals
    rw [hsub] at hfree
    exact store_of_free hfree hb _ _

theorem pointerWrite_frame {own : Word → Prop} {b : Word} {line second : Line} {m m' : Mem}
    {skip : ℕ} (hptr : m.load32 (address line.addr) ≠ 0 →
      PointerOk own (m.load32 (address line.addr)) second)
    (hexec : pointerWrite line second m = .next m' skip) (hb : own b) : m' b = m b := by
  simp only [pointerWrite] at hexec
  split_ifs at hexec with hzero <;> cases hexec
  · rfl
  · exact store_of_free (hptr hzero).free hb _ _

theorem Line.type_lt (line : Line) : line.type < 16 := (digit 7 line.addr).isLt

/-- A line changes nothing of the engine's memory, apart from an E code that is
replaced by its D code. -/
theorem exec_frame {own : Word → Prop} {here b : Word} {line : Line} {rest : List Line} {m m' : Mem}
    {skip : ℕ} (hok : line.addr ≠ 0 → LineOk own line rest m)
    (hexec : exec here line (rest.headD ⟨0, 0⟩) m = .next m' skip) (hb : own b)
    (hhere : ¬ InRange here 8 b) : m' b = m b := by
  unfold exec at hexec
  by_cases hzero : line.addr = 0
  · simp only [hzero, if_true] at hexec
    cases hexec
    rfl
  have hok := hok hzero
  simp only [hzero, if_false] at hexec
  unfold LineOk at hok
  split at hexec <;> rename_i htype <;> try rw [htype] at hok
  · cases hexec
    exact store_of_free hok hb _ _
  · cases hexec
    exact store_of_free hok.2 hb _ _
  · cases hexec
    exact store_of_free hok.2 hb _ _
  · exact increment_frame hok.2.2.2 hexec hb
  · cases hexec
    exact serialWrite_of_free hok.2.2.2 hb _ _ _
  · cases hexec
    exact copyBytes_of_free hok.2.2.2.2 hb _
  · exact pointerWrite_frame hok.2.2.2.2.2 hexec hb
  · exact boolean_frame hok.2.2 hexec hb
  · split_ifs at hexec
    cases hexec
    rfl
  · cases hexec
    rfl
  · cases hexec
    rw [Mem.store_of_not_inRange, Mem.store_of_not_inRange]
    · exact fun h => hhere (h.trans (by decide))
    · exact fun h => hhere (h.of_add (k := 4) (by decide))
  · cases hexec
    rfl

end Ps2rd.Engine
