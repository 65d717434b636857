import Ps2rd.Mips.Exec

/-!
# The code handler

The listing of `CodeHandler` and its jump table, block by block in the order of
the source.  The numeric labels of the source carry the name of the handler they
stand in: `type3L1` is the label `1:` of `type_3`.
-/

namespace Ps2rd.Engine

open Mips

/-- The labels of `CodeHandler`. -/
inductive Label where
  | codeHandler | chLoop
  | type0 | type1 | type2
  | type3 | type3L1 | type3L2
  | type4 | type4L1
  | type5 | type5L1
  | type6 | type6L1
  | type7 | type7L1 | type7L2
  | typeC
  | typeD | typeDL1 | typeDL2 | typeDL3 | typeDL4 | typeDL5
  | typeE
  | next | chRet
deriving DecidableEq, Repr

/-- The data that the code handler refers to. -/
inductive Sym where
  | numcodes | codelist | typeTab
deriving DecidableEq, Repr

/-- `MAX_CODES`. -/
def maxcodes : ℕ := 100

def labels : List Label :=
  [.codeHandler, .chLoop, .type0, .type1, .type2, .type3, .type3L1, .type3L2, .type4, .type4L1,
    .type5, .type5L1, .type6, .type6L1, .type7, .type7L1, .type7L2, .typeC, .typeD, .typeDL1,
    .typeDL2, .typeDL3, .typeDL4, .typeDL5, .typeE, .next, .chRet]

section Listing

open Mips.Op Mips.Instr Mips.Reg

/-- `beqz`, `bnez` and the like, with the likely variants. -/
def beqz (rs : Reg) (target : Label) : Instr Label Sym := branch (.eqz rs) false target
def beqzl (rs : Reg) (target : Label) : Instr Label Sym := branch (.eqz rs) true target
def bnez (rs : Reg) (target : Label) : Instr Label Sym := branch (.nez rs) false target
def bnezl (rs : Reg) (target : Label) : Instr Label Sym := branch (.nez rs) true target
def beql (rs rt : Reg) (target : Label) : Instr Label Sym := branch (.eq rs rt) true target
def bne (rs rt : Reg) (target : Label) : Instr Label Sym := branch (.ne rs rt) false target
def bgtz (rs : Reg) (target : Label) : Instr Label Sym := branch (.gtz rs) false target

/-- The instructions of each block. -/
def code : Label → List (Instr Label Sym)
  | .codeHandler =>
      [op (lwSym t3 .numcodes),
        beqz t3 .chRet,
        op (li t4 0),
        op (la t0 .codelist),
        op (la t1 .typeTab)]
  | .chLoop =>
      [op (sll at' t4 3),
        op (addu t2 t0 at'),
        op (lw a0 0 t2),
        beqz a0 .next,
        op (srl a2 a0 28),
        op (sll a2 a2 2),
        op (addu a2 a2 t1),
        op (lw t5 0 a2),
        beqz t5 .next,
        op (sll a0 a0 7),
        op (srl a0 a0 7),
        -- jump to code type handler
        jr t5,
        op (lw a1 4 t2)]
  -- 8-bit constant write
  | .type0 => [b .next, op (sb a1 0 a0)]
  -- 16-bit constant write
  | .type1 => [b .next, op (sh a1 0 a0)]
  -- 32-bit constant write
  | .type2 => [b .next, op (sw a1 0 a0)]
  -- increment / decrement
  | .type3 =>
      [op (srl t6 a0 20),
        op (andi at' t6 1),
        op (andi a0 a0 0xffff),
        op (sll a1 a1 7),
        op (srl a1 a1 7),
        op (andi t6 t6 6),
        op (andi a2 t6 2),
        beqzl t6 .type3L1,
        op (lbu t5 0 a1),
        bnezl a2 .type3L1,
        op (lhu t5 0 a1),
        op (lw t5 0 a1),
        op (lw a0 8 t2),
        op (addiu t4 t4 1)]
  | .type3L1 =>
      [beqzl at' .type3L2,
        op (addu t5 t5 a0),
        op (subu t5 t5 a0)]
  | .type3L2 =>
      [beqzl t6 .next,
        op (sb t5 0 a1),
        bnezl a2 .next,
        op (sh t5 0 a1),
        b .next,
        op (sw t5 0 a1)]
  -- 32-bit constant serial write
  | .type4 =>
      [op (lw a2 8 t2),
        op (lw a3 12 t2),
        op (srl t5 a1 16),
        op (andi a1 a1 0xffff),
        op (sll a1 a1 2)]
  | .type4L1 =>
      [op nop,
        op nop,
        op (sw a2 0 a0),
        op (addu a2 a2 a3),
        op (addiu t5 t5 (-1)),
        bgtz t5 .type4L1,
        op (addu a0 a0 a1),
        b .next,
        op (addiu t4 t4 1)]
  -- copy bytes
  | .type5 => [op (lw a2 8 t2)]
  | .type5L1 =>
      [op (lb t5 0 a0),
        op nop,
        op (sb t5 0 a2),
        op (addiu a2 a2 1),
        op (addiu a1 a1 (-1)),
        bgtz a1 .type5L1,
        op (addiu a0 a0 1),
        b .next,
        op (addiu t4 t4 1)]
  -- pointer write
  | .type6 =>
      [op (lw t5 0 a0),
        op (li at' 0x3ffffffc),
        op (Op.and t5 t5 at'),
        beqz t5 .type6L1,
        op (lhu a2 10 t2),
        op (lw a3 12 t2),
        op (addu t5 t5 a3),
        beqzl a2 .type6L1,
        op (sb a1 0 t5),
        op (addiu a2 a2 (-1)),
        beqzl a2 .type6L1,
        op (sh a1 0 t5),
        op (sw a1 0 t5)]
  | .type6L1 => [b .next, op (addiu t4 t4 1)]
  -- boolean operation
  | .type7 =>
      [op (srl t6 a1 20),
        op (andi at' t6 1),
        op (andi t6 t6 6),
        bnezl at' .type7L1,
        op (lhu t5 0 a0),
        op (lbu t5 0 a0)]
  | .type7L1 =>
      [beqzl t6 .type7L2,
        op (Op.or t5 t5 a1),
        op (addiu t6 t6 (-2)),
        beqzl t6 .type7L2,
        op (Op.and t5 t5 a1),
        op (Op.xor t5 t5 a1)]
  | .type7L2 =>
      [bnezl at' .next,
        op (sh t5 0 a0),
        b .next,
        op (sb t5 0 a0)]
  -- 32-bit do all following codes if equal to
  | .typeC =>
      [op (lw t5 0 a0),
        bne t5 a1 .chRet,
        op nop,
        b .next,
        op nop]
  -- do multi-lines if conditional
  | .typeD =>
      [op (srl a3 a1 16),
        op (andi a3 a3 1),
        op (srl t6 a1 20),
        op (srl a2 a1 24),
        beqzl a2 .typeDL1,
        op (li a2 1)]
  | .typeDL1 =>
      [beqz a3 .typeDL2,
        op (andi t6 t6 7),
        op (lbu t5 0 a0),
        b .typeDL3,
        op (andi a1 a1 0xff)]
  | .typeDL2 =>
      [op (lhu t5 0 a0),
        op (andi a1 a1 0xffff)]
  | .typeDL3 =>
      [beqzl t6 .typeDL4,
        op (subu t5 t5 a1),
        op (li at' 1),
        beql t6 at' .typeDL5,
        op (subu t5 t5 a1),
        op (li at' 2),
        beql t6 at' .typeDL5,
        op (sltu t5 t5 a1),
        op (li at' 3),
        beql t6 at' .typeDL5,
        op (sltu t5 a1 t5),
        op (li at' 4),
        beql t6 at' .typeDL4,
        op (Op.and t5 t5 a1),
        op (li at' 5),
        beql t6 at' .typeDL5,
        op (Op.and t5 t5 a1),
        op (li at' 6),
        beql t6 at' .typeDL4,
        op (Op.or t5 t5 a1),
        b .typeDL5,
        op (Op.or t5 t5 a1)]
  -- skip if non-zero
  | .typeDL4 =>
      [bnezl t5 .next,
        op (addu t4 t4 a2),
        b .next,
        op nop]
  -- skip if zero
  | .typeDL5 =>
      [beqzl t5 .next,
        op (addu t4 t4 a2),
        b .next,
        op nop]
  -- do multi-lines if conditional (deprecated)
  | .typeE =>
      [op (andi a2 a0 0xffff),
        op (srl at' a1 28),
        op (sll at' at' 20),
        op (Op.or a2 a2 at'),
        op (srl at' a0 24),
        op (sll at' at' 16),
        op (Op.or a2 a2 at'),
        op (srl at' a0 16),
        op (sll at' at' 24),
        op (Op.or a2 a2 at'),
        op (sll a0 a1 7),
        op (srl a0 a0 7),
        op (li t5 0xd0000000),
        op (Op.or t5 t5 a0),
        op (move a1 a2),
        -- store converted address and value
        op (sw t5 0 t2),
        b .typeD,
        op (sw a1 4 t2)]
  | .next =>
      [op (addiu t4 t4 1),
        op (sltu at' t4 t3),
        bnez at' .chLoop,
        op nop]
  | .chRet => [jr ra, op nop]

end Listing

/-- `CodeHandler`. -/
def codeHandler : Program Label Sym := ⟨labels, code⟩

/-- The handler of each code type in `type_tab`; the table holds 0 for the rest. -/
def handler : ℕ → Option Label
  | 0 => some .type0
  | 1 => some .type1
  | 2 => some .type2
  | 3 => some .type3
  | 4 => some .type4
  | 5 => some .type5
  | 6 => some .type6
  | 7 => some .type7
  | 12 => some .typeC
  | 13 => some .typeD
  | 14 => some .typeE
  | _ => none

/-- Where the linker has put the engine.  The engine's own memory is the text,
the jump table and the lists; the jump table and the code list do not overlap. -/
structure Placement extends Layout Label Sym where
  own : Word → Prop
  entry_injective : Function.Injective entry
  entry_ne_zero : ∀ l, entry l ≠ 0
  aligned : ∀ s, Aligned 4 (sym s)
  text : Word
  textSize : ℕ
  entry_inRange : ∀ l, InRange text textSize (entry l)
  own_text : ∀ a, InRange text textSize a → own a
  own_numcodes : ∀ a, InRange (sym .numcodes) 4 a → own a
  own_typeTab : ∀ a, InRange (sym .typeTab) 64 a → own a
  own_codelist : ∀ a, InRange (sym .codelist) (8 * maxcodes) a → own a
  disjoint : ∀ a, InRange (sym .typeTab) 64 a → ¬ InRange (sym .codelist) (8 * maxcodes) a

/-- The word of `type_tab` for a code type. -/
def Placement.tableWord (p : Placement) (type : ℕ) : Word :=
  ((handler type).map p.entry).getD 0

end Ps2rd.Engine
