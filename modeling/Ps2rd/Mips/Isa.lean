import Ps2rd.Mips.Memory

/-!
# A subset of the R5900 instruction set

Assembly programs as blocks of instructions between two labels.  The general
registers are modelled by their low 64 bits, which is all that the instructions
below read or write; 32-bit results are kept sign-extended.  The assembler's
`la`, `li` and `lw` of a symbol stand for the one or two instructions they
expand to.

A branch and the instruction in its delay slot are one step of the machine.  The
slot of a "likely" branch is skipped when the branch is not taken.  A misaligned
access raises an exception, for which there is no next state, and so has a
branch in a delay slot, which the architecture leaves undefined.
-/

namespace Ps2rd.Mips

/-- General registers. -/
inductive Reg where
  | zero | at' | v0 | v1 | a0 | a1 | a2 | a3
  | t0 | t1 | t2 | t3 | t4 | t5 | t6 | t7
  | s0 | s1 | s2 | s3 | s4 | s5 | s6 | s7
  | t8 | t9 | k0 | k1 | gp | sp | fp | ra
deriving DecidableEq, Repr

/-- The low word of a register. -/
def lo (v : BitVec 64) : Word := v.setWidth 32

/-- A 32-bit result as it stands in a register. -/
def sx (w : Word) : BitVec 64 := w.signExtend 64

/-- The immediate operand of a logical instruction. -/
def zx (imm : BitVec 16) : BitVec 64 := imm.setWidth 64

/-- Registers and memory. -/
structure Core where
  regs : Reg → BitVec 64
  mem : Mem

namespace Core

def get (c : Core) : Reg → BitVec 64
  | .zero => 0
  | r => c.regs r

def set (c : Core) (r : Reg) (v : BitVec 64) : Core :=
  { c with regs := Function.update c.regs r v }

def setMem (c : Core) (m : Mem) : Core := { c with mem := m }

/-- The address of a load or store. -/
def addr (c : Core) (off : BitVec 16) (base : Reg) : Word := lo (c.get base) + off.signExtend 32

end Core

/-- The instructions without a jump; `S` are the symbols of the data sections. -/
inductive Op (S : Type) where
  | nop
  | addiu (rt rs : Reg) (imm : BitVec 16)
  | addu (rd rs rt : Reg)
  | subu (rd rs rt : Reg)
  | and (rd rs rt : Reg)
  | or (rd rs rt : Reg)
  | xor (rd rs rt : Reg)
  | andi (rt rs : Reg) (imm : BitVec 16)
  | sltu (rd rs rt : Reg)
  | sll (rd rt : Reg) (sa : ℕ)
  | srl (rd rt : Reg) (sa : ℕ)
  | move (rd rs : Reg)
  | li (rt : Reg) (imm : Word)
  | la (rt : Reg) (symbol : S)
  | lwSym (rt : Reg) (symbol : S)
  | lb (rt : Reg) (off : BitVec 16) (base : Reg)
  | lbu (rt : Reg) (off : BitVec 16) (base : Reg)
  | lhu (rt : Reg) (off : BitVec 16) (base : Reg)
  | lw (rt : Reg) (off : BitVec 16) (base : Reg)
  | ld (rt : Reg) (off : BitVec 16) (base : Reg)
  | sb (rt : Reg) (off : BitVec 16) (base : Reg)
  | sh (rt : Reg) (off : BitVec 16) (base : Reg)
  | sw (rt : Reg) (off : BitVec 16) (base : Reg)
  | sd (rt : Reg) (off : BitVec 16) (base : Reg)
deriving DecidableEq, Repr

/-- Where the conditional branches jump. -/
inductive Test where
  | eqz (rs : Reg)
  | nez (rs : Reg)
  | eq (rs rt : Reg)
  | ne (rs rt : Reg)
  | gtz (rs : Reg)
deriving DecidableEq, Repr

/-- Instructions; `L` are the labels of the program. -/
inductive Instr (L S : Type) where
  | op (o : Op S)
  | branch (test : Test) (likely : Bool) (target : L)
  | b (target : L)
  | jr (rs : Reg)
  | j (symbol : S)
deriving DecidableEq, Repr

/-- The instructions from each label up to the next one, and the labels in the
order of the listing. -/
structure Program (L S : Type) where
  labels : List L
  code : L → List (Instr L S)

/-- The addresses that the linker has given to labels and symbols. -/
structure Layout (L S : Type) where
  entry : L → Word
  sym : S → Word

/-- A place in the program, as a label and the instructions of its block still
ahead, or an address outside of it. -/
inductive Loc (L S : Type) where
  | block (l : L) (rest : List (Instr L S))
  | out (a : Word)

structure State (L S : Type) where
  core : Core
  pc : Loc L S

section Semantics

variable {L S : Type}

/-- A load: the access must be aligned, `f` reads the value. -/
def Core.load (c : Core) (n : ℕ) (rt : Reg) (a : Word) (f : Mem → Word → BitVec 64) :
    Option Core :=
  if Aligned n a then some (c.set rt (f c.mem a)) else none

/-- A store of the low `n` bytes of a register. -/
def Core.store (c : Core) (n : ℕ) (rt : Reg) (a : Word) : Option Core :=
  if Aligned n a then some (c.setMem (c.mem.store n a (c.get rt))) else none

def Op.exec (sym : S → Word) (c : Core) : Op S → Option Core
  | .nop => some c
  | .addiu rt rs imm => some (c.set rt (sx (lo (c.get rs) + imm.signExtend 32)))
  | .addu rd rs rt => some (c.set rd (sx (lo (c.get rs) + lo (c.get rt))))
  | .subu rd rs rt => some (c.set rd (sx (lo (c.get rs) - lo (c.get rt))))
  | .and rd rs rt => some (c.set rd (c.get rs &&& c.get rt))
  | .or rd rs rt => some (c.set rd (c.get rs ||| c.get rt))
  | .xor rd rs rt => some (c.set rd (c.get rs ^^^ c.get rt))
  | .andi rt rs imm => some (c.set rt (c.get rs &&& zx imm))
  | .sltu rd rs rt => some (c.set rd (if c.get rs < c.get rt then 1 else 0))
  | .sll rd rt sa => some (c.set rd (sx (lo (c.get rt) <<< sa)))
  | .srl rd rt sa => some (c.set rd (sx (lo (c.get rt) >>> sa)))
  | .move rd rs => some (c.set rd (c.get rs))
  | .li rt imm => some (c.set rt (sx imm))
  | .la rt symbol => some (c.set rt (sx (sym symbol)))
  | .lwSym rt symbol => c.load 4 rt (sym symbol) fun m a => sx (m.load32 a)
  | .lb rt off base => c.load 1 rt (c.addr off base) fun m a => (m.load8 a).signExtend 64
  | .lbu rt off base => c.load 1 rt (c.addr off base) fun m a => (m.load8 a).setWidth 64
  | .lhu rt off base => c.load 2 rt (c.addr off base) fun m a => (m.load16 a).setWidth 64
  | .lw rt off base => c.load 4 rt (c.addr off base) fun m a => sx (m.load32 a)
  | .ld rt off base => c.load 8 rt (c.addr off base) fun m a => m.load64 a
  | .sb rt off base => c.store 1 rt (c.addr off base)
  | .sh rt off base => c.store 2 rt (c.addr off base)
  | .sw rt off base => c.store 4 rt (c.addr off base)
  | .sd rt off base => c.store 8 rt (c.addr off base)

def Test.holds (c : Core) : Test → Prop
  | .eqz rs => c.get rs = 0
  | .nez rs => c.get rs ≠ 0
  | .eq rs rt => c.get rs = c.get rt
  | .ne rs rt => c.get rs ≠ c.get rt
  | .gtz rs => 0 < (c.get rs).toInt

instance (c : Core) (t : Test) : Decidable (t.holds c) := by
  cases t <;> unfold Test.holds <;> infer_instance

namespace Program

variable [DecidableEq L] (P : Program L S) (layout : Layout L S)

/-- The place of a label. -/
def start (l : L) : Loc L S := .block l (P.code l)

/-- The label that the end of a block falls through to. -/
def after (l : L) : Option L := (P.labels.dropWhile (· ≠ l))[1]?

/-- The place of an address. -/
def locate (a : Word) : Loc L S :=
  match P.labels.find? (fun l => layout.entry l = a) with
  | some l => P.start l
  | none => .out a

def step (s : State L S) : Option (State L S) :=
  match s.pc with
  | .out _ => none
  | .block l [] => (P.after l).map fun next => ⟨s.core, P.start next⟩
  | .block l (.op o :: rest) => (o.exec layout.sym s.core).map fun c => ⟨c, .block l rest⟩
  | .block l (.branch test likely target :: .op slot :: rest) =>
      if test.holds s.core then
        (slot.exec layout.sym s.core).map fun c => ⟨c, P.start target⟩
      else if likely then some ⟨s.core, .block l rest⟩
      else (slot.exec layout.sym s.core).map fun c => ⟨c, .block l rest⟩
  | .block _ (.b target :: .op slot :: _) =>
      (slot.exec layout.sym s.core).map fun c => ⟨c, P.start target⟩
  | .block _ (.jr rs :: .op slot :: _) =>
      (slot.exec layout.sym s.core).map fun c => ⟨c, P.locate layout (lo (s.core.get rs))⟩
  | .block _ (.j symbol :: .op slot :: _) =>
      (slot.exec layout.sym s.core).map fun c => ⟨c, P.locate layout (layout.sym symbol)⟩
  | _ => none

/-- The state after `k` steps. -/
def run : ℕ → State L S → Option (State L S)
  | 0, s => some s
  | k + 1, s => (P.step layout s).bind (run k)

end Program

end Semantics

end Ps2rd.Mips
