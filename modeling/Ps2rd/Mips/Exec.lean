import Ps2rd.Mips.Isa

/-!
# Symbolic execution

The rules by which the programs are executed in the proofs: what a register
holds after an update, the arithmetic of sign-extended words, and runs put
together from runs.  A proof about a block unfolds `Program.run` for the number
of steps that the block takes and lets the lemmas below normalise the result.
-/

namespace Ps2rd.Mips

/-! ### Registers -/

namespace Core

@[simp] theorem get_set {c : Core} {r r' : Reg} {v : BitVec 64} (hr : r ≠ .zero) :
    (c.set r v).get r' = if r' = r then v else c.get r' := by
  by_cases h : r' = r
  · subst h
    cases r' <;> simp_all [get, set]
  · cases r' <;> simp_all [get, set]

@[simp] theorem get_setMem (c : Core) (m : Mem) (r : Reg) : (c.setMem m).get r = c.get r := by
  cases r <;> rfl

@[simp] theorem mem_set (c : Core) (r : Reg) (v : BitVec 64) : (c.set r v).mem = c.mem := rfl

@[simp] theorem mem_setMem (c : Core) (m : Mem) : (c.setMem m).mem = m := rfl

@[simp] theorem get_zero (c : Core) : c.get .zero = 0 := rfl

end Core

/-! ### Loads and stores

The address is given apart from the registers it is computed from, so that it
stands in the result in the form in which the proof knows it. -/

namespace Op

variable {S : Type} {sym : S → Word} {c : Core} {rt base : Reg} {off : BitVec 16} {a : Word}

theorem exec_lwSym {symbol : S} (hal : Aligned 4 (sym symbol)) :
    (Op.lwSym rt symbol).exec sym c = some (c.set rt (sx (c.mem.load32 (sym symbol)))) :=
  if_pos hal

theorem exec_lb (ha : c.addr off base = a) :
    (Op.lb rt off base).exec sym c = some (c.set rt ((c.mem.load8 a).signExtend 64)) := by
  subst ha
  exact if_pos (one_dvd _)

theorem exec_lbu (ha : c.addr off base = a) :
    (Op.lbu rt off base).exec sym c = some (c.set rt ((c.mem.load8 a).setWidth 64)) := by
  subst ha
  exact if_pos (one_dvd _)

theorem exec_lhu (ha : c.addr off base = a) (hal : Aligned 2 a) :
    (Op.lhu rt off base).exec sym c = some (c.set rt ((c.mem.load16 a).setWidth 64)) := by
  subst ha
  exact if_pos hal

theorem exec_lw (ha : c.addr off base = a) (hal : Aligned 4 a) :
    (Op.lw rt off base).exec sym c = some (c.set rt (sx (c.mem.load32 a))) := by
  subst ha
  exact if_pos hal

theorem exec_sb (ha : c.addr off base = a) :
    (Op.sb rt off base).exec sym c = some (c.setMem (c.mem.store 1 a (c.get rt))) := by
  subst ha
  exact if_pos (one_dvd _)

theorem exec_sh (ha : c.addr off base = a) (hal : Aligned 2 a) :
    (Op.sh rt off base).exec sym c = some (c.setMem (c.mem.store 2 a (c.get rt))) := by
  subst ha
  exact if_pos hal

theorem exec_sw (ha : c.addr off base = a) (hal : Aligned 4 a) :
    (Op.sw rt off base).exec sym c = some (c.setMem (c.mem.store 4 a (c.get rt))) := by
  subst ha
  exact if_pos hal

theorem exec_ld (ha : c.addr off base = a) (hal : Aligned 8 a) :
    (Op.ld rt off base).exec sym c = some (c.set rt (c.mem.load64 a)) := by
  subst ha
  exact if_pos hal

theorem exec_sd (ha : c.addr off base = a) (hal : Aligned 8 a) :
    (Op.sd rt off base).exec sym c = some (c.setMem (c.mem.store 8 a (c.get rt))) := by
  subst ha
  exact if_pos hal

end Op

/-! ### Sign-extended words -/

@[simp] theorem lo_sx (w : Word) : lo (sx w) = w := by
  unfold lo sx
  apply BitVec.eq_of_getLsbD_eq
  intro i hi
  simp [BitVec.getLsbD_signExtend, hi]
  omega

theorem sx_injective : Function.Injective sx := fun a b h => by
  rw [← lo_sx a, ← lo_sx b, h]

@[simp] theorem sx_inj {a b : Word} : sx a = sx b ↔ a = b := sx_injective.eq_iff

@[simp] theorem sx_eq_zero {a : Word} : sx a = 0#64 ↔ a = 0#32 := by
  rw [← sx_inj]
  exact Iff.of_eq (congrArg _ (by decide))

@[simp] theorem sx_and (a b : Word) : sx a &&& sx b = sx (a &&& b) := by
  unfold sx
  rw [BitVec.signExtend_and]

@[simp] theorem sx_or (a b : Word) : sx a ||| sx b = sx (a ||| b) := by
  unfold sx
  rw [BitVec.signExtend_or]

@[simp] theorem sx_xor (a b : Word) : sx a ^^^ sx b = sx (a ^^^ b) := by
  unfold sx
  rw [BitVec.signExtend_xor]

/-- A narrow unsigned value is not affected by the sign extension. -/
theorem setWidth_eq_sx {n : ℕ} (v : BitVec n) (hn : n < 32) :
    v.setWidth 64 = sx (v.setWidth 32) := by
  unfold sx
  apply BitVec.eq_of_getLsbD_eq
  intro i hi
  have hmsb : (v.setWidth 32).msb = false := by
    rw [BitVec.msb_eq_getLsbD_last]
    simpa using BitVec.getLsbD_of_ge v 31 (by omega)
  rw [BitVec.getLsbD_signExtend, hmsb]
  simp only [BitVec.getLsbD_setWidth]
  by_cases h : i < 32
  · simp [h, hi]
  · simp only [h, if_false, decide_false, Bool.and_false]
    have : v.getLsbD i = false := BitVec.getLsbD_of_ge v i (by omega)
    simp [this]

@[simp] theorem setWidth8_eq_sx (v : Byte) : v.setWidth 64 = sx (v.setWidth 32) :=
  setWidth_eq_sx v (by decide)

@[simp] theorem setWidth16_eq_sx (v : BitVec 16) : v.setWidth 64 = sx (v.setWidth 32) :=
  setWidth_eq_sx v (by decide)

@[simp] theorem sx_and_zx (w : Word) (imm : BitVec 16) :
    sx w &&& zx imm = sx (w &&& imm.setWidth 32) := by
  unfold zx
  rw [setWidth16_eq_sx, sx_and]

@[simp] theorem toInt_sx (w : Word) : (sx w).toInt = w.toInt := by
  unfold sx
  rw [BitVec.toInt_signExtend_of_le (by decide)]

theorem toNat_sx (w : Word) :
    (sx w).toNat = if 2 ^ 31 ≤ w.toNat then w.toNat + (2 ^ 64 - 2 ^ 32) else w.toNat := by
  unfold sx
  rw [BitVec.toNat_signExtend, BitVec.msb_eq_decide]
  have hw := w.isLt
  split_ifs <;> simp_all <;> omega

@[simp] theorem sx_lt_sx {a b : Word} : sx a < sx b ↔ a < b := by
  rw [BitVec.lt_def, BitVec.lt_def, toNat_sx, toNat_sx]
  split_ifs <;> omega

/-- Stores of up to 32 bits do not see the sign extension. -/
@[simp] theorem store_sx {n : ℕ} (hn : n ≤ 4) (m : Mem) (a w : Word) :
    m.store n a (sx w) = m.store n a w := by
  apply Mem.store_congr
  intro i hi
  have h32 : i < 32 := by omega
  simp [sx, BitVec.getLsbD_signExtend, h32]
  omega

/-! ### Counters -/

theorem ofNat_succ_dec (n : ℕ) :
    BitVec.ofNat 32 (n + 1) + 4294967295#32 = BitVec.ofNat 32 n := by
  rw [BitVec.ofNat_add, BitVec.add_assoc]
  simp

theorem ofNat_ne_zero {n : ℕ} (hpos : 0 < n) (hn : n < 2 ^ 32) : BitVec.ofNat 32 n ≠ 0#32 := by
  rw [ne_eq, ← BitVec.toNat_inj, BitVec.toNat_ofNat, BitVec.toNat_zero, Nat.mod_eq_of_lt hn]
  omega

theorem toInt_ofNat_pos {n : ℕ} (hn : n < 2 ^ 31) : 0 < (BitVec.ofNat 32 n).toInt ↔ 0 < n := by
  have hnat : (BitVec.ofNat 32 n).toNat = n := by
    rw [BitVec.toNat_ofNat, Nat.mod_eq_of_lt (by omega)]
  rw [BitVec.toInt_eq_toNat_of_lt, hnat]
  · omega
  · omega

/-! ### Runs -/

namespace Program

variable {L S : Type} [DecidableEq L] {P : Program L S} {layout : Layout L S}

theorem run_add (j k : ℕ) (s : State L S) :
    P.run layout (j + k) s = (P.run layout j s).bind (P.run layout k) := by
  induction j generalizing s with
  | zero => rw [Nat.zero_add, run, Option.bind_some]
  | succ j ih =>
      rw [Nat.succ_add, run, run]
      cases P.step layout s with
      | none => rfl
      | some t => exact ih t

variable (P layout) in
/-- From `s` a state is reached that satisfies `Q`. -/
def Leads (s : State L S) (Q : State L S → Prop) : Prop := ∃ k s', P.run layout k s = some s' ∧ Q s'

variable {Q R : State L S → Prop} {s s' : State L S} {c c' : Core} {l target : L}
  {o slot : Op S} {rest : List (Instr L S)} {test : Test}

theorem run_of_out {a : Word} (h : s.pc = .out a) {k : ℕ} (hk : P.run layout k s = some s') :
    s' = s := by
  cases k with
  | zero => exact (Option.some.inj hk).symm
  | succ k =>
      rw [run, step, h] at hk
      cases hk

/-! One step, by the instruction it starts at. -/

theorem step_op (ho : o.exec layout.sym c = some c') :
    P.step layout ⟨c, .block l (.op o :: rest)⟩ = some ⟨c', .block l rest⟩ := by
  simp only [step, ho, Option.map_some]

theorem step_fall {next : L} (hnext : P.after l = some next) :
    P.step layout ⟨c, .block l []⟩ = some ⟨c, P.start next⟩ := by
  simp only [step, hnext, Option.map_some]

theorem step_taken {likely : Bool} (ht : test.holds c) (ho : slot.exec layout.sym c = some c') :
    P.step layout ⟨c, .block l (.branch test likely target :: .op slot :: rest)⟩ =
      some ⟨c', P.start target⟩ := by
  simp only [step, ht, ho, if_true, Option.map_some]

theorem step_notTaken (ht : ¬ test.holds c) (ho : slot.exec layout.sym c = some c') :
    P.step layout ⟨c, .block l (.branch test false target :: .op slot :: rest)⟩ =
      some ⟨c', .block l rest⟩ := by
  simp only [step, ht, ho, if_false, Bool.false_eq_true, Option.map_some]

theorem step_likelyNotTaken (ht : ¬ test.holds c) :
    P.step layout ⟨c, .block l (.branch test true target :: .op slot :: rest)⟩ =
      some ⟨c, .block l rest⟩ := by
  simp only [step, ht, if_false, if_true]

theorem step_b (ho : slot.exec layout.sym c = some c') :
    P.step layout ⟨c, .block l (.b target :: .op slot :: rest)⟩ = some ⟨c', P.start target⟩ := by
  simp only [step, ho, Option.map_some]

theorem step_jr {rs : Reg} {a : Word} (ha : lo (c.get rs) = a)
    (ho : slot.exec layout.sym c = some c') :
    P.step layout ⟨c, .block l (.jr rs :: .op slot :: rest)⟩ = some ⟨c', P.locate layout a⟩ := by
  simp only [step, ha, ho, Option.map_some]

theorem step_j {symbol : S} (ho : slot.exec layout.sym c = some c') :
    P.step layout ⟨c, .block l (.j symbol :: .op slot :: rest)⟩ =
      some ⟨c', P.locate layout (layout.sym symbol)⟩ := by
  simp only [step, ho, Option.map_some]

namespace Leads

theorem here (h : Q s) : P.Leads layout s Q := ⟨0, s, rfl, h⟩

theorem trans (h : P.Leads layout s R) (hnext : ∀ s', R s' → P.Leads layout s' Q) :
    P.Leads layout s Q := by
  obtain ⟨j, t, hj, ht⟩ := h
  obtain ⟨k, u, hk, hu⟩ := hnext t ht
  exact ⟨j + k, u, by rw [run_add, hj, Option.bind_some, hk], hu⟩

theorem of_step (hstep : P.step layout s = some s') (h : P.Leads layout s' Q) :
    P.Leads layout s Q := by
  obtain ⟨k, u, hk, hu⟩ := h
  exact ⟨k + 1, u, by rw [run, hstep, Option.bind_some, hk], hu⟩

theorem op (ho : o.exec layout.sym c = some c') (h : P.Leads layout ⟨c', .block l rest⟩ Q) :
    P.Leads layout ⟨c, .block l (.op o :: rest)⟩ Q :=
  of_step (step_op ho) h

theorem fall {next : L} (hnext : P.after l = some next)
    (h : P.Leads layout ⟨c, P.start next⟩ Q) : P.Leads layout ⟨c, .block l []⟩ Q :=
  of_step (step_fall hnext) h

theorem taken {likely : Bool} (ht : test.holds c) (ho : slot.exec layout.sym c = some c')
    (h : P.Leads layout ⟨c', P.start target⟩ Q) :
    P.Leads layout ⟨c, .block l (.branch test likely target :: .op slot :: rest)⟩ Q :=
  of_step (step_taken ht ho) h

theorem notTaken (ht : ¬ test.holds c) (ho : slot.exec layout.sym c = some c')
    (h : P.Leads layout ⟨c', .block l rest⟩ Q) :
    P.Leads layout ⟨c, .block l (.branch test false target :: .op slot :: rest)⟩ Q :=
  of_step (step_notTaken ht ho) h

theorem likelyNotTaken (ht : ¬ test.holds c) (h : P.Leads layout ⟨c, .block l rest⟩ Q) :
    P.Leads layout ⟨c, .block l (.branch test true target :: .op slot :: rest)⟩ Q :=
  of_step (step_likelyNotTaken ht) h

theorem b (ho : slot.exec layout.sym c = some c') (h : P.Leads layout ⟨c', P.start target⟩ Q) :
    P.Leads layout ⟨c, .block l (.b target :: .op slot :: rest)⟩ Q :=
  of_step (step_b ho) h

theorem jr {rs : Reg} {a : Word} (ha : lo (c.get rs) = a) (ho : slot.exec layout.sym c = some c')
    (h : P.Leads layout ⟨c', P.locate layout a⟩ Q) :
    P.Leads layout ⟨c, .block l (.jr rs :: .op slot :: rest)⟩ Q :=
  of_step (step_jr ha ho) h

theorem j {symbol : S} (ho : slot.exec layout.sym c = some c')
    (h : P.Leads layout ⟨c', P.locate layout (layout.sym symbol)⟩ Q) :
    P.Leads layout ⟨c, .block l (.j symbol :: .op slot :: rest)⟩ Q :=
  of_step (step_j ho) h

/-- A run that has left the program is at its end, so that there is only one. -/
theorem of_out (h : P.Leads layout s Q) (h' : P.Leads layout s R)
    (hQ : ∀ t, Q t → ∃ a, t.pc = .out a) (hR : ∀ t, R t → ∃ a, t.pc = .out a) :
    ∃ t, Q t ∧ R t := by
  obtain ⟨j, t, hj, ht⟩ := h
  obtain ⟨k, u, hk, hu⟩ := h'
  rcases Nat.le_total j k with hle | hle
  · obtain ⟨i, rfl⟩ := Nat.exists_eq_add_of_le hle
    obtain ⟨a, ha⟩ := hQ t ht
    rw [run_add, hj, Option.bind_some] at hk
    have heq := run_of_out ha hk
    exact ⟨t, ht, heq ▸ hu⟩
  · obtain ⟨i, rfl⟩ := Nat.exists_eq_add_of_le hle
    obtain ⟨a, ha⟩ := hR u hu
    rw [run_add, hk, Option.bind_some] at hj
    have heq := run_of_out ha hj
    exact ⟨u, heq ▸ ht, hu⟩

end Leads

end Program

end Ps2rd.Mips
