import Ps2rd.Engine.CodeHandler
import Ps2rd.Engine.Fields
import Ps2rd.Mips.Flow

/-!
# The handlers of the code types

One lemma per handler: entered with the address and the value of a line in `$a0`
and `$a1`, it leaves the memory that the interpreter leaves for this line and
goes on at `next` with `$t4` advanced by the lines to be passed over, or at
`ch_ret` when the run is to end.
-/

namespace Ps2rd.Engine

open Mips

/-- The registers of the main loop that no handler touches. -/
structure Keeps (c c' : Core) : Prop where
  t0 : c'.get .t0 = c.get .t0
  t1 : c'.get .t1 = c.get .t1
  t3 : c'.get .t3 = c.get .t3
  ra : c'.get .ra = c.get .ra

theorem Keeps.trans {c c' c'' : Core} (h : Keeps c c') (h' : Keeps c' c'') : Keeps c c'' :=
  ⟨h'.t0.trans h.t0, h'.t1.trans h.t1, h'.t3.trans h.t3, h'.ra.trans h.ra⟩

/-- The call is at `ch_ret`, from where `CodeHandler` returns. -/
def AtReturn (s : State Label Sym) : Prop := s.pc = codeHandler.start .chRet

theorem not_atReturn {c : Core} {l : Label} {rest : List (Instr Label Sym)}
    (h : l ≠ .chRet) : ¬ AtReturn ⟨c, .block l rest⟩ := by
  intro heq
  exact h (Loc.block.inj heq).1

/-- A handler is entered for the line at `here`, which has the index `i`. -/
structure Handling (here : Word) (i : ℕ) (line : Line) (c : Core) : Prop where
  a0 : c.get .a0 = sx (address line.addr)
  a1 : c.get .a1 = sx line.val
  t2 : c.get .t2 = sx here
  t4 : c.get .t4 = sx (BitVec.ofNat 32 i)
  aligned : Aligned 4 here

/-- The line after the one at `here`. -/
structure SecondAt (here : Word) (second : Line) (m : Mem) : Prop where
  addr : m.load32 (here + 8) = second.addr
  val : m.load32 (here + 12) = second.val

/-- The handler has come to the label `l` with `i` lines done before the next. -/
structure Resumed (c : Core) (i : ℕ) (m : Mem) (s : State Label Sym) : Prop where
  pc : s.pc = codeHandler.start .next
  mem : s.core.mem = m
  t4 : s.core.get .t4 = sx (BitVec.ofNat 32 i)
  keeps : Keeps c s.core

/-- What a handler entered with `c` for line `i` has to do. -/
def Resumes (c : Core) (i : ℕ) : Outcome → State Label Sym → Prop
  | .next m skip => Resumed c (i + skip) m
  | .stop => fun s => s.pc = codeHandler.start .chRet ∧ s.core.mem = c.mem ∧ Keeps c s.core

section

variable {p : Layout Label Sym} {here : Word} {i : ℕ} {line second : Line} {c : Core}

/-- Instructions before the run change only registers that need not be kept. -/
theorem leads_resumed_of_keeps {c' : Core} {m : Mem} {s : State Label Sym} (hkeeps : Keeps c c')
    (h : codeHandler.Leads p s (Resumed c' i m)) : codeHandler.Leads p s (Resumed c i m) :=
  h.trans fun _ hs => .here ⟨hs.pc, hs.mem, hs.t4, hkeeps.trans hs.keeps⟩

/-! ### Constant writes -/

theorem type0_resumes (h : Handling here i line c) :
    codeHandler.Leads p ⟨c, codeHandler.start .type0⟩
      (Resumes c i (.next (c.mem.store 1 (address line.addr) line.val) 0)) := by
  refine .b (Op.exec_sb (a := address line.addr) (by simp [Core.addr, h.a0])) (.here ?_)
  refine ⟨rfl, ?_, ?_, ?_⟩
  · simp [h.a1]
  · simp [h.t4]
  · constructor <;> simp

theorem type1_resumes (h : Handling here i line c) (hal : Aligned 2 (address line.addr)) :
    codeHandler.Leads p ⟨c, codeHandler.start .type1⟩
      (Resumes c i (.next (c.mem.store 2 (address line.addr) line.val) 0)) := by
  refine .b (Op.exec_sh (by simp [Core.addr, h.a0]) hal) (.here ?_)
  refine ⟨rfl, ?_, ?_, ?_⟩
  · simp [h.a1]
  · simp [h.t4]
  · constructor <;> simp

theorem type2_resumes (h : Handling here i line c) (hal : Aligned 4 (address line.addr)) :
    codeHandler.Leads p ⟨c, codeHandler.start .type2⟩
      (Resumes c i (.next (c.mem.store 4 (address line.addr) line.val) 0)) := by
  refine .b (Op.exec_sw (by simp [Core.addr, h.a0]) hal) (.here ?_)
  refine ⟨rfl, ?_, ?_, ?_⟩
  · simp [h.a1]
  · simp [h.t4]
  · constructor <;> simp

/-! ### Increment and decrement -/

/-- The sum or the difference that type 3 stores. -/
def change (dec : Word) (x v : Word) : Word := if dec = 0 then x + v else x - v

theorem type3L1_leads (dec x v : Word) {Q : State Label Sym → Prop} (hdec : c.get .at' = sx dec)
    (hx : c.get .t5 = sx x) (hv : c.get .a0 = sx v)
    (h : codeHandler.Leads p ⟨c.set .t5 (sx (change dec x v)), codeHandler.start .type3L2⟩ Q) :
    codeHandler.Leads p ⟨c, codeHandler.start .type3L1⟩ Q := by
  by_cases hzero : dec = 0#32
  · refine .taken ?_ rfl ?_
    · simp [Test.holds, hdec, hzero]
    · simpa [hx, hv, change, hzero] using h
  · refine .likelyNotTaken ?_ (.op rfl (.fall rfl ?_))
    · simpa [Test.holds, hdec] using hzero
    · simpa [hx, hv, change, hzero] using h

/-- Below 16 bits the handler's operands are those of the documented field. -/
theorem setWidth_change {k : ℕ} (hk : k ≤ 16) (dec : Word) (x : BitVec k) (w : Word) :
    (change dec (x.setWidth 32) (address w &&& 0xffff)).setWidth k =
      if dec = 0 then x + w.setWidth k else x - w.setWidth k := by
  have hx : (x.setWidth 32).setWidth k = x := by
    rw [BitVec.setWidth_setWidth_of_le x (by omega), BitVec.setWidth_eq]
  have hfield : (address w &&& 0xffff).setWidth k = w.setWidth k := by
    unfold address
    ext j hj
    have : j < 16 := by omega
    simp only [BitVec.getElem_setWidth, BitVec.getLsbD_and]
    interval_cases j <;> simp
  unfold change
  split_ifs
  · rw [BitVec.setWidth_add _ _ (by omega), hx, hfield]
  · rw [BitVec.sub_eq_add_neg, BitVec.setWidth_add _ _ (by omega),
      BitVec.setWidth_neg_of_le (by omega), hx, hfield, BitVec.sub_eq_add_neg]

section Type3

variable {dec : Word} (h : Handling here i line c)
  (hdec : address line.addr >>> 20 &&& 1#32 = dec)
include h hdec

/-- The 8-bit case; `$t6` and `$a2` hold mask bits of digit 5. -/
theorem type3_byte (hsize : address line.addr >>> 20 &&& 6#32 = 0#32) :
    codeHandler.Leads p ⟨c, codeHandler.start .type3⟩
      (Resumed c i (c.mem.store 1 (address line.val)
        (if dec = 0 then c.mem.load8 (address line.val) + line.addr.setWidth 8
          else c.mem.load8 (address line.val) - line.addr.setWidth 8))) := by
  rw [← Mem.store_of_setWidth_eq rfl (setWidth_change (by decide) dec _ _)]
  iterate 7 refine .op rfl ?_
  refine .taken ?_ (Op.exec_lbu (a := address line.val) ?_) ?_
  · simp [Test.holds, h.a0, hsize]
  · simp [Core.addr, h.a1, shl_shr_seven]
  refine type3L1_leads dec _ _ (by simp [h.a0, hdec]) (by simp; rfl) (by simp [h.a0]; rfl) ?_
  refine .taken ?_ (Op.exec_sb (a := address line.val) ?_) (.here ?_)
  · simp [Test.holds, h.a0, hsize]
  · simp [Core.addr, h.a1, shl_shr_seven]
  refine ⟨rfl, ?_, ?_, ?_⟩
  · simp
  · simp [h.t4]
  · constructor <;> simp

theorem type3_half (hsize : address line.addr >>> 20 &&& 6#32 = 2#32)
    (hal : Aligned 2 (address line.val)) :
    codeHandler.Leads p ⟨c, codeHandler.start .type3⟩
      (Resumed c i (c.mem.store 2 (address line.val)
        (if dec = 0 then c.mem.load16 (address line.val) + line.addr.setWidth 16
          else c.mem.load16 (address line.val) - line.addr.setWidth 16))) := by
  rw [← Mem.store_of_setWidth_eq rfl (setWidth_change (by decide) dec _ _)]
  iterate 7 refine .op rfl ?_
  refine .likelyNotTaken ?_ (.taken ?_ (Op.exec_lhu (a := address line.val) ?_ hal) ?_)
  · simp [Test.holds, h.a0, hsize]
  · simp [Test.holds, h.a0, hsize]
  · simp [Core.addr, h.a1, shl_shr_seven]
  refine type3L1_leads dec _ _ (by simp [h.a0, hdec]) (by simp; rfl) (by simp [h.a0]; rfl) ?_
  refine .likelyNotTaken ?_ (.taken ?_ (Op.exec_sh (a := address line.val) ?_ hal) (.here ?_))
  · simp [Test.holds, h.a0, hsize]
  · simp [Test.holds, h.a0, hsize]
  · simp [Core.addr, h.a1, shl_shr_seven]
  refine ⟨rfl, ?_, ?_, ?_⟩
  · simp
  · simp [h.t4]
  · constructor <;> simp

theorem type3_word (hsize : address line.addr >>> 20 &&& 6#32 = 4#32)
    (hal : Aligned 4 (address line.val)) (hsecond : SecondAt here second c.mem) :
    codeHandler.Leads p ⟨c, codeHandler.start .type3⟩
      (Resumed c (i + 1) (c.mem.store 4 (address line.val)
        (change dec (c.mem.load32 (address line.val)) second.addr))) := by
  iterate 7 refine .op rfl ?_
  refine .likelyNotTaken ?_ (.likelyNotTaken ?_ ?_)
  · simp [Test.holds, h.a0, hsize]
  · simp [Test.holds, h.a0, hsize]
  refine .op (Op.exec_lw (a := address line.val) ?_ hal) ?_
  · simp [Core.addr, h.a1, shl_shr_seven]
  refine .op (Op.exec_lw (a := here + 8) ?_ (h.aligned.add (by decide))) (.op rfl (.fall rfl ?_))
  · simp [Core.addr, h.t2]
  refine type3L1_leads dec (c.mem.load32 (address line.val)) second.addr (by simp [h.a0, hdec])
    (by simp) (by simpa using hsecond.addr) ?_
  refine .likelyNotTaken ?_ (.likelyNotTaken ?_ (.b (Op.exec_sw (a := address line.val) ?_ hal)
    (.here ?_)))
  · simp [Test.holds, h.a0, hsize]
  · simp [Test.holds, h.a0, hsize]
  · simp [Core.addr, h.a1, shl_shr_seven]
  refine ⟨rfl, ?_, ?_, ?_⟩
  · simp
  · simp [h.t4, BitVec.ofNat_add]
  · constructor <;> simp

end Type3

theorem digit_le_five {d : BitVec 4} (h : d.toNat ≤ 5) :
    d = 0 ∨ d = 1 ∨ d = 2 ∨ d = 3 ∨ d = 4 ∨ d = 5 := by
  revert h
  revert d
  decide

theorem type3_resumes (h : Handling here i line c) (hsub : (digit 5 line.addr).toNat ≤ 5)
    (hal : Aligned (accessSize 3 (digit 5 line.addr).toNat) (address line.val))
    (hsecond : 4 ≤ (digit 5 line.addr).toNat → SecondAt here second c.mem) :
    codeHandler.Leads p ⟨c, codeHandler.start .type3⟩
      (Resumes c i (increment line second c.mem)) := by
  have hdec := address_shr_and line.addr 1 (by decide)
  have hsize := address_shr_and line.addr 6 (by decide)
  unfold increment
  rcases digit_le_five hsub with hd | hd | hd | hd | hd | hd <;> rw [hd] at hdec hsize hal hsecond ⊢
  · have hrun := type3_byte (p := p) h hdec hsize
    exact hrun
  · have hrun := type3_byte (p := p) h hdec hsize
    exact hrun
  · have hrun := type3_half (p := p) h hdec hsize hal
    exact hrun
  · have hrun := type3_half (p := p) h hdec hsize hal
    exact hrun
  · have hrun := type3_word (p := p) h hdec hsize hal (hsecond le_rfl)
    exact hrun
  · have hrun := type3_word (p := p) h hdec hsize hal (hsecond (by decide))
    exact hrun

/-! ### Counted loops -/

/-- The loop of `type_4`, entered with `n + 1` words still to write. -/
theorem type4L1_resumes {n : ℕ} (hn : n < 2 ^ 16) {a v step inc : Word}
    (ha0 : c.get .a0 = sx a) (ha1 : c.get .a1 = sx step) (ha2 : c.get .a2 = sx v)
    (ha3 : c.get .a3 = sx inc) (ht5 : c.get .t5 = sx (BitVec.ofNat 32 (n + 1)))
    (ht4 : c.get .t4 = sx (BitVec.ofNat 32 i)) (hal : Aligned 4 a) (hstep : Aligned 4 step) :
    codeHandler.Leads p ⟨c, codeHandler.start .type4L1⟩
      (Resumed c (i + 1) (serialWrite c.mem a v step inc (n + 1))) := by
  induction n generalizing c a v with
  | zero =>
      refine .op rfl (.op rfl (.op (Op.exec_sw (a := a) ?_ hal) (.op rfl (.op rfl ?_))))
      · simp [Core.addr, ha0]
      refine .notTaken ?_ rfl (.b rfl (.here ?_))
      · simp [Test.holds, ht5]
      refine ⟨rfl, ?_, ?_, ?_⟩
      · simp [ha2, serialWrite]
      · simp [ht4, BitVec.ofNat_add]
      · constructor <;> simp
  | succ n ih =>
      refine .op rfl (.op rfl (.op (Op.exec_sw (a := a) ?_ hal) (.op rfl (.op rfl ?_))))
      · simp [Core.addr, ha0]
      refine .taken ?_ rfl ?_
      · simp [Test.holds, ht5, ofNat_succ_dec, toInt_ofNat_pos (show n + 1 < 2 ^ 31 by omega)]
      rw [serialWrite, ← store_sx (by decide), ← ha2]
      refine leads_resumed_of_keeps ?_ (ih (by omega) ?_ ?_ ?_ ?_ ?_ ?_ (hal.add hstep))
      · constructor <;> simp
      · simp [ha0, ha1]
      · simp [ha1]
      · simp [ha2, ha3]
      · simp [ha3]
      · simp [ht5, ofNat_succ_dec]
      · simp [ht4]

theorem aligned_serialStep (line : Line) : Aligned 4 (serialStep line) := by
  have h := (line.val.extractLsb' 0 16).isLt
  unfold Aligned serialStep
  rw [BitVec.toNat_mul, BitVec.toNat_setWidth]
  simp only [BitVec.reduceToNat]
  omega

theorem type4_resumes (h : Handling here i line c) (hcount : 1 ≤ serialCount line)
    (hal : Aligned 4 (address line.addr)) (hsecond : SecondAt here second c.mem) :
    codeHandler.Leads p ⟨c, codeHandler.start .type4⟩
      (Resumes c i (.next (serialWrite c.mem (address line.addr) second.addr (serialStep line)
        second.val (serialCount line)) 1)) := by
  obtain ⟨n, hn⟩ := Nat.exists_eq_add_of_le' hcount
  have hlt : serialCount line < 2 ^ 16 := (line.val.extractLsb' 16 16).isLt
  refine .op (Op.exec_lw (a := here + 8) ?_ (h.aligned.add (by decide))) ?_
  · simp [Core.addr, h.t2]
  refine .op (Op.exec_lw (a := here + 12) ?_ (h.aligned.add (by decide))) ?_
  · simp [Core.addr, h.t2]
  refine .op rfl (.op rfl (.op rfl (.fall rfl ?_)))
  rw [hn]
  refine leads_resumed_of_keeps ?_ (type4L1_resumes (by omega) ?_ ?_ ?_ ?_ ?_ ?_ hal
    (aligned_serialStep line))
  · constructor <;> simp
  · simp [h.a0]
  · simpa [h.a1] using serialStep_eq line
  · simpa using hsecond.addr
  · simpa using hsecond.val
  · rw [← hn, serialCount, BitVec.ofNat_toNat, ← shr_16]
    simp [h.a1]
  · simp [h.t4]

/-- The byte that `lb` has sign-extended. -/
theorem setWidth_signExtend (v : Byte) : (v.signExtend 64).setWidth 8 = v := by
  ext j hj
  simp [BitVec.getLsbD_signExtend, hj]
  omega

theorem store_signExtend (m : Mem) (a : Word) (v : Byte) :
    m.store 1 a (v.signExtend 64) = m.store 1 a v :=
  Mem.store_of_setWidth_eq rfl (setWidth_signExtend v)

/-- The loop of `type_5`, entered with `n + 1` bytes still to copy. -/
theorem type5L1_resumes {n : ℕ} (hn : n + 1 < 2 ^ 31) {s d : Word} (ha0 : c.get .a0 = sx s)
    (ha1 : c.get .a1 = sx (BitVec.ofNat 32 (n + 1))) (ha2 : c.get .a2 = sx d)
    (ht4 : c.get .t4 = sx (BitVec.ofNat 32 i)) :
    codeHandler.Leads p ⟨c, codeHandler.start .type5L1⟩
      (Resumed c (i + 1) (copyBytes c.mem s d (n + 1))) := by
  induction n generalizing c s d with
  | zero =>
      refine .op (Op.exec_lb (a := s) ?_) (.op rfl (.op (Op.exec_sb (a := d) ?_) (.op rfl
        (.op rfl ?_))))
      · simp [Core.addr, ha0]
      · simp [Core.addr, ha2]
      refine .notTaken ?_ rfl (.b rfl (.here ?_))
      · simp [Test.holds, ha1]
      refine ⟨rfl, ?_, ?_, ?_⟩
      · simp [copyBytes, store_signExtend]
      · simp [ht4, BitVec.ofNat_add]
      · constructor <;> simp
  | succ n ih =>
      refine .op (Op.exec_lb (a := s) ?_) (.op rfl (.op (Op.exec_sb (a := d) ?_) (.op rfl
        (.op rfl ?_))))
      · simp [Core.addr, ha0]
      · simp [Core.addr, ha2]
      refine .taken ?_ rfl ?_
      · simp [Test.holds, ha1, ofNat_succ_dec, toInt_ofNat_pos (show n + 1 < 2 ^ 31 by omega)]
      rw [copyBytes, ← store_signExtend]
      refine leads_resumed_of_keeps ?_ (ih (by omega) ?_ ?_ ?_ ?_)
      · constructor <;> simp
      · simp [ha0]
      · simp [ha1, ofNat_succ_dec]
      · simp [ha2]
      · simp [ht4]

theorem type5_resumes (h : Handling here i line c) (hpos : 1 ≤ line.val.toNat)
    (hlt : line.val.toNat < 2 ^ 31) (hdest : second.addr.toNat < 2 ^ 25)
    (hsecond : SecondAt here second c.mem) :
    codeHandler.Leads p ⟨c, codeHandler.start .type5⟩
      (Resumes c i (.next (copyBytes c.mem (address line.addr) (address second.addr)
        line.val.toNat) 1)) := by
  obtain ⟨n, hn⟩ := Nat.exists_eq_add_of_le' hpos
  refine .op (Op.exec_lw (a := here + 8) ?_ (h.aligned.add (by decide))) (.fall rfl ?_)
  · simp [Core.addr, h.t2]
  rw [hn, address_eq_self hdest]
  refine leads_resumed_of_keeps ?_ (type5L1_resumes (by omega) ?_ ?_ ?_ ?_)
  · constructor <;> simp
  · simp [h.a0]
  · rw [← hn, BitVec.ofNat_toNat]
    simp [h.a1]
  · simpa using hsecond.addr
  · simp [h.t4]

/-! ### Pointer write -/

/-- The mask of `type_6` keeps an aligned base in the lower quarter. -/
theorem and_pointer_mask {base : Word} (hal : Aligned 4 base) (hlt : base.toNat < 2 ^ 30) :
    base &&& 1073741820#32 = base := by
  have hlow : ∀ k < 2, base.getLsbD k = false := by
    intro k hk
    obtain ⟨q, hq⟩ := hal
    rw [BitVec.getLsbD, hq, show 4 * q = 2 ^ 2 * q from rfl, Nat.testBit_two_pow_mul]
    simp
    omega
  have hhigh : ∀ k, 30 ≤ k → base.getLsbD k = false := fun k hk =>
    Nat.testBit_lt_two_pow (hlt.trans_le (Nat.pow_le_pow_right (by decide) hk))
  ext j hj
  have h0 := hlow 0 (by decide)
  have h1 := hlow 1 (by decide)
  have h30 := hhigh 30 (by decide)
  have h31 := hhigh 31 (by decide)
  simp only [BitVec.getElem_and]
  interval_cases j <;> simp_all

theorem type6L1_resumes {c' : Core} {m : Mem} (hmem : c'.mem = m)
    (ht4 : c'.get .t4 = sx (BitVec.ofNat 32 i)) (hkeeps : Keeps c c') :
    codeHandler.Leads p ⟨c', codeHandler.start .type6L1⟩ (Resumes c i (.next m 1)) := by
  refine .b rfl (.here ⟨rfl, hmem, ?_, hkeeps.trans ?_⟩)
  · simp [ht4, BitVec.ofNat_add]
  · constructor <;> simp

theorem pointerWrite_of_zero {m : Mem} (h : m.load32 (address line.addr) = 0) :
    pointerWrite line second m = .next m 1 :=
  if_pos h

theorem pointerWrite_of_ne_zero {m : Mem} (h : m.load32 (address line.addr) ≠ 0) :
    pointerWrite line second m = .next (m.store (writeSize (pointerType second))
      (m.load32 (address line.addr) + second.val) line.val) 1 :=
  if_neg h

theorem type6_resumes (h : Handling here i line c) (hsub : pointerType second ≤ 2)
    (hal : Aligned 4 (address line.addr)) (hbase : Aligned 4 (c.mem.load32 (address line.addr)))
    (hlt : (c.mem.load32 (address line.addr)).toNat < 2 ^ 30)
    (hptr : c.mem.load32 (address line.addr) ≠ 0 →
      Aligned (writeSize (pointerType second)) (c.mem.load32 (address line.addr) + second.val))
    (hsecond : SecondAt here second c.mem) :
    codeHandler.Leads p ⟨c, codeHandler.start .type6⟩
      (Resumes c i (pointerWrite line second c.mem)) := by
  have hmask := and_pointer_mask hbase hlt
  have htype : c.mem.load16 (here + 10#32) = second.addr.extractLsb' 16 16 := by
    rw [← hsecond.addr, ← Mem.load16_add_two, BitVec.add_assoc]
    rfl
  have hval : c.mem.load32 (here + 12#32) = second.val := hsecond.val
  have hal10 : Aligned 2 (here + 10#32) :=
    .add_of_dvd (by decide) (h.aligned.of_dvd (by decide)) (by decide)
  refine .op (Op.exec_lw (a := address line.addr) ?_ hal) (.op rfl (.op rfl ?_))
  · simp [Core.addr, h.a0]
  -- a null pointer: nothing is written, but both lines are consumed
  by_cases hzero : c.mem.load32 (address line.addr) = 0#32
  · rw [pointerWrite_of_zero hzero]
    refine .taken ?_ (Op.exec_lhu (a := here + 10#32) ?_ hal10) (type6L1_resumes rfl ?_ ?_)
    · simp [Test.holds, hzero]
    · simp [Core.addr, h.t2]
    · simp [h.t4]
    · constructor <;> simp
  · rw [pointerWrite_of_ne_zero hzero]
    refine .notTaken ?_ (Op.exec_lhu (a := here + 10#32) ?_ hal10) ?_
    · simpa [Test.holds, hmask] using hzero
    · simp [Core.addr, h.t2]
    refine .op (Op.exec_lw (a := here + 12#32) ?_ (h.aligned.add (by decide))) (.op rfl ?_)
    · simp [Core.addr, h.t2]
    have hal' := hptr hzero
    unfold pointerType at hsub hal' ⊢
    generalize second.addr.extractLsb' 16 16 = sub at hsub hal' htype
    have hcases : sub = 0#16 ∨ sub = 1#16 ∨ sub = 2#16 := by
      simp only [← BitVec.toNat_inj, BitVec.reduceToNat]
      omega
    -- 8, 16 and 32 bits
    rcases hcases with rfl | rfl | rfl
    · refine .taken ?_ (Op.exec_sb (a := c.mem.load32 (address line.addr) + second.val) ?_)
        (type6L1_resumes ?_ ?_ ?_)
      · simp [Test.holds, htype]
      · simp [Core.addr, hmask, hval]
      · simp [h.a1, writeSize]
      · simp [h.t4]
      · constructor <;> simp
    · refine .likelyNotTaken ?_ (.op rfl (.taken ?_
        (Op.exec_sh (a := c.mem.load32 (address line.addr) + second.val) ?_ hal')
        (type6L1_resumes ?_ ?_ ?_)))
      · simp [Test.holds, htype]
      · simp [Test.holds, htype, lo]
      · simp [Core.addr, hmask, hval]
      · simp [h.a1, writeSize]
      · simp [h.t4]
      · constructor <;> simp
    · refine .likelyNotTaken ?_ (.op rfl (.likelyNotTaken ?_ (.op
        (Op.exec_sw (a := c.mem.load32 (address line.addr) + second.val) ?_ hal')
        (.fall rfl (type6L1_resumes ?_ ?_ ?_)))))
      · simp [Test.holds, htype]
      · simp [Test.holds, htype, lo]
      · simp [Core.addr, hmask, hval]
      · simp [h.a1, writeSize]
      · simp [h.t4]
      · constructor <;> simp

/-! ### Boolean operation -/

/-- The operation that type 7 selects by the bits of digit 5 in `$t6`. -/
def combine (k x v : Word) : Word :=
  if k = 0 then x ||| v else if k = 2 then x &&& v else x ^^^ v

theorem type7L1_leads (k x v : Word) {Q : State Label Sym → Prop}
    (hk : k = 0#32 ∨ k = 2#32 ∨ k = 4#32) (ht6 : c.get .t6 = sx k) (ht5 : c.get .t5 = sx x)
    (ha1 : c.get .a1 = sx v)
    (h : ∀ c' : Core, c'.get .t5 = sx (combine k x v) → c'.get .at' = c.get .at' →
      c'.get .a0 = c.get .a0 → c'.get .t4 = c.get .t4 → c'.mem = c.mem → Keeps c c' →
      codeHandler.Leads p ⟨c', codeHandler.start .type7L2⟩ Q) :
    codeHandler.Leads p ⟨c, codeHandler.start .type7L1⟩ Q := by
  rcases hk with rfl | rfl | rfl
  · refine .taken ?_ rfl (h _ ?_ ?_ ?_ ?_ ?_ ⟨?_, ?_, ?_, ?_⟩)
    · simp [Test.holds, ht6]
    all_goals simp [ht5, ha1, combine]
  · refine .likelyNotTaken ?_ (.op rfl (.taken ?_ rfl (h _ ?_ ?_ ?_ ?_ ?_ ⟨?_, ?_, ?_, ?_⟩)))
    · simp [Test.holds, ht6]
    · simp [Test.holds, ht6]
    all_goals simp [ht5, ha1, combine]
  · refine .likelyNotTaken ?_ (.op rfl (.likelyNotTaken ?_ (.op rfl (.fall rfl
      (h _ ?_ ?_ ?_ ?_ ?_ ⟨?_, ?_, ?_, ?_⟩)))))
    · simp [Test.holds, ht6]
    · simp [Test.holds, ht6]
    all_goals simp [ht5, ha1, combine]

theorem setWidth_combine {j : ℕ} (hj : j ≤ 32) (k : Word) (x : BitVec j) (v : Word) :
    (combine k (x.setWidth 32) v).setWidth j =
      if k = 0 then x ||| v.setWidth j else if k = 2 then x &&& v.setWidth j
        else x ^^^ v.setWidth j := by
  have hx : (x.setWidth 32).setWidth j = x := by
    rw [BitVec.setWidth_setWidth_of_le x hj, BitVec.setWidth_eq]
  unfold combine
  split_ifs
  · rw [BitVec.setWidth_or, hx]
  · rw [BitVec.setWidth_and, hx]
  · rw [BitVec.setWidth_xor, hx]

section Type7

variable {k : Word} (h : Handling here i line c) (hk : k = 0#32 ∨ k = 2#32 ∨ k = 4#32)
  (hop : line.val >>> 20 &&& 6#32 = k)
include h hk hop

theorem type7_byte (hsize : line.val >>> 20 &&& 1#32 = 0#32) :
    codeHandler.Leads p ⟨c, codeHandler.start .type7⟩
      (Resumed c i (c.mem.store 1 (address line.addr)
        (if k = 0 then c.mem.load8 (address line.addr) ||| line.val.setWidth 8
          else if k = 2 then c.mem.load8 (address line.addr) &&& line.val.setWidth 8
          else c.mem.load8 (address line.addr) ^^^ line.val.setWidth 8))) := by
  rw [← Mem.store_of_setWidth_eq rfl (setWidth_combine (by decide) k _ _)]
  iterate 3 refine .op rfl ?_
  refine .likelyNotTaken ?_ (.op (Op.exec_lbu (a := address line.addr) ?_) (.fall rfl ?_))
  · simp [Test.holds, h.a1, hsize]
  · simp [Core.addr, h.a0]
  refine type7L1_leads k ((c.mem.load8 (address line.addr)).setWidth 32) line.val hk
    (by simp [h.a1, hop]) (by simp) (by simp [h.a1]) ?_
  intro c' ht5 hat ha0 ht4 hmem hkeeps
  refine .likelyNotTaken ?_ (.b (Op.exec_sb (a := address line.addr) ?_) (.here ⟨rfl, ?_, ?_, ?_⟩))
  · simp [Test.holds, hat, h.a1, hsize]
  · simp [Core.addr, ha0, h.a0]
  · simp [ht5, hmem]
  · simp [ht4, h.t4]
  · refine Keeps.trans ?_ (hkeeps.trans ?_) <;> constructor <;> simp

theorem type7_half (hsize : line.val >>> 20 &&& 1#32 = 1#32)
    (hal : Aligned 2 (address line.addr)) :
    codeHandler.Leads p ⟨c, codeHandler.start .type7⟩
      (Resumed c i (c.mem.store 2 (address line.addr)
        (if k = 0 then c.mem.load16 (address line.addr) ||| line.val.setWidth 16
          else if k = 2 then c.mem.load16 (address line.addr) &&& line.val.setWidth 16
          else c.mem.load16 (address line.addr) ^^^ line.val.setWidth 16))) := by
  rw [← Mem.store_of_setWidth_eq rfl (setWidth_combine (by decide) k _ _)]
  iterate 3 refine .op rfl ?_
  refine .taken ?_ (Op.exec_lhu (a := address line.addr) ?_ hal) ?_
  · simp [Test.holds, h.a1, hsize]
  · simp [Core.addr, h.a0]
  refine type7L1_leads k ((c.mem.load16 (address line.addr)).setWidth 32) line.val hk
    (by simp [h.a1, hop]) (by simp) (by simp [h.a1]) ?_
  intro c' ht5 hat ha0 ht4 hmem hkeeps
  refine .taken ?_ (Op.exec_sh (a := address line.addr) ?_ hal) (.here ⟨rfl, ?_, ?_, ?_⟩)
  · simp [Test.holds, hat, h.a1, hsize]
  · simp [Core.addr, ha0, h.a0]
  · simp [ht5, hmem]
  · simp [ht4, h.t4]
  · refine Keeps.trans ?_ (hkeeps.trans ?_) <;> constructor <;> simp

end Type7

theorem type7_resumes (h : Handling here i line c) (hsub : (digit 5 line.val).toNat ≤ 5)
    (hal : Aligned (accessSize 7 (digit 5 line.val).toNat) (address line.addr)) :
    codeHandler.Leads p ⟨c, codeHandler.start .type7⟩ (Resumes c i (boolean line c.mem)) := by
  have hsize := shr_and (k := 5) line.val 1 (by decide)
  have hop := shr_and (k := 5) line.val 6 (by decide)
  unfold boolean
  rcases digit_le_five hsub with hd | hd | hd | hd | hd | hd <;> rw [hd] at hsize hop hal ⊢
  · have hrun := type7_byte (p := p) h (by decide) hop hsize
    exact hrun
  · have hrun := type7_half (p := p) h (by decide) hop hsize hal
    exact hrun
  · have hrun := type7_byte (p := p) h (by decide) hop hsize
    exact hrun
  · have hrun := type7_half (p := p) h (by decide) hop hsize hal
    exact hrun
  · have hrun := type7_byte (p := p) h (by decide) hop hsize
    exact hrun
  · have hrun := type7_half (p := p) h (by decide) hop hsize hal
    exact hrun

/-! ### Conditions -/

theorem typeC_resumes (h : Handling here i line c) (hal : Aligned 4 (address line.addr)) :
    codeHandler.Leads p ⟨c, codeHandler.start .typeC⟩
      (Resumes c i
        (if c.mem.load32 (address line.addr) = line.val then .next c.mem 0 else .stop)) := by
  refine .op (Op.exec_lw (a := address line.addr) ?_ hal) ?_
  · simp [Core.addr, h.a0]
  split_ifs with heq
  · refine .notTaken ?_ rfl (.b rfl (.here ⟨rfl, rfl, ?_, ?_⟩))
    · simp [Test.holds, h.a1, heq]
    · simp [h.t4]
    · constructor <;> simp
  · refine .taken ?_ rfl (.here ⟨rfl, rfl, ?_⟩)
    · simpa [Test.holds, h.a1] using heq
    · constructor <;> simp

/-- `type_d` is about to decide whether `n` lines are skipped; `c` is the state
in which it was entered. -/
structure Deciding (c : Core) (i n : ℕ) (c' : Core) : Prop where
  mem : c'.mem = c.mem
  a2 : c'.get .a2 = sx (BitVec.ofNat 32 n)
  t4 : c'.get .t4 = sx (BitVec.ofNat 32 i)
  keeps : Keeps c c'

theorem Deciding.set {n : ℕ} {c' : Core} {r : Reg} (h : Deciding c i n c') (v : BitVec 64)
    (hr : r ∈ [Reg.at', Reg.a1, Reg.t5, Reg.t6] := by decide) : Deciding c i n (c'.set r v) := by
  obtain ⟨hmem, ha2, ht4, hkeeps⟩ := h
  simp only [List.mem_cons, List.not_mem_nil, or_false] at hr
  rcases hr with rfl | rfl | rfl | rfl <;>
    exact ⟨hmem, by simp [ha2], by simp [ht4], hkeeps.trans (by constructor <;> simp)⟩

/-- Skip if non-zero. -/
theorem typeDL4_resumes {n : ℕ} {b : Bool} {c' : Core} (h : Deciding c i n c')
    (hb : c'.get .t5 = 0#64 ↔ b = true) :
    codeHandler.Leads p ⟨c', codeHandler.start .typeDL4⟩
      (Resumed c (i + if b then 0 else n) c.mem) := by
  by_cases hy : c'.get .t5 = 0#64
  · rw [if_pos (hb.mp hy)]
    refine .likelyNotTaken ?_ (.b rfl (.here ⟨rfl, h.mem, h.t4, h.keeps⟩))
    simp [Test.holds, hy]
  · rw [if_neg (mt hb.mpr hy)]
    refine .taken ?_ rfl (.here ⟨rfl, h.mem, ?_, h.keeps.trans ?_⟩)
    · simpa [Test.holds] using hy
    · simp [h.t4, h.a2, BitVec.ofNat_add]
    · constructor <;> simp

/-- Skip if zero. -/
theorem typeDL5_resumes {n : ℕ} {b : Bool} {c' : Core} (h : Deciding c i n c')
    (hb : c'.get .t5 ≠ 0#64 ↔ b = true) :
    codeHandler.Leads p ⟨c', codeHandler.start .typeDL5⟩
      (Resumed c (i + if b then 0 else n) c.mem) := by
  by_cases hy : c'.get .t5 = 0#64
  · rw [if_neg (fun hb' => hb.mpr hb' hy)]
    refine .taken ?_ rfl (.here ⟨rfl, h.mem, ?_, h.keeps.trans ?_⟩)
    · simp [Test.holds, hy]
    · simp [h.t4, h.a2, BitVec.ofNat_add]
    · constructor <;> simp
  · rw [if_pos (hb.mp hy)]
    refine .likelyNotTaken ?_ (.b rfl (.here ⟨rfl, h.mem, h.t4, h.keeps⟩))
    simpa [Test.holds] using hy

/-- The cascade of `type_d`, for the condition `t` of the operands `x` and `v`. -/
structure Comparing (c : Core) (i n t : ℕ) (x v : Word) (c' : Core) : Prop
    extends Deciding c i n c' where
  a1 : c'.get .a1 = sx v
  t5 : c'.get .t5 = sx x
  t6 : c'.get .t6 = sx (BitVec.ofNat 32 t)

section Cascade

variable {n t : ℕ} {x v j : Word} {c' : Core} {l target : Label} {slot : Op Sym}
  {rest : List (Instr Label Sym)} {Q : State Label Sym → Prop}

/-- One test of the cascade, for another condition. -/
theorem Comparing.leads_miss (h : Comparing c i n t x v c') (hne : BitVec.ofNat 32 t ≠ j)
    (hnext : ∀ c'', Comparing c i n t x v c'' → codeHandler.Leads p ⟨c'', .block l rest⟩ Q) :
    codeHandler.Leads p
      ⟨c', .block l (.op (.li .at' j) :: beql .t6 .at' target :: .op slot :: rest)⟩ Q := by
  refine .op rfl (.likelyNotTaken ?_ (hnext _ ⟨h.set _, ?_, ?_, ?_⟩))
  · simpa [Test.holds, h.t6] using hne
  · simp [h.a1]
  · simp [h.t5]
  · simp [h.t6]

/-- One test of the cascade, for the condition of the line. -/
theorem Comparing.leads_hit {y : BitVec 64} (h : Comparing c i n t x v c')
    (heq : BitVec.ofNat 32 t = j)
    (ho : slot.exec p.sym (c'.set .at' (sx j)) = some ((c'.set .at' (sx j)).set .t5 y))
    (hnext : ∀ c'', Deciding c i n c'' → c''.get .t5 = y →
      codeHandler.Leads p ⟨c'', codeHandler.start target⟩ Q) :
    codeHandler.Leads p
      ⟨c', .block l (.op (.li .at' j) :: beql .t6 .at' target :: .op slot :: rest)⟩ Q := by
  refine .op rfl (.taken ?_ ho (hnext _ ((h.set _).set _) ?_))
  · simp [Test.holds, h.t6, heq]
  · simp

theorem typeDL3_resumes (h : Comparing c i n t x v c') (ht : t ≤ 7) :
    codeHandler.Leads p ⟨c', codeHandler.start .typeDL3⟩
      (Resumed c (i + if condition t x v then 0 else n) c.mem) := by
  have ha1 := h.a1
  have ht5 := h.t5
  have ht6 := h.t6
  interval_cases t
  · refine .taken (by simp [Test.holds, ht6]) rfl (typeDL4_resumes (h.set _) ?_)
    simp [ht5, ha1, condition, BitVec.sub_eq_iff_eq_add]
  all_goals refine .likelyNotTaken (by simp [Test.holds, ht6]) ?_
  · refine h.leads_hit rfl rfl fun c₁ h₁ hy => typeDL5_resumes h₁ ?_
    simp [hy, h.t5, h.a1, condition, BitVec.sub_eq_iff_eq_add]
  all_goals refine h.leads_miss (by decide) fun c₁ h₁ => ?_
  · refine h₁.leads_hit rfl rfl fun c₂ h₂ hy => typeDL5_resumes h₂ ?_
    simp [hy, h₁.t5, h₁.a1, condition]
  all_goals refine h₁.leads_miss (by decide) fun c₂ h₂ => ?_
  · refine h₂.leads_hit rfl rfl fun c₃ h₃ hy => typeDL5_resumes h₃ ?_
    simp [hy, h₂.t5, h₂.a1, condition]
  all_goals refine h₂.leads_miss (by decide) fun c₃ h₃ => ?_
  · refine h₃.leads_hit rfl rfl fun c₄ h₄ hy => typeDL4_resumes h₄ ?_
    simp [hy, h₃.t5, h₃.a1, condition]
  all_goals refine h₃.leads_miss (by decide) fun c₄ h₄ => ?_
  · refine h₄.leads_hit rfl rfl fun c₅ h₅ hy => typeDL5_resumes h₅ ?_
    simp [hy, h₄.t5, h₄.a1, condition]
  all_goals refine h₄.leads_miss (by decide) fun c₅ h₅ => ?_
  · refine h₅.leads_hit rfl rfl fun c₆ h₆ hy => typeDL4_resumes h₆ ?_
    simp [hy, h₅.t5, h₅.a1, condition]
  · refine h₅.leads_miss (by decide) fun c₆ h₆ => .b rfl (typeDL5_resumes (h₆.set _) ?_)
    simp [h₆.t5, h₆.a1, condition, imp_iff_not_or]

end Cascade

/-- The conditions do not depend on the width in which the operands are held. -/
theorem condition_setWidth {w : ℕ} (hw : w ≤ 32) (t : ℕ) (x v : BitVec w) :
    condition t (x.setWidth 32) (v.setWidth 32) = condition t x v := by
  have htoNat : ∀ y : BitVec w, (y.setWidth 32).toNat = y.toNat := fun y => by
    rw [BitVec.toNat_setWidth, Nat.mod_eq_of_lt]
    exact y.isLt.trans_le (Nat.pow_le_pow_right (by decide) hw)
  have hinj : ∀ y z : BitVec w, y.setWidth 32 = z.setWidth 32 ↔ y = z := fun y z => by
    rw [← BitVec.toNat_inj, ← BitVec.toNat_inj, htoNat, htoNat]
  have hzero : ∀ y : BitVec w, y.setWidth 32 = 0#32 ↔ y = 0#w := fun y => by
    rw [← BitVec.toNat_inj, ← BitVec.toNat_inj, htoNat, BitVec.toNat_zero, BitVec.toNat_zero]
  have hlt : ∀ y z : BitVec w, y.setWidth 32 < z.setWidth 32 ↔ y < z := fun y z => by
    rw [BitVec.lt_def, BitVec.lt_def, htoNat, htoNat]
  unfold condition
  simp only [← BitVec.setWidth_and, ← BitVec.setWidth_or, hinj, hzero, hlt, gt_iff_lt, ne_eq,
    BitVec.ofNat_eq_ofNat]

theorem condHit_half {a val : Word} {m : Mem} (h : digit 4 val = 0) :
    condHit a val m = condition (digit 5 val).toNat (m.load16 a) (val.setWidth 16) :=
  if_neg (by rw [h]; decide)

theorem condHit_byte {a val : Word} {m : Mem} (h : digit 4 val = 1) :
    condHit a val m = condition (digit 5 val).toNat (m.load8 a) (val.setWidth 8) :=
  if_pos h

theorem typeDL1_resumes {n : ℕ} {a val : Word} {c' : Core} (h : Deciding c i n c')
    (hok : CondOk a val)
    (ha0 : c'.get .a0 = sx a) (ha1 : c'.get .a1 = sx val)
    (ha3 : c'.get .a3 = sx (val >>> 16 &&& 1#32)) (ht6 : c'.get .t6 = sx (val >>> 20)) :
    codeHandler.Leads p ⟨c', codeHandler.start .typeDL1⟩
      (Resumed c (i + if condHit a val c.mem then 0 else n) c.mem) := by
  have hsize : val >>> 16 &&& 1#32 = (digit 4 val).setWidth 32 &&& 1#32 :=
    shr_and (k := 4) val 1 (by decide)
  have htest : val >>> 20 &&& 7#32 = BitVec.ofNat 32 (digit 5 val).toNat := by
    refine (shr_and (k := 5) val 7 (by decide)).trans ?_
    have hle := hok.test
    generalize digit 5 val = d at hle ⊢
    revert hle
    revert d
    decide
  rcases hok.size with hzero | hone
  · rw [hzero] at hsize
    rw [condHit_half hzero, ← condition_setWidth (by decide), ← and_ones_eq_setWidth _ (by decide)]
    refine .taken ?_ rfl (.op (Op.exec_lhu (a := a) ?_ (hok.aligned hzero)) (.op rfl
      (.fall rfl ?_)))
    · simp [Test.holds, ha3, hsize]
    · simp [Core.addr, ha0]
    refine typeDL3_resumes ⟨((h.set _).set _).set _, ?_, ?_, ?_⟩
      hok.test
    · simp [ha1]
    · simp [h.mem]
    · simp [ht6, htest]
  · rw [hone] at hsize
    rw [condHit_byte hone, ← condition_setWidth (by decide), ← and_ones_eq_setWidth _ (by decide)]
    refine .notTaken ?_ rfl (.op (Op.exec_lbu (a := a) ?_) (.b rfl ?_))
    · simp [Test.holds, ha3, hsize]
    · simp [Core.addr, ha0]
    refine typeDL3_resumes ⟨((h.set _).set _).set _, ?_, ?_, ?_⟩
      hok.test
    · simp [ha1]
    · simp [h.mem]
    · simp [ht6, htest]

theorem typeD_resumes {a val : Word} (ha0 : c.get .a0 = sx a) (ha1 : c.get .a1 = sx val)
    (ht4 : c.get .t4 = sx (BitVec.ofNat 32 i)) (hok : CondOk a val) :
    codeHandler.Leads p ⟨c, codeHandler.start .typeD⟩ (Resumes c i (doIf a val c.mem)) := by
  have hlines : val >>> 24 = BitVec.ofNat 32 (val.extractLsb' 24 8).toNat := by
    rw [BitVec.ofNat_toNat, shr_24]
  iterate 4 refine .op rfl ?_
  by_cases hzero : (val.extractLsb' 24 8).toNat = 0
  · have hone : condLines val = 1 := if_pos hzero
    refine .taken ?_ rfl (typeDL1_resumes ⟨rfl, ?_, ?_, ?_⟩ hok ?_ ?_ ?_ ?_)
    · simp [Test.holds, ha1, hlines, hzero]
    · simp [hone]
    · simp [ht4]
    · constructor <;> simp
    · simp [ha0]
    · simp [ha1]
    · simp [ha1]
    · simp [ha1]
  · have hn : condLines val = (val.extractLsb' 24 8).toNat := if_neg hzero
    refine .likelyNotTaken ?_ (.fall rfl (typeDL1_resumes ⟨rfl, ?_, ?_, ?_⟩ hok ?_ ?_ ?_ ?_))
    · have hne : val >>> 24 ≠ 0#32 := by
        intro h0
        rw [hlines, ← BitVec.toNat_inj, BitVec.toNat_ofNat] at h0
        have := (val.extractLsb' 24 8).isLt
        simp only [BitVec.toNat_zero] at h0
        omega
      simpa [Test.holds, ha1] using hne
    · rw [hn, ← hlines]
      simp [ha1]
    · simp [ht4]
    · constructor <;> simp
    · simp [ha0]
    · simp [ha1]
    · simp [ha1]
    · simp [ha1]

/-- `type_e` has stored the D code and goes on with it. -/
structure Rewrote (here : Word) (i : ℕ) (line : Line) (c : Core) (s : State Label Sym) : Prop where
  pc : s.pc = codeHandler.start .typeD
  mem : s.core.mem = (c.mem.store 4 here (rewritten line).addr).store 4 (here + 4)
    (rewritten line).val
  a0 : s.core.get .a0 = sx (address line.val)
  a1 : s.core.get .a1 = sx (rewritten line).val
  t2 : s.core.get .t2 = sx here
  t4 : s.core.get .t4 = sx (BitVec.ofNat 32 i)
  keeps : Keeps c s.core

theorem typeE_comes (h : Handling here i line c) :
    codeHandler.Comes p AtReturn ⟨c, codeHandler.start .typeE⟩ (Rewrote here i line c) := by
  have hgoes {d : Core} {rest : List (Instr Label Sym)} : ¬ AtReturn ⟨d, .block .typeE rest⟩ :=
    not_atReturn (by decide)
  iterate 15 refine .head hgoes (Program.step_op rfl) ?_
  refine .head hgoes (Program.step_op (Op.exec_sw (a := here) ?_ h.aligned))
    (.head hgoes (Program.step_b (Op.exec_sw (a := here + 4) ?_
      (h.aligned.add (by decide)))) (.here ?_))
  · simp [Core.addr, h.t2]
  · simp [Core.addr, h.t2]
  refine ⟨rfl, ?_, ?_, ?_, ?_, ?_, ?_⟩
  · simp [h.a0, h.a1, rewritten, shl_shr_seven]
  · simp [h.a1, shl_shr_seven]
  · simp [h.a0, h.a1, rewritten]
  · simp [h.t2]
  · simp [h.t4]
  · constructor <;> simp

theorem typeE_resumes (h : Handling here i line c)
    (hsize : digit 6 line.addr = 0 ∨ digit 6 line.addr = 1)
    (hok : CondOk (address line.val) (convert line).val) :
    codeHandler.Leads p ⟨c, codeHandler.start .typeE⟩
      (Resumes c i (doIf (address line.val) (convert line).val
        ((c.mem.store 4 here (convert line).addr).store 4 (here + 4) (convert line).val))) := by
  obtain ⟨⟨d, pc⟩, hup, hd⟩ := typeE_comes (p := p) h
  obtain ⟨rfl, hmem, ha0, ha1, -, ht4, hkeeps⟩ := hd
  rw [rewritten_eq_convert hsize] at hmem ha1
  rw [← hmem]
  exact hup.leads (leads_resumed_of_keeps hkeeps (typeD_resumes ha0 ha1 ht4 hok))

end

end Ps2rd.Engine
