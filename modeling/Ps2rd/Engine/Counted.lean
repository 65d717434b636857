import Ps2rd.Engine.Handlers
import Ps2rd.Mips.Trace

/-!
# How often the counted codes write

Serial writes and byte copies are loops that test their counter at the end, as a
signed number.  They write once before the counter is looked at, so that a count
of 0 still writes, and a copy of more than 2³¹ bytes finds the counter negative
and ends after its first byte.  For every other count the handlers make the
documented stores, one after the other and no more.
-/

namespace Ps2rd.Engine

open Mips

/-- The handler has come to `next`, from where the main loop goes on. -/
def AtNext (s : State Label Sym) : Prop := s.pc = codeHandler.start .next

theorem not_atNext {c : Core} {l : Label} {rest : List (Instr Label Sym)}
    (h : l ≠ .next := by decide) : ¬ AtNext ⟨c, .block l rest⟩ := by
  intro heq
  exact h (Loc.block.inj heq).1

/-! ### What the documentation asks for -/

/-- The words of a serial write. -/
def serialWrites (a v step inc : Word) (n : ℕ) : List Write :=
  (List.range n).map fun k =>
    ⟨a + BitVec.ofNat 32 k * step, 4, v + BitVec.ofNat 32 k * inc⟩

/-- The handler of type 4 writes the documented words, and nothing else. -/
def WritesSerially (p : Layout Label Sym) (line second : Line) (c : Core) : Prop :=
  codeHandler.Traces p AtNext ⟨c, codeHandler.start .type4⟩
    (serialWrites (address line.addr) second.addr (serialStep line) second.val
      (serialCount line)) AtNext

/-- The destination does not meet the source, or starts below it. -/
def DisjointOrBelow (s d : Word) (n : ℕ) : Prop :=
  (∀ b, InRange s n b → ¬ InRange d n b) ∨ d.toNat ≤ s.toNat

/-- The memory `m'` is `m` with `n` bytes copied. -/
structure Copied (m : Mem) (s d : Word) (n : ℕ) (m' : Mem) : Prop where
  bytes : ∀ k < n, m' (d + BitVec.ofNat 32 k) = m (s + BitVec.ofNat 32 k)
  others : ∀ b, ¬ InRange d n b → m' b = m b

/-- The handler of type 5 stores to each of the `n` destination bytes in turn and to
nothing else, which copies the source. -/
def CopiesBytes (p : Layout Label Sym) (line second : Line) (c : Core) : Prop :=
  ∃ writes, writes.map (fun w : Write => (w.addr, w.size)) =
      (List.range line.val.toNat).map (fun k => (second.addr + BitVec.ofNat 32 k, 1)) ∧
    codeHandler.Traces p AtNext ⟨c, codeHandler.start .type5⟩ writes fun t =>
      AtNext t ∧ (DisjointOrBelow (address line.addr) second.addr line.val.toNat →
        Copied c.mem (address line.addr) second.addr line.val.toNat t.core.mem)

/-! ### The counters -/

/-- A counter of 0, or one that is negative after it was decremented, ends the loop. -/
theorem toInt_dec_pos_iff (w : Word) : 0 < (w - 1).toInt ↔ 2 ≤ w.toNat ∧ w.toNat ≤ 2 ^ 31 := by
  have hlt := w.isLt
  have hone : (1 : Word).toNat = 1 := rfl
  rw [BitVec.toInt_eq_toNat_cond, BitVec.toNat_sub, hone]
  split_ifs <;> omega

/-- The decrement is an `addiu` of -1. -/
theorem add_ones (w : Word) : w + 4294967295#32 = w - 1 := by
  rw [BitVec.sub_eq_add_neg]
  rfl

theorem ofNat_succ_sub_one (n : ℕ) : BitVec.ofNat 32 (n + 1) - 1 = BitVec.ofNat 32 n := by
  rw [BitVec.ofNat_add]
  exact BitVec.add_sub_cancel _ _

section

variable {p : Layout Label Sym} {here : Word} {i : ℕ} {line second : Line} {c : Core}

/-! ### Serial write -/

/-- The registers in the loop of `type_4`. -/
structure Serial (a v step inc w : Word) (c : Core) : Prop where
  a0 : c.get .a0 = sx a
  a1 : c.get .a1 = sx step
  a2 : c.get .a2 = sx v
  a3 : c.get .a3 = sx inc
  t5 : c.get .t5 = sx w

theorem type4_enters (h : Handling here i line c) (hsecond : SecondAt here second c.mem) :
    codeHandler.Traces p AtNext ⟨c, codeHandler.start .type4⟩ [] fun t =>
      t.pc = codeHandler.start .type4L1 ∧
        Serial (address line.addr) second.addr (serialStep line) second.val
          (BitVec.ofNat 32 (serialCount line)) t.core := by
  refine .op not_atNext rfl
    (Op.exec_lw (a := here + 8) ?_ (h.aligned.add (by decide))) ?_
  · simp [Core.addr, h.t2]
  refine .op not_atNext rfl
    (Op.exec_lw (a := here + 12) ?_ (h.aligned.add (by decide))) ?_
  · simp [Core.addr, h.t2]
  refine .op not_atNext rfl rfl (.op not_atNext rfl rfl (.op not_atNext rfl rfl
    (.fall not_atNext rfl (.here ⟨rfl, ?_⟩))))
  constructor
  · simp [h.a0]
  · simpa [h.a1] using serialStep_eq line
  · simpa using hsecond.addr
  · simpa using hsecond.val
  · rw [serialCount, BitVec.ofNat_toNat, ← shr_16]
    simp [h.a1]

/-- One round: a word is written before the counter is tested. -/
theorem type4L1_round {a v step inc w : Word} (h : Serial a v step inc w c)
    (hal : Aligned 4 a) :
    codeHandler.Traces p AtNext ⟨c, codeHandler.start .type4L1⟩ [⟨a, 4, v⟩] fun t =>
      t.pc = (if 0 < (w - 1).toInt then codeHandler.start .type4L1 else codeHandler.start .next) ∧
        Serial (a + step) (v + inc) step inc (w - 1) t.core := by
  have ha : c.addr 0 .a0 = a := by simp [Core.addr, h.a0]
  have hwrite : (Op.sw .a2 0 .a0 : Op Sym).write c = some ⟨a, 4, v⟩ := by
    rw [Op.write, ha, h.a2]
    exact congrArg (fun x => some (Write.mk a 4 x)) (lo_sx v)
  refine .op not_atNext rfl rfl (.op not_atNext rfl rfl
    (.store not_atNext hwrite (Op.exec_sw ha hal) (.op not_atNext rfl rfl
    (.op not_atNext rfl rfl (.branch not_atNext rfl rfl ?_)))))
  split_ifs with htest hpos hpos
  · exact .here ⟨rfl, by constructor <;> simp [h.a0, h.a1, h.a2, h.a3, h.t5, add_ones]⟩
  · exact absurd (by simpa [Test.holds, bgtz, h.t5, add_ones] using htest) hpos
  · exact absurd (by simpa [Test.holds, bgtz, h.t5, add_ones] using hpos) htest
  · exact .b not_atNext rfl rfl
      (.here ⟨rfl, by constructor <;> simp [h.a0, h.a1, h.a2, h.a3, h.t5, add_ones]⟩)

theorem serialWrites_succ (a v step inc : Word) (n : ℕ) :
    serialWrites a v step inc (n + 1) =
      ⟨a, 4, v⟩ :: serialWrites (a + step) (v + inc) step inc n := by
  unfold serialWrites
  rw [List.range_succ_eq_map, List.map_cons, List.map_map]
  congr 1
  · simp
  · apply List.map_congr_left
    intro k _
    have hstep : ∀ x y : Word, x + BitVec.ofNat 32 (k + 1) * y = x + y + BitVec.ofNat 32 k * y := by
      intro x y
      rw [BitVec.ofNat_add, BitVec.add_mul, BitVec.one_mul, BitVec.add_comm _ y,
        BitVec.add_assoc]
    simp only [Function.comp_apply, Nat.succ_eq_add_one, hstep]

/-- The loop, entered with `n + 1` words still to write. -/
theorem type4L1_traces {n : ℕ} (hn : n < 2 ^ 16) {a v step inc : Word}
    (h : Serial a v step inc (BitVec.ofNat 32 (n + 1)) c) (hal : Aligned 4 a)
    (hstep : Aligned 4 step) :
    codeHandler.Traces p AtNext ⟨c, codeHandler.start .type4L1⟩
      (serialWrites a v step inc (n + 1)) AtNext := by
  induction n generalizing c a v with
  | zero =>
      have hwrites : serialWrites a v step inc (0 + 1) = [⟨a, 4, v⟩] ++ [] :=
        serialWrites_succ a v step inc 0
      rw [hwrites]
      refine (type4L1_round h hal).trans fun t ⟨hpc, _⟩ => .here ?_
      rwa [if_neg (by decide)] at hpc
  | succ n ih =>
      rw [serialWrites_succ]
      refine (type4L1_round h hal).trans fun t ⟨hpc, hserial⟩ => ?_
      rw [ofNat_succ_sub_one] at hpc hserial
      rw [if_pos ((toInt_ofNat_pos (by omega)).mpr n.succ_pos)] at hpc
      obtain ⟨d, pc⟩ := t
      subst hpc
      exact ih (by omega) hserial (hal.add hstep)

/-- A misaligned word raises an exception. -/
theorem type4L1_stuck {a v step inc w : Word} (h : Serial a v step inc w c)
    (hal : ¬ Aligned 4 a) :
    codeHandler.Traces p AtNext ⟨c, codeHandler.start .type4L1⟩ [] fun t =>
      ¬ AtNext t ∧ codeHandler.step p t = none := by
  have ha : c.addr 0 .a0 = a := by simp [Core.addr, h.a0]
  refine .op not_atNext rfl rfl (.op not_atNext rfl rfl (.here ⟨not_atNext, ?_⟩))
  have hexec : (Op.sw .a2 0 .a0 : Op Sym).exec p.sym c = none := by
    rw [Op.exec, ha]
    exact if_neg hal
  show Option.map _ ((Op.sw .a2 0 .a0 : Op Sym).exec p.sym c) = none
  rw [hexec, Option.map_none]

theorem writesSerially_iff (h : Handling here i line c) (hsecond : SecondAt here second c.mem) :
    WritesSerially p line second c ↔
      Aligned 4 (address line.addr) ∧ 1 ≤ serialCount line := by
  have hlt : serialCount line < 2 ^ 16 := (line.val.extractLsb' 16 16).isLt
  obtain ⟨⟨d, pc⟩, htraced, hpc, hserial⟩ := type4_enters (p := p) h hsecond
  subst hpc
  constructor
  · rintro ⟨u, hu, hnext⟩
    by_contra hcon
    by_cases hal : Aligned 4 (address line.addr)
    · -- the count is 0, and the word at the start address is written all the same
      have hzero : serialCount line = 0 := by
        by_contra hne
        exact hcon ⟨hal, Nat.one_le_iff_ne_zero.mpr hne⟩
      rw [hzero] at hserial hu
      obtain ⟨t, ht, hpc, -⟩ := type4L1_round (p := p) hserial hal
      rw [if_neg (by decide)] at hpc
      have hwrites := ((htraced.trans ht).unique hpc hu hnext).1
      simp [serialWrites] at hwrites
    · obtain ⟨t, ht, hns, hstuck⟩ := type4L1_stuck (p := p) hserial hal
      exact (htraced.trans ht).not_stop_of_stuck hns hstuck hu hnext
  · rintro ⟨hal, hpos⟩
    obtain ⟨n, hn⟩ := Nat.exists_eq_add_of_le' hpos
    rw [hn] at hserial
    obtain ⟨t, ht, hnext⟩ := type4L1_traces (p := p) (by omega) hserial hal
      (aligned_serialStep line)
    rw [← hn] at ht
    exact ⟨t, htraced.trans ht, hnext⟩

/-! ### Byte copies -/

/-- The registers in the loop of `type_5`. -/
structure Copying (s d w : Word) (c : Core) : Prop where
  a0 : c.get .a0 = sx s
  a1 : c.get .a1 = sx w
  a2 : c.get .a2 = sx d

/-- The stores of a copy in ascending order. -/
def copyWrites (m : Mem) (s d : Word) : ℕ → List Write
  | 0 => []
  | n + 1 => ⟨d, 1, m.load8 s⟩ :: copyWrites (m.store 1 d (m.load8 s)) (s + 1) (d + 1) n

theorem foldl_copyWrites (m : Mem) (s d : Word) (n : ℕ) :
    (copyWrites m s d n).foldl Write.apply m = copyBytes m s d n := by
  induction n generalizing m s d with
  | zero => rfl
  | succ n ih =>
      rw [copyWrites, List.foldl_cons, copyBytes]
      exact ih _ _ _

theorem add_ofNat_succ (a : Word) (k : ℕ) :
    a + BitVec.ofNat 32 (k + 1) = a + 1 + BitVec.ofNat 32 k := by
  rw [BitVec.ofNat_add, BitVec.add_comm (BitVec.ofNat 32 k), BitVec.add_assoc]
  rfl

theorem map_copyWrites (m : Mem) (s d : Word) (n : ℕ) :
    (copyWrites m s d n).map (fun w : Write => (w.addr, w.size)) =
      (List.range n).map fun k => (d + BitVec.ofNat 32 k, 1) := by
  induction n generalizing m s d with
  | zero => rfl
  | succ n ih =>
      rw [copyWrites, List.map_cons, ih, List.range_succ_eq_map, List.map_cons, List.map_map]
      congr 1
      · simp
      · apply List.map_congr_left
        intro k _
        rw [Function.comp_apply, Nat.succ_eq_add_one, add_ofNat_succ]

theorem type5_enters (h : Handling here i line c) (hsecond : SecondAt here second c.mem) :
    codeHandler.Traces p AtNext ⟨c, codeHandler.start .type5⟩ [] fun t =>
      t.pc = codeHandler.start .type5L1 ∧ t.core.mem = c.mem ∧
        Copying (address line.addr) second.addr line.val t.core := by
  refine .op not_atNext rfl (Op.exec_lw (a := here + 8) ?_ (h.aligned.add (by decide)))
    (.fall not_atNext rfl (.here ⟨rfl, rfl, ?_⟩))
  · simp [Core.addr, h.t2]
  constructor
  · simp [h.a0]
  · simp [h.a1]
  · simpa using hsecond.addr

/-- One round: a byte is copied before the counter is tested. -/
theorem type5L1_round {s d w : Word} (h : Copying s d w c) :
    codeHandler.Traces p AtNext ⟨c, codeHandler.start .type5L1⟩ [⟨d, 1, c.mem.load8 s⟩] fun t =>
      t.pc = (if 0 < (w - 1).toInt then codeHandler.start .type5L1 else codeHandler.start .next) ∧
        t.core.mem = c.mem.store 1 d (c.mem.load8 s) ∧
        Copying (s + 1) (d + 1) (w - 1) t.core := by
  have hs : c.addr 0 .a0 = s := by simp [Core.addr, h.a0]
  have hd : (c.set .t5 ((c.mem.load8 s).signExtend 64)).addr 0 .a2 = d := by
    simp [Core.addr, h.a2]
  have hwrite : (Op.sb .t5 0 .a2 : Op Sym).write (c.set .t5 ((c.mem.load8 s).signExtend 64)) =
      some ⟨d, 1, c.mem.load8 s⟩ := by
    rw [Op.write, hd]
    simp
    exact setWidth_signExtend _
  refine .op not_atNext rfl (Op.exec_lb hs) (.op not_atNext rfl rfl
    (.store not_atNext hwrite (Op.exec_sb hd) (.op not_atNext rfl rfl
    (.op not_atNext rfl rfl (.branch not_atNext rfl rfl ?_)))))
  split_ifs with htest hpos hpos
  · refine .here ⟨rfl, ?_, by constructor <;> simp [h.a0, h.a1, h.a2, add_ones]⟩
    simp [store_signExtend]
  · exact absurd (by simpa [Test.holds, bgtz, h.a1, add_ones] using htest) hpos
  · exact absurd (by simpa [Test.holds, bgtz, h.a1, add_ones] using hpos) htest
  · refine .b not_atNext rfl rfl
      (.here ⟨rfl, ?_, by constructor <;> simp [h.a0, h.a1, h.a2, add_ones]⟩)
    simp [store_signExtend]

/-- The loop, entered with `n + 1` bytes still to copy. -/
theorem type5L1_traces {n : ℕ} (hn : n < 2 ^ 31) {s d : Word}
    (h : Copying s d (BitVec.ofNat 32 (n + 1)) c) :
    codeHandler.Traces p AtNext ⟨c, codeHandler.start .type5L1⟩ (copyWrites c.mem s d (n + 1))
      AtNext := by
  induction n generalizing c s d with
  | zero =>
      refine (type5L1_round h).trans fun t ⟨hpc, _⟩ => .here ?_
      rwa [if_neg (by decide)] at hpc
  | succ n ih =>
      rw [copyWrites]
      refine (type5L1_round h).trans fun t ⟨hpc, hmem, hcopying⟩ => ?_
      rw [ofNat_succ_sub_one] at hpc hcopying
      rw [if_pos ((toInt_ofNat_pos (by omega)).mpr n.succ_pos)] at hpc
      obtain ⟨d, pc⟩ := t
      subst hpc
      rw [← hmem]
      exact ih (by omega) hcopying

theorem inRange_succ_iff {d b : Word} {n : ℕ} (hn : n < 2 ^ 32) :
    InRange d (n + 1) b ↔ b = d ∨ InRange (d + 1) n b := by
  have hb := b.isLt
  have hd := d.isLt
  have hone : (1 : Word).toNat = 1 := rfl
  unfold InRange
  rw [← BitVec.toNat_inj, BitVec.toNat_sub, BitVec.toNat_sub, BitVec.toNat_add, hone]
  omega

theorem not_inRange_add_one {d : Word} {n : ℕ} (hn : n < 2 ^ 32) : ¬ InRange (d + 1) n d := by
  have hd := d.isLt
  have hone : (1 : Word).toNat = 1 := rfl
  unfold InRange
  rw [BitVec.toNat_sub, BitVec.toNat_add, hone]
  omega

theorem store_one_self (m : Mem) (d : Word) (v : Byte) : m.store 1 d v d = v := by
  simp [Mem.store, InRange]

theorem store_one_of_ne {m : Mem} {d b : Word} (v : Byte) (hne : b ≠ d) :
    m.store 1 d v b = m b := by
  refine Mem.store_of_not_inRange fun hb => hne ?_
  rcases (inRange_succ_iff (by decide)).mp hb with heq | hout
  · exact heq
  · exact absurd hout (Nat.not_lt_zero _)

/-- No byte of the source is overwritten before it was read. -/
theorem copied_copyBytes {m : Mem} {s d : Word} {n : ℕ} (hn : n ≤ 2 ^ 32)
    (hfresh : ∀ j k, j < k → k < n → d + BitVec.ofNat 32 j ≠ s + BitVec.ofNat 32 k) :
    Copied m s d n (copyBytes m s d n) := by
  induction n generalizing m s d with
  | zero => exact ⟨fun k hk => absurd hk (Nat.not_lt_zero k), fun _ _ => rfl⟩
  | succ n ih =>
      have hrest : Copied (m.store 1 d (m.load8 s)) (s + 1) (d + 1) n
          (copyBytes m s d (n + 1)) := by
        refine ih (by omega) fun j k hjk hk => ?_
        have hne := hfresh (j + 1) (k + 1) (by omega) (by omega)
        rwa [add_ofNat_succ, add_ofNat_succ] at hne
      refine ⟨fun k hk => ?_, fun b hb => ?_⟩
      · cases k with
        | zero =>
            have hfirst := hrest.others d (not_inRange_add_one (by omega))
            rw [store_one_self] at hfirst
            simpa [Mem.load8] using hfirst
        | succ k =>
            have hne := hfresh 0 (k + 1) k.succ_pos hk
            rw [BitVec.add_zero] at hne
            rw [add_ofNat_succ d, hrest.bytes k (by omega), ← add_ofNat_succ]
            exact store_one_of_ne _ hne.symm
      · rw [inRange_succ_iff (by omega), not_or] at hb
        rw [hrest.others b hb.2]
        exact store_one_of_ne _ hb.1

theorem DisjointOrBelow.fresh {s d : Word} {n : ℕ} (h : DisjointOrBelow s d n)
    (hs : s.toNat < 2 ^ 25) (hn : n ≤ 2 ^ 31) {j k : ℕ} (hjk : j < k) (hk : k < n) :
    d + BitVec.ofNat 32 j ≠ s + BitVec.ofNat 32 k := by
  intro heq
  rcases h with hdisjoint | hle
  · apply hdisjoint (s + BitVec.ofNat 32 k)
    · exact InRange.add_self s hk (by omega)
    · rw [← heq]
      exact InRange.add_self d (by omega) (by omega)
  · have hnat := congrArg BitVec.toNat heq
    rw [BitVec.toNat_add, BitVec.toNat_add, BitVec.toNat_ofNat, BitVec.toNat_ofNat] at hnat
    omega

theorem toNat_address_lt (w : Word) : (address w).toNat < 2 ^ 25 := by
  have hmask : (address w).toNat = w.toNat % 2 ^ 25 := toNat_and_ones w (k := 25) (by decide)
  rw [hmask]
  exact Nat.mod_lt _ (by decide)

theorem copiesBytes_iff (h : Handling here i line c) (hsecond : SecondAt here second c.mem) :
    CopiesBytes p line second c ↔ 1 ≤ line.val.toNat ∧ line.val.toNat ≤ 2 ^ 31 := by
  obtain ⟨⟨c', pc⟩, htraced, hpc, hmem, hcopying⟩ := type5_enters (p := p) h hsecond
  subst hpc
  constructor
  · rintro ⟨writes, hwrites, u, hu, hnext, -⟩
    by_contra hcon
    -- the counter is not positive after the first byte
    obtain ⟨t, ht, hpc, -, -⟩ := type5L1_round (p := p) hcopying
    rw [if_neg (by rw [toInt_dec_pos_iff]; omega)] at hpc
    obtain ⟨rfl, -⟩ := (htraced.trans ht).unique hpc hu hnext
    have hlength := congrArg List.length hwrites
    simp at hlength
    omega
  · rintro ⟨hpos, hle⟩
    obtain ⟨n, hn⟩ := Nat.exists_eq_add_of_le' hpos
    have hval : line.val = BitVec.ofNat 32 (n + 1) := by
      rw [← hn, BitVec.ofNat_toNat, BitVec.setWidth_eq]
    rw [hval] at hcopying
    obtain ⟨t, ht, hnext⟩ := type5L1_traces (p := p) (by omega) hcopying
    have hall := htraced.trans ht
    rw [← hn, hmem, List.nil_append] at hall
    refine ⟨_, map_copyWrites _ _ _ _, t, hall, hnext, fun horder => ?_⟩
    rw [hall.mem, foldl_copyWrites]
    exact copied_copyBytes (by omega) fun j k => horder.fresh (toNat_address_lt _) hle

/-- The counted codes make exactly the documented stores when the count is not 0, and for
copies not more than 2³¹; the words of a serial write have to be aligned. -/
theorem countedExactly_iff (p : Layout Label Sym) (here : Word) (i : ℕ) (line second : Line)
    (c : Core) (h : Handling here i line c) (hsecond : SecondAt here second c.mem) :
    (WritesSerially p line second c ↔
      Aligned 4 (address line.addr) ∧ 1 ≤ serialCount line) ∧
    (CopiesBytes p line second c ↔ 1 ≤ line.val.toNat ∧ line.val.toNat ≤ 2 ^ 31) :=
  ⟨writesSerially_iff h hsecond, copiesBytes_iff h hsecond⟩

end

/-- The engine as a handler finds it, with a two-line code at address `0x1000`. -/
def codeEntry (line second : Line) : Core where
  regs
    | .a0 => sx (address line.addr)
    | .a1 => sx line.val
    | .t2 => sx 0x1000
    | _ => 0
  mem := Mem.store 4 (Mem.store 4 (fun _ => 0) 0x1008 second.addr) 0x100c second.val

theorem handling_codeEntry (line second : Line) :
    Handling 0x1000 0 line (codeEntry line second) where
  a0 := rfl
  a1 := rfl
  t2 := rfl
  t4 := show (0 : BitVec 64) = sx 0 by decide
  aligned := by decide

theorem secondAt_codeEntry (line second : Line) :
    SecondAt 0x1000 second (codeEntry line second).mem := by
  have haddr : (0x1000 + 8 : Word) = 0x1008 := by decide
  have hval : (0x1000 + 12 : Word) = 0x100c := by decide
  constructor
  · rw [haddr, codeEntry, Mem.load32_store_of_ne (by decide) (by decide) (by decide),
      Mem.load32_store_self]
  · rw [hval, codeEntry, Mem.load32_store_self]

/-- The codes of the engine's own tests: four words with a step of two, and 16 bytes. -/
theorem countedExactly_iff_tested :
    WritesSerially ⟨fun _ => 0, fun _ => 0⟩ ⟨0x40400400, 0x00040002⟩ ⟨0x80000000, 0x00100000⟩
      (codeEntry ⟨0x40400400, 0x00040002⟩ ⟨0x80000000, 0x00100000⟩) ∧
    CopiesBytes ⟨fun _ => 0, fun _ => 0⟩ ⟨0x50400400, 16⟩ ⟨0x00400500, 0⟩
      (codeEntry ⟨0x50400400, 16⟩ ⟨0x00400500, 0⟩) :=
  ⟨(countedExactly_iff _ _ _ _ _ _ (handling_codeEntry _ _) (secondAt_codeEntry _ _)).1.mpr
      (by decide),
    (countedExactly_iff _ _ _ _ _ _ (handling_codeEntry _ _) (secondAt_codeEntry _ _)).2.mpr
      (by decide)⟩

/-- A serial write of no words and a copy of no bytes both write. -/
theorem not_countedExactly_zero :
    ¬ WritesSerially ⟨fun _ => 0, fun _ => 0⟩ ⟨0x40400400, 0x00000002⟩ ⟨0x80000000, 0x00100000⟩
      (codeEntry ⟨0x40400400, 0x00000002⟩ ⟨0x80000000, 0x00100000⟩) ∧
    ¬ CopiesBytes ⟨fun _ => 0, fun _ => 0⟩ ⟨0x50400400, 0⟩ ⟨0x00400500, 0⟩
      (codeEntry ⟨0x50400400, 0⟩ ⟨0x00400500, 0⟩) :=
  ⟨mt (writesSerially_iff (handling_codeEntry _ _) (secondAt_codeEntry _ _)).mp (by decide),
    mt (copiesBytes_iff (handling_codeEntry _ _) (secondAt_codeEntry _ _)).mp (by decide)⟩

end Ps2rd.Engine
