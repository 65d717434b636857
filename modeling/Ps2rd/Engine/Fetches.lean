import Ps2rd.Engine.Refinement
import Ps2rd.Loader.CheatMan

/-!
# The lines that CodeHandler reads

`CodeHandler` reads the code list through `$t2`, which `ch_loop` sets to the
address of line `$t4`.  `next` compares `$t4` with the number of codes, but the
handlers of the two-line codes, that is types 4, 5 and 6 and the 32-bit type 3,
read the line after it without a check.

`fetchesAdded_iff` says when all lines that are read have been added to the list:
when a two-line code that is executed is not the last line.  The loader does not
see to that.
-/

namespace Ps2rd.Engine

open Mips Loader

/-- The states of a call of `CodeHandler`. -/
def Placement.During (p : Placement) (c : Core) : State Label Sym → Prop :=
  codeHandler.Upto p.toLayout AtReturn ⟨c, codeHandler.start .codeHandler⟩

/-- The instruction loads through `$t2`. -/
def fetches (o : Op Sym) : Bool := o.loadAt.any fun x => x.2.2 = .t2

/-- The bytes of the code list that the next step reads. -/
def fetched (p : Placement) (s : State Label Sym) : Option Access :=
  (s.executes.filter fetches).bind (Op.loads p.sym s.core)

/-- The address is that of one of the first `n` lines. -/
def Placement.IsLine (p : Placement) (n : ℕ) (a : Word) : Prop := ∃ i < n, a = p.lineAt i

/-- The bytes belong to one of the first `n` lines. -/
def Placement.InLines (p : Placement) (n : ℕ) (x : Access) : Prop :=
  ∃ i < n, ∀ b, x.Touches b → InRange (p.lineAt i) 8 b

/-- Whatever the next step reads of the code list belongs to the first `n` lines. -/
def ReadsAdded (p : Placement) (n : ℕ) (s : State Label Sym) : Prop :=
  ∀ x ∈ fetched p s, p.InLines n x

/-- `CodeHandler` reads no line that has not been added. -/
def FetchesAdded (p : Placement) (n : ℕ) (c : Core) : Prop :=
  ∀ s, p.During c s → ReadsAdded p n s

/-- The lines of the engine's code list. -/
def Lists.codes (engine : Lists) : List Line :=
  (List.range engine.numcodes).map fun i =>
    ⟨engine.codelist (i * 2), engine.codelist (i * 2 + 1)⟩

/-- The lines that are in it after `reset_cheats` and `activate_cheats`. -/
def added (game : Cheats.Game) (engine : Lists) : List Line :=
  (activateCheats game (resetCheats engine)).codes

/-- The address of line `$t4`. -/
def Placement.current (p : Placement) (c : Core) : Word := p.sym .codelist + lo (c.get .t4) <<< 3

def lineIn (m : Mem) (a : Word) : Line := ⟨m.load32 a, m.load32 (a + 4)⟩

/-- The word of `type_tab` that `ch_loop` jumps to for a line. -/
def Placement.handlerIn (p : Placement) (m : Mem) (line : Line) : Word :=
  m.load32 (p.sym .typeTab + line.addr >>> 28 <<< 2)

/-- The code at `a` reads the line after the one that it is called for.  Types 3
and 6 first load the word that they change or the pointer, which must not fail. -/
def Placement.ReadsSecondAt (p : Placement) (a : Word) (line : Line) : Prop :=
  a = p.entry .type4 ∨ a = p.entry .type5 ∨
    a = p.entry .type6 ∧ Aligned 4 (address line.addr) ∨
    a = p.entry .type3 ∧ digit 5 line.addr &&& 6 = 4 ∧ Aligned 4 (address line.val)

/-- The handler of the line reads the line after it. -/
def Placement.ReadsSecond (p : Placement) (m : Mem) (line : Line) : Prop :=
  line.addr ≠ 0 ∧ p.ReadsSecondAt (p.handlerIn m line) line

/-- What the lines read in a round of the main loop depend on, at its start.  The
first part is about a call that has been started over with another number of
codes, after a code has overwritten `numcodes` and `type_tab`. -/
structure RoundOk (p : Placement) (n : ℕ) (c : Core) : Prop where
  line : c.get .t3 ≠ sx (BitVec.ofNat 32 n) → p.IsLine n (p.current c)
  second : p.ReadsSecond c.mem (lineIn c.mem (p.current c)) → p.IsLine n (p.current c + 8)

/-- No code overwrites the number of codes. -/
def NumcodesKept (p : Placement) (c : Core) : Prop :=
  ∀ s, p.During c s → ∀ o ∈ s.executes, ∀ x ∈ o.stores s.core, ∀ b, x.Touches b →
    ¬ InRange (p.sym .numcodes) 4 b

/-! ### Lines and their bytes -/

section Bytes

variable {p : Placement} {n : ℕ} {a : Word}

theorem Placement.dvd_current_sub (p : Placement) (c : Core) :
    8 ∣ (p.current c - p.sym .codelist).toNat := by
  rw [current, BitVec.add_comm, BitVec.add_sub_cancel, BitVec.toNat_shiftLeft, Nat.shiftLeft_eq]
  omega

theorem eq_of_inRange_line {i k : ℕ} (ha : 8 ∣ (a - p.sym .codelist).toNat) (hk : k < 8)
    (h : InRange (p.lineAt i) 8 (a + BitVec.ofNat 32 k)) : a = p.lineAt i := by
  apply BitVec.eq_of_toNat_eq
  have halt := a.isLt
  have hlt := (p.sym .codelist).isLt
  unfold InRange Placement.lineAt at *
  simp only [BitVec.toNat_sub, BitVec.toNat_add, BitVec.toNat_ofNat] at *
  omega

theorem Placement.inLines_iff {k size : ℕ} (ha : 8 ∣ (a - p.sym .codelist).toNat)
    (hsize : 0 < size) (hk : k + size ≤ 8) :
    p.InLines n ⟨a + BitVec.ofNat 32 k, size⟩ ↔ p.IsLine n a := by
  constructor
  · rintro ⟨i, hi, h⟩
    have hfirst : InRange (a + BitVec.ofNat 32 k) size (a + BitVec.ofNat 32 k) := by
      simpa [InRange] using hsize
    exact ⟨i, hi, eq_of_inRange_line ha (by omega) (h _ hfirst)⟩
  · rintro ⟨i, hi, rfl⟩
    exact ⟨i, hi, fun b hb => (InRange.of_add (n := size) hb (by omega)).mono hk⟩

theorem dvd_add_eight (h : 8 ∣ (a - p.sym .codelist).toNat) :
    8 ∣ (a + 8 - p.sym .codelist).toNat := by
  have ha := a.isLt
  have hlt := (p.sym .codelist).isLt
  have height : (8 : Word).toNat = 8 := rfl
  simp only [BitVec.toNat_sub, BitVec.toNat_add] at *
  omega

end Bytes

/-! ### Code that reads no line -/

/-- The labels whose code does not read the list and does not lead to `ch_loop`
but through `next`. -/
def quietLabels : List Label :=
  [.type0, .type1, .type2, .type3L1, .type3L2, .type4L1, .type5L1, .type6L1, .type7, .type7L1,
    .type7L2, .typeC, .typeD, .typeDL1, .typeDL2, .typeDL3, .typeDL4, .typeDL5, .typeE]

/-- Instructions that do not read the list and keep `$t0`, `$t1` and `$t3`. -/
def quietOp (o : Op Sym) : Bool :=
  !fetches o && o.dest ≠ some .t0 && o.dest ≠ some .t1 && o.dest ≠ some .t3

def quietCode : Analysis Label Sym Unit where
  transfer _ o := if quietOp o then some () else none
  test _ _ := true
  target _ l := l ∈ quietLabels ∨ l = .next ∨ l = .chRet

theorem checks_quiet {l : Label} (h : l ∈ quietLabels) :
    codeHandler.checks quietCode l () (code l) = true := by
  revert l
  decide

section Cuts

variable {p : Placement} {n : ℕ} {T : BitVec 64 → Prop} {c : Core} {l : Label}
  {rest : List (Instr Label Sym)}

theorem readsAdded_of_not_fetches {s : State Label Sym}
    (h : ∀ o ∈ s.executes, fetches o = false) : ReadsAdded p n s := by
  intro x hx
  obtain ⟨o, ho, -⟩ := Option.bind_eq_some_iff.mp hx
  obtain ⟨ho, hfetches⟩ := Option.filter_eq_some_iff.mp ho
  rw [h o ho] at hfetches
  cases hfetches

/-- `$t0` and `$t1` as the main loop uses them; `T` is what is known of `$t3`. -/
structure LoopRegs (p : Placement) (T : BitVec 64 → Prop) (c : Core) : Prop where
  t0 : c.get .t0 = sx (p.sym .codelist)
  t1 : c.get .t1 = sx (p.sym .typeTab)
  t3 : T (c.get .t3)

theorem LoopRegs.congr {d : Core} (h : LoopRegs p T c)
    (hregs : ∀ r ∈ [Reg.t0, .t1, .t3], d.get r = c.get r) : LoopRegs p T d := by
  refine ⟨?_, ?_, ?_⟩
  · rw [hregs .t0 (by decide), h.t0]
  · rw [hregs .t1 (by decide), h.t1]
  · rw [hregs .t3 (by decide)]
    exact h.t3

/-- Other registers do not matter. -/
@[simp]
theorem loopRegs_set_iff {r : Reg} {v : BitVec 64} (hr : r ∉ [Reg.t0, .t1, .t3]) :
    LoopRegs p T (c.set r v) ↔ LoopRegs p T c := by
  have hget : ∀ r' ∈ [Reg.t0, .t1, .t3], (c.set r v).get r' = c.get r' := by
    intro r' hr'
    apply Core.get_set_of_ne c v
    rintro rfl
    exact hr hr'
  exact ⟨fun h => h.congr fun r' hr' => (hget r' hr').symm, fun h => h.congr hget⟩

theorem dest_ne_of_quietOp {o : Op Sym} (h : quietOp o = true) {r : Reg}
    (hr : r ∈ [Reg.t0, .t1, .t3]) : o.dest ≠ some r := by
  simp only [quietOp, Bool.and_eq_true, decide_eq_true_eq] at h
  obtain ⟨⟨⟨-, h0⟩, h1⟩, h3⟩ := h
  simp only [List.mem_cons, List.not_mem_nil, or_false] at hr
  rcases hr with rfl | rfl | rfl
  · exact h0
  · exact h1
  · exact h3

theorem LoopRegs.of_exec {d : Core} {o : Op Sym} (h : LoopRegs p T c)
    (hquiet : quietOp o = true) (hexec : o.exec p.sym c = some d) : LoopRegs p T d :=
  h.congr fun _ hr => Op.exec_get hexec (dest_ne_of_quietOp hquiet hr)

/-- The next step reads no other line, and the main loop is entered as it should. -/
structure Fine (p : Placement) (n : ℕ) (T : BitVec 64 → Prop) (s : State Label Sym) : Prop where
  reads : ReadsAdded p n s
  head : s.pc = codeHandler.start .chLoop →
    LoopRegs p T s.core ∧ s.core.get .t4 < s.core.get .t3

/-- A round starts at the first instruction of `ch_loop`. -/
def startsRound (l : Label) (rest : List (Instr Label Sym)) : Bool :=
  l = .chLoop && rest.length = 13

theorem ReadsAdded.fine (h : ReadsAdded p n ⟨c, .block l rest⟩)
    (hstarts : startsRound l rest = false) : Fine p n T ⟨c, .block l rest⟩ := by
  refine ⟨h, fun heq => ?_⟩
  obtain ⟨rfl, rfl⟩ := Loc.block.inj heq
  cases hstarts

/-- The states from one of which to the next the call is followed. -/
inductive Cut (p : Placement) (T : BitVec 64 → Prop) : State Label Sym → Prop
  | out (c : Core) (a : Word) : Cut p T ⟨c, .out a⟩
  | entry (c : Core) : Cut p T ⟨c, codeHandler.start .codeHandler⟩
  | ret (c : Core) : Cut p T ⟨c, codeHandler.start .chRet⟩
  | head {c : Core} (h : LoopRegs p T c) (ht4 : c.get .t4 < c.get .t3) :
      Cut p T ⟨c, codeHandler.start .chLoop⟩
  | next {c : Core} (h : LoopRegs p T c) : Cut p T ⟨c, codeHandler.start .next⟩
  | quiet {c : Core} {l : Label} {rest : List (Instr Label Sym)} (h : LoopRegs p T c)
      (hquiet : codeHandler.checks quietCode l () rest = true) : Cut p T ⟨c, .block l rest⟩

/-- A label that needs no more than the registers of the loop. -/
theorem Cut.target (h : LoopRegs p T c) (hl : quietCode.target () l = true) :
    Cut p T ⟨c, codeHandler.start l⟩ := by
  rcases of_decide_eq_true hl with hl | rfl | rfl
  · exact .quiet h (checks_quiet hl)
  · exact .next h
  · exact .ret c

/-- Quiet code reads no line and goes on to quiet code. -/
theorem Cut.of_quiet (h : LoopRegs p T c) (hquiet : codeHandler.checks quietCode l () rest = true) :
    Fine p n T ⟨c, .block l rest⟩ ∧
      ∀ t, codeHandler.step p.toLayout ⟨c, .block l rest⟩ = some t → Cut p T t := by
  obtain ⟨⟨⟩, hpasses, hsuffices⟩ := codeHandler.checks_passes p.toLayout hquiet c
  have hops : ∀ o ∈ State.executes ⟨c, .block l rest⟩, quietOp o = true := by
    intro o ho
    unfold Analysis.Passes at hpasses
    rw [ho] at hpasses
    simpa [quietCode] using hpasses
  refine ⟨⟨readsAdded_of_not_fetches fun o ho => ?_, fun heq => ?_⟩, fun t hstep => ?_⟩
  · simp only [quietOp, Bool.and_eq_true, Bool.not_eq_true'] at hops
    exact (hops o ho).1.1.1
  · obtain ⟨rfl, rfl⟩ := Loc.block.inj heq
    exact absurd hquiet (by decide)
  have hregs : LoopRegs p T t.core := h.congr fun r hr =>
    Program.step_get hstep fun o ho => dest_ne_of_quietOp (hops o ho) hr
  obtain ⟨d, pc⟩ := t
  obtain ⟨hgoes, -⟩ := Program.step_eq_some_iff.mp hstep
  rcases hsuffices pc hgoes with ⟨l', rest', rfl, hrest⟩ | ⟨l', rfl, hl'⟩
  · exact .quiet hregs hrest
  · exact .target hregs hl'

theorem readsAdded_iff {s : State Label Sym} {o : Op Sym} {off : BitVec 16} {a : Word}
    {k size : ℕ} (ho : s.executes = some o) (hat : o.loadAt = some (size, off, .t2))
    (haddr : s.core.addr off .t2 = a + BitVec.ofNat 32 k)
    (ha : 8 ∣ (a - p.sym .codelist).toNat) (hsize : 0 < size) (hk : k + size ≤ 8) :
    ReadsAdded p n s ↔ p.IsLine n a := by
  have hfetched : fetched p s = some ⟨a + BitVec.ofNat 32 k, size⟩ := by
    rw [fetched, ho, Option.filter_some_pos (by simp [fetches, hat]), Option.bind_some,
      Op.loads_of_loadAt _ _ hat, haddr]
  rw [ReadsAdded, hfetched, ← p.inLines_iff ha hsize hk]
  simp

/-- Code at which no line is read, no round starts and the call does not end. -/
def plain (l : Label) (rest : List (Instr Label Sym)) : Bool :=
  l ≠ .chRet && !startsRound l rest &&
    match rest with
    | .op o :: _ => !fetches o
    | .branch _ _ _ :: .op slot :: _ => !fetches slot
    | rest => rest.isEmpty

theorem not_fetches_of_plain (h : plain l rest = true) :
    ∀ o ∈ State.executes ⟨c, .block l rest⟩, fetches o = false := by
  intro o ho
  simp only [plain, Bool.and_eq_true] at h
  obtain ⟨-, h⟩ := h
  unfold State.executes at ho
  split at ho <;> simp_all

theorem fine_of_plain (h : plain l rest = true) : Fine p n T ⟨c, .block l rest⟩ := by
  refine ReadsAdded.fine (readsAdded_of_not_fetches (not_fetches_of_plain h)) ?_
  simp only [plain, Bool.and_eq_true, Bool.not_eq_true'] at h
  exact h.1.2

theorem not_atReturn_of_plain (h : plain l rest = true) : ¬ AtReturn ⟨c, .block l rest⟩ := by
  simp only [plain, Bool.and_eq_true, decide_eq_true_eq] at h
  exact not_atReturn h.1.1

/-- The rest of a round is followed to the next cut. -/
abbrev RoundThrough (p : Placement) (n : ℕ) (T : BitVec 64 → Prop) : State Label Sym → Prop :=
  codeHandler.Through p.toLayout (Fine p n T) (Cut p T)

abbrev RoundHinges (p : Placement) (n : ℕ) (T : BitVec 64 → Prop) :
    State Label Sym → Prop → Prop :=
  codeHandler.Hinges p.toLayout AtReturn (Fine p n T) (ReadsAdded p n) (Cut p T)

theorem through_op {c' : Core} {o : Op Sym} (hplain : plain l (.op o :: rest) = true)
    (ho : o.exec p.sym c = some c') (h : RoundThrough p n T ⟨c', .block l rest⟩) :
    RoundThrough p n T ⟨c, .block l (.op o :: rest)⟩ :=
  .of_step (fine_of_plain hplain) (Program.step_op ho) h

/-- An instruction that may fail ends the round if it does. -/
theorem through_op_of_some {o : Op Sym} (hplain : plain l (.op o :: rest) = true)
    (h : ∀ c', o.exec p.sym c = some c' → RoundThrough p n T ⟨c', .block l rest⟩) :
    RoundThrough p n T ⟨c, .block l (.op o :: rest)⟩ := by
  refine .next (fine_of_plain hplain) fun t hstep => ?_
  obtain ⟨c', hc', rfl⟩ := Option.map_eq_some_iff.mp hstep
  exact h c' hc'

theorem through_taken {test : Test} {likely : Bool} {target : Label} {slot : Op Sym}
    (hplain : plain l (.branch test likely target :: .op slot :: rest) = true)
    (ht : test.holds c)
    (h : ∀ c', slot.exec p.sym c = some c' → RoundThrough p n T ⟨c', codeHandler.start target⟩) :
    RoundThrough p n T ⟨c, .block l (.branch test likely target :: .op slot :: rest)⟩ := by
  refine .next (fine_of_plain hplain) fun t hstep => ?_
  simp only [Program.step, ht, if_true] at hstep
  obtain ⟨c', hc', rfl⟩ := Option.map_eq_some_iff.mp hstep
  exact h c' hc'

theorem hinges_of_plain {t : State Label Sym} {φ : Prop} (hplain : plain l rest = true)
    (hstep : codeHandler.step p.toLayout ⟨c, .block l rest⟩ = some t)
    (h : RoundHinges p n T t φ) : RoundHinges p n T ⟨c, .block l rest⟩ φ :=
  .of_step (not_atReturn_of_plain hplain) (fine_of_plain hplain) hstep h

theorem hinges_op {c' : Core} {o : Op Sym} {φ : Prop} (hplain : plain l (.op o :: rest) = true)
    (ho : o.exec p.sym c = some c') (h : RoundHinges p n T ⟨c', .block l rest⟩ φ) :
    RoundHinges p n T ⟨c, .block l (.op o :: rest)⟩ φ :=
  hinges_of_plain hplain (Program.step_op ho) h

theorem locate_cases (p : Placement) (a : Word) :
    (∃ l, a = p.entry l ∧ codeHandler.locate p.toLayout a = codeHandler.start l) ∨
      (∀ l, a ≠ p.entry l) ∧ codeHandler.locate p.toLayout a = .out a := by
  by_cases h : ∃ l, a = p.entry l
  · obtain ⟨l, rfl⟩ := h
    exact .inl ⟨l, rfl, locate_entry p l⟩
  · push Not at h
    refine .inr ⟨h, ?_⟩
    have hfind : labels.find? (fun l => p.entry l = a) = none := by
      rw [List.find?_eq_none]
      intro l _
      simpa using (h l).symm
    unfold Program.locate
    rw [show codeHandler.labels = labels from rfl, hfind]

/-- The line that a handler has been called for, with the address and the value
in `$a0` and `$a1` as `ch_loop` leaves them. -/
structure Called (p : Placement) (T : BitVec 64 → Prop) (here : Word) (line : Line)
    (c : Core) : Prop extends LoopRegs p T c where
  dvd : 8 ∣ (here - p.sym .codelist).toNat
  t2 : c.get .t2 = sx here
  a0 : c.get .a0 = sx (address line.addr)
  a1 : c.get .a1 = sx line.val

theorem Called.aligned {here : Word} {line : Line} (h : Called p T here line c) :
    Aligned 4 here := by
  have hal := p.aligned .codelist
  have hdvd := h.dvd
  have hlt := here.isLt
  have hlt' := (p.sym .codelist).isLt
  unfold Aligned at *
  rw [BitVec.toNat_sub] at hdvd
  omega

/-- A load from the line after `here`. -/
theorem readsSecond_iff {s : State Label Sym} {o : Op Sym} {off : BitVec 16} {here : Word}
    {k size : ℕ} (ht2 : s.core.get .t2 = sx here) (hdvd : 8 ∣ (here - p.sym .codelist).toNat)
    (ho : s.executes = some o) (hat : o.loadAt = some (size, off, .t2))
    (hoff : off.signExtend 32 = 8 + BitVec.ofNat 32 k ∧ 0 < size ∧ k + size ≤ 8) :
    ReadsAdded p n s ↔ p.IsLine n (here + 8) := by
  obtain ⟨hoff, hsize, hle⟩ := hoff
  refine readsAdded_iff (k := k) ho hat ?_ (dvd_add_eight hdvd) hsize hle
  rw [Core.addr, ht2, lo_sx, hoff, BitVec.add_assoc]

theorem exec_lw_line {sym : Sym → Word} {here : Word} {rt : Reg} {off : BitVec 16}
    (ht2 : c.get .t2 = sx here) (hal : Aligned 4 here)
    (hoff : 4 ∣ (off.signExtend 32).toNat) :
    (Op.lw rt off .t2).exec sym c =
      some (c.set rt (sx (c.mem.load32 (here + off.signExtend 32)))) :=
  Op.exec_lw (by rw [Core.addr, ht2, lo_sx]) (hal.add hoff)

theorem type4_hinges {here : Word} {line : Line} (h : Called p T here line c) :
    RoundHinges p n T ⟨c, codeHandler.start .type4⟩ (p.IsLine n (here + 8)) := by
  have hreads : ReadsAdded p n ⟨c, codeHandler.start .type4⟩ ↔ p.IsLine n (here + 8) :=
    readsSecond_iff (k := 0) h.t2 h.dvd rfl rfl (by decide)
  refine .last (fun hline => (hreads.mpr hline).fine rfl) hreads.mp
    (Program.step_op (exec_lw_line h.t2 h.aligned (by decide))) fun hline => ?_
  generalize hc' : Core.set c _ _ = c'
  have ht2 : c'.get .t2 = sx here := by
    rw [← hc']
    simpa using h.t2
  -- the two data words are in the same line
  refine .of_step
    (ReadsAdded.fine ((readsSecond_iff (k := 4) ht2 h.dvd rfl rfl (by decide)).mpr hline) rfl)
    (Program.step_op (exec_lw_line ht2 h.aligned (by decide))) (.cut (.quiet ?_ rfl))
  rw [← hc']
  simpa using h.toLoopRegs

theorem type5_hinges {here : Word} {line : Line} (h : Called p T here line c) :
    RoundHinges p n T ⟨c, codeHandler.start .type5⟩ (p.IsLine n (here + 8)) := by
  have hreads : ReadsAdded p n ⟨c, codeHandler.start .type5⟩ ↔ p.IsLine n (here + 8) :=
    readsSecond_iff (k := 0) h.t2 h.dvd rfl rfl (by decide)
  refine .last (fun hline => (hreads.mpr hline).fine rfl) hreads.mp
    (Program.step_op (exec_lw_line h.t2 h.aligned (by decide))) fun _ => .cut (.quiet ?_ rfl)
  simpa using h.toLoopRegs

/-- Type 6 reads the second line once the pointer has been loaded. -/
theorem type6_hinges {here : Word} {line : Line} (h : Called p T here line c)
    (hal : Aligned 4 (address line.addr)) :
    RoundHinges p n T ⟨c, codeHandler.start .type6⟩ (p.IsLine n (here + 8)) := by
  refine hinges_op rfl (Op.exec_lw (a := address line.addr) ?_ hal)
    (hinges_op rfl rfl (hinges_op rfl rfl ?_))
  · simp [Core.addr, h.a0]
  generalize hc' : Core.set _ Reg.t5 _ = c'
  have hregs : LoopRegs p T c' := by
    rw [← hc']
    simpa using h.toLoopRegs
  have ht2 : c'.get .t2 = sx here := by
    rw [← hc']
    simpa using h.t2
  have hslot : (Op.lhu .a2 10 .t2).exec p.sym c' =
      some (c'.set .a2 ((c'.mem.load16 (here + 10)).setWidth 64)) := by
    refine Op.exec_lhu ?_ (.add_of_dvd (by decide) (h.aligned.of_dvd (by decide)) (by decide))
    simp [Core.addr, ht2]
  have hreads {rest : List (Instr Label Sym)} :
      ReadsAdded p n ⟨c', .block .type6 (beqz .t5 .type6L1 :: .op (.lhu .a2 10 .t2) :: rest)⟩ ↔
        p.IsLine n (here + 8) := by
    refine readsSecond_iff (k := 2) (o := .lhu .a2 10 .t2) ht2 h.dvd ?_ rfl (by decide)
    simp [State.executes, beqz]
  by_cases htest : (Test.eqz .t5).holds c'
  · refine .last (fun hline => (hreads.mpr hline).fine rfl) hreads.mp
      (Program.step_taken htest hslot) fun _ => .cut (.target ?_ rfl)
    simpa using hregs
  · refine .last (fun hline => (hreads.mpr hline).fine rfl) hreads.mp
      (Program.step_notTaken htest hslot) fun hline => ?_
    generalize hc'' : Core.set c' _ _ = c''
    have ht2' : c''.get .t2 = sx here := by
      rw [← hc'']
      simpa using ht2
    refine .of_step
      (ReadsAdded.fine ((readsSecond_iff (k := 4) ht2' h.dvd rfl rfl (by decide)).mpr hline) rfl)
      (Program.step_op (exec_lw_line ht2' h.aligned (by decide))) (.cut (.quiet ?_ rfl))
    rw [← hc'']
    simpa using hregs

theorem type6_through {here : Word} {line : Line} (h : Called p T here line c)
    (hal : ¬ Aligned 4 (address line.addr)) :
    RoundThrough p n T ⟨c, codeHandler.start .type6⟩ := by
  refine through_op_of_some rfl fun c' hc' => absurd (Op.aligned_of_exec_lw hc') ?_
  simpa [Core.addr, h.a0] using hal

/-- The 32-bit sub-types of type 3, as the two branches of its handler find them. -/
theorem and_six_eq_four : ∀ d : BitVec 4, d &&& 6 = 4 ↔
    d.setWidth 32 &&& 6#32 ≠ 0#32 ∧ d.setWidth 32 &&& 6#32 &&& 2#32 = 0#32 := by
  decide

/-- Type 3 reads the second line for 32-bit values, once the word to be changed
has been loaded. -/
theorem type3_hinges {here : Word} {line : Line} (h : Called p T here line c) :
    RoundHinges p n T ⟨c, codeHandler.start .type3⟩
      (digit 5 line.addr &&& 6 = 4 ∧ Aligned 4 (address line.val) → p.IsLine n (here + 8)) := by
  iterate 7 refine hinges_op rfl rfl ?_
  generalize hc' : Core.set _ Reg.a2 _ = c'
  have hregs : LoopRegs p T c' := by
    rw [← hc']
    simpa using h.toLoopRegs
  have hsize := address_shr_and line.addr 6#32 (by decide)
  have ht2 : c'.get .t2 = sx here := by
    rw [← hc']
    simpa using h.t2
  have ht6 : c'.get .t6 = sx ((digit 5 line.addr).setWidth 32 &&& 6#32) := by
    rw [← hc', ← hsize]
    simp [h.a0]
  have ha2 : c'.get .a2 = sx ((digit 5 line.addr).setWidth 32 &&& 6#32 &&& 2#32) := by
    rw [← hc', ← hsize]
    simp [h.a0]
  have ha1 : c'.get .a1 = sx (address line.val) := by
    rw [← hc']
    simp [h.a1, shl_shr_seven]
  rw [and_six_eq_four]
  -- subtypes 0 and 1, then 2 and 3: no second line; then 4 and 5
  by_cases hbyte : (digit 5 line.addr).setWidth 32 &&& 6#32 = 0#32
  · refine .of_through
      (through_taken rfl ?_ fun d hd => .cut (.target (hregs.of_exec rfl hd) rfl)) ?_
    · simpa [Test.holds, ht6] using hbyte
    · exact fun hsecond => absurd hbyte hsecond.1.1
  refine hinges_of_plain rfl (Program.step_likelyNotTaken ?_) ?_
  · simpa [Test.holds, ht6] using hbyte
  by_cases hword : (digit 5 line.addr).setWidth 32 &&& 6#32 &&& 2#32 = 0#32
  · refine hinges_of_plain rfl (Program.step_likelyNotTaken ?_) ?_
    · simpa [Test.holds, ha2] using hword
    -- a misaligned address raises an exception before the second line is read
    by_cases hal : Aligned 4 (address line.val)
    · refine hinges_op rfl (Op.exec_lw (a := address line.val) ?_ hal) ?_
      · simp [Core.addr, ha1]
      generalize hc'' : Core.set _ Reg.t5 _ = c''
      have ht2' : c''.get .t2 = sx here := by
        rw [← hc'']
        simpa using ht2
      have hreads {rest : List (Instr Label Sym)} :
          ReadsAdded p n ⟨c'', .block .type3 (.op (.lw .a0 8 .t2) :: rest)⟩ ↔
            p.IsLine n (here + 8) := readsSecond_iff (k := 0) ht2' h.dvd rfl rfl (by decide)
      have hregs' : LoopRegs p T c'' := by
        rw [← hc'']
        simpa using hregs
      refine (Program.Hinges.last (fun hline => (hreads.mpr hline).fine rfl) hreads.mp
        (Program.step_op (exec_lw_line ht2' h.aligned (by decide)))
        fun _ => .cut (.quiet (by simpa using hregs') rfl)).congr ?_
      simp [hbyte, hword, hal]
    · refine .of_through
        (through_op_of_some rfl fun d hd => absurd (Op.aligned_of_exec_lw hd) ?_) ?_
      · simpa [Core.addr, ha1] using hal
      · exact fun hsecond => absurd hsecond.2 hal
  · refine .of_through
      (through_taken rfl ?_ fun d hd => .cut (.target (hregs.of_exec rfl hd) rfl)) ?_
    · simpa [Test.holds, ha2] using hword
    · exact fun hsecond => absurd hsecond.1.2 hword

/-- What a handler depends on, for whatever address is found in the table. -/
theorem handler_hinges {here : Word} {line : Line} (h : Called p T here line c)
    (ht4 : c.get .t4 < c.get .t3) (a : Word) :
    RoundHinges p n T ⟨c, codeHandler.locate p.toLayout a⟩
      (p.ReadsSecondAt a line → p.IsLine n (here + 8)) := by
  rcases locate_cases p a with ⟨l, rfl, hloc⟩ | ⟨hne, hloc⟩
  · rw [hloc]
    simp only [Placement.ReadsSecondAt, p.entry_injective.eq_iff]
    cases l
    case type3 =>
      exact (type3_hinges h).congr (by simp)
    case type4 =>
      exact (type4_hinges h).congr (by simp)
    case type5 =>
      exact (type5_hinges h).congr (by simp)
    case type6 =>
      by_cases hal : Aligned 4 (address line.addr)
      · exact (type6_hinges h hal).congr (by simp [hal])
      · exact .of_through (type6_through h hal) (by simp [hal])
    case codeHandler => exact .of_through (.cut (.entry c)) (by simp)
    case chLoop => exact .of_through (.cut (.head h.toLoopRegs ht4)) (by simp)
    all_goals exact .of_through (.cut (.target h.toLoopRegs rfl)) (by simp)
  · rw [hloc]
    refine .of_through (.cut (.out c a)) ?_
    simp [Placement.ReadsSecondAt, hne]

theorem Placement.ReadsSecondAt.ne_zero {a : Word} {line : Line} (h : p.ReadsSecondAt a line) :
    a ≠ 0 := by
  rcases h with rfl | rfl | ⟨rfl, -⟩ | ⟨rfl, -⟩ <;> exact p.entry_ne_zero _

theorem aligned_shl {k : ℕ} (w : Word) (hk : 2 ≤ k) : Aligned 4 (w <<< k) := by
  unfold Aligned
  obtain ⟨j, rfl⟩ := Nat.exists_eq_add_of_le hk
  rw [BitVec.toNat_shiftLeft, Nat.shiftLeft_eq, pow_add, ← mul_assoc]
  refine (Nat.dvd_mod_iff (by decide)).mpr (Dvd.intro_left (w.toNat * 2 ^ j) ?_)
  ring

/-- The lines that a round depends on. -/
def RoundAdded (p : Placement) (n : ℕ) (c : Core) : Prop :=
  p.IsLine n (p.current c) ∧
    (p.ReadsSecond c.mem (lineIn c.mem (p.current c)) → p.IsLine n (p.current c + 8))

theorem step_chLoop (p : Placement) (c : Core) :
    codeHandler.step p.toLayout ⟨c, codeHandler.start .chLoop⟩ =
      some ⟨c.set .at' (sx (lo (c.get .t4) <<< 3)),
        .block .chLoop (codeHandler.code .chLoop).tail⟩ :=
  Program.step_op rfl

/-- A round of the main loop, from the instruction after its first one on. -/
theorem chLoop_hinges (h : LoopRegs p T c) (ht4 : c.get .t4 < c.get .t3) :
    RoundHinges p n T
      ⟨c.set .at' (sx (lo (c.get .t4) <<< 3)), .block .chLoop (codeHandler.code .chLoop).tail⟩
      (RoundAdded p n c) := by
  unfold RoundAdded
  have hdvd := p.dvd_current_sub c
  have hal : Aligned 4 (p.current c) := (p.aligned .codelist).add (aligned_shl _ (by decide))
  have hhere : p.sym .codelist + lo (c.get .t4) <<< 3 = p.current c := rfl
  generalize p.current c = here at hdvd hal hhere ⊢
  generalize hline : lineIn c.mem here = line
  have haddr : c.mem.load32 here = line.addr := congrArg Line.addr hline
  have hval : c.mem.load32 (here + 4) = line.val := congrArg Line.val hline
  refine hinges_op rfl rfl ?_
  generalize hc₂ : Core.set _ Reg.t2 _ = c₂
  have hreads {rest : List (Instr Label Sym)} :
      ReadsAdded p n ⟨c₂, .block .chLoop (.op (.lw .a0 0 .t2) :: rest)⟩ ↔ p.IsLine n here := by
    refine readsAdded_iff (k := 0) rfl rfl ?_ hdvd (by decide) (by decide)
    rw [← hc₂]
    simpa [Core.addr, h.t0] using hhere
  refine .step (not_atReturn (by decide)) (fun hadded => (hreads.mpr hadded).fine rfl) hreads.mp
    (Program.step_op (Op.exec_lw (a := here) ?_ hal)) fun hadded => ?_
  · rw [← hc₂]
    simpa [Core.addr, h.t0] using hhere
  subst hc₂
  -- a line with address 0 is passed over
  by_cases hzero : line.addr = 0#32
  · refine .of_through (.of_step (fine_of_plain rfl) (Program.step_taken ?_ rfl)
      (.cut (.next ?_))) ?_
    · simpa [Test.holds, haddr] using hzero
    · simpa using h
    · exact fun hsecond => absurd hzero hsecond.1
  have halTable : Aligned 4 (p.sym .typeTab + line.addr >>> 28 <<< 2) :=
    (p.aligned .typeTab).add (aligned_shl _ le_rfl)
  refine hinges_of_plain rfl (Program.step_notTaken ?_ rfl)
    (hinges_op rfl rfl (hinges_op rfl rfl (hinges_op rfl (Op.exec_lw
      (a := p.sym .typeTab + line.addr >>> 28 <<< 2) ?_ halTable) ?_)))
  · simpa [Test.holds, haddr] using hzero
  · simp [Core.addr, haddr, h.t1, BitVec.add_comm]
  have hhandler : p.handlerIn c.mem line =
      c.mem.load32 (p.sym .typeTab + line.addr >>> 28 <<< 2) := rfl
  -- so is one whose type has no handler
  by_cases hnone : p.handlerIn c.mem line = 0#32
  · refine .of_through (.of_step (fine_of_plain rfl) (Program.step_taken ?_ rfl)
      (.cut (.next ?_))) ?_
    · simpa [Test.holds, hhandler] using hnone
    · simpa using h
    · exact fun hsecond => absurd hnone hsecond.2.ne_zero
  refine hinges_of_plain rfl (Program.step_notTaken ?_ rfl)
    (hinges_op rfl rfl (.of_step (not_atReturn (by decide)) (ReadsAdded.fine ?_ rfl)
      (Program.step_jr (a := p.handlerIn c.mem line) ?_
        (Op.exec_lw (a := here + 4) ?_ (hal.add (by decide)))) ?_))
  · simpa [Test.holds, hhandler] using hnone
  · refine (readsAdded_iff (k := 4) rfl rfl ?_ hdvd (by decide) (by decide)).mpr hadded
    simpa [Core.addr, h.t0] using congrArg (· + 4#32) hhere
  · simp [hhandler]
  · simpa [Core.addr, h.t0] using congrArg (· + 4#32) hhere
  generalize hc' : Core.set _ Reg.a1 _ = c'
  have hcalled : Called p T here line c' := by
    rw [← hc']
    refine ⟨by simpa using h, hdvd, ?_, ?_, ?_⟩
    · simpa [h.t0] using hhere
    · simp [haddr, shl_shr_seven]
    · simpa using hval
  have ht4' : c'.get .t4 < c'.get .t3 := by
    rw [← hc']
    simpa using ht4
  refine (handler_hinges hcalled ht4' (p.handlerIn c.mem line)).congr ?_
  simp [Placement.ReadsSecond, hzero]

/-- `next` goes back to the main loop only with an index below `$t3`. -/
theorem next_through (h : LoopRegs p T c) :
    RoundThrough p n T ⟨c.set .t4 (sx (lo (c.get .t4) + 1#32)),
      .block .next (codeHandler.code .next).tail⟩ := by
  refine through_op rfl rfl ?_
  by_cases hlt : sx (lo (c.get .t4) + 1#32) < c.get .t3
  · refine .of_step (fine_of_plain rfl) (Program.step_taken ?_ rfl) (.cut (.head ?_ ?_))
    · simp [Test.holds, hlt]
    · simpa using h
    · simpa using hlt
  · refine .of_step (fine_of_plain rfl) (Program.step_notTaken ?_ rfl) (.cut (.quiet ?_ rfl))
    · simp [Test.holds, hlt]
    · simpa using h

/-- The start of the call, once the number of codes has been loaded. -/
theorem entry_through (hT : T (c.get .t3)) :
    RoundThrough p n T ⟨c, .block .codeHandler (codeHandler.code .codeHandler).tail⟩ := by
  by_cases hzero : c.get .t3 = 0
  · exact .of_step (fine_of_plain rfl) (Program.step_taken hzero rfl) (.cut (.ret _))
  · refine .of_step (fine_of_plain rfl) (Program.step_notTaken hzero rfl)
      (through_op rfl rfl (through_op rfl rfl (.of_step (fine_of_plain rfl)
        (Program.step_fall rfl) (.cut (.head ⟨?_, ?_, ?_⟩ ?_)))))
    · simp
    · simp
    · simpa using hT
    · have hpos : sx 0#32 < c.get .t3 := by
        rw [show sx 0#32 = 0 from rfl, BitVec.lt_def]
        have hne : (c.get .t3).toNat ≠ 0 := fun heq => hzero (BitVec.eq_of_toNat_eq heq)
        simpa [Nat.pos_iff_ne_zero] using hne
      simpa using hpos

/-! ### The whole call -/

theorem fine_of_rounds
    (hentry : ∀ s, p.During c s → s.pc = codeHandler.start .codeHandler →
      T (sx (s.core.mem.load32 (p.sym .numcodes))))
    (hround : ∀ s, p.During c s → s.pc = codeHandler.start .chLoop → LoopRegs p T s.core →
      s.core.get .t4 < s.core.get .t3 → RoundAdded p n s.core)
    {s : State Label Sym} (hs : p.During c s) : Fine p n T s := by
  have hstart : RoundThrough p n T ⟨c, codeHandler.start .codeHandler⟩ := .cut (.entry c)
  refine Program.Upto.of_through (fun t ht hcut => ?_) hstart hs
  cases hcut with
  | out c a =>
      refine ⟨⟨readsAdded_of_not_fetches ?_, ?_⟩, ?_⟩
      · rintro _ ⟨⟩
      · rintro ⟨⟩
      · rintro _ _ ⟨⟩
  | entry c =>
      refine ⟨fine_of_plain rfl, fun _ => .forall_step
        (Program.step_op (Op.exec_lwSym (p.aligned .numcodes))) (entry_through ?_)⟩
      simpa using hentry _ ht rfl
  | ret c =>
      refine ⟨ReadsAdded.fine (readsAdded_of_not_fetches ?_) rfl, fun hns => absurd rfl hns⟩
      rintro _ ⟨⟩
      rfl
  | head h ht4 =>
      have hadded := hround _ ht rfl h ht4
      refine ⟨⟨readsAdded_of_not_fetches ?_, fun _ => ⟨h, ht4⟩⟩,
        fun _ => .forall_step (step_chLoop p _) ((chLoop_hinges h ht4).through hadded)⟩
      rintro _ ⟨⟩
      rfl
  | next h =>
      exact ⟨fine_of_plain rfl, fun _ => .forall_step (Program.step_op rfl) (next_through h)⟩
  | quiet h hquiet =>
      obtain ⟨hfine, hnext⟩ := Cut.of_quiet h hquiet
      exact ⟨hfine, fun _ u hu => .cut (hnext u hu)⟩

theorem FetchesAdded.roundAdded (h : FetchesAdded p n c) {s : State Label Sym}
    (hs : p.During c s) (hpc : s.pc = codeHandler.start .chLoop) : RoundAdded p n s.core := by
  have hnecessary : ∀ s, p.During c s → s.pc = codeHandler.start .chLoop →
      LoopRegs p (fun _ => True) s.core → s.core.get .t4 < s.core.get .t3 →
      RoundAdded p n s.core := by
    rintro ⟨d, pc⟩ hs rfl hregs ht4
    refine (chLoop_hinges hregs ht4).necessary fun t ht => h t (hs.trans ?_)
    exact ht.head (not_atReturn (by decide)) (step_chLoop p d)
  have hfine := fine_of_rounds (fun _ _ _ => trivial) hnecessary hs
  exact hnecessary s hs hpc (hfine.head hpc).1 (hfine.head hpc).2

theorem NumcodesKept.load32 (h : NumcodesKept p c) {s : State Label Sym} (hs : p.During c s) :
    s.core.mem.load32 (p.sym .numcodes) = c.mem.load32 (p.sym .numcodes) := by
  unfold Placement.During at hs
  induction hs with
  | here => rfl
  | next hup _ hstep ih =>
      rw [← ih]
      refine Mem.load32_congr fun b hb => Program.step_mem hstep fun o ho x hx hxb => ?_
      exact h _ hup o ho x hx b hxb hb

/-- An index below the number of codes is that of a line. -/
theorem isLine_current (ht4 : c.get .t4 < c.get .t3) (ht3 : c.get .t3 = sx (BitVec.ofNat 32 n))
    (hn : n ≤ maxcodes) : p.IsLine n (p.current c) := by
  unfold maxcodes at hn
  have hlt : (c.get .t4).toNat < n := by
    rw [ht3, BitVec.lt_def, toNat_sx, BitVec.toNat_ofNat] at ht4
    split_ifs at ht4 <;> omega
  refine ⟨(c.get .t4).toNat, hlt, ?_⟩
  rw [Placement.current, Placement.lineAt, ← shl_three]
  rfl

/-- The first line is always fetched. -/
theorem during_head {codes : List Line} (hloaded : Loaded p codes c.mem) (hne : codes ≠ [])
    (hlen : codes.length ≤ maxcodes) :
    ∃ d, p.During c ⟨d, codeHandler.start .chLoop⟩ ∧ d.mem = c.mem ∧ d.get .t4 = sx 0 := by
  have hn : codes.length < 2 ^ 32 := by
    unfold maxcodes at hlen
    omega
  obtain ⟨⟨d, pc⟩, hup, hpc, hmem, -, hloop⟩ := entry_comes hloaded.numcodes hn
  rw [if_neg (mt List.length_eq_zero_iff.mp hne)] at hpc
  subst hpc
  exact ⟨d, hup, hmem, (hloop (mt List.length_eq_zero_iff.mp hne)).2⟩

end Cuts

theorem length_added_le (game : Cheats.Game) (engine : Lists) :
    (added game engine).length ≤ engine.maxcodes := by
  rw [added, Lists.codes, List.length_map, List.length_range]
  exact foldl_run_numcodes_le (activateCalls game) (resetCheats engine) (Nat.zero_le _)

/-- The lines that `CodeHandler` reads have all been added exactly when a two-line
code that is executed is never the last line. -/
theorem fetchesAdded_iff (p : Placement) (game : Cheats.Game) (engine : Lists) (c : Core)
    (hmax : engine.maxcodes ≤ maxcodes) (hloaded : Loaded p (added game engine) c.mem) :
    (added game engine).length ≤ maxcodes ∧
      (FetchesAdded p (added game engine).length c ↔
        ∀ s, p.During c s → s.pc = codeHandler.start .chLoop →
          RoundOk p (added game engine).length s.core) ∧
      (NumcodesKept p c →
        (FetchesAdded p (added game engine).length c ↔
          ∀ s, p.During c s → s.pc = codeHandler.start .chLoop →
            p.ReadsSecond s.core.mem (lineIn s.core.mem (p.current s.core)) →
            p.IsLine (added game engine).length (p.current s.core + 8))) := by
  have hlen := (length_added_le game engine).trans hmax
  have hnum := hloaded.numcodes
  generalize (added game engine).length = n at hlen hnum ⊢
  refine ⟨hlen, ⟨fun h s hs hpc => ?_, fun h s hs => ?_⟩, fun hkept => ⟨fun h s hs hpc => ?_,
    fun h s hs => ?_⟩⟩
  · obtain ⟨hline, hsecond⟩ := h.roundAdded hs hpc
    exact ⟨fun _ => hline, hsecond⟩
  · refine (fine_of_rounds (T := fun _ => True) (fun _ _ _ => trivial) ?_ hs).reads
    intro t ht hpc _ ht4
    obtain ⟨hline, hsecond⟩ := h t ht hpc
    refine ⟨?_, hsecond⟩
    by_cases ht3 : t.core.get .t3 = sx (BitVec.ofNat 32 n)
    · exact isLine_current ht4 ht3 hlen
    · exact hline ht3
  · exact (h.roundAdded hs hpc).2
  · refine (fine_of_rounds (T := fun v => v = sx (BitVec.ofNat 32 n)) ?_ ?_ hs).reads
    · intro t ht _
      rw [hkept.load32 ht, hnum]
    · intro t ht hpc hregs ht4
      exact ⟨isLine_current ht4 hregs.t3 hlen, h t ht hpc⟩

/-- A cheat file that was cut off in the middle of a serial write. -/
def truncatedGame : Cheats.Game :=
  { title := List.Vector.replicate _ 0
    cheats := [{ desc := List.Vector.replicate _ 0
                 codes := [{ addr := 0x40100000, val := 0x00020001, tag := 0 }]
                 tag := 0 }]
    tag := 0 }

/-- The engine before any cheat has been activated. -/
def emptyEngine : Lists where
  maxhooks := 5
  numhooks := 0
  hooklist := fun _ => 0
  maxcodes := maxcodes
  numcodes := 0
  codelist := fun _ => 0

def truncatedMem : Mem :=
  placeWords (placeWords (placeWords (fun _ => 0) (sampleSym .numcodes) [1])
    (sampleSym .typeTab) ((List.range 16).map samplePlacement.tableWord))
    (sampleSym .codelist) [0x40100000, 0x00020001]

theorem added_truncatedGame : added truncatedGame emptyEngine = [⟨0x40100000, 0x00020001⟩] := by
  decide

theorem loaded_truncatedMem :
    Loaded samplePlacement (added truncatedGame emptyEngine) truncatedMem := by
  rw [added_truncatedGame]
  exact ⟨by decide, by decide, by decide, by decide, trivial⟩

/-- The first round gets as far as the second line of the serial write, which is not there. -/
theorem during_truncatedGame :
    ∃ d, samplePlacement.During ⟨fun _ => 0, truncatedMem⟩ ⟨d, codeHandler.start .chLoop⟩ ∧
      samplePlacement.ReadsSecond d.mem (lineIn d.mem (samplePlacement.current d)) ∧
      ¬ samplePlacement.IsLine 1 (samplePlacement.current d + 8) := by
  obtain ⟨d, hd, hmem, ht4⟩ := during_head (c := ⟨fun _ => 0, truncatedMem⟩) loaded_truncatedMem
    (by decide) (by decide)
  have hcurrent : samplePlacement.current d = sampleSym .codelist := by
    rw [Placement.current, ht4]
    decide
  refine ⟨d, hd, ?_, ?_⟩
  · rw [hmem, hcurrent]
    exact ⟨by decide, .inl (by decide)⟩
  · rw [hcurrent]
    rintro ⟨i, hi, heq⟩
    obtain rfl : i = 0 := by omega
    revert heq
    decide

/-- The condition fails in the first round, so a line is read that was not added. -/
theorem fetchesAdded_iff_truncatedGame :
    ∃ d, samplePlacement.During ⟨fun _ => 0, truncatedMem⟩ ⟨d, codeHandler.start .chLoop⟩ ∧
      ¬ RoundOk samplePlacement 1 d ∧
      ¬ FetchesAdded samplePlacement 1 ⟨fun _ => 0, truncatedMem⟩ := by
  obtain ⟨d, hd, hreads, hline⟩ := during_truncatedGame
  have hround : ¬ RoundOk samplePlacement 1 d := fun h => hline (h.second hreads)
  refine ⟨d, hd, hround, fun hfetches => hround ?_⟩
  exact (fetchesAdded_iff samplePlacement truncatedGame emptyEngine ⟨fun _ => 0, truncatedMem⟩
    le_rfl loaded_truncatedMem).2.1.mp hfetches _ hd rfl

/-- The handler of the serial write reads the line after the only one. -/
theorem not_fetchesAdded_truncatedGame :
    ¬ FetchesAdded samplePlacement (added truncatedGame emptyEngine).length
      ⟨fun _ => 0, truncatedMem⟩ := by
  intro h
  obtain ⟨d, hd, hreads, hline⟩ := during_truncatedGame
  exact hline ((h.roundAdded hd rfl).2 hreads)

end Ps2rd.Engine
