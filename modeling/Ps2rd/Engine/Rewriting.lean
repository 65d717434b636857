import Ps2rd.Engine.Fetches

/-!
# Two calls of CodeHandler side by side

`type_e` writes into the code list: it stores the D code that it makes of an E
code in the place of the E code.  Here a call is compared with a call on a list in
which some E codes have not been replaced yet.  As long as nothing but `ch_loop`
reads a replaced line, and the codes do not write to the engine's memory, both
calls do the same: the one meets a D code where the other meets the E code and
makes the same D code of it.

Outside of `ch_loop`, `type_e` and `next` the two calls go in lockstep, because
the code there reads only registers in which they agree (`live`) and memory that
is the same in both.
-/

namespace Ps2rd.Engine

open Mips

/-- A placement in which the number of codes does not lie in the code list. -/
structure Linked extends Placement where
  apart : ∀ a, InRange (sym .numcodes) 4 a → ¬ InRange (sym .codelist) (8 * maxcodes) a

/-! ### Lines in memory -/

/-- The memory with a line stored at `here`. -/
def storeLine (m : Mem) (here : Word) (line : Line) : Mem :=
  (m.store 4 here line.addr).store 4 (here + 4) line.val

section Lines

variable {m m' : Mem} {here b : Word} {line : Line}

theorem inRange_eight : InRange here 8 b ↔ InRange here 4 b ∨ InRange (here + 4) 4 b := by
  have hb := b.isLt
  have hh := here.isLt
  have hfour : (4 : Word).toNat = 4 := rfl
  unfold InRange
  simp only [BitVec.toNat_sub, BitVec.toNat_add, hfour]
  omega

theorem storeLine_of_not_inRange (h : ¬ InRange here 8 b) : storeLine m here line b = m b := by
  rw [inRange_eight, not_or] at h
  rw [storeLine, Mem.store_of_not_inRange h.2, Mem.store_of_not_inRange h.1]

theorem storeLine_congr (h : ¬ InRange here 8 b → m b = m' b) :
    storeLine m here line b = storeLine m' here line b := by
  by_cases hb : InRange here 8 b
  · unfold storeLine Mem.store
    rcases inRange_eight.mp hb with hlow | hhigh
    · simp only [hlow, if_true]
    · simp only [hhigh, if_true]
  · rw [storeLine_of_not_inRange hb, storeLine_of_not_inRange hb, h hb]

theorem lineIn_congr (h : ∀ b, InRange here 8 b → m b = m' b) : lineIn m here = lineIn m' here := by
  unfold lineIn
  rw [Mem.load32_congr fun b hb => h b (inRange_eight.mpr (.inl hb)),
    Mem.load32_congr fun b hb => h b (inRange_eight.mpr (.inr hb))]

theorem lineIn_storeLine (hal : Aligned 4 here) : lineIn (storeLine m here line) here = line := by
  have hne : here ≠ here + 4 := by
    intro heq
    have h := congrArg BitVec.toNat heq
    have hlt := here.isLt
    have hfour : (4 : Word).toNat = 4 := rfl
    rw [BitVec.toNat_add, hfour] at h
    omega
  unfold lineIn storeLine
  rw [Mem.load32_store_self, Mem.load32_store_of_ne (hal.add (by decide)) hal hne,
    Mem.load32_store_self]

theorem storeLine_lineIn (m : Mem) (here : Word) : storeLine m here (lineIn m here) = m := by
  unfold storeLine lineIn
  rw [Mem.store_load32, Mem.store_load32]

end Lines

section List

variable {p : Placement} {i j : ℕ} {b : Word}

theorem lineAt_disjoint (hi : i < maxcodes) (hj : j < maxcodes) (hne : i ≠ j)
    (hb : InRange (p.lineAt i) 8 b) : ¬ InRange (p.lineAt j) 8 b := by
  have hlt := b.isLt
  have hlt' := (p.sym .codelist).isLt
  unfold maxcodes at hi hj
  unfold InRange Placement.lineAt at *
  simp only [BitVec.toNat_sub, BitVec.toNat_add, BitVec.toNat_ofNat] at *
  omega

theorem ListAt.lineIn {codes : List Line} {here : Word} {m : Mem} (h : ListAt here codes m)
    (hi : i < codes.length) : lineIn m (here + BitVec.ofNat 32 (8 * i)) = codes[i] := by
  induction codes generalizing here i with
  | nil => cases hi
  | cons line rest ih =>
      obtain ⟨haddr, hval, hrest⟩ := h
      cases i with
      | zero =>
          have hfirst : here + BitVec.ofNat 32 (8 * 0) = here := by simp
          rw [hfirst, Engine.lineIn, haddr, hval]
          rfl
      | succ i =>
          have hlt : i < rest.length := by simpa using hi
          have hstep : here + BitVec.ofNat 32 (8 * (i + 1)) =
              here + 8 + BitVec.ofNat 32 (8 * i) := by
            rw [Nat.mul_succ, Nat.add_comm, BitVec.ofNat_add, ← BitVec.add_assoc]
            rfl
          rw [hstep, ih hrest hlt]
          rfl

end List

/-! ### The two memories -/

/-- A line of the list in the two calls: the original line in both, or the D code
in both, or the D code in the first and the E code still in the second. -/
inductive SameLine (line : Line) : Line → Line → Prop
  | original : SameLine line line line
  | rewritten (h : line.type = 14) : SameLine line (rewritten line) (rewritten line)
  | first (h : line.type = 14) : SameLine line (Engine.rewritten line) line

/-- The code list. -/
def Placement.InList (p : Placement) (codes : List Line) (b : Word) : Prop :=
  InRange (p.sym .codelist) (8 * codes.length) b

/-- The memories of two calls on the list `codes`.  `m₀` is the memory that the
loader has left, and only bytes with `D` differ. -/
structure SameMem (p : Placement) (codes : List Line) (m₀ : Mem) (D : Word → Prop)
    (m m' : Mem) : Prop where
  same : ∀ b, ¬ D b → m b = m' b
  lines : ∀ i (hi : i < codes.length),
    SameLine codes[i] (lineIn m (p.lineAt i)) (lineIn m' (p.lineAt i))
  own : ∀ b, p.own b → ¬ p.InList codes b → m b = m₀ b

/-- The memory that the loader has left, and which bytes of the list may differ. -/
structure Setting (p : Linked) (codes : List Line) (m₀ : Mem) (D : Word → Prop) : Prop where
  loaded : Loaded p.toPlacement codes m₀
  length : codes.length ≤ maxcodes
  changed : ∀ b, D b → p.InList codes b

section SameMem

variable {p : Linked} {codes : List Line} {m₀ m m' : Mem} {D : Word → Prop} {i : ℕ} {b : Word}

theorem Setting.length_lt (hs : Setting p codes m₀ D) : codes.length < 2 ^ 32 := by
  have hlen := hs.length
  unfold maxcodes at hlen
  omega

theorem Setting.not_inList (hs : Setting p codes m₀ D)
    (hb : ¬ InRange (p.sym .codelist) (8 * maxcodes) b) : ¬ p.InList codes b :=
  fun hlist => hb (InRange.mono hlist (by have := hs.length; omega))

theorem Setting.inList (hs : Setting p codes m₀ D) (hi : i < codes.length)
    (hb : InRange (p.lineAt i) 8 b) : p.InList codes b := by
  have hlen := hs.length
  unfold maxcodes at hlen
  exact (InRange.of_add hb (by omega)).mono (by omega)

theorem Setting.own_of_inList (hs : Setting p codes m₀ D) (hb : p.InList codes b) : p.own b :=
  p.own_codelist b (InRange.mono hb (by have := hs.length; omega))

/-- The engine's data outside of the list is as the loader has left it. -/
theorem SameMem.eq_loaded (hs : Setting p codes m₀ D) (h : SameMem p.toPlacement codes m₀ D m m')
    (hown : p.own b) (hb : ¬ InRange (p.sym .codelist) (8 * maxcodes) b) :
    m b = m₀ b ∧ m' b = m₀ b := by
  have hlist := hs.not_inList hb
  have heq := h.own b hown hlist
  refine ⟨heq, ?_⟩
  rw [← heq, h.same b (mt (hs.changed b) hlist)]

theorem SameMem.numcodes (hs : Setting p codes m₀ D) (h : SameMem p.toPlacement codes m₀ D m m') :
    m.load32 (p.sym .numcodes) = BitVec.ofNat 32 codes.length ∧
      m'.load32 (p.sym .numcodes) = BitVec.ofNat 32 codes.length := by
  have heq {b : Word} (hb : InRange (p.sym .numcodes) 4 b) :=
    h.eq_loaded hs (p.own_numcodes b hb) (p.apart b hb)
  rw [← hs.loaded.numcodes]
  exact ⟨Mem.load32_congr fun b hb => (heq hb).1, Mem.load32_congr fun b hb => (heq hb).2⟩

theorem SameMem.table (hs : Setting p codes m₀ D) (h : SameMem p.toPlacement codes m₀ D m m')
    {t : ℕ} (ht : t < 16) :
    m.load32 (p.sym .typeTab + BitVec.ofNat 32 (4 * t)) = p.tableWord t ∧
      m'.load32 (p.sym .typeTab + BitVec.ofNat 32 (4 * t)) = p.tableWord t := by
  have heq {b : Word} (hb : InRange (p.sym .typeTab + BitVec.ofNat 32 (4 * t)) 4 b) :
      m b = m₀ b ∧ m' b = m₀ b := by
    have h64 : InRange (p.sym .typeTab) 64 b := (hb.of_add (by omega)).mono (by omega)
    exact h.eq_loaded hs (p.own_typeTab b h64) (p.disjoint b h64)
  rw [← hs.loaded.table t ht]
  exact ⟨Mem.load32_congr fun b hb => (heq hb).1, Mem.load32_congr fun b hb => (heq hb).2⟩

/-- Both calls do the same to memory that is not the engine's. -/
theorem SameMem.frame (hs : Setting p codes m₀ D) (h : SameMem p.toPlacement codes m₀ D m m')
    {d d' : Mem} (hsame : ∀ b, m b = m' b → d b = d' b) (hkeep : ∀ b, p.own b → d b = m b)
    (hkeep' : ∀ b, p.own b → d' b = m' b) : SameMem p.toPlacement codes m₀ D d d' := by
  refine ⟨fun b hb => hsame b (h.same b hb), fun i hi => ?_, fun b hown hlist => ?_⟩
  · have hline : ∀ b, InRange (p.lineAt i) 8 b → p.own b :=
      fun b hb => hs.own_of_inList (hs.inList hi hb)
    rw [lineIn_congr fun b hb => hkeep b (hline b hb),
      lineIn_congr fun b hb => hkeep' b (hline b hb)]
    exact h.lines i hi
  · rw [hkeep b hown]
    exact h.own b hown hlist

/-- The D code is stored in both lists. -/
theorem SameMem.rewrite (hs : Setting p codes m₀ D) (h : SameMem p.toPlacement codes m₀ D m m')
    (hi : i < codes.length) (htype : codes[i].type = 14) :
    SameMem p.toPlacement codes m₀ D (storeLine m (p.lineAt i) (rewritten codes[i]))
      (storeLine m' (p.lineAt i) (rewritten codes[i])) := by
  have hlen := hs.length
  refine ⟨fun b hb => storeLine_congr fun _ => h.same b hb, fun j hj => ?_,
    fun b hown hlist => ?_⟩
  · by_cases hij : j = i
    · subst hij
      rw [lineIn_storeLine (p.aligned_lineAt j), lineIn_storeLine (p.aligned_lineAt j)]
      exact .rewritten htype
    · have hout : ∀ b, InRange (p.lineAt j) 8 b → ¬ InRange (p.lineAt i) 8 b :=
        fun b hb => lineAt_disjoint (by omega) (by omega) hij hb
      rw [lineIn_congr fun b hb => storeLine_of_not_inRange (hout b hb),
        lineIn_congr fun b hb => storeLine_of_not_inRange (hout b hb)]
      exact h.lines j hj
  · rw [storeLine_of_not_inRange fun hb => hlist (hs.inList hi hb)]
    exact h.own b hown hlist

end SameMem

/-! ### Code that goes in lockstep -/

/-- The two loads by which `ch_loop` fetches a line. -/
def isLineFetch : Op Sym → Bool
  | .lw _ off .t2 => off = 0 ∨ off = 4
  | _ => false

/-- The store goes to the current line, as only those of `type_e` do. -/
def storesLine (o : Op Sym) : Bool := o.storeAt.any fun x => x.2.2 = .t2

/-- Instructions that neither fetch nor store a line, and keep the registers of the
main loop. -/
def lockstepOp (o : Op Sym) : Bool :=
  !isLineFetch o && !storesLine o &&
    o.dest ≠ some .t0 && o.dest ≠ some .t1 && o.dest ≠ some .t3

/-- The registers that the code from a label on reads. -/
def live : Label → Option (List Reg)
  | .codeHandler | .chLoop | .typeE => none
  | .type3L1 => some [.at', .t5, .t6, .a0, .a1, .a2, .t4]
  | .type3L2 => some [.t5, .t6, .a1, .a2, .t4]
  | .type4L1 => some [.t5, .a0, .a1, .a2, .a3, .t4]
  | .type5L1 => some [.a0, .a1, .a2, .t4]
  | .type7L1 => some [.at', .t5, .t6, .a0, .a1, .t4]
  | .type7L2 => some [.at', .t5, .a0, .t4]
  | .typeDL1 => some [.t6, .a0, .a1, .a2, .a3, .t4]
  | .typeDL2 => some [.t6, .a0, .a1, .a2, .t4]
  | .typeDL3 => some [.t5, .t6, .a1, .a2, .t4]
  | .typeDL4 | .typeDL5 => some [.t5, .a2, .t4]
  | .type6L1 | .next => some [.t4]
  | .chRet => some []
  | .type0 | .type1 | .type2 | .type3 | .type4 | .type5 | .type6 | .type7 | .typeC | .typeD =>
      some [.a0, .a1, .t2, .t4]

/-- The registers of two calls agree as far as the code from here on reads them. -/
abbrev sameRegs : Analysis Label Sym (List Reg) := liveness lockstepOp live

theorem checks_live {l : Label} {R : List Reg} (h : live l = some R) (hnext : l ≠ .next)
    (hret : l ≠ .chRet) : codeHandler.checks sameRegs l R (code l) = true := by
  cases l <;> cases h <;> first | decide | exact absurd rfl hnext | exact absurd rfl hret

/-! ### The places where the calls meet -/

/-- The two calls are at the same place, with the same memory but for the list. -/
inductive Side (p : Linked) (codes : List Line) (m₀ : Mem) (D : Word → Prop) :
    State Label Sym → State Label Sym → Prop
  | entry {c c' : Core} (hmem : SameMem p.toPlacement codes m₀ D c.mem c'.mem) :
      Side p codes m₀ D ⟨c, codeHandler.start .codeHandler⟩ ⟨c', codeHandler.start .codeHandler⟩
  | loop {c c' : Core} {i : ℕ} (hmem : SameMem p.toPlacement codes m₀ D c.mem c'.mem)
      (hrun : Running p.toPlacement codes.length c) (hrun' : Running p.toPlacement codes.length c')
      (hi : i < codes.length) (ht4 : c.get .t4 = sx (BitVec.ofNat 32 i))
      (ht4' : c'.get .t4 = sx (BitVec.ofNat 32 i)) :
      Side p codes m₀ D ⟨c, codeHandler.start .chLoop⟩ ⟨c', codeHandler.start .chLoop⟩
  | next {c c' : Core} (hmem : SameMem p.toPlacement codes m₀ D c.mem c'.mem)
      (hrun : Running p.toPlacement codes.length c) (hrun' : Running p.toPlacement codes.length c')
      (ht4 : c.get .t4 = c'.get .t4) :
      Side p codes m₀ D ⟨c, codeHandler.start .next⟩ ⟨c', codeHandler.start .next⟩
  | ret {c c' : Core} (hmem : SameMem p.toPlacement codes m₀ D c.mem c'.mem) :
      Side p codes m₀ D ⟨c, codeHandler.start .chRet⟩ ⟨c', codeHandler.start .chRet⟩
  | lockstep {c c' : Core} {l : Label} {R : List Reg} {rest : List (Instr Label Sym)}
      (hmem : SameMem p.toPlacement codes m₀ D c.mem c'.mem)
      (hrun : Running p.toPlacement codes.length c) (hrun' : Running p.toPlacement codes.length c')
      (hregs : Agrees R c c') (hchecks : codeHandler.checks sameRegs l R rest = true) :
      Side p codes m₀ D ⟨c, .block l rest⟩ ⟨c', .block l rest⟩

/-- No code writes to the engine's memory; `type_e` stores the line that it has
converted. -/
def StoresOutside (p : Placement) (s : State Label Sym) : Prop :=
  ∀ o ∈ s.executes, storesLine o = false → ∀ x ∈ o.stores s.core, ∀ b, x.Touches b → ¬ p.own b

/-- Nothing but the fetch of a line in `ch_loop` reads a byte with `D`. -/
def ReadsUnchanged (p : Placement) (D : Word → Prop) (s : State Label Sym) : Prop :=
  ∀ o ∈ s.executes, isLineFetch o = false →
    ∀ x ∈ o.loads p.sym s.core, ∀ b, x.Touches b → ¬ D b

section Diagram

variable {p : Linked} {codes : List Line} {m₀ : Mem} {D : Word → Prop} {c c' : Core}
  {s s' : State Label Sym}

theorem Side.pc_eq (h : Side p codes m₀ D s s') : s.pc = s'.pc := by
  cases h <;> rfl

theorem Side.mem (h : Side p codes m₀ D s s') :
    SameMem p.toPlacement codes m₀ D s.core.mem s'.core.mem := by
  cases h <;> assumption

/-- The calls come to a label with what its code reads. -/
theorem Side.target {l : Label} {R needed : List Reg}
    (hmem : SameMem p.toPlacement codes m₀ D c.mem c'.mem)
    (hrun : Running p.toPlacement codes.length c) (hrun' : Running p.toPlacement codes.length c')
    (hregs : Agrees R c c') (hlive : live l = some needed) (hsub : needed ⊆ R) :
    Side p codes m₀ D ⟨c, codeHandler.start l⟩ ⟨c', codeHandler.start l⟩ := by
  by_cases hnext : l = .next
  · subst hnext
    cases hlive
    exact .next hmem hrun hrun' (hregs .t4 (hsub (by simp)))
  by_cases hret : l = .chRet
  · subst hret
    exact .ret hmem
  exact .lockstep hmem hrun hrun' (hregs.mono hsub) (checks_live hlive hnext hret)

/-- Both calls have gone on and meet again. -/
def Advance (p : Linked) (codes : List Line) (m₀ : Mem) (D : Word → Prop)
    (s s' : State Label Sym) : Prop :=
  ∃ u u', codeHandler.Plus p.toLayout AtReturn s u ∧ codeHandler.Plus p.toLayout AtReturn s' u' ∧
    Side p codes m₀ D u u'

/-- Calls that have left a label and are at the start of another. -/
theorem Advance.of_upto {l l' : Label} {d d' : Core} (hne : l' ≠ l)
    (hup : codeHandler.Upto p.toLayout AtReturn ⟨c, codeHandler.start l⟩
      ⟨d, codeHandler.start l'⟩)
    (hup' : codeHandler.Upto p.toLayout AtReturn ⟨c', codeHandler.start l⟩
      ⟨d', codeHandler.start l'⟩)
    (h : Side p codes m₀ D ⟨d, codeHandler.start l'⟩ ⟨d', codeHandler.start l'⟩) :
    Advance p codes m₀ D ⟨c, codeHandler.start l⟩ ⟨c', codeHandler.start l⟩ := by
  have hpc : ∀ {e e' : Core}, (⟨e, codeHandler.start l'⟩ : State Label Sym) ≠
      ⟨e', codeHandler.start l⟩ :=
    fun heq => hne (Loc.block.inj (congrArg State.pc heq)).1
  exact ⟨_, _, hup.plus hpc, hup'.plus hpc, h⟩

theorem Side.entry_advance (hs : Setting p codes m₀ D)
    (hmem : SameMem p.toPlacement codes m₀ D c.mem c'.mem) :
    Advance p codes m₀ D ⟨c, codeHandler.start .codeHandler⟩
      ⟨c', codeHandler.start .codeHandler⟩ := by
  obtain ⟨hnum, hnum'⟩ := hmem.numcodes hs
  obtain ⟨⟨d, pc⟩, hup, hpc, hd, -, hloop⟩ := entry_comes hnum hs.length_lt
  obtain ⟨⟨d', pc'⟩, hup', hpc', hd', -, hloop'⟩ := entry_comes hnum' hs.length_lt
  subst hpc hpc'
  dsimp only at hd hd' hloop hloop'
  rw [← hd, ← hd'] at hmem
  refine .of_upto (by split_ifs <;> decide) hup hup' ?_
  by_cases hzero : codes.length = 0
  · rw [if_pos hzero]
    exact .ret hmem
  · rw [if_neg hzero]
    exact .loop hmem (hloop hzero).1 (hloop' hzero).1 (Nat.pos_of_ne_zero hzero) (hloop hzero).2
      (hloop' hzero).2

theorem Side.next_advance (hs : Setting p codes m₀ D)
    (hmem : SameMem p.toPlacement codes m₀ D c.mem c'.mem)
    (hrun : Running p.toPlacement codes.length c) (hrun' : Running p.toPlacement codes.length c')
    (ht4 : c.get .t4 = c'.get .t4) :
    Advance p codes m₀ D ⟨c, codeHandler.start .next⟩ ⟨c', codeHandler.start .next⟩ := by
  obtain ⟨⟨d, pc⟩, hup, hpc, hd, hd4, hkeeps⟩ := next_comes hrun hs.length_lt
  obtain ⟨⟨d', pc'⟩, hup', hpc', hd', hd4', hkeeps'⟩ := next_comes hrun' hs.length_lt
  rw [← ht4] at hpc' hd4'
  subst hpc hpc'
  dsimp only at hd hd' hd4 hd4' hkeeps hkeeps'
  rw [← hd, ← hd'] at hmem
  refine .of_upto (by split_ifs <;> decide) hup hup' ?_
  generalize lo (c.get .t4) + 1#32 = w at hd4 hd4' ⊢
  by_cases hw : w.toNat < codes.length
  · rw [if_pos hw]
    refine .loop hmem (hrun.of_keeps hkeeps) (hrun'.of_keeps hkeeps') hw ?_ ?_
    · simpa using hd4
    · simpa using hd4'
  · rw [if_neg hw]
    exact .ret hmem

/-! A line is dispatched in both calls. -/

theorem address_rewritten (line : Line) : address (rewritten line).addr = address line.val := by
  unfold rewritten address
  ext i hi
  simp only [BitVec.getElem_and, BitVec.getElem_or]
  interval_cases i <;> simp

theorem handler_rewritten (line : Line) : (rewritten line).handler = some .typeD := by
  have hdigit : digit 7 (rewritten line).addr = 13 := by
    unfold rewritten digit address
    ext i hi
    simp only [BitVec.getElem_extractLsb', BitVec.getLsbD_or, BitVec.getLsbD_and]
    interval_cases i <;> simp
  have hne : (rewritten line).addr ≠ 0 := by
    intro hzero
    rw [hzero] at hdigit
    exact absurd hdigit (by decide)
  rw [Line.handler, if_neg hne, Line.type, hdigit]
  rfl

theorem type_of_handler {line : Line} (h : line.handler = some .typeE) : line.type = 14 := by
  unfold Line.handler Engine.handler at h
  split_ifs at h
  split at h <;> first | cases h; done | assumption

theorem handler_of_type {line : Line} (h : line.type = 14) : line.handler = some .typeE := by
  have hne : line.addr ≠ 0 := by
    intro hzero
    rw [Line.type, hzero] at h
    exact absurd h (by decide)
  rw [Line.handler, if_neg hne, h]
  rfl

theorem handler_getD_ne (line : Line) : line.handler.getD .next ≠ .chLoop := by
  unfold Line.handler Engine.handler
  split_ifs
  · decide
  · split <;> decide

theorem live_handler {line : Line} {l : Label} (h : line.handler = some l) (hne : l ≠ .typeE) :
    live l = some [.a0, .a1, .t2, .t4] := by
  unfold Line.handler Engine.handler at h
  split_ifs at h
  split at h <;> cases h <;> first | rfl | exact absurd rfl hne

section Dispatch

variable {i : ℕ} {line : Line}

theorem Handling.agrees {here : Word} (h : Handling here i line c) (h' : Handling here i line c') :
    Agrees [.a0, .a1, .t2, .t4] c c' := by
  intro r hr
  simp only [List.mem_cons, List.not_mem_nil, or_false] at hr
  rcases hr with rfl | rfl | rfl | rfl
  · rw [h.a0, h'.a0]
  · rw [h.a1, h'.a1]
  · rw [h.t2, h'.t2]
  · rw [h.t4, h'.t4]

/-- The same line, other than an E code, is dispatched in both calls. -/
theorem Side.of_dispatched {d d' : Core} (hmem : SameMem p.toPlacement codes m₀ D c.mem c'.mem)
    (hrun : Running p.toPlacement codes.length c) (hrun' : Running p.toPlacement codes.length c')
    (h : Dispatched p.toPlacement i line c ⟨d, codeHandler.start (line.handler.getD .next)⟩)
    (h' : Dispatched p.toPlacement i line c' ⟨d', codeHandler.start (line.handler.getD .next)⟩)
    (hne : line.handler ≠ some .typeE) :
    Side p codes m₀ D ⟨d, codeHandler.start (line.handler.getD .next)⟩
      ⟨d', codeHandler.start (line.handler.getD .next)⟩ := by
  have hmemd : SameMem p.toPlacement codes m₀ D d.mem d'.mem := by
    rw [h.mem, h'.mem]
    exact hmem
  cases hl : line.handler with
  | none =>
      exact .next hmemd (hrun.of_keeps h.keeps) (hrun'.of_keeps h'.keeps)
        (h.t4.trans h'.t4.symm)
  | some l =>
      have hsome : line.handler ≠ none := by
        rw [hl]
        exact Option.some_ne_none l
      have hregs := (h.handling hsome).agrees (h'.handling hsome)
      refine .target hmemd (hrun.of_keeps h.keeps) (hrun'.of_keeps h'.keeps) hregs
        (live_handler hl ?_) (List.Subset.refl _)
      rintro rfl
      exact hne hl

/-- An E code is fetched and converted, and the handler of D codes is entered as
for the D code. -/
theorem converts (hrun : Running p.toPlacement codes.length c)
    (h : Dispatched p.toPlacement i line c s) (htype : line.type = 14) :
    ∃ d, codeHandler.Upto p.toLayout AtReturn s ⟨d, codeHandler.start .typeD⟩ ∧
      d.mem = storeLine c.mem (p.lineAt i) (rewritten line) ∧
      Running p.toPlacement codes.length d ∧ Handling (p.lineAt i) i (rewritten line) d := by
  have hl := handler_of_type htype
  obtain ⟨d, pc⟩ := s
  obtain ⟨rfl, hmem, -, hhandling, hkeeps⟩ := h
  have hhandling := hhandling (by rw [hl]; exact Option.some_ne_none _)
  rw [hl]
  obtain ⟨⟨e, pc⟩, hup, rfl, hmem', ha0, ha1, ht2, ht4, hkeeps'⟩ :=
    typeE_comes (p := p.toLayout) hhandling
  refine ⟨e, hup, ?_, (hrun.of_keeps hkeeps).of_keeps hkeeps',
    ⟨?_, ha1, ht2, ht4, hhandling.aligned⟩⟩
  · rw [storeLine, ← hmem]
    exact hmem'
  · rw [address_rewritten]
    exact ha0

/-- The same line is dispatched in both calls. -/
theorem Advance.of_same {t t' : State Label Sym} (hs : Setting p codes m₀ D)
    (hmem : SameMem p.toPlacement codes m₀ D c.mem c'.mem)
    (hrun : Running p.toPlacement codes.length c) (hrun' : Running p.toPlacement codes.length c')
    (hup : codeHandler.Upto p.toLayout AtReturn ⟨c, codeHandler.start .chLoop⟩ t)
    (hup' : codeHandler.Upto p.toLayout AtReturn ⟨c', codeHandler.start .chLoop⟩ t')
    (h : Dispatched p.toPlacement i line c t) (h' : Dispatched p.toPlacement i line c' t')
    (hi : i < codes.length) (hline : line.type = 14 → line = codes[i]) :
    Advance p codes m₀ D ⟨c, codeHandler.start .chLoop⟩ ⟨c', codeHandler.start .chLoop⟩ := by
  by_cases htype : line.type = 14
  · obtain ⟨d, hupd, hmemd, hrund, hd⟩ := converts hrun h htype
    obtain ⟨d', hupd', hmemd', hrund', hd'⟩ := converts hrun' h' htype
    refine .of_upto (by decide) (hup.trans hupd) (hup'.trans hupd') ?_
    refine .target ?_ hrund hrund' (hd.agrees hd') rfl (List.Subset.refl _)
    have hline := hline htype
    subst hline
    rw [hmemd, hmemd']
    exact hmem.rewrite hs hi htype
  · obtain ⟨d, pc⟩ := t
    obtain ⟨d', pc'⟩ := t'
    obtain rfl := h.pc
    obtain rfl := h'.pc
    exact .of_upto (handler_getD_ne line) hup hup'
      (.of_dispatched hmem hrun hrun' h h' (mt type_of_handler htype))

theorem Side.loop_advance (hs : Setting p codes m₀ D)
    (hmem : SameMem p.toPlacement codes m₀ D c.mem c'.mem)
    (hrun : Running p.toPlacement codes.length c) (hrun' : Running p.toPlacement codes.length c')
    (hi : i < codes.length) (ht4 : c.get .t4 = sx (BitVec.ofNat 32 i))
    (ht4' : c'.get .t4 = sx (BitVec.ofNat 32 i)) :
    Advance p codes m₀ D ⟨c, codeHandler.start .chLoop⟩ ⟨c', codeHandler.start .chLoop⟩ := by
  have haddr : ∀ m : Mem, m.load32 (p.lineAt i) = (lineIn m (p.lineAt i)).addr := fun _ => rfl
  have hval : ∀ m : Mem, m.load32 (p.lineAt i + 4) = (lineIn m (p.lineAt i)).val := fun _ => rfl
  obtain ⟨t, hup, ht⟩ := chLoop_comes hrun ht4 (fun _ h16 => (hmem.table hs h16).1)
    (haddr c.mem) (hval c.mem)
  obtain ⟨t', hup', ht'⟩ := chLoop_comes hrun' ht4' (fun _ h16 => (hmem.table hs h16).2)
    (haddr c'.mem) (hval c'.mem)
  have hline := hmem.lines i hi
  generalize hfirst : lineIn c.mem (p.lineAt i) = x at ht hline
  generalize lineIn c'.mem (p.lineAt i) = y at ht' hline
  cases hline with
  | original => exact .of_same hs hmem hrun hrun' hup hup' ht ht' hi fun _ => rfl
  | rewritten htype =>
      refine .of_same hs hmem hrun hrun' hup hup' ht ht' hi fun hrw => ?_
      have hhandler := handler_of_type hrw
      rw [handler_rewritten] at hhandler
      cases hhandler
  | first htype =>
      -- the E code of the second call becomes the D code that the first one has met
      obtain ⟨d', hupd', hmemd', hrund', hd'⟩ := converts hrun' ht' htype
      obtain ⟨d, pc⟩ := t
      have hhandler := handler_rewritten codes[i]
      obtain ⟨rfl, hmemd, -, hhandling, hkeeps⟩ := ht
      rw [hhandler] at hup
      have hd := hhandling (by rw [hhandler]; exact Option.some_ne_none _)
      refine .of_upto (by decide) hup (hup'.trans hupd') ?_
      refine .target ?_ (hrun.of_keeps hkeeps) hrund' (hd.agrees hd') rfl (List.Subset.refl _)
      have hstore := storeLine_lineIn c.mem (p.lineAt i)
      rw [hfirst] at hstore
      rw [hmemd, hmemd', ← hstore]
      exact hmem.rewrite hs hi htype

end Dispatch

theorem Running.of_lockstep {p : Placement} {n : ℕ} {t : State Label Sym}
    (h : Running p n s.core) (hstep : codeHandler.step p.toLayout s = some t)
    (hops : ∀ o ∈ s.executes, lockstepOp o = true) : Running p n t.core := by
  simp only [lockstepOp, Bool.and_eq_true, decide_eq_true_eq] at hops
  refine ⟨?_, ?_, ?_⟩
  · rw [Program.step_get hstep fun o ho => (hops o ho).1.1.2, h.t0]
  · rw [Program.step_get hstep fun o ho => (hops o ho).1.2, h.t1]
  · rw [Program.step_get hstep fun o ho => (hops o ho).2, h.t3]

/-- In lockstep both calls take the same step, or none. -/
theorem Side.lockstep_advance (hs : Setting p codes m₀ D) {l : Label} {R : List Reg}
    {rest : List (Instr Label Sym)} (hmem : SameMem p.toPlacement codes m₀ D c.mem c'.mem)
    (hrun : Running p.toPlacement codes.length c) (hrun' : Running p.toPlacement codes.length c')
    (hregs : Agrees R c c') (hchecks : codeHandler.checks sameRegs l R rest = true)
    (hns : ¬ AtReturn ⟨c, .block l rest⟩)
    (hstores : StoresOutside p.toPlacement ⟨c, .block l rest⟩)
    (hreads : ReadsUnchanged p.toPlacement D ⟨c, .block l rest⟩) :
    codeHandler.step p.toLayout ⟨c, .block l rest⟩ = none ∧
        codeHandler.step p.toLayout ⟨c', .block l rest⟩ = none ∨
      Advance p codes m₀ D ⟨c, .block l rest⟩ ⟨c', .block l rest⟩ := by
  have hops : ∀ o ∈ State.executes ⟨c, .block l rest⟩, lockstepOp o = true :=
    fun o ho => (Program.checks_liveness hchecks ho).1
  have hexecutes := Program.checks_executes_congr hchecks hregs
  have hlines : ∀ o ∈ State.executes ⟨c, .block l rest⟩,
      isLineFetch o = false ∧ storesLine o = false := by
    intro o ho
    have hop := hops o ho
    simp only [lockstepOp, Bool.and_eq_true, Bool.not_eq_true'] at hop
    exact hop.1.1.1
  have hsame : ∀ o ∈ State.executes ⟨c, .block l rest⟩, LoadsSame p.sym c c' o :=
    fun o ho x hx b hb => hmem.same b (hreads o ho (hlines o ho).1 x hx b hb)
  -- both calls raise the exception, or both make the step
  cases hstep : codeHandler.step p.toLayout ⟨c, .block l rest⟩ with
  | none => exact .inl ⟨rfl, Program.lockstep_none hchecks hregs hsame hstep⟩
  | some t =>
      obtain ⟨d', R', hstep', hregs', hsuffices, hmem'⟩ :=
        Program.lockstep hchecks hregs hsame hstep
      have hkeep : ∀ b, p.own b → t.core.mem b = c.mem b := fun b hown =>
        Program.step_mem hstep fun o ho x hx hxb => hstores o ho (hlines o ho).2 x hx b hxb hown
      have hkeep' : ∀ b, p.own b → d'.mem b = c'.mem b := fun b hown =>
        Program.step_mem hstep' fun o ho x hx hxb => by
          rw [hexecutes] at ho
          rw [Op.stores_congr hregs (Program.checks_liveness hchecks ho).2] at hx
          exact hstores o ho (hlines o ho).2 x hx b hxb hown
      have hmemd := hmem.frame hs hmem' hkeep hkeep'
      have hrund := Running.of_lockstep hrun hstep hops
      have hrund' := Running.of_lockstep hrun' hstep' (hexecutes ▸ hops)
      refine .inr ⟨t, _, ⟨hns, t, hstep, .here⟩, ⟨hns, _, hstep', .here⟩, ?_⟩
      obtain ⟨d, pc⟩ := t
      -- the step stays in its block, or goes to a label
      rcases hsuffices with ⟨l', rest', rfl, hrest⟩ | ⟨l', rfl, hl'⟩
      · exact .lockstep hmemd hrund hrund' hregs' hrest
      · obtain ⟨needed, hlive, hsub⟩ := liveness_target hl'
        exact .target hmemd hrund hrund' hregs' hlive hsub

/-- The two calls meet again and again, or raise the same exception. -/
theorem side_diagram (hs : Setting p codes m₀ D) (c₀ : Core)
    (hstores : ∀ s, p.During c₀ s → StoresOutside p.toPlacement s)
    (hreads : ∀ s, p.During c₀ s → ReadsUnchanged p.toPlacement D s) :
    codeHandler.Diagram p.toLayout AtReturn
      fun s s' => p.During c₀ s ∧ Side p codes m₀ D s s' := by
  rintro s s' ⟨hs₀, hside⟩
  have hret : AtReturn s ↔ AtReturn s' := by
    rw [AtReturn, AtReturn, hside.pc_eq]
  refine ⟨hret, fun hns => ?_⟩
  suffices hnext : codeHandler.step p.toLayout s = none ∧ codeHandler.step p.toLayout s' = none ∨
      Advance p codes m₀ D s s' by
    refine hnext.imp_right fun ⟨u, u', hu, hu', hside'⟩ => ?_
    exact ⟨u, u', hu, hu', hs₀.trans hu.upto, hside'⟩
  cases hside with
  | entry hmem => exact .inr (Side.entry_advance hs hmem)
  | loop hmem hrun hrun' hi ht4 ht4' =>
      exact .inr (Side.loop_advance hs hmem hrun hrun' hi ht4 ht4')
  | next hmem hrun hrun' ht4 => exact .inr (Side.next_advance hs hmem hrun hrun' ht4)
  | ret hmem => exact absurd rfl hns
  | lockstep hmem hrun hrun' hregs hchecks =>
      exact Side.lockstep_advance hs hmem hrun hrun' hregs hchecks hns (hstores _ hs₀)
        (hreads _ hs₀)

end Diagram

end Ps2rd.Engine
