import Ps2rd.Engine.Handlers

/-!
# CodeHandler implements the cheat language

The main loop of `CodeHandler` fetches a line, finds the handler of its type in
the jump table and comes back to `next`, where the index is advanced.  The loop
is followed along the walk of the interpreter over the list: a handler does what
`exec` does for its line (`Handlers`), and neither the jump table nor the lines
still ahead are changed by it, because no code writes to the engine's memory.
-/

namespace Ps2rd.Engine

open Mips

/-- The engine as the loader leaves it: the number of codes, the jump table and
the code list. -/
structure Loaded (p : Placement) (codes : List Line) (m : Mem) : Prop where
  numcodes : m.load32 (p.sym .numcodes) = BitVec.ofNat 32 codes.length
  table : ∀ t < 16, m.load32 (p.sym .typeTab + BitVec.ofNat 32 (4 * t)) = p.tableWord t
  list : ListAt (p.sym .codelist) codes m

/-- The address of a line of the code list. -/
def Placement.lineAt (p : Placement) (i : ℕ) : Word := p.sym .codelist + BitVec.ofNat 32 (8 * i)

theorem Placement.lineAt_zero (p : Placement) : p.lineAt 0 = p.sym .codelist := by
  simp [lineAt]

theorem Placement.lineAt_succ (p : Placement) (i : ℕ) : p.lineAt (i + 1) = p.lineAt i + 8 := by
  rw [lineAt, lineAt, Nat.mul_succ, BitVec.ofNat_add, BitVec.add_assoc]
  rfl

theorem Placement.aligned_lineAt (p : Placement) (i : ℕ) : Aligned 4 (p.lineAt i) := by
  refine (p.aligned .codelist).add ?_
  unfold Aligned
  rw [BitVec.toNat_ofNat]
  omega

/-- The walk has come to line `i` of `n`; `rest` are the lines from there on. -/
structure Walking (p : Placement) (n i : ℕ) (rest : List Line) (m : Mem) : Prop where
  table : ∀ t < 16, m.load32 (p.sym .typeTab + BitVec.ofNat 32 (4 * t)) = p.tableWord t
  list : ListAt (p.lineAt i) rest m
  length : i + rest.length = n
  bound : n ≤ maxcodes

/-- The registers of the main loop. -/
structure Running (p : Placement) (n : ℕ) (c : Core) : Prop where
  t0 : c.get .t0 = sx (p.sym .codelist)
  t1 : c.get .t1 = sx (p.sym .typeTab)
  t3 : c.get .t3 = sx (BitVec.ofNat 32 n)

theorem Running.of_keeps {p : Placement} {n : ℕ} {c c' : Core} (h : Running p n c)
    (hkeeps : Keeps c c') : Running p n c' :=
  ⟨hkeeps.t0.trans h.t0, hkeeps.t1.trans h.t1, hkeeps.t3.trans h.t3⟩

section

variable {p : Placement} {n i : ℕ} {line : Line} {rest : List Line} {c : Core}

/-! ### Dispatch -/

theorem leads_resumes_of_keeps {c' : Core} {o : Outcome} {s : State Label Sym}
    (hkeeps : Keeps c c') (hmem : c'.mem = c.mem)
    (h : codeHandler.Leads p.toLayout s (Resumes c' i o)) :
    codeHandler.Leads p.toLayout s (Resumes c i o) := by
  cases o with
  | next m skip => exact leads_resumed_of_keeps hkeeps h
  | stop =>
      exact h.trans fun _ ⟨hpc, hmem', hkeeps'⟩ =>
        .here ⟨hpc, hmem'.trans hmem, hkeeps.trans hkeeps'⟩

theorem locate_entry (p : Placement) (l : Label) :
    codeHandler.locate p.toLayout (p.entry l) = codeHandler.start l := by
  have hfind : labels.find? (fun l' => p.entry l' = p.entry l) = some l := by
    simp only [p.entry_injective.eq_iff]
    cases l <;> rfl
  unfold Program.locate
  rw [show codeHandler.labels = labels from rfl, hfind]

theorem SecondAt.of_listAt {here : Word} {m : Mem} (h : ListAt here (line :: rest) m)
    (hrest : rest ≠ []) : SecondAt here (rest.headD ⟨0, 0⟩) m := by
  obtain ⟨second, rest, rfl⟩ := List.exists_cons_of_ne_nil hrest
  obtain ⟨-, -, haddr, hval, -⟩ := h
  refine ⟨haddr, ?_⟩
  rw [BitVec.add_assoc] at hval
  exact hval

/-- Every handler does what the interpreter does for its code type. -/
theorem handler_resumes {here : Word} {l : Label} (h : Handling here i line c)
    (hne : line.addr ≠ 0) (hok : LineOk p.own line rest c.mem)
    (hsecond : rest ≠ [] → SecondAt here (rest.headD ⟨0, 0⟩) c.mem)
    (hl : handler line.type = some l) :
    codeHandler.Leads p.toLayout ⟨c, codeHandler.start l⟩
      (Resumes c i (exec here line (rest.headD ⟨0, 0⟩) c.mem)) := by
  unfold exec
  rw [if_neg hne]
  unfold LineOk at hok
  generalize line.type = t at hok hl ⊢
  unfold handler at hl
  split at hl <;> cases hl
  · exact type0_resumes h
  · exact type1_resumes h hok.1
  · exact type2_resumes h hok.1
  · exact type3_resumes h hok.1 hok.2.2.1 (fun h4 => hsecond (hok.2.1 h4))
  · exact type4_resumes h hok.2.1 hok.2.2.1 (hsecond hok.1)
  · exact type5_resumes h hok.2.1 hok.2.2.1 hok.2.2.2.1 (hsecond hok.1)
  · exact type6_resumes h hok.2.1 hok.2.2.1 hok.2.2.2.1 hok.2.2.2.2.1
      (fun hbase => (hok.2.2.2.2.2 hbase).aligned) (hsecond hok.1)
  · exact type7_resumes h hok.1 hok.2.1
  · exact typeC_resumes h hok
  · exact typeD_resumes h.a0 h.a1 h.t4 hok
  · exact typeE_resumes h hok.1 hok.2

theorem shl_three (i : ℕ) : BitVec.ofNat 32 i <<< 3 = BitVec.ofNat 32 (8 * i) := by
  apply BitVec.eq_of_toNat_eq
  simp only [BitVec.toNat_shiftLeft, BitVec.toNat_ofNat, Nat.shiftLeft_eq]
  omega

theorem tableOffset (line : Line) :
    line.addr >>> 28 <<< 2 = BitVec.ofNat 32 (4 * line.type) := by
  have h := line.type_lt
  rw [shr_28]
  apply BitVec.eq_of_toNat_eq
  unfold Line.type at *
  simp only [BitVec.toNat_shiftLeft, BitVec.toNat_ofNat, Nat.shiftLeft_eq, BitVec.toNat_setWidth]
  omega

theorem exec_of_zero {here : Word} {second : Line} {m : Mem} (h : line.addr = 0) :
    exec here line second m = .next m 0 :=
  if_pos h

theorem exec_of_handler_none {here : Word} {m : Mem} (h : handler line.type = none) :
    exec here line (rest.headD ⟨0, 0⟩) m = .next m 0 := by
  by_cases hzero : line.addr = 0
  · exact exec_of_zero hzero
  · rw [exec, if_neg hzero]
    split <;> first | rfl | (rename_i htype; rw [htype] at h; cases h)

/-- The handler that `ch_loop` calls for a line. -/
def Line.handler (line : Line) : Option Label :=
  if line.addr = 0 then none else Engine.handler line.type

theorem exec_of_not_handler {here : Word} {m : Mem} (h : line.handler = none) :
    exec here line (rest.headD ⟨0, 0⟩) m = .next m 0 := by
  unfold Line.handler at h
  split_ifs at h with hzero
  · exact exec_of_zero hzero
  · exact exec_of_handler_none h

/-- Line `i` has been fetched and its handler is about to be entered; a line that
does nothing goes to `next` at once. -/
structure Dispatched (p : Placement) (i : ℕ) (line : Line) (c : Core) (s : State Label Sym) :
    Prop where
  pc : s.pc = codeHandler.start (line.handler.getD .next)
  mem : s.core.mem = c.mem
  t4 : s.core.get .t4 = sx (BitVec.ofNat 32 i)
  handling : line.handler ≠ none → Handling (p.lineAt i) i line s.core
  keeps : Keeps c s.core

theorem chLoop_comes (hrun : Running p n c) (ht4 : c.get .t4 = sx (BitVec.ofNat 32 i))
    (htable : ∀ t < 16, c.mem.load32 (p.sym .typeTab + BitVec.ofNat 32 (4 * t)) = p.tableWord t)
    (haddr : c.mem.load32 (p.lineAt i) = line.addr)
    (hval : c.mem.load32 (p.lineAt i + 4) = line.val) :
    codeHandler.Comes p.toLayout AtReturn ⟨c, codeHandler.start .chLoop⟩
      (Dispatched p i line c) := by
  have hhere : p.sym .codelist + BitVec.ofNat 32 i <<< 3 = p.lineAt i := by
    rw [shl_three]
    rfl
  have hal := p.aligned_lineAt i
  have hgoes {d : Core} {rest : List (Instr Label Sym)} : ¬ AtReturn ⟨d, .block .chLoop rest⟩ :=
    not_atReturn (by decide)
  refine .head hgoes (Program.step_op rfl) (.head hgoes (Program.step_op rfl)
    (.head hgoes (Program.step_op (Op.exec_lw (a := p.lineAt i) ?_ hal)) ?_))
  · simpa [Core.addr, hrun.t0, ht4] using hhere
  -- a line with address 0 goes to `next` before the table is read
  by_cases hzero : line.addr = 0#32
  · have hnone : line.handler = none := if_pos hzero
    refine .head hgoes (Program.step_taken ?_ rfl) (.here ⟨?_, rfl, ?_, ?_, ?_⟩)
    · simpa [Test.holds, haddr] using hzero
    · rw [hnone]
      rfl
    · simp [ht4]
    · exact fun hne => absurd hnone hne
    · constructor <;> simp
  have hhandler : line.handler = Engine.handler line.type := if_neg hzero
  have htable := htable line.type line.type_lt
  have halTable : Aligned 4 (p.sym .typeTab + BitVec.ofNat 32 (4 * line.type)) := by
    refine (p.aligned .typeTab).add ?_
    unfold Aligned
    rw [BitVec.toNat_ofNat]
    omega
  refine .head hgoes (Program.step_notTaken ?_ rfl) (.head hgoes
    (Program.step_op rfl) (.head hgoes (Program.step_op rfl) (.head hgoes
    (Program.step_op (Op.exec_lw (a := p.sym .typeTab + BitVec.ofNat 32 (4 * line.type)) ?_
      halTable)) ?_)))
  · simpa [Test.holds, haddr] using hzero
  · simp [Core.addr, haddr, hrun.t1, tableOffset, BitVec.add_comm]
  -- the table has the address of the handler, or 0 for a type without one
  cases hl : Engine.handler line.type with
  | none =>
      rw [Placement.tableWord, hl] at htable
      rw [hl] at hhandler
      refine .head hgoes (Program.step_taken ?_ rfl) (.here ⟨?_, rfl, ?_, ?_, ?_⟩)
      · simpa [Test.holds] using htable
      · rw [hhandler]
        rfl
      · simp [ht4]
      · exact fun hne => absurd hhandler hne
      · constructor <;> simp
  | some l =>
      rw [Placement.tableWord, hl] at htable
      rw [hl] at hhandler
      refine .head hgoes (Program.step_notTaken ?_ rfl) (.head hgoes
        (Program.step_op rfl) (.head hgoes (Program.step_jr (a := p.entry l) ?_
        (Op.exec_lw (a := p.lineAt i + 4) ?_ (hal.add (by decide)))) (.here ⟨?_, rfl, ?_, ?_, ?_⟩)))
      · simpa [Test.holds, htable] using p.entry_ne_zero l
      · simpa using htable
      · simpa [Core.addr, hrun.t0, ht4, BitVec.add_assoc] using congrArg (· + 4#32) hhere
      · rw [hhandler]
        exact locate_entry p l
      · simp [ht4]
      · refine fun _ => ⟨?_, ?_, ?_, ?_, hal⟩
        · simp [haddr, shl_shr_seven]
        · simpa using hval
        · simpa [hrun.t0, ht4] using hhere
        · simp [ht4]
      · constructor <;> simp

/-- One round of the main loop: the handler of the line, or `next` at once for a
line that does nothing. -/
theorem chLoop_resumes (hrun : Running p n c) (ht4 : c.get .t4 = sx (BitVec.ofNat 32 i))
    (hwalk : Walking p n i (line :: rest) c.mem)
    (hok : line.addr ≠ 0 → LineOk p.own line rest c.mem) :
    codeHandler.Leads p.toLayout ⟨c, codeHandler.start .chLoop⟩
      (Resumes c i (exec (p.lineAt i) line (rest.headD ⟨0, 0⟩) c.mem)) := by
  obtain ⟨haddr, hval, -⟩ := hwalk.list
  obtain ⟨⟨d, pc⟩, hup, hpc, hmem, ht4', hhandling, hkeeps⟩ :=
    chLoop_comes hrun ht4 hwalk.table haddr hval
  subst hpc
  refine hup.leads ?_
  cases hl : line.handler with
  | none =>
      rw [exec_of_not_handler hl]
      exact .here ⟨rfl, hmem, ht4', hkeeps⟩
  | some l =>
      have hhandling := hhandling (by rw [hl]; exact Option.some_ne_none l)
      have hzero : line.addr ≠ 0 := by
        intro hzero
        rw [Line.handler, if_pos hzero] at hl
        cases hl
      rw [Line.handler, if_neg hzero] at hl
      refine leads_resumes_of_keeps hkeeps hmem ?_
      rw [← hmem] at hok ⊢
      exact handler_resumes hhandling hzero (hok hzero)
        (fun hrest => hmem ▸ SecondAt.of_listAt hwalk.list hrest) hl

/-! ### The engine's memory along the walk -/

/-- A line of the list lies in the engine's memory. -/
theorem Placement.inRange_codelist {p : Placement} {k : ℕ} {b : Word}
    (hb : InRange (p.lineAt i) k b) (hk : 8 * i + k ≤ 8 * maxcodes) :
    InRange (p.sym .codelist) (8 * maxcodes) b := by
  have hlt : 8 * i + k < 2 ^ 32 := by
    unfold maxcodes at hk
    omega
  exact (hb.of_add hlt).mono hk

theorem Walking.tail {m : Mem} (h : Walking p n i (line :: rest) m) :
    Walking p n (i + 1) rest m := by
  refine ⟨h.table, ?_, ?_, h.bound⟩
  · rw [p.lineAt_succ]
    exact h.list.2.2
  · have hlen := h.length
    rw [List.length_cons] at hlen
    omega

/-- What holds of the memory when line `i` is reached still holds after it. -/
theorem Walking.exec {m m' : Mem} {skip : ℕ} (h : Walking p n i (line :: rest) m)
    (hok : line.addr ≠ 0 → LineOk p.own line rest m)
    (hexec : Engine.exec (p.lineAt i) line (rest.headD ⟨0, 0⟩) m = .next m' skip) :
    Walking p n (i + 1) rest m' := by
  have hlen := h.length
  have hbound := h.bound
  rw [List.length_cons] at hlen
  refine ⟨fun t ht => ?_, ?_, by omega, hbound⟩
  · rw [← h.table t ht]
    refine Mem.load32_congr fun b hb => ?_
    have hb64 : InRange (p.sym .typeTab) 64 b := (hb.of_add (by omega)).mono (by omega)
    refine exec_frame hok hexec (p.own_typeTab b hb64) fun hhere => p.disjoint b hb64 ?_
    exact p.inRange_codelist hhere (by omega)
  · have hsize : 8 * rest.length < 2 ^ 32 := by
      unfold maxcodes at hbound
      omega
    refine h.tail.list.congr hsize fun b hb => (exec_frame hok hexec ?_ ?_).symm
    · exact p.own_codelist b (p.inRange_codelist hb (by omega))
    · rw [p.lineAt_succ] at hb
      refine hb.not_of_add (k := 8) ?_
      unfold maxcodes at hbound
      omega

/-- The number of lines to pass over fits a byte. -/
theorem exec_skip_le {here : Word} {second : Line} {m m' : Mem} {skip : ℕ}
    (hexec : exec here line second m = .next m' skip) : skip ≤ 255 := by
  have hdoIf : ∀ {a val : Word} {m₁ : Mem}, doIf a val m₁ = .next m' skip → skip ≤ 255 := by
    intro a val m₁ h
    have hlt := (val.extractLsb' 24 8).isLt
    simp only [doIf, condLines] at h
    cases h
    split_ifs <;> omega
  unfold exec increment pointerWrite boolean at hexec
  by_cases hzero : line.addr = 0
  · rw [if_pos hzero] at hexec
    cases hexec
    omega
  rw [if_neg hzero] at hexec
  split at hexec
  case h_10 | h_11 => exact hdoIf hexec
  all_goals
    first
      | (cases hexec; omega)
      | (split at hexec <;> cases hexec <;> omega)
      | (dsimp only at hexec; split at hexec <;> cases hexec <;> omega)

/-! ### The whole run -/

/-- Control is back at the return address, with memory `m`. -/
structure Returned (p : Placement) (ret : Word) (m : Mem) (s : State Label Sym) : Prop where
  pc : s.pc = codeHandler.locate p.toLayout ret
  mem : s.core.mem = m

theorem chRet_returns {m : Mem} (hmem : c.mem = m) :
    codeHandler.Leads p.toLayout ⟨c, codeHandler.start .chRet⟩
      (Returned p (lo (c.get .ra)) m) :=
  .jr rfl rfl (.here ⟨rfl, hmem⟩)

/-- `next` has advanced the index and compared it with the number of codes. -/
structure Advanced (n : ℕ) (c : Core) (s : State Label Sym) : Prop where
  pc : s.pc = codeHandler.start (if (lo (c.get .t4) + 1#32).toNat < n then .chLoop else .chRet)
  mem : s.core.mem = c.mem
  t4 : s.core.get .t4 = sx (lo (c.get .t4) + 1#32)
  keeps : Keeps c s.core

theorem next_comes (hrun : Running p n c) (hn : n < 2 ^ 32) :
    codeHandler.Comes p.toLayout AtReturn ⟨c, codeHandler.start .next⟩ (Advanced n c) := by
  have hcmp : lo (c.get .t4) + 1#32 < BitVec.ofNat 32 n ↔ (lo (c.get .t4) + 1#32).toNat < n := by
    rw [BitVec.lt_def, BitVec.toNat_ofNat, Nat.mod_eq_of_lt hn]
  have hgoes {d : Core} {rest : List (Instr Label Sym)} : ¬ AtReturn ⟨d, .block .next rest⟩ :=
    not_atReturn (by decide)
  refine .head hgoes (Program.step_op rfl) (.head hgoes (Program.step_op rfl) ?_)
  by_cases hlt : (lo (c.get .t4) + 1#32).toNat < n
  · refine .head hgoes (Program.step_taken ?_ rfl) (.here ⟨?_, rfl, ?_, ?_⟩)
    · simpa [Test.holds, hrun.t3, hcmp] using hlt
    · rw [if_pos hlt]
    · simp
    · constructor <;> simp
  · refine .head hgoes (Program.step_notTaken ?_ rfl) (.head hgoes
      (Program.step_fall rfl) (.here ⟨?_, rfl, ?_, ?_⟩))
    · simpa [Test.holds, hrun.t3, ← BitVec.not_lt, hcmp] using hlt
    · rw [if_neg hlt]
    · simp
    · constructor <;> simp

/-- At `next` the index is advanced and compared with the number of codes. -/
theorem next_leads {j : ℕ} {Q : State Label Sym → Prop} (hrun : Running p n c)
    (ht4 : c.get .t4 = sx (BitVec.ofNat 32 j)) (hj : j + 1 < 2 ^ 32) (hn : n < 2 ^ 32)
    (hloop : j + 1 < n → ∀ c' : Core, Keeps c c' → c'.mem = c.mem →
      c'.get .t4 = sx (BitVec.ofNat 32 (j + 1)) →
      codeHandler.Leads p.toLayout ⟨c', codeHandler.start .chLoop⟩ Q)
    (hend : n ≤ j + 1 → ∀ c' : Core, Keeps c c' → c'.mem = c.mem →
      codeHandler.Leads p.toLayout ⟨c', codeHandler.start .chRet⟩ Q) :
    codeHandler.Leads p.toLayout ⟨c, codeHandler.start .next⟩ Q := by
  have hsum : lo (c.get .t4) + 1#32 = BitVec.ofNat 32 (j + 1) := by
    rw [ht4, lo_sx, BitVec.ofNat_add]
  have hnat : (BitVec.ofNat 32 (j + 1)).toNat = j + 1 := by
    rw [BitVec.toNat_ofNat, Nat.mod_eq_of_lt hj]
  obtain ⟨⟨d, pc⟩, hup, hpc, hmem, ht4', hkeeps⟩ := next_comes hrun hn
  rw [hsum] at ht4'
  rw [hsum, hnat] at hpc
  subst hpc
  refine hup.leads ?_
  by_cases hlt : j + 1 < n
  · rw [if_pos hlt]
    exact hloop hlt d hkeeps hmem ht4'
  · rw [if_neg hlt]
    exact hend (by omega) d hkeeps hmem

/-- The number of codes has been loaded, and the registers of the main loop. -/
structure Entered (p : Placement) (n : ℕ) (c : Core) (s : State Label Sym) : Prop where
  pc : s.pc = codeHandler.start (if n = 0 then .chRet else .chLoop)
  mem : s.core.mem = c.mem
  ra : s.core.get .ra = c.get .ra
  loop : n ≠ 0 → Running p n s.core ∧ s.core.get .t4 = sx (BitVec.ofNat 32 0)

theorem entry_comes (hnum : c.mem.load32 (p.sym .numcodes) = BitVec.ofNat 32 n)
    (hn : n < 2 ^ 32) :
    codeHandler.Comes p.toLayout AtReturn ⟨c, codeHandler.start .codeHandler⟩
      (Entered p n c) := by
  have hgoes {d : Core} {rest : List (Instr Label Sym)} :
      ¬ AtReturn ⟨d, .block .codeHandler rest⟩ := not_atReturn (by decide)
  refine .head hgoes (Program.step_op (Op.exec_lwSym (p.aligned .numcodes))) ?_
  by_cases hzero : n = 0
  · refine .head hgoes (Program.step_taken ?_ rfl) (.here ⟨?_, rfl, ?_, ?_⟩)
    · simpa [Test.holds, hzero] using hnum
    · rw [if_pos hzero]
    · simp
    · exact fun hne => absurd hzero hne
  · refine .head hgoes (Program.step_notTaken ?_ rfl) (.head hgoes
      (Program.step_op rfl) (.head hgoes (Program.step_op rfl) (.head hgoes
      (Program.step_fall rfl) (.here ⟨?_, rfl, ?_, fun _ => ⟨⟨?_, ?_, ?_⟩, ?_⟩⟩))))
    · simpa [Test.holds, hnum] using ofNat_ne_zero (Nat.pos_of_ne_zero hzero) hn
    · rw [if_neg hzero]
    · simp
    · simp
    · simp
    · simpa using hnum
    · simp

/-- The run from `next` on, with `rest` the lines from index `i` on and `k` of
them to be passed over. -/
def NextReturns (p : Placement) (n : ℕ) (rest : List Line) : Prop :=
  ∀ {c : Core} {i j k : ℕ}, Running p n c → c.get .t4 = sx (BitVec.ofNat 32 j) → j + 1 = i + k →
    k ≤ 255 → Walking p n i rest c.mem → WalkOk p.own (p.lineAt i) k rest c.mem →
    codeHandler.Leads p.toLayout ⟨c, codeHandler.start .next⟩
      (Returned p (lo (c.get .ra)) (walk (p.lineAt i) k rest c.mem))

/-- The run from `ch_loop` on, which executes the first of the lines ahead. -/
theorem chLoop_returns (hnext : NextReturns p n rest) (hrun : Running p n c)
    (ht4 : c.get .t4 = sx (BitVec.ofNat 32 i)) (hwalk : Walking p n i (line :: rest) c.mem)
    (hok : WalkOk p.own (p.lineAt i) 0 (line :: rest) c.mem) :
    codeHandler.Leads p.toLayout ⟨c, codeHandler.start .chLoop⟩
      (Returned p (lo (c.get .ra)) (walk (p.lineAt i) 0 (line :: rest) c.mem)) := by
  obtain ⟨hline, hrest⟩ := hok
  have hround := chLoop_resumes hrun ht4 hwalk hline
  rw [walk]
  cases hexec : exec (p.lineAt i) line (rest.headD ⟨0, 0⟩) c.mem with
  | stop =>
      rw [hexec] at hround
      refine hround.trans fun s ⟨hpc, hmem, hkeeps⟩ => ?_
      obtain ⟨c', pc⟩ := s
      subst hpc
      rw [← hkeeps.ra]
      exact chRet_returns hmem
  | next m skip =>
      rw [hexec] at hround hrest
      refine hround.trans fun s hs => ?_
      obtain ⟨c', pc⟩ := s
      obtain ⟨rfl, rfl, ht4', hkeeps⟩ := hs
      rw [← hkeeps.ra]
      simp only [← p.lineAt_succ] at hrest ⊢
      exact hnext (hrun.of_keeps hkeeps) ht4' (by omega) (exec_skip_le hexec)
        (hwalk.exec hline hexec) hrest

theorem next_returns (p : Placement) (n : ℕ) (rest : List Line) : NextReturns p n rest := by
  induction rest with
  | nil =>
      intro c i j k hrun ht4 hj hk hwalk hok
      have hlen := hwalk.length
      have hbound := hwalk.bound
      unfold maxcodes at hbound
      rw [List.length_nil] at hlen
      refine next_leads hrun ht4 (by omega) (by omega) (by omega) ?_
      intro _ c' hkeeps hmem
      rw [← hkeeps.ra]
      exact chRet_returns hmem
  | cons line rest ih =>
      intro c i j k hrun ht4 hj hk hwalk hok
      cases k with
      | succ k =>
          -- a line that is passed over takes no step of the machine
          rw [WalkOk, ← p.lineAt_succ] at hok
          rw [walk, ← p.lineAt_succ]
          exact ih hrun ht4 (by omega) (by omega) hwalk.tail hok
      | zero =>
          have hlen := hwalk.length
          have hbound := hwalk.bound
          unfold maxcodes at hbound
          rw [List.length_cons] at hlen
          refine next_leads hrun ht4 (by omega) (by omega) ?_ (by omega)
          intro _ c' hkeeps hmem ht4'
          rw [hj, Nat.add_zero] at ht4'
          rw [← hkeeps.ra]
          rw [← hmem] at hwalk hok ⊢
          exact chLoop_returns ih (hrun.of_keeps hkeeps) ht4' hwalk hok

/-- One run of `CodeHandler` leaves the memory that the interpreter leaves. -/
theorem codeHandler_refines (p : Placement) {codes : List Line} {c : Core}
    (hloaded : Loaded p codes c.mem) (hlen : codes.length ≤ maxcodes)
    (hok : WalkOk p.own (p.sym .codelist) 0 codes c.mem) :
    codeHandler.Leads p.toLayout ⟨c, codeHandler.start .codeHandler⟩
      (Returned p (lo (c.get .ra)) (interpret (p.sym .codelist) codes c.mem)) := by
  have hn : codes.length < 2 ^ 32 := by
    unfold maxcodes at hlen
    omega
  obtain ⟨⟨d, pc⟩, hup, hpc, hmem, hra, hloop⟩ := entry_comes hloaded.numcodes hn
  dsimp only at hmem hra hloop
  subst hpc
  refine hup.leads ?_
  rw [← hra]
  cases codes with
  | nil => exact chRet_returns hmem
  | cons line rest =>
      have hne : (line :: rest).length ≠ 0 := Nat.succ_ne_zero rest.length
      obtain ⟨hrun, ht4⟩ := hloop hne
      rw [if_neg hne]
      rw [interpret, ← hmem, ← p.lineAt_zero]
      rw [← hmem, ← p.lineAt_zero] at hok
      refine chLoop_returns (next_returns p (line :: rest).length rest) hrun ht4
        ⟨?_, ?_, Nat.zero_add _, hlen⟩ hok
      · rw [hmem]
        exact hloaded.table
      · rw [hmem, p.lineAt_zero]
        exact hloaded.list

end

/-! ### A placement and a run -/

/-- An address range at the start of the user memory. -/
def sampleOwn (a : Word) : Prop := 0x80000 ≤ a.toNat ∧ a.toNat < 0x90000

theorem sampleOwn_of_inRange {a b : Word} {n : ℕ} (h : InRange a n b) (hlow : 0x80000 ≤ a.toNat)
    (hhigh : a.toNat + n ≤ 0x90000) : sampleOwn b := by
  have hb := b.isLt
  unfold InRange at h
  unfold sampleOwn
  rw [BitVec.toNat_sub] at h
  omega

theorem free_sampleOwn {a : Word} {n : ℕ} (hlow : 0x90000 ≤ a.toNat)
    (hhigh : a.toNat + n ≤ 2 ^ 32) : Free sampleOwn a n := by
  intro b h hown
  have hb := b.isLt
  unfold InRange at h
  unfold sampleOwn at hown
  rw [BitVec.toNat_sub] at h
  omega

def sampleEntry (l : Label) : Word := BitVec.ofNat 32 (0x80000 + 64 * labels.idxOf l)

def sampleSym : Sym → Word
  | .numcodes => 0x82000
  | .codelist => 0x82100
  | .typeTab => 0x81000

theorem idxOf_labels_lt (l : Label) : labels.idxOf l < 27 := by
  cases l <;> decide

def samplePlacement : Placement where
  entry := sampleEntry
  sym := sampleSym
  own := sampleOwn
  entry_injective := by
    intro l l' h
    have hl := idxOf_labels_lt l
    have hl' := idxOf_labels_lt l'
    unfold sampleEntry at h
    rw [← BitVec.toNat_inj, BitVec.toNat_ofNat, BitVec.toNat_ofNat] at h
    have hidx : labels.idxOf l = labels.idxOf l' := by omega
    exact (List.idxOf_inj (by cases l <;> decide)).mp hidx
  entry_ne_zero := by
    intro l h
    have hl := idxOf_labels_lt l
    unfold sampleEntry at h
    rw [← BitVec.toNat_inj, BitVec.toNat_ofNat] at h
    simp only [BitVec.reduceToNat] at h
    omega
  aligned := by
    intro s
    cases s <;> decide
  text := 0x80000
  textSize := 0x1000
  entry_inRange := by
    intro l
    have hl := idxOf_labels_lt l
    unfold InRange sampleEntry
    rw [BitVec.toNat_sub, BitVec.toNat_ofNat]
    simp only [BitVec.reduceToNat]
    omega
  own_text := fun a h => sampleOwn_of_inRange h (by decide) (by decide)
  own_numcodes := fun a h => sampleOwn_of_inRange h (by decide) (by decide)
  own_typeTab := fun a h => sampleOwn_of_inRange h (by decide) (by decide)
  own_codelist := fun a h => sampleOwn_of_inRange h (by decide) (by decide)
  disjoint := by
    intro a h h'
    unfold InRange sampleSym at h h'
    have ha := a.isLt
    rw [BitVec.toNat_sub] at h h'
    simp only [BitVec.reduceToNat, maxcodes] at h h'
    omega

/-- A condition that does not hold, the line under it, and a 32-bit write. -/
def sampleCodes : List Line :=
  [⟨0xd0100000, 0x00000001⟩, ⟨0x00100000, 0x00000007⟩, ⟨0x20100004, 0x12345678⟩]

def placeWords (m : Mem) (a : Word) : List Word → Mem
  | [] => m
  | w :: ws => placeWords (m.store 4 a w) (a + 4) ws

def sampleMem : Mem :=
  placeWords (placeWords (placeWords (fun _ => 0) (sampleSym .numcodes) [3])
    (sampleSym .typeTab) ((List.range 16).map samplePlacement.tableWord))
    (sampleSym .codelist) (sampleCodes.flatMap fun line => [line.addr, line.val])

def sampleCore : Core := ⟨fun _ => 0, sampleMem⟩

theorem codeHandler_refines_sampleCodes :
    codeHandler.Leads samplePlacement.toLayout ⟨sampleCore, codeHandler.start .codeHandler⟩
      (Returned samplePlacement 0
        (interpret (samplePlacement.sym .codelist) sampleCodes sampleMem)) := by
  have hloaded : Loaded samplePlacement sampleCodes sampleMem :=
    ⟨by decide, by decide,
      ⟨by decide, by decide, by decide, by decide, by decide, by decide, trivial⟩⟩
  have hfree := free_sampleOwn (a := 0x100004) (n := 4) (by decide) (by decide)
  refine codeHandler_refines samplePlacement hloaded (by decide) ?_
  exact ⟨fun _ => ⟨by decide, by decide, by decide⟩, ⟨fun _ => ⟨by decide, hfree⟩, trivial⟩⟩

end Ps2rd.Engine
