import Ps2rd.Mips.Exec

/-!
# What a program reads, writes and reaches

`Exec` follows one run of a program.  This file is about all of them: which
registers an instruction reads and writes and where it accesses memory, what
every state of a run satisfies, and properties of a stretch of code that can be
checked on its listing, without executing it.
-/

namespace Ps2rd.Mips

variable {L S : Type}

/-- The bytes of a load or a store. -/
structure Access where
  addr : Word
  size : ℕ

/-- The byte is one of those. -/
def Access.Touches (x : Access) (b : Word) : Prop := InRange x.addr x.size b

namespace Op

/-- The register that an instruction writes. -/
def dest : Op S → Option Reg
  | nop | sb _ _ _ | sh _ _ _ | sw _ _ _ | sd _ _ _ => none
  | addiu rt _ _ | andi rt _ _ | li rt _ | la rt _ | lwSym rt _ => some rt
  | addu rd _ _ | subu rd _ _ | and rd _ _ | or rd _ _ | xor rd _ _ | sltu rd _ _ => some rd
  | sll rd _ _ | srl rd _ _ | move rd _ => some rd
  | lb rt _ _ | lbu rt _ _ | lhu rt _ _ | lw rt _ _ | ld rt _ _ => some rt

/-- The registers that it reads. -/
def srcs : Op S → List Reg
  | nop | li _ _ | la _ _ | lwSym _ _ => []
  | addiu _ rs _ | andi _ rs _ | sll _ rs _ | srl _ rs _ | move _ rs => [rs]
  | addu _ rs rt | subu _ rs rt | and _ rs rt | or _ rs rt | xor _ rs rt | sltu _ rs rt => [rs, rt]
  | lb _ _ base | lbu _ _ base | lhu _ _ base | lw _ _ base | ld _ _ base => [base]
  | sb rt _ base | sh rt _ base | sw rt _ base | sd rt _ base => [rt, base]

/-- The size, the offset and the base register of a load. -/
def loadAt : Op S → Option (ℕ × BitVec 16 × Reg)
  | lb _ off base | lbu _ off base => some (1, off, base)
  | lhu _ off base => some (2, off, base)
  | lw _ off base => some (4, off, base)
  | ld _ off base => some (8, off, base)
  | _ => none

/-- The same for a store. -/
def storeAt : Op S → Option (ℕ × BitVec 16 × Reg)
  | sb _ off base => some (1, off, base)
  | sh _ off base => some (2, off, base)
  | sw _ off base => some (4, off, base)
  | sd _ off base => some (8, off, base)
  | _ => none

/-- The bytes that an instruction loads. -/
def loads (sym : S → Word) (c : Core) : Op S → Option Access
  | lwSym _ symbol => some ⟨sym symbol, 4⟩
  | o => o.loadAt.map fun (n, off, base) => ⟨c.addr off base, n⟩

/-- The bytes that it stores. -/
def stores (c : Core) (o : Op S) : Option Access :=
  o.storeAt.map fun (n, off, base) => ⟨c.addr off base, n⟩

end Op

theorem Core.get_set_of_ne (c : Core) {r r' : Reg} (v : BitVec 64) (h : r' ≠ r) :
    (c.set r v).get r' = c.get r' := by
  cases r' <;> first | rfl | exact Function.update_of_ne h _ _

theorem Core.load_eq_some {c d : Core} {n : ℕ} {rt : Reg} {a : Word} {f : Mem → Word → BitVec 64}
    (h : c.load n rt a f = some d) : Aligned n a ∧ d = c.set rt (f c.mem a) := by
  unfold load at h
  split_ifs at h with hal
  cases h
  exact ⟨hal, rfl⟩

theorem Core.store_eq_some {c d : Core} {n : ℕ} {rt : Reg} {a : Word}
    (h : c.store n rt a = some d) : Aligned n a ∧ d = c.setMem (c.mem.store n a (c.get rt)) := by
  unfold store at h
  split_ifs at h with hal
  cases h
  exact ⟨hal, rfl⟩

theorem Op.aligned_of_exec_lw {sym : S → Word} {c d : Core} {rt base : Reg} {off : BitVec 16}
    (h : (Op.lw rt off base).exec sym c = some d) : Aligned 4 (c.addr off base) := by
  rw [exec] at h
  exact (Core.load_eq_some h).1

section Exec

variable {sym : S → Word} {c c' d : Core} {o : Op S}

theorem Op.exec_get (h : o.exec sym c = some d) {r : Reg} (hr : o.dest ≠ some r) :
    d.get r = c.get r := by
  have hne : ∀ {r'}, o.dest = some r' → r ≠ r' := by
    rintro r' hdest rfl
    exact hr hdest
  cases o
  case nop =>
    cases h
    rfl
  case sb | sh | sw | sd =>
    obtain ⟨-, rfl⟩ := Core.store_eq_some h
    exact Core.get_setMem _ _ _
  case lwSym | lb | lbu | lhu | lw | ld =>
    rw [exec] at h
    obtain ⟨-, rfl⟩ := Core.load_eq_some h
    exact Core.get_set_of_ne _ _ (hne rfl)
  all_goals
    cases h
    exact Core.get_set_of_ne _ _ (hne rfl)

theorem Op.exec_mem (h : o.exec sym c = some d) {b : Word}
    (hb : ∀ x ∈ o.stores c, ¬ x.Touches b) : d.mem b = c.mem b := by
  have hout : ∀ {n off base}, o.storeAt = some (n, off, base) →
      ¬ InRange (c.addr off base) n b := by
    intro n off base hat
    exact hb ⟨c.addr off base, n⟩ (by simp [stores, hat])
  cases o
  case sb | sh | sw | sd =>
    obtain ⟨-, rfl⟩ := Core.store_eq_some h
    exact Mem.store_of_not_inRange (hout rfl)
  case lwSym | lb | lbu | lhu | lw | ld =>
    rw [exec] at h
    obtain ⟨-, rfl⟩ := Core.load_eq_some h
    rfl
  all_goals
    cases h
    rfl

/-! ### Cores that agree -/

/-- The registers hold the same values. -/
def Agrees (R : List Reg) (c c' : Core) : Prop := ∀ r ∈ R, c.get r = c'.get r

theorem Agrees.mono {R R' : List Reg} (h : Agrees R c c') (hsub : R' ⊆ R) : Agrees R' c c' :=
  fun r hr => h r (hsub hr)

theorem Agrees.symm {R : List Reg} (h : Agrees R c c') : Agrees R c' c :=
  fun r hr => (h r hr).symm

theorem Agrees.set {R : List Reg} (h : Agrees R c c') (r : Reg) (v : BitVec 64) :
    Agrees (r :: R) (c.set r v) (c'.set r v) := by
  intro r' hr'
  by_cases heq : r' = r
  · subst heq
    cases r' <;> simp [Core.get, Core.set]
  · rw [Core.get_set_of_ne c v heq, Core.get_set_of_ne c' v heq]
    exact h r' ((List.mem_cons.mp hr').resolve_left heq)

theorem Agrees.setMem {R : List Reg} (h : Agrees R c c') (m m' : Mem) :
    Agrees R (c.setMem m) (c'.setMem m') := by
  intro r hr
  rw [Core.get_setMem, Core.get_setMem]
  exact h r hr

theorem Core.load_agrees {R : List Reg} {n : ℕ} {rt : Reg} {a a' : Word}
    {f : Mem → Word → BitVec 64} (hregs : Agrees R c c') (ha : a' = a)
    (h : c.load n rt a f = some d) (hf : f c.mem a = f c'.mem a) :
    ∃ d', c'.load n rt a' f = some d' ∧ Agrees (rt :: R) d d' ∧
      ∀ b, c.mem b = c'.mem b → d.mem b = d'.mem b := by
  subst ha
  obtain ⟨hal, rfl⟩ := Core.load_eq_some h
  refine ⟨c'.set rt (f c.mem a'), ?_, hregs.set rt _, fun b hb => hb⟩
  rw [load, if_pos hal, hf]

theorem Core.store_agrees {R : List Reg} {n : ℕ} {rt : Reg} {a a' : Word}
    (hregs : Agrees R c c') (ha : a' = a) (hrt : c.get rt = c'.get rt)
    (h : c.store n rt a = some d) :
    ∃ d', c'.store n rt a' = some d' ∧ Agrees R d d' ∧
      ∀ b, c.mem b = c'.mem b → d.mem b = d'.mem b := by
  subst ha
  obtain ⟨hal, rfl⟩ := Core.store_eq_some h
  refine ⟨c'.setMem (c'.mem.store n a' (c.get rt)), ?_, hregs.setMem _ _, fun b hb => ?_⟩
  · rw [store, if_pos hal, hrt]
  · simp only [Core.mem_setMem, Mem.store]
    rw [hb]

/-- What the instruction loads is the same in both memories. -/
def LoadsSame (sym : S → Word) (c c' : Core) (o : Op S) : Prop :=
  ∀ x ∈ o.loads sym c, ∀ b, x.Touches b → c.mem b = c'.mem b

theorem Op.loads_of_loadAt (sym : S → Word) (c : Core) {n : ℕ} {off : BitVec 16} {base : Reg}
    (hat : o.loadAt = some (n, off, base)) : o.loads sym c = some ⟨c.addr off base, n⟩ := by
  cases o <;> cases hat <;> rfl

theorem LoadsSame.of_loadAt (h : LoadsSame sym c c' o) {n : ℕ} {off : BitVec 16} {base : Reg}
    (hat : o.loadAt = some (n, off, base)) :
    ∀ b, InRange (c.addr off base) n b → c.mem b = c'.mem b :=
  h ⟨c.addr off base, n⟩ (Op.loads_of_loadAt sym c hat)

theorem Op.addr_congr {R : List Reg} (hregs : Agrees R c c') (hsrcs : o.srcs ⊆ R)
    {off : BitVec 16} {base : Reg} (hbase : base ∈ o.srcs) :
    c'.addr off base = c.addr off base := by
  rw [Core.addr, Core.addr, hregs base (hsrcs hbase)]

/-- An instruction that reads only registers of `R` does the same in two cores that
agree on them. -/
theorem Op.exec_agrees {R : List Reg} (hregs : Agrees R c c') (hsrcs : o.srcs ⊆ R)
    (hsame : LoadsSame sym c c' o) (h : o.exec sym c = some d) :
    ∃ d', o.exec sym c' = some d' ∧ Agrees (o.dest.toList ++ R) d d' ∧
      ∀ b, c.mem b = c'.mem b → d.mem b = d'.mem b := by
  have hsrc : ∀ r ∈ o.srcs, c.get r = c'.get r := fun r hr => hregs r (hsrcs hr)
  cases o
  case nop =>
    cases h
    exact ⟨c', rfl, hregs, fun _ hb => hb⟩
  case sb rt _ _ | sh rt _ _ | sw rt _ _ | sd rt _ _ =>
    exact Core.store_agrees hregs (addr_congr hregs hsrcs (by simp [srcs]))
      (hsrc rt (by simp [srcs])) h
  case lwSym rt symbol =>
    rw [exec] at h ⊢
    exact Core.load_agrees hregs rfl h
      (congrArg sx (Mem.load32_congr (hsame ⟨sym symbol, 4⟩ rfl)))
  case lb =>
    rw [exec] at h ⊢
    exact Core.load_agrees hregs (addr_congr hregs hsrcs (by simp [srcs])) h
      (congrArg (BitVec.signExtend 64) (Mem.load8_congr (hsame.of_loadAt rfl)))
  case lbu =>
    rw [exec] at h ⊢
    exact Core.load_agrees hregs (addr_congr hregs hsrcs (by simp [srcs])) h
      (congrArg (BitVec.setWidth 64) (Mem.load8_congr (hsame.of_loadAt rfl)))
  case lhu =>
    rw [exec] at h ⊢
    exact Core.load_agrees hregs (addr_congr hregs hsrcs (by simp [srcs])) h
      (congrArg (BitVec.setWidth 64) (Mem.load16_congr (hsame.of_loadAt rfl)))
  case lw =>
    rw [exec] at h ⊢
    exact Core.load_agrees hregs (addr_congr hregs hsrcs (by simp [srcs])) h
      (congrArg sx (Mem.load32_congr (hsame.of_loadAt rfl)))
  case ld =>
    rw [exec] at h ⊢
    exact Core.load_agrees hregs (addr_congr hregs hsrcs (by simp [srcs])) h
      (Mem.load64_congr (hsame.of_loadAt rfl))
  case li | la =>
    cases h
    exact ⟨_, rfl, hregs.set _ _, fun _ hb => hb⟩
  -- what is left computes a register from the sources alone
  all_goals
    cases h
    simp only [srcs, List.mem_cons, List.not_mem_nil, or_false, forall_eq_or_imp,
      forall_eq] at hsrc
    refine ⟨_, rfl, ?_, fun b hb => hb⟩
    simp only [← hsrc]
    exact hregs.set _ _

theorem Op.loads_congr {R : List Reg} (hregs : Agrees R c c') (hsrcs : o.srcs ⊆ R) :
    o.loads sym c' = o.loads sym c := by
  cases o
  case lb | lbu | lhu | lw | ld =>
    exact congrArg (fun a => some (Access.mk a _)) (addr_congr hregs hsrcs (by simp [srcs]))
  all_goals rfl

theorem LoadsSame.symm {R : List Reg} (hregs : Agrees R c c') (hsrcs : o.srcs ⊆ R)
    (h : LoadsSame sym c c' o) : LoadsSame sym c' c o := by
  intro x hx b hb
  rw [Op.loads_congr hregs hsrcs] at hx
  exact (h x hx b hb).symm

theorem Op.stores_congr {R : List Reg} (hregs : Agrees R c c') (hsrcs : o.srcs ⊆ R) :
    o.stores c' = o.stores c := by
  cases o
  case sb | sh | sw | sd =>
    exact congrArg (fun a => some (Access.mk a _)) (addr_congr hregs hsrcs (by simp [srcs]))
  all_goals rfl

/-- The registers that a branch compares. -/
def Test.regs : Test → List Reg
  | eqz rs | nez rs | gtz rs => [rs]
  | eq rs rt | ne rs rt => [rs, rt]

theorem Test.holds_congr {R : List Reg} {test : Test} (hregs : Agrees R c c')
    (hsub : test.regs ⊆ R) : test.holds c ↔ test.holds c' := by
  have hreg : ∀ r ∈ test.regs, c.get r = c'.get r := fun r hr => hregs r (hsub hr)
  cases test <;>
    simp only [regs, List.mem_cons, List.not_mem_nil, or_false, forall_eq_or_imp, forall_eq]
      at hreg <;>
    simp only [holds, hreg]

end Exec

/-! ### What one step does -/

/-- The instruction that the next step executes, which may stand in a delay slot. -/
def State.executes (s : State L S) : Option (Op S) :=
  match s.pc with
  | .block _ (.op o :: _) => some o
  | .block _ (.branch test likely _ :: .op slot :: _) =>
      if test.holds s.core ∨ likely = false then some slot else none
  | .block _ (.b _ :: .op slot :: _) => some slot
  | .block _ (.jr _ :: .op slot :: _) => some slot
  | .block _ (.j _ :: .op slot :: _) => some slot
  | _ => none

/-- Its effect on registers and memory. -/
def State.executed (sym : S → Word) (s : State L S) : Option Core :=
  match s.executes with
  | none => some s.core
  | some o => o.exec sym s.core

namespace Program

variable [DecidableEq L] (P : Program L S) (layout : Layout L S)

/-- The place that the next step goes to. -/
def goes (s : State L S) : Option (Loc L S) :=
  match s.pc with
  | .out _ => none
  | .block l [] => (P.after l).map P.start
  | .block l (.op _ :: rest) => some (.block l rest)
  | .block l (.branch test _ target :: .op _ :: rest) =>
      some (if test.holds s.core then P.start target else .block l rest)
  | .block _ (.b target :: .op _ :: _) => some (P.start target)
  | .block _ (.jr rs :: .op _ :: _) => some (P.locate layout (lo (s.core.get rs)))
  | .block _ (.j symbol :: .op _ :: _) => some (P.locate layout (layout.sym symbol))
  | _ => none

variable {P layout}

/-- A step executes one instruction at most and goes to one place. -/
theorem step_eq_some_iff {s t : State L S} :
    P.step layout s = some t ↔
      P.goes layout s = some t.pc ∧ s.executed layout.sym = some t.core := by
  obtain ⟨c, pc⟩ := s
  obtain ⟨d, pc'⟩ := t
  unfold step goes State.executed State.executes
  dsimp only
  split
  case h_4 test likely target slot rest =>
    by_cases ht : test.holds c
    · simp [ht, and_comm]
    · cases likely <;> simp [ht, and_comm]
  case h_2 l =>
    cases hnext : P.after l <;> simp_all [and_comm]
  all_goals simp_all [and_comm]

variable (P layout) in
/-- The states from `s` on, up to the first one at which `stop` holds. -/
inductive Upto (stop : State L S → Prop) (s : State L S) : State L S → Prop
  | here : Upto stop s s
  | next {t u : State L S} (h : Upto stop s t) (hns : ¬ stop t)
      (hstep : P.step layout t = some u) : Upto stop s u

namespace Upto

variable {stop : State L S → Prop} {s t u : State L S}

theorem trans (hst : P.Upto layout stop s t) (htu : P.Upto layout stop t u) :
    P.Upto layout stop s u := by
  induction htu with
  | here => exact hst
  | next _ hns hstep ih => exact ih.next hns hstep

theorem head (hns : ¬ stop s) (hstep : P.step layout s = some t) (h : P.Upto layout stop t u) :
    P.Upto layout stop s u :=
  (here.next hns hstep).trans h

theorem cases_head (h : P.Upto layout stop s u) :
    u = s ∨ ¬ stop s ∧ ∃ t, P.step layout s = some t ∧ P.Upto layout stop t u := by
  induction h with
  | here => exact .inl rfl
  | @next t u _ hns hstep ih =>
      refine .inr ?_
      rcases ih with rfl | ⟨hns', t', hstep', hup⟩
      · exact ⟨hns, u, hstep, here⟩
      · exact ⟨hns', t', hstep', hup.next hns hstep⟩

theorem eq_of_stop (hstop : stop s) (h : P.Upto layout stop s u) : u = s := by
  rcases h.cases_head with heq | ⟨hns, -⟩
  · exact heq
  · exact absurd hstop hns

/-- A run that comes to its end comes there from each of its states. -/
theorem toward (ht : P.Upto layout stop s t) (hu : P.Upto layout stop s u) (hstop : stop u) :
    P.Upto layout stop t u := by
  induction ht with
  | here => exact hu
  | next _ hns hstep ih =>
      rcases ih.cases_head with rfl | ⟨-, t₁, hstep₁, hup⟩
      · exact absurd hstop hns
      · rw [hstep] at hstep₁
        cases hstep₁
        exact hup

theorem leads {Q : State L S → Prop} (h : P.Upto layout stop s t) (ht : P.Leads layout t Q) :
    P.Leads layout s Q := by
  induction h with
  | here => exact ht
  | next _ _ hstep ih => exact ih (.of_step hstep ht)

end Upto

variable (P layout) in
/-- From `s` a state with `Q` is reached before `stop` holds. -/
def Comes (stop : State L S → Prop) (s : State L S) (Q : State L S → Prop) : Prop :=
  ∃ t, P.Upto layout stop s t ∧ Q t

namespace Comes

variable {stop Q : State L S → Prop} {s t : State L S}

theorem here (h : Q s) : P.Comes layout stop s Q := ⟨s, .here, h⟩

theorem head (hns : ¬ stop s) (hstep : P.step layout s = some t) (h : P.Comes layout stop t Q) :
    P.Comes layout stop s Q := by
  obtain ⟨u, hup, hQ⟩ := h
  exact ⟨u, hup.head hns hstep, hQ⟩

end Comes

variable (P layout) in
/-- Follows a run for less than `k` steps to its end, as long as the states are
`good`. -/
def follow (stop good : State L S → Prop) [DecidablePred stop] [DecidablePred good] :
    ℕ → State L S → Option (State L S)
  | 0, _ => none
  | k + 1, s =>
      if good s then
        if stop s then some s else (P.step layout s).bind (follow stop good k)
      else none

theorem follow_spec {stop good : State L S → Prop} [DecidablePred stop] [DecidablePred good]
    {k : ℕ} {s t : State L S} (h : P.follow layout stop good k s = some t) :
    P.Upto layout stop s t ∧ stop t ∧ ∀ u, P.Upto layout stop s u → good u := by
  induction k generalizing s with
  | zero => cases h
  | succ k ih =>
      unfold follow at h
      split_ifs at h with hgood hstop
      · cases h
        refine ⟨.here, hstop, fun u hu => ?_⟩
        rw [hu.eq_of_stop hstop]
        exact hgood
      · obtain ⟨s₁, hstep, hrest⟩ := Option.bind_eq_some_iff.mp h
        obtain ⟨hup, hend, hall⟩ := ih hrest
        refine ⟨hup.head hstop hstep, hend, fun u hu => ?_⟩
        rcases hu.cases_head with rfl | ⟨-, s₂, hstep₂, hup₂⟩
        · exact hgood
        · rw [hstep] at hstep₂
          cases hstep₂
          exact hall u hup₂

/-! A property of every state is proved from one cut of the run to the next: the
states in between are followed instruction by instruction, and what holds at a
cut is found again at the next one. -/

section Cuts

variable {stop : State L S → Prop} {good cut : State L S → Prop} {s t : State L S}

variable (P layout) in
/-- From `s` on the states are `good` up to the next cut. -/
inductive Through (good cut : State L S → Prop) : State L S → Prop
  | cut {s : State L S} (h : cut s) : Through good cut s
  | next {s : State L S} (hgood : good s)
      (h : ∀ t, P.step layout s = some t → Through good cut t) : Through good cut s

theorem Through.forall_step (hstep : P.step layout s = some t)
    (h : P.Through layout good cut t) :
    ∀ u, P.step layout s = some u → P.Through layout good cut u := by
  intro u hu
  rw [hstep] at hu
  cases hu
  exact h

theorem Through.of_step (hgood : good s) (hstep : P.step layout s = some t)
    (h : P.Through layout good cut t) : P.Through layout good cut s :=
  .next hgood (.forall_step hstep h)

/-- A run from cut to cut is good all along. -/
theorem Upto.of_through
    (hcut : ∀ t, P.Upto layout stop s t → cut t → good t ∧
      (¬ stop t → ∀ u, P.step layout t = some u → P.Through layout good cut u))
    (h : P.Through layout good cut s) (ht : P.Upto layout stop s t) : good t := by
  have hthrough : P.Through layout good cut t := by
    induction ht with
    | here => exact h
    | next hup hns hstep ih =>
        cases ih with
        | cut hc => exact (hcut _ hup hc).2 hns _ hstep
        | next _ hnext => exact hnext _ hstep
  cases hthrough with
  | cut hc => exact (hcut _ ht hc).1
  | next hgood _ => exact hgood

variable (P layout) in
/-- Whether the run from `s` on is `good` up to the next cut depends on `φ`, and
`φ` can be seen from `weak` states alone. -/
structure Hinges (stop good weak cut : State L S → Prop) (s : State L S) (φ : Prop) : Prop where
  through : φ → P.Through layout good cut s
  necessary : (∀ t, P.Upto layout stop s t → weak t) → φ

namespace Hinges

variable {weak : State L S → Prop} {φ ψ : Prop}

theorem of_through (h : P.Through layout good cut s) (hφ : φ) :
    P.Hinges layout stop good weak cut s φ :=
  ⟨fun _ => h, fun _ => hφ⟩

theorem congr (h : P.Hinges layout stop good weak cut s φ) (hiff : φ ↔ ψ) :
    P.Hinges layout stop good weak cut s ψ :=
  propext hiff ▸ h

/-- At `s` it depends on `ψ`, and then on what comes after. -/
theorem step (hns : ¬ stop s) (hgood : ψ → good s) (hweak : weak s → ψ)
    (hstep : P.step layout s = some t) (h : ψ → P.Hinges layout stop good weak cut t φ) :
    P.Hinges layout stop good weak cut s (ψ ∧ φ) := by
  constructor
  · rintro ⟨hψ, hφ⟩
    exact .of_step (hgood hψ) hstep ((h hψ).through hφ)
  · intro hall
    have hψ : ψ := hweak (hall s .here)
    exact ⟨hψ, (h hψ).necessary fun u hu => hall u (hu.head hns hstep)⟩

/-- At `s` it depends on `φ`, and on nothing after it. -/
theorem last (hgood : φ → good s) (hweak : weak s → φ) (hstep : P.step layout s = some t)
    (h : φ → P.Through layout good cut t) : P.Hinges layout stop good weak cut s φ where
  through hφ := .of_step (hgood hφ) hstep (h hφ)
  necessary hall := hweak (hall s .here)

theorem of_step (hns : ¬ stop s) (hgood : good s) (hstep : P.step layout s = some t)
    (h : P.Hinges layout stop good weak cut t φ) : P.Hinges layout stop good weak cut s φ where
  through hφ := .of_step hgood hstep (h.through hφ)
  necessary hall := h.necessary fun u hu => hall u (hu.head hns hstep)

end Hinges

end Cuts

/-! Two runs are compared at the states at which they meet. -/

section Diagrams

variable {stop : State L S → Prop} {rel : State L S → State L S → Prop} {s s' t u : State L S}

variable (P layout) in
/-- From `s` to `u` in one step or more. -/
def Plus (stop : State L S → Prop) (s u : State L S) : Prop :=
  ¬ stop s ∧ ∃ t, P.step layout s = some t ∧ P.Upto layout stop t u

theorem Upto.plus (h : P.Upto layout stop s u) (hne : u ≠ s) : P.Plus layout stop s u :=
  h.cases_head.resolve_left hne

theorem Plus.upto (h : P.Plus layout stop s u) : P.Upto layout stop s u := by
  obtain ⟨hns, t, hstep, hup⟩ := h
  exact hup.head hns hstep

variable (P layout) in
/-- Related states are both at the end; and otherwise both raise an exception or
both come to related states again. -/
def Diagram (stop : State L S → Prop) (rel : State L S → State L S → Prop) : Prop :=
  ∀ s s', rel s s' → (stop s ↔ stop s') ∧
    (¬ stop s → P.step layout s = none ∧ P.step layout s' = none ∨
      ∃ u u', P.Plus layout stop s u ∧ P.Plus layout stop s' u' ∧ rel u u')

theorem Diagram.symm (h : P.Diagram layout stop rel) :
    P.Diagram layout stop fun s s' => rel s' s := by
  intro s s' hrel
  obtain ⟨hstop, hnext⟩ := h s' s hrel
  refine ⟨hstop.symm, fun hns => ?_⟩
  rcases hnext (mt hstop.mp hns) with ⟨hnone, hnone'⟩ | ⟨u, u', hu, hu', hrel'⟩
  · exact .inl ⟨hnone', hnone⟩
  · exact .inr ⟨u', u, hu', hu, hrel'⟩

/-- When the one run comes to its end, so does the other. -/
theorem Diagram.ends (hd : P.Diagram layout stop rel) (h : rel s s')
    (ht : P.Upto layout stop s t) (hstop : stop t) :
    ∃ t', P.Upto layout stop s' t' ∧ stop t' ∧ rel t t' := by
  -- the run that is followed may be on its way to the state where they meet next
  have hmeet : ∃ a a', P.Upto layout stop t a ∧ P.Upto layout stop s' a' ∧ rel a a' := by
    clear hstop
    induction ht with
    | here => exact ⟨s, s', .here, .here, h⟩
    | next _ hns hstep ih =>
        obtain ⟨a, a', ha, ha', hrel⟩ := ih
        rcases ha.cases_head with rfl | ⟨-, t₁, hstep₁, hup⟩
        · rcases (hd _ _ hrel).2 hns with ⟨hnone, -⟩ | ⟨v, v', ⟨-, t₁, hstep₁, hup⟩, hv', hrel'⟩
          · rw [hstep] at hnone
            cases hnone
          · rw [hstep] at hstep₁
            cases hstep₁
            exact ⟨v, v', hup, ha'.trans hv'.upto, hrel'⟩
        · rw [hstep] at hstep₁
          cases hstep₁
          exact ⟨a, a', hup, ha', hrel⟩
  obtain ⟨a, a', ha, ha', hrel⟩ := hmeet
  obtain rfl := ha.eq_of_stop hstop
  exact ⟨a', ha', (hd _ _ hrel).1.mp hstop, hrel⟩

end Diagrams

end Program

/-! ### Properties of the listing

What is known at a place of the code is carried through the instructions of its
block and has to suffice for every label that the block continues at.  A `jr` or
`j` ends the stretch of code that can be treated like this. -/

/-- How knowledge of a type `A` is passed on: through an instruction, which may
not be allowed at all, what a branch may test, and what a label needs. -/
structure Analysis (L S A : Type) where
  transfer : A → Op S → Option A
  test : A → Test → Bool
  target : A → L → Bool

/-- What is known after the next step. -/
def Analysis.Passes {A : Type} (an : Analysis L S A) (a : A) (s : State L S) (a' : A) : Prop :=
  match s.executes with
  | none => a' = a
  | some o => an.transfer a o = some a'

namespace Program

variable [DecidableEq L] {A : Type} (P : Program L S)

/-- The knowledge suffices for the rest of a block. -/
def checks (an : Analysis L S A) (l : L) : A → List (Instr L S) → Bool
  | a, [] => (P.after l).all (an.target a)
  | a, .op o :: rest => (an.transfer a o).any fun a' => checks an l a' rest
  | a, .branch test likely target :: .op slot :: rest =>
      an.test a test && (an.transfer a slot).any fun a' =>
        an.target a' target && checks an l (if likely then a else a') rest
  | a, .b target :: .op slot :: _ => (an.transfer a slot).any (an.target · target)
  | _, _ => false

variable {P} {layout : Layout L S} {an : Analysis L S A} {l : L} {a : A}
  {rest : List (Instr L S)} {c c' : Core}

/-- The knowledge suffices at a place. -/
def Suffices (P : Program L S) (an : Analysis L S A) (a : A) (pc : Loc L S) : Prop :=
  (∃ l rest, pc = .block l rest ∧ P.checks an l a rest = true) ∨
    ∃ l, pc = P.start l ∧ an.target a l = true

theorem checks_passes (layout : Layout L S) (h : P.checks an l a rest = true) (c : Core) :
    ∃ a', an.Passes a ⟨c, .block l rest⟩ a' ∧
      ∀ pc, P.goes layout ⟨c, .block l rest⟩ = some pc → P.Suffices an a' pc := by
  unfold checks at h
  split at h
  case h_1 =>
    refine ⟨a, rfl, fun pc hgoes => ?_⟩
    obtain ⟨next, hnext, hpc⟩ := Option.map_eq_some_iff.mp hgoes
    rw [hnext] at h
    exact .inr ⟨next, hpc.symm, h⟩
  case h_2 o rest =>
    obtain ⟨a', ha', hrest⟩ := (Option.any_eq_true _ _).mp h
    exact ⟨a', ha', fun pc hgoes => .inl ⟨l, rest, (Option.some.inj hgoes).symm, hrest⟩⟩
  case h_3 test likely target slot rest =>
    obtain ⟨-, h⟩ := Bool.and_eq_true _ _ ▸ h
    obtain ⟨a', ha', h⟩ := (Option.any_eq_true _ _).mp h
    obtain ⟨htarget, hrest⟩ := Bool.and_eq_true _ _ ▸ h
    by_cases ht : test.holds c
    · refine ⟨a', ?_, fun pc hgoes => .inr ⟨target, ?_, htarget⟩⟩
      · simpa [Analysis.Passes, State.executes, ht] using ha'
      · simpa [goes, ht, eq_comm] using hgoes
    · -- the slot of a likely branch is not executed here
      refine ⟨if likely then a else a', ?_, fun pc hgoes => .inl ⟨l, rest, ?_, hrest⟩⟩
      · cases likely <;> simp [Analysis.Passes, State.executes, ht, ha']
      · simpa [goes, ht, eq_comm] using hgoes
  case h_4 target slot rest =>
    obtain ⟨a', ha', htarget⟩ := (Option.any_eq_true _ _).mp h
    exact ⟨a', ha', fun pc hgoes => .inr ⟨target, (Option.some.inj hgoes).symm, htarget⟩⟩
  case h_5 => cases h

theorem checks_congr (layout : Layout L S) (h : P.checks an l a rest = true)
    (htest : ∀ test, an.test a test = true → (test.holds c ↔ test.holds c')) :
    State.executes ⟨c', .block l rest⟩ = State.executes ⟨c, .block l rest⟩ ∧
      P.goes layout ⟨c', .block l rest⟩ = P.goes layout ⟨c, .block l rest⟩ := by
  unfold checks at h
  split at h
  case h_3 test likely target slot rest =>
    obtain ⟨ht, -⟩ := Bool.and_eq_true _ _ ▸ h
    simp only [State.executes, goes, htest test ht, and_self]
  case h_5 => cases h
  all_goals exact ⟨rfl, rfl⟩

end Program

section Step

variable [DecidableEq L] {P : Program L S} {layout : Layout L S} {s t : State L S}

theorem Program.step_core (hstep : P.step layout s = some t) :
    s.executes = none ∧ t.core = s.core ∨
      ∃ o, s.executes = some o ∧ o.exec layout.sym s.core = some t.core := by
  obtain ⟨-, hexec⟩ := Program.step_eq_some_iff.mp hstep
  unfold State.executed at hexec
  cases ho : s.executes with
  | none =>
      rw [ho] at hexec
      exact .inl ⟨rfl, (Option.some.inj hexec).symm⟩
  | some o =>
      rw [ho] at hexec
      exact .inr ⟨o, rfl, hexec⟩

/-- A register that the executed instruction does not write is kept. -/
theorem Program.step_get (hstep : P.step layout s = some t) {r : Reg}
    (hr : ∀ o ∈ s.executes, o.dest ≠ some r) : t.core.get r = s.core.get r := by
  rcases Program.step_core hstep with ⟨-, hcore⟩ | ⟨o, ho, hexec⟩
  · rw [hcore]
  · exact Op.exec_get hexec (hr o ho)

/-- A byte that it does not store to is kept. -/
theorem Program.step_mem (hstep : P.step layout s = some t) {b : Word}
    (hb : ∀ o ∈ s.executes, ∀ x ∈ o.stores s.core, ¬ x.Touches b) :
    t.core.mem b = s.core.mem b := by
  rcases Program.step_core hstep with ⟨-, hcore⟩ | ⟨o, ho, hexec⟩
  · rw [hcore]
  · exact Op.exec_mem hexec (hb o ho)

end Step

/-! ### Two runs side by side -/

/-- The registers in which two cores agree: `ok` are the instructions that may
stand in the code, `live` the registers that a label needs, with `none` for the
labels that the code may not go to. -/
def liveness (ok : Op S → Bool) (live : L → Option (List Reg)) : Analysis L S (List Reg) where
  transfer R o := if ok o ∧ ∀ r ∈ o.srcs, r ∈ R then some (o.dest.toList ++ R) else none
  test R t := decide (∀ r ∈ t.regs, r ∈ R)
  target R l := (live l).any fun rs => decide (∀ r ∈ rs, r ∈ R)

section Lockstep

variable {ok : Op S → Bool} {live : L → Option (List Reg)} {R R' : List Reg} {c c' : Core}

theorem liveness_transfer {o : Op S} (h : (liveness ok live).transfer R o = some R') :
    ok o = true ∧ o.srcs ⊆ R ∧ o.dest.toList ++ R = R' := by
  unfold liveness at h
  dsimp only at h
  split_ifs at h with hcond
  exact ⟨hcond.1, fun r hr => hcond.2 r hr, Option.some.inj h⟩

theorem liveness_target {l : L} (h : (liveness ok live).target R l = true) :
    ∃ rs, live l = some rs ∧ rs ⊆ R := by
  obtain ⟨rs, hrs, hsub⟩ := (Option.any_eq_true _ _).mp h
  exact ⟨rs, hrs, fun r hr => of_decide_eq_true hsub r hr⟩

variable [DecidableEq L] {P : Program L S} {layout : Layout L S} {l : L}
  {rest : List (Instr L S)} {t : State L S}

/-- What the code of a block may execute next. -/
theorem Program.checks_liveness (h : P.checks (liveness ok live) l R rest = true) {o : Op S}
    (ho : State.executes ⟨c, .block l rest⟩ = some o) : ok o = true ∧ o.srcs ⊆ R := by
  obtain ⟨R', hpasses, -⟩ := P.checks_passes ⟨fun _ => 0, fun _ => 0⟩ h c
  unfold Analysis.Passes at hpasses
  rw [ho] at hpasses
  obtain ⟨hok, hsrcs, -⟩ := liveness_transfer hpasses
  exact ⟨hok, hsrcs⟩

theorem Program.checks_executes_congr (h : P.checks (liveness ok live) l R rest = true)
    (hregs : Agrees R c c') :
    State.executes ⟨c', .block l rest⟩ = State.executes ⟨c, .block l rest⟩ :=
  (P.checks_congr ⟨fun _ => 0, fun _ => 0⟩ h
    fun _ ht => Test.holds_congr hregs (of_decide_eq_true ht)).1

/-- Where two cores agree in what the code needs, both take the same step. -/
theorem Program.lockstep (h : P.checks (liveness ok live) l R rest = true)
    (hregs : Agrees R c c')
    (hsame : ∀ o ∈ State.executes ⟨c, .block l rest⟩, LoadsSame layout.sym c c' o)
    (hstep : P.step layout ⟨c, .block l rest⟩ = some t) :
    ∃ d' R', P.step layout ⟨c', .block l rest⟩ = some ⟨d', t.pc⟩ ∧ Agrees R' t.core d' ∧
      P.Suffices (liveness ok live) R' t.pc ∧
      ∀ b, c.mem b = c'.mem b → t.core.mem b = d'.mem b := by
  obtain ⟨R', hpasses, hsuffices⟩ := P.checks_passes layout h c
  obtain ⟨hexecutes, hgoes'⟩ := P.checks_congr layout h
    fun _ ht => Test.holds_congr hregs (of_decide_eq_true ht)
  obtain ⟨hgoes, hexec⟩ := Program.step_eq_some_iff.mp hstep
  suffices ∃ d', State.executed layout.sym ⟨c', .block l rest⟩ = some d' ∧ Agrees R' t.core d' ∧
      ∀ b, c.mem b = c'.mem b → t.core.mem b = d'.mem b by
    obtain ⟨d', hexec', hregs', hmem⟩ := this
    refine ⟨d', R', Program.step_eq_some_iff.mpr ⟨hgoes'.trans hgoes, hexec'⟩, hregs',
      hsuffices t.pc hgoes, hmem⟩
  unfold State.executed at hexec ⊢
  unfold Analysis.Passes at hpasses
  rw [hexecutes]
  cases ho : State.executes ⟨c, .block l rest⟩ with
  | none =>
      rw [ho] at hexec hpasses
      cases hexec
      exact ⟨c', rfl, hpasses ▸ hregs, fun _ hb => hb⟩
  | some o =>
      rw [ho] at hexec hpasses
      obtain ⟨-, hsrcs, rfl⟩ := liveness_transfer hpasses
      exact Op.exec_agrees hregs hsrcs (hsame o ho) hexec

/-- If one of them raises an exception, so does the other. -/
theorem Program.lockstep_none (h : P.checks (liveness ok live) l R rest = true)
    (hregs : Agrees R c c')
    (hsame : ∀ o ∈ State.executes ⟨c, .block l rest⟩, LoadsSame layout.sym c c' o)
    (hstep : P.step layout ⟨c, .block l rest⟩ = none) :
    P.step layout ⟨c', .block l rest⟩ = none := by
  by_contra hsome
  obtain ⟨t, ht⟩ := Option.ne_none_iff_exists'.mp hsome
  have hsame' : ∀ o ∈ State.executes ⟨c', .block l rest⟩, LoadsSame layout.sym c' c o := by
    intro o ho
    rw [Program.checks_executes_congr h hregs] at ho
    exact (hsame o ho).symm hregs (Program.checks_liveness h ho).2
  obtain ⟨d, R', hstep', -⟩ := Program.lockstep h hregs.symm hsame' ht
  rw [hstep] at hstep'
  cases hstep'

end Lockstep

end Ps2rd.Mips
