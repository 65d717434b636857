import Ps2rd.Mips.Exec

/-!
# Routines that call others

A routine is a program some of whose blocks end in a call, a `jal` or `jalr` with
an empty delay slot.  The callee is not part of the program: it may do anything to
registers and memory before it comes back to the next label.  `effects n` is what
the `n`-th call of a run does, the link register included.

The second part is about the stack frame of such a routine, into which it saves
registers before the calls and from which it restores them afterwards.
-/

namespace Ps2rd.Mips

variable {L S : Type}

/-- What a block calls at its end. -/
inductive Callee (S : Type) where
  | jal (symbol : S)
  | jalr (rs : Reg)
deriving DecidableEq, Repr

structure Routine (L S : Type) extends Program L S where
  calls : L → Option (Callee S)

/-- A state of a routine, with the number of calls made so far. -/
structure CallState (L S : Type) extends State L S where
  made : ℕ

namespace Routine

variable [DecidableEq L] (R : Routine L S) (layout : Layout L S) (effects : ℕ → Core → Core)

def step (s : CallState L S) : Option (CallState L S) :=
  match s.pc with
  | .block l [] =>
      (R.after l).map fun next =>
        match R.calls l with
        | some _ => ⟨⟨effects s.made s.core, R.start next⟩, s.made + 1⟩
        | none => ⟨⟨s.core, R.start next⟩, s.made⟩
  | _ => (R.toProgram.step layout s.toState).map fun t => ⟨t, s.made⟩

/-- The state after `k` steps. -/
def run : ℕ → CallState L S → Option (CallState L S)
  | 0, s => some s
  | k + 1, s => (R.step layout effects s).bind (run k)

variable {R layout effects}

theorem run_add (j k : ℕ) (s : CallState L S) :
    R.run layout effects (j + k) s =
      (R.run layout effects j s).bind (R.run layout effects k) := by
  induction j generalizing s with
  | zero => rw [Nat.zero_add, run, Option.bind_some]
  | succ j ih =>
      rw [Nat.succ_add, run, run]
      cases R.step layout effects s with
      | none => rfl
      | some t => exact ih t

variable (R layout effects) in
/-- From `s` a state is reached that satisfies `Q`. -/
def Leads (s : CallState L S) (Q : CallState L S → Prop) : Prop :=
  ∃ k t, R.run layout effects k s = some t ∧ Q t

namespace Leads

variable {Q T : CallState L S → Prop} {s t : CallState L S} {c c' : Core} {l target : L} {n : ℕ}
  {o slot : Op S} {rest : List (Instr L S)} {test : Test}

theorem here (h : Q s) : R.Leads layout effects s Q := ⟨0, s, rfl, h⟩

theorem trans (h : R.Leads layout effects s T)
    (hnext : ∀ t, T t → R.Leads layout effects t Q) : R.Leads layout effects s Q := by
  obtain ⟨j, t, hj, ht⟩ := h
  obtain ⟨k, u, hk, hu⟩ := hnext t ht
  exact ⟨j + k, u, by rw [run_add, hj, Option.bind_some, hk], hu⟩

theorem of_step (hstep : R.step layout effects s = some t) (h : R.Leads layout effects t Q) :
    R.Leads layout effects s Q := by
  obtain ⟨k, u, hk, hu⟩ := h
  exact ⟨k + 1, u, by rw [run, hstep, Option.bind_some, hk], hu⟩

theorem fall {next : L} (hnext : R.after l = some next) (hcalls : R.calls l = none)
    (h : R.Leads layout effects ⟨⟨c, R.start next⟩, n⟩ Q) :
    R.Leads layout effects ⟨⟨c, .block l []⟩, n⟩ Q := by
  refine of_step ?_ h
  simp only [step, hnext, hcalls, Option.map_some]

theorem call {next : L} {callee : Callee S} (hnext : R.after l = some next)
    (hcalls : R.calls l = some callee)
    (h : R.Leads layout effects ⟨⟨effects n c, R.start next⟩, n + 1⟩ Q) :
    R.Leads layout effects ⟨⟨c, .block l []⟩, n⟩ Q := by
  refine of_step ?_ h
  simp only [step, hnext, hcalls, Option.map_some]

theorem op (ho : o.exec layout.sym c = some c')
    (h : R.Leads layout effects ⟨⟨c', .block l rest⟩, n⟩ Q) :
    R.Leads layout effects ⟨⟨c, .block l (.op o :: rest)⟩, n⟩ Q := by
  refine of_step ?_ h
  simp only [step, Program.step_op ho, Option.map_some]

theorem taken {likely : Bool} (ht : test.holds c) (ho : slot.exec layout.sym c = some c')
    (h : R.Leads layout effects ⟨⟨c', R.start target⟩, n⟩ Q) :
    R.Leads layout effects
      ⟨⟨c, .block l (.branch test likely target :: .op slot :: rest)⟩, n⟩ Q := by
  refine of_step ?_ h
  simp only [step, Program.step_taken ht ho, Option.map_some]

theorem notTaken (ht : ¬ test.holds c) (ho : slot.exec layout.sym c = some c')
    (h : R.Leads layout effects ⟨⟨c', .block l rest⟩, n⟩ Q) :
    R.Leads layout effects
      ⟨⟨c, .block l (.branch test false target :: .op slot :: rest)⟩, n⟩ Q := by
  refine of_step ?_ h
  simp only [step, Program.step_notTaken ht ho, Option.map_some]

theorem b (ho : slot.exec layout.sym c = some c')
    (h : R.Leads layout effects ⟨⟨c', R.start target⟩, n⟩ Q) :
    R.Leads layout effects ⟨⟨c, .block l (.b target :: .op slot :: rest)⟩, n⟩ Q := by
  refine of_step ?_ h
  simp only [step, Program.step_b ho, Option.map_some]

end Leads

end Routine

/-! ### Straight-line code -/

/-- The effect of instructions one after the other. -/
def execAll (sym : S → Word) (c : Core) (ops : List (Op S)) : Option Core :=
  ops.foldlM (Op.exec sym) c

theorem execAll_cons {sym : S → Word} {c d : Core} {o : Op S} (ops : List (Op S))
    (ho : o.exec sym c = some d) : execAll sym c (o :: ops) = execAll sym d ops := by
  rw [execAll, List.foldlM_cons, ho]
  rfl

theorem Routine.Leads.ops [DecidableEq L] {R : Routine L S} {layout : Layout L S}
    {effects : ℕ → Core → Core} {Q : CallState L S → Prop} {l : L} {n : ℕ} {c d : Core}
    {ops : List (Op S)} {rest : List (Instr L S)} (hops : execAll layout.sym c ops = some d)
    (h : R.Leads layout effects ⟨⟨d, .block l rest⟩, n⟩ Q) :
    R.Leads layout effects ⟨⟨c, .block l (ops.map .op ++ rest)⟩, n⟩ Q := by
  induction ops generalizing c with
  | nil =>
      cases hops
      exact h
  | cons o ops ih =>
      rw [execAll, List.foldlM_cons] at hops
      obtain ⟨c', ho, hrest⟩ := Option.bind_eq_some_iff.mp hops
      exact .op ho (ih hrest)

/-! ### Stack frames -/

/-- A register and the place in the frame where it is saved. -/
abbrev Slot := Reg × ℕ

/-- The instructions that save registers, and those that restore them. -/
def saves (slots : List Slot) : List (Op S) :=
  slots.map fun slot => .sd slot.1 (BitVec.ofNat 16 slot.2) .sp

def restores (slots : List Slot) : List (Op S) :=
  slots.map fun slot => .ld slot.1 (BitVec.ofNat 16 slot.2) .sp

/-- The slots are aligned, lie in a frame of `size` bytes and do not overlap. -/
structure SlotsOk (size : ℕ) (slots : List Slot) : Prop where
  aligned : ∀ slot ∈ slots, 8 ∣ slot.2
  inside : ∀ slot ∈ slots, slot.2 + 8 ≤ size
  nodup : (slots.map Prod.snd).Nodup
  regs : (slots.map Prod.fst).Nodup
  zero : Reg.zero ∉ slots.map Prod.fst
  sp : Reg.sp ∉ slots.map Prod.fst

/-- The place of a slot in the frame at `base`. -/
def slotAt (base : Word) (slot : Slot) : Word := base + BitVec.ofNat 32 slot.2

section Frame

variable {size : ℕ} {slot : Slot} {slots : List Slot} {base : Word} {c : Core}

theorem SlotsOk.tail (h : SlotsOk size (slot :: slots)) : SlotsOk size slots where
  aligned s hs := h.aligned s (List.mem_cons_of_mem _ hs)
  inside s hs := h.inside s (List.mem_cons_of_mem _ hs)
  nodup := (List.nodup_cons.mp h.nodup).2
  regs := (List.nodup_cons.mp h.regs).2
  zero hz := h.zero (List.mem_cons_of_mem _ hz)
  sp hs := h.sp (List.mem_cons_of_mem _ hs)

theorem SlotsOk.sublist {slots' : List Slot} (h : SlotsOk size slots)
    (hsub : slots' ⊆ slots) (hnodup : (slots'.map Prod.snd).Nodup)
    (hregs : (slots'.map Prod.fst).Nodup) : SlotsOk size slots' where
  aligned s hs := h.aligned s (hsub hs)
  inside s hs := h.inside s (hsub hs)
  nodup := hnodup
  regs := hregs
  zero hz := h.zero (List.map_subset _ hsub hz)
  sp hs := h.sp (List.map_subset _ hsub hs)

theorem addr_slot (hsp : c.get .sp = sx base) {off : ℕ} (hoff : off < 2 ^ 15) :
    c.addr (BitVec.ofNat 16 off) .sp = base + BitVec.ofNat 32 off := by
  have hsign : (BitVec.ofNat 16 off).signExtend 32 = BitVec.ofNat 32 off := by
    have hmsb : (BitVec.ofNat 16 off).msb = false := by
      rw [BitVec.msb_eq_decide, BitVec.toNat_ofNat, decide_eq_false_iff_not]
      omega
    rw [BitVec.signExtend_eq_setWidth_of_msb_false hmsb]
    apply BitVec.eq_of_toNat_eq
    rw [BitVec.toNat_setWidth, BitVec.toNat_ofNat, BitVec.toNat_ofNat]
    omega
  rw [Core.addr, hsp, lo_sx, hsign]

theorem aligned_slot (hbase : Aligned 8 base) {off : ℕ} (hoff : 8 ∣ off) :
    Aligned 8 (base + BitVec.ofNat 32 off) := by
  refine .add_of_dvd (by decide) hbase ?_
  unfold Aligned
  rw [BitVec.toNat_ofNat]
  omega

/-- Two slots of a frame have no byte in common. -/
theorem not_inRange_slot {off off' : ℕ} (hoff : 8 ∣ off) (hoff' : 8 ∣ off') (hne : off ≠ off')
    (hlt : off + 8 ≤ 2 ^ 15) (hlt' : off' + 8 ≤ 2 ^ 15) {b : Word}
    (hb : InRange (base + BitVec.ofNat 32 off) 8 b) :
    ¬ InRange (base + BitVec.ofNat 32 off') 8 b := by
  have h := b.isLt
  have h' := base.isLt
  unfold InRange at *
  rw [BitVec.toNat_sub, BitVec.toNat_add, BitVec.toNat_ofNat] at *
  omega

/-- The frame holds the registers after they were saved. -/
theorem execAll_saves (sym : S → Word) (hok : SlotsOk size slots) (hsize : size ≤ 2 ^ 15)
    (hsp : c.get .sp = sx base) (hbase : Aligned 8 base) :
    ∃ m, execAll sym c (saves slots) = some (c.setMem m) ∧
      (∀ slot ∈ slots, m.load64 (slotAt base slot) = c.get slot.1) ∧
      ∀ b, (∀ slot ∈ slots, ¬ InRange (slotAt base slot) 8 b) → m b = c.mem b := by
  induction slots generalizing c with
  | nil => exact ⟨c.mem, rfl, by simp, fun _ _ => rfl⟩
  | cons slot slots ih =>
      obtain ⟨r, off⟩ := slot
      have hin := hok.inside (r, off) List.mem_cons_self
      have haligned := hok.aligned (r, off) List.mem_cons_self
      have hexec : (Op.sd r (BitVec.ofNat 16 off) .sp).exec sym c = some _ :=
        Op.exec_sd (addr_slot hsp (by omega)) (aligned_slot hbase haligned)
      obtain ⟨m, hall, hslots, hrest⟩ := ih
        (c := c.setMem (c.mem.store 8 (slotAt base (r, off)) (c.get r))) hok.tail
        (by rw [Core.get_setMem]; exact hsp)
      refine ⟨m, ?_, ?_, ?_⟩
      · rw [saves, List.map_cons, execAll_cons _ hexec]
        exact hall
      · intro slot hslot
        rcases List.mem_cons.mp hslot with rfl | hslot
        · have hsame : m.load64 (slotAt base (r, off)) =
              Mem.load64 (c.mem.store 8 (slotAt base (r, off)) (c.get r))
                (slotAt base (r, off)) := by
            refine Mem.load64_congr fun b hb => hrest b fun slot' hslot' => ?_
            have hne : off ≠ slot'.2 := fun heq => (List.nodup_cons.mp hok.nodup).1
              (List.mem_map.mpr ⟨slot', hslot', heq.symm⟩)
            have hin' := hok.inside slot' (List.mem_cons_of_mem _ hslot')
            exact not_inRange_slot haligned (hok.aligned slot' (List.mem_cons_of_mem _ hslot'))
              hne (by omega) (by omega) hb
          rw [hsame, Mem.load64_store_self]
        · rw [hslots slot hslot, Core.get_setMem]
      · intro b hb
        rw [hrest b fun slot' hslot' => hb slot' (List.mem_cons_of_mem _ hslot')]
        exact Mem.store_of_not_inRange (hb (r, off) List.mem_cons_self)

/-- The registers hold what was in the frame after they were restored. -/
theorem execAll_restores (sym : S → Word) (hok : SlotsOk size slots) (hsize : size ≤ 2 ^ 15)
    (hsp : c.get .sp = sx base) (hbase : Aligned 8 base) :
    ∃ d, execAll sym c (restores slots) = some d ∧ d.mem = c.mem ∧
      (∀ slot ∈ slots, d.get slot.1 = c.mem.load64 (slotAt base slot)) ∧
      ∀ r, r ∉ slots.map Prod.fst → d.get r = c.get r := by
  induction slots generalizing c with
  | nil => exact ⟨c, rfl, rfl, by simp, fun _ _ => rfl⟩
  | cons slot slots ih =>
      obtain ⟨r, off⟩ := slot
      have hin := hok.inside (r, off) List.mem_cons_self
      have hexec : (Op.ld r (BitVec.ofNat 16 off) .sp).exec sym c = some _ :=
        Op.exec_ld (addr_slot hsp (by omega))
          (aligned_slot hbase (hok.aligned (r, off) List.mem_cons_self))
      have hzero : r ≠ .zero := by
        rintro rfl
        exact hok.zero List.mem_cons_self
      have hne : Reg.sp ≠ r := by
        rintro rfl
        exact hok.sp List.mem_cons_self
      obtain ⟨d, hall, hmem, hslots, hrest⟩ := ih
        (c := c.set r (c.mem.load64 (slotAt base (r, off)))) hok.tail
        (by rw [Core.get_set hzero, if_neg hne]; exact hsp)
      refine ⟨d, ?_, hmem, ?_, ?_⟩
      · rw [restores, List.map_cons, execAll_cons _ hexec]
        exact hall
      · intro slot hslot
        rcases List.mem_cons.mp hslot with rfl | hslot
        · rw [hrest r (List.nodup_cons.mp hok.regs).1, Core.get_set hzero, if_pos rfl]
        · exact hslots slot hslot
      · intro r' hr'
        rw [List.map_cons, List.mem_cons, not_or] at hr'
        rw [hrest r' hr'.2, Core.get_set hzero, if_neg hr'.1]

end Frame

end Ps2rd.Mips
