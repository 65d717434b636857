import Ps2rd.Mips.Routine

/-!
# The engine handler

`EngineHandler` is what the game calls instead of the two instructions at the
hook address.  It saves the registers, calls the callbacks and the code handler,
restores the registers, executes the two instructions and returns.  The stack
pointer is put back only in the delay slot of the return, after the displaced
instructions.
-/

namespace Ps2rd.Engine

open Mips

namespace EngineHandler

/-- The labels of `EngineHandler`, and the places to which its calls return. -/
inductive Label where
  | engineHandler | l1 | callbackDone | l2 | codeHandlerDone | ehBackup
deriving DecidableEq, Repr

inductive Sym where
  | callbacks | codeHandler
deriving DecidableEq, Repr

def labels : List Label :=
  [.engineHandler, .l1, .callbackDone, .l2, .codeHandlerDone, .ehBackup]

section Listing

open Mips.Op Mips.Instr Mips.Reg

/-- The instructions of each block. -/
def code : Label → List (Instr Label Sym)
  | .engineHandler =>
      [op (addiu sp sp (-0xe0)),
        op (sd ra 0 sp),
        op (sd at' 0x08 sp),
        op (sd v0 0x10 sp),
        op (sd v1 0x18 sp),
        op (sd a0 0x20 sp),
        op (sd a1 0x28 sp),
        op (sd a2 0x30 sp),
        op (sd a3 0x38 sp),
        op (sd t0 0x40 sp),
        op (sd t1 0x48 sp),
        op (sd t2 0x50 sp),
        op (sd t3 0x58 sp),
        op (sd t4 0x60 sp),
        op (sd t5 0x68 sp),
        op (sd t6 0x70 sp),
        op (sd t7 0x78 sp),
        op (sd s0 0x80 sp),
        op (sd s1 0x88 sp),
        op (sd s2 0x90 sp),
        op (sd s3 0x98 sp),
        op (sd s4 0xa0 sp),
        op (sd s5 0xa8 sp),
        op (sd s6 0xb0 sp),
        op (sd s7 0xb8 sp),
        op (sd t8 0xc0 sp),
        op (sd t9 0xc8 sp),
        op (sd gp 0xd0 sp),
        op (sd fp 0xd8 sp),
        -- process callbacks
        op (la s0 .callbacks)]
  | .l1 =>
      [op (lw s1 0 s0),
        branch (.eqz s1) false .l2,
        op nop]
  | .callbackDone =>
      [b .l1,
        op (addiu s0 s0 4)]
  | .l2 => []
  | .codeHandlerDone =>
      [op (ld fp 0xd8 sp),
        op (ld gp 0xd0 sp),
        op (ld t9 0xc8 sp),
        op (ld t8 0xc0 sp),
        op (ld s7 0xb8 sp),
        op (ld s6 0xb0 sp),
        op (ld s5 0xa8 sp),
        op (ld s4 0xa0 sp),
        op (ld s3 0x98 sp),
        op (ld s2 0x90 sp),
        op (ld s1 0x88 sp),
        op (ld s0 0x80 sp),
        op (ld t7 0x78 sp),
        op (ld t6 0x70 sp),
        op (ld t5 0x68 sp),
        op (ld t4 0x60 sp),
        op (ld t3 0x58 sp),
        op (ld t2 0x50 sp),
        op (ld t1 0x48 sp),
        op (ld t0 0x40 sp),
        op (ld a3 0x38 sp),
        op (ld a2 0x30 sp),
        op (ld a1 0x28 sp),
        op (ld a0 0x20 sp),
        op (ld v1 0x18 sp),
        op (ld v0 0x10 sp),
        op (ld at' 0x08 sp)]
  -- call original function here
  | .ehBackup =>
      [op nop,
        op nop,
        -- finally, return to normal execution
        op (ld ra 0 sp),
        jr ra,
        op (addiu sp sp 0xe0)]

/-- The calls at the end of the blocks, with a `nop` in their delay slots. -/
def calls : Label → Option (Callee Sym)
  | .l1 => some (.jalr s1)
  | .l2 => some (.jal .codeHandler)
  | _ => none

end Listing

/-- `EngineHandler`. -/
def routine : Routine Label Sym where
  labels := labels
  code := code
  calls := calls

/-- The game has executed the injected `jal` at the address `hook`. -/
def entered (game : Core) (hook : Word) : CallState Label Sym :=
  ⟨⟨game.set .ra (sx (hook + 8)), routine.start .engineHandler⟩, 0⟩

/-- The registers that the game relies on after a call; `$k0` and `$k1` belong to the
kernel. -/
def Unaffected (game c : Core) : Prop :=
  ∀ r, r ≠ .ra → r ≠ .k0 → r ≠ .k1 → c.get r = game.get r

/-- The displaced instructions are executed with the registers of the game, and when the
handler returns the game goes on with them after the hook. -/
def Transparent (layout : Layout Label Sym) (effects : ℕ → Core → Core) (game : Core)
    (hook : Word) : Prop :=
  routine.Leads layout effects (entered game hook) fun s =>
    s.pc = routine.start .ehBackup ∧ Unaffected game s.core ∧
      -- two no-ops, the reload of `$ra` and the jump
      ∃ t, routine.run layout effects 4 s = some t ∧
        t.pc = routine.locate layout (hook + 8) ∧ Unaffected game t.core

/-! ### The stack pointer -/

section

variable {layout : Layout Label Sym} {effects : ℕ → Core → Core}

/-- The return from `eh_backup`, when the displaced instructions are no-ops. -/
theorem run_ehBackup {c : Core} {n : ℕ} (hal : Aligned 8 (c.addr 0 .sp)) :
    routine.run layout effects 4 ⟨⟨c, routine.start .ehBackup⟩, n⟩ =
      some ⟨⟨(c.set .ra (c.mem.load64 (c.addr 0 .sp))).set .sp (sx (lo (c.get .sp) + 0xe0)),
        routine.locate layout (lo (c.mem.load64 (c.addr 0 .sp)))⟩, n⟩ := by
  have hld : (Op.ld .ra 0 .sp).exec layout.sym c =
      some (c.set .ra (c.mem.load64 (c.addr 0 .sp))) := Op.exec_ld rfl hal
  show (((Op.ld .ra 0 .sp).exec layout.sym c).map _ |>.map _).bind _ = _
  rw [hld]
  rfl

/-- From `eh_backup` on the stack pointer is moved by the size of the frame. -/
theorem sp_of_return {s t : CallState Label Sym} (hpc : s.pc = routine.start .ehBackup)
    (ht : routine.run layout effects 4 s = some t) :
    t.core.get .sp = sx (lo (s.core.get .sp) + 0xe0) := by
  obtain ⟨⟨c, pc⟩, n⟩ := s
  subst hpc
  by_cases hal : Aligned 8 (c.addr 0 .sp)
  · rw [run_ehBackup hal] at ht
    cases ht
    rfl
  · have hld : (Op.ld .ra 0 .sp).exec layout.sym c = none := if_neg hal
    change (((Op.ld .ra 0 .sp).exec layout.sym c).map _ |>.map _).bind _ = _ at ht
    rw [hld] at ht
    cases ht

theorem add_frame_ne (w : Word) : w + 0xe0 ≠ w := by
  intro h
  have hzero : (0xe0 : Word) = 0 := by
    rw [← BitVec.add_right_inj w, h]
    exact (BitVec.add_zero w).symm
  exact absurd hzero (by decide)

theorem not_transparent_of_frame (game : Core) (hook : Word) :
    ¬ Transparent layout effects game hook := by
  rintro ⟨k, s, -, hpc, hbackup, t, ht, -, hreturn⟩
  have hsp := sp_of_return hpc ht
  rw [hbackup .sp (by decide) (by decide) (by decide),
    hreturn .sp (by decide) (by decide) (by decide)] at hsp
  have hlo := congrArg lo hsp
  rw [lo_sx] at hlo
  exact add_frame_ne _ hlo.symm

end

/-! ### The other registers -/

/-- The size of the stack frame. -/
def frameSize : ℕ := 0xe0

/-- Where the registers are saved. -/
def slots : List Slot :=
  [(.ra, 0), (.at', 0x08), (.v0, 0x10), (.v1, 0x18), (.a0, 0x20), (.a1, 0x28), (.a2, 0x30),
    (.a3, 0x38), (.t0, 0x40), (.t1, 0x48), (.t2, 0x50), (.t3, 0x58), (.t4, 0x60), (.t5, 0x68),
    (.t6, 0x70), (.t7, 0x78), (.s0, 0x80), (.s1, 0x88), (.s2, 0x90), (.s3, 0x98), (.s4, 0xa0),
    (.s5, 0xa8), (.s6, 0xb0), (.s7, 0xb8), (.t8, 0xc0), (.t9, 0xc8), (.gp, 0xd0), (.fp, 0xd8)]

/-- All of them but `$ra` are restored before the displaced instructions. -/
def restored : List Slot := (slots.drop 1).reverse

theorem slotsOk : SlotsOk frameSize slots where
  aligned := by decide
  inside := by decide
  nodup := by decide
  regs := by decide
  zero := by decide
  sp := by decide

theorem slotsOk_restored : SlotsOk frameSize restored :=
  slotsOk.sublist (by decide) (by decide) (by decide)

/-- No register is forgotten. -/
theorem exists_mem_restored {r : Reg} (hzero : r ≠ .zero) (hra : r ≠ .ra) (hk0 : r ≠ .k0)
    (hk1 : r ≠ .k1) (hsp : r ≠ .sp) : ∃ slot ∈ restored, slot.1 = r := by
  revert hzero hra hk0 hk1 hsp
  cases r <;> decide

/-- `MAX_CALLBACKS`, as the makefile of the engine sets it. -/
def maxCallbacks : ℕ := 1

/-- The size of the list of callbacks with its terminator. -/
def callbacksSize : ℕ := maxCallbacks * 4 + 4

/-- The terminator behind the list of callbacks. -/
def terminatorAt (layout : Layout Label Sym) : Word :=
  layout.sym .callbacks + BitVec.ofNat 32 (maxCallbacks * 4)

/-- The callees keep to the calling convention as far as the handler needs it: they leave
`$sp`, `$s0`, the stack frame and the list of callbacks alone. -/
structure Conforming (layout : Layout Label Sym) (effects : ℕ → Core → Core) (frame : Word) :
    Prop where
  sp : ∀ n c, (effects n c).get .sp = c.get .sp
  s0 : ∀ n c, (effects n c).get .s0 = c.get .s0
  frame : ∀ n c b, InRange frame frameSize b → (effects n c).mem b = c.mem b
  callbacks : ∀ n c b, InRange (layout.sym .callbacks) callbacksSize b →
    (effects n c).mem b = c.mem b

/-- The game has an aligned stack with room for a frame, and the list of callbacks is as
the loader leaves it, with the terminator behind it. -/
structure Ready (layout : Layout Label Sym) (game : Core) (frame : Word) : Prop where
  sp : game.get .sp = sx (frame + 0xe0)
  aligned : Aligned 8 frame
  callbacks : Aligned 4 (layout.sym .callbacks)
  terminator : game.mem.load32 (terminatorAt layout) = 0
  disjoint : ∀ b, InRange frame frameSize b → ¬ InRange (layout.sym .callbacks) callbacksSize b

/-- The registers `saved` are in the frame while the calls are made. -/
structure Framed (layout : Layout Label Sym) (saved : Core) (frame : Word) (c : Core) : Prop where
  sp : c.get .sp = sx frame
  slots : ∀ slot ∈ slots, c.mem.load64 (slotAt frame slot) = saved.get slot.1
  terminator : c.mem.load32 (terminatorAt layout) = 0

section

variable {layout : Layout Label Sym} {effects : ℕ → Core → Core} {game saved c : Core}
  {frame hook : Word} {n : ℕ}

theorem inRange_slotAt {slot : Slot} (hslot : slot ∈ slots) {b : Word}
    (hb : InRange (slotAt frame slot) 8 b) : InRange frame frameSize b := by
  have hin := slotsOk.inside slot hslot
  have hsize : slot.2 + 8 < 2 ^ 32 := by
    have : frameSize < 2 ^ 32 := by decide
    omega
  exact (hb.of_add hsize).mono hin

theorem inRange_terminator {b : Word} (hb : InRange (terminatorAt layout) 4 b) :
    InRange (layout.sym .callbacks) callbacksSize b :=
  InRange.of_add hb (by decide)

/-- A call changes nothing that the handler needs later. -/
theorem Framed.call (h : Framed layout saved frame c) (hconf : Conforming layout effects frame)
    (n : ℕ) : Framed layout saved frame (effects n c) where
  sp := (hconf.sp n c).trans h.sp
  slots slot hslot := (Mem.load64_congr fun _ hb =>
    hconf.frame n c _ (inRange_slotAt hslot hb)).trans (h.slots slot hslot)
  terminator := (Mem.load32_congr fun _ hb =>
    hconf.callbacks n c _ (inRange_terminator hb)).trans h.terminator

theorem Framed.set (h : Framed layout saved frame c) {r : Reg} (v : BitVec 64)
    (hzero : r ≠ .zero := by decide) (hsp : r ≠ .sp := by decide) :
    Framed layout saved frame (c.set r v) where
  sp := by
    rw [Core.get_set hzero, if_neg hsp.symm]
    exact h.sp
  slots := h.slots
  terminator := h.terminator

/-- The registers are saved. -/
theorem entered_leads (hready : Ready layout game frame) :
    routine.Leads layout effects (entered game hook) fun s =>
      s.pc = routine.start .l1 ∧ s.core.get .s0 = sx (layout.sym .callbacks) ∧
        Framed layout (game.set .ra (sx (hook + 8))) frame s.core := by
  have hmove : (Op.addiu .sp .sp (-0xe0)).exec layout.sym (game.set .ra (sx (hook + 8))) =
      some ((game.set .ra (sx (hook + 8))).set .sp (sx frame)) := by
    have hframe : frame + 0xe0 + (-0xe0 : BitVec 16).signExtend 32 = frame := by
      rw [BitVec.add_assoc]
      exact BitVec.add_zero frame
    have hsp : (game.set .ra (sx (hook + 8))).get .sp = sx (frame + 0xe0) := hready.sp
    rw [Op.exec, hsp, lo_sx, hframe]
  have hsp : ((game.set .ra (sx (hook + 8))).set .sp (sx frame)).get .sp = sx frame := by simp
  obtain ⟨m, hsaves, hslots, hrest⟩ :=
    execAll_saves layout.sym slotsOk (by decide) hsp hready.aligned
  refine .op hmove (.ops hsaves (.op rfl (.fall rfl rfl (.here ⟨rfl, ?_, ?_⟩))))
  · simp
  · refine Framed.set ⟨?_, ?_, ?_⟩ _
    · simp
    · intro slot hslot
      have hne : slot.1 ≠ .sp := fun heq =>
        slotsOk.sp (List.mem_map.mpr ⟨slot, hslot, heq⟩)
      rw [Core.mem_setMem, hslots slot hslot, Core.get_set (by decide), if_neg hne]
    · rw [Core.mem_setMem]
      refine (Mem.load32_congr fun b hb => hrest b fun slot hslot hin => ?_).trans
        hready.terminator
      exact hready.disjoint b (inRange_slotAt hslot hin) (inRange_terminator hb)

/-- The callbacks are called one after the other; the terminator ends the loop at the
latest. -/
theorem l1_leads (hal : Aligned 4 (layout.sym .callbacks))
    (hconf : Conforming layout effects frame) {i k : ℕ} (hi : i + k = maxCallbacks)
    (hs0 : c.get .s0 = sx (layout.sym .callbacks + BitVec.ofNat 32 (i * 4)))
    (h : Framed layout saved frame c) :
    routine.Leads layout effects ⟨⟨c, routine.start .l1⟩, n⟩ fun s =>
      s.pc = routine.start .l2 ∧ Framed layout saved frame s.core := by
  induction k generalizing c i n with
  | zero =>
      obtain rfl : i = maxCallbacks := hi
      refine .op (Op.exec_lw (a := terminatorAt layout) ?_ (hal.add (by decide))) ?_
      · simp [Core.addr, hs0, terminatorAt]
      · refine .taken ?_ rfl (.here ⟨rfl, h.set _⟩)
        simpa [Test.holds] using h.terminator
  | succ k ih =>
      have halign : Aligned 4 (layout.sym .callbacks + BitVec.ofNat 32 (i * 4)) := by
        refine hal.add ?_
        unfold Aligned
        rw [BitVec.toNat_ofNat]
        omega
      refine .op (Op.exec_lw ?_ halign) ?_
      · simp [Core.addr, hs0]
      by_cases hlast : c.mem.load32 (layout.sym .callbacks + BitVec.ofNat 32 (i * 4)) = 0
      · refine .taken ?_ rfl (.here ⟨rfl, h.set _⟩)
        simpa [Test.holds] using hlast
      · refine .notTaken ?_ rfl (.call rfl rfl (.b rfl (ih (i := i + 1) (by omega) ?_ ?_)))
        · simpa [Test.holds] using hlast
        · simp [hconf.s0, hs0, BitVec.add_assoc, Nat.succ_mul, BitVec.ofNat_add]
        · exact ((h.set _).call hconf n).set _

/-- After the code handler the registers are restored, but for `$sp` and `$ra`. -/
theorem l2_leads (hframe : Aligned 8 frame) (hconf : Conforming layout effects frame)
    (h : Framed layout saved frame c) :
    routine.Leads layout effects ⟨⟨c, routine.start .l2⟩, n⟩ fun s =>
      s.pc = routine.start .ehBackup ∧ Framed layout saved frame s.core ∧
        ∀ r, r ≠ .ra → r ≠ .k0 → r ≠ .k1 → r ≠ .sp → s.core.get r = saved.get r := by
  have hcall := h.call hconf n
  obtain ⟨d, hrestores, hmem, hslots, hrest⟩ :=
    execAll_restores layout.sym slotsOk_restored (by decide) hcall.sp hframe
  refine .call rfl rfl (.ops hrestores (.fall rfl rfl (.here ⟨rfl, ⟨?_, ?_, ?_⟩, ?_⟩)))
  · rw [hrest .sp slotsOk_restored.sp]
    exact hcall.sp
  · rw [hmem]
    exact hcall.slots
  · rw [hmem]
    exact hcall.terminator
  · intro r hra hk0 hk1 hsp
    by_cases hzero : r = .zero
    · subst hzero
      rfl
    · obtain ⟨slot, hslot, rfl⟩ := exists_mem_restored hzero hra hk0 hk1 hsp
      rw [hslots slot hslot]
      exact hcall.slots slot (List.drop_subset 1 slots (List.mem_reverse.mp hslot))

/-- What is left of the transparency: at `eh_backup` the stack pointer is that of the frame
and every other register that of the game; after the return all of them are. -/
theorem engineHandler_restores (hready : Ready layout game frame)
    (hconf : Conforming layout effects frame) :
    routine.Leads layout effects (entered game hook) fun s =>
      s.pc = routine.start .ehBackup ∧ s.core.get .sp = sx frame ∧
        (∀ r, r ≠ .ra → r ≠ .k0 → r ≠ .k1 → r ≠ .sp → s.core.get r = game.get r) ∧
        ∃ t, routine.run layout effects 4 s = some t ∧
          t.pc = routine.locate layout (hook + 8) ∧ Unaffected game t.core := by
  refine (entered_leads hready).trans fun ⟨⟨c, pc⟩, n⟩ ⟨hpc, hs0, hframed⟩ => ?_
  subst hpc
  have hcallbacks := l1_leads (n := n) (i := 0) (k := maxCallbacks) hready.callbacks hconf rfl
    (by simpa using hs0) hframed
  refine hcallbacks.trans fun ⟨⟨c, pc⟩, n⟩ ⟨hpc, hframed⟩ => ?_
  subst hpc
  refine (l2_leads hready.aligned hconf hframed).trans
    fun ⟨⟨c, pc⟩, n⟩ ⟨hpc, hframed, hregs⟩ => .here ?_
  subst hpc
  have hgame : ∀ r, r ≠ .ra → r ≠ .k0 → r ≠ .k1 → r ≠ .sp → c.get r = game.get r := by
    intro r hra hk0 hk1 hsp
    rw [hregs r hra hk0 hk1 hsp, Core.get_set (by decide), if_neg hra]
  have haddr : c.addr 0 .sp = slotAt frame (.ra, 0) := addr_slot hframed.sp (by decide)
  have hra : c.mem.load64 (c.addr 0 .sp) = sx (hook + 8) := by
    rw [haddr, hframed.slots (.ra, 0) (by decide)]
    exact (Core.get_set (by decide)).trans (if_pos rfl)
  have hal : Aligned 8 (c.addr 0 .sp) := by
    rw [haddr]
    exact aligned_slot hready.aligned (by decide)
  refine ⟨rfl, hframed.sp, hgame, _, run_ehBackup hal, ?_, ?_⟩
  · rw [hra, lo_sx]
  · intro r hra hk0 hk1
    by_cases hsp : r = .sp
    · subst hsp
      have hback := hready.sp
      rw [hframed.sp, lo_sx]
      exact hback.symm
    · rw [Core.get_set (by decide), if_neg hsp, Core.get_set (by decide), if_neg hra]
      exact hgame r hra hk0 hk1 hsp

end

/-! ### No hook is transparent -/

/-- Whatever the registers of the game and whatever the callees do, the stack pointer is
not that of the game both at `eh_backup` and after the return. -/
theorem engineHandler_not_transparent (layout : Layout Label Sym) (effects : ℕ → Core → Core)
    (game : Core) (hook : Word) : ¬ Transparent layout effects game hook :=
  not_transparent_of_frame game hook

/-- A game with its stack at `0x01ff0000`, and no callbacks. -/
def plainGame : Core where
  regs
    | .sp => sx 0x01ff0000
    | _ => 0
  mem := fun _ => 0

def plainLayout : Layout Label Sym where
  entry := fun _ => 0x80000
  sym := fun _ => 0x90000

theorem ready_plainGame : Ready plainLayout plainGame 0x01feff20 where
  sp := show sx 0x01ff0000 = sx (0x01feff20 + 0xe0) by decide
  aligned := by decide
  callbacks := by decide
  terminator := rfl
  disjoint b hb hb' := by
    unfold InRange plainLayout frameSize callbacksSize maxCallbacks at *
    bv_omega

theorem conforming_id : Conforming plainLayout (fun _ c => c) 0x01feff20 where
  sp _ _ := rfl
  s0 _ _ := rfl
  frame _ _ _ _ := rfl
  callbacks _ _ _ _ := rfl

/-- Even with callees that do nothing, the displaced instructions find the stack pointer
lowered by the size of the frame. -/
theorem engineHandler_lowers_sp :
    (routine.Leads plainLayout (fun _ c => c) (entered plainGame 0x00100008) fun s =>
      s.pc = routine.start .ehBackup ∧ s.core.get .sp = sx 0x01feff20) ∧
    plainGame.get .sp = sx 0x01ff0000 ∧
    ¬ Transparent plainLayout (fun _ c => c) plainGame 0x00100008 := by
  refine ⟨?_, rfl, not_transparent_of_frame _ _⟩
  exact (engineHandler_restores ready_plainGame conforming_id).trans
    fun s ⟨hpc, hsp, _⟩ => .here ⟨hpc, hsp⟩

end EngineHandler

end Ps2rd.Engine
