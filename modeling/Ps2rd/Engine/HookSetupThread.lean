import Ps2rd.Engine.CodeTypes
import Ps2rd.Engine.Hook
import Ps2rd.Mips.Exec

/-!
# HookSetupThread in assembly

The listing of `HookSetupThread` as it is built for PS2rd, with `_HOOK_9` and
without boot codes, and the proof that one run of it does to the memory what
`hookSetupThread` says (`hookSetupThread_continues`).  The parameters of the syscall
and the stack are passed on to `SetupThread` as they came.  So the states that
`calls` goes through are those of the machine (`calls_represents`).
-/

namespace Ps2rd.Engine

open Mips

/-- The hook as it stands in the list. -/
def Hook.line (hook : Hook) : Line := ⟨hook.addr, hook.val⟩

@[simp] theorem Hook.line_addr (hook : Hook) : hook.line.addr = hook.addr := rfl

@[simp] theorem Hook.line_val (hook : Hook) : hook.line.val = hook.val := rfl

namespace HookThread

/-- The labels of `HookSetupThread`. -/
inductive Label where
  | hookSetupThread | l1 | l2 | l3 | jSetupThread
deriving DecidableEq, Repr

/-- The data that it refers to; `setupThread` is the address that the loader
patches into the jump at `j_SetupThread`. -/
inductive Sym where
  | numhooks | hooklist | ehBackup | jalEngineHandler | setupThread
deriving DecidableEq, Repr

/-- `MAX_HOOKS`. -/
def maxhooks : ℕ := 5

section Listing

open Mips.Op Mips.Instr Mips.Reg

/-- The instructions of each block. -/
def code : Label → List (Instr Label Sym)
  | .hookSetupThread =>
      [op (addiu sp sp (-0x10)),
        op (sd ra 0 sp),
        op (lwSym t1 .numhooks),
        branch (.eqz t1) false .l3,
        op nop,
        op (la t3 .hooklist)]
  | .l1 =>
      -- hook only if opcodes are equal
      [op (lw v0 0 t3),
        branch (.eqz v0) false .l2,
        op (lw v1 4 t3),
        op (lw t2 0 v0),
        branch (.ne t2 v1) false .l2,
        op nop,
        -- back up opcodes
        op (la at' .ehBackup),
        op (sw t2 0 at'),
        op (lw v1 4 v0),
        op (sw v1 4 at'),
        -- inject jal to engine handler
        op (lwSym v1 .jalEngineHandler),
        op (sw v1 0 v0),
        b .l3,
        op (sw zero 4 v0)]
  | .l2 =>
      -- next hook
      [op (addiu t1 t1 (-1)),
        branch (.gtz t1) false .l1,
        op (addiu t3 t3 8)]
  | .l3 =>
      [op (ld ra 0 sp),
        op (addiu sp sp 0x10)]
  | .jSetupThread =>
      [j .setupThread,
        op nop]

end Listing

def program : Program Label Sym where
  labels := [.hookSetupThread, .l1, .l2, .l3, .jSetupThread]
  code := code

/-! ### The memory -/

/-- Where the code, the data and the stack are.  `data` is the part of the engine
that a call does not write to: apart from it are `eh_backup` and the stack. -/
structure Placement extends Layout Label Sym where
  data : Word → Prop
  stack : Word → Prop
  aligned : ∀ s, Aligned 4 (sym s)
  entry_ne : ∀ l, entry l ≠ sym .setupThread
  text : Word
  textSize : ℕ
  entry_inRange : ∀ l, InRange text textSize (entry l)
  data_text : ∀ b, InRange text textSize b → data b
  data_numhooks : ∀ b, InRange (sym .numhooks) 4 b → data b
  data_hooklist : ∀ b, InRange (sym .hooklist) (8 * maxhooks) b → data b
  data_jal : ∀ b, InRange (sym .jalEngineHandler) 4 b → data b
  backup_disjoint : ∀ b, InRange (sym .ehBackup) 8 b → ¬ data b
  stack_disjoint : ∀ b, stack b → ¬ data b ∧ ¬ InRange (sym .ehBackup) 8 b

/-- The engine at the start of the user memory, with the stack behind it. -/
def samplePlacement : Placement where
  entry l := BitVec.ofNat 32 (0x80000 + 64 * program.labels.idxOf l)
  sym
    | .numhooks => 0x81000
    | .hooklist => 0x81004
    | .ehBackup => 0x82000
    | .jalEngineHandler => 0x81100
    | .setupThread => 0x80001000
  data b := 0x80000 ≤ b.toNat ∧ b.toNat < 0x82000
  stack b := 0x83000 ≤ b.toNat ∧ b.toNat < 0x84000
  aligned s := by cases s <;> decide
  entry_ne l := by cases l <;> decide
  text := 0x80000
  textSize := 0x1000
  entry_inRange l := by cases l <;> decide
  data_text := by unfold InRange; bv_omega
  data_numhooks := by unfold InRange; bv_omega
  data_hooklist := by unfold InRange maxhooks; bv_omega
  data_jal := by unfold InRange; bv_omega
  backup_disjoint := by unfold InRange; bv_omega
  stack_disjoint := by unfold InRange; bv_omega

/-- A word of the game: none of its bytes belongs to the engine or to the stack. -/
def Placement.Game (p : Placement) (a : Word) : Prop :=
  ∀ b, InRange a 4 b → ¬ p.data b ∧ ¬ InRange (p.sym .ehBackup) 8 b ∧ ¬ p.stack b

/-- The engine as the loader leaves it: the hooks, and the word at
`jal_EngineHandler`. -/
structure Loaded (p : Placement) (jal : Word) (hooks : List Hook) (m : Mem) : Prop where
  length : hooks.length ≤ maxhooks
  numhooks : m.load32 (p.sym .numhooks) = BitVec.ofNat 32 hooks.length
  list : ListAt (p.sym .hooklist) (hooks.map Hook.line) m
  jal : m.load32 (p.sym .jalEngineHandler) = jal

/-- The memory `m` is that of the state `s`. -/
structure Represents (p : Placement) (jal : Word) (hooks : List Hook) (m : Mem) (s : HookState) :
    Prop extends Loaded p jal hooks m where
  words : ∀ a, Aligned 4 a → p.Game a → m.load32 a = s.mem a
  backup : m.load32 (p.sym .ehBackup) = s.ehBackup.1
  backupSlot : m.load32 (p.sym .ehBackup + 4) = s.ehBackup.2

section

variable {p : Placement} {jal : Word} {hooks rest : List Hook} {m m' : Mem} {s : HookState}
  {a v w : Word}

/-- What the loader has left is not affected by a write to other places. -/
theorem Loaded.of_data (h : Loaded p jal hooks m) (hdata : ∀ b, p.data b → m' b = m b) :
    Loaded p jal hooks m' := by
  have hlen := h.length
  unfold maxhooks at hlen
  refine ⟨h.length, ?_, ?_, ?_⟩
  · exact (Mem.load32_congr fun b hb => hdata b (p.data_numhooks b hb)).trans h.numhooks
  · refine h.list.congr ?_ fun b hb => (hdata b (p.data_hooklist b ?_)).symm
    · rw [List.length_map]
      omega
    · rw [List.length_map] at hb
      exact hb.mono (by unfold maxhooks; omega)
  · exact (Mem.load32_congr fun b hb => hdata b (p.data_jal b hb)).trans h.jal

/-- Bytes of the stack. -/
theorem Represents.push (h : Represents p jal hooks m s) {n k : ℕ} {x : BitVec k}
    (hstack : ∀ b, InRange a n b → p.stack b) : Represents p jal hooks (m.store n a x) s := by
  have hsame : ∀ b, ¬ p.stack b → m.store n a x b = m b := fun b hb =>
    Mem.store_of_not_inRange fun hab => hb (hstack b hab)
  have hbackup : ∀ b, InRange (p.sym .ehBackup) 8 b → m.store n a x b = m b := fun b hb =>
    hsame b fun hs => (p.stack_disjoint b hs).2 hb
  refine ⟨h.of_data fun b hb => hsame b fun hs => (p.stack_disjoint b hs).1 hb, ?_, ?_, ?_⟩
  · intro a' hal hgame
    rw [← h.words a' hal hgame]
    exact Mem.load32_congr fun b hb => hsame b (hgame b hb).2.2
  · rw [← h.backup]
    exact Mem.load32_congr fun b hb => hbackup b (hb.mono (by decide))
  · rw [← h.backupSlot]
    exact Mem.load32_congr fun b hb => hbackup b (hb.of_add (k := 4) (by decide))

theorem aligned_add_four (h : Aligned 4 a) : Aligned 4 (a + 4) := h.add (by decide)

/-- A write to `eh_backup`. -/
theorem Represents.of_backup (h : Represents p jal hooks m s) {backup : Word × Word}
    (hin : ∀ b, InRange a 4 b → InRange (p.sym .ehBackup) 8 b)
    (hbackup : (m.store 4 a v).load32 (p.sym .ehBackup) = backup.1)
    (hslot : (m.store 4 a v).load32 (p.sym .ehBackup + 4) = backup.2) :
    Represents p jal hooks (m.store 4 a v) { s with ehBackup := backup } := by
  refine ⟨h.of_data fun b hb => ?_, fun a' hal hgame => ?_, hbackup, hslot⟩
  · exact Mem.store_of_not_inRange fun hab => p.backup_disjoint b (hin b hab) hb
  · refine Eq.trans ?_ (h.words a' hal hgame)
    exact Mem.load32_congr fun b hb =>
      Mem.store_of_not_inRange fun hab => (hgame b hb).2.1 (hin b hab)

theorem Represents.backUp (h : Represents p jal hooks m s) :
    Represents p jal hooks (m.store 4 (p.sym .ehBackup) v)
      { s with ehBackup := (v, s.ehBackup.2) } := by
  have hal := p.aligned .ehBackup
  refine h.of_backup (fun b hb => hb.mono (by decide)) (Mem.load32_store_self _ _ _) ?_
  rw [Mem.load32_store_of_ne hal (aligned_add_four hal) (add_four_ne _), h.backupSlot]

theorem Represents.backUpSlot (h : Represents p jal hooks m s) :
    Represents p jal hooks (m.store 4 (p.sym .ehBackup + 4) v)
      { s with ehBackup := (s.ehBackup.1, v) } := by
  have hal := p.aligned .ehBackup
  refine h.of_backup (fun b hb => hb.of_add (k := 4) (by decide)) ?_ (Mem.load32_store_self _ _ _)
  rw [Mem.load32_store_of_ne (aligned_add_four hal) hal (add_four_ne _).symm, h.backup]

/-- A word of the game. -/
theorem Represents.write (h : Represents p jal hooks m s) (hal : Aligned 4 a) (hgame : p.Game a) :
    Represents p jal hooks (m.store 4 a v) { s with mem := Function.update s.mem a v } := by
  have hbackup : ∀ b, InRange (p.sym .ehBackup) 8 b → m.store 4 a v b = m b := fun b hb =>
    Mem.store_of_not_inRange fun hab => (hgame b hab).2.1 hb
  refine ⟨h.of_data fun b hb => Mem.store_of_not_inRange fun hab => (hgame b hab).1 hb, ?_, ?_, ?_⟩
  · intro a' hal' hgame'
    by_cases heq : a' = a
    · subst heq
      exact (Mem.load32_store_self _ _ _).trans (Function.update_self a' v s.mem).symm
    · rw [Mem.load32_store_of_ne hal hal' heq, h.words a' hal' hgame']
      exact (Function.update_of_ne heq v s.mem).symm
  · rw [← h.backup]
    exact Mem.load32_congr fun b hb => hbackup b (hb.mono (by decide))
  · rw [← h.backupSlot]
    exact Mem.load32_congr fun b hb => hbackup b (hb.of_add (k := 4) (by decide))

/-- A memory is that of the words it holds. -/
theorem Loaded.represents (h : Loaded p jal hooks m) :
    Represents p jal hooks m
      ⟨m.load32, (m.load32 (p.sym .ehBackup), m.load32 (p.sym .ehBackup + 4)), []⟩ :=
  ⟨h, fun _ _ _ => rfl, rfl, rfl⟩

/-! ### The registers -/

/-- The registers that a call may change. -/
def scratch : List Reg := [.at', .v0, .v1, .t1, .t2, .t3]

/-- The slot of the stack in which `$ra` is kept during a call. -/
def slot (c : Core) : Word := lo (c.get .sp) + 0xfffffff0

/-- A call with the registers of `c`: the stack pointer is aligned, and there is
room below it. -/
structure Called (p : Placement) (c : Core) : Prop where
  sp : c.get .sp = sx (lo (c.get .sp))
  aligned : Aligned 8 (lo (c.get .sp))
  room : ∀ b, InRange (slot c) 8 b → p.stack b

/-- Within a call that came with the registers of `c`. -/
structure Within (p : Placement) (jal : Word) (hooks : List Hook) (c : Core) (s : HookState)
    (c' : Core) : Prop where
  call : Called p c
  memory : Represents p jal hooks c'.mem s
  sp : c'.get .sp = sx (slot c)
  ra : c'.mem.load64 (slot c) = c.get .ra
  others : ∀ r, r ∉ scratch → r ≠ .sp → r ≠ .ra → c'.get r = c.get r

/-- `SetupThread` is entered, with what the call came with in its registers. -/
structure Continues (p : Placement) (jal : Word) (hooks : List Hook) (c : Core) (s : HookState)
    (t : State Label Sym) : Prop where
  pc : t.pc = .out (p.sym .setupThread)
  memory : Represents p jal hooks t.core.mem s
  registers : ∀ r, r ∉ scratch → t.core.get r = c.get r

theorem Called.aligned_slot {c : Core} (h : Called p c) : Aligned 8 (slot c) :=
  .add_of_dvd (by decide) h.aligned (by decide)

theorem slot_add (c : Core) : slot c + 16 = lo (c.get .sp) := by
  rw [slot, BitVec.add_assoc]
  simp

section

variable {c c' : Core} {l : Label} {block : List (Instr Label Sym)} {Q : State Label Sym → Prop}

theorem Within.set (h : Within p jal hooks c s c') {r : Reg} (x : BitVec 64)
    (hr : r ∈ scratch := by decide) :
    Within p jal hooks c s (c'.set r x) := by
  have hzero : r ≠ .zero := by
    rintro rfl
    exact absurd hr (by decide)
  have hget : ∀ r', r' ∉ scratch → (c'.set r x).get r' = c'.get r' := by
    intro r' hr'
    rw [Core.get_set hzero, if_neg]
    rintro rfl
    exact hr' hr
  refine ⟨h.call, h.memory, ?_, h.ra, fun r' hr' hsp hra => ?_⟩
  · rw [hget .sp (by decide), h.sp]
  · rw [hget r' hr', h.others r' hr' hsp hra]

theorem Within.setMem (h : Within p jal hooks c s c') {s' : HookState}
    (ha : ∀ b, InRange a 4 b → ¬ p.stack b)
    (hmem : Represents p jal hooks (c'.mem.store 4 a v) s') :
    Within p jal hooks c s' (c'.setMem (c'.mem.store 4 a v)) := by
  refine ⟨h.call, hmem, ?_, ?_, fun r hr hsp hra => ?_⟩
  · rw [Core.get_setMem, h.sp]
  · rw [← h.ra]
    exact Mem.load64_congr fun b hb =>
      Mem.store_of_not_inRange fun hab => ha b hab (h.call.room b hb)
  · rw [Core.get_setMem, h.others r hr hsp hra]

/-- An instruction that sets a scratch register. -/
theorem Within.leads_set (h : Within p jal hooks c s c') {o : Op Sym} {r : Reg} {x : BitVec 64}
    (ho : o.exec p.sym c' = some (c'.set r x))
    (hnext : ∀ c'', Within p jal hooks c s c'' → c''.mem = c'.mem → c''.get r = x →
      (∀ r', r' ≠ r → c''.get r' = c'.get r') → program.Leads p.toLayout ⟨c'', .block l block⟩ Q)
    (hr : r ∈ scratch := by decide) :
    program.Leads p.toLayout ⟨c', .block l (.op o :: block)⟩ Q := by
  have hzero : r ≠ .zero := by
    rintro rfl
    exact absurd hr (by decide)
  refine .op ho (hnext _ (h.set x hr) rfl ?_ fun r' hne => ?_)
  · rw [Core.get_set hzero, if_pos rfl]
  · rw [Core.get_set hzero, if_neg hne]

/-- A store that the state `s'` accounts for. -/
theorem Within.leads_sw (h : Within p jal hooks c s c') {rt base : Reg} {off : BitVec 16}
    {s' : HookState} (haddr : c'.addr off base = a) (hal : Aligned 4 a) (hrt : c'.get rt = sx v)
    (ha : ∀ b, InRange a 4 b → ¬ p.stack b)
    (hmem : Represents p jal hooks (c'.mem.store 4 a v) s')
    (hnext : ∀ c'', Within p jal hooks c s' c'' → (∀ r, c''.get r = c'.get r) →
      program.Leads p.toLayout ⟨c'', .block l block⟩ Q) :
    program.Leads p.toLayout ⟨c', .block l (.op (.sw rt off base) :: block)⟩ Q := by
  refine .op (Op.exec_sw haddr hal) ?_
  rw [hrt, store_sx (by decide)]
  exact hnext _ (h.setMem ha hmem) fun r => Core.get_setMem _ _ _

/-! ### The blocks -/

theorem locate_setupThread (p : Placement) :
    program.locate p.toLayout (p.sym .setupThread) = .out (p.sym .setupThread) := by
  have hnone : program.labels.find? (fun l => p.entry l = p.sym .setupThread) = none := by
    rw [List.find?_eq_none]
    intro l _
    simpa using p.entry_ne l
  unfold Program.locate
  rw [hnone]

/-- The end of a call. -/
theorem l3_continues (h : Within p jal hooks c s c') :
    program.Leads p.toLayout ⟨c', program.start .l3⟩ (Continues p jal hooks c s) := by
  refine .op (Op.exec_ld (a := slot c) ?_ h.call.aligned_slot) (.op rfl (.fall rfl (.j rfl ?_)))
  · simp [Core.addr, h.sp]
  rw [locate_setupThread]
  refine .here ⟨rfl, h.memory, fun r hr => ?_⟩
  by_cases hsp : r = .sp
  · subst hsp
    rw [h.call.sp]
    simpa [h.sp] using slot_add c
  by_cases hra : r = .ra
  · subst hra
    simp [h.ra]
  · simpa [hsp, hra] using h.others r hr hsp hra

/-- The step to the next entry of the list, with `n` entries behind this one. -/
theorem l2_leads {n : ℕ} {here : Word} (hn : n < maxhooks) (h : Within p jal hooks c s c')
    (ht1 : c'.get .t1 = sx (BitVec.ofNat 32 (n + 1))) (ht3 : c'.get .t3 = sx here)
    (hnext : 0 < n → ∀ c'', Within p jal hooks c s c'' → c''.mem = c'.mem →
      c''.get .t1 = sx (BitVec.ofNat 32 n) → c''.get .t3 = sx (here + 8) →
      program.Leads p.toLayout ⟨c'', program.start .l1⟩ Q)
    (hend : n = 0 → ∀ c'', Within p jal hooks c s c'' →
      program.Leads p.toLayout ⟨c'', program.start .l3⟩ Q) :
    program.Leads p.toLayout ⟨c', program.start .l2⟩ Q := by
  have hpos := toInt_ofNat_pos (n := n) (by unfold maxhooks at hn; omega)
  have hset := fun x y => (h.set (r := .t1) x).set (r := .t3) y
  refine .op rfl ?_
  by_cases hzero : 0 < n
  · refine .taken ?_ rfl (hnext hzero _ (hset _ _) rfl ?_ ?_)
    · simp [Test.holds, ht1, ofNat_succ_dec, hpos, hzero]
    · simp [ht1, ofNat_succ_dec]
    · simp [ht3]
  · refine .notTaken ?_ rfl (.fall rfl (hend (by omega) _ (hset _ _)))
    simp [Test.holds, ht1, ofNat_succ_dec, hpos, hzero]

theorem hookedMem_eq_update (jal : Word) (mem : Word → Word) (a : Word) :
    hookedMem jal mem a = Function.update (Function.update mem a jal) (a + 4) 0 := by
  funext b
  simp only [hookedMem, Function.update_apply]

/-- The part of `l1` that hooks a location whose opcode is in `$t2`. -/
theorem inject_continues (h : Within p jal hooks c s c') (hal : Aligned 4 a) (hgame : p.Game a)
    (hgame' : p.Game (a + 4)) (hv0 : c'.get .v0 = sx a) (ht2 : c'.get .t2 = sx (s.mem a)) :
    program.Leads p.toLayout ⟨c', .block .l1 ((code .l1).drop 6)⟩
      (Continues p jal hooks c
        { mem := hookedMem jal s.mem a
          ehBackup := (s.mem a, s.mem (a + 4))
          injected := ⟨a, s.mem a, s.mem (a + 4)⟩ :: s.injected }) := by
  have hback := p.aligned .ehBackup
  have hstack : ∀ b, InRange (p.sym .ehBackup) 8 b → ¬ p.stack b := fun b hb hs =>
    (p.stack_disjoint b hs).2 hb
  have hal' := aligned_add_four hal
  refine h.leads_set (r := .at') rfl fun c₁ h₁ _ hat₁ hregs₁ => ?_
  -- the opcodes are backed up
  refine h₁.leads_sw (a := p.sym .ehBackup) (v := s.mem a) ?_ hback ?_
    (fun b hb => hstack b (hb.mono (by decide))) h₁.memory.backUp fun c₂ h₂ hregs₂ => ?_
  · simp [Core.addr, hat₁]
  · rw [hregs₁ _ (by decide), ht2]
  have hv0₂ : c₂.get .v0 = sx a := by rw [hregs₂, hregs₁ _ (by decide), hv0]
  refine h₂.leads_set (r := .v1) (Op.exec_lw (a := a + 4) ?_ hal')
    fun c₃ h₃ _ hv1₃ hregs₃ => ?_
  · simp [Core.addr, hv0₂]
  refine h₃.leads_sw (a := p.sym .ehBackup + 4) (v := s.mem (a + 4)) ?_ (aligned_add_four hback) ?_
    (fun b hb => hstack b (hb.of_add (k := 4) (by decide))) h₃.memory.backUpSlot
    fun c₄ h₄ hregs₄ => ?_
  · simp [Core.addr, hregs₃, hregs₂, hat₁]
  · rw [hv1₃, h₂.memory.words _ hal' hgame']
  -- and the location is hooked
  refine h₄.leads_set (r := .v1) (Op.exec_lwSym (p.aligned _))
    fun c₅ h₅ _ hv1₅ hregs₅ => ?_
  have hv0₅ : c₅.get .v0 = sx a := by
    rw [hregs₅ _ (by decide), hregs₄, hregs₃ _ (by decide), hv0₂]
  refine h₅.leads_sw (a := a) (v := jal) ?_ hal ?_ (fun b hb => (hgame b hb).2.2)
    (h₅.memory.write hal hgame) fun c₆ h₆ hregs₆ => ?_
  · simp [Core.addr, hv0₅]
  · rw [hv1₅, h₄.memory.jal]
  refine .b (Op.exec_sw (a := a + 4) ?_ hal') ?_
  · simp [Core.addr, hregs₆, hv0₅]
  have hnop : c₆.mem.store 4 (a + 4) (c₆.get .zero) = c₆.mem.store 4 (a + 4) (0 : Word) :=
    Mem.store_of_setWidth_eq rfl rfl
  have hwrite := h₆.memory.write (v := 0) hal' hgame'
  rw [hnop]
  refine l3_continues (h₆.setMem (fun b hb => (hgame' b hb).2.2) ?_)
  rw [hookedMem_eq_update]
  exact ⟨hwrite.toLoaded, hwrite.words, hwrite.backup, hwrite.backupSlot⟩

/-- The hooks lie in the game's memory, unless their address is zero. -/
def HooksIn (p : Placement) (hooks : List Hook) : Prop :=
  ∀ hook ∈ hooks, hook.addr ≠ 0 → p.Game hook.addr ∧ p.Game (hook.addr + 4)

theorem hookSetupThread_cons_of_match {hook : Hook}
    (h : hook.addr ≠ 0 ∧ s.mem hook.addr = hook.val) :
    hookSetupThread jal (hook :: rest) s =
      { mem := hookedMem jal s.mem hook.addr
        ehBackup := (s.mem hook.addr, s.mem (hook.addr + 4))
        injected := ⟨hook.addr, s.mem hook.addr, s.mem (hook.addr + 4)⟩ :: s.injected } :=
  hookSetupThread_of_some (if_pos h)

theorem hookSetupThread_cons_of_not {hook : Hook}
    (h : ¬ (hook.addr ≠ 0 ∧ s.mem hook.addr = hook.val)) :
    hookSetupThread jal (hook :: rest) s = hookSetupThread jal rest s := by
  simp only [hookSetupThread, firstMatch, if_neg h]

/-- One entry: it is hooked, or the search goes on at `l2`. -/
theorem l1_leads {hook : Hook} {here : Word} (h : Within p jal hooks c s c')
    (hhere : Aligned 4 here) (hlist : ListAt here ((hook :: rest).map Hook.line) c'.mem)
    (hin : HooksIn p (hook :: rest)) (ht3 : c'.get .t3 = sx here)
    (hmiss : ∀ c'', Within p jal hooks c s c'' → c''.mem = c'.mem → c''.get .t1 = c'.get .t1 →
      c''.get .t3 = sx here → program.Leads p.toLayout ⟨c'', program.start .l2⟩
        (Continues p jal hooks c (hookSetupThread jal rest s))) :
    program.Leads p.toLayout ⟨c', program.start .l1⟩
      (Continues p jal hooks c (hookSetupThread jal (hook :: rest) s)) := by
  obtain ⟨haddr, hval, -⟩ := hlist
  refine h.leads_set (r := .v0) (Op.exec_lw (a := here) ?_ hhere)
    fun c₁ h₁ hmem₁ hv0₁ hregs₁ => ?_
  · simp [Core.addr, ht3]
  have ht3₁ : c₁.get .t3 = sx here := by rw [hregs₁ _ (by decide), ht3]
  have hlw : (Op.lw .v1 4 .t3).exec p.sym c₁ =
      some (c₁.set .v1 (sx (c₁.mem.load32 (here + 4)))) := by
    refine Op.exec_lw ?_ (aligned_add_four hhere)
    simp [Core.addr, ht3₁]
  rw [haddr, Hook.line_addr] at hv0₁
  rw [← hmem₁] at hval
  -- an entry with address 0 is passed over before its opcode is compared
  by_cases hzero : hook.addr = 0
  · rw [hookSetupThread_cons_of_not fun hmatch => hmatch.1 hzero]
    refine .taken ?_ hlw (hmiss _ (h₁.set _) hmem₁ ?_ ?_)
    · simpa [Test.holds, hv0₁] using hzero
    · simp [hregs₁]
    · simp [ht3₁]
  obtain ⟨hgame, hgame'⟩ := hin hook List.mem_cons_self hzero
  refine .notTaken ?_ hlw ?_
  · simpa [Test.holds, hv0₁] using hzero
  refine (h₁.set _).leads_set (r := .t2)
    (Op.exec_lw (a := hook.addr) ?_ hook.aligned) fun c₂ h₂ hmem₂ ht2₂ hregs₂ => ?_
  · simp [Core.addr, hv0₁]
  have hv1₂ : c₂.get .v1 = sx hook.val := by
    rw [hregs₂ _ (by decide), Core.get_set (by decide), if_pos rfl, hval,
      Hook.line_val]
  rw [Core.mem_set, h₁.memory.words _ hook.aligned hgame] at ht2₂
  by_cases heq : s.mem hook.addr = hook.val
  · rw [hookSetupThread_cons_of_match ⟨hzero, heq⟩]
    refine .notTaken ?_ rfl (inject_continues h₂ hook.aligned hgame hgame' ?_ ht2₂)
    · simp [Test.holds, ht2₂, hv1₂, heq]
    · simp [hregs₂, hv0₁]
  · rw [hookSetupThread_cons_of_not fun hmatch => heq hmatch.2]
    refine .taken ?_ rfl (hmiss _ h₂ (hmem₂.trans hmem₁) ?_ ?_)
    · simpa [Test.holds, ht2₂, hv1₂] using heq
    · simp [hregs₂, hregs₁]
    · simp [hregs₂, ht3₁]

/-- The search through the entries `hook :: rest`, which stand at `here`. -/
theorem l1_continues {hook : Hook} {here : Word} (h : Within p jal hooks c s c')
    (hhere : Aligned 4 here) (hlist : ListAt here ((hook :: rest).map Hook.line) c'.mem)
    (hlen : rest.length < maxhooks) (hin : HooksIn p (hook :: rest))
    (ht1 : c'.get .t1 = sx (BitVec.ofNat 32 (rest.length + 1))) (ht3 : c'.get .t3 = sx here) :
    program.Leads p.toLayout ⟨c', program.start .l1⟩
      (Continues p jal hooks c (hookSetupThread jal (hook :: rest) s)) := by
  induction rest generalizing hook here c' with
  | nil =>
      refine l1_leads h hhere hlist hin ht3 fun c₁ h₁ _ ht1₁ ht3₁ => ?_
      exact l2_leads hlen h₁ (ht1₁.trans ht1) ht3₁ (fun hpos => absurd hpos (by decide))
        fun _ c₂ h₂ => l3_continues h₂
  | cons next rest ih =>
      have hin' : HooksIn p (next :: rest) :=
        fun hook' hmem => hin hook' (List.mem_cons_of_mem _ hmem)
      refine l1_leads h hhere hlist hin ht3 fun c₁ h₁ hmem₁ ht1₁ ht3₁ => ?_
      refine l2_leads hlen h₁ (ht1₁.trans ht1) ht3₁ (fun _ c₂ h₂ hmem₂ ht1₂ ht3₂ => ?_) (by simp)
      have hrest := hlist.2.2
      rw [← hmem₁, ← hmem₂] at hrest
      rw [List.length_cons] at hlen
      exact ih h₂ (hhere.add (by decide)) hrest (by omega) hin' ht1₂ ht3₂

/-- One run of `HookSetupThread` does what `hookSetupThread` says, and hands the
syscall on with its parameters. -/
theorem hookSetupThread_continues (hcall : Called p c) (hmem : Represents p jal hooks c.mem s)
    (hin : HooksIn p hooks) :
    program.Leads p.toLayout ⟨c, program.start .hookSetupThread⟩
      (Continues p jal hooks c (hookSetupThread jal hooks s)) := by
  refine .op rfl (.op (Op.exec_sd (a := slot c) ?_ hcall.aligned_slot) ?_)
  · simp [Core.addr, slot]
  have h : Within p jal hooks c s
      ((c.set .sp (sx (slot c))).setMem (c.mem.store 8 (slot c) (c.get .ra))) := by
    refine ⟨hcall, hmem.push hcall.room, ?_, Mem.load64_store_self _ _ _, fun r _ hsp _ => ?_⟩
    · simp
    · simp [hsp]
  refine h.leads_set (r := .t1) (Op.exec_lwSym (p.aligned .numhooks))
    fun c₁ h₁ _ ht1 _ => ?_
  replace ht1 : c₁.get .t1 = sx (BitVec.ofNat 32 hooks.length) :=
    ht1.trans (congrArg sx h.memory.numhooks)
  have hlen := hmem.length
  have hlist := h₁.memory.list
  cases hooks with
  | nil =>
      refine .taken ?_ rfl (l3_continues h₁)
      simp [Test.holds, ht1]
  | cons hook rest =>
      rw [List.length_cons] at ht1 hlen
      refine .notTaken ?_ rfl (h₁.leads_set (r := .t3) rfl
        fun c₂ h₂ hmem₂ ht3 hregs₂ => .fall rfl ?_)
      · have hne := ofNat_ne_zero (Nat.succ_pos rest.length) (by unfold maxhooks at hlen; omega)
        simpa [Test.holds, ht1] using hne
      · rw [← hmem₂] at hlist
        exact l1_continues h₂ (p.aligned _) hlist hlen hin (by rw [hregs₂ _ (by decide), ht1]) ht3

/-! ### All calls -/

/-- A sequence of calls, each with the registers of the given core, and with the
memory that the call before it has left. -/
def Chain (p : Placement) (cores : ℕ → Core) : Prop :=
  ∀ n, program.Leads p.toLayout ⟨cores n, program.start .hookSetupThread⟩
    fun t => t.pc = .out (p.sym .setupThread) ∧ t.core.mem = (cores (n + 1)).mem

/-- The memory after `n` calls is that of the state which `calls` gives for the
words of the memory before them. -/
theorem calls_represents {cores : ℕ → Core} (hloaded : Loaded p jal hooks (cores 0).mem)
    (hin : HooksIn p hooks) (hcalled : ∀ n, Called p (cores n)) (hchain : Chain p cores) (n : ℕ) :
    Represents p jal hooks (cores n).mem
      (calls jal hooks (cores 0).mem.load32
        ((cores 0).mem.load32 (p.sym .ehBackup), (cores 0).mem.load32 (p.sym .ehBackup + 4))
        n) := by
  induction n with
  | zero => exact hloaded.represents
  | succ n ih =>
      have hone := hookSetupThread_continues (hcalled n) ih hin
      obtain ⟨t, ht, hout, hmem⟩ := hone.of_out (hchain n) (fun t ht => ⟨_, ht.pc⟩)
        fun t ht => ⟨_, ht.1⟩
      rw [calls_succ, ← hmem]
      exact ht.memory

end

end

end HookThread

end Ps2rd.Engine
