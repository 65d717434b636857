import Mathlib.Data.List.Infix
import Mathlib.Tactic
import Ps2rd.Basic

/-!
# The hooks around an IOP reset

The debugger replaces the system calls `SifSetDma` and `SifSetReg`.  A reset packet
that names an IOPRP image on the disc is not sent; `MySifRebootIop` reboots the IOP
instead, reloads the debugger's modules and asks `NewSifSetReg` to swallow the next
four calls, the ones that `sceSifResetIop` makes behind its packet.  After the fourth
the debugger is marked ready, and `debugger_loop` may talk to the IOP.

A call is one step here.  In particular `MySifRebootIop` runs to its end, so
`dma_hook_disabled`, which is set only inside of it, is 0 between two steps.
-/

namespace Ps2rd.Debugger

/-- The fields of `g_debugger_opts` that the hooks and `debugger_loop` read. -/
structure Opts where
  unhookIopReset : ℤ
  rpcMode : ℤ
  loadModules : ℤ

/-- `LOAD_MODULES_ON` -/
def loadModulesOn : ℤ := 1

/-- The options of `_init`. -/
def defaultOpts : Opts where
  unhookIopReset := 0
  rpcMode := 1
  loadModules := loadModulesOn

/-- What the hooks look at in a DMA transfer: two fields of the transfer itself, two of
the header of the packet it sends, and the bytes from `arg` on. -/
structure Transfer where
  attr : Word
  size : Word
  psize : Byte
  fcode : Word
  arg : ℕ → Byte

/-- The test of `HookSifSetDma` for a reset packet. -/
def Transfer.isReset (sdd : Transfer) : Bool :=
  sdd.attr == 0x44 && sdd.size == 0x68 && sdd.psize == 0x68 && sdd.fcode == 0x80000003

/-- The text `rom0:UDNL cdrom`. -/
def ioprpPattern : List Byte :=
  [0x72, 0x6f, 0x6d, 0x30, 0x3a, 0x55, 0x44, 0x4e, 0x4c, 0x20, 0x63, 0x64, 0x72, 0x6f, 0x6d]

/-- `ioprp_img`: the pattern starts at one of the bytes of `arg`. -/
def Transfer.ioprpImg (sdd : Transfer) : Bool :=
  (List.range 0x50).any fun i =>
    (List.range 15).all fun j => sdd.arg (i + j) == ioprpPattern.getD j 0

/-- The two system calls, with their arguments. -/
inductive Call
  | setDma (sdd : Transfer)
  | setReg (regnum regval : Word)

/-- `SifSetReg` was called. -/
def Call.isSetReg : Call → Bool
  | .setDma _ => false
  | .setReg _ _ => true

structure State where
  setRegHook : ℕ
  debuggerReady : Bool
  /-- the system calls lead to the hooks -/
  hooked : Bool
  iopRebootCount : ℕ
  /-- the calls that went to the original functions -/
  passed : List Call

/-- After `_init`. -/
def initial : State where
  setRegHook := 0
  debuggerReady := false
  hooked := true
  iopRebootCount := 0
  passed := []

namespace State

/-- The original function is called. -/
def pass (s : State) (call : Call) : State := { s with passed := s.passed ++ [call] }

/-- `MySifRebootIop`, as far as the hooks go.  The calls of `SifSetReg` that its own
`SifIopReset` makes belong to this one step and are no calls of the game: with
`set_reg_hook` at 0 `NewSifSetReg` passes them on, and whatever is left of an earlier
count is set back to 4 after them. -/
def mySifRebootIop (s : State) : State := { s with setRegHook := 4 }

def newSifSetDma (s : State) (sdd : Transfer) : State :=
  if sdd.ioprpImg then
    mySifRebootIop { s with iopRebootCount := s.iopRebootCount + 1 }
  else
    s.pass (.setDma sdd)

def hookSifSetDma (s : State) (sdd : Transfer) : State :=
  if sdd.isReset then s.newSifSetDma sdd else s.pass (.setDma sdd)

/-- The end of the reset, when `set_reg_hook` has come down to 0. -/
def complete (opts : Opts) (s : State) : State :=
  { s with
    debuggerReady := if opts.loadModules = loadModulesOn then true else s.debuggerReady
    hooked := if opts.unhookIopReset ≠ 0 then false else s.hooked }

def newSifSetReg (opts : Opts) (s : State) (regnum regval : Word) : State :=
  if s.setRegHook ≠ 0 then
    let s' := { s with setRegHook := s.setRegHook - 1 }
    if s'.setRegHook = 0 then s'.complete opts else s'
  else
    s.pass (.setReg regnum regval)

/-- A system call goes to the hook as long as that is installed. -/
def step (opts : Opts) (s : State) (call : Call) : State :=
  if s.hooked then
    match call with
    | .setDma sdd => s.hookSifSetDma sdd
    | .setReg regnum regval => s.newSifSetReg opts regnum regval
  else
    s.pass call

/-- The call is a reset that `MySifRebootIop` performs. -/
def intercepts (s : State) : Call → Bool
  | .setDma sdd => s.hooked && sdd.isReset && sdd.ioprpImg
  | .setReg _ _ => false

/-- `debugger_loop` starts an RPC: it calls `execRemoteCmd`, and that does not return
before its `rpcNTPBgetRemoteCmd`. -/
def startsRpc (opts : Opts) (s : State) : Bool := s.debuggerReady && opts.rpcMode != -1

/-- Everything that a call can do to the hooks: start a reset, count down, complete the
reset, or nothing. -/
inductive Effect (opts : Opts) (s : State) (call : Call) : State → Prop
  | reset (h : s.intercepts call = true) :
      Effect opts s call (mySifRebootIop { s with iopRebootCount := s.iopRebootCount + 1 })
  | count (n : ℕ) (hcall : call.isSetReg = true) (hhook : s.setRegHook = n + 2) :
      Effect opts s call { s with setRegHook := n + 1 }
  | last (hcall : call.isSetReg = true) (hhooked : s.hooked = true) (hhook : s.setRegHook = 1) :
      Effect opts s call (complete opts { s with setRegHook := 0 })
  | pass (h : s.intercepts call = false)
      (hcall : call.isSetReg = true → s.hooked = true → s.setRegHook = 0) :
      Effect opts s call (s.pass call)

theorem effect_step (opts : Opts) (s : State) (call : Call) :
    Effect opts s call (s.step opts call) := by
  cases hhooked : s.hooked with
  | false =>
      have hstep : s.step opts call = s.pass call := by simp [step, hhooked]
      rw [hstep]
      refine .pass ?_ (by simp [hhooked])
      cases call <;> simp [intercepts, hhooked]
  | true =>
      cases call with
      | setDma sdd =>
          by_cases hreset : sdd.isReset = true ∧ sdd.ioprpImg = true
          · have hstep : s.step opts (.setDma sdd) =
                mySifRebootIop { s with iopRebootCount := s.iopRebootCount + 1 } := by
              simp [step, hhooked, hookSifSetDma, newSifSetDma, hreset]
            rw [hstep]
            exact .reset (by simp [intercepts, hhooked, hreset])
          · have hstep : s.step opts (.setDma sdd) = s.pass (.setDma sdd) := by
              simp only [step, hhooked, if_true, hookSifSetDma, newSifSetDma]
              split_ifs with h₁ h₂
              · exact absurd ⟨h₁, h₂⟩ hreset
              · rfl
              · rfl
            rw [hstep]
            refine .pass ?_ (by simp [Call.isSetReg])
            simpa [intercepts, hhooked] using hreset
      | setReg regnum regval =>
          have hstep : s.step opts (.setReg regnum regval) =
              s.newSifSetReg opts regnum regval := by simp [step, hhooked]
          rw [hstep, newSifSetReg]
          match hhook : s.setRegHook with
          | 0 =>
              rw [if_neg (by simp)]
              exact .pass rfl fun _ _ => hhook
          | 1 => exact .last rfl hhooked hhook
          | n + 2 => exact .count n rfl hhook

/-- The debugger is not ready while a reset is pending. -/
def Settled (s : State) : Prop := s.debuggerReady = true → s.setRegHook = 0

section Effects

variable {opts : Opts} {s t : State} {call : Call}

theorem hooked_of_intercepts (h : s.intercepts call = true) : s.hooked = true := by
  cases call with
  | setDma sdd =>
      simp only [intercepts, Bool.and_eq_true] at h
      exact h.1.1
  | setReg regnum regval => cases h

theorem Effect.eq_of_intercepts (heffect : Effect opts s call t) (h : s.intercepts call = true) :
    t = mySifRebootIop { s with iopRebootCount := s.iopRebootCount + 1 } := by
  have hsetReg : call.isSetReg ≠ true := by
    intro hcall
    cases call with
    | setDma sdd => cases hcall
    | setReg regnum regval => cases h
  cases heffect with
  | reset _ => rfl
  | count n hcall _ => exact absurd hcall hsetReg
  | last hcall _ _ => exact absurd hcall hsetReg
  | pass hnot _ =>
      rw [hnot] at h
      cases h

/-- Only a reset can make a reset pending, so only a reset of a ready debugger is in
the way of this. -/
theorem Effect.settled (heffect : Effect opts s call t) (hs : Settled s)
    (hreset : s.intercepts call = true → s.debuggerReady = false) : Settled t := by
  intro hready
  cases heffect with
  | reset h =>
      rw [mySifRebootIop, hreset h] at hready
      cases hready
  | count n hcall hhook =>
      have hzero := hs hready
      omega
  | last hcall hhooked hhook => rfl
  | pass h hcall => exact hs hready

/-- A pending reset takes as many calls of `SifSetReg` as `set_reg_hook` says. -/
theorem Effect.pending (heffect : Effect opts s call t) {n : ℕ} (hhooked : s.hooked = true)
    (hpending : 4 ≤ s.setRegHook + n) (hn : n + (if call.isSetReg then 1 else 0) < 4) :
    t.hooked = true ∧ 4 ≤ t.setRegHook + (n + if call.isSetReg then 1 else 0) := by
  cases heffect with
  | reset h => exact ⟨hhooked, Nat.le_add_right 4 _⟩
  | count m hcall hhook =>
      rw [if_pos hcall]
      refine ⟨hhooked, ?_⟩
      dsimp only
      omega
  | last hcall _ hhook =>
      rw [if_pos hcall] at hn
      omega
  | pass h hcall => exact ⟨hhooked, hpending.trans (Nat.add_le_add_left (Nat.le_add_right n _) _)⟩

end Effects

end State

open State

/-- The state after some calls. -/
def run (opts : Opts) (calls : List Call) : State := calls.foldl (step opts) initial

@[simp] theorem run_append (opts : Opts) (calls : List Call) (call : Call) :
    run opts (calls ++ [call]) = (run opts calls).step opts call := by
  simp [run]

/-- What every call preserves holds after all of them.  What a call preserves may rest
on a condition on the state before it. -/
theorem run_induction {opts : Opts} {P : State → Prop} {ok : State → Call → Prop}
    (hinit : P initial) (hstep : ∀ s call, P s → ok s call → P (s.step opts call))
    (calls : List Call)
    (hok : ∀ before call, before ++ [call] <+: calls → ok (run opts before) call) :
    P (run opts calls) := by
  induction calls using List.reverseRecOn with
  | nil => exact hinit
  | append_singleton calls call ih =>
      rw [run_append]
      refine hstep _ _ (ih fun before c hbefore => hok before c ?_) (hok calls call List.prefix_rfl)
      exact hbefore.trans (List.prefix_append calls [call])

/-- A reset that was intercepted is pending until `SifSetReg` has been called four
times. -/
theorem pending_of_intercepts (opts : Opts) (before : List Call) {call : Call}
    (hcall : (run opts before).intercepts call = true) (after : List Call)
    (hafter : after.countP Call.isSetReg < 4) :
    (run opts (before ++ call :: after)).hooked = true ∧
      4 ≤ (run opts (before ++ call :: after)).setRegHook + after.countP Call.isSetReg := by
  induction after using List.reverseRecOn with
  | nil =>
      rw [run_append, (effect_step opts (run opts before) call).eq_of_intercepts hcall]
      exact ⟨hooked_of_intercepts hcall, le_rfl⟩
  | append_singleton after next ih =>
      rw [List.countP_append, List.countP_singleton] at hafter ⊢
      obtain ⟨hhooked, hpending⟩ := ih (by omega)
      rw [← List.cons_append, ← List.append_assoc, run_append]
      exact (effect_step opts _ next).pending hhooked hpending hafter

/-- The debugger is ready only when no reset is pending, and `debugger_loop` leaves the
IOP alone from an intercepted reset to the fourth `SifSetReg` behind it. -/
structure WaitsForReset (opts : Opts) (calls : List Call) : Prop where
  settled : ∀ before, before <+: calls → Settled (run opts before)
  quiet : ∀ before call after, before ++ call :: after <+: calls →
    (run opts before).intercepts call = true → after.countP Call.isSetReg < 4 →
      (run opts (before ++ call :: after)).startsRpc opts = false

/-- For which calls that is so: those by which no reset is intercepted when the debugger
is already marked ready. -/
theorem waitsForReset_iff (opts : Opts) (calls : List Call) :
    WaitsForReset opts calls ↔ ∀ before call, before ++ [call] <+: calls →
      (run opts before).intercepts call = true → (run opts before).debuggerReady = false := by
  constructor
  · intro h before call hbefore hcall
    have hsettled := h.settled _ hbefore
    -- the reset leaves `debugger_ready` as it was
    rw [run_append, (effect_step opts _ call).eq_of_intercepts hcall] at hsettled
    rw [Bool.eq_false_iff]
    intro hready
    exact absurd (hsettled hready) (by simp [mySifRebootIop])
  · intro hcond
    have hsettled : ∀ before, before <+: calls → Settled (run opts before) := by
      intro before hbefore
      refine run_induction (fun h => by cases h)
        (fun s call hs hok => (effect_step opts s call).settled hs hok) before ?_
      intro first call hfirst
      exact hcond first call (hfirst.trans hbefore)
    refine ⟨hsettled, fun before call after hafter hcall hcount => ?_⟩
    obtain ⟨-, hpending⟩ := pending_of_intercepts opts before hcall after hcount
    rw [startsRpc, Bool.and_eq_false_iff, Bool.eq_false_iff]
    left
    intro hready
    have hzero := hsettled _ hafter hready
    omega

/-- A transfer that resets the IOP with an image on the disc. -/
def discReset : Transfer where
  attr := 0x44
  size := 0x68
  psize := 0x68
  fcode := 0x80000003
  arg := fun i => ioprpPattern.getD i 0

/-- What `sceSifResetIop` calls. -/
def resetCalls : List Call :=
  [.setDma discReset, .setReg 4 0x10000, .setReg 4 0x20000, .setReg 0x80000002 0,
    .setReg 0x80000000 0]

/-- A game that resets the IOP a second time finds the debugger ready: it polls the IOP
that is being rebooted. -/
theorem not_waitsForReset_twice :
    (run defaultOpts (resetCalls ++ [.setDma discReset])).setRegHook = 4 ∧
      (run defaultOpts (resetCalls ++ [.setDma discReset])).startsRpc defaultOpts = true ∧
      ¬ WaitsForReset defaultOpts (resetCalls ++ [.setDma discReset]) := by
  have hhook : (run defaultOpts (resetCalls ++ [.setDma discReset])).setRegHook = 4 := by decide
  have hstarts : (run defaultOpts (resetCalls ++ [.setDma discReset])).startsRpc defaultOpts =
      true := by decide
  refine ⟨hhook, hstarts, fun h => ?_⟩
  have hquiet := h.quiet resetCalls (.setDma discReset) [] List.prefix_rfl (by decide) (by decide)
  rw [hquiet] at hstarts
  cases hstarts

/-! ### Which options are safe -/

/-- Without the modules the debugger is never marked ready. -/
theorem not_ready_of_loadModules_off {opts : Opts} (hoff : opts.loadModules ≠ loadModulesOn)
    (calls : List Call) : (run opts calls).debuggerReady = false := by
  refine @run_induction opts (fun s => s.debuggerReady = false) (fun _ _ => True) rfl ?_ calls
    fun _ _ _ => trivial
  intro s call hs _
  have heffect := effect_step opts s call
  generalize s.step opts call = t at heffect ⊢
  cases heffect with
  | reset h => exact hs
  | count n hcall hhook => exact hs
  | last hcall hhooked hhook =>
      rw [complete, if_neg hoff]
      exact hs
  | pass h hcall => exact hs

/-- With `unhook_iop_reset` the hooks are gone when it is. -/
theorem not_hooked_of_unhook {opts : Opts} (hunhook : opts.unhookIopReset ≠ 0)
    (calls : List Call) :
    (run opts calls).debuggerReady = true → (run opts calls).hooked = false := by
  refine @run_induction opts (fun s => s.debuggerReady = true → s.hooked = false)
    (fun _ _ => True) (fun h => by cases h) ?_ calls fun _ _ _ => trivial
  intro s call hs _
  have heffect := effect_step opts s call
  generalize s.step opts call = t at heffect ⊢
  cases heffect with
  | reset h => exact hs
  | count n hcall hhook => exact hs
  | last hcall hhooked hhook =>
      intro _
      rw [complete, if_pos hunhook]
  | pass h hcall => exact hs

/-- The options under which a game may reset the IOP as often as it likes. -/
theorem forall_ready_iff (opts : Opts) :
    (∀ before call, (run opts before).intercepts call = true →
        (run opts before).debuggerReady = false) ↔
      opts.loadModules ≠ loadModulesOn ∨ opts.unhookIopReset ≠ 0 := by
  constructor
  · intro h
    by_contra hopts
    push Not at hopts
    obtain ⟨hload, hunhook⟩ := hopts
    have hready : (run opts resetCalls).debuggerReady = true ∧
        (run opts resetCalls).hooked = true := by
      obtain ⟨unhook, mode, load⟩ := opts
      cases hload
      cases hunhook
      exact ⟨rfl, rfl⟩
    have hnot := h resetCalls (.setDma discReset) (by
      rw [intercepts, hready.2]
      decide)
    rw [hready.1] at hnot
    cases hnot
  · rintro (hload | hunhook) before call hcall
    · exact not_ready_of_loadModules_off hload before
    · rw [Bool.eq_false_iff]
      intro hready
      have hhooked := hooked_of_intercepts hcall
      rw [not_hooked_of_unhook hunhook before hready] at hhooked
      cases hhooked

end Ps2rd.Debugger
