import Ps2rd.Mips.Memory

/-!
# Hooking the game

`HookSetupThread` runs before each `SetupThread` syscall, so once per ELF.  It
looks for the first hook whose value is the opcode at its address, copies the
opcode and the one after it to `eh_backup`, and writes a jal to the engine and a
nop over them.  There is one `eh_backup` for all hooks: `EngineHandler` executes
the two opcodes kept there for whatever location it was called from.

A second call finds the first location hooked and goes on to the next entry of
the list that matches.  `restorable_iff` says for which hook lists and games all
calls together keep what a single call promises.
-/

namespace Ps2rd.Engine

open Mips

/-- An entry of `hooklist`; `add_hook` cuts the address down to a word address. -/
structure Hook where
  addr : Word
  val : Word
  aligned : Aligned 4 addr

/-- The two opcodes that a call found at the location it hooked. -/
structure Injection where
  addr : Word
  words : Word × Word
deriving DecidableEq

/-- The words of the game's memory, `eh_backup`, and the injections made so far. -/
structure HookState where
  mem : Word → Word
  ehBackup : Word × Word
  injected : List Injection

/-- The address of the first hook that matches the memory. -/
def firstMatch (mem : Word → Word) : List Hook → Option Word
  | [] => none
  | hook :: rest =>
      if hook.addr ≠ 0 ∧ mem hook.addr = hook.val then some hook.addr else firstMatch mem rest

/-- The memory with a jal and a nop at `p`. -/
def hookedMem (jal : Word) (mem : Word → Word) (p : Word) : Word → Word := fun a =>
  if a = p + 4 then 0 else if a = p then jal else mem a

/-- `HookSetupThread`; `jal` is the word at `jal_EngineHandler`. -/
def hookSetupThread (jal : Word) (hooks : List Hook) (s : HookState) : HookState :=
  match firstMatch s.mem hooks with
  | none => s
  | some p =>
      { mem := hookedMem jal s.mem p
        ehBackup := (s.mem p, s.mem (p + 4))
        injected := ⟨p, s.mem p, s.mem (p + 4)⟩ :: s.injected }

/-- What the calls owe the game that was started with the memory `mem`. -/
structure Restorable (hooks : List Hook) (mem : Word → Word) (s : HookState) : Prop where
  /-- Each hooked location finds its own opcodes in `eh_backup`. -/
  backup : ∀ e ∈ s.injected, s.ehBackup = e.words
  /-- At most one location is hooked. -/
  single : ∀ e ∈ s.injected, ∀ e' ∈ s.injected, e.addr = e'.addr
  /-- Nothing but the hooked pair of words is changed. -/
  frame : ∀ a, (∀ e ∈ s.injected, a ≠ e.addr ∧ a ≠ e.addr + 4) → s.mem a = mem a
  /-- The location hooked is that of the first hook that matches the game. -/
  first : ∀ e ∈ s.injected, firstMatch mem hooks = some e.addr

/-- What it takes that hooking `p` leaves nothing for a later call: `p` already
holds a jal to the engine and a nop, or there is no hook that looks for the jal at
`p`, for the nop after it, or for what the memory holds anywhere else. -/
def Settled (jal : Word) (hooks : List Hook) (mem : Word → Word) (p : Word) : Prop :=
  (mem p = jal ∧ mem (p + 4) = 0) ∨
    ∀ hook ∈ hooks, hook.addr ≠ 0 →
      (hook.addr = p → hook.val ≠ jal) ∧ (hook.addr = p + 4 → hook.val ≠ 0) ∧
        (hook.addr ≠ p → hook.addr ≠ p + 4 → hook.val ≠ mem hook.addr)

section

variable {jal : Word} {hooks : List Hook} {mem : Word → Word} {p : Word} {s : HookState}

theorem firstMatch_eq_none_iff :
    firstMatch mem hooks = none ↔ ∀ hook ∈ hooks, hook.addr ≠ 0 → mem hook.addr ≠ hook.val := by
  induction hooks with
  | nil => simp [firstMatch]
  | cons hook rest ih =>
      rw [firstMatch, List.forall_mem_cons, ← ih]
      by_cases h : hook.addr ≠ 0 ∧ mem hook.addr = hook.val
      · rw [if_pos h]
        exact ⟨fun hnone => (nomatch hnone), fun hboth => absurd h.2 (hboth.1 h.1)⟩
      · rw [if_neg h]
        constructor
        · exact fun hnone => ⟨fun hne heq => h ⟨hne, heq⟩, hnone⟩
        · exact fun hboth => hboth.2

theorem hookSetupThread_of_none (h : firstMatch s.mem hooks = none) :
    hookSetupThread jal hooks s = s := by
  rw [hookSetupThread, h]

theorem hookSetupThread_of_some (h : firstMatch s.mem hooks = some p) :
    hookSetupThread jal hooks s =
      { mem := hookedMem jal s.mem p
        ehBackup := (s.mem p, s.mem (p + 4))
        injected := ⟨p, s.mem p, s.mem (p + 4)⟩ :: s.injected } := by
  rw [hookSetupThread, h]

theorem hookedMem_eq_self (h : mem p = jal) (h4 : mem (p + 4) = 0) :
    hookedMem jal mem p = mem := by
  funext a
  unfold hookedMem
  split_ifs with ha ha
  · rw [ha, h4]
  · rw [ha, h]
  · rfl

theorem add_four_ne (a : Word) : a + 4 ≠ a := by
  intro h
  bv_omega

theorem hookedMem_ne_iff {a v : Word} :
    hookedMem jal mem p a ≠ v ↔
      (a = p → v ≠ jal) ∧ (a = p + 4 → v ≠ 0) ∧ (a ≠ p → a ≠ p + 4 → v ≠ mem a) := by
  unfold hookedMem
  split_ifs with h4 hp
  · constructor
    · intro h
      exact ⟨fun hp => absurd (h4.symm.trans hp) (add_four_ne p), fun _ => h.symm,
        fun _ hne => absurd h4 hne⟩
    · exact fun h => (h.2.1 h4).symm
  · constructor
    · intro h
      exact ⟨fun _ => h.symm, fun heq => absurd heq h4, fun hne => absurd hp hne⟩
    · exact fun h => (h.1 hp).symm
  · constructor
    · intro h
      exact ⟨fun heq => absurd heq hp, fun heq => absurd heq h4, fun _ _ => h.symm⟩
    · exact fun h => (h.2.2 hp h4).symm

/-- The next call finds nothing to hook. -/
theorem firstMatch_hookedMem_eq_none_iff :
    firstMatch (hookedMem jal mem p) hooks = none ↔
      ∀ hook ∈ hooks, hook.addr ≠ 0 →
        (hook.addr = p → hook.val ≠ jal) ∧ (hook.addr = p + 4 → hook.val ≠ 0) ∧
          (hook.addr ≠ p → hook.addr ≠ p + 4 → hook.val ≠ mem hook.addr) := by
  simp only [firstMatch_eq_none_iff, hookedMem_ne_iff]

/-! ### One call and all calls -/

/-- The state after the first call, as long as the calls after it do no harm. -/
structure Hooked (jal : Word) (mem : Word → Word) (p : Word) (s : HookState) : Prop where
  changed : s.mem = hookedMem jal mem p
  backup : s.ehBackup = (mem p, mem (p + 4))
  nonempty : s.injected ≠ []
  injected : ∀ e ∈ s.injected, e = ⟨p, mem p, mem (p + 4)⟩

theorem hooked_first (hfirst : firstMatch mem hooks = some p) (backup : Word × Word) :
    Hooked jal mem p (hookSetupThread jal hooks ⟨mem, backup, []⟩) := by
  rw [hookSetupThread_of_some (s := ⟨mem, backup, []⟩) hfirst]
  exact ⟨rfl, rfl, List.cons_ne_nil _ _, List.forall_mem_singleton.mpr rfl⟩

theorem Hooked.call (h : Hooked jal mem p s) (hfirst : firstMatch mem hooks = some p)
    (hsettled : Settled jal hooks mem p) : Hooked jal mem p (hookSetupThread jal hooks s) := by
  rcases hsettled with ⟨hjal, hnop⟩ | hnone
  · have hself := hookedMem_eq_self hjal hnop
    have hmem : s.mem = mem := h.changed.trans hself
    rw [hookSetupThread_of_some (s := s) (p := p) (by rw [hmem, hfirst]), hmem]
    exact ⟨rfl, rfl, List.cons_ne_nil _ _, List.forall_mem_cons.mpr ⟨rfl, h.injected⟩⟩
  · rw [hookSetupThread_of_none]
    · exact h
    · rw [h.changed, firstMatch_hookedMem_eq_none_iff]
      exact hnone

theorem Hooked.restorable (h : Hooked jal mem p s) (hfirst : firstMatch mem hooks = some p) :
    Restorable hooks mem s where
  backup e he := by rw [h.injected e he, h.backup]
  single e he e' he' := by rw [h.injected e he, h.injected e' he']
  first e he := by rw [h.injected e he, hfirst]
  frame a ha := by
    obtain ⟨e, he⟩ := List.exists_mem_of_ne_nil _ h.nonempty
    have hne := ha e he
    rw [h.injected e he] at hne
    rw [h.changed, hookedMem, if_neg hne.2, if_neg hne.1]

variable (jal hooks) in
/-- The state after `n` calls, for a game that starts with the memory `mem`. -/
def calls (mem : Word → Word) (backup : Word × Word) (n : ℕ) : HookState :=
  (hookSetupThread jal hooks)^[n] ⟨mem, backup, []⟩

theorem calls_succ (backup : Word × Word) (n : ℕ) :
    calls jal hooks mem backup (n + 1) = hookSetupThread jal hooks (calls jal hooks mem backup n) :=
  Function.iterate_succ_apply' _ _ _

theorem calls_of_none (h : firstMatch mem hooks = none) (backup : Word × Word) (n : ℕ) :
    calls jal hooks mem backup n = ⟨mem, backup, []⟩ := by
  induction n with
  | zero => rfl
  | succ n ih => rw [calls_succ, ih, hookSetupThread_of_none h]

theorem hooked_calls (hfirst : firstMatch mem hooks = some p) (hsettled : Settled jal hooks mem p)
    (backup : Word × Word) (n : ℕ) : Hooked jal mem p (calls jal hooks mem backup (n + 1)) := by
  induction n with
  | zero => exact hooked_first hfirst backup
  | succ n ih =>
      rw [calls_succ]
      exact ih.call hfirst hsettled

theorem restorable_start (backup : Word × Word) : Restorable hooks mem ⟨mem, backup, []⟩ := by
  constructor <;> simp

/-- Two calls that keep their promise leave nothing to match. -/
theorem settled_of_restorable {backup : Word × Word} (hfirst : firstMatch mem hooks = some p)
    (h : Restorable hooks mem (calls jal hooks mem backup 2)) : Settled jal hooks mem p := by
  have hone : calls jal hooks mem backup 1 =
      ⟨hookedMem jal mem p, (mem p, mem (p + 4)), [⟨p, mem p, mem (p + 4)⟩]⟩ :=
    hookSetupThread_of_some (s := ⟨mem, backup, []⟩) hfirst
  cases hsecond : firstMatch (hookedMem jal mem p) hooks with
  | none => exact .inr (firstMatch_hookedMem_eq_none_iff.mp hsecond)
  | some q =>
      rw [calls_succ, hone, hookSetupThread_of_some hsecond] at h
      -- the second call may only have hooked `p` again, and found what the first one found
      have hq : q = p :=
        h.single _ List.mem_cons_self _ (List.mem_cons_of_mem _ List.mem_cons_self)
      have hwords := h.backup _ (List.mem_cons_of_mem _ List.mem_cons_self)
      subst hq
      simp only [hookedMem, if_neg (add_four_ne q).symm, if_true, Prod.mk.injEq] at hwords
      exact .inl ⟨hwords.1.symm, hwords.2.symm⟩

end

/-- All calls keep their promise exactly when the first one leaves nothing that
a later one could match. -/
theorem restorable_iff (jal : Word) (hooks : List Hook) (mem : Word → Word)
    (backup : Word × Word) :
    (∀ n, Restorable hooks mem (calls jal hooks mem backup n)) ↔
      ∀ p, firstMatch mem hooks = some p → Settled jal hooks mem p := by
  constructor
  · exact fun h p hfirst => settled_of_restorable hfirst (h 2)
  · intro h n
    cases hfirst : firstMatch mem hooks with
    | none =>
        rw [calls_of_none hfirst]
        exact restorable_start backup
    | some p =>
        cases n with
        | zero => exact restorable_start backup
        | succ n => exact (hooked_calls hfirst (h p hfirst) backup n).restorable hfirst

/-- Two hooks that match the same game, as for a game with two ELFs that share
a library. -/
def twoHooks : List Hook :=
  [⟨0x2D51F8, 0x0C0B95F6, by decide⟩, ⟨0x12AC28, 0x03E00008, by decide⟩]

def twoHooksMem : Word → Word := fun a => if a = 0x2D51F8 then 0x0C0B95F6 else 0x03E00008

theorem twoHooks_not_restorable :
    ¬ Restorable twoHooks twoHooksMem (calls 0x0C020002 twoHooks twoHooksMem (0, 0) 2) := by
  intro h
  exact absurd (h.single ⟨0x12AC28, 0x03E00008, 0x03E00008⟩ (by decide)
    ⟨0x2D51F8, 0x0C0B95F6, 0x03E00008⟩ (by decide)) (by decide)

end Ps2rd.Engine
