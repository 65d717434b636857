import Ps2rd.Debugger.PatchCalls
import Ps2rd.Lib.BoundedLog
import Ps2rd.Lib.Run
import Mathlib.Data.List.GetD

/-!
# What the table of hooked calls records

The table is never cleared between two patch runs, so it has to be described after any
number of calls of `add_autohook`.  It then holds a log of at most `MAX_HOOKS` addresses
(`TableHolds`): `clear_autohook_tab` makes it hold the empty log, and a call inserts its
address (`TableHolds.insert`) or, when the log does not accept it, changes nothing.
Between the calls the rest of the program may write anywhere else, as `patch_padRead` does
with the game (`exists_tableRun_patchPadRead`).

An address of the log is never 0, and the entries behind the log are 0 in both words.  This
is what ends the search: it cannot get past entry `MAX_HOOKS`, which no log reaches.
-/

namespace Ps2rd.Debugger

open Mips

/-! ### Entries -/

/-- Address and opcode of entry `i`. -/
def entryAt (mem : Mem) (i : ℕ) : Word × Word :=
  (mem.load32 (autoHook i), mem.load32 (autoHook i + 4))

theorem entryAt_eq (mem : Mem) (i : ℕ) :
    entryAt mem i = (mem.load32 (hookWord (2 * i)), mem.load32 (hookWord (2 * i + 1))) := by
  rw [entryAt, autoHook_eq_hookWord, hookWord_add_four]

section Entries

variable {mem mem' : Mem} {i j : ℕ}

theorem words_of_entry (hi : i ≤ maxHooks) : 2 * i < numHookWords ∧ 2 * i + 1 < numHookWords := by
  unfold numHookWords
  omega

theorem entryAt_clearAutohookTab (mem : Mem) (hi : i ≤ maxHooks) :
    entryAt (clearAutohookTab mem) i = (0, 0) := by
  obtain ⟨hfirst, hsecond⟩ := words_of_entry hi
  rw [entryAt_eq, load32_clearAutohookTab mem hfirst, load32_clearAutohookTab mem hsecond]

theorem entryAt_congr (hi : i ≤ maxHooks)
    (heq : ∀ b, InRange hooksBase hooksSize b → mem' b = mem b) :
    entryAt mem' i = entryAt mem i := by
  obtain ⟨hfirst, hsecond⟩ := words_of_entry hi
  have hword {w : ℕ} (hw : w < numHookWords) :
      mem'.load32 (hookWord w) = mem.load32 (hookWord w) :=
    Mem.load32_congr fun b hb => heq b (inRange_hooks_of_hookWord hw hb)
  rw [entryAt_eq, entryAt_eq, hword hfirst, hword hsecond]

/-- The entry that `add_autohook` writes, and the others. -/
theorem entryAt_store (e : Word × Word) (hi : i ≤ maxHooks) (hj : j ≤ maxHooks) :
    entryAt ((mem.store 4 (autoHook j) e.1).store 4 (autoHook j + 4) e.2) i =
      if i = j then e else entryAt mem i := by
  obtain ⟨hi₀, hi₁⟩ := words_of_entry hi
  obtain ⟨hj₀, hj₁⟩ := words_of_entry hj
  rw [entryAt_eq, entryAt_eq, autoHook_eq_hookWord, hookWord_add_four,
    load32_store_hookWord _ _ hj₁ hi₀, load32_store_hookWord _ _ hj₀ hi₀,
    load32_store_hookWord _ _ hj₁ hi₁, load32_store_hookWord _ _ hj₀ hi₁,
    if_neg (by omega : 2 * i ≠ 2 * j + 1), if_neg (by omega : 2 * i + 1 ≠ 2 * j)]
  by_cases h : i = j
  · rw [if_pos h, if_pos (by omega), if_pos (by omega)]
  · rw [if_neg h, if_neg (by omega), if_neg (by omega)]

end Entries

/-! ### The table as a log -/

/-- The log of the table: addresses with their opcodes. -/
abbrev HookLog := BoundedLog maxHooks Word Word

/-- The table holds the log, and zeros behind it. -/
structure TableHolds (log : HookLog) (mem : Mem) : Prop where
  entry : ∀ i ≤ maxHooks, entryAt mem i = log.entries.getD i (0, 0)
  ne_zero : ∀ a ∈ log.keys, a ≠ 0

theorem tableHolds_clearAutohookTab (mem : Mem) : TableHolds .empty (clearAutohookTab mem) where
  entry _ hi := entryAt_clearAutohookTab mem hi
  ne_zero _ ha := absurd ha List.not_mem_nil

namespace TableHolds

variable {log : HookLog} {mem mem' : Mem} {hookAddr origOpcode : Word} {fuel i : ℕ}

theorem congr (h : TableHolds log mem)
    (heq : ∀ b, InRange hooksBase hooksSize b → mem' b = mem b) : TableHolds log mem' where
  entry i hi := (entryAt_congr hi heq).trans (h.entry i hi)
  ne_zero := h.ne_zero

theorem address (h : TableHolds log mem) (hi : i ≤ maxHooks) :
    mem.load32 (autoHook i) = log.keys.getD i 0 := by
  have hentry := congrArg Prod.fst (h.entry i hi)
  exact hentry.trans (List.getD_map _ _ Prod.fst).symm

/-- The search finds a recorded address, or else the first entry behind the log. -/
theorem searchHook_eq (h : TableHolds log mem) (hookAddr : Word) (hi : i ≤ log.entries.length)
    (hfuel : log.entries.length < fuel + i) :
    searchHook mem hookAddr fuel i =
      some (if hookAddr ∈ log.keys.drop i then none else some log.entries.length) := by
  have hlength := log.length_keys
  have hmax := log.length_le
  induction fuel generalizing i with
  | zero => omega
  | succ fuel ih =>
      rw [searchHook, h.address (by omega)]
      rcases Nat.lt_or_eq_of_le hi with hlt | rfl
      · have hkeys : i < log.keys.length := hlength.symm ▸ hlt
        have hkey : log.keys.getD i 0 = log.keys[i] := List.getD_eq_getElem _ _ hkeys
        have hmem : hookAddr ∈ log.keys.drop i ↔
            hookAddr = log.keys[i] ∨ hookAddr ∈ log.keys.drop (i + 1) := by
          rw [List.drop_eq_getElem_cons hkeys, List.mem_cons]
        rw [hkey, if_neg (h.ne_zero _ (List.getElem_mem _)), ih hlt (by omega)]
        by_cases heq : log.keys[i] = hookAddr
        · rw [if_pos heq, if_pos (hmem.mpr (.inl heq.symm))]
        · simp only [heq, hmem, Ne.symm heq, if_false, false_or]
      · rw [List.getD_eq_default _ _ (by omega), if_pos rfl, List.drop_eq_nil_of_le (by omega)]
        simp

theorem addAutohook_of_not_accepts (h : TableHolds log mem) (hlog : ¬ log.Accepts hookAddr)
    (hfuel : maxHooks < fuel) : addAutohook fuel mem hookAddr origOpcode = some (0, mem) := by
  have hmax := log.length_le
  rw [addAutohook, h.searchHook_eq hookAddr (Nat.zero_le _) (by omega), List.drop_zero]
  by_cases hmem : hookAddr ∈ log.keys
  · rw [if_pos hmem]
    rfl
  · have hfull : maxHooks ≤ log.entries.length := Nat.not_lt.mp fun hlt => hlog ⟨hmem, hlt⟩
    rw [if_neg hmem]
    exact congrArg some (if_pos hfull)

theorem addAutohook_of_accepts (h : TableHolds log mem) (hlog : log.Accepts hookAddr)
    (hfuel : maxHooks < fuel) : addAutohook fuel mem hookAddr origOpcode =
      some (1, (mem.store 4 (autoHook log.entries.length) hookAddr).store 4
        (autoHook log.entries.length + 4) origOpcode) := by
  have hlt := hlog.2
  rw [addAutohook, h.searchHook_eq hookAddr (Nat.zero_le _) (by omega), List.drop_zero,
    if_neg hlog.1]
  exact congrArg some (if_neg (Nat.not_le.mpr hlt))

/-- A call returns, and the table then holds the log with its address inserted. -/
theorem insert (h : TableHolds log mem) (hne : hookAddr ≠ 0) (hfuel : maxHooks < fuel)
    (origOpcode : Word) :
    ∃ ret mem', addAutohook fuel mem hookAddr origOpcode = some (ret, mem') ∧
      TableHolds (log.insert (hookAddr, origOpcode)) mem' := by
  by_cases hlog : log.Accepts hookAddr
  · refine ⟨1, _, h.addAutohook_of_accepts hlog hfuel, fun i hi => ?_, fun a ha => ?_⟩
    · rw [entryAt_store (hookAddr, origOpcode) hi hlog.2.le, h.entry i hi,
        BoundedLog.entries_insert_of_accepts hlog]
      rcases Nat.lt_trichotomy i log.entries.length with hlt | heq | hgt
      · rw [if_neg hlt.ne, List.getD_append _ _ _ _ hlt]
      · simp [heq]
      · rw [if_neg hgt.ne', List.getD_eq_default _ _ hgt.le, List.getD_eq_default]
        simpa using hgt
    · rw [BoundedLog.keys, BoundedLog.entries_insert_of_accepts hlog, List.map_append,
        List.mem_append] at ha
      rcases ha with ha | ha
      · exact h.ne_zero a ha
      · rw [List.mem_singleton.mp ha]
        exact hne
  · rw [BoundedLog.insert_of_not_accepts hlog]
    exact ⟨0, mem, h.addAutohook_of_not_accepts hlog hfuel, h⟩

end TableHolds

/-! ### Runs -/

/-- What happens to the table: a call of `add_autohook`, or the rest of the program has
left memory as `mem`. -/
inductive TableEvent
  | call (hookAddr origOpcode : Word)
  | other (mem : Mem)

/-- The arguments of a call. -/
def TableEvent.args : TableEvent → Option (Word × Word)
  | .call hookAddr origOpcode => some (hookAddr, origOpcode)
  | .other _ => none

/-- Memory after an event. -/
def tableStep (fuel : ℕ) (mem : Mem) : TableEvent → Option Mem
  | .call hookAddr origOpcode => (addAutohook fuel mem hookAddr origOpcode).map Prod.snd
  | .other mem' => some mem'

/-- Hooks are not at address 0, and nobody else writes to the table. -/
def TableOk (mem : Mem) : TableEvent → Prop
  | .call hookAddr _ => hookAddr ≠ 0
  | .other mem' => ∀ b, InRange hooksBase hooksSize b → mem' b = mem b

/-- The run after `clear_autohook_tab`. -/
abbrev TableRun (fuel : ℕ) (mem : Mem) (events : List TableEvent) (mem' : Mem) : Prop :=
  Run (tableStep fuel) TableOk (clearAutohookTab mem) events mem'

/-- The calls of a run in their order. -/
def callsOf (events : List TableEvent) : List (Word × Word) := events.filterMap TableEvent.args

section Runs

variable {fuel : ℕ} {mem mem' : Mem} {events : List TableEvent}

/-- The table always holds the log of the calls made so far. -/
theorem tableHolds_of_run (hfuel : maxHooks < fuel) (hrun : TableRun fuel mem events mem') :
    TableHolds (.ofList (callsOf events)) mem' := by
  induction hrun with
  | nil => exact tableHolds_clearAutohookTab mem
  | @snoc events t u e _ hok hstep ih =>
      rw [callsOf, List.filterMap_append, ← callsOf]
      cases e with
      | call hookAddr origOpcode =>
          obtain ⟨ret, mem', hadd, hholds⟩ := ih.insert hok hfuel origOpcode
          rw [tableStep, hadd, Option.map_some, Option.some.injEq] at hstep
          rw [← hstep]
          change TableHolds (.ofList (callsOf events ++ [(hookAddr, origOpcode)])) mem'
          rwa [BoundedLog.ofList_concat]
      | other mem'' =>
          cases hstep
          change TableHolds (.ofList (callsOf events ++ [])) _
          rw [List.append_nil]
          exact ih.congr hok

/-- Every sequence of calls can be made. -/
theorem exists_tableRun (hfuel : maxHooks < fuel) (mem : Mem) {calls : List (Word × Word)}
    (hcalls : ∀ call ∈ calls, call.1 ≠ 0) :
    ∃ events mem', TableRun fuel mem events mem' ∧ callsOf events = calls := by
  induction calls using List.reverseRecOn with
  | nil => exact ⟨[], _, .nil, rfl⟩
  | append_singleton calls call ih =>
      obtain ⟨events, mem', hrun, rfl⟩ := ih fun c hc => hcalls c (List.mem_append_left _ hc)
      have hne := hcalls call (by simp)
      obtain ⟨ret, mem'', hadd, -⟩ := (tableHolds_of_run hfuel hrun).insert hne hfuel call.2
      refine ⟨events ++ [.call call.1 call.2], mem'', Run.snoc hrun ?_ ?_, ?_⟩
      · exact hne
      · rw [tableStep, hadd, Option.map_some]
      · rw [callsOf, List.filterMap_append]
        rfl

end Runs

/-- The first `maxHooks` distinct addresses of a sequence of calls, in its order. -/
def firstAddrs (calls : List (Word × Word)) : List Word :=
  (calls.map Prod.fst).eraseDups.take maxHooks

/-- Memory after the calls: what the table holds, and what a further call does. -/
structure LogsFirst (calls : List (Word × Word)) (mem : Mem) : Prop where
  distinct : (firstAddrs calls).Nodup
  address : ∀ i ≤ maxHooks, mem.load32 (autoHook i) = (firstAddrs calls).getD i 0
  opcode : ∀ i (hi : i < (firstAddrs calls).length),
    calls.lookup (firstAddrs calls)[i] = some (mem.load32 (autoHook i + 4))
  last : entryAt mem maxHooks = (0, 0)
  -- with this fuel no entry behind the last one is looked at
  scan : ∀ hookAddr, ∃ r, searchHook mem hookAddr (maxHooks + 1) 0 = some r ∧
    ∀ i ∈ r, i ≤ maxHooks
  refused : ∀ hookAddr origOpcode fuel, maxHooks < fuel →
    hookAddr ∈ firstAddrs calls ∨ (firstAddrs calls).length = maxHooks →
    addAutohook fuel mem hookAddr origOpcode = some (0, mem)
  added : ∀ hookAddr origOpcode fuel, maxHooks < fuel →
    hookAddr ∉ firstAddrs calls → (firstAddrs calls).length ≠ maxHooks →
    ∃ mem', addAutohook fuel mem hookAddr origOpcode = some (1, mem')

theorem keys_ofList_eq (calls : List (Word × Word)) :
    (BoundedLog.ofList calls : HookLog).keys = firstAddrs calls :=
  BoundedLog.keys_ofList calls

/-- A table that holds the log of the calls. -/
theorem TableHolds.logsFirst {calls : List (Word × Word)} {mem : Mem}
    (h : TableHolds (.ofList calls) mem) : LogsFirst calls mem := by
  have hkeys := keys_ofList_eq calls
  have hlength := (BoundedLog.ofList calls : HookLog).length_keys
  have hmax := (BoundedLog.ofList calls : HookLog).length_le
  rw [hkeys] at hlength
  have haccepts (a : Word) : (BoundedLog.ofList calls : HookLog).Accepts a ↔
      a ∉ firstAddrs calls ∧ (firstAddrs calls).length ≠ maxHooks := by
    rw [BoundedLog.Accepts, hkeys, ← hlength]
    rw [← hlength] at hmax
    exact and_congr_right fun _ => hmax.lt_iff_ne
  constructor
  · exact hkeys ▸ (BoundedLog.ofList calls : HookLog).nodup
  · intro i hi
    rw [h.address hi, hkeys]
  · intro i hi
    have hi' : i < (BoundedLog.ofList calls : HookLog).entries.length := hlength ▸ hi
    have hentry := h.entry i (by omega)
    rw [List.getD_eq_getElem _ _ hi'] at hentry
    have haddr : (firstAddrs calls)[i] = (entryAt mem i).1 := by
      rw [hentry]
      simp [← hkeys, BoundedLog.keys]
    rw [haddr, hentry]
    have hlookup := BoundedLog.lookup_of_mem_ofList (List.getElem_mem hi')
    rw [hlookup, ← hentry]
    rfl
  · rw [h.entry maxHooks le_rfl, List.getD_eq_default _ _ hmax]
  · intro hookAddr
    refine ⟨_, h.searchHook_eq hookAddr (Nat.zero_le _) (by omega), fun i hi => ?_⟩
    split_ifs at hi
    · cases hi
    · exact Option.some.inj hi ▸ hmax
  · intro hookAddr origOpcode fuel hfuel hrefused
    apply h.addAutohook_of_not_accepts _ hfuel
    rw [haccepts]
    tauto
  · intro hookAddr origOpcode fuel hfuel hnew hroom
    exact ⟨_, h.addAutohook_of_accepts ((haccepts hookAddr).mpr ⟨hnew, hroom⟩) hfuel⟩

/-- After `clear_autohook_tab` the table records the first `MAX_HOOKS` addresses that
`add_autohook` is called with, each once and with the opcode of its first call. -/
theorem logsFirst_of_run {fuel : ℕ} (hfuel : maxHooks < fuel) {mem mem' : Mem}
    {events : List TableEvent} (hrun : TableRun fuel mem events mem') :
    LogsFirst (callsOf events) mem' :=
  (tableHolds_of_run hfuel hrun).logsFirst

/-- Two calls for one address, then one for another. -/
def someCalls : List (Word × Word) :=
  [(0x00100000, 0x0c040100), (0x00100000, 0x0c020000), (0x00100010, 0x0c040100)]

theorem logsFirst_of_run_someCalls : ∃ events mem',
    TableRun (maxHooks + 1) (fun _ => 0) events mem' ∧ callsOf events = someCalls ∧
      LogsFirst (callsOf events) mem' := by
  have hne : ∀ call ∈ someCalls, call.1 ≠ 0 := by
    simp [someCalls]
  obtain ⟨events, mem', hrun, hcalls⟩ :=
    exists_tableRun (Nat.lt_succ_self maxHooks) (fun _ => 0) hne
  exact ⟨events, mem', hrun, hcalls, logsFirst_of_run (Nat.lt_succ_self maxHooks) hrun⟩

/-! ### Patch runs -/

section PatchRuns

variable {fuel : ℕ} {mem : Mem} {events : List TableEvent} {old new : Word}

/-- The events of a patch run so far, which has logged words `old` of the game. -/
def LogsWords (fuel : ℕ) (mem : Mem) (events : List TableEvent) (old : Word) (mem' : Mem) : Prop :=
  ∃ events', TableRun fuel mem (events ++ events') mem' ∧
    ∀ call ∈ callsOf events', InGame call.1 ∧ call.2 = old

/-- A call of the game is logged before it is overwritten. -/
theorem LogsWords.store {mem' mem'' : Mem} (h : LogsWords fuel mem events old mem') {j : ℕ}
    (hj : j < numWords) (hword : mem'.load32 (wordAddr j) = old)
    (hrecord : recordCall fuel mem' (wordAddr j) = some mem'') :
    LogsWords fuel mem events old (mem''.store 4 (wordAddr j) new) := by
  obtain ⟨events', hrun, hcalls⟩ := h
  have hcall : TableRun fuel mem ((events ++ events') ++ [.call (wordAddr j) old]) mem'' :=
    Run.snoc hrun (wordAddr_ne_zero hj.le) (hword ▸ hrecord)
  have hstore : TableOk mem'' (.other (mem''.store 4 (wordAddr j) new)) := fun b hb =>
    Mem.store_of_not_inRange fun hin =>
      not_inRange_hooks_of_inGame (inGame_of_inRange_wordAddr hj hin) hb
  have hgame : InGame (wordAddr j) := inGame_of_inRange_wordAddr hj (by simp [InRange])
  refine ⟨events' ++ [.call (wordAddr j) old, .other (mem''.store 4 (wordAddr j) new)], ?_, ?_⟩
  · simpa using Run.snoc hcall hstore rfl
  · intro call hmem
    rw [callsOf, List.filterMap_append, List.mem_append] at hmem
    rcases hmem with hmem | hmem
    · exact hcalls call hmem
    · rw [List.mem_singleton.mp hmem]
      exact ⟨hgame, rfl⟩

/-- The loop of `patch_padRead` logs calls only. -/
theorem LogsWords.patchCalls {s : Mem} (h : LogsWords fuel mem events old s) {s' : Mem}
    (hloop : patchCalls (recordCall fuel) old new fuel s = some s') :
    LogsWords fuel mem events old s' := by
  obtain ⟨t, hrun, rfl⟩ := Option.map_eq_some_iff.mp hloop
  -- the loop stands at a word of the game until it is done
  have hinv : (t.ptr = 0 ∨ ∃ k ≤ numWords, t.ptr = wordAddr k) ∧
      LogsWords fuel mem events old t.mem := by
    refine whileM_preserves (P := fun t => (t.ptr = 0 ∨ ∃ k ≤ numWords, t.ptr = wordAddr k) ∧
      LogsWords fuel mem events old t.mem) ?_ hrun ⟨.inr ⟨0, Nat.zero_le _, rfl⟩, h⟩
    rintro ⟨ptr, mem'⟩ t hgoes hbody ⟨hptr, hlogs⟩
    obtain ⟨k, hk, rfl⟩ := hptr.resolve_left (of_decide_eq_true hgoes)
    rcases patchCall_cases (recordCall fuel) old new mem' hk with
      ⟨-, hnone⟩ | ⟨j, -, hj, hword, -, hcall⟩
    · rw [hnone] at hbody
      cases hbody
      exact ⟨.inl rfl, hlogs⟩
    · rw [hcall] at hbody
      obtain ⟨mem'', hrecord, rfl⟩ := Option.map_eq_some_iff.mp hbody
      exact ⟨.inr ⟨j + 2, by omega, rfl⟩, hlogs.store (by omega) hword hrecord⟩
  exact hinv.2

/-- A patch run is made of calls of `add_autohook`, each for a call in the game, and of
writes outside of the table. -/
theorem exists_tableRun_patchPadRead {hooks : Hooks} {s s' : PadRead} {ret : ℕ}
    (hrun : TableRun fuel mem events s.mem) (hpatch : patchPadRead hooks fuel s = some (ret, s')) :
    ∃ target, LogsWords fuel mem events (jal target) s'.mem := by
  have hstart (target : Word) : LogsWords fuel mem events (jal target) s.mem := by
    refine ⟨[], by simpa using hrun, ?_⟩
    rintro call ⟨⟩
  obtain ⟨r, hlocate, hrest⟩ := Option.bind_eq_some_iff.mp hpatch
  rcases r with - | ⟨ptr, pat⟩
  · cases hrest
    exact ⟨0, hstart 0⟩
  · obtain ⟨mem', hloop, heq⟩ := Option.map_eq_some_iff.mp hrest
    cases heq
    simp only at hloop
    split_ifs at hloop <;> exact ⟨ptr, (hstart ptr).patchCalls hloop⟩

end PatchRuns

end Ps2rd.Debugger
