import Ps2rd.Debugger.AutoHook
import Ps2rd.Debugger.HookPatterns
import Ps2rd.Lib.While

/-!
# Redirecting the calls of a function

`patch_padRead` and `patch_loadModule` look for a function of the game by the patterns of a
table and replace every `jal` to it in the game's memory by a `jal` to the debugger's own
function.  After a call the search goes on two words further, behind the delay slot.

The loop is the same in both (`patchCalls`); `patch_padRead` also logs each call
with `add_autohook` before it overwrites it.  What the loop has done when it stands at word
`k` is the invariant `Progress`; what the whole function does is read off at its end.
-/

namespace Ps2rd.Debugger

open Mips

/-! ### The functions -/

/-- `start`, the first address of the game. -/
def scanStart : Word := 0x00100000

/-- The address at which both searches end. -/
def scanEnd : Word := 0x01f00000

/-- The instruction that calls the function at `target`. -/
def jal (target : Word) : Word := 0x0c000000#32 ||| (0x03ffffff#32 &&& (target >>> 2))

/-- The words from `ptr` on. -/
def wordsAt (mem : Mem) (ptr : Word) (k : ℕ) : Option Word :=
  some (mem.load32 (ptr + BitVec.ofNat 32 (4 * k)))

/-- The first pattern of the table that is found, and where. -/
def locate (mem : Mem) : List Pattern → Option (Option (Word × Pattern))
  | [] => some none
  | pat :: table =>
      (findPattern (wordsAt mem scanStart) (scanEnd - scanStart).toNat pat).bind fun
        | some i => some (some (scanStart + BitVec.ofNat 32 (4 * i), pat))
        | none => locate mem table

/-- The variables of the loop that patches. -/
structure Patching where
  ptr : Word
  mem : Mem

/-- One round of the loop; `record` is what is done with a call before it is overwritten. -/
def patchCall (record : Mem → Word → Option Mem) (pattern inst : Word) (s : Patching) :
    Option Patching :=
  let memscope := scanEnd - s.ptr
  (findPatternWithMask (wordsAt s.mem s.ptr) memscope.toNat [pattern] [0xffffffff] 4).bind fun
    | none => some ⟨0, s.mem⟩
    | some i =>
        let ptr := s.ptr + BitVec.ofNat 32 (4 * i)
        (record s.mem ptr).map fun mem => ⟨ptr + 8, mem.store 4 ptr inst⟩

/-- `while (ptr)` -/
def Patching.goesOn (s : Patching) : Bool := s.ptr ≠ 0

/-- The loop that searches and patches the calls. -/
def patchCalls (record : Mem → Word → Option Mem) (pattern inst : Word) (fuel : ℕ) (mem : Mem) :
    Option Mem :=
  (whileM Patching.goesOn (patchCall record pattern inst) fuel ⟨scanStart, mem⟩).map Patching.mem

/-- The addresses of the debugger's functions. -/
structure Hooks where
  scePadRead : Word
  scePad2Read : Word
  sifLoadModule : Word

/-- Memory, and the variables of `padread_hooks.c`. -/
structure PadRead where
  mem : Mem
  scePadRead : Word
  scePad2Read : Word
  scePadReadStyle : ℕ

/-- The function that a call is redirected to. -/
def Hooks.padRead (hooks : Hooks) (style : ℕ) : Word :=
  if style = 2 then hooks.scePad2Read else hooks.scePadRead

/-- `add_autohook(ptr, _lw(ptr))` -/
def recordCall (fuel : ℕ) (mem : Mem) (ptr : Word) : Option Mem :=
  (addAutohook fuel mem ptr (mem.load32 ptr)).map Prod.snd

/-- `patch_padRead` -/
def patchPadRead (hooks : Hooks) (fuel : ℕ) (s : PadRead) : Option (ℕ × PadRead) :=
  (locate s.mem padreadPatterns).bind fun
    | none => some (0, s)
    | some (ptr, pat) =>
        let s := { s with scePadReadStyle := pat.tag }
        let s := if s.scePadReadStyle = 2 then { s with scePad2Read := ptr }
          else { s with scePadRead := ptr }
        (patchCalls (recordCall fuel) (jal ptr) (jal (hooks.padRead s.scePadReadStyle)) fuel
          s.mem).map fun mem => (1, { s with mem })

/-- Memory, and the variable of `loadmodule_hooks.c`. -/
structure LoadModule where
  mem : Mem
  sceSifLoadModule : Word

/-- `patch_loadModule` -/
def patchLoadModule (hooks : Hooks) (fuel : ℕ) (s : LoadModule) : Option (ℕ × LoadModule) :=
  (locate s.mem loadmodulePatterns).bind fun
    | none => some (0, s)
    | some (ptr, _) =>
        let s := { s with sceSifLoadModule := ptr }
        (patchCalls (fun mem _ => some mem) (jal ptr) (jal hooks.sifLoadModule) fuel s.mem).map
          fun mem => (1, { s with mem })

/-! ### The words of the game -/

/-- The number of words between `scanStart` and `scanEnd`. -/
def numWords : ℕ := 0x780000

/-- The address of word `k`. -/
def wordAddr (k : ℕ) : Word := scanStart + BitVec.ofNat 32 (4 * k)

/-- The address lies between `scanStart` and `scanEnd`. -/
def InGame (a : Word) : Prop := InRange scanStart (4 * numWords) a

instance (a : Word) : Decidable (InGame a) := inferInstanceAs (Decidable (InRange _ _ _))

theorem toNat_wordAddr {k : ℕ} (hk : k ≤ numWords) : (wordAddr k).toNat = 0x00100000 + 4 * k := by
  have hnum : numWords = 0x780000 := rfl
  have hstart : scanStart.toNat = 0x00100000 := rfl
  rw [wordAddr, BitVec.toNat_add, BitVec.toNat_ofNat, hstart]
  omega

theorem wordAddr_add (k i : ℕ) : wordAddr k + BitVec.ofNat 32 (4 * i) = wordAddr (k + i) := by
  rw [wordAddr, wordAddr, BitVec.add_assoc, ← BitVec.ofNat_add, Nat.mul_add]

theorem wordAddr_ne_zero {k : ℕ} (hk : k ≤ numWords) : wordAddr k ≠ 0 := by
  intro h
  have hnat := toNat_wordAddr hk
  have hzero : (0 : Word).toNat = 0 := rfl
  rw [h, hzero] at hnat
  omega

theorem aligned_wordAddr {k : ℕ} (hk : k ≤ numWords) : Aligned 4 (wordAddr k) := by
  unfold Aligned
  rw [toNat_wordAddr hk]
  omega

theorem wordAddr_injective {j k : ℕ} (hj : j ≤ numWords) (hk : k ≤ numWords)
    (h : wordAddr j = wordAddr k) : j = k := by
  have hnat := congrArg BitVec.toNat h
  rw [toNat_wordAddr hj, toNat_wordAddr hk] at hnat
  omega

/-- The words of the game are the aligned addresses in it. -/
theorem exists_wordAddr {a : Word} (ha : Aligned 4 a) {n : ℕ} (hn : n ≤ numWords)
    (hgame : InRange scanStart (4 * n) a) : ∃ k < n, a = wordAddr k := by
  have hnum : numWords = 0x780000 := rfl
  have hstart : scanStart.toNat = 0x00100000 := rfl
  have hlt := a.isLt
  unfold InRange at hgame
  unfold Aligned at ha
  rw [BitVec.toNat_sub, hstart] at hgame
  refine ⟨(a.toNat - 0x00100000) / 4, by omega, ?_⟩
  apply BitVec.eq_of_toNat_eq
  rw [toNat_wordAddr (by omega)]
  omega

theorem inGame_of_inRange_wordAddr {k : ℕ} (hk : k < numWords) {b : Word}
    (hb : InRange (wordAddr k) 4 b) : InGame b := by
  have hnum : numWords = 0x780000 := rfl
  exact (InRange.of_add hb (by omega)).mono (by omega)

/-- The table of hooks lies below the game. -/
theorem not_inRange_hooks_of_inGame {b : Word} (hb : InGame b) :
    ¬ InRange hooksBase hooksSize b := by
  have hnum : numWords = 0x780000 := rfl
  have hsize : hooksSize = 248 := rfl
  have hstart : scanStart.toNat = 0x00100000 := rfl
  have hbase : hooksBase.toNat = 0x000fff00 := rfl
  have hlt := b.isLt
  unfold InGame InRange at *
  rw [BitVec.toNat_sub] at *
  omega

/-! ### One round -/

/-- A call instruction as a pattern of one word. -/
def callPattern (inst : Word) : Pattern := ⟨[inst], [0xffffffff], 0, rfl⟩

theorem matches_callPattern_iff (inst : Word) (mem : Mem) (k i : ℕ) :
    (callPattern inst).Matches (wordsAt mem (wordAddr k)) i ↔
      mem.load32 (wordAddr (k + i)) = inst := by
  have hones (w : Word) : w &&& 0xffffffff#32 = w := BitVec.and_allOnes
  simp [Pattern.Matches, Pattern.EqualAt, callPattern, wordsAt, wordAddr_add, hones, eq_comm]

section Loop

variable {record : Mem → Word → Option Mem} {old new : Word} {mem : Mem} {k : ℕ}

/-- A round at word `k` either finds no more call or goes on behind the next one.  The last
word of the game is never looked at. -/
theorem patchCall_cases (record : Mem → Word → Option Mem) (old new : Word) (mem : Mem)
    (hk : k ≤ numWords) :
    (∀ j, k ≤ j → j < numWords - 1 → mem.load32 (wordAddr j) ≠ old) ∧
      patchCall record old new ⟨wordAddr k, mem⟩ = some ⟨0, mem⟩ ∨
    ∃ j, k ≤ j ∧ j < numWords - 1 ∧ mem.load32 (wordAddr j) = old ∧
      (∀ l, k ≤ l → l < j → mem.load32 (wordAddr l) ≠ old) ∧
      patchCall record old new ⟨wordAddr k, mem⟩ = (record mem (wordAddr j)).map fun mem' =>
        ⟨wordAddr (j + 2), mem'.store 4 (wordAddr j) new⟩ := by
  have hscope : (scanEnd - wordAddr k).toNat = 4 * (numWords - k) := by
    have hnum : numWords = 0x780000 := rfl
    have hend : scanEnd.toNat = 0x01f00000 := rfl
    rw [BitVec.toNat_sub, toNat_wordAddr hk, hend]
    omega
  obtain ⟨r, hfind, hfirst⟩ := isFirst_findPatternWithMask (wordsAt mem (wordAddr k))
    (callPattern old) (n := numWords - k) (fun _ _ => rfl)
  have hfind : findPatternWithMask (wordsAt mem (wordAddr k)) (4 * (numWords - k)) [old]
    [0xffffffff] 4 = some r := hfind
  have hfirst : IsFirst (fun i => i < numWords - k - 1 ∧
      mem.load32 (wordAddr (k + i)) = old) r := by
    apply hfirst.congr
    intro i
    rw [matches_callPattern_iff]
    rfl
  -- what the search has passed, as words of the game
  have hpassed : ∀ l, k ≤ l → l < numWords - 1 → mem.load32 (wordAddr l) = old →
      ∃ i ∈ r, k + i ≤ l := by
    intro l hkl hl hword
    obtain ⟨i, hi, hle⟩ := hfirst.least (l - k)
      ⟨by omega, by rwa [Nat.add_sub_of_le hkl]⟩
    exact ⟨i, hi, by omega⟩
  cases r with
  | none =>
      refine .inl ⟨fun l hkl hl hword => ?_, ?_⟩
      · obtain ⟨i, hi, -⟩ := hpassed l hkl hl hword
        cases hi
      · simp only [patchCall, hscope, hfind, Option.bind_some]
  | some i =>
      obtain ⟨hi, hword⟩ := hfirst.holds i rfl
      refine .inr ⟨k + i, Nat.le_add_right k i, by omega, hword, fun l hkl hl hold => ?_, ?_⟩
      · obtain ⟨i', hi', hle⟩ := hpassed l hkl (by omega) hold
        cases hi'
        omega
      · have hnext : wordAddr (k + i) + 8 = wordAddr (k + i + 2) := wordAddr_add (k + i) 2
        simp only [patchCall, hscope, hfind, Option.bind_some, wordAddr_add, hnext]

/-! ### The loop -/

/-- What the loop has done to the memory `mem₀` with the words before word `k`; `size`
bytes of the table may have changed, too. -/
structure Patched (size : ℕ) (old new : Word) (mem₀ mem : Mem) (k : ℕ) : Prop where
  changed : ∀ j < numWords, mem.load32 (wordAddr j) ≠ mem₀.load32 (wordAddr j) →
    mem₀.load32 (wordAddr j) = old ∧ mem.load32 (wordAddr j) = new
  left : ∀ j < k, mem.load32 (wordAddr j) = old → ∃ i, j = i + 1 ∧
    mem₀.load32 (wordAddr i) = old ∧ mem.load32 (wordAddr i) = new
  frame : ∀ b, ¬ InGame b → ¬ InRange hooksBase size b → mem b = mem₀ b

/-- The loop stands at word `k`: the words from there on are as they were. -/
structure Progress (size : ℕ) (old new : Word) (mem₀ mem : Mem) (k : ℕ) : Prop
    extends Patched size old new mem₀ mem k where
  ahead : ∀ j, k ≤ j → j < numWords → mem.load32 (wordAddr j) = mem₀.load32 (wordAddr j)

theorem Progress.start (size : ℕ) (old new : Word) (mem₀ : Mem) :
    Progress size old new mem₀ mem₀ 0 where
  changed _ _ hne := absurd rfl hne
  left _ hj := absurd hj (Nat.not_lt_zero _)
  frame _ _ _ := rfl
  ahead _ _ _ := rfl

/-- What `record` may do: it returns, changes only `size` bytes of the table, and keeps
the condition `inv` on memory under which it does so. -/
structure Records (size : ℕ) (inv : Mem → Prop) (record : Mem → Word → Option Mem) : Prop where
  returns : ∀ mem ptr, inv mem → ∃ mem', record mem ptr = some mem' ∧ inv mem' ∧
    ∀ b, ¬ InRange hooksBase size b → mem' b = mem b
  congr : ∀ mem mem' : Mem, inv mem → (∀ b, ¬ InGame b → mem' b = mem b) → inv mem'
  size_le : size ≤ hooksSize

variable {size : ℕ} {inv : Mem → Prop} {mem₀ : Mem}

/-- The memory after a call has been recorded and overwritten. -/
theorem load32_patched (hrec : Records size inv record) {mem' : Mem}
    (hframe : ∀ b, ¬ InRange hooksBase size b → mem' b = mem b) {j l : ℕ} (hj : j < numWords)
    (hl : l < numWords) : (mem'.store 4 (wordAddr j) new).load32 (wordAddr l) =
      if l = j then new else mem.load32 (wordAddr l) := by
  split_ifs with heq
  · rw [heq, Mem.load32_store_self]
  · rw [Mem.load32_store_of_ne (aligned_wordAddr hj.le) (aligned_wordAddr hl.le)
      (fun h => heq (wordAddr_injective hl.le hj.le h))]
    apply Mem.load32_congr
    intro b hb
    apply hframe
    intro htable
    exact not_inRange_hooks_of_inGame (inGame_of_inRange_wordAddr hl hb)
      (htable.mono hrec.size_le)

/-- A round takes the loop behind the call that it patches. -/
theorem Progress.step (hrec : Records size inv record) (hne : new ≠ old)
    (h : Progress size old new mem₀ mem k) {j : ℕ} (hkj : k ≤ j) (hj : j < numWords - 1)
    (hold : mem.load32 (wordAddr j) = old)
    (hbetween : ∀ l, k ≤ l → l < j → mem.load32 (wordAddr l) ≠ old) {mem' : Mem}
    (hframe : ∀ b, ¬ InRange hooksBase size b → mem' b = mem b) :
    Progress size old new mem₀ (mem'.store 4 (wordAddr j) new) (j + 2) := by
  have hword : ∀ l < numWords, (mem'.store 4 (wordAddr j) new).load32 (wordAddr l) =
      if l = j then new else mem.load32 (wordAddr l) :=
    fun l hl => load32_patched hrec hframe (by omega) hl
  have hold₀ : mem₀.load32 (wordAddr j) = old := by
    rw [← h.ahead j hkj (by omega), hold]
  refine ⟨⟨fun l hl hchanged => ?_, fun l hl hleft => ?_, fun b hb htable => ?_⟩,
    fun l hl hlt => ?_⟩
  · rw [hword l hl] at hchanged ⊢
    by_cases hlj : l = j
    · rw [if_pos hlj, hlj]
      exact ⟨hold₀, rfl⟩
    · rw [if_neg hlj] at hchanged ⊢
      exact h.changed l hl hchanged
  · have hlj : l ≠ j := by
      rintro rfl
      rw [hword l (by omega), if_pos rfl] at hleft
      exact hne hleft
    rw [hword l (by omega), if_neg hlj] at hleft
    -- the word behind the call is skipped, those before it were looked at in this round
    -- or in an earlier one
    rcases Nat.lt_trichotomy l j with hlt | heq | hgt
    · rcases Nat.lt_or_ge l k with hlk | hkl
      · obtain ⟨i, rfl, hi₀, hi⟩ := h.left l hlk hleft
        exact ⟨i, rfl, hi₀, by rw [hword i (by omega), if_neg (by omega), hi]⟩
      · exact absurd hleft (hbetween l hkl hlt)
    · exact absurd heq hlj
    · refine ⟨j, by omega, hold₀, ?_⟩
      rw [hword j (by omega), if_pos rfl]
  · rw [Mem.store_of_not_inRange fun hin => hb (inGame_of_inRange_wordAddr (by omega) hin),
      hframe b htable, h.frame b hb htable]
  · rw [hword l hlt, if_neg (by omega), h.ahead l (by omega) hlt]

/-- The loop ends, with all words searched except the last. -/
theorem exists_whileM_patchCall (hrec : Records size inv record) (hne : new ≠ old)
    (h : Progress size old new mem₀ mem k) (hinv : inv mem) (hk : k ≤ numWords) {fuel : ℕ}
    (hfuel : numWords - k + 2 ≤ fuel) :
    ∃ mem', (whileM Patching.goesOn (patchCall record old new) fuel ⟨wordAddr k, mem⟩).map
        Patching.mem = some mem' ∧ inv mem' ∧
      Patched size old new mem₀ mem' (numWords - 1) := by
  induction fuel generalizing k mem with
  | zero => omega
  | succ fuel ih =>
      have hcond : Patching.goesOn ⟨wordAddr k, mem⟩ = true :=
        decide_eq_true (wordAddr_ne_zero hk)
      rcases patchCall_cases record old new mem hk with
        ⟨hnone, hbody⟩ | ⟨j, hkj, hj, hold, hbetween, hbody⟩
      · obtain ⟨fuel, rfl⟩ : ∃ fuel', fuel = fuel' + 1 := ⟨fuel - 1, by omega⟩
        refine ⟨mem, ?_, hinv, ?_⟩
        · rw [whileM_of_body hcond hbody, whileM_of_not rfl, Option.map_some]
        · refine ⟨h.changed, fun j hj hleft => ?_, h.frame⟩
          rcases Nat.lt_or_ge j k with hjk | hkj
          · exact h.left j hjk hleft
          · exact absurd hleft (hnone j hkj hj)
      · obtain ⟨mem', hmem, hinv', hframe⟩ := hrec.returns mem (wordAddr j) hinv
        rw [hmem, Option.map_some] at hbody
        rw [whileM_of_body hcond hbody]
        apply ih (h.step hrec hne hkj hj hold hbetween hframe)
        · apply hrec.congr mem' _ hinv'
          intro b hb
          exact Mem.store_of_not_inRange fun hin =>
            hb (inGame_of_inRange_wordAddr (by omega) hin)
        · omega
        · omega

end Loop

/-! ### The two functions -/

/-- No match of the pattern is found in the game. -/
def Pattern.Absent (pat : Pattern) (mem : Mem) : Prop :=
  ∀ i < numWords - pat.seq.length, ¬ pat.Matches (wordsAt mem scanStart) i

/-- What the search for the function comes to: the first pattern of the table that has a
match, and the address of its first match. -/
inductive Located (mem : Mem) (table : List Pattern) : Option (Word × Pattern) → Prop
  | absent (h : ∀ pat ∈ table, pat.Absent mem) : Located mem table none
  | found (before after : List Pattern) (pat : Pattern) (i : ℕ)
      (htable : table = before ++ pat :: after) (hbefore : ∀ p ∈ before, p.Absent mem)
      (hfirst : IsFirst (fun i => i < numWords - pat.seq.length ∧
        pat.Matches (wordsAt mem scanStart) i) (some i)) :
      Located mem table (some (wordAddr i, pat))

theorem exists_locate (mem : Mem) (table : List Pattern) :
    ∃ r, locate mem table = some r ∧ Located mem table r := by
  induction table with
  | nil => exact ⟨none, rfl, .absent (by simp)⟩
  | cons pat table ih =>
      obtain ⟨r, hfind, hfirst⟩ := isFirst_findPatternWithMask (wordsAt mem scanStart) pat
        (n := numWords) (fun _ _ => rfl)
      have hfind : findPattern (wordsAt mem scanStart) (scanEnd - scanStart).toNat pat =
        some r := hfind
      cases r with
      | some i =>
          refine ⟨some (wordAddr i, pat), ?_, .found [] table pat i rfl (by simp) hfirst⟩
          rw [locate, hfind]
          rfl
      | none =>
          have habsent : pat.Absent mem := by
            intro i hi hmatch
            obtain ⟨p, hp, -⟩ := hfirst.least i ⟨hi, hmatch⟩
            cases hp
          obtain ⟨r, hlocate, hlocated⟩ := ih
          refine ⟨r, by rw [locate, hfind]; exact hlocate, ?_⟩
          cases hlocated with
          | absent h => exact .absent (List.forall_mem_cons.mpr ⟨habsent, h⟩)
          | found before after p i htable hbefore hfirst =>
              exact .found (pat :: before) after p i (by rw [htable]; rfl)
                (List.forall_mem_cons.mpr ⟨habsent, hbefore⟩) hfirst

/-- A function that was located lies in the game. -/
theorem Located.exists_wordAddr {mem : Mem} {table : List Pattern} {ptr : Word} {pat : Pattern}
    (h : Located mem table (some (ptr, pat))) : ∃ k < numWords, ptr = wordAddr k := by
  cases h with
  | found before after pat i htable hbefore hfirst =>
      have hi := (hfirst.holds i rfl).1
      exact ⟨i, by omega, rfl⟩

/-- A match of the first pattern at the start of the game is what is located. -/
theorem Located.eq_start {mem : Mem} {table : List Pattern} {pat : Pattern}
    (hlen : pat.seq.length < numWords) (hmatch : pat.Matches (wordsAt mem scanStart) 0)
    {r : Option (Word × Pattern)} (h : Located mem (pat :: table) r) :
    r = some (wordAddr 0, pat) := by
  have hpresent : ¬ pat.Absent mem := fun habsent => habsent 0 (by omega) hmatch
  cases h with
  | absent h => exact absurd (h pat List.mem_cons_self) hpresent
  | found before after p i htable hbefore hfirst =>
      cases before with
      | nil =>
          obtain ⟨rfl, -⟩ := List.cons.inj htable
          obtain ⟨i', hi', hle⟩ := hfirst.least 0 ⟨by omega, hmatch⟩
          cases hi'
          rw [Nat.le_zero.mp hle]
      | cons q before =>
          obtain ⟨rfl, -⟩ := List.cons.inj htable
          exact absurd (hbefore pat List.mem_cons_self) hpresent

/-- The calls of `target` were redirected to `hook`, and nothing else was changed except
`size` bytes of the table of hooks. -/
structure OnlyCalls (size : ℕ) (target hook : Word) (mem mem' : Mem) : Prop where
  calls : ∀ a, Aligned 4 a → InGame a → mem'.load32 a ≠ mem.load32 a →
    mem.load32 a = jal target ∧ mem'.load32 a = jal hook
  frame : ∀ b, ¬ InGame b → ¬ InRange hooksBase size b → mem' b = mem b
  complete : ∀ a, Aligned 4 a → InRange scanStart (4 * (numWords - 1)) a →
    mem'.load32 a = jal target →
    InGame (a - 4) ∧ mem.load32 (a - 4) = jal target ∧ mem'.load32 (a - 4) = jal hook

/-- A call that does not come right behind another one is redirected. -/
theorem OnlyCalls.redirected {size : ℕ} {target hook : Word} {mem mem' : Mem}
    (h : OnlyCalls size target hook mem mem') {a : Word} (ha : Aligned 4 a)
    (hin : InRange scanStart (4 * (numWords - 1)) a) (hcall : mem.load32 a = jal target)
    (hprev : mem.load32 (a - 4) ≠ jal target) : mem'.load32 a = jal hook := by
  by_cases heq : mem'.load32 a = mem.load32 a
  · exact absurd (h.complete a ha hin (heq.trans hcall)).2.1 hprev
  · exact (h.calls a ha (hin.mono (by decide)) heq).2

/-- A patch run: either the function was not found and nothing has changed, or its calls
were redirected. -/
def Redirects (size : ℕ) (table : List Pattern) (hook : Pattern → Word) (mem mem' : Mem)
    (ret : ℕ) : Prop :=
  Located mem table none ∧ ret = 0 ∧ mem' = mem ∨
  ∃ ptr pat, Located mem table (some (ptr, pat)) ∧ ret = 1 ∧
    OnlyCalls size ptr (hook pat) mem mem'

/-- The function lies outside of the game, and a `jal` reaches it. -/
def HookPlace (a : Word) : Prop := ¬ InGame a ∧ a.toNat < 0x10000000

/-- A `jal` holds the low bits of the word address. -/
theorem setWidth_jal (target : Word) : (jal target).setWidth 26 = (target >>> 2).setWidth 26 := by
  have hop : (0x0c000000#32).setWidth 26 = 0#26 := rfl
  have hones : (0x03ffffff#32).setWidth 26 = BitVec.allOnes 26 := rfl
  rw [jal, BitVec.setWidth_or, BitVec.setWidth_and, hop, hones, BitVec.zero_or,
    BitVec.allOnes_and]

theorem jal_ne_jal {hook : Word} (hhook : HookPlace hook) {k : ℕ} (hk : k < numWords) :
    jal hook ≠ jal (wordAddr k) := by
  intro heq
  have hnum : numWords = 0x780000 := rfl
  have hstart : scanStart.toNat = 0x00100000 := rfl
  have hlow := congrArg BitVec.toNat (congrArg (BitVec.setWidth 26) heq)
  rw [setWidth_jal, setWidth_jal, BitVec.toNat_setWidth, BitVec.toNat_setWidth,
    BitVec.toNat_ushiftRight, BitVec.toNat_ushiftRight, Nat.shiftRight_eq_div_pow,
    Nat.shiftRight_eq_div_pow, toNat_wordAddr hk.le] at hlow
  apply hhook.1
  have hlt := hhook.2
  unfold InGame InRange
  rw [BitVec.toNat_sub, hstart]
  omega

section

variable {size : ℕ} {inv : Mem → Prop} {record : Mem → Word → Option Mem} {mem mem' : Mem}

/-- The end of the loop, in terms of addresses. -/
theorem Patched.onlyCalls {target hook : Word}
    (h : Patched size (jal target) (jal hook) mem mem' (numWords - 1)) :
    OnlyCalls size target hook mem mem' where
  calls := by
    intro a ha hgame hne
    obtain ⟨k, hk, rfl⟩ := exists_wordAddr ha le_rfl hgame
    exact h.changed k hk hne
  frame := h.frame
  complete := by
    intro a ha hgame hleft
    obtain ⟨k, hk, rfl⟩ := exists_wordAddr ha (Nat.sub_le _ _) hgame
    obtain ⟨i, rfl, hi₀, hi⟩ := h.left k hk hleft
    have hprev : wordAddr (i + 1) - 4 = wordAddr i := by
      rw [← wordAddr_add i 1]
      exact BitVec.add_sub_cancel _ _
    rw [hprev]
    refine ⟨inGame_of_inRange_wordAddr (k := i) (by omega) ?_, hi₀, hi⟩
    simp [InRange]

/-- The loop redirects the calls of a function of the game. -/
theorem exists_patchCalls (mem : Mem) (hrec : Records size inv record) (hinv : inv mem)
    {hook : Word} (hhook : HookPlace hook) {k : ℕ} (hk : k < numWords) {fuel : ℕ}
    (hfuel : numWords + 2 ≤ fuel) :
    ∃ mem', patchCalls record (jal (wordAddr k)) (jal hook) fuel mem = some mem' ∧ inv mem' ∧
      OnlyCalls size (wordAddr k) hook mem mem' := by
  obtain ⟨mem', hrun, hinv', hpatched⟩ := exists_whileM_patchCall hrec (jal_ne_jal hhook hk)
    (Progress.start size _ _ mem) hinv (Nat.zero_le _) (by omega : numWords - 0 + 2 ≤ fuel)
  have hstart : wordAddr 0 = scanStart := rfl
  rw [hstart] at hrun
  exact ⟨mem', hrun, hinv', hpatched.onlyCalls⟩

/-- `add_autohook` may stand in the loop when the table ends. -/
theorem records_recordCall {fuel : ℕ} (hfuel : maxHooks < fuel) :
    Records (8 * maxHooks) TableEnds (recordCall fuel) where
  returns := by
    intro mem ptr hends
    obtain ⟨ret, mem', hadd, hends', hframe⟩ :=
      exists_addAutohook hends ptr (mem.load32 ptr) hfuel
    exact ⟨mem', by simp [recordCall, hadd], hends', hframe⟩
  congr := by
    intro mem mem' hends heq
    refine hends.congr fun b hb => heq b fun hgame => ?_
    exact not_inRange_hooks_of_inGame hgame ((InRange.of_add hb (by decide)).mono (by decide))
  size_le := by decide

theorem records_nothing : Records 0 (fun _ => True) fun mem _ => some mem where
  returns mem _ _ := ⟨mem, rfl, trivial, fun _ _ => rfl⟩
  congr _ _ _ _ := trivial
  size_le := Nat.zero_le _

end

/-- The debugger's functions lie outside of the game. -/
structure Hooks.Outside (hooks : Hooks) : Prop where
  scePadRead : HookPlace hooks.scePadRead
  scePad2Read : HookPlace hooks.scePad2Read
  sifLoadModule : HookPlace hooks.sifLoadModule

theorem Hooks.Outside.padRead {hooks : Hooks} (h : hooks.Outside) (style : ℕ) :
    HookPlace (hooks.padRead style) := by
  unfold Hooks.padRead
  split_ifs
  · exact h.scePad2Read
  · exact h.scePadRead

/-! ### A game that calls one function everywhere -/

/-- The functions of the debugger, somewhere below the game. -/
def someHooks : Hooks := ⟨0x00080000, 0x00080040, 0x00080080⟩

theorem outside_someHooks : someHooks.Outside :=
  ⟨⟨by decide, by decide⟩, ⟨by decide, by decide⟩, ⟨by decide, by decide⟩⟩

/-- The instruction `jal 0x00100000` in every word. -/
def callsEverywhere : Mem := fun b => (0x0c040000#32).extractLsb' (8 * (b.toNat % 4)) 8

/-- A function that matches the first pattern, with calls of itself in the words that the
pattern leaves open. -/
def selfCalling : List Word :=
  [0x0080382d, 0x24030070, 0x2404001c, 0x70e31818, 0x00a42018, 0x27bdff00, 0x3c020000,
   0xff000000, 0xffbf0000, 0x24420000, 0x0c040000, 0x0c040000, 0x0c040000, 0x0c040000,
   0x0c040000, 0x0c040000, 0x0c040000, 0x0c040000, 0x0c040000]

/-- The function at the start of the game, and calls of it in all other words. -/
def crowded : Mem :=
  callsEverywhere.store 76 scanStart
    (BitVec.ofNat 608 (selfCalling.foldr (fun w n => w.toNat + 2 ^ 32 * n) 0))

theorem load32_callsEverywhere {a : Word} (ha : Aligned 4 a) :
    callsEverywhere.load32 a = 0x0c040000#32 := by
  have hbyte (k : ℕ) (hk : k < 4) : callsEverywhere (a + BitVec.ofNat 32 k) =
      (0x0c040000#32).extractLsb' (8 * k) 8 := by
    have hmod : (a + BitVec.ofNat 32 k).toNat % 4 = k := by
      unfold Aligned at ha
      rw [BitVec.toNat_add, BitVec.toNat_ofNat]
      omega
    rw [callsEverywhere, hmod]
  have h0 := hbyte 0 (by decide)
  have h1 : callsEverywhere (a + 1) = _ := hbyte 1 (by decide)
  have h2 : callsEverywhere (a + 2) = _ := hbyte 2 (by decide)
  have h3 : callsEverywhere (a + 3) = _ := hbyte 3 (by decide)
  rw [BitVec.add_zero] at h0
  rw [Mem.load32, h0, h1, h2, h3]
  rfl

theorem load32_crowded_wordAddr {k : ℕ} (hk : k < 19) :
    crowded.load32 (wordAddr k) = selfCalling.getD k 0 := by
  have h := Mem.load32_store_add callsEverywhere scanStart
    (BitVec.ofNat 608 (selfCalling.foldr (fun w n => w.toNat + 2 ^ 32 * n) 0))
    (by omega : 4 * k + 4 ≤ 76) (by decide)
  refine h.trans ?_
  interval_cases k <;> decide +kernel

theorem matches_selfCalling {mem : Mem}
    (h : ∀ k < 19, mem.load32 (wordAddr k) = selfCalling.getD k 0) :
    padReadpattern0.Matches (wordsAt mem scanStart) 0 := by
  intro j hj
  have hj : j < 19 := hj
  have hword : wordsAt mem scanStart (0 + j) = some (selfCalling.getD j 0) := by
    rw [Nat.zero_add]
    exact congrArg some (h j hj)
  unfold Pattern.EqualAt
  rw [hword]
  interval_cases j <;> exact ⟨_, rfl, _, rfl, _, rfl, by decide⟩

/-- The table of hooks is not in the game. -/
theorem load32_clearAutohookTab_wordAddr (mem : Mem) {k : ℕ} (hk : k < numWords) :
    (clearAutohookTab mem).load32 (wordAddr k) = mem.load32 (wordAddr k) :=
  Mem.load32_congr fun _ hb =>
    if_neg (not_inRange_hooks_of_inGame (inGame_of_inRange_wordAddr hk hb))

/-! ### What is patched -/

/-- Both functions end, and change only calls of the function that they have located.  The
table of hooks must have its end for `patch_padRead`, and still has it afterwards. -/
theorem patches_only_calls (hooks : Hooks) (hhooks : hooks.Outside) :
    (∀ s : PadRead, TableEnds s.mem → ∃ fuel ret s', patchPadRead hooks fuel s = some (ret, s') ∧
      TableEnds s'.mem ∧ Redirects (8 * maxHooks) padreadPatterns
        (fun pat => hooks.padRead pat.tag) s.mem s'.mem ret) ∧
    (∀ s : LoadModule, ∃ fuel ret s', patchLoadModule hooks fuel s = some (ret, s') ∧
      Redirects 0 loadmodulePatterns (fun _ => hooks.sifLoadModule) s.mem s'.mem ret) := by
  constructor
  · intro s hends
    obtain ⟨r, hlocate, hlocated⟩ := exists_locate s.mem padreadPatterns
    rcases r with - | ⟨ptr, pat⟩
    · exact ⟨0, 0, s, by simp [patchPadRead, hlocate], hends, .inl ⟨hlocated, rfl, rfl⟩⟩
    · obtain ⟨k, hk, rfl⟩ := hlocated.exists_wordAddr
      obtain ⟨mem', hpatch, hends', honly⟩ := exists_patchCalls s.mem
        (records_recordCall (by decide : maxHooks < numWords + 2)) hends
        (hhooks.padRead pat.tag) hk le_rfl
      refine ⟨numWords + 2, 1, ⟨mem', if pat.tag = 2 then s.scePadRead else wordAddr k,
        if pat.tag = 2 then wordAddr k else s.scePad2Read, pat.tag⟩, ?_, hends',
        .inr ⟨_, _, hlocated, rfl, honly⟩⟩
      simp only [patchPadRead, hlocate, Option.bind_some]
      split_ifs <;> simp [hpatch]
  · intro s
    obtain ⟨r, hlocate, hlocated⟩ := exists_locate s.mem loadmodulePatterns
    rcases r with - | ⟨ptr, pat⟩
    · exact ⟨0, 0, s, by simp [patchLoadModule, hlocate], .inl ⟨hlocated, rfl, rfl⟩⟩
    · obtain ⟨k, hk, rfl⟩ := hlocated.exists_wordAddr
      obtain ⟨mem', hpatch, -, honly⟩ := exists_patchCalls s.mem records_nothing trivial
        hhooks.sifLoadModule hk le_rfl
      refine ⟨numWords + 2, 1, ⟨mem', wordAddr k⟩, ?_, .inr ⟨_, _, hlocated, rfl, honly⟩⟩
      simp [patchLoadModule, hlocate, hpatch]

/-- The first run after `_init`: the function at the start of the game is located, and the
first of its calls, in word 10, is redirected. -/
theorem patches_only_calls_crowded :
    ∃ fuel s', patchPadRead someHooks fuel ⟨clearAutohookTab crowded, 0, 0, 1⟩ = some (1, s') ∧
      TableEnds s'.mem ∧
      (clearAutohookTab crowded).load32 (wordAddr 10) = jal (wordAddr 0) ∧
      s'.mem.load32 (wordAddr 10) = jal someHooks.scePadRead := by
  have hwords : ∀ k < 19,
      (clearAutohookTab crowded).load32 (wordAddr k) = selfCalling.getD k 0 := fun k hk =>
    (load32_clearAutohookTab_wordAddr crowded (hk.trans (by decide))).trans
      (load32_crowded_wordAddr hk)
  have hcall : (clearAutohookTab crowded).load32 (wordAddr 10) = jal (wordAddr 0) :=
    (hwords 10 (by decide)).trans (by decide)
  obtain ⟨fuel, ret, s', hrun, hends, hredirects⟩ :=
    (patches_only_calls someHooks outside_someHooks).1 ⟨clearAutohookTab crowded, 0, 0, 1⟩
      (tableEnds_clearAutohookTab _)
  have hlocated : ∀ r, Located (clearAutohookTab crowded) padreadPatterns r →
      r = some (wordAddr 0, padReadpattern0) := fun r h =>
    h.eq_start (by decide) (matches_selfCalling hwords)
  rcases hredirects with ⟨hnone, -⟩ | ⟨ptr, pat, hsome, rfl, honly⟩
  · exact absurd (hlocated _ hnone) (by simp)
  · obtain ⟨rfl, rfl⟩ := Prod.mk.inj (Option.some.inj (hlocated _ hsome))
    refine ⟨fuel, s', hrun, hends, hcall,
      honly.redirected (aligned_wordAddr (by decide)) (by decide) hcall ?_⟩
    have hprev : wordAddr 10 - 4 = wordAddr 9 := by decide
    rw [hprev]
    exact fun h => absurd ((hwords 9 (by decide)).symm.trans h) (by decide)

/-! ### A table without an end -/

/-- No word is 0, and none is the address of the first call. -/
theorem load32_crowded {a : Word} (ha : Aligned 4 a) :
    crowded.load32 a ≠ 0 ∧ crowded.load32 a ≠ wordAddr 10 := by
  by_cases hin : InRange scanStart (4 * 19) a
  · obtain ⟨k, hk, rfl⟩ := exists_wordAddr ha (by decide) hin
    rw [load32_crowded_wordAddr hk]
    interval_cases k <;> decide +kernel
  · have hfill : crowded.load32 a = callsEverywhere.load32 a := by
      apply Mem.load32_congr
      intro b hb
      apply Mem.store_of_not_inRange
      intro hb'
      apply hin
      unfold InRange Aligned at *
      have hstart : scanStart.toNat = 0x00100000 := rfl
      have hlt := a.isLt
      have hlt' := b.isLt
      rw [BitVec.toNat_sub] at *
      omega
    rw [hfill, load32_callsEverywhere ha]
    decide +kernel

/-- The first pattern is found at once. -/
theorem locate_crowded :
    locate crowded padreadPatterns = some (some (wordAddr 0, padReadpattern0)) := by
  obtain ⟨r, hlocate, hlocated⟩ := exists_locate crowded padreadPatterns
  rw [hlocate, hlocated.eq_start (by decide)
    (matches_selfCalling fun k hk => load32_crowded_wordAddr hk)]

theorem recordCall_crowded (fuel : ℕ) : recordCall fuel crowded (wordAddr 10) = none := by
  have hsearch : searchHook crowded (wordAddr 10) fuel 0 = none :=
    searchHook_eq_none (fun i => load32_crowded (aligned_autoHook i)) fuel 0
  rw [recordCall, addAutohook, hsearch]
  rfl

/-- On memory without a word 0 the first call is never logged, and `patch_padRead` does not
return. -/
theorem patchPadRead_crowded : someHooks.Outside ∧
    ¬ ∃ fuel r, patchPadRead someHooks fuel ⟨crowded, 0, 0, 1⟩ = some r := by
  refine ⟨outside_someHooks, ?_⟩
  rintro ⟨fuel, r, hrun⟩
  have hbody : patchCall (recordCall fuel) (jal (wordAddr 0)) (jal (someHooks.padRead 1))
      ⟨wordAddr 0, crowded⟩ = none := by
    have hjal : jal (wordAddr 0) = selfCalling.getD 10 0 := by decide
    rcases patchCall_cases (recordCall fuel) (jal (wordAddr 0)) (jal (someHooks.padRead 1))
        crowded (Nat.zero_le numWords) with
      ⟨hnone, -⟩ | ⟨j, -, -, hcall, hbefore, hbody⟩
    · exact absurd (load32_crowded_wordAddr (by decide)) (hjal ▸ hnone 10 (by decide) (by decide))
    · -- the call that is found first is the one in word 10
      have hge : ¬ 10 < j := fun hlt =>
        absurd (load32_crowded_wordAddr (by decide)) (hjal ▸ hbefore 10 (by decide) hlt)
      have hle : ¬ j < 10 := by
        intro hlt
        rw [hjal, load32_crowded_wordAddr (by omega)] at hcall
        interval_cases j <;> exact absurd hcall (by decide)
      obtain rfl : j = 10 := by omega
      rw [hbody, recordCall_crowded]
      rfl
  have hpatch : patchCalls (recordCall fuel) (jal (wordAddr 0)) (jal (someHooks.padRead 1)) fuel
      crowded = none := by
    cases fuel with
    | zero => rfl
    | succ fuel =>
        have hstart : scanStart = wordAddr 0 := rfl
        have hgoes : Patching.goesOn ⟨wordAddr 0, crowded⟩ = true := by decide
        rw [patchCalls, hstart, whileM_succ, if_pos hgoes, hbody]
        rfl
  rw [patchPadRead, locate_crowded] at hrun
  have hrun : (patchCalls (recordCall fuel) (jal (wordAddr 0)) (jal (someHooks.padRead 1)) fuel
    crowded).map _ = some r := hrun
  rw [hpatch] at hrun
  cases hrun

end Ps2rd.Debugger
