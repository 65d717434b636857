import Ps2rd.Mips.Memory

/-!
# The table of hooked calls

`add_autohook` logs the calls that `patch_padRead` overwrites, each with its address and
its original opcode, in a table at `HOOKS_BASE` for the code that is injected into a game.
It looks for the end of the table, an entry with address 0, without a bound.  The
table has one entry more than it can record, so the end is there as long as nobody else
writes to it: `clear_autohook_tab` puts it there and `add_autohook` keeps it.
-/

namespace Ps2rd.Debugger

open Mips

/-- `HOOKS_BASE` -/
def hooksBase : Word := 0x000fff00

/-- `MAX_HOOKS` -/
def maxHooks : ℕ := 30

/-- The size of the table in bytes. -/
def hooksSize : ℕ := 8 * (maxHooks + 1)

/-- The address of entry `i`. -/
def autoHook (i : ℕ) : Word := hooksBase + BitVec.ofNat 32 (8 * i)

/-- `clear_autohook_tab` -/
def clearAutohookTab (mem : Mem) : Mem := fun b =>
  if InRange hooksBase hooksSize b then 0 else mem b

/-- The loop of `add_autohook` from entry `i` on: the entry with address 0 that it gets to,
`some none` if it meets `hook_addr` before, and `none` if it has not ended within the fuel. -/
def searchHook (mem : Mem) (hookAddr : Word) : ℕ → ℕ → Option (Option ℕ)
  | 0, _ => none
  | fuel + 1, i =>
      if mem.load32 (autoHook i) = 0 then some (some i)
      else if mem.load32 (autoHook i) = hookAddr then some none
      else searchHook mem hookAddr fuel (i + 1)

/-- `add_autohook` -/
def addAutohook (fuel : ℕ) (mem : Mem) (hookAddr origOpcode : Word) : Option (ℕ × Mem) :=
  (searchHook mem hookAddr fuel 0).map fun
    | none => (0, mem)
    | some i =>
        if maxHooks ≤ i then (0, mem)
        else (1, (mem.store 4 (autoHook i) hookAddr).store 4 (autoHook i + 4) origOpcode)

/-- The last entry of the table, which is never used, has address 0. -/
def TableEnds (mem : Mem) : Prop := mem.load32 (autoHook maxHooks) = 0

/-! ### The words of the table -/

/-- Word `w` of the table; entry `i` is made of the words `2 * i` and `2 * i + 1`. -/
def hookWord (w : ℕ) : Word := hooksBase + BitVec.ofNat 32 (4 * w)

theorem autoHook_eq_hookWord (i : ℕ) : autoHook i = hookWord (2 * i) := by
  rw [autoHook, hookWord, ← Nat.mul_assoc]

theorem hookWord_add_four (w : ℕ) : hookWord w + 4 = hookWord (w + 1) := by
  rw [hookWord, hookWord, Nat.mul_add, BitVec.ofNat_add, ← BitVec.add_assoc]
  rfl

/-- The number of words in the table. -/
def numHookWords : ℕ := 2 * (maxHooks + 1)

theorem toNat_hookWord {w : ℕ} (hw : w < numHookWords) :
    (hookWord w).toNat = 0x000fff00 + 4 * w := by
  have hnum : numHookWords = 62 := rfl
  have hbase : hooksBase.toNat = 0x000fff00 := rfl
  rw [hookWord, BitVec.toNat_add, BitVec.toNat_ofNat, hbase]
  omega

/-- Words are aligned, also where the addresses wrap around. -/
theorem aligned_hookWord (w : ℕ) : Aligned 4 (hookWord w) := by
  have hbase : hooksBase.toNat = 0x000fff00 := rfl
  unfold Aligned hookWord
  rw [BitVec.toNat_add, BitVec.toNat_ofNat, hbase]
  omega

theorem aligned_autoHook (i : ℕ) : Aligned 4 (autoHook i) :=
  autoHook_eq_hookWord i ▸ aligned_hookWord (2 * i)

theorem inRange_hooks_of_hookWord {w : ℕ} (hw : w < numHookWords) {b : Word}
    (hb : InRange (hookWord w) 4 b) : InRange hooksBase hooksSize b := by
  have hnum : numHookWords = 62 := rfl
  have hsize : hooksSize = 248 := rfl
  exact (InRange.of_add hb (by omega)).mono (by omega)

theorem load32_clearAutohookTab (mem : Mem) {w : ℕ} (hw : w < numHookWords) :
    (clearAutohookTab mem).load32 (hookWord w) = 0 := by
  have hzero : (clearAutohookTab mem).load32 (hookWord w) =
      Mem.load32 (fun _ => 0) (hookWord w) :=
    Mem.load32_congr fun b hb => if_pos (inRange_hooks_of_hookWord hw hb)
  rw [hzero]
  simp [Mem.load32]

theorem load32_store_hookWord (mem : Mem) (x : Word) {v w : ℕ} (hv : v < numHookWords)
    (hw : w < numHookWords) : (mem.store 4 (hookWord v) x).load32 (hookWord w) =
      if w = v then x else mem.load32 (hookWord w) := by
  split_ifs with heq
  · rw [heq, Mem.load32_store_self]
  · apply Mem.load32_store_of_ne (aligned_hookWord v) (aligned_hookWord w)
    intro h
    have hnat := congrArg BitVec.toNat h
    rw [toNat_hookWord hw, toNat_hookWord hv] at hnat
    omega

theorem tableEnds_clearAutohookTab (mem : Mem) : TableEnds (clearAutohookTab mem) := by
  unfold TableEnds
  rw [autoHook_eq_hookWord]
  exact load32_clearAutohookTab mem (by decide)

/-! ### One call -/

/-- Only the entries of the table matter to its end. -/
theorem TableEnds.congr {mem mem' : Mem} (h : TableEnds mem)
    (heq : ∀ b, InRange (autoHook maxHooks) 4 b → mem' b = mem b) : TableEnds mem' := by
  unfold TableEnds
  rw [Mem.load32_congr heq]
  exact h

/-- The search ends inside of a table that ends. -/
theorem exists_searchHook {mem : Mem} (hends : TableEnds mem) (hookAddr : Word) {fuel i : ℕ}
    (hi : i ≤ maxHooks) (hfuel : maxHooks < fuel + i) :
    ∃ r, searchHook mem hookAddr fuel i = some r := by
  induction fuel generalizing i with
  | zero => omega
  | succ fuel ih =>
      rw [searchHook]
      split_ifs with hzero heq
      · exact ⟨_, rfl⟩
      · exact ⟨_, rfl⟩
      · have hne : i ≠ maxHooks := by
          rintro rfl
          exact hzero hends
        exact ih (by omega) (by omega)

/-- Where no entry has address 0 or the one looked for, the search never ends. -/
theorem searchHook_eq_none {mem : Mem} {hookAddr : Word}
    (h : ∀ i, mem.load32 (autoHook i) ≠ 0 ∧ mem.load32 (autoHook i) ≠ hookAddr) (fuel i : ℕ) :
    searchHook mem hookAddr fuel i = none := by
  induction fuel generalizing i with
  | zero => rfl
  | succ fuel ih => rw [searchHook, if_neg (h i).1, if_neg (h i).2, ih]

/-- The two words of an entry lie in the table, and those of a used entry before its end. -/
theorem inRange_hooks_of_autoHook {i : ℕ} (hi : i < maxHooks) {b : Word}
    (hb : InRange (autoHook i) 4 b ∨ InRange (autoHook i + 4) 4 b) :
    InRange hooksBase (8 * maxHooks) b := by
  have hmax : maxHooks = 30 := rfl
  rcases hb with hb | hb
  · exact (InRange.of_add hb (by omega)).mono (by omega)
  · have hentry : InRange (autoHook i) (4 + 4) b := InRange.of_add (k := 4) hb (by decide)
    exact (InRange.of_add hentry (by omega)).mono (by omega)

/-- A call on a table that ends returns, changes nothing outside of the used entries, and
leaves a table that ends. -/
theorem exists_addAutohook {mem : Mem} (hends : TableEnds mem) (hookAddr origOpcode : Word)
    {fuel : ℕ} (hfuel : maxHooks < fuel) :
    ∃ ret mem', addAutohook fuel mem hookAddr origOpcode = some (ret, mem') ∧
      TableEnds mem' ∧ ∀ b, ¬ InRange hooksBase (8 * maxHooks) b → mem' b = mem b := by
  obtain ⟨r, hsearch⟩ := exists_searchHook hends hookAddr (Nat.zero_le _) (by omega : _ < fuel + 0)
  cases r with
  | none => exact ⟨0, mem, by simp [addAutohook, hsearch], hends, fun _ _ => rfl⟩
  | some i =>
      by_cases hfull : maxHooks ≤ i
      · exact ⟨0, mem, by simp [addAutohook, hsearch, hfull], hends, fun _ _ => rfl⟩
      · have hframe : ∀ b, ¬ InRange hooksBase (8 * maxHooks) b →
            ((mem.store 4 (autoHook i) hookAddr).store 4 (autoHook i + 4) origOpcode) b =
              mem b := by
          intro b hb
          have hentry := mt (inRange_hooks_of_autoHook (Nat.lt_of_not_le hfull)) hb
          push Not at hentry
          rw [Mem.store_of_not_inRange hentry.2, Mem.store_of_not_inRange hentry.1]
        refine ⟨1, _, by simp [addAutohook, hsearch, hfull], ?_, hframe⟩
        exact hends.congr fun b hb => hframe b (InRange.not_of_add hb (by decide))

end Ps2rd.Debugger
