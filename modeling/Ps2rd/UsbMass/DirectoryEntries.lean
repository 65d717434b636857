import Ps2rd.UsbMass.FatDirectory

/-!
# What the entries of a directory mean

A directory is a table of entries of 32 bytes.  `Lists` says which files it lists: each has a
short entry, and before it the parts of its long name, from the last one to the first one;
between the files there may be deleted entries, and the table ends with an entry of zeros or
where there is no more room.

The driver finds the first file that is asked for, and knows its names, as long as no long
name in front of it has 128 characters.  Such a name does not fit into `fat_direntry`, and the
driver stores it all the same.
-/

namespace Ps2rd.UsbMass

open CString

/-- A file as the directory has it; `long` has the low bytes of the characters of the long
name and is empty if there is none. -/
structure Item where
  long : List Byte
  short : List Byte
  attr : Byte
  size : ℕ
  cluster : ℕ

/-- The name that the driver shows. -/
def Item.name (e : Item) : List Byte := if e.long = [] then e.short else e.long

/-- The number of entries for the long name. -/
def Item.parts (e : Item) : ℕ := (e.long.length + 12) / 13

/-- The characters of a part. -/
def Item.part (e : Item) (number : ℕ) : List Byte := (e.long.drop ((number - 1) * 13)).take 13

/-- Places of an entry that hold characters, and a zero behind them. -/
structure Chars (D : Region Byte) (pos : ℕ) (places : List ℕ) (chars : List Byte) : Prop where
  length_le : chars.length ≤ places.length
  char : ∀ (j i : ℕ) c, places[j]? = some i → chars[j]? = some c → D (pos + i) = c
  stop : ∀ i, places[chars.length]? = some i → D (pos + i) = 0 ∧ D (pos + i + 1) = 0

/-- An entry of the table `D` with a part of a long name, the last one or not. -/
structure LongAt (D : Region Byte) (pos number : ℕ) (chars : List Byte) (last : Bool) : Prop where
  number : (D pos).toNat % 64 = number
  last : (D pos).toNat / 64 % 2 = 1 ↔ last = true
  live : D pos ≠ 0xE5
  mark : D (pos + 11) = 0x0F ∧ D (pos + 12) = 0 ∧ D (pos + 26) = 0
  holds : Chars D pos charPlaces chars

/-- The short entry of a file. -/
structure ShortAt (D : Region Byte) (pos : ℕ) (e : Item) : Prop where
  live : D pos ≠ 0xE5
  mark : ¬ (D (pos + 11) = 0x0F ∧ D (pos + 12) = 0 ∧ D (pos + 26) = 0)
  short : shortName D pos = e.short
  attr : D (pos + 11) = e.attr
  size : D.u32 (pos + 28) = e.size
  cluster : D.u16 (pos + 26) + D.u16 (pos + 20) * 2 ^ 16 = e.cluster

/-- The entries from number `k` on, of `n` entries in all, list the files `items`. -/
inductive Lists (D : Region Byte) (n : ℕ) : ℕ → List Item → Prop
  | full : Lists D n n []
  | ended {k : ℕ} (hk : k < n) (h₀ : D (32 * k) = 0) (h₁ : D (32 * k + 1) = 0) : Lists D n k []
  | deleted {k : ℕ} {items : List Item} (hk : k < n) (h : D (32 * k) = 0xE5)
      (rest : Lists D n (k + 1) items) : Lists D n k items
  | item {k : ℕ} {e : Item} {items : List Item} (hk : k + e.parts < n)
      (hlong : NUL ∉ e.long) (hshort : NUL ∉ e.short)
      (parts : ∀ i < e.parts, LongAt D (32 * (k + i)) (e.parts - i) (e.part (e.parts - i))
        (decide (i = 0)))
      (entry : ShortAt D (32 * (k + e.parts)) e) (rest : Lists D n (k + e.parts + 1) items) :
      Lists D n k (e :: items)

/-- The local variable has the names and the data of the file. -/
structure Direntry.Is (dir : Direntry) (e : Item) : Prop where
  attr : dir.attr = e.attr
  size : dir.size = e.size
  cluster : dir.cluster = e.cluster
  nul : NUL ∉ e.name ∧ NUL ∉ e.short
  fits : e.name.length < fatMaxName
  name : dir.name.read 0 (e.name.length + 1) = e.name ++ [NUL]
  sname : dir.sname.read 0 (e.short.length + 1) = e.short ++ [NUL]

/-- The positions of the entries from number `k` on. -/
def positions (k n : ℕ) : List ℕ := (List.range' k (n - k)).map (32 * ·)

theorem positions_of_lt {k n : ℕ} (h : k < n) : positions k n = 32 * k :: positions (k + 1) n := by
  obtain ⟨m, rfl⟩ : ∃ m, n = k + m + 1 := ⟨n - k - 1, by omega⟩
  unfold positions
  rw [show k + m + 1 - k = m + 1 by omega, show k + m + 1 - (k + 1) = m by omega, List.range'_succ]
  rfl

theorem positions_self (n : ℕ) : positions n n = [] := by simp [positions]

/-! ### Parts of a long name -/

/-- A piece of the name is stored. -/
def Direntry.writeName (dir : Direntry) (offset : ℕ) (bytes : List Byte) : Direntry :=
  { dir with name := dir.name.write offset bytes }

section Long

variable {D : Region Byte} {pos : ℕ} {chars : List Byte}

theorem Chars.tail {i : ℕ} {places : List ℕ} {c : Byte}
    (h : Chars D pos (i :: places) (c :: chars)) : Chars D pos places chars :=
  ⟨Nat.le_of_succ_le_succ h.length_le, fun j => h.char (j + 1), h.stop⟩

/-- A character is stored, and the next one is looked at. -/
theorem copyChars_cons {i : ℕ} {places : List ℕ} {c : Byte}
    (h : Chars D pos (i :: places) (c :: chars)) (hc : c ≠ NUL) (offset : ℕ) (dir : Direntry) :
    copyChars D pos (i :: places) offset dir =
      (dir.setName offset c).bind (copyChars D pos places (offset + 1)) := by
  have hD : D (pos + i) = c := h.char 0 i c rfl rfl
  rw [copyChars, hD, if_neg fun hzero => hc hzero.1]

/-- The characters are stored, with a terminator if there is a place left in the entry. -/
theorem copyChars_spec (hnul : NUL ∉ chars) {places : List ℕ} (h : Chars D pos places chars)
    (offset : ℕ) (hfit : offset + chars.length < fatMaxName) (dir : Direntry) :
    copyChars D pos places offset dir = some (offset + chars.length,
      dir.writeName offset (chars ++ if chars.length < places.length then [NUL] else [])) := by
  induction places generalizing chars offset dir with
  | nil =>
      obtain rfl : chars = [] := List.length_eq_zero_iff.mp (Nat.le_zero.mp h.length_le)
      simp [copyChars, Direntry.writeName]
  | cons i places ih =>
      cases chars with
      | nil =>
          rw [List.length_nil, Nat.add_zero] at hfit
          rw [copyChars, if_pos (h.stop i rfl), Direntry.setName, if_pos hfit]
          rfl
      | cons c chars =>
          obtain ⟨hc, hnul'⟩ := List.ne_and_not_mem_of_not_mem_cons hnul
          rw [List.length_cons] at hfit
          have hrest := ih hnul' h.tail (offset + 1) (by omega)
            { dir with name := dir.name.write offset [c] }
          rw [copyChars_cons h hc.symm, Direntry.setName, if_pos (by omega), Option.bind_some, hrest]
          have hwrite := Region.write_append dir.name offset [c]
            (chars ++ if chars.length < places.length then [NUL] else [])
          rw [List.length_singleton] at hwrite
          simp only [Direntry.writeName, hwrite, List.length_cons, Nat.add_lt_add_iff_right,
            List.cons_append, List.nil_append, Nat.add_assoc, Nat.add_comm 1]

/-- Where the characters do not fit, the copying has no result, or it ends behind the array. -/
theorem copyChars_long (hnul : NUL ∉ chars) {places : List ℕ} (h : Chars D pos places chars)
    (offset : ℕ) (hfit : fatMaxName ≤ offset + chars.length) (dir : Direntry) :
    copyChars D pos places offset dir = none ∨
      ∃ dir', copyChars D pos places offset dir = some (offset + chars.length, dir') := by
  induction places generalizing chars offset dir with
  | nil =>
      obtain rfl : chars = [] := List.length_eq_zero_iff.mp (Nat.le_zero.mp h.length_le)
      exact .inr ⟨dir, rfl⟩
  | cons i places ih =>
      cases chars with
      | nil =>
          rw [List.length_nil, Nat.add_zero] at hfit
          rw [copyChars, if_pos (h.stop i rfl), Direntry.setName, if_neg (by omega)]
          exact .inl rfl
      | cons c chars =>
          obtain ⟨hc, hnul'⟩ := List.ne_and_not_mem_of_not_mem_cons hnul
          rw [List.length_cons] at hfit ⊢
          rw [copyChars_cons h hc.symm, Direntry.setName]
          split_ifs with hoff
          · have hrest := ih hnul' h.tail (offset + 1) (by omega)
              { dir with name := dir.name.write offset [c] }
            rw [Option.bind_some]
            rwa [Nat.add_assoc, Nat.add_comm 1] at hrest
          · exact .inl rfl

/-- A long entry, as it goes into the branch for it. -/
theorem LongAt.direntry {number : ℕ} {last : Bool} (h : LongAt D pos number chars last)
    (hnumber : 0 < number) (dir : Direntry) :
    fatGetDirentry D pos dir =
      (copyChars D pos charPlaces ((number - 1) * 13) dir).bind fun (offset, dir) =>
        (if last then dir.setName offset NUL else some dir).map (.long, ·) := by
  have hfirst : ¬ (D pos = 0 ∧ D (pos + 1) = 0) := by
    intro hzero
    have hmod := h.number
    rw [hzero.1] at hmod
    exact hnumber.ne hmod
  rw [fatGetDirentry, if_neg hfirst, if_neg h.live, if_pos h.mark]
  dsimp only
  rw [h.number, if_neg hnumber.ne']
  simp only [h.last]

/-- The last part, which is the first one in the table. -/
theorem LongAt.direntry_last {number : ℕ} (h : LongAt D pos number chars true)
    (hnumber : 0 < number) (hnul : NUL ∉ chars)
    (hfit : (number - 1) * 13 + chars.length < fatMaxName) (dir : Direntry) :
    ∃ dir', fatGetDirentry D pos dir = some (.long, dir') ∧
      dir'.name.read ((number - 1) * 13) (chars.length + 1) = chars ++ [NUL] := by
  rw [h.direntry hnumber, copyChars_spec hnul h.holds _ hfit, Option.bind_some]
  dsimp only
  rw [if_pos rfl, Direntry.setName, if_pos hfit]
  refine ⟨_, rfl, ?_⟩
  dsimp only [Direntry.writeName]
  rw [Region.read_add, Region.read_write_of_disjoint _ (.inl le_rfl),
    Region.read_write_within _ le_rfl (by simp),
    Region.read_write_of_length _ _ (List.length_singleton : [NUL].length = 1)]
  simp

/-- A part that is not the last one. -/
theorem LongAt.direntry_part {number : ℕ} (h : LongAt D pos number chars false)
    (hnumber : 0 < number) (hnul : NUL ∉ chars) (hlen : chars.length = 13)
    (hfit : (number - 1) * 13 + chars.length < fatMaxName) (dir : Direntry) :
    fatGetDirentry D pos dir = some (.long, dir.writeName ((number - 1) * 13) chars) := by
  rw [h.direntry hnumber, copyChars_spec hnul h.holds _ hfit, Option.bind_some]
  dsimp only
  rw [if_neg Bool.false_ne_true, if_neg (by rw [hlen]; decide), List.append_nil]
  rfl

/-- A last part that does not fit. -/
theorem LongAt.direntry_none {number : ℕ} (h : LongAt D pos number chars true)
    (hnumber : 0 < number) (hnul : NUL ∉ chars)
    (hfit : fatMaxName ≤ (number - 1) * 13 + chars.length) (dir : Direntry) :
    fatGetDirentry D pos dir = none := by
  rw [h.direntry hnumber]
  rcases copyChars_long hnul h.holds _ hfit dir with hnone | ⟨dir', hsome⟩
  · rw [hnone]
    rfl
  · rw [hsome, Option.bind_some]
    dsimp only
    rw [if_pos rfl, Direntry.setName, if_neg (not_lt.mpr hfit)]
    rfl

end Long

/-! ### Long names -/

section Name

variable {D : Region Byte} {n k : ℕ} {e : Item}

theorem Item.part_parts (e : Item) : e.part e.parts = e.long.drop ((e.parts - 1) * 13) := by
  refine List.take_of_length_le ?_
  rw [List.length_drop, Item.parts]
  omega

theorem Item.length_part (e : Item) (number : ℕ) (hnumber : 0 < number) (h : number < e.parts) :
    (e.part number).length = 13 := by
  rw [Item.parts] at h
  rw [Item.part, List.length_take, List.length_drop]
  omega

theorem Item.part_append (e : Item) (number : ℕ) (hnumber : 0 < number) :
    e.part number ++ e.long.drop (number * 13) = e.long.drop ((number - 1) * 13) := by
  have hdrop : e.long.drop (number * 13) = (e.long.drop ((number - 1) * 13)).drop 13 := by
    rw [List.drop_drop]
    congr 1
    omega
  rw [Item.part, hdrop, List.take_append_drop]

/-- The name from `off` on is there. -/
def Direntry.Collected (dir : Direntry) (text : List Byte) (off : ℕ) : Prop :=
  dir.name.read off ((text.drop off).length + 1) = text.drop off ++ [NUL]

variable (hnul : NUL ∉ e.long)
  (parts : ∀ i < e.parts, LongAt D (32 * (k + i)) (e.parts - i) (e.part (e.parts - i))
    (decide (i = 0)))
  (hk : k + e.parts ≤ n)

include hnul

omit hnul in
theorem searchEntries_long {hit : ℕ → Direntry → Bool} {index : ℕ} {dir dir' : Direntry}
    (hlt : k < n) (h : fatGetDirentry D (32 * k) dir = some (.long, dir')) :
    searchEntries hit D (positions k n) index dir =
      searchEntries hit D (positions (k + 1) n) index dir' := by
  rw [positions_of_lt hlt, searchEntries, h]
  rfl

theorem Item.nul_not_mem_part (number : ℕ) : NUL ∉ e.part number := fun h =>
  hnul (List.mem_of_mem_drop (List.mem_of_mem_take h))

include parts hk

/-- The parts of a name that fits are put together, the last one first. -/
theorem searchEntries_parts (hfit : e.long.length < fatMaxName) (hit : ℕ → Direntry → Bool)
    (index : ℕ) (dir : Direntry) {i : ℕ} (hi : 1 ≤ i) (hle : i ≤ e.parts) :
    ∃ dir', searchEntries hit D (positions k n) index dir =
        searchEntries hit D (positions (k + i) n) index dir' ∧
      dir'.Collected e.long ((e.parts - i) * 13) := by
  induction i, hi using Nat.le_induction with
  | base =>
      have hlast := parts 0 (by omega)
      rw [Nat.sub_zero, Nat.add_zero, decide_eq_true rfl] at hlast
      have hlen : (e.parts - 1) * 13 + (e.part e.parts).length < fatMaxName := by
        rw [e.part_parts, List.length_drop]
        have hparts : e.parts = (e.long.length + 12) / 13 := rfl
        omega
      obtain ⟨dir', hget, hname⟩ :=
        hlast.direntry_last (by omega) (Item.nul_not_mem_part hnul _) hlen dir
      refine ⟨dir', searchEntries_long (by omega) hget, ?_⟩
      rwa [e.part_parts] at hname
  | succ i hi ih =>
      obtain ⟨dir₁, hrun, hcollected⟩ := ih (by omega)
      have hpart := parts i (by omega)
      rw [decide_eq_false (by omega)] at hpart
      have hlen := e.length_part (e.parts - i) (by omega) (by omega)
      have hfit' : (e.parts - i - 1) * 13 + (e.part (e.parts - i)).length < fatMaxName := by
        have hparts : e.parts = (e.long.length + 12) / 13 := rfl
        omega
      have hget := hpart.direntry_part (by omega) (Item.nul_not_mem_part hnul _) hlen hfit' dir₁
      refine ⟨_, hrun.trans (searchEntries_long (by omega) hget), ?_⟩
      have happend := e.part_append (e.parts - i) (by omega)
      have hoff : (e.parts - i - 1) * 13 + 13 = (e.parts - i) * 13 := by omega
      rw [← Nat.sub_sub, Direntry.Collected, ← happend, List.length_append, hlen, Nat.add_assoc,
        Region.read_add, hoff]
      dsimp only [Direntry.writeName]
      rw [Region.read_write_of_length _ _ hlen, Region.read_write_of_disjoint _ (.inr (by omega)),
        hcollected, List.append_assoc]

/-- A name that fits is there when its short entry is reached. -/
theorem searchEntries_name (hfit : e.long.length < fatMaxName) (hit : ℕ → Direntry → Bool)
    (index : ℕ) {dir : Direntry} (hclear : dir.name 0 = NUL) :
    ∃ dir', searchEntries hit D (positions k n) index dir =
        searchEntries hit D (positions (k + e.parts) n) index dir' ∧
      dir'.name.read 0 (e.long.length + 1) = e.long ++ [NUL] := by
  rcases Nat.eq_zero_or_pos e.parts with hzero | hpos
  · have hempty : e.long = [] := by
      rw [Item.parts] at hzero
      exact List.length_eq_zero_iff.mp (by omega)
    refine ⟨dir, by rw [hzero, Nat.add_zero], ?_⟩
    rw [hempty]
    simpa [Region.read] using hclear
  · obtain ⟨dir', hrun, hcollected⟩ :=
      searchEntries_parts hnul parts hk hfit hit index dir hpos le_rfl
    refine ⟨dir', hrun, ?_⟩
    rwa [Nat.sub_self, Nat.zero_mul] at hcollected

/-- A name of 128 characters or more is stored outside the array. -/
theorem searchEntries_overflow (hlong : fatMaxName ≤ e.long.length) (hit : ℕ → Direntry → Bool)
    (index : ℕ) (dir : Direntry) : searchEntries hit D (positions k n) index dir = none := by
  have hparts : e.parts = (e.long.length + 12) / 13 := rfl
  have hmax : fatMaxName = 128 := rfl
  have hlast := parts 0 (by omega)
  rw [Nat.sub_zero, Nat.add_zero, decide_eq_true rfl] at hlast
  have hlen : fatMaxName ≤ (e.parts - 1) * 13 + (e.part e.parts).length := by
    rw [e.part_parts, List.length_drop]
    omega
  have hnone := hlast.direntry_none (by omega) (Item.nul_not_mem_part hnul _) hlen dir
  rw [positions_of_lt (by omega), searchEntries, hnone]
  rfl

end Name

/-! ### Short entries -/

section Short

variable {D : Region Byte} {pos : ℕ} {e : Item}

theorem nul_mem_shortName (h : D pos = 0) : NUL ∈ shortName D pos := by
  have hread : D.read pos 8 = NUL :: D.read (pos + 1) 7 := by
    rw [Region.read_succ, h]
    rfl
  have hname : NUL ∈ (D.read pos 8).takeWhile (· ≠ 32) := by
    rw [hread, List.takeWhile_cons, if_pos (by decide)]
    exact List.mem_cons_self
  unfold shortName
  dsimp only
  split_ifs with hext
  · exact hname
  · exact List.mem_append_left _ hname

theorem ShortAt.length_short (h : ShortAt D pos e) : e.short.length ≤ 12 := by
  have hname : ((D.read pos 8).takeWhile (· ≠ 32)).length ≤ 8 :=
    (List.takeWhile_prefix _).length_le.trans (by simp)
  have hext : ((D.read (pos + 8) 3).takeWhile (· ≠ 32)).length ≤ 3 :=
    (List.takeWhile_prefix _).length_le.trans (by simp)
  rw [← h.short, shortName]
  split_ifs with hnil
  · omega
  · rw [List.length_append, List.length_cons]
    omega

/-- The short entry of a file completes its data. -/
theorem ShortAt.direntry (h : ShortAt D pos e) (hshort : NUL ∉ e.short) (hlong : NUL ∉ e.long)
    (hfit : e.long.length < fatMaxName) {dir : Direntry}
    (hname : dir.name.read 0 (e.long.length + 1) = e.long ++ [NUL]) :
    ∃ dir', fatGetDirentry D pos dir = some (.short, dir') ∧ dir'.Is e := by
  have hfirst : ¬ (D pos = 0 ∧ D (pos + 1) = 0) := fun hzero =>
    hshort (h.short ▸ nul_mem_shortName hzero.1)
  rw [fatGetDirentry, if_neg hfirst, if_neg h.live, if_neg h.mark]
  refine ⟨_, rfl, ?_⟩
  have hread : ∀ r : Region Byte, ∀ text : List Byte,
      (r.write 0 (text ++ [NUL])).read 0 (text.length + 1) = text ++ [NUL] := fun r text =>
    Region.read_write_of_length r 0 (by simp)
  rw [h.short, cstr_eq_self hshort]
  cases hcases : e.long with
  | nil =>
      rw [hcases, Region.read_succ] at hname
      have hzero : dir.name 0 = 0 := (List.cons.inj hname).1
      have hshown : e.name = e.short := if_pos hcases
      have hlen := h.length_short
      rw [if_pos hzero]
      refine ⟨h.attr, h.size, h.cluster, ?_, ?_, ?_, hread _ _⟩ <;> rw [hshown]
      · exact ⟨hshort, hshort⟩
      · exact hlen.trans_lt (by decide)
      · exact hread _ _
  | cons c long =>
      have hshown : e.name = e.long := if_neg (by rw [hcases]; exact List.cons_ne_nil _ _)
      have hfirst : dir.name 0 ≠ 0 := by
        rw [hcases] at hname hlong
        rw [Region.read_succ] at hname
        have hc : dir.name 0 = c := (List.cons.inj hname).1
        exact fun hzero => hlong (by rw [← hc, hzero]; exact List.mem_cons_self)
      rw [if_neg hfirst]
      refine ⟨h.attr, h.size, h.cluster, ?_, ?_, ?_, hread _ _⟩ <;> rw [hshown]
      · exact ⟨hlong, hshort⟩
      · exact hfit
      · exact hname

end Short

/-! ### The search -/

/-- The first file that is taken, with its number, or that has too long a name. -/
def firstHit (hit : ℕ → Item → Bool) (index : ℕ) (items : List Item) : Option Item :=
  ((items.zipIdx index).find? fun (e, i) => hit i e || decide (fatMaxName ≤ e.long.length)).map
    Prod.fst

theorem firstHit_cons (hit : ℕ → Item → Bool) (index : ℕ) (e : Item) (items : List Item) :
    firstHit hit index (e :: items) =
      if hit index e || decide (fatMaxName ≤ e.long.length) then some e
      else firstHit hit (index + 1) items := by
  unfold firstHit
  rw [List.zipIdx_cons, List.find?_cons]
  split <;> simp_all

/-- The outcome of a search for the first file that is taken. -/
def Found (r : Option Search) : Option Item → Prop
  | some e => if fatMaxName ≤ e.long.length then r = none else ∃ dir, r = some (.found dir) ∧ dir.Is e
  | none => r = some .ended ∨ ∃ index dir, r = some (.more index dir)

/-- The search goes through the files that a directory lists. -/
theorem Lists.search {D : Region Byte} {n k : ℕ} {items : List Item} (h : Lists D n k items)
    {hit : ℕ → Direntry → Bool} {hit' : ℕ → Item → Bool}
    (hhit : ∀ index dir e, Direntry.Is dir e → hit index dir = hit' index e)
    (index : ℕ) {dir : Direntry} (hclear : dir.name 0 = NUL) :
    Found (searchEntries hit D (positions k n) index dir) (firstHit hit' index items) := by
  induction h generalizing index dir with
  | full =>
      rw [positions_self]
      exact .inr ⟨index, dir, rfl⟩
  | ended hk h₀ h₁ =>
      rw [positions_of_lt hk, searchEntries, fatGetDirentry, if_pos ⟨h₀, h₁⟩]
      exact .inl rfl
  | deleted hk hE5 _ ih =>
      have hne : (0xE5 : Byte) ≠ 0 := by decide
      rw [positions_of_lt hk, searchEntries, fatGetDirentry, hE5, if_neg (fun hzero => hne hzero.1),
        if_pos rfl]
      exact ih index hclear
  | @item k e items hk hlong hshort parts entry _ ih =>
      rw [firstHit_cons]
      by_cases hlen : fatMaxName ≤ e.long.length
      · rw [if_pos (by simp [hlen]), Found, if_pos hlen]
        exact searchEntries_overflow hlong parts hk.le hlen hit index dir
      · obtain ⟨dir₁, hrun, hname⟩ :=
          searchEntries_name hlong parts hk.le (not_le.mp hlen) hit index hclear
        obtain ⟨dir₂, hget, his⟩ := entry.direntry hshort hlong (not_le.mp hlen) hname
        have hsame := hhit index dir₂ e his
        rw [hrun, positions_of_lt hk, searchEntries, hget]
        cases htaken : hit' index e with
        | true =>
            rw [if_pos (by simp), Found, if_neg hlen]
            refine ⟨dir₂, ?_, his⟩
            simp [hsame, htaken]
        | false =>
            rw [if_neg (by simp [hlen])]
            simp only [Option.bind_eq_bind, Option.bind_some, hsame, htaken, Bool.false_eq_true,
              if_false]
            refine ih (index + 1) ?_
            rfl

/-! ### Names -/

theorem toLower_eq_zero {c : Byte} : toLower c = 0 ↔ c = 0 := by
  unfold toLower
  split_ifs with h
  · constructor <;> intro hzero <;> bv_omega
  · rfl

/-- `strEqual` compares without regard to case. -/
theorem strEqual_eq {s : Region Byte} {i : ℕ} {w t : List Byte}
    (hs : s.read i (w.length + 1) = w ++ [NUL]) (hw : NUL ∉ w) (ht : NUL ∉ t) :
    strEqual s i t = decide (w.map toLower = t.map toLower) := by
  induction t generalizing i w with
  | nil =>
      rw [strEqual, Region.read_succ] at *
      cases w with
      | nil =>
          have hzero : s i = NUL := (List.cons.inj hs).1
          rw [hzero]
          rfl
      | cons c w =>
          have hc : s i = c := (List.cons.inj hs).1
          have hne : c ≠ 0 := fun h => hw (by rw [h]; exact List.mem_cons_self)
          rw [hc, decide_eq_false (mt toLower_eq_zero.mp hne)]
          rfl
  | cons b t ih =>
      obtain ⟨hb, ht'⟩ := List.ne_and_not_mem_of_not_mem_cons ht
      rw [strEqual, Region.read_succ] at *
      cases w with
      | nil =>
          have hzero : s i = NUL := (List.cons.inj hs).1
          have hne : toLower NUL ≠ toLower b := fun h => hb (toLower_eq_zero.mp h.symm).symm
          rw [hzero, decide_eq_false hne]
          rfl
      | cons c w =>
          obtain ⟨hc, hrest⟩ := List.cons.inj hs
          rw [ih hrest (List.ne_and_not_mem_of_not_mem_cons hw).2 ht', hc]
          simp [Bool.decide_and]

/-- The file is asked for by its short or its long name. -/
def Item.hasName (e : Item) (dirName : List Byte) : Bool :=
  !e.attr.getLsbD 3 &&
    (decide (e.short.map toLower = dirName.map toLower) ||
      decide (e.name.map toLower = dirName.map toLower))

theorem Direntry.Is.hasName {dir : Direntry} {e : Item} (h : dir.Is e) {dirName : List Byte}
    (hnul : NUL ∉ dirName) : UsbMass.hasName dirName dir = e.hasName dirName := by
  rw [UsbMass.hasName, Item.hasName, h.attr, strEqual_eq h.sname h.nul.2 hnul,
    strEqual_eq h.name h.nul.1 hnul]

theorem stringIn_eq {r : Region Byte} {w : List Byte} {size : ℕ}
    (hr : r.read 0 (w.length + 1) = w ++ [NUL]) (hw : NUL ∉ w) (hfit : w.length < size) :
    stringIn r size = some w := by
  have hread : r.read 0 size = w ++ NUL :: r.read (w.length + 1) (size - (w.length + 1)) := by
    calc r.read 0 size = r.read 0 (w.length + 1 + (size - (w.length + 1))) := by congr 1; omega
      _ = w ++ NUL :: r.read (w.length + 1) (size - (w.length + 1)) := by
        rw [Region.read_add, hr, Nat.zero_add, List.append_assoc, List.singleton_append]
  rw [stringIn, hread, cstr_append_nul hw]
  exact if_pos hfit

/-- What the driver keeps of a file. -/
theorem Direntry.Is.setFatDir {dir : Direntry} {e : Item} (h : dir.Is e) (fatDir : FatDir) :
    UsbMass.setFatDir fatDir dir = some
      { fatDir with
        attr := e.attr
        name := e.name
        size := e.size
        chain := Function.update fatDir.chain 0 ⟨e.cluster, 0⟩ } := by
  have hname : (if dir.name 0 ≠ 0 then stringIn dir.name fatMaxName else stringIn dir.sname 13) =
      some e.name := by
    split_ifs with hzero
    · exact stringIn_eq h.name h.nul.1 h.fits
    · -- only a file without a name has an empty one
      have hempty : e.name = [] := by
        by_contra hne
        obtain ⟨c, t, hcons⟩ := List.exists_cons_of_ne_nil hne
        have hread := h.name
        rw [hcons, Region.read_succ] at hread
        have hc : dir.name 0 = c := (List.cons.inj hread).1
        refine h.nul.1 ?_
        rw [hcons, ← hc, not_not.mp hzero]
        exact List.mem_cons_self
      have hshort : e.short = e.name := by
        rw [Item.name] at hempty ⊢
        split_ifs at hempty ⊢ with hlong
        · rfl
        · exact absurd hempty hlong
      rw [← hshort] at hempty ⊢
      exact stringIn_eq h.sname h.nul.2 (by rw [hempty]; decide)
  rw [UsbMass.setFatDir, hname, h.attr, h.size, h.cluster]
  rfl

end Ps2rd.UsbMass
