import Ps2rd.Lib.Layout
import Ps2rd.Mips.Memory

/-!
# Modules in kernel RAM

`install_modules` copies the IOP modules to kernel RAM, behind a table with the hash of each
name, the address and the size.  The debugger, which is a program of its own, looks
them up there by hashes that it has as constants.

* **Hashes.**  The constants are the hashes of the names, all different and not 0
  (`strhash_name`).
* **Copies.**  Each file is copied behind the one before it, so a copy is not touched again
  (`copyFiles_apply_of_not`, `copyFiles_apply`).
* **Table.**  It is written last and ends where the first copy starts; a lookup gets to the
  first entry with the hash or to the end (`findRamfile_eq`).

All of it together is `modules_in_kernel`.
-/

namespace Ps2rd.Loader

open Mips

/-! ### irxman.c -/

/-- `IRX_ADDR` -/
def irxAddr : Word := 0x80030000

/-- `ramfile_t` -/
structure Ramfile where
  hash : Word
  addr : Word
  size : Word

/-- The body of the loop of `strhash`. -/
def strhashStep (h : Word) (c : Byte) : Word :=
  let h := (h <<< 4) + c.setWidth 32
  let g := h &&& 0xf0000000#32
  let h := if g ≠ 0 then h ^^^ (g >>> 24) else h
  h &&& ~~~g

/-- `strhash` -/
def strhash (name : List Byte) : Word := name.foldl strhashStep 0

/-- `ramfile_set` -/
def ramfileSet (name : Option (List Byte)) (addr size : Word) : Ramfile where
  hash := match name with
    | some name => strhash name
    | none => 0
  addr := addr
  size := size

/-- A file that is linked into the loader: its start and its size. -/
structure IrxFile where
  start : Word
  size : Word

/-- The files that are linked into the loader for the debugger. -/
structure IrxFiles where
  ps2dev9 : IrxFile
  ps2ip : IrxFile
  ps2smap : IrxFile
  ps2ipSms : IrxFile
  ps2smapSms : IrxFile
  debugger : IrxFile
  memdisk : IrxFile
  eesync : IrxFile

/-- The names in the table. -/
inductive IrxModule
  | ps2ip
  | ps2smap
  | ps2dev9
  | debugger
  | memdisk
  | eesync
  deriving DecidableEq

def IrxModule.name : IrxModule → List Byte
  | ps2ip => [0x70, 0x73, 0x32, 0x69, 0x70]
  | ps2smap => [0x70, 0x73, 0x32, 0x73, 0x6d, 0x61, 0x70]
  | ps2dev9 => [0x70, 0x73, 0x32, 0x64, 0x65, 0x76, 0x39]
  | debugger => [0x64, 0x65, 0x62, 0x75, 0x67, 0x67, 0x65, 0x72]
  | memdisk => [0x6d, 0x65, 0x6d, 0x64, 0x69, 0x73, 0x6b]
  | eesync => [0x65, 0x65, 0x73, 0x79, 0x6e, 0x63]

/-- The file that is installed under a name; `sms` says that the SMS modules are built in and
`SET_DEBUGGER_SMS_MODULES` is set. -/
def IrxFiles.installed (irx : IrxFiles) (sms : Bool) : IrxModule → IrxFile
  | .ps2ip => if sms then irx.ps2ipSms else irx.ps2ip
  | .ps2smap => if sms then irx.ps2smapSms else irx.ps2smap
  | .ps2dev9 => irx.ps2dev9
  | .debugger => irx.debugger
  | .memdisk => irx.memdisk
  | .eesync => irx.eesync

/-- The entry that `install_modules` makes for a file. -/
def fileEntry (file : IrxModule → IrxFile) (m : IrxModule) : Ramfile :=
  ramfileSet (some m.name) (file m).start (file m).size

/-- `file_tab` as it is built. -/
def fileTab (file : IrxModule → IrxFile) : List Ramfile :=
  [fileEntry file .ps2ip, fileEntry file .ps2smap, fileEntry file .ps2dev9,
    fileEntry file .debugger, fileEntry file .memdisk, fileEntry file .eesync,
    ramfileSet none 0 0]

/-- The loop that copies the files to `addr` and puts their new addresses into the table. -/
def copyFiles : List Ramfile → Word → Mem → List Ramfile × Mem
  | [], _, mem => ([], mem)
  | f :: tab, addr, mem =>
      if f.hash ≠ 0 then
        let r := copyFiles tab (addr + f.size) (mem.copy addr f.addr f.size.toNat)
        ({ f with addr := addr } :: r.1, r.2)
      else (f :: tab, mem)

/-- `memcpy(ktab, file_tab, sizeof(file_tab))` -/
def storeTable : List Ramfile → Word → Mem → Mem
  | [], _, mem => mem
  | f :: tab, ktab, mem =>
      storeTable tab (ktab + 12) (mem.store 12 ktab (f.size ++ f.addr ++ f.hash))

/-- `sizeof(file_tab)`, with room for `IRX_NUM` files and the end of the table -/
def tableSize : ℕ := 12 * (6 + 1)

/-- `install_modules` -/
def installModules (sms : Bool) (irx : IrxFiles) (mem : Mem) : Mem :=
  let r := copyFiles (fileTab (irx.installed sms)) (irxAddr + BitVec.ofNat 32 tableSize) mem
  storeTable r.1 irxAddr r.2

/-! ### debugger.c -/

/-- The constants `HASH_PS2IP` and so on. -/
def IrxModule.hash : IrxModule → Word
  | ps2dev9 => 0x0768ace9
  | ps2ip => 0x00776900
  | ps2smap => 0x0769a3f0
  | debugger => 0x0b9bdb62
  | memdisk => 0x03c3b0eb
  | eesync => 0x06bcb043

/-- The loop of `get_module_by_hash`: address and size of the module, 0 and 0 if the table
ends before. -/
def findRamfile (mem : Mem) (hash : Word) : ℕ → Word → Option (Word × Word)
  | 0, _ => none
  | fuel + 1, irxPtr =>
      if mem.load32 irxPtr = 0 then some (0, 0)
      else if mem.load32 irxPtr = hash then some (mem.load32 (irxPtr + 4), mem.load32 (irxPtr + 8))
      else findRamfile mem hash fuel (irxPtr + 12)

/-- `get_module_by_hash`: the address that is returned, and `*size` -/
def getModuleByHash (fuel : ℕ) (mem : Mem) (hash : Word) : Option (Word × Word) :=
  (findRamfile mem hash fuel irxAddr).map fun (addr, size) =>
    if size = 0 then (0, size) else (addr, size)

/-- `get_module_from_kernel` -/
def getModuleFromKernel (fuel : ℕ) (mem : Mem) (hash buf : Word) : Option (ℤ × Mem) :=
  (getModuleByHash fuel mem hash).map fun (ptr, irxsize) =>
    if ptr = 0 then (-1, mem) else (irxsize.toInt, mem.copy buf ptr irxsize.toNat)

/-! ### Hashes -/

theorem strhash_name (m : IrxModule) : strhash m.name = m.hash := by
  cases m <;> decide

theorem IrxModule.hash_ne_zero (m : IrxModule) : m.hash ≠ 0 := by
  cases m <;> decide

theorem IrxModule.hash_inj {m m' : IrxModule} (h : m.hash = m'.hash) : m = m' := by
  cases m <;> cases m' <;> first | rfl | exact absurd h (by decide)

/-! ### Copies -/

section

variable {tab : List Ramfile} {tail : Ramfile} {base : ℕ} {mem : Mem}

/-- The bytes that a file takes. -/
def Ramfile.bytes (f : Ramfile) : ℕ := f.size.toNat

/-- The table with the addresses of the copies, the first of which is at `base`. -/
def placed : ℕ → List Ramfile → List Ramfile
  | _, [] => []
  | base, f :: tab => { f with addr := BitVec.ofNat 32 base } :: placed (base + f.size.toNat) tab

theorem ofNat_add_size (base : ℕ) (size : Word) :
    BitVec.ofNat 32 base + size = BitVec.ofNat 32 (base + size.toNat) := by
  rw [BitVec.ofNat_add, BitVec.ofNat_toNat, BitVec.setWidth_eq]

theorem copyFiles_fst (mem : Mem) (hhash : ∀ f ∈ tab, f.hash ≠ 0) (htail : tail.hash = 0) :
    (copyFiles (tab ++ [tail]) (BitVec.ofNat 32 base) mem).1 = placed base tab ++ [tail] := by
  induction tab generalizing base mem with
  | nil => simp [copyFiles, htail, placed]
  | cons f tab ih =>
      have hf : f.hash ≠ 0 := hhash f List.mem_cons_self
      rw [List.cons_append, copyFiles, if_pos hf, ofNat_add_size]
      exact congrArg _ (ih _ fun g hg => hhash g (List.mem_cons_of_mem f hg))

theorem copyFiles_snd_cons {f : Ramfile} (hf : f.hash ≠ 0) :
    (copyFiles (f :: tab ++ [tail]) (BitVec.ofNat 32 base) mem).2 =
      (copyFiles (tab ++ [tail]) (BitVec.ofNat 32 (base + f.size.toNat))
        (mem.copy (BitVec.ofNat 32 base) f.addr f.size.toNat)).2 := by
  rw [List.cons_append, copyFiles, if_pos hf, ofNat_add_size]

/-- Nothing outside of the copies changes. -/
theorem copyFiles_apply_of_not (hhash : ∀ f ∈ tab, f.hash ≠ 0) (htail : tail.hash = 0)
    (hroom : base + Layout.total Ramfile.bytes tab ≤ 2 ^ 32) {b : Word}
    (hb : b.toNat < base ∨ base + Layout.total Ramfile.bytes tab ≤ b.toNat) :
    (copyFiles (tab ++ [tail]) (BitVec.ofNat 32 base) mem).2 b = mem b := by
  induction tab generalizing base mem with
  | nil => simp [copyFiles, htail]
  | cons f tab ih =>
      rw [Layout.total_cons, Ramfile.bytes] at hroom hb
      have hrest : ∀ g ∈ tab, g.hash ≠ 0 := fun g hg => hhash g (List.mem_cons_of_mem f hg)
      rw [copyFiles_snd_cons (hhash f List.mem_cons_self), ih hrest (by omega) (by omega)]
      apply Mem.copy_of_not_inRange
      rw [inRange_ofNat_iff (by omega)]
      omega

/-- Each file is found at its place, if the files themselves lie elsewhere. -/
theorem copyFiles_apply (hhash : ∀ f ∈ tab, f.hash ≠ 0) (htail : tail.hash = 0)
    (hroom : base + Layout.total Ramfile.bytes tab ≤ 2 ^ 32)
    (hsource : ∀ f ∈ tab, ∀ k < f.size.toNat, (f.addr + BitVec.ofNat 32 k).toNat < base)
    {i k : ℕ} {f : Ramfile} (hf : tab[i]? = some f) (hk : k < f.size.toNat) :
    (copyFiles (tab ++ [tail]) (BitVec.ofNat 32 base) mem).2
        (BitVec.ofNat 32 (base + Layout.offset Ramfile.bytes tab i) + BitVec.ofNat 32 k) =
      mem (f.addr + BitVec.ofNat 32 k) := by
  induction tab generalizing base mem i with
  | nil => cases hf
  | cons g tab ih =>
      have hrest : ∀ f ∈ tab, f.hash ≠ 0 := fun f hf => hhash f (List.mem_cons_of_mem g hf)
      rw [Layout.total_cons, Ramfile.bytes] at hroom
      rw [copyFiles_snd_cons (hhash g List.mem_cons_self)]
      cases i with
      | zero =>
          -- the first file is copied first and left alone by the others
          cases hf
          have hlt : (BitVec.ofNat 32 base + BitVec.ofNat 32 k).toNat < base + f.size.toNat := by
            rw [← BitVec.ofNat_add, BitVec.toNat_ofNat]
            omega
          show (copyFiles _ _ _).2 (BitVec.ofNat 32 base + BitVec.ofNat 32 k) = _
          rw [copyFiles_apply_of_not hrest htail (by omega) (.inl hlt)]
          exact Mem.copy_apply_add mem _ _ hk (by omega)
      | succ i =>
          have hmem : f ∈ tab := List.mem_of_getElem? hf
          have hsource' : ∀ f ∈ tab, ∀ k < f.size.toNat,
              (f.addr + BitVec.ofNat 32 k).toNat < base + g.size.toNat := by
            intro f hf k hk
            have h := hsource f (List.mem_cons_of_mem g hf) k hk
            omega
          rw [Layout.offset_cons_succ, Ramfile.bytes, ← Nat.add_assoc,
            ih hrest (by omega) hsource' hf]
          apply Mem.copy_of_not_inRange
          have h := hsource f (List.mem_cons_of_mem g hmem) k hk
          rw [inRange_ofNat_iff (by omega)]
          omega

/-! ### The table -/

/-- The table `tab` stands at `a`. -/
def TableAt (mem : Mem) : Word → List Ramfile → Prop
  | _, [] => True
  | a, f :: tab =>
      (mem.load32 a = f.hash ∧ mem.load32 (a + 4) = f.addr ∧ mem.load32 (a + 8) = f.size) ∧
        TableAt mem (a + 12) tab

theorem storeTable_apply_of_not {a b : Word} (hlen : 12 * tab.length < 2 ^ 32)
    (hb : ¬ InRange a (12 * tab.length) b) : storeTable tab a mem b = mem b := by
  induction tab generalizing a mem with
  | nil => rfl
  | cons f tab ih =>
      rw [List.length_cons] at hlen hb
      have hsum : 12 + 12 * tab.length = 12 * (tab.length + 1) := by omega
      have hhead : ¬ InRange a 12 b := fun h => hb (h.mono (by omega))
      have hrest : ¬ InRange (a + 12) (12 * tab.length) b := fun h =>
        hb (hsum ▸ InRange.of_add (k := 12) h (by omega))
      rw [storeTable, ih (by omega) hrest, Mem.store_of_not_inRange hhead]

/-- An entry is read as it was written. -/
theorem load32_store_entry (mem : Mem) (a : Word) (f : Ramfile) :
    (mem.store 12 a (f.size ++ f.addr ++ f.hash)).load32 a = f.hash ∧
      (mem.store 12 a (f.size ++ f.addr ++ f.hash)).load32 (a + 4) = f.addr ∧
      (mem.store 12 a (f.size ++ f.addr ++ f.hash)).load32 (a + 8) = f.size := by
  have hload (k : ℕ) (hk : k + 4 ≤ 12) :=
    Mem.load32_store_add mem a (f.size ++ f.addr ++ f.hash) hk (by decide : 12 ≤ 2 ^ 32)
  refine ⟨?_, ?_, ?_⟩
  · have h := hload 0 (by decide)
    rw [BitVec.add_zero] at h
    exact h.trans BitVec.extractLsb'_append_eq_right
  · apply (hload 4 (by decide)).trans
    rw [BitVec.extractLsb'_append_eq_of_le (by decide)]
    exact BitVec.extractLsb'_append_eq_right
  · apply (hload 8 (by decide)).trans
    rw [BitVec.extractLsb'_append_eq_of_le (by decide)]
    exact BitVec.extractLsb'_append_eq_left

theorem tableAt_storeTable (a : Word) (hlen : 12 * tab.length < 2 ^ 32) :
    TableAt (storeTable tab a mem) a tab := by
  induction tab generalizing a mem with
  | nil => trivial
  | cons f tab ih =>
      rw [List.length_cons] at hlen
      obtain ⟨hhash, haddr, hsize⟩ := load32_store_entry mem a f
      -- the entries behind it do not touch an entry
      have hkeep : ∀ k, k + 4 ≤ 12 → ∀ m : Mem,
          (storeTable tab (a + 12) m).load32 (a + BitVec.ofNat 32 k) =
            m.load32 (a + BitVec.ofNat 32 k) := by
        intro k hk m
        apply Mem.load32_congr
        intro b hb
        apply storeTable_apply_of_not (by omega)
        intro hrest
        exact InRange.not_of_add (k := 12) hrest (by omega)
          ((InRange.of_add hb (by omega)).mono hk)
      refine ⟨⟨?_, ?_, ?_⟩, ih (a + 12) (by omega)⟩
      · have h := hkeep 0 (by decide) (mem.store 12 a (f.size ++ f.addr ++ f.hash))
        rw [BitVec.add_zero] at h
        exact h.trans hhash
      · exact (hkeep 4 (by decide) _).trans haddr
      · exact (hkeep 8 (by decide) _).trans hsize

/-- A lookup gets to the first entry with the hash, or to the end of the table. -/
theorem findRamfile_eq (tail : Ramfile) {a hash : Word} {fuel : ℕ}
    (htab : TableAt mem a (tab ++ [tail]))
    (hhash : ∀ f ∈ tab, f.hash ≠ 0) (htail : tail.hash = 0) (hfuel : tab.length < fuel) :
    findRamfile mem hash fuel a =
      some (((tab.find? (·.hash = hash)).map fun f => (f.addr, f.size)).getD (0, 0)) := by
  induction tab generalizing a fuel with
  | nil =>
      obtain ⟨fuel, rfl⟩ := Nat.exists_eq_succ_of_ne_zero (Nat.ne_zero_of_lt hfuel)
      obtain ⟨⟨hend, -⟩, -⟩ := htab
      rw [findRamfile, if_pos (hend.trans htail)]
      rfl
  | cons f tab ih =>
      obtain ⟨fuel, rfl⟩ := Nat.exists_eq_succ_of_ne_zero (Nat.ne_zero_of_lt hfuel)
      obtain ⟨⟨hhead, haddr, hsize⟩, hrest⟩ := htab
      rw [findRamfile, hhead, haddr, hsize, if_neg (hhash f List.mem_cons_self)]
      by_cases heq : f.hash = hash
      · rw [if_pos heq, List.find?_cons_of_pos (by simpa using heq)]
        rfl
      · rw [if_neg heq, List.find?_cons_of_neg (by simpa using heq)]
        exact ih hrest (fun g hg => hhash g (List.mem_cons_of_mem f hg))
          (Nat.lt_of_succ_lt_succ hfuel)

theorem find?_placed (base : ℕ) {i : ℕ} {f : Ramfile} (hf : tab[i]? = some f)
    (hfirst : ∀ j < i, ∀ g, tab[j]? = some g → g.hash ≠ f.hash) :
    (placed base tab).find? (·.hash = f.hash) =
      some { f with addr := BitVec.ofNat 32 (base + Layout.offset Ramfile.bytes tab i) } := by
  induction tab generalizing base i with
  | nil => cases hf
  | cons g tab ih =>
      cases i with
      | zero =>
          cases hf
          rw [placed, List.find?_cons_of_pos (by simp)]
          rfl
      | succ i =>
          have hne : g.hash ≠ f.hash := hfirst 0 (Nat.succ_pos i) g rfl
          rw [placed, List.find?_cons_of_neg (by simpa using hne), Layout.offset_cons_succ,
            ← Nat.add_assoc]
          exact ih _ hf fun j hj g hg => hfirst (j + 1) (Nat.succ_lt_succ hj) g hg

theorem find?_placed_eq_none {hash : Word} (h : ∀ f ∈ tab, f.hash ≠ hash) :
    (placed base tab).find? (·.hash = hash) = none := by
  induction tab generalizing base with
  | nil => rfl
  | cons f tab ih =>
      have hne : f.hash ≠ hash := h f List.mem_cons_self
      rw [placed, List.find?_cons_of_neg (by simpa using hne)]
      exact ih fun g hg => h g (List.mem_cons_of_mem f hg)

theorem hash_ne_zero_of_mem_placed (hhash : ∀ f ∈ tab, f.hash ≠ 0) :
    ∀ g ∈ placed base tab, g.hash ≠ 0 := by
  induction tab generalizing base with
  | nil => simp [placed]
  | cons f tab ih =>
      intro g hg
      rcases List.mem_cons.mp hg with rfl | hg
      · exact hhash f List.mem_cons_self
      · exact ih (fun g hg => hhash g (List.mem_cons_of_mem f hg)) g hg

theorem length_placed (base : ℕ) (tab : List Ramfile) : (placed base tab).length = tab.length := by
  induction tab generalizing base with
  | nil => rfl
  | cons f tab ih => simp [placed, ih]

end

/-! ### All modules -/

/-- The modules in the order of the table. -/
def IrxModule.all : List IrxModule := [ps2ip, ps2smap, ps2dev9, debugger, memdisk, eesync]

theorem IrxModule.getElem?_all (m : IrxModule) : all[all.idxOf m]? = some m := by
  cases m <;> rfl

theorem IrxModule.nodup_all : all.Nodup := by decide

/-- What is known about files of any size that are linked into the loader: none is empty, they are
different arrays, and the loader is a user program, with addresses from `0x00100000` on and below
those of the kernel.

Memory is flat here: every address is a cell of its own.  On the processor `0x80000000 + a`, an
address of the unmapped segment KSEG0, is another name of the cell at `a`.  The table and the
copies, from `irxAddr` on, then lie over user memory from `0x00030000` on; that they end before the
files, below `0x00100000`, is not looked at. -/
structure Linked (file : IrxModule → IrxFile) : Prop where
  nonempty : ∀ m, 1 ≤ (file m).size.toNat
  above : ∀ m, 0x00100000 ≤ (file m).start.toNat
  below : ∀ m, (file m).start.toNat + (file m).size.toNat ≤ 0x80000000
  apart : ∀ m m', m ≠ m' → (file m).start.toNat + (file m).size.toNat ≤ (file m').start.toNat ∨
    (file m').start.toNat + (file m').size.toNat ≤ (file m).start.toNat

/-- The modules in `mem'` are the files in `mem`. -/
structure InKernel (file : IrxModule → IrxFile) (mem mem' : Mem) (addr : IrxModule → Word) :
    Prop where
  found : ∀ m, ∀ fuel > 6, getModuleByHash fuel mem' m.hash = some (addr m, (file m).size)
  bytes : ∀ m, ∀ k < (file m).size.toNat,
    mem' (addr m + BitVec.ofNat 32 k) = mem ((file m).start + BitVec.ofNat 32 k)
  behind : ∀ m b, InRange (addr m) (file m).size.toNat b → irxAddr.toNat + tableSize ≤ b.toNat
  apart : ∀ m m' b, m ≠ m' → InRange (addr m) (file m).size.toNat b →
    ¬ InRange (addr m') (file m').size.toNat b
  other : ∀ hash, (∀ m : IrxModule, m.hash ≠ hash) →
    ∀ fuel > 6, getModuleByHash fuel mem' hash = some (0, 0)

section

variable {file : IrxModule → IrxFile}

/-- The entries of the table before its end. -/
def fileEntries (file : IrxModule → IrxFile) : List Ramfile :=
  IrxModule.all.map (fileEntry file)

theorem hash_fileEntry (file : IrxModule → IrxFile) (m : IrxModule) :
    (fileEntry file m).hash = m.hash :=
  strhash_name m

theorem getElem?_fileEntries (file : IrxModule → IrxFile) (m : IrxModule) :
    (fileEntries file)[IrxModule.all.idxOf m]? = some (fileEntry file m) := by
  rw [fileEntries, List.getElem?_map, m.getElem?_all]
  rfl

theorem hash_ne_zero_of_mem_fileEntries : ∀ f ∈ fileEntries file, f.hash ≠ 0 := by
  intro f hf
  obtain ⟨m, -, rfl⟩ := List.mem_map.mp hf
  rw [hash_fileEntry]
  exact m.hash_ne_zero

/-- No earlier entry has the hash of a module. -/
theorem hash_ne_of_lt_idxOf {m : IrxModule} {j : ℕ} (hj : j < IrxModule.all.idxOf m) {g : Ramfile}
    (hg : (fileEntries file)[j]? = some g) : g.hash ≠ (fileEntry file m).hash := by
  rw [fileEntries, List.getElem?_map] at hg
  obtain ⟨m', hm', rfl⟩ := Option.map_eq_some_iff.mp hg
  rw [hash_fileEntry, hash_fileEntry]
  intro heq
  have hsame : IrxModule.all[j]? = IrxModule.all[IrxModule.all.idxOf m]? := by
    rw [hm', m.getElem?_all, IrxModule.hash_inj heq]
  have hlt : j < IrxModule.all.length := (List.getElem?_eq_some_iff.mp hm').1
  exact hj.ne ((List.getElem?_inj hlt IrxModule.nodup_all).mp hsame)

/-- Where the first copy starts. -/
def copiesBase : ℕ := irxAddr.toNat + tableSize

/-- Where the copy of a module starts. -/
def moduleBase (file : IrxModule → IrxFile) (m : IrxModule) : ℕ :=
  copiesBase + Layout.offset Ramfile.bytes (fileEntries file) (IrxModule.all.idxOf m)

/-- There are kernel addresses enough: the files take no more than a user program can have. -/
theorem Linked.copies_le (h : Linked file) :
    copiesBase + Layout.total Ramfile.bytes (fileEntries file) ≤ 2 ^ 32 := by
  have huser : Layout.total (fun m => (file m).size.toNat) IrxModule.all ≤
      0x80000000 - 0x00100000 :=
    Layout.total_le_of_disjoint (fun m _ => h.above m) (fun m _ => h.below m)
      (IrxModule.nodup_all.imp fun hne => h.apart _ _ hne)
  have htotal : Layout.total Ramfile.bytes (fileEntries file) =
      Layout.total (fun m => (file m).size.toNat) IrxModule.all := by
    rw [Layout.total, fileEntries, List.map_map]
    rfl
  have hbase : copiesBase ≤ 0x80100000 := by decide
  omega

theorem Linked.module_le (h : Linked file) (m : IrxModule) :
    moduleBase file m + (file m).size.toNat ≤ 2 ^ 32 := by
  have hcopies := h.copies_le
  have hle : Layout.offset Ramfile.bytes _ _ + (file m).size.toNat ≤
      Layout.total Ramfile.bytes (fileEntries file) :=
    Layout.offset_add_size_le_total (getElem?_fileEntries file m)
  rw [moduleBase]
  omega

/-- The copies do not overlap. -/
theorem module_disjoint (file : IrxModule → IrxFile) {m m' : IrxModule} (hne : m ≠ m') :
    moduleBase file m + (file m).size.toNat ≤ moduleBase file m' ∨
      moduleBase file m' + (file m').size.toNat ≤ moduleBase file m := by
  have hbefore : ∀ m m', IrxModule.all.idxOf m < IrxModule.all.idxOf m' →
      moduleBase file m + (file m).size.toNat ≤ moduleBase file m' := by
    intro m m' hlt
    have hle : Layout.offset Ramfile.bytes _ _ + (file m).size.toNat ≤ _ :=
      Layout.offset_add_size_le (getElem?_fileEntries file m) hlt
    rw [moduleBase, moduleBase]
    omega
  have hidx : IrxModule.all.idxOf m ≠ IrxModule.all.idxOf m' := by
    intro heq
    have hsome := m.getElem?_all
    rw [heq, m'.getElem?_all] at hsome
    exact hne (Option.some.inj hsome).symm
  rcases Nat.lt_or_gt_of_ne hidx with hlt | hlt
  · exact .inl (hbefore m m' hlt)
  · exact .inr (hbefore m' m hlt)

end

section

variable (sms : Bool) (irx : IrxFiles) (mem : Mem)

theorem installModules_eq :
    installModules sms irx mem =
      storeTable (placed copiesBase (fileEntries (irx.installed sms)) ++ [ramfileSet none 0 0])
        irxAddr (copyFiles (fileTab (irx.installed sms)) (BitVec.ofNat 32 copiesBase) mem).2 := by
  rw [← copyFiles_fst mem hash_ne_zero_of_mem_fileEntries rfl]
  rfl

theorem mul_length_table (file : IrxModule → IrxFile) :
    12 * (placed copiesBase (fileEntries file) ++ [ramfileSet none 0 0]).length = tableSize := by
  rw [List.length_append, length_placed]
  rfl

/-- What a lookup in the table finds. -/
theorem findRamfile_installModules (hash : Word) {fuel : ℕ} (hfuel : fuel > 6) :
    findRamfile (installModules sms irx mem) hash fuel irxAddr =
      some ((((placed copiesBase (fileEntries (irx.installed sms))).find? (·.hash = hash)).map
        fun f => (f.addr, f.size)).getD (0, 0)) := by
  apply findRamfile_eq (ramfileSet none 0 0)
  · rw [installModules_eq]
    apply tableAt_storeTable
    rw [mul_length_table]
    decide
  · exact hash_ne_zero_of_mem_placed hash_ne_zero_of_mem_fileEntries
  · rfl
  · rw [length_placed]
    exact hfuel

/-- The table does not reach the copies. -/
theorem installModules_apply_of_le {b : Word} (hb : copiesBase ≤ b.toNat) :
    installModules sms irx mem b =
      (copyFiles (fileTab (irx.installed sms)) (BitVec.ofNat 32 copiesBase) mem).2 b := by
  rw [installModules_eq]
  have htable := inRange_ofNat_iff (k := irxAddr.toNat) (n := tableSize) (by decide) b
  apply storeTable_apply_of_not
  · rw [mul_length_table]
    decide
  · rw [mul_length_table]
    intro hrange
    exact absurd (htable.mp hrange).2 (Nat.not_lt_of_le hb)

variable {sms irx}

/-- The lookup of a module finds its copy. -/
theorem getModuleByHash_installModules (h : Linked (irx.installed sms)) (m : IrxModule) {fuel : ℕ}
    (hfuel : fuel > 6) :
    getModuleByHash fuel (installModules sms irx mem) m.hash =
      some (BitVec.ofNat 32 (moduleBase (irx.installed sms) m), (irx.installed sms m).size) := by
  have hfind := find?_placed copiesBase (getElem?_fileEntries (irx.installed sms) m)
    fun j hj g hg => hash_ne_of_lt_idxOf hj hg
  have hsize : (irx.installed sms m).size ≠ 0 := by
    intro hzero
    have hpos := h.nonempty m
    rw [hzero] at hpos
    exact absurd hpos (by decide)
  rw [getModuleByHash, findRamfile_installModules sms irx mem _ hfuel,
    ← hash_fileEntry (irx.installed sms), hfind]
  exact congrArg some (if_neg hsize)

/-- Each byte of a file is found in its copy. -/
theorem installModules_apply (h : Linked (irx.installed sms)) {m : IrxModule} {k : ℕ}
    (hk : k < (irx.installed sms m).size.toNat) :
    installModules sms irx mem
        (BitVec.ofNat 32 (moduleBase (irx.installed sms) m) + BitVec.ofNat 32 k) =
      mem ((irx.installed sms m).start + BitVec.ofNat 32 k) := by
  have hlow : copiesBase ≤
      (BitVec.ofNat 32 (moduleBase (irx.installed sms) m) + BitVec.ofNat 32 k).toNat := by
    have hle := h.module_le m
    rw [← BitVec.ofNat_add, BitVec.toNat_ofNat, Nat.mod_eq_of_lt (by omega), moduleBase]
    omega
  rw [installModules_apply_of_le sms irx mem hlow]
  refine copyFiles_apply hash_ne_zero_of_mem_fileEntries rfl h.copies_le ?_
    (getElem?_fileEntries _ m) hk
  -- the files lie below the kernel
  intro f hf k hk
  obtain ⟨m, -, rfl⟩ := List.mem_map.mp hf
  have huser := h.below m
  have hbase : 0x80000000 ≤ copiesBase := by decide
  change k < (irx.installed sms m).size.toNat at hk
  show ((irx.installed sms m).start + BitVec.ofNat 32 k).toNat < copiesBase
  rw [BitVec.toNat_add, BitVec.toNat_ofNat]
  omega

end

/-- The debugger finds the modules as they were linked into the loader. -/
theorem modules_in_kernel (sms : Bool) (irx : IrxFiles) (mem : Mem)
    (h : Linked (irx.installed sms)) :
    ∃ addr, InKernel (irx.installed sms) mem (installModules sms irx mem) addr := by
  have hrange : ∀ m b, InRange (BitVec.ofNat 32 (moduleBase (irx.installed sms) m))
      (irx.installed sms m).size.toNat b ↔ moduleBase (irx.installed sms) m ≤ b.toNat ∧
        b.toNat < moduleBase (irx.installed sms) m + (irx.installed sms m).size.toNat :=
    fun m b => inRange_ofNat_iff (h.module_le m) b
  refine ⟨fun m => BitVec.ofNat 32 (moduleBase (irx.installed sms) m),
    fun m fuel hfuel => getModuleByHash_installModules mem h m hfuel,
    fun m k hk => installModules_apply mem h hk, ?_, ?_, ?_⟩
  · intro m b hb
    have hlow := ((hrange m b).mp hb).1
    exact (Nat.le_add_right _ _).trans hlow
  · intro m m' b hne hb hb'
    rw [hrange] at hb hb'
    rcases module_disjoint (irx.installed sms) hne with hle | hle <;> omega
  · intro hash hother fuel hfuel
    rw [getModuleByHash, findRamfile_installModules sms irx mem _ hfuel, find?_placed_eq_none]
    · rfl
    · intro f hf
      obtain ⟨m, -, rfl⟩ := List.mem_map.mp hf
      rw [hash_fileEntry]
      exact hother m

/-- Files of one byte, one behind the other. -/
def sampleFiles : IrxFiles :=
  ⟨⟨0x100000, 1⟩, ⟨0x100001, 1⟩, ⟨0x100002, 1⟩, ⟨0x100003, 1⟩, ⟨0x100004, 1⟩, ⟨0x100005, 1⟩,
    ⟨0x100006, 1⟩, ⟨0x100007, 1⟩⟩

theorem modules_in_kernel_sample :
    ∃ addr, InKernel (sampleFiles.installed false) (fun b => b.setWidth 8)
      (installModules false sampleFiles fun b => b.setWidth 8) addr :=
  modules_in_kernel false sampleFiles _
    ⟨fun m => by cases m <;> decide, fun m => by cases m <;> decide, fun m => by cases m <;> decide,
      fun m m' => by cases m <;> cases m' <;> decide⟩

/-- What the debugger copies from kernel RAM is the file. -/
theorem InKernel.getModuleFromKernel_eq {file : IrxModule → IrxFile} {mem mem' : Mem}
    {addr : IrxModule → Word} (h : InKernel file mem mem' addr) {m : IrxModule}
    (hsize : 1 ≤ (file m).size.toNat) (buf : Word) {fuel : ℕ} (hfuel : fuel > 6) :
    ∃ mem'', getModuleFromKernel fuel mem' m.hash buf = some ((file m).size.toInt, mem'') ∧
      ∀ k < (file m).size.toNat,
        mem'' (buf + BitVec.ofNat 32 k) = mem ((file m).start + BitVec.ofNat 32 k) := by
  have hptr : addr m ≠ 0 := by
    intro hzero
    have hbehind := h.behind m 0 (by rw [hzero]; exact hsize)
    exact absurd hbehind (by decide)
  refine ⟨mem'.copy buf (addr m) (file m).size.toNat, ?_, fun k hk => ?_⟩
  · rw [getModuleFromKernel, h.found m fuel hfuel]
    exact congrArg some (if_neg hptr)
  · rw [Mem.copy_apply_add mem' buf _ hk (file m).size.isLt.le, h.bytes m k hk]

end Ps2rd.Loader
