import Ps2rd.Loader.ElfLdr
import Ps2rd.Mips.Bytes

/-!
# Loading the program

`loadElf` is what `MyLoadExecPS2` leaves behind: it wipes the memory of the loader,
gives `SifLoadElf` a try and, if that fails, reads the ELF file itself.  It starts
the program as soon as the header of the file looks right.  The results of the
later reads are not looked at.

`loadElf_loads` says what memory the program finds.  Every segment is where its
program header wants it, with zeros up to its size in memory, and the rest is as
it was wiped; the bytes that a truncated file lacks are the only ones missing.
-/

namespace Ps2rd.Loader

open CString Mips

/-! ### elfldr.c -/

/-- `ELF_MAGIC` -/
def elfMagic : Word := 0x464c457f

/-- `ELF_PT_LOAD` -/
def elfPtLoad : Word := 1

/-- A 32-bit field of a structure. -/
def fieldAt (buf : Region Byte) (off : ℕ) : Word := BitVec.ofNat 32 (buf.u32 off)

/-- `elf_header_t`, as far as it is used; `ident` is the first word of the array. -/
structure ElfHeader where
  ident : Word
  entry : Word
  phoff : Word
  phnum : ℕ

/-- `sizeof(elf_header_t)` -/
def elfHeaderSize : Word := 52

def elfHeader (buf : Region Byte) : ElfHeader where
  ident := fieldAt buf 0
  entry := fieldAt buf 24
  phoff := fieldAt buf 28
  phnum := buf.u16 44

/-- `elf_pheader_t`, as far as it is used. -/
structure ElfPheader where
  type : Word
  offset : Word
  vaddr : Word
  filesz : Word
  memsz : Word
deriving DecidableEq

/-- `sizeof(elf_pheader_t)` -/
def elfPheaderSize : Word := 32

def elfPheader (buf : Region Byte) : ElfPheader where
  type := fieldAt buf 0
  offset := fieldAt buf 4
  vaddr := fieldAt buf 8
  filesz := fieldAt buf 16
  memsz := fieldAt buf 20

/-- The position after `lseek` with `SEEK_SET`, which refuses a negative offset. -/
def lseek (pos : ℕ) (offset : Word) : ℕ := if offset.msb then pos else offset.toNat

/-- The bytes that `read` finds at a position; the size is an `int`. -/
def readFile (file : List Byte) (pos : ℕ) (size : Word) : List Byte :=
  if size.msb then [] else (file.drop pos).take size.toNat

/-- The memory, the position in the file, and `elf_pheader` on the stack. -/
structure Loading where
  mem : Mem
  pos : ℕ
  pheader : Region Byte

/-- The rest of the loop for a segment of type `ELF_PT_LOAD`. -/
def loadSegment (file : List Byte) (ph : ElfPheader) (s : Loading) : Loading :=
  let pos := lseek s.pos ph.offset
  let data := readFile file pos ph.filesz
  let mem := s.mem.writeBytes ph.vaddr data
  { s with
    mem := if ph.memsz > ph.filesz then
        mem.memset (ph.vaddr + ph.filesz) 0 (ph.memsz - ph.filesz).toNat
      else mem
    pos := pos + data.length }

/-- The loop over the program headers, for header `i`. -/
def loadHeader (file : List Byte) (phoff : Word) (s : Loading) (i : ℕ) : Loading :=
  let pos := lseek s.pos (phoff + BitVec.ofNat 32 i * elfPheaderSize)
  let data := readFile file pos elfPheaderSize
  let s := { s with pos := pos + data.length, pheader := s.pheader.write 0 data }
  if (elfPheader s.pheader).type ≠ elfPtLoad then s
  else loadSegment file (elfPheader s.pheader) s

/-- How `loadElf` ends: with `ExecPS2`, or in `SleepThread` after an error. -/
inductive Boot where
  | exec (entry gp : Word) (args : Args) (mem : Mem)
  | sleep (mem : Mem)

/-- The second try.  `file` is the content of the file, if it can be opened; the
arguments before `args` are the two structures on the stack. -/
def loadManually (file : Option (List Byte)) (header pheader : Region Byte) (args : Args)
    (mem : Mem) : Boot :=
  match file with
  | none => .sleep mem
  | some file =>
      let data := readFile file 0 elfHeaderSize
      let header := elfHeader (header.write 0 data)
      if data.length ≠ elfHeaderSize.toNat then .sleep mem
      else if header.ident ≠ elfMagic then .sleep mem
      else
        .exec header.entry 0 args ((List.range header.phnum).foldl (loadHeader file header.phoff)
          ⟨mem, data.length, pheader⟩).mem

/-- What `SifLoadElf` returns and fills in, and the memory that it leaves. -/
structure SifLoad where
  ret : ℤ
  epc : Word
  gp : Word
  mem : Mem

/-- The loop that wipes user memory, in `n` steps of 64 bytes. -/
def wipe : ℕ → Word → Mem → Mem
  | 0, _, mem => mem
  | n + 1, i, mem => wipe n (i + 64) (mem.memset i 0 64)

/-- User memory is wiped, then the scratchpad. -/
def wipeAll (mem : Mem) : Mem :=
  (wipe ((0x02000000 - 0x00100000) / 64) 0x00100000 mem).memset 0x70000000 0 (16 * 1024)

/-- `loadElf` -/
def loadElf (sifLoadElf : Mem → SifLoad) (file : Option (List Byte)) (header pheader : Region Byte)
    (args : Args) (mem : Mem) : Boot :=
  let elf := sifLoadElf (wipeAll mem)
  if elf.ret = 0 ∧ elf.epc ≠ 0 then .exec elf.epc elf.gp args elf.mem
  else loadManually file header pheader args elf.mem

/-! ### The program that a file describes -/

/-- The content of a file by offset. -/
def fileRegion (file : List Byte) : Region Byte := fun i => file.getD i NUL

/-- The header of the file. -/
def fileHeader (file : List Byte) : ElfHeader := elfHeader (fileRegion file)

/-- Program header `i` of the file. -/
def filePheader (file : List Byte) (i : ℕ) : ElfPheader :=
  elfPheader fun k => fileRegion file ((fileHeader file).phoff.toNat + 32 * i + k)

/-- The segments that are described by the first `n` program headers. -/
def segmentsUpto (file : List Byte) (n : ℕ) : List ElfPheader :=
  ((List.range n).map (filePheader file)).filter fun ph => ph.type = elfPtLoad

/-- The segments of the program. -/
def segments (file : List Byte) : List ElfPheader := segmentsUpto file (fileHeader file).phnum

/-- The bytes that a segment takes in memory. -/
def ElfPheader.Covers (ph : ElfPheader) (b : Word) : Prop :=
  InRange ph.vaddr (max ph.filesz.toNat ph.memsz.toNat) b

/-- A program that can be loaded: the headers are in the file, offsets and sizes are not
negative as an `int`, and no two segments take the same byte of memory. -/
structure WellFormed (file : List Byte) : Prop where
  header : elfHeaderSize.toNat ≤ file.length
  ident : (fileHeader file).ident = elfMagic
  length : file.length < 2 ^ 31
  table : (fileHeader file).phoff.toNat + 32 * (fileHeader file).phnum ≤ file.length
  offset : ∀ ph ∈ segments file, ph.offset.msb = false
  filesz : ∀ ph ∈ segments file, ph.filesz.msb = false
  apart : (segments file).Pairwise fun ph ph' => ∀ b, ph.Covers b → ¬ ph'.Covers b

/-- The segments `phs` of the file have been loaded into the memory `mem₀`. -/
structure Loads (file : List Byte) (phs : List ElfPheader) (mem₀ mem : Mem) : Prop where
  data : ∀ ph ∈ phs, ∀ k < ph.filesz.toNat, ∀ hk : ph.offset.toNat + k < file.length,
    mem (ph.vaddr + BitVec.ofNat 32 k) = file[ph.offset.toNat + k]
  missing : ∀ ph ∈ phs, ∀ k < ph.filesz.toNat, file.length ≤ ph.offset.toNat + k →
    mem (ph.vaddr + BitVec.ofNat 32 k) = mem₀ (ph.vaddr + BitVec.ofNat 32 k)
  bss : ∀ ph ∈ phs, ∀ k, ph.filesz.toNat ≤ k → k < ph.memsz.toNat →
    mem (ph.vaddr + BitVec.ofNat 32 k) = 0
  rest : ∀ b, (∀ ph ∈ phs, ¬ ph.Covers b) → mem b = mem₀ b

/-! ### Wiping -/

theorem wipe_apply (n : ℕ) (i : Word) (mem : Mem) (hn : 64 * n < 2 ^ 32) (b : Word) :
    wipe n i mem b = if InRange i (64 * n) b then 0 else mem b := by
  induction n generalizing i mem with
  | zero =>
      have hout : ¬ InRange i (64 * 0) b := Nat.not_lt_zero _
      rw [wipe, if_neg hout]
  | succ n ih =>
      -- the byte lies in the first 64, in the rest, or outside of both
      rw [wipe, ih _ _ (by omega), Mem.memset]
      have hsplit : InRange i (64 * (n + 1)) b ↔ InRange i 64 b ∨ InRange (i + 64) (64 * n) b := by
        unfold InRange
        have hb := b.isLt
        have hi := i.isLt
        rw [BitVec.toNat_sub, BitVec.toNat_sub, BitVec.toNat_add]
        simp only [BitVec.reduceToNat]
        omega
      by_cases hfirst : InRange i 64 b <;> simp [hsplit, hfirst]

/-- A byte of user memory. -/
def InUser (b : Word) : Prop := 0x00100000 ≤ b.toNat ∧ b.toNat < 0x02000000

/-- A byte of the scratchpad. -/
def InScratchpad (b : Word) : Prop := InRange 0x70000000 (16 * 1024) b

theorem wipeAll_of_inUser (mem : Mem) {b : Word} (h : InUser b) : wipeAll mem b = 0 := by
  have hin : InRange 0x00100000 (64 * ((0x02000000 - 0x00100000) / 64)) b :=
    (inRange_ofNat_iff (by norm_num) b).mpr ⟨h.1, by have := h.2; omega⟩
  rw [wipeAll, Mem.memset, wipe_apply _ _ _ (by norm_num), if_pos hin, ite_self]

theorem wipeAll_of_outside (mem : Mem) {b : Word} (h : ¬ InUser b) (h' : ¬ InScratchpad b) :
    wipeAll mem b = mem b := by
  have hout : ¬ InRange 0x00100000 (64 * ((0x02000000 - 0x00100000) / 64)) b := by
    intro hin
    obtain ⟨hlow, hhigh⟩ := (inRange_ofNat_iff (k := 0x00100000) (by norm_num) b).mp hin
    exact h ⟨hlow, by omega⟩
  rw [wipeAll, Mem.memset_of_not_inRange h', wipe_apply _ _ _ (by norm_num), if_neg hout]

/-! ### One segment -/

section Segment

variable {file : List Byte} {ph : ElfPheader} {phs : List ElfPheader} {s : Loading} {mem₀ : Mem}
  {k : ℕ} {b : Word}

theorem readFile_eq {pos : ℕ} {size : Word} (h : size.msb = false) :
    readFile file pos size = (file.drop pos).take size.toNat := by
  rw [readFile, h]
  rfl

theorem lseek_eq {pos : ℕ} {offset : Word} (h : offset.msb = false) :
    lseek pos offset = offset.toNat := by
  rw [lseek, h]
  rfl

theorem ElfPheader.covers_add (hk : k < max ph.filesz.toNat ph.memsz.toNat) :
    ph.Covers (ph.vaddr + BitVec.ofNat 32 k) :=
  InRange.add_self _ hk (by have := ph.filesz.isLt; have := ph.memsz.isLt; omega)

/-- The bytes that the segment has beyond its data in the file. -/
theorem inRange_bss_iff (h : ph.filesz < ph.memsz) :
    InRange (ph.vaddr + ph.filesz) (ph.memsz - ph.filesz).toNat b ↔
      ph.filesz.toNat ≤ (b - ph.vaddr).toNat ∧ (b - ph.vaddr).toNat < ph.memsz.toNat := by
  unfold InRange
  rw [BitVec.lt_def] at h
  have hb := b.isLt
  have hv := ph.vaddr.isLt
  have hf := ph.filesz.isLt
  have hm := ph.memsz.isLt
  simp only [BitVec.toNat_sub, BitVec.toNat_add]
  omega

/-- The memory after a segment, by the distance from its start. -/
theorem loadSegment_mem (hoffset : ph.offset.msb = false) (hfilesz : ph.filesz.msb = false)
    (b : Word) :
    (loadSegment file ph s).mem b =
      if ph.filesz.toNat ≤ (b - ph.vaddr).toNat ∧ (b - ph.vaddr).toNat < ph.memsz.toNat then 0
      else ((file.drop ph.offset.toNat).take ph.filesz.toNat).getD (b - ph.vaddr).toNat (s.mem b) := by
  unfold loadSegment
  dsimp only
  rw [lseek_eq hoffset, readFile_eq hfilesz]
  by_cases hbss : ph.filesz < ph.memsz
  · rw [if_pos hbss, Mem.memset]
    simp only [inRange_bss_iff hbss]
    rfl
  · rw [if_neg hbss, if_neg]
    · rfl
    · rw [BitVec.lt_def] at hbss
      omega

theorem loadSegment_of_not_covers (hoffset : ph.offset.msb = false)
    (hfilesz : ph.filesz.msb = false) (hb : ¬ ph.Covers b) :
    (loadSegment file ph s).mem b = s.mem b := by
  unfold ElfPheader.Covers InRange at hb
  rw [loadSegment_mem hoffset hfilesz, if_neg (by omega), List.getD_eq_default]
  rw [List.length_take]
  omega

/-- A segment is loaded beside those that are there already. -/
theorem Loads.concat (h : Loads file phs mem₀ s.mem) (hoffset : ph.offset.msb = false)
    (hfilesz : ph.filesz.msb = false)
    (hapart : ∀ ph' ∈ phs, ∀ b, ph'.Covers b → ¬ ph.Covers b) :
    Loads file (phs ++ [ph]) mem₀ (loadSegment file ph s).mem := by
  have hkeep : ∀ ph' ∈ phs, ∀ k < max ph'.filesz.toNat ph'.memsz.toNat,
      (loadSegment file ph s).mem (ph'.vaddr + BitVec.ofNat 32 k) =
        s.mem (ph'.vaddr + BitVec.ofNat 32 k) := fun ph' hph' k hk =>
    loadSegment_of_not_covers hoffset hfilesz (hapart ph' hph' _ (ElfPheader.covers_add hk))
  have hdist : ∀ k < max ph.filesz.toNat ph.memsz.toNat,
      (ph.vaddr + BitVec.ofNat 32 k - ph.vaddr).toNat = k := by
    intro k hk
    have hf := ph.filesz.isLt
    have hm := ph.memsz.isLt
    exact toNat_add_sub_self _ (by omega)
  -- before the segment was loaded its bytes were as in the beginning
  have hbefore : ∀ k < max ph.filesz.toNat ph.memsz.toNat,
      s.mem (ph.vaddr + BitVec.ofNat 32 k) = mem₀ (ph.vaddr + BitVec.ofNat 32 k) := fun k hk =>
    h.rest _ fun ph' hph' hcovers => hapart ph' hph' _ hcovers (ElfPheader.covers_add hk)
  refine ⟨?_, ?_, ?_, ?_⟩
  · intro ph' hph' k hk hlen
    rcases List.mem_append.mp hph' with hold | hnew
    · rw [hkeep ph' hold k (by omega)]
      exact h.data ph' hold k hk hlen
    · obtain rfl := List.mem_singleton.mp hnew
      rw [loadSegment_mem hoffset hfilesz, hdist k (by omega), if_neg (by omega),
        List.getD_eq_getElem _ _ (by rw [List.length_take, List.length_drop]; omega),
        List.getElem_take, List.getElem_drop]
  · intro ph' hph' k hk hlen
    rcases List.mem_append.mp hph' with hold | hnew
    · rw [hkeep ph' hold k (by omega)]
      exact h.missing ph' hold k hk hlen
    · obtain rfl := List.mem_singleton.mp hnew
      rw [loadSegment_mem hoffset hfilesz, hdist k (by omega), if_neg (by omega),
        List.getD_eq_default _ _ (by rw [List.length_take, List.length_drop]; omega),
        hbefore k (by omega)]
  · intro ph' hph' k hk hlt
    rcases List.mem_append.mp hph' with hold | hnew
    · rw [hkeep ph' hold k (by omega)]
      exact h.bss ph' hold k hk hlt
    · obtain rfl := List.mem_singleton.mp hnew
      rw [loadSegment_mem hoffset hfilesz, hdist k (by omega), if_pos ⟨hk, hlt⟩]
  · intro b hb
    rw [loadSegment_of_not_covers hoffset hfilesz (hb ph (by simp))]
    exact h.rest b fun ph' hph' => hb ph' (by simp [hph'])

end Segment

/-! ### The headers -/

section Headers

variable {file : List Byte}

/-- A structure that was read as a whole has the fields that the file has. -/
theorem read_write_file (buf : Region Byte) {pos n off m : ℕ} (hfile : pos + n ≤ file.length)
    (hoff : off + m ≤ n) :
    (buf.write 0 ((file.drop pos).take n)).read off m =
      Region.read (fun k => fileRegion file (pos + k)) off m := by
  refine Region.read_congr fun i hi => ?_
  rw [Region.write_of_mem _ (Nat.zero_le _) (by rw [List.length_take, List.length_drop]; omega),
    fileRegion, List.getD_eq_getElem _ _ (by omega), List.getElem_take, List.getElem_drop]
  rfl

theorem elfHeader_write_file (buf : Region Byte) (hfile : 52 ≤ file.length) :
    elfHeader (buf.write 0 ((file.drop 0).take 52)) = fileHeader file := by
  have hread : ∀ off m, off + m ≤ 52 →
      (buf.write 0 ((file.drop 0).take 52)).read off m = (fileRegion file).read off m := by
    intro off m hoff
    rw [read_write_file buf (by omega) hoff]
    simp only [Nat.zero_add]
  unfold elfHeader fileHeader fieldAt Region.u32 Region.u16
  rw [hread 0 4 (by norm_num), hread 24 4 (by norm_num), hread 28 4 (by norm_num),
    hread 44 2 (by norm_num)]
  rfl

theorem elfPheader_write_file (buf : Region Byte) {i : ℕ}
    (hfile : (fileHeader file).phoff.toNat + 32 * i + 32 ≤ file.length) :
    elfPheader (buf.write 0 ((file.drop ((fileHeader file).phoff.toNat + 32 * i)).take 32)) =
      filePheader file i := by
  have hread := fun off (hoff : off + 4 ≤ 32) => read_write_file buf hfile hoff
  unfold filePheader elfPheader fieldAt Region.u32
  rw [hread 0 (by norm_num), hread 4 (by norm_num), hread 8 (by norm_num), hread 16 (by norm_num),
    hread 20 (by norm_num)]

theorem segmentsUpto_succ (file : List Byte) (n : ℕ) :
    segmentsUpto file (n + 1) = segmentsUpto file n ++
      if (filePheader file n).type = elfPtLoad then [filePheader file n] else [] := by
  unfold segmentsUpto
  rw [List.range_succ, List.map_append, List.filter_append, List.map_singleton]
  congr 1
  split_ifs with h <;> simp [h]

theorem segmentsUpto_prefix {n m : ℕ} (h : n ≤ m) :
    segmentsUpto file n <+: segmentsUpto file m := by
  obtain ⟨k, rfl⟩ := Nat.exists_eq_add_of_le h
  unfold segmentsUpto
  rw [List.range_add, List.map_append, List.filter_append]
  exact List.prefix_append _ _

/-- The header that the loop reads in round `i` is the one in the file. -/
theorem WellFormed.loadHeader_eq (hwf : WellFormed file) (s : Loading) {i : ℕ}
    (hi : i < (fileHeader file).phnum) :
    ∃ s' : Loading, s'.mem = s.mem ∧
      loadHeader file (fileHeader file).phoff s i =
        if (filePheader file i).type ≠ elfPtLoad then s'
        else loadSegment file (filePheader file i) s' := by
  have htable := hwf.table
  have hlength := hwf.length
  have hoffset : ((fileHeader file).phoff + BitVec.ofNat 32 i * elfPheaderSize).toNat =
      (fileHeader file).phoff.toNat + 32 * i := by
    rw [BitVec.toNat_add, BitVec.toNat_mul, BitVec.toNat_ofNat]
    simp only [elfPheaderSize, BitVec.reduceToNat]
    omega
  have hmsb : ((fileHeader file).phoff + BitVec.ofNat 32 i * elfPheaderSize).msb = false := by
    rw [BitVec.msb_eq_false_iff_two_mul_lt, hoffset]
    omega
  have hfile : (fileHeader file).phoff.toNat + 32 * i + 32 ≤ file.length := by omega
  have hpheader := elfPheader_write_file s.pheader hfile
  unfold loadHeader
  dsimp only
  rw [lseek_eq hmsb, hoffset, readFile_eq (by decide)]
  change ∃ s' : Loading, _ ∧ (if (elfPheader (s.pheader.write 0 (List.take 32 _))).type ≠ _ then _
    else loadSegment file (elfPheader (s.pheader.write 0 (List.take 32 _))) _) = _
  rw [hpheader]
  refine ⟨_, ?_, rfl⟩
  rfl

/-- The loop has loaded the segments of the headers that it has passed. -/
theorem WellFormed.loads_upto (hwf : WellFormed file) (mem₀ : Mem) (pheader : Region Byte)
    (pos n : ℕ) (hn : n ≤ (fileHeader file).phnum) :
    Loads file (segmentsUpto file n) mem₀
      ((List.range n).foldl (loadHeader file (fileHeader file).phoff) ⟨mem₀, pos, pheader⟩).mem := by
  induction n with
  | zero => exact ⟨by simp [segmentsUpto], by simp [segmentsUpto], by simp [segmentsUpto],
      fun _ _ => rfl⟩
  | succ n ih =>
      have hloads := ih (by omega)
      rw [List.range_succ, List.foldl_append, List.foldl_cons, List.foldl_nil]
      obtain ⟨s', hmem, heq⟩ := hwf.loadHeader_eq
        ((List.range n).foldl (loadHeader file (fileHeader file).phoff) ⟨mem₀, pos, pheader⟩) hn
      rw [← hmem] at hloads
      rw [heq, segmentsUpto_succ]
      by_cases htype : (filePheader file n).type = elfPtLoad
      · rw [if_neg (not_not_intro htype), if_pos htype]
        have hprefix : segmentsUpto file n ++ [filePheader file n] <+: segments file := by
          have h : segmentsUpto file (n + 1) <+: segments file := segmentsUpto_prefix hn
          rwa [segmentsUpto_succ, if_pos htype] at h
        have hmem : filePheader file n ∈ segments file := hprefix.subset (by simp)
        refine hloads.concat (hwf.offset _ hmem) (hwf.filesz _ hmem) fun ph hph => ?_
        exact (List.pairwise_append.mp (hwf.apart.sublist hprefix.sublist)).2.2 ph hph _
          (List.mem_singleton_self _)
      · rw [if_pos htype, if_neg htype, List.append_nil]
        exact hloads

end Headers

/-! ### The whole program -/

/-- A program that is loaded by hand starts at its entry point, in a memory that has its
segments and is zero in the rest of user memory. -/
theorem loadElf_loads {sifLoadElf : Mem → SifLoad} {file : List Byte} (hwf : WellFormed file)
    (header pheader : Region Byte) (args : Args) (mem : Mem)
    (hfail : (sifLoadElf (wipeAll mem)).ret ≠ 0 ∨ (sifLoadElf (wipeAll mem)).epc = 0) :
    ∃ mem', loadElf sifLoadElf (some file) header pheader args mem =
        .exec (fileHeader file).entry 0 args mem' ∧
      Loads file (segments file) (sifLoadElf (wipeAll mem)).mem mem' ∧
      ((sifLoadElf (wipeAll mem)).mem = wipeAll mem →
        ∀ b, (∀ ph ∈ segments file, ¬ ph.Covers b) →
          (InUser b → mem' b = 0) ∧ (¬ InUser b → ¬ InScratchpad b → mem' b = mem b)) := by
  have hheader : 52 ≤ file.length := hwf.header
  have hdata : readFile file 0 elfHeaderSize = (file.drop 0).take 52 := readFile_eq (by decide)
  have hlen : ((file.drop 0).take 52).length = 52 := by
    rw [List.length_take, List.length_drop]
    omega
  have hloads := hwf.loads_upto (sifLoadElf (wipeAll mem)).mem pheader 52 _ le_rfl
  refine ⟨_, ?_, hloads, fun hsame b hb => ?_⟩
  · have hfail' : ¬ ((sifLoadElf (wipeAll mem)).ret = 0 ∧ (sifLoadElf (wipeAll mem)).epc ≠ 0) := by
      tauto
    unfold loadElf loadManually
    dsimp only
    rw [if_neg hfail', hdata, hlen, elfHeader_write_file header hheader, if_neg (by decide),
      if_neg (not_not_intro hwf.ident)]
  · rw [hloads.rest b hb, hsame]
    exact ⟨wipeAll_of_inUser mem, wipeAll_of_outside mem⟩

/-- A program with two segments, the second of which has no data in the file. -/
def sampleElf : List Byte :=
  [0x7f, 0x45, 0x4c, 0x46] ++ List.replicate 20 0 ++ Region.leBytes 4 0x00100008 ++
    Region.leBytes 4 52 ++ List.replicate 12 0 ++ Region.leBytes 2 2 ++ List.replicate 6 0 ++
    [1, 116, 0x00100000, 0, 4, 16, 5, 16].flatMap (Region.leBytes 4) ++
    [1, 120, 0x00200000, 0, 0, 64, 6, 16].flatMap (Region.leBytes 4) ++
    [0x08, 0x00, 0xe0, 0x03]

theorem wellFormed_sampleElf : WellFormed sampleElf := by
  have hsegments : segments sampleElf =
      [⟨1, 116, 0x00100000, 4, 16⟩, ⟨1, 120, 0x00200000, 0, 64⟩] := by
    decide
  refine ⟨by decide, by decide, by decide, by decide, ?_, ?_, ?_⟩ <;> rw [hsegments]
  · decide
  · decide
  · simp only [List.pairwise_cons, List.mem_singleton, forall_eq, ElfPheader.Covers]
    refine ⟨fun b h h' => ?_, by simp, .nil⟩
    obtain ⟨-, hlt⟩ := (inRange_ofNat_iff (k := 0x00100000) (n := 16) (by norm_num) b).mp h
    obtain ⟨hge, -⟩ := (inRange_ofNat_iff (k := 0x00200000) (n := 64) (by norm_num) b).mp h'
    omega

/-- The arguments of a program that is started without any. -/
def noArgs : Args := ⟨1, fun _ => 0, fun _ => NUL⟩

theorem loadElf_loads_sampleElf :
    ∃ mem', loadElf (fun mem => ⟨-1, 0, 0, mem⟩) (some sampleElf) (fun _ => 0) (fun _ => 0) noArgs
        (fun _ => 1) = .exec 0x00100008 0 noArgs mem' ∧ mem' 0x00100000 = 0x08 := by
  obtain ⟨mem', hexec, hloads, -⟩ := @loadElf_loads (fun mem => ⟨-1, 0, 0, mem⟩) _
    wellFormed_sampleElf (fun _ => 0) (fun _ => 0) noArgs (fun _ => 1) (.inl (by decide))
  refine ⟨mem', hexec, ?_⟩
  exact hloads.data ⟨1, 116, 0x00100000, 4, 16⟩ (by decide) 0 (by decide) (by decide)

end Ps2rd.Loader
