import Ps2rd.UsbMass.DirectoryListing

/-!
# Names that are too long

A long name of a file has up to 255 characters, and `fat_direntry` has room for 128 with the
terminator.  `fat_getDirentry` copies the characters of every entry that it meets, before it is
known whether this is the file that is looked for, and does not look at the place.  So a file
with a long name makes the driver store outside of the array whenever something is looked up
that is not in front of it in the same directory.

In the model a store outside of an array has no result.
-/

namespace Ps2rd.UsbMass

open CString

variable {ss : ℕ} {bpb : Bpb} {disk : Region Byte} {V : List ℕ → ℕ → Prop} {fuel : ℕ}

/-- The files before one with too long a name are not taken. -/
theorem firstHit_append {hit : ℕ → Item → Bool} {before : List Item} {e : Item}
    (hlong : fatMaxName ≤ e.long.length) (after : List Item) (index : ℕ)
    (hbefore : ∀ x ∈ before, x.long.length < fatMaxName ∧ ∀ i, hit i x = false) :
    firstHit hit index (before ++ e :: after) = some e := by
  induction before generalizing index with
  | nil =>
      rw [List.nil_append, firstHit_cons, if_pos (by simp [hlong])]
  | cons x before ih =>
      obtain ⟨hlen, hhit⟩ := hbefore x List.mem_cons_self
      have hnot : ¬ fatMaxName ≤ x.long.length := not_le.mpr hlen
      rw [List.cons_append, firstHit_cons, hhit index, if_neg (by simp [hnot])]
      exact ih (index + 1) fun y hy => hbefore y (List.mem_cons_of_mem _ hy)

/-- A path on which a name is looked up in a directory where a file with too long a name comes
before it. -/
inductive Overflows (bpb : Bpb) (disk : Region Byte) (V : List ℕ → ℕ → Prop) :
    ℕ → List (List Byte) → Prop
  | here {c n : ℕ} {l : List ℕ} {D : Region Byte} {before after : List Item} {e : Item}
      {name : List Byte} {rest : List (List Byte)} (hdir : bpb.Directory disk c l D n)
      (hV : l ≠ [] → V l 0) (hlists : Lists D n 0 (before ++ e :: after))
      (hbefore : ∀ x ∈ before, x.long.length < fatMaxName ∧ x.hasName name = false)
      (hlong : fatMaxName ≤ e.long.length) : Overflows bpb disk V c (name :: rest)
  | step {c : ℕ} {items : List Item} {name next : List Byte} {rest : List (List Byte)} {e : Item}
      {l : List ℕ} (hdir : DirAt bpb disk V c items)
      (hfind : items.find? (·.hasName name) = some e) (hfile : FileAt bpb disk V e l)
      (hrest : Overflows bpb disk V e.cluster (next :: rest)) :
      Overflows bpb disk V c (name :: next :: rest)

/-- The walk has no result if the look up of its first name has none. -/
theorem GoodName.walk_none {name : List Byte} (h : GoodName name) {stack : Direntry} {p : Place}
    (hlookup : fatGetDirentryStartCluster ss bpb fuel stack name p = none)
    (rest : List (List Byte)) (fname : List Byte) :
    (walkPath ss bpb fuel stack (joinPath (name :: rest)) [] p).bind
      (finishPath ss bpb fuel stack fname) = none := by
  cases rest with
  | nil =>
      have hwalk := walkPath_name ss bpb fuel stack h.separator [] [] h.length_lt p
      rw [List.append_nil, List.nil_append, walkPath] at hwalk
      rw [joinPath, hwalk, Option.bind_some, finishPath, if_neg fun hnil => h.ne_nil hnil.1,
        if_pos h.length_lt, hlookup]
      rfl
  | cons next rest =>
      rw [joinPath, walkPath_name ss bpb fuel stack h.separator _ [] h.length_lt, List.nil_append,
        walkPath, if_pos h.length_lt, if_pos (by decide), hlookup]
      · rfl
      · exact List.cons_ne_nil next rest

section Overflow

variable (hss : SizeOk ss) (hsize : bpb.sectorSize = ss) (hcs : 0 < bpb.clusterSize)
  (hvol : Volume bpb disk V) (hfuel : Enough V fuel)

include hss hsize hcs hvol

theorem fatGetDirentryStartCluster_overflow {p : Place} {n : ℕ} {l : List ℕ} {D : Region Byte}
    {before after : List Item} {e : Item} {name : List Byte}
    (hdir : bpb.Directory disk p.cluster l D n) (hV : l ≠ [] → V l 0)
    (hlists : Lists D n 0 (before ++ e :: after)) (hnul : NUL ∉ name)
    (hbefore : ∀ x ∈ before, x.long.length < fatMaxName ∧ x.hasName name = false)
    (hlong : fatMaxName ≤ e.long.length) (hd : Cached ss bpb disk V p.d) (stack : Direntry) :
    fatGetDirentryStartCluster ss bpb fuel stack name p = none := by
  have hcached : ∀ x, l[0]? = some x → p.d.lastChainCluster = x → p.d.HasPart ss disk x l := by
    intro x hx
    refine hd.hasPart_zero hvol (hV fun hnil => ?_) hx
    simp [hnil] at hx
  have hhit : ∀ (index : ℕ) (dir : Direntry) (x : Item), dir.Is x →
      (fun (_ : ℕ) => UsbMass.hasName name) index dir =
        (fun (_ : ℕ) (y : Item) => y.hasName name) index x := fun _ dir x his => his.hasName hnul
  obtain ⟨d', hsearch, -⟩ := searchDirectory_spec hss hsize hcs hdir hd.sound hcached
    (fun _ => UsbMass.hasName name) stack
  have hclear : stack.clear.name 0 = NUL := rfl
  have hfound := hlists.search hhit 0 hclear
  rw [firstHit_append hlong after 0 fun x hx => ⟨(hbefore x hx).1, fun _ => (hbefore x hx).2⟩,
    Found, if_pos hlong] at hfound
  rw [fatGetDirentryStartCluster, hsearch, hfound]
  rfl

include hfuel

theorem Overflows.walk {c : ℕ} {path : List (List Byte)} (h : Overflows bpb disk V c path)
    (hnames : ∀ name ∈ path, GoodName name) (fname : List Byte) {p : Place} (hc : p.cluster = c)
    (hd : Cached ss bpb disk V p.d) (stack : Direntry) :
    (walkPath ss bpb fuel stack (joinPath path) [] p).bind (finishPath ss bpb fuel stack fname) =
      none := by
  induction h generalizing p with
  | @here c n l D before after e name rest hdir hV hlists hbefore hlong =>
      subst hc
      have hname := hnames name List.mem_cons_self
      have hlookup : fatGetDirentryStartCluster ss bpb fuel stack name p = none :=
        fatGetDirentryStartCluster_overflow hss hsize hcs hvol hdir hV hlists hname.nul hbefore
          hlong hd stack
      exact hname.walk_none hlookup rest fname
  | @step c items name next rest e l hdir hfind hfile _ ih =>
      subst hc
      have hname := hnames name List.mem_cons_self
      obtain ⟨p₁, hlookup, hd₁, hcluster, -⟩ := fatGetDirentryStartCluster_found hss hsize hcs
        hvol hdir hname.nul hfind hfile hfuel hd stack
      rw [joinPath, hname.walk_slash hlookup]
      · exact ih (fun x hx => hnames x (List.mem_cons_of_mem _ hx)) hcluster hd₁
      · exact List.cons_ne_nil next rest

theorem Overflows.getFileStartCluster {path : List (List Byte)} (h : Overflows bpb disk V 0 path)
    (hnames : ∀ name ∈ path, GoodName name) (slash : Bool) {p : Place} (hc : p.cluster = 0)
    (hd : Cached ss bpb disk V p.d) (stack : Direntry) :
    fatGetFileStartCluster ss bpb fuel stack ((if slash then [0x2F] else []) ++ joinPath path) p =
      none := by
  rw [fatGetFileStartCluster, joinPath_strip hnames slash]
  exact h.walk hss hsize hcs hvol hfuel hnames _ hc hd stack

end Overflow

/-! ### A name of 130 characters -/

/-- The root directory has one file, whose long name takes ten entries. -/
def longNameDisk : Region Byte := fun i =>
  if i < 1024 ∨ 1376 ≤ i then 0
  else if i < 1344 then
    if i % 32 = 0 then BitVec.ofNat 8 (if i = 1024 then 0x4A else 42 - i / 32)
    else if i % 32 = 11 then 0x0F
    else if i % 32 ∈ charPlaces then 0x61
    else 0
  else (listEntry (List.replicate 11 0x41) 0x20 0).getD (i - 1344) 0

def longNameItem : Item :=
  ⟨List.replicate 130 0x61, List.replicate 8 0x41 ++ 0x2E :: List.replicate 3 0x41, 0x20, 0, 0⟩

theorem longNameItem_part {number : ℕ} (hpos : 0 < number) (hle : number ≤ 10) :
    longNameItem.part number = List.replicate 13 0x61 := by
  have hlong : longNameItem.long = List.replicate 130 0x61 := rfl
  rw [Item.part, hlong, List.drop_replicate, List.take_replicate]
  congr 1
  omega

theorem longNameDisk_chars : ∀ k < 10, ∀ i ∈ charPlaces,
    longNameDisk (1024 + (32 * k + i)) = 0x61 := by
  decide +kernel

theorem longNameDisk_mark : ∀ k < 10,
    (longNameDisk (1024 + 32 * k)).toNat % 64 = 10 - k ∧
      ((longNameDisk (1024 + 32 * k)).toNat / 64 % 2 = 1 ↔ decide (k = 0) = true) ∧
      longNameDisk (1024 + 32 * k) ≠ 0xE5 ∧ longNameDisk (1024 + (32 * k + 11)) = 0x0F ∧
      longNameDisk (1024 + (32 * k + 12)) = 0 ∧ longNameDisk (1024 + (32 * k + 26)) = 0 := by
  decide +kernel

theorem longNameDisk_longAt {k : ℕ} (hk : k < 10) :
    LongAt (fun i => longNameDisk (1024 + i)) (32 * k) (10 - k) (longNameItem.part (10 - k))
      (decide (k = 0)) := by
  obtain ⟨hnumber, hlast, hlive, hmark⟩ := longNameDisk_mark k hk
  rw [longNameItem_part (by omega) (by omega)]
  refine ⟨hnumber, hlast, hlive, hmark, le_rfl, fun j i c hi hc => ?_, fun i hi => ?_⟩
  · rw [List.eq_of_mem_replicate (List.mem_of_getElem? hc)]
    exact longNameDisk_chars k hk i (List.mem_of_getElem? hi)
  · exact nomatch hi

theorem longNameDisk_lists :
    Lists (fun i => longNameDisk (1024 + i)) 16 0 ([] ++ longNameItem :: []) := by
  have hparts : longNameItem.parts = 10 := by
    rw [Item.parts, show longNameItem.long = List.replicate 130 0x61 from rfl,
      List.length_replicate]
  have hnul : NUL ∉ longNameItem.long := fun hmem =>
    absurd (List.eq_of_mem_replicate hmem) (by decide)
  refine .item (by rw [hparts]; decide) hnul (by decide) (fun i hi => ?_) ?_
    (.ended (by rw [hparts]; decide) (by rw [hparts]; decide +kernel)
      (by rw [hparts]; decide +kernel))
  · rw [hparts] at hi ⊢
    rw [Nat.zero_add]
    exact longNameDisk_longAt hi
  · rw [hparts]
    exact ⟨by decide +kernel, by decide +kernel, by decide +kernel, by decide +kernel,
      by decide +kernel, by decide +kernel⟩

theorem longNameDisk_overflows (V : List ℕ → ℕ → Prop) (name : List Byte) :
    Overflows sampleBpb longNameDisk V 0 [name] := by
  have hlong : fatMaxName ≤ longNameItem.long.length := by
    rw [show longNameItem.long = List.replicate 130 0x61 from rfl, List.length_replicate]
    decide
  exact .here (.root (by decide) (by decide)) (fun hne => absurd rfl hne) longNameDisk_lists
    (fun x hx => nomatch hx) hlong

/-- A driver that was just mounted. -/
def longNameFs : Fs := { sampleFs with
  d := ⟨scacheInit (fun _ => 0xEE) longNameDisk, 0, fun _ => 0, 0xFFFFFFFF, -1⟩ }

/-! ### Opening -/

/-- Neither a file nor a directory can be opened behind such a name without a store outside of
the array. -/
theorem opening_overflows (hss : SizeOk ss) (hsize : bpb.sectorSize = ss)
    (hcs : 0 < bpb.clusterSize) (hvol : Volume bpb disk V) (hfuel : Enough V fuel) {a : OpenFiles}
    {s : Fs} (hs : Represents ss bpb disk V a s) {i : ℕ} (hi : i < maxFiles) (hfree : a i = none)
    {path : List (List Byte)} (hnames : ∀ name ∈ path, GoodName name)
    (hover : Overflows bpb disk V 0 path) (slash : Bool)
    (hroot : isRoot ((if slash then [0x2F] else []) ++ joinPath path) = false) (stack : Direntry)
    (fatDir : FatDir) :
    fsOpen ss bpb fuel stack s ((if slash then [0x2F] else []) ++ joinPath path) = none ∧
      fsDopen ss bpb fuel stack s ((if slash then [0x2F] else []) ++ joinPath path) fatDir =
        none := by
  constructor
  · obtain ⟨index, hindex⟩ : ∃ index, s.findSlot (-1) = some index := by
      rw [← Option.isSome_iff_exists, hs.findSlot_free, List.find?_isSome]
      exact ⟨i, List.mem_range.mpr hi, by rw [hfree]; rfl⟩
    unfold fsOpen
    rw [hindex]
    dsimp only
    rw [hover.getFileStartCluster hss hsize hcs hvol hfuel hnames slash rfl hs.cached stack]
    rfl
  · unfold fsDopen fatGetFirstDirentry
    dsimp only
    rw [hroot, if_neg Bool.false_ne_true,
      hover.getFileStartCluster hss hsize hcs hvol hfuel hnames slash rfl hs.cached stack]
    rfl

theorem opening_overflows_longNameDisk :
    fsOpen 512 sampleBpb 4 ⟨0, fun _ => 0xEE, fun _ => 0xEE, 0, 0⟩
        longNameFs (0x2F :: listName) = none ∧
      fsDopen 512 sampleBpb 4 ⟨0, fun _ => 0xEE, fun _ => 0xEE, 0, 0⟩
        longNameFs (0x2F :: listName) listDir = none := by
  have hvol : Volume sampleBpb longNameDisk fun _ _ => False :=
    ⟨fun h => h.elim, fun h => h.elim, fun h => h.elim, fun h => h.elim⟩
  have hs : Represents 512 sampleBpb longNameDisk (fun _ _ => False) (fun _ => none) longNameFs :=
    Fs.Mounted.represents hvol ⟨sound_scacheInit _ _ _, rfl, fun _ _ => rfl⟩
  exact opening_overflows ⟨by norm_num, le_rfl⟩ rfl (by decide) hvol
    ⟨by decide, fun _ _ h => h.elim⟩ hs (show 0 < maxFiles by decide) rfl listName_good
    (longNameDisk_overflows _ _) true (by decide) _ _

end Ps2rd.UsbMass
