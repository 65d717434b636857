import Ps2rd.UsbMass.DirectorySectors

/-!
# Finding a file by its path

A volume is known by the chains of its files and directories.  Two of them have no cluster in
common, so the part of a chain that the driver has is known to belong to one file; what it was
read for decides whether it can be used again (`Cached`).
-/

namespace Ps2rd.UsbMass

open CString

variable {ss : ℕ} {bpb : Bpb} {disk : Region Byte} {V : List ℕ → ℕ → Prop}

/-! ### Volumes -/

/-- The files and directories of a volume: `V l size` says that there is one with the clusters
`l` and this size. -/
structure Volume (bpb : Bpb) (disk : Region Byte) (V : List ℕ → ℕ → Prop) : Prop where
  chain : ∀ {l size}, V l size → ∃ c, bpb.IsChain disk c l
  cover : ∀ {l size}, V l size → size ≤ l.length * bpb.clusterBytes
  apart : ∀ {l l' size size' x}, V l size → V l' size' → x ∈ l → x ∈ l' → l = l' ∧ size = size'
  /-- no entry of the seek table is the last cluster of a part that starts at another one -/
  seek : ∀ {l size}, V l size → ∀ i < dirChainSize, ∀ j < dirChainSize, ∀ m,
    bpb.seekIndex size j ≠ bpb.seekIndex size i + 512 * m + 511

/-- What the driver may have asked for the part at index `p` of a chain with: the cluster there,
or the last cluster of the part before, if it started at an entry of the seek table. -/
def AskedWith (bpb : Bpb) (l : List ℕ) (size p x : ℕ) : Prop :=
  l[p]? = some x ∨ ∃ j < dirChainSize, ∃ m, p = bpb.seekIndex size j + 512 * (m + 1) ∧
    l[bpb.seekIndex size j + 512 * m + 511]? = some x

/-- The driver has a part of the chain of a file, or none of a file. -/
structure Cached (ss : ℕ) (bpb : Bpb) (disk : Region Byte) (V : List ℕ → ℕ → Prop) (d : Driver) :
    Prop where
  sound : Sound ss 0 d.cache disk
  part : (∀ l size, V l size → d.lastChainCluster ∉ l) ∨
    ∃ l size p, V l size ∧ d.HasPart ss disk d.lastChainCluster (l.drop p) ∧
      AskedWith bpb l size p d.lastChainCluster

/-- Fuel for the loops over a chain. -/
def Enough (V : List ℕ → ℕ → Prop) (fuel : ℕ) : Prop :=
  0 < fuel ∧ ∀ l size, V l size → l.length + 1 < fuel

theorem Driver.HasPart.samePart {d d' : Driver} {x : ℕ} {q : List ℕ} (h : d.HasPart ss disk x q)
    (hsame : d.SamePart d') (hsound : Sound ss 0 d'.cache disk) : d'.HasPart ss disk x q :=
  ⟨hsound, hsame.cluster.trans h.cluster, hsame.result.trans h.result,
    by rw [hsame.cbuf]; exact h.stored⟩

theorem Cached.samePart {d d' : Driver} (h : Cached ss bpb disk V d) (hsame : d.SamePart d')
    (hsound : Sound ss 0 d'.cache disk) : Cached ss bpb disk V d' := by
  refine ⟨hsound, ?_⟩
  rw [hsame.cluster]
  rcases h.part with hnone | ⟨l, size, p, hV, hpart, hasked⟩
  · exact .inl hnone
  · exact .inr ⟨l, size, p, hV, hpart.samePart hsame hsound, hasked⟩

theorem Cached.of_part {d : Driver} {l : List ℕ} {size p x : ℕ} (hV : V l size)
    (hpart : d.HasPart ss disk x (l.drop p)) (hasked : AskedWith bpb l size p x) :
    Cached ss bpb disk V d := by
  refine ⟨hpart.sound, .inr ⟨l, size, p, hV, ?_⟩⟩
  rw [hpart.cluster]
  exact ⟨hpart, hasked⟩

/-- A part that was asked for with the cluster of an entry of the seek table starts there. -/
theorem Cached.hasPart {d : Driver} (h : Cached ss bpb disk V d) (hvol : Volume bpb disk V)
    {l : List ℕ} {size j x : ℕ} (hV : V l size) (hj : j < dirChainSize)
    (hx : l[bpb.seekIndex size j]? = some x) (hcluster : d.lastChainCluster = x) :
    d.HasPart ss disk x (l.drop (bpb.seekIndex size j)) := by
  obtain ⟨c, hchain⟩ := hvol.chain hV
  have hmem : x ∈ l := List.mem_of_getElem? hx
  rw [← hcluster] at hx hmem ⊢
  rcases h.part with hnone | ⟨l', size', p, hV', hpart, hasked⟩
  · exact absurd hmem (hnone l size hV)
  · have hmem' : d.lastChainCluster ∈ l' := by
      rcases hasked with hp | ⟨_, _, _, _, hp⟩ <;> exact List.mem_of_getElem? hp
    obtain ⟨rfl, rfl⟩ := hvol.apart hV' hV hmem' hmem
    rcases hasked with hp | ⟨i, hi, m, -, hp⟩
    · rw [hchain.chain.eq_of_getElem? hx hp]
      exact hpart
    · exact absurd (hchain.chain.eq_of_getElem? hx hp) (hvol.seek hV i hi j hj m)

theorem Bpb.seekIndex_zero (bpb : Bpb) (size : ℕ) : bpb.seekIndex size 0 = 0 := by
  simp [Bpb.seekIndex]

/-- The whole chain, as it is asked for with its first cluster. -/
theorem Cached.hasPart_zero {d : Driver} (h : Cached ss bpb disk V d) (hvol : Volume bpb disk V)
    {l : List ℕ} {size x : ℕ} (hV : V l size) (hx : l[0]? = some x)
    (hcluster : d.lastChainCluster = x) : d.HasPart ss disk x l := by
  have hpart := h.hasPart hvol hV (j := 0) (by decide) (by rwa [bpb.seekIndex_zero]) hcluster
  rwa [bpb.seekIndex_zero, List.drop_zero] at hpart

/-! ### One name -/

/-- The directory with the start cluster `c` lists `items`, and its clusters are known. -/
def DirAt (bpb : Bpb) (disk : Region Byte) (V : List ℕ → ℕ → Prop) (c : ℕ) (items : List Item) :
    Prop :=
  ∃ l D n, bpb.Directory disk c l D n ∧ (l ≠ [] → V l 0) ∧ Lists D n 0 items ∧
    ∀ e ∈ items, e.long.length < fatMaxName

/-- The clusters of a file; a file without any has the start cluster 0. -/
def FileAt (bpb : Bpb) (disk : Region Byte) (V : List ℕ → ℕ → Prop) (e : Item) (l : List ℕ) :
    Prop :=
  e.cluster < 2 ∧ l = [] ∧ e.size = 0 ∨ bpb.IsChain disk e.cluster l ∧ V l e.size

/-- `fat_dir` is for the file `e` with the clusters `l`. -/
structure FatDir.For (bpb : Bpb) (fatDir : FatDir) (e : Item) (l : List ℕ) : Prop where
  size : fatDir.size = e.size
  attr : fatDir.attr = e.attr
  records : bpb.IntSize e.size → l ≠ [] →
    ∀ j < dirChainSize, bpb.IsRecord l e.size j (fatDir.chain j)

theorem firstHit_eq_find? {P : Item → Bool} {items : List Item}
    (h : ∀ e ∈ items, e.long.length < fatMaxName) (index : ℕ) :
    firstHit (fun _ => P) index items = items.find? P := by
  induction items generalizing index with
  | nil => rfl
  | cons e items ih =>
      have he : ¬ fatMaxName ≤ e.long.length := not_le.mpr (h e List.mem_cons_self)
      rw [firstHit_cons, List.find?_cons, ih fun x hx => h x (List.mem_cons_of_mem _ hx)]
      cases P e <;> simp [he]

section Lookup

variable (hss : SizeOk ss) (hsize : bpb.sectorSize = ss) (hcs : 0 < bpb.clusterSize) {fuel : ℕ}

include hss hsize hcs

/-- The chain of a file is read, and the driver has a part of it in the end. -/
theorem fatSetFatDir_chain {d : Driver} (hsound : Sound ss 0 d.cache disk) {e : Item} {l : List ℕ}
    (hchain : bpb.IsChain disk e.cluster l) (hcover : e.size ≤ l.length * bpb.clusterBytes)
    (hcached : d.lastChainCluster = e.cluster → d.HasPart ss disk e.cluster l)
    (hfuel : l.length < fuel) {dir : Direntry} (his : dir.Is e) (fatDir : FatDir) :
    ∃ d' fatDir', fatSetFatDir ss bpb fuel d fatDir dir true = some (d', fatDir') ∧
      fatDir'.For bpb e l ∧ ∃ p x, l[p]? = some x ∧ d'.HasPart ss disk x (l.drop p) := by
  unfold fatSetFatDir
  rw [his.setFatDir, Option.bind_eq_bind, Option.bind_some, if_pos rfl]
  have hpos : 0 < bpb.clusterBytes :=
    Nat.mul_pos hcs (hsize ▸ (by norm_num : 0 < 512).trans_le hss.le)
  let fatDir₁ : FatDir := { fatDir with
    attr := e.attr, name := e.name, size := e.size,
    chain := Function.update fatDir.chain 0 ⟨e.cluster, 0⟩ }
  have hfirst : fatDir₁.chain 0 = ⟨e.cluster, 0⟩ := Function.update_self 0 _ fatDir.chain
  obtain ⟨d', fatDir', hset, hsize', hattr, hrecords, hpart⟩ := fatSetFatDirChain_spec hss hsize
    hpos hchain hfirst hcover hsound hcached hfuel
  exact ⟨d', fatDir', hset, ⟨hsize', hattr, fun hint _ => hrecords hint⟩, hpart⟩

/-- A search in a directory whose names are short enough. -/
theorem searchDirectory_lists {c n : ℕ} {l : List ℕ} {D : Region Byte} {items : List Item}
    (hdir : bpb.Directory disk c l D n) (hlists : Lists D n 0 items)
    (hnames : ∀ e ∈ items, e.long.length < fatMaxName)
    {hit : ℕ → Direntry → Bool} {hit' : ℕ → Item → Bool}
    (hhit : ∀ index dir e, Direntry.Is dir e → hit index dir = hit' index e) {d : Driver}
    (hsound : Sound ss 0 d.cache disk)
    (hcached : ∀ x, l[0]? = some x → d.lastChainCluster = x → d.HasPart ss disk x l)
    (stack : Direntry) :
    ∃ r d', searchDirectory ss bpb hit stack d c = some (r, d') ∧ Sound ss 0 d'.cache disk ∧
      (d.SamePart d' ∨ ∃ x, l[0]? = some x ∧ d'.HasPart ss disk x l) ∧
      match firstHit hit' 0 items with
      | some e => ∃ dir, r = some dir ∧ dir.Is e
      | none => r = none := by
  obtain ⟨d', hsearch, hsound', hpart⟩ :=
    searchDirectory_spec hss hsize hcs hdir hsound hcached hit stack
  have hclear : stack.clear.name 0 = NUL := rfl
  have hfound := hlists.search hhit 0 hclear
  rw [hsearch]
  cases hfirst : firstHit hit' 0 items with
  | some e =>
      rw [hfirst] at hfound
      have he : e ∈ items := by
        unfold firstHit at hfirst
        obtain ⟨⟨e', i⟩, hfind, rfl⟩ := Option.map_eq_some_iff.mp hfirst
        have hmem := List.mem_of_find?_eq_some hfind
        exact (List.mem_zipIdx hmem).2.2 ▸ List.getElem_mem _
      rw [Found, if_neg (not_le.mpr (hnames e he))] at hfound
      obtain ⟨dir, hr, his⟩ := hfound
      exact ⟨some dir, d', by rw [hr]; rfl, hsound', hpart, dir, rfl, his⟩
  | none =>
      rw [hfirst] at hfound
      refine ⟨none, d', ?_, hsound', hpart, rfl⟩
      rcases hfound with hr | ⟨_, _, hr⟩ <;> rw [hr] <;> rfl

omit hss hsize hcs in
/-- The entry of a name is found, and the chain of its file read. -/
theorem fatGetDirentryStartCluster_of_search {p : Place} {name : List Byte} {e : Item}
    {dir : Direntry} {d₁ : Driver} {stack : Direntry}
    (hsearch : searchDirectory ss bpb (fun _ => hasName name) stack p.d p.cluster =
      some (some dir, d₁)) (his : dir.Is e) {d' : Driver} {fatDir' : FatDir}
    (hset : fatSetFatDir ss bpb fuel d₁ p.fatDir dir true = some (d', fatDir')) :
    fatGetDirentryStartCluster ss bpb fuel stack name p = some (true, ⟨d', e.cluster, fatDir'⟩) := by
  rw [fatGetDirentryStartCluster, hsearch, Option.bind_eq_bind, Option.bind_some]
  dsimp only
  rw [hset, ← his.cluster]
  rfl

variable (hvol : Volume bpb disk V)

include hvol

/-- A search in a directory of the volume. -/
theorem searchDirectory_find {c : ℕ} {items : List Item} (hdir : DirAt bpb disk V c items)
    {hit : ℕ → Direntry → Bool} {hit' : ℕ → Item → Bool}
    (hhit : ∀ index dir e, Direntry.Is dir e → hit index dir = hit' index e) {d : Driver}
    (hd : Cached ss bpb disk V d) (stack : Direntry) :
    ∃ r d', searchDirectory ss bpb hit stack d c = some (r, d') ∧ Cached ss bpb disk V d' ∧
      match firstHit hit' 0 items with
      | some e => ∃ dir, r = some dir ∧ dir.Is e
      | none => r = none := by
  obtain ⟨l, D, n, hdirectory, hV, hlists, hnames⟩ := hdir
  have hl : ∀ x, l[0]? = some x → V l 0 := by
    intro x hx
    refine hV fun hnil => ?_
    simp [hnil] at hx
  obtain ⟨r, d', hsearch, hsound, hpart, hr⟩ := searchDirectory_lists hss hsize hcs hdirectory
    hlists hnames hhit hd.sound (fun x hx => hd.hasPart_zero hvol (hl x hx) hx) stack
  refine ⟨r, d', hsearch, ?_, hr⟩
  rcases hpart with hsame | ⟨x, hx, hpart⟩
  · exact hd.samePart hsame hsound
  · exact .of_part (p := 0) (hl x hx) hpart (.inl hx)

/-- The chain of a file that was found is read. -/
theorem fatSetFatDir_found {d : Driver} (hd : Cached ss bpb disk V d) {e : Item} {l : List ℕ}
    (hfile : FileAt bpb disk V e l) (hfuel : Enough V fuel)
    {dir : Direntry} (his : dir.Is e) (fatDir : FatDir) :
    ∃ d' fatDir', fatSetFatDir ss bpb fuel d fatDir dir true = some (d', fatDir') ∧
      Cached ss bpb disk V d' ∧ fatDir'.For bpb e l := by
  rcases hfile with ⟨hcluster, rfl, -⟩ | ⟨hchain, hV⟩
  · unfold fatSetFatDir
    rw [his.setFatDir, Option.bind_eq_bind, Option.bind_some, if_pos rfl, fatSetFatDirChain,
      if_pos (by dsimp only; rwa [Function.update_self])]
    exact ⟨d, _, rfl, hd, rfl, rfl, fun _ hne => absurd rfl hne⟩
  · have hhead : l[0]? = some e.cluster := by
      obtain ⟨t, rfl⟩ := hchain.chain.exists_cons
      rfl
    obtain ⟨d', fatDir', hset, hfor, p, x, hx, hpart⟩ := fatSetFatDir_chain hss hsize hcs hd.sound
      hchain (hvol.cover hV) (hd.hasPart_zero hvol hV hhead)
      (Nat.lt_of_succ_lt (hfuel.2 l e.size hV)) his fatDir
    exact ⟨d', fatDir', hset, .of_part hV hpart (.inl hx), hfor⟩

/-- A name that is in the directory. -/
theorem fatGetDirentryStartCluster_found {p : Place} {items : List Item} {e : Item} {l : List ℕ}
    (hdir : DirAt bpb disk V p.cluster items) {name : List Byte} (hnul : NUL ∉ name)
    (hfind : items.find? (·.hasName name) = some e) (hfile : FileAt bpb disk V e l)
    (hfuel : Enough V fuel) (hd : Cached ss bpb disk V p.d)
    (stack : Direntry) :
    ∃ p', fatGetDirentryStartCluster ss bpb fuel stack name p = some (true, p') ∧
      Cached ss bpb disk V p'.d ∧ p'.cluster = e.cluster ∧ p'.fatDir.For bpb e l := by
  obtain ⟨r, d₁, hsearch, hd₁, hr⟩ := searchDirectory_find hss hsize hcs hvol hdir
    (fun _ dir e his => his.hasName hnul) hd stack
  obtain ⟨_, _, _, _, _, _, hnames⟩ := hdir
  rw [firstHit_eq_find? hnames, hfind] at hr
  obtain ⟨dir, rfl, his⟩ := hr
  obtain ⟨d', fatDir', hset, hd', hfor⟩ :=
    fatSetFatDir_found hss hsize hcs hvol hd₁ hfile hfuel his p.fatDir
  exact ⟨_, fatGetDirentryStartCluster_of_search hsearch his hset, hd', rfl, hfor⟩

/-- A name that is not in the directory. -/
theorem fatGetDirentryStartCluster_missing {p : Place} {items : List Item}
    (hdir : DirAt bpb disk V p.cluster items) {name : List Byte} (hnul : NUL ∉ name)
    (hfind : items.find? (·.hasName name) = none) (hd : Cached ss bpb disk V p.d)
    (stack : Direntry) :
    ∃ p', fatGetDirentryStartCluster ss bpb fuel stack name p = some (false, p') ∧
      Cached ss bpb disk V p'.d := by
  obtain ⟨r, d₁, hsearch, hd₁, hr⟩ := searchDirectory_find hss hsize hcs hvol hdir
    (fun _ dir e his => his.hasName hnul) hd stack
  obtain ⟨_, _, _, _, _, _, hnames⟩ := hdir
  rw [firstHit_eq_find? hnames, hfind] at hr
  subst hr
  refine ⟨{ p with d := d₁ }, ?_, hd₁⟩
  rw [fatGetDirentryStartCluster, hsearch]
  rfl

end Lookup

/-! ### Paths -/

/-- A name that a path can be made of. -/
structure GoodName (name : List Byte) : Prop where
  ne_nil : name ≠ []
  nul : NUL ∉ name
  separator : ∀ c ∈ name, isSeparator c = false
  length_lt : name.length < tmpNameSize

/-- The names of a path with slashes between them. -/
def joinPath : List (List Byte) → List Byte
  | [] => []
  | [name] => name
  | name :: rest => name ++ 0x2F :: joinPath rest

/-- What a path leads to, from the directory with the start cluster `c` on: a file with its
clusters, or the error for a name that is not there. -/
inductive Resolves (bpb : Bpb) (disk : Region Byte) (V : List ℕ → ℕ → Prop) :
    ℕ → List (List Byte) → Except Errno (Item × List ℕ) → Prop
  | missing {c : ℕ} {items : List Item} {name : List Byte} {rest : List (List Byte)}
      (hdir : DirAt bpb disk V c items) (hfind : items.find? (·.hasName name) = none) :
      Resolves bpb disk V c (name :: rest) (.error (if rest = [] then .efault else .enoent))
  | last {c : ℕ} {items : List Item} {name : List Byte} {e : Item} {l : List ℕ}
      (hdir : DirAt bpb disk V c items) (hfind : items.find? (·.hasName name) = some e)
      (hfile : FileAt bpb disk V e l) : Resolves bpb disk V c [name] (.ok (e, l))
  | step {c : ℕ} {items : List Item} {name next : List Byte} {rest : List (List Byte)} {e : Item}
      {l : List ℕ} {r : Except Errno (Item × List ℕ)} (hdir : DirAt bpb disk V c items)
      (hfind : items.find? (·.hasName name) = some e) (hfile : FileAt bpb disk V e l)
      (hrest : Resolves bpb disk V e.cluster (next :: rest) r) :
      Resolves bpb disk V c (name :: next :: rest) r

theorem Resolves.fileAt {c : ℕ} {path : List (List Byte)} {e : Item} {l : List ℕ}
    (h : Resolves bpb disk V c path (.ok (e, l))) : FileAt bpb disk V e l := by
  generalize hr : (Except.ok (e, l) : Except Errno (Item × List ℕ)) = r at h
  induction h with
  | missing => exact nomatch hr
  | last _ _ hfile =>
      obtain ⟨rfl, rfl⟩ := Prod.mk.inj (Except.ok.inj hr)
      exact hfile
  | step _ _ _ _ ih => exact ih hr

/-- The characters of a name are collected. -/
theorem walkPath_name (ss : ℕ) (bpb : Bpb) (fuel : ℕ) (stack : Direntry) {name : List Byte}
    (hsep : ∀ c ∈ name, isSeparator c = false) (rest tmpName : List Byte)
    (hlen : (tmpName ++ name).length < tmpNameSize) (p : Place) :
    walkPath ss bpb fuel stack (name ++ rest) tmpName p =
      walkPath ss bpb fuel stack rest (tmpName ++ name) p := by
  induction name generalizing tmpName with
  | nil => simp
  | cons c name ih =>
      rw [List.length_append, List.length_cons] at hlen
      have hc : isSeparator c = false := hsep c List.mem_cons_self
      rw [List.cons_append, walkPath, if_pos (by omega), hc, if_neg Bool.false_ne_true,
        ih (fun x hx => hsep x (List.mem_cons_of_mem _ hx)) _
          (by simp only [List.length_append, List.length_singleton]; omega), List.append_assoc,
        List.singleton_append]

/-- The last name of a path. -/
theorem GoodName.walk_last {name : List Byte} (h : GoodName name) {fuel : ℕ} {stack : Direntry}
    {p p' : Place} {found : Bool}
    (hlookup : fatGetDirentryStartCluster ss bpb fuel stack name p = some (found, p'))
    (fname : List Byte) :
    (walkPath ss bpb fuel stack name [] p).bind (finishPath ss bpb fuel stack fname) =
      some (if found then .ok () else .error .efault, p') := by
  have hwalk := walkPath_name ss bpb fuel stack h.separator [] [] h.length_lt p
  rw [List.append_nil, List.nil_append, walkPath] at hwalk
  rw [hwalk, Option.bind_some, finishPath, if_neg fun hnil => h.ne_nil hnil.1,
    if_pos h.length_lt, hlookup]
  rfl

/-- Any other name. -/
theorem GoodName.walk_slash {name : List Byte} (h : GoodName name) {fuel : ℕ} {stack : Direntry}
    {p p' : Place} {found : Bool}
    (hlookup : fatGetDirentryStartCluster ss bpb fuel stack name p = some (found, p'))
    (rest : List Byte) :
    walkPath ss bpb fuel stack (name ++ 0x2F :: rest) [] p =
      if found then walkPath ss bpb fuel stack rest [] p' else some (.error .enoent, p') := by
  rw [walkPath_name ss bpb fuel stack h.separator _ [] h.length_lt, List.nil_append, walkPath,
    if_pos h.length_lt, if_pos (by decide), hlookup]
  rfl

theorem joinPath_head {path : List (List Byte)} (hnames : ∀ name ∈ path, GoodName name) :
    (joinPath path).head?.any isSeparator = false := by
  cases path with
  | nil => rfl
  | cons name rest =>
      have hname := hnames name List.mem_cons_self
      obtain ⟨c, t, rfl⟩ := List.exists_cons_of_ne_nil hname.ne_nil
      have hc := hname.separator c List.mem_cons_self
      cases rest <;> exact hc

/-- A slash in front of a path is skipped. -/
theorem joinPath_strip {path : List (List Byte)} (hnames : ∀ name ∈ path, GoodName name)
    (slash : Bool) :
    (if (((if slash then [0x2F] else []) ++ joinPath path).head?.any isSeparator) then
      ((if slash then [0x2F] else []) ++ joinPath path).tail
      else (if slash then [0x2F] else []) ++ joinPath path) = joinPath path := by
  cases slash with
  | true => rfl
  | false =>
      rw [if_neg Bool.false_ne_true, List.nil_append, joinPath_head hnames,
        if_neg Bool.false_ne_true]

section Path

variable (hss : SizeOk ss) (hsize : bpb.sectorSize = ss) (hcs : 0 < bpb.clusterSize)
  (hvol : Volume bpb disk V) {fuel : ℕ} (hfuel : Enough V fuel)

include hss hsize hcs hvol hfuel

/-- A path is walked along to its last name, which is then looked up. -/
theorem Resolves.walk {c : ℕ} {path : List (List Byte)} {r : Except Errno (Item × List ℕ)}
    (h : Resolves bpb disk V c path r) (hnames : ∀ name ∈ path, GoodName name)
    (fname : List Byte) {p : Place} (hc : p.cluster = c) (hd : Cached ss bpb disk V p.d)
    (stack : Direntry) :
    ∃ p', (walkPath ss bpb fuel stack (joinPath path) [] p).bind
        (finishPath ss bpb fuel stack fname) = some (r.map fun _ => (), p') ∧
      Cached ss bpb disk V p'.d ∧
      ∀ e l, r = .ok (e, l) → p'.fatDir.For bpb e l ∧ p'.cluster = e.cluster := by
  -- one case for a name that is missing, for the last name and for a directory on the way
  induction h generalizing p with
  | @missing c items name rest hdir hfind =>
      subst hc
      have hname := hnames name List.mem_cons_self
      obtain ⟨p', hlookup, hd'⟩ : ∃ p', fatGetDirentryStartCluster ss bpb fuel stack name p =
          some (false, p') ∧ Cached ss bpb disk V p'.d :=
        fatGetDirentryStartCluster_missing hss hsize hcs hvol hdir hname.nul hfind hd stack
      refine ⟨p', ?_, hd', fun e l h => nomatch h⟩
      cases rest with
      | nil => exact hname.walk_last hlookup fname
      | cons next rest =>
          rw [joinPath, hname.walk_slash hlookup]
          · rfl
          · exact fun h => nomatch h
  | @last c items name e l hdir hfind hfile =>
      subst hc
      have hname := hnames name List.mem_cons_self
      obtain ⟨p', hlookup, hd', hcluster, hfor⟩ := fatGetDirentryStartCluster_found hss hsize hcs
        hvol hdir hname.nul hfind hfile hfuel hd stack
      refine ⟨p', hname.walk_last hlookup fname, hd', fun e' l' h => ?_⟩
      obtain ⟨rfl, rfl⟩ := Prod.mk.inj (Except.ok.inj h)
      exact ⟨hfor, hcluster⟩
  | @step c items name next rest e l r hdir hfind hfile _ ih =>
      subst hc
      have hname := hnames name List.mem_cons_self
      obtain ⟨p₁, hlookup, hd₁, hcluster, -⟩ := fatGetDirentryStartCluster_found hss hsize hcs
        hvol hdir hname.nul hfind hfile hfuel hd stack
      obtain ⟨p', hrun, hd', hresult⟩ :=
        ih (fun x hx => hnames x (List.mem_cons_of_mem _ hx)) hcluster hd₁
      refine ⟨p', ?_, hd', hresult⟩
      rw [joinPath, hname.walk_slash hlookup]
      · exact hrun
      · exact fun h => nomatch h

/-- A path, with or without a slash before it. -/
theorem fatGetFileStartCluster_spec {path : List (List Byte)} {r : Except Errno (Item × List ℕ)}
    (h : Resolves bpb disk V 0 path r) (hnames : ∀ name ∈ path, GoodName name) (slash : Bool)
    {p : Place} (hc : p.cluster = 0) (hd : Cached ss bpb disk V p.d) (stack : Direntry) :
    ∃ p', fatGetFileStartCluster ss bpb fuel stack
        ((if slash then [0x2F] else []) ++ joinPath path) p = some (r.map fun _ => (), p') ∧
      Cached ss bpb disk V p'.d ∧
      ∀ e l, r = .ok (e, l) → p'.fatDir.For bpb e l ∧ p'.cluster = e.cluster := by
  rw [fatGetFileStartCluster, joinPath_strip hnames slash]
  exact h.walk hss hsize hcs hvol hfuel hnames _ hc hd stack

end Path

end Ps2rd.UsbMass
