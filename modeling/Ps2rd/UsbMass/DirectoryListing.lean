import Ps2rd.UsbMass.FileSession

/-!
# Lists of directories

`fs_dopen` reads the first entry of a directory, and `fs_dread` returns the entry that its handle
holds after it has read the next one.  Where to read next is kept in `direntryCluster` and
`direntryIndex`, which all handles share.  So a list that is read to its end before another one
is started is complete, with files opened and read in between or not; a list that is started
while another one is being read takes the rest of it away.

The calls are compared with a machine that has one queue of files still to be listed, and one
file for each handle.
-/

namespace Ps2rd.UsbMass

variable {ss : ℕ} {bpb : Bpb} {disk : Region Byte} {V : List ℕ → ℕ → Prop} {fuel : ℕ}

/-! ### What a list shows -/

/-- Volume names are not shown. -/
def Item.shown (e : Item) : Bool := !e.attr.getLsbD 3

/-- A file as `fs_dread` returns it. -/
def Item.dirent (e : Item) : Dirent := ⟨e.attr.getLsbD 4, e.size, e.name⟩

/-- A list of files as it is shown. -/
def dirents (items : List Item) : List Dirent := (items.filter Item.shown).map Item.dirent

theorem dirents_cons (e : Item) (items : List Item) :
    dirents (e :: items) = if e.shown then e.dirent :: dirents items else dirents items := by
  unfold dirents
  rw [List.filter_cons]
  split_ifs <;> rfl

/-- What `fs_dread` returns if the handle holds `held` and `todo` is still to be read, and what
there is afterwards. -/
def dreadFrom : Option Item → List Item → Option Dirent × Option Item × List Item
  | none, todo => (none, none, todo)
  | some e, [] => (if e.shown then some e.dirent else none, none, [])
  | some e, next :: todo =>
      if e.shown then (some e.dirent, some next, todo) else dreadFrom (some next) todo

/-- The first file that is shown is returned, and the others are left. -/
theorem dreadFrom_spec (held : Option Item) (todo : List Item) (hend : held = none → todo = []) :
    (dreadFrom held todo).1 = (dirents (held.toList ++ todo)).head? ∧
      dirents ((dreadFrom held todo).2.1.toList ++ (dreadFrom held todo).2.2) =
        (dirents (held.toList ++ todo)).tail ∧
      ((dreadFrom held todo).2.1 = none → (dreadFrom held todo).2.2 = []) := by
  induction todo generalizing held with
  | nil =>
      cases held with
      | none => exact ⟨rfl, rfl, fun _ => rfl⟩
      | some e =>
          rw [dreadFrom, Option.toList_some, List.append_nil, dirents_cons]
          refine ⟨?_, ?_, fun _ => rfl⟩ <;> cases e.shown <;> rfl
  | cons next todo ih =>
      cases held with
      | none => exact nomatch hend rfl
      | some e =>
          simp only [dreadFrom, Option.toList_some, List.singleton_append, dirents_cons e]
          cases e.shown with
          | true => exact ⟨rfl, rfl, fun h => nomatch h⟩
          | false =>
              have hrest := ih (some next) fun h => nomatch h
              simp only [Bool.false_eq_true, if_false]
              exact hrest

theorem length_dreadFrom_le (held : Option Item) (todo : List Item) :
    (dreadFrom held todo).2.2.length ≤ todo.length := by
  induction todo generalizing held with
  | nil => cases held <;> exact le_rfl
  | cons next todo ih =>
      cases held with
      | none => exact le_rfl
      | some e =>
          rw [dreadFrom]
          split_ifs
          · exact Nat.le_succ _
          · exact (ih (some next)).trans (Nat.le_succ _)

/-! ### The next entry -/

theorem firstHit_index {items : List Item} (h : ∀ e ∈ items, e.long.length < fatMaxName)
    (index k : ℕ) : firstHit (fun i _ => decide (i = index + k)) index items = items[k]? := by
  induction items generalizing index k with
  | nil => rfl
  | cons e items ih =>
      have he : ¬ fatMaxName ≤ e.long.length := not_le.mpr (h e List.mem_cons_self)
      have ih' := ih fun x hx => h x (List.mem_cons_of_mem _ hx)
      rw [firstHit_cons]
      cases k with
      | zero => simp
      | succ k =>
          have hrest := ih' (index + 1) k
          rw [Nat.add_right_comm, Nat.add_assoc] at hrest
          rw [if_neg (by simp [he]), hrest, List.getElem?_cons_succ]

theorem DirAt.ne_noDirectory {c : ℕ} {items : List Item} (h : DirAt bpb disk V c items) :
    c ≠ noDirectory := by
  obtain ⟨l, D, n, hdirectory, -⟩ := h
  cases hdirectory with
  | root => decide
  | @chain _ c' _ htype hc' hchain =>
      rintro rfl
      rw [if_neg (by decide)] at hc'
      obtain ⟨t, rfl⟩ := hchain.chain.exists_cons
      have hsmall := (hchain.ok c' List.mem_cons_self).small
      rw [← hc', noDirectory] at hsmall
      omega

/-- `fat_dir` has the name and the data of a file. -/
structure FatDir.Names (fatDir : FatDir) (e : Item) : Prop where
  attr : fatDir.attr = e.attr
  name : fatDir.name = e.name
  size : fatDir.size = e.size

/-- The files still to be listed. -/
def Cursor (bpb : Bpb) (disk : Region Byte) (V : List ℕ → ℕ → Prop) (s : Fs) (todo : List Item) :
    Prop :=
  s.direntryCluster = noDirectory ∧ todo = [] ∨
    ∃ items, DirAt bpb disk V s.direntryCluster items ∧ todo = items.drop s.direntryIndex

/-- The file that a handle holds, or that the list is at its end. -/
def HandleFor : Option Item → DirHandle → Prop
  | none, h => h.status = true
  | some e, h => h.status = false ∧ h.fatdir.Names e

theorem HandleFor.update {held : ℕ → Option (Option Item)} {handles : ℕ → DirHandle}
    (h : ∀ i o, held i = some o → HandleFor o (handles i)) {i : ℕ} {o : Option Item}
    {handle : DirHandle} (hnew : HandleFor o handle) (j : ℕ) (o' : Option Item)
    (hj : Function.update held i (some o) j = some o') :
    HandleFor o' (Function.update handles i handle j) := by
  rcases eq_or_ne j i with rfl | hne
  · rw [Function.update_self] at hj ⊢
    exact Option.some.inj hj ▸ hnew
  · rw [Function.update_of_ne hne] at hj ⊢
    exact h j o' hj

section Calls

variable (hss : SizeOk ss) (hsize : bpb.sectorSize = ss) (hcs : 0 < bpb.clusterSize)
  (hvol : Volume bpb disk V) {a : OpenFiles} {s : Fs}

omit hss hsize hcs hvol in
/-- The slots stay as they are. -/
theorem Represents.keep (h : Represents ss bpb disk V a s) {s' : Fs}
    (hd : Cached ss bpb disk V s'.d) (hrec : s'.fsRec = s.fsRec) (hdir : s'.fsDir = s.fsDir)
    (hcounter : s.fsCounter ≤ s'.fsCounter) : Represents ss bpb disk V a s' := by
  refine ⟨hd, fun i hi => ?_, h.out, ?_⟩
  · rw [hrec, hdir]
    exact (h.slot i hi).mono hcounter
  · rw [hrec]
    exact h.unique

include hss hsize hcs hvol

/-- The next file goes into the handle. -/
theorem fatGetNextDirentry_spec (h : Represents ss bpb disk V a s) {todo : List Item}
    (hcursor : Cursor bpb disk V s todo) (stack : Direntry) (fatDir : FatDir) :
    ∃ found fatDir' s', fatGetNextDirentry ss bpb stack s fatDir = some (found, fatDir', s') ∧
      Represents ss bpb disk V a s' ∧ Cursor bpb disk V s' todo.tail ∧
      HandleFor todo.head? ⟨!found, fatDir'⟩ := by
  rcases hcursor with ⟨hnone, rfl⟩ | ⟨items, hdir, rfl⟩
  · exact ⟨false, fatDir, s, by rw [fatGetNextDirentry, if_pos hnone], h, .inl ⟨hnone, rfl⟩, rfl⟩
  have hhit : ∀ (index : ℕ) (dir : Direntry) (e : Item), dir.Is e →
      (fun i (_ : Direntry) => decide (i = s.direntryIndex)) index dir =
        (fun i (_ : Item) => decide (i = s.direntryIndex)) index e := fun _ _ _ _ => rfl
  obtain ⟨r, d', hsearch, hd', hr⟩ :=
    searchDirectory_find hss hsize hcs hvol hdir hhit h.cached stack
  have hindex : firstHit (fun i _ => decide (i = 0 + s.direntryIndex)) 0 items =
      items[s.direntryIndex]? := by
    obtain ⟨_, _, _, _, _, _, hnames⟩ := hdir
    exact firstHit_index hnames 0 s.direntryIndex
  rw [Nat.zero_add] at hindex
  rw [hindex] at hr
  have htail : (items.drop s.direntryIndex).tail = items.drop (s.direntryIndex + 1) :=
    List.tail_drop
  rw [fatGetNextDirentry, if_neg hdir.ne_noDirectory, hsearch, Option.bind_eq_bind,
    Option.bind_some, List.head?_drop, htail]
  cases he : items[s.direntryIndex]? with
  | none =>
      rw [he] at hr
      subst hr
      have hend : items.drop (s.direntryIndex + 1) = [] := by
        rw [List.drop_eq_nil_iff]
        exact (List.getElem?_eq_none_iff.mp he).trans (Nat.le_succ _)
      rw [hend]
      exact ⟨false, fatDir, _, rfl, h.keep hd' rfl rfl le_rfl, .inl ⟨rfl, rfl⟩, rfl⟩
  | some e =>
      rw [he] at hr
      obtain ⟨dir, rfl, his⟩ := hr
      dsimp only
      rw [his.setFatDir]
      exact ⟨true, _, _, rfl, h.keep hd' rfl rfl le_rfl, .inr ⟨items, hdir, rfl⟩, rfl,
        rfl, rfl, rfl⟩

omit hss hsize hcs hvol in
theorem fsDread_ended {handle : DirHandle} (hstatus : handle.status = true) (n : ℕ)
    (stack : Direntry) : fsDread ss bpb stack (n + 1) s handle = some (none, handle, s) := by
  rw [fsDread, if_pos hstatus]

/-- The loop of `fs_dread` over volume names. -/
theorem fsDread_spec {n : ℕ} {todo : List Item} (hn : todo.length + 1 < n)
    (h : Represents ss bpb disk V a s) (hcursor : Cursor bpb disk V s todo) {held : Option Item}
    {handle : DirHandle} (hhandle : HandleFor held handle) (stack : Direntry) :
    ∃ handle' s', fsDread ss bpb stack n s handle =
        some ((dreadFrom held todo).1, handle', s') ∧
      Represents ss bpb disk V a s' ∧ Cursor bpb disk V s' (dreadFrom held todo).2.2 ∧
      HandleFor (dreadFrom held todo).2.1 handle' := by
  induction todo generalizing n s held handle with
  | nil =>
      obtain ⟨n, rfl⟩ : ∃ m, n = m + 2 := ⟨n - 2, by simp at hn; omega⟩
      cases held with
      | none => exact ⟨handle, s, fsDread_ended hhandle _ stack, h, hcursor, hhandle⟩
      | some e =>
          obtain ⟨hstatus, hnames⟩ := hhandle
          obtain ⟨found, fatDir', s', hnext, hs', hcursor', hend⟩ :=
            fatGetNextDirentry_spec hss hsize hcs hvol h hcursor stack handle.fatdir
          refine ⟨⟨!found, fatDir'⟩, s', ?_, hs', hcursor', hend⟩
          rw [fsDread, if_neg (by rw [hstatus]; decide), hnext, Option.bind_eq_bind,
            Option.bind_some]
          dsimp only
          rw [hnames.attr, hnames.name, hnames.size, dreadFrom, Item.shown]
          cases e.attr.getLsbD 3 with
          | false => rfl
          | true =>
              rw [if_pos rfl, fsDread_ended hend]
              rfl
  | cons next todo ih =>
      obtain ⟨n, rfl⟩ : ∃ m, n = m + 1 := ⟨n - 1, by omega⟩
      cases held with
      | none => exact ⟨handle, s, fsDread_ended hhandle _ stack, h, hcursor, hhandle⟩
      | some e =>
          obtain ⟨hstatus, hnames⟩ := hhandle
          obtain ⟨found, fatDir', s', hnext, hs', hcursor', hhandle'⟩ :=
            fatGetNextDirentry_spec hss hsize hcs hvol h hcursor stack handle.fatdir
          rw [fsDread, if_neg (by rw [hstatus]; decide), hnext, Option.bind_eq_bind,
            Option.bind_some]
          dsimp only
          rw [hnames.attr, hnames.name, hnames.size, dreadFrom, Item.shown]
          -- a volume label is not shown: the call goes on to the next entry
          cases e.attr.getLsbD 3 with
          | false => exact ⟨_, s', rfl, hs', hcursor', hhandle'⟩
          | true =>
              rw [List.length_cons] at hn
              exact ih (by omega) hs' hcursor' hhandle'

end Calls

/-! ### The first entry -/

/-- The directory that a path has led to, if it is one. -/
def dirOf : Except Errno (Item × List ℕ) → Option ℕ
  | .ok (e, _) => if e.attr.getLsbD 4 then some e.cluster else none
  | .error _ => none

/-- The start cluster of the directory that `fs_dopen` takes a name for, if there is any.  Every
name with a dot in front stands for the root directory. -/
inductive Opens (bpb : Bpb) (disk : Region Byte) (V : List ℕ → ℕ → Prop) :
    List Byte → Option ℕ → Prop
  | root {name : List Byte} (hroot : isRoot name = true) : Opens bpb disk V name (some 0)
  | path (slash : Bool) {path : List (List Byte)} {r : Except Errno (Item × List ℕ)} {o : Option ℕ}
      (hnames : ∀ name ∈ path, GoodName name)
      (hroot : isRoot ((if slash then [0x2F] else []) ++ joinPath path) = false)
      (hresolves : Resolves bpb disk V 0 path r) (ho : dirOf r = o) :
      Opens bpb disk V ((if slash then [0x2F] else []) ++ joinPath path) o

section Open

variable (hss : SizeOk ss) (hsize : bpb.sectorSize = ss) (hcs : 0 < bpb.clusterSize)
  (hvol : Volume bpb disk V) (hfuel : Enough V fuel) {a : OpenFiles} {s : Fs}

include hss hsize hcs hvol hfuel

/-- A name that leads to no directory; the place of the list is left as it is. -/
theorem fatGetFirstDirentry_missing (h : Represents ss bpb disk V a s) {name : List Byte}
    (hopens : Opens bpb disk V name none) (stack : Direntry) (fatDir : FatDir) :
    ∃ fatDir' d', fatGetFirstDirentry ss bpb fuel stack s name fatDir =
        some (false, fatDir', { s with d := d' }) ∧ Cached ss bpb disk V d' := by
  generalize ho : (none : Option ℕ) = o at hopens
  cases hopens with
  | root hroot => exact nomatch ho
  | @path slash path r _ hnames hroot hresolves hdir =>
      obtain ⟨p', hfind, hd', hresult⟩ := fatGetFileStartCluster_spec hss hsize hcs hvol hfuel
        hresolves hnames slash (p := ⟨s.d, 0, fatDir⟩) rfl h.cached stack
      refine ⟨p'.fatDir, p'.d, ?_, hd'⟩
      rw [fatGetFirstDirentry, hroot, if_neg Bool.false_ne_true, hfind, Option.bind_eq_bind,
        Option.bind_some]
      cases r with
      | error e => rfl
      | ok el =>
          obtain ⟨e, l⟩ := el
          obtain ⟨hfor, -⟩ := hresult e l rfl
          have hfile : e.attr.getLsbD 4 = false := by
            by_contra hset
            rw [dirOf, if_pos (by simpa using hset)] at hdir
            exact nomatch ho.trans hdir.symm
          dsimp only [Except.map]
          rw [hfor.attr, hfile, if_neg Bool.false_ne_true]

/-- A name that leads to a directory: the list starts there. -/
theorem fatGetFirstDirentry_found (h : Represents ss bpb disk V a s) {name : List Byte} {c : ℕ}
    (hopens : Opens bpb disk V name (some c)) (stack : Direntry) (fatDir : FatDir) :
    ∃ fatDir' d', fatGetFirstDirentry ss bpb fuel stack s name fatDir =
        fatGetNextDirentry ss bpb stack { s with d := d', direntryCluster := c, direntryIndex := 0 }
          fatDir' ∧ Cached ss bpb disk V d' := by
  generalize ho : some c = o at hopens
  cases hopens with
  | root hroot =>
      obtain rfl : c = 0 := Option.some.inj ho
      exact ⟨fatDir, s.d, by rw [fatGetFirstDirentry, if_pos hroot], h.cached⟩
  | @path slash path r _ hnames hroot hresolves hdir =>
      obtain ⟨p', hfind, hd', hresult⟩ := fatGetFileStartCluster_spec hss hsize hcs hvol hfuel
        hresolves hnames slash (p := ⟨s.d, 0, fatDir⟩) rfl h.cached stack
      refine ⟨p'.fatDir, p'.d, ?_, hd'⟩
      rw [fatGetFirstDirentry, hroot, if_neg Bool.false_ne_true, hfind, Option.bind_eq_bind,
        Option.bind_some]
      cases r with
      | error e => exact nomatch ho.trans hdir.symm
      | ok el =>
          obtain ⟨e, l⟩ := el
          obtain ⟨hfor, hcluster⟩ := hresult e l rfl
          have hset : e.attr.getLsbD 4 = true := by
            by_contra hfile
            rw [dirOf, if_neg hfile] at hdir
            exact nomatch ho.trans hdir.symm
          rw [dirOf, if_pos hset] at hdir
          obtain rfl : c = e.cluster := Option.some.inj (ho.trans hdir.symm)
          dsimp only [Except.map]
          rw [hfor.attr, hset, if_pos rfl, hcluster]

theorem fsDopen_missing (h : Represents ss bpb disk V a s) {name : List Byte} {todo : List Item}
    (hcursor : Cursor bpb disk V s todo) (hopens : Opens bpb disk V name none) (stack : Direntry)
    (fatDir : FatDir) :
    ∃ s', fsDopen ss bpb fuel stack s name fatDir = some (none, s') ∧
      Represents ss bpb disk V a s' ∧ Cursor bpb disk V s' todo := by
  have h₁ : Represents ss bpb disk V a { s with fsCounter := s.fsCounter + 1 } :=
    h.keep h.cached rfl rfl (Nat.le_succ _)
  obtain ⟨fatDir', d', hfirst, hd'⟩ :=
    fatGetFirstDirentry_missing hss hsize hcs hvol hfuel h₁ hopens stack fatDir
  exact ⟨{ s with d := d', fsCounter := s.fsCounter + 1 }, by rw [fsDopen, hfirst]; rfl,
    h₁.keep hd' rfl rfl le_rfl, hcursor⟩

/-- An empty directory is not opened. -/
theorem fsDopen_found (h : Represents ss bpb disk V a s) {name : List Byte} {c : ℕ}
    (hopens : Opens bpb disk V name (some c)) {items : List Item}
    (hdir : DirAt bpb disk V c items) (stack : Direntry) (fatDir : FatDir) :
    ∃ r s', fsDopen ss bpb fuel stack s name fatDir = some (r, s') ∧
      Represents ss bpb disk V a s' ∧ Cursor bpb disk V s' items.tail ∧
      match items with
      | [] => r = none
      | e :: _ => ∃ handle, r = some handle ∧ HandleFor (some e) handle := by
  have h₁ : Represents ss bpb disk V a { s with fsCounter := s.fsCounter + 1 } :=
    h.keep h.cached rfl rfl (Nat.le_succ _)
  obtain ⟨fatDir₁, d₁, hfirst, hd₁⟩ :=
    fatGetFirstDirentry_found hss hsize hcs hvol hfuel h₁ hopens stack fatDir
  have h₂ : Represents ss bpb disk V a { s with
      d := d₁, fsCounter := s.fsCounter + 1, direntryCluster := c, direntryIndex := 0 } :=
    h₁.keep hd₁ rfl rfl le_rfl
  obtain ⟨found, fatDir', s', hnext, hs', hcursor, hhandle⟩ := fatGetNextDirentry_spec hss hsize hcs
    hvol h₂ (.inr ⟨items, hdir, rfl⟩) stack fatDir₁
  refine ⟨_, s', by rw [fsDopen, hfirst, hnext]; rfl, hs', hcursor, ?_⟩
  cases items with
  | nil =>
      have hfound : (!found) = true := hhandle
      rw [Bool.not_eq_true'] at hfound
      rw [hfound]
      rfl
  | cons e rest =>
      obtain ⟨hstatus, hnames⟩ := hhandle
      have hfound : found = true := by simpa using hstatus
      subst hfound
      exact ⟨_, rfl, rfl, hnames⟩

end Open

/-! ### Calls -/

/-- A call of a file function, or of a directory function with the number of a handle. -/
inductive DirCall
  | file (call : FsCall)
  | dopen (i : ℕ) (name : List Byte)
  | dread (i : ℕ)

inductive DirReply
  | file (r : FsReply)
  | opened (ok : Bool)
  | entry (r : Option Dirent)

/-- The calls as the driver performs them; each handle is the `privdata` of a directory. -/
def DirCall.perform (ss : ℕ) (bpb : Bpb) (fuel : ℕ) (stack : Direntry) (fatDir : FatDir) :
    DirCall → Fs × (ℕ → DirHandle) → Option (DirReply × Fs × (ℕ → DirHandle))
  | .file call, (s, handles) =>
      (call.perform ss bpb fuel stack s).map fun (r, s) => (.file r, s, handles)
  | .dopen i name, (s, handles) =>
      (fsDopen ss bpb fuel stack s name fatDir).map fun (r, s) =>
        (.opened r.isSome, s, r.elim handles (Function.update handles i))
  | .dread i, (s, handles) =>
      (fsDread ss bpb stack fuel s (handles i)).map fun (r, handle, s) =>
        (.entry r, s, Function.update handles i handle)

/-- The open files, the file that each handle holds, and the files still to be listed. -/
structure Listings where
  files : OpenFiles
  held : ℕ → Option (Option Item)
  todo : List Item

/-- The calls on `Listings`; `lookDir` gives the files of a directory. -/
def DirCall.spec (look : List (List Byte) → Except Errno (List Byte))
    (lookDir : List Byte → Option (List Item)) :
    DirCall → Listings → Option (DirReply × Listings)
  | .file call, t => (call.spec look t.files).map fun (r, files) => (.file r, { t with files })
  | .dopen i name, t =>
      match lookDir name with
      | none => some (.opened false, t)
      | some [] => some (.opened false, { t with todo := [] })
      | some (e :: rest) =>
          some (.opened true,
            { t with held := Function.update t.held i (some (some e)), todo := rest })
  | .dread i, t => (t.held i).map fun held =>
      let (r, held, todo) := dreadFrom held t.todo
      (.entry r, { t with held := Function.update t.held i (some held), todo })

/-- What `lookDir` says about a name is so on the disk. -/
def ShowsDir (bpb : Bpb) (disk : Region Byte) (V : List ℕ → ℕ → Prop) (fuel : ℕ)
    (lookDir : List Byte → Option (List Item)) (name : List Byte) : Prop :=
  match lookDir name with
  | none => Opens bpb disk V name none
  | some items => items.length < fuel ∧ ∃ c, Opens bpb disk V name (some c) ∧
      DirAt bpb disk V c items

/-- The names in a call are as `look` and `lookDir` say, and a file is not too large. -/
def DirCall.Ok (bpb : Bpb) (disk : Region Byte) (V : List ℕ → ℕ → Prop) (fuel : ℕ)
    (look : List (List Byte) → Except Errno (List Byte))
    (lookDir : List Byte → Option (List Item)) : DirCall → Prop
  | .file (.openPath _ path) => Shows bpb disk V look path ∧
      ∀ data, look path = .ok data → bpb.IntSize data.length
  | .dopen _ name => ShowsDir bpb disk V fuel lookDir name
  | _ => True

/-- The driver and the handles stand for the lists. -/
structure Listings.Represents (ss : ℕ) (bpb : Bpb) (disk : Region Byte) (V : List ℕ → ℕ → Prop)
    (fuel : ℕ) (t : Listings) (x : Fs × (ℕ → DirHandle)) : Prop where
  files : UsbMass.Represents ss bpb disk V t.files x.1
  cursor : Cursor bpb disk V x.1 t.todo
  handle : ∀ i held, t.held i = some held → HandleFor held (x.2 i)
  fuel : t.todo.length + 1 < fuel

/-- The file functions leave the place of the list alone. -/
theorem FsCall.perform_cursor {call : FsCall} {stack : Direntry} {s s' : Fs} {r : FsReply}
    (h : call.perform ss bpb fuel stack s = some (r, s')) {todo : List Item}
    (hcursor : Cursor bpb disk V s todo) : Cursor bpb disk V s' todo := by
  -- only `fs_dopen` and `fs_dread` move the cursor
  have hsame : s'.direntryCluster = s.direntryCluster ∧ s'.direntryIndex = s.direntryIndex := by
    cases call with
    | openPath slash path =>
        obtain ⟨⟨r', s₁⟩, hopen, heq⟩ := Option.map_eq_some_iff.mp h
        obtain ⟨-, rfl⟩ := Prod.mk.inj heq
        unfold fsOpen at hopen
        split at hopen
        · obtain ⟨-, rfl⟩ := Prod.mk.inj (Option.some.inj hopen)
          exact ⟨rfl, rfl⟩
        · obtain ⟨⟨ret, p⟩, -, hret⟩ := Option.bind_eq_some_iff.mp hopen
          cases ret <;> obtain ⟨-, rfl⟩ := Prod.mk.inj (Option.some.inj hret) <;> exact ⟨rfl, rfl⟩
    | close slot =>
        have hclose : (fsClose s slot).2 = s' := congrArg Prod.snd (Option.some.inj h)
        rw [← hclose, fsClose]
        split <;> exact ⟨rfl, rfl⟩
    | lseek slot offset whence =>
        have hseek : (fsLseek s slot offset whence).2 = s' := congrArg Prod.snd (Option.some.inj h)
        rw [← hseek, fsLseek]
        split
        · exact ⟨rfl, rfl⟩
        · dsimp only
          split <;> exact ⟨rfl, rfl⟩
    | read slot size =>
        obtain ⟨⟨r', s₁⟩, hread, heq⟩ := Option.map_eq_some_iff.mp h
        obtain ⟨-, rfl⟩ := Prod.mk.inj heq
        unfold fsRead at hread
        split at hread
        · obtain ⟨-, rfl⟩ := Prod.mk.inj (Option.some.inj hread)
          exact ⟨rfl, rfl⟩
        · split_ifs at hread
          · obtain ⟨-, rfl⟩ := Prod.mk.inj (Option.some.inj hread)
            exact ⟨rfl, rfl⟩
          · obtain ⟨⟨bytes, d⟩, -, hret⟩ := Option.bind_eq_some_iff.mp hread
            obtain ⟨-, rfl⟩ := Prod.mk.inj (Option.some.inj hret)
            exact ⟨rfl, rfl⟩
  unfold Cursor
  rw [hsame.1, hsame.2]
  exact hcursor

section Session

variable (hss : SizeOk ss) (hsize : bpb.sectorSize = ss) (hcs : 0 < bpb.clusterSize)
  (hvol : Volume bpb disk V) (hfuel : Enough V fuel)
  {look : List (List Byte) → Except Errno (List Byte)} {lookDir : List Byte → Option (List Item)}

include hss hsize hcs hvol hfuel

/-- Any call. -/
theorem DirCall.perform_spec {call : DirCall} (hcall : call.Ok bpb disk V fuel look lookDir)
    {t t' : Listings} {x : Fs × (ℕ → DirHandle)} (h : t.Represents ss bpb disk V fuel x)
    (hsized : ∀ c, call = .file c → t.files.IntSized bpb) {reply : DirReply}
    (hspec : call.spec look lookDir t = some (reply, t')) (stack : Direntry) (fatDir : FatDir) :
    ∃ x', call.perform ss bpb fuel stack fatDir x = some (reply, x') ∧
      t'.Represents ss bpb disk V fuel x' := by
  obtain ⟨s, handles⟩ := x
  obtain ⟨hfiles, hcursor, hhandle, hlen⟩ := h
  cases call with
  | file call =>
      obtain ⟨⟨r, files⟩, hcall', heq⟩ := Option.map_eq_some_iff.mp hspec
      obtain ⟨rfl, rfl⟩ := Prod.mk.inj heq
      obtain ⟨s', hperform, hs'⟩ := FsCall.perform_spec hss hsize hcs hvol hfuel
        (fun slash path hpath => by subst hpath; exact hcall.1) hfiles (hsized call rfl) hcall' stack
      exact ⟨(s', handles), by rw [DirCall.perform, hperform]; rfl, hs',
        FsCall.perform_cursor hperform hcursor, hhandle, hlen⟩
  | dopen i name =>
      rw [DirCall.Ok, ShowsDir] at hcall
      rw [DirCall.spec] at hspec
      cases hlook : lookDir name with
      | none =>
          rw [hlook] at hcall hspec
          obtain ⟨rfl, rfl⟩ := Prod.mk.inj (Option.some.inj hspec)
          obtain ⟨s', hopen, hs', hcursor'⟩ :=
            fsDopen_missing hss hsize hcs hvol hfuel hfiles hcursor hcall stack fatDir
          exact ⟨(s', handles), by rw [DirCall.perform, hopen]; rfl, hs', hcursor', hhandle, hlen⟩
      | some items =>
          rw [hlook] at hcall hspec
          obtain ⟨hitems, c, hopens, hdir⟩ := hcall
          obtain ⟨r, s', hopen, hs', hcursor', hr⟩ :=
            fsDopen_found hss hsize hcs hvol hfuel hfiles hopens hdir stack fatDir
          rw [DirCall.perform, hopen]
          -- an empty directory leaves the handle as it was
          cases items with
          | nil =>
              obtain ⟨rfl, rfl⟩ := Prod.mk.inj (Option.some.inj hspec)
              subst hr
              refine ⟨(s', handles), rfl, hs', hcursor', hhandle, ?_⟩
              exact (Nat.succ_le_succ (Nat.zero_le _)).trans_lt hlen
          | cons e rest =>
              obtain ⟨rfl, rfl⟩ := Prod.mk.inj (Option.some.inj hspec)
              obtain ⟨handle, rfl, hheld⟩ := hr
              exact ⟨(s', Function.update handles i handle), rfl, hs', hcursor',
                HandleFor.update hhandle hheld, hitems⟩
  | dread i =>
      obtain ⟨held, hheld, heq⟩ := Option.map_eq_some_iff.mp hspec
      obtain ⟨rfl, rfl⟩ := Prod.mk.inj heq
      obtain ⟨handle', s', hread, hs', hcursor', hhandle'⟩ :=
        fsDread_spec hss hsize hcs hvol hlen hfiles hcursor (hhandle i held hheld) stack
      exact ⟨(s', Function.update handles i handle'), by rw [DirCall.perform, hread]; rfl, hs',
        hcursor', HandleFor.update hhandle hhandle',
        (Nat.succ_le_succ (length_dreadFrom_le held t.todo)).trans_lt hlen⟩

omit hss hsize hcs hvol hfuel in
theorem DirCall.spec_intSized {call : DirCall} (hcall : call.Ok bpb disk V fuel look lookDir)
    {t t' : Listings} (h : t.files.IntSized bpb) {reply : DirReply}
    (hspec : call.spec look lookDir t = some (reply, t')) : t'.files.IntSized bpb := by
  cases call with
  | file call =>
      obtain ⟨⟨r, files⟩, hcall', heq⟩ := Option.map_eq_some_iff.mp hspec
      obtain ⟨-, rfl⟩ := Prod.mk.inj heq
      exact FsCall.spec_intSized (fun slash path hpath => by subst hpath; exact hcall.2) h hcall'
  | dopen i name =>
      rw [DirCall.spec] at hspec
      split at hspec <;> obtain ⟨-, rfl⟩ := Prod.mk.inj (Option.some.inj hspec) <;> exact h
  | dread i =>
      obtain ⟨held, -, heq⟩ := Option.map_eq_some_iff.mp hspec
      obtain ⟨-, rfl⟩ := Prod.mk.inj heq
      exact h

/-- A session with files and lists. -/
theorem DirCall.run_spec {calls : List DirCall}
    (hcalls : ∀ call ∈ calls, call.Ok bpb disk V fuel look lookDir) {t t' : Listings}
    {x : Fs × (ℕ → DirHandle)} (h : t.Represents ss bpb disk V fuel x)
    (hsized : ∀ c, .file c ∈ calls → t.files.IntSized bpb) {replies : List DirReply}
    (hspec : Replies.run (DirCall.spec look lookDir) calls t = some (replies, t'))
    (stack : Direntry) (fatDir : FatDir) :
    ∃ x', Replies.run (DirCall.perform ss bpb fuel stack fatDir) calls x = some (replies, x') := by
  have hsim : ∃ x', Replies.run (DirCall.perform ss bpb fuel stack fatDir) calls x =
      some (replies, x') ∧ t'.Represents ss bpb disk V fuel x' ∧
        ∀ c, .file c ∈ calls → t'.files.IntSized bpb := by
    -- without a call for a file, the sizes of those that are open do not matter
    refine Replies.run_simulates (P := fun call => call ∈ calls)
      (R := fun t x => t.Represents ss bpb disk V fuel x ∧
        ∀ c, .file c ∈ calls → t.files.IntSized bpb) ?_ (fun _ hmem => hmem) ⟨h, hsized⟩ hspec
    rintro call t x reply t' hmem ⟨hR, hsized⟩ hreply
    obtain ⟨x', hperform, hR'⟩ := DirCall.perform_spec hss hsize hcs hvol hfuel (hcalls call hmem)
      hR (fun c hc => hsized c (hc ▸ hmem)) hreply stack fatDir
    exact ⟨x', hperform, hR', fun c hc =>
      DirCall.spec_intSized (hcalls call hmem) (hsized c hc) hreply⟩
  obtain ⟨x', hrun, -⟩ := hsim
  exact ⟨x', hrun⟩

end Session

/-! ### One list among file calls -/

/-- The file calls of a session. -/
def DirCall.toFile : DirCall → Option FsCall
  | .file call => some call
  | _ => none

def DirCall.isDread : DirCall → Bool
  | .dread _ => true
  | _ => false

/-- The replies to file calls. -/
def DirReply.toFile : DirReply → Option FsReply
  | .file r => some r
  | _ => none

/-- The replies of `fs_dread`. -/
def DirReply.toEntry : DirReply → Option (Option Dirent)
  | .entry r => some r
  | _ => none

/-- A file call, or a call for the list of the handle `i`. -/
def DirCall.Only (i : ℕ) : DirCall → Prop
  | .file _ => True
  | .dopen _ _ => False
  | .dread j => j = i

section Single

variable {look : List (List Byte) → Except Errno (List Byte)}
  (lookDir : List Byte → Option (List Item)) {calls : List DirCall} {i : ℕ}

/-- The handle shows what it holds and then all that is still to be listed. -/
theorem DirCall.run_single (honly : ∀ call ∈ calls, call.Only i) {t : Listings}
    {held : Option Item} (hheld : t.held i = some held) (hend : held = none → t.todo = [])
    {freplies : List FsReply} {b : OpenFiles}
    (hfiles : Replies.run (FsCall.spec look) (calls.filterMap DirCall.toFile) t.files =
      some (freplies, b)) :
    ∃ replies t', Replies.run (DirCall.spec look lookDir) calls t = some (replies, t') ∧
      replies.filterMap DirReply.toFile = freplies ∧
      replies.filterMap DirReply.toEntry = (List.range (calls.countP DirCall.isDread)).map
        fun n => (dirents (held.toList ++ t.todo))[n]? := by
  induction calls generalizing t held freplies with
  | nil =>
      obtain ⟨rfl, -⟩ := Prod.mk.inj (Option.some.inj hfiles)
      exact ⟨[], t, rfl, rfl, rfl⟩
  | cons call calls ih =>
      have honly' : ∀ call ∈ calls, call.Only i := fun x hx => honly x (List.mem_cons_of_mem _ hx)
      have hcall := honly call List.mem_cons_self
      cases call with
      -- a call on files leaves the listing alone
      | file call =>
          obtain ⟨⟨r, files⟩, hspec, hrest⟩ := Option.bind_eq_some_iff.mp hfiles
          obtain ⟨⟨rs, b'⟩, hrun, heq⟩ := Option.map_eq_some_iff.mp hrest
          obtain ⟨rfl, rfl⟩ := Prod.mk.inj heq
          obtain ⟨replies, t', hreplies, hfile, hentry⟩ :=
            ih (t := { t with files }) honly' hheld hend hrun
          refine ⟨.file r :: replies, t', ?_, ?_, hentry⟩
          · rw [Replies.run, DirCall.spec, hspec]
            dsimp only [Option.map_some, Option.bind_some]
            rw [hreplies]
            rfl
          · rw [← hfile]
            rfl
      | dopen j name => exact hcall.elim
      | dread j =>
          obtain rfl : j = i := hcall
          -- a read of the directory takes the first entry off what is shown
          obtain ⟨hhead, htail, hend'⟩ := dreadFrom_spec held t.todo hend
          obtain ⟨replies, t', hreplies, hfile, hentry⟩ := ih
            (t := { t with
              held := Function.update t.held j (some (dreadFrom held t.todo).2.1)
              todo := (dreadFrom held t.todo).2.2 })
            honly' (Function.update_self j _ t.held) hend' hfiles
          refine ⟨.entry (dreadFrom held t.todo).1 :: replies, t', ?_, hfile, ?_⟩
          · rw [Replies.run, DirCall.spec, hheld]
            dsimp only [Option.map_some, Option.bind_some]
            rw [hreplies]
            rfl
          · have hcount : (DirCall.dread j :: calls).countP DirCall.isDread =
                calls.countP DirCall.isDread + 1 := List.countP_cons_of_pos rfl
            have hcons : (DirReply.entry (dreadFrom held t.todo).1 :: replies).filterMap
                DirReply.toEntry = (dreadFrom held t.todo).1 :: replies.filterMap
                DirReply.toEntry := rfl
            rw [hcount, List.range_succ_eq_map, List.map_cons, List.map_map, hcons, hentry, hhead,
              List.head?_eq_getElem?]
            dsimp only
            rw [htail]
            congr 1
            refine List.map_congr_left fun n _ => ?_
            rw [List.getElem?_tail]
            rfl

end Single

section Listing

variable (hss : SizeOk ss) (hsize : bpb.sectorSize = ss) (hcs : 0 < bpb.clusterSize)
  (hvol : Volume bpb disk V) (hfuel : Enough V fuel) {a : OpenFiles} {s : Fs}
  {look : List (List Byte) → Except Errno (List Byte)} {calls : List DirCall} {i : ℕ}

include hss hsize hcs hvol hfuel

/-- The same for the driver. -/
theorem DirCall.perform_single (hs : Represents ss bpb disk V a s) {e : Item} {todo : List Item}
    (hcursor : Cursor bpb disk V s todo) (htodo : todo.length + 1 < fuel) {handles : ℕ → DirHandle}
    (hhandle : HandleFor (some e) (handles i)) (honly : ∀ call ∈ calls, call.Only i)
    (hlook : ∀ slash path, .file (.openPath slash path) ∈ calls → Shows bpb disk V look path ∧
      ∀ data, look path = .ok data → bpb.IntSize data.length)
    (hsized : ∀ c, .file c ∈ calls → a.IntSized bpb) {freplies : List FsReply} {b : OpenFiles}
    (hfiles : Replies.run (FsCall.spec look) (calls.filterMap DirCall.toFile) a =
      some (freplies, b))
    (stack : Direntry) (fatDir : FatDir) :
    ∃ replies x', Replies.run (DirCall.perform ss bpb fuel stack fatDir) calls (s, handles) =
        some (replies, x') ∧
      replies.filterMap DirReply.toFile = freplies ∧
      replies.filterMap DirReply.toEntry = (List.range (calls.countP DirCall.isDread)).map
        fun n => (dirents (e :: todo))[n]? := by
  let t : Listings := ⟨a, Function.update (fun _ => none) i (some (some e)), todo⟩
  have hheld : t.held i = some (some e) := Function.update_self i (some (some e)) fun _ => none
  have ht : t.Represents ss bpb disk V fuel (s, handles) := by
    refine ⟨hs, hcursor, fun j held hj => ?_, htodo⟩
    rcases eq_or_ne j i with rfl | hne
    · obtain rfl := Option.some.inj (hheld.symm.trans hj)
      exact hhandle
    · have hnone : t.held j = none := Function.update_of_ne hne (some (some e)) fun _ => none
      exact nomatch hnone.symm.trans hj
  have hcalls : ∀ call ∈ calls, call.Ok bpb disk V fuel look fun _ => none := by
    intro call hmem
    have hcall := honly call hmem
    cases call with
    | file call =>
        cases call with
        | openPath slash path => exact hlook slash path hmem
        | _ => trivial
    | dopen _ _ => exact hcall.elim
    | dread _ => trivial
  obtain ⟨replies, t', hrun, hfile, hentry⟩ :=
    DirCall.run_single (fun _ => none) honly hheld (fun h => nomatch h) hfiles
  obtain ⟨x', hperform⟩ :=
    DirCall.run_spec hss hsize hcs hvol hfuel hcalls ht hsized hrun stack fatDir
  exact ⟨replies, x', hperform, hfile, hentry⟩

end Listing

/-! ### A disk with two directories -/

/-- SAVES -/
def listName : List Byte := [0x53, 0x41, 0x56, 0x45, 0x53]

/-- A short entry with the name and extension, the attributes and the low half of the cluster. -/
def listEntry (name : List Byte) (attr cluster : Byte) : List Byte :=
  name ++ attr :: (List.replicate 14 0 ++ [cluster, 0, 0, 0, 0, 0])

/-- The root directory has a directory with one file and an empty file. -/
def listDisk : Region Byte := fun i =>
  if i < 1024 then ([0xFF, 0xFF] : List Byte).getD (i - 516) 0
  else if i < 1536 then
    (listEntry [0x53, 0x41, 0x56, 0x45, 0x53, 0x20, 0x20, 0x20, 0x20, 0x20, 0x20] 0x10 2 ++
      listEntry [0x43, 0x48, 0x45, 0x41, 0x54, 0x53, 0x20, 0x20, 0x54, 0x58, 0x54] 0x20 0).getD
      (i - 1024) 0
  else (listEntry [0x41, 0x20, 0x20, 0x20, 0x20, 0x20, 0x20, 0x20, 0x20, 0x20, 0x20] 0x20 0).getD
    (i - 1536) 0

def listRoot : List Item :=
  [⟨[], listName, 0x10, 0, 2⟩,
    ⟨[], [0x43, 0x48, 0x45, 0x41, 0x54, 0x53, 0x2E, 0x54, 0x58, 0x54], 0x20, 0, 0⟩]

def listSaves : List Item := [⟨[], [0x41], 0x20, 0, 0⟩]

def ListFile (l : List ℕ) (size : ℕ) : Prop := l = [2] ∧ size = 0

theorem listChain : sampleBpb.IsChain listDisk 2 [2] := by
  refine ⟨.last (by decide), fun c hc => ?_, List.isChain_singleton _⟩
  obtain rfl : c = 2 := by simpa using hc
  exact ⟨by decide, by decide, by decide, by decide⟩

theorem listVolume : Volume sampleBpb listDisk ListFile where
  chain := by
    rintro l size ⟨rfl, -⟩
    exact ⟨2, listChain⟩
  cover := by
    rintro l size ⟨rfl, rfl⟩
    exact Nat.zero_le _
  apart := by
    rintro l l' size size' x ⟨rfl, rfl⟩ ⟨rfl, rfl⟩ - -
    exact ⟨rfl, rfl⟩
  seek := by
    rintro l size ⟨rfl, rfl⟩ i - j - m heq
    simp [Bpb.seekIndex] at heq

theorem listRoot_dirAt : DirAt sampleBpb listDisk ListFile 0 listRoot := by
  refine ⟨[], _, _, .root (by decide) (by decide), fun hne => absurd rfl hne, ?_, by decide⟩
  refine .item (by decide) (by decide) (by decide) (fun i hi => nomatch hi) ?_
    (.item (by decide) (by decide) (by decide) (fun i hi => nomatch hi) ?_
      (.ended (by decide) (by decide) (by decide)))
  all_goals exact ⟨by decide, by decide, by decide, by decide, by decide, by decide⟩

theorem listSaves_dirAt : DirAt sampleBpb listDisk ListFile 2 listSaves := by
  refine ⟨[2], _, _, .chain (fun h => nomatch h) rfl listChain (by decide) (by decide),
    fun _ => ⟨rfl, rfl⟩, ?_, by decide⟩
  refine .item (by decide) (by decide) (by decide) (fun i hi => nomatch hi) ?_
    (.ended (by decide) (by decide +kernel) (by decide +kernel))
  exact ⟨by decide +kernel, by decide +kernel, by decide +kernel, by decide +kernel,
    by decide +kernel, by decide +kernel⟩

theorem listName_good : ∀ name ∈ [listName], GoodName name := by
  intro name hname
  obtain rfl : name = listName := by simpa using hname
  exact ⟨by decide, by decide, by decide, by decide⟩

theorem listName_resolves : Resolves sampleBpb listDisk ListFile 0 [listName]
    (.ok (⟨[], listName, 0x10, 0, 2⟩, [2])) :=
  .last listRoot_dirAt rfl (.inr ⟨listChain, rfl, rfl⟩)

theorem listName_opens : Opens sampleBpb listDisk ListFile listName (some 2) :=
  .path false listName_good (by decide) listName_resolves rfl

theorem listVolume_enough : Enough ListFile 4 := by
  refine ⟨by decide, ?_⟩
  rintro l size ⟨rfl, -⟩
  decide

/-- What the local variable of `fs_dopen` holds before. -/
def listDir : FatDir := ⟨0, [], 0, 0, fun _ => ⟨0, 0⟩⟩

def listFs : Fs := { sampleFs with
  d := ⟨scacheInit (fun _ => 0xEE) listDisk, 0, fun _ => 0, 0xFFFFFFFF, -1⟩ }

theorem listFs_represents : Represents 512 sampleBpb listDisk ListFile (fun _ => none) listFs :=
  Fs.Mounted.represents listVolume ⟨sound_scacheInit _ _ _, rfl, fun _ _ => rfl⟩

/-! ### Whole lists -/

/-- A list of a directory is complete and in order, and at its end it stays there, whatever is
done with files between the calls; the files behave as without it. -/
theorem directoryListing_complete (hss : SizeOk ss) (hsize : bpb.sectorSize = ss)
    (hcs : 0 < bpb.clusterSize) (hvol : Volume bpb disk V) (hfuel : Enough V fuel) {a : OpenFiles}
    {s : Fs} (hs : Represents ss bpb disk V a s) (hsized : a.IntSized bpb) {name : List Byte}
    {c : ℕ} (hopens : Opens bpb disk V name (some c)) {items : List Item}
    (hdir : DirAt bpb disk V c items) (hne : items ≠ []) (hitems : items.length < fuel) {i : ℕ}
    {calls : List DirCall} (honly : ∀ call ∈ calls, call.Only i)
    {look : List (List Byte) → Except Errno (List Byte)}
    (hlook : ∀ slash path, .file (.openPath slash path) ∈ calls → Shows bpb disk V look path)
    (hint : ∀ slash path, .file (.openPath slash path) ∈ calls →
      ∀ data, look path = .ok data → bpb.IntSize data.length)
    {freplies : List FsReply} {b : OpenFiles}
    (hfiles : Replies.run (FsCall.spec look) (calls.filterMap DirCall.toFile) a =
      some (freplies, b))
    (handles : ℕ → DirHandle) (stack : Direntry) (fatDir : FatDir) :
    ∃ replies x', Replies.run (DirCall.perform ss bpb fuel stack fatDir) (.dopen i name :: calls)
        (s, handles) = some (.opened true :: replies, x') ∧
      replies.filterMap DirReply.toFile = freplies ∧
      replies.filterMap DirReply.toEntry =
        (List.range (calls.countP DirCall.isDread)).map fun n => (dirents items)[n]? := by
  obtain ⟨e, rest, rfl⟩ := List.exists_cons_of_ne_nil hne
  obtain ⟨r, s₁, hopen, hs₁, hcursor, handle, rfl, hhandle⟩ :=
    fsDopen_found hss hsize hcs hvol hfuel hs hopens hdir stack fatDir
  have hheld : HandleFor (some e) (Function.update handles i handle i) := by
    rw [Function.update_self]
    exact hhandle
  obtain ⟨replies, x', hrun, hfile, hentry⟩ := DirCall.perform_single hss hsize hcs hvol hfuel hs₁
    hcursor hitems hheld honly (fun slash path hmem => ⟨hlook slash path hmem, hint slash path hmem⟩)
    (fun _ _ => hsized) hfiles stack fatDir
  refine ⟨replies, x', ?_, hfile, hentry⟩
  rw [Replies.run, DirCall.perform, hopen]
  dsimp only [Option.map_some, Option.bind_some, Option.elim_some]
  rw [hrun]
  rfl

theorem directoryListing_complete_listFs :
    ∃ replies x', Replies.run
        (DirCall.perform 512 sampleBpb 4 ⟨0, fun _ => 0xEE, fun _ => 0xEE, 0, 0⟩ listDir)
        [.dopen 0 [0x2F], .dread 0, .file (.openPath true [listName]), .dread 0, .dread 0]
        (listFs, fun _ => ⟨true, listDir⟩) = some (.opened true :: replies, x') ∧
      replies.filterMap DirReply.toFile = [.opened (.ok 0)] ∧
      replies.filterMap DirReply.toEntry =
        [some ⟨true, 0, listName⟩,
          some ⟨false, 0, [0x43, 0x48, 0x45, 0x41, 0x54, 0x53, 0x2E, 0x54, 0x58, 0x54]⟩, none] := by
  have hshows : Shows sampleBpb listDisk ListFile (fun _ => .ok []) [listName] :=
    ⟨listName_good, _, listName_resolves, rfl⟩
  have hfiles : Replies.run (FsCall.spec fun _ => .ok []) [.openPath true [listName]]
      (fun _ => none) =
      some ([.opened (.ok 0)], Function.update (fun _ => none) 0 (some ⟨[], 0⟩)) := rfl
  refine directoryListing_complete ⟨by norm_num, le_rfl⟩ rfl (by decide) listVolume
    listVolume_enough listFs_represents (fun _ _ h => nomatch h) (.root (by decide))
    listRoot_dirAt (by decide) (by decide) ?_ (fun slash path hmem => ?_)
    (fun _ _ _ data hdata => ?_) hfiles _ _ _
  · intro call hmem
    simp only [List.mem_cons, List.not_mem_nil, or_false] at hmem
    rcases hmem with rfl | rfl | rfl | rfl <;> first | rfl | trivial
  · have hpath : path = [listName] := by
      simp only [List.mem_cons, DirCall.file.injEq, FsCall.openPath.injEq, reduceCtorEq,
        List.not_mem_nil, or_false, false_or] at hmem
      exact hmem.2
    rw [hpath]
    exact hshows
  · cases hdata
    exact (by norm_num : 0 + 512 < 2 ^ 31)

/-- A list that is started takes over the place of one that is being read: of that one the file
that was read ahead is shown, and behind it the rest of the new list. -/
theorem directoryListing_takenOver (hss : SizeOk ss) (hsize : bpb.sectorSize = ss)
    (hcs : 0 < bpb.clusterSize) (hvol : Volume bpb disk V) (hfuel : Enough V fuel) {a : OpenFiles}
    {s : Fs} (hs : Represents ss bpb disk V a s) {name name' : List Byte} {c c' : ℕ}
    (hopens : Opens bpb disk V name (some c)) (hopens' : Opens bpb disk V name' (some c'))
    {e e' : Item} {rest rest' : List Item} (hdir : DirAt bpb disk V c (e :: rest))
    (hdir' : DirAt bpb disk V c' (e' :: rest')) (hitems : (e' :: rest').length < fuel) {i j : ℕ}
    (hij : i ≠ j) (n : ℕ) (handles : ℕ → DirHandle) (stack : Direntry) (fatDir : FatDir) :
    ∃ replies x', Replies.run (DirCall.perform ss bpb fuel stack fatDir)
        (.dopen i name :: .dopen j name' :: List.replicate n (.dread i)) (s, handles) =
        some (.opened true :: .opened true :: replies, x') ∧
      replies.filterMap DirReply.toEntry =
        (List.range n).map fun k => (dirents (e :: rest'))[k]? := by
  obtain ⟨r, s₁, hopen, hs₁, -, handle, rfl, hhandle⟩ :=
    fsDopen_found hss hsize hcs hvol hfuel hs hopens hdir stack fatDir
  obtain ⟨r', s₂, hopen', hs₂, hcursor, handle', rfl, -⟩ :=
    fsDopen_found hss hsize hcs hvol hfuel hs₁ hopens' hdir' stack fatDir
  have hheld : HandleFor (some e)
      (Function.update (Function.update handles i handle) j handle' i) := by
    rw [Function.update_of_ne hij, Function.update_self]
    exact hhandle
  have honly : ∀ call ∈ List.replicate n (DirCall.dread i), call.Only i := by
    intro call hmem
    rw [List.eq_of_mem_replicate hmem]
    rfl
  have hfiles : Replies.run (FsCall.spec fun _ => .error .enoent)
      ((List.replicate n (DirCall.dread i)).filterMap DirCall.toFile) a = some ([], a) := by
    rw [List.filterMap_replicate_of_none rfl]
    rfl
  obtain ⟨replies, x', hrun, -, hentry⟩ := DirCall.perform_single hss hsize hcs hvol hfuel hs₂
    hcursor hitems hheld honly (fun slash path hmem => nomatch List.eq_of_mem_replicate hmem)
    (fun c hmem => nomatch List.eq_of_mem_replicate hmem) hfiles stack fatDir
  rw [List.countP_replicate, if_pos (show (DirCall.dread i).isDread = true from rfl)] at hentry
  refine ⟨replies, x', ?_, hentry⟩
  rw [Replies.run, DirCall.perform, hopen]
  dsimp only [Option.map_some, Option.bind_some, Option.elim_some]
  rw [Replies.run, DirCall.perform, hopen']
  dsimp only [Option.map_some, Option.bind_some, Option.elim_some]
  rw [hrun]
  rfl

theorem directoryListing_takenOver_listFs :
    ∃ replies x', Replies.run
        (DirCall.perform 512 sampleBpb 4 ⟨0, fun _ => 0xEE, fun _ => 0xEE, 0, 0⟩ listDir)
        [.dopen 0 listName, .dopen 1 [0x2F], .dread 0, .dread 0, .dread 0]
        (listFs, fun _ => ⟨true, listDir⟩) =
        some (.opened true :: .opened true :: replies, x') ∧
      replies.filterMap DirReply.toEntry =
        [some ⟨false, 0, [0x41]⟩,
          some ⟨false, 0, [0x43, 0x48, 0x45, 0x41, 0x54, 0x53, 0x2E, 0x54, 0x58, 0x54]⟩, none] :=
  directoryListing_takenOver ⟨by norm_num, le_rfl⟩ rfl (by decide) listVolume listVolume_enough
    listFs_represents listName_opens (.root (by decide)) listSaves_dirAt listRoot_dirAt (by decide)
    (by decide) 3 _ _ _

end Ps2rd.UsbMass
