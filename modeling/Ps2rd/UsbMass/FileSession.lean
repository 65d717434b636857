import Ps2rd.Lib.Replies
import Ps2rd.UsbMass.FileSystem
import Ps2rd.UsbMass.PathLookup

/-!
# Sessions with files

Files are opened by their paths, read, moved about in and closed, in any order and several of
them at a time.  All of this goes through one sector cache, one sector pointer and one part of
one cluster chain.  The files behave as byte lists with a place in them.
-/

namespace Ps2rd.UsbMass

variable {ss : ℕ} {bpb : Bpb} {disk : Region Byte} {V : List ℕ → ℕ → Prop} {fuel : ℕ}

/-! ### One read -/

/-- Nothing is read. -/
theorem fatReadFile_zero (hfuel : 0 < fuel) (d : Driver) (fatDir : FatDir) (filePos : ℕ) :
    fatReadFile ss bpb fuel d fatDir filePos 0 = some ([], d) := by
  obtain ⟨fuel, rfl⟩ := Nat.exists_eq_add_of_le' (Nat.one_le_of_lt hfuel)
  unfold fatReadFile
  dsimp only
  split_ifs
  · rfl
  · rw [whileM_of_not (by simp)]
    rfl

/-- The data of a file. -/
def Bpb.data (bpb : Bpb) (disk : Region Byte) (e : Item) (l : List ℕ) : List Byte :=
  (bpb.content disk l).take e.size

theorem FileAt.length_data (hvol : Volume bpb disk V) {e : Item} {l : List ℕ}
    (h : FileAt bpb disk V e l) : (bpb.data disk e l).length = e.size := by
  rcases h with ⟨-, rfl, hzero⟩ | ⟨-, hV⟩
  · rw [Bpb.data, hzero]
    rfl
  · rw [Bpb.data, List.length_take, Bpb.length_content]
    exact min_eq_left (hvol.cover hV)

/-! ### Calls -/

/-- A call of a file function; a path has its names, and perhaps a slash before them. -/
inductive FsCall
  | openPath (slash : Bool) (path : List (List Byte))
  | close (slot : ℕ)
  | lseek (slot offset whence : ℕ)
  | read (slot : ℕ) (size : Int32)

/-- What a call returns. -/
inductive FsReply
  | opened (r : Except Errno ℕ)
  | closed (r : Except Errno Unit)
  | place (r : Except Errno (Option ℕ))
  | bytes (r : Option (List Byte))

def FsCall.perform (ss : ℕ) (bpb : Bpb) (fuel : ℕ) (stack : Direntry) :
    FsCall → Fs → Option (FsReply × Fs)
  | .openPath slash path, s =>
      (fsOpen ss bpb fuel stack s ((if slash then [0x2F] else []) ++ joinPath path)).map
        fun (r, s) => (.opened r, s)
  | .close slot, s => let (r, s) := fsClose s slot; some (.closed r, s)
  | .lseek slot offset whence, s =>
      let (r, s) := fsLseek s slot offset whence; some (.place r, s)
  | .read slot size, s => (fsRead ss bpb fuel s slot size).map fun (r, s) => (.bytes r, s)

/-- A file that is open: its data and the place in it. -/
structure OpenFile where
  data : List Byte
  pos : ℕ

/-- The open files, by their slots. -/
abbrev OpenFiles := ℕ → Option OpenFile

/-- The calls on files that are byte lists; `look` gives the data behind a path.  A call for a
slot that is not open has no meaning. -/
def FsCall.spec (look : List (List Byte) → Except Errno (List Byte)) :
    FsCall → OpenFiles → Option (FsReply × OpenFiles)
  | .openPath _ path, a =>
      match (List.range maxFiles).find? fun i => (a i).isNone with
      | none => some (.opened (.error .emfile), a)
      | some i =>
          match look path with
          | .error e => some (.opened (.error e), a)
          | .ok data => some (.opened (.ok i), Function.update a i (some ⟨data, 0⟩))
  | .close slot, a => (a slot).map fun _ => (.closed (.ok ()), Function.update a slot none)
  | .lseek slot offset whence, a => (a slot).map fun f =>
      match seekTarget f.pos f.data.length offset whence with
      | none => (.place (.ok none), a)
      | some t =>
          let pos := min t f.data.length
          (.place (.ok (some pos)), Function.update a slot (some { f with pos := pos }))
  | .read slot size, a => (a slot).map fun f =>
      let bytes := (f.data.drop f.pos).take size.toNatClampNeg
      (.bytes (some bytes), Function.update a slot (some { f with pos := f.pos + bytes.length }))

/-- The sizes of the open files fit into the `int` variables of the driver. -/
def OpenFiles.IntSized (bpb : Bpb) (a : OpenFiles) : Prop :=
  ∀ i f, a i = some f → bpb.IntSize f.data.length

theorem OpenFiles.IntSized.update {a : OpenFiles} (h : a.IntSized bpb) {o : Option OpenFile}
    (ho : ∀ f, o = some f → bpb.IntSize f.data.length) (i : ℕ) :
    OpenFiles.IntSized bpb (Function.update a i o) := by
  intro j f hj
  rcases eq_or_ne j i with rfl | hne
  · exact ho f (by rwa [Function.update_self] at hj)
  · exact h j f (by rwa [Function.update_of_ne hne] at hj)

/-- A call leaves the sizes of the open files as they are, or opens one of a good size. -/
theorem FsCall.spec_intSized {look : List (List Byte) → Except Errno (List Byte)} {call : FsCall}
    (hcall : ∀ slash path, call = .openPath slash path →
      ∀ data, look path = .ok data → bpb.IntSize data.length)
    {a a' : OpenFiles} (h : a.IntSized bpb) {reply : FsReply}
    (hspec : call.spec look a = some (reply, a')) : a'.IntSized bpb := by
  cases call with
  | openPath slash path =>
      rw [FsCall.spec] at hspec
      cases hfree : (List.range maxFiles).find? fun i => (a i).isNone with
      | none =>
          rw [hfree] at hspec
          obtain ⟨-, rfl⟩ := Prod.mk.inj (Option.some.inj hspec)
          exact h
      | some i =>
          rw [hfree] at hspec
          -- only here a file comes in that was not open before
          cases hdata : look path with
          | error e =>
              rw [hdata] at hspec
              obtain ⟨-, rfl⟩ := Prod.mk.inj (Option.some.inj hspec)
              exact h
          | ok data =>
              rw [hdata] at hspec
              obtain ⟨-, rfl⟩ := Prod.mk.inj (Option.some.inj hspec)
              refine h.update (fun f hf => ?_) i
              cases hf
              exact hcall slash path rfl data hdata
  | close slot =>
      obtain ⟨f, -, heq⟩ := Option.map_eq_some_iff.mp hspec
      obtain ⟨-, rfl⟩ := Prod.mk.inj heq
      exact h.update (fun f hf => absurd hf (Option.some_ne_none f).symm) slot
  | lseek slot offset whence =>
      obtain ⟨f, hf, heq⟩ := Option.map_eq_some_iff.mp hspec
      split at heq
      · obtain ⟨-, rfl⟩ := Prod.mk.inj heq
        exact h
      · obtain ⟨-, rfl⟩ := Prod.mk.inj heq
        refine h.update (fun f' hf' => ?_) slot
        cases hf'
        exact h slot f hf
  | read slot size =>
      obtain ⟨f, hf, heq⟩ := Option.map_eq_some_iff.mp hspec
      obtain ⟨-, rfl⟩ := Prod.mk.inj heq
      refine h.update (fun f' hf' => ?_) slot
      cases hf'
      exact h slot f hf

/-- What a slot holds: nothing, or a file with a number that was given before. -/
def SlotFor (bpb : Bpb) (disk : Region Byte) (V : List ℕ → ℕ → Prop) (fsCounter : ℕ) :
    Option OpenFile → FsRec → FatDir → Prop
  | none, r, _ => r.fd = -1
  | some f, r, fatDir => 0 < r.fd ∧ r.fd ≤ fsCounter ∧ r.filePos = f.pos ∧
      f.pos ≤ f.data.length ∧
      ∃ e l, FileAt bpb disk V e l ∧ fatDir.For bpb e l ∧ f.data = bpb.data disk e l

/-- The driver stands for the open files. -/
structure Represents (ss : ℕ) (bpb : Bpb) (disk : Region Byte) (V : List ℕ → ℕ → Prop)
    (a : OpenFiles) (s : Fs) : Prop where
  cached : Cached ss bpb disk V s.d
  slot : ∀ i < maxFiles, SlotFor bpb disk V s.fsCounter (a i) (s.fsRec i) (s.fsDir i)
  out : ∀ i, maxFiles ≤ i → a i = none
  unique : ∀ i < maxFiles, ∀ j < maxFiles, (s.fsRec i).fd = (s.fsRec j).fd →
    (s.fsRec i).fd ≠ -1 → i = j

theorem SlotFor.mono {n m : ℕ} {o : Option OpenFile} {r : FsRec} {fatDir : FatDir}
    (h : SlotFor bpb disk V n o r fatDir) (hle : n ≤ m) : SlotFor bpb disk V m o r fatDir := by
  cases o with
  | none => exact h
  | some f =>
      obtain ⟨hpos, hfd, hfile⟩ := h
      exact ⟨hpos, by omega, hfile⟩

theorem SlotFor.fd_le {n : ℕ} {o : Option OpenFile} {r : FsRec} {fatDir : FatDir}
    (h : SlotFor bpb disk V n o r fatDir) : r.fd ≤ n := by
  cases o with
  | none =>
      have hfd : r.fd = -1 := h
      omega
  | some f => exact h.2.1

namespace Represents

variable {a : OpenFiles} {s s' : Fs} {i : ℕ}

theorem lt (h : Represents ss bpb disk V a s) {f : OpenFile} (hi : a i = some f) :
    i < maxFiles := by
  by_contra hge
  rw [h.out i (not_lt.mp hge)] at hi
  exact nomatch hi

theorem slot_some (h : Represents ss bpb disk V a s) {f : OpenFile} (hi : a i = some f) :
    SlotFor bpb disk V s.fsCounter (some f) (s.fsRec i) (s.fsDir i) := hi ▸ h.slot i (h.lt hi)

/-- The slot of an open file is found. -/
theorem findFileSlot (h : Represents ss bpb disk V a s) {f : OpenFile} (hi : a i = some f) :
    s.findFileSlot i = some i := by
  have hlt := h.lt hi
  have hpos := (h.slot_some hi).1
  unfold Fs.findFileSlot Fs.findSlot
  rw [List.find?_range_eq_some]
  refine ⟨by simp, List.mem_range.mpr hlt, fun j hj => ?_⟩
  have hne : (s.fsRec j).fd ≠ (s.fsRec i).fd := fun heq =>
    hj.ne (h.unique j (hj.trans hlt) i hlt heq (by omega))
  simpa using hne

/-- The first free slot. -/
theorem findSlot_free (h : Represents ss bpb disk V a s) :
    s.findSlot (-1) = (List.range maxFiles).find? fun i => (a i).isNone := by
  unfold Fs.findSlot
  refine List.find?_congr fun i hi => ?_
  have hslot := h.slot i (List.mem_range.mp hi)
  cases ha : a i with
  | none =>
      rw [ha] at hslot
      have hfd : (s.fsRec i).fd = -1 := hslot
      simp [hfd]
  | some f =>
      rw [ha] at hslot
      have hpos := hslot.1
      have hne : (s.fsRec i).fd ≠ -1 := by omega
      simp [hne]

/-- One slot changes, and the number in it is free, as it was or new. -/
theorem update (h : Represents ss bpb disk V a s) (hi : i < maxFiles) {o : Option OpenFile}
    {r : FsRec} {fatDir : FatDir} (hd : Cached ss bpb disk V s'.d)
    (hrec : s'.fsRec = Function.update s.fsRec i r)
    (hdir : s'.fsDir = Function.update s.fsDir i fatDir) (hcounter : s.fsCounter ≤ s'.fsCounter)
    (hslot : SlotFor bpb disk V s'.fsCounter o r fatDir)
    (hfd : r.fd = -1 ∨ r.fd = (s.fsRec i).fd ∨ s.fsCounter < r.fd) :
    Represents ss bpb disk V (Function.update a i o) s' := by
  have hfresh : ∀ j < maxFiles, j ≠ i → r.fd ≠ -1 → r.fd ≠ (s.fsRec j).fd := by
    intro j hj hne hused heq
    rcases hfd with hfree | hsame | hnew
    · exact hused hfree
    · exact hne (h.unique j hj i hi (heq.symm.trans hsame) (heq ▸ hused))
    · have hle := (h.slot j hj).fd_le
      omega
  refine ⟨hd, fun j hj => ?_, fun j hj => ?_, fun j hj k hk heq hused => ?_⟩
  · rw [hrec, hdir]
    rcases eq_or_ne j i with rfl | hne
    · simpa only [Function.update_self] using hslot
    · simpa only [Function.update_of_ne hne] using (h.slot j hj).mono hcounter
  · rw [Function.update_of_ne (by omega)]
    exact h.out j hj
  · rw [hrec] at heq hused
    rcases eq_or_ne j i with hj' | hj' <;> rcases eq_or_ne k i with hk' | hk'
    · rw [hj', hk']
    · rw [hj', Function.update_self] at heq hused
      rw [Function.update_of_ne hk'] at heq
      exact absurd heq (hfresh k hk hk' hused)
    · rw [Function.update_of_ne hj'] at heq hused
      rw [hk', Function.update_self] at heq
      exact absurd heq.symm (hfresh j hj hj' (heq ▸ hused))
    · rw [Function.update_of_ne hj'] at heq hused
      rw [Function.update_of_ne hk'] at heq
      exact h.unique j hj k hk heq hused

end Represents

section Session

variable (hss : SizeOk ss) (hsize : bpb.sectorSize = ss) (hcs : 0 < bpb.clusterSize)
  (hvol : Volume bpb disk V) (hfuel : Enough V fuel)

include hss hsize hcs hvol hfuel

/-- A read within a file gives its data, whatever part of whatever chain the driver has. -/
theorem fatReadFile_data {e : Item} {l : List ℕ} (hfile : FileAt bpb disk V e l) {d : Driver}
    (hd : Cached ss bpb disk V d) {fatDir : FatDir} (hdir : fatDir.For bpb e l)
    (hint : bpb.IntSize e.size) {pos n : ℕ} (hfit : pos + n ≤ e.size) :
    ∃ d', fatReadFile ss bpb fuel d fatDir pos n =
        some (((bpb.data disk e l).drop pos).take n, d') ∧ Cached ss bpb disk V d' := by
  rcases Nat.eq_zero_or_pos n with rfl | hn
  · exact ⟨d, by rw [fatReadFile_zero hfuel.1, List.take_zero], hd⟩
  rcases hfile with ⟨-, -, hzero⟩ | ⟨hchain, hV⟩
  · omega
  have hne : l ≠ [] := by
    obtain ⟨t, rfl⟩ := hchain.chain.exists_cons
    exact List.cons_ne_nil _ _
  have hrecords := hdir.records hint hne
  have hindex : (fatDir.chain 0).index = 0 := by
    rw [(hrecords 0 (by decide)).1, bpb.seekIndex_zero]
  obtain ⟨j, hj, hat, hle⟩ := chainRecordAt_spec bpb hindex pos
  obtain ⟨hseek, hx⟩ := hrecords j hj
  obtain ⟨d₁, hget, hpart⟩ := fatGetClusterChain_true hss hsize (hchain.drop hx) hd.sound
    fun hcluster => by
      rw [hseek] at hx ⊢
      exact hd.hasPart hvol hV hj hx hcluster
  have hcover := hvol.cover hV
  obtain ⟨d', hread, hpart'⟩ := fatReadFile_spec (k := 0) (n := n) hss hsize hchain hat hx hle hget
    hpart (by omega) hcs (hfuel.2 l e.size hV)
  refine ⟨d', ?_, ?_⟩
  · rw [hread, Nat.zero_mul, Nat.add_zero, Bpb.data, List.drop_take, List.take_take,
      min_eq_left (by omega)]
  · rcases hpart' with ⟨rfl, -⟩ | ⟨p, x, hfrom, hpart', -⟩
    · omega
    · refine .of_part hV hpart' ?_
      rw [Nat.add_zero, hseek] at hfrom
      rcases hfrom with ⟨rfl, rfl⟩ | ⟨m, hp, hlast⟩
      · exact .inl (hseek ▸ hx)
      · exact .inr ⟨j, hj, m, hp, hlast⟩

/-! ### Each call -/

variable {a : OpenFiles} {s : Fs} {i : ℕ} {f : OpenFile}

omit hss hsize hcs hvol hfuel in
theorem fsClose_spec (h : Represents ss bpb disk V a s) (hi : a i = some f) :
    ∃ s', fsClose s i = (.ok (), s') ∧ Represents ss bpb disk V (Function.update a i none) s' := by
  refine ⟨_, by rw [fsClose, h.findFileSlot hi], ?_⟩
  exact h.update (h.lt hi) h.cached rfl (Function.update_eq_self i s.fsDir).symm le_rfl rfl (.inl rfl)

omit hss hsize hcs hfuel in
theorem fsLseek_spec (h : Represents ss bpb disk V a s) (hi : a i = some f) (offset whence : ℕ) :
    ∃ s', fsLseek s i offset whence =
        (.ok ((seekTarget f.pos f.data.length offset whence).map (min · f.data.length)), s') ∧
      Represents ss bpb disk V
        (match seekTarget f.pos f.data.length offset whence with
          | none => a
          | some t => Function.update a i (some { f with pos := min t f.data.length })) s' := by
  obtain ⟨hpos, hcounter, hplace, hle, e, l, hfile, hfor, hdata⟩ := h.slot_some hi
  have hlen : (s.fsDir i).size = f.data.length := by
    rw [hfor.size, hdata, hfile.length_data hvol]
  unfold fsLseek
  rw [h.findFileSlot hi]
  dsimp only
  rw [hlen, hplace]
  cases seekTarget f.pos f.data.length offset whence with
  | none => exact ⟨s, rfl, h⟩
  | some t =>
      have hmin : (if f.data.length < t then f.data.length else t) = min t f.data.length := by
        split_ifs <;> omega
      dsimp only
      rw [hmin]
      refine ⟨_, rfl, ?_⟩
      exact h.update (h.lt hi) h.cached rfl (Function.update_eq_self i s.fsDir).symm le_rfl
        ⟨hpos, hcounter, rfl, min_le_right _ _, e, l, hfile, hfor, hdata⟩ (.inr (.inl rfl))

omit hss hsize hcs hvol hfuel in
/-- What is asked for, up to the end of a file for which nothing wraps. -/
theorem clipped_size (size : Int32) {len pos : ℕ} (hlen : len < 2 ^ 31) (hle : pos ≤ len) :
    (if len < (pos + size.toNatClampNeg) % 2 ^ 32 then Int32.ofInt (len - pos) else size
      ).toNatClampNeg = min size.toNatClampNeg (len - pos) := by
  have hlt := size.toNatClampNeg_lt
  rw [Nat.mod_eq_of_lt (by omega)]
  split_ifs with hcond
  · have hdiff : (len - pos : ℤ) = ((len - pos : ℕ) : ℤ) := by omega
    rw [hdiff, Int32.ofInt_eq_ofNat, Int32.toNatClampNeg_ofNat_of_lt (by omega)]
    omega
  · omega

theorem fsRead_spec (h : Represents ss bpb disk V a s) (hi : a i = some f)
    (hint : bpb.IntSize f.data.length) (size : Int32) :
    ∃ s', fsRead ss bpb fuel s i size =
        some (some ((f.data.drop f.pos).take size.toNatClampNeg), s') ∧
      Represents ss bpb disk V (Function.update a i
        (some { f with
          pos := f.pos + ((f.data.drop f.pos).take size.toNatClampNeg).length })) s' := by
  obtain ⟨hpos, hcounter, hplace, hle, e, l, hfile, hfor, hdata⟩ := h.slot_some hi
  have hlen : (s.fsDir i).size = f.data.length := by
    rw [hfor.size, hdata, hfile.length_data hvol]
  have hlt : f.data.length < 2 ^ 31 := lt_of_le_of_lt (Nat.le_add_right _ _) hint
  unfold fsRead
  rw [h.findFileSlot hi]
  dsimp only
  rw [hlen, hplace]
  by_cases hneg : size ≤ 0
  · have hzero : size.toNatClampNeg = 0 := Int32.toNatClampNeg_eq_zero_iff.mpr hneg
    rw [if_pos hneg, hzero, List.take_zero]
    refine ⟨s, rfl, ?_⟩
    exact h.update (h.lt hi) h.cached (Function.update_eq_self i s.fsRec).symm
      (Function.update_eq_self i s.fsDir).symm le_rfl (h.slot_some hi) (.inr (.inl rfl))
  · have htake : (f.data.drop f.pos).take (min size.toNatClampNeg (f.data.length - f.pos)) =
        (f.data.drop f.pos).take size.toNatClampNeg := by
      rw [← List.length_drop]
      exact List.take_eq_take_min.symm
    have hsize' : e.size = f.data.length := by rw [← hfor.size, hlen]
    obtain ⟨d', hread, hd'⟩ := fatReadFile_data hss hsize hcs hvol hfuel hfile h.cached hfor
      (hsize' ▸ hint)
      (show f.pos + min size.toNatClampNeg (f.data.length - f.pos) ≤ e.size by omega)
    have hbytes : f.pos + ((f.data.drop f.pos).take size.toNatClampNeg).length ≤
        f.data.length := by
      rw [List.length_take, List.length_drop]
      omega
    rw [if_neg hneg, clipped_size size hlt hle, hread, ← hdata, htake]
    refine ⟨_, rfl, ?_⟩
    dsimp only
    rw [Nat.mod_eq_of_lt (by omega)]
    exact h.update (h.lt hi) hd' rfl (Function.update_eq_self i s.fsDir).symm le_rfl
      ⟨hpos, hcounter, rfl, hbytes, e, l, hfile, hfor, hdata⟩ (.inr (.inl rfl))

/-- What `look` says about a path is so on the disk. -/
def Shows (bpb : Bpb) (disk : Region Byte) (V : List ℕ → ℕ → Prop)
    (look : List (List Byte) → Except Errno (List Byte)) (path : List (List Byte)) : Prop :=
  (∀ name ∈ path, GoodName name) ∧ ∃ r, Resolves bpb disk V 0 path r ∧
    look path = r.map fun (e, l) => bpb.data disk e l

theorem fsOpen_spec (h : Represents ss bpb disk V a s) (hi : i < maxFiles) (hfree : a i = none)
    (hslot : s.findSlot (-1) = some i) {look : List (List Byte) → Except Errno (List Byte)}
    {path : List (List Byte)} (hlook : Shows bpb disk V look path) (slash : Bool)
    (stack : Direntry) :
    ∃ s', fsOpen ss bpb fuel stack s ((if slash then [0x2F] else []) ++ joinPath path) =
        some ((look path).map fun _ => i, s') ∧
      Represents ss bpb disk V
        (match look path with
          | .error _ => a
          | .ok data => Function.update a i (some ⟨data, 0⟩)) s' := by
  obtain ⟨hnames, r, hresolves, hr⟩ := hlook
  obtain ⟨p', hfind, hd', hresult⟩ := fatGetFileStartCluster_spec hss hsize hcs hvol hfuel
    hresolves hnames slash (p := ⟨s.d, 0, s.fsDir i⟩) rfl h.cached stack
  unfold fsOpen
  rw [hslot, hr]
  dsimp only
  rw [hfind, Option.bind_eq_bind, Option.bind_some]
  cases r with
  | error e =>
      refine ⟨_, rfl, ?_⟩
      have hslot' := h.slot i hi
      have hsame : Function.update a i (a i) = a := Function.update_eq_self i a
      dsimp only [Except.map]
      rw [← hsame]
      exact h.update hi hd' (Function.update_eq_self i s.fsRec).symm rfl le_rfl
        (by rw [hfree] at hslot' ⊢; exact hslot') (.inr (.inl rfl))
  | ok el =>
      obtain ⟨e, l⟩ := el
      obtain ⟨hfor, -⟩ := hresult e l rfl
      refine ⟨_, rfl, ?_⟩
      exact h.update hi hd' rfl rfl (Nat.le_succ _)
        ⟨by positivity, le_rfl, rfl, Nat.zero_le _, e, l, hresolves.fileAt, hfor, rfl⟩
        (.inr (.inr (by push_cast; omega)))

/-- Any call. -/
theorem FsCall.perform_spec {look : List (List Byte) → Except Errno (List Byte)} {call : FsCall}
    (hcall : ∀ slash path, call = .openPath slash path → Shows bpb disk V look path)
    (h : Represents ss bpb disk V a s) (hint : a.IntSized bpb) {reply : FsReply}
    {a' : OpenFiles} (hspec : call.spec look a = some (reply, a')) (stack : Direntry) :
    ∃ s', call.perform ss bpb fuel stack s = some (reply, s') ∧
      Represents ss bpb disk V a' s' := by
  cases call with
  | openPath slash path =>
      rw [FsCall.spec, ← h.findSlot_free] at hspec
      cases hslot : s.findSlot (-1) with
      | none =>
          rw [hslot] at hspec
          obtain ⟨rfl, rfl⟩ := Prod.mk.inj (Option.some.inj hspec)
          exact ⟨s, by rw [FsCall.perform, fsOpen, hslot]; rfl, h⟩
      -- the slot that `fs_findFreeFileSlot` finds is the first free one of the abstract state
      | some i =>
          have hfind := h.findSlot_free.symm.trans hslot
          have hi := List.mem_range.mp (List.mem_of_find?_eq_some hfind)
          have hnone := List.find?_some hfind
          have hfree : a i = none := Option.isNone_iff_eq_none.mp hnone
          obtain ⟨s', hopen, hs'⟩ := fsOpen_spec hss hsize hcs hvol hfuel h hi hfree hslot
            (hcall slash path rfl) slash stack
          refine ⟨s', ?_, ?_⟩
          all_goals
            rw [hslot] at hspec
            dsimp only at hspec
          · rw [FsCall.perform, hopen]
            cases hlook : look path <;> rw [hlook] at hspec <;>
              obtain ⟨rfl, rfl⟩ := Prod.mk.inj (Option.some.inj hspec) <;> rfl
          · cases hlook : look path <;> rw [hlook] at hspec hs' <;>
              obtain ⟨rfl, rfl⟩ := Prod.mk.inj (Option.some.inj hspec) <;> exact hs'
  | close slot =>
      obtain ⟨f, hf, heq⟩ := Option.map_eq_some_iff.mp hspec
      obtain ⟨rfl, rfl⟩ := Prod.mk.inj heq
      obtain ⟨s', hclose, hs'⟩ := fsClose_spec h hf
      exact ⟨s', by rw [FsCall.perform, hclose], hs'⟩
  | lseek slot offset whence =>
      obtain ⟨f, hf, heq⟩ := Option.map_eq_some_iff.mp hspec
      obtain ⟨s', hseek, hs'⟩ := fsLseek_spec hvol h hf offset whence
      rw [FsCall.perform, hseek]
      cases htarget : seekTarget f.pos f.data.length offset whence with
      | none =>
          rw [htarget] at heq hs'
          obtain ⟨rfl, rfl⟩ := Prod.mk.inj heq
          exact ⟨s', rfl, hs'⟩
      | some t =>
          rw [htarget] at heq hs'
          obtain ⟨rfl, rfl⟩ := Prod.mk.inj heq
          exact ⟨s', rfl, hs'⟩
  | read slot size =>
      obtain ⟨f, hf, heq⟩ := Option.map_eq_some_iff.mp hspec
      obtain ⟨rfl, rfl⟩ := Prod.mk.inj heq
      obtain ⟨s', hread, hs'⟩ := fsRead_spec hss hsize hcs hvol hfuel h hf (hint slot f hf) size
      exact ⟨s', by rw [FsCall.perform, hread]; rfl, hs'⟩

end Session

/-! ### Sessions -/

/-- The driver after it was mounted, with all slots free. -/
structure Fs.Mounted (ss : ℕ) (disk : Region Byte) (s : Fs) : Prop where
  sound : Sound ss 0 s.d.cache disk
  cluster : s.d.lastChainCluster = 0xFFFFFFFF
  free : ∀ i < maxFiles, (s.fsRec i).fd = -1

theorem Fs.Mounted.represents (hvol : Volume bpb disk V) {s : Fs} (h : s.Mounted ss disk) :
    Represents ss bpb disk V (fun _ => none) s := by
  refine ⟨⟨h.sound, .inl fun l size hV hmem => ?_⟩, h.free, fun _ _ => rfl, fun i hi j hj _ hne =>
    absurd (h.free i hi) hne⟩
  obtain ⟨c, hchain⟩ := hvol.chain hV
  have hsmall := (hchain.ok _ hmem).small
  rw [h.cluster] at hsmall
  omega

/-- In a session, every call returns what it would return if the files were byte lists. -/
theorem fileSession_replies (hss : SizeOk ss) (hsize : bpb.sectorSize = ss)
    (hcs : 0 < bpb.clusterSize) (hvol : Volume bpb disk V) (hfuel : Enough V fuel)
    {look : List (List Byte) → Except Errno (List Byte)} {calls : List FsCall}
    (hlook : ∀ slash path, .openPath slash path ∈ calls → Shows bpb disk V look path)
    (hint : ∀ slash path, .openPath slash path ∈ calls →
      ∀ data, look path = .ok data → bpb.IntSize data.length) {s : Fs}
    (hs : s.Mounted ss disk) (stack : Direntry) {replies : List FsReply} {a : OpenFiles}
    (hspec : Replies.run (FsCall.spec look) calls (fun _ => none) = some (replies, a)) :
    ∃ s', Replies.run (FsCall.perform ss bpb fuel stack) calls s = some (replies, s') := by
  have hsim : ∃ s', Replies.run (FsCall.perform ss bpb fuel stack) calls s = some (replies, s') ∧
      Represents ss bpb disk V a s' ∧ a.IntSized bpb := by
    refine Replies.run_simulates (P := fun call => call ∈ calls)
      (R := fun a s => Represents ss bpb disk V a s ∧ a.IntSized bpb) ?_ (fun _ hmem => hmem)
      ⟨hs.represents hvol, fun _ _ h => nomatch h⟩ hspec
    rintro call a s reply a' hmem ⟨hR, hsized⟩ hreply
    obtain ⟨s', hperform, hR'⟩ := FsCall.perform_spec hss hsize hcs hvol hfuel
      (fun slash path heq => hlook slash path (heq ▸ hmem)) hR hsized hreply stack
    exact ⟨s', hperform, hR', FsCall.spec_intSized
      (fun slash path heq => hint slash path (heq ▸ hmem)) hsized hreply⟩
  obtain ⟨s', hrun, -⟩ := hsim
  exact ⟨s', hrun⟩

/-! ### A small disk -/

/-- A FAT16 with clusters of one sector. -/
def sampleBpb : Bpb where
  sectorSize := 512
  clusterSize := 1
  resSectors := 1
  rootSize := 16
  partStart := 0
  rootDirStart := 2
  rootDirCluster := 0
  fatType := .fat16

/-- The chain 2, 3 in the FAT, and a short entry for it with the size 600. -/
def sampleDisk : Region Byte := fun i =>
  if i < 1024 then ([3, 0, 0xFF, 0xFF] : List Byte).getD (i - 516) 0
  else if i < 1536 then
    ([0x43, 0x48, 0x45, 0x41, 0x54, 0x53, 0x20, 0x20, 0x54, 0x58, 0x54, 0x20, 0, 0, 0, 0, 0, 0, 0,
      0, 0, 0, 0, 0, 0, 0, 2, 0, 0x58, 2] : List Byte).getD (i - 1024) 0
  else BitVec.ofNat 8 i

def sampleItem : Item where
  long := []
  short := [0x43, 0x48, 0x45, 0x41, 0x54, 0x53, 0x2E, 0x54, 0x58, 0x54]
  attr := 0x20
  size := 600
  cluster := 2

/-- cheats.txt -/
def sampleName : List Byte := [0x63, 0x68, 0x65, 0x61, 0x74, 0x73, 0x2E, 0x74, 0x78, 0x74]

def SampleFile (l : List ℕ) (size : ℕ) : Prop := l = [2, 3] ∧ size = 600

theorem sampleChain : sampleBpb.IsChain sampleDisk 2 [2, 3] := by
  refine ⟨.link (by decide) (.last (by decide)), fun c hc => ?_, ?_⟩
  · have hc' : c = 2 ∨ c = 3 := by simpa using hc
    rcases hc' with rfl | rfl <;> exact ⟨by decide, by decide, by decide, by decide⟩
  · exact List.isChain_cons_cons.mpr ⟨fun hspans => (nomatch hspans.1), List.isChain_singleton _⟩

theorem sampleVolume : Volume sampleBpb sampleDisk SampleFile where
  chain := by
    rintro l size ⟨rfl, -⟩
    exact ⟨2, sampleChain⟩
  cover := by
    rintro l size ⟨rfl, rfl⟩
    decide
  apart := by
    rintro l l' size size' x ⟨rfl, rfl⟩ ⟨rfl, rfl⟩ - -
    exact ⟨rfl, rfl⟩
  seek := by
    rintro l size ⟨rfl, rfl⟩ i hi j hj m heq
    have hj' : sampleBpb.seekIndex 600 j ≤ 1 := by
      rw [Bpb.seekIndex, show 600 / dirChainSize = 18 from rfl,
        show sampleBpb.clusterBytes = 512 from rfl]
      have : j < 32 := hj
      omega
    omega

theorem sampleDir : DirAt sampleBpb sampleDisk SampleFile 0 [sampleItem] := by
  refine ⟨[], _, _, .root (by decide) (by decide), fun hne => absurd rfl hne, ?_, by decide⟩
  refine .item (by decide) (by decide) (by decide) (fun i hi => nomatch hi) ?_
    (.ended (by decide) (by decide) (by decide))
  exact ⟨by decide, by decide, by decide, by decide, by decide, by decide⟩

def sampleData : List Byte := sampleBpb.data sampleDisk sampleItem [2, 3]

theorem sampleShows : Shows sampleBpb sampleDisk SampleFile (fun _ => .ok sampleData)
    [sampleName] := by
  refine ⟨fun name hname => ?_, .ok (sampleItem, [2, 3]), .last sampleDir rfl ?_, rfl⟩
  · obtain rfl : name = sampleName := by simpa using hname
    exact ⟨by decide, by decide, by decide, by decide⟩
  · exact .inr ⟨sampleChain, rfl, rfl⟩

theorem length_sampleData : sampleData.length = 600 := by
  rw [sampleData, Bpb.data, List.length_take, Bpb.length_content]
  rfl

/-- The bytes where the two clusters meet. -/
theorem sampleData_510 : (sampleData.drop 510).take 4 = [0xFE, 0xFF, 0, 1] := by
  have hcluster : ∀ c, sampleBpb.cluster sampleDisk c =
      sampleDisk.read (fatCluster2sector sampleBpb c * 512) 512 := fun _ => rfl
  have hcontent : sampleBpb.content sampleDisk [2, 3] = sampleDisk.read 1536 (512 + 512) := by
    rw [Region.read_add, Bpb.content_cons, Bpb.content_cons, Bpb.content_nil, List.append_nil,
      hcluster, hcluster, show fatCluster2sector sampleBpb 2 = 3 by decide,
      show fatCluster2sector sampleBpb 3 = 4 by decide]
  rw [sampleData, Bpb.data, hcontent, List.drop_take, List.take_take]
  exact (Region.drop_take_read sampleDisk (by decide)).trans (by decide)

/-- A driver that was just mounted. -/
def sampleFs : Fs where
  d := ⟨scacheInit (fun _ => 0xEE) sampleDisk, 0, fun _ => 0, 0xFFFFFFFF, -1⟩
  fsRec := fun _ => ⟨-1, 0⟩
  fsDir := fun _ => ⟨0, [], 0, 0, fun _ => ⟨0, 0⟩⟩
  fsCounter := 0
  direntryCluster := noDirectory
  direntryIndex := 0

def sampleCalls : List FsCall :=
  [.openPath true [sampleName], .lseek 0 510 0, .read 0 4, .close 0]

theorem sampleCalls_spec (data : List Byte) :
    ∃ a, Replies.run (FsCall.spec fun _ => .ok data) sampleCalls (fun _ => none) =
      some ([.opened (.ok 0), .place (.ok (some (min 510 data.length))),
        .bytes (some ((data.drop (min 510 data.length)).take 4)), .closed (.ok ())], a) :=
  ⟨_, rfl⟩

theorem fileSession_replies_sampleFs :
    ∃ s', Replies.run
        (FsCall.perform 512 sampleBpb 4 ⟨0, fun _ => 0xEE, fun _ => 0xEE, 0, 0⟩) sampleCalls
        sampleFs =
      some ([.opened (.ok 0), .place (.ok (some 510)), .bytes (some [0xFE, 0xFF, 0, 1]),
        .closed (.ok ())], s') := by
  obtain ⟨a, hspec⟩ := sampleCalls_spec sampleData
  rw [length_sampleData, show min 510 600 = 510 from rfl, sampleData_510] at hspec
  have hint : ∀ data, (Except.ok sampleData : Except Errno (List Byte)) = .ok data →
      sampleBpb.IntSize data.length := by
    intro data hdata
    rw [← Except.ok.inj hdata, length_sampleData]
    exact (by norm_num : 600 + 512 < 2 ^ 31)
  refine fileSession_replies ⟨by norm_num, le_rfl⟩ rfl (by decide) sampleVolume
    ⟨by decide, ?_⟩ ?_ (fun _ _ _ => hint) ⟨sound_scacheInit _ _ _, rfl, fun _ _ => rfl⟩ _ hspec
  · rintro l size ⟨rfl, -⟩
    decide
  · intro slash path hmem
    have hpath : path = [sampleName] := by
      simp only [sampleCalls, List.mem_cons, FsCall.openPath.injEq, reduceCtorEq,
        List.not_mem_nil, or_false] at hmem
      exact hmem.2
    rw [hpath]
    exact sampleShows

end Ps2rd.UsbMass
