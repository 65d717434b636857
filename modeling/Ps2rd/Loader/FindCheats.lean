import Ps2rd.Loader.ElfId

/-!
# The game that belongs to an ELF file

`Agrees` says from the title alone when a game belongs to a file.  `__find_cheats`
returns the first game that agrees, with two exceptions.  `sscanf` returns `EOF` for
a token of nothing but white space, and `elfid_parse` does not take that for an
error; the token then counts as a size, which no file without a size disagrees with.
And a title that fills its array is not a string.
-/

namespace Ps2rd.Loader

open CString Cheats

/-! ### Titles and files -/

/-- What follows the first `/ID` of a title. -/
def idText (title : List Byte) : Option (List Byte) :=
  (title.tails.find? gameIdStart.isPrefixOf).map (·.drop gameIdStart.length)

/-- The text split at spaces and tabs. -/
def fields (text : List Byte) : List (List Byte) := (text.splitOnP isSep).filter (· ≠ [])

/-- The `i`-th token, if there is one and it does not start with `-`. -/
def field (i : ℕ) (text : List Byte) : Option (List Byte) :=
  (fields text)[i]?.filter (!isUnset ·)

/-- The title belongs to a file of that name and size, where size 0 stands for no
size. -/
structure IdAgrees (file : List Byte) (size : Word) (text : List Byte) : Prop where
  read : ∀ t ∈ field 1 text, ∃ v, sscanfI t = .value v
  both : (field 0 text).isSome ∨ size ≠ 0 ∧ (field 1 text).isSome
  name : ∀ n ∈ field 0 text, n <:+: file
  size : size ≠ 0 → ∀ t ∈ field 1 text, sscanfI t = .value size

def Agrees (file : List Byte) (size : Word) (title : List Byte) : Prop :=
  ∃ text ∈ idText title, IdAgrees file size text

/-- The name agrees and the file has no size, but the size of the title is a token of
nothing but white space. -/
structure BlankId (file : List Byte) (size : Word) (text : List Byte) : Prop where
  unset : size = 0
  name : ∃ n ∈ field 0 text, n <:+: file
  blank : ∃ t ∈ field 1 text, ∀ c ∈ t, isspace c = true

def BlankSize (file : List Byte) (size : Word) (title : List Byte) : Prop :=
  ∃ text ∈ idText title, BlankId file size text

/-! ### Tokens -/

theorem fields_cons_of_isSep {c : Byte} (hc : isSep c = true) (s : List Byte) :
    fields (c :: s) = fields s := by
  rw [fields, List.splitOnP_cons_eq_if_modifyHead, if_pos hc]
  simp [fields]

theorem fields_dropWhile (s : List Byte) : fields (s.dropWhile isSep) = fields s := by
  induction s with
  | nil => rfl
  | cons c s ih =>
      cases hc : isSep c with
      | true => rw [List.dropWhile_cons_of_pos hc, ih, fields_cons_of_isSep hc]
      | false => rw [List.dropWhile_cons_of_neg (by simp [hc])]

theorem sublist_of_mem_fields {text t : List Byte} (h : t ∈ fields text) : t.Sublist text := by
  have hsplit : ∀ s : List Byte, ∀ t ∈ s.splitOnP isSep, t.Sublist s := by
    intro s
    induction s with
    | nil => simp
    | cons c s ih =>
        intro t ht
        rw [List.splitOnP_cons_eq_if_modifyHead] at ht
        split_ifs at ht with hc
        · rcases List.mem_cons.mp ht with rfl | ht
          · exact List.nil_sublist _
          · exact (ih t ht).cons c
        · obtain ⟨u, us, hus⟩ := List.exists_cons_of_ne_nil (List.splitOnP_ne_nil isSep s)
          rw [hus, List.modifyHead_cons] at ht
          rcases List.mem_cons.mp ht with rfl | ht
          · exact (ih u (by simp [hus])).cons_cons c
          · exact (ih t (by simp [hus, ht])).cons c
  exact hsplit text t (List.mem_filter.mp h).1

theorem mem_fields_of_field {text t : List Byte} {i : ℕ} (h : t ∈ field i text) :
    t ∈ fields text ∧ isUnset t = false := by
  obtain ⟨hget, hset⟩ := Option.mem_filter_iff.mp h
  exact ⟨List.mem_of_getElem? hget, by simpa using hset⟩

/-- `strtok` takes one token after the other. -/
theorem fields_of_strtok_none {s : List Byte} (h : strtok s = none) : fields s = [] := by
  rw [strtok] at h
  split_ifs at h with hnil
  rw [← fields_dropWhile, hnil]
  rfl

/-- A word and what follows it. -/
theorem fields_append {t u : List Byte} (hne : t ≠ []) (ht : ∀ c ∈ t, isSep c = false)
    (hu : ∀ c ∈ u.head?, isSep c = true) : fields (t ++ u) = t :: fields (u.drop 1) := by
  unfold fields
  cases u with
  | nil =>
      rw [List.append_nil, List.splitOnP_eq_singleton ht]
      simp [hne]
  | cons c u =>
      rw [List.splitOnP_append_cons_of_forall_mem ht c (hu c rfl) u, List.filter_cons_of_pos]
      · simp
      · simpa using hne

theorem fields_of_strtok_some {s t rest : List Byte} (h : strtok s = some (t, rest)) :
    fields s = t :: fields rest := by
  rw [strtok] at h
  split_ifs at h with hne
  obtain ⟨rfl, rfl⟩ := Prod.mk.inj (Option.some.inj h)
  rw [← fields_dropWhile]
  have hfirst := List.head?_dropWhile_not isSep s
  have hnext := List.head?_dropWhile_not (!isSep ·) (s.dropWhile isSep)
  generalize s.dropWhile isSep = u at hne hfirst hnext ⊢
  conv_lhs => rw [← List.takeWhile_append_dropWhile (p := (!isSep ·)) (l := u)]
  refine fields_append ?_ ?_ ?_
  · cases u with
    | nil => exact absurd rfl hne
    | cons c u =>
        have hc : isSep c = false := by simpa using hfirst
        simp [hc]
  · intro c hc
    simpa using List.mem_takeWhile_imp hc
  · intro c hc
    rw [hc] at hnext
    simpa using hnext

/-! ### Reading a title -/

theorem isPrefixOf_append_nul {needle : List Byte} (hneedle : NUL ∉ needle)
    (s past : List Byte) : needle.isPrefixOf (s ++ NUL :: past) = needle.isPrefixOf s := by
  induction needle generalizing s with
  | nil => simp
  | cons b needle ih =>
      have hb : b ≠ NUL := fun h => hneedle (by simp [h])
      cases s with
      | nil => simp [List.isPrefixOf, hb]
      | cons c s => simp [List.isPrefixOf, ih fun h => hneedle (List.mem_cons_of_mem b h)]

theorem strstr_append_nul {needle s : List Byte} (hneedle : NUL ∉ needle) (hne : needle ≠ [])
    (hs : NUL ∉ s) (past : List Byte) :
    strstr needle (s ++ NUL :: past) =
      some ((s.tails.find? needle.isPrefixOf).map (· ++ NUL :: past)) := by
  induction s with
  | nil =>
      have hnil : needle.isPrefixOf [] = false := by
        cases needle with
        | nil => exact absurd rfl hne
        | cons b needle => rfl
      have hhere := isPrefixOf_append_nul hneedle [] past
      rw [List.nil_append, hnil] at hhere
      rw [List.nil_append, strstr, hhere]
      simp [hnil]
  | cons c s ih =>
      have hc : c ≠ NUL := fun h => hs (by simp [h])
      have hhere := isPrefixOf_append_nul hneedle (c :: s) past
      rw [List.cons_append] at hhere
      rw [List.cons_append, strstr, hhere, List.tails, if_neg hc]
      cases hfind : needle.isPrefixOf (c :: s) with
      | true => simp [hfind]
      | false =>
          rw [List.find?_cons_of_neg (by simp [hfind]),
            ← ih fun h => hs (List.mem_cons_of_mem c h)]
          rfl

/-- The id that the two fields stand for. -/
def idOf (name size : Option (List Byte)) : Option ElfId :=
  size.elim (some (name.elim ElfId.zero ElfId.zero.setName))
    fun t => elfidField 1 t (name.elim ElfId.zero ElfId.zero.setName)

theorem elfidField_of_unset {p : List Byte} (h : isUnset p = true) (i : ℕ) (id : ElfId) :
    elfidField i p id = some id :=
  if_pos h

theorem elfidField_zero (p : List Byte) :
    elfidField 0 p .zero =
      some ((Option.filter (!isUnset ·) (some p)).elim .zero ElfId.zero.setName) := by
  cases h : isUnset p with
  | true =>
      rw [elfidField_of_unset h, Option.filter_some_neg (by simp [h])]
      rfl
  | false =>
      rw [Option.filter_some_pos (by simp [h]), elfidField, h]
      rfl

/-- The third token and those behind it do not matter. -/
theorem elfidFields_one (p : Option (List Byte × List Byte)) (id : ElfId) :
    elfidFields 1 p id = some id := by
  cases p with
  | none => rfl
  | some x =>
      obtain ⟨p, rest⟩ := x
      simp [elfidFields, elfidField]

theorem elfidFields_eq (s : List Byte) :
    elfidFields 3 (strtok s) .zero = idOf (field 0 s) (field 1 s) := by
  unfold field
  cases hfirst : strtok s with
  | none =>
      rw [fields_of_strtok_none hfirst]
      rfl
  | some x =>
      obtain ⟨p, rest⟩ := x
      rw [fields_of_strtok_some hfirst, elfidFields, elfidField_zero, Option.bind_some,
        List.getElem?_cons_zero, List.getElem?_cons_succ]
      cases hsecond : strtok rest with
      | none =>
          rw [fields_of_strtok_none hsecond]
          rfl
      | some x =>
          obtain ⟨q, rest⟩ := x
          rw [fields_of_strtok_some hsecond, elfidFields, List.getElem?_cons_zero]
          have hlast := elfidFields_one (strtok rest)
          cases hq : isUnset q with
          | true =>
              have hnone : Option.filter (!isUnset ·) (some q) = none :=
                Option.filter_some_neg (by simp [hq])
              rw [elfidField_of_unset hq, hnone, Option.bind_some, hlast]
              rfl
          | false =>
              have hsome : Option.filter (!isUnset ·) (some q) = some q :=
                Option.filter_some_pos (by simp [hq])
              rw [hsome, funext hlast, Option.bind_fun_some]
              rfl

/-- What an id says: a name and a size, either of which may not be set. -/
structure Shows (id : ElfId) (name : Option (List Byte)) (size : Option Word) : Prop where
  hasName : id.has elfidFName = name.isSome
  name : ∀ n ∈ name, NUL ∉ n ∧ ∃ past, id.name.val = n ++ NUL :: past
  hasSize : id.has elfidFSize = size.isSome
  size : ∀ v ∈ size, id.size = v

theorem val_setName_zero {n : List Byte} (hn : NUL ∉ n) (hlen : n.length ≤ 255) :
    ∃ past, (ElfId.zero.setName n).name.val = n ++ NUL :: past := by
  refine ⟨List.replicate (255 - n.length) NUL, ?_⟩
  change CString.strncpy (List.replicate 256 NUL) n 255 = _
  rw [strncpy, cstr_eq_self hn, List.take_of_length_le hlen, List.drop_replicate,
    List.append_assoc, List.replicate_append_replicate, ← List.replicate_succ]

theorem shows_elfidSet {file : List Byte} (hfile : NUL ∉ file) (hlen : file.length ≤ 255)
    (size : Word) :
    Shows (elfidSet file size) (some file) (if size = 0 then none else some size) := by
  have hname := val_setName_zero hfile hlen
  have hset : ∀ n ∈ some file, NUL ∉ n ∧
      ∃ past, (ElfId.zero.setName file).name.val = n ++ NUL :: past := by
    rintro _ ⟨⟩
    exact ⟨hfile, hname⟩
  by_cases hsize : size = 0
  · subst hsize
    rw [if_pos rfl, elfidSet, if_neg (by decide)]
    exact ⟨by simp [ElfId.has, ElfId.setName, ElfId.zero, elfidFName], hset,
      by simp [ElfId.has, ElfId.setName, ElfId.zero, elfidFName, elfidFSize], by simp⟩
  · have hpos : size > 0 := (BitVec.pos_iff_ne_zero size).mpr hsize
    rw [if_neg hsize, elfidSet, if_pos hpos]
    exact ⟨by simp [ElfId.has, ElfId.setName, ElfId.zero, elfidFName, elfidFSize], hset,
      by simp [ElfId.has, ElfId.setName, ElfId.zero, elfidFName, elfidFSize], by simp⟩

/-- What `elfid_parse` makes of the two fields. -/
theorem shows_idOf {name size : Option (List Byte)}
    (hname : ∀ n ∈ name, NUL ∉ n ∧ n.length ≤ 255) (hunset : ∀ t ∈ size, isUnset t = false)
    (hread : ∀ t ∈ size, (sscanfI t).ret ≠ 0) :
    ∃ id, idOf name size = some id ∧ Shows id name (size.map fun t => (sscanfI t).store 0) := by
  have hset : ∀ n ∈ name, NUL ∉ n ∧
      ∃ past, (name.elim ElfId.zero ElfId.zero.setName).name.val = n ++ NUL :: past := by
    rintro n ⟨⟩
    exact ⟨(hname n rfl).1, val_setName_zero (hname n rfl).1 (hname n rfl).2⟩
  have hsize : (name.elim ElfId.zero ElfId.zero.setName).size = 0 := by
    cases name <;> rfl
  have hflags : (name.elim ElfId.zero ElfId.zero.setName).set = if name.isSome then 1 else 0 := by
    cases name <;> rfl
  unfold idOf
  generalize name.elim ElfId.zero ElfId.zero.setName = id at hset hsize hflags ⊢
  cases size with
  | none =>
      refine ⟨id, rfl, ?_, hset, ?_, by simp⟩
      · cases name <;> simp [ElfId.has, hflags, elfidFName]
      · cases name <;> simp [ElfId.has, hflags, elfidFSize]
  | some t =>
      have hfield : elfidField 1 t id = some { id with
          size := (sscanfI t).store id.size, set := id.set ||| elfidFSize } := by
        rw [elfidField, if_neg (by simp [hunset t rfl])]
        exact if_neg (hread t rfl)
      refine ⟨_, hfield, ?_, hset, ?_, ?_⟩
      · cases name <;> simp [ElfId.has, hflags, elfidFName, elfidFSize]
      · cases name <;> simp [ElfId.has, hflags, elfidFSize]
      · rintro v ⟨⟩
        rw [hsize]

theorem idOf_eq_none {name : Option (List Byte)} {t : List Byte} (hunset : isUnset t = false)
    (hread : (sscanfI t).ret = 0) : idOf name (some t) = none := by
  change elfidField 1 t _ = none
  rw [elfidField, if_neg (by simp [hunset])]
  exact if_pos hread

/-- Two ids match. -/
structure Match (file : List Byte) (size : Option Word) (name' : Option (List Byte))
    (size' : Option Word) : Prop where
  both : name'.isSome = true ∨ size.isSome = true ∧ size'.isSome = true
  name : ∀ n ∈ name', n <:+: file
  size : ∀ v ∈ size, ∀ v' ∈ size', v = v'

section Compare

variable {id id' : ElfId} {file : List Byte} {name' : Option (List Byte)}
  {size size' : Option Word}

theorem compareSize_eq_zero_iff (hid : Shows id (some file) size) (hid' : Shows id' name' size')
    (matched : Word) :
    compareSize id id' matched = 0 ↔
      (matched ≠ 0 ∨ size.isSome = true ∧ size'.isSome = true) ∧
        ∀ v ∈ size, ∀ v' ∈ size', v = v' := by
  have hor : matched ||| elfidFSize ≠ 0 := by
    intro hzero
    have hbit := congrArg (·.getLsbD 1) hzero
    simp [elfidFSize] at hbit
  rw [compareSize, hid.hasSize, hid'.hasSize, if_pos hor]
  cases size with
  | none => simp
  | some v =>
      cases size' with
      | none => simp
      | some v' => simp [hid.size v rfl, hid'.size v' rfl]

theorem elfidCompare_eq_zero_iff (hid : Shows id (some file) size)
    (hid' : Shows id' name' size') (hwc : ∀ c ∈ file, isWc gameIdWc c = false)
    (hwc' : ∀ n ∈ name', ∀ c ∈ n, isWc gameIdWc c = false) :
    ∃ r, elfidCompare id id' gameIdWc = some r ∧ (r = 0 ↔ Match file size name' size') := by
  have hsize := compareSize_eq_zero_iff hid hid'
  rw [elfidCompare, hid.hasName, hid'.hasName]
  cases name' with
  | none =>
      refine ⟨_, rfl, (hsize 0).trans ⟨fun ⟨hboth, heq⟩ => ⟨?_, by simp, heq⟩,
        fun h => ⟨?_, h.size⟩⟩⟩
      · simpa using hboth
      · simpa using h.both
  | some n =>
      obtain ⟨hfile, past, hname⟩ := hid.name file rfl
      obtain ⟨hn, past', hname'⟩ := hid'.name n rfl
      obtain ⟨r, hrun, hsub⟩ := strstrWc_of_not_isWc hfile hn hwc (hwc' n rfl) (by decide)
        past past'
      rw [hname, hname', hrun]
      refine ⟨if r.isSome then compareSize id id' elfidFName else -1, rfl, ?_⟩
      split_ifs with hsome
      · rw [hsize elfidFName]
        refine ⟨fun h => ⟨.inl rfl, ?_, h.2⟩, fun h => ⟨.inl (by decide), h.size⟩⟩
        rintro _ ⟨⟩
        exact hsub.mp hsome
      · exact iff_of_false (by decide) fun h => hsome (hsub.mpr (h.name n rfl))

end Compare

/-! ### One game -/

/-- `sscanf` comes to the end of the string without a number only in white space. -/
theorem sscanfI_eq_eof_iff (t : List Byte) : sscanfI t = .eof ↔ ∀ c ∈ t, isspace c = true := by
  have helim : ∀ (o : Option ℕ) (f : ℕ → Word),
      o.elim Scan.failure (fun v => .value (f v)) ≠ .eof := by
    intro o f
    cases o <;> simp
  rw [sscanfI, ← List.dropWhile_eq_nil_iff]
  generalize t.dropWhile isspace = u
  split
  case h_1 => simp
  case h_4 hne _ _ => exact iff_of_false (helim _ _) hne
  all_goals exact iff_of_false (helim _ _) (by simp)

theorem ret_eq_zero_iff (scan : Scan) : scan.ret = 0 ↔ scan = .failure := by
  cases scan <;> simp [Scan.ret]

/-- A title that does not fill its array. -/
def Terminated (game : Game) : Prop := NUL ∈ game.title.val

section Game

variable {file : List Byte} {size : Word} {game : Game}

/-- The text of an id is parsed field by field. -/
theorem elfidParse_append_nul (buf : CharArray (elfidNameMax + 1)) {text : List Byte}
    (htext : NUL ∉ text) (hlen : text.length < 255) (past : List Byte) :
    elfidParse buf (text ++ NUL :: past) = some (idOf (field 0 text) (field 1 text)) := by
  have hstr : (buf.strncpy (text ++ NUL :: past) elfidNameMax (Nat.le_succ _)).str = text := by
    have hcstr := cstr_append_nul htext past
    unfold CharArray.str CharArray.strncpy
    rw [cstr_strncpy, hcstr]
    rw [hcstr]
    exact hlen
  have hnul : NUL ∈ (buf.strncpy (text ++ NUL :: past) elfidNameMax (Nat.le_succ _)).val := by
    by_contra hnul
    have hlong := congrArg List.length (hstr.symm.trans (cstr_eq_self hnul))
    rw [List.Vector.length_val] at hlong
    unfold elfidNameMax at hlong
    omega
  rw [elfidParse, if_pos (.inl (by simp)), if_pos hnul, hstr, elfidFields_eq]

/-- The ids of the file and of the text match. -/
def TextMatches (file : List Byte) (size : Word) (text : List Byte) : Prop :=
  Match file (if size = 0 then none else some size) (field 0 text)
    ((field 1 text).map fun t => (sscanfI t).store 0)

theorem IdAgrees.textMatches {text : List Byte} (h : IdAgrees file size text) :
    TextMatches file size text := by
  refine ⟨?_, h.name, fun v hv v' hv' => ?_⟩
  · rcases h.both with hset | ⟨hne, hset⟩
    · exact .inl hset
    · exact .inr ⟨by rw [if_neg hne]; rfl, by simpa using hset⟩
  · obtain ⟨t, ht, rfl⟩ := Option.mem_map.mp hv'
    split_ifs at hv with hne
    · cases hv
    · cases hv
      rw [h.size hne t ht]
      rfl

theorem BlankId.textMatches {text : List Byte} (h : BlankId file size text) :
    TextMatches file size text := by
  obtain ⟨n, hn, hsub⟩ := h.name
  refine ⟨.inl (Option.isSome_iff_exists.mpr ⟨n, hn⟩), fun n' hn' => ?_, ?_⟩
  · rwa [Option.mem_unique hn' hn]
  · rw [if_pos h.unset]
    rintro v ⟨⟩

/-- A match with a blank size: no size is equal to the 0 that `elfid_parse` leaves there. -/
theorem TextMatches.blankId {text t : List Byte} (h : TextMatches file size text)
    (ht : t ∈ field 1 text) (heof : sscanfI t = .eof) : BlankId file size text := by
  obtain ⟨hboth, hname, hsize⟩ := h
  have hunset : size = 0 := by
    by_contra hne
    rw [if_neg hne] at hsize
    exact hne (hsize size rfl 0 (Option.mem_map.mpr ⟨t, ht, by rw [heof]; rfl⟩))
  rw [if_pos hunset] at hboth
  obtain ⟨n, hn⟩ := Option.isSome_iff_exists.mp (hboth.resolve_right (by simp))
  exact ⟨hunset, ⟨n, hn, hname n hn⟩, ⟨t, ht, (sscanfI_eq_eof_iff t).mp heof⟩⟩

/-- A match with a size that was read, or without one. -/
theorem TextMatches.idAgrees {text : List Byte} (h : TextMatches file size text)
    (hread : ∀ t ∈ field 1 text, ∃ v, sscanfI t = .value v) : IdAgrees file size text := by
  obtain ⟨hboth, hname, hsize⟩ := h
  refine ⟨hread, ?_, hname, fun hne t ht => ?_⟩
  · rcases hboth with hboth | ⟨hset, hset'⟩
    · exact .inl hboth
    · refine .inr ⟨fun hzero => ?_, by simpa using hset'⟩
      simp [hzero] at hset
  · obtain ⟨v, hv⟩ := hread t ht
    rw [if_neg hne] at hsize
    have hsame := hsize size rfl _ (Option.mem_map_of_mem _ ht)
    rw [hv] at hsame
    rw [hv, hsame]
    rfl

/-- What the comparison comes down to when the size has not been refused. -/
theorem textMatches_iff {text : List Byte} (hread : ∀ t ∈ field 1 text, (sscanfI t).ret ≠ 0) :
    TextMatches file size text ↔ IdAgrees file size text ∨ BlankId file size text := by
  refine ⟨fun h => ?_, fun h => h.elim (·.textMatches) (·.textMatches)⟩
  by_cases hblank : ∃ t ∈ field 1 text, sscanfI t = .eof
  · obtain ⟨t, ht, heof⟩ := hblank
    exact .inr (h.blankId ht heof)
  · refine .inl (h.idAgrees fun t ht => ?_)
    cases hscan : sscanfI t with
    | eof => exact absurd ⟨t, ht, hscan⟩ hblank
    | failure => exact absurd (by simp [hscan, Scan.ret]) (hread t ht)
    | value v => exact ⟨v, rfl⟩

theorem isWc_gameIdWc_eq_false {s : List Byte} (h : 0x3F ∉ s) :
    ∀ c ∈ s, isWc gameIdWc c = false := by
  intro c hc
  rw [isWc, gameIdWc, decide_eq_false_iff_not]
  intro heq
  have hc' : c = 0x3F := BitVec.eq_of_toNat_eq (Int.ofNat.inj heq)
  exact h (hc' ▸ hc)

/-- Which titles with an id are accepted. -/
theorem checkGame_text (buf : CharArray (elfidNameMax + 1)) (size : Word) {text : List Byte}
    (past : List Byte) (hfile : NUL ∉ file) (hlen : file.length ≤ 255)
    (hwc : 0x3F ∉ file) (htext : NUL ∉ text) (hshort : text.length < 255)
    (hwc' : ∀ n ∈ field 0 text, 0x3F ∉ n) :
    ∃ found, ((elfidParse buf (text ++ NUL :: past)).bind fun parsed =>
        match parsed with
        | none => some false
        | some id2 => (elfidCompare (elfidSet file size) id2 gameIdWc).map (· = 0)) =
          some found ∧
      (found = true ↔ IdAgrees file size text ∨ BlankId file size text) := by
  have hsub : ∀ i, ∀ t ∈ field i text, NUL ∉ t ∧ t.length ≤ 255 ∧ isUnset t = false := by
    intro i t ht
    obtain ⟨hmem, hset⟩ := mem_fields_of_field ht
    have hsub := sublist_of_mem_fields hmem
    exact ⟨fun h => htext (hsub.subset h), hsub.length_le.trans hshort.le, hset⟩
  rw [elfidParse_append_nul buf htext hshort, Option.bind_some]
  -- the size can be read, or `elfid_parse` gives the title up
  by_cases hread : ∀ t ∈ field 1 text, (sscanfI t).ret ≠ 0
  · obtain ⟨id2, hid2, hshows⟩ := shows_idOf
      (fun n hn => ⟨(hsub 0 n hn).1, (hsub 0 n hn).2.1⟩) (fun t ht => (hsub 1 t ht).2.2) hread
    obtain ⟨r, hcmp, hr⟩ := elfidCompare_eq_zero_iff (shows_elfidSet hfile hlen size) hshows
      (isWc_gameIdWc_eq_false hwc) fun n hn => isWc_gameIdWc_eq_false (hwc' n hn)
    refine ⟨decide (r = 0), ?_, ?_⟩
    · rw [hid2]
      dsimp only
      rw [hcmp]
      rfl
    · rw [decide_eq_true_iff, hr]
      exact textMatches_iff hread
  · push Not at hread
    obtain ⟨t, ht, hret⟩ := hread
    have hfail := (ret_eq_zero_iff _).mp hret
    refine ⟨false, ?_, iff_of_false (by simp) ?_⟩
    · rw [Option.mem_def.mp ht, idOf_eq_none (hsub 1 t ht).2.2 hret]
    · rintro (h | h)
      · obtain ⟨v, hv⟩ := h.read t ht
        rw [hfail] at hv
        cases hv
      · obtain ⟨t', ht', hblank⟩ := h.blank
        rw [Option.mem_unique ht' ht, ← sscanfI_eq_eof_iff, hfail] at hblank
        cases hblank

/-- The loop of `__find_cheats` accepts a game whose title agrees or has a blank size. -/
theorem checkGame_of_terminated (buf : CharArray (elfidNameMax + 1)) (size : Word)
    (hfile : NUL ∉ file) (hlen : file.length ≤ 255) (hwc : 0x3F ∉ file) (hterm : Terminated game)
    (hwc' : ∀ text ∈ idText game.title.str, ∀ n ∈ field 0 text, 0x3F ∉ n) :
    ∃ found, checkGame buf (elfidSet file size) game = some found ∧
      (found = true ↔
        Agrees file size game.title.str ∨ BlankSize file size game.title.str) := by
  obtain ⟨past, hpast⟩ := eq_cstr_append hterm
  have htitle : (cstr game.title.val).length < 255 := by
    have hlen := congrArg List.length hpast
    rw [List.Vector.length_val, List.length_append] at hlen
    unfold gameTitleMax at hlen
    omega
  have hnul := nul_notMem_cstr game.title.val
  unfold Agrees BlankSize CharArray.str at *
  rw [checkGame, hpast, strstr_append_nul (by decide) (by decide) hnul, Option.bind_some]
  rw [← hpast]
  generalize cstr game.title.val = title at *
  unfold idText at *
  cases hfind : title.tails.find? gameIdStart.isPrefixOf with
  | none => exact ⟨false, rfl, by simp⟩
  | some u =>
      rw [hfind, Option.map_some] at hwc'
      obtain ⟨text, rfl⟩ := List.isPrefixOf_iff_prefix.mp (List.find?_some hfind)
      have hsuffix := (List.mem_tails _ _).mp (List.mem_of_find?_eq_some hfind)
      have htext : text.Sublist title := (List.sublist_append_right _ _).trans hsuffix.sublist
      have hdrop : (gameIdStart ++ text).drop gameIdStart.length = text := List.drop_left
      rw [hdrop] at hwc'
      obtain ⟨found, hfound, hiff⟩ := checkGame_text buf size past hfile hlen hwc
        (fun h => hnul (htext.subset h)) (htext.length_le.trans_lt htitle) (hwc' text rfl)
      refine ⟨found, ?_, ?_⟩
      · rw [Option.map_some, List.append_assoc]
        dsimp only
        rw [List.drop_left]
        exact hfound
      · rw [hiff]
        simp [hdrop]

/-- Without a terminator `strstr` runs on, unless it finds the needle. -/
theorem strstr_of_nul_notMem (needle : List Byte) {mem : List Byte} (hmem : NUL ∉ mem) :
    strstr needle mem = none ∨ ∃ u, strstr needle mem = some (some u) ∧ u <:+ mem := by
  induction mem with
  | nil => exact .inl rfl
  | cons c mem ih =>
      have hc : c ≠ NUL := fun h => hmem (by simp [h])
      rw [strstr, if_neg hc]
      split_ifs with hfind
      · exact .inr ⟨c :: mem, rfl, List.suffix_rfl⟩
      · rcases ih fun h => hmem (List.mem_cons_of_mem c h) with hnone | ⟨u, hu, hsuffix⟩
        · exact .inl hnone
        · exact .inr ⟨u, hu, hsuffix.trans (List.suffix_cons c mem)⟩

theorem checkGame_of_not_terminated (buf : CharArray (elfidNameMax + 1)) (id : ElfId)
    (hterm : ¬ Terminated game) : checkGame buf id game = none := by
  unfold checkGame
  rcases strstr_of_nul_notMem gameIdStart hterm with hnone | ⟨u, hu, hsuffix⟩
  · rw [hnone]
    rfl
  · have hsub : (u.drop gameIdStart.length).Sublist game.title.val :=
      (List.drop_sublist _ _).trans hsuffix.sublist
    have hshort := hsub.length_le
    rw [List.Vector.length_val] at hshort
    have hparse : elfidParse buf (u.drop gameIdStart.length) = none := by
      refine if_neg (not_or.mpr ⟨fun h => hterm (hsub.subset h), ?_⟩)
      unfold gameTitleMax at hshort
      unfold elfidNameMax
      omega
    rw [hu, Option.bind_some]
    dsimp only
    rw [hparse]
    rfl

end Game

theorem sublist_of_idText {title text : List Byte} (h : text ∈ idText title) :
    text.Sublist title := by
  obtain ⟨u, hu, rfl⟩ := Option.mem_map.mp h
  have hsuffix := (List.mem_tails _ _).mp (List.mem_of_find?_eq_some hu)
  exact (List.drop_sublist _ _).trans hsuffix.sublist

/-! ### The list of games -/

theorem Agrees.not_blankSize {file : List Byte} {size : Word} {title : List Byte}
    (h : Agrees file size title) : ¬ BlankSize file size title := by
  rintro ⟨text, htext, hblank⟩
  obtain ⟨text', htext', hagrees⟩ := h
  rw [Option.mem_unique htext' htext] at hagrees
  obtain ⟨t, ht, hspace⟩ := hblank.blank
  obtain ⟨v, hv⟩ := hagrees.read t ht
  rw [(sscanfI_eq_eof_iff t).mpr hspace] at hv
  cases hv

/-- The game at an index has a property. -/
def GameAt (list : List Game) (P : Game → Prop) (i : ℕ) : Prop := ∃ game ∈ list[i]?, P game

@[simp]
theorem gameAt_zero (game : Game) (list : List Game) (P : Game → Prop) :
    GameAt (game :: list) P 0 ↔ P game := by
  simp [GameAt]

@[simp]
theorem gameAt_succ (game : Game) (list : List Game) (P : Game → Prop) (i : ℕ) :
    GameAt (game :: list) P (i + 1) ↔ GameAt list P i := by
  simp [GameAt]

section Search

variable {stack : ℕ → CharArray (elfidNameMax + 1)} {id : ElfId} {game : Game} (list : List Game)

/-- The search ends at a game for which the body returns. -/
theorem findsGame_of_hit (P : Game → Prop) (h : checkGame (stack 0) id game = some true) :
    (∃ r, findCheats stack id (game :: list) = some r ∧ IsFirst (GameAt (game :: list) P) r) ↔
      P game := by
  rw [findCheats, h, Option.bind_some]
  constructor
  · rintro ⟨r, hr, hfirst⟩
    cases hr
    exact (gameAt_zero game list P).mp (hfirst.holds 0 rfl)
  · intro hP
    exact ⟨some 0, rfl, .zero ((gameAt_zero game list P).mpr hP)⟩

/-- The search goes on with the next game. -/
theorem findsGame_of_miss {P : Game → Prop} (h : checkGame (stack 0) id game = some false)
    (hP : ¬ P game) :
    (∃ r, findCheats stack id (game :: list) = some r ∧ IsFirst (GameAt (game :: list) P) r) ↔
      ∃ r, findCheats (fun i => stack (i + 1)) id list = some r ∧ IsFirst (GameAt list P) r := by
  rw [findCheats, h, Option.bind_some]
  constructor
  · rintro ⟨r, hr, hfirst⟩
    obtain ⟨r', hr', rfl⟩ := Option.map_eq_some_iff.mp hr
    exact ⟨r', hr', hfirst.of_succ.congr fun p => gameAt_succ game list P p⟩
  · rintro ⟨r, hr, hfirst⟩
    refine ⟨r.map (· + 1), Option.map_eq_some_iff.mpr ⟨r, hr, rfl⟩, .succ ?_ ?_⟩
    · rwa [gameAt_zero]
    · exact hfirst.congr fun p => (gameAt_succ game list P p).symm

end Search

/-- `__find_cheats` returns the first game that agrees, exactly if no title without a
terminator and no matching title with a blank size comes before it. -/
theorem findsGame_iff (stack : ℕ → CharArray (elfidNameMax + 1)) (file : List Byte) (size : Word)
    (list : List Game) (hfile : NUL ∉ file) (hlen : file.length ≤ 255) (hwc : 0x3F ∉ file)
    (hwc' : ∀ game ∈ list, ∀ text ∈ idText game.title.str, ∀ n ∈ field 0 text, 0x3F ∉ n) :
    (∃ r, findCheats stack (elfidSet file size) list = some r ∧
        IsFirst (GameAt list fun game => Agrees file size game.title.str) r) ↔
      ∀ q, GameAt list
          (fun game => ¬ Terminated game ∨ BlankSize file size game.title.str) q →
        ∃ p < q, GameAt list
          (fun game => Terminated game ∧ Agrees file size game.title.str) p := by
  induction list generalizing stack with
  | nil =>
      have hnone : ∀ P q, ¬ GameAt [] P q := by
        rintro P q ⟨_, h, -⟩
        cases h
      exact iff_of_true ⟨none, rfl, .none (hnone _)⟩ fun q hq => absurd hq (hnone _ q)
  | cons game list ih =>
      by_cases hterm : Terminated game
      · obtain ⟨found, hfound, hiff⟩ := checkGame_of_terminated (stack 0) size
          hfile hlen hwc hterm (hwc' game (by simp))
        cases found with
        | true =>
            rw [findsGame_of_hit list _ hfound]
            rcases hiff.mp rfl with hagrees | hblank
            · refine iff_of_true hagrees (forall_exists_lt_of_zero ?_ ?_)
              · rw [gameAt_zero]
                exact ⟨hterm, hagrees⟩
              · rw [gameAt_zero, not_or, not_not]
                exact ⟨hterm, hagrees.not_blankSize⟩
            · refine iff_of_false (fun hagrees => hagrees.not_blankSize hblank)
                (not_forall_exists_lt ?_)
              rw [gameAt_zero]
              exact .inr hblank
        | false =>
            obtain ⟨hagrees, hblank⟩ := not_or.mp (mt hiff.mpr (by simp))
            rw [findsGame_of_miss list hfound hagrees, forall_exists_lt_succ_iff
              (by simpa using fun _ => hagrees) (by simpa using ⟨hterm, hblank⟩)]
            simp only [gameAt_succ]
            exact ih _ fun game' h => hwc' game' (List.mem_cons_of_mem game h)
      · -- the title runs into what follows its array
        refine iff_of_false ?_ (not_forall_exists_lt ?_)
        · rintro ⟨r, hr, -⟩
          rw [findCheats, checkGame_of_not_terminated (stack 0) _ hterm] at hr
          cases hr
        · rw [gameAt_zero]
          exact .inl hterm

/-- A game whose title is stored in a zero-filled array. -/
def titledGame (title : List Byte) : Game :=
  { title := CharArray.strncpy (List.Vector.replicate _ NUL) title gameTitleMax (Nat.le_succ _)
    cheats := []
    tag := 0 }

/-- `X /ID SLES 0x10` -/
def sizedTitle : List Byte :=
  [0x58, 0x20, 0x2F, 0x49, 0x44, 0x20, 0x53, 0x4C, 0x45, 0x53, 0x20, 0x30, 0x78, 0x31, 0x30]

/-- `X /ID SLES` and a vertical tab as the size -/
def blankTitle : List Byte :=
  [0x58, 0x20, 0x2F, 0x49, 0x44, 0x20, 0x53, 0x4C, 0x45, 0x53, 0x20, 0x0B]

/-- `X /ID SLUS 0x10` -/
def otherTitle : List Byte :=
  [0x58, 0x20, 0x2F, 0x49, 0x44, 0x20, 0x53, 0x4C, 0x55, 0x53, 0x20, 0x30, 0x78, 0x31, 0x30]

/-- A list with a game for another file in front, and two for this one. -/
def threeGames : List Game := [titledGame otherTitle, titledGame sizedTitle, titledGame sizedTitle]

/-- The second game is found: it is the first one that agrees. -/
theorem findsGame_iff_threeGames :
    findCheats (fun _ => List.Vector.replicate _ NUL) (elfidSet [0x53, 0x4C, 0x45, 0x53] 16)
        threeGames = some (some 1) ∧
      IsFirst (GameAt threeGames fun game => Agrees [0x53, 0x4C, 0x45, 0x53] 16 game.title.str)
        (some 1) := by
  have hgames : ∀ game ∈ threeGames, Terminated game ∧ 0x3F ∉ game.title.str := by
    intro game hgame
    simp only [threeGames, List.mem_cons, List.not_mem_nil, or_false] at hgame
    rcases hgame with rfl | rfl | rfl <;> exact ⟨by unfold Terminated; decide, by decide⟩
  have hwc : ∀ game ∈ threeGames, ∀ text ∈ idText game.title.str, ∀ n ∈ field 0 text,
      0x3F ∉ n := fun game hgame text htext n hn hmem =>
    (hgames game hgame).2 ((sublist_of_idText htext).subset
      ((sublist_of_mem_fields (mem_fields_of_field hn).1).subset hmem))
  obtain ⟨r, hr, hfirst⟩ := (findsGame_iff (fun _ => List.Vector.replicate _ NUL)
    [0x53, 0x4C, 0x45, 0x53] 16 threeGames (by decide) (by decide) (by decide) hwc).mpr
      fun q hq => by
        obtain ⟨game, hgame, hbad⟩ := hq
        rcases hbad with hterm | ⟨text, -, hblank⟩
        · exact absurd (hgames game (List.mem_of_getElem? hgame)).1 hterm
        · exact absurd hblank.unset (by decide)
  have hrun : findCheats (fun _ => List.Vector.replicate _ NUL)
      (elfidSet [0x53, 0x4C, 0x45, 0x53] 16) threeGames = some (some 1) := by
    decide +kernel
  obtain rfl := Option.some.inj (hrun.symm.trans hr)
  exact ⟨hrun, hfirst⟩

/-- For a file without a size the blank token is no obstacle. -/
theorem not_findsGame_blankTitle :
    ¬ ∃ r, findCheats (fun _ => List.Vector.replicate _ NUL)
        (elfidSet [0x53, 0x4C, 0x45, 0x53] 0) [titledGame blankTitle] = some r ∧
        IsFirst (GameAt [titledGame blankTitle]
          fun game => Agrees [0x53, 0x4C, 0x45, 0x53] 0 game.title.str) r := by
  rintro ⟨r, hr, hfirst⟩
  have hrun : findCheats (fun _ => List.Vector.replicate _ NUL)
      (elfidSet [0x53, 0x4C, 0x45, 0x53] 0) [titledGame blankTitle] = some (some 0) := by
    decide +kernel
  cases hrun.symm.trans hr
  obtain ⟨text, htext, hagrees⟩ := (gameAt_zero _ _ _).mp (hfirst.holds 0 rfl)
  have hid : idText (titledGame blankTitle).title.str =
      some [0x20, 0x53, 0x4C, 0x45, 0x53, 0x20, 0x0B] := by
    decide +kernel
  rw [hid] at htext
  cases htext
  have hfield : field 1 [0x20, 0x53, 0x4C, 0x45, 0x53, 0x20, 0x0B] = some [0x0B] := by
    have hname : strtok [0x20, 0x53, 0x4C, 0x45, 0x53, 0x20, 0x0B] =
        some ([0x53, 0x4C, 0x45, 0x53], [0x0B]) := by
      decide
    have hsize : strtok [0x0B] = some ([0x0B], []) := by
      decide
    rw [field, fields_of_strtok_some hname, fields_of_strtok_some hsize]
    rfl
  obtain ⟨v, hv⟩ := hagrees.read [0x0B] hfield
  rw [(sscanfI_eq_eof_iff [0x0B]).mpr (by decide)] at hv
  cases hv

end Ps2rd.Loader
