import Ps2rd.Lib.Layout
import Ps2rd.Lib.Region
import Ps2rd.Loader.FindCheats

/-!
# The arguments of a program

The loader splits the boot string into tokens with `build_argv` and calls `LoadExecPS2`; the
call leads to `MyLoadExecPS2`, which packs the arguments into `_argbuf` before the
loader's memory is given up.

The tokens are cut from at most 255 characters, and each needs one byte more than it has
characters.  So they fit into 256 bytes (`total_fields_le`), and what comes
from the loader arrives intact (`arguments_intact`).  `MyLoadExecPS2` itself checks nothing: it
limits `_argc`, but copies as many arguments as it gets, of any length (`safe_iff`).

A string is the list of its characters here, without the terminator.
-/

namespace Ps2rd.Loader

open CString

/-! ### elfldr.c -/

/-- `MAX_ARGS` -/
def maxArgs : ℕ := 15

/-- The size of `_argbuf`. -/
def argbufSize : ℕ := 256

/-- `_argc`, `_argv` and `_argbuf`.  An entry of `_argv` is an offset into `_argbuf`. -/
structure Args where
  argc : ℤ
  argv : Region ℕ
  argbuf : Region Byte

/-- `__strcpy(p, src); _argv[i] = p;` where `none` stands for a write outside of the arrays.
No terminator is written. -/
def copyArg (i p : ℕ) (src : List Byte) (s : Args) : Option Args :=
  if (src = [] ∨ p + src.length ≤ argbufSize) ∧ i < 1 + maxArgs then
    some { s with argbuf := s.argbuf.write p src, argv := s.argv.write i [p] }
  else none

/-- The loop over the arguments, from entry `i` of `_argv` on. -/
def copyArgs : ℕ → ℕ → List (List Byte) → Args → Option Args
  | _, _, [], s => some s
  | i, p, src :: rest, s => (copyArg i p src s).bind (copyArgs (i + 1) (p + (src.length + 1)) rest)

/-- `MyLoadExecPS2`, up to the start of the loader thread. -/
def myLoadExecPS2 (filename : List Byte) (argv : List (List Byte)) (s : Args) : Option Args :=
  let argc : ℤ := argv.length
  let s := { s with
    argc := if argc > maxArgs then maxArgs else argc
    argbuf := s.argbuf.write 0 (List.replicate argbufSize NUL) }
  (copyArg 0 0 filename s).bind fun s =>
    copyArgs 1 (filename.length + 1) argv { s with argc := s.argc + 1 }

/-! ### myutil.h and loader.c -/

/-- The loop of `build_argv` with room for `n` more arguments. -/
def tokenLoop : ℕ → List Byte → List (List Byte)
  | 0, _ => []
  | n + 1, s =>
      match strtok s with
      | none => []
      | some (tok, rest) => tok :: tokenLoop n rest

/-- `build_argv` with room for `max` arguments; the entries behind the tokens are `NULL`. -/
def buildArgv (s : List Byte) (max : ℕ) : List (List Byte) :=
  let argbuf := strncpy (List.replicate 256 NUL) s 255
  tokenLoop max (cstr argbuf)

/-- `build_argv` and `LoadExecPS2(argv[0], argc - 1, &argv[1])` as in `__start_elf`.  Without a
token `argv[0]` is `NULL`, which `MyLoadExecPS2` does not expect: `none`. -/
def startElf (boot : List Byte) (s : Args) : Option Args :=
  match buildArgv boot 16 with
  | [] => none
  | filename :: argv => myLoadExecPS2 filename argv s

/-! ### Packing -/

/-- The bytes that a string takes with its terminator. -/
def argSize (t : List Byte) : ℕ := t.length + 1

/-- Where string `i` is packed. -/
def argOffset (strings : List (List Byte)) (i : ℕ) : ℕ := Layout.offset argSize strings i

@[simp]
theorem argOffset_zero (strings : List (List Byte)) : argOffset strings 0 = 0 := rfl

@[simp]
theorem argOffset_cons_succ (t : List Byte) (strings : List (List Byte)) (i : ℕ) :
    argOffset (t :: strings) (i + 1) = t.length + 1 + argOffset strings i :=
  Layout.offset_cons_succ argSize t strings i

section

variable {i p : ℕ} {strings : List (List Byte)} {s r : Args}

/-- Every string fits in the buffer, when the first of them goes to offset `p`. -/
def Fits (p : ℕ) (strings : List (List Byte)) : Prop :=
  ∀ k t, strings[k]? = some t → t = [] ∨ p + argOffset strings k + t.length ≤ argbufSize

theorem fits_cons_iff (t : List Byte) :
    Fits p (t :: strings) ↔
      (t = [] ∨ p + t.length ≤ argbufSize) ∧ Fits (p + (t.length + 1)) strings := by
  constructor
  · intro h
    refine ⟨by simpa using h 0 t rfl, fun k u hu => ?_⟩
    have hk := h (k + 1) u hu
    rwa [argOffset_cons_succ, ← Nat.add_assoc] at hk
  · rintro ⟨hfirst, hrest⟩ k u hu
    cases k with
    | zero =>
        cases hu
        simpa using hfirst
    | succ k =>
        have hk := hrest k u hu
        rwa [argOffset_cons_succ, ← Nat.add_assoc]

/-- The loop stays inside of the arrays exactly if there are entries and bytes enough. -/
theorem copyArgs_isSome_iff (strings : List (List Byte)) (s : Args) (hi : i ≤ 1 + maxArgs) :
    (copyArgs i p strings s).isSome = true ↔
      i + strings.length ≤ 1 + maxArgs ∧ Fits p strings := by
  induction strings generalizing i p s with
  | nil => simp [copyArgs, hi, Fits]
  | cons t strings ih =>
      rw [copyArgs, fits_cons_iff, copyArg]
      split_ifs with h
      · rw [Option.bind_some, ih _ (by omega), List.length_cons]
        have hassoc : i + 1 + strings.length = i + (strings.length + 1) := by omega
        rw [hassoc]
        simp [h.1]
      · simp only [Option.bind_none, Option.isSome_none, Bool.false_eq_true, false_iff,
          List.length_cons]
        rintro ⟨hlen, hfirst, -⟩
        exact h ⟨hfirst, by omega⟩

theorem copyArgs_of_cons {t : List Byte} (h : copyArgs i p (t :: strings) s = some r) :
    copyArgs (i + 1) (p + (t.length + 1)) strings
      ⟨s.argc, s.argv.write i [p], s.argbuf.write p t⟩ = some r := by
  obtain ⟨s', hcopy, hrest⟩ := Option.bind_eq_some_iff.mp h
  rw [copyArg] at hcopy
  split_ifs at hcopy
  cases hcopy
  exact hrest

/-- A string and its terminator lie within what all strings take. -/
theorem argOffset_add_length_lt {k : ℕ} {t : List Byte} (h : strings[k]? = some t) :
    argOffset strings k + t.length < Layout.total argSize strings := by
  have hle : argOffset strings k + argSize t ≤ Layout.total argSize strings :=
    Layout.offset_add_size_le_total h
  exact hle

theorem argc_copyArgs (h : copyArgs i p strings s = some r) : r.argc = s.argc := by
  induction strings generalizing i p s with
  | nil =>
      cases h
      rfl
  | cons t strings ih =>
      have hrest := ih (copyArgs_of_cons h)
      exact hrest

/-- What the loop has written: entry `i + k` of `_argv` leads to string `k`, with a NUL
behind it, and nothing before `i` and `p` has changed. -/
structure Copied (i p : ℕ) (strings : List (List Byte)) (s r : Args) : Prop where
  argv : ∀ k < i, r.argv k = s.argv k
  argbuf : ∀ q < p, r.argbuf q = s.argbuf q
  pointer : ∀ k < strings.length, r.argv (i + k) = p + argOffset strings k
  text : ∀ k t, strings[k]? = some t →
    r.argbuf.read (p + argOffset strings k) (t.length + 1) = t ++ [NUL]

/-- The copy of a string ends with the NUL that was there before. -/
theorem read_write_nul {buf : Region Byte} {t : List Byte} (hclear : buf (p + t.length) = NUL) :
    (buf.write p t).read p (t.length + 1) = t ++ [NUL] := by
  rw [Region.read_add, Region.read_write_self]
  congr 1
  show [buf.write p t (p + t.length + 0)] = [NUL]
  rw [Nat.add_zero, Region.write_of_disjoint _ (.inr le_rfl), hclear]

/-- The buffer is still clear from `p` on, which is what ends each string. -/
theorem copied_of_copyArgs (hclear : ∀ q, p ≤ q → q < argbufSize → s.argbuf q = NUL)
    (hroom : p + Layout.total argSize strings ≤ argbufSize)
    (h : copyArgs i p strings s = some r) : Copied i p strings s r := by
  induction strings generalizing i p s with
  | nil =>
      cases h
      exact ⟨fun _ _ => rfl, fun _ _ => rfl, fun k hk => absurd hk (Nat.not_lt_zero k), by simp⟩
  | cons t strings ih =>
      have htotal : Layout.total argSize (t :: strings) =
          t.length + 1 + Layout.total argSize strings := Layout.total_cons argSize t strings
      rw [htotal] at hroom
      -- the strings behind the first start at its terminator
      have hrest : Copied (i + 1) (p + (t.length + 1)) strings
          ⟨s.argc, s.argv.write i [p], s.argbuf.write p t⟩ r := by
        apply ih _ (by omega) (copyArgs_of_cons h)
        intro q hq hlt
        show s.argbuf.write p t q = NUL
        rw [Region.write_of_disjoint _ (.inr (by omega)), hclear q (by omega) hlt]
      refine ⟨fun k hk => ?_, fun q hq => ?_, fun k hk => ?_, fun k u hu => ?_⟩
      · rw [hrest.argv k (by omega)]
        exact Region.write_of_disjoint _ (.inl hk)
      · rw [hrest.argbuf q (by omega)]
        exact Region.write_of_disjoint _ (.inl hq)
      · cases k with
        | zero =>
            have hpointer : s.argv.write i [p] i = p := by simp [Region.write]
            rw [Nat.add_zero, hrest.argv i (by omega), argOffset_zero, Nat.add_zero]
            exact hpointer
        | succ k =>
            have hk' : k < strings.length := by simpa using hk
            calc r.argv (i + (k + 1)) = r.argv (i + 1 + k) := by rw [Nat.add_right_comm]; rfl
              _ = p + (t.length + 1) + argOffset strings k := hrest.pointer k hk'
              _ = p + argOffset (t :: strings) (k + 1) := by rw [argOffset_cons_succ, Nat.add_assoc]
      · cases k with
        | zero =>
            cases hu
            have hnul : s.argbuf (p + t.length) = NUL := hclear _ (by omega) (by omega)
            rw [argOffset_zero, Nat.add_zero, ← read_write_nul hnul]
            apply Region.read_congr
            intro q hq
            exact hrest.argbuf _ (by omega)
        | succ k =>
            rw [argOffset_cons_succ, ← Nat.add_assoc]
            exact hrest.text k u hu

end

/-- The state the copying starts from. -/
def clearArgs (argc : ℕ) (s : Args) : Args where
  argc := (min maxArgs argc : ℕ) + 1
  argv := s.argv
  argbuf := s.argbuf.write 0 (List.replicate argbufSize NUL)

section

variable {filename : List Byte} {argv : List (List Byte)} {s r : Args}

/-- The file name is copied like the arguments. -/
theorem myLoadExecPS2_eq (filename : List Byte) (argv : List (List Byte)) (s : Args) :
    myLoadExecPS2 filename argv s =
      copyArgs 0 0 (filename :: argv) (clearArgs argv.length s) := by
  have hargc : (if (argv.length : ℤ) > maxArgs then (maxArgs : ℤ) else argv.length) =
      (min maxArgs argv.length : ℕ) := by
    split_ifs with h <;> omega
  unfold myLoadExecPS2 clearArgs
  simp only [hargc, copyArgs, copyArg, Nat.zero_add]
  split_ifs <;> rfl

theorem exists_myLoadExecPS2_iff :
    (∃ r, myLoadExecPS2 filename argv s = some r) ↔
      argv.length ≤ maxArgs ∧ Fits 0 (filename :: argv) := by
  rw [← Option.isSome_iff_exists, myLoadExecPS2_eq, copyArgs_isSome_iff _ _ (Nat.zero_le _)]
  rw [List.length_cons, Nat.zero_add, Nat.add_comm, Nat.add_le_add_iff_left]

theorem argc_myLoadExecPS2 (h : myLoadExecPS2 filename argv s = some r) :
    r.argc = (min maxArgs argv.length : ℕ) + 1 := by
  rw [myLoadExecPS2_eq] at h
  exact argc_copyArgs h

theorem copied_of_myLoadExecPS2
    (hroom : Layout.total argSize (filename :: argv) ≤ argbufSize)
    (h : myLoadExecPS2 filename argv s = some r) :
    Copied 0 0 (filename :: argv) (clearArgs argv.length s) r := by
  rw [myLoadExecPS2_eq] at h
  refine copied_of_copyArgs (fun q _ hq => ?_) (by rwa [Nat.zero_add]) h
  show s.argbuf.write 0 (List.replicate argbufSize NUL) q = NUL
  rw [Region.write_of_mem _ (Nat.zero_le q) (by simpa using hq), List.getElem_replicate]

end

/-! ### Any caller -/

/-- All writes stay inside of `_argbuf` and `_argv`, and no more than `MAX_ARGS` arguments are
recorded behind the file name. -/
def Safe (filename : List Byte) (argv : List (List Byte)) (s : Args) : Prop :=
  ∃ r, myLoadExecPS2 filename argv s = some r ∧ r.argc ≤ 1 + maxArgs

/-- The count is limited, the copying is not. -/
theorem safe_iff (filename : List Byte) (argv : List (List Byte)) (s : Args) :
    Safe filename argv s ↔ argv.length ≤ maxArgs ∧ Fits 0 (filename :: argv) := by
  rw [← exists_myLoadExecPS2_iff (s := s)]
  constructor
  · rintro ⟨r, hr, -⟩
    exact ⟨r, hr⟩
  · rintro ⟨r, hr⟩
    refine ⟨r, hr, ?_⟩
    rw [argc_myLoadExecPS2 hr]
    omega

/-- One argument more than there is room for. -/
theorem not_safe_sixteen :
    ¬ Safe [0x61] (List.replicate 16 [0x62]) ⟨0, fun _ => 0, fun _ => NUL⟩ := by
  rintro ⟨r, hr, -⟩
  have hnone : (myLoadExecPS2 [0x61] (List.replicate 16 [0x62])
      ⟨0, fun _ => 0, fun _ => NUL⟩).isNone = true := by decide +kernel
  rw [hr] at hnone
  cases hnone

/-! ### The loader -/

theorem tokenLoop_eq_take (n : ℕ) (s : List Byte) : tokenLoop n s = (fields s).take n := by
  induction n generalizing s with
  | zero => rfl
  | succ n ih =>
      rw [tokenLoop]
      cases htok : strtok s with
      | none =>
          rw [fields_of_strtok_none htok]
          rfl
      | some p =>
          rw [fields_of_strtok_some htok, List.take_succ_cons]
          exact congrArg _ (ih p.2)

theorem cstr_strncpy_replicate (s : List Byte) :
    cstr (strncpy (List.replicate 256 NUL) s 255) = (cstr s).take 255 := by
  have hnul : NUL ∉ (cstr s).take 255 := fun h => nul_notMem_cstr s (List.mem_of_mem_take h)
  have hfill : List.replicate (255 - (cstr s).length) NUL ++ (List.replicate 256 NUL).drop 255 =
      NUL :: List.replicate (255 - (cstr s).length) NUL := by
    rw [List.drop_replicate, List.replicate_append_replicate]
    rfl
  rw [strncpy, List.append_assoc, hfill, cstr_append_nul hnul]

theorem buildArgv_eq (s : List Byte) (max : ℕ) :
    buildArgv s max = (fields ((cstr s).take 255)).take max := by
  rw [buildArgv, cstr_strncpy_replicate, tokenLoop_eq_take]

/-- What the pieces of a text take with a byte for the end of each: one byte more than
the text, since each separator ends a piece. -/
theorem total_splitOnP (text : List Byte) :
    Layout.total argSize (text.splitOnP isSep) = text.length + 1 := by
  induction text with
  | nil => rfl
  | cons c text ih =>
      rw [List.splitOnP_cons_eq_if_modifyHead, List.length_cons, ← ih]
      split_ifs with hc
      · rw [Layout.total_cons]
        exact Nat.add_comm _ _
      · obtain ⟨u, us, hus⟩ := List.exists_cons_of_ne_nil (List.splitOnP_ne_nil isSep text)
        rw [hus, List.modifyHead_cons, Layout.total_cons, Layout.total_cons, argSize, argSize,
          List.length_cons]
        omega

theorem total_fields_le (text : List Byte) :
    Layout.total argSize (fields text) ≤ text.length + 1 := by
  rw [← total_splitOnP]
  exact Layout.total_le_of_sublist argSize List.filter_sublist

/-- What the program that is started finds: as many arguments as there are tokens in the
first 255 characters, but at most 16, each of them whole and terminated within `_argbuf`. -/
structure Intact (boot : List Byte) (r : Args) : Prop where
  argc : r.argc = (min 16 (fields ((cstr boot).take 255)).length : ℕ)
  args : ∀ i : ℕ, i < r.argc → ∃ t ∈ (fields ((cstr boot).take 255))[i]?,
    r.argv i + t.length < argbufSize ∧ r.argbuf.read (r.argv i) (t.length + 1) = t ++ [NUL]

/-- The tokens that `build_argv` finds fit into `_argbuf` with their terminators. -/
theorem total_buildArgv_le (boot : List Byte) (max : ℕ) :
    Layout.total argSize (buildArgv boot max) ≤ argbufSize := by
  rw [buildArgv_eq]
  calc Layout.total argSize ((fields ((cstr boot).take 255)).take max)
      ≤ Layout.total argSize (fields ((cstr boot).take 255)) :=
        Layout.total_le_of_sublist argSize (List.take_sublist max _)
    _ ≤ ((cstr boot).take 255).length + 1 := total_fields_le _
    _ ≤ argbufSize := Nat.succ_le_succ (List.length_take_le 255 (cstr boot))

/-- Strings that fit with their terminators arrive. -/
theorem exists_myLoadExecPS2_of_room {filename : List Byte} {argv : List (List Byte)} (s : Args)
    (hlen : argv.length ≤ maxArgs)
    (hroom : Layout.total argSize (filename :: argv) ≤ argbufSize) :
    ∃ r, myLoadExecPS2 filename argv s = some r ∧ r.argc = (filename :: argv).length ∧
      ∀ i t, (filename :: argv)[i]? = some t →
        r.argv i + t.length < argbufSize ∧
          r.argbuf.read (r.argv i) (t.length + 1) = t ++ [NUL] := by
  have hfits : Fits 0 (filename :: argv) := by
    intro k t ht
    right
    rw [Nat.zero_add]
    exact (argOffset_add_length_lt ht).le.trans hroom
  obtain ⟨r, hr⟩ := exists_myLoadExecPS2_iff (s := s) |>.mpr ⟨hlen, hfits⟩
  have hcopied := copied_of_myLoadExecPS2 hroom hr
  refine ⟨r, hr, ?_, fun i t ht => ?_⟩
  · rw [argc_myLoadExecPS2 hr, Nat.min_eq_right hlen, List.length_cons, Nat.cast_succ]
  · have hi : i < (filename :: argv).length := (List.getElem?_eq_some_iff.mp ht).1
    have hpointer : r.argv i = argOffset (filename :: argv) i := by
      simpa using hcopied.pointer i hi
    rw [hpointer]
    exact ⟨(argOffset_add_length_lt ht).trans_le hroom, by simpa using hcopied.text i t ht⟩

/-- The arguments arrive intact, and nothing is written outside of the arrays. -/
theorem arguments_intact (boot : List Byte) (s : Args)
    (htok : fields ((cstr boot).take 255) ≠ []) :
    ∃ r, startElf boot s = some r ∧ Intact boot r := by
  have hroom := total_buildArgv_le boot 16
  have htokens := buildArgv_eq boot 16
  obtain ⟨filename, argv, hargv⟩ : ∃ filename argv, buildArgv boot 16 = filename :: argv :=
    List.exists_cons_of_ne_nil (by simpa [htokens] using htok)
  rw [hargv] at hroom htokens
  have hlen : (filename :: argv).length = min 16 (fields ((cstr boot).take 255)).length := by
    rw [htokens, List.length_take]
  have hargs : argv.length ≤ maxArgs := by
    rw [List.length_cons] at hlen
    rw [maxArgs]
    omega
  obtain ⟨r, hr, hargc, htexts⟩ := exists_myLoadExecPS2_of_room s hargs hroom
  refine ⟨r, by rw [startElf, hargv]; exact hr, by rw [hargc, hlen], fun i hi => ?_⟩
  -- argument `i` is token `i`
  have hi' : i < (filename :: argv).length := by omega
  have hget := List.getElem?_eq_getElem hi'
  have htoken : (fields ((cstr boot).take 255))[i]? = some (filename :: argv)[i] := by
    rw [← hget, htokens, List.getElem?_take_of_lt (by omega)]
  exact ⟨_, htoken, htexts i _ hget⟩

theorem arguments_intact_two :
    ∃ r, startElf [0x61, 0x20, 0x09, 0x62] ⟨0, fun _ => 0, fun _ => 0xff⟩ = some r ∧
      Intact [0x61, 0x20, 0x09, 0x62] r :=
  arguments_intact _ _ (by decide)

/-- The only token lies behind what `build_argv` copies, and `argv[0]` is `NULL`. -/
theorem not_intact_of_blanks :
    fields (cstr (List.replicate 255 0x20 ++ [0x61])) ≠ [] ∧
      ¬ ∃ r, startElf (List.replicate 255 0x20 ++ [0x61]) ⟨0, fun _ => 0, fun _ => NUL⟩ = some r ∧
        Intact (List.replicate 255 0x20 ++ [0x61]) r := by
  refine ⟨by decide +kernel, ?_⟩
  rintro ⟨r, hr, -⟩
  have hnone : (startElf (List.replicate 255 0x20 ++ [0x61])
      ⟨0, fun _ => 0, fun _ => NUL⟩).isNone = true := by decide +kernel
  rw [hr] at hnone
  cases hnone

end Ps2rd.Loader
