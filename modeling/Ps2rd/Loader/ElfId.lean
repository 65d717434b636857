import Ps2rd.CString.Hex
import Ps2rd.Loader.StrstrWc
import Ps2rd.Cheats.CheatList

/-!
# The id of an ELF file

The title of a game may end in `/ID NAME SIZE`.  `elfid_parse` reads that part with
`strtok` and `sscanf`, `elfid_compare` compares it with the id of a file, and
`__find_cheats` looks for the first game whose id agrees.
-/

namespace Ps2rd.Loader

open CString Cheats

/-! ### The C library -/

/-- `strstr`: the pointer to the first occurrence, as the memory from there on. -/
def strstr (needle : List Byte) : List Byte → Option (Option (List Byte))
  | [] => none
  | c :: rest =>
      if needle.isPrefixOf (c :: rest) then some (some (c :: rest))
      else if c = NUL then some none
      else strstr needle rest

/-- The separators `" \t"`. -/
def isSep (c : Byte) : Bool := c = 0x20 || c = 0x09

/-- `strtok`: the next token, and the string that the next call goes on with. -/
def strtok (s : List Byte) : Option (List Byte × List Byte) :=
  let s := s.dropWhile isSep
  if s = [] then none
  else some (s.takeWhile (!isSep ·), (s.dropWhile (!isSep ·)).drop 1)

/-- The result of `sscanf(s, "%i", &v)`. -/
inductive Scan
  /-- The string ends before the number; `sscanf` returns `EOF`. -/
  | eof
  /-- It holds no number there; `sscanf` returns 0. -/
  | failure
  /-- A number, which is stored; `sscanf` returns 1. -/
  | value (v : Word)
  deriving DecidableEq

/-- What `sscanf` returns. -/
def Scan.ret : Scan → ℤ
  | eof => -1
  | failure => 0
  | value _ => 1

/-- The variable behind the pointer, which held `old`. -/
def Scan.store (old : Word) : Scan → Word
  | eof => old
  | failure => old
  | value v => v

/-- The digits at the head of a string, with their value. -/
def scanDigits (isDigit : Byte → Bool) (base : ℕ) (s : List Byte) : Option ℕ :=
  match s.takeWhile isDigit with
  | [] => none
  | ds => some (digitsValue base ds)

def isodigit (c : Byte) : Bool := 0x30 ≤ c && c ≤ 0x37

/-- A number without its sign: hexadecimal behind `0x`, octal behind `0`. -/
def scanNumber : List Byte → Option ℕ
  | 0x30 :: x :: s =>
      if x = 0x78 ∨ x = 0x58 then scanDigits isxdigit 16 s
      else scanDigits isodigit 8 (0x30 :: x :: s)
  | s => scanDigits isdigit 10 s

/-- `sscanf` with `%i`.  A number that does not fit wraps here. -/
def sscanfI (s : List Byte) : Scan :=
  let negate (v : ℕ) : Scan := .value (BitVec.ofInt 32 (-v))
  let plain (v : ℕ) : Scan := .value (BitVec.ofNat 32 v)
  match s.dropWhile isspace with
  | [] => .eof
  | 0x2D :: s => (scanNumber s).elim .failure negate
  | 0x2B :: s => (scanNumber s).elim .failure plain
  | s => (scanNumber s).elim .failure plain

/-! ### elfid.c -/

/-- `ELFID_NAME_MAX` -/
def elfidNameMax : ℕ := 255

/-- `ELFID_F_NAME` -/
def elfidFName : Word := 1

/-- `ELFID_F_SIZE` -/
def elfidFSize : Word := 2

/-- `elfid_t` -/
structure ElfId where
  name : CharArray (elfidNameMax + 1)
  size : Word
  set : Word
  deriving DecidableEq

/-- After `memset(id, 0, sizeof(elfid_t))`. -/
def ElfId.zero : ElfId := ⟨List.Vector.replicate _ NUL, 0, 0⟩

def ElfId.setName (id : ElfId) (name : List Byte) : ElfId :=
  { id with
    name := id.name.strncpy name elfidNameMax (Nat.le_succ _)
    set := id.set ||| elfidFName }

def ElfId.has (id : ElfId) (flag : Word) : Bool := id.set &&& flag ≠ 0

/-- `elfid_set` for an id and a name that are not `NULL` -/
def elfidSet (name : List Byte) (size : Word) : ElfId :=
  let id := ElfId.zero.setName name
  if size > 0 then { id with size, set := id.set ||| elfidFSize } else id

/-- The second part of `elfid_compare`, with `match` as the first part has left it. -/
def compareSize (id1 id2 : ElfId) (matched : Word) : ℤ :=
  if id1.has elfidFSize && id2.has elfidFSize then
    if id1.size = id2.size then if matched ||| elfidFSize ≠ 0 then 0 else -1
    else -1
  else if matched ≠ 0 then 0 else -1

/-- `elfid_compare` -/
def elfidCompare (id1 id2 : ElfId) (wc : ℤ) : Option ℤ :=
  if id1.has elfidFName && id2.has elfidFName then
    (strstrWc id1.name.val id2.name.val wc).map fun pos =>
      if pos.isSome then compareSize id1 id2 elfidFName else -1
  else some (compareSize id1 id2 0)

/-- `p[0] == '-'`, which means that the value is not set -/
def isUnset (p : List Byte) : Bool := p.head? = some 0x2D

/-- The body of the loop of `elfid_parse` for the token `p`; `none` stands for
`return -1`. -/
def elfidField (i : ℕ) (p : List Byte) (id : ElfId) : Option ElfId :=
  if isUnset p then some id
  else match i with
    | 0 => some (id.setName p)
    | 1 =>
        if (sscanfI p).ret = 0 then none
        else some { id with size := (sscanfI p).store id.size, set := id.set ||| elfidFSize }
    | _ => some id

/-- The loop of `elfid_parse`, of which `n` rounds are left. -/
def elfidFields : ℕ → Option (List Byte × List Byte) → ElfId → Option ElfId
  | n + 1, some (p, rest), id => (elfidField (2 - n) p id).bind (elfidFields n (strtok rest))
  | _, _, id => some id

/-- `elfid_parse`, with the bytes that `buf` holds before.  The outer `none` stands for
a read behind the memory at `s`. -/
def elfidParse (buf : CharArray (elfidNameMax + 1)) (s : List Byte) : Option (Option ElfId) :=
  if NUL ∈ s ∨ elfidNameMax ≤ s.length then
    let buf := buf.strncpy s elfidNameMax (Nat.le_succ _)
    if NUL ∈ buf.val then some (elfidFields 3 (strtok buf.str) .zero) else none
  else none

/-! ### cheatman.c -/

/-- `GAME_ID_START` -/
def gameIdStart : List Byte := [0x2F, 0x49, 0x44]

/-- `GAME_ID_WC` -/
def gameIdWc : ℤ := 0x3F

/-- The body of the loop of `__find_cheats`: whether the game is returned. -/
def checkGame (buf : CharArray (elfidNameMax + 1)) (id : ElfId) (game : Game) : Option Bool :=
  (strstr gameIdStart game.title.val).bind fun p =>
    match p with
    | none => some false
    | some p =>
        (elfidParse buf (p.drop gameIdStart.length)).bind fun parsed =>
          match parsed with
          | none => some false
          | some id2 => (elfidCompare id id2 gameIdWc).map (· = 0)

/-- `__find_cheats`; the game that it returns is an index into the list.  `stack i` is
what the buffer of `elfid_parse` holds before its `i`-th call. -/
def findCheats (stack : ℕ → CharArray (elfidNameMax + 1)) (id : ElfId) :
    List Game → Option (Option ℕ)
  | [] => some none
  | game :: list =>
      (checkGame (stack 0) id game).bind fun found =>
        if found then some (some 0)
        else (findCheats (fun i => stack (i + 1)) id list).map (·.map (· + 1))

end Ps2rd.Loader
