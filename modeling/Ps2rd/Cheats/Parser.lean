import Ps2rd.CString.Hex
import Ps2rd.Cheats.CheatList
import Ps2rd.Cheats.MyString

/-!
# The parser of the cheats text

`parse_buf` splits a text buffer into lines, screens each line (a comment is
cut off, white space at both ends removed), classifies it as a game title, a
cheat description or a cheat code, and appends the object made from it to the
list it belongs to.

The context keeps pointers to the current game and the current cheat.  Objects
are only ever added at a tail, so a pointer is modelled by the position of its
object: the index of the game, and of the cheat within its game.  A pointer
left over from an earlier game still denotes that game's cheat.  Dereferencing
`NULL` and writing past a local array are outcomes of their own (`Fault`), so
that their absence is a theorem and not an assumption of the model.
-/

namespace Ps2rd.Cheats

open CString

/-- Max line length to parse. -/
def lineMax : ℕ := 255

/-- Number of digits per cheat code. -/
def codeDigits : ℕ := 16

/-- The `TOK_*` values. -/
inductive Tok where
  | gameTitle
  | cheatDesc
  | cheatCode
deriving DecidableEq, Repr

/-- The flag of a token in a set of expected tokens. -/
def Tok.flag : Tok → ℕ
  | .gameTitle => 1
  | .cheatDesc => 2
  | .cheatCode => 4

/-- `tok2str`. -/
def Tok.str : Tok → String
  | .gameTitle => "game title"
  | .cheatDesc => "cheat description"
  | .cheatCode => "cheat code"

/-- `is_cmt_str`: the string starts with `//` or `#`. -/
def isCmtStr (s : List Byte) : Bool := s.take 2 = [0x2F, 0x2F] || s.head? = some 0x23

/-- `is_game_title`: longer than two bytes and quoted at both ends. -/
def isGameTitle (s : List Byte) : Bool :=
  s.length > 2 && s.head? = some 0x22 && s.getLast? = some 0x22

/-- The loop of `is_cheat_code`, with `i` digits seen so far. -/
def isCheatCodeFrom (i : ℕ) : List Byte → Bool
  | [] => i = codeDigits
  | c :: s =>
      if isxdigit c then
        if i + 1 > codeDigits then false else isCheatCodeFrom (i + 1) s
      else if !isspace c then false
      else isCheatCodeFrom i s

/-- `is_cheat_code`. -/
def isCheatCode (s : List Byte) : Bool := isCheatCodeFrom 0 s

/-- `get_token`. -/
def getToken (s : List Byte) : Tok :=
  if isGameTitle s then .gameTitle
  else if isCheatCode s then .cheatCode
  else .cheatDesc

/-- `next_token`. -/
def nextToken : Tok → ℕ
  | .gameTitle => Tok.gameTitle.flag ||| Tok.cheatDesc.flag
  | .cheatDesc => Tok.gameTitle.flag ||| Tok.cheatDesc.flag ||| Tok.cheatCode.flag
  | .cheatCode => Tok.gameTitle.flag ||| Tok.cheatDesc.flag ||| Tok.cheatCode.flag

/-! ### Objects from lines -/

/-- What the C program has no defined behaviour for. -/
inductive Fault where
  | nullGame
  | nullCheat
  | titleOverrun
  | digitsOverrun
deriving DecidableEq, Repr

/-- `parse_error_line` and `parse_error_text`. -/
structure ParseError where
  line : ℕ
  text : String
deriving DecidableEq, Repr

/-- Why parsing stopped before the end of the text. -/
inductive Stop where
  | error (e : ParseError)
  | fault (f : Fault)
deriving DecidableEq, Repr

/-- `__make_game`: the title without its quotes goes through a local buffer of
`GAME_TITLE_MAX + 1` bytes, terminated at index `strlen(title) - 2`. -/
def makeGameFromLine (block : Block) (title : List Byte) : Except Fault (Option Game) :=
  if title.length - 2 > gameTitleMax then .error .titleOverrun
  else .ok (makeGame block (some ((title.drop 1).take (title.length - 2))) [] 0)

/-- `__make_cheat`. -/
def makeCheatFromLine (block : Block) (desc : List Byte) : Option Cheat :=
  makeCheat block (some desc) [] 0

/-- `sscanf(digits, "%08X %08X", &addr, &val)`.  The blank of the format skips
white space, as the second conversion does by itself; a variable that is not
converted keeps its value, here written as `none`. -/
def scanCode (digits : List Byte) : Option ℕ × Option ℕ :=
  match scanX 8 digits with
  | none => (none, none)
  | some (addr, rest) => (some addr, (scanX 8 rest).map Prod.fst)

/-- `__make_code`.  `stack` is what follows the array `digits`, which has no
room for a terminator; `uninit` is what `addr` and `val` hold before the scan. -/
def makeCodeFromLine (block : Block) (stack : List Byte) (uninit : Word × Word) (s : List Byte) :
    Except Fault (Option Code) :=
  let digits := s.filter isxdigit
  if digits.length > codeDigits then .error .digitsOverrun
  else
    let scanned := scanCode (digits ++ stack)
    .ok (makeCode block ((scanned.1.map (BitVec.ofNat 32)).getD uninit.1)
      ((scanned.2.map (BitVec.ofNat 32)).getD uninit.2) 0)

/-! ### The context -/

/-- The position of a cheat: its game, and its place in that game's list. -/
structure CheatPtr where
  game : ℕ
  cheat : ℕ
deriving DecidableEq, Repr

/-- `parser_ctx_t`, and the number of `malloc` calls made so far. -/
structure Ctx where
  next : ℕ
  game : Option ℕ
  cheat : Option CheatPtr
  allocs : ℕ
deriving DecidableEq, Repr

/-- What the parser depends on beside its input: the results of `malloc` and the
uninitialised memory that it reads. -/
structure Env where
  malloc : ℕ → Block
  stack : List Byte
  uninit : Word × Word

/-- `init_parser`. -/
def initParser : Ctx := { next := Tok.gameTitle.flag, game := none, cheat := none, allocs := 0 }

/-- `CHEATS_INSERT_TAIL(&ctx->game->cheats, ctx->cheat)`. -/
def insertCheat (list : GameList) (game : ℕ) (cheat : Cheat) : GameList :=
  list.modify game fun g => { g with cheats := g.cheats ++ [cheat] }

/-- The position at which `insertCheat` puts the cheat. -/
def cheatPtr (list : GameList) (game : ℕ) : CheatPtr :=
  { game, cheat := ((list[game]?).map fun g => g.cheats.length).getD 0 }

/-- `CODES_INSERT_TAIL(&ctx->cheat->codes, ctx->code)`. -/
def insertCode (list : GameList) (ptr : CheatPtr) (code : Code) : GameList :=
  list.modify ptr.game fun g =>
    { g with cheats := g.cheats.modify ptr.cheat fun c => { c with codes := c.codes ++ [code] } }

/-- `parse_err` with the message for an unexpected token. -/
def invalidHere (nl : ℕ) (tok : Tok) : Stop :=
  .error { line := nl, text := "parse error: " ++ tok.str ++ " invalid here" }

/-- `parse_line`. -/
def parseLine (env : Env) (line : List Byte) (nl : ℕ) (ctx : Ctx) (list : GameList) :
    Except Stop (Ctx × GameList) :=
  let tok := getToken line
  let block := env.malloc ctx.allocs
  let done : Ctx := { ctx with next := nextToken tok, allocs := ctx.allocs + 1 }
  if ctx.next &&& tok.flag = 0 then .error (invalidHere nl tok)
  else
    match tok with
    | .gameTitle =>
        match makeGameFromLine block line with
        | .error f => .error (.fault f)
        | .ok none => .error (.error { line := nl, text := "make_game() failed" })
        | .ok (some game) => .ok ({ done with game := some list.length }, list ++ [game])
    | .cheatDesc =>
        match makeCheatFromLine block line with
        | none => .error (.error { line := nl, text := "make_cheat() failed" })
        | some cheat =>
            match ctx.game with
            | none => .error (.fault .nullGame)
            | some g =>
                .ok ({ done with cheat := some (cheatPtr list g) }, insertCheat list g cheat)
    | .cheatCode =>
        match makeCodeFromLine block env.stack env.uninit line with
        | .error f => .error (.fault f)
        | .ok none => .error (.error { line := nl, text := "make_code() failed" })
        | .ok (some code) =>
            match ctx.cheat with
            | none => .error (.fault .nullCheat)
            | some ptr => .ok (done, insertCode list ptr code)

/-! ### The buffer scanner -/

/-- How `parse_buf` ends: the list it has built, and why it stopped if it did
not reach the end of the buffer. -/
structure Outcome where
  list : GameList
  stop : Option Stop

/-- The return value of `parse_buf`, when it returns. -/
def Outcome.ret (outcome : Outcome) : Option ℤ :=
  match outcome.stop with
  | none => some 0
  | some (.error _) => some (-1)
  | some (.fault _) => none

/-- The screener: a comment is cut off, then the ends are trimmed. -/
def screen (line : List Byte) : List Byte := trimStr (termStr isCmtStr line)

/-- The number of bytes that the scanner takes as the next line.  Without a line
feed it is the length of what the array `line` still holds. -/
def scanLen (buf line : List Byte) : ℕ :=
  match chrIdx buf LF with
  | none => line.length
  | some len => if len > lineMax then lineMax else len

/-- The loop of `parse_buf`. -/
def parseBufFrom (env : Env) (nl : ℕ) (line : List Byte) (ctx : Ctx) (list : GameList)
    (buf : List Byte) : Outcome :=
  if hend : buf.headD NUL = NUL then { list, stop := none }
  else
    let len := scanLen buf line
    if isEmptySubstr buf len then
      parseBufFrom env (nl + 1) line ctx list (buf.drop (len + 1))
    else
      let line := screen (cstr (buf.take len))
      if line.length > 0 then
        match parseLine env line nl ctx list with
        | .error stop => { list, stop := some stop }
        | .ok (ctx, list) => parseBufFrom env (nl + 1) line ctx list (buf.drop (len + 1))
      else parseBufFrom env (nl + 1) line ctx list (buf.drop (len + 1))
termination_by buf.length
decreasing_by
  all_goals
    cases buf with
    | nil => simp at hend
    | cons c buf => simp only [List.length_drop, List.length_cons]; omega

/-- `parse_buf`: `line` is the uninitialised content of its local array. -/
def parseBuf (env : Env) (line : List Byte) (list : GameList) (buf : List Byte) : Outcome :=
  parseBufFrom env 1 line initParser list buf

end Ps2rd.Cheats
