import Ps2rd.Cheats.Tokens
import Mathlib.Data.List.ModifyLast

/-!
# What the objects store

`strncpy(dst, src, 80)` terminates a string only if it is shorter than 80 bytes,
and the 81st byte of the array stays as `malloc` returned it.  The first part
says for a single line when the array of the new object holds the text as a
terminated string.

The second part follows whole token sequences through memory that `malloc`
returns zero-filled, where each text is stored up to its 80th byte.  The parser
then appends to the last game and to its last cheat only, so that the list it
builds is a fold over the tokens (`parseTokens_zeroed`).
-/

namespace Ps2rd.Cheats

open CString

/-! ### One line -/

/-- The array holds the string, with its terminator. -/
structure Holds {n : ℕ} (a : CharArray n) (s : List Byte) : Prop where
  terminated : NUL ∈ a.val
  str : a.str = s

/-- `__make_game` stays within its arrays, and the game holds the first
`GAME_TITLE_MAX` bytes of the title. -/
def TitleStored (content : CharArray 81) (line : List Byte) : Prop :=
  ∃ game, makeGameFromLine (some content) line = .ok (some game) ∧
    Holds game.title ((unquote line).take gameTitleMax)

/-- `__make_cheat` stays within its array, and the cheat holds the first
`CHEAT_DESC_MAX` bytes of the description. -/
def DescStored (content : CharArray 81) (line : List Byte) : Prop :=
  ∃ cheat, makeCheatFromLine (some content) line = some cheat ∧
    Holds cheat.desc (line.take cheatDescMax)

theorem drop_eighty (content : CharArray 81) : content.val.drop 80 = [content.get 80] := by
  have hlen : content.val.length = 81 := content.property
  rw [List.drop_eq_getElem_cons (by omega), List.drop_of_length_le (by omega)]
  rfl

/-- A string that reaches the count is followed by the byte behind the count. -/
theorem strncpy_eq_of_le (content : CharArray 81) {src : List Byte} (hnul : NUL ∉ src)
    (hlen : 80 ≤ src.length) :
    (content.strncpy src 80 (by decide)).val = src.take 80 ++ [content.get 80] := by
  simp only [CharArray.strncpy, strncpy, cstr_eq_self hnul, drop_eighty]
  rw [Nat.sub_eq_zero_of_le hlen, List.replicate_zero, List.append_nil]

theorem nul_notMem_take {s : List Byte} (hnul : NUL ∉ s) (n : ℕ) : NUL ∉ s.take n :=
  fun h => hnul (List.mem_of_mem_take h)

/-- The copy is a terminated string if the source ends before the count, or the
byte behind the count is a NUL already. -/
theorem holds_strncpy_iff (content : CharArray 81) {src : List Byte} (hnul : NUL ∉ src) :
    Holds (content.strncpy src 80 (by decide)) (src.take 80) ↔
      src.length < 80 ∨ content.get 80 = NUL := by
  rcases Nat.lt_or_ge src.length 80 with hlt | hge
  · refine ⟨fun _ => .inl hlt, fun _ => ⟨?_, ?_⟩⟩
    · simp only [CharArray.strncpy, strncpy, cstr_eq_self hnul, List.mem_append,
        List.mem_replicate]
      exact .inl (.inr ⟨by omega, trivial⟩)
    · rw [CharArray.str_strncpy content _ hnul hlt, List.take_of_length_le (by omega)]
  · have hval := strncpy_eq_of_le content hnul hge
    constructor
    · intro h
      have hmem := h.terminated
      rw [hval, List.mem_append, List.mem_singleton] at hmem
      exact .inr (hmem.resolve_left (nul_notMem_take hnul 80)).symm
    · intro h
      have hlast := h.resolve_left (by omega)
      rw [hlast] at hval
      refine ⟨by simp [hval], ?_⟩
      rw [CharArray.str, hval]
      exact cstr_append_nul (nul_notMem_take hnul 80) []

/-- The game made from a title line, as long as the title fits the local buffer. -/
theorem makeGameFromLine_of_le (content : CharArray 81) {line : List Byte}
    (htok : getToken line = .gameTitle) (hle : (unquote line).length ≤ 80) :
    makeGameFromLine (some content) line =
      .ok (some
        { title := content.strncpy (unquote line) 80 (by decide), cheats := [], tag := 0 }) := by
  rw [length_unquote htok] at hle
  rw [makeGameFromLine, if_neg (by rw [gameTitleMax]; omega)]
  rfl

/-- A new game has no cheats. -/
theorem cheats_of_makeGameFromLine {block : Block} {line : List Byte} {game : Game}
    (h : makeGameFromLine block line = .ok (some game)) : game.cheats = [] := by
  unfold makeGameFromLine at h
  split at h
  · cases h
  · cases block with
    | none => cases h
    | some content => cases h; rfl

theorem makeGameFromLine_of_lt (block : Block) {line : List Byte}
    (htok : getToken line = .gameTitle) (hlt : 80 < (unquote line).length) :
    makeGameFromLine block line = .error .titleOverrun := by
  rw [length_unquote htok] at hlt
  rw [makeGameFromLine, if_pos (by rw [gameTitleMax]; omega)]

theorem nul_notMem_unquote {line : List Byte} (hnul : NUL ∉ line) : NUL ∉ unquote line :=
  fun h => hnul (List.mem_of_mem_drop (List.mem_of_mem_take h))

theorem titleStored_iff (content : CharArray 81) {line : List Byte} (hnul : NUL ∉ line)
    (htok : getToken line = .gameTitle) :
    TitleStored content line ↔ (unquote line).length ≤ 80 ∧
      ((unquote line).length < 80 ∨ content.get 80 = NUL) := by
  rw [← holds_strncpy_iff content (nul_notMem_unquote hnul)]
  unfold TitleStored
  rcases Nat.lt_or_ge 80 (unquote line).length with hlt | hle
  · rw [makeGameFromLine_of_lt _ htok hlt]
    constructor
    · rintro ⟨game, hmake, -⟩
      cases hmake
    · rintro ⟨hle, -⟩
      omega
  · rw [makeGameFromLine_of_le content htok hle]
    constructor
    · rintro ⟨game, hmake, hholds⟩
      cases hmake
      exact ⟨hle, hholds⟩
    · rintro ⟨-, hholds⟩
      exact ⟨_, rfl, hholds⟩

theorem descStored_iff (content : CharArray 81) {line : List Byte} (hnul : NUL ∉ line) :
    DescStored content line ↔ line.length < 80 ∨ content.get 80 = NUL := by
  rw [← holds_strncpy_iff content hnul]
  constructor
  · rintro ⟨cheat, hmake, hholds⟩
    cases hmake
    exact hholds
  · intro hholds
    exact ⟨_, rfl, hholds⟩

/-- When the text of a line is stored as a bounded, terminated string.  A title
of more than 80 bytes overruns the local buffer of `__make_game`; a text of 80
bytes or more ends at a terminator only if the last byte of the memory that
`malloc` returned is one. -/
theorem stored_iff (content : CharArray 81) {line : List Byte} (hnul : NUL ∉ line) :
    (getToken line = .gameTitle →
        (TitleStored content line ↔ (unquote line).length < 80 ∨
          (unquote line).length = 80 ∧ content.get 80 = NUL)) ∧
      (getToken line = .cheatDesc →
        (DescStored content line ↔ line.length < 80 ∨ content.get 80 = NUL)) := by
  refine ⟨fun htok => ?_, fun _ => descStored_iff content hnul⟩
  rw [titleStored_iff content hnul htok]
  constructor
  · rintro ⟨hle, hlt | hlast⟩
    · exact .inl hlt
    · rcases Nat.lt_or_ge (unquote line).length 80 with hlt | hge
      · exact .inl hlt
      · exact .inr ⟨by omega, hlast⟩
  · rintro (hlt | ⟨heq, hlast⟩)
    · exact ⟨by omega, .inl hlt⟩
    · exact ⟨by omega, .inr hlast⟩

theorem stored_iff_short :
    TitleStored (List.Vector.replicate 81 0x58) [0x22, 0x41, 0x22] ∧
      DescStored (List.Vector.replicate 81 0x58) [0x43] :=
  ⟨((@stored_iff (List.Vector.replicate 81 0x58) [0x22, 0x41, 0x22] (by decide)).1
      (by decide)).mpr (.inl (by decide)),
    ((@stored_iff (List.Vector.replicate 81 0x58) [0x43] (by decide)).2
      (by decide)).mpr (.inl (by decide))⟩

/-- A title of 81 letters with its quotes. -/
def longTitle : List Byte := 0x22 :: (List.replicate 81 0x41 ++ [0x22])

/-- A description of 80 letters. -/
def longDesc : List Byte := List.replicate 80 0x41

/-- The long title overruns the local buffer; the long description runs on into
the byte behind it. -/
theorem not_stored_long :
    (getToken longTitle = .gameTitle ∧ longTitle.length ≤ lineMax ∧
        makeGameFromLine (some (List.Vector.replicate 81 NUL)) longTitle = .error .titleOverrun) ∧
      getToken longDesc = .cheatDesc ∧ longDesc.length ≤ lineMax ∧
        ∃ cheat, makeCheatFromLine (some (List.Vector.replicate 81 0x58)) longDesc = some cheat ∧
          NUL ∉ cheat.desc.val ∧ ¬ DescStored (List.Vector.replicate 81 0x58) longDesc := by
  have htitle : getToken longTitle = .gameTitle := by decide +kernel
  refine ⟨⟨htitle, by decide, makeGameFromLine_of_lt _ htitle (by decide +kernel)⟩,
    by decide +kernel, by decide, _, rfl, by decide +kernel, ?_⟩
  rw [descStored_iff _ (by decide +kernel)]
  decide

/-! ### Token sequences in zero-filled memory -/

/-- A zero-filled array. -/
def zeros : CharArray 81 := List.Vector.replicate 81 NUL

/-- `malloc` returns zero-filled memory. -/
def Zeroed (env : Env) : Prop := ∀ n, env.malloc n = some zeros

theorem zeroed_zeroEnv : Zeroed zeroEnv := fun _ => rfl

/-- What a token adds to the games: a title to the list, a description to its
last game, a code to the last cheat of that game. -/
def addToken (games : List GameVal) (t : List Byte) : List GameVal :=
  match getToken t with
  | .gameTitle => games ++ [{ title := (unquote t).take gameTitleMax, cheats := [] }]
  | .cheatDesc =>
      games.modifyLast fun g =>
        { g with cheats := g.cheats ++ [{ desc := t.take cheatDescMax, codes := [] }] }
  | .cheatCode =>
      games.modifyLast fun g =>
        { g with cheats := g.cheats.modifyLast fun c => { c with codes := c.codes ++ [codeVal t] } }

/-- A title that overruns the local buffer of `__make_game`. -/
def overlong (t : List Byte) : Bool := getToken t = .gameTitle && (unquote t).length > gameTitleMax

/-- The tokens before the first one at which the parser stops. -/
def taken (prev : Option Tok) : List (List Byte) → List (List Byte)
  | [] => []
  | t :: ts =>
      if allowed prev (getToken t) && !overlong t then t :: taken (some (getToken t)) ts else []

/-- What the parser returns, if anything. -/
def verdict (prev : Option Tok) : List (List Byte) → Option ℤ
  | [] => some 0
  | t :: ts =>
      if allowed prev (getToken t) then
        if overlong t then none else verdict (some (getToken t)) ts
      else some (-1)

/-- The context after the token `prev`: its pointers are those of the last game
and of its last cheat, as far as the next token may use them. -/
inductive Ready : Option Tok → Ctx → GameList → Prop
  | start {ctx : Ctx} (list : GameList) (hnext : ctx.next = Tok.gameTitle.flag) :
      Ready none ctx list
  | title {ctx : Ctx} (init : GameList) (game : Game) (hnext : ctx.next = nextToken .gameTitle)
      (hgame : ctx.game = some init.length) (hcheats : game.cheats = []) :
      Ready (some .gameTitle) ctx (init ++ [game])
  | cheat {ctx : Ctx} {tok : Tok} (init : GameList) (game : Game) (cinit : List Cheat)
      (cheat : Cheat) (htok : tok ≠ .gameTitle) (hnext : ctx.next = nextToken tok)
      (hgame : ctx.game = some init.length) (hcheats : game.cheats = cinit ++ [cheat])
      (hcheat : ctx.cheat = some { game := init.length, cheat := cinit.length }) :
      Ready (some tok) ctx (init ++ [game])

theorem ready_initParser (list : GameList) : Ready none initParser list := .start list rfl

theorem Ready.next_eq_zero_iff {prev : Option Tok} {ctx : Ctx} {list : GameList}
    (h : Ready prev ctx list) (tok : Tok) :
    ctx.next &&& tok.flag = 0 ↔ allowed prev tok = false := by
  cases h with
  | start list hnext => rw [hnext]; cases tok <;> decide
  | title init game hnext hgame hcheats => rw [hnext]; cases tok <;> decide
  | @cheat _ last init game cinit cheat htok hnext hgame hcheats hcheat =>
      rw [hnext]
      cases last with
      | gameTitle => exact absurd rfl htok
      | cheatDesc => cases tok <;> decide
      | cheatCode => cases tok <;> decide

/-- The text of a zero-filled array. -/
theorem str_strncpy_zeroed {src : List Byte} (hnul : NUL ∉ src) :
    (zeros.strncpy src 80 (by decide)).str = src.take 80 :=
  ((holds_strncpy_iff zeros hnul).mpr (.inr rfl)).str

section Step

variable {env : Env} {prev : Option Tok} {ctx : Ctx} {list : GameList} {t : List Byte}

theorem Ready.next_ne_zero (h : Ready prev ctx list) {tok : Tok}
    (hallowed : allowed prev tok = true) : ¬ ctx.next &&& tok.flag = 0 := by
  rw [h.next_eq_zero_iff, hallowed]
  simp

/-- A token at which the parser stops. -/
theorem parseToken_stops (env : Env) (h : Ready prev ctx list)
    (hstop : ¬ (allowed prev (getToken t) && !overlong t) = true) (ts : List (List Byte)) :
    parseToken env t ctx list = .error (verdict prev (t :: ts)) := by
  cases hallowed : allowed prev (getToken t) with
  | false =>
      have hnext := (h.next_eq_zero_iff (getToken t)).mpr hallowed
      simp only [parseToken, parseLine, if_pos hnext, verdict, hallowed]
      rfl
  | true =>
      have hover : overlong t = true := by simpa [hallowed] using hstop
      have hnext := h.next_ne_zero hallowed
      have htitle : getToken t = .gameTitle ∧ 80 < (unquote t).length := by
        simpa [overlong, gameTitleMax] using hover
      have hmake := makeGameFromLine_of_lt (env.malloc ctx.allocs) htitle.1 htitle.2
      rw [htitle.1] at hnext
      simp only [parseToken, parseLine, htitle.1, if_neg hnext, hmake]
      rw [verdict, if_pos hallowed, if_pos hover]
      rfl

/-- After a first token there is a last game, and the context points to it. -/
theorem Ready.exists_last (h : Ready prev ctx list) {tok : Tok} (hallowed : allowed prev tok = true)
    (htok : tok ≠ .gameTitle) :
    ∃ init game, list = init ++ [game] ∧ ctx.game = some init.length := by
  cases h with
  | start list hnext => exact absurd hallowed (by simp [allowed, htok])
  | title init game hnext hgame hcheats => exact ⟨init, game, rfl, hgame⟩
  | cheat init game cinit cheat htok hnext hgame hcheats hcheat => exact ⟨init, game, rfl, hgame⟩

/-- Whatever memory `malloc` returns, a token that is taken leaves the context
ready for the next one. -/
theorem parseToken_ready (h : Ready prev ctx list) {next : Ctx × GameList}
    (hok : parseToken env t ctx list = .ok next) : Ready (some (getToken t)) next.1 next.2 := by
  have hnext : ¬ ctx.next &&& (getToken t).flag = 0 := by
    intro hzero
    simp only [parseToken, parseLine, if_pos hzero] at hok
    cases hok
  have hallowed : allowed prev (getToken t) = true := by
    simpa [h.next_eq_zero_iff] using hnext
  simp only [parseToken, parseLine, if_neg hnext] at hok
  -- each kind of token leaves its own kind of context behind
  cases htok : getToken t with
  | gameTitle =>
      rw [htok] at hok
      cases hmake : makeGameFromLine (env.malloc ctx.allocs) t with
      | error f => simp [hmake, Except.mapError] at hok
      | ok made =>
          cases made with
          | none => simp [hmake, Except.mapError] at hok
          | some game =>
              simp only [hmake, Except.mapError, Except.ok.injEq] at hok
              rw [← hok]
              exact .title list game rfl rfl (cheats_of_makeGameFromLine hmake)
  | cheatDesc =>
      rw [htok] at hok hallowed
      obtain ⟨init, game, rfl, hgame⟩ := h.exists_last hallowed (by simp)
      cases hmake : makeCheatFromLine (env.malloc ctx.allocs) t with
      | none => simp [hmake, Except.mapError] at hok
      | some cheat =>
          simp only [hmake, hgame, Except.mapError, Except.ok.injEq, insertCheat_concat,
            cheatPtr_concat] at hok
          rw [← hok]
          exact .cheat init _ game.cheats cheat (by simp) rfl rfl rfl rfl
  | cheatCode =>
      rw [htok] at hok hallowed
      cases hmake : makeCodeFromLine (env.malloc ctx.allocs) env.stack env.uninit t with
      | error f => simp [hmake, Except.mapError] at hok
      | ok made =>
          cases made with
          | none => simp [hmake, Except.mapError] at hok
          | some code =>
              cases h with
              -- a code is allowed only behind a cheat
              | start list hnext => exact absurd hallowed (by simp [allowed])
              | title init game hnext hgame hcheats => exact absurd hallowed (by simp [allowed])
              | cheat init game cinit cheat hlast _ hgame hcheats hcheat =>
                  simp only [hmake, hcheat, Except.mapError, Except.ok.injEq,
                    insertCode_concat init game cinit cheat hcheats] at hok
                  rw [← hok]
                  exact .cheat init _ cinit _ (by simp) rfl hgame rfl rfl

theorem parseToken_of_ok {next : Ctx × GameList} (h : parseLine env t 0 ctx list = .ok next) :
    parseToken env t ctx list = .ok next := by
  rw [parseToken, h]
  rfl

theorem parseToken_title (hzero : Zeroed env) (h : Ready prev ctx list) (hnul : NUL ∉ t)
    (htok : getToken t = .gameTitle) (hallowed : allowed prev .gameTitle = true)
    (hlen : (unquote t).length ≤ 80) :
    ∃ next, parseToken env t ctx list = .ok next ∧
      next.2.map Game.view = addToken (list.map Game.view) t := by
  have hmake := makeGameFromLine_of_le zeros htok hlen
  rw [← hzero ctx.allocs] at hmake
  have hline := @parseLine_gameTitle env t ctx list htok (h.next_ne_zero hallowed) _ hmake 0
  refine ⟨_, parseToken_of_ok hline, ?_⟩
  have hstr := str_strncpy_zeroed (nul_notMem_unquote hnul)
  simp [addToken, htok, Game.view, hstr, gameTitleMax]

theorem parseToken_desc (hzero : Zeroed env) (h : Ready prev ctx list) (hnul : NUL ∉ t)
    (htok : getToken t = .cheatDesc) (hallowed : allowed prev .cheatDesc = true) :
    ∃ next, parseToken env t ctx list = .ok next ∧
      next.2.map Game.view = addToken (list.map Game.view) t := by
  have hmake : makeCheatFromLine (env.malloc ctx.allocs) t =
      some { desc := zeros.strncpy t 80 (by decide), codes := [], tag := 0 } := by
    rw [hzero ctx.allocs]
    rfl
  obtain ⟨init, game, rfl, hgame⟩ := h.exists_last hallowed (by simp)
  have hline := @parseLine_cheatDesc env t ctx (init ++ [game]) htok (h.next_ne_zero hallowed) _
    hmake _ hgame 0
  rw [insertCheat_concat, cheatPtr_concat] at hline
  refine ⟨_, parseToken_of_ok hline, ?_⟩
  have hstr := str_strncpy_zeroed hnul
  simp [addToken, htok, Game.view, Cheat.view, hstr, cheatDescMax, List.modifyLast_concat]

theorem parseToken_code (hzero : Zeroed env) (h : Ready prev ctx list)
    (htok : getToken t = .cheatCode) (hallowed : allowed prev .cheatCode = true) :
    ∃ next, parseToken env t ctx list = .ok next ∧
      next.2.map Game.view = addToken (list.map Game.view) t := by
  have hblock : (env.malloc ctx.allocs).isSome := by rw [hzero ctx.allocs]; rfl
  obtain ⟨code, hmake, hview⟩ := makeCodeFromLine_eq hblock env.stack env.uninit htok
  have hnext := h.next_ne_zero hallowed
  cases h with
  | start list hnext => exact absurd hallowed (by simp [allowed])
  | title init game hnext hgame hcheats => exact absurd hallowed (by simp [allowed])
  | cheat init game cinit cheat hlast _ hgame hcheats hcheat =>
      have hline := @parseLine_cheatCode env t ctx (init ++ [game]) htok hnext _ hmake _ hcheat 0
      rw [insertCode_concat init game cinit cheat hcheats] at hline
      refine ⟨_, parseToken_of_ok hline, ?_⟩
      simp [addToken, htok, Game.view, Cheat.view, hcheats, hview, List.modifyLast_concat]

/-- A token that the parser takes. -/
theorem parseToken_takes (hzero : Zeroed env) (h : Ready prev ctx list) (hnul : NUL ∉ t)
    (htake : (allowed prev (getToken t) && !overlong t) = true) :
    ∃ next, parseToken env t ctx list = .ok next ∧
      next.2.map Game.view = addToken (list.map Game.view) t := by
  obtain ⟨hallowed, hshort⟩ := Bool.and_eq_true_iff.mp htake
  cases htok : getToken t with
  | gameTitle =>
      rw [htok] at hallowed
      have hlen : (unquote t).length ≤ 80 := by simpa [overlong, htok, gameTitleMax] using hshort
      exact parseToken_title hzero h hnul htok hallowed hlen
  | cheatDesc =>
      rw [htok] at hallowed
      exact parseToken_desc hzero h hnul htok hallowed
  | cheatCode =>
      rw [htok] at hallowed
      exact parseToken_code hzero h htok hallowed

end Step

/-- The run over the tokens, by induction on them. -/
theorem parseTokens_zeroed {env : Env} (hzero : Zeroed env) {prev : Option Tok} {ctx : Ctx}
    {list : GameList} (h : Ready prev ctx list) {ts : List (List Byte)}
    (hnul : ∀ t ∈ ts, NUL ∉ t) :
    resultView (parseTokens env ctx list ts) =
      ((taken prev ts).foldl addToken (list.map Game.view), verdict prev ts) := by
  induction ts generalizing prev ctx list with
  | nil => rfl
  | cons t ts ih =>
      rw [parseTokens, taken]
      by_cases htake : (allowed prev (getToken t) && !overlong t) = true
      · obtain ⟨next, hstep, hview⟩ := parseToken_takes hzero h (hnul t (by simp)) htake
        rw [hstep, if_pos htake, List.foldl_cons, ← hview]
        have hverdict : verdict prev (t :: ts) = verdict (some (getToken t)) ts := by
          rw [Bool.and_eq_true, Bool.not_eq_true'] at htake
          simp [verdict, htake]
        rw [hverdict]
        exact ih (parseToken_ready h hstep) fun u hu => hnul u (by simp [hu])
      · rw [parseToken_stops env h htake ts, if_neg htake]
        rfl

theorem verdict_eq_zero_iff (prev : Option Tok) (ts : List (List Byte)) :
    verdict prev ts = some 0 ↔ taken prev ts = ts := by
  induction ts generalizing prev with
  | nil => simp [verdict, taken]
  | cons t ts ih =>
      rw [verdict, taken]
      cases allowed prev (getToken t) with
      | false => simp
      | true =>
          cases overlong t with
          | true => simp
          | false => simp [ih]

/-! ### The descriptions in the list -/

/-- The descriptions of all cheats, in order. -/
def descsOf (games : List GameVal) : List (List Byte) :=
  games.flatMap fun g => g.cheats.map CheatVal.desc

/-- The tokens that are descriptions. -/
def descTokens (ts : List (List Byte)) : List (List Byte) :=
  ts.filter fun t => getToken t = .cheatDesc

theorem descTokens_cons (t : List Byte) (ts : List (List Byte)) :
    descTokens (t :: ts) = descTokens [t] ++ descTokens ts := by
  rw [descTokens, ← List.singleton_append, List.filter_append]
  rfl

theorem length_descTokens_cons (t : List Byte) (ts : List (List Byte)) :
    (descTokens (t :: ts)).length = (descTokens [t]).length + (descTokens ts).length := by
  rw [descTokens_cons, List.length_append]

theorem map_modifyLast {α β : Type*} (v : α → β) (l : List α) {f : α → α}
    (h : ∀ a, v (f a) = v a) : (l.modifyLast f).map v = l.map v := by
  induction l using List.reverseRecOn with
  | nil => rfl
  | append_singleton l a _ => simp [List.modifyLast_concat, h]

/-- A token adds its text to the descriptions, if it is one. -/
theorem descsOf_addToken {games : List GameVal} (hne : games ≠ []) (t : List Byte) :
    descsOf (addToken games t) =
      descsOf games ++ (descTokens [t]).map (List.take cheatDescMax) := by
  induction games using List.reverseRecOn with
  | nil => exact absurd rfl hne
  | append_singleton games g _ =>
      cases htok : getToken t with
      | gameTitle => simp [addToken, htok, descsOf, descTokens]
      | cheatDesc => simp [addToken, htok, descsOf, descTokens, List.modifyLast_concat]
      | cheatCode =>
          simp [addToken, htok, descsOf, descTokens, List.modifyLast_concat,
            map_modifyLast CheatVal.desc]

theorem addToken_ne_nil {games : List GameVal} (hne : games ≠ []) (t : List Byte) :
    addToken games t ≠ [] := by
  induction games using List.reverseRecOn with
  | nil => exact absurd rfl hne
  | append_singleton games g _ =>
      cases htok : getToken t <;> simp [addToken, htok, List.modifyLast_concat]

theorem descsOf_foldl_addToken {games : List GameVal} (hne : games ≠ []) (ts : List (List Byte)) :
    descsOf (ts.foldl addToken games) =
      descsOf games ++ (descTokens ts).map (List.take cheatDescMax) := by
  induction ts generalizing games with
  | nil => simp [descTokens]
  | cons t ts ih =>
      calc descsOf (ts.foldl addToken (addToken games t))
          = descsOf (addToken games t) ++ (descTokens ts).map (List.take cheatDescMax) :=
            ih (addToken_ne_nil hne t)
        _ = descsOf games ++ (descTokens [t]).map (List.take cheatDescMax) ++
              (descTokens ts).map (List.take cheatDescMax) := by
            rw [descsOf_addToken hne]
        _ = descsOf games ++ (descTokens (t :: ts)).map (List.take cheatDescMax) := by
            rw [descTokens_cons t ts, List.map_append, List.append_assoc]

theorem foldl_addToken_ne_nil {games : List GameVal} (hne : games ≠ []) (ts : List (List Byte)) :
    ts.foldl addToken games ≠ [] := by
  induction ts generalizing games with
  | nil => exact hne
  | cons t ts ih => exact ih (addToken_ne_nil hne t)

end Ps2rd.Cheats
