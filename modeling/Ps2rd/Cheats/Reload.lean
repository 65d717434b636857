import Ps2rd.Cheats.LibCheats
import Ps2rd.Cheats.Comments
import Ps2rd.Cheats.Scanner

/-!
# Saving what was loaded

`cheats_write` prints each title, description and code of an object on a line of
its own.  Read again, a title line and a code line come back as they were.  A
description line does so only if the screener leaves it alone and it is still
classified as a description.  Two kinds of descriptions that the parser makes
fail this: the unprintable rest of a line in front of its comment, and a
description cut at `CHEAT_DESC_MAX` bytes that then ends in white space or looks
like a title or a code.  `reload_iff` says that these are all.

The text may have lines of any length here.  The scanner takes a longer line in
pieces of `LINE_MAX` bytes, and drops the byte behind each of them.
-/

namespace Ps2rd.Cheats

open CString

/-! ### Lines of any length -/

/-- The pieces in which the scanner takes a line. -/
def cutLine (line : List Byte) : List (List Byte) :=
  if line.length ≤ lineMax then [line]
  else line.take lineMax :: cutLine (line.drop (lineMax + 1))
termination_by line.length
decreasing_by simp only [List.length_drop]; omega

/-- The tokens of a text with lines of any length. -/
def textTokens (lines : List (List Byte)) : List (List Byte) := tokens (lines.flatMap cutLine)

theorem textLine_of_mem_cutLine {line : List Byte} (hnul : NUL ∉ line) (hlf : LF ∉ line)
    {piece : List Byte} (hpiece : piece ∈ cutLine line) : TextLine piece := by
  obtain ⟨n, hn⟩ : ∃ n, line.length = n := ⟨_, rfl⟩
  induction n using Nat.strongRecOn generalizing line with
  | ind n ih =>
      rw [cutLine] at hpiece
      split at hpiece
      · rw [List.mem_singleton] at hpiece
        exact ⟨hpiece ▸ hnul, hpiece ▸ hlf, hpiece ▸ ‹line.length ≤ lineMax›⟩
      · rcases List.mem_cons.mp hpiece with rfl | hpiece
        · exact ⟨fun h => hnul (List.mem_of_mem_take h), fun h => hlf (List.mem_of_mem_take h),
            List.length_take_le _ _⟩
        · refine ih _ ?_ (fun h => hnul (List.mem_of_mem_drop h))
            (fun h => hlf (List.mem_of_mem_drop h)) hpiece rfl
          rw [List.length_drop]
          omega

/-- The scanner takes a line and its line feed in the pieces of the line. -/
theorem parseBufFrom_cutLine (env : Env) {line : List Byte} (hnul : NUL ∉ line) (hlf : LF ∉ line)
    {rest : List Byte} {lines : List (List Byte)}
    (hrest : ∀ nl old ctx list, parseBufFrom env nl old ctx list rest =
      parseLines env nl ctx list lines) (nl : ℕ) (old : List Byte) (ctx : Ctx) (list : GameList) :
    parseBufFrom env nl old ctx list (line ++ LF :: rest) =
      parseLines env nl ctx list (cutLine line ++ lines) := by
  obtain ⟨n, hn⟩ : ∃ n, line.length = n := ⟨_, rfl⟩
  induction n using Nat.strongRecOn generalizing line nl old ctx list with
  | ind n ih =>
      rw [cutLine]
      by_cases hle : line.length ≤ lineMax
      · have hline : TextLine line := ⟨hnul, hlf, hle⟩
        rw [if_pos hle]
        refine parseBufFrom_of_piece env (headD_append_ne_nul hline _) (scanLen_append hline _ _)
          List.take_left ?_ hnul nl ctx list fun old ctx list => hrest (nl + 1) old ctx list
        rw [← List.drop_drop, List.drop_left]
        rfl
      · rw [if_neg hle]
        have hlen : (line.take lineMax).length = lineMax := by
          rw [List.length_take]
          omega
        have hdrop : NUL ∉ line.drop (lineMax + 1) ∧ LF ∉ line.drop (lineMax + 1) :=
          ⟨fun h => hnul (List.mem_of_mem_drop h), fun h => hlf (List.mem_of_mem_drop h)⟩
        refine parseBufFrom_of_piece env ?_ ?_ ?_ ?_ (fun h => hnul (List.mem_of_mem_take h)) nl ctx
          list (fun old ctx list => ih _ ?_ hdrop.1 hdrop.2 (nl + 1) old ctx list rfl)
        · cases line with
          | nil => simp at hle
          | cons c line =>
              intro h
              exact hnul (by simp [show c = NUL by simpa using h])
        · rw [scanLen, chrIdx_append hnul hlf, hlen]
          exact if_pos (by omega)
        · rw [hlen, List.take_append_of_le_length (by omega)]
        · rw [hlen, List.drop_append_of_le_length (by omega)]
        · rw [List.length_drop]
          omega

/-- A line that does not end the text, of any length. -/
structure AnyLine (line : List Byte) : Prop where
  nul : NUL ∉ line
  lf : LF ∉ line

theorem parseBufFrom_flatMap_cutLine (env : Env) {lines : List (List Byte)}
    (hlines : ∀ line ∈ lines, AnyLine line) (past : List Byte) (nl : ℕ) (old : List Byte)
    (ctx : Ctx) (list : GameList) :
    parseBufFrom env nl old ctx list (textBuf lines past) =
      parseLines env nl ctx list (lines.flatMap cutLine) := by
  induction lines generalizing nl old ctx list with
  | nil => simp [textBuf, unlines, parseBufFrom, parseLines]
  | cons line lines ih =>
      have hline := hlines line (by simp)
      have hbuf : textBuf (line :: lines) past = line ++ LF :: textBuf lines past := by
        simp [textBuf, unlines]
      rw [hbuf, List.flatMap_cons]
      exact parseBufFrom_cutLine env hline.nul hline.lf
        (fun nl old ctx list => ih (fun l hl => hlines l (by simp [hl])) nl old ctx list) nl old
        ctx list

theorem textLine_of_mem_flatMap {lines : List (List Byte)}
    (hlines : ∀ line ∈ lines, AnyLine line) : ∀ piece ∈ lines.flatMap cutLine, TextLine piece := by
  intro piece hpiece
  obtain ⟨line, hline, hpiece⟩ := List.mem_flatMap.mp hpiece
  exact textLine_of_mem_cutLine (hlines line hline).nul (hlines line hline).lf hpiece

/-- The parser on a text with lines of any length. -/
theorem parseBuf_result_textTokens (env : Env) {lines : List (List Byte)}
    (hlines : ∀ line ∈ lines, AnyLine line) (past old : List Byte) (list : GameList) :
    (parseBuf env old list (textBuf lines past)).result =
      parseTokens env initParser list (textTokens lines) := by
  rw [parseBuf, parseBufFrom_flatMap_cutLine env hlines, parseLines_result, textTokens]

theorem cheatsReadBuf_eq_true_iff {env : Env} {old buf : List Byte} {obj c : Object} :
    cheatsReadBuf env old obj buf = some (cheatsTrue, c) ↔
      (parseBuf env old [] buf).stop = none ∧
        c = { cheatsInit with games := (parseBuf env old [] buf).list } := by
  unfold cheatsReadBuf
  rw [show cheatsInit.games = [] from rfl]
  obtain ⟨list, stop⟩ := parseBuf env old [] buf
  match stop with
  | none => simp [eq_comm]
  | some (.error e) => simp [cheatsTrue, cheatsFalse]
  | some (.fault f) => simp

/-- Reading in zero-filled memory: it succeeds if the parser takes all tokens,
and then the games are the fold over them. -/
theorem cheatsReadBuf_zeroed {env : Env} (hzero : Zeroed env) {old buf : List Byte}
    {ts : List (List Byte)} (hnul : ∀ t ∈ ts, NUL ∉ t)
    (hresult : (parseBuf env old [] buf).result = parseTokens env initParser [] ts)
    (obj : Object) (games : List GameVal) :
    (∃ c, cheatsReadBuf env old obj buf = some (cheatsTrue, c) ∧ c.games.map Game.view = games) ↔
      taken none ts = ts ∧ ts.foldl addToken [] = games := by
  have hviews := congrArg resultView hresult
  rw [parseTokens_zeroed hzero (ready_initParser []) hnul, Outcome.result, resultView,
    Prod.mk.injEq] at hviews
  obtain ⟨hlist, hret⟩ := hviews
  have hstop : (parseBuf env old [] buf).stop = none ↔ taken none ts = ts := by
    rw [← verdict_eq_zero_iff, ← hret, Outcome.ret_eq_zero_iff]
  constructor
  · rintro ⟨c, hread, rfl⟩
    obtain ⟨hnone, rfl⟩ := cheatsReadBuf_eq_true_iff.mp hread
    have hall := hstop.mp hnone
    rw [hall] at hlist
    exact ⟨hall, hlist.symm⟩
  · rintro ⟨hall, rfl⟩
    rw [hall] at hlist
    exact ⟨_, cheatsReadBuf_eq_true_iff.mpr ⟨hstop.mpr hall, rfl⟩, hlist⟩

/-! ### What is known of a token -/

theorem notMem_uncomment (s : List Byte) :
    0x23 ∉ uncomment s ∧ ¬ [0x2F, 0x2F] <:+: uncomment s := by
  induction s with
  | nil => simp [uncomment]
  | cons c s ih =>
      rw [uncomment]
      split
      · simp
      · rename_i hhash
        split
        · simp
        · rename_i hslash
          refine ⟨List.not_mem_cons_of_ne_of_not_mem (Ne.symm hhash) ih.1, fun hwithin => ?_⟩
          rcases List.infix_cons_iff.mp hwithin with ⟨rest, hrest⟩ | hwithin
          · simp only [List.cons_append, List.nil_append, List.cons.injEq] at hrest
            exact hslash ⟨hrest.1.symm, head?_of_uncomment (by rw [← hrest.2]; rfl)⟩
          · exact ih.2 hwithin

section Token

variable {lines : List (List Byte)} {t : List Byte}

theorem exists_of_mem_tokens (ht : t ∈ tokens lines) :
    ∃ line ∈ lines, isEmptyStr line = false ∧ screen line = t ∧ t ≠ [] := by
  simp only [tokens, List.mem_filter, List.mem_map, Bool.not_eq_true', decide_eq_true_eq] at ht
  obtain ⟨⟨line, ⟨hline, hgraph⟩, hscreen⟩, hne⟩ := ht
  exact ⟨line, hline, hgraph, hscreen, hne⟩

/-- A token has no comment in it. -/
theorem notMem_of_mem_tokens (ht : t ∈ tokens lines) : 0x23 ∉ t ∧ ¬ [0x2F, 0x2F] <:+: t := by
  obtain ⟨line, -, -, rfl, -⟩ := exists_of_mem_tokens ht
  have hwithin : screen line <:+: uncomment line := by
    rw [screen, ← uncomment_eq_termStr]
    exact trimStr_infix_self _
  obtain ⟨hhash, hslashes⟩ := notMem_uncomment line
  exact ⟨fun h => hhash (hwithin.subset h), fun h => hslashes (h.trans hwithin)⟩

/-- A token with a printable byte begins and ends with something other than white space. -/
theorem ends_of_mem_tokens (ht : t ∈ tokens lines) (hgraph : isEmptyStr t = false) :
    (∀ c ∈ t.head?, isspace c = false) ∧ ∀ c ∈ t.getLast?, isspace c = false := by
  obtain ⟨line, -, -, rfl, -⟩ := exists_of_mem_tokens ht
  rw [screen, isEmptyStr_trimStr] at hgraph
  obtain ⟨body, hbody⟩ := exists_trimmed hgraph
  rw [screen, hbody.trimStr_eq]
  exact ⟨hbody.head, hbody.last⟩

theorem textLine_of_mem_tokens (hlines : ∀ line ∈ lines, TextLine line) (ht : t ∈ tokens lines) :
    TextLine t := by
  obtain ⟨line, hline, -, rfl, -⟩ := exists_of_mem_tokens ht
  have hwithin : screen line <:+: line :=
    (trimStr_infix_self _).trans (termStr_prefix_self _ _).isInfix
  have h := hlines line hline
  exact ⟨fun hmem => h.nul (hwithin.subset hmem), fun hmem => h.lf (hwithin.subset hmem),
    hwithin.length_le.trans h.length⟩

/-- A token with a printable byte is its own token. -/
theorem kept_of_mem_tokens (hlines : ∀ line ∈ lines, TextLine line) (ht : t ∈ tokens lines)
    (hgraph : isEmptyStr t = false) : Kept t := by
  obtain ⟨hhash, hslashes⟩ := notMem_of_mem_tokens ht
  obtain ⟨hhead, hlast⟩ := ends_of_mem_tokens ht hgraph
  obtain ⟨-, -, -, -, hne⟩ := exists_of_mem_tokens ht
  exact ⟨textLine_of_mem_tokens hlines ht, hgraph, screen_eq_self hhash hslashes hhead hlast, hne⟩

end Token

/-! ### The lines that are written -/

/-- The line of a code with these values. -/
def valueLine (v : Word × Word) : List Byte := codeLine { addr := v.1, val := v.2, tag := 0 }

/-- The lines of a cheat, by its values. -/
def CheatVal.lines (c : CheatVal) : List (List Byte) := c.desc :: c.codes.map valueLine

/-- The lines of a game, by its values, without the separator. -/
def GameVal.lines (g : GameVal) : List (List Byte) :=
  quote g.title :: g.cheats.flatMap CheatVal.lines

theorem gameTokens_eq (game : Game) : gameTokens game = game.view.lines := by
  have hcheat : ∀ cheat : Cheat, cheatTokens cheat = cheat.view.lines := by
    intro cheat
    simp [cheatTokens, CheatVal.lines, Cheat.view, Code.view, valueLine, codeLine]
  simp [gameTokens, GameVal.lines, Game.view, List.flatMap_map, funext hcheat]

/-- The separators leave no tokens. -/
theorem tokens_writtenLines_eq (games : GameList) :
    tokens (writtenLines games) = tokens ((games.map Game.view).flatMap GameVal.lines) := by
  have hgame : ∀ game : Game,
      tokens (gameTokens game ++ [[], rule, []]) = tokens game.view.lines := by
    intro game
    have hsep := tokens_separator []
    rw [List.append_nil] at hsep
    rw [tokens_append, hsep, gameTokens_eq]
    exact List.append_nil _
  rw [writtenLines, tokens_flatMap, tokens_flatMap, List.flatMap_map, funext hgame]

/-- What a token is written as. -/
def rewritten (t : List Byte) : List Byte :=
  match getToken t with
  | .gameTitle => quote ((unquote t).take gameTitleMax)
  | .cheatDesc => t.take cheatDescMax
  | .cheatCode => valueLine (codeVal t)

/-- The last game, and its last cheat, are there to take what may follow. -/
def Takes : Option Tok → List GameVal → Prop
  | none, _ => True
  | some .gameTitle, games => ∃ init g, games = init ++ [g]
  | some _, games => ∃ init g cinit c, games = init ++ [g] ∧ g.cheats = cinit ++ [c]

theorem Takes.exists_last {prev : Option Tok} {games : List GameVal} (h : Takes prev games)
    {tok : Tok} (hallowed : allowed prev tok = true) (htok : tok ≠ .gameTitle) :
    ∃ init g, games = init ++ [g] := by
  match prev, h with
  | none, _ => exact absurd hallowed (by simp [allowed, htok])
  | some .gameTitle, h => exact h
  | some .cheatDesc, ⟨init, g, _, _, hgames, _⟩ => exact ⟨init, g, hgames⟩
  | some .cheatCode, ⟨init, g, _, _, hgames, _⟩ => exact ⟨init, g, hgames⟩

/-- A code comes after a cheat of the last game. -/
theorem Takes.exists_lastCheat {prev : Option Tok} {games : List GameVal} (h : Takes prev games)
    (hallowed : allowed prev .cheatCode = true) :
    ∃ init g cinit c, games = init ++ [g] ∧ g.cheats = cinit ++ [c] := by
  cases prev with
  | none => simp [allowed] at hallowed
  | some tok =>
      cases tok with
      | gameTitle => simp [allowed] at hallowed
      | cheatDesc => exact h
      | cheatCode => exact h

/-- A token that is taken is written at the end. -/
theorem lines_addToken {prev : Option Tok} {games : List GameVal} (h : Takes prev games)
    {t : List Byte} (hallowed : allowed prev (getToken t) = true) :
    (addToken games t).flatMap GameVal.lines =
        games.flatMap GameVal.lines ++ [rewritten t] ∧
      Takes (some (getToken t)) (addToken games t) := by
  cases htok : getToken t with
  | gameTitle =>
      simp only [addToken, htok]
      exact ⟨by simp [rewritten, htok, GameVal.lines], games, _, rfl⟩
  | cheatDesc =>
      rw [htok] at hallowed
      obtain ⟨init, g, rfl⟩ := h.exists_last hallowed (by simp)
      simp only [addToken, htok, List.modifyLast_concat]
      exact ⟨by simp [rewritten, htok, GameVal.lines, CheatVal.lines], init, _, g.cheats, _, rfl,
        rfl⟩
  | cheatCode =>
      rw [htok] at hallowed
      obtain ⟨init, g, cinit, c, rfl, hcheats⟩ := h.exists_lastCheat hallowed
      simp only [addToken, htok, List.modifyLast_concat, hcheats]
      exact ⟨by simp [rewritten, htok, GameVal.lines, CheatVal.lines, hcheats], init, _, cinit, _,
        rfl, rfl⟩

/-- The games of a token sequence are written token by token. -/
theorem lines_foldl_addToken {prev : Option Tok} {games : List GameVal} (h : Takes prev games)
    {ts : List (List Byte)} (htaken : taken prev ts = ts) :
    (ts.foldl addToken games).flatMap GameVal.lines =
      games.flatMap GameVal.lines ++ ts.map rewritten := by
  induction ts generalizing prev games with
  | nil => simp
  | cons t ts ih =>
      rw [taken] at htaken
      split at htaken
      · rename_i htake
        simp only [List.cons.injEq, true_and] at htaken
        obtain ⟨hlines, htakes⟩ := lines_addToken h (Bool.and_eq_true_iff.mp htake).1
        rw [List.foldl_cons, ih htakes htaken, hlines]
        simp
      · cases htaken

/-! ### Reading them again -/

/-- A description that is read again as itself: it has a printable byte, does not
end in white space, and is no title or code. -/
structure Rereads (d : List Byte) : Prop where
  graph : isEmptyStr d = false
  last : ∀ c ∈ d.getLast?, isspace c = false
  desc : getToken d = .cheatDesc

theorem rereads_iff {d : List Byte} : Rereads d ↔ isEmptyStr d = false ∧
    (∀ c ∈ d.getLast?.toList, isspace c = false) ∧ getToken d = .cheatDesc :=
  ⟨fun h => ⟨h.graph, by simpa using h.last, h.desc⟩,
    fun ⟨hgraph, hlast, hdesc⟩ => ⟨hgraph, by simpa using hlast, hdesc⟩⟩

instance (d : List Byte) : Decidable (Rereads d) := decidable_of_iff _ rereads_iff.symm

theorem quote_unquote {t : List Byte} (h : getToken t = .gameTitle) : quote (unquote t) = t := by
  have htitle := isGameTitle_of_getToken h
  simp only [isGameTitle, Bool.and_eq_true, decide_eq_true_eq] at htitle
  obtain ⟨⟨hlen, hhead⟩, hlast⟩ := htitle
  obtain ⟨s, rfl⟩ := List.head?_eq_some_iff.mp hhead
  rcases List.eq_nil_or_concat s with rfl | ⟨mid, c, rfl⟩
  · simp at hlen
  · have hc : c = 0x22 := by simpa [List.getLast?_cons] using hlast
    rw [hc, List.concat_eq_append]
    exact congrArg quote (unquote_quote mid)

theorem isEmptyStr_of_title {t : List Byte} (h : getToken t = .gameTitle) :
    isEmptyStr t = false := by
  rw [← Bool.not_eq_true]
  intro hempty
  rw [getToken_of_isEmptyStr hempty] at h
  cases h

theorem tokens_singleton_of_kept {l : List Byte} (h : Kept l) : tokens [l] = [l] := by
  rw [tokens_cons_of_screened h.graph, h.screened, if_pos (List.length_pos_iff.mpr h.ne)]
  rfl

theorem tokens_map_eq_self {f : List Byte → List Byte} {ts : List (List Byte)}
    (h : ∀ t ∈ ts, tokens [f t] = [f t]) : tokens (ts.map f) = ts.map f := by
  induction ts with
  | nil => rfl
  | cons t ts ih =>
      rw [List.map_cons, tokens_cons, h t (by simp), ih fun u hu => h u (by simp [hu])]
      rfl

/-- A title is written as it was. -/
theorem rewritten_of_title {t : List Byte} (htok : getToken t = .gameTitle)
    (hlen : (unquote t).length < 80) : rewritten t = t := by
  simp only [rewritten, htok]
  rw [List.take_of_length_le (by rw [gameTitleMax]; omega), quote_unquote htok]

section Reading

variable {lines : List (List Byte)} (hlines : ∀ line ∈ lines, TextLine line) {t : List Byte}
  (ht : t ∈ tokens lines)
include hlines ht

/-- What is written for a token is a line that the scanner takes as it is. -/
theorem textLine_rewritten (htitle : getToken t = .gameTitle → (unquote t).length < 80) :
    TextLine (rewritten t) := by
  cases htok : getToken t with
  | gameTitle =>
      rw [rewritten_of_title htok (htitle htok)]
      exact textLine_of_mem_tokens hlines ht
  | cheatDesc =>
      have h := textLine_of_mem_tokens hlines ht
      simp only [rewritten, htok]
      exact ⟨fun hmem => h.nul (List.mem_of_mem_take hmem),
        fun hmem => h.lf (List.mem_of_mem_take hmem), (List.length_take_le' _ _).trans h.length⟩
  | cheatCode =>
      simp only [rewritten, htok]
      exact (kept_codeLine _).line

theorem kept_take (hrereads : Rereads (t.take cheatDescMax)) : Kept (t.take cheatDescMax) := by
  obtain ⟨hhash, hslashes⟩ := notMem_of_mem_tokens ht
  have hgraph : isEmptyStr t = false := by
    rw [← Bool.not_eq_true]
    intro hempty
    have := isEmptyStr_of_isPrefix (List.take_prefix cheatDescMax t) hempty
    rw [hrereads.graph] at this
    cases this
  have hne : t.take cheatDescMax ≠ [] := by
    intro hnil
    have := hrereads.graph
    rw [hnil] at this
    cases this
  have hline := textLine_of_mem_tokens hlines ht
  refine ⟨⟨fun h => hline.nul (List.mem_of_mem_take h), fun h => hline.lf (List.mem_of_mem_take h),
    (List.length_take_le' _ _).trans hline.length⟩, hrereads.graph, ?_, hne⟩
  refine screen_eq_self (fun h => hhash (List.mem_of_mem_take h))
    (fun h => hslashes (h.trans (List.take_prefix _ _).isInfix)) ?_ hrereads.last
  intro c hc
  refine (ends_of_mem_tokens ht hgraph).1 c ?_
  rw [← List.take_append_drop cheatDescMax t, List.head?_append_of_ne_nil _ hne]
  exact hc

/-- It is read as itself, unless it is a description that is not. -/
theorem tokens_rewritten (htitle : getToken t = .gameTitle → (unquote t).length < 80)
    (hdesc : getToken t = .cheatDesc → Rereads (t.take cheatDescMax)) :
    tokens [rewritten t] = [rewritten t] ∧ getToken (rewritten t) = getToken t := by
  cases htok : getToken t with
  | gameTitle =>
      rw [rewritten_of_title htok (htitle htok)]
      have hkept := kept_of_mem_tokens hlines ht (isEmptyStr_of_title htok)
      exact ⟨tokens_singleton_of_kept hkept, htok⟩
  | cheatDesc =>
      have hrereads := hdesc htok
      simp only [rewritten, htok]
      exact ⟨tokens_singleton_of_kept (kept_take hlines ht hrereads), hrereads.desc⟩
  | cheatCode =>
      simp only [rewritten, htok]
      exact ⟨tokens_singleton_of_kept (kept_codeLine _), getToken_codeLine _⟩

end Reading

/-- A token and what it is written as add the same to the games. -/
theorem addToken_rewritten {t : List Byte}
    (htitle : getToken t = .gameTitle → (unquote t).length < 80)
    (htok : getToken (rewritten t) = getToken t) (games : List GameVal) :
    addToken games (rewritten t) = addToken games t := by
  cases hkind : getToken t with
  | gameTitle => rw [rewritten_of_title hkind (htitle hkind)]
  | cheatDesc =>
      have hrewritten : rewritten t = t.take cheatDescMax := by simp only [rewritten, hkind]
      rw [hrewritten, hkind] at htok
      rw [hrewritten, addToken, addToken, htok, hkind]
      simp [List.take_take]
  | cheatCode =>
      have hrewritten : rewritten t = valueLine (codeVal t) := by simp only [rewritten, hkind]
      rw [hrewritten, hkind] at htok
      have hval : codeVal (valueLine (codeVal t)) = codeVal t := codeVal_codeLine _
      rw [hrewritten, addToken, addToken, htok, hkind, hval]

/-- What is written for the tokens, if each of them is read as itself. -/
theorem foldl_rewritten {ts : List (List Byte)}
    (htitles : ∀ t ∈ ts, getToken t = .gameTitle → (unquote t).length < 80)
    (htoks : ∀ t ∈ ts, getToken (rewritten t) = getToken t) (games : List GameVal) :
    (ts.map rewritten).foldl addToken games = ts.foldl addToken games := by
  induction ts generalizing games with
  | nil => rfl
  | cons t ts ih =>
      rw [List.map_cons, List.foldl_cons, List.foldl_cons,
        addToken_rewritten (htitles t (by simp)) (htoks t (by simp)),
        ih (fun u hu => htitles u (by simp [hu])) fun u hu => htoks u (by simp [hu])]

theorem overlong_rewritten {t : List Byte}
    (htitle : getToken t = .gameTitle → (unquote t).length < 80)
    (htok : getToken (rewritten t) = getToken t) : overlong (rewritten t) = false := by
  cases hkind : getToken t with
  | gameTitle =>
      have hlen := htitle hkind
      rw [rewritten_of_title hkind hlen]
      simp [overlong, gameTitleMax, hlen.le]
  | cheatDesc => simp [overlong, htok, hkind]
  | cheatCode => simp [overlong, htok, hkind]

theorem taken_map_rewritten {ts : List (List Byte)}
    (htitles : ∀ t ∈ ts, getToken t = .gameTitle → (unquote t).length < 80)
    (htoks : ∀ t ∈ ts, getToken (rewritten t) = getToken t) {prev : Option Tok}
    (htaken : taken prev ts = ts) : taken prev (ts.map rewritten) = ts.map rewritten := by
  induction ts generalizing prev with
  | nil => rfl
  | cons t ts ih =>
      rw [taken] at htaken
      split at htaken
      · rename_i htake
        simp only [List.cons.injEq, true_and] at htaken
        have htok := htoks t (by simp)
        rw [List.map_cons, taken, htok, if_pos,
          ih (fun u hu => htitles u (by simp [hu])) (fun u hu => htoks u (by simp [hu])) htaken]
        simp [(Bool.and_eq_true_iff.mp htake).1, overlong_rewritten (htitles t (by simp)) htok]
      · cases htaken

/-! ### Descriptions that are not read as themselves -/

/-- If every element gives at most one, and as many come out as went in, each
gives the one at its place. -/
theorem forall₂_of_flatMap {α β γ : Type*} {f : α → List β} (hle : ∀ a, (f a).length ≤ 1)
    {g : β → γ} {l : List α} {m : List γ} (hm : (l.flatMap f).map g = m)
    (hlen : m.length = l.length) : List.Forall₂ (fun a c => ∃ b, f a = [b] ∧ g b = c) l m := by
  have hbound : ∀ l : List α, (l.flatMap f).length ≤ l.length := by
    intro l
    induction l with
    | nil => simp
    | cons a l ih =>
        have := hle a
        rw [List.flatMap_cons, List.length_append, List.length_cons]
        omega
  induction l generalizing m with
  | nil =>
      rw [← hm]
      exact .nil
  | cons a l ih =>
      subst hm
      have ha := hle a
      have hl := hbound l
      cases hf : f a with
      | nil =>
          simp only [List.flatMap_cons, hf, List.nil_append, List.length_map,
            List.length_cons] at hlen
          omega
      | cons b bs =>
          have hbs : bs = [] := by
            rw [hf, List.length_cons] at ha
            exact List.eq_nil_of_length_eq_zero (by omega)
          simp only [List.flatMap_cons, hf, hbs, List.map_cons, List.cons_append, List.nil_append,
            List.length_cons, Nat.add_right_cancel_iff] at hlen ⊢
          exact .cons ⟨b, by rw [hf, hbs], rfl⟩ (ih rfl hlen)

/-- The description that a line is read as, if it is read as one. -/
def rereadDesc (d : List Byte) : List (List Byte) := descTokens (tokens [d])

theorem length_rereadDesc_le (d : List Byte) : (rereadDesc d).length ≤ 1 := by
  have hlen : (tokens [d]).length ≤ 1 := by
    cases h : isEmptyStr d with
    | true =>
        rw [tokens_cons_of_empty h]
        exact Nat.zero_le 1
    | false =>
        rw [tokens_cons_of_screened h]
        split
        · exact le_rfl
        · exact Nat.zero_le 1
  exact (List.length_filter_le _ _).trans hlen

/-- A description of at most 80 bytes that is read as one with the same text. -/
theorem rereads_of_rereadDesc {d x : List Byte} (hlen : d.length ≤ cheatDescMax)
    (hx : rereadDesc d = [x]) (heq : x.take cheatDescMax = d) : Rereads d := by
  have hmem : x ∈ rereadDesc d := by simp [hx]
  obtain ⟨htoken, hdesc⟩ := List.mem_filter.mp hmem
  obtain ⟨line, hline, hgraph, hscreen, -⟩ := exists_of_mem_tokens htoken
  rw [List.mem_singleton] at hline
  rw [hline] at hgraph hscreen
  have hshort : x.length ≤ cheatDescMax := by
    have hwithin : screen d <:+: d := (trimStr_infix_self _).trans (termStr_prefix_self _ _).isInfix
    rw [← hscreen]
    exact hwithin.length_le.trans hlen
  rw [List.take_of_length_le hshort] at heq
  rw [heq] at htoken hdesc
  exact ⟨hgraph, (ends_of_mem_tokens htoken hgraph).2, by simpa using hdesc⟩

theorem descsOf_foldl_nil {ts : List (List Byte)} (htaken : taken none ts = ts) :
    descsOf (ts.foldl addToken []) = (descTokens ts).map (List.take cheatDescMax) := by
  cases ts with
  | nil => rfl
  | cons t ts =>
      rw [taken] at htaken
      split at htaken
      · rename_i htake
        have htok : getToken t = .gameTitle := by
          simpa [allowed] using (Bool.and_eq_true_iff.mp htake).1
        have hgame : descsOf (addToken [] t) = [] ∧ addToken [] t ≠ [] := by
          simp [addToken, htok, descsOf]
        rw [List.foldl_cons, descsOf_foldl_addToken hgame.2, hgame.1]
        simp [descTokens, htok]
      · cases htaken

section Again

variable {lines : List (List Byte)} (hlines : ∀ line ∈ lines, TextLine line)
  (htitles : ∀ t ∈ tokens lines, getToken t = .gameTitle → (unquote t).length < 80)
include hlines htitles

/-- The descriptions among what is read again come from the descriptions. -/
theorem descTokens_tokens_rewritten {ts : List (List Byte)} (hts : ∀ t ∈ ts, t ∈ tokens lines) :
    descTokens (tokens (ts.map rewritten)) =
      ((descTokens ts).map (List.take cheatDescMax)).flatMap rereadDesc := by
  induction ts with
  | nil => rfl
  | cons t ts ih =>
      have ht := hts t (by simp)
      have hrest := ih fun u hu => hts u (by simp [hu])
      have hfirst : descTokens (tokens [rewritten t]) =
          ((descTokens [t]).map (List.take cheatDescMax)).flatMap rereadDesc := by
        by_cases htok : getToken t = .cheatDesc
        · simp [rewritten, descTokens, htok, rereadDesc]
        · -- titles and codes are read as what they were
          obtain ⟨htokens, hkind⟩ :=
            tokens_rewritten hlines ht (htitles t ht) fun h => absurd h htok
          rw [htokens]
          simp [descTokens, hkind, htok]
      calc descTokens (tokens (rewritten t :: ts.map rewritten))
          = descTokens (tokens [rewritten t]) ++ descTokens (tokens (ts.map rewritten)) := by
            rw [tokens_cons, descTokens, List.filter_append]
            rfl
        _ = ((descTokens [t]).map (List.take cheatDescMax)).flatMap rereadDesc ++
              ((descTokens ts).map (List.take cheatDescMax)).flatMap rereadDesc := by
            rw [hfirst, hrest]
        _ = ((descTokens (t :: ts)).map (List.take cheatDescMax)).flatMap rereadDesc := by
            rw [descTokens_cons t ts, List.map_append, List.flatMap_append]

/-- What was written gives the same games exactly if every description is read
as itself. -/
theorem foldl_tokens_rewritten_iff (htaken : taken none (tokens lines) = tokens lines) :
    (taken none (tokens ((tokens lines).map rewritten)) =
          tokens ((tokens lines).map rewritten) ∧
        (tokens ((tokens lines).map rewritten)).foldl addToken [] =
          (tokens lines).foldl addToken []) ↔
      ∀ t ∈ tokens lines, getToken t = .cheatDesc → Rereads (t.take cheatDescMax) := by
  constructor
  · rintro ⟨htaken', hgames⟩ t ht htok
    have hdescs := congrArg descsOf hgames
    rw [descsOf_foldl_nil htaken', descsOf_foldl_nil htaken,
      descTokens_tokens_rewritten hlines htitles fun t ht => ht] at hdescs
    have hsame := forall₂_of_flatMap length_rereadDesc_le hdescs rfl
    obtain ⟨x, hx, heq⟩ := List.forall₂_same.mp hsame (t.take cheatDescMax)
      (List.mem_map_of_mem (List.mem_filter.mpr ⟨ht, by simpa using htok⟩))
    exact rereads_of_rereadDesc (List.length_take_le _ _) hx heq
  · intro hrereads
    have hread := fun t ht => tokens_rewritten hlines ht (htitles t ht) (hrereads t ht)
    have htokens := tokens_map_eq_self fun t ht => (hread t ht).1
    have htoks := fun t ht => (hread t ht).2
    rw [htokens]
    exact ⟨taken_map_rewritten htitles htoks htaken, foldl_rewritten htitles htoks []⟩

end Again

/-! ### Loading, saving and loading again -/

theorem textLine_of_mem_writtenLines_of_lines {games : GameList}
    (h : ∀ l ∈ (games.map Game.view).flatMap GameVal.lines, TextLine l) :
    ∀ l ∈ writtenLines games, TextLine l := by
  intro l hl
  obtain ⟨game, hgame, hl⟩ := List.mem_flatMap.mp hl
  rcases List.mem_append.mp hl with hl | hl
  · rw [gameTokens_eq] at hl
    exact h l (List.mem_flatMap.mpr ⟨game.view, List.mem_map_of_mem hgame, hl⟩)
  · have hsep : ∀ m ∈ [[], rule, []], TextLine m := by decide
    exact hsep l hl

/-- Reading what was written, for an object with the games of a token sequence. -/
theorem readsAgain_iff {env : Env} (hzero : Zeroed env) {lines : List (List Byte)}
    (hlines : ∀ line ∈ lines, TextLine line)
    (htitles : ∀ t ∈ tokens lines, getToken t = .gameTitle → (unquote t).length < 80)
    (htaken : taken none (tokens lines) = tokens lines) {c : Object}
    (hgames : (tokens lines).foldl addToken [] = c.games.map Game.view)
    (past old : List Byte) (obj : Object) :
    (∃ c', cheatsReadBuf env old obj (cheatsWrite c ++ NUL :: past) = some (cheatsTrue, c') ∧
        c'.games.map Game.view = c.games.map Game.view) ↔
      ∀ t ∈ tokens lines, getToken t = .cheatDesc → Rereads (t.take cheatDescMax) := by
  have hwritten : (c.games.map Game.view).flatMap GameVal.lines =
      (tokens lines).map rewritten := by
    have htakes : Takes none [] := trivial
    rw [← hgames, lines_foldl_addToken htakes htaken]
    rfl
  have hwrittenLines : ∀ line ∈ writtenLines c.games, TextLine line := by
    apply textLine_of_mem_writtenLines_of_lines
    rw [hwritten]
    intro l hl
    obtain ⟨t, ht, rfl⟩ := List.mem_map.mp hl
    exact textLine_rewritten hlines ht (htitles t ht)
  have htokens : tokens (writtenLines c.games) = tokens ((tokens lines).map rewritten) := by
    rw [tokens_writtenLines_eq, hwritten]
  have hresult : (parseBuf env old [] (cheatsWrite c ++ NUL :: past)).result =
      parseTokens env initParser [] (tokens ((tokens lines).map rewritten)) := by
    rw [cheatsWrite_eq, ← htokens]
    exact parseBuf_result env hwrittenLines past old []
  have hnul : ∀ t ∈ tokens ((tokens lines).map rewritten), NUL ∉ t := by
    rw [← htokens]
    exact fun t ht => nul_notMem_of_mem_tokens hwrittenLines ht
  rw [cheatsReadBuf_zeroed hzero hnul hresult, ← hgames]
  exact foldl_tokens_rewritten_iff hlines htitles htaken

/-- Which texts can be loaded, saved and loaded again without a change: those in
which every description, cut at `CHEAT_DESC_MAX` bytes, is read as itself. -/
theorem reload_iff {env env' : Env} (hzero : Zeroed env) (hzero' : Zeroed env')
    {lines : List (List Byte)} (hlines : ∀ line ∈ lines, AnyLine line) (past old : List Byte)
    (obj : Object) {c : Object}
    (hread : cheatsReadBuf env old obj (textBuf lines past) = some (cheatsTrue, c))
    (htitles : ∀ t ∈ textTokens lines, getToken t = .gameTitle → (unquote t).length < 80)
    (past' old' : List Byte) (obj' : Object) :
    (∃ c', cheatsReadBuf env' old' obj' (cheatsWrite c ++ NUL :: past') = some (cheatsTrue, c') ∧
        c'.games.map Game.view = c.games.map Game.view) ↔
      ∀ t ∈ textTokens lines, getToken t = .cheatDesc → Rereads (t.take cheatDescMax) := by
  have hpieces := textLine_of_mem_flatMap hlines
  have hnul : ∀ t ∈ textTokens lines, NUL ∉ t := fun t ht => nul_notMem_of_mem_tokens hpieces ht
  obtain ⟨htaken, hgames⟩ := (cheatsReadBuf_zeroed hzero hnul
    (parseBuf_result_textTokens env hlines past old []) obj _).mp ⟨c, hread, rfl⟩
  exact readsAgain_iff hzero' hpieces htitles htaken hgames past' old' obj'

theorem textTokens_eq {lines : List (List Byte)} (hlines : ∀ line ∈ lines, line.length ≤ lineMax) :
    textTokens lines = tokens lines := by
  have hcut : lines.flatMap cutLine = lines := by
    induction lines with
    | nil => rfl
    | cons line lines ih =>
        rw [List.flatMap_cons, ih fun l hl => hlines l (by simp [hl]), cutLine,
          if_pos (hlines line (by simp))]
        rfl
  rw [textTokens, hcut]

/-- The object that is loaded from a text of lines, when the parser takes its tokens. -/
def loaded (lines : List (List Byte)) : Object :=
  { cheatsInit with games := (parseBuf zeroEnv [] [] (textBuf lines [])).list }

theorem cheatsReadBuf_loaded {lines : List (List Byte)} (hlines : ∀ line ∈ lines, TextLine line)
    (htaken : taken none (tokens lines) = tokens lines) (obj : Object) :
    cheatsReadBuf zeroEnv [] obj (textBuf lines []) = some (cheatsTrue, loaded lines) := by
  obtain ⟨c, hread, -⟩ := (cheatsReadBuf_zeroed zeroed_zeroEnv
    (fun t ht => nul_notMem_of_mem_tokens hlines ht) (parseBuf_result zeroEnv hlines [] [] []) obj
    _).mpr ⟨htaken, rfl⟩
  rw [hread, (cheatsReadBuf_eq_true_iff.mp hread).2]
  rfl

theorem reload_iff_sampleLines :
    ∃ c', cheatsReadBuf zeroEnv [] cheatsInit (cheatsWrite (loaded sampleLines) ++ [NUL]) =
        some (cheatsTrue, c') ∧
      c'.games.map Game.view = (loaded sampleLines).games.map Game.view := by
  have htokens : textTokens sampleLines = tokens sampleLines := textTokens_eq (by decide)
  refine (@reload_iff zeroEnv zeroEnv zeroed_zeroEnv zeroed_zeroEnv sampleLines
    (fun line hline => ?_) [] [] cheatsInit (loaded sampleLines)
    (cheatsReadBuf_loaded (by decide) (by decide) cheatsInit) ?_ [] [] cheatsInit).mpr ?_
  · have h : TextLine line := (by decide : ∀ line ∈ sampleLines, TextLine line) line hline
    exact ⟨h.nul, h.lf⟩
  · rw [htokens]
    decide
  · rw [htokens]
    decide

/-- The description of two blanks in front of a comment is lost. -/
theorem not_reload_blankLines :
    cheatsReadBuf zeroEnv [] cheatsInit (textBuf blankLines []) =
        some (cheatsTrue, loaded blankLines) ∧
      ¬ ∃ c', cheatsReadBuf zeroEnv [] cheatsInit (cheatsWrite (loaded blankLines) ++ [NUL]) =
          some (cheatsTrue, c') ∧
        c'.games.map Game.view = (loaded blankLines).games.map Game.view := by
  have hlines : ∀ line ∈ blankLines, TextLine line := by decide
  have hread := cheatsReadBuf_loaded hlines (by decide) cheatsInit
  obtain ⟨htaken, hgames⟩ := (cheatsReadBuf_zeroed zeroed_zeroEnv
    (fun t ht => nul_notMem_of_mem_tokens hlines ht) (parseBuf_result zeroEnv hlines [] [] [])
    cheatsInit _).mp ⟨_, hread, rfl⟩
  refine ⟨hread, ?_⟩
  rw [readsAgain_iff zeroed_zeroEnv hlines (by decide) htaken hgames [] [] cheatsInit]
  decide

end Ps2rd.Cheats
