import Ps2rd.Cheats.Grammar

/-!
# One step of the parser

`Inv` relates the parser's context to the tokens read so far.  It carries the
place of the current game and the current cheat, so that the pointers of the
context are known to be valid whenever `parse_line` uses them; the cheat pointer
that is left over from an earlier game is not used, because the token check
refuses a code there.  `parseLine_of_inv` is the step lemma: an allowed token
keeps the invariant, any other one is reported and changes nothing.
-/

namespace Ps2rd.Cheats

open CString

/-! ### The objects made from a line -/

/-- A title or description that is shorter than its array. -/
structure BoundedToken (t : List Byte) : Prop where
  title : getToken t = .gameTitle → (unquote t).length < gameTitleMax
  desc : getToken t = .cheatDesc → t.length < cheatDescMax

instance (t : List Byte) : Decidable (BoundedToken t) :=
  decidable_of_iff ((getToken t = .gameTitle → (unquote t).length < gameTitleMax) ∧
      (getToken t = .cheatDesc → t.length < cheatDescMax))
    ⟨fun h => ⟨h.1, h.2⟩, fun h => ⟨h.title, h.desc⟩⟩

/-- A token that is stored as a terminated string. -/
structure ShortToken (t : List Byte) : Prop extends BoundedToken t where
  nul : NUL ∉ t

theorem isGameTitle_of_getToken {t : List Byte} (h : getToken t = .gameTitle) :
    isGameTitle t = true := by
  unfold getToken at h
  split at h
  · assumption
  · split at h <;> cases h

theorem isCheatCode_of_getToken {t : List Byte} (h : getToken t = .cheatCode) :
    isCheatCode t = true := by
  unfold getToken at h
  split at h
  · cases h
  · split at h
    · assumption
    · cases h

theorem length_unquote {t : List Byte} (h : getToken t = .gameTitle) :
    (unquote t).length = t.length - 2 := by
  have hlen : t.length > 2 := by
    have := isGameTitle_of_getToken h
    simp only [isGameTitle, Bool.and_eq_true, decide_eq_true_eq] at this
    exact this.1.1
  simp only [unquote, List.length_take, List.length_drop]
  omega

/-- A title line makes a game with the unquoted title and no cheats. -/
theorem makeGameFromLine_eq {block : Block} (hblock : block.isSome) {t : List Byte}
    (htok : getToken t = .gameTitle) (hshort : ShortToken t) :
    ∃ game, makeGameFromLine block t = .ok (some game) ∧
      game.view = { title := unquote t, cheats := [] } ∧ game.cheats = [] := by
  obtain ⟨content, rfl⟩ := Option.isSome_iff_exists.mp hblock
  have hlen := hshort.title htok
  have hfit : ¬ t.length - 2 > gameTitleMax := by
    rw [← length_unquote htok]
    omega
  have hnul : NUL ∉ unquote t := fun h =>
    hshort.nul (List.mem_of_mem_drop (List.mem_of_mem_take h))
  refine ⟨_, by rw [makeGameFromLine, if_neg hfit]; rfl, ?_, rfl⟩
  simp only [Game.view, List.map_nil, GameVal.mk.injEq, and_true]
  exact CharArray.str_strncpy content _ hnul hlen

/-- A description line makes a cheat with that description and no codes. -/
theorem makeCheatFromLine_eq {block : Block} (hblock : block.isSome) {t : List Byte}
    (htok : getToken t = .cheatDesc) (hshort : ShortToken t) :
    ∃ cheat, makeCheatFromLine block t = some cheat ∧
      cheat.view = { desc := t, codes := [] } ∧ cheat.codes = [] := by
  obtain ⟨content, rfl⟩ := Option.isSome_iff_exists.mp hblock
  refine ⟨_, rfl, ?_, rfl⟩
  simp only [Cheat.view, List.map_nil, CheatVal.mk.injEq, and_true]
  exact CharArray.str_strncpy content _ hshort.nul (hshort.desc htok)

/-- The loop of `is_cheat_code` counts the digits up to `CODE_DIGITS`. -/
theorem isCheatCodeFrom_length {i : ℕ} {t : List Byte} (h : isCheatCodeFrom i t = true) :
    i + (t.filter isxdigit).length = codeDigits := by
  induction t generalizing i with
  | nil => simpa [isCheatCodeFrom] using h
  | cons c t ih =>
      rw [isCheatCodeFrom] at h
      split at h
      · rename_i hc
        split at h
        · cases h
        · have := ih h
          rw [List.filter_cons_of_pos hc, List.length_cons]
          omega
      · rename_i hc
        split at h
        · cases h
        · rw [List.filter_cons_of_neg hc]
          exact ih h

/-- A code line makes a code with the values of its two groups of digits,
whatever the stack holds behind them. -/
theorem makeCodeFromLine_eq {block : Block} (hblock : block.isSome) (stack : List Byte)
    (uninit : Word × Word) {t : List Byte} (htok : getToken t = .cheatCode) :
    ∃ code, makeCodeFromLine block stack uninit t = .ok (some code) ∧
      code.view = codeVal t := by
  obtain ⟨content, rfl⟩ := Option.isSome_iff_exists.mp hblock
  set digits := t.filter isxdigit with hdigits
  have hlen : digits.length = 16 := by
    have := isCheatCodeFrom_length (isCheatCode_of_getToken htok)
    simpa [codeDigits] using this
  have hall : ∀ c ∈ digits, isxdigit c = true := fun c hc => (List.mem_filter.mp hc).2
  have hfirst : scanX 8 (digits ++ stack) =
      some (hexValue (digits.take 8), digits.drop 8 ++ stack) := by
    have htake : ∀ c ∈ digits.take 8, isxdigit c = true :=
      fun c hc => hall c (List.mem_of_mem_take hc)
    have hscan := scanX_append htake
      (by rw [ne_eq, List.take_eq_nil_iff, ← List.length_eq_zero_iff]; omega)
      (digits.drop 8 ++ stack)
    rwa [← List.append_assoc, List.take_append_drop, List.length_take,
      show min 8 digits.length = 8 by omega] at hscan
  have hsecond : scanX 8 (digits.drop 8 ++ stack) = some (hexValue (digits.drop 8), stack) := by
    have hdrop : ∀ c ∈ digits.drop 8, isxdigit c = true :=
      fun c hc => hall c (List.mem_of_mem_drop hc)
    have hscan := scanX_append hdrop
      (by rw [ne_eq, List.drop_eq_nil_iff]; omega) stack
    rwa [List.length_drop, show digits.length - 8 = 8 by omega] at hscan
  have hscan : scanCode (digits ++ stack) =
      (some (hexValue (digits.take 8)), some (hexValue (digits.drop 8))) := by
    simp [scanCode, hfirst, hsecond]
  refine ⟨{ addr := (codeVal t).1, val := (codeVal t).2, tag := 0 }, ?_, rfl⟩
  simp only [makeCodeFromLine, ← hdigits]
  rw [if_neg (by rw [codeDigits]; omega), hscan]
  rfl

/-! ### The invariant -/

/-- What the context and the list hold after the tokens `toks`, started on the
list `list₀`: nothing has been read; or the last token is a title; or the last
description of the current game is followed by codes only. -/
inductive Inv (list₀ : GameList) (toks : List (List Byte)) (ctx : Ctx) (list : GameList) : Prop
  | start (htoks : toks = []) (hlist : list = list₀) (hnext : ctx.next = Tok.gameTitle.flag)
  | title (ts : List (List Byte)) (title : List Byte) (init : GameList) (game : Game)
      (htoks : toks = ts ++ [title]) (htitle : getToken title = .gameTitle)
      (hlist : list = list₀ ++ init ++ [game])
      (hinit : init.map Game.view = gamesOf ts)
      (hname : game.title.str = unquote title) (hcheats : game.cheats = [])
      (hnext : ctx.next = nextToken .gameTitle)
      (hgame : ctx.game = some (list₀ ++ init).length)
  | cheat (ts : List (List Byte)) (title : List Byte) (us : List (List Byte)) (desc : List Byte)
      (cs : List (List Byte)) (init : GameList) (game : Game) (cinit : List Cheat) (cheat : Cheat)
      (htoks : toks = ts ++ title :: (us ++ desc :: cs)) (htitle : getToken title = .gameTitle)
      (hus : ∀ u ∈ us, getToken u ≠ .gameTitle) (hdesc : getToken desc = .cheatDesc)
      (hcs : ∀ c ∈ cs, getToken c = .cheatCode)
      (hlist : list = list₀ ++ init ++ [game])
      (hinit : init.map Game.view = gamesOf ts)
      (hname : game.title.str = unquote title) (hcheats : game.cheats = cinit ++ [cheat])
      (hcinit : cinit.map Cheat.view = cheatsOf us)
      (hview : cheat.view = { desc, codes := cs.map codeVal })
      (hnext : ctx.next = nextToken .cheatDesc)
      (hgame : ctx.game = some (list₀ ++ init).length)
      (hcheat : ctx.cheat = some { game := (list₀ ++ init).length, cheat := cinit.length })

/-- The token that a context was left with. -/
def lastTok (toks : List (List Byte)) : Option Tok := toks.getLast?.map getToken

theorem lastTok_concat (toks : List (List Byte)) (t : List Byte) :
    lastTok (toks ++ [t]) = some (getToken t) := by
  simp [lastTok]

/-- There is no title among the tokens of a game behind its own. -/
theorem ne_gameTitle_of_mem {us cs : List (List Byte)} {desc : List Byte}
    (hus : ∀ u ∈ us, getToken u ≠ .gameTitle) (hdesc : getToken desc = .cheatDesc)
    (hcs : ∀ c ∈ cs, getToken c = .cheatCode) :
    ∀ t ∈ us ++ desc :: cs, getToken t ≠ .gameTitle := by
  intro t ht
  rcases List.mem_append.mp ht with ht | ht
  · exact hus t ht
  · rcases List.mem_cons.mp ht with rfl | ht
    · simp [hdesc]
    · simp [hcs t ht]

/-- The list holds, behind what was there before, the games of the tokens. -/
theorem Inv.games {list₀ : GameList} {toks : List (List Byte)} {ctx : Ctx} {list : GameList}
    (h : Inv list₀ toks ctx list) :
    ∃ new, list = list₀ ++ new ∧ new.map Game.view = gamesOf toks := by
  cases h with
  | start htoks hlist hnext => exact ⟨[], by simp [hlist], by simp [htoks, gamesOf]⟩
  | title ts title init game htoks htitle hlist hinit hname hcheats hnext hgame =>
      refine ⟨init ++ [game], by rw [hlist, List.append_assoc], ?_⟩
      rw [htoks, gamesOf_append_title htitle, List.map_append, hinit]
      simp [Game.view, hname, hcheats, cheatsOf, gamesOf]
  | cheat ts title us desc cs init game cinit cheat htoks htitle hus hdesc hcs hlist hinit
      hname hcheats hcinit hview hnext hgame hcheat =>
      refine ⟨init ++ [game], by rw [hlist, List.append_assoc], ?_⟩
      have hnone := ne_gameTitle_of_mem hus hdesc hcs
      rw [htoks, gamesOf_append_title htitle, gamesOf_of_forall hnone,
        cheatsOf_append_desc hdesc hus, cheatsOf_of_forall hcs, codesOf_of_forall hcs,
        List.map_append, hinit]
      simp [Game.view, hname, hcheats, hcinit, hview]

/-- The expected tokens are those allowed after the last one. -/
theorem Inv.next_eq_zero_iff {list₀ : GameList} {toks : List (List Byte)} {ctx : Ctx}
    {list : GameList} (h : Inv list₀ toks ctx list) (tok : Tok) :
    ctx.next &&& tok.flag = 0 ↔ allowed (lastTok toks) tok = false := by
  cases h with
  | start htoks hlist hnext =>
      rw [hnext, htoks]
      cases tok <;> decide
  | title ts title init game htoks htitle hlist hinit hname hcheats hnext hgame =>
      rw [hnext, htoks, lastTok_concat, htitle]
      cases tok <;> decide
  | cheat ts title us desc cs init game cinit cheat htoks htitle hus hdesc hcs hlist hinit
      hname hcheats hcinit hview hnext hgame hcheat =>
      have hlast : lastTok toks = some .cheatDesc ∨ lastTok toks = some .cheatCode := by
        rw [htoks, ← List.cons_append, ← List.append_assoc]
        induction cs using List.reverseRecOn with
        | nil =>
            left
            rw [lastTok_concat, hdesc]
        | append_singleton cs c _ =>
            rw [← List.cons_append, ← List.append_assoc, lastTok_concat]
            simp [hcs c (by simp)]
      rw [hnext]
      rcases hlast with hlast | hlast <;> rw [hlast] <;> cases tok <;> decide

/-! ### The step -/

theorem modify_concat {α : Type*} (l : List α) (a : α) (f : α → α) :
    (l ++ [a]).modify l.length f = l ++ [f a] := by
  induction l with
  | nil => rfl
  | cons b l ih => simp [ih]

theorem insertCheat_concat (init : GameList) (game : Game) (cheat : Cheat) :
    insertCheat (init ++ [game]) init.length cheat =
      init ++ [{ game with cheats := game.cheats ++ [cheat] }] := by
  rw [insertCheat, modify_concat]

theorem cheatPtr_concat (init : GameList) (game : Game) :
    cheatPtr (init ++ [game]) init.length =
      { game := init.length, cheat := game.cheats.length } := by
  simp [cheatPtr]

theorem insertCode_concat (init : GameList) (game : Game) (cinit : List Cheat) (cheat : Cheat)
    (hcheats : game.cheats = cinit ++ [cheat]) (code : Code) :
    insertCode (init ++ [game]) { game := init.length, cheat := cinit.length } code =
      init ++ [{ game with
        cheats := cinit ++ [{ cheat with codes := cheat.codes ++ [code] }] }] := by
  simp only [insertCode, modify_concat, hcheats]

section Branches

variable {env : Env} {line : List Byte} {ctx : Ctx} {list : GameList}

theorem parseLine_gameTitle (htok : getToken line = .gameTitle)
    (hnext : ¬ ctx.next &&& Tok.gameTitle.flag = 0) {game : Game}
    (hmake : makeGameFromLine (env.malloc ctx.allocs) line = .ok (some game)) (nl : ℕ) :
    parseLine env line nl ctx list =
      .ok ({ ctx with next := nextToken .gameTitle, game := some list.length,
                      allocs := ctx.allocs + 1 }, list ++ [game]) := by
  simp only [parseLine, htok, if_neg hnext, hmake]

theorem parseLine_cheatDesc (htok : getToken line = .cheatDesc)
    (hnext : ¬ ctx.next &&& Tok.cheatDesc.flag = 0) {cheat : Cheat}
    (hmake : makeCheatFromLine (env.malloc ctx.allocs) line = some cheat) {g : ℕ}
    (hgame : ctx.game = some g) (nl : ℕ) :
    parseLine env line nl ctx list =
      .ok ({ ctx with next := nextToken .cheatDesc, cheat := some (cheatPtr list g),
                      allocs := ctx.allocs + 1 }, insertCheat list g cheat) := by
  simp only [parseLine, htok, if_neg hnext, hmake, hgame]

theorem parseLine_cheatCode (htok : getToken line = .cheatCode)
    (hnext : ¬ ctx.next &&& Tok.cheatCode.flag = 0) {code : Code}
    (hmake : makeCodeFromLine (env.malloc ctx.allocs) env.stack env.uninit line = .ok (some code))
    {ptr : CheatPtr} (hcheat : ctx.cheat = some ptr) (nl : ℕ) :
    parseLine env line nl ctx list =
      .ok ({ ctx with next := nextToken .cheatCode, allocs := ctx.allocs + 1 },
        insertCode list ptr code) := by
  simp only [parseLine, htok, if_neg hnext, hmake, hcheat]

end Branches

/-- A token that is not allowed is reported; nothing is added. -/
theorem parseLine_offending (env : Env) {list₀ : GameList} {toks : List (List Byte)} {ctx : Ctx}
    {list : GameList} (h : Inv list₀ toks ctx list) {t : List Byte}
    (hoff : allowed (lastTok toks) (getToken t) = false) (nl : ℕ) :
    parseLine env t nl ctx list = .error (invalidHere nl (getToken t)) := by
  rw [parseLine, if_pos ((h.next_eq_zero_iff _).mpr hoff)]

section Step

variable {env : Env} {list₀ : GameList} {toks : List (List Byte)} {ctx : Ctx} {list : GameList}
  {t : List Byte}

theorem Inv.gameTitle (h : Inv list₀ toks ctx list) (hmalloc : ∀ n, (env.malloc n).isSome)
    (hshort : ShortToken t) (htok : getToken t = .gameTitle)
    (hnext : ¬ ctx.next &&& Tok.gameTitle.flag = 0) (nl : ℕ) :
    ∃ ctx' list', parseLine env t nl ctx list = .ok (ctx', list') ∧
      Inv list₀ (toks ++ [t]) ctx' list' := by
  obtain ⟨game, hmake, hview, hcheats⟩ := makeGameFromLine_eq (hmalloc ctx.allocs) htok hshort
  obtain ⟨new, hlist, hgames⟩ := h.games
  refine ⟨_, _, parseLine_gameTitle htok hnext hmake nl, ?_⟩
  exact .title toks t new game rfl htok (by rw [hlist]) hgames (congrArg GameVal.title hview)
    hcheats rfl (by simp [hlist])

theorem Inv.cheatDesc (h : Inv list₀ toks ctx list) (hmalloc : ∀ n, (env.malloc n).isSome)
    (hshort : ShortToken t) (htok : getToken t = .cheatDesc)
    (hallowed : allowed (lastTok toks) .cheatDesc = true)
    (hnext : ¬ ctx.next &&& Tok.cheatDesc.flag = 0) (nl : ℕ) :
    ∃ ctx' list', parseLine env t nl ctx list = .ok (ctx', list') ∧
      Inv list₀ (toks ++ [t]) ctx' list' := by
  obtain ⟨cheat, hmake, hview, hcodes⟩ := makeCheatFromLine_eq (hmalloc ctx.allocs) htok hshort
  cases h with
  | start htoks hlist hstart => simp [htoks, lastTok, allowed] at hallowed
  | title ts title init game htoks htitle hlist hinit hname hcheats hnext' hgame =>
      refine ⟨_, _, parseLine_cheatDesc htok hnext hmake hgame nl, ?_⟩
      refine .cheat ts title [] t [] init { game with cheats := game.cheats ++ [cheat] } []
        cheat (by simp [htoks]) htitle (by simp) htok (by simp)
        (by rw [hlist, insertCheat_concat]) hinit hname (by simp [hcheats]) rfl
        (by simpa using hview) rfl hgame ?_
      simp only [hlist, cheatPtr_concat, hcheats, List.length_nil]
  | cheat ts title us desc cs init game cinit cheat' htoks htitle hus hdesc hcs hlist hinit
      hname hcheats hcinit hview' hnext' hgame hcheat =>
      have hnone := ne_gameTitle_of_mem hus hdesc hcs
      have hall : (cinit ++ [cheat']).map Cheat.view = cheatsOf (us ++ desc :: cs) := by
        rw [cheatsOf_append_desc hdesc hus, cheatsOf_of_forall hcs, codesOf_of_forall hcs,
          List.map_append, hcinit]
        simp [hview']
      refine ⟨_, _, parseLine_cheatDesc htok hnext hmake hgame nl, ?_⟩
      refine .cheat ts title (us ++ desc :: cs) t [] init
        { game with cheats := game.cheats ++ [cheat] } (cinit ++ [cheat']) cheat
        (by simp [htoks]) htitle hnone htok (by simp) (by rw [hlist, insertCheat_concat])
        hinit hname (by simp [hcheats]) hall (by simpa using hview) rfl hgame ?_
      simp only [hlist, cheatPtr_concat, hcheats]

theorem Inv.cheatCode (h : Inv list₀ toks ctx list) (hmalloc : ∀ n, (env.malloc n).isSome)
    (htok : getToken t = .cheatCode) (hallowed : allowed (lastTok toks) .cheatCode = true)
    (hnext : ¬ ctx.next &&& Tok.cheatCode.flag = 0) (nl : ℕ) :
    ∃ ctx' list', parseLine env t nl ctx list = .ok (ctx', list') ∧
      Inv list₀ (toks ++ [t]) ctx' list' := by
  obtain ⟨code, hmake, hview⟩ :=
    makeCodeFromLine_eq (hmalloc ctx.allocs) env.stack env.uninit htok
  cases h with
  | start htoks hlist hstart => simp [htoks, lastTok, allowed] at hallowed
  | title ts title init game htoks htitle hlist hinit hname hcheats hnext' hgame =>
      simp [htoks, lastTok_concat, htitle, allowed] at hallowed
  | cheat ts title us desc cs init game cinit cheat htoks htitle hus hdesc hcs hlist hinit
      hname hcheats hcinit hview' hnext' hgame hcheat =>
      refine ⟨_, _, parseLine_cheatCode htok hnext hmake hcheat nl, ?_⟩
      refine .cheat ts title us desc (cs ++ [t]) init
        { game with cheats := cinit ++ [{ cheat with codes := cheat.codes ++ [code] }] }
        cinit { cheat with codes := cheat.codes ++ [code] } (by simp [htoks]) htitle hus
        hdesc ?_ (by rw [hlist, insertCode_concat _ _ _ _ hcheats]) hinit hname rfl hcinit
        ?_ rfl hgame hcheat
      · intro c hc
        rcases List.mem_append.mp hc with hc | hc
        · exact hcs c hc
        · rw [List.mem_singleton.mp hc, htok]
      · simp only [Cheat.view, CheatVal.mk.injEq] at hview' ⊢
        exact ⟨hview'.1, by rw [List.map_append, hview'.2]; simp [hview]⟩

/-- An allowed token is added, and the invariant holds for the longer sequence. -/
theorem parseLine_allowed (hmalloc : ∀ n, (env.malloc n).isSome) (h : Inv list₀ toks ctx list)
    (hshort : ShortToken t) (hallowed : allowed (lastTok toks) (getToken t) = true) (nl : ℕ) :
    ∃ ctx' list', parseLine env t nl ctx list = .ok (ctx', list') ∧
      Inv list₀ (toks ++ [t]) ctx' list' := by
  have hnext : ¬ ctx.next &&& (getToken t).flag = 0 := by
    rw [h.next_eq_zero_iff, hallowed]
    simp
  cases htok : getToken t with
  | gameTitle =>
      rw [htok] at hnext
      exact h.gameTitle hmalloc hshort htok hnext nl
  | cheatDesc =>
      rw [htok] at hnext hallowed
      exact h.cheatDesc hmalloc hshort htok hallowed hnext nl
  | cheatCode =>
      rw [htok] at hnext hallowed
      exact h.cheatCode hmalloc htok hallowed hnext nl

end Step

end Ps2rd.Cheats
