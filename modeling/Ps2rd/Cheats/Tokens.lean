import Ps2rd.Cheats.ParseBuf

/-!
# The parser sees only the tokens

What the caller of the parser gets is the list and the return value.  Both
depend on the tokens of the lines alone (`parseLines_result`), so that two
readers that find the same tokens agree, however they cut the text into lines
and count them.  They depend on the memory that `malloc` returns only where a
title or a description fills its array (`parseTokens_views`).
-/

namespace Ps2rd.Cheats

open CString

/-- The return value after a stop. -/
def Stop.ret : Stop → Option ℤ
  | .error _ => some (-1)
  | .fault _ => none

/-- What the caller gets: the list, and the return value if there is one. -/
def Outcome.result (outcome : Outcome) : GameList × Option ℤ := (outcome.list, outcome.ret)

/-- `parse_line` without the line number, which only the error message has. -/
def parseToken (env : Env) (t : List Byte) (ctx : Ctx) (list : GameList) :
    Except (Option ℤ) (Ctx × GameList) :=
  (parseLine env t 0 ctx list).mapError Stop.ret

/-- The parser on a sequence of tokens. -/
def parseTokens (env : Env) (ctx : Ctx) (list : GameList) :
    List (List Byte) → GameList × Option ℤ
  | [] => (list, some 0)
  | t :: ts =>
      match parseToken env t ctx list with
      | .error ret => (list, ret)
      | .ok (ctx, list) => parseTokens env ctx list ts

theorem Outcome.result_stop (list : GameList) (stop : Stop) :
    Outcome.result { list, stop := some stop } = (list, stop.ret) := by
  cases stop <;> rfl

theorem tokens_append (ls ms : List (List Byte)) : tokens (ls ++ ms) = tokens ls ++ tokens ms := by
  simp [tokens]

theorem tokens_cons (l : List Byte) (ls : List (List Byte)) :
    tokens (l :: ls) = tokens [l] ++ tokens ls :=
  tokens_append [l] ls

theorem tokens_flatMap {α : Type*} (l : List α) (f : α → List (List Byte)) :
    tokens (l.flatMap f) = l.flatMap fun a => tokens (f a) := by
  induction l with
  | nil => rfl
  | cons a l ih => rw [List.flatMap_cons, List.flatMap_cons, tokens_append, ih]

/-! ### From lines to tokens -/

/-- The line number has no influence but on the error message. -/
theorem parseLine_mapError (env : Env) (t : List Byte) (nl : ℕ) (ctx : Ctx) (list : GameList) :
    (parseLine env t nl ctx list).mapError Stop.ret = parseToken env t ctx list := by
  unfold parseToken parseLine
  by_cases hnext : ctx.next &&& (getToken t).flag = 0
  · rw [if_pos hnext, if_pos hnext]
    rfl
  · rw [if_neg hnext, if_neg hnext]
    cases getToken t with
    | gameTitle =>
        cases makeGameFromLine (env.malloc ctx.allocs) t with
        | error f => rfl
        | ok made => cases made <;> rfl
    | cheatDesc =>
        cases makeCheatFromLine (env.malloc ctx.allocs) t with
        | none => rfl
        | some cheat => cases ctx.game <;> rfl
    | cheatCode =>
        cases makeCodeFromLine (env.malloc ctx.allocs) env.stack env.uninit t with
        | error f => rfl
        | ok made =>
            cases made with
            | none => rfl
            | some code => cases ctx.cheat <;> rfl

/-- The run over the lines is the run over their tokens. -/
theorem parseLines_result (env : Env) (nl : ℕ) (ctx : Ctx) (list : GameList)
    (lines : List (List Byte)) :
    (parseLines env nl ctx list lines).result = parseTokens env ctx list (tokens lines) := by
  induction lines generalizing nl ctx list with
  | nil => rfl
  | cons line lines ih =>
      rw [parseLines]
      by_cases hempty : isEmptyStr line = true
      · rw [if_pos hempty, tokens_cons_of_empty hempty, ih]
      · rw [if_neg hempty, tokens_cons_of_screened (by simpa using hempty)]
        by_cases hlen : (screen line).length > 0
        · rw [if_pos hlen, if_pos hlen, parseTokens, ← parseLine_mapError env _ nl]
          cases parseLine env (screen line) nl ctx list with
          | error stop => exact Outcome.result_stop list stop
          | ok next => exact ih _ _ _
        · rw [if_neg hlen, if_neg hlen, ih]

/-- On lines that the scanner takes as they are, `parse_buf` is the run over the
tokens of the text. -/
theorem parseBuf_result (env : Env) {lines : List (List Byte)}
    (hlines : ∀ line ∈ lines, TextLine line) (past old : List Byte) (list : GameList) :
    (parseBuf env old list (textBuf lines past)).result =
      parseTokens env initParser list (tokens lines) := by
  rw [parseBuf, textBuf, parseBufFrom_unlines env hlines, parseLines_result]

/-! ### What the memory of new objects held before -/

/-- The games by their values, and the return value. -/
def resultView (result : GameList × Option ℤ) : List GameVal × Option ℤ :=
  (result.1.map Game.view, result.2)

/-- Two environments in which `malloc` succeeds at the same calls. -/
def SameAllocs (env env' : Env) : Prop := ∀ n, (env.malloc n).isSome = (env'.malloc n).isSome

theorem SameAllocs.refl (env : Env) : SameAllocs env env := fun _ => rfl

/-- The same value is returned, or the same context with games of the same values. -/
def SameStep : Except (Option ℤ) (Ctx × GameList) → Except (Option ℤ) (Ctx × GameList) → Prop
  | .error ret, .error ret' => ret = ret'
  | .ok next, .ok next' => next.1 = next'.1 ∧ next.2.map Game.view = next'.2.map Game.view
  | _, _ => False

/-- A change at one place, as it is seen through `v`. -/
theorem map_modify_congr {α β : Type*} {v : α → β} {l l' : List α} (hl : l.map v = l'.map v)
    (i : ℕ) {f f' : α → α} (h : ∀ a a', v a = v a' → v (f a) = v (f' a')) :
    (l.modify i f).map v = (l'.modify i f').map v := by
  induction l generalizing l' i with
  | nil =>
      cases l' with
      | nil => simp
      | cons a' l' => simp at hl
  | cons a l ih =>
      cases l' with
      | nil => simp at hl
      | cons a' l' =>
          simp only [List.map_cons, List.cons.injEq] at hl
          cases i with
          | zero => simp [h a a' hl.1, hl.2]
          | succ i => simp [hl.1, ih hl.2 i]

section Views

variable {list list' : GameList}

theorem insertCheat_view (hlist : list.map Game.view = list'.map Game.view) (i : ℕ)
    {cheat cheat' : Cheat} (hcheat : cheat.view = cheat'.view) :
    (insertCheat list i cheat).map Game.view = (insertCheat list' i cheat').map Game.view := by
  apply map_modify_congr hlist
  intro g g' hg
  simp only [Game.view, GameVal.mk.injEq, List.map_append] at hg ⊢
  exact ⟨hg.1, by rw [hg.2, List.map_singleton, List.map_singleton, hcheat]⟩

theorem insertCode_view (hlist : list.map Game.view = list'.map Game.view) (ptr : CheatPtr)
    {code code' : Code} (hcode : code.view = code'.view) :
    (insertCode list ptr code).map Game.view = (insertCode list' ptr code').map Game.view := by
  apply map_modify_congr hlist
  intro g g' hg
  simp only [Game.view, GameVal.mk.injEq] at hg ⊢
  refine ⟨hg.1, map_modify_congr hg.2 ptr.cheat ?_⟩
  intro c c' hc
  simp only [Cheat.view, CheatVal.mk.injEq, List.map_append] at hc ⊢
  exact ⟨hc.1, by rw [hc.2, List.map_singleton, List.map_singleton, hcode]⟩

theorem cheatPtr_view (hlist : list.map Game.view = list'.map Game.view) (i : ℕ) :
    cheatPtr list i = cheatPtr list' i := by
  have hlen : ∀ l : GameList, ((l[i]?).map fun g => g.cheats.length) =
      ((l.map Game.view)[i]?).map fun v => v.cheats.length := by
    intro l
    rw [List.getElem?_map, Option.map_map]
    congr 1
    funext g
    simp [Game.view]
  rw [cheatPtr, cheatPtr, hlen, hlen, hlist]

end Views

/-- One token, with different memory for the object made from it: a text that is
shorter than its array is stored as it is. -/
theorem parseToken_views {env env' : Env} (hallocs : SameAllocs env env') {t : List Byte}
    (hshort : ShortToken t) (ctx : Ctx) {list list' : GameList}
    (hlist : list.map Game.view = list'.map Game.view) :
    SameStep (parseToken env t ctx list) (parseToken env' t ctx list') := by
  have hlen : list.length = list'.length := by simpa using congrArg List.length hlist
  unfold parseToken parseLine
  by_cases hnext : ctx.next &&& (getToken t).flag = 0
  · rw [if_pos hnext, if_pos hnext]
    exact rfl
  · rw [if_neg hnext, if_neg hnext]
    -- both runs get memory for the object, or neither does
    cases hblock : (env.malloc ctx.allocs).isSome with
    | false =>
        have hnone : env.malloc ctx.allocs = none := by simpa using hblock
        have hnone' : env'.malloc ctx.allocs = none := by
          simpa using (hallocs ctx.allocs).symm.trans hblock
        rw [hnone, hnone']
        cases getToken t with
        | gameTitle =>
            by_cases hfit : t.length - 2 > gameTitleMax
            · simp [makeGameFromLine, hfit, Except.mapError, SameStep]
            · simp [makeGameFromLine, hfit, makeGame, Except.mapError, SameStep, Stop.ret]
        | cheatDesc => exact rfl
        | cheatCode =>
            by_cases hfit : (t.filter isxdigit).length > codeDigits
            · simp [makeCodeFromLine, hfit, Except.mapError, SameStep]
            · simp [makeCodeFromLine, hfit, makeCode, Except.mapError, SameStep, Stop.ret]
    | true =>
        have hblock' := (hallocs ctx.allocs).symm.trans hblock
        cases htok : getToken t with
        | gameTitle =>
            obtain ⟨game, hmake, hview, -⟩ := makeGameFromLine_eq hblock htok hshort
            obtain ⟨game', hmake', hview', -⟩ := makeGameFromLine_eq hblock' htok hshort
            simp only [hmake, hmake', Except.mapError, SameStep, hlen, true_and,
              List.map_append, hlist, List.map_singleton, hview, hview']
        | cheatDesc =>
            obtain ⟨cheat, hmake, hview, -⟩ := makeCheatFromLine_eq hblock htok hshort
            obtain ⟨cheat', hmake', hview', -⟩ := makeCheatFromLine_eq hblock' htok hshort
            simp only [hmake, hmake']
            cases ctx.game with
            | none => exact rfl
            | some g =>
                have hcheat := hview.trans hview'.symm
                exact ⟨by rw [cheatPtr_view hlist], insertCheat_view hlist g hcheat⟩
        | cheatCode =>
            obtain ⟨code, hmake, hview⟩ :=
              makeCodeFromLine_eq hblock env.stack env.uninit htok
            obtain ⟨code', hmake', hview'⟩ :=
              makeCodeFromLine_eq hblock' env'.stack env'.uninit htok
            simp only [hmake, hmake']
            cases ctx.cheat with
            | none => exact rfl
            | some ptr => exact ⟨rfl, insertCode_view hlist ptr (hview.trans hview'.symm)⟩

/-- The run, by induction on the tokens. -/
theorem parseTokens_views {env env' : Env} (hallocs : SameAllocs env env')
    {ts : List (List Byte)} (hshort : ∀ t ∈ ts, ShortToken t) (ctx : Ctx)
    {list list' : GameList} (hlist : list.map Game.view = list'.map Game.view) :
    resultView (parseTokens env ctx list ts) = resultView (parseTokens env' ctx list' ts) := by
  induction ts generalizing ctx list list' with
  | nil => simp [parseTokens, resultView, hlist]
  | cons t ts ih =>
      have hstep := parseToken_views hallocs (hshort t (by simp)) ctx hlist
      rw [parseTokens, parseTokens]
      cases hok : parseToken env t ctx list with
      | error ret =>
          cases hok' : parseToken env' t ctx list' with
          | error ret' =>
              rw [hok, hok'] at hstep
              rw [show ret = ret' from hstep]
              simp [resultView, hlist]
          | ok next' => exact absurd hstep (by simp [hok, hok', SameStep])
      | ok next =>
          cases hok' : parseToken env' t ctx list' with
          | error ret' => exact absurd hstep (by simp [hok, hok', SameStep])
          | ok next' =>
              rw [hok, hok'] at hstep
              obtain ⟨hctx, hviews⟩ := hstep
              simp only [hctx]
              exact ih (fun u hu => hshort u (by simp [hu])) next'.1 hviews

end Ps2rd.Cheats
