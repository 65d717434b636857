import Ps2rd.Cheats.ParseStream
import Ps2rd.Cheats.Stored

/-!
# The line of a parse error

`parse_err` stores the number of the line at which the parser stopped.  Both readers
count what they hand to the parser, `parse_buf` the lines of the text and `parse_stream`
the reads of `fgets`.  A line of `LINE_MAX` bytes takes two reads, so that every error
behind it is reported one line too far down.
-/

namespace Ps2rd.Cheats

open CString

/-- `parse_error_line` after a run that returned with an error. -/
def Outcome.errorLine (outcome : Outcome) : Option ℕ :=
  match outcome.stop with
  | some (.error e) => some e.line
  | _ => none

/-- The line `n` of the text, counted from 1, holds the first token that is not expected at
its place. -/
structure FirstUnexpected (lines : List (List Byte)) (n : ℕ) : Prop where
  accepted : Accepts (tokens (lines.take (n - 1)))
  rejected : ¬ Accepts (tokens (lines.take n))

/-- A text that is not accepted has a first line at which it is not. -/
theorem exists_firstUnexpected {lines : List (List Byte)} (h : ¬ Accepts (tokens lines)) :
    ∃ n, FirstUnexpected lines n := by
  classical
  have hex : ∃ n, ¬ Accepts (tokens (lines.take n)) := ⟨lines.length, by rwa [List.take_length]⟩
  have hpos : 0 < Nat.find hex := by
    rw [Nat.find_pos]
    simp [tokens, Accepts]
  refine ⟨Nat.find hex, ?_, Nat.find_spec hex⟩
  by_contra hacc
  exact absurd (Nat.find_min' hex hacc) (by omega)

/-- The parser gets over the tokens, of which the first is the one for which `malloc` is
called the `k`-th time: there is memory for each, and no title overruns its buffer. -/
def GetsOver (env : Env) (k : ℕ) (ts : List (List Byte)) : Prop :=
  ∀ i t, ts[i]? = some t → (env.malloc (k + i)).isSome ∧ overlong t = false

theorem getsOver_nil (env : Env) (k : ℕ) : GetsOver env k [] := by
  intro i t h
  simp at h

theorem getsOver_cons (env : Env) (k : ℕ) (t : List Byte) (ts : List (List Byte)) :
    GetsOver env k (t :: ts) ↔
      ((env.malloc k).isSome ∧ overlong t = false) ∧ GetsOver env (k + 1) ts := by
  constructor
  · intro h
    refine ⟨h 0 t rfl, fun i u hu => ?_⟩
    have hnext := h (i + 1) u hu
    rwa [← add_assoc, add_right_comm] at hnext
  · rintro ⟨hfirst, hrest⟩ i u hu
    cases i with
    | zero =>
        obtain rfl : t = u := by simpa using hu
        exact hfirst
    | succ i =>
        have hnext := hrest i u hu
        rwa [add_right_comm, add_assoc] at hnext

/-! ### One line -/

section Step

variable {env : Env} {prev : Option Tok} {ctx : Ctx} {list : GameList} {t : List Byte}

/-- An error bears the number of the line. -/
theorem line_of_parseLine {nl : ℕ} {e : ParseError}
    (h : parseLine env t nl ctx list = .error (.error e)) : e.line = nl := by
  unfold parseLine invalidHere at h
  grind

theorem parseLine_unexpected (env : Env) (h : Ready prev ctx list)
    (hoff : allowed prev (getToken t) = false) (nl : ℕ) :
    parseLine env t nl ctx list = .error (invalidHere nl (getToken t)) := by
  rw [parseLine, if_pos ((h.next_eq_zero_iff _).mpr hoff)]

/-- The parser gets over an expected token. -/
theorem parseLine_takes (h : Ready prev ctx list) (hallowed : allowed prev (getToken t) = true)
    (hblock : (env.malloc ctx.allocs).isSome) (hfits : overlong t = false) (nl : ℕ) :
    ∃ next, parseLine env t nl ctx list = .ok next ∧ next.1.allocs = ctx.allocs + 1 ∧
      Ready (some (getToken t)) next.1 next.2 := by
  suffices hok : ∃ next, parseLine env t nl ctx list = .ok next ∧
      next.1.allocs = ctx.allocs + 1 by
    obtain ⟨next, hline, hallocs⟩ := hok
    have htoken : parseToken env t ctx list = .ok next := by
      rw [← parseLine_mapError env t nl, hline]
      rfl
    exact ⟨next, hline, hallocs, parseToken_ready h htoken⟩
  obtain ⟨content, hcontent⟩ := Option.isSome_iff_exists.mp hblock
  have hnext := h.next_ne_zero hallowed
  cases htok : getToken t with
  | gameTitle =>
      rw [htok] at hnext
      have hlen : (unquote t).length ≤ 80 := by simpa [overlong, htok, gameTitleMax] using hfits
      have hmake := makeGameFromLine_of_le content htok hlen
      rw [← hcontent] at hmake
      exact ⟨_, parseLine_gameTitle htok hnext hmake nl, rfl⟩
  | cheatDesc =>
      rw [htok] at hnext hallowed
      obtain ⟨init, game, rfl, hgame⟩ := h.exists_last hallowed (by simp)
      have hmake : makeCheatFromLine (env.malloc ctx.allocs) t =
          some { desc := content.strncpy t 80 (by decide), codes := [], tag := 0 } := by
        rw [hcontent]
        rfl
      exact ⟨_, parseLine_cheatDesc htok hnext hmake hgame nl, rfl⟩
  | cheatCode =>
      rw [htok] at hnext hallowed
      obtain ⟨code, hmake, -⟩ := makeCodeFromLine_eq hblock env.stack env.uninit htok
      obtain ⟨ptr, hcheat⟩ : ∃ ptr, ctx.cheat = some ptr := by
        cases h with
        | start list hnext => exact absurd hallowed (by simp [allowed])
        | title init game hnext hgame hcheats => exact absurd hallowed (by simp [allowed])
        | cheat init game cinit cheat hlast _ hgame hcheats hcheat => exact ⟨_, hcheat⟩
      exact ⟨_, parseLine_cheatCode htok hnext hmake hcheat nl, rfl⟩

/-- It does not get over a token without memory for the object, nor over a title that
overruns its buffer. -/
theorem parseLine_refuses (env : Env) (list : GameList)
    (h : ¬ ((env.malloc ctx.allocs).isSome ∧ overlong t = false)) (nl : ℕ) :
    ∃ stop, parseLine env t nl ctx list = .error stop := by
  by_cases hnext : ctx.next &&& (getToken t).flag = 0
  · exact ⟨_, if_pos hnext⟩
  rw [parseLine, if_neg hnext]
  rcases not_and_or.mp h with hnone | hover
  · rw [Option.not_isSome_iff_eq_none.mp hnone]
    cases getToken t with
    | gameTitle =>
        dsimp only [makeGameFromLine]
        split_ifs
        · exact ⟨_, rfl⟩
        · exact ⟨_, rfl⟩
    | cheatDesc => exact ⟨_, rfl⟩
    | cheatCode =>
        dsimp only [makeCodeFromLine]
        split_ifs
        · exact ⟨_, rfl⟩
        · exact ⟨_, rfl⟩
  · have htitle : getToken t = .gameTitle ∧ 80 < (unquote t).length := by
      simpa [overlong, gameTitleMax] using hover
    rw [htitle.1]
    simp only [makeGameFromLine_of_lt _ htitle.1 htitle.2]
    exact ⟨_, rfl⟩

end Step

/-! ### The run -/

section Run

variable {env : Env} {prev : Option Tok} {ctx : Ctx} {list : GameList} {line t : List Byte}

theorem parseLines_of_no_token (h : tokens [line] = []) (nl : ℕ) (lines : List (List Byte)) :
    parseLines env nl ctx list (line :: lines) = parseLines env (nl + 1) ctx list lines := by
  rw [parseLines]
  cases hempty : isEmptyStr line with
  | true => rfl
  | false =>
      rw [tokens_cons_of_screened hempty] at h
      split_ifs at h with hlen
      rw [if_neg (by simp), if_neg hlen]

theorem parseLines_of_token (h : tokens [line] = [t]) (nl : ℕ) (lines : List (List Byte)) :
    parseLines env nl ctx list (line :: lines) =
      match parseLine env t nl ctx list with
      | .error stop => { list, stop := some stop }
      | .ok next => parseLines env (nl + 1) next.1 next.2 lines := by
  rw [parseLines]
  cases hempty : isEmptyStr line with
  | true =>
      rw [tokens_cons_of_empty hempty] at h
      cases h
  | false =>
      rw [tokens_cons_of_screened hempty] at h
      split_ifs at h with hlen
      · rw [if_neg (by simp), if_pos hlen, (List.cons.inj h).1]
        cases parseLine env t nl ctx list <;> rfl
      · cases h

/-- A line holds one token or none. -/
theorem tokens_singleton (line : List Byte) : tokens [line] = [] ∨ ∃ t, tokens [line] = [t] := by
  cases hempty : isEmptyStr line with
  | true => exact .inl (tokens_cons_of_empty hempty [])
  | false =>
      rw [tokens_cons_of_screened hempty]
      split_ifs
      · exact .inr ⟨screen line, rfl⟩
      · exact .inl rfl

/-- The line of the first unexpected token is reported exactly if the parser gets there: it
stops at an earlier line otherwise. -/
theorem parseLines_errorLine_iff (h : Ready prev ctx list) (ht : tokens [line] = [t])
    {before : List (List Byte)} (hoff : beforeOffending prev (tokens before ++ [t]) = tokens before)
    (after : List (List Byte)) (nl : ℕ) :
    (parseLines env nl ctx list (before ++ line :: after)).errorLine = some (nl + before.length) ↔
      GetsOver env ctx.allocs (tokens before) := by
  induction before generalizing prev ctx list nl with
  | nil =>
      have hunexpected : allowed prev (getToken t) = false := by
        simpa [tokens, beforeOffending] using hoff
      rw [List.nil_append, parseLines_of_token ht, parseLine_unexpected env h hunexpected]
      exact iff_of_true rfl (getsOver_nil env _)
  | cons b before ih =>
      have hline : nl + (b :: before).length = nl + 1 + before.length := by
        rw [List.length_cons]
        omega
      rw [tokens_cons] at hoff ⊢
      rw [List.cons_append, hline]
      rcases tokens_singleton b with hb | ⟨u, hb⟩
      · rw [hb, List.nil_append] at hoff ⊢
        rw [parseLines_of_no_token hb]
        exact ih h hoff (nl + 1)
      · rw [hb, List.singleton_append] at hoff ⊢
        rw [parseLines_of_token hb, getsOver_cons]
        obtain ⟨hallowed, hrest⟩ : allowed prev (getToken u) = true ∧
            beforeOffending (some (getToken u)) (tokens before ++ [t]) = tokens before := by
          rw [List.cons_append, beforeOffending] at hoff
          split_ifs at hoff with hallowed
          exact ⟨hallowed, (List.cons.inj hoff).2⟩
        -- the line is taken, or the parser stops at it and so before the offending one
        by_cases hover : (env.malloc ctx.allocs).isSome ∧ overlong u = false
        · obtain ⟨next, hparse, hallocs, hready⟩ := parseLine_takes h hallowed hover.1 hover.2 nl
          rw [hparse, ← hallocs]
          exact (ih hready hrest (nl + 1)).trans (and_iff_right hover).symm
        · obtain ⟨stop, hparse⟩ := parseLine_refuses env list hover nl
          rw [hparse]
          refine iff_of_false ?_ fun hget => hover hget.1
          intro hstop
          cases stop with
          | fault f => cases hstop
          | error e =>
              have he : e.line = nl := line_of_parseLine hparse
              have hsame : e.line = nl + 1 + before.length := Option.some.inj hstop
              omega

end Run

/-! ### The two readers -/

/-- The reads of `fgets` are the lines, and one more for each line of `LINE_MAX` bytes. -/
theorem length_flatMap_readsOf (lines : List (List Byte)) :
    (lines.flatMap readsOf).length =
      lines.length + (lines.filter fun line => lineMax ≤ line.length).length := by
  induction lines with
  | nil => rfl
  | cons line lines ih =>
      rw [List.flatMap_cons, List.length_append, ih, readsOf, List.filter_cons]
      by_cases hlt : line.length < lineMax
      · have hnot : ¬ lineMax ≤ line.length := by omega
        simp [hlt, hnot]
        omega
      · have hle : lineMax ≤ line.length := by omega
        simp [hlt, hle]
        omega

theorem beforeOffending_append_of_rejected {prev : Option Tok} {ts : List (List Byte)}
    {t : List Byte} (haccepted : beforeOffending prev ts = ts)
    (hrejected : beforeOffending prev (ts ++ [t]) ≠ ts ++ [t]) :
    beforeOffending prev (ts ++ [t]) = ts := by
  induction ts generalizing prev with
  | nil =>
      rw [List.nil_append, beforeOffending] at hrejected ⊢
      split_ifs at hrejected ⊢ with hallowed
      · exact absurd rfl hrejected
      · rfl
  | cons u ts ih =>
      rw [List.cons_append, beforeOffending] at hrejected ⊢
      rw [beforeOffending] at haccepted
      split_ifs at haccepted hrejected ⊢ with hallowed
      rw [ih (List.cons.inj haccepted).2 fun h => hrejected (by rw [h])]

/-- The text around the first unexpected token. -/
theorem FirstUnexpected.split {lines : List (List Byte)} {n : ℕ} (h : FirstUnexpected lines n) :
    ∃ before line after t, lines = before ++ line :: after ∧ before = lines.take (n - 1) ∧
      n = 1 + before.length ∧ tokens [line] = [t] ∧
      beforeOffending none (tokens before ++ [t]) = tokens before := by
  obtain ⟨haccepted, hrejected⟩ := h
  -- the line is in the text: otherwise the two beginnings of the text are the same
  have hn : 1 ≤ n ∧ n - 1 < lines.length := by
    by_contra hout
    have hsame : lines.take n = lines.take (n - 1) := by
      rcases Nat.eq_zero_or_pos n with rfl | hpos
      · rfl
      · rw [List.take_of_length_le (by omega), List.take_of_length_le (by omega)]
    rw [hsame] at hrejected
    exact hrejected haccepted
  obtain ⟨hpos, hlt⟩ := hn
  have htake : lines.take n = lines.take (n - 1) ++ [lines[n - 1]] := by
    have hsucc := List.take_concat_get' lines (n - 1) hlt
    rw [Nat.sub_add_cancel hpos] at hsucc
    exact hsucc.symm
  rw [htake, tokens_append, ← beforeOffending_eq_self_iff] at hrejected
  rw [← beforeOffending_eq_self_iff] at haccepted
  obtain ⟨t, ht⟩ := (tokens_singleton lines[n - 1]).resolve_left fun hnone => by
    rw [hnone, List.append_nil] at hrejected
    exact hrejected haccepted
  rw [ht] at hrejected
  refine ⟨lines.take (n - 1), lines[n - 1], lines.drop n, t, ?_, rfl, ?_, ht,
    beforeOffending_append_of_rejected haccepted hrejected⟩
  · have hdrop : lines.drop (n - 1) = lines[n - 1] :: lines.drop n := by
      rw [List.drop_eq_getElem_cons hlt, Nat.sub_add_cancel hpos]
    rw [← hdrop, List.take_append_drop]
  · rw [List.length_take]
    omega

/-- The first read of a line has its token. -/
theorem readsOf_eq_cons {line t : List Byte} (ht : tokens [line] = [t]) :
    ∃ read reads, readsOf line = read :: reads ∧ tokens [read] = [t] := by
  have hreads := tokens_readsOf line
  rw [readsOf] at hreads ⊢
  split_ifs at hreads ⊢
  · exact ⟨line ++ [LF], [], rfl, hreads.trans ht⟩
  · exact ⟨line, [[LF]], rfl, ht⟩

section Readers

variable (env : Env) {lines : List (List Byte)} (hlines : ∀ line ∈ lines, TextLine line) {n : ℕ}
  (h : FirstUnexpected lines n) (list : GameList)

include hlines h

/-- `parse_buf` counts the lines. -/
theorem parseBuf_errorLine_iff (past old : List Byte) :
    (parseBuf env old list (textBuf lines past)).errorLine = some n ↔
      GetsOver env 0 (tokens (lines.take (n - 1))) := by
  obtain ⟨before, line, after, t, hsplit, hbefore, hn, ht, hoff⟩ := h.split
  rw [parseBuf, textBuf, parseBufFrom_unlines env hlines, ← hbefore, hsplit, hn]
  exact parseLines_errorLine_iff (ready_initParser list) ht hoff after 1

/-- `parse_stream` counts a line of `LINE_MAX` bytes twice. -/
theorem parseStream_errorLine (hget : GetsOver env 0 (tokens (lines.take (n - 1)))) :
    (parseStream env list (unlines lines)).errorLine =
      some (n + ((lines.take (n - 1)).filter fun line => lineMax ≤ line.length).length) := by
  obtain ⟨before, line, after, t, hsplit, hbefore, hn, ht, hoff⟩ := h.split
  rw [← hbefore] at hget ⊢
  obtain ⟨read, reads, hreads, hread⟩ := readsOf_eq_cons ht
  rw [parseStream, parseStreamFrom_unlines env hlines, hsplit, List.flatMap_append,
    List.flatMap_cons, hreads, List.cons_append]
  rw [← tokens_flatMap_readsOf before] at hoff hget
  rw [(parseLines_errorLine_iff (ready_initParser list) hread hoff _ 1).mpr hget,
    length_flatMap_readsOf, hn, add_assoc]

end Readers

/-- When both readers report the line of the first unexpected token: there is memory for the
tokens before it, no title among them overruns the buffer of `__make_game`, and no line
before it has `LINE_MAX` bytes. -/
theorem errorLine_iff (env : Env) {lines : List (List Byte)}
    (hlines : ∀ line ∈ lines, TextLine line) (hfails : ¬ Accepts (tokens lines))
    (past old : List Byte) (list : GameList) :
    (∃ n, FirstUnexpected lines n) ∧ ∀ n, FirstUnexpected lines n →
      ((parseBuf env old list (textBuf lines past)).errorLine = some n ∧
          (parseStream env list (unlines lines)).errorLine = some n ↔
        GetsOver env 0 (tokens (lines.take (n - 1))) ∧
          ∀ line ∈ lines.take (n - 1), line.length < lineMax) := by
  refine ⟨exists_firstUnexpected hfails, fun n hn => ?_⟩
  rw [parseBuf_errorLine_iff env hlines hn]
  refine and_congr_right fun hget => ?_
  rw [parseStream_errorLine env hlines hn list hget, Option.some.injEq, Nat.add_eq_left,
    List.length_eq_zero_iff, List.filter_eq_nil_iff]
  simp only [decide_eq_true_eq, not_le]

/-- A title whose line is filled up with blanks, and a code right after it. -/
def paddedTitle (n : ℕ) : List (List Byte) :=
  [[0x22, 0x41, 0x22] ++ List.replicate n 0x20,
    hexDigits 8 0x2041F0A4 ++ [0x20] ++ hexDigits 8 0x63]

/-- The code is reported in line 2. -/
theorem errorLine_iff_blanks :
    FirstUnexpected (paddedTitle 2) 2 ∧
      (parseBuf zeroEnv [] [] (textBuf (paddedTitle 2) [])).errorLine = some 2 ∧
      (parseStream zeroEnv [] (unlines (paddedTitle 2))).errorLine = some 2 := by
  have hfirst : FirstUnexpected (paddedTitle 2) 2 :=
    ⟨by unfold Accepts; decide, by unfold Accepts; decide⟩
  have hbefore : tokens ((paddedTitle 2).take (2 - 1)) = [[0x22, 0x41, 0x22]] := by decide
  have hget : GetsOver zeroEnv 0 (tokens ((paddedTitle 2).take (2 - 1))) := by
    rw [hbefore, getsOver_cons]
    exact ⟨⟨rfl, by decide⟩, getsOver_nil _ _⟩
  have hiff := (@errorLine_iff zeroEnv (paddedTitle 2) (by decide) hfirst.rejected [] [] []).2
  exact ⟨hfirst, (hiff 2 hfirst).mpr ⟨hget, by decide⟩⟩

/-- After a title line of `LINE_MAX` bytes, `parse_stream` reports the code of line 2 in
line 3. -/
theorem errorLine_ne_of_lineMax :
    (∀ line ∈ paddedTitle 252, TextLine line) ∧ FirstUnexpected (paddedTitle 252) 2 ∧
      (parseBuf zeroEnv [] [] (textBuf (paddedTitle 252) [])).errorLine = some 2 ∧
      (parseStream zeroEnv [] (unlines (paddedTitle 252))).errorLine = some 3 := by
  have hlines : ∀ line ∈ paddedTitle 252, TextLine line := by decide +kernel
  refine ⟨hlines, ⟨by unfold Accepts; decide +kernel, by unfold Accepts; decide +kernel⟩, ?_, ?_⟩
  · rw [parseBuf, textBuf, parseBufFrom_unlines zeroEnv hlines]
    decide +kernel
  · rw [parseStream, parseStreamFrom_unlines zeroEnv hlines]
    decide +kernel

end Ps2rd.Cheats
