import Ps2rd.Cheats.Tokens

/-!
# The stream reader

`parse_stream` reads its lines with `fgets`, which keeps the line feed and takes
a line of `LINE_MAX` bytes in two reads: the bytes of the line, then the line
feed alone.  Neither makes a difference to the tokens.  A line feed at the end
is trimmed with the other white space, or cut off with the comment before it,
and a read of nothing but the line feed is skipped.  So the reader agrees with
`parse_buf`, up to the line numbers of its error messages.
-/

namespace Ps2rd.Cheats

open CString

/-- How many bytes `fgets(line, sizeof(line), stream)` reads from a stream that
still holds `stream`: up to the line feed, and at most `LINE_MAX`. -/
def fgetsLen (stream : List Byte) : ℕ :=
  min lineMax ((stream.takeWhile (· ≠ LF)).length + 1)

/-- The loop of `parse_stream`.  At the end of the stream `fgets` returns `NULL`. -/
def parseStreamFrom (env : Env) (nl : ℕ) (ctx : Ctx) (list : GameList) (stream : List Byte) :
    Outcome :=
  if hend : stream = [] then { list, stop := none }
  else
    let line := cstr (stream.take (fgetsLen stream))
    let rest := stream.drop (fgetsLen stream)
    if isEmptyStr line then parseStreamFrom env (nl + 1) ctx list rest
    else
      let line := screen line
      if line.length > 0 then
        match parseLine env line nl ctx list with
        | .error stop => { list, stop := some stop }
        | .ok (ctx, list) => parseStreamFrom env (nl + 1) ctx list rest
      else parseStreamFrom env (nl + 1) ctx list rest
termination_by stream.length
decreasing_by
  all_goals
    have := List.length_pos_iff.mpr hend
    simp only [List.length_drop, fgetsLen, lineMax]
    omega

/-- `parse_stream`. -/
def parseStream (env : Env) (list : GameList) (stream : List Byte) : Outcome :=
  parseStreamFrom env 1 initParser list stream

/-! ### The reads of a line -/

/-- What `fgets` makes of a line and its line feed. -/
def readsOf (line : List Byte) : List (List Byte) :=
  if line.length < lineMax then [line ++ [LF]] else [line, [LF]]

/-- A read that takes `read` from the stream and leaves `rest`. -/
theorem parseStreamFrom_append (env : Env) {read : List Byte} (hne : read ≠ [])
    (hnul : NUL ∉ read) {rest : List Byte} (hlen : fgetsLen (read ++ rest) = read.length)
    {lines : List (List Byte)} (nl : ℕ) (ctx : Ctx) (list : GameList)
    (hrest : ∀ ctx list, parseStreamFrom env (nl + 1) ctx list rest =
      parseLines env (nl + 1) ctx list lines) :
    parseStreamFrom env nl ctx list (read ++ rest) =
      parseLines env nl ctx list (read :: lines) := by
  rw [parseStreamFrom, dif_neg (by simp [hne]), parseLines]
  cases hparse : parseLine env (screen read) nl ctx list with
  | error stop =>
      simp only [hlen, List.take_left, List.drop_left, cstr_eq_self hnul, hrest, hparse]
  | ok next =>
      simp only [hlen, List.take_left, List.drop_left, cstr_eq_self hnul, hrest, hparse]

theorem takeWhile_ne_lf {line : List Byte} (hlf : LF ∉ line) (rest : List Byte) :
    (line ++ LF :: rest).takeWhile (· ≠ LF) = line := by
  rw [List.takeWhile_append_of_pos]
  · simp
  · intro c hc
    simp only [ne_eq, decide_eq_true_eq]
    rintro rfl
    exact hlf hc

/-- The stream reader goes through the reads of its lines. -/
theorem parseStreamFrom_unlines (env : Env) {lines : List (List Byte)}
    (hlines : ∀ line ∈ lines, TextLine line) (nl : ℕ) (ctx : Ctx) (list : GameList) :
    parseStreamFrom env nl ctx list (unlines lines) =
      parseLines env nl ctx list (lines.flatMap readsOf) := by
  induction lines generalizing nl ctx list with
  | nil => simp [unlines, parseStreamFrom, parseLines]
  | cons line lines ih =>
      have hline := hlines line (by simp)
      have hrest := ih fun l hl => hlines l (by simp [hl])
      have hfgets : fgetsLen (line ++ LF :: unlines lines) = min lineMax (line.length + 1) := by
        rw [fgetsLen, takeWhile_ne_lf hline.lf]
      have htext : unlines (line :: lines) = line ++ LF :: unlines lines := by simp [unlines]
      rw [htext, List.flatMap_cons, readsOf]
      split
      · rename_i hlt
        rw [show line ++ LF :: unlines lines = (line ++ [LF]) ++ unlines lines by simp] at hfgets ⊢
        refine parseStreamFrom_append env (by simp) ?_ ?_ nl ctx list (hrest _)
        · simpa [NUL, LF] using hline.nul
        · rw [hfgets, List.length_append]
          exact min_eq_right (by simpa using hlt)
      · rename_i hlt
        have hmax : line.length = lineMax := by
          have := hline.length
          omega
        refine parseStreamFrom_append env ?_ hline.nul ?_ nl ctx list ?_
        · rintro rfl
          simp [lineMax] at hmax
        · rw [hfgets, hmax]
          exact min_eq_left (by omega)
        · intro ctx list
          have hlf : fgetsLen ([LF] ++ unlines lines) = [LF].length := by
            simp [fgetsLen, lineMax]
          exact parseStreamFrom_append env (by simp) (by decide) hlf _ ctx list (hrest _)

/-! ### The tokens of the reads -/

/-- A line feed behind a string does not start a comment, nor complete one. -/
theorem isCmtStr_append_lf {s : List Byte} (hs : s ≠ []) :
    isCmtStr (s ++ [LF]) = isCmtStr s := by
  match s, hs with
  | [c], _ => simp [isCmtStr, LF]
  | c :: d :: s, _ => simp [isCmtStr]

theorem termStr_append_lf (s : List Byte) :
    termStr isCmtStr (s ++ [LF]) = termStr isCmtStr s ∨
      termStr isCmtStr (s ++ [LF]) = s ++ [LF] ∧ termStr isCmtStr s = s := by
  induction s with
  | nil => exact .inr ⟨by decide, rfl⟩
  | cons c s ih =>
      rw [List.cons_append, termStr, termStr, ← List.cons_append, isCmtStr_append_lf (by simp)]
      by_cases h : isCmtStr (c :: s) = true
      · rw [if_pos h, if_pos h]
        exact .inl rfl
      · rw [if_neg h, if_neg h]
        rcases ih with heq | ⟨heq, hself⟩
        · exact .inl (by rw [heq])
        · exact .inr ⟨by rw [heq]; rfl, by rw [hself]⟩

theorem screen_append_lf {line : List Byte} (h : isEmptyStr line = false) :
    screen (line ++ [LF]) = screen line := by
  rw [screen, screen]
  rcases termStr_append_lf line with heq | ⟨heq, hself⟩
  · rw [heq]
  · rw [heq, hself]
    exact trimStr_append_of_isspace h (by decide)

theorem tokens_readsOf (line : List Byte) : tokens (readsOf line) = tokens [line] := by
  have hlf : tokens [[LF]] = [] := by decide
  unfold readsOf
  split
  · cases h : isEmptyStr line with
    | true =>
        have hempty : isEmptyStr (line ++ [LF]) = true := by
          rw [isEmptyStr_append, h]
          rfl
        rw [tokens_cons_of_empty h, tokens_cons_of_empty hempty]
    | false =>
        have hgraph : isEmptyStr (line ++ [LF]) = false := by rw [isEmptyStr_append, h]; rfl
        rw [tokens_cons_of_screened h, tokens_cons_of_screened hgraph, screen_append_lf h]
  · rw [show [line, [LF]] = [line] ++ [[LF]] from rfl, tokens_append, hlf, List.append_nil]

theorem tokens_flatMap_readsOf (lines : List (List Byte)) :
    tokens (lines.flatMap readsOf) = tokens lines := by
  rw [tokens_flatMap]
  induction lines with
  | nil => rfl
  | cons line lines ih =>
      rw [List.flatMap_cons, ih, tokens_readsOf, ← tokens_append]
      rfl

/-- On lines of at most `LINE_MAX` bytes the stream reader is the run over the
tokens of the text. -/
theorem parseStream_result (env : Env) {lines : List (List Byte)}
    (hlines : ∀ line ∈ lines, TextLine line) (list : GameList) :
    (parseStream env list (unlines lines)).result =
      parseTokens env initParser list (tokens lines) := by
  rw [parseStream, parseStreamFrom_unlines env hlines, parseLines_result, tokens_flatMap_readsOf]

/-- The two readers agree.  On a text of LF-terminated lines of at most
`LINE_MAX` bytes, with titles and descriptions shorter than their arrays, they
return the same value and build the same games, whatever the memory held that
`malloc` returned to either of them. -/
theorem parseBuf_eq_parseStream {env env' : Env} (hallocs : SameAllocs env env')
    {lines : List (List Byte)} (hlines : ∀ line ∈ lines, TextLine line)
    (hbounded : ∀ t ∈ tokens lines, BoundedToken t) (past old : List Byte) (list : GameList) :
    let buffered := parseBuf env old list (textBuf lines past)
    let streamed := parseStream env' list (unlines lines)
    buffered.ret = streamed.ret ∧
      buffered.list.map Game.view = streamed.list.map Game.view := by
  intro buffered streamed
  have hshort : ∀ t ∈ tokens lines, ShortToken t := fun t ht =>
    ⟨hbounded t ht, nul_notMem_of_mem_tokens hlines ht⟩
  have hviews : resultView buffered.result = resultView streamed.result := by
    rw [parseBuf_result env hlines, parseStream_result env' hlines]
    exact parseTokens_views hallocs hshort initParser rfl
  exact ⟨congrArg Prod.snd hviews, congrArg Prod.fst hviews⟩

/-- A title, a description that fills its line up to `LINE_MAX` bytes with
blanks, and a code. -/
def longLines : List (List Byte) :=
  [[0x22, 0x41, 0x22], 0x43 :: List.replicate 254 0x20,
    hexDigits 8 0x2041F0A4 ++ [0x20] ++ hexDigits 8 0x63]

/-- An environment in which `malloc` returns blocks filled with letters. -/
def dirtyEnv : Env :=
  { malloc := fun _ => some (List.Vector.replicate 81 0x58), stack := [0x30], uninit := (1, 2) }

theorem parseBuf_eq_parseStream_longLines :
    (parseBuf zeroEnv [] [] (textBuf longLines [])).ret =
        (parseStream dirtyEnv [] (unlines longLines)).ret ∧
      (parseBuf zeroEnv [] [] (textBuf longLines [])).list.map Game.view =
        (parseStream dirtyEnv [] (unlines longLines)).list.map Game.view :=
  @parseBuf_eq_parseStream zeroEnv dirtyEnv (fun _ => rfl) longLines (by decide +kernel)
    (by decide +kernel) [] [] []

end Ps2rd.Cheats
