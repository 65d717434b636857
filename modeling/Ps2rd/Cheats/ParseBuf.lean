import Ps2rd.Cheats.ParseLine

/-!
# The parser accepts exactly its grammar

The scanner of `parse_buf` cuts a text of LF-terminated lines at its line feeds
(`parseBufFrom_unlines`), so that its loop is a loop over lines.  Run with the
invariant of `ParseLine`, that loop adds the games of all tokens before the
first offending one, and fails exactly if there is one.
-/

namespace Ps2rd.Cheats

open CString

/-- A text in which each line ends in LF. -/
def unlines (lines : List (List Byte)) : List Byte := lines.flatMap (· ++ [LF])

/-- A line that the scanner takes as a whole. -/
structure TextLine (line : List Byte) : Prop where
  nul : NUL ∉ line
  lf : LF ∉ line
  length : line.length ≤ lineMax

instance (line : List Byte) : Decidable (TextLine line) :=
  decidable_of_iff (NUL ∉ line ∧ LF ∉ line ∧ line.length ≤ lineMax)
    ⟨fun h => ⟨h.1, h.2.1, h.2.2⟩, fun h => ⟨h.nul, h.lf, h.length⟩⟩

/-- The tokens of a text: the lines with a printable byte, screened, as far as
anything is left of them. -/
def tokens (lines : List (List Byte)) : List (List Byte) :=
  ((lines.filter fun line => !isEmptyStr line).map screen).filter (· ≠ [])

/-! ### From the buffer to lines -/

/-- The loop of `parse_buf` on lines that are already separated. -/
def parseLines (env : Env) (nl : ℕ) (ctx : Ctx) (list : GameList) :
    List (List Byte) → Outcome
  | [] => { list, stop := none }
  | line :: lines =>
      if isEmptyStr line then parseLines env (nl + 1) ctx list lines
      else if (screen line).length > 0 then
        match parseLine env (screen line) nl ctx list with
        | .error stop => { list, stop := some stop }
        | .ok (ctx, list) => parseLines env (nl + 1) ctx list lines
      else parseLines env (nl + 1) ctx list lines

theorem scanLen_append {line : List Byte} (hline : TextLine line) (rest old : List Byte) :
    scanLen (line ++ LF :: rest) old = line.length := by
  have hle := hline.length
  simp only [scanLen, chrIdx_append hline.nul hline.lf, gt_iff_lt]
  rw [if_neg (by omega)]

/-- The first byte of a line with its line feed is no terminator. -/
theorem headD_append_ne_nul {line : List Byte} (hline : TextLine line) (rest : List Byte) :
    (line ++ LF :: rest).headD NUL ≠ NUL := by
  cases line with
  | nil => simp [LF, NUL]
  | cons c line =>
      intro h
      have hc : c = NUL := by simpa using h
      exact hline.nul (by simp [hc])

/-- A round that takes the piece `piece` and leaves `rest`, if the loop goes on
there as over the lines `lines`. -/
theorem parseBufFrom_of_piece (env : Env) {buf old piece rest : List Byte}
    (hhead : buf.headD NUL ≠ NUL) (hlen : scanLen buf old = piece.length)
    (hpiece : buf.take piece.length = piece) (hrest : buf.drop (piece.length + 1) = rest)
    (hnul : NUL ∉ piece) {lines : List (List Byte)} (nl : ℕ) (ctx : Ctx) (list : GameList)
    (hnext : ∀ old ctx list, parseBufFrom env (nl + 1) old ctx list rest =
      parseLines env (nl + 1) ctx list lines) :
    parseBufFrom env nl old ctx list buf = parseLines env nl ctx list (piece :: lines) := by
  rw [parseBufFrom, dif_neg hhead, parseLines]
  cases hparse : parseLine env (screen piece) nl ctx list with
  | error stop =>
      simp only [hlen, hrest, isEmptySubstr, hpiece, cstr_eq_self hnul, hnext, hparse]
  | ok next =>
      simp only [hlen, hrest, isEmptySubstr, hpiece, cstr_eq_self hnul, hnext, hparse]

/-- On LF-terminated lines the scanner finds these lines, whatever its array
held before and whatever follows the text in memory. -/
theorem parseBufFrom_unlines (env : Env) {lines : List (List Byte)}
    (hlines : ∀ line ∈ lines, TextLine line) (past old : List Byte) (nl : ℕ) (ctx : Ctx)
    (list : GameList) :
    parseBufFrom env nl old ctx list (unlines lines ++ NUL :: past) =
      parseLines env nl ctx list lines := by
  induction lines generalizing nl old ctx list with
  | nil => simp [unlines, parseBufFrom, parseLines]
  | cons line lines ih =>
      have hline := hlines line (by simp)
      have hrest := ih fun l hl => hlines l (by simp [hl])
      have hbuf : unlines (line :: lines) ++ NUL :: past =
          line ++ LF :: (unlines lines ++ NUL :: past) := by simp [unlines]
      rw [hbuf]
      refine parseBufFrom_of_piece env (headD_append_ne_nul hline _) (scanLen_append hline _ _)
        List.take_left ?_ hline.nul nl ctx list fun old ctx list => hrest old (nl + 1) ctx list
      rw [← List.drop_drop, List.drop_left]
      rfl

/-! ### The run over the lines -/

theorem tokens_cons_of_empty {line : List Byte} (h : isEmptyStr line = true)
    (lines : List (List Byte)) : tokens (line :: lines) = tokens lines := by
  simp [tokens, h]

theorem tokens_cons_of_screened {line : List Byte} (h : isEmptyStr line = false)
    (lines : List (List Byte)) :
    tokens (line :: lines) =
      if (screen line).length > 0 then screen line :: tokens lines else tokens lines := by
  simp only [tokens, List.filter_cons, h, Bool.not_false, ↓reduceIte, List.map_cons,
    ne_eq, decide_not, Bool.not_eq_eq_eq_not, Bool.not_true, decide_eq_false_iff_not,
    gt_iff_lt, List.length_pos_iff]

/-- What a run leaves: the games of the tokens that were read before and of
those before the first offending one, and an error exactly if one is left. -/
structure Parsed (list₀ : GameList) (toks rest : List (List Byte)) (outcome : Outcome) : Prop where
  games : ∃ new, outcome.list = list₀ ++ new ∧
    new.map Game.view = gamesOf (toks ++ beforeOffending (lastTok toks) rest)
  noFault : ∀ f, outcome.stop ≠ some (.fault f)
  stop_iff : outcome.stop = none ↔ beforeOffending (lastTok toks) rest = rest

/-- A run on the longer sequence is a run that first takes an allowed token. -/
theorem Parsed.of_allowed {list₀ : GameList} {toks rest : List (List Byte)} {t : List Byte}
    {outcome : Outcome} (hallowed : allowed (lastTok toks) (getToken t) = true)
    (h : Parsed list₀ (toks ++ [t]) rest outcome) : Parsed list₀ toks (t :: rest) outcome := by
  have hbefore : beforeOffending (lastTok toks) (t :: rest) =
      t :: beforeOffending (lastTok (toks ++ [t])) rest := by
    rw [beforeOffending, if_pos hallowed, lastTok_concat]
  refine ⟨?_, h.noFault, ?_⟩
  · rw [hbefore]
    simpa using h.games
  · rw [hbefore, h.stop_iff]
    simp

/-- A run that ends at an offending token. -/
theorem Parsed.of_offending {list₀ : GameList} {toks rest : List (List Byte)} {t : List Byte}
    {ctx : Ctx} {list : GameList} (h : Inv list₀ toks ctx list)
    (hoff : allowed (lastTok toks) (getToken t) = false) (nl : ℕ) :
    Parsed list₀ toks (t :: rest) { list, stop := some (invalidHere nl (getToken t)) } := by
  have hbefore : beforeOffending (lastTok toks) (t :: rest) = [] := by
    rw [beforeOffending, hoff]
    rfl
  refine ⟨?_, by simp [invalidHere], ?_⟩
  · rw [hbefore]
    simpa using h.games
  · rw [hbefore]
    simp

/-- The run lemma, by induction on the lines: the tokens read so far grow by one
with each line that carries an allowed token. -/
theorem parseLines_parsed {env : Env} (hmalloc : ∀ n, (env.malloc n).isSome)
    {lines : List (List Byte)} (hshort : ∀ t ∈ tokens lines, ShortToken t) {list₀ : GameList}
    {toks : List (List Byte)} {ctx : Ctx} {list : GameList} (h : Inv list₀ toks ctx list) (nl : ℕ) :
    Parsed list₀ toks (tokens lines) (parseLines env nl ctx list lines) := by
  induction lines generalizing toks ctx list nl with
  | nil =>
      obtain ⟨new, hlist, hgames⟩ := h.games
      exact ⟨⟨new, hlist, by simpa [tokens, beforeOffending] using hgames⟩, by simp [parseLines],
        by simp [parseLines, tokens, beforeOffending]⟩
  | cons line lines ih =>
      by_cases hempty : isEmptyStr line = true
      · rw [tokens_cons_of_empty hempty] at hshort ⊢
        rw [parseLines, if_pos hempty]
        exact ih hshort h _
      · have hgraph : isEmptyStr line = false := by simpa using hempty
        rw [tokens_cons_of_screened hgraph] at hshort ⊢
        rw [parseLines, if_neg hempty]
        by_cases hlen : (screen line).length > 0
        · rw [if_pos hlen] at hshort ⊢
          rw [if_pos hlen]
          cases hallowed : allowed (lastTok toks) (getToken (screen line)) with
          | true =>
              obtain ⟨ctx', list', hparse, hinv⟩ :=
                parseLine_allowed hmalloc h (hshort _ (by simp)) hallowed nl
              rw [hparse]
              exact .of_allowed hallowed (ih (fun t ht => hshort t (by simp [ht])) hinv _)
          | false =>
              rw [parseLine_offending env h hallowed]
              exact .of_offending h hallowed nl
        · rw [if_neg hlen] at hshort ⊢
          rw [if_neg hlen]
          exact ih hshort h _

/-- What stands in memory from the text's first byte on: the text, its
terminator, and whatever follows. -/
def textBuf (lines : List (List Byte)) (past : List Byte) : List Byte :=
  unlines lines ++ NUL :: past

/-- Tokens are parts of lines. -/
theorem nul_notMem_of_mem_tokens {lines : List (List Byte)}
    (hlines : ∀ line ∈ lines, TextLine line) {t : List Byte} (ht : t ∈ tokens lines) :
    NUL ∉ t := by
  simp only [tokens, List.mem_filter, List.mem_map] at ht
  obtain ⟨⟨line, ⟨hline, -⟩, rfl⟩, -⟩ := ht
  intro hmem
  have hcut : NUL ∈ termStr isCmtStr line := (trimStr_infix_self _).subset hmem
  exact (hlines line hline).nul ((termStr_prefix_self isCmtStr line).subset hcut)

theorem parseBuf_parsed {env : Env} (hmalloc : ∀ n, (env.malloc n).isSome)
    {lines : List (List Byte)} (hlines : ∀ line ∈ lines, TextLine line)
    (hbounded : ∀ t ∈ tokens lines, BoundedToken t) (past old : List Byte) (list : GameList) :
    Parsed list [] (tokens lines) (parseBuf env old list (textBuf lines past)) := by
  rw [parseBuf, textBuf, parseBufFrom_unlines env hlines]
  exact parseLines_parsed hmalloc
    (fun t ht => ⟨hbounded t ht, nul_notMem_of_mem_tokens hlines ht⟩) (.start rfl rfl rfl) 1

theorem Outcome.ret_eq_zero_iff (outcome : Outcome) :
    outcome.ret = some 0 ↔ outcome.stop = none := by
  unfold Outcome.ret
  split <;> simp_all

/-- `parse_buf` accepts exactly its grammar.  It returns, with no `NULL` pointer
dereferenced on the way; it returns 0 exactly on the accepted token sequences,
and then has appended their games; otherwise it has appended the games of the
tokens before the first offending one. -/
theorem parseBuf_accepts {env : Env} (hmalloc : ∀ n, (env.malloc n).isSome)
    {lines : List (List Byte)} (hlines : ∀ line ∈ lines, TextLine line)
    (hbounded : ∀ t ∈ tokens lines, BoundedToken t) (past old : List Byte) (list : GameList) :
    let outcome := parseBuf env old list (textBuf lines past)
    (outcome.ret = some 0 ∨ outcome.ret = some (-1)) ∧
      (outcome.ret = some 0 ↔ Accepts (tokens lines)) ∧
      (outcome.ret = some 0 →
        ∃ new, outcome.list = list ++ new ∧ new.map Game.view = gamesOf (tokens lines)) ∧
      (outcome.ret = some (-1) →
        ∃ new, outcome.list = list ++ new ∧
          new.map Game.view = gamesOf (beforeOffending none (tokens lines))) := by
  intro outcome
  have hparsed : Parsed list [] (tokens lines) outcome :=
    parseBuf_parsed hmalloc hlines hbounded past old list
  have hgames := hparsed.games
  rw [List.nil_append] at hgames
  refine ⟨?_, ?_, ?_, fun _ => hgames⟩
  · unfold Outcome.ret
    cases hstop : outcome.stop with
    | none => simp
    | some stop =>
        cases stop with
        | error e => simp
        | fault f => exact absurd hstop (hparsed.noFault f)
  · rw [Outcome.ret_eq_zero_iff, hparsed.stop_iff]
    exact beforeOffending_eq_self_iff _
  · intro hret
    have hall := hparsed.stop_iff.mp ((Outcome.ret_eq_zero_iff _).mp hret)
    obtain ⟨new, hnew, hview⟩ := hgames
    exact ⟨new, hnew, by rw [hview, hall]⟩

/-- An environment in which `malloc` returns zeroed blocks. -/
def zeroEnv : Env :=
  { malloc := fun _ => some (List.Vector.replicate 81 NUL), stack := [], uninit := (0, 0) }

/-- A title, a comment, a description and a code with two blanks in it. -/
def sampleLines : List (List Byte) :=
  [[0x22, 0x41, 0x22], [0x23, 0x42], [0x43],
    hexDigits 8 0x2041F0A4 ++ [0x20, 0x20] ++ hexDigits 8 0x63]

theorem parseBuf_accepts_sampleLines :
    (parseBuf zeroEnv [] [] (textBuf sampleLines [])).ret = some 0 :=
  (@parseBuf_accepts zeroEnv (fun _ => rfl) sampleLines (by decide) (by decide) [] [] []).2.1.mpr
    (by unfold Accepts; decide)

end Ps2rd.Cheats
