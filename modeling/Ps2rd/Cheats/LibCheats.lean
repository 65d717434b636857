import Ps2rd.Cheats.ParseBuf

/-!
# Reading and writing cheats objects

`cheats_read_buf` and `cheats_write`, and that the first undoes the second.  The
text that `cheats_write` produces is a sequence of lines (`writtenLines`): the
quoted title, the descriptions and codes of the game's cheats, and a separator
of two empty lines around a comment.  Its tokens are exactly the titles,
descriptions and codes, and the games they denote are the ones written.
-/

namespace Ps2rd.Cheats

open CString

/-- `cheats_t`, a cheats object. -/
structure Object where
  games : GameList
  errorText : String
  errorLine : ℕ

def cheatsTrue : ℤ := 0

def cheatsFalse : ℤ := -1

/-- `cheats_init`. -/
def cheatsInit : Object := { games := [], errorText := "", errorLine := 0 }

/-- `cheats_read_buf`.  The object's earlier games are freed and it is
initialized again; there is no result if the parser faults. -/
def cheatsReadBuf (env : Env) (line : List Byte) (_cheats : Object) (buf : List Byte) :
    Option (ℤ × Object) :=
  let outcome := parseBuf env line cheatsInit.games buf
  match outcome.stop with
  | none => some (cheatsTrue, { cheatsInit with games := outcome.list })
  | some (.error e) =>
      some (cheatsFalse, { games := outcome.list, errorText := e.text, errorLine := e.line })
  | some (.fault _) => none

/-- `fprintf(stream, "%08X %08X\n", code->addr, code->val)`. -/
def writeCode (code : Code) : List Byte :=
  printX08 code.addr ++ [0x20] ++ printX08 code.val ++ [LF]

/-- The description of a cheat and its codes. -/
def writeCheat (cheat : Cheat) : List Byte :=
  cheat.desc.str ++ [LF] ++ cheat.codes.flatMap writeCode

/-- An empty line, a comment line of two slashes and eight dashes, and another
empty line. -/
def separator : List Byte :=
  [LF, 0x2F, 0x2F, 0x2D, 0x2D, 0x2D, 0x2D, 0x2D, 0x2D, 0x2D, 0x2D, LF, LF]

/-- The quoted title of a game, its cheats, and the separator. -/
def writeGame (game : Game) : List Byte :=
  [0x22] ++ game.title.str ++ [0x22, LF] ++ game.cheats.flatMap writeCheat ++ separator

/-- `cheats_write`: the bytes written to the stream. -/
def cheatsWrite (cheats : Object) : List Byte := cheats.games.flatMap writeGame

/-! ### The objects that survive -/

/-- A string of 1 to 79 bytes that does not end a line or start a comment. -/
structure PlainText (s : List Byte) : Prop where
  pos : 1 ≤ s.length
  le : s.length ≤ 79
  nul : NUL ∉ s
  lf : LF ∉ s
  hash : 0x23 ∉ s
  slashes : ¬ [0x2F, 0x2F] <:+: s

/-- A description that is read back as one. -/
structure PlainDesc (s : List Byte) : Prop extends PlainText s where
  head : ∀ c ∈ s.head?, isspace c = false
  last : ∀ c ∈ s.getLast?, isspace c = false
  graph : ∃ c ∈ s, isgraph c = true
  notTitle : isGameTitle s = false
  notCode : isCheatCode s = false

/-- All titles and descriptions of the object are plain. -/
def Plain (games : GameList) : Prop :=
  ∀ game ∈ games, PlainText game.title.str ∧ ∀ cheat ∈ game.cheats, PlainDesc cheat.desc.str

theorem plainText_iff {s : List Byte} : PlainText s ↔
    1 ≤ s.length ∧ s.length ≤ 79 ∧ NUL ∉ s ∧ LF ∉ s ∧ 0x23 ∉ s ∧ ¬ [0x2F, 0x2F] <:+: s :=
  ⟨fun h => ⟨h.pos, h.le, h.nul, h.lf, h.hash, h.slashes⟩,
    fun ⟨hpos, hle, hnul, hlf, hhash, hslashes⟩ => ⟨hpos, hle, hnul, hlf, hhash, hslashes⟩⟩

theorem plainDesc_iff {s : List Byte} : PlainDesc s ↔
    PlainText s ∧ (∀ c ∈ s.head?.toList, isspace c = false) ∧
      (∀ c ∈ s.getLast?.toList, isspace c = false) ∧ (∃ c ∈ s, isgraph c = true) ∧
      isGameTitle s = false ∧ isCheatCode s = false :=
  ⟨fun h => ⟨h.toPlainText, by simpa using h.head, by simpa using h.last, h.graph, h.notTitle,
      h.notCode⟩,
    fun ⟨htext, hhead, hlast, hgraph, htitle, hcode⟩ =>
      ⟨htext, by simpa using hhead, by simpa using hlast, hgraph, htitle, hcode⟩⟩

instance (s : List Byte) : Decidable (PlainText s) := decidable_of_iff _ plainText_iff.symm

instance (s : List Byte) : Decidable (PlainDesc s) := decidable_of_iff _ plainDesc_iff.symm

instance (games : GameList) : Decidable (Plain games) :=
  inferInstanceAs (Decidable (∀ game ∈ games, PlainText game.title.str ∧
    ∀ cheat ∈ game.cheats, PlainDesc cheat.desc.str))

/-! ### The written lines -/

def quote (s : List Byte) : List Byte := 0x22 :: (s ++ [0x22])

def codeLine (code : Code) : List Byte := printX08 code.addr ++ 0x20 :: printX08 code.val

/-- The tokens of a cheat: its description and its codes. -/
def cheatTokens (cheat : Cheat) : List (List Byte) :=
  cheat.desc.str :: cheat.codes.map codeLine

/-- The tokens of a game: its quoted title and those of its cheats. -/
def gameTokens (game : Game) : List (List Byte) :=
  quote game.title.str :: game.cheats.flatMap cheatTokens

/-- The comment line of the separator. -/
def rule : List Byte := [0x2F, 0x2F, 0x2D, 0x2D, 0x2D, 0x2D, 0x2D, 0x2D, 0x2D, 0x2D]

/-- The lines written for a list of games. -/
def writtenLines (games : GameList) : List (List Byte) :=
  games.flatMap fun game => gameTokens game ++ [[], rule, []]

theorem unlines_append (ls ms : List (List Byte)) :
    unlines (ls ++ ms) = unlines ls ++ unlines ms := by
  simp [unlines]

theorem unlines_flatMap {α : Type*} (l : List α) (f : α → List (List Byte)) :
    unlines (l.flatMap f) = l.flatMap fun a => unlines (f a) := by
  simp [unlines, List.flatMap_assoc]

theorem writeCheat_eq (cheat : Cheat) : writeCheat cheat = unlines (cheatTokens cheat) := by
  have hcodes : unlines (cheat.codes.map codeLine) = cheat.codes.flatMap writeCode := by
    rw [unlines, List.flatMap_map]
    congr 1
  rw [cheatTokens, ← List.singleton_append, unlines_append, hcodes]
  simp [writeCheat, unlines]

/-- The written text consists of the written lines. -/
theorem cheatsWrite_eq (cheats : Object) :
    cheatsWrite cheats = unlines (writtenLines cheats.games) := by
  rw [cheatsWrite, writtenLines, unlines_flatMap]
  congr 1
  funext game
  have hcheats : unlines (game.cheats.flatMap cheatTokens) = game.cheats.flatMap writeCheat := by
    rw [unlines_flatMap]
    congr 1
    funext cheat
    rw [writeCheat_eq]
  rw [unlines_append, gameTokens, ← List.singleton_append, unlines_append, hcheats]
  simp [writeGame, unlines, quote, separator, rule]

/-! ### Screening a written line -/

/-- A line without `#` and `//` is no comment anywhere. -/
theorem termStr_isCmtStr_eq_self {s : List Byte} (hhash : 0x23 ∉ s)
    (hslashes : ¬ [0x2F, 0x2F] <:+: s) : termStr isCmtStr s = s := by
  apply termStr_eq_self
  intro t hne ht
  have hfirst : t.head? ≠ some 0x23 := fun h =>
    hhash (ht.subset (List.mem_of_mem_head? h))
  have htwo : t.take 2 ≠ [0x2F, 0x2F] := fun h =>
    hslashes ((h ▸ (List.take_prefix 2 t).isInfix).trans ht.isInfix)
  simpa [isCmtStr] using ⟨htwo, hfirst⟩

/-- A line that is neither commented nor indented is its own screened form. -/
theorem screen_eq_self {s : List Byte} (hhash : 0x23 ∉ s) (hslashes : ¬ [0x2F, 0x2F] <:+: s)
    (hhead : ∀ c ∈ s.head?, isspace c = false) (hlast : ∀ c ∈ s.getLast?, isspace c = false) :
    screen s = s := by
  rw [screen, termStr_isCmtStr_eq_self hhash hslashes, trimStr_eq_self hhead hlast]

theorem isEmptyStr_eq_false {s : List Byte} (h : ∃ c ∈ s, isgraph c = true) :
    isEmptyStr s = false := by
  obtain ⟨c, hc, hgraph⟩ := h
  rw [isEmptyStr, List.all_eq_false]
  exact ⟨c, hc, by simp [hgraph]⟩

/-- Two adjacent equal bytes that are no quotes lie inside the quotes. -/
theorem infix_of_infix_quote {s : List Byte} (h : [0x2F, 0x2F] <:+: quote s) :
    [0x2F, 0x2F] <:+: s := by
  obtain ⟨before, after, heq⟩ := h
  cases before with
  | nil => simp [quote] at heq
  | cons c before =>
      simp only [quote, List.cons_append, List.cons.injEq] at heq
      induction after using List.reverseRecOn with
      | nil =>
          have hlast := congrArg List.getLast? heq.2
          simp at hlast
      | append_singleton after d _ =>
          refine ⟨before, after, ?_⟩
          have hinit := congrArg List.dropLast heq.2
          simpa [← List.append_assoc] using hinit

/-! ### The tokens that are read back -/

/-- What is needed of a written line to come back as a token. -/
structure Kept (s : List Byte) : Prop where
  line : TextLine s
  graph : isEmptyStr s = false
  screened : screen s = s
  ne : s ≠ []

theorem kept_quote {s : List Byte} (hs : PlainText s) : Kept (quote s) where
  line := {
    nul := by simpa [quote, NUL] using hs.nul
    lf := by simpa [quote, LF] using hs.lf
    length := by
      have := hs.le
      simp only [quote, lineMax, List.length_cons, List.length_append, List.length_nil]
      omega }
  graph := isEmptyStr_eq_false ⟨0x22, by simp [quote], by decide⟩
  screened := screen_eq_self (by simpa [quote] using hs.hash)
    (fun h => hs.slashes (infix_of_infix_quote h)) (by simp [quote]; decide)
    (by simp [quote, List.getLast?_cons]; decide)
  ne := by simp [quote]

theorem kept_desc {s : List Byte} (hs : PlainDesc s) : Kept s where
  line := { nul := hs.nul, lf := hs.lf, length := by have := hs.le; rw [lineMax]; omega }
  graph := isEmptyStr_eq_false hs.graph
  screened := screen_eq_self hs.hash hs.slashes hs.head hs.last
  ne := by have := hs.pos; rintro rfl; simp at this

/-- The bytes of a code line are digits, with one blank between them. -/
theorem mem_codeLine {code : Code} {c : Byte} (hc : c ∈ codeLine code) :
    isxdigit c = true ∨ c = 0x20 := by
  rw [codeLine, List.mem_append, List.mem_cons] at hc
  rcases hc with hc | rfl | hc
  · exact .inl (isxdigit_of_mem_hexDigits hc)
  · exact .inr rfl
  · exact .inl (isxdigit_of_mem_hexDigits hc)

theorem notMem_codeLine {code : Code} {c : Byte} (hdigit : isxdigit c = false)
    (hblank : c ≠ 0x20) : c ∉ codeLine code := by
  intro hc
  rcases mem_codeLine hc with h | h
  · rw [h] at hdigit
    cases hdigit
  · exact hblank h

theorem length_codeLine (code : Code) : (codeLine code).length = 17 := by
  simp [codeLine, printX08]

/-- The first and the last byte of a code line are digits. -/
theorem codeLine_ends (code : Code) :
    (∀ c ∈ (codeLine code).head?, isxdigit c = true) ∧
      ∀ c ∈ (codeLine code).getLast?, isxdigit c = true := by
  have hne : ∀ w, printX08 w ≠ [] := by
    intro w h
    simpa [printX08] using congrArg List.length h
  constructor
  · intro c hc
    rw [codeLine, List.head?_append_of_ne_nil _ (hne _)] at hc
    exact isxdigit_of_mem_hexDigits (List.mem_of_mem_head? hc)
  · intro c hc
    rw [codeLine, List.getLast?_append_of_ne_nil _ (by simp),
      List.getLast?_cons_of_ne_nil (hne _)] at hc
    exact isxdigit_of_mem_hexDigits (List.mem_of_mem_getLast? hc)

theorem kept_codeLine (code : Code) : Kept (codeLine code) where
  line := {
    nul := notMem_codeLine (by decide) (by decide)
    lf := notMem_codeLine (by decide) (by decide)
    length := by rw [length_codeLine, lineMax]; omega }
  graph := by
    apply isEmptyStr_eq_false
    obtain ⟨c, hc⟩ : ∃ c, c ∈ (codeLine code).head? := by
      simp only [Option.mem_def]
      rw [← Option.isSome_iff_exists]
      simp [codeLine, printX08]
    exact ⟨c, List.mem_of_mem_head? hc, isgraph_of_isxdigit ((codeLine_ends code).1 c hc)⟩
  screened := by
    refine screen_eq_self (notMem_codeLine (by decide) (by decide)) (fun h => ?_)
      (fun c hc => not_isspace_of_isxdigit ((codeLine_ends code).1 c hc))
      (fun c hc => not_isspace_of_isxdigit ((codeLine_ends code).2 c hc))
    exact notMem_codeLine (c := 0x2F) (by decide) (by decide) (h.subset (by simp))
  ne := by
    intro h
    simpa [length_codeLine] using congrArg List.length h

/-- Kept lines are their own tokens. -/
theorem tokens_append_of_kept {ls : List (List Byte)} (hls : ∀ l ∈ ls, Kept l)
    (ms : List (List Byte)) : tokens (ls ++ ms) = ls ++ tokens ms := by
  induction ls with
  | nil => rfl
  | cons l ls ih =>
      have hl := hls l (by simp)
      rw [List.cons_append, tokens_cons_of_screened hl.graph, hl.screened,
        if_pos (List.length_pos_iff.mpr hl.ne), ih fun m hm => hls m (by simp [hm])]
      rfl

/-- The separator leaves no token. -/
theorem tokens_separator (ms : List (List Byte)) :
    tokens ([[], rule, []] ++ ms) = tokens ms := by
  have hrule : tokens (rule :: ([] :: ms)) = tokens ([] :: ms) := by
    rw [tokens_cons_of_screened (by decide), if_neg (by decide)]
  rw [List.cons_append, List.cons_append, List.cons_append, List.nil_append,
    tokens_cons_of_empty rfl, hrule, tokens_cons_of_empty rfl]

theorem kept_of_mem_gameTokens {game : Game} (htitle : PlainText game.title.str)
    (hcheats : ∀ cheat ∈ game.cheats, PlainDesc cheat.desc.str) {l : List Byte}
    (hl : l ∈ gameTokens game) : Kept l := by
  rw [gameTokens, List.mem_cons, List.mem_flatMap] at hl
  rcases hl with rfl | ⟨cheat, hcheat, hl⟩
  · exact kept_quote htitle
  · rw [cheatTokens, List.mem_cons, List.mem_map] at hl
    rcases hl with rfl | ⟨code, -, rfl⟩
    · exact kept_desc (hcheats cheat hcheat)
    · exact kept_codeLine code

theorem tokens_writtenLines {games : GameList} (hplain : Plain games) :
    tokens (writtenLines games) = games.flatMap gameTokens := by
  induction games with
  | nil => rfl
  | cons game games ih =>
      obtain ⟨htitle, hcheats⟩ := hplain game (by simp)
      have hlines : writtenLines (game :: games) =
          gameTokens game ++ ([[], rule, []] ++ writtenLines games) := by
        simp [writtenLines]
      rw [hlines, tokens_append_of_kept fun l hl => kept_of_mem_gameTokens htitle hcheats hl,
        tokens_separator, ih fun g hg => hplain g (by simp [hg]), List.flatMap_cons]

theorem textLine_of_mem_writtenLines {games : GameList} (hplain : Plain games) {l : List Byte}
    (hl : l ∈ writtenLines games) : TextLine l := by
  rw [writtenLines, List.mem_flatMap] at hl
  obtain ⟨game, hgame, hl⟩ := hl
  obtain ⟨htitle, hcheats⟩ := hplain game hgame
  rcases List.mem_append.mp hl with hl | hl
  · exact (kept_of_mem_gameTokens htitle hcheats hl).line
  · have hsep : ∀ m ∈ [[], rule, []], TextLine m := by decide
    exact hsep l hl

/-! ### Their classification and their values -/

theorem getToken_quote {s : List Byte} (hs : PlainText s) : getToken (quote s) = .gameTitle := by
  have hpos := hs.pos
  have htitle : isGameTitle (quote s) = true := by
    simp [isGameTitle, quote, List.getLast?_cons]
    omega
  rw [getToken, if_pos htitle]

theorem unquote_quote (s : List Byte) : unquote (quote s) = s := by
  simp [unquote, quote]

theorem getToken_desc {s : List Byte} (hs : PlainDesc s) : getToken s = .cheatDesc := by
  rw [getToken, hs.notTitle, hs.notCode]
  rfl

/-- Digits are counted, up to the limit. -/
theorem isCheatCodeFrom_digits {ds : List Byte} (hds : ∀ c ∈ ds, isxdigit c = true) {i : ℕ}
    (hi : i + ds.length ≤ codeDigits) (rest : List Byte) :
    isCheatCodeFrom i (ds ++ rest) = isCheatCodeFrom (i + ds.length) rest := by
  induction ds generalizing i with
  | nil => rfl
  | cons d ds ih =>
      have hlen : i + 1 + ds.length ≤ codeDigits := by
        rw [List.length_cons] at hi
        omega
      rw [List.cons_append, isCheatCodeFrom, if_pos (hds d (by simp)),
        if_neg (by omega), ih (fun c hc => hds c (by simp [hc])) hlen]
      congr 1
      rw [List.length_cons]
      omega

theorem getToken_codeLine (code : Code) : getToken (codeLine code) = .cheatCode := by
  have hdigits : ∀ w, ∀ c ∈ printX08 w, isxdigit c = true :=
    fun w c hc => isxdigit_of_mem_hexDigits hc
  have hlen : ∀ w, (printX08 w).length = 8 := by simp [printX08]
  have hcode : isCheatCode (codeLine code) = true := by
    have hval : isCheatCodeFrom 8 (printX08 code.val) = true := by
      have := isCheatCodeFrom_digits (hdigits code.val) (i := 8) (by simp [hlen, codeDigits]) []
      rw [List.append_nil] at this
      rw [this, hlen]
      rfl
    rw [isCheatCode, codeLine,
      isCheatCodeFrom_digits (hdigits code.addr) (by simp [hlen, codeDigits]), hlen]
    simpa [isCheatCodeFrom, isxdigit, isdigit, isspace] using hval
  have htitle : isGameTitle (codeLine code) = false := by
    have hquote : (codeLine code).head? ≠ some 0x22 := fun h => by
      have := (codeLine_ends code).1 _ h
      revert this
      decide
    simp only [isGameTitle, Bool.and_eq_false_imp, Bool.and_eq_true, decide_eq_true_eq]
    intro h
    exact absurd h.2 hquote
  rw [getToken, htitle, hcode]
  rfl

theorem codeVal_codeLine (code : Code) : codeVal (codeLine code) = code.view := by
  have hkeep : ∀ w, (printX08 w).filter isxdigit = printX08 w := fun w =>
    List.filter_eq_self.mpr fun c hc => isxdigit_of_mem_hexDigits hc
  have hfilter : (codeLine code).filter isxdigit = printX08 code.addr ++ printX08 code.val := by
    rw [codeLine, List.filter_append, List.filter_cons_of_neg (by decide), hkeep, hkeep]
  have hlen : (printX08 code.addr).length = 8 := by simp [printX08]
  have hvalue : ∀ w : Word, BitVec.ofNat 32 (hexValue (printX08 w)) = w := by
    intro w
    have hlt : w.toNat < 16 ^ 8 := by
      have := w.isLt
      norm_num at this ⊢
      exact this
    rw [printX08, hexValue_hexDigits hlt, BitVec.ofNat_toNat, BitVec.setWidth_eq]
  rw [codeVal, hfilter, ← hlen, List.take_left, List.drop_left, hvalue, hvalue]
  rfl

/-! ### The games that are read back -/

/-- The tokens of a cheat contain no title. -/
theorem getToken_ne_gameTitle_of_mem {cheats : List Cheat}
    (hcheats : ∀ cheat ∈ cheats, PlainDesc cheat.desc.str) {t : List Byte}
    (ht : t ∈ cheats.flatMap cheatTokens) : getToken t ≠ .gameTitle := by
  rw [List.mem_flatMap] at ht
  obtain ⟨cheat, hcheat, ht⟩ := ht
  rw [cheatTokens, List.mem_cons, List.mem_map] at ht
  rcases ht with rfl | ⟨code, -, rfl⟩
  · rw [getToken_desc (hcheats cheat hcheat)]
    decide
  · rw [getToken_codeLine]
    decide

/-- The tokens of cheats do not start with a code. -/
theorem getToken_head_cheats {cheats : List Cheat}
    (hcheats : ∀ cheat ∈ cheats, PlainDesc cheat.desc.str) :
    ∀ t ∈ (cheats.flatMap cheatTokens).head?, getToken t ≠ .cheatCode := by
  cases cheats with
  | nil => simp
  | cons cheat cheats =>
      have hdesc := getToken_desc (hcheats cheat (by simp))
      simp [cheatTokens, hdesc]

theorem cheatsOf_cheatTokens {cheats : List Cheat}
    (hcheats : ∀ cheat ∈ cheats, PlainDesc cheat.desc.str) :
    cheatsOf (cheats.flatMap cheatTokens) = cheats.map Cheat.view := by
  induction cheats with
  | nil => rfl
  | cons cheat cheats ih =>
      have hrest : ∀ c ∈ cheats, PlainDesc c.desc.str := fun c hc => hcheats c (by simp [hc])
      have hcodes : ∀ t ∈ cheat.codes.map codeLine, getToken t = .cheatCode := by
        intro t ht
        obtain ⟨code, -, rfl⟩ := List.mem_map.mp ht
        exact getToken_codeLine code
      have hview : codesOf (cheat.codes.map codeLine ++ cheats.flatMap cheatTokens) =
          cheat.codes.map Code.view := by
        rw [codesOf_append (getToken_head_cheats hrest), codesOf_of_forall hcodes, List.map_map]
        exact List.map_congr_left fun code _ => codeVal_codeLine code
      have hskip : cheatsOf (cheat.codes.map codeLine ++ cheats.flatMap cheatTokens) =
          cheatsOf (cheats.flatMap cheatTokens) :=
        cheatsOf_append_of_forall hcodes _
      rw [List.flatMap_cons, cheatTokens, List.cons_append, cheatsOf,
        getToken_desc (hcheats cheat (by simp))]
      simp only [hview, hskip, ih hrest, List.map_cons]
      rfl

theorem gamesOf_gameTokens {games : GameList} (hplain : Plain games) :
    gamesOf (games.flatMap gameTokens) = games.map Game.view := by
  induction games with
  | nil => rfl
  | cons game games ih =>
      obtain ⟨htitle, hcheats⟩ := hplain game (by simp)
      have hcut : cheatsOf (game.cheats.flatMap cheatTokens ++ games.flatMap gameTokens) =
          cheatsOf (game.cheats.flatMap cheatTokens) := by
        cases games with
        | nil => simp
        | cons next games =>
            rw [List.flatMap_cons, gameTokens, List.cons_append]
            exact cheatsOf_append_title (getToken_quote (hplain next (by simp)).1) _ _
      rw [List.flatMap_cons, gameTokens, List.cons_append, gamesOf, getToken_quote htitle]
      simp only [hcut, cheatsOf_cheatTokens hcheats, unquote_quote,
        gamesOf_append_of_forall fun t ht => getToken_ne_gameTitle_of_mem hcheats ht,
        ih fun g hg => hplain g (by simp [hg]), List.map_cons]
      rfl

/-- Written tokens are accepted: no code follows a title, because a code comes
after the description of its cheat. -/
theorem accepts_gameTokens {games : GameList} (hplain : Plain games) :
    Accepts (games.flatMap gameTokens) := by
  induction games with
  | nil => simp [Accepts]
  | cons game games ih =>
      obtain ⟨htitle, hcheats⟩ := hplain game (by simp)
      obtain ⟨hhead, hchain⟩ := ih fun g hg => hplain g (by simp [hg])
      have hquote := getToken_quote htitle
      refine ⟨by simp [gameTokens, hquote], ?_⟩
      rw [List.flatMap_cons, List.isChain_append]
      refine ⟨?_, hchain, fun t _ u hu h => ?_⟩
      · rw [gameTokens, List.isChain_cons]
        refine ⟨fun u hu h => getToken_head_cheats hcheats u hu h.2, ?_⟩
        exact isChain_of_forall fun t ht => getToken_ne_gameTitle_of_mem hcheats ht
      · rw [hhead u hu] at h
        cases h.2

theorem boundedToken_of_mem_gameTokens {games : GameList} (hplain : Plain games) {t : List Byte}
    (ht : t ∈ games.flatMap gameTokens) : BoundedToken t := by
  rw [List.mem_flatMap] at ht
  obtain ⟨game, hgame, ht⟩ := ht
  obtain ⟨htitle, hcheats⟩ := hplain game hgame
  rw [gameTokens, List.mem_cons, List.mem_flatMap] at ht
  rcases ht with rfl | ⟨cheat, hcheat, ht⟩
  · have hle := htitle.le
    refine ⟨fun _ => ?_, fun h => ?_⟩
    · rw [unquote_quote]
      exact Nat.lt_succ_of_le hle
    · rw [getToken_quote htitle] at h
      cases h
  · rw [cheatTokens, List.mem_cons, List.mem_map] at ht
    rcases ht with rfl | ⟨code, -, rfl⟩
    · have hdesc := hcheats cheat hcheat
      have hle := hdesc.le
      refine ⟨fun h => ?_, fun _ => ?_⟩
      · rw [getToken_desc hdesc] at h
        cases h
      · exact Nat.lt_succ_of_le hle
    · refine ⟨fun h => ?_, fun h => ?_⟩ <;> rw [getToken_codeLine] at h <;> cases h

/-- Reading undoes writing: the text that `cheats_write` produces for a plain
object is read without an error and gives the same games, cheats and codes. -/
theorem cheatsReadBuf_cheatsWrite {env : Env} (hmalloc : ∀ n, (env.malloc n).isSome)
    {cheats : Object} (hplain : Plain cheats.games) (target : Object) (past old : List Byte) :
    ∃ result, cheatsReadBuf env old target (cheatsWrite cheats ++ NUL :: past) =
        some (cheatsTrue, result) ∧
      result.games.map Game.view = cheats.games.map Game.view := by
  have htokens := tokens_writtenLines hplain
  have hlines : ∀ line ∈ writtenLines cheats.games, TextLine line :=
    fun l hl => textLine_of_mem_writtenLines hplain hl
  have hparsed := parseBuf_parsed hmalloc hlines
    (fun t ht => boundedToken_of_mem_gameTokens hplain (htokens ▸ ht)) past old []
  have hall : beforeOffending none (tokens (writtenLines cheats.games)) =
      tokens (writtenLines cheats.games) := by
    rw [beforeOffending_eq_self_iff, htokens]
    exact accepts_gameTokens hplain
  have hstop := hparsed.stop_iff.mpr hall
  obtain ⟨new, hnew, hview⟩ := hparsed.games
  refine ⟨{ cheatsInit with
    games := (parseBuf env old [] (cheatsWrite cheats ++ NUL :: past)).list }, ?_, ?_⟩
  · rw [cheatsWrite_eq]
    simp only [cheatsReadBuf, cheatsInit]
    rw [textBuf] at hstop
    rw [hstop]
  · rw [cheatsWrite_eq]
    rw [textBuf] at hnew
    change (parseBuf env old [] _).list.map Game.view = _
    rw [hnew, List.nil_append, hview, List.nil_append]
    change gamesOf (beforeOffending none _) = _
    rw [hall, htokens, gamesOf_gameTokens hplain]

/-- A game without cheats, and one with a cheat without codes and one with two. -/
def sampleObject : Object :=
  let text (s : List Byte) : CharArray 81 :=
    CharArray.strncpy (List.Vector.replicate 81 NUL) s 80 (by decide)
  { cheatsInit with
    games :=
      [{ title := text [0x41, 0x22], cheats := [], tag := 0 },
        { title := text [0x2F]
          cheats :=
            [{ desc := text [0x42, 0x20, 0x2F], codes := [], tag := 0 },
              { desc := text [0xE4, 0x43],
                codes := [{ addr := 0x2041F0A4, val := 0x63, tag := 0 },
                  { addr := 0, val := 0xFFFFFFFF, tag := 0 }],
                tag := 0 }]
          tag := 0 }] }

theorem cheatsReadBuf_cheatsWrite_sampleObject :
    ∃ result, cheatsReadBuf zeroEnv [] cheatsInit (cheatsWrite sampleObject ++ [NUL]) =
        some (cheatsTrue, result) ∧
      result.games.map Game.view = sampleObject.games.map Game.view := by
  exact cheatsReadBuf_cheatsWrite (fun _ => rfl) (by decide) cheatsInit [] []

end Ps2rd.Cheats
