import Ps2rd.Cheats.Stored

/-!
# Comments

The documentation says that comments are ignored.  The screener tests a line for
printable bytes before it cuts the comment off, and `trim_str` gives up on a
string without a printable byte.  So white space in front of a comment is left
as it is, and becomes a description (`tokens_uncomment`).

`ignoresComments_iff` says exactly which texts are read as the same text without its
comments: those in which no such token is reached, and those that fail at their
first token in both forms.
-/

namespace Ps2rd.Cheats

open CString

/-- The line up to its first `#` or `//`. -/
def uncomment : List Byte → List Byte
  | [] => []
  | c :: s =>
      if c = 0x23 then []
      else if c = 0x2F ∧ s.head? = some 0x2F then []
      else c :: uncomment s

theorem uncomment_eq_termStr (s : List Byte) : uncomment s = termStr isCmtStr s := by
  induction s with
  | nil => rfl
  | cons c s ih =>
      have hcmt : isCmtStr (c :: s) = true ↔ c = 0x23 ∨ c = 0x2F ∧ s.head? = some 0x2F := by
        cases s <;> simp [isCmtStr, or_comm]
      rw [uncomment, termStr, ih]
      by_cases hhash : c = 0x23
      · rw [if_pos hhash, if_pos (hcmt.mpr (.inl hhash))]
      · by_cases hslash : c = 0x2F ∧ s.head? = some 0x2F
        · rw [if_neg hhash, if_pos hslash, if_pos (hcmt.mpr (.inr hslash))]
        · rw [if_neg hhash, if_neg hslash, if_neg]
          exact fun h => (hcmt.mp h).elim hhash hslash

theorem uncomment_prefix_self (s : List Byte) : uncomment s <+: s := by
  rw [uncomment_eq_termStr]
  exact termStr_prefix_self isCmtStr s

theorem head?_of_uncomment {s : List Byte} {c : Byte} (h : (uncomment s).head? = some c) :
    s.head? = some c := by
  obtain ⟨rest, hrest⟩ := List.head?_eq_some_iff.mp h
  obtain ⟨tail, htail⟩ := uncomment_prefix_self s
  rw [← htail, hrest]
  rfl

/-- What is left has no comment. -/
theorem uncomment_uncomment (s : List Byte) : uncomment (uncomment s) = uncomment s := by
  induction s with
  | nil => rfl
  | cons c s ih =>
      by_cases hhash : c = 0x23
      · simp [uncomment, hhash]
      · by_cases hslash : c = 0x2F ∧ s.head? = some 0x2F
        · simp [uncomment, hslash]
        · have hrest : ¬ (c = 0x2F ∧ (uncomment s).head? = some 0x2F) := fun h =>
            hslash ⟨h.1, head?_of_uncomment h.2⟩
          rw [uncomment, if_neg hhash, if_neg hslash, uncomment, if_neg hhash, if_neg hrest, ih]

theorem textLine_uncomment {line : List Byte} (h : TextLine line) : TextLine (uncomment line) where
  nul := fun hmem => h.nul ((uncomment_prefix_self line).subset hmem)
  lf := fun hmem => h.lf ((uncomment_prefix_self line).subset hmem)
  length := (uncomment_prefix_self line).length_le.trans h.length

/-! ### The tokens without comments -/

theorem isEmptyStr_of_isPrefix {s t : List Byte} (h : s <+: t) (ht : isEmptyStr t = true) :
    isEmptyStr s = true := by
  obtain ⟨rest, rfl⟩ := h
  rw [isEmptyStr_append, Bool.and_eq_true] at ht
  exact ht.1

theorem isEmptyStr_trimStr (s : List Byte) : isEmptyStr (trimStr s) = isEmptyStr s := by
  cases h : isEmptyStr s with
  | true => rw [trimStr, if_pos h, h]
  | false =>
      obtain ⟨body, hbody⟩ := exists_trimmed h
      rw [hbody.trimStr_eq, hbody.graph]

/-- Without its comment a line gives its token only if that has a printable byte. -/
theorem tokens_uncomment_line (line : List Byte) :
    tokens [uncomment line] = (tokens [line]).filter fun t => !isEmptyStr t := by
  have hscreen : screen line = trimStr (uncomment line) := by rw [screen, uncomment_eq_termStr]
  have hself : screen (uncomment line) = trimStr (uncomment line) := by
    rw [screen, ← uncomment_eq_termStr, uncomment_uncomment]
  cases hrest : isEmptyStr (uncomment line) with
  | true =>
      rw [tokens_cons_of_empty hrest]
      cases hline : isEmptyStr line with
      | true => rw [tokens_cons_of_empty hline]; rfl
      | false =>
          rw [tokens_cons_of_screened hline, hscreen]
          split
          · simp [tokens, isEmptyStr_trimStr, hrest]
          · rfl
  | false =>
      have hline : isEmptyStr line = false := by
        rw [← Bool.not_eq_true]
        intro h
        rw [isEmptyStr_of_isPrefix (uncomment_prefix_self line) h] at hrest
        cases hrest
      rw [tokens_cons_of_screened hline, tokens_cons_of_screened hrest, hscreen, hself]
      split
      · simp [tokens, isEmptyStr_trimStr, hrest]
      · rfl

/-- The tokens that go with the comments are those without a printable byte. -/
theorem tokens_uncomment (lines : List (List Byte)) :
    tokens (lines.map uncomment) = (tokens lines).filter fun t => !isEmptyStr t := by
  induction lines with
  | nil => rfl
  | cons line lines ih =>
      calc tokens (uncomment line :: lines.map uncomment)
          = tokens [uncomment line] ++ tokens (lines.map uncomment) := tokens_cons _ _
        _ = (tokens [line]).filter (fun t => !isEmptyStr t) ++
              (tokens lines).filter fun t => !isEmptyStr t := by
            rw [tokens_uncomment_line, ih]
        _ = (tokens (line :: lines)).filter fun t => !isEmptyStr t := by
            rw [← List.filter_append, ← tokens_cons]

/-- A string without a printable byte is taken for a description. -/
theorem getToken_of_isEmptyStr {t : List Byte} (h : isEmptyStr t = true) :
    getToken t = .cheatDesc := by
  rw [isEmptyStr, List.all_eq_true] at h
  have htitle : isGameTitle t = false := by
    rw [← Bool.not_eq_true]
    intro htitle
    simp only [isGameTitle, Bool.and_eq_true, decide_eq_true_eq] at htitle
    exact absurd (h _ (List.mem_of_mem_head? htitle.1.2)) (by decide)
  have hcode : isCheatCode t = false := by
    rw [← Bool.not_eq_true]
    intro hcode
    have hlen := isCheatCodeFrom_length hcode
    have hnone : t.filter isxdigit = [] := by
      rw [List.filter_eq_nil_iff]
      intro c hc hdigit
      have hgraph := h c hc
      rw [isgraph_of_isxdigit hdigit] at hgraph
      cases hgraph
    rw [hnone] at hlen
    simp [codeDigits] at hlen
  rw [getToken, htitle, hcode]
  rfl

/-! ### The tokens that are read -/

/-- The tokens up to the one at which the parser stops, with that one. -/
def readTokens (prev : Option Tok) : List (List Byte) → List (List Byte)
  | [] => []
  | t :: ts =>
      t :: if allowed prev (getToken t) && !overlong t then
        readTokens (some (getToken t)) ts else []

/-- The parser does not look behind the tokens that it reads. -/
theorem parseTokens_readTokens (env : Env) {prev : Option Tok} {ctx : Ctx} {list : GameList}
    (h : Ready prev ctx list) (ts : List (List Byte)) :
    parseTokens env ctx list (readTokens prev ts) = parseTokens env ctx list ts := by
  induction ts generalizing prev ctx list with
  | nil => rfl
  | cons t ts ih =>
      rw [readTokens, parseTokens, parseTokens]
      cases hstep : parseToken env t ctx list with
      | error ret => rfl
      | ok next =>
          by_cases htake : (allowed prev (getToken t) && !overlong t) = true
          · rw [if_pos htake]
            exact ih (parseToken_ready h hstep)
          · rw [parseToken_stops env h htake ts] at hstep
            cases hstep

/-- Removing tokens that are not read makes no difference. -/
theorem readTokens_filter {p : List Byte → Bool} {prev : Option Tok} {ts : List (List Byte)}
    (h : ∀ t ∈ readTokens prev ts, p t = true) :
    readTokens prev (ts.filter p) = readTokens prev ts := by
  induction ts generalizing prev with
  | nil => rfl
  | cons t ts ih =>
      rw [readTokens] at h
      rw [List.filter_cons_of_pos (h t (by simp)), readTokens, readTokens]
      by_cases htake : (allowed prev (getToken t) && !overlong t) = true
      · rw [if_pos htake] at h ⊢
        rw [if_pos htake, ih fun u hu => h u (by simp [hu])]
      · rw [if_neg htake, if_neg htake]

/-- A sequence that does not start with a title fails at once. -/
theorem parseTokens_of_head {t : List Byte} (htok : getToken t ≠ .gameTitle)
    (env : Env) (list : GameList) (ts : List (List Byte)) :
    parseTokens env initParser list (t :: ts) = (list, some (-1)) := by
  have hstop : ¬ (allowed none (getToken t) && !overlong t) = true := by simp [allowed, htok]
  rw [parseTokens, parseToken_stops env (ready_initParser list) hstop ts]
  simp [verdict, allowed, htok]

/-! ### Counting descriptions

`p` tells the tokens that are kept; the others are descriptions. -/

section Counting

variable {p : List Byte → Bool} (hp : ∀ t, p t = false → getToken t = .cheatDesc)
include hp

theorem taken_cons_of_desc {prev : Option Tok} (hnone : prev ≠ none) {t : List Byte}
    (ht : p t = false) (ts : List (List Byte)) :
    taken prev (t :: ts) = t :: taken (some .cheatDesc) ts := by
  have hallowed : allowed prev .cheatDesc = true := by
    match prev, hnone with
    | some .gameTitle, _ => rfl
    | some .cheatDesc, _ => rfl
    | some .cheatCode, _ => rfl
  simp [taken, overlong, hp t ht, hallowed]

/-- Behind a first token, the parser that sees all tokens takes at least as many
descriptions: it stops nowhere that the other one does not. -/
theorem length_descTokens_taken_le {prev prev' : Option Tok} (hnone : prev ≠ none)
    (hprev : ∀ tok, allowed prev' tok = true → allowed prev tok = true)
    (ts : List (List Byte)) :
    (descTokens (taken prev' (ts.filter p))).length ≤ (descTokens (taken prev ts)).length := by
  induction ts generalizing prev prev' with
  | nil => simp [taken]
  | cons t ts ih =>
      cases hpt : p t with
      | true =>
          rw [List.filter_cons_of_pos hpt, taken]
          by_cases htake : (allowed prev' (getToken t) && !overlong t) = true
          · have htake' : (allowed prev (getToken t) && !overlong t) = true := by
              rw [Bool.and_eq_true] at htake ⊢
              exact ⟨hprev _ htake.1, htake.2⟩
            rw [taken, if_pos htake, if_pos htake', length_descTokens_cons,
              length_descTokens_cons t (taken _ ts)]
            exact Nat.add_le_add_left (ih (by simp) fun _ h => h) _
          · rw [if_neg htake]
            exact Nat.zero_le _
      | false =>
          have hle := @ih (some .cheatDesc) prev' (by simp) fun tok _ => rfl
          calc (descTokens (taken prev' ((t :: ts).filter p))).length
              = (descTokens (taken prev' (ts.filter p))).length := by
                rw [List.filter_cons_of_neg (by simp [hpt])]
            _ ≤ (descTokens (taken (some .cheatDesc) ts)).length := hle
            _ ≤ (descTokens (taken prev (t :: ts))).length := by
                rw [taken_cons_of_desc hp hnone hpt, length_descTokens_cons]
                exact Nat.le_add_left _ _

/-- It takes more of them as soon as it reads one that is not kept. -/
theorem length_descTokens_taken_lt {prev : Option Tok} (hnone : prev ≠ none)
    {ts : List (List Byte)} (hread : ∃ t ∈ readTokens prev ts, p t = false) :
    (descTokens (taken prev (ts.filter p))).length < (descTokens (taken prev ts)).length := by
  induction ts generalizing prev with
  | nil => simp [readTokens] at hread
  | cons t ts ih =>
      cases hpt : p t with
      | true =>
          obtain ⟨u, hu, hpu⟩ := hread
          have htail : u ∈ if allowed prev (getToken t) && !overlong t then
              readTokens (some (getToken t)) ts else [] := by
            rw [readTokens, List.mem_cons] at hu
            exact hu.resolve_left fun h => by rw [h, hpt] at hpu; cases hpu
          by_cases htake : (allowed prev (getToken t) && !overlong t) = true
          · rw [if_pos htake] at htail
            rw [List.filter_cons_of_pos hpt, taken, taken, if_pos htake, if_pos htake,
              length_descTokens_cons, length_descTokens_cons t (taken _ ts)]
            exact Nat.add_lt_add_left (ih (by simp) ⟨u, htail, hpu⟩) _
          · rw [if_neg htake] at htail
            cases htail
      | false =>
          have hle : (descTokens (taken prev (ts.filter p))).length ≤
              (descTokens (taken (some .cheatDesc) ts)).length :=
            length_descTokens_taken_le hp (by simp) (fun tok _ => rfl) ts
          have hone : (descTokens [t]).length = 1 := by simp [descTokens, hp t hpt]
          calc (descTokens (taken prev ((t :: ts).filter p))).length
              = (descTokens (taken prev (ts.filter p))).length := by
                rw [List.filter_cons_of_neg (by simp [hpt])]
            _ ≤ (descTokens (taken (some .cheatDesc) ts)).length := hle
            _ < (descTokens (taken prev (t :: ts))).length := by
                rw [taken_cons_of_desc hp hnone hpt, length_descTokens_cons, hone]
                exact Nat.lt_add_of_pos_left Nat.one_pos

end Counting

/-! ### Texts and their comments -/

/-- `parse_buf` makes the same of the lines and of the lines without comments. -/
def IgnoresComments (lines : List (List Byte)) : Prop :=
  ∀ (env : Env) (list : GameList) (past old : List Byte),
    let commented := parseBuf env old list (textBuf lines past)
    let bare := parseBuf env old list (textBuf (lines.map uncomment) past)
    commented.ret = bare.ret ∧ commented.list = bare.list

/-- The first token, comments aside, is out of place; or the parser reads no
token without a printable byte. -/
def HarmlessComments (lines : List (List Byte)) : Prop :=
  (∃ t ∈ (tokens (lines.map uncomment)).head?, getToken t ≠ .gameTitle) ∨
    ∀ t ∈ readTokens none (tokens lines), isEmptyStr t = false

theorem ignoresComments_iff_tokens {lines : List (List Byte)}
    (hlines : ∀ line ∈ lines, TextLine line) :
    IgnoresComments lines ↔ ∀ env list,
      parseTokens env initParser list (tokens lines) =
        parseTokens env initParser list ((tokens lines).filter fun t => !isEmptyStr t) := by
  have hbare : ∀ line ∈ lines.map uncomment, TextLine line := by
    intro line hline
    obtain ⟨l, hl, rfl⟩ := List.mem_map.mp hline
    exact textLine_uncomment (hlines l hl)
  rw [← tokens_uncomment]
  constructor
  · intro h env list
    have := h env list [] []
    rw [← parseBuf_result env hlines [] [], ← parseBuf_result env hbare [] []]
    exact Prod.ext this.2 this.1
  · intro h env list past old
    have := h env list
    rw [← parseBuf_result env hlines past old, ← parseBuf_result env hbare past old] at this
    exact ⟨congrArg Prod.snd this, congrArg Prod.fst this⟩

/-- The unprintable tokens, if none of them is read, make no difference; nor do
they if the first token is out of place without them. -/
theorem parseTokens_filter {ts : List (List Byte)}
    (h : (∃ t ∈ (ts.filter fun t => !isEmptyStr t).head?, getToken t ≠ .gameTitle) ∨
      ∀ t ∈ readTokens none ts, isEmptyStr t = false) (env : Env) (list : GameList) :
    parseTokens env initParser list ts =
      parseTokens env initParser list (ts.filter fun t => !isEmptyStr t) := by
  rcases h with ⟨t, hhead, htok⟩ | hread
  · obtain ⟨rest, hrest⟩ := List.head?_eq_some_iff.mp hhead
    rw [hrest, parseTokens_of_head htok]
    cases ts with
    | nil => cases hhead
    | cons u us =>
        apply parseTokens_of_head
        cases hu : isEmptyStr u with
        | true => simp [getToken_of_isEmptyStr hu]
        | false =>
            have : u = t := by simpa [List.filter_cons, hu] using hhead
            rwa [this]
  · have hready := ready_initParser list
    rw [← parseTokens_readTokens env hready, ← parseTokens_readTokens env hready (ts.filter _),
      readTokens_filter fun t ht => by simp [hread t ht]]

section Shown

variable {ts : List (List Byte)}

/-- A text that fails at its first token, and does the same without it, has
another token that fails there. -/
theorem exists_head_ne_gameTitle
    (hgames : [] = (taken none ts).foldl addToken []) (hret : some (-1) = verdict none ts) :
    ∃ t ∈ ts.head?, getToken t ≠ .gameTitle := by
  cases ts with
  | nil => simp [verdict] at hret
  | cons t ts =>
      refine ⟨t, rfl, fun htok => ?_⟩
      cases hover : overlong t with
      | true => simp [verdict, allowed, htok, hover] at hret
      | false =>
          have htaken : taken none (t :: ts) = t :: taken (some .gameTitle) ts := by
            simp [taken, allowed, htok, hover]
          rw [htaken, List.foldl_cons] at hgames
          exact foldl_addToken_ne_nil (by simp [addToken, htok]) _ hgames.symm

/-- If all tokens give the games of the printable ones, no other token is read. -/
theorem isEmptyStr_of_mem_readTokens {prev : Option Tok} (hnone : prev ≠ none)
    {games : List GameVal} (hne : games ≠ [])
    (hgames : (taken prev ts).foldl addToken games =
      (taken prev (ts.filter fun t => !isEmptyStr t)).foldl addToken games) :
    ∀ t ∈ readTokens prev ts, isEmptyStr t = false := by
  intro t ht
  rw [← Bool.not_eq_true]
  intro hempty
  have hlt := length_descTokens_taken_lt (p := fun t => !isEmptyStr t)
    (fun t ht => getToken_of_isEmptyStr (by simpa using ht)) hnone ⟨t, ht, by simp [hempty]⟩
  have hdescs := congrArg List.length (congrArg descsOf hgames)
  simp only [descsOf_foldl_addToken hne, List.length_append, List.length_map] at hdescs
  omega

/-- In zero-filled memory the two runs show the unprintable token: as an error
at the beginning of the text, or as one description more. -/
theorem harmless_of_parseTokens_eq (hnul : ∀ t ∈ ts, NUL ∉ t)
    (h : parseTokens zeroEnv initParser [] ts =
      parseTokens zeroEnv initParser [] (ts.filter fun t => !isEmptyStr t)) :
    (∃ t ∈ (ts.filter fun t => !isEmptyStr t).head?, getToken t ≠ .gameTitle) ∨
      ∀ t ∈ readTokens none ts, isEmptyStr t = false := by
  have hviews := congrArg resultView h
  rw [parseTokens_zeroed zeroed_zeroEnv (ready_initParser []) hnul,
    parseTokens_zeroed zeroed_zeroEnv (ready_initParser [])
      (fun t ht => hnul t (List.mem_filter.mp ht).1), Prod.mk.injEq] at hviews
  obtain ⟨hgames, hret⟩ := hviews
  cases ts with
  | nil => exact .inr (by simp [readTokens])
  | cons t ts =>
      cases ht : isEmptyStr t with
      | true =>
          have htok := getToken_of_isEmptyStr ht
          have hstop : taken none (t :: ts) = [] ∧ verdict none (t :: ts) = some (-1) := by
            simp [taken, verdict, allowed, htok]
          rw [hstop.1, List.foldl_nil] at hgames
          rw [hstop.2] at hret
          exact .inl (exists_head_ne_gameTitle hgames hret)
      | false =>
          rw [List.filter_cons_of_pos (by simp [ht])] at hgames ⊢
          by_cases htok : getToken t = .gameTitle
          · right
            intro u hu
            rw [readTokens, List.mem_cons] at hu
            rcases hu with rfl | hu
            · exact ht
            · by_cases htake : (allowed none (getToken t) && !overlong t) = true
              · rw [taken, taken, if_pos htake, if_pos htake, List.foldl_cons,
                  List.foldl_cons] at hgames
                rw [if_pos htake] at hu
                exact isEmptyStr_of_mem_readTokens (by simp) (by simp [addToken, htok]) hgames u hu
              · rw [if_neg htake] at hu
                cases hu
          · exact .inl ⟨t, by simp, htok⟩

end Shown

/-- Which texts are read as if they had no comments: those whose first token is
out of place without them, and those in which every line that the parser gets to
has nothing, or something printable, in front of its comment. -/
theorem ignoresComments_iff {lines : List (List Byte)} (hlines : ∀ line ∈ lines, TextLine line) :
    IgnoresComments lines ↔ HarmlessComments lines := by
  rw [ignoresComments_iff_tokens hlines, HarmlessComments, tokens_uncomment]
  constructor
  · intro h
    exact harmless_of_parseTokens_eq (fun t ht => nul_notMem_of_mem_tokens hlines ht)
      (h zeroEnv [])
  · intro h env list
    exact parseTokens_filter h env list

theorem ignoresComments_iff_sampleLines : IgnoresComments sampleLines :=
  (@ignoresComments_iff sampleLines (by decide)).mpr (.inr (by decide))

/-- A title, and a comment behind two blanks. -/
def blankLines : List (List Byte) := [[0x22, 0x41, 0x22], [0x20, 0x20, 0x23, 0x63]]

/-- The two blanks become the description of a cheat. -/
theorem not_ignoresComments_blankLines :
    (∀ line ∈ blankLines, TextLine line) ∧ ¬ IgnoresComments blankLines := by
  have hlines : ∀ line ∈ blankLines, TextLine line := by decide
  refine ⟨hlines, fun h => ?_⟩
  rw [ignoresComments_iff_tokens hlines] at h
  have hcheats := congrArg (fun result => result.1.map fun g => g.cheats.length) (h zeroEnv [])
  exact absurd hcheats (by decide +kernel)

end Ps2rd.Cheats
