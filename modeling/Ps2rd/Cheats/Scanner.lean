import Ps2rd.Cheats.Tokens

/-!
# The rounds of the buffer scanner

`parse_buf` takes one piece of its buffer in each round and advances by the
length of the piece plus one, for the line feed.  The length is the index of the
line feed, cut at `LINE_MAX`; when no line feed is left it is the length of the
string that the array `line` still holds, where the rest of the buffer was meant.

`heads` lists the states in which the loop condition reads its byte.  From them
follow the pieces and the furthest byte read, and `scansOnce_iff` says exactly
when the pieces are the lines of the buffer and nothing behind its terminator is
read: when each round finds a line feed among the next `LINE_MAX + 1` bytes.
-/

namespace Ps2rd.Cheats

open CString

/-! ### The loop, round by round -/

/-- The variables of `parse_buf` at the head of its loop.  `pos` is how far `buf`
has advanced. -/
structure Head where
  nl : ℕ
  line : List Byte
  ctx : Ctx
  list : GameList
  pos : ℕ

namespace Head

variable (env : Env) (mem : List Byte) (h : Head)

/-- The memory from the pointer `buf` on. -/
def buf : List Byte := mem.drop h.pos

/-- The variable `len`. -/
def len : ℕ := scanLen (h.buf mem) h.line

/-- The piece that the round examines. -/
def piece : List Byte := (h.buf mem).take (h.len mem)

/-- The loop condition. -/
def running : Bool := (h.buf mem).headD NUL ≠ NUL

/-- One round. -/
def round : Except Stop Head :=
  let next : Head := { h with nl := h.nl + 1, pos := h.pos + h.len mem + 1 }
  if isEmptySubstr (h.buf mem) (h.len mem) then .ok next
  else
    let line := screen (cstr (h.piece mem))
    if line.length > 0 then
      match parseLine env line h.nl h.ctx h.list with
      | .error stop => .error stop
      | .ok (ctx, list) => .ok { next with line, ctx, list }
    else .ok { next with line }

/-- How many bytes from `buf` on the round reads: `chr_idx` up to a line feed or
the terminator, `is_empty_substr` up to a printable byte or the length, and
`strncpy` up to the terminator or the length. -/
def reads : ℕ :=
  max (((h.buf mem).takeWhile fun b => b ≠ NUL && b ≠ LF).length + 1)
    (if isEmptySubstr (h.buf mem) (h.len mem) then h.len mem
      else max (((h.buf mem).takeWhile fun b => !isgraph b).length + 1)
        (min (h.len mem) ((cstr (h.buf mem)).length + 1)))

variable {env mem h}

theorem pos_of_round {next : Head} (hround : h.round env mem = .ok next) :
    next.pos = h.pos + h.len mem + 1 := by
  unfold round at hround
  split at hround
  · cases hround; rfl
  · dsimp only at hround
    split at hround
    · cases hparse : parseLine env (screen (cstr (h.piece mem))) h.nl h.ctx h.list with
      | error stop => simp [hparse] at hround
      | ok made => simp only [hparse] at hround; cases hround; rfl
    · cases hround; rfl

theorem pos_lt_of_running (hrunning : h.running mem = true) : h.pos < mem.length := by
  by_contra hle
  simp [running, buf, List.drop_of_length_le (Nat.le_of_not_lt hle)] at hrunning

/-- The next state at the head of the loop, unless the loop or the run ends. -/
def next? (env : Env) (mem : List Byte) (h : Head) : Option Head :=
  if h.running mem then (h.round env mem).toOption else none

theorem next?_eq_some {next : Head} :
    h.next? env mem = some next ↔ h.running mem = true ∧ h.round env mem = .ok next := by
  unfold next?
  cases h.running mem with
  | false => simp
  | true => cases h.round env mem <;> simp [Except.toOption]

theorem lt_of_next? {next : Head} (hnext : h.next? env mem = some next) :
    mem.length - next.pos < mem.length - h.pos := by
  obtain ⟨hrunning, hround⟩ := next?_eq_some.mp hnext
  have hpos := pos_of_round hround
  have hlt := pos_lt_of_running hrunning
  omega

/-- The loop of `parse_buf` from a state at its head. -/
def finish (env : Env) (mem : List Byte) (h : Head) : Outcome :=
  parseBufFrom env h.nl h.line h.ctx h.list (h.buf mem)

theorem finish_of_not (hrunning : h.running mem = false) :
    h.finish env mem = { list := h.list, stop := none } := by
  rw [finish, parseBufFrom, dif_pos (by simpa [running] using hrunning)]

/-- The loop is one round, and the loop again. -/
theorem finish_of_running (hrunning : h.running mem = true) :
    h.finish env mem =
      match h.round env mem with
      | .error stop => { list := h.list, stop := some stop }
      | .ok next => next.finish env mem := by
  have hend : ¬ (h.buf mem).headD NUL = NUL := by simpa [running] using hrunning
  have hdrop : (h.buf mem).drop (h.len mem + 1) = mem.drop (h.pos + h.len mem + 1) := by
    rw [buf, List.drop_drop, Nat.add_assoc]
  have hlen : scanLen (h.buf mem) h.line = h.len mem := rfl
  have hpiece : (h.buf mem).take (h.len mem) = h.piece mem := rfl
  rw [finish, parseBufFrom, dif_neg hend, round, hlen]
  dsimp only
  rw [hpiece, hdrop]
  by_cases hempty : isEmptySubstr (h.buf mem) (h.len mem) = true
  · rw [if_pos hempty, if_pos hempty]
    rfl
  · rw [if_neg hempty, if_neg hempty]
    by_cases hpos : (screen (cstr (h.piece mem))).length > 0
    · rw [if_pos hpos, if_pos hpos]
      cases parseLine env (screen (cstr (h.piece mem))) h.nl h.ctx h.list with
      | error stop => rfl
      | ok made => rfl
    · rw [if_neg hpos, if_neg hpos]
      rfl

end Head

/-- The states at the head of the loop, up to the end of the run. -/
def heads (env : Env) (mem : List Byte) (h : Head) : List Head :=
  match _hnext : h.next? env mem with
  | none => [h]
  | some next => h :: heads env mem next
termination_by mem.length - h.pos
decreasing_by exact Head.lt_of_next? _hnext

section Rounds

variable {env : Env} {mem : List Byte} {h : Head}

theorem heads_of_none (hnext : h.next? env mem = none) : heads env mem h = [h] := by
  rw [heads]
  split
  · rfl
  · rename_i next hsome
    rw [hnext] at hsome
    cases hsome

theorem heads_of_some {next : Head} (hnext : h.next? env mem = some next) :
    heads env mem h = h :: heads env mem next := by
  rw [heads]
  split
  · rename_i hnone
    rw [hnext] at hnone
    cases hnone
  · rename_i next' hsome
    rw [hnext] at hsome
    cases hsome
    rfl

theorem mem_heads_self (env : Env) (mem : List Byte) (h : Head) : h ∈ heads env mem h := by
  cases hnext : h.next? env mem with
  | none => simp [heads_of_none hnext]
  | some next => simp [heads_of_some hnext]

theorem mem_heads_of_some {next : Head} (hnext : h.next? env mem = some next) :
    next ∈ heads env mem h := by
  rw [heads_of_some hnext]
  exact List.mem_cons_of_mem h (mem_heads_self env mem next)

/-- Induction along the run. -/
theorem heads_induction (env : Env) (mem : List Byte) {motive : Head → Prop}
    (last : ∀ h, h.next? env mem = none → motive h)
    (round : ∀ h next, h.next? env mem = some next → motive next → motive h) (h : Head) :
    motive h := by
  obtain ⟨n, hn⟩ : ∃ n, mem.length - h.pos = n := ⟨_, rfl⟩
  induction n using Nat.strongRecOn generalizing h with
  | ind n ih =>
      cases hnext : h.next? env mem with
      | none => exact last h hnext
      | some next => exact round h next hnext (ih _ (hn ▸ Head.lt_of_next? hnext) next rfl)

end Rounds

/-- The pieces that the rounds of a run examine. -/
def pieces (env : Env) (mem : List Byte) (h : Head) : List (List Byte) :=
  ((heads env mem h).filter (Head.running mem)).map (Head.piece mem)

/-! ### A round on the rest of the text -/

/-- The piece `line` is refused: it has a token, and `parse_line` fails on it. -/
structure Head.Refuses (env : Env) (h : Head) (line : List Byte) : Prop where
  graph : isEmptyStr line = false
  ne : (screen line).length > 0
  stop : ∃ stop, parseLine env (screen line) h.nl h.ctx h.list = .error stop

section Rest

variable {env : Env} {text past : List Byte} {h : Head}

theorem Head.round_of_piece {mem line : List Byte} (hline : h.piece mem = line)
    (hnul : NUL ∉ line) :
    (∃ stop, h.round env mem = .error stop) ↔ h.Refuses env line := by
  have hempty : isEmptySubstr (h.buf mem) (h.len mem) = isEmptyStr line := by
    rw [isEmptySubstr, ← hline]
    rfl
  unfold Head.round
  dsimp only
  rw [hempty, hline, cstr_eq_self hnul]
  by_cases hgraph : isEmptyStr line = true
  · rw [if_pos hgraph]
    constructor
    · rintro ⟨stop, hstop⟩
      cases hstop
    · intro hrefuses
      rw [hrefuses.graph] at hgraph
      cases hgraph
  · rw [if_neg hgraph]
    by_cases hne : (screen line).length > 0
    · rw [if_pos hne]
      cases hparse : parseLine env (screen line) h.nl h.ctx h.list with
      | error stop =>
          have hrefuses : h.Refuses env line := ⟨by simpa using hgraph, hne, stop, hparse⟩
          exact ⟨fun _ => hrefuses, fun _ => ⟨stop, rfl⟩⟩
      | ok made =>
          constructor
          · rintro ⟨stop, hstop⟩
            cases hstop
          · rintro ⟨-, -, stop, hstop⟩
            rw [hparse] at hstop
            cases hstop
    · rw [if_neg hne]
      constructor
      · rintro ⟨stop, hstop⟩
        cases hstop
      · intro hrefuses
        exact absurd hrefuses.ne hne

/-- A round whose length stays before the line feed or the terminator reads no
further than that byte. -/
theorem Head.reads_le {mem s : List Byte}
    (hscan : (h.buf mem).takeWhile (fun b => b ≠ NUL && b ≠ LF) = s)
    (hlen : h.len mem ≤ s.length) : h.reads mem ≤ s.length + 1 := by
  rw [Head.reads, hscan]
  apply max_le le_rfl
  split
  · omega
  · rename_i hgraph
    have hfirst : ((h.buf mem).takeWhile fun b => !isgraph b).length < h.len mem := by
      by_contra hle
      apply hgraph
      obtain ⟨tail, htail⟩ := List.takeWhile_prefix (p := fun b => !isgraph b) (l := h.buf mem)
      rw [isEmptySubstr, isEmptyStr, List.all_eq_true, ← htail,
        List.take_append_of_le_length (Nat.le_of_not_lt hle)]
      intro c hc
      have hnot := List.mem_takeWhile_imp (List.mem_of_mem_take hc)
      exact hnot
    apply max_le (by omega)
    exact (min_le_left _ _).trans (by omega)

/-- The head of a rest that has a line feed among its first bytes. -/
theorem Head.of_lf {mem l tail : List Byte} (hbuf : h.buf mem = l ++ LF :: tail) (hnul : NUL ∉ l)
    (hlf : LF ∉ l) (hle : l.length ≤ lineMax) :
    h.running mem = true ∧ h.len mem = l.length ∧ h.piece mem = l ∧
      h.reads mem ≤ l.length + 1 := by
  have hline : TextLine l := ⟨hnul, hlf, hle⟩
  have hlen : h.len mem = l.length := by rw [Head.len, hbuf, scanLen_append hline]
  refine ⟨?_, hlen, by rw [Head.piece, hlen, hbuf, List.take_left], ?_⟩
  · simpa [Head.running, hbuf] using headD_append_ne_nul hline tail
  · exact Head.reads_le (by rw [hbuf, takeWhile_scan hnul hlf (.inr rfl)]) (by rw [hlen])

/-- The memory of a text: its bytes, the terminator, and whatever follows. -/
def stringMem (text past : List Byte) : List Byte := text ++ NUL :: past

theorem Head.buf_eq (hpos : h.pos ≤ text.length) :
    h.buf (stringMem text past) = text.drop h.pos ++ NUL :: past := by
  rw [Head.buf, stringMem, List.drop_append_of_le_length hpos]

end Rest

/-! ### Whole runs -/

/-- The round finds the end of its line: a line feed at most `LINE_MAX` bytes
ahead.  Without any line feed it is only the string left in `line` that can give
the length, and the run must end here, because the pointer would pass the
terminator. -/
def Head.LineEnds (env : Env) (mem : List Byte) (h : Head) : Prop :=
  (∃ n, chrIdx (h.buf mem) LF = some n ∧ n ≤ lineMax) ∨
    chrIdx (h.buf mem) LF = none ∧ h.line.length = (cstr (h.buf mem)).length ∧
      h.line.length ≤ lineMax ∧ h.Refuses env (cstr (h.buf mem))

/-- What the run from `h` makes of the rest of the text: it reads nothing behind
the terminator, copies no more than `line` can hold, and its pieces with their
line feeds are a beginning of the rest, all of it if the parser does not stop. -/
structure Once (env : Env) (text past : List Byte) (h : Head) : Prop where
  inside : ∀ g ∈ heads env (stringMem text past) h, g.pos ≤ text.length ∧
    (g.running (stringMem text past) = true →
      g.pos + g.reads (stringMem text past) ≤ text.length + 1)
  fits : ∀ g ∈ heads env (stringMem text past) h,
    g.running (stringMem text past) = true → g.len (stringMem text past) ≤ lineMax
  beginning : unlines (pieces env (stringMem text past) h) <+: text.drop h.pos ++ [LF]
  whole : (h.finish env (stringMem text past)).stop = none →
    text.drop h.pos <+: unlines (pieces env (stringMem text past) h)

/-- All rounds of the run from `h` find the end of their line. -/
def AllEnd (env : Env) (mem : List Byte) (h : Head) : Prop :=
  ∀ g ∈ heads env mem h, g.running mem = true → g.LineEnds env mem

section Steps

variable {env : Env} {mem : List Byte} {h : Head}

theorem next?_of_error {stop : Stop} (hround : h.round env mem = .error stop) :
    h.next? env mem = none := by
  unfold Head.next?
  split
  · rw [hround]; rfl
  · rfl

theorem pieces_of_not (hrunning : h.running mem = false) : pieces env mem h = [] := by
  have hnext : h.next? env mem = none := by simp [Head.next?, hrunning]
  rw [pieces, heads_of_none hnext]
  simp [hrunning]

theorem pieces_of_error (hrunning : h.running mem = true) {stop : Stop}
    (hround : h.round env mem = .error stop) : pieces env mem h = [h.piece mem] := by
  rw [pieces, heads_of_none (next?_of_error hround)]
  simp [hrunning]

theorem pieces_of_ok (hrunning : h.running mem = true) {next : Head}
    (hround : h.round env mem = .ok next) :
    pieces env mem h = h.piece mem :: pieces env mem next := by
  rw [pieces, heads_of_some (Head.next?_eq_some.mpr ⟨hrunning, hround⟩)]
  simp [hrunning, pieces]

/-- A round examines its piece first. -/
theorem exists_pieces_eq_cons (env : Env) (hrunning : h.running mem = true) :
    ∃ ps, pieces env mem h = h.piece mem :: ps := by
  cases hround : h.round env mem with
  | error stop => exact ⟨[], pieces_of_error hrunning hround⟩
  | ok next => exact ⟨_, pieces_of_ok hrunning hround⟩

theorem unlines_cons (l : List Byte) (ls : List (List Byte)) :
    unlines (l :: ls) = l ++ LF :: unlines ls := by
  simp [unlines]

/-- A piece that is cut before the end of a string, and put back with a line feed,
is a beginning of the string only if there is one. -/
theorem mem_of_take_append {s x y : List Byte} {n : ℕ} (hn : n < s.length)
    (h : s.take n ++ LF :: x <+: s ++ y) : LF ∈ s := by
  obtain ⟨more, hmore⟩ := h
  have hbyte := congrArg (fun l : List Byte => l[n]?) hmore
  have hlen : (s.take n).length = n := by rw [List.length_take]; omega
  simp only [List.append_assoc, List.getElem?_append_left hn] at hbyte
  rw [List.getElem?_append_right (by omega), hlen, Nat.sub_self] at hbyte
  exact List.mem_of_getElem? hbyte.symm

theorem allEnd_of_some {next : Head} (hnext : h.next? env mem = some next) :
    AllEnd env mem h ↔ h.LineEnds env mem ∧ AllEnd env mem next := by
  obtain ⟨hrunning, -⟩ := Head.next?_eq_some.mp hnext
  simp [AllEnd, heads_of_some hnext, hrunning]

theorem allEnd_of_none (hnext : h.next? env mem = none) :
    AllEnd env mem h ↔ (h.running mem = true → h.LineEnds env mem) := by
  simp [AllEnd, heads_of_none hnext]

end Steps

section Once

variable {env : Env} {text past : List Byte} {h : Head}

/-- The rest of the text: nothing, a line with its line feed, or a line without. -/
theorem rest_cases (hnul : NUL ∉ text) (n : ℕ) :
    text.drop n = [] ∨ (∃ l tail, text.drop n = l ++ LF :: tail ∧ NUL ∉ l ∧ LF ∉ l) ∨
      text.drop n ≠ [] ∧ NUL ∉ text.drop n ∧ LF ∉ text.drop n := by
  have hrest : NUL ∉ text.drop n := fun h => hnul (List.mem_of_mem_drop h)
  by_cases hlf : LF ∈ text.drop n
  · obtain ⟨l, tail, hsplit, hl⟩ := List.eq_append_cons_of_mem hlf
    refine .inr (.inl ⟨l, tail, hsplit, fun h => hrest ?_, hl⟩)
    rw [hsplit]
    simp [h]
  · by_cases hnil : text.drop n = []
    · exact .inl hnil
    · exact .inr (.inr ⟨hnil, hrest, hlf⟩)

theorem running_of_ne (past : List Byte) (hpos : h.pos ≤ text.length)
    (hne : text.drop h.pos ≠ []) (hnul : NUL ∉ text.drop h.pos) :
    h.running (stringMem text past) = true := by
  rw [Head.running, Head.buf_eq hpos]
  cases hrest : text.drop h.pos with
  | nil => exact absurd hrest hne
  | cons c rest =>
      have hc : c ≠ NUL := fun hc => hnul (by simp [hrest, hc])
      simpa using hc

/-- A rest of nothing ends the run. -/
theorem once_of_nil (hpos : h.pos ≤ text.length) (hrest : text.drop h.pos = []) :
    h.running (stringMem text past) = false ∧ Once env text past h := by
  have hrunning : h.running (stringMem text past) = false := by
    simp [Head.running, Head.buf_eq hpos, hrest]
  have hnext : h.next? env (stringMem text past) = none := by simp [Head.next?, hrunning]
  refine ⟨hrunning, ?_, ?_, ?_, ?_⟩
  · simp [heads_of_none hnext, hpos, hrunning]
  · simp [heads_of_none hnext, hrunning]
  · simp [pieces_of_not hrunning, unlines]
  · simp [hrest]

section Line

variable {l tail : List Byte} (hpos : h.pos ≤ text.length)
  (hrest : text.drop h.pos = l ++ LF :: tail) (hnul : NUL ∉ l) (hlf : LF ∉ l)
include hpos hrest

theorem length_of_rest : h.pos + l.length + 1 ≤ text.length ∧
    text.drop (h.pos + l.length + 1) = tail := by
  have hlen := congrArg List.length hrest
  simp only [List.length_drop, List.length_append, List.length_cons] at hlen
  refine ⟨by omega, ?_⟩
  rw [Nat.add_assoc, ← List.drop_drop, hrest, ← List.drop_drop, List.drop_left]
  rfl

include hnul hlf

theorem head_of_line (hle : l.length ≤ lineMax) :
    h.running (stringMem text past) = true ∧ h.len (stringMem text past) = l.length ∧
      h.piece (stringMem text past) = l ∧
      h.pos + h.reads (stringMem text past) ≤ text.length + 1 := by
  have hbuf : h.buf (stringMem text past) = l ++ LF :: (tail ++ NUL :: past) := by
    rw [Head.buf_eq hpos, hrest]
    simp
  obtain ⟨hrunning, hlen, hpiece, hreads⟩ := Head.of_lf hbuf hnul hlf hle
  have hin := (length_of_rest hpos hrest).1
  exact ⟨hrunning, hlen, hpiece, by omega⟩

theorem lineEnds_of_line_iff : h.LineEnds env (stringMem text past) ↔ l.length ≤ lineMax := by
  have hidx : chrIdx (h.buf (stringMem text past)) LF = some l.length := by
    rw [Head.buf_eq hpos, hrest, List.append_assoc]
    exact chrIdx_append hnul hlf _
  simp [Head.LineEnds, hidx]

/-- The parser stops at a whole line. -/
theorem once_of_line_stop (hle : l.length ≤ lineMax) {stop : Stop}
    (hround : h.round env (stringMem text past) = .error stop) : Once env text past h := by
  obtain ⟨hrunning, hlen, hpiece, hreads⟩ := head_of_line hpos hrest hnul hlf hle
  have hheads := heads_of_none (next?_of_error hround)
  refine ⟨?_, ?_, ?_, ?_⟩
  · simpa [hheads, hpos] using fun _ => hreads
  · simp [hheads, hlen, hle]
  · rw [pieces_of_error hrunning hround, hpiece, hrest, unlines_cons]
    exact ⟨tail ++ [LF], by simp [unlines]⟩
  · simp [Head.finish_of_running hrunning, hround]

/-- The parser goes on behind a whole line. -/
theorem once_of_line_iff (hle : l.length ≤ lineMax) {next : Head}
    (hround : h.round env (stringMem text past) = .ok next) :
    Once env text past h ↔ Once env text past next := by
  obtain ⟨hrunning, hlen, hpiece, hreads⟩ := head_of_line hpos hrest hnul hlf hle
  have hheads := heads_of_some (Head.next?_eq_some.mpr ⟨hrunning, hround⟩)
  have hpieces := pieces_of_ok hrunning hround
  have hnext : text.drop next.pos = tail := by
    rw [Head.pos_of_round hround, hlen]
    exact (length_of_rest hpos hrest).2
  have hfinish : h.finish env (stringMem text past) = next.finish env (stringMem text past) := by
    rw [Head.finish_of_running hrunning, hround]
  have hcons : unlines (pieces env (stringMem text past) h) =
      (l ++ [LF]) ++ unlines (pieces env (stringMem text past) next) := by
    rw [hpieces, hpiece, unlines_cons]
    simp
  have hsplit : text.drop h.pos = (l ++ [LF]) ++ text.drop next.pos := by
    rw [hrest, hnext]
    simp
  -- the first line is the same on both sides and can be taken off
  have hbeginning : unlines (pieces env (stringMem text past) h) <+: text.drop h.pos ++ [LF] ↔
      unlines (pieces env (stringMem text past) next) <+: text.drop next.pos ++ [LF] := by
    rw [hcons, hsplit, List.append_assoc (l ++ [LF]) (text.drop next.pos),
      List.prefix_append_right_inj]
  have hwhole : text.drop h.pos <+: unlines (pieces env (stringMem text past) h) ↔
      text.drop next.pos <+: unlines (pieces env (stringMem text past) next) := by
    rw [hcons, hsplit, List.prefix_append_right_inj]
  constructor
  · intro honce
    refine ⟨?_, ?_, hbeginning.mp honce.beginning, fun hstop => hwhole.mp (honce.whole ?_)⟩
    · exact fun g hg => honce.inside g (by simp [hheads, hg])
    · exact fun g hg => honce.fits g (by simp [hheads, hg])
    · rwa [hfinish]
  · intro honce
    refine ⟨?_, ?_, hbeginning.mpr honce.beginning, fun hstop => hwhole.mpr (honce.whole ?_)⟩
    · rw [hheads]
      intro g hg
      rcases List.mem_cons.mp hg with rfl | hg
      · exact ⟨hpos, fun _ => hreads⟩
      · exact honce.inside g hg
    · rw [hheads]
      intro g hg
      rcases List.mem_cons.mp hg with rfl | hg
      · exact fun _ => hlen ▸ hle
      · exact honce.fits g hg
    · rwa [← hfinish]

/-- A line that is too long loses the byte behind the cut. -/
theorem not_once_of_lt (hlt : lineMax < l.length) : ¬ Once env text past h := by
  intro honce
  have hbuf : h.buf (stringMem text past) = l ++ LF :: (tail ++ NUL :: past) := by
    rw [Head.buf_eq hpos, hrest]
    simp
  have hrunning : h.running (stringMem text past) = true := by
    cases l with
    | nil => simp at hlt
    | cons c l =>
        have hc : c ≠ NUL := fun hc => hnul (by simp [hc])
        simp [Head.running, hbuf, hc]
  have hlen : h.len (stringMem text past) = lineMax := by
    rw [Head.len, hbuf, scanLen, chrIdx_append hnul hlf]
    exact if_pos hlt
  have hpiece : h.piece (stringMem text past) = l.take lineMax := by
    rw [Head.piece, hlen, hbuf, List.take_append_of_le_length hlt.le]
  obtain ⟨ps, hps⟩ := exists_pieces_eq_cons env hrunning
  have hbeginning := honce.beginning
  rw [hps, hpiece, unlines_cons, hrest, List.append_assoc] at hbeginning
  exact hlf (mem_of_take_append hlt hbeginning)

end Line

/-! ### The last line without a line feed -/

section Unterminated

variable (hpos : h.pos ≤ text.length) (hne : text.drop h.pos ≠ []) (hnul : NUL ∉ text.drop h.pos)
  (hlf : LF ∉ text.drop h.pos)
include hpos hne hnul hlf

theorem head_of_unterminated :
    h.running (stringMem text past) = true ∧
      chrIdx (h.buf (stringMem text past)) LF = none ∧
      h.len (stringMem text past) = h.line.length ∧
      cstr (h.buf (stringMem text past)) = text.drop h.pos := by
  have hidx : chrIdx (h.buf (stringMem text past)) LF = none := by
    rw [Head.buf_eq hpos]
    exact chrIdx_eq_none hnul hlf past
  refine ⟨running_of_ne past hpos hne hnul, hidx, by rw [Head.len, scanLen, hidx], ?_⟩
  rw [Head.buf_eq hpos, cstr_append_nul hnul]

/-- The piece is the rest if `line` holds a string of its length. -/
theorem piece_of_unterminated (heq : h.line.length = (text.drop h.pos).length) :
    h.piece (stringMem text past) = text.drop h.pos := by
  obtain ⟨-, -, hlen, -⟩ := @head_of_unterminated text past h hpos hne hnul hlf
  rw [Head.piece, hlen, heq, Head.buf_eq hpos, List.take_left]

/-- Otherwise the run does not keep to the text. -/
theorem length_of_once (honce : Once env text past h) :
    h.line.length = (text.drop h.pos).length := by
  obtain ⟨hrunning, -, hlen, -⟩ := @head_of_unterminated text past h hpos hne hnul hlf
  obtain ⟨ps, hps⟩ := exists_pieces_eq_cons env hrunning
  have hbeginning := honce.beginning
  rw [hps, unlines_cons, Head.piece, hlen, Head.buf_eq hpos] at hbeginning
  rcases Nat.lt_trichotomy h.line.length (text.drop h.pos).length with hlt | heq | hgt
  · rw [List.take_append_of_le_length hlt.le] at hbeginning
    exact absurd (mem_of_take_append hlt hbeginning) hlf
  · exact heq
  · -- the piece takes the terminator with it
    obtain ⟨n, hn⟩ := Nat.exists_eq_add_of_lt hgt
    rw [hn, Nat.add_assoc, List.take_length_add_append, List.take_succ_cons, List.append_assoc,
      List.prefix_append_right_inj] at hbeginning
    simp [NUL, LF] at hbeginning

/-- Without a line feed the run keeps to the text only if the string in `line`
has the length of the rest, and the parser stops at it. -/
theorem once_of_unterminated_iff :
    Once env text past h ↔ h.LineEnds env (stringMem text past) := by
  obtain ⟨hrunning, hidx, hlen, hcstr⟩ := @head_of_unterminated text past h hpos hne hnul hlf
  have hpiece := @piece_of_unterminated text past h hpos hne hnul hlf
  have hends : h.LineEnds env (stringMem text past) ↔
      h.line.length = (text.drop h.pos).length ∧ h.line.length ≤ lineMax ∧
        h.Refuses env (text.drop h.pos) := by
    simp [Head.LineEnds, hidx, hcstr]
  have hdrop : (text.drop h.pos).length = text.length - h.pos := List.length_drop
  rw [hends]
  constructor
  · intro honce
    have heq := length_of_once hpos hne hnul hlf honce
    refine ⟨heq, hlen ▸ honce.fits h ?_ hrunning,
      (Head.round_of_piece (hpiece heq) hnul).mp ?_⟩
    · exact mem_heads_self env _ h
    · cases hround : h.round env (stringMem text past) with
      | error stop => exact ⟨stop, rfl⟩
      | ok next =>
          -- the next test of the loop condition reads behind the terminator
          have hnext := Head.next?_eq_some.mpr ⟨hrunning, hround⟩
          have hin := (honce.inside next (mem_heads_of_some hnext)).1
          rw [Head.pos_of_round hround, hlen, heq] at hin
          omega
  · rintro ⟨heq, hle, hrefuses⟩
    obtain ⟨stop, hround⟩ := (Head.round_of_piece (hpiece heq) hnul).mpr hrefuses
    have hheads := heads_of_none (next?_of_error hround)
    have hreads : h.reads (stringMem text past) ≤ (text.drop h.pos).length + 1 :=
      Head.reads_le (by rw [Head.buf_eq hpos, takeWhile_scan hnul hlf (.inl rfl)])
        (by rw [hlen, heq])
    refine ⟨?_, ?_, ?_, ?_⟩
    · simpa [hheads, hpos] using fun _ => by omega
    · simp [hheads, hlen, hle]
    · rw [pieces_of_error hrunning hround, hpiece heq, unlines_cons]
      simp [unlines]
    · simp [Head.finish_of_running hrunning, hround]

end Unterminated

/-- A line without a line feed that is followed by another round. -/
theorem not_once_of_unterminated (hpos : h.pos ≤ text.length) (hne : text.drop h.pos ≠ [])
    (hnul : NUL ∉ text.drop h.pos) (hlf : LF ∉ text.drop h.pos) {next : Head}
    (hround : h.round env (stringMem text past) = .ok next) :
    ¬ h.LineEnds env (stringMem text past) := by
  obtain ⟨-, hidx, -, hcstr⟩ := @head_of_unterminated text past h hpos hne hnul hlf
  rintro (⟨n, hn, -⟩ | ⟨-, heq, -, hrefuses⟩)
  · rw [hidx] at hn
    cases hn
  · rw [hcstr] at heq hrefuses
    have hpiece := @piece_of_unterminated text past h hpos hne hnul hlf heq
    obtain ⟨stop, hstop⟩ := (Head.round_of_piece hpiece hnul).mpr hrefuses
    rw [hround] at hstop
    cases hstop

/-- By induction along the run; what is left of the text is nothing, a line with
its line feed, or a line without. -/
theorem once_iff_allEnd (env : Env) (past : List Byte) (hnul : NUL ∉ text) (h : Head)
    (hpos : h.pos ≤ text.length) :
    Once env text past h ↔ AllEnd env (stringMem text past) h := by
  revert hpos
  refine heads_induction env (stringMem text past) (motive := fun h => h.pos ≤ text.length →
    (Once env text past h ↔ AllEnd env (stringMem text past) h)) ?_ ?_ h
  · -- the run ends at this head
    intro h hnext hpos
    rw [allEnd_of_none hnext]
    rcases rest_cases hnul h.pos with hrest | ⟨l, tail, hrest, hl, hlf⟩ | ⟨hne, hrest, hlf⟩
    · obtain ⟨hrunning, honce⟩ := @once_of_nil env text past h hpos hrest
      simp [hrunning, honce]
    · have hrunning := running_of_ne past hpos (by simp [hrest]) (by
        intro hmem
        exact hnul (List.mem_of_mem_drop hmem))
      have hends := @lineEnds_of_line_iff env text past h l tail hpos hrest hl hlf
      rcases Nat.lt_or_ge lineMax l.length with hlt | hle
      · refine iff_of_false (not_once_of_lt hpos hrest hl hlf hlt) fun hall => ?_
        exact absurd (hends.mp (hall hrunning)) (by omega)
      · cases hround : h.round env (stringMem text past) with
        | error stop =>
            exact iff_of_true (once_of_line_stop hpos hrest hl hlf hle hround)
              fun _ => hends.mpr hle
        | ok next =>
            rw [Head.next?_eq_some.mpr ⟨hrunning, hround⟩] at hnext
            cases hnext
    · have hrunning := running_of_ne past hpos hne hrest
      rw [once_of_unterminated_iff hpos hne hrest hlf]
      exact ⟨fun h _ => h, fun h => h hrunning⟩
  · -- the run goes on with `next`
    intro h next hnext ih hpos
    rw [allEnd_of_some hnext]
    obtain ⟨hrunning, hround⟩ := Head.next?_eq_some.mp hnext
    rcases rest_cases hnul h.pos with hrest | ⟨l, tail, hrest, hl, hlf⟩ | ⟨hne, hrest, hlf⟩
    · rw [(@once_of_nil env text past h hpos hrest).1] at hrunning
      cases hrunning
    · have hends := @lineEnds_of_line_iff env text past h l tail hpos hrest hl hlf
      rcases Nat.lt_or_ge lineMax l.length with hlt | hle
      · refine iff_of_false (not_once_of_lt hpos hrest hl hlf hlt) fun hall => ?_
        exact absurd (hends.mp hall.1) (by omega)
      · obtain ⟨-, hlen, -, -⟩ := @head_of_line text past h l tail hpos hrest hl hlf hle
        have hin : next.pos ≤ text.length := by
          rw [Head.pos_of_round hround, hlen]
          exact (length_of_rest hpos hrest).1
        rw [once_of_line_iff hpos hrest hl hlf hle hround, ih hin]
        exact ⟨fun hall => ⟨hends.mpr hle, hall⟩, fun hall => hall.2⟩
    · have hnot := not_once_of_unterminated hpos hne hrest hlf hround
      rw [once_of_unterminated_iff hpos hne hrest hlf]
      exact iff_of_false hnot fun hall => hnot hall.1

end Once

/-! ### A line feed at the end -/

/-- Two rounds on the same piece of different memories: they differ at most in
what they leave in `line`. -/
theorem round_of_piece_eq (env : Env) {mem mem' : List Byte} {h : Head} {line : List Byte}
    (hlen : ({ h with line } : Head).len mem' = h.len mem)
    (hpiece : ({ h with line } : Head).piece mem' = h.piece mem) :
    (∃ stop, h.round env mem = .error stop ∧
        ({ h with line } : Head).round env mem' = .error stop) ∨
      ∃ next line', h.round env mem = .ok next ∧
        ({ h with line } : Head).round env mem' = .ok { next with line := line' } := by
  have hempty : isEmptySubstr (h.buf mem) (h.len mem) = isEmptyStr (h.piece mem) := rfl
  have hempty' : isEmptySubstr (({ h with line } : Head).buf mem')
      (({ h with line } : Head).len mem') = isEmptyStr (h.piece mem) := by
    rw [← hpiece]
    rfl
  unfold Head.round
  dsimp only
  rw [hempty, hempty', hlen, hpiece]
  by_cases hgraph : isEmptyStr (h.piece mem) = true
  · rw [if_pos hgraph, if_pos hgraph]
    exact .inr ⟨_, line, rfl, rfl⟩
  · rw [if_neg hgraph, if_neg hgraph]
    by_cases hne : (screen (cstr (h.piece mem))).length > 0
    · rw [if_pos hne]
      cases parseLine env (screen (cstr (h.piece mem))) h.nl h.ctx h.list with
      | error stop => exact .inl ⟨stop, rfl, rfl⟩
      | ok made => exact .inr ⟨_, _, rfl, rfl⟩
    · rw [if_neg hne]
      exact .inr ⟨_, _, rfl, rfl⟩

theorem round_of_empty {mem : List Byte} {h : Head} (hempty : isEmptyStr (h.piece mem) = true)
    (env : Env) :
    h.round env mem = .ok { h with nl := h.nl + 1, pos := h.pos + h.len mem + 1 } :=
  if_pos hempty

section Appended

variable {env : Env} {text past : List Byte} {h : Head}

/-- Two runs whose next rounds are on the same piece, and agree from then on. -/
theorem finish_of_piece_eq {mem mem' line : List Byte} (hrunning : h.running mem = true)
    (hrunning' : ({ h with line } : Head).running mem' = true)
    (hlen : ({ h with line } : Head).len mem' = h.len mem)
    (hpiece : ({ h with line } : Head).piece mem' = h.piece mem)
    (hnext : ∀ next line, h.round env mem = .ok next →
      ({ next with line } : Head).finish env mem' = next.finish env mem) :
    ({ h with line } : Head).finish env mem' = h.finish env mem := by
  rw [Head.finish_of_running hrunning, Head.finish_of_running hrunning']
  rcases round_of_piece_eq env hlen hpiece with ⟨stop, hround, hround'⟩ |
    ⟨next, line', hround, hround'⟩
  · rw [hround, hround']
  · rw [hround, hround']
    exact hnext next line' hround

/-- At the end of the text the line feed is an empty line. -/
theorem finish_append_lf_of_nil (hpos : h.pos ≤ text.length) (hrest : text.drop h.pos = [])
    (line past' : List Byte) :
    ({ h with line } : Head).finish env (stringMem (text ++ [LF]) past') =
      h.finish env (stringMem text past) := by
  have hmore : (text ++ [LF]).drop h.pos = [] ++ LF :: [] := by
    rw [List.drop_append_of_le_length hpos, hrest]
  have hpos' : ({ h with line } : Head).pos ≤ (text ++ [LF]).length := by
    rw [List.length_append]
    exact hpos.trans (Nat.le_add_right _ _)
  obtain ⟨hrunning, hlen, hpiece, -⟩ :=
    @head_of_line (text ++ [LF]) past' { h with line } [] [] hpos' hmore (by simp) (by simp)
      (by simp)
  have hend : text.length ≤ h.pos := List.drop_eq_nil_iff.mp hrest
  have hlast : ({ h with line, nl := h.nl + 1, pos := h.pos + 1 } : Head).running
      (stringMem (text ++ [LF]) past') = false := by
    rw [Head.running, Head.buf, stringMem, List.drop_append]
    simp [hpos.antisymm hend]
  rw [Head.finish_of_running hrunning, round_of_empty (by rw [hpiece]; rfl), hlen,
    Head.finish_of_not (@once_of_nil env text past h hpos hrest).1]
  exact Head.finish_of_not hlast

/-- A round that finds the end of its line finds it with the line feed appended. -/
theorem head_append_lf (hnul : NUL ∉ text) (hpos : h.pos ≤ text.length)
    (hne : text.drop h.pos ≠ []) (hends : h.LineEnds env (stringMem text past))
    (line past' : List Byte) :
    ({ h with line } : Head).running (stringMem (text ++ [LF]) past') = true ∧
      ({ h with line } : Head).len (stringMem (text ++ [LF]) past') =
        h.len (stringMem text past) ∧
      ({ h with line } : Head).piece (stringMem (text ++ [LF]) past') =
        h.piece (stringMem text past) ∧
      ∀ next, h.round env (stringMem text past) = .ok next → next.pos ≤ text.length := by
  have hpos' : ({ h with line } : Head).pos ≤ (text ++ [LF]).length := by
    rw [List.length_append]
    exact hpos.trans (Nat.le_add_right _ _)
  have hmore : (text ++ [LF]).drop h.pos = text.drop h.pos ++ [LF] :=
    List.drop_append_of_le_length hpos
  rcases rest_cases hnul h.pos with hrest | ⟨l, tail, hrest, hl, hlf⟩ | ⟨-, hrest, hlf⟩
  · exact absurd hrest hne
  · have hle := (lineEnds_of_line_iff hpos hrest hl hlf).mp hends
    obtain ⟨-, hlen, hpiece, -⟩ := @head_of_line text past h l tail hpos hrest hl hlf hle
    obtain ⟨hrunning', hlen', hpiece', -⟩ :=
      @head_of_line (text ++ [LF]) past' { h with line } l (tail ++ [LF]) hpos'
        (by rw [hmore, hrest]; simp) hl hlf hle
    refine ⟨hrunning', hlen'.trans hlen.symm, hpiece'.trans hpiece.symm, fun next hround => ?_⟩
    rw [Head.pos_of_round hround, hlen]
    exact (length_of_rest hpos hrest).1
  · obtain ⟨-, hidx, hlen, hcstr⟩ := @head_of_unterminated text past h hpos hne hrest hlf
    have hsame : h.line.length = (text.drop h.pos).length ∧ h.line.length ≤ lineMax := by
      rcases hends with ⟨n, hn, -⟩ | ⟨-, heq, hle, -⟩
      · rw [hidx] at hn
        cases hn
      · exact ⟨by rw [heq, hcstr], hle⟩
    obtain ⟨heq, hle⟩ := hsame
    obtain ⟨hrunning', hlen', hpiece', -⟩ :=
      @head_of_line (text ++ [LF]) past' { h with line } (text.drop h.pos) [] hpos' hmore hrest hlf
        (heq ▸ hle)
    refine ⟨hrunning', by rw [hlen', hlen, heq], ?_, fun next hround => ?_⟩
    · rw [hpiece', @piece_of_unterminated text past h hpos hne hrest hlf heq]
    · exact absurd hends (not_once_of_unterminated hpos hne hrest hlf hround)

/-- If all rounds find the end of their line, a line feed behind the text makes
no difference, nor does what `line` held or what follows in memory. -/
theorem finish_append_lf (hnul : NUL ∉ text) (hpos : h.pos ≤ text.length)
    (hall : AllEnd env (stringMem text past) h) (line past' : List Byte) :
    ({ h with line } : Head).finish env (stringMem (text ++ [LF]) past') =
      h.finish env (stringMem text past) := by
  revert hpos hall line
  refine heads_induction env (stringMem text past) (motive := fun h => h.pos ≤ text.length →
    AllEnd env (stringMem text past) h → ∀ line,
      ({ h with line } : Head).finish env (stringMem (text ++ [LF]) past') =
        h.finish env (stringMem text past)) ?_ ?_ h
  · intro h hnext hpos hall line
    by_cases hrest : text.drop h.pos = []
    · exact finish_append_lf_of_nil hpos hrest line past'
    · have hrunning := running_of_ne past hpos hrest fun hmem => hnul (List.mem_of_mem_drop hmem)
      obtain ⟨hrunning', hlen, hpiece, -⟩ :=
        head_append_lf hnul hpos hrest ((allEnd_of_none hnext).mp hall hrunning) line past'
      refine finish_of_piece_eq hrunning hrunning' hlen hpiece fun next line hround => ?_
      rw [Head.next?_eq_some.mpr ⟨hrunning, hround⟩] at hnext
      cases hnext
  · intro h next hnext ih hpos hall line
    obtain ⟨hends, hall⟩ := (allEnd_of_some hnext).mp hall
    obtain ⟨hrunning, hround⟩ := Head.next?_eq_some.mp hnext
    have hrest : text.drop h.pos ≠ [] := by
      intro hrest
      rw [(@once_of_nil env text past h hpos hrest).1] at hrunning
      cases hrunning
    obtain ⟨hrunning', hlen, hpiece, hin⟩ := head_append_lf hnul hpos hrest hends line past'
    refine finish_of_piece_eq hrunning hrunning' hlen hpiece fun next' line hround' => ?_
    rw [hround] at hround'
    cases hround'
    exact ih (hin next hround) hall line

end Appended

/-! ### The buffer of `parse_buf` -/

/-- The state in which `parse_buf` enters its loop; `old` is what `line` held. -/
def Head.start (old : List Byte) (list : GameList) : Head :=
  { nl := 1, line := old, ctx := initParser, list, pos := 0 }

theorem parseBuf_eq_finish (env : Env) (old mem : List Byte) (list : GameList) :
    parseBuf env old list mem = (Head.start old list).finish env mem := rfl

/-- `parse_buf` consumes its buffer exactly once.  It reads no byte behind the
terminator; what it copies fits into `line`; its pieces with their line feeds are
the text, or the beginning of it that comes before a parse error; and a line feed
at the end changes nothing. -/
structure ScansOnce (env : Env) (old : List Byte) (list : GameList) (text past : List Byte) :
    Prop where
  inside : ∀ h ∈ heads env (stringMem text past) (.start old list), h.pos ≤ text.length ∧
    (h.running (stringMem text past) = true →
      h.pos + h.reads (stringMem text past) ≤ text.length + 1)
  fits : ∀ h ∈ heads env (stringMem text past) (.start old list),
    h.running (stringMem text past) = true → h.len (stringMem text past) ≤ lineMax
  stopped : (parseBuf env old list (stringMem text past)).stop ≠ none →
    unlines (pieces env (stringMem text past) (.start old list)) <+: text ++ [LF]
  whole : (parseBuf env old list (stringMem text past)).stop = none →
    unlines (pieces env (stringMem text past) (.start old list)) = text ∨
      unlines (pieces env (stringMem text past) (.start old list)) = text ++ [LF]
  appended : ∀ old' past', parseBuf env old' list (stringMem (text ++ [LF]) past') =
    parseBuf env old list (stringMem text past)

theorem eq_or_eq_of_between {α : Type*} {s t : List α} {a : α} (hst : s <+: t)
    (hts : t <+: s ++ [a]) : t = s ∨ t = s ++ [a] := by
  obtain ⟨rest, rfl⟩ := hst
  rw [List.prefix_append_right_inj] at hts
  cases rest with
  | nil => simp
  | cons b rest =>
      right
      obtain ⟨more, hmore⟩ := hts
      simp at hmore
      simp [hmore]

/-- Which buffers are consumed exactly once: those in which each round of the
loop finds a line feed at most `LINE_MAX` bytes ahead.  (A rest without a line
feed passes as well if the string in `line` happens to have its length and the
parser stops at it.) -/
theorem scansOnce_iff (env : Env) (old : List Byte) (list : GameList) {text : List Byte}
    (hnul : NUL ∉ text) (past : List Byte) :
    ScansOnce env old list text past ↔
      ∀ h ∈ heads env (stringMem text past) (.start old list),
        h.running (stringMem text past) = true → h.LineEnds env (stringMem text past) := by
  have honce := once_iff_allEnd env past hnul (.start old list) (Nat.zero_le _)
  constructor
  · intro h
    refine honce.mp ⟨h.inside, h.fits, ?_, fun hstop => ?_⟩
    · by_cases hstop : (parseBuf env old list (stringMem text past)).stop = none
      · rcases h.whole hstop with heq | heq
        · rw [heq]
          exact List.prefix_append text [LF]
        · rw [heq]
          exact List.prefix_rfl
      · exact h.stopped hstop
    · rcases h.whole hstop with heq | heq
      · rw [heq]
        exact List.prefix_rfl
      · rw [heq]
        exact List.prefix_append text [LF]
  · intro hall
    obtain ⟨hinside, hfits, hbeginning, hwhole⟩ := honce.mpr hall
    refine ⟨hinside, hfits, fun _ => hbeginning, fun hstop => ?_, fun old' past' => ?_⟩
    · exact eq_or_eq_of_between (hwhole hstop) hbeginning
    · exact finish_append_lf hnul (Nat.zero_le _) hall old' past'

/-- The lines of a text that ends in LF are found if they are not too long. -/
theorem allEnd_unlines {lines : List (List Byte)} (hlines : ∀ line ∈ lines, TextLine line)
    (env : Env) {text : List Byte} (past : List Byte) {h : Head} (hpos : h.pos ≤ text.length)
    (hrest : text.drop h.pos = unlines lines) : AllEnd env (stringMem text past) h := by
  induction lines generalizing h with
  | nil =>
      obtain ⟨hrunning, -⟩ := @once_of_nil env text past h hpos hrest
      rw [allEnd_of_none (by simp [Head.next?, hrunning])]
      simp [hrunning]
  | cons line lines ih =>
      have hline := hlines line (by simp)
      rw [unlines_cons] at hrest
      have hends : h.LineEnds env (stringMem text past) :=
        (lineEnds_of_line_iff hpos hrest hline.nul hline.lf).mpr hline.length
      cases hnext : h.next? env (stringMem text past) with
      | none => exact (allEnd_of_none hnext).mpr fun _ => hends
      | some next =>
          obtain ⟨-, hround⟩ := Head.next?_eq_some.mp hnext
          obtain ⟨-, hlen, -, -⟩ :=
            @head_of_line text past h line _ hpos hrest hline.nul hline.lf hline.length
          obtain ⟨hin, htail⟩ := length_of_rest hpos hrest
          have hnextPos : next.pos = h.pos + line.length + 1 := by
            rw [Head.pos_of_round hround, hlen]
          refine (allEnd_of_some hnext).mpr ⟨hends, ih (fun l hl => hlines l (by simp [hl])) ?_ ?_⟩
          · rw [hnextPos]
            exact hin
          · rw [hnextPos]
            exact htail

theorem scansOnce_iff_sampleLines : ScansOnce zeroEnv [0x58] [] (unlines sampleLines) [0x59] :=
  (scansOnce_iff zeroEnv [0x58] [] (by decide) [0x59]).mpr
    (@allEnd_unlines sampleLines (by decide) zeroEnv _ [0x59] _ (Nat.zero_le _) rfl)

/-- The title `"A"` without a line feed, read with an empty string in `line`: the
scanner skips its bytes one by one. -/
theorem not_scansOnce_unterminated :
    (parseBuf zeroEnv [] [] (stringMem [0x22, 0x41, 0x22] [])).list = [] ∧
      (parseBuf zeroEnv [] [] (stringMem ([0x22, 0x41, 0x22] ++ [LF]) [])).list.length = 1 ∧
      ¬ ScansOnce zeroEnv [] [] [0x22, 0x41, 0x22] [] := by
  have hskip : (parseBuf zeroEnv [] [] (stringMem [0x22, 0x41, 0x22] [])).list = [] := by
    simp [parseBuf, stringMem, parseBufFrom, scanLen, chrIdx, isEmptySubstr, isEmptyStr, NUL, LF]
  have hread : (parseBuf zeroEnv [] [] (stringMem ([0x22, 0x41, 0x22] ++ [LF]) [])).list.length =
      1 := by
    have hresult := @parseBuf_result zeroEnv [[0x22, 0x41, 0x22]] (by decide) [] [] []
    have hlist := congrArg (fun result => result.1.length) hresult
    exact hlist.trans (by decide +kernel)
  refine ⟨hskip, hread, fun h => ?_⟩
  rw [h.appended [] [], hskip] at hread
  cases hread

end Ps2rd.Cheats
