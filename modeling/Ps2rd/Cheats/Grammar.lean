import Ps2rd.Cheats.Parser
import Mathlib.Data.List.Chain

/-!
# The language of the cheats text

What a text means is said here without the parser: the lines that carry
something are its tokens, a game reaches from a title to the next one, a cheat
from a description to the next description or title, and the codes of a cheat
are the code lines right after its description (`gamesOf`).  A token sequence is
well formed when it starts with a title and no code follows a title directly.

`beforeOffending` is the longest well-formed beginning of any sequence.
-/

namespace Ps2rd.Cheats

open CString

/-! ### The meaning of a token sequence -/

/-- A cheat by its values: the description and the codes. -/
structure CheatVal where
  desc : List Byte
  codes : List (Word × Word)
deriving DecidableEq

/-- A game by its values: the title and the cheats. -/
structure GameVal where
  title : List Byte
  cheats : List CheatVal
deriving DecidableEq

def Code.view (code : Code) : Word × Word := (code.addr, code.val)

def Cheat.view (cheat : Cheat) : CheatVal :=
  { desc := cheat.desc.str, codes := cheat.codes.map Code.view }

def Game.view (game : Game) : GameVal :=
  { title := game.title.str, cheats := game.cheats.map Cheat.view }

/-- The title without its quotes. -/
def unquote (t : List Byte) : List Byte := (t.drop 1).take (t.length - 2)

/-- The values of the first eight and the last eight digits of a code line. -/
def codeVal (t : List Byte) : Word × Word :=
  (BitVec.ofNat 32 (hexValue ((t.filter isxdigit).take 8)),
    BitVec.ofNat 32 (hexValue ((t.filter isxdigit).drop 8)))

/-- The codes that come before any other token. -/
def codesOf : List (List Byte) → List (Word × Word)
  | [] => []
  | t :: ts =>
      match getToken t with
      | .cheatCode => codeVal t :: codesOf ts
      | _ => []

/-- The cheats that come before the next title. -/
def cheatsOf : List (List Byte) → List CheatVal
  | [] => []
  | t :: ts =>
      match getToken t with
      | .gameTitle => []
      | .cheatDesc => { desc := t, codes := codesOf ts } :: cheatsOf ts
      | .cheatCode => cheatsOf ts

/-- The games of a token sequence. -/
def gamesOf : List (List Byte) → List GameVal
  | [] => []
  | t :: ts =>
      match getToken t with
      | .gameTitle => { title := unquote t, cheats := cheatsOf ts } :: gamesOf ts
      | _ => gamesOf ts

/-- `prev` is the token before, if there is one. -/
def allowed : Option Tok → Tok → Bool
  | none, tok => tok = .gameTitle
  | some .gameTitle, tok => tok ≠ .cheatCode
  | some _, _ => true

/-- The tokens before the first one that is not allowed at its place. -/
def beforeOffending (prev : Option Tok) : List (List Byte) → List (List Byte)
  | [] => []
  | t :: ts =>
      if allowed prev (getToken t) then t :: beforeOffending (some (getToken t)) ts else []

/-- The accepted sequences: the first token is a title, and no code immediately
follows a title. -/
def Accepts (ts : List (List Byte)) : Prop :=
  (∀ t ∈ ts.head?, getToken t = .gameTitle) ∧
    ts.IsChain fun t u => ¬ (getToken t = .gameTitle ∧ getToken u = .cheatCode)

/-! ### The first token -/

section

variable {t : List Byte} (ts : List (List Byte))

theorem codesOf_cons :
    codesOf (t :: ts) = match getToken t with
      | .cheatCode => codeVal t :: codesOf ts
      | _ => [] :=
  rfl

theorem codesOf_cons_code (h : getToken t = .cheatCode) :
    codesOf (t :: ts) = codeVal t :: codesOf ts := by
  rw [codesOf_cons, h]

theorem codesOf_cons_of_ne (h : getToken t ≠ .cheatCode) : codesOf (t :: ts) = [] := by
  rw [codesOf_cons]
  split
  · contradiction
  · rfl

theorem cheatsOf_cons :
    cheatsOf (t :: ts) = match getToken t with
      | .gameTitle => []
      | .cheatDesc => { desc := t, codes := codesOf ts } :: cheatsOf ts
      | .cheatCode => cheatsOf ts :=
  rfl

theorem cheatsOf_cons_title (h : getToken t = .gameTitle) : cheatsOf (t :: ts) = [] := by
  rw [cheatsOf_cons, h]

theorem cheatsOf_cons_desc (h : getToken t = .cheatDesc) :
    cheatsOf (t :: ts) = { desc := t, codes := codesOf ts } :: cheatsOf ts := by
  rw [cheatsOf_cons, h]

theorem cheatsOf_cons_code (h : getToken t = .cheatCode) :
    cheatsOf (t :: ts) = cheatsOf ts := by
  rw [cheatsOf_cons, h]

theorem gamesOf_cons :
    gamesOf (t :: ts) = match getToken t with
      | .gameTitle => { title := unquote t, cheats := cheatsOf ts } :: gamesOf ts
      | _ => gamesOf ts :=
  rfl

theorem gamesOf_cons_title (h : getToken t = .gameTitle) :
    gamesOf (t :: ts) = { title := unquote t, cheats := cheatsOf ts } :: gamesOf ts := by
  rw [gamesOf_cons, h]

theorem gamesOf_cons_of_ne (h : getToken t ≠ .gameTitle) : gamesOf (t :: ts) = gamesOf ts := by
  rw [gamesOf_cons]
  split
  · contradiction
  · rfl

theorem beforeOffending_cons (prev : Option Tok) :
    beforeOffending prev (t :: ts) =
      if allowed prev (getToken t) then t :: beforeOffending (some (getToken t)) ts else [] :=
  rfl

end

/-! ### Games, cheats and codes in parts of a sequence -/

theorem codesOf_append {ts us : List (List Byte)}
    (hus : ∀ u ∈ us.head?, getToken u ≠ .cheatCode) :
    codesOf (ts ++ us) = codesOf ts := by
  induction ts with
  | nil =>
      cases us with
      | nil => rfl
      | cons u us => exact codesOf_cons_of_ne us (hus u rfl)
  | cons t ts ih =>
      rw [List.cons_append]
      by_cases htok : getToken t = .cheatCode
      · rw [codesOf_cons_code _ htok, codesOf_cons_code _ htok, ih]
      · rw [codesOf_cons_of_ne _ htok, codesOf_cons_of_ne _ htok]

theorem codesOf_of_forall {ts : List (List Byte)}
    (hts : ∀ t ∈ ts, getToken t = .cheatCode) : codesOf ts = ts.map codeVal := by
  induction ts with
  | nil => rfl
  | cons t ts ih =>
      have hrest : codesOf ts = ts.map codeVal := ih fun u hu => hts u (by simp [hu])
      rw [codesOf_cons_code ts (hts t (by simp)), List.map_cons, hrest]

/-- Codes make no cheat of their own. -/
theorem cheatsOf_append_of_forall {ts : List (List Byte)}
    (hts : ∀ t ∈ ts, getToken t = .cheatCode) (us : List (List Byte)) :
    cheatsOf (ts ++ us) = cheatsOf us := by
  induction ts with
  | nil => rfl
  | cons t ts ih =>
      rw [List.cons_append, cheatsOf_cons_code _ (hts t (by simp))]
      exact ih fun u hu => hts u (by simp [hu])

theorem cheatsOf_of_forall {ts : List (List Byte)}
    (hts : ∀ t ∈ ts, getToken t = .cheatCode) : cheatsOf ts = [] := by
  rw [← List.append_nil ts, cheatsOf_append_of_forall hts]
  rfl

/-- A title ends the cheats before it. -/
theorem cheatsOf_append_title {title : List Byte} (htitle : getToken title = .gameTitle)
    (ts us : List (List Byte)) : cheatsOf (ts ++ title :: us) = cheatsOf ts := by
  induction ts with
  | nil => exact cheatsOf_cons_title us htitle
  | cons t ts ih =>
      rw [List.cons_append]
      cases htok : getToken t with
      | gameTitle => rw [cheatsOf_cons_title _ htok, cheatsOf_cons_title _ htok]
      | cheatDesc =>
          have hcodes : codesOf (ts ++ title :: us) = codesOf ts :=
            codesOf_append (by simp [htitle])
          rw [cheatsOf_cons_desc _ htok, cheatsOf_cons_desc _ htok, hcodes, ih]
      | cheatCode => rw [cheatsOf_cons_code _ htok, cheatsOf_cons_code _ htok, ih]

/-- A description starts a new cheat, if no title comes between. -/
theorem cheatsOf_append_desc {desc : List Byte} (hdesc : getToken desc = .cheatDesc)
    {ts : List (List Byte)} (hts : ∀ t ∈ ts, getToken t ≠ .gameTitle) (us : List (List Byte)) :
    cheatsOf (ts ++ desc :: us) =
      cheatsOf ts ++ { desc, codes := codesOf us } :: cheatsOf us := by
  induction ts with
  | nil => exact cheatsOf_cons_desc us hdesc
  | cons t ts ih =>
      have hrest := ih fun u hu => hts u (by simp [hu])
      rw [List.cons_append]
      cases htok : getToken t with
      | gameTitle => exact absurd htok (hts t (by simp))
      | cheatDesc =>
          have hcodes : codesOf (ts ++ desc :: us) = codesOf ts :=
            codesOf_append (by simp [hdesc])
          rw [cheatsOf_cons_desc _ htok, cheatsOf_cons_desc _ htok, hcodes, hrest,
            List.cons_append]
      | cheatCode => rw [cheatsOf_cons_code _ htok, cheatsOf_cons_code _ htok, hrest]

/-- Tokens without a title make no game of their own. -/
theorem gamesOf_append_of_forall {ts : List (List Byte)}
    (hts : ∀ t ∈ ts, getToken t ≠ .gameTitle) (us : List (List Byte)) :
    gamesOf (ts ++ us) = gamesOf us := by
  induction ts with
  | nil => rfl
  | cons t ts ih =>
      rw [List.cons_append, gamesOf_cons_of_ne _ (hts t (by simp))]
      exact ih fun u hu => hts u (by simp [hu])

theorem gamesOf_of_forall {ts : List (List Byte)}
    (hts : ∀ t ∈ ts, getToken t ≠ .gameTitle) : gamesOf ts = [] := by
  rw [← List.append_nil ts, gamesOf_append_of_forall hts]
  rfl

/-- A title starts a new game. -/
theorem gamesOf_append_title {title : List Byte} (htitle : getToken title = .gameTitle)
    (ts us : List (List Byte)) :
    gamesOf (ts ++ title :: us) =
      gamesOf ts ++ { title := unquote title, cheats := cheatsOf us } :: gamesOf us := by
  induction ts with
  | nil => exact gamesOf_cons_title us htitle
  | cons t ts ih =>
      rw [List.cons_append]
      by_cases htok : getToken t = .gameTitle
      · rw [gamesOf_cons_title _ htok, gamesOf_cons_title _ htok, cheatsOf_append_title htitle,
          ih, List.cons_append]
      · rw [gamesOf_cons_of_ne _ htok, gamesOf_cons_of_ne _ htok, ih]

/-- Without a title no code can follow one. -/
theorem isChain_of_forall {ts : List (List Byte)}
    (hts : ∀ t ∈ ts, getToken t ≠ .gameTitle) :
    ts.IsChain fun t u => ¬ (getToken t = .gameTitle ∧ getToken u = .cheatCode) := by
  induction ts with
  | nil => simp
  | cons t ts ih =>
      rw [List.isChain_cons]
      exact ⟨fun u _ h => hts t (by simp) h.1, ih fun u hu => hts u (by simp [hu])⟩

theorem beforeOffending_eq_self_iff_chain {prev : List Byte} {ts : List (List Byte)} :
    beforeOffending (some (getToken prev)) ts = ts ↔
      (prev :: ts).IsChain fun t u => ¬ (getToken t = .gameTitle ∧ getToken u = .cheatCode) := by
  induction ts generalizing prev with
  | nil => exact ⟨fun _ => .singleton prev, fun _ => rfl⟩
  | cons t ts ih =>
      rw [List.isChain_cons_cons, ← ih, beforeOffending_cons]
      have hallowed : allowed (some (getToken prev)) (getToken t) = true ↔
          ¬ (getToken prev = .gameTitle ∧ getToken t = .cheatCode) := by
        cases getToken prev <;> simp [allowed]
      by_cases h : allowed (some (getToken prev)) (getToken t) = true
      · simp [h, hallowed.mp h]
      · simp [h, mt hallowed.mpr h]

/-- Nothing is offending exactly in the accepted sequences. -/
theorem beforeOffending_eq_self_iff (ts : List (List Byte)) :
    beforeOffending none ts = ts ↔ Accepts ts := by
  cases ts with
  | nil => exact ⟨fun _ => ⟨by simp, .nil⟩, fun _ => rfl⟩
  | cons t ts =>
      have hfirst : allowed none (getToken t) = decide (getToken t = .gameTitle) := rfl
      simp only [beforeOffending_cons, hfirst, Accepts, List.head?_cons, Option.mem_some_iff,
        forall_eq', decide_eq_true_eq]
      by_cases h : getToken t = .gameTitle
      · rw [← beforeOffending_eq_self_iff_chain]
        simp [h]
      · simp [h]

end Ps2rd.Cheats
