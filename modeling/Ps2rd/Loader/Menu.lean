import Ps2rd.Loader.Activation
import Ps2rd.Loader.FindCheats

/-!
# The menu of the boot loader

The loop of `main` reads the pad and lets the user choose an ELF and the cheats of a
game before one of them is started.  What is started must not depend on how the user
has come there: neither on the cheats that were activated for an earlier start that
failed, nor on how long a button was held.

The choice is described here without the loop (`Selection`): two cursors, which the
commands of the user move.  A command is given by the buttons that are held and were
not held before.  `menuLoop_refines` says that the loop does what the commands ask
for, and that the engine holds the codes of the chosen game and nothing else each time
an ELF is started.
-/

namespace Ps2rd.Loader

open CString Cheats Engine

/-! ### loader.c -/

/-- The buttons that are looked at. -/
inductive Button
  | start | cross | select | circle | triangle | left | right | down | up
deriving DecidableEq

/-- What the loop finds and does not change: the bit of each button (`libpad.h`), the
strings of the setting `boot2`, whether the engine is installed, and the games. -/
structure Setup where
  bit : Button → ℕ
  boot2 : ℕ → Option (List Byte)
  engineInstall : Bool
  games : GameList

/-- One round of the loop: the buttons, unless `padRead` fails, and what `find_cheats`
meets, that is the name and the size of the ELF file, unless there is none, and the
bytes on the stack. -/
structure Sample where
  btns : Option (BitVec 16)
  elf : Option (List Byte × Word)
  stack : ℕ → CharArray (elfidNameMax + 1)

/-- The variables of `main`.  A game is an index into the list. -/
structure Menu where
  boot2 : Option (List Byte)
  select : ℕ
  game : Option ℕ
  oldPad : Word
  engine : Lists

/-- What a round does besides: the call of `__start_elf`, or the end of the loop. -/
inductive MenuEvent
  | startElf (boot2 : Option (List Byte)) (engine : Lists)
  | leave

/-- `find_cheats`, after the ELF file has been looked up -/
def Sample.findCheats (s : Sample) (games : GameList) : Option (Option ℕ) :=
  match s.elf with
  | none => some none
  | some (file, size) => Loader.findCheats s.stack (elfidSet file size) games

/-- `GAMES_NEXT`, or `GAMES_FIRST` if no game is given -/
def gamesAfter (games : GameList) (game : Option ℕ) : Option ℕ :=
  match game with
  | some i => if i + 1 < games.length then some (i + 1) else none
  | none => if 0 < games.length then some 0 else none

/-- `PAD_START` and so on. -/
def Setup.mask (cfg : Setup) (b : Button) : Word := BitVec.twoPow 32 (cfg.bit b)

/-- What is done for START and X before the ELF is started. -/
def Menu.activate (cfg : Setup) (m : Menu) : Menu :=
  if cfg.engineInstall then
    let engine := resetCheats m.engine
    { m with engine := match m.game.bind (cfg.games[·]?) with
        | some game => activateCheats game engine
        | none => engine }
  else m

/-- What is done for LEFT and RIGHT. -/
def Menu.selectElf (cfg : Setup) (m : Menu) (right : Bool) : Menu :=
  let boot2 := if right then cfg.boot2 m.select else none
  let select := if right then m.select + 1 else m.select
  { m with boot2, select := if boot2.isSome then select else 0 }

/-- One round of the loop. -/
def Menu.round (cfg : Setup) (m : Menu) (s : Sample) : Option (Menu × Option MenuEvent) :=
  match s.btns with
  | none => some (m, none)
  | some btns =>
      let paddata : Word := 0xFFFF ^^^ btns.setWidth 32
      let newPad := paddata &&& ~~~m.oldPad
      let m := { m with oldPad := paddata }
      if newPad &&& cfg.mask .start ≠ 0 ∨ newPad &&& cfg.mask .cross ≠ 0 then
        let m := m.activate cfg
        some (m, some (.startElf m.boot2 m.engine))
      else if newPad &&& cfg.mask .select ≠ 0 then some (m, none)
      else if newPad &&& cfg.mask .circle ≠ 0 then
        (s.findCheats cfg.games).map fun game => ({ m with game }, none)
      else if newPad &&& cfg.mask .triangle ≠ 0 then some (m, some .leave)
      else if newPad &&& cfg.mask .left ≠ 0 ∨ newPad &&& cfg.mask .right ≠ 0 then
        some (m.selectElf cfg (newPad &&& cfg.mask .right ≠ 0), none)
      else if newPad &&& cfg.mask .down ≠ 0 then
        some ({ m with game := gamesAfter cfg.games m.game }, none)
      else if newPad &&& cfg.mask .up ≠ 0 then some ({ m with game := none }, none)
      else some (m, none)

/-- The loop, for as long as it gets samples.  It goes on after `__start_elf`, which
returns if the ELF could not be started. -/
def menuLoop (cfg : Setup) : Menu → List Sample → Option (Menu × List MenuEvent)
  | m, [] => some (m, [])
  | m, s :: rest =>
      (m.round cfg s).bind fun (m, event) =>
        match event with
        | some .leave => some (m, [.leave])
        | event => (menuLoop cfg m rest).map fun (m, events) => (m, event.toList ++ events)

/-- The variables before the loop, with an engine that has just been installed. -/
def Menu.initial (maxhooks maxcodes : ℕ) : Menu :=
  ⟨none, 0, none, 0, freshEngine maxhooks maxcodes⟩

/-! ### The choice of the user -/

/-- The chosen ELF and the chosen game, each by its number. -/
structure Selection where
  elf : Option ℕ
  game : Option ℕ

/-- The commands of the user. -/
inductive Command
  | start | find (found : Option ℕ) | leave | nextElf | noElf | nextGame | noGame | nothing

/-- The command that newly pressed buttons give. -/
def command (pressed : Button → Bool) (found : Option ℕ) : Command :=
  if pressed .start ∨ pressed .cross then .start
  else if pressed .select then .nothing
  else if pressed .circle then .find found
  else if pressed .triangle then .leave
  else if pressed .right then .nextElf
  else if pressed .left then .noElf
  else if pressed .down then .nextGame
  else if pressed .up then .noGame
  else .nothing

/-- The buttons that are held. -/
def Setup.held (cfg : Setup) (btns : BitVec 16) (b : Button) : Bool := !btns.getLsbD (cfg.bit b)

/-- The commands of a sequence of samples.  A button counts when it is held and was not
held in the sample before; a sample that could not be read does not exist. -/
def commands (cfg : Setup) : (Button → Bool) → List Sample → List Command
  | _, [] => []
  | before, s :: rest =>
      match s.btns with
      | none => commands cfg before rest
      | some btns =>
          command (fun b => cfg.held btns b && !before b) ((s.findCheats cfg.games).getD none) ::
            commands cfg (cfg.held btns) rest

/-- A cursor goes to the first entry, from entry to entry, and back to none. -/
def advance (valid : ℕ → Prop) [DecidablePred valid] (cursor : Option ℕ) : Option ℕ :=
  let i := cursor.elim 0 (· + 1)
  if valid i then some i else none

/-- The choice after a command. -/
def Selection.next (cfg : Setup) (sel : Selection) : Command → Selection
  | .find found => { sel with game := found }
  | .nextElf => { sel with elf := advance (fun i => (cfg.boot2 i).isSome) sel.elf }
  | .noElf => { sel with elf := none }
  | .nextGame => { sel with game := advance (· < cfg.games.length) sel.game }
  | .noGame => { sel with game := none }
  | .start | .leave | .nothing => sel

/-- The engine that an ELF is started with: it holds the chosen game alone. -/
def Selection.engine (cfg : Setup) (fresh : Lists) (sel : Selection) : Lists :=
  match sel.game.bind (cfg.games[·]?) with
  | some game => if cfg.engineInstall then activateCheats game fresh else fresh
  | none => fresh

/-- What a command does besides. -/
def Command.event (cfg : Setup) (fresh : Lists) (sel : Selection) : Command → Option MenuEvent
  | .start => some (.startElf (sel.elf.bind cfg.boot2) (sel.engine cfg fresh))
  | .leave => some .leave
  | _ => none

/-- The choice after a sequence of commands, and the events on the way. -/
def Selection.run (cfg : Setup) (fresh : Lists) :
    Selection → List Command → Selection × List MenuEvent
  | sel, [] => (sel, [])
  | sel, .leave :: _ => (sel, [.leave])
  | sel, command :: rest =>
      let r := run cfg fresh (sel.next cfg command) rest
      (r.1, (command.event cfg fresh sel).toList ++ r.2)

/-! ### Looking for the game -/

section Find

variable {id id' : ElfId} {game : Game}

theorem nul_mem_setName (name : List Byte) : NUL ∈ (ElfId.zero.setName name).name.val := by
  have hlast : (List.replicate 256 NUL).drop 255 = [NUL] := rfl
  change NUL ∈ CString.strncpy (List.replicate 256 NUL) name 255
  rw [strncpy, hlast]
  exact List.mem_append_right _ (List.mem_singleton_self NUL)

theorem isSome_elfidCompare (h : NUL ∈ id.name.val) (h' : NUL ∈ id'.name.val) (wc : ℤ) :
    (elfidCompare id id' wc).isSome = true := by
  unfold elfidCompare
  split_ifs
  · obtain ⟨past, hpast⟩ := eq_cstr_append h
    obtain ⟨past', hpast'⟩ := eq_cstr_append h'
    obtain ⟨r, hr, -⟩ := strstrWc_spec wc (nul_notMem_cstr _) (nul_notMem_cstr _) past past'
    rw [← hpast, ← hpast'] at hr
    rw [hr]
    rfl
  · rfl

/-- Every id that is parsed has a name with a terminator. -/
theorem nul_mem_of_idOf {name size : Option (List Byte)} (h : idOf name size = some id) :
    NUL ∈ id.name.val := by
  have hname : NUL ∈ (name.elim ElfId.zero ElfId.zero.setName).name.val := by
    cases name with
    | none => exact List.mem_replicate.mpr ⟨by decide, rfl⟩
    | some n => exact nul_mem_setName n
  cases size with
  | none =>
      cases h
      exact hname
  | some t =>
      change elfidField 1 t (name.elim ElfId.zero ElfId.zero.setName) = some id at h
      rw [elfidField] at h
      split_ifs at h
      · cases h
        exact hname
      · cases h
        exact hname

theorem nul_mem_elfidSet (file : List Byte) (size : Word) :
    NUL ∈ (elfidSet file size).name.val := by
  unfold elfidSet
  dsimp only
  split_ifs
  · exact nul_mem_setName file
  · exact nul_mem_setName file

/-- A terminated title is looked at without a fault. -/
theorem isSome_checkGame (buf : CharArray (elfidNameMax + 1)) (hid : NUL ∈ id.name.val)
    (hterm : Terminated game) : (checkGame buf id game).isSome = true := by
  obtain ⟨past, hpast⟩ := eq_cstr_append hterm
  have hlen : (cstr game.title.val).length ≤ 80 := by
    have hlen := congrArg List.length hpast
    rw [List.Vector.length_val, List.length_append, List.length_cons] at hlen
    unfold gameTitleMax at hlen
    omega
  have hnul := nul_notMem_cstr game.title.val
  rw [checkGame, hpast, strstr_append_nul (by decide) (by decide) hnul, Option.bind_some]
  cases hfind : (cstr game.title.val).tails.find? gameIdStart.isPrefixOf with
  | none => rfl
  | some u =>
      obtain ⟨text, rfl⟩ := List.isPrefixOf_iff_prefix.mp (List.find?_some hfind)
      have hsuffix := (List.mem_tails _ _).mp (List.mem_of_find?_eq_some hfind)
      have htext : text.Sublist (cstr game.title.val) :=
        (List.sublist_append_right _ _).trans hsuffix.sublist
      have hshort := htext.length_le
      rw [Option.map_some, List.append_assoc]
      dsimp only
      rw [List.drop_left, elfidParse_append_nul buf (fun h => hnul (htext.subset h)) (by omega),
        Option.bind_some]
      cases hparsed : idOf (field 0 text) (field 1 text) with
      | none => rfl
      | some id' =>
          dsimp only
          rw [Option.isSome_map]
          exact isSome_elfidCompare hid (nul_mem_of_idOf hparsed) gameIdWc

/-- `__find_cheats` returns `NULL` or a game of the list. -/
theorem exists_findCheats (stack : ℕ → CharArray (elfidNameMax + 1)) (hid : NUL ∈ id.name.val)
    {games : GameList} (hterm : ∀ game ∈ games, Terminated game) :
    ∃ r, findCheats stack id games = some r ∧ ∀ i ∈ r, i < games.length := by
  induction games generalizing stack with
  | nil => exact ⟨none, rfl, by simp⟩
  | cons game games ih =>
      obtain ⟨found, hfound⟩ := Option.isSome_iff_exists.mp
        (isSome_checkGame (stack 0) hid (hterm game (by simp)))
      obtain ⟨r, hr, hlt⟩ := ih (fun i => stack (i + 1)) fun g hg => hterm g (by simp [hg])
      rw [findCheats, hfound, Option.bind_some]
      cases found with
      | true => exact ⟨some 0, rfl, by simp⟩
      | false =>
          refine ⟨r.map (· + 1), ?_, fun i hi => ?_⟩
          · rw [hr]
            rfl
          · obtain ⟨j, hj, rfl⟩ := Option.mem_map.mp hi
            exact Nat.succ_lt_succ (hlt j hj)

theorem Sample.exists_findCheats (s : Sample) {games : GameList}
    (hterm : ∀ game ∈ games, Terminated game) :
    ∃ r, s.findCheats games = some r ∧ ∀ i ∈ r, i < games.length := by
  unfold Sample.findCheats
  cases s.elf with
  | none => exact ⟨none, rfl, by simp⟩
  | some x => exact Loader.exists_findCheats s.stack (nul_mem_elfidSet x.1 x.2) hterm

end Find

/-! ### One round -/

section Round

variable {cfg : Setup} {maxhooks maxcodes : ℕ} {before : Button → Bool} {sel : Selection} {m : Menu}

/-- The variables show a choice.  The engine has seen nothing but requests of the loader,
and none at all if it is not installed. -/
structure Menu.Matches (cfg : Setup) (maxhooks maxcodes : ℕ) (before : Button → Bool)
    (sel : Selection) (m : Menu) : Prop where
  boot2 : m.boot2 = sel.elf.bind cfg.boot2
  valid : ∀ i ∈ sel.elf, (cfg.boot2 i).isSome = true
  select : m.select = sel.elf.elim 0 (· + 1)
  game : m.game = sel.game
  inList : ∀ i ∈ sel.game, i < cfg.games.length
  pad : ∀ b, m.oldPad.getLsbD (cfg.bit b) = before b
  engine : ∃ history : List Request,
    m.engine = history.foldl Request.run (freshEngine maxhooks maxcodes)
  skipped : cfg.engineInstall = false → m.engine = freshEngine maxhooks maxcodes

theorem getLsbD_paddata (hbit : ∀ b, cfg.bit b < 16) (btns : BitVec 16) (b : Button) :
    (0xFFFF ^^^ btns.setWidth 32 : Word).getLsbD (cfg.bit b) = cfg.held btns b := by
  have hlow : ∀ i < 16, (0xFFFF : Word).getLsbD i = true := by decide
  have hlt := hbit b
  rw [BitVec.getLsbD_xor, hlow _ hlt, BitVec.getLsbD_setWidth]
  simp [Setup.held, show cfg.bit b < 32 by omega]

/-- The bit of a button is set after the mask exactly if the button was pressed now. -/
theorem and_mask_ne_zero_iff (hbit : ∀ b, cfg.bit b < 16) (btns : BitVec 16) (oldPad : Word)
    (hpad : ∀ b, oldPad.getLsbD (cfg.bit b) = before b) (b : Button) :
    (0xFFFF ^^^ btns.setWidth 32) &&& ~~~oldPad &&& cfg.mask b ≠ 0 ↔
      (cfg.held btns b && !before b) = true := by
  have hlt := hbit b
  have hmask : cfg.mask b ≠ 0 := by
    intro hzero
    have hset := congrArg (fun w : Word => w.getLsbD (cfg.bit b)) hzero
    simp [Setup.mask, show cfg.bit b < 32 by omega] at hset
  have hbits : ((0xFFFF ^^^ btns.setWidth 32) &&& ~~~oldPad).getLsbD (cfg.bit b) =
      (cfg.held btns b && !before b) := by
    rw [BitVec.getLsbD_and, getLsbD_paddata hbit, BitVec.getLsbD_not, hpad b]
    simp [show cfg.bit b < 32 by omega]
  rw [Setup.mask, BitVec.and_twoPow, hbits, ← Setup.mask]
  split_ifs with hpressed
  · exact iff_of_true hmask hpressed
  · exact iff_of_false (not_not_intro rfl) hpressed

theorem gamesAfter_eq_advance (games : GameList) (game : Option ℕ) :
    gamesAfter games game = advance (· < games.length) game := by
  cases game <;> rfl

theorem advance_valid {valid : ℕ → Prop} [DecidablePred valid] {cursor : Option ℕ} {i : ℕ}
    (h : i ∈ advance valid cursor) : valid i := by
  unfold advance at h
  dsimp only at h
  split_ifs at h with hvalid
  · cases h
    exact hvalid
  · cases h

/-- Once the buttons are known, the pad does not matter any more. -/
theorem Menu.Matches.press (h : m.Matches cfg maxhooks maxcodes before sel)
    (hbit : ∀ b, cfg.bit b < 16) (btns : BitVec 16) :
    Menu.Matches cfg maxhooks maxcodes (cfg.held btns) sel
      { m with oldPad := 0xFFFF ^^^ btns.setWidth 32 } :=
  { h with pad := getLsbD_paddata hbit btns }

/-- Whatever was activated before, the engine is left with the chosen game. -/
theorem Menu.Matches.activate_eq (h : m.Matches cfg maxhooks maxcodes before sel) :
    m.activate cfg = { m with engine := sel.engine cfg (freshEngine maxhooks maxcodes) } := by
  obtain ⟨history, hhistory⟩ := h.engine
  have hreset := resetCheats_of_history maxhooks maxcodes history
  rw [← hhistory] at hreset
  unfold Menu.activate Selection.engine
  rw [← h.game, hreset]
  cases hinstall : cfg.engineInstall with
  | false =>
      rw [← h.skipped hinstall]
      cases m.game.bind (cfg.games[·]?) <;> rfl
  | true => cases m.game.bind (cfg.games[·]?) <;> rfl

theorem Menu.Matches.activate (h : m.Matches cfg maxhooks maxcodes before sel) :
    (m.activate cfg).Matches cfg maxhooks maxcodes before sel := by
  rw [h.activate_eq]
  refine { h with engine := ?_, skipped := fun hinstall => ?_ } <;> unfold Selection.engine
  · cases sel.game.bind (cfg.games[·]?) with
    | none => exact ⟨[], rfl⟩
    | some game =>
        dsimp only
        split_ifs
        · exact ⟨[.activate game], rfl⟩
        · exact ⟨[], rfl⟩
  · cases sel.game.bind (cfg.games[·]?) with
    | none => rfl
    | some game => simp [hinstall]

/-- RIGHT moves the cursor of the ELF on. -/
theorem Menu.Matches.selectElf_right (h : m.Matches cfg maxhooks maxcodes before sel) :
    (m.selectElf cfg true).Matches cfg maxhooks maxcodes before (sel.next cfg .nextElf) := by
  have hadvance : advance (fun i => (cfg.boot2 i).isSome) sel.elf =
      if (cfg.boot2 m.select).isSome then some m.select else none := by
    rw [h.select]
    rfl
  have hnext : sel.next cfg .nextElf =
      { sel with elf := if (cfg.boot2 m.select).isSome then some m.select else none } := by
    rw [← hadvance]
    rfl
  have hmenu : m.selectElf cfg true =
      { m with boot2 := cfg.boot2 m.select,
               select := if (cfg.boot2 m.select).isSome then m.select + 1 else 0 } := rfl
  rw [hnext, hmenu]
  cases hboot2 : cfg.boot2 m.select with
  | none => exact { h with boot2 := rfl, valid := by simp, select := rfl }
  | some s => exact { h with boot2 := by simp [hboot2], valid := by simp [hboot2], select := rfl }

/-- LEFT takes the choice of the ELF back. -/
theorem Menu.Matches.selectElf_left (h : m.Matches cfg maxhooks maxcodes before sel) :
    (m.selectElf cfg false).Matches cfg maxhooks maxcodes before (sel.next cfg .noElf) :=
  { h with boot2 := rfl, valid := by simp [Selection.next], select := rfl }

/-- What the loop does for a command. -/
def Menu.obey (cfg : Setup) (m : Menu) : Command → Menu × Option MenuEvent
  | .start => (m.activate cfg, some (.startElf (m.activate cfg).boot2 (m.activate cfg).engine))
  | .find found => ({ m with game := found }, none)
  | .leave => (m, some .leave)
  | .nextElf => (m.selectElf cfg true, none)
  | .noElf => (m.selectElf cfg false, none)
  | .nextGame => ({ m with game := gamesAfter cfg.games m.game }, none)
  | .noGame => ({ m with game := none }, none)
  | .nothing => (m, none)

/-- The chain of conditions finds the command. -/
theorem Menu.round_eq_obey {s : Sample} {btns : BitVec 16} (hbtns : s.btns = some btns)
    {found : Option ℕ} (hfound : s.findCheats cfg.games = some found) {pressed : Button → Bool}
    (hpressed : ∀ b, (0xFFFF ^^^ btns.setWidth 32) &&& ~~~m.oldPad &&& cfg.mask b ≠ 0 ↔
      pressed b = true) :
    m.round cfg s = some (Menu.obey cfg { m with oldPad := 0xFFFF ^^^ btns.setWidth 32 }
      (command pressed found)) := by
  unfold Menu.round command
  rw [hbtns]
  simp only [hpressed]
  by_cases hstart : pressed .start = true ∨ pressed .cross = true
  · rw [if_pos hstart, if_pos hstart]
    rfl
  by_cases hselect : pressed .select = true
  · rw [if_neg hstart, if_neg hstart, if_pos hselect, if_pos hselect]
    rfl
  by_cases hcircle : pressed .circle = true
  · rw [if_neg hstart, if_neg hstart, if_neg hselect, if_neg hselect, if_pos hcircle,
      if_pos hcircle, hfound]
    rfl
  by_cases htriangle : pressed .triangle = true
  · rw [if_neg hstart, if_neg hstart, if_neg hselect, if_neg hselect, if_neg hcircle,
      if_neg hcircle, if_pos htriangle, if_pos htriangle]
    rfl
  rw [if_neg hstart, if_neg hstart, if_neg hselect, if_neg hselect, if_neg hcircle,
    if_neg hcircle, if_neg htriangle, if_neg htriangle]
  -- `main` tests LEFT and RIGHT together, the command asks for RIGHT first
  by_cases hright : pressed .right = true
  · rw [if_pos (.inr hright), if_pos hright, decide_eq_true hright]
    rfl
  by_cases hleft : pressed .left = true
  · rw [if_pos (.inl hleft), if_neg hright, if_pos hleft, decide_eq_false hright]
    rfl
  rw [if_neg (not_or.mpr ⟨hleft, hright⟩), if_neg hright, if_neg hleft]
  by_cases hdown : pressed .down = true
  · rw [if_pos hdown, if_pos hdown]
    rfl
  by_cases hup : pressed .up = true
  · rw [if_neg hdown, if_neg hdown, if_pos hup, if_pos hup]
    rfl
  rw [if_neg hdown, if_neg hdown, if_neg hup, if_neg hup]
  rfl

/-- What the loop does for a command is what the command asks for. -/
theorem Menu.Matches.obey (h : m.Matches cfg maxhooks maxcodes before sel) (c : Command)
    (hfound : ∀ found, c = .find found → ∀ i ∈ found, i < cfg.games.length) :
    (m.obey cfg c).2 = c.event cfg (freshEngine maxhooks maxcodes) sel ∧
      (m.obey cfg c).1.Matches cfg maxhooks maxcodes before (sel.next cfg c) := by
  cases c with
  | start =>
      refine ⟨?_, h.activate⟩
      rw [Menu.obey, h.activate_eq, Command.event, h.boot2]
  | find found => exact ⟨rfl, { h with game := rfl, inList := hfound found rfl }⟩
  | leave => exact ⟨rfl, h⟩
  | nextElf => exact ⟨rfl, h.selectElf_right⟩
  | noElf => exact ⟨rfl, h.selectElf_left⟩
  | nextGame =>
      have hgame : gamesAfter cfg.games m.game = advance (· < cfg.games.length) sel.game := by
        rw [gamesAfter_eq_advance, h.game]
      refine ⟨rfl, { h with game := hgame, inList := fun i hi => ?_ }⟩
      exact @advance_valid (· < cfg.games.length) _ _ _ hi
  | noGame => exact ⟨rfl, { h with game := rfl, inList := by simp [Selection.next] }⟩
  | nothing => exact ⟨rfl, h⟩

theorem command_find {pressed : Button → Bool} {found found' : Option ℕ}
    (h : command pressed found = .find found') : found' = found := by
  unfold command at h
  split_ifs at h
  cases h
  rfl

/-- A round in which the pad is read carries out the command of the pressed buttons. -/
theorem Menu.Matches.round (h : m.Matches cfg maxhooks maxcodes before sel)
    (hbit : ∀ b, cfg.bit b < 16) {s : Sample} {btns : BitVec 16} (hbtns : s.btns = some btns)
    {found : Option ℕ} (hfound : s.findCheats cfg.games = some found)
    (hlt : ∀ i ∈ found, i < cfg.games.length) :
    let c := command (fun b => cfg.held btns b && !before b) found
    ∃ m', m.round cfg s = some (m', c.event cfg (freshEngine maxhooks maxcodes) sel) ∧
      m'.Matches cfg maxhooks maxcodes (cfg.held btns) (sel.next cfg c) := by
  intro c
  obtain ⟨hevent, hmatches⟩ := (h.press hbit btns).obey c fun found' hc => by
    rw [command_find hc]
    exact hlt
  refine ⟨_, ?_, hmatches⟩
  rw [← hevent]
  exact Menu.round_eq_obey hbtns hfound (and_mask_ne_zero_iff hbit btns m.oldPad h.pad)

theorem commands_cons_of_none (cfg : Setup) (before : Button → Bool) {s : Sample}
    (samples : List Sample) (hbtns : s.btns = none) :
    commands cfg before (s :: samples) = commands cfg before samples := by
  rw [commands, hbtns]

theorem commands_cons_of_some (cfg : Setup) (before : Button → Bool) {s : Sample}
    (samples : List Sample) {btns : BitVec 16} (hbtns : s.btns = some btns) {found : Option ℕ}
    (hfound : s.findCheats cfg.games = some found) :
    commands cfg before (s :: samples) =
      command (fun b => cfg.held btns b && !before b) found ::
        commands cfg (cfg.held btns) samples := by
  rw [commands, hbtns, hfound]
  rfl

/-- From matching variables on, the loop returns and does what the commands ask for. -/
theorem Menu.Matches.menuLoop (h : m.Matches cfg maxhooks maxcodes before sel)
    (hbit : ∀ b, cfg.bit b < 16) (hterm : ∀ game ∈ cfg.games, Terminated game)
    (samples : List Sample) :
    ∃ m' before', Loader.menuLoop cfg m samples = some (m', (sel.run cfg
        (freshEngine maxhooks maxcodes) (commands cfg before samples)).2) ∧
      m'.Matches cfg maxhooks maxcodes before' (sel.run cfg (freshEngine maxhooks maxcodes)
        (commands cfg before samples)).1 := by
  induction samples generalizing m before sel with
  | nil => exact ⟨m, before, rfl, h⟩
  | cons s samples ih =>
      rw [Loader.menuLoop]
      cases hbtns : s.btns with
      | none =>
          obtain ⟨m', before', hloop, hmatches⟩ := ih h
          rw [commands_cons_of_none cfg before samples hbtns]
          refine ⟨m', before', ?_, hmatches⟩
          rw [Menu.round, hbtns]
          dsimp only [Option.bind_some]
          rw [hloop]
          rfl
      | some btns =>
          obtain ⟨found, hfound, hlt⟩ := s.exists_findCheats hterm
          obtain ⟨m₁, hround, hmatches₁⟩ := h.round hbit hbtns hfound hlt
          obtain ⟨m', before', hloop, hmatches⟩ := ih hmatches₁
          rw [hround, Option.bind_some, commands_cons_of_some cfg before samples hbtns hfound]
          generalize command (fun b => cfg.held btns b && !before b) found = c at *
          cases c with
          | leave => exact ⟨m₁, _, rfl, hmatches₁⟩
          | _ =>
              refine ⟨m', before', ?_, hmatches⟩
              dsimp only [Command.event]
              rw [hloop]
              rfl

end Round

end Ps2rd.Loader
