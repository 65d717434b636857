import Ps2rd.Lib.Stailq
import Ps2rd.Lib.While

/-!
# Removing games, cheats and codes

The functions of `cheatlist.c` that take objects out of their lists, down to the links of the
tail queues.  Elsewhere a tail queue is just the list of its elements; here it matters which
object is still linked to which.

A game list is represented by the tree of its objects, `Heap.Games`.  The helpers `__remove_codes`
and `__remove_cheats` empty the lists of the removed object also when nothing is to be freed.
So with `_free` = 0 what was below the removed object is neither freed nor reachable any more, and
only a removed object with nothing below it is complete (`removes_iff`).
-/

namespace Ps2rd.Cheats

open Stailq

variable {G C K : Type*}

/-- An object by its address. -/
inductive Obj (G C K : Type*)
  | game (g : G)
  | cheat (c : C)
  | code (k : K)
  deriving DecidableEq

/-- The game list and the fields of all objects that link them, and the objects that were passed
to `free` so far. -/
structure Heap (G C K : Type*) where
  games : QueueHead G
  gameNext : G → Option G
  cheats : G → QueueHead C
  cheatNext : C → Option C
  codes : C → QueueHead K
  codeNext : K → Option K
  freed : List (Obj G C K)

/-! ### cheatlist.c

A code list is given by the cheat that it belongs to, and a cheat list by its game. -/

section

variable [DecidableEq G] [DecidableEq C] [DecidableEq K]

/-- `CODES_REMOVE` -/
def codesRemove (fuel : ℕ) (c : C) (code : K) (s : Heap G C K) : Option (Heap G C K) :=
  (remove fuel (s.codes c) s.codeNext code).map fun (head, next) =>
    { s with codes := Function.update s.codes c head, codeNext := next }

/-- `CHEATS_REMOVE` -/
def cheatsRemove (fuel : ℕ) (g : G) (cheat : C) (s : Heap G C K) : Option (Heap G C K) :=
  (remove fuel (s.cheats g) s.cheatNext cheat).map fun (head, next) =>
    { s with cheats := Function.update s.cheats g head, cheatNext := next }

/-- `GAMES_REMOVE` -/
def gamesRemove (fuel : ℕ) (game : G) (s : Heap G C K) : Option (Heap G C K) :=
  (remove fuel s.games s.gameNext game).map fun (head, next) =>
    { s with games := head, gameNext := next }

/-- `GAMES_INSERT_TAIL` -/
def gamesInsertTail (game : G) (s : Heap G C K) : Heap G C K :=
  { s with
    games := (insertTail s.games s.gameNext game).1
    gameNext := (insertTail s.games s.gameNext game).2 }

/-- `if (_free) free(obj);` -/
def freeIf (free : Bool) (obj : Obj G C K) (s : Heap G C K) : Heap G C K :=
  if free then { s with freed := s.freed ++ [obj] } else s

/-- `__remove_codes` -/
def removeCodes (fuel : ℕ) (c : C) (free : Bool) (s : Heap G C K) : Option (Heap G C K) :=
  whileM (fun s => (s.codes c).first.isSome)
    (fun s => (s.codes c).first.bind fun code =>
      (codesRemove fuel c code s).map (freeIf free (.code code)))
    fuel s

/-- `__remove_cheats` -/
def removeCheats (fuel : ℕ) (g : G) (free : Bool) (s : Heap G C K) : Option (Heap G C K) :=
  whileM (fun s => (s.cheats g).first.isSome)
    (fun s => (s.cheats g).first.bind fun cheat =>
      (removeCodes fuel cheat free s).bind fun s =>
        (cheatsRemove fuel g cheat s).map (freeIf free (.cheat cheat)))
    fuel s

/-- `__remove_games` -/
def removeGames (fuel : ℕ) (free : Bool) (s : Heap G C K) : Option (Heap G C K) :=
  whileM (fun s => s.games.first.isSome)
    (fun s => s.games.first.bind fun game =>
      (removeCheats fuel game free s).bind fun s =>
        (gamesRemove fuel game s).map (freeIf free (.game game)))
    fuel s

/-- `remove_code` -/
def removeCode (fuel : ℕ) (c : C) (code : K) (free : Bool) (s : Heap G C K) :
    Option (Heap G C K) :=
  (codesRemove fuel c code s).map (freeIf free (.code code))

/-- `remove_cheat` -/
def removeCheat (fuel : ℕ) (g : G) (cheat : C) (free : Bool) (s : Heap G C K) :
    Option (Heap G C K) :=
  (removeCodes fuel cheat free s).bind fun s =>
    (cheatsRemove fuel g cheat s).map (freeIf free (.cheat cheat))

/-- `remove_game` -/
def removeGame (fuel : ℕ) (game : G) (free : Bool) (s : Heap G C K) : Option (Heap G C K) :=
  (removeCheats fuel game free s).bind fun s =>
    (gamesRemove fuel game s).map (freeIf free (.game game))

/-- `free_games` -/
def freeGames (fuel : ℕ) (s : Heap G C K) : Option (Heap G C K) := removeGames fuel true s

end

/-! ### What is reachable -/

/-- A cheat with its codes. -/
abbrev CheatTree (C K : Type*) := C × List K

/-- A game with its cheats. -/
abbrev GameTree (G C K : Type*) := G × List (CheatTree C K)

/-- The cheat has these codes. -/
def Heap.CodesOf (s : Heap G C K) (c : C) (ks : List K) : Prop := IsQueue s.codeNext (s.codes c) ks

/-- The game has these cheats, each with its codes. -/
structure Heap.CheatsOf (s : Heap G C K) (g : G) (cs : List (CheatTree C K)) : Prop where
  queue : IsQueue s.cheatNext (s.cheats g) (cs.map Prod.fst)
  codes : ∀ p ∈ cs, s.CodesOf p.1 p.2

/-- The list has these games, each with its cheats. -/
structure Heap.Games (s : Heap G C K) (gs : List (GameTree G C K)) : Prop where
  queue : IsQueue s.gameNext s.games (gs.map Prod.fst)
  cheats : ∀ p ∈ gs, s.CheatsOf p.1 p.2

/-- A cheat and what is below it. -/
def cheatObjects (p : CheatTree C K) : List (Obj G C K) := .cheat p.1 :: p.2.map .code

/-- A game and what is below it. -/
def gameObjects (p : GameTree G C K) : List (Obj G C K) :=
  .game p.1 :: p.2.flatMap cheatObjects

def objects (gs : List (GameTree G C K)) : List (Obj G C K) := gs.flatMap gameObjects

section

variable {s s' : Heap G C K}

/-- Lists of pairs with the same first components, where the second is determined by the first. -/
theorem eq_of_map_fst_eq {α β : Type*} {R : α → β → Prop}
    (hR : ∀ a b b', R a b → R a b' → b = b') {l l' : List (α × β)}
    (hl : ∀ p ∈ l, R p.1 p.2) (hl' : ∀ p ∈ l', R p.1 p.2)
    (h : l.map Prod.fst = l'.map Prod.fst) : l = l' := by
  induction l generalizing l' with
  | nil => exact (List.map_eq_nil_iff.mp h.symm).symm
  | cons p l ih =>
      obtain ⟨q, rest, rfl, hq, hrest⟩ := List.map_eq_cons_iff.mp h.symm
      have hpq : p = q := by
        have hfst : q.1 = p.1 := hq
        refine Prod.ext hfst.symm (hR p.1 _ _ (hl p List.mem_cons_self) ?_)
        rw [← hfst]
        exact hl' q List.mem_cons_self
      rw [hpq, ih (fun p hp => hl p (List.mem_cons_of_mem _ hp))
        (fun p hp => hl' p (List.mem_cons_of_mem _ hp)) hrest.symm]

theorem Heap.CheatsOf.unique {g : G} {cs cs' : List (CheatTree C K)} (h : s.CheatsOf g cs)
    (h' : s.CheatsOf g cs') : cs = cs' :=
  eq_of_map_fst_eq (R := s.CodesOf) (fun _ _ _ => IsQueue.unique) h.codes h'.codes
    (h.queue.unique h'.queue)

theorem Heap.Games.unique {gs gs' : List (GameTree G C K)} (h : s.Games gs)
    (h' : s.Games gs') : gs = gs' :=
  eq_of_map_fst_eq (R := s.CheatsOf) (fun _ _ _ => Heap.CheatsOf.unique) h.cheats h'.cheats
    (h.queue.unique h'.queue)

/-- A cheat list depends on its head and on the fields of its own cheats and codes. -/
theorem Heap.CheatsOf.congr {g : G} {cs : List (CheatTree C K)} (h : s.CheatsOf g cs)
    (hhead : s'.cheats g = s.cheats g)
    (hcheat : ∀ q ∈ cs, s'.cheatNext q.1 = s.cheatNext q.1 ∧ s'.codes q.1 = s.codes q.1)
    (hcode : ∀ q ∈ cs, ∀ k ∈ q.2, s'.codeNext k = s.codeNext k) : s'.CheatsOf g cs := by
  refine ⟨?_, fun q hq => ?_⟩
  · rw [hhead]
    apply h.queue.congr
    intro c hc
    obtain ⟨q, hq, rfl⟩ := List.mem_map.mp hc
    exact (hcheat q hq).1
  · have hcodes : IsQueue s.codeNext (s.codes q.1) q.2 := h.codes q hq
    rw [Heap.CodesOf, (hcheat q hq).2]
    exact hcodes.congr (hcode q hq)

end

/-! ### Distinct objects -/

theorem flatMap_append_cons_perm {α β : Type*} (f : α → List β) (l l' : List α) (a : α) :
    ((l ++ a :: l').flatMap f).Perm (f a ++ (l ++ l').flatMap f) := by
  rw [List.flatMap_append, List.flatMap_cons, List.flatMap_append]
  exact List.perm_append_comm_assoc ..

/-- What is missing in one place is missing in the whole. -/
theorem flatMap_perm_of_perm {α β : Type*} {f : α → List β} {l l' : List α} {a a' : α}
    {os : List β} (h : (f a).Perm (os ++ f a')) :
    ((l ++ a :: l').flatMap f).Perm (os ++ (l ++ a' :: l').flatMap f) := by
  apply (flatMap_append_cons_perm f l l' a).trans
  apply (h.append_right _).trans
  rw [List.append_assoc]
  exact (flatMap_append_cons_perm f l l' a').symm.append_left os

theorem flatMap_sublist_of_sublist {α β : Type*} {f : α → List β} {l l' : List α} {a a' : α}
    (h : (f a').Sublist (f a)) :
    ((l ++ a' :: l').flatMap f).Sublist ((l ++ a :: l').flatMap f) := by
  rw [List.flatMap_append, List.flatMap_cons, List.flatMap_append, List.flatMap_cons]
  exact (h.append_right _).append_left _

theorem mem_append_cons {α : Type*} {l l' : List α} {a b : α} :
    a ∈ l ++ b :: l' ↔ a = b ∨ a ∈ l ++ l' := by
  rw [List.mem_append, List.mem_cons, List.mem_append, or_left_comm]

theorem length_le_length_flatMap {α β : Type*} {f : α → List β} (hf : ∀ a, f a ≠ [])
    (l : List α) : l.length ≤ (l.flatMap f).length := by
  induction l with
  | nil => exact Nat.zero_le _
  | cons a l ih =>
      have hpos := List.length_pos_of_ne_nil (hf a)
      rw [List.flatMap_cons, List.length_append, List.length_cons]
      omega

theorem length_le_length_objects {gs : List (GameTree G C K)}
    {p : GameTree G C K} (hp : p ∈ gs) :
    (gameObjects p).length ≤ (objects gs).length := by
  obtain ⟨l, l', rfl⟩ := List.append_of_mem hp
  rw [objects, (flatMap_append_cons_perm gameObjects l l' p).length_eq, List.length_append]
  exact Nat.le_add_right _ _

theorem length_le_length_gameObjects (p : GameTree G C K) :
    p.2.length < (gameObjects p).length ∧
      ∀ q ∈ p.2, q.2.length < (gameObjects p).length := by
  have hlen := length_le_length_flatMap (f := (cheatObjects : _ → List (Obj G C K)))
    (fun q => List.cons_ne_nil _ _) p.2
  refine ⟨Nat.lt_succ_of_le hlen, fun q hq => ?_⟩
  obtain ⟨m, m', hm⟩ := List.append_of_mem hq
  rw [gameObjects, hm, List.length_cons, (flatMap_append_cons_perm cheatObjects m m' q).length_eq]
  simp [cheatObjects]
  omega

/-- What the loops need is less than the number of all objects. -/
theorem fuel_of_mem {gs : List (GameTree G C K)} {fuel : ℕ}
    (hfuel : (objects gs).length < fuel) {p : GameTree G C K}
    (hp : p ∈ gs) : p.2.length < fuel ∧ ∀ q ∈ p.2, q.2.length < fuel := by
  have hgame := (length_le_length_objects hp).trans_lt hfuel
  have hbelow := length_le_length_gameObjects p
  exact ⟨hbelow.1.trans hgame, fun q hq => (hbelow.2 q hq).trans hgame⟩

/-- Two games that share neither cheats nor codes. -/
structure Apart (p p' : GameTree G C K) : Prop where
  game : p.1 ≠ p'.1
  cheat : ∀ q ∈ p.2, ∀ q' ∈ p'.2, q.1 ≠ q'.1
  code : ∀ q ∈ p.2, ∀ q' ∈ p'.2, ∀ k ∈ q.2, k ∉ q'.2

theorem Apart.symm {p p' : GameTree G C K} (h : Apart p p') : Apart p' p where
  game := h.game.symm
  cheat q hq q' hq' := (h.cheat q' hq' q hq).symm
  code q hq q' hq' k hk hk' := h.code q' hq' q hq k hk' hk

theorem cheat_mem_gameObjects {p : GameTree G C K} {q : CheatTree C K} (hq : q ∈ p.2) :
    (.cheat q.1 : Obj G C K) ∈ gameObjects p :=
  List.mem_cons_of_mem _ (List.mem_flatMap.mpr ⟨q, hq, List.mem_cons_self⟩)

theorem code_mem_gameObjects {p : GameTree G C K} {q : CheatTree C K} {k : K} (hq : q ∈ p.2)
    (hk : k ∈ q.2) : (.code k : Obj G C K) ∈ gameObjects p :=
  List.mem_cons_of_mem _ (List.mem_flatMap.mpr
    ⟨q, hq, List.mem_cons_of_mem _ (List.mem_map_of_mem hk)⟩)

/-- Distinct objects belong to one game only. -/
theorem apart_of_nodup {l l' : List (GameTree G C K)} {p p' : GameTree G C K}
    (hnodup : (objects (l ++ p :: l')).Nodup) (hp' : p' ∈ l ++ l') : Apart p' p := by
  have hdisjoint : List.Disjoint (gameObjects p) (objects (l ++ l')) :=
    List.disjoint_of_nodup_append ((flatMap_append_cons_perm _ l l' p).nodup_iff.mp hnodup)
  have hmem : ∀ o ∈ gameObjects p', o ∈ objects (l ++ l') := fun o ho =>
    List.mem_flatMap.mpr ⟨p', hp', ho⟩
  refine ⟨?_, ?_, ?_⟩
  · intro heq
    exact hdisjoint List.mem_cons_self (heq ▸ hmem _ List.mem_cons_self)
  · intro q hq q' hq' heq
    exact hdisjoint (cheat_mem_gameObjects hq') (heq ▸ hmem _ (cheat_mem_gameObjects hq))
  · intro q hq q' hq' k hk hk'
    exact hdisjoint (code_mem_gameObjects hq' hk') (hmem _ (code_mem_gameObjects hq hk))

/-- Distinct codes belong to one cheat only. -/
theorem codes_apart_of_nodup {l l' : List (GameTree G C K)} {g : G}
    {m m' : List (CheatTree C K)} {q q' : CheatTree C K}
    (hnodup : (objects (l ++ (g, m ++ q :: m') :: l')).Nodup) (hq' : q' ∈ m ++ m') :
    q'.1 ≠ q.1 ∧ ∀ k ∈ q'.2, k ∉ q.2 := by
  have hgame : (gameObjects (g, m ++ q :: m')).Nodup :=
    ((flatMap_append_cons_perm _ l l' _).nodup_iff.mp hnodup).of_append_left
  have hdisjoint : List.Disjoint (cheatObjects (G := G) q) ((m ++ m').flatMap cheatObjects) :=
    List.disjoint_of_nodup_append ((flatMap_append_cons_perm _ m m' q).nodup_iff.mp hgame.of_cons)
  have hmem : ∀ o ∈ cheatObjects q', o ∈ (m ++ m').flatMap (cheatObjects (G := G)) := fun o ho =>
    List.mem_flatMap.mpr ⟨q', hq', ho⟩
  refine ⟨?_, ?_⟩
  · intro heq
    exact hdisjoint List.mem_cons_self (heq ▸ hmem _ List.mem_cons_self)
  · intro k hk hk'
    exact hdisjoint (List.mem_cons_of_mem _ (List.mem_map_of_mem hk'))
      (hmem _ (List.mem_cons_of_mem _ (List.mem_map_of_mem hk)))

/-! ### Emptying lists -/

/-- The objects below a cheat, and the cheat, in the order in which they are freed. -/
def cheatFrees (p : CheatTree C K) : List (Obj G C K) := p.2.map .code ++ [.cheat p.1]

/-- The objects below a game, and the game, in the order in which they are freed. -/
def gameFrees (p : GameTree G C K) : List (Obj G C K) :=
  p.2.flatMap cheatFrees ++ [.game p.1]

theorem cheatFrees_perm (q : CheatTree C K) :
    (cheatFrees q : List (Obj G C K)).Perm (cheatObjects q) :=
  List.perm_append_singleton _ _

theorem gameFrees_perm (p : GameTree G C K) : (gameFrees p).Perm (gameObjects p) :=
  (List.perm_append_singleton _ _).trans
    (List.Perm.cons _ (List.Perm.flatMap_left _ fun q _ => cheatFrees_perm q))

/-- What is passed to `free` in the end. -/
def freedBy (free : Bool) (os : List (Obj G C K)) : List (Obj G C K) := if free then os else []

@[simp]
theorem freedBy_nil (free : Bool) : freedBy free ([] : List (Obj G C K)) = [] := by
  cases free <;> rfl

theorem freedBy_append (free : Bool) (os os' : List (Obj G C K)) :
    freedBy free os ++ freedBy free os' = freedBy free (os ++ os') := by
  cases free <;> rfl

theorem freeIf_eq (free : Bool) (obj : Obj G C K) (s : Heap G C K) :
    freeIf free obj s = { s with freed := s.freed ++ freedBy free [obj] } := by
  cases free <;> simp [freeIf, freedBy]

/-- The lists of the objects in `dom` are empty, the others as before. -/
def cleared {α β : Type*} [DecidableEq α] (dom : List α) (lists : α → QueueHead β) :
    α → QueueHead β :=
  fun a => if a ∈ dom then QueueHead.init else lists a

section

variable {α β : Type*} [DecidableEq α] {dom : List α} {lists : α → QueueHead β} {a : α}

theorem cleared_of_mem (ha : a ∈ dom) : cleared dom lists a = QueueHead.init := if_pos ha

theorem cleared_of_notMem (ha : a ∉ dom) : cleared dom lists a = lists a := if_neg ha

theorem cleared_nil : cleared [] lists = lists := funext fun _ => cleared_of_notMem List.not_mem_nil

theorem update_init (a : α) (lists : α → QueueHead β) :
    Function.update lists a QueueHead.init = cleared [a] lists := by
  funext b
  simp [cleared, Function.update_apply]

theorem cleared_cleared (dom dom' : List α) (lists : α → QueueHead β) :
    cleared dom' (cleared dom lists) = cleared (dom ++ dom') lists := by
  funext b
  simp only [cleared, List.mem_append]
  split_ifs <;> tauto

end

section

variable [DecidableEq G] [DecidableEq C] [DecidableEq K] {s : Heap G C K} (free : Bool)

omit [DecidableEq G] in
/-- The code list becomes empty, and the codes are freed in their order or not at all. -/
theorem removeCodes_eq {c : C} {ks : List K} (h : s.CodesOf c ks) {fuel : ℕ}
    (hfuel : ks.length < fuel) :
    removeCodes fuel c free s = some { s with
      codes := cleared [c] s.codes
      freed := s.freed ++ freedBy free (ks.map .code) } := by
  -- `left` is still to come
  let R (left : List K) (t : Heap G C K) : Prop :=
    ∃ gone head, ks = gone ++ left ∧ IsQueue s.codeNext head left ∧
      t = { s with
        codes := Function.update s.codes c head
        freed := s.freed ++ freedBy free (gone.map .code) }
  have hnil : ∀ t, R [] t → ((t.codes c).first.isSome) = false := by
    rintro t ⟨gone, head, -, hhead, rfl⟩
    simp [hhead.eq_init, QueueHead.init]
  have hcons : ∀ k left t, R (k :: left) t → ((t.codes c).first.isSome) = true ∧
      ∃ t', ((t.codes c).first.bind fun code =>
        (codesRemove fuel c code t).map (freeIf free (.code code))) = some t' ∧ R left t' := by
    rintro k left t ⟨gone, head, hgone, hhead, rfl⟩
    obtain ⟨head', hremove, hrest⟩ := hhead.remove_first
    have hfirst : head.first = some k := hhead.chain.1
    refine ⟨by simp [hfirst], _, ?_, gone ++ [k], head', by simp [hgone], hrest, rfl⟩
    simp [hfirst, codesRemove, hremove, freeIf_eq, freedBy_append]
  have hstart : R ks s := ⟨[], s.codes c, rfl, h, by simp⟩
  obtain ⟨t, hrun, gone, head, hgone, hhead, rfl⟩ := exists_whileM_of_list hnil hcons hstart hfuel
  rw [List.append_nil] at hgone
  rw [removeCodes, hrun, hhead.eq_init, update_init, hgone]

/-- The cheat list becomes empty, and so does the code list of each cheat. -/
theorem removeCheats_eq {g : G} {cs : List (CheatTree C K)} (h : s.CheatsOf g cs) {fuel : ℕ}
    (hfuel : cs.length < fuel) (hcodes : ∀ q ∈ cs, q.2.length < fuel) :
    removeCheats fuel g free s = some { s with
      cheats := cleared [g] s.cheats
      codes := cleared (cs.map Prod.fst) s.codes
      freed := s.freed ++ freedBy free (cs.flatMap cheatFrees) } := by
  have hnodup := h.queue.nodup
  let R (left : List (CheatTree C K)) (t : Heap G C K) : Prop :=
    ∃ gone head, cs = gone ++ left ∧ IsQueue s.cheatNext head (left.map Prod.fst) ∧
      t = { s with
        cheats := Function.update s.cheats g head
        codes := cleared (gone.map Prod.fst) s.codes
        freed := s.freed ++ freedBy free (gone.flatMap cheatFrees) }
  have hnil : ∀ t, R [] t → ((t.cheats g).first.isSome) = false := by
    rintro t ⟨gone, head, -, hhead, rfl⟩
    simp [hhead.eq_init, QueueHead.init]
  have hcons : ∀ q left t, R (q :: left) t → ((t.cheats g).first.isSome) = true ∧
      ∃ t', ((t.cheats g).first.bind fun cheat =>
        (removeCodes fuel cheat free t).bind fun t =>
          (cheatsRemove fuel g cheat t).map (freeIf free (.cheat cheat))) = some t' ∧
        R left t' := by
    rintro q left t ⟨gone, head, hgone, hhead, ht⟩
    obtain ⟨head', hremove, hrest⟩ := hhead.remove_first
    have hfirst : head.first = some q.1 := hhead.chain.1
    have hq : q ∈ cs := by simp [hgone]
    -- the codes of this cheat were not touched before
    have hkeep : q.1 ∉ gone.map Prod.fst := by
      rw [hgone, List.map_append] at hnodup
      exact fun hmem => (List.nodup_append.mp hnodup).2.2 _ hmem q.1 (by simp) rfl
    have hof : t.CodesOf q.1 q.2 := by
      rw [ht]
      show IsQueue s.codeNext (cleared (gone.map Prod.fst) s.codes q.1) q.2
      rw [cleared_of_notMem hkeep]
      exact h.codes q hq
    have hhead' : t.cheats g = head := by rw [ht]; exact Function.update_self ..
    refine ⟨by simp [hhead', hfirst], _, ?_, gone ++ [q], head', by simp [hgone], hrest, rfl⟩
    rw [hhead', hfirst, Option.bind_some, removeCodes_eq free hof (hcodes q hq), ht]
    simp [cheatsRemove, hremove, freeIf_eq, freedBy_append, cleared_cleared, cheatFrees]
  have hstart : R cs s := ⟨[], s.cheats g, rfl, h.queue, by simp [cleared_nil]⟩
  obtain ⟨t, hrun, gone, head, hgone, hhead, rfl⟩ := exists_whileM_of_list hnil hcons hstart hfuel
  rw [List.append_nil] at hgone
  rw [removeCheats, hrun, IsQueue.eq_init hhead, update_init, hgone]

omit [DecidableEq K] in
/-- A game that is apart from the emptied ones keeps its cheats. -/
theorem Heap.CheatsOf.cleared {t : Heap G C K} {p : GameTree G C K}
    (h : s.CheatsOf p.1 p.2) {gone : List (GameTree G C K)} (hapart : ∀ p' ∈ gone, Apart p' p)
    (hcheats : t.cheats = cleared (gone.map Prod.fst) s.cheats)
    (hcodes : t.codes = cleared (gone.flatMap fun p => p.2.map Prod.fst) s.codes)
    (hcheatNext : t.cheatNext = s.cheatNext) (hcodeNext : t.codeNext = s.codeNext) :
    t.CheatsOf p.1 p.2 := by
  apply h.congr
  · rw [hcheats, cleared_of_notMem]
    intro hmem
    obtain ⟨p', hp', heq⟩ := List.mem_map.mp hmem
    exact (hapart p' hp').game heq
  · intro q hq
    refine ⟨by rw [hcheatNext], ?_⟩
    rw [hcodes, cleared_of_notMem]
    intro hmem
    obtain ⟨p', hp', hq'⟩ := List.mem_flatMap.mp hmem
    obtain ⟨q', hq', heq⟩ := List.mem_map.mp hq'
    exact (hapart p' hp').cheat q' hq' q hq heq
  · intro q hq k hk
    rw [hcodeNext]

/-- The game list becomes empty, and so do all lists below it. -/
theorem removeGames_eq {gs : List (GameTree G C K)} (h : s.Games gs)
    (hnodup : (objects gs).Nodup) {fuel : ℕ}
    (hfuel : (objects gs).length < fuel) :
    removeGames fuel free s = some { s with
      games := QueueHead.init
      cheats := cleared (gs.map Prod.fst) s.cheats
      codes := cleared (gs.flatMap fun p => p.2.map Prod.fst) s.codes
      freed := s.freed ++ freedBy free (gs.flatMap gameFrees) } := by
  -- the loop invariant: the games `gone` have been taken off the front
  let R (left : List (GameTree G C K)) (t : Heap G C K) : Prop :=
    ∃ gone head, gs = gone ++ left ∧ IsQueue s.gameNext head (left.map Prod.fst) ∧
      t = { s with
        games := head
        cheats := cleared (gone.map Prod.fst) s.cheats
        codes := cleared (gone.flatMap fun p => p.2.map Prod.fst) s.codes
        freed := s.freed ++ freedBy free (gone.flatMap gameFrees) }
  have hnil : ∀ t, R [] t → t.games.first.isSome = false := by
    rintro t ⟨gone, head, -, hhead, rfl⟩
    simp [hhead.eq_init, QueueHead.init]
  have hcons : ∀ p left t, R (p :: left) t → t.games.first.isSome = true ∧
      ∃ t', (t.games.first.bind fun game =>
        (removeCheats fuel game free t).bind fun t =>
          (gamesRemove fuel game t).map (freeIf free (.game game))) = some t' ∧ R left t' := by
    rintro p left t ⟨gone, head, hgone, hhead, ht⟩
    obtain ⟨head', hremove, hrest⟩ := hhead.remove_first
    have hfirst : head.first = some p.1 := hhead.chain.1
    have hp : p ∈ gs := by simp [hgone]
    have hapart : ∀ p' ∈ gone, Apart p' p := fun p' hp' =>
      apart_of_nodup (hgone ▸ hnodup) (List.mem_append_left _ hp')
    have hof : t.CheatsOf p.1 p.2 :=
      (h.cheats p hp).cleared hapart (by rw [ht]) (by rw [ht]) (by rw [ht]) (by rw [ht])
    have hhead' : t.games = head := by rw [ht]
    obtain ⟨hlen, hcodes⟩ := fuel_of_mem hfuel hp
    refine ⟨by simp [hhead', hfirst], _, ?_, gone ++ [p], head', by simp [hgone], hrest, rfl⟩
    rw [hhead', hfirst, Option.bind_some, removeCheats_eq free hof hlen hcodes, ht]
    simp [gamesRemove, hremove, freeIf_eq, freedBy_append, cleared_cleared, gameFrees]
  have hstart : R gs s := ⟨[], s.games, rfl, h.queue, by simp [cleared_nil]⟩
  have hlen : gs.length < fuel :=
    (length_le_length_flatMap (fun p => List.cons_ne_nil _ _) gs).trans_lt hfuel
  obtain ⟨t, hrun, gone, head, hgone, hhead, rfl⟩ := exists_whileM_of_list hnil hcons hstart hlen
  rw [List.append_nil] at hgone
  rw [removeGames, hrun, IsQueue.eq_init hhead, hgone]

/-! ### Removing one object -/

theorem exists_removeGame {l l' : List (GameTree G C K)} {p : GameTree G C K}
    (h : s.Games (l ++ p :: l')) (hnodup : (objects (l ++ p :: l')).Nodup) :
    ∃ t, (∀ fuel > (objects (l ++ p :: l')).length,
        removeGame fuel p.1 free s = some t) ∧
      t.Games (l ++ l') ∧ t.CheatsOf p.1 [] ∧ t.freed = s.freed ++ freedBy free (gameFrees p) := by
  have hp : p ∈ l ++ p :: l' := mem_append_cons.mpr (.inl rfl)
  have hqueue := h.queue
  rw [List.map_append, List.map_cons] at hqueue
  obtain ⟨head, next, hremove, hrest, -⟩ := hqueue.exists_remove
  refine ⟨{ s with
      games := head
      gameNext := next
      cheats := cleared [p.1] s.cheats
      codes := cleared (p.2.map Prod.fst) s.codes
      freed := s.freed ++ freedBy free (gameFrees p) }, ?_, ⟨?_, ?_⟩, ⟨?_, ?_⟩, rfl⟩
  · intro fuel hfuel
    obtain ⟨hlen, hcodes⟩ := fuel_of_mem hfuel hp
    have hgames : (l.map Prod.fst).length < fuel := by
      have hle := length_le_length_flatMap (fun p => List.cons_ne_nil _ _ : ∀ p, gameObjects p ≠ [])
        (l ++ p :: l')
      rw [List.length_append, List.length_cons] at hle
      rw [List.length_map]
      exact lt_of_le_of_lt (by omega) (hle.trans_lt hfuel)
    rw [removeGame, removeCheats_eq free (h.cheats p hp) hlen hcodes, Option.bind_some, gamesRemove,
      hremove fuel hgames]
    simp [freeIf_eq, freedBy_append, gameFrees]
  · rw [List.map_append]
    exact hrest
  · intro p' hp'
    have hof := h.cheats p' (mem_append_cons.mpr (.inr hp'))
    have hapart : ∀ p₀ ∈ [p], Apart p₀ p' := by
      intro p₀ hp₀
      rw [List.mem_singleton.mp hp₀]
      exact (apart_of_nodup hnodup hp').symm
    exact hof.cleared hapart rfl (by simp) rfl rfl
  · show IsQueue s.cheatNext (cleared [p.1] s.cheats p.1) []
    rw [cleared_of_mem List.mem_cons_self]
    exact isQueue_init _
  · simp

theorem exists_removeCheat {l l' : List (GameTree G C K)} {g : G}
    {m m' : List (CheatTree C K)} {q : CheatTree C K} (h : s.Games (l ++ (g, m ++ q :: m') :: l'))
    (hnodup : (objects (l ++ (g, m ++ q :: m') :: l')).Nodup) :
    ∃ t, (∀ fuel > (objects (l ++ (g, m ++ q :: m') :: l')).length,
        removeCheat fuel g q.1 free s = some t) ∧
      t.Games (l ++ (g, m ++ m') :: l') ∧ t.CodesOf q.1 [] ∧
      t.freed = s.freed ++ freedBy free (cheatFrees q) := by
  have hp : (g, m ++ q :: m') ∈ l ++ (g, m ++ q :: m') :: l' := mem_append_cons.mpr (.inl rfl)
  have hof : s.CheatsOf g (m ++ q :: m') := h.cheats _ hp
  have hqueue := hof.queue
  rw [List.map_append, List.map_cons] at hqueue
  obtain ⟨head, next, hremove, hrest, hnext⟩ := hqueue.exists_remove
  refine ⟨{ s with
      cheats := Function.update s.cheats g head
      cheatNext := next
      codes := cleared [q.1] s.codes
      freed := s.freed ++ freedBy free (cheatFrees q) }, ?_, ⟨?_, ?_⟩, ?_, rfl⟩
  · intro fuel hfuel
    obtain ⟨hlen, hcodes⟩ := fuel_of_mem hfuel hp
    have hq : q ∈ m ++ q :: m' := mem_append_cons.mpr (.inl rfl)
    have hm : (m.map Prod.fst).length < fuel := by
      rw [List.length_append, List.length_cons] at hlen
      rw [List.length_map]
      omega
    rw [removeCheat, removeCodes_eq free (hof.codes q hq) (hcodes q hq), Option.bind_some,
      cheatsRemove, hremove fuel hm]
    simp [freeIf_eq, freedBy_append, cheatFrees]
  · have hgames := h.queue
    rw [List.map_append, List.map_cons] at hgames ⊢
    exact hgames
  · intro p' hp'
    rcases mem_append_cons.mp hp' with rfl | hp'
    · refine ⟨?_, fun q' hq' => ?_⟩
      · show IsQueue next (Function.update s.cheats g head g) ((m ++ m').map Prod.fst)
        rw [Function.update_self, List.map_append]
        exact hrest
      · have hne := (codes_apart_of_nodup hnodup hq').1
        show IsQueue s.codeNext (cleared [q.1] s.codes q'.1) q'.2
        rw [cleared_of_notMem (by simpa using hne)]
        exact hof.codes q' (mem_append_cons.mpr (.inr hq'))
    · -- another game: its cheats and their codes are no part of what was changed
      have hapart := apart_of_nodup hnodup hp'
      apply (h.cheats p' (mem_append_cons.mpr (.inr hp'))).congr
      · exact Function.update_of_ne hapart.game _ _
      · intro q' hq'
        refine ⟨hnext q'.1 fun hmem => ?_, cleared_of_notMem fun hmem => ?_⟩
        · rw [← List.map_cons, ← List.map_append] at hmem
          obtain ⟨q₀, hq₀, heq⟩ := List.mem_map.mp hmem
          exact hapart.cheat q' hq' q₀ hq₀ heq.symm
        · exact hapart.cheat q' hq' q (mem_append_cons.mpr (.inl rfl)) (List.mem_singleton.mp hmem)
      · exact fun _ _ _ _ => rfl
  · show IsQueue s.codeNext (cleared [q.1] s.codes q.1) []
    rw [cleared_of_mem List.mem_cons_self]
    exact isQueue_init _

omit [DecidableEq G] in
theorem exists_removeCode {l l' : List (GameTree G C K)} {g : G}
    {m m' : List (CheatTree C K)} {c : C} {n n' : List K} {k : K}
    (h : s.Games (l ++ (g, m ++ (c, n ++ k :: n') :: m') :: l'))
    (hnodup : (objects (l ++ (g, m ++ (c, n ++ k :: n') :: m') :: l')).Nodup) :
    ∃ t, (∀ fuel > (objects (l ++ (g, m ++ (c, n ++ k :: n') :: m') :: l')).length,
        removeCode fuel c k free s = some t) ∧
      t.Games (l ++ (g, m ++ (c, n ++ n') :: m') :: l') ∧
      t.freed = s.freed ++ freedBy free [.code k] := by
  have hp : (g, m ++ (c, n ++ k :: n') :: m') ∈ l ++ (g, m ++ (c, n ++ k :: n') :: m') :: l' :=
    mem_append_cons.mpr (.inl rfl)
  have hq : (c, n ++ k :: n') ∈ m ++ (c, n ++ k :: n') :: m' := mem_append_cons.mpr (.inl rfl)
  have hof : s.CheatsOf g (m ++ (c, n ++ k :: n') :: m') := h.cheats _ hp
  obtain ⟨head, next, hremove, hrest, hnext⟩ := IsQueue.exists_remove (hof.codes _ hq)
  refine ⟨{ s with
      codes := Function.update s.codes c head
      codeNext := next
      freed := s.freed ++ freedBy free [.code k] }, ?_, ⟨?_, ?_⟩, rfl⟩
  · intro fuel hfuel
    have hcodes := (fuel_of_mem hfuel hp).2 _ hq
    have hn : n.length < fuel := by
      rw [List.length_append] at hcodes
      omega
    rw [removeCode, codesRemove, hremove fuel hn]
    simp [freeIf_eq]
  · have hgames := h.queue
    rw [List.map_append, List.map_cons] at hgames ⊢
    exact hgames
  · intro p' hp'
    rcases mem_append_cons.mp hp' with rfl | hp'
    · refine ⟨?_, fun q' hq' => ?_⟩
      · have hcheats := hof.queue
        rw [List.map_append, List.map_cons] at hcheats ⊢
        exact hcheats
      · rcases mem_append_cons.mp hq' with rfl | hq'
        · show IsQueue next (Function.update s.codes c head c) (n ++ n')
          rw [Function.update_self]
          exact hrest
        · obtain ⟨hne, hcodes⟩ := codes_apart_of_nodup hnodup hq'
          show IsQueue next (Function.update s.codes c head q'.1) q'.2
          rw [Function.update_of_ne hne]
          have hold := hof.codes q' (mem_append_cons.mpr (.inr hq'))
          exact IsQueue.congr hold fun k' hk' => hnext k' (hcodes k' hk')
    · -- another game: it has neither the cheat nor any code of that queue
      have hapart := apart_of_nodup hnodup hp'
      apply (h.cheats p' (mem_append_cons.mpr (.inr hp'))).congr
      · rfl
      · intro q' hq'
        exact ⟨rfl, Function.update_of_ne (hapart.cheat q' hq' _ hq) _ _⟩
      · intro q' hq' k' hk'
        exact hnext k' (hapart.code q' hq' _ hq k' hk')

end

/-! ### Nothing is lost -/

/-- A call of `remove_game`, `remove_cheat` or `remove_code`. -/
inductive Call (G C K : Type*)
  | game (g : G)
  | cheat (g : G) (c : C)
  | code (c : C) (k : K)

namespace Call

/-- The object that is to be removed is in the list that is given. -/
def Member (gs : List (GameTree G C K)) : Call G C K → Prop
  | game g => ∃ cs, (g, cs) ∈ gs
  | cheat g c => ∃ cs ks, (g, cs) ∈ gs ∧ (c, ks) ∈ cs
  | code c k => ∃ g cs ks, (g, cs) ∈ gs ∧ (c, ks) ∈ cs ∧ k ∈ ks

/-- There is nothing below the object that is to be removed. -/
def Bare (gs : List (GameTree G C K)) : Call G C K → Prop
  | game g => ∀ cs, (g, cs) ∈ gs → cs = []
  | cheat g c => ∀ cs ks, (g, cs) ∈ gs → (c, ks) ∈ cs → ks = []
  | code _ _ => True

/-- The removed object and what is reachable from it. -/
def Reaches (s : Heap G C K) : Call G C K → List (Obj G C K) → Prop
  | game g, os => ∃ cs, s.CheatsOf g cs ∧ os = gameObjects (g, cs)
  | cheat _ c, os => ∃ ks, s.CodesOf c ks ∧ os = cheatObjects (c, ks)
  | code _ k, os => os = [.code k]

theorem Reaches.unique {s : Heap G C K} {call : Call G C K} {os os' : List (Obj G C K)}
    (h : call.Reaches s os) (h' : call.Reaches s os') : os = os' := by
  cases call with
  | game g =>
      obtain ⟨cs, hcs, rfl⟩ := h
      obtain ⟨cs', hcs', rfl⟩ := h'
      rw [hcs.unique hcs']
  | cheat g c =>
      obtain ⟨ks, hks, rfl⟩ := h
      obtain ⟨ks', hks', rfl⟩ := h'
      rw [IsQueue.unique hks hks']
  | code c k => exact Eq.trans h (Eq.symm h')

variable [DecidableEq G] [DecidableEq C] [DecidableEq K]

def run (fuel : ℕ) (free : Bool) : Call G C K → Heap G C K → Option (Heap G C K)
  | game g => removeGame fuel g free
  | cheat g c => removeCheat fuel g c free
  | code c k => removeCode fuel c k free

end Call

/-- The objects of `gs` after a call: those that are still in the list, in the same order,
those that were freed, and with `_free` = 0 those that are reachable from the removed object. -/
structure NothingLost (s t : Heap G C K) (gs : List (GameTree G C K)) (call : Call G C K)
    (free : Bool) (gs' : List (GameTree G C K)) (freed kept : List (Obj G C K)) : Prop where
  games : t.Games gs'
  order : (objects gs').Sublist (objects gs)
  frees : t.freed = s.freed ++ freed
  keeps : if free then kept = [] else call.Reaches t kept
  each : (objects gs' ++ freed ++ kept).Perm (objects gs)

section

variable [DecidableEq G] [DecidableEq C] [DecidableEq K]

/-- The call returns, and each object that was reachable is accounted for once. -/
def Removes (s : Heap G C K) (gs : List (GameTree G C K)) (call : Call G C K) (free : Bool) :
    Prop :=
  ∃ t, (∀ fuel > (objects gs).length, call.run fuel free s = some t) ∧
    ∃ gs' freed kept, NothingLost s t gs call free gs' freed kept

/-- `free_games` returns, has freed each object once, and leaves an empty list, to which games can
be added again. -/
def FreesAll (s : Heap G C K) (gs : List (GameTree G C K)) : Prop :=
  ∃ t, (∀ fuel > (objects gs).length, freeGames fuel s = some t) ∧
    (∃ freed, t.freed = s.freed ++ freed ∧ freed.Perm (objects gs)) ∧
    t.Games [] ∧ ∀ g cs, t.CheatsOf g cs → (gamesInsertTail g t).Games [(g, cs)]

variable {s t : Heap G C K} {gs gs' : List (GameTree G C K)} {call : Call G C K}

/-- What a call does: the tree below `root` leaves the list, and with `_free` = 0 nothing is
left below `root`. -/
structure Effect (s t : Heap G C K) (gs gs' : List (GameTree G C K)) (call : Call G C K)
    (free : Bool) (root : Obj G C K) (below : List (Obj G C K)) : Prop where
  run : ∀ fuel > (objects gs).length, call.run fuel free s = some t
  games : t.Games gs'
  order : (objects gs').Sublist (objects gs)
  perm : (objects gs).Perm (root :: below ++ objects gs')
  reaches : call.Reaches t [root]
  freed : ∃ os, t.freed = s.freed ++ freedBy free os ∧ os.Perm (root :: below)
  bare : call.Bare gs ↔ below = []

theorem exists_effect (free : Bool) (h : s.Games gs) (hnodup : (objects gs).Nodup)
    (hcall : call.Member gs) : ∃ t gs' root below, Effect s t gs gs' call free root below := by
  cases call with
  | game g =>
      obtain ⟨cs, hcs⟩ := hcall
      -- all that hangs on the game is what its queue shows, and that is unique
      have hbare : (Call.game g).Bare gs ↔ cs.flatMap (cheatObjects (G := G)) = [] := by
        rw [List.flatMap_eq_nil_iff]
        constructor
        · intro hbare q hq
          exact absurd (hbare cs hcs ▸ hq) List.not_mem_nil
        · intro hnil cs' hcs'
          have hof : s.CheatsOf g cs := h.cheats _ hcs
          have hof' : s.CheatsOf g cs' := h.cheats _ hcs'
          rw [hof'.unique hof]
          exact List.eq_nil_iff_forall_not_mem.mpr fun q hq => List.cons_ne_nil _ _ (hnil q hq)
      obtain ⟨l, l', rfl⟩ := List.append_of_mem hcs
      obtain ⟨t, hrun, hgames, hof, hfreed⟩ := exists_removeGame free h hnodup
      exact ⟨t, l ++ l', .game g, cs.flatMap cheatObjects, hrun, hgames,
        ((List.sublist_cons_self _ l').append_left l).flatMap _,
        flatMap_append_cons_perm gameObjects l l' (g, cs), ⟨[], hof, rfl⟩,
        ⟨_, hfreed, gameFrees_perm _⟩, hbare⟩
  | cheat g c =>
      obtain ⟨cs, ks, hcs, hks⟩ := hcall
      have hbare : (Call.cheat g c).Bare gs ↔ ks.map (Obj.code (G := G) (C := C)) = [] := by
        rw [List.map_eq_nil_iff]
        constructor
        · exact fun hbare => hbare cs ks hcs hks
        · intro hnil cs' ks' hcs' hks'
          have hof := (h.cheats _ hcs').codes _ hks'
          rw [← hnil]
          exact IsQueue.unique hof ((h.cheats _ hcs).codes _ hks)
      obtain ⟨l, l', rfl⟩ := List.append_of_mem hcs
      obtain ⟨m, m', rfl⟩ := List.append_of_mem hks
      obtain ⟨t, hrun, hgames, hof, hfreed⟩ := exists_removeCheat free h hnodup
      have hperm : (gameObjects (g, m ++ (c, ks) :: m')).Perm
          (cheatObjects (c, ks) ++ gameObjects (g, m ++ m')) :=
        ((flatMap_append_cons_perm _ m m' (c, ks)).cons _).trans List.perm_middle.symm
      have hsub : (gameObjects (g, m ++ m')).Sublist (gameObjects (g, m ++ (c, ks) :: m')) :=
        (((List.sublist_cons_self _ m').append_left m).flatMap _).cons_cons _
      exact ⟨t, l ++ (g, m ++ m') :: l', .cheat c, ks.map .code, hrun, hgames,
        flatMap_sublist_of_sublist hsub, flatMap_perm_of_perm hperm, ⟨[], hof, rfl⟩,
        ⟨_, hfreed, cheatFrees_perm _⟩, hbare⟩
  -- nothing hangs on a code; the lists differ only in that one object
  | code c k =>
      obtain ⟨g, cs, ks, hcs, hks, hk⟩ := hcall
      obtain ⟨l, l', rfl⟩ := List.append_of_mem hcs
      obtain ⟨m, m', rfl⟩ := List.append_of_mem hks
      obtain ⟨n, n', rfl⟩ := List.append_of_mem hk
      obtain ⟨t, hrun, hgames, hfreed⟩ := exists_removeCode free h hnodup
      have hcheat : (cheatObjects (G := G) (c, n ++ k :: n')).Perm
          ([.code k] ++ cheatObjects (c, n ++ n')) := by
        have hcodes : ((n ++ k :: n').map (Obj.code (G := G) (C := C))).Perm
            (.code k :: (n ++ n').map .code) := by
          rw [List.map_append, List.map_cons, List.map_append]
          exact List.perm_middle
        exact (hcodes.cons _).trans (List.Perm.swap ..)
      have hsubcheat : (cheatObjects (G := G) (c, n ++ n')).Sublist
          (cheatObjects (c, n ++ k :: n')) :=
        (((List.sublist_cons_self _ n').append_left n).map _).cons_cons _
      have hperm : (gameObjects (g, m ++ (c, n ++ k :: n') :: m')).Perm
          ([.code k] ++ gameObjects (g, m ++ (c, n ++ n') :: m')) :=
        ((flatMap_perm_of_perm hcheat).cons _).trans List.perm_middle.symm
      have hsub : (gameObjects (g, m ++ (c, n ++ n') :: m')).Sublist
          (gameObjects (g, m ++ (c, n ++ k :: n') :: m')) :=
        (flatMap_sublist_of_sublist hsubcheat).cons_cons _
      exact ⟨t, l ++ (g, m ++ (c, n ++ n') :: m') :: l', .code k, [], hrun, hgames,
        flatMap_sublist_of_sublist hsub, flatMap_perm_of_perm hperm, rfl, ⟨_, hfreed, .refl _⟩,
        by simp [Call.Bare]⟩

/-- What is below the removed object is freed with it or lost. -/
theorem Effect.removes_iff_bare {free : Bool} {root : Obj G C K} {below : List (Obj G C K)}
    (h : Effect s t gs gs' call free root below) :
    Removes s gs call free ↔ free = true ∨ call.Bare gs := by
  obtain ⟨os, hfreed, hos⟩ := h.freed
  constructor
  · rintro ⟨t', hrun, gs₁, freed, kept, hlost⟩
    cases free with
    | true => exact .inl rfl
    | false =>
        right
        obtain rfl : t = t' :=
          Option.some.inj ((h.run _ (Nat.lt_succ_self _)).symm.trans (hrun _ (Nat.lt_succ_self _)))
        have hgames : gs₁ = gs' := hlost.games.unique h.games
        have hkept : kept = [root] := Call.Reaches.unique hlost.keeps h.reaches
        have hnone : freed = [] := List.append_cancel_left (hlost.frees.symm.trans hfreed)
        -- one object is kept of a tree with `below` more
        have hlen := (hlost.each.trans h.perm).length_eq
        rw [hgames, hkept, hnone] at hlen
        simp only [List.length_append, List.length_cons, List.length_nil] at hlen
        rw [h.bare]
        exact List.eq_nil_of_length_eq_zero (by omega)
  · intro hcond
    refine ⟨t, h.run, gs', ?_⟩
    cases free with
    | true =>
        refine ⟨os, [], h.games, h.order, hfreed, rfl, ?_⟩
        rw [List.append_nil]
        exact (hos.append_left _).trans (List.perm_append_comm.trans h.perm.symm)
    | false =>
        have hbelow : below = [] := h.bare.mp (hcond.resolve_left Bool.false_ne_true)
        refine ⟨[], [root], h.games, h.order, hfreed, h.reaches, ?_⟩
        rw [List.append_nil]
        exact List.perm_append_comm.trans (hbelow ▸ h.perm).symm

theorem freesAll (h : s.Games gs) (hnodup : (objects gs).Nodup) : FreesAll s gs := by
  refine ⟨_, fun fuel hfuel => removeGames_eq true h hnodup hfuel, ⟨gs.flatMap gameFrees, rfl, ?_⟩,
    ⟨isQueue_init _, by simp⟩, ?_⟩
  · exact List.Perm.flatMap_left _ fun p _ => gameFrees_perm p
  · intro g cs hof
    refine ⟨(isQueue_init _).insertTail_append List.not_mem_nil, fun p hp => ?_⟩
    rw [List.mem_singleton.mp hp]
    exact ⟨hof.queue, hof.codes⟩

/-- Nothing is lost if the removed object is freed or has nothing below it, and only then.
`free_games` loses nothing. -/
theorem removes_iff (s : Heap G C K) (gs : List (GameTree G C K)) (hs : s.Games gs)
    (hnodup : (objects gs).Nodup) :
    (∀ call : Call G C K, call.Member gs → ∀ free,
      (Removes s gs call free ↔ free = true ∨ call.Bare gs)) ∧ FreesAll s gs := by
  refine ⟨fun call hcall free => ?_, freesAll hs hnodup⟩
  obtain ⟨t, gs', root, below, heffect⟩ := exists_effect free hs hnodup hcall
  exact heffect.removes_iff_bare

/-- Two games, the first one with two cheats of two codes and one, the second one with a cheat
without codes. -/
def twoGames : List (GameTree ℕ ℕ ℕ) := [(0, [(0, [0, 1]), (1, [2])]), (1, [(2, [])])]

def twoGamesHeap : Heap ℕ ℕ ℕ where
  games := ⟨some 0, some 1⟩
  gameNext g := if g = 0 then some 1 else none
  cheats g := if g = 0 then ⟨some 0, some 1⟩ else ⟨some 2, some 2⟩
  cheatNext c := if c = 0 then some 1 else none
  codes c := if c = 0 then ⟨some 0, some 1⟩ else if c = 1 then ⟨some 2, some 2⟩ else ⟨none, none⟩
  codeNext k := if k = 0 then some 1 else none
  freed := []

theorem twoGamesHeap_games : twoGamesHeap.Games twoGames := by
  refine ⟨⟨⟨rfl, rfl, rfl⟩, rfl⟩, fun p hp => ?_⟩
  simp only [twoGames, List.mem_cons, List.not_mem_nil, or_false] at hp
  rcases hp with rfl | rfl
  · refine ⟨⟨⟨rfl, rfl, rfl⟩, rfl⟩, fun q hq => ?_⟩
    simp only [List.mem_cons, List.not_mem_nil, or_false] at hq
    rcases hq with rfl | rfl
    · exact ⟨⟨rfl, rfl, rfl⟩, rfl⟩
    · exact ⟨⟨rfl, rfl⟩, rfl⟩
  · refine ⟨⟨⟨rfl, rfl⟩, rfl⟩, fun q hq => ?_⟩
    obtain rfl := List.mem_singleton.mp hq
    exact ⟨rfl, rfl⟩

/-- The first cheat can be removed only with its codes; a code between others, and the cheat
without codes, can be removed alone. -/
theorem removes_iff_twoGames :
    Removes twoGamesHeap twoGames (.cheat 0 0) true ∧
      ¬ Removes twoGamesHeap twoGames (.cheat 0 0) false ∧
      Removes twoGamesHeap twoGames (.cheat 1 2) false ∧
      Removes twoGamesHeap twoGames (.code 0 1) false ∧ FreesAll twoGamesHeap twoGames := by
  obtain ⟨hiff, hall⟩ := removes_iff twoGamesHeap twoGames twoGamesHeap_games (by decide)
  have hfirst : (Call.cheat 0 0 : Call ℕ ℕ ℕ).Member twoGames :=
    ⟨_, _, List.mem_cons_self, List.mem_cons_self⟩
  have hlast : (Call.cheat 1 2 : Call ℕ ℕ ℕ).Member twoGames :=
    ⟨_, _, List.mem_cons_of_mem _ List.mem_cons_self, List.mem_cons_self⟩
  have hcode : (Call.code 0 1 : Call ℕ ℕ ℕ).Member twoGames :=
    ⟨_, _, _, List.mem_cons_self, List.mem_cons_self, List.mem_cons_of_mem _ List.mem_cons_self⟩
  refine ⟨(hiff _ hfirst true).mpr (.inl rfl), ?_, (hiff _ hlast false).mpr (.inr ?_),
    (hiff _ hcode false).mpr (.inr trivial), hall⟩
  · rw [hiff _ hfirst false]
    rintro (hfree | hbare)
    · cases hfree
    · cases hbare _ _ List.mem_cons_self List.mem_cons_self
  · intro cs ks hcs hks
    simp only [twoGames, List.mem_cons, List.not_mem_nil, or_false, Prod.mk.injEq] at hcs
    rcases hcs with ⟨hone, -⟩ | ⟨-, rfl⟩
    · cases hone
    · obtain ⟨-, rfl⟩ := Prod.mk.inj (List.mem_singleton.mp hks)
      rfl

/-- One game with one cheat of one code. -/
def sampleHeap : Heap ℕ ℕ ℕ where
  games := ⟨some 0, some 0⟩
  gameNext _ := none
  cheats _ := ⟨some 0, some 0⟩
  cheatNext _ := none
  codes _ := ⟨some 0, some 0⟩
  codeNext _ := none
  freed := []

theorem sampleHeap_games : sampleHeap.Games [(0, [(0, [0])])] := by
  refine ⟨⟨⟨rfl, rfl⟩, rfl⟩, fun p hp => ?_⟩
  cases List.mem_singleton.mp hp
  refine ⟨⟨⟨rfl, rfl⟩, rfl⟩, fun q hq => ?_⟩
  cases List.mem_singleton.mp hq
  exact ⟨⟨rfl, rfl⟩, rfl⟩

/-- The removed game has lost its cheat, and the cheat its code. -/
theorem not_removes_sample : ¬ Removes sampleHeap [(0, [(0, [0])])] (.game 0) false := by
  obtain ⟨t, gs', root, below, heffect⟩ := exists_effect false sampleHeap_games (by decide)
    (show (Call.game 0 : Call ℕ ℕ ℕ).Member [(0, [(0, [0])])] from ⟨_, List.mem_cons_self⟩)
  rw [heffect.removes_iff_bare]
  rintro (hfree | hbare)
  · cases hfree
  · cases hbare _ List.mem_cons_self

end

end Ps2rd.Cheats
