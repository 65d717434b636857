import Ps2rd.Engine.Rewriting

/-!
# The code list from frame to frame

`CodeHandler` is called once per frame, and the lines that `type_e` rewrites stay
rewritten.  A call on the list as the earlier frames have left it is compared here
with a call on the list that the loader has made.

They do not always leave the same memory.  A line may be reached as an E code in
one frame and be the second line of a two-line code in the next, when a condition
before it has become true.  `invisible_of_unchanged` says that this is the only
way: the rewriting cannot be seen by a call in which nothing but `ch_loop` reads a
line that has been rewritten.
-/

namespace Ps2rd.Engine

open Mips

/-- The call returns and leaves the memory `m`. -/
def Placement.Returns (p : Placement) (c : Core) (m : Mem) : Prop :=
  ∃ s, p.During c s ∧ AtReturn s ∧ s.core.mem = m

/-- No code writes to the engine's memory during the call. -/
def Placement.Harmless (p : Placement) (c : Core) : Prop :=
  ∀ s, p.During c s → StoresOutside p s

/-- The memory in which the call of frame `k` starts.  Between two calls the game
may change all memory but the engine's. -/
inductive Frames (p : Placement) (m₀ : Mem) : ℕ → Mem → Prop
  | first {m : Mem} (hown : ∀ b, p.own b → m b = m₀ b) : Frames p m₀ 0 m
  | next {k : ℕ} {c : Core} {m m' : Mem} (hk : Frames p m₀ k c.mem) (hharmless : p.Harmless c)
      (hreturns : p.Returns c m) (hown : ∀ b, p.own b → m' b = m b) : Frames p m₀ (k + 1) m'

/-- The byte belongs to a line that has been rewritten. -/
def Placement.Changed (p : Placement) (codes : List Line) (m₀ m : Mem) (b : Word) : Prop :=
  p.InList codes b ∧ m b ≠ m₀ b

/-- The call leaves the memory, outside of the list, that a call on the original
list leaves which starts in the same memory otherwise. -/
def Placement.Invisible (p : Placement) (codes : List Line) (m₀ : Mem) (c : Core) : Prop :=
  ∀ c' : Core, (∀ b, p.own b → c'.mem b = m₀ b) → (∀ b, ¬ p.own b → c'.mem b = c.mem b) →
    (∀ m, p.Returns c m → ∃ m', p.Returns c' m' ∧ ∀ b, ¬ p.InList codes b → m b = m' b) ∧
    ∀ m', p.Returns c' m' → ∃ m, p.Returns c m ∧ ∀ b, ¬ p.InList codes b → m b = m' b

section Frames

variable {p : Linked} {codes : List Line} {m₀ m m' : Mem} {D : Word → Prop} {c c' : Core}

/-! ### One call -/

theorem returns_of_sameMem (hs : Setting p codes m₀ D)
    (hmem : SameMem p.toPlacement codes m₀ D c.mem c'.mem) (hharmless : p.Harmless c)
    (hreads : ∀ s, p.During c s → ReadsUnchanged p.toPlacement D s) (h : p.Returns c m) :
    ∃ m', p.Returns c' m' ∧ SameMem p.toPlacement codes m₀ D m m' := by
  obtain ⟨t, hup, hret, rfl⟩ := h
  obtain ⟨t', hup', hret', -, hside⟩ :=
    (side_diagram hs c hharmless hreads).ends ⟨.here, .entry hmem⟩ hup hret
  exact ⟨t'.core.mem, ⟨t', hup', hret', rfl⟩, hside.mem⟩

theorem returns_of_sameMem_right (hs : Setting p codes m₀ D)
    (hmem : SameMem p.toPlacement codes m₀ D c.mem c'.mem) (hharmless : p.Harmless c)
    (hreads : ∀ s, p.During c s → ReadsUnchanged p.toPlacement D s) (h : p.Returns c' m') :
    ∃ m, p.Returns c m ∧ SameMem p.toPlacement codes m₀ D m m' := by
  obtain ⟨t', hup', hret', rfl⟩ := h
  obtain ⟨t, hup, hret, -, hside⟩ :=
    (side_diagram hs c hharmless hreads).symm.ends ⟨.here, .entry hmem⟩ hup' hret'
  exact ⟨t.core.mem, ⟨t, hup, hret, rfl⟩, hside.mem⟩

/-! ### From frame to frame -/

/-- The engine's memory is as the loader has left it, but for rewritten lines. -/
structure Kept (p : Placement) (codes : List Line) (m₀ m : Mem) : Prop where
  lines : ∀ i (hi : i < codes.length), lineIn m (p.lineAt i) = codes[i] ∨
    codes[i].type = 14 ∧ lineIn m (p.lineAt i) = rewritten codes[i]
  own : ∀ b, p.own b → ¬ p.InList codes b → m b = m₀ b

theorem SameMem.kept (h : SameMem p.toPlacement codes m₀ D m m') :
    Kept p.toPlacement codes m₀ m := by
  refine ⟨fun i hi => ?_, h.own⟩
  have hline := h.lines i hi
  generalize lineIn m (p.lineAt i) = x at hline ⊢
  generalize lineIn m' (p.lineAt i) = y at hline
  cases hline with
  | original => exact .inl rfl
  | rewritten htype => exact .inr ⟨htype, rfl⟩
  | first htype => exact .inr ⟨htype, rfl⟩

/-- A call compared with itself. -/
theorem Kept.sameMem_self (h : Kept p.toPlacement codes m₀ m) :
    SameMem p.toPlacement codes m₀ (fun _ => False) m m := by
  refine ⟨fun _ _ => rfl, fun i hi => ?_, h.own⟩
  rcases h.lines i hi with hline | ⟨htype, hline⟩
  · rw [hline]
    exact .original
  · rw [hline]
    exact .rewritten htype

theorem lineIn_of_own (hs : Setting p codes m₀ D) (hown : ∀ b, p.own b → m b = m₀ b) {i : ℕ}
    (hi : i < codes.length) : lineIn m (p.lineAt i) = codes[i] := by
  rw [← hs.loaded.list.lineIn hi]
  exact lineIn_congr fun b hb => hown b (hs.own_of_inList (hs.inList hi hb))

theorem Kept.of_own (hs : Setting p codes m₀ D) (hown : ∀ b, p.own b → m b = m₀ b) :
    Kept p.toPlacement codes m₀ m :=
  ⟨fun _ hi => .inl (lineIn_of_own hs hown hi), fun b hb _ => hown b hb⟩

theorem Kept.congr (hs : Setting p codes m₀ D) (h : Kept p.toPlacement codes m₀ m)
    (hown : ∀ b, p.own b → m' b = m b) : Kept p.toPlacement codes m₀ m' := by
  refine ⟨fun i hi => ?_, fun b hb hlist => ?_⟩
  · rw [lineIn_congr fun b hb => hown b (hs.own_of_inList (hs.inList hi hb))]
    exact h.lines i hi
  · rw [hown b hb]
    exact h.own b hb hlist

/-- A call compared with one on the original list. -/
theorem Kept.sameMem_original (hs : Setting p codes m₀ D) (h : Kept p.toPlacement codes m₀ m)
    (hown : ∀ b, p.own b → m' b = m₀ b) (hrest : ∀ b, ¬ p.own b → m' b = m b) :
    SameMem p.toPlacement codes m₀ (p.Changed codes m₀ m) m m' := by
  refine ⟨fun b hb => ?_, fun i hi => ?_, h.own⟩
  · by_cases hb' : p.own b
    · rw [hown b hb']
      by_cases hlist : p.InList codes b
      · by_contra hne
        exact hb ⟨hlist, hne⟩
      · exact h.own b hb' hlist
    · exact (hrest b hb').symm
  · rw [lineIn_of_own hs hown hi]
    rcases h.lines i hi with hline | ⟨htype, hline⟩
    · rw [hline]
      exact .original
    · rw [hline]
      exact .first htype

theorem Frames.kept (hloaded : Loaded p.toPlacement codes m₀) (hlen : codes.length ≤ maxcodes)
    {k : ℕ} (h : Frames p.toPlacement m₀ k m) : Kept p.toPlacement codes m₀ m := by
  have hs : Setting p codes m₀ fun _ => False := ⟨hloaded, hlen, fun _ => False.elim⟩
  induction h with
  | first hown => exact .of_own hs hown
  | next _ hharmless hreturns hown ih =>
      obtain ⟨m', -, hmem⟩ := returns_of_sameMem hs ih.sameMem_self hharmless
        (fun _ _ _ _ _ _ _ _ _ => id) hreturns
      exact hmem.kept.congr hs hown

/-- The rewriting of E codes in earlier frames cannot be seen by a call in which
nothing but the fetch of a line in `ch_loop` reads a rewritten line. -/
theorem invisible_of_unchanged (p : Linked) (codes : List Line) (m₀ : Mem)
    (hloaded : Loaded p.toPlacement codes m₀) (hlen : codes.length ≤ maxcodes) (k : ℕ) (c : Core)
    (hframes : Frames p.toPlacement m₀ k c.mem) (hharmless : p.Harmless c)
    (hreads : ∀ s, p.During c s →
      ReadsUnchanged p.toPlacement (p.Changed codes m₀ c.mem) s) :
    p.Invisible codes m₀ c := by
  have hs : Setting p codes m₀ (p.Changed codes m₀ c.mem) := ⟨hloaded, hlen, fun _ h => h.1⟩
  intro c' hown hrest
  have hmem := (hframes.kept hloaded hlen).sameMem_original hs hown hrest
  have hagree : ∀ {m m' : Mem},
      SameMem p.toPlacement codes m₀ (p.Changed codes m₀ c.mem) m m' →
      ∀ b, ¬ p.InList codes b → m b = m' b :=
    fun h b hb => h.same b fun hchanged => hb hchanged.1
  refine ⟨fun m hm => ?_, fun m' hm' => ?_⟩
  · obtain ⟨m', hm', hsame⟩ := returns_of_sameMem hs hmem hharmless hreads hm
    exact ⟨m', hm', hagree hsame⟩
  · obtain ⟨m, hm, hsame⟩ := returns_of_sameMem_right hs hmem hharmless hreads hm'
    exact ⟨m, hm, hagree hsame⟩

end Frames

/-! ### Two frames of a game -/

instance : DecidablePred AtReturn := fun s =>
  match h : s.pc with
  | .out a => isFalse fun heq => by cases h.symm.trans heq
  | .block l rest =>
      decidable_of_iff (l = .chRet ∧ rest = codeHandler.code .chRet) (by
        rw [AtReturn, h, Program.start, Loc.block.injEq])

def sampleLinked : Linked where
  toPlacement := samplePlacement
  apart := by
    intro a h h'
    have ha := a.isLt
    change InRange (sampleSym .numcodes) 4 a at h
    change InRange (sampleSym .codelist) (8 * maxcodes) a at h'
    unfold InRange sampleSym at h h'
    rw [BitVec.toNat_sub] at h h'
    simp only [BitVec.reduceToNat, maxcodes] at h h'
    omega

/-- A condition, a serial write, and a second line for it that looks like an E code. -/
def framedCodes : List Line :=
  [⟨0xd0100000, 0x00000001⟩, ⟨0x40100010, 0x00010001⟩, ⟨0xe0010000, 0x00100020⟩]

def framedMem : Mem :=
  placeWords (placeWords (placeWords (fun _ => 0) (sampleSym .numcodes) [3])
    (sampleSym .typeTab) ((List.range 16).map samplePlacement.tableWord))
    (sampleSym .codelist) (framedCodes.flatMap fun line => [line.addr, line.val])

theorem loaded_framedMem : Loaded sampleLinked.toPlacement framedCodes framedMem :=
  ⟨by decide, by decide,
    ⟨by decide, by decide, by decide, by decide, by decide, by decide, trivial⟩⟩

/-- The codes of the sample write above the engine. -/
def StoresHigh (s : State Label Sym) : Prop :=
  ∀ o ∈ s.executes, storesLine o = false → ∀ x ∈ o.stores s.core,
    0x90000 ≤ x.addr.toNat ∧ x.addr.toNat + x.size ≤ 2 ^ 32

instance : DecidablePred StoresHigh := fun s =>
  inferInstanceAs (Decidable (∀ o ∈ s.executes, storesLine o = false → ∀ x ∈ o.stores s.core,
    0x90000 ≤ x.addr.toNat ∧ x.addr.toNat + x.size ≤ 2 ^ 32))

theorem StoresHigh.storesOutside {s : State Label Sym} (h : StoresHigh s) :
    StoresOutside sampleLinked.toPlacement s := by
  intro o ho hline x hx b hb
  obtain ⟨hlow, hhigh⟩ := h o ho hline x hx
  exact free_sampleOwn hlow hhigh b hb

/-- The call in memory `m`, followed to its end. -/
def sampleCall (m : Mem) : Option (State Label Sym) :=
  codeHandler.follow samplePlacement.toLayout AtReturn StoresHigh 100
    ⟨⟨fun _ => 0, m⟩, codeHandler.start .codeHandler⟩

theorem sampleCall_spec {m : Mem} {t : State Label Sym} (h : sampleCall m = some t) :
    sampleLinked.Returns ⟨fun _ => 0, m⟩ t.core.mem ∧ sampleLinked.Harmless ⟨fun _ => 0, m⟩ := by
  obtain ⟨hup, hret, hall⟩ := Program.follow_spec h
  exact ⟨⟨t, hup, hret, rfl⟩, fun s hs => (hall s hs).storesOutside⟩

theorem isSome_firstCall : (sampleCall framedMem).isSome = true := by
  decide +kernel

/-- The condition does not hold in the first frame, and the third line is taken for
an E code. -/
def firstMem : Mem := ((sampleCall framedMem).get isSome_firstCall).core.mem

theorem sampleCall_framedMem :
    sampleCall framedMem = some ((sampleCall framedMem).get isSome_firstCall) :=
  (Option.some_get isSome_firstCall).symm

/-- The second frame, for any change of the game's memory. -/
theorem frames_one {m : Mem} (hown : ∀ b, sampleLinked.own b → m b = firstMem b) :
    Frames sampleLinked.toPlacement framedMem 1 m :=
  .next (c := ⟨fun _ => 0, framedMem⟩) (.first fun _ _ => rfl)
    (sampleCall_spec sampleCall_framedMem).2 (sampleCall_spec sampleCall_framedMem).1 hown

/-- No byte that differs from the list as loaded is read but by `ch_loop`. -/
def ReadsLoaded (m : Mem) (s : State Label Sym) : Prop :=
  ∀ o ∈ s.executes, isLineFetch o = false → ∀ x ∈ o.loads sampleSym s.core, ∀ i < x.size,
    ¬ (InRange (sampleSym .codelist) 24 (x.addr + BitVec.ofNat 32 i) ∧
      m (x.addr + BitVec.ofNat 32 i) ≠ framedMem (x.addr + BitVec.ofNat 32 i))

instance (m : Mem) : DecidablePred (ReadsLoaded m) := fun s =>
  inferInstanceAs (Decidable (∀ o ∈ s.executes, isLineFetch o = false →
    ∀ x ∈ o.loads sampleSym s.core, ∀ i < x.size,
      ¬ (InRange (sampleSym .codelist) 24 (x.addr + BitVec.ofNat 32 i) ∧
        m (x.addr + BitVec.ofNat 32 i) ≠ framedMem (x.addr + BitVec.ofNat 32 i))))

theorem ReadsLoaded.readsUnchanged {m : Mem} {s : State Label Sym} (h : ReadsLoaded m s) :
    ReadsUnchanged sampleLinked.toPlacement (sampleLinked.Changed framedCodes framedMem m) s := by
  intro o ho hfetch x hx b hb hchanged
  have heq : b = x.addr + BitVec.ofNat 32 (b - x.addr).toNat := by
    rw [BitVec.ofNat_toNat, BitVec.setWidth_eq, BitVec.add_comm, BitVec.sub_add_cancel]
  refine h o ho hfetch x hx (b - x.addr).toNat hb ?_
  rw [← heq]
  exact hchanged

/-- The call in memory `m`, followed as long as it reads the list like that. -/
def unchangedCall (m : Mem) : Option (State Label Sym) :=
  codeHandler.follow samplePlacement.toLayout AtReturn
    (fun s => StoresHigh s ∧ ReadsLoaded m s) 100 ⟨⟨fun _ => 0, m⟩, codeHandler.start .codeHandler⟩

theorem unchangedCall_spec {m : Mem} (h : (unchangedCall m).isSome = true) :
    sampleLinked.Harmless ⟨fun _ => 0, m⟩ ∧ ∀ s, sampleLinked.During ⟨fun _ => 0, m⟩ s →
      ReadsUnchanged sampleLinked.toPlacement (sampleLinked.Changed framedCodes framedMem m) s := by
  obtain ⟨t, ht⟩ := Option.isSome_iff_exists.mp h
  obtain ⟨-, -, hall⟩ := Program.follow_spec ht
  exact ⟨fun s hs => (hall s hs).1.storesOutside, fun s hs => (hall s hs).2.readsUnchanged⟩

theorem isSome_unchangedCall : (unchangedCall firstMem).isSome = true := by
  decide +kernel

/-- If the condition still does not hold, the second frame meets the D code. -/
theorem invisible_of_unchanged_firstMem :
    sampleLinked.Invisible framedCodes framedMem ⟨fun _ => 0, firstMem⟩ := by
  obtain ⟨hharmless, hreads⟩ := unchangedCall_spec isSome_unchangedCall
  have hframes : Frames sampleLinked.toPlacement framedMem 1 firstMem := frames_one fun _ _ => rfl
  -- the memory is the result of a call, which need not be computed here
  generalize firstMem = m at hharmless hreads hframes ⊢
  exact invisible_of_unchanged sampleLinked framedCodes framedMem loaded_framedMem (by decide) 1
    ⟨fun _ => 0, m⟩ hframes hharmless hreads

/-- The game has made the condition true. -/
def secondMem : Mem := firstMem.store 2 (0x100000 : Word) (1 : BitVec 16)

instance : DecidablePred sampleOwn := fun a =>
  inferInstanceAs (Decidable (0x80000 ≤ a.toNat ∧ a.toNat < 0x90000))

/-- The same with the original list. -/
def originalMem : Mem := fun b => if sampleOwn b then framedMem b else secondMem b

theorem isSome_secondCall : (sampleCall secondMem).isSome = true := by
  decide +kernel

theorem isSome_originalCall : (sampleCall originalMem).isSome = true := by
  decide +kernel

theorem secondCall_ne_originalCall :
    ((sampleCall secondMem).get isSome_secondCall).core.mem 0x100010 ≠
      ((sampleCall originalMem).get isSome_originalCall).core.mem 0x100010 := by
  decide +kernel

theorem Placement.Returns.unique {p : Placement} {c : Core} {m m' : Mem} (h : p.Returns c m)
    (h' : p.Returns c m') : m = m' := by
  obtain ⟨t, hup, hret, rfl⟩ := h
  obtain ⟨t', hup', hret', rfl⟩ := h'
  rw [(hup.toward hup' hret').eq_of_stop hret]

/-- In the second frame the serial write stores a word of the D code. -/
theorem not_invisible_secondMem :
    Frames sampleLinked.toPlacement framedMem 1 secondMem ∧
      sampleLinked.Harmless ⟨fun _ => 0, secondMem⟩ ∧
      ¬ sampleLinked.Invisible framedCodes framedMem ⟨fun _ => 0, secondMem⟩ := by
  have hfree := free_sampleOwn (a := 0x100000) (n := 2) (by decide) (by decide)
  obtain ⟨hreturns, hharmless⟩ := sampleCall_spec (Option.some_get isSome_secondCall).symm
  obtain ⟨horiginal, -⟩ := sampleCall_spec (Option.some_get isSome_originalCall).symm
  have hne := secondCall_ne_originalCall
  have hframes : Frames sampleLinked.toPlacement framedMem 1 secondMem :=
    frames_one fun b hb => Mem.store_of_not_inRange fun hin => hfree b hin hb
  have hown : ∀ b, sampleLinked.own b → originalMem b = framedMem b := fun b hb => if_pos hb
  have hrest : ∀ b, ¬ sampleLinked.own b → originalMem b = secondMem b := fun b hb => if_neg hb
  generalize ((sampleCall secondMem).get isSome_secondCall).core.mem = m at hreturns hne
  generalize ((sampleCall originalMem).get isSome_originalCall).core.mem = m' at horiginal hne
  generalize secondMem = m₂ at hreturns hharmless hframes hrest ⊢
  generalize originalMem = m₁ at horiginal hown hrest
  refine ⟨hframes, hharmless, fun hinvisible => ?_⟩
  obtain ⟨hforth, -⟩ := hinvisible ⟨fun _ => 0, m₁⟩ hown hrest
  obtain ⟨m'', hreturns', hsame⟩ := hforth m hreturns
  obtain rfl := horiginal.unique hreturns'
  have houtside : ¬ InRange (sampleSym .codelist) 24 0x100010 := by decide
  exact hne (hsame 0x100010 houtside)

end Ps2rd.Engine
