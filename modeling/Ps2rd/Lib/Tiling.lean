import Mathlib.Tactic

/-!
# Heaps of linked blocks

A piece of memory that is divided into blocks without gaps.  Each block starts with a
header: where the next block starts, where the one before it does, and whether the block
is in use.  The headers and the list of blocks are two descriptions of the same thing
(`Tiles`), and the two operations of an allocator on the headers, `cut` a block in two and
`absorb` the next one, are followed on the list.
-/

namespace Tiling

/-- What stands at the start of a block. -/
structure Header where
  next : ℕ
  prev : ℕ
  used : Bool
  deriving DecidableEq

/-- A block, header included. -/
structure Block where
  len : ℕ
  used : Bool
  deriving DecidableEq

/-- The length of several blocks. -/
def span (bs : List Block) : ℕ := (bs.map Block.len).sum

@[simp]
theorem span_nil : span [] = 0 := rfl

@[simp]
theorem span_cons (b : Block) (bs : List Block) : span (b :: bs) = b.len + span bs := rfl

@[simp]
theorem span_append (xs ys : List Block) : span (xs ++ ys) = span xs + span ys := by
  simp [span]

/-- Where the last of the blocks from `p` on starts, `prev` if there is none. -/
def last : ℕ → ℕ → List Block → ℕ
  | prev, _, [] => prev
  | _, p, b :: bs => last p (p + b.len) bs

theorem last_concat (prev p : ℕ) (bs : List Block) (b : Block) :
    last prev p (bs ++ [b]) = p + span bs := by
  induction bs generalizing prev p with
  | nil => simp [last]
  | cons a bs ih => rw [List.cons_append, last, ih, span_cons, Nat.add_assoc]

/-- The headers describe the blocks `bs` from address `p` on, behind a block at `prev`. -/
def Tiles (ram : ℕ → Header) : ℕ → ℕ → List Block → Prop
  | _, _, [] => True
  | prev, p, b :: bs => ram p = ⟨p + b.len, prev, b.used⟩ ∧ 0 < b.len ∧ Tiles ram p (p + b.len) bs

variable {ram ram' : ℕ → Header} {prev p : ℕ} {bs xs ys : List Block} {b : Block}

theorem tiles_cons : Tiles ram prev p (b :: bs) ↔
    ram p = ⟨p + b.len, prev, b.used⟩ ∧ 0 < b.len ∧ Tiles ram p (p + b.len) bs := Iff.rfl

theorem tiles_append : Tiles ram prev p (xs ++ ys) ↔
    Tiles ram prev p xs ∧ Tiles ram (last prev p xs) (p + span xs) ys := by
  induction xs generalizing prev p with
  | nil => simp [Tiles, last]
  | cons b xs ih =>
      rw [List.cons_append, tiles_cons, tiles_cons, ih, last, span_cons, Nat.add_assoc]
      tauto

/-- Only the headers of the blocks matter. -/
theorem Tiles.congr (h : Tiles ram prev p bs)
    (hsame : ∀ q, p ≤ q → q < p + span bs → ram' q = ram q) : Tiles ram' prev p bs := by
  induction bs generalizing prev p with
  | nil => trivial
  | cons b bs ih =>
      obtain ⟨hheader, hlen, hrest⟩ := h
      rw [span_cons] at hsame
      refine ⟨?_, hlen, ih hrest fun q hge hlt => hsame q (by omega) (by omega)⟩
      rw [hsame p le_rfl (by omega), hheader]

/-! ### Changing headers -/

/-- The block before the one at `p` is now at `v`. -/
def setPrev (ram : ℕ → Header) (p v : ℕ) : ℕ → Header :=
  Function.update ram p { ram p with prev := v }

/-- The block at `p` is cut at `p₂`, and the rest is a free block.  There is no block behind
`stop`. -/
def cut (ram : ℕ → Header) (p p₂ stop : ℕ) : ℕ → Header :=
  let ram₁ := Function.update ram p₂ ⟨(ram p).next, p, false⟩
  let ram₂ := Function.update ram₁ p { ram₁ p with next := p₂ }
  if (ram₂ p₂).next ≠ stop then setPrev ram₂ (ram₂ p₂).next p₂ else ram₂

/-- The block at `p` takes over the block at `p₂` behind it. -/
def absorb (ram : ℕ → Header) (p p₂ : ℕ) : ℕ → Header :=
  let ram₁ := Function.update ram p { ram p with next := (ram p₂).next }
  setPrev ram₁ (ram₁ p₂).next p

theorem setPrev_of_ne {q v : ℕ} (hq : q ≠ p) : setPrev ram p v q = ram q :=
  Function.update_of_ne hq _ _

theorem Tiles.setPrev (h : Tiles ram prev p bs) (v : ℕ) : Tiles (setPrev ram p v) v p bs := by
  cases bs with
  | nil => trivial
  | cons b bs =>
      obtain ⟨hheader, hlen, hrest⟩ := h
      refine ⟨?_, hlen, hrest.congr fun q hge _ => setPrev_of_ne (by omega)⟩
      rw [Tiling.setPrev, Function.update_self, hheader]

section Cut

variable {a c stop q : ℕ} {u v : Bool}

/-- The two new headers, before the block behind them is told. -/
theorem cut_eq (ha : 0 < a) (hnext : (ram p).next = p + (a + c)) :
    cut ram p (p + a) stop =
      let ram₂ := Function.update (Function.update ram (p + a) ⟨p + (a + c), p, false⟩) p
        { ram p with next := p + a }
      if p + (a + c) ≠ stop then setPrev ram₂ (p + (a + c)) (p + a) else ram₂ := by
  have hne : p ≠ p + a := by omega
  simp only [cut, hnext, Function.update_of_ne hne, Function.update_of_ne hne.symm,
    Function.update_self]

/-- A cut changes nothing but the headers at the cut block and behind it. -/
theorem cut_of_ne (ha : 0 < a) (hnext : (ram p).next = p + (a + c)) (hp : q ≠ p)
    (hp₂ : q ≠ p + a) (hq : q ≠ p + (a + c)) : cut ram p (p + a) stop q = ram q := by
  rw [cut_eq ha hnext]
  dsimp only
  split_ifs
  · rw [setPrev_of_ne hq, Function.update_of_ne hp, Function.update_of_ne hp₂]
  · rw [Function.update_of_ne hp, Function.update_of_ne hp₂]

/-- The blocks after a cut. -/
theorem Tiles.cut (h : Tiles ram prev p (⟨a + c, u⟩ :: bs)) (ha : 0 < a) (hc : 0 < c)
    (hstop : p + (a + c) = stop → bs = []) :
    Tiles (cut ram p (p + a) stop) prev p (⟨a, u⟩ :: ⟨c, false⟩ :: bs) := by
  obtain ⟨hheader, -, hrest⟩ := h
  dsimp only at hheader hrest
  rw [cut_eq ha (by rw [hheader])]
  dsimp only
  set ram₂ := Function.update (Function.update ram (p + a) ⟨p + (a + c), p, false⟩) p
    { ram p with next := p + a } with hram₂
  have hfirst : ram₂ p = ⟨p + a, prev, u⟩ := by rw [hram₂, Function.update_self, hheader]
  have hsecond : ram₂ (p + a) = ⟨p + (a + c), p, false⟩ := by
    rw [hram₂, Function.update_of_ne (by omega), Function.update_self]
  have htail : Tiles ram₂ p (p + (a + c)) bs := hrest.congr fun q hge _ => by
    rw [hram₂, Function.update_of_ne (by omega), Function.update_of_ne (by omega)]
  split_ifs with hne
  · refine ⟨?_, ha, ?_, hc, ?_⟩ <;> dsimp only
    · rw [setPrev_of_ne (by omega), hfirst]
    · rw [setPrev_of_ne (by omega), hsecond, Nat.add_assoc]
    · rw [Nat.add_assoc]
      exact htail.setPrev (p + a)
  · rw [hstop (not_not.mp hne)]
    exact ⟨hfirst, ha, by rw [hsecond, Nat.add_assoc], hc, trivial⟩

/-- The headers after a block has taken over the next one. -/
theorem absorb_eq (ha : 0 < a) (hnext : (ram (p + a)).next = p + a + c) :
    absorb ram p (p + a) =
      setPrev (Function.update ram p { ram p with next := p + a + c }) (p + a + c) p := by
  have hne : p + a ≠ p := by omega
  simp only [absorb, hnext, Function.update_of_ne hne]

theorem absorb_of_ne (ha : 0 < a) (hnext : (ram (p + a)).next = p + a + c) (hp : q ≠ p)
    (hq : q ≠ p + a + c) : absorb ram p (p + a) q = ram q := by
  rw [absorb_eq ha hnext, setPrev_of_ne hq, Function.update_of_ne hp]

/-- The blocks after one has taken over the next one. -/
theorem Tiles.absorb (h : Tiles ram prev p (⟨a, u⟩ :: ⟨c, v⟩ :: bs)) :
    Tiles (absorb ram p (p + a)) prev p (⟨a + c, u⟩ :: bs) := by
  obtain ⟨hheader, ha, hheader', hc, hrest⟩ := h
  dsimp only at hheader ha hheader' hc hrest
  rw [absorb_eq ha (by rw [hheader'])]
  set ram₁ := Function.update ram p { ram p with next := p + a + c } with hram₁
  have hfirst : ram₁ p = ⟨p + (a + c), prev, u⟩ := by
    rw [hram₁, Function.update_self, hheader, Nat.add_assoc]
  have htail : Tiles ram₁ (p + a) (p + a + c) bs := hrest.congr fun q hge _ => by
    rw [hram₁, Function.update_of_ne (by omega)]
  refine ⟨?_, Nat.add_pos_left ha c, ?_⟩
  · rw [setPrev_of_ne (by omega), hfirst]
  · rw [← Nat.add_assoc]
    exact htail.setPrev p

end Cut

/-! ### In the middle of a heap -/

section Middle

variable {a c stop : ℕ} {u v : Bool}

/-- The header of a block behind the blocks `xs`. -/
theorem Tiles.header (h : Tiles ram prev p (xs ++ b :: ys)) :
    ram (p + span xs) = ⟨p + span xs + b.len, last prev p xs, b.used⟩ :=
  ((tiles_append.mp h).2).1

/-- A change from the block behind `xs` on leaves `xs` alone. -/
theorem Tiles.of_middle (h : Tiles ram prev p (xs ++ ys)) {zs : List Block}
    (hsame : ∀ q < p + span xs, ram' q = ram q)
    (hzs : Tiles ram' (last prev p xs) (p + span xs) zs) : Tiles ram' prev p (xs ++ zs) :=
  tiles_append.mpr ⟨(tiles_append.mp h).1.congr fun q _ hq => hsame q hq, hzs⟩

theorem Tiles.cut_middle (h : Tiles ram prev p (xs ++ ⟨a + c, u⟩ :: ys)) (ha : 0 < a) (hc : 0 < c)
    (hstop : p + span xs + (a + c) = stop → ys = []) :
    Tiles (Tiling.cut ram (p + span xs) (p + span xs + a) stop) prev p
      (xs ++ ⟨a, u⟩ :: ⟨c, false⟩ :: ys) := by
  have hnext : (ram (p + span xs)).next = p + span xs + (a + c) := by rw [h.header]
  refine h.of_middle (fun q hq => cut_of_ne ha hnext ?_ ?_ ?_)
    ((tiles_append.mp h).2.cut ha hc hstop) <;> omega

theorem Tiles.absorb_middle (h : Tiles ram prev p (xs ++ ⟨a, u⟩ :: ⟨c, v⟩ :: ys)) :
    Tiles (Tiling.absorb ram (p + span xs) (p + span xs + a)) prev p (xs ++ ⟨a + c, u⟩ :: ys) := by
  have htail := (tiles_append.mp h).2
  have hnext : (ram (p + span xs + a)).next = p + span xs + a + c := by rw [htail.2.2.1]
  refine h.of_middle (fun q hq => absorb_of_ne htail.2.1 hnext ?_ ?_) htail.absorb <;> omega

/-- A block changes between used and free. -/
theorem Tiles.setUsed (h : Tiles ram prev p (xs ++ ⟨a, u⟩ :: ys)) (v : Bool) :
    Tiles (Function.update ram (p + span xs) { ram (p + span xs) with used := v }) prev p
      (xs ++ ⟨a, v⟩ :: ys) := by
  obtain ⟨hheader, ha, hrest⟩ := (tiles_append.mp h).2
  refine h.of_middle (fun q hq => Function.update_of_ne (by omega) _ _) ⟨?_, ha, ?_⟩
  · rw [Function.update_self, hheader]
  · exact hrest.congr fun q hge _ => Function.update_of_ne (by omega) _ _

end Middle

/-! ### Where the blocks are -/

/-- The blocks with their addresses, from `p` on. -/
def placed : ℕ → List Block → List (ℕ × Block)
  | _, [] => []
  | p, b :: bs => (p, b) :: placed (p + b.len) bs

@[simp]
theorem placed_nil (p : ℕ) : placed p [] = [] := rfl

@[simp]
theorem placed_cons (p : ℕ) (b : Block) (bs : List Block) :
    placed p (b :: bs) = (p, b) :: placed (p + b.len) bs := rfl

@[simp]
theorem placed_append (p : ℕ) (xs ys : List Block) :
    placed p (xs ++ ys) = placed p xs ++ placed (p + span xs) ys := by
  induction xs generalizing p with
  | nil => simp
  | cons b xs ih => simp [ih, Nat.add_assoc]

theorem mem_of_mem_placed {x : ℕ × Block} (h : x ∈ placed p bs) : x.2 ∈ bs := by
  induction bs generalizing p with
  | nil => simp at h
  | cons b bs ih =>
      rcases List.mem_cons.mp h with rfl | h
      · exact List.mem_cons_self
      · exact List.mem_cons_of_mem _ (ih h)

theorem bounds_of_mem_placed {x : ℕ × Block} (h : x ∈ placed p bs) :
    p ≤ x.1 ∧ x.1 + x.2.len ≤ p + span bs := by
  induction bs generalizing p with
  | nil => simp at h
  | cons b bs ih =>
      rw [span_cons]
      rcases List.mem_cons.mp h with rfl | h
      · dsimp only
        omega
      · have := ih h
        omega

/-- The block at an address, with what lies before and behind it. -/
theorem exists_of_mem_placed {x : ℕ × Block} (h : x ∈ placed p bs) :
    ∃ xs ys, bs = xs ++ x.2 :: ys ∧ x.1 = p + span xs := by
  induction bs generalizing p with
  | nil => simp at h
  | cons b bs ih =>
      rcases List.mem_cons.mp h with rfl | h
      · exact ⟨[], bs, rfl, rfl⟩
      · obtain ⟨xs, ys, hbs, hx⟩ := ih h
        exact ⟨b :: xs, ys, by rw [hbs, List.cons_append], by rw [hx, span_cons, Nat.add_assoc]⟩

/-- Blocks do not overlap. -/
theorem placed_pairwise (p : ℕ) (bs : List Block) :
    (placed p bs).Pairwise fun x y => x.1 + x.2.len ≤ y.1 := by
  induction bs generalizing p with
  | nil => exact .nil
  | cons b bs ih =>
      refine List.pairwise_cons.mpr ⟨fun y hy => ?_, ih _⟩
      exact (bounds_of_mem_placed hy).1

/-- The used blocks with their addresses. -/
def usedBlocks (p : ℕ) (bs : List Block) : List (ℕ × Block) := (placed p bs).filter (·.2.used)

@[simp]
theorem usedBlocks_append (p : ℕ) (xs ys : List Block) :
    usedBlocks p (xs ++ ys) = usedBlocks p xs ++ usedBlocks (p + span xs) ys := by
  simp [usedBlocks]

@[simp]
theorem usedBlocks_cons_free (p a : ℕ) (bs : List Block) :
    usedBlocks p (⟨a, false⟩ :: bs) = usedBlocks (p + a) bs := rfl

@[simp]
theorem usedBlocks_cons_used (p a : ℕ) (bs : List Block) :
    usedBlocks p (⟨a, true⟩ :: bs) = (p, ⟨a, true⟩) :: usedBlocks (p + a) bs := rfl

theorem mem_usedBlocks {x : ℕ × Block} :
    x ∈ usedBlocks p bs ↔ x ∈ placed p bs ∧ x.2.used = true := List.mem_filter

/-- No two free blocks are neighbours. -/
def Apart (bs : List Block) : Prop := bs.IsChain fun a b => a.used = true ∨ b.used = true

/-- Only whether blocks are used matters. -/
theorem Apart.of_used_eq {b' : Block} (h : Apart (b :: bs)) (hused : b'.used = b.used) :
    Apart (b' :: bs) := by
  cases bs with
  | nil => exact List.isChain_singleton _
  | cons b₂ bs =>
      rw [Apart, List.isChain_cons_cons] at h ⊢
      rwa [hused]

/-- Two heaps with a free block between them. -/
theorem Apart.append_free (hxs : Apart (xs ++ [b])) (hys : Apart (b :: ys)) :
    Apart (xs ++ b :: ys) := by
  rw [Apart, List.isChain_append] at hxs ⊢
  exact ⟨hxs.1, hys, by simpa using hxs.2.2⟩

/-- Memory that belongs to no used block lies in one free block. -/
theorem exists_free_of_gap {a n : ℕ} (hn : 0 < n) (hapart : Apart bs) (hlow : p ≤ a)
    (hhigh : a + n ≤ p + span bs)
    (hgap : ∀ x ∈ placed p bs, x.2.used = true → a + n ≤ x.1 ∨ x.1 + x.2.len ≤ a) :
    ∃ x ∈ placed p bs, x.2.used = false ∧ x.1 ≤ a ∧ a + n ≤ x.1 + x.2.len := by
  induction bs generalizing p with
  | nil =>
      rw [span_nil] at hhigh
      omega
  | cons b bs ih =>
      rw [span_cons] at hhigh
      by_cases hin : p + b.len ≤ a
      · obtain ⟨x, hx, hfree⟩ := ih hapart.tail hin (by omega) fun y hy =>
          hgap y (List.mem_cons_of_mem _ hy)
        exact ⟨x, List.mem_cons_of_mem _ hx, hfree⟩
      · have hfree : b.used = false := by
          by_contra hused
          have := hgap (p, b) List.mem_cons_self (by simpa using hused)
          dsimp only at this
          omega
        refine ⟨(p, b), List.mem_cons_self, hfree, hlow, ?_⟩
        by_contra hover
        cases bs with
        | nil =>
            rw [span_nil] at hhigh
            exact hover (by simpa using hhigh)
        | cons b' bs =>
            have hused : b'.used = true := by
              simpa [hfree] using (List.isChain_cons_cons.mp hapart).1
            have := hgap (p + b.len, b') (by simp) hused
            dsimp only at this hover
            omega

end Tiling
