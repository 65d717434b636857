import Ps2rd.TcpIp.Heap

/-!
# The blocks of the TCP/IP stack's heap

What each of `mem_malloc`, `mem_free` and `mem_realloc` does to the list of blocks that the
headers describe.  The headers keep describing a list of blocks (`Heap.Holds`), no two free
blocks are neighbours (`Apart`), and after `mem_malloc` and `mem_free` the pointer `lfree` is
still not above a free block (`Heap.Lowest`).  After `mem_realloc` it may be.
-/

namespace Ps2rd.TcpIp

open Tiling

/-- The headers describe the blocks `bs`, and nothing is wrong with these. -/
structure Heap.Holds (h : Heap) (bs : List Block) : Prop where
  tiles : Tiles h.ram 0 0 bs
  total : span bs = memSize
  stop : (h.ram memSize).used = true
  len : ∀ b ∈ bs, 8 ≤ b.len ∧ 4 ∣ b.len
  lfree : h.lfree ∈ (placed 0 bs).map Prod.fst
  sem : h.memSem = true

variable {h h' : Heap} {bs xs ys : List Block} {a c : ℕ}

theorem Heap.Holds.setLfree (hh : h.Holds bs) {p : ℕ} (hp : p ∈ (placed 0 bs).map Prod.fst) :
    Heap.Holds { h with lfree := p } bs := { hh with lfree := hp }

/-- A block changes between used and free. -/
theorem Heap.Holds.setUsed {u : Bool} (hh : h.Holds (xs ++ ⟨a, u⟩ :: ys)) (v : Bool) :
    Heap.Holds { h with
      ram := Function.update h.ram (span xs) { h.ram (span xs) with used := v } }
      (xs ++ ⟨a, v⟩ :: ys) := by
  have htiles := hh.tiles.setUsed v
  have htotal := hh.total
  have ha := hh.len ⟨a, u⟩ (by simp)
  rw [Nat.zero_add] at htiles
  simp only [span_append, span_cons] at htotal
  refine ⟨htiles, by simpa using htotal, ?_, fun b hb => ?_, by simpa using hh.lfree, hh.sem⟩
  · dsimp only at ha ⊢
    rw [Function.update_of_ne (by omega), hh.stop]
  · simp only [List.mem_append, List.mem_cons] at hb
    rcases hb with hb | rfl | hb
    · exact hh.len b (by simp [hb])
    · exact ha
    · exact hh.len b (by simp [hb])

theorem used_setPrev (ram : ℕ → Header) (p v q : ℕ) : (setPrev ram p v q).used = (ram q).used := by
  by_cases hq : q = p
  · rw [hq, setPrev, Function.update_self]
  · rw [setPrev_of_ne hq]

theorem used_cut (ram : ℕ → Header) (p stop : ℕ) {p₂ q : ℕ} (hq : q ≠ p₂) :
    (cut ram p p₂ stop q).used = (ram q).used := by
  have hheader : ∀ r : Header, (Function.update (Function.update ram p₂ r) p
      { Function.update ram p₂ r p with next := p₂ } q).used = (ram q).used := by
    intro r
    by_cases hqp : q = p
    · subst hqp
      rw [Function.update_self, Function.update_of_ne hq]
    · rw [Function.update_of_ne hqp, Function.update_of_ne hq]
  unfold Tiling.cut
  dsimp only
  split_ifs
  · rw [used_setPrev, hheader]
  · rw [hheader]

/-- A block is cut in two, the rest is free. -/
theorem Heap.Holds.cut {u : Bool} (hh : h.Holds (xs ++ ⟨a + c, u⟩ :: ys)) (ha : 8 ≤ a)
    (hdvd : 4 ∣ a) (hc : 8 ≤ c) :
    Heap.Holds { h with ram := cut h.ram (span xs) (span xs + a) memSize }
      (xs ++ ⟨a, u⟩ :: ⟨c, false⟩ :: ys) := by
  have hlen := hh.len ⟨a + c, u⟩ (by simp)
  have htotal := hh.total
  have hlfree := hh.lfree
  simp only [span_append, span_cons] at htotal
  have hstop : 0 + span xs + (a + c) = memSize → ys = [] := by
    intro hstop
    by_contra hne
    obtain ⟨b, ys', rfl⟩ := List.exists_cons_of_ne_nil hne
    have hb := (hh.len b (by simp)).1
    rw [span_cons] at htotal
    omega
  have htiles := hh.tiles.cut_middle (by omega) (by omega) hstop
  rw [Nat.zero_add] at htiles
  refine ⟨htiles, ?_, ?_, fun b hb => ?_, ?_, hh.sem⟩
  · simp only [span_append, span_cons]
    omega
  · dsimp only
    rw [used_cut _ _ _ (by omega), hh.stop]
  · simp only [List.mem_append, List.mem_cons] at hb
    rcases hb with hb | rfl | rfl | hb
    · exact hh.len b (by simp [hb])
    · exact ⟨ha, hdvd⟩
    · exact ⟨hc, (Nat.dvd_add_right hdvd).mp hlen.2⟩
    · exact hh.len b (by simp [hb])
  · simp only [placed_append, placed_cons, Nat.zero_add, List.map_append, List.map_cons,
      List.mem_append, List.mem_cons, ← Nat.add_assoc] at hlfree ⊢
    tauto

/-! ### Plugging holes -/

theorem used_absorb (ram : ℕ → Header) (p p₂ q : ℕ) :
    (absorb ram p p₂ q).used = (ram q).used := by
  rw [absorb, used_setPrev]
  by_cases hq : q = p
  · rw [hq, Function.update_self]
  · rw [Function.update_of_ne hq]

theorem Heap.Holds.merge (hh : h.Holds (xs ++ ⟨a, false⟩ :: ⟨c, false⟩ :: ys)) :
    (h.merge (span xs) (span xs + a)).Holds (xs ++ ⟨a + c, false⟩ :: ys) := by
  have htiles := hh.tiles.absorb_middle
  rw [Nat.zero_add] at htiles
  have ha := hh.len ⟨a, false⟩ (by simp)
  have hc := hh.len ⟨c, false⟩ (by simp)
  have htotal := hh.total
  have hlfree := hh.lfree
  simp only [span_append, span_cons] at htotal
  simp only [placed_append, placed_cons, Nat.zero_add, List.map_append, List.map_cons,
    List.mem_append, List.mem_cons] at hlfree
  refine ⟨htiles, ?_, ?_, fun b hb => ?_, ?_, hh.sem⟩
  · simp only [span_append, span_cons]
    omega
  · rw [Heap.merge, used_absorb, hh.stop]
  · simp only [List.mem_append, List.mem_cons] at hb
    rcases hb with hb | rfl | hb
    · exact hh.len b (by simp [hb])
    · dsimp only at ha hc ⊢
      exact ⟨by omega, Nat.dvd_add ha.2 hc.2⟩
    · exact hh.len b (by simp [hb])
  · simp only [Heap.merge, placed_append, placed_cons, Nat.zero_add, List.map_append,
      List.map_cons, List.mem_append, List.mem_cons]
    split_ifs with hfree
    · exact .inr (.inl rfl)
    · rw [← Nat.add_assoc]
      tauto

/-- `lfree` is what it is meant to be. -/
def Heap.Lowest (h : Heap) (bs : List Block) : Prop :=
  ∀ x ∈ placed 0 bs, x.2.used = false → h.lfree ≤ x.1

theorem Heap.Lowest.merge (hl : h.Lowest (xs ++ ⟨a, false⟩ :: ⟨c, false⟩ :: ys)) :
    (h.merge (span xs) (span xs + a)).Lowest (xs ++ ⟨a + c, false⟩ :: ys) := by
  have hle : (h.merge (span xs) (span xs + a)).lfree ≤ h.lfree := by
    simp only [Heap.merge]
    split_ifs <;> omega
  intro x hx hfree
  simp only [placed_append, placed_cons, Nat.zero_add, List.mem_append, List.mem_cons,
    ← Nat.add_assoc] at hx
  rcases hx with hx | rfl | hx
  · exact hle.trans (hl x (by simp [hx]) hfree)
  · exact hle.trans (hl (span xs, ⟨a, false⟩) (by simp) rfl)
  · exact hle.trans (hl x (by simp [hx]) hfree)

/-- The heap that `plug_holes` leaves: the used blocks are the same ones. -/
structure Plugged (h h' : Heap) (bs bs' : List Block) : Prop where
  holds : h'.Holds bs'
  same : usedBlocks 0 bs' = usedBlocks 0 bs
  lowest : h.Lowest bs → h'.Lowest bs'

theorem Plugged.trans {h'' : Heap} {bs' bs'' : List Block} (h₁ : Plugged h h' bs bs')
    (h₂ : Plugged h' h'' bs' bs'') : Plugged h h'' bs bs'' :=
  ⟨h₂.holds, h₂.same.trans h₁.same, fun hl => h₂.lowest (h₁.lowest hl)⟩

theorem Heap.Holds.plugged_merge (hh : h.Holds (xs ++ ⟨a, false⟩ :: ⟨c, false⟩ :: ys)) :
    Plugged h (h.merge (span xs) (span xs + a)) (xs ++ ⟨a, false⟩ :: ⟨c, false⟩ :: ys)
      (xs ++ ⟨a + c, false⟩ :: ys) :=
  ⟨hh.merge, by simp [Nat.add_assoc], fun hl => hl.merge⟩

theorem Heap.Holds.plugged_self (hh : h.Holds bs) : Plugged h h bs bs := ⟨hh, rfl, id⟩

/-- The hole behind a free block is plugged: what follows then is used, if anything does. -/
theorem Heap.Holds.plugForward (hh : h.Holds (xs ++ ⟨a, false⟩ :: ys)) (hys : Apart ys) :
    ∃ a' ys', Plugged h (plugForward h (span xs)) (xs ++ ⟨a, false⟩ :: ys)
        (xs ++ ⟨a', false⟩ :: ys') ∧ Apart (⟨a', false⟩ :: ys') := by
  have hheader := hh.tiles.header
  have htotal := hh.total
  simp only [span_append, span_cons] at htotal
  rw [Nat.zero_add] at hheader
  dsimp only at hheader
  unfold TcpIp.plugForward
  rw [hheader]
  dsimp only
  cases ys with
  | nil =>
      rw [span_nil, Nat.add_zero] at htotal
      rw [if_neg (fun hcond => hcond.2.2 htotal)]
      exact ⟨a, [], hh.plugged_self, List.isChain_singleton _⟩
  | cons b ys =>
      obtain ⟨c, u⟩ := b
      have hnext : (h.ram (span xs + a)).used = u := by
        have htiles := hh.tiles
        rw [← List.singleton_append, ← List.append_assoc] at htiles
        have := htiles.header
        simp only [span_append, span_cons, span_nil, Nat.zero_add, Nat.add_zero] at this
        rw [this]
      cases u with
      | true =>
          rw [hnext, if_neg (by simp)]
          exact ⟨a, _, hh.plugged_self, List.isChain_cons_cons.mpr ⟨.inr rfl, hys⟩⟩
      | false =>
          have ha := (hh.len ⟨a, false⟩ (by simp)).1
          have hc := (hh.len ⟨c, false⟩ (by simp)).1
          dsimp only [span_cons] at ha hc htotal
          rw [hnext, if_pos ⟨by omega, rfl, by omega⟩]
          refine ⟨a + c, ys, hh.plugged_merge, ?_⟩
          cases ys with
          | nil => exact List.isChain_singleton _
          | cons b' ys =>
              have hused := (List.isChain_cons_cons.mp hys).1
              exact List.isChain_cons_cons.mpr ⟨.inr (by simpa using hused), hys.tail⟩

/-- The hole before a free block is plugged. -/
theorem Heap.Holds.plugBackward (hh : h.Holds (xs ++ ⟨a, false⟩ :: ys)) (hxs : Apart xs)
    (hys : Apart (⟨a, false⟩ :: ys)) :
    ∃ bs', Plugged h (plugBackward h (span xs)) (xs ++ ⟨a, false⟩ :: ys) bs' ∧ Apart bs' := by
  have hheader := hh.tiles.header
  rw [Nat.zero_add] at hheader
  dsimp only at hheader
  unfold TcpIp.plugBackward
  rw [hheader]
  dsimp only
  rcases List.eq_nil_or_concat xs with rfl | ⟨xs, ⟨c, u⟩, rfl⟩
  · rw [if_neg (by simp [last])]
    exact ⟨_, hh.plugged_self, hys⟩
  · rw [List.concat_eq_append] at hh hxs ⊢
    rw [List.append_assoc, List.singleton_append] at hh ⊢
    have hprev : (h.ram (span xs)).used = u := by
      have := hh.tiles.header
      rw [Nat.zero_add] at this
      rw [this]
    have hc := (hh.len ⟨c, u⟩ (by simp)).1
    dsimp only at hc
    have hspan : span (xs ++ [⟨c, u⟩]) = span xs + c := by simp
    rw [last_concat, Nat.zero_add, hprev, hspan]
    cases u with
    | true =>
        rw [if_neg (by simp)]
        refine ⟨_, hh.plugged_self, hxs.append_free ?_⟩
        exact List.isChain_cons_cons.mpr ⟨.inl rfl, hys⟩
    | false =>
        rw [if_pos ⟨by omega, rfl⟩]
        refine ⟨_, hh.plugged_merge, ?_⟩
        have hhead : Apart (xs ++ [⟨c + a, false⟩]) := by
          rw [Apart, List.isChain_append] at hxs ⊢
          exact ⟨hxs.1, List.isChain_singleton _, by simpa using hxs.2.2⟩
        exact hhead.append_free (hys.of_used_eq rfl)

/-- `plug_holes` for a free block between blocks that are apart. -/
theorem Heap.Holds.plugHoles (hh : h.Holds (xs ++ ⟨a, false⟩ :: ys)) (hxs : Apart xs)
    (hys : Apart ys) :
    ∃ bs', Plugged h (plugHoles h (span xs)) (xs ++ ⟨a, false⟩ :: ys) bs' ∧ Apart bs' := by
  obtain ⟨a', ys', hforward, hys'⟩ := hh.plugForward hys
  obtain ⟨bs', hbackward, hapart⟩ := hforward.holds.plugBackward hxs hys'
  exact ⟨bs', hforward.trans hbackward, hapart⟩

/-! ### Giving memory back -/

theorem Apart.of_append {xs ys : List Block} (h : Apart (xs ++ ys)) : Apart xs ∧ Apart ys := by
  rw [Apart, List.isChain_append] at h
  exact ⟨h.1, h.2.1⟩

/-- `mem_free` of a used block. -/
theorem Heap.Holds.memFree (hh : h.Holds (xs ++ ⟨a, true⟩ :: ys))
    (hapart : Apart (xs ++ ⟨a, true⟩ :: ys)) :
    ∃ h' bs', memFree h (.inside (span xs + sizeofStructMem)) = some h' ∧ h'.Holds bs' ∧
      Apart bs' ∧ usedBlocks 0 bs' = usedBlocks 0 xs ++ usedBlocks (span xs + a) ys ∧
      (h.Lowest (xs ++ ⟨a, true⟩ :: ys) → h'.Lowest bs') := by
  obtain ⟨hxs, hys⟩ := Apart.of_append hapart
  set lfree := if span xs < h.lfree then span xs else h.lfree with hlfree
  have hle : lfree ≤ h.lfree ∧ lfree ≤ span xs := by
    rw [hlfree]
    split_ifs <;> omega
  have hfreed := (hh.setUsed false).setLfree (p := lfree) (by
    have hold := (hh.setUsed false).lfree
    rw [hlfree]
    split_ifs
    · simp
    · exact hold)
  obtain ⟨bs', hplugged, hapart'⟩ := hfreed.plugHoles hxs hys.tail
  refine ⟨_, bs', ?_, hplugged.holds, hapart', ?_, fun hl => hplugged.lowest ?_⟩
  · rw [TcpIp.memFree, if_pos hh.sem, Nat.add_sub_cancel]
  · rw [hplugged.same]
    simp
  · intro x hx hfree
    simp only [placed_append, placed_cons, Nat.zero_add, List.mem_append, List.mem_cons] at hx
    rcases hx with hx | rfl | hx
    · exact hle.1.trans (hl x (by simp [hx]) hfree)
    · exact hle.2
    · exact hle.1.trans (hl x (by simp [hx]) hfree)

/-! ### Taking memory -/

/-- The block is free and has room for `n` bytes and another header. -/
def Fits (n : ℕ) (b : Block) : Prop := b.used = false ∧ n + 16 ≤ b.len

theorem Heap.Holds.fits_iff {n : ℕ} {b : Block} (hh : h.Holds (xs ++ b :: ys)) :
    fits h n (span xs) = true ↔ Fits n b := by
  have hheader := hh.tiles.header
  have hlen := (hh.len b (by simp)).1
  have htotal := hh.total
  simp only [span_append, span_cons, memSize] at htotal
  rw [Nat.zero_add] at hheader
  have hroom : (span xs + b.len + 2 ^ 32 - (span xs + sizeofStructMem)) % 2 ^ 32 = b.len - 8 := by
    unfold sizeofStructMem
    omega
  rw [fits, hheader]
  dsimp only
  rw [hroom, Bool.and_eq_true, Bool.not_eq_true', decide_eq_true_eq, Fits]
  refine and_congr_right fun _ => ?_
  unfold sizeofStructMem
  omega

/-- The search from the block behind `xs` on. -/
theorem Heap.Holds.search {n fuel : ℕ} (hh : h.Holds (xs ++ ys)) (hfuel : ys.length < fuel) :
    ∃ q, whileM (fun ptr => decide (ptr < memSize) && !fits h n ptr)
        (fun ptr => some (h.ram ptr).next) fuel (span xs) = some q ∧
      (q = memSize ∧ (∀ b ∈ ys, ¬ Fits n b) ∨
        ∃ us b vs, ys = us ++ b :: vs ∧ q = span (xs ++ us) ∧ Fits n b ∧ ∀ u ∈ us, ¬ Fits n u) := by
  obtain ⟨fuel, rfl⟩ := Nat.exists_eq_succ_of_ne_zero (Nat.ne_zero_of_lt hfuel)
  induction ys generalizing xs fuel with
  | nil =>
      have htotal := hh.total
      rw [List.append_nil] at htotal
      refine ⟨span xs, whileM_of_not ?_ fuel, .inl ⟨htotal, by simp⟩⟩
      simp [htotal]
  | cons b ys ih =>
      have htotal := hh.total
      have hlen := (hh.len b (by simp)).1
      simp only [span_append, span_cons] at htotal
      by_cases hfits : Fits n b
      · refine ⟨span xs, whileM_of_not ?_ fuel, .inr ⟨[], b, ys, rfl, by simp, hfits, by simp⟩⟩
        simp [hh.fits_iff.mpr hfits]
      · -- the block does not fit: one round more, with it on the left
        have hcond : (decide (span xs < memSize) && !fits h n (span xs)) = true := by
          have hnot : fits h n (span xs) = false := by
            rw [← Bool.not_eq_true, hh.fits_iff]
            exact hfits
          simp [hnot]
          omega
        have hnext : some (h.ram (span xs)).next = some (span (xs ++ [b])) := by
          have hheader := hh.tiles.header
          rw [Nat.zero_add] at hheader
          simp [hheader]
        rw [← List.singleton_append, ← List.append_assoc] at hh
        obtain ⟨fuel, rfl⟩ := Nat.exists_eq_succ_of_ne_zero (Nat.ne_zero_of_lt
          (Nat.lt_of_succ_lt_succ hfuel))
        obtain ⟨q, hq, hresult⟩ := ih hh fuel (Nat.lt_of_succ_lt_succ hfuel)
        refine ⟨q, ?_, ?_⟩
        · rw [Nat.succ_eq_add_one, whileM_succ, if_pos hcond, hnext, Option.bind_some]
          exact hq
        rcases hresult with ⟨hend, hnone⟩ | ⟨us, b', vs, rfl, hq, hfits', hbefore⟩
        · exact .inl ⟨hend, by simpa [hfits] using hnone⟩
        · refine .inr ⟨b :: us, b', vs, rfl, ?_, hfits', by simpa [hfits] using hbefore⟩
          rw [hq, List.append_assoc, List.singleton_append]

theorem four_dvd_alignSize (size : ℕ) : 4 ∣ alignSize size := by
  unfold alignSize memAlignment sizeofStructMem
  split_ifs <;> omega

theorem le_alignSize {size : ℕ} (hsize : size ≤ 65532) : size ≤ alignSize size := by
  unfold alignSize memAlignment sizeofStructMem
  split_ifs <;> omega

theorem Heap.Holds.length_le (hh : h.Holds bs) : bs.length ≤ memSize := by
  rw [← hh.total, span, ← List.length_map (f := Block.len)]
  refine List.length_le_sum_of_one_le _ fun n hn => ?_
  obtain ⟨b, hb, rfl⟩ := List.mem_map.mp hn
  exact (by norm_num : 1 ≤ 8).trans (hh.len b hb).1

/-- Blocks from an address on. -/
theorem mem_of_le {x : ℕ × Block} (hlen : ∀ b ∈ xs, 0 < b.len) (hx : x ∈ placed 0 (xs ++ ys))
    (hle : span xs ≤ x.1) : x.2 ∈ ys := by
  rw [placed_append, List.mem_append] at hx
  rcases hx with hx | hx
  · have hbounds := bounds_of_mem_placed hx
    have := hlen x.2 (mem_of_mem_placed hx)
    omega
  · exact mem_of_mem_placed hx

theorem Heap.Holds.take {n l : ℕ} (hh : h.Holds (xs ++ ⟨l, false⟩ :: ys)) (hdvd : 4 ∣ n)
    (hroom : n + 16 ≤ l) :
    (h.take (span xs) (span xs + (n + 8))).Holds
      (xs ++ ⟨n + 8, true⟩ :: ⟨l - (n + 8), false⟩ :: ys) := by
  obtain ⟨c, rfl⟩ := Nat.exists_eq_add_of_le (show n + 8 ≤ l by omega)
  rw [Nat.add_sub_cancel_left]
  exact (hh.cut (by omega) (Nat.dvd_add hdvd (by decide)) (by omega)).setUsed true

/-- Behind a block that was just taken there is a free one. -/
theorem Heap.Holds.nextFree {c fuel : ℕ} (hh : h.Holds (xs ++ ⟨a, true⟩ :: ⟨c, false⟩ :: ys))
    (hlfree : h.lfree = span xs) : nextFree (fuel + 2) h = some (span xs + a) := by
  have hheader := hh.tiles.header
  have htotal := hh.total
  have ha := (hh.len ⟨a, true⟩ (by simp)).1
  simp only [span_append, span_cons] at htotal
  have hheader' : (h.ram (span xs + a)).used = false := by
    have htiles := hh.tiles
    rw [← List.singleton_append, ← List.append_assoc] at htiles
    have := htiles.header
    simp only [span_append, span_cons, span_nil, Nat.zero_add, Nat.add_zero] at this
    rw [this]
  rw [Nat.zero_add] at hheader
  dsimp only at hheader ha
  have hne : span xs ≠ memSize := by omega
  simp [TcpIp.nextFree, hlfree, whileM, hheader, hheader', hne]

/-- The heap after the block behind `xs` was taken: `n` bytes of it are in use, and the rest
is free. -/
structure Taken (h h' : Heap) (xs ys : List Block) (n l : ℕ) : Prop where
  room : n + 16 ≤ l
  holds : h'.Holds (xs ++ ⟨n + 8, true⟩ :: ⟨l - (n + 8), false⟩ :: ys)
  above : h.lfree ≤ span xs
  lfree : h'.lfree = if span xs = h.lfree then span xs + (n + 8) else h.lfree

/-- `mem_malloc`: the first block from `lfree` on that fits is taken. -/
theorem Heap.Holds.memMalloc (hh : h.Holds bs) {fuel size : ℕ} (hfuel : memSize + 1 < fuel)
    (hsize : 0 < size) :
    ∃ r h', memMalloc fuel h size = some (r, h') ∧
      (r = none ∧ h' = h ∧
          (∀ x ∈ placed 0 bs, h.lfree ≤ x.1 → ¬ Fits (alignSize size) x.2) ∨
        ∃ xs l ys, bs = xs ++ ⟨l, false⟩ :: ys ∧ r = some (span xs + sizeofStructMem) ∧
          Taken h h' xs ys (alignSize size) l ∧
          ∀ x ∈ placed 0 bs, h.lfree ≤ x.1 → x.1 < span xs → ¬ Fits (alignSize size) x.2) := by
  obtain ⟨fuel, rfl⟩ := Nat.exists_eq_add_of_le' (show 2 ≤ fuel by omega)
  unfold TcpIp.memMalloc
  rw [if_neg (by omega)]
  dsimp only
  by_cases hlarge : memSize < alignSize size
  · rw [if_pos hlarge]
    refine ⟨none, h, rfl, .inl ⟨rfl, rfl, fun x hx _ hfits => ?_⟩⟩
    have hbounds := (bounds_of_mem_placed hx).2
    rw [hh.total] at hbounds
    have := hfits.2
    omega
  rw [if_neg hlarge, if_pos hh.sem]
  -- the search starts at the block that `lfree` points to
  obtain ⟨x₀, hx₀, hlfree⟩ := List.mem_map.mp hh.lfree
  obtain ⟨zs, ys₀, hbs, hstart⟩ := exists_of_mem_placed hx₀
  rw [Nat.zero_add] at hstart
  have hlfree' : h.lfree = span zs := hlfree.symm.trans hstart
  have hlength := hh.length_le
  subst hbs
  have hpos : ∀ b ∈ zs, 0 < b.len := fun b hb =>
    (by norm_num : 0 < 8).trans_le (hh.len b (by simp [hb])).1
  have hrest : (x₀.2 :: ys₀).length < fuel + 2 := by
    rw [List.length_append] at hlength
    omega
  obtain ⟨q, hsearch, hresult⟩ := hh.search (n := alignSize size) hrest
  rw [findBlock, hlfree', hsearch, Option.bind_eq_bind, Option.bind_some]
  -- no block fits, or the one behind `zs ++ us` is the first that does
  rcases hresult with ⟨rfl, hnone⟩ | ⟨us, ⟨l, u⟩, vs, hsplit, hq, ⟨hfree, hroom⟩, hbefore⟩
  · rw [if_neg (lt_irrefl _)]
    exact ⟨none, h, rfl, .inl ⟨rfl, rfl, fun x hx hle => hnone x.2 (mem_of_le hpos hx hle)⟩⟩
  · dsimp only at hfree hroom
    subst hfree
    rw [hsplit, ← List.append_assoc] at hh ⊢
    have htotal := hh.total
    have hsmall : memSize < 2 ^ 16 := by decide
    have hspan : span (zs ++ us) = span zs + span us := span_append zs us
    simp only [span_append, span_cons] at htotal
    have hptr2 : (q + sizeofStructMem + alignSize size) % 2 ^ 16 =
        span (zs ++ us) + (alignSize size + 8) := by
      rw [hq, hspan]
      unfold sizeofStructMem
      omega
    have htaken := hh.take (four_dvd_alignSize size) hroom
    have hnone : ∀ x ∈ placed 0 (zs ++ us ++ ⟨l, false⟩ :: vs), span zs ≤ x.1 →
        x.1 < span (zs ++ us) → ¬ Fits (alignSize size) x.2 := by
      intro x hx hge hlt
      rw [placed_append, List.mem_append] at hx
      rcases hx with hx | hx
      · exact hbefore x.2 (mem_of_le hpos hx hge)
      · have hbounds := bounds_of_mem_placed hx
        omega
    rw [if_pos (by omega), hptr2, hq]
    have hlfree₁ : (h.take (span (zs ++ us)) (span (zs ++ us) + (alignSize size + 8))).lfree =
        h.lfree := rfl
    rw [hlfree₁]
    -- `lfree` moves on only if the block it points to was taken
    by_cases hfirst : span (zs ++ us) = h.lfree
    · have hstart : span (zs ++ us) + (alignSize size + 8) ∈ (placed 0 (zs ++ us ++
          ⟨alignSize size + 8, true⟩ :: ⟨l - (alignSize size + 8), false⟩ :: vs)).map Prod.fst := by
        simp
      rw [if_pos hfirst, htaken.nextFree hfirst.symm, Option.bind_some]
      refine ⟨_, _, rfl, .inr ⟨zs ++ us, l, vs, rfl, rfl, ⟨hroom, htaken.setLfree hstart, ?_, ?_⟩, ?_⟩⟩
      · exact hfirst.ge
      · rw [if_pos hfirst]
      · exact hnone
    · rw [if_neg hfirst, Option.bind_some]
      refine ⟨_, _, rfl, .inr ⟨zs ++ us, l, vs, rfl, rfl, ⟨hroom, htaken, ?_, ?_⟩, ?_⟩⟩
      · omega
      · rw [if_neg hfirst]
      · exact hnone

theorem Taken.lfree_le {n l : ℕ} (ht : Taken h h' xs ys n l) : h'.lfree ≤ span xs + (n + 8) := by
  have habove := ht.above
  rw [ht.lfree]
  split_ifs <;> omega

theorem Taken.lowest {n l : ℕ} (ht : Taken h h' xs ys n l)
    (hl : h.Lowest (xs ++ ⟨l, false⟩ :: ys)) :
    h'.Lowest (xs ++ ⟨n + 8, true⟩ :: ⟨l - (n + 8), false⟩ :: ys) := by
  have hroom := ht.room
  have hle := ht.lfree_le
  intro x hx hfree
  simp only [placed_append, placed_cons, Nat.zero_add, List.mem_append, List.mem_cons] at hx
  rcases hx with hx | rfl | rfl | hx
  · -- a free block before the one that was taken: `lfree` was not moved
    have hold := hl x (by simp [hx]) hfree
    have hbounds := bounds_of_mem_placed hx
    have hlen := (ht.holds.len x.2 (by simp [mem_of_mem_placed hx])).1
    rw [ht.lfree, if_neg (by omega)]
    exact hold
  · cases hfree
  · exact hle
  · have hbounds := bounds_of_mem_placed hx
    omega

theorem Taken.apart {n l : ℕ} (hapart : Apart (xs ++ ⟨l, false⟩ :: ys)) :
    Apart (xs ++ ⟨n + 8, true⟩ :: ⟨l - (n + 8), false⟩ :: ys) := by
  rw [Apart, List.isChain_append] at hapart ⊢
  obtain ⟨hxs, hys, -⟩ := hapart
  refine ⟨hxs, List.isChain_cons_cons.mpr ⟨.inl rfl, Apart.of_used_eq hys rfl⟩, ?_⟩
  simp

theorem Taken.used {n l : ℕ} (ht : Taken h h' xs ys n l) :
    usedBlocks 0 (xs ++ ⟨l, false⟩ :: ys) = usedBlocks 0 xs ++ usedBlocks (span xs + l) ys ∧
      usedBlocks 0 (xs ++ ⟨n + 8, true⟩ :: ⟨l - (n + 8), false⟩ :: ys) =
        usedBlocks 0 xs ++ (span xs, ⟨n + 8, true⟩) :: usedBlocks (span xs + l) ys := by
  have hroom := ht.room
  have hend : span xs + (n + 8) + (l - (n + 8)) = span xs + l := by omega
  simp [hend]

/-! ### Giving back a part -/

/-- `mem_realloc` of a used block to at most its room. -/
theorem Heap.Holds.memRealloc {newsize : ℕ} (hh : h.Holds (xs ++ ⟨a, true⟩ :: ys))
    (hapart : Apart (xs ++ ⟨a, true⟩ :: ys)) (hsize : alignSize newsize + 8 ≤ a) :
    ∃ h' bs' a', memRealloc h (.inside (span xs + sizeofStructMem)) newsize =
        some (.inside (span xs + sizeofStructMem), h') ∧ h'.Holds bs' ∧ Apart bs' ∧
      usedBlocks 0 bs' = usedBlocks 0 xs ++ (span xs, ⟨a', true⟩) :: usedBlocks (span xs + a) ys ∧
      alignSize newsize + 8 ≤ a' := by
  obtain ⟨hxs, hys⟩ := Apart.of_append hapart
  have htotal := hh.total
  have hheader := hh.tiles.header
  simp only [span_append, span_cons] at htotal
  rw [Nat.zero_add] at hheader
  dsimp only at hheader
  have hmem : memSize = 0x2000 := rfl
  have hroom : (span xs + a + 2 ^ 16 - span xs - sizeofStructMem) % 2 ^ 16 = a - 8 := by
    unfold sizeofStructMem
    omega
  have hptr2 : (span xs + sizeofStructMem + alignSize newsize) % 2 ^ 16 =
      span xs + (alignSize newsize + 8) := by
    unfold sizeofStructMem
    omega
  unfold TcpIp.memRealloc
  dsimp only
  rw [if_neg (by omega), if_pos hh.sem, Nat.add_sub_cancel, hheader]
  dsimp only
  rw [hroom, hptr2]
  -- the rest is cut off only if a block of the smallest size fits into it
  split_ifs with hcut
  · unfold sizeofStructMem minSize at hcut
    obtain ⟨c, rfl⟩ := Nat.exists_eq_add_of_le hsize
    have hholds := hh.cut (by omega) (Nat.dvd_add (four_dvd_alignSize newsize) (by decide))
      (by omega)
    rw [← List.singleton_append, ← List.append_assoc] at hholds
    have hbefore : Apart (xs ++ [⟨alignSize newsize + 8, true⟩]) := by
      rw [Apart, List.isChain_append]
      exact ⟨hxs, List.isChain_singleton _, by simp⟩
    obtain ⟨bs', hplugged, hapart'⟩ := hholds.plugHoles hbefore hys.tail
    rw [span_append, span_cons, span_nil, Nat.add_zero] at hplugged
    refine ⟨_, bs', alignSize newsize + 8, rfl, hplugged.holds, hapart', ?_, le_rfl⟩
    rw [hplugged.same]
    simp [Nat.add_assoc]
  · exact ⟨h, _, a, rfl, hh, hapart, by simp, hsize⟩

end Ps2rd.TcpIp
