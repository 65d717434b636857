import Ps2rd.Lib.Run
import Ps2rd.TcpIp.HeapBlocks

/-!
# Runs of the TCP/IP stack's heap

The tasks of the stack call `mem_malloc`, `mem_free` and `mem_realloc` in any order; the
semaphore makes each call one step.  Beside the heap the model keeps what the callers own:
the offset they were given and the size they asked for.  They give back only what they own,
and `mem_realloc` only makes memory smaller, as in `pbuf_realloc`.

Two things hold along every such run.  The memory of two owners never overlaps, nor does it
touch a header (`heap_safe`).  And without `mem_realloc`, the heap with its headers and its
`lfree` does what the plain rule says that never looks at them: the lowest gap is taken that
is large enough (`memMalloc_lowest_gap`).
-/

namespace Ps2rd.TcpIp

open Tiling

/-- A call of the heap. -/
inductive HeapCall
  | malloc (size : ℕ)
  | free (ptr : ℕ)
  | realloc (ptr newsize : ℕ)

/-- The heap and what its callers own, each with the size that was asked for. -/
structure Owned where
  heap : Heap
  live : List (ℕ × ℕ)

namespace HeapCall

/-- One call; `none` if it does not come back. -/
def step (fuel : ℕ) (s : Owned) : HeapCall → Option Owned
  | malloc size =>
      (memMalloc fuel s.heap size).map fun (r, heap) =>
        match r with
        | some ptr => ⟨heap, (ptr, size) :: s.live⟩
        | none => ⟨heap, s.live⟩
  | free ptr =>
      (memFree s.heap (.inside ptr)).map fun heap => ⟨heap, s.live.filter (·.1 ≠ ptr)⟩
  | realloc ptr newsize =>
      (memRealloc s.heap (.inside ptr) newsize).map fun (_, heap) =>
        ⟨heap, s.live.map fun x => if x.1 = ptr then (ptr, newsize) else x⟩

/-- What the callers keep to.  The next three sizes would be rounded up to 0 as a `u16_t`. -/
def Ok (s : Owned) : HeapCall → Prop
  | malloc size => size ≤ 65532
  | free ptr => ∃ x ∈ s.live, x.1 = ptr
  | realloc ptr newsize => ∃ x ∈ s.live, x.1 = ptr ∧ newsize ≤ x.2

instance (s : Owned) (call : HeapCall) : Decidable (call.Ok s) := by
  cases call <;> unfold Ok <;> infer_instance

/-- The call is no `mem_realloc`. -/
def Whole : HeapCall → Prop
  | realloc _ _ => False
  | _ => True

instance (call : HeapCall) : Decidable call.Whole := by
  cases call <;> unfold Whole <;> infer_instance

end HeapCall

/-! ### Owners and blocks -/

/-- A block of length `len` is one for `size` bytes, and no longer if `exact` holds. -/
def Serves (exact : Prop) (size len : ℕ) : Prop :=
  size ≤ 65532 ∧ alignSize size + 8 ≤ len ∧ (exact → len = alignSize size + 8)

/-- Each used block has one owner. -/
structure Owns (exact : Prop) (used : List (ℕ × Block)) (live : List (ℕ × ℕ)) : Prop where
  nodup : (live.map Prod.fst).Nodup
  block : ∀ x ∈ live, ∃ y ∈ used, x.1 = y.1 + 8 ∧ Serves exact x.2 y.2.len
  owner : ∀ y ∈ used, ∃ x ∈ live, x.1 = y.1 + 8 ∧ Serves exact x.2 y.2.len

section Owns

variable {exact : Prop} {used used' : List (ℕ × Block)} {live : List (ℕ × ℕ)} {p size : ℕ}
  {b b' : Block}

theorem Owns.perm (ho : Owns exact used live) (hperm : used.Perm used') : Owns exact used' live := by
  refine ⟨ho.nodup, fun x hx => ?_, fun y hy => ho.owner y (hperm.mem_iff.mpr hy)⟩
  obtain ⟨y, hy, hxy⟩ := ho.block x hx
  exact ⟨y, hperm.mem_iff.mp hy, hxy⟩

theorem Owns.insert (ho : Owns exact used live) (hne : ∀ y ∈ used, y.1 ≠ p)
    (hb : Serves exact size b.len) : Owns exact ((p, b) :: used) ((p + 8, size) :: live) := by
  refine ⟨List.nodup_cons.mpr ⟨fun hmem => ?_, ho.nodup⟩, fun x hx => ?_, fun y hy => ?_⟩
  · obtain ⟨x, hx, hxp⟩ := List.mem_map.mp hmem
    obtain ⟨y, hy, hxy, -⟩ := ho.block x hx
    exact hne y hy (by dsimp only at hxp; omega)
  · rcases List.mem_cons.mp hx with rfl | hx
    · exact ⟨(p, b), List.mem_cons_self, rfl, hb⟩
    · obtain ⟨y, hy, hxy⟩ := ho.block x hx
      exact ⟨y, List.mem_cons_of_mem _ hy, hxy⟩
  · rcases List.mem_cons.mp hy with rfl | hy
    · exact ⟨(p + 8, size), List.mem_cons_self, rfl, hb⟩
    · obtain ⟨x, hx, hxy⟩ := ho.owner y hy
      exact ⟨x, List.mem_cons_of_mem _ hx, hxy⟩

theorem Owns.remove (ho : Owns exact ((p, b) :: used) live) (hne : ∀ y ∈ used, y.1 ≠ p) :
    Owns exact used (live.filter (·.1 ≠ p + 8)) := by
  refine ⟨ho.nodup.sublist (List.filter_sublist.map _), fun x hx => ?_, fun y hy => ?_⟩
  · obtain ⟨hx, hxp⟩ := List.mem_filter.mp hx
    obtain ⟨y, hy, hxy, hserves⟩ := ho.block x hx
    rcases List.mem_cons.mp hy with rfl | hy
    · simp [hxy] at hxp
    · exact ⟨y, hy, hxy, hserves⟩
  · obtain ⟨x, hx, hxy, hserves⟩ := ho.owner y (List.mem_cons_of_mem _ hy)
    refine ⟨x, List.mem_filter.mpr ⟨hx, ?_⟩, hxy, hserves⟩
    have := hne y hy
    simpa [hxy] using this

theorem Owns.resize (ho : Owns exact ((p, b) :: used) live) (hne : ∀ y ∈ used, y.1 ≠ p)
    (hb : Serves exact size b'.len) : Owns exact ((p, b') :: used)
      (live.map fun x => if x.1 = p + 8 then (p + 8, size) else x) := by
  have hfst : ∀ x : ℕ × ℕ, (if x.1 = p + 8 then (p + 8, size) else x).1 = x.1 := by
    intro x
    split_ifs with hx
    · exact hx.symm
    · rfl
  refine ⟨?_, fun z hz => ?_, fun y hy => ?_⟩
  · rw [List.map_map]
    exact (List.map_congr_left fun x _ => hfst x) ▸ ho.nodup
  · obtain ⟨x, hx, rfl⟩ := List.mem_map.mp hz
    obtain ⟨y, hy, hxy, hserves⟩ := ho.block x hx
    split_ifs with hxp
    · exact ⟨(p, b'), List.mem_cons_self, rfl, hb⟩
    · rcases List.mem_cons.mp hy with rfl | hy
      · exact absurd hxy hxp
      · exact ⟨y, List.mem_cons_of_mem _ hy, hxy, hserves⟩
  · rcases List.mem_cons.mp hy with rfl | hy
    · obtain ⟨x, hx, hxp, -⟩ := ho.owner (p, b) List.mem_cons_self
      refine ⟨_, List.mem_map_of_mem hx, (hfst x).trans hxp, ?_⟩
      rwa [if_pos hxp]
    · obtain ⟨x, hx, hxy, hserves⟩ := ho.owner y (List.mem_cons_of_mem _ hy)
      refine ⟨_, List.mem_map_of_mem hx, (hfst x).trans hxy, ?_⟩
      have := hne y hy
      rwa [if_neg (by omega)]

end Owns

/-! ### One call -/

/-- The heap is in order, and each of its used blocks has its owner.  If no memory was given
back in part, blocks have no more room than was asked for, and `lfree` is not above a free
block. -/
def Owned.Valid (exact : Prop) (s : Owned) : Prop :=
  ∃ bs, s.heap.Holds bs ∧ Apart bs ∧ Owns exact (usedBlocks 0 bs) s.live ∧
    (exact → s.heap.Lowest bs)

variable {exact : Prop} {s t : Owned} {fuel : ℕ}

theorem Heap.Holds.used_pairwise {h : Heap} {bs : List Block} (hh : h.Holds bs) :
    (usedBlocks 0 bs).Pairwise fun x y => x.1 + 8 ≤ y.1 := by
  refine ((placed_pairwise 0 bs).filter _).imp_of_mem fun {x y} hx _ hxy => ?_
  have := (hh.len x.2 (mem_of_mem_placed (List.mem_of_mem_filter hx))).1
  omega

/-- A used block stands at an address of its own. -/
theorem Heap.Holds.used_ne {h : Heap} {bs : List Block} (hh : h.Holds bs) {p : ℕ} {b : Block}
    {us vs : List (ℕ × Block)} (hused : usedBlocks 0 bs = us ++ (p, b) :: vs) :
    ∀ y ∈ us ++ vs, y.1 ≠ p := by
  have hpairwise := hh.used_pairwise
  rw [hused, List.pairwise_append] at hpairwise
  obtain ⟨-, hvs, hcross⟩ := hpairwise
  intro y hy
  rcases List.mem_append.mp hy with hy | hy
  · have := hcross y hy (p, b) List.mem_cons_self
    dsimp only at this
    omega
  · have := (List.pairwise_cons.mp hvs).1 y hy
    dsimp only at this
    omega

/-- The block of an owner. -/
theorem Owns.exists_block {bs : List Block} {live : List (ℕ × ℕ)} {x : ℕ × ℕ}
    (ho : Owns exact (usedBlocks 0 bs) live) (hx : x ∈ live) :
    ∃ xs a ys, bs = xs ++ ⟨a, true⟩ :: ys ∧ x.1 = span xs + sizeofStructMem ∧
      Serves exact x.2 a := by
  obtain ⟨y, hy, hxy, hserves⟩ := ho.block x hx
  obtain ⟨hy, hused⟩ := mem_usedBlocks.mp hy
  obtain ⟨xs, ys, hbs, hstart⟩ := exists_of_mem_placed hy
  obtain ⟨q, a, u⟩ := y
  dsimp only at *
  subst hused
  exact ⟨xs, a, ys, hbs, by rw [hxy, hstart, Nat.zero_add]; rfl, hserves⟩

theorem serves_alignSize {size : ℕ} (hsize : size ≤ 65532) :
    Serves exact size (alignSize size + 8) := ⟨hsize, le_rfl, fun _ => rfl⟩

theorem Owned.Valid.malloc (hv : s.Valid exact) (hfuel : memSize + 1 < fuel) {size : ℕ}
    (hok : size ≤ 65532) : ∃ t, HeapCall.step fuel s (.malloc size) = some t ∧ t.Valid exact := by
  obtain ⟨bs, hh, hapart, ho, hlow⟩ := hv
  rcases Nat.eq_zero_or_pos size with rfl | hsize
  · exact ⟨s, rfl, bs, hh, hapart, ho, hlow⟩
  obtain ⟨r, h', hmalloc, hresult⟩ := hh.memMalloc hfuel hsize
  rw [HeapCall.step, hmalloc]
  rcases hresult with ⟨rfl, rfl, -⟩ | ⟨xs, l, ys, rfl, rfl, htaken, -⟩
  · exact ⟨_, rfl, bs, hh, hapart, ho, hlow⟩
  · refine ⟨_, rfl, _, htaken.holds, Taken.apart hapart, ?_, fun he => htaken.lowest (hlow he)⟩
    rw [htaken.used.1] at ho
    have hne := htaken.holds.used_ne htaken.used.2
    rw [htaken.used.2]
    exact (ho.insert hne (serves_alignSize hok)).perm List.perm_middle.symm

theorem Owned.Valid.free (hv : s.Valid exact) {ptr : ℕ} (hok : ∃ x ∈ s.live, x.1 = ptr) :
    ∃ t, HeapCall.step fuel s (.free ptr) = some t ∧ t.Valid exact := by
  obtain ⟨bs, hh, hapart, ho, hlow⟩ := hv
  obtain ⟨x, hx, rfl⟩ := hok
  obtain ⟨xs, a, ys, rfl, hptr, -⟩ := ho.exists_block hx
  obtain ⟨h', bs', hfree, hh', hapart', hused', hlow'⟩ := hh.memFree hapart
  rw [HeapCall.step, hptr, hfree]
  refine ⟨_, rfl, bs', hh', hapart', ?_, fun he => hlow' (hlow he)⟩
  have hused : usedBlocks 0 (xs ++ ⟨a, true⟩ :: ys) =
      usedBlocks 0 xs ++ (span xs, ⟨a, true⟩) :: usedBlocks (span xs + a) ys := by simp
  have hne := hh.used_ne hused
  rw [hused] at ho
  rw [hused']
  exact (ho.perm List.perm_middle).remove hne

theorem alignSize_mono {m n : ℕ} (hmn : m ≤ n) (hn : n ≤ 65532) : alignSize m ≤ alignSize n := by
  unfold alignSize memAlignment sizeofStructMem
  split_ifs <;> omega

theorem Owned.Valid.realloc (hv : s.Valid False) {ptr newsize : ℕ}
    (hok : ∃ x ∈ s.live, x.1 = ptr ∧ newsize ≤ x.2) :
    ∃ t, HeapCall.step fuel s (.realloc ptr newsize) = some t ∧ t.Valid False := by
  obtain ⟨bs, hh, hapart, ho, -⟩ := hv
  obtain ⟨x, hx, rfl, hsmaller⟩ := hok
  obtain ⟨xs, a, ys, rfl, hptr, hserves⟩ := ho.exists_block hx
  have halign := alignSize_mono hsmaller hserves.1
  have hroom : alignSize newsize + 8 ≤ a := by
    have := hserves.2.1
    omega
  obtain ⟨h', bs', a', hrealloc, hh', hapart', hused', hlarge⟩ := hh.memRealloc hapart hroom
  rw [HeapCall.step, hptr, hrealloc]
  refine ⟨_, rfl, bs', hh', hapart', ?_, False.elim⟩
  have hused : usedBlocks 0 (xs ++ ⟨a, true⟩ :: ys) =
      usedBlocks 0 xs ++ (span xs, ⟨a, true⟩) :: usedBlocks (span xs + a) ys := by simp
  have hne := hh.used_ne hused
  rw [hused] at ho
  rw [hused']
  exact ((ho.perm List.perm_middle).resize hne ⟨hsmaller.trans hserves.1, hlarge, False.elim⟩).perm
    List.perm_middle.symm

/-- Every call that its caller may make comes back and keeps the heap in order. -/
theorem Owned.Valid.step (hv : s.Valid False) (hfuel : memSize + 1 < fuel) {call : HeapCall}
    (hok : call.Ok s) : ∃ t, HeapCall.step fuel s call = some t ∧ t.Valid False := by
  cases call with
  | malloc size => exact hv.malloc hfuel hok
  | free ptr => exact hv.free hok
  | realloc ptr newsize => exact hv.realloc hok

/-- The same without `mem_realloc`, where blocks stay as they were asked for. -/
theorem Owned.Valid.step_whole (hv : s.Valid True) (hfuel : memSize + 1 < fuel) {call : HeapCall}
    (hok : call.Ok s) (hwhole : call.Whole) :
    ∃ t, HeapCall.step fuel s call = some t ∧ t.Valid True := by
  cases call with
  | malloc size => exact hv.malloc hfuel hok
  | free ptr => exact hv.free hok
  | realloc ptr newsize => exact hwhole.elim

theorem memInit_valid : Owned.Valid exact ⟨memInit, []⟩ := by
  refine ⟨[⟨memSize, false⟩], ⟨⟨rfl, by decide, trivial⟩, rfl, rfl, ?_, ?_, rfl⟩,
    List.isChain_singleton _, ⟨List.nodup_nil, by simp, by simp [usedBlocks]⟩, ?_⟩
  · intro b hb
    rw [List.mem_singleton.mp hb]
    decide
  · exact List.mem_cons_self
  · exact fun _ x _ _ => Nat.zero_le _

/-! ### Whole runs -/

/-- The block of an owner lies in the heap. -/
theorem Owned.Valid.live_bounds (hv : s.Valid exact) {x : ℕ × ℕ} (hx : x ∈ s.live) :
    4 ∣ x.1 ∧ 8 ≤ x.1 ∧ x.1 + x.2 ≤ memSize := by
  obtain ⟨bs, hh, -, ho, -⟩ := hv
  obtain ⟨xs, a, ys, rfl, hptr, hsize, hroom, -⟩ := ho.exists_block hx
  have htotal := hh.total
  have hle := le_alignSize hsize
  have hdvd : 4 ∣ span xs := List.dvd_sum fun n hn => by
    obtain ⟨b, hb, rfl⟩ := List.mem_map.mp hn
    exact (hh.len b (by simp [hb])).2
  simp only [span_append, span_cons] at htotal
  unfold sizeofStructMem at hptr
  rw [hptr]
  exact ⟨Nat.dvd_add hdvd (by decide), by omega, by omega⟩

/-- The blocks of two owners do not overlap, headers included. -/
theorem Owned.Valid.live_pairwise (hv : s.Valid exact) :
    s.live.Pairwise fun x y => x.1 + x.2 + 8 ≤ y.1 ∨ y.1 + y.2 + 8 ≤ x.1 := by
  obtain ⟨bs, hh, -, ho, -⟩ := hv
  have hsymm : Std.Symm fun x y : ℕ × Block => x.1 + x.2.len ≤ y.1 ∨ y.1 + y.2.len ≤ x.1 :=
    ⟨fun _ _ h => h.symm⟩
  have hblocks : (usedBlocks 0 bs).Pairwise fun x y =>
      x.1 + x.2.len ≤ y.1 ∨ y.1 + y.2.len ≤ x.1 :=
    ((placed_pairwise 0 bs).filter _).imp .inl
  refine (List.pairwise_map.mp ho.nodup).imp_of_mem fun {x y} hx hy hne => ?_
  obtain ⟨z, hz, hxz, hxsize, hxroom, -⟩ := ho.block x hx
  obtain ⟨w, hw, hyw, hysize, hyroom, -⟩ := ho.block y hy
  have hzw : z ≠ w := fun heq => hne (by rw [hxz, hyw, heq])
  have hxle := le_alignSize hxsize
  have hyle := le_alignSize hysize
  have := hblocks.forall hz hw hzw
  omega

/-- A heap that nobody owns a part of is one free block. -/
theorem Owned.Valid.heap_of_live_nil (hv : s.Valid exact) (hlive : s.live = []) :
    s.heap.ram 0 = ⟨memSize, 0, false⟩ ∧ s.heap.lfree = 0 := by
  obtain ⟨bs, hh, hapart, ho, -⟩ := hv
  have hfree : ∀ b ∈ bs, b.used = false := by
    intro b hb
    by_contra hused
    obtain ⟨xs, ys, rfl⟩ := List.append_of_mem hb
    obtain ⟨x, hx, -⟩ := ho.owner (span xs, b) (mem_usedBlocks.mpr ⟨by simp, by simpa using hused⟩)
    simp [hlive] at hx
  obtain ⟨b, hbs⟩ : ∃ b, bs = [b] := by
    cases bs with
    | nil => exact absurd hh.total (by decide)
    | cons b bs =>
        cases bs with
        | nil => exact ⟨b, rfl⟩
        | cons b' bs =>
            have hused := (List.isChain_cons_cons.mp hapart).1
            simp [hfree b, hfree b'] at hused
  subst hbs
  have htotal := hh.total
  rw [span_cons, span_nil, Nat.add_zero] at htotal
  refine ⟨?_, by simpa using hh.lfree⟩
  rw [hh.tiles.1, htotal, Nat.zero_add, hfree b List.mem_cons_self]

/-- Along every run of calls, in whatever order the tasks make them: a call comes back, the
memory that it gave out is aligned and lies in the heap, two owners share no byte and no
header, and when all is given back the heap is as `mem_init` left it. -/
theorem heap_safe (hfuel : memSize + 1 < fuel) {calls : List HeapCall}
    (hrun : Run (HeapCall.step fuel) (fun s call => call.Ok s) ⟨memInit, []⟩ calls s) :
    (∀ call : HeapCall, call.Ok s → ∃ t, HeapCall.step fuel s call = some t) ∧
      (∀ x ∈ s.live, 4 ∣ x.1 ∧ 8 ≤ x.1 ∧ x.1 + x.2 ≤ memSize) ∧
      (s.live.Pairwise fun x y => x.1 + x.2 + 8 ≤ y.1 ∨ y.1 + y.2 + 8 ≤ x.1) ∧
      (s.live = [] → s.heap.ram 0 = ⟨memSize, 0, false⟩ ∧ s.heap.lfree = 0) := by
  have hvalid : s.Valid False := by
    refine hrun.invariant memInit_valid fun a call b hv hok hstep => ?_
    obtain ⟨t, ht, hvt⟩ := hv.step hfuel hok
    rw [hstep] at ht
    exact Option.some.inj ht ▸ hvt
  refine ⟨fun call hok => ?_, fun x => hvalid.live_bounds, hvalid.live_pairwise,
    hvalid.heap_of_live_nil⟩
  obtain ⟨t, ht, -⟩ := hvalid.step hfuel hok
  exact ⟨t, ht⟩

/-- Two buffers, of which the second is made smaller and the first is given back. -/
def sampleCalls : List HeapCall := [.malloc 100, .malloc 200, .realloc 116 40, .free 8]

set_option maxRecDepth 1000 in
theorem heap_safe_sampleCalls :
    ∃ s, Run (HeapCall.step 8200) (fun s call => call.Ok s) ⟨memInit, []⟩ sampleCalls s ∧
      s.live = [(116, 40)] ∧ ∀ call : HeapCall, call.Ok s →
        ∃ t, HeapCall.step 8200 s call = some t := by
  have hsome : ((Run.along (HeapCall.step 8200) (fun s call => call.Ok s) ⟨memInit, []⟩
      sampleCalls).map Owned.live) = some [(116, 40)] := by decide
  obtain ⟨s, hs, hlive⟩ := Option.map_eq_some_iff.mp hsome
  have hrun := Run.of_along hs
  exact ⟨s, hrun, hlive, (heap_safe (by decide) hrun).1⟩

/-! ### The lowest gap -/

/-- The `n` bytes from `a` on belong to nobody. -/
def Gap (live : List (ℕ × ℕ)) (n a : ℕ) : Prop :=
  a + n ≤ memSize ∧
    ∀ x ∈ live, a + n + sizeofStructMem ≤ x.1 ∨ x.1 + alignSize x.2 ≤ a

theorem Owns.gap_iff {bs : List Block} {live : List (ℕ × ℕ)} {n a : ℕ}
    (ho : Owns True (usedBlocks 0 bs) live) : Gap live n a ↔ a + n ≤ memSize ∧
      ∀ y ∈ placed 0 bs, y.2.used = true → a + n ≤ y.1 ∨ y.1 + y.2.len ≤ a := by
  refine and_congr_right fun _ => ⟨fun hgap y hy hused => ?_, fun hgap x hx => ?_⟩
  · obtain ⟨x, hx, hxy, -, -, hexact⟩ := ho.owner y (mem_usedBlocks.mpr ⟨hy, hused⟩)
    have hlen := hexact trivial
    have := hgap x hx
    unfold sizeofStructMem at this
    omega
  · obtain ⟨y, hy, hxy, -, -, hexact⟩ := ho.block x hx
    obtain ⟨hy, hused⟩ := mem_usedBlocks.mp hy
    have hlen := hexact trivial
    have := hgap y hy hused
    unfold sizeofStructMem
    omega

/-- The bytes of a free block are a gap. -/
theorem gap_of_free {xs ys : List Block} {l n : ℕ} {live : List (ℕ × ℕ)} {h : Heap}
    (hh : h.Holds (xs ++ ⟨l, false⟩ :: ys))
    (ho : Owns True (usedBlocks 0 (xs ++ ⟨l, false⟩ :: ys)) live) (hn : n ≤ l) :
    Gap live n (span xs) := by
  have htotal := hh.total
  simp only [span_append, span_cons] at htotal
  refine ho.gap_iff.mpr ⟨by omega, fun y hy hused => ?_⟩
  simp only [placed_append, placed_cons, Nat.zero_add, List.mem_append, List.mem_cons] at hy
  rcases hy with hy | rfl | hy
  · have := bounds_of_mem_placed hy
    omega
  · cases hused
  · have := bounds_of_mem_placed hy
    omega

/-- As long as no memory is given back in part, `mem_malloc` takes the lowest gap with
room for the block and another header, and fails only if there is none. -/
theorem memMalloc_lowest_gap (hfuel : memSize + 1 < fuel) {calls : List HeapCall} {size : ℕ}
    (hrun : Run (HeapCall.step fuel) (fun s call => call.Ok s ∧ call.Whole) ⟨memInit, []⟩ calls s)
    (hsize : 0 < size) :
    ∃ r h, memMalloc fuel s.heap size = some (r, h) ∧
      (r = none ∧ (∀ a, ¬ Gap s.live (alignSize size + 16) a) ∨
        ∃ a, r = some (a + sizeofStructMem) ∧
          IsLeast {a | Gap s.live (alignSize size + 16) a} a) := by
  have hvalid : s.Valid True := by
    refine hrun.invariant memInit_valid fun a call b hv hok hstep => ?_
    obtain ⟨t, ht, hvt⟩ := hv.step_whole hfuel hok.1 hok.2
    rw [hstep] at ht
    exact Option.some.inj ht ▸ hvt
  obtain ⟨bs, hh, hapart, ho, hlow⟩ := hvalid
  -- a gap lies in a free block that the search does not skip
  have hfits : ∀ a, Gap s.live (alignSize size + 16) a →
      ∃ x ∈ placed 0 bs, Fits (alignSize size) x.2 ∧ s.heap.lfree ≤ x.1 ∧ x.1 ≤ a := by
    intro a hgap
    obtain ⟨hhigh, hgap⟩ := ho.gap_iff.mp hgap
    rw [← hh.total, ← Nat.zero_add (span bs)] at hhigh
    obtain ⟨x, hx, hfree, hxa, hroom⟩ :=
      exists_free_of_gap (by omega) hapart (Nat.zero_le a) hhigh hgap
    exact ⟨x, hx, ⟨hfree, by omega⟩, hlow trivial x hx hfree, hxa⟩
  obtain ⟨r, h, hmalloc, hresult⟩ := hh.memMalloc hfuel hsize
  refine ⟨r, h, hmalloc, ?_⟩
  rcases hresult with ⟨hr, -, hnone⟩ | ⟨xs, l, ys, rfl, hr, htaken, hbefore⟩
  · refine .inl ⟨hr, fun a hgap => ?_⟩
    obtain ⟨x, hx, hxfits, hle, -⟩ := hfits a hgap
    exact hnone x hx hle hxfits
  · refine .inr ⟨span xs, hr, gap_of_free hh ho htaken.room, fun a hgap => ?_⟩
    obtain ⟨x, hx, hxfits, hle, hxa⟩ := hfits a hgap
    by_contra hlt
    exact hbefore x hx hle (by omega) hxfits

/-- Two buffers, of which the first is given back: it is the lowest gap again. -/
theorem memMalloc_lowest_gap_sampleFree :
    ∃ s, Run (HeapCall.step 8200) (fun s call => call.Ok s ∧ call.Whole) ⟨memInit, []⟩
        [.malloc 100, .malloc 200, .free 8] s ∧ s.live = [(116, 200)] ∧
      ∃ r h, memMalloc 8200 s.heap 20 = some (r, h) ∧
        (r = none ∧ (∀ a, ¬ Gap s.live (alignSize 20 + 16) a) ∨
          ∃ a, r = some (a + sizeofStructMem) ∧
            IsLeast {a | Gap s.live (alignSize 20 + 16) a} a) := by
  have hsome : ((Run.along (HeapCall.step 8200) (fun s call => call.Ok s ∧ call.Whole)
      ⟨memInit, []⟩ [.malloc 100, .malloc 200, .free 8]).map Owned.live) = some [(116, 200)] := by
    decide
  obtain ⟨s, hs, hlive⟩ := Option.map_eq_some_iff.mp hsome
  have hrun := Run.of_along hs
  exact ⟨s, hrun, hlive, memMalloc_lowest_gap (by decide) hrun (by decide)⟩

end Ps2rd.TcpIp
