import Mathlib.Tactic

/-!
# Write-back caches

Slots in front of a store.  A slot is free or holds one item of the store, with the
item's key as its tag.  A dirty slot holds a newer version of its item than the store.
What such a cache stands for is one assignment of items to keys: the version of the slot
where there is one, the version of the store elsewhere.
-/

/-- Slots `ι` in front of a store of items `β` with keys `κ`. -/
@[ext]
structure WriteBack (ι κ β : Type*) where
  tag : ι → Option κ
  dirty : ι → Bool
  line : ι → β
  store : κ → β

namespace WriteBack

variable {ι κ β : Type*} {c : WriteBack ι κ β} {m : κ → β} {i : ι} {k : κ}

/-- The cache stands for the items `m`. -/
structure Represents (c : WriteBack ι κ β) (m : κ → β) : Prop where
  distinct : ∀ i j k, c.tag i = some k → c.tag j = some k → i = j
  line : ∀ i k, c.tag i = some k → c.line i = m k
  store : ∀ k, (∀ i, c.tag i = some k → c.dirty i = false) → c.store k = m k

/-- No slot holds `k`. -/
def Absent (c : WriteBack ι κ β) (k : κ) : Prop := ∀ i, c.tag i ≠ some k

/-- A cache without dirty slots has everything in the store. -/
theorem Represents.store_eq (h : c.Represents m)
    (hclean : ∀ i, c.tag i ≠ none → c.dirty i = false) : c.store = m := by
  funext k
  exact h.store k fun i hi => hclean i (by simp [hi])

variable [DecidableEq ι]

/-- Slot `i` gets the item `k` from the store. -/
def load (c : WriteBack ι κ β) (i : ι) (k : κ) : WriteBack ι κ β :=
  { c with
    tag := Function.update c.tag i (some k)
    line := Function.update c.line i (c.store k) }

/-- A clean slot may be given to an item that no slot holds. -/
theorem Represents.load (h : c.Represents m) (hclean : c.dirty i = false) (hnew : c.Absent k) :
    (c.load i k).Represents m := by
  have hstore : c.store k = m k := h.store k fun j hj => absurd hj (hnew j)
  refine ⟨fun a b k' ha hb => ?_, fun a k' ha => ?_, fun k' hk' => ?_⟩
  · simp only [WriteBack.load, Function.update_apply] at ha hb
    split_ifs at ha hb with hai hbi hbi
    · rw [hai, hbi]
    · exact absurd (ha ▸ hb) (hnew b)
    · exact absurd (hb ▸ ha) (hnew a)
    · exact h.distinct a b k' ha hb
  · simp only [WriteBack.load, Function.update_apply] at ha ⊢
    split_ifs at ha ⊢ with hai
    · rw [← Option.some.inj ha, hstore]
    · exact h.line a k' ha
  · refine h.store k' fun a ha => ?_
    by_cases hai : a = i
    · rw [hai, hclean]
    · exact hk' a ((Function.update_of_ne hai _ _).trans ha)

variable [DecidableEq κ]

/-- The item of a dirty slot goes to the store. -/
def clean (c : WriteBack ι κ β) (i : ι) : WriteBack ι κ β :=
  if c.dirty i then
    { c with
      dirty := Function.update c.dirty i false
      store := (c.tag i).elim c.store fun k => Function.update c.store k (c.line i) }
  else c

/-- Slot `i` gets a new version of the item `k`. -/
def put (c : WriteBack ι κ β) (i : ι) (k : κ) (b : β) : WriteBack ι κ β :=
  { c with
    tag := Function.update c.tag i (some k)
    dirty := Function.update c.dirty i true
    line := Function.update c.line i b }

@[simp]
theorem tag_clean (c : WriteBack ι κ β) (i : ι) : (c.clean i).tag = c.tag := by
  unfold clean
  split_ifs <;> rfl

@[simp]
theorem line_clean (c : WriteBack ι κ β) (i : ι) : (c.clean i).line = c.line := by
  unfold clean
  split_ifs <;> rfl

theorem dirty_clean (c : WriteBack ι κ β) (i : ι) :
    (c.clean i).dirty = Function.update c.dirty i false := by
  unfold clean
  split_ifs with hdirty
  · rfl
  · exact (Function.update_eq_self_iff.mpr (Bool.eq_false_iff.mpr hdirty).symm).symm

/-- Writing an item back does not change what the cache stands for. -/
theorem Represents.clean (h : c.Represents m) (i : ι) : (c.clean i).Represents m := by
  refine ⟨?_, ?_, fun k hk => ?_⟩
  · simpa only [tag_clean] using h.distinct
  · simpa only [tag_clean, line_clean] using h.line
  · rw [tag_clean, dirty_clean] at hk
    unfold WriteBack.clean
    split_ifs with hdirty
    · dsimp only
      cases htag : c.tag i with
      | none =>
          refine h.store k fun j hj => ?_
          have hne : j ≠ i := fun heq => by simp [heq, htag] at hj
          simpa [Function.update_of_ne hne] using hk j hj
      | some k' =>
          rw [Option.elim_some]
          by_cases hkk : k = k'
          · rw [hkk, Function.update_self, h.line i k' htag]
          · rw [Function.update_of_ne hkk]
            refine h.store k fun j hj => ?_
            have hne : j ≠ i := fun heq => hkk (by simpa [heq, htag] using hj.symm)
            simpa [Function.update_of_ne hne] using hk j hj
    · refine h.store k fun j hj => ?_
      by_cases hne : j = i
      · rw [hne]
        exact Bool.eq_false_iff.mpr hdirty
      · simpa [Function.update_of_ne hne] using hk j hj

/-- A new version of an item goes to its slot, or to a clean one if it has none. -/
theorem Represents.put (h : c.Represents m)
    (hslot : c.tag i = some k ∨ c.dirty i = false ∧ c.Absent k) (b : β) :
    (c.put i k b).Represents (Function.update m k b) := by
  -- no other slot has the tag
  have hother : ∀ a, a ≠ i → c.tag a ≠ some k := by
    intro a hai ha
    rcases hslot with hi | ⟨-, habsent⟩
    · exact hai (h.distinct a i k ha hi)
    · exact habsent a ha
  refine ⟨fun a a' k' ha ha' => ?_, fun a k' ha => ?_, fun k' hk' => ?_⟩
  · simp only [WriteBack.put, Function.update_apply] at ha ha'
    split_ifs at ha ha' with hai hai' hai'
    · rw [hai, hai']
    · exact absurd (ha ▸ ha') (hother a' hai')
    · exact absurd (ha' ▸ ha) (hother a hai)
    · exact h.distinct a a' k' ha ha'
  · simp only [WriteBack.put, Function.update_apply] at ha ⊢
    split_ifs at ha ⊢ with hai hk' hk'
    · rfl
    · exact absurd (Option.some.inj ha).symm hk'
    · exact absurd (hk' ▸ ha) (hother a hai)
    · exact h.line a k' ha
  · have hne : k' ≠ k := by
      rintro rfl
      have hi := hk' i (by simp [WriteBack.put])
      simp [WriteBack.put] at hi
    rw [Function.update_of_ne hne]
    refine h.store k' fun a ha => ?_
    by_cases hai : a = i
    · rcases hslot with hi | ⟨hclean, -⟩
      · rw [hai, hi] at ha
        exact absurd (Option.some.inj ha).symm hne
      · rw [hai, hclean]
    · have hdirty := hk' a ((Function.update_of_ne hai _ _).trans ha)
      exact (Function.update_of_ne hai _ _).symm.trans hdirty

/-! ### Cleaning several slots -/

@[simp]
theorem tag_foldl_clean (c : WriteBack ι κ β) (l : List ι) :
    (l.foldl clean c).tag = c.tag := by
  induction l generalizing c with
  | nil => rfl
  | cons i l ih => rw [List.foldl_cons, ih, tag_clean]

theorem dirty_foldl_clean (c : WriteBack ι κ β) (l : List ι) (i : ι) :
    (l.foldl clean c).dirty i = (decide (i ∉ l) && c.dirty i) := by
  induction l generalizing c with
  | nil => simp
  | cons j l ih =>
      rw [List.foldl_cons, ih, dirty_clean, Function.update_apply]
      by_cases hij : i = j <;> simp [hij]

end WriteBack
