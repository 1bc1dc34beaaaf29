import Mathlib.Data.Finset.Card
import Mathlib.Data.Finset.Range
import Mathlib.Logic.Function.Basic

/-!
# Counting references

The slots of a pool may each hold a reference to an object. `refs` counts the slots in use that
refer to a given object. The lemmas say how the count changes when a slot is taken, given back, or
left alone, so that a reference counter can be compared with it.
-/

namespace Unidos.Lib

variable {ω : Type*} [DecidableEq ω]

/-- The number of slots in use, among the first `n`, that refer to `o`. -/
def refs (n : Nat) (used : Nat → Bool) (ptr : Nat → Option ω) (o : ω) : Nat :=
  ((Finset.range n).filter fun i => used i = true ∧ ptr i = some o).card

section Refs

variable {n : Nat} {used used' : Nat → Bool} {ptr ptr' : Nat → Option ω} {o : ω}

theorem refs_le (n : Nat) (used : Nat → Bool) (ptr : Nat → Option ω) (o : ω) :
    refs n used ptr o ≤ n :=
  (Finset.card_filter_le _ _).trans_eq (Finset.card_range n)

theorem refs_congr (hused : ∀ i, used' i = used i) (hptr : ∀ i, used i = true → ptr' i = ptr i) :
    refs n used' ptr' o = refs n used ptr o := by
  unfold refs
  congr 1
  refine Finset.filter_congr fun i _ => ?_
  rw [hused i]
  exact and_congr_right fun hi => by rw [hptr i hi]

theorem refs_eq_zero (h : ∀ i, used i = true → ptr i ≠ some o) : refs n used ptr o = 0 := by
  unfold refs
  rw [Finset.card_eq_zero, Finset.filter_eq_empty_iff]
  intro i _ hi
  exact h i hi.1 hi.2

theorem refs_pos {i : Nat} (hi : i < n) (hused : used i = true) (hptr : ptr i = some o) :
    0 < refs n used ptr o :=
  Finset.card_pos.mpr ⟨i, by simp [hi, hused, hptr]⟩

/-- Taking slot `i` adds the reference that it holds. -/
theorem refs_take {i : Nat} (hi : i < n) (hfree : used i = false)
    (hptr : ∀ j, j ≠ i → ptr' j = ptr j) :
    refs n (Function.update used i true) ptr' o =
      refs n used ptr o + if ptr' i = some o then 1 else 0 := by
  have hother : refs n used ptr' o = refs n used ptr o :=
    refs_congr (fun _ => rfl) fun j hj => hptr j fun heq => by simp [heq, hfree] at hj
  rw [← hother]
  unfold refs
  have hout : i ∉ (Finset.range n).filter fun j => used j = true ∧ ptr' j = some o := by
    simp [hfree]
  split
  · rename_i ho
    rw [← Finset.card_insert_of_notMem hout]
    congr 1
    ext j
    by_cases hj : j = i
    · simp [hj, hi, ho]
    · simp [hj]
  · rename_i ho
    rw [Nat.add_zero]
    congr 1
    refine Finset.filter_congr fun j _ => ?_
    by_cases hj : j = i
    · simp [hj, ho]
    · simp [hj]

/-- Giving slot `i` back takes its reference away. -/
theorem refs_drop {i : Nat} (hi : i < n) (hused : used i = true)
    (hptr : ∀ j, j ≠ i → ptr' j = ptr j) :
    refs n used ptr o =
      refs n (Function.update used i false) ptr' o + if ptr i = some o then 1 else 0 := by
  have h : refs n (Function.update (Function.update used i false) i true) ptr o =
      refs n (Function.update used i false) ptr' o + if ptr i = some o then 1 else 0 :=
    refs_take hi (Function.update_self i false used) fun j hj => (hptr j hj).symm
  rwa [Function.update_idem, ← hused, Function.update_eq_self] at h

end Refs

end Unidos.Lib
