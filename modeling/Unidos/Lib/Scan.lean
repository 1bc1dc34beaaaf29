import Mathlib.Data.Nat.Notation

/-!
# Circular scans

`circFind n p k f` looks at up to `k` indices, starting at `f` and wrapping from `n - 1` to `0`,
and returns the first one that satisfies `p`.
-/

namespace Unidos.Lib

/-- The first of `k` indices from `f` on, wrapping at `n`, that satisfies `p`. -/
def circFind (n : Nat) (p : Nat → Bool) : Nat → Nat → Option Nat
  | 0, _ => none
  | k + 1, f => if p f then some f else circFind n p k (if f + 1 ≥ n then 0 else f + 1)

/-- The index after `f` in a circular scan is still in range. -/
theorem circ_next_lt {n f : Nat} (hf : f < n) : (if f + 1 ≥ n then 0 else f + 1) < n := by
  split <;> omega

/-- A scan only returns indices that satisfy the test. -/
theorem circFind_sound {n : Nat} {p : Nat → Bool} {k f g : Nat}
    (h : circFind n p k f = some g) : p g = true := by
  induction k generalizing f with
  | zero => simp [circFind] at h
  | succ k ih =>
      unfold circFind at h
      by_cases hp : p f = true
      · simp only [hp, if_true, Option.some.injEq] at h
        exact h ▸ hp
      · exact ih (by simpa [hp] using h)

/-- A scan that starts in range returns an index in range. -/
theorem circFind_lt {n : Nat} {p : Nat → Bool} {k f g : Nat} (hf : f < n)
    (h : circFind n p k f = some g) : g < n := by
  induction k generalizing f with
  | zero => simp [circFind] at h
  | succ k ih =>
      unfold circFind at h
      by_cases hp : p f = true
      · simp only [hp, if_true, Option.some.injEq] at h
        exact h ▸ hf
      · exact ih (circ_next_lt hf) (by simpa [hp] using h)

/-- A scan that starts below everything that satisfies the test finds the least such index. -/
theorem circFind_le {n : Nat} {p : Nat → Bool} {k f g : Nat}
    (hleast : ∀ i, i < n → p i = true → f ≤ i) (h : circFind n p k f = some g) :
    ∀ i, i < n → p i = true → g ≤ i := by
  induction k generalizing f with
  | zero => simp [circFind] at h
  | succ k ih =>
      unfold circFind at h
      by_cases hp : p f = true
      · simp only [hp, if_true, Option.some.injEq] at h
        exact h ▸ hleast
      · refine ih (fun i hi hpi => ?_) (by simpa [hp] using h)
        have hle := hleast i hi hpi
        have hne : i ≠ f := fun heq => hp (heq ▸ hpi)
        split <;> omega

/-- A scan that finds nothing has met a failing test at every index on its way. -/
theorem circFind_none {n : Nat} {p : Nat → Bool} {k f : Nat} (hf : f < n)
    (h : circFind n p k f = none) : ∀ j, j < k → p ((f + j) % n) = false := by
  induction k generalizing f with
  | zero => simp
  | succ k ih =>
      unfold circFind at h
      have hp : p f = false := by
        cases hp : p f with
        | false => rfl
        | true => simp [hp] at h
      rw [hp, if_neg (by simp)] at h
      intro j hj
      cases j with
      | zero => rwa [Nat.add_zero, Nat.mod_eq_of_lt hf]
      | succ j =>
          have hnext := ih (circ_next_lt hf) h j (by omega)
          split at hnext
          · rename_i hge
            rwa [show f + (j + 1) = n + (0 + j) by omega, Nat.add_mod_left]
          · rwa [show f + (j + 1) = f + 1 + j by omega]

/-- A full round that finds nothing has tried everything. -/
theorem circFind_round {n : Nat} {p : Nat → Bool} {f : Nat} (hf : f < n)
    (h : circFind n p n f = none) {i : Nat} (hi : i < n) : p i = false := by
  by_cases hle : f ≤ i
  · have := circFind_none hf h (i - f) (by omega)
    rwa [show f + (i - f) = i by omega, Nat.mod_eq_of_lt hi] at this
  · have := circFind_none hf h (i + n - f) (by omega)
    rwa [show f + (i + n - f) = i + n by omega, Nat.add_mod_right, Nat.mod_eq_of_lt hi] at this

/-- A scan returns the first index on its way that satisfies the test. -/
theorem circFind_first {n : Nat} {p : Nat → Bool} {k f g : Nat} (hf : f < n)
    (h : circFind n p k f = some g) :
    ∃ j, j < k ∧ g = (f + j) % n ∧ ∀ i, i < j → p ((f + i) % n) = false := by
  induction k generalizing f with
  | zero => simp [circFind] at h
  | succ k ih =>
      unfold circFind at h
      cases hp : p f with
      | true =>
          rw [hp, if_pos rfl] at h
          obtain rfl := Option.some.inj h
          exact ⟨0, by omega, (Nat.mod_eq_of_lt hf).symm, fun i hi => absurd hi (Nat.not_lt_zero i)⟩
      | false =>
          rw [hp, if_neg (by simp)] at h
          obtain ⟨j, hj, hg, hbefore⟩ := ih (circ_next_lt hf) h
          have hstep : ∀ i, ((if f + 1 ≥ n then 0 else f + 1) + i) % n = (f + (i + 1)) % n := by
            intro i
            split
            · rw [show f + (i + 1) = n + (0 + i) by omega, Nat.add_mod_left]
            · rw [show f + (i + 1) = f + 1 + i by omega]
          refine ⟨j + 1, by omega, hg.trans (hstep j), fun i hi => ?_⟩
          cases i with
          | zero => rwa [Nat.add_zero, Nat.mod_eq_of_lt hf]
          | succ i => exact hstep i ▸ hbefore i (by omega)

/-- Two tests that agree in range give the same scan. -/
theorem circFind_congr {n : Nat} {p q : Nat → Bool} (h : ∀ f, f < n → p f = q f)
    {k f : Nat} (hf : f < n) : circFind n p k f = circFind n q k f := by
  induction k generalizing f with
  | zero => rfl
  | succ k ih =>
      simp only [circFind, h f hf]
      rw [ih (circ_next_lt hf)]

end Unidos.Lib
