import Unidos.Lib.Memory

/-!
# Strings that end with a zero byte

A string is given by the bytes from its address on. `SameTo n s t` says that two strings agree up to
their end, or for `n` bytes if they are longer; it is what `strncmp` decides, and what `strncpy`
establishes.
-/

namespace Unidos.Lib

/-- The strings agree for `n` bytes, or up to their end. -/
def SameTo (n : Nat) (s t : Nat → Byte) : Prop :=
  ∀ i, i < n → (∀ j, j < i → s j ≠ 0) → s i = t i

/-- The strings are the same. -/
def SameString (s t : Nat → Byte) : Prop := ∀ n, SameTo n s t

/-- The bytes of a string literal. -/
def chars (l : List Char) : Nat → Byte := fun i => (l.map fun c => BitVec.ofNat 8 c.toNat).getD i 0

variable {n i : Nat} {s t u dest src : Nat → Byte}

namespace SameTo

theorem refl (n : Nat) (s : Nat → Byte) : SameTo n s s := fun _ _ _ => rfl

/-- Up to the end of one string the other goes on as well. -/
theorem ne_zero (h : SameTo n s t) (hi : i ≤ n) (ht : ∀ j, j < i → t j ≠ 0) :
    ∀ j, j < i → s j ≠ 0 := by
  intro j
  induction j using Nat.strongRecOn with
  | ind j ih =>
      intro hj
      rw [h j (by omega) fun k hk => ih k hk (by omega)]
      exact ht j hj

theorem symm (h : SameTo n s t) : SameTo n t s :=
  fun i hi ht => (h i hi (h.ne_zero (by omega) ht)).symm

theorem trans (h : SameTo n s t) (h' : SameTo n t u) : SameTo n s u :=
  fun i hi hs => (h i hi hs).trans (h' i hi (h.symm.ne_zero (by omega) hs))

end SameTo

/-! ## Comparing -/

/-- The loop of a `strncmp` for `n` more bytes from index `i` on. -/
def strncmpFrom (s t : Nat → Byte) : Nat → Nat → Int
  | 0, _ => 0
  | n + 1, i =>
      if s i ≠ t i then (s i).toInt - (t i).toInt
      else if s i = 0 then 0
      else strncmpFrom s t n (i + 1)

def strncmp (n : Nat) (s t : Nat → Byte) : Int := strncmpFrom s t n 0

theorem strncmpFrom_eq_zero : strncmpFrom s t n i = 0 ↔
    ∀ k, k < n → (∀ j, j < k → s (i + j) ≠ 0) → s (i + k) = t (i + k) := by
  induction n generalizing i with
  | zero => simp [strncmpFrom]
  | succ n ih =>
      unfold strncmpFrom
      by_cases hne : s i ≠ t i
      · rw [if_pos hne]
        constructor
        · intro hzero
          exact absurd (BitVec.eq_of_toInt_eq (by omega)) hne
        · intro h
          exact absurd (h 0 (by omega) (by simp)) hne
      · rw [if_neg hne]
        have heq : s i = t i := not_not.mp hne
        by_cases hend : s i = 0
        · rw [if_pos hend]
          refine ⟨fun _ k _ hk => ?_, fun _ => rfl⟩
          cases k with
          | zero => exact heq
          | succ k => exact absurd hend (hk 0 (by omega))
        · rw [if_neg hend, ih]
          constructor
          · intro h k hlt hk
            cases k with
            | zero => exact heq
            | succ k =>
                have hrest := h k (by omega) fun j hj => by
                  have := hk (j + 1) (by omega)
                  rwa [← Nat.add_assoc, Nat.add_right_comm] at this
                rwa [Nat.add_right_comm, Nat.add_assoc] at hrest
          · intro h k hlt hk
            have hrest := h (k + 1) (by omega) fun j hj => by
              cases j with
              | zero => exact hend
              | succ j =>
                  rw [← Nat.add_assoc, Nat.add_right_comm]
                  exact hk j (by omega)
            rwa [← Nat.add_assoc, Nat.add_right_comm] at hrest

theorem strncmp_eq_zero : strncmp n s t = 0 ↔ SameTo n s t := by
  rw [strncmp, strncmpFrom_eq_zero]
  simp only [Nat.zero_add]
  rfl

/-! ## Copying -/

/-- The loop of a `strncpy` for `n` more bytes from index `i` on. -/
def strncpyFrom (src : Nat → Byte) : Nat → Nat → (Nat → Byte) → Nat → Byte
  | 0, _, dest => dest
  | n + 1, i, dest =>
      if src i = 0 then Function.update dest i (src i)
      else strncpyFrom src n (i + 1) (Function.update dest i (src i))

def strncpy (n : Nat) (dest src : Nat → Byte) : Nat → Byte := strncpyFrom src n 0 dest

theorem strncpyFrom_below {k : Nat} (hk : k < i) : strncpyFrom src n i dest k = dest k := by
  induction n generalizing i dest with
  | zero => rfl
  | succ n ih =>
      unfold strncpyFrom
      split
      · exact Function.update_of_ne (by omega) _ _
      · rw [ih (by omega), Function.update_of_ne (by omega)]

theorem strncpyFrom_copied {k : Nat} (hk : k < n) (hsrc : ∀ j, j < k → src (i + j) ≠ 0) :
    strncpyFrom src n i dest (i + k) = src (i + k) := by
  induction n generalizing i k dest with
  | zero => omega
  | succ n ih =>
      unfold strncpyFrom
      cases k with
      | zero =>
          split
          · exact Function.update_self ..
          · exact (strncpyFrom_below (by omega)).trans (Function.update_self ..)
      | succ k =>
          have hhead : src i ≠ 0 := hsrc 0 (by omega)
          rw [if_neg hhead, show i + (k + 1) = i + 1 + k by omega]
          refine ih (by omega) fun j hj => ?_
          have := hsrc (j + 1) (by omega)
          rwa [show i + (j + 1) = i + 1 + j by omega] at this

/-- A copy is the same string, as far as there is room for it. -/
theorem sameTo_strncpy (n : Nat) (dest src : Nat → Byte) : SameTo n src (strncpy n dest src) := by
  intro k hk hsrc
  have hcopied : strncpyFrom src n 0 dest (0 + k) = src (0 + k) :=
    strncpyFrom_copied hk (by simpa using hsrc)
  simp only [Nat.zero_add] at hcopied
  exact hcopied.symm

end Unidos.Lib
