import Mathlib.Data.BitVec
import Mathlib.Logic.Function.Iterate

/-!
# Cyclic redundancy checks

The remainder register of a reflected division, one bit at a time. A step is linear in exclusive or
(`shift_xor`), and a register whose low bits are clear only moves down (`iterate_shift_of_low`). So
the steps for several bits are a move down, and a correction that depends on the bits that fall out
(`iterate_shift_split`): this is what a table of corrections is for.
-/

namespace Unidos.Lib.Crc

variable {w : Nat} (poly : BitVec w)

/-- One bit of the division. -/
def shift (c : BitVec w) : BitVec w := if c.getLsbD 0 then (c >>> 1) ^^^ poly else c >>> 1

/-- The register after one more byte. -/
def update (c : BitVec w) (byte : BitVec 8) : BitVec w := (shift poly)^[8] (c ^^^ byte.setWidth w)

/-- The checksum of a string, from the initial value of the register and the final mask. -/
def checksum (init mask : BitVec w) (bytes : List (BitVec 8)) : BitVec w :=
  bytes.foldl (update poly) init ^^^ mask

theorem shift_xor (a b : BitVec w) : shift poly (a ^^^ b) = shift poly a ^^^ shift poly b := by
  unfold shift
  simp only [BitVec.getLsbD_xor, BitVec.ushiftRight_xor_distrib]
  cases a.getLsbD 0 with
  | false => cases b.getLsbD 0 with
      | false => simp
      | true => simp [BitVec.xor_assoc]
  | true => cases b.getLsbD 0 with
      | false =>
          simp only [Bool.xor_false, if_true, Bool.false_eq_true, if_false]
          rw [BitVec.xor_assoc, BitVec.xor_comm (b >>> 1), BitVec.xor_assoc]
      | true =>
          simp only [Bool.xor_self, Bool.false_eq_true, if_false, if_true]
          rw [BitVec.xor_assoc (a >>> 1), BitVec.xor_comm poly, BitVec.xor_assoc (b >>> 1),
            BitVec.xor_self, BitVec.xor_zero]

theorem iterate_shift_xor (n : Nat) (a b : BitVec w) :
    (shift poly)^[n] (a ^^^ b) = (shift poly)^[n] a ^^^ (shift poly)^[n] b := by
  induction n generalizing a b with
  | zero => rfl
  | succ n ih =>
      rw [Function.iterate_succ_apply, shift_xor, ih]
      rfl

/-- Clear bits fall out without a correction. -/
theorem iterate_shift_of_low {n : Nat} {c : BitVec w} (h : ∀ i, i < n → c.getLsbD i = false) :
    (shift poly)^[n] c = c >>> n := by
  induction n with
  | zero => simp
  | succ n ih =>
      have hbit : (c >>> n).getLsbD 0 = false := by
        rw [BitVec.getLsbD_ushiftRight]
        exact h n (by omega)
      rw [Function.iterate_succ_apply', ih fun i hi => h i (by omega), shift,
        if_neg (by simp [hbit]), BitVec.shiftRight_add]

/-- The low `n` bits. -/
def low (n : Nat) : BitVec w := BitVec.ofNat w (2 ^ n - 1)

theorem getLsbD_low {n i : Nat} (hi : i < w) : (low n : BitVec w).getLsbD i = decide (i < n) := by
  rw [low, BitVec.getLsbD_ofNat, Nat.testBit_two_pow_sub_one]
  simp [hi]

/-- Several bits at once. -/
theorem iterate_shift_split (n : Nat) (c : BitVec w) :
    (shift poly)^[n] c = (c >>> n) ^^^ (shift poly)^[n] (c &&& low n) := by
  have hsplit : c = (c &&& ~~~low n) ^^^ (c &&& low n) := by
    refine BitVec.eq_of_getLsbD_eq fun i hi => ?_
    rw [BitVec.getLsbD_xor, BitVec.getLsbD_and, BitVec.getLsbD_and, BitVec.getLsbD_not]
    cases (low n : BitVec w).getLsbD i with
    | true => simp
    | false => simp [hi]
  have hlow : ∀ i, i < n → (c &&& ~~~low n).getLsbD i = false := by
    intro i hi
    rw [BitVec.getLsbD_and, BitVec.getLsbD_not]
    by_cases hiw : i < w
    · simp [getLsbD_low hiw, hi]
    · simp [hiw]
  have hhigh : (c &&& ~~~low n) >>> n = c >>> n := by
    refine BitVec.eq_of_getLsbD_eq fun i hi => ?_
    rw [BitVec.getLsbD_ushiftRight, BitVec.getLsbD_ushiftRight, BitVec.getLsbD_and,
      BitVec.getLsbD_not]
    by_cases hiw : n + i < w
    · rw [getLsbD_low hiw]
      simp [hiw]
    · simp [BitVec.getLsbD_of_ge c (n + i) (by omega)]
  conv_lhs => rw [hsplit]
  rw [iterate_shift_xor, iterate_shift_of_low poly hlow, hhigh]

end Unidos.Lib.Crc
