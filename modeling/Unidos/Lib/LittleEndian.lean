import Mathlib.Algebra.Group.Nat.Defs
import Unidos.Lib.Memory

/-!
# Numbers as bytes

`leNat` reads a list of bytes as a number, low byte first, and `leBytes` writes the low bytes of a
number. Bytes that are missing at the end count as zero.
-/

namespace Unidos.Lib

/-- The number that the bytes stand for. -/
def leNat : List Byte → Nat
  | [] => 0
  | b :: bytes => b.toNat + 256 * leNat bytes

/-- The lowest `n` bytes of a number. -/
def leBytes : Nat → Nat → List Byte
  | 0, _ => []
  | n + 1, v => BitVec.ofNat 8 v :: leBytes n (v / 256)

@[simp] theorem length_leBytes (n v : Nat) : (leBytes n v).length = n := by
  induction n generalizing v with
  | zero => rfl
  | succ n ih => rw [leBytes, List.length_cons, ih]

theorem leNat_leBytes (n v : Nat) : leNat (leBytes n v) = v % 256 ^ n := by
  induction n generalizing v with
  | zero => rw [Nat.pow_zero, Nat.mod_one]; rfl
  | succ n ih =>
      have hpow : 256 ^ (n + 1) = 256 * 256 ^ n := Nat.pow_succ'
      rw [leBytes, leNat, ih, BitVec.toNat_ofNat, hpow, Nat.mod_mul]

/-- A value of `8 * n` bits is read back. -/
theorem ofNat_leNat_leBytes (n : Nat) (v : BitVec (8 * n)) :
    BitVec.ofNat (8 * n) (leNat (leBytes n v.toNat)) = v := by
  have hpow : 256 ^ n = 2 ^ (8 * n) := by
    rw [Nat.pow_mul]
  rw [leNat_leBytes, hpow, Nat.mod_eq_of_lt v.isLt, BitVec.ofNat_toNat, BitVec.setWidth_eq]

end Unidos.Lib
