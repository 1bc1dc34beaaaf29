import Mathlib.Logic.Function.Basic
import Mathlib.Data.Nat.Notation

/-!
# Byte-addressed memory

A memory is a total map from addresses to bytes. Words are 32 bits wide and stored with the
low byte first. `readWord_writeWord_same` and `readWord_writeWord_ne` are the two laws that
page-table code needs; `fillBytes` and `copyBytes` are the closed forms of the usual clearing
and copying loops.
-/

namespace Unidos.Lib

/-- A byte. -/
abbrev Byte := BitVec 8

/-- A memory: one byte at every address. -/
abbrev Memory := Nat → Byte

namespace Memory

/-- The 32-bit word stored at `addr`, low byte first. -/
def readWord (mem : Memory) (addr : Nat) : BitVec 32 :=
  mem (addr + 3) ++ mem (addr + 2) ++ mem (addr + 1) ++ mem addr

/-- Store a 32-bit word at `addr`, low byte first. -/
def writeWord (mem : Memory) (addr : Nat) (word : BitVec 32) : Memory := fun a =>
  if a = addr then word.extractLsb' 0 8
  else if a = addr + 1 then word.extractLsb' 8 8
  else if a = addr + 2 then word.extractLsb' 16 8
  else if a = addr + 3 then word.extractLsb' 24 8
  else mem a

/-- Set `len` bytes from `addr` on to `value`. -/
def fillBytes (mem : Memory) (addr len : Nat) (value : Byte) : Memory := fun a =>
  if addr ≤ a ∧ a < addr + len then value else mem a

/-- Overwrite `len` bytes from `addr` on by `source 0`, `source 1`, and so on. -/
def copyBytes (mem : Memory) (addr len : Nat) (source : Nat → Byte) : Memory := fun a =>
  if addr ≤ a ∧ a < addr + len then source (a - addr) else mem a

/-- The loop that stores `word 0`, …, `word (n - 1)` in the `n` words from `addr` on. -/
def fillWords (mem : Memory) (addr : Nat) (word : Nat → BitVec 32) : Nat → Memory
  | 0 => mem
  | n + 1 => (fillWords mem addr word n).writeWord (addr + 4 * n) (word n)

/-- The four bytes of a word, put together again, are the word. -/
theorem append_extractLsb' (word : BitVec 32) :
    word.extractLsb' 24 8 ++ word.extractLsb' 16 8 ++ word.extractLsb' 8 8 ++
      word.extractLsb' 0 8 = word := by
  apply BitVec.eq_of_getLsbD_eq
  intro i hi
  simp only [BitVec.getLsbD_append, BitVec.getLsbD_extractLsb']
  have h4 : i - 8 - 8 - 8 < 8 := by omega
  by_cases h1 : i < 8
  · simp [h1]
  · by_cases h2 : i - 8 < 8
    · rw [if_neg h1, if_pos h2, show 8 + (i - 8) = i by omega]
      simp [h2]
    · by_cases h3 : i - 8 - 8 < 8
      · rw [if_neg h1, if_neg h2, if_pos h3, show 16 + (i - 8 - 8) = i by omega]
        simp [h3]
      · rw [if_neg h1, if_neg h2, if_neg h3, show 24 + (i - 8 - 8 - 8) = i by omega]
        simp [h4]

/-- Reading back the word just written. -/
theorem readWord_writeWord_same (mem : Memory) (addr : Nat) (word : BitVec 32) :
    (mem.writeWord addr word).readWord addr = word := by
  have h1 : addr + 1 ≠ addr := by omega
  have h2 : addr + 2 ≠ addr ∧ addr + 2 ≠ addr + 1 := by omega
  have h3 : addr + 3 ≠ addr ∧ addr + 3 ≠ addr + 1 ∧ addr + 3 ≠ addr + 2 := by omega
  simp only [readWord, writeWord, h1, h2, h3, if_true, if_false]
  exact append_extractLsb' word

/-- A byte outside the four written ones is untouched. -/
theorem writeWord_apply_ne (mem : Memory) (addr a : Nat) (word : BitVec 32)
    (h : a < addr ∨ addr + 4 ≤ a) : mem.writeWord addr word a = mem a := by
  have h0 : a ≠ addr ∧ a ≠ addr + 1 ∧ a ≠ addr + 2 ∧ a ≠ addr + 3 := by omega
  simp [writeWord, h0]

theorem fillWords_apply_ne (mem : Memory) {addr n a : Nat} (word : Nat → BitVec 32)
    (h : a < addr ∨ addr + 4 * n ≤ a) : mem.fillWords addr word n a = mem a := by
  induction n with
  | zero => rfl
  | succ n ih =>
      rw [fillWords, writeWord_apply_ne _ _ _ _ (by omega), ih (by omega)]

/-- Two memories with the same four bytes at `addr` hold the same word there. -/
theorem readWord_congr {mem other : Memory} {addr : Nat}
    (h : ∀ a, addr ≤ a → a < addr + 4 → mem a = other a) :
    mem.readWord addr = other.readWord addr := by
  simp only [readWord]
  rw [h addr (by omega) (by omega), h (addr + 1) (by omega) (by omega),
    h (addr + 2) (by omega) (by omega), h (addr + 3) (by omega) (by omega)]

/-- A word disjoint from the written one is untouched. -/
theorem readWord_writeWord_ne (mem : Memory) (addr other : Nat) (word : BitVec 32)
    (h : other + 4 ≤ addr ∨ addr + 4 ≤ other) :
    (mem.writeWord addr word).readWord other = mem.readWord other :=
  readWord_congr fun a _ _ => writeWord_apply_ne mem addr a word (by omega)

theorem fillBytes_apply_of_mem (mem : Memory) {addr len a : Nat} (value : Byte)
    (h : addr ≤ a) (h' : a < addr + len) : mem.fillBytes addr len value a = value := by
  simp [fillBytes, h, h']

theorem fillBytes_apply_ne (mem : Memory) {addr len a : Nat} (value : Byte)
    (h : a < addr ∨ addr + len ≤ a) : mem.fillBytes addr len value a = mem a := by
  have hno : ¬ (addr ≤ a ∧ a < addr + len) := by omega
  simp [fillBytes, hno]

/-- A word inside a zeroed range reads as zero. -/
theorem readWord_fillBytes_zero (mem : Memory) {addr len other : Nat}
    (h : addr ≤ other) (h' : other + 4 ≤ addr + len) :
    (mem.fillBytes addr len 0).readWord other = 0 := by
  have hz : ∀ k, k < 4 → mem.fillBytes addr len 0 (other + k) = 0 := fun k _ =>
    fillBytes_apply_of_mem mem 0 (by omega) (by omega)
  have h0 := hz 0 (by omega)
  rw [Nat.add_zero] at h0
  simp only [readWord, h0, hz 1 (by omega), hz 2 (by omega), hz 3 (by omega)]
  decide

theorem copyBytes_apply_of_mem (mem : Memory) {addr len a : Nat} (source : Nat → Byte)
    (h : addr ≤ a) (h' : a < addr + len) :
    mem.copyBytes addr len source a = source (a - addr) := by
  simp [copyBytes, h, h']

theorem copyBytes_apply_ne (mem : Memory) {addr len a : Nat} (source : Nat → Byte)
    (h : a < addr ∨ addr + len ≤ a) : mem.copyBytes addr len source a = mem a := by
  have hno : ¬ (addr ≤ a ∧ a < addr + len) := by omega
  simp [copyBytes, hno]

end Memory

end Unidos.Lib
