import Unidos.Lib.Memory
import Mathlib.Data.Finset.Card
import Mathlib.Order.Interval.Finset.Nat
import Mathlib.Data.Finset.Range

/-!
# Bitmaps stored in memory

Bit `f` of the bitmap at `base` is bit `f % 8` of the byte at `base + f / 8`. `setBit` and
`clearBit` rewrite that one byte. `clearCount` counts the clear bits below a bound; a set or a
clear changes it by exactly one when the bit really changes.
-/

namespace Unidos.Lib

namespace Memory

/-- Bit `f` of the bitmap that starts at `base`. -/
def bitAt (mem : Memory) (base f : Nat) : Bool :=
  (mem (base + f / 8)).getLsbD (f % 8)

/-- Set bit `f` of the bitmap that starts at `base`. -/
def setBit (mem : Memory) (base f : Nat) : Memory :=
  Function.update mem (base + f / 8) (mem (base + f / 8) ||| (1#8 <<< (f % 8)))

/-- Clear bit `f` of the bitmap that starts at `base`. -/
def clearBit (mem : Memory) (base f : Nat) : Memory :=
  Function.update mem (base + f / 8) (mem (base + f / 8) &&& ~~~(1#8 <<< (f % 8)))

/-- Bit `i` of the mask for bit `j` of a byte. -/
theorem getLsbD_mask {i j : Nat} (hi : i < 8) :
    (1#8 <<< j).getLsbD i = decide (i = j) := by
  simp only [BitVec.getLsbD_shiftLeft, hi, decide_true, Bool.true_and, BitVec.getLsbD_one]
  by_cases hlt : i < j
  · have hne : i ≠ j := by omega
    simp [hlt, hne]
  · by_cases heq : i = j
    · subst heq
      simp
    · have hsub : i - j ≠ 0 := by omega
      simp [hlt, heq, hsub]

theorem bitAt_setBit (mem : Memory) (base f g : Nat) :
    (mem.setBit base f).bitAt base g = (decide (g = f) || mem.bitAt base g) := by
  unfold bitAt setBit
  by_cases hb : g / 8 = f / 8
  · have hgf : g % 8 = f % 8 ↔ g = f := by omega
    rw [hb, Function.update_self, BitVec.getLsbD_or, getLsbD_mask (by omega)]
    simp only [hgf]
    exact Bool.or_comm _ _
  · have hne : base + g / 8 ≠ base + f / 8 := by omega
    have hgf : g ≠ f := by omega
    simp [Function.update_of_ne hne, hgf]

theorem bitAt_clearBit (mem : Memory) (base f g : Nat) :
    (mem.clearBit base f).bitAt base g = (!decide (g = f) && mem.bitAt base g) := by
  unfold bitAt clearBit
  by_cases hb : g / 8 = f / 8
  · have hgf : g % 8 = f % 8 ↔ g = f := by omega
    have hlt : g % 8 < 8 := by omega
    rw [hb, Function.update_self, BitVec.getLsbD_and, BitVec.getLsbD_not, getLsbD_mask hlt]
    simp only [hgf, hlt, decide_true, Bool.true_and]
    exact Bool.and_comm _ _
  · have hne : base + g / 8 ≠ base + f / 8 := by omega
    have hgf : g ≠ f := by omega
    simp [Function.update_of_ne hne, hgf]

/-- Setting a bit changes its byte exactly when the bit was clear. -/
theorem setBit_byte_eq_iff (mem : Memory) (base f : Nat) :
    mem (base + f / 8) = mem (base + f / 8) ||| (1#8 <<< (f % 8)) ↔
      mem.bitAt base f = true := by
  have hlt : f % 8 < 8 := by omega
  constructor
  · intro h
    unfold bitAt
    rw [h, BitVec.getLsbD_or, getLsbD_mask hlt]
    simp
  · intro h
    apply BitVec.eq_of_getLsbD_eq
    intro i hi
    rw [BitVec.getLsbD_or, getLsbD_mask hi]
    by_cases heq : i = f % 8
    · subst heq
      unfold bitAt at h
      simp [h]
    · simp [heq]

/-- Clearing a bit changes its byte exactly when the bit was set. -/
theorem clearBit_byte_eq_iff (mem : Memory) (base f : Nat) :
    mem (base + f / 8) = mem (base + f / 8) &&& ~~~(1#8 <<< (f % 8)) ↔
      mem.bitAt base f = false := by
  have hlt : f % 8 < 8 := by omega
  constructor
  · intro h
    unfold bitAt
    rw [h, BitVec.getLsbD_and, BitVec.getLsbD_not, getLsbD_mask hlt]
    simp
  · intro h
    apply BitVec.eq_of_getLsbD_eq
    intro i hi
    rw [BitVec.getLsbD_and, BitVec.getLsbD_not, getLsbD_mask hi]
    by_cases heq : i = f % 8
    · subst heq
      unfold bitAt at h
      simp [h]
    · simp [heq, hi]

/-- A byte of zeros has only clear bits. -/
theorem bitAt_of_byte_zero {mem : Memory} {base f : Nat} (h : mem (base + f / 8) = 0) :
    mem.bitAt base f = false := by
  simp [bitAt, h]

theorem setBit_apply_ne (mem : Memory) {base f a : Nat} (h : a ≠ base + f / 8) :
    mem.setBit base f a = mem a :=
  Function.update_of_ne h _ _

theorem clearBit_apply_ne (mem : Memory) {base f a : Nat} (h : a ≠ base + f / 8) :
    mem.clearBit base f a = mem a :=
  Function.update_of_ne h _ _

end Memory

/-! ## Counting clear bits -/

/-- The number of clear bits among the first `n`. -/
def clearCount (bit : Nat → Bool) (n : Nat) : Nat :=
  ((Finset.range n).filter fun f => bit f = false).card

theorem clearCount_le (bit : Nat → Bool) (n : Nat) : clearCount bit n ≤ n :=
  (Finset.card_filter_le _ _).trans (Finset.card_range n).le

/-- A bit function that differs only above the bound has the same count. -/
theorem clearCount_congr {bit other : Nat → Bool} {n : Nat} (h : ∀ f, f < n → bit f = other f) :
    clearCount bit n = clearCount other n := by
  unfold clearCount
  congr 1
  apply Finset.filter_congr
  intro f hf
  rw [h f (Finset.mem_range.mp hf)]

/-- Setting a clear bit takes one away from the count. -/
theorem clearCount_set {bit other : Nat → Bool} {n f : Nat} (hf : f < n)
    (hclear : bit f = false) (h : ∀ g, other g = (decide (g = f) || bit g)) :
    clearCount other n + 1 = clearCount bit n := by
  unfold clearCount
  have hmem : f ∈ (Finset.range n).filter fun g => bit g = false := by simp [hf, hclear]
  have herase : ((Finset.range n).filter fun g => other g = false) =
      ((Finset.range n).filter fun g => bit g = false).erase f := by
    ext g
    simp only [Finset.mem_filter, Finset.mem_erase, h, Bool.or_eq_false_iff,
      decide_eq_false_iff_not]
    tauto
  rw [herase, Finset.card_erase_add_one hmem]

/-- Clearing a set bit adds one to the count. -/
theorem clearCount_clear {bit other : Nat → Bool} {n f : Nat} (hf : f < n)
    (hset : bit f = true) (h : ∀ g, other g = (!decide (g = f) && bit g)) :
    clearCount other n = clearCount bit n + 1 := by
  refine (clearCount_set hf (by simp [h]) ?_).symm
  intro g
  rw [h]
  by_cases hg : g = f
  · subst hg
    simp [hset]
  · simp [hg]

/-- Bits that are set do not count. -/
theorem clearCount_extend {bit : Nat → Bool} {n m : Nat} (hle : n ≤ m)
    (h : ∀ f, n ≤ f → f < m → bit f = true) : clearCount bit m = clearCount bit n := by
  unfold clearCount
  congr 1
  ext f
  simp only [Finset.mem_filter, Finset.mem_range]
  constructor
  · rintro ⟨hf, hclear⟩
    refine ⟨Nat.lt_of_not_le fun hn => ?_, hclear⟩
    rw [h f hn hf] at hclear
    cases hclear
  · rintro ⟨hf, hclear⟩
    exact ⟨by omega, hclear⟩

/-- A count is positive as soon as one bit below the bound is clear. -/
theorem clearCount_pos {bit : Nat → Bool} {n f : Nat} (hf : f < n) (hclear : bit f = false) :
    0 < clearCount bit n :=
  Finset.card_pos.mpr ⟨f, by simp [hf, hclear]⟩

theorem clearCount_eq_zero {bit : Nat → Bool} {n : Nat} (h : ∀ f, f < n → bit f = true) :
    clearCount bit n = 0 := by
  unfold clearCount
  rw [Finset.card_eq_zero, Finset.filter_eq_empty_iff]
  intro f hf
  simp [h f (Finset.mem_range.mp hf)]

theorem exists_clear_of_pos {bit : Nat → Bool} {n : Nat} (h : 0 < clearCount bit n) :
    ∃ f, f < n ∧ bit f = false := by
  obtain ⟨f, hf⟩ := Finset.card_pos.mp h
  exact ⟨f, by simpa using hf⟩

/-- Setting the bits of a list takes away at most one per element. -/
theorem clearCount_le_add {bit other : Nat → Bool} {n : Nat} {fs : List Nat}
    (h : ∀ f, f < n → other f = (decide (f ∈ fs) || bit f)) :
    clearCount bit n ≤ clearCount other n + fs.length := by
  have hsub : ((Finset.range n).filter fun f => bit f = false) ⊆
      ((Finset.range n).filter fun f => other f = false) ∪ fs.toFinset := by
    intro f hf
    simp only [Finset.mem_filter, Finset.mem_range] at hf
    by_cases hfs : f ∈ fs
    · simp [hfs]
    · simp [hf.1, h f hf.1, hfs, hf.2]
  calc clearCount bit n
      ≤ (((Finset.range n).filter fun f => other f = false) ∪ fs.toFinset).card :=
        Finset.card_le_card hsub
    _ ≤ clearCount other n + fs.toFinset.card := Finset.card_union_le _ _
    _ ≤ clearCount other n + fs.length := Nat.add_le_add_left fs.toFinset_card_le _

/-- If all clear bits lie at or above `k`, there are at most `n - k` of them. -/
theorem clearCount_le_sub {bit : Nat → Bool} {n k : Nat}
    (h : ∀ f, f < n → bit f = false → k ≤ f) : clearCount bit n ≤ n - k := by
  have hsub : ((Finset.range n).filter fun f => bit f = false) ⊆ Finset.Ico k n := by
    intro f hf
    simp only [Finset.mem_filter, Finset.mem_range] at hf
    exact Finset.mem_Ico.mpr ⟨h f hf.1 hf.2, hf.1⟩
  exact (Finset.card_le_card hsub).trans (Nat.card_Ico k n).le

/-- Distinct clear bits are counted separately. -/
theorem length_le_clearCount {bit : Nat → Bool} {n : Nat} {fs : List Nat} (hnodup : fs.Nodup)
    (h : ∀ f ∈ fs, f < n ∧ bit f = false) : fs.length ≤ clearCount bit n := by
  rw [← List.toFinset_card_of_nodup hnodup]
  exact Finset.card_le_card fun f hf => by simpa using h f (by simpa using hf)

end Unidos.Lib
