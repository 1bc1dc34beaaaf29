import Unidos.Pmm.Basic

/-!
# The bitmap operations and what they change

What `bmSet`, `bmClear`, and the two range loops do to the bits, to the cached counter, and to
the rest of memory. `Counted` is the agreement between the counter and the bitmap.
-/

namespace Unidos.Pmm

open Lib

/-- The counter of free frames agrees with the bitmap. -/
def State.Counted (s : State) : Prop :=
  s.availableFrames = clearCount s.bit s.frameCount

/-- Everything of the state but the bitmap and its counter. -/
structure SameConfig (s t : State) : Prop where
  phys : t.pagebitmapPhys = s.pagebitmapPhys
  size : t.pagebitmapSizeBytes = s.pagebitmapSizeBytes
  count : t.frameCount = s.frameCount
  hint : t.frameHint = s.frameHint
  window : t.usePhysWindowAlias = s.usePhysWindowAlias
  regions : t.memRegions = s.memRegions

theorem SameConfig.refl (s : State) : SameConfig s s := ⟨rfl, rfl, rfl, rfl, rfl, rfl⟩

theorem SameConfig.trans {s t u : State} (h : SameConfig s t) (h' : SameConfig t u) :
    SameConfig s u :=
  ⟨h'.phys.trans h.phys, h'.size.trans h.size, h'.count.trans h.count, h'.hint.trans h.hint,
    h'.window.trans h.window, h'.regions.trans h.regions⟩

/-! ## One bit -/

theorem bmSet_config (s : State) (f : Nat) : SameConfig s (bmSet s f) :=
  ⟨rfl, rfl, rfl, rfl, rfl, rfl⟩

theorem bmClear_config (s : State) (f : Nat) : SameConfig s (bmClear s f) :=
  ⟨rfl, rfl, rfl, rfl, rfl, rfl⟩

theorem bit_bmSet (s : State) (f g : Nat) :
    (bmSet s f).bit g = (decide (g = f) || s.bit g) :=
  Memory.bitAt_setBit s.mem s.pagebitmapPhys f g

theorem bit_bmClear (s : State) (f g : Nat) :
    (bmClear s f).bit g = (!decide (g = f) && s.bit g) :=
  Memory.bitAt_clearBit s.mem s.pagebitmapPhys f g

theorem bmSet_mem_ne {s : State} {f a : Nat} (h : a ≠ s.pagebitmapPhys + f / 8) :
    (bmSet s f).mem a = s.mem a :=
  Memory.setBit_apply_ne s.mem h

theorem bmClear_mem_ne {s : State} {f a : Nat} (h : a ≠ s.pagebitmapPhys + f / 8) :
    (bmClear s f).mem a = s.mem a :=
  Memory.clearBit_apply_ne s.mem h

/-- The counter goes down exactly when the bit was clear. -/
theorem bmSet_available (s : State) (f : Nat) :
    (bmSet s f).availableFrames =
      if s.bit f then s.availableFrames else (s.availableFrames + (2 ^ 64 - 1)) % 2 ^ 64 := by
  have hiff := Memory.setBit_byte_eq_iff s.mem s.pagebitmapPhys f
  have hbit : s.bit f = s.mem.bitAt s.pagebitmapPhys f := rfl
  simp only [bmSet, Memory.setBit, Function.update_self]
  cases hb : s.mem.bitAt s.pagebitmapPhys f with
  | true => simp [hbit, hb, ← hiff.mpr hb]
  | false =>
      have hne := mt hiff.mp (by simp [hb])
      simp [hbit, hb, hne]

/-- The counter goes up exactly when the bit was set. -/
theorem bmClear_available (s : State) (f : Nat) :
    (bmClear s f).availableFrames =
      if s.bit f then (s.availableFrames + 1) % 2 ^ 64 else s.availableFrames := by
  have hiff := Memory.clearBit_byte_eq_iff s.mem s.pagebitmapPhys f
  have hbit : s.bit f = s.mem.bitAt s.pagebitmapPhys f := rfl
  simp only [bmClear, Memory.clearBit, Function.update_self]
  cases hb : s.mem.bitAt s.pagebitmapPhys f with
  | false => simp [hbit, hb, ← hiff.mpr hb]
  | true =>
      have hne := mt hiff.mp (by simp [hb])
      simp [hbit, hb, hne]

theorem bmSet_counted {s : State} {f : Nat} (hc : s.Counted) (hf : f < s.frameCount)
    (hcount : s.frameCount ≤ 2 ^ 20) : (bmSet s f).Counted := by
  unfold State.Counted at hc ⊢
  rw [bmSet_available, (bmSet_config s f).count]
  cases hb : s.bit f with
  | true =>
      rw [if_pos rfl, hc]
      refine clearCount_congr fun g _ => ?_
      rw [bit_bmSet]
      by_cases hg : g = f
      · simp [hg, hb]
      · simp [hg]
  | false =>
      have hset := clearCount_set hf hb (bit_bmSet s f)
      have hle := clearCount_le s.bit s.frameCount
      rw [if_neg (by simp), hc]
      omega

theorem bmClear_counted {s : State} {f : Nat} (hc : s.Counted) (hf : f < s.frameCount)
    (hcount : s.frameCount ≤ 2 ^ 20) : (bmClear s f).Counted := by
  unfold State.Counted at hc ⊢
  rw [bmClear_available, (bmClear_config s f).count]
  cases hb : s.bit f with
  | false =>
      rw [if_neg (by simp), hc]
      refine clearCount_congr fun g _ => ?_
      rw [bit_bmClear]
      by_cases hg : g = f
      · simp [hg, hb]
      · simp [hg]
  | true =>
      have hclear := clearCount_clear hf hb (bit_bmClear s f)
      have hle := clearCount_le (bmClear s f).bit s.frameCount
      rw [if_pos rfl, hc]
      omega

/-! ## Ranges of bits -/

theorem foldl_bmSet_config (fs : List Nat) (s : State) : SameConfig s (fs.foldl bmSet s) := by
  induction fs generalizing s with
  | nil => exact .refl s
  | cons f fs ih => exact (bmSet_config s f).trans (ih _)

theorem foldl_bmClear_config (fs : List Nat) (s : State) : SameConfig s (fs.foldl bmClear s) := by
  induction fs generalizing s with
  | nil => exact .refl s
  | cons f fs ih => exact (bmClear_config s f).trans (ih _)

theorem bit_foldl_bmSet (fs : List Nat) (s : State) (g : Nat) :
    (fs.foldl bmSet s).bit g = (decide (g ∈ fs) || s.bit g) := by
  induction fs generalizing s with
  | nil => simp
  | cons f fs ih =>
      rw [List.foldl_cons, ih, bit_bmSet]
      by_cases hg : g = f <;> simp [hg]

theorem bit_foldl_bmClear (fs : List Nat) (s : State) (g : Nat) :
    (fs.foldl bmClear s).bit g = (!decide (g ∈ fs) && s.bit g) := by
  induction fs generalizing s with
  | nil => simp
  | cons f fs ih =>
      rw [List.foldl_cons, ih, bit_bmClear]
      by_cases hg : g = f <;> simp [hg]

theorem foldl_bmSet_counted {fs : List Nat} {s : State} (hc : s.Counted)
    (hcount : s.frameCount ≤ 2 ^ 20) (hfs : ∀ f ∈ fs, f < s.frameCount) :
    (fs.foldl bmSet s).Counted := by
  induction fs generalizing s with
  | nil => exact hc
  | cons f fs ih =>
      exact ih (bmSet_counted hc (hfs f (by simp)) hcount) hcount
        fun g hg => hfs g (by simp [hg])

theorem foldl_bmClear_counted {fs : List Nat} {s : State} (hc : s.Counted)
    (hcount : s.frameCount ≤ 2 ^ 20) (hfs : ∀ f ∈ fs, f < s.frameCount) :
    (fs.foldl bmClear s).Counted := by
  induction fs generalizing s with
  | nil => exact hc
  | cons f fs ih =>
      exact ih (bmClear_counted hc (hfs f (by simp)) hcount) hcount
        fun g hg => hfs g (by simp [hg])

/-- Bytes below the bitmap or behind its last byte are untouched. -/
theorem foldl_bmSet_mem_ne {fs : List Nat} {s : State} {a : Nat}
    (hfs : ∀ f ∈ fs, a ≠ s.pagebitmapPhys + f / 8) : (fs.foldl bmSet s).mem a = s.mem a := by
  induction fs generalizing s with
  | nil => rfl
  | cons f fs ih =>
      rw [List.foldl_cons, ih (s := bmSet s f) fun g hg => hfs g (by simp [hg])]
      exact bmSet_mem_ne (hfs f (by simp))

theorem foldl_bmClear_mem_ne {fs : List Nat} {s : State} {a : Nat}
    (hfs : ∀ f ∈ fs, a ≠ s.pagebitmapPhys + f / 8) : (fs.foldl bmClear s).mem a = s.mem a := by
  induction fs generalizing s with
  | nil => rfl
  | cons f fs ih =>
      rw [List.foldl_cons, ih (s := bmClear s f) fun g hg => hfs g (by simp [hg])]
      exact bmClear_mem_ne (hfs f (by simp))

/-- Frame `f` intersects the `len` bytes at `base`. -/
def Touches (f base len : Nat) : Prop := base < 4096 * f + 4096 ∧ 4096 * f < base + len

instance (f base len : Nat) : Decidable (Touches f base len) :=
  inferInstanceAs (Decidable (_ ∧ _))

theorem bmSetRangeTouched_config (s : State) (base len : Nat) :
    SameConfig s (bmSetRangeTouched s base len) := by
  unfold bmSetRangeTouched
  split
  · exact .refl s
  · exact foldl_bmSet_config _ _

/-- A range marks exactly the tracked frames that intersect it. -/
theorem bit_bmSetRangeTouched (s : State) (base len g : Nat) (hg : g < s.frameCount) :
    (bmSetRangeTouched s base len).bit g =
      (decide (len ≠ 0 ∧ Touches g base len) || s.bit g) := by
  unfold bmSetRangeTouched
  by_cases hlen : len = 0
  · simp [hlen]
  · have hiff : g ∈ List.range' (base / 4096)
        (min ((base + len + 0xFFF) / 4096) s.frameCount - base / 4096) ↔
        len ≠ 0 ∧ Touches g base len := by
      rw [List.mem_range'_1]
      unfold Touches
      omega
    simp only [hlen, if_false, bit_foldl_bmSet, hiff]

/-- Marking a range keeps every mark. -/
theorem bit_bmSetRangeTouched_of_set {s : State} (base len : Nat) {g : Nat} (h : s.bit g = true) :
    (bmSetRangeTouched s base len).bit g = true := by
  unfold bmSetRangeTouched
  split
  · exact h
  · rw [bit_foldl_bmSet, h, Bool.or_true]

theorem bmSetRangeTouched_counted {s : State} (base len : Nat) (hc : s.Counted)
    (hcount : s.frameCount ≤ 2 ^ 20) : (bmSetRangeTouched s base len).Counted := by
  unfold bmSetRangeTouched
  split
  · exact hc
  · refine foldl_bmSet_counted hc hcount fun f hf => ?_
    rw [List.mem_range'_1] at hf
    omega

/-- Setting a range of bits only writes inside the bitmap. -/
theorem bmSetRangeTouched_mem_ne {s : State} (base len : Nat) {a : Nat}
    (ha : a < s.pagebitmapPhys ∨ s.pagebitmapPhys + (s.frameCount + 7) / 8 ≤ a) :
    (bmSetRangeTouched s base len).mem a = s.mem a := by
  unfold bmSetRangeTouched
  split
  · rfl
  · refine foldl_bmSet_mem_ne fun f hf => ?_
    rw [List.mem_range'_1] at hf
    omega

theorem bmClearRangeFullPages_config (s : State) (base len : Nat) :
    SameConfig s (bmClearRangeFullPages s base len) := by
  unfold bmClearRangeFullPages
  split
  · exact .refl s
  · dsimp only
    split
    · exact .refl s
    · exact foldl_bmClear_config _ _

theorem bmClearRangeFullPages_counted {s : State} (base len : Nat) (hc : s.Counted)
    (hcount : s.frameCount ≤ 2 ^ 20) : (bmClearRangeFullPages s base len).Counted := by
  unfold bmClearRangeFullPages
  split
  · exact hc
  · dsimp only
    split
    · exact hc
    · refine foldl_bmClear_counted hc hcount fun f hf => ?_
      rw [List.mem_range'_1] at hf
      omega

/-- Freeing a range only writes inside the bitmap. -/
theorem bmClearRangeFullPages_mem_ne {s : State} (base len : Nat) {a : Nat}
    (ha : a < s.pagebitmapPhys ∨ s.pagebitmapPhys + (s.frameCount + 7) / 8 ≤ a) :
    (bmClearRangeFullPages s base len).mem a = s.mem a := by
  unfold bmClearRangeFullPages
  split
  · rfl
  · dsimp only
    split
    · rfl
    · refine foldl_bmClear_mem_ne fun f hf => ?_
      rw [List.mem_range'_1] at hf
      omega

/-- Freeing a range clears the bits of exactly the tracked frames that lie inside it. -/
theorem bit_bmClearRangeFullPages (s : State) (base len g : Nat) (hg : g < s.frameCount) :
    (bmClearRangeFullPages s base len).bit g =
      (!decide (base ≤ 4096 * g ∧ 4096 * g + 4096 ≤ base + len) && s.bit g) := by
  unfold bmClearRangeFullPages
  split
  · have hout : ¬ (base ≤ 4096 * g ∧ 4096 * g + 4096 ≤ base + len) := by omega
    simp [hout]
  · dsimp only
    split
    · have hout : ¬ (base ≤ 4096 * g ∧ 4096 * g + 4096 ≤ base + len) := by omega
      simp [hout]
    · have hiff : g ∈ List.range' ((base + 0xFFF) / 4096 * 4096 / 4096)
          (min ((base + len) / 4096 * 4096 / 4096) s.frameCount -
            (base + 0xFFF) / 4096 * 4096 / 4096) ↔
          base ≤ 4096 * g ∧ 4096 * g + 4096 ≤ base + len := by
        rw [List.mem_range'_1]
        omega
      simp only [bit_foldl_bmClear, hiff]

/-- Bits behind the last frame are left alone. -/
theorem bit_bmClearRangeFullPages_above (s : State) (base len : Nat) {g : Nat}
    (hg : s.frameCount ≤ g) : (bmClearRangeFullPages s base len).bit g = s.bit g := by
  unfold bmClearRangeFullPages
  split
  · rfl
  · dsimp only
    split
    · rfl
    · rw [bit_foldl_bmClear, decide_eq_false, Bool.not_false, Bool.true_and]
      rw [List.mem_range'_1]
      omega

theorem pmmInitSingle_config (s : State) (r : MemRegion) : SameConfig s (pmmInitSingle s r) := by
  unfold pmmInitSingle
  split
  · exact .refl s
  · split
    · exact bmSetRangeTouched_config _ _ _
    · exact .refl s

end Unidos.Pmm
