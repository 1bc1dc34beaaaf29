import Unidos.Pmm.Alloc

/-!
# Next-fit allocation

`pmm_get_next_available_block` looks once around the bitmap from `frame_hint` on. `nextFit_exact`
says that it takes the first free frame on its way, that it changes nothing else, and that it fails
only if there is none. Frame numbers have 20 bits: with more frames than that the shift to an
address would lose the frame (`nextFit_loses_frame`).
-/

namespace Unidos.Pmm

open Lib

/-- `f` is the first clear frame in circular order from `frame_hint` on. -/
structure FirstClear (s : State) (f : Nat) : Prop where
  clear : s.bit f = false
  first : ∃ k, k < s.frameCount ∧ f = (s.frameHint + k) % s.frameCount ∧
    ∀ j, j < k → s.bit ((s.frameHint + j) % s.frameCount) = true

/-- The frame `f` has been taken, and nothing else has changed. The counter is one of 64 bits. -/
structure FrameTaken (s : State) (f : Nat) (t : State) : Prop where
  bits : ∀ g, t.bit g = (decide (g = f) || s.bit g)
  bytes : ∀ a, a ≠ s.pagebitmapPhys + f / 8 → t.mem a = s.mem a
  available : t.availableFrames = (s.availableFrames + (2 ^ 64 - 1)) % 2 ^ 64
  hint : t.frameHint = (f + 1) % s.frameCount
  rest : SameConfig s { t with frameHint := s.frameHint }

/-- What a call of the allocator returns and leaves. -/
structure NextFit (s : State) (r : Alloc × State) : Prop where
  success : r.1.status = .allocSuccess ↔ ∃ f, f < s.frameCount ∧ s.bit f = false
  taken : r.1.status = .allocSuccess → ∃ f, f < s.frameCount ∧ FirstClear s f ∧
    r.1.addr = 4096 * f ∧ FrameTaken s f r.2
  failed : r.1.status ≠ .allocSuccess → r = (⟨.allocOom, 0⟩, s)
  zero : s.FrameReserved 0 → (r.1.addr = 0 ↔ r.1.status ≠ .allocSuccess)

variable {s : State} {f : Nat}

/-- The shortcut for a byte of zeros selects the frame that the bit test alone selects. -/
theorem circFind_scanTest (s : State) (k f : Nat) :
    circFind s.frameCount s.scanTest k f = circFind s.frameCount (fun g => !s.bit g) k f := by
  have htest : s.scanTest = fun g => !s.bit g := by
    funext g
    rw [Bool.eq_iff_iff, scanTest_iff, Bool.not_eq_true']
  rw [htest]

theorem take_frameTaken (hclear : s.bit f = false) : FrameTaken s f (s.take f) where
  bits := bit_bmSet s f
  bytes _ ha := bmSet_mem_ne ha
  available := by
    show (bmSet s f).availableFrames = _
    rw [bmSet_available, if_neg (by rw [hclear]; exact Bool.false_ne_true)]
  hint := rfl
  rest := bmSet_config s f

/-- The frame that a scan finds. -/
theorem firstClear_of_find (hhint : s.frameHint < s.frameCount)
    (h : circFind s.frameCount s.scanTest s.frameCount s.frameHint = some f) : FirstClear s f := by
  rw [circFind_scanTest] at h
  obtain ⟨k, hk, hf, hbefore⟩ := circFind_first hhint h
  exact ⟨by simpa using circFind_sound h, k, hk, hf, fun j hj => by simpa using hbefore j hj⟩

/-- For every bitmap, every hint in range and every region table all of whose frames are marked:
the call takes the first free frame, or finds that there is none. -/
theorem nextFit_exact (hcount : 0 < s.frameCount) (hsize : s.frameCount ≤ 2 ^ 20)
    (hhint : s.frameHint < s.frameCount) (hbitmap : s.pagebitmapPhys ≠ 0)
    (hreserved : ∀ f, f < s.frameCount → s.FrameReserved f → s.bit f = true) :
    NextFit s (pmmGetNextAvailableBlock s) ∧
      circFind s.frameCount s.scanTest s.frameCount s.frameHint =
        circFind s.frameCount (fun f => !s.bit f) s.frameCount s.frameHint := by
  refine ⟨?_, circFind_scanTest s _ _⟩
  unfold pmmGetNextAvailableBlock
  rw [if_neg (Nat.ne_of_gt hcount), if_neg hbitmap]
  cases hfind : circFind s.frameCount s.scanTest s.frameCount s.frameHint with
  | none =>
      have hfull : ∀ f, f < s.frameCount → s.bit f = true := by
        intro f hf
        have := circFind_round hhint hfind hf
        rw [← Bool.not_eq_true, scanTest_iff, Bool.not_eq_false] at this
        exact this
      refine ⟨⟨fun h => (by cases h), fun ⟨f, hf, hclear⟩ => ?_⟩, fun h => (by cases h),
        fun _ => rfl, fun _ => ⟨fun _ h => (by cases h), fun _ => rfl⟩⟩
      rw [hfull f hf] at hclear
      cases hclear
  | some f =>
      have hfirst := firstClear_of_find hhint hfind
      have hlt := circFind_lt hhint hfind
      have haddr : frameAddr f = 4096 * f := frameAddr_of_lt (by omega)
      have hfree : ¬ s.FrameReserved f := by
        intro h
        have := hfirst.clear
        rw [hreserved f hlt h] at this
        cases this
      dsimp only
      rw [if_neg (mt (pmmIsRegionReserved_frame s (by omega)).mp hfree)]
      refine ⟨⟨fun _ => ⟨f, hlt, hfirst.clear⟩, fun _ => rfl⟩,
        fun _ => ⟨f, hlt, hfirst, haddr, take_frameTaken hfirst.clear⟩,
        fun h => absurd rfl h, fun hzero => ⟨fun h => ?_, fun h => absurd rfl h⟩⟩
      -- Address 0 would be frame 0, which is reserved.
      have hf : f = 0 := by
        have h : frameAddr f = 0 := h
        omega
      exact absurd (hf ▸ hzero) hfree

/-- Sixteen frames, of which number 3 is free, and a hint behind it. -/
def sixteenFrames : State where
  mem a := if a = 0x1000 then 0xF7 else 0xFF
  pagebitmapPhys := 0x1000
  pagebitmapSizeBytes := 2
  frameCount := 16
  frameHint := 5
  availableFrames := 1
  usePhysWindowAlias := false
  memRegions := [⟨0, 0x1000, .reserved⟩]

/-- The scan wraps and finds the frame before the hint. -/
theorem nextFit_exact_wraps : NextFit sixteenFrames (pmmGetNextAvailableBlock sixteenFrames) ∧
    (pmmGetNextAvailableBlock sixteenFrames).1 = ⟨.allocSuccess, 0x3000⟩ := by
  refine ⟨(nextFit_exact (by decide) (by decide) (by decide) (by decide) ?_).1, by decide⟩
  intro f hf hres
  obtain ⟨a, hlo, hhi, r, hr, -, hbase, hlast⟩ := hres
  obtain rfl := List.mem_singleton.mp hr
  have hzero : f = 0 := by
    have : a < 0x1000 := hlast
    omega
  rw [hzero]
  decide

/-- One frame more than there are 32-bit addresses, and only that one free. -/
def beyondFrames : State where
  mem a := if a = 0x1000 + 2 ^ 17 then 0xFE else 0xFF
  pagebitmapPhys := 0x1000
  pagebitmapSizeBytes := 2 ^ 17 + 1
  frameCount := 2 ^ 20 + 1
  frameHint := 2 ^ 20
  availableFrames := 1
  usePhysWindowAlias := false
  memRegions := []

/-- Frame `2 ^ 20` is returned as address 0. -/
theorem nextFit_loses_frame : beyondFrames.frameHint < beyondFrames.frameCount ∧
    (∀ f, f < beyondFrames.frameCount → beyondFrames.FrameReserved f →
      beyondFrames.bit f = true) ∧
    FirstClear beyondFrames (2 ^ 20) ∧
    (pmmGetNextAvailableBlock beyondFrames).1 = ⟨.allocSuccess, 0⟩ := by
  refine ⟨by decide, ?_, ⟨by decide, 0, by decide, by decide, by simp⟩, by decide⟩
  rintro f - ⟨a, -, -, r, hr, -⟩
  cases hr

end Unidos.Pmm
