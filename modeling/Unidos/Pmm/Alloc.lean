import Unidos.Pmm.Regions

/-!
# Allocation and release of frames

The allocating, freeing, and reserving functions of `kernel/kmem.c`. The two scanning allocators
share the circular loop `circFind`; `scanTest` is its test, with the whole-byte shortcut in front
of the bit test.
-/

namespace Unidos.Pmm

open Lib

/-- What an allocator returns: the status it stores and the address. -/
structure Alloc where
  status : AllocResult
  addr : Nat
  deriving DecidableEq, Repr

/-- The test of the allocation scan: a byte of zeros, or a clear bit. -/
def State.scanTest (s : State) (f : Nat) : Bool :=
  s.mem (s.pagebitmapPhys + f / 8) == 0 ||
    s.mem (s.pagebitmapPhys + f / 8) &&& (1#8 <<< (f % 8)) == 0

/-- Mark the frame found by a scan and move the hint behind it. -/
def State.take (s : State) (f : Nat) : State :=
  { bmSet s f with frameHint := (f + 1) % s.frameCount }

/-- `pmm_alloc_frame`. -/
def pmmAllocFrame (s : State) : Alloc × State :=
  if s.frameCount = 0 then (⟨.noPagesInitialized, 0⟩, s)
  else
    match circFind s.frameCount s.scanTest s.frameCount s.frameHint with
    | some f => (⟨.allocSuccess, frameAddr f⟩, s.take f)
    | none => (⟨.allocOom, 0⟩, s)

/-- `pmm_get_next_available_block`. -/
def pmmGetNextAvailableBlock (s : State) : Alloc × State :=
  if s.frameCount = 0 then (⟨.noPagesInitialized, 0⟩, s)
  else if s.pagebitmapPhys = 0 then (⟨.bitmapNotInitialized, 0⟩, s)
  else
    match circFind s.frameCount s.scanTest s.frameCount s.frameHint with
    | some f =>
        if pmmIsRegionReserved s (frameAddr f) 4096 then (⟨.bitmapInconsistentReserved, 0⟩, s)
        else (⟨.allocSuccess, frameAddr f⟩, s.take f)
    | none => (⟨.allocOom, 0⟩, s)

/-- `pmm_alloc_specific_block`. -/
def pmmAllocSpecificBlock (s : State) (addr : Nat) : AllocResult × State :=
  if addr % 4096 ≠ 0 then (.allocUnalignedAddr, s)
  else if addr / 4096 ≥ s.frameCount then (.allocOutOfBounds, s)
  else if pmmIsRegionReserved s addr 4096 then (.allocReserved, s)
  else if pmmQueryBitmap s addr then (.allocAlreadyAllocated, s)
  else (.allocSuccess, bmSet s (addr / 4096))

/-- `pmm_dealloc_specific_block`. -/
def pmmDeallocSpecificBlock (s : State) (addr : Nat) : AllocResult × State :=
  if addr % 4096 ≠ 0 then (.allocUnalignedAddr, s)
  else if s.frameCount = 0 then (.noPagesInitialized, s)
  else if s.pagebitmapPhys = 0 then (.bitmapNotInitialized, s)
  else if addr / 4096 ≥ s.frameCount then (.allocOutOfBounds, s)
  else if pmmIsRegionReserved s addr 4096 then (.allocReserved, s)
  else if ¬ pmmQueryBitmap s addr then (.allocAlreadyFree, s)
  else (.allocSuccess, bmClear { s with frameHint := addr / 4096 } (addr / 4096))

/-- The test of the reservation scan: outside every reserved region, and free in the bitmap. -/
def State.reserveTest (s : State) (f : Nat) : Bool :=
  !pmmIsRegionReserved s (frameAddr f) 4096 && !pmmQueryBitmap s (frameAddr f)

/-- Zero the frame at `addr`. -/
def State.clearFrame (s : State) (addr : Nat) : Except Trap State := do
  let ptr ← framePtr s addr
  .ok { s with mem := s.mem.fillBytes ptr 4096 0 }

/-- `pmm_reserve_pageframe`. `out` says whether `out_phys_addr` is not null; the result holds what
is stored there. -/
def pmmReservePageframe (s : State) (out clear : Bool) :
    Except Trap (PagingStatus × Option Nat × State) :=
  if ¬ out then .ok (.errInvalid, none, s)
  else
    match circFind s.frameCount s.reserveTest s.frameCount s.frameHint with
    | none => .ok (.errNomem, none, s)
    | some f => do
        let (res, s) ← pmmReserveRange s (BitVec.ofNat 32 (frameAddr f)) 4096#32 true
        if res ≠ .reserveSuccess ∧ res ≠ .updatedExistingRegion then
          .ok (.errFrameReserveFailed, none, s)
        else
          let s := s.take f
          let s ← if clear then s.clearFrame (frameAddr f) else .ok s
          .ok (.ok, some (frameAddr f), s)

/-! ## What the tests mean -/

/-- Frame `f` intersects a reserved region. -/
def State.FrameReserved (s : State) (f : Nat) : Prop :=
  ∃ a, 4096 * f ≤ a ∧ a < 4096 * f + 4096 ∧ Covered s.memRegions a

/-- Frame `f` holds bytes of the page bitmap. -/
def State.HoldsBitmap (s : State) (f : Nat) : Prop :=
  Touches f s.pagebitmapPhys s.pagebitmapSizeBytes

instance (s : State) (f : Nat) : Decidable (s.HoldsBitmap f) :=
  inferInstanceAs (Decidable (Touches _ _ _))

theorem frameAddr_of_lt {f : Nat} (hf : f < 2 ^ 20) : frameAddr f = 4096 * f := by
  unfold frameAddr
  omega

theorem scanTest_iff (s : State) (f : Nat) : s.scanTest f = true ↔ s.bit f = false := by
  have hlt : f % 8 < 8 := by omega
  have hand : s.mem (s.pagebitmapPhys + f / 8) &&& (1#8 <<< (f % 8)) = 0 ↔ s.bit f = false := by
    unfold State.bit Memory.bitAt
    constructor
    · intro h
      have hbit := congrArg (fun b => BitVec.getLsbD b (f % 8)) h
      simpa [Memory.getLsbD_mask hlt] using hbit
    · intro h
      apply BitVec.eq_of_getLsbD_eq
      intro i hi
      rw [BitVec.getLsbD_and, Memory.getLsbD_mask hi]
      by_cases heq : i = f % 8
      · subst heq
        simp [h]
      · simp [heq]
  unfold State.scanTest
  rw [Bool.or_eq_true, beq_iff_eq, beq_iff_eq, hand]
  constructor
  · rintro (hbyte | hbit)
    · exact Memory.bitAt_of_byte_zero hbyte
    · exact hbit
  · exact .inr

theorem pmmIsRegionReserved_iff (s : State) (address length : Nat) (hlen : length ≠ 0) :
    pmmIsRegionReserved s address length = true ↔
      ∃ a, address ≤ a ∧ a < address + length ∧ Covered s.memRegions a := by
  simp only [pmmIsRegionReserved, pmmFindReserved, hlen, if_false, List.find?_isSome,
    decide_eq_true_eq]
  constructor
  · rintro ⟨r, hr, hne, htype, h1, h2⟩
    have hlt := MemRegion.base_lt_last ⟨htype, hne⟩
    exact ⟨max address r.base.toNat, by omega, by omega, r, hr, htype, by omega, by omega⟩
  · rintro ⟨a, h1, h2, r, hr, htype, h3, h4⟩
    exact ⟨r, hr, (MemRegion.live_of_covers htype h3 h4).2, htype, by omega, by omega⟩

theorem pmmIsRegionReserved_frame (s : State) {f : Nat} (hf : f < 2 ^ 20) :
    pmmIsRegionReserved s (frameAddr f) 4096 = true ↔ s.FrameReserved f := by
  rw [pmmIsRegionReserved_iff s _ _ (by omega), frameAddr_of_lt hf]
  rfl

theorem pmmQueryBitmap_frame (s : State) {f : Nat} (hf : f < s.frameCount) (hf' : f < 2 ^ 20) :
    pmmQueryBitmap s (frameAddr f) = s.bit f := by
  have hdiv : 4096 * f / 4096 = f := by omega
  simp [pmmQueryBitmap, frameAddr_of_lt hf', hdiv, hf]

end Unidos.Pmm
