import Unidos.Pmm.Invariant

/-!
# Start-up of the physical memory manager

`pmm_init` fills the bitmap, frees everything above 1 MiB, and marks the reserved regions and the
bitmap itself. `Initialised.inv` shows that it establishes the invariant, `run_consistent` that
every careful run keeps it. `run_not_consistent` is a run that is not careful: the frame of the
bitmap is freed, handed out again, and zeroed.
-/

namespace Unidos.Pmm

open Lib

/-- A frame that touches a nonempty range shares an address with it. -/
theorem touches_iff {f base len : Nat} (hlen : len ≠ 0) :
    Touches f base len ↔ ∃ a, 4096 * f ≤ a ∧ a < 4096 * f + 4096 ∧ base ≤ a ∧ a < base + len := by
  constructor
  · rintro ⟨h1, h2⟩
    exact ⟨max base (4096 * f), by omega, by omega, by omega, by omega⟩
  · rintro ⟨a, h1, h2, h3, h4⟩
    constructor <;> omega

/-- A step of the marking loop. -/
theorem bmSetRegions_cons (s : State) (r : MemRegion) (rs : List MemRegion) :
    bmSetRegions s (r :: rs) = bmSetRegions
      (if r.type = .reserved then bmSetRangeTouched s r.base.toNat r.length.toNat else s) rs := rfl

theorem bmSetRegions_config (s : State) (rs : List MemRegion) :
    SameConfig s (bmSetRegions s rs) := by
  induction rs generalizing s with
  | nil => exact .refl s
  | cons r rs ih =>
      rw [bmSetRegions_cons]
      split
      · exact (bmSetRangeTouched_config _ _ _).trans (ih _)
      · exact ih s

theorem bmSetRegions_mem_ne {s : State} (rs : List MemRegion) {a : Nat}
    (ha : a < s.pagebitmapPhys ∨ s.pagebitmapPhys + (s.frameCount + 7) / 8 ≤ a) :
    (bmSetRegions s rs).mem a = s.mem a := by
  induction rs generalizing s with
  | nil => rfl
  | cons r rs ih =>
      rw [bmSetRegions_cons]
      split
      · have hconf := bmSetRangeTouched_config s r.base.toNat r.length.toNat
        rw [ih (by rw [hconf.phys, hconf.count]; exact ha), bmSetRangeTouched_mem_ne _ _ ha]
      · exact ih ha

theorem bmSetRegions_counted {s : State} (rs : List MemRegion) (hc : s.Counted)
    (hcount : s.frameCount ≤ 2 ^ 20) : (bmSetRegions s rs).Counted := by
  induction rs generalizing s with
  | nil => exact hc
  | cons r rs ih =>
      rw [bmSetRegions_cons]
      split
      · refine ih (bmSetRangeTouched_counted _ _ hc hcount) ?_
        rw [(bmSetRangeTouched_config _ _ _).count]
        exact hcount
      · exact ih hc hcount

/-- The loop marks exactly the tracked frames that intersect a reserved region. -/
theorem bit_bmSetRegions (s : State) (rs : List MemRegion) {f : Nat} (hf : f < s.frameCount) :
    (bmSetRegions s rs).bit f = true ↔
      s.bit f = true ∨ ∃ a, 4096 * f ≤ a ∧ a < 4096 * f + 4096 ∧ Covered rs a := by
  induction rs generalizing s with
  | nil => simp [bmSetRegions, Covered]
  | cons r rs ih =>
      rw [bmSetRegions_cons]
      by_cases htype : r.type = .reserved
      · have hcount := (bmSetRangeTouched_config s r.base.toNat r.length.toNat).count
        rw [if_pos htype, ih _ (by rw [hcount]; exact hf), bit_bmSetRangeTouched s _ _ f hf]
        simp only [Bool.or_eq_true, decide_eq_true_eq]
        constructor
        · rintro ((⟨hlen, htouch⟩ | hbit) | ⟨a, h1, h2, r', hr', hrest⟩)
          · obtain ⟨a, h1, h2, h3, h4⟩ := (touches_iff hlen).mp htouch
            exact .inr ⟨a, h1, h2, r, by simp, htype, h3, h4⟩
          · exact .inl hbit
          · exact .inr ⟨a, h1, h2, r', by simp [hr'], hrest⟩
        · rintro (hbit | ⟨a, h1, h2, r', hr', htype', h3, h4⟩)
          · exact .inl (.inr hbit)
          · rcases List.mem_cons.mp hr' with rfl | hr'
            · have hlen : r'.length.toNat ≠ 0 := by
                unfold MemRegion.last at h4
                omega
              exact .inl (.inl ⟨hlen, (touches_iff hlen).mpr ⟨a, h1, h2, h3, h4⟩⟩)
            · exact .inr ⟨a, h1, h2, r', hr', htype', h3, h4⟩
      · rw [if_neg htype, ih _ hf]
        refine or_congr_right (exists_congr fun a => and_congr_right fun _ => and_congr_right
          fun _ => ?_)
        constructor
        · rintro ⟨r', hr', hrest⟩
          exact ⟨r', by simp [hr'], hrest⟩
        · rintro ⟨r', hr', hrest⟩
          rcases List.mem_cons.mp hr' with rfl | hr'
          · exact absurd hrest.1 htype
          · exact ⟨r', hr', hrest⟩

theorem freeUsable_config (s : State) (top : Nat) : SameConfig s (freeUsable s top) := by
  unfold freeUsable
  split
  · exact bmClearRangeFullPages_config _ _ _
  · exact .refl s

theorem freeUsable_counted {s : State} (top : Nat) (hc : s.Counted)
    (hcount : s.frameCount ≤ 2 ^ 20) : (freeUsable s top).Counted := by
  unfold freeUsable
  split
  · exact bmClearRangeFullPages_counted _ _ hc hcount
  · exact hc

theorem freeUsable_mem_ne {s : State} (top : Nat) {a : Nat}
    (ha : a < s.pagebitmapPhys ∨ s.pagebitmapPhys + (s.frameCount + 7) / 8 ≤ a) :
    (freeUsable s top).mem a = s.mem a := by
  unfold freeUsable
  split
  · exact bmClearRangeFullPages_mem_ne _ _ ha
  · rfl

theorem BootParams.frameCount_le (boot : BootParams) : boot.topBytes / 4096 ≤ 2 ^ 20 := by
  unfold BootParams.topBytes
  omega

/-- At first every tracked frame is marked. -/
theorem BootParams.bit_allSet (boot : BootParams) (regions : List MemRegion) (hint : Nat) {f : Nat}
    (hf : f < 8 * ((boot.topBytes / 4096 + 7) / 8)) :
    (boot.allSet regions hint).bit f = true := by
  have hbyte : (boot.allSet regions hint).mem
      ((boot.allSet regions hint).pagebitmapPhys + f / 8) = 0xFF :=
    Memory.fillBytes_apply_of_mem _ _ (Nat.le_add_right _ _) (Nat.add_lt_add_left (by omega) _)
  have hbit : ∀ i, i < 8 → (0xFF : BitVec 8).getLsbD i = true := by decide
  unfold State.bit Memory.bitAt
  rw [hbyte]
  exact hbit _ (by omega)

theorem BootParams.allSet_counted (boot : BootParams) (regions : List MemRegion) (hint : Nat) :
    (boot.allSet regions hint).Counted := by
  unfold State.Counted
  rw [show (boot.allSet regions hint).availableFrames = 0 from rfl, eq_comm]
  refine clearCount_eq_zero fun f hf => boot.bit_allSet regions hint ?_
  have hf : f < boot.topBytes / 4096 := hf
  omega

/-- After the freeing pass exactly the frames below 1 MiB are marked. -/
theorem BootParams.bit_freeUsable (boot : BootParams) (regions : List MemRegion) (hint : Nat)
    {f : Nat} (hf : f < boot.topBytes / 4096) :
    (freeUsable (boot.allSet regions hint) boot.topBytes).bit f = decide (f < 0x100) := by
  have htop : boot.topBytes ≤ 2 ^ 32 := Nat.min_le_right _ _
  unfold freeUsable
  split
  · rw [bit_bmClearRangeFullPages _ _ _ _ hf, boot.bit_allSet regions hint (by omega)]
    have hiff : (0x00100000 ≤ 4096 * f ∧ 4096 * f + 4096 ≤
        0x00100000 + min (boot.topBytes - 0x00100000) 0xFFFFFFFF) ↔ ¬ f < 0x100 := by omega
    rw [Bool.and_true, decide_eq_decide.mpr hiff, ← decide_not, decide_eq_decide, not_not]
  · rw [boot.bit_allSet regions hint (by omega)]
    have hlt : f < 0x100 := by omega
    simp [hlt]

/-- What `pmm_init` leaves behind when it does not halt. -/
structure Initialised (boot : BootParams) (regions : List MemRegion) (hint : Nat) (s : State) :
    Prop where
  phys : s.pagebitmapPhys = boot.bitmapLoc
  size : s.pagebitmapSizeBytes = (s.frameCount + 7) / 8
  count : s.frameCount = boot.topBytes / 4096
  fits : s.pagebitmapPhys + s.pagebitmapSizeBytes ≤ boot.topBytes
  hint : s.frameHint = hint
  window : s.usePhysWindowAlias = false
  regions : s.memRegions = regions
  counted : s.Counted
  bit : ∀ f, f < s.frameCount →
    (s.bit f = true ↔ f < 0x100 ∨ s.FrameReserved f ∨ s.HoldsBitmap f)
  mem : ∀ a, a < s.pagebitmapPhys ∨ s.pagebitmapPhys + s.pagebitmapSizeBytes ≤ a →
    s.mem a = boot.mem a

theorem pmmInit_spec {boot : BootParams} {regions : List MemRegion} {hint : Nat} {s : State}
    (h : pmmInit boot regions hint = .ok s) : Initialised boot regions hint s := by
  unfold pmmInit at h
  dsimp only at h
  split at h
  · simp at h
  · rename_i hfit
    have hle := boot.frameCount_le
    have hfree := freeUsable_config (boot.allSet regions hint) boot.topBytes
    have hmark := bmSetRegions_config (freeUsable (boot.allSet regions hint) boot.topBytes) regions
    have hcounted := bmSetRegions_counted regions
      (freeUsable_counted boot.topBytes (boot.allSet_counted regions hint) hle)
      (by rw [hfree.count]; exact hle)
    have hbit := fun f hf => bit_bmSetRegions
      (freeUsable (boot.allSet regions hint) boot.topBytes) regions (f := f) hf
    have hconf := hfree.trans hmark
    have hmem : ∀ a, a < boot.bitmapLoc % 2 ^ 32 ∨
        boot.bitmapLoc % 2 ^ 32 + (boot.topBytes / 4096 + 7) / 8 ≤ a →
        (bmSetRegions (freeUsable (boot.allSet regions hint) boot.topBytes) regions).mem a =
          boot.mem a := by
      intro a ha
      rw [bmSetRegions_mem_ne regions (by rw [hfree.phys, hfree.count]; exact ha),
        freeUsable_mem_ne boot.topBytes ha]
      exact Memory.fillBytes_apply_ne _ _ ha
    -- from here on only the state before the bitmap marks its own frames matters
    generalize bmSetRegions (freeUsable (boot.allSet regions hint) boot.topBytes) regions = s'
      at h hmark hcounted hbit hconf hmem
    have hlast := bmSetRangeTouched_config s' (boot.bitmapLoc % 2 ^ 32) s'.pagebitmapSizeBytes
    have htouch := bit_bmSetRangeTouched s' (boot.bitmapLoc % 2 ^ 32) s'.pagebitmapSizeBytes
    have hcounted' := bmSetRangeTouched_counted (boot.bitmapLoc % 2 ^ 32) s'.pagebitmapSizeBytes
      hcounted (by rw [hconf.count]; exact hle)
    have hmem' := fun a => bmSetRangeTouched_mem_ne (s := s') (boot.bitmapLoc % 2 ^ 32)
      s'.pagebitmapSizeBytes (a := a)
    rw [Except.ok.inj h] at hlast htouch hcounted' hmem'
    have hall := hconf.trans hlast
    have hphys : s.pagebitmapPhys = boot.bitmapLoc % 2 ^ 32 := hall.phys
    have hsize : s.pagebitmapSizeBytes = (boot.topBytes / 4096 + 7) / 8 := hall.size
    have hcount : s.frameCount = boot.topBytes / 4096 := hall.count
    have hsize' : s'.pagebitmapSizeBytes = s.pagebitmapSizeBytes := hlast.size.symm
    have htop : boot.topBytes ≤ 2 ^ 32 := Nat.min_le_right _ _
    have hfit' : boot.bitmapLoc + (boot.topBytes / 4096 + 7) / 8 ≤ boot.topBytes := by
      simpa [BootParams.allSet] using hfit
    have hlt : ∀ f, f < s.frameCount → f < (boot.allSet regions hint).frameCount :=
      fun f hf => hall.count ▸ hf
    refine ⟨?_, ?_, hcount, ?_, hall.hint, hall.window, hall.regions, hcounted', ?_, ?_⟩
    · unfold BootParams.bitmapLoc at *
      omega
    · rw [hsize, hcount]
    · omega
    · intro f hf
      have hpos : s.pagebitmapSizeBytes ≠ 0 := by omega
      have hmarked := hbit f (by rw [hfree.count]; exact hlt f hf)
      rw [boot.bit_freeUsable regions hint (hlt f hf)] at hmarked
      rw [htouch f (by rw [hconf.count]; exact hlt f hf), hsize', ← hphys, Bool.or_eq_true,
        hmarked, State.FrameReserved, show s.memRegions = regions from hall.regions]
      change decide (_ ∧ s.HoldsBitmap f) = true ∨ _ ↔ _
      simp only [hpos, ne_eq, not_false_iff, true_and, decide_eq_true_eq]
      rw [or_comm, or_assoc]
    · intro a ha
      rw [hphys, hsize] at ha
      have ha' : a < s'.pagebitmapPhys ∨ s'.pagebitmapPhys + (s'.frameCount + 7) / 8 ≤ a := by
        rw [hconf.phys, hconf.count]
        exact ha
      rw [hmem' a ha', hmem a ha]

/-- With the kernel image ending above 1 MiB and the hint preset as `mem_init` does, `pmm_init`
establishes the invariant. -/
theorem Initialised.inv {boot : BootParams} {regions : List MemRegion} {s : State}
    (h : Initialised boot regions 0x100 s) (hkernel : 0x100000 < boot.kernelEnd.toNat) : s.Inv := by
  have hphys := h.phys
  have hfits := h.fits
  have hcount := h.count
  have hle := boot.frameCount_le
  unfold BootParams.bitmapLoc at hphys
  refine ⟨⟨?_, h.counted, fun f hf hres => (h.bit f hf).mpr (.inr (.inl hres))⟩, ?_, ?_, h.size⟩
  · rw [h.hint]
    omega
  · omega
  · omega

/-- In every run of careful operations after `pmm_init` the hint, the counter, and the reserved
regions agree with the bitmap; no allocation meets a reserved frame, and the two scanning
allocators return the same frame and leave the same state. -/
theorem run_consistent (boot : BootParams) (regions : List MemRegion) (ops : List Op)
    (start s : State) (hkernel : 0x100000 < boot.kernelEnd.toNat)
    (hinit : pmmInit boot regions 0x100 = .ok start)
    (hrun : Run (Guarded Step Op.Careful) start ops s) :
    s.Consistent ∧
      (pmmGetNextAvailableBlock s).1.status ≠ .bitmapInconsistentReserved ∧
      pmmAllocFrame s = pmmGetNextAvailableBlock s := by
  have hstart := (pmmInit_spec hinit).inv hkernel
  have hs := hrun.invariant (I := State.Inv)
    (fun _ _ _ h hstep => step_inv h hstep.1 hstep.2) hstart
  refine ⟨hs.toConsistent, ?_, pmmAllocFrame_eq hs⟩
  rcases pmmGetNextAvailableBlock_cases hs with heq | ⟨f, -, -, heq⟩ <;> simp [heq]

/-! ## The free set -/

/-- Marking the regions keeps every mark. -/
theorem bit_bmSetRegions_of_set {s : State} {f : Nat} (rs : List MemRegion)
    (h : s.bit f = true) : (bmSetRegions s rs).bit f = true := by
  induction rs generalizing s with
  | nil => exact h
  | cons r rs ih =>
      rw [bmSetRegions_cons]
      apply ih
      split
      · exact bit_bmSetRangeTouched_of_set _ _ h
      · exact h

/-- The bits behind the last frame stay as they were filled. -/
theorem pmmInit_padding {boot : BootParams} {regions : List MemRegion} {hint : Nat} {s : State}
    (h : pmmInit boot regions hint = .ok s) {f : Nat} (hf : s.frameCount ≤ f)
    (hbyte : f < 8 * s.pagebitmapSizeBytes) : s.bit f = true := by
  have hspec := pmmInit_spec h
  rw [hspec.size, hspec.count] at hbyte
  rw [hspec.count] at hf
  have hset : (freeUsable (boot.allSet regions hint) boot.topBytes).bit f = true := by
    unfold freeUsable
    split
    · rw [bit_bmClearRangeFullPages_above _ _ _ hf]
      exact boot.bit_allSet regions hint hbyte
    · exact boot.bit_allSet regions hint hbyte
  unfold pmmInit at h
  dsimp only at h
  split at h
  · cases h
  · rw [← Except.ok.inj h]
    exact bit_bmSetRangeTouched_of_set _ _ (bit_bmSetRegions_of_set regions hset)

/-- The bitmap that `pmm_init` leaves: the frames that are free, byte by byte of the regions and of
the bitmap itself, the padding of the last byte, and the counter. -/
structure FreeSet (boot : BootParams) (regions : List MemRegion) (s : State) : Prop where
  count : s.frameCount = boot.topBytes / 4096
  size : s.pagebitmapSizeBytes = (s.frameCount + 7) / 8
  free : ∀ f, f < s.frameCount → (s.bit f = false ↔ 0x100 ≤ f ∧
    ∀ a, 4096 * f ≤ a → a < 4096 * f + 4096 → ¬ Covered regions a ∧
      ¬ (s.pagebitmapPhys ≤ a ∧ a < s.pagebitmapPhys + s.pagebitmapSizeBytes))
  padding : ∀ f, s.frameCount ≤ f → f < 8 * s.pagebitmapSizeBytes → s.bit f = true
  available : s.availableFrames = clearCount s.bit (8 * s.pagebitmapSizeBytes)

/-- For every memory size, every end of the kernel image and every table of regions: if `pmm_init`
returns, exactly the usable frames are free. -/
theorem pmmInit_freeSet {boot : BootParams} {regions : List MemRegion} {hint : Nat} {s : State}
    (h : pmmInit boot regions hint = .ok s) : FreeSet boot regions s := by
  have hspec := pmmInit_spec h
  have hpadding := fun f => pmmInit_padding h (f := f)
  refine ⟨hspec.count, hspec.size, fun f hf => ?_, hpadding, ?_⟩
  · have hpos : s.pagebitmapSizeBytes ≠ 0 := by
      rw [hspec.size]
      omega
    rw [← Bool.not_eq_true, hspec.bit f hf, State.HoldsBitmap, touches_iff hpos,
      State.FrameReserved, hspec.regions]
    constructor
    · intro hnot
      refine ⟨Nat.le_of_not_lt fun hlow => hnot (.inl hlow), fun a hlo hhi => ⟨?_, ?_⟩⟩
      · exact fun hcov => hnot (.inr (.inl ⟨a, hlo, hhi, hcov⟩))
      · exact fun hin => hnot (.inr (.inr ⟨a, hlo, hhi, hin⟩))
    · intro ⟨hge, hall⟩ hbusy
      rcases hbusy with hlow | ⟨a, hlo, hhi, hcov⟩ | ⟨a, hlo, hhi, hin⟩
      · exact Nat.not_lt.mpr hge hlow
      · exact (hall a hlo hhi).1 hcov
      · exact (hall a hlo hhi).2 hin
  · rw [clearCount_extend (by rw [hspec.size]; omega) hpadding]
    exact hspec.counted

/-- A machine with 258 frames whose kernel image is one page at 1 MiB, so that the bitmap lies in
frame `0x101`. -/
def smallBoot : BootParams where
  availMemoryKib := 1032
  kernelEnd := 0x101000
  mem := fun _ => 0

/-- Low memory and the kernel image of `smallBoot`, as one region. -/
def smallRegions : List MemRegion := [⟨0, 0x101000, .reserved⟩]

theorem pmmInit_freeSet_small : ∃ s : State, pmmInit smallBoot smallRegions 0x100 = .ok s ∧
    FreeSet smallBoot smallRegions s := by
  obtain ⟨s, hinit, -⟩ := exists_of_okAnd
    (e := pmmInit smallBoot smallRegions 0x100) (p := fun _ => true) (by decide +kernel)
  exact ⟨s, hinit, pmmInit_freeSet hinit⟩

theorem run_consistent_small : ∃ start s : State,
    pmmInit smallBoot smallRegions 0x100 = .ok start ∧
      Run (Guarded Step Op.Careful) start [.getNextAvailableBlock] s ∧ s.Consistent := by
  obtain ⟨start, hstart, -⟩ := exists_of_okAnd
    (e := pmmInit smallBoot smallRegions 0x100) (p := fun _ => true) (by decide +kernel)
  have hrun : Run (Guarded Step Op.Careful) start [.getNextAvailableBlock]
      (pmmGetNextAvailableBlock start).2 := .cons ⟨trivial, rfl⟩ (.nil _)
  exact ⟨start, _, hstart, hrun, (run_consistent _ _ _ _ _ (by decide) hstart hrun).1⟩

/-- Freeing the frame of the bitmap and reserving it with `clear` zeroes the bitmap: reserved
frames are then marked free, and the next allocation reports it. -/
theorem run_not_consistent : ∃ start s : State,
    pmmInit smallBoot smallRegions 0x100 = .ok start ∧
      Run Step start [.deallocSpecificBlock 0x101000, .reservePageframe true true] s ∧
      ¬ s.Consistent ∧
      (pmmGetNextAvailableBlock s).1.status = .bitmapInconsistentReserved := by
  obtain ⟨start, hstart, htest⟩ := exists_of_okAnd
    (e := pmmInit smallBoot smallRegions 0x100)
    (p := fun start => okAnd
      (execAll Op.exec start [.deallocSpecificBlock 0x101000, .reservePageframe true true])
      fun s => s.frameCount == 258 && s.bit 0x100 == false &&
        pmmIsRegionReserved s 0x100000 4096 &&
        (pmmGetNextAvailableBlock s).1.status == .bitmapInconsistentReserved) (by decide +kernel)
  obtain ⟨s, hrun, htest⟩ := exists_of_okAnd htest
  simp only [Bool.and_eq_true, beq_iff_eq] at htest
  obtain ⟨⟨⟨hcount, hbit⟩, hres⟩, hstatus⟩ := htest
  refine ⟨start, s, hstart, run_of_execAll hrun, fun hcons => ?_, hstatus⟩
  have hset := hcons.reserved_set 0x100 (by omega)
    ((pmmIsRegionReserved_iff s 0x100000 4096 (by decide)).mp hres)
  simp [hbit] at hset

end Unidos.Pmm
