import Unidos.Pmm.Alloc
import Unidos.Lib.Run

/-!
# The invariant of the physical memory manager

`Consistent` is the agreement of the hint, the counter, the bitmap, and the region table. `Inv`
adds what never changes after `pmm_init`. The bitmap is ordinary memory, so `Inv` survives a
reservation that zeroes its frame only if that frame does not hold the bitmap; `Op.Careful` is
that side condition, and `run_consistent` shows that it is enough.
-/

namespace Unidos.Pmm

open Lib

/-- Hint, counter, and region table agree with the bitmap. -/
structure State.Consistent (s : State) : Prop where
  hint_lt : s.frameHint < s.frameCount
  counted : s.availableFrames = clearCount s.bit s.frameCount
  reserved_set : ∀ f, f < s.frameCount → s.FrameReserved f → s.bit f = true

/-- `Consistent`, with the facts about the bitmap's size and place. -/
structure State.Inv (s : State) : Prop extends State.Consistent s where
  count_le : s.frameCount ≤ 2 ^ 20
  phys_ne : s.pagebitmapPhys ≠ 0
  size_eq : s.pagebitmapSizeBytes = (s.frameCount + 7) / 8

/-! ## What each operation can do -/

variable {s : State}

theorem State.Inv.lt_pow (h : s.Inv) {f : Nat} (hf : f < s.frameCount) : f < 2 ^ 20 :=
  lt_of_lt_of_le hf h.count_le

/-- A frame whose bit is clear lies outside every reserved region. -/
theorem State.Inv.not_reserved (h : s.Inv) {f : Nat} (hf : f < s.frameCount)
    (hbit : s.bit f = false) : ¬ s.FrameReserved f := by
  intro hres
  rw [h.reserved_set f hf hres] at hbit
  exact absurd hbit (by simp)

/-- The scan for a free frame: it finds nothing, or a tracked frame whose bit is clear. -/
theorem pmmGetNextAvailableBlock_cases (h : s.Inv) :
    pmmGetNextAvailableBlock s = (⟨.allocOom, 0⟩, s) ∨
    ∃ f, f < s.frameCount ∧ s.bit f = false ∧
      pmmGetNextAvailableBlock s = (⟨.allocSuccess, 4096 * f⟩, s.take f) := by
  have hcount : s.frameCount ≠ 0 := by
    have := h.hint_lt
    omega
  simp only [pmmGetNextAvailableBlock, hcount, h.phys_ne, if_false]
  cases hfind : circFind s.frameCount s.scanTest s.frameCount s.frameHint with
  | none => exact .inl rfl
  | some f =>
      have hlt := circFind_lt h.hint_lt hfind
      have hclear := (scanTest_iff s f).mp (circFind_sound hfind)
      have hres := mt (pmmIsRegionReserved_frame s (h.lt_pow hlt)).mp (h.not_reserved hlt hclear)
      rw [frameAddr_of_lt (h.lt_pow hlt)] at hres
      exact .inr ⟨f, hlt, hclear, by simp [hres, frameAddr_of_lt (h.lt_pow hlt)]⟩

/-- The allocator without the reserved-region check does the same as the one with it. -/
theorem pmmAllocFrame_eq (h : s.Inv) : pmmAllocFrame s = pmmGetNextAvailableBlock s := by
  have hcount : s.frameCount ≠ 0 := by
    have := h.hint_lt
    omega
  simp only [pmmAllocFrame, pmmGetNextAvailableBlock, hcount, h.phys_ne, if_false]
  cases hfind : circFind s.frameCount s.scanTest s.frameCount s.frameHint with
  | none => rfl
  | some f =>
      have hlt := circFind_lt h.hint_lt hfind
      have hclear := (scanTest_iff s f).mp (circFind_sound hfind)
      have hres := mt (pmmIsRegionReserved_frame s (h.lt_pow hlt)).mp (h.not_reserved hlt hclear)
      simp [hres]

/-- Allocating a given block either fails without effect or marks a free, unreserved frame. -/
theorem pmmAllocSpecificBlock_cases (h : s.Inv) (addr : Nat) :
    ((pmmAllocSpecificBlock s addr).1 ≠ .allocSuccess ∧ (pmmAllocSpecificBlock s addr).2 = s) ∨
    ∃ f, addr = 4096 * f ∧ f < s.frameCount ∧ s.bit f = false ∧ ¬ s.FrameReserved f ∧
      pmmAllocSpecificBlock s addr = (.allocSuccess, bmSet s f) := by
  unfold pmmAllocSpecificBlock
  by_cases halign : addr % 4096 ≠ 0
  · simp [halign]
  · obtain ⟨f, rfl⟩ : ∃ f, addr = 4096 * f := ⟨addr / 4096, by omega⟩
    have hdiv : 4096 * f / 4096 = f := by omega
    simp only [halign, if_false, hdiv]
    by_cases hf : f ≥ s.frameCount
    · simp [hf]
    · have hlt := h.lt_pow (by omega : f < s.frameCount)
      have haddr := frameAddr_of_lt hlt
      have hquery := pmmQueryBitmap_frame s (by omega) hlt
      have hres := pmmIsRegionReserved_frame s hlt
      rw [haddr] at hquery hres
      simp only [hf, if_false, hquery]
      by_cases hr : pmmIsRegionReserved s (4096 * f) 4096 = true
      · simp [hr]
      · by_cases hb : s.bit f = true
        · simp [hr, hb]
        · exact .inr ⟨f, rfl, by omega, by simpa using hb, mt hres.mpr hr, by simp [hr, hb]⟩

/-- Freeing a given block either fails without effect or clears the bit of an allocated,
unreserved frame. -/
theorem pmmDeallocSpecificBlock_cases (h : s.Inv) (addr : Nat) :
    ((pmmDeallocSpecificBlock s addr).1 ≠ .allocSuccess ∧ (pmmDeallocSpecificBlock s addr).2 = s) ∨
    ∃ f, addr = 4096 * f ∧ f < s.frameCount ∧ s.bit f = true ∧ ¬ s.FrameReserved f ∧
      pmmDeallocSpecificBlock s addr = (.allocSuccess, bmClear { s with frameHint := f } f) := by
  have hcount : s.frameCount ≠ 0 := by
    have := h.hint_lt
    omega
  unfold pmmDeallocSpecificBlock
  by_cases halign : addr % 4096 ≠ 0
  · simp [halign]
  · obtain ⟨f, rfl⟩ : ∃ f, addr = 4096 * f := ⟨addr / 4096, by omega⟩
    have hdiv : 4096 * f / 4096 = f := by omega
    simp only [halign, hcount, h.phys_ne, if_false, hdiv]
    by_cases hf : f ≥ s.frameCount
    · simp [hf]
    · have hlt := h.lt_pow (by omega : f < s.frameCount)
      have haddr := frameAddr_of_lt hlt
      have hquery := pmmQueryBitmap_frame s (by omega) hlt
      have hres := pmmIsRegionReserved_frame s hlt
      rw [haddr] at hquery hres
      simp only [hf, if_false, hquery]
      by_cases hr : pmmIsRegionReserved s (4096 * f) 4096 = true
      · simp [hr]
      · by_cases hb : s.bit f = true
        · exact .inr ⟨f, rfl, by omega, hb, mt hres.mpr hr, by simp [hr, hb]⟩
        · simp [hr, hb]

/-! ## Preservation -/

/-- Marking a tracked frame keeps the invariant. -/
theorem State.Inv.bmSet (h : s.Inv) {f : Nat} (hf : f < s.frameCount) : (bmSet s f).Inv where
  hint_lt := h.hint_lt
  counted := bmSet_counted h.counted hf h.count_le
  reserved_set g hg hres := by
    rw [bit_bmSet, h.reserved_set g hg hres]
    simp
  count_le := h.count_le
  phys_ne := h.phys_ne
  size_eq := h.size_eq

/-- The hint may be moved to any tracked frame. -/
theorem State.Inv.withHint (h : s.Inv) {f : Nat} (hf : f < s.frameCount) :
    State.Inv { s with frameHint := f } :=
  ⟨⟨hf, h.counted, h.reserved_set⟩, h.count_le, h.phys_ne, h.size_eq⟩

theorem State.Inv.take (h : s.Inv) {f : Nat} (hf : f < s.frameCount) : (s.take f).Inv :=
  (h.bmSet hf).withHint (Nat.mod_lt _ (by
    have hcount : (Pmm.bmSet s f).frameCount = s.frameCount := rfl
    omega))

/-- Clearing the bit of a frame outside every reserved region keeps the invariant. -/
theorem State.Inv.bmClear (h : s.Inv) {f : Nat} (hf : f < s.frameCount)
    (hfree : ¬ s.FrameReserved f) : (bmClear s f).Inv where
  hint_lt := h.hint_lt
  counted := bmClear_counted h.counted hf h.count_le
  reserved_set g hg hres := by
    have hne : g ≠ f := fun heq => hfree (heq ▸ hres)
    rw [bit_bmClear, h.reserved_set g hg hres]
    simp [hne]
  count_le := h.count_le
  phys_ne := h.phys_ne
  size_eq := h.size_eq

theorem pmmGetNextAvailableBlock_inv (h : s.Inv) : (pmmGetNextAvailableBlock s).2.Inv := by
  rcases pmmGetNextAvailableBlock_cases h with heq | ⟨f, hf, -, heq⟩
  · rw [heq]
    exact h
  · rw [heq]
    exact h.take hf

theorem pmmAllocSpecificBlock_inv (h : s.Inv) (addr : Nat) :
    (pmmAllocSpecificBlock s addr).2.Inv := by
  rcases pmmAllocSpecificBlock_cases h addr with ⟨-, heq⟩ | ⟨f, -, hf, -, -, heq⟩
  · rw [heq]
    exact h
  · rw [heq]
    exact h.bmSet hf

theorem pmmDeallocSpecificBlock_inv (h : s.Inv) (addr : Nat) :
    (pmmDeallocSpecificBlock s addr).2.Inv := by
  rcases pmmDeallocSpecificBlock_cases h addr with ⟨-, heq⟩ | ⟨f, -, hf, -, hfree, heq⟩
  · rw [heq]
    exact h
  · rw [heq]
    exact (h.withHint hf).bmClear hf hfree

/-- What the bitmap side of a reservation keeps: it only sets bits. -/
structure Grows (s t : State) : Prop where
  phys : t.pagebitmapPhys = s.pagebitmapPhys
  size : t.pagebitmapSizeBytes = s.pagebitmapSizeBytes
  count : t.frameCount = s.frameCount
  hint : t.frameHint = s.frameHint
  window : t.usePhysWindowAlias = s.usePhysWindowAlias
  bit : ∀ f, f < s.frameCount → s.bit f = true → t.bit f = true
  counted : s.frameCount ≤ 2 ^ 20 → s.Counted → t.Counted
  mem : ∀ a, a < s.pagebitmapPhys ∨ s.pagebitmapPhys + (s.frameCount + 7) / 8 ≤ a →
    t.mem a = s.mem a

theorem Grows.refl (s : State) : Grows s s :=
  ⟨rfl, rfl, rfl, rfl, rfl, fun _ _ h => h, fun _ h => h, fun _ _ => rfl⟩

theorem bmSetRangeTouched_grows (s : State) (base len : Nat) :
    Grows s (bmSetRangeTouched s base len) := by
  have hconf := bmSetRangeTouched_config s base len
  refine ⟨hconf.phys, hconf.size, hconf.count, hconf.hint, hconf.window, fun f hf hbit => ?_,
    fun hle hc => bmSetRangeTouched_counted base len hc hle,
    fun a ha => bmSetRangeTouched_mem_ne base len ha⟩
  rw [bit_bmSetRangeTouched s base len f hf, hbit]
  simp

theorem applyInit_grows (s : State) (r : MemRegion) (init : Bool) :
    Grows s (applyInit s r init) := by
  unfold applyInit pmmInitSingle
  split
  · split
    · exact .refl s
    · split
      · exact bmSetRangeTouched_grows _ _ _
      · exact .refl s
  · exact .refl s

/-- `Grows` says nothing about the region table of the first state. -/
theorem Grows.ofRegions {t : State} {rs : List MemRegion}
    (h : Grows { s with memRegions := rs } t) : Grows s t :=
  ⟨h.phys, h.size, h.count, h.hint, h.window, h.bit, h.counted, h.mem⟩

theorem Grows.compact {t : State} (h : Grows s t) : Grows s (compact t) :=
  ⟨h.phys, h.size, h.count, h.hint, h.window, h.bit, h.counted, h.mem⟩

theorem ReserveCases.grows {s' : State} {base length : BitVec 32} {init : Bool}
    {res : ReserveResult} (h : ReserveCases s base length init res s') : Grows s s' := by
  cases h with
  | invalid | full => exact .refl s
  | appended => exact (applyInit_grows _ _ _).ofRegions
  | merged => exact (applyInit_grows _ _ _).ofRegions.compact

/-- The 32-bit address of a tracked frame. -/
theorem State.Inv.toNat_frameAddr (hs : s.Inv) {f : Nat} (hf : f < s.frameCount) :
    (BitVec.ofNat 32 (frameAddr f)).toNat = 4096 * f := by
  have hlt := hs.lt_pow hf
  rw [frameAddr_of_lt hlt, BitVec.toNat_ofNat]
  omega

/-- A reservation of frames, followed by the marking of all of them, keeps the invariant. -/
theorem ReserveCases.marked_inv {s' : State} {cur n hint : Nat} {length : BitVec 32}
    {res : ReserveResult} {l : List Nat} (hs : s.Inv)
    (h : ReserveCases s (BitVec.ofNat 32 (frameAddr cur)) length true res s')
    (hcur : cur < s.frameCount) (hlen : length.toNat = 4096 * n)
    (hfs : ∀ f, f ∈ l ↔ cur ≤ f ∧ f < cur + n) (hwin : cur + n ≤ s.frameCount)
    (hhint : hint < s.frameCount) :
    State.Inv { l.foldl Pmm.bmSet s' with frameHint := hint } := by
  have hgrow := h.grows
  have hbase := hs.toNat_frameAddr hcur
  have hconf := foldl_bmSet_config l s'
  have hcount : (l.foldl Pmm.bmSet s').frameCount = s.frameCount := hconf.count.trans hgrow.count
  refine ⟨⟨?_, ?_, ?_⟩, ?_, ?_, ?_⟩
  · exact hcount ▸ hhint
  · refine foldl_bmSet_counted (hgrow.counted hs.count_le hs.counted)
      (hgrow.count ▸ hs.count_le) fun f hf => ?_
    have := (hfs f).mp hf
    rw [hgrow.count]
    omega
  · rintro g hg ⟨a, h1, h2, hcov⟩
    have hg' : g < s.frameCount := hcount ▸ hg
    change (l.foldl Pmm.bmSet s').bit g = true
    rw [bit_foldl_bmSet]
    have hcov' : Covered s'.memRegions a := hconf.regions ▸ hcov
    rcases h.covered_sub hcov' with hold | ⟨h3, h4⟩
    · rw [hgrow.bit g hg' (hs.reserved_set g hg' ⟨a, h1, h2, hold⟩)]
      simp
    · have hmem : g ∈ l := (hfs g).mpr ⟨by omega, by omega⟩
      simp [hmem]
  · exact hcount ▸ hs.count_le
  · exact (hconf.phys.trans hgrow.phys) ▸ hs.phys_ne
  · exact (hconf.size.trans hgrow.size).trans (hcount ▸ hs.size_eq)

theorem ReserveCases.take_inv {s' : State} {f : Nat} {res : ReserveResult} (hs : s.Inv)
    (hf : f < s.frameCount)
    (h : ReserveCases s (BitVec.ofNat 32 (frameAddr f)) 4096#32 true res s') : (s'.take f).Inv :=
  h.marked_inv (n := 1) (l := [f]) hs hf rfl (by simp; omega) hf
    (Nat.mod_lt _ (by rw [h.grows.count]; omega) |>.trans_eq h.grows.count)

/-- The bitmap after a change of memory outside of it. -/
theorem bit_withMem (s : State) {mem : Memory}
    (hmem : ∀ a, s.pagebitmapPhys ≤ a → a < s.pagebitmapPhys + (s.frameCount + 7) / 8 →
      mem a = s.mem a) {g : Nat} (hg : g < s.frameCount) :
    ({ s with mem := mem } : State).bit g = s.bit g := by
  unfold State.bit Memory.bitAt
  dsimp only
  rw [hmem _ (Nat.le_add_right _ _) (by omega)]

/-- Writes outside the bitmap keep the invariant. -/
theorem State.Inv.withMem (hs : s.Inv) {mem : Memory}
    (hmem : ∀ a, s.pagebitmapPhys ≤ a → a < s.pagebitmapPhys + (s.frameCount + 7) / 8 →
      mem a = s.mem a) : State.Inv { s with mem := mem } where
  hint_lt := hs.hint_lt
  counted := by
    rw [hs.counted]
    exact (clearCount_congr fun g hg => bit_withMem s hmem hg).symm
  reserved_set g hg hres := by
    rw [bit_withMem s hmem hg]
    exact hs.reserved_set g hg hres
  count_le := hs.count_le
  phys_ne := hs.phys_ne
  size_eq := hs.size_eq

theorem State.Inv.fillBytes (hs : s.Inv) {f : Nat} (hf : ¬ s.HoldsBitmap f) :
    State.Inv { s with mem := s.mem.fillBytes (4096 * f) 4096 0 } := by
  unfold State.HoldsBitmap Touches at hf
  rw [hs.size_eq] at hf
  exact hs.withMem fun a h1 h2 => Memory.fillBytes_apply_ne _ _ (by omega)

/-! ## Runs -/

/-- The operations of the memory manager after `pmm_init`, with their arguments. -/
inductive Op where
  | getNextAvailableBlock
  | allocFrame
  | allocSpecificBlock (addr : BitVec 32)
  | deallocSpecificBlock (addr : BitVec 32)
  | reservePageframe (out clear : Bool)

/-- The state after an operation. -/
def Op.exec (s : State) : Op → Except Trap State
  | .getNextAvailableBlock => .ok (pmmGetNextAvailableBlock s).2
  | .allocFrame => .ok (pmmAllocFrame s).2
  | .allocSpecificBlock addr => .ok (pmmAllocSpecificBlock s addr.toNat).2
  | .deallocSpecificBlock addr => .ok (pmmDeallocSpecificBlock s addr.toNat).2
  | .reservePageframe out clear => (pmmReservePageframe s out clear).map fun r => r.2.2

/-- One step of the memory manager. -/
def Step (s : State) (op : Op) (t : State) : Prop := op.exec s = .ok t

/-- No frame that holds bitmap bytes is free while a frame is reserved with `clear`. -/
def Op.Careful (s : State) : Op → Prop
  | .reservePageframe _ true => ∀ f, f < s.frameCount → s.HoldsBitmap f → s.bit f = true
  | _ => True

/-- A frame found by the reservation scan is tracked, free, and outside the reserved regions. -/
theorem reserveTest_iff (h : s.Inv) {f : Nat} (hf : f < s.frameCount) :
    s.reserveTest f = true ↔ ¬ s.FrameReserved f ∧ s.bit f = false := by
  have hlt := h.lt_pow hf
  rw [State.reserveTest, pmmQueryBitmap_frame s hf hlt, Bool.and_eq_true, Bool.not_eq_true',
    Bool.not_eq_true', ← pmmIsRegionReserved_frame s hlt, Bool.not_eq_true]

/-- Zeroing a frame, when it succeeds, writes exactly that frame. -/
theorem clearFrame_eq {t : State} {addr : Nat} (h : s.clearFrame addr = .ok t) :
    t = { s with mem := s.mem.fillBytes addr 4096 0 } := by
  unfold State.clearFrame framePtr physToVirt at h
  simp only [bind, Except.bind] at h
  split at h
  · simp at h
  · rename_i ptr hptr
    have hptr' : ptr = addr := by
      split at hptr
      · split at hptr
        · simp at hptr
        · simpa using hptr.symm
      · simpa using hptr.symm
    subst hptr'
    simpa using h.symm

/-- A reservation either fails without effect, or reserves and marks a free frame `f`, and zeroes
it if asked to. -/
theorem pmmReservePageframe_cases {t : State} {out clear : Bool} {st : PagingStatus}
    {addr : Option Nat} (h : s.Inv) (hret : pmmReservePageframe s out clear = .ok (st, addr, t)) :
    (st ≠ .ok ∧ t = s) ∨
    ∃ f res s', f < s.frameCount ∧ ¬ s.FrameReserved f ∧ s.bit f = false ∧
      ReserveCases s (BitVec.ofNat 32 (frameAddr f)) 4096#32 true res s' ∧
      st = .ok ∧ addr = some (4096 * f) ∧
      t = if clear then { s'.take f with mem := (s'.take f).mem.fillBytes (4096 * f) 4096 0 }
        else s'.take f := by
  unfold pmmReservePageframe at hret
  cases out with
  | false =>
      simp only [Bool.false_eq_true, not_false_iff, if_true, Except.ok.injEq, Prod.mk.injEq] at hret
      exact .inl ⟨by simp [← hret.1], hret.2.2.symm⟩
  | true =>
      simp only [not_true, if_false] at hret
      cases hfind : circFind s.frameCount s.reserveTest s.frameCount s.frameHint with
      | none =>
          simp only [hfind, Except.ok.injEq, Prod.mk.injEq] at hret
          exact .inl ⟨by simp [← hret.1], hret.2.2.symm⟩
      | some f =>
          have hf := circFind_lt h.hint_lt hfind
          obtain ⟨hres, hbit⟩ := (reserveTest_iff h hf).mp (circFind_sound hfind)
          obtain ⟨res, s', hrange, hcases⟩ :=
            pmmReserveRange_cases s (BitVec.ofNat 32 (frameAddr f)) 4096#32 true
          simp only [hfind, hrange, bind, Except.bind] at hret
          split at hret
          · -- the table is full: nothing was changed
            rename_i hfail
            simp only [Except.ok.injEq, Prod.mk.injEq] at hret
            cases hcases with
            | invalid | full => exact .inl ⟨by simp [← hret.1], hret.2.2.symm⟩
            | appended | merged => simp at hfail
          · rw [frameAddr_of_lt (h.lt_pow hf)] at hret
            refine .inr ⟨f, res, s', hf, hres, hbit, hcases, ?_⟩
            cases clear with
            | false =>
                simp only [Bool.false_eq_true, if_false, Except.ok.injEq, Prod.mk.injEq] at hret ⊢
                exact ⟨hret.1.symm, hret.2.1.symm, hret.2.2.symm⟩
            | true =>
                simp only [if_true] at hret ⊢
                cases hclear : (s'.take f).clearFrame (4096 * f) with
                | error e => simp [hclear] at hret
                | ok u =>
                    simp only [hclear, Except.ok.injEq, Prod.mk.injEq] at hret
                    exact ⟨hret.1.symm, hret.2.1.symm, hret.2.2 ▸ clearFrame_eq hclear⟩

theorem pmmReservePageframe_inv {t : State} {out clear : Bool} {st : PagingStatus}
    {addr : Option Nat} (h : s.Inv) (hcare : (Op.reservePageframe out clear).Careful s)
    (hret : pmmReservePageframe s out clear = .ok (st, addr, t)) : t.Inv := by
  rcases pmmReservePageframe_cases h hret with
    ⟨-, rfl⟩ | ⟨f, res, s', hf, -, hbit, hcases, -, -, rfl⟩
  · exact h
  · have htake := hcases.take_inv h hf
    cases clear with
    | false => exact htake
    | true =>
        refine htake.fillBytes fun hhold => ?_
        -- the frame was free, so by assumption it does not hold the bitmap
        have hgrow := hcases.grows
        have hhold' : s.HoldsBitmap f := by
          unfold State.HoldsBitmap at hhold ⊢
          rw [← hgrow.phys, ← hgrow.size]
          exact hhold
        rw [hcare f hf hhold'] at hbit
        exact absurd hbit (by simp)

/-- Every careful step keeps the invariant. -/
theorem step_inv {t : State} {op : Op} (h : s.Inv) (hcare : op.Careful s) (hstep : Step s op t) :
    t.Inv := by
  unfold Step at hstep
  cases op with
  | getNextAvailableBlock => exact Except.ok.inj hstep ▸ pmmGetNextAvailableBlock_inv h
  | allocFrame =>
      have heq : (pmmAllocFrame s).2 = t := Except.ok.inj hstep
      rw [← heq, pmmAllocFrame_eq h]
      exact pmmGetNextAvailableBlock_inv h
  | allocSpecificBlock addr => exact Except.ok.inj hstep ▸ pmmAllocSpecificBlock_inv h _
  | deallocSpecificBlock addr => exact Except.ok.inj hstep ▸ pmmDeallocSpecificBlock_inv h _
  | reservePageframe out clear =>
      simp only [Op.exec] at hstep
      cases hret : pmmReservePageframe s out clear with
      | error e => simp [hret, Except.map] at hstep
      | ok r =>
          obtain ⟨st, addr, u⟩ := r
          simp only [hret, Except.map, Except.ok.injEq] at hstep
          exact hstep ▸ pmmReservePageframe_inv h hcare hret

end Unidos.Pmm
