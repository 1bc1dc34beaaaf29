import Unidos.Pmm.Coverage
import Unidos.Pmm.Invariant

/-!
# Reserving a run of frames

`pmm_reserve_pageframe_seq` finds one free frame and then looks at the requested window from its
far end: the first frame that cannot be used, counted from above, cuts the window. While frames
are only ever reserved, the hint stays below every free frame, and a window that leaves a free
frame behind it lies inside memory; `BootInv.seq` is one round of the start-up loop of
`paging_init_identity_window` under that condition.
-/

namespace Unidos.Pmm

open Lib

/-- What `pmm_reserve_pageframe_seq` hands back: its status, the value stored in `out_count`, and
the addresses stored in `out_reserved`. -/
structure SeqResult where
  status : PagingStatus
  outCount : Option Nat
  outReserved : List Nat

/-- Step 1 of `pmm_reserve_pageframe_seq`, with `i` iterations to go: the loop stops at the first
frame that is out of bounds, reserved, or taken. -/
def seqWindow (s : State) (cur requested : Nat) : Nat → Nat
  | 0 => requested
  | i + 1 =>
      let checkFrame := (cur + i) % 2 ^ 32
      if checkFrame ≥ s.frameCount then i
      else if pmmIsRegionReserved s (frameAddr checkFrame) 4096 then i
      else if pmmQueryBitmap s (frameAddr checkFrame) then i
      else seqWindow s cur requested i

/-- Zero the frames at the given addresses. -/
def State.clearFrames (s : State) : List Nat → Except Trap State
  | [] => .ok s
  | addr :: addrs => do
      let s ← s.clearFrame addr
      s.clearFrames addrs

/-- The frames of a window, in 32-bit arithmetic. -/
def windowFrames (cur count : Nat) : List Nat :=
  (List.range count).map fun i => (cur + i) % 2 ^ 32

/-- Mark a window and move the hint behind it. -/
def State.takeWindow (s : State) (cur count : Nat) : State :=
  { (windowFrames cur count).foldl bmSet s with
    frameHint := (cur + count) % 2 ^ 32 % s.frameCount }

/-- `pmm_reserve_pageframe_seq`. `outReserved` and `outCount` say whether the pointers are not
null. -/
def pmmReservePageframeSeq (s : State) (requested : Nat) (outReserved outCount clear : Bool) :
    Except Trap (SeqResult × State) :=
  if requested = 0 ∨ ¬ outReserved ∨ ¬ outCount then .ok (⟨.errInvalid, none, []⟩, s)
  else
    match circFind s.frameCount s.reserveTest s.frameCount s.frameHint with
    | none => .ok (⟨.errNomem, none, []⟩, s)
    | some cur => do
        let count := seqWindow s cur requested requested
        let (res, s) ← pmmReserveRange s (BitVec.ofNat 32 (frameAddr cur))
          (BitVec.ofNat 32 (frameAddr count)) true
        if res ≠ .reserveSuccess ∧ res ≠ .updatedExistingRegion then
          .ok (⟨.errFrameReserveFailed, some count, []⟩, s)
        else
          let addrs := (windowFrames cur count).map frameAddr
          let s := s.takeWindow cur count
          let s ← if clear then s.clearFrames addrs else .ok s
          .ok (⟨.ok, some count, addrs⟩, s)

/-! ## The window -/

variable {s : State}

theorem seqWindow_le (s : State) (cur requested k : Nat) (hk : k ≤ requested) :
    seqWindow s cur requested k ≤ requested := by
  induction k with
  | zero => exact le_rfl
  | succ k ih =>
      unfold seqWindow
      dsimp only
      split
      · omega
      · split
        · omega
        · split
          · omega
          · exact ih (by omega)

/-- The window is never empty, because it starts at a usable frame. -/
theorem seqWindow_pos {cur requested : Nat} (hlt : cur < s.frameCount) (hcount : cur < 2 ^ 32)
    (htest : s.reserveTest cur = true) (hreq : 0 < requested) (k : Nat) :
    0 < seqWindow s cur requested k := by
  simp only [State.reserveTest, Bool.and_eq_true, Bool.not_eq_true'] at htest
  induction k with
  | zero => exact hreq
  | succ k ih =>
      unfold seqWindow
      dsimp only
      rcases Nat.eq_zero_or_pos k with rfl | hk
      · rw [Nat.add_zero, Nat.mod_eq_of_lt hcount, if_neg (by omega), htest.1, htest.2]
        exact ih
      · split
        · exact hk
        · split
          · exact hk
          · split
            · exact hk
            · exact ih

theorem mem_windowFrames {cur count f : Nat} (hlt : cur + count ≤ 2 ^ 32) :
    f ∈ windowFrames cur count ↔ cur ≤ f ∧ f < cur + count := by
  simp only [windowFrames, List.mem_map, List.mem_range]
  constructor
  · rintro ⟨i, hi, rfl⟩
    omega
  · rintro ⟨h1, h2⟩
    exact ⟨f - cur, by omega, by omega⟩

@[simp] theorem length_windowFrames (cur count : Nat) :
    (windowFrames cur count).length = count := by
  simp [windowFrames]

/-- Zeroing frames changes memory only, and only inside those frames. -/
theorem clearFrames_eq {s t : State} {addrs : List Nat} (h : s.clearFrames addrs = .ok t) :
    t = { s with mem := addrs.foldl (fun mem addr => mem.fillBytes addr 4096 0) s.mem } := by
  induction addrs generalizing s with
  | nil => exact (Except.ok.inj h).symm
  | cons addr addrs ih =>
      simp only [State.clearFrames, bind, Except.bind] at h
      cases hclear : s.clearFrame addr with
      | error e => simp [hclear] at h
      | ok u =>
          rw [hclear] at h
          rw [ih h, clearFrame_eq hclear]
          rfl

theorem foldl_fillBytes_apply_ne (mem : Memory) {addrs : List Nat} {a : Nat}
    (h : ∀ addr ∈ addrs, a < addr ∨ addr + 4096 ≤ a) :
    (addrs.foldl (fun mem addr => mem.fillBytes addr 4096 0) mem) a = mem a := by
  induction addrs generalizing mem with
  | nil => rfl
  | cons addr addrs ih =>
      rw [List.foldl_cons, ih _ fun addr' haddr => h addr' (by simp [haddr])]
      exact Memory.fillBytes_apply_ne _ _ (h addr (by simp))

/-- A call that reports success has found a usable frame, reserved a nonempty window from there,
marked it, and zeroed it if asked to. -/
theorem pmmReservePageframeSeq_ok {t : State} {requested : Nat} {outReserved outCount clear : Bool}
    {r : SeqResult} (hhint : s.frameHint < s.frameCount) (hcount : s.frameCount ≤ 2 ^ 20)
    (hret : pmmReservePageframeSeq s requested outReserved outCount clear = .ok (r, t))
    (hok : r.status = .ok) :
    ∃ cur n res s', circFind s.frameCount s.reserveTest s.frameCount s.frameHint = some cur ∧
      n = seqWindow s cur requested requested ∧ 0 < n ∧ n ≤ requested ∧
      (res = .reserveSuccess ∨ res = .updatedExistingRegion) ∧
      ReserveCases s (BitVec.ofNat 32 (frameAddr cur)) (BitVec.ofNat 32 (frameAddr n)) true res s' ∧
      r.outCount = some n ∧ r.outReserved = (windowFrames cur n).map frameAddr ∧
      ∃ mem, t = { s'.takeWindow cur n with mem := mem } ∧
        mem = if clear then
          ((windowFrames cur n).map frameAddr).foldl (fun mem addr => mem.fillBytes addr 4096 0)
            (s'.takeWindow cur n).mem
        else (s'.takeWindow cur n).mem := by
  unfold pmmReservePageframeSeq at hret
  split at hret
  · rw [Except.ok.injEq, Prod.mk.injEq] at hret
    simp [← hret.1] at hok
  · rename_i hvalid
    cases hfind : circFind s.frameCount s.reserveTest s.frameCount s.frameHint with
    | none =>
        simp only [hfind, Except.ok.injEq, Prod.mk.injEq] at hret
        simp [← hret.1] at hok
    | some cur =>
        have hlt := circFind_lt hhint hfind
        have hreq : requested ≠ 0 := fun hzero => hvalid (.inl hzero)
        have hpos := seqWindow_pos hlt (by omega) (circFind_sound hfind)
          (Nat.pos_of_ne_zero hreq) requested
        have hle := seqWindow_le s cur requested requested le_rfl
        obtain ⟨res, s', hrange, hcases⟩ := pmmReserveRange_cases s
          (BitVec.ofNat 32 (frameAddr cur))
          (BitVec.ofNat 32 (frameAddr (seqWindow s cur requested requested))) true
        simp only [hfind, hrange, bind_eq_ok, Except.ok.injEq, exists_eq_left'] at hret
        generalize hwindow : seqWindow s cur requested requested = n at *
        split at hret
        · rw [Except.ok.injEq, Prod.mk.injEq] at hret
          simp [← hret.1] at hok
        · rename_i hres
          cases clear with
          | false =>
              simp only [Bool.false_eq_true, if_false, bind_eq_ok, Except.ok.injEq,
                exists_eq_left', Prod.mk.injEq] at hret
              obtain ⟨rfl, rfl⟩ := hret
              exact ⟨cur, n, res, s', rfl, hwindow.symm, hpos, hle, by tauto, hcases, rfl, rfl, _,
                rfl, rfl⟩
          | true =>
              obtain ⟨u, hclear, hret⟩ := bind_eq_ok.mp hret
              rw [Except.ok.injEq, Prod.mk.injEq] at hret
              obtain ⟨rfl, rfl⟩ := hret
              exact ⟨cur, n, res, s', rfl, hwindow.symm, hpos, hle, by tauto, hcases, rfl, rfl, _,
                clearFrames_eq hclear, rfl⟩

/-! ## Reservations at start-up -/

/-- Marking a window changes no field but the hint, the counter, and memory. -/
theorem takeWindow_config (s : State) (cur n : Nat) :
    (s.takeWindow cur n).pagebitmapPhys = s.pagebitmapPhys ∧
      (s.takeWindow cur n).pagebitmapSizeBytes = s.pagebitmapSizeBytes ∧
      (s.takeWindow cur n).frameCount = s.frameCount ∧
      (s.takeWindow cur n).memRegions = s.memRegions := by
  have hconf := foldl_bmSet_config (windowFrames cur n) s
  exact ⟨hconf.phys, hconf.size, hconf.count, hconf.regions⟩

theorem bit_applyInit {r : MemRegion} {init : Bool} {f : Nat} (hf : f < s.frameCount)
    (h : (applyInit s r init).bit f = true) :
    s.bit f = true ∨ ∃ a, 4096 * f ≤ a ∧ a < 4096 * f + 4096 ∧ r.base.toNat ≤ a ∧ a < r.last := by
  unfold applyInit pmmInitSingle at h
  split at h
  · split at h
    · exact .inl h
    · split at h
      · rw [bit_bmSetRangeTouched _ _ _ _ hf, Bool.or_eq_true, decide_eq_true_eq] at h
        rcases h with ⟨hlen, h1, h2⟩ | hbit
        · unfold MemRegion.last
          exact .inr ⟨max r.base.toNat (4096 * f), by omega, by omega, by omega, by omega⟩
        · exact .inl hbit
      · exact .inl h
  · exact .inl h

/-- A reservation marks no frame that is neither reserved already nor in the new range. -/
theorem ReserveCases.bit_sub {s' : State} {base length : BitVec 32} {init : Bool}
    {res : ReserveResult} (hs : s.Inv) (h : ReserveCases s base length init res s') {f : Nat}
    (hf : f < s.frameCount) (hbit : s'.bit f = true) :
    s.bit f = true ∨ ∃ a, 4096 * f ≤ a ∧ a < 4096 * f + 4096 ∧
      base.toNat ≤ a ∧ a < base.toNat + length.toNat := by
  cases h with
  | invalid | full => exact .inl hbit
  | appended => exact bit_applyInit (by exact hf) hbit
  | @merged m p hlen hp hdone =>
      have hbit' : (applyInit { s with memRegions := m.regions.set p m.entry } m.entry init).bit f =
        true := hbit
      rcases bit_applyInit (by exact hf) hbit' with hbit | ⟨a, h1, h2, h3, h4⟩
      · exact .inl hbit
      · obtain ⟨h5, h6⟩ := hdone.entry_sub base.isLt h3 h4
        rcases hdone.span a h5 h6 with hnew | hold
        · exact .inr ⟨a, h1, h2, hnew⟩
        · exact .inl (hs.reserved_set f hf ⟨a, h1, h2, hold⟩)

/-- The invariant while frames are reserved at start-up and none is freed: the hint lies below
every free frame, and no free frame lies below the end of the bitmap. -/
structure BootInv (s : State) : Prop extends State.Inv s where
  sweep : ∀ f, f < s.frameCount → s.bit f = false → s.frameHint ≤ f
  low : ∀ f, f < s.frameCount → 4096 * f < s.pagebitmapPhys + s.pagebitmapSizeBytes →
    s.bit f = true
  bounded : Bounded s.memRegions

/-- Writes outside the bitmap keep the start-up invariant. -/
theorem BootInv.withMem (h : BootInv s) {mem : Memory}
    (hmem : ∀ a, s.pagebitmapPhys ≤ a → a < s.pagebitmapPhys + (s.frameCount + 7) / 8 →
      mem a = s.mem a) : BootInv { s with mem := mem } where
  toInv := h.toInv.withMem hmem
  sweep f hf hbit := h.sweep f hf (bit_withMem s hmem hf ▸ hbit)
  low f hf hlow := (bit_withMem s hmem hf).trans (h.low f hf hlow)
  bounded := h.bounded

/-- What a successful round at start-up does: it reserves a window of `n` frames behind the bitmap
and leaves everything that was covered covered. -/
structure Reserved (s t : State) (r : SeqResult) (n : Nat) : Prop where
  phys : t.pagebitmapPhys = s.pagebitmapPhys
  size : t.pagebitmapSizeBytes = s.pagebitmapSizeBytes
  count : t.frameCount = s.frameCount
  outCount : r.outCount = some n
  length : r.outReserved.length = n
  behind : ∀ addr ∈ r.outReserved, s.pagebitmapPhys + s.pagebitmapSizeBytes ≤ addr
  covered : ∀ a, Covered s.memRegions a → Covered t.memRegions a
  reserved : ∀ addr ∈ r.outReserved, Covered t.memRegions addr
  clear : clearCount s.bit s.frameCount ≤ clearCount t.bit t.frameCount + n
  window : ∃ cur, cur + n < s.frameCount ∧ s.frameHint ≤ cur ∧ t.frameHint = cur + n ∧
    r.outReserved = (windowFrames cur n).map frameAddr ∧
    ∀ f, f < s.frameCount → t.bit f = (decide (f ∈ windowFrames cur n) || s.bit f)
  mem : ∀ a, a < s.pagebitmapPhys ∨ s.pagebitmapPhys + s.pagebitmapSizeBytes ≤ a →
    (∀ addr ∈ r.outReserved, a < addr ∨ addr + 4096 ≤ a) → t.mem a = s.mem a

/-- The scan starts below every free frame, so it finds the lowest one. -/
theorem BootInv.least (h : BootInv s) {cur : Nat}
    (hfind : circFind s.frameCount s.reserveTest s.frameCount s.frameHint = some cur) :
    ∀ f, f < s.frameCount → s.bit f = false → cur ≤ f := by
  intro f hf hbit
  refine circFind_le (fun i hi htest => ?_) hfind f hf ?_
  · exact h.sweep i hi ((reserveTest_iff h.toInv hi).mp htest).2
  · exact (reserveTest_iff h.toInv hf).mpr ⟨h.not_reserved hf hbit, hbit⟩

/-- Reserving and marking a window sets exactly the bits of the window. -/
theorem ReserveCases.bit_takeWindow {s' : State} {cur n : Nat} {length : BitVec 32}
    {res : ReserveResult} (hs : s.Inv)
    (h : ReserveCases s (BitVec.ofNat 32 (frameAddr cur)) length true res s')
    (hlen : length.toNat = 4096 * n) (hwin : cur + n < s.frameCount) {f : Nat}
    (hf : f < s.frameCount) :
    (s'.takeWindow cur n).bit f = (decide (f ∈ windowFrames cur n) || s.bit f) := by
  have hcount := hs.count_le
  have hbase := hs.toNat_frameAddr (show cur < s.frameCount by omega)
  change ((windowFrames cur n).foldl bmSet s').bit f = _
  rw [bit_foldl_bmSet]
  by_cases hin : f ∈ windowFrames cur n
  · simp [hin]
  · simp only [hin, decide_false, Bool.false_or]
    cases hold : s.bit f with
    | true => exact h.grows.bit f hf hold
    | false =>
        by_contra hset
        rcases h.bit_sub hs hf (by simpa using hset) with hbit | ⟨a, h1, h2, h3, h4⟩
        · simp [hbit] at hold
        · exact hin ((mem_windowFrames (by omega)).mpr ⟨by omega, by omega⟩)

/-- Zeroing a window behind the bitmap leaves the bitmap alone. -/
theorem fillWindow_bitmap {cur n a : Nat} {mem : Memory} (hcount : cur + n ≤ 2 ^ 20)
    (ha : a < 4096 * cur) :
    (((windowFrames cur n).map frameAddr).foldl (fun mem addr => mem.fillBytes addr 4096 0) mem) a =
      mem a := by
  refine foldl_fillBytes_apply_ne _ fun addr haddr => ?_
  obtain ⟨f, hf, rfl⟩ := List.mem_map.mp haddr
  have hf' := (mem_windowFrames (by omega)).mp hf
  rw [frameAddr_of_lt (by omega)]
  omega

/-- One round of the reservation loop of `paging_init_identity_window`, with more frames free than
are requested. -/
theorem BootInv.seq {t : State} {requested : Nat} {r : SeqResult} (h : BootInv s)
    (hroom : requested < clearCount s.bit s.frameCount)
    (hret : pmmReservePageframeSeq s requested true true true = .ok (r, t))
    (hok : r.status = .ok) :
    BootInv t ∧ ∃ n, 0 < n ∧ n ≤ requested ∧ Reserved s t r n := by
  obtain ⟨cur, n, res, s', hfind, -, hpos, hle, hres, hcases, hout, haddrs, mem, ht, hmem⟩ :=
    pmmReservePageframeSeq_ok h.hint_lt h.count_le hret hok
  have hcount := h.count_le
  have hsizeEq := h.size_eq
  have hcur := circFind_lt h.hint_lt hfind
  have hleast := h.least hfind
  obtain ⟨-, hfree⟩ := (reserveTest_iff h.toInv hcur).mp (circFind_sound hfind)
  -- a window that reached the end of memory would hold every free frame
  have hwin : cur + n < s.frameCount := by
    have := clearCount_le_sub hleast
    omega
  have hbehind : s.pagebitmapPhys + s.pagebitmapSizeBytes ≤ 4096 * cur := by
    by_contra hlow
    simp [h.low cur hcur (by omega)] at hfree
  have hmemw : ∀ f, f ∈ windowFrames cur n ↔ cur ≤ f ∧ f < cur + n :=
    fun f => mem_windowFrames (by omega)
  have hbase := h.toNat_frameAddr hcur
  have hlen : (BitVec.ofNat 32 (frameAddr n)).toNat = 4096 * n := h.toNat_frameAddr (by omega)
  have hgrow := hcases.grows
  obtain ⟨hphys, hsize, hcnt, hregions⟩ := takeWindow_config s' cur n
  rw [hgrow.phys] at hphys
  rw [hgrow.size] at hsize
  rw [hgrow.count] at hcnt
  have hhint : (s'.takeWindow cur n).frameHint = cur + n := by
    change (cur + n) % 2 ^ 32 % s'.frameCount = cur + n
    have hmod : (cur + n) % 2 ^ 32 = cur + n := Nat.mod_eq_of_lt (by omega)
    rw [hmod, hgrow.count, Nat.mod_eq_of_lt hwin]
  have hinv : (s'.takeWindow cur n).Inv :=
    hcases.marked_inv h.toInv hcur hlen hmemw hwin.le (hhint.trans_lt hwin)
  have hsame : ∀ a, (s'.takeWindow cur n).pagebitmapPhys ≤ a →
      a < (s'.takeWindow cur n).pagebitmapPhys + ((s'.takeWindow cur n).frameCount + 7) / 8 →
      mem a = (s'.takeWindow cur n).mem a := by
    intro a h1 h2
    rw [hmem, if_pos rfl]
    exact fillWindow_bitmap (by omega) (by omega)
  have hbit : ∀ f, f < s.frameCount → t.bit f = (decide (f ∈ windowFrames cur n) || s.bit f) := by
    intro f hf
    rw [ht, bit_withMem _ hsame (by omega), hcases.bit_takeWindow h.toInv hlen hwin hf]
  have hclear := clearCount_le_add hbit
  rw [length_windowFrames] at hclear
  -- a frame that is still free gives an address that nothing covers
  have hspare : Spare s.memRegions (BitVec.ofNat 32 (frameAddr cur)).toNat
      ((BitVec.ofNat 32 (frameAddr cur)).toNat + (BitVec.ofNat 32 (frameAddr n)).toNat) := by
    obtain ⟨f, hf, hf'⟩ :=
      exists_clear_of_pos (show 0 < clearCount t.bit s.frameCount by omega)
    rw [hbit f hf, Bool.or_eq_false_iff, decide_eq_false_iff_not, hmemw] at hf'
    refine ⟨4096 * f, by omega, fun hcov => ?_, by omega⟩
    exact h.not_reserved hf hf'.2 ⟨4096 * f, le_rfl, by omega, hcov⟩
  obtain ⟨hbounded, hcov⟩ := hcases.covered_iff hres h.bounded (by omega) hspare
  have htcnt : t.frameCount = s.frameCount := ht ▸ hcnt
  have htphys : t.pagebitmapPhys = s.pagebitmapPhys := ht ▸ hphys
  have htsize : t.pagebitmapSizeBytes = s.pagebitmapSizeBytes := ht ▸ hsize
  have htregions : t.memRegions = s'.memRegions := ht ▸ hregions
  have hthint : t.frameHint = cur + n := ht ▸ hhint
  refine ⟨⟨ht ▸ hinv.withMem hsame, ?_, ?_, htregions ▸ hbounded⟩, n, hpos, hle,
    ⟨htphys, htsize, htcnt, hout, ?_, ?_, fun a ha => ?_, fun addr haddr => ?_, htcnt ▸ hclear,
      ⟨cur, hwin, h.sweep cur hcur hfree, hthint, haddrs, hbit⟩, fun a ha hout => ?_⟩⟩
  · intro f hf hfree'
    rw [htcnt] at hf
    rw [hbit f hf, Bool.or_eq_false_iff, decide_eq_false_iff_not, hmemw] at hfree'
    have hge := hleast f hf hfree'.2
    omega
  · intro f hf hlow
    rw [htcnt] at hf
    rw [hbit f hf, h.low f hf (by omega)]
    simp
  · rw [haddrs, List.length_map, length_windowFrames]
  · intro addr haddr
    rw [haddrs] at haddr
    obtain ⟨f, hf, rfl⟩ := List.mem_map.mp haddr
    have hf' := (hmemw f).mp hf
    rw [frameAddr_of_lt (by omega)]
    omega
  · rw [htregions]
    exact (hcov a).mpr (.inl ha)
  · rw [haddrs] at haddr
    obtain ⟨f, hf, rfl⟩ := List.mem_map.mp haddr
    have hf' := (hmemw f).mp hf
    rw [htregions, frameAddr_of_lt (by omega)]
    exact (hcov _).mpr (.inr (by omega))
  · rw [hsizeEq] at ha
    rw [haddrs] at hout
    have htmem : t.mem = mem := by rw [ht]
    rw [htmem, hmem, if_pos rfl, foldl_fillBytes_apply_ne _ hout, ← hgrow.mem a ha]
    refine foldl_bmSet_mem_ne fun f hf => ?_
    have hf' := (hmemw f).mp hf
    rw [hgrow.phys]
    omega

end Unidos.Pmm
