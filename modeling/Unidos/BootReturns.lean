import Unidos.Startup

/-!
# Start-up returns

The functions that `mem_init` calls can halt or fail in many places: the table of regions may be
full, the bitmap may not fit, there may be no frames for the page tables. `memInit_returns` says
that on a machine with room none of this happens.
-/

namespace Unidos.Pmm

open Lib

/-- The memory manager can still reserve `k` frames, and its bitmap is in reach of the window. -/
structure Stocked (pmm : State) (k : Nat) : Prop where
  free : k ≤ clearCount pmm.bit pmm.frameCount
  regions : pmm.memRegions.length + k ≤ memRegionsMax
  direct : pmm.usePhysWindowAlias = false
  bitmap : pmm.pagebitmapPhys < 0x30000000

variable {s : State}

theorem Stocked.le {k n : Nat} (h : Stocked s n) (hk : k ≤ n) : Stocked s k := by
  have hfree := h.free
  have hregions := h.regions
  exact ⟨by omega, by omega, h.direct, h.bitmap⟩

/-- A write that spares the bitmap. -/
theorem Stocked.withMem {k : Nat} (h : Stocked s k) {mem : Memory}
    (hmem : ∀ a, s.pagebitmapPhys ≤ a → a < s.pagebitmapPhys + (s.frameCount + 7) / 8 →
      mem a = s.mem a) : Stocked { s with mem := mem } k := by
  refine ⟨h.free.trans_eq (clearCount_congr fun f hf => ?_), h.regions, h.direct, h.bitmap⟩
  exact (bit_withMem s hmem hf).symm

/-- Before the window is in use every frame can be zeroed. -/
theorem clearFrames_returns (addrs : List Nat) (h : s.usePhysWindowAlias = false) :
    ∃ t, s.clearFrames addrs = .ok t := by
  induction addrs generalizing s with
  | nil => exact ⟨s, rfl⟩
  | cons addr addrs ih =>
      have hclear : s.clearFrame addr = .ok { s with mem := s.mem.fillBytes addr 4096 0 } := by
        rw [State.clearFrame, framePtr, h]
        rfl
      rw [State.clearFrames, hclear, ok_bind]
      exact ih h

/-- A reservation while the table of regions has a free entry. -/
theorem pmmReserveRange_succeeds (s : State) (base : BitVec 32) {length : BitVec 32} (init : Bool)
    (hlen : length ≠ 0) (hregions : s.memRegions.length < memRegionsMax) :
    ∃ res s', pmmReserveRange s base length init = .ok (res, s') ∧
      (res = .reserveSuccess ∨ res = .updatedExistingRegion) ∧
      ReserveCases s base length init res s' ∧
      s'.memRegions.length ≤ s.memRegions.length + 1 := by
  obtain ⟨res, s', hret, hcases⟩ := pmmReserveRange_cases s base length init
  refine ⟨res, s', hret, ?_⟩
  cases hcases with
  | invalid hzero => exact absurd hzero hlen
  | full _ hfull => exact absurd hfull (by omega)
  | appended hlen hroom hfar =>
      refine ⟨.inl rfl, .appended hlen hroom hfar, ?_⟩
      rw [(applyInit_config _ _ init).regions, List.length_append]
      exact Nat.le_refl _
  | @merged m p hlen hp hdone =>
      refine ⟨.inr rfl, .merged hlen hp hdone, ?_⟩
      have hfilter : (compact (applyInit { s with memRegions := m.regions.set p m.entry } m.entry
          init)).memRegions.length ≤ m.regions.length := by
        refine (List.length_filter_le _ _).trans ?_
        rw [(applyInit_config _ _ init).regions, List.length_set]
      have := hdone.length
      omega

/-- The search for a frame finds one while there is one. -/
theorem Stocked.find {k : Nat} (h : Stocked s (k + 1)) (hs : s.Inv) :
    ∃ f, circFind s.frameCount s.reserveTest s.frameCount s.frameHint = some f := by
  obtain ⟨f, hf, hclear⟩ := exists_clear_of_pos (Nat.lt_of_lt_of_le (Nat.succ_pos k) h.free)
  cases hfind : circFind s.frameCount s.reserveTest s.frameCount s.frameHint with
  | some f => exact ⟨f, rfl⟩
  | none =>
      have htest := (reserveTest_iff hs hf).mpr ⟨hs.not_reserved hf hclear, hclear⟩
      rw [circFind_round hs.hint_lt hfind hf] at htest
      cases htest

/-- A sequence is reserved while a frame is free. -/
theorem BootInv.seq_returns {k : Nat} (h : BootInv s) (requested : Nat) (hpos : 0 < requested)
    (hreq : requested < 2 ^ 20) (hstock : Stocked s (k + 1)) :
    ∃ r t, pmmReservePageframeSeq s requested true true true = .ok (r, t) ∧ r.status = .ok ∧
      t.usePhysWindowAlias = false ∧ t.memRegions.length ≤ s.memRegions.length + 1 := by
  have halias := hstock.direct
  have hregions := hstock.regions
  obtain ⟨cur, hfind⟩ := hstock.find h.toInv
  have hcur := circFind_lt h.hint_lt hfind
  have hcount := h.count_le
  obtain ⟨n, hn⟩ : ∃ n, seqWindow s cur requested requested = n := ⟨_, rfl⟩
  have hle : n ≤ requested := hn ▸ seqWindow_le s cur requested requested (Nat.le_refl _)
  have hwindow : 0 < n :=
    hn ▸ seqWindow_pos hcur (by omega) (circFind_sound hfind) hpos requested
  have hlen : BitVec.ofNat 32 (frameAddr n) ≠ 0 := by
    intro hzero
    have hval := congrArg BitVec.toNat hzero
    rw [BitVec.toNat_ofNat, frameAddr] at hval
    change n * 4096 % 2 ^ 32 % 2 ^ 32 = 0 at hval
    omega
  obtain ⟨res, s', hret, hres, hcases, hlength⟩ := pmmReserveRange_succeeds s
    (BitVec.ofNat 32 (frameAddr cur)) true hlen (by omega)
  have hconf := foldl_bmSet_config (windowFrames cur n) s'
  have halias' : (s'.takeWindow cur n).usePhysWindowAlias = false :=
    hconf.window.trans (hcases.grows.window.trans halias)
  obtain ⟨t, ht⟩ := clearFrames_returns ((windowFrames cur n).map frameAddr) halias'
  have hgood : ¬ (res ≠ .reserveSuccess ∧ res ≠ .updatedExistingRegion) := by
    rcases hres with rfl | rfl
    · exact fun hbad => hbad.1 rfl
    · exact fun hbad => hbad.2 rfl
  refine ⟨⟨.ok, some n, (windowFrames cur n).map frameAddr⟩, t, ?_, rfl, ?_, ?_⟩
  · rw [pmmReservePageframeSeq, if_neg (by simp; omega), hfind]
    dsimp only
    rw [hn, hret, ok_bind]
    dsimp only
    rw [if_neg hgood, if_pos rfl, ht, ok_bind]
  · rw [clearFrames_eq ht]
    exact halias'
  · rw [clearFrames_eq ht]
    exact (congrArg List.length hconf.regions).trans_le hlength

end Unidos.Pmm

namespace Unidos.Paging

open Lib

/-- The frames for the tables are found while there is room. -/
theorem reserveFrames_returns {fuel remaining k : Nat} {pmm : Pmm.State} (h : Pmm.BootInv pmm)
    (hfuel : remaining ≤ fuel) (hstock : Pmm.Stocked pmm (remaining + (k + 1))) :
    ∃ frames pmm', reserveFrames fuel remaining pmm = .ok (some frames, pmm') ∧
      Pmm.Stocked pmm' (k + 1) := by
  induction fuel generalizing remaining pmm with
  | zero =>
      obtain rfl : remaining = 0 := by omega
      exact ⟨[], pmm, rfl, hstock.le (by omega)⟩
  | succ fuel ih =>
      cases remaining with
      | zero => exact ⟨[], pmm, rfl, hstock.le (by omega)⟩
      | succ remaining =>
          have hmax : Pmm.memRegionsMax = 256 := rfl
          have hregions := hstock.regions
          have hfree := hstock.free
          obtain ⟨r, next, hseq, hok, halias, hlength⟩ :=
            h.seq_returns (remaining + 1) (by omega) (by omega)
              (hstock.le (show 0 + 1 ≤ remaining + 1 + (k + 1) by omega))
          obtain ⟨hinv, n, hpos, hle, hres⟩ := h.seq (by omega) hseq hok
          have hclear := hres.clear
          have hnext : Pmm.Stocked next (remaining + 1 - n + (k + 1)) :=
            ⟨by omega, by omega, halias, hres.phys ▸ hstock.bitmap⟩
          obtain ⟨rest, last, hrest, hlast⟩ := ih hinv (by omega) hnext
          have hgood : ¬ (r.status ≠ .ok ∨ r.outCount.getD 0 = 0) := by
            rw [hok, hres.outCount, Option.getD_some]
            rintro (hbad | hbad)
            · exact hbad rfl
            · omega
          refine ⟨r.outReserved ++ rest, last, ?_, hlast⟩
          rw [reserveFrames, hseq, ok_bind]
          dsimp only
          rw [if_neg hgood, hres.outCount, Option.getD_some, hrest, ok_bind]
          rfl

section Build

variable {boot : Layout} {frames : List Nat} {n w : Nat} {s : State}

theorem installHigh_returns (hpages : kernelPages boot ≤ 1024) (phys : Nat) (s : State) :
    ∃ t, installHigh boot phys s = .ok t := by
  unfold installHigh
  dsimp only
  exact ⟨_, if_neg (Nat.not_lt.mpr hpages)⟩

theorem installWindowTable_returns (frames : List Nat) (hn : n ≤ 192) (hw : w < n) (s : State) :
    ∃ t, installWindowTable frames n s w = .ok t := by
  unfold installWindowTable
  dsimp only
  refine ⟨_, if_neg ?_⟩
  rw [show physWindowBase / 2 ^ 22 = 832 by decide, show ptMax = 1024 from rfl]
  omega

theorem mapIdentityPage_returns (hf : DistinctFrames frames (2 * n + 2))
    (hne : ∀ a ∈ frames, a ≠ 0) {q : Nat} (hq : q < 1024 * n)
    (h : IdentityBuilt boot frames n q s) : ∃ t, mapIdentityPage s q = .ok t := by
  have hn := h.built.room
  have hvirt : q * 4096 % 2 ^ 32 / 2 ^ 22 % 1024 = q / 1024 := by omega
  have hloc : s.pageTablesLocPhys (q / 1024) = frames.getD (q / 1024 + 1) 0 := by
    rw [h.built.dir.table, bootSlot, if_pos (by omega)]
    rfl
  have hgood : ¬ (q * 4096 % 2 ^ 32 / 2 ^ 22 % 1024 ≥ ptMax ∨
      s.pageTablesLocPhys (q * 4096 % 2 ^ 32 / 2 ^ 22 % 1024) = 0) := by
    rw [hvirt, hloc, show ptMax = 1024 from rfl]
    rintro (hbad | hbad)
    · omega
    · exact hne _ (hf.getD_mem (by omega)) hbad
  unfold mapIdentityPage
  exact ⟨_, if_neg hgood⟩

/-- The tables are built if the window fits and the kernel fits in one table. -/
theorem buildTables_returns (hf : DistinctFrames frames (2 * n + 2)) (hn : n ≤ 192)
    (hne : ∀ a ∈ frames, a ≠ 0) (hpages : kernelPages boot ≤ 1024) :
    ∃ t, buildTables boot frames n (n * 2 ^ 22) s = .ok t := by
  have hstart : DirIs frames (fun _ => none) (State.withMem { s with
      pageDirectoryLocPhys := frames.getD 0 0
      pageTablesLocPhys := fun _ => 0
      pageTableCount := 0 } (s.pmm.mem.fillBytes (frames.getD 0 0) 4096 0)) :=
    ⟨rfl, fun i hi => (cell_fillBytes hf (by omega) (by omega) hi).trans (if_pos rfl), fun _ => rfl⟩
  obtain ⟨s₁, hhigh⟩ := installHigh_returns hpages (frames.getD (n + 1) 0)
    (installIdentity frames n _)
  obtain ⟨hbuilt, -⟩ := installHigh_built hf (by omega) (installIdentity_dir hf (by omega) hstart)
    hhigh
  obtain ⟨s₂, hwindow, hbuilt₂⟩ := foldlM_range_ok (I := WindowBuilt boot frames n)
    (f := installWindowTable frames n) (n := n) (fun p u hp hu => by
      obtain ⟨v, hv⟩ := installWindowTable_returns frames hn hp u
      exact ⟨v, hv, installWindowTable_built hf (by omega) hp hu hv⟩) hbuilt
  obtain ⟨s₃, hidentity, -⟩ := foldlM_range_ok (I := IdentityBuilt boot frames n)
    (f := mapIdentityPage) (n := 1024 * n) (fun q u hq hu => by
      obtain ⟨v, hv⟩ := mapIdentityPage_returns hf hne hq hu
      exact ⟨v, hv, mapIdentityPage_built hf hq hu hv⟩)
    ⟨hbuilt₂, fun q hq => absurd hq (Nat.not_lt_zero q)⟩
  have hcount : (n * 2 ^ 22 + 0xFFF) / 4096 % 2 ^ 32 = 1024 * n := by omega
  refine ⟨{ s₃ with cr3 := s₃.pageDirectoryLocPhys }, ?_⟩
  unfold buildTables
  dsimp only
  rw [hcount]
  refine bind_eq_ok.mpr ⟨s₁, hhigh, bind_eq_ok.mpr ⟨s₂, hwindow, ?_⟩⟩
  exact bind_eq_ok.mpr ⟨s₃, hidentity, rfl⟩

end Build

end Unidos.Paging

namespace Unidos

open Lib Pmm Paging

section MemInit

variable {boot : BootInfo}

theorem reserveRegion_returns (s : Pmm.State) (base : BitVec 32) {length : BitVec 32}
    (hlen : length ≠ 0) (hregions : s.memRegions.length < memRegionsMax) :
    ∃ t, reserveRegion s base length = .ok t ∧
      t.memRegions.length ≤ s.memRegions.length + 1 := by
  obtain ⟨res, t, hret, hres, -, hlength⟩ := pmmReserveRange_succeeds s base false hlen hregions
  refine ⟨t, ?_, hlength⟩
  rw [reserveRegion, hret, ok_bind]
  dsimp only
  refine if_neg ?_
  rcases hres with rfl | rfl
  · exact fun hbad => hbad.1 rfl
  · exact fun hbad => hbad.2 rfl

theorem foldlM_reserveRegion_returns {ranges : List (BitVec 32 × BitVec 32)}
    (hlen : ∀ r ∈ ranges, r.2 ≠ 0) (s : Pmm.State)
    (hregions : s.memRegions.length + ranges.length ≤ memRegionsMax) :
    ∃ t, ranges.foldlM (fun s r => reserveRegion s r.1 r.2) s = .ok t ∧
      t.memRegions.length ≤ s.memRegions.length + ranges.length := by
  induction ranges generalizing s with
  | nil => exact ⟨s, rfl, Nat.le_refl _⟩
  | cons r ranges ih =>
      rw [List.length_cons] at hregions
      obtain ⟨u, hu, hlength⟩ := reserveRegion_returns s r.1 (hlen r (by simp)) (by omega)
      obtain ⟨t, ht, hlength'⟩ := ih (fun r' hr' => hlen r' (by simp [hr'])) u (by omega)
      refine ⟨t, ?_, by rw [List.length_cons]; omega⟩
      rw [List.foldlM_cons]
      exact bind_eq_ok.mpr ⟨u, hu, ht⟩

theorem E820Desc.reservedRange_ne_zero {d : E820Desc} {r : BitVec 32 × BitVec 32}
    (h : d.reservedRange = some r) : r.2 ≠ 0 := by
  unfold E820Desc.reservedRange at h
  dsimp only at h
  split at h
  · cases h
  split at h
  · cases h
  split at h
  · cases h
  split at h
  · cases h
  · rename_i hlen
    obtain rfl := Option.some.inj h
    exact hlen

theorem foldlM_reserveE820_returns (descs : List E820Desc) (s : Pmm.State)
    (hregions : s.memRegions.length + (descs.filterMap E820Desc.reservedRange).length ≤
      memRegionsMax) :
    ∃ t, descs.foldlM reserveE820 s = .ok t ∧ t.memRegions.length ≤
      s.memRegions.length + (descs.filterMap E820Desc.reservedRange).length := by
  induction descs generalizing s with
  | nil => exact ⟨s, rfl, Nat.le_refl _⟩
  | cons d descs ih =>
      rw [List.foldlM_cons]
      cases hd : d.reservedRange with
      | none =>
          rw [List.filterMap_cons_none hd] at hregions ⊢
          obtain ⟨t, ht, hlength⟩ := ih s hregions
          exact ⟨t, bind_eq_ok.mpr ⟨s, by rw [reserveE820, hd], ht⟩, hlength⟩
      | some r =>
          rw [List.filterMap_cons_some hd, List.length_cons] at hregions ⊢
          obtain ⟨u, hu, hlength⟩ :=
            reserveRegion_returns s r.1 (E820Desc.reservedRange_ne_zero hd) (by omega)
          obtain ⟨t, ht, hlength'⟩ := ih u (by omega)
          refine ⟨t, bind_eq_ok.mpr ⟨u, ?_, ht⟩, by omega⟩
          rw [reserveE820, hd]
          exact (if_neg (by omega)).trans hu

/-- The bitmap fits in front of a usable frame. -/
theorem pmmInit_returns {f : Nat} (hf : boot.Usable f) (regions : List MemRegion) (hint : Nat) :
    ∃ pmm, pmmInit boot.toBootParams regions hint = .ok pmm := by
  obtain ⟨hlt, hbehind, -⟩ := hf
  unfold pmmInit
  dsimp only
  refine ⟨_, if_neg ?_⟩
  have hsize : (boot.toBootParams.allSet regions hint).pagebitmapSizeBytes =
      (boot.topBytes / 4096 + 7) / 8 := rfl
  rw [hsize]
  unfold BootInfo.bitmapEnd at hbehind
  omega

/-- The page tables of start-up, for a memory manager with room. -/
theorem pagingInit_returns {k : Nat} {pmm : Pmm.State} (hstarted : Started boot pmm)
    (hstock : Stocked pmm (neededFramesOf boot.windowBytes + (k + 1)))
    (hpages : kernelPages boot.toLayout ≤ 1024) :
    ∃ pd s, pagingInitIdentityWindow boot.toLayout (noTables pmm) 0 = .ok (.ok, pd, s) ∧
      Stocked s.pmm (k + 1) := by
  obtain ⟨n, hn⟩ : ∃ n, boot.windowBytes = n * 2 ^ 22 := ⟨_, rfl⟩
  have hle : n ≤ 1024 := by
    rw [BootInfo.windowBytes, identityBytesOf, if_pos rfl] at hn
    omega
  have hpts : neededPtsOf boot.windowBytes = n := by
    rw [hn, neededPtsOf, if_neg (by omega)]
    omega
  have htotal : neededFramesOf boot.windowBytes = 2 * n + 2 := by
    rw [neededFramesOf, hpts]
    omega
  have hmax : memRegionsMax = 256 := rfl
  rw [htotal] at hstock
  have hregions := hstock.regions
  have hfree := hstock.free
  obtain ⟨frames, pmm', hreserve, hstock'⟩ :=
    reserveFrames_returns hstarted.inv (Nat.le_refl (2 * n + 2)) hstock
  have hspec := reserveFrames_spec hstarted.inv (by omega) hreserve
  obtain ⟨hlen, haligned⟩ := reserveFrames_length hreserve
  have hf : DistinctFrames frames (2 * n + 2) :=
    ⟨hlen, haligned, hspec.increasing.imp fun hlt => Nat.ne_of_lt hlt⟩
  have hne : ∀ a ∈ frames, a ≠ 0 := by
    intro a ha
    have := hspec.behind a ha
    have := hstarted.inv.phys_ne
    omega
  obtain ⟨t, ht⟩ := buildTables_returns (s := { noTables pmm with pmm := pmm' }) hf (by omega) hne
    hpages
  -- the tables lie behind the bitmap
  obtain ⟨mem, hmem, hkeep⟩ := (buildTables_fillsOnly hle hlen.ge ht).below hspec.behind
  have hsize := hspec.inv.size_eq
  refine ⟨t.pageDirectoryLocPhys, t, ?_, ?_⟩
  · have hptMax : ptMax = 1024 := rfl
    rw [hn] at htotal hpts
    unfold pagingInitIdentityWindow
    rw [if_neg (by decide)]
    dsimp only
    rw [show identityBytesOf boot.toLayout 0 = n * 2 ^ 22 from hn, htotal, hpts, if_neg (by omega)]
    refine bind_eq_ok.mpr ⟨(some frames, pmm'), hreserve, ?_⟩
    dsimp only
    rw [ht]
  · rw [hmem]
    refine hstock'.withMem fun a _ ha => hkeep a ?_
    rw [← hspec.phys, ← hspec.size, hsize]
    exact ha

/-- There are more usable frames than the page tables of start-up need, by `k`. -/
def BootInfo.RoomFor (boot : BootInfo) (k : Nat) : Prop :=
  ∃ fs : List Nat, fs.Nodup ∧ (∀ f ∈ fs, boot.Usable f) ∧
    neededFramesOf boot.windowBytes + k ≤ fs.length

theorem BootInfo.RoomFor.roomy {k : Nat} (h : boot.RoomFor (k + 1)) : boot.Roomy := by
  obtain ⟨fs, hnodup, husable, hlen⟩ := h
  refine ⟨fs, hnodup, husable, ?_⟩
  change neededFramesOf boot.windowBytes < fs.length
  omega

/-- **Start-up returns** on a machine with room for the page tables, if the ranges to reserve and
the tables fit in the table of regions, and the kernel in one page table. -/
theorem memInit_returns {k : Nat} (hvalid : boot.bootinfoValidated = true)
    (hkernel : boot.kernelPhysAddress.toNat = 0x100000) (himage : 0x100000 < boot.kernelEnd.toNat)
    (hroom : boot.RoomFor (k + 1))
    (hregions : boot.ranges.length + (neededFramesOf boot.windowBytes + (k + 1)) ≤ memRegionsMax)
    (hpages : kernelPages boot.toLayout ≤ 1024) (hbitmap : boot.bitmapLoc < 0x30000000) :
    ∃ s, memInit boot = .ok s ∧ Stocked s.pmm (k + 1) := by
  obtain ⟨b, hb, hspare⟩ := hroom.roomy.spare
  have hranges : boot.ranges.length = boot.fixedRanges.length +
      ((if boot.memoryMethod = .useE820 then boot.e820Descs else []).filterMap
        E820Desc.reservedRange).length := List.length_append
  have hlen : ∀ r ∈ boot.fixedRanges, r.2 ≠ 0 := by
    have himage' : boot.kernelEnd - boot.kernelPhysAddress ≠ 0 := by
      intro hzero
      have := congrArg BitVec.toNat hzero
      rw [BitVec.toNat_sub] at this
      change _ = 0 at this
      omega
    simpa [BootInfo.fixedRanges, stage2ReservedSectors] using himage'
  obtain ⟨s₁, hfixed, hlength₁⟩ := foldlM_reserveRegion_returns hlen boot.cold (by
    change 0 + boot.fixedRanges.length ≤ _
    omega)
  change s₁.memRegions.length ≤ 0 + boot.fixedRanges.length at hlength₁
  obtain ⟨s₂, he820, hlength₂⟩ := foldlM_reserveE820_returns
    (if boot.memoryMethod = .useE820 then boot.e820Descs else []) s₁ (by omega)
  obtain ⟨fs, hnodup, husable, hfs⟩ := hroom
  obtain ⟨f, hf⟩ := List.exists_mem_of_length_pos (show 0 < fs.length by omega)
  obtain ⟨pmm, hpmm⟩ := pmmInit_returns (husable f hf) s₂.memRegions 0x100
  obtain ⟨hstarted, hclear⟩ := started_of_pmmInit hkernel himage hb hspare hfixed he820 hpmm
  have hspec := pmmInit_spec hpmm
  have hstock : Stocked pmm (neededFramesOf boot.windowBytes + (k + 1)) :=
    ⟨hfs.trans (length_le_clearCount hnodup fun f hf => (hclear f).mp (husable f hf)),
      by rw [hspec.regions]; omega, hspec.window, by rw [hspec.phys]; exact hbitmap⟩
  obtain ⟨pd, s, hpaging, hstock'⟩ := pagingInit_returns hstarted hstock hpages
  refine ⟨s, ?_, hstock'⟩
  rw [memInit, if_neg (by simp [hvalid])]
  refine bind_eq_ok.mpr ⟨s₁, hfixed, bind_eq_ok.mpr ⟨s₂, he820, bind_eq_ok.mpr ⟨pmm, hpmm, ?_⟩⟩⟩
  exact bind_eq_ok.mpr ⟨(.ok, pd, s), hpaging, rfl⟩

end MemInit

end Unidos
