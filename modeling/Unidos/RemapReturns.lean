import Unidos.KernelLayout

/-!
# The move to the high half returns

`kernel_highhalf_remap` halts when a frame, a region or a mapping is missing.
`kernelHighhalfRemap_returns` says that none is missing once the first page of the stack is mapped
and frames for the others are left, and `Booted.remap_returns` that this is so after start-up on
blank memory. `remap_leaves_low_page` is such a machine, and a page of the low identity map is left
on it.
-/

namespace Unidos

open Lib Pmm Paging Dpage

variable {s t u v : Paging.State} {virt k : Nat}

/-- A frame is reserved. -/
theorem Pmm.Stocked.reserve {pmm : Pmm.State} (h : Stocked pmm (k + 1)) (hs : pmm.Sound) :
    ∃ f pmm', pmmReservePageframe pmm true true = .ok (.ok, some (4096 * f), pmm') ∧
      Secured pmm f pmm' ∧ Stocked pmm' k := by
  obtain ⟨f, hfind⟩ := h.find hs.toInv
  have hregions := h.regions
  obtain ⟨res, s', hrange, hres, hcases, hlength⟩ := pmmReserveRange_succeeds pmm
    (BitVec.ofNat 32 (frameAddr f)) true (show 4096#32 ≠ 0 by decide) (by omega)
  have hgood : ¬ (res ≠ .reserveSuccess ∧ res ≠ .updatedExistingRegion) := by
    rcases hres with rfl | rfl
    · exact fun hbad => hbad.1 rfl
    · exact fun hbad => hbad.2 rfl
  have hdirect : (s'.take f).usePhysWindowAlias = false := hcases.grows.window.trans h.direct
  obtain ⟨pmm', hret, hlength', hdirect'⟩ : ∃ pmm',
      pmmReservePageframe pmm true true = .ok (.ok, some (frameAddr f), pmm') ∧
      pmm'.memRegions.length ≤ pmm.memRegions.length + 1 ∧ pmm'.usePhysWindowAlias = false := by
    refine ⟨{ s'.take f with mem := (s'.take f).mem.fillBytes (frameAddr f) 4096 0 }, ?_, hlength,
      hdirect⟩
    rw [pmmReservePageframe, if_neg (by simp), hfind]
    dsimp only
    rw [hrange, ok_bind]
    dsimp only
    rw [if_neg hgood, if_pos rfl, State.clearFrame, framePtr, hdirect]
    rfl
  obtain ⟨hbad, -⟩ | ⟨f', -, haddr, hsecured⟩ := reservePageframe_spec hs hret
  · exact absurd rfl hbad
  rw [haddr] at hret
  have hset : ∀ g, g < pmm.frameCount → pmm'.bit g = (decide (g ∈ [f']) || pmm.bit g) := by
    intro g hg
    rw [hsecured.set g hg]
    simp only [List.mem_singleton]
  have hcount := clearCount_le_add hset
  have hfree := h.free
  rw [List.length_singleton] at hcount
  refine ⟨f', pmm', hret, hsecured, ?_, by omega, hdirect', ?_⟩
  · rw [hsecured.count]
    omega
  · rw [hsecured.phys]
    exact h.bitmap

/-- Writes outside the bitmap leave the memory manager alone. -/
theorem Pmm.Stocked.writes {pmm : Pmm.State} (hs : pmm.Sound) (h : Stocked pmm k) {mem : Memory}
    (hmem : ∀ f, pmm.HoldsBitmap f → AgreeOn pmm.mem mem f) :
    Stocked { pmm with mem := mem } k := by
  refine ⟨?_, h.regions, h.direct, h.bitmap⟩
  exact h.free.trans_eq (clearCount_congr fun g hg => (hs.bit_withMem mem hmem hg).symm)

/-- Writing to a page table leaves the memory manager alone. -/
theorem Pmm.Stocked.setPage {i j : Nat} (h : Good u) (hi : i < 1024)
    (hpresent : entryPresent (u.dirEntry i) = true) (hj : j < 1024) (w : BitVec 32)
    (hstock : Stocked u.pmm k) : Stocked (u.setPage i j w).pmm k :=
  hstock.writes h.sound fun f hf =>
    agreeOn_setPage_of_plain hi hpresent hj w fun htable => h.table_bitmap f htable hf

/-- A page of the stack, once the page table is there. -/
theorem mapStackPage_returns {i : Nat} (h : Live u) (hi : i < stackPageSize)
    (hpresent : entryPresent (u.dirEntry 988) = true) (hstock : Stocked u.pmm (k + 1)) :
    ∃ v, mapStackPage u i = .ok v ∧ Stocked v.pmm k := by
  obtain ⟨hpage, halign, hvirt⟩ := stackPage_eq hi
  unfold mapStackPage
  dsimp only
  rw [h.mappedTo hvirt, hpage, ok_bind]
  cases hquery : u.pageMap (stackPage i) with
  | some page =>
      exact ⟨u, rfl, hstock.le (Nat.le_succ k)⟩
  | none =>
      obtain ⟨f, pmm, hres, hsecured, hstock'⟩ := hstock.reserve h.good.sound
      have hgood := secured_good h.good hsecured
      have hsame := secured_sameEntries h.good hsecured
      have hpdi := pdiOf_stack hi
      have hpresent' : entryPresent (({ u with pmm := pmm } : Paging.State).dirEntry
          (pdiOf (stackVirtualBase + 4096 * i))) = true := by
        rw [hpdi, hsame.dirEntry (by decide)]
        exact hpresent
      have habsent : ¬ entryPresent (({ u with pmm := pmm } : Paging.State).pageEntry
          (pdiOf (stackVirtualBase + 4096 * i)) (ptiOf (stackVirtualBase + 4096 * i))) = true := by
        have hnone : ({ u with pmm := pmm } : Paging.State).pageMap
            ((stackVirtualBase + 4096 * i) / 4096) = none := by
          rw [secured_pageMap h.good hsecured, hpage, hquery]
        rw [pageMap_of_present hvirt hpresent', Option.map_eq_none_iff,
          Option.guard_eq_none_iff] at hnone
        simp [hnone]
      have haligned : ¬ ((stackVirtualBase + 4096 * i) % 4096 ≠ 0 ∨ 4096 * f % 4096 ≠ 0) := by
        omega
      have hmap := pagingMapPage_present hgood.wired hgood.reach hpresent' (pgPresent ||| pgRw)
        haligned
      rw [flagError_stack, Option.elim_none, if_neg fun hbad => hbad.1 (by decide),
        if_neg habsent] at hmap
      refine ⟨_, ?_, hstock'.setPage hgood (pdiOf_lt _) hpresent'
        (ptiOf_lt (stackVirtualBase + 4096 * i))
        (mkEntry (4096 * f) (storedFlags (pgPresent ||| pgRw)))⟩
      change (pmmReservePageframe u.pmm true true >>= _) = _
      rw [hres, ok_bind]
      dsimp only
      rw [if_neg (by simp), Option.getD_some, hmap, ok_bind]
      rfl

/-- An allocation leaves one frame less. -/
theorem Pmm.Stocked.took {pmm pmm' : Pmm.State} {f : Nat} (h : Stocked pmm (k + 1))
    (htook : Took pmm f pmm') : Stocked pmm' k := by
  have hset : ∀ g, g < pmm.frameCount → pmm'.bit g = (decide (g ∈ [f]) || pmm.bit g) := by
    intro g _
    rw [htook.set g]
    simp only [List.mem_singleton]
  have hcount := clearCount_le_add hset
  have hfree := h.free
  have hregions := h.regions
  rw [List.length_singleton] at hcount
  refine ⟨?_, ?_, htook.bits.window.trans h.direct, htook.bits.phys.trans_lt h.bitmap⟩
  · rw [htook.bits.count]
    omega
  · rw [htook.bits.regions]
    omega

/-- The first page of the stack, which may need a page table. -/
theorem mapStackFirst_returns (h : Live s) (hnone : s.pageMap (stackPage 0) = none)
    (hblank : StackTableBlank s) (hstock : Stocked s.pmm (k + 2)) :
    ∃ v, mapStackPage s 0 = .ok v ∧ Stocked v.pmm k := by
  cases hpresent : entryPresent (s.dirEntry 988) with
  | true => exact mapStackPage_returns h (by decide) hpresent (hstock.le (Nat.le_succ _))
  | false =>
      obtain ⟨f, pmm, hres, hsecured, hstock'⟩ := hstock.reserve h.good.sound
      have hgood := secured_good h.good hsecured
      have hsame := secured_sameEntries h.good hsecured
      have hneeds : NeedsTable { s with pmm := pmm } stackVirtualBase (4096 * f)
          (pgPresent ||| pgRw) := by
        have hsvb : stackVirtualBase % 4096 = 0 := by decide
        refine ⟨h.good.reach.dir_ne, by omega, flagError_stack 0, ?_⟩
        rw [show pdiOf stackVirtualBase = 988 from rfl, hsame.dirEntry (by decide)]
        exact hpresent
      obtain ⟨hcount, g, pmm', hget, hne, hlt, hwords⟩ := hblank f pmm hres hneeds
      have htook := took_of_getNext hgood.sound hget
      have hmap := pagingMapPage_withTable hgood.dirSafe hneeds hcount hget
      rw [mapInTable_withTable hgood.dirSafe htook hne hlt,
        if_neg (by rw [hwords _ (ptiOf_lt _)]; decide)] at hmap
      have hbitmap : ∀ f', pmm'.HoldsBitmap f' → AgreeOn pmm'.mem (setEntry (setEntry pmm'.mem
          ({ s with pmm := pmm } : Paging.State).dirFrame (pdiOf stackVirtualBase)
          (newTableEntry g (pgPresent ||| pgRw))) g (ptiOf stackVirtualBase)
          (mkEntry (4096 * f) (storedFlags (pgPresent ||| pgRw)))) f' := by
        intro f' hf'
        have hold := (htook.bits.holdsBitmap f').mp hf'
        have hdir : f' ≠ ({ s with pmm := pmm } : Paging.State).dirFrame := by
          rintro rfl
          exact hgood.dirSafe.dir_bitmap hold
        have htable : f' ≠ g := by
          rintro rfl
          have hset := hgood.sound.bitmap_set f' htook.lt hold
          rw [htook.free] at hset
          cases hset
        exact (agreeOn_setEntry _ _ (pdiOf_lt _) hdir).trans
          (agreeOn_setEntry _ _ (ptiOf_lt _) htable)
      have hstock'' := (hstock'.took htook).writes htook.sound hbitmap
      rw [← withTable_mem hgood.dirSafe] at hstock''
      obtain ⟨v, hv, hleft⟩ : ∃ v, pagingMapPage { s with pmm := pmm } stackVirtualBase (4096 * f)
          (pgPresent ||| pgRw) = .ok (.ok, v) ∧ Stocked v.pmm k := ⟨_, hmap, hstock''⟩
      refine ⟨v, ?_, hleft⟩
      unfold mapStackPage
      dsimp only
      rw [Nat.mul_zero, Nat.add_zero, h.mappedTo (by decide),
        show stackVirtualBase / 4096 = stackPage 0 from rfl, hnone, ok_bind]
      change (pmmReservePageframe s.pmm true true >>= _) = _
      rw [hres, ok_bind]
      dsimp only
      rw [if_neg (by simp), Option.getD_some, hv, ok_bind]
      rfl

/-- All pages of the stack, if the first one is mapped and frames for the others are left. -/
theorem mapStack_returns (h : Live s) (hfirst : mapStackPage s 0 = .ok v)
    (hstock : Stocked v.pmm (stackPageSize - 1)) :
    ∃ u frame, (List.range stackPageSize).foldlM mapStackPage s = .ok u ∧
      Stacked s u stackPageSize frame ∧ Stocked u.pmm 0 := by
  have hstep : ∀ i u, i < stackPageSize →
      (∃ frame, Stacked s u i frame ∧ (0 < i → Stocked u.pmm (stackPageSize - i))) →
      ∃ w, mapStackPage u i = .ok w ∧ ∃ frame, Stacked s w (i + 1) frame ∧
        (0 < i + 1 → Stocked w.pmm (stackPageSize - (i + 1))) := by
    rintro i u hi ⟨frame, hstacked, hleft⟩
    obtain ⟨w, hw, hstock'⟩ : ∃ w, mapStackPage u i = .ok w ∧
        Stocked w.pmm (stackPageSize - (i + 1)) := by
      obtain rfl | hpos := Nat.eq_zero_or_pos i
      · obtain rfl := hstacked.start rfl
        exact ⟨v, hfirst, hstock⟩
      · refine mapStackPage_returns hstacked.live hi (hstacked.present hpos) ?_
        rw [show stackPageSize - (i + 1) + 1 = stackPageSize - i by omega]
        exact hleft hpos
    obtain ⟨frame', hstacked'⟩ := mapStackPage_stacked hstacked hi hw
    exact ⟨w, hw, frame', hstacked', fun _ => hstock'⟩
  obtain ⟨u, hret, frame, hstacked, hstock⟩ := foldlM_range_ok
    (I := fun i u => ∃ frame, Stacked s u i frame ∧ (0 < i → Stocked u.pmm (stackPageSize - i)))
    hstep ⟨_, .refl h, fun hpos => absurd hpos (Nat.lt_irrefl 0)⟩
  exact ⟨u, frame, hret, hstacked, hstock (by decide)⟩

/-- Removing a page fails only if it is not there. -/
theorem pagingUnmapPage_returns (h : Live s) (hvirt : virt < 2 ^ 32) (halign : virt % 4096 = 0) :
    ∃ status phys t, pagingUnmapPage s virt = .ok (status, phys, t) ∧
      t.pmm.pagebitmapPhys = s.pmm.pagebitmapPhys ∧
      (status = .ok ∨ status = .errNotMapped ∧ s.pageMap (virt / 4096) = none) := by
  cases hpresent : entryPresent (s.dirEntry (pdiOf virt)) with
  | true =>
      rw [pagingUnmapPage_present h.good.wired h.good.reach hpresent (by omega)]
      by_cases hentry : entryPresent (s.pageEntry (pdiOf virt) (ptiOf virt)) = false
      · refine ⟨_, _, _, if_pos hentry, rfl, .inr ⟨rfl, ?_⟩⟩
        rw [pageMap_of_present hvirt hpresent, Option.map_eq_none_iff, Option.guard_eq_none_iff]
        exact hentry
      · exact ⟨_, _, _, if_neg hentry, rfl, .inl rfl⟩
  | false =>
      refine ⟨.errNotMapped, 0, s, ?_, rfl, .inr ⟨rfl, ?_⟩⟩
      · rw [pagingUnmapPage, if_neg h.good.reach.dir_ne, if_neg (by omega), pdiOf_def,
          physToVirt_of_lt h.good.reach.dir_lt, ok_bind, h.good.wired.readWord_dir, if_pos hpresent]
      · rw [pageMap_apply hvirt, translate_of_absent hpresent]
        rfl

theorem unmapGuardPage_returns (h : Live s) :
    ∃ t, unmapGuardPage s = .ok t ∧ t.pmm.pagebitmapPhys = s.pmm.pagebitmapPhys := by
  have hvirt : stackVirtualBase - 4096 < 2 ^ 32 := by decide
  have hpage : (stackVirtualBase - 4096) / 4096 = guardPage := by decide
  unfold unmapGuardPage
  dsimp only
  rw [h.mappedTo hvirt, hpage, ok_bind]
  cases hquery : s.pageMap guardPage with
  | none => exact ⟨s, rfl, rfl⟩
  | some page =>
      obtain ⟨status, phys, t, hret, hbitmap, hstatus⟩ :=
        pagingUnmapPage_returns h hvirt (by decide)
      obtain rfl | ⟨-, hnone⟩ := hstatus
      · refine ⟨t, ?_, hbitmap⟩
        change (pagingUnmapPage s (stackVirtualBase - 4096) >>= _) = _
        rw [hret, ok_bind]
        rfl
      · rw [hpage, hquery] at hnone
        cases hnone

theorem unmapLow_returns {n : Nat} (h : Live s) (hn : 0x100000 + 4096 * n ≤ 2 ^ 32) :
    ∃ t, (List.range n).foldlM unmapLowPage s = .ok t := by
  have hstep : ∀ i u, i < n → Live u → ∃ v, unmapLowPage u i = .ok v ∧ Live v := by
    intro i u hi hu
    have halign : (0x100000 + 4096 * i) % 4096 = 0 := by omega
    obtain ⟨status, phys, v, hret, -, hstatus⟩ := pagingUnmapPage_returns hu (by omega) halign
    refine ⟨v, ?_, (pagingUnmapPage_cleared hu (by omega) halign hret).live⟩
    unfold unmapLowPage
    rw [hret, ok_bind]
    obtain rfl | ⟨rfl, -⟩ := hstatus
    · rfl
    · rfl
  obtain ⟨t, ht, -⟩ := foldlM_range_ok (I := fun _ u => Live u) hstep h
  exact ⟨t, ht⟩

theorem probeAbsent_returns (h : Live s) (hvirt : virt < 2 ^ 32)
    (hnone : s.pageMap (virt / 4096) = none) : probeAbsent s virt = .ok () := by
  rw [probeAbsent, h.mappedTo hvirt, hnone, ok_bind]
  rfl

theorem verifyKernelPages_returns {layout : Layout} (h : Live s)
    (himage : ∀ i, i < kernelPages layout →
      (s.pageMap (kernelVirtualBase / 4096 + i)).map (fun page => 4096 * page.frame) =
        some ((kernelPhysStart layout + 4096 * i) % 2 ^ 32))
    (hpages : kernelPages layout ≤ 1024) :
    (List.range (kernelPages layout)).foldlM (verifyKernelPage layout) s = .ok s := by
  have hkvb : kernelVirtualBase = 0xC0000000 := rfl
  have hstep : ∀ i, i < kernelPages layout → verifyKernelPage layout s i = .ok s := by
    intro i hi
    have hvirt : (kernelVirtualBase + 4096 * i) % 2 ^ 32 / 4096 = kernelVirtualBase / 4096 + i := by
      omega
    unfold verifyKernelPage
    dsimp only
    rw [h.mappedTo (Nat.mod_lt _ (by decide)), hvirt, himage i hi, ok_bind]
    exact if_neg (by simp)
  obtain ⟨t, ht, rfl⟩ := foldlM_range_ok (I := fun _ u => u = s) (f := verifyKernelPage layout)
    (fun i u hi hu => ⟨s, by rw [hu]; exact hstep i hi, rfl⟩) rfl
  exact ht

/-- **The move returns** on a machine whose kernel is mapped in the high half, if the first page of
the stack can be mapped and frames for the others are left. -/
theorem kernelHighhalfRemap_returns {layout : Layout} {symbols : Symbols} (h : Live s)
    (hpages : kernelPages layout ≤ 1024)
    (himage : ∀ i, i < kernelPages layout →
      (s.pageMap (kernelVirtualBase / 4096 + i)).map (fun page => 4096 * page.frame) =
        some ((kernelPhysStart layout + 4096 * i) % 2 ^ 32))
    (hfirst : mapStackPage s 0 = .ok v) (hstock : Stocked v.pmm (stackPageSize - 1))
    (hsymbols : kernelVirtualBase ≤ symbols.gdtStart.toNat ∧
      kernelVirtualBase ≤ symbols.idtTable.toNat ∧
      kernelVirtualBase ≤ symbols.isrStubTable.toNat)
    (hkernel : 0x100000 ≤ kernelPhysStart layout)
    (hend : kernelPhysStart layout < lowUnmapEnd layout) :
    ∃ t, kernelHighhalfRemap layout symbols s = .ok t := by
  obtain ⟨halign, hlt⟩ := lowUnmapEnd_aligned layout
  obtain ⟨u, frame, hstack, hstacked, hstock'⟩ := mapStack_returns h hfirst hstock
  obtain ⟨w, hguard, hbitmap⟩ := unmapGuardPage_returns hstacked.live
  have hcleared := unmapGuardPage_cleared hstacked.live hguard
  have hready : isPagingReady s = .ok true := by
    rw [isPagingReady, if_neg h.good.reach.dir_ne, physToVirt_of_lt h.good.reach.dir_lt]
    rfl
  have htop : checkStackTop w = .ok () := by
    obtain ⟨page, hpage⟩ := hstacked.mapped 15 (by decide)
    rw [checkStackTop, hcleared.live.mappedTo (by decide),
      show (stackVirtualBase + 4096 * stackPageSize - 4) / 4096 = stackPage 15 by decide,
      hcleared.kept _ (by decide), hpage]
    rfl
  obtain ⟨pmm, hswitch⟩ : ∃ pmm, pmmSwitchToPhysWindowAlias w.pmm = .ok pmm := by
    unfold pmmSwitchToPhysWindowAlias
    split
    · exact ⟨_, rfl⟩
    · rw [hbitmap, physToVirt_of_lt hstock'.bitmap]
      exact ⟨_, rfl⟩
  have hswitched := switch_cleared hcleared.live hswitch
  obtain ⟨t, hlow⟩ := unmapLow_returns (n := (lowUnmapEnd layout - 0x100000) / 4096)
    hswitched.live (by omega)
  have hgone := unmapLow_cleared hswitched.live (by omega) hlow
  have hprobe : ∀ a, 0x100000 ≤ a → a < lowUnmapEnd layout → probeAbsent t a = .ok () :=
    fun a hlo hhi => probeAbsent_returns hgone.live (by omega) (hgone.gone _ (by omega))
  refine ⟨t, ?_⟩
  rw [kernelHighhalfRemap, hready, ok_bind, if_neg (by simp),
    verifyKernelPages_returns h himage hpages, ok_bind, hstack, ok_bind, hguard, ok_bind, htop,
    ok_bind, if_neg (by omega), hswitch, ok_bind, hlow, ok_bind,
    hprobe _ (Nat.le_refl _) (by omega), ok_bind, hprobe _ hkernel hend, ok_bind,
    if_pos (by omega), hprobe _ (by omega) (by omega), ok_bind]

section Booted

variable {boot : BootInfo} (h : Booted boot s) (hkib : boot.availMemoryKib.toNat < 2 ^ 22)

include h hkib

theorem Booted.live : Live s := ⟨h.good (h.reachable hkib), h.mapped.loaded⟩

/-- Start-up does not touch the free frames, so the page table of the stack is blank if memory
was. -/
theorem Booted.stackTableBlank (hstock : Stocked s.pmm 2)
    (hblank : ∀ f j, j < 1024 → entryPresent (tableEntry boot.mem f j) = false) :
    StackTableBlank s := by
  have hgood := (h.live hkib).good
  intro f pmm hres _
  refine ⟨h.room, ?_⟩
  obtain ⟨f', pmm', hres', hsecured, hstock'⟩ := hstock.reserve hgood.sound
  obtain ⟨-, heq⟩ := Prod.mk.inj (Except.ok.inj (hres.symm.trans hres'))
  obtain ⟨-, rfl⟩ := Prod.mk.inj heq
  have hnext := getNext_spec hsecured.sound
  have hoom := getNext_oom_iff hsecured.sound
  generalize pmmGetNextAvailableBlock pmm = r at hnext hoom ⊢
  cases hnext with
  | oom =>
      obtain ⟨g, hg, hfree⟩ := exists_clear_of_pos (show 0 < clearCount pmm.bit pmm.frameCount from
        hstock'.free)
      rw [hoom.mp (by simp) g hg] at hfree
      cases hfree
  | @found g t htook =>
      have hlt : g < s.pmm.frameCount := hsecured.count ▸ htook.lt
      have hset := hsecured.set g hlt
      rw [htook.free, eq_comm, Bool.or_eq_false_iff, decide_eq_false_iff_not] at hset
      have hne : g ≠ 0 := by
        rintro rfl
        rw [hgood.zero_busy hlt] at hset
        cases hset.2
      have hplain : ¬ s.pmm.HoldsBitmap g := by
        intro hholds
        rw [hgood.sound.bitmap_set g hlt hholds] at hset
        cases hset.2
      have hreach := h.frame_lt hkib hlt
      refine ⟨g, t, rfl, hne, by omega, fun j hj => ?_⟩
      change entryPresent (tableEntry pmm.mem g j) = false
      rw [((h.leftover g hlt hset.2).trans (hsecured.mem g hset.1 hplain)).tableEntry hj]
      exact hblank g j hj

/-- **The move returns** on a machine with blank memory whose window ends below the stack, if frames
for the stack are left. -/
theorem Booted.remap_returns {symbols : Symbols} (hstock : Stocked s.pmm (stackPageSize + 1))
    (hblank : ∀ f j, j < 1024 → entryPresent (tableEntry boot.mem f j) = false)
    (hbelow : physWindowBase + boot.windowBytes ≤ stackVirtualBase)
    (hsymbols : kernelVirtualBase ≤ symbols.gdtStart.toNat ∧
      kernelVirtualBase ≤ symbols.idtTable.toNat ∧
      kernelVirtualBase ≤ symbols.isrStubTable.toNat)
    (hkernel : 0x100000 ≤ kernelPhysStart boot.toLayout)
    (hend : kernelPhysStart boot.toLayout < lowUnmapEnd boot.toLayout) :
    ∃ t, kernelHighhalfRemap boot.toLayout symbols s = .ok t := by
  obtain ⟨v, hfirst, hleft⟩ := mapStackFirst_returns (h.live hkib)
    (h.stack_none (by decide) hbelow)
    (h.stackTableBlank hkib (hstock.le (by decide)) hblank) hstock
  exact kernelHighhalfRemap_returns (h.live hkib) h.pages h.image hfirst hleft hsymbols hkernel hend

end Booted

/-- Symbols of a kernel that is linked at the start of the high half. -/
def linkedHigh : Symbols := ⟨0xC0000000, 0xC0000000, 0xC0000000⟩

/-- Start-up and the move, on machines without a memory map. -/
theorem cmosInfo_remap {kib : BitVec 32} (hroom : (cmosInfo kib).RoomFor (stackPageSize + 1))
    (hneeded : neededFramesOf (cmosInfo kib).windowBytes + stackPageSize < 250)
    (hkib : kib.toNat < 2 ^ 22)
    (hbelow : physWindowBase + (cmosInfo kib).windowBytes ≤ stackVirtualBase)
    (hend : 0x100000 < lowUnmapEnd (cmosInfo kib).toLayout) :
    ∃ s t, memInit (cmosInfo kib) = .ok s ∧ Booted (cmosInfo kib) s ∧ StackTableBlank s ∧
      kernelHighhalfRemap (cmosInfo kib).toLayout linkedHigh s = .ok t := by
  obtain ⟨-, -, -, s, hinit, hstock, -⟩ := cmosInfo_starts hroom hneeded
  have hblank : ∀ f j, j < 1024 → entryPresent (tableEntry (cmosInfo kib).mem f j) = false := by
    intro _ _ _
    show entryPresent (0 ++ 0 ++ 0 ++ 0 : BitVec 32) = false
    decide
  have hbooted : Booted (cmosInfo kib) s :=
    memInit_booted rfl (show 0x100000 < 0x101000 by decide) hroom.roomy hinit
  have hstart : kernelPhysStart (cmosInfo kib).toLayout = 0x100000 :=
    show kernelPhysStart smallInfo.toLayout = 0x100000 by decide
  have hlinked : kernelVirtualBase ≤ linkedHigh.gdtStart.toNat ∧
      kernelVirtualBase ≤ linkedHigh.idtTable.toNat ∧
      kernelVirtualBase ≤ linkedHigh.isrStubTable.toNat := by decide
  obtain ⟨t, ht⟩ := hbooted.remap_returns hkib hstock hblank hbelow hlinked hstart.ge
    (by rw [hstart]; exact hend)
  exact ⟨s, t, hinit, hbooted, hbooted.stackTableBlank hkib (hstock.le (by decide)) hblank, ht⟩

/-- 5 MiB: the identity map reaches to 8 MiB, and the pages above 5 MiB are left. -/
theorem remap_leaves_low_page : ∃ s t, memInit (cmosInfo 5120) = .ok s ∧
    kernelHighhalfRemap (cmosInfo 5120).toLayout linkedHigh s = .ok t ∧
    ¬ RemapDone (cmosInfo 5120).toLayout s t := by
  have hroom : (cmosInfo 5120).RoomFor (stackPageSize + 1) :=
    cmosInfo_roomFor 0x110 17 (by decide) (by decide)
  obtain ⟨s, t, hinit, hbooted, -, ht⟩ := cmosInfo_remap hroom (by decide) (by decide) (by decide)
    (by decide)
  obtain ⟨u, frame, hstacked, hcleared⟩ := kernelHighhalfRemap_parts
    (hbooted.live (by decide)) hbooted.pages hbooted.image ht
  refine ⟨s, t, hinit, ht, fun hdone => ?_⟩
  have hwhole := whole_of_low hbooted hstacked hcleared hdone.low
  revert hwhole
  decide

theorem remap_done_4096 : ∃ s t, memInit (cmosInfo 4096) = .ok s ∧
    kernelHighhalfRemap (cmosInfo 4096).toLayout linkedHigh s = .ok t ∧
    RemapDone (cmosInfo 4096).toLayout s t := by
  have hroom : (cmosInfo 4096).RoomFor (stackPageSize + 1) :=
    cmosInfo_roomFor 0x110 17 (by decide) (by decide)
  obtain ⟨s, t, hinit, hbooted, hblank, ht⟩ := cmosInfo_remap hroom (by decide) (by decide)
    (by decide) (by decide)
  refine ⟨s, t, hinit, ht, ?_⟩
  exact (remap_done_iff rfl (by decide) hroom.roomy hinit (hbooted.reachable (by decide)) ht).mpr
    ⟨.inl (by decide), by decide, hblank⟩

end Unidos
