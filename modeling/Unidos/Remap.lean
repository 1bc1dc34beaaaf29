import Unidos.Startup
import Unidos.Paging.NewTable

/-!
# The move to the high half

`kernel_highhalf_remap` of `kernel/kremap.c` checks that the kernel image is mapped in the high
half, maps a stack with a guard page below it, and takes the low identity map down. The identity
map reaches to the next multiple of 4 MiB, but is taken down only to the end of memory.
`remap_done_iff` says when nothing of it is left and the rest of the map is as it should be.
-/

namespace Unidos

open Lib Paging Dpage

/-- `STACK_VIRTUAL_BASE`. -/
def stackVirtualBase : Nat := 0xF7000000

/-- `STACK_PAGE_SIZE`: the number of pages of the stack. -/
def stackPageSize : Nat := 16

/-- Where the linker put the descriptor tables and the interrupt stubs. -/
structure Symbols where
  gdtStart : BitVec 32
  idtTable : BitVec 32
  isrStubTable : BitVec 32

/-- `is_paging_ready`. The address of the directory in the window is never null. -/
def isPagingReady (s : Paging.State) : Except Trap Bool :=
  if s.pageDirectoryLocPhys = 0 then .ok false
  else do
    let _ ← physToVirt s.pageDirectoryLocPhys
    .ok true

/-- The physical address that a query reports for a mapped page. -/
def mappedTo (s : Paging.State) (virtAddr : Nat) : Except Trap (Option Nat) := do
  let (status, q) ← pagingQueryPage s virtAddr
  .ok (if status = .ok ∧ q.mapped = true then some q.physAddr else none)

/-- One page of the kernel image. When `paging_map_page` succeeds, the address it reports is the one
that was asked for. -/
def verifyKernelPage (boot : Layout) (s : Paging.State) (i : Nat) : Except Trap Paging.State := do
  let virt := (kernelVirtualBase + 4096 * i) % 2 ^ 32
  let expectedPhys := (kernelPhysStart boot + 4096 * i) % 2 ^ 32
  let q ← mappedTo s virt
  match q with
  | some phys => if phys ≠ expectedPhys then .error .halt else .ok s
  | none =>
      let (mres, s) ← pagingMapPage s virt expectedPhys (pgPresent ||| pgRw)
      if mres ≠ .ok then .error .halt else .ok s

/-- One page of the stack. -/
def mapStackPage (s : Paging.State) (i : Nat) : Except Trap Paging.State := do
  let virt := stackVirtualBase + 4096 * i
  let q ← mappedTo s virt
  match q with
  | some _ => .ok s
  | none =>
      let (pres, phys, pmm) ← Pmm.pmmReservePageframe s.pmm true true
      if pres ≠ .ok then .error .halt
      else
        let (mres, s) ←
          pagingMapPage { s with pmm := pmm } virt (phys.getD 0) (pgPresent ||| pgRw)
        if mres ≠ .ok then .error .halt else .ok s

/-- The guard page below the stack. -/
def unmapGuardPage (s : Paging.State) : Except Trap Paging.State := do
  let guardVirt := stackVirtualBase - 4096
  let q ← mappedTo s guardVirt
  match q with
  | none => .ok s
  | some _ =>
      let (ures, _, s) ← pagingUnmapPage s guardVirt
      if ures ≠ .ok then .error .halt else .ok s

/-- The page on which the first word of the stack lies. -/
def checkStackTop (s : Paging.State) : Except Trap Unit := do
  let q ← mappedTo s (stackVirtualBase + 4096 * stackPageSize - 4)
  if q = none then .error .halt else .ok ()

/-- `pmm_switch_to_phys_window_alias`. -/
def pmmSwitchToPhysWindowAlias (pmm : Pmm.State) : Except Trap Pmm.State :=
  if pmm.pagebitmapPhys = 0 then .ok pmm
  else do
    let _ ← physToVirt pmm.pagebitmapPhys
    .ok { pmm with usePhysWindowAlias := true }

/-- `lowUnmapEnd`: the end of memory, rounded up to a page. -/
def lowUnmapEnd (boot : Layout) : Nat :=
  (boot.availMemoryKib.toNat * 1024 % 2 ^ 32 + 0xFFF) % 2 ^ 32 / 4096 * 4096

/-- One page of the low identity map, counted from 1 MiB. -/
def unmapLowPage (s : Paging.State) (i : Nat) : Except Trap Paging.State := do
  let (ures, _, s) ← pagingUnmapPage s (0x100000 + 4096 * i)
  if ures = .errNotMapped then .ok s
  else if ures ≠ .ok then .error .halt
  else .ok s

/-- A page that must be absent by now. -/
def probeAbsent (s : Paging.State) (virtAddr : Nat) : Except Trap Unit := do
  let q ← mappedTo s virtAddr
  if q ≠ none then .error .halt else .ok ()

/-- `kernel_highhalf_remap`. The interrupt table and the text output have no part in the map. -/
def kernelHighhalfRemap (boot : Layout) (symbols : Symbols) (s : Paging.State) :
    Except Trap Paging.State := do
  let ready ← isPagingReady s
  if ready = false then .error .halt
  else
    let s ← (List.range (kernelPages boot)).foldlM (verifyKernelPage boot) s
    let s ← (List.range stackPageSize).foldlM mapStackPage s
    let s ← unmapGuardPage s
    checkStackTop s
    if symbols.gdtStart.toNat < kernelVirtualBase ∨ symbols.idtTable.toNat < kernelVirtualBase ∨
        symbols.isrStubTable.toNat < kernelVirtualBase then .error .halt
    else
      let pmm ← pmmSwitchToPhysWindowAlias s.pmm
      let s ← (List.range ((lowUnmapEnd boot - 0x100000) / 4096)).foldlM unmapLowPage
        { s with pmm := pmm }
      probeAbsent s 0x100000
      probeAbsent s (kernelPhysStart boot)
      if lowUnmapEnd boot > 0x100000 then do
        probeAbsent s (lowUnmapEnd boot - 4096)
        .ok s
      else .ok s

/-! ## What the move should do -/

/-- Page `j` of the stack. -/
def stackPage (j : Nat) : Nat := stackVirtualBase / 4096 + j

/-- The page below the stack. -/
def guardPage : Nat := stackVirtualBase / 4096 - 1

/-- A frame that was free, and is taken now for something else than a page table. -/
structure NewFrame (s t : Paging.State) (f : Nat) : Prop where
  lt : f < s.pmm.frameCount
  free : s.pmm.bit f = false
  taken : t.pmm.bit f = true
  plain : ¬ TableFrame t f

/-- What the move should leave behind: above 1 MiB no low page, the guard page absent, a stack of
frames of its own, the kernel image in its place, and everything else in the high half as it
was. -/
structure RemapDone (boot : Layout) (s t : Paging.State) : Prop where
  low : ∀ q, 0x100 ≤ q → q < kernelVirtualBase / 4096 → t.pageMap q = none
  guard : t.pageMap guardPage = none
  stack : ∃ frame : Nat → Nat,
    (∀ j, j < stackPageSize → (t.pageMap (stackPage j)).map (·.frame) = some (frame j) ∧
      NewFrame s t (frame j)) ∧
    ∀ j k, j < stackPageSize → k < stackPageSize → frame j = frame k → j = k
  image : ∀ i, i < kernelPages boot →
    (t.pageMap (kernelVirtualBase / 4096 + i)).map (fun page => 4096 * page.frame) =
      some ((kernelPhysStart boot + 4096 * i) % 2 ^ 32)
  rest : ∀ q, kernelVirtualBase / 4096 ≤ q → q ≠ guardPage →
    (∀ j, j < stackPageSize → q ≠ stackPage j) → t.pageMap q = s.pageMap q

/-- The frame that becomes the page table of the stack holds nothing that reads as an entry. -/
def StackTableBlank (s : Paging.State) : Prop :=
  ∀ f pmm, Pmm.pmmReservePageframe s.pmm true true = .ok (.ok, some (4096 * f), pmm) →
    BlankFrame { s with pmm := pmm } stackVirtualBase (4096 * f) (pgPresent ||| pgRw)

/-- The end of memory lies in the last page before a multiple of 4 MiB, the window ends below the
stack, and the stack gets a blank page table. -/
structure RemapFits (boot : BootInfo) (s : Paging.State) : Prop where
  whole : boot.availMemoryKib.toNat % 4096 = 0 ∨ 4093 ≤ boot.availMemoryKib.toNat % 4096
  below : physWindowBase + boot.windowBytes ≤ stackVirtualBase
  blank : StackTableBlank s

/-! ## Queries and unmapping -/

/-- The kernel's directory is in order, and loaded. -/
structure Live (s : Paging.State) : Prop where
  good : Good s
  loaded : s.cr3 = s.pageDirectoryLocPhys

variable {boot : BootInfo} {s t u v : Paging.State} {virt : Nat}

theorem Live.mappedTo (h : Live s) (hvirt : virt < 2 ^ 32) :
    mappedTo s virt = .ok ((s.pageMap (virt / 4096)).map fun page => 4096 * page.frame) := by
  rw [Unidos.mappedTo, pagingQueryPage_refines h.good.wired h.good.reach h.loaded hvirt, ok_bind]
  unfold PageMap.query
  cases s.pageMap (virt / 4096) with
  | none => rfl
  | some page => rfl

/-- The pages with property `P` are gone, and nothing else has changed. -/
structure Cleared (P : Nat → Prop) (s t : Paging.State) : Prop where
  live : Live t
  gone : ∀ q, P q → t.pageMap q = none
  kept : ∀ q, ¬ P q → t.pageMap q = s.pageMap q
  count : t.pmm.frameCount = s.pmm.frameCount
  bit : ∀ f, f < s.pmm.frameCount → t.pmm.bit f = s.pmm.bit f
  tables : ∀ f, TableFrame t f ↔ TableFrame s f

theorem Cleared.refl (h : Live s) {P : Nat → Prop} (hgone : ∀ q, P q → s.pageMap q = none) :
    Cleared P s s :=
  ⟨h, hgone, fun _ _ => rfl, rfl, fun _ _ => rfl, fun _ => .rfl⟩

theorem Cleared.trans {P Q : Nat → Prop} (h : Cleared P s t) (h' : Cleared Q t u) :
    Cleared (fun q => P q ∨ Q q) s u where
  live := h'.live
  gone q hq := by
    by_cases hQ : Q q
    · exact h'.gone q hQ
    · rw [h'.kept q hQ]
      exact h.gone q (hq.resolve_right hQ)
  kept q hq := by
    rw [not_or] at hq
    rw [h'.kept q hq.2, h.kept q hq.1]
  count := h'.count.trans h.count
  bit f hf := (h'.bit f (h.count ▸ hf)).trans (h.bit f hf)
  tables f := (h'.tables f).trans (h.tables f)

theorem Cleared.congr {P Q : Nat → Prop} (h : Cleared P s t) (hiff : ∀ q, P q ↔ Q q) :
    Cleared Q s t := by
  have heq : P = Q := funext fun q => propext (hiff q)
  exact heq ▸ h

/-- `paging_unmap_page` in the loops of the move: the page is gone afterwards. -/
theorem pagingUnmapPage_cleared {status : PagingStatus} {phys : Nat} (h : Live s)
    (hvirt : virt < 2 ^ 32) (halign : virt % 4096 = 0)
    (hret : pagingUnmapPage s virt = .ok (status, phys, t)) :
    Cleared (· = virt / 4096) s t := by
  cases hpage : s.pageMap (virt / 4096) with
  | some page =>
      obtain ⟨t', hret', hmoved, hmap⟩ := pagingUnmapPage_result h.good hvirt halign hpage
      have hpresent : entryPresent (s.dirEntry (pdiOf virt)) = true := by
        have := present_of_pageMap hpage
        rwa [show virt / 4096 / 1024 = pdiOf virt by unfold pdiOf; omega] at this
      obtain ⟨t'', hret'', hrefines⟩ :=
        pagingUnmapPage_refines h.good.wired h.good.reach hvirt hpresent
      obtain ⟨-, heq⟩ := Prod.mk.inj (Except.ok.inj (hret.symm.trans hret'))
      obtain ⟨-, rfl⟩ := Prod.mk.inj heq
      obtain ⟨-, heq⟩ := Prod.mk.inj (Except.ok.inj (hret.symm.trans hret''))
      obtain ⟨-, rfl⟩ := Prod.mk.inj heq
      have hsame : SameEntries s t := ⟨hrefines.dir, hrefines.loc, hrefines.agree⟩
      refine ⟨⟨hmoved.good, ?_⟩, fun q hq => ?_, fun q hq => ?_, hmoved.count, fun f hf => ?_,
        hsame.tableFrame⟩
      · rw [hrefines.cr3, hrefines.dir]
        exact h.loaded
      · rw [hmap, hq, Function.update_self]
      · rw [hmap, Function.update_of_ne hq]
      · have hiff := hmoved.bits f hf
        have hbusy : TableFrame t f → s.pmm.bit f = true :=
          fun htable => h.good.table_busy f ((hsame.tableFrame f).mp htable) hf
        rw [Bool.eq_iff_iff]
        simp only [List.not_mem_nil, false_or] at hiff
        exact hiff.trans (or_iff_left_of_imp hbusy)
  | none =>
      have hsame : t = s := by
        cases hpresent : entryPresent (s.dirEntry (pdiOf virt)) with
        | true =>
            rw [pageMap_of_present hvirt hpresent, Option.map_eq_none_iff,
              Option.guard_eq_none_iff] at hpage
            rw [pagingUnmapPage_present h.good.wired h.good.reach hpresent (by omega),
              if_pos hpage] at hret
            obtain ⟨-, heq⟩ := Prod.mk.inj (Except.ok.inj hret)
            exact (Prod.mk.inj heq).2.symm
        | false =>
            rw [pagingUnmapPage, if_neg h.good.reach.dir_ne, if_neg (by omega),
              physToVirt_of_lt h.good.reach.dir_lt, ok_bind, pdiOf_def,
              h.good.wired.readWord_dir, if_pos hpresent] at hret
            obtain ⟨-, heq⟩ := Prod.mk.inj (Except.ok.inj hret)
            exact (Prod.mk.inj heq).2.symm
      subst hsame
      exact .refl h fun q hq => hq ▸ hpage

/-- Where the kernel image is mapped, checking it changes nothing. -/
theorem verifyKernelPages_same {layout : Layout} (h : Live s) (hpages : kernelPages layout ≤ 1024)
    (himage : ∀ i, i < kernelPages layout →
      (s.pageMap (kernelVirtualBase / 4096 + i)).map (fun page => 4096 * page.frame) =
        some ((kernelPhysStart layout + 4096 * i) % 2 ^ 32))
    (hret : (List.range (kernelPages layout)).foldlM (verifyKernelPage layout) s = .ok t) :
    t = s := by
  refine foldlM_range (I := fun _ u => u = s) (fun i u v hi hu hstep => ?_) rfl hret
  subst hu
  have hkvb : kernelVirtualBase = 0xC0000000 := rfl
  have hvirt : (kernelVirtualBase + 4096 * i) % 2 ^ 32 / 4096 = kernelVirtualBase / 4096 + i := by
    omega
  unfold verifyKernelPage at hstep
  dsimp only at hstep
  rw [h.mappedTo (Nat.mod_lt _ (by decide)), hvirt, himage i hi, ok_bind] at hstep
  dsimp only at hstep
  rw [if_neg (by simp)] at hstep
  exact (Except.ok.inj hstep).symm

/-! ## The stack -/

theorem pagingMapPage_cr3 {phys : Nat} {flags : BitVec 32} {status : PagingStatus}
    (hs : s.pmm.Sound) (hret : pagingMapPage s virt phys flags = .ok (status, t)) :
    t.cr3 = s.cr3 := by
  obtain ⟨u, hensure, rfl | ⟨-, entry, rfl⟩⟩ := pagingMapPage_cases hret hs
  · cases hensure with
    | same => rfl
    | added htook habsent hentry => rfl
  · cases hensure with
    | same => rfl
    | added htook habsent hentry => rfl

section Secure

variable {f : Nat} {pmm : Pmm.State} (h : Good s) (hsecured : Pmm.Secured s.pmm f pmm)

include h hsecured

theorem secured_plain : Plain s f := h.free_plain hsecured.lt hsecured.free

theorem secured_sameEntries : SameEntries s { s with pmm := pmm } :=
  ⟨rfl, rfl, hsecured.mem _ (secured_plain h hsecured).dir.symm h.dir_bitmap⟩

/-- A frame that is reserved and cleared is none of the kernel's tables. -/
theorem secured_pageMap : ({ s with pmm := pmm } : Paging.State).pageMap = s.pageMap := by
  refine (secured_sameEntries h hsecured).pageMap fun g hg => ?_
  refine hsecured.mem g (fun heq => ?_) (h.table_bitmap g hg)
  exact (secured_plain h hsecured).table (heq ▸ hg)

theorem secured_good : Good { s with pmm := pmm } := by
  refine h.congr (secured_sameEntries h hsecured) hsecured.sound (fun g => ?_)
    fun g _ hbusy hg => ?_
  · change pmm.HoldsBitmap g ↔ _
    unfold Pmm.State.HoldsBitmap
    rw [hsecured.phys, hsecured.size]
  · change g < pmm.frameCount at hg
    rw [hsecured.count] at hg
    change pmm.bit g = true
    rw [hsecured.set g hg, hbusy hg, Bool.or_true]

end Secure

/-- A page that is added under a table that exists or is blank is the only one. -/
theorem pagingMapPage_exact {f : Nat} {flags : BitVec 32} (h : Good s) (hvirt : virt < 2 ^ 32)
    (halign : virt % 4096 = 0) (hf : f < 2 ^ 20) (hflags : flagError virt flags = none)
    (hblank : BlankFrame s virt (4096 * f) flags)
    (hret : pagingMapPage s virt (4096 * f) flags = .ok (.ok, t)) :
    t.pageMap = Function.update s.pageMap (virt / 4096) (some ⟨f, storedFlags flags⟩) := by
  obtain ⟨-, hadded⟩ | ⟨hbad, -⟩ := pagingMapPage_result h hvirt halign hf hret
  swap
  · exact absurd rfl hbad
  refine hadded.exact fun g hg hnew j hj => ?_
  cases hpresent : entryPresent (s.dirEntry (pdiOf virt)) with
  | true =>
      -- the directory stays as it is
      obtain ⟨t', hret', hrefines⟩ := pagingMapPage_refines h.wired h.reach hvirt hpresent
        (show 4096 * f < 2 ^ 32 by omega) flags
      obtain ⟨-, rfl⟩ := Prod.mk.inj (Except.ok.inj (hret.symm.trans hret'))
      have hsame : SameEntries s t := ⟨hrefines.dir, hrefines.loc, hrefines.agree⟩
      exact absurd ((hsame.tableFrame g).mp hg) hnew
  | false =>
      have hneeds : NeedsTable s virt (4096 * f) flags :=
        ⟨h.reach.dir_ne, by omega, hflags, hpresent⟩
      obtain ⟨hcount, k, pmm, hget, hne, hlt, hfree⟩ := hblank hneeds
      have htook := took_of_getNext h.sound hget
      rw [pagingMapPage_withTable h.dirSafe hneeds hcount hget,
        mapInTable_withTable h.dirSafe htook hne hlt,
        if_neg (by rw [hfree _ (ptiOf_lt virt)]; decide)] at hret
      obtain ⟨-, rfl⟩ := Prod.mk.inj (Except.ok.inj hret)
      have hsame : SameEntries (s.withTable pmm virt k flags)
          ((s.withTable pmm virt k flags).withMem
            (setEntry (s.withTable pmm virt k flags).pmm.mem k (ptiOf virt)
              (mkEntry (4096 * f) (storedFlags flags)))) :=
        ⟨rfl, rfl, agreeOn_setEntry _ _ (ptiOf_lt virt) (took_ne_dir h.dirSafe htook).symm⟩
      have htable := (hsame.tableFrame g).mp hg
      rw [tableFrame_withTable h htook hpresent] at htable
      obtain rfl := htable.resolve_left hnew
      exact hfree j hj

theorem KeepsPages.absent {q : Nat} (h : KeepsPages s t) (hq : t.pageMap q = none) :
    s.pageMap q = none := by
  cases hpage : s.pageMap q with
  | none => rfl
  | some page =>
      rw [h q page hpage] at hq
      cases hq

/-- The first `i` pages of the stack are mapped; `frame` gives the frames that were taken for
them. -/
structure Stacked (s u : Paging.State) (i : Nat) (frame : Nat → Option Nat) : Prop where
  live : Live u
  count : u.pmm.frameCount = s.pmm.frameCount
  grows : ∀ f, f < s.pmm.frameCount → s.pmm.bit f = true → u.pmm.bit f = true
  keeps : KeepsPages s u
  mapped : ∀ j, j < i → ∃ page, u.pageMap (stackPage j) = some page
  own : ∀ j f, frame j = some f → j < i ∧
    (u.pageMap (stackPage j)).map (·.frame) = some f ∧ NewFrame s u f
  inj : ∀ j k f, frame j = some f → frame k = some f → j = k
  bits : ∀ f, f < s.pmm.frameCount → u.pmm.bit f = true →
    s.pmm.bit f = true ∨ (∃ j, frame j = some f) ∨ TableFrame u f
  start : i = 0 → u = s
  absent : ∀ j f, frame j = some f → s.pageMap (stackPage j) = none
  first : 0 < i → s.pageMap (stackPage 0) = none → ∃ f pmm v,
    Pmm.pmmReservePageframe s.pmm true true = .ok (.ok, some (4096 * f), pmm) ∧
    pagingMapPage { s with pmm := pmm } stackVirtualBase (4096 * f) (pgPresent ||| pgRw) =
      .ok (.ok, v) ∧
    KeepsPages v u ∧ ∀ j g, 0 < j → frame j = some g → v.pageMap (stackPage j) = none
  fresh : StackTableBlank s → (∀ j, j < i → s.pageMap (stackPage j) = none) →
    ∀ j, j < i → ∃ f, frame j = some f
  exact : StackTableBlank s → ∀ q, (∀ j, j < i → q ≠ stackPage j) → u.pageMap q = s.pageMap q

theorem Stacked.refl (h : Live s) : Stacked s s 0 fun _ => none where
  live := h
  count := rfl
  grows _ _ hf := hf
  keeps _ _ hq := hq
  mapped _ hj := absurd hj (Nat.not_lt_zero _)
  own _ _ hj := by cases hj
  inj _ _ _ hj := by cases hj
  bits _ _ hf := .inl hf
  start _ := rfl
  absent _ _ hj := by cases hj
  first hi := absurd hi (Nat.lt_irrefl _)
  fresh _ _ _ hj := absurd hj (Nat.not_lt_zero _)
  exact _ _ _ := rfl

/-- The page was mapped already. -/
theorem Stacked.skip {i : Nat} {frame : Nat → Option Nat} {page : Mapping}
    (h : Stacked s u i frame) (hpage : u.pageMap (stackPage i) = some page) :
    Stacked s u (i + 1) frame where
  live := h.live
  count := h.count
  grows := h.grows
  keeps := h.keeps
  mapped j hj := by
    obtain hj | rfl : j < i ∨ j = i := by omega
    · exact h.mapped j hj
    · exact ⟨page, hpage⟩
  own j f hj := by
    obtain ⟨hlt, hown⟩ := h.own j f hj
    exact ⟨by omega, hown⟩
  inj := h.inj
  bits := h.bits
  start hi := by omega
  absent := h.absent
  first _ hnone := by
    obtain rfl | hpos := Nat.eq_zero_or_pos i
    · rw [h.start rfl, hnone] at hpage
      cases hpage
    · exact h.first hpos hnone
  fresh hblank hnone := by
    have hsame : u.pageMap (stackPage i) = s.pageMap (stackPage i) := by
      refine h.exact hblank _ fun j hj heq => ?_
      unfold stackPage at heq
      omega
    rw [hsame, hnone i (by omega)] at hpage
    cases hpage
  exact hblank q hq := h.exact hblank q fun j hj => hq j (by omega)

section StackStep

variable {i f : Nat} {frame : Nat → Option Nat} {pmm : Pmm.State}

theorem stackPage_eq (hi : i < stackPageSize) :
    (stackVirtualBase + 4096 * i) / 4096 = stackPage i ∧
      (stackVirtualBase + 4096 * i) % 4096 = 0 ∧ stackVirtualBase + 4096 * i < 2 ^ 32 := by
  unfold stackPage stackPageSize stackVirtualBase at *
  omega

theorem pdiOf_stack (hi : i < stackPageSize) : pdiOf (stackVirtualBase + 4096 * i) = 988 := by
  unfold pdiOf stackPageSize stackVirtualBase at *
  omega

theorem flagError_stack (i : Nat) :
    flagError (stackVirtualBase + 4096 * i) (pgPresent ||| pgRw) = none := by
  have hkernel : ¬ stackVirtualBase + 4096 * i < kernelVirtualBase := by
    unfold stackVirtualBase kernelVirtualBase
    omega
  have huser : (pgPresent ||| pgRw) &&& pgUser = 0 := by decide
  rw [flagError, if_neg (fun h => h.2 huser), if_neg (fun h => hkernel h.1)]

theorem Stacked.present (h : Stacked s u i frame) (hi : 0 < i) :
    entryPresent (u.dirEntry 988) = true := by
  obtain ⟨page, hpage⟩ := h.mapped 0 hi
  have hpdi : stackPage 0 / 1024 = 988 := rfl
  rw [← hpdi]
  exact present_of_pageMap hpage

/-- A page is mapped to a frame that was reserved for it. -/
theorem Stacked.take (h : Stacked s u i frame) (hi : i < stackPageSize)
    (hres : Pmm.pmmReservePageframe u.pmm true true = .ok (.ok, some (4096 * f), pmm))
    (hsecured : Pmm.Secured u.pmm f pmm)
    (hret : pagingMapPage { u with pmm := pmm } (stackVirtualBase + 4096 * i) (4096 * f)
      (pgPresent ||| pgRw) = .ok (.ok, v)) :
    Stacked s v (i + 1) (Function.update frame i (some f)) := by
  obtain ⟨hpage, halign, hvirt⟩ := stackPage_eq hi
  have hgood := secured_good h.live.good hsecured
  have hmap := secured_pageMap h.live.good hsecured
  have hplain := secured_plain h.live.good hsecured
  have hsame := secured_sameEntries h.live.good hsecured
  have hf : f < 2 ^ 20 := h.live.good.sound.lt_pow hsecured.lt
  obtain ⟨-, hadded⟩ | ⟨hbad, -⟩ := pagingMapPage_result hgood hvirt halign hf hret
  swap
  · exact absurd rfl hbad
  have hmoved := hadded.moved
  have hcount : pmm.frameCount = s.pmm.frameCount := hsecured.count.trans h.count
  have hset : ∀ g, g < s.pmm.frameCount → pmm.bit g = (decide (g = f) || u.pmm.bit g) :=
    fun g hg => hsecured.set g (h.count ▸ hg)
  have hgrows : ∀ g, g < s.pmm.frameCount → u.pmm.bit g = true → v.pmm.bit g = true := by
    intro g hg hbit
    refine (hmoved.bits g (hcount ▸ hg)).mpr (.inl ?_)
    change pmm.bit g = true
    rw [hset g hg, hbit, Bool.or_true]
  have hkeeps : KeepsPages u v := by
    intro q page hq
    refine hadded.keeps q page ?_
    rw [hmap]
    exact hq
  have habsent : u.pageMap (stackPage i) = none := by
    rw [← hmap, ← hpage]
    exact hadded.absent
  have hnone : s.pageMap (stackPage i) = none := KeepsPages.absent h.keeps habsent
  have hlt : f < s.pmm.frameCount := h.count ▸ hsecured.lt
  have hfbit : pmm.bit f = true := by
    rw [hset f hlt, decide_eq_true rfl, Bool.true_or]
  have hfree : s.pmm.bit f = false := by
    cases hbit : s.pmm.bit f with
    | false => rfl
    | true =>
        have hfree := hsecured.free
        rw [h.grows f hlt hbit] at hfree
        cases hfree
  have hnew : NewFrame s v f := by
    refine ⟨hlt, hfree, (hmoved.bits f (hcount ▸ hlt)).mpr (.inl hfbit), ?_⟩
    exact hmoved.not_table (fun htable => hplain.table ((hsame.tableFrame f).mp htable))
      fun _ => hfbit
  refine ⟨⟨hmoved.good, ?_⟩, hmoved.count.trans hcount, fun g hg hbit => ?_, fun q page hq => ?_,
    fun j hj => ?_, fun j g hj => ?_, fun j k g hj hk => ?_, fun g hg hbit => ?_,
    fun hzero => ?_, fun j g hj => ?_, fun _ hnone => ?_, fun hblank hnone j hj => ?_,
    fun hblank q hq => ?_⟩
  · rw [pagingMapPage_cr3 hgood.sound hret, hmoved.dir]
    exact h.live.loaded
  · exact hgrows g hg (h.grows g hg hbit)
  · exact hkeeps q page (h.keeps q page hq)
  · obtain hj | rfl : j < i ∨ j = i := by omega
    · obtain ⟨page, hj⟩ := h.mapped j hj
      exact ⟨page, hkeeps _ page hj⟩
    · exact ⟨_, hpage ▸ hadded.added⟩
  · by_cases hji : j = i
    · subst hji
      rw [Function.update_self, Option.some.injEq] at hj
      subst hj
      refine ⟨by omega, ?_, hnew⟩
      rw [← hpage, hadded.added]
      rfl
    · rw [Function.update_of_ne hji] at hj
      obtain ⟨hlt', hframe, hold⟩ := h.own j g hj
      obtain ⟨page, hpage', rfl⟩ := Option.map_eq_some_iff.mp hframe
      refine ⟨by omega, ?_, hold.lt, hold.free, hgrows _ hold.lt hold.taken, ?_⟩
      · rw [hkeeps _ page hpage']
        rfl
      · refine hmoved.not_table (fun htable => hold.plain ((hsame.tableFrame _).mp htable)) ?_
        intro _
        change pmm.bit page.frame = true
        rw [hset _ hold.lt, hold.taken, Bool.or_true]
  · -- a frame that was taken before is not free now
    have hother : ∀ k, k ≠ i → Function.update frame i (some f) k = some f → False := by
      intro k hki hk
      rw [Function.update_of_ne hki] at hk
      have htaken := (h.own k f hk).2.2.taken
      rw [hsecured.free] at htaken
      cases htaken
    by_cases hji : j = i
    · subst hji
      by_contra hne
      rw [Function.update_self, Option.some.injEq] at hj
      subst hj
      exact hother k (Ne.symm hne) hk
    · by_cases hki : k = i
      · subst hki
        rw [Function.update_self, Option.some.injEq] at hk
        subst hk
        exact (hother j hji hj).elim
      · rw [Function.update_of_ne hji] at hj
        rw [Function.update_of_ne hki] at hk
        exact h.inj j k g hj hk
  · obtain hbit | hbad | htable := (hmoved.bits g (hcount ▸ hg)).mp hbit
    · change pmm.bit g = true at hbit
      rw [hset g hg, Bool.or_eq_true, decide_eq_true_iff] at hbit
      obtain rfl | hbit := hbit
      · exact .inr (.inl ⟨i, Function.update_self ..⟩)
      · obtain hold | ⟨j, hj⟩ | htable := h.bits g hg hbit
        · exact .inl hold
        · have hji : j ≠ i := by
            have := (h.own j g hj).1
            omega
          exact .inr (.inl ⟨j, by rw [Function.update_of_ne hji, hj]⟩)
        · exact .inr (.inr (hmoved.tableFrame ((hsame.tableFrame g).mpr htable)))
    · cases hbad
    · exact .inr (.inr htable)
  · omega
  · by_cases hji : j = i
    · subst hji
      exact hnone
    · rw [Function.update_of_ne hji] at hj
      exact h.absent j g hj
  · obtain rfl | hpos := Nat.eq_zero_or_pos i
    · obtain rfl := h.start rfl
      refine ⟨f, pmm, v, hres, hret, fun _ _ hq => hq, fun j g hj hframe => ?_⟩
      rw [Function.update_of_ne (by omega)] at hframe
      have := (h.own j g hframe).1
      omega
    · obtain ⟨f', pmm', w, hres', hret', hkeep, hbefore⟩ := h.first hpos hnone
      refine ⟨f', pmm', w, hres', hret', fun q page hq => hkeeps q page (hkeep q page hq),
        fun j g hj hframe => ?_⟩
      by_cases hji : j = i
      · subst hji
        exact KeepsPages.absent hkeep habsent
      · rw [Function.update_of_ne hji] at hframe
        exact hbefore j g hj hframe
  · by_cases hji : j = i
    · subst hji
      exact ⟨f, Function.update_self ..⟩
    · rw [Function.update_of_ne hji]
      exact h.fresh hblank (fun k hk => hnone k (by omega)) j (by omega)
  · have hblank' : BlankFrame { u with pmm := pmm } (stackVirtualBase + 4096 * i) (4096 * f)
        (pgPresent ||| pgRw) := by
      obtain rfl | hpos := Nat.eq_zero_or_pos i
      · obtain rfl := h.start rfl
        exact hblank f pmm hres
      · intro hneeds
        have habsent := hneeds.absent
        rw [pdiOf_stack hi, hsame.dirEntry (by omega), h.present hpos] at habsent
        cases habsent
    have hexact := pagingMapPage_exact hgood hvirt halign hf (flagError_stack i) hblank' hret
    rw [hexact, hpage, Function.update_of_ne (hq i (by omega)), hmap]
    exact h.exact hblank q fun j hj => hq j (by omega)

theorem mapStackPage_stacked (h : Stacked s u i frame) (hi : i < stackPageSize)
    (hret : mapStackPage u i = .ok v) : ∃ frame', Stacked s v (i + 1) frame' := by
  obtain ⟨hpage, -, hvirt⟩ := stackPage_eq hi
  unfold mapStackPage at hret
  dsimp only at hret
  rw [h.live.mappedTo hvirt, hpage, ok_bind] at hret
  cases hquery : u.pageMap (stackPage i) with
  | some page =>
      rw [hquery] at hret
      obtain rfl := Except.ok.inj hret
      exact ⟨frame, h.skip hquery⟩
  | none =>
      rw [hquery] at hret
      obtain ⟨⟨pres, phys, pmm⟩, hres, hret⟩ := bind_eq_ok.mp hret
      dsimp only at hret
      split at hret
      · cases hret
      rename_i hpres
      obtain ⟨⟨mres, w⟩, hmap, hret⟩ := bind_eq_ok.mp hret
      dsimp only at hret
      split at hret
      · cases hret
      rename_i hmres
      rw [not_not] at hpres hmres
      subst hpres hmres
      obtain rfl := Except.ok.inj hret
      obtain ⟨hbad, -⟩ | ⟨f, -, rfl, hsecured⟩ :=
        Pmm.reservePageframe_spec h.live.good.sound hres
      · exact absurd rfl hbad
      · exact ⟨_, h.take hi hres hsecured hmap⟩

theorem mapStack_stacked (h : Live s)
    (hret : (List.range stackPageSize).foldlM mapStackPage s = .ok u) :
    ∃ frame, Stacked s u stackPageSize frame :=
  foldlM_range (I := fun i u => ∃ frame, Stacked s u i frame)
    (fun _ _ _ hi hstacked hstep => mapStackPage_stacked hstacked.choose_spec hi hstep)
    ⟨_, .refl h⟩ hret

end StackStep

/-! ## Taking pages away -/

theorem unmapGuardPage_cleared (h : Live s) (hret : unmapGuardPage s = .ok t) :
    Cleared (· = guardPage) s t := by
  have hvirt : stackVirtualBase - 4096 < 2 ^ 32 := by decide
  have hpage : (stackVirtualBase - 4096) / 4096 = guardPage := by decide
  unfold unmapGuardPage at hret
  dsimp only at hret
  rw [h.mappedTo hvirt, hpage, ok_bind] at hret
  cases hquery : s.pageMap guardPage with
  | none =>
      rw [hquery] at hret
      obtain rfl := Except.ok.inj hret
      refine .refl h fun q hq => ?_
      rw [hq, hquery]
  | some page =>
      rw [hquery] at hret
      obtain ⟨⟨ures, phys, u⟩, hunmap, hret⟩ := bind_eq_ok.mp hret
      dsimp only at hret
      split at hret
      · cases hret
      · obtain rfl := Except.ok.inj hret
        exact hpage ▸ pagingUnmapPage_cleared h hvirt (by decide) hunmap

/-- The alias of physical memory has no part in the map. -/
theorem switch_cleared {pmm : Pmm.State} (h : Live s)
    (hret : pmmSwitchToPhysWindowAlias s.pmm = .ok pmm) :
    Cleared (fun _ => False) s { s with pmm := pmm } := by
  unfold pmmSwitchToPhysWindowAlias at hret
  split at hret
  · obtain rfl := Except.ok.inj hret
    exact .refl h fun _ hq => hq.elim
  · obtain ⟨addr, -, hret⟩ := bind_eq_ok.mp hret
    obtain rfl := Except.ok.inj hret
    have hs := h.good.sound
    have hsame : SameEntries s { s with pmm := { s.pmm with usePhysWindowAlias := true } } :=
      ⟨rfl, rfl, .refl _ _⟩
    have hsound : Pmm.State.Sound { s.pmm with usePhysWindowAlias := true } :=
      ⟨⟨⟨hs.hint_lt, hs.counted, hs.reserved_set⟩, hs.count_le, hs.phys_ne, hs.size_eq⟩,
        hs.bitmap_set⟩
    exact ⟨⟨h.good.congr hsame hsound (fun _ => .rfl) fun _ _ hbusy => hbusy, h.loaded⟩,
      fun _ hq => hq.elim, fun _ _ => rfl, rfl, fun _ _ => rfl, hsame.tableFrame⟩

theorem unmapLow_cleared {n : Nat} (h : Live s) (hn : 0x100000 + 4096 * n ≤ 2 ^ 32)
    (hret : (List.range n).foldlM unmapLowPage s = .ok t) :
    Cleared (fun q => 0x100 ≤ q ∧ q < 0x100 + n) s t := by
  refine foldlM_range (I := fun i u => Cleared (fun q => 0x100 ≤ q ∧ q < 0x100 + i) s u)
    (fun i u v hi hu hstep => ?_) (.refl h fun q hq => by omega) hret
  unfold unmapLowPage at hstep
  obtain ⟨⟨ures, phys, w⟩, hunmap, hstep⟩ := bind_eq_ok.mp hstep
  have hw : w = v := by
    dsimp only at hstep
    split at hstep
    · exact Except.ok.inj hstep
    · split at hstep
      · cases hstep
      · exact Except.ok.inj hstep
  subst hw
  have hpage := pagingUnmapPage_cleared hu.live (by omega) (by omega) hunmap
  exact (hu.trans hpage).congr fun q => by omega

/-! ## The move as a whole -/

theorem lowUnmapEnd_aligned (layout : Layout) :
    lowUnmapEnd layout % 4096 = 0 ∧ lowUnmapEnd layout < 2 ^ 32 := by
  unfold lowUnmapEnd
  omega

/-- The parts of a move that returns. -/
theorem kernelHighhalfRemap_parts {layout : Layout} {symbols : Symbols} (h : Live s)
    (hpages : kernelPages layout ≤ 1024)
    (himage : ∀ i, i < kernelPages layout →
      (s.pageMap (kernelVirtualBase / 4096 + i)).map (fun page => 4096 * page.frame) =
        some ((kernelPhysStart layout + 4096 * i) % 2 ^ 32))
    (hret : kernelHighhalfRemap layout symbols s = .ok t) :
    ∃ u frame, Stacked s u stackPageSize frame ∧
      Cleared (fun q => q = guardPage ∨ (0x100 ≤ q ∧ q < lowUnmapEnd layout / 4096)) u t := by
  obtain ⟨halign, hlt⟩ := lowUnmapEnd_aligned layout
  unfold kernelHighhalfRemap at hret
  obtain ⟨ready, -, hret⟩ := bind_eq_ok.mp hret
  split at hret
  · cases hret
  obtain ⟨s₁, hverify, hret⟩ := bind_eq_ok.mp hret
  rw [verifyKernelPages_same h hpages himage hverify] at hret
  obtain ⟨u, hstack, hret⟩ := bind_eq_ok.mp hret
  obtain ⟨frame, hstacked⟩ := mapStack_stacked h hstack
  obtain ⟨s₂, hguard, hret⟩ := bind_eq_ok.mp hret
  have hcleared := unmapGuardPage_cleared hstacked.live hguard
  obtain ⟨-, -, hret⟩ := bind_eq_ok.mp hret
  split at hret
  · cases hret
  obtain ⟨pmm, hswitch, hret⟩ := bind_eq_ok.mp hret
  have hswitched := hcleared.trans (switch_cleared hcleared.live hswitch)
  obtain ⟨s₃, hlow, hret⟩ := bind_eq_ok.mp hret
  have hall := hswitched.trans (unmapLow_cleared hswitched.live (by omega) hlow)
  obtain ⟨-, -, hret⟩ := bind_eq_ok.mp hret
  obtain ⟨-, -, hret⟩ := bind_eq_ok.mp hret
  have ht : s₃ = t := by
    split at hret
    · obtain ⟨-, -, hret⟩ := bind_eq_ok.mp hret
      exact Except.ok.inj hret
    · exact Except.ok.inj hret
  subst ht
  have hrange : ∀ q, (0x100 ≤ q ∧ q < 0x100 + (lowUnmapEnd layout - 0x100000) / 4096) ↔
      (0x100 ≤ q ∧ q < lowUnmapEnd layout / 4096) := fun q => by omega
  exact ⟨u, frame, hstacked, hall.congr fun q => by rw [or_false, hrange]⟩

/-! ## When it is done -/

section Done

variable (h : Booted boot s)

include h

theorem Booted.pageMap_none {q : Nat}
    (htarget : bootTarget boot.toLayout boot.windowBytes (4096 * q) = none) :
    s.pageMap q = none := by
  by_cases hq : q < 2 ^ 20
  · have hframe := BootMapped.frame h.mapped (show 4096 * q < 2 ^ 32 by omega)
    rw [Nat.mul_div_cancel_left q (by omega), htarget, Option.map_eq_none_iff] at hframe
    exact hframe
  · rw [State.pageMap, if_neg hq]

theorem Booted.pageMap_some {q a : Nat} (hq : q < 2 ^ 20)
    (htarget : bootTarget boot.toLayout boot.windowBytes (4096 * q) = some a) :
    ∃ page, s.pageMap q = some page ∧ 4096 * page.frame = a := by
  have hframe := BootMapped.frame h.mapped (show 4096 * q < 2 ^ 32 by omega)
  rw [Nat.mul_div_cancel_left q (by omega), htarget, Option.map_eq_some_iff] at hframe
  obtain ⟨page, hpage, haddr⟩ := hframe
  exact ⟨page, hpage, by omega⟩

theorem Booted.image (i : Nat) (hi : i < kernelPages boot.toLayout) :
    (s.pageMap (kernelVirtualBase / 4096 + i)).map (fun page => 4096 * page.frame) =
      some ((kernelPhysStart boot.toLayout + 4096 * i) % 2 ^ 32) := by
  obtain ⟨n, hn, hbytes⟩ := h.tables
  have hpages := h.pages
  have hkvb : kernelVirtualBase = 0xC0000000 := rfl
  have hva : 4096 * (kernelVirtualBase / 4096 + i) - kernelVirtualBase = 4096 * i := by omega
  obtain ⟨page, hpage, haddr⟩ := h.pageMap_some (q := kernelVirtualBase / 4096 + i)
    (a := (kernelPhysStart boot.toLayout + 4096 * i) % 2 ^ 32) (by omega) (by
      rw [bootTarget, if_neg (by omega), if_pos (by omega), hva])
  rw [hpage, Option.map_some, haddr]

/-- The low pages that are mapped. -/
theorem Booted.low_some {q : Nat} (hq : 4096 * q < boot.windowBytes) :
    ∃ page, s.pageMap q = some page := by
  obtain ⟨n, hn, hbytes⟩ := h.tables
  obtain ⟨page, hpage, -⟩ := h.pageMap_some (q := q) (a := 4096 * q) (by omega) (if_pos hq)
  exact ⟨page, hpage⟩

theorem Booted.low_none {q : Nat} (hq : boot.windowBytes ≤ 4096 * q)
    (hlow : q < kernelVirtualBase / 4096) : s.pageMap q = none := by
  have hkvb : kernelVirtualBase = 0xC0000000 := rfl
  have hpwb : physWindowBase = 0xD0000000 := rfl
  refine h.pageMap_none ?_
  rw [bootTarget, if_neg (by omega), if_neg (by omega), if_neg (by omega)]

/-- The window covers the stack or leaves all of its 4 MiB free. -/
theorem Booted.stack_some {j : Nat} (hj : j < stackPageSize)
    (hover : stackVirtualBase < physWindowBase + boot.windowBytes) :
    ∃ page, s.pageMap (stackPage j) = some page := by
  obtain ⟨n, hn, hbytes⟩ := h.tables
  have hpages := h.pages
  have hkvb : kernelVirtualBase = 0xC0000000 := rfl
  have hpwb : physWindowBase = 0xD0000000 := rfl
  have hsvb : stackVirtualBase = 0xF7000000 := rfl
  have hsize : stackPageSize = 16 := rfl
  have hpage : stackPage j = 0xF7000 + j := rfl
  obtain ⟨page, hpage, -⟩ := h.pageMap_some (q := stackPage j)
    (a := 4096 * stackPage j - physWindowBase) (by omega) (by
      rw [bootTarget, if_neg (by omega), if_neg (by omega), if_pos (by omega)])
  exact ⟨page, hpage⟩

theorem Booted.stack_none {q : Nat} (hq : q / 1024 = 988)
    (hbelow : physWindowBase + boot.windowBytes ≤ stackVirtualBase) : s.pageMap q = none := by
  obtain ⟨n, hn, hbytes⟩ := h.tables
  have hpages := h.pages
  have hkvb : kernelVirtualBase = 0xC0000000 := rfl
  have hpwb : physWindowBase = 0xD0000000 := rfl
  have hsvb : stackVirtualBase = 0xF7000000 := rfl
  refine h.pageMap_none ?_
  rw [bootTarget, if_neg (by omega), if_neg (by omega), if_neg (by omega)]

/-- What is taken down is never more than what was mapped, and all of it where memory ends in the
last page before a multiple of 4 MiB. -/
theorem Booted.lowUnmapEnd_iff :
    lowUnmapEnd boot.toLayout ≤ boot.windowBytes ∧
      (lowUnmapEnd boot.toLayout = boot.windowBytes ↔
        boot.availMemoryKib.toNat % 4096 = 0 ∨ 4093 ≤ boot.availMemoryKib.toNat % 4096) := by
  obtain ⟨n, hn, hbytes⟩ := h.tables
  have hwindow : boot.windowBytes =
      (boot.availMemoryKib.toNat * 1024 % 2 ^ 32 + 0x3FFFFF) / 0x400000 * 0x400000 := by
    rw [BootInfo.windowBytes, identityBytesOf, if_pos rfl]
  unfold lowUnmapEnd
  omega

end Done

/-- A frame that the move took is the stack's, or holds a page table. -/
theorem NewFrame.of_stacked {frame : Nat → Option Nat} {P : Nat → Prop} {f : Nat}
    (hnew : NewFrame s t f) (hstacked : Stacked s u stackPageSize frame)
    (hcleared : Cleared P u t) :
    ∃ j, frame j = some f := by
  have hbit : u.pmm.bit f = true := by
    rw [← hcleared.bit f (hstacked.count ▸ hnew.lt)]
    exact hnew.taken
  obtain hold | hframe | htable := hstacked.bits f hnew.lt hbit
  · rw [hnew.free] at hold
    cases hold
  · exact hframe
  · exact absurd ((hcleared.tables f).mpr htable) hnew.plain

section Parts

variable {frame : Nat → Option Nat} (h : Booted boot s) (hgood : Good s)
  (hstacked : Stacked s u stackPageSize frame)
  (hcleared : Cleared (fun q => q = guardPage ∨
    (0x100 ≤ q ∧ q < lowUnmapEnd boot.toLayout / 4096)) u t)

include h hcleared

/-- Pages of the high half other than the guard page are not taken down. -/
theorem high_kept {q : Nat} (hhigh : kernelVirtualBase / 4096 ≤ q) (hguard : q ≠ guardPage) :
    t.pageMap q = u.pageMap q := by
  obtain ⟨n, hn, hbytes⟩ := h.tables
  have hle := h.lowUnmapEnd_iff.1
  have hkvb : kernelVirtualBase = 0xC0000000 := rfl
  refine hcleared.kept q fun hbad => ?_
  obtain hbad | hbad := hbad
  · exact hguard hbad
  · omega

include hstacked

/-- A low page beyond the end of memory stays. -/
theorem whole_of_low
    (hlow : ∀ q, 0x100 ≤ q → q < kernelVirtualBase / 4096 → t.pageMap q = none) :
    boot.availMemoryKib.toNat % 4096 = 0 ∨ 4093 ≤ boot.availMemoryKib.toNat % 4096 := by
  obtain ⟨n, hn, hbytes⟩ := h.tables
  obtain ⟨hle, hiff⟩ := h.lowUnmapEnd_iff
  obtain ⟨halign, -⟩ := lowUnmapEnd_aligned boot.toLayout
  refine hiff.mp ?_
  by_contra hne
  have hkvb : kernelVirtualBase = 0xC0000000 := rfl
  have hguard : guardPage = 0xF6FFF := rfl
  obtain ⟨q, hq, hq'⟩ : ∃ q, (0x100 ≤ q ∧ lowUnmapEnd boot.toLayout ≤ 4096 * q) ∧
      4096 * q < boot.windowBytes :=
    ⟨max 0x100 (lowUnmapEnd boot.toLayout / 4096), by omega, by omega⟩
  obtain ⟨page, hpage⟩ := h.low_some hq'
  have hkept : t.pageMap q = u.pageMap q := hcleared.kept q (by omega)
  rw [hlow q (by omega) (by omega), hstacked.keeps q page hpage] at hkept
  cases hkept

/-- A stack in the window has no frames of its own. -/
theorem below_of_stack {f : Nat} (hnew : NewFrame s t f) :
    physWindowBase + boot.windowBytes ≤ stackVirtualBase := by
  by_contra hover
  obtain ⟨j, hj⟩ := hnew.of_stacked hstacked hcleared
  obtain ⟨page, hpage⟩ := h.stack_some (hstacked.own j f hj).1 (by omega)
  rw [hstacked.absent j f hj] at hpage
  cases hpage

include hgood

/-- Everything that the new page table of the stack held would still be there. -/
theorem blank_of_done (hdone : RemapDone boot.toLayout s t) : StackTableBlank s := by
  intro f pmm hres
  have hsize : stackPageSize = 16 := rfl
  have hpages : ∀ j, stackPage j = 0xF7000 + j := fun _ => rfl
  have hguardPage : guardPage = 0xF6FFF := rfl
  have hkvb : kernelVirtualBase = 0xC0000000 := rfl
  obtain ⟨stackFrame, hstack, hinj⟩ := hdone.stack
  have hbelow := below_of_stack h hstacked hcleared (hstack 0 (by decide)).2
  obtain ⟨f', pmm', v, hres', hmap, hkeep, hbefore⟩ :=
    hstacked.first (by decide) (h.stack_none (by rw [hpages]) hbelow)
  obtain ⟨-, heq⟩ := Prod.mk.inj (Except.ok.inj (hres.symm.trans hres'))
  obtain ⟨hf, rfl⟩ := Prod.mk.inj heq
  obtain rfl : f = f' := by
    have := Option.some.inj hf
    omega
  obtain ⟨hbad, -⟩ | ⟨g, -, hg, hsecured⟩ := Pmm.reservePageframe_spec hgood.sound hres
  · exact absurd rfl hbad
  obtain rfl : f = g := by
    have := Option.some.inj hg
    omega
  have hgood' := secured_good hgood hsecured
  have hlt : f < 2 ^ 20 := hgood.sound.lt_pow hsecured.lt
  have hvirt : stackVirtualBase < 2 ^ 32 := by decide
  obtain ⟨-, hadded⟩ | ⟨hbad, -⟩ := pagingMapPage_result hgood' hvirt (by decide) hlt hmap
  swap
  · exact absurd rfl hbad
  refine (pagingMapPage_newTable_iff hgood'.dirSafe (by omega) _).mp ⟨fun _ => ?_, ?_⟩
  · refine ⟨v, hmap, fun j hj => ?_⟩
    have hpti : ptiOf stackVirtualBase = 0 := rfl
    have hpdi : pdiOf stackVirtualBase = 988 := rfl
    rw [hpti, hpdi]
    by_cases hj0 : j = 0
    · subst hj0
      rw [if_pos rfl, Nat.mul_div_cancel_left f (by omega)]
      exact hadded.added
    · rw [if_neg hj0]
      cases hpage : v.pageMap (1024 * 988 + j) with
      | none => rfl
      | some page =>
          -- the page is still there at the end
          have hkept : t.pageMap (1024 * 988 + j) = some page := by
            rw [high_kept h hcleared (by omega) (by omega)]
            exact hkeep _ page hpage
          by_cases hj16 : j < stackPageSize
          · have hq : 1024 * 988 + j = stackPage j := by rw [hpages]
            rw [hq] at hkept hpage
            obtain ⟨hframe, hnew⟩ := hstack j hj16
            rw [hkept, Option.map_some, Option.some.injEq] at hframe
            obtain ⟨k, hk⟩ := hnew.of_stacked hstacked hcleared
            obtain ⟨hk16, hkframe, -⟩ := hstacked.own k _ hk
            rw [← high_kept h hcleared (by rw [hpages]; omega) (by rw [hpages]; omega),
              (hstack k hk16).1, Option.some.injEq] at hkframe
            obtain rfl := hinj k j hk16 hj16 hkframe
            rw [hbefore k _ (by omega) hk] at hpage
            cases hpage
          · rw [hdone.rest _ (by omega) (by omega) (fun k hk => by rw [hpages]; omega),
              h.stack_none (by omega) hbelow] at hkept
            cases hkept
  · intro status w hret hfail
    obtain ⟨rfl, -⟩ := Prod.mk.inj (Except.ok.inj (hmap.symm.trans hret))
    exact absurd rfl hfail

omit hgood

theorem done_of_fits (hfits : RemapFits boot s) : RemapDone boot.toLayout s t := by
  obtain ⟨n, hn, hbytes⟩ := h.tables
  have hsize : stackPageSize = 16 := rfl
  have hpages : ∀ j, stackPage j = 0xF7000 + j := fun _ => rfl
  have hguardPage : guardPage = 0xF6FFF := rfl
  have hkvb : kernelVirtualBase = 0xC0000000 := rfl
  have hend := h.lowUnmapEnd_iff.2.mpr hfits.whole
  have hnone : ∀ j, j < stackPageSize → s.pageMap (stackPage j) = none :=
    fun j hj => h.stack_none (by rw [hpages]; omega) hfits.below
  have hexact := hstacked.exact hfits.blank
  choose! stackFrame hframe using hstacked.fresh hfits.blank hnone
  refine ⟨fun q hq hlow => ?_, hcleared.gone _ (.inl rfl), ⟨stackFrame, fun j hj => ?_, ?_⟩,
    fun i hi => ?_, fun q hq hguard hstack => ?_⟩
  · by_cases hin : q < lowUnmapEnd boot.toLayout / 4096
    · exact hcleared.gone q (.inr ⟨hq, hin⟩)
    · rw [hcleared.kept q (by omega), hexact q fun j _ => by rw [hpages]; omega]
      exact h.low_none (by omega) hlow
  · obtain ⟨-, hown, hnew⟩ := hstacked.own j _ (hframe j hj)
    rw [high_kept h hcleared (by rw [hpages]; omega) (by rw [hpages]; omega)]
    refine ⟨hown, hnew.lt, hnew.free, ?_, fun htable => hnew.plain ((hcleared.tables _).mp htable)⟩
    rw [hcleared.bit _ (hstacked.count ▸ hnew.lt)]
    exact hnew.taken
  · intro j k hj hk heq
    exact hstacked.inj j k (stackFrame k) (heq ▸ hframe j hj) (hframe k hk)
  · have hi' := h.pages
    obtain ⟨page, hpage, haddr⟩ := Option.map_eq_some_iff.mp (h.image i hi)
    rw [high_kept h hcleared (by omega) (by omega), hstacked.keeps _ page hpage, Option.map_some,
      haddr]
  · rw [high_kept h hcleared hq hguard, hexact q hstack]

end Parts

/-- The move does its work if and only if memory ends in the last page before a multiple of 4 MiB,
the window of physical memory ends below the stack, and the frame that becomes the stack's page
table is blank. -/
theorem remap_done_iff {symbols : Symbols} (hkernel : boot.kernelPhysAddress.toNat = 0x100000)
    (himage : 0x100000 < boot.kernelEnd.toNat) (hroom : boot.Roomy)
    (hinit : memInit boot = .ok s) (hreach : s.Reachable)
    (hret : kernelHighhalfRemap boot.toLayout symbols s = .ok t) :
    RemapDone boot.toLayout s t ↔ RemapFits boot s := by
  have hbooted := memInit_booted hkernel himage hroom hinit
  have hlive : Live s := ⟨hbooted.good hreach, hbooted.mapped.loaded⟩
  obtain ⟨u, frame, hstacked, hcleared⟩ :=
    kernelHighhalfRemap_parts hlive hbooted.pages hbooted.image hret
  constructor
  · intro hdone
    obtain ⟨stackFrame, hstack, -⟩ := hdone.stack
    exact ⟨whole_of_low hbooted hstacked hcleared hdone.low,
      below_of_stack hbooted hstacked hcleared (hstack 0 (by decide)).2,
      blank_of_done hbooted hlive.good hstacked hcleared hdone⟩
  · intro hfits
    exact done_of_fits hbooted hstacked hcleared hfits

end Unidos
