import Unidos.Paging.Boot
import Unidos.Pmm.Frames

/-!
# Mapping pages of the kernel

`paging_map_page` and `paging_unmap_page` edit the kernel's page directory through the physical
window. The kernel's directory and tables are `State.KernelFrame`s; `State.Tables` is what the two
functions rely on and keep. `EnsureTable` and `pagingMapPage_cases` list what a call can do to
memory and to the memory manager.
-/

namespace Unidos.Paging

open Lib

/-- `pt_ptr_from_pdi`: the page table behind a directory entry, if both records know it. -/
def ptPtrFromPdi (s : State) (pdi : Nat) : Except Trap (Option Nat) :=
  if pdi > 0x3FF ∨ s.pageTablesLocPhys pdi = 0 then .ok none
  else do
    let pd ← physToVirt s.pageDirectoryLocPhys
    if entryPresent (s.pmm.mem.readWord (pd + 4 * pdi)) = false then .ok none
    else
      let pt ← physToVirt (s.pageTablesLocPhys pdi)
      .ok (some pt)

/-- Enter a new page table into the directory at `pd` and into the table of page tables. -/
def State.enterTable (s : State) (pd pdi ptPhys : Nat) (entry : BitVec 32) : State :=
  { s.withMem (s.pmm.mem.writeWord (pd + 4 * pdi) entry) with
    pageTablesLocPhys := Function.update s.pageTablesLocPhys pdi ptPhys
    pageTableCount := s.pageTableCount + 1 }

/-- The part of `paging_map_page` that looks after the directory entry. A new page table is not
cleared. -/
def ensureTable (s : State) (pd pdi : Nat) (flags : BitVec 32) : PagingStatus × State :=
  if entryPresent (s.pmm.mem.readWord (pd + 4 * pdi)) = false then
    if s.pageTableCount ≥ ptMax then (.errNomem, s)
    else
      let (res, pmm) := Pmm.pmmGetNextAvailableBlock s.pmm
      let s := { s with pmm := pmm }
      if res.status ≠ .allocSuccess then (.errNomem, s)
      else
        let user := if flags &&& pgUser ≠ 0 then pgUser else 0
        (.ok, s.enterTable pd pdi res.addr
          (BitVec.ofNat 32 res.addr ||| user ||| pgPresent ||| pgRw))
  else if flags &&& pgUser ≠ 0 ∧ s.pmm.mem.readWord (pd + 4 * pdi) &&& pgUser = 0 then
    (.errPtUserFlagMismatch, s)
  else (.ok, s)

/-- `paging_map_page`, called with a null `out_addr`. -/
def pagingMapPage (s : State) (virtAddr physAddr : Nat) (flags : BitVec 32) :
    Except Trap (PagingStatus × State) :=
  if s.pageDirectoryLocPhys = 0 then .ok (.errNotInitialized, s)
  else if virtAddr % 4096 ≠ 0 ∨ physAddr % 4096 ≠ 0 then .ok (.errAlign, s)
  else if virtAddr ≥ kernelVirtualBase ∧ flags &&& pgUser ≠ 0 then
    .ok (.errUserFlagInKernelSpace, s)
  else if virtAddr < kernelVirtualBase ∧ flags &&& pgUser = 0 then
    .ok (.errKernelFlagInUserSpace, s)
  else do
    let pdi := virtAddr / 2 ^ 22 % 1024
    let pti := virtAddr / 4096 % 1024
    let pd ← physToVirt s.pageDirectoryLocPhys
    let (status, s) := ensureTable s pd pdi flags
    if status ≠ .ok then .ok (status, s)
    else
      let pt? ← ptPtrFromPdi s pdi
      match pt? with
      | none => .ok (.errFailedRetrievePt, s)
      | some pt =>
          if entryPresent (s.pmm.mem.readWord (pt + 4 * pti)) then .ok (.errAlreadyMapped, s)
          else
            .ok (.ok, s.withMem (s.pmm.mem.writeWord (pt + 4 * pti)
              (BitVec.ofNat 32 (physAddr / 4096 * 4096) ||| (flags &&& 0xFFF) ||| pgPresent)))

/-- `paging_unmap_page`, with the address it stores in `out_phys_addr`. -/
def pagingUnmapPage (s : State) (virtAddr : Nat) : Except Trap (PagingStatus × Nat × State) :=
  if s.pageDirectoryLocPhys = 0 then .ok (.errNotInitialized, 0, s)
  else if virtAddr % 4096 ≠ 0 then .ok (.errAlign, 0, s)
  else do
    let pdi := virtAddr / 2 ^ 22 % 1024
    let pti := virtAddr / 4096 % 1024
    let pd ← physToVirt s.pageDirectoryLocPhys
    if entryPresent (s.pmm.mem.readWord (pd + 4 * pdi)) = false then .ok (.errNotMapped, 0, s)
    else
      let pt? ← ptPtrFromPdi s pdi
      match pt? with
      | none => .ok (.errFailedRetrievePt, 0, s)
      | some pt =>
          let entry := s.pmm.mem.readWord (pt + 4 * pti)
          if entryPresent entry = false then .ok (.errNotMapped, 0, s)
          else .ok (.ok, entryPhys entry, s.withMem (s.pmm.mem.writeWord (pt + 4 * pti) 0))

/-! ## What they can do -/

theorem physToVirt_eq_ok {addr virt : Nat} (h : physToVirt addr = .ok virt) : virt = addr := by
  unfold physToVirt at h
  split at h
  · simp at h
  · exact (Except.ok.inj h).symm

/-- The window covers the physical addresses below `0x30000000`. -/
theorem physToVirt_of_lt {addr : Nat} (h : addr < 0x30000000) : physToVirt addr = .ok addr := by
  have hno : ¬ addr + physWindowBase ≥ 2 ^ 32 := by
    unfold physWindowBase
    omega
  rw [physToVirt, if_neg hno]

/-- The page directory of the kernel, or one of its page tables. -/
def State.KernelFrame (s : State) (f : Nat) : Prop :=
  s.pageDirectoryLocPhys = 4096 * f ∨
    ∃ i, i < 1024 ∧ s.pageTablesLocPhys i ≠ 0 ∧ s.pageTablesLocPhys i = 4096 * f

/-- The records of the kernel's tables agree with its directory. -/
structure State.Tables (s : State) : Prop where
  dir_aligned : s.pageDirectoryLocPhys % 4096 = 0
  table_aligned : ∀ i, i < 1024 → s.pageTablesLocPhys i % 4096 = 0
  table_ne_dir : ∀ i, i < 1024 → s.pageTablesLocPhys i ≠ 0 →
    s.pageTablesLocPhys i ≠ s.pageDirectoryLocPhys
  table_present : ∀ i, i < 1024 → s.pageTablesLocPhys i ≠ 0 →
    entryPresent (s.pmm.mem.readWord (s.pageDirectoryLocPhys + 4 * i)) = true

/-- Memory that agrees on the kernel's directory keeps the records in agreement. -/
theorem State.Tables.withPmm {s : State} (h : s.Tables) {pmm : Pmm.State}
    (hmem : ∀ d, s.pageDirectoryLocPhys = 4096 * d → AgreeOn s.pmm.mem pmm.mem d) :
    State.Tables { s with pmm := pmm } := by
  refine ⟨h.dir_aligned, h.table_aligned, h.table_ne_dir, fun i hi hne => ?_⟩
  have hdir : s.pageDirectoryLocPhys = 4096 * (s.pageDirectoryLocPhys / 4096) := by
    have := h.dir_aligned
    omega
  have hentry := (hmem _ hdir).tableEntry hi
  unfold tableEntry at hentry
  rw [← hdir] at hentry
  exact (congrArg entryPresent hentry).trans (h.table_present i hi hne)

/-- What looking after a directory entry can do. -/
inductive EnsureTable (s : State) (pdi : Nat) : State → Prop where
  | same : EnsureTable s pdi s
  | added {f : Nat} {pmm : Pmm.State} {entry : BitVec 32}
      (htook : Pmm.Took s.pmm f pmm)
      (habsent : entryPresent (s.pmm.mem.readWord (s.pageDirectoryLocPhys + 4 * pdi)) = false)
      (hentry : entryPresent entry = true) :
      EnsureTable s pdi
        (({ s with pmm := pmm } : State).enterTable s.pageDirectoryLocPhys pdi (4096 * f) entry)

theorem entryPresent_or_present (w flags : BitVec 32) :
    entryPresent (w ||| pgPresent ||| flags) = true := by
  simp [entryPresent_eq, pgPresent]

variable {s t : State}

theorem ensureTable_spec (hs : s.pmm.Sound) (pdi : Nat) (flags : BitVec 32) :
    EnsureTable s pdi (ensureTable s s.pageDirectoryLocPhys pdi flags).2 := by
  have hnext := Pmm.getNext_spec hs
  unfold ensureTable
  generalize Pmm.pmmGetNextAvailableBlock s.pmm = r at hnext
  split
  · rename_i habsent
    split
    · exact .same
    · cases hnext with
      | oom => exact .same
      | found htook => exact .added htook habsent (entryPresent_or_present _ _)
  · split
    · exact .same
    · exact .same

theorem ptPtrFromPdi_eq_some {pdi pt : Nat} (h : ptPtrFromPdi s pdi = .ok (some pt)) :
    pt = s.pageTablesLocPhys pdi ∧ s.pageTablesLocPhys pdi ≠ 0 := by
  unfold ptPtrFromPdi at h
  split at h
  · simp at h
  · rename_i hknown
    obtain ⟨pd, -, h⟩ := bind_eq_ok.mp h
    split at h
    · simp at h
    · obtain ⟨pt', hpt, h⟩ := bind_eq_ok.mp h
      have heq : pt' = pt := by simpa using h
      subst heq
      exact ⟨physToVirt_eq_ok hpt, fun hzero => hknown (.inr hzero)⟩

/-- A call of `paging_map_page` may add a page table, and then may write one entry of the page
table it found. -/
theorem pagingMapPage_cases {virt phys : Nat} {flags : BitVec 32} {status : PagingStatus}
    (hret : pagingMapPage s virt phys flags = .ok (status, t)) (hs : s.pmm.Sound) :
    ∃ u, EnsureTable s (virt / 2 ^ 22 % 1024) u ∧
      (t = u ∨ (u.pageTablesLocPhys (virt / 2 ^ 22 % 1024) ≠ 0 ∧
        ∃ entry, t = u.withMem (u.pmm.mem.writeWord
          (u.pageTablesLocPhys (virt / 2 ^ 22 % 1024) + 4 * (virt / 4096 % 1024)) entry))) := by
  have hkeep : (status, s) = (status, t) → ∃ u, EnsureTable s (virt / 2 ^ 22 % 1024) u ∧
      (t = u ∨ (u.pageTablesLocPhys (virt / 2 ^ 22 % 1024) ≠ 0 ∧
        ∃ entry, t = u.withMem (u.pmm.mem.writeWord
          (u.pageTablesLocPhys (virt / 2 ^ 22 % 1024) + 4 * (virt / 4096 % 1024)) entry))) :=
    fun h => ⟨s, .same, .inl (congrArg Prod.snd h).symm⟩
  unfold pagingMapPage at hret
  split at hret
  · exact hkeep (by simp_all)
  split at hret
  · exact hkeep (by simp_all)
  split at hret
  · exact hkeep (by simp_all)
  split at hret
  · exact hkeep (by simp_all)
  obtain ⟨pd, hpd, hret⟩ := bind_eq_ok.mp hret
  rw [physToVirt_eq_ok hpd] at hret
  have hspec := ensureTable_spec hs (virt / 2 ^ 22 % 1024) flags
  generalize ensureTable s s.pageDirectoryLocPhys (virt / 2 ^ 22 % 1024) flags = r at hret hspec
  obtain ⟨st, u⟩ := r
  refine ⟨u, hspec, ?_⟩
  dsimp only at hret
  split at hret
  · exact .inl (by simp_all)
  · obtain ⟨pt?, hpt, hret⟩ := bind_eq_ok.mp hret
    cases pt? with
    | none => exact .inl (by simp_all)
    | some pt =>
        obtain ⟨rfl, hne⟩ := ptPtrFromPdi_eq_some hpt
        dsimp only at hret
        split at hret
        · exact .inl (by simp_all)
        · simp only [Except.ok.injEq, Prod.mk.injEq] at hret
          exact .inr ⟨hne, _, hret.2.symm⟩

theorem pagingUnmapPage_cases {virt phys : Nat} {status : PagingStatus}
    (hret : pagingUnmapPage s virt = .ok (status, phys, t)) :
    t = s ∨ (s.pageTablesLocPhys (virt / 2 ^ 22 % 1024) ≠ 0 ∧
      t = s.withMem (s.pmm.mem.writeWord
        (s.pageTablesLocPhys (virt / 2 ^ 22 % 1024) + 4 * (virt / 4096 % 1024)) 0)) := by
  unfold pagingUnmapPage at hret
  split at hret
  · exact .inl (by simp_all)
  split at hret
  · exact .inl (by simp_all)
  obtain ⟨pd, -, hret⟩ := bind_eq_ok.mp hret
  split at hret
  · exact .inl (by simp_all)
  obtain ⟨pt?, hpt, hret⟩ := bind_eq_ok.mp hret
  cases pt? with
  | none => exact .inl (by simp_all)
  | some pt =>
      obtain ⟨rfl, hne⟩ := ptPtrFromPdi_eq_some hpt
      dsimp only at hret
      split at hret
      · exact .inl (by simp_all)
      · simp only [Except.ok.injEq, Prod.mk.injEq] at hret
        exact .inr ⟨hne, hret.2.2.symm⟩

end Unidos.Paging
