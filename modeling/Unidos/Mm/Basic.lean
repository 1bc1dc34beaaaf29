import Unidos.Paging.Map
import Unidos.Lib.Chain

/-!
# Address spaces

After `kernel/mm.c` and `kernel/vma.c`. Address spaces and regions are records in two pools; a
pointer to a record is the number of its slot, and the null pointer is `none`. Page directories,
page tables, and pages are ordinary memory.

The pools grow on demand: `dpage_alloc` finds a free slot and maps the pages under it. Which
frames that takes, and whether it succeeds, is left open here. The stream `demand` holds the
outcomes, one for each call, and `poolFrames` lists the frames that went into the pools.
-/

namespace Unidos.Mm

open Lib

/-- `vma_type_t`; `unset` is the zero that `vma_alloc` stores. -/
inductive VmaType where
  | unset
  | text
  | rodata
  | data
  | bss
  | stack
  | heap
  | anon
  deriving DecidableEq, Repr

/-- `vma_t`. -/
structure Vma where
  start : Nat
  endAddr : Nat
  type : VmaType
  prot : BitVec 32
  next : Option Nat
  slotId : Nat
  deriving DecidableEq

/-- Fill in what a region covers. -/
def Vma.describe (vma : Vma) (start endAddr : Nat) (type : VmaType) (prot : BitVec 32) : Vma :=
  { vma with start := start, endAddr := endAddr, type := type, prot := prot }

/-- `mm_t`. -/
structure MmStruct where
  cr3Phys : Nat
  refcount : Nat
  userBase : Nat
  userLimit : Nat
  pageCount : Nat
  slotId : Nat
  vmaHead : Option Nat
  deriving DecidableEq

/-- A record in freshly zeroed memory. -/
def MmStruct.zero : MmStruct := ⟨0, 0, 0, 0, 0, 0, none⟩

/-- How mapping the pages under a pool slot goes: the number of frames it takes, and whether it
succeeds once it has them. -/
structure Demand where
  frames : Nat
  ok : Bool

/-- Both pools over the paging state. -/
structure State where
  paging : Paging.State
  mms : Nat → MmStruct
  mmUsed : Nat → Bool
  vmas : Nat → Vma
  vmaUsed : Nat → Bool
  demand : Nat → Demand
  poolFrames : List Nat

/-- Physical memory. -/
def State.mem (s : State) : Memory := s.paging.pmm.mem

/-- Replace the paging state. -/
def State.withPaging (s : State) (paging : Paging.State) : State := { s with paging := paging }

/-- Replace the state of the memory manager. -/
def State.withPmm (s : State) (pmm : Pmm.State) : State :=
  s.withPaging { s.paging with pmm := pmm }

/-- Replace the contents of memory. -/
def State.withMem (s : State) (mem : Memory) : State := s.withPaging (s.paging.withMem mem)

/-- Replace a record of the pool of address spaces. -/
def State.setMm (s : State) (m : Nat) (mm : MmStruct) : State :=
  { s with mms := Function.update s.mms m mm }

/-- Replace a record of the pool of regions. -/
def State.setVma (s : State) (v : Nat) (vma : Vma) : State :=
  { s with vmas := Function.update s.vmas v vma }

section Projections

variable (s : State) (mem : Memory) (pmm : Pmm.State) (m v : Nat) (mm : MmStruct) (vma : Vma)

@[simp] theorem State.mms_withMem : (s.withMem mem).mms = s.mms := rfl
@[simp] theorem State.mms_withPmm : (s.withPmm pmm).mms = s.mms := rfl
@[simp] theorem State.mms_setVma : (s.setVma v vma).mms = s.mms := rfl
@[simp] theorem State.vmas_withMem : (s.withMem mem).vmas = s.vmas := rfl
@[simp] theorem State.vmas_withPmm : (s.withPmm pmm).vmas = s.vmas := rfl
@[simp] theorem State.vmas_setMm : (s.setMm m mm).vmas = s.vmas := rfl
@[simp] theorem State.paging_setMm : (s.setMm m mm).paging = s.paging := rfl
@[simp] theorem State.paging_setVma : (s.setVma v vma).paging = s.paging := rfl
@[simp] theorem State.mms_setMm_self : (s.setMm m mm).mms m = mm := Function.update_self _ _ _
@[simp] theorem State.vmas_setVma_self : (s.setVma v vma).vmas v = vma :=
  Function.update_self _ _ _
@[simp] theorem State.mem_withMem : (s.withMem mem).mem = mem := rfl
@[simp] theorem State.mem_withPmm : (s.withPmm pmm).mem = pmm.mem := rfl

end Projections

/-- `TEMP_PAGE_VA`: the last page, where a new directory is filled in. -/
def tempPageVa : Nat := 0xFFFFF000

/-- The first directory entry of the kernel half. -/
def maxPde : Nat := kernelVirtualBase / 2 ^ 22

/-- The number of slots that `dpage_alloc` looks at in the pool of address spaces. -/
def mmSlots : Nat := 0x3000000

/-- The number of slots that `dpage_alloc` looks at in the pool of regions. -/
def vmaSlots : Nat := 0x3FFF000

/-! ## Pools -/

/-- Take frames for a pool, one after another, until all are there or memory is out. -/
def takePoolFrames : Nat → State → Bool × State
  | 0, s => (true, s)
  | n + 1, s =>
      let (res, pmm) := Pmm.pmmGetNextAvailableBlock s.paging.pmm
      let s := s.withPmm pmm
      if res.status ≠ .allocSuccess then (false, s)
      else takePoolFrames n { s with poolFrames := res.addr / 4096 :: s.poolFrames }

/-- `dpage_alloc`: the first free slot, if mapping its pages succeeds. The caller marks and zeroes
the slot; a slot that cannot be mapped is free again on return. -/
def dpageAlloc (used : Nat → Bool) (slots : Nat) (s : State) : Option Nat × State :=
  match circFind slots (fun slot => !used slot) slots 0 with
  | none => (none, s)
  | some slot =>
      let outcome := s.demand 0
      let s := { s with demand := fun n => s.demand (n + 1) }
      let (enough, s) := takePoolFrames outcome.frames s
      if enough && outcome.ok then (some slot, s) else (none, s)

/-- `dpage_bm_clear`: mark a slot free. -/
def dpageBmClear (used : Nat → Bool) (slots i : Nat) : Nat → Bool :=
  if i ≥ slots then used else Function.update used i false

/-! ## Regions -/

/-- `vma_alloc`. -/
def vmaAlloc (s : State) : Option Nat × State :=
  match dpageAlloc s.vmaUsed vmaSlots s with
  | (none, s) => (none, s)
  | (some v, s) =>
      (some v, { s.setVma v ⟨0, 0, .unset, 0, none, v⟩ with
        vmaUsed := Function.update s.vmaUsed v true })

/-- `vma_free`. -/
def vmaFree (s : State) (v : Nat) : State :=
  { s with vmaUsed := dpageBmClear s.vmaUsed vmaSlots (s.vmas v).slotId }

/-- The links of the region lists. -/
def State.vmaNext (s : State) (v : Nat) : Option Nat := (s.vmas v).next

/-- Make region `v` the first of the list of `m`. -/
def State.linkFront (s : State) (m v : Nat) : State :=
  (s.setVma v { s.vmas v with next := (s.mms m).vmaHead }).setMm m
    { s.mms m with vmaHead := some v }

/-- Link region `v` behind region `c`. -/
def State.linkAfter (s : State) (c v : Nat) : State :=
  let s := s.setVma v { s.vmas v with next := s.vmaNext c }
  s.setVma c { s.vmas c with next := some v }

/-- Where the loop of `vma_insert` ends: at the last region, or before one that does not start
below the new one. -/
def State.insertStop (s : State) (v c : Nat) : Bool :=
  match s.vmaNext c with
  | none => true
  | some n => decide (¬ (s.vmas n).start < (s.vmas v).start)

/-- `vma_insert`. -/
def vmaInsert (s : State) (m v : Nat) : Except Trap State :=
  match (s.mms m).vmaHead with
  | none => .ok (s.linkFront m v)
  | some h =>
      if (s.vmas v).start < (s.vmas h).start then .ok (s.linkFront m v)
      else
        match walk s.vmaNext (s.insertStop v) vmaSlots (some h) with
        | some (some c) => .ok (s.linkAfter c v)
        | _ => .error .diverge

/-- `vma_remove`. -/
def vmaRemove (s : State) (m v : Nat) : Except Trap State :=
  match (s.mms m).vmaHead with
  | none => .ok s
  | some h =>
      if h = v then .ok (s.setMm m { s.mms m with vmaHead := s.vmaNext v })
      else
        let stop (c : Nat) := s.vmaNext c == none || s.vmaNext c == some v
        match walk s.vmaNext stop vmaSlots (some h) with
        | some (some c) =>
            if s.vmaNext c = some v then
              .ok (s.setVma c { s.vmas c with next := s.vmaNext v })
            else .ok s
        | _ => .error .diverge

/-- The loop of `vma_destroy_all`. -/
def freeVmas : Nat → Option Nat → State → Except Trap State
  | _, none, s => .ok s
  | 0, some _, _ => .error .diverge
  | fuel + 1, some v, s => freeVmas fuel (s.vmaNext v) (vmaFree s v)

/-- `vma_destroy_all`. -/
def vmaDestroyAll (s : State) (m : Nat) : Except Trap State := do
  let s ← freeVmas vmaSlots (s.mms m).vmaHead s
  .ok (s.setMm m { s.mms m with vmaHead := none })

/-! ## Creation -/

/-- The loop that copies the kernel half of the directory at `src` to the one at `dst`. -/
def copyKernelEntries (mem : Memory) (dst src : Nat) : Memory :=
  mem.copyBytes (dst + 4 * maxPde) (4 * (1024 - maxPde)) fun k => mem (src + 4 * maxPde + k)

/-- `_mm_alloc_pd`: a directory with an empty user half, or `0`. The writes through the temporary
page go to the frame it is mapped to. -/
def mmAllocPd (s : State) : Except Trap (Nat × State) := do
  let (res, pmm) := Pmm.pmmGetNextAvailableBlock s.paging.pmm
  let s := s.withPmm pmm
  if res.status ≠ .allocSuccess then .ok (0, s)
  else
    let phys := res.addr
    let (mapRes, paging) ← Paging.pagingMapPage s.paging tempPageVa phys
      (Paging.pgPresent ||| Paging.pgRw)
    let s := s.withPaging paging
    if mapRes ≠ .ok then .ok (0, s.withPmm (Pmm.pmmDeallocSpecificBlock s.paging.pmm phys).2)
    else
      let s := s.withMem (s.mem.fillBytes phys 4096 0)
      let kernelPd ← physToVirt s.paging.pageDirectoryLocPhys
      let s := s.withMem (copyKernelEntries s.mem phys kernelPd)
      let (unmapStatus, unmapPhys, paging) ← Paging.pagingUnmapPage s.paging tempPageVa
      let s := s.withPaging paging
      if unmapStatus ≠ .ok then
        .error (.panic "Failed to unmap temporary page used for MM PD allocation")
      else if unmapPhys ≠ phys then
        .error (.panic
          "Physical address mismatch when unmapping temporary page used for MM PD allocation")
      else .ok (phys, s)

/-- `_mm_alloc_mm`. -/
def mmAllocMm (s : State) : Option Nat × State :=
  match dpageAlloc s.mmUsed mmSlots s with
  | (none, s) => (none, s)
  | (some m, s) =>
      (some m, { s.setMm m .zero with mmUsed := Function.update s.mmUsed m true })

/-- `mm_create`. -/
def mmCreate (s : State) : Except Trap (Option Nat × State) := do
  let (pd, s) ← mmAllocPd s
  if pd = 0 then .ok (none, s)
  else
    match mmAllocMm s with
    | (none, s) => .ok (none, s.withPmm (Pmm.pmmDeallocSpecificBlock s.paging.pmm pd).2)
    | (some m, s) =>
        .ok (some m, s.setMm m { s.mms m with
          cr3Phys := pd
          refcount := 1
          userBase := 0
          userLimit := kernelVirtualBase
          pageCount := 0
          slotId := m })

/-! ## Destruction -/

/-- Free the pages of the table at `pt`. -/
def freePages (pt : Nat) (pmm : Pmm.State) : Pmm.State :=
  (List.range 1024).foldl (fun pmm j =>
    let entry := pmm.mem.readWord (pt + 4 * j)
    if entryPresent entry then (Pmm.pmmDeallocSpecificBlock pmm (entryPhys entry)).2 else pmm) pmm

/-- Free the pages and the table behind entry `i` of the directory at `pd`. -/
def freeTable (pd : Nat) (pmm : Pmm.State) (i : Nat) : Except Trap Pmm.State :=
  let entry := pmm.mem.readWord (pd + 4 * i)
  if entryPresent entry = false then .ok pmm
  else do
    let pt ← physToVirt (entryPhys entry)
    .ok (Pmm.pmmDeallocSpecificBlock (freePages pt pmm) (entryPhys entry)).2

/-- The part of `mm_destroy` that gives back the frames and the slot. -/
def destroyFrames (s : State) (m : Nat) : Except Trap State := do
  let pd ← physToVirt (s.mms m).cr3Phys
  let pmm ← (List.range maxPde).foldlM (freeTable pd) s.paging.pmm
  let s := s.withPmm (Pmm.pmmDeallocSpecificBlock pmm (s.mms m).cr3Phys).2
  .ok { s with mmUsed := dpageBmClear s.mmUsed mmSlots (s.mms m).slotId }

/-- `mm_destroy`. -/
def mmDestroy (s : State) (mm : Option Nat) : Except Trap State :=
  match mm with
  | none => .ok s
  | some m =>
      if s.paging.cr3 / 4096 * 4096 = (s.mms m).cr3Phys then
        .error (.panic "mm_destroy: attempted to destroy the active address space")
      else do
        let s ← vmaDestroyAll s m
        destroyFrames s m

/-- `mm_switch`. -/
def mmSwitch (s : State) (mm : Option Nat) : State :=
  match mm with
  | none => s
  | some m =>
      if s.paging.cr3 / 4096 * 4096 = (s.mms m).cr3Phys / 4096 * 4096 then s
      else s.withPaging { s.paging with cr3 := (s.mms m).cr3Phys }

/-! ## Mapping a region -/

/-- One more page in the books of `m`. -/
def State.countPage (s : State) (m : Nat) : State :=
  s.setMm m { s.mms m with pageCount := ((s.mms m).pageCount + 1) % 2 ^ 32 }

/-- The page table behind entry `pdi` of the directory at `pd`, made if it is not there. The
boolean is false if there is no frame for it. -/
def ensureUserTable (s : State) (pd pdi : Nat) : Except Trap (Bool × State) :=
  if entryPresent (s.mem.readWord (pd + 4 * pdi)) then .ok (true, s)
  else
    let (res, pmm) := Pmm.pmmGetNextAvailableBlock s.paging.pmm
    let s := s.withPmm pmm
    if res.status ≠ .allocSuccess then .ok (false, s)
    else do
      let newPt ← physToVirt res.addr
      let s := s.withMem (s.mem.fillBytes newPt 4096 0)
      .ok (true, s.withMem (s.mem.writeWord (pd + 4 * pdi)
        (mkEntry res.addr (Paging.pgPresent ||| Paging.pgRw ||| Paging.pgUser))))

/-- What `mm_map_region` fills its pages with: the bytes, and how many there are. -/
structure InitialData where
  bytes : Nat → Byte
  size : Nat

/-- The bytes for the next page: those not yet copied, a page of them at most. -/
def InitialData.toCopy (data : Option InitialData) (dataCopied : Nat) : Nat :=
  match data with
  | none => 0
  | some d => min (d.size - dataCopied) 4096

/-- Clear the page at `page`, and copy its share of the initial data. -/
def initPage (mem : Memory) (page : Nat) (data : Option InitialData) (dataCopied : Nat) :
    Memory :=
  let mem := mem.fillBytes page 4096 0
  match data with
  | none => mem
  | some d => mem.copyBytes page (InitialData.toCopy data dataCopied) fun k =>
      d.bytes (dataCopied + k)

/-- One round of the loop of `mm_map_region`, with the number of bytes copied so far. The boolean
is false if there is no frame for the page or for its table. -/
def mapPage (m pd vaStart : Nat) (pteFlags : BitVec 32) (data : Option InitialData)
    (loop : State × Nat) (p : Nat) : Except Trap (Bool × State × Nat) :=
  let (s, dataCopied) := loop
  let va := (vaStart + p * 4096) % 2 ^ 32
  let pdi := va / 2 ^ 22
  let pti := va / 4096 % 1024
  let (res, pmm) := Pmm.pmmGetNextAvailableBlock s.paging.pmm
  let s := s.withPmm pmm
  if res.status ≠ .allocSuccess then .ok (false, s, dataCopied)
  else do
    let (there, s) ← ensureUserTable s pd pdi
    if there = false then
      .ok (false, s.withPmm (Pmm.pmmDeallocSpecificBlock s.paging.pmm res.addr).2, dataCopied)
    else
      let pt ← physToVirt (entryPhys (s.mem.readWord (pd + 4 * pdi)))
      let s := s.withMem (s.mem.writeWord (pt + 4 * pti) (mkEntry res.addr pteFlags))
      let page ← physToVirt res.addr
      let s := s.withMem (initPage s.mem page data dataCopied)
      .ok (true, s.countPage m, dataCopied + InitialData.toCopy data dataCopied)

/-- `VMA_PROT_WRITE`. -/
def vmaProtWrite : BitVec 32 := 2

/-- `mm_map_region`. `initial_data` and its size are one argument, `none` for a null pointer. -/
def mmMapRegion (s : State) (mm : Option Nat) (vaStart size : BitVec 32) (type : VmaType)
    (prot : BitVec 32) (data : Option InitialData) : Except Trap (Int × State) :=
  match mm with
  | none => .ok (-1, s)
  | some m =>
      if size.toNat = 0 then .ok (-1, s)
      else if vaStart.toNat % 4096 ≠ 0 then .ok (-1, s)
      else if size.toNat % 4096 ≠ 0 then .ok (-1, s)
      else if vaStart.toNat < (s.mms m).userBase ∨
          (vaStart + size).toNat > (s.mms m).userLimit then .ok (-1, s)
      else
        match vmaAlloc s with
        | (none, s) => .ok (-1, s)
        | (some v, s) => do
            let s := s.setVma v
              ((s.vmas v).describe vaStart.toNat (vaStart + size).toNat type prot)
            let pteFlags := Paging.pgPresent ||| Paging.pgUser |||
              (if prot &&& vmaProtWrite ≠ 0 then Paging.pgRw else 0)
            let pd ← physToVirt (s.mms m).cr3Phys
            let (done, s, _) ← forOk (mapPage m pd vaStart.toNat pteFlags data)
              (List.range (size.toNat / 4096)) (s, 0)
            if done then
              let s ← vmaInsert s m v
              .ok (0, s)
            else
              let s ← vmaRemove s m v
              .ok (-1, vmaFree s v)

/-! ## Cloning -/

/-- Copy entry `j` of the parent's table, and the page behind it. The boolean is false if there is
no frame for the copy. -/
def clonePage (child parentPt childPt : Nat) (s : State) (j : Nat) : Except Trap (Bool × State) :=
  let entry := s.mem.readWord (parentPt + 4 * j)
  if entryPresent entry = false then .ok (true, s)
  else
    let (res, pmm) := Pmm.pmmGetNextAvailableBlock s.paging.pmm
    let s := s.withPmm pmm
    if res.status ≠ .allocSuccess then .ok (false, s)
    else do
      let src ← physToVirt (entryPhys entry)
      let dst ← physToVirt res.addr
      let s := s.withMem (s.mem.copyBytes dst 4096 fun k => s.mem (src + k))
      let s := s.withMem (s.mem.writeWord (childPt + 4 * j)
        (mkEntry res.addr (entryFlags entry)))
      .ok (true, s.countPage child)

/-- Copy entry `i` of the parent's directory, with the table and the pages behind it. -/
def cloneTable (child parentPd childPd : Nat) (s : State) (i : Nat) :
    Except Trap (Bool × State) :=
  let entry := s.mem.readWord (parentPd + 4 * i)
  if entryPresent entry = false then .ok (true, s)
  else
    let (res, pmm) := Pmm.pmmGetNextAvailableBlock s.paging.pmm
    let s := s.withPmm pmm
    if res.status ≠ .allocSuccess then .ok (false, s)
    else do
      let parentPt ← physToVirt (entryPhys entry)
      let childPt ← physToVirt res.addr
      let s := s.withMem (s.mem.fillBytes childPt 4096 0)
      let s := s.withMem (s.mem.writeWord (childPd + 4 * i)
        (mkEntry res.addr (entryFlags entry)))
      forOk (clonePage child parentPt childPt) (List.range 1024) s

/-- Copy the regions from `pvma` on into the list of the child. -/
def cloneVmas (child : Nat) : Nat → Option Nat → State → Except Trap (Bool × State)
  | _, none, s => .ok (true, s)
  | 0, some _, _ => .error .diverge
  | fuel + 1, some pvma, s =>
      match vmaAlloc s with
      | (none, s) => .ok (false, s)
      | (some cvma, s) => do
          let s := s.setVma cvma ((s.vmas cvma).describe (s.vmas pvma).start
            (s.vmas pvma).endAddr (s.vmas pvma).type (s.vmas pvma).prot)
          let s ← vmaInsert s child cvma
          cloneVmas child fuel (s.vmaNext pvma) s

/-- Copy the user half of the parent, tables first, then regions. -/
def cloneUser (s : State) (parent child : Nat) : Except Trap (Bool × State) := do
  let parentPd ← physToVirt (s.mms parent).cr3Phys
  let childPd ← physToVirt (s.mms child).cr3Phys
  let (done, s) ← forOk (cloneTable child parentPd childPd) (List.range maxPde) s
  if done then cloneVmas child vmaSlots (s.mms parent).vmaHead s else .ok (false, s)

/-- `mm_clone_user_eager`. -/
def mmCloneUserEager (s : State) (parent : Option Nat) : Except Trap (Option Nat × State) :=
  match parent with
  | none => .ok (none, s)
  | some parent => do
      let (child, s) ← mmCreate s
      match child with
      | none => .ok (none, s)
      | some child =>
          let (done, s) ← cloneUser s parent child
          if done then .ok (some child, s)
          else
            let s ← mmDestroy s (some child)
            .ok (none, s)

end Unidos.Mm
