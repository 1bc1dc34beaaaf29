import Unidos.Paging.Map

/-!
# Querying pages, changing their flags, and reading user memory

`paging_query_page` walks the directory that is loaded, `paging_set_flags` edits the kernel's own.
`copyin` of `kernel/uaccess.c` checks the pages of a range by queries, and reads them through the
loaded directory.
-/

namespace Unidos.Paging

open Lib

/-- `paging_query_result_t`. -/
structure QueryResult where
  mapped : Bool
  physAddr : Nat
  flags : BitVec 32
  deriving DecidableEq, Repr

/-- A result that is all zeros. -/
def QueryResult.zero : QueryResult := ⟨false, 0, 0⟩

/-- `paging_query_page`. A call that is refused at once leaves the result as it was; the callers
then do not look at it. -/
def pagingQueryPage (s : State) (virtAddr : Nat) : Except Trap (PagingStatus × QueryResult) :=
  if s.pageDirectoryLocPhys = 0 then .ok (.errNotInitialized, .zero)
  else do
    let pdi := virtAddr / 2 ^ 22 % 1024
    let pti := virtAddr / 4096 % 1024
    let pd ← physToVirt (s.cr3 / 4096 * 4096)
    let pdEntry := s.pmm.mem.readWord (pd + 4 * pdi)
    if entryPresent pdEntry = false then .ok (.errNotMapped, .zero)
    else
      let pt ← physToVirt (entryPhys pdEntry)
      let ptEntry := s.pmm.mem.readWord (pt + 4 * pti)
      if entryPresent ptEntry = false then .ok (.errNotMapped, .zero)
      else .ok (.ok, ⟨true, entryPhys ptEntry, entryFlags ptEntry⟩)

/-- `paging_set_flags`. -/
def pagingSetFlags (s : State) (virtAddr : Nat) (flags : BitVec 32) :
    Except Trap (PagingStatus × State) :=
  if s.pageDirectoryLocPhys = 0 then .ok (.errNotInitialized, s)
  else if virtAddr % 4096 ≠ 0 then .ok (.errAlign, s)
  else if virtAddr ≥ kernelVirtualBase ∧ flags &&& pgUser ≠ 0 then
    .ok (.errUserFlagInKernelSpace, s)
  else if virtAddr < kernelVirtualBase ∧ flags &&& pgUser = 0 then
    .ok (.errKernelFlagInUserSpace, s)
  else do
    let pdi := virtAddr / 2 ^ 22 % 1024
    let pti := virtAddr / 4096 % 1024
    let pd ← physToVirt s.pageDirectoryLocPhys
    let pdEntry := s.pmm.mem.readWord (pd + 4 * pdi)
    if entryPresent pdEntry = false then .ok (.errNotMapped, s)
    else if flags &&& pgUser ≠ 0 ∧ pdEntry &&& pgUser = 0 then .ok (.errPtUserFlagMismatch, s)
    else
      let pt? ← ptPtrFromPdi s pdi
      match pt? with
      | none => .ok (.errFailedRetrievePt, s)
      | some pt =>
          let ptEntry := s.pmm.mem.readWord (pt + 4 * pti)
          if entryPresent ptEntry = false then .ok (.errNotMapped, s)
          else
            .ok (.ok, s.withMem (s.pmm.mem.writeWord (pt + 4 * pti)
              (BitVec.ofNat 32 (entryPhys ptEntry) ||| (flags &&& 0xFFF) ||| pgPresent)))

/-! ## Reading user memory -/

/-- `range_check` for a user range. -/
def rangeCheckUser (start n : Nat) : Bool :=
  if n = 0 then true
  else
    let last := (start + (n - 1)) % 2 ^ 32
    if last < start then false
    else decide (start < kernelVirtualBase ∧ last < kernelVirtualBase)

/-- Whether a page is mapped for the user. -/
def userPage (s : State) (virtAddr : Nat) : Except Trap Bool := do
  let (status, res) ← pagingQueryPage s virtAddr
  .ok (decide (status = .ok) && res.mapped && decide (res.flags &&& pgUser ≠ 0))

/-- The loop of `copyin` over the pages of the range. -/
def userPages (s : State) : List Nat → Except Trap Bool
  | [] => .ok true
  | va :: pages => do
      let ok ← userPage s va
      if ok then userPages s pages else .ok false

/-- The byte at a virtual address, as the processor reads it through the loaded directory. -/
def loadByte (s : State) (virtAddr : Nat) : Except Trap Byte :=
  let pdEntry := s.pmm.mem.readWord (s.cr3 / 4096 * 4096 + 4 * (virtAddr / 2 ^ 22 % 1024))
  let ptEntry := s.pmm.mem.readWord (entryPhys pdEntry + 4 * (virtAddr / 4096 % 1024))
  if entryPresent pdEntry && entryPresent ptEntry then
    .ok (s.pmm.mem (entryPhys ptEntry + virtAddr % 4096))
  else .error .fault

/-- `copyin` into a buffer of the kernel: the bytes, or `none` for `EFAULT`. -/
def copyin (s : State) (usrc n : Nat) : Except Trap (Option (List Byte)) :=
  if usrc = 0 then .ok none
  else if n = 0 then .ok (some [])
  else if rangeCheckUser usrc n = false then .ok none
  else do
    let firstPage := usrc / 4096
    let lastPage := (usrc + (n - 1)) / 4096
    let ok ← userPages s
      ((List.range (lastPage - firstPage + 1)).map fun k => 4096 * (firstPage + k))
    if ok = false then .ok none
    else
      let bytes ← (List.range n).mapM fun k => loadByte s (usrc + k)
      .ok (some bytes)

end Unidos.Paging
