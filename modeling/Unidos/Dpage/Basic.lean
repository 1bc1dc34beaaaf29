import Unidos.Paging.NewTable

/-!
# Demand-paged pools

After `kernel/dpage.c` and `dpage.h`. A pool is an array of elements at fixed virtual addresses,
with a bitmap of the slots in use somewhere else. Its pages are mapped when an element on them is
allocated for the first time. The bitmap and the elements are reached through the kernel's
directory: `readByte` and `writeByte` are the accesses, which fault on a page that is not mapped.
-/

namespace Unidos.Dpage

open Lib

/-- What the owner of a pool passes to `dpage_alloc`: the address and the size of the bitmap, the
address of the first element, and the size of an element. The size of the pool is passed as well,
and not looked at. -/
structure Pool where
  bitmap : Nat
  base : Nat
  elementSize : Nat
  bitmapSize : Nat

/-- `bitmap_size_bytes * 8` in 32-bit arithmetic. -/
def Pool.slots (pool : Pool) : Nat := pool.bitmapSize * 8 % 2 ^ 32

/-- `dpage_bm_slot_to_vaddr`. -/
def Pool.vaddr (pool : Pool) (slot : Nat) : Nat :=
  (pool.base + slot * pool.elementSize) % 2 ^ 32

/-- `dpage_alloc_status_t`. -/
inductive Status where
  | success
  | pmmInitFailed
  | pgInitFailed
  | noMoreRegionSlots
  deriving DecidableEq, Repr

/-! ## Accesses -/

/-- The physical address behind a virtual one. -/
def physOf (s : Paging.State) (va : Nat) : Option Nat :=
  (s.pageMap (va / 4096)).map fun page => 4096 * page.frame + va % 4096

def readByte (s : Paging.State) (va : Nat) : Except Trap Byte :=
  match physOf s va with
  | none => .error .fault
  | some a => .ok (s.pmm.mem a)

def writeByte (s : Paging.State) (va : Nat) (value : Byte) : Except Trap Paging.State :=
  match physOf s va with
  | none => .error .fault
  | some a => .ok (s.withMem (Function.update s.pmm.mem a value))

/-- The address of the byte of the bitmap with the bit of a slot. -/
def Pool.bitAddr (pool : Pool) (slot : Nat) : Nat := (pool.bitmap + slot / 8) % 2 ^ 32

/-- `dpage_bm_set`. -/
def dpageBmSet (pool : Pool) (s : Paging.State) (slot : Nat) : Except Trap Paging.State :=
  if slot ≥ pool.slots then .ok s
  else do
    let byte ← readByte s (pool.bitAddr slot)
    writeByte s (pool.bitAddr slot) (byte ||| 1#8 <<< (slot % 8))

/-- `dpage_bm_clear`. -/
def dpageBmClear (pool : Pool) (s : Paging.State) (slot : Nat) : Except Trap Paging.State :=
  if slot ≥ pool.slots then .ok s
  else do
    let byte ← readByte s (pool.bitAddr slot)
    writeByte s (pool.bitAddr slot) (byte &&& ~~~(1#8 <<< (slot % 8)))

/-! ## Allocation -/

/-- The search of `dpage_alloc`: the first free slot of the next `n`. -/
def findSlot (pool : Pool) (s : Paging.State) : Nat → Nat → Except Trap (Option Nat)
  | 0, _ => .ok none
  | n + 1, slot => do
      let byte ← readByte s (pool.bitAddr slot)
      if byte &&& 1#8 <<< (slot % 8) = 0 then .ok (some slot)
      else findSlot pool s n (slot + 1)

/-- `need_map`: whether the page is not present in the kernel's directory. -/
def needMap (s : Paging.State) (page : Nat) : Except Trap Bool := do
  let kpd ← physToVirt s.pageDirectoryLocPhys
  let entry := s.pmm.mem.readWord (kpd + 4 * (page / 2 ^ 22))
  if entryPresent entry = false then .ok true
  else
    let pt ← physToVirt (entryPhys entry)
    .ok (!entryPresent (s.pmm.mem.readWord (pt + 4 * (page / 4096 % 1024))))

/-- Take the first page of an element away again. -/
def undoFirst (s : Paging.State) (first : Nat) : Except Trap Paging.State := do
  let (_, phys, s) ← Paging.pagingUnmapPage s first
  .ok { s with pmm := (Pmm.pmmDeallocSpecificBlock s.pmm phys).2 }

/-- One round of the loop over the pages of an element, for page number `p` of it at address `page`.
`mapped` says whether the first page was mapped by this call. The answer is the same about
`page`, or the reason why the call fails. -/
def mapRound (s : Paging.State) (first p page : Nat) (mapped : Bool) :
    Except Trap (Except Status Bool × Paging.State) := do
  let need ← needMap s page
  if need = false then .ok (.ok false, s)
  else
    let (res, pmm) := Pmm.pmmGetNextAvailableBlock s.pmm
    let s := { s with pmm := pmm }
    if res.status ≠ .allocSuccess then
      -- `mapped` is not looked at here
      if p > 0 then do
        let s ← undoFirst s first
        .ok (.error .pmmInitFailed, s)
      else .ok (.error .pmmInitFailed, s)
    else do
      let (mapRes, s) ← Paging.pagingMapPage s page res.addr (Paging.pgPresent ||| Paging.pgRw)
      if mapRes ≠ .ok then
        let s := { s with pmm := (Pmm.pmmDeallocSpecificBlock s.pmm res.addr).2 }
        if p > 0 ∧ mapped = true then do
          let s ← undoFirst s first
          .ok (.error .pgInitFailed, s)
        else .ok (.error .pgInitFailed, s)
      else .ok (.ok true, s)

/-- The page of the first byte of an element. -/
def Pool.first (pool : Pool) (slot : Nat) : Nat := pool.vaddr slot / 4096 * 4096

/-- The page of the last byte of an element. -/
def Pool.second (pool : Pool) (slot : Nat) : Nat :=
  (pool.vaddr slot + pool.elementSize + (2 ^ 32 - 1)) % 2 ^ 32 / 4096 * 4096

/-- The loop over the pages of an element. `some` is the reason of a failure. -/
def mapElement (pool : Pool) (s : Paging.State) (slot : Nat) :
    Except Trap (Option Status × Paging.State) := do
  let (res, s) ← mapRound s (pool.first slot) 0 (pool.first slot) false
  match res with
  | .error status => .ok (some status, s)
  | .ok mapped =>
      if pool.second slot = pool.first slot then .ok (none, s)
      else
        let (res, s) ← mapRound s (pool.first slot) 1 (pool.second slot) mapped
        match res with
        | .error status => .ok (some status, s)
        | .ok _ => .ok (none, s)

/-- Clear `n` bytes. -/
def zeroBytes (s : Paging.State) (va : Nat) : Nat → Except Trap Paging.State
  | 0 => .ok s
  | n + 1 => do
      let s ← zeroBytes s va n
      writeByte s ((va + n) % 2 ^ 32) 0

/-- `dpage_alloc`: the status it stores, and the address of the element or `none` for a null
pointer. The element is cleared word by word. -/
def dpageAlloc (pool : Pool) (s : Paging.State) :
    Except Trap (Status × Option Nat × Paging.State) := do
  let slot? ← findSlot pool s pool.slots 0
  match slot? with
  | none => .ok (.noMoreRegionSlots, none, s)
  | some slot =>
      let s ← dpageBmSet pool s slot
      let (failed, s) ← mapElement pool s slot
      match failed with
      | some status =>
          let s ← dpageBmClear pool s slot
          .ok (status, none, s)
      | none =>
          let s ← zeroBytes s (pool.vaddr slot) (pool.elementSize / 4 * 4)
          .ok (.success, some (pool.vaddr slot), s)

end Unidos.Dpage
