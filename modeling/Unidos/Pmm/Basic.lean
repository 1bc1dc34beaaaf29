import Unidos.Lib.Bitmap
import Unidos.Lib.Scan
import Unidos.Machine

/-!
# State of the physical memory manager

After `kernel/kmem.c`. The page bitmap is not a field of its own: it lives in physical memory,
from `pagebitmapPhys` on, as in the source. `mem_regions` and `mem_region_count` are one list,
the entries below the count. Frame numbers and addresses are natural numbers; `frameAddr` is the
32-bit shift `f << 12`.
-/

namespace Unidos.Pmm

open Lib

/-- `mem_type_t`. -/
inductive MemType where
  | usable
  | reserved
  deriving DecidableEq, Repr

/-- `mem_region_t`: two 32-bit fields and a type. -/
structure MemRegion where
  base : BitVec 32
  length : BitVec 32
  type : MemType
  deriving DecidableEq, Repr

/-- The first address behind the region, in 64-bit arithmetic. -/
def MemRegion.last (r : MemRegion) : Nat := r.base.toNat + r.length.toNat

/-- `pmm_alloc_result_t`. -/
inductive AllocResult where
  | allocSuccess
  | allocOom
  | noPagesInitialized
  | bitmapNotInitialized
  | bitmapInconsistentReserved
  | allocAlreadyAllocated
  | allocReserved
  | allocOutOfBounds
  | allocUnalignedAddr
  | allocAlreadyFree
  deriving DecidableEq, Repr

/-- `MEM_REGIONS_MAX`. -/
def memRegionsMax : Nat := 256

/-- The static variables of `kmem.c`, together with physical memory. -/
structure State where
  mem : Memory
  pagebitmapPhys : Nat
  pagebitmapSizeBytes : Nat
  frameCount : Nat
  frameHint : Nat
  availableFrames : Nat
  usePhysWindowAlias : Bool
  memRegions : List MemRegion

/-- `f << 12` in 32-bit arithmetic. -/
def frameAddr (f : Nat) : Nat := f * 4096 % 2 ^ 32

/-- The bitmap bit of frame `f`; set means allocated. -/
def State.bit (s : State) (f : Nat) : Bool := s.mem.bitAt s.pagebitmapPhys f

/-- `bm_set`: mark a frame allocated. The 64-bit counter follows only if the byte changes. -/
def bmSet (s : State) (f : Nat) : State :=
  let val := s.mem (s.pagebitmapPhys + f / 8)
  let mem := s.mem.setBit s.pagebitmapPhys f
  { s with
    mem := mem
    availableFrames :=
      if val ≠ mem (s.pagebitmapPhys + f / 8) then (s.availableFrames + (2 ^ 64 - 1)) % 2 ^ 64
      else s.availableFrames }

/-- `bm_clear`: mark a frame free. -/
def bmClear (s : State) (f : Nat) : State :=
  let val := s.mem (s.pagebitmapPhys + f / 8)
  let mem := s.mem.clearBit s.pagebitmapPhys f
  { s with
    mem := mem
    availableFrames :=
      if val ≠ mem (s.pagebitmapPhys + f / 8) then (s.availableFrames + 1) % 2 ^ 64
      else s.availableFrames }

/-- `bm_set_range_touched`: mark every frame that the range touches. -/
def bmSetRangeTouched (s : State) (base len : Nat) : State :=
  if len = 0 then s
  else
    let start := base / 4096
    let last := min ((base + len + 0xFFF) / 4096) s.frameCount
    (List.range' start (last - start)).foldl bmSet s

/-- `bm_clear_range_full_pages`: free every frame that lies wholly inside the range. -/
def bmClearRangeFullPages (s : State) (base len : Nat) : State :=
  if len < 4096 then s
  else
    let start := (base + 0xFFF) / 4096 * 4096
    let last := (base + len) / 4096 * 4096
    if last ≤ start then s
    else
      let fs := start / 4096
      let fe := min (last / 4096) s.frameCount
      (List.range' fs (fe - fs)).foldl bmClear s

/-- `pmm_init_single`: mark the frames of one reserved region. -/
def pmmInitSingle (s : State) (r : MemRegion) : State :=
  if s.pagebitmapPhys = 0 ∨ s.frameCount = 0 then s
  else if r.type = .reserved then bmSetRangeTouched s r.base.toNat r.length.toNat
  else s

/-- The loop of `pmm_init` that marks the frames of all reserved regions. -/
def bmSetRegions (s : State) (regions : List MemRegion) : State :=
  regions.foldl (fun s r =>
    if r.type = .reserved then bmSetRangeTouched s r.base.toNat r.length.toNat else s) s

/-- What the machine hands to `pmm_init`: the memory size in KiB, the end of the kernel image, and
the contents of physical memory. -/
structure BootParams where
  availMemoryKib : BitVec 32
  kernelEnd : BitVec 32
  mem : Memory

/-- `top_bytes64`: the memory size in bytes, cut at 4 GiB. -/
def BootParams.topBytes (boot : BootParams) : Nat :=
  min (boot.availMemoryKib.toNat * 1024) 0x100000000

/-- `loc`: the first page boundary behind the kernel image, in 64-bit arithmetic. -/
def BootParams.bitmapLoc (boot : BootParams) : Nat :=
  (boot.kernelEnd.toNat + 0xFFF) / 4096 * 4096

/-- The state in which every bit of the bitmap is one. -/
def BootParams.allSet (boot : BootParams) (regions : List MemRegion) (hint : Nat) : State :=
  let frameCount := boot.topBytes / 4096
  let size := (frameCount + 7) / 8
  let pagebitmapPhys := boot.bitmapLoc % 2 ^ 32
  { mem := boot.mem.fillBytes pagebitmapPhys size 0xFF
    pagebitmapPhys := pagebitmapPhys
    pagebitmapSizeBytes := size
    frameCount := frameCount
    frameHint := hint
    availableFrames := 0
    usePhysWindowAlias := false
    memRegions := regions }

/-- The pass of `pmm_init` that frees all full pages above 1 MiB. -/
def freeUsable (s : State) (topBytes : Nat) : State :=
  if topBytes > 0x00100000 then
    bmClearRangeFullPages s 0x00100000 (min (topBytes - 0x00100000) 0xFFFFFFFF)
  else s

/-- `pmm_init`, on the region table `regions` and with `frame_hint` preset to `hint`. -/
def pmmInit (boot : BootParams) (regions : List MemRegion) (hint : Nat) : Except Trap State :=
  let s := boot.allSet regions hint
  if boot.bitmapLoc + s.pagebitmapSizeBytes > boot.topBytes then .error .halt
  else
    let s := bmSetRegions (freeUsable s boot.topBytes) regions
    .ok (bmSetRangeTouched s (boot.bitmapLoc % 2 ^ 32) s.pagebitmapSizeBytes)

/-- `pmm_is_region_reserved` with its `out_overlap`: the first reserved region that overlaps the
span. -/
def pmmFindReserved (s : State) (address length : Nat) : Option MemRegion :=
  if length = 0 then none
  else s.memRegions.find? fun r =>
    r.length ≠ 0 ∧ r.type = .reserved ∧ address < r.last ∧ r.base.toNat < address + length

/-- `pmm_is_region_reserved`. -/
def pmmIsRegionReserved (s : State) (address length : Nat) : Bool :=
  (pmmFindReserved s address length).isSome

/-- `pmm_query_bitmap`: whether the frame at a page-aligned address is allocated. -/
def pmmQueryBitmap (s : State) (address : Nat) : Bool :=
  if address % 4096 ≠ 0 then false
  else if address / 4096 ≥ s.frameCount then false
  else s.bit (address / 4096)

/-- `frame_ptr`: access to a frame by its physical address, through the window once the alias is
in use. -/
def framePtr (s : State) (physAddr : Nat) : Except Trap Nat :=
  if s.usePhysWindowAlias then physToVirt physAddr else .ok physAddr

end Unidos.Pmm
