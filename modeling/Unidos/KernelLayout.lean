import Unidos.BootReturns
import Unidos.Dpage.Owners
import Unidos.Remap

/-!
# The window and the fixed ranges of the kernel half

The physical window starts at `PHYS_WINDOW_BASE` and grows with the memory of the machine; the pools
of the kernel, its stack and the temporary page lie behind it at fixed addresses, from
`OPENFILE_BITMAP_BASE` on. `windowFits_iff` says up to which size of memory the window covers all
frames and leaves the fixed ranges alone; `window_reaches_pools` is a machine on which it does not.
-/

namespace Unidos

open Lib Pmm Paging Dpage

/-- The fixed ranges of the kernel half that are mapped after start-up. -/
inductive KernelRange where
  | pool (owner : Owner)
  | stack
  | tempPage

/-- The first address: of the bitmap of a pool, and of the guard page of the stack. -/
def KernelRange.first : KernelRange → Nat
  | pool owner => owner.bitmapBase
  | stack => stackVirtualBase - 4096
  | tempPage => 0xFFFFF000

/-- The address behind the range. -/
def KernelRange.behind : KernelRange → Nat
  | pool owner => owner.virtualBase + owner.vaddrSizeBytes
  | stack => stackVirtualBase + 4096 * stackPageSize
  | tempPage => 2 ^ 32

/-- The window covers every frame of the memory manager, and the fixed ranges are not mapped. -/
structure WindowFits (pmm : Pmm.State) (s : Paging.State) : Prop where
  covers : ∀ f, f < pmm.frameCount → physWindowBase + 4096 * f < 2 ^ 32 ∧
    (s.walk (physWindowBase + 4096 * f)).map entryPhys = some (4096 * f)
  apart : ∀ (r : KernelRange) (va : Nat), r.first ≤ va → va < r.behind → s.walk va = none

/-- The frames that are reserved for the page tables of start-up are different. -/
def DistinctTables (boot : Layout) (pmm : Pmm.State) : Prop :=
  ∀ frames pmm', reserveFrames (neededFramesOf (identityBytesOf boot 0))
    (neededFramesOf (identityBytesOf boot 0)) pmm = .ok (some frames, pmm') → frames.Nodup

/-- On a machine with room the tables are in different frames. -/
theorem BootInfo.Roomy.distinctTables {boot : BootInfo} (h : boot.Roomy) {pmm : Pmm.State}
    (hstarted : Started boot pmm)
    (husable : ∀ f, boot.Usable f → f < pmm.frameCount ∧ pmm.bit f = false) :
    DistinctTables boot.toLayout pmm := by
  intro frames pmm' hret
  exact (reserveFrames_spec hstarted.inv (h.clear husable) hret).increasing.imp
    fun hlt => Nat.ne_of_lt hlt

section Fits

variable {boot : Layout} {s : Paging.State} {n : Nat}

theorem KernelRange.first_le (r : KernelRange) : 0xE3FFF000 ≤ r.first := by
  cases r with
  | pool owner => cases owner <;> decide
  | stack => decide
  | tempPage => decide

theorem KernelRange.behind_le (r : KernelRange) : r.behind ≤ 2 ^ 32 := by
  cases r with
  | pool owner => cases owner <;> decide
  | stack => decide
  | tempPage => decide

/-- Where the window leads. -/
theorem walk_window (h : BootMapped boot (n * 2 ^ 22) s) (hn : n ≤ 192)
    (hpages : kernelPages boot ≤ 1024) {a : Nat} (ha : a < n * 2 ^ 22) (hpage : a % 4096 = 0) :
    (s.walk (physWindowBase + a)).map entryPhys = some a := by
  have hbase : physWindowBase = 0xD0000000 := rfl
  have hkernel : kernelVirtualBase = 0xC0000000 := rfl
  have htarget := h.target (physWindowBase + a) (by omega)
  rw [bootTarget, if_neg (by omega), if_neg (by omega), if_pos (by omega), Nat.add_sub_cancel_left,
    show (physWindowBase + a) % 4096 = 0 by omega] at htarget
  simpa using htarget

/-- Behind the window nothing is mapped. -/
theorem walk_behind (h : BootMapped boot (n * 2 ^ 22) s) (hn : n ≤ 192)
    (hpages : kernelPages boot ≤ 1024) {va : Nat} (hva : va < 2 ^ 32)
    (hlo : physWindowBase + n * 2 ^ 22 ≤ va) : s.walk va = none := by
  have hbase : physWindowBase = 0xD0000000 := rfl
  have hkernel : kernelVirtualBase = 0xC0000000 := rfl
  have htarget := h.target va hva
  rw [bootTarget, if_neg (by omega), if_neg (by omega), if_neg (by omega)] at htarget
  exact Option.map_eq_none_iff.mp htarget

/-- With 80 tables the window ends in the bitmap of the open files. -/
theorem WindowFits.lt (h : BootMapped boot (n * 2 ^ 22) s) (hn : n ≤ 192)
    (hpages : kernelPages boot ≤ 1024) {pmm : Pmm.State} (hfits : WindowFits pmm s) : n < 80 := by
  by_contra hlarge
  have hmap := walk_window h hn hpages (a := 0x13FFF000) (by omega) (by decide)
  have hnone := hfits.apart (.pool .openFile) (physWindowBase + 0x13FFF000) (by decide) (by decide)
  rw [hnone] at hmap
  cases hmap

end Fits

/-- **The window and the fixed ranges**: whenever `pmm_init` returns and the page tables are built,
in different frames, the window covers all frames and leaves the fixed ranges unmapped if and only
if there are at most 316 MiB. -/
theorem windowFits_iff {boot : Layout} {regions : List MemRegion} {pmm : Pmm.State} {pd : Nat}
    {s : Paging.State} (hinit : pmmInit boot.toBootParams regions 0x100 = .ok pmm)
    (hret : pagingInitIdentityWindow boot (noTables pmm) 0 = .ok (.ok, pd, s))
    (hdistinct : DistinctTables boot pmm) :
    WindowFits pmm s ↔ boot.availMemoryKib.toNat ≤ 316 * 1024 := by
  obtain ⟨-, frames, pmm', n, hbuilt⟩ := bootBuilt_of_ok hret hdistinct
  have hn : n ≤ 192 := hbuilt.built.built.room
  have hpages := hbuilt.pages
  have hmapped := hbuilt.mapped
  have hbytes := hbuilt.bytes
  rw [hbytes] at hmapped
  rw [identityBytesOf, if_pos rfl] at hbytes
  have hcount : pmm.frameCount = boot.topBytes / 4096 := (pmmInit_spec hinit).count
  unfold BootParams.topBytes at hcount
  have hbase : physWindowBase = 0xD0000000 := rfl
  constructor
  · intro hfits
    by_contra hlarge
    by_cases hkib : boot.availMemoryKib.toNat < 2 ^ 22
    · have := hfits.lt hmapped hn hpages
      omega
    · -- the frames reach to 4 GiB
      have hlast := (hfits.covers (2 ^ 20 - 1) (by omega)).1
      omega
  · intro hkib
    refine ⟨fun f hf => ⟨by omega, walk_window hmapped hn hpages (by omega) (by omega)⟩,
      fun r va hlo hhi => ?_⟩
    have hfirst := r.first_le
    have hbehind := r.behind_le
    exact walk_behind hmapped hn hpages (by omega) (by omega)

/-! ## Machines without a memory map -/

/-- A machine with a small kernel and no memory map. -/
def cmosInfo (kib : BitVec 32) : BootInfo := { smallInfo with availMemoryKib := kib }

theorem cmosInfo_bitmapLoc (kib : BitVec 32) : (cmosInfo kib).bitmapLoc = 0x101000 := by
  show ((0x101000 : BitVec 32).toNat + 0xFFF) / 4096 * 4096 = 0x101000
  decide

theorem cmosInfo_usable {kib : BitVec 32} {f : Nat} (hlt : f < (cmosInfo kib).topBytes / 4096)
    (hbehind : (cmosInfo kib).bitmapEnd ≤ 4096 * f) : (cmosInfo kib).Usable f := by
  have hend : 0x101000 ≤ (cmosInfo kib).bitmapEnd := by
    unfold BootInfo.bitmapEnd
    rw [cmosInfo_bitmapLoc]
    omega
  refine ⟨hlt, hbehind, fun a hlo _ hres => ?_⟩
  rcases hres with hlow | ⟨-, himage⟩ | ⟨hmethod, -⟩
  · omega
  · change a < 0x101000 at himage
    omega
  · cases hmethod

/-- A machine with so many frames behind the bitmap has room. -/
theorem cmosInfo_roomFor {kib : BitVec 32} (first k : Nat)
    (hbehind : (cmosInfo kib).bitmapEnd ≤ 4096 * first)
    (hlast : first + (neededFramesOf (cmosInfo kib).windowBytes + k) ≤
      (cmosInfo kib).topBytes / 4096) : (cmosInfo kib).RoomFor k := by
  refine ⟨List.range' first (neededFramesOf (cmosInfo kib).windowBytes + k), List.nodup_range',
    fun f hf => ?_, ?_⟩
  · obtain ⟨hlo, hhi⟩ := List.mem_range'_1.mp hf
    exact cmosInfo_usable (by omega) (by omega)
  · rw [List.length_range']

/-- `mem_init` on a machine with room, call by call. -/
theorem cmosInfo_starts {kib : BitVec 32} {k : Nat} (hroom : (cmosInfo kib).RoomFor (k + 1))
    (hneeded : neededFramesOf (cmosInfo kib).windowBytes + k < 250) :
    ∃ regions pmm pd s, memInit (cmosInfo kib) = .ok s ∧ Stocked s.pmm (k + 1) ∧
      pmmInit (cmosInfo kib).toBootParams regions 0x100 = .ok pmm ∧
      pagingInitIdentityWindow (cmosInfo kib).toLayout (noTables pmm) 0 = .ok (.ok, pd, s) ∧
      DistinctTables (cmosInfo kib).toLayout pmm := by
  have hranges : (cmosInfo kib).ranges.length = 6 := rfl
  have hmax : memRegionsMax = 256 := rfl
  have himage : 0x100000 < (cmosInfo kib).kernelEnd.toNat := show 0x100000 < 0x101000 by decide
  have hpages : kernelPages (cmosInfo kib).toLayout ≤ 1024 :=
    show kernelPages smallInfo.toLayout ≤ 1024 by decide
  obtain ⟨s, hs, hstock⟩ := memInit_returns rfl rfl himage hroom (by omega) hpages
    (by rw [cmosInfo_bitmapLoc]; decide)
  obtain ⟨s₁, s₂, pmm, pd, hfixed, he820, hinit, hpaging⟩ := memInit_calls hs
  obtain ⟨b, hb, hspare⟩ := hroom.roomy.spare
  obtain ⟨hstarted, husable⟩ := started_of_pmmInit rfl himage hb hspare hfixed he820 hinit
  exact ⟨s₂.memRegions, pmm, pd, s, hs, hstock, hinit, hpaging,
    hroom.roomy.distinctTables hstarted fun f => (husable f).mp⟩

/-- 320 MiB: the window reaches the pool of open files. -/
theorem window_reaches_pools : ∃ regions pmm pd s,
    pmmInit (cmosInfo (320 * 1024)).toBootParams regions 0x100 = .ok pmm ∧
    pagingInitIdentityWindow (cmosInfo (320 * 1024)).toLayout (noTables pmm) 0 =
      .ok (.ok, pd, s) ∧ ¬ WindowFits pmm s := by
  have hroom : (cmosInfo (320 * 1024)).RoomFor (0 + 1) :=
    cmosInfo_roomFor 0x110 1 (by decide) (by decide)
  obtain ⟨regions, pmm, pd, s, -, -, hinit, hpaging, hdistinct⟩ :=
    cmosInfo_starts hroom (by decide)
  obtain ⟨-, frames, pmm', n, hbuilt⟩ := bootBuilt_of_ok hpaging hdistinct
  refine ⟨regions, pmm, pd, s, hinit, hpaging, fun hfits => ?_⟩
  have hmapped := hbuilt.mapped
  have hbytes : 320 * 1024 * 1024 = n * 2 ^ 22 := hbuilt.bytes
  rw [hbuilt.bytes] at hmapped
  have := hfits.lt hmapped hbuilt.built.built.room hbuilt.pages
  omega

theorem windowFits_small : ∃ regions pmm pd s,
    pmmInit (cmosInfo 4096).toBootParams regions 0x100 = .ok pmm ∧
    pagingInitIdentityWindow (cmosInfo 4096).toLayout (noTables pmm) 0 = .ok (.ok, pd, s) ∧
      WindowFits pmm s := by
  have hroom : (cmosInfo 4096).RoomFor (0 + 1) :=
    cmosInfo_roomFor 0x110 1 (by decide) (by decide)
  obtain ⟨regions, pmm, pd, s, -, -, hinit, hpaging, hdistinct⟩ :=
    cmosInfo_starts hroom (by decide)
  exact ⟨regions, pmm, pd, s, hinit, hpaging,
    (windowFits_iff hinit hpaging hdistinct).mpr (by decide)⟩

end Unidos
