import Unidos.Paging.Boot
import Unidos.Pmm.Init

/-!
# Start-up of memory management

`mem_init` reserves the ranges that must never be handed out, starts the memory manager, and
builds the first page tables. The region table refuses to free what lies in a reserved range, but
the page bitmap is protected by its bits only. `protected_not_handed_out` shows that nothing
protected is handed out as long as nobody frees the bitmap, and `bitmap_handed_out` is a run in
which somebody does.
-/

namespace Unidos

open Lib Pmm

/-- `bootinfo_memory_method_t`. -/
inductive MemoryMethod where
  | useCmos
  | useE820
  | useE801
  | useAh88
  deriving DecidableEq, Repr

/-- The fields of `e820_desc_t` that the kernel reads. -/
structure E820Desc where
  base : BitVec 64
  length : BitVec 64
  type : BitVec 32

/-- The boot information that `mem_init` reads. -/
structure BootInfo extends Paging.Layout where
  bootinfoValidated : Bool
  kernelPhysAddress : BitVec 32
  memoryMethod : MemoryMethod
  e820Descs : List E820Desc

/-- `STAGE2_RESERVED_SECTORS`. -/
def stage2ReservedSectors : Nat := 7

/-- The state of the memory manager before `mem_init`: all globals are zero. -/
def BootInfo.cold (boot : BootInfo) : Pmm.State where
  mem := boot.mem
  pagebitmapPhys := 0
  pagebitmapSizeBytes := 0
  frameCount := 0
  frameHint := 0
  availableFrames := 0
  usePhysWindowAlias := false
  memRegions := []

/-- `RESERVE_REGION`: a reservation that halts the machine when it fails. -/
def reserveRegion (s : Pmm.State) (base length : BitVec 32) : Except Trap Pmm.State := do
  let (res, s) ← pmmReserveRange s base length false
  if res ≠ .reserveSuccess ∧ res ≠ .updatedExistingRegion then .error .halt else .ok s

/-- The fixed ranges and the kernel image, in the order in which `mem_init` reserves them. -/
def BootInfo.fixedRanges (boot : BootInfo) : List (BitVec 32 × BitVec 32) :=
  [(0, 0x100000),
   (0x10000, BitVec.ofNat 32 (stage2ReservedSectors * 512)),
   (0xA0000, 0x20000),
   (0xC0000, 0x40000),
   (0x500, 289),
   (boot.kernelPhysAddress, boot.kernelEnd - boot.kernelPhysAddress)]

/-- The end of an E820 descriptor, cut at 4 GiB. -/
def E820Desc.end64 (d : E820Desc) : Nat :=
  let end64 := (d.base + d.length).toNat
  if end64 < d.base.toNat ∨ end64 > 0x100000000 then 0x100000000 else end64

/-- The part of an E820 descriptor that is reserved. Nothing is reserved for usable, empty, or high
descriptors, nor where the 32-bit length comes out as zero. -/
def E820Desc.reservedRange (d : E820Desc) : Option (BitVec 32 × BitVec 32) :=
  if d.type = 1 then none
  else if d.length = 0 then none
  else if d.base.toNat ≥ 0x100000000 then none
  else
    let len32 := BitVec.ofNat 32 (d.end64 - d.base.toNat)
    if len32 = 0 then none else some (BitVec.ofNat 32 d.base.toNat, len32)

/-- One iteration of the loop over the E820 map. -/
def reserveE820 (s : Pmm.State) (d : E820Desc) : Except Trap Pmm.State :=
  match d.reservedRange with
  | none => .ok s
  | some (base, length) =>
      if s.memRegions.length ≥ memRegionsMax then .error .halt else reserveRegion s base length

/-- `mem_init`. -/
def memInit (boot : BootInfo) : Except Trap Paging.State :=
  if ¬ boot.bootinfoValidated then .error .halt
  else do
    let s ← boot.fixedRanges.foldlM (fun s r => reserveRegion s r.1 r.2) boot.cold
    let s ← (if boot.memoryMethod = .useE820 then boot.e820Descs else []).foldlM reserveE820 s
    let pmm ← pmmInit boot.toBootParams s.memRegions (0x100000 / 4096)
    let (status, _, s) ← Paging.pagingInitIdentityWindow boot.toLayout
      { pmm := pmm
        pageDirectoryLocPhys := 0
        pageTablesLocPhys := fun _ => 0
        pageTableCount := 0
        cr3 := 0 } 0
    if status ≠ .ok then .error .halt else .ok s

/-! ## The reserved ranges -/

/-- Address `a` lies in a range given by its base and its length. -/
def InRange (r : BitVec 32 × BitVec 32) (a : Nat) : Prop :=
  r.1.toNat ≤ a ∧ a < r.1.toNat + r.2.toNat

/-- All ranges that `mem_init` reserves. -/
def BootInfo.ranges (boot : BootInfo) : List (BitVec 32 × BitVec 32) :=
  boot.fixedRanges ++
    (if boot.memoryMethod = .useE820 then boot.e820Descs else []).filterMap E820Desc.reservedRange

/-- The addresses that are never to be handed out: low memory, the kernel image, and what the
firmware reports as anything but usable. -/
def BootInfo.Reserved (boot : BootInfo) (a : Nat) : Prop :=
  a < 0x100000 ∨ (boot.kernelPhysAddress.toNat ≤ a ∧ a < boot.kernelEnd.toNat) ∨
    (boot.memoryMethod = .useE820 ∧ ∃ d ∈ boot.e820Descs, d.type ≠ 1 ∧
      d.base.toNat ≤ a ∧ a < d.base.toNat + d.length.toNat)

/-- Below 4 GiB the cut end and the end of the descriptor are the same. -/
theorem E820Desc.end64_spec (d : E820Desc) (hbase : d.base.toNat < 2 ^ 32) :
    d.end64 ≤ 2 ^ 32 ∧ ∀ a, a < 2 ^ 32 → (a < d.end64 ↔ a < d.base.toNat + d.length.toNat) := by
  have hadd : (d.base + d.length).toNat = (d.base.toNat + d.length.toNat) % 2 ^ 64 :=
    BitVec.toNat_add _ _
  unfold E820Desc.end64
  dsimp only
  split
  · exact ⟨le_rfl, fun a ha => by omega⟩
  · exact ⟨by omega, fun a ha => by omega⟩

/-- The reserved part of a descriptor: its addresses below 4 GiB. -/
theorem E820Desc.reservedRange_sub {d : E820Desc} {r : BitVec 32 × BitVec 32}
    (h : d.reservedRange = some r) :
    d.type ≠ 1 ∧ r.1.toNat + r.2.toNat ≤ 2 ^ 32 ∧
      ∀ a, InRange r a → d.base.toNat ≤ a ∧ a < d.base.toNat + d.length.toNat := by
  unfold E820Desc.reservedRange at h
  split at h
  · simp at h
  · rename_i htype
    split at h
    · simp at h
    · split at h
      · simp at h
      · rename_i hbase
        obtain ⟨hle, hlt⟩ := d.end64_spec (by omega)
        dsimp only at h
        split at h
        · simp at h
        · rw [Option.some.injEq] at h
          subst h
          simp only [InRange, BitVec.toNat_ofNat]
          refine ⟨htype, by omega, fun a ha => ?_⟩
          have := hlt a (by omega)
          omega

/-- A descriptor that does not cover everything below 4 GiB has that part reserved. -/
theorem E820Desc.reservedRange_sup {d : E820Desc} {a b : Nat} (htype : d.type ≠ 1)
    (hb : b < 2 ^ 32) (hspare : ¬ (d.base.toNat ≤ b ∧ b < d.base.toNat + d.length.toNat))
    (ha : a < 2 ^ 32) (hin : d.base.toNat ≤ a ∧ a < d.base.toNat + d.length.toNat) :
    ∃ r, d.reservedRange = some r ∧ InRange r a := by
  have hlen : d.length ≠ 0 := by
    intro hzero
    have : d.length.toNat = 0 := by rw [hzero]; rfl
    omega
  obtain ⟨hle, hlt⟩ := d.end64_spec (by omega)
  have ha' := (hlt a ha).mpr hin.2
  -- the part is shorter than 4 GiB, so its length survives the cut to 32 bits
  have hmod : (BitVec.ofNat 32 (d.end64 - d.base.toNat)).toNat = d.end64 - d.base.toNat := by
    have := hlt b hb
    rw [BitVec.toNat_ofNat]
    omega
  unfold E820Desc.reservedRange
  rw [if_neg htype, if_neg hlen, if_neg (by omega)]
  dsimp only
  rw [if_neg]
  · refine ⟨_, rfl, ?_⟩
    simp only [InRange, hmod, BitVec.toNat_ofNat]
    omega
  · intro hzero
    rw [hzero] at hmod
    have : (0 : BitVec 32).toNat = 0 := rfl
    omega

/-- What the region table covers after some ranges were reserved. -/
structure Covers (s : Pmm.State) (ranges : List (BitVec 32 × BitVec 32)) : Prop where
  bounded : Bounded s.memRegions
  covered : ∀ a, Covered s.memRegions a ↔ ∃ r ∈ ranges, InRange r a

theorem BootInfo.cold_covers (boot : BootInfo) : Covers boot.cold [] :=
  ⟨by simp [Bounded, BootInfo.cold], by simp [Covered, BootInfo.cold]⟩

theorem Covers.reserveRegion {s t : Pmm.State} {ranges : List (BitVec 32 × BitVec 32)}
    {r : BitVec 32 × BitVec 32} (h : Covers s ranges) (hlast : r.1.toNat + r.2.toNat ≤ 2 ^ 32)
    (hspare : ∃ a, a < 2 ^ 32 ∧ ∀ r' ∈ ranges ++ [r], ¬ InRange r' a)
    (hret : reserveRegion s r.1 r.2 = .ok t) : Covers t (ranges ++ [r]) := by
  obtain ⟨res, s', hrange, hcases⟩ := pmmReserveRange_cases s r.1 r.2 false
  unfold Unidos.reserveRegion at hret
  simp only [hrange, bind_eq_ok, Except.ok.injEq, exists_eq_left'] at hret
  split at hret
  · simp at hret
  · rename_i hres
    rw [Except.ok.injEq] at hret
    subst hret
    obtain ⟨a, ha, hnone⟩ := hspare
    have hfree : ¬ Covered s.memRegions a := by
      rw [h.covered]
      rintro ⟨r', hr', hin⟩
      exact hnone r' (by simp [hr']) hin
    obtain ⟨hbounded, hcov⟩ := hcases.covered_iff (by tauto) h.bounded hlast
      ⟨a, ha, hfree, hnone r (by simp)⟩
    refine ⟨hbounded, fun a => ?_⟩
    rw [hcov, h.covered]
    simp [or_and_right, exists_or, InRange]

theorem Covers.foldlM {s t : Pmm.State} {ranges more : List (BitVec 32 × BitVec 32)}
    (h : Covers s ranges) (hlast : ∀ r ∈ more, r.1.toNat + r.2.toNat ≤ 2 ^ 32)
    (hspare : ∃ a, a < 2 ^ 32 ∧ ∀ r ∈ ranges ++ more, ¬ InRange r a)
    (hret : more.foldlM (fun s r => Unidos.reserveRegion s r.1 r.2) s = .ok t) :
    Covers t (ranges ++ more) := by
  induction more generalizing s ranges with
  | nil =>
      rw [List.append_nil]
      exact Except.ok.inj hret ▸ h
  | cons r more ih =>
      rw [List.foldlM_cons] at hret
      obtain ⟨u, hu, hret⟩ := bind_eq_ok.mp hret
      obtain ⟨a, ha, hnone⟩ := hspare
      rw [List.append_cons] at hnone ⊢
      have hnext := h.reserveRegion (hlast r (by simp))
        ⟨a, ha, fun r' hr' => hnone r' (List.mem_append_left _ hr')⟩ hu
      exact ih hnext (fun r' hr' => hlast r' (by simp [hr'])) ⟨a, ha, hnone⟩ hret

/-- The loop over the E820 map reserves the reserved ranges of its descriptors. -/
theorem foldlM_reserveE820 {s t : Pmm.State} {descs : List E820Desc}
    (hret : descs.foldlM reserveE820 s = .ok t) :
    (descs.filterMap E820Desc.reservedRange).foldlM
      (fun s r => reserveRegion s r.1 r.2) s = .ok t := by
  induction descs generalizing s with
  | nil => exact hret
  | cons d descs ih =>
      rw [List.foldlM_cons] at hret
      obtain ⟨u, hu, hret⟩ := bind_eq_ok.mp hret
      unfold reserveE820 at hu
      cases hd : d.reservedRange with
      | none =>
          rw [List.filterMap_cons_none hd]
          rw [hd] at hu
          exact ih (Except.ok.inj hu ▸ hret)
      | some r =>
          rw [List.filterMap_cons_some hd, List.foldlM_cons]
          rw [hd] at hu
          dsimp only at hu
          split at hu
          · simp at hu
          · exact bind_eq_ok.mpr ⟨u, hu, ih hret⟩

/-! ## What start-up establishes -/

/-- The first address behind the page bitmap. -/
def BootInfo.bitmapEnd (boot : BootInfo) : Nat :=
  boot.bitmapLoc + (boot.topBytes / 4096 + 7) / 8

/-- Frame `f` lies in memory, behind the bitmap, and outside everything reserved. -/
def BootInfo.Usable (boot : BootInfo) (f : Nat) : Prop :=
  f < boot.topBytes / 4096 ∧ boot.bitmapEnd ≤ 4096 * f ∧
    ∀ a, 4096 * f ≤ a → a < 4096 * f + 4096 → ¬ boot.Reserved a

/-- There are more usable frames than the page tables of start-up take. -/
def BootInfo.Roomy (boot : BootInfo) : Prop :=
  ∃ fs : List Nat, fs.Nodup ∧ (∀ f ∈ fs, boot.Usable f) ∧
    Paging.neededFramesOf (Paging.identityBytesOf boot.toLayout 0) < fs.length

/-- The fixed ranges all lie in low memory, but for the kernel image. -/
theorem BootInfo.fixedRanges_iff {boot : BootInfo}
    (hkernel : boot.kernelPhysAddress ≤ boot.kernelEnd) :
    (∀ r ∈ boot.fixedRanges, r.1.toNat + r.2.toNat ≤ 2 ^ 32) ∧
      ∀ a, (∃ r ∈ boot.fixedRanges, InRange r a) ↔
        a < 0x100000 ∨ (boot.kernelPhysAddress.toNat ≤ a ∧ a < boot.kernelEnd.toNat) := by
  have hle : boot.kernelPhysAddress.toNat ≤ boot.kernelEnd.toNat := hkernel
  simp only [BootInfo.fixedRanges, stage2ReservedSectors, InRange, List.forall_mem_cons,
    List.exists_mem_cons_iff, List.not_mem_nil, BitVec.toNat_sub_of_le hkernel]
  simp
  constructor
  · omega
  · intro a
    omega

/-- The ranges that `mem_init` reserves make up the reserved addresses below 4 GiB. -/
theorem BootInfo.ranges_iff {boot : BootInfo} (hkernel : boot.kernelPhysAddress ≤ boot.kernelEnd)
    {b : Nat} (hb : b < 2 ^ 32) (hspare : ¬ boot.Reserved b) :
    (∀ r ∈ boot.ranges, r.1.toNat + r.2.toNat ≤ 2 ^ 32) ∧
      ∀ a, a < 2 ^ 32 → ((∃ r ∈ boot.ranges, InRange r a) ↔ boot.Reserved a) := by
  obtain ⟨hfixed, hiff⟩ := BootInfo.fixedRanges_iff hkernel
  have hmem : ∀ r, r ∈ boot.ranges ↔ r ∈ boot.fixedRanges ∨
      boot.memoryMethod = .useE820 ∧ ∃ d ∈ boot.e820Descs, d.reservedRange = some r := by
    intro r
    unfold BootInfo.ranges
    split <;> rename_i hmethod <;> simp [hmethod]
  refine ⟨fun r hr => ?_, fun a ha => ⟨?_, ?_⟩⟩
  · rcases (hmem r).mp hr with hr | ⟨-, d, -, hd⟩
    · exact hfixed r hr
    · exact (E820Desc.reservedRange_sub hd).2.1
  · rintro ⟨r, hr, hin⟩
    unfold BootInfo.Reserved
    rcases (hmem r).mp hr with hr | ⟨hmethod, d, hd, hrange⟩
    · exact ((hiff a).mp ⟨r, hr, hin⟩).imp_right .inl
    · obtain ⟨htype, -, hsub⟩ := E820Desc.reservedRange_sub hrange
      exact .inr (.inr ⟨hmethod, d, hd, htype, hsub a hin⟩)
  · rintro (hlow | himage | ⟨hmethod, d, hd, htype, hin⟩)
    · obtain ⟨r, hr, hin⟩ := (hiff a).mpr (.inl hlow)
      exact ⟨r, (hmem r).mpr (.inl hr), hin⟩
    · obtain ⟨r, hr, hin⟩ := (hiff a).mpr (.inr himage)
      exact ⟨r, (hmem r).mpr (.inl hr), hin⟩
    · have hb' : ¬ (d.base.toNat ≤ b ∧ b < d.base.toNat + d.length.toNat) :=
        fun hin => hspare (.inr (.inr ⟨hmethod, d, hd, htype, hin⟩))
      obtain ⟨r, hr, hin⟩ := E820Desc.reservedRange_sup htype hb hb' ha hin
      exact ⟨r, (hmem r).mpr (.inr ⟨hmethod, d, hd, hr⟩), hin⟩

/-- What `mem_init` leaves behind: the start-up invariant, the bitmap behind the kernel image, and
a region table that covers everything reserved. -/
structure Started (boot : BootInfo) (s : Pmm.State) : Prop where
  inv : BootInv s
  covers : ∀ a, a < 2 ^ 32 → boot.Reserved a → Covered s.memRegions a

theorem BootInfo.neededFrames_eq (boot : BootInfo) :
    Paging.neededFramesOf (Paging.identityBytesOf boot.toLayout 0) =
      2 * Paging.neededPtsOf (Paging.identityBytesOf boot.toLayout 0) + 2 := by
  unfold Paging.neededFramesOf Paging.neededPtsOf Paging.identityBytesOf
  rw [if_pos rfl]
  split <;> omega

/-- The state after `pmm_init`, with a table that covers the reserved addresses. -/
theorem Started.ofInitialised {boot : BootInfo} {regions : List MemRegion} {s : Pmm.State}
    (h : Initialised boot.toBootParams regions 0x100 s) (hbounded : Bounded regions)
    (hkernel : boot.kernelPhysAddress.toNat = 0x100000) (himage : 0x100000 < boot.kernelEnd.toNat)
    (hcovers : ∀ a, a < 2 ^ 32 → (Covered regions a ↔ boot.Reserved a)) : Started boot s := by
  have hinv := h.inv himage
  have hphys := h.phys
  have hcount := hinv.count_le
  unfold BootParams.bitmapLoc at hphys
  refine ⟨⟨hinv, fun f hf hbit => ?_, fun f hf hlow => ?_, h.regions ▸ hbounded⟩,
    fun a ha hres => h.regions ▸ (hcovers a ha).mpr hres⟩
  · rw [h.hint]
    by_contra hlow
    simp [(h.bit f hf).mpr (.inl (by omega))] at hbit
  · refine (h.bit f hf).mpr ?_
    by_cases hf' : f < 0x100
    · exact .inl hf'
    · by_cases hhold : s.pagebitmapPhys < 4096 * f + 4096
      · exact .inr (.inr ⟨hhold, hlow⟩)
      · -- between 1 MiB and the bitmap there is only the kernel image
        refine .inr (.inl ⟨4096 * f, le_rfl, by omega, ?_⟩)
        rw [h.regions]
        exact (hcovers _ (by omega)).mpr (.inr (.inl (by omega)))

/-- The frames that are usable by the boot information are free after `pmm_init`. -/
theorem BootInfo.Usable.clear {boot : BootInfo} {f : Nat} (hf : boot.Usable f)
    {regions : List MemRegion} {s : Pmm.State} (h : Initialised boot.toBootParams regions 0x100 s)
    (hcovers : ∀ a, a < 2 ^ 32 → (Covered regions a ↔ boot.Reserved a)) :
    f < s.frameCount ∧ s.bit f = false := by
  obtain ⟨hlt, hbehind, hfree⟩ := hf
  have hf' : f < s.frameCount := h.count ▸ hlt
  have hle := boot.frameCount_le
  refine ⟨hf', ?_⟩
  by_contra hset
  rcases (h.bit f hf').mp (by simpa using hset) with hlow | ⟨a, h1, h2, hcov⟩ | ⟨h1, h2⟩
  · exact hfree (4096 * f) le_rfl (by omega) (.inl (by omega))
  · rw [h.regions] at hcov
    exact hfree a h1 h2 ((hcovers a (by omega)).mp hcov)
  · have hphys := h.phys
    have hsize := h.size
    have hcount := h.count
    unfold BootInfo.bitmapEnd at hbehind
    omega

/-- The frames that are free after `pmm_init` are usable by the boot information. -/
theorem BootInfo.usable_of_clear {boot : BootInfo} {f : Nat}
    (hkernel : boot.kernelPhysAddress.toNat = 0x100000) {regions : List MemRegion} {s : Pmm.State}
    (h : Initialised boot.toBootParams regions 0x100 s)
    (hcovers : ∀ a, a < 2 ^ 32 → (Covered regions a ↔ boot.Reserved a)) (hf : f < s.frameCount)
    (hbit : s.bit f = false) : boot.Usable f := by
  have hle := boot.frameCount_le
  have hcount := h.count
  have hphys := h.phys
  have hsize := h.size
  have hiff := h.bit f hf
  rw [hbit, Bool.false_eq_true, false_iff, not_or, not_or, State.FrameReserved, h.regions] at hiff
  obtain ⟨hlow, hcov, hbitmap⟩ := hiff
  have hfree : ∀ a, 4096 * f ≤ a → a < 4096 * f + 4096 → ¬ boot.Reserved a :=
    fun a hlo hhi hres => hcov ⟨a, hlo, hhi, (hcovers a (by omega)).mpr hres⟩
  refine ⟨hcount ▸ hf, ?_, hfree⟩
  -- a frame below the bitmap would hold a byte of the kernel image
  have himage : boot.kernelEnd.toNat ≤ 4096 * f := by
    by_contra hlt
    exact hfree (4096 * f) le_rfl (by omega) (.inr (.inl (by omega)))
  unfold BootInfo.bitmapEnd
  unfold State.HoldsBitmap Touches at hbitmap
  unfold BootParams.bitmapLoc at *
  omega

/-- The paging globals before `paging_init_identity_window`. -/
def noTables (pmm : Pmm.State) : Paging.State where
  pmm := pmm
  pageDirectoryLocPhys := 0
  pageTablesLocPhys := fun _ => 0
  pageTableCount := 0
  cr3 := 0

/-- On a machine on which some address is not reserved the memory manager starts with the usable
frames free. -/
theorem started_of_pmmInit {boot : BootInfo} {s₁ s₂ pmm : Pmm.State}
    (hkernel : boot.kernelPhysAddress.toNat = 0x100000) (himage : 0x100000 < boot.kernelEnd.toNat)
    {b : Nat} (hb : b < 2 ^ 32) (hspare : ¬ boot.Reserved b)
    (hfixed : boot.fixedRanges.foldlM (fun s r => reserveRegion s r.1 r.2) boot.cold = .ok s₁)
    (he820 : (if boot.memoryMethod = .useE820 then boot.e820Descs else []).foldlM reserveE820 s₁ =
      .ok s₂)
    (hinit : pmmInit boot.toBootParams s₂.memRegions 0x100 = .ok pmm) :
    Started boot pmm ∧ ∀ f, boot.Usable f ↔ f < pmm.frameCount ∧ pmm.bit f = false := by
  have hlek : boot.kernelPhysAddress ≤ boot.kernelEnd := by
    rw [BitVec.le_def]
    omega
  obtain ⟨hlast, hiff⟩ := boot.ranges_iff hlek hb hspare
  have hnone : ∀ r ∈ boot.ranges, ¬ InRange r b :=
    fun r hr hin => hspare ((hiff _ hb).mp ⟨r, hr, hin⟩)
  have h1 : Covers s₁ boot.fixedRanges := boot.cold_covers.foldlM
    (fun r hr => hlast r (List.mem_append_left _ hr))
    ⟨b, hb, fun r hr => hnone r (List.mem_append_left _ hr)⟩ hfixed
  have h2 : Covers s₂ boot.ranges := h1.foldlM
    (fun r hr => hlast r (List.mem_append_right _ hr))
    ⟨b, hb, hnone⟩ (foldlM_reserveE820 he820)
  have hcovers : ∀ a, a < 2 ^ 32 → (Covered s₂.memRegions a ↔ boot.Reserved a) :=
    fun a ha => (h2.covered a).trans (hiff a ha)
  have hspec : Initialised boot.toBootParams s₂.memRegions 0x100 pmm := pmmInit_spec hinit
  exact ⟨Started.ofInitialised hspec h2.bounded hkernel himage hcovers,
    fun f => ⟨fun hf => hf.clear hspec hcovers,
      fun hf => boot.usable_of_clear hkernel hspec hcovers hf.1 hf.2⟩⟩

/-- The calls that `mem_init` makes if it returns. -/
theorem memInit_calls {boot : BootInfo} {s : Paging.State} (hret : memInit boot = .ok s) :
    ∃ s₁ s₂ pmm pd,
      boot.fixedRanges.foldlM (fun s r => reserveRegion s r.1 r.2) boot.cold = .ok s₁ ∧
      (if boot.memoryMethod = .useE820 then boot.e820Descs else []).foldlM reserveE820 s₁ =
        .ok s₂ ∧
      pmmInit boot.toBootParams s₂.memRegions 0x100 = .ok pmm ∧
      Paging.pagingInitIdentityWindow boot.toLayout (noTables pmm) 0 = .ok (.ok, pd, s) := by
  unfold memInit at hret
  split at hret
  · simp at hret
  · obtain ⟨s₁, hfixed, hret⟩ := bind_eq_ok.mp hret
    obtain ⟨s₂, he820, hret⟩ := bind_eq_ok.mp hret
    obtain ⟨pmm, hinit, hret⟩ := bind_eq_ok.mp hret
    obtain ⟨⟨status, pd, s₃⟩, hpaging, hret⟩ := bind_eq_ok.mp hret
    dsimp only at hret
    split at hret
    · simp at hret
    · rename_i hstatus
      rw [not_not] at hstatus
      subst hstatus
      rw [Except.ok.injEq] at hret
      subst hret
      exact ⟨s₁, s₂, pmm, pd, hfixed, he820, hinit, hpaging⟩

/-- The parts of `mem_init`: first the memory manager, then the page tables. -/
theorem memInit_parts {boot : BootInfo} {s : Paging.State}
    (hkernel : boot.kernelPhysAddress.toNat = 0x100000) (himage : 0x100000 < boot.kernelEnd.toNat)
    {b : Nat} (hb : b < 2 ^ 32) (hspare : ¬ boot.Reserved b) (hret : memInit boot = .ok s) :
    ∃ pmm pd regions, Started boot pmm ∧ Initialised boot.toBootParams regions 0x100 pmm ∧
      (∀ f, boot.Usable f ↔ f < pmm.frameCount ∧ pmm.bit f = false) ∧
      Paging.pagingInitIdentityWindow boot.toLayout (noTables pmm) 0 = .ok (.ok, pd, s) := by
  obtain ⟨s₁, s₂, pmm, pd, hfixed, he820, hinit, hpaging⟩ := memInit_calls hret
  obtain ⟨hstarted, husable⟩ := started_of_pmmInit hkernel himage hb hspare hfixed he820 hinit
  exact ⟨pmm, pd, s₂.memRegions, hstarted, pmmInit_spec hinit, husable, hpaging⟩

/-- A machine with room has an address that is not reserved. -/
theorem BootInfo.Roomy.spare {boot : BootInfo} (h : boot.Roomy) :
    ∃ b, b < 2 ^ 32 ∧ ¬ boot.Reserved b := by
  obtain ⟨fs, -, husable, hlen⟩ := h
  obtain ⟨f, hf⟩ : ∃ f, f ∈ fs := List.exists_mem_of_length_pos (by omega)
  obtain ⟨hflt, -, hfree⟩ := husable f hf
  have hle := boot.frameCount_le
  exact ⟨4096 * f, by omega, hfree (4096 * f) le_rfl (by omega)⟩

/-- On a machine with room more frames are free than the page tables of start-up take. -/
theorem BootInfo.Roomy.clear {boot : BootInfo} (h : boot.Roomy) {pmm : Pmm.State}
    (husable : ∀ f, boot.Usable f → f < pmm.frameCount ∧ pmm.bit f = false) :
    Paging.neededFramesOf (Paging.identityBytesOf boot.toLayout 0) <
      clearCount pmm.bit pmm.frameCount := by
  obtain ⟨fs, hnodup, hfs, hlen⟩ := h
  exact hlen.trans_le (length_le_clearCount hnodup fun f hf => husable f (hfs f hf))

/-- `mem_init` on a machine with room for the first page tables. -/
theorem memInit_started {boot : BootInfo} {s : Paging.State}
    (hkernel : boot.kernelPhysAddress.toNat = 0x100000) (himage : 0x100000 < boot.kernelEnd.toNat)
    (hroom : boot.Roomy) (hret : memInit boot = .ok s) : Started boot s.pmm := by
  obtain ⟨b, hb, hspare⟩ := hroom.spare
  obtain ⟨pmm, pd, -, hstarted, -, husable, hpaging⟩ :=
    memInit_parts hkernel himage hb hspare hret
  obtain ⟨hinv, -, -, -, hcov⟩ := Paging.pagingInitIdentityWindow_spec hpaging hstarted.inv
    (hroom.clear fun f => (husable f).mp) boot.neededFrames_eq
  exact ⟨hinv, fun a ha hres => hcov a (hstarted.covers a ha hres)⟩

/-! ## Protection -/

/-- The calls that allocate or free frames; reservations are not among them. -/
def AllocFree : Op → Bool
  | .reservePageframe _ _ => false
  | _ => true

/-- The operation does not free a frame that holds bytes of the bitmap. -/
def SparesBitmap (s : Pmm.State) : Op → Prop
  | .deallocSpecificBlock addr => ¬ s.HoldsBitmap (addr.toNat / 4096)
  | _ => True

/-- The invariant of runs after start-up: the frames of the bitmap are marked, and the region
table covers the reserved addresses. -/
structure Protecting (boot : BootInfo) (s : Pmm.State) : Prop where
  inv : s.Inv
  bitmap_set : ∀ f, f < s.frameCount → s.HoldsBitmap f → s.bit f = true
  covers : ∀ a, a < 2 ^ 32 → boot.Reserved a → Covered s.memRegions a

theorem Started.protecting {boot : BootInfo} {s : Pmm.State} (h : Started boot s) :
    Protecting boot s :=
  ⟨h.inv.toInv, fun f hf hhold => h.inv.low f hf hhold.2, h.covers⟩

variable {boot : BootInfo} {s t : Pmm.State}

/-- Marking a frame keeps the bitmap's own frames marked. -/
theorem Protecting.bmSet (h : Protecting boot s) {f : Nat} (hinv : t.Inv)
    (hbit : ∀ g, t.bit g = (decide (g = f) || s.bit g)) (hconf : t.pagebitmapPhys =
      s.pagebitmapPhys ∧ t.pagebitmapSizeBytes = s.pagebitmapSizeBytes ∧
      t.frameCount = s.frameCount ∧ t.memRegions = s.memRegions) : Protecting boot t := by
  obtain ⟨hphys, hsize, hcount, hregions⟩ := hconf
  refine ⟨hinv, fun g hg hhold => ?_, fun a ha hres => hregions ▸ h.covers a ha hres⟩
  unfold State.HoldsBitmap at hhold
  rw [hphys, hsize] at hhold
  rw [hbit, h.bitmap_set g (hcount ▸ hg) hhold]
  simp

theorem Protecting.getNext (h : Protecting boot s) :
    Protecting boot (pmmGetNextAvailableBlock s).2 := by
  have hinv := pmmGetNextAvailableBlock_inv h.inv
  rcases pmmGetNextAvailableBlock_cases h.inv with heq | ⟨f, -, -, heq⟩
  · rw [heq]
    exact h
  · rw [heq] at hinv ⊢
    exact h.bmSet hinv (bit_bmSet s f) ⟨rfl, rfl, rfl, rfl⟩

theorem Protecting.step {op : Op} (h : Protecting boot s) (hop : AllocFree op = true)
    (hspare : SparesBitmap s op) (hstep : Step s op t) : Protecting boot t := by
  unfold Step at hstep
  cases op with
  | reservePageframe out clear => simp [AllocFree] at hop
  | getNextAvailableBlock => exact Except.ok.inj hstep ▸ h.getNext
  | allocFrame =>
      have heq : (pmmAllocFrame s).2 = t := Except.ok.inj hstep
      rw [← heq, pmmAllocFrame_eq h.inv]
      exact h.getNext
  | allocSpecificBlock addr =>
      have hinv := pmmAllocSpecificBlock_inv h.inv addr.toNat
      have heq : (pmmAllocSpecificBlock s addr.toNat).2 = t := Except.ok.inj hstep
      rcases pmmAllocSpecificBlock_cases h.inv addr.toNat with ⟨-, hsame⟩ | ⟨f, -, -, -, -, hset⟩
      · rw [← heq, hsame]
        exact h
      · rw [hset] at hinv
        rw [← heq, hset]
        exact h.bmSet hinv (bit_bmSet s f) ⟨rfl, rfl, rfl, rfl⟩
  | deallocSpecificBlock addr =>
      have hinv := pmmDeallocSpecificBlock_inv h.inv addr.toNat
      have heq : (pmmDeallocSpecificBlock s addr.toNat).2 = t := Except.ok.inj hstep
      rcases pmmDeallocSpecificBlock_cases h.inv addr.toNat with
        ⟨-, hsame⟩ | ⟨f, haddr, -, -, -, hclear⟩
      · rw [← heq, hsame]
        exact h
      · rw [hclear] at hinv
        rw [← heq, hclear]
        have hf : ¬ s.HoldsBitmap f := by
          have hdiv : addr.toNat / 4096 = f := by omega
          exact hdiv ▸ hspare
        refine ⟨hinv, fun g hg hhold => ?_, h.covers⟩
        have hne : g ≠ f := fun heq => hf (heq ▸ hhold)
        rw [bit_bmClear]
        simp only [hne, decide_false, Bool.not_false, Bool.true_and]
        exact h.bitmap_set g hg hhold

/-- Some allocating call hands out frame `f` in state `s`. -/
def HandsOut (s : Pmm.State) (f : Nat) : Prop :=
  (pmmGetNextAvailableBlock s).1 = ⟨.allocSuccess, 4096 * f⟩ ∨
    (pmmAllocFrame s).1 = ⟨.allocSuccess, 4096 * f⟩ ∨
    (pmmAllocSpecificBlock s (4096 * f)).1 = .allocSuccess

instance (s : Pmm.State) (f : Nat) : Decidable (HandsOut s f) :=
  inferInstanceAs (Decidable (_ ∨ _ ∨ _))

/-- Address `a` is reserved by the boot information or by the region table, or holds a byte of
the bitmap. -/
def Protected (boot : BootInfo) (s : Pmm.State) (a : Nat) : Prop :=
  boot.Reserved a ∨ Covered s.memRegions a ∨
    (s.pagebitmapPhys ≤ a ∧ a < s.pagebitmapPhys + s.pagebitmapSizeBytes)

/-- What is handed out was free. -/
theorem HandsOut.clear {f : Nat} (hs : s.Inv) (h : HandsOut s f) :
    f < s.frameCount ∧ s.bit f = false := by
  have hnext : (pmmGetNextAvailableBlock s).1 = ⟨.allocSuccess, 4096 * f⟩ →
      f < s.frameCount ∧ s.bit f = false := by
    intro hret
    rcases pmmGetNextAvailableBlock_cases hs with heq | ⟨g, hg, hbit, heq⟩
    · simp [heq] at hret
    · rw [heq, Alloc.mk.injEq] at hret
      have hfg : g = f := by omega
      exact hfg ▸ ⟨hg, hbit⟩
  rcases h with hret | hret | hret
  · exact hnext hret
  · exact hnext (pmmAllocFrame_eq hs ▸ hret)
  · rcases pmmAllocSpecificBlock_cases hs (4096 * f) with ⟨hne, -⟩ | ⟨g, hfg, hg, hbit, -, -⟩
    · exact absurd hret hne
    · have hfg : g = f := by omega
      exact hfg ▸ ⟨hg, hbit⟩

/-- After `mem_init` on a machine with room for the first page tables, no sequence of allocating
and freeing calls that spares the bitmap leads to a state in which protected memory is handed
out. -/
theorem protected_not_handed_out (boot : BootInfo) (start : Paging.State) (ops : List Op)
    (s : Pmm.State) (hkernel : boot.kernelPhysAddress.toNat = 0x100000)
    (himage : 0x100000 < boot.kernelEnd.toNat) (hroom : boot.Roomy)
    (hinit : memInit boot = .ok start) (hops : ∀ op ∈ ops, AllocFree op = true)
    (hrun : Run (Guarded Step SparesBitmap) start.pmm ops s) (f : Nat) (hf : HandsOut s f) :
    ∀ a, 4096 * f ≤ a → a < 4096 * f + 4096 → ¬ Protected boot s a := by
  have hs : Protecting boot s := by
    have hstart := (memInit_started hkernel himage hroom hinit).protecting
    generalize start.pmm = pmm at hrun hstart
    clear hinit hf
    induction hrun with
    | nil => exact hstart
    | cons hop _ ih =>
        exact ih (fun op hop => hops op (by simp [hop]))
          (hstart.step (hops _ (by simp)) hop.1 hop.2)
  obtain ⟨hlt, hbit⟩ := hf.clear hs.inv
  have hpow := hs.inv.lt_pow hlt
  rintro a h1 h2 (hres | hcov | ⟨h3, h4⟩)
  · exact hs.inv.not_reserved hlt hbit ⟨a, h1, h2, hs.covers a (by omega) hres⟩
  · exact hs.inv.not_reserved hlt hbit ⟨a, h1, h2, hcov⟩
  · simp [hs.bitmap_set f hlt ⟨by omega, by omega⟩] at hbit

/-- A machine with 263 frames and a kernel image of one page: the bitmap lies in frame `0x101`, and
the first page tables take the next four frames. -/
def smallInfo : BootInfo where
  availMemoryKib := 1052
  kernelEnd := 0x101000
  mem := fun _ => 0
  kernelStart := 0x100000
  bootinfoValidated := true
  kernelPhysAddress := 0x100000
  memoryMethod := .useCmos
  e820Descs := []

/-- Frame `0x101` is handed out in state `s` although the bitmap begins there. -/
def HandsOutBitmap (s : Pmm.State) : Prop :=
  HandsOut s 0x101 ∧ s.pagebitmapPhys ≤ 0x101000 ∧
    0x101000 < s.pagebitmapPhys + s.pagebitmapSizeBytes

instance (s : Pmm.State) : Decidable (HandsOutBitmap s) := inferInstanceAs (Decidable (_ ∧ _ ∧ _))

/-- Start-up of the small machine: the bitmap can be freed, and then it is handed out. -/
theorem smallInfo_start : ∃ start, memInit smallInfo = .ok start ∧
    decide (HandsOut start.pmm 0x106 ∧
      HandsOutBitmap (pmmDeallocSpecificBlock start.pmm 0x101000).2) = true :=
  exists_of_okAnd (by decide +kernel)

theorem smallInfo_roomy : smallInfo.Roomy := by
  refine ⟨[0x102, 0x103, 0x104, 0x105, 0x106], by decide, fun f hf => ?_, by decide⟩
  have hmem : 0x102 ≤ f ∧ f ≤ 0x106 := by
    simp only [List.mem_cons, List.not_mem_nil, or_false] at hf
    omega
  refine ⟨?_, ?_, fun a h1 h2 hres => ?_⟩
  · change f < 263
    omega
  · change 0x101000 + 33 ≤ 4096 * f
    omega
  · rcases hres with hlow | ⟨-, himage⟩ | ⟨hmethod, -⟩
    · omega
    · change a < 0x101000 at himage
      omega
    · exact absurd hmethod (by decide)

theorem protected_not_handed_out_small : ∃ start, memInit smallInfo = .ok start ∧
    HandsOut start.pmm 0x106 ∧ ¬ Protected smallInfo start.pmm 0x106000 := by
  obtain ⟨start, hstart, htest⟩ := smallInfo_start
  obtain ⟨hout, -⟩ := of_decide_eq_true htest
  exact ⟨start, hstart, hout, protected_not_handed_out smallInfo start [] start.pmm rfl (by decide)
    smallInfo_roomy hstart (by simp) (.nil _) 0x106 hout 0x106000 le_rfl (by omega)⟩

/-- Freeing the frame of the bitmap succeeds, and the next allocation of that frame hands it
out. -/
theorem bitmap_handed_out : ∃ start s, memInit smallInfo = .ok start ∧
    Run Step start.pmm [.deallocSpecificBlock 0x101000] s ∧
    HandsOut s 0x101 ∧ Protected smallInfo s 0x101000 := by
  obtain ⟨start, hstart, htest⟩ := smallInfo_start
  obtain ⟨-, hout, hbitmap⟩ := of_decide_eq_true htest
  exact ⟨start, (pmmDeallocSpecificBlock start.pmm 0x101000).2, hstart, .cons rfl (.nil _), hout,
    .inr (.inr hbitmap)⟩

end Unidos
