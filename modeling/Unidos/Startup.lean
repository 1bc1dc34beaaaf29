import Unidos.MemInit
import Unidos.Paging.BootMap
import Unidos.Dpage.Frames

/-!
# The machine after start-up

`mem_init` leaves a memory manager in which the frames of the page tables are taken, and page
tables that lead where they should. `memInit_booted` puts the two together for a machine with room
for the tables; `Booted.good` is the invariant on which the later changes of the kernel's tables
rest.
-/

namespace Unidos

open Lib Paging Dpage

/-- The memory that the boot tables map, in bytes. -/
def BootInfo.windowBytes (boot : BootInfo) : Nat := identityBytesOf boot.toLayout 0

/-- A frame of the boot tables: taken, and behind the bitmap. -/
structure TakenFrame (pmm : Pmm.State) (f : Nat) : Prop where
  lt : f < pmm.frameCount
  set : pmm.bit f = true
  behind : pmm.pagebitmapPhys + pmm.pagebitmapSizeBytes ≤ 4096 * f

/-- What `mem_init` leaves behind on a machine with room for the first page tables. -/
structure Booted (boot : BootInfo) (s : Paging.State) : Prop where
  started : Started boot s.pmm
  count : s.pmm.frameCount = boot.topBytes / 4096
  wired : s.Wired
  mapped : BootMapped boot.toLayout boot.windowBytes s
  pages : kernelPages boot.toLayout ≤ 1024
  tables : ∃ n, n ≤ 192 ∧ boot.windowBytes = n * 2 ^ 22
  dir : TakenFrame s.pmm s.dirFrame
  table : ∀ f, TableFrame s f → TakenFrame s.pmm f
  frames : ∃ frames : List Nat, frames.length = neededFramesOf boot.windowBytes ∧
    ∀ f, f ∈ frames ↔ f = s.dirFrame ∨ TableFrame s f
  free : ∀ f, f < s.pmm.frameCount ∧ s.pmm.bit f = false ↔
    boot.Usable f ∧ ¬ (f = s.dirFrame ∨ TableFrame s f)
  reserved : ∀ f, f = s.dirFrame ∨ TableFrame s f → s.pmm.FrameReserved f
  room : s.pageTableCount < ptMax
  leftover : ∀ f, f < s.pmm.frameCount → s.pmm.bit f = false → AgreeOn boot.mem s.pmm.mem f

section MemInit

variable {boot : BootInfo} {s : Paging.State}

theorem TakenFrame.not_bitmap {pmm : Pmm.State} {f : Nat} (h : TakenFrame pmm f) :
    ¬ pmm.HoldsBitmap f := by
  intro hholds
  have hlt : 4096 * f < pmm.pagebitmapPhys + pmm.pagebitmapSizeBytes := hholds.2
  have := h.behind
  omega

theorem TakenFrame.ne_zero {pmm : Pmm.State} {f : Nat} (h : TakenFrame pmm f) (hinv : pmm.Inv) :
    f ≠ 0 := by
  have := h.behind
  have := hinv.phys_ne
  omega

theorem memInit_booted (hkernel : boot.kernelPhysAddress.toNat = 0x100000)
    (himage : 0x100000 < boot.kernelEnd.toNat) (hroom : boot.Roomy)
    (hret : memInit boot = .ok s) : Booted boot s := by
  have hstarted := memInit_started hkernel himage hroom hret
  obtain ⟨b, hb, hspare⟩ := hroom.spare
  obtain ⟨pmm, pd, regions, hpmm, hinit, husable, hpaging⟩ :=
    memInit_parts hkernel himage hb hspare hret
  have hclear := hroom.clear fun f => (husable f).mp
  obtain ⟨-, frames, pmm', n, hbuilt⟩ := bootBuilt_of_ok hpaging fun frames pmm' hres =>
    (reserveFrames_spec hpmm.inv hclear hres).increasing.imp Nat.ne_of_lt
  have hneeded : neededFramesOf (identityBytesOf boot.toLayout 0) = 2 * n + 2 := by
    have hn := hbuilt.built.built.room
    rw [hbuilt.bytes, neededFramesOf, neededPtsOf, if_neg (by omega)]
    omega
  rw [hneeded] at hclear
  have hspec := reserveFrames_spec hpmm.inv hclear hbuilt.reserved
  have hbehind : ∀ k, k < 2 * n + 2 →
      pmm.pagebitmapPhys + pmm.pagebitmapSizeBytes ≤ frames.getD k 0 :=
    fun k hk => hspec.behind _ (hbuilt.distinct.getD_mem hk)
  have hfills := buildTables_fillsOnly (by have := hbuilt.built.built.room; omega)
    hspec.length.ge hbuilt.build
  obtain ⟨mem, hmem, hwrites⟩ := hfills.pmm
  have hkeep : ∀ a, a < pmm.pagebitmapPhys + pmm.pagebitmapSizeBytes → mem a = pmm'.mem a :=
    fun a ha => hwrites a fun addr haddr => .inl (ha.trans_le (hspec.behind addr haddr))
  have htaken : ∀ k, k < 2 * n + 2 → TakenFrame s.pmm (frames.getD k 0 / 4096) := by
    intro k hk
    obtain ⟨-, hlt, hset⟩ := hspec.taken _ (hbuilt.distinct.getD_mem hk)
    have hsize := hspec.inv.size_eq
    rw [hmem]
    refine ⟨hspec.count ▸ hlt, ?_, ?_⟩
    · rw [← hset]
      refine Pmm.bit_withMem pmm' (fun a _ ha => hkeep a ?_) (hspec.count ▸ hlt)
      rw [← hspec.phys, ← hspec.size]
      omega
    · change pmm'.pagebitmapPhys + pmm'.pagebitmapSizeBytes ≤ _
      rw [hspec.phys, hspec.size, hbuilt.distinct.addr_eq hk]
      exact hbehind k hk
  have hcount : s.pmm.frameCount = pmm.frameCount := by rw [hmem]; exact hspec.count
  -- the frames of the tables, by number
  have hframes : ∀ f, 4096 * f ∈ frames ↔ f = s.dirFrame ∨ TableFrame s f := by
    intro f
    rw [dirFrame_built hbuilt.built]
    constructor
    · intro hin
      obtain ⟨k, hk, heq⟩ := List.mem_iff_getElem.mp hin
      have hk' : k < 2 * n + 2 := by rw [← hspec.length]; exact hk
      have hget : frames.getD k 0 = 4096 * f := by
        rw [List.getD_eq_getElem?_getD, List.getElem?_eq_getElem hk, Option.getD_some, heq]
      obtain rfl | hpos := Nat.eq_zero_or_pos k
      · exact .inl (by rw [hget, Nat.mul_div_cancel_left f (by decide)])
      · obtain ⟨i, hi, hslot⟩ := bootSlot_surj hbuilt.built.built.room hpos hk'
        obtain ⟨hpresent, hphys, -⟩ := dirEntry_some hbuilt.distinct hbuilt.built hi hslot
        rw [hget, entryPhys_eq] at hphys
        exact .inr ⟨i, hi, hpresent, by omega⟩
    · rintro (rfl | ⟨i, hi, hpresent, rfl⟩)
      · rw [hbuilt.distinct.addr_eq (by omega)]
        exact hbuilt.distinct.getD_mem (by omega)
      · obtain ⟨k, hslot, hframe⟩ := present_built hbuilt.distinct hbuilt.built hi hpresent
        rw [hframe, hbuilt.distinct.addr_eq (bootSlot_lt hslot)]
        exact hbuilt.distinct.getD_mem (bootSlot_lt hslot)
  have hbit : ∀ f, f < pmm.frameCount → (s.pmm.bit f = true ↔
      pmm.bit f = true ∨ 4096 * f ∈ frames) := by
    intro f hf
    have hsame : s.pmm.bit f = pmm'.bit f := by
      have hsize := hspec.inv.size_eq
      rw [hmem]
      refine Pmm.bit_withMem pmm' (fun a _ ha => hkeep a ?_) (hspec.count ▸ hf)
      rw [← hspec.phys, ← hspec.size]
      omega
    rw [hsame]
    refine ⟨hspec.bits f hf, fun hset => ?_⟩
    rcases hset with hset | hin
    · exact hspec.grows f hf hset
    · have htaken := (hspec.taken _ hin).2.2
      rwa [Nat.mul_div_cancel_left f (by decide)] at htaken
  refine ⟨hstarted, ?_, hbuilt.wired, hbuilt.mapped, hbuilt.pages,
    ⟨n, hbuilt.built.built.room, hbuilt.bytes⟩, ?_, fun f hf => ?_,
    ⟨frames.map (· / 4096), ?_, fun f => ?_⟩, fun f => ?_, fun f hf => ?_, ?_,
    fun f hf hfree a hlo hhi => ?_⟩
  · rw [hmem]
    exact hspec.count.trans hinit.count
  · rw [dirFrame_built hbuilt.built]
    exact htaken 0 (by omega)
  · obtain ⟨i, hi, hpresent, rfl⟩ := hf
    obtain ⟨k, hslot, hframe⟩ := present_built hbuilt.distinct hbuilt.built hi hpresent
    rw [hframe]
    exact htaken k (bootSlot_lt hslot)
  · rw [List.length_map, hspec.length]
    exact hneeded.symm
  · rw [← hframes f]
    constructor
    · intro hin
      obtain ⟨addr, haddr, rfl⟩ := List.mem_map.mp hin
      rw [Nat.mul_div_cancel' (Nat.dvd_of_mod_eq_zero (hbuilt.distinct.aligned addr haddr).1)]
      exact haddr
    · intro hin
      exact List.mem_map.mpr ⟨4096 * f, hin, Nat.mul_div_cancel_left f (by decide)⟩
  · rw [husable f, hcount, ← hframes f, and_assoc]
    refine and_congr_right fun hf => ?_
    rw [← Bool.not_eq_true, hbit f hf, not_or, Bool.not_eq_true]
  · have hin := (hframes f).mpr hf
    refine ⟨4096 * f, le_rfl, by omega, ?_⟩
    rw [hmem]
    exact hspec.reserved _ hin
  · have hmax : ptMax = 1024 := rfl
    have hn := hbuilt.built.built.room
    rw [buildTables_count hbuilt.build]
    omega
  · -- a frame that is free at the end is neither a frame of the tables nor one of the bitmap
    have hout : ∀ addr ∈ frames, a < addr ∨ addr + 4096 ≤ a := by
      intro addr haddr
      obtain ⟨k, hk, rfl⟩ := List.mem_iff_getElem.mp haddr
      have hk' : k < 2 * n + 2 := by rw [← hspec.length]; exact hk
      have hset := (htaken k hk').set
      have haligned := hbuilt.distinct.addr_eq hk'
      rw [List.getD_eq_getElem?_getD, List.getElem?_eq_getElem hk, Option.getD_some]
        at hset haligned
      have hne : frames[k] / 4096 ≠ f := by
        intro heq
        rw [heq, hfree] at hset
        cases hset
      omega
    have hclear' := hstarted.inv.low f hf
    rw [hfree] at hclear'
    have hlow : ¬ 4096 * f < s.pmm.pagebitmapPhys + s.pmm.pagebitmapSizeBytes := by
      intro hlow
      cases hclear' hlow
    rw [hmem] at hlow
    have hbitmap : pmm.pagebitmapPhys + pmm.pagebitmapSizeBytes ≤ a := by
      rw [← hspec.phys, ← hspec.size]
      exact (Nat.le_of_not_lt hlow).trans hlo
    rw [hmem]
    change mem a = boot.mem a
    rw [hwrites a hout, hspec.mem a (.inr hbitmap) hout, hinit.mem a (.inr hbitmap)]

namespace Booted

variable (h : Booted boot s)

include h

theorem sound : s.pmm.Sound :=
  ⟨h.started.inv.toInv, h.started.protecting.bitmap_set⟩

/-- Below 4 GiB every frame lies where the window reaches. -/
theorem frame_lt (hkib : boot.availMemoryKib.toNat < 2 ^ 22) {f : Nat}
    (hf : f < s.pmm.frameCount) : 4096 * f < 0x30000000 := by
  obtain ⟨n, hn, hbytes⟩ := h.tables
  have hcount := h.count
  rw [BootInfo.windowBytes, identityBytesOf, if_pos rfl] at hbytes
  unfold Pmm.BootParams.topBytes at hcount
  omega

theorem reachable (hkib : boot.availMemoryKib.toNat < 2 ^ 22) : s.Reachable := by
  have hinv := h.started.inv.toInv
  have hdir := h.wired.dir_eq
  refine ⟨?_, ?_, fun i hi hpresent => ?_, fun i hi hpresent => ?_⟩
  · have := h.dir.ne_zero hinv
    omega
  · rw [hdir]
    exact h.frame_lt hkib h.dir.lt
  · have := (h.table _ ⟨i, hi, hpresent, rfl⟩).ne_zero hinv
    rw [entryPhys_eq]
    omega
  · rw [entryPhys_eq]
    exact h.frame_lt hkib (h.table _ ⟨i, hi, hpresent, rfl⟩).lt

theorem good (hreach : s.Reachable) : Good s where
  sound := h.sound
  wired := h.wired
  reach := hreach
  dir_busy _ := h.dir.set
  dir_bitmap := h.dir.not_bitmap
  table_busy f hf _ := (h.table f hf).set
  table_bitmap f hf := (h.table f hf).not_bitmap
  zero_busy hlt := by
    refine h.started.inv.low 0 hlt ?_
    have := h.started.inv.phys_ne
    omega

end Booted

end MemInit

/-- The boot tables, page by page. -/
theorem BootMapped.frame {boot : Layout} {bytes : Nat} {s : Paging.State}
    (h : BootMapped boot bytes s) {va : Nat} (hva : va < 2 ^ 32) :
    (s.pageMap (va / 4096)).map (fun page => 4096 * page.frame + va % 4096) =
      bootTarget boot bytes va := by
  rw [← h.target va hva, pageMap_apply hva, Option.map_map]
  refine congrFun (congrArg Option.map ?_) _
  funext w
  rw [entryPhys_eq]
  rfl

end Unidos
