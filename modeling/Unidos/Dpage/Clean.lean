import Unidos.Dpage.Element
import Unidos.Lib.Run

/-!
# Allocations that fail

`FailsClean` is what a failed `dpage_alloc` should leave behind. It does, unless the element lies on
two pages, the first is mapped already, and there is no frame for the second
(`dpageAlloc_clean_iff`): then the first page is unmapped and its frame is freed, with the elements
that live on it.
-/

namespace Unidos.Dpage

open Lib Paging

/-- A page with bytes of the pool. -/
def Pool.Page (pool : Pool) (q : Nat) : Prop :=
  ∃ slot k, slot < pool.slots ∧ k < pool.elementSize ∧ q = (pool.vaddr slot + k) % 2 ^ 32 / 4096

/-- A page with bytes of the bitmap. -/
def Pool.BitmapPage (pool : Pool) (q : Nat) : Prop :=
  ∃ slot, slot < pool.slots ∧ q = pool.bitAddr slot / 4096

/-- A page with bytes of the pool or of its bitmap. -/
def Pool.Ours (pool : Pool) (q : Nat) : Prop := pool.Page q ∨ pool.BitmapPage q

/-- The frames behind the pages of the pool and of its bitmap are allocated, and not the
kernel's. -/
structure Pool.Safe (pool : Pool) (s : Paging.State) : Prop where
  good : Good s
  busy : ∀ q page, pool.Ours q → s.pageMap q = some page → Busy s page.frame
  plain : ∀ q page, pool.Ours q → s.pageMap q = some page → Plain s page.frame

/-- What a failed call should leave behind: the bitmap, the pages that were mapped and the contents
of the pool are as before, and the frames that are allocated are those that were, and new page
tables. -/
structure FailsClean (pool : Pool) (s t : Paging.State) : Prop where
  bitmap : ∀ slot byte, slot < pool.slots → readByte s (pool.bitAddr slot) = .ok byte →
    readByte t (pool.bitAddr slot) = .ok byte
  pages : ∀ q page, s.pageMap q = some page → t.pageMap q = some page
  contents : ∀ q page, pool.Page q → s.pageMap q = some page →
    AgreeOn s.pmm.mem t.pmm.mem page.frame
  frames : ∀ f, f < s.pmm.frameCount →
    (t.pmm.bit f = true ↔ s.pmm.bit f = true ∨ TableFrame t f)

/-- The first free slot lies on two pages, the first of them mapped, and there is no frame for the
second. The bitmap is not on the first page: otherwise the call faults. -/
def LosesPage (pool : Pool) (s : Paging.State) : Prop :=
  ∃ slot, findSlot pool s pool.slots 0 = .ok (some slot) ∧ Stuck pool s slot ∧
    pool.bitAddr slot / 4096 ≠ pool.first slot / 4096

variable {s t u : Paging.State} {pool : Pool} {slot : Nat}

/-! ## The bitmap -/

theorem Pool.bitAddr_ours (pool : Pool) (hslot : slot < pool.slots) :
    pool.Ours (pool.bitAddr slot / 4096) := .inr ⟨slot, hslot, rfl⟩

/-- The slot that the search finds is free. -/
theorem findSlot_some {n start : Nat} (h : findSlot pool s n start = .ok (some slot)) :
    slot < start + n ∧ ∃ byte, readByte s (pool.bitAddr slot) = .ok byte ∧
      byte &&& 1#8 <<< (slot % 8) = 0 := by
  induction n generalizing start with
  | zero => simp [findSlot] at h
  | succ n ih =>
      unfold findSlot at h
      obtain ⟨byte, hread, h⟩ := bind_eq_ok.mp h
      split at h
      · rename_i hfree
        obtain rfl : start = slot := by simpa using h
        exact ⟨by omega, byte, hread, hfree⟩
      · obtain ⟨hlt, hrest⟩ := ih h
        exact ⟨by omega, hrest⟩

theorem readByte_eq_ok {va : Nat} {byte : Byte} : readByte s va = .ok byte ↔
    ∃ page, s.pageMap (va / 4096) = some page ∧
      byte = s.pmm.mem (4096 * page.frame + va % 4096) := by
  unfold readByte physOf
  cases s.pageMap (va / 4096) with
  | none => simp
  | some page => simp [eq_comm]

theorem writeByte_of_mapped {va : Nat} {page : Mapping} (h : s.pageMap (va / 4096) = some page)
    (value : Byte) : writeByte s va value =
      .ok (s.withMem (Function.update s.pmm.mem (4096 * page.frame + va % 4096) value)) := by
  unfold writeByte physOf
  rw [h]
  rfl

theorem clear_set_byte {byte mask : Byte} (h : byte &&& mask = 0) :
    (byte ||| mask) &&& ~~~mask = byte := by
  refine BitVec.eq_of_getLsbD_eq fun i hi => ?_
  have hbit := congrArg (fun b => BitVec.getLsbD b i) h
  simp only [BitVec.getLsbD_and] at hbit
  rw [BitVec.getLsbD_and, BitVec.getLsbD_or, BitVec.getLsbD_not]
  cases hb : byte.getLsbD i with
  | true => simp_all
  | false => cases mask.getLsbD i with
      | true => simp
      | false => simp

/-- The byte of the bitmap for a slot, before and after the bit is set. -/
structure BitSet (pool : Pool) (s t : Paging.State) (slot frame : Nat) (byte : Byte) : Prop where
  page : ∃ flags, s.pageMap (pool.bitAddr slot / 4096) = some ⟨frame, flags⟩
  before : s.pmm.mem (4096 * frame + pool.bitAddr slot % 4096) = byte
  free : byte &&& 1#8 <<< (slot % 8) = 0
  state : t = s.withMem (Function.update s.pmm.mem (4096 * frame + pool.bitAddr slot % 4096)
    (byte ||| 1#8 <<< (slot % 8)))

theorem dpageBmSet_found {n : Nat} (hn : n ≤ pool.slots)
    (hslot : findSlot pool s n 0 = .ok (some slot)) :
    slot < pool.slots ∧ ∃ t frame byte, dpageBmSet pool s slot = .ok t ∧
      BitSet pool s t slot frame byte := by
  obtain ⟨hlt, byte, hread, hfree⟩ := findSlot_some hslot
  obtain ⟨page, hpage, hbyte⟩ := readByte_eq_ok.mp hread
  refine ⟨by omega, _, page.frame, byte, ?_, ⟨page.flags, hpage⟩, hbyte.symm, hfree, rfl⟩
  rw [dpageBmSet, if_neg (by omega), hread, ok_bind, writeByte_of_mapped hpage]

/-- Clearing the bit again restores the byte. -/
theorem dpageBmClear_restores {frame : Nat} {byte : Byte} {flags : BitVec 32}
    (hslot : slot < pool.slots)
    (hpage : t.pageMap (pool.bitAddr slot / 4096) = some ⟨frame, flags⟩)
    (hbyte : t.pmm.mem (4096 * frame + pool.bitAddr slot % 4096) = byte ||| 1#8 <<< (slot % 8))
    (hfree : byte &&& 1#8 <<< (slot % 8) = 0) :
    dpageBmClear pool t slot = .ok (t.withMem
      (Function.update t.pmm.mem (4096 * frame + pool.bitAddr slot % 4096) byte)) := by
  have hread : readByte t (pool.bitAddr slot) = .ok (byte ||| 1#8 <<< (slot % 8)) :=
    readByte_eq_ok.mpr ⟨_, hpage, hbyte.symm⟩
  rw [dpageBmClear, if_neg (by omega), hread, ok_bind, writeByte_of_mapped hpage,
    clear_set_byte hfree]

theorem Pool.Safe.written {frame : Nat} {byte : Byte} (h : pool.Safe s) (hslot : slot < pool.slots)
    (hset : BitSet pool s t slot frame byte) :
    Written s t frame ∧ Busy s frame ∧ Plain s frame := by
  obtain ⟨flags, hpage⟩ := hset.page
  have hours := pool.bitAddr_ours hslot
  have hplain := h.plain _ _ hours hpage
  refine ⟨?_, h.busy _ _ hours hpage, hplain⟩
  rw [hset.state]
  exact h.good.write hplain (changesOnly_update _ _ _ _)

/-! ## Clean failures -/

/-- If mapping fails without touching a page, the call fails clean. -/
theorem failsClean_of_noPage {frame : Nat} {byte : Byte} (h : pool.Safe s)
    (hslot : slot < pool.slots) (hset : BitSet pool s u slot frame byte) {v : Paging.State}
    (hnoPage : NoPage u v) (hclear : dpageBmClear pool v slot = .ok t) : FailsClean pool s t := by
  obtain ⟨hwritten, hbusy, hplain⟩ := h.written hslot hset
  obtain ⟨flags, hpage⟩ := hset.page
  have hnotable : ∀ f, Busy s f → Plain s f → ¬ TableFrame v f := fun f hb hp =>
    hnoPage.moved.not_table ((hwritten.plain f).mpr hp).table (hwritten.busy hb)
  -- frames with data are the same after mapping failed
  have hmoved : ∀ f, Busy s f → Plain s f → AgreeOn u.pmm.mem v.pmm.mem f := fun f hb hp =>
    hnoPage.moved.mem f ((hwritten.plain f).mpr hp) (hnotable f hb hp)
  have hpageV : v.pageMap (pool.bitAddr slot / 4096) = some ⟨frame, flags⟩ :=
    hnoPage.keeps _ _ (by rw [hwritten.pageMap]; exact hpage)
  have hbyteV : v.pmm.mem (4096 * frame + pool.bitAddr slot % 4096) =
      byte ||| 1#8 <<< (slot % 8) := by
    rw [hmoved frame hbusy hplain _ (by omega) (by omega), hset.state]
    exact Function.update_self ..
  rw [dpageBmClear_restores hslot hpageV hbyteV hset.free] at hclear
  have hplainV : Plain v frame :=
    hnoPage.moved.plain ((hwritten.plain frame).mpr hplain) (hnotable frame hbusy hplain)
  have hback := hnoPage.moved.good.write hplainV (changesOnly_update v.pmm.mem frame
    (pool.bitAddr slot) byte)
  rw [Except.ok.inj hclear] at hback
  -- the byte of the bitmap is the one it was
  have hagree : ∀ f, Busy s f → Plain s f → AgreeOn s.pmm.mem t.pmm.mem f := by
    intro f hb hp
    by_cases hf : f = frame
    · subst hf
      intro a h1 h2
      have hv := hmoved f hb hp a h1 h2
      rw [← Except.ok.inj hclear]
      change Function.update v.pmm.mem _ byte a = _
      by_cases ha : a = 4096 * f + pool.bitAddr slot % 4096
      · rw [ha, Function.update_self, hset.before]
      · rw [Function.update_of_ne ha, hv, hset.state]
        exact Function.update_of_ne ha _ _
    · exact ((hwritten.mem f hf).trans (hmoved f hb hp)).trans (hback.mem f hf)
  have hkeeps : KeepsPages s t := by
    intro q page hq
    rw [hback.pageMap]
    refine hnoPage.keeps q page ?_
    rwa [hwritten.pageMap]
  refine ⟨fun slot' byte' hslot' hread => ?_, hkeeps, fun q page hq hmap => ?_, fun f hf => ?_⟩
  · obtain ⟨page, hmap, rfl⟩ := readByte_eq_ok.mp hread
    have hours := pool.bitAddr_ours hslot'
    refine readByte_eq_ok.mpr ⟨page, hkeeps _ _ hmap, ?_⟩
    exact (hagree _ (h.busy _ _ hours hmap) (h.plain _ _ hours hmap) _ (by omega) (by omega)).symm
  · exact hagree _ (h.busy q page (.inl hq) hmap) (h.plain q page (.inl hq) hmap)
  · have hcount : f < v.pmm.frameCount := by
      rw [hnoPage.moved.count, hwritten.count]
      exact hf
    have hbits := hnoPage.moved.bits f (by rw [hwritten.count]; exact hf)
    rw [hwritten.bit f hf] at hbits
    simp only [List.not_mem_nil, false_or] at hbits
    rw [hback.bit f hcount, hbits, hback.tableFrame]

/-! ## Lost pages -/

/-- A page was unmapped, and the frames with data did not become the kernel's. -/
structure PageLost (s t : Paging.State) (q : Nat) : Prop where
  pageMap : t.pageMap = Function.update s.pageMap q none
  dirFrame : t.dirFrame = s.dirFrame
  table : ∀ f, Plain s f → Busy s f → ¬ TableFrame t f

/-- Taking away a page, whoever mapped it. -/
theorem undoFirst_lost {first : Nat} {page : Mapping} (h : Good s) (hfirst : first < 2 ^ 32)
    (halign : first % 4096 = 0) (hpage : s.pageMap (first / 4096) = some page) :
    ∃ t, undoFirst s first = .ok t ∧ PageLost s t (first / 4096) := by
  obtain ⟨u, hunmap, hmoved, hmap⟩ := pagingUnmapPage_result h hfirst halign hpage
  have hbits := Pmm.dealloc_bitsOnly hmoved.good.sound (4096 * page.frame)
  refine ⟨_, by rw [undoFirst, hunmap, ok_bind], (pageMap_withPmm hmoved.good hbits).trans hmap,
    hmoved.dirFrame, fun f hplain hbusy => ?_⟩
  rw [(sameEntries_withPmm hmoved.good hbits).tableFrame]
  exact hmoved.not_table hplain.table hbusy

/-- Writing to a frame with data does not bring the page back. -/
theorem PageLost.write {q g : Nat} {mem : Memory} (h : PageLost s t q) (hplain : Plain s g)
    (hbusy : Busy s g) (hmem : ChangesOnly t.pmm.mem mem g) :
    (t.withMem mem).pageMap = Function.update s.pageMap q none := by
  rw [← h.pageMap]
  have hdir : t.dirFrame ≠ g := by
    rw [h.dirFrame]
    exact hplain.dir.symm
  have hsame : SameEntries t (t.withMem mem) := ⟨rfl, rfl, hmem _ hdir⟩
  refine hsame.pageMap fun f hf => hmem f ?_
  rintro rfl
  exact h.table f hplain hbusy hf

/-- A call that is stuck at the second page takes the first one away. -/
theorem mapElement_stuck (h : Good s) (hstuck : Stuck pool s slot) :
    ∃ t, mapElement pool s slot = .ok (some .pmmInitFailed, t) ∧
      PageLost s t (pool.first slot / 4096) := by
  obtain ⟨page, hpage⟩ := Option.isSome_iff_exists.mp hstuck.first
  obtain ⟨t, hundo, hlost⟩ := undoFirst_lost h (first_lt pool slot)
    (first_aligned pool slot) hpage
  have hround : mapRound s (pool.first slot) 0 (pool.first slot) false = .ok (.ok false, s) := by
    rw [mapRound, needMap_eq h (first_lt pool slot), ok_bind, hpage, Option.isNone_some,
      if_pos rfl]
  have hround' : mapRound s (pool.first slot) 1 (pool.second slot) false =
      .ok (.error .pmmInitFailed, t) := by
    have hoom := (Pmm.getNext_oom_iff h.sound).mpr hstuck.full
    have hnext := Pmm.getNext_spec h.sound
    rw [mapRound, needMap_eq h (second_lt pool slot), ok_bind, hstuck.second, Option.isNone_none,
      if_neg (by simp)]
    generalize Pmm.pmmGetNextAvailableBlock s.pmm = r at hoom hnext
    cases hnext with
    | oom =>
        dsimp only
        rw [if_pos hoom, if_pos (by decide), hundo, ok_bind]
    | found => exact absurd rfl hoom
  refine ⟨t, ?_, hlost⟩
  rw [mapElement, hround, ok_bind]
  dsimp only
  rw [if_neg hstuck.two, hround', ok_bind]

/-- Setting the bit of the slot does not make the call stuck, nor help. -/
theorem Written.stuck {g : Nat} (h : Written s t g) : Stuck pool t slot ↔ Stuck pool s slot := by
  have hfull : (∀ f, f < t.pmm.frameCount → t.pmm.bit f = true) ↔
      ∀ f, f < s.pmm.frameCount → s.pmm.bit f = true := by
    rw [h.count]
    exact forall₂_congr fun f hf => by rw [h.bit f hf]
  constructor
  · rintro ⟨htwo, hfirst, hsecond, hall⟩
    rw [h.pageMap] at hfirst hsecond
    exact ⟨htwo, hfirst, hsecond, hfull.mp hall⟩
  · rintro ⟨htwo, hfirst, hsecond, hall⟩
    rw [← h.pageMap] at hfirst hsecond
    exact ⟨htwo, hfirst, hsecond, hfull.mpr hall⟩

/-- The call that loses a page, up to its return. -/
theorem dpageAlloc_of_losesPage (h : pool.Safe s) (hlose : LosesPage pool s) :
    ∃ t q page, dpageAlloc pool s = .ok (.pmmInitFailed, none, t) ∧
      s.pageMap q = some page ∧ t.pageMap q = none := by
  obtain ⟨slot, hfind, hstuck, hne⟩ := hlose
  obtain ⟨hslot, u, frame, byte, hset, hbit⟩ := dpageBmSet_found le_rfl hfind
  obtain ⟨hwritten, hbusy, hplain⟩ := h.written hslot hbit
  obtain ⟨v, hmap, hlost⟩ := mapElement_stuck hwritten.good (hwritten.stuck.mpr hstuck)
  obtain ⟨flags, hpage⟩ := hbit.page
  obtain ⟨page, hfirst⟩ := Option.isSome_iff_exists.mp hstuck.first
  have hpageV : v.pageMap (pool.bitAddr slot / 4096) = some ⟨frame, flags⟩ := by
    rw [hlost.pageMap, Function.update_of_ne hne, hwritten.pageMap, hpage]
  have hclear : ∃ value, dpageBmClear pool v slot = .ok (v.withMem
      (Function.update v.pmm.mem (4096 * frame + pool.bitAddr slot % 4096) value)) := by
    refine ⟨v.pmm.mem (4096 * frame + pool.bitAddr slot % 4096) &&&
      ~~~(1#8 <<< (slot % 8)), ?_⟩
    rw [dpageBmClear, if_neg (by omega), readByte_eq_ok.mpr ⟨_, hpageV, rfl⟩, ok_bind,
      writeByte_of_mapped hpageV]
  obtain ⟨value, hclear⟩ := hclear
  refine ⟨v.withMem (Function.update v.pmm.mem (4096 * frame + pool.bitAddr slot % 4096) value),
    pool.first slot / 4096, page, ?_, hfirst, ?_⟩
  · rw [dpageAlloc, hfind, ok_bind]
    dsimp only
    rw [hset, ok_bind, hmap, ok_bind]
    dsimp only
    rw [hclear, ok_bind]
  · rw [hlost.write ((hwritten.plain frame).mpr hplain) (hwritten.busy hbusy)
      (changesOnly_update _ _ _ _), Function.update_self]

/-- A failed call leaves the pool as it was, except when it loses a page. -/
theorem dpageAlloc_clean_iff (h : pool.Safe s) :
    (∀ status t, dpageAlloc pool s = .ok (status, none, t) → FailsClean pool s t) ↔
      ¬ LosesPage pool s := by
  constructor
  · intro hclean hlose
    obtain ⟨t, q, page, hret, hpage, hgone⟩ := dpageAlloc_of_losesPage h hlose
    have hkept := (hclean _ t hret).pages q page hpage
    rw [hgone] at hkept
    cases hkept
  · intro hlose status t hret
    unfold dpageAlloc at hret
    obtain ⟨slot?, hfind, hret⟩ := bind_eq_ok.mp hret
    cases slot? with
    | none =>
        obtain ⟨-, rfl⟩ : status = .noMoreRegionSlots ∧ s = t := by simpa [eq_comm] using hret
        refine ⟨fun _ _ _ hread => hread, fun _ _ hpage => hpage, fun _ _ _ _ => .refl _ _,
          fun f hf => ⟨.inl, fun hor => hor.elim id fun htable => ?_⟩⟩
        exact h.good.table_busy f htable hf
    | some slot =>
        obtain ⟨hslot, u, frame, byte, hset, hbit⟩ := dpageBmSet_found le_rfl hfind
        obtain ⟨hwritten, -, -⟩ := h.written hslot hbit
        dsimp only at hret
        rw [hset, ok_bind] at hret
        obtain ⟨⟨failed, v⟩, hmap, hret⟩ := bind_eq_ok.mp hret
        cases failed with
        | none =>
            obtain ⟨w, -, hret⟩ := bind_eq_ok.mp hret
            simp at hret
        | some reason =>
            obtain ⟨w, hclear, hret⟩ := bind_eq_ok.mp hret
            obtain ⟨-, rfl⟩ : reason = status ∧ w = t := by simpa using hret
            rcases mapElement_cases hwritten.good hmap with ⟨hnone, -⟩ | ⟨-, hnoPage | hstuck⟩
            · cases hnone
            · exact failsClean_of_noPage h hslot hbit hnoPage hclear
            · -- the bitmap must be on the page that is lost, and then clearing the bit faults
              obtain ⟨hstuck, hundo⟩ := hstuck
              have hsame : pool.bitAddr slot / 4096 = pool.first slot / 4096 := by
                by_contra hne
                exact hlose ⟨slot, hfind, hwritten.stuck.mp hstuck, hne⟩
              obtain ⟨page, hpage⟩ := Option.isSome_iff_exists.mp hstuck.first
              obtain ⟨v', hundo', hlost⟩ := undoFirst_lost hwritten.good (first_lt pool slot)
                (first_aligned pool slot) hpage
              obtain rfl : v' = v := Except.ok.inj (hundo'.symm.trans hundo)
              rw [dpageBmClear, if_neg (by omega)] at hclear
              obtain ⟨byte', hread, -⟩ := bind_eq_ok.mp hclear
              obtain ⟨page', hpage', -⟩ := readByte_eq_ok.mp hread
              rw [hlost.pageMap, hsame, Function.update_self] at hpage'
              cases hpage'

/-! ## A pool with a straddling element -/

/-- The bytes of the two bitmaps. -/
def sampleBytes : Memory := fun a => if a = 0x2000 then 0x3F else if a = 0x4000 then 0x01 else 0

/-- Six frames in use and `free` more: frame `1` is the directory, frame `2` has the page bitmap,
and frame `3` is the page table for `0xE4000000`, with two pages in frames `4` and `5`. The first
byte of frame `4` is 1. -/
def sampleState (free : Nat) : Paging.State where
  pmm := {
    mem := setEntry (setEntry (setEntry sampleBytes 1 912 0x3003) 3 0 0x4003) 3 1 0x5003
    pagebitmapPhys := 0x2000
    pagebitmapSizeBytes := 1
    frameCount := 6 + free
    frameHint := 0
    availableFrames := free
    usePhysWindowAlias := true
    memRegions := [] }
  pageDirectoryLocPhys := 0x1000
  pageTablesLocPhys := fun i => if i = 912 then 0x3000 else 0
  pageTableCount := 1
  cr3 := 0x1000

section Sample

variable {free : Nat}

theorem sampleState_dirFrame : (sampleState free).dirFrame = 1 := by
  simp [State.dirFrame, sampleState]

theorem sampleBytes_entry {t i : Nat} (hi : i < 1024) (ht : t ≠ 2) (ht' : t ≠ 4) :
    tableEntry sampleBytes t i = 0 := by
  have hzero : ∀ k, k < 4 → sampleBytes (4096 * t + 4 * i + k) = 0 := by
    intro k hk
    rw [sampleBytes, if_neg (by omega), if_neg (by omega)]
  have h0 := hzero 0 (by omega)
  rw [Nat.add_zero] at h0
  rw [tableEntry, Memory.readWord, h0, hzero 1 (by omega), hzero 2 (by omega), hzero 3 (by omega)]
  decide

theorem sampleState_dirEntry {i : Nat} (hi : i < 1024) :
    (sampleState free).dirEntry i = if i = 912 then 0x3003 else 0 := by
  rw [State.dirEntry, sampleState_dirFrame]
  change tableEntry (setEntry (setEntry (setEntry sampleBytes 1 912 0x3003) 3 0 0x4003) 3 1 0x5003)
    1 i = _
  rw [(agreeOn_setEntry _ _ (by decide) (by decide)).tableEntry hi,
    (agreeOn_setEntry _ _ (by decide) (by decide)).tableEntry hi]
  split
  · rename_i heq
    rw [heq, tableEntry_setEntry_same]
  · rename_i hne
    rw [tableEntry_setEntry_ne _ _ hne, sampleBytes_entry hi (by decide) (by decide)]

theorem sampleState_pageEntry {j : Nat} (hj : j < 1024) :
    tableEntry (sampleState free).pmm.mem 3 j =
      if j = 1 then 0x5003 else if j = 0 then 0x4003 else 0 := by
  change tableEntry (setEntry (setEntry (setEntry sampleBytes 1 912 0x3003) 3 0 0x4003) 3 1 0x5003)
    3 j = _
  split
  · rename_i heq
    rw [heq, tableEntry_setEntry_same]
  · rename_i hne
    rw [tableEntry_setEntry_ne _ _ hne]
    split
    · rename_i heq
      rw [heq, tableEntry_setEntry_same]
    · rename_i hne'
      rw [tableEntry_setEntry_ne _ _ hne',
        (agreeOn_setEntry _ _ (by decide) (by decide)).tableEntry hj,
        sampleBytes_entry hj (by decide) (by decide)]

theorem sampleState_table {i : Nat} (hi : i < 1024)
    (hpresent : entryPresent ((sampleState free).dirEntry i) = true) :
    i = 912 ∧ (sampleState free).dirEntry i = 0x3003 := by
  rw [sampleState_dirEntry hi] at hpresent ⊢
  split at hpresent
  · rename_i heq
    exact ⟨heq, if_pos heq⟩
  · exact absurd hpresent (by decide)

theorem sampleState_tableFrame {f : Nat} (h : TableFrame (sampleState free) f) : f = 3 := by
  obtain ⟨i, hi, hpresent, rfl⟩ := h
  rw [(sampleState_table hi hpresent).2]
  decide

theorem sampleState_page {q : Nat} {page : Mapping}
    (h : (sampleState free).pageMap q = some page) :
    q = 0xE4000 ∧ page.frame = 4 ∨ q = 0xE4001 ∧ page.frame = 5 := by
  have hq := pageMap_lt h
  have hpresent := present_of_pageMap h
  obtain ⟨hdir, hentry⟩ := sampleState_table (by omega) hpresent
  have htable : translate (sampleState free).pmm.mem (sampleState free).dirFrame (q / 1024)
      (q % 1024) = Option.guard entryPresent
        (tableEntry (sampleState free).pmm.mem 3 (q % 1024)) := by
    change (if entryPresent ((sampleState free).dirEntry (q / 1024)) = true then
      Option.guard entryPresent (tableEntry _ (entryFrame ((sampleState free).dirEntry (q / 1024)))
        (q % 1024)) else none) = _
    rw [if_pos hpresent, hentry, show entryFrame 0x3003 = 3 by decide]
  rw [State.pageMap, if_pos hq, htable, sampleState_pageEntry (by omega)] at h
  split at h
  · rename_i hj
    obtain rfl : entryMapping 0x5003 = page := Option.some.inj h
    exact .inr ⟨by omega, by decide⟩
  · split at h
    · rename_i hj
      obtain rfl : entryMapping 0x4003 = page := Option.some.inj h
      exact .inl ⟨by omega, by decide⟩
    · exact absurd h (by simp [Option.guard, entryPresent])

theorem sampleState_bit : ∀ f < 6, (sampleState free).pmm.bit f = true := by
  have hall : ∀ f < 6, (sampleState 0).pmm.bit f = true := by decide +kernel
  exact hall

theorem sampleState_bitmap {f : Nat} (h : (sampleState free).pmm.HoldsBitmap f) : f = 2 := by
  simp only [Pmm.State.HoldsBitmap, Pmm.Touches, sampleState] at h
  omega

theorem sampleState_sound (hfree : free ≤ 2) : (sampleState free).pmm.Sound := by
  have hcount : (sampleState free).pmm.availableFrames =
      clearCount (sampleState free).pmm.bit (sampleState free).pmm.frameCount := by
    obtain rfl | rfl | rfl : free = 0 ∨ free = 1 ∨ free = 2 := by omega
    · decide +kernel
    · decide +kernel
    · decide +kernel
  refine ⟨⟨⟨?_, hcount, fun f hf hres => ?_⟩, ?_, ?_, ?_⟩, fun f _ hf => ?_⟩
  · simp only [sampleState]
    omega
  · obtain ⟨a, -, -, r, hr, -⟩ := hres
    simp [sampleState] at hr
  · simp only [sampleState]
    omega
  · simp [sampleState]
  · simp only [sampleState]
    omega
  · exact sampleState_bitmap hf ▸ sampleState_bit 2 (by decide)

theorem sampleState_wired : (sampleState free).Wired := by
  refine ⟨by simp [sampleState], ⟨fun i hi hpresent => ?_, fun i k hi hk hpi hpk _ => ?_⟩,
    fun i hi hpresent => ?_⟩
  · change entryFrame ((sampleState free).dirEntry i) ≠ _
    rw [(sampleState_table hi hpresent).2, sampleState_dirFrame]
    decide
  · exact (sampleState_table hi hpi).1.trans (sampleState_table hk hpk).1.symm
  · obtain ⟨rfl, hentry⟩ := sampleState_table hi hpresent
    rw [hentry]
    simp only [sampleState]
    decide

theorem sampleState_reachable : (sampleState free).Reachable := by
  refine ⟨by simp [sampleState], by simp [sampleState], fun i hi hpresent => ?_,
    fun i hi hpresent => ?_⟩
  · rw [(sampleState_table hi hpresent).2]
    decide
  · rw [(sampleState_table hi hpresent).2]
    decide

theorem sampleState_good (hfree : free ≤ 2) : Good (sampleState free) := by
  refine ⟨sampleState_sound hfree, sampleState_wired, sampleState_reachable, fun _ => ?_,
    fun hdir => ?_, fun f hf _ => ?_, fun f hf hholds => ?_, fun _ => sampleState_bit 0 (by decide)⟩
  · rw [sampleState_dirFrame]
    exact sampleState_bit 1 (by decide)
  · have := sampleState_bitmap hdir
    rw [sampleState_dirFrame] at this
    omega
  · exact sampleState_tableFrame hf ▸ sampleState_bit 3 (by decide)
  · have h2 := sampleState_bitmap hholds
    have h3 := sampleState_tableFrame hf
    omega

theorem sampleState_plain {f : Nat} (hf : 3 < f) : Plain (sampleState free) f := by
  refine ⟨fun hholds => ?_, ?_, fun htable => ?_⟩
  · have := sampleState_bitmap hholds
    omega
  · rw [sampleState_dirFrame]
    omega
  · have := sampleState_tableFrame htable
    omega

theorem sampleState_safe (hfree : free ≤ 2) (pool : Pool) : pool.Safe (sampleState free) := by
  refine ⟨sampleState_good hfree, fun q page _ hpage _ => ?_, fun q page _ hpage => ?_⟩
  · rcases sampleState_page hpage with ⟨-, hframe⟩ | ⟨-, hframe⟩
    · exact hframe ▸ sampleState_bit 4 (by decide)
    · exact hframe ▸ sampleState_bit 5 (by decide)
  · refine sampleState_plain ?_
    rcases sampleState_page hpage with ⟨-, hframe⟩ | ⟨-, hframe⟩
    · omega
    · omega

end Sample

/-- No frame is free. The element in slot `1` begins on a page of the element in slot `0`, and that
page is gone after the call. -/
theorem dpageAlloc_loses_page :
    ∃ t, dpageAlloc ⟨0xE4000000, 0xE4001000, 3072, 1⟩ (sampleState 0) =
        .ok (.pmmInitFailed, none, t) ∧
      (∃ page, (sampleState 0).pageMap 0xE4001 = some page ∧ page.frame = 5) ∧
      t.pageMap 0xE4001 = none ∧ t.pmm.bit 5 = false ∧
      ¬ FailsClean ⟨0xE4000000, 0xE4001000, 3072, 1⟩ (sampleState 0) t := by
  obtain ⟨⟨status, va, t⟩, hret, htest⟩ := exists_of_okAnd
    (e := dpageAlloc ⟨0xE4000000, 0xE4001000, 3072, 1⟩ (sampleState 0))
    (p := fun r => r.1 == .pmmInitFailed && r.2.1 == none && r.2.2.pageMap 0xE4001 == none &&
      !r.2.2.pmm.bit 5) (by decide +kernel)
  simp only [Bool.and_eq_true, beq_iff_eq, Bool.not_eq_true'] at htest
  obtain ⟨⟨⟨rfl, rfl⟩, hgone⟩, hbit⟩ := htest
  have hpage : (sampleState 0).pageMap 0xE4001 = some ⟨5, 3⟩ := by decide +kernel
  refine ⟨t, hret, ⟨_, hpage, rfl⟩, hgone, hbit, fun hclean => ?_⟩
  have hkept := hclean.pages _ _ hpage
  rw [hgone] at hkept
  cases hkept

/-- With elements of a whole page a call in the same state fails clean. -/
theorem dpageAlloc_clean_iff_whole_page :
    ∃ t, dpageAlloc ⟨0xE4000000, 0xE4001000, 4096, 1⟩ (sampleState 0) =
        .ok (.pmmInitFailed, none, t) ∧
      FailsClean ⟨0xE4000000, 0xE4001000, 4096, 1⟩ (sampleState 0) t := by
  obtain ⟨⟨status, va, t⟩, hret, htest⟩ := exists_of_okAnd
    (e := dpageAlloc ⟨0xE4000000, 0xE4001000, 4096, 1⟩ (sampleState 0))
    (p := fun r => r.1 == .pmmInitFailed && r.2.1 == none) (by decide +kernel)
  simp only [Bool.and_eq_true, beq_iff_eq] at htest
  obtain ⟨rfl, rfl⟩ := htest
  have hlose : ¬ LosesPage ⟨0xE4000000, 0xE4001000, 4096, 1⟩ (sampleState 0) := by
    rintro ⟨slot, -, hstuck, -⟩
    refine hstuck.two ?_
    simp only [Pool.second, Pool.first, Pool.vaddr]
    omega
  exact ⟨t, hret, (dpageAlloc_clean_iff (sampleState_safe (by decide) _)).mpr hlose _ t hret⟩

end Unidos.Dpage
