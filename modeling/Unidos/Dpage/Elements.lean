import Unidos.Dpage.Clean
import Unidos.Lib.Bitmap

/-!
# The elements of a pool

A pool is used by allocating elements, writing to them, and freeing them again. In every state
that such a run can reach from an empty pool the live elements are apart and mapped, an element is
zero when it is handed out, and nobody changes the bytes of another element (`run_elements`).

The pages of the pool and of its bitmap have different frames (`Pool.Layout`), so that accesses to
different addresses do not meet. Mapping keeps this, because it takes free frames.
-/

namespace Unidos.Dpage

open Lib Paging

/-! ## Addresses -/

/-- The elements are whole words and not larger than a page, the pool fits into the address space,
and the bitmap lies outside of it. -/
structure Pool.Fits (pool : Pool) : Prop where
  size_ge : 4 ≤ pool.elementSize
  size_le : pool.elementSize ≤ 4096
  words : pool.elementSize % 4 = 0
  range : pool.base + 8 * pool.bitmapSize * pool.elementSize ≤ 2 ^ 32
  outside : ∀ slot, slot < pool.slots → pool.bitAddr slot < pool.base ∨
    pool.base + 8 * pool.bitmapSize * pool.elementSize ≤ pool.bitAddr slot

namespace Pool.Fits

variable {pool : Pool} {slot slot' k : Nat} (h : pool.Fits)

include h

theorem slots_eq : pool.slots = 8 * pool.bitmapSize := by
  have hmul := Nat.mul_le_mul_left (8 * pool.bitmapSize) h.size_ge
  have hrange := h.range
  unfold Pool.slots
  omega

theorem end_le (hslot : slot < pool.slots) : pool.base + slot * pool.elementSize +
    pool.elementSize ≤ pool.base + 8 * pool.bitmapSize * pool.elementSize := by
  rw [h.slots_eq] at hslot
  have hmul := Nat.mul_le_mul_right pool.elementSize (Nat.succ_le_of_lt hslot)
  rw [Nat.succ_mul] at hmul
  omega

theorem vaddr_eq (hslot : slot < pool.slots) :
    pool.vaddr slot = pool.base + slot * pool.elementSize := by
  have hend := h.end_le hslot
  have hrange := h.range
  have hsize := h.size_ge
  exact Nat.mod_eq_of_lt (by omega)

theorem vaddr_end_le (hslot : slot < pool.slots) :
    pool.vaddr slot + pool.elementSize ≤ 2 ^ 32 := by
  rw [h.vaddr_eq hslot]
  exact (h.end_le hslot).trans h.range

theorem slot_of_vaddr (hslot : slot < pool.slots) :
    (pool.vaddr slot - pool.base) / pool.elementSize = slot := by
  have hsize := h.size_ge
  rw [h.vaddr_eq hslot, Nat.add_sub_cancel_left, Nat.mul_div_cancel _ (by omega)]

/-- The elements of different slots are apart. -/
theorem apart (hslot : slot < pool.slots) (hslot' : slot' < pool.slots) (hne : slot ≠ slot') :
    pool.vaddr slot + pool.elementSize ≤ pool.vaddr slot' ∨
      pool.vaddr slot' + pool.elementSize ≤ pool.vaddr slot := by
  rw [h.vaddr_eq hslot, h.vaddr_eq hslot']
  rcases Nat.lt_or_gt_of_ne hne with hlt | hlt
  · have hmul := Nat.mul_le_mul_right pool.elementSize (Nat.succ_le_of_lt hlt)
    rw [Nat.succ_mul] at hmul
    omega
  · have hmul := Nat.mul_le_mul_right pool.elementSize (Nat.succ_le_of_lt hlt)
    rw [Nat.succ_mul] at hmul
    omega

theorem ne_bitAddr (hslot : slot < pool.slots) (hslot' : slot' < pool.slots)
    (hk : k < pool.elementSize) : pool.vaddr slot + k ≠ pool.bitAddr slot' := by
  have hend := h.end_le hslot
  have hout := h.outside slot' hslot'
  rw [h.vaddr_eq hslot]
  omega

theorem bitAddr_eq_iff (hslot : slot < pool.slots) (hslot' : slot' < pool.slots) :
    pool.bitAddr slot' = pool.bitAddr slot ↔ slot' / 8 = slot / 8 := by
  have hmul := Nat.mul_le_mul_left (8 * pool.bitmapSize) h.size_ge
  have hrange := h.range
  rw [h.slots_eq] at hslot hslot'
  unfold Pool.bitAddr
  omega

/-- The two pages that are looked at are all the pages of an element. -/
theorem page_cases (hslot : slot < pool.slots) (hk : k < pool.elementSize) :
    (pool.vaddr slot + k) / 4096 = pool.first slot / 4096 ∨
      (pool.vaddr slot + k) / 4096 = pool.second slot / 4096 := by
  have hend := h.vaddr_end_le hslot
  have hsize := h.size_le
  unfold Pool.first Pool.second
  omega

theorem element_ours (hslot : slot < pool.slots) (hk : k < pool.elementSize) :
    pool.Ours ((pool.vaddr slot + k) / 4096) := by
  have hend := h.vaddr_end_le hslot
  exact .inl ⟨slot, k, hslot, hk, by rw [Nat.mod_eq_of_lt (by omega)]⟩

theorem first_ours (hslot : slot < pool.slots) : pool.Ours (pool.first slot / 4096) := by
  have hsize := h.size_ge
  have hours := h.element_ours hslot (k := 0) (by omega)
  rwa [Nat.add_zero, show pool.vaddr slot / 4096 = pool.first slot / 4096 by
    unfold Pool.first; omega] at hours

theorem second_ours (hslot : slot < pool.slots) : pool.Ours (pool.second slot / 4096) := by
  have hend := h.vaddr_end_le hslot
  have hsize := h.size_ge
  have hours := h.element_ours hslot (k := pool.elementSize - 1) (by omega)
  rwa [show (pool.vaddr slot + (pool.elementSize - 1)) / 4096 = pool.second slot / 4096 by
    unfold Pool.second; omega] at hours

end Pool.Fits

/-! ## What the owner of a pool does -/

/-- Different pages of the pool and of its bitmap have different frames, and the bitmap is
mapped. -/
structure Pool.Layout (pool : Pool) (s : Paging.State) : Prop where
  safe : pool.Safe s
  inj : ∀ q q' page page', pool.Ours q → pool.Ours q' → s.pageMap q = some page →
    s.pageMap q' = some page' → page.frame = page'.frame → q = q'
  bitmap : ∀ slot, slot < pool.slots → (s.pageMap (pool.bitAddr slot / 4096)).isSome = true

/-- The bit of the slot is set. -/
def Pool.Live (pool : Pool) (s : Paging.State) (slot : Nat) : Prop :=
  slot < pool.slots ∧ ∃ byte, readByte s (pool.bitAddr slot) = .ok byte ∧
    byte.getLsbD (slot % 8) = true

/-- The pool is laid out well, and the elements in use are mapped. -/
structure Pool.Inv (pool : Pool) (s : Paging.State) : Prop where
  layout : pool.Layout s
  mapped : ∀ slot k, pool.Live s slot → k < pool.elementSize →
    (s.pageMap ((pool.vaddr slot + k) / 4096)).isSome = true

/-- What the owner of a pool does: allocate an element, which is at address `va`, free the element
of a slot, or write to one. -/
inductive Op where
  | alloc (va : Nat)
  | free (slot : Nat)
  | write (slot k : Nat) (value : Byte)

/-- The slot that an operation is about. -/
def Op.slot (pool : Pool) : Op → Nat
  | .alloc va => (va - pool.base) / pool.elementSize
  | .free slot => slot
  | .write slot _ _ => slot

/-- The page tables that an allocation enters into the directory start empty. -/
def NewTablesBlank (pool : Pool) (s : Paging.State) : Prop :=
  ∀ slot u v, findSlot pool s pool.slots 0 = .ok (some slot) →
    dpageBmSet pool s slot = .ok u → mapElement pool u slot = .ok (none, v) → TablesBlank s v

/-- Allocations succeed, with page tables that start empty. Only live elements are freed and
written to. -/
inductive Step (pool : Pool) : Paging.State → Op → Paging.State → Prop where
  | alloc {s t : Paging.State} {va : Nat} (hblank : NewTablesBlank pool s)
      (hret : dpageAlloc pool s = .ok (.success, some va, t)) : Step pool s (.alloc va) t
  | free {s t : Paging.State} {slot : Nat} (hlive : pool.Live s slot)
      (hret : dpageBmClear pool s slot = .ok t) : Step pool s (.free slot) t
  | write {s t : Paging.State} {slot k : Nat} {value : Byte} (hlive : pool.Live s slot)
      (hk : k < pool.elementSize) (hret : writeByte s (pool.vaddr slot + k) value = .ok t) :
      Step pool s (.write slot k value) t

/-- A new element is at the address of its slot, whose bit is set, and reads as zero. -/
structure Fresh (pool : Pool) (s t : Paging.State) (va slot : Nat) : Prop where
  vaddr : va = pool.base + slot * pool.elementSize
  before : ¬ pool.Live s slot
  after : pool.Live t slot
  zero : ∀ k, k < pool.elementSize → readByte t (va + k) = .ok 0

/-- What an operation does to its own slot and to the others. -/
structure StepSpec (pool : Pool) (s : Paging.State) (op : Op) (t : Paging.State) : Prop where
  live : ∀ slot, slot ≠ op.slot pool → (pool.Live t slot ↔ pool.Live s slot)
  bytes : ∀ slot k, pool.Live s slot → slot ≠ op.slot pool → k < pool.elementSize →
    readByte t (pool.vaddr slot + k) = readByte s (pool.vaddr slot + k)
  fresh : ∀ va, op = .alloc va → Fresh pool s t va (op.slot pool)
  freed : ∀ slot, op = .free slot → ¬ pool.Live t slot

/-! ## Accesses -/

variable {s t u v : Paging.State} {pool : Pool} {slot slot' va q g : Nat} {value byte : Byte}

theorem readByte_congr (hmap : t.pageMap (va / 4096) = s.pageMap (va / 4096))
    (hmem : ∀ page, s.pageMap (va / 4096) = some page →
      t.pmm.mem (4096 * page.frame + va % 4096) = s.pmm.mem (4096 * page.frame + va % 4096)) :
    readByte t va = readByte s va := by
  unfold readByte physOf
  rw [hmap]
  cases hpage : s.pageMap (va / 4096) with
  | none => rfl
  | some page =>
      change Except.ok (t.pmm.mem (4096 * page.frame + va % 4096)) = _
      rw [hmem page hpage]
      rfl

/-- One byte was written, and the bytes at other addresses are as before. -/
structure ByteWritten (pool : Pool) (s t : Paging.State) (va : Nat) (value : Byte) : Prop where
  layout : pool.Layout t
  pageMap : t.pageMap = s.pageMap
  tables : ∀ f, TableFrame t f ↔ TableFrame s f
  here : readByte t va = .ok value
  others : ∀ va', pool.Ours (va' / 4096) → va' ≠ va → readByte t va' = readByte s va'

theorem Pool.Layout.write (h : pool.Layout s) (hours : pool.Ours (va / 4096))
    (hret : writeByte s va value = .ok t) : ByteWritten pool s t va value := by
  cases hpage : s.pageMap (va / 4096) with
  | none => simp [writeByte, physOf, hpage] at hret
  | some page =>
      rw [writeByte_of_mapped hpage] at hret
      obtain rfl := Except.ok.inj hret
      have hwritten := h.safe.good.write (h.safe.plain _ _ hours hpage)
        (changesOnly_update s.pmm.mem page.frame va value)
      have hmap := hwritten.pageMap
      refine ⟨⟨⟨hwritten.good, fun q p hq hp => ?_, fun q p hq hp => ?_⟩, ?_, ?_⟩, hmap,
        hwritten.tableFrame, ?_, fun va' hours' hne => ?_⟩
      · rw [hmap] at hp
        exact hwritten.busy (h.safe.busy q p hq hp)
      · rw [hmap] at hp
        exact (hwritten.plain _).mpr (h.safe.plain q p hq hp)
      · rw [hmap]
        exact h.inj
      · rw [hmap]
        exact h.bitmap
      · refine readByte_eq_ok.mpr ⟨page, by rw [hmap, hpage], ?_⟩
        change value = Function.update s.pmm.mem _ value _
        rw [Function.update_self]
      · refine readByte_congr (by rw [hmap]) fun page' hpage' => Function.update_of_ne ?_ _ _
        intro heq
        have hframe : page'.frame = page.frame := by omega
        have hq := h.inj _ _ _ _ hours' hours hpage' hpage hframe
        omega

/-! ## Mapping -/

/-- Pages were added. -/
structure Extended (pool : Pool) (s t : Paging.State) : Prop where
  layout : pool.Layout t
  keeps : KeepsPages s t
  reads : ∀ va, pool.Ours (va / 4096) → (s.pageMap (va / 4096)).isSome = true →
    readByte t va = readByte s va

theorem KeepsPages.isSome (h : KeepsPages s t) (hq : (s.pageMap q).isSome = true) :
    (t.pageMap q).isSome = true := by
  obtain ⟨page, hpage⟩ := Option.isSome_iff_exists.mp hq
  rw [h q page hpage]
  rfl

theorem Extended.trans (h : Extended pool s t) (h' : Extended pool t u) : Extended pool s u where
  layout := h'.layout
  keeps := h.keeps.trans h'.keeps
  reads va hours hmapped :=
    (h'.reads va hours (h.keeps.isSome hmapped)).trans (h.reads va hours hmapped)

theorem Pool.Layout.added {f : Nat} (h : pool.Layout s) (hadded : Added s t q f)
    (hblank : TablesBlank s t) : Extended pool s t := by
  have hmoved := hadded.moved
  have hlt := hmoved.held_lt f (by simp)
  have hfree := hmoved.held_free f (by simp)
  have hmap := hadded.exact hblank
  have hnotable : ∀ g, Busy s g → Plain s g → ¬ TableFrame t g := fun g hb hp =>
    hmoved.not_table hp.table hb
  -- the frame of the new page is none of those in use
  have hnew : ∀ q' page, pool.Ours q' → s.pageMap q' = some page → page.frame ≠ f := by
    rintro q' page hq' hpage rfl
    have hbusy := h.safe.busy q' page hq' hpage hlt
    simp [hfree] at hbusy
  have hcases : ∀ q' page, t.pageMap q' = some page →
      (q' = q ∧ page.frame = f) ∨ s.pageMap q' = some page := by
    intro q' page hpage
    rw [hmap] at hpage
    by_cases hq : q' = q
    · rw [hq, Function.update_self] at hpage
      exact .inl ⟨hq, by rw [← Option.some.inj hpage]⟩
    · rw [Function.update_of_ne hq] at hpage
      exact .inr hpage
  refine ⟨⟨⟨hmoved.good, fun q' page hq' hpage => ?_, fun q' page hq' hpage => ?_⟩,
    fun q₁ q₂ p₁ p₂ h₁ h₂ hp₁ hp₂ heq => ?_, fun slot hslot => ?_⟩, hadded.keeps,
    fun va hours hmapped => ?_⟩
  · rcases hcases q' page hpage with ⟨-, hf⟩ | hs
    · rw [hf]
      exact fun _ => (hmoved.bits f hlt).mpr (.inr (.inl (by simp)))
    · exact hmoved.busy (h.safe.busy q' page hq' hs)
  · rcases hcases q' page hpage with ⟨-, hf⟩ | hs
    · rw [hf]
      exact hmoved.plain (h.safe.good.free_plain hlt hfree) (hmoved.held_table f (by simp))
    · have hplain := h.safe.plain q' page hq' hs
      exact hmoved.plain hplain (hnotable _ (h.safe.busy q' page hq' hs) hplain)
  · rcases hcases q₁ p₁ hp₁ with ⟨hq₁, hf₁⟩ | hs₁
    · rcases hcases q₂ p₂ hp₂ with ⟨hq₂, -⟩ | hs₂
      · rw [hq₁, hq₂]
      · exact absurd (heq.symm.trans hf₁) (hnew q₂ p₂ h₂ hs₂)
    · rcases hcases q₂ p₂ hp₂ with ⟨-, hf₂⟩ | hs₂
      · exact absurd (heq.trans hf₂) (hnew q₁ p₁ h₁ hs₁)
      · exact h.inj q₁ q₂ p₁ p₂ h₁ h₂ hs₁ hs₂ heq
  · exact hadded.keeps.isSome (h.bitmap slot hslot)
  · obtain ⟨page, hpage⟩ := Option.isSome_iff_exists.mp hmapped
    refine readByte_congr (by rw [hadded.keeps _ _ hpage, hpage]) fun page' hpage' => ?_
    have hplain := h.safe.plain _ page' hours hpage'
    exact hmoved.mem _ hplain (hnotable _ (h.safe.busy _ page' hours hpage') hplain) _ (by omega)
      (by omega)

theorem Grown.moved (h : Good s) (hgrown : Grown s q t) : ∃ held, Moved held s t := by
  cases hgrown with
  | same => exact ⟨[], .refl h⟩
  | added hadded => exact ⟨_, hadded.moved⟩

theorem Pool.Layout.grown (h : pool.Layout s) (hgrown : Grown s q t) (hblank : TablesBlank s t) :
    Extended pool s t := by
  cases hgrown with
  | same => exact ⟨h, fun _ _ hq => hq, fun _ _ _ => rfl⟩
  | added hadded => exact h.added hadded hblank

/-- Writing to a frame with data does not make a table of it. -/
theorem TablesBlank.written {held : List Nat} (h : TablesBlank s t) (hw : Written s u g)
    (hbusy : Busy s g) (hmoved : Moved held u t) : TablesBlank u t := by
  intro f hf hfu j hj
  rcases hmoved.tables f hf with hfu' | ⟨hlt, hfree⟩
  · exact absurd hfu' hfu
  · have hne : f ≠ g := by
      rintro rfl
      rw [hw.count] at hlt
      simp [hw.bit f hlt, hbusy hlt] at hfree
    rw [(hw.mem f hne).tableEntry hj]
    exact h f hf (fun hfs => hfu ((hw.tableFrame f).mpr hfs)) j hj

/-- A range of bytes was cleared. -/
structure Zeroed (pool : Pool) (s t : Paging.State) (va n : Nat) : Prop where
  layout : pool.Layout t
  pageMap : t.pageMap = s.pageMap
  tables : ∀ f, TableFrame t f ↔ TableFrame s f
  zero : ∀ k, k < n → readByte t (va + k) = .ok 0
  others : ∀ va', pool.Ours (va' / 4096) → va' < va ∨ va + n ≤ va' → readByte t va' = readByte s va'

theorem Pool.Layout.zeroBytes {n : Nat} (h : pool.Layout s) (hn : va + n ≤ 2 ^ 32)
    (hours : ∀ k, k < n → pool.Ours ((va + k) / 4096))
    (hret : Dpage.zeroBytes s va n = .ok t) : Zeroed pool s t va n := by
  induction n generalizing t with
  | zero =>
      obtain rfl := Except.ok.inj hret
      exact ⟨h, rfl, fun _ => Iff.rfl, fun k hk => absurd hk (by omega), fun _ _ _ => rfl⟩
  | succ n ih =>
      obtain ⟨u, hzero, hret⟩ := bind_eq_ok.mp hret
      have hbefore := ih (by omega) (fun k hk => hours k (by omega)) hzero
      rw [Nat.mod_eq_of_lt (by omega)] at hret
      have hbyte := hbefore.layout.write (hours n (by omega)) hret
      refine ⟨hbyte.layout, hbyte.pageMap.trans hbefore.pageMap,
        fun f => (hbyte.tables f).trans (hbefore.tables f), fun k hk => ?_, fun va' hva' hout => ?_⟩
      · by_cases hkn : k = n
        · rw [hkn]
          exact hbyte.here
        · rw [hbyte.others _ (hours k hk) (by omega)]
          exact hbefore.zero k (by omega)
      · rw [hbyte.others va' hva' (by omega)]
        exact hbefore.others va' hva' (by omega)

/-! ## Live elements -/

theorem live_iff (hslot : slot < pool.slots) (hread : readByte s (pool.bitAddr slot) = .ok byte) :
    pool.Live s slot ↔ byte.getLsbD (slot % 8) = true := by
  constructor
  · rintro ⟨-, byte', hread', hbit⟩
    obtain rfl : byte = byte' := Except.ok.inj (hread.symm.trans hread')
    exact hbit
  · exact fun hbit => ⟨hslot, byte, hread, hbit⟩

/-- Only the readings of the bitmap matter. -/
theorem live_congr (h : ∀ slot, slot < pool.slots →
      readByte t (pool.bitAddr slot) = readByte s (pool.bitAddr slot)) :
    pool.Live t slot ↔ pool.Live s slot := by
  unfold Pool.Live
  exact and_congr_right fun hslot => by rw [h slot hslot]

section Bits

variable (hfits : pool.Fits) (hslot : slot < pool.slots)
  (hread : readByte s (pool.bitAddr slot) = .ok byte)

include hfits hslot hread

/-- A byte of the bitmap was rewritten, and among its bits only that of the slot has changed. -/
theorem live_written (hw : ByteWritten pool s t (pool.bitAddr slot) value)
    (hbits : ∀ i, i < 8 → i ≠ slot % 8 → value.getLsbD i = byte.getLsbD i) (hne : slot' ≠ slot) :
    pool.Live t slot' ↔ pool.Live s slot' := by
  by_cases hslot' : slot' < pool.slots
  · by_cases hsame : slot' / 8 = slot / 8
    · have haddr := (hfits.bitAddr_eq_iff hslot hslot').mpr hsame
      rw [live_iff hslot' (haddr ▸ hw.here), live_iff hslot' (haddr ▸ hread),
        hbits (slot' % 8) (by omega) (by omega)]
    · have haddr := mt (hfits.bitAddr_eq_iff hslot hslot').mp hsame
      unfold Pool.Live
      rw [hw.others _ (pool.bitAddr_ours hslot') haddr]
  · exact ⟨fun h => absurd h.1 hslot', fun h => absurd h.1 hslot'⟩

theorem live_set (hw : ByteWritten pool s t (pool.bitAddr slot) (byte ||| 1#8 <<< (slot % 8))) :
    pool.Live t slot ∧ ∀ slot', slot' ≠ slot → (pool.Live t slot' ↔ pool.Live s slot') := by
  refine ⟨(live_iff hslot hw.here).mpr ?_, fun slot' hne =>
    live_written hfits hslot hread hw (fun i hi hne => ?_) hne⟩
  · rw [BitVec.getLsbD_or, Memory.getLsbD_mask (by omega)]
    simp
  · rw [BitVec.getLsbD_or, Memory.getLsbD_mask hi]
    simp [hne]

theorem live_clear
    (hw : ByteWritten pool s t (pool.bitAddr slot) (byte &&& ~~~(1#8 <<< (slot % 8)))) :
    ¬ pool.Live t slot ∧ ∀ slot', slot' ≠ slot → (pool.Live t slot' ↔ pool.Live s slot') := by
  refine ⟨mt (live_iff hslot hw.here).mp ?_, fun slot' hne =>
    live_written hfits hslot hread hw (fun i hi hne => ?_) hne⟩
  · rw [BitVec.getLsbD_and, BitVec.getLsbD_not, Memory.getLsbD_mask (by omega)]
    simp
  · rw [BitVec.getLsbD_and, BitVec.getLsbD_not, Memory.getLsbD_mask hi]
    simp [hi, hne]

end Bits

/-! ## Runs -/

/-- The way of a call that returns an element. -/
theorem dpageAlloc_found {status : Status}
    (hret : dpageAlloc pool s = .ok (status, some va, t)) :
    ∃ slot u v, findSlot pool s pool.slots 0 = .ok (some slot) ∧ dpageBmSet pool s slot = .ok u ∧
      mapElement pool u slot = .ok (none, v) ∧
      zeroBytes v (pool.vaddr slot) (pool.elementSize / 4 * 4) = .ok t ∧ va = pool.vaddr slot := by
  unfold dpageAlloc at hret
  obtain ⟨slot?, hfind, hret⟩ := bind_eq_ok.mp hret
  cases slot? with
  | none => simp at hret
  | some slot =>
      obtain ⟨u, hset, hret⟩ := bind_eq_ok.mp hret
      obtain ⟨⟨failed, v⟩, hmap, hret⟩ := bind_eq_ok.mp hret
      cases failed with
      | some status =>
          obtain ⟨w, -, hret⟩ := bind_eq_ok.mp hret
          simp at hret
      | none =>
          obtain ⟨w, hzero, hret⟩ := bind_eq_ok.mp hret
          simp only [Except.ok.injEq, Prod.mk.injEq, Option.some.injEq] at hret
          exact ⟨slot, u, v, hfind, hset, hmap, hret.2.2 ▸ hzero, hret.2.1.symm⟩

/-- Pages that are added do not change which slots are in use. -/
theorem Extended.live (h : pool.Layout s) (hext : Extended pool s t) :
    pool.Live t slot ↔ pool.Live s slot :=
  live_congr fun slot hslot => hext.reads _ (pool.bitAddr_ours hslot) (h.bitmap slot hslot)

/-- The element is mapped in the end, and what was mapped before is as it was. -/
theorem mapElement_extended (h : pool.Layout s)
    (hret : mapElement pool s slot = .ok (none, t)) (hblank : TablesBlank s t) :
    Extended pool s t ∧ (t.pageMap (pool.first slot / 4096)).isSome = true ∧
      (t.pageMap (pool.second slot / 4096)).isSome = true := by
  rcases mapElement_cases h.safe.good hret with ⟨-, u, hfirst, hsecond⟩ | ⟨hne, -⟩
  · obtain ⟨held, hmoved⟩ := hfirst.moved h.safe.good
    obtain ⟨held', hmoved'⟩ := hsecond.moved hmoved.good
    obtain ⟨hblank₁, hblank₂⟩ := hblank.split hmoved hmoved'
    have hext₁ := h.grown hfirst hblank₁
    have hext₂ := hext₁.layout.grown hsecond hblank₂
    exact ⟨hext₁.trans hext₂, hext₂.keeps.isSome hfirst.isSome, hsecond.isSome⟩
  · exact absurd rfl hne

theorem alloc_spec (hfits : pool.Fits) (h : pool.Inv s) (hblank : NewTablesBlank pool s)
    (hret : dpageAlloc pool s = .ok (.success, some va, t)) :
    pool.Inv t ∧ StepSpec pool s (.alloc va) t := by
  obtain ⟨slot, u, v, hfind, hset, hmap, hzero, rfl⟩ := dpageAlloc_found hret
  obtain ⟨hslot, u', frame, byte, hset', hbit⟩ := dpageBmSet_found le_rfl hfind
  obtain rfl : u' = u := Except.ok.inj (hset'.symm.trans hset)
  obtain ⟨hwritten, hbusy, -⟩ := h.layout.safe.written hslot hbit
  obtain ⟨flags, hpage⟩ := hbit.page
  have hread : readByte s (pool.bitAddr slot) = .ok byte :=
    readByte_eq_ok.mpr ⟨_, hpage, hbit.before.symm⟩
  -- the bit is set
  have hw : ByteWritten pool s u' (pool.bitAddr slot) (byte ||| 1#8 <<< (slot % 8)) :=
    h.layout.write (pool.bitAddr_ours hslot) (by rw [writeByte_of_mapped hpage, hbit.state])
  obtain ⟨hliveU, hothersU⟩ := live_set hfits hslot hread hw
  -- the pages are mapped
  obtain ⟨held, hmoved⟩ : ∃ held, Moved held u' v := by
    rcases mapElement_cases hwritten.good hmap with ⟨-, w, hfirst, hsecond⟩ | ⟨hne, -⟩
    · obtain ⟨held, hmoved⟩ := hfirst.moved hwritten.good
      obtain ⟨held', hmoved'⟩ := hsecond.moved hmoved.good
      exact ⟨_, hmoved.trans hmoved'⟩
    · exact absurd rfl hne
  obtain ⟨hext, hfirst, hsecond⟩ := mapElement_extended hw.layout hmap
    ((hblank slot u' v hfind hset hmap).written hwritten hbusy hmoved)
  -- the element is cleared
  have hwords : pool.elementSize / 4 * 4 = pool.elementSize := by
    have := hfits.words
    omega
  rw [hwords] at hzero
  have hz := hext.layout.zeroBytes (hfits.vaddr_end_le hslot)
    (fun k hk => hfits.element_ours hslot hk) hzero
  have hlive : ∀ slot', pool.Live t slot' ↔ pool.Live u' slot' := by
    intro slot'
    rw [← hext.live hw.layout]
    refine live_congr fun i hi => hz.others _ (pool.bitAddr_ours hi) ?_
    by_contra hin
    exact hfits.ne_bitAddr hslot hi (k := pool.bitAddr i - pool.vaddr slot) (by omega) (by omega)
  have hothers : ∀ slot', slot' ≠ slot → (pool.Live t slot' ↔ pool.Live s slot') :=
    fun slot' hne => (hlive slot').trans (hothersU slot' hne)
  have hmapped : ∀ slot' k, pool.Live s slot' → k < pool.elementSize →
      (u'.pageMap ((pool.vaddr slot' + k) / 4096)).isSome = true := by
    intro slot' k hs hk
    rw [hw.pageMap]
    exact h.mapped slot' k hs hk
  refine ⟨⟨hz.layout, fun slot' k hs hk => ?_⟩, ?_, ?_, ?_, ?_⟩
  · rw [hz.pageMap]
    by_cases hne : slot' = slot
    · subst hne
      rcases hfits.page_cases hslot hk with hq | hq
      · rw [hq]
        exact hfirst
      · rw [hq]
        exact hsecond
    · exact hext.keeps.isSome (hmapped slot' k ((hothers slot' hne).mp hs) hk)
  · intro slot' hne
    rw [Op.slot, hfits.slot_of_vaddr hslot] at hne
    exact hothers slot' hne
  · intro slot' k hs hne hk
    rw [Op.slot, hfits.slot_of_vaddr hslot] at hne
    have hours := hfits.element_ours hs.1 hk
    have hapart := hfits.apart hs.1 hslot hne
    calc readByte t (pool.vaddr slot' + k)
        = readByte v (pool.vaddr slot' + k) := hz.others _ hours (by omega)
      _ = readByte u' (pool.vaddr slot' + k) := hext.reads _ hours (hmapped slot' k hs hk)
      _ = readByte s (pool.vaddr slot' + k) := hw.others _ hours (hfits.ne_bitAddr hs.1 hslot hk)
  · intro va hva
    obtain rfl : pool.vaddr slot = va := by simpa using hva
    rw [Op.slot, hfits.slot_of_vaddr hslot]
    refine ⟨hfits.vaddr_eq hslot, ?_, (hlive slot).mpr hliveU, hz.zero⟩
    rw [live_iff hslot hread]
    have hclear := congrArg (fun b => BitVec.getLsbD b (slot % 8)) hbit.free
    simpa [BitVec.getLsbD_and, Memory.getLsbD_mask (show slot % 8 < 8 by omega)] using hclear
  · simp

theorem free_spec (hfits : pool.Fits) (h : pool.Inv s) (hlive : pool.Live s slot)
    (hret : dpageBmClear pool s slot = .ok t) : pool.Inv t ∧ StepSpec pool s (.free slot) t := by
  have hslot := hlive.1
  rw [dpageBmClear, if_neg (by omega)] at hret
  obtain ⟨byte, hread, hret⟩ := bind_eq_ok.mp hret
  have hw := h.layout.write (pool.bitAddr_ours hslot) hret
  obtain ⟨hfreed, hothers⟩ := live_clear hfits hslot hread hw
  refine ⟨⟨hw.layout, fun slot' k hs hk => ?_⟩, hothers, fun slot' k hs _ hk => ?_, by simp, ?_⟩
  · have hne : slot' ≠ slot := by
      rintro rfl
      exact hfreed hs
    rw [hw.pageMap]
    exact h.mapped slot' k ((hothers slot' hne).mp hs) hk
  · exact hw.others _ (hfits.element_ours hs.1 hk) (hfits.ne_bitAddr hs.1 hslot hk)
  · intro slot' heq
    obtain rfl : slot = slot' := by simpa using heq
    exact hfreed

theorem write_spec {k : Nat} (hfits : pool.Fits) (h : pool.Inv s) (hlive : pool.Live s slot)
    (hk : k < pool.elementSize) (hret : writeByte s (pool.vaddr slot + k) value = .ok t) :
    pool.Inv t ∧ StepSpec pool s (.write slot k value) t := by
  have hslot := hlive.1
  have hw := h.layout.write (hfits.element_ours hslot hk) hret
  have hlives : ∀ slot', pool.Live t slot' ↔ pool.Live s slot' := fun slot' =>
    live_congr fun i hi => hw.others _ (pool.bitAddr_ours hi)
      (hfits.ne_bitAddr hslot hi hk).symm
  refine ⟨⟨hw.layout, fun slot' k' hs hk' => ?_⟩, fun slot' _ => hlives slot',
    fun slot' k' hs hne hk' => ?_, by simp, by simp⟩
  · rw [hw.pageMap]
    exact h.mapped slot' k' ((hlives slot').mp hs) hk'
  · have hapart := hfits.apart hs.1 hslot hne
    exact hw.others _ (hfits.element_ours hs.1 hk') (by omega)

theorem step_spec {op : Op} (hfits : pool.Fits) (h : pool.Inv s) (hstep : Step pool s op t) :
    pool.Inv t ∧ StepSpec pool s op t := by
  cases hstep with
  | alloc hblank hret => exact alloc_spec hfits h hblank hret
  | free hlive hret => exact free_spec hfits h hlive hret
  | write hlive hk hret => exact write_spec hfits h hlive hk hret

/-- The bitmap is mapped and no slot is in use. Pages of the pool may be mapped already. -/
structure Pool.Empty (pool : Pool) (s : Paging.State) : Prop where
  layout : pool.Layout s
  empty : ∀ slot, ¬ pool.Live s slot

/-- In every run from an empty pool the live elements are apart and can be read, and every further
operation hands out cleared memory, and keeps away from the elements of other slots. -/
theorem run_elements {ops : List Op} (hfits : pool.Fits) (hempty : pool.Empty s)
    (hrun : Run (Step pool) s ops t) :
    (∀ slot slot', pool.Live t slot → pool.Live t slot' → slot ≠ slot' →
      pool.vaddr slot + pool.elementSize ≤ pool.vaddr slot' ∨
        pool.vaddr slot' + pool.elementSize ≤ pool.vaddr slot) ∧
    (∀ slot k, pool.Live t slot → k < pool.elementSize →
      (t.pageMap ((pool.vaddr slot + k) / 4096)).isSome = true) ∧
    ∀ op u, Step pool t op u → StepSpec pool t op u := by
  have hinv : pool.Inv t := hrun.invariant (I := pool.Inv)
    (fun _ _ _ h hstep => (step_spec hfits h hstep).1)
    ⟨hempty.layout, fun slot _ hlive => absurd hlive (hempty.empty slot)⟩
  exact ⟨fun slot slot' hs hs' hne => hfits.apart hs.1 hs'.1 hne, hinv.mapped,
    fun op u hstep => (step_spec hfits hinv hstep).2⟩

/-- Where all pages of a pool are mapped no table is made. -/
theorem newTablesBlank_of_mapped (h : pool.Layout s) (hmapped : ∀ slot, slot < pool.slots →
      (s.pageMap (pool.first slot / 4096)).isSome = true ∧
        (s.pageMap (pool.second slot / 4096)).isSome = true) : NewTablesBlank pool s := by
  intro slot u v hfind hset hmap
  obtain ⟨hslot, u', frame, byte, hset', hbit⟩ := dpageBmSet_found le_rfl hfind
  obtain rfl : u' = u := Except.ok.inj (hset'.symm.trans hset)
  obtain ⟨hwritten, -, -⟩ := h.safe.written hslot hbit
  obtain ⟨hfirst, hsecond⟩ := hmapped slot hslot
  rw [← hwritten.pageMap] at hfirst hsecond
  have hsame : ∀ {q : Nat} {w : Paging.State}, (u'.pageMap q).isSome = true →
      Grown u' q w → u' = w := by
    intro q w hq hgrown
    cases hgrown with
    | same => rfl
    | added hadded => simp [hadded.absent] at hq
  rcases mapElement_cases hwritten.good hmap with ⟨-, w, hgrown, hgrown'⟩ | ⟨hne, -⟩
  · obtain rfl := hsame hfirst hgrown
    obtain rfl := hsame hsecond hgrown'
    exact fun g hg hgs => absurd ((hwritten.tableFrame g).mp hg) hgs
  · exact absurd rfl hne

/-- Eight words on the second page, with the bitmap in the second byte of the first. -/
def smallPool : Pool := ⟨0xE4000001, 0xE4001000, 4, 1⟩

theorem smallPool_bitAddr (hslot : slot < smallPool.slots) :
    smallPool.bitAddr slot = 0xE4000001 := by
  simp only [Pool.slots, Pool.bitAddr, smallPool] at *
  omega

theorem smallPool_fits : smallPool.Fits := by
  refine ⟨by decide, by decide, by decide, by decide, fun slot hslot => ?_⟩
  rw [smallPool_bitAddr hslot]
  decide

theorem smallPool_empty : smallPool.Empty (sampleState 2) := by
  refine ⟨⟨sampleState_safe (by decide) _, fun q q' page page' _ _ hq hq' heq => ?_,
    fun slot hslot => ?_⟩, fun slot hlive => ?_⟩
  · rcases sampleState_page hq with ⟨rfl, hframe⟩ | ⟨rfl, hframe⟩ <;>
      rcases sampleState_page hq' with ⟨rfl, hframe'⟩ | ⟨rfl, hframe'⟩ <;> omega
  · rw [smallPool_bitAddr hslot]
    decide +kernel
  · have hread : readByte (sampleState 2) 0xE4000001 = .ok 0 := by decide +kernel
    have hbit := (live_iff hlive.1 (by rw [smallPool_bitAddr hlive.1]; exact hread)).mp hlive
    simp at hbit

theorem smallPool_blank (h : smallPool.Layout s) (hpage : (s.pageMap 0xE4001).isSome = true) :
    NewTablesBlank smallPool s := by
  refine newTablesBlank_of_mapped h fun slot hslot => ?_
  have hq : smallPool.first slot / 4096 = 0xE4001 ∧ smallPool.second slot / 4096 = 0xE4001 := by
    simp only [Pool.slots, Pool.first, Pool.second, Pool.vaddr, smallPool] at *
    omega
  rw [hq.1, hq.2]
  exact ⟨hpage, hpage⟩

/-- Two elements are handed out, and the first is freed again. -/
theorem run_elements_two : ∃ t,
    Run (Step smallPool) (sampleState 2) [.alloc 0xE4001000, .alloc 0xE4001004, .free 0] t ∧
      ∀ slot k, smallPool.Live t slot → k < 4 →
        (t.pageMap ((smallPool.vaddr slot + k) / 4096)).isSome = true := by
  have hfits := smallPool_fits
  have hempty := smallPool_empty
  obtain ⟨⟨status, va, s₁⟩, h₁, htest⟩ := exists_of_okAnd
    (e := dpageAlloc smallPool (sampleState 2))
    (p := fun r => r.1 == .success && r.2.1 == some 0xE4001000 &&
      (r.2.2.pageMap 0xE4001).isSome &&
      okAnd (dpageAlloc smallPool r.2.2) fun r' => r'.1 == .success &&
        r'.2.1 == some 0xE4001004 && okAnd (readByte r'.2.2 0xE4000001) (fun b => b == 3) &&
        okAnd (dpageBmClear smallPool r'.2.2 0) fun _ => true)
    (by decide +kernel)
  simp only [Bool.and_eq_true, beq_iff_eq] at htest
  obtain ⟨⟨⟨rfl, rfl⟩, hpage⟩, htest⟩ := htest
  obtain ⟨⟨status, va, s₂⟩, h₂, htest⟩ := exists_of_okAnd htest
  simp only [Bool.and_eq_true, beq_iff_eq] at htest
  obtain ⟨⟨⟨rfl, rfl⟩, hread⟩, htest⟩ := htest
  obtain ⟨byte, hread, hbyte⟩ := exists_of_okAnd hread
  obtain rfl : byte = 3 := by simpa using hbyte
  obtain ⟨t, h₃, -⟩ := exists_of_okAnd htest
  have hblank : NewTablesBlank smallPool (sampleState 2) :=
    smallPool_blank hempty.layout (by decide +kernel)
  have hinv : smallPool.Inv s₁ := (alloc_spec hfits
    ⟨hempty.layout, fun slot _ hlive => absurd hlive (hempty.empty slot)⟩ hblank h₁).1
  have hlive : smallPool.Live s₂ 0 := ⟨by decide, 3, hread, by decide⟩
  have hrun : Run (Step smallPool) (sampleState 2)
      [.alloc 0xE4001000, .alloc 0xE4001004, .free 0] t :=
    .cons (.alloc hblank h₁) (.cons (.alloc (smallPool_blank hinv.layout hpage) h₂)
      (.cons (.free hlive h₃) (.nil _)))
  exact ⟨t, hrun, (run_elements hfits hempty hrun).2.1⟩

end Unidos.Dpage
