import Unidos.Dpage.Basic

/-!
# The frames behind the kernel's directory

`Good` is the state of the kernel's directory and of the memory manager that the pools rely on: the
frames of the directory, of its tables and of the page bitmap are allocated and apart. `Moved`
bounds what mapping and unmapping does: directory entries that are present stay, the frames that
are allocated in the end are those that were, those still `held` and the new page tables, and the
memory of all other frames is left alone.
-/

namespace Unidos.Dpage

open Lib Paging

/-- A page table of the kernel's directory. -/
def TableFrame (s : Paging.State) (f : Nat) : Prop :=
  ∃ i, i < 1024 ∧ entryPresent (s.dirEntry i) = true ∧ f = entryFrame (s.dirEntry i)

/-- The memory manager does not hand the frame out. -/
def Busy (s : Paging.State) (f : Nat) : Prop := f < s.pmm.frameCount → s.pmm.bit f = true

/-- The frame holds neither the page bitmap nor the directory nor a page table. -/
structure Plain (s : Paging.State) (f : Nat) : Prop where
  bitmap : ¬ s.pmm.HoldsBitmap f
  dir : f ≠ s.dirFrame
  table : ¬ TableFrame s f

structure Good (s : Paging.State) : Prop where
  sound : s.pmm.Sound
  wired : s.Wired
  reach : s.Reachable
  dir_busy : Busy s s.dirFrame
  dir_bitmap : ¬ s.pmm.HoldsBitmap s.dirFrame
  table_busy : ∀ f, TableFrame s f → Busy s f
  table_bitmap : ∀ f, TableFrame s f → ¬ s.pmm.HoldsBitmap f
  zero_busy : Busy s 0

variable {s t u : Paging.State} {f : Nat} {pmm : Pmm.State}

namespace Good

theorem dirSafe (h : Good s) : s.DirSafe :=
  ⟨h.sound, h.wired.dir_aligned, h.reach.dir_lt, h.dir_busy, h.dir_bitmap⟩

/-- A free frame is not one of the kernel's. -/
theorem free_plain (h : Good s) (hlt : f < s.pmm.frameCount) (hfree : s.pmm.bit f = false) :
    Plain s f := by
  have hbusy : ¬ Busy s f := fun hb => by simp [hb hlt] at hfree
  refine ⟨fun hholds => ?_, ?_, fun htable => hbusy (h.table_busy f htable)⟩
  · simp [h.sound.bitmap_set f hlt hholds] at hfree
  · rintro rfl
    exact hbusy h.dir_busy

end Good

/-! ## Memory that agrees on the directory and the tables -/

/-- The directory is where it was and says the same. -/
structure SameEntries (s t : Paging.State) : Prop where
  dir : t.pageDirectoryLocPhys = s.pageDirectoryLocPhys
  loc : t.pageTablesLocPhys = s.pageTablesLocPhys
  agree : AgreeOn s.pmm.mem t.pmm.mem s.dirFrame

namespace SameEntries

theorem dirFrame (h : SameEntries s t) : t.dirFrame = s.dirFrame := by
  unfold State.dirFrame
  rw [h.dir]

theorem dirEntry (h : SameEntries s t) {i : Nat} (hi : i < 1024) : t.dirEntry i = s.dirEntry i := by
  unfold State.dirEntry
  rw [h.dirFrame, h.agree.tableEntry hi]

theorem tableFrame (h : SameEntries s t) (f : Nat) : TableFrame t f ↔ TableFrame s f := by
  unfold TableFrame
  constructor
  · rintro ⟨i, hi, hpresent, rfl⟩
    exact ⟨i, hi, by rwa [← h.dirEntry hi], by rw [h.dirEntry hi]⟩
  · rintro ⟨i, hi, hpresent, rfl⟩
    exact ⟨i, hi, by rwa [h.dirEntry hi], by rw [h.dirEntry hi]⟩

theorem pageMap (h : SameEntries s t)
    (htables : ∀ f, TableFrame s f → AgreeOn s.pmm.mem t.pmm.mem f) : t.pageMap = s.pageMap := by
  funext page
  unfold State.pageMap
  by_cases hpage : page < 2 ^ 20
  · rw [if_pos hpage, if_pos hpage, h.dirFrame,
      translate_congr (by omega) (by omega) h.agree fun hpresent =>
        htables _ ⟨page / 1024, by omega, hpresent, rfl⟩]
  · rw [if_neg hpage, if_neg hpage]

end SameEntries

theorem sameEntries_withPmm (h : Good s) (hbits : Pmm.BitsOnly s.pmm pmm) :
    SameEntries s { s with pmm := pmm } :=
  ⟨rfl, rfl, hbits.agreeOn h.sound.toInv h.dir_bitmap⟩

/-- Changes of the page bitmap do not show in the map. -/
theorem pageMap_withPmm (h : Good s) (hbits : Pmm.BitsOnly s.pmm pmm) :
    ({ s with pmm := pmm } : Paging.State).pageMap = s.pageMap :=
  (sameEntries_withPmm h hbits).pageMap fun f hf =>
    hbits.agreeOn h.sound.toInv (h.table_bitmap f hf)

/-- What carries over when the directory says the same. -/
theorem Good.congr (h : Good s) (hsame : SameEntries s t) (hsound : t.pmm.Sound)
    (hholds : ∀ f, t.pmm.HoldsBitmap f ↔ s.pmm.HoldsBitmap f)
    (hbusy : ∀ f, ¬ Plain s f ∨ f = 0 → Busy s f → Busy t f) : Good t := by
  have hdir := hsame.dirFrame
  refine ⟨hsound, ⟨hsame.dir ▸ h.wired.dir_aligned, hdir ▸ h.wired.tables.congr hsame.agree,
    fun i hi hpresent => ?_⟩, ⟨hsame.dir ▸ h.reach.dir_ne, hsame.dir ▸ h.reach.dir_lt,
    fun i hi hpresent => ?_, fun i hi hpresent => ?_⟩, ?_, ?_, fun f hf => ?_, fun f hf => ?_,
    hbusy 0 (.inr rfl) h.zero_busy⟩
  · rw [hsame.dirEntry hi] at hpresent ⊢
    rw [hsame.loc]
    exact h.wired.loc i hi hpresent
  · rw [hsame.dirEntry hi] at hpresent ⊢
    exact h.reach.table_ne i hi hpresent
  · rw [hsame.dirEntry hi] at hpresent ⊢
    exact h.reach.table_lt i hi hpresent
  · rw [hdir]
    exact hbusy _ (.inl fun hplain => hplain.dir rfl) h.dir_busy
  · rw [hdir, hholds]
    exact h.dir_bitmap
  · have hf' := (hsame.tableFrame f).mp hf
    exact hbusy f (.inl fun hplain => hplain.table hf') (h.table_busy f hf')
  · rw [hholds]
    exact h.table_bitmap f ((hsame.tableFrame f).mp hf)

/-! ## Moves -/

structure Moved (held : List Nat) (s t : Paging.State) : Prop where
  start : Good s
  good : Good t
  dir : t.pageDirectoryLocPhys = s.pageDirectoryLocPhys
  count : t.pmm.frameCount = s.pmm.frameCount
  holds : ∀ f, t.pmm.HoldsBitmap f ↔ s.pmm.HoldsBitmap f
  reserved : ∀ f, t.pmm.FrameReserved f ↔ s.pmm.FrameReserved f
  present : ∀ i, i < 1024 → entryPresent (s.dirEntry i) = true → t.dirEntry i = s.dirEntry i
  tables : ∀ f, TableFrame t f → TableFrame s f ∨ (f < s.pmm.frameCount ∧ s.pmm.bit f = false)
  bits : ∀ f, f < s.pmm.frameCount →
    (t.pmm.bit f = true ↔ s.pmm.bit f = true ∨ f ∈ held ∨ TableFrame t f)
  held_lt : ∀ f ∈ held, f < s.pmm.frameCount
  held_free : ∀ f ∈ held, s.pmm.bit f = false
  held_table : ∀ f ∈ held, ¬ TableFrame t f
  mem : ∀ f, Plain s f → ¬ TableFrame t f → AgreeOn s.pmm.mem t.pmm.mem f

variable {held held' : List Nat}

theorem Moved.dirFrame (h : Moved held s t) : t.dirFrame = s.dirFrame := by
  unfold State.dirFrame
  rw [h.dir]

theorem Moved.tableFrame (h : Moved held s t) (hf : TableFrame s f) : TableFrame t f := by
  obtain ⟨i, hi, hpresent, rfl⟩ := hf
  refine ⟨i, hi, ?_, ?_⟩
  · rwa [h.present i hi hpresent]
  · rw [h.present i hi hpresent]

/-- Frames that are neither the kernel's nor used for a new table. -/
theorem Moved.plain (h : Moved held s t) (hf : Plain s f) (htable : ¬ TableFrame t f) :
    Plain t f :=
  ⟨mt (h.holds f).mp hf.bitmap, h.dirFrame ▸ hf.dir, htable⟩

/-- An allocated frame does not become a table. -/
theorem Moved.not_table (h : Moved held s t) (hf : ¬ TableFrame s f) (hbusy : Busy s f) :
    ¬ TableFrame t f := by
  intro htable
  rcases h.tables f htable with hs | ⟨hlt, hfree⟩
  · exact hf hs
  · simp [hbusy hlt] at hfree

theorem Moved.busy (h : Moved held s t) (hf : Busy s f) : Busy t f := by
  intro hlt
  rw [h.count] at hlt
  exact (h.bits f hlt).mpr (.inl (hf hlt))

/-- A frame that is free in the end was free before, and nobody wrote to it. -/
theorem Moved.free (h : Moved held s t) (hlt : f < s.pmm.frameCount) (hfree : t.pmm.bit f = false) :
    s.pmm.bit f = false ∧ AgreeOn s.pmm.mem t.pmm.mem f := by
  have hbits := (h.bits f hlt).not
  simp only [hfree, Bool.false_eq_true, not_false_eq_true, true_iff, not_or,
    Bool.not_eq_true] at hbits
  exact ⟨hbits.1, h.mem f (h.start.free_plain hlt hbits.1) hbits.2.2⟩

theorem Moved.refl (h : Good s) : Moved [] s s where
  start := h
  good := h
  dir := rfl
  count := rfl
  holds _ := Iff.rfl
  reserved _ := Iff.rfl
  present _ _ _ := rfl
  tables _ hf := .inl hf
  bits f hf := by
    simp only [List.not_mem_nil, false_or]
    exact ⟨.inl, fun hor => hor.elim id fun htable => h.table_busy f htable hf⟩
  held_lt := by simp
  held_free := by simp
  held_table := by simp
  mem _ _ _ := .refl _ _

theorem Moved.trans (h : Moved held s t) (h' : Moved held' t u) : Moved (held ++ held') s u where
  start := h.start
  good := h'.good
  dir := h'.dir.trans h.dir
  count := h'.count.trans h.count
  holds f := (h'.holds f).trans (h.holds f)
  reserved f := (h'.reserved f).trans (h.reserved f)
  present i hi hpresent := by
    have heq := h.present i hi hpresent
    rw [← heq] at hpresent ⊢
    exact h'.present i hi hpresent
  tables f hf := by
    rcases h'.tables f hf with ht | ⟨hlt, hfree⟩
    · exact h.tables f ht
    · rw [h.count] at hlt
      exact .inr ⟨hlt, (h.free hlt hfree).1⟩
  bits f hf := by
    rw [h'.bits f (h.count ▸ hf), h.bits f hf, List.mem_append]
    constructor
    · rintro ((hs | hheld | ht) | hheld | hu)
      · exact .inl hs
      · exact .inr (.inl (.inl hheld))
      · exact .inr (.inr (h'.tableFrame ht))
      · exact .inr (.inl (.inr hheld))
      · exact .inr (.inr hu)
    · rintro (hs | (hheld | hheld) | hu)
      · exact .inl (.inl hs)
      · exact .inl (.inr (.inl hheld))
      · exact .inr (.inl hheld)
      · exact .inr (.inr hu)
  held_lt f hf := by
    rcases List.mem_append.mp hf with hf | hf
    · exact h.held_lt f hf
    · exact h.count ▸ h'.held_lt f hf
  held_free f hf := by
    rcases List.mem_append.mp hf with hf | hf
    · exact h.held_free f hf
    · exact (h.free (h.count ▸ h'.held_lt f hf) (h'.held_free f hf)).1
  held_table f hf := by
    rcases List.mem_append.mp hf with hf | hf
    · refine h'.not_table (h.held_table f hf) fun _ => ?_
      exact (h.bits f (h.held_lt f hf)).mpr (.inr (.inl hf))
    · exact h'.held_table f hf
  mem f hf htable := by
    have ht : ¬ TableFrame t f := fun ht => htable (h'.tableFrame ht)
    exact (h.mem f hf ht).trans (h'.mem f (h.plain hf ht) htable)

/-! ## The moves of the memory manager -/

theorem Moved.take (h : Good s) (htook : Pmm.Took s.pmm f pmm) :
    Moved [f] s { s with pmm := pmm } := by
  have hsame := sameEntries_withPmm h htook.bits
  have hplain := h.free_plain htook.lt htook.free
  have hset : ∀ g, pmm.bit g = true ↔ s.pmm.bit g = true ∨ g = f := by
    intro g
    rw [htook.set g, Bool.or_eq_true, decide_eq_true_eq, or_comm]
  have hgood : Good { s with pmm := pmm } := by
    refine h.congr hsame htook.sound htook.bits.holdsBitmap fun g _ hbusy hlt => ?_
    exact (hset g).mpr (.inl (hbusy (htook.bits.count ▸ hlt)))
  refine ⟨h, hgood, rfl, htook.bits.count, htook.bits.holdsBitmap, htook.bits.frameReserved,
    fun i hi _ => hsame.dirEntry hi, fun g hg => .inl ((hsame.tableFrame g).mp hg),
    fun g hg => ?_, by simpa using htook.lt, by simpa using htook.free, ?_,
    fun g hg _ => htook.bits.agreeOn h.sound.toInv hg.bitmap⟩
  · rw [hset g, List.mem_singleton, hsame.tableFrame]
    constructor
    · rintro (hs | hgf)
      · exact .inl hs
      · exact .inr (.inl hgf)
    · rintro (hs | hgf | htable)
      · exact .inl hs
      · exact .inr hgf
      · exact .inl (h.table_busy g htable hg)
  · intro g hg
    rw [List.mem_singleton.mp hg, hsame.tableFrame]
    exact hplain.table

/-- A frame that is held may be given back. -/
theorem Moved.drop (h : Moved (f :: held) s t) (hf : f ∉ held) :
    Moved held s { t with pmm := (Pmm.pmmDeallocSpecificBlock t.pmm (4096 * f)).2 } ∧
      ({ t with pmm := (Pmm.pmmDeallocSpecificBlock t.pmm (4096 * f)).2 } :
        Paging.State).pageMap = t.pageMap := by
  have hs := h.start
  have hlt := h.held_lt f (by simp)
  have hfree := h.held_free f (by simp)
  have hplain := hs.free_plain hlt hfree
  have htable := h.held_table f (by simp)
  obtain ⟨pmm, heq, hbits, hsound, hset⟩ := Pmm.dealloc_spec h.good.sound (h.count ▸ hlt)
    ((h.bits f hlt).mpr (.inr (.inl (by simp))))
    (mt (h.reserved f).mp (hs.sound.not_reserved hlt hfree)) (mt (h.holds f).mp hplain.bitmap)
  rw [heq]
  have hsame := sameEntries_withPmm h.good hbits
  have hset' : ∀ g, pmm.bit g = true ↔ t.pmm.bit g = true ∧ g ≠ f := by
    intro g
    rw [hset g, Bool.and_eq_true, Bool.not_eq_true', decide_eq_false_iff_not, and_comm]
  have hgood : Good { t with pmm := pmm } := by
    refine h.good.congr hsame hsound hbits.holdsBitmap fun g hg hbusy hlt' => ?_
    refine (hset' g).mpr ⟨hbusy (hbits.count ▸ hlt'), ?_⟩
    rintro rfl
    rcases hg with hg | rfl
    · exact hg (h.plain hplain htable)
    · simp [hs.zero_busy hlt] at hfree
  refine ⟨⟨hs, hgood, h.dir, hbits.count.trans h.count,
    fun g => (hbits.holdsBitmap g).trans (h.holds g),
    fun g => (hbits.frameReserved g).trans (h.reserved g), fun i hi hpresent => ?_,
    fun g hg => ?_, fun g hg => ?_, fun g hg => h.held_lt g (by simp [hg]),
    fun g hg => h.held_free g (by simp [hg]), fun g hg => ?_, fun g hg hgt => ?_⟩,
    pageMap_withPmm h.good hbits⟩
  · exact (hsame.dirEntry hi).trans (h.present i hi hpresent)
  · exact h.tables g ((hsame.tableFrame g).mp hg)
  · rw [hset' g, h.bits g hg, hsame.tableFrame, List.mem_cons]
    constructor
    · rintro ⟨hs' | (rfl | hheld) | ht, hne⟩
      · exact .inl hs'
      · exact absurd rfl hne
      · exact .inr (.inl hheld)
      · exact .inr (.inr ht)
    · rintro (hs' | hheld | ht)
      · refine ⟨.inl hs', ?_⟩
        rintro rfl
        simp [hs'] at hfree
      · refine ⟨.inr (.inl (.inr hheld)), ?_⟩
        rintro rfl
        exact hf hheld
      · refine ⟨.inr (.inr ht), ?_⟩
        rintro rfl
        exact htable ht
  · rw [hsame.tableFrame]
    exact h.held_table g (by simp [hg])
  · rw [hsame.tableFrame] at hgt
    exact (h.mem g hg hgt).trans (hbits.agreeOn h.good.sound.toInv (mt (h.holds g).mp hg.bitmap))

/-! ## The moves of the paging functions -/

section SetPage

variable {i j : Nat} (h : Good s) (hi : i < 1024) (hpresent : entryPresent (s.dirEntry i) = true)
  (hj : j < 1024) (w : BitVec 32)

include hi hpresent hj

theorem agreeOn_setPage_of_plain {g : Nat} (hg : ¬ TableFrame s g) :
    AgreeOn s.pmm.mem (s.setPage i j w).pmm.mem g := by
  refine agreeOn_setEntry _ w hj ?_
  rintro rfl
  exact hg ⟨i, hi, hpresent, rfl⟩

include h

/-- An entry of a page table is rewritten. -/
theorem Moved.setPage : Moved [] s (s.setPage i j w) := by
  have hdir := setPage_sameDir h.wired hi hpresent hj w
  have hsame : SameEntries s (s.setPage i j w) := ⟨hdir.dir, hdir.loc, hdir.agree⟩
  have hbitmap : ∀ g, s.pmm.HoldsBitmap g → AgreeOn s.pmm.mem (s.setPage i j w).pmm.mem g :=
    fun g hg => agreeOn_setPage_of_plain hi hpresent hj w fun htable =>
      h.table_bitmap g htable hg
  have hbit : ∀ g, g < s.pmm.frameCount → (s.setPage i j w).pmm.bit g = s.pmm.bit g :=
    fun g hg => h.sound.bit_withMem _ hbitmap hg
  have hgood : Good (s.setPage i j w) :=
    h.congr hsame (h.sound.withMem hbitmap) (fun _ => Iff.rfl) fun g _ hbusy hlt =>
      (hbit g hlt).trans (hbusy hlt)
  refine ⟨h, hgood, rfl, rfl, fun _ => Iff.rfl, fun _ => Iff.rfl, fun k hk _ => hsame.dirEntry hk,
    fun g hg => .inl ((hsame.tableFrame g).mp hg), fun g hg => ?_, by simp, by simp, by simp,
    fun g hg _ => agreeOn_setPage_of_plain hi hpresent hj w hg.table⟩
  rw [hbit g hg, hsame.tableFrame]
  simp only [List.not_mem_nil, false_or]
  exact ⟨.inl, fun hor => hor.elim id fun htable => h.table_busy g htable hg⟩

end SetPage

section WithTable

variable {virt : Nat} {flags : BitVec 32} (h : Good s) (htook : Pmm.Took s.pmm f pmm)
  (habsent : entryPresent (s.dirEntry (pdiOf virt)) = false)

include h htook

theorem dirEntry_withTable {i : Nat} (hi : i < 1024) :
    (s.withTable pmm virt f flags).dirEntry i =
      if i = pdiOf virt then newTableEntry f flags else s.dirEntry i := by
  change tableEntry (s.withTable pmm virt f flags).pmm.mem s.dirFrame i = _
  rw [withTable_mem h.dirSafe]
  split
  · rename_i heq
    rw [heq, tableEntry_setEntry_same]
  · rename_i hne
    rw [tableEntry_setEntry_ne _ _ hne,
      (htook.bits.agreeOn h.sound.toInv h.dir_bitmap).tableEntry hi]
    rfl

/-- Memory after a table was entered: the page bitmap and the directory have changed. -/
theorem agreeOn_withTable {g : Nat} (hbitmap : ¬ s.pmm.HoldsBitmap g) (hdir : g ≠ s.dirFrame) :
    AgreeOn s.pmm.mem (s.withTable pmm virt f flags).pmm.mem g := by
  rw [withTable_mem h.dirSafe]
  exact (htook.bits.agreeOn h.sound.toInv hbitmap).trans
    (agreeOn_setEntry _ _ (pdiOf_lt virt) hdir)

include habsent

theorem tableFrame_withTable (g : Nat) :
    TableFrame (s.withTable pmm virt f flags) g ↔ TableFrame s g ∨ g = f := by
  have hframe := entryFrame_newTableEntry (took_lt h.dirSafe htook) flags
  constructor
  · rintro ⟨i, hi, hpresent, rfl⟩
    rw [dirEntry_withTable h htook hi] at hpresent ⊢
    split at hpresent
    · rename_i heq
      rw [if_pos heq, hframe]
      exact .inr rfl
    · rename_i hne
      rw [if_neg hne]
      exact .inl ⟨i, hi, hpresent, rfl⟩
  · rintro (⟨i, hi, hpresent, rfl⟩ | rfl)
    · have hne : i ≠ pdiOf virt := by
        rintro rfl
        simp [habsent] at hpresent
      refine ⟨i, hi, ?_, ?_⟩
      · rwa [dirEntry_withTable h htook hi, if_neg hne]
      · rw [dirEntry_withTable h htook hi, if_neg hne]
    · refine ⟨pdiOf virt, pdiOf_lt virt, ?_, ?_⟩
      · rw [dirEntry_withTable h htook (pdiOf_lt virt), if_pos rfl]
        exact entryPresent_newTableEntry g flags
      · rw [dirEntry_withTable h htook (pdiOf_lt virt), if_pos rfl, hframe]

/-- A new page table is entered into the directory. -/
theorem Moved.withTable (hne : f ≠ 0) (hlt : f < 0x30000) :
    Moved [] s (s.withTable pmm virt f flags) := by
  have hentry : ∀ {i : Nat}, i < 1024 → (s.withTable pmm virt f flags).dirEntry i =
      if i = pdiOf virt then newTableEntry f flags else s.dirEntry i :=
    fun hi => dirEntry_withTable h htook hi
  have htables : ∀ g, TableFrame (s.withTable pmm virt f flags) g ↔ TableFrame s g ∨ g = f :=
    tableFrame_withTable h htook habsent
  have hplain := h.free_plain htook.lt htook.free
  have hframe := entryFrame_newTableEntry (took_lt h.dirSafe htook) flags
  have hphys : entryPhys (newTableEntry f flags) = 4096 * f := by rw [entryPhys_eq, hframe]
  have hdirne := took_ne_dir h.dirSafe htook
  -- the bits of the page bitmap are those after the frame was taken
  have hbitmap : ∀ g, pmm.HoldsBitmap g →
      AgreeOn pmm.mem (s.withTable pmm virt f flags).pmm.mem g := by
    intro g hg
    rw [withTable_mem h.dirSafe]
    refine agreeOn_setEntry _ _ (pdiOf_lt virt) ?_
    rintro rfl
    exact h.dir_bitmap ((htook.bits.holdsBitmap _).mp hg)
  have hbit : ∀ g, g < s.pmm.frameCount → ((s.withTable pmm virt f flags).pmm.bit g = true ↔
      s.pmm.bit g = true ∨ g = f) := by
    intro g hg
    have heq : (s.withTable pmm virt f flags).pmm.bit g = pmm.bit g :=
      htook.sound.bit_withMem _ hbitmap (htook.bits.count ▸ hg)
    rw [heq, htook.set g, Bool.or_eq_true, decide_eq_true_eq, or_comm]
  have hbusy : ∀ g, Busy s g → Busy (s.withTable pmm virt f flags) g := fun g hg hlt' =>
    have hlt'' : g < s.pmm.frameCount := htook.bits.count ▸ hlt'
    (hbit g hlt'').mpr (.inl (hg hlt''))
  have hwired : (s.withTable pmm virt f flags).Wired := by
    refine ⟨h.wired.dir_aligned, ?_, fun i hi hpresent => ?_⟩
    · change Lib.Wired (s.withTable pmm virt f flags).pmm.mem s.dirFrame
      rw [withTable_mem h.dirSafe]
      have hagree := htook.bits.agreeOn h.sound.toInv h.dir_bitmap
      refine (h.wired.tables.congr hagree).setTable (pdiOf_lt virt) (by rwa [hframe])
        fun k hk hki hpresent heq => hplain.table ?_
      rw [hagree.tableEntry hk] at hpresent heq
      exact ⟨k, hk, hpresent, by rw [← hframe, ← heq]; rfl⟩
    · rw [hentry hi] at hpresent ⊢
      by_cases heq : i = pdiOf virt
      · rw [if_pos heq, hphys, heq]
        exact Function.update_self ..
      · rw [if_neg heq] at hpresent ⊢
        exact (Function.update_of_ne heq _ _).trans (h.wired.loc i hi hpresent)
  have hreach : (s.withTable pmm virt f flags).Reachable := by
    refine ⟨h.reach.dir_ne, h.reach.dir_lt, fun i hi hpresent => ?_, fun i hi hpresent => ?_⟩
    · rw [hentry hi] at hpresent ⊢
      by_cases heq : i = pdiOf virt
      · rw [if_pos heq, hphys]
        omega
      · rw [if_neg heq] at hpresent ⊢
        exact h.reach.table_ne i hi hpresent
    · rw [hentry hi] at hpresent ⊢
      by_cases heq : i = pdiOf virt
      · rw [if_pos heq, hphys]
        omega
      · rw [if_neg heq] at hpresent ⊢
        exact h.reach.table_lt i hi hpresent
  have hgood : Good (s.withTable pmm virt f flags) := by
    refine ⟨htook.sound.withMem hbitmap, hwired, hreach, hbusy _ h.dir_busy,
      fun hholds => h.dir_bitmap ((htook.bits.holdsBitmap _).mp hholds), fun g hg => ?_,
      fun g hg hholds => ?_, hbusy 0 h.zero_busy⟩
    · rcases (htables g).mp hg with hg | rfl
      · exact hbusy g (h.table_busy g hg)
      · exact fun _ => (hbit g htook.lt).mpr (.inr rfl)
    · have hholds' := (htook.bits.holdsBitmap g).mp hholds
      rcases (htables g).mp hg with hg | rfl
      · exact h.table_bitmap g hg hholds'
      · exact hplain.bitmap hholds'
  refine ⟨h, hgood, rfl, htook.bits.count, htook.bits.holdsBitmap, htook.bits.frameReserved,
    fun i hi hpresent => ?_, fun g hg => ?_, fun g hg => ?_, by simp, by simp, by simp,
    fun g hg htable => agreeOn_withTable h htook hg.bitmap hg.dir⟩
  · rw [hentry hi, if_neg]
    rintro rfl
    simp [habsent] at hpresent
  · rcases (htables g).mp hg with hg | rfl
    · exact .inl hg
    · exact .inr ⟨htook.lt, htook.free⟩
  · rw [hbit g hg, htables g]
    simp only [List.not_mem_nil, false_or]
    constructor
    · rintro (hs | rfl)
      · exact .inl hs
      · exact .inr (.inr rfl)
    · rintro (hs | hs | rfl)
      · exact .inl hs
      · exact .inl (h.table_busy g hs hg)
      · exact .inr rfl

omit habsent in
/-- The map after a table was entered: the table brings in what its frame describes. -/
theorem pageMap_enterTable {q : Nat} (hq : q < 2 ^ 20) :
    (s.withTable pmm virt f flags).pageMap q =
      if q / 1024 = pdiOf virt then
        (Option.guard entryPresent (tableEntry s.pmm.mem f (q % 1024))).map entryMapping
      else s.pageMap q := by
  have hentry : (s.withTable pmm virt f flags).dirEntry (q / 1024) =
      if q / 1024 = pdiOf virt then newTableEntry f flags else s.dirEntry (q / 1024) :=
    dirEntry_withTable h htook (by omega)
  have hplain := h.free_plain htook.lt htook.free
  unfold State.pageMap
  rw [if_pos hq, if_pos hq]
  by_cases heq : q / 1024 = pdiOf virt
  · rw [if_pos heq] at hentry ⊢
    have hpresent : entryPresent ((s.withTable pmm virt f flags).dirEntry (q / 1024)) = true := by
      rw [hentry]
      exact entryPresent_newTableEntry f flags
    rw [translate_of_present hpresent]
    change (Option.guard _ (tableEntry _ (entryFrame
      ((s.withTable pmm virt f flags).dirEntry (q / 1024))) _)).map _ = _
    rw [hentry, entryFrame_newTableEntry (took_lt h.dirSafe htook),
      (agreeOn_withTable h htook hplain.bitmap hplain.dir).tableEntry (by omega)]
  · rw [if_neg heq] at hentry ⊢
    change (Lib.translate (s.withTable pmm virt f flags).pmm.mem s.dirFrame _ _).map _ = _
    unfold Lib.translate
    change ((if entryPresent ((s.withTable pmm virt f flags).dirEntry (q / 1024)) then
      Option.guard _ (tableEntry _ (entryFrame
        ((s.withTable pmm virt f flags).dirEntry (q / 1024))) _) else none).map _) = _
    rw [hentry]
    by_cases hpresent : entryPresent (s.dirEntry (q / 1024)) = true
    · have htable : TableFrame s (entryFrame (s.dirEntry (q / 1024))) :=
        ⟨_, by omega, hpresent, rfl⟩
      have hdir := h.wired.tables.ne_dir (q / 1024) (by omega) hpresent
      rw [if_pos hpresent, (agreeOn_withTable h htook (h.table_bitmap _ htable) hdir).tableEntry
        (by omega)]
      exact congrArg _ (if_pos hpresent).symm
    · rw [if_neg hpresent]
      exact congrArg _ (if_neg hpresent).symm

end WithTable

/-! ## Mapping a page -/

/-- The frames of new page tables hold no present entries. -/
def TablesBlank (s t : Paging.State) : Prop :=
  ∀ g, TableFrame t g → ¬ TableFrame s g →
    ∀ j, j < 1024 → entryPresent (tableEntry s.pmm.mem g j) = false

theorem TablesBlank.split (h : TablesBlank s t) (hu : Moved held s u) (ht : Moved held' u t) :
    TablesBlank s u ∧ TablesBlank u t := by
  refine ⟨fun g hg => h g (ht.tableFrame hg), fun g hg hgu j hj => ?_⟩
  rcases ht.tables g hg with hgu' | ⟨hlt, hfree⟩
  · exact absurd hgu' hgu
  · have hmem := (hu.free (hu.count ▸ hlt) hfree).2
    rw [hmem.tableEntry hj]
    exact h g hg (fun hgs => hgu (hu.tableFrame hgs)) j hj

/-- Pages that are mapped stay as they are. -/
def KeepsPages (s t : Paging.State) : Prop :=
  ∀ q page, s.pageMap q = some page → t.pageMap q = some page

theorem KeepsPages.trans (h : KeepsPages s t) (h' : KeepsPages t u) : KeepsPages s u :=
  fun q page hq => h' q page (h q page hq)

/-- A page was added, and with it perhaps a page table. -/
structure PageAdded (s t : Paging.State) (q : Nat) (page : Mapping) : Prop where
  moved : Moved [] s t
  absent : s.pageMap q = none
  keeps : KeepsPages s t
  added : t.pageMap q = some page
  exact : TablesBlank s t → t.pageMap = Function.update s.pageMap q (some page)

/-- No page was added, but perhaps a page table. -/
structure NoPage (s t : Paging.State) : Prop where
  moved : Moved [] s t
  keeps : KeepsPages s t

theorem pageMap_lt {q : Nat} {page : Mapping} (h : s.pageMap q = some page) : q < 2 ^ 20 := by
  unfold State.pageMap at h
  split at h
  · assumption
  · simp at h

theorem pageMap_absent {virt : Nat} (hvirt : virt < 2 ^ 32)
    (habsent : entryPresent (s.dirEntry (pdiOf virt)) = false) :
    s.pageMap (virt / 4096) = none := by
  rw [pageMap_apply hvirt, translate_of_absent habsent]
  rfl

/-- A page that is mapped has a table. -/
theorem present_of_pageMap {q : Nat} {page : Mapping} (h : s.pageMap q = some page) :
    entryPresent (s.dirEntry (q / 1024)) = true := by
  have hq := pageMap_lt h
  cases hpresent : entryPresent (s.dirEntry (q / 1024)) with
  | true => rfl
  | false =>
      rw [State.pageMap, if_pos hq, translate_of_absent hpresent] at h
      simp at h

theorem mapping_frame {f : Nat} (hf : f < 2 ^ 20) (flags : BitVec 32) :
    (Option.guard entryPresent (mkEntry (4096 * f) (storedFlags flags))).map entryMapping =
      some ⟨f, storedFlags flags⟩ := by
  rw [mapping_mkEntry (by omega) (by omega), Nat.mul_div_cancel_left f (by decide)]

/-- A page is entered into a table that is there. -/
theorem pageAdded_setPage {virt : Nat} (flags : BitVec 32) (h : Good s) (hvirt : virt < 2 ^ 32)
    (hf : f < 2 ^ 20) (hpresent : entryPresent (s.dirEntry (pdiOf virt)) = true)
    (hentry : ¬ entryPresent (s.pageEntry (pdiOf virt) (ptiOf virt)) = true) :
    PageAdded s (s.setPage (pdiOf virt) (ptiOf virt) (mkEntry (4096 * f) (storedFlags flags)))
      (virt / 4096) ⟨f, storedFlags flags⟩ := by
  have hmap := pageMap_setPage h.wired (pdiOf_lt virt) hpresent (ptiOf_lt virt)
    (mkEntry (4096 * f) (storedFlags flags))
  rw [page_eq hvirt, mapping_frame hf] at hmap
  have habsent : s.pageMap (virt / 4096) = none := by
    rw [pageMap_of_present hvirt hpresent, Option.guard, if_neg hentry]
    rfl
  refine ⟨.setPage h (pdiOf_lt virt) hpresent (ptiOf_lt virt) _, habsent, fun q page hq => ?_, ?_,
    fun _ => hmap⟩
  · rw [hmap, Function.update_of_ne, hq]
    rintro rfl
    simp [habsent] at hq
  · rw [hmap, Function.update_self]

/-- Entering a table adds no page if its frame is blank, and keeps those that are there. -/
theorem noPage_withTable {virt : Nat} (flags : BitVec 32) (h : Good s)
    (htook : Pmm.Took s.pmm f pmm) (habsent : entryPresent (s.dirEntry (pdiOf virt)) = false)
    (hne : f ≠ 0) (hlt : f < 0x30000) :
    NoPage s (s.withTable pmm virt f flags) ∧
      (TablesBlank s (s.withTable pmm virt f flags) →
        (s.withTable pmm virt f flags).pageMap = s.pageMap) := by
  refine ⟨⟨.withTable h htook habsent hne hlt, fun q page hq => ?_⟩, fun hblank => ?_⟩
  · rw [pageMap_enterTable h htook (pageMap_lt hq), if_neg, hq]
    intro heq
    have hpresent := present_of_pageMap hq
    rw [heq, habsent] at hpresent
    simp at hpresent
  · have htable : TableFrame (s.withTable pmm virt f flags) f :=
      (tableFrame_withTable h htook habsent f).mpr (.inr rfl)
    funext q
    by_cases hq : q < 2 ^ 20
    · rw [pageMap_enterTable h htook hq]
      split
      · rename_i heq
        have hentry := hblank f htable (h.free_plain htook.lt htook.free).table (q % 1024)
          (by omega)
        rw [Option.guard, if_neg (by simp [hentry]), State.pageMap, if_pos hq, heq,
          translate_of_absent habsent]
      · rfl
    · rw [State.pageMap, if_neg hq, State.pageMap, if_neg hq]

/-- A new table that `pt_ptr_from_pdi` returns from lies in the window. -/
theorem lt_of_ptPtrFromPdi_withTable {virt : Nat} {flags : BitVec 32} {pt? : Option Nat}
    (h : Good s) (hne : f ≠ 0)
    (hret : ptPtrFromPdi (s.withTable pmm virt f flags) (pdiOf virt) = .ok pt?) : f < 0x30000 := by
  have hloc : (s.withTable pmm virt f flags).pageTablesLocPhys (pdiOf virt) = 4096 * f :=
    Function.update_self ..
  cases pt? with
  | some pt =>
      have hlt := ptPtrFromPdi_lt hret
      omega
  | none =>
      unfold ptPtrFromPdi at hret
      split at hret
      · rename_i hunknown
        have := pdiOf_lt virt
        exact absurd (by omega) hne
      · obtain ⟨pd, hpd, hret⟩ := bind_eq_ok.mp hret
        rw [physToVirt_eq_ok hpd] at hret
        have hentry : (s.withTable pmm virt f flags).pmm.mem.readWord
            ((s.withTable pmm virt f flags).pageDirectoryLocPhys + 4 * pdiOf virt) =
            newTableEntry f flags := by
          rw [show (s.withTable pmm virt f flags).pageDirectoryLocPhys = 4096 * s.dirFrame from
            h.dirSafe.dir_eq]
          exact withTable_dirEntry h.dirSafe
        rw [hentry, if_neg (by simp [entryPresent_newTableEntry])] at hret
        obtain ⟨pt, -, hret⟩ := bind_eq_ok.mp hret
        simp at hret

/-- A page added after a table was. -/
theorem NoPage.pageAdded {q : Nat} {page : Mapping} (h : NoPage s u)
    (hexact : TablesBlank s u → u.pageMap = s.pageMap) (habsent : s.pageMap q = none)
    (hadded : PageAdded u t q page) : PageAdded s t q page where
  moved := h.moved.trans hadded.moved
  absent := habsent
  keeps := h.keeps.trans hadded.keeps
  added := hadded.added
  exact hblank := by
    obtain ⟨hu, ht⟩ := hblank.split h.moved hadded.moved
    rw [hadded.exact ht, hexact hu]

/-- What `paging_map_page` does for the kernel, whatever it returns. -/
theorem pagingMapPage_result {virt : Nat} {flags : BitVec 32} {status : PagingStatus}
    (h : Good s) (hvirt : virt < 2 ^ 32) (halign : virt % 4096 = 0) (hf : f < 2 ^ 20)
    (hret : pagingMapPage s virt (4096 * f) flags = .ok (status, t)) :
    (status = .ok ∧ PageAdded s t (virt / 4096) ⟨f, storedFlags flags⟩) ∨
      (status ≠ .ok ∧ NoPage s t) := by
  have hsame : NoPage s s := ⟨.refl h, fun _ _ hq => hq⟩
  have haligned : ¬ (virt % 4096 ≠ 0 ∨ 4096 * f % 4096 ≠ 0) := by omega
  cases hflags : flagError virt flags with
  | some error =>
      have hfail : (.ok (error, s) : Except Trap (PagingStatus × State)) = .ok (status, t) := by
        rw [← hret, pagingMapPage, if_neg h.reach.dir_ne, if_neg haligned,
          flagChecks_eq fun error => Except.ok (error, s), hflags, Option.elim_some]
      simp only [Except.ok.injEq, Prod.mk.injEq] at hfail
      obtain ⟨rfl, rfl⟩ := hfail
      refine .inr ⟨?_, hsame⟩
      unfold flagError at hflags
      split at hflags
      · simp [← Option.some.inj hflags]
      · split at hflags
        · simp [← Option.some.inj hflags]
        · simp at hflags
  | none =>
      cases hpresent : entryPresent (s.dirEntry (pdiOf virt)) with
      | true =>
          rw [pagingMapPage_present h.wired h.reach hpresent flags haligned, hflags,
            Option.elim_none] at hret
          split at hret
          · simp only [Except.ok.injEq, Prod.mk.injEq] at hret
            obtain ⟨rfl, rfl⟩ := hret
            exact .inr ⟨by simp, hsame⟩
          · split at hret
            · simp only [Except.ok.injEq, Prod.mk.injEq] at hret
              obtain ⟨rfl, rfl⟩ := hret
              exact .inr ⟨by simp, hsame⟩
            · rename_i hentry
              simp only [Except.ok.injEq, Prod.mk.injEq] at hret
              obtain ⟨rfl, rfl⟩ := hret
              exact .inl ⟨rfl, pageAdded_setPage flags h hvirt hf hpresent hentry⟩
      | false =>
          have hneeds : NeedsTable s virt (4096 * f) flags :=
            ⟨h.reach.dir_ne, haligned, hflags, hpresent⟩
          have hnext := Pmm.getNext_spec h.sound
          generalize hget : Pmm.pmmGetNextAvailableBlock s.pmm = r at hnext
          by_cases hcount : s.pageTableCount < ptMax
          · cases hnext with
            | oom =>
                rw [pagingMapPage_noTable h.dirSafe hneeds (.inr hget)] at hret
                simp only [Except.ok.injEq, Prod.mk.injEq] at hret
                obtain ⟨rfl, rfl⟩ := hret
                exact .inr ⟨by simp, hsame⟩
            | @found g pmm htook =>
                rw [pagingMapPage_withTable h.dirSafe hneeds hcount hget] at hret
                have hne : g ≠ 0 := by
                  rintro rfl
                  have hfree := htook.free
                  simp [h.zero_busy htook.lt] at hfree
                have hlt : g < 0x30000 := by
                  obtain ⟨pt?, hpt, -⟩ := bind_eq_ok.mp hret
                  exact lt_of_ptPtrFromPdi_withTable h hne hpt
                have hnoPage := noPage_withTable flags h htook hpresent hne hlt
                have hentry : (s.withTable pmm virt g flags).dirEntry (pdiOf virt) =
                    newTableEntry g flags := withTable_dirEntry h.dirSafe
                have hframe := entryFrame_newTableEntry (took_lt h.dirSafe htook) flags
                rw [mapInTable_withTable h.dirSafe htook hne hlt] at hret
                split at hret
                · simp only [Except.ok.injEq, Prod.mk.injEq] at hret
                  obtain ⟨rfl, rfl⟩ := hret
                  exact .inr ⟨by simp, hnoPage.1⟩
                · rename_i hblank
                  simp only [Except.ok.injEq, Prod.mk.injEq] at hret
                  obtain ⟨rfl, rfl⟩ := hret
                  have hadded := pageAdded_setPage flags hnoPage.1.moved.good hvirt hf
                    (by rw [hentry]; exact entryPresent_newTableEntry g flags) (by
                      rw [State.pageEntry, hentry, hframe,
                        tableEntry_took h.dirSafe htook (ptiOf_lt virt)]
                      exact hblank)
                  rw [State.setPage, hentry, hframe] at hadded
                  exact .inl ⟨rfl, hnoPage.1.pageAdded hnoPage.2 (pageMap_absent hvirt hpresent)
                    hadded⟩
          · rw [pagingMapPage_noTable h.dirSafe hneeds (.inl hcount)] at hret
            simp only [Except.ok.injEq, Prod.mk.injEq] at hret
            obtain ⟨rfl, rfl⟩ := hret
            exact .inr ⟨by simp, hsame⟩

/-- What `paging_unmap_page` does to a page that is mapped. -/
theorem pagingUnmapPage_result {virt : Nat} {page : Mapping} (h : Good s) (hvirt : virt < 2 ^ 32)
    (halign : virt % 4096 = 0) (hpage : s.pageMap (virt / 4096) = some page) :
    ∃ t, pagingUnmapPage s virt = .ok (.ok, 4096 * page.frame, t) ∧ Moved [] s t ∧
      t.pageMap = Function.update s.pageMap (virt / 4096) none := by
  have hdiv : virt / 4096 / 1024 = pdiOf virt := by
    unfold pdiOf
    omega
  have hpresent := present_of_pageMap hpage
  rw [hdiv] at hpresent
  have hmap := pageMap_of_present hvirt hpresent
  rw [hpage, Option.guard] at hmap
  have hentry : entryPresent (s.pageEntry (pdiOf virt) (ptiOf virt)) = true := by
    by_contra hentry
    rw [if_neg hentry] at hmap
    simp at hmap
  have hframe : entryPhys (s.pageEntry (pdiOf virt) (ptiOf virt)) = 4096 * page.frame := by
    rw [if_pos hentry, Option.map_some] at hmap
    rw [entryPhys_eq, Option.some.inj hmap]
    rfl
  have hset := pageMap_setPage h.wired (pdiOf_lt virt) hpresent (ptiOf_lt virt) 0
  rw [page_eq hvirt] at hset
  refine ⟨s.setPage (pdiOf virt) (ptiOf virt) 0, ?_,
    .setPage h (pdiOf_lt virt) hpresent (ptiOf_lt virt) 0, hset⟩
  rw [pagingUnmapPage_present h.wired h.reach hpresent (by omega), if_neg (by simp [hentry]),
    hframe]

/-! ## Writes to other frames -/

/-- The page bitmap, the directory and the tables are not touched by writes elsewhere. -/
structure Written (s t : Paging.State) (g : Nat) : Prop where
  good : Good t
  count : t.pmm.frameCount = s.pmm.frameCount
  pageMap : t.pageMap = s.pageMap
  tableFrame : ∀ f, TableFrame t f ↔ TableFrame s f
  plain : ∀ f, Plain t f ↔ Plain s f
  bit : ∀ f, f < s.pmm.frameCount → t.pmm.bit f = s.pmm.bit f
  mem : ∀ f, f ≠ g → AgreeOn s.pmm.mem t.pmm.mem f

theorem Written.busy {g : Nat} (h : Written s t g) (hf : Busy s f) : Busy t f := by
  intro hlt
  rw [h.count] at hlt
  rw [h.bit f hlt]
  exact hf hlt

theorem Good.write (h : Good s) {g : Nat} {mem : Memory} (hplain : Plain s g)
    (hmem : ChangesOnly s.pmm.mem mem g) : Written s (s.withMem mem) g := by
  have hsame : SameEntries s (s.withMem mem) := ⟨rfl, rfl, hmem _ hplain.dir.symm⟩
  have htables : ∀ f, TableFrame s f → AgreeOn s.pmm.mem mem f := by
    rintro f hf
    refine hmem f ?_
    rintro rfl
    exact hplain.table hf
  have hbitmap : ∀ f, s.pmm.HoldsBitmap f → AgreeOn s.pmm.mem mem f := by
    rintro f hf
    refine hmem f ?_
    rintro rfl
    exact hplain.bitmap hf
  have hbit : ∀ f, f < s.pmm.frameCount → (s.withMem mem).pmm.bit f = s.pmm.bit f :=
    fun f hf => h.sound.bit_withMem _ hbitmap hf
  refine ⟨h.congr hsame (h.sound.withMem hbitmap) (fun _ => Iff.rfl) fun f _ hbusy hlt =>
    (hbit f hlt).trans (hbusy hlt), rfl, hsame.pageMap htables, hsame.tableFrame, fun f => ?_, hbit,
    hmem⟩
  exact ⟨fun hf => ⟨hf.bitmap, hf.dir, mt (hsame.tableFrame f).mpr hf.table⟩,
    fun hf => ⟨hf.bitmap, hf.dir, mt (hsame.tableFrame f).mp hf.table⟩⟩

end Unidos.Dpage
