import Unidos.Mm.Basic
import Unidos.Lib.Ledger

/-!
# Who owns which frame

An address space owns its directory, the page tables its user entries name, and the pages those
name (`State.Own`). `FrameInv B loose s` says that the books balance: every allocated frame belongs
to the kernel (`State.Stock`), is in flight in the running call (`loose`), or has exactly one
owner. The lemmas are the moves the code makes, one for each way in which it changes memory or the
memory manager.
-/

namespace Unidos.Mm

open Lib

/-- The frame of the page directory of `m`. -/
def State.dirFrame (s : State) (m : Nat) : Nat := (s.mms m).cr3Phys / 4096

/-- Address space `k.1` owns frame `f` in the role `k.2`. -/
def State.Own (s : State) (k : Nat × Role) (f : Nat) : Prop :=
  s.mmUsed k.1 = true ∧ Owns maxPde s.mem (s.dirFrame k.1) k.2 f

/-- The memory manager has handed out frame `f`. -/
def State.Taken (s : State) (f : Nat) : Prop :=
  f < s.paging.pmm.frameCount ∧ s.paging.pmm.bit f = true

/-- Frames that belong to the kernel: those it had before (`B`), those in its pools, and those of
its page tables. -/
def State.Stock (B : Nat → Prop) (s : State) (f : Nat) : Prop :=
  B f ∨ f ∈ s.poolFrames ∨ s.paging.KernelFrame f

/-- Frames on whose contents the books rest: the bitmap, the kernel's directory, and the
directories and page tables of address spaces. -/
def State.Fixed (s : State) (f : Nat) : Prop :=
  s.paging.pmm.HoldsBitmap f ∨ s.paging.pageDirectoryLocPhys = 4096 * f ∨
    ∃ m r, s.Own (m, r) f ∧ ∀ i j, r ≠ .page i j

/-- A record in use agrees with its slot and with the tables. -/
structure State.Record (s : State) (m : Nat) : Prop where
  lt : m < mmSlots
  slotId : (s.mms m).slotId = m
  userBase : (s.mms m).userBase = 0
  userLimit : (s.mms m).userLimit = kernelVirtualBase
  cr3 : (s.mms m).cr3Phys = 4096 * s.dirFrame m
  pages : (s.mms m).pageCount = pageCount maxPde s.mem (s.dirFrame m)

/-- The books balance, with the frames of `loose` in flight. -/
structure FrameInv (B : Nat → Prop) (loose : List Nat) (s : State) : Prop where
  sound : s.paging.pmm.Sound
  tables : s.paging.Tables
  ledger : Ledger s.Own s.Taken (s.Stock B) (· ∈ loose)
  records : ∀ m, s.mmUsed m = true → s.Record m
  bitmap_stock : ∀ f, f < s.paging.pmm.frameCount → s.paging.pmm.HoldsBitmap f → B f
  zero_stock : B 0
  kernel_bitmap : ∀ f, s.paging.KernelFrame f → ¬ s.paging.pmm.HoldsBitmap f
  own_reserved : ∀ k f, s.Own k f → ¬ s.paging.pmm.FrameReserved f
  loose_reserved : ∀ f, f ∈ loose → ¬ s.paging.pmm.FrameReserved f

theorem mem_tail_iff {f : Nat} {l : List Nat} (hf : f ∉ l) (g : Nat) :
    g ∈ l ↔ g ∈ f :: l ∧ g ≠ f := by
  constructor
  · intro hg
    exact ⟨by simp [hg], fun hgf => hf (hgf ▸ hg)⟩
  · rintro ⟨hg, hne⟩
    simpa [hne] using hg

theorem maxPde_le : maxPde ≤ 1024 := by decide

variable {B : Nat → Prop} {l : List Nat} {s t : State}

namespace FrameInv

/-! ## Frames apart from each other -/

theorem own_not_bitmap (h : FrameInv B l s) {k : Nat × Role} {f : Nat} (hk : s.Own k f) :
    ¬ s.paging.pmm.HoldsBitmap f := by
  obtain ⟨htaken, hstock, -⟩ := h.ledger.owned k f hk
  exact fun hb => hstock (.inl (h.bitmap_stock f htaken.1 hb))

theorem loose_not_bitmap (h : FrameInv B l s) {f : Nat} (hf : f ∈ l) :
    ¬ s.paging.pmm.HoldsBitmap f := by
  obtain ⟨htaken, hstock⟩ := h.ledger.loose_taken f hf
  exact fun hb => hstock (.inl (h.bitmap_stock f htaken.1 hb))

theorem loose_not_fixed (h : FrameInv B l s) {f : Nat} (hf : f ∈ l) : ¬ s.Fixed f := by
  rintro (hb | hdir | ⟨m, r, hown, -⟩)
  · exact h.loose_not_bitmap hf hb
  · exact (h.ledger.loose_taken f hf).2 (.inr (.inr (.inl hdir)))
  · exact (h.ledger.owned _ f hown).2.2 hf

theorem page_not_fixed (h : FrameInv B l s) {m i j f : Nat} (hf : s.Own (m, .page i j) f) :
    ¬ s.Fixed f := by
  rintro (hb | hdir | ⟨m', r, hown, hr⟩)
  · exact h.own_not_bitmap hf hb
  · exact (h.ledger.owned _ f hf).2.1 (.inr (.inr (.inl hdir)))
  · have hkey := h.ledger.unique _ _ f hown hf
    exact hr i j (Prod.mk.inj hkey).2

/-- A page table of the kernel is not its directory, and nobody owns it. -/
theorem kernelTable_not_fixed (h : FrameInv B l s) {i f : Nat} (hi : i < 1024)
    (hne : s.paging.pageTablesLocPhys i ≠ 0) (hf : s.paging.pageTablesLocPhys i = 4096 * f) :
    ¬ s.Fixed f := by
  have hkernel : s.paging.KernelFrame f := .inr ⟨i, hi, hne, hf⟩
  rintro (hb | hdir | ⟨m, r, hown, -⟩)
  · exact h.kernel_bitmap f hkernel hb
  · exact h.tables.table_ne_dir i hi hne (hf.trans hdir.symm)
  · exact (h.ledger.owned _ f hown).2.1 (.inr (.inr hkernel))

theorem isTable_fixed {m f : Nat} (hm : s.mmUsed m = true)
    (hf : IsTable maxPde s.mem (s.dirFrame m) f) : s.Fixed f := by
  rcases hf with hdir | ⟨i, htable⟩
  · exact .inr (.inr ⟨m, .dir, ⟨hm, hdir⟩, fun _ _ => by simp⟩)
  · exact .inr (.inr ⟨m, .table i, ⟨hm, htable⟩, fun _ _ => by simp⟩)

/-! ## Moves -/

end FrameInv

/-- Memory that agrees on the tables gives the same owners. -/
theorem own_congr (hused : t.mmUsed = s.mmUsed) (hmms : t.mms = s.mms)
    (hmem : ∀ m f, s.mmUsed m = true → IsTable maxPde s.mem (s.dirFrame m) f →
      AgreeOn s.mem t.mem f) (k : Nat × Role) (f : Nat) : t.Own k f ↔ s.Own k f := by
  unfold State.Own State.dirFrame
  rw [hused, hmms]
  refine and_congr_right fun hm => owns_congr maxPde_le (fun g hg => hmem k.1 g hm hg) k.2 f

/-- With the same owners, a record still agrees with the tables. -/
theorem State.Record.congr {m : Nat} (h : s.Record m) (hm : s.mmUsed m = true)
    (hused : t.mmUsed = s.mmUsed) (hmms : t.mms = s.mms)
    (hown : ∀ k f, t.Own k f ↔ s.Own k f) : t.Record m := by
  have hdir : t.dirFrame m = s.dirFrame m := by rw [State.dirFrame, hmms, State.dirFrame]
  have hpages : pageCount maxPde t.mem (t.dirFrame m) = pageCount maxPde s.mem (s.dirFrame m) := by
    rw [hdir]
    refine pageCount_congr fun i j f => ?_
    have hiff := hown (m, .page i j) f
    simp only [State.Own, hused, hm, true_and, hdir] at hiff
    exact hiff
  refine ⟨h.lt, ?_, ?_, ?_, ?_, ?_⟩
  · rw [hmms]
    exact h.slotId
  · rw [hmms]
    exact h.userBase
  · rw [hmms]
    exact h.userLimit
  · rw [hdir, hmms]
    exact h.cr3
  · rw [hpages, hmms]
    exact h.pages

namespace FrameInv

/-- A write into a frame that the books do not rest on. -/
theorem write (h : FrameInv B l s) {mem : Memory} {g : Nat} (hg : ¬ s.Fixed g)
    (hmem : ChangesOnly s.mem mem g) :
    FrameInv B l (s.withMem mem) ∧ ∀ k f, (s.withMem mem).Own k f ↔ s.Own k f := by
  have hagree : ∀ f, s.Fixed f → AgreeOn s.mem mem f := fun f hf =>
    hmem f fun hfg => hg (hfg ▸ hf)
  have hown : ∀ k f, (s.withMem mem).Own k f ↔ s.Own k f :=
    own_congr rfl rfl fun m f hm hf => hagree f (isTable_fixed hm hf)
  have hbitmap : ∀ f, s.paging.pmm.HoldsBitmap f → AgreeOn s.paging.pmm.mem mem f :=
    fun f hf => hagree f (.inl hf)
  have htaken : ∀ f, (s.withMem mem).Taken f ↔ s.Taken f := fun f =>
    and_congr_right fun hf => by
      have hbit := h.sound.bit_withMem _ hbitmap hf
      exact ⟨fun hb => hbit.symm.trans hb, fun hb => hbit.trans hb⟩
  exact ⟨⟨h.sound.withMem hbitmap, h.tables.withPmm fun d hd => hagree d (.inr (.inl hd)),
    h.ledger.congr hown htaken, fun m hm => (h.records m hm).congr hm rfl rfl hown,
    h.bitmap_stock, h.zero_stock, h.kernel_bitmap,
    fun k f hk => h.own_reserved k f ((hown k f).mp hk), h.loose_reserved⟩, hown⟩

/-- A move of the memory manager that changes nothing but bits. -/
theorem bitsOnly (h : FrameInv B l s) {pmm : Pmm.State} (hbits : Pmm.BitsOnly s.paging.pmm pmm) :
    ∀ k f, (s.withPmm pmm).Own k f ↔ s.Own k f := by
  refine own_congr rfl rfl fun m f hm hf => ?_
  refine hbits.agreeOn h.sound.toInv fun hb => ?_
  rcases hf with hdir | ⟨i, htable⟩
  · exact h.own_not_bitmap (k := (m, .dir)) ⟨hm, hdir⟩ hb
  · exact h.own_not_bitmap (k := (m, .table i)) ⟨hm, htable⟩ hb

theorem withPmm (h : FrameInv B l s) {pmm : Pmm.State} {l' : List Nat}
    (hbits : Pmm.BitsOnly s.paging.pmm pmm) (hsound : pmm.Sound)
    (hledger : Ledger s.Own (s.withPmm pmm).Taken (s.Stock B) (· ∈ l'))
    (hres : ∀ f, f ∈ l' → ¬ s.paging.pmm.FrameReserved f) : FrameInv B l' (s.withPmm pmm) := by
  have hown := h.bitsOnly hbits
  refine ⟨hsound, h.tables.withPmm fun d hd => ?_, hledger.congr hown fun _ => Iff.rfl,
    fun m hm => (h.records m hm).congr hm rfl rfl hown, fun f hf hb => ?_, h.zero_stock,
    fun f hf hb => ?_, fun k f hk hr => ?_, fun f hf hr => ?_⟩
  · exact hbits.agreeOn h.sound.toInv (h.kernel_bitmap d (.inl hd))
  · exact h.bitmap_stock f (hbits.count ▸ hf) ((hbits.holdsBitmap f).mp hb)
  · exact h.kernel_bitmap f hf ((hbits.holdsBitmap f).mp hb)
  · exact h.own_reserved k f ((hown k f).mp hk) ((hbits.frameReserved f).mp hr)
  · exact hres f hf ((hbits.frameReserved f).mp hr)

/-- An allocation: the frame is in flight. -/
theorem take (h : FrameInv B l s) {f : Nat} {pmm : Pmm.State}
    (htook : Pmm.Took s.paging.pmm f pmm) :
    FrameInv B (f :: l) (s.withPmm pmm) ∧ ¬ s.Taken f := by
  have hno : ¬ s.Taken f := fun ht => absurd (htook.free.symm.trans ht.2) (by simp)
  have htaken : ∀ g, (s.withPmm pmm).Taken g ↔ s.Taken g ∨ g = f := by
    intro g
    change g < pmm.frameCount ∧ pmm.bit g = true ↔ _
    rw [htook.bits.count, htook.set]
    simp only [State.Taken, Bool.or_eq_true, decide_eq_true_eq]
    constructor
    · rintro ⟨hlt, rfl | hbit⟩
      · exact .inr rfl
      · exact .inl ⟨hlt, hbit⟩
    · rintro (⟨hlt, hbit⟩ | rfl)
      · exact ⟨hlt, .inr hbit⟩
      · exact ⟨htook.lt, .inl rfl⟩
  refine ⟨h.withPmm htook.bits htook.sound (h.ledger.take hno htaken fun g => ?_)
    fun g hgl => ?_, hno⟩
  · rw [List.mem_cons, or_comm]
  · rcases List.mem_cons.mp hgl with rfl | hgl
    · exact htook.unreserved
    · exact h.loose_reserved g hgl

/-- Giving back a frame in flight. -/
theorem drop {f : Nat} (h : FrameInv B (f :: l) s) (hf : f ∉ l) :
    FrameInv B l (s.withPmm (Pmm.pmmDeallocSpecificBlock s.paging.pmm (4096 * f)).2) := by
  have hmem : f ∈ f :: l := by simp
  obtain ⟨⟨hlt, hset⟩, -⟩ := h.ledger.loose_taken f hmem
  obtain ⟨pmm, heq, hbits, hsound, hbit⟩ := Pmm.dealloc_spec h.sound hlt hset
    (h.loose_reserved f hmem) (h.loose_not_bitmap hmem)
  rw [heq]
  refine h.withPmm hbits hsound (h.ledger.drop hmem (fun g => ?_) (mem_tail_iff hf))
    fun g hg => h.loose_reserved g (by simp [hg])
  change g < pmm.frameCount ∧ pmm.bit g = true ↔ _
  rw [hbits.count, hbit]
  simp only [State.Taken, Bool.and_eq_true, Bool.not_eq_true', decide_eq_false_iff_not]
  tauto

/-- A frame in flight goes to a pool. -/
theorem keepPool {f : Nat} (h : FrameInv B (f :: l) s) (hf : f ∉ l) :
    FrameInv B l { s with poolFrames := f :: s.poolFrames } := by
  have hmem : f ∈ f :: l := by simp
  refine ⟨h.sound, h.tables, ?_, fun m hm => (h.records m hm).congr hm rfl rfl fun _ _ => Iff.rfl,
    h.bitmap_stock, h.zero_stock, h.kernel_bitmap, h.own_reserved,
    fun g hg => h.loose_reserved g (by simp [hg])⟩
  refine h.ledger.keep hmem (fun g => ?_) (mem_tail_iff hf)
  simp only [State.Stock, List.mem_cons]
  tauto

/-- A frame in flight becomes a page table of the kernel. -/
theorem keepTable {f pdi : Nat} {entry : BitVec 32} (h : FrameInv B (f :: l) s) (hf : f ∉ l)
    (hpdi : pdi < 1024) (hentry : entryPresent entry = true)
    (habsent : entryPresent (s.mem.readWord (s.paging.pageDirectoryLocPhys + 4 * pdi)) = false) :
    FrameInv B l (s.withPaging
      (s.paging.enterTable s.paging.pageDirectoryLocPhys pdi (4096 * f) entry)) := by
  have hmem : f ∈ f :: l := by simp
  obtain ⟨htaken, hstock⟩ := h.ledger.loose_taken f hmem
  have hf0 : f ≠ 0 := fun h0 => hstock (.inl (h0 ▸ h.zero_stock))
  have hslot : s.paging.pageTablesLocPhys pdi = 0 := by
    by_contra hne
    exact absurd ((h.tables.table_present pdi hpdi hne).symm.trans habsent) (by simp)
  obtain ⟨d, hd⟩ : ∃ d, s.paging.pageDirectoryLocPhys = 4096 * d :=
    ⟨s.paging.pageDirectoryLocPhys / 4096, by have := h.tables.dir_aligned; omega⟩
  have hkernel : s.paging.KernelFrame d := .inl hd
  have hchange : ChangesOnly s.mem (s.mem.writeWord (s.paging.pageDirectoryLocPhys + 4 * pdi)
      entry) d := by
    rw [hd]
    exact changesOnly_setEntry s.mem d entry hpdi
  have hown := own_congr (s := s) (t := s.withPaging
      (s.paging.enterTable s.paging.pageDirectoryLocPhys pdi (4096 * f) entry)) rfl rfl
    fun m g hm hg => hchange g fun hgd => by
      rcases hg with hdir | ⟨i, htable⟩
      · exact (h.ledger.owned (m, .dir) g ⟨hm, hdir⟩).2.1 (.inr (.inr (hgd ▸ hkernel)))
      · exact (h.ledger.owned (m, .table i) g ⟨hm, htable⟩).2.1 (.inr (.inr (hgd ▸ hkernel)))
  have hbitmap : ∀ g, s.paging.pmm.HoldsBitmap g → AgreeOn s.paging.pmm.mem
      (s.mem.writeWord (s.paging.pageDirectoryLocPhys + 4 * pdi) entry) g :=
    fun g hg => hchange g fun hgd => h.kernel_bitmap d hkernel (hgd ▸ hg)
  have hframe : ∀ g, (s.paging.enterTable s.paging.pageDirectoryLocPhys pdi (4096 * f)
      entry).KernelFrame g ↔ s.paging.KernelFrame g ∨ g = f := by
    intro g
    simp only [Paging.State.KernelFrame, Paging.State.enterTable]
    constructor
    · rintro (hdir | ⟨i, hi, hne, heq⟩)
      · exact .inl (.inl hdir)
      · by_cases hip : i = pdi
        · subst hip
          rw [Function.update_self] at heq
          exact .inr (by omega)
        · rw [Function.update_of_ne hip] at hne heq
          exact .inl (.inr ⟨i, hi, hne, heq⟩)
    · rintro ((hdir | ⟨i, hi, hne, heq⟩) | rfl)
      · exact .inl hdir
      · have hip : i ≠ pdi := fun hip => hne (hip ▸ hslot)
        exact .inr ⟨i, hi, by rwa [Function.update_of_ne hip], by
          rwa [Function.update_of_ne hip]⟩
      · refine .inr ⟨pdi, hpdi, ?_, ?_⟩
        · rw [Function.update_self]
          omega
        · rw [Function.update_self]
  refine ⟨h.sound.withMem hbitmap, ⟨h.tables.dir_aligned, fun i hi => ?_, fun i hi hne => ?_,
    fun i hi hne => ?_⟩, ?_, fun m hm => (h.records m hm).congr hm rfl rfl hown,
    h.bitmap_stock, h.zero_stock, fun g hg => ?_,
    fun k g hk => h.own_reserved k g ((hown k g).mp hk),
    fun g hg => h.loose_reserved g (by simp [hg])⟩
  · change Function.update s.paging.pageTablesLocPhys pdi (4096 * f) i % 4096 = 0
    by_cases hip : i = pdi
    · subst hip
      rw [Function.update_self]
      omega
    · rw [Function.update_of_ne hip]
      exact h.tables.table_aligned i hi
  · change Function.update s.paging.pageTablesLocPhys pdi (4096 * f) i ≠ _
    by_cases hip : i = pdi
    · subst hip
      rw [Function.update_self]
      exact fun heq => hstock (.inr (.inr (.inl heq.symm)))
    · change Function.update s.paging.pageTablesLocPhys pdi (4096 * f) i ≠ 0 at hne
      rw [Function.update_of_ne hip] at hne ⊢
      exact h.tables.table_ne_dir i hi hne
  · change entryPresent ((s.mem.writeWord (s.paging.pageDirectoryLocPhys + 4 * pdi) entry).readWord
      (s.paging.pageDirectoryLocPhys + 4 * i)) = true
    by_cases hip : i = pdi
    · subst hip
      rwa [Memory.readWord_writeWord_same]
    · change Function.update s.paging.pageTablesLocPhys pdi (4096 * f) i ≠ 0 at hne
      rw [Function.update_of_ne hip] at hne
      rw [Memory.readWord_writeWord_ne _ _ _ _ (by omega)]
      exact h.tables.table_present i hi hne
  · have hkeep : Ledger s.Own s.Taken (State.Stock B (s.withPaging
        (s.paging.enterTable s.paging.pageDirectoryLocPhys pdi (4096 * f) entry))) (· ∈ l) := by
      refine h.ledger.keep hmem (fun g => ?_) (mem_tail_iff hf)
      simp only [State.Stock, State.withPaging, hframe]
      tauto
    refine hkeep.congr hown fun g => and_congr_right fun hg => ?_
    have hbit := h.sound.bit_withMem _ hbitmap hg
    exact ⟨fun hb => hbit.symm.trans hb, fun hb => hbit.trans hb⟩
  · rcases (hframe g).mp hg with hg | rfl
    · exact h.kernel_bitmap g hg
    · exact h.loose_not_bitmap hmem

/-- A frame in flight goes to an owner: the common part of the next three moves. -/
theorem give {f : Nat} {k : Nat × Role} (h : FrameInv B (f :: l) s) (mem : Memory) (hf : f ∉ l)
    (hpaging : t.paging = s.paging.withMem mem) (hpool : t.poolFrames = s.poolFrames)
    (hbitmap : ∀ g, s.paging.pmm.HoldsBitmap g → AgreeOn s.mem mem g)
    (hdir : ∀ g, s.paging.pageDirectoryLocPhys = 4096 * g → AgreeOn s.mem mem g)
    (hown : ∀ k' g, t.Own k' g ↔ s.Own k' g ∨ (k' = k ∧ g = f))
    (hrecords : ∀ m, t.mmUsed m = true → t.Record m) : FrameInv B l t := by
  have hmem : f ∈ f :: l := by simp
  have hpmm : t.paging.pmm = { s.paging.pmm with mem := mem } := by rw [hpaging]; rfl
  have hkernel : ∀ g, t.paging.KernelFrame g ↔ s.paging.KernelFrame g := by
    intro g
    rw [hpaging]
    exact Iff.rfl
  have htaken : ∀ g, t.Taken g ↔ s.Taken g := by
    intro g
    unfold State.Taken
    rw [hpmm]
    refine and_congr_right fun hg => ?_
    have hbit := h.sound.bit_withMem _ hbitmap hg
    exact ⟨fun hb => hbit.symm.trans hb, fun hb => hbit.trans hb⟩
  have hgiven := h.ledger.give (k := k) hmem hown (mem_tail_iff hf)
  have hledger := hgiven.congr (fun _ _ => Iff.rfl) htaken
  have hstock : t.Stock B = s.Stock B := by
    funext g
    simp only [State.Stock, hpool, hkernel]
  refine ⟨?_, ?_, hstock ▸ hledger, hrecords, ?_, h.zero_stock, ?_, fun k' g hk => ?_, ?_⟩
  · rw [hpmm]
    exact h.sound.withMem hbitmap
  · rw [hpaging]
    exact h.tables.withPmm hdir
  · rw [hpmm]
    exact h.bitmap_stock
  · intro g hg
    rw [hpmm]
    exact h.kernel_bitmap g ((hkernel g).mp hg)
  · rw [hpmm]
    rcases (hown k' g).mp hk with hk | ⟨rfl, rfl⟩
    · exact h.own_reserved k' g hk
    · exact h.loose_reserved g hmem
  · intro g hg
    rw [hpmm]
    exact h.loose_reserved g (by simp [hg])

/-- An entry of a directory or table of `m` is no business of another address space. -/
theorem own_setEntry_other (h : FrameInv B l s) {m m' d i : Nat} {r : Role} {w : BitVec 32}
    (hd : s.Own (m, r) d) (hi : i < 1024) (hne : m' ≠ m) (hm' : s.mmUsed m' = true) (r' : Role)
    (g : Nat) : Owns maxPde (setEntry s.mem d i w) (s.dirFrame m') r' g ↔
      Owns maxPde s.mem (s.dirFrame m') r' g := by
  refine owns_congr maxPde_le (fun f hf => agreeOn_setEntry s.mem w hi fun hfd => ?_) r' g
  subst hfd
  rcases hf with hdir | ⟨i', htable⟩
  · exact hne (Prod.mk.inj (h.ledger.unique (m', .dir) (m, r) f ⟨hm', hdir⟩ hd)).1
  · exact hne (Prod.mk.inj (h.ledger.unique (m', .table i') (m, r) f ⟨hm', htable⟩ hd)).1

/-- What owning says about one address space after an entry of `m` was written. -/
theorem own_setEntry (h : FrameInv B l s) {m d i f : Nat} {r r' : Role} {w : BitVec 32}
    (hm : s.mmUsed m = true) (hd : s.Own (m, r) d) (hi : i < 1024)
    (howns : ∀ r'' g, Owns maxPde (setEntry s.mem d i w) (s.dirFrame m) r'' g ↔
      Owns maxPde s.mem (s.dirFrame m) r'' g ∨ (r'' = r' ∧ g = f)) (k : Nat × Role) (g : Nat) :
    (s.withMem (setEntry s.mem d i w)).Own k g ↔ s.Own k g ∨ (k = (m, r') ∧ g = f) := by
  obtain ⟨m', r''⟩ := k
  change s.mmUsed m' = true ∧ Owns maxPde (setEntry s.mem d i w) (s.dirFrame m') r'' g ↔
    (s.mmUsed m' = true ∧ Owns maxPde s.mem (s.dirFrame m') r'' g) ∨ _
  by_cases hmm : m' = m
  · subst hmm
    rw [howns]
    simp [hm]
  · by_cases hm' : s.mmUsed m' = true
    · rw [h.own_setEntry_other hd hi hmm hm']
      simp [hmm]
    · simp [hm', hmm]

/-- An owned frame is neither part of the bitmap nor the kernel's directory. -/
theorem own_apart (h : FrameInv B l s) {k : Nat × Role} {d : Nat} (hd : s.Own k d) {g : Nat}
    (hg : s.paging.pmm.HoldsBitmap g ∨ s.paging.pageDirectoryLocPhys = 4096 * g) : g ≠ d := by
  rintro rfl
  rcases hg with hb | hdir
  · exact h.own_not_bitmap hd hb
  · exact (h.ledger.owned k g hd).2.1 (.inr (.inr (.inl hdir)))

/-- Writing an entry of an owned frame takes and frees nothing. -/
theorem taken_setEntry (h : FrameInv B l s) {k : Nat × Role} {d i : Nat} (hd : s.Own k d)
    (hi : i < 1024) (w : BitVec 32) (g : Nat) :
    (s.withMem (setEntry s.mem d i w)).Taken g ↔ s.Taken g := by
  refine and_congr_right fun hg => ?_
  have hbit := h.sound.bit_withMem (setEntry s.mem d i w)
    (fun f hf => agreeOn_setEntry s.mem w hi (h.own_apart hd (.inl hf))) hg
  exact ⟨fun hb => hbit.symm.trans hb, fun hb => hbit.trans hb⟩

/-- A frame in flight, all entries absent, becomes a page table of `m`. -/
theorem giveTable {f m i : Nat} {w : BitVec 32} (h : FrameInv B (f :: l) s) (hf : f ∉ l)
    (hm : s.mmUsed m = true) (hi : i < maxPde)
    (habsent : entryPresent (tableEntry s.mem (s.dirFrame m) i) = false)
    (hempty : ∀ j, j < 1024 → entryPresent (tableEntry s.mem f j) = false)
    (hw : entryPresent w = true) (hwf : entryFrame w = f) :
    FrameInv B l (s.withMem (setEntry s.mem (s.dirFrame m) i w)) ∧
      ∀ k g, (s.withMem (setEntry s.mem (s.dirFrame m) i w)).Own k g ↔
        s.Own k g ∨ (k = (m, .table i) ∧ g = f) := by
  have hi' : i < 1024 := lt_of_lt_of_le hi maxPde_le
  have hdir : s.Own (m, .dir) (s.dirFrame m) := ⟨hm, rfl⟩
  have hne : entryFrame w ≠ s.dirFrame m := fun heq =>
    (h.ledger.owned _ _ hdir).2.2 (by rw [← heq, hwf]; simp)
  have hself : ∀ k, ¬ Owns maxPde s.mem (s.dirFrame m) (.table k) (s.dirFrame m) := fun k hk => by
    have hkey := h.ledger.unique (m, .table k) (m, .dir) _ ⟨hm, hk⟩ hdir
    simp at hkey
  have howns := owns_setTable maxPde_le hi habsent hw (hwf ▸ hempty) hne hself
  rw [hwf] at howns
  have hown := h.own_setEntry hm hdir hi' howns
  refine ⟨h.give _ hf rfl rfl (fun g hg => ?_) (fun g hg => ?_) hown fun m' hm' => ?_, hown⟩
  · exact agreeOn_setEntry s.mem w hi' (h.own_apart hdir (.inl hg))
  · exact agreeOn_setEntry s.mem w hi' (h.own_apart hdir (.inr hg))
  · obtain ⟨hlt, hslot, hbase, hlimit, hcr3, hpages⟩ := h.records m' hm'
    refine ⟨hlt, hslot, hbase, hlimit, hcr3, hpages.trans (pageCount_congr fun a b g => ?_).symm⟩
    have hiff := hown (m', .page a b) g
    simp only [Prod.mk.injEq, reduceCtorEq, and_false, false_and, or_false] at hiff
    exact ⟨fun ho => (hiff.mp ⟨hm', ho⟩).2, fun ho => (hiff.mpr ⟨hm', ho⟩).2⟩

/-- A frame in flight becomes a page of `m`, and `m` counts it. -/
theorem givePage {f m i j d : Nat} {w : BitVec 32} (h : FrameInv B (f :: l) s) (hf : f ∉ l)
    (hd : s.Own (m, .table i) d) (hj : j < 1024)
    (habsent : entryPresent (tableEntry s.mem d j) = false)
    (hw : entryPresent w = true) (hwf : entryFrame w = f) :
    FrameInv B l ((s.withMem (setEntry s.mem d j w)).countPage m) ∧
      ∀ k g, ((s.withMem (setEntry s.mem d j w)).countPage m).Own k g ↔
        s.Own k g ∨ (k = (m, .page i j) ∧ g = f) := by
  obtain ⟨hm, htable⟩ := hd
  have hd : s.Own (m, .table i) d := ⟨hm, htable⟩
  have hne : d ≠ s.dirFrame m := fun heq => by
    have hkey := h.ledger.unique (m, .table i) (m, .dir) d hd ⟨hm, heq⟩
    simp at hkey
  have huniq : ∀ k, Owns maxPde s.mem (s.dirFrame m) (.table k) d → k = i := fun k hk => by
    have hkey := h.ledger.unique (m, .table k) (m, .table i) d ⟨hm, hk⟩ hd
    simpa using hkey
  have howns := owns_setPage maxPde_le htable hj habsent hw hne huniq
  rw [hwf] at howns
  have hown' := h.own_setEntry hm hd hj howns
  -- the counter of `m` is no part of what it owns
  have hdirFrame : ∀ m', ((s.withMem (setEntry s.mem d j w)).countPage m).dirFrame m' =
      s.dirFrame m' := by
    intro m'
    unfold State.dirFrame State.countPage State.setMm
    by_cases hmm : m' = m
    · subst hmm
      simp [State.withMem, State.withPaging]
    · simp [Function.update_of_ne hmm, State.withMem, State.withPaging]
  have hown : ∀ k g, ((s.withMem (setEntry s.mem d j w)).countPage m).Own k g ↔
      s.Own k g ∨ (k = (m, .page i j) ∧ g = f) := by
    intro k g
    rw [← hown' k g]
    unfold State.Own
    rw [hdirFrame]
    exact Iff.rfl
  have hnone : ∀ g, ¬ Owns maxPde s.mem (s.dirFrame m) (.page i j) g := by
    rintro g ⟨-, -, hp, -⟩
    rw [← htable.2.2, habsent] at hp
    exact absurd hp (by simp)
  refine ⟨h.give _ hf rfl rfl (fun g hg => ?_) (fun g hg => ?_) hown fun m' hm' => ?_, hown⟩
  · exact agreeOn_setEntry s.mem w hj (h.own_apart hd (.inl hg))
  · exact agreeOn_setEntry s.mem w hj (h.own_apart hd (.inr hg))
  · obtain ⟨hlt, hslot, hbase, hlimit, hcr3, hpages⟩ := h.records m' hm'
    by_cases hmm : m' = m
    · subst hmm
      have hcount : pageCount maxPde (setEntry s.mem d j w) (s.dirFrame m') =
          pageCount maxPde s.mem (s.dirFrame m') + 1 :=
        pageCount_add htable.1 hj hnone fun a b g => howns (.page a b) g
      have hle := pageCount_le maxPde (setEntry s.mem d j w) (s.dirFrame m')
      have hmax : maxPde * 1024 < 2 ^ 32 := by decide
      refine ⟨hlt, ?_, ?_, ?_, ?_, ?_⟩
      · simpa [State.countPage, State.setMm] using hslot
      · simpa [State.countPage, State.setMm] using hbase
      · simpa [State.countPage, State.setMm] using hlimit
      · rw [hdirFrame]
        simpa [State.countPage, State.setMm] using hcr3
      · rw [hdirFrame]
        change _ = pageCount maxPde (setEntry s.mem d j w) (s.dirFrame m')
        simp only [State.countPage, State.setMm, Function.update_self]
        change ((s.mms m').pageCount + 1) % 2 ^ 32 = _
        rw [hpages]
        omega
    · have hmms : ((s.withMem (setEntry s.mem d j w)).countPage m).mms m' = s.mms m' :=
        Function.update_of_ne hmm _ _
      have hcount : pageCount maxPde (setEntry s.mem d j w) (s.dirFrame m') =
          pageCount maxPde s.mem (s.dirFrame m') :=
        pageCount_congr fun a b g => h.own_setEntry_other hd hj hmm hm' (.page a b) g
      refine ⟨hlt, ?_, ?_, ?_, ?_, ?_⟩
      · rw [hmms, hslot]
      · rw [hmms, hbase]
      · rw [hmms, hlimit]
      · rw [hmms, hdirFrame, hcr3]
      · rw [hmms, hdirFrame, hpages]
        exact hcount.symm

/-- A frame in flight, all user entries absent, becomes the directory of a new address space. -/
theorem giveDir {f m : Nat} (h : FrameInv B (f :: l) s) (rec : MmStruct) (hf : f ∉ l)
    (hm : s.mmUsed m = false) (hlt : m < mmSlots)
    (hempty : ∀ i, i < maxPde → entryPresent (tableEntry s.mem f i) = false)
    (hcr3 : rec.cr3Phys = 4096 * f) (hbase : rec.userBase = 0)
    (hlimit : rec.userLimit = kernelVirtualBase) (hcount : rec.pageCount = 0)
    (hslot : rec.slotId = m) :
    FrameInv B l { s.setMm m rec with mmUsed := Function.update s.mmUsed m true } ∧
      ∀ k g, State.Own { s.setMm m rec with mmUsed := Function.update s.mmUsed m true } k g ↔
        s.Own k g ∨ (k = (m, .dir) ∧ g = f) := by
  have hframe : State.dirFrame { s.setMm m rec with
      mmUsed := Function.update s.mmUsed m true } m = f := by
    simp only [State.dirFrame, State.setMm, Function.update_self, hcr3]
    omega
  have hother : ∀ m', m' ≠ m → State.dirFrame { s.setMm m rec with
      mmUsed := Function.update s.mmUsed m true } m' = s.dirFrame m' := fun m' hmm => by
    simp only [State.dirFrame, State.setMm, Function.update_of_ne hmm]
  have hown : ∀ k g, State.Own { s.setMm m rec with
      mmUsed := Function.update s.mmUsed m true } k g ↔
        s.Own k g ∨ (k = (m, .dir) ∧ g = f) := by
    rintro ⟨m', r⟩ g
    unfold State.Own
    by_cases hmm : m' = m
    · subst hmm
      change Function.update s.mmUsed m' true m' = true ∧ Owns maxPde s.mem _ r g ↔ _
      rw [hframe, Function.update_self, hm]
      cases r with
      | dir => simp [Owns]
      | table i =>
          simp only [Owns]
          constructor
          · rintro ⟨-, hi, hp, -⟩
            exact absurd ((hempty i hi).symm.trans hp) (by simp)
          · simp
      | page i j =>
          simp only [Owns]
          constructor
          · rintro ⟨-, ⟨hi, hp⟩, -⟩
            exact absurd ((hempty i hi).symm.trans hp) (by simp)
          · simp
    · change Function.update s.mmUsed m true m' = true ∧ Owns maxPde s.mem _ r g ↔ _
      rw [hother m' hmm, Function.update_of_ne hmm]
      simp [hmm]
  refine ⟨h.give s.mem hf rfl rfl (fun g _ => AgreeOn.refl _ g)
    (fun g _ => AgreeOn.refl _ g) hown fun m' hm' => ?_, hown⟩
  by_cases hmm : m' = m
  · subst hmm
    refine ⟨hlt, ?_, ?_, ?_, ?_, ?_⟩
    · simpa [State.setMm] using hslot
    · simpa [State.setMm] using hbase
    · simpa [State.setMm] using hlimit
    · rw [hframe]
      simpa [State.setMm] using hcr3
    · rw [hframe]
      change (Function.update s.mms m' rec m').pageCount = pageCount maxPde s.mem f
      rw [pageCount_eq_zero hempty, Function.update_self, hcount]
  · have hused : s.mmUsed m' = true := by
      change Function.update s.mmUsed m true m' = true at hm'
      rwa [Function.update_of_ne hmm] at hm'
    have hmms : (s.setMm m rec).mms m' = s.mms m' := Function.update_of_ne hmm _ _
    obtain ⟨hlt', hslot', hbase', hlimit', hcr3', hpages'⟩ := h.records m' hused
    refine ⟨hlt', ?_, ?_, ?_, ?_, ?_⟩
    · rw [hmms, hslot']
    · rw [hmms, hbase']
    · rw [hmms, hlimit']
    · rw [hmms, hother m' hmm, hcr3']
    · rw [hmms, hother m' hmm, hpages']
      rfl

/-- The books do not look at regions, nor at the stream of outcomes. -/
theorem congr (h : FrameInv B l s) (hpaging : t.paging = s.paging)
    (hpool : t.poolFrames = s.poolFrames) (hused : t.mmUsed = s.mmUsed)
    (hmms : ∀ m, ∃ head, t.mms m = { s.mms m with vmaHead := head }) :
    FrameInv B l t ∧ ∀ k f, t.Own k f ↔ s.Own k f := by
  have hdir : ∀ m, t.dirFrame m = s.dirFrame m := by
    intro m
    obtain ⟨head, hm⟩ := hmms m
    rw [State.dirFrame, hm, State.dirFrame]
  have hmem : t.mem = s.mem := by rw [State.mem, hpaging, State.mem]
  have hown : ∀ k f, t.Own k f ↔ s.Own k f := by
    intro k f
    unfold State.Own
    rw [hused, hdir, hmem]
  have htaken : ∀ f, t.Taken f ↔ s.Taken f := by
    intro f
    unfold State.Taken
    rw [hpaging]
  have hstock : t.Stock B = s.Stock B := by
    funext f
    simp only [State.Stock, hpool, hpaging]
  refine ⟨⟨hpaging ▸ h.sound, hpaging ▸ h.tables, hstock ▸ h.ledger.congr hown htaken,
    fun m hm => ?_, hpaging ▸ h.bitmap_stock, h.zero_stock, hpaging ▸ h.kernel_bitmap,
    fun k f hk => ?_, hpaging ▸ h.loose_reserved⟩, hown⟩
  · obtain ⟨hlt, hslot, hbase, hlimit, hcr3, hpages⟩ := h.records m (hused ▸ hm)
    obtain ⟨head, hrec⟩ := hmms m
    refine ⟨hlt, ?_, ?_, ?_, ?_, ?_⟩
    · rw [hrec]
      exact hslot
    · rw [hrec]
      exact hbase
    · rw [hrec]
      exact hlimit
    · rw [hdir, hrec]
      exact hcr3
    · rw [hdir, hmem, hrec]
      exact hpages
  · rw [hpaging]
    exact h.own_reserved k f ((hown k f).mp hk)

end FrameInv

end Unidos.Mm
