import Unidos.Mm.Frames

/-!
# Creating an address space

`mm_create` takes a frame for the directory and a slot for the record. Along the way the kernel
may map a page for itself and grow a pool; `Calm` says that such moves leave every address space
and every frame in flight alone. `mmCreate_spec` is the result: the books balance afterwards, and
on success the new address space owns one frame, its directory, which was free before.
-/

namespace Unidos.Mm

open Lib

/-- A move of the kernel that leaves records, regions, owned frames, and the frames in flight as
they were, and gives back no frame. -/
structure Calm (l : List Nat) (s t : State) : Prop where
  mms : t.mms = s.mms
  mmUsed : t.mmUsed = s.mmUsed
  vmas : t.vmas = s.vmas
  vmaUsed : t.vmaUsed = s.vmaUsed
  cr3 : t.paging.cr3 = s.paging.cr3
  taken : ∀ f, s.Taken f → t.Taken f
  own_mem : ∀ k f, s.Own k f → AgreeOn s.mem t.mem f
  loose_mem : ∀ f, f ∈ l → AgreeOn s.mem t.mem f

variable {B : Nat → Prop} {l l' : List Nat} {s t u : State}

namespace Calm

theorem refl (l : List Nat) (s : State) : Calm l s s :=
  ⟨rfl, rfl, rfl, rfl, rfl, fun _ hf => hf, fun _ f _ => AgreeOn.refl _ f,
    fun f _ => AgreeOn.refl _ f⟩

theorem own (h : Calm l s t) : ∀ k f, t.Own k f ↔ s.Own k f := by
  refine own_congr h.mmUsed h.mms fun m f hm hf => ?_
  rcases hf with hdir | ⟨i, htable⟩
  · exact h.own_mem (m, .dir) f ⟨hm, hdir⟩
  · exact h.own_mem (m, .table i) f ⟨hm, htable⟩

theorem trans {k : List Nat} (h : Calm l s t) (h' : Calm k t u) (hl : ∀ f, f ∈ l → f ∈ k) :
    Calm l s u :=
  ⟨h'.mms.trans h.mms, h'.mmUsed.trans h.mmUsed, h'.vmas.trans h.vmas,
    h'.vmaUsed.trans h.vmaUsed, h'.cr3.trans h.cr3, fun f hf => h'.taken f (h.taken f hf),
    fun k f hf => (h.own_mem k f hf).trans (h'.own_mem k f ((h.own k f).mpr hf)),
    fun f hf => (h.loose_mem f hf).trans (h'.loose_mem f (hl f hf))⟩

theorem withPmm (h : FrameInv B l s) {pmm : Pmm.State} (hbits : Pmm.BitsOnly s.paging.pmm pmm)
    (htaken : ∀ f, s.Taken f → (s.withPmm pmm).Taken f) : Calm l s (s.withPmm pmm) :=
  ⟨rfl, rfl, rfl, rfl, rfl, htaken,
    fun _ _ hf => hbits.agreeOn h.sound.toInv (h.own_not_bitmap hf),
    fun _ hf => hbits.agreeOn h.sound.toInv (h.loose_not_bitmap hf)⟩

theorem take (h : FrameInv B l s) {f : Nat} {pmm : Pmm.State}
    (htook : Pmm.Took s.paging.pmm f pmm) : Calm l s (s.withPmm pmm) := by
  refine withPmm h htook.bits fun g hg => ?_
  change g < pmm.frameCount ∧ pmm.bit g = true
  rw [htook.bits.count, htook.set, hg.2]
  exact ⟨hg.1, by simp⟩

/-- Giving back a frame that was free at the start. -/
theorem drop {f : Nat} (h : Calm l s t) (ht : FrameInv B (f :: l) t) (hfree : ¬ s.Taken f) :
    Calm l s (t.withPmm (Pmm.pmmDeallocSpecificBlock t.paging.pmm (4096 * f)).2) := by
  have hmem : f ∈ f :: l := by simp
  obtain ⟨⟨hlt, hset⟩, -⟩ := ht.ledger.loose_taken f hmem
  obtain ⟨pmm, heq, hbits, -, hbit⟩ := Pmm.dealloc_spec ht.sound hlt hset
    (ht.loose_reserved f hmem) (ht.loose_not_bitmap hmem)
  rw [heq]
  refine ⟨h.mms, h.mmUsed, h.vmas, h.vmaUsed, h.cr3, fun g hg => ?_, fun k g hk => ?_,
    fun g hg => ?_⟩
  · obtain ⟨hglt, hgset⟩ := h.taken g hg
    have hgf : g ≠ f := fun hgf => hfree (hgf ▸ hg)
    refine ⟨hbits.count ▸ hglt, ?_⟩
    change pmm.bit g = true
    rw [hbit, hgset]
    simp [hgf]
  · exact (h.own_mem k g hk).trans
      (hbits.agreeOn ht.sound.toInv (ht.own_not_bitmap ((h.own k g).mpr hk)))
  · exact (h.loose_mem g hg).trans
      (hbits.agreeOn ht.sound.toInv (ht.loose_not_bitmap (by simp [hg])))

/-- A write into a frame that is neither owned nor in flight nor part of the bitmap. -/
theorem write (h : FrameInv B l s) {mem : Memory} {g : Nat} (hg : ¬ s.paging.pmm.HoldsBitmap g)
    (hown : ∀ k, ¬ s.Own k g) (hloose : g ∉ l) (hmem : ChangesOnly s.mem mem g) :
    Calm l s (s.withMem mem) := by
  refine ⟨rfl, rfl, rfl, rfl, rfl, fun f hf => ⟨hf.1, ?_⟩, fun k f hf => ?_, fun f hf => ?_⟩
  · refine (h.sound.bit_withMem _ (fun f' hf' => ?_) hf.1).trans hf.2
    exact hmem f' fun heq => hg (heq ▸ hf')
  · exact hmem f fun heq => hown k (heq ▸ hf)
  · exact hmem f fun heq => hloose (heq ▸ hf)

/-- A write into a frame in flight. -/
theorem writeLoose {f : Nat} {mem : Memory} (h : FrameInv B (f :: l) s) (hf : f ∉ l)
    (hmem : ChangesOnly s.mem mem f) :
    FrameInv B (f :: l) (s.withMem mem) ∧ Calm l s (s.withMem mem) := by
  have hloose : f ∈ f :: l := by simp
  refine ⟨(h.write (h.loose_not_fixed hloose) hmem).1, rfl, rfl, rfl, rfl, rfl,
    fun g hg => ⟨hg.1, ?_⟩, fun k g hg => ?_, fun g hg => ?_⟩
  · refine (h.sound.bit_withMem _ (fun g' hg' => ?_) hg.1).trans hg.2
    exact hmem g' fun heq => h.loose_not_bitmap hloose (heq ▸ hg')
  · exact hmem g fun heq => (h.ledger.owned k g hg).2.2 (heq ▸ hloose)
  · exact hmem g fun heq => hf (heq ▸ hg)

/-- A write into a page table of the kernel. -/
theorem writeKernelTable (h : FrameInv B l s) {i j : Nat} {w : BitVec 32} (hi : i < 1024)
    (hj : j < 1024) (hne : s.paging.pageTablesLocPhys i ≠ 0) :
    FrameInv B l (s.withMem (s.mem.writeWord (s.paging.pageTablesLocPhys i + 4 * j) w)) ∧
      Calm l s (s.withMem (s.mem.writeWord (s.paging.pageTablesLocPhys i + 4 * j) w)) := by
  obtain ⟨g, hg⟩ : ∃ g, s.paging.pageTablesLocPhys i = 4096 * g :=
    ⟨s.paging.pageTablesLocPhys i / 4096, by have := h.tables.table_aligned i hi; omega⟩
  have hkernel : s.paging.KernelFrame g := .inr ⟨i, hi, hne, hg⟩
  have hchange : ChangesOnly s.mem
      (s.mem.writeWord (s.paging.pageTablesLocPhys i + 4 * j) w) g := by
    rw [hg]
    exact changesOnly_setEntry s.mem g w hj
  refine ⟨(h.write (h.kernelTable_not_fixed hi hne hg) hchange).1,
    write h (h.kernel_bitmap g hkernel) (fun k hk => ?_) (fun hl => ?_) hchange⟩
  · exact (h.ledger.owned k g hk).2.1 (.inr (.inr hkernel))
  · exact (h.ledger.loose_taken g hl).2 (.inr (.inr hkernel))

end Calm

/-! ## Mapping a page for the kernel -/

theorem ensureTable_calm {pdi : Nat} {paging : Paging.State} (h : FrameInv B l s)
    (hpdi : pdi < 1024) (hstep : Paging.EnsureTable s.paging pdi paging) :
    FrameInv B l (s.withPaging paging) ∧ Calm l s (s.withPaging paging) := by
  cases hstep with
  | same => exact ⟨h, Calm.refl l s⟩
  | @added f pmm entry htook habsent hentry =>
      obtain ⟨htake, hfree⟩ := h.take htook
      have hfl : f ∉ l := fun hf => hfree (h.ledger.loose_taken f hf).1
      obtain ⟨d, hd⟩ : ∃ d, s.paging.pageDirectoryLocPhys = 4096 * d :=
        ⟨s.paging.pageDirectoryLocPhys / 4096, by have := h.tables.dir_aligned; omega⟩
      have hkernel : s.paging.KernelFrame d := .inl hd
      have hdir : AgreeOn s.mem pmm.mem d :=
        htook.bits.agreeOn h.sound.toInv (h.kernel_bitmap d hkernel)
      have habsent' : entryPresent ((s.withPmm pmm).mem.readWord
          ((s.withPmm pmm).paging.pageDirectoryLocPhys + 4 * pdi)) = false := by
        have hentry := hdir.tableEntry hpdi
        unfold tableEntry at hentry
        rw [← hd] at hentry
        exact (congrArg entryPresent hentry).trans habsent
      have hinv := htake.keepTable hfl hpdi hentry habsent'
      refine ⟨hinv, (Calm.take h htook).trans (k := l) ?_ fun f hf => hf⟩
      have hchange : ChangesOnly (s.withPmm pmm).mem
          ((s.withPmm pmm).mem.writeWord (s.paging.pageDirectoryLocPhys + 4 * pdi) entry) d := by
        rw [hd]
        exact changesOnly_setEntry _ d entry hpdi
      have hmove := Calm.write htake (htake.kernel_bitmap d hkernel)
        (fun k hk => (htake.ledger.owned k d hk).2.1 (.inr (.inr hkernel)))
        (fun hl => (htake.ledger.loose_taken d hl).2 (.inr (.inr hkernel))) hchange
      exact ⟨rfl, rfl, rfl, rfl, rfl, hmove.taken, hmove.own_mem,
        fun f hf => hmove.loose_mem f (by simp [hf])⟩

theorem pagingMapPage_calm {virt phys : Nat} {flags : BitVec 32} {status : PagingStatus}
    {paging : Paging.State}
    (hret : Paging.pagingMapPage s.paging virt phys flags = .ok (status, paging))
    (h : FrameInv B l s) : FrameInv B l (s.withPaging paging) ∧ Calm l s (s.withPaging paging) := by
  obtain ⟨p, hensure, hcase⟩ := Paging.pagingMapPage_cases hret h.sound
  obtain ⟨hinv, hcalm⟩ := ensureTable_calm h (Nat.mod_lt _ (by decide)) hensure
  rcases hcase with rfl | ⟨hne, entry, rfl⟩
  · exact ⟨hinv, hcalm⟩
  · obtain ⟨hinv', hcalm'⟩ := Calm.writeKernelTable (w := entry) hinv
      (Nat.mod_lt _ (by decide)) (Nat.mod_lt (virt / 4096) (by decide)) hne
    exact ⟨hinv', hcalm.trans hcalm' fun f hf => hf⟩

theorem pagingUnmapPage_calm {virt phys : Nat} {status : PagingStatus} {paging : Paging.State}
    (hret : Paging.pagingUnmapPage s.paging virt = .ok (status, phys, paging))
    (h : FrameInv B l s) : FrameInv B l (s.withPaging paging) ∧ Calm l s (s.withPaging paging) := by
  rcases Paging.pagingUnmapPage_cases hret with rfl | ⟨hne, rfl⟩
  · exact ⟨h, Calm.refl l s⟩
  · exact Calm.writeKernelTable h (Nat.mod_lt _ (by decide)) (Nat.mod_lt _ (by decide)) hne

/-! ## Pools -/

theorem takePoolFrames_calm {n : Nat} {b : Bool} (h : FrameInv B l s)
    (hret : takePoolFrames n s = (b, t)) : FrameInv B l t ∧ Calm l s t := by
  induction n generalizing s with
  | zero =>
      have heq : s = t := congrArg Prod.snd hret
      exact heq ▸ ⟨h, Calm.refl l s⟩
  | succ n ih =>
      have hnext := Pmm.getNext_spec h.sound
      unfold takePoolFrames at hret
      generalize Pmm.pmmGetNextAvailableBlock s.paging.pmm = r at hret hnext
      cases hnext with
      | oom =>
          have heq : s = t := congrArg Prod.snd hret
          exact heq ▸ ⟨h, Calm.refl l s⟩
      | @found f pmm htook =>
          obtain ⟨htake, hno⟩ := h.take htook
          have hfl : f ∉ l := fun hl => hno (h.ledger.loose_taken f hl).1
          have hdiv : 4096 * f / 4096 = f := by omega
          simp only [ne_eq, not_true_eq_false, if_false, hdiv] at hret
          obtain ⟨hinv, hcalm⟩ := ih (htake.keepPool hfl) hret
          have hstep := Calm.take h htook
          refine ⟨hinv, hstep.trans (k := l) ?_ fun f hf => hf⟩
          exact ⟨hcalm.mms, hcalm.mmUsed, hcalm.vmas, hcalm.vmaUsed, hcalm.cr3, hcalm.taken,
            hcalm.own_mem, hcalm.loose_mem⟩

/-- A pool slot that `dpage_alloc` returns was free. -/
theorem dpageAlloc_some {used : Nat → Bool} {slots i : Nat}
    (hret : dpageAlloc used slots s = (some i, t)) : used i = false ∧ i < slots := by
  unfold dpageAlloc at hret
  split at hret
  · simp at hret
  · rename_i slot hfind
    have hpos : 0 < slots := by
      by_contra hzero
      have hslots : slots = 0 := by omega
      subst hslots
      simp [circFind] at hfind
    dsimp only at hret
    split at hret <;> simp only [Prod.mk.injEq, Option.some.injEq, reduceCtorEq, false_and] at hret
    exact hret.1 ▸ ⟨by simpa using circFind_sound hfind, circFind_lt hpos hfind⟩

/-- Only frames for the pools are taken on the way from `s` to `t`. -/
def Grown (s t : State) : Prop := ∀ B l, FrameInv B l s → FrameInv B l t ∧ Calm l s t

theorem Grown.refl (s : State) : Grown s s := fun _ l h => ⟨h, Calm.refl l s⟩

theorem Grown.trans (h : Grown s t) (h' : Grown t u) : Grown s u := by
  intro B l hs
  obtain ⟨ht, hcalm⟩ := h B l hs
  obtain ⟨hu, hcalm'⟩ := h' B l ht
  exact ⟨hu, hcalm.trans hcalm' fun _ hf => hf⟩

theorem dpageAlloc_grown {used : Nat → Bool} {slots : Nat} {slot : Option Nat}
    (hret : dpageAlloc used slots s = (slot, t)) : Grown s t := by
  intro B l h
  unfold dpageAlloc at hret
  split at hret
  · simp only [Prod.mk.injEq] at hret
    exact hret.2 ▸ ⟨h, Calm.refl l s⟩
  · obtain ⟨hshift, -⟩ := h.congr (t := { s with demand := fun n => s.demand (n + 1) })
      rfl rfl rfl fun m => ⟨_, rfl⟩
    dsimp only at hret
    generalize htake : takePoolFrames (s.demand 0).frames
      { s with demand := fun n => s.demand (n + 1) } = r at hret
    obtain ⟨enough, u⟩ := r
    obtain ⟨hinv, hcalm⟩ := takePoolFrames_calm hshift htake
    have hcalm : Calm l s u := ⟨hcalm.mms, hcalm.mmUsed, hcalm.vmas, hcalm.vmaUsed, hcalm.cr3,
      hcalm.taken, hcalm.own_mem, hcalm.loose_mem⟩
    split at hret <;> simp only [Prod.mk.injEq] at hret <;> exact hret.2 ▸ ⟨hinv, hcalm⟩

/-- What `dpage_alloc` does. -/
theorem dpageAlloc_calm {used : Nat → Bool} {slots : Nat} {slot : Option Nat}
    (h : FrameInv B l s) (hret : dpageAlloc used slots s = (slot, t)) :
    FrameInv B l t ∧ Calm l s t ∧ ∀ i, slot = some i → used i = false ∧ i < slots := by
  obtain ⟨hinv, hcalm⟩ := dpageAlloc_grown hret B l h
  exact ⟨hinv, hcalm, fun i hi => dpageAlloc_some (hi ▸ hret)⟩

/-! ## The directory -/

theorem changesOnly_copyKernelEntries (mem : Memory) (g src : Nat) :
    ChangesOnly mem (copyKernelEntries mem (4096 * g) src) g ∧
      ∀ i, i < maxPde →
        tableEntry (copyKernelEntries mem (4096 * g) src) g i = tableEntry mem g i := by
  have hmax := maxPde_le
  unfold copyKernelEntries
  refine ⟨fun f hf a h1 h2 => Memory.copyBytes_apply_ne mem _ (by omega), fun i hi => ?_⟩
  exact Memory.readWord_congr fun a h1 h2 => Memory.copyBytes_apply_ne mem _ (by omega)

/-- What `_mm_alloc_pd` gives: a frame in flight with an empty user half. -/
structure NewDir (B : Nat → Prop) (l : List Nat) (s t : State) (f : Nat) : Prop where
  inv : FrameInv B (f :: l) t
  calm : Calm l s t
  free : ¬ s.Taken f
  empty : ∀ i, i < maxPde → entryPresent (tableEntry t.mem f i) = false

theorem NewDir.notMem {f : Nat} (h : NewDir B l s t f) (hs : FrameInv B l s) : f ∉ l :=
  fun hf => h.free (hs.ledger.loose_taken f hf).1

theorem mmAllocPd_spec {pd : Nat} (hret : mmAllocPd s = .ok (pd, t)) (h : FrameInv B l s) :
    (pd = 0 ∧ FrameInv B l t ∧ Calm l s t) ∨ ∃ f, pd = 4096 * f ∧ NewDir B l s t f := by
  have hnext := Pmm.getNext_spec h.sound
  unfold mmAllocPd at hret
  generalize Pmm.pmmGetNextAvailableBlock s.paging.pmm = r at hret hnext
  cases hnext with
  | oom =>
      simp only [ne_eq, reduceCtorEq, not_false_eq_true, if_true, Except.ok.injEq,
        Prod.mk.injEq] at hret
      obtain ⟨rfl, rfl⟩ := hret
      exact .inl ⟨rfl, h, Calm.refl l s⟩
  | @found f pmm htook =>
      obtain ⟨htake, hno⟩ := h.take htook
      have hfl : f ∉ l := fun hl => hno (h.ledger.loose_taken f hl).1
      simp only [ne_eq, not_true_eq_false, if_false] at hret
      obtain ⟨⟨mapRes, paging⟩, hmap, hret⟩ := bind_eq_ok.mp hret
      obtain ⟨hinv2, hcalm2⟩ := pagingMapPage_calm hmap htake
      have hcalm2 := (Calm.take h htook).trans hcalm2 fun g hg => List.mem_cons_of_mem f hg
      generalize (s.withPmm pmm).withPaging paging = s2 at hinv2 hcalm2 hret
      dsimp only at hret
      split at hret
      · simp only [Except.ok.injEq, Prod.mk.injEq] at hret
        obtain ⟨rfl, rfl⟩ := hret
        exact .inl ⟨rfl, hinv2.drop hfl, hcalm2.drop hinv2 hno⟩
      · obtain ⟨kernelPd, -, hret⟩ := bind_eq_ok.mp hret
        obtain ⟨⟨unmapStatus, unmapPhys, paging'⟩, hunmap, hret⟩ := bind_eq_ok.mp hret
        dsimp only at hret
        split at hret
        · simp at hret
        split at hret
        · simp at hret
        simp only [Except.ok.injEq, Prod.mk.injEq] at hret
        obtain ⟨rfl, rfl⟩ := hret
        obtain ⟨hinv3, hcalm3⟩ := Calm.writeLoose hinv2 hfl (changesOnly_fillBytes s2.mem f 0)
        obtain ⟨hchange, hentry⟩ := changesOnly_copyKernelEntries
          (s2.mem.fillBytes (4096 * f) 4096 0) f kernelPd
        obtain ⟨hinv4, hcalm4⟩ := Calm.writeLoose hinv3 hfl hchange
        obtain ⟨hinv5, hcalm5⟩ := pagingUnmapPage_calm hunmap hinv4
        have hcalm := ((hcalm2.trans hcalm3 fun _ hg => hg).trans hcalm4 fun _ hg => hg).trans
          hcalm5 fun _ hg => List.mem_cons_of_mem f hg
        refine .inr ⟨f, rfl, hinv5, hcalm, hno, fun i hi => ?_⟩
        have hi' := lt_of_lt_of_le hi maxPde_le
        rw [(hcalm5.loose_mem f (by simp)).tableEntry hi']
        rw [State.mem_withMem, State.mem_withMem, hentry i hi, tableEntry,
          Memory.readWord_fillBytes_zero _ (by omega) (by omega)]
        decide

/-! ## The record -/

/-- What a successful `mm_create` does: `m` was free, and owns one frame, which was free. -/
structure Created (s t : State) (m f : Nat) : Prop where
  unused : s.mmUsed m = false
  free : ¬ s.Taken f
  mms : t.mms = Function.update s.mms m ⟨4096 * f, 1, 0, kernelVirtualBase, 0, m, none⟩
  mmUsed : t.mmUsed = Function.update s.mmUsed m true
  vmas : t.vmas = s.vmas
  vmaUsed : t.vmaUsed = s.vmaUsed
  cr3 : t.paging.cr3 = s.paging.cr3
  taken : ∀ g, s.Taken g → t.Taken g
  own_mem : ∀ k g, s.Own k g → AgreeOn s.mem t.mem g
  own : ∀ k g, t.Own k g ↔ s.Own k g ∨ (k = (m, .dir) ∧ g = f)

theorem mmCreate_spec {child : Option Nat} (hret : mmCreate s = .ok (child, t))
    (h : FrameInv B [] s) : FrameInv B [] t ∧
      ((child = none ∧ Calm [] s t) ∨ ∃ m f, child = some m ∧ Created s t m f) := by
  unfold mmCreate at hret
  obtain ⟨⟨pd, s1⟩, hpd, hret⟩ := bind_eq_ok.mp hret
  rcases mmAllocPd_spec hpd h with ⟨rfl, hinv, hcalm⟩ | ⟨f, rfl, hnew⟩
  · simp only [if_true, Except.ok.injEq, Prod.mk.injEq] at hret
    obtain ⟨rfl, rfl⟩ := hret
    exact ⟨hinv, .inl ⟨rfl, hcalm⟩⟩
  · have hf0 : f ≠ 0 := fun h0 =>
      (hnew.inv.ledger.loose_taken f (by simp)).2 (.inl (h0 ▸ h.zero_stock))
    have hpd0 : ¬ 4096 * f = 0 := by omega
    simp only [hpd0, if_false] at hret
    unfold mmAllocMm at hret
    generalize halloc : dpageAlloc s1.mmUsed mmSlots s1 = r at hret
    obtain ⟨slot, s2⟩ := r
    obtain ⟨hinv2, hcalm2, hslot⟩ := dpageAlloc_calm hnew.inv halloc
    have hcalm := hnew.calm.trans hcalm2 fun g hg => List.mem_cons_of_mem f hg
    cases slot with
    | none =>
        simp only [Except.ok.injEq, Prod.mk.injEq] at hret
        obtain ⟨rfl, rfl⟩ := hret
        exact ⟨hinv2.drop (by simp), .inl ⟨rfl, hcalm.drop hinv2 hnew.free⟩⟩
    | some m =>
        obtain ⟨hfree, hlt⟩ := hslot m rfl
        have hused : s2.mmUsed m = false := by rw [hcalm2.mmUsed]; exact hfree
        have hempty : ∀ i, i < maxPde → entryPresent (tableEntry s2.mem f i) = false :=
          fun i hi => by
            rw [(hcalm2.loose_mem f (by simp)).tableEntry (lt_of_lt_of_le hi maxPde_le)]
            exact hnew.empty i hi
        obtain ⟨hinv3, hown⟩ := hinv2.giveDir
          ⟨4096 * f, 1, 0, kernelVirtualBase, 0, m, none⟩ (by simp) hused hlt hempty
          rfl rfl rfl rfl rfl
        have heq : ({ s2.setMm m ⟨4096 * f, 1, 0, kernelVirtualBase, 0, m, none⟩ with
            mmUsed := Function.update s2.mmUsed m true } : State) = t ∧ some m = child := by
          simp only [Except.ok.injEq, Prod.mk.injEq] at hret
          obtain ⟨rfl, rfl⟩ := hret
          refine ⟨?_, rfl⟩
          simp [State.setMm, MmStruct.zero]
        obtain ⟨rfl, rfl⟩ := heq
        refine ⟨hinv3, .inr ⟨m, f, rfl, ?_, hnew.free, ?_, ?_, hcalm.vmas, hcalm.vmaUsed,
          hcalm.cr3, hcalm.taken, hcalm.own_mem, fun k g => ?_⟩⟩
        · rw [← hcalm.mmUsed]
          exact hused
        · simp only [State.setMm]
          rw [hcalm.mms]
        · change Function.update s2.mmUsed m true = _
          rw [hcalm.mmUsed]
        · rw [hown k g, hcalm.own k g]

end Unidos.Mm
