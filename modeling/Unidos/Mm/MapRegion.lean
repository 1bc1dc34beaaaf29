import Unidos.Mm.Fill

/-!
# Mapping a region

`mm_map_region` adds the pages of a region one by one. Each round keeps the books, also a round
that runs out of frames: a page without a table is given back, and the pages of earlier rounds
stay where they are. `mmMapRegion_spec` is the result for the whole call.
-/

namespace Unidos.Mm

open Lib

variable {B : Nat → Prop} {l : List Nat} {s t : State} {lists : Nat → List Nat} {m : Nat}

/-- The flags of the page tables that `mm_map_region` makes. -/
def userTableFlags : BitVec 32 := Paging.pgPresent ||| Paging.pgRw ||| Paging.pgUser

/-- Where a page table comes from: it was there, or it is new. -/
inductive TableMade (s : State) (m i d : Nat) : State → Prop where
  | there (h : s.Own (m, .table i) d) : TableMade s m i d s
  | made {t : State} (h : NewTable s t m i d (mkEntry (4096 * d) userTableFlags)) :
      TableMade s m i d t

theorem ensureUserTable_cases {pdi : Nat} {there : Bool}
    (hret : ensureUserTable s (4096 * s.dirFrame m) pdi = .ok (there, t)) (h : FrameInv B l s)
    (hm : s.mmUsed m = true) (hpdi : pdi < maxPde) :
    FrameInv B l t ∧ t.mms = s.mms ∧ ((there = false ∧ Calm l s t) ∨
      (there = true ∧ ∃ d, TableMade s m pdi d t)) := by
  unfold ensureUserTable at hret
  split at hret
  · rename_i hpresent
    simp only [Except.ok.injEq, Prod.mk.injEq] at hret
    obtain ⟨rfl, rfl⟩ := hret
    exact ⟨h, rfl, .inr ⟨rfl, _, .there ⟨hm, hpdi, hpresent, rfl⟩⟩⟩
  · rename_i habsent
    have hnext := Pmm.getNext_spec h.sound
    generalize Pmm.pmmGetNextAvailableBlock s.paging.pmm = r at hret hnext
    cases hnext with
    | oom =>
        simp only [ne_eq, reduceCtorEq, not_false_eq_true, if_true, Except.ok.injEq,
          Prod.mk.injEq] at hret
        obtain ⟨rfl, rfl⟩ := hret
        exact ⟨h, rfl, .inl ⟨rfl, Calm.refl l s⟩⟩
    | @found f pmm htook =>
        simp only [ne_eq, not_true_eq_false, if_false] at hret
        obtain ⟨newPt, hpt, hret⟩ := bind_eq_ok.mp hret
        rw [Paging.physToVirt_eq_ok hpt] at hret
        simp only [Except.ok.injEq, Prod.mk.injEq] at hret
        obtain ⟨rfl, rfl⟩ := hret
        obtain ⟨hinv, hnew⟩ := newTable (m := m) (i := pdi) userTableFlags h htook hm hpdi
          (by simpa [tableEntry] using habsent) (by decide) (by decide)
        exact ⟨hinv, rfl, .inr ⟨rfl, f, .made hnew⟩⟩

/-- What looking after the page table does. -/
structure Ensured (s t : State) (m i d : Nat) : Prop where
  steady : Steady s t
  table : t.Own (m, .table i) d
  own : ∀ k g, t.Own k g ↔ s.Own k g ∨ (k = (m, .table i) ∧ g = d)

theorem TableMade.ensured {i d : Nat} (h : TableMade s m i d t) : Ensured s t m i d := by
  cases h with
  | there htable =>
      refine ⟨Steady.refl s, htable, fun k g => ⟨.inl, ?_⟩⟩
      rintro (hk | ⟨rfl, rfl⟩)
      · exact hk
      · exact htable
  | made hnew => exact ⟨hnew.steady, (hnew.own _ _).mpr (.inr ⟨rfl, rfl⟩), hnew.own⟩

/-- The directory and table entries of the page at `va`. -/
def pageRole (va : Nat) : Role := .page (va / 2 ^ 22) (va / 4096 % 1024)

theorem pageRole_inj {va va' : Nat} (h : va % 4096 = 0) (h' : va' % 4096 = 0)
    (heq : pageRole va = pageRole va') : va = va' := by
  simp only [pageRole, Role.page.injEq] at heq
  omega

theorem changesOnly_initPage (mem : Memory) (f : Nat) (data : Option InitialData)
    (copied : Nat) : ChangesOnly mem (initPage mem (4096 * f) data copied) f := by
  unfold initPage
  cases data with
  | none => exact changesOnly_fillBytes mem f 0
  | some d =>
      exact (changesOnly_fillBytes mem f 0).trans
        (changesOnly_copyBytes _ f _ (Nat.min_le_right _ _))

/-- A round that gave the page at `va` the frame `f`, and the states on the way: the frame is
taken (`s₁`), the table is there (`s₂`), the page is in it (`s₃`), and its contents are set. -/
structure PageMade (B : Nat → Prop) (s t : State) (m va : Nat) (flags : BitVec 32)
    (data : Option InitialData) (copied f d : Nat) (s₁ s₂ s₃ : State) : Prop where
  free : ¬ s.Taken f
  take : FrameInv B [f] s₁ ∧ Calm [] s s₁
  table : FrameInv B [f] s₂ ∧ TableMade s₁ m (va / 2 ^ 22) d s₂
  page : FrameInv B [] s₃ ∧ NewPage s₂ s₃ m (va / 2 ^ 22) (va / 4096 % 1024) d f
    (mkEntry (4096 * f) flags)
  count : (s₃.mms m).pageCount = ((s.mms m).pageCount + 1) % 2 ^ 32
  init : t = s₃.withMem (initPage s₃.mem (4096 * f) data copied)

theorem mapPage_cases {vaStart p copied copied' : Nat} {flags : BitVec 32}
    {data : Option InitialData} {b : Bool}
    (hret : mapPage m (4096 * s.dirFrame m) vaStart flags data (s, copied) p =
      .ok (b, t, copied'))
    (h : FrameInv B [] s) (hm : s.mmUsed m = true) (hva : vaStart + p * 4096 < kernelVirtualBase)
    (habsent : ∀ f, ¬ s.Own (m, pageRole (vaStart + p * 4096)) f)
    (hflags : flags.toNat < 4096) (hpresent : entryPresent flags = true) :
    (b = false ∧ FrameInv B [] t ∧ Calm [] s t) ∨
      (b = true ∧ copied' = copied + InitialData.toCopy data copied ∧
        ∃ f d s₁ s₂ s₃, PageMade B s t m (vaStart + p * 4096) flags data copied f d s₁ s₂ s₃) := by
  have hmod : (vaStart + p * 4096) % 2 ^ 32 = vaStart + p * 4096 := by
    unfold kernelVirtualBase at hva
    omega
  unfold mapPage at hret
  dsimp only at hret
  rw [hmod] at hret
  generalize vaStart + p * 4096 = va at *
  have hpdi : va / 2 ^ 22 < maxPde := by
    unfold maxPde
    unfold kernelVirtualBase at hva ⊢
    omega
  have hpti : va / 4096 % 1024 < 1024 := Nat.mod_lt _ (by decide)
  have hnext := Pmm.getNext_spec h.sound
  generalize Pmm.pmmGetNextAvailableBlock s.paging.pmm = r at hret hnext
  cases hnext with
  | oom =>
      simp only [ne_eq, reduceCtorEq, not_false_eq_true, if_true, Except.ok.injEq,
        Prod.mk.injEq] at hret
      obtain ⟨rfl, rfl, rfl⟩ := hret
      exact .inl ⟨rfl, h, Calm.refl [] s⟩
  | @found f pmm htook =>
      simp only [ne_eq, not_true_eq_false, if_false] at hret
      obtain ⟨hinv1, hfree⟩ := h.take htook
      have hcalm1 := Calm.take h htook
      obtain ⟨⟨there, s2⟩, htable, hret⟩ := bind_eq_ok.mp hret
      obtain ⟨hinv2, hmms2, hcase⟩ := ensureUserTable_cases (m := m) htable hinv1 hm hpdi
      rcases hcase with ⟨rfl, hcalm2⟩ | ⟨rfl, d, hmade⟩
      · -- no frame for the table: the page goes back
        simp only [if_true, Except.ok.injEq, Prod.mk.injEq] at hret
        obtain ⟨rfl, rfl, -⟩ := hret
        have hcalm := (hcalm1.trans hcalm2 fun _ hg => List.mem_cons_of_mem f hg).drop hinv2 hfree
        exact .inl ⟨rfl, hinv2.drop (by simp), hcalm⟩
      · have hens := hmade.ensured
        simp only [reduceCtorEq, if_false] at hret
        obtain ⟨pt, hpt, hret⟩ := bind_eq_ok.mp hret
        obtain ⟨page, hpage, hret⟩ := bind_eq_ok.mp hret
        have hdir : s2.dirFrame m = s.dirFrame m := hens.steady.dirFrame m
        have hd : entryPhys (s2.mem.readWord (4096 * s.dirFrame m + 4 * (va / 2 ^ 22))) =
            4096 * d := by
          have heq := hens.table.2.2.2
          rw [hdir] at heq
          rw [heq]
          exact entryPhys_eq _
        rw [Paging.physToVirt_eq_ok hpt, Paging.physToVirt_eq_ok hpage, hd] at hret
        have hno : ∀ g, ¬ s2.Own (m, pageRole va) g := by
          intro g hg
          rcases (hens.own _ g).mp hg with hg | ⟨heq, -⟩
          · exact habsent g ((hcalm1.own _ g).mp hg)
          · simp [pageRole] at heq
        have hslot : entryPresent (tableEntry s2.mem d (va / 4096 % 1024)) = false := by
          cases hcase : entryPresent (tableEntry s2.mem d (va / 4096 % 1024)) with
          | false => rfl
          | true =>
              obtain ⟨hm2, hi, hp, heq⟩ := hens.table
              rw [heq] at hcase
              exact absurd ⟨hm2, ⟨hi, hp⟩, hpti, hcase, rfl⟩ (hno _)
        simp only [Except.ok.injEq, Prod.mk.injEq] at hret
        obtain ⟨rfl, rfl, rfl⟩ := hret
        refine .inr ⟨rfl, rfl, f, d, _, _, _, hfree, ⟨hinv1, hcalm1⟩, ⟨hinv2, hmade⟩,
          newPage (l := []) hinv2 (by simp) hens.table hpti hslot hflags hpresent, ?_, rfl⟩
        rw [State.countPage, State.mms_setMm_self, State.mms_withMem, hmms2]
        rfl

/-- What one round of `mm_map_region` does. -/
structure PageStep (B : Nat → Prop) (s t : State) (m va : Nat) : Prop where
  inv : FrameInv B [] t
  steady : Steady s t
  pages : ∀ r g, t.Own (m, r) g → s.Own (m, r) g ∨ r = pageRole va ∨ ∃ i, r = .table i

theorem PageMade.step {va copied f d : Nat} {flags : BitVec 32} {data : Option InitialData}
    {s₁ s₂ s₃ : State} (h : PageMade B s t m va flags data copied f d s₁ s₂ s₃) :
    PageStep B s t m va := by
  obtain ⟨hinv3, hnew⟩ := h.page
  have hens := h.table.2.ensured
  have hpageOwn := (hnew.own (m, pageRole va) f).mpr (.inr ⟨rfl, rfl⟩)
  obtain ⟨hinv4, hsteady4, hown4⟩ := writePage hinv3 hpageOwn
    (changesOnly_initPage _ f data copied)
  rw [h.init]
  refine ⟨hinv4, (((Steady.ofCalm h.take.2).trans hens.steady).trans hnew.steady).trans hsteady4,
    fun r g hg => ?_⟩
  rcases (hnew.own _ g).mp ((hown4 _ g).mp hg) with hg | ⟨heq, -⟩
  · rcases (hens.own _ g).mp hg with hg | ⟨heq, -⟩
    · exact .inl ((h.take.2.own _ g).mp hg)
    · exact .inr (.inr ⟨_, (Prod.mk.inj heq).2⟩)
  · exact .inr (.inl (Prod.mk.inj heq).2)

theorem mapPage_spec {vaStart p copied copied' : Nat} {flags : BitVec 32}
    {data : Option InitialData} {b : Bool}
    (hret : mapPage m (4096 * s.dirFrame m) vaStart flags data (s, copied) p =
      .ok (b, t, copied'))
    (h : FrameInv B [] s) (hm : s.mmUsed m = true) (hva : vaStart + p * 4096 < kernelVirtualBase)
    (habsent : ∀ f, ¬ s.Own (m, pageRole (vaStart + p * 4096)) f)
    (hflags : flags.toNat < 4096) (hpresent : entryPresent flags = true) :
    PageStep B s t m (vaStart + p * 4096) := by
  rcases mapPage_cases hret h hm hva habsent hflags hpresent with
    ⟨-, hinv, hcalm⟩ | ⟨-, -, f, d, s₁, s₂, s₃, hmade⟩
  · exact ⟨hinv, Steady.ofCalm hcalm, fun r g hg => .inl ((hcalm.own (m, r) g).mp hg)⟩
  · exact hmade.step

/-! ## The whole call -/

/-- No page of the range is mapped. -/
def State.Unmapped (s : State) (m vaStart pages : Nat) : Prop :=
  ∀ p, p < pages → ∀ f, ¬ s.Own (m, pageRole (vaStart + p * 4096)) f

/-- The loop of `mm_map_region`. -/
theorem mapPages_spec {vaStart pages copied' : Nat} {flags : BitVec 32}
    {data : Option InitialData} {b : Bool}
    (hret : forOk (mapPage m (4096 * s.dirFrame m) vaStart flags data) (List.range pages) (s, 0) =
      .ok (b, t, copied'))
    (h : FrameInv B [] s) (hm : s.mmUsed m = true) (halign : vaStart % 4096 = 0)
    (hlimit : vaStart + pages * 4096 ≤ kernelVirtualBase)
    (habsent : s.Unmapped m vaStart pages)
    (hflags : flags.toNat < 4096) (hpresent : entryPresent flags = true) :
    FrameInv B [] t ∧ Steady s t := by
  have hloop := forOk_range
    (I := fun p (u : State × Nat) => FrameInv B [] u.1 ∧ Steady s u.1 ∧
      ∀ q, p ≤ q → q < pages → ∀ f, ¬ u.1.Own (m, pageRole (vaStart + q * 4096)) f)
    (J := fun u => FrameInv B [] u.1 ∧ Steady s u.1) ?_
    ⟨h, Steady.refl s, fun q _ hq => habsent q hq⟩ hret
  · cases b with
    | true => exact ⟨(hloop.1 rfl).1, (hloop.1 rfl).2.1⟩
    | false => exact hloop.2 rfl
  · rintro p ⟨u, copied⟩ b ⟨v, copied'⟩ hp ⟨hinv, hsteady, hfresh⟩ hstep
    rw [← hsteady.dirFrame m] at hstep
    have hround := mapPage_spec hstep hinv (by rw [hsteady.mmUsed]; exact hm) (by omega)
      (hfresh p le_rfl hp) hflags hpresent
    have hsteady' := hsteady.trans hround.steady
    refine ⟨fun _ => ⟨hround.inv, hsteady', fun q hq hqn f hf => ?_⟩,
      fun _ => ⟨hround.inv, hsteady'⟩⟩
    rcases hround.pages _ f hf with hf | heq | ⟨i, heq⟩
    · exact hfresh q (by omega) hqn f hf
    · have := pageRole_inj (by omega) (by omega) heq
      omega
    · simp [pageRole] at heq

theorem regionInv_vmaFree {v : Nat} (h : RegionInv s lists) (hslot : (s.vmas v).slotId = v)
    (hv : ∀ m, s.mmUsed m = true → v ∉ lists m) : RegionInv (vmaFree s v) lists := by
  refine ⟨h.chain, fun m hm w hw => ?_, h.disjoint⟩
  obtain ⟨h1, h2, h3⟩ := h.used m hm w hw
  refine ⟨?_, h2, h3⟩
  unfold vmaFree dpageBmClear
  rw [hslot]
  dsimp only
  split
  · exact h1
  · have hwv : w ≠ v := by
      rintro rfl
      exact hv m hm hw
    rwa [Function.update_of_ne hwv]

/-- The flags of the pages of a region: user pages that are present. -/
theorem pteFlags_ok (prot : BitVec 32) :
    (Paging.pgPresent ||| Paging.pgUser |||
      (if prot &&& vmaProtWrite ≠ 0 then Paging.pgRw else 0)).toNat < 4096 ∧
    entryPresent (Paging.pgPresent ||| Paging.pgUser |||
      (if prot &&& vmaProtWrite ≠ 0 then Paging.pgRw else 0)) = true := by
  split <;> decide

theorem mmMapRegion_spec {vaStart size prot : BitVec 32} {type : VmaType}
    {data : Option InitialData} {code : Int}
    (hret : mmMapRegion s (some m) vaStart size type prot data = .ok (code, t))
    (h : FrameInv B [] s) (hr : RegionInv s lists) (hm : s.mmUsed m = true)
    (hwrap : vaStart.toNat + size.toNat < 2 ^ 32)
    (habsent : s.Unmapped m vaStart.toNat (size.toNat / 4096)) :
    FrameInv B [] t ∧ (∃ lists', RegionInv t lists') ∧ t.mmUsed = s.mmUsed ∧
      t.paging.cr3 = s.paging.cr3 := by
  have hsum : (vaStart + size).toNat = vaStart.toNat + size.toNat := by
    rw [BitVec.toNat_add, Nat.mod_eq_of_lt hwrap]
  have hfail : .ok (code, t) = (.ok (-1, s) : Except Trap (Int × State)) →
      FrameInv B [] t ∧ (∃ lists', RegionInv t lists') ∧ t.mmUsed = s.mmUsed ∧
        t.paging.cr3 = s.paging.cr3 := by
    intro heq
    simp only [Except.ok.injEq, Prod.mk.injEq] at heq
    obtain ⟨-, rfl⟩ := heq
    exact ⟨h, ⟨lists, hr⟩, rfl, rfl⟩
  unfold mmMapRegion at hret
  dsimp only at hret
  split at hret
  · exact hfail hret.symm
  split at hret
  · exact hfail hret.symm
  split at hret
  · exact hfail hret.symm
  split at hret
  · exact hfail hret.symm
  rename_i hsize halign hsizeAlign hrange
  have hlimit : vaStart.toNat + size.toNat ≤ kernelVirtualBase := by
    rw [← (h.records m hm).userLimit, ← hsum]
    omega
  generalize halloc : vmaAlloc s = r at hret
  obtain ⟨slot, s1⟩ := r
  obtain ⟨hinv1, hcase⟩ := vmaAlloc_spec h halloc
  rcases hcase with ⟨rfl, hcalm⟩ | ⟨v, rfl, hnew⟩
  · simp only [Except.ok.injEq, Prod.mk.injEq] at hret
    obtain ⟨-, rfl⟩ := hret
    exact ⟨hinv1, ⟨lists, hr.calm hcalm⟩, hcalm.mmUsed, hcalm.cr3⟩
  · have hfacts := hnew.facts
    obtain ⟨hr1, hnot1⟩ := hnew.regionInv hr
    dsimp only at hret
    obtain ⟨pd, hpd, hret⟩ := bind_eq_ok.mp hret
    rw [Paging.physToVirt_eq_ok hpd] at hret
    -- the record of the new region is on no list yet
    generalize hvma : (s1.vmas v).describe vaStart.toNat (vaStart + size).toNat type prot = vma
      at hret
    have hr2 := hr1.setVma vma hnot1
    have hslot2 : ((s1.setVma v vma).vmas v).slotId = v := by
      rw [State.vmas_setVma_self, ← hvma, hfacts.vma]
      rfl
    obtain ⟨hinv2, hown2⟩ := hinv1.congr (t := s1.setVma v vma) rfl rfl rfl fun m => ⟨_, rfl⟩
    generalize hs2 : s1.setVma v vma = s2 at hret hr2 hslot2 hinv2 hown2
    have hused2 : s2.mmUsed = s.mmUsed := by rw [← hs2]; exact hfacts.mmUsed
    have hcr32 : s2.paging.cr3 = s.paging.cr3 := by rw [← hs2]; exact hfacts.cr3
    have hvused2 : s2.vmaUsed v = true := by rw [← hs2]; exact hfacts.used
    have hnot2 : ∀ m, s2.mmUsed m = true → v ∉ lists m := by rw [← hs2]; exact hnot1
    have hm2 : s2.mmUsed m = true := by rw [hused2]; exact hm
    obtain ⟨⟨done, s3, copied⟩, hloop, hret⟩ := bind_eq_ok.mp hret
    rw [(hinv2.records m hm2).cr3] at hloop
    obtain ⟨hflags, hpresent⟩ := pteFlags_ok prot
    obtain ⟨hinv3, hsteady⟩ := mapPages_spec hloop hinv2 hm2 (by simpa using halign)
      (by omega) (fun p hp f hf => habsent p hp f ((hfacts.own _ f).mp ((hown2 _ f).mp hf)))
      hflags hpresent
    have hr3 := hsteady.regionInv hr2
    have hm3 : s3.mmUsed m = true := by rw [hsteady.mmUsed]; exact hm2
    have hnot3 : ∀ m, s3.mmUsed m = true → v ∉ lists m := by rw [hsteady.mmUsed]; exact hnot2
    have hslot3 : (s3.vmas v).slotId = v := by rw [hsteady.vmas]; exact hslot2
    have hused3 : s3.mmUsed = s.mmUsed := hsteady.mmUsed.trans hused2
    have hcr33 : s3.paging.cr3 = s.paging.cr3 := hsteady.cr3.trans hcr32
    dsimp only at hret
    split at hret
    · obtain ⟨s4, hins, hret⟩ := bind_eq_ok.mp hret
      obtain ⟨s4', l₁, l₂, heq, hinserted⟩ := vmaInsert_spec hr3 hm3 (hnot3 m hm3)
      rw [heq] at hins
      obtain rfl := Except.ok.inj hins
      simp only [Except.ok.injEq, Prod.mk.injEq] at hret
      obtain ⟨-, rfl⟩ := hret
      refine ⟨(hinserted.relinked.frameInv hinv3).1, ⟨_, hinserted.regionInv hr3 hm3 ?_ hnew.lt
        hslot3 hnot3⟩, hinserted.relinked.mmUsed.trans hused3, ?_⟩
      · rw [hsteady.vmaUsed]
        exact hvused2
      · rw [hinserted.relinked.paging]
        exact hcr33
    · rw [vmaRemove_of_notMem hr3 hm3 (hnot3 m hm3)] at hret
      obtain ⟨s4, hrem, hret⟩ := bind_eq_ok.mp hret
      obtain rfl := Except.ok.inj hrem
      simp only [Except.ok.injEq, Prod.mk.injEq] at hret
      obtain ⟨-, rfl⟩ := hret
      exact ⟨(hinv3.congr (t := vmaFree s3 v) rfl rfl rfl fun m => ⟨_, rfl⟩).1,
        ⟨_, regionInv_vmaFree hr3 hslot3 hnot3⟩, hused3, hcr33⟩

end Unidos.Mm
