import Unidos.Mm.Regions

/-!
# Destroying an address space

`mm_destroy` walks the user half of the directory and gives back every page, every page table,
and the directory. Giving back a frame changes nothing but its bit, so the walk reads the tables
as they were at the start; `Freed` is the invariant of its loops. `mmDestroy_spec` says that the
frames given back are exactly those the address space owned, and `mmDestroy_ok` that the call
returns if the window reaches all of memory.
-/

namespace Unidos.Mm

open Lib

/-- The frames that `m` owns in the roles of `done` have been given back, and no others. -/
structure Freed (s : State) (m : Nat) (done : Role → Prop) (pmm : Pmm.State) : Prop where
  bits : Pmm.BitsOnly s.paging.pmm pmm
  sound : pmm.Sound
  set : ∀ g, pmm.bit g = true ↔
    s.paging.pmm.bit g = true ∧ ¬ ∃ r, done r ∧ s.Own (m, r) g

variable {B : Nat → Prop} {l : List Nat} {s t : State} {lists : Nat → List Nat} {m : Nat}
  {done done' : Role → Prop} {pmm pmm' : Pmm.State}

namespace Freed

theorem start (h : FrameInv B l s) (m : Nat) : Freed s m (fun _ => False) s.paging.pmm :=
  ⟨Pmm.BitsOnly.refl _, h.sound, by simp⟩

theorem congr (h : Freed s m done pmm)
    (hdone : ∀ r g, s.Own (m, r) g → (done' r ↔ done r)) : Freed s m done' pmm := by
  refine ⟨h.bits, h.sound, fun g => (h.set g).trans (and_congr_right fun _ => not_congr ?_)⟩
  constructor
  · rintro ⟨r, hr, hown⟩
    exact ⟨r, (hdone r g hown).mpr hr, hown⟩
  · rintro ⟨r, hr, hown⟩
    exact ⟨r, (hdone r g hown).mp hr, hown⟩

/-- Give back one more frame. -/
theorem free (h : Freed s m done pmm) (hs : FrameInv B l s) {r : Role} {f : Nat}
    (hown : s.Own (m, r) f) (hr : ¬ done r) :
    Freed s m (fun r' => done r' ∨ r' = r) (Pmm.pmmDeallocSpecificBlock pmm (4096 * f)).2 := by
  have hlt : f < pmm.frameCount := h.bits.count ▸ (hs.ledger.owned _ f hown).1.1
  have hset : pmm.bit f = true := by
    refine (h.set f).mpr ⟨(hs.ledger.owned _ f hown).1.2, ?_⟩
    rintro ⟨r', hr', hown'⟩
    have hkey := (Prod.mk.inj (hs.ledger.unique _ _ f hown' hown)).2
    exact hr (hkey ▸ hr')
  obtain ⟨pmm', heq, hbits, hsound, hbit⟩ := Pmm.dealloc_spec h.sound hlt hset
    (fun hres => hs.own_reserved _ f hown ((h.bits.frameReserved f).mp hres))
    (fun hb => hs.own_not_bitmap hown ((h.bits.holdsBitmap f).mp hb))
  rw [heq]
  refine ⟨h.bits.trans hbits, hsound, fun g => ?_⟩
  rw [hbit g]
  simp only [Bool.and_eq_true, Bool.not_eq_true', decide_eq_false_iff_not, h.set g]
  constructor
  · rintro ⟨hgf, hg, hno⟩
    refine ⟨hg, ?_⟩
    rintro ⟨r', hr' | rfl, hown'⟩
    · exact hno ⟨r', hr', hown'⟩
    · exact hgf (Owns.unique_frame hown'.2 hown.2)
  · rintro ⟨hg, hno⟩
    refine ⟨?_, hg, fun ⟨r', hr', hown'⟩ => hno ⟨r', .inl hr', hown'⟩⟩
    rintro rfl
    exact hno ⟨r, .inr rfl, hown⟩

/-- The walk reads directories and page tables as they were. -/
theorem entry (h : Freed s m done pmm) (hs : FrameInv B l s) {r : Role} {d i : Nat}
    (hown : s.Own (m, r) d) (hi : i < 1024) :
    pmm.mem.readWord (4096 * d + 4 * i) = tableEntry s.mem d i :=
  (h.bits.agreeOn hs.sound.toInv (hs.own_not_bitmap hown)).tableEntry hi

end Freed

theorem freePages_spec {i d : Nat} (hs : FrameInv B l s) (h : Freed s m (Role.before i) pmm)
    (hd : s.Own (m, .table i) d) : Freed s m (Role.walked i 1024) (freePages (4096 * d) pmm) := by
  have hpage : ∀ j f, s.Own (m, .page i j) f ↔ j < 1024 ∧
      entryPresent (tableEntry s.mem d j) = true ∧ f = entryFrame (tableEntry s.mem d j) := by
    intro j f
    obtain ⟨hm, hi, hp, heq⟩ := hd
    simp only [State.Own, hm, true_and, Owns, hi, hp, heq]
  unfold freePages
  refine foldl_range (I := fun n pmm => Freed s m (Role.walked i n) pmm) ?_
    (h.congr fun r g _ => r.walked_zero i)
  intro j pmm hj h
  rw [h.entry hs hd hj]
  dsimp only
  split
  · rename_i hp
    have hown : s.Own (m, .page i j) (entryFrame (tableEntry s.mem d j)) :=
      (hpage j _).mpr ⟨hj, hp, rfl⟩
    rw [entryPhys_eq]
    exact (h.free hs hown (Role.not_walked_page i j)).congr fun r g _ => r.walked_succ i j
  · rename_i hp
    refine h.congr fun r g hown => (r.walked_succ i j).trans (or_iff_left ?_)
    rintro rfl
    exact hp ((hpage j g).mp hown).2.1

/-- One round of the walk. -/
theorem freeTable_spec {i : Nat} (hret : freeTable (4096 * s.dirFrame m) pmm i = .ok pmm')
    (hs : FrameInv B l s) (hm : s.mmUsed m = true) (hi : i < maxPde)
    (h : Freed s m (Role.before i) pmm) : Freed s m (Role.before (i + 1)) pmm' := by
  have hdir : s.Own (m, .dir) (s.dirFrame m) := ⟨hm, rfl⟩
  unfold freeTable at hret
  rw [h.entry hs hdir (lt_of_lt_of_le hi maxPde_le)] at hret
  dsimp only at hret
  split at hret
  · rename_i habsent
    rw [← Except.ok.inj hret]
    exact h.congr fun r g hown => Role.before_skip hown.2 habsent
  · rename_i hpresent
    obtain ⟨pt, hpt, hret⟩ := bind_eq_ok.mp hret
    have htable : s.Own (m, .table i) (entryFrame (tableEntry s.mem (s.dirFrame m) i)) :=
      ⟨hm, hi, by simpa using hpresent, rfl⟩
    rw [Paging.physToVirt_eq_ok hpt, entryPhys_eq] at hret
    rw [← Except.ok.inj hret]
    exact ((freePages_spec hs h htable).free hs htable (Role.not_walked_table i 1024)).congr
      fun r g hown => Role.before_succ hown.2

theorem freeTable_ok {i : Nat} (hs : FrameInv B l s) (hm : s.mmUsed m = true) (hi : i < maxPde)
    (h : Freed s m (Role.before i) pmm) (hwindow : s.paging.pmm.frameCount ≤ 0x30000) :
    ∃ pmm', freeTable (4096 * s.dirFrame m) pmm i = .ok pmm' := by
  have hdir : s.Own (m, .dir) (s.dirFrame m) := ⟨hm, rfl⟩
  unfold freeTable
  rw [h.entry hs hdir (lt_of_lt_of_le hi maxPde_le)]
  dsimp only
  split
  · exact ⟨_, rfl⟩
  · rename_i hpresent
    have htable : s.Own (m, .table i) (entryFrame (tableEntry s.mem (s.dirFrame m) i)) :=
      ⟨hm, hi, by simpa using hpresent, rfl⟩
    have hlt := (hs.ledger.owned _ _ htable).1.1
    rw [entryPhys_eq, Paging.physToVirt_of_lt (by omega)]
    exact ⟨_, rfl⟩

/-! ## The whole call -/

/-- What `mm_destroy` does. -/
structure Destroyed (s t : State) (m : Nat) : Prop where
  own : ∀ k f, t.Own k f ↔ s.Own k f ∧ k.1 ≠ m
  taken : ∀ f, t.Taken f ↔ s.Taken f ∧ ¬ ∃ r, s.Own (m, r) f
  mmUsed : t.mmUsed = Function.update s.mmUsed m false
  mms : ∀ m', m' ≠ m → t.mms m' = s.mms m'
  cr3 : t.paging.cr3 = s.paging.cr3
  vmas : t.vmas = s.vmas
  own_mem : ∀ k f, s.Own k f → AgreeOn s.mem t.mem f

/-- The state once the walk is over and the slot is free. -/
def State.released (s : State) (m : Nat) (pmm : Pmm.State) : State :=
  { s.withPmm pmm with mmUsed := Function.update s.mmUsed m false }

theorem released_spec (hs : FrameInv B l s) (h : Freed s m (fun _ => True) pmm) :
    FrameInv B l (s.released m pmm) ∧ Destroyed s (s.released m pmm) m := by
  have hagree : ∀ k f, s.Own k f → AgreeOn s.mem pmm.mem f :=
    fun k f hk => h.bits.agreeOn hs.sound.toInv (hs.own_not_bitmap hk)
  have hused : ∀ m', (s.released m pmm).mmUsed m' = true ↔ s.mmUsed m' = true ∧ m' ≠ m := by
    intro m'
    change Function.update s.mmUsed m false m' = true ↔ _
    by_cases hmm : m' = m
    · subst hmm
      simp
    · rw [Function.update_of_ne hmm]
      simp [hmm]
  have hdir : ∀ m', (s.released m pmm).dirFrame m' = s.dirFrame m' := fun _ => rfl
  have howns : ∀ m' r f, s.mmUsed m' = true →
      (Owns maxPde pmm.mem (s.dirFrame m') r f ↔ Owns maxPde s.mem (s.dirFrame m') r f) := by
    intro m' r f hm'
    refine owns_congr maxPde_le (fun g hg => ?_) r f
    rcases hg with hd | ⟨i, htable⟩
    · exact hagree (m', .dir) g ⟨hm', hd⟩
    · exact hagree (m', .table i) g ⟨hm', htable⟩
  have hown : ∀ k f, (s.released m pmm).Own k f ↔ s.Own k f ∧ k.1 ≠ m := by
    rintro ⟨m', r⟩ f
    unfold State.Own
    rw [hused]
    by_cases hmm : m' = m
    · simp [hmm]
    · rw [hdir]
      constructor
      · rintro ⟨⟨hm', -⟩, ho⟩
        exact ⟨⟨hm', (howns m' r f hm').mp ho⟩, hmm⟩
      · rintro ⟨⟨hm', ho⟩, -⟩
        exact ⟨⟨hm', hmm⟩, (howns m' r f hm').mpr ho⟩
  have htaken : ∀ f, (s.released m pmm).Taken f ↔ s.Taken f ∧ ¬ ∃ r, s.Own (m, r) f := by
    intro f
    change f < pmm.frameCount ∧ pmm.bit f = true ↔ _
    rw [h.bits.count, h.set f]
    simp only [State.Taken, true_and, and_assoc]
  have hledger : Ledger (s.released m pmm).Own (s.released m pmm).Taken (s.Stock B)
      (· ∈ l) := by
    refine hs.ledger.release (fun k => k.1 = m) hown fun f => (htaken f).trans ?_
    refine and_congr_right fun _ => not_congr ?_
    constructor
    · rintro ⟨r, hr⟩
      exact ⟨(m, r), rfl, hr⟩
    · rintro ⟨⟨m', r⟩, rfl, hr⟩
      exact ⟨r, hr⟩
  refine ⟨⟨h.sound, hs.tables.withPmm fun d hd => ?_, hledger, fun m' hm' => ?_, fun f hf hb => ?_,
    hs.zero_stock, fun f hf hb => ?_, fun k f hk hr => ?_, fun f hf hr => ?_⟩,
    hown, htaken, rfl, fun _ _ => rfl, rfl, rfl, hagree⟩
  · exact h.bits.agreeOn hs.sound.toInv (hs.kernel_bitmap d (.inl hd))
  · obtain ⟨hm', hmm⟩ := (hused m').mp hm'
    obtain ⟨hlt, hslot, hbase, hlimit, hcr3, hpages⟩ := hs.records m' hm'
    exact ⟨hlt, hslot, hbase, hlimit, hcr3,
      hpages.trans (pageCount_congr fun i j f => howns m' (.page i j) f hm').symm⟩
  · exact hs.bitmap_stock f (h.bits.count ▸ hf) ((h.bits.holdsBitmap f).mp hb)
  · exact hs.kernel_bitmap f hf ((h.bits.holdsBitmap f).mp hb)
  · exact hs.own_reserved k f ((hown k f).mp hk).1 ((h.bits.frameReserved f).mp hr)
  · exact hs.loose_reserved f hf ((h.bits.frameReserved f).mp hr)

/-- The state after the walk and the release of the directory. -/
theorem Freed.all (hs : FrameInv B l s) (hm : s.mmUsed m = true)
    (h : Freed s m (Role.before maxPde) pmm) :
    Freed s m (fun _ => True)
      (Pmm.pmmDeallocSpecificBlock pmm (4096 * s.dirFrame m)).2 := by
  have hdir : s.Own (m, .dir) (s.dirFrame m) := ⟨hm, rfl⟩
  refine (h.free hs hdir (by simp [Role.before])).congr fun r g hown => ?_
  rw [Role.before_all hown.2]
  tauto

theorem destroyFrames_spec (hret : destroyFrames s m = .ok t) (hs : FrameInv B l s)
    (hm : s.mmUsed m = true) : FrameInv B l t ∧ Destroyed s t m ∧ t.vmaUsed = s.vmaUsed ∧
      t.mms = s.mms := by
  obtain ⟨hlt, hslot, -, -, hcr3, -⟩ := hs.records m hm
  have hge : ¬ m ≥ mmSlots := by omega
  unfold destroyFrames at hret
  obtain ⟨pd, hpd, hret⟩ := bind_eq_ok.mp hret
  obtain ⟨pmm, hloop, hret⟩ := bind_eq_ok.mp hret
  rw [Paging.physToVirt_eq_ok hpd, hcr3] at hloop
  have hstart : Freed s m (Role.before 0) s.paging.pmm :=
    (Freed.start hs m).congr fun r _ _ => iff_of_false r.not_before_zero id
  have hfreed := foldlM_range (I := fun i pmm => Freed s m (Role.before i) pmm)
    (fun i _ _ hi h hstep => freeTable_spec hstep hs hm hi h) hstart hloop
  have heq : s.released m (Pmm.pmmDeallocSpecificBlock pmm (4096 * s.dirFrame m)).2 = t := by
    rw [← Except.ok.inj hret, hcr3]
    simp only [State.released, dpageBmClear, State.mms_withPmm, hslot, hge, if_false]
    rfl
  obtain ⟨hinv, hdestroyed⟩ := released_spec hs (hfreed.all hs hm)
  rw [heq] at hinv hdestroyed
  exact ⟨hinv, hdestroyed, by rw [← heq]; rfl, by rw [← heq]; rfl⟩

/-- The state after `vma_destroy_all`. -/
theorem destroyAll_frameInv (hs : FrameInv B l s) (m : Nat) (vs : List Nat) :
    FrameInv B l ({ s with vmaUsed := fun v => s.vmaUsed v && decide (v ∉ vs) }.setMm m
      { s.mms m with vmaHead := none }) ∧ ∀ k f, State.Own
        ({ s with vmaUsed := fun v => s.vmaUsed v && decide (v ∉ vs) }.setMm m
          { s.mms m with vmaHead := none }) k f ↔ s.Own k f := by
  refine hs.congr rfl rfl rfl fun m' => ?_
  by_cases hmm : m' = m
  · subst hmm
    exact ⟨none, Function.update_self _ _ _⟩
  · exact ⟨_, Function.update_of_ne hmm _ _⟩

theorem mmDestroy_spec (hret : mmDestroy s (some m) = .ok t) (hs : FrameInv B l s)
    (hr : RegionInv s lists) (hm : s.mmUsed m = true) :
    FrameInv B l t ∧ Destroyed s t m ∧ RegionInv t (Function.update lists m []) := by
  unfold mmDestroy at hret
  dsimp only at hret
  split at hret
  · simp at hret
  obtain ⟨u, hu, hret⟩ := bind_eq_ok.mp hret
  rw [vmaDestroyAll_spec hr hm] at hu
  obtain ⟨hinv, hown⟩ := destroyAll_frameInv hs m (lists m)
  have hregions := hr.destroyAll hm
  have hu := Except.ok.inj hu
  rw [hu] at hinv hown hregions
  have humm : u.mmUsed = s.mmUsed := by rw [← hu]; rfl
  have hupaging : u.paging = s.paging := by rw [← hu]; rfl
  have humem : u.mem = s.mem := by rw [State.mem, hupaging, State.mem]
  have humms : ∀ m', m' ≠ m → u.mms m' = s.mms m' := fun m' hmm => by
    rw [← hu]
    exact Function.update_of_ne hmm _ _
  obtain ⟨hinv', hdes, hvma, hmms⟩ := destroyFrames_spec hret hinv (humm ▸ hm)
  have hsub : ∀ m', t.mmUsed m' = true → u.mmUsed m' = true := by
    intro m' hm'
    rw [hdes.mmUsed] at hm'
    by_cases hmm : m' = m
    · rw [hmm, humm]
      exact hm
    · rwa [Function.update_of_ne hmm] at hm'
  have hnext : t.vmaNext = u.vmaNext := by
    funext v
    rw [State.vmaNext, hdes.vmas, State.vmaNext]
  refine ⟨hinv', ⟨fun k f => ?_, fun f => ?_, ?_, fun m' hmm => ?_, ?_, ?_, fun k f hk => ?_⟩,
    fun m' hm' => ?_, fun m' hm' v hv => ?_,
    fun m' m'' hm' hm'' => hregions.disjoint m' m'' (hsub m' hm') (hsub m'' hm'')⟩
  · rw [hdes.own, hown]
  · rw [hdes.taken]
    simp only [hown, State.Taken, hupaging]
  · rw [hdes.mmUsed, humm]
  · rw [hmms, humms m' hmm]
  · rw [hdes.cr3, hupaging]
  · rw [hdes.vmas, ← hu]
    rfl
  · rw [← humem]
    exact hdes.own_mem k f ((hown k f).mpr hk)
  · rw [hnext, hmms]
    exact hregions.chain m' (hsub m' hm')
  · rw [hvma, hdes.vmas]
    exact hregions.used m' (hsub m' hm') v hv

/-- The call returns if the window reaches all of memory. -/
theorem mmDestroy_ok (hs : FrameInv B l s) (hr : RegionInv s lists) (hm : s.mmUsed m = true)
    (hactive : s.paging.cr3 / 4096 * 4096 ≠ (s.mms m).cr3Phys)
    (hwindow : s.paging.pmm.frameCount ≤ 0x30000) : ∃ t, mmDestroy s (some m) = .ok t := by
  unfold mmDestroy
  simp only [hactive, if_false, vmaDestroyAll_spec hr hm]
  obtain ⟨hinv, -⟩ := destroyAll_frameInv hs m (lists m)
  generalize hu : ({ s with vmaUsed := fun v => s.vmaUsed v && decide (v ∉ lists m) }.setMm m
      { s.mms m with vmaHead := none } : State) = u at hinv
  have hum : u.mmUsed m = true := by rw [← hu]; exact hm
  have hwin : u.paging.pmm.frameCount ≤ 0x30000 := by rw [← hu]; exact hwindow
  have hdir : u.Own (m, .dir) (u.dirFrame m) := ⟨hum, rfl⟩
  have hlt := (hinv.ledger.owned _ _ hdir).1.1
  have hstart : Freed u m (Role.before 0) u.paging.pmm :=
    (Freed.start hinv m).congr fun r _ _ => iff_of_false r.not_before_zero id
  obtain ⟨pmm, hloop, -⟩ := foldlM_range_ok (I := fun i pmm => Freed u m (Role.before i) pmm)
    (fun i pmm hi h => by
      obtain ⟨pmm', hok⟩ := freeTable_ok hinv hum hi h hwin
      exact ⟨pmm', hok, freeTable_spec hok hinv hum hi h⟩) hstart
  refine ⟨_, bind_eq_ok.mpr ⟨u, rfl, bind_eq_ok.mpr ⟨4096 * u.dirFrame m, ?_,
    bind_eq_ok.mpr ⟨pmm, hloop, rfl⟩⟩⟩⟩
  rw [(hinv.records m hum).cr3]
  exact Paging.physToVirt_of_lt (by omega)

end Unidos.Mm
