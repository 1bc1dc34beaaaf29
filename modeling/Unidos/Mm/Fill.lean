import Unidos.Mm.Regions

/-!
# Filling in tables and pages

The two steps that mapping and cloning share: enter a cleared page table into a directory
(`newTable`), and enter a page into a page table (`newPage`). Both say who owns what afterwards,
which entry was written, and that all other owned frames keep their contents.
-/

namespace Unidos.Mm

open Lib

/-- The states agree on everything but memory, the memory manager, and the page counters, and no
frame was given back. -/
structure Steady (s t : State) : Prop where
  mms : ∀ m, ∃ n, t.mms m = { s.mms m with pageCount := n }
  mmUsed : t.mmUsed = s.mmUsed
  vmas : t.vmas = s.vmas
  vmaUsed : t.vmaUsed = s.vmaUsed
  cr3 : t.paging.cr3 = s.paging.cr3
  taken : ∀ f, s.Taken f → t.Taken f

variable {B : Nat → Prop} {l : List Nat} {s t u : State} {lists : Nat → List Nat}

namespace Steady

theorem refl (s : State) : Steady s s :=
  ⟨fun _ => ⟨_, rfl⟩, rfl, rfl, rfl, rfl, fun _ hf => hf⟩

theorem trans (h : Steady s t) (h' : Steady t u) : Steady s u := by
  refine ⟨fun m => ?_, h'.mmUsed.trans h.mmUsed, h'.vmas.trans h.vmas,
    h'.vmaUsed.trans h.vmaUsed, h'.cr3.trans h.cr3, fun f hf => h'.taken f (h.taken f hf)⟩
  obtain ⟨n, hn⟩ := h.mms m
  obtain ⟨n', hn'⟩ := h'.mms m
  exact ⟨n', by rw [hn', hn]⟩

theorem ofCalm (h : Calm l s t) : Steady s t :=
  ⟨fun m => ⟨(s.mms m).pageCount, by rw [h.mms]⟩, h.mmUsed, h.vmas, h.vmaUsed, h.cr3, h.taken⟩

theorem dirFrame (h : Steady s t) (m : Nat) : t.dirFrame m = s.dirFrame m := by
  obtain ⟨n, hn⟩ := h.mms m
  rw [State.dirFrame, hn, State.dirFrame]

theorem vmaHead (h : Steady s t) (m : Nat) : (t.mms m).vmaHead = (s.mms m).vmaHead := by
  obtain ⟨n, hn⟩ := h.mms m
  rw [hn]

theorem regionInv (h : Steady s t) (hr : RegionInv s lists) : RegionInv t lists :=
  hr.congr (fun m _ => h.vmaHead m) h.mmUsed h.vmas h.vmaUsed

end Steady

/-- Entries for frames: present if the flags say so, and they name the frame. -/
theorem mkEntry_frame (h : FrameInv B l s) {f : Nat} (hf : s.Taken f) {flags : BitVec 32}
    (hflags : flags.toNat < 4096) : entryFrame (mkEntry (4096 * f) flags) = f := by
  have hlt := h.sound.toInv.lt_pow hf.1
  rw [entryFrame_mkEntry (by omega) (by omega) hflags]
  omega

/-! ## Tables -/

/-- A cleared page table in frame `f` was entered into the directory of `m`. -/
structure NewTable (s t : State) (m i f : Nat) (entry : BitVec 32) : Prop where
  steady : Steady s t
  free : ¬ s.Taken f
  own : ∀ k g, t.Own k g ↔ s.Own k g ∨ (k = (m, .table i) ∧ g = f)
  entry : tableEntry t.mem (s.dirFrame m) i = entry
  entry_ne : ∀ j, j < 1024 → j ≠ i →
    tableEntry t.mem (s.dirFrame m) j = tableEntry s.mem (s.dirFrame m) j
  empty : ∀ j, j < 1024 → tableEntry t.mem f j = 0
  mem : ∀ k g, s.Own k g → g ≠ s.dirFrame m → AgreeOn s.mem t.mem g

theorem newTable {f m i : Nat} {pmm : Pmm.State} (flags : BitVec 32) (h : FrameInv B l s)
    (htook : Pmm.Took s.paging.pmm f pmm) (hm : s.mmUsed m = true) (hi : i < maxPde)
    (habsent : entryPresent (tableEntry s.mem (s.dirFrame m) i) = false)
    (hflags : flags.toNat < 4096) (hpresent : entryPresent flags = true) :
    FrameInv B l (((s.withPmm pmm).withMem (pmm.mem.fillBytes (4096 * f) 4096 0)).withMem
      (setEntry (pmm.mem.fillBytes (4096 * f) 4096 0) (s.dirFrame m) i
        (mkEntry (4096 * f) flags))) ∧
    NewTable s (((s.withPmm pmm).withMem (pmm.mem.fillBytes (4096 * f) 4096 0)).withMem
      (setEntry (pmm.mem.fillBytes (4096 * f) 4096 0) (s.dirFrame m) i
        (mkEntry (4096 * f) flags))) m i f (mkEntry (4096 * f) flags) := by
  obtain ⟨hinv1, hfree⟩ := h.take htook
  have hfl : f ∉ l := fun hl => hfree (h.ledger.loose_taken f hl).1
  have hcalm1 := Calm.take h htook
  obtain ⟨hinv2, hcalm2⟩ := Calm.writeLoose hinv1 hfl (changesOnly_fillBytes pmm.mem f 0)
  have hcalm := hcalm1.trans hcalm2 fun _ hg => hg
  have hdir : s.Own (m, .dir) (s.dirFrame m) := ⟨hm, rfl⟩
  have hi' := lt_of_lt_of_le hi maxPde_le
  have hzero : ∀ j, j < 1024 →
      tableEntry (pmm.mem.fillBytes (4096 * f) 4096 0) f j = 0 := fun j hj =>
    Memory.readWord_fillBytes_zero _ (by omega) (by omega)
  have hsame : ∀ j, j < 1024 → tableEntry (pmm.mem.fillBytes (4096 * f) 4096 0) (s.dirFrame m) j =
      tableEntry s.mem (s.dirFrame m) j := fun j hj => (hcalm.own_mem _ _ hdir).tableEntry hj
  have hfd : f ≠ s.dirFrame m := fun heq => hfree (heq ▸ (h.ledger.owned _ _ hdir).1)
  have hframe := mkEntry_frame hinv2 (hinv2.ledger.loose_taken f (by simp)).1 hflags
  have hwpresent : entryPresent (mkEntry (4096 * f) flags) = true := by
    rw [entryPresent_mkEntry (by omega), hpresent]
  obtain ⟨hinv3, hown⟩ := hinv2.giveTable (m := m) (i := i) hfl hm hi
    ((congrArg entryPresent (hsame i hi')).trans habsent)
    (fun j hj => by
      rw [State.mem_withMem, hzero j hj]
      decide) hwpresent hframe
  refine ⟨hinv3, (Steady.ofCalm hcalm).trans ⟨fun _ => ⟨_, rfl⟩, rfl, rfl, rfl, rfl, ?_⟩, hfree,
    fun k g => ?_, tableEntry_setEntry_same _ _ _ _, fun j hj hji => ?_, fun j hj => ?_,
    fun k g hk hne => ?_⟩
  · exact fun g hg => (hinv2.taken_setEntry ((hcalm.own _ _).mpr hdir) hi' _ g).mpr hg
  · refine (hown k g).trans ?_
    rw [hcalm.own k g]
  · exact (tableEntry_setEntry_ne _ _ hji).trans (hsame j hj)
  · exact ((agreeOn_setEntry _ _ hi' hfd).tableEntry hj).trans (hzero j hj)
  · exact (hcalm.own_mem k g hk).trans (agreeOn_setEntry _ _ hi' hne)

/-- The entries of all owned frames are as before. -/
theorem NewTable.roleEntry_eq {m i f : Nat} {entry : BitVec 32} (h : NewTable s t m i f entry)
    (hs : FrameInv B l s) {m' g : Nat} {r : Role} (hown : s.Own (m', r) g) :
    roleEntry t.mem (s.dirFrame m') r = roleEntry s.mem (s.dirFrame m') r := by
  have hdir : ∀ k d, s.Own (m', .table k) d →
      tableEntry t.mem (s.dirFrame m') k = tableEntry s.mem (s.dirFrame m') k := by
    intro k d hk
    have hk' : k < 1024 := lt_of_lt_of_le hk.2.1 maxPde_le
    have hown' : s.Own (m', .dir) (s.dirFrame m') := ⟨hk.1, rfl⟩
    by_cases heq : s.dirFrame m' = s.dirFrame m
    · rw [heq]
      refine h.entry_ne k hk' ?_
      rintro rfl
      -- the entry was absent: otherwise the new table would be one that was there before
      have hm : t.Own (m, .table k) f := (h.own _ _).mpr (.inr ⟨rfl, rfl⟩)
      have hd : t.Own (m, .table k) d := by
        refine (h.own _ _).mpr (.inl ⟨?_, ?_⟩)
        · have := hm.1
          rwa [h.steady.mmUsed] at this
        · rw [← heq]
          exact hk.2
      have hdf : d = f := Owns.unique_frame hd.2 hm.2
      exact h.free (hdf ▸ (hs.ledger.owned _ _ hk).1)
    · exact (h.mem _ _ hown' heq).tableEntry hk'
  cases r with
  | dir => rfl
  | table k => exact hdir k g hown
  | page k j =>
      have htable : s.Own (m', .table k) _ := ⟨hown.1, hown.2.table_of_page⟩
      simp only [roleEntry]
      rw [hdir k _ htable]
      refine (h.mem _ _ htable ?_).tableEntry hown.2.2.1
      intro heq
      have hm : s.mmUsed m = true := by
        have := ((h.own (m, .table i) f).mpr (.inr ⟨rfl, rfl⟩)).1
        rwa [h.steady.mmUsed] at this
      have hkey := hs.ledger.unique (m', .table k) (m, .dir) _ htable ⟨hm, heq⟩
      simp at hkey

/-! ## Pages -/

/-- A page in frame `f` was entered into the page table in frame `d`, and `m` counts it. -/
structure NewPage (s t : State) (m i j d f : Nat) (entry : BitVec 32) : Prop where
  steady : Steady s t
  own : ∀ k g, t.Own k g ↔ s.Own k g ∨ (k = (m, .page i j) ∧ g = f)
  entry : tableEntry t.mem d j = entry
  entry_ne : ∀ j', j' ≠ j → tableEntry t.mem d j' = tableEntry s.mem d j'
  mem : ∀ g, g ≠ d → AgreeOn s.mem t.mem g

theorem countPage_steady (s : State) (m : Nat) : Steady s (s.countPage m) := by
  refine ⟨fun m' => ?_, rfl, rfl, rfl, rfl, fun _ hf => hf⟩
  by_cases hmm : m' = m
  · subst hmm
    exact ⟨_, Function.update_self _ _ _⟩
  · exact ⟨_, Function.update_of_ne hmm _ _⟩

theorem newPage {f m i j d : Nat} {flags : BitVec 32} (h : FrameInv B (f :: l) s) (hf : f ∉ l)
    (hd : s.Own (m, .table i) d) (hj : j < 1024)
    (habsent : entryPresent (tableEntry s.mem d j) = false)
    (hflags : flags.toNat < 4096) (hpresent : entryPresent flags = true) :
    FrameInv B l ((s.withMem (setEntry s.mem d j (mkEntry (4096 * f) flags))).countPage m) ∧
    NewPage s ((s.withMem (setEntry s.mem d j (mkEntry (4096 * f) flags))).countPage m) m i j d f
      (mkEntry (4096 * f) flags) := by
  have hframe := mkEntry_frame h (h.ledger.loose_taken f (by simp)).1 hflags
  have hwpresent : entryPresent (mkEntry (4096 * f) flags) = true := by
    rw [entryPresent_mkEntry (by omega), hpresent]
  obtain ⟨hinv, hown⟩ := h.givePage hf hd hj habsent hwpresent hframe
  have hwrite : Steady s (s.withMem (setEntry s.mem d j (mkEntry (4096 * f) flags))) :=
    ⟨fun _ => ⟨_, rfl⟩, rfl, rfl, rfl, rfl, fun g hg => (h.taken_setEntry hd hj _ g).mpr hg⟩
  exact ⟨hinv, hwrite.trans (countPage_steady _ m), hown, tableEntry_setEntry_same _ _ _ _,
    fun j' hj' => tableEntry_setEntry_ne _ _ hj', fun g hg => agreeOn_setEntry _ _ hj hg⟩

/-- The entries of all owned frames are as before. -/
theorem NewPage.roleEntry_eq {m i j d f : Nat} {entry : BitVec 32}
    (h : NewPage s t m i j d f entry) (hs : FrameInv B (f :: l) s) (hd : s.Own (m, .table i) d)
    {m' g : Nat} {r : Role} (hown : s.Own (m', r) g) :
    roleEntry t.mem (s.dirFrame m') r = roleEntry s.mem (s.dirFrame m') r := by
  have hdir : ∀ k e, s.Own (m', .table k) e →
      tableEntry t.mem (s.dirFrame m') k = tableEntry s.mem (s.dirFrame m') k := by
    intro k e hk
    refine (h.mem _ ?_).tableEntry (lt_of_lt_of_le hk.2.1 maxPde_le)
    intro heq
    have hkey := hs.ledger.unique (m', .dir) (m, .table i) _ ⟨hk.1, rfl⟩ (heq ▸ hd)
    simp at hkey
  cases r with
  | dir => rfl
  | table k => exact hdir k g hown
  | page k j' =>
      have htable : s.Own (m', .table k) _ := ⟨hown.1, hown.2.table_of_page⟩
      simp only [roleEntry]
      rw [hdir k _ htable]
      by_cases heq : entryFrame (tableEntry s.mem (s.dirFrame m') k) = d
      · have hkey := hs.ledger.unique (m', .table k) (m, .table i) d (heq ▸ htable) hd
        simp only [Prod.mk.injEq, Role.table.injEq] at hkey
        obtain ⟨rfl, rfl⟩ := hkey
        rw [heq]
        refine h.entry_ne j' ?_
        rintro rfl
        -- the entry was absent: otherwise the frame in flight would be owned
        have hf : t.Own (m', .page k j') f := (h.own _ _).mpr (.inr ⟨rfl, rfl⟩)
        have hg : t.Own (m', .page k j') g := (h.own _ _).mpr (.inl hown)
        have hgf : g = f := Owns.unique_frame hg.2 hf.2
        exact (hs.ledger.owned _ _ hown).2.2 (by simp [hgf])
      · exact (h.mem _ heq).tableEntry hown.2.2.1

/-- Writing into a page leaves the books alone. -/
theorem writePage {m i j f : Nat} {mem : Memory} (h : FrameInv B l s)
    (hf : s.Own (m, .page i j) f) (hmem : ChangesOnly s.mem mem f) :
    FrameInv B l (s.withMem mem) ∧ Steady s (s.withMem mem) ∧
      ∀ k g, (s.withMem mem).Own k g ↔ s.Own k g := by
  obtain ⟨hinv, hown⟩ := h.write (h.page_not_fixed hf) hmem
  refine ⟨hinv, ⟨fun _ => ⟨_, rfl⟩, rfl, rfl, rfl, rfl, fun g hg => ⟨hg.1, ?_⟩⟩, hown⟩
  refine (h.sound.bit_withMem _ (fun g' hg' => ?_) hg.1).trans hg.2
  exact hmem g' fun heq => h.own_not_bitmap hf (heq ▸ hg')

end Unidos.Mm
