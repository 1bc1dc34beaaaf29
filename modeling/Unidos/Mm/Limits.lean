import Unidos.Mm.Runs

/-!
# Mapping inside the user half

`mm_map_region` checks the end of the range in 32-bit arithmetic. As long as `va_start + size` does
not wrap around, a call writes the user half of the directory, the page tables behind it, and
frames that were free (`Inside`). A range that wraps around passes the check and is mapped over the
kernel half. `mmMapRegion_stays` puts the two together.
-/

namespace Unidos.Mm

open Lib

/-- What `mm_map_region` relies on in the address space it works on. -/
structure State.Live (s : State) (m : Nat) : Prop where
  sound : s.paging.pmm.Sound
  userBase : (s.mms m).userBase = 0
  userLimit : (s.mms m).userLimit = kernelVirtualBase
  cr3 : (s.mms m).cr3Phys = 4096 * s.dirFrame m
  dir_taken : s.Taken (s.dirFrame m)
  dir_bitmap : ¬ s.paging.pmm.HoldsBitmap (s.dirFrame m)
  table_taken : ∀ i, i < maxPde → entryPresent (tableEntry s.mem (s.dirFrame m) i) = true →
    s.Taken (entryFrame (tableEntry s.mem (s.dirFrame m) i))
  table_bitmap : ∀ i, i < maxPde → entryPresent (tableEntry s.mem (s.dirFrame m) i) = true →
    ¬ s.paging.pmm.HoldsBitmap (entryFrame (tableEntry s.mem (s.dirFrame m) i))
  table_ne : ∀ i, i < maxPde → entryPresent (tableEntry s.mem (s.dirFrame m) i) = true →
    entryFrame (tableEntry s.mem (s.dirFrame m) i) ≠ s.dirFrame m

/-- An allocated frame that is neither the directory of `m` nor one of the page tables of its user
half: kernel tables, everything of other address spaces, and pages. -/
structure State.Foreign (s : State) (m f : Nat) : Prop where
  taken : s.Taken f
  bitmap : ¬ s.paging.pmm.HoldsBitmap f
  ne_dir : f ≠ s.dirFrame m
  ne_table : ∀ i, i < maxPde → entryPresent (tableEntry s.mem (s.dirFrame m) i) = true →
    entryFrame (tableEntry s.mem (s.dirFrame m) i) ≠ f

/-- No entry for a page outside the user half was written: the kernel half of the directory is as
it was, and so is every foreign frame. -/
structure KeepsOut (s t : State) (m : Nat) : Prop where
  dir : ∀ i, maxPde ≤ i → i < 1024 →
    tableEntry t.mem (s.dirFrame m) i = tableEntry s.mem (s.dirFrame m) i
  foreign : ∀ f, s.Foreign m f → AgreeOn s.mem t.mem f

variable {B : Nat → Prop} {l : List Nat} {s t u : State} {m : Nat}

/-- An address space in use is live, as long as the books balance. -/
theorem FrameInv.live (h : FrameInv B l s) (hm : s.mmUsed m = true) : s.Live m := by
  have hrecord := h.records m hm
  have hdir : s.Own (m, .dir) (s.dirFrame m) := ⟨hm, rfl⟩
  have htable : ∀ i, i < maxPde → entryPresent (tableEntry s.mem (s.dirFrame m) i) = true →
      s.Own (m, .table i) (entryFrame (tableEntry s.mem (s.dirFrame m) i)) :=
    fun i hi hpresent => ⟨hm, hi, hpresent, rfl⟩
  refine ⟨h.sound, hrecord.userBase, hrecord.userLimit, hrecord.cr3, (h.ledger.owned _ _ hdir).1,
    h.own_not_bitmap hdir, fun i hi hp => (h.ledger.owned _ _ (htable i hi hp)).1,
    fun i hi hp => h.own_not_bitmap (htable i hi hp), fun i hi hp heq => ?_⟩
  have hkey := h.ledger.unique _ _ _ (htable i hi hp) (heq ▸ hdir)
  simp at hkey

/-- A write outside the bitmap frees no frame. -/
theorem State.Live.taken_write (h : u.Live m) {mem : Memory} {g f : Nat}
    (hmem : ChangesOnly u.mem mem g) (hg : ¬ u.paging.pmm.HoldsBitmap g) (hf : u.Taken f) :
    (u.withMem mem).Taken f :=
  ⟨hf.1, (h.sound.bit_withMem mem (fun k hk => hmem k fun heq => hg (heq ▸ hk)) hf.1).trans hf.2⟩

/-! ## Moves that stay inside -/

/-- `u` comes from `s` by writes that stay inside the user half of `m`. -/
structure Inside (s u : State) (m : Nat) : Prop extends KeepsOut s u m where
  live : u.Live m
  dirFrame : u.dirFrame m = s.dirFrame m
  taken : ∀ f, s.Taken f → u.Taken f
  bitmap : ∀ f, u.paging.pmm.HoldsBitmap f ↔ s.paging.pmm.HoldsBitmap f
  own_table : ∀ i, i < maxPde → entryPresent (tableEntry u.mem (u.dirFrame m) i) = true →
    ¬ s.Foreign m (entryFrame (tableEntry u.mem (u.dirFrame m) i))

namespace Inside

theorem refl (h : s.Live m) : Inside s s m where
  dir _ _ _ := rfl
  foreign _ _ := .refl _ _
  live := h
  dirFrame := rfl
  taken _ hf := hf
  bitmap _ := .rfl
  own_table i hi hp hforeign := hforeign.ne_table i hi hp rfl

/-- A frame that is free is not foreign. -/
theorem not_foreign (h : Inside s u m) {f : Nat} (hf : ¬ u.Taken f) : ¬ s.Foreign m f :=
  fun hforeign => hf (h.taken f hforeign.taken)

/-- A frame that may become a page table of the user half. -/
structure Spare (s t : State) (m g : Nat) : Prop where
  taken : t.Taken g
  bitmap : ¬ t.paging.pmm.HoldsBitmap g
  ne_dir : g ≠ t.dirFrame m
  not_foreign : ¬ s.Foreign m g

/-- One move: each user entry of the directory stays or names a spare frame, and no foreign frame
changes. -/
theorem move (h : Inside s u m) (hmms : ∃ n head, t.mms m =
      { u.mms m with pageCount := n, vmaHead := head })
    (hsound : t.paging.pmm.Sound)
    (hbitmap : ∀ f, t.paging.pmm.HoldsBitmap f ↔ u.paging.pmm.HoldsBitmap f)
    (htaken : ∀ f, u.Taken f → t.Taken f)
    (hdir : ∀ i, i < 1024 →
      tableEntry t.mem (u.dirFrame m) i = tableEntry u.mem (u.dirFrame m) i ∨
        i < maxPde ∧ Spare s t m (entryFrame (tableEntry t.mem (u.dirFrame m) i)))
    (hforeign : ∀ f, s.Foreign m f → AgreeOn u.mem t.mem f) : Inside s t m := by
  obtain ⟨n, head, hmms⟩ := hmms
  have hframe : t.dirFrame m = u.dirFrame m := by rw [State.dirFrame, hmms, State.dirFrame]
  have hlive := h.live
  have htable : ∀ i, i < maxPde → entryPresent (tableEntry t.mem (t.dirFrame m) i) = true →
      Spare s t m (entryFrame (tableEntry t.mem (t.dirFrame m) i)) := by
    intro i hi hp
    rw [hframe] at hp ⊢
    rcases hdir i (by have := maxPde_le; omega) with hsame | ⟨-, hspare⟩
    · rw [hsame] at hp ⊢
      refine ⟨htaken _ (hlive.table_taken i hi hp), ?_, ?_, h.own_table i hi hp⟩
      · rw [hbitmap]
        exact hlive.table_bitmap i hi hp
      · rw [hframe]
        exact hlive.table_ne i hi hp
    · exact hspare
  refine ⟨⟨fun i hi hi' => ?_, fun f hf => (h.foreign f hf).trans (hforeign f hf)⟩,
    ⟨hsound, ?_, ?_, ?_, ?_, ?_, fun i hi hp => (htable i hi hp).taken,
      fun i hi hp => (htable i hi hp).bitmap, fun i hi hp => (htable i hi hp).ne_dir⟩,
    hframe.trans h.dirFrame, fun f hf => htaken f (h.taken f hf),
    fun f => (hbitmap f).trans (h.bitmap f), fun i hi hp => (htable i hi hp).not_foreign⟩
  · rcases hdir i hi' with hsame | ⟨hlt, -⟩
    · rw [h.dirFrame] at hsame
      rw [hsame]
      exact h.dir i hi hi'
    · omega
  · rw [hmms]
    exact hlive.userBase
  · rw [hmms]
    exact hlive.userLimit
  · rw [hframe, hmms]
    exact hlive.cr3
  · rw [hframe]
    exact htaken _ hlive.dir_taken
  · rw [hframe, hbitmap]
    exact hlive.dir_bitmap

/-- Nothing but the records changes. -/
theorem congr (h : Inside s u m) (hpaging : t.paging = u.paging)
    (hmms : ∃ n head, t.mms m = { u.mms m with pageCount := n, vmaHead := head }) :
    Inside s t m := by
  have hmem : t.mem = u.mem := by rw [State.mem, hpaging, State.mem]
  refine h.move hmms (hpaging ▸ h.live.sound) (fun f => by rw [hpaging]) (fun f hf => ?_)
    (fun i _ => .inl (by rw [hmem])) fun f _ => by rw [hmem]; exact .refl _ _
  rw [State.Taken, hpaging]
  exact hf

/-- The memory manager sets bits. -/
theorem withPmm (h : Inside s u m) {pmm : Pmm.State} (hbits : Pmm.BitsOnly u.paging.pmm pmm)
    (hsound : pmm.Sound) (htaken : ∀ f, u.Taken f → pmm.bit f = true) :
    Inside s (u.withPmm pmm) m := by
  refine h.move ⟨_, _, rfl⟩ hsound hbits.holdsBitmap (fun f hf => ⟨?_, htaken f hf⟩)
    (fun i hi => .inl ?_) fun f hf => ?_
  · change f < pmm.frameCount
    rw [hbits.count]
    exact hf.1
  · exact (hbits.agreeOn h.live.sound.toInv h.live.dir_bitmap).tableEntry hi
  · exact hbits.agreeOn h.live.sound.toInv fun hb => hf.bitmap ((h.bitmap f).mp hb)

/-- A frame is taken. -/
theorem take (h : Inside s u m) {f : Nat} {pmm : Pmm.State}
    (htook : Pmm.Took u.paging.pmm f pmm) : Inside s (u.withPmm pmm) m :=
  h.withPmm htook.bits htook.sound fun g hg => by simp [htook.set, hg.2]

/-- A write that leaves alone the bitmap, the foreign frames, and all of the directory but what
names spare frames. -/
theorem withMem (h : Inside s u m) {mem : Memory}
    (hbitmap : ∀ f, u.paging.pmm.HoldsBitmap f → AgreeOn u.mem mem f)
    (hdir : ∀ i, i < 1024 →
      tableEntry mem (u.dirFrame m) i = tableEntry u.mem (u.dirFrame m) i ∨
        i < maxPde ∧ Spare s u m (entryFrame (tableEntry mem (u.dirFrame m) i)))
    (hforeign : ∀ f, s.Foreign m f → AgreeOn u.mem mem f) : Inside s (u.withMem mem) m := by
  have hsound := h.live.sound
  have htaken : ∀ f, u.Taken f → (u.withMem mem).Taken f := fun f hf =>
    ⟨hf.1, (hsound.bit_withMem mem hbitmap hf.1).trans hf.2⟩
  refine h.move ⟨_, _, rfl⟩ (hsound.withMem hbitmap) (fun _ => .rfl) htaken
    (fun i hi => (hdir i hi).imp_right fun hnew => ⟨hnew.1, ?_⟩) hforeign
  exact ⟨htaken _ hnew.2.taken, hnew.2.bitmap, hnew.2.ne_dir, hnew.2.not_foreign⟩

/-- A write to one frame that is not foreign, not the directory, and not part of the bitmap. -/
theorem write (h : Inside s u m) {mem : Memory} {g : Nat} (hmem : ChangesOnly u.mem mem g)
    (hbitmap : ¬ u.paging.pmm.HoldsBitmap g) (hdir : g ≠ u.dirFrame m)
    (hforeign : ¬ s.Foreign m g) : Inside s (u.withMem mem) m := by
  refine h.withMem (fun f hf => hmem f fun heq => hbitmap (heq ▸ hf))
    (fun i hi => .inl ((hmem _ hdir.symm).tableEntry hi))
    fun f hf => hmem f fun heq => hforeign (heq ▸ hf)

/-- A new page table is entered. -/
theorem setDir (h : Inside s u m) {i : Nat} {w : BitVec 32} (hi : i < maxPde)
    (hw : Spare s u m (entryFrame w)) :
    Inside s (u.withMem (setEntry u.mem (u.dirFrame m) i w)) m := by
  have hlt : i < 1024 := by
    have := maxPde_le
    omega
  have hother : ∀ f, f ≠ u.dirFrame m → AgreeOn u.mem (setEntry u.mem (u.dirFrame m) i w) f :=
    fun f hne => agreeOn_setEntry _ w hlt hne
  refine h.withMem (fun f hf => hother f fun heq => h.live.dir_bitmap (heq ▸ hf))
    (fun k _ => ?_) fun f hf => hother f fun heq => hf.ne_dir (heq.trans h.dirFrame)
  by_cases hk : k = i
  · subst hk
    rw [tableEntry_setEntry_same]
    exact .inr ⟨hi, hw⟩
  · exact .inl (tableEntry_setEntry_ne _ _ hk)

/-- A frame that the memory manager delivers can be made anything of. -/
theorem spare (h : Inside s u m) {f : Nat} {pmm : Pmm.State}
    (htook : Pmm.Took u.paging.pmm f pmm) : Spare s (u.withPmm pmm) m f := by
  have hfree : ¬ u.Taken f := fun ht => absurd (htook.free.symm.trans ht.2) (by simp)
  refine ⟨⟨?_, by simp [State.withPmm, State.withPaging, htook.set]⟩, fun hb => hfree ?_,
    fun heq => hfree (heq ▸ h.live.dir_taken), h.not_foreign hfree⟩
  · change f < pmm.frameCount
    rw [htook.bits.count]
    exact htook.lt
  · exact ⟨htook.lt, h.live.sound.bitmap_set f htook.lt ((htook.bits.holdsBitmap f).mp hb)⟩

/-- The page table behind a present user entry. -/
theorem table (h : Inside s u m) {i : Nat} (hi : i < maxPde)
    (hp : entryPresent (tableEntry u.mem (u.dirFrame m) i) = true) :
    Spare s u m (entryFrame (tableEntry u.mem (u.dirFrame m) i)) :=
  ⟨h.live.table_taken i hi hp, h.live.table_bitmap i hi hp, h.live.table_ne i hi hp,
    h.own_table i hi hp⟩

/-- Writes to spare frames stay inside. -/
theorem writeSpare (h : Inside s u m) {mem : Memory} {g : Nat} (hmem : ChangesOnly u.mem mem g)
    (hg : Spare s u m g) : Inside s (u.withMem mem) m :=
  h.write hmem hg.bitmap hg.ne_dir hg.not_foreign

/-- A frame stays spare as long as it stays allocated. -/
theorem Spare.keep {f : Nat} (hf : Spare s u m f) (hu : Inside s u m) (ht : Inside s t m)
    (htaken : t.Taken f) : Spare s t m f := by
  refine ⟨htaken, fun hb => hf.bitmap ((hu.bitmap f).mpr ((ht.bitmap f).mp hb)), ?_,
    hf.not_foreign⟩
  rw [ht.dirFrame, ← hu.dirFrame]
  exact hf.ne_dir

end Inside

/-! ## The call -/

theorem takePoolFrames_inside {n : Nat} {b : Bool} (h : Inside s u m)
    (hret : takePoolFrames n u = (b, t)) : Inside s t m := by
  induction n generalizing u with
  | zero =>
      obtain ⟨-, rfl⟩ := Prod.mk.inj hret
      exact h
  | succ n ih =>
      unfold takePoolFrames at hret
      have hnext := Pmm.getNext_spec h.live.sound
      generalize Pmm.pmmGetNextAvailableBlock u.paging.pmm = r at hret hnext
      cases hnext with
      | oom =>
          obtain ⟨-, rfl⟩ := Prod.mk.inj hret
          exact h
      | @found f pmm htook =>
          have hnew := (h.take htook).congr
            (t := { u.withPmm pmm with poolFrames := 4096 * f / 4096 :: u.poolFrames }) rfl
            ⟨_, _, rfl⟩
          exact ih hnew hret

theorem vmaAlloc_inside {slot : Option Nat} (h : Inside s u m) (hret : vmaAlloc u = (slot, t)) :
    Inside s t m := by
  unfold vmaAlloc dpageAlloc at hret
  cases hfind : circFind vmaSlots (fun slot => !u.vmaUsed slot) vmaSlots 0 with
  | none =>
      simp only [hfind, Prod.mk.injEq] at hret
      exact hret.2 ▸ h
  | some v =>
      simp only [hfind] at hret
      generalize htake : takePoolFrames (u.demand 0).frames
        { u with demand := fun n => u.demand (n + 1) } = r at hret
      obtain ⟨enough, w⟩ := r
      have hu := h.congr (t := { u with demand := fun n => u.demand (n + 1) }) rfl ⟨_, _, rfl⟩
      have hw := takePoolFrames_inside hu htake
      dsimp only at hret
      by_cases hok : (enough && (u.demand 0).ok) = true
      · rw [if_pos hok] at hret
        obtain ⟨-, rfl⟩ := Prod.mk.inj hret
        exact hw.congr rfl ⟨_, _, rfl⟩
      · rw [if_neg hok] at hret
        obtain ⟨-, rfl⟩ := Prod.mk.inj hret
        exact hw

/-- Either there is a page table afterwards, or nothing has changed. -/
theorem ensureUserTable_inside {pdi : Nat} {there : Bool} (h : Inside s u m) (hpdi : pdi < maxPde)
    (hret : ensureUserTable u (4096 * u.dirFrame m) pdi = .ok (there, t)) :
    Inside s t m ∧ (∀ f, u.Taken f → t.Taken f) ∧
      (there = false → t = u) ∧
      (there = true → entryPresent (tableEntry t.mem (t.dirFrame m) pdi) = true) := by
  unfold ensureUserTable at hret
  split at hret
  · rename_i hpresent
    obtain ⟨rfl, rfl⟩ := Prod.mk.inj (Except.ok.inj hret)
    exact ⟨h, fun _ hf => hf, by simp, fun _ => hpresent⟩
  · have hnext := Pmm.getNext_spec h.live.sound
    generalize Pmm.pmmGetNextAvailableBlock u.paging.pmm = r at hret hnext
    cases hnext with
    | oom =>
        obtain ⟨rfl, rfl⟩ := Prod.mk.inj (Except.ok.inj hret)
        exact ⟨h, fun _ hf => hf, fun _ => rfl, by simp⟩
    | @found g pmm htook =>
        simp only [ne_eq, not_true_eq_false, if_false] at hret
        obtain ⟨newPt, hpt, hret⟩ := bind_eq_ok.mp hret
        rw [Paging.physToVirt_eq_ok hpt] at hret
        obtain ⟨rfl, rfl⟩ := Prod.mk.inj (Except.ok.inj hret)
        have hspare := h.spare htook
        have h1 := h.take htook
        have hfill := changesOnly_fillBytes (u.withPmm pmm).mem g 0
        have h2 := h1.writeSpare hfill hspare
        have htaken2 := fun f => h1.live.taken_write (f := f) hfill hspare.bitmap
        have hg : g < 2 ^ 20 := h.live.sound.lt_pow htook.lt
        have hframe : entryFrame (mkEntry (4096 * g)
            (Paging.pgPresent ||| Paging.pgRw ||| Paging.pgUser)) = g := by
          rw [entryFrame_mkEntry (by omega) (by omega) (by decide)]
          omega
        have hpresent : entryPresent (mkEntry (4096 * g)
            (Paging.pgPresent ||| Paging.pgRw ||| Paging.pgUser)) = true := by
          rw [entryPresent_mkEntry (by omega)]
          decide
        have h3 := h2.setDir hpdi (w := mkEntry (4096 * g)
          (Paging.pgPresent ||| Paging.pgRw ||| Paging.pgUser)) (by
            rw [hframe]
            exact hspare.keep h1 h2 (htaken2 g hspare.taken))
        refine ⟨h3, fun f hf => ?_, by simp, fun _ => ?_⟩
        · have hlt : pdi < 1024 := by
            have := maxPde_le
            omega
          refine h2.live.taken_write (changesOnly_setEntry _ _ _ hlt) h2.live.dir_bitmap
            (htaken2 f ⟨?_, by simp [State.withPmm, State.withPaging, htook.set, hf.2]⟩)
          change f < pmm.frameCount
          rw [htook.bits.count]
          exact hf.1
        · exact (congrArg entryPresent (tableEntry_setEntry_same _ _ _ _)).trans hpresent

/-- One round of the loop stays inside, as long as its page lies below the kernel. -/
theorem mapPage_inside {vaStart p copied copied' : Nat} {flags : BitVec 32}
    {data : Option InitialData} {b : Bool} (h : Inside s u m)
    (hva : vaStart + p * 4096 < kernelVirtualBase)
    (hret : mapPage m (4096 * s.dirFrame m) vaStart flags data (u, copied) p =
      .ok (b, t, copied')) : Inside s t m := by
  have hmod : (vaStart + p * 4096) % 2 ^ 32 = vaStart + p * 4096 := by
    unfold kernelVirtualBase at hva
    omega
  unfold mapPage at hret
  dsimp only at hret
  rw [hmod] at hret
  generalize vaStart + p * 4096 = va at *
  have hpdi : va / 2 ^ 22 < maxPde := by
    unfold maxPde
    unfold kernelVirtualBase at hva ⊢
    omega
  have hpti : va / 4096 % 1024 < 1024 := Nat.mod_lt _ (by decide)
  have hnext := Pmm.getNext_spec h.live.sound
  generalize Pmm.pmmGetNextAvailableBlock u.paging.pmm = r at hret hnext
  cases hnext with
  | oom =>
      obtain ⟨-, rfl, -⟩ := Prod.mk.inj (Except.ok.inj hret)
      exact h
  | @found f pmm htook =>
      simp only [ne_eq, not_true_eq_false, if_false] at hret
      have h1 := h.take htook
      have hspare := h.spare htook
      obtain ⟨⟨there, u2⟩, htable, hret⟩ := bind_eq_ok.mp hret
      rw [← h1.dirFrame] at htable
      obtain ⟨h2, htaken2, hsame, hthere⟩ := ensureUserTable_inside h1 hpdi htable
      cases there with
      | false =>
          -- no frame for the table: the page goes back
          obtain rfl := hsame rfl
          obtain ⟨pmm', hfreed, hbits, hsound, hbit⟩ := Pmm.dealloc_spec htook.sound
            hspare.taken.1 hspare.taken.2
            (fun hres => htook.unreserved ((htook.bits.frameReserved f).mp hres)) hspare.bitmap
          obtain ⟨-, rfl, -⟩ := Prod.mk.inj (Except.ok.inj hret)
          change Inside s (u.withPmm (Pmm.pmmDeallocSpecificBlock pmm (4096 * f)).2) m
          rw [hfreed]
          refine h.withPmm (htook.bits.trans hbits) hsound fun g hg => ?_
          have hne : g ≠ f := by
            rintro rfl
            exact absurd (htook.free.symm.trans hg.2) (by simp)
          simp [hbit, htook.set, hg.2, hne]
      | true =>
          simp only [reduceCtorEq, if_false] at hret
          obtain ⟨pt, hpt, hret⟩ := bind_eq_ok.mp hret
          obtain ⟨page, hpage, hret⟩ := bind_eq_ok.mp hret
          have hpresent := hthere rfl
          have hentry : u2.mem.readWord (4096 * s.dirFrame m + 4 * (va / 2 ^ 22)) =
              tableEntry u2.mem (u2.dirFrame m) (va / 2 ^ 22) := by rw [h2.dirFrame]; rfl
          rw [Paging.physToVirt_eq_ok hpt, Paging.physToVirt_eq_ok hpage, hentry,
            entryPhys_eq] at hret
          obtain ⟨-, rfl, -⟩ := Prod.mk.inj (Except.ok.inj hret)
          have hpte := changesOnly_setEntry u2.mem
            (entryFrame (tableEntry u2.mem (u2.dirFrame m) (va / 2 ^ 22)))
            (mkEntry (4096 * f) flags) hpti
          have hd := h2.table hpdi hpresent
          have h3 := h2.writeSpare hpte hd
          have hpage3 := hspare.keep h1 h3
            (h2.live.taken_write hpte hd.bitmap (htaken2 f hspare.taken))
          exact (h3.writeSpare (changesOnly_initPage _ f data copied) hpage3).congr rfl
            ⟨_, _, State.mms_setMm_self _ _ _⟩

/-- The whole loop. -/
theorem mapPages_inside {vaStart pages copied' : Nat} {flags : BitVec 32}
    {data : Option InitialData} {b : Bool} (h : Inside s u m)
    (hlimit : vaStart + pages * 4096 ≤ kernelVirtualBase)
    (hret : forOk (mapPage m (4096 * s.dirFrame m) vaStart flags data) (List.range pages) (u, 0) =
      .ok (b, t, copied')) : Inside s t m := by
  refine forOk_invariant (I := fun loop : State × Nat => Inside s loop.1 m) ?_ h hret
  intro loop loop' b' p hp hloop hstep
  rw [List.mem_range] at hp
  exact mapPage_inside hloop (by omega) hstep

theorem vmaInsert_paging {v : Nat} (hret : vmaInsert s m v = .ok t) : t.paging = s.paging := by
  unfold vmaInsert at hret
  split at hret
  · exact Except.ok.inj hret ▸ rfl
  · split at hret
    · exact Except.ok.inj hret ▸ rfl
    · split at hret
      · exact Except.ok.inj hret ▸ rfl
      · cases hret

theorem vmaRemove_paging {v : Nat} (hret : vmaRemove s m v = .ok t) : t.paging = s.paging := by
  unfold vmaRemove at hret
  split at hret
  · exact Except.ok.inj hret ▸ rfl
  · split at hret
    · exact Except.ok.inj hret ▸ rfl
    · dsimp only at hret
      split at hret
      · split at hret
        · exact Except.ok.inj hret ▸ rfl
        · exact Except.ok.inj hret ▸ rfl
      · cases hret

/-- The range wraps around, and the check of its end does not notice. -/
def Wraps (s : State) (m : Nat) (vaStart size : BitVec 32) : Prop :=
  2 ^ 32 ≤ vaStart.toNat + size.toNat ∧ vaStart.toNat % 4096 = 0 ∧ size.toNat % 4096 = 0 ∧
    (s.mms m).userBase ≤ vaStart.toNat ∧ (vaStart + size).toNat ≤ (s.mms m).userLimit

/-- The call keeps to the user half, and refuses a range that does not lie in it. -/
structure StaysInUser (s : State) (m : Nat) (vaStart size : BitVec 32) (code : Int) (t : State) :
    Prop where
  keepsOut : KeepsOut s t m
  refused : ¬ ((s.mms m).userBase ≤ vaStart.toNat ∧
      vaStart.toNat + size.toNat ≤ (s.mms m).userLimit) → code = -1 ∧ t.mem = s.mem

/-- A call whose range does not wrap around keeps to the user half. -/
theorem StaysInUser.of_not_wraps {vaStart size prot : BitVec 32} {type : VmaType}
    {data : Option InitialData} {code : Int} (h : s.Live m) (hwraps : ¬ Wraps s m vaStart size)
    (hret : mmMapRegion s (some m) vaStart size type prot data = .ok (code, t)) :
    StaysInUser s m vaStart size code t := by
  have hrefl := Inside.refl h
  have hrefused : Except.ok (-1, s) = (Except.ok (code, t) : Except Trap (Int × State)) →
      StaysInUser s m vaStart size code t := by
    intro heq
    obtain ⟨rfl, rfl⟩ := Prod.mk.inj (Except.ok.inj heq)
    exact ⟨hrefl.toKeepsOut, fun _ => ⟨rfl, rfl⟩⟩
  unfold mmMapRegion at hret
  dsimp only at hret
  split at hret
  · exact hrefused hret
  split at hret
  · exact hrefused hret
  split at hret
  · exact hrefused hret
  split at hret
  · exact hrefused hret
  rename_i hsize halign hsizeAlign hrange
  obtain ⟨hbase, hend⟩ : (s.mms m).userBase ≤ vaStart.toNat ∧
      (vaStart + size).toNat ≤ (s.mms m).userLimit := by omega
  -- the check has seen the true end of the range
  have hnowrap : vaStart.toNat + size.toNat < 2 ^ 32 := by
    by_contra hge
    exact hwraps ⟨by omega, by omega, by omega, hbase, hend⟩
  have hsum : (vaStart + size).toNat = vaStart.toNat + size.toNat := by
    rw [BitVec.toNat_add, Nat.mod_eq_of_lt hnowrap]
  have hlimit : vaStart.toNat + size.toNat / 4096 * 4096 ≤ kernelVirtualBase := by
    rw [← h.userLimit]
    omega
  suffices hkeeps : KeepsOut s t m from
    ⟨hkeeps, fun hout => absurd ⟨hbase, hsum ▸ hend⟩ hout⟩
  generalize halloc : vmaAlloc s = r at hret
  obtain ⟨slot, s1⟩ := r
  have h1 := vmaAlloc_inside hrefl halloc
  cases slot with
  | none =>
      obtain ⟨-, rfl⟩ := Prod.mk.inj (Except.ok.inj hret)
      exact h1.toKeepsOut
  | some v =>
      dsimp only at hret
      obtain ⟨pd, hpd, hret⟩ := bind_eq_ok.mp hret
      rw [Paging.physToVirt_eq_ok hpd] at hret
      generalize (s1.vmas v).describe vaStart.toNat (vaStart + size).toNat type prot = vma at hret
      have h2 : Inside s (s1.setVma v vma) m := h1.congr rfl ⟨_, _, rfl⟩
      obtain ⟨⟨done, s3, copied⟩, hloop, hret⟩ := bind_eq_ok.mp hret
      rw [h2.live.cr3, h2.dirFrame] at hloop
      have h3 := mapPages_inside h2 hlimit hloop
      have hkeep : ∀ w : State, w.paging = s3.paging → KeepsOut s w m := by
        intro w hw
        have hmem : w.mem = s3.mem := by rw [State.mem, hw, State.mem]
        exact ⟨fun i hi hi' => by rw [hmem]; exact h3.dir i hi hi',
          fun f hf => by rw [hmem]; exact h3.foreign f hf⟩
      dsimp only at hret
      split at hret
      · obtain ⟨s4, hins, hret⟩ := bind_eq_ok.mp hret
        obtain ⟨-, rfl⟩ := Prod.mk.inj (Except.ok.inj hret)
        exact hkeep _ (vmaInsert_paging hins)
      · obtain ⟨s4, hrem, hret⟩ := bind_eq_ok.mp hret
        obtain ⟨-, rfl⟩ := Prod.mk.inj (Except.ok.inj hret)
        exact hkeep (vmaFree s4 v) (vmaRemove_paging (t := s4) hrem)

/-- The address space that the first `mm_create` makes is live; a call on it can be evaluated. -/
theorem exists_live {vaStart size prot : BitVec 32} {p : State → State → Bool}
    (htest : okAnd (Op.exec smallState .create) (fun s => s.mmUsed 0 &&
      okAnd (mmMapRegion s (some 0) vaStart size .data prot none)
        fun r => decide (r.1 = 0) && p s r.2) = true) :
    ∃ s t, s.Live 0 ∧ mmMapRegion s (some 0) vaStart size .data prot none = .ok (0, t) ∧
      p s t = true := by
  obtain ⟨s, hcreate, hs⟩ := exists_of_okAnd htest
  rw [Bool.and_eq_true] at hs
  obtain ⟨⟨code, t⟩, hret, hr⟩ := exists_of_okAnd hs.2
  obtain ⟨hcode, ht⟩ : code = 0 ∧ p s t = true := by simpa using hr
  subst hcode
  have hinv := (step_inv (o := .create) ready_smallState.inv trivial hcreate).1
  exact ⟨s, t, hinv.live hs.1, hret, ht⟩

end Unidos.Mm
