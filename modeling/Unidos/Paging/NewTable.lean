import Unidos.Paging.PageMap

/-!
# New page tables

When the directory has no table for a page, `paging_map_page` takes a frame and enters it into the
directory without clearing it. Whatever the frame holds then counts as mappings.
`pagingMapPage_newTable_iff` says when the call does what it should: exactly if the frame it gets
can be reached and describes no page.
-/

namespace Unidos.Paging

open Lib

/-- The memory manager is in order, and the kernel's directory is reachable and not free. -/
structure State.DirSafe (s : State) : Prop where
  sound : s.pmm.Sound
  dir_aligned : s.pageDirectoryLocPhys % 4096 = 0
  dir_lt : s.pageDirectoryLocPhys < 0x30000000
  dir_taken : s.dirFrame < s.pmm.frameCount → s.pmm.bit s.dirFrame = true
  dir_bitmap : ¬ s.pmm.HoldsBitmap s.dirFrame

/-- The arguments pass the checks, and the directory has no table for the page. -/
structure NeedsTable (s : State) (virt phys : Nat) (flags : BitVec 32) : Prop where
  dir_ne : s.pageDirectoryLocPhys ≠ 0
  aligned : ¬ (virt % 4096 ≠ 0 ∨ phys % 4096 ≠ 0)
  flags : flagError virt flags = none
  absent : entryPresent (s.dirEntry (pdiOf virt)) = false

/-- A new table maps the requested page and nothing else, and an error changes no mapping. -/
structure MapsOnly (s : State) (virt phys : Nat) (flags : BitVec 32) : Prop where
  new : NeedsTable s virt phys flags → ∃ t, pagingMapPage s virt phys flags = .ok (.ok, t) ∧
    ∀ j, j < 1024 → t.pageMap (1024 * pdiOf virt + j) =
      if j = ptiOf virt then some ⟨phys / 4096, storedFlags flags⟩ else none
  error : ∀ status t, pagingMapPage s virt phys flags = .ok (status, t) → status ≠ .ok →
    t.pageMap = s.pageMap

/-- If a table is needed, the memory manager delivers a frame that `paging_map_page` can reach and
that holds no present entry. -/
def BlankFrame (s : State) (virt phys : Nat) (flags : BitVec 32) : Prop :=
  NeedsTable s virt phys flags → s.pageTableCount < ptMax ∧
    ∃ f pmm, Pmm.pmmGetNextAvailableBlock s.pmm = (⟨.allocSuccess, 4096 * f⟩, pmm) ∧
      f ≠ 0 ∧ f < 0x30000 ∧ ∀ j, j < 1024 → entryPresent (tableEntry s.pmm.mem f j) = false

variable {s : State} {virt phys : Nat} {flags : BitVec 32}

/-- A frame that the memory manager delivers. -/
theorem took_of_getNext {pmm pmm' : Pmm.State} (h : pmm.Sound) {f : Nat}
    (hget : Pmm.pmmGetNextAvailableBlock pmm = (⟨.allocSuccess, 4096 * f⟩, pmm')) :
    Pmm.Took pmm f pmm' := by
  have hnext := Pmm.getNext_spec h
  generalize hr : Pmm.pmmGetNextAvailableBlock pmm = r at hnext
  rw [hget] at hr
  cases hnext with
  | oom => simp at hr
  | @found g t htook =>
      simp only [Prod.mk.injEq, Pmm.Alloc.mk.injEq, true_and] at hr
      obtain ⟨hg, rfl⟩ := hr
      have hfg : g = f := by omega
      exact hfg ▸ htook

/-- The directory entry for a new table. -/
def newTableEntry (f : Nat) (flags : BitVec 32) : BitVec 32 :=
  BitVec.ofNat 32 (4096 * f) ||| (if flags &&& pgUser ≠ 0 then pgUser else 0) ||| pgPresent ||| pgRw

theorem entryPresent_newTableEntry (f : Nat) (flags : BitVec 32) :
    entryPresent (newTableEntry f flags) = true := entryPresent_or_present _ _

theorem entryFrame_newTableEntry {f : Nat} (hf : f < 2 ^ 20) (flags : BitVec 32) :
    entryFrame (newTableEntry f flags) = f := by
  have heq : newTableEntry f flags = mkEntry (4096 * f)
      ((if flags &&& pgUser ≠ 0 then pgUser else 0) ||| (pgPresent ||| pgRw)) := by
    unfold newTableEntry mkEntry
    rw [BitVec.or_assoc, BitVec.or_assoc]
  rw [heq, entryFrame_mkEntry (by omega) (by omega)]
  · omega
  · split
    · decide
    · decide

/-- The state after a frame was entered as a new table. -/
def State.withTable (s : State) (pmm : Pmm.State) (virt f : Nat) (flags : BitVec 32) : State :=
  ({ s with pmm := pmm } : State).enterTable s.pageDirectoryLocPhys (pdiOf virt) (4096 * f)
    (newTableEntry f flags)

/-- The last part of `paging_map_page`: the table is there, and the page is entered into it. -/
def mapInTable (s : State) (virt phys : Nat) (flags : BitVec 32) :
    Except Trap (PagingStatus × State) := do
  let pt? ← ptPtrFromPdi s (pdiOf virt)
  match pt? with
  | none => .ok (.errFailedRetrievePt, s)
  | some pt =>
      if entryPresent (s.pmm.mem.readWord (pt + 4 * ptiOf virt)) then .ok (.errAlreadyMapped, s)
      else .ok (.ok, s.withMem (s.pmm.mem.writeWord (pt + 4 * ptiOf virt)
        (mkEntry phys (storedFlags flags))))

section NeedsTable

variable (h : s.DirSafe) (hneeds : NeedsTable s virt phys flags)

include h hneeds

theorem pagingMapPage_needsTable :
    pagingMapPage s virt phys flags =
      let (status, t) := ensureTable s s.pageDirectoryLocPhys (pdiOf virt) flags
      if status ≠ .ok then .ok (status, t) else mapInTable t virt phys flags := by
  have hphys : phys / 4096 * 4096 = phys := by
    have := hneeds.aligned
    omega
  rw [pagingMapPage, if_neg hneeds.dir_ne, if_neg hneeds.aligned,
    flagChecks_eq fun error => Except.ok (error, s), hneeds.flags, Option.elim_none, pdiOf_def,
    hphys, physToVirt_of_lt h.dir_lt, ok_bind]
  simp only [storedEntry_eq]
  rfl

theorem dirEntry_absent :
    entryPresent (s.pmm.mem.readWord (s.pageDirectoryLocPhys + 4 * pdiOf virt)) = false := by
  have hdir : s.pageDirectoryLocPhys = 4096 * s.dirFrame := by
    have := h.dir_aligned
    unfold State.dirFrame
    omega
  rw [hdir]
  exact hneeds.absent

/-- A call that needs a table and cannot have one changes nothing. -/
theorem pagingMapPage_noTable (hnone : ¬ s.pageTableCount < ptMax ∨
      Pmm.pmmGetNextAvailableBlock s.pmm = (⟨.allocOom, 0⟩, s.pmm)) :
    pagingMapPage s virt phys flags = .ok (.errNomem, s) := by
  have hensure : ensureTable s s.pageDirectoryLocPhys (pdiOf virt) flags = (.errNomem, s) := by
    rw [ensureTable, if_pos (dirEntry_absent h hneeds)]
    by_cases hcount : s.pageTableCount ≥ ptMax
    · rw [if_pos hcount]
    · rw [if_neg hcount, hnone.resolve_left (by omega)]
      rfl
  rw [pagingMapPage_needsTable h hneeds, hensure]
  rfl

/-- A call that needs a table and gets frame `f` for it. -/
theorem pagingMapPage_withTable (hcount : s.pageTableCount < ptMax) {f : Nat} {pmm : Pmm.State}
    (hget : Pmm.pmmGetNextAvailableBlock s.pmm = (⟨.allocSuccess, 4096 * f⟩, pmm)) :
    pagingMapPage s virt phys flags =
      mapInTable (s.withTable pmm virt f flags) virt phys flags := by
  have hensure : ensureTable s s.pageDirectoryLocPhys (pdiOf virt) flags =
      (.ok, s.withTable pmm virt f flags) := by
    rw [ensureTable, if_pos (dirEntry_absent h hneeds), if_neg (by omega), hget]
    rfl
  rw [pagingMapPage_needsTable h hneeds, hensure]
  rfl

end NeedsTable

/-- A table that `pt_ptr_from_pdi` finds lies in the window. -/
theorem ptPtrFromPdi_lt {i pt : Nat} (hret : ptPtrFromPdi s i = .ok (some pt)) :
    s.pageTablesLocPhys i < 0x30000000 := by
  unfold ptPtrFromPdi at hret
  split at hret
  · simp at hret
  · obtain ⟨pd, -, hret⟩ := bind_eq_ok.mp hret
    split at hret
    · simp at hret
    · obtain ⟨pt', hpt, -⟩ := bind_eq_ok.mp hret
      unfold physToVirt at hpt
      split at hpt
      · simp at hpt
      · rename_i hlt
        unfold physWindowBase at hlt
        omega

section WithTable

variable {f : Nat} {pmm : Pmm.State} (h : s.DirSafe) (htook : Pmm.Took s.pmm f pmm)

include h

theorem State.DirSafe.dir_eq : s.pageDirectoryLocPhys = 4096 * s.dirFrame := by
  have := h.dir_aligned
  unfold State.dirFrame
  omega

theorem withTable_mem : (s.withTable pmm virt f flags).pmm.mem =
    setEntry pmm.mem s.dirFrame (pdiOf virt) (newTableEntry f flags) := by
  unfold State.withTable State.enterTable setEntry
  rw [h.dir_eq]
  rfl

theorem withTable_dirEntry :
    (s.withTable pmm virt f flags).dirEntry (pdiOf virt) = newTableEntry f flags := by
  change tableEntry (s.withTable pmm virt f flags).pmm.mem s.dirFrame (pdiOf virt) = _
  rw [withTable_mem h, tableEntry_setEntry_same]

/-- The new table is found again if its frame is not 0 and lies in the window. -/
theorem ptPtrFromPdi_withTable (hne : f ≠ 0) (hlt : f < 0x30000) :
    ptPtrFromPdi (s.withTable pmm virt f flags) (pdiOf virt) = .ok (some (4096 * f)) := by
  have hloc : (s.withTable pmm virt f flags).pageTablesLocPhys (pdiOf virt) = 4096 * f :=
    Function.update_self ..
  have hknown : ¬ (pdiOf virt > 0x3FF ∨
      (s.withTable pmm virt f flags).pageTablesLocPhys (pdiOf virt) = 0) := by
    have := pdiOf_lt virt
    omega
  have hentry : (s.withTable pmm virt f flags).pmm.mem.readWord
      (s.pageDirectoryLocPhys + 4 * pdiOf virt) = newTableEntry f flags := by
    rw [h.dir_eq]
    exact withTable_dirEntry h
  unfold ptPtrFromPdi
  rw [if_neg hknown]
  refine bind_eq_ok.mpr ⟨_, physToVirt_of_lt h.dir_lt, ?_⟩
  change (if entryPresent ((s.withTable pmm virt f flags).pmm.mem.readWord
    (s.pageDirectoryLocPhys + 4 * pdiOf virt)) = false then _ else _) = _
  rw [hentry, entryPresent_newTableEntry, if_neg (by simp), hloc]
  exact bind_eq_ok.mpr ⟨_, physToVirt_of_lt (by omega), rfl⟩

include htook

theorem took_ne_dir : f ≠ s.dirFrame := by
  rintro rfl
  have htaken := h.dir_taken htook.lt
  rw [htook.free] at htaken
  simp at htaken

theorem took_lt : f < 2 ^ 20 := h.sound.lt_pow htook.lt

/-- The memory manager has not touched the frame that it handed out. -/
theorem tableEntry_took {j : Nat} (hj : j < 1024) :
    tableEntry (s.withTable pmm virt f flags).pmm.mem f j = tableEntry s.pmm.mem f j := by
  have hbitmap : ¬ s.pmm.HoldsBitmap f := by
    intro hholds
    have htaken := h.sound.bitmap_set f htook.lt hholds
    rw [htook.free] at htaken
    simp at htaken
  rw [withTable_mem h, (agreeOn_setEntry _ _ (pdiOf_lt virt) (took_ne_dir h htook)).tableEntry hj,
    (htook.bits.agreeOn h.sound.toInv hbitmap).tableEntry hj]

theorem mapInTable_withTable (hne : f ≠ 0) (hlt : f < 0x30000) :
    mapInTable (s.withTable pmm virt f flags) virt phys flags =
      if entryPresent (tableEntry s.pmm.mem f (ptiOf virt)) then
        .ok (.errAlreadyMapped, s.withTable pmm virt f flags)
      else .ok (.ok, (s.withTable pmm virt f flags).withMem
        (setEntry (s.withTable pmm virt f flags).pmm.mem f (ptiOf virt)
          (mkEntry phys (storedFlags flags)))) := by
  rw [mapInTable, ptPtrFromPdi_withTable h hne hlt, ok_bind,
    ← tableEntry_took h htook (ptiOf_lt virt)]
  rfl

/-- The pages of the new table: the one that was entered, and what the frame describes. -/
theorem pageMap_withTable (w : BitVec 32) {j : Nat} (hj : j < 1024) :
    ((s.withTable pmm virt f flags).withMem
        (setEntry (s.withTable pmm virt f flags).pmm.mem f (ptiOf virt) w)).pageMap
        (1024 * pdiOf virt + j) =
      (Option.guard entryPresent
        (if j = ptiOf virt then w else tableEntry s.pmm.mem f j)).map entryMapping := by
  have hi := pdiOf_lt virt
  have hdiv : (1024 * pdiOf virt + j) / 1024 = pdiOf virt := by omega
  have hmod : (1024 * pdiOf virt + j) % 1024 = j := by omega
  have hdir : tableEntry (setEntry (s.withTable pmm virt f flags).pmm.mem f (ptiOf virt) w)
      s.dirFrame (pdiOf virt) = newTableEntry f flags := by
    rw [(agreeOn_setEntry _ w (ptiOf_lt virt) (took_ne_dir h htook).symm).tableEntry hi]
    exact withTable_dirEntry h
  have hentry : tableEntry (setEntry (s.withTable pmm virt f flags).pmm.mem f (ptiOf virt) w) f j =
      if j = ptiOf virt then w else tableEntry s.pmm.mem f j := by
    split
    · rename_i heq
      rw [heq, tableEntry_setEntry_same]
    · rename_i hne
      rw [tableEntry_setEntry_ne _ _ hne, tableEntry_took h htook hj]
  unfold State.pageMap
  rw [if_pos (by omega), hdiv, hmod]
  change (translate (setEntry (s.withTable pmm virt f flags).pmm.mem f (ptiOf virt) w) s.dirFrame
    (pdiOf virt) j).map _ = _
  rw [translate_of_present (by rw [hdir]; exact entryPresent_newTableEntry f flags), hdir,
    entryFrame_newTableEntry (took_lt h htook), hentry]

end WithTable

/-- A table that cannot be reached does not let the call succeed. -/
theorem mapInTable_unreached {f : Nat} {pmm : Pmm.State} (hbad : ¬ (f ≠ 0 ∧ f < 0x30000))
    (t : State) :
    mapInTable (s.withTable pmm virt f flags) virt phys flags ≠ .ok (.ok, t) := by
  intro hret
  have hloc : (s.withTable pmm virt f flags).pageTablesLocPhys (pdiOf virt) = 4096 * f :=
    Function.update_self ..
  obtain ⟨pt?, hpt, hret⟩ := bind_eq_ok.mp hret
  cases pt? with
  | none => simp at hret
  | some pt =>
      have hne := (ptPtrFromPdi_eq_some hpt).2
      have hlt := ptPtrFromPdi_lt hpt
      rw [hloc] at hne hlt
      exact hbad ⟨by omega, by omega⟩

/-- A call that needs no table and fails changes nothing. -/
theorem pagingMapPage_fail {t : State} {status : PagingStatus} (h : s.DirSafe)
    (hneeds : ¬ NeedsTable s virt phys flags)
    (hret : pagingMapPage s virt phys flags = .ok (status, t)) (hfail : status ≠ .ok) : t = s := by
  unfold pagingMapPage at hret
  split at hret
  · cases hret
    rfl
  rename_i hdir
  split at hret
  · cases hret
    rfl
  rename_i halign
  rw [flagChecks_eq fun error => Except.ok (error, s)] at hret
  cases hflags : flagError virt flags with
  | some error =>
      rw [hflags, Option.elim_some] at hret
      cases hret
      rfl
  | none =>
      have hpresent : ¬ entryPresent (s.dirEntry (pdiOf virt)) = false :=
        fun habsent => hneeds ⟨hdir, halign, hflags, habsent⟩
      have hentry : s.pmm.mem.readWord (s.pageDirectoryLocPhys + 4 * pdiOf virt) =
          s.dirEntry (pdiOf virt) := by
        rw [h.dir_eq]
        rfl
      rw [hflags, Option.elim_none, pdiOf_def, physToVirt_of_lt h.dir_lt, ok_bind, ensureTable,
        hentry, if_neg hpresent] at hret
      by_cases hmismatch : flags &&& pgUser ≠ 0 ∧ s.dirEntry (pdiOf virt) &&& pgUser = 0
      · rw [if_pos hmismatch] at hret
        cases hret
        rfl
      · rw [if_neg hmismatch] at hret
        dsimp only at hret
        rw [if_neg (by simp)] at hret
        obtain ⟨pt?, -, hret⟩ := bind_eq_ok.mp hret
        cases pt? with
        | none =>
            cases hret
            rfl
        | some pt =>
            dsimp only at hret
            split at hret
            · cases hret
              rfl
            · exact absurd (Prod.mk.inj (Except.ok.inj hret)).1.symm hfail

/-- `paging_map_page` maps what it should, exactly if a frame that it has to make a table of
describes no page and can be reached. -/
theorem pagingMapPage_newTable_iff (h : s.DirSafe) (hphys : phys < 2 ^ 32) (flags : BitVec 32) :
    MapsOnly s virt phys flags ↔ BlankFrame s virt phys flags := by
  constructor
  · intro hmaps hneeds
    obtain ⟨t, hret, hpages⟩ := hmaps.new hneeds
    have hcount : s.pageTableCount < ptMax := by
      by_contra hge
      rw [pagingMapPage_noTable h hneeds (.inl hge)] at hret
      simp at hret
    have hnext := Pmm.getNext_spec h.sound
    generalize hget : Pmm.pmmGetNextAvailableBlock s.pmm = r at hnext
    cases hnext with
    | oom =>
        rw [pagingMapPage_noTable h hneeds (.inr hget)] at hret
        simp at hret
    | @found f pmm htook =>
        rw [pagingMapPage_withTable h hneeds hcount hget] at hret
        have hreach : f ≠ 0 ∧ f < 0x30000 := by
          by_contra hbad
          exact mapInTable_unreached hbad t hret
        refine ⟨hcount, f, pmm, rfl, hreach.1, hreach.2, fun j hj => ?_⟩
        rw [mapInTable_withTable h htook hreach.1 hreach.2] at hret
        split at hret
        · simp at hret
        · rename_i hentry
          obtain ⟨-, rfl⟩ := Prod.mk.inj (Except.ok.inj hret)
          by_cases hji : j = ptiOf virt
          · subst hji
            simpa using hentry
          · -- any other present entry would be a page that the call has mapped
            have hpage := hpages j hj
            rw [pageMap_withTable h htook _ hj, if_neg hji, if_neg hji] at hpage
            simpa [Option.guard] using hpage
  · intro hblank
    refine ⟨fun hneeds => ?_, fun status t hret hfail => ?_⟩
    · obtain ⟨hcount, f, pmm, hget, hne, hlt, hempty⟩ := hblank hneeds
      have htook := took_of_getNext h.sound hget
      refine ⟨_, (pagingMapPage_withTable h hneeds hcount hget).trans
        ((mapInTable_withTable h htook hne hlt).trans
          (if_neg (by simp [hempty _ (ptiOf_lt virt)]))), fun j hj => ?_⟩
      rw [pageMap_withTable h htook _ hj]
      split
      · exact mapping_mkEntry (by have := hneeds.aligned; omega) hphys flags
      · simp [Option.guard, hempty j hj]
    · by_cases hneeds : NeedsTable s virt phys flags
      · obtain ⟨hcount, f, pmm, hget, hne, hlt, hempty⟩ := hblank hneeds
        have htook := took_of_getNext h.sound hget
        rw [pagingMapPage_withTable h hneeds hcount hget,
          mapInTable_withTable h htook hne hlt,
          if_neg (by simp [hempty _ (ptiOf_lt virt)])] at hret
        exact absurd (Prod.mk.inj (Except.ok.inj hret)).1.symm hfail
      · rw [pagingMapPage_fail h hneeds hret hfail]

/-- Four frames: the directory in frame 1, the bitmap in frame 2, and frame 3 free, with `w` left in
its first word. -/
def leftover (w : BitVec 32) : State :=
  { pmm := { mem := setEntry (fun a => if a = 0x2000 then 7 else 0) 3 0 w, pagebitmapPhys := 0x2000,
             pagebitmapSizeBytes := 1, frameCount := 4, frameHint := 0, availableFrames := 1,
             usePhysWindowAlias := true, memRegions := [] }
    pageDirectoryLocPhys := 0x1000
    pageTablesLocPhys := fun _ => 0
    pageTableCount := 0
    cr3 := 0x1000 }

/-- With a present entry left in the frame, mapping page `0x401` also maps page `0x400`. -/
theorem leftover_mapped :
    NeedsTable (leftover 1) 0x401000 0x9000 pgUser ∧ (leftover 1).pageMap 0x400 = none ∧
      (∃ t, pagingMapPage (leftover 1) 0x401000 0x9000 pgUser = .ok (.ok, t) ∧
        t.pageMap 0x400 = some ⟨0, 1⟩) ∧
      ¬ MapsOnly (leftover 1) 0x401000 0x9000 pgUser := by
  have hneeds : NeedsTable (leftover 1) 0x401000 0x9000 pgUser :=
    ⟨by decide, by decide, by decide, by decide +kernel⟩
  obtain ⟨⟨status, t⟩, hret, htest⟩ := exists_of_okAnd (show
    okAnd (pagingMapPage (leftover 1) 0x401000 0x9000 pgUser)
      (fun r => decide (r.1 = .ok ∧ r.2.pageMap 0x400 = some ⟨0, 1⟩)) = true by decide +kernel)
  obtain ⟨hok, hpage⟩ : status = .ok ∧ t.pageMap 0x400 = some ⟨0, 1⟩ := of_decide_eq_true htest
  subst hok
  refine ⟨hneeds, by decide +kernel, ⟨t, hret, hpage⟩, fun hmaps => ?_⟩
  obtain ⟨u, hret', hpages⟩ := hmaps.new hneeds
  obtain rfl : t = u := (Prod.mk.inj (Except.ok.inj (hret.symm.trans hret'))).2
  have hnone : t.pageMap 0x400 = none := hpages 0 (by decide)
  rw [hpage] at hnone
  cases hnone

theorem pagingMapPage_newTable_iff_blank :
    (leftover 0).DirSafe ∧ (MapsOnly (leftover 0) 0x401000 0x9000 pgUser ↔
      BlankFrame (leftover 0) 0x401000 0x9000 pgUser) := by
  have hsafe : (leftover 0).DirSafe := by
    refine ⟨⟨⟨⟨by decide, by decide +kernel, ?_⟩, by decide, by decide, rfl⟩, by decide +kernel⟩,
      rfl, by decide, fun _ => by decide +kernel, by decide⟩
    rintro f - ⟨a, -, -, r, hr, -⟩
    simp [leftover] at hr
  exact ⟨hsafe, pagingMapPage_newTable_iff hsafe (by decide) pgUser⟩

end Unidos.Paging
