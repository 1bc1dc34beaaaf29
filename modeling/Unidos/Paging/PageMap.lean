import Unidos.Lib.Run
import Unidos.Lib.Translate
import Unidos.Paging.Query

/-!
# The paging functions as a finite map

`PageMap` is what the paging functions are for: a partial map from page numbers to frames and
flags, with the three operations on it. `State.pageMap` reads such a map off the kernel's
directory. On pages whose page table exists, `paging_map_page`, `paging_unmap_page` and
`paging_set_flags` do to the directory what the operations do to the map, and `paging_query_page`
reads it (`runOps_refines`).
-/

namespace Unidos.Paging

open Lib

/-! ## The abstract map -/

/-- Where a page is mapped to. -/
structure Mapping where
  frame : Nat
  flags : BitVec 32
  deriving DecidableEq, Repr

/-- A partial map from page numbers. -/
abbrev PageMap := Nat → Option Mapping

/-- The error for flags that do not suit the half of the address space. -/
def flagError (virtAddr : Nat) (flags : BitVec 32) : Option PagingStatus :=
  if virtAddr ≥ kernelVirtualBase ∧ flags &&& pgUser ≠ 0 then some .errUserFlagInKernelSpace
  else if virtAddr < kernelVirtualBase ∧ flags &&& pgUser = 0 then
    some .errKernelFlagInUserSpace
  else none

/-- The two checks of the flags, whatever is done with their error. -/
theorem flagChecks_eq {α : Sort*} (k : PagingStatus → α) (rest : α) (virt : Nat)
    (flags : BitVec 32) :
    (if virt ≥ kernelVirtualBase ∧ flags &&& pgUser ≠ 0 then k .errUserFlagInKernelSpace
      else if virt < kernelVirtualBase ∧ flags &&& pgUser = 0 then k .errKernelFlagInUserSpace
      else rest) = (flagError virt flags).elim rest k := by
  unfold flagError
  split
  · rfl
  · split
    · rfl
    · rfl

/-- The flags that are stored. -/
def storedFlags (flags : BitVec 32) : BitVec 32 := (flags &&& 0xFFF) ||| pgPresent

/-- Add a page that is not mapped yet. `user` says whether its page table serves user pages. -/
def PageMap.map (m : PageMap) (user : Bool) (virtAddr physAddr : Nat) (flags : BitVec 32) :
    PagingStatus × PageMap :=
  if virtAddr % 4096 ≠ 0 ∨ physAddr % 4096 ≠ 0 then (.errAlign, m)
  else
    match flagError virtAddr flags with
    | some error => (error, m)
    | none =>
        if flags &&& pgUser ≠ 0 ∧ user = false then (.errPtUserFlagMismatch, m)
        else if (m (virtAddr / 4096)).isSome then (.errAlreadyMapped, m)
        else (.ok, Function.update m (virtAddr / 4096)
          (some ⟨physAddr / 4096, storedFlags flags⟩))

/-- Remove a page, and say which frame it was mapped to. -/
def PageMap.unmap (m : PageMap) (virtAddr : Nat) : PagingStatus × Nat × PageMap :=
  if virtAddr % 4096 ≠ 0 then (.errAlign, 0, m)
  else
    match m (virtAddr / 4096) with
    | none => (.errNotMapped, 0, m)
    | some page => (.ok, 4096 * page.frame, Function.update m (virtAddr / 4096) none)

/-- Replace the flags of a page. -/
def PageMap.setFlags (m : PageMap) (user : Bool) (virtAddr : Nat) (flags : BitVec 32) :
    PagingStatus × PageMap :=
  if virtAddr % 4096 ≠ 0 then (.errAlign, m)
  else
    match flagError virtAddr flags with
    | some error => (error, m)
    | none =>
        if flags &&& pgUser ≠ 0 ∧ user = false then (.errPtUserFlagMismatch, m)
        else
          match m (virtAddr / 4096) with
          | none => (.errNotMapped, m)
          | some page => (.ok, Function.update m (virtAddr / 4096)
              (some ⟨page.frame, storedFlags flags⟩))

/-- What a query of a page is answered with. -/
def PageMap.query (m : PageMap) (virtAddr : Nat) : PagingStatus × QueryResult :=
  match m (virtAddr / 4096) with
  | none => (.errNotMapped, .zero)
  | some page => (.ok, ⟨true, 4096 * page.frame, page.flags⟩)

/-! ## The map in the kernel's directory -/

/-- The index of a page in the directory. -/
def pdiOf (virtAddr : Nat) : Nat := virtAddr / 2 ^ 22 % 1024

/-- The index of a page in its table. -/
def ptiOf (virtAddr : Nat) : Nat := virtAddr / 4096 % 1024

theorem pdiOf_lt (virt : Nat) : pdiOf virt < 1024 := Nat.mod_lt _ (by decide)

theorem ptiOf_lt (virt : Nat) : ptiOf virt < 1024 := Nat.mod_lt _ (by decide)

theorem pdiOf_def (virt : Nat) : virt / 2 ^ 22 % 1024 = pdiOf virt := rfl

theorem page_eq {virt : Nat} (h : virt < 2 ^ 32) :
    1024 * pdiOf virt + ptiOf virt = virt / 4096 := by
  unfold pdiOf ptiOf
  omega

/-- The frame of the kernel's directory. -/
def State.dirFrame (s : State) : Nat := s.pageDirectoryLocPhys / 4096

/-- Entry `i` of the kernel's directory. -/
def State.dirEntry (s : State) (i : Nat) : BitVec 32 := tableEntry s.pmm.mem s.dirFrame i

/-- What a table entry maps its page to. -/
def entryMapping (entry : BitVec 32) : Mapping := ⟨entryFrame entry, entryFlags entry⟩

/-- The kernel's directory as a partial map. -/
def State.pageMap (s : State) : PageMap := fun page =>
  if page < 2 ^ 20 then
    (translate s.pmm.mem s.dirFrame (page / 1024) (page % 1024)).map entryMapping
  else none

/-- Whether the page table of a page serves user pages. -/
def State.userTable (s : State) (virtAddr : Nat) : Bool :=
  s.dirEntry (pdiOf virtAddr) &&& pgUser != 0

/-- The kernel's directory is set up: distinct present entries name distinct tables, none of them
the directory, and the record of the tables agrees with the directory. -/
structure State.Wired (s : State) : Prop where
  dir_aligned : s.pageDirectoryLocPhys % 4096 = 0
  tables : Lib.Wired s.pmm.mem s.dirFrame
  loc : ∀ i, i < 1024 → entryPresent (s.dirEntry i) = true →
    s.pageTablesLocPhys i = entryPhys (s.dirEntry i)

/-- The directory and its tables lie where the physical window reaches them, and not at
address 0. -/
structure State.Reachable (s : State) : Prop where
  dir_ne : s.pageDirectoryLocPhys ≠ 0
  dir_lt : s.pageDirectoryLocPhys < 0x30000000
  table_ne : ∀ i, i < 1024 → entryPresent (s.dirEntry i) = true → entryPhys (s.dirEntry i) ≠ 0
  table_lt : ∀ i, i < 1024 → entryPresent (s.dirEntry i) = true →
    entryPhys (s.dirEntry i) < 0x30000000

variable {s t : State}

theorem State.Wired.dir_eq (h : s.Wired) : s.pageDirectoryLocPhys = 4096 * s.dirFrame := by
  have := h.dir_aligned
  unfold State.dirFrame
  omega

theorem State.Wired.readWord_dir (h : s.Wired) (i : Nat) :
    s.pmm.mem.readWord (s.pageDirectoryLocPhys + 4 * i) = s.dirEntry i := by
  rw [h.dir_eq]
  rfl

/-- Entry `j` of the table behind directory entry `i`. -/
def State.pageEntry (s : State) (i j : Nat) : BitVec 32 :=
  tableEntry s.pmm.mem (entryFrame (s.dirEntry i)) j

/-- What the map says about a page. -/
theorem pageMap_apply {virt : Nat} (hvirt : virt < 2 ^ 32) :
    s.pageMap (virt / 4096) =
      (translate s.pmm.mem s.dirFrame (pdiOf virt) (ptiOf virt)).map entryMapping := by
  have hdiv : virt / 4096 / 1024 = pdiOf virt := by
    unfold pdiOf
    omega
  unfold State.pageMap
  rw [if_pos (by omega), hdiv]
  rfl

theorem pageMap_of_present {virt : Nat} (hvirt : virt < 2 ^ 32)
    (hpresent : entryPresent (s.dirEntry (pdiOf virt)) = true) :
    s.pageMap (virt / 4096) = (Option.guard entryPresent
      (s.pageEntry (pdiOf virt) (ptiOf virt))).map entryMapping := by
  rw [pageMap_apply hvirt, translate_of_present hpresent]
  rfl

/-- The state with one entry of the table behind directory entry `i` rewritten. -/
def State.setPage (s : State) (i j : Nat) (w : BitVec 32) : State :=
  s.withMem (setEntry s.pmm.mem (entryFrame (s.dirEntry i)) j w)

theorem readWord_page (s : State) (i virt : Nat) :
    s.pmm.mem.readWord (4096 * entryFrame (s.dirEntry i) + 4 * (virt / 4096 % 1024)) =
      s.pageEntry i (ptiOf virt) := rfl

theorem withMem_page (s : State) (i virt : Nat) (w : BitVec 32) :
    s.withMem (s.pmm.mem.writeWord
      (4096 * entryFrame (s.dirEntry i) + 4 * (virt / 4096 % 1024)) w) =
      s.setPage i (ptiOf virt) w := rfl

/-- The table behind a present entry, as `pt_ptr_from_pdi` finds it. -/
theorem ptPtrFromPdi_wired (h : s.Wired) (hreach : s.Reachable) {i : Nat} (hi : i < 1024)
    (hpresent : entryPresent (s.dirEntry i) = true) :
    ptPtrFromPdi s i = .ok (some (4096 * entryFrame (s.dirEntry i))) := by
  have hloc := h.loc i hi hpresent
  have hne := hreach.table_ne i hi hpresent
  have hlt := hreach.table_lt i hi hpresent
  rw [← hloc] at hne hlt
  have hknown : ¬ (i > 0x3FF ∨ s.pageTablesLocPhys i = 0) := by omega
  unfold ptPtrFromPdi
  rw [if_neg hknown]
  refine bind_eq_ok.mpr ⟨_, physToVirt_of_lt hreach.dir_lt, ?_⟩
  rw [h.readWord_dir, if_neg (by simp [hpresent])]
  refine bind_eq_ok.mpr ⟨_, physToVirt_of_lt hlt, ?_⟩
  rw [hloc, entryPhys_eq]

/-- Writing table entries keeps the directory as it is. -/
structure SameDir (s t : State) : Prop where
  dir : t.pageDirectoryLocPhys = s.pageDirectoryLocPhys
  loc : t.pageTablesLocPhys = s.pageTablesLocPhys
  cr3 : t.cr3 = s.cr3
  agree : AgreeOn s.pmm.mem t.pmm.mem s.dirFrame

theorem SameDir.refl (s : State) : SameDir s s := ⟨rfl, rfl, rfl, .refl _ _⟩

theorem SameDir.dirFrame (h : SameDir s t) : t.dirFrame = s.dirFrame := by
  unfold State.dirFrame
  rw [h.dir]

theorem SameDir.trans {u : State} (h : SameDir s t) (h' : SameDir t u) : SameDir s u :=
  ⟨h'.dir.trans h.dir, h'.loc.trans h.loc, h'.cr3.trans h.cr3,
    h.agree.trans (h.dirFrame ▸ h'.agree)⟩

theorem SameDir.dirEntry (h : SameDir s t) {i : Nat} (hi : i < 1024) :
    t.dirEntry i = s.dirEntry i := by
  unfold State.dirEntry
  rw [h.dirFrame, h.agree.tableEntry hi]

theorem SameDir.wired (h : SameDir s t) (hs : s.Wired) : t.Wired where
  dir_aligned := h.dir ▸ hs.dir_aligned
  tables := h.dirFrame ▸ hs.tables.congr h.agree
  loc i hi := by
    rw [h.dirEntry hi, h.loc]
    exact hs.loc i hi

theorem SameDir.reachable (h : SameDir s t) (hs : s.Reachable) : t.Reachable where
  dir_ne := h.dir ▸ hs.dir_ne
  dir_lt := h.dir ▸ hs.dir_lt
  table_ne i hi := by
    rw [h.dirEntry hi]
    exact hs.table_ne i hi
  table_lt i hi := by
    rw [h.dirEntry hi]
    exact hs.table_lt i hi

theorem userTable_eq_false {virt : Nat} :
    s.userTable virt = false ↔ s.dirEntry (pdiOf virt) &&& pgUser = 0 := by
  simp [State.userTable]

theorem SameDir.userTable (h : SameDir s t) : t.userTable = s.userTable := by
  funext virt
  unfold State.userTable
  rw [h.dirEntry (pdiOf_lt virt)]

section SetPage

variable {i : Nat} (h : s.Wired) (hi : i < 1024) (hpresent : entryPresent (s.dirEntry i) = true)
  {j : Nat} (hj : j < 1024) (w : BitVec 32)

include h hi hpresent hj

theorem setPage_sameDir : SameDir s (s.setPage i j w) :=
  ⟨rfl, rfl, rfl, agreeOn_setPage h.tables hi hpresent hj w⟩

/-- Rewriting one table entry rewrites one page of the map. -/
theorem pageMap_setPage : (s.setPage i j w).pageMap = Function.update s.pageMap (1024 * i + j)
    ((Option.guard entryPresent w).map entryMapping) := by
  funext page
  unfold State.pageMap
  by_cases hpage : page < 2 ^ 20
  · rw [if_pos hpage]
    have hset := translate_setPage h.tables hi hpresent hj w
      (show page / 1024 < 1024 by omega) (show page % 1024 < 1024 by omega)
    change (translate (setEntry s.pmm.mem (entryFrame (s.dirEntry i)) j w) s.dirFrame
      (page / 1024) (page % 1024)).map _ = _
    rw [State.dirEntry, hset]
    by_cases heq : page = 1024 * i + j
    · subst heq
      rw [Function.update_self, if_pos ⟨by omega, by omega⟩]
    · rw [Function.update_of_ne heq, if_neg (by omega), if_pos hpage]
  · rw [Function.update_of_ne (by omega), if_neg hpage, if_neg hpage]

end SetPage

/-! ## The operations refine the map -/

/-- The entry that `paging_map_page` and `paging_set_flags` store. -/
theorem storedEntry_eq (phys : Nat) (flags : BitVec 32) :
    BitVec.ofNat 32 phys ||| (flags &&& 0xFFF) ||| pgPresent = mkEntry phys (storedFlags flags) :=
  BitVec.or_assoc ..

theorem storedFlags_lt (flags : BitVec 32) : (storedFlags flags).toNat < 4096 := by
  unfold storedFlags pgPresent
  rw [BitVec.toNat_or, BitVec.toNat_and]
  exact Nat.or_lt_two_pow (n := 12)
    (lt_of_le_of_lt Nat.and_le_right (by decide)) (by decide)

theorem entryPresent_storedFlags (flags : BitVec 32) : entryPresent (storedFlags flags) = true := by
  simp [storedFlags, pgPresent, entryPresent_eq]

theorem mapping_mkEntry {phys : Nat} (haligned : phys % 4096 = 0) (hlt : phys < 2 ^ 32)
    (flags : BitVec 32) :
    (Option.guard entryPresent (mkEntry phys (storedFlags flags))).map entryMapping =
      some ⟨phys / 4096, storedFlags flags⟩ := by
  have hflags := storedFlags_lt flags
  rw [Option.guard, entryPresent_mkEntry haligned, entryPresent_storedFlags, if_pos rfl,
    Option.map_some, entryMapping, entryFrame_mkEntry haligned hlt hflags,
    entryFlags_mkEntry haligned hflags]

/-- An operation on the directory that refines one on the map. -/
structure Refines (s : State) (m : PageMap) (t : State) : Prop extends SameDir s t where
  pageMap : t.pageMap = m

theorem Refines.same (s : State) : Refines s s.pageMap s := ⟨.refl s, rfl⟩

section Operations

variable (h : s.Wired) (hreach : s.Reachable) {virt : Nat} (hvirt : virt < 2 ^ 32)
  (hpresent : entryPresent (s.dirEntry (pdiOf virt)) = true)

include h hpresent

include hreach in
/-- What `paging_map_page` does once the arguments have passed and the table exists. -/
theorem pagingMapPage_present {phys : Nat} (flags : BitVec 32)
    (halign : ¬ (virt % 4096 ≠ 0 ∨ phys % 4096 ≠ 0)) :
    pagingMapPage s virt phys flags = (flagError virt flags).elim
      (if flags &&& pgUser ≠ 0 ∧ s.userTable virt = false then .ok (.errPtUserFlagMismatch, s)
        else if entryPresent (s.pageEntry (pdiOf virt) (ptiOf virt)) then
          .ok (.errAlreadyMapped, s)
        else .ok (.ok, s.setPage (pdiOf virt) (ptiOf virt) (mkEntry phys (storedFlags flags))))
      (fun error => .ok (error, s)) := by
  have hphys : phys / 4096 * 4096 = phys := by omega
  have habsent : ¬ entryPresent (s.dirEntry (pdiOf virt)) = false := by simp [hpresent]
  rw [pagingMapPage, if_neg hreach.dir_ne, if_neg halign,
    flagChecks_eq fun error => Except.ok (error, s)]
  cases flagError virt flags with
  | some error => rw [Option.elim_some, Option.elim_some]
  | none =>
      rw [Option.elim_none, Option.elim_none, pdiOf_def, hphys,
        physToVirt_of_lt hreach.dir_lt, ok_bind, ensureTable, h.readWord_dir, if_neg habsent]
      by_cases hmismatch : flags &&& pgUser ≠ 0 ∧ s.userTable virt = false
      · rw [if_pos hmismatch, if_pos ⟨hmismatch.1, userTable_eq_false.mp hmismatch.2⟩]
        rfl
      · rw [if_neg hmismatch,
          if_neg fun hand => hmismatch ⟨hand.1, userTable_eq_false.mpr hand.2⟩]
        dsimp only
        rw [if_neg (by simp), ptPtrFromPdi_wired h hreach (pdiOf_lt virt) hpresent, ok_bind,
          storedEntry_eq]
        dsimp only
        rw [readWord_page, withMem_page]

include hreach in
/-- What `paging_unmap_page` does once the argument has passed and the table exists. -/
theorem pagingUnmapPage_present (halign : ¬ virt % 4096 ≠ 0) :
    pagingUnmapPage s virt =
      if entryPresent (s.pageEntry (pdiOf virt) (ptiOf virt)) = false then
        .ok (.errNotMapped, 0, s)
      else .ok (.ok, entryPhys (s.pageEntry (pdiOf virt) (ptiOf virt)),
        s.setPage (pdiOf virt) (ptiOf virt) 0) := by
  have habsent : ¬ entryPresent (s.dirEntry (pdiOf virt)) = false := by simp [hpresent]
  rw [pagingUnmapPage, if_neg hreach.dir_ne, if_neg halign, pdiOf_def,
    physToVirt_of_lt hreach.dir_lt, ok_bind, h.readWord_dir, if_neg habsent,
    ptPtrFromPdi_wired h hreach (pdiOf_lt virt) hpresent, ok_bind]
  dsimp only
  rw [readWord_page, withMem_page]

include hreach in
/-- What `paging_set_flags` does once the arguments have passed and the table exists. -/
theorem pagingSetFlags_present (flags : BitVec 32) (halign : ¬ virt % 4096 ≠ 0) :
    pagingSetFlags s virt flags = (flagError virt flags).elim
      (if flags &&& pgUser ≠ 0 ∧ s.userTable virt = false then .ok (.errPtUserFlagMismatch, s)
        else if entryPresent (s.pageEntry (pdiOf virt) (ptiOf virt)) = false then
          .ok (.errNotMapped, s)
        else .ok (.ok, s.setPage (pdiOf virt) (ptiOf virt)
          (mkEntry (entryPhys (s.pageEntry (pdiOf virt) (ptiOf virt))) (storedFlags flags))))
      (fun error => .ok (error, s)) := by
  have habsent : ¬ entryPresent (s.dirEntry (pdiOf virt)) = false := by simp [hpresent]
  rw [pagingSetFlags, if_neg hreach.dir_ne, if_neg halign,
    flagChecks_eq fun error => Except.ok (error, s)]
  cases flagError virt flags with
  | some error => rw [Option.elim_some, Option.elim_some]
  | none =>
      rw [Option.elim_none, Option.elim_none, pdiOf_def, physToVirt_of_lt hreach.dir_lt,
        ok_bind, h.readWord_dir]
      dsimp only
      rw [if_neg habsent]
      by_cases hmismatch : flags &&& pgUser ≠ 0 ∧ s.userTable virt = false
      · rw [if_pos hmismatch, if_pos ⟨hmismatch.1, userTable_eq_false.mp hmismatch.2⟩]
      · rw [if_neg hmismatch,
          if_neg fun hand => hmismatch ⟨hand.1, userTable_eq_false.mpr hand.2⟩,
          ptPtrFromPdi_wired h hreach (pdiOf_lt virt) hpresent, ok_bind]
        dsimp only
        rw [readWord_page, withMem_page, storedEntry_eq]

include hvirt

theorem setPage_refines (w : BitVec 32) :
    Refines s (Function.update s.pageMap (virt / 4096)
      ((Option.guard entryPresent w).map entryMapping))
      (s.setPage (pdiOf virt) (ptiOf virt) w) := by
  have hmap := pageMap_setPage h (pdiOf_lt virt) hpresent (ptiOf_lt virt) w
  rw [page_eq hvirt] at hmap
  exact ⟨setPage_sameDir h (pdiOf_lt virt) hpresent (ptiOf_lt virt) w, hmap⟩

include hreach

theorem pagingMapPage_refines {phys : Nat} (hphys : phys < 2 ^ 32) (flags : BitVec 32) :
    ∃ t, pagingMapPage s virt phys flags =
        .ok ((s.pageMap.map (s.userTable virt) virt phys flags).1, t) ∧
      Refines s (s.pageMap.map (s.userTable virt) virt phys flags).2 t := by
  unfold PageMap.map
  by_cases halign : virt % 4096 ≠ 0 ∨ phys % 4096 ≠ 0
  · rw [if_pos halign, pagingMapPage, if_neg hreach.dir_ne, if_pos halign]
    exact ⟨s, rfl, .same s⟩
  rw [if_neg halign, pagingMapPage_present h hreach hpresent flags halign]
  cases flagError virt flags with
  | some error => exact ⟨s, rfl, .same s⟩
  | none =>
      dsimp only [Option.elim_none]
      by_cases hmismatch : flags &&& pgUser ≠ 0 ∧ s.userTable virt = false
      · rw [if_pos hmismatch, if_pos hmismatch]
        exact ⟨s, rfl, .same s⟩
      rw [if_neg hmismatch, if_neg hmismatch, pageMap_of_present hvirt hpresent]
      by_cases hentry : entryPresent (s.pageEntry (pdiOf virt) (ptiOf virt)) = true
      · rw [if_pos hentry, if_pos (by simp [Option.guard, hentry])]
        exact ⟨s, rfl, .same s⟩
      · rw [if_neg hentry, if_neg (by simp [Option.guard, hentry])]
        have hstore := setPage_refines h hvirt hpresent (mkEntry phys (storedFlags flags))
        rw [mapping_mkEntry (by omega) hphys] at hstore
        exact ⟨_, rfl, hstore⟩

theorem pagingUnmapPage_refines :
    ∃ t, pagingUnmapPage s virt =
        .ok ((s.pageMap.unmap virt).1, (s.pageMap.unmap virt).2.1, t) ∧
      Refines s (s.pageMap.unmap virt).2.2 t := by
  unfold PageMap.unmap
  by_cases halign : virt % 4096 ≠ 0
  · rw [if_pos halign, pagingUnmapPage, if_neg hreach.dir_ne, if_pos halign]
    exact ⟨s, rfl, .same s⟩
  rw [if_neg halign, pagingUnmapPage_present h hreach hpresent halign,
    pageMap_of_present hvirt hpresent]
  by_cases hentry : entryPresent (s.pageEntry (pdiOf virt) (ptiOf virt)) = true
  · have hstore := setPage_refines h hvirt hpresent 0
    rw [if_neg (by simp [hentry]), Option.guard, if_pos hentry, entryPhys_eq]
    exact ⟨_, rfl, hstore⟩
  · rw [if_pos (by simpa using hentry), Option.guard, if_neg hentry]
    exact ⟨s, rfl, .same s⟩

theorem pagingSetFlags_refines (flags : BitVec 32) :
    ∃ t, pagingSetFlags s virt flags =
        .ok ((s.pageMap.setFlags (s.userTable virt) virt flags).1, t) ∧
      Refines s (s.pageMap.setFlags (s.userTable virt) virt flags).2 t := by
  unfold PageMap.setFlags
  by_cases halign : virt % 4096 ≠ 0
  · rw [if_pos halign, pagingSetFlags, if_neg hreach.dir_ne, if_pos halign]
    exact ⟨s, rfl, .same s⟩
  rw [if_neg halign, pagingSetFlags_present h hreach hpresent flags halign]
  cases flagError virt flags with
  | some error => exact ⟨s, rfl, .same s⟩
  | none =>
      dsimp only [Option.elim_none]
      by_cases hmismatch : flags &&& pgUser ≠ 0 ∧ s.userTable virt = false
      · rw [if_pos hmismatch, if_pos hmismatch]
        exact ⟨s, rfl, .same s⟩
      rw [if_neg hmismatch, if_neg hmismatch, pageMap_of_present hvirt hpresent]
      by_cases hentry : entryPresent (s.pageEntry (pdiOf virt) (ptiOf virt)) = true
      · rw [if_neg (by simp [hentry]), Option.guard, if_pos hentry]
        have hstore := setPage_refines h hvirt hpresent
          (mkEntry (entryPhys (s.pageEntry (pdiOf virt) (ptiOf virt))) (storedFlags flags))
        rw [mapping_mkEntry (entryPhys_aligned _) (BitVec.isLt _)] at hstore
        exact ⟨_, rfl, hstore⟩
      · rw [if_pos (by simpa using hentry), Option.guard, if_neg hentry]
        exact ⟨s, rfl, .same s⟩

end Operations

/-- `paging_query_page` reads the map. -/
theorem pagingQueryPage_refines (h : s.Wired) (hreach : s.Reachable)
    (hcr3 : s.cr3 = s.pageDirectoryLocPhys) {virt : Nat} (hvirt : virt < 2 ^ 32) :
    pagingQueryPage s virt = .ok (s.pageMap.query virt) := by
  have hdir : s.cr3 / 4096 * 4096 = s.pageDirectoryLocPhys := by
    have := h.dir_aligned
    omega
  unfold pagingQueryPage PageMap.query
  rw [if_neg hreach.dir_ne, hdir, pdiOf_def, physToVirt_of_lt hreach.dir_lt, ok_bind,
    h.readWord_dir, pageMap_apply hvirt]
  by_cases hpresent : entryPresent (s.dirEntry (pdiOf virt)) = true
  · rw [if_neg (by simp [hpresent]), physToVirt_of_lt (hreach.table_lt _ (pdiOf_lt virt) hpresent),
      ok_bind, ← pageMap_apply hvirt, pageMap_of_present hvirt hpresent, entryPhys_eq,
      readWord_page]
    by_cases hentry : entryPresent (s.pageEntry (pdiOf virt) (ptiOf virt)) = true
    · rw [if_neg (by simp [hentry]), Option.guard, if_pos hentry, entryPhys_eq]
      rfl
    · rw [if_pos (by simpa using hentry), Option.guard, if_neg hentry]
      rfl
  · have habsent : entryPresent (s.dirEntry (pdiOf virt)) = false := by simpa using hpresent
    rw [if_pos habsent, translate_of_absent habsent]
    rfl

/-! ## Sequences of operations -/

/-- A call of one of the three functions, with 32-bit arguments. -/
inductive MapOp where
  | map (virt phys flags : BitVec 32)
  | unmap (virt : BitVec 32)
  | setFlags (virt flags : BitVec 32)

/-- The page that a call is about. -/
def MapOp.virt : MapOp → Nat
  | .map virt _ _ => virt.toNat
  | .unmap virt => virt.toNat
  | .setFlags virt _ => virt.toNat

/-- What a call answers: its status, and the address that `paging_unmap_page` stores. -/
abbrev Answer := PagingStatus × Nat

/-- Perform a call on the kernel's directory. -/
def MapOp.exec (s : State) : MapOp → Except Trap (Answer × State)
  | .map virt phys flags =>
      (pagingMapPage s virt.toNat phys.toNat flags).map fun r => ((r.1, 0), r.2)
  | .unmap virt => (pagingUnmapPage s virt.toNat).map fun r => ((r.1, r.2.1), r.2.2)
  | .setFlags virt flags => (pagingSetFlags s virt.toNat flags).map fun r => ((r.1, 0), r.2)

/-- Perform a call on the map. `user` says which page tables serve user pages. -/
def MapOp.apply (user : Nat → Bool) (m : PageMap) : MapOp → Answer × PageMap
  | .map virt phys flags =>
      let r := m.map (user virt.toNat) virt.toNat phys.toNat flags
      ((r.1, 0), r.2)
  | .unmap virt =>
      let r := m.unmap virt.toNat
      ((r.1, r.2.1), r.2.2)
  | .setFlags virt flags =>
      let r := m.setFlags (user virt.toNat) virt.toNat flags
      ((r.1, 0), r.2)

/-- Perform calls one after another on the directory. -/
def execOps (s : State) : List MapOp → Except Trap (List Answer × State)
  | [] => .ok ([], s)
  | op :: ops => do
      let (answer, s) ← op.exec s
      let (answers, s) ← execOps s ops
      .ok (answer :: answers, s)

/-- Perform calls one after another on the map. -/
def applyOps (user : Nat → Bool) (m : PageMap) : List MapOp → List Answer × PageMap
  | [] => ([], m)
  | op :: ops =>
      let r := op.apply user m
      let rest := applyOps user r.2 ops
      (r.1 :: rest.1, rest.2)

/-- One call on a page whose table exists. -/
theorem MapOp.exec_refines (h : s.Wired) (hreach : s.Reachable) (op : MapOp)
    (hpresent : entryPresent (s.dirEntry (pdiOf op.virt)) = true) :
    ∃ t, op.exec s = .ok ((op.apply s.userTable s.pageMap).1, t) ∧
      Refines s (op.apply s.userTable s.pageMap).2 t := by
  cases op with
  | map virt phys flags =>
      obtain ⟨t, hret, hmap⟩ := pagingMapPage_refines h hreach virt.isLt hpresent phys.isLt flags
      exact ⟨t, by rw [MapOp.exec, hret]; rfl, hmap⟩
  | unmap virt =>
      obtain ⟨t, hret, hmap⟩ := pagingUnmapPage_refines h hreach virt.isLt hpresent
      exact ⟨t, by rw [MapOp.exec, hret]; rfl, hmap⟩
  | setFlags virt flags =>
      obtain ⟨t, hret, hmap⟩ := pagingSetFlags_refines h hreach virt.isLt hpresent flags
      exact ⟨t, by rw [MapOp.exec, hret]; rfl, hmap⟩

/-- Sequences of calls on pages whose tables exist. -/
theorem execOps_refines (h : s.Wired) (hreach : s.Reachable) (ops : List MapOp)
    (hops : ∀ op ∈ ops, entryPresent (s.dirEntry (pdiOf op.virt)) = true) :
    ∃ t, execOps s ops = .ok ((applyOps s.userTable s.pageMap ops).1, t) ∧
      Refines s (applyOps s.userTable s.pageMap ops).2 t := by
  induction ops generalizing s with
  | nil => exact ⟨s, rfl, .same s⟩
  | cons op ops ih =>
      obtain ⟨u, hop, hu⟩ := MapOp.exec_refines h hreach op (hops op (by simp))
      -- the directory is the same, so the remaining calls find their tables as well
      obtain ⟨t, hrest, ht⟩ := ih (hu.toSameDir.wired h) (hu.toSameDir.reachable hreach)
        fun op' hmem => by
          rw [hu.dirEntry (pdiOf_lt _)]
          exact hops op' (by simp [hmem])
      rw [hu.toSameDir.userTable, hu.pageMap] at hrest ht
      refine ⟨t, ?_, hu.toSameDir.trans ht.toSameDir, ht.pageMap⟩
      rw [execOps, hop, ok_bind]
      dsimp only
      rw [hrest, ok_bind]
      rfl

/-- A page that suits its half of the address space: a kernel page without the user flag, or a user
page with it. -/
def Suits (page : Nat) (mapping : Mapping) : Prop :=
  mapping.flags &&& pgUser ≠ 0 ↔ 4096 * page < kernelVirtualBase

theorem storedFlags_user (flags : BitVec 32) : storedFlags flags &&& pgUser = flags &&& pgUser := by
  refine BitVec.eq_of_getLsbD_eq fun i hi => ?_
  have huser : ∀ i, i < 32 → (4 : BitVec 32).getLsbD i = decide (i = 2) := by decide
  simp only [storedFlags, pgPresent, pgUser, BitVec.getLsbD_and, BitVec.getLsbD_or,
    getLsbD_flagMask hi, huser i hi]
  by_cases hbit : i = 2
  · subst hbit
    simp
  · simp [hbit]

/-- Flags that pass the checks suit the page. -/
theorem suits_of_flagError {virt frame : Nat} {flags : BitVec 32}
    (h : flagError virt flags = none) : Suits (virt / 4096) ⟨frame, storedFlags flags⟩ := by
  unfold flagError at h
  split at h
  · cases h
  rename_i hkernel
  split at h
  · cases h
  rename_i huser
  have hbase : 4096 * (virt / 4096) < kernelVirtualBase ↔ virt < kernelVirtualBase := by
    unfold kernelVirtualBase
    omega
  unfold Suits
  rw [storedFlags_user, hbase]
  constructor
  · intro hflag
    by_contra hge
    exact hkernel ⟨by omega, hflag⟩
  · intro hlt hflag
    exact huser ⟨hlt, hflag⟩

/-- What a call does to the map: nothing if it fails, and otherwise it changes one page, which then
suits its half. -/
theorem MapOp.apply_cases (user : Nat → Bool) (m : PageMap) (op : MapOp) :
    (op.apply user m).2 = m ∨
      (op.apply user m).1.1 = .ok ∧ ∃ mapping, (op.apply user m).2 =
        Function.update m (op.virt / 4096) mapping ∧
        ∀ x, mapping = some x → Suits (op.virt / 4096) x := by
  cases op with
  | map virt phys flags =>
      unfold MapOp.apply PageMap.map
      dsimp only
      split
      · exact .inl rfl
      · split
        · exact .inl rfl
        · rename_i hflags
          split
          · exact .inl rfl
          · split
            · exact .inl rfl
            · refine .inr ⟨rfl, _, rfl, fun x hx => ?_⟩
              rw [← Option.some.inj hx]
              exact suits_of_flagError hflags
  | unmap virt =>
      unfold MapOp.apply PageMap.unmap
      dsimp only
      split
      · exact .inl rfl
      · split
        · exact .inl rfl
        · exact .inr ⟨rfl, none, rfl, by simp⟩
  | setFlags virt flags =>
      unfold MapOp.apply PageMap.setFlags
      dsimp only
      split
      · exact .inl rfl
      · split
        · exact .inl rfl
        · rename_i hflags
          split
          · exact .inl rfl
          · split
            · exact .inl rfl
            · refine .inr ⟨rfl, _, rfl, fun x hx => ?_⟩
              rw [← Option.some.inj hx]
              exact suits_of_flagError hflags

theorem MapOp.apply_suits {user : Nat → Bool} {m : PageMap} (op : MapOp) {page : Nat}
    (h : ∀ x, m page = some x → Suits page x) :
    ∀ x, (op.apply user m).2 page = some x → Suits page x := by
  intro x hx
  rcases op.apply_cases user m with hsame | ⟨-, mapping, hupdate, hsuits⟩
  · exact h x (hsame ▸ hx)
  · rw [hupdate] at hx
    by_cases hpage : page = op.virt / 4096
    · subst hpage
      rw [Function.update_self] at hx
      exact hsuits x hx
    · rw [Function.update_of_ne hpage] at hx
      exact h x hx

theorem applyOps_suits {user : Nat → Bool} (ops : List MapOp) {m : PageMap} {page : Nat}
    (h : ∀ x, m page = some x → Suits page x) :
    ∀ x, (applyOps user m ops).2 page = some x → Suits page x := by
  induction ops generalizing m with
  | nil => exact h
  | cons op ops ih => exact ih (op.apply_suits h)

/-- The paging functions are a finite map: over any sequence of calls on pages whose tables exist,
every call answers what the abstract map answers, every query reads that map, a call that fails
leaves it alone, a call on one page leaves the others alone, and no page comes to carry a user flag
that does not suit its half. -/
theorem runOps_refines (h : s.Wired) (hreach : s.Reachable)
    (hcr3 : s.cr3 = s.pageDirectoryLocPhys) (ops : List MapOp)
    (hops : ∀ op ∈ ops, entryPresent (s.dirEntry (pdiOf op.virt)) = true) :
    (∃ t, execOps s ops = .ok ((applyOps s.userTable s.pageMap ops).1, t) ∧
      ∀ virt : BitVec 32, pagingQueryPage t virt.toNat =
        .ok ((applyOps s.userTable s.pageMap ops).2.query virt.toNat)) ∧
    (∀ (m : PageMap) (op : MapOp),
      ((op.apply s.userTable m).1.1 ≠ .ok → (op.apply s.userTable m).2 = m) ∧
        ∀ page, page ≠ op.virt / 4096 → (op.apply s.userTable m).2 page = m page) ∧
    ∀ page, (∀ x, s.pageMap page = some x → Suits page x) →
      ∀ x, (applyOps s.userTable s.pageMap ops).2 page = some x → Suits page x := by
  refine ⟨?_, fun m op => ?_, fun page hpage => applyOps_suits ops hpage⟩
  · obtain ⟨t, hret, ht⟩ := execOps_refines h hreach ops hops
    refine ⟨t, hret, fun virt => ?_⟩
    rw [← ht.pageMap]
    exact pagingQueryPage_refines (ht.toSameDir.wired h) (ht.toSameDir.reachable hreach)
      (by rw [ht.cr3, ht.dir, hcr3]) virt.isLt
  · rcases op.apply_cases s.userTable m with hsame | ⟨hok, mapping, hupdate, -⟩
    · exact ⟨fun _ => hsame, fun page _ => by rw [hsame]⟩
    · refine ⟨fun hfail => absurd hok hfail, fun page hne => ?_⟩
      rw [hupdate, Function.update_of_ne hne]

/-- A directory in frame 1 with one table, at address `phys`, in otherwise empty memory. -/
def oneTable (phys : Nat) : State :=
  { pmm := { mem := setEntry (fun _ => 0) 1 0 (mkEntry phys 7), pagebitmapPhys := 0,
             pagebitmapSizeBytes := 0, frameCount := 0, frameHint := 0, availableFrames := 0,
             usePhysWindowAlias := true, memRegions := [] }
    pageDirectoryLocPhys := 0x1000
    pageTablesLocPhys := fun i => if i = 0 then phys else 0
    pageTableCount := 1
    cr3 := 0x1000 }

theorem oneTable_dirFrame (phys : Nat) : (oneTable phys).dirFrame = 1 := by
  simp [State.dirFrame, oneTable]

theorem oneTable_dirEntry (phys i : Nat) :
    (oneTable phys).dirEntry i = if i = 0 then mkEntry phys 7 else 0 := by
  rw [State.dirEntry, oneTable_dirFrame, oneTable]
  dsimp only
  split
  · rename_i hi
    rw [hi, tableEntry_setEntry_same]
  · rename_i hi
    rw [tableEntry_setEntry_ne _ _ hi]
    simp [tableEntry, Memory.readWord]

theorem oneTable_wired {phys : Nat} (haligned : phys % 4096 = 0) (hlt : phys < 2 ^ 32)
    (hne : phys ≠ 0x1000) : (oneTable phys).Wired := by
  have hfirst : ∀ i, entryPresent ((oneTable phys).dirEntry i) = true → i = 0 := by
    intro i hpresent
    rw [oneTable_dirEntry] at hpresent
    by_contra hi
    simp [hi, entryPresent] at hpresent
  have hphys : entryPhys ((oneTable phys).dirEntry 0) = phys := by
    rw [oneTable_dirEntry, if_pos rfl, entryPhys_mkEntry haligned hlt (by decide)]
  refine ⟨by simp [oneTable], ⟨fun i hi hpresent => ?_, fun i k hi hk hpi hpk heq => ?_⟩,
    fun i hi hpresent => ?_⟩
  · obtain rfl := hfirst i hpresent
    change entryFrame ((oneTable phys).dirEntry 0) ≠ _
    rw [entryFrame, hphys, oneTable_dirFrame]
    omega
  · exact (hfirst i hpi).trans (hfirst k hpk).symm
  · obtain rfl := hfirst i hpresent
    rw [hphys]
    rfl

/-- With the table at address 0 a page that the map could add is refused. -/
theorem table_at_zero :
    (oneTable 0).Wired ∧ (oneTable 0).cr3 = (oneTable 0).pageDirectoryLocPhys ∧
      entryPresent ((oneTable 0).dirEntry (pdiOf 0x5000)) = true ∧
      ((oneTable 0).pageMap.map ((oneTable 0).userTable 0x5000) 0x5000 0x9000 pgUser).1 = .ok ∧
      ∃ t, pagingMapPage (oneTable 0) 0x5000 0x9000 pgUser = .ok (.errFailedRetrievePt, t) := by
  obtain ⟨⟨status, t⟩, hret, htest⟩ := exists_of_okAnd (show
    okAnd (pagingMapPage (oneTable 0) 0x5000 0x9000 pgUser)
      (fun r => decide (r.1 = .errFailedRetrievePt)) = true by decide +kernel)
  have hstatus : status = .errFailedRetrievePt := of_decide_eq_true htest
  exact ⟨oneTable_wired rfl (by decide) (by decide), rfl, by decide +kernel, by decide +kernel, t,
    hstatus ▸ hret⟩

/-- The same call with the table at a proper address. -/
theorem runOps_refines_map : ∃ t,
    execOps (oneTable 0x2000) [.map 0x5000 0x9000 pgUser] = .ok ([(.ok, 0)], t) ∧
      pagingQueryPage t 0x5000 = .ok (.ok, ⟨true, 0x9000, 5⟩) := by
  have hfirst : ∀ i, entryPresent ((oneTable 0x2000).dirEntry i) = true →
      entryPhys ((oneTable 0x2000).dirEntry i) = 0x2000 := by
    intro i hpresent
    rw [oneTable_dirEntry] at hpresent ⊢
    split at hpresent
    · rename_i hi
      rw [if_pos hi]
      decide
    · simp [entryPresent] at hpresent
  have hreach : (oneTable 0x2000).Reachable :=
    ⟨by decide, by decide, fun i _ hpresent => by rw [hfirst i hpresent]; decide,
      fun i _ hpresent => by rw [hfirst i hpresent]; decide⟩
  obtain ⟨⟨t, hret, hquery⟩, -, -⟩ := runOps_refines (oneTable_wired rfl (by decide) (by decide))
    hreach rfl [.map 0x5000 0x9000 pgUser] (by decide +kernel)
  have hanswers : (applyOps (oneTable 0x2000).userTable (oneTable 0x2000).pageMap
      [.map 0x5000 0x9000 pgUser]).1 = [(.ok, 0)] := by decide +kernel
  have hread : (applyOps (oneTable 0x2000).userTable (oneTable 0x2000).pageMap
      [.map 0x5000 0x9000 pgUser]).2.query 0x5000 = (.ok, ⟨true, 0x9000, 5⟩) := by decide +kernel
  rw [hanswers] at hret
  exact ⟨t, hret, (hquery 0x5000).trans (congrArg _ hread)⟩

end Unidos.Paging
