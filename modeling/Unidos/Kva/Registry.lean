import Unidos.Lib.CStrings
import Unidos.Machine
import Unidos.Lib.Run

/-!
# The registry of kernel regions

After `kernel/kva.c`. Regions of the kernel's address space are registered under a name, in an array
with two places more than `KVA_REGION_MAX`. The regions of the physical window and of the kernel
stack are entered with the first registration; their places are not the two extra ones, but the
last two of those that registrations use.

`lookups_iff` says that all regions can be found under their names as long as the registrations
have not reached these places, and no longer. `registered_ranges_disjoint` says that the ranges
handed out never overlap and stay below the physical window, for all sizes.
-/

namespace Unidos.Kva

open Lib

/-- `KVA_REGION_MAX`. -/
def kvaRegionMax : Nat := 16

/-- `KVA_NAME_MAX`. -/
def kvaNameMax : Nat := 16

/-- `KVA_REGION_BASE`. -/
def kvaRegionBase : Nat := kernelVirtualBase + 0x01000000

/-- `STACK_VIRTUAL_BASE`. -/
def stackVirtualBase : Nat := 0xF7000000

/-- `STACK_PAGE_SIZE`, a number of pages. -/
def stackPageSize : Nat := 16

/-- `kva_region_t`. -/
structure KvaRegion where
  name : Nat → Byte
  base : Nat
  size : Nat
  mapped : Bool

/-- The variables of `kva.c`. -/
structure State where
  regions : Nat → KvaRegion
  regionCount : Nat
  nextFree : Nat
  initialized : Bool

/-- The variables at the start of the kernel. -/
def State.start : State where
  regions _ := ⟨fun _ => 0, 0, 0, false⟩
  regionCount := 0
  nextFree := kvaRegionBase
  initialized := false

/-- The search of the lookup functions: the first initialised record with the name. -/
def State.find (k : State) (name : Nat → Byte) : Option Nat :=
  (List.range (kvaRegionMax + 2)).find? fun i =>
    (k.regions i).base != 0 && strncmp kvaNameMax (k.regions i).name name == 0

def kvaGetRegionBase (k : State) (name : Nat → Byte) : Except Trap Nat :=
  match k.find name with
  | some i => .ok (k.regions i).base
  | none => .error (.panic "KVA region not found")

def kvaGetRegionSize (k : State) (name : Nat → Byte) : Except Trap Nat :=
  match k.find name with
  | some i => .ok (k.regions i).size
  | none => .error (.panic "KVA region not found")

def kvaRegionExists (k : State) (name : Nat → Byte) : Bool := (k.find name).isSome

/-- `REGION_PHYSWIN`. -/
def regionPhyswin : Nat → Byte := chars ['p', 'h', 'y', 's', 'w', 'i', 'n']

/-- `REGION_KERNEL_STACK`. -/
def regionKernelStack : Nat → Byte := chars ['u', 'n', 'i', 's', 't', 'a', 'c', 'k']

/-- A record is filled in. -/
def KvaRegion.fill (r : KvaRegion) (name : Nat → Byte) (base size : Nat) (mapped : Bool) :
    KvaRegion := ⟨strncpy kvaNameMax r.name name, base, size, mapped⟩

/-- The lazy initialisation of the two built-in regions. -/
def State.init (k : State) : State :=
  if k.initialized then k
  else
    let regions := Function.update k.regions (kvaRegionMax - 2)
      ((k.regions (kvaRegionMax - 2)).fill regionPhyswin physWindowBase 0x10000000 true)
    let regions := Function.update regions (kvaRegionMax - 1)
      ((regions (kvaRegionMax - 1)).fill regionKernelStack stackVirtualBase (stackPageSize * 4096)
        true)
    { k with initialized := true, regions := regions }

/-- `kva_register_region`, with the size of the kernel image. The result has the value of
`*out_base`. -/
def kvaRegisterRegion (kernelSize : Nat) (k : State) (name : Nat → Byte) (size : Nat) :
    Except Trap (Nat × State) :=
  if (kernelVirtualBase + kernelSize) % 2 ^ 32 > kvaRegionBase then
    .error (.panic "kernel image too large; overlaps KVA region")
  else
    let k := k.init
    if k.regionCount ≥ kvaRegionMax then .error (.panic "Exceeded max KVA region count")
    else if size = 0 ∨ size % 4096 ≠ 0 then
      .error (.panic "KVA region size must be nonzero and page-aligned")
    else if (k.nextFree + size) % 2 ^ 32 > physWindowBase then
      .error (.panic "Exceeded KVA space limit")
    else if kvaRegionExists k name then
      .error (.panic "KVA region with this name already exists")
    else
      let nextFree := (k.nextFree + 0xFFF) % 2 ^ 32 / 4096 * 4096
      let region := (k.regions k.regionCount).fill name nextFree size false
      let next := (nextFree + size) % 2 ^ 32
      if next < nextFree ∨ (region.size + region.base) % 2 ^ 32 ≥ physWindowBase then
        .error (.panic "KVA region size out of bounds")
      else
        .ok (region.base, { k with
          regions := Function.update k.regions k.regionCount region
          nextFree := next
          regionCount := k.regionCount + 1 })

/-! ## Registrations -/

/-- A region as its owner knows it. -/
structure Entry where
  name : Nat → Byte
  base : Nat
  size : Nat

def physwin : Entry := ⟨regionPhyswin, physWindowBase, 0x10000000⟩

def unistack : Entry := ⟨regionKernelStack, stackVirtualBase, stackPageSize * 4096⟩

/-- The states after registrations that did not panic, with the entries that were registered. -/
inductive Registered (kernelSize : Nat) : List Entry → State → Prop where
  | nil : Registered kernelSize [] .start
  | snoc {l : List Entry} {k k' : State} {name : Nat → Byte} {base size : Nat} :
      Registered kernelSize l k → size < 2 ^ 32 →
      kvaRegisterRegion kernelSize k name size = .ok (base, k') →
      Registered kernelSize (l ++ [⟨name, base, size⟩]) k'

/-- The lookup functions find the entry. -/
structure Found (k : State) (e : Entry) : Prop where
  base : kvaGetRegionBase k e.name = .ok e.base
  size : kvaGetRegionSize k e.name = .ok e.size
  exist : kvaRegionExists k e.name = true

/-- All regions are found, the built-in ones included, and different names belong to different
records. -/
structure AllFound (l : List Entry) (k : State) : Prop where
  found : ∀ e ∈ physwin :: unistack :: l, Found k e
  apart : ∀ e ∈ physwin :: unistack :: l, ∀ e' ∈ physwin :: unistack :: l,
    ¬ SameString e.name e'.name → k.find e.name ≠ k.find e'.name

/-- What the initialised array holds in place `i` after the registrations `l`. -/
def place (l : List Entry) (i : Nat) : Option Entry :=
  if i < l.length then l[i]?
  else if i = kvaRegionMax - 2 then some physwin
  else if i = kvaRegionMax - 1 then some unistack
  else none

/-- The record belongs to the entry. -/
structure Recorded (r : KvaRegion) (e : Entry) : Prop where
  name : SameTo kvaNameMax e.name r.name
  base : r.base = e.base
  size : r.size = e.size

/-- The initialised array is as the registrations say, and no two of its names can be confused. -/
structure Inv (l : List Entry) (k : State) : Prop where
  ready : k.initialized = true
  count : k.regionCount = l.length
  count_le : l.length ≤ kvaRegionMax
  free_ge : kvaRegionBase ≤ k.nextFree
  free_lt : k.nextFree < physWindowBase
  dynamic : ∀ e ∈ l, 0 < e.base ∧ e.base < physWindowBase
  unused : ∀ i, place l i = none → (k.regions i).base = 0
  used : ∀ i e, place l i = some e → Recorded (k.regions i) e
  unique : ∀ i j e e', place l i = some e → place l j = some e' →
    SameTo kvaNameMax e.name e'.name → i = j

variable {l : List Entry} {k k' : State} {e e' : Entry} {i j : Nat} {name : Nat → Byte}
  {kernelSize base size : Nat}

theorem place_cases (h : place l i = some e) : l[i]? = some e ∨
    l.length ≤ i ∧ (i = kvaRegionMax - 2 ∧ e = physwin ∨ i = kvaRegionMax - 1 ∧ e = unistack) := by
  unfold place at h
  split at h
  · exact .inl h
  · rename_i hlen
    split at h
    · exact .inr ⟨by omega, .inl ⟨‹_›, (Option.some.inj h).symm⟩⟩
    · split at h
      · exact .inr ⟨by omega, .inr ⟨‹_›, (Option.some.inj h).symm⟩⟩
      · cases h

theorem place_of_getElem? (h : l[i]? = some e) : place l i = some e := by
  have hlen : i < l.length := (List.getElem?_eq_some_iff.mp h).1
  rw [place, if_pos hlen, h]

theorem place_lt (hlen : l.length ≤ kvaRegionMax) (h : place l i = some e) : i < kvaRegionMax := by
  rcases place_cases h with hget | ⟨-, ⟨rfl, -⟩ | ⟨rfl, -⟩⟩
  · exact Nat.lt_of_lt_of_le (List.getElem?_eq_some_iff.mp hget).1 hlen
  · decide
  · decide

/-- A registration takes the next place. -/
theorem place_snoc (l : List Entry) (e : Entry) (i : Nat) :
    place (l ++ [e]) i = if i = l.length then some e else place l i := by
  unfold place
  by_cases hlast : i = l.length
  · rw [if_pos hlast, if_pos (by simp; omega), hlast]
    simp
  · rw [if_neg hlast]
    by_cases hlt : i < l.length
    · rw [if_pos hlt, if_pos (by simp; omega), List.getElem?_append_left hlt]
    · rw [if_neg hlt, if_neg (by simp; omega)]

namespace Inv

theorem base_ne_zero (h : Inv l k) (hplace : place l i = some e) : e.base ≠ 0 := by
  rcases place_cases hplace with hget | ⟨-, ⟨-, rfl⟩ | ⟨-, rfl⟩⟩
  · have := (h.dynamic e (List.mem_of_getElem? hget)).1
    omega
  · decide
  · decide

/-- The test of the search. -/
theorem test_iff (h : Inv l k) : ((k.regions i).base != 0 &&
      strncmp kvaNameMax (k.regions i).name name == 0) = true ↔
    ∃ e, place l i = some e ∧ SameTo kvaNameMax e.name name := by
  rw [Bool.and_eq_true, bne_iff_ne, beq_iff_eq, strncmp_eq_zero]
  cases hplace : place l i with
  | none => simp [h.unused i hplace]
  | some e =>
      have hrec := h.used i e hplace
      have hpos := h.base_ne_zero hplace
      constructor
      · rintro ⟨-, hname⟩
        exact ⟨e, rfl, hrec.name.trans hname⟩
      · rintro ⟨e', heq, hname⟩
        cases heq
        exact ⟨by rw [hrec.base]; exact hpos, hrec.name.symm.trans hname⟩

theorem find_some (h : Inv l k) (hfind : k.find name = some i) :
    ∃ e, place l i = some e ∧ SameTo kvaNameMax e.name name := by
  have htest := List.find?_some hfind
  exact h.test_iff.mp htest

theorem find_none (h : Inv l k) (hfind : k.find name = none) (hplace : place l i = some e) :
    ¬ SameTo kvaNameMax e.name name := by
  have hlt := place_lt h.count_le hplace
  have htest := List.find?_eq_none.mp hfind i (List.mem_range.mpr (by omega))
  exact fun hname => htest (h.test_iff.mpr ⟨e, hplace, hname⟩)

/-- Every entry is found in its place. -/
theorem find_eq (h : Inv l k) (hplace : place l i = some e) : k.find e.name = some i := by
  cases hfind : k.find e.name with
  | none => exact absurd (.refl _ _) (h.find_none hfind hplace)
  | some j =>
      obtain ⟨e', hplace', hsame⟩ := h.find_some hfind
      rw [h.unique j i e' e hplace' hplace hsame]

theorem found (h : Inv l k) (hplace : place l i = some e) : Found k e := by
  have hfind := h.find_eq hplace
  have hrec := h.used i e hplace
  refine ⟨?_, ?_, ?_⟩
  · rw [kvaGetRegionBase, hfind, ← hrec.base]
  · rw [kvaGetRegionSize, hfind, ← hrec.size]
  · rw [kvaRegionExists, hfind]
    rfl

end Inv

theorem physwin_unistack_apart : ¬ SameTo kvaNameMax physwin.name unistack.name := by
  intro h
  exact absurd (h 0 (by decide) (by omega)) (by decide)

theorem Recorded.fill (r : KvaRegion) (name : Nat → Byte) (base size : Nat) (mapped : Bool) :
    Recorded (r.fill name base size mapped) ⟨name, base, size⟩ :=
  ⟨sameTo_strncpy _ _ _, rfl, rfl⟩

theorem init_regions (h : k.initialized = false) :
    k.init.regions = Function.update (Function.update k.regions (kvaRegionMax - 2)
        ((k.regions (kvaRegionMax - 2)).fill regionPhyswin physWindowBase 0x10000000 true))
      (kvaRegionMax - 1) ((k.regions (kvaRegionMax - 1)).fill regionKernelStack stackVirtualBase
        (stackPageSize * 4096) true) := by
  rw [State.init, if_neg (by simp [h])]
  dsimp only
  rw [Function.update_of_ne (by decide)]

theorem start_inv : Inv [] State.start.init where
  ready := rfl
  count := rfl
  count_le := by decide
  free_ge := by decide
  free_lt := by decide
  dynamic := by simp
  unused i hplace := by
    have hphyswin : i ≠ kvaRegionMax - 2 := by
      rintro rfl
      cases hplace
    have hunistack : i ≠ kvaRegionMax - 1 := by
      rintro rfl
      cases hplace
    rw [init_regions rfl, Function.update_of_ne hunistack, Function.update_of_ne hphyswin]
    rfl
  used i e hplace := by
    rcases place_cases hplace with hget | ⟨-, ⟨rfl, rfl⟩ | ⟨rfl, rfl⟩⟩
    · cases hget
    · rw [init_regions rfl, Function.update_of_ne (by decide), Function.update_self]
      exact .fill ..
    · rw [init_regions rfl, Function.update_self]
      exact .fill ..
  unique i j e e' hplace hplace' hsame := by
    rcases place_cases hplace with hget | ⟨-, ⟨rfl, rfl⟩ | ⟨rfl, rfl⟩⟩ <;>
      rcases place_cases hplace' with hget' | ⟨-, ⟨rfl, rfl⟩ | ⟨rfl, rfl⟩⟩
    · cases hget
    · cases hget
    · cases hget
    · cases hget'
    · rfl
    · exact absurd hsame physwin_unistack_apart
    · cases hget'
    · exact absurd hsame.symm physwin_unistack_apart
    · rfl

/-- What a registration does that does not panic. -/
structure Registration (k : State) (name : Nat → Byte) (size base : Nat) (k' : State) : Prop where
  room : k.regionCount < kvaRegionMax
  pages : size ≠ 0 ∧ size % 4096 = 0
  fresh : k.find name = none
  base_eq : base = (k.nextFree + 0xFFF) % 2 ^ 32 / 4096 * 4096
  no_wrap : base ≤ (base + size) % 2 ^ 32
  below : (base + size) % 2 ^ 32 < physWindowBase
  state : k' = { k with
    regions := Function.update k.regions k.regionCount
      ((k.regions k.regionCount).fill name base size false)
    nextFree := (base + size) % 2 ^ 32
    regionCount := k.regionCount + 1 }

theorem kvaRegisterRegion_cases (h : kvaRegisterRegion kernelSize k name size = .ok (base, k')) :
    Registration k.init name size base k' := by
  unfold kvaRegisterRegion at h
  split at h
  · cases h
  · dsimp only at h
    split at h
    · cases h
    · split at h
      · cases h
      · split at h
        · cases h
        · split at h
          · cases h
          · rename_i hroom hpages _ hfresh
            split at h
            · cases h
            · rename_i hbounds
              cases h
              refine ⟨?_, not_or.mp hpages |>.imp_right not_not.mp, ?_, rfl, ?_, ?_, rfl⟩
              · omega
              · exact Option.not_isSome_iff_eq_none.mp hfresh
              · exact Nat.le_of_not_lt fun hlt => hbounds (.inl hlt)
              · refine Nat.lt_of_not_le fun hle => hbounds (.inr ?_)
                rwa [Nat.add_comm]

theorem Registration.base_ge (hreg : Registration k name size base k') (h : Inv l k) :
    kvaRegionBase ≤ base := by
  have hge := h.free_ge
  have hlt := h.free_lt
  have hbase := hreg.base_eq
  have hstart : kvaRegionBase % 4096 = 0 := by decide
  have hend : physWindowBase + 0xFFF < 2 ^ 32 := by decide
  rw [hbase, Nat.mod_eq_of_lt (by omega)]
  omega

namespace Inv

theorem init_eq (h : Inv l k) : k.init = k := by
  rw [State.init, if_pos h.ready]

/-- A registration keeps the array in order. -/
theorem registration (h : Inv l k) (hreg : Registration k name size base k') :
    Inv (l ++ [⟨name, base, size⟩]) k' := by
  have hbase : kvaRegionBase ≤ base := hreg.base_ge h
  have hfresh {i e} (hplace : place l i = some e) : ¬ SameTo kvaNameMax e.name name :=
    h.find_none hreg.fresh hplace
  rw [hreg.state]
  constructor
  case ready => exact h.ready
  case count => rw [List.length_append, h.count]; rfl
  case count_le =>
    have hroom := hreg.room
    rw [h.count] at hroom
    rw [List.length_append]
    exact hroom
  case free_ge => exact Nat.le_trans hbase hreg.no_wrap
  case free_lt => exact hreg.below
  case dynamic =>
    intro e he
    rcases List.mem_append.mp he with he | he
    · exact h.dynamic e he
    · cases List.mem_singleton.mp he
      exact ⟨Nat.lt_of_lt_of_le (by decide) hbase, Nat.lt_of_le_of_lt hreg.no_wrap hreg.below⟩
  case unused =>
    intro i hplace
    rw [place_snoc] at hplace
    split at hplace
    · cases hplace
    · rename_i hlast
      rw [← h.count] at hlast
      dsimp only
      rw [Function.update_of_ne hlast]
      exact h.unused i hplace
  case used =>
    intro i e hplace
    rw [place_snoc, ← h.count] at hplace
    dsimp only
    split at hplace
    · rename_i hlast
      cases hplace
      rw [hlast, Function.update_self]
      exact .fill ..
    · rename_i hlast
      rw [Function.update_of_ne hlast]
      exact h.used i e hplace
  case unique =>
    intro i j e e' hplace hplace' hsame
    rw [place_snoc] at hplace hplace'
    split at hplace <;> split at hplace'
    · omega
    · cases hplace
      exact absurd hsame.symm (hfresh hplace')
    · cases hplace'
      exact absurd hsame (hfresh hplace)
    · exact h.unique i j e e' hplace hplace' hsame

end Inv

theorem Registered.inv (h : Registered kernelSize l k) : Inv l k.init := by
  induction h with
  | nil => exact start_inv
  | snoc _ _ hcall ih =>
      have hinv := ih.registration (kvaRegisterRegion_cases hcall)
      rwa [hinv.init_eq]

theorem Registered.ready (h : Registered kernelSize l k) (hl : l ≠ []) : k.init = k := by
  cases h with
  | nil => exact absurd rfl hl
  | snoc hprev _ hcall => exact (hprev.inv.registration (kvaRegisterRegion_cases hcall)).init_eq

/-! ## Which registrations leave all regions findable -/

namespace Inv

theorem allFound (h : Inv l k) (hlen : l.length ≤ kvaRegionMax - 2) : AllFound l k := by
  have hplaced : ∀ e ∈ physwin :: unistack :: l, ∃ i, place l i = some e := by
    intro e he
    rcases List.mem_cons.mp he with rfl | he
    · refine ⟨kvaRegionMax - 2, ?_⟩
      rw [place, if_neg (by omega), if_pos rfl]
    · rcases List.mem_cons.mp he with rfl | he
      · refine ⟨kvaRegionMax - 1, ?_⟩
        rw [place, if_neg (by omega), if_neg (by decide), if_pos rfl]
      · obtain ⟨i, hget⟩ := List.mem_iff_getElem?.mp he
        exact ⟨i, place_of_getElem? hget⟩
  refine ⟨fun e he => ?_, fun e he e' he' hapart hsame => ?_⟩
  · obtain ⟨i, hplace⟩ := hplaced e he
    exact h.found hplace
  · obtain ⟨i, hplace⟩ := hplaced e he
    obtain ⟨j, hplace'⟩ := hplaced e' he'
    rw [h.find_eq hplace, h.find_eq hplace'] at hsame
    cases hsame
    rw [hplace] at hplace'
    cases hplace'
    exact hapart fun n => .refl n _

/-- The record of the physical window has been overwritten. -/
theorem physwin_lost (h : Inv l k) (hlen : kvaRegionMax - 2 < l.length) : ¬ Found k physwin := by
  intro hfound
  have hbase := hfound.base
  unfold kvaGetRegionBase at hbase
  cases hfind : k.find physwin.name with
  | none => simp [hfind] at hbase
  | some i =>
      rw [hfind] at hbase
      obtain ⟨e, hplace, -⟩ := h.find_some hfind
      have heq : e.base = physWindowBase := by
        rw [← (h.used i e hplace).base]
        exact Except.ok.inj hbase
      rcases place_cases hplace with hget | ⟨hle, ⟨rfl, -⟩ | ⟨-, rfl⟩⟩
      · have := (h.dynamic e (List.mem_of_getElem? hget)).2
        omega
      · omega
      · exact absurd heq (by decide)

end Inv

theorem start_not_found (e : Entry) : ¬ Found .start e := by
  intro hfound
  have hnone : State.start.find e.name = none := by
    refine List.find?_eq_none.mpr fun i _ => ?_
    simp [State.start]
  have hexist := hfound.exist
  rw [kvaRegionExists, hnone] at hexist
  cases hexist

/-- Regions of one page are registered one after another. -/
def registerPages (kernelSize : Nat) : List (List Char) → List Entry × State →
    Except Trap (List Entry × State)
  | [], s => .ok s
  | name :: names, (l, k) => do
      let (base, k) ← kvaRegisterRegion kernelSize k (chars name) 4096
      registerPages kernelSize names (l ++ [⟨chars name, base, 4096⟩], k)

theorem Registered.pages {names : List (List Char)} {l' : List Entry}
    (h : Registered kernelSize l k)
    (hcalls : registerPages kernelSize names (l, k) = .ok (l', k')) :
    Registered kernelSize l' k' := by
  induction names generalizing l k with
  | nil =>
      cases hcalls
      exact h
  | cons name names ih =>
      obtain ⟨⟨base, k₁⟩, hcall, hrest⟩ := bind_eq_ok.mp hcalls
      exact ih (h.snoc (by decide) hcall) hrest

/-- After any number of registrations all regions are found if and only if there has been one, so
that the built-in regions are entered, and not so many that these are overwritten. -/
theorem lookups_iff (hrun : Registered kernelSize l k) :
    AllFound l k ↔ 1 ≤ l.length ∧ l.length ≤ kvaRegionMax - 2 := by
  by_cases hl : l = []
  · cases hrun with
    | nil =>
        refine iff_of_false (fun hall => ?_) (by simp)
        exact start_not_found physwin (hall.found _ (.head _))
    | snoc => simp at hl
  · have hinv := hrun.inv
    rw [hrun.ready hl] at hinv
    have hpos : 1 ≤ l.length := List.length_pos_iff.mpr hl
    constructor
    · intro hall
      refine ⟨hpos, Nat.le_of_not_lt fun hlt => ?_⟩
      exact hinv.physwin_lost hlt (hall.found _ (.head _))
    · rintro ⟨-, hlen⟩
      exact hinv.allFound hlen

theorem lookups_iff_two_regions : ∃ l k, Registered 0x40000 l k ∧ l.length = 2 ∧ AllFound l k := by
  obtain ⟨⟨l, k⟩, hcalls, hlen⟩ := exists_of_okAnd
    (e := registerPages 0x40000 [['p', 'o', 'o', 'l'], ['h', 'e', 'a', 'p']] ([], .start))
    (p := fun r => decide (r.1.length = 2)) (by decide +kernel)
  have hrun := Registered.pages .nil hcalls
  have htwo : l.length = 2 := of_decide_eq_true hlen
  exact ⟨l, k, hrun, htwo, (lookups_iff hrun).mpr (by rw [htwo]; decide)⟩

/-- Fifteen registrations, as many as `KVA_REGION_MAX` allows and one less, take the place of the
physical window. -/
theorem physwin_overwritten : ∃ l k, Registered 0x40000 l k ∧ l.length = 15 ∧
    kvaGetRegionBase k regionPhyswin = .error (.panic "KVA region not found") := by
  obtain ⟨⟨l, k⟩, hcalls, htest⟩ := exists_of_okAnd
    (e := registerPages 0x40000 ("abcdefghijklmno".toList.map ([·])) ([], .start))
    (p := fun r => decide (r.1.length = 15) && (r.2.find regionPhyswin).isNone) (by decide +kernel)
  obtain ⟨hlen, hfind⟩ := Bool.and_eq_true_iff.mp htest
  refine ⟨l, k, .pages .nil hcalls, of_decide_eq_true hlen, ?_⟩
  rw [kvaGetRegionBase, Option.isNone_iff_eq_none.mp hfind]

/-! ## The ranges -/

/-- The range of an entry as an interval of unbounded integers: whole pages, at least one, between
`KVA_REGION_BASE` and the physical window. -/
structure WellPlaced (e : Entry) : Prop where
  base_aligned : e.base % 4096 = 0
  size_aligned : e.size % 4096 = 0
  nonempty : 0 < e.size
  above : kvaRegionBase ≤ e.base
  below : e.base + e.size ≤ physWindowBase

/-- The ranges of two entries have no address in common. -/
def Entry.Apart (e e' : Entry) : Prop := e.base + e.size ≤ e'.base ∨ e'.base + e'.size ≤ e.base

/-- What a registration hands out, over unbounded integers: the sums have not wrapped. -/
theorem Registration.range (hreg : Registration k name size base k') (h : Inv l k)
    (hsize : size < 2 ^ 32) : WellPlaced ⟨name, base, size⟩ ∧ k.nextFree ≤ base ∧
      k'.nextFree = base + size := by
  have hge := hreg.base_ge h
  have hfree := h.free_lt
  have hwindow : physWindowBase + 0xFFF < 2 ^ 32 := by decide
  have hup : (k.nextFree + 0xFFF) % 2 ^ 32 = k.nextFree + 0xFFF := Nat.mod_eq_of_lt (by omega)
  have hbase := hreg.base_eq
  rw [hup] at hbase
  -- A sum that wraps would come out below the base.
  have hsum : (base + size) % 2 ^ 32 = base + size := by
    have := hreg.no_wrap
    omega
  have hbelow := hreg.below
  rw [hsum] at hbelow
  refine ⟨⟨by dsimp only; omega, hreg.pages.2, Nat.pos_of_ne_zero hreg.pages.1, hge,
    Nat.le_of_lt hbelow⟩, by omega, ?_⟩
  rw [hreg.state]
  exact hsum

/-- Every range ends at or below the next free address. -/
theorem Registered.ends (hrun : Registered kernelSize l k) :
    ∀ e ∈ l, e.base + e.size ≤ k.init.nextFree := by
  induction hrun with
  | nil => simp
  | @snoc l k k' name base size hprev hsize hcall ih =>
      have hreg := kvaRegisterRegion_cases hcall
      obtain ⟨-, hle, hnext⟩ := hreg.range hprev.inv hsize
      rw [(hprev.inv.registration hreg).init_eq, hnext]
      intro e he
      rcases List.mem_append.mp he with he | he
      · exact Nat.le_trans (ih e he) (by omega)
      · obtain rfl := List.mem_singleton.mp he
        exact Nat.le_refl _

/-- However many regions have been registered, with whatever sizes: if no call panicked, all ranges
are well placed, and no two of them have an address in common. -/
theorem registered_ranges_disjoint (hrun : Registered kernelSize l k) :
    (∀ e ∈ l, WellPlaced e) ∧ l.Pairwise Entry.Apart := by
  induction hrun with
  | nil => simp
  | @snoc l k k' name base size hprev hsize hcall ih =>
      have hreg := kvaRegisterRegion_cases hcall
      obtain ⟨hplaced, hle, -⟩ := hreg.range hprev.inv hsize
      constructor
      · intro e he
        rcases List.mem_append.mp he with he | he
        · exact ih.1 e he
        · exact List.mem_singleton.mp he ▸ hplaced
      · refine List.pairwise_append.mpr ⟨ih.2, List.pairwise_singleton _ _, fun e he e' he' => ?_⟩
        obtain rfl := List.mem_singleton.mp he'
        exact .inl (Nat.le_trans (hprev.ends e he) hle)

theorem registered_ranges_disjoint_two : ∃ l k, Registered 0x40000 l k ∧ l.length = 2 ∧
    l.Pairwise Entry.Apart := by
  obtain ⟨⟨l, k⟩, hcalls, hlen⟩ := exists_of_okAnd
    (e := registerPages 0x40000 [['p', 'o', 'o', 'l'], ['h', 'e', 'a', 'p']] ([], .start))
    (p := fun r => decide (r.1.length = 2)) (by decide +kernel)
  have hrun := Registered.pages .nil hcalls
  exact ⟨l, k, hrun, of_decide_eq_true hlen, (registered_ranges_disjoint hrun).2⟩

end Unidos.Kva
