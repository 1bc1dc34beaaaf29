import Unidos.Pmm.Regions

/-!
# What the region table covers

`pmm_reserve_range` writes the merged span back with a 32-bit length. As long as the table and the
new range leave some address below 4 GiB free, nothing is cut off and the table covers exactly
what it covered before and the new range (`ReserveCases.covered_iff`).
-/

namespace Unidos.Pmm

open Lib

/-- Every entry ends at or below 4 GiB. -/
def Bounded (regions : List MemRegion) : Prop := ∀ r ∈ regions, r.last ≤ 2 ^ 32

/-- Some address below 4 GiB lies neither in the table nor in `[base, last)`. -/
def Spare (regions : List MemRegion) (base last : Nat) : Prop :=
  ∃ a, a < 2 ^ 32 ∧ ¬ Covered regions a ∧ ¬ (base ≤ a ∧ a < last)

variable {old : List MemRegion} {base last : Nat} {m : Merge}

/-- The span stays inside the address space. -/
theorem MergeInv.mergedEnd_le (h : MergeInv old base last m) (hold : Bounded old)
    (hlast : last ≤ 2 ^ 32) (hlt : base < last) : m.mergedEnd ≤ 2 ^ 32 := by
  have hbase := h.base_le
  have hend := h.last_le
  rcases h.span (m.mergedEnd - 1) (by omega) (by omega) with hnew | ⟨r, hr, -, -, h2⟩
  · omega
  · have := hold r hr
    omega

/-- With an address to spare, the entry that is written back covers the whole span. -/
theorem MergeInv.entry_covers (h : MergeInv old base last m) (hold : Bounded old)
    (hlast : last ≤ 2 ^ 32) (hlt : base < last) (hspare : Spare old base last) :
    m.entry.base.toNat = m.mergedBase ∧ m.entry.last = m.mergedEnd := by
  have hbase := h.base_le
  have hend := h.last_le
  have hle := h.mergedEnd_le hold hlast hlt
  have hshort : m.mergedEnd - m.mergedBase < 2 ^ 32 := by
    obtain ⟨a, ha, hcov, hnew⟩ := hspare
    by_contra hfull
    exact (h.span a (by omega) (by omega)).elim hnew hcov
  simp only [MemRegion.last, Merge.entry, BitVec.toNat_ofNat]
  omega

/-- A slot of the settled table: outside the span it is an old slot. -/
theorem MergeInv.covered_or_span (h : MergeInv old base last m) {p : Nat}
    (hp : m.primary = some p) {a : Nat} (ha : Covered old a) :
    (m.mergedBase ≤ a ∧ a < m.mergedEnd) ∨
      ∃ i r, i ≠ p ∧ m.regions[i]? = some r ∧ r.type = .reserved ∧ r.base.toNat ≤ a ∧
        a < r.last := by
  obtain ⟨r, hr, htype, h1, h2⟩ := ha
  obtain ⟨i, hi⟩ := List.mem_iff_getElem?.mp hr
  rcases h.slot i r hi with hslot | ⟨-, -, h3, h4⟩
  · by_cases hip : i = p
    · subst hip
      obtain ⟨r', -, hold, -, h3, h4⟩ := h.primary i hp
      rw [hi, Option.some.injEq] at hold
      subst hold
      exact .inl ⟨by omega, by omega⟩
    · exact .inr ⟨i, r, hip, hslot, htype, h1, h2⟩
  · exact .inl ⟨by omega, by omega⟩

/-- A successful reservation adds exactly its range to the table. -/
theorem ReserveCases.covered_iff {s s' : State} {base length : BitVec 32} {init : Bool}
    {res : ReserveResult} (h : ReserveCases s base length init res s')
    (hok : res = .reserveSuccess ∨ res = .updatedExistingRegion) (hold : Bounded s.memRegions)
    (hlast : base.toNat + length.toNat ≤ 2 ^ 32)
    (hspare : Spare s.memRegions base.toNat (base.toNat + length.toNat)) :
    Bounded s'.memRegions ∧ ∀ a, Covered s'.memRegions a ↔
      Covered s.memRegions a ∨ (base.toNat ≤ a ∧ a < base.toNat + length.toNat) := by
  have hsub := fun a => h.covered_sub (a := a)
  cases h with
  | invalid | full => simp at hok
  | appended hlen hroom hfar =>
      rw [(applyInit_config _ _ _).regions] at hsub ⊢
      refine ⟨fun r hr => ?_, fun a => ⟨hsub a, ?_⟩⟩
      · rcases List.mem_append.mp hr with hr | hr
        · exact hold r hr
        · rw [List.mem_singleton] at hr
          subst hr
          exact hlast
      · rintro (⟨r, hr, hrest⟩ | hnew)
        · exact ⟨r, List.mem_append_left _ hr, hrest⟩
        · exact ⟨_, List.mem_append_right _ (List.mem_singleton.mpr rfl), rfl, hnew⟩
  | @merged m p hlen hp hdone =>
      have hpos : length.toNat ≠ 0 := fun hzero =>
        hlen (BitVec.eq_of_toNat_eq (by simpa using hzero))
      obtain ⟨hbase, hentry⟩ := hdone.entry_covers hold hlast (by omega) hspare
      have hend := hdone.mergedEnd_le hold hlast (by omega)
      have hregions : (compact (applyInit { s with memRegions := m.regions.set p m.entry }
          m.entry init)).memRegions = (m.regions.set p m.entry).filter fun r => r.length ≠ 0 := by
        simp only [compact, (applyInit_config _ _ _).regions]
      have hlt : p < m.regions.length := by
        obtain ⟨r, hr, -⟩ := hdone.primary p hp
        exact (List.getElem?_eq_some_iff.mp hr).1
      -- the entry is in the compacted table because it is not empty
      have hmem : ∀ a, m.mergedBase ≤ a → a < m.mergedEnd →
          Covered ((m.regions.set p m.entry).filter fun r => r.length ≠ 0) a := by
        intro a h1 h2
        have hlive := MemRegion.live_of_covers (r := m.entry) (a := a) rfl (by omega) (by omega)
        exact ⟨m.entry, List.mem_filter.mpr ⟨List.mem_set hlt m.entry, by simpa using hlive.2⟩,
          rfl, by omega, by omega⟩
      rw [hregions] at hsub ⊢
      refine ⟨fun r hr => ?_, fun a => ⟨hsub a, ?_⟩⟩
      · rcases List.mem_or_eq_of_mem_set (List.mem_filter.mp hr).1 with hin | rfl
        · obtain ⟨i, hi⟩ := List.mem_iff_getElem?.mp hin
          by_cases hlive : r.Live
          · exact hold r (List.mem_of_getElem? (hdone.live_slot hi hlive))
          · have hi' : i < s.memRegions.length := by
              rw [← hdone.length]
              exact (List.getElem?_eq_some_iff.mp hi).1
            rcases hdone.slot i _ (List.getElem?_eq_getElem hi') with hsame | ⟨hdead, -⟩
            · rw [hi, Option.some.injEq] at hsame
              exact hold r (hsame ▸ List.getElem_mem hi')
            · rw [hi, Option.some.injEq] at hdead
              have hkeep := (List.mem_filter.mp hr).2
              simp [hdead, MemRegion.tombstone] at hkeep
        · omega
      · rintro (hcov | ⟨h1, h2⟩)
        · rcases hdone.covered_or_span hp hcov with ⟨h1, h2⟩ | ⟨i, r, hip, hi, htype, h1, h2⟩
          · exact hmem a h1 h2
          · have hset : (m.regions.set p m.entry)[i]? = some r :=
              (List.getElem?_set_ne (fun heq => hip heq.symm)).trans hi
            have hlive := MemRegion.live_of_covers htype h1 h2
            exact ⟨r, List.mem_filter.mpr ⟨List.mem_of_getElem? hset, by simpa using hlive.2⟩,
              htype, h1, h2⟩
        · have := hdone.base_le
          have := hdone.last_le
          exact hmem a (by omega) (by omega)

end Unidos.Pmm
