import Unidos.Lib.Run
import Unidos.Pmm.Coverage

/-!
# The region table stays coalesced

However often `pmm_reserve_range` is called, no two entries of the table overlap or touch, because
a range that touches an entry is merged into it (`ReserveCases.tableInv`). Together with
`ReserveCases.covered_iff` this gives the state of the table after any sequence of reservations
(`run_coalesced`).
-/

namespace Unidos.Pmm

open Lib

/-- Two regions that neither overlap nor touch. -/
def MemRegion.Apart (r r' : MemRegion) : Prop :=
  r.last < r'.base.toNat ∨ r'.last < r.base.toNat

instance (r r' : MemRegion) : Decidable (r.Apart r') := inferInstanceAs (Decidable (_ ∨ _))

theorem MemRegion.Apart.symm {r r' : MemRegion} (h : r.Apart r') : r'.Apart r := Or.symm h

/-- What every table built by `pmm_reserve_range` satisfies. -/
structure TableInv (regions : List MemRegion) : Prop where
  live : ∀ r ∈ regions, r.Live
  apart : regions.Pairwise MemRegion.Apart
  bounded : Bounded regions
  length_le : regions.length ≤ memRegionsMax

theorem tableInv_nil : TableInv [] :=
  ⟨by simp, .nil, by simp [Bounded], Nat.zero_le _⟩

variable {old : List MemRegion} {base last : Nat} {m : Merge}

/-- The entry that is written back lies inside the span, even if its length is cut. -/
theorem MergeInv.entry_within (h : MergeInv old base last m) (hbase : base < 2 ^ 32)
    (hle : base ≤ last) : m.entry.base.toNat = m.mergedBase ∧ m.entry.last ≤ m.mergedEnd := by
  have hbase' := h.base_le
  have hlast := h.last_le
  simp only [MemRegion.last, Merge.entry, BitVec.toNat_ofNat]
  omega

/-- A live slot other than the primary one was live before, and lies apart from the entry. -/
theorem MergeDone.apart_entry (h : MergeDone old base last m) (hbase : base < 2 ^ 32)
    (hle : base ≤ last) {i p : Nat} {r : MemRegion} (hp : m.primary = some p) (hne : i ≠ p)
    (hr : m.regions[i]? = some r) (hlive : r.Live) : m.entry.Apart r := by
  have hfar : ¬ m.CanMerge r := by
    intro hmerge
    have hprimary := h.settled i r hr hlive hmerge
    rw [hp, Option.some.injEq] at hprimary
    exact hne hprimary.symm
  obtain ⟨hentry, hlast⟩ := h.entry_within hbase hle
  unfold Merge.CanMerge at hfar
  unfold MemRegion.Apart
  omega

/-- The live slots of the table that is written back are pairwise apart. -/
theorem MergeDone.pairwise_set (h : MergeDone old base last m) (hold : old.Pairwise MemRegion.Apart)
    (hbase : base < 2 ^ 32) (hle : base ≤ last) {p : Nat} (hp : m.primary = some p) :
    (m.regions.set p m.entry).Pairwise fun r r' => r.Live → r'.Live → r.Apart r' := by
  rw [List.pairwise_iff_getElem] at hold ⊢
  intro i j hi hj hij hlivei hlivej
  have hlen : (m.regions.set p m.entry).length = m.regions.length := List.length_set ..
  have hget := fun k (hk : k < (m.regions.set p m.entry).length) =>
    List.getElem?_eq_getElem (hlen ▸ hk)
  by_cases hip : i = p
  · subst hip
    have hjp : i ≠ j := by omega
    rw [List.getElem_set_self]
    rw [List.getElem_set_ne hjp] at hlivej ⊢
    exact h.apart_entry hbase hle hp hjp.symm (hget j hj) hlivej
  · rw [List.getElem_set_ne (Ne.symm hip)] at hlivei ⊢
    by_cases hjp : j = p
    · subst hjp
      rw [List.getElem_set_self]
      exact (h.apart_entry hbase hle hp hip (hget i hi) hlivei).symm
    · rw [List.getElem_set_ne (Ne.symm hjp)] at hlivej ⊢
      obtain ⟨hi', hri⟩ := List.getElem?_eq_some_iff.mp (h.live_slot (hget i hi) hlivei)
      obtain ⟨hj', hrj⟩ := List.getElem?_eq_some_iff.mp (h.live_slot (hget j hj) hlivej)
      rw [← hri, ← hrj]
      exact hold i j hi' hj' hij

/-- What the compaction keeps of the table that is written back. -/
theorem MergeDone.mem_compacted (h : MergeDone old base last m) (hold : TableInv old) {p : Nat}
    {r : MemRegion}
    (hr : r ∈ (m.regions.set p m.entry).filter fun r => r.length ≠ 0) :
    r.Live ∧ (r ∈ old ∨ r = m.entry) := by
  obtain ⟨hmem, hlen⟩ := List.mem_filter.mp hr
  have hlen : r.length ≠ 0 := by simpa using hlen
  rcases List.mem_or_eq_of_mem_set hmem with hin | rfl
  · obtain ⟨i, hi⟩ := List.mem_iff_getElem?.mp hin
    have hi' : i < old.length := by
      rw [← h.length]
      exact (List.getElem?_eq_some_iff.mp hi).1
    rcases h.slot i _ (List.getElem?_eq_getElem hi') with hsame | ⟨hdead, -⟩
    · rw [hi, Option.some.injEq] at hsame
      have hin : r ∈ old := hsame ▸ List.getElem_mem hi'
      exact ⟨hold.live r hin, .inl hin⟩
    · rw [hi, Option.some.injEq] at hdead
      simp [hdead, MemRegion.tombstone] at hlen
  · exact ⟨⟨rfl, hlen⟩, .inr rfl⟩

/-- One reservation keeps the table coalesced. -/
theorem ReserveCases.tableInv {s s' : State} {base length : BitVec 32} {init : Bool}
    {res : ReserveResult} (h : ReserveCases s base length init res s')
    (hlast : base.toNat + length.toNat ≤ 2 ^ 32) (hold : TableInv s.memRegions) :
    TableInv s'.memRegions := by
  cases h with
  | invalid | full => exact hold
  | appended hlen hroom hfar =>
      rw [(applyInit_config _ _ _).regions]
      refine ⟨fun r hr => ?_, ?_, fun r hr => ?_, ?_⟩
      · rcases List.mem_append.mp hr with hr | hr
        · exact hold.live r hr
        · rw [List.mem_singleton] at hr
          exact hr ▸ ⟨rfl, hlen⟩
      · rw [List.pairwise_append]
        refine ⟨hold.apart, List.pairwise_singleton _ _, fun r hr r' hr' => ?_⟩
        rw [List.mem_singleton] at hr'
        subst hr'
        exact hfar r hr (hold.live r hr)
      · rcases List.mem_append.mp hr with hr | hr
        · exact hold.bounded r hr
        · rw [List.mem_singleton] at hr
          exact hr ▸ hlast
      · rw [List.length_append, List.length_singleton]
        exact hroom
  | @merged m p hlen hp hdone =>
      have hpos : length.toNat ≠ 0 := fun hzero =>
        hlen (BitVec.eq_of_toNat_eq (by simpa using hzero))
      have hregions : (compact (applyInit { s with memRegions := m.regions.set p m.entry }
          m.entry init)).memRegions = (m.regions.set p m.entry).filter fun r => r.length ≠ 0 := by
        simp only [compact, (applyInit_config _ _ _).regions]
      have hmem := fun r => hdone.mem_compacted hold (p := p) (r := r)
      rw [hregions]
      refine ⟨fun r hr => (hmem r hr).1, ?_, fun r hr => ?_, ?_⟩
      · refine ((hdone.pairwise_set hold.apart base.isLt (Nat.le_add_right _ _)
          hp).filter _).imp_of_mem ?_
        intro r r' hr hr' hapart
        exact hapart (hmem r hr).1 (hmem r' hr').1
      · rcases (hmem r hr).2 with hin | rfl
        · exact hold.bounded r hin
        · have := (hdone.entry_within base.isLt (Nat.le_add_right _ _)).2
          have := hdone.mergedEnd_le hold.bounded hlast (by omega)
          omega
      · refine (List.length_filter_le _ _).trans ?_
        rw [List.length_set, hdone.length]
        exact hold.length_le

/-- A call of `pmm_reserve_range`. -/
structure ReserveCall where
  base : BitVec 32
  length : BitVec 32
  init : Bool

/-- The state after a call. -/
def ReserveCall.exec (s : State) (c : ReserveCall) : Except Trap State :=
  (pmmReserveRange s c.base c.length c.init).map Prod.snd

/-- The range of the call ends at or below 4 GiB. -/
def ReserveCall.Fits (c : ReserveCall) : Prop := c.base.toNat + c.length.toNat ≤ 2 ^ 32

instance (c : ReserveCall) : Decidable c.Fits := inferInstanceAs (Decidable (_ ≤ _))

/-- What a call of `pmm_reserve_range` does to a table, as far as the table is concerned. -/
structure ReserveSpec (s : State) (c : ReserveCall) (res : ReserveResult) (s' : State) :
    Prop where
  covered : res = .reserveSuccess ∨ res = .updatedExistingRegion →
    Spare s.memRegions c.base.toNat (c.base.toNat + c.length.toNat) →
    ∀ a, Covered s'.memRegions a ↔
      Covered s.memRegions a ∨ (c.base.toNat ≤ a ∧ a < c.base.toNat + c.length.toNat)
  unchanged : c.length = 0 ∨ res = .noMoreRegionSlots → s'.memRegions = s.memRegions
  full : res = .noMoreRegionSlots → s.memRegions.length = memRegionsMax ∧
    ∀ r ∈ s.memRegions, r.last < c.base.toNat ∨ c.base.toNat + c.length.toNat < r.base.toNat

theorem ReserveCases.spec {s s' : State} {c : ReserveCall} {res : ReserveResult}
    (h : ReserveCases s c.base c.length c.init res s') (hfits : c.Fits)
    (hold : TableInv s.memRegions) : ReserveSpec s c res s' where
  covered hok hspare := (h.covered_iff hok hold.bounded hfits hspare).2
  unchanged hnone := by
    cases h with
    | invalid | full => rfl
    | appended hlen | merged hlen => exact absurd (hnone.resolve_right (by simp)) hlen
  full hfull := by
    cases h with
    | full hlen hmax hfar =>
        exact ⟨hold.length_le.antisymm hmax, fun r hr => hfar r hr (hold.live r hr)⟩
    | invalid | appended | merged => cases hfull

/-- After any sequence of reservations from an empty table, the entries are reserved, nonempty and
pairwise apart, and the next reservation returns and does what it should. -/
theorem run_coalesced {s₀ s : State} {calls : List ReserveCall} (hempty : s₀.memRegions = [])
    (hrun : Run (Guarded (fun s c t => ReserveCall.exec s c = .ok t) fun _ c => c.Fits)
      s₀ calls s) :
    (∀ r ∈ s.memRegions, r.type = .reserved ∧ r.length ≠ 0) ∧
    s.memRegions.Pairwise MemRegion.Apart ∧
    ∀ c : ReserveCall, c.Fits → ∃ res s',
      pmmReserveRange s c.base c.length c.init = .ok (res, s') ∧ ReserveSpec s c res s' := by
  have hinv : TableInv s.memRegions := by
    refine hrun.invariant (I := fun s => TableInv s.memRegions) ?_ (hempty ▸ tableInv_nil)
    rintro s c t hs ⟨hfits, hstep⟩
    obtain ⟨res, s', hret, hcases⟩ := pmmReserveRange_cases s c.base c.length c.init
    have ht : s' = t := by simpa [ReserveCall.exec, hret, Except.map] using hstep
    exact ht ▸ hcases.tableInv hfits hs
  refine ⟨hinv.live, hinv.apart, fun c hfits => ?_⟩
  obtain ⟨res, s', hret, hcases⟩ := pmmReserveRange_cases s c.base c.length c.init
  exact ⟨res, s', hret, hcases.spec hfits hinv⟩

/-- A state with an empty table, before `pmm_init` has filled in the sizes. -/
def emptyTable : State :=
  { mem := fun _ => 0, pagebitmapPhys := 0, pagebitmapSizeBytes := 0, frameCount := 0,
    frameHint := 0, availableFrames := 0, usePhysWindowAlias := false, memRegions := [] }

/-- Two ranges that do not touch, and a third that joins them. -/
theorem run_coalesced_join :
    ∃ s, ReserveCall.Fits ⟨0x2000, 0x1000, false⟩ ∧ s.memRegions.length = 2 ∧
      ∃ res s', pmmReserveRange s 0x2000 0x1000 false = .ok (res, s') ∧
        ReserveSpec s ⟨0x2000, 0x1000, false⟩ res s' := by
  obtain ⟨s, hexec, hlen⟩ := (Option.any_eq_true _ _).mp (show
    (execGuarded ReserveCall.exec (fun _ c => c.Fits) emptyTable
      [⟨0x1000, 0x1000, false⟩, ⟨0x3000, 0x1000, false⟩]).any
        (fun s => s.memRegions.length == 2) = true by decide +kernel)
  obtain ⟨-, -, hnext⟩ := run_coalesced rfl (run_of_execGuarded hexec)
  exact ⟨s, by decide, by simpa using hlen, hnext ⟨0x2000, 0x1000, false⟩ (by decide)⟩

end Unidos.Pmm
