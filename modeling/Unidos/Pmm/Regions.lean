import Unidos.Pmm.Bits

/-!
# The table of reserved regions

`pmm_reserve_range` with its coalescing loop. The loop keeps one merged span and one primary
slot, and turns every further region that it swallows into a tombstone. `MergeInv` is its
invariant: the span is covered by the old table and the new range, and a region leaves the table
only into the span. `mergeLoop_spec` shows that the loop ends and that no region that touches the
final span is left beside the primary one.
-/

namespace Unidos.Pmm

open Lib

/-- `pmm_reserve_result_t`. -/
inductive ReserveResult where
  | reserveSuccess
  | noMoreRegionSlots
  | invalidRegionLength
  | updatedExistingRegion
  deriving DecidableEq, Repr

/-- The local variables of the fixed-point loop of `pmm_reserve_range`, with the table it edits.
`primary` is `primary_idx` once `found_merge_candidate` is set. -/
structure Merge where
  regions : List MemRegion
  mergedBase : Nat
  mergedEnd : Nat
  primary : Option Nat
  changed : Bool

/-- A region the loop looks at: reserved and of nonzero length. -/
def MemRegion.Live (r : MemRegion) : Prop := r.type = .reserved ∧ r.length ≠ 0

instance (r : MemRegion) : Decidable r.Live := inferInstanceAs (Decidable (_ ∧ _))

/-- What is left of a region that was merged into the primary one. -/
def MemRegion.tombstone (r : MemRegion) : MemRegion := { r with length := 0, type := .usable }

/-- The merge criterion: the span and the region overlap or are adjacent. -/
def Merge.CanMerge (m : Merge) (r : MemRegion) : Prop :=
  m.mergedBase ≤ r.last ∧ r.base.toNat ≤ m.mergedEnd

instance (m : Merge) (r : MemRegion) : Decidable (m.CanMerge r) :=
  inferInstanceAs (Decidable (_ ∧ _))

/-- The span widened by a region. -/
def Merge.widen (m : Merge) (r : MemRegion) : Merge :=
  let base := min m.mergedBase r.base.toNat
  let last := max m.mergedEnd r.last
  { m with
    mergedBase := base
    mergedEnd := last
    changed := m.changed || decide (base ≠ m.mergedBase ∨ last ≠ m.mergedEnd) }

/-- One iteration of the inner `for` loop. -/
def mergeStep (m : Merge) (i : Nat) : Merge :=
  match m.regions[i]? with
  | none => m
  | some r =>
      if ¬ r.Live then m
      else if ¬ m.CanMerge r then m
      else
        match m.primary with
        | none => { m.widen r with primary := some i, changed := true }
        | some p =>
            if i ≠ p then
              { m.widen r with regions := m.regions.set i r.tombstone, changed := true }
            else m.widen r

/-- One pass of the inner loop over the whole table. -/
def mergePass (m : Merge) : Merge :=
  (List.range m.regions.length).foldl mergeStep { m with changed := false }

/-- The `do … while (changed)` loop. -/
def mergeLoop : Nat → Merge → Except Trap Merge
  | 0, _ => .error .diverge
  | fuel + 1, m =>
      let m := mergePass m
      if m.changed then mergeLoop fuel m else .ok m

/-- The table entry that is written over the primary slot. -/
def Merge.entry (m : Merge) : MemRegion :=
  { base := BitVec.ofNat 32 m.mergedBase
    length := BitVec.ofNat 32 (m.mergedEnd - m.mergedBase)
    type := .reserved }

/-- The bitmap side of a reservation: applied at once if `init` is set. -/
def applyInit (s : State) (r : MemRegion) (init : Bool) : State :=
  if init then pmmInitSingle s r else s

/-- The compaction loop: drop the entries of length zero. -/
def compact (s : State) : State :=
  { s with memRegions := s.memRegions.filter fun r => r.length ≠ 0 }

/-- `pmm_reserve_range`. A pass that changes anything uses up one region, so the loop cannot run
more often than the fuel allows. -/
def pmmReserveRange (s : State) (base length : BitVec 32) (init : Bool) :
    Except Trap (ReserveResult × State) :=
  if length = 0 then .ok (.invalidRegionLength, s)
  else do
    let m ← mergeLoop (s.memRegions.length + 2)
      { regions := s.memRegions
        mergedBase := base.toNat
        mergedEnd := base.toNat + length.toNat
        primary := none
        changed := false }
    match m.primary with
    | some p =>
        let s := { s with memRegions := m.regions.set p m.entry }
        .ok (.updatedExistingRegion, compact (applyInit s m.entry init))
    | none =>
        if s.memRegions.length ≥ memRegionsMax then .ok (.noMoreRegionSlots, s)
        else
          let r : MemRegion := { base := base, length := length, type := .reserved }
          let s := { s with memRegions := s.memRegions ++ [r] }
          .ok (.reserveSuccess, applyInit s r init)

/-! ## Coverage -/

/-- Address `a` lies in a reserved region of the table. -/
def Covered (regions : List MemRegion) (a : Nat) : Prop :=
  ∃ r ∈ regions, r.type = .reserved ∧ r.base.toNat ≤ a ∧ a < r.last

theorem MemRegion.live_of_covers {r : MemRegion} {a : Nat} (htype : r.type = .reserved)
    (hbase : r.base.toNat ≤ a) (hlast : a < r.last) : r.Live := by
  refine ⟨htype, fun hzero => ?_⟩
  have hlen : r.length.toNat = 0 := by rw [hzero]; rfl
  unfold MemRegion.last at hlast
  omega

theorem MemRegion.base_lt_last {r : MemRegion} (h : r.Live) : r.base.toNat < r.last := by
  have hpos : r.length.toNat ≠ 0 := fun hzero => h.2 (BitVec.eq_of_toNat_eq (by simpa using hzero))
  unfold MemRegion.last
  omega

@[simp] theorem MemRegion.tombstone_not_live (r : MemRegion) : ¬ r.tombstone.Live := by
  simp [MemRegion.Live, MemRegion.tombstone]

/-! ## The merge loop -/

/-- Invariant of the loop for the old table `old` and the new range `[base, last)`. -/
structure MergeInv (old : List MemRegion) (base last : Nat) (m : Merge) : Prop where
  length : m.regions.length = old.length
  base_le : m.mergedBase ≤ base
  last_le : last ≤ m.mergedEnd
  /-- The span holds nothing but old reserved addresses and the new range. -/
  span : ∀ a, m.mergedBase ≤ a → a < m.mergedEnd → (base ≤ a ∧ a < last) ∨ Covered old a
  /-- A slot is as before, or its live region was swallowed by the span. -/
  slot : ∀ (i : Nat) (r : MemRegion), old[i]? = some r → m.regions[i]? = some r ∨
    m.regions[i]? = some r.tombstone ∧ m.primary ≠ none ∧
      m.mergedBase ≤ r.base.toNat ∧ r.last ≤ m.mergedEnd
  fresh : m.primary = none → m.mergedBase = base ∧ m.mergedEnd = last
  primary : ∀ p, m.primary = some p → ∃ r, m.regions[p]? = some r ∧ old[p]? = some r ∧ r.Live ∧
    m.mergedBase ≤ r.base.toNat ∧ r.last ≤ m.mergedEnd

variable {old : List MemRegion} {base last : Nat} {m : Merge}

/-- A live slot still holds the region of the old table. -/
theorem MergeInv.live_slot (h : MergeInv old base last m) {i : Nat} {r : MemRegion}
    (hr : m.regions[i]? = some r) (hlive : r.Live) : old[i]? = some r := by
  have hi : i < old.length := by
    rw [← h.length]
    exact (List.getElem?_eq_some_iff.mp hr).1
  have hold : old[i]? = some old[i] := List.getElem?_eq_getElem hi
  rcases h.slot i old[i] hold with heq | ⟨heq, -⟩
  · rw [hr] at heq
    rw [hold, heq]
  · rw [hr, Option.some.injEq] at heq
    subst heq
    exact absurd hlive (MemRegion.tombstone_not_live _)

/-- Widening by a touching region keeps the span covered. -/
theorem MergeInv.span_widen (h : MergeInv old base last m) {i : Nat} {r : MemRegion}
    (hr : old[i]? = some r) (hlive : r.Live) (hmerge : m.CanMerge r) (a : Nat)
    (ha : min m.mergedBase r.base.toNat ≤ a) (ha' : a < max m.mergedEnd r.last) :
    (base ≤ a ∧ a < last) ∨ Covered old a := by
  by_cases hin : r.base.toNat ≤ a ∧ a < r.last
  · exact .inr ⟨r, List.mem_of_getElem? hr, hlive.1, hin.1, hin.2⟩
  · have hrl := MemRegion.base_lt_last hlive
    obtain ⟨h1, h2⟩ := hmerge
    exact h.span a (by omega) (by omega)

/-- What one iteration can do: nothing, make slot `i` the primary one, swallow slot `i`, or look
at the primary slot again. -/
inductive StepCases (m : Merge) (i : Nat) : Merge → Prop where
  | skip (h : ∀ r, m.regions[i]? = some r → r.Live → ¬ m.CanMerge r) : StepCases m i m
  | adopt {r} (hr : m.regions[i]? = some r) (hlive : r.Live) (hmerge : m.CanMerge r)
      (hp : m.primary = none) :
      StepCases m i { m.widen r with primary := some i, changed := true }
  | swallow {r p} (hr : m.regions[i]? = some r) (hlive : r.Live) (hmerge : m.CanMerge r)
      (hp : m.primary = some p) (hne : i ≠ p) :
      StepCases m i { m.widen r with regions := m.regions.set i r.tombstone, changed := true }
  | again {r} (hr : m.regions[i]? = some r) (hlive : r.Live) (hmerge : m.CanMerge r)
      (hp : m.primary = some i) : StepCases m i (m.widen r)

theorem mergeStep_cases (m : Merge) (i : Nat) : StepCases m i (mergeStep m i) := by
  unfold mergeStep
  cases hr : m.regions[i]? with
  | none => exact .skip (by simp [hr])
  | some r =>
      by_cases hlive : r.Live
      · by_cases hmerge : m.CanMerge r
        · simp only [hlive, hmerge, not_true, if_false]
          cases hp : m.primary with
          | none => exact .adopt hr hlive hmerge hp
          | some p =>
              by_cases hne : i = p
              · simp only [hne, ne_eq, not_true, if_false]
                exact .again (hne ▸ hr) hlive hmerge (by rw [hp])
              · simp only [ne_eq, hne, not_false_iff, if_true]
                exact .swallow hr hlive hmerge hp hne
        · simp only [hlive, hmerge, not_true, not_false_iff, if_false, if_true]
          exact .skip fun r' hr' _ => by
            rw [hr, Option.some.injEq] at hr'
            exact hr' ▸ hmerge
      · simp only [hlive, not_false_iff, if_true]
        exact .skip fun r' hr' hlive' => by
          rw [hr, Option.some.injEq] at hr'
          exact absurd (hr' ▸ hlive') hlive

theorem mergeStep_inv (h : MergeInv old base last m) (i : Nat) :
    MergeInv old base last (mergeStep m i) := by
  have hbase := h.base_le
  have hlast := h.last_le
  have hcases := mergeStep_cases m i
  generalize mergeStep m i = m' at hcases ⊢
  cases hcases with
  | skip => exact h
  | @adopt r hr hlive hmerge hp =>
      have hold := h.live_slot hr hlive
      refine ⟨h.length, by simp only [Merge.widen]; omega, by simp only [Merge.widen]; omega,
        h.span_widen hold hlive hmerge, ?_, by simp, ?_⟩
      · intro j r' hj
        rcases h.slot j r' hj with heq | ⟨_, hne, _⟩
        · exact .inl heq
        · exact absurd hp hne
      · intro p hpi
        rw [Option.some.injEq] at hpi
        subst hpi
        exact ⟨r, hr, hold, hlive, Nat.min_le_right _ _, Nat.le_max_right _ _⟩
  | @swallow r p hr hlive hmerge hp hne =>
      have hold := h.live_slot hr hlive
      refine ⟨(List.length_set ..).trans h.length, by simp only [Merge.widen]; omega,
        by simp only [Merge.widen]; omega, h.span_widen hold hlive hmerge, ?_,
        by simp [Merge.widen, hp], ?_⟩
      · intro j r' hj
        by_cases hji : j = i
        · subst hji
          rw [hold, Option.some.injEq] at hj
          subst hj
          have hlt : j < m.regions.length := (List.getElem?_eq_some_iff.mp hr).1
          exact .inr ⟨by simp [hlt], by simp [Merge.widen, hp], Nat.min_le_right _ _,
            Nat.le_max_right _ _⟩
        · have hset : (m.regions.set i r.tombstone)[j]? = m.regions[j]? :=
            List.getElem?_set_ne (by omega)
          rcases h.slot j r' hj with heq | ⟨heq, hnone, h1, h2⟩
          · exact .inl (hset.trans heq)
          · exact .inr ⟨hset.trans heq, hnone, (Nat.min_le_left _ _).trans h1,
              h2.trans (Nat.le_max_left _ _)⟩
      · intro q hq
        obtain ⟨rp, hrp, hop, hlp, h1, h2⟩ := h.primary q hq
        have hiq : i ≠ q := by
          simp only [Merge.widen, hp, Option.some.injEq] at hq
          omega
        have hset : (m.regions.set i r.tombstone)[q]? = m.regions[q]? := List.getElem?_set_ne hiq
        exact ⟨rp, hset.trans hrp, hop, hlp, (Nat.min_le_left _ _).trans h1,
          h2.trans (Nat.le_max_left _ _)⟩
  | @again r hr hlive hmerge hp =>
      have hold := h.live_slot hr hlive
      refine ⟨h.length, by simp only [Merge.widen]; omega, by simp only [Merge.widen]; omega,
        h.span_widen hold hlive hmerge, ?_, by simp [Merge.widen, hp], ?_⟩
      · intro j r' hj
        rcases h.slot j r' hj with heq | ⟨heq, hne, h1, h2⟩
        · exact .inl heq
        · exact .inr ⟨heq, hne, (Nat.min_le_left _ _).trans h1, h2.trans (Nat.le_max_left _ _)⟩
      · intro q hq
        obtain ⟨rp, hrp, hop, hlp, h1, h2⟩ := h.primary q hq
        exact ⟨rp, hrp, hop, hlp, (Nat.min_le_left _ _).trans h1, h2.trans (Nat.le_max_left _ _)⟩

/-- Looking at the primary slot again does not move the span. -/
theorem MergeInv.widen_primary (h : MergeInv old base last m) {i : Nat} {r : MemRegion}
    (hr : m.regions[i]? = some r) (hp : m.primary = some i) : m.widen r = m := by
  obtain ⟨rp, hrp, -, -, h1, h2⟩ := h.primary i hp
  rw [hr, Option.some.injEq] at hrp
  subst hrp
  have hb : min m.mergedBase r.base.toNat = m.mergedBase := Nat.min_eq_left h1
  have hl : max m.mergedEnd r.last = m.mergedEnd := Nat.max_eq_left h2
  simp [Merge.widen, hb, hl]

/-- Live entries that the loop can still use up. -/
def Merge.budget (m : Merge) : Nat :=
  m.regions.countP (fun r => decide r.Live) + if m.primary = none then 1 else 0

/-- An iteration either leaves everything as it is, because slot `i` holds nothing to merge but
perhaps the primary region, or it raises `changed` and uses up part of the budget. -/
theorem mergeStep_progress (h : MergeInv old base last m) (i : Nat) :
    (mergeStep m i = m ∧
      ∀ r, m.regions[i]? = some r → r.Live → m.CanMerge r → m.primary = some i) ∨
    (mergeStep m i).changed = true ∧ (mergeStep m i).budget < m.budget := by
  have hcases := mergeStep_cases m i
  generalize mergeStep m i = m' at hcases ⊢
  cases hcases with
  | skip hskip => exact .inl ⟨rfl, fun r hr hl hm => absurd hm (hskip r hr hl)⟩
  | adopt hr hlive hmerge hp => exact .inr ⟨rfl, by simp [Merge.budget, Merge.widen, hp]⟩
  | @swallow r p hr hlive hmerge hp hne =>
      obtain ⟨hlt, hget⟩ := List.getElem?_eq_some_iff.mp hr
      have hpos : 0 < m.regions.countP fun r => decide r.Live :=
        List.countP_pos_iff.mpr ⟨r, List.mem_of_getElem? hr, by simpa using hlive⟩
      refine .inr ⟨rfl, ?_⟩
      simp only [Merge.budget, Merge.widen, hp, List.countP_set hlt, hget, hlive,
        MemRegion.tombstone_not_live, decide_true, decide_false, if_true]
      simp only [reduceCtorEq, if_false, Bool.false_eq_true, Nat.add_zero]
      omega
  | again hr hlive hmerge hp => exact .inl ⟨h.widen_primary hr hp, fun _ _ _ _ => hp⟩

/-- One pass over a list of slots: either it changes nothing and no slot of the list holds a
mergeable region besides the primary one, or it raises `changed` and uses up budget. -/
theorem foldl_mergeStep_progress (slots : List Nat) (h : MergeInv old base last m) :
    MergeInv old base last (slots.foldl mergeStep m) ∧
    ((slots.foldl mergeStep m = m ∧ ∀ i ∈ slots, ∀ r, m.regions[i]? = some r → r.Live →
        m.CanMerge r → m.primary = some i) ∨
      (slots.foldl mergeStep m).changed = true ∧
        (slots.foldl mergeStep m).budget < m.budget) := by
  induction slots generalizing m with
  | nil => exact ⟨h, .inl ⟨rfl, by simp⟩⟩
  | cons i slots ih =>
      obtain ⟨hinv, hrest⟩ := ih (mergeStep_inv h i)
      refine ⟨hinv, ?_⟩
      rw [List.foldl_cons]
      rcases mergeStep_progress h i with ⟨heq, hi⟩ | ⟨hch, hlt⟩
      · rw [heq] at hrest ⊢
        rcases hrest with ⟨hsame, hall⟩ | hchanged
        · refine .inl ⟨hsame, fun j hj => ?_⟩
          rcases List.mem_cons.mp hj with rfl | hj
          · exact hi
          · exact hall j hj
        · exact .inr hchanged
      · rcases hrest with ⟨hsame, -⟩ | ⟨hch', hlt'⟩
        · rw [hsame]
          exact .inr ⟨hch, hlt⟩
        · exact .inr ⟨hch', hlt'.trans hlt⟩

/-- What holds when the loop is left: the invariant, and no mergeable region but the primary. -/
structure MergeDone (old : List MemRegion) (base last : Nat) (m : Merge) : Prop
    extends MergeInv old base last m where
  settled : ∀ (i : Nat) (r : MemRegion), m.regions[i]? = some r → r.Live → m.CanMerge r →
    m.primary = some i

/-- The loop ends, and it ends in a settled table. -/
theorem mergeLoop_spec (fuel : Nat) (h : MergeInv old base last m) (hfuel : m.budget < fuel) :
    ∃ m', mergeLoop fuel m = .ok m' ∧ MergeDone old base last m' := by
  induction fuel generalizing m with
  | zero => omega
  | succ fuel ih =>
      have hstart : MergeInv old base last { m with changed := false } :=
        ⟨h.length, h.base_le, h.last_le, h.span, h.slot, h.fresh, h.primary⟩
      obtain ⟨hinv, hstep⟩ := foldl_mergeStep_progress (List.range m.regions.length) hstart
      unfold mergeLoop
      change ∃ m', (if (mergePass m).changed = true then mergeLoop fuel (mergePass m)
        else .ok (mergePass m)) = .ok m' ∧ MergeDone old base last m'
      rcases hstep with ⟨hsame, hall⟩ | ⟨hch, hlt⟩
      · have hpass : mergePass m = { m with changed := false } := hsame
        refine ⟨mergePass m, by simp [hpass], hinv, fun i r hr hlive hmerge => ?_⟩
        rw [hpass] at hr hmerge ⊢
        have hi : i < m.regions.length := (List.getElem?_eq_some_iff.mp hr).1
        exact hall i (List.mem_range.mpr hi) r hr hlive hmerge
      · have hchanged : (mergePass m).changed = true := hch
        rw [if_pos hchanged]
        have hbudget : (mergePass m).budget < m.budget := hlt
        exact ih hinv (by omega)

/-! ## Reserving a range -/

theorem applyInit_config (s : State) (r : MemRegion) (init : Bool) :
    SameConfig s (applyInit s r init) := by
  unfold applyInit
  split
  · exact pmmInitSingle_config s r
  · exact .refl s

/-- The four ways in which `pmm_reserve_range` can end. -/
inductive ReserveCases (s : State) (base length : BitVec 32) (init : Bool) :
    ReserveResult → State → Prop where
  | invalid (h : length = 0) : ReserveCases s base length init .invalidRegionLength s
  | full (hlen : length ≠ 0) (hfull : memRegionsMax ≤ s.memRegions.length)
      (hfar : ∀ r ∈ s.memRegions, r.Live →
        r.last < base.toNat ∨ base.toNat + length.toNat < r.base.toNat) :
      ReserveCases s base length init .noMoreRegionSlots s
  | appended (hlen : length ≠ 0) (hroom : s.memRegions.length < memRegionsMax)
      (hfar : ∀ r ∈ s.memRegions, r.Live →
        r.last < base.toNat ∨ base.toNat + length.toNat < r.base.toNat) :
      ReserveCases s base length init .reserveSuccess
        (applyInit { s with memRegions := s.memRegions ++ [⟨base, length, .reserved⟩] }
          ⟨base, length, .reserved⟩ init)
  | merged {m : Merge} {p : Nat} (hlen : length ≠ 0) (hp : m.primary = some p)
      (hdone : MergeDone s.memRegions base.toNat (base.toNat + length.toNat) m) :
      ReserveCases s base length init .updatedExistingRegion
        (compact (applyInit { s with memRegions := m.regions.set p m.entry } m.entry init))

/-- `pmm_reserve_range` always returns, in one of the four ways. -/
theorem pmmReserveRange_cases (s : State) (base length : BitVec 32) (init : Bool) :
    ∃ res s', pmmReserveRange s base length init = .ok (res, s') ∧
      ReserveCases s base length init res s' := by
  unfold pmmReserveRange
  by_cases hlen : length = 0
  · exact ⟨_, _, by rw [if_pos hlen], .invalid hlen⟩
  · have hstart : MergeInv s.memRegions base.toNat (base.toNat + length.toNat)
        { regions := s.memRegions, mergedBase := base.toNat,
          mergedEnd := base.toNat + length.toNat, primary := none, changed := false } :=
      ⟨rfl, le_rfl, le_rfl, fun a h1 h2 => .inl ⟨h1, h2⟩, fun _ _ h => .inl h,
        fun _ => ⟨rfl, rfl⟩, by simp⟩
    obtain ⟨m, hloop, hdone⟩ := mergeLoop_spec (s.memRegions.length + 2) hstart (by
      have hle := List.countP_le_length (p := fun r => decide (MemRegion.Live r))
        (l := s.memRegions)
      simp only [Merge.budget, if_true]
      omega)
    rw [if_neg hlen, hloop]
    simp only [bind, Except.bind]
    cases hp : m.primary with
    | some p =>
        exact ⟨_, _, rfl, .merged hlen hp hdone⟩
    | none =>
        -- no slot was merged, so the table is the old one and nothing in it touches the range
        obtain ⟨hb, hl⟩ := hdone.fresh hp
        have hfar : ∀ r ∈ s.memRegions, r.Live →
            r.last < base.toNat ∨ base.toNat + length.toNat < r.base.toNat := by
          intro r hr hlive
          obtain ⟨i, hi⟩ := List.mem_iff_getElem?.mp hr
          rcases hdone.slot i r hi with heq | ⟨-, hne, -⟩
          · by_contra hnear
            have hmerge : m.CanMerge r := by
              unfold Merge.CanMerge
              omega
            simp [hdone.settled i r heq hlive hmerge] at hp
          · exact absurd hp hne
        by_cases hfull : s.memRegions.length ≥ memRegionsMax
        · exact ⟨_, _, by rw [if_pos hfull], .full hlen hfull hfar⟩
        · exact ⟨_, _, by rw [if_neg hfull], .appended hlen (by omega) hfar⟩

/-- A merged entry covers nothing outside the span. Its length may have been cut to 32 bits. -/
theorem MergeInv.entry_sub (h : MergeInv old base last m) (hbase : base < 2 ^ 32) {a : Nat}
    (h1 : m.entry.base.toNat ≤ a) (h2 : a < m.entry.last) :
    m.mergedBase ≤ a ∧ a < m.mergedEnd := by
  have hle := h.base_le
  have hmod : m.entry.base.toNat = m.mergedBase := by
    simp only [Merge.entry, BitVec.toNat_ofNat]
    omega
  have hlen : m.entry.length.toNat ≤ m.mergedEnd - m.mergedBase := by
    simp only [Merge.entry, BitVec.toNat_ofNat]
    exact Nat.mod_le _ _
  unfold MemRegion.last at h2
  omega

/-- Reserving a range never adds more than that range to the covered addresses. -/
theorem ReserveCases.covered_sub {s s' : State} {base length : BitVec 32} {init : Bool}
    {res : ReserveResult} (h : ReserveCases s base length init res s') {a : Nat}
    (ha : Covered s'.memRegions a) :
    Covered s.memRegions a ∨ (base.toNat ≤ a ∧ a < base.toNat + length.toNat) := by
  cases h with
  | invalid | full => exact .inl ha
  | appended hlen hroom hfar =>
      rw [(applyInit_config _ _ _).regions] at ha
      obtain ⟨r, hr, hrest⟩ := ha
      rcases List.mem_append.mp hr with hr | hr
      · exact .inl ⟨r, hr, hrest⟩
      · rw [List.mem_singleton] at hr
        subst hr
        exact .inr hrest.2
  | @merged m p hlen hp hdone =>
      obtain ⟨r, hr, htype, h1, h2⟩ := ha
      have hset := (List.mem_filter.mp hr).1
      rw [(applyInit_config _ _ _).regions] at hset
      rcases List.mem_or_eq_of_mem_set hset with hmem | rfl
      · obtain ⟨i, hi⟩ := List.mem_iff_getElem?.mp hmem
        have hold := hdone.live_slot hi (MemRegion.live_of_covers htype h1 h2)
        exact .inl ⟨r, List.mem_of_getElem? hold, htype, h1, h2⟩
      · obtain ⟨h3, h4⟩ := hdone.entry_sub base.isLt h1 h2
        exact (hdone.span a h3 h4).symm

end Unidos.Pmm
