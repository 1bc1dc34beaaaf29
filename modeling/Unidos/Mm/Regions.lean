import Unidos.Mm.Create

/-!
# The region lists

The regions of an address space form a linked list through the pool of regions. `RegionInv` says
that the lists end, consist of used slots, and do not share a slot. The functions of
`kernel/vma.c` only relink (`Relinked`), so they do not disturb the books about frames.
-/

namespace Unidos.Mm

open Lib

/-- `lists m` are the slots on the region list of `m`. -/
structure RegionInv (s : State) (lists : Nat → List Nat) : Prop where
  chain : ∀ m, s.mmUsed m = true → Chain s.vmaNext (s.mms m).vmaHead (lists m)
  used : ∀ m, s.mmUsed m = true → ∀ v ∈ lists m,
    s.vmaUsed v = true ∧ v < vmaSlots ∧ (s.vmas v).slotId = v
  disjoint : ∀ m m', s.mmUsed m = true → s.mmUsed m' = true → ∀ v, v ∈ lists m → v ∈ lists m' →
    m = m'

/-- The states differ in the links and heads of the region lists only. -/
structure Relinked (s t : State) : Prop where
  paging : t.paging = s.paging
  mmUsed : t.mmUsed = s.mmUsed
  vmaUsed : t.vmaUsed = s.vmaUsed
  poolFrames : t.poolFrames = s.poolFrames
  mms : ∀ m, ∃ head, t.mms m = { s.mms m with vmaHead := head }
  vmas : ∀ v, ∃ next, t.vmas v = { s.vmas v with next := next }

variable {B : Nat → Prop} {l : List Nat} {s t : State} {lists : Nat → List Nat}

theorem RegionInv.length_le (h : RegionInv s lists) {m : Nat} (hm : s.mmUsed m = true) :
    (lists m).length ≤ vmaSlots :=
  (h.chain m hm).length_le fun v hv => (h.used m hm v hv).2.1

/-- Moves that leave heads, links, and used slots alone. -/
theorem RegionInv.congr (h : RegionInv s lists)
    (hheads : ∀ m, s.mmUsed m = true → (t.mms m).vmaHead = (s.mms m).vmaHead)
    (hused : t.mmUsed = s.mmUsed) (hvmas : t.vmas = s.vmas) (hvmaUsed : t.vmaUsed = s.vmaUsed) :
    RegionInv t lists := by
  have hnext : t.vmaNext = s.vmaNext := by
    funext v
    rw [State.vmaNext, hvmas, State.vmaNext]
  refine ⟨fun m hm => ?_, fun m hm v hv => ?_, fun m m' hm hm' => ?_⟩
  · rw [hused] at hm
    rw [hnext, hheads m hm]
    exact h.chain m hm
  · rw [hused] at hm
    rw [hvmaUsed, hvmas]
    exact h.used m hm v hv
  · rw [hused] at hm hm'
    exact h.disjoint m m' hm hm'

theorem RegionInv.calm (h : RegionInv s lists) (hcalm : Calm l s t) : RegionInv t lists :=
  h.congr (fun m _ => by rw [hcalm.mms]) hcalm.mmUsed hcalm.vmas hcalm.vmaUsed

theorem Relinked.frameInv (h : Relinked s t) (hs : FrameInv B l s) :
    FrameInv B l t ∧ ∀ k f, t.Own k f ↔ s.Own k f :=
  hs.congr h.paging h.poolFrames h.mmUsed h.mms

/-! ## Allocation -/

/-- A fresh region in slot `v`. -/
structure NewRegion (l : List Nat) (s t : State) (v : Nat) : Prop where
  unused : s.vmaUsed v = false
  lt : v < vmaSlots
  calm : ∃ u, Calm l s u ∧ t = { u.setVma v ⟨0, 0, .unset, 0, none, v⟩ with
    vmaUsed := Function.update u.vmaUsed v true }

theorem vmaAlloc_spec {slot : Option Nat} (h : FrameInv B l s) (hret : vmaAlloc s = (slot, t)) :
    FrameInv B l t ∧ ((slot = none ∧ Calm l s t) ∨ ∃ v, slot = some v ∧ NewRegion l s t v) := by
  unfold vmaAlloc at hret
  generalize halloc : dpageAlloc s.vmaUsed vmaSlots s = r at hret
  obtain ⟨slot', u⟩ := r
  obtain ⟨hinv, hcalm, hslot⟩ := dpageAlloc_calm h halloc
  cases slot' with
  | none =>
      simp only [Prod.mk.injEq] at hret
      obtain ⟨rfl, rfl⟩ := hret
      exact ⟨hinv, .inl ⟨rfl, hcalm⟩⟩
  | some v =>
      simp only [Prod.mk.injEq] at hret
      obtain ⟨rfl, rfl⟩ := hret
      obtain ⟨hfree, hlt⟩ := hslot v rfl
      refine ⟨?_, .inr ⟨v, rfl, hfree, hlt, u, hcalm, rfl⟩⟩
      exact (hinv.congr (t := { u.setVma v _ with vmaUsed := Function.update u.vmaUsed v true })
        rfl rfl rfl fun m => ⟨_, rfl⟩).1

/-- What a fresh region leaves alone, and what its record holds. -/
structure NewRegion.Facts (s t : State) (v : Nat) : Prop where
  mms : t.mms = s.mms
  mmUsed : t.mmUsed = s.mmUsed
  cr3 : t.paging.cr3 = s.paging.cr3
  own : ∀ k f, t.Own k f ↔ s.Own k f
  taken : ∀ f, s.Taken f → t.Taken f
  own_mem : ∀ k f, s.Own k f → AgreeOn s.mem t.mem f
  vma : t.vmas v = ⟨0, 0, .unset, 0, none, v⟩
  vma_ne : ∀ w, w ≠ v → t.vmas w = s.vmas w
  used : t.vmaUsed v = true

theorem NewRegion.facts {v : Nat} (h : NewRegion l s t v) : NewRegion.Facts s t v := by
  obtain ⟨u, hcalm, rfl⟩ := h.calm
  refine ⟨hcalm.mms, hcalm.mmUsed, hcalm.cr3, hcalm.own, hcalm.taken, hcalm.own_mem,
    Function.update_self _ _ _, fun w hw => ?_, Function.update_self _ _ _⟩
  rw [← hcalm.vmas]
  exact Function.update_of_ne hw _ _

/-- A slot that is on no list may get a record. -/
theorem RegionInv.setVma (h : RegionInv s lists) {v : Nat} (vma : Vma)
    (hv : ∀ m, s.mmUsed m = true → v ∉ lists m) : RegionInv (s.setVma v vma) lists := by
  have hne : ∀ m, s.mmUsed m = true → ∀ w ∈ lists m, (s.setVma v vma).vmas w = s.vmas w := by
    intro m hm w hw
    refine Function.update_of_ne ?_ _ _
    rintro rfl
    exact hv m hm hw
  refine ⟨fun m hm => (h.chain m hm).congr fun w hw => ?_, fun m hm w hw => ?_, h.disjoint⟩
  · rw [State.vmaNext, hne m hm w hw, State.vmaNext]
  · rw [hne m hm w hw]
    exact h.used m hm w hw

theorem NewRegion.regionInv {v : Nat} (hnew : NewRegion l s t v) (h : RegionInv s lists) :
    RegionInv t lists ∧ ∀ m, t.mmUsed m = true → v ∉ lists m := by
  obtain ⟨u, hcalm, rfl⟩ := hnew.calm
  have hnot : ∀ m, u.mmUsed m = true → v ∉ lists m := by
    intro m hm hv
    rw [hcalm.mmUsed] at hm
    exact absurd (hnew.unused.symm.trans (h.used m hm v hv).1) (by simp)
  have hset := (h.calm hcalm).setVma ⟨0, 0, .unset, 0, none, v⟩ hnot
  refine ⟨⟨hset.chain, fun m hm w hw => ?_, hset.disjoint⟩, hnot⟩
  obtain ⟨h1, h2, h3⟩ := hset.used m hm w hw
  refine ⟨?_, h2, h3⟩
  change Function.update u.vmaUsed v true w = true
  by_cases hwv : w = v
  · subst hwv
    simp
  · rwa [Function.update_of_ne hwv]

/-! ## Insertion -/

/-- What `vma_insert` does to the list of `m`. -/
structure Inserted (s t : State) (lists : Nat → List Nat) (m v : Nat) (l₁ l₂ : List Nat) :
    Prop where
  relinked : Relinked s t
  split : lists m = l₁ ++ l₂
  before : ∀ w, l₂.head? = some w → (s.vmas v).start ≤ (s.vmas w).start
  after : ∀ w ∈ l₁, (s.vmas w).start ≤ (s.vmas v).start
  chain : Chain t.vmaNext (t.mms m).vmaHead (l₁ ++ v :: l₂)
  other_mm : ∀ m', m' ≠ m → t.mms m' = s.mms m'
  other_vma : ∀ w, w ∉ lists m → w ≠ v → t.vmas w = s.vmas w

theorem linkFront_spec {m v : Nat} (hchain : Chain s.vmaNext (s.mms m).vmaHead (lists m))
    (hv : v ∉ lists m)
    (hstart : ∀ w, (lists m).head? = some w → (s.vmas v).start ≤ (s.vmas w).start) :
    Inserted s (s.linkFront m v) lists m v [] (lists m) := by
  have hnext : (s.linkFront m v).vmaNext = Function.update s.vmaNext v (s.mms m).vmaHead := by
    funext w
    by_cases hw : w = v
    · subst hw
      simp [State.linkFront, State.vmaNext, State.setVma]
    · simp [State.linkFront, State.vmaNext, State.setVma, Function.update_of_ne hw]
  refine ⟨⟨rfl, rfl, rfl, rfl, fun m' => ?_, fun w => ?_⟩, rfl, hstart, by simp, ?_,
    fun m' hm' => Function.update_of_ne hm' _ _, fun w _ hw => Function.update_of_ne hw _ _⟩
  · by_cases hmm : m' = m
    · subst hmm
      exact ⟨_, Function.update_self _ _ _⟩
    · exact ⟨_, Function.update_of_ne hmm _ _⟩
  · by_cases hw : w = v
    · subst hw
      exact ⟨_, Function.update_self _ _ _⟩
    · exact ⟨_, Function.update_of_ne hw _ _⟩
  · rw [hnext]
    simpa [State.linkFront, State.setMm] using hchain.push hv

theorem linkAfter_spec {m v c : Nat} {l₁ l₂ : List Nat}
    (hchain : Chain s.vmaNext (s.mms m).vmaHead (lists m)) (hv : v ∉ lists m)
    (hlist : lists m = l₁ ++ c :: l₂)
    (hstart : ∀ w, l₂.head? = some w → (s.vmas v).start ≤ (s.vmas w).start)
    (hbefore : ∀ w ∈ l₁ ++ [c], (s.vmas w).start ≤ (s.vmas v).start) :
    Inserted s (s.linkAfter c v) lists m v (l₁ ++ [c]) l₂ := by
  rw [hlist] at hchain hv
  have hcv : c ≠ v := by
    rintro rfl
    simp at hv
  have hvmas : ∀ w, w ≠ c → w ≠ v → (s.linkAfter c v).vmas w = s.vmas w := fun w hwc hwv => by
    simp [State.linkAfter, State.setVma, Function.update_of_ne hwc, Function.update_of_ne hwv]
  have hvmasC : (s.linkAfter c v).vmas c = { s.vmas c with next := some v } := by
    simp [State.linkAfter, State.setVma, Function.update_of_ne hcv]
  have hvmasV : (s.linkAfter c v).vmas v = { s.vmas v with next := s.vmaNext c } := by
    simp [State.linkAfter, State.setVma, Function.update_of_ne hcv.symm]
  have hnext : (s.linkAfter c v).vmaNext =
      Function.update (Function.update s.vmaNext v (s.vmaNext c)) c (some v) := by
    funext w
    unfold State.vmaNext
    by_cases hwc : w = c
    · subst hwc
      rw [hvmasC, Function.update_self]
    · by_cases hwv : w = v
      · subst hwv
        rw [hvmasV, Function.update_of_ne hwc, Function.update_self]
        rfl
      · rw [hvmas w hwc hwv, Function.update_of_ne hwc, Function.update_of_ne hwv]
  refine ⟨⟨rfl, rfl, rfl, rfl, fun m' => ⟨_, rfl⟩, fun w => ?_⟩, ?_, hstart, hbefore, ?_,
    fun _ _ => rfl, fun w hw hwv => hvmas w ?_ hwv⟩
  · by_cases hwc : w = c
    · subst hwc
      exact ⟨_, hvmasC⟩
    · by_cases hwv : w = v
      · subst hwv
        exact ⟨_, hvmasV⟩
      · exact ⟨_, hvmas w hwc hwv⟩
  · rw [hlist, List.append_assoc, List.singleton_append]
  · rw [hnext, List.append_assoc, List.singleton_append]
    exact hchain.insertAfter hv
  · rintro rfl
    exact hw (by rw [hlist]; simp)

/-- `vma_insert` on a list that fits the pool. -/
theorem vmaInsert_inserted {m v : Nat} (hchain : Chain s.vmaNext (s.mms m).vmaHead (lists m))
    (hlen : (lists m).length ≤ vmaSlots) (hv : v ∉ lists m) :
    ∃ t l₁ l₂, vmaInsert s m v = .ok t ∧ Inserted s t lists m v l₁ l₂ := by
  have hwhole := hchain
  unfold vmaInsert
  cases hhead : (s.mms m).vmaHead with
  | none =>
      rw [hhead] at hchain
      have hnil : lists m = [] := hchain.unique (chain_nil.mpr rfl)
      exact ⟨_, [], lists m, rfl, linkFront_spec hwhole hv (by simp [hnil])⟩
  | some a =>
      rw [hhead] at hchain
      obtain ⟨k, hlist⟩ := hchain.exists_cons
      dsimp only
      split
      · rename_i hlt
        refine ⟨_, [], lists m, rfl, linkFront_spec hwhole hv fun w hw => ?_⟩
        rw [hlist, List.head?_cons, Option.some.injEq] at hw
        subst hw
        omega
      · rename_i hge
        -- the loop stops at the last region at the latest
        obtain ⟨c, hfind⟩ : ∃ c, (lists m).find? (s.insertStop v) = some c := by
          obtain ⟨z, hz, hnone⟩ := hchain.exists_last
          cases hfind : (lists m).find? (s.insertStop v) with
          | some c => exact ⟨c, rfl⟩
          | none =>
              have hno := List.find?_eq_none.mp hfind z hz
              simp [State.insertStop, hnone] at hno
        rw [walk_of_chain hchain hlen, hfind]
        obtain ⟨hstop, l₁, l₂, hsplit, hpass⟩ := List.find?_eq_some_iff_append.mp hfind
        refine ⟨_, _, l₂, rfl, linkAfter_spec hwhole hv hsplit (fun w hw => ?_) ?_⟩
        swap
        · -- the loop has passed regions that start below the new one
          rw [hsplit] at hchain
          refine Seg.key_le (fun w => (s.vmas w).start) hchain (Nat.le_of_not_lt hge) ?_
          intro x hx b hb
          have := hpass x hx
          simp only [State.insertStop, hb, decide_not, Bool.not_not, decide_eq_true_eq] at this
          exact Nat.le_of_lt this
        have hcw : s.vmaNext c = some w := by
          rw [hsplit] at hchain
          cases l₂ with
          | nil => simp at hw
          | cons b l₂ =>
              rw [List.head?_cons, Option.some.injEq] at hw
              subst hw
              exact (seg_append_cons.mp hchain).2.1
        simp only [State.insertStop, hcw, decide_eq_true_eq] at hstop
        omega

theorem vmaInsert_spec {m v : Nat} (h : RegionInv s lists) (hm : s.mmUsed m = true)
    (hv : v ∉ lists m) :
    ∃ t l₁ l₂, vmaInsert s m v = .ok t ∧ Inserted s t lists m v l₁ l₂ :=
  vmaInsert_inserted (h.chain m hm) (h.length_le hm) hv

theorem Inserted.regionInv {m v : Nat} {l₁ l₂ : List Nat} (hins : Inserted s t lists m v l₁ l₂)
    (h : RegionInv s lists) (hm : s.mmUsed m = true) (hused : s.vmaUsed v = true)
    (hlt : v < vmaSlots) (hslot : (s.vmas v).slotId = v)
    (hv : ∀ m', s.mmUsed m' = true → v ∉ lists m') :
    RegionInv t (Function.update lists m (l₁ ++ v :: l₂)) := by
  have hslots : ∀ w, (t.vmas w).slotId = (s.vmas w).slotId := by
    intro w
    obtain ⟨next, hw⟩ := hins.relinked.vmas w
    rw [hw]
  have hmem : ∀ w, w ∈ l₁ ++ v :: l₂ ↔ w = v ∨ w ∈ lists m := by
    intro w
    rw [hins.split]
    simp only [List.mem_append, List.mem_cons]
    tauto
  refine ⟨fun m' hm' => ?_, fun m' hm' w hw => ?_, fun m' m'' hm' hm'' w hw hw' => ?_⟩
  · rw [hins.relinked.mmUsed] at hm'
    by_cases hmm : m' = m
    · subst hmm
      rw [Function.update_self]
      exact hins.chain
    · rw [Function.update_of_ne hmm, hins.other_mm m' hmm]
      refine (h.chain m' hm').congr fun w hw => ?_
      have hwm : w ∉ lists m := fun hwm => hmm (h.disjoint m' m hm' hm w hw hwm)
      have hwv : w ≠ v := by
        rintro rfl
        exact hv m' hm' hw
      rw [State.vmaNext, hins.other_vma w hwm hwv, State.vmaNext]
  · rw [hins.relinked.mmUsed] at hm'
    rw [hins.relinked.vmaUsed, hslots]
    by_cases hmm : m' = m
    · subst hmm
      rw [Function.update_self, hmem] at hw
      rcases hw with rfl | hw
      · exact ⟨hused, hlt, hslot⟩
      · exact h.used m' hm' w hw
    · rw [Function.update_of_ne hmm] at hw
      exact h.used m' hm' w hw
  · rw [hins.relinked.mmUsed] at hm' hm''
    by_cases hmm : m' = m <;> by_cases hmm' : m'' = m
    · rw [hmm, hmm']
    · subst hmm
      rw [Function.update_self, hmem] at hw
      rw [Function.update_of_ne hmm'] at hw'
      rcases hw with rfl | hw
      · exact absurd hw' (hv m'' hm'')
      · exact h.disjoint m' m'' hm' hm'' w hw hw'
    · subst hmm'
      rw [Function.update_self, hmem] at hw'
      rw [Function.update_of_ne hmm] at hw
      rcases hw' with rfl | hw'
      · exact absurd hw (hv m' hm')
      · exact h.disjoint m' m'' hm' hm'' w hw hw'
    · rw [Function.update_of_ne hmm] at hw
      rw [Function.update_of_ne hmm'] at hw'
      exact h.disjoint m' m'' hm' hm'' w hw hw'

/-! ## Removal -/

/-- Removing a region that is not on the list changes nothing. -/
theorem vmaRemove_absent {m v : Nat} {l : List Nat} (hchain : Chain s.vmaNext (s.mms m).vmaHead l)
    (hlen : l.length ≤ vmaSlots) (hv : v ∉ l) : vmaRemove s m v = .ok s := by
  unfold vmaRemove
  cases hhead : (s.mms m).vmaHead with
  | none => rfl
  | some a =>
      rw [hhead] at hchain
      obtain ⟨k, hlist⟩ := hchain.exists_cons
      have hav : a ≠ v := by
        rintro rfl
        exact hv (by simp [hlist])
      obtain ⟨z, hz, hnone⟩ := hchain.exists_last
      obtain ⟨c, hfind⟩ : ∃ c, l.find?
          (fun c => s.vmaNext c == none || s.vmaNext c == some v) = some c := by
        cases hfind : l.find?
            (fun c => s.vmaNext c == none || s.vmaNext c == some v) with
        | some c => exact ⟨c, rfl⟩
        | none =>
            have hno := List.find?_eq_none.mp hfind z hz
            simp [hnone] at hno
      have hcv : s.vmaNext c ≠ some v := fun hcv =>
        hv (hchain.next_mem (List.mem_of_find?_eq_some hfind) hcv)
      simp only [hav, if_false, walk_of_chain hchain hlen, hfind, hcv]

theorem vmaRemove_of_notMem {m v : Nat} (h : RegionInv s lists) (hm : s.mmUsed m = true)
    (hv : v ∉ lists m) : vmaRemove s m v = .ok s :=
  vmaRemove_absent (h.chain m hm) (h.length_le hm) hv

/-- The loop of `vma_destroy_all` frees the slots of the list. -/
theorem freeVmas_spec {fuel : Nat} {p : Option Nat} {vs : List Nat}
    (hchain : Chain s.vmaNext p vs) (hfuel : vs.length ≤ fuel)
    (hslot : ∀ v ∈ vs, (s.vmas v).slotId = v ∧ v < vmaSlots) :
    freeVmas fuel p s = .ok { s with vmaUsed := fun v => s.vmaUsed v && decide (v ∉ vs) } := by
  induction vs generalizing fuel p s with
  | nil =>
      have hp : p = none := hchain
      subst hp
      cases fuel <;> simp [freeVmas]
  | cons v vs ih =>
      obtain ⟨rfl, hrest⟩ := hchain
      obtain ⟨fuel, rfl⟩ : ∃ n, fuel = n + 1 := ⟨fuel - 1, by simp at hfuel; omega⟩
      obtain ⟨hv, hlt⟩ := hslot v (by simp)
      have hfree : (vmaFree s v).vmaUsed = Function.update s.vmaUsed v false := by
        have hge : ¬ v ≥ vmaSlots := by omega
        simp only [vmaFree, dpageBmClear, hv, hge, if_false]
      unfold freeVmas
      rw [ih (s := vmaFree s v) hrest (by simpa using hfuel)
        fun w hw => hslot w (by simp [hw])]
      rw [hfree]
      simp only [vmaFree, Except.ok.injEq, State.mk.injEq, true_and, and_true]
      funext w
      by_cases hwv : w = v
      · subst hwv
        simp
      · simp [hwv]

/-- After `vma_destroy_all` the list of `m` is empty, and its slots are free. -/
theorem vmaDestroyAll_spec {m : Nat} (h : RegionInv s lists) (hm : s.mmUsed m = true) :
    vmaDestroyAll s m = .ok ({ s with
      vmaUsed := fun v => s.vmaUsed v && decide (v ∉ lists m) }.setMm m
        { s.mms m with vmaHead := none }) := by
  unfold vmaDestroyAll
  rw [freeVmas_spec (h.chain m hm) (h.length_le hm) fun v hv =>
    ⟨(h.used m hm v hv).2.2, (h.used m hm v hv).2.1⟩]
  rfl

theorem RegionInv.destroyAll {m : Nat} (h : RegionInv s lists) (hm : s.mmUsed m = true) :
    RegionInv ({ s with vmaUsed := fun v => s.vmaUsed v && decide (v ∉ lists m) }.setMm m
      { s.mms m with vmaHead := none }) (Function.update lists m []) := by
  refine ⟨fun m' hm' => ?_, fun m' hm' w hw => ?_, fun m' m'' hm' hm'' w hw hw' => ?_⟩
  · by_cases hmm : m' = m
    · subst hmm
      simp [State.setMm, Chain, Seg]
    · rw [Function.update_of_ne hmm]
      change Chain s.vmaNext (Function.update s.mms m _ m').vmaHead (lists m')
      rw [Function.update_of_ne hmm]
      exact h.chain m' hm'
  · by_cases hmm : m' = m
    · subst hmm
      simp at hw
    · rw [Function.update_of_ne hmm] at hw
      obtain ⟨h1, h2, h3⟩ := h.used m' hm' w hw
      refine ⟨?_, h2, h3⟩
      have hwm : w ∉ lists m := fun hwm => hmm (h.disjoint m' m hm' hm w hw hwm)
      change (s.vmaUsed w && decide (w ∉ lists m)) = true
      simp [h1, hwm]
  · by_cases hmm : m' = m
    · subst hmm
      simp at hw
    · by_cases hmm' : m'' = m
      · subst hmm'
        simp at hw'
      · rw [Function.update_of_ne hmm] at hw
        rw [Function.update_of_ne hmm'] at hw'
        exact h.disjoint m' m'' hm' hm'' w hw hw'

end Unidos.Mm
