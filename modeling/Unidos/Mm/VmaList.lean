import Unidos.Mm.Regions

/-!
# The list of regions of an address space

`vma_insert`, `vma_remove` and `vma_find` of `kernel/vma.c` on one address space. `History` is any
sequence of insertions and removals, with the regions that are inserted and not yet removed;
`vmaList_exact` says that the linked list is sorted and holds these regions, each once, that every
further call returns, and what `vma_find` finds.
-/

namespace Unidos.Mm

open Lib

/-- Whether a region contains an address. -/
def State.spans (s : State) (vaddr v : Nat) : Bool :=
  decide ((s.vmas v).start ≤ vaddr) && decide (vaddr < (s.vmas v).endAddr)

/-- `vma_find`. -/
def vmaFind (s : State) (m vaddr : Nat) : Except Trap (Option Nat) :=
  match walk s.vmaNext (s.spans vaddr) vmaSlots (s.mms m).vmaHead with
  | some found => .ok found
  | none => .error .diverge

/-- A caller fills in the bounds of a region before it inserts it. -/
def State.setBounds (s : State) (v start endAddr : Nat) : State :=
  s.setVma v { s.vmas v with start := start, endAddr := endAddr }

/-- The states that insertions and removals on the address space `m` lead to from an empty list,
with the regions that are on it. A region is inserted with any bounds, and only while it is not on
the list; any region may be removed. -/
inductive History (m : Nat) : State → List Nat → Prop where
  | empty {s : State} : (s.mms m).vmaHead = none → History m s []
  | insert {s t : State} {regions : List Nat} {v start endAddr : Nat} :
      History m s regions → v ∉ regions → v < vmaSlots →
      vmaInsert (s.setBounds v start endAddr) m v = .ok t → History m t (v :: regions)
  | remove {s t : State} {regions : List Nat} {v : Nat} :
      History m s regions → vmaRemove s m v = .ok t → History m t (regions.erase v)

/-- The linked list of `m` consists of these regions, sorted by their starts. -/
structure VmaList (s : State) (m : Nat) (l : List Nat) : Prop where
  chain : Chain s.vmaNext (s.mms m).vmaHead l
  slots : ∀ v ∈ l, v < vmaSlots
  sorted : l.Pairwise fun v w => (s.vmas v).start ≤ (s.vmas w).start

variable {s t : State} {m v : Nat} {l : List Nat}

namespace VmaList

theorem length_le (h : VmaList s m l) : l.length ≤ vmaSlots := h.chain.length_le h.slots

/-- Filling in a region that is not on the list. -/
theorem setBounds (h : VmaList s m l) (hv : v ∉ l) (start endAddr : Nat) :
    VmaList (s.setBounds v start endAddr) m l := by
  have hne : ∀ w ∈ l, w ≠ v := fun w hw hwv => hv (hwv ▸ hw)
  have hvma : ∀ w ∈ l, (s.setBounds v start endAddr).vmas w = s.vmas w :=
    fun w hw => Function.update_of_ne (hne w hw) _ _
  refine ⟨h.chain.congr fun w hw => congrArg Vma.next (hvma w hw), h.slots, ?_⟩
  refine h.sorted.imp_of_mem fun {a b} ha hb hab => ?_
  rwa [hvma a ha, hvma b hb]

/-- `vma_insert` puts the region into its place. -/
theorem insert (h : VmaList s m l) (hv : v ∉ l) (hlt : v < vmaSlots) :
    ∃ t l', vmaInsert s m v = .ok t ∧ VmaList t m l' ∧ l'.Perm (v :: l) := by
  obtain ⟨t, l₁, l₂, hret, hins⟩ : ∃ t l₁ l₂, vmaInsert s m v = .ok t ∧
      Inserted s t (fun _ => l) m v l₁ l₂ := vmaInsert_inserted h.chain h.length_le hv
  have hsplit : l = l₁ ++ l₂ := hins.split
  have hstart : ∀ w, (t.vmas w).start = (s.vmas w).start := by
    intro w
    obtain ⟨next, hw⟩ := hins.relinked.vmas w
    rw [hw]
  have hperm : (l₁ ++ v :: l₂).Perm (v :: l) := hsplit ▸ List.perm_middle
  refine ⟨t, l₁ ++ v :: l₂, hret, ⟨hins.chain, fun w hw => ?_, ?_⟩, hperm⟩
  · rcases List.mem_cons.mp (hperm.mem_iff.mp hw) with rfl | hw
    · exact hlt
    · exact h.slots w hw
  · have hsorted := h.sorted
    rw [hsplit, List.pairwise_append] at hsorted
    obtain ⟨hfront, hback, hcross⟩ := hsorted
    -- what follows the new region starts no lower than its successor
    have hv₂ : ∀ w ∈ l₂, (s.vmas v).start ≤ (s.vmas w).start := by
      cases l₂ with
      | nil => simp
      | cons b l₂ =>
          have hb := hins.before b rfl
          intro w hw
          rcases List.mem_cons.mp hw with rfl | hw
          · exact hb
          · exact Nat.le_trans hb ((List.pairwise_cons.mp hback).1 w hw)
    simp only [hstart]
    refine List.pairwise_append.mpr ⟨hfront, List.pairwise_cons.mpr ⟨hv₂, hback⟩, ?_⟩
    intro a ha b hb
    rcases List.mem_cons.mp hb with rfl | hb
    · exact hins.after a ha
    · exact hcross a ha b hb

/-- A list that has lost the region `v`, with all bounds as they were. -/
theorem erase {t : State} (h : VmaList s m l)
    (hchain : Chain t.vmaNext (t.mms m).vmaHead (l.erase v))
    (hstart : ∀ w, (t.vmas w).start = (s.vmas w).start) : VmaList t m (l.erase v) := by
  refine ⟨hchain, fun w hw => h.slots w (List.mem_of_mem_erase hw), ?_⟩
  simp only [hstart]
  exact h.sorted.sublist List.erase_sublist

/-- `vma_remove` takes the region off the list, if it is there. -/
theorem remove (h : VmaList s m l) (v : Nat) :
    ∃ t, vmaRemove s m v = .ok t ∧ VmaList t m (l.erase v) := by
  by_cases hv : v ∈ l
  · obtain ⟨l', rfl⟩ | ⟨l₁, a, l₂, rfl⟩ := mem_cases hv
    · obtain ⟨hhead, hrest⟩ := chain_cons.mp h.chain
      refine ⟨s.setMm m { s.mms m with vmaHead := s.vmaNext v }, ?_, h.erase ?_ fun w => rfl⟩
      · unfold vmaRemove
        rw [hhead]
        exact if_pos rfl
      · rw [List.erase_cons_head, State.mms_setMm_self]
        exact hrest
    · obtain ⟨b, k, hlist⟩ : ∃ b k, l₁ ++ a :: v :: l₂ = b :: k := by
        cases l₁ with
        | nil => exact ⟨_, _, rfl⟩
        | cons b l₁ => exact ⟨_, _, rfl⟩
      have hhead : (s.mms m).vmaHead = some b := (chain_cons.mp (hlist ▸ h.chain)).1
      have hnodup := h.chain.nodup
      obtain ⟨hbefore, hav⟩ := Seg.find_before h.chain hnodup
      have hbv : b ≠ v := by
        rintro rfl
        cases l₁ with
        | nil =>
            obtain ⟨rfl, -⟩ := List.cons.inj hlist
            simp at hnodup
        | cons c l₁ =>
            obtain ⟨rfl, -⟩ := List.cons.inj hlist
            simp at hnodup
      have hfind : (l₁ ++ a :: v :: l₂).find?
          (fun c => s.vmaNext c == none || s.vmaNext c == some v) = some a := by
        refine List.find?_eq_some_iff_append.mpr ⟨by simp [hav], l₁, v :: l₂, rfl, ?_⟩
        intro x hx
        obtain ⟨y, hy, -⟩ := Seg.next_mem h.chain hx
        have hne := hbefore x hx
        rw [hy] at hne
        simpa [hy] using hne
      refine ⟨s.setVma a { s.vmas a with next := s.vmaNext v }, ?_, h.erase ?_ fun w => ?_⟩
      · unfold vmaRemove
        rw [hhead]
        dsimp only
        rw [if_neg hbv, ← hhead, walk_of_chain h.chain h.length_le, hfind]
        exact if_pos hav
      · have hnext : (s.setVma a { s.vmas a with next := s.vmaNext v }).vmaNext =
            Function.update s.vmaNext a (s.vmaNext v) := by
          funext w
          unfold State.vmaNext
          by_cases hw : w = a
          · rw [hw, State.vmas_setVma_self, Function.update_self]
          · rw [Function.update_of_ne hw]
            exact congrArg Vma.next (Function.update_of_ne hw _ _)
        rw [hnext]
        exact h.chain.unlinkBehind
      · by_cases hw : w = a
        · rw [hw, State.vmas_setVma_self]
        · exact congrArg Vma.start (Function.update_of_ne hw _ _)
  · exact ⟨s, vmaRemove_absent h.chain h.length_le hv, (List.erase_of_not_mem hv).symm ▸ h⟩

theorem find_eq (h : VmaList s m l) (vaddr : Nat) :
    vmaFind s m vaddr = .ok (l.find? (s.spans vaddr)) := by
  unfold vmaFind
  rw [walk_of_chain h.chain h.length_le]

end VmaList

/-- The list after any history. -/
theorem History.vmaList {regions : List Nat} (h : History m s regions) :
    ∃ l, VmaList s m l ∧ l.Perm regions := by
  induction h with
  | empty hhead =>
      refine ⟨[], ⟨?_, by simp, .nil⟩, .nil⟩
      rw [hhead]
      exact chain_nil.mpr rfl
  | @insert s t regions v start endAddr hprev hv hlt hret ih =>
      obtain ⟨l, hl, hperm⟩ := ih
      have hvl : v ∉ l := fun hmem => hv (hperm.mem_iff.mp hmem)
      obtain ⟨t', l', hret', hl', hperm'⟩ := (hl.setBounds hvl start endAddr).insert hvl hlt
      obtain rfl := Except.ok.inj (hret'.symm.trans hret)
      exact ⟨l', hl', hperm'.trans (hperm.cons v)⟩
  | @remove s t regions v hprev hret ih =>
      obtain ⟨l, hl, hperm⟩ := ih
      obtain ⟨t', hret', hl'⟩ := hl.remove v
      obtain rfl := Except.ok.inj (hret'.symm.trans hret)
      exact ⟨l.erase v, hl', hperm.erase v⟩

/-- What the list of `m` has to be if `regions` are the regions inserted and not yet removed. -/
structure ListSpec (s : State) (m : Nat) (regions : List Nat) : Prop where
  once : regions.Nodup
  list : ∃ l, Chain s.vmaNext (s.mms m).vmaHead l ∧ l.Nodup ∧ l.Perm regions ∧
    l.Pairwise fun v w => (s.vmas v).start ≤ (s.vmas w).start
  inserts : ∀ v start endAddr, v ∉ regions → v < vmaSlots →
    ∃ t, vmaInsert (s.setBounds v start endAddr) m v = .ok t
  removes : ∀ v, ∃ t, vmaRemove s m v = .ok t
  finds : ∀ vaddr, ∃ found, vmaFind s m vaddr = .ok found ∧
    (∀ v, found = some v → v ∈ regions ∧ s.spans vaddr v = true) ∧
    ((∃ v, found = some v) ↔ ∃ v ∈ regions, s.spans vaddr v = true) ∧
    ((∀ v ∈ regions, ∀ w ∈ regions, s.spans vaddr v = true → s.spans vaddr w = true → v = w) →
      ∀ v ∈ regions, s.spans vaddr v = true → found = some v)

/-- After every sequence of insertions and removals the list is what it has to be. The last part of
`finds` covers regions that are pairwise disjoint: then at most one contains an address. -/
theorem vmaList_exact {regions : List Nat} (h : History m s regions) : ListSpec s m regions := by
  obtain ⟨l, hl, hperm⟩ := h.vmaList
  have hnodup := hl.chain.nodup
  refine ⟨hperm.nodup_iff.mp hnodup, ⟨l, hl.chain, hnodup, hperm, hl.sorted⟩, ?_, ?_, ?_⟩
  · intro v start endAddr hv hlt
    have hvl : v ∉ l := fun hmem => hv (hperm.mem_iff.mp hmem)
    obtain ⟨t, -, hret, -⟩ := (hl.setBounds hvl start endAddr).insert hvl hlt
    exact ⟨t, hret⟩
  · intro v
    obtain ⟨t, hret, -⟩ := hl.remove v
    exact ⟨t, hret⟩
  · intro vaddr
    have hfound : ∀ v, l.find? (s.spans vaddr) = some v → v ∈ regions ∧ s.spans vaddr v = true :=
      fun v hv => ⟨hperm.mem_iff.mp (List.mem_of_find?_eq_some hv), List.find?_some hv⟩
    have hsome : ∀ v ∈ regions, s.spans vaddr v = true →
        ∃ w, l.find? (s.spans vaddr) = some w := by
      intro v hv hspan
      exact Option.isSome_iff_exists.mp
        (List.find?_isSome.mpr ⟨v, hperm.mem_iff.mpr hv, hspan⟩)
    refine ⟨_, hl.find_eq vaddr, hfound, ⟨?_, ?_⟩, ?_⟩
    · rintro ⟨v, hv⟩
      exact ⟨v, hfound v hv⟩
    · rintro ⟨v, hv, hspan⟩
      exact hsome v hv hspan
    · intro hunique v hv hspan
      obtain ⟨w, hw⟩ := hsome v hv hspan
      obtain ⟨hmem, hspan'⟩ := hfound w hw
      rw [hw, hunique v hv w hmem hspan hspan']

/-- Two empty pools on a machine without memory. -/
def emptyPools : State where
  paging :=
    { pmm := ⟨fun _ => 0, 0, 0, 0, 0, 0, false, []⟩
      pageDirectoryLocPhys := 0
      pageTablesLocPhys := fun _ => 0
      pageTableCount := 0
      cr3 := 0 }
  mms _ := .zero
  mmUsed _ := false
  vmas _ := ⟨0, 0, .unset, 0, none, 0⟩
  vmaUsed _ := false
  demand _ := ⟨0, false⟩
  poolFrames := []

/-- Two regions of one start, of which the first is removed. -/
theorem vmaList_exact_equal_starts : ∃ s, History 0 s [2] ∧ ListSpec s 0 [2] := by
  have hempty : History 0 emptyPools [] := .empty rfl
  obtain ⟨s₁, hret₁⟩ := (vmaList_exact hempty).inserts 1 0x1000 0x3000 (by simp) (by decide)
  have hone : History 0 s₁ [1] := .insert hempty (by simp) (by decide) hret₁
  obtain ⟨s₂, hret₂⟩ := (vmaList_exact hone).inserts 2 0x1000 0x2000 (by simp) (by decide)
  have htwo : History 0 s₂ [2, 1] := .insert hone (by simp) (by decide) hret₂
  obtain ⟨s₃, hret₃⟩ := (vmaList_exact htwo).removes 1
  have hlast : History 0 s₃ [2] := .remove htwo hret₃
  exact ⟨s₃, hlast, vmaList_exact hlast⟩

end Unidos.Mm
