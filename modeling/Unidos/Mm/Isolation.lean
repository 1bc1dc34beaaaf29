import Unidos.Mm.Runs

/-!
# What user code sees of a clone

`State.translate` is the walk of the memory management unit through the user half of an address
space; user code reads and writes through it. `clone_isolated` says that a clone starts as an equal
copy in frames of its own, that the parent is not touched, and that from then on what either of the
two reads depends on its own writes only.
-/

namespace Unidos.Mm

open Lib

/-- The directory entry for a user address. -/
def State.pde (s : State) (m va : Nat) : BitVec 32 := tableEntry s.mem (s.dirFrame m) (va / 2 ^ 22)

/-- The table entry for a user address, if its directory entry is present. -/
def State.pte (s : State) (m va : Nat) : BitVec 32 :=
  tableEntry s.mem (entryFrame (s.pde m va)) (va / 4096 % 1024)

/-- The physical address behind a user address. -/
def State.translate (s : State) (m va : Nat) : Option Nat :=
  if va < kernelVirtualBase ∧ entryPresent (s.pde m va) = true ∧
      entryPresent (s.pte m va) = true then
    some (entryPhys (s.pte m va) + va % 4096)
  else none

/-- What user code of `m` reads at an address. -/
def State.readByte (s : State) (m va : Nat) : Option Byte := (s.translate m va).map s.mem

/-- A write by user code of the address space `space`. -/
structure UserWrite where
  space : Nat
  va : Nat
  value : Byte

/-- Memory after a write; nothing happens at an address that is not mapped. -/
def State.userWrite (s : State) (w : UserWrite) : State :=
  match s.translate w.space w.va with
  | none => s
  | some a => s.withMem (Function.update s.mem a w.value)

/-- Memory after some writes. -/
def State.userWrites (s : State) (ws : List UserWrite) : State := ws.foldl State.userWrite s

variable {B : Nat → Prop} {s s' t : State} {m p c x va : Nat} {lists : Nat → List Nat}

theorem pdi_lt_maxPde : va / 2 ^ 22 < maxPde ↔ va < kernelVirtualBase := by
  have hmax : maxPde = 768 := by decide
  unfold kernelVirtualBase
  omega

/-- The frame owned for a user address is the one its table entry names. -/
theorem own_pageRole (hm : s.mmUsed m = true) {f : Nat} : s.Own (m, pageRole va) f ↔
    (va < kernelVirtualBase ∧ entryPresent (s.pde m va) = true ∧
      entryPresent (s.pte m va) = true) ∧ f = entryFrame (s.pte m va) := by
  have hpti : va / 4096 % 1024 < 1024 := Nat.mod_lt _ (by decide)
  simp only [State.Own, pageRole, Owns, hm, pdi_lt_maxPde, hpti, true_and, State.pte, State.pde]
  constructor
  · intro h
    obtain ⟨⟨hva, hpde⟩, hpte, hf⟩ := h
    exact ⟨⟨hva, hpde, hpte⟩, hf⟩
  · intro h
    obtain ⟨⟨hva, hpde, hpte⟩, hf⟩ := h
    exact ⟨⟨hva, hpde⟩, hpte, hf⟩

theorem translate_eq_some (hm : s.mmUsed m = true) {a : Nat} :
    s.translate m va = some a ↔ ∃ f, s.Own (m, pageRole va) f ∧ a = 4096 * f + va % 4096 := by
  simp only [own_pageRole hm]
  unfold State.translate
  split
  · rename_i hpresent
    simp only [hpresent, true_and, exists_eq_left, entryPhys_eq, Option.some.injEq, eq_comm]
  · rename_i habsent
    simp [habsent]

/-- A user address is mapped if a frame is owned for it. -/
theorem translate_isSome (hm : s.mmUsed m = true) :
    (s.translate m va).isSome = true ↔ ∃ f, s.Own (m, pageRole va) f := by
  rw [Option.isSome_iff_exists]
  simp only [translate_eq_some hm]
  exact ⟨fun ⟨_, f, hf, _⟩ => ⟨f, hf⟩, fun ⟨f, hf⟩ => ⟨_, f, hf, rfl⟩⟩

/-- A table is there for a user address if a frame is owned for it. -/
theorem pde_present (hm : s.mmUsed m = true) (hva : va < kernelVirtualBase) :
    entryPresent (s.pde m va) = true ↔ ∃ f, s.Own (m, .table (va / 2 ^ 22)) f := by
  simp only [State.Own, Owns, hm, true_and, pdi_lt_maxPde, hva, State.pde]
  constructor
  · intro h
    exact ⟨_, h, rfl⟩
  · intro h
    obtain ⟨_, h, -⟩ := h
    exact h

/-- Frames for the same addresses, with the same contents: the same bytes are read. -/
theorem readByte_congr (hs : s.mmUsed m = true) (ht : t.mmUsed p = true)
    (hown : (∃ f', t.Own (p, pageRole va) f') ↔ ∃ f, s.Own (m, pageRole va) f)
    (hbytes : ∀ f f', s.Own (m, pageRole va) f → t.Own (p, pageRole va) f' →
      ∀ k, k < 4096 → t.mem (4096 * f' + k) = s.mem (4096 * f + k)) :
    t.readByte p va = s.readByte m va := by
  unfold State.readByte
  cases htrans : s.translate m va with
  | none =>
      have hnone : t.translate p va = none := by
        rw [← Option.not_isSome_iff_eq_none, translate_isSome ht, hown, ← translate_isSome hs,
          htrans]
        simp
      rw [hnone]
      rfl
  | some a =>
      obtain ⟨f, hf, rfl⟩ := (translate_eq_some hs).mp htrans
      obtain ⟨f', hf'⟩ := hown.mpr ⟨f, hf⟩
      rw [(translate_eq_some ht).mpr ⟨f', hf', rfl⟩]
      exact congrArg some (hbytes f f' hf hf' _ (Nat.mod_lt _ (by decide)))

/-! ## Writes -/

/-- A write changes one byte of a page of its address space, if anything. -/
theorem userWrite_eq {w : UserWrite} (hw : s.mmUsed w.space = true) :
    s.userWrite w = s ∨ ∃ f, s.Own (w.space, pageRole w.va) f ∧
      s.userWrite w = s.withMem (Function.update s.mem (4096 * f + w.va % 4096) w.value) := by
  unfold State.userWrite
  cases htrans : s.translate w.space w.va with
  | none => exact .inl rfl
  | some a =>
      obtain ⟨f, hf, rfl⟩ := (translate_eq_some hw).mp htrans
      exact .inr ⟨f, hf, rfl⟩

@[simp] theorem mmUsed_userWrite (s : State) (w : UserWrite) :
    (s.userWrite w).mmUsed = s.mmUsed := by
  unfold State.userWrite
  split
  · rfl
  · rfl

@[simp] theorem mmUsed_userWrites (s : State) (ws : List UserWrite) :
    (s.userWrites ws).mmUsed = s.mmUsed := by
  induction ws generalizing s with
  | nil => rfl
  | cons w ws ih => exact (ih (s.userWrite w)).trans (mmUsed_userWrite s w)

/-- The states look the same to `x`: the owners are the same, and so are the contents of what `x`
owns. -/
structure SameView (B : Nat → Prop) (x : Nat) (s s' : State) : Prop where
  left : FrameInv B [] s
  right : FrameInv B [] s'
  mmUsed : s'.mmUsed = s.mmUsed
  own : ∀ k f, s'.Own k f ↔ s.Own k f
  mem : ∀ r f, s.Own (x, r) f → AgreeOn s.mem s'.mem f

theorem SameView.translate_eq (h : SameView B x s s') (hm : s.mmUsed m = true) (va : Nat) :
    s'.translate m va = s.translate m va := by
  have hm' : s'.mmUsed m = true := by rw [h.mmUsed, hm]
  refine Option.ext fun a => ?_
  rw [translate_eq_some hm', translate_eq_some hm]
  simp only [h.own]

theorem SameView.readByte_eq (h : SameView B x s s') (hx : s.mmUsed x = true) (va : Nat) :
    s'.readByte x va = s.readByte x va := by
  refine readByte_congr hx (by rw [h.mmUsed, hx]) (by simp only [h.own]) fun f f' hf hf' k hk => ?_
  obtain rfl : f' = f := Owns.unique_frame ((h.own _ f').mp hf').2 hf.2
  exact h.mem _ f' hf _ (by omega) (by omega)

/-- Writes by others do not show. -/
theorem SameView.write_other (h : SameView B x s s') {w : UserWrite}
    (hw : s.mmUsed w.space = true) (hne : w.space ≠ x) : SameView B x (s.userWrite w) s' := by
  rcases userWrite_eq hw with heq | ⟨f, hf, heq⟩
  · rwa [heq]
  · have hchange := changesOnly_update s.mem f w.va w.value
    obtain ⟨hinv, hown⟩ := h.left.write (h.left.page_not_fixed hf) hchange
    rw [heq]
    refine ⟨hinv, h.right, h.mmUsed, fun k g => (h.own k g).trans (hown k g).symm,
      fun r g hg => ?_⟩
    have hg' := (hown _ g).mp hg
    have hgf : g ≠ f := by
      rintro rfl
      exact hne (Prod.mk.inj (h.left.ledger.unique _ _ g hf hg')).1
    exact fun a h1 h2 => (h.mem r g hg' a h1 h2).trans (hchange g hgf a h1 h2).symm

/-- The same write by `x` on both sides. -/
theorem SameView.write_own (h : SameView B x s s') {w : UserWrite}
    (hx : s.mmUsed x = true) (hw : w.space = x) :
    SameView B x (s.userWrite w) (s'.userWrite w) := by
  subst hw
  have htrans := h.translate_eq hx w.va
  rcases hcase : s.translate w.space w.va with _ | a
  · rw [State.userWrite, State.userWrite, htrans, hcase]
    exact h
  · obtain ⟨f, hf, rfl⟩ := (translate_eq_some hx).mp hcase
    have hf' := (h.own _ f).mpr hf
    obtain ⟨hinv, hown⟩ := h.left.write (h.left.page_not_fixed hf)
      (changesOnly_update s.mem f w.va w.value)
    obtain ⟨hinv', hown'⟩ := h.right.write (h.right.page_not_fixed hf')
      (changesOnly_update s'.mem f w.va w.value)
    rw [State.userWrite, State.userWrite, htrans, hcase]
    refine ⟨hinv, hinv', h.mmUsed, fun k g => ((hown' k g).trans (h.own k g)).trans (hown k g).symm,
      fun r g hg a h1 h2 => ?_⟩
    have hold := h.mem r g ((hown _ g).mp hg) a h1 h2
    change Function.update s'.mem _ w.value a = Function.update s.mem _ w.value a
    by_cases ha : a = 4096 * f + w.va % 4096
    · rw [ha, Function.update_self, Function.update_self]
    · rw [Function.update_of_ne ha, Function.update_of_ne ha, hold]

/-- Writes by others can be left out. -/
theorem SameView.writes {ws : List UserWrite} (h : SameView B x s s') (hx : s.mmUsed x = true)
    (hws : ∀ w ∈ ws, s.mmUsed w.space = true) :
    SameView B x (s.userWrites ws) (s'.userWrites (ws.filter fun w => w.space = x)) := by
  induction ws generalizing s s' with
  | nil => exact h
  | cons w ws ih =>
      have hrest : ∀ v ∈ ws, (s.userWrite w).mmUsed v.space = true := fun v hv => by
        rw [mmUsed_userWrite]
        exact hws v (List.mem_cons_of_mem _ hv)
      have hx' : (s.userWrite w).mmUsed x = true := by rw [mmUsed_userWrite, hx]
      by_cases hw : w.space = x
      · rw [List.filter_cons_of_pos (by simpa using hw)]
        exact ih (h.write_own hx hw) hx' hrest
      · rw [List.filter_cons_of_neg (by simpa using hw)]
        exact ih (h.write_other (hws w List.mem_cons_self) hw) hx' hrest

/-! ## Clones -/

/-- The child `c` in `t` maps what the parent `p` maps in `s`, with the same flags and bytes. -/
structure SameUserHalf (s t : State) (p c : Nat) : Prop where
  pde : ∀ va, va < kernelVirtualBase → entryPresent (t.pde c va) = entryPresent (s.pde p va)
  pde_flags : ∀ va, va < kernelVirtualBase → entryPresent (s.pde p va) = true →
    entryFlags (t.pde c va) = entryFlags (s.pde p va)
  mapped : ∀ va, (t.translate c va).isSome = (s.translate p va).isSome
  pte_flags : ∀ va, (s.translate p va).isSome = true →
    entryFlags (t.pte c va) = entryFlags (s.pte p va)
  bytes : ∀ va, t.readByte c va = s.readByte p va

theorem Cloned.sameUserHalf {lists' : Nat → List Nat} (h : Cloned s t p c lists lists')
    (hp : s.mmUsed p = true) : SameUserHalf s t p c := by
  have hc : t.mmUsed c = true := by rw [h.mmUsed, Function.update_self]
  have hpage : ∀ va, (∃ f', t.Own (c, pageRole va) f') ↔ ∃ f, s.Own (p, pageRole va) f :=
    fun va => h.owns _ (by simp [pageRole])
  refine ⟨fun va hva => ?_, fun va hva hpresent => ?_, fun va => ?_, fun va hmapped => ?_,
    fun va => readByte_congr hp hc (hpage va) fun f f' hf hf' => h.bytes _ _ f f' hf hf'⟩
  · rw [Bool.eq_iff_iff, pde_present hc hva, pde_present hp hva]
    exact h.owns _ (by simp)
  · obtain ⟨f, hf⟩ := (pde_present hp hva).mp hpresent
    exact h.flags _ f (by simp) hf
  · rw [Bool.eq_iff_iff, translate_isSome hc, translate_isSome hp]
    exact hpage va
  · obtain ⟨f, hf⟩ := (translate_isSome hp).mp hmapped
    exact h.flags _ f (by simp [pageRole]) hf

/-- A clone that succeeds is an equal copy in new frames, leaves the parent as it was, and from
then on neither of the two sees what the other writes. -/
theorem clone_isolated (hinv : FrameInv B [] s) (hregions : RegionInv s lists)
    (hp : s.mmUsed p = true) (hret : mmCloneUserEager s (some p) = .ok (some c, t)) :
    SameUserHalf s t p c ∧
    (∀ r f, t.Own (c, r) f → ¬ s.Taken f) ∧
    (t.mms p = s.mms p ∧ (∀ r f, s.Own (p, r) f → AgreeOn s.mem t.mem f) ∧
      Chain t.vmaNext (t.mms p).vmaHead (lists p) ∧ ∀ v ∈ lists p, t.vmas v = s.vmas v) ∧
    ((lists p).Pairwise (fun v w => (s.vmas v).start < (s.vmas w).start) →
      ∃ l, Chain t.vmaNext (t.mms c).vmaHead l ∧
        l.map (fun v => (t.vmas v).content) = (lists p).map fun v => (s.vmas v).content) ∧
    ∀ ws : List UserWrite, (∀ w ∈ ws, w.space = p ∨ w.space = c) → ∀ x, x = p ∨ x = c →
      ∀ va, (t.userWrites ws).readByte x va =
        (t.userWrites (ws.filter fun w => w.space = x)).readByte x va := by
  obtain ⟨lists', h⟩ := mmCloneUserEager_spec hret hinv hregions hp
  obtain ⟨-, hclone⟩ := h.some c rfl
  have hpt : t.mmUsed p = true := (h.keeps.mmUsed p hp).trans hp
  have hct : t.mmUsed c = true := by rw [hclone.mmUsed, Function.update_self]
  have hlive : ∀ m, m = p ∨ m = c → t.mmUsed m = true := by
    rintro m (rfl | rfl)
    · exact hpt
    · exact hct
  refine ⟨hclone.sameUserHalf hp, hclone.fresh, ⟨h.keeps.record p hp, h.keeps.mem p hp, ?_,
    h.keeps.vmas p hp⟩, fun hsorted => ⟨lists' c, h.regionInv.chain c hct, hclone.regions hsorted⟩,
    fun ws hws x hx va => ?_⟩
  · rw [← h.lists_eq p hp]
    exact h.regionInv.chain p hpt
  · have hview : SameView B x t t :=
      ⟨h.inv, h.inv, rfl, fun _ _ => Iff.rfl, fun _ _ _ => .refl _ _⟩
    have hused : (t.userWrites ws).mmUsed x = true := by
      rw [mmUsed_userWrites]
      exact hlive x hx
    exact ((hview.writes (hlive x hx) fun w hw => hlive _ (hws w hw)).readByte_eq hused va).symm

/-- The clone of an address space with one page. -/
theorem clone_isolated_small : ∃ s t, s.readByte 0 0x400000 = some 0 ∧
    mmCloneUserEager s (some 0) = .ok (some 1, t) ∧ SameUserHalf s t 0 1 := by
  obtain ⟨s₁, h₁, htest⟩ := exists_of_okAnd (e := Op.exec smallState .create)
    (p := fun s₁ => s₁.mmUsed 0 && !entryPresent (tableEntry s₁.mem (s₁.dirFrame 0) 1) &&
      okAnd (Op.exec s₁ (.mapRegion 0 0x400000 4096 .data 3 none)) fun s₂ => s₂.mmUsed 0 &&
        s₂.readByte 0 0x400000 == some 0 &&
        okAnd (mmCloneUserEager s₂ (some 0)) fun r => r.1 == some 1)
    (by decide +kernel)
  simp only [Bool.and_eq_true, Bool.not_eq_true'] at htest
  obtain ⟨⟨hused₁, habsent⟩, htest⟩ := htest
  obtain ⟨s₂, h₂, htest⟩ := exists_of_okAnd htest
  simp only [Bool.and_eq_true, beq_iff_eq] at htest
  obtain ⟨⟨hused₂, hread⟩, htest⟩ := htest
  obtain ⟨⟨child, t⟩, hclone, hchild⟩ := exists_of_okAnd htest
  obtain rfl : child = some 1 := by simpa using hchild
  have hinv₁ := step_inv (o := .create) ready_smallState.inv trivial h₁
  obtain ⟨hinv₂, lists, hregions⟩ := step_inv (o := .mapRegion 0 0x400000 4096 .data 3 none)
    hinv₁ ⟨hused₁, by decide, unmapped_of_absent habsent⟩ h₂
  exact ⟨s₂, t, hread, hclone, (clone_isolated hinv₂ hregions hused₂ hclone).1⟩

end Unidos.Mm
