import Unidos.Mm.Clone

/-!
# Runs of the address-space calls

Any sequence of `mm_create`, `mm_map_region`, `mm_clone_user_eager`, and `mm_destroy` on live
address spaces keeps the books balanced, whether or not the calls in it succeed. `run_frames_owned`
is the result: in every state reached, each frame has one owner at most, every frame that is not
the kernel's has one, and destroying an address space gives back exactly what it owns.
-/

namespace Unidos.Mm

open Lib

/-- A call, with its arguments. -/
inductive Op where
  | create
  | mapRegion (m : Nat) (vaStart size : BitVec 32) (type : VmaType) (prot : BitVec 32)
      (data : Option InitialData)
  | clone (m : Nat)
  | destroy (m : Nat)

/-- The state a call leaves. -/
def Op.exec (s : State) : Op → Except Trap State
  | .create => do
      let (_, s) ← mmCreate s
      .ok s
  | .mapRegion m vaStart size type prot data => do
      let (_, s) ← mmMapRegion s (some m) vaStart size type prot data
      .ok s
  | .clone m => do
      let (_, s) ← mmCloneUserEager s (some m)
      .ok s
  | .destroy m => mmDestroy s (some m)

def Step (s : State) (op : Op) (t : State) : Prop := op.exec s = .ok t

/-- The directory of `m` is not the one that is loaded. -/
def State.Inactive (s : State) (m : Nat) : Prop :=
  s.paging.cr3 / 4096 * 4096 ≠ (s.mms m).cr3Phys

/-- The calls are about live address spaces; a region to be mapped does not wrap around and none
of its pages is present; an address space to be destroyed is not loaded. -/
def Op.Allowed (s : State) : Op → Prop
  | .create => True
  | .mapRegion m vaStart size _ _ _ => s.mmUsed m = true ∧
      vaStart.toNat + size.toNat < 2 ^ 32 ∧ s.Unmapped m vaStart.toNat (size.toNat / 4096)
  | .clone m => s.mmUsed m = true
  | .destroy m => s.mmUsed m = true ∧ s.Inactive m

/-- Both parts of the invariant. -/
def Inv (B : Nat → Prop) (s : State) : Prop := FrameInv B [] s ∧ ∃ lists, RegionInv s lists

variable {B : Nat → Prop} {s s₀ t : State} {o : Op} {ops : List Op}

/-- Every call keeps the invariant. -/
theorem step_inv (h : Inv B s) (hallowed : o.Allowed s) (hstep : Step s o t) : Inv B t := by
  obtain ⟨hs, lists, hr⟩ := h
  cases o with
  | create =>
      obtain ⟨⟨child, u⟩, hret, heq⟩ := bind_eq_ok.mp hstep
      obtain rfl := Except.ok.inj heq
      obtain ⟨hinv, hcase⟩ := mmCreate_spec hret hs
      rcases hcase with ⟨-, hcalm⟩ | ⟨m, f, -, hnew⟩
      · exact ⟨hinv, lists, hr.calm hcalm⟩
      · exact ⟨hinv, _, hnew.regionInv hr⟩
  | mapRegion m vaStart size type prot data =>
      obtain ⟨⟨code, u⟩, hret, heq⟩ := bind_eq_ok.mp hstep
      obtain rfl := Except.ok.inj heq
      obtain ⟨hm, hwrap, habsent⟩ := hallowed
      obtain ⟨hinv, hregions, -⟩ := mmMapRegion_spec hret hs hr hm hwrap habsent
      exact ⟨hinv, hregions⟩
  | clone m =>
      obtain ⟨⟨child, u⟩, hret, heq⟩ := bind_eq_ok.mp hstep
      obtain rfl := Except.ok.inj heq
      obtain ⟨lists', hclone⟩ := mmCloneUserEager_spec hret hs hr hallowed
      exact ⟨hclone.inv, lists', hclone.regionInv⟩
  | destroy m =>
      obtain ⟨hinv, -, hregions⟩ := mmDestroy_spec hstep hs hr hallowed.1
      exact ⟨hinv, _, hregions⟩

/-- A state before the first address space: the frames of the bitmap, of the kernel's tables, and
frame `0` are allocated. -/
structure Ready (s : State) : Prop where
  sound : s.paging.pmm.Sound
  tables : s.paging.Tables
  unused : ∀ m, s.mmUsed m = false
  zero_taken : s.Taken 0
  pool_taken : ∀ f, f ∈ s.poolFrames → s.Taken f
  kernel_taken : ∀ f, s.paging.KernelFrame f → s.Taken f
  kernel_bitmap : ∀ f, s.paging.KernelFrame f → ¬ s.paging.pmm.HoldsBitmap f

/-- Before the first address space the books balance. -/
theorem Ready.inv (h : Ready s) : Inv s.Taken s := by
  have hnone : ∀ k f, ¬ s.Own k f := fun k f hk => absurd ((h.unused k.1).symm.trans hk.1) (by simp)
  have hnotUsed : ∀ m, ¬ s.mmUsed m = true := fun m => by simp [h.unused m]
  refine ⟨⟨h.sound, h.tables, ⟨fun k _ f hk => absurd hk (hnone k f),
    fun k f hk => absurd hk (hnone k f), fun f hf => ?_, by simp, fun f hf => .inl (.inl hf)⟩,
    fun m hm => absurd hm (hnotUsed m), fun f hf hb => ⟨hf, h.sound.bitmap_set f hf hb⟩,
    h.zero_taken, h.kernel_bitmap, fun k f hk => absurd hk (hnone k f), by simp⟩,
    fun _ => [], fun m hm => absurd hm (hnotUsed m), fun m hm => absurd hm (hnotUsed m),
    fun m _ hm => absurd hm (hnotUsed m)⟩
  rcases hf with hf | hf | hf
  · exact hf
  · exact h.pool_taken f hf
  · exact h.kernel_taken f hf

/-- Who owns which frame, in a state reached from `s₀`. -/
structure FramesOwned (s₀ s : State) : Prop where
  once : ∀ k k' f, s.Own k f → s.Own k' f → k = k'
  marked : ∀ k f, s.Own k f → s.Taken f
  pages : ∀ m, s.mmUsed m = true → (s.mms m).pageCount = pageCount maxPde s.mem (s.dirFrame m)
  accounted : ∀ f, s.Taken f →
    s₀.Taken f ∨ f ∈ s.poolFrames ∨ s.paging.KernelFrame f ∨ ∃ k, s.Own k f
  kept : ∀ f, s₀.Taken f → s.Taken f ∧ ∀ k, ¬ s.Own k f

theorem Inv.framesOwned (h : Inv s₀.Taken s) : FramesOwned s₀ s := by
  obtain ⟨hs, -⟩ := h
  refine ⟨hs.ledger.unique, fun k f hk => (hs.ledger.owned k f hk).1,
    fun m hm => (hs.records m hm).pages, fun f hf => ?_, fun f hf =>
      ⟨hs.ledger.base_taken f (.inl hf), fun k hk => (hs.ledger.owned k f hk).2.1 (.inl hf)⟩⟩
  rcases hs.ledger.accounted f hf with (hb | hp | hk) | hl | hk
  · exact .inl hb
  · exact .inr (.inl hp)
  · exact .inr (.inr (.inl hk))
  · simp at hl
  · exact .inr (.inr (.inr hk))

/-- In every state that the calls reach, the books balance, and `mm_destroy` gives back exactly
the frames that the address space owns. It returns whenever the window reaches all of memory. -/
theorem run_frames_owned (hready : Ready s₀)
    (hrun : Run (Guarded Step fun s op => op.Allowed s) s₀ ops s) :
    FramesOwned s₀ s ∧ ∀ m, s.mmUsed m = true → s.Inactive m →
      (∀ t, mmDestroy s (some m) = .ok t →
        ∀ f, t.Taken f ↔ s.Taken f ∧ ¬ ∃ r, s.Own (m, r) f) ∧
      (s.paging.pmm.frameCount ≤ 0x30000 → ∃ t, mmDestroy s (some m) = .ok t) := by
  have hinv : Inv s₀.Taken s := hrun.invariant (I := Inv s₀.Taken)
    (fun _ _ _ h hstep => step_inv h hstep.1 hstep.2) hready.inv
  refine ⟨hinv.framesOwned, fun m hm hactive => ?_⟩
  obtain ⟨hs, lists, hr⟩ := hinv
  refine ⟨fun t hret => ?_, mmDestroy_ok hs hr hm hactive⟩
  exact (mmDestroy_spec hret hs hr hm).2.1.taken

/-- Sixteen frames: the bitmap lies in frame `1`, the kernel's directory in frame `2`. -/
def smallState : State where
  paging := {
    pmm := {
      mem := fun a => if a = 4096 then 7 else 0
      pagebitmapPhys := 4096
      pagebitmapSizeBytes := 2
      frameCount := 16
      frameHint := 3
      availableFrames := 13
      usePhysWindowAlias := true
      memRegions := [] }
    pageDirectoryLocPhys := 8192
    pageTablesLocPhys := fun _ => 0
    pageTableCount := 0
    cr3 := 8192 }
  mms := fun _ => .zero
  mmUsed := fun _ => false
  vmas := fun _ => ⟨0, 0, .unset, 0, none, 0⟩
  vmaUsed := fun _ => false
  demand := fun _ => ⟨0, true⟩
  poolFrames := []

theorem ready_smallState : Ready smallState := by
  have hkernel : ∀ f, smallState.paging.KernelFrame f → f = 2 := by
    rintro f (hdir | ⟨i, -, hne, -⟩)
    · change 8192 = 4096 * f at hdir
      omega
    · exact absurd rfl hne
  refine ⟨⟨⟨⟨by decide, by decide +kernel, fun f hf hres => ?_⟩, by decide, by decide, by decide⟩,
    by decide +kernel⟩, ⟨by decide, fun _ _ => rfl, fun i hi hne => absurd rfl hne,
      fun i hi hne => absurd rfl hne⟩, fun _ => rfl, ⟨by decide, by decide⟩,
    fun f hf => absurd hf (by simp [smallState]), fun f hf => ?_, fun f hf => ?_⟩
  · obtain ⟨a, -, -, r, hr, -⟩ := hres
    simp [smallState] at hr
  · rw [hkernel f hf]
    exact ⟨by decide, by decide⟩
  · rw [hkernel f hf]
    decide

/-- A page whose table is not there is not mapped. -/
theorem unmapped_of_absent {m : Nat} {vaStart : BitVec 32}
    (h : entryPresent (tableEntry s.mem (s.dirFrame m) (vaStart.toNat / 2 ^ 22)) = false) :
    s.Unmapped m vaStart.toNat 1 := by
  intro p hp f hown
  obtain rfl : p = 0 := by omega
  have hpresent := hown.2.1.2
  rw [Nat.zero_mul, Nat.add_zero, h] at hpresent
  exact absurd hpresent (by simp)

/-- An address space is made, and a page is mapped. -/
theorem run_frames_owned_small : ∃ s, Run (Guarded Step fun s op => op.Allowed s) smallState
      [.create, .mapRegion 0 0x400000 4096 .data 3 none] s ∧
    s.mmUsed 0 = true ∧ (s.mms 0).pageCount = 1 ∧ FramesOwned smallState s := by
  obtain ⟨s₁, h₁, htest⟩ := exists_of_okAnd (e := Op.exec smallState .create)
    (p := fun s₁ => s₁.mmUsed 0 && !entryPresent (tableEntry s₁.mem (s₁.dirFrame 0) 1) &&
      okAnd (Op.exec s₁ (.mapRegion 0 0x400000 4096 .data 3 none)) fun s₂ => s₂.mmUsed 0 &&
        (s₂.mms 0).pageCount == 1)
    (by decide +kernel)
  simp only [Bool.and_eq_true, Bool.not_eq_true'] at htest
  obtain ⟨⟨hused₁, habsent⟩, htest⟩ := htest
  obtain ⟨s₂, h₂, htest⟩ := exists_of_okAnd htest
  simp only [Bool.and_eq_true, beq_iff_eq] at htest
  have hrun : Run (Guarded Step fun s op => op.Allowed s) smallState
      [.create, .mapRegion 0 0x400000 4096 .data 3 none] s₂ :=
    .cons ⟨trivial, h₁⟩
      (.cons ⟨⟨hused₁, by decide, unmapped_of_absent habsent⟩, h₂⟩ (.nil _))
  exact ⟨s₂, hrun, htest.1, htest.2, (run_frames_owned ready_smallState hrun).1⟩

end Unidos.Mm
