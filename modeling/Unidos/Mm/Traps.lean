import Unidos.Mm.Basic
import Unidos.Lib.Errors

/-!
# How the memory manager can stop

Three panics are about invariants of the kernel: a reference counter below zero, of an open file or
of a file target, and the destruction of the address space that is loaded. All other traps are
routine. Of the functions of the memory manager only `mm_destroy` raises one of these three, and
only if the address space is loaded (`mmDestroy_raises`).
-/

namespace Unidos

open Lib

/-- The panics of `open_file_put` and `file_target_put`. -/
def Trap.Underflow (e : Trap) : Prop :=
  e = .panic "open_file_put: refcount underflow" ∨ e = .panic "file_target_put: refcount underflow"

/-- The panic of `mm_destroy`. -/
def Trap.DestroysActive (e : Trap) : Prop :=
  e = .panic "mm_destroy: attempted to destroy the active address space"

/-- None of these panics. -/
def Trap.Routine (e : Trap) : Prop := ¬ e.Underflow ∧ ¬ e.DestroysActive

instance (e : Trap) : Decidable e.Underflow := inferInstanceAs (Decidable (_ ∨ _))

instance (e : Trap) : Decidable e.DestroysActive := inferInstanceAs (Decidable (_ = _))

instance (e : Trap) : Decidable e.Routine := inferInstanceAs (Decidable (_ ∧ _))

@[simp] theorem Trap.routine_fault : Trap.Routine .fault := by decide

@[simp] theorem Trap.routine_diverge : Trap.Routine .diverge := by decide

theorem physToVirt_routine (addr : Nat) : Raises Trap.Routine (physToVirt addr) := by
  unfold physToVirt
  split
  · exact raises_error.mpr (by decide)
  · exact raises_ok _

namespace Paging

theorem ptPtrFromPdi_routine (s : State) (pdi : Nat) :
    Raises Trap.Routine (ptPtrFromPdi s pdi) := by
  unfold ptPtrFromPdi
  split
  · exact raises_ok _
  refine (physToVirt_routine _).bind fun pd _ => ?_
  split
  · exact raises_ok _
  · exact (physToVirt_routine _).bind fun pt _ => raises_ok _

theorem pagingMapPage_routine (s : State) (virt phys : Nat) (flags : BitVec 32) :
    Raises Trap.Routine (pagingMapPage s virt phys flags) := by
  unfold pagingMapPage
  repeat' first | with_reducible exact raises_ok _ | split
  refine (physToVirt_routine _).bind fun pd _ => ?_
  dsimp only
  split
  · exact raises_ok _
  refine (ptPtrFromPdi_routine _ _).bind fun pt _ => ?_
  repeat' first | with_reducible exact raises_ok _ | split

theorem pagingUnmapPage_routine (s : State) (virt : Nat) :
    Raises Trap.Routine (pagingUnmapPage s virt) := by
  unfold pagingUnmapPage
  repeat' first | with_reducible exact raises_ok _ | split
  refine (physToVirt_routine _).bind fun pd _ => ?_
  split
  · exact raises_ok _
  refine (ptPtrFromPdi_routine _ _).bind fun pt _ => ?_
  dsimp only
  repeat' first | with_reducible exact raises_ok _ | split

end Paging

namespace Mm

/-! ## Regions -/

theorem vmaInsert_routine (s : State) (m v : Nat) : Raises Trap.Routine (vmaInsert s m v) := by
  unfold vmaInsert
  repeat' first
    | with_reducible exact raises_ok _
    | exact raises_error.mpr (by decide)
    | split

theorem vmaRemove_routine (s : State) (m v : Nat) : Raises Trap.Routine (vmaRemove s m v) := by
  unfold vmaRemove
  dsimp only
  repeat' first
    | with_reducible exact raises_ok _
    | exact raises_error.mpr (by decide)
    | split

theorem freeVmas_routine (fuel : Nat) (v : Option Nat) (s : State) :
    Raises Trap.Routine (freeVmas fuel v s) := by
  induction fuel generalizing v s with
  | zero => cases v <;> simp [freeVmas]
  | succ fuel ih =>
      cases v with
      | none => simp [freeVmas]
      | some v => exact ih _ _

theorem vmaDestroyAll_routine (s : State) (m : Nat) :
    Raises Trap.Routine (vmaDestroyAll s m) :=
  (freeVmas_routine _ _ _).bind fun _ _ => raises_ok _

/-! ## Address spaces -/

theorem mmAllocPd_routine (s : State) : Raises Trap.Routine (mmAllocPd s) := by
  unfold mmAllocPd
  dsimp only
  split
  · exact raises_ok _
  refine (Paging.pagingMapPage_routine _ _ _ _).bind fun r _ => ?_
  split
  · exact raises_ok _
  refine (physToVirt_routine _).bind fun pd _ => ?_
  refine (Paging.pagingUnmapPage_routine _ _).bind fun r _ => ?_
  repeat' first
    | with_reducible exact raises_ok _
    | exact raises_error.mpr (by decide)
    | split

theorem mmCreate_routine (s : State) : Raises Trap.Routine (mmCreate s) := by
  refine (mmAllocPd_routine s).bind fun r _ => ?_
  repeat' first | with_reducible exact raises_ok _ | split

theorem freeTable_routine (pd : Nat) (pmm : Pmm.State) (i : Nat) :
    Raises Trap.Routine (freeTable pd pmm i) := by
  unfold freeTable
  dsimp only
  split
  · exact raises_ok _
  · exact (physToVirt_routine _).bind fun _ _ => raises_ok _

theorem destroyFrames_routine (s : State) (m : Nat) : Raises Trap.Routine (destroyFrames s m) :=
  (physToVirt_routine _).bind fun pd _ =>
    (Raises.foldlM (freeTable_routine pd) _ _).bind fun _ _ => raises_ok _

/-- The address space that is loaded, if it is `mm`. -/
def State.Loaded (s : State) (mm : Option Nat) : Prop :=
  ∃ m, mm = some m ∧ s.paging.cr3 / 4096 * 4096 = (s.mms m).cr3Phys

theorem mmDestroy_raises (s : State) (mm : Option Nat) :
    Raises (fun e => e.Routine ∨ (e.DestroysActive ∧ s.Loaded mm)) (mmDestroy s mm) := by
  unfold mmDestroy
  split
  · exact raises_ok _
  · rename_i m
    split
    · rename_i hactive
      exact raises_error.mpr (.inr ⟨rfl, m, rfl, hactive⟩)
    · exact ((vmaDestroyAll_routine s m).bind fun _ _ => destroyFrames_routine _ m).mono
        fun _ he => .inl he

/-! ## Pages -/

theorem ensureUserTable_routine (s : State) (pd pdi : Nat) :
    Raises Trap.Routine (ensureUserTable s pd pdi) := by
  unfold ensureUserTable
  dsimp only
  repeat' first | with_reducible exact raises_ok _ | split
  exact (physToVirt_routine _).bind fun _ _ => raises_ok _

theorem mapPage_routine (m pd vaStart : Nat) (flags : BitVec 32) (data : Option InitialData)
    (loop : State × Nat) (p : Nat) :
    Raises Trap.Routine (mapPage m pd vaStart flags data loop p) := by
  unfold mapPage
  dsimp only
  split
  · exact raises_ok _
  refine (ensureUserTable_routine _ _ _).bind fun r _ => ?_
  split
  · exact raises_ok _
  · exact (physToVirt_routine _).bind fun _ _ => (physToVirt_routine _).bind fun _ _ => raises_ok _

theorem mmMapRegion_routine (s : State) (mm : Option Nat) (vaStart size : BitVec 32)
    (type : VmaType) (prot : BitVec 32) (data : Option InitialData) :
    Raises Trap.Routine (mmMapRegion s mm vaStart size type prot data) := by
  unfold mmMapRegion
  split
  · exact raises_ok _
  -- the arguments are checked
  iterate 4
    split
    · exact raises_ok _
  split
  · exact raises_ok _
  refine (physToVirt_routine _).bind fun pd _ => ?_
  refine (Raises.forOk (mapPage_routine _ _ _ _ _) _ _).bind fun r _ => ?_
  dsimp only
  split
  · exact (vmaInsert_routine _ _ _).bind fun _ _ => raises_ok _
  · exact (vmaRemove_routine _ _ _).bind fun _ _ => raises_ok _

theorem clonePage_routine (child parentPt childPt : Nat) (s : State) (j : Nat) :
    Raises Trap.Routine (clonePage child parentPt childPt s j) := by
  unfold clonePage
  dsimp only
  repeat' first | with_reducible exact raises_ok _ | split
  exact (physToVirt_routine _).bind fun _ _ => (physToVirt_routine _).bind fun _ _ => raises_ok _

theorem cloneTable_routine (child parentPd childPd : Nat) (s : State) (i : Nat) :
    Raises Trap.Routine (cloneTable child parentPd childPd s i) := by
  unfold cloneTable
  dsimp only
  repeat' first | with_reducible exact raises_ok _ | split
  exact (physToVirt_routine _).bind fun _ _ => (physToVirt_routine _).bind fun _ _ =>
    Raises.forOk (clonePage_routine _ _ _) _ _

theorem cloneVmas_routine (child fuel : Nat) (v : Option Nat) (s : State) :
    Raises Trap.Routine (cloneVmas child fuel v s) := by
  induction fuel generalizing v s with
  | zero => cases v <;> simp [cloneVmas]
  | succ fuel ih =>
      cases v with
      | none => simp [cloneVmas]
      | some v =>
          unfold cloneVmas
          split
          · exact raises_ok _
          · exact (vmaInsert_routine _ _ _).bind fun _ _ => ih _ _

theorem cloneUser_routine (s : State) (parent child : Nat) :
    Raises Trap.Routine (cloneUser s parent child) := by
  refine (physToVirt_routine _).bind fun _ _ => (physToVirt_routine _).bind fun _ _ => ?_
  refine (Raises.forOk (cloneTable_routine _ _ _) _ _).bind fun r _ => ?_
  dsimp only
  split
  · exact cloneVmas_routine _ _ _ _
  · exact raises_ok _

/-! ## No reference counts -/

theorem mmDestroy_noUnderflow (s : State) (mm : Option Nat) :
    Raises (fun e => ¬ e.Underflow) (mmDestroy s mm) :=
  (mmDestroy_raises s mm).mono fun e he => by
    obtain hroutine | ⟨hactive, -⟩ := he
    · exact hroutine.1
    · rw [hactive]
      decide

theorem mmCloneUserEager_noUnderflow (s : State) (parent : Option Nat) :
    Raises (fun e => ¬ e.Underflow) (mmCloneUserEager s parent) := by
  have hP : ∀ e, Trap.Routine e → ¬ e.Underflow := fun e he => he.1
  unfold mmCloneUserEager
  split
  · exact raises_ok _
  refine ((mmCreate_routine s).mono hP).bind fun r _ => ?_
  dsimp only
  split
  · exact raises_ok _
  refine ((cloneUser_routine _ _ _).mono hP).bind fun r _ => ?_
  split
  · exact raises_ok _
  · exact (mmDestroy_noUnderflow _ _).bind fun _ _ => raises_ok _

end Mm

end Unidos
