import Unidos.Mm.Traps
import Unidos.Sched.Exec

/-!
# How the scheduler can stop

The functions that only work on the lists of the scheduler raise routine traps. The others raise
what the functions below them raise, in the states in which they call these: the hypotheses of the
lemmas are about these calls.
-/

namespace Unidos

open Lib

namespace Paging

theorem pagingQueryPage_routine (s : State) (virt : Nat) :
    Raises Trap.Routine (pagingQueryPage s virt) := by
  unfold pagingQueryPage
  split
  · exact raises_ok _
  refine (physToVirt_routine _).bind fun pd _ => ?_
  dsimp only
  split
  · exact raises_ok _
  refine (physToVirt_routine _).bind fun pt _ => ?_
  split
  · exact raises_ok _
  · exact raises_ok _

theorem userPages_routine (s : State) (pages : List Nat) :
    Raises Trap.Routine (userPages s pages) := by
  induction pages with
  | nil => exact raises_ok _
  | cons va pages ih =>
      refine ((pagingQueryPage_routine s va).bind fun _ _ => raises_ok _).bind fun ok _ => ?_
      split
      · exact ih
      · exact raises_ok _

theorem loadByte_routine (s : State) (virt : Nat) : Raises Trap.Routine (loadByte s virt) := by
  unfold loadByte
  dsimp only
  split
  · exact raises_ok _
  · exact raises_error.mpr (by decide)

theorem copyin_routine (s : State) (usrc n : Nat) : Raises Trap.Routine (copyin s usrc n) := by
  unfold copyin
  iterate 3
    split
    · exact raises_ok _
  refine (userPages_routine _ _).bind fun ok _ => ?_
  split
  · exact raises_ok _
  · exact (Raises.mapM fun k _ => loadByte_routine s (usrc + k)).bind fun _ _ => raises_ok _

end Paging

namespace Sched

variable {s : State}

/-! ## Lists -/

section Lists

variable (s)

theorem sleepqInsert_routine (t : Nat) : Raises Trap.Routine (sleepqInsert s t) := by
  unfold sleepqInsert
  dsimp only
  repeat' first
    | with_reducible exact raises_ok _
    | exact raises_error.mpr (by decide)
    | split

theorem sleepqRemove_routine (t : Nat) : Raises Trap.Routine (sleepqRemove s t) := by
  unfold sleepqRemove
  dsimp only
  repeat' first
    | with_reducible exact raises_ok _
    | exact raises_error.mpr (by decide)
    | split

theorem nextRunnable_routine (start : Option Nat) : Raises Trap.Routine (nextRunnable s start) := by
  unfold nextRunnable
  dsimp only
  repeat' first
    | with_reducible exact raises_ok _
    | exact raises_error.mpr (by decide)
    | split

theorem runqAppend_routine (t : Nat) : Raises Trap.Routine (runqAppend s t) := by
  unfold runqAppend
  dsimp only
  repeat' first
    | with_reducible exact raises_ok _
    | exact raises_error.mpr (by decide)
    | split

theorem threadUnlinkFromRunq_routine (t : Nat) :
    Raises Trap.Routine (threadUnlinkFromRunq s t) := by
  unfold threadUnlinkFromRunq
  dsimp only
  repeat' first
    | with_reducible exact raises_ok _
    | exact raises_error.mpr (by decide)
    | split

theorem linkThread_routine (p t : Nat) : Raises Trap.Routine (linkThread s p t) := by
  unfold linkThread
  repeat' first
    | with_reducible exact raises_ok _
    | exact raises_error.mpr (by decide)
    | split

theorem unlinkWaiter_routine (owner t : Nat) : Raises Trap.Routine (unlinkWaiter s owner t) := by
  unfold unlinkWaiter
  repeat' first
    | with_reducible exact raises_ok _
    | exact raises_error.mpr (by decide)
    | split

theorem unlinkExited_routine (p t : Nat) : Raises Trap.Routine (unlinkExited s p t) := by
  unfold unlinkExited
  dsimp only
  repeat' first
    | with_reducible exact raises_ok _
    | exact raises_error.mpr (by decide)
    | split

theorem linkChild_routine (parent : Option Nat) (p : Nat) :
    Raises Trap.Routine (linkChild s parent p) := by
  unfold linkChild
  repeat' first
    | with_reducible exact raises_ok _
    | exact raises_error.mpr (by decide)
    | split

theorem unlinkChild_routine (p : Nat) : Raises Trap.Routine (unlinkChild s p) := by
  unfold unlinkChild
  repeat' first
    | with_reducible exact raises_ok _
    | exact raises_error.mpr (by decide)
    | split

theorem leaveThreadList_routine (p t : Nat) :
    Raises Trap.Routine (leaveThreadList s p t) := by
  unfold leaveThreadList
  repeat' first
    | with_reducible exact raises_ok _
    | exact raises_error.mpr (by decide)
    | split

theorem procFindZombieChild_routine (parent pid : Nat) :
    Raises Trap.Routine (procFindZombieChild s parent pid) := by
  unfold procFindZombieChild
  dsimp only
  repeat' first
    | with_reducible exact raises_ok _
    | exact raises_error.mpr (by decide)
    | split

theorem hasMatchingChild_routine (parent pid : Nat) :
    Raises Trap.Routine (hasMatchingChild s parent pid) := by
  unfold hasMatchingChild
  repeat' first
    | with_reducible exact raises_ok _
    | exact raises_error.mpr (by decide)
    | split

/-! ## Threads -/

theorem schedAddThread_routine (entry : BitVec 32) (proc : Option Nat) :
    Raises Trap.Routine (schedAddThread s entry proc) := by
  unfold schedAddThread
  split
  · exact raises_ok _
  split
  · exact raises_ok _
  refine (linkThread_routine _ _ _).bind fun s₂ _ => ?_
  have hkstack : ∀ (u : State) (t : Nat), Raises Trap.Routine (poolGetKstack u t) := by
    intro u t
    unfold poolGetKstack
    split
    · exact raises_error.mpr (by decide)
    · exact raises_ok _
  refine (hkstack _ _).bind fun r _ => ?_
  exact (runqAppend_routine _ _).bind fun _ _ => raises_ok _

theorem schedDoSwitch_routine (esp : Nat) : Raises Trap.Routine (schedDoSwitch s esp) := by
  unfold schedDoSwitch
  dsimp only
  split
  · exact raises_ok _
  refine (nextRunnable_routine _ _).bind fun next _ => ?_
  split
  · exact raises_ok _
  · unfold switchTo
    dsimp only
    split
    · exact raises_error.mpr (by decide)
    · exact raises_ok _

theorem schedBlockCurrentLocked_routine (kind : WaitKind) (target : Nat) :
    Raises Trap.Routine (schedBlockCurrentLocked s kind target) := by
  unfold schedBlockCurrentLocked
  repeat' first
    | with_reducible exact raises_ok _
    | exact raises_error.mpr (by decide)
    | split

theorem schedWakeThread_routine (t : Nat) : Raises Trap.Routine (schedWakeThread s t) := by
  unfold schedWakeThread
  split
  · exact sleepqRemove_routine _ _
  · refine Raises.bind ?_ fun _ _ => raises_ok _
    unfold leaveWaiters
    split
    · exact raises_ok _
    · exact unlinkWaiter_routine _ _ _
  · exact raises_ok _

theorem schedThreadSleep_routine (n : Nat) : Raises Trap.Routine (schedThreadSleep s n) := by
  unfold schedThreadSleep
  split
  · exact raises_ok _
  · exact (sleepqInsert_routine _ _).bind fun _ _ => raises_ok _

theorem wakeDue_routine (fuel : Nat) (woke : Bool) :
    Raises Trap.Routine (wakeDue fuel s woke) := by
  induction fuel generalizing s woke with
  | zero =>
      unfold wakeDue
      repeat' first
        | with_reducible exact raises_ok _
        | exact raises_error.mpr (by decide)
        | split
  | succ fuel ih =>
      unfold wakeDue
      split
      · exact raises_ok _
      split
      · dsimp only
        split
        · exact ih _ _
        · exact ih _ _
      · exact raises_ok _

theorem incrementTicks_routine : Raises Trap.Routine (incrementTicks s) :=
  (wakeDue_routine _ _ _).bind fun _ _ => raises_ok _

theorem wakeParentWaiter_routine (child : Nat) :
    Raises Trap.Routine (wakeParentWaiter s child) := by
  unfold wakeParentWaiter
  split
  · exact raises_ok _
  dsimp only
  split
  · exact raises_error.mpr (by decide)
  · exact raises_ok _
  · exact schedWakeThread_routine _ _

theorem threadReap_routine (t : Nat) : Raises Trap.Routine (threadReap s t) := by
  refine (threadUnlinkFromRunq_routine s t).bind fun s₁ _ => ?_
  refine (sleepqRemove_routine s₁ t).bind fun s₂ _ => ?_
  refine Raises.bind ?_ fun _ _ => raises_ok _
  unfold unlinkThread
  split
  · exact raises_ok _
  refine (leaveThreadList_routine _ _ _).bind fun s₃ _ => ?_
  split
  · exact raises_ok _
  · exact raises_ok _

theorem reapThreads_routine (fuel : Nat) (head : Option Nat) :
    Raises Trap.Routine (reapThreads fuel head s) := by
  induction fuel generalizing s head with
  | zero => cases head <;> simp [reapThreads]
  | succ fuel ih =>
      cases head with
      | none => simp [reapThreads]
      | some t => exact (threadReap_routine s t).bind fun _ _ => ih _ _

theorem execChecks_routine (image : Mm.InitialData) (tf : TrapFrame) :
    Raises Trap.Routine (execChecks s image tf) := by
  have hpath : ∀ (u : Paging.State) (a : Nat) (l : List Nat),
      Raises Trap.Routine (copyinPath u a l) := by
    intro u a l
    induction l with
    | nil => exact raises_ok _
    | cons i l ih =>
        refine (Paging.copyin_routine _ _ _).bind fun ch _ => ?_
        split
        · split
          · exact raises_ok _
          · exact ih.bind fun _ _ => raises_ok _
        · exact raises_ok _
  unfold execChecks
  dsimp only
  iterate 3
    split
    · exact raises_ok _
  refine Raises.bind ?_ fun path _ => ?_
  · unfold copyinPathBounded
    split
    · exact raises_ok _
    · exact hpath _ _ _
  · repeat' first
      | with_reducible exact raises_ok _
      | split

end Lists

/-! ## Functions that use memory and descriptors -/

section Calls

variable {P : Trap → Prop} (hP : ∀ e, Trap.Routine e → P e)

include hP

theorem procFree_raises {p : Nat}
    (hdestroy : ∀ s₁, unlinkChild s p = .ok s₁ →
      Raises P (Mm.mmDestroy s₁.mm (s₁.procs p).addrSpace)) : Raises P (procFree s p) :=
  ((unlinkChild_routine s p).mono hP).bind fun s₁ h₁ =>
    (hdestroy s₁ h₁).bind fun _ _ => raises_ok _

theorem procReapChild_raises {parent child : Nat}
    (hfree : (s.procs child).parent = some parent → (s.procs child).state = .zombie →
      ∀ s₁, reapThreads s.threadPoolCount (s.procs child).threadList s = .ok s₁ →
        Raises P (procFree s₁ child)) : Raises P (procReapChild s parent child) := by
  unfold procReapChild
  split
  · exact raises_ok _
  rename_i hparent
  split
  · exact raises_ok _
  rename_i hzombie
  refine ((reapThreads_routine s _ _).mono hP).bind fun s₁ h₁ => ?_
  exact (hfree (not_not.mp hparent) (not_not.mp hzombie) s₁ h₁).bind fun _ _ => raises_ok _

theorem procWaitpid_raises {parent : Nat} {filter : BitVec 32}
    (hreap : ∀ z, procFindZombieChild s parent (matchPid filter) = .ok (some z) →
      Raises P (procReapChild s parent z)) : Raises P (procWaitpid s parent filter) := by
  unfold procWaitpid
  dsimp only
  split
  · exact raises_ok _
  refine ((hasMatchingChild_routine s _ _).mono hP).bind fun _ _ => ?_
  refine ((procFindZombieChild_routine s _ _).mono hP).bind fun zombie _ => ?_
  split
  · rename_i z hz
    refine (hreap z hz).bind fun r _ => ?_
    split
    · exact raises_ok _
    · exact raises_ok _
  · split
    · exact raises_ok _
    · exact ((schedBlockCurrentLocked_routine _ _ _).mono hP).bind fun _ _ => raises_ok _

theorem schedThreadExit_raises {code : BitVec 32}
    (hfds : ∀ c p s₁, s.threadCurrent = some c → (s.threads c).proc = some p →
      wakeParentWaiter ((s.exiting c p code).ended p code) p = .ok s₁ →
      Raises P (Io.dropFds Io.poolSlots (s₁.procs p).fdList s₁.io)) :
    Raises P (schedThreadExit s code) := by
  unfold schedThreadExit
  split
  · exact raises_ok _
  rename_i c hc
  split
  · exact raises_error.mpr (hP _ (by decide))
  rename_i p hp
  dsimp only
  split
  · refine ((wakeParentWaiter_routine _ _).mono hP).bind fun s₁ h₁ => ?_
    exact ((hfds c p s₁ hc hp h₁).bind fun _ _ => raises_ok _).bind fun _ _ => raises_ok _
  · exact ((unlinkExited_routine _ _ _).mono hP).bind fun _ _ => raises_ok _

theorem procAlloc_raises {parent : Option Nat} {context : ProcessContext}
    (hspace : ∀ p, allocProcessSlot s = some p → (inherited s parent context).2 ≠ .kernel →
      Raises P (newSpace (s.reserved parent (inherited s parent context).2 p) parent))
    (hstdio : ∀ p ok space s₁ s₂, allocProcessSlot s = some p →
      procAddrSpace (s.reserved parent (inherited s parent context).2 p) parent
        (inherited s parent context).2 = .ok (ok, space, s₁) →
      linkChild (s₁.setAddrSpace p space) parent p = .ok s₂ → parent = none →
      Raises P (Io.stdioBootstrap s₂.io)) : Raises P (procAlloc s parent context) := by
  unfold procAlloc
  split
  · exact raises_ok _
  rename_i p hp
  dsimp only
  refine Raises.bind ?_ fun r hr => ?_
  · unfold procAddrSpace
    split
    · rename_i hcontext
      exact (hspace p hp hcontext).bind fun _ _ => raises_ok _
    · exact raises_ok _
  obtain ⟨ok, space, s₁⟩ := r
  dsimp only
  split
  · exact raises_ok _
  refine ((linkChild_routine _ _ _).mono hP).bind fun s₂ h₂ => ?_
  refine Raises.bind ?_ fun _ _ => raises_ok _
  unfold procStdio
  split
  · rename_i hroot
    exact (hstdio p ok space s₁ s₂ hp hr h₂ hroot.2).bind fun _ _ => raises_ok _
  · exact raises_ok _

theorem schedCloneFork_raises {parent child : Nat} {tf : TrapFrame}
    (hcopy : ∀ entry t s₁, schedAddThread s entry (some child) = .ok (some t, s₁) →
      Raises P (Io.fdeForkCopy s₁.io (s₁.procs parent).fdList)) :
    Raises P (schedCloneFork s parent child tf) := by
  unfold schedCloneFork
  split
  · exact raises_ok _
  refine ((schedAddThread_routine s _ _).mono hP).bind fun r hr => ?_
  obtain ⟨t, s₁⟩ := r
  dsimp only
  split
  · exact raises_ok _
  rename_i t
  refine (hcopy _ t s₁ hr).bind fun r _ => ?_
  split
  · exact ((threadReap_routine _ _).mono hP).bind fun _ _ => raises_ok _
  · exact raises_ok _

omit hP in
theorem fork_raises {tf : TrapFrame}
    (halloc : ∀ parent, schedCurrentProcess s = some parent →
      Raises P (procAlloc s (some parent) (s.procs parent).context))
    (hclone : ∀ parent c s₁, schedCurrentProcess s = some parent →
      procAlloc s (some parent) (s.procs parent).context = .ok (some c, s₁) →
      Raises P (schedCloneFork s₁ parent c tf))
    (hfree : ∀ parent c s₁ tf₁ s₂, schedCurrentProcess s = some parent →
      procAlloc s (some parent) (s.procs parent).context = .ok (some c, s₁) →
      schedCloneFork s₁ parent c tf = .ok (false, tf₁, s₂) → Raises P (procFree s₂ c)) :
    Raises P (fork s tf) := by
  unfold fork
  split
  · exact raises_ok _
  rename_i parent hparent
  refine (halloc parent hparent).bind fun r hr => ?_
  obtain ⟨child, s₁⟩ := r
  dsimp only
  split
  · exact raises_ok _
  rename_i c
  refine (hclone parent c s₁ hparent hr).bind fun r hc => ?_
  obtain ⟨cloned, tf₁, s₂⟩ := r
  dsimp only
  split
  · rename_i hfailed
    subst hfailed
    exact (hfree parent c s₁ tf₁ s₂ hparent hr hc).bind fun _ _ => raises_ok _
  · exact raises_ok _

theorem execve_raises {image : Mm.InitialData} {tf : TrapFrame}
    (hstage : Raises P (stageImage s.mm image))
    (hcommit : ∀ m mm p, execChecks s image tf = .ok none →
      stageImage s.mm image = .ok (some m, mm) → schedCurrentProcess s = some p →
      Raises P (commitImage (s.withMm mm) p m)) : Raises P (execve s image tf) := by
  refine ((execChecks_routine s image tf).mono hP).bind fun refused hrefused => ?_
  split
  · exact raises_ok _
  refine hstage.bind fun r hr => ?_
  obtain ⟨newMm, mm⟩ := r
  dsimp only
  split
  · exact raises_ok _
  rename_i m
  split
  · exact raises_error.mpr (hP _ (by decide))
  rename_i p hp
  split
  · exact raises_ok _
  · exact (hcommit m mm p hrefused hr hp).bind fun _ _ => raises_ok _

end Calls

end Sched

end Unidos
