import Unidos.Sched.Exec
import Unidos.Sched.States
import Unidos.Mm.Runs

/-!
# Runs of the scheduler

The operations that the rest of the kernel performs on threads and processes, and the state that
`sched_init` leaves. An operation is atomic: interrupts are off while it runs. `Step` performs one,
and the results about whole runs restrict it by what their callers promise.
-/

namespace Unidos.Sched

open Lib

/-- The operations on threads and processes. A wait is one round of its loop. -/
inductive Op where
  | console
  | procAlloc (parent : Option Nat) (context : ProcessContext)
  | addThread (entry : BitVec 32) (proc : Option Nat)
  | switch (oldEsp : Nat)
  | yield
  | tick
  | wake (t : Nat)
  | sleep (ticks : Nat)
  | block (kind : WaitKind) (target : Nat)
  | exit (code : BitVec 32)
  | reapThread (t : Nat)
  | reapChild (parent child : Nat)
  | waitpid (parent : Nat) (filter : BitVec 32)
  | fork (tf : TrapFrame)
  | execve (image : Mm.InitialData) (tf : TrapFrame)

/-- Perform an operation. -/
def Op.exec (s : State) : Op → Except Trap State
  | .console => do
      let io ← Io.consoleInit s.io
      .ok { s with io := io }
  | .procAlloc parent context => do
      let (_, s) ← Sched.procAlloc s parent context
      .ok s
  | .addThread entry proc => do
      let (_, s) ← schedAddThread s entry proc
      .ok s
  | .switch oldEsp => do
      let (_, s) ← schedDoSwitch s oldEsp
      .ok s
  | .yield => .ok (schedThreadYield s)
  | .tick => incrementTicks s
  | .wake t => schedWakeThread s t
  | .sleep ticks => schedThreadSleep s ticks
  | .block kind target => schedBlockCurrent s kind target
  | .exit code => schedThreadExit s code
  | .reapThread t => threadReap s t
  | .reapChild parent child => do
      let (_, s) ← procReapChild s parent child
      .ok s
  | .waitpid parent filter => do
      let (_, s) ← procWaitpid s parent filter
      .ok s
  | .fork tf => do
      let (_, _, s) ← Sched.fork s tf
      .ok s
  | .execve image tf => do
      let (_, _, s) ← Sched.execve s image tf
      .ok s

/-- One step of the scheduler. -/
def Step (s : State) (op : Op) (s' : State) : Prop := op.exec s = .ok s'

/-- The parts of the state that an operation touches. -/
def Op.parts : Op → List Part
  | .console => [.mm, .io]
  | .procAlloc _ _ => procAllocParts
  | .addThread _ _ => addThreadParts
  | .switch _ => switchParts
  | .yield => [.clock]
  | .tick => [.sleep, .states, .clock]
  | .wake _ => [.states, .sleep, .wait]
  | .sleep _ => [.wakeTick, .states, .sleep, .clock]
  | .block _ _ => [.states, .wait, .clock]
  | .exit _ => exitParts
  | .reapThread _ => threadReapParts
  | .reapChild _ _ => reapParts
  | .waitpid _ _ => waitpidParts
  | .fork _ => procAllocParts ++ (cloneParts ++ procFreeParts)
  | .execve _ _ => [.space, .mm]

theorem step_modifies {s s' : State} {op : Op} (h : Step s op s') : Modifies op.parts s s' := by
  cases op with
  | console =>
      obtain ⟨io, -, h⟩ := bind_eq_ok.mp h
      exact Except.ok.inj h ▸ modifies_io s io
  | procAlloc parent context =>
      obtain ⟨⟨r, s₁⟩, halloc, h⟩ := bind_eq_ok.mp h
      exact Except.ok.inj h ▸ procAlloc_modifies halloc
  | addThread entry proc =>
      obtain ⟨⟨r, s₁⟩, hadd, h⟩ := bind_eq_ok.mp h
      exact Except.ok.inj h ▸ schedAddThread_modifies hadd
  | switch esp =>
      obtain ⟨⟨r, s₁⟩, hswitch, h⟩ := bind_eq_ok.mp h
      exact Except.ok.inj h ▸ schedDoSwitch_modifies hswitch
  | yield => exact Except.ok.inj h ▸ schedThreadYield_modifies
  | tick => exact incrementTicks_modifies h
  | wake t => exact schedWakeThread_modifies h
  | sleep n => exact schedThreadSleep_modifies h
  | block kind target => exact schedBlockCurrent_modifies h
  | exit code => exact schedThreadExit_modifies h
  | reapThread t => exact threadReap_modifies h
  | reapChild parent child =>
      obtain ⟨⟨r, s₁⟩, hreap, h⟩ := bind_eq_ok.mp h
      exact Except.ok.inj h ▸ procReapChild_modifies hreap
  | waitpid parent filter =>
      obtain ⟨⟨r, s₁⟩, hwait, h⟩ := bind_eq_ok.mp h
      exact Except.ok.inj h ▸ procWaitpid_modifies hwait
  | fork tf =>
      obtain ⟨⟨r, tf', s₁⟩, hfork, h⟩ := bind_eq_ok.mp h
      exact Except.ok.inj h ▸ fork_modifies hfork
  | execve image tf =>
      obtain ⟨⟨r, tf', s₁⟩, hexec, h⟩ := bind_eq_ok.mp h
      exact Except.ok.inj h ▸ execve_modifies hexec

/-! ## What operations are made of -/

/-- The operation reaps process `z`. -/
def Reaps (s : State) (op : Op) (z : Nat) : Prop :=
  match op with
  | .reapChild parent child =>
      z = child ∧ (s.procs z).parent = some parent ∧ (s.procs z).state = .zombie
  | .waitpid parent filter =>
      ¬ filter.toInt < -1 ∧ procFindZombieChild s parent (matchPid filter) = .ok (some z) ∧
        (s.procs z).parent = some parent ∧ (s.procs z).state = .zombie
  | _ => False

theorem step_reapChild {s s' : State} {parent child : Nat}
    (h : Step s (.reapChild parent child) s') :
    s' = s ∨ (Reaps s (.reapChild parent child) child ∧
      procReapChild s parent child = .ok (.success, s')) := by
  obtain ⟨⟨r, s₁⟩, hreap, h⟩ := bind_eq_ok.mp h
  have heq : s₁ = s' := Except.ok.inj h
  subst heq
  obtain ⟨-, rfl, -⟩ | ⟨rfl, hparent, hzombie, -⟩ := procReapChild_cases hreap
  · exact .inl rfl
  · exact .inr ⟨⟨rfl, hparent, hzombie⟩, hreap⟩

/-- A round of a wait reaps a child, blocks the current thread, or does nothing. -/
theorem step_waitpid {s s' : State} {parent : Nat} {filter : BitVec 32}
    (h : Step s (.waitpid parent filter) s') :
    s' = s ∨
    (∃ z, Reaps s (.waitpid parent filter) z ∧ procReapChild s parent z = .ok (.success, s')) ∨
    ∃ s₁, hasMatchingChild s parent (matchPid filter) = .ok true ∧
      schedBlockCurrentLocked s (waitKindFor (matchPid filter)) (matchPid filter) = .ok s₁ ∧
      s' = schedThreadYield s₁ := by
  obtain ⟨⟨r, s₁⟩, hwait, h⟩ := bind_eq_ok.mp h
  have heq : s₁ = s' := Except.ok.inj h
  subst heq
  obtain ⟨-, -, rfl⟩ | ⟨hfilter, _, _, hmatch, hfind, ⟨z, rr, rfl, hreap, -⟩ | ⟨-, -, -, rfl⟩ |
    ⟨-, rfl, -, s₂, hblock, rfl⟩⟩ := procWaitpid_cases hwait
  · exact .inl rfl
  · obtain ⟨-, rfl, -⟩ | ⟨rfl, hparent, hzombie, -⟩ := procReapChild_cases hreap
    · exact .inl rfl
    · exact .inr (.inl ⟨z, ⟨hfilter, hfind, hparent, hzombie⟩, hreap⟩)
  · exact .inl rfl
  · exact .inr (.inr ⟨s₂, hmatch, hblock, rfl⟩)

/-- Undo the start of a thread, if there is one. -/
def dropThread (s : State) : Option Nat → Except Trap State
  | none => .ok s
  | some t => threadReap s t

/-- A fork allocates a process and a thread in it. If it fails, it takes both back. -/
theorem step_fork {s s' : State} {tf : TrapFrame} (h : Step s (.fork tf) s') :
    (schedCurrentProcess s = none ∧ s' = s) ∨
    ∃ parent r s₁, schedCurrentProcess s = some parent ∧
      procAlloc s (some parent) (s.procs parent).context = .ok (r, s₁) ∧
      ((r = none ∧ s' = s₁) ∨ ∃ c entry t s₂ s₃, r = some c ∧
        schedAddThread s₁ entry (some c) = .ok (t, s₂) ∧
        Modifies [.files, .mm, .io, .stack] s₂ s₃ ∧
        ((t ≠ none ∧ s' = s₃) ∨ ∃ s₄, dropThread s₃ t = .ok s₄ ∧ procFree s₄ c = .ok s')) := by
  obtain ⟨⟨n, tf', s₁⟩, hfork, h⟩ := bind_eq_ok.mp h
  have heq : s₁ = s' := Except.ok.inj h
  subst heq
  obtain ⟨hnone, -, -, rfl⟩ | ⟨parent, r, s₁, hcur, halloc, hrest⟩ := fork_cases hfork
  · exact .inl ⟨hnone, rfl⟩
  refine .inr ⟨parent, r, s₁, hcur, halloc, ?_⟩
  obtain ⟨rfl, -, -, rfl⟩ | ⟨c, tf₁, s₂, rfl, hrest⟩ := hrest
  · exact .inl ⟨rfl, rfl⟩
  -- there is a current thread, so the thread is cloned
  have hsome : s₁.threadCurrent ≠ none := by
    rw [(procAlloc_modifies halloc).threadCurrent (by decide)]
    intro hnone
    simp [schedCurrentProcess, hnone] at hcur
  have hfds : ∀ (u : State) (io : Io.State) (fdList : Option Nat),
      Modifies [.files, .mm, .io, .stack] u ({ u with io := io }.inheritFds parent c fdList) :=
    fun u io fdList =>
    ((modifies_io u io).trans (inheritFds_modifies parent c fdList)).mono (by decide)
  obtain ⟨hclone, hfree, -, -⟩ | ⟨hclone, -⟩ := hrest
  · obtain ⟨hnone, -⟩ | ⟨cur, t, s₃, -, hadd, hrest⟩ := schedCloneFork_cases hclone
    · exact absurd hnone hsome
    obtain ⟨rfl, -, -, rfl⟩ | ⟨u, fdList, io, rfl, -, ⟨-, -, hreap, -⟩ | ⟨-, hok, -⟩⟩ := hrest
    · exact .inr ⟨c, _, none, s₂, s₂, rfl, hadd, .refl _ _, .inr ⟨s₂, rfl, hfree⟩⟩
    · exact .inr ⟨c, _, some u, s₃, _, rfl, hadd, hfds s₃ io fdList, .inr ⟨s₂, hreap, hfree⟩⟩
    · cases hok
  · obtain ⟨hnone, -⟩ | ⟨cur, t, s₃, -, hadd, hrest⟩ := schedCloneFork_cases hclone
    · exact absurd hnone hsome
    obtain ⟨-, hok, -⟩ | ⟨u, fdList, io, rfl, -, ⟨-, -, -, hok, -⟩ | ⟨-, -, rfl, -⟩⟩ := hrest
    · cases hok
    · cases hok
    · exact .inr ⟨c, _, some u, s₃, _, rfl, hadd,
        ((hfds s₃ io fdList).trans (modifies_withFrame _ u _)).mono (by decide),
        .inl ⟨by simp, rfl⟩⟩

/-- The current thread is running: it has neither blocked, gone to sleep, nor exited since it was
switched to. -/
def State.Active (s : State) : Prop :=
  ∃ c, s.threadCurrent = some c ∧ (s.threads c).state = .running

instance (s : State) : Decidable s.Active :=
  match h : s.threadCurrent with
  | none => isFalse fun ⟨_, hc, _⟩ => by simp [h] at hc
  | some c =>
      decidable_of_iff ((s.threads c).state = .running)
        ⟨fun hrun => ⟨c, h, hrun⟩, fun ⟨_, hc, hrun⟩ => by
          rw [h, Option.some.injEq] at hc
          exact hc ▸ hrun⟩

/-- The operations that the current thread performs on itself. -/
def Op.acts : Op → Bool
  | .sleep _ | .block _ _ | .exit _ | .waitpid _ _ | .fork _ | .execve _ _ => true
  | _ => false

/-- Only a running thread acts: one that has blocked or gone to sleep does nothing before it is
woken and switched to. -/
def OnlyRunningActs (s : State) (op : Op) : Prop := op.acts = true → s.Active

instance (s : State) (op : Op) : Decidable (OnlyRunningActs s op) :=
  inferInstanceAs (Decidable (_ → _))

/-! ## The start -/

/-- A thread record in zeroed memory. -/
def Thread.zero : Thread where
  slotInuse := false
  slotId := 0
  state := .unused
  proc := none
  frame := ⟨0, 0, 0, 0, 0, 0, 0, 0, 0, 0, 0, 0, 0, 0, 0, 0, 0, 0, 0, 0⟩
  savedEsp := 0
  kstackBase := 0
  kstackTop := 0
  wakeTick := 0
  exitCode := 0
  entry := 0
  waitKind := .none
  waitTargetPid := 0
  waitOwner := none
  waitNext := none
  rqNext := none
  sleepNext := none
  threadlistNext := none

/-- A process record in zeroed memory. -/
def Process.zero : Process where
  slotInuse := false
  slotId := 0
  pid := 0
  ppid := 0
  state := .unused
  liveThreadCount := 0
  exitCode := 0
  context := .user
  parent := none
  firstChild := none
  nextSibling := none
  mainThread := none
  threadList := none
  waiters := none
  addrSpace := none
  fdList := none
  fdCount := 0

/-- The pool of threads is zeroed. -/
structure ZeroedThreads (s : State) : Prop where
  threads : ∀ t, s.threads t = .zero
  nextTid : s.nextTid = 0

/-- The pools of threads and processes are zeroed. -/
structure Zeroed (s : State) : Prop extends ZeroedThreads s where
  procs : ∀ p, s.procs p = .zero

/-- A small machine before `sched_init`. -/
def bootState : State where
  io := {
    mm := Mm.smallState
    fds := fun _ => ⟨0, none, none, 0⟩
    fdUsed := fun _ => false
    files := fun _ => ⟨0, none, 0⟩
    fileUsed := fun _ => false
    targets := fun _ => ⟨0, 0⟩
    targetUsed := fun _ => false
    consoleOf := none }
  threadBootstrap := 0xC0001000
  threads := fun _ => .zero
  threadPoolCount := 0
  procs := fun _ => .zero
  processPoolCount := 0
  kstackPoolBase := 0xF0000000
  kstackPoolCount := 0
  threadHead := none
  threadCurrent := none
  threadSleepHead := none
  schedPending := false
  rrTicksLeft := rrSchedulerCadence
  nextTid := 0
  ticks := 0

theorem zeroed_bootState : Zeroed bootState := ⟨⟨fun _ => rfl, rfl⟩, fun _ => rfl⟩

/-- The state of `sched_init` once the pools are set up, before there is an idle thread. -/
structure Blank (s₀ s : State) : Prop where
  threads : s.threads = s₀.threads
  procs : s.procs = s₀.procs
  io : s.io = s₀.io
  nextTid : s.nextTid = s₀.nextTid
  head : s.threadHead = none
  current : s.threadCurrent = none
  sleepHead : s.threadSleepHead = none
  threads_pos : 0 < s.threadPoolCount
  threads_le : s.threadPoolCount ≤ s.kstackPoolCount
  kstacks_le : s.kstackPoolCount ≤ 1024
  procs_pos : 0 < s.processPoolCount
  procs_le : s.processPoolCount < 2 ^ 31

theorem poolScalar_le (fuel mb scalar : Nat) :
    scalar ≤ poolScalar fuel mb scalar ∧ poolScalar fuel mb scalar ≤ scalar + fuel := by
  induction fuel generalizing mb scalar with
  | zero => exact ⟨Nat.le_refl _, Nat.le_refl _⟩
  | succ fuel ih =>
      unfold poolScalar
      split
      · have := ih (mb / 2) (scalar + 1)
        omega
      · omega

/-- There are slots, and a kernel stack for every thread. -/
theorem poolCounts_bounds (kib : Nat) :
    0 < (poolCounts kib).threads ∧ (poolCounts kib).threads ≤ (poolCounts kib).kstacks ∧
      (poolCounts kib).kstacks ≤ 1024 ∧ 0 < (poolCounts kib).processes ∧
      (poolCounts kib).processes < 2 ^ 31 := by
  have hscalar := poolScalar_le 3 (kib / 1024) 1
  unfold poolCounts
  simp only [threadSize, processSize]
  generalize poolScalar 3 (kib / 1024) 1 = scalar at hscalar
  have hcases : scalar = 1 ∨ scalar = 2 ∨ scalar = 3 ∨ scalar = 4 := by omega
  obtain rfl | rfl | rfl | rfl := hcases <;> decide

/-- `sched_init` makes the idle process and its thread. -/
theorem schedInit_cases {s s' : State} {kib : Nat} {idle : BitVec 32}
    (h : schedInit s kib idle = .ok s') :
    ∃ s₁ p s₂ r, Blank s s₁ ∧ procAlloc s₁ none .kernel = .ok (some p, s₂) ∧
      schedAddThread s₂ idle (some p) = .ok (r, s') := by
  obtain ⟨hthreads, hle, hstacks, hprocs, hprocs'⟩ := poolCounts_bounds kib
  obtain ⟨⟨proc, s₂⟩, halloc, h⟩ := bind_eq_ok.mp h
  simp only at h
  split at h
  · cases h
  rename_i p
  obtain ⟨⟨r, s₃⟩, hadd, h⟩ := bind_eq_ok.mp h
  rw [← Except.ok.inj h]
  refine ⟨_, p, s₂, r, ?_, halloc, hadd⟩
  exact ⟨rfl, rfl, rfl, rfl, rfl, rfl, rfl, hthreads, hle, hstacks, hprocs, hprocs'⟩

/-- The idle thread is the first thread. -/
def idleThread : Nat := 0

/-- In a blank state the first thread gets slot 0. -/
theorem allocThreadSlot_first {s s' : State} {t : Option Nat} (hpos : 0 < s.threadPoolCount)
    (htid : s.nextTid = 0) (hfree : (s.threads 0).slotInuse = false)
    (h : allocThreadSlot s = (t, s')) : t = some idleThread := by
  obtain ⟨n, hn⟩ : ∃ n, s.threadPoolCount = n + 1 := ⟨s.threadPoolCount - 1, by omega⟩
  unfold allocThreadSlot at h
  rw [if_neg (by omega), htid, Nat.zero_mod] at h
  have hfind : circFind s.threadPoolCount (fun i => !(s.threads i).slotInuse) s.threadPoolCount 0 =
      some 0 := by
    rw [hn]
    unfold circFind
    simp [hfree]
  rw [hfind] at h
  exact (Prod.mk.inj h).1.symm

/-! ## Invariants of threads -/

/-- An invariant that does not look at processes: it survives changes outside the named parts, new
threads, and reaped ones. -/
structure Stable (I : State → Prop) (parts : List Part) : Prop where
  frame : ∀ {s s' touched}, Modifies touched s s' → (∀ k ∈ touched, k ∉ parts) → I s → I s'
  add : ∀ {s s' entry proc r}, I s → schedAddThread s entry proc = .ok (r, s') → I s'
  reap : ∀ {s s' t}, I s → threadReap s t = .ok s' → I s'

namespace Stable

variable {I : State → Prop} {s s' : State}

theorem reapThreads (hI : Stable I [.ring, .sleep, .states, .inuse, .owner, .wakeTick])
    {fuel : Nat} {head : Option Nat} (hs : I s) (h : reapThreads fuel head s = .ok s') : I s' := by
  induction fuel generalizing head s with
  | zero =>
      cases head with
      | none => exact Except.ok.inj h ▸ hs
      | some t => cases h
  | succ fuel ih =>
      cases head with
      | none => exact Except.ok.inj h ▸ hs
      | some t =>
          obtain ⟨s₁, hreap, h⟩ := bind_eq_ok.mp h
          exact ih (hI.reap hs hreap) h

theorem procReapChild (hI : Stable I [.ring, .sleep, .states, .inuse, .owner, .wakeTick])
    {parent child : Nat} {r : ReapResult} (hs : I s)
    (h : procReapChild s parent child = .ok (r, s')) : I s' := by
  obtain ⟨-, rfl, -⟩ | ⟨-, -, -, s₁, hthreads, hfree⟩ := procReapChild_cases h
  · exact hs
  · exact hI.frame (procFree_modifies hfree) (by decide) (hI.reapThreads hs hthreads)

theorem schedCloneFork (hI : Stable I [.ring, .sleep, .states, .inuse, .owner, .wakeTick])
    {parent child : Nat} {tf tf' : TrapFrame} {ok : Bool} (hs : I s)
    (h : schedCloneFork s parent child tf = .ok (ok, tf', s')) : I s' := by
  obtain ⟨-, -, -, rfl⟩ | ⟨c, thread, s₁, -, hadd, ⟨-, -, -, rfl⟩ | ⟨t, fdList, io, -, -, hrest⟩⟩ :=
    schedCloneFork_cases h
  · exact hs
  · exact hI.add hs hadd
  · have hfds := hI.frame ((modifies_io s₁ io).trans (inheritFds_modifies parent child fdList))
      (by decide) (hI.add hs hadd)
    obtain ⟨-, -, hreap, -, -⟩ | ⟨-, -, rfl, -⟩ := hrest
    · exact hI.reap hfds hreap
    · exact hI.frame (modifies_withFrame _ t _) (by decide) hfds

theorem fork (hI : Stable I [.ring, .sleep, .states, .inuse, .owner, .wakeTick])
    {tf tf' : TrapFrame} {r : Int} (hs : I s) (h : fork s tf = .ok (r, tf', s')) : I s' := by
  obtain ⟨-, -, -, rfl⟩ | ⟨parent, child, s₁, -, halloc, ⟨-, -, -, rfl⟩ | ⟨c, tf₁, s₂, -,
    ⟨hclone, hfree, -, -⟩ | ⟨hclone, -⟩⟩⟩ := fork_cases h
  · exact hs
  · exact hI.frame (procAlloc_modifies halloc) (by decide) hs
  · exact hI.frame (procFree_modifies hfree) (by decide)
      (hI.schedCloneFork (hI.frame (procAlloc_modifies halloc) (by decide) hs) hclone)
  · exact hI.schedCloneFork (hI.frame (procAlloc_modifies halloc) (by decide) hs) hclone

end Stable

end Unidos.Sched
