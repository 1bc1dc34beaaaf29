import Unidos.Io.Basic

/-!
# Threads and processes

After `kernel/sched.c`, with the parts of `kernel/pool.c` that it uses. Threads and processes are
records in two fixed pools; a pointer to a record is the number of its slot, and the null pointer
is `none`. The lists that run through the records are walked as the source walks them: a walk over
more nodes than the pool has slots goes round in circles, and is a `Trap.diverge`.

A section of code with interrupts disabled is one function here. A thread that gives up the
processor only sets `sched_pending`; the switch itself is `schedDoSwitch`. The name of a process,
the stack pointer in the task state segment, and debug output are left out.
-/

namespace Unidos.Sched

open Lib

/-- `thread_state_t`. -/
inductive ThreadState where
  | unused
  | runnable
  | running
  | sleeping
  | blocked
  | zombie
  deriving DecidableEq, Repr

/-- `process_state_t`. -/
inductive ProcessState where
  | unused
  | alive
  | zombie
  | reaped
  deriving DecidableEq, Repr

/-- `process_context_t`. -/
inductive ProcessContext where
  | user
  | driver
  | kernel
  deriving DecidableEq, Repr

/-- `wait_kind_t`. -/
inductive WaitKind where
  | none
  | any
  | child
  | sleep
  | io
  deriving DecidableEq, Repr

/-- `trap_frame_t`, with the two words of the user tail behind it. -/
structure TrapFrame where
  edi : BitVec 32
  esi : BitVec 32
  ebp : BitVec 32
  espDummy : BitVec 32
  ebx : BitVec 32
  edx : BitVec 32
  ecx : BitVec 32
  eax : BitVec 32
  ds : BitVec 32
  es : BitVec 32
  fs : BitVec 32
  gs : BitVec 32
  cr2 : BitVec 32
  vector : BitVec 32
  error : BitVec 32
  eip : BitVec 32
  cs : BitVec 32
  eflags : BitVec 32
  userEsp : BitVec 32
  userSs : BitVec 32

/-- `thread_t`. `frame` is what lies at `saved_esp` on the kernel stack of a thread that has not
run yet. -/
structure Thread where
  slotInuse : Bool
  slotId : Nat
  state : ThreadState
  proc : Option Nat
  frame : TrapFrame
  savedEsp : Nat
  kstackBase : Nat
  kstackTop : Nat
  wakeTick : Nat
  exitCode : BitVec 32
  entry : BitVec 32
  waitKind : WaitKind
  waitTargetPid : Nat
  waitOwner : Option Nat
  waitNext : Option Nat
  rqNext : Option Nat
  sleepNext : Option Nat
  threadlistNext : Option Nat

/-- `process_t`. -/
structure Process where
  slotInuse : Bool
  slotId : Nat
  pid : Nat
  ppid : Nat
  state : ProcessState
  liveThreadCount : Nat
  exitCode : BitVec 32
  context : ProcessContext
  parent : Option Nat
  firstChild : Option Nat
  nextSibling : Option Nat
  mainThread : Option Nat
  threadList : Option Nat
  waiters : Option Nat
  addrSpace : Option Nat
  fdList : Option Nat
  fdCount : Nat

/-- The static variables of `sched.c` and `pool.c` over the descriptor pools, and the address that
the linker gives `thread_bootstrap`. -/
structure State where
  io : Io.State
  threadBootstrap : BitVec 32
  threads : Nat → Thread
  threadPoolCount : Nat
  procs : Nat → Process
  processPoolCount : Nat
  kstackPoolBase : Nat
  kstackPoolCount : Nat
  threadHead : Option Nat
  threadCurrent : Option Nat
  threadSleepHead : Option Nat
  schedPending : Bool
  rrTicksLeft : BitVec 32
  nextTid : Nat
  ticks : Nat

/-- The address spaces. -/
def State.mm (s : State) : Mm.State := s.io.mm

/-- Replace the address spaces. -/
def State.withMm (s : State) (mm : Mm.State) : State := { s with io := { s.io with mm := mm } }

/-- Change the record of thread `t`. -/
def State.modThread (s : State) (t : Nat) (f : Thread → Thread) : State :=
  { s with threads := Function.update s.threads t (f (s.threads t)) }

/-- Change the record of process `p`. -/
def State.modProc (s : State) (p : Nat) (f : Process → Process) : State :=
  { s with procs := Function.update s.procs p (f (s.procs p)) }

/-- Set the state of a thread. -/
def State.setState (s : State) (t : Nat) (state : ThreadState) : State :=
  s.modThread t fun th => { th with state := state }

/-- Set a link of the run ring. -/
def State.setRqNext (s : State) (t : Nat) (next : Option Nat) : State :=
  s.modThread t fun th => { th with rqNext := next }

/-- Set a link of the sleep queue. -/
def State.setSleepNext (s : State) (t : Nat) (next : Option Nat) : State :=
  s.modThread t fun th => { th with sleepNext := next }

/-- Set a link of a list of waiting threads. -/
def State.setWaitNext (s : State) (t : Nat) (next : Option Nat) : State :=
  s.modThread t fun th => { th with waitNext := next }

/-- Set a link of a list of threads. -/
def State.setThreadlistNext (s : State) (t : Nat) (next : Option Nat) : State :=
  s.modThread t fun th => { th with threadlistNext := next }

/-- Set the first of the threads that wait in process `p`. -/
def State.setWaiters (s : State) (p : Nat) (head : Option Nat) : State :=
  s.modProc p fun pr => { pr with waiters := head }

/-- Set the first thread of process `p`. -/
def State.setThreadList (s : State) (p : Nat) (head : Option Nat) : State :=
  s.modProc p fun pr => { pr with threadList := head }

/-- Set the first thread of process `p`, which is also its main thread. -/
def State.setMainThread (s : State) (p : Nat) (head : Option Nat) : State :=
  s.modProc p fun pr => { pr with mainThread := head, threadList := head }

/-- Set the first child of process `p`. -/
def State.setFirstChild (s : State) (p : Nat) (head : Option Nat) : State :=
  s.modProc p fun pr => { pr with firstChild := head }

/-- Set a link of a list of children. -/
def State.setNextSibling (s : State) (p : Nat) (next : Option Nat) : State :=
  s.modProc p fun pr => { pr with nextSibling := next }

/-- Set the address space of process `p`. -/
def State.setAddrSpace (s : State) (p : Nat) (space : Option Nat) : State :=
  s.modProc p fun pr => { pr with addrSpace := space }

/-- Set the first thread of the run ring. -/
def State.withThreadHead (s : State) (head : Option Nat) : State := { s with threadHead := head }

/-- Set the first thread of the sleep queue. -/
def State.withSleepHead (s : State) (head : Option Nat) : State :=
  { s with threadSleepHead := head }

/-- The links of the run ring. -/
def State.rqNext (s : State) (t : Nat) : Option Nat := (s.threads t).rqNext

/-- The links of the sleep queue. -/
def State.sleepNext (s : State) (t : Nat) : Option Nat := (s.threads t).sleepNext

/-- The links of the lists of waiting threads. -/
def State.waitNext (s : State) (t : Nat) : Option Nat := (s.threads t).waitNext

/-- The links of the lists of threads of a process. -/
def State.threadlistNext (s : State) (t : Nat) : Option Nat := (s.threads t).threadlistNext

/-- The links of the lists of children. -/
def State.nextSibling (s : State) (p : Nat) : Option Nat := (s.procs p).nextSibling

section Projections

variable (s : State) (t p : Nat) (next : Option Nat)

/-- A field of the thread records after a change to one of them. -/
theorem proj_modThread {α : Type*} (g : Thread → α) (f : Thread → Thread) :
    (fun u => g ((s.modThread t f).threads u)) =
      Function.update (fun u => g (s.threads u)) t (g (f (s.threads t))) := by
  funext u
  show g (Function.update s.threads t (f (s.threads t)) u) = _
  by_cases hu : u = t
  · rw [hu, Function.update_self, Function.update_self]
  · rw [Function.update_of_ne hu, Function.update_of_ne hu]

/-- A field of the process records after a change to one of them. -/
theorem proj_modProc {α : Type*} (g : Process → α) (f : Process → Process) :
    (fun q => g ((s.modProc p f).procs q)) =
      Function.update (fun q => g (s.procs q)) p (g (f (s.procs p))) := by
  funext q
  show g (Function.update s.procs p (f (s.procs p)) q) = _
  by_cases hq : q = p
  · rw [hq, Function.update_self, Function.update_self]
  · rw [Function.update_of_ne hq, Function.update_of_ne hq]

@[simp] theorem State.threads_modThread_self (f : Thread → Thread) :
    (s.modThread t f).threads t = f (s.threads t) := Function.update_self _ _ _

@[simp] theorem State.procs_modProc_self (f : Process → Process) :
    (s.modProc p f).procs p = f (s.procs p) := Function.update_self _ _ _

theorem State.threads_modThread_of_ne {s : State} {t u : Nat} (f : Thread → Thread) (hu : u ≠ t) :
    (s.modThread t f).threads u = s.threads u := Function.update_of_ne hu _ _

theorem State.procs_modProc_of_ne {s : State} {p q : Nat} (f : Process → Process) (hq : q ≠ p) :
    (s.modProc p f).procs q = s.procs q := Function.update_of_ne hq _ _

@[simp] theorem State.procs_modThread (f : Thread → Thread) :
    (s.modThread t f).procs = s.procs := rfl

@[simp] theorem State.threads_modProc (f : Process → Process) :
    (s.modProc p f).threads = s.threads := rfl

@[simp] theorem State.rqNext_setRqNext :
    (s.setRqNext t next).rqNext = Function.update s.rqNext t next :=
  proj_modThread s t Thread.rqNext _

@[simp] theorem State.sleepNext_setSleepNext :
    (s.setSleepNext t next).sleepNext = Function.update s.sleepNext t next :=
  proj_modThread s t Thread.sleepNext _

@[simp] theorem State.waitNext_setWaitNext :
    (s.setWaitNext t next).waitNext = Function.update s.waitNext t next :=
  proj_modThread s t Thread.waitNext _

@[simp] theorem State.threadlistNext_setThreadlistNext :
    (s.setThreadlistNext t next).threadlistNext = Function.update s.threadlistNext t next :=
  proj_modThread s t Thread.threadlistNext _

@[simp] theorem State.nextSibling_setNextSibling :
    (s.setNextSibling p next).nextSibling = Function.update s.nextSibling p next :=
  proj_modProc s p Process.nextSibling _

@[simp] theorem State.threadHead_setRqNext :
    (s.setRqNext t next).threadHead = s.threadHead := rfl

@[simp] theorem State.rqNext_withThreadHead : (s.withThreadHead next).rqNext = s.rqNext := rfl

@[simp] theorem State.threadHead_withThreadHead : (s.withThreadHead next).threadHead = next := rfl

@[simp] theorem State.threadSleepHead_setSleepNext :
    (s.setSleepNext t next).threadSleepHead = s.threadSleepHead := rfl

@[simp] theorem State.sleepNext_withSleepHead :
    (s.withSleepHead next).sleepNext = s.sleepNext := rfl

@[simp] theorem State.threadSleepHead_withSleepHead :
    (s.withSleepHead next).threadSleepHead = next := rfl

end Projections

/-! ## Slots -/

/-- `alloc_thread_slot`. -/
def allocThreadSlot (s : State) : Option Nat × State :=
  if s.threadPoolCount = 0 then (none, s)
  else
    match circFind s.threadPoolCount (fun i => !(s.threads i).slotInuse) s.threadPoolCount
        (s.nextTid % s.threadPoolCount) with
    | none => (none, s)
    | some i => (some i, { s with nextTid := (i + 1) % s.threadPoolCount })

/-- `alloc_process_slot`. -/
def allocProcessSlot (s : State) : Option Nat :=
  circFind s.processPoolCount (fun i => !(s.procs i).slotInuse) s.processPoolCount 0

/-- `pool_get_kstack`: the lowest and the first address behind a kernel stack. -/
def poolGetKstack (s : State) (slot : Nat) : Except Trap (Nat × Nat) :=
  if slot ≥ s.kstackPoolCount then .error (.panic "Invalid kstack slot number")
  else
    let virt := s.kstackPoolBase + slot * 3 * 4096
    .ok ((virt + 4096) % 2 ^ 32, (virt + 3 * 4096) % 2 ^ 32)

/-- What `build_initial_frame` pushes; `start` is the address of `thread_bootstrap`. -/
def initialFrame (start : BitVec 32) : TrapFrame where
  edi := 0
  esi := 0
  ebp := 0
  espDummy := 0
  ebx := 0
  edx := 0
  ecx := 0
  eax := 0
  ds := 0x10
  es := 0x10
  fs := 0x10
  gs := 0x10
  cr2 := 0
  vector := 0
  error := 0
  eip := start
  cs := 0x08
  eflags := 0x202
  userEsp := 0
  userSs := 0

/-! ## The sleep queue -/

/-- Where the loop of `sleepq_insert` ends: at the last thread, or in front of one that wakes up
later than the new one. -/
def State.sleepStop (s : State) (t a : Nat) : Bool :=
  match s.sleepNext a with
  | none => true
  | some b => decide (¬ (s.threads b).wakeTick ≤ (s.threads t).wakeTick)

/-- `sleepq_insert`. -/
def sleepqInsert (s : State) (t : Nat) : Except Trap State :=
  let s := s.setSleepNext t none
  let front := (s.setSleepNext t s.threadSleepHead).withSleepHead (some t)
  match s.threadSleepHead with
  | none => .ok front
  | some h =>
      if (s.threads t).wakeTick < (s.threads h).wakeTick then .ok front
      else
        match walk s.sleepNext (s.sleepStop t) s.threadPoolCount (some h) with
        | some (some a) =>
            let s := s.setSleepNext t (s.sleepNext a)
            .ok (s.setSleepNext a (some t))
        | _ => .error .diverge

/-- `sleepq_remove`. -/
def sleepqRemove (s : State) (t : Nat) : Except Trap State :=
  match place s.sleepNext s.threadPoolCount s.threadSleepHead t with
  | none => .error .diverge
  | some .absent => .ok s
  | some .front =>
      .ok ((s.setSleepNext t none).withSleepHead (s.sleepNext t))
  | some (.behind a) =>
      let s := s.setSleepNext a (s.sleepNext t)
      .ok (s.setSleepNext t none)

/-! ## The run ring -/

/-- `next_runnable`. -/
def nextRunnable (s : State) (start : Option Nat) : Except Trap (Option Nat) :=
  match s.threadHead with
  | none => .ok none
  | some h =>
      let start := start.getD h
      if (s.threads start).state = .runnable then .ok (some start)
      else
        let stop (t : Nat) := t == start || (s.threads t).state == .runnable
        match walk s.rqNext stop s.threadPoolCount (s.rqNext start) with
        | none => .error .diverge
        | some none => .ok none
        | some (some t) => if (s.threads t).state = .runnable then .ok (some t) else .ok none

/-- The end of `sched_add_thread`: link thread `t` between the last thread of the ring and the
first. -/
def runqAppend (s : State) (t : Nat) : Except Trap State :=
  match s.threadHead with
  | none => .ok ((s.setRqNext t (some t)).withThreadHead (some t))
  | some h =>
      match walk s.rqNext (fun a => s.rqNext a == some h) s.threadPoolCount (some h) with
      | none => .error .diverge
      | some none => .error .fault
      | some (some a) =>
          let s := s.setRqNext a (some t)
          .ok (s.setRqNext t (some h))

/-- `thread_unlink_from_runq`. -/
def threadUnlinkFromRunq (s : State) (t : Nat) : Except Trap State :=
  match s.threadHead with
  | none => .ok s
  | some h =>
      if h = t then
        if s.rqNext t = some t then
          .ok ((s.setRqNext t none).withThreadHead none)
        else
          match walk s.rqNext (fun a => s.rqNext a == some h) s.threadPoolCount (some h) with
          | none => .error .diverge
          | some none => .error .fault
          | some (some a) =>
              let next := s.rqNext t
              let s := (s.setRqNext a next).withThreadHead next
              .ok (s.setRqNext t none)
      else
        -- the walk goes once around, back to the head
        let found (a : Nat) := s.rqNext a == some t
        let last (a : Nat) := found a || s.rqNext a == some h
        match walk s.rqNext last s.threadPoolCount (some h) with
        | none => .error .diverge
        | some none => .error .fault
        | some (some a) =>
            if found a then
              let s := s.setRqNext a (s.rqNext t)
              .ok (s.setRqNext t none)
            else .ok s

/-! ## Adding threads -/

/-- The part of `sched_add_thread` that links thread `t` to process `p`. -/
def linkThread (s : State) (p t : Nat) : Except Trap State :=
  if (s.procs p).mainThread = none then
    .ok (s.setMainThread p (some t))
  else
    match walk s.threadlistNext (fun a => s.threadlistNext a == none) s.threadPoolCount
        (s.procs p).threadList with
    | none => .error .diverge
    | some none => .error .fault
    | some (some a) => .ok (s.setThreadlistNext a (some t))

/-- One more live thread of process `p`. -/
def State.countThread (s : State) (p : Nat) : State :=
  s.modProc p fun pr => { pr with liveThreadCount := (pr.liveThreadCount + 1) % 2 ^ 32 }

/-- A new thread of process `p` in slot `t`, with a kernel stack and the frame it starts from. -/
def Thread.started (th : Thread) (p t : Nat) (entry start : BitVec 32) (base top : Nat) : Thread :=
  { th with
    proc := some p
    slotInuse := true
    slotId := t
    state := .runnable
    wakeTick := 0
    exitCode := 0
    entry := entry
    waitKind := .none
    waitTargetPid := 0
    waitOwner := none
    waitNext := none
    rqNext := none
    threadlistNext := none
    kstackBase := base
    kstackTop := top
    frame := initialFrame start
    savedEsp := (top + (2 ^ 32 - 80)) % 2 ^ 32 }

/-- `sched_add_thread`. -/
def schedAddThread (s : State) (entry : BitVec 32) (proc : Option Nat) :
    Except Trap (Option Nat × State) :=
  match proc with
  | none => .ok (none, s)
  | some p =>
      match allocThreadSlot s with
      | (none, s) => .ok (none, s)
      | (some t, s) => do
          let s ← linkThread s p t
          let s := s.countThread p
          let (base, top) ← poolGetKstack s t
          let s := s.modThread t fun th => th.started p t entry s.threadBootstrap base top
          let s ← runqAppend s t
          .ok (some t, s)

/-! ## Switching -/

/-- Make thread `t` the running one, and load the address space of its process. -/
def switchTo (s : State) (t : Nat) : Except Trap (Nat × State) :=
  let s := { s with threadCurrent := some t }
  let s := s.setState t .running
  match (s.threads t).proc with
  | none => .error .fault
  | some p =>
      .ok ((s.threads t).savedEsp, s.withMm (Mm.mmSwitch s.mm (s.procs p).addrSpace))

/-- What `sched_do_switch` does first: save the stack pointer, and make the current thread
runnable if it is still running. -/
def State.parked (s : State) (oldEsp : Nat) : State :=
  let s := { s with schedPending := false }
  match s.threadCurrent with
  | none => s
  | some c =>
      let s := s.modThread c fun th => { th with savedEsp := oldEsp }
      if (s.threads c).state = .running then
        s.setState c .runnable
      else s

/-- Where `sched_do_switch` starts to look for the next thread. -/
def State.switchStart (s : State) (head : Nat) : Option Nat :=
  match s.threadCurrent with
  | none => some head
  | some c => s.rqNext c

/-- `sched_do_switch`, with the stack pointer it returns. -/
def schedDoSwitch (s : State) (oldEsp : Nat) : Except Trap (Nat × State) :=
  let s := s.parked oldEsp
  match s.threadHead with
  | none => .ok (oldEsp, s)
  | some h => do
      let next ← nextRunnable s (s.switchStart h)
      match next with
      | none => .ok (oldEsp, { s with threadCurrent := none })
      | some t => switchTo s t

/-- `sched_thread_yield`, up to the interrupt that leads to the switch. -/
def schedThreadYield (s : State) : State :=
  match s.threadCurrent with
  | none => s
  | some _ => { s with schedPending := true }

/-! ## Blocking, waking, and sleeping -/

/-- A thread that waits at the front of the list of process `p`. -/
def Thread.waiting (th : Thread) (kind : WaitKind) (target p : Nat) (next : Option Nat) : Thread :=
  { th with
    state := .blocked
    waitKind := kind
    waitTargetPid := target
    waitOwner := some p
    waitNext := next }

/-- `sched_block_current_locked`. -/
def schedBlockCurrentLocked (s : State) (kind : WaitKind) (target : Nat) : Except Trap State :=
  match s.threadCurrent with
  | none => .ok s
  | some c =>
      match (s.threads c).proc with
      | none => .error .fault
      | some p =>
          let waiters := (s.procs p).waiters
          let s := s.modThread c fun th => th.waiting kind target p waiters
          .ok (s.setWaiters p (some c))

/-- `sched_block_current`, up to the switch. -/
def schedBlockCurrent (s : State) (kind : WaitKind) (target : Nat) : Except Trap State := do
  let s ← schedBlockCurrentLocked s kind target
  .ok (schedThreadYield s)

/-- Take thread `t` off the list of waiting threads of `owner`. -/
def unlinkWaiter (s : State) (owner t : Nat) : Except Trap State :=
  match place s.waitNext s.threadPoolCount (s.procs owner).waiters t with
  | none => .error .diverge
  | some .absent => .ok s
  | some .front => .ok (s.setWaiters owner (s.waitNext t))
  | some (.behind a) => .ok (s.setWaitNext a (s.waitNext t))

/-- Take thread `t` off the list it waits on, if any. -/
def leaveWaiters (s : State) (t : Nat) : Except Trap State :=
  match (s.threads t).waitOwner with
  | none => .ok s
  | some owner => unlinkWaiter s owner t

/-- A thread that waits for nothing. -/
def Thread.unwait (th : Thread) : Thread :=
  { th with
    waitKind := .none
    waitTargetPid := 0
    waitOwner := none
    waitNext := none }

/-- `sched_wake_thread`. -/
def schedWakeThread (s : State) (t : Nat) : Except Trap State :=
  match (s.threads t).state with
  | .sleeping => sleepqRemove (s.setState t .runnable) t
  | .blocked => do
      let s ← leaveWaiters (s.setState t .runnable) t
      .ok (s.modThread t Thread.unwait)
  | _ => .ok s

/-- A thread that sleeps until `wakeTick`. -/
def State.asleep (s : State) (t wakeTick : Nat) : State :=
  s.modThread t fun th => { th with wakeTick := wakeTick, state := .sleeping }

/-- `sched_thread_sleep`, up to the switch. -/
def schedThreadSleep (s : State) (ticks : Nat) : Except Trap State :=
  match s.threadCurrent with
  | none => .ok s
  | some c => do
      let s := s.asleep c ((s.ticks + ticks) % 2 ^ 64 % 2 ^ 32)
      let s ← sleepqInsert s c
      .ok (schedThreadYield s)

/-- The loop of `sched_on_tick` that wakes the threads whose time has come. The boolean says
whether it woke any. -/
def wakeDue : Nat → State → Bool → Except Trap (Bool × State)
  | fuel, s, wokeAny =>
      match s.threadSleepHead with
      | none => .ok (wokeAny, s)
      | some t =>
          if (s.threads t).wakeTick ≤ s.ticks then
            match fuel with
            | 0 => .error .diverge
            | fuel + 1 =>
                let s := (s.setSleepNext t none).withSleepHead (s.sleepNext t)
                if (s.threads t).slotInuse ∧ (s.threads t).state = .sleeping then
                  wakeDue fuel (s.setState t .runnable) true
                else wakeDue fuel s wokeAny
          else .ok (wokeAny, s)

/-- `RR_SCHEDULER_CADENCE`. -/
def rrSchedulerCadence : BitVec 32 := 10

/-- The end of `sched_on_tick`: count down the time slice, and ask for a switch if it is over or a
thread was woken. -/
def State.countDown (s : State) (wokeAny : Bool) : State :=
  let left := s.rrTicksLeft - 1
  if left = 0 then { s with rrTicksLeft := rrSchedulerCadence, schedPending := true }
  else if wokeAny then { s with rrTicksLeft := left, schedPending := true }
  else { s with rrTicksLeft := left }

/-- `sched_on_tick`. -/
def schedOnTick (s : State) : Except Trap State := do
  let (wokeAny, s) ← wakeDue s.threadPoolCount s false
  .ok (s.countDown wokeAny)

/-- `increment_ticks`, the handler of the timer. -/
def incrementTicks (s : State) : Except Trap State :=
  schedOnTick { s with ticks := (s.ticks + 1) % 2 ^ 64 }

/-! ## Exit -/

/-- `wake_parent_waiter`. -/
def wakeParentWaiter (s : State) (child : Nat) : Except Trap State :=
  match (s.procs child).parent with
  | none => .ok s
  | some parent =>
      let pid := (s.procs child).pid
      let stop (t : Nat) := (s.threads t).waitKind == .any ||
        ((s.threads t).waitKind == .child && (s.threads t).waitTargetPid == pid)
      match walk s.waitNext stop s.threadPoolCount (s.procs parent).waiters with
      | none => .error .diverge
      | some none => .ok s
      | some (some t) => schedWakeThread s t

/-- `sched_proc_cleanup_fds`. -/
def schedProcCleanupFds (s : State) (p : Nat) : Except Trap State := do
  let io ← Io.dropFds Io.poolSlots (s.procs p).fdList s.io
  .ok ({ s with io := io }.modProc p fun pr => { pr with fdList := none, fdCount := 0 })

/-- The part of `sched_thread_exit` for a process that has other threads: thread `t` leaves its
list of threads. -/
def unlinkExited (s : State) (p t : Nat) : Except Trap State :=
  match place s.threadlistNext s.threadPoolCount (s.procs p).threadList t with
  | none => .error .diverge
  | some .absent =>
      .error (.panic "Thread exit: current thread not found in its process's thread list")
  | some .front =>
      let next := s.threadlistNext t
      let s := s.setMainThread p next
      .ok (s.setThreadlistNext t none)
  | some (.behind a) =>
      let s := s.setThreadlistNext a (s.threadlistNext t)
      .ok (s.setThreadlistNext t none)

/-- The first part of `sched_thread_exit`: thread `c` of process `p` is a zombie and no longer
counts. -/
def State.exiting (s : State) (c p : Nat) (code : BitVec 32) : State :=
  (s.modThread c fun th => { th with exitCode := code, state := .zombie }).modProc p fun pr =>
    { pr with liveThreadCount := (pr.liveThreadCount + (2 ^ 32 - 1)) % 2 ^ 32 }

/-- A process whose last thread has exited. -/
def State.ended (s : State) (p : Nat) (code : BitVec 32) : State :=
  s.modProc p fun pr => { pr with state := .zombie, exitCode := code }

/-- `sched_thread_exit`, up to the switch. -/
def schedThreadExit (s : State) (code : BitVec 32) : Except Trap State :=
  match s.threadCurrent with
  | none => .ok s
  | some c =>
      match (s.threads c).proc with
      | none => .error .fault
      | some p =>
          let s := s.exiting c p code
          if (s.procs p).liveThreadCount = 0 then do
            let s ← wakeParentWaiter (s.ended p code) p
            let s ← schedProcCleanupFds s p
            .ok (schedThreadYield s)
          else do
            let s ← unlinkExited s p c
            .ok (schedThreadYield s)

/-! ## Processes -/

/-- The record of a new process in slot `p`. -/
def Process.started (pr : Process) (p ppid : Nat) (parent : Option Nat)
    (context : ProcessContext) : Process :=
  { pr with
    slotInuse := true
    slotId := p
    pid := p
    ppid := ppid
    state := .alive
    exitCode := 0
    liveThreadCount := 0
    fdCount := 0
    fdList := none
    parent := parent
    context := context
    firstChild := none
    nextSibling := none
    mainThread := none
    threadList := none
    waiters := none }

/-- A copy of the parent's address space, or an empty one. -/
def newSpace (s : State) (parent : Option Nat) : Except Trap (Option Nat × Mm.State) :=
  match parent with
  | some q => Mm.mmCloneUserEager s.mm (s.procs q).addrSpace
  | none => Mm.mmCreate s.mm

/-- The address space of a new process. The boolean is false if there should be one and there is
none. -/
def procAddrSpace (s : State) (parent : Option Nat) (context : ProcessContext) :
    Except Trap (Bool × Option Nat × State) :=
  if context ≠ .kernel then do
    let (m, mm) ← newSpace s parent
    .ok (m.isSome, m, s.withMm mm)
  else .ok (true, none, s)

/-- Append process `p` to the children of its parent. -/
def linkChild (s : State) (parent : Option Nat) (p : Nat) : Except Trap State :=
  match parent with
  | none => .ok s
  | some q =>
      match (s.procs q).firstChild with
      | none => .ok (s.setFirstChild q (some p))
      | some c =>
          match walk s.nextSibling (fun a => s.nextSibling a == none) s.processPoolCount
              (some c) with
          | some (some a) => .ok (s.setNextSibling a (some p))
          | _ => .error .diverge

/-- The descriptors of a new process: only a root process gets the console here. -/
def procStdio (s : State) (parent : Option Nat) (context : ProcessContext) (p : Nat) :
    Except Trap State :=
  if context ≠ .kernel ∧ parent = none then do
    let (fdList, fdCount, io) ← Io.stdioBootstrap s.io
    .ok ({ s with io := io }.modProc p fun pr => { pr with fdList := fdList, fdCount := fdCount })
  else .ok s

/-- The parent's pid, and the context of a new process. -/
def inherited (s : State) (parent : Option Nat) (context : ProcessContext) :
    Nat × ProcessContext :=
  match parent with
  | some q => ((s.procs q).pid, (s.procs q).context)
  | none => (0, context)

/-- The first part of `proc_alloc`: fill in the record in slot `p`. -/
def State.reserved (s : State) (parent : Option Nat) (context : ProcessContext) (p : Nat) : State :=
  s.modProc p fun pr =>
    pr.started p (inherited s parent context).1 parent (inherited s parent context).2

/-- `proc_alloc`. -/
def procAlloc (s : State) (parent : Option Nat) (context : ProcessContext) :
    Except Trap (Option Nat × State) :=
  match allocProcessSlot s with
  | none => .ok (none, s)
  | some p => do
      let context := (inherited s parent context).2
      let (ok, addrSpace, s) ← procAddrSpace (s.reserved parent context p) parent context
      let s := s.setAddrSpace p addrSpace
      if ok = false then .ok (none, s.modProc p fun pr => { pr with slotInuse := false })
      else
        let s ← linkChild s parent p
        let s ← procStdio s parent context p
        .ok (some p, s)

/-- Take process `p` off the list of children of its parent. -/
def unlinkChild (s : State) (p : Nat) : Except Trap State :=
  match (s.procs p).parent with
  | none => .ok s
  | some q =>
      match place s.nextSibling s.processPoolCount (s.procs q).firstChild p with
      | none => .error .diverge
      | some .absent => .ok s
      | some .front => .ok (s.setFirstChild q (s.nextSibling p))
      | some (.behind a) => .ok (s.setNextSibling a (s.nextSibling p))

/-- The record of a process slot that is free again. -/
def Process.freed (pr : Process) : Process :=
  { pr with
    addrSpace := none
    slotInuse := false
    liveThreadCount := 0
    state := .unused
    mainThread := none
    threadList := none
    waiters := none
    firstChild := none
    nextSibling := none
    parent := none }

/-- `proc_free`. -/
def procFree (s : State) (p : Nat) : Except Trap State := do
  let s ← unlinkChild s p
  let mm ← Mm.mmDestroy s.mm (s.procs p).addrSpace
  .ok ((s.withMm mm).modProc p Process.freed)

/-- Take thread `t` off the list of threads of process `p`. -/
def leaveThreadList (s : State) (p t : Nat) : Except Trap State :=
  match place s.threadlistNext s.threadPoolCount (s.procs p).threadList t with
  | none => .error .diverge
  | some .absent => .ok s
  | some .front => .ok (s.setThreadList p (s.threadlistNext t))
  | some (.behind a) =>
      .ok (s.setThreadlistNext a (s.threadlistNext t))

/-- The part of `thread_reap` that looks after the process of the thread. -/
def unlinkThread (s : State) (t : Nat) : Except Trap State :=
  match (s.threads t).proc with
  | none => .ok s
  | some p => do
      let s ← leaveThreadList s p t
      if (s.procs p).mainThread = some t then
        .ok (s.modProc p fun pr => { pr with mainThread := pr.threadList })
      else .ok s

/-- The record of a thread slot that is free again. -/
def Thread.freed (th : Thread) : Thread :=
  { th with
    state := .unused
    slotInuse := false
    rqNext := none
    sleepNext := none
    entry := 0
    proc := none
    threadlistNext := none
    waitKind := .none
    waitTargetPid := 0
    waitOwner := none
    waitNext := none }

/-- `thread_reap`. -/
def threadReap (s : State) (t : Nat) : Except Trap State := do
  let s ← threadUnlinkFromRunq s t
  let s ← sleepqRemove s t
  let s ← unlinkThread s t
  .ok (s.modThread t Thread.freed)

/-- `reap_result_t`. -/
inductive ReapResult where
  | success
  | noZombie
  | invalidPid
  | unlinkedChild
  deriving DecidableEq, Repr

/-- The loop of `proc_reap_child` over the threads of the child. -/
def reapThreads : Nat → Option Nat → State → Except Trap State
  | _, none, s => .ok s
  | 0, some _, _ => .error .diverge
  | fuel + 1, some t, s => do
      let next := s.threadlistNext t
      let s ← threadReap s t
      reapThreads fuel next s

/-- `proc_reap_child`. -/
def procReapChild (s : State) (parent child : Nat) : Except Trap (ReapResult × State) :=
  if (s.procs child).parent ≠ some parent then .ok (.unlinkedChild, s)
  else if (s.procs child).state ≠ .zombie then .ok (.noZombie, s)
  else do
    let s ← reapThreads s.threadPoolCount (s.procs child).threadList s
    let s ← procFree s child
    .ok (.success, s)

/-- `(pid_t)-1`, which stands for any child. -/
def pidAny : Nat := 2 ^ 32 - 1

/-- Whether a wait for `matchPid` is about process `c`. -/
def State.matchesPid (s : State) (matchPid c : Nat) : Bool :=
  matchPid == pidAny || (s.procs c).pid == matchPid

/-- `proc_find_zombie_child`. -/
def procFindZombieChild (s : State) (parent childPid : Nat) : Except Trap (Option Nat) :=
  let found (c : Nat) := s.matchesPid childPid c && (s.procs c).state == .zombie
  match walk s.nextSibling (fun c => found c || c == parent) s.processPoolCount
      (s.procs parent).firstChild with
  | none => .error .diverge
  | some none => .ok none
  | some (some c) =>
      if found c then .ok (some c)
      else .error (.panic "Circular parent-child relationship detected in proc_find_zombie_child")

/-- Whether `parent` has a child that a wait for `matchPid` is about. -/
def hasMatchingChild (s : State) (parent matchPid : Nat) : Except Trap Bool :=
  if matchPid = pidAny then .ok (s.procs parent).firstChild.isSome
  else
    match walk s.nextSibling (fun c => (s.procs c).pid == matchPid) s.processPoolCount
        (s.procs parent).firstChild with
    | none => .error .diverge
    | some c => .ok c.isSome

/-- Error numbers that system calls return, negated. -/
inductive Errno where
  | perm
  | noent
  | srch
  | toobig
  | noexec
  | child
  | again
  | nomem
  | fault
  | inval
  | nametoolong
  deriving DecidableEq, Repr

/-- The value of an error number. -/
def Errno.code : Errno → Int
  | .perm => 1
  | .noent => 2
  | .srch => 3
  | .toobig => 7
  | .noexec => 8
  | .child => 10
  | .again => 11
  | .nomem => 12
  | .fault => 14
  | .inval => 22
  | .nametoolong => 36

/-- How one round of the loop of `proc_waitpid` ends: the function returns an error, it returns
the pid of a child with its status, or the thread blocks and the loop goes on. -/
inductive WaitResult where
  | error (e : Errno)
  | reaped (pid : Nat) (status : BitVec 32)
  | blocked
  deriving DecidableEq

/-- One round of the loop of `proc_waitpid`, up to the switch. -/
def procWaitpid (s : State) (parent : Nat) (pidFilter : BitVec 32) :
    Except Trap (WaitResult × State) :=
  let matchPid := if pidFilter.toInt = -1 then pidAny else pidFilter.toNat
  if pidFilter.toInt < -1 then .ok (.error .inval, s)
  else do
    let haveMatchingChild ← hasMatchingChild s parent matchPid
    let zombie ← procFindZombieChild s parent matchPid
    match zombie with
    | some z =>
        let status := (s.procs z).exitCode
        let pid := (s.procs z).pid
        let (rr, s) ← procReapChild s parent z
        if rr ≠ .success then .ok (.error .child, s) else .ok (.reaped pid status, s)
    | none =>
        if haveMatchingChild = false then .ok (.error .child, s)
        else
          let s ← schedBlockCurrentLocked s (if matchPid = pidAny then .any else .child) matchPid
          .ok (.blocked, schedThreadYield s)

/-! ## Fork -/

/-- `sched_current_process`. -/
def schedCurrentProcess (s : State) : Option Nat :=
  match s.threadCurrent with
  | none => none
  | some c => (s.threads c).proc

/-- Give the child the copied descriptors. -/
def State.inheritFds (s : State) (parent child : Nat) (fdList : Option Nat) : State :=
  let s := s.modProc child fun pr => { pr with fdList := fdList }
  s.modProc child fun pr => { pr with fdCount := (s.procs parent).fdCount }

/-- Put a trap frame on the stack of a thread that has not run yet. -/
def State.withFrame (s : State) (t : Nat) (frame : TrapFrame) : State :=
  s.modThread t fun th => { th with frame := frame }

/-- `sched_clone_fork`, with the parent's trap frame. -/
def schedCloneFork (s : State) (parent child : Nat) (parentTf : TrapFrame) :
    Except Trap (Bool × TrapFrame × State) :=
  match s.threadCurrent with
  | none => .ok (false, parentTf, s)
  | some c => do
      let (childThread, s) ← schedAddThread s (s.threads c).entry (some child)
      match childThread with
      | none => .ok (false, parentTf, s)
      | some t =>
          let (fdList, io) ← Io.fdeForkCopy s.io (s.procs parent).fdList
          let s := { s with io := io }.inheritFds parent child fdList
          if (s.procs child).fdList = none ∧ (s.procs parent).fdList ≠ none then do
            let s ← threadReap s t
            .ok (false, parentTf, s)
          else
            let s := s.withFrame t { parentTf with eax := 0 }
            .ok (true, { parentTf with eax := BitVec.ofNat 32 (s.procs child).pid }, s)

/-- `_fork`: the value it returns, and the trap frame it leaves. -/
def fork (s : State) (tf : TrapFrame) : Except Trap (Int × TrapFrame × State) :=
  match schedCurrentProcess s with
  | none => .ok (-Errno.srch.code, tf, s)
  | some parent => do
      let (child, s) ← procAlloc s (some parent) (s.procs parent).context
      match child with
      | none => .ok (-Errno.again.code, tf, s)
      | some child =>
          let (cloned, tf, s) ← schedCloneFork s parent child tf
          if cloned = false then do
            let s ← procFree s child
            .ok (-Errno.again.code, tf, s)
          else .ok ((s.procs child).pid, tf, s)

/-! ## Start -/

/-- The numbers of slots that `pool_init` computes. -/
structure PoolCounts where
  threads : Nat
  processes : Nat
  kstacks : Nat

/-- The loop of `pool_init` that finds the scalar, for at most `fuel` rounds. -/
def poolScalar : Nat → Nat → Nat → Nat
  | 0, _, scalar => scalar
  | fuel + 1, memoryMb, scalar =>
      if memoryMb / 2 ≠ 0 ∧ memoryMb > 16 then poolScalar fuel (memoryMb / 2) (scalar + 1)
      else scalar

/-- `sizeof(thread_t)`. -/
def threadSize : Nat := 148

/-- `sizeof(process_t)`. -/
def processSize : Nat := 84

/-- The slot counts of `pool_init`, for a machine with that much memory. -/
def poolCounts (availMemoryKib : Nat) : PoolCounts :=
  -- the scalar stops at four
  let scalar := poolScalar 3 (availMemoryKib / 1024) 1
  let processpoolSize := 128 * 4096 * scalar
  let kstackPages := 256 * 3 * scalar
  let threadpoolSize := 256 * 4096 * scalar
  let threadpoolSize :=
    if threadpoolSize / threadSize > kstackPages / 3 then
      kstackPages / 3 * threadSize / 4096 * 4096
    else threadpoolSize
  { threads := threadpoolSize / threadSize
    processes := processpoolSize / processSize
    kstacks := kstackPages / 3 }

/-- `sched_init`, once the pools are mapped. -/
def schedInit (s : State) (availMemoryKib : Nat) (idle : BitVec 32) : Except Trap State := do
  let counts := poolCounts availMemoryKib
  let s := { s with
    threadPoolCount := counts.threads
    processPoolCount := counts.processes
    kstackPoolCount := counts.kstacks
    threadCurrent := none
    threadHead := none
    threadSleepHead := none
    schedPending := false
    rrTicksLeft := rrSchedulerCadence }
  let (proc, s) ← procAlloc s none .kernel
  match proc with
  | none => .error (.panic "Failed to allocate process slot for idle thread")
  | some p =>
      let (_, s) ← schedAddThread s idle (some p)
      .ok s

end Unidos.Sched
