import Unidos.Sched.Basic
import Unidos.Lib.Run

/-!
# What the functions of the scheduler leave alone

`Modifies parts s s'` says that `s'` differs from `s` in the named parts of the state at most. There
is one lemma for each function; an invariant that depends on other parts is then kept by that
function.
-/

namespace Unidos.Sched

open Lib

/-- The parts of the state that the invariants are about. -/
inductive Part where
  /-- which thread slots are in use -/
  | inuse
  /-- the processes of the threads -/
  | owner
  /-- the states of the threads -/
  | states
  /-- the run ring -/
  | ring
  /-- the sleep queue -/
  | sleep
  /-- when sleeping threads wake up -/
  | wakeTick
  /-- the lists of waiting threads, and what they wait for -/
  | wait
  /-- the lists of threads of the processes -/
  | list
  /-- kernel stacks, entry points, and exit codes -/
  | stack
  /-- the current thread -/
  | current
  /-- the clock, the time slice, and where the next slot is looked for -/
  | clock
  /-- which process slots are in use -/
  | slot
  /-- the pids and the contexts of the processes -/
  | ident
  /-- the states and the exit codes of the processes -/
  | phase
  /-- the counts of live threads -/
  | live
  /-- the process tree -/
  | tree
  /-- the address spaces of the processes -/
  | space
  /-- the descriptor lists of the processes -/
  | files
  /-- the memory of the machine -/
  | mm
  /-- the pools of descriptors and open files -/
  | io
  deriving DecidableEq

/-- Agreement of two thread records on a part of the state. -/
def SameThread : Part → Thread → Thread → Prop
  | .inuse, a, b => b.slotInuse = a.slotInuse
  | .owner, a, b => b.proc = a.proc
  | .states, a, b => b.state = a.state
  | .ring, a, b => b.rqNext = a.rqNext
  | .sleep, a, b => b.sleepNext = a.sleepNext
  | .wakeTick, a, b => b.wakeTick = a.wakeTick
  | .wait, a, b => b.waitKind = a.waitKind ∧ b.waitTargetPid = a.waitTargetPid ∧
      b.waitOwner = a.waitOwner ∧ b.waitNext = a.waitNext
  | .list, a, b => b.threadlistNext = a.threadlistNext
  | .stack, a, b => b.slotId = a.slotId ∧ b.frame = a.frame ∧ b.savedEsp = a.savedEsp ∧
      b.kstackBase = a.kstackBase ∧ b.kstackTop = a.kstackTop ∧ b.exitCode = a.exitCode ∧
      b.entry = a.entry
  | _, _, _ => True

/-- Agreement of two process records on a part of the state. -/
def SameProcess : Part → Process → Process → Prop
  | .wait, a, b => b.waiters = a.waiters
  | .list, a, b => b.mainThread = a.mainThread ∧ b.threadList = a.threadList
  | .slot, a, b => b.slotInuse = a.slotInuse
  | .ident, a, b => b.slotId = a.slotId ∧ b.pid = a.pid ∧ b.ppid = a.ppid ∧ b.context = a.context
  | .phase, a, b => b.state = a.state ∧ b.exitCode = a.exitCode
  | .live, a, b => b.liveThreadCount = a.liveThreadCount
  | .tree, a, b => b.parent = a.parent ∧ b.firstChild = a.firstChild ∧
      b.nextSibling = a.nextSibling
  | .space, a, b => b.addrSpace = a.addrSpace
  | .files, a, b => b.fdList = a.fdList ∧ b.fdCount = a.fdCount
  | _, _, _ => True

/-- Agreement of two states on a part of the static variables. -/
def SameGlobal : Part → State → State → Prop
  | .ring, s, s' => s'.threadHead = s.threadHead
  | .sleep, s, s' => s'.threadSleepHead = s.threadSleepHead
  | .current, s, s' => s'.threadCurrent = s.threadCurrent
  | .clock, s, s' => s'.ticks = s.ticks ∧ s'.rrTicksLeft = s.rrTicksLeft ∧
      s'.schedPending = s.schedPending ∧ s'.nextTid = s.nextTid
  | .mm, s, s' => s'.io.mm = s.io.mm
  | .io, s, s' => { s'.io with mm := s.io.mm } = s.io
  | _, _, _ => True

/-- Agreement on what never changes after the start. -/
structure SamePools (s s' : State) : Prop where
  threads : s'.threadPoolCount = s.threadPoolCount
  procs : s'.processPoolCount = s.processPoolCount
  kstackBase : s'.kstackPoolBase = s.kstackPoolBase
  kstacks : s'.kstackPoolCount = s.kstackPoolCount
  bootstrap : s'.threadBootstrap = s.threadBootstrap

/-- The states agree outside the named parts. -/
structure Modifies (parts : List Part) (s s' : State) : Prop where
  pools : SamePools s s'
  thread : ∀ k, k ∉ parts → ∀ t, SameThread k (s.threads t) (s'.threads t)
  process : ∀ k, k ∉ parts → ∀ p, SameProcess k (s.procs p) (s'.procs p)
  global : ∀ k, k ∉ parts → SameGlobal k s s'

theorem SameThread.refl (k : Part) (a : Thread) : SameThread k a a := by
  cases k <;> simp [SameThread]

theorem SameThread.trans {k : Part} {a b c : Thread} (h : SameThread k a b)
    (h' : SameThread k b c) : SameThread k a c := by
  cases k <;> simp_all [SameThread]

theorem SameProcess.refl (k : Part) (a : Process) : SameProcess k a a := by
  cases k <;> simp [SameProcess]

theorem SameProcess.trans {k : Part} {a b c : Process} (h : SameProcess k a b)
    (h' : SameProcess k b c) : SameProcess k a c := by
  cases k <;> simp_all [SameProcess]

theorem SameGlobal.trans {k : Part} {s s' s'' : State} (h : SameGlobal k s s')
    (h' : SameGlobal k s' s'') : SameGlobal k s s'' := by
  cases k with
  | io =>
      have h1 : { s'.io with mm := s.io.mm } = s.io := h
      have h2 : { s''.io with mm := s'.io.mm } = s'.io := h'
      show { s''.io with mm := s.io.mm } = s.io
      rw [← h1, ← h2]
  | _ => simp_all [SameGlobal]

namespace Modifies

variable {parts parts' : List Part} {s s' s'' : State}

theorem refl (parts : List Part) (s : State) : Modifies parts s s :=
  ⟨⟨rfl, rfl, rfl, rfl, rfl⟩, fun k _ _ => SameThread.refl k _, fun k _ _ => SameProcess.refl k _,
    fun k _ => by cases k <;> simp [SameGlobal]⟩

theorem trans (h : Modifies parts s s') (h' : Modifies parts' s' s'') :
    Modifies (parts ++ parts') s s'' := by
  have hout : ∀ k, k ∉ parts ++ parts' → k ∉ parts ∧ k ∉ parts' := by simp
  refine ⟨⟨h'.pools.threads.trans h.pools.threads, h'.pools.procs.trans h.pools.procs,
    h'.pools.kstackBase.trans h.pools.kstackBase, h'.pools.kstacks.trans h.pools.kstacks,
    h'.pools.bootstrap.trans h.pools.bootstrap⟩, fun k hk t => ?_, fun k hk p => ?_, fun k hk => ?_⟩
  · exact (h.thread k (hout k hk).1 t).trans (h'.thread k (hout k hk).2 t)
  · exact (h.process k (hout k hk).1 p).trans (h'.process k (hout k hk).2 p)
  · exact (h.global k (hout k hk).1).trans (h'.global k (hout k hk).2)

theorem mono (h : Modifies parts s s') (hsub : parts ⊆ parts') : Modifies parts' s s' :=
  ⟨h.pools, fun k hk => h.thread k fun hm => hk (hsub hm),
    fun k hk => h.process k fun hm => hk (hsub hm), fun k hk => h.global k fun hm => hk (hsub hm)⟩

/-- A change to one thread record. -/
theorem modThread {t : Nat} {f : Thread → Thread}
    (h : ∀ k, k ∉ parts → SameThread k (s.threads t) (f (s.threads t))) :
    Modifies parts s (s.modThread t f) := by
  have hrefl := refl parts s
  refine ⟨⟨rfl, rfl, rfl, rfl, rfl⟩, fun k hk u => ?_, hrefl.process, fun k _ => ?_⟩
  swap
  · cases k <;> simp [SameGlobal, State.modThread]
  show SameThread k (s.threads u) (Function.update s.threads t (f (s.threads t)) u)
  by_cases hu : u = t
  · rw [hu, Function.update_self]
    exact h k hk
  · rw [Function.update_of_ne hu]
    exact SameThread.refl k _

/-- A change to one process record. -/
theorem modProc {p : Nat} {f : Process → Process}
    (h : ∀ k, k ∉ parts → SameProcess k (s.procs p) (f (s.procs p))) :
    Modifies parts s (s.modProc p f) := by
  have hrefl := refl parts s
  refine ⟨⟨rfl, rfl, rfl, rfl, rfl⟩, hrefl.thread, fun k hk q => ?_, fun k _ => ?_⟩
  swap
  · cases k <;> simp [SameGlobal, State.modProc]
  show SameProcess k (s.procs q) (Function.update s.procs p (f (s.procs p)) q)
  by_cases hq : q = p
  · rw [hq, Function.update_self]
    exact h k hk
  · rw [Function.update_of_ne hq]
    exact SameProcess.refl k _

/-- A change to static variables only. -/
theorem ofGlobal (hpools : SamePools s s') (hthreads : s'.threads = s.threads)
    (hprocs : s'.procs = s.procs) (h : ∀ k, k ∉ parts → SameGlobal k s s') :
    Modifies parts s s' :=
  ⟨hpools, fun k _ _ => hthreads ▸ SameThread.refl k _,
    fun k _ _ => hprocs ▸ SameProcess.refl k _, h⟩

/-! What agreement on a part says. -/

section Parts

variable (h : Modifies parts s s')

include h

theorem inuse (hk : .inuse ∉ parts) (t : Nat) :
    (s'.threads t).slotInuse = (s.threads t).slotInuse := h.thread .inuse hk t

theorem owner (hk : .owner ∉ parts) (t : Nat) : (s'.threads t).proc = (s.threads t).proc :=
  h.thread .owner hk t

theorem states (hk : .states ∉ parts) (t : Nat) : (s'.threads t).state = (s.threads t).state :=
  h.thread .states hk t

theorem rqNext (hk : .ring ∉ parts) : s'.rqNext = s.rqNext := funext (h.thread .ring hk)

theorem threadHead (hk : .ring ∉ parts) : s'.threadHead = s.threadHead := h.global .ring hk

theorem sleepNext (hk : .sleep ∉ parts) : s'.sleepNext = s.sleepNext :=
  funext (h.thread .sleep hk)

theorem threadSleepHead (hk : .sleep ∉ parts) : s'.threadSleepHead = s.threadSleepHead :=
  h.global .sleep hk

theorem wakeTick (hk : .wakeTick ∉ parts) (t : Nat) :
    (s'.threads t).wakeTick = (s.threads t).wakeTick := h.thread .wakeTick hk t

theorem waitKind (hk : .wait ∉ parts) (t : Nat) :
    (s'.threads t).waitKind = (s.threads t).waitKind := (h.thread .wait hk t).1

theorem waitTargetPid (hk : .wait ∉ parts) (t : Nat) :
    (s'.threads t).waitTargetPid = (s.threads t).waitTargetPid := (h.thread .wait hk t).2.1

theorem waitOwner (hk : .wait ∉ parts) (t : Nat) :
    (s'.threads t).waitOwner = (s.threads t).waitOwner := (h.thread .wait hk t).2.2.1

theorem waitNext (hk : .wait ∉ parts) : s'.waitNext = s.waitNext :=
  funext fun t => (h.thread .wait hk t).2.2.2

theorem waiters (hk : .wait ∉ parts) (p : Nat) : (s'.procs p).waiters = (s.procs p).waiters :=
  h.process .wait hk p

theorem threadlistNext (hk : .list ∉ parts) : s'.threadlistNext = s.threadlistNext :=
  funext (h.thread .list hk)

theorem mainThread (hk : .list ∉ parts) (p : Nat) :
    (s'.procs p).mainThread = (s.procs p).mainThread := (h.process .list hk p).1

theorem threadList (hk : .list ∉ parts) (p : Nat) :
    (s'.procs p).threadList = (s.procs p).threadList := (h.process .list hk p).2

theorem threadCurrent (hk : .current ∉ parts) : s'.threadCurrent = s.threadCurrent :=
  h.global .current hk

theorem ticks (hk : .clock ∉ parts) : s'.ticks = s.ticks := (h.global .clock hk).1

theorem slot (hk : .slot ∉ parts) (p : Nat) :
    (s'.procs p).slotInuse = (s.procs p).slotInuse := h.process .slot hk p

theorem pid (hk : .ident ∉ parts) (p : Nat) : (s'.procs p).pid = (s.procs p).pid :=
  (h.process .ident hk p).2.1

theorem context (hk : .ident ∉ parts) (p : Nat) :
    (s'.procs p).context = (s.procs p).context := (h.process .ident hk p).2.2.2

theorem phase (hk : .phase ∉ parts) (p : Nat) : (s'.procs p).state = (s.procs p).state :=
  (h.process .phase hk p).1

theorem exitCode (hk : .phase ∉ parts) (p : Nat) :
    (s'.procs p).exitCode = (s.procs p).exitCode := (h.process .phase hk p).2

theorem liveThreadCount (hk : .live ∉ parts) (p : Nat) :
    (s'.procs p).liveThreadCount = (s.procs p).liveThreadCount := h.process .live hk p

theorem parent (hk : .tree ∉ parts) (p : Nat) : (s'.procs p).parent = (s.procs p).parent :=
  (h.process .tree hk p).1

theorem firstChild (hk : .tree ∉ parts) (p : Nat) :
    (s'.procs p).firstChild = (s.procs p).firstChild := (h.process .tree hk p).2.1

theorem nextSibling (hk : .tree ∉ parts) : s'.nextSibling = s.nextSibling :=
  funext fun p => (h.process .tree hk p).2.2

theorem addrSpace (hk : .space ∉ parts) (p : Nat) :
    (s'.procs p).addrSpace = (s.procs p).addrSpace := h.process .space hk p

theorem fdList (hk : .files ∉ parts) (p : Nat) : (s'.procs p).fdList = (s.procs p).fdList :=
  (h.process .files hk p).1

theorem mm (hk : .mm ∉ parts) : s'.mm = s.mm := h.global .mm hk

end Parts

end Modifies

/-! ## Single updates -/

section Updates

variable (s : State) (t p : Nat) (next : Option Nat)

theorem modifies_sleepNext : Modifies [.sleep] s (s.setSleepNext t next) :=
  .modThread fun k hk => by cases k <;> simp_all [SameThread]

theorem modifies_rqNext : Modifies [.ring] s (s.setRqNext t next) :=
  .modThread fun k hk => by cases k <;> simp_all [SameThread]

theorem modifies_waitNext : Modifies [.wait] s (s.setWaitNext t next) :=
  .modThread fun k hk => by cases k <;> simp_all [SameThread]

theorem modifies_threadlistNext : Modifies [.list] s (s.setThreadlistNext t next) :=
  .modThread fun k hk => by cases k <;> simp_all [SameThread]

theorem modifies_state (state : ThreadState) : Modifies [.states] s (s.setState t state) :=
  .modThread fun k hk => by cases k <;> simp_all [SameThread]

theorem modifies_unwait : Modifies [.wait] s (s.modThread t Thread.unwait) :=
  .modThread fun k hk => by cases k <;> simp_all [SameThread, Thread.unwait]

theorem modifies_asleep (wakeTick : Nat) :
    Modifies [.wakeTick, .states] s (s.asleep t wakeTick) :=
  .modThread fun k hk => by cases k <;> simp_all [SameThread]

theorem modifies_waiting (kind : WaitKind) (target : Nat) :
    Modifies [.states, .wait] s (s.modThread t fun th => th.waiting kind target p next) :=
  .modThread fun k hk => by cases k <;> simp_all [SameThread, Thread.waiting]

theorem modifies_withFrame (frame : TrapFrame) : Modifies [.stack] s (s.withFrame t frame) :=
  .modThread fun k hk => by cases k <;> simp_all [SameThread]

theorem modifies_nextSibling : Modifies [.tree] s (s.setNextSibling p next) :=
  .modProc fun k hk => by cases k <;> simp_all [SameProcess]

theorem modifies_firstChild : Modifies [.tree] s (s.setFirstChild p next) :=
  .modProc fun k hk => by cases k <;> simp_all [SameProcess]

theorem modifies_waiters : Modifies [.wait] s (s.setWaiters p next) :=
  .modProc fun k hk => by cases k <;> simp_all [SameProcess]

theorem modifies_threadList : Modifies [.list] s (s.setThreadList p next) :=
  .modProc fun k hk => by cases k <;> simp_all [SameProcess]

theorem modifies_mainThread : Modifies [.list] s (s.setMainThread p next) :=
  .modProc fun k hk => by cases k <;> simp_all [SameProcess]

theorem modifies_addrSpace : Modifies [.space] s (s.setAddrSpace p next) :=
  .modProc fun k hk => by cases k <;> simp_all [SameProcess]

theorem modifies_countThread : Modifies [.live] s (s.countThread p) :=
  .modProc fun k hk => by cases k <;> simp_all [SameProcess]

theorem modifies_sleepHead : Modifies [.sleep] s (s.withSleepHead next) :=
  .ofGlobal ⟨rfl, rfl, rfl, rfl, rfl⟩ rfl rfl fun k hk => by
    cases k <;> simp_all [SameGlobal, State.withSleepHead]

theorem modifies_threadHead : Modifies [.ring] s (s.withThreadHead next) :=
  .ofGlobal ⟨rfl, rfl, rfl, rfl, rfl⟩ rfl rfl fun k hk => by
    cases k <;> simp_all [SameGlobal, State.withThreadHead]

theorem modifies_mm (mm : Mm.State) : Modifies [.mm] s (s.withMm mm) :=
  .ofGlobal ⟨rfl, rfl, rfl, rfl, rfl⟩ rfl rfl fun k hk => by
    cases k <;> simp_all [SameGlobal, State.withMm]

theorem modifies_io (io : Io.State) : Modifies [.mm, .io] s { s with io := io } :=
  .ofGlobal ⟨rfl, rfl, rfl, rfl, rfl⟩ rfl rfl fun k hk => by cases k <;> simp_all [SameGlobal]

end Updates

/-! ## Slots, the sleep queue, and the run ring -/

section Functions

variable {s s' : State}

theorem sleepqInsert_modifies {t : Nat} (h : sleepqInsert s t = .ok s') :
    Modifies [.sleep] s s' := by
  unfold sleepqInsert at h
  have hclear := modifies_sleepNext s t none
  generalize hs₁ : s.setSleepNext t none = s₁ at h hclear
  have hfront : Modifies [.sleep] s
      ((s₁.setSleepNext t s₁.threadSleepHead).withSleepHead (some t)) :=
    ((hclear.trans (modifies_sleepNext s₁ t _)).trans (modifies_sleepHead _ _)).mono (by decide)
  simp only at h
  split at h
  · exact Except.ok.inj h ▸ hfront
  · split at h
    · exact Except.ok.inj h ▸ hfront
    · split at h
      · rename_i a _
        rw [← Except.ok.inj h]
        exact ((hclear.trans (modifies_sleepNext s₁ t _)).trans
          (modifies_sleepNext _ a _)).mono (by decide)
      · cases h

theorem sleepqRemove_modifies {t : Nat} (h : sleepqRemove s t = .ok s') :
    Modifies [.sleep] s s' := by
  unfold sleepqRemove at h
  split at h
  · cases h
  · exact Except.ok.inj h ▸ Modifies.refl _ _
  · rw [← Except.ok.inj h]
    exact ((modifies_sleepNext s t _).trans (modifies_sleepHead _ _)).mono (by decide)
  · rename_i a _
    rw [← Except.ok.inj h]
    exact ((modifies_sleepNext s a _).trans (modifies_sleepNext _ t _)).mono (by decide)

theorem runqAppend_modifies {t : Nat} (h : runqAppend s t = .ok s') : Modifies [.ring] s s' := by
  unfold runqAppend at h
  split at h
  · rw [← Except.ok.inj h]
    exact ((modifies_rqNext s t _).trans (modifies_threadHead _ _)).mono (by decide)
  · split at h
    · cases h
    · cases h
    · rename_i a _
      rw [← Except.ok.inj h]
      exact ((modifies_rqNext s a _).trans (modifies_rqNext _ t _)).mono (by decide)

theorem threadUnlinkFromRunq_modifies {t : Nat} (h : threadUnlinkFromRunq s t = .ok s') :
    Modifies [.ring] s s' := by
  unfold threadUnlinkFromRunq at h
  split at h
  · exact Except.ok.inj h ▸ Modifies.refl _ _
  split at h
  · split at h
    · rw [← Except.ok.inj h]
      exact ((modifies_rqNext s t _).trans (modifies_threadHead _ _)).mono (by decide)
    · split at h
      · cases h
      · cases h
      · rename_i a _
        rw [← Except.ok.inj h]
        exact (((modifies_rqNext s a _).trans (modifies_threadHead _ _)).trans
          (modifies_rqNext _ t _)).mono (by decide)
  · simp only at h
    split at h
    · cases h
    · cases h
    · rename_i a _
      split at h
      · rw [← Except.ok.inj h]
        exact ((modifies_rqNext s a _).trans (modifies_rqNext _ t _)).mono (by decide)
      · exact Except.ok.inj h ▸ Modifies.refl _ _

/-! ## Adding threads -/

theorem allocThreadSlot_modifies {t : Option Nat} (h : allocThreadSlot s = (t, s')) :
    Modifies [.clock] s s' := by
  unfold allocThreadSlot at h
  split at h
  · exact (Prod.mk.inj h).2 ▸ Modifies.refl _ _
  split at h
  · exact (Prod.mk.inj h).2 ▸ Modifies.refl _ _
  · rw [← (Prod.mk.inj h).2]
    exact .ofGlobal ⟨rfl, rfl, rfl, rfl, rfl⟩ rfl rfl fun k hk => by
      cases k <;> simp_all [SameGlobal]

theorem linkThread_modifies {p t : Nat} (h : linkThread s p t = .ok s') :
    Modifies [.list] s s' := by
  unfold linkThread at h
  split at h
  · exact Except.ok.inj h ▸ modifies_mainThread s p _
  split at h
  · cases h
  · cases h
  · exact Except.ok.inj h ▸ modifies_threadlistNext s _ _

/-- What adding a thread takes: a slot, a place in the list of the process, a kernel stack, and a
place in the ring. -/
theorem schedAddThread_cases {entry : BitVec 32} {proc : Option Nat} {r : Option Nat}
    (h : schedAddThread s entry proc = .ok (r, s')) :
    (r = none ∧ (proc = none ∧ s' = s ∨ allocThreadSlot s = (none, s'))) ∨
      ∃ p t s₁ s₂ base top, proc = some p ∧ r = some t ∧ allocThreadSlot s = (some t, s₁) ∧
        linkThread s₁ p t = .ok s₂ ∧ poolGetKstack s₂ t = .ok (base, top) ∧
        runqAppend ((s₂.countThread p).modThread t fun th =>
          th.started p t entry s₂.threadBootstrap base top) t = .ok s' := by
  unfold schedAddThread at h
  split at h
  · simp only [Except.ok.injEq, Prod.mk.injEq] at h
    exact .inl ⟨h.1.symm, .inl ⟨rfl, h.2.symm⟩⟩
  rename_i p
  split at h
  · rename_i s₁ halloc
    simp only [Except.ok.injEq, Prod.mk.injEq] at h
    exact .inl ⟨h.1.symm, .inr (by rw [halloc, h.2])⟩
  · rename_i t s₁ halloc
    obtain ⟨s₂, hlink, h⟩ := bind_eq_ok.mp h
    obtain ⟨⟨base, top⟩, hstack, h⟩ := bind_eq_ok.mp h
    obtain ⟨s₃, happend, h⟩ := bind_eq_ok.mp h
    simp only [Except.ok.injEq, Prod.mk.injEq] at h
    obtain ⟨hr, rfl⟩ := h
    exact .inr ⟨p, t, s₁, s₂, base, top, rfl, hr.symm, halloc, hlink, hstack, happend⟩

/-- The parts that a new thread touches. -/
def addThreadParts : List Part :=
  [.clock, .list, .live, .inuse, .owner, .states, .wakeTick, .stack, .wait, .ring]

theorem schedAddThread_modifies {entry : BitVec 32} {proc : Option Nat} {r : Option Nat}
    (h : schedAddThread s entry proc = .ok (r, s')) : Modifies addThreadParts s s' := by
  obtain ⟨-, ⟨-, rfl⟩ | halloc⟩ | ⟨p, t, s₁, s₂, base, top, -, -, halloc, hlink, -, happend⟩ :=
    schedAddThread_cases h
  · exact Modifies.refl _ _
  · exact (allocThreadSlot_modifies halloc).mono (by decide)
  · have hstarted : ∀ u : State, Modifies
        [.inuse, .owner, .states, .wakeTick, .stack, .wait, .ring, .list] u
        (u.modThread t fun th => th.started p t entry s₂.threadBootstrap base top) := fun u =>
      .modThread fun k hk => by cases k <;> simp_all [SameThread, Thread.started]
    exact ((((allocThreadSlot_modifies halloc).trans (linkThread_modifies hlink)).trans
      (modifies_countThread s₂ p)).trans
      ((hstarted _).trans (runqAppend_modifies happend))).mono (by decide)

/-! ## Switching -/

theorem schedThreadYield_modifies : Modifies [.clock] s (schedThreadYield s) := by
  unfold schedThreadYield
  split
  · exact Modifies.refl _ _
  · exact .ofGlobal ⟨rfl, rfl, rfl, rfl, rfl⟩ rfl rfl fun k hk => by
      cases k <;> simp_all [SameGlobal]

theorem parked_modifies (esp : Nat) : Modifies [.clock, .stack, .states] s (s.parked esp) := by
  have hpending : Modifies [.clock] s { s with schedPending := false } :=
    .ofGlobal ⟨rfl, rfl, rfl, rfl, rfl⟩ rfl rfl fun k hk => by cases k <;> simp_all [SameGlobal]
  have hsaved : ∀ (u : State) (c : Nat),
      Modifies [.stack] u (u.modThread c fun th => { th with savedEsp := esp }) := fun u c =>
    .modThread fun k hk => by cases k <;> simp_all [SameThread]
  unfold State.parked
  simp only
  split
  · exact hpending.mono (by decide)
  · split
    · exact ((hpending.trans (hsaved _ _)).trans (modifies_state _ _ _)).mono (by decide)
    · exact (hpending.trans (hsaved _ _)).mono (by decide)

theorem switchTo_modifies {t esp : Nat} (h : switchTo s t = .ok (esp, s')) :
    Modifies [.current, .states, .mm] s s' := by
  have hcurrent : Modifies [.current] s { s with threadCurrent := some t } :=
    .ofGlobal ⟨rfl, rfl, rfl, rfl, rfl⟩ rfl rfl fun k hk => by cases k <;> simp_all [SameGlobal]
  unfold switchTo at h
  simp only at h
  split at h
  · cases h
  · simp only [Except.ok.injEq, Prod.mk.injEq] at h
    rw [← h.2]
    exact ((hcurrent.trans (modifies_state _ t _)).trans (modifies_mm _ _)).mono (by decide)

/-- The parts that a switch touches. -/
def switchParts : List Part := [.clock, .stack, .states, .current, .mm]

theorem schedDoSwitch_modifies {esp r : Nat} (h : schedDoSwitch s esp = .ok (r, s')) :
    Modifies switchParts s s' := by
  have hparked := parked_modifies (s := s) esp
  unfold schedDoSwitch at h
  generalize s.parked esp = s₁ at h hparked
  simp only at h
  split at h
  · simp only [Except.ok.injEq, Prod.mk.injEq] at h
    exact h.2 ▸ hparked.mono (by decide)
  obtain ⟨next, -, h⟩ := bind_eq_ok.mp h
  split at h
  · simp only [Except.ok.injEq, Prod.mk.injEq] at h
    have hcurrent : Modifies [.current] s₁ { s₁ with threadCurrent := none } :=
      .ofGlobal ⟨rfl, rfl, rfl, rfl, rfl⟩ rfl rfl fun k hk => by cases k <;> simp_all [SameGlobal]
    exact h.2 ▸ (hparked.trans hcurrent).mono (by decide)
  · exact (hparked.trans (switchTo_modifies h)).mono (by decide)

/-! ## Blocking, waking, and sleeping -/

theorem schedBlockCurrentLocked_modifies {kind : WaitKind} {target : Nat}
    (h : schedBlockCurrentLocked s kind target = .ok s') : Modifies [.states, .wait] s s' := by
  unfold schedBlockCurrentLocked at h
  split at h
  · exact Except.ok.inj h ▸ Modifies.refl _ _
  rename_i c _
  split at h
  · cases h
  · rename_i p _
    rw [← Except.ok.inj h]
    exact ((modifies_waiting s c p _ kind target).trans (modifies_waiters _ p _)).mono (by decide)

theorem schedBlockCurrent_modifies {kind : WaitKind} {target : Nat}
    (h : schedBlockCurrent s kind target = .ok s') : Modifies [.states, .wait, .clock] s s' := by
  obtain ⟨s₁, hblock, h⟩ := bind_eq_ok.mp h
  rw [← Except.ok.inj h]
  exact ((schedBlockCurrentLocked_modifies hblock).trans schedThreadYield_modifies).mono
    (by decide)

theorem unlinkWaiter_modifies {owner t : Nat} (h : unlinkWaiter s owner t = .ok s') :
    Modifies [.wait] s s' := by
  unfold unlinkWaiter at h
  split at h
  · cases h
  · exact Except.ok.inj h ▸ Modifies.refl _ _
  · exact Except.ok.inj h ▸ modifies_waiters s owner _
  · exact Except.ok.inj h ▸ modifies_waitNext s _ _

theorem leaveWaiters_modifies {t : Nat} (h : leaveWaiters s t = .ok s') :
    Modifies [.wait] s s' := by
  unfold leaveWaiters at h
  split at h
  · exact Except.ok.inj h ▸ Modifies.refl _ _
  · exact unlinkWaiter_modifies h

/-- What waking a thread can do. -/
theorem schedWakeThread_cases {t : Nat} (h : schedWakeThread s t = .ok s') :
    ((s.threads t).state = .sleeping ∧
      sleepqRemove (s.setState t .runnable) t = .ok s') ∨
    ((s.threads t).state = .blocked ∧ ∃ s₁, s' = s₁.modThread t Thread.unwait ∧
      leaveWaiters (s.setState t .runnable) t = .ok s₁) ∨
    ((s.threads t).state ≠ .sleeping ∧ (s.threads t).state ≠ .blocked ∧ s' = s) := by
  unfold schedWakeThread at h
  split at h
  · rename_i hstate
    exact .inl ⟨hstate, h⟩
  · rename_i hstate
    obtain ⟨s₁, hleave, h⟩ := bind_eq_ok.mp h
    exact .inr (.inl ⟨hstate, s₁, (Except.ok.inj h).symm, hleave⟩)
  · rename_i hsleep hblock
    exact .inr (.inr ⟨hsleep, hblock, (Except.ok.inj h).symm⟩)

theorem schedWakeThread_modifies {t : Nat} (h : schedWakeThread s t = .ok s') :
    Modifies [.states, .sleep, .wait] s s' := by
  obtain ⟨-, hremove⟩ | ⟨-, s₁, rfl, hleave⟩ | ⟨-, -, rfl⟩ := schedWakeThread_cases h
  · exact ((modifies_state s t _).trans (sleepqRemove_modifies hremove)).mono (by decide)
  · exact (((modifies_state s t _).trans (leaveWaiters_modifies hleave)).trans
      (modifies_unwait _ t)).mono
      (by decide)
  · exact Modifies.refl _ _

theorem schedThreadSleep_modifies {n : Nat} (h : schedThreadSleep s n = .ok s') :
    Modifies [.wakeTick, .states, .sleep, .clock] s s' := by
  unfold schedThreadSleep at h
  split at h
  · exact Except.ok.inj h ▸ Modifies.refl _ _
  rename_i c _
  obtain ⟨s₁, hinsert, h⟩ := bind_eq_ok.mp h
  rw [← Except.ok.inj h]
  exact (((modifies_asleep s c _).trans (sleepqInsert_modifies hinsert)).trans
    schedThreadYield_modifies).mono (by decide)

/-- What a round of the loop over due threads does. -/
theorem wakeDue_cases {fuel : Nat} {woke woke' : Bool}
    (h : wakeDue fuel s woke = .ok (woke', s')) :
    (woke' = woke ∧ s' = s ∧ ∀ t, s.threadSleepHead = some t → s.ticks < (s.threads t).wakeTick) ∨
    ∃ n t, fuel = n + 1 ∧ s.threadSleepHead = some t ∧ (s.threads t).wakeTick ≤ s.ticks ∧
      let s₁ := (s.setSleepNext t none).withSleepHead (s.sleepNext t)
      (((s₁.threads t).slotInuse = true ∧ (s₁.threads t).state = .sleeping) ∧
          wakeDue n (s₁.setState t .runnable) true = .ok (woke', s') ∨
        ¬ ((s₁.threads t).slotInuse = true ∧ (s₁.threads t).state = .sleeping) ∧
          wakeDue n s₁ woke = .ok (woke', s')) := by
  unfold wakeDue at h
  split at h
  · rename_i hnone
    simp only [Except.ok.injEq, Prod.mk.injEq] at h
    exact .inl ⟨h.1.symm, h.2.symm, by simp [hnone]⟩
  rename_i t ht
  split at h
  · rename_i hdue
    cases fuel with
    | zero => cases h
    | succ n =>
        simp only at h
        split at h
        · rename_i hsleeps
          exact .inr ⟨n, t, rfl, ht, hdue, .inl ⟨hsleeps, h⟩⟩
        · rename_i hsleeps
          exact .inr ⟨n, t, rfl, ht, hdue, .inr ⟨hsleeps, h⟩⟩
  · rename_i hdue
    simp only [Except.ok.injEq, Prod.mk.injEq] at h
    refine .inl ⟨h.1.symm, h.2.symm, fun u hu => ?_⟩
    rw [ht, Option.some.injEq] at hu
    exact hu ▸ Nat.lt_of_not_le hdue

theorem modifies_popSleeper (s : State) (t : Nat) :
    Modifies [.sleep] s ((s.setSleepNext t none).withSleepHead (s.sleepNext t)) :=
  ((modifies_sleepNext s t _).trans (modifies_sleepHead _ _)).mono (by decide)

theorem wakeDue_modifies {fuel : Nat} {woke woke' : Bool}
    (h : wakeDue fuel s woke = .ok (woke', s')) : Modifies [.sleep, .states] s s' := by
  induction fuel generalizing s woke with
  | zero =>
      obtain ⟨-, rfl, -⟩ | ⟨n, t, hn, -⟩ := wakeDue_cases h
      · exact Modifies.refl _ _
      · cases hn
  | succ fuel ih =>
      obtain ⟨-, rfl, -⟩ | ⟨n, t, hn, -, -, ⟨-, hrest⟩ | ⟨-, hrest⟩⟩ := wakeDue_cases h
      · exact Modifies.refl _ _
      · cases hn
        exact (((modifies_popSleeper s t).trans (modifies_state _ t _)).trans (ih hrest)).mono
          (by decide)
      · cases hn
        exact ((modifies_popSleeper s t).trans (ih hrest)).mono (by decide)

theorem countDown_eq (s : State) (woke : Bool) : ∃ left pending,
    s.countDown woke = { s with rrTicksLeft := left, schedPending := pending } := by
  unfold State.countDown
  simp only
  split
  · exact ⟨_, _, rfl⟩
  · split
    · exact ⟨_, _, rfl⟩
    · exact ⟨_, _, rfl⟩

theorem countDown_modifies (s : State) (woke : Bool) : Modifies [.clock] s (s.countDown woke) := by
  obtain ⟨left, pending, heq⟩ := countDown_eq s woke
  rw [heq]
  exact .ofGlobal ⟨rfl, rfl, rfl, rfl, rfl⟩ rfl rfl fun k hk => by
    cases k <;> simp_all [SameGlobal]

theorem schedOnTick_cases (h : schedOnTick s = .ok s') :
    ∃ woke s₁, wakeDue s.threadPoolCount s false = .ok (woke, s₁) ∧ s' = s₁.countDown woke := by
  obtain ⟨⟨woke, s₁⟩, hdue, h⟩ := bind_eq_ok.mp h
  exact ⟨woke, s₁, hdue, (Except.ok.inj h).symm⟩

theorem schedOnTick_modifies (h : schedOnTick s = .ok s') :
    Modifies [.sleep, .states, .clock] s s' := by
  obtain ⟨woke, s₁, hdue, rfl⟩ := schedOnTick_cases h
  exact ((wakeDue_modifies hdue).trans (countDown_modifies s₁ woke)).mono (by decide)

theorem incrementTicks_modifies (h : incrementTicks s = .ok s') :
    Modifies [.sleep, .states, .clock] s s' := by
  have hticks : Modifies [.clock] s { s with ticks := (s.ticks + 1) % 2 ^ 64 } :=
    .ofGlobal ⟨rfl, rfl, rfl, rfl, rfl⟩ rfl rfl fun k hk => by cases k <;> simp_all [SameGlobal]
  exact (hticks.trans (schedOnTick_modifies h)).mono (by decide)

/-! ## Exit -/

theorem wakeParentWaiter_modifies {child : Nat} (h : wakeParentWaiter s child = .ok s') :
    Modifies [.states, .sleep, .wait] s s' := by
  unfold wakeParentWaiter at h
  split at h
  · exact Except.ok.inj h ▸ Modifies.refl _ _
  · simp only at h
    split at h
    · cases h
    · exact Except.ok.inj h ▸ Modifies.refl _ _
    · exact schedWakeThread_modifies h

theorem unlinkExited_modifies {p t : Nat} (h : unlinkExited s p t = .ok s') :
    Modifies [.list] s s' := by
  unfold unlinkExited at h
  split at h
  · cases h
  · cases h
  · rw [← Except.ok.inj h]
    exact ((modifies_mainThread s p _).trans (modifies_threadlistNext _ t _)).mono (by decide)
  · rename_i a _
    rw [← Except.ok.inj h]
    exact ((modifies_threadlistNext s a _).trans (modifies_threadlistNext _ t _)).mono (by decide)

theorem schedProcCleanupFds_modifies {p : Nat} (h : schedProcCleanupFds s p = .ok s') :
    Modifies [.files, .mm, .io] s s' := by
  obtain ⟨io, -, h⟩ := bind_eq_ok.mp h
  have hclear : ∀ u : State, Modifies [.files] u
      (u.modProc p fun pr => { pr with fdList := none, fdCount := 0 }) := fun u =>
    .modProc fun k hk => by cases k <;> simp_all [SameProcess]
  rw [← Except.ok.inj h]
  exact ((modifies_io s io).trans (hclear _)).mono (by decide)

theorem exiting_modifies (c p : Nat) (code : BitVec 32) :
    Modifies [.stack, .states, .live] s (s.exiting c p code) := by
  have hzombie : Modifies [.stack, .states] s
      (s.modThread c fun th => { th with exitCode := code, state := .zombie }) :=
    .modThread fun k hk => by cases k <;> simp_all [SameThread]
  have hcount : ∀ u : State, Modifies [.live] u (u.modProc p fun pr =>
      { pr with liveThreadCount := (pr.liveThreadCount + (2 ^ 32 - 1)) % 2 ^ 32 }) := fun u =>
    .modProc fun k hk => by cases k <;> simp_all [SameProcess]
  exact (hzombie.trans (hcount _)).mono (by decide)

theorem ended_modifies (p : Nat) (code : BitVec 32) : Modifies [.phase] s (s.ended p code) :=
  .modProc fun k hk => by cases k <;> simp_all [SameProcess]

/-- What an exit can do: the last thread of a process ends it, another one leaves its list. -/
theorem schedThreadExit_cases {code : BitVec 32} (h : schedThreadExit s code = .ok s') :
    (s.threadCurrent = none ∧ s' = s) ∨
    ∃ c p, s.threadCurrent = some c ∧ (s.threads c).proc = some p ∧
      ((((s.exiting c p code).procs p).liveThreadCount = 0 ∧ ∃ s₁ s₂,
        wakeParentWaiter ((s.exiting c p code).ended p code) p = .ok s₁ ∧
        schedProcCleanupFds s₁ p = .ok s₂ ∧ s' = schedThreadYield s₂) ∨
      (((s.exiting c p code).procs p).liveThreadCount ≠ 0 ∧ ∃ s₁,
        unlinkExited (s.exiting c p code) p c = .ok s₁ ∧ s' = schedThreadYield s₁)) := by
  unfold schedThreadExit at h
  split at h
  · rename_i hnone
    exact .inl ⟨hnone, (Except.ok.inj h).symm⟩
  rename_i c hc
  split at h
  · cases h
  rename_i p hp
  refine .inr ⟨c, p, hc, hp, ?_⟩
  simp only at h
  split at h
  · rename_i hlast
    obtain ⟨s₁, hwake, h⟩ := bind_eq_ok.mp h
    obtain ⟨s₂, hfds, h⟩ := bind_eq_ok.mp h
    exact .inl ⟨hlast, s₁, s₂, hwake, hfds, (Except.ok.inj h).symm⟩
  · rename_i hmore
    obtain ⟨s₁, hunlink, h⟩ := bind_eq_ok.mp h
    exact .inr ⟨hmore, s₁, hunlink, (Except.ok.inj h).symm⟩

/-- The parts that an exit touches. -/
def exitParts : List Part :=
  [.stack, .states, .live, .phase, .wait, .sleep, .files, .mm, .io, .list, .clock]

theorem schedThreadExit_modifies {code : BitVec 32} (h : schedThreadExit s code = .ok s') :
    Modifies exitParts s s' := by
  obtain ⟨-, rfl⟩ | ⟨c, p, -, -, ⟨-, s₁, s₂, hwake, hfds, rfl⟩ | ⟨-, s₁, hunlink, rfl⟩⟩ :=
    schedThreadExit_cases h
  · exact Modifies.refl _ _
  · exact ((((exiting_modifies c p code).trans (ended_modifies p code)).trans
      (wakeParentWaiter_modifies hwake)).trans ((schedProcCleanupFds_modifies hfds).trans
      schedThreadYield_modifies)).mono (by decide)
  · exact (((exiting_modifies c p code).trans (unlinkExited_modifies hunlink)).trans
      schedThreadYield_modifies).mono (by decide)

/-! ## Processes -/

theorem procAddrSpace_modifies {parent : Option Nat} {context : ProcessContext} {ok : Bool}
    {space : Option Nat} (h : procAddrSpace s parent context = .ok (ok, space, s')) :
    Modifies [.mm] s s' := by
  unfold procAddrSpace at h
  split at h
  · obtain ⟨⟨m, mm⟩, -, h⟩ := bind_eq_ok.mp h
    simp only [Except.ok.injEq, Prod.mk.injEq] at h
    exact h.2.2 ▸ modifies_mm s mm
  · simp only [Except.ok.injEq, Prod.mk.injEq] at h
    exact h.2.2 ▸ Modifies.refl _ _

theorem linkChild_modifies {parent : Option Nat} {p : Nat} (h : linkChild s parent p = .ok s') :
    Modifies [.tree] s s' := by
  unfold linkChild at h
  split at h
  · exact Except.ok.inj h ▸ Modifies.refl _ _
  split at h
  · exact Except.ok.inj h ▸ modifies_firstChild s _ _
  · split at h
    · exact Except.ok.inj h ▸ modifies_nextSibling s _ _
    · cases h

theorem procStdio_modifies {parent : Option Nat} {context : ProcessContext} {p : Nat}
    (h : procStdio s parent context p = .ok s') : Modifies [.files, .mm, .io] s s' := by
  unfold procStdio at h
  split at h
  · obtain ⟨⟨fdList, fdCount, io⟩, -, h⟩ := bind_eq_ok.mp h
    have hset : ∀ u : State, Modifies [.files] u
        (u.modProc p fun pr => { pr with fdList := fdList, fdCount := fdCount }) := fun u =>
      .modProc fun k hk => by cases k <;> simp_all [SameProcess]
    rw [← Except.ok.inj h]
    exact ((modifies_io s io).trans (hset _)).mono (by decide)
  · exact Except.ok.inj h ▸ Modifies.refl _ _

/-- What allocating a process can do. -/
theorem procAlloc_cases {parent : Option Nat} {context : ProcessContext} {r : Option Nat}
    (h : procAlloc s parent context = .ok (r, s')) :
    (r = none ∧ allocProcessSlot s = none ∧ s' = s) ∨
    ∃ p ok space s₁, allocProcessSlot s = some p ∧
      procAddrSpace (s.reserved parent (inherited s parent context).2 p) parent
        (inherited s parent context).2 = .ok (ok, space, s₁) ∧
      ((ok = false ∧ r = none ∧ s' = (s₁.setAddrSpace p space).modProc p fun pr =>
          { pr with slotInuse := false }) ∨
      (ok = true ∧ r = some p ∧ ∃ s₂,
        linkChild (s₁.setAddrSpace p space) parent p = .ok s₂ ∧
        procStdio s₂ parent (inherited s parent context).2 p = .ok s')) := by
  unfold procAlloc at h
  split at h
  · rename_i hnone
    simp only [Except.ok.injEq, Prod.mk.injEq] at h
    exact .inl ⟨h.1.symm, hnone, h.2.symm⟩
  rename_i p hp
  obtain ⟨⟨ok, space, s₁⟩, hspace, h⟩ := bind_eq_ok.mp h
  refine .inr ⟨p, ok, space, s₁, hp, hspace, ?_⟩
  simp only at h
  split at h
  · rename_i hok
    simp only [Except.ok.injEq, Prod.mk.injEq] at h
    exact .inl ⟨hok, h.1.symm, h.2.symm⟩
  · rename_i hok
    obtain ⟨s₂, hlink, h⟩ := bind_eq_ok.mp h
    obtain ⟨s₃, hstdio, h⟩ := bind_eq_ok.mp h
    simp only [Except.ok.injEq, Prod.mk.injEq] at h
    obtain ⟨hr, rfl⟩ := h
    exact .inr ⟨by simpa using hok, hr.symm, s₂, hlink, hstdio⟩

/-- The parts that a new process touches. -/
def procAllocParts : List Part :=
  [.slot, .ident, .phase, .live, .files, .tree, .list, .wait, .space, .mm, .io]

theorem reserved_modifies (parent : Option Nat) (context : ProcessContext) (p : Nat) :
    Modifies [.slot, .ident, .phase, .live, .files, .tree, .list, .wait] s
      (s.reserved parent context p) :=
  .modProc fun k hk => by cases k <;> simp_all [SameProcess, Process.started]

theorem procAlloc_modifies {parent : Option Nat} {context : ProcessContext} {r : Option Nat}
    (h : procAlloc s parent context = .ok (r, s')) : Modifies procAllocParts s s' := by
  have hslot : ∀ (u : State) (p : Nat), Modifies [.slot] u
      (u.modProc p fun pr => { pr with slotInuse := false }) := fun u p =>
    .modProc fun k hk => by cases k <;> simp_all [SameProcess]
  obtain ⟨-, -, rfl⟩ | ⟨p, ok, space, s₁, -, hspace, hrest⟩ := procAlloc_cases h
  · exact Modifies.refl _ _
  have hfirst := ((reserved_modifies (s := s) parent _ p).trans
    (procAddrSpace_modifies hspace)).trans (modifies_addrSpace s₁ p space)
  obtain ⟨-, -, rfl⟩ | ⟨-, -, s₂, hlink, hstdio⟩ := hrest
  · exact (hfirst.trans (hslot _ p)).mono (by decide)
  · exact (hfirst.trans ((linkChild_modifies hlink).trans (procStdio_modifies hstdio))).mono
      (by decide)

theorem unlinkChild_modifies {p : Nat} (h : unlinkChild s p = .ok s') : Modifies [.tree] s s' := by
  unfold unlinkChild at h
  split at h
  · exact Except.ok.inj h ▸ Modifies.refl _ _
  split at h
  · cases h
  · exact Except.ok.inj h ▸ Modifies.refl _ _
  · exact Except.ok.inj h ▸ modifies_firstChild s _ _
  · exact Except.ok.inj h ▸ modifies_nextSibling s _ _

/-- What freeing a process does. -/
theorem procFree_cases {p : Nat} (h : procFree s p = .ok s') :
    ∃ s₁ mm, unlinkChild s p = .ok s₁ ∧ Mm.mmDestroy s₁.mm (s₁.procs p).addrSpace = .ok mm ∧
      s' = (s₁.withMm mm).modProc p Process.freed := by
  obtain ⟨s₁, hunlink, h⟩ := bind_eq_ok.mp h
  obtain ⟨mm, hdestroy, h⟩ := bind_eq_ok.mp h
  exact ⟨s₁, mm, hunlink, hdestroy, (Except.ok.inj h).symm⟩

/-- The parts that the end of a process touches. -/
def procFreeParts : List Part := [.tree, .mm, .space, .slot, .live, .phase, .list, .wait]

theorem procFree_modifies {p : Nat} (h : procFree s p = .ok s') :
    Modifies procFreeParts s s' := by
  obtain ⟨s₁, mm, hunlink, -, rfl⟩ := procFree_cases h
  have hfreed : ∀ u : State, Modifies [.space, .slot, .live, .phase, .list, .wait, .tree] u
      (u.modProc p Process.freed) := fun u =>
    .modProc fun k hk => by cases k <;> simp_all [SameProcess, Process.freed]
  exact (((unlinkChild_modifies hunlink).trans (modifies_mm s₁ mm)).trans (hfreed _)).mono
    (by decide)

/-! ## Reaping -/

theorem leaveThreadList_modifies {p t : Nat} (h : leaveThreadList s p t = .ok s') :
    Modifies [.list] s s' := by
  unfold leaveThreadList at h
  split at h
  · cases h
  · exact Except.ok.inj h ▸ Modifies.refl _ _
  · exact Except.ok.inj h ▸ modifies_threadList s p _
  · exact Except.ok.inj h ▸ modifies_threadlistNext s _ _

theorem unlinkThread_modifies {t : Nat} (h : unlinkThread s t = .ok s') :
    Modifies [.list] s s' := by
  unfold unlinkThread at h
  split at h
  · exact Except.ok.inj h ▸ Modifies.refl _ _
  rename_i p _
  obtain ⟨s₁, hleave, h⟩ := bind_eq_ok.mp h
  have hmain : Modifies [.list] s₁
      (s₁.modProc p fun pr => { pr with mainThread := pr.threadList }) :=
    .modProc fun k hk => by cases k <;> simp_all [SameProcess]
  split at h
  · exact Except.ok.inj h ▸ ((leaveThreadList_modifies hleave).trans hmain).mono (by decide)
  · exact Except.ok.inj h ▸ leaveThreadList_modifies hleave

/-- What reaping a thread does. -/
theorem threadReap_cases {t : Nat} (h : threadReap s t = .ok s') :
    ∃ s₁ s₂ s₃, threadUnlinkFromRunq s t = .ok s₁ ∧ sleepqRemove s₁ t = .ok s₂ ∧
      unlinkThread s₂ t = .ok s₃ ∧ s' = s₃.modThread t Thread.freed := by
  obtain ⟨s₁, hring, h⟩ := bind_eq_ok.mp h
  obtain ⟨s₂, hsleep, h⟩ := bind_eq_ok.mp h
  obtain ⟨s₃, hlist, h⟩ := bind_eq_ok.mp h
  exact ⟨s₁, s₂, s₃, hring, hsleep, hlist, (Except.ok.inj h).symm⟩

/-- The parts that the end of a thread touches. -/
def threadReapParts : List Part :=
  [.ring, .sleep, .list, .states, .inuse, .stack, .owner, .wait]

theorem threadReap_modifies {t : Nat} (h : threadReap s t = .ok s') :
    Modifies threadReapParts s s' := by
  obtain ⟨s₁, s₂, s₃, hring, hsleep, hlist, rfl⟩ := threadReap_cases h
  have hfreed : Modifies threadReapParts s₃ (s₃.modThread t Thread.freed) :=
    .modThread fun k hk => by
      cases k <;> simp_all [SameThread, Thread.freed, threadReapParts]
  exact (((threadUnlinkFromRunq_modifies hring).trans (sleepqRemove_modifies hsleep)).trans
    ((unlinkThread_modifies hlist).trans hfreed)).mono (by decide)

theorem reapThreads_modifies {fuel : Nat} {head : Option Nat}
    (h : reapThreads fuel head s = .ok s') : Modifies threadReapParts s s' := by
  induction fuel generalizing head s with
  | zero =>
      cases head with
      | none => exact Except.ok.inj h ▸ Modifies.refl _ _
      | some t => cases h
  | succ fuel ih =>
      cases head with
      | none => exact Except.ok.inj h ▸ Modifies.refl _ _
      | some t =>
          obtain ⟨s₁, hreap, h⟩ := bind_eq_ok.mp h
          exact ((threadReap_modifies hreap).trans (ih h)).mono (by decide)

/-- What reaping a child can do. -/
theorem procReapChild_cases {parent child : Nat} {r : ReapResult}
    (h : procReapChild s parent child = .ok (r, s')) :
    (r ≠ .success ∧ s' = s ∧
      ((s.procs child).parent ≠ some parent ∨ (s.procs child).state ≠ .zombie)) ∨
    (r = .success ∧ (s.procs child).parent = some parent ∧ (s.procs child).state = .zombie ∧
      ∃ s₁, reapThreads s.threadPoolCount (s.procs child).threadList s = .ok s₁ ∧
        procFree s₁ child = .ok s') := by
  unfold procReapChild at h
  split at h
  · rename_i hparent
    simp only [Except.ok.injEq, Prod.mk.injEq] at h
    exact .inl ⟨by simp [← h.1], h.2.symm, .inl hparent⟩
  split at h
  · rename_i hstate
    simp only [Except.ok.injEq, Prod.mk.injEq] at h
    exact .inl ⟨by simp [← h.1], h.2.symm, .inr hstate⟩
  · rename_i hparent hstate
    obtain ⟨s₁, hthreads, h⟩ := bind_eq_ok.mp h
    obtain ⟨s₂, hfree, h⟩ := bind_eq_ok.mp h
    simp only [Except.ok.injEq, Prod.mk.injEq] at h
    obtain ⟨hr, rfl⟩ := h
    exact .inr ⟨hr.symm, not_not.mp hparent, not_not.mp hstate, s₁, hthreads, hfree⟩

/-- The parts that the end of a process and its threads touches. -/
def reapParts : List Part := threadReapParts ++ procFreeParts

theorem procReapChild_modifies {parent child : Nat} {r : ReapResult}
    (h : procReapChild s parent child = .ok (r, s')) : Modifies reapParts s s' := by
  obtain ⟨-, rfl, -⟩ | ⟨-, -, -, s₁, hthreads, hfree⟩ := procReapChild_cases h
  · exact Modifies.refl _ _
  · exact (reapThreads_modifies hthreads).trans (procFree_modifies hfree)

/-! ## Waiting for children -/

/-- The pid that a filter stands for. -/
def matchPid (pidFilter : BitVec 32) : Nat :=
  if pidFilter.toInt = -1 then pidAny else pidFilter.toNat

/-- What a thread that waits for such a child blocks on. -/
def waitKindFor (pid : Nat) : WaitKind := if pid = pidAny then .any else .child

/-- What a round of `waitpid` can do: refuse the filter, reap a child, find that there is none, or
block. -/
theorem procWaitpid_cases {parent : Nat} {filter : BitVec 32} {r : WaitResult}
    (h : procWaitpid s parent filter = .ok (r, s')) :
    (filter.toInt < -1 ∧ r = .error .inval ∧ s' = s) ∨
    (¬ filter.toInt < -1 ∧ ∃ some? zombie, hasMatchingChild s parent (matchPid filter) = .ok some? ∧
      procFindZombieChild s parent (matchPid filter) = .ok zombie ∧
      ((∃ z rr, zombie = some z ∧ procReapChild s parent z = .ok (rr, s') ∧
          (rr = .success ∧ r = .reaped (s.procs z).pid (s.procs z).exitCode ∨
            rr ≠ .success ∧ r = .error .child)) ∨
        (zombie = none ∧ some? = false ∧ r = .error .child ∧ s' = s) ∨
        (zombie = none ∧ some? = true ∧ r = .blocked ∧ ∃ s₁,
          schedBlockCurrentLocked s (waitKindFor (matchPid filter)) (matchPid filter) = .ok s₁ ∧
          s' = schedThreadYield s₁))) := by
  unfold procWaitpid at h
  change (if filter.toInt < -1 then _ else _) = _ at h
  split at h
  · rename_i hfilter
    simp only [Except.ok.injEq, Prod.mk.injEq] at h
    exact .inl ⟨hfilter, h.1.symm, h.2.symm⟩
  rename_i hfilter
  obtain ⟨some?, hsome, h⟩ := bind_eq_ok.mp h
  obtain ⟨zombie, hzombie, h⟩ := bind_eq_ok.mp h
  refine .inr ⟨hfilter, some?, zombie, hsome, hzombie, ?_⟩
  split at h
  · rename_i z
    obtain ⟨⟨rr, s₁⟩, hreap, h⟩ := bind_eq_ok.mp h
    simp only at h
    split at h
    · rename_i hrr
      simp only [Except.ok.injEq, Prod.mk.injEq] at h
      exact .inl ⟨z, rr, rfl, h.2 ▸ hreap, .inr ⟨hrr, h.1.symm⟩⟩
    · rename_i hrr
      simp only [Except.ok.injEq, Prod.mk.injEq] at h
      exact .inl ⟨z, rr, rfl, h.2 ▸ hreap, .inl ⟨not_not.mp hrr, h.1.symm⟩⟩
  · split at h
    · rename_i hnone
      simp only [Except.ok.injEq, Prod.mk.injEq] at h
      exact .inr (.inl ⟨rfl, hnone, h.1.symm, h.2.symm⟩)
    · rename_i hnone
      obtain ⟨s₁, hblock, h⟩ := bind_eq_ok.mp h
      simp only [Except.ok.injEq, Prod.mk.injEq] at h
      exact .inr (.inr ⟨rfl, by simpa using hnone, h.1.symm, s₁, hblock, h.2.symm⟩)

/-- The parts that a round of `waitpid` touches. -/
def waitpidParts : List Part := reapParts ++ [.clock]

theorem procWaitpid_modifies {parent : Nat} {filter : BitVec 32} {r : WaitResult}
    (h : procWaitpid s parent filter = .ok (r, s')) : Modifies waitpidParts s s' := by
  obtain ⟨-, -, rfl⟩ | ⟨-, _, _, -, -, ⟨z, rr, -, hreap, -⟩ | ⟨-, -, -, rfl⟩ |
    ⟨-, -, -, s₁, hblock, rfl⟩⟩ := procWaitpid_cases h
  · exact Modifies.refl _ _
  · exact (procReapChild_modifies hreap).mono (by decide)
  · exact Modifies.refl _ _
  · exact ((schedBlockCurrentLocked_modifies hblock).trans schedThreadYield_modifies).mono
      (by decide)

/-! ## Fork -/

theorem inheritFds_modifies (parent child : Nat) (fdList : Option Nat) :
    Modifies [.files] s (s.inheritFds parent child fdList) := by
  have hlist : Modifies [.files] s (s.modProc child fun pr => { pr with fdList := fdList }) :=
    .modProc fun k hk => by cases k <;> simp_all [SameProcess]
  have hcount : ∀ (u : State) (n : Nat), Modifies [.files] u
      (u.modProc child fun pr => { pr with fdCount := n }) := fun u n =>
    .modProc fun k hk => by cases k <;> simp_all [SameProcess]
  exact (hlist.trans (hcount _ _)).mono (by decide)

/-- What cloning the current thread can do. -/
theorem schedCloneFork_cases {parent child : Nat} {tf tf' : TrapFrame} {ok : Bool}
    (h : schedCloneFork s parent child tf = .ok (ok, tf', s')) :
    (s.threadCurrent = none ∧ ok = false ∧ tf' = tf ∧ s' = s) ∨
    ∃ c thread s₁, s.threadCurrent = some c ∧
      schedAddThread s (s.threads c).entry (some child) = .ok (thread, s₁) ∧
      ((thread = none ∧ ok = false ∧ tf' = tf ∧ s' = s₁) ∨
      ∃ t fdList io, thread = some t ∧
        Io.fdeForkCopy s₁.io (s₁.procs parent).fdList = .ok (fdList, io) ∧
        let s₂ := { s₁ with io := io }.inheritFds parent child fdList
        (((s₂.procs child).fdList = none ∧ (s₂.procs parent).fdList ≠ none ∧
            threadReap s₂ t = .ok s' ∧ ok = false ∧ tf' = tf) ∨
          (¬ ((s₂.procs child).fdList = none ∧ (s₂.procs parent).fdList ≠ none) ∧ ok = true ∧
            s' = s₂.withFrame t { tf with eax := 0 } ∧
            tf' = { tf with eax := BitVec.ofNat 32 (s'.procs child).pid }))) := by
  unfold schedCloneFork at h
  split at h
  · rename_i hnone
    simp only [Except.ok.injEq, Prod.mk.injEq] at h
    exact .inl ⟨hnone, h.1.symm, h.2.1.symm, h.2.2.symm⟩
  rename_i c hc
  obtain ⟨⟨thread, s₁⟩, hadd, h⟩ := bind_eq_ok.mp h
  refine .inr ⟨c, thread, s₁, hc, hadd, ?_⟩
  simp only at h
  split at h
  · simp only [Except.ok.injEq, Prod.mk.injEq] at h
    exact .inl ⟨rfl, h.1.symm, h.2.1.symm, h.2.2.symm⟩
  rename_i t
  obtain ⟨⟨fdList, io⟩, hcopy, h⟩ := bind_eq_ok.mp h
  refine .inr ⟨t, fdList, io, rfl, hcopy, ?_⟩
  simp only at h
  split at h
  · rename_i hfail
    obtain ⟨s₂, hreap, h⟩ := bind_eq_ok.mp h
    simp only [Except.ok.injEq, Prod.mk.injEq] at h
    exact .inl ⟨hfail.1, hfail.2, h.2.2 ▸ hreap, h.1.symm, h.2.1.symm⟩
  · rename_i hdone
    simp only [Except.ok.injEq, Prod.mk.injEq] at h
    exact .inr ⟨hdone, h.1.symm, h.2.2.symm, by rw [← h.2.1, ← h.2.2]⟩

/-- The parts that cloning a thread touches. -/
def cloneParts : List Part := addThreadParts ++ [.files, .mm, .io, .sleep]

theorem schedCloneFork_modifies {parent child : Nat} {tf tf' : TrapFrame} {ok : Bool}
    (h : schedCloneFork s parent child tf = .ok (ok, tf', s')) : Modifies cloneParts s s' := by
  obtain ⟨-, -, -, rfl⟩ | ⟨c, thread, s₁, -, hadd, ⟨-, -, -, rfl⟩ | ⟨t, fdList, io, -, -, hrest⟩⟩ :=
    schedCloneFork_cases h
  · exact Modifies.refl _ _
  · exact (schedAddThread_modifies hadd).mono (by decide)
  · have hfds := ((schedAddThread_modifies hadd).trans (modifies_io s₁ io)).trans
      (inheritFds_modifies parent child fdList)
    obtain ⟨-, -, hreap, -, -⟩ | ⟨-, -, rfl, -⟩ := hrest
    · exact (hfds.trans (threadReap_modifies hreap)).mono (by decide)
    · exact (hfds.trans (modifies_withFrame _ t _)).mono (by decide)

/-- What a fork can do. -/
theorem fork_cases {tf tf' : TrapFrame} {r : Int} (h : fork s tf = .ok (r, tf', s')) :
    (schedCurrentProcess s = none ∧ r = -Errno.srch.code ∧ tf' = tf ∧ s' = s) ∨
    ∃ parent child s₁, schedCurrentProcess s = some parent ∧
      procAlloc s (some parent) (s.procs parent).context = .ok (child, s₁) ∧
      ((child = none ∧ r = -Errno.again.code ∧ tf' = tf ∧ s' = s₁) ∨
      ∃ c tf₁ s₂, child = some c ∧
        ((schedCloneFork s₁ parent c tf = .ok (false, tf₁, s₂) ∧ procFree s₂ c = .ok s' ∧
            r = -Errno.again.code ∧ tf' = tf₁) ∨
          (schedCloneFork s₁ parent c tf = .ok (true, tf', s') ∧ r = (s'.procs c).pid))) := by
  unfold fork at h
  split at h
  · rename_i hnone
    simp only [Except.ok.injEq, Prod.mk.injEq] at h
    exact .inl ⟨hnone, h.1.symm, h.2.1.symm, h.2.2.symm⟩
  rename_i parent hparent
  obtain ⟨⟨child, s₁⟩, halloc, h⟩ := bind_eq_ok.mp h
  refine .inr ⟨parent, child, s₁, hparent, halloc, ?_⟩
  simp only at h
  split at h
  · simp only [Except.ok.injEq, Prod.mk.injEq] at h
    exact .inl ⟨rfl, h.1.symm, h.2.1.symm, h.2.2.symm⟩
  rename_i c
  obtain ⟨⟨cloned, tf₁, s₂⟩, hclone, h⟩ := bind_eq_ok.mp h
  refine .inr ⟨c, tf₁, s₂, rfl, ?_⟩
  simp only at h
  split at h
  · rename_i hno
    subst hno
    obtain ⟨s₃, hfree, h⟩ := bind_eq_ok.mp h
    simp only [Except.ok.injEq, Prod.mk.injEq] at h
    exact .inl ⟨hclone, h.2.2 ▸ hfree, h.1.symm, h.2.1.symm⟩
  · rename_i hyes
    have hyes : cloned = true := by simpa using hyes
    subst hyes
    simp only [Except.ok.injEq, Prod.mk.injEq] at h
    obtain ⟨hr, rfl, rfl⟩ := h
    exact .inr ⟨hclone, hr.symm⟩

theorem fork_modifies {tf tf' : TrapFrame} {r : Int} (h : fork s tf = .ok (r, tf', s')) :
    Modifies (procAllocParts ++ (cloneParts ++ procFreeParts)) s s' := by
  obtain ⟨-, -, -, rfl⟩ | ⟨parent, child, s₁, -, halloc, ⟨-, -, -, rfl⟩ | ⟨c, tf₁, s₂, -,
    ⟨hclone, hfree, -, -⟩ | ⟨hclone, -⟩⟩⟩ := fork_cases h
  · exact Modifies.refl _ _
  · exact (procAlloc_modifies halloc).mono (by decide)
  · exact (procAlloc_modifies halloc).trans
      ((schedCloneFork_modifies hclone).trans (procFree_modifies hfree))
  · exact ((procAlloc_modifies halloc).trans (schedCloneFork_modifies hclone)).mono (by decide)

end Functions

end Unidos.Sched
