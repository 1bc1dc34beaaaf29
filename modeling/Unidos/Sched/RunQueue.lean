import Unidos.Sched.Ring
import Unidos.Sched.Runs

/-!
# The run queue as a state machine

`QueueInv` is what the scheduler keeps as long as the idle thread is never reaped and never gives
up the processor: the run ring holds the threads in use, only the current thread runs, and the idle
thread can always run. A switch then always finds a thread (`schedDoSwitch_spec`).
`run_queue` says so for whole runs.
-/

namespace Unidos.Sched

open Lib

/-- What holds between any two operations on the run queue. -/
structure QueueInv (s : State) : Prop where
  ring : ∃ l, RunRing s l
  running : ∀ t, (s.threads t).state = .running → s.threadCurrent = some t
  unused : ∀ t, (s.threads t).slotInuse = false → (s.threads t).state = .unused
  owner : ∀ t, (s.threads t).slotInuse = true → (s.threads t).proc ≠ none
  current : ∀ c, s.threadCurrent = some c → (s.threads c).slotInuse = true
  idle_inuse : (s.threads idleThread).slotInuse = true
  idle_ready : (s.threads idleThread).state = .runnable ∨ (s.threads idleThread).state = .running

namespace QueueInv

variable {s s' : State} {parts : List Part}

/-- Waking threads up keeps the invariant. -/
theorem woken (h : QueueInv s) (hm : Modifies parts s s') (hring : .ring ∉ parts)
    (hinuse : .inuse ∉ parts) (howner : .owner ∉ parts) (hcurrent : .current ∉ parts)
    (hwoken : Woken s s') : QueueInv s' := by
  obtain ⟨l, hl⟩ := h.ring
  refine ⟨⟨l, hl.congr hm hring hinuse⟩, fun t ht => ?_, fun t ht => ?_, fun t ht => ?_,
    fun c hc => ?_, ?_, ?_⟩
  · rw [hm.threadCurrent hcurrent]
    cases hwoken t with
    | inl heq => exact h.running t (heq ▸ ht)
    | inr hw => simp [hw.2] at ht
  · rw [hm.inuse hinuse] at ht
    cases hwoken t with
    | inl heq => exact heq.trans (h.unused t ht)
    | inr hw => simp [h.unused t ht] at hw
  · rw [hm.inuse hinuse] at ht
    rw [hm.owner howner]
    exact h.owner t ht
  · rw [hm.threadCurrent hcurrent] at hc
    rw [hm.inuse hinuse]
    exact h.current c hc
  · rw [hm.inuse hinuse]
    exact h.idle_inuse
  · cases hwoken idleThread with
    | inl heq => rw [heq]; exact h.idle_ready
    | inr hw => exact .inl hw.2

/-- The current thread gives up the processor. -/
theorem stopped (h : QueueInv s) (hm : Modifies parts s s') (hring : .ring ∉ parts)
    (hinuse : .inuse ∉ parts) (howner : .owner ∉ parts) (hcurrent : .current ∉ parts) {c : Nat}
    (hc : s.threadCurrent = some c) (hidle : c ≠ idleThread)
    (hstate : (s'.threads c).state ≠ .running)
    (hother : ∀ t, t ≠ c → (s'.threads t).state = (s.threads t).state) : QueueInv s' := by
  obtain ⟨l, hl⟩ := h.ring
  refine ⟨⟨l, hl.congr hm hring hinuse⟩, fun t ht => ?_, fun t ht => ?_, fun t ht => ?_,
    fun u hu => ?_, ?_, ?_⟩
  · rw [hm.threadCurrent hcurrent]
    by_cases htc : t = c
    · exact absurd (htc ▸ ht) hstate
    · exact h.running t (hother t htc ▸ ht)
  · rw [hm.inuse hinuse] at ht
    have htc : t ≠ c := by
      intro heq
      rw [heq, h.current c hc] at ht
      cases ht
    rw [hother t htc]
    exact h.unused t ht
  · rw [hm.inuse hinuse] at ht
    rw [hm.owner howner]
    exact h.owner t ht
  · rw [hm.threadCurrent hcurrent] at hu
    rw [hm.inuse hinuse]
    exact h.current u hu
  · rw [hm.inuse hinuse]
    exact h.idle_inuse
  · rw [hother idleThread hidle.symm]
    exact h.idle_ready

/-- The threads in use are all on the ring, so every walk over it ends. -/
theorem walks (h : QueueInv s) :
    (∀ t, ∃ s', threadUnlinkFromRunq s t = .ok s') ∧
      (∀ t, (s.threads t).slotInuse = false → ∃ s', runqAppend s t = .ok s') ∧
      ∀ start : Option Nat, (∀ b ∈ start, (s.threads b).slotInuse = true) →
        ∃ r, nextRunnable s start = .ok r := by
  obtain ⟨l, hl⟩ := h.ring
  refine ⟨fun t => ?_, fun t ht => ?_, fun start hstart => ?_⟩
  · by_cases ht : t ∈ l
    · obtain ⟨s', hs', -⟩ := threadUnlinkFromRunq_spec hl.loop hl.length_le ht
      exact ⟨s', hs'⟩
    · exact ⟨s, threadUnlinkFromRunq_absent hl.loop hl.length_le ht⟩
  · have hout : t ∉ l := fun hmem => by simp [(hl.mem t).mp hmem] at ht
    obtain ⟨s', hs', -⟩ := runqAppend_spec hl.loop hl.length_le hout
    exact ⟨s', hs'⟩
  · obtain ⟨r, hr, -⟩ := nextRunnable_spec hl fun b hb => (hl.mem b).mpr (hstart b hb)
    exact ⟨r, hr⟩

end QueueInv

/-! ## Switching -/

section Switch

variable {s s' : State}

/-- A switch resumes a runnable thread, and keeps the invariant. -/
theorem schedDoSwitch_spec (h : QueueInv s) (esp : Nat) :
    ∃ t s', schedDoSwitch s esp = .ok (((s.parked esp).threads t).savedEsp, s') ∧
      ((s.parked esp).threads t).state = .runnable ∧ s'.threadCurrent = some t ∧ QueueInv s' := by
  obtain ⟨l, hl⟩ := h.ring
  have hparked := parked_modifies (s := s) esp
  have hstate := parked_state (s := s) esp
  have hl₁ := hl.congr hparked (by decide) (by decide)
  have hcurrent := hparked.threadCurrent (by decide)
  have hidle : ((s.parked esp).threads idleThread).state = .runnable := by
    rw [hstate]
    cases h.idle_ready with
    | inl hready => simp [hready]
    | inr hrun => rw [if_pos ⟨h.running _ hrun, hrun⟩]
  unfold schedDoSwitch
  generalize s.parked esp = s₁ at hparked hstate hl₁ hcurrent hidle ⊢
  have hmem : idleThread ∈ l := (hl.mem _).mpr h.idle_inuse
  simp only
  cases hhead : s₁.threadHead with
  | none =>
      have hnil : l = [] := by
        have hloop := hl₁.loop
        rwa [hhead] at hloop
      simp [hnil] at hmem
  | some hd =>
      have hring : Ring s₁.rqNext hd l := by
        have hloop := hl₁.loop
        rwa [hhead] at hloop
      have hstart : ∀ b ∈ s₁.switchStart hd, b ∈ l := by
        unfold State.switchStart
        cases hc : s₁.threadCurrent with
        | none => simpa using hring.head_mem
        | some c =>
            have hcmem : c ∈ l := (hl.mem c).mpr (h.current c (hcurrent ▸ hc))
            obtain ⟨b, hb, hbmem⟩ := hring.next_mem hcmem
            simpa [hb] using hbmem
      obtain ⟨r, hr, hsome, hnone⟩ := nextRunnable_spec hl₁ hstart
      simp only [hr]
      cases r with
      | none => exact absurd hidle (hnone rfl _ hmem)
      | some t =>
          obtain ⟨htl, hrunnable⟩ := hsome t rfl
          have hinuse : (s.threads t).slotInuse = true := (hl.mem t).mp htl
          obtain ⟨p, hp⟩ := Option.ne_none_iff_exists'.mp (h.owner t hinuse)
          rw [← hparked.owner (by decide)] at hp
          obtain ⟨s', hswitch, hcur, -, hstates⟩ := switchTo_spec hp
          have hm := hparked.trans (switchTo_modifies hswitch)
          refine ⟨t, s', hswitch, hrunnable, hcur, ?_⟩
          refine ⟨⟨l, hl.congr hm (by decide) (by decide)⟩, fun u hu => ?_, fun u hu => ?_,
            fun u hu => ?_, fun c hc => ?_, ?_, ?_⟩
          · rw [hstates u] at hu
            by_cases hut : u = t
            · rw [hut, hcur]
            · -- the thread that ran before is no longer running
              rw [if_neg hut, hstate u] at hu
              split at hu
              · cases hu
              · rename_i hno
                exact absurd ⟨h.running u hu, hu⟩ hno
          · rw [hm.inuse (by decide)] at hu
            have hut : u ≠ t := by
              intro heq
              rw [heq, hinuse] at hu
              cases hu
            rw [hstates u, if_neg hut, hstate u, h.unused u hu]
            simp
          · rw [hm.inuse (by decide)] at hu
            rw [hm.owner (by decide)]
            exact h.owner u hu
          · rw [hcur, Option.some.injEq] at hc
            rw [hm.inuse (by decide), ← hc]
            exact hinuse
          · rw [hm.inuse (by decide)]
            exact h.idle_inuse
          · rw [hstates]
            split
            · exact .inr rfl
            · exact .inl hidle

end Switch

/-! ## Runs -/

/-- The operations of the run queue. The idle thread neither gives up the processor nor is it
reaped, and no current thread is reaped. -/
def QueueOp (s : State) : Op → Prop
  | .procAlloc _ _ | .addThread _ _ | .switch _ | .yield | .tick | .wake _ => True
  | .sleep _ | .block _ _ | .exit _ => ∃ c, s.threadCurrent = some c ∧ c ≠ idleThread
  | .reapThread t => s.threadCurrent ≠ some t ∧ t ≠ idleThread
  | _ => False

section Ops

variable {s s' : State}

theorem schedAddThread_queue (h : QueueInv s) {entry : BitVec 32} {proc r : Option Nat}
    (hadd : schedAddThread s entry proc = .ok (r, s')) : QueueInv s' := by
  obtain ⟨l, hl⟩ := h.ring
  have hm := schedAddThread_modifies hadd
  have hcur := hm.threadCurrent (by decide)
  have hcase := schedAddThread_state hadd
  refine ⟨⟨_, schedAddThread_ring hl hadd⟩, fun t ht => ?_, fun t ht => ?_, fun t ht => ?_,
    fun c hc => ?_, ?_, ?_⟩
  · rw [hcur]
    obtain ⟨-, -, hstate, -⟩ | ⟨-, hstate, -⟩ := hcase t
    · rw [hstate] at ht
      cases ht
    · exact h.running t (hstate ▸ ht)
  · obtain ⟨-, -, -, -, -, hinuse⟩ | ⟨-, hstate, -, hinuse⟩ := hcase t
    · rw [hinuse] at ht
      cases ht
    · rw [hstate]
      exact h.unused t (hinuse ▸ ht)
  · obtain ⟨-, -, -, hproc, hne, -⟩ | ⟨-, -, hproc, hinuse⟩ := hcase t
    · rw [hproc]
      exact hne
    · rw [hproc]
      exact h.owner t (hinuse ▸ ht)
  · rw [hcur] at hc
    obtain ⟨-, -, -, -, -, hinuse⟩ | ⟨-, -, -, hinuse⟩ := hcase c
    · exact hinuse
    · rw [hinuse]
      exact h.current c hc
  · obtain ⟨-, -, -, -, -, hinuse⟩ | ⟨-, -, -, hinuse⟩ := hcase idleThread
    · exact hinuse
    · rw [hinuse]
      exact h.idle_inuse
  · obtain ⟨-, -, hstate, -⟩ | ⟨-, hstate, -⟩ := hcase idleThread
    · exact .inl hstate
    · rw [hstate]
      exact h.idle_ready

theorem threadReap_queue (h : QueueInv s) {t : Nat} (hcurrent : s.threadCurrent ≠ some t)
    (hidle : t ≠ idleThread) (hreap : threadReap s t = .ok s') : QueueInv s' := by
  obtain ⟨l, hl⟩ := h.ring
  have hm := threadReap_modifies hreap
  have hcur := hm.threadCurrent (by decide)
  obtain ⟨⟨hself, hselfState⟩, hother⟩ := threadReap_state hreap
  have hcases : ∀ u, (s'.threads u).slotInuse = true → u ≠ t := by
    intro u hu heq
    rw [heq, hself] at hu
    cases hu
  refine ⟨⟨_, threadReap_ring hl hreap⟩, fun u hu => ?_, fun u hu => ?_, fun u hu => ?_,
    fun c hc => ?_, ?_, ?_⟩
  · rw [hcur]
    by_cases hut : u = t
    · rw [hut, hselfState] at hu
      cases hu
    · exact h.running u ((hother u hut).2.1 ▸ hu)
  · by_cases hut : u = t
    · rw [hut]
      exact hselfState
    · rw [(hother u hut).2.1]
      exact h.unused u ((hother u hut).1 ▸ hu)
  · have hut := hcases u hu
    rw [(hother u hut).2.2]
    exact h.owner u ((hother u hut).1 ▸ hu)
  · rw [hcur] at hc
    have hct : c ≠ t := fun heq => hcurrent (heq ▸ hc)
    rw [(hother c hct).1]
    exact h.current c hc
  · rw [(hother idleThread hidle.symm).1]
    exact h.idle_inuse
  · rw [(hother idleThread hidle.symm).2.1]
    exact h.idle_ready

theorem schedThreadSleep_queue (h : QueueInv s) {c n : Nat} (hc : s.threadCurrent = some c)
    (hidle : c ≠ idleThread) (hsleep : schedThreadSleep s n = .ok s') : QueueInv s' := by
  have hm := schedThreadSleep_modifies hsleep
  obtain ⟨hnone, -⟩ | ⟨d, s₁, hd, hinsert, rfl⟩ := schedThreadSleep_cases hsleep
  · rw [hc] at hnone
    cases hnone
  rw [hc, Option.some.injEq] at hd
  subst hd
  have hstates := (sleepqInsert_modifies hinsert).trans schedThreadYield_modifies
  refine h.stopped hm (by decide) (by decide) (by decide) (by decide) hc hidle ?_ fun t ht => ?_
  · rw [hstates.states (by decide)]
    simp [State.asleep]
  · rw [hstates.states (by decide)]
    exact congrArg Thread.state (State.threads_modThread_of_ne _ ht)

theorem schedBlockCurrent_queue (h : QueueInv s) {c target : Nat} {kind : WaitKind}
    (hc : s.threadCurrent = some c) (hidle : c ≠ idleThread)
    (hblock : schedBlockCurrent s kind target = .ok s') : QueueInv s' := by
  have hm := schedBlockCurrent_modifies hblock
  obtain ⟨s₁, hlocked, hs'⟩ := bind_eq_ok.mp hblock
  rw [← Except.ok.inj hs'] at hm ⊢
  obtain ⟨hnone, -⟩ | ⟨d, p, hd, -, rfl⟩ := schedBlockCurrentLocked_cases hlocked
  · rw [hc] at hnone
    cases hnone
  rw [hc, Option.some.injEq] at hd
  subst hd
  have hstates := (modifies_waiters (s.modThread c fun th =>
    th.waiting kind target p (s.procs p).waiters) p (some c)).trans schedThreadYield_modifies
  refine h.stopped hm (by decide) (by decide) (by decide) (by decide) hc hidle ?_ fun t ht => ?_
  · rw [hstates.states (by decide)]
    simp [Thread.waiting]
  · rw [hstates.states (by decide)]
    exact congrArg Thread.state (State.threads_modThread_of_ne _ ht)

theorem schedThreadExit_queue (h : QueueInv s) {c : Nat} {code : BitVec 32}
    (hc : s.threadCurrent = some c) (hidle : c ≠ idleThread)
    (hexit : schedThreadExit s code = .ok s') : QueueInv s' := by
  obtain ⟨hnone, -⟩ | ⟨d, p, hd, -, hrest⟩ := schedThreadExit_cases hexit
  · rw [hc] at hnone
    cases hnone
  rw [hc, Option.some.injEq] at hd
  subst hd
  have hstate := exiting_state (s := s) c p code
  have hexiting : QueueInv (s.exiting c p code) :=
    h.stopped (exiting_modifies c p code) (by decide) (by decide) (by decide) (by decide) hc hidle
      (by rw [hstate, if_pos rfl]; simp) fun t ht => by rw [hstate, if_neg ht]
  obtain ⟨-, s₁, s₂, hwake, hfds, rfl⟩ | ⟨-, s₁, hunlink, rfl⟩ := hrest
  · have hended := ended_modifies (s := s.exiting c p code) p code
    have hrest := (schedProcCleanupFds_modifies hfds).trans schedThreadYield_modifies
    have hwoken := (Woken.of_modifies hended (by decide)).trans
      ((wakeParentWaiter_woken hwake).trans (.of_modifies hrest (by decide)))
    exact hexiting.woken ((hended.trans (wakeParentWaiter_modifies hwake)).trans hrest) (by decide)
      (by decide) (by decide) (by decide) hwoken
  · have hrest := (unlinkExited_modifies hunlink).trans schedThreadYield_modifies
    exact hexiting.woken hrest (by decide) (by decide) (by decide) (by decide)
      (.of_modifies hrest (by decide))

/-- Every operation of the run queue keeps the invariant. -/
theorem step_queue (h : QueueInv s) {op : Op} (hstep : Guarded Step QueueOp s op s') :
    QueueInv s' := by
  obtain ⟨hop, hstep⟩ := hstep
  cases op with
  | procAlloc parent context =>
      obtain ⟨⟨r, s₁⟩, halloc, hs'⟩ := bind_eq_ok.mp hstep
      have hm := procAlloc_modifies halloc
      rw [← Except.ok.inj hs']
      exact h.woken hm (by decide) (by decide) (by decide) (by decide) (.of_modifies hm (by decide))
  | addThread entry proc =>
      obtain ⟨⟨r, s₁⟩, hadd, hs'⟩ := bind_eq_ok.mp hstep
      rw [← Except.ok.inj hs']
      exact schedAddThread_queue h hadd
  | switch esp =>
      obtain ⟨⟨r, s₁⟩, hswitch, hs'⟩ := bind_eq_ok.mp hstep
      obtain ⟨t, s₂, hspec, -, -, hinv⟩ := schedDoSwitch_spec h esp
      rw [hswitch, Except.ok.injEq, Prod.mk.injEq] at hspec
      rw [← Except.ok.inj hs', hspec.2]
      exact hinv
  | yield =>
      have hm := schedThreadYield_modifies (s := s)
      rw [← Except.ok.inj hstep]
      exact h.woken hm (by decide) (by decide) (by decide) (by decide) (.of_modifies hm (by decide))
  | tick =>
      exact h.woken (incrementTicks_modifies hstep) (by decide) (by decide) (by decide) (by decide)
        (incrementTicks_woken hstep)
  | wake t =>
      exact h.woken (schedWakeThread_modifies hstep) (by decide) (by decide) (by decide)
        (by decide) (schedWakeThread_woken hstep)
  | sleep n =>
      obtain ⟨c, hc, hidle⟩ := hop
      exact schedThreadSleep_queue h hc hidle hstep
  | block kind target =>
      obtain ⟨c, hc, hidle⟩ := hop
      exact schedBlockCurrent_queue h hc hidle hstep
  | exit code =>
      obtain ⟨c, hc, hidle⟩ := hop
      exact schedThreadExit_queue h hc hidle hstep
  | reapThread t => exact threadReap_queue h hop.1 hop.2 hstep
  | console | reapChild | waitpid | fork | execve => exact absurd hop id

/-- A switch leaves a current thread. -/
theorem switch_current (h : QueueInv s) {esp : Nat} (hstep : Step s (.switch esp) s') :
    s'.threadCurrent ≠ none := by
  obtain ⟨⟨r, s₁⟩, hswitch, hs'⟩ := bind_eq_ok.mp hstep
  obtain ⟨t, s₂, hspec, -, hcur, -⟩ := schedDoSwitch_spec h esp
  rw [hswitch, Except.ok.injEq, Prod.mk.injEq] at hspec
  rw [← Except.ok.inj hs', hspec.2, hcur]
  simp

/-- No operation of the run queue takes the current thread away. -/
theorem step_current (h : QueueInv s) {op : Op} (hcur : s.threadCurrent ≠ none)
    (hstep : Guarded Step QueueOp s op s') : s'.threadCurrent ≠ none := by
  by_cases hswitch : ∃ esp, op = .switch esp
  · obtain ⟨esp, rfl⟩ := hswitch
    exact switch_current h hstep.2
  · have hout : .current ∉ op.parts := by
      cases op with
      | switch esp => exact absurd ⟨esp, rfl⟩ hswitch
      | _ =>
          simp only [Op.parts]
          decide
    rw [(step_modifies hstep.2).threadCurrent hout]
    exact hcur

/-- `sched_init` leaves the idle thread alone on the ring. -/
theorem schedInit_queue {kib : Nat} {idle : BitVec 32} (hzero : ZeroedThreads s)
    (h : schedInit s kib idle = .ok s') : QueueInv s' := by
  obtain ⟨s₁, p, s₂, r, hblank, halloc, hadd⟩ := schedInit_cases h
  have hm := procAlloc_modifies halloc
  have hzero₁ : ∀ t, s₁.threads t = .zero := fun t => hblank.threads ▸ hzero.threads t
  have hfree : ∀ t, (s₂.threads t).slotInuse = false := fun t => by
    rw [hm.inuse (by decide), hzero₁]
    rfl
  have hring : RunRing s₂ [] := by
    refine ⟨?_, fun t => by simp [hfree t], fun t ht => by simp [hfree t] at ht⟩
    rw [hm.threadHead (by decide), hblank.head]
    rfl
  have hr : r = some idleThread := by
    obtain ⟨-, ⟨hno, -⟩ | halloc'⟩ | ⟨-, t, s₃, -, -, -, -, rfl, halloc', -⟩ :=
      schedAddThread_cases hadd
    · cases hno
    all_goals
      have htid : s₂.nextTid = 0 := by
        rw [(hm.global .clock (by decide)).2.2.2, hblank.nextTid, hzero.nextTid]
      have hpos : 0 < s₂.threadPoolCount := by
        rw [hm.pools.threads]
        exact hblank.threads_pos
      have hfirst := allocThreadSlot_first hpos htid (hfree 0) halloc'
      first | exact hfirst | cases hfirst
  subst hr
  have hcase := schedAddThread_state hadd
  have hcur : s'.threadCurrent = none := by
    rw [(schedAddThread_modifies hadd).threadCurrent (by decide), hm.threadCurrent (by decide)]
    exact hblank.current
  have hidle : (s'.threads idleThread).state = .runnable ∧
      (s'.threads idleThread).slotInuse = true ∧ (s'.threads idleThread).proc ≠ none := by
    obtain ⟨-, -, hstate, hproc, hne, hinuse⟩ | ⟨hno, -⟩ := hcase idleThread
    · exact ⟨hstate, hinuse, hproc ▸ hne⟩
    · exact absurd rfl hno
  have hother : ∀ t, t ≠ idleThread →
      (s'.threads t).state = .unused ∧ (s'.threads t).slotInuse = false := by
    intro t ht
    obtain ⟨heq, -⟩ | ⟨-, hstate, -, hinuse⟩ := hcase t
    · exact absurd (Option.some.inj heq).symm ht
    · rw [hstate, hinuse, hm.states (by decide), hfree, hzero₁]
      exact ⟨rfl, rfl⟩
  refine ⟨⟨_, schedAddThread_ring hring hadd⟩, fun t ht => ?_, fun t ht => ?_, fun t ht => ?_,
    fun c hc => ?_, hidle.2.1, .inl hidle.1⟩
  · by_cases hti : t = idleThread
    · rw [hti, hidle.1] at ht
      cases ht
    · rw [(hother t hti).1] at ht
      cases ht
  · by_cases hti : t = idleThread
    · rw [hti, hidle.2.1] at ht
      cases ht
    · exact (hother t hti).1
  · by_cases hti : t = idleThread
    · rw [hti]
      exact hidle.2.2
    · rw [(hother t hti).2] at ht
      cases ht
  · rw [hcur] at hc
    cases hc

end Ops

/-- The run queue as a state machine. -/
theorem run_queue {s₀ s₁ s : State} {kib : Nat} {idle : BitVec 32} {ops : List Op}
    (hzero : ZeroedThreads s₀) (hinit : schedInit s₀ kib idle = .ok s₁)
    (hrun : Run (Guarded Step QueueOp) s₁ ops s) :
    (∃ h l, s.threadHead = some h ∧ Ring s.rqNext h l ∧
      ∀ t, t ∈ l ↔ (s.threads t).slotInuse = true) ∧
    (∀ t, (s.threads t).state = .running → s.threadCurrent = some t) ∧
    ((∃ esp, Op.switch esp ∈ ops) → s.threadCurrent ≠ none) ∧
    (∀ esp, ∃ t s', schedDoSwitch s esp = .ok (((s.parked esp).threads t).savedEsp, s') ∧
      ((s.parked esp).threads t).state = .runnable ∧ s'.threadCurrent = some t) ∧
    (∀ t, ∃ s', threadUnlinkFromRunq s t = .ok s') ∧
    (∀ t, (s.threads t).slotInuse = false → ∃ s', runqAppend s t = .ok s') ∧
    ∀ start : Option Nat, (∀ b ∈ start, (s.threads b).slotInuse = true) →
      ∃ r, nextRunnable s start = .ok r := by
  have hstart := schedInit_queue hzero hinit
  have hkeep : ∀ s op t, QueueInv s → Guarded Step QueueOp s op t → QueueInv t :=
    fun _ _ _ h hstep => step_queue h hstep
  have hinv : QueueInv s := hrun.invariant hkeep hstart
  obtain ⟨l, hl⟩ := hinv.ring
  have hmem : idleThread ∈ l := (hl.mem _).mpr hinv.idle_inuse
  have hloop := hl.loop
  refine ⟨?_, hinv.running, fun hswitch => ?_, fun esp => ?_, hinv.walks⟩
  · cases hhead : s.threadHead with
    | none =>
        rw [hhead] at hloop
        have hnil : l = [] := hloop
        simp [hnil] at hmem
    | some h =>
        rw [hhead] at hloop
        exact ⟨h, l, rfl, hloop, hl.mem⟩
  · obtain ⟨esp, hesp⟩ := hswitch
    refine hrun.since (m := fun op => ∃ esp, op = .switch esp) hkeep
      (fun _ _ _ h hcur hstep => step_current h hcur hstep) (fun _ _ _ h hop hstep => ?_) hstart
      (.inr ⟨_, hesp, esp, rfl⟩)
    obtain ⟨esp', rfl⟩ := hop
    exact switch_current h hstep.2
  · obtain ⟨t, s', hswitch, hstate, hcur, -⟩ := schedDoSwitch_spec hinv esp
    exact ⟨t, s', hswitch, hstate, hcur⟩

/-- A second thread is added, and the processor goes to the idle thread and then to the other
one. -/
theorem run_queue_small : ∃ s₁ s, schedInit bootState 32768 0xC0002000 = .ok s₁ ∧
    Run (Guarded Step QueueOp) s₁ [.addThread 0xC0003000 (some 0), .switch 0, .switch 4096] s ∧
    s.threadCurrent ≠ none := by
  obtain ⟨s₁, hinit, htest⟩ := exists_of_okAnd (e := schedInit bootState 32768 0xC0002000)
    (p := fun s₁ => okAnd (execAll Op.exec s₁
      [.addThread 0xC0003000 (some 0), .switch 0, .switch 4096]) fun _ => true)
    (by decide +kernel)
  obtain ⟨s, hall, -⟩ := exists_of_okAnd htest
  have hrun : Run (Guarded Step QueueOp) s₁
      [.addThread 0xC0003000 (some 0), .switch 0, .switch 4096] s :=
    (run_of_execAll hall).guarded (by simp [QueueOp])
  exact ⟨s₁, s, hinit, hrun,
    (run_queue zeroed_bootState.toZeroedThreads hinit hrun).2.2.1 ⟨0, by simp⟩⟩

/-- The idle thread has not run before the first switch. If it is reaped then, the switch finds no
thread. -/
theorem reaped_idle_no_current : ∃ s₁ s₂ s₃ r, schedInit bootState 32768 0xC0002000 = .ok s₁ ∧
    s₁.threadCurrent = none ∧ (s₁.threads idleThread).state = .runnable ∧
    threadReap s₁ idleThread = .ok s₂ ∧ schedDoSwitch s₂ 4096 = .ok (r, s₃) ∧
    s₃.threadCurrent = none := by
  obtain ⟨s₁, hinit, htest⟩ := exists_of_okAnd (e := schedInit bootState 32768 0xC0002000)
    (p := fun s₁ => decide (s₁.threadCurrent = none) &&
      decide ((s₁.threads idleThread).state = .runnable) &&
      okAnd (threadReap s₁ idleThread) fun s₂ =>
        okAnd (schedDoSwitch s₂ 4096) fun r => decide (r.2.threadCurrent = none))
    (by decide +kernel)
  simp only [Bool.and_eq_true, decide_eq_true_eq] at htest
  obtain ⟨⟨hcur, hstate⟩, htest⟩ := htest
  obtain ⟨s₂, hreap, htest⟩ := exists_of_okAnd htest
  obtain ⟨⟨r, s₃⟩, hswitch, htest⟩ := exists_of_okAnd htest
  exact ⟨s₁, s₂, s₃, r, hinit, hcur, hstate, hreap, hswitch, of_decide_eq_true htest⟩

end Unidos.Sched
