import Unidos.Sched.Sleep

/-!
# When sleeping threads are woken

`sched_thread_sleep` takes the number of ticks as a 64-bit number and adds it to the 64-bit clock,
but the field `wake_tick` of a thread has 32 bits. `noEarlyWake_iff` says when a thread is never
woken by the clock before its time: if the deadline fits the field, or if it is the very next tick.
-/

namespace Unidos.Sched

open Lib

/-! ## The clock -/

section Clock

variable {s s' : State}

theorem allocThreadSlot_ticks {t : Option Nat} (h : allocThreadSlot s = (t, s')) :
    s'.ticks = s.ticks := by
  unfold allocThreadSlot at h
  split at h
  · cases h
    rfl
  · split at h <;> · cases h; rfl

theorem schedThreadYield_ticks (s : State) : (schedThreadYield s).ticks = s.ticks := by
  unfold schedThreadYield
  split <;> rfl

theorem schedAddThread_ticks {entry : BitVec 32} {proc r : Option Nat}
    (h : schedAddThread s entry proc = .ok (r, s')) : s'.ticks = s.ticks := by
  obtain ⟨-, ⟨-, rfl⟩ | halloc⟩ | ⟨p, t, s₁, s₂, base, top, -, -, halloc, hlink, -, happend⟩ :=
    schedAddThread_cases h
  · rfl
  · exact allocThreadSlot_ticks halloc
  · rw [(runqAppend_modifies happend).ticks (by decide)]
    exact ((linkThread_modifies hlink).ticks (by decide)).trans (allocThreadSlot_ticks halloc)

theorem parked_ticks (s : State) (esp : Nat) : (s.parked esp).ticks = s.ticks := by
  dsimp only [State.parked]
  split
  · rfl
  · split <;> rfl

theorem schedDoSwitch_ticks {esp r : Nat} (h : schedDoSwitch s esp = .ok (r, s')) :
    s'.ticks = s.ticks := by
  rw [← parked_ticks s esp]
  obtain ⟨-, rfl⟩ | ⟨head, next, -, -, ⟨-, rfl⟩ | ⟨t, -, hswitch⟩⟩ := schedDoSwitch_cases h
  · rfl
  · rfl
  · exact (switchTo_modifies hswitch).ticks (by decide)

theorem schedThreadSleep_ticks {n : Nat} (h : schedThreadSleep s n = .ok s') :
    s'.ticks = s.ticks := by
  obtain ⟨-, rfl⟩ | ⟨c, s₁, -, hinsert, rfl⟩ := schedThreadSleep_cases h
  · rfl
  · rw [schedThreadYield_ticks, (sleepqInsert_modifies hinsert).ticks (by decide)]
    rfl

theorem schedThreadExit_ticks {code : BitVec 32} (h : schedThreadExit s code = .ok s') :
    s'.ticks = s.ticks := by
  obtain ⟨-, rfl⟩ | ⟨c, p, -, -, ⟨-, s₁, s₂, hwake, hclean, rfl⟩ | ⟨-, s₁, hunlink, rfl⟩⟩ :=
    schedThreadExit_cases h
  · rfl
  · rw [schedThreadYield_ticks, (schedProcCleanupFds_modifies hclean).ticks (by decide),
      (wakeParentWaiter_modifies hwake).ticks (by decide)]
    rfl
  · rw [schedThreadYield_ticks, (unlinkExited_modifies hunlink).ticks (by decide)]
    rfl

theorem incrementTicks_ticks (h : incrementTicks s = .ok s') :
    s'.ticks = (s.ticks + 1) % 2 ^ 64 := by
  obtain ⟨woke, s₁, hdue, rfl⟩ := schedOnTick_cases h
  obtain ⟨left, pending, heq⟩ := countDown_eq s₁ woke
  rw [heq]
  exact (wakeDue_modifies hdue).ticks (by decide)

/-- Only the timer moves the clock. -/
theorem step_ticks {op : Op} (h : Step s op s') (hop : op ≠ .tick) : s'.ticks = s.ticks := by
  cases op with
  | tick => exact absurd rfl hop
  | addThread entry proc =>
      obtain ⟨⟨r, s₁⟩, hadd, heq⟩ := bind_eq_ok.mp h
      cases heq
      exact schedAddThread_ticks hadd
  | switch esp =>
      obtain ⟨⟨r, s₁⟩, hswitch, heq⟩ := bind_eq_ok.mp h
      cases heq
      exact schedDoSwitch_ticks hswitch
  | yield =>
      cases h
      exact schedThreadYield_ticks s
  | sleep n => exact schedThreadSleep_ticks h
  | block kind target =>
      obtain ⟨s₁, hblock, heq⟩ := bind_eq_ok.mp h
      cases heq
      rw [schedThreadYield_ticks, (schedBlockCurrentLocked_modifies hblock).ticks (by decide)]
  | exit code => exact schedThreadExit_ticks h
  | waitpid parent filter =>
      obtain rfl | ⟨z, -, hreap⟩ | ⟨s₁, -, hblock, rfl⟩ := step_waitpid h
      · rfl
      · exact (procReapChild_modifies hreap).ticks (by decide)
      · rw [schedThreadYield_ticks, (schedBlockCurrentLocked_modifies hblock).ticks (by decide)]
  | fork tf =>
      obtain ⟨-, rfl⟩ | ⟨parent, r, s₁, -, halloc, ⟨-, rfl⟩ |
        ⟨c, entry, t, s₂, s₃, -, hadd, hm, hend⟩⟩ := step_fork h
      · rfl
      · exact (procAlloc_modifies halloc).ticks (by decide)
      · have hticks : s₃.ticks = s.ticks := by
          rw [hm.ticks (by decide), schedAddThread_ticks hadd,
            (procAlloc_modifies halloc).ticks (by decide)]
        obtain ⟨-, rfl⟩ | ⟨s₄, hdrop, hfree⟩ := hend
        · exact hticks
        · rw [(procFree_modifies hfree).ticks (by decide), ← hticks]
          cases t with
          | none =>
              cases hdrop
              rfl
          | some t => exact (threadReap_modifies hdrop).ticks (by decide)
  | _ => exact (step_modifies h).ticks (of_decide_eq_true rfl)

end Clock

/-! ## Deadlines -/

section Deadline

variable {s s' : State} {c : Nat}

/-- The deadline of a thread changes only when it goes to sleep itself, or when its slot is given
to a new thread. -/
theorem step_wakeTick {op : Op} (hinuse : (s.threads c).slotInuse = true)
    (hsleep : (s.threads c).state = .sleeping) (hstep : Guarded Step OnlyRunningActs s op s') :
    (s'.threads c).wakeTick = (s.threads c).wakeTick := by
  have hnew {s₁ s₂ : State} {entry : BitVec 32} {proc r : Option Nat}
      (hinuse : (s₁.threads c).slotInuse = true)
      (hadd : schedAddThread s₁ entry proc = .ok (r, s₂)) :
      (s₂.threads c).wakeTick = (s₁.threads c).wakeTick := by
    refine schedAddThread_other hadd (k := .wakeTick) (fun hr => ?_) (by decide)
    subst hr
    rw [(schedAddThread_new hadd).2.1] at hinuse
    cases hinuse
  cases op with
  | addThread entry proc =>
      obtain ⟨⟨r, s₁⟩, hadd, heq⟩ := bind_eq_ok.mp hstep.2
      cases heq
      exact hnew hinuse hadd
  | sleep n =>
      obtain ⟨d, hd, hrunning⟩ := hstep.1 rfl
      have hne : c ≠ d := by
        rintro rfl
        rw [hsleep] at hrunning
        cases hrunning
      obtain ⟨hnone, -⟩ | ⟨e, s₁, he, hinsert, rfl⟩ := schedThreadSleep_cases hstep.2
      · rw [hd] at hnone
        cases hnone
      · rw [hd, Option.some.injEq] at he
        subst he
        rw [schedThreadYield_modifies.wakeTick (by decide),
          (sleepqInsert_modifies hinsert).wakeTick (by decide), State.asleep,
          State.threads_modThread_of_ne _ hne]
  | fork tf =>
      obtain ⟨-, rfl⟩ | ⟨parent, r, s₁, -, halloc, ⟨-, rfl⟩ |
        ⟨child, entry, t, s₂, s₃, -, hadd, hm, hend⟩⟩ := step_fork hstep.2
      · rfl
      · exact (procAlloc_modifies halloc).wakeTick (by decide) c
      · have halloc' := procAlloc_modifies halloc
        have hwake : (s₃.threads c).wakeTick = (s.threads c).wakeTick := by
          rw [hm.wakeTick (by decide),
            hnew ((halloc'.inuse (by decide) c).trans hinuse) hadd, halloc'.wakeTick (by decide)]
        obtain ⟨-, rfl⟩ | ⟨s₄, hdrop, hfree⟩ := hend
        · exact hwake
        · rw [(procFree_modifies hfree).wakeTick (by decide), ← hwake]
          cases t with
          | none =>
              cases hdrop
              rfl
          | some t => exact (threadReap_modifies hdrop).wakeTick (by decide) c
  | _ => exact (step_modifies hstep.2).wakeTick (of_decide_eq_true rfl) c

/-- The sleep queue is in order. -/
def Ordered (s : State) : Prop := ∃ now since, Timed.Inv ⟨s, now, since⟩

namespace Ordered

theorem queue (h : Ordered s) : ∃ since l, SleepQueue s since l := by
  obtain ⟨now, since, l, hqueue, -⟩ := h
  exact ⟨since, l, hqueue⟩

theorem step (h : Ordered s) {op : Op} (hstep : Guarded Step OnlyRunningActs s op s') :
    Ordered s' := by
  obtain ⟨now, since, hinv⟩ := h
  exact ⟨now + 1, Timed.recorded ⟨s, now, since⟩ op, Timed.step_inv hinv ⟨hstep, rfl, rfl⟩⟩

theorem inuse (h : Ordered s) (hsleep : (s.threads c).state = .sleeping) :
    (s.threads c).slotInuse = true := by
  obtain ⟨since, l, hqueue⟩ := h.queue
  exact hqueue.inuse (by rw [hsleep]; simp)

/-- What a tick does to the states of the threads. -/
theorem tick (h : Ordered s) : ∃ s', Step s .tick s' ∧ ∀ t, (s'.threads t).state =
    if (s.threads t).state = .sleeping ∧ (s.threads t).wakeTick ≤ (s.ticks + 1) % 2 ^ 64
      then .runnable
    else (s.threads t).state := by
  obtain ⟨since, l, hqueue⟩ := h.queue
  have hlater : SleepQueue { s with ticks := (s.ticks + 1) % 2 ^ 64 } since l :=
    ⟨hqueue.chain, hqueue.mem, hqueue.sorted, hqueue.unused, hqueue.lt⟩
  obtain ⟨s', hs', -, hstates⟩ := schedOnTick_spec hlater
  exact ⟨s', hs', hstates⟩

end Ordered

/-- A thread that sleeps until the clock shows `wake`. -/
structure AsleepUntil (c wake : Nat) (s : State) : Prop where
  ordered : Ordered s
  sleeping : (s.threads c).state = .sleeping
  wake : (s.threads c).wakeTick = wake

def Op.isTick : Op → Bool
  | .tick => true
  | _ => false

/-- Thread `c` is asleep at every step. Otherwise any thread may sleep, wake up, or be added. -/
def WhileAsleep (c : Nat) (s : State) (op : Op) : Prop :=
  OnlyRunningActs s op ∧ (s.threads c).state = .sleeping

/-- As long as `c` sleeps, no tick before `n` ticks have passed since time `now` makes it runnable.
-/
def NoEarlyWake (c now n : Nat) (s : State) : Prop :=
  ∀ ops s₁ s₂, Run (Guarded Step (WhileAsleep c)) s ops s₁ → (s₁.threads c).state = .sleeping →
    Step s₁ .tick s₂ → now + (ops.countP Op.isTick + 1) < now + n →
    (s₂.threads c).state ≠ .runnable

theorem sleeping_of_run {ops : List Op} (h : Run (Guarded Step (WhileAsleep c)) s ops s')
    (hend : (s'.threads c).state = .sleeping) : (s.threads c).state = .sleeping := by
  cases h with
  | nil => exact hend
  | cons hop _ => exact hop.1.2

namespace AsleepUntil

variable {wake : Nat}

theorem step {op : Op} (h : AsleepUntil c wake s) (hstep : Guarded Step OnlyRunningActs s op s')
    (hsleep : (s'.threads c).state = .sleeping) : AsleepUntil c wake s' where
  ordered := h.ordered.step hstep
  sleeping := hsleep
  wake := (step_wakeTick (h.ordered.inuse h.sleeping) h.sleeping hstep).trans h.wake

/-- As long as the thread sleeps, its deadline stays, and the clock counts the ticks. -/
theorem run {ops : List Op} (h : AsleepUntil c wake s)
    (hrun : Run (Guarded Step (WhileAsleep c)) s ops s')
    (hend : (s'.threads c).state = .sleeping) (hclock : s.ticks + ops.countP Op.isTick < 2 ^ 64) :
    AsleepUntil c wake s' ∧ s'.ticks = s.ticks + ops.countP Op.isTick := by
  induction hrun with
  | nil => exact ⟨h, rfl⟩
  | @cons s t u op ops hop hrest ih =>
      have hnext := h.step ⟨hop.1.1, hop.2⟩ (sleeping_of_run hrest hend)
      by_cases htick : op = .tick
      · subst htick
        have hticks : t.ticks = s.ticks + 1 := by
          rw [incrementTicks_ticks hop.2]
          refine Nat.mod_eq_of_lt ?_
          simp only [List.countP_cons, Op.isTick, if_true] at hclock
          omega
        simp only [List.countP_cons, Op.isTick, if_true] at hclock ⊢
        obtain ⟨hasleep, heq⟩ := ih hnext hend (by omega)
        exact ⟨hasleep, by omega⟩
      · have hticks := step_ticks hop.2 htick
        have hcount : (op :: ops).countP Op.isTick = ops.countP Op.isTick := by
          cases op with
          | tick => exact absurd rfl htick
          | _ => rfl
        rw [hcount] at hclock ⊢
        rw [← hticks] at hclock ⊢
        exact ih hnext hend hclock

/-- Ticks before the deadline change nothing. -/
theorem exists_ticks (h : AsleepUntil c wake s) (m : Nat) (hwake : s.ticks + m < wake ∨ m = 0)
    (hclock : s.ticks + m < 2 ^ 64) :
    ∃ s', Run (Guarded Step (WhileAsleep c)) s (List.replicate m .tick) s' ∧
      AsleepUntil c wake s' := by
  induction m generalizing s with
  | zero => exact ⟨s, .nil s, h⟩
  | succ m ih =>
      obtain ⟨t, hstep, hstates⟩ := h.ordered.tick
      have hguard : Guarded Step OnlyRunningActs s .tick t := ⟨(by cases ·), hstep⟩
      have hticks : t.ticks = s.ticks + 1 := by
        rw [incrementTicks_ticks hstep]
        exact Nat.mod_eq_of_lt (by omega)
      have hsleep : (t.threads c).state = .sleeping := by
        rw [hstates, if_neg, h.sleeping]
        rintro ⟨-, hle⟩
        rw [h.wake, Nat.mod_eq_of_lt (by omega)] at hle
        omega
      obtain ⟨s', hrun, hasleep⟩ := ih (h.step hguard hsleep) (by omega) (by omega)
      exact ⟨s', .cons ⟨⟨hguard.1, h.sleeping⟩, hstep⟩ hrun, hasleep⟩

end AsleepUntil

end Deadline

/-- After `sched_thread_sleep` the thread sleeps until the deadline that fits the field. -/
theorem asleepUntil_of_sleep {s s' : State} {c n : Nat} (h : Ordered s)
    (hc : s.threadCurrent = some c) (hrunning : (s.threads c).state = .running)
    (hsleep : schedThreadSleep s n = .ok s') :
    AsleepUntil c ((s.ticks + n) % 2 ^ 64 % 2 ^ 32) s' := by
  have hordered : Ordered s' := h.step (show Guarded Step _ s (.sleep n) s' from
    ⟨fun _ => ⟨c, hc, hrunning⟩, hsleep⟩)
  obtain ⟨hnone, -⟩ | ⟨d, s₁, hd, hinsert, rfl⟩ := schedThreadSleep_cases hsleep
  · rw [hc] at hnone
    cases hnone
  · rw [hc, Option.some.injEq] at hd
    subst hd
    refine ⟨hordered, ?_, ?_⟩
    · rw [schedThreadYield_modifies.states (by decide),
        (sleepqInsert_modifies hinsert).states (by decide), State.asleep,
        State.threads_modThread_self]
    · rw [schedThreadYield_modifies.wakeTick (by decide),
        (sleepqInsert_modifies hinsert).wakeTick (by decide), State.asleep,
        State.threads_modThread_self]

/-- In every reachable state and for every duration whose end the clock can show: the running
thread, when it goes to sleep, is not woken too early by the clock if and only if the end fits the
32 bits of the field, or is at most one tick away. -/
theorem noEarlyWake_iff {s₀ s₁ s s' : State} {kib c n : Nat} {idle : BitVec 32} {ops : List Op}
    (hzero : ZeroedThreads s₀) (hinit : schedInit s₀ kib idle = .ok s₁)
    (hrun : Run (Guarded Step OnlyRunningActs) s₁ ops s) (hc : s.threadCurrent = some c)
    (hrunning : (s.threads c).state = .running) (hclock : s.ticks + n < 2 ^ 64)
    (hsleep : schedThreadSleep s n = .ok s') :
    NoEarlyWake c s.ticks n s' ↔ s.ticks + n < 2 ^ 32 ∨ n ≤ 1 := by
  have hordered : Ordered s := by
    obtain ⟨since, hrun⟩ := exists_timed_run hrun 0 fun _ => 0
    exact ⟨_, since, hrun.invariant (I := Timed.Inv) (fun _ _ _ h hstep => Timed.step_inv h hstep)
      ⟨[], schedInit_sleep hzero hinit _, by simp⟩⟩
  have hasleep := asleepUntil_of_sleep hordered hc hrunning hsleep
  have hticks := schedThreadSleep_ticks hsleep
  rw [Nat.mod_eq_of_lt hclock] at hasleep
  constructor
  · intro hnever
    by_contra hlate
    have hlarge : 2 ^ 32 ≤ s.ticks + n ∧ 2 ≤ n := by omega
    generalize hwake : (s.ticks + n) % 2 ^ 32 = wake at hasleep
    have hlt : wake < s.ticks + n := by omega
    -- one tick less than what leads to the deadline as it is stored
    obtain ⟨s₂, hafter, hasleep'⟩ := hasleep.exists_ticks (wake - s.ticks - 1) (by omega) (by omega)
    have hcount : (List.replicate (wake - s.ticks - 1) Op.tick).countP Op.isTick =
        wake - s.ticks - 1 := by simp [List.countP_replicate, Op.isTick]
    obtain ⟨-, hnow⟩ := hasleep.run hafter hasleep'.sleeping (by omega)
    obtain ⟨s₃, htick, hstates⟩ := hasleep'.ordered.tick
    refine hnever _ s₂ s₃ hafter hasleep'.sleeping htick (by omega) ?_
    rw [hstates, if_pos]
    rw [hasleep'.wake, hnow, Nat.mod_eq_of_lt (by omega)]
    exact ⟨hasleep'.sleeping, by omega⟩
  · rintro (hfits | hone) ticks s₂ s₃ hafter hstill htick hearly
    · rw [Nat.mod_eq_of_lt hfits] at hasleep
      obtain ⟨hasleep', hnow⟩ := hasleep.run hafter hstill (by omega)
      obtain ⟨s₃', htick', hstates⟩ := hasleep'.ordered.tick
      cases Except.ok.inj (htick.symm.trans htick')
      rw [hstates, if_neg, hstill]
      · simp
      · rintro ⟨-, hle⟩
        rw [hasleep'.wake, hnow, hticks, Nat.mod_eq_of_lt (by omega)] at hle
        omega
    · omega

/-- A thread is added, becomes the running one, and goes to sleep for five ticks. -/
theorem noEarlyWake_iff_five : ∃ s₁ s s', schedInit bootState 32768 0xC0002000 = .ok s₁ ∧
    Run (Guarded Step OnlyRunningActs) s₁ [.addThread 0xC0003000 (some 0), .switch 0,
      .switch 4096] s ∧ schedThreadSleep s 5 = .ok s' ∧ NoEarlyWake 1 s.ticks 5 s' := by
  obtain ⟨s₁, hinit, htest⟩ := exists_of_okAnd (e := schedInit bootState 32768 0xC0002000)
    (p := fun s₁ => (execGuarded Op.exec OnlyRunningActs s₁ [.addThread 0xC0003000 (some 0),
      .switch 0, .switch 4096]).any fun s : State => decide (s.threadCurrent = some 1) &&
        decide ((s.threads 1).state = .running) && decide (s.ticks = 0) &&
        okAnd (schedThreadSleep s 5) fun _ => true)
    (by decide +kernel)
  obtain ⟨s, hall, htest⟩ := (Option.any_eq_true _ _).mp htest
  simp only [Bool.and_eq_true, decide_eq_true_eq] at htest
  obtain ⟨⟨⟨hc, hrunning⟩, hticks⟩, hok⟩ := htest
  obtain ⟨s', hsleep, -⟩ := exists_of_okAnd hok
  have hrun := run_of_execGuarded hall
  refine ⟨s₁, s, s', hinit, hrun, hsleep, ?_⟩
  refine (noEarlyWake_iff zeroed_bootState.toZeroedThreads hinit hrun hc hrunning ?_ hsleep).mpr ?_
  · rw [hticks]
    decide
  · rw [hticks]
    decide

/-- A sleep of 2³² ticks ends with the next tick. -/
theorem sleep_wakes_early : ∃ s₁ s s' s'', schedInit bootState 32768 0xC0002000 = .ok s₁ ∧
    Run (Guarded Step OnlyRunningActs) s₁ [.addThread 0xC0003000 (some 0), .switch 0,
      .switch 4096] s ∧ s.threadCurrent = some 1 ∧ s.ticks = 0 ∧
    schedThreadSleep s (2 ^ 32) = .ok s' ∧ (s'.threads 1).state = .sleeping ∧
    Step s' .tick s'' ∧ (s''.threads 1).state = .runnable := by
  obtain ⟨s₁, hinit, htest⟩ := exists_of_okAnd (e := schedInit bootState 32768 0xC0002000)
    (p := fun s₁ => (execGuarded Op.exec OnlyRunningActs s₁ [.addThread 0xC0003000 (some 0),
      .switch 0, .switch 4096]).any fun s : State => decide (s.threadCurrent = some 1) &&
        decide (s.ticks = 0) && okAnd (schedThreadSleep s (2 ^ 32)) fun s' =>
          decide ((s'.threads 1).state = .sleeping) && okAnd (Op.exec s' .tick) fun s'' =>
            decide ((s''.threads 1).state = .runnable))
    (by decide +kernel)
  obtain ⟨s, hall, htest⟩ := (Option.any_eq_true _ _).mp htest
  simp only [Bool.and_eq_true, decide_eq_true_eq] at htest
  obtain ⟨⟨hc, hticks⟩, hok⟩ := htest
  obtain ⟨s', hsleep, hs'⟩ := exists_of_okAnd hok
  simp only [Bool.and_eq_true, decide_eq_true_eq] at hs'
  obtain ⟨s'', htick, hs''⟩ := exists_of_okAnd hs'.2
  exact ⟨s₁, s, s', s'', hinit, run_of_execGuarded hall, hc, hticks, hsleep, hs'.1, htick,
    of_decide_eq_true hs''⟩

end Unidos.Sched
