import Unidos.Sched.Frame

/-!
# The states of the threads

What each function does to the slots, the states, and the processes of the threads. `Woken` is what
happens to threads other than the current one: those that slept or were blocked can become
runnable.
-/

namespace Unidos.Sched

open Lib

/-! ## Waking up -/

/-- Some threads that slept or were blocked are runnable now. -/
def Woken (s s' : State) : Prop :=
  ∀ t, (s'.threads t).state = (s.threads t).state ∨
    (((s.threads t).state = .sleeping ∨ (s.threads t).state = .blocked) ∧
      (s'.threads t).state = .runnable)

section Woken

variable {s s' s'' : State}

theorem Woken.trans (h : Woken s s') (h' : Woken s' s'') : Woken s s'' := by
  intro t
  have ht := h t
  have ht' := h' t
  cases ht with
  | inl heq =>
      rw [heq] at ht'
      exact ht'
  | inr hwoke =>
      obtain ⟨hwas, hnow⟩ := hwoke
      rw [hnow] at ht'
      simp only [reduceCtorEq, or_self, false_and, or_false] at ht'
      exact .inr ⟨hwas, ht'⟩

theorem Woken.of_modifies {parts : List Part} (hm : Modifies parts s s') (hk : .states ∉ parts) :
    Woken s s' := fun t => .inl (hm.states hk t)

theorem woken_setState {t : Nat}
    (h : (s.threads t).state = .sleeping ∨ (s.threads t).state = .blocked) :
    Woken s (s.setState t .runnable) := by
  intro u
  by_cases hu : u = t
  · subst hu
    exact .inr ⟨h, by simp [State.setState]⟩
  · exact .inl (congrArg Thread.state (State.threads_modThread_of_ne _ hu))

theorem schedWakeThread_woken {t : Nat} (h : schedWakeThread s t = .ok s') : Woken s s' := by
  obtain ⟨hstate, hremove⟩ | ⟨hstate, s₁, rfl, hleave⟩ | ⟨-, -, rfl⟩ := schedWakeThread_cases h
  · exact (woken_setState (.inl hstate)).trans
      (.of_modifies (sleepqRemove_modifies hremove) (by decide))
  · exact (woken_setState (.inr hstate)).trans (.of_modifies
      ((leaveWaiters_modifies hleave).trans (modifies_unwait s₁ t)) (by decide))
  · exact fun t => .inl rfl

theorem wakeParentWaiter_woken {child : Nat} (h : wakeParentWaiter s child = .ok s') :
    Woken s s' := by
  unfold wakeParentWaiter at h
  split at h
  · exact Except.ok.inj h ▸ fun t => .inl rfl
  · simp only at h
    split at h
    · cases h
    · exact Except.ok.inj h ▸ fun t => .inl rfl
    · exact schedWakeThread_woken h

theorem wakeDue_woken {fuel : Nat} {woke woke' : Bool}
    (h : wakeDue fuel s woke = .ok (woke', s')) : Woken s s' := by
  induction fuel generalizing s woke with
  | zero =>
      obtain ⟨-, rfl, -⟩ | ⟨n, t, hn, -⟩ := wakeDue_cases h
      · exact fun t => .inl rfl
      · cases hn
  | succ fuel ih =>
      obtain ⟨-, rfl, -⟩ | ⟨n, t, hn, -, -, ⟨hsleeps, hrest⟩ | ⟨-, hrest⟩⟩ := wakeDue_cases h
      · exact fun t => .inl rfl
      · cases hn
        have hpop : Woken s _ := .of_modifies (modifies_popSleeper s t) (by decide)
        exact (hpop.trans (woken_setState (.inl hsleeps.2))).trans (ih hrest)
      · cases hn
        have hpop : Woken s _ := .of_modifies (modifies_popSleeper s t) (by decide)
        exact hpop.trans (ih hrest)

theorem schedOnTick_woken (h : schedOnTick s = .ok s') : Woken s s' := by
  obtain ⟨woke, s₁, hdue, rfl⟩ := schedOnTick_cases h
  exact (wakeDue_woken hdue).trans (.of_modifies (countDown_modifies s₁ woke) (by decide))

theorem incrementTicks_woken (h : incrementTicks s = .ok s') : Woken s s' := by
  have hticks : ∀ n, Woken { s with ticks := n } s' → Woken s s' := fun _ hwoken => hwoken
  exact hticks _ (schedOnTick_woken h)

end Woken

/-! ## Threads that come and go -/

section Slots

variable {s s' : State}

/-- The slot for a new thread is free. -/
theorem allocThreadSlot_some {t : Nat} (h : allocThreadSlot s = (some t, s')) :
    t < s.threadPoolCount ∧ (s.threads t).slotInuse = false := by
  unfold allocThreadSlot at h
  split at h
  · simp at h
  rename_i hcount
  split at h
  · simp at h
  · rename_i i hfind
    simp only [Prod.mk.injEq, Option.some.injEq] at h
    rw [← h.1]
    exact ⟨circFind_lt (Nat.mod_lt _ (by omega)) hfind, by simpa using circFind_sound hfind⟩

/-- The record of a new thread. -/
theorem schedAddThread_new {entry : BitVec 32} {proc : Option Nat} {t : Nat}
    (h : schedAddThread s entry proc = .ok (some t, s')) :
    t < s.threadPoolCount ∧ (s.threads t).slotInuse = false ∧ ∃ p, proc = some p ∧
      (s'.threads t).proc = some p ∧ (s'.threads t).state = .runnable ∧
      (s'.threads t).slotInuse = true ∧ (s'.threads t).waitKind = .none ∧
      (s'.threads t).waitOwner = none ∧ (s'.threads t).waitNext = none ∧
      (s'.threads t).threadlistNext = none := by
  obtain ⟨hno, -⟩ | ⟨p, u, s₁, s₂, base, top, rfl, hr, halloc, -, -, happend⟩ :=
    schedAddThread_cases h
  · cases hno
  rw [Option.some.injEq] at hr
  subst hr
  obtain ⟨hlt, hfree⟩ := allocThreadSlot_some halloc
  have hring := runqAppend_modifies happend
  refine ⟨hlt, hfree, p, rfl, ?_⟩
  rw [hring.owner (by decide), hring.states (by decide), hring.inuse (by decide),
    hring.waitKind (by decide), hring.waitOwner (by decide)]
  have hwait : (s'.threads t).waitNext = _ := congrFun (hring.waitNext (by decide)) t
  have hlist : (s'.threads t).threadlistNext = _ := congrFun (hring.threadlistNext (by decide)) t
  rw [hwait, hlist]
  simp [State.waitNext, State.threadlistNext, Thread.started]

/-- A new thread leaves the others alone, but for the links to it. -/
theorem schedAddThread_other {entry : BitVec 32} {proc r : Option Nat} {t : Nat}
    (h : schedAddThread s entry proc = .ok (r, s')) (ht : r ≠ some t) {k : Part}
    (hk : k ∉ [Part.ring, .list]) : SameThread k (s.threads t) (s'.threads t) := by
  simp only [List.mem_cons, List.not_mem_nil, or_false, not_or] at hk
  obtain ⟨-, ⟨-, rfl⟩ | halloc⟩ | ⟨p, u, s₁, s₂, base, top, -, rfl, halloc, hlink, -, happend⟩ :=
    schedAddThread_cases h
  · exact SameThread.refl k _
  · have hcl : k ∉ [Part.clock] ∨ k = .clock := by simp [em']
    cases hcl with
    | inl hcl => exact (allocThreadSlot_modifies halloc).thread k hcl t
    | inr hcl => rw [hcl]; trivial
  · have hne : t ≠ u := fun heq => ht (heq ▸ rfl)
    by_cases hcl : k = .clock
    · rw [hcl]
      trivial
    by_cases hlive : k = .live
    · rw [hlive]
      trivial
    have hm := ((allocThreadSlot_modifies halloc).trans (linkThread_modifies hlink)).trans
      (modifies_countThread s₂ p)
    have hfirst := hm.thread k (by simp [hcl, hk, hlive]) t
    have hlast := (runqAppend_modifies happend).thread k (by simp [hk]) t
    rw [State.threads_modThread_of_ne _ hne] at hlast
    exact hfirst.trans hlast

/-- What a new thread changes in the records of the processes. -/
theorem schedAddThread_process {entry : BitVec 32} {proc r : Option Nat}
    (h : schedAddThread s entry proc = .ok (r, s')) (p : Nat) {k : Part}
    (hk : k ∉ [Part.list, .live]) : SameProcess k (s.procs p) (s'.procs p) := by
  by_cases hglobal : k = .clock ∨ k = .ring
  · obtain rfl | rfl := hglobal
    · trivial
    · trivial
  simp only [List.mem_cons, List.not_mem_nil, or_false, not_or] at hk hglobal
  obtain ⟨-, ⟨-, rfl⟩ | halloc⟩ | ⟨q, u, s₁, s₂, base, top, -, rfl, halloc, hlink, -, happend⟩ :=
    schedAddThread_cases h
  · exact SameProcess.refl k _
  · exact (allocThreadSlot_modifies halloc).process k (by simp [hglobal]) p
  · have hfirst := ((allocThreadSlot_modifies halloc).trans (linkThread_modifies hlink)).trans
      (modifies_countThread s₂ q)
    exact (hfirst.process k (by simp [hk, hglobal]) p).trans
      ((runqAppend_modifies happend).process k (by simp [hglobal]) p)

/-- The states of the threads after one was added. -/
theorem schedAddThread_state {entry : BitVec 32} {proc r : Option Nat}
    (h : schedAddThread s entry proc = .ok (r, s')) (t : Nat) :
    (r = some t ∧ (s.threads t).slotInuse = false ∧ (s'.threads t).state = .runnable ∧
        (s'.threads t).proc = proc ∧ proc ≠ none ∧ (s'.threads t).slotInuse = true) ∨
      (r ≠ some t ∧ (s'.threads t).state = (s.threads t).state ∧
        (s'.threads t).proc = (s.threads t).proc ∧
        (s'.threads t).slotInuse = (s.threads t).slotInuse) := by
  by_cases ht : r = some t
  · subst ht
    obtain ⟨-, hfree, p, rfl, hproc, hstate, hinuse, -⟩ := schedAddThread_new h
    exact .inl ⟨rfl, hfree, hstate, hproc, by simp, hinuse⟩
  · exact .inr ⟨ht, schedAddThread_other h ht (k := .states) (by decide),
      schedAddThread_other h ht (k := .owner) (by decide),
      schedAddThread_other h ht (k := .inuse) (by decide)⟩

/-- Reaping a thread leaves the others alone, but for the links to it. -/
theorem threadReap_other {t u : Nat} (h : threadReap s t = .ok s') (hu : u ≠ t) {k : Part}
    (hk : k ∉ [Part.ring, .sleep, .list]) : SameThread k (s.threads u) (s'.threads u) := by
  obtain ⟨s₁, s₂, s₃, hring, hsleep, hlist, rfl⟩ := threadReap_cases h
  rw [State.threads_modThread_of_ne _ hu]
  exact ((threadUnlinkFromRunq_modifies hring).trans
    ((sleepqRemove_modifies hsleep).trans (unlinkThread_modifies hlist))).thread k hk u

/-- What reaping a thread changes in the records of the processes. -/
theorem threadReap_process {t : Nat} (h : threadReap s t = .ok s') (p : Nat) {k : Part}
    (hk : k ≠ .list) : SameProcess k (s.procs p) (s'.procs p) := by
  by_cases hglobal : k = .ring ∨ k = .sleep
  · obtain rfl | rfl := hglobal
    · trivial
    · trivial
  rw [not_or] at hglobal
  obtain ⟨s₁, s₂, s₃, hring, hsleep, hlist, rfl⟩ := threadReap_cases h
  exact ((threadUnlinkFromRunq_modifies hring).trans
    ((sleepqRemove_modifies hsleep).trans (unlinkThread_modifies hlist))).process k
    (by simp [hk, hglobal]) p

/-- The record of a reaped thread. -/
theorem threadReap_self {t : Nat} (h : threadReap s t = .ok s') :
    (s'.threads t).slotInuse = false ∧ (s'.threads t).state = .unused ∧
      (s'.threads t).proc = none ∧ (s'.threads t).sleepNext = none ∧
      (s'.threads t).threadlistNext = none ∧ (s'.threads t).waitNext = none := by
  obtain ⟨s₁, s₂, s₃, -, -, -, rfl⟩ := threadReap_cases h
  simp [Thread.freed]

/-- A reaped thread is gone, and the others are as they were. -/
theorem threadReap_state {t : Nat} (h : threadReap s t = .ok s') :
    ((s'.threads t).slotInuse = false ∧ (s'.threads t).state = .unused) ∧
      ∀ u, u ≠ t → (s'.threads u).slotInuse = (s.threads u).slotInuse ∧
        (s'.threads u).state = (s.threads u).state ∧ (s'.threads u).proc = (s.threads u).proc := by
  obtain ⟨hinuse, hstate, -⟩ := threadReap_self h
  exact ⟨⟨hinuse, hstate⟩, fun u hu => ⟨threadReap_other h hu (k := .inuse) (by decide),
    threadReap_other h hu (k := .states) (by decide),
    threadReap_other h hu (k := .owner) (by decide)⟩⟩

end Slots

/-! ## The current thread -/

section Current

variable {s s' : State}

/-- After the first part of a switch the current thread is runnable if it was running. -/
theorem parked_state (esp t : Nat) : ((s.parked esp).threads t).state =
    if s.threadCurrent = some t ∧ (s.threads t).state = .running then .runnable
    else (s.threads t).state := by
  unfold State.parked
  cases hc : s.threadCurrent with
  | none => simp
  | some c =>
      simp only [Option.some.injEq]
      by_cases htc : c = t
      · subst htc
        by_cases hrun : (s.threads c).state = .running
        · simp [State.setState, State.modThread, hrun]
        · simp [State.modThread, hrun]
      · have hne : t ≠ c := fun heq => htc heq.symm
        have hright : (if c = t ∧ (s.threads t).state = .running then ThreadState.runnable
            else (s.threads t).state) = (s.threads t).state := if_neg fun hh => htc hh.1
        rw [hright]
        split
        · exact (congrArg Thread.state (State.threads_modThread_of_ne _ hne)).trans
            (congrArg Thread.state (State.threads_modThread_of_ne _ hne))
        · exact congrArg Thread.state (State.threads_modThread_of_ne _ hne)

theorem switchTo_spec {t p : Nat} (hp : (s.threads t).proc = some p) :
    ∃ s', switchTo s t = .ok ((s.threads t).savedEsp, s') ∧ s'.threadCurrent = some t ∧
      s'.mm = Mm.mmSwitch s.mm (s.procs p).addrSpace ∧
      ∀ u, (s'.threads u).state = if u = t then .running else (s.threads u).state := by
  unfold switchTo
  have hproc : (({ s with threadCurrent := some t }.setState t .running).threads t).proc =
      some p := by
    simpa [State.setState] using hp
  have hesp : (({ s with threadCurrent := some t }.setState t .running).threads t).savedEsp =
      (s.threads t).savedEsp := by simp [State.setState]
  simp only [hproc, hesp]
  refine ⟨_, rfl, rfl, rfl, fun u => ?_⟩
  · show (({ s with threadCurrent := some t }.setState t .running).threads u).state = _
    by_cases hu : u = t
    · subst hu
      simp [State.setState]
    · rw [if_neg hu]
      exact congrArg Thread.state (State.threads_modThread_of_ne _ hu)

/-- What resuming a thread did. -/
theorem switchTo_cases {t r : Nat} (h : switchTo s t = .ok (r, s')) :
    ∃ p, (s.threads t).proc = some p ∧ r = (s.threads t).savedEsp ∧ s'.threadCurrent = some t ∧
      s'.mm = Mm.mmSwitch s.mm (s.procs p).addrSpace ∧
      ∀ u, (s'.threads u).state = if u = t then .running else (s.threads u).state := by
  cases hp : (s.threads t).proc with
  | none =>
      unfold switchTo at h
      have hproc : (({ s with threadCurrent := some t }.setState t .running).threads t).proc =
          none := by
        simpa [State.setState] using hp
      simp only [hproc] at h
      cases h
  | some p =>
      obtain ⟨s₁, hs₁, hcur, hmm, hstates⟩ := switchTo_spec hp
      rw [h, Except.ok.injEq, Prod.mk.injEq] at hs₁
      obtain ⟨rfl, rfl⟩ := hs₁
      exact ⟨p, rfl, rfl, hcur, hmm, hstates⟩

theorem nextRunnable_some {start : Option Nat} {t : Nat}
    (h : nextRunnable s start = .ok (some t)) : (s.threads t).state = .runnable := by
  unfold nextRunnable at h
  split at h
  · simp at h
  simp only at h
  split at h
  · rename_i hrun
    simp only [Except.ok.injEq, Option.some.injEq] at h
    exact h ▸ hrun
  split at h
  · cases h
  · simp at h
  · split at h
    · rename_i hrun
      simp only [Except.ok.injEq, Option.some.injEq] at h
      exact h ▸ hrun
    · simp at h

/-- What a switch can do. -/
theorem schedDoSwitch_cases {esp r : Nat} (h : schedDoSwitch s esp = .ok (r, s')) :
    ((s.parked esp).threadHead = none ∧ s' = s.parked esp) ∨
    ∃ head next, (s.parked esp).threadHead = some head ∧
      nextRunnable (s.parked esp) ((s.parked esp).switchStart head) = .ok next ∧
      ((next = none ∧ s' = { s.parked esp with threadCurrent := none }) ∨
        ∃ t, next = some t ∧ switchTo (s.parked esp) t = .ok (r, s')) := by
  unfold schedDoSwitch at h
  simp only at h
  split at h
  · rename_i hnone
    simp only [Except.ok.injEq, Prod.mk.injEq] at h
    exact .inl ⟨hnone, h.2.symm⟩
  rename_i head hhead
  obtain ⟨next, hnext, h⟩ := bind_eq_ok.mp h
  refine .inr ⟨head, next, hhead, hnext, ?_⟩
  split at h
  · simp only [Except.ok.injEq, Prod.mk.injEq] at h
    exact .inl ⟨rfl, h.2.symm⟩
  · rename_i t
    exact .inr ⟨t, rfl, h⟩

/-- A switch makes a runnable thread the running one, and touches no other state. -/
theorem schedDoSwitch_state {esp r : Nat} (h : schedDoSwitch s esp = .ok (r, s')) (t : Nat) :
    (s'.threads t).state = ((s.parked esp).threads t).state ∨
      (((s.parked esp).threads t).state = .runnable ∧ (s'.threads t).state = .running ∧
        s'.threadCurrent = some t) := by
  obtain ⟨-, rfl⟩ | ⟨head, next, -, hnext, ⟨-, rfl⟩ | ⟨u, rfl, hswitch⟩⟩ := schedDoSwitch_cases h
  · exact .inl rfl
  · exact .inl rfl
  · have hrunnable := nextRunnable_some hnext
    obtain ⟨p, -, -, hcur, -, hstates⟩ := switchTo_cases hswitch
    rw [hstates]
    by_cases ht : t = u
    · subst ht
      exact .inr ⟨hrunnable, if_pos rfl, hcur⟩
    · exact .inl (if_neg ht)

/-- What blocking does. -/
theorem schedBlockCurrentLocked_cases {kind : WaitKind} {target : Nat}
    (h : schedBlockCurrentLocked s kind target = .ok s') :
    (s.threadCurrent = none ∧ s' = s) ∨
    ∃ c p, s.threadCurrent = some c ∧ (s.threads c).proc = some p ∧
      s' = (s.modThread c fun th => th.waiting kind target p (s.procs p).waiters).setWaiters p
        (some c) := by
  unfold schedBlockCurrentLocked at h
  split at h
  · rename_i hnone
    exact .inl ⟨hnone, (Except.ok.inj h).symm⟩
  rename_i c hc
  split at h
  · cases h
  · rename_i p hp
    exact .inr ⟨c, p, hc, hp, (Except.ok.inj h).symm⟩

/-- What going to sleep does. -/
theorem schedThreadSleep_cases {n : Nat} (h : schedThreadSleep s n = .ok s') :
    (s.threadCurrent = none ∧ s' = s) ∨
    ∃ c s₁, s.threadCurrent = some c ∧
      sleepqInsert (s.asleep c ((s.ticks + n) % 2 ^ 64 % 2 ^ 32)) c = .ok s₁ ∧
      s' = schedThreadYield s₁ := by
  unfold schedThreadSleep at h
  split at h
  · rename_i hnone
    exact .inl ⟨hnone, (Except.ok.inj h).symm⟩
  rename_i c hc
  obtain ⟨s₁, hinsert, h⟩ := bind_eq_ok.mp h
  exact .inr ⟨c, s₁, hc, hinsert, (Except.ok.inj h).symm⟩

/-- The states of the threads while one of them exits. -/
theorem exiting_state (c p : Nat) (code : BitVec 32) (t : Nat) :
    ((s.exiting c p code).threads t).state =
      if t = c then .zombie else (s.threads t).state := by
  unfold State.exiting
  rw [State.threads_modProc]
  by_cases ht : t = c
  · subst ht
    simp
  · rw [if_neg ht]
    exact congrArg Thread.state (State.threads_modThread_of_ne _ ht)

end Current

end Unidos.Sched
