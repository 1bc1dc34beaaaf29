import Unidos.Sched.Live

/-!
# The lists of waiting threads

A blocked thread stands on the list of waiting threads of its process, and every other thread in use
waits for nothing. `WaitLists s l` says so, where `l p` is the list of process `p`. `run_waiters`
is the result for whole runs.
-/

namespace Unidos.Sched

open Lib

/-- The first waiting thread of each process. -/
def State.waiters (s : State) (p : Nat) : Option Nat := (s.procs p).waiters

@[simp] theorem State.waiters_setWaiters (s : State) (p : Nat) (head : Option Nat) :
    (s.setWaiters p head).waiters = Function.update s.waiters p head :=
  proj_modProc s p Process.waiters _

@[simp] theorem State.waiters_modThread (s : State) (t : Nat) (f : Thread → Thread) :
    (s.modThread t f).waiters = s.waiters := rfl

@[simp] theorem State.waitNext_setWaiters (s : State) (p : Nat) (head : Option Nat) :
    (s.setWaiters p head).waitNext = s.waitNext := rfl

/-- A thread record that waits for nothing. -/
def Thread.Idle (th : Thread) : Prop :=
  th.waitKind = .none ∧ th.waitOwner = none ∧ th.waitNext = none

/-- The blocked threads stand on the lists of their processes, and the others wait for nothing. -/
structure WaitLists (s : State) (l : Nat → List Nat) : Prop where
  lists : Lists s.waitNext s.waiters l
  mem : ∀ p t, t ∈ l p ↔ (s.threads t).slotInuse = true ∧ (s.threads t).state = .blocked ∧
    (s.threads t).waitOwner = some p
  owner : ∀ t, (s.threads t).slotInuse = true → (s.threads t).state = .blocked →
    (s.threads t).waitOwner = (s.threads t).proc
  idle : ∀ t, (s.threads t).slotInuse = true → (s.threads t).state ≠ .blocked →
    (s.threads t).Idle

/-- The same threads are blocked. -/
def SameBlocked (s s' : State) : Prop :=
  ∀ t, (s'.threads t).state = .blocked ↔ (s.threads t).state = .blocked

theorem SameBlocked.of_modifies {s s' : State} {parts : List Part} (hm : Modifies parts s s')
    (hk : .states ∉ parts) : SameBlocked s s' := fun t => by rw [hm.states hk]

/-- A thread that was not blocked changes its state. -/
theorem SameBlocked.of_other {s s' : State} {c : Nat} (hwas : (s.threads c).state ≠ .blocked)
    (hnow : (s'.threads c).state ≠ .blocked)
    (hother : ∀ t, t ≠ c → (s'.threads t).state = (s.threads t).state) : SameBlocked s s' := by
  intro t
  by_cases htc : t = c
  · subst htc
    simp [hwas, hnow]
  · rw [hother t htc]

theorem SameBlocked.setState {s : State} {t : Nat} {state : ThreadState}
    (hwas : (s.threads t).state ≠ .blocked) (hnow : state ≠ .blocked) :
    SameBlocked s (s.setState t state) := by
  refine .of_other hwas (by simpa [State.setState] using hnow) fun u hu => ?_
  exact congrArg Thread.state (State.threads_modThread_of_ne _ hu)

namespace WaitLists

variable {s s' : State} {l : Nat → List Nat} {parts : List Part}

/-- A thread that is not blocked is on no list. -/
theorem not_mem (h : WaitLists s l) {t : Nat} (ht : (s.threads t).state ≠ .blocked) (p : Nat) :
    t ∉ l p := fun hmem => ht ((h.mem p t).mp hmem).2.1

theorem congr (h : WaitLists s l) (hm : Modifies parts s s') (hwait : .wait ∉ parts)
    (hinuse : .inuse ∉ parts) (howner : .owner ∉ parts) (hblocked : SameBlocked s s') :
    WaitLists s' l := by
  refine ⟨h.lists.congr (fun k n _ => ?_) (hm.waiters hwait), fun p t => ?_, fun t ht hb => ?_,
    fun t ht hb => ?_⟩
  · rw [hm.waitNext hwait]
  · rw [hm.inuse hinuse, hm.waitOwner hwait, hblocked t]
    exact h.mem p t
  · rw [hm.inuse hinuse] at ht
    rw [hm.waitOwner hwait, hm.owner howner]
    exact h.owner t ht ((hblocked t).mp hb)
  · rw [hm.inuse hinuse] at ht
    obtain ⟨hkind, hown, hnext⟩ := h.idle t ht fun hb' => hb ((hblocked t).mpr hb')
    exact ⟨(hm.waitKind hwait t).trans hkind, (hm.waitOwner hwait t).trans hown,
      (congrFun (hm.waitNext hwait) t).trans hnext⟩

theorem frame (h : WaitLists s l) (hm : Modifies parts s s') (hwait : .wait ∉ parts)
    (hinuse : .inuse ∉ parts) (howner : .owner ∉ parts) (hstates : .states ∉ parts) :
    WaitLists s' l := h.congr hm hwait hinuse howner (.of_modifies hm hstates)

end WaitLists

/-! ## Blocking and waking -/

section Waking

variable {s s' : State} {l : Nat → List Nat}

/-- A running thread blocks: it is pushed in front of the list of its process. -/
theorem WaitLists.block (h : WaitLists s l) (hlive : LiveInv s none) {kind : WaitKind}
    {target : Nat} (hactive : s.Active)
    (hblock : schedBlockCurrentLocked s kind target = .ok s') : ∃ l', WaitLists s' l' := by
  obtain ⟨c, hc, hrun⟩ := hactive
  obtain ⟨hnone, -⟩ | ⟨d, p, hd, hproc, rfl⟩ := schedBlockCurrentLocked_cases hblock
  · rw [hc] at hnone
    cases hnone
  rw [hc, Option.some.injEq] at hd
  subst hd
  have hinuse := hlive.inuse (t := c) (by simp [hrun])
  have hout := h.not_mem (t := c) (by simp [hrun])
  let s₁ := s.modThread c fun th => th.waiting kind target p (s.procs p).waiters
  have hself : s₁.threads c = (s.threads c).waiting kind target p (s.procs p).waiters :=
    State.threads_modThread_self _ _ _
  have hother : ∀ {t}, t ≠ c → s₁.threads t = s.threads t :=
    fun ht => State.threads_modThread_of_ne _ ht
  refine ⟨Function.update l p (c :: l p), ?_, fun q t => ?_, fun t ht hb => ?_, fun t ht hb => ?_⟩
  · have hnext : s₁.waitNext = Function.update s.waitNext c (s.waiters p) :=
      proj_modThread s c Thread.waitNext _
    rw [State.waitNext_setWaiters, hnext, State.waiters_setWaiters]
    exact h.lists.push hout p
  · show t ∈ Function.update l p (c :: l p) q ↔ (s₁.threads t).slotInuse = true ∧
      (s₁.threads t).state = .blocked ∧ (s₁.threads t).waitOwner = some q
    by_cases htc : t = c
    · subst htc
      rw [hself]
      by_cases hq : q = p
      · subst hq
        simp [Thread.waiting, hinuse]
      · rw [Function.update_of_ne hq]
        simp [Thread.waiting, hout q, Ne.symm hq]
    · rw [hother htc, ← h.mem q t]
      by_cases hq : q = p
      · subst hq
        simp [htc]
      · rw [Function.update_of_ne hq]
  · change (s₁.threads t).slotInuse = true at ht
    change (s₁.threads t).state = .blocked at hb
    show (s₁.threads t).waitOwner = (s₁.threads t).proc
    by_cases htc : t = c
    · subst htc
      rw [hself]
      exact hproc.symm
    · rw [hother htc] at ht hb ⊢
      exact h.owner t ht hb
  · change (s₁.threads t).slotInuse = true at ht
    change (s₁.threads t).state ≠ .blocked at hb
    show (s₁.threads t).Idle
    by_cases htc : t = c
    · subst htc
      rw [hself] at hb
      exact absurd rfl hb
    · rw [hother htc] at ht hb ⊢
      exact h.idle t ht hb

/-- A blocked thread that is woken leaves the list. -/
theorem leaveWaiters_lists (h : WaitLists s l) (hlive : LiveInv s none) {t : Nat}
    (hb : (s.threads t).state = .blocked)
    (hleave : leaveWaiters (s.setState t .runnable) t = .ok s') :
    Lists s'.waitNext s'.waiters (fun q => (l q).erase t) ∧
      ∀ u, (s'.threads u).waitKind = (s.threads u).waitKind ∧
        (s'.threads u).waitOwner = (s.threads u).waitOwner ∧
        ((∀ q, u ∉ l q) → (s'.threads u).waitNext = (s.threads u).waitNext) := by
  have hinuse := hlive.inuse (t := t) (by simp [hb])
  have hm := modifies_state s t .runnable
  have hlists : Lists (s.setState t .runnable).waitNext (s.setState t .runnable).waiters l :=
    h.lists.congr (fun k n _ => by rw [hm.waitNext (by decide)]) (hm.waiters (by decide))
  have hlen : ∀ q, (l q).length ≤ (s.setState t .runnable).threadPoolCount := by
    intro q
    refine (h.lists.chain q).length_le fun u hu => ?_
    exact hlive.lt u ((h.mem q u).mp hu).1
  unfold leaveWaiters at hleave
  rw [hm.waitOwner (by decide), h.owner t hinuse hb] at hleave
  obtain ⟨p, hproc, -⟩ := hlive.owner t hinuse (by simp [hb])
  rw [hproc] at hleave
  have hwhere : ∀ q, t ∈ l q → q = p := by
    intro q hq
    have howner := ((h.mem q t).mp hq).2.2
    rw [h.owner t hinuse hb, hproc, Option.some.injEq] at howner
    exact howner.symm
  have hsame : ∀ u, ((s.setState t .runnable).threads u).waitKind = (s.threads u).waitKind ∧
      ((s.setState t .runnable).threads u).waitOwner = (s.threads u).waitOwner ∧
      ((s.setState t .runnable).threads u).waitNext = (s.threads u).waitNext := fun u =>
    ⟨hm.waitKind (by decide) u, hm.waitOwner (by decide) u,
      congrFun (hm.waitNext (by decide)) u⟩
  unfold unlinkWaiter at hleave
  generalize s.setState t .runnable = s₁ at hleave hlists hlen hsame
  obtain ⟨hplace, herase⟩ | ⟨hplace, -, hlists'⟩ | ⟨a, ha, hplace, hlists'⟩ :=
    hlists.unlink_cases (hlen p) hwhere
  · have hplace' : place s₁.waitNext s₁.threadPoolCount (s₁.procs p).waiters t = some .absent :=
      hplace
    simp only [hplace'] at hleave
    rw [← Except.ok.inj hleave, herase]
    exact ⟨hlists, fun u => ⟨(hsame u).1, (hsame u).2.1, fun _ => (hsame u).2.2⟩⟩
  · have hplace' : place s₁.waitNext s₁.threadPoolCount (s₁.procs p).waiters t = some .front :=
      hplace
    simp only [hplace'] at hleave
    rw [← Except.ok.inj hleave, State.waitNext_setWaiters, State.waiters_setWaiters]
    exact ⟨hlists', fun u => ⟨(hsame u).1, (hsame u).2.1, fun _ => (hsame u).2.2⟩⟩
  · have hplace' : place s₁.waitNext s₁.threadPoolCount (s₁.procs p).waiters t =
        some (.behind a) := hplace
    simp only [hplace'] at hleave
    rw [← Except.ok.inj hleave, State.waitNext_setWaitNext]
    refine ⟨hlists', fun u => ?_⟩
    by_cases hua : u = a
    · subst hua
      refine ⟨?_, ?_, fun hout => absurd ha (hout p)⟩
      · rw [State.setWaitNext, State.threads_modThread_self]
        exact (hsame u).1
      · rw [State.setWaitNext, State.threads_modThread_self]
        exact (hsame u).2.1
    · rw [State.setWaitNext, State.threads_modThread_of_ne _ hua]
      exact ⟨(hsame u).1, (hsame u).2.1, fun _ => (hsame u).2.2⟩

theorem WaitLists.wake (h : WaitLists s l) (hlive : LiveInv s none) {t : Nat}
    (hwake : schedWakeThread s t = .ok s') : ∃ l', WaitLists s' l' := by
  obtain ⟨hstate, hremove⟩ | ⟨hstate, s₁, rfl, hleave⟩ | ⟨-, -, rfl⟩ := schedWakeThread_cases hwake
  · have hset := h.congr (modifies_state s t .runnable) (by decide) (by decide) (by decide)
      (.setState (by simp [hstate]) (by simp))
    exact ⟨l, hset.frame (sleepqRemove_modifies hremove) (by decide) (by decide) (by decide)
      (by decide)⟩
  · obtain ⟨hlists, hwaits⟩ := leaveWaiters_lists h hlive hstate hleave
    have hm := leaveWaiters_modifies hleave
    have hout := h.lists.not_mem_erase t
    have hself : ((s₁.modThread t Thread.unwait).threads t).state = .runnable := by
      rw [(modifies_unwait s₁ t).states (by decide), hm.states (by decide)]
      simp [State.setState]
    -- the other threads are as they were, but for the links
    have hother : ∀ {u}, u ≠ t →
        ((s₁.modThread t Thread.unwait).threads u).slotInuse = (s.threads u).slotInuse ∧
        ((s₁.modThread t Thread.unwait).threads u).state = (s.threads u).state ∧
        ((s₁.modThread t Thread.unwait).threads u).proc = (s.threads u).proc ∧
        (s₁.modThread t Thread.unwait).threads u = s₁.threads u := by
      intro u hu
      have hsame := State.threads_modThread_of_ne (s := s₁) Thread.unwait hu
      have hsame' : (s.setState t .runnable).threads u = s.threads u :=
        State.threads_modThread_of_ne _ hu
      refine ⟨?_, ?_, ?_, hsame⟩
      · rw [hsame, hm.inuse (by decide), hsame']
      · rw [hsame, hm.states (by decide), hsame']
      · rw [hsame, hm.owner (by decide), hsame']
    refine ⟨fun q => (l q).erase t, ?_, fun q u => ?_, fun u hu hb => ?_, fun u hu hb => ?_⟩
    · have hnext : (s₁.modThread t Thread.unwait).waitNext = Function.update s₁.waitNext t none :=
        proj_modThread s₁ t Thread.waitNext _
      rw [hnext]
      exact hlists.setNext hout none
    · by_cases hut : u = t
      · subst hut
        refine ⟨fun hu => absurd hu (hout q), fun hu => ?_⟩
        rw [hself] at hu
        cases hu.2.1
      · obtain ⟨huse, hst, -, hsame⟩ := hother hut
        rw [huse, hst, hsame, (hwaits u).2.1, List.mem_erase_of_ne hut]
        exact h.mem q u
    · by_cases hut : u = t
      · rw [hut, hself] at hb
        cases hb
      · obtain ⟨huse, hst, hproc, hsame⟩ := hother hut
        rw [hproc, hsame, (hwaits u).2.1]
        exact h.owner u (huse ▸ hu) (hst ▸ hb)
    · by_cases hut : u = t
      · subst hut
        simp [Thread.Idle, Thread.unwait]
      · obtain ⟨huse, hst, -, hsame⟩ := hother hut
        obtain ⟨hkind, hown, hnext⟩ := hwaits u
        have hb' : (s.threads u).state ≠ .blocked := hst ▸ hb
        obtain ⟨hk, ho, hn⟩ := h.idle u (huse ▸ hu) hb'
        rw [Thread.Idle, hsame, hkind, hown, hnext (h.not_mem hb')]
        exact ⟨hk, ho, hn⟩
  · exact ⟨l, h⟩

theorem WaitLists.wakeParent (h : WaitLists s l) (hlive : LiveInv s none) {child : Nat}
    (hwake : wakeParentWaiter s child = .ok s') : ∃ l', WaitLists s' l' := by
  unfold wakeParentWaiter at hwake
  split at hwake
  · exact ⟨l, Except.ok.inj hwake ▸ h⟩
  · simp only at hwake
    split at hwake
    · cases hwake
    · exact ⟨l, Except.ok.inj hwake ▸ h⟩
    · exact h.wake hlive hwake

/-- A tick wakes sleeping threads only. -/
theorem wakeDue_blocked {fuel : Nat} {woke woke' : Bool}
    (h : wakeDue fuel s woke = .ok (woke', s')) : SameBlocked s s' := by
  induction fuel generalizing s woke with
  | zero =>
      obtain ⟨-, rfl, -⟩ | ⟨n, t, hn, -⟩ := wakeDue_cases h
      · exact fun _ => Iff.rfl
      · cases hn
  | succ fuel ih =>
      obtain ⟨-, rfl, -⟩ | ⟨n, t, hn, -, -, hrest⟩ := wakeDue_cases h
      · exact fun _ => Iff.rfl
      cases hn
      have hpop : SameBlocked s _ := .of_modifies (modifies_popSleeper s t) (by decide)
      obtain ⟨hsleeps, hrest⟩ | ⟨-, hrest⟩ := hrest
      · intro u
        rw [ih hrest u, SameBlocked.setState (by simp [hsleeps.2]) (by simp) u, hpop u]
      · intro u
        rw [ih hrest u, hpop u]

theorem incrementTicks_blocked (h : incrementTicks s = .ok s') : SameBlocked s s' := by
  obtain ⟨woke, s₁, hdue, rfl⟩ := schedOnTick_cases h
  intro t
  rw [(countDown_modifies s₁ woke).states (by decide)]
  exact wakeDue_blocked hdue t

theorem schedDoSwitch_blocked {esp r : Nat} (h : schedDoSwitch s esp = .ok (r, s')) :
    SameBlocked s s' := by
  intro t
  have hparked := parked_state (s := s) esp t
  split at hparked
  · rename_i hrun
    obtain heq | ⟨-, hnow, -⟩ := schedDoSwitch_state h t
    · simp [heq, hparked, hrun.2]
    · simp [hnow, hrun.2]
  · obtain heq | ⟨hrunnable, hnow, -⟩ := schedDoSwitch_state h t
    · rw [heq, hparked]
    · rw [hparked] at hrunnable
      simp [hnow, hrunnable]

theorem schedThreadSleep_blocked {n : Nat} (hactive : s.Active)
    (h : schedThreadSleep s n = .ok s') : SameBlocked s s' := by
  obtain ⟨c, hc, hrun⟩ := hactive
  obtain ⟨hnone, -⟩ | ⟨d, s₁, hd, hinsert, rfl⟩ := schedThreadSleep_cases h
  · rw [hc] at hnone
    cases hnone
  rw [hc, Option.some.injEq] at hd
  subst hd
  have hrest := (sleepqInsert_modifies hinsert).trans (schedThreadYield_modifies (s := s₁))
  refine .of_other (c := c) (by simp [hrun]) ?_ fun t ht => ?_
  · rw [hrest.states (by decide)]
    simp [State.asleep]
  · rw [hrest.states (by decide)]
    exact congrArg Thread.state (State.threads_modThread_of_ne _ ht)

theorem exiting_blocked {c : Nat} (p : Nat) (code : BitVec 32)
    (hrun : (s.threads c).state = .running) : SameBlocked s (s.exiting c p code) := by
  refine .of_other (c := c) (by simp [hrun]) ?_ fun t ht => ?_
  · rw [exiting_state, if_pos rfl]
    simp
  · rw [exiting_state, if_neg ht]

theorem WaitLists.exit (h : WaitLists s l) (hlive : LiveInv s none) {code : BitVec 32}
    (hactive : s.Active) (hexit : schedThreadExit s code = .ok s') : ∃ l', WaitLists s' l' := by
  obtain ⟨c, hc, hrun⟩ := hactive
  obtain ⟨hnone, -⟩ | ⟨d, p, hd, hproc, hrest⟩ := schedThreadExit_cases hexit
  · rw [hc] at hnone
    cases hnone
  rw [hc, Option.some.injEq] at hd
  subst hd
  have hexiting := h.congr (exiting_modifies c p code) (by decide) (by decide) (by decide)
    (exiting_blocked p code hrun)
  have hlive₁ := hlive.exiting code hrun hproc
  obtain ⟨hzero, s₁, s₂, hwake, hfds, rfl⟩ | ⟨-, s₁, hunlink, rfl⟩ := hrest
  · obtain ⟨q, hq, hslot, -⟩ := hlive.owner c (hlive.inuse (by simp [hrun])) (by simp [hrun])
    rw [hproc, Option.some.injEq] at hq
    subst hq
    have hlive₂ := hlive₁.ended code
      ((exiting_modifies c p code).slot (by decide) p |>.trans hslot) hzero
    have hended := hexiting.frame (ended_modifies p code) (by decide) (by decide) (by decide)
      (by decide)
    obtain ⟨l', hl'⟩ := hended.wakeParent hlive₂ hwake
    exact ⟨l', hl'.frame ((schedProcCleanupFds_modifies hfds).trans schedThreadYield_modifies)
      (by decide) (by decide) (by decide) (by decide)⟩
  · exact ⟨l, hexiting.frame ((unlinkExited_modifies hunlink).trans schedThreadYield_modifies)
      (by decide) (by decide) (by decide) (by decide)⟩

end Waking

/-! ## Threads and processes that come and go -/

section Slots

variable {s s' : State} {l : Nat → List Nat}

/-- Nobody waits in a process that has no blocked threads. -/
theorem WaitLists.eq_nil (h : WaitLists s l) {p : Nat}
    (hp : ∀ t, (s.threads t).slotInuse = true → (s.threads t).proc = some p →
      (s.threads t).state ≠ .blocked) : l p = [] := by
  refine List.eq_nil_iff_forall_not_mem.mpr fun t ht => ?_
  obtain ⟨hinuse, hb, hown⟩ := (h.mem p t).mp ht
  rw [h.owner t hinuse hb] at hown
  exact hp t hinuse hown hb

/-- Changes to the records of processes that keep the heads of the lists. -/
theorem WaitLists.of_threads (h : WaitLists s l) (hthreads : s'.threads = s.threads)
    (hwaiters : ∀ p, (s'.procs p).waiters = (s.procs p).waiters) : WaitLists s' l := by
  refine ⟨h.lists.congr (fun k n _ => ?_) hwaiters, fun p t => ?_, fun t => ?_, fun t => ?_⟩
  · show (s'.threads n).waitNext = (s.threads n).waitNext
    rw [hthreads]
  · rw [hthreads]
    exact h.mem p t
  · rw [hthreads]
    exact h.owner t
  · rw [hthreads]
    exact h.idle t

theorem WaitLists.alloc (h : WaitLists s l) (hlive : LiveInv s none) {parent r : Option Nat}
    {context : ProcessContext} (halloc : procAlloc s parent context = .ok (r, s')) :
    WaitLists s' l := by
  refine h.of_threads (procAlloc_threads halloc) fun p => ?_
  by_cases hnew : allocProcessSlot s = some p
  · have hfree := (allocProcessSlot_some hnew).2
    have hnil : l p = [] := by
      refine h.eq_nil fun t ht hproc hb => ?_
      obtain ⟨q, hq, hslot, -⟩ := hlive.owner t ht (by simp [hb])
      rw [hproc, Option.some.injEq] at hq
      rw [← hq, hfree] at hslot
      cases hslot
    have hnone : (s.procs p).waiters = none := h.lists.head_eq_none.mpr hnil
    rw [hnone]
    exact (procAlloc_slot halloc hnew).2.2 .wait (by decide)
  · exact procAlloc_other halloc hnew (k := .wait) (by decide)

theorem WaitLists.free (h : WaitLists s l) {z : Nat}
    (hz : ∀ t, (s.threads t).slotInuse = true → (s.threads t).proc = some z →
      (s.threads t).state = .zombie)
    (hfree : procFree s z = .ok s') : WaitLists s' l := by
  refine h.of_threads (procFree_threads hfree) fun p => ?_
  by_cases hpz : p = z
  · subst hpz
    have hnil : l p = [] := h.eq_nil fun t ht hproc hb => by
      rw [hz t ht hproc] at hb
      cases hb
    have hnone : (s.procs p).waiters = none := h.lists.head_eq_none.mpr hnil
    obtain ⟨pr, hself⟩ := procFree_self hfree
    rw [hself, hnone]
    rfl
  · exact procFree_other hfree hpz (k := .wait) (by decide)

/-- One thread record changes, of a thread that is on no list. -/
theorem WaitLists.of_other (h : WaitLists s l) {t : Nat} (hout : ∀ p, t ∉ l p)
    (hnow : (s'.threads t).slotInuse = true → (s'.threads t).state ≠ .blocked ∧ (s'.threads t).Idle)
    (hother : ∀ u, u ≠ t → (s'.threads u).slotInuse = (s.threads u).slotInuse ∧
      (s'.threads u).state = (s.threads u).state ∧ (s'.threads u).proc = (s.threads u).proc ∧
      SameThread .wait (s.threads u) (s'.threads u))
    (hwaiters : ∀ p, (s'.procs p).waiters = (s.procs p).waiters) : WaitLists s' l := by
  refine ⟨h.lists.congr (fun p u hu => ?_) hwaiters, fun p u => ?_, fun u hu hb => ?_,
    fun u hu hb => ?_⟩
  · obtain ⟨-, -, -, -, -, -, hnext⟩ := hother u fun heq => hout p (heq ▸ hu)
    exact hnext
  · by_cases hut : u = t
    · subst hut
      refine ⟨fun hu => absurd hu (hout p), fun hu => absurd hu.2.1 (hnow hu.1).1⟩
    · obtain ⟨huse, hst, -, -, -, hown, -⟩ := hother u hut
      rw [huse, hst, hown]
      exact h.mem p u
  · by_cases hut : u = t
    · subst hut
      exact absurd hb (hnow hu).1
    · obtain ⟨huse, hst, hproc, -, -, hown, -⟩ := hother u hut
      rw [hown, hproc]
      exact h.owner u (huse ▸ hu) (hst ▸ hb)
  · by_cases hut : u = t
    · subst hut
      exact (hnow hu).2
    · obtain ⟨huse, hst, -, hkind, -, hown, hnext⟩ := hother u hut
      rw [Thread.Idle, hkind, hown, hnext]
      exact h.idle u (huse ▸ hu) (hst ▸ hb)

theorem WaitLists.add (h : WaitLists s l) {entry : BitVec 32} {p : Nat} {r : Option Nat}
    (hadd : schedAddThread s entry (some p) = .ok (r, s')) : WaitLists s' l := by
  cases r with
  | none =>
      obtain ⟨-, ⟨hno, -⟩ | halloc⟩ | ⟨_, _, _, _, _, _, -, hno, -⟩ := schedAddThread_cases hadd
      · cases hno
      · exact h.frame (allocThreadSlot_modifies halloc) (by decide) (by decide) (by decide)
          (by decide)
      · cases hno
  | some t =>
      obtain ⟨-, hfree, q, -, -, hst, -, hkind, hown, hnext, -⟩ := schedAddThread_new hadd
      refine h.of_other (t := t) (fun q hq => ?_) (fun _ => ⟨by simp [hst], hkind, hown, hnext⟩)
        (fun u hu => ?_) fun p => schedAddThread_process hadd p (k := .wait) (by decide)
      · rw [((h.mem q t).mp hq).1] at hfree
        cases hfree
      · have hne : some t ≠ some u := fun heq => hu (Option.some.inj heq).symm
        exact ⟨schedAddThread_other hadd hne (k := .inuse) (by decide),
          schedAddThread_other hadd hne (k := .states) (by decide),
          schedAddThread_other hadd hne (k := .owner) (by decide),
          schedAddThread_other hadd hne (k := .wait) (by decide)⟩

theorem WaitLists.reap (h : WaitLists s l) {t : Nat} (ht : (s.threads t).state ≠ .blocked)
    (hreap : threadReap s t = .ok s') : WaitLists s' l := by
  refine h.of_other (t := t) (h.not_mem ht) (fun hinuse => ?_) (fun u hu => ?_)
    fun p => threadReap_process hreap p (k := .wait) (by decide)
  · rw [(threadReap_self hreap).1] at hinuse
    cases hinuse
  · exact ⟨threadReap_other hreap hu (k := .inuse) (by decide),
      threadReap_other hreap hu (k := .states) (by decide),
      threadReap_other hreap hu (k := .owner) (by decide),
      threadReap_other hreap hu (k := .wait) (by decide)⟩

end Slots

/-! ## Runs -/

theorem waitLists_kept : Kept fun s => ∃ l, WaitLists s l where
  frame := fun hm ⟨l, hl⟩ =>
    ⟨l, hl.frame hm (by decide) (by decide) (by decide) (by decide)⟩
  alloc := fun hlive _ ⟨l, hl⟩ halloc => ⟨l, hl.alloc hlive halloc⟩
  add := fun _ _ _ ⟨l, hl⟩ hadd => ⟨l, hl.add hadd⟩
  reap := by
    intro s s' t z _ _ hstate ⟨l, hl⟩ hreap
    refine ⟨l, hl.reap ?_ hreap⟩
    cases hstate with
    | inl hzombie => simp [hzombie]
    | inr hrunnable => simp [hrunnable]
  free := fun _ hz ⟨l, hl⟩ hfree => ⟨l, hl.free hz hfree⟩

section Runs

variable {s s' : State}

theorem step_waitLists {op : Op} (hbase : Base s) (h : ∃ l, WaitLists s l)
    (hstep : Guarded Step Proper s op s') : ∃ l, WaitLists s' l := by
  obtain ⟨hproper, hstep⟩ := hstep
  have hlive := hbase.live
  have hkept := waitLists_kept
  have hm := step_modifies hstep
  obtain ⟨l, hl⟩ := h
  cases op with
  | procAlloc parent context =>
      obtain ⟨⟨r, s₁⟩, halloc, hs'⟩ := bind_eq_ok.mp hstep
      exact ⟨l, Except.ok.inj hs' ▸ hl.alloc hlive halloc⟩
  | addThread entry proc =>
      obtain ⟨⟨r, s₁⟩, hadd, hs'⟩ := bind_eq_ok.mp hstep
      rw [← Except.ok.inj hs']
      cases proc with
      | none =>
          have heq : s = s₁ := (Prod.mk.inj (Except.ok.inj hadd)).2
          exact heq ▸ ⟨l, hl⟩
      | some p => exact ⟨l, hl.add hadd⟩
  | switch esp =>
      obtain ⟨⟨r, s₁⟩, hswitch, hs'⟩ := bind_eq_ok.mp hstep
      rw [← Except.ok.inj hs']
      exact ⟨l, hl.congr (schedDoSwitch_modifies hswitch) (by decide) (by decide) (by decide)
        (schedDoSwitch_blocked hswitch)⟩
  | tick =>
      exact ⟨l, hl.congr hm (by decide) (by decide) (by decide) (incrementTicks_blocked hstep)⟩
  | wake t => exact hl.wake hlive hstep
  | sleep n =>
      exact ⟨l, hl.congr (schedThreadSleep_modifies hstep) (by decide) (by decide) (by decide)
        (schedThreadSleep_blocked (hproper.1 rfl) hstep)⟩
  | block kind target =>
      obtain ⟨s₁, hblock, hs'⟩ := bind_eq_ok.mp hstep
      rw [← Except.ok.inj hs']
      obtain ⟨l', hl'⟩ := hl.block hlive (hproper.1 rfl) hblock
      exact ⟨l', hl'.frame schedThreadYield_modifies (by decide) (by decide) (by decide)
        (by decide)⟩
  | exit code => exact hl.exit hlive (hproper.1 rfl) hstep
  | reapThread t => exact ⟨l, hl.reap (by simp [hproper.2.2.2 t rfl]) hstep⟩
  | reapChild parent child =>
      obtain rfl | ⟨-, hreap⟩ := step_reapChild hstep
      · exact ⟨l, hl⟩
      · exact hkept.reapChild hbase ⟨l, hl⟩ hreap
  | waitpid parent filter =>
      obtain rfl | ⟨z, -, hreap⟩ | ⟨s₁, -, hblock, rfl⟩ := step_waitpid hstep
      · exact ⟨l, hl⟩
      · exact hkept.reapChild hbase ⟨l, hl⟩ hreap
      · obtain ⟨l', hl'⟩ := hl.block hlive (hproper.1 rfl) hblock
        exact ⟨l', hl'.frame schedThreadYield_modifies (by decide) (by decide) (by decide)
          (by decide)⟩
  | fork tf => exact hkept.fork hbase ⟨l, hl⟩ (hproper.1 rfl) hstep
  | console | yield | execve =>
      exact ⟨l, hl.frame hm (by simp only [Op.parts]; decide) (by simp only [Op.parts]; decide)
        (by simp only [Op.parts]; decide) (by simp only [Op.parts]; decide)⟩

/-- At the start nobody waits. -/
theorem schedInit_waitLists {kib : Nat} {idle : BitVec 32} (hzero : Zeroed s)
    (h : schedInit s kib idle = .ok s') : ∃ l, WaitLists s' l := by
  obtain ⟨s₁, p, s₂, r, hblank, halloc, hadd⟩ := schedInit_cases h
  have hthreads : ∀ t, s₁.threads t = .zero := fun t => hblank.threads ▸ hzero.threads t
  have hprocs : ∀ p, s₁.procs p = .zero := fun p => hblank.procs ▸ hzero.procs p
  have hlists : WaitLists s₁ fun _ => [] := by
    refine ⟨.empty _ fun p => ?_, fun p t => ?_, fun t ht => ?_, fun t ht => ?_⟩
    · rw [State.waiters, hprocs]
      rfl
    · simp [hthreads, Thread.zero]
    · rw [hthreads] at ht
      cases ht
    · rw [hthreads] at ht
      cases ht
  refine ⟨_, WaitLists.add (hlists.of_threads (procAlloc_threads halloc) fun q => ?_) hadd⟩
  rw [hprocs]
  by_cases hnew : allocProcessSlot s₁ = some q
  · exact (procAlloc_slot halloc hnew).2.2 .wait (by decide)
  · have hsame : (s₂.procs q).waiters = (s₁.procs q).waiters :=
      procAlloc_other halloc hnew (k := .wait) (by decide)
    rw [hsame, hprocs]

/-- The lists of waiting threads over whole runs. -/
theorem run_waiters {s₀ s₁ s : State} {kib : Nat} {idle : BitVec 32} {ops : List Op}
    (hzero : Zeroed s₀) (hinit : schedInit s₀ kib idle = .ok s₁)
    (hrun : Run (Guarded Step Proper) s₁ ops s) :
    (∀ p, (s.procs p).slotInuse = true → ∃ l, Chain s.waitNext (s.procs p).waiters l ∧ l.Nodup ∧
      ∀ t, t ∈ l ↔ (s.threads t).slotInuse = true ∧ (s.threads t).state = .blocked ∧
        (s.threads t).waitOwner = some p) ∧
    (∀ t, (s.threads t).slotInuse = true → (s.threads t).state = .blocked →
      ∃ p, (s.threads t).proc = some p ∧ (s.threads t).waitOwner = some p) ∧
    ∀ t, (s.threads t).slotInuse = true → (s.threads t).state ≠ .blocked →
      (s.threads t).waitKind = .none ∧ (s.threads t).waitOwner = none ∧
        (s.threads t).waitNext = none := by
  have hinv : Base s ∧ ∃ l, WaitLists s l := hrun.invariant
    (I := fun s => Base s ∧ ∃ l, WaitLists s l)
    (fun _ _ _ h hstep => ⟨step_base h.1 hstep, step_waitLists h.1 h.2 hstep⟩)
    ⟨schedInit_base hzero hinit, schedInit_waitLists hzero hinit⟩
  obtain ⟨hbase, l, hl⟩ := hinv
  refine ⟨fun p _ => ⟨l p, hl.lists.chain p, (hl.lists.chain p).nodup, hl.mem p⟩,
    fun t ht hb => ?_, hl.idle⟩
  obtain ⟨p, hp, -⟩ := hbase.live.owner t ht (by simp [hb])
  exact ⟨p, hp, (hl.owner t ht hb).trans hp⟩

/-- A second thread of the idle process waits for any child, and there is one. -/
def parentWaits : List Op :=
  [.procAlloc (some 0) .kernel, .addThread 0xC0003000 (some 0), .addThread 0xC0004000 (some 1),
    .switch 0, .switch 4096, .waitpid 0 0xFFFFFFFF]

theorem run_waiters_parent : ∃ s₁ s, schedInit bootState 32768 0xC0002000 = .ok s₁ ∧
    Run (Guarded Step Proper) s₁ parentWaits s ∧ (s.threads 1).state = .blocked ∧
    ∃ p, (s.threads 1).proc = some p ∧ (s.threads 1).waitOwner = some p := by
  obtain ⟨s₁, hinit, htest⟩ := exists_of_okAnd (e := schedInit bootState 32768 0xC0002000)
    (p := fun s₁ => (execGuarded Op.exec Proper s₁ parentWaits).any fun s : State =>
      (s.threads 1).slotInuse && decide ((s.threads 1).state = .blocked))
    (by decide +kernel)
  obtain ⟨s, hall, htest⟩ := (Option.any_eq_true _ _).mp htest
  simp only [Bool.and_eq_true, decide_eq_true_eq] at htest
  have hrun := run_of_execGuarded hall
  exact ⟨s₁, s, hinit, hrun, htest.2,
    (run_waiters zeroed_bootState hinit hrun).2.1 1 htest.1 htest.2⟩

end Runs

end Unidos.Sched
