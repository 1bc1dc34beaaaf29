import Unidos.Sched.Waitpid

/-!
# Exits are delivered once

A history of events goes along with the runs: processes start, threads of processes exit, and waits
deliver exits. At each delivery the last event of that process is the exit that is delivered, with
the status of the thread that exited last. So no exit is delivered twice. `run_deliver` says so, and
also that a wait fails for want of a child only if there is none.
-/

namespace Unidos.Sched

open Lib

/-- What happens to processes. -/
inductive Event where
  | started (p : Nat)
  | exited (p : Nat) (code : BitVec 32)
  | delivered (p : Nat) (status : BitVec 32)
  deriving DecidableEq

/-- The process that an event is about. -/
def Event.about : Event → Nat
  | .started p => p
  | .exited p _ => p
  | .delivered p _ => p

/-- The last event of process `p`, in a history that has the last event in front. -/
def lastOf (p : Nat) (events : List Event) : Option Event := events.find? fun e => e.about == p

/-- The events of an operation. -/
def Op.events (s : State) : Op → List Event
  | .procAlloc parent context =>
      match Sched.procAlloc s parent context with
      | .ok (some p, _) => [.started p]
      | _ => []
  | .fork tf =>
      match Sched.fork s tf with
      | .ok (pid, _, _) => if pid < 0 then [] else [.started pid.toNat]
      | _ => []
  | .exit code =>
      match schedCurrentProcess s with
      | some p => [.exited p code]
      | none => []
  | .waitpid parent filter =>
      match procWaitpid s parent filter with
      | .ok (.reaped pid status, _) => [.delivered pid status]
      | _ => []
  | _ => []

/-- Processes are known by their slots, and the last event of a process that has ended is its
exit. -/
structure Exits (s : State) (events : List Event) : Prop where
  pid : ∀ p, (s.procs p).slotInuse = true → (s.procs p).pid = p
  ended : ∀ p, (s.procs p).slotInuse = true → (s.procs p).state = .zombie →
    lastOf p events = some (.exited p (s.procs p).exitCode)

namespace Exits

variable {s s' : State} {events : List Event}

theorem lastOf_other {p : Nat} {e : Event} (h : e.about ≠ p) :
    lastOf p (e :: events) = lastOf p events :=
  List.find?_cons_of_neg (by simpa using h)

theorem frame (h : Exits s events) {parts : List Part} (hm : Modifies parts s s')
    (hslot : .slot ∉ parts) (hident : .ident ∉ parts) (hphase : .phase ∉ parts) :
    Exits s' events := by
  refine ⟨fun p hp => ?_, fun p hp hz => ?_⟩
  · rw [hm.slot hslot] at hp
    rw [hm.pid hident]
    exact h.pid p hp
  · rw [hm.slot hslot] at hp
    rw [hm.phase hphase] at hz
    rw [hm.exitCode hphase]
    exact h.ended p hp hz

theorem alloc (h : Exits s events) {parent r : Option Nat} {context : ProcessContext}
    (halloc : procAlloc s parent context = .ok (r, s')) : Exits s' events := by
  refine ⟨fun p hp => ?_, fun p hp hz => ?_⟩
  · by_cases hnew : allocProcessSlot s = some p
    · exact ((procAlloc_slot halloc hnew).2.2 .ident (by decide)).2.1
    · have hslot : (s'.procs p).slotInuse = (s.procs p).slotInuse :=
        procAlloc_other halloc hnew (k := .slot) (by decide)
      rw [(procAlloc_other halloc hnew (k := .ident) (by decide)).2.1]
      exact h.pid p (hslot ▸ hp)
  · by_cases hnew : allocProcessSlot s = some p
    · rw [((procAlloc_slot halloc hnew).2.2 .phase (by decide)).1] at hz
      cases hz
    · have hslot : (s'.procs p).slotInuse = (s.procs p).slotInuse :=
        procAlloc_other halloc hnew (k := .slot) (by decide)
      obtain ⟨hstate, hcode⟩ := procAlloc_other halloc hnew (k := .phase) (by decide)
      rw [hcode]
      exact h.ended p (hslot ▸ hp) (hstate ▸ hz)

theorem free (h : Exits s events) {z : Nat} (hfree : procFree s z = .ok s') : Exits s' events := by
  have hne : ∀ {p}, (s'.procs p).slotInuse = true → p ≠ z := by
    intro p hp heq
    obtain ⟨pr, hself⟩ := procFree_self hfree
    rw [heq, hself] at hp
    cases hp
  have hslot : ∀ {p}, p ≠ z → (s'.procs p).slotInuse = (s.procs p).slotInuse := fun hp =>
    procFree_other hfree hp (k := .slot) (by decide)
  refine ⟨fun p hp => ?_, fun p hp hz => ?_⟩
  · rw [(procFree_other hfree (hne hp) (k := .ident) (by decide)).2.1]
    exact h.pid p (hslot (hne hp) ▸ hp)
  · obtain ⟨hstate, hcode⟩ := procFree_other hfree (hne hp) (k := .phase) (by decide)
    rw [hcode]
    exact h.ended p (hslot (hne hp) ▸ hp) (hstate ▸ hz)

/-- An event about a process that has not ended, or is gone. -/
theorem event (h : Exits s events) (e : Event)
    (he : (s.procs e.about).slotInuse = true → (s.procs e.about).state ≠ .zombie) :
    Exits s (e :: events) := by
  refine ⟨h.pid, fun p hp hz => ?_⟩
  have hne : e.about ≠ p := by
    intro heq
    rw [heq] at he
    exact he hp hz
  rw [lastOf_other hne]
  exact h.ended p hp hz

end Exits

theorem exits_kept (events : List Event) : Kept fun s => Exits s events where
  frame := fun hm h => h.frame hm (by decide) (by decide) (by decide)
  alloc := fun _ _ h halloc => h.alloc halloc
  add := fun _ _ _ h hadd =>
    h.frame (schedAddThread_modifies hadd) (by decide) (by decide) (by decide)
  reap := fun _ _ _ h hreap =>
    h.frame (threadReap_modifies hreap) (by decide) (by decide) (by decide)
  free := fun _ _ h hfree => h.free hfree

/-! ## Steps -/

section Steps

variable {s s' : State} {events : List Event}

/-- The exit of a thread is an event of its process; if it was the last thread, the process ends
with that code. -/
theorem exit_exits (hlive : LiveInv s none) (h : Exits s events) {code : BitVec 32}
    (hactive : s.Active) (hexit : schedThreadExit s code = .ok s') :
    Exits s' (Op.events s (.exit code) ++ events) := by
  obtain ⟨c, hc, hrun⟩ := hactive
  obtain ⟨p, hproc, hslot, halive⟩ :=
    hlive.owner c (hlive.inuse (by simp [hrun])) (by simp [hrun])
  have hevents : Op.events s (.exit code) = [.exited p code] := by
    simp [Op.events, schedCurrentProcess, hc, hproc]
  rw [hevents]
  obtain ⟨hnone, -⟩ | ⟨d, q, hd, hq, hrest⟩ := schedThreadExit_cases hexit
  · rw [hc] at hnone
    cases hnone
  rw [hc, Option.some.injEq] at hd
  subst hd
  rw [hproc, Option.some.injEq] at hq
  subst hq
  have hexiting := h.frame (exiting_modifies c p code) (by decide) (by decide) (by decide)
  have halive' : ((s.exiting c p code).procs p).state = .alive :=
    ((exiting_modifies c p code).phase (by decide) p).trans halive
  obtain ⟨-, s₁, s₂, hwake, hfds, rfl⟩ | ⟨-, s₁, hunlink, rfl⟩ := hrest
  · have hended : Exits ((s.exiting c p code).ended p code) ([.exited p code] ++ events) := by
      have hm := ended_modifies (s := s.exiting c p code) p code
      refine ⟨fun q hq => ?_, fun q hq hz => ?_⟩
      · rw [hm.slot (by decide)] at hq
        rw [hm.pid (by decide)]
        exact hexiting.pid q hq
      · rw [hm.slot (by decide)] at hq
        by_cases hqp : q = p
        · subst hqp
          simp [lastOf, Event.about, State.ended]
        · have hsame : ((s.exiting c p code).ended p code).procs q =
              (s.exiting c p code).procs q := State.procs_modProc_of_ne _ hqp
          rw [hsame] at hz ⊢
          rw [List.singleton_append, Exits.lastOf_other (by exact fun heq => hqp heq.symm)]
          exact hexiting.ended q hq hz
    exact hended.frame ((wakeParentWaiter_modifies hwake).trans
      ((schedProcCleanupFds_modifies hfds).trans schedThreadYield_modifies)) (by decide) (by decide)
      (by decide)
  · refine (hexiting.event (.exited p code) fun _ => ?_).frame
      ((unlinkExited_modifies hunlink).trans schedThreadYield_modifies) (by decide) (by decide)
      (by decide)
    show ((s.exiting c p code).procs p).state ≠ .zombie
    simp [halive']

/-- What a successful wait found: a child that has ended. -/
theorem procFindZombieChild_some {l : Nat → List Nat} (h : Kids s l) {parent pid z : Nat}
    (hfind : procFindZombieChild s parent pid = .ok (some z)) :
    z ∈ l parent ∧ s.matchesPid pid z = true ∧ (s.procs z).state = .zombie := by
  unfold procFindZombieChild at hfind
  simp only at hfind
  split at hfind
  · cases hfind
  · simp at hfind
  rename_i c hwalk
  rw [show (s.procs parent).firstChild = s.firstChild parent from rfl,
    walk_of_chain (h.lists.chain parent) (h.length_le parent), Option.some.injEq] at hwalk
  split at hfind
  · rename_i hfound
    simp only [Except.ok.injEq, Option.some.injEq] at hfind
    subst hfind
    simp only [Bool.and_eq_true, beq_iff_eq] at hfound
    exact ⟨List.mem_of_find?_eq_some hwalk, hfound.1, hfound.2⟩
  · cases hfind

/-- Process `c` is one that a wait with this filter is about. -/
def State.Matches (s : State) (filter : BitVec 32) (c : Nat) : Prop :=
  filter.toInt = -1 ∨ filter.toNat = (s.procs c).pid

theorem matches_of_matchesPid {filter : BitVec 32} {c : Nat}
    (h : s.matchesPid (matchPid filter) c = true) : s.Matches filter c := by
  unfold State.Matches
  unfold State.matchesPid matchPid at h
  by_cases hany : filter.toInt = -1
  · exact .inl hany
  rw [if_neg hany, Bool.or_eq_true, beq_iff_eq, beq_iff_eq] at h
  obtain hall | hpid := h
  · rw [BitVec.toInt_eq_toNat_cond, hall] at hany
    exact absurd (by decide) hany
  · exact .inr hpid.symm

/-- A wait that returns a pid has reaped that process, which was a child and had ended. -/
theorem procWaitpid_reaped {l : Nat → List Nat} (hkids : Kids s l) (h : Exits s events)
    {parent pid : Nat} {filter status : BitVec 32}
    (hwait : procWaitpid s parent filter = .ok (.reaped pid status, s')) :
    pid ∈ l parent ∧ (s.procs pid).slotInuse = true ∧ s.Matches filter pid ∧
      (s.procs pid).state = .zombie ∧ status = (s.procs pid).exitCode ∧
      procReapChild s parent pid = .ok (.success, s') := by
  obtain ⟨-, hr, -⟩ | ⟨-, some?, zombie, -, hfind, hrest⟩ := procWaitpid_cases hwait
  · cases hr
  obtain ⟨z, rr, rfl, hreap, ⟨rfl, hr⟩ | ⟨-, hr⟩⟩ | ⟨-, -, hr, -⟩ | ⟨-, -, hr, -⟩ := hrest
  · obtain ⟨hmem, hmatch, hzombie⟩ := procFindZombieChild_some hkids hfind
    obtain ⟨hinuse, -⟩ := hkids.mem parent z hmem
    rw [WaitResult.reaped.injEq, h.pid z hinuse] at hr
    obtain ⟨rfl, rfl⟩ := hr
    exact ⟨hmem, hinuse, matches_of_matchesPid hmatch, hzombie, rfl, hreap⟩
  · cases hr
  · cases hr
  · cases hr

/-- A wait fails for want of a child only if there is none that it could wait for. -/
theorem procWaitpid_child {l : Nat → List Nat} (hkids : Kids s l) {parent : Nat}
    {filter : BitVec 32} (hwait : procWaitpid s parent filter = .ok (.error .child, s')) :
    ∀ c ∈ l parent, ¬ s.Matches filter c := by
  obtain ⟨-, hr, -⟩ | ⟨-, some?, zombie, hmatch, hfind, hrest⟩ := procWaitpid_cases hwait
  · cases hr
  obtain ⟨z, rr, rfl, hreap, ⟨-, hr⟩ | ⟨hrr, -⟩⟩ | ⟨-, rfl, -, -⟩ | ⟨-, -, hr, -⟩ := hrest
  · cases hr
  · -- a child that was found can be reaped
    obtain ⟨hmem, -, hzombie⟩ := procFindZombieChild_some hkids hfind
    obtain ⟨-, -, hparent | hstate⟩ | ⟨hsuccess, -⟩ := procReapChild_cases hreap
    · exact absurd (hkids.mem parent z hmem).2.1 hparent
    · exact absurd hzombie hstate
    · exact absurd hsuccess hrr
  · unfold hasMatchingChild at hmatch
    split at hmatch
    · have hnone : (s.firstChild parent).isSome = false := Except.ok.inj hmatch
      rw [Option.isSome_eq_false_iff, Option.isNone_iff_eq_none] at hnone
      rw [hkids.lists.head_eq_none.mp hnone]
      simp
    · rename_i hpid
      rw [show (s.procs parent).firstChild = s.firstChild parent from rfl,
        walk_of_chain (hkids.lists.chain parent) (hkids.length_le parent)] at hmatch
      have hnone := Option.isNone_iff_eq_none.mp
        (Option.isSome_eq_false_iff.mp (Except.ok.inj hmatch))
      intro c hc hm
      obtain hany | heq := hm
      · exact hpid (by simp [matchPid, hany])
      · refine List.find?_eq_none.mp hnone c hc ?_
        have hne : filter.toInt ≠ -1 := fun hany => hpid (by simp [matchPid, hany])
        simp [matchPid, hne, heq]
  · cases hr

theorem step_exits {op : Op} {l : Nat → List Nat} (hbase : Base s) (hkids : Kids s l)
    (h : Exits s events) (hstep : Guarded Step Proper s op s') :
    Exits s' (op.events s ++ events) := by
  obtain ⟨hproper, hstep⟩ := hstep
  have hkept := exits_kept events
  have hm := step_modifies hstep
  cases op with
  | procAlloc parent context =>
      obtain ⟨⟨r, s₁⟩, halloc, hs'⟩ := bind_eq_ok.mp hstep
      rw [← Except.ok.inj hs']
      simp only [Op.events, halloc]
      cases r with
      | none => exact h.alloc halloc
      | some p =>
          refine (h.alloc halloc).event _ fun _ => ?_
          simp [Event.about, (procAlloc_new halloc).2.2.2]
  | exit code => exact exit_exits hbase.live h (hproper.1 rfl) hstep
  | reapChild parent child =>
      obtain rfl | ⟨-, hreap⟩ := step_reapChild hstep
      · exact h
      · exact hkept.reapChild hbase h hreap
  | waitpid parent filter =>
      obtain ⟨⟨r, s₁⟩, hwait, hs'⟩ := bind_eq_ok.mp hstep
      have heq : s₁ = s' := Except.ok.inj hs'
      subst heq
      have hkeep : Exits s₁ events := by
        obtain rfl | ⟨z, -, hreap⟩ | ⟨s₂, -, hblock, rfl⟩ := step_waitpid hstep
        · exact h
        · exact hkept.reapChild hbase h hreap
        · exact h.frame ((schedBlockCurrentLocked_modifies hblock).trans
            schedThreadYield_modifies) (by decide) (by decide) (by decide)
      simp only [Op.events, hwait]
      cases r with
      | error e => exact hkeep
      | blocked => exact hkeep
      | reaped pid status =>
          obtain ⟨-, -, -, -, -, hreap⟩ := procWaitpid_reaped hkids h hwait
          obtain ⟨_, -, -, -, -, hfree, -⟩ := hbase.reapChild hreap
          obtain ⟨pr, hself⟩ := procFree_self hfree
          refine hkeep.event _ fun hinuse => ?_
          simp only [Event.about, hself] at hinuse
          cases hinuse
  | fork tf =>
      have hkeep := hkept.fork hbase h (hproper.1 rfl) hstep
      obtain ⟨⟨n, tf', s₁⟩, hfork, hs'⟩ := bind_eq_ok.mp hstep
      have heq : s₁ = s' := Except.ok.inj hs'
      subst heq
      simp only [Op.events, hfork]
      split
      · exact hkeep
      rename_i hneg
      obtain ⟨-, rfl, -⟩ | ⟨parent, child, s₂, -, halloc, ⟨-, rfl, -⟩ | ⟨c, tf₁, s₃, rfl,
        ⟨-, -, rfl, -⟩ | ⟨hclone, rfl⟩⟩⟩ := fork_cases hfork
      · exact absurd (by decide) hneg
      · exact absurd (by decide) hneg
      · exact absurd (by decide) hneg
      · obtain ⟨-, -, hinuse, halive⟩ := procAlloc_new halloc
        have hclone' := schedCloneFork_modifies hclone
        have hpid : (s₁.procs c).pid = c :=
          hkeep.pid c ((hclone'.slot (by decide) c).trans hinuse)
        refine hkeep.event _ fun _ => ?_
        rw [hpid]
        show (s₁.procs c).state ≠ .zombie
        rw [hclone'.phase (by decide), halive]
        simp
  | _ =>
      exact h.frame hm (by simp only [Op.parts]; decide) (by simp only [Op.parts]; decide)
        (by simp only [Op.parts]; decide)

end Steps

/-! ## Runs -/

/-- The scheduler with its history. -/
structure Traced where
  state : State
  events : List Event

/-- One step of the scheduler, and of the history. -/
def Traced.Step (x : Traced) (op : Op) (y : Traced) : Prop :=
  Guarded Sched.Step Proper x.state op y.state ∧ y.events = op.events x.state ++ x.events

/-- The history can be kept in every run. -/
theorem exists_traced_run {s s' : State} {ops : List Op}
    (h : Run (Guarded Sched.Step Proper) s ops s') (events : List Event) :
    ∃ events', Run Traced.Step ⟨s, events⟩ ops ⟨s', events'⟩ := by
  induction h generalizing events with
  | nil s => exact ⟨events, .nil _⟩
  | @cons s t u op ops hop _ ih =>
      obtain ⟨events', hrest⟩ := ih (op.events s ++ events)
      exact ⟨events', .cons ⟨hop, rfl⟩ hrest⟩

/-- Each delivery in the history is that of the last event of its process, which is an exit. -/
def Faithful : List Event → Prop
  | [] => True
  | e :: events =>
      (∀ p status, e = .delivered p status → lastOf p events = some (.exited p status)) ∧
        Faithful events

theorem Faithful.delivered {later earlier : List Event} {p : Nat} {status : BitVec 32}
    (h : Faithful (later ++ .delivered p status :: earlier)) :
    lastOf p earlier = some (.exited p status) := by
  induction later with
  | nil => exact h.1 p status rfl
  | cons e later ih => exact ih h.2

/-- Between two deliveries of a process there is an exit. -/
theorem Faithful.exit_between {later mid earlier : List Event} {p : Nat}
    {status status' : BitVec 32}
    (h : Faithful (later ++ .delivered p status' :: (mid ++ .delivered p status :: earlier))) :
    ∃ code, .exited p code ∈ mid := by
  have hlast := h.delivered
  unfold lastOf at hlast
  rw [List.find?_append] at hlast
  cases hmid : mid.find? (fun e => e.about == p) with
  | none =>
      rw [hmid, Option.none_or] at hlast
      simp [Event.about] at hlast
  | some e =>
      rw [hmid, Option.some_or, Option.some.injEq] at hlast
      exact ⟨status', hlast ▸ List.mem_of_find?_eq_some hmid⟩

/-- What holds of the scheduler and its history. -/
structure Traced.Inv (x : Traced) : Prop where
  base : Base x.state
  kids : ∃ l, Kids x.state l
  exits : Exits x.state x.events
  faithful : Faithful x.events

theorem Traced.step_inv {x y : Traced} {op : Op} (h : x.Inv) (hstep : Traced.Step x op y) :
    y.Inv := by
  obtain ⟨hbase, hkids, hexits, hfaithful⟩ := h
  obtain ⟨hstep, hevents⟩ := hstep
  obtain ⟨l, hl⟩ := hkids
  refine ⟨step_base hbase hstep, step_kids hbase ⟨l, hl⟩ hstep,
    hevents ▸ step_exits hbase hl hexits hstep, ?_⟩
  rw [hevents]
  -- only a wait delivers
  have hother : (∀ e ∈ op.events x.state, ∀ p status, e ≠ .delivered p status) →
      Faithful (op.events x.state ++ x.events) := by
    generalize op.events x.state = new
    intro hnew
    induction new with
    | nil => exact hfaithful
    | cons e new ih =>
        exact ⟨fun p status heq => absurd heq (hnew e (by simp) p status),
          ih fun e' he' => hnew e' (by simp [he'])⟩
  cases op with
  | waitpid parent filter =>
      simp only [Op.events]
      split
      · rename_i pid status s' hwait
        refine ⟨fun p status' heq => ?_, hfaithful⟩
        rw [Event.delivered.injEq] at heq
        obtain ⟨rfl, rfl⟩ := heq
        obtain ⟨-, hinuse, -, hzombie, hstatus, -⟩ := procWaitpid_reaped hl hexits hwait
        rw [hstatus]
        exact hexits.ended pid hinuse hzombie
      · exact hfaithful
  | procAlloc parent context =>
      refine hother ?_
      simp only [Op.events]
      split <;> simp
  | fork tf =>
      refine hother ?_
      simp only [Op.events]
      split
      · split <;> simp
      · simp
  | exit code =>
      refine hother ?_
      simp only [Op.events]
      split <;> simp
  | _ => exact hfaithful

theorem schedInit_exits {s s' : State} {kib : Nat} {idle : BitVec 32} (hzero : Zeroed s)
    (h : schedInit s kib idle = .ok s') : Exits s' [] := by
  obtain ⟨s₁, p, s₂, r, hblank, halloc, hadd⟩ := schedInit_cases h
  have hfree : ∀ p, (s₁.procs p).slotInuse ≠ true := fun p => by
    rw [hblank.procs, hzero.procs]
    simp [Process.zero]
  have hexits : Exits s₁ [] := ⟨fun p hp => absurd hp (hfree p), fun p hp => absurd hp (hfree p)⟩
  exact (hexits.alloc halloc).frame (schedAddThread_modifies hadd) (by decide) (by decide)
    (by decide)

/-- Exits are delivered exactly once. Every delivery in the history is that of the last event of its
process, and that is an exit; so there is an exit between any two deliveries of a process. A wait
that returns a pid has reaped a child that it was about, all of whose threads had exited, and
returns the code of the last of these exits. A wait fails for want of a child only if there is
none. -/
theorem run_deliver {s₀ s₁ : State} {kib : Nat} {idle : BitVec 32} {ops : List Op} {x : Traced}
    (hzero : Zeroed s₀) (hinit : schedInit s₀ kib idle = .ok s₁)
    (hrun : Run Traced.Step ⟨s₁, []⟩ ops x) :
    (∀ later earlier p status, x.events = later ++ .delivered p status :: earlier →
      lastOf p earlier = some (.exited p status)) ∧
    (∀ later mid earlier p status status',
      x.events = later ++ .delivered p status' :: (mid ++ .delivered p status :: earlier) →
      ∃ code, .exited p code ∈ mid) ∧
    (∀ parent filter pid status s',
      procWaitpid x.state parent filter = .ok (.reaped pid status, s') →
      (∃ k, Chain x.state.nextSibling (x.state.firstChild parent) k ∧ pid ∈ k) ∧
        (x.state.procs pid).pid = pid ∧ x.state.Matches filter pid ∧
        (∀ t, (x.state.threads t).slotInuse = true → (x.state.threads t).proc = some pid →
          (x.state.threads t).state = .zombie) ∧
        lastOf pid x.events = some (.exited pid status) ∧
        (s'.procs pid).slotInuse = false ∧
        ∃ k, Chain s'.nextSibling (s'.firstChild parent) k ∧ pid ∉ k) ∧
    ∀ parent filter s', procWaitpid x.state parent filter = .ok (.error .child, s') →
      ∃ k, Chain x.state.nextSibling (x.state.firstChild parent) k ∧
        ∀ c ∈ k, ¬ x.state.Matches filter c := by
  obtain ⟨l₀, hl₀⟩ := schedInit_tree hzero hinit
  have hinv : x.Inv := hrun.invariant (fun _ _ _ h hstep => Traced.step_inv h hstep)
    ⟨schedInit_base hzero hinit, ⟨l₀, hl₀.toKids⟩, schedInit_exits hzero hinit, trivial⟩
  obtain ⟨hbase, ⟨l, hl⟩, hexits, hfaithful⟩ := hinv
  refine ⟨fun later earlier p status heq => (heq ▸ hfaithful).delivered,
    fun later mid earlier p status status' heq => (heq ▸ hfaithful).exit_between,
    fun parent filter pid status s' hwait => ?_, fun parent filter s' hwait =>
    ⟨l parent, hl.lists.chain parent, procWaitpid_child hl hwait⟩⟩
  obtain ⟨hmem, hinuse, hmatch, hzombie, rfl, hreap⟩ := procWaitpid_reaped hl hexits hwait
  obtain ⟨hkids', -⟩ := procReapChild_served hbase hl hreap
  obtain ⟨_, -, -, -, -, hfree, -⟩ := hbase.reapChild hreap
  obtain ⟨pr, hself⟩ := procFree_self hfree
  refine ⟨⟨l parent, hl.lists.chain parent, hmem⟩, hexits.pid pid hinuse, hmatch,
    fun t ht hproc => hbase.live.zombie (by simp [hzombie]) ht hproc,
    hexits.ended pid hinuse hzombie, by rw [hself]; rfl, _, hkids'.lists.chain parent,
    fun hmem' => hl.lists.not_mem_erase pid parent (mem_withoutProcess hmem').2⟩

/-- A child of the idle process exits, and a second thread of the idle process waits for it. -/
def parentReaps : List Op :=
  [.procAlloc (some 0) .kernel, .addThread 0xC0003000 (some 1), .addThread 0xC0004000 (some 0),
    .switch 0, .switch 4096, .exit 7, .switch 4096]

theorem run_deliver_parent : ∃ s₁ x s', schedInit bootState 32768 0xC0002000 = .ok s₁ ∧
    Run Traced.Step ⟨s₁, []⟩ parentReaps x ∧
    procWaitpid x.state 0 0xFFFFFFFF = .ok (.reaped 1 7, s') ∧
    lastOf 1 x.events = some (.exited 1 7) := by
  obtain ⟨s₁, hinit, htest⟩ := exists_of_okAnd (e := schedInit bootState 32768 0xC0002000)
    (p := fun s₁ => (execGuarded Op.exec Proper s₁ parentReaps).any fun s : State =>
      okAnd (procWaitpid s 0 0xFFFFFFFF) fun r => decide (r.1 = .reaped 1 7))
    (by decide +kernel)
  obtain ⟨s, hall, htest⟩ := (Option.any_eq_true _ _).mp htest
  obtain ⟨⟨r, s'⟩, hwait, htest⟩ := exists_of_okAnd htest
  have hr : r = .reaped 1 7 := of_decide_eq_true htest
  subst hr
  obtain ⟨events, hrun⟩ := exists_traced_run (run_of_execGuarded hall) []
  obtain ⟨-, -, hdeliver, -⟩ := run_deliver zeroed_bootState hinit hrun
  exact ⟨s₁, _, s', hinit, hrun, hwait, (hdeliver 0 0xFFFFFFFF 1 7 s' hwait).2.2.2.2.1⟩

end Unidos.Sched
