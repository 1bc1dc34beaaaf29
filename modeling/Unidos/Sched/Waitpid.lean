import Unidos.Sched.Tree
import Unidos.Sched.Wait

/-!
# Waiting for children

A thread that waits for a child should have one: `Served s l x` says that every blocked thread has a
child that it waits for, other than `x`. An exit wakes one waiting thread only, so that of two
threads that wait for the same child one is left behind when the child is reaped. `run_served` says
when this does not happen.
-/

namespace Unidos.Sched

open Lib

/-- Thread `t` waits for process `c`. -/
def State.WaitsFor (s : State) (t c : Nat) : Prop :=
  (s.threads t).waitKind = .any ∨
    ((s.threads t).waitKind = .child ∧ (s.threads t).waitTargetPid = (s.procs c).pid)

/-- Every blocked thread has a child that it waits for, other than `x`. -/
def Served (s : State) (l : Nat → List Nat) (x : Option Nat) : Prop :=
  ∀ t, (s.threads t).slotInuse = true → (s.threads t).state = .blocked →
    ∃ p, (s.threads t).proc = some p ∧ ∃ c ∈ l p, some c ≠ x ∧ s.WaitsFor t c

namespace Served

variable {s s' : State} {l l' : Nat → List Nat} {x x' : Option Nat}

/-- Blocked threads are as they were, and the children that they wait for are still there. -/
theorem congr (h : Served s l x)
    (hthread : ∀ t, (s'.threads t).slotInuse = true → (s'.threads t).state = .blocked →
      (s.threads t).slotInuse = true ∧ (s.threads t).state = .blocked ∧
        (s'.threads t).proc = (s.threads t).proc ∧
        (s'.threads t).waitKind = (s.threads t).waitKind ∧
        (s'.threads t).waitTargetPid = (s.threads t).waitTargetPid)
    (hchild : ∀ p, ∀ c ∈ l p, some c ≠ x → c ∈ l' p ∧ some c ≠ x' ∧
      (s'.procs c).pid = (s.procs c).pid) : Served s' l' x' := by
  intro t ht hb
  obtain ⟨hinuse, hblocked, hproc, hkind, htarget⟩ := hthread t ht hb
  obtain ⟨p, hp, c, hc, hne, hwaits⟩ := h t hinuse hblocked
  obtain ⟨hc', hne', hpid⟩ := hchild p c hc hne
  refine ⟨p, hproc.trans hp, c, hc', hne', ?_⟩
  rw [State.WaitsFor, hkind, htarget, hpid]
  exact hwaits

theorem frame (h : Served s l x) {parts : List Part} (hm : Modifies parts s s')
    (hinuse : .inuse ∉ parts) (howner : .owner ∉ parts) (hwait : .wait ∉ parts)
    (hident : .ident ∉ parts) (hblocked : SameBlocked s s') : Served s' l x := by
  refine h.congr (fun t ht hb => ?_) fun p c hc hne => ⟨hc, hne, hm.pid hident c⟩
  rw [hm.inuse hinuse] at ht
  exact ⟨ht, (hblocked t).mp hb, hm.owner howner t, hm.waitKind hwait t, hm.waitTargetPid hwait t⟩

theorem alloc (h : Served s l none) (hkids : Kids s l) {parent r : Option Nat}
    {context : ProcessContext} (halloc : procAlloc s parent context = .ok (r, s')) :
    Served s' (withChild l parent r) r := by
  have hthreads := procAlloc_threads halloc
  refine h.congr (fun t ht hb => ?_) fun p c hc _ => ?_
  · rw [hthreads] at ht hb ⊢
    exact ⟨ht, hb, rfl, rfl, rfl⟩
  · obtain ⟨hcuse, -⟩ := hkids.mem p c hc
    obtain ⟨-, hother⟩ := procAlloc_slots halloc hcuse
    refine ⟨?_, ?_, (procAlloc_other halloc hother (k := .ident) (by decide)).2.1⟩
    · unfold withChild
      split
      · rename_i d q
        by_cases hpq : p = q
        · subst hpq
          rw [Function.update_self]
          exact List.mem_append_left _ hc
        · rwa [Function.update_of_ne hpq]
      · exact hc
    · intro heq
      subst heq
      exact hother (procAlloc_new halloc).1

theorem weaken (h : Served s l x) : Served s l none :=
  h.congr (fun _ ht hb => ⟨ht, hb, rfl, rfl, rfl⟩) fun _ _ hc _ => ⟨hc, by simp, rfl⟩

theorem add (h : Served s l x) {entry : BitVec 32} {p : Nat} {r : Option Nat}
    (hadd : schedAddThread s entry (some p) = .ok (r, s')) : Served s' l x := by
  refine h.congr (fun t ht hb => ?_) fun q c hc hne =>
    ⟨hc, hne, (schedAddThread_modifies hadd).pid (by decide) c⟩
  obtain ⟨-, -, hst, -⟩ | ⟨hr, hst, hproc, hinuse⟩ := schedAddThread_state hadd t
  · rw [hst] at hb
    cases hb
  · obtain ⟨hkind, htarget, -⟩ := schedAddThread_other hadd hr (k := .wait) (by decide)
    exact ⟨hinuse ▸ ht, hst ▸ hb, hproc, hkind, htarget⟩

theorem reap (h : Served s l x) {t : Nat} (hreap : threadReap s t = .ok s') : Served s' l x := by
  refine h.congr (fun u hu hb => ?_) fun q c hc hne =>
    ⟨hc, hne, (threadReap_modifies hreap).pid (by decide) c⟩
  have hut : u ≠ t := by
    intro heq
    rw [heq, (threadReap_self hreap).1] at hu
    cases hu
  obtain ⟨hinuse, hst, hproc⟩ := (threadReap_state hreap).2 u hut
  obtain ⟨hkind, htarget, -⟩ := threadReap_other hreap hut (k := .wait) (by decide)
  exact ⟨hinuse ▸ hu, hst ▸ hb, hproc, hkind, htarget⟩

/-- A process goes that nobody depends on. -/
theorem free {z : Nat} (h : Served s l (some z))
    (hz : ∀ t, (s.threads t).slotInuse = true → (s.threads t).proc = some z →
      (s.threads t).state = .zombie)
    (hfree : procFree s z = .ok s') : Served s' (withoutProcess l z) none := by
  have hthreads := procFree_threads hfree
  intro t ht hb
  rw [hthreads] at ht hb ⊢
  obtain ⟨p, hp, c, hc, hne, hwaits⟩ := h t ht hb
  have hcz : c ≠ z := fun heq => hne (heq ▸ rfl)
  have hpz : p ≠ z := by
    intro heq
    rw [hz t ht (heq ▸ hp)] at hb
    cases hb
  refine ⟨p, hp, c, ?_, by simp, ?_⟩
  · rw [withoutProcess, Function.update_of_ne hpz]
    exact (List.mem_erase_of_ne hcz).mpr hc
  · have hpid : (s'.procs c).pid = (s.procs c).pid :=
      (procFree_other hfree hcz (k := .ident) (by decide)).2.1
    rw [State.WaitsFor, hthreads, hpid]
    exact hwaits

end Served

/-! ## Waking and blocking -/

section Waking

variable {s s' : State} {l : Nat → List Nat} {x : Option Nat}

/-- Leaving a list of waiting threads does not change what the threads on it wait for. -/
theorem leaveWaiters_kinds {t : Nat} (h : leaveWaiters s t = .ok s') (u : Nat) :
    (s'.threads u).waitKind = (s.threads u).waitKind ∧
      (s'.threads u).waitTargetPid = (s.threads u).waitTargetPid := by
  unfold leaveWaiters unlinkWaiter at h
  split at h
  · rw [Except.ok.inj h]
    exact ⟨rfl, rfl⟩
  split at h
  · cases h
  · rw [Except.ok.inj h]
    exact ⟨rfl, rfl⟩
  · rw [← Except.ok.inj h]
    exact ⟨rfl, rfl⟩
  · rename_i a _
    rw [← Except.ok.inj h]
    by_cases hua : u = a
    · subst hua
      simp [State.setWaitNext]
    · rw [State.setWaitNext, State.threads_modThread_of_ne _ hua]
      exact ⟨rfl, rfl⟩

theorem Served.wake (h : Served s l x) {t : Nat} (hwake : schedWakeThread s t = .ok s') :
    Served s' l x := by
  obtain ⟨hstate, hremove⟩ | ⟨hstate, s₁, rfl, hleave⟩ | ⟨-, -, rfl⟩ := schedWakeThread_cases hwake
  · exact (h.frame (modifies_state s t .runnable) (by decide) (by decide) (by decide) (by decide)
      (.setState (by simp [hstate]) (by simp))).frame (sleepqRemove_modifies hremove) (by decide)
      (by decide) (by decide) (by decide) (.of_modifies (sleepqRemove_modifies hremove) (by decide))
  · have hm := leaveWaiters_modifies hleave
    have hpid := ((modifies_state s t .runnable).trans hm).trans (modifies_unwait s₁ t)
    refine h.congr (fun u hu hb => ?_) fun p c hc hne => ⟨hc, hne, hpid.pid (by decide) c⟩
    have hut : u ≠ t := by
      intro heq
      rw [heq, (modifies_unwait s₁ t).states (by decide), hm.states (by decide)] at hb
      simp [State.setState] at hb
    obtain ⟨hkind, htarget⟩ := leaveWaiters_kinds hleave u
    have hinuse := hm.inuse (by decide) u
    have hstates := hm.states (by decide) u
    have howner := hm.owner (by decide) u
    have hsame : (s.setState t .runnable).threads u = s.threads u :=
      State.threads_modThread_of_ne _ hut
    rw [State.threads_modThread_of_ne _ hut] at hu hb ⊢
    rw [hsame] at hkind htarget hinuse hstates howner
    exact ⟨hinuse ▸ hu, hstates ▸ hb, howner, hkind, htarget⟩
  · exact h

theorem Served.exit (h : Served s l x) {code : BitVec 32} (hactive : s.Active)
    (hexit : schedThreadExit s code = .ok s') : Served s' l x := by
  obtain ⟨c, hc, hrun⟩ := hactive
  obtain ⟨hnone, -⟩ | ⟨d, p, hd, hproc, hrest⟩ := schedThreadExit_cases hexit
  · rw [hc] at hnone
    cases hnone
  rw [hc, Option.some.injEq] at hd
  subst hd
  have hexiting := h.frame (exiting_modifies c p code) (by decide) (by decide) (by decide)
    (by decide) (exiting_blocked p code hrun)
  obtain ⟨-, s₁, s₂, hwake, hfds, rfl⟩ | ⟨-, s₁, hunlink, rfl⟩ := hrest
  · have hended := hexiting.frame (ended_modifies p code) (by decide) (by decide) (by decide)
      (by decide) (.of_modifies (ended_modifies p code) (by decide))
    have hwoken : Served s₁ l x := by
      unfold wakeParentWaiter at hwake
      split at hwake
      · exact Except.ok.inj hwake ▸ hended
      · simp only at hwake
        split at hwake
        · cases hwake
        · exact Except.ok.inj hwake ▸ hended
        · exact hended.wake hwake
    have hrest := (schedProcCleanupFds_modifies hfds).trans (schedThreadYield_modifies (s := s₂))
    exact hwoken.frame hrest (by decide) (by decide) (by decide) (by decide)
      (.of_modifies hrest (by decide))
  · have hrest := (unlinkExited_modifies hunlink).trans (schedThreadYield_modifies (s := s₁))
    exact hexiting.frame hrest (by decide) (by decide) (by decide) (by decide)
      (.of_modifies hrest (by decide))

/-- What the test for a child to wait for says. -/
theorem hasMatchingChild_true (h : Kids s l) {parent pid : Nat}
    (hmatch : hasMatchingChild s parent pid = .ok true) :
    ∃ c ∈ l parent, pid = pidAny ∨ (s.procs c).pid = pid := by
  unfold hasMatchingChild at hmatch
  split at hmatch
  · rename_i hany
    have hsome : (s.firstChild parent).isSome = true := Except.ok.inj hmatch
    obtain ⟨c, hc⟩ := Option.isSome_iff_exists.mp hsome
    have hchain := h.lists.chain parent
    rw [hc] at hchain
    obtain ⟨l', hl⟩ := hchain.exists_cons
    exact ⟨c, by simp [hl], .inl hany⟩
  · have hwalk : walk s.nextSibling (fun c => (s.procs c).pid == pid) s.processPoolCount
        (s.procs parent).firstChild = _ := walk_of_chain (h.lists.chain parent) (h.length_le parent)
    rw [hwalk] at hmatch
    have hsome : ((l parent).find? fun c => (s.procs c).pid == pid).isSome = true :=
      Except.ok.inj hmatch
    obtain ⟨c, hc⟩ := Option.isSome_iff_exists.mp hsome
    exact ⟨c, List.mem_of_find?_eq_some hc, .inr (by simpa using List.find?_some hc)⟩

/-- A thread that blocks for a child of its process has one. -/
theorem Served.block (h : Served s l none) {parent pid : Nat} (hactive : s.Active)
    (hself : schedCurrentProcess s = some parent)
    (hmatch : ∃ c ∈ l parent, pid = pidAny ∨ (s.procs c).pid = pid)
    (hblock : schedBlockCurrentLocked s (waitKindFor pid) pid = .ok s') : Served s' l none := by
  obtain ⟨c, hc, hrun⟩ := hactive
  obtain ⟨hnone, -⟩ | ⟨d, p, hd, hproc, rfl⟩ := schedBlockCurrentLocked_cases hblock
  · rw [hc] at hnone
    cases hnone
  rw [hc, Option.some.injEq] at hd
  subst hd
  have hparent : p = parent := by
    simp only [schedCurrentProcess, hc, hproc, Option.some.injEq] at hself
    exact hself
  subst hparent
  have hpid := (schedBlockCurrentLocked_modifies hblock).pid (by decide)
  let s₁ := s.modThread c fun th => th.waiting (waitKindFor pid) pid p (s.procs p).waiters
  intro t ht hb
  change (s₁.threads t).slotInuse = true at ht
  change (s₁.threads t).state = .blocked at hb
  show ∃ q, (s₁.threads t).proc = some q ∧ ∃ k ∈ l q, some k ≠ none ∧ _
  by_cases htc : t = c
  · subst htc
    obtain ⟨k, hk, hmatch⟩ := hmatch
    refine ⟨p, ?_, k, hk, by simp, ?_⟩
    · rw [State.threads_modThread_self]
      exact hproc
    · unfold State.WaitsFor
      rw [hpid]
      show (s₁.threads t).waitKind = .any ∨ ((s₁.threads t).waitKind = .child ∧
        (s₁.threads t).waitTargetPid = (s.procs k).pid)
      rw [State.threads_modThread_self]
      simp only [Thread.waiting, waitKindFor]
      by_cases hany : pid = pidAny
      · exact .inl (if_pos hany)
      · refine .inr ⟨if_neg hany, ?_⟩
        obtain hany' | heq := hmatch
        · exact absurd hany' hany
        · exact heq.symm
  · rw [State.threads_modThread_of_ne _ htc] at ht hb ⊢
    obtain ⟨q, hq, k, hk, hne, hwaits⟩ := h t ht hb
    refine ⟨q, hq, k, hk, hne, ?_⟩
    unfold State.WaitsFor
    rw [hpid]
    show (s₁.threads t).waitKind = .any ∨ ((s₁.threads t).waitKind = .child ∧
      (s₁.threads t).waitTargetPid = (s.procs k).pid)
    rw [State.threads_modThread_of_ne _ htc]
    exact hwaits

end Waking

/-! ## Reaping -/

/-- Every blocked thread has a child that it waits for, other than `x`, as the links show it. -/
def State.AllServed (s : State) (x : Option Nat) : Prop :=
  ∀ t, (s.threads t).slotInuse = true → (s.threads t).state = .blocked →
    ∃ p, (s.threads t).proc = some p ∧
      ∃ k, Chain s.nextSibling (s.firstChild p) k ∧ ∃ c ∈ k, some c ≠ x ∧ s.WaitsFor t c

section Reap

variable {s s' : State} {l : Nat → List Nat}

theorem Kids.served_iff (h : Kids s l) (x : Option Nat) : Served s l x ↔ s.AllServed x := by
  constructor
  · intro hserved t ht hb
    obtain ⟨p, hp, c, hc⟩ := hserved t ht hb
    exact ⟨p, hp, l p, h.lists.chain p, c, hc⟩
  · intro hserved t ht hb
    obtain ⟨p, hp, k, hk, c, hc⟩ := hserved t ht hb
    rw [hk.unique (h.lists.chain p)] at hc
    exact ⟨p, hp, c, hc⟩

/-- Reaping the threads of a dead process touches no blocked thread. -/
theorem Reaped.blocked {z : Nat} (h : Reaped z s s') (hlive : LiveInv s (some z))
    (hzombie : (s.procs z).state = .zombie) {t : Nat} (ht : (s.threads t).slotInuse = true)
    (hb : (s.threads t).state = .blocked) :
    (s'.threads t).slotInuse = true ∧ (s'.threads t).state = .blocked ∧
      (s'.threads t).proc = (s.threads t).proc ∧
      (s'.threads t).waitKind = (s.threads t).waitKind ∧
      (s'.threads t).waitTargetPid = (s.threads t).waitTargetPid := by
  have hkeep : LiveInv s' (some z) ∧ (s'.procs z).state = .zombie ∧
      (s'.threads t).slotInuse = true ∧ (s'.threads t).state = .blocked ∧
      (s'.threads t).proc = (s.threads t).proc ∧
      (s'.threads t).waitKind = (s.threads t).waitKind ∧
      (s'.threads t).waitTargetPid = (s.threads t).waitTargetPid := by
    refine h.invariant (I := fun u => LiveInv u (some z) ∧ (u.procs z).state = .zombie ∧
      (u.threads t).slotInuse = true ∧ (u.threads t).state = .blocked ∧
      (u.threads t).proc = (s.threads t).proc ∧
      (u.threads t).waitKind = (s.threads t).waitKind ∧
      (u.threads t).waitTargetPid = (s.threads t).waitTargetPid)
      (fun u r u₁ hinuse hproc hone hu => ?_) ⟨hlive, hzombie, ht, hb, rfl, rfl, rfl⟩
    obtain ⟨hlive, hzombie, ht, hb, howner, hkind, htarget⟩ := hu
    have htr : t ≠ r := by
      intro heq
      subst heq
      rw [hlive.zombie (by simp [hzombie]) hinuse hproc] at hb
      cases hb
    obtain ⟨huse', hst', hproc'⟩ := (threadReap_state hone).2 t htr
    obtain ⟨hkind', htarget', -⟩ := threadReap_other hone htr (k := .wait) (by decide)
    refine ⟨hlive.reap (.inr hproc) hone, ?_, huse'.trans ht, hst'.trans hb, hproc'.trans howner,
      hkind'.trans hkind, htarget'.trans htarget⟩
    rw [(threadReap_modifies hone).phase (by decide)]
    exact hzombie
  exact hkeep.2.2

/-- After a process was reaped every blocked thread has a child to wait for exactly if each had
another one before. -/
theorem procReapChild_served (hbase : Base s) (hkids : Kids s l) {parent z : Nat}
    (hreap : procReapChild s parent z = .ok (.success, s')) :
    Kids s' (withoutProcess l z) ∧
      (Served s l (some z) ↔ Served s' (withoutProcess l z) none) := by
  obtain ⟨s₁, hreaped, hlive, hzombie, -, hfree, hz⟩ := hbase.reapChild hreap
  have hkids₁ : Kids s₁ l ∧ ∀ c, (s₁.procs c).pid = (s.procs c).pid := by
    refine hreaped.invariant (I := fun u => Kids u l ∧ ∀ c, (u.procs c).pid = (s.procs c).pid)
      (fun u t u₁ _ _ hone hu => ?_) ⟨hkids, fun _ => rfl⟩
    have hm := threadReap_modifies hone
    exact ⟨hu.1.frame hm (by decide) (by decide), fun c => (hm.pid (by decide) c).trans (hu.2 c)⟩
  refine ⟨(hkids₁.1.free hfree).1, fun hserved => ?_, fun hserved t ht hb => ?_⟩
  · have hserved₁ : Served s₁ l (some z) :=
      hreaped.invariant (I := fun u => Served u l (some z))
        (fun _ _ _ _ _ hone hu => hu.reap hone) hserved
    exact hserved₁.free hz hfree
  · obtain ⟨ht', hb', hproc, hkind, htarget⟩ := hreaped.blocked hlive hzombie ht hb
    rw [← procFree_threads hfree] at ht' hb' hproc hkind htarget
    obtain ⟨p, hp, c, hc, -, hwaits⟩ := hserved t ht' hb'
    obtain ⟨-, hc⟩ := mem_withoutProcess hc
    have hcz : c ≠ z := fun heq => hkids.lists.not_mem_erase z p (heq ▸ hc)
    have hpid : (s'.procs c).pid = (s.procs c).pid :=
      (procFree_other hfree hcz (k := .ident) (by decide)).2.1.trans (hkids₁.2 c)
    refine ⟨p, hproc ▸ hp, c, List.mem_of_mem_erase hc, by simpa using hcz, ?_⟩
    rw [State.WaitsFor, hkind, htarget, hpid] at hwaits
    exact hwaits

end Reap

/-! ## Runs -/

/-- The process whose children an operation waits for. -/
def Op.waitsIn : Op → Option Nat
  | .waitpid parent _ => some parent
  | _ => none

/-- Whether an operation blocks the current thread by itself. -/
def Op.blocks : Op → Bool
  | .block _ _ => true
  | _ => false

/-- Threads block only to wait for children of their own process. -/
def OwnChildren (s : State) (op : Op) : Prop :=
  op.blocks = false ∧ ∀ p ∈ op.waitsIn, schedCurrentProcess s = some p

instance (s : State) (op : Op) : Decidable (OwnChildren s op) := inferInstanceAs (Decidable (_ ∧ _))

section Runs

variable {s s' : State} {l : Nat → List Nat}

/-- A fork that fails takes a process back that nobody waits for yet. -/
theorem fork_served (hbase : Base s) (hkids : Kids s l) (h : Served s l none) (hactive : s.Active)
    {tf : TrapFrame} (hstep : Step s (.fork tf) s') : ∃ l', Kids s' l' ∧ Served s' l' none := by
  obtain ⟨parent, r, s₁, hslot, -, halloc, -, hrest⟩ := hbase.fork hactive hstep
  have hkids₁ := hkids.alloc (by simpa using hslot) halloc
  have hserved₁ := h.alloc hkids halloc
  obtain ⟨-, rfl⟩ | ⟨c, entry, t, s₂, s₃, rfl, hadd, -, -, hm, -, hrest⟩ := hrest
  · exact ⟨_, hkids₁, hserved₁.weaken⟩
  have hkids₃ := (hkids₁.frame (schedAddThread_modifies hadd) (by decide) (by decide)).frame hm
    (by decide) (by decide)
  have hserved₃ := (hserved₁.add hadd).frame hm (by decide) (by decide) (by decide) (by decide)
    (.of_modifies hm (by decide))
  obtain ⟨-, rfl⟩ | ⟨s₄, hdrop, -, hz, hfree⟩ := hrest
  · exact ⟨_, hkids₃, hserved₃.weaken⟩
  cases t with
  | none =>
      have heq : s₃ = s₄ := Except.ok.inj hdrop
      subst heq
      exact ⟨_, (hkids₃.free hfree).1, hserved₃.free hz hfree⟩
  | some t =>
      have hkids₄ := hkids₃.frame (threadReap_modifies hdrop) (by decide) (by decide)
      exact ⟨_, (hkids₄.free hfree).1, (hserved₃.reap hdrop).free hz hfree⟩

theorem step_served {op : Op} (hbase : Base s) (hkids : Kids s l) (h : Served s l none)
    (hown : OwnChildren s op) (hreaps : ∀ z, Reaps s op z → Served s l (some z))
    (hstep : Guarded Step Proper s op s') : ∃ l', Kids s' l' ∧ Served s' l' none := by
  obtain ⟨hproper, hstep⟩ := hstep
  have hm := step_modifies hstep
  have hreap : ∀ parent z, Reaps s op z → procReapChild s parent z = .ok (.success, s') →
      ∃ l', Kids s' l' ∧ Served s' l' none := by
    intro parent z hz hreap
    obtain ⟨hkids', hiff⟩ := procReapChild_served hbase hkids hreap
    exact ⟨_, hkids', hiff.mp (hreaps z hz)⟩
  cases op with
  | procAlloc parent context =>
      obtain ⟨⟨r, s₁⟩, halloc, hs'⟩ := bind_eq_ok.mp hstep
      rw [← Except.ok.inj hs']
      exact ⟨_, hkids.alloc (fun q hq => hproper.2.2.1 q hq) halloc, (h.alloc hkids halloc).weaken⟩
  | addThread entry proc =>
      obtain ⟨⟨r, s₁⟩, hadd, hs'⟩ := bind_eq_ok.mp hstep
      rw [← Except.ok.inj hs']
      cases proc with
      | none =>
          have heq : s = s₁ := (Prod.mk.inj (Except.ok.inj hadd)).2
          exact heq ▸ ⟨l, hkids, h⟩
      | some p =>
          exact ⟨l, hkids.frame (schedAddThread_modifies hadd) (by decide) (by decide), h.add hadd⟩
  | switch esp =>
      obtain ⟨⟨r, s₁⟩, hswitch, hs'⟩ := bind_eq_ok.mp hstep
      rw [← Except.ok.inj hs']
      have hm := schedDoSwitch_modifies hswitch
      exact ⟨l, hkids.frame hm (by decide) (by decide), h.frame hm (by decide) (by decide)
        (by decide) (by decide) (schedDoSwitch_blocked hswitch)⟩
  | tick =>
      exact ⟨l, hkids.frame hm (by decide) (by decide), h.frame hm (by decide) (by decide)
        (by decide) (by decide) (incrementTicks_blocked hstep)⟩
  | wake t =>
      exact ⟨l, hkids.frame (schedWakeThread_modifies hstep) (by decide) (by decide), h.wake hstep⟩
  | sleep n =>
      have hm := schedThreadSleep_modifies hstep
      exact ⟨l, hkids.frame hm (by decide) (by decide), h.frame hm (by decide) (by decide)
        (by decide) (by decide) (schedThreadSleep_blocked (hproper.1 rfl) hstep)⟩
  | block kind target => cases hown.1
  | exit code =>
      exact ⟨l, hkids.frame (schedThreadExit_modifies hstep) (by decide) (by decide),
        h.exit (hproper.1 rfl) hstep⟩
  | reapThread t =>
      exact ⟨l, hkids.frame (threadReap_modifies hstep) (by decide) (by decide), h.reap hstep⟩
  | reapChild parent child =>
      obtain rfl | ⟨hz, hsuccess⟩ := step_reapChild hstep
      · exact ⟨l, hkids, h⟩
      · exact hreap parent child hz hsuccess
  | waitpid parent filter =>
      obtain rfl | ⟨z, hz, hsuccess⟩ | ⟨s₁, hmatch, hblock, rfl⟩ := step_waitpid hstep
      · exact ⟨l, hkids, h⟩
      · exact hreap parent z hz hsuccess
      · have hserved := h.block (hproper.1 rfl) (hown.2 parent rfl)
          (hasMatchingChild_true hkids hmatch) hblock
        have hyield := schedThreadYield_modifies (s := s₁)
        exact ⟨l, (hkids.frame (schedBlockCurrentLocked_modifies hblock) (by decide)
          (by decide)).frame hyield (by decide) (by decide), hserved.frame hyield (by decide)
          (by decide) (by decide) (by decide) (.of_modifies hyield (by decide))⟩
  | fork tf => exact fork_served hbase hkids h (hproper.1 rfl) hstep
  | console | yield | execve =>
      exact ⟨l, hkids.frame hm (by simp only [Op.parts]; decide) (by simp only [Op.parts]; decide),
        h.frame hm (by simp only [Op.parts]; decide) (by simp only [Op.parts]; decide)
        (by simp only [Op.parts]; decide) (by simp only [Op.parts]; decide)
        (.of_modifies hm (by simp only [Op.parts]; decide))⟩

/-- At the start nobody is blocked. -/
theorem schedInit_served {kib : Nat} {idle : BitVec 32} (hzero : Zeroed s)
    (h : schedInit s kib idle = .ok s') : ∃ l, Kids s' l ∧ Served s' l none := by
  obtain ⟨l, hl⟩ := schedInit_tree hzero h
  refine ⟨l, hl.toKids, fun t ht hb => ?_⟩
  obtain ⟨s₁, p, s₂, r, hblank, halloc, hadd⟩ := schedInit_cases h
  obtain ⟨-, -, hst, -⟩ | ⟨-, hst, -⟩ := schedAddThread_state hadd t
  · rw [hst] at hb
    cases hb
  · rw [hst, procAlloc_threads halloc, hblank.threads, hzero.threads] at hb
    cases hb

/-- The condition on a step: whoever waits has another child to wait for when one is reaped. -/
def ServesAll (s : State) (op : Op) : Prop :=
  Proper s op ∧ OwnChildren s op ∧ ∀ z, Reaps s op z → s.AllServed (some z)

/-- Nobody is stranded in runs where at each reap every blocked thread has another child that it
waits for. A reap that does not meet the condition strands a thread. -/
theorem run_served {s₀ s₁ s : State} {kib : Nat} {idle : BitVec 32} {ops : List Op}
    (hzero : Zeroed s₀) (hinit : schedInit s₀ kib idle = .ok s₁)
    (hrun : Run (Guarded Step ServesAll) s₁ ops s) :
    s.AllServed none ∧ ∀ parent z s', procReapChild s parent z = .ok (.success, s') →
      (s'.AllServed none ↔ s.AllServed (some z)) := by
  have hinv : Base s ∧ ∃ l, Kids s l ∧ Served s l none := by
    refine hrun.invariant (I := fun s => Base s ∧ ∃ l, Kids s l ∧ Served s l none)
      (fun s op s' h hstep => ?_) ⟨schedInit_base hzero hinit, schedInit_served hzero hinit⟩
    obtain ⟨hbase, l, hkids, hserved⟩ := h
    obtain ⟨⟨hproper, hown, hreaps⟩, hstep⟩ := hstep
    exact ⟨step_base hbase ⟨hproper, hstep⟩, step_served hbase hkids hserved hown
      (fun z hz => (hkids.served_iff _).mpr (hreaps z hz)) ⟨hproper, hstep⟩⟩
  obtain ⟨hbase, l, hkids, hserved⟩ := hinv
  refine ⟨(hkids.served_iff _).mp hserved, fun parent z s' hreap => ?_⟩
  obtain ⟨hkids', hiff⟩ := procReapChild_served hbase hkids hreap
  rw [← hkids'.served_iff, ← hkids.served_iff]
  exact hiff.symm

theorem run_served_parent : ∃ s₁ s, schedInit bootState 32768 0xC0002000 = .ok s₁ ∧
    Run (Guarded Step ServesAll) s₁ parentWaits s ∧ (s.threads 1).state = .blocked ∧
    s.AllServed none := by
  obtain ⟨s₁, hinit, htest⟩ := exists_of_okAnd (e := schedInit bootState 32768 0xC0002000)
    (p := fun s₁ => (execGuarded Op.exec (fun s op => Proper s op ∧ OwnChildren s op ∧
      ∀ p ∈ op.waitsIn, okAnd (procFindZombieChild s p pidAny) Option.isNone = true)
      s₁ parentWaits).any fun s : State => decide ((s.threads 1).state = .blocked))
    (by decide +kernel)
  obtain ⟨s, hall, htest⟩ := (Option.any_eq_true _ _).mp htest
  have hrun : Run (Guarded Step ServesAll) s₁ parentWaits s := by
    refine (run_of_execGuarded hall).imp fun op hop u hu => ⟨hu.1, hu.2.1, fun z hz => ?_⟩
    simp only [parentWaits, List.mem_cons, List.not_mem_nil, or_false] at hop
    obtain rfl | rfl | rfl | rfl | rfl | rfl := hop
    iterate 5 cases hz
    -- the wait finds no child that has exited
    obtain ⟨found, hfound, hnone⟩ := exists_of_okAnd (hu.2.2 0 rfl)
    have hz' := hz.2.1
    rw [show matchPid 0xFFFFFFFF = pidAny by decide, hfound, Except.ok.injEq] at hz'
    simp [hz'] at hnone
  exact ⟨s₁, s, hinit, hrun, of_decide_eq_true htest,
    (run_served zeroed_bootState hinit hrun).1⟩

/-- Two threads of the idle process wait for its only child. The child exits and wakes one of them,
which reaps it; the other one has nothing to wait for. -/
theorem waiter_stranded : ∃ s₁ s, schedInit bootState 32768 0xC0002000 = .ok s₁ ∧
    Run (Guarded Step fun s op => Proper s op ∧ OwnChildren s op) s₁
      [.procAlloc (some 0) .kernel, .addThread 0xC0003000 (some 0), .addThread 0xC0004000 (some 0),
        .addThread 0xC0005000 (some 1), .switch 0, .switch 4096, .waitpid 0 0xFFFFFFFF,
        .switch 4096, .waitpid 0 0xFFFFFFFF, .switch 4096, .exit 7, .switch 4096, .switch 4096,
        .waitpid 0 0xFFFFFFFF] s ∧
    (s.threads 1).slotInuse = true ∧ (s.threads 1).state = .blocked ∧
    (s.threads 1).proc = some 0 ∧ s.firstChild 0 = none := by
  obtain ⟨s₁, hinit, htest⟩ := exists_of_okAnd (e := schedInit bootState 32768 0xC0002000)
    (p := fun s₁ => (execGuarded Op.exec (fun s op => Proper s op ∧ OwnChildren s op) s₁
      [.procAlloc (some 0) .kernel, .addThread 0xC0003000 (some 0), .addThread 0xC0004000 (some 0),
        .addThread 0xC0005000 (some 1), .switch 0, .switch 4096, .waitpid 0 0xFFFFFFFF,
        .switch 4096, .waitpid 0 0xFFFFFFFF, .switch 4096, .exit 7, .switch 4096, .switch 4096,
        .waitpid 0 0xFFFFFFFF]).any fun s : State =>
          (s.threads 1).slotInuse && decide ((s.threads 1).state = .blocked) &&
            decide ((s.threads 1).proc = some 0) && decide (s.firstChild 0 = none))
    (by decide +kernel)
  obtain ⟨s, hall, htest⟩ := (Option.any_eq_true _ _).mp htest
  simp only [Bool.and_eq_true, decide_eq_true_eq] at htest
  obtain ⟨⟨⟨hinuse, hb⟩, hproc⟩, hnone⟩ := htest
  exact ⟨s₁, s, hinit, run_of_execGuarded hall, hinuse, hb, hproc, hnone⟩

end Runs

end Unidos.Sched
