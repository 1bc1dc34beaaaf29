import Unidos.Lib.Lists
import Unidos.Sched.Processes
import Unidos.Sched.Ring
import Unidos.Sched.Runs

/-!
# The threads of a process

Every process has a list of its threads. `ThreadLists s l` says that the list of process `p` is
`l p`, and that only threads of `p` are on it. When a process is reaped, the threads on its list are
reaped with it (`procReapChild_lists`). A thread that exits before the others of its process leaves
the list, and is then not reaped with the process: `run_owned` says when threads do not outlive
their process.
-/

namespace Unidos.Sched

open Lib

/-- The first thread of each process. -/
def State.threadList (s : State) (p : Nat) : Option Nat := (s.procs p).threadList

@[simp] theorem State.threadList_setThreadList (s : State) (p : Nat) (head : Option Nat) :
    (s.setThreadList p head).threadList = Function.update s.threadList p head :=
  proj_modProc s p Process.threadList _

@[simp] theorem State.threadList_setMainThread (s : State) (p : Nat) (head : Option Nat) :
    (s.setMainThread p head).threadList = Function.update s.threadList p head :=
  proj_modProc s p Process.threadList _

@[simp] theorem State.threadList_setThreadlistNext (s : State) (t : Nat) (next : Option Nat) :
    (s.setThreadlistNext t next).threadList = s.threadList := rfl

@[simp] theorem State.threadlistNext_setThreadList (s : State) (p : Nat) (head : Option Nat) :
    (s.setThreadList p head).threadlistNext = s.threadlistNext := rfl

@[simp] theorem State.threadlistNext_setMainThread (s : State) (p : Nat) (head : Option Nat) :
    (s.setMainThread p head).threadlistNext = s.threadlistNext := rfl

/-- The lists of threads hold threads of their process only. -/
structure ThreadLists (s : State) (l : Nat → List Nat) : Prop where
  lists : Lists s.threadlistNext s.threadList l
  main : ∀ p, (s.procs p).mainThread = (s.procs p).threadList
  mem : ∀ p, ∀ t ∈ l p, (s.threads t).slotInuse = true ∧ (s.threads t).proc = some p ∧
    (s.procs p).slotInuse = true
  lt : ∀ t, (s.threads t).slotInuse = true → t < s.threadPoolCount

namespace ThreadLists

variable {s s' : State} {l : Nat → List Nat} {parts : List Part}

theorem length_le (h : ThreadLists s l) (p : Nat) : (l p).length ≤ s.threadPoolCount :=
  (h.lists.chain p).length_le fun t ht => h.lt t (h.mem p t ht).1

/-- A thread is on no list but that of its process. -/
theorem where_eq (h : ThreadLists s l) {t p q : Nat} (hp : (s.threads t).proc = some p)
    (hq : t ∈ l q) : q = p := by
  have hproc := (h.mem q t hq).2.1
  rw [hp, Option.some.injEq] at hproc
  exact hproc.symm

/-- The list of a free slot is empty. -/
theorem eq_nil (h : ThreadLists s l) {p : Nat} (hp : (s.procs p).slotInuse = false) :
    l p = [] := by
  refine List.eq_nil_iff_forall_not_mem.mpr fun t ht => ?_
  rw [(h.mem p t ht).2.2] at hp
  cases hp

theorem frame (h : ThreadLists s l) (hm : Modifies parts s s') (hlist : .list ∉ parts)
    (hinuse : .inuse ∉ parts) (howner : .owner ∉ parts) (hslot : .slot ∉ parts) :
    ThreadLists s' l := by
  refine ⟨h.lists.congr ?_ (hm.threadList hlist), fun p => ?_, fun p t ht => ?_, fun t ht => ?_⟩
  · intro k n _
    rw [hm.threadlistNext hlist]
  · rw [hm.mainThread hlist, hm.threadList hlist]
    exact h.main p
  · rw [hm.inuse hinuse, hm.owner howner, hm.slot hslot]
    exact h.mem p t ht
  · rw [hm.inuse hinuse] at ht
    rw [hm.pools.threads]
    exact h.lt t ht

end ThreadLists

/-! ## Leaving a list -/

section Leave

variable {s s' : State} {l : Nat → List Nat} {p t : Nat}

/-- A thread that exits before the others of its process leaves the list. -/
theorem unlinkExited_lists (h : ThreadLists s l) (ht : (s.threads t).proc = some p)
    (hunlink : unlinkExited s p t = .ok s') : ThreadLists s' fun q => (l q).erase t := by
  have hm := unlinkExited_modifies hunlink
  have hmem : ∀ q, ∀ u ∈ (l q).erase t, u ∈ l q := fun q u => List.mem_of_mem_erase
  suffices hsuff : Lists s'.threadlistNext s'.threadList (fun q => (l q).erase t) ∧
      ∀ q, (s'.procs q).mainThread = (s'.procs q).threadList by
    refine ⟨hsuff.1, hsuff.2, fun q u hu => ?_, fun u hu => ?_⟩
    · rw [hm.inuse (by decide), hm.owner (by decide), hm.slot (by decide)]
      exact h.mem q u (hmem q u hu)
    · rw [hm.inuse (by decide)] at hu
      rw [hm.pools.threads]
      exact h.lt u hu
  unfold unlinkExited at hunlink
  have hout := h.lists.not_mem_erase t
  obtain ⟨hplace, -⟩ | ⟨hplace, -, hlists⟩ | ⟨a, -, hplace, hlists⟩ :=
    h.lists.unlink_cases (h.length_le p) fun q => h.where_eq ht
  · have hplace' : place s.threadlistNext s.threadPoolCount (s.procs p).threadList t =
        some .absent := hplace
    rw [hplace'] at hunlink
    cases hunlink
  · have hplace' : place s.threadlistNext s.threadPoolCount (s.procs p).threadList t =
        some .front := hplace
    rw [hplace'] at hunlink
    rw [← Except.ok.inj hunlink]
    refine ⟨?_, fun q => ?_⟩
    · simp only [State.threadlistNext_setThreadlistNext, State.threadList_setThreadlistNext,
        State.threadlistNext_setMainThread, State.threadList_setMainThread]
      exact hlists.setNext hout none
    · show ((s.setMainThread p _).procs q).mainThread = ((s.setMainThread p _).procs q).threadList
      by_cases hq : q = p
      · subst hq
        simp [State.setMainThread]
      · rw [State.setMainThread, State.procs_modProc_of_ne _ hq]
        exact h.main q
  · have hplace' : place s.threadlistNext s.threadPoolCount (s.procs p).threadList t =
        some (.behind a) := hplace
    rw [hplace'] at hunlink
    rw [← Except.ok.inj hunlink]
    refine ⟨?_, h.main⟩
    simp only [State.threadlistNext_setThreadlistNext, State.threadList_setThreadlistNext]
    exact hlists.setNext hout none

/-- What leaving the list does to the first thread of each process. -/
theorem leaveThreadList_lists (h : ThreadLists s l) (ht : (s.threads t).proc = some p)
    (hleave : leaveThreadList s p t = .ok s') :
    Lists s'.threadlistNext s'.threadList (fun q => (l q).erase t) ∧
      (∀ q, (s'.procs q).mainThread = (s.procs q).mainThread) ∧
      ((s.procs p).mainThread ≠ some t → s'.threadList = s.threadList) ∧
      ∀ q, q ≠ p → s'.threadList q = s.threadList q := by
  unfold leaveThreadList at hleave
  obtain ⟨hplace, herase⟩ | ⟨hplace, hhead, hlists⟩ | ⟨a, -, hplace, hlists⟩ :=
    h.lists.unlink_cases (h.length_le p) fun q => h.where_eq ht
  · have hplace' : place s.threadlistNext s.threadPoolCount (s.procs p).threadList t =
        some .absent := hplace
    rw [hplace'] at hleave
    rw [← Except.ok.inj hleave, herase]
    exact ⟨h.lists, fun _ => rfl, fun _ => rfl, fun _ _ => rfl⟩
  · have hplace' : place s.threadlistNext s.threadPoolCount (s.procs p).threadList t =
        some .front := hplace
    rw [hplace'] at hleave
    rw [← Except.ok.inj hleave]
    refine ⟨?_, fun q => ?_, fun hmain => absurd ((h.main p).trans hhead) hmain, fun q hq => ?_⟩
    · simp only [State.threadlistNext_setThreadList, State.threadList_setThreadList]
      exact hlists
    · by_cases hq : q = p
      · subst hq
        simp [State.setThreadList]
      · exact congrArg Process.mainThread (State.procs_modProc_of_ne _ hq)
    · rw [State.threadList_setThreadList, Function.update_of_ne hq]
  · have hplace' : place s.threadlistNext s.threadPoolCount (s.procs p).threadList t =
        some (.behind a) := hplace
    rw [hplace'] at hleave
    rw [← Except.ok.inj hleave]
    refine ⟨?_, fun _ => rfl, fun _ => rfl, fun _ _ => rfl⟩
    simp only [State.threadlistNext_setThreadlistNext, State.threadList_setThreadlistNext]
    exact hlists

/-- A thread that is reaped leaves the list of its process. -/
theorem unlinkThread_lists (h : ThreadLists s l) (hunlink : unlinkThread s t = .ok s') :
    Lists s'.threadlistNext s'.threadList (fun q => (l q).erase t) ∧
      ∀ q, (s'.procs q).mainThread = (s'.procs q).threadList := by
  unfold unlinkThread at hunlink
  split at hunlink
  · rename_i hproc
    have hout : ∀ q, t ∉ l q := by
      intro q hq
      have := (h.mem q t hq).2.1
      rw [hproc] at this
      cases this
    rw [← Except.ok.inj hunlink, Lists.erase_of_not_mem hout]
    exact ⟨h.lists, h.main⟩
  rename_i p hproc
  obtain ⟨s₁, hleave, hunlink⟩ := bind_eq_ok.mp hunlink
  obtain ⟨hlists, hmain, hsame, hother⟩ := leaveThreadList_lists h hproc hleave
  split at hunlink
  · rw [← Except.ok.inj hunlink]
    have hheads : (s₁.modProc p fun pr => { pr with mainThread := pr.threadList }).threadList =
        s₁.threadList :=
      (proj_modProc s₁ p Process.threadList _).trans (Function.update_eq_self _ _)
    refine ⟨hheads ▸ hlists, fun q => ?_⟩
    by_cases hq : q = p
    · subst hq
      simp
    · rw [State.procs_modProc_of_ne _ hq, hmain, h.main]
      exact (hother q hq).symm
  · rename_i hno
    rw [hmain] at hno
    rw [← Except.ok.inj hunlink]
    refine ⟨hlists, fun q => ?_⟩
    rw [hmain, h.main]
    exact (congrFun (hsame hno) q).symm

/-- Reaping a thread takes it off its list. -/
theorem ThreadLists.reap (h : ThreadLists s l) (hreap : threadReap s t = .ok s') :
    ThreadLists s' fun q => (l q).erase t := by
  obtain ⟨s₁, s₂, s₃, hring, hsleep, hunlink, rfl⟩ := threadReap_cases hreap
  have h₂ : ThreadLists s₂ l := h.frame ((threadUnlinkFromRunq_modifies hring).trans
    (sleepqRemove_modifies hsleep)) (by decide) (by decide) (by decide) (by decide)
  obtain ⟨hlists, hmain⟩ := unlinkThread_lists h₂ hunlink
  have hm := unlinkThread_modifies hunlink
  have hout := h.lists.not_mem_erase t
  have hother : ∀ {u}, u ≠ t → (s₃.modThread t Thread.freed).threads u = s₃.threads u :=
    fun hu => State.threads_modThread_of_ne _ hu
  refine ⟨?_, hmain, fun q u hu => ?_, fun u hu => ?_⟩
  · have hnext : (s₃.modThread t Thread.freed).threadlistNext =
        Function.update s₃.threadlistNext t none := proj_modThread s₃ t Thread.threadlistNext _
    rw [hnext]
    exact hlists.setNext hout none
  · have hut : u ≠ t := fun heq => hout q (heq ▸ hu)
    rw [hother hut, hm.inuse (by decide), hm.owner (by decide)]
    show _ ∧ _ ∧ (s₃.procs q).slotInuse = true
    rw [hm.slot (by decide)]
    exact h₂.mem q u (List.mem_of_mem_erase hu)
  · have hut : u ≠ t := by
      intro heq
      subst heq
      simp [Thread.freed] at hu
    rw [hother hut, hm.inuse (by decide)] at hu
    show u < s₃.threadPoolCount
    rw [hm.pools.threads]
    exact h₂.lt u hu

end Leave

/-! ## New threads and processes -/

section Add

variable {s s' : State} {l : Nat → List Nat}

/-- A new thread is put at the end of the list of its process. -/
theorem linkThread_lists {p t : Nat} (h : ThreadLists s l) (ht : (s.threads t).slotInuse = false)
    (hlink : linkThread s p t = .ok s') :
    Lists (Function.update s'.threadlistNext t none) s'.threadList
        (Function.update l p (l p ++ [t])) ∧
      ∀ q, (s'.procs q).mainThread = (s'.procs q).threadList := by
  have hout : ∀ q, t ∉ l q := by
    intro q hq
    rw [(h.mem q t hq).1] at ht
    cases ht
  have hclear := h.lists.setNext hout none
  unfold linkThread at hlink
  split at hlink
  · rename_i hmain
    have hhead : s.threadList p = none := (h.main p).symm.trans hmain
    rw [← Except.ok.inj hlink, h.lists.head_eq_none.mp hhead, List.nil_append]
    refine ⟨?_, fun q => ?_⟩
    · simp only [State.threadlistNext_setMainThread, State.threadList_setMainThread]
      exact hclear.start hout hhead (Function.update_self _ _ _)
    · by_cases hq : q = p
      · subst hq
        simp [State.setMainThread]
      · rw [State.setMainThread, State.procs_modProc_of_ne _ hq]
        exact h.main q
  · rename_i hmain
    have hwalk : walk s.threadlistNext (fun a => s.threadlistNext a == none) s.threadPoolCount
        (s.procs p).threadList = _ := walk_of_chain (h.lists.chain p) (h.length_le p)
    rw [hwalk] at hlink
    cases hfind : (l p).find? (fun a => s.threadlistNext a == none) with
    | none =>
        rw [hfind] at hlink
        cases hlink
    | some a =>
        rw [hfind] at hlink
        rw [← Except.ok.inj hlink]
        refine ⟨?_, h.main⟩
        have hnone : s.threadlistNext a = none := by simpa using List.find?_some hfind
        have hmem := List.mem_of_find?_eq_some hfind
        obtain ⟨l₁, hl⟩ := (h.lists.chain p).eq_append_last hmem hnone
        have hat : a ≠ t := fun heq => hout p (heq ▸ hmem)
        rw [State.threadlistNext_setThreadlistNext, Function.update_comm hat]
        exact hclear.append hout hl (Function.update_self _ _ _)

theorem ThreadLists.add (h : ThreadLists s l) {entry : BitVec 32} {p : Nat} {r : Option Nat}
    (hp : (s.procs p).slotInuse = true) (hadd : schedAddThread s entry (some p) = .ok (r, s')) :
    ThreadLists s' (Function.update l p (l p ++ r.toList)) := by
  have hstate := schedAddThread_state hadd
  have hslot := (schedAddThread_modifies hadd).slot (by decide)
  have hlt : ∀ u, (s'.threads u).slotInuse = true → u < s'.threadPoolCount := by
    intro u hu
    rw [(schedAddThread_modifies hadd).pools.threads]
    obtain ⟨rfl, -⟩ | ⟨-, -, -, hinuse⟩ := hstate u
    · exact (schedAddThread_new hadd).1
    · exact h.lt u (hinuse ▸ hu)
  have hmem : ∀ q, ∀ u ∈ Function.update l p (l p ++ r.toList) q,
      (s'.threads u).slotInuse = true ∧ (s'.threads u).proc = some q ∧
        (s'.procs q).slotInuse = true := by
    intro q u hu
    rw [hslot]
    have hold : u ∈ l q → (s'.threads u).slotInuse = true ∧ (s'.threads u).proc = some q ∧
        (s.procs q).slotInuse = true := by
      intro hul
      obtain ⟨hinuse, hproc, hq⟩ := h.mem q u hul
      obtain ⟨-, hfree, -⟩ | ⟨-, -, hproc', hinuse'⟩ := hstate u
      · rw [hinuse] at hfree
        cases hfree
      · exact ⟨hinuse' ▸ hinuse, hproc' ▸ hproc, hq⟩
    by_cases hq : q = p
    · subst hq
      rw [Function.update_self, List.mem_append] at hu
      cases hu with
      | inl hu => exact hold hu
      | inr hu =>
          have hr : r = some u := by simpa using hu
          obtain ⟨-, -, -, hproc, -, hinuse⟩ | ⟨hne, -⟩ := hstate u
          · exact ⟨hinuse, hproc, hp⟩
          · exact absurd hr hne
    · rw [Function.update_of_ne hq] at hu
      exact hold hu
  suffices hsuff : Lists s'.threadlistNext s'.threadList (Function.update l p (l p ++ r.toList)) ∧
      ∀ q, (s'.procs q).mainThread = (s'.procs q).threadList from
    ⟨hsuff.1, hsuff.2, hmem, hlt⟩
  obtain ⟨rfl, ⟨hno, -⟩ | halloc⟩ |
    ⟨p', t, s₁, s₂, base, top, hp', rfl, halloc, hlink, -, happend⟩ := schedAddThread_cases hadd
  · cases hno
  · have h' := h.frame (allocThreadSlot_modifies halloc) (by decide) (by decide) (by decide)
      (by decide)
    rw [Option.toList_none, List.append_nil, Function.update_eq_self]
    exact ⟨h'.lists, h'.main⟩
  · rw [Option.some.injEq] at hp'
    subst hp'
    have h₁ := h.frame (allocThreadSlot_modifies halloc) (by decide) (by decide) (by decide)
      (by decide)
    have hfree : (s₁.threads t).slotInuse = false := by
      rw [(allocThreadSlot_modifies halloc).inuse (by decide)]
      exact (allocThreadSlot_some halloc).2
    obtain ⟨hlists, hmain⟩ := linkThread_lists h₁ hfree hlink
    have hring := runqAppend_modifies happend
    have hcount := modifies_countThread s₂ p
    have hnext : s'.threadlistNext = Function.update s₂.threadlistNext t none := by
      rw [hring.threadlistNext (by decide)]
      exact proj_modThread (s₂.countThread p) t Thread.threadlistNext _
    have hheads : ∀ q, s'.threadList q = s₂.threadList q := fun q =>
      (hring.threadList (by decide) q).trans (hcount.threadList (by decide) q)
    refine ⟨?_, fun q => ?_⟩
    · rw [hnext]
      exact hlists.congr (fun _ _ _ => rfl) hheads
    · rw [hring.mainThread (by decide)]
      exact ((hcount.mainThread (by decide) q).trans (hmain q)).trans (hheads q).symm

theorem ThreadLists.alloc (h : ThreadLists s l) {parent r : Option Nat} {context : ProcessContext}
    (halloc : procAlloc s parent context = .ok (r, s')) : ThreadLists s' l := by
  have hthreads := procAlloc_threads halloc
  -- the record of a slot that changes starts with empty lists, and its lists were empty before
  have hrecord : ∀ p, (s'.procs p).mainThread = (s.procs p).mainThread ∧
      (s'.procs p).threadList = (s.procs p).threadList ∧
      ((s.procs p).slotInuse = true → (s'.procs p).slotInuse = true) := by
    intro p
    by_cases hp : allocProcessSlot s = some p
    · have hfree := (allocProcessSlot_some hp).2
      have hnone : (s.procs p).threadList = none := h.lists.head_eq_none.mpr (h.eq_nil hfree)
      obtain ⟨hmain, hlist⟩ := (procAlloc_slot halloc hp).2.2 .list (by decide)
      rw [hmain, hlist, h.main, hnone, hfree]
      exact ⟨rfl, rfl, by simp⟩
    · have hlist := procAlloc_other halloc hp (k := .list) (by decide)
      have hslot : (s'.procs p).slotInuse = (s.procs p).slotInuse :=
        procAlloc_other halloc hp (k := .slot) (by decide)
      exact ⟨hlist.1, hlist.2, fun hinuse => hslot.trans hinuse⟩
  refine ⟨h.lists.congr (fun k n _ => ?_) fun p => (hrecord p).2.1, fun p => ?_, fun p t ht => ?_,
    fun t ht => ?_⟩
  · show (s'.threads n).threadlistNext = (s.threads n).threadlistNext
    rw [hthreads]
  · rw [(hrecord p).1, (hrecord p).2.1]
    exact h.main p
  · obtain ⟨hinuse, hproc, hp⟩ := h.mem p t ht
    rw [hthreads]
    exact ⟨hinuse, hproc, (hrecord p).2.2 hp⟩
  · rw [(procAlloc_modifies halloc).pools.threads]
    exact h.lt t (hthreads ▸ ht)

theorem ThreadLists.free (h : ThreadLists s l) {z : Nat} (hfree : procFree s z = .ok s') :
    ThreadLists s' (Function.update l z []) := by
  have hthreads := procFree_threads hfree
  obtain ⟨pr, hself⟩ := procFree_self hfree
  have hheads : s'.threadList = Function.update s.threadList z none := by
    funext p
    by_cases hp : p = z
    · subst hp
      rw [Function.update_self, State.threadList, hself]
      rfl
    · rw [Function.update_of_ne hp]
      exact (procFree_other hfree hp (k := .list) (by decide)).2
  refine ⟨?_, fun p => ?_, fun p t ht => ?_, fun t ht => ?_⟩
  · rw [hheads]
    refine (h.lists.clear z).congr (fun k n _ => ?_) fun _ => rfl
    show (s'.threads n).threadlistNext = (s.threads n).threadlistNext
    rw [hthreads]
  · by_cases hp : p = z
    · rw [hp, hself]
      rfl
    · have hlist := procFree_other hfree hp (k := .list) (by decide)
      rw [hlist.1, hlist.2]
      exact h.main p
  · have hp : p ≠ z := by
      intro heq
      rw [heq, Function.update_self] at ht
      cases ht
    rw [Function.update_of_ne hp] at ht
    rw [hthreads, procFree_other hfree hp (k := .slot) (by decide)]
    exact h.mem p t ht
  · rw [(procFree_modifies hfree).pools.threads]
    exact h.lt t (hthreads ▸ ht)

end Add

/-! ## Reaping a process -/

/-- One thread of process `z` after another is reaped. -/
inductive Reaped (z : Nat) : State → State → Prop where
  | refl (s) : Reaped z s s
  | step {s s₁ s'} (t : Nat) : (s.threads t).slotInuse = true → (s.threads t).proc = some z →
      threadReap s t = .ok s₁ → Reaped z s₁ s' → Reaped z s s'

/-- What reaping one thread of the process keeps, reaping any number of them keeps. -/
theorem Reaped.invariant {z : Nat} {I : State → Prop} {s s' : State} (h : Reaped z s s')
    (hstep : ∀ s t s₁, (s.threads t).slotInuse = true → (s.threads t).proc = some z →
      threadReap s t = .ok s₁ → I s → I s₁) (hs : I s) : I s' := by
  induction h with
  | refl => exact hs
  | step t hinuse hproc hreap _ ih => exact ih (hstep _ t _ hinuse hproc hreap hs)

section Reap

variable {s s' : State} {l : Nat → List Nat}

/-- Reaping the threads of a process empties its list, and touches no other thread. -/
theorem reapThreads_lists (h : ThreadLists s l) {z fuel : Nat}
    (hreap : reapThreads fuel (s.threadList z) s = .ok s') :
    Reaped z s s' ∧ ThreadLists s' (Function.update l z []) ∧
      (∀ t ∈ l z, (s'.threads t).slotInuse = false) ∧
      ∀ t, t ∉ l z → (s'.threads t).slotInuse = (s.threads t).slotInuse ∧
        (s'.threads t).state = (s.threads t).state ∧ (s'.threads t).proc = (s.threads t).proc := by
  -- by induction on the list, which loses its first thread in each round
  induction hl : l z generalizing s l fuel with
  | nil =>
      rw [h.lists.head_eq_none.mpr hl, reapThreads.eq_def] at hreap
      rw [← Except.ok.inj hreap, ← hl, Function.update_eq_self, hl]
      exact ⟨.refl s, h, by simp, fun t _ => ⟨rfl, rfl, rfl⟩⟩
  | cons t rest ih =>
      have hchain := h.lists.chain z
      rw [hl] at hchain
      obtain ⟨hhead, hrest⟩ := hchain
      rw [hhead] at hreap
      cases fuel with
      | zero => cases hreap
      | succ fuel =>
          obtain ⟨s₁, hone, hreap⟩ := bind_eq_ok.mp hreap
          have h₁ := h.reap hone
          have hl₁ : (l z).erase t = rest := by rw [hl, List.erase_cons_head]
          have hhead₁ : s₁.threadList z = s.threadlistNext t := by
            have hchain₁ := h₁.lists.chain z
            rw [hl₁] at hchain₁
            cases rest with
            | nil => exact hchain₁.trans hrest.symm
            | cons u rest => exact hchain₁.1.trans hrest.1.symm
          rw [← hhead₁] at hreap
          obtain ⟨hreaped, hlists, hfreed, hother⟩ := ih h₁ hreap hl₁
          obtain ⟨hself, hothers⟩ := threadReap_state hone
          obtain ⟨hinuse, hproc, -⟩ := h.mem z t (by simp [hl])
          have hnodup := (h.lists.chain z).nodup
          rw [hl, List.nodup_cons] at hnodup
          refine ⟨.step t hinuse hproc hone hreaped, ?_, fun u hu => ?_, fun u hu => ?_⟩
          · have hsame :
                Function.update (fun q => (l q).erase t) z [] = Function.update l z [] := by
              funext q
              by_cases hq : q = z
              · rw [hq, Function.update_self, Function.update_self]
              · rw [Function.update_of_ne hq, Function.update_of_ne hq]
                exact List.erase_of_not_mem fun hmem => hq (h.where_eq hproc hmem)
            exact hsame ▸ hlists
          · cases List.mem_cons.mp hu with
            | inl heq =>
                subst heq
                rw [(hother u hnodup.1).1]
                exact hself.1
            | inr hmem => exact hfreed u hmem
          · rw [List.mem_cons, not_or] at hu
            obtain ⟨hinuse', hstate', hproc'⟩ := hother u hu.2
            obtain ⟨hinuse₁, hstate₁, hproc₁⟩ := hothers u hu.1
            exact ⟨hinuse'.trans hinuse₁, hstate'.trans hstate₁, hproc'.trans hproc₁⟩

/-- What reaping a child does to the threads: those on its list are reaped. -/
theorem procReapChild_lists (h : ThreadLists s l) {parent z : Nat}
    (hreap : procReapChild s parent z = .ok (.success, s')) :
    ∃ s₁, Reaped z s s₁ ∧ ThreadLists s₁ (Function.update l z []) ∧ procFree s₁ z = .ok s' ∧
      ThreadLists s' (Function.update l z []) ∧
      (∀ t ∈ l z, (s'.threads t).slotInuse = false) ∧
      ∀ t, t ∉ l z → (s'.threads t).slotInuse = (s.threads t).slotInuse ∧
        (s'.threads t).state = (s.threads t).state ∧ (s'.threads t).proc = (s.threads t).proc := by
  obtain ⟨hno, -⟩ | ⟨-, -, -, s₁, hthreads, hfree⟩ := procReapChild_cases hreap
  · exact absurd rfl hno
  obtain ⟨hreaped, hlists, hfreed, hother⟩ := reapThreads_lists h hthreads
  have hsame := procFree_threads hfree
  have hlists' := hlists.free hfree
  rw [Function.update_idem] at hlists'
  refine ⟨s₁, hreaped, hlists, hfree, hlists', fun t ht => ?_, fun t ht => ?_⟩
  · rw [hsame]
    exact hfreed t ht
  · rw [hsame]
    exact hother t ht

end Reap

/-! ## Runs -/

section Runs

variable {s s' : State}

/-- Every operation keeps the run ring. -/
theorem step_ring {op : Op} (h : ∃ l, RunRing s l) (hstep : Step s op s') : ∃ l, RunRing s' l := by
  have hm := step_modifies hstep
  have hstable : Stable (fun s => ∃ l, RunRing s l)
      [.ring, .sleep, .states, .inuse, .owner, .wakeTick] := by
    refine ⟨fun hm hout ⟨l, hl⟩ => ⟨l, hl.congr hm (fun hk => hout _ hk (by decide))
      fun hk => hout _ hk (by decide)⟩, fun ⟨l, hl⟩ hadd => ⟨_, schedAddThread_ring hl hadd⟩,
      fun ⟨l, hl⟩ hreap => ⟨_, threadReap_ring hl hreap⟩⟩
  obtain ⟨l, hl⟩ := h
  cases op with
  | addThread entry proc =>
      obtain ⟨⟨r, s₁⟩, hadd, hs'⟩ := bind_eq_ok.mp hstep
      exact Except.ok.inj hs' ▸ hstable.add ⟨l, hl⟩ hadd
  | reapThread t => exact hstable.reap ⟨l, hl⟩ hstep
  | reapChild parent child =>
      obtain rfl | ⟨-, hreap⟩ := step_reapChild hstep
      · exact ⟨l, hl⟩
      · exact hstable.procReapChild ⟨l, hl⟩ hreap
  | waitpid parent filter =>
      obtain rfl | ⟨z, -, hreap⟩ | ⟨s₁, -, hblock, rfl⟩ := step_waitpid hstep
      · exact ⟨l, hl⟩
      · exact hstable.procReapChild ⟨l, hl⟩ hreap
      · exact ⟨l, hl.congr ((schedBlockCurrentLocked_modifies hblock).trans
          schedThreadYield_modifies) (by decide) (by decide)⟩
  | fork tf =>
      obtain ⟨⟨r, tf', s₁⟩, hfork, hs'⟩ := bind_eq_ok.mp hstep
      exact Except.ok.inj hs' ▸ hstable.fork ⟨l, hl⟩ hfork
  | _ => exact ⟨l, hl.congr hm (by simp only [Op.parts]; decide) (by simp only [Op.parts]; decide)⟩

/-- Every thread in use belongs to a process in use. -/
def State.Owned (s : State) : Prop :=
  ∀ t, (s.threads t).slotInuse = true →
    ∃ p, (s.threads t).proc = some p ∧ (s.procs p).slotInuse = true

namespace State.Owned

theorem frame (h : s.Owned) {parts : List Part} (hm : Modifies parts s s')
    (hinuse : .inuse ∉ parts) (howner : .owner ∉ parts) (hslot : .slot ∉ parts) : s'.Owned := by
  intro t ht
  rw [hm.inuse hinuse] at ht
  obtain ⟨p, hp, hslot'⟩ := h t ht
  exact ⟨p, (hm.owner howner t).trans hp, (hm.slot hslot p).trans hslot'⟩

theorem add (h : s.Owned) {entry : BitVec 32} {p : Nat} {r : Option Nat}
    (hp : (s.procs p).slotInuse = true) (hadd : schedAddThread s entry (some p) = .ok (r, s')) :
    s'.Owned := by
  have hslot := (schedAddThread_modifies hadd).slot (by decide)
  intro t ht
  obtain ⟨-, -, -, hproc, -⟩ | ⟨-, -, hproc, hinuse⟩ := schedAddThread_state hadd t
  · exact ⟨p, hproc, (hslot p).trans hp⟩
  · obtain ⟨q, hq, hslot'⟩ := h t (hinuse ▸ ht)
    exact ⟨q, hproc.trans hq, (hslot q).trans hslot'⟩

theorem reap (h : s.Owned) {t : Nat} (hreap : threadReap s t = .ok s') : s'.Owned := by
  have hslot := (threadReap_modifies hreap).slot (by decide)
  obtain ⟨⟨hfreed, -⟩, hother⟩ := threadReap_state hreap
  intro u hu
  have hut : u ≠ t := by
    intro heq
    rw [heq, hfreed] at hu
    cases hu
  obtain ⟨hinuse, -, hproc⟩ := hother u hut
  obtain ⟨q, hq, hslot'⟩ := h u (hinuse ▸ hu)
  exact ⟨q, hproc.trans hq, (hslot q).trans hslot'⟩

theorem alloc (h : s.Owned) {parent r : Option Nat} {context : ProcessContext}
    (halloc : procAlloc s parent context = .ok (r, s')) : s'.Owned := by
  intro t ht
  rw [procAlloc_threads halloc] at ht ⊢
  obtain ⟨q, hq, hslot⟩ := h t ht
  exact ⟨q, hq, (procAlloc_slots halloc hslot).1⟩

theorem free (h : s.Owned) {z : Nat}
    (hnone : ∀ t, (s.threads t).slotInuse = true → (s.threads t).proc ≠ some z)
    (hfree : procFree s z = .ok s') : s'.Owned := by
  intro t ht
  rw [procFree_threads hfree] at ht ⊢
  obtain ⟨q, hq, hslot⟩ := h t ht
  have hqz : q ≠ z := fun heq => hnone t ht (heq ▸ hq)
  have hsame : (s'.procs q).slotInuse = (s.procs q).slotInuse :=
    procFree_other hfree hqz (k := .slot) (by decide)
  exact ⟨q, hq, hsame.trans hslot⟩

end State.Owned

/-- All threads in use that belong to process `z` are on its list. -/
def State.Complete (s : State) (z : Nat) : Prop :=
  ∀ t, (s.threads t).slotInuse = true → (s.threads t).proc = some z →
    ∃ l, Chain s.threadlistNext (s.threadList z) l ∧ t ∈ l

theorem ThreadLists.complete_iff {l : Nat → List Nat} (h : ThreadLists s l) (z : Nat) :
    s.Complete z ↔
      ∀ t, (s.threads t).slotInuse = true → (s.threads t).proc = some z → t ∈ l z := by
  constructor
  · intro hall t ht hproc
    obtain ⟨l', hchain, hmem⟩ := hall t ht hproc
    rwa [hchain.unique (h.lists.chain z)] at hmem
  · intro hall t ht hproc
    exact ⟨l z, h.lists.chain z, hall t ht hproc⟩

/-- No thread outlives a process that is reaped exactly if all its threads were on its list. -/
theorem procReapChild_owned {l : Nat → List Nat} (h : ThreadLists s l) (howned : s.Owned)
    {parent z : Nat} (hreap : procReapChild s parent z = .ok (.success, s')) :
    s'.Owned ↔ s.Complete z := by
  obtain ⟨s₁, hreaped, -, hfree, -, hfreed, hother⟩ := procReapChild_lists h hreap
  obtain ⟨pr, hself⟩ := procFree_self hfree
  rw [h.complete_iff]
  constructor
  · intro howned' t ht hproc
    by_contra hout
    obtain ⟨hinuse, -, hproc'⟩ := hother t hout
    obtain ⟨q, hq, hslot⟩ := howned' t (hinuse.trans ht)
    rw [hproc', hproc, Option.some.injEq] at hq
    rw [← hq, hself] at hslot
    cases hslot
  · intro hall
    have hkeep : s₁.Owned := hreaped.invariant (fun _ _ _ _ _ hone hown => hown.reap hone) howned
    refine hkeep.free (fun t ht hproc => ?_) hfree
    rw [← procFree_threads hfree] at ht hproc
    by_cases hmem : t ∈ l z
    · rw [hfreed t hmem] at ht
      cases ht
    · obtain ⟨hinuse, -, hproc'⟩ := hother t hmem
      exact hmem (hall t (hinuse ▸ ht) (hproc' ▸ hproc))

/-- The process that a thread is added to. -/
def Op.addedTo : Op → Option Nat
  | .addThread _ proc => proc
  | _ => none

/-- Threads are added to processes in use. -/
def AddsInUse (s : State) (op : Op) : Prop := ∀ p ∈ op.addedTo, (s.procs p).slotInuse = true

instance (s : State) (op : Op) : Decidable (AddsInUse s op) :=
  inferInstanceAs (Decidable (∀ p ∈ op.addedTo, (s.procs p).slotInuse = true))

/-- What holds of the threads of processes between any two operations. -/
structure OwnedInv (s : State) : Prop where
  lists : ∃ l, ThreadLists s l
  owned : s.Owned
  ring : ∃ l, RunRing s l

/-- A thread that is started and taken back leaves no trace among the threads in use. -/
theorem dropThread_threads {s₁ s₂ s₃ s₄ : State} {entry : BitVec 32} {proc t : Option Nat}
    {parts : List Part} (hadd : schedAddThread s₁ entry proc = .ok (t, s₂))
    (hm : Modifies parts s₂ s₃) (hinuse : .inuse ∉ parts) (howner : .owner ∉ parts)
    (hstates : .states ∉ parts) (hdrop : dropThread s₃ t = .ok s₄) (u : Nat) :
    (s₄.threads u).slotInuse = (s₁.threads u).slotInuse ∧
      ((s₁.threads u).slotInuse = true → (s₄.threads u).proc = (s₁.threads u).proc ∧
        (s₄.threads u).state = (s₁.threads u).state) := by
  have hadded := schedAddThread_state hadd u
  cases t with
  | none =>
      have heq : s₃ = s₄ := Except.ok.inj hdrop
      subst heq
      obtain ⟨hno, -⟩ | ⟨-, hst, hproc, huse⟩ := hadded
      · cases hno
      rw [hm.inuse hinuse, hm.owner howner, hm.states hstates]
      exact ⟨huse, fun _ => ⟨hproc, hst⟩⟩
  | some t =>
      obtain ⟨⟨hfreed, -⟩, hother⟩ := threadReap_state hdrop
      obtain ⟨hr, hfree, -⟩ | ⟨hr, hst, hproc, huse⟩ := hadded
      · rw [Option.some.injEq] at hr
        subst hr
        rw [hfreed, hfree]
        exact ⟨rfl, by simp⟩
      · obtain ⟨huse', hst', hproc'⟩ := hother u fun heq => hr (heq ▸ rfl)
        rw [huse', hst', hproc', hm.inuse hinuse, hm.owner howner, hm.states hstates]
        exact ⟨huse, fun _ => ⟨hproc, hst⟩⟩

theorem ThreadLists.drop {l : Nat → List Nat} {t : Option Nat} (h : ThreadLists s l)
    (hdrop : dropThread s t = .ok s') : ∃ l', ThreadLists s' l' := by
  cases t with
  | none => exact ⟨l, Except.ok.inj hdrop ▸ h⟩
  | some t => exact ⟨_, h.reap hdrop⟩

/-- Every operation keeps the lists of threads. -/
theorem step_lists {op : Op} (h : ∃ l, ThreadLists s l) (hadds : AddsInUse s op)
    (hstep : Step s op s') : ∃ l, ThreadLists s' l := by
  obtain ⟨l, hl⟩ := h
  have hm := step_modifies hstep
  cases op with
  | procAlloc parent context =>
      obtain ⟨⟨r, s₁⟩, halloc, hs'⟩ := bind_eq_ok.mp hstep
      exact ⟨l, Except.ok.inj hs' ▸ hl.alloc halloc⟩
  | addThread entry proc =>
      obtain ⟨⟨r, s₁⟩, hadd, hs'⟩ := bind_eq_ok.mp hstep
      rw [← Except.ok.inj hs']
      cases proc with
      | none =>
          have heq : s = s₁ := (Prod.mk.inj (Except.ok.inj hadd)).2
          exact heq ▸ ⟨l, hl⟩
      | some p => exact ⟨_, hl.add (hadds p rfl) hadd⟩
  | exit code =>
      obtain ⟨-, rfl⟩ | ⟨c, p, hc, hp, ⟨-, s₁, s₂, hwake, hfds, rfl⟩ | ⟨-, s₁, hunlink, rfl⟩⟩ :=
        schedThreadExit_cases hstep
      · exact ⟨l, hl⟩
      · exact ⟨l, hl.frame ((((exiting_modifies c p code).trans (ended_modifies p code)).trans
          (wakeParentWaiter_modifies hwake)).trans ((schedProcCleanupFds_modifies hfds).trans
          schedThreadYield_modifies)) (by decide) (by decide) (by decide) (by decide)⟩
      · have hexiting := exiting_modifies (s := s) c p code
        have hl₁ := unlinkExited_lists (hl.frame hexiting (by decide) (by decide) (by decide)
          (by decide)) ((hexiting.owner (by decide) c).trans hp) hunlink
        exact ⟨_, hl₁.frame schedThreadYield_modifies (by decide) (by decide) (by decide)
          (by decide)⟩
  | reapThread t => exact ⟨_, hl.reap hstep⟩
  | reapChild parent child =>
      obtain rfl | ⟨-, hreap⟩ := step_reapChild hstep
      · exact ⟨l, hl⟩
      · obtain ⟨_, -, -, -, hl', -⟩ := procReapChild_lists hl hreap
        exact ⟨_, hl'⟩
  | waitpid parent filter =>
      obtain rfl | ⟨z, -, hreap⟩ | ⟨s₁, -, hblock, rfl⟩ := step_waitpid hstep
      · exact ⟨l, hl⟩
      · obtain ⟨_, -, -, -, hl', -⟩ := procReapChild_lists hl hreap
        exact ⟨_, hl'⟩
      · exact ⟨l, hl.frame ((schedBlockCurrentLocked_modifies hblock).trans
          schedThreadYield_modifies) (by decide) (by decide) (by decide) (by decide)⟩
  | fork tf =>
      obtain ⟨-, rfl⟩ | ⟨parent, r, s₁, -, halloc, ⟨-, rfl⟩ |
        ⟨c, entry, t, s₂, s₃, rfl, hadd, hm, hrest⟩⟩ := step_fork hstep
      · exact ⟨l, hl⟩
      · exact ⟨l, hl.alloc halloc⟩
      obtain ⟨-, -, hinuse, -⟩ := procAlloc_new halloc
      have hl₃ := ((hl.alloc halloc).add hinuse hadd).frame hm (by decide) (by decide) (by decide)
        (by decide)
      obtain ⟨-, rfl⟩ | ⟨s₄, hdrop, hfree⟩ := hrest
      · exact ⟨_, hl₃⟩
      · obtain ⟨l', hl'⟩ := hl₃.drop hdrop
        exact ⟨_, hl'.free hfree⟩
  | _ =>
      exact ⟨l, hl.frame hm (by simp only [Op.parts]; decide) (by simp only [Op.parts]; decide)
        (by simp only [Op.parts]; decide) (by simp only [Op.parts]; decide)⟩

/-- A fork that fails takes the thread back before the process. -/
theorem fork_owned {tf : TrapFrame} (h : s.Owned) (hstep : Step s (.fork tf) s') : s'.Owned := by
  obtain ⟨-, rfl⟩ | ⟨parent, r, s₁, -, halloc, ⟨-, rfl⟩ |
    ⟨c, entry, t, s₂, s₃, rfl, hadd, hm, hrest⟩⟩ := step_fork hstep
  · exact h
  · exact h.alloc halloc
  obtain ⟨-, hfree, hinuse, -⟩ := procAlloc_new halloc
  have h₃ := ((h.alloc halloc).add hinuse hadd).frame hm (by decide) (by decide) (by decide)
  obtain ⟨-, rfl⟩ | ⟨s₄, hdrop, hfree'⟩ := hrest
  · exact h₃
  have h₄ : s₄.Owned := by
    cases t with
    | none => exact Except.ok.inj hdrop ▸ h₃
    | some t => exact h₃.reap hdrop
  refine h₄.free (fun u hu hproc => ?_) hfree'
  -- nobody else belongs to the slot, which was free before the fork
  obtain ⟨huse, hsame⟩ := dropThread_threads hadd hm (by decide) (by decide) (by decide) hdrop u
  have hu₁ := huse.symm.trans hu
  have hproc₁ := (hsame hu₁).1.symm.trans hproc
  rw [procAlloc_threads halloc] at hu₁ hproc₁
  obtain ⟨q, hq, hslot⟩ := h u hu₁
  rw [hproc₁, Option.some.injEq] at hq
  rw [← hq, hfree] at hslot
  cases hslot

theorem step_owned {op : Op} (h : OwnedInv s) (hadds : AddsInUse s op)
    (hreaps : ∀ z, Reaps s op z → s.Complete z) (hstep : Step s op s') : OwnedInv s' := by
  refine ⟨step_lists h.lists hadds hstep, ?_, step_ring h.ring hstep⟩
  obtain ⟨⟨l, hl⟩, howned, -⟩ := h
  have hm := step_modifies hstep
  cases op with
  | procAlloc parent context =>
      obtain ⟨⟨r, s₁⟩, halloc, hs'⟩ := bind_eq_ok.mp hstep
      exact Except.ok.inj hs' ▸ howned.alloc halloc
  | addThread entry proc =>
      obtain ⟨⟨r, s₁⟩, hadd, hs'⟩ := bind_eq_ok.mp hstep
      rw [← Except.ok.inj hs']
      cases proc with
      | none =>
          have heq : s = s₁ := (Prod.mk.inj (Except.ok.inj hadd)).2
          exact heq ▸ howned
      | some p => exact howned.add (hadds p rfl) hadd
  | reapThread t => exact howned.reap hstep
  | reapChild parent child =>
      obtain rfl | ⟨hz, hreap⟩ := step_reapChild hstep
      · exact howned
      · exact (procReapChild_owned hl howned hreap).mpr (hreaps child hz)
  | waitpid parent filter =>
      obtain rfl | ⟨z, hz, hreap⟩ | ⟨s₁, -, hblock, rfl⟩ := step_waitpid hstep
      · exact howned
      · exact (procReapChild_owned hl howned hreap).mpr (hreaps z hz)
      · exact howned.frame ((schedBlockCurrentLocked_modifies hblock).trans
          schedThreadYield_modifies) (by decide) (by decide) (by decide)
  | fork tf => exact fork_owned howned hstep
  | _ =>
      exact howned.frame hm (by simp only [Op.parts]; decide) (by simp only [Op.parts]; decide)
        (by simp only [Op.parts]; decide)

/-- At the start the idle thread belongs to the idle process. -/
theorem schedInit_owned {kib : Nat} {idle : BitVec 32} (hzero : Zeroed s)
    (h : schedInit s kib idle = .ok s') : OwnedInv s' := by
  obtain ⟨s₁, p, s₂, r, hblank, halloc, hadd⟩ := schedInit_cases h
  have hthreads : ∀ t, s₁.threads t = .zero := fun t => hblank.threads ▸ hzero.threads t
  have hprocs : ∀ p, s₁.procs p = .zero := fun p => hblank.procs ▸ hzero.procs p
  have hfree : ∀ t, (s₁.threads t).slotInuse = false := fun t => by
    rw [hthreads]
    rfl
  have hlists : ThreadLists s₁ fun _ => [] := by
    refine ⟨.empty _ fun p => ?_, fun p => ?_, by simp, fun t ht => ?_⟩
    · rw [State.threadList, hprocs]
      rfl
    · rw [hprocs]
      rfl
    · rw [hfree t] at ht
      cases ht
  have howned : s₁.Owned := by
    intro t ht
    rw [hfree t] at ht
    cases ht
  have hring : RunRing s₁ [] := by
    refine ⟨?_, fun t => by simp [hfree], fun t ht => ?_⟩
    · rw [hblank.head]
      rfl
    · rw [hfree t] at ht
      cases ht
  obtain ⟨-, -, hinuse, -⟩ := procAlloc_new halloc
  exact ⟨⟨_, (hlists.alloc halloc).add hinuse hadd⟩, (howned.alloc halloc).add hinuse hadd,
    ⟨_, schedAddThread_ring (hring.congr (procAlloc_modifies halloc) (by decide) (by decide)) hadd⟩⟩

/-- Threads do not outlive their process in runs where each process that is reaped has all its
threads on its list: every thread in use belongs to a process in use, and reaping a process frees
all its threads. A reap that does not meet the condition leaves a thread without a process. -/
theorem run_owned {s₀ s₁ s : State} {kib : Nat} {idle : BitVec 32} {ops : List Op}
    (hzero : Zeroed s₀) (hinit : schedInit s₀ kib idle = .ok s₁)
    (hrun : Run (Guarded Step fun s op => AddsInUse s op ∧ ∀ z, Reaps s op z → s.Complete z)
      s₁ ops s) :
    s.Owned ∧ ∀ parent z s', procReapChild s parent z = .ok (.success, s') →
      (s'.Owned ↔ s.Complete z) ∧
      (s.Complete z → ∃ l, Loop s'.rqNext s'.threadHead l ∧
        ∀ t, (s.threads t).slotInuse = true → (s.threads t).proc = some z →
          (s'.threads t).slotInuse = false ∧ t ∉ l) := by
  have hinv : OwnedInv s := hrun.invariant (I := OwnedInv)
    (fun _ _ _ h hstep => step_owned h hstep.1.1 hstep.1.2 hstep.2) (schedInit_owned hzero hinit)
  obtain ⟨⟨l, hl⟩, howned, hring⟩ := hinv
  refine ⟨howned, fun parent z s' hreap => ⟨procReapChild_owned hl howned hreap, fun hall => ?_⟩⟩
  have hstep : Step s (.reapChild parent z) s' := bind_eq_ok.mpr ⟨_, hreap, rfl⟩
  obtain ⟨ring, hring'⟩ := step_ring hring hstep
  obtain ⟨_, -, -, -, -, hfreed, -⟩ := procReapChild_lists hl hreap
  refine ⟨ring, hring'.loop, fun t ht hproc => ?_⟩
  have hgone := hfreed t ((hl.complete_iff z).mp hall t ht hproc)
  refine ⟨hgone, fun hmem => ?_⟩
  rw [(hring'.mem t).mp hmem] at hgone
  cases hgone

/-- A child of the idle process runs one thread, which exits. -/
def childExits : List Op :=
  [.procAlloc (some 0) .kernel, .addThread 0xC0003000 (some 1), .switch 0, .switch 4096, .exit 7]

theorem run_owned_child : ∃ s₁ s s', schedInit bootState 32768 0xC0002000 = .ok s₁ ∧
    Run (Guarded Step fun s op => AddsInUse s op ∧ ∀ z, Reaps s op z → s.Complete z)
      s₁ childExits s ∧
    procReapChild s 0 1 = .ok (.success, s') ∧ (s'.Owned ↔ s.Complete 1) := by
  obtain ⟨s₁, hinit, htest⟩ := exists_of_okAnd (e := schedInit bootState 32768 0xC0002000)
    (p := fun s₁ => (execGuarded Op.exec AddsInUse s₁ childExits).any fun s : State =>
      okAnd (procReapChild s 0 1) fun r => r.1 == .success)
    (by decide +kernel)
  obtain ⟨s, hall, htest⟩ := (Option.any_eq_true _ _).mp htest
  obtain ⟨⟨r, s'⟩, hreap, htest⟩ := exists_of_okAnd htest
  have hr : r = .success := by simpa using htest
  subst hr
  have hrun : Run (Guarded Step fun s op => AddsInUse s op ∧ ∀ z, Reaps s op z → s.Complete z)
      s₁ childExits s :=
    (run_of_execGuarded hall).imp (by simp +contextual [childExits, Reaps])
  exact ⟨s₁, s, s', hinit, hrun, hreap,
    ((run_owned zeroed_bootState hinit hrun).2 0 1 s' hreap).1⟩

/-- A child of the idle process runs two threads. The first exits before the second, and stays in
use when the process is reaped. -/
theorem thread_outlives_process : ∃ s₁ s s', schedInit bootState 32768 0xC0002000 = .ok s₁ ∧
    Run (Guarded Step AddsInUse) s₁ [.procAlloc (some 0) .kernel, .addThread 0xC0003000 (some 1),
      .addThread 0xC0004000 (some 1), .switch 0, .switch 4096, .exit 7, .switch 4096, .exit 8] s ∧
    procReapChild s 0 1 = .ok (.success, s') ∧ (s'.procs 1).slotInuse = false ∧
    (s'.threads 1).slotInuse = true ∧ (s'.threads 1).proc = some 1 := by
  obtain ⟨s₁, hinit, htest⟩ := exists_of_okAnd (e := schedInit bootState 32768 0xC0002000)
    (p := fun s₁ => (execGuarded Op.exec AddsInUse s₁ [.procAlloc (some 0) .kernel,
      .addThread 0xC0003000 (some 1), .addThread 0xC0004000 (some 1), .switch 0, .switch 4096,
      .exit 7, .switch 4096, .exit 8]).any fun s : State =>
        okAnd (procReapChild s 0 1) fun r => r.1 == .success && !(r.2.procs 1).slotInuse &&
          (r.2.threads 1).slotInuse && decide ((r.2.threads 1).proc = some 1))
    (by decide +kernel)
  obtain ⟨s, hall, htest⟩ := (Option.any_eq_true _ _).mp htest
  obtain ⟨⟨r, s'⟩, hreap, htest⟩ := exists_of_okAnd htest
  simp only [Bool.and_eq_true, beq_iff_eq, Bool.not_eq_true', decide_eq_true_eq] at htest
  obtain ⟨⟨⟨rfl, hslot⟩, hinuse⟩, hproc⟩ := htest
  exact ⟨s₁, s, s', hinit, run_of_execGuarded hall, hreap, hslot, hinuse, hproc⟩

end Runs

end Unidos.Sched
