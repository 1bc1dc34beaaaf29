import Unidos.Sched.Threads
import Mathlib.Data.Finset.Card

/-!
# Live threads

A thread that is not a zombie belongs to a process that is alive, and a process counts its live
threads; it becomes a zombie with the last of them. `LiveInv s none` says so. While a process is
taken apart its count is off, and `LiveInv s (some z)` says the same of all processes but `z`.

`Base` is this together with the lists of threads, and `Kept` collects what another invariant has to
show of the single steps that a fork, a wait, or a reap is made of.
-/

namespace Unidos.Sched

open Lib

/-- A thread in use of process `p` that has not exited. -/
def Thread.LiveIn (th : Thread) (p : Nat) : Prop :=
  th.slotInuse = true ∧ th.state ≠ .zombie ∧ th.proc = some p

instance (th : Thread) (p : Nat) : Decidable (th.LiveIn p) := inferInstanceAs (Decidable (_ ∧ _))

/-- The live threads of process `p`. -/
def State.live (s : State) (p : Nat) : Finset Nat :=
  (Finset.range s.threadPoolCount).filter fun t => (s.threads t).LiveIn p

/-- Live threads belong to live processes, which count them. -/
structure LiveInv (s : State) (x : Option Nat) : Prop where
  pool : s.threadPoolCount ≤ 1024
  lt : ∀ t, (s.threads t).slotInuse = true → t < s.threadPoolCount
  unused : ∀ t, (s.threads t).slotInuse = false → (s.threads t).state = .unused
  owner : ∀ t, (s.threads t).slotInuse = true → (s.threads t).state ≠ .zombie →
    ∃ p, (s.threads t).proc = some p ∧ (s.procs p).slotInuse = true ∧ (s.procs p).state = .alive
  count : ∀ p, (s.procs p).slotInuse = true → some p ≠ x →
    (s.procs p).liveThreadCount = (s.live p).card

/-- No thread exits, and none comes to life. -/
def SameLife (s s' : State) : Prop :=
  ∀ t, ((s'.threads t).state = .zombie ↔ (s.threads t).state = .zombie) ∧
    ((s.threads t).state = .unused → (s'.threads t).state = .unused)

section Basics

variable {s s' : State} {x : Option Nat}

theorem SameLife.of_modifies {parts : List Part} (hm : Modifies parts s s') (hk : .states ∉ parts) :
    SameLife s s' := by
  intro t
  rw [hm.states hk]
  exact ⟨Iff.rfl, id⟩

theorem Woken.sameLife (h : Woken s s') : SameLife s s' := by
  intro t
  cases h t with
  | inl heq =>
      rw [heq]
      exact ⟨Iff.rfl, id⟩
  | inr hwoke =>
      obtain ⟨hwas | hwas, hnow⟩ := hwoke
      · simp [hwas, hnow]
      · simp [hwas, hnow]

/-- A running thread stops. -/
theorem SameLife.of_running {c : Nat} (hrun : (s.threads c).state = .running)
    (hstop : (s'.threads c).state ≠ .zombie)
    (hother : ∀ t, t ≠ c → (s'.threads t).state = (s.threads t).state) : SameLife s s' := by
  intro t
  by_cases htc : t = c
  · subst htc
    simp [hrun, hstop]
  · rw [hother t htc]
    exact ⟨Iff.rfl, id⟩

theorem schedDoSwitch_sameLife {esp r : Nat} (h : schedDoSwitch s esp = .ok (r, s')) :
    SameLife s s' := by
  intro t
  have hparked := parked_state (s := s) esp t
  split at hparked
  · rename_i hrun
    obtain heq | ⟨-, hnow, -⟩ := schedDoSwitch_state h t
    · simp [heq, hparked, hrun.2]
    · simp [hnow, hrun.2]
  · obtain heq | ⟨hrunnable, hnow, -⟩ := schedDoSwitch_state h t
    · rw [heq, hparked]
      exact ⟨Iff.rfl, id⟩
    · rw [hparked] at hrunnable
      simp [hnow, hrunnable]

namespace LiveInv

theorem mem_live (h : LiveInv s x) {t p : Nat} : t ∈ s.live p ↔ (s.threads t).LiveIn p := by
  rw [State.live, Finset.mem_filter, Finset.mem_range, and_iff_right_iff_imp]
  exact fun hlive => h.lt t hlive.1

theorem card_le (h : LiveInv s x) (p : Nat) : (s.live p).card ≤ 1024 := by
  have hsub := Finset.card_filter_le (Finset.range s.threadPoolCount)
    fun t => (s.threads t).LiveIn p
  rw [Finset.card_range] at hsub
  exact hsub.trans h.pool

theorem inuse (h : LiveInv s x) {t : Nat} (ht : (s.threads t).state ≠ .unused) :
    (s.threads t).slotInuse = true := by
  by_contra hno
  exact ht (h.unused t (by simpa using hno))

/-- While a process is taken apart, less is known. -/
theorem weaken (h : LiveInv s none) (z : Nat) : LiveInv s (some z) :=
  ⟨h.pool, h.lt, h.unused, h.owner, fun p hp _ => h.count p hp (by simp)⟩

/-- A process that is not alive has no live threads. -/
theorem zombie (h : LiveInv s x) {z t : Nat} (hz : (s.procs z).state ≠ .alive)
    (ht : (s.threads t).slotInuse = true) (hproc : (s.threads t).proc = some z) :
    (s.threads t).state = .zombie := by
  by_contra hlive
  obtain ⟨p, hp, -, halive⟩ := h.owner t ht hlive
  rw [hproc, Option.some.injEq] at hp
  exact hz (hp ▸ halive)

/-- Changes of states that let nobody exit. -/
theorem congr (h : LiveInv s x) {parts : List Part} (hm : Modifies parts s s')
    (hinuse : .inuse ∉ parts) (howner : .owner ∉ parts) (hslot : .slot ∉ parts)
    (hphase : .phase ∉ parts) (hlive : .live ∉ parts) (hlife : SameLife s s') : LiveInv s' x := by
  have hsame : ∀ t p, (s'.threads t).LiveIn p ↔ (s.threads t).LiveIn p := by
    intro t p
    unfold Thread.LiveIn
    rw [hm.inuse hinuse, hm.owner howner, ne_eq, ne_eq, (hlife t).1]
  refine ⟨?_, fun t ht => ?_, fun t ht => ?_, fun t ht hne => ?_, fun p hp hx => ?_⟩
  · rw [hm.pools.threads]
    exact h.pool
  · rw [hm.inuse hinuse] at ht
    rw [hm.pools.threads]
    exact h.lt t ht
  · rw [hm.inuse hinuse] at ht
    exact (hlife t).2 (h.unused t ht)
  · rw [hm.inuse hinuse] at ht
    rw [ne_eq, (hlife t).1] at hne
    obtain ⟨p, hp, hslot', halive⟩ := h.owner t ht hne
    exact ⟨p, (hm.owner howner t).trans hp, (hm.slot hslot p).trans hslot',
      (hm.phase hphase p).trans halive⟩
  · rw [hm.slot hslot] at hp
    rw [hm.liveThreadCount hlive, h.count p hp hx]
    unfold State.live
    simp only [hsame, hm.pools.threads]

theorem frame (h : LiveInv s x) {parts : List Part} (hm : Modifies parts s s')
    (hinuse : .inuse ∉ parts) (howner : .owner ∉ parts) (hslot : .slot ∉ parts)
    (hphase : .phase ∉ parts) (hlive : .live ∉ parts) (hstates : .states ∉ parts) :
    LiveInv s' x :=
  h.congr hm hinuse howner hslot hphase hlive (.of_modifies hm hstates)

end LiveInv

end Basics

/-! ## Threads and processes that come and go -/

section Slots

variable {s s' : State} {x : Option Nat}

/-- A new thread counts. -/
theorem schedAddThread_count {entry : BitVec 32} {p : Nat} {r : Option Nat}
    (h : schedAddThread s entry (some p) = .ok (r, s')) (q : Nat) :
    (s'.procs q).liveThreadCount =
      if q = p ∧ r ≠ none then ((s.procs q).liveThreadCount + 1) % 2 ^ 32
      else (s.procs q).liveThreadCount := by
  obtain ⟨rfl, ⟨hno, -⟩ | halloc⟩ |
    ⟨p', t, s₁, s₂, base, top, hp', rfl, halloc, hlink, -, happend⟩ := schedAddThread_cases h
  · cases hno
  · rw [(allocThreadSlot_modifies halloc).liveThreadCount (by decide)]
    simp
  · rw [Option.some.injEq] at hp'
    subst hp'
    have hm := (allocThreadSlot_modifies halloc).trans (linkThread_modifies hlink)
    rw [(runqAppend_modifies happend).liveThreadCount (by decide)]
    show ((s₂.countThread p).procs q).liveThreadCount = _
    rw [← hm.liveThreadCount (by decide) q]
    by_cases hq : q = p
    · subst hq
      simp [State.countThread]
    · rw [if_neg fun hand => hq hand.1]
      exact congrArg Process.liveThreadCount (State.procs_modProc_of_ne _ hq)

theorem LiveInv.add (h : LiveInv s x) {entry : BitVec 32} {p : Nat} {r : Option Nat}
    (hp : (s.procs p).slotInuse = true) (halive : (s.procs p).state = .alive)
    (hadd : schedAddThread s entry (some p) = .ok (r, s')) : LiveInv s' x := by
  have hm := schedAddThread_modifies hadd
  have hslot := hm.slot (by decide)
  have hphase := hm.phase (by decide)
  have hpools := hm.pools.threads
  have hstate := schedAddThread_state hadd
  refine ⟨hpools ▸ h.pool, fun t ht => ?_, fun t ht => ?_, fun t ht hne => ?_, fun q hq hx => ?_⟩
  · rw [hpools]
    obtain ⟨rfl, -⟩ | ⟨-, -, -, hinuse⟩ := hstate t
    · exact (schedAddThread_new hadd).1
    · exact h.lt t (hinuse ▸ ht)
  · obtain ⟨-, -, -, -, -, hinuse⟩ | ⟨-, hst, -, hinuse⟩ := hstate t
    · rw [hinuse] at ht
      cases ht
    · exact hst.trans (h.unused t (hinuse ▸ ht))
  · obtain ⟨-, -, -, hproc, -⟩ | ⟨-, hst, hproc, hinuse⟩ := hstate t
    · exact ⟨p, hproc, (hslot p).trans hp, (hphase p).trans halive⟩
    · obtain ⟨q, hq, hslot', halive'⟩ := h.owner t (hinuse ▸ ht) (hst ▸ hne)
      exact ⟨q, hproc.trans hq, (hslot q).trans hslot', (hphase q).trans halive'⟩
  · rw [hslot] at hq
    have hcount := h.count q hq hx
    rw [schedAddThread_count hadd q, hcount]
    have hother : ∀ t, r ≠ some t → ((s'.threads t).LiveIn q ↔ (s.threads t).LiveIn q) := by
      intro t ht
      obtain ⟨hr, -⟩ | ⟨-, hst, hproc, hinuse⟩ := hstate t
      · exact absurd hr ht
      · unfold Thread.LiveIn
        rw [hst, hproc, hinuse]
    by_cases hnew : q = p ∧ r ≠ none
    · obtain ⟨rfl, hr⟩ := hnew
      obtain ⟨t, rfl⟩ := Option.ne_none_iff_exists'.mp hr
      obtain ⟨hlt, hfree, -⟩ := schedAddThread_new hadd
      -- the new thread is the only one that was not counted before
      have hlive : s'.live q = insert t (s.live q) := by
        ext u
        simp only [State.live, Finset.mem_insert, Finset.mem_filter, Finset.mem_range, hpools]
        by_cases hut : u = t
        · subst hut
          obtain ⟨-, -, hst, hproc, -, hinuse⟩ | ⟨hne, -⟩ := hstate u
          · simp [Thread.LiveIn, hst, hproc, hinuse, hlt]
          · exact absurd rfl hne
        · rw [hother u fun heq => hut (Option.some.inj heq).symm]
          simp [hut]
      have hout : t ∉ s.live q := by
        rw [h.mem_live]
        simp [Thread.LiveIn, hfree]
      have hcard := h.card_le q
      rw [if_pos ⟨rfl, hr⟩, hlive, Finset.card_insert_of_notMem hout]
      exact Nat.mod_eq_of_lt (by omega)
    · rw [if_neg hnew]
      congr 1
      ext u
      simp only [State.live, Finset.mem_filter, Finset.mem_range, hpools]
      by_cases hu : r = some u
      · have hqp : q ≠ p := fun heq => hnew ⟨heq, by simp [hu]⟩
        obtain ⟨-, hfree, -, hproc, -⟩ | ⟨hne, -⟩ := hstate u
        · simp [Thread.LiveIn, hfree, hproc, hqp.symm]
        · exact absurd hu hne
      · rw [hother u hu]

/-- A thread that is reaped did not count, or belonged to a process that is taken apart. -/
theorem LiveInv.reap (h : LiveInv s x) {t : Nat}
    (ht : (s.threads t).state = .zombie ∨ (s.threads t).proc = x)
    (hreap : threadReap s t = .ok s') : LiveInv s' x := by
  have hm := threadReap_modifies hreap
  have hpools := hm.pools.threads
  have hslot := hm.slot (by decide)
  have hphase := hm.phase (by decide)
  obtain ⟨⟨hfreed, hunused⟩, hother⟩ := threadReap_state hreap
  have hne : ∀ {u}, (s'.threads u).slotInuse = true → u ≠ t := by
    intro u hu heq
    rw [heq, hfreed] at hu
    cases hu
  refine ⟨hpools ▸ h.pool, fun u hu => ?_, fun u hu => ?_, fun u hu hst => ?_, fun p hp hx => ?_⟩
  · rw [hpools]
    exact h.lt u ((hother u (hne hu)).1 ▸ hu)
  · by_cases hut : u = t
    · rw [hut]
      exact hunused
    · obtain ⟨hinuse, hst, -⟩ := hother u hut
      exact hst.trans (h.unused u (hinuse ▸ hu))
  · obtain ⟨hinuse, hst', hproc⟩ := hother u (hne hu)
    obtain ⟨q, hq, hslot', halive⟩ := h.owner u (hinuse ▸ hu) (hst' ▸ hst)
    exact ⟨q, hproc.trans hq, (hslot q).trans hslot', (hphase q).trans halive⟩
  · rw [hslot] at hp
    rw [hm.liveThreadCount (by decide), h.count p hp hx]
    congr 1
    ext u
    simp only [State.live, Finset.mem_filter, Finset.mem_range, hpools]
    by_cases hut : u = t
    · subst hut
      simp only [Thread.LiveIn, hfreed, Bool.false_eq_true, false_and, and_false, iff_false,
        not_and]
      intro _ _ hst hproc
      cases ht with
      | inl hzombie => exact hst hzombie
      | inr hproc' => exact hx (hproc.symm.trans hproc')
    · obtain ⟨hinuse, hst, hproc⟩ := hother u hut
      simp only [Thread.LiveIn, hinuse, hst, hproc]

theorem LiveInv.alloc (h : LiveInv s none) {parent r : Option Nat} {context : ProcessContext}
    (halloc : procAlloc s parent context = .ok (r, s')) : LiveInv s' none := by
  have hm := procAlloc_modifies halloc
  have hpools := hm.pools.threads
  have hthreads := procAlloc_threads halloc
  have hlive : ∀ p, s'.live p = s.live p := fun p => by
    unfold State.live
    rw [hpools, hthreads]
  refine ⟨hpools ▸ h.pool, fun t ht => ?_, fun t ht => ?_, fun t ht hne => ?_, fun p hp _ => ?_⟩
  · rw [hpools]
    exact h.lt t (hthreads ▸ ht)
  · rw [hthreads] at ht ⊢
    exact h.unused t ht
  · rw [hthreads] at ht hne ⊢
    obtain ⟨p, hp, hslot, halive⟩ := h.owner t ht hne
    obtain ⟨hslot', hother⟩ := procAlloc_slots halloc hslot
    exact ⟨p, hp, hslot', (procAlloc_other halloc hother (k := .phase) (by decide)).1.trans halive⟩
  · rw [hlive]
    by_cases hnew : allocProcessSlot s = some p
    · -- nobody belongs to a free slot
      have hfree := (allocProcessSlot_some hnew).2
      have hempty : s.live p = ∅ := by
        refine Finset.eq_empty_of_forall_notMem fun t ht => ?_
        rw [h.mem_live] at ht
        obtain ⟨q, hq, hslot, -⟩ := h.owner t ht.1 ht.2.1
        rw [ht.2.2, Option.some.injEq] at hq
        rw [← hq, hfree] at hslot
        cases hslot
      rw [hempty]
      exact (procAlloc_slot halloc hnew).2.2 .live (by decide)
    · have hslot : (s'.procs p).slotInuse = (s.procs p).slotInuse :=
        procAlloc_other halloc hnew (k := .slot) (by decide)
      have hcount : (s'.procs p).liveThreadCount = (s.procs p).liveThreadCount :=
        procAlloc_other halloc hnew (k := .live) (by decide)
      rw [hcount]
      exact h.count p (hslot ▸ hp) (by simp)

theorem LiveInv.free {z : Nat} (h : LiveInv s (some z))
    (hz : ∀ t, (s.threads t).slotInuse = true → (s.threads t).proc = some z →
      (s.threads t).state = .zombie)
    (hfree : procFree s z = .ok s') : LiveInv s' none := by
  have hpools := (procFree_modifies hfree).pools.threads
  have hthreads := procFree_threads hfree
  have hlive : ∀ p, s'.live p = s.live p := fun p => by
    unfold State.live
    rw [hpools, hthreads]
  refine ⟨hpools ▸ h.pool, fun t ht => ?_, fun t ht => ?_, fun t ht hne => ?_, fun p hp _ => ?_⟩
  · rw [hpools]
    exact h.lt t (hthreads ▸ ht)
  · rw [hthreads] at ht ⊢
    exact h.unused t ht
  · rw [hthreads] at ht hne ⊢
    obtain ⟨p, hp, hslot, halive⟩ := h.owner t ht hne
    have hpz : p ≠ z := fun heq => hne (hz t ht (heq ▸ hp))
    have hslot' : (s'.procs p).slotInuse = (s.procs p).slotInuse :=
      procFree_other hfree hpz (k := .slot) (by decide)
    exact ⟨p, hp, hslot'.trans hslot, (procFree_other hfree hpz (k := .phase) (by decide)).1.trans
      halive⟩
  · have hpz : p ≠ z := by
      intro heq
      obtain ⟨pr, hself⟩ := procFree_self hfree
      rw [heq, hself] at hp
      cases hp
    have hslot : (s'.procs p).slotInuse = (s.procs p).slotInuse :=
      procFree_other hfree hpz (k := .slot) (by decide)
    have hcount : (s'.procs p).liveThreadCount = (s.procs p).liveThreadCount :=
      procFree_other hfree hpz (k := .live) (by decide)
    rw [hcount, hlive]
    exact h.count p (hslot ▸ hp) (by simpa using hpz)

end Slots

/-! ## Exit -/

section Exit

variable {s s' : State}

/-- A thread that exits no longer counts. -/
theorem LiveInv.exiting (h : LiveInv s none) {c p : Nat} (code : BitVec 32)
    (hrun : (s.threads c).state = .running) (hproc : (s.threads c).proc = some p) :
    LiveInv (s.exiting c p code) none := by
  have hm := exiting_modifies (s := s) c p code
  have hinuse := hm.inuse (by decide)
  have howner := hm.owner (by decide)
  have hstate := exiting_state (s := s) c p code
  have hused : (s.threads c).slotInuse = true := h.inuse (by simp [hrun])
  have hlive : ∀ t q, ((s.exiting c p code).threads t).LiveIn q ↔
      t ≠ c ∧ (s.threads t).LiveIn q := by
    intro t q
    unfold Thread.LiveIn
    rw [hinuse, howner, hstate]
    by_cases htc : t = c
    · simp [htc]
    · simp [htc]
  refine ⟨hm.pools.threads ▸ h.pool, fun t ht => ?_, fun t ht => ?_, fun t ht hne => ?_,
    fun q hq _ => ?_⟩
  · rw [hm.pools.threads]
    exact h.lt t (hinuse t ▸ ht)
  · rw [hinuse] at ht
    have htc : t ≠ c := by
      intro heq
      rw [heq, hused] at ht
      cases ht
    rw [hstate, if_neg htc]
    exact h.unused t ht
  · rw [hinuse] at ht
    have htc : t ≠ c := by
      intro heq
      rw [hstate, if_pos heq] at hne
      exact hne rfl
    rw [hstate, if_neg htc] at hne
    obtain ⟨q, hq, hslot, halive⟩ := h.owner t ht hne
    exact ⟨q, (howner t).trans hq, (hm.slot (by decide) q).trans hslot,
      (hm.phase (by decide) q).trans halive⟩
  · rw [hm.slot (by decide)] at hq
    have hcount := h.count q hq (by simp)
    have hset : (s.exiting c p code).live q = (s.live q).erase c := by
      ext t
      simp only [State.live, Finset.mem_erase, Finset.mem_filter, Finset.mem_range,
        hm.pools.threads, hlive]
      tauto
    rw [hset]
    by_cases hqp : q = p
    · subst hqp
      have hmem : c ∈ s.live q := h.mem_live.mpr ⟨hused, by simp [hrun], hproc⟩
      have hpos := Finset.card_pos.mpr ⟨c, hmem⟩
      have hle := h.card_le q
      have hnew : ((s.exiting c q code).procs q).liveThreadCount =
          ((s.procs q).liveThreadCount + (2 ^ 32 - 1)) % 2 ^ 32 := by simp [State.exiting]
      rw [hnew, hcount, Finset.card_erase_of_mem hmem]
      omega
    · have hout : c ∉ s.live q := by
        rw [h.mem_live]
        intro hin
        rw [hin.2.2, Option.some.injEq] at hproc
        exact hqp hproc
      rw [Finset.erase_eq_of_notMem hout, ← hcount]
      exact congrArg Process.liveThreadCount (State.procs_modProc_of_ne _ hqp)

/-- A process without live threads ends. -/
theorem LiveInv.ended (h : LiveInv s none) {p : Nat} (code : BitVec 32)
    (hp : (s.procs p).slotInuse = true) (hzero : (s.procs p).liveThreadCount = 0) :
    LiveInv (s.ended p code) none := by
  have hm := ended_modifies (s := s) p code
  refine ⟨h.pool, h.lt, h.unused, fun t ht hne => ?_, fun q hq hx => ?_⟩
  · obtain ⟨q, hq, hslot, halive⟩ := h.owner t ht hne
    have hqp : q ≠ p := by
      intro heq
      subst heq
      rw [h.count q hp (by simp), Finset.card_eq_zero] at hzero
      have hmem := h.mem_live.mpr ⟨ht, hne, hq⟩
      rw [hzero] at hmem
      cases hmem
    exact ⟨q, hq, (hm.slot (by decide) q).trans hslot,
      (congrArg Process.state (State.procs_modProc_of_ne _ hqp)).trans halive⟩
  · rw [hm.slot (by decide)] at hq
    rw [hm.liveThreadCount (by decide)]
    exact h.count q hq hx

theorem LiveInv.exit (h : LiveInv s none) {code : BitVec 32} (hactive : s.Active)
    (hexit : schedThreadExit s code = .ok s') : LiveInv s' none := by
  obtain ⟨c, hc, hrun⟩ := hactive
  obtain ⟨hnone, -⟩ | ⟨d, p, hd, hproc, hrest⟩ := schedThreadExit_cases hexit
  · rw [hc] at hnone
    cases hnone
  rw [hc, Option.some.injEq] at hd
  subst hd
  have hexiting := h.exiting code hrun hproc
  obtain ⟨hzero, s₁, s₂, hwake, hfds, rfl⟩ | ⟨-, s₁, hunlink, rfl⟩ := hrest
  · obtain ⟨q, hq, hslot, -⟩ := h.owner c (h.inuse (by simp [hrun])) (by simp [hrun])
    rw [hproc, Option.some.injEq] at hq
    subst hq
    have hended := hexiting.ended code
      ((exiting_modifies c p code).slot (by decide) p |>.trans hslot) hzero
    have hwoken := hended.congr (wakeParentWaiter_modifies hwake) (by decide) (by decide)
      (by decide) (by decide) (by decide) (wakeParentWaiter_woken hwake).sameLife
    exact hwoken.frame ((schedProcCleanupFds_modifies hfds).trans schedThreadYield_modifies)
      (by decide) (by decide) (by decide) (by decide) (by decide) (by decide)
  · exact hexiting.frame ((unlinkExited_modifies hunlink).trans schedThreadYield_modifies)
      (by decide) (by decide) (by decide) (by decide) (by decide) (by decide)

end Exit

/-! ## Runs -/

/-- The thread that an operation reaps by itself. -/
def Op.reapedThread : Op → Option Nat
  | .reapThread t => some t
  | _ => none

/-- The process that a new one is a child of. -/
def Op.childOf : Op → Option Nat
  | .procAlloc parent _ => parent
  | _ => none

/-- What the callers of the scheduler promise: only a running thread acts, threads are added to
processes that are alive, parents are in use, and only threads that have exited are reaped. -/
def Proper (s : State) (op : Op) : Prop :=
  OnlyRunningActs s op ∧
    (∀ p ∈ op.addedTo, (s.procs p).slotInuse = true ∧ (s.procs p).state = .alive) ∧
    (∀ p ∈ op.childOf, (s.procs p).slotInuse = true) ∧
    ∀ t ∈ op.reapedThread, (s.threads t).state = .zombie

instance (s : State) (op : Op) : Decidable (Proper s op) :=
  inferInstanceAs (Decidable (_ ∧ _ ∧ _ ∧ _))

theorem Proper.addsInUse {s : State} {op : Op} (h : Proper s op) : AddsInUse s op :=
  fun p hp => (h.2.1 p hp).1

/-- The lists of threads and the counts of live ones. -/
structure Base (s : State) : Prop where
  lists : ∃ l, ThreadLists s l
  live : LiveInv s none

section Steps

variable {s s' : State}

/-- The current thread blocks. -/
theorem blocked_live (h : LiveInv s none) {kind : WaitKind} {target : Nat} (hactive : s.Active)
    (hblock : schedBlockCurrentLocked s kind target = .ok s') : LiveInv s' none := by
  obtain ⟨c, hc, hrun⟩ := hactive
  refine h.congr (schedBlockCurrentLocked_modifies hblock) (by decide) (by decide) (by decide)
    (by decide) (by decide) ?_
  obtain ⟨hnone, -⟩ | ⟨d, p, hd, -, rfl⟩ := schedBlockCurrentLocked_cases hblock
  · rw [hc] at hnone
    cases hnone
  rw [hc, Option.some.injEq] at hd
  subst hd
  refine .of_running hrun ?_ fun t ht => ?_
  · rw [(modifies_waiters _ p (some c)).states (by decide)]
    simp [Thread.waiting]
  · rw [(modifies_waiters _ p (some c)).states (by decide)]
    exact congrArg Thread.state (State.threads_modThread_of_ne _ ht)

/-- Taking the threads of a dead process away. -/
theorem Reaped.live {z : Nat} (h : Reaped z s s') (hlive : LiveInv s (some z)) :
    LiveInv s' (some z) :=
  h.invariant (I := fun s => LiveInv s (some z))
    (fun _ _ _ _ hproc hreap hs => hs.reap (.inr hproc) hreap) hlive

/-- A dead process is taken apart: its threads, none of them live, are reaped one by one, and then
nothing in use belongs to it but threads that have exited. -/
theorem Base.reapChild (h : Base s) {parent z : Nat}
    (hreap : procReapChild s parent z = .ok (.success, s')) :
    ∃ s₁, Reaped z s s₁ ∧ LiveInv s (some z) ∧ (s.procs z).state = .zombie ∧
      LiveInv s₁ (some z) ∧ procFree s₁ z = .ok s' ∧
      ∀ t, (s₁.threads t).slotInuse = true → (s₁.threads t).proc = some z →
        (s₁.threads t).state = .zombie := by
  obtain ⟨l, hl⟩ := h.lists
  obtain ⟨s₁, hreaped, -, hfree, -⟩ := procReapChild_lists hl hreap
  have hzombie : (s.procs z).state = .zombie := by
    obtain ⟨hno, -⟩ | ⟨-, -, hzombie, -⟩ := procReapChild_cases hreap
    · exact absurd rfl hno
    · exact hzombie
  have hlive := hreaped.live (h.live.weaken z)
  have hphase : (s₁.procs z).state = .zombie := by
    refine hreaped.invariant (I := fun u => (u.procs z).state = .zombie)
      (fun u t u₁ _ _ hone hu => ?_) hzombie
    rw [(threadReap_modifies hone).phase (by decide)]
    exact hu
  exact ⟨s₁, hreaped, h.live.weaken z, hzombie, hlive, hfree, fun t ht hproc =>
    hlive.zombie (by simp [hphase]) ht hproc⟩

/-- What a fork is made of, with the facts that hold in between. -/
theorem Base.fork (h : Base s) {tf : TrapFrame} (hactive : s.Active)
    (hstep : Step s (.fork tf) s') :
    ∃ parent r s₁, (s.procs parent).slotInuse = true ∧ schedCurrentProcess s = some parent ∧
      procAlloc s (some parent) (s.procs parent).context = .ok (r, s₁) ∧ LiveInv s₁ none ∧
      ((r = none ∧ s' = s₁) ∨ ∃ c entry t s₂ s₃, r = some c ∧
        schedAddThread s₁ entry (some c) = .ok (t, s₂) ∧ (s₁.procs c).slotInuse = true ∧
        (s₁.procs c).state = .alive ∧
        Modifies [.files, .mm, .io, .stack] s₂ s₃ ∧ LiveInv s₃ none ∧
        ((t ≠ none ∧ s' = s₃) ∨ ∃ s₄, dropThread s₃ t = .ok s₄ ∧ LiveInv s₄ (some c) ∧
          (∀ u, (s₄.threads u).slotInuse = true → (s₄.threads u).proc = some c →
            (s₄.threads u).state = .zombie) ∧ procFree s₄ c = .ok s')) := by
  obtain ⟨cur, hcur, hrun⟩ := hactive
  obtain ⟨p, hp, hslot, -⟩ := h.live.owner cur (h.live.inuse (by simp [hrun])) (by simp [hrun])
  have hcurrent : schedCurrentProcess s = some p := by
    simp [schedCurrentProcess, hcur, hp]
  obtain ⟨hnone, -⟩ | ⟨parent, r, s₁, hparent, halloc, hrest⟩ := step_fork hstep
  · rw [hcurrent] at hnone
    cases hnone
  rw [hcurrent, Option.some.injEq] at hparent
  subst hparent
  have hlive₁ := h.live.alloc halloc
  refine ⟨p, r, s₁, hslot, hcurrent, halloc, hlive₁, ?_⟩
  obtain ⟨hr, hs'⟩ | ⟨c, entry, t, s₂, s₃, rfl, hadd, hm, hrest⟩ := hrest
  · exact .inl ⟨hr, hs'⟩
  obtain ⟨-, hfree, hinuse, halive⟩ := procAlloc_new halloc
  have hlive₃ := (hlive₁.add hinuse halive hadd).frame hm (by decide) (by decide) (by decide)
    (by decide) (by decide) (by decide)
  refine .inr ⟨c, entry, t, s₂, s₃, rfl, hadd, hinuse, halive, hm, hlive₃, ?_⟩
  obtain ⟨ht, hs'⟩ | ⟨s₄, hdrop, hfree'⟩ := hrest
  · exact .inl ⟨ht, hs'⟩
  have hlive₄ : LiveInv s₄ (some c) := by
    cases t with
    | none => exact Except.ok.inj hdrop ▸ hlive₃.weaken c
    | some t =>
        obtain ⟨-, -, q, hq, hproc, -⟩ := schedAddThread_new hadd
        refine (hlive₃.weaken c).reap (.inr ?_) hdrop
        rw [hm.owner (by decide), hproc, hq]
  refine .inr ⟨s₄, hdrop, hlive₄, fun u hu hproc => ?_, hfree'⟩
  -- nobody else belongs to the slot, which was free before the fork
  obtain ⟨huse, hsame⟩ := dropThread_threads hadd hm (by decide) (by decide) (by decide) hdrop u
  have hu₁ := huse.symm.trans hu
  obtain ⟨hproc₁, hstate₁⟩ := hsame hu₁
  rw [hstate₁]
  rw [hproc₁] at hproc
  rw [procAlloc_threads halloc] at hu₁ hproc ⊢
  by_contra hne
  obtain ⟨q, hq, hslot', -⟩ := h.live.owner u hu₁ hne
  rw [hproc, Option.some.injEq] at hq
  rw [← hq, hfree] at hslot'
  cases hslot'

theorem step_base {op : Op} (h : Base s) (hstep : Guarded Step Proper s op s') : Base s' := by
  obtain ⟨hproper, hstep⟩ := hstep
  refine ⟨step_lists h.lists hproper.addsInUse hstep, ?_⟩
  have hlive := h.live
  have hm := step_modifies hstep
  cases op with
  | procAlloc parent context =>
      obtain ⟨⟨r, s₁⟩, halloc, hs'⟩ := bind_eq_ok.mp hstep
      exact Except.ok.inj hs' ▸ hlive.alloc halloc
  | addThread entry proc =>
      obtain ⟨⟨r, s₁⟩, hadd, hs'⟩ := bind_eq_ok.mp hstep
      rw [← Except.ok.inj hs']
      cases proc with
      | none =>
          have heq : s = s₁ := (Prod.mk.inj (Except.ok.inj hadd)).2
          exact heq ▸ hlive
      | some p =>
          obtain ⟨hinuse, halive⟩ := hproper.2.1 p rfl
          exact hlive.add hinuse halive hadd
  | switch esp =>
      obtain ⟨⟨r, s₁⟩, hswitch, hs'⟩ := bind_eq_ok.mp hstep
      rw [← Except.ok.inj hs']
      exact hlive.congr (schedDoSwitch_modifies hswitch) (by decide) (by decide) (by decide)
        (by decide) (by decide) (schedDoSwitch_sameLife hswitch)
  | tick =>
      exact hlive.congr hm (by decide) (by decide) (by decide) (by decide) (by decide)
        (incrementTicks_woken hstep).sameLife
  | wake t =>
      exact hlive.congr (schedWakeThread_modifies hstep) (by decide) (by decide) (by decide)
        (by decide) (by decide) (schedWakeThread_woken hstep).sameLife
  | sleep n =>
      obtain ⟨c, hc, hrun⟩ := hproper.1 rfl
      refine hlive.congr (schedThreadSleep_modifies hstep) (by decide) (by decide) (by decide)
        (by decide) (by decide) ?_
      obtain ⟨hnone, -⟩ | ⟨d, s₁, hd, hinsert, rfl⟩ := schedThreadSleep_cases hstep
      · rw [hc] at hnone
        cases hnone
      rw [hc, Option.some.injEq] at hd
      subst hd
      have hrest := (sleepqInsert_modifies hinsert).trans (schedThreadYield_modifies (s := s₁))
      refine .of_running hrun ?_ fun t ht => ?_
      · rw [hrest.states (by decide)]
        simp [State.asleep]
      · rw [hrest.states (by decide)]
        exact congrArg Thread.state (State.threads_modThread_of_ne _ ht)
  | block kind target =>
      obtain ⟨s₁, hblock, hs'⟩ := bind_eq_ok.mp hstep
      rw [← Except.ok.inj hs']
      exact (blocked_live hlive (hproper.1 rfl) hblock).frame schedThreadYield_modifies (by decide)
        (by decide) (by decide) (by decide) (by decide) (by decide)
  | exit code => exact hlive.exit (hproper.1 rfl) hstep
  | reapThread t => exact hlive.reap (.inl (hproper.2.2.2 t rfl)) hstep
  | reapChild parent child =>
      obtain rfl | ⟨-, hreap⟩ := step_reapChild hstep
      · exact hlive
      · obtain ⟨s₁, -, -, -, hlive₁, hfree, hz⟩ := h.reapChild hreap
        exact hlive₁.free hz hfree
  | waitpid parent filter =>
      obtain rfl | ⟨z, -, hreap⟩ | ⟨s₁, -, hblock, rfl⟩ := step_waitpid hstep
      · exact hlive
      · obtain ⟨s₁, -, -, -, hlive₁, hfree, hz⟩ := h.reapChild hreap
        exact hlive₁.free hz hfree
      · exact (blocked_live hlive (hproper.1 rfl) hblock).frame schedThreadYield_modifies
          (by decide) (by decide) (by decide) (by decide) (by decide) (by decide)
  | fork tf =>
      obtain ⟨parent, r, s₁, -, -, -, hlive₁, ⟨-, rfl⟩ |
        ⟨c, entry, t, s₂, s₃, -, -, -, -, -, hlive₃, ⟨-, rfl⟩ | ⟨s₄, -, hlive₄, hz, hfree⟩⟩⟩ :=
        h.fork (hproper.1 rfl) hstep
      · exact hlive₁
      · exact hlive₃
      · exact hlive₄.free hz hfree
  | console | yield | execve =>
      exact hlive.frame hm (by simp only [Op.parts]; decide) (by simp only [Op.parts]; decide)
        (by simp only [Op.parts]; decide) (by simp only [Op.parts]; decide)
        (by simp only [Op.parts]; decide) (by simp only [Op.parts]; decide)

end Steps

/-- At the start there is one thread, and it is counted. -/
theorem schedInit_base {s s' : State} {kib : Nat} {idle : BitVec 32} (hzero : Zeroed s)
    (h : schedInit s kib idle = .ok s') : Base s' := by
  refine ⟨(schedInit_owned hzero h).lists, ?_⟩
  obtain ⟨s₁, p, s₂, r, hblank, halloc, hadd⟩ := schedInit_cases h
  have hthreads : ∀ t, s₁.threads t = .zero := fun t => hblank.threads ▸ hzero.threads t
  have hprocs : ∀ p, s₁.procs p = .zero := fun p => hblank.procs ▸ hzero.procs p
  have hlive : LiveInv s₁ none := by
    refine ⟨hblank.threads_le.trans hblank.kstacks_le, fun t ht => ?_, fun t _ => ?_,
      fun t ht => ?_, fun p hp => ?_⟩
    · rw [hthreads] at ht
      cases ht
    · rw [hthreads]
      rfl
    · rw [hthreads] at ht
      cases ht
    · rw [hprocs] at hp
      cases hp
  obtain ⟨-, -, hinuse, halive⟩ := procAlloc_new halloc
  exact (hlive.alloc halloc).add hinuse halive hadd

/-! ## Further invariants -/

/-- What an invariant has to show of the single steps of a fork or a reap: a process is allocated or
freed, and a thread is added or reaped. -/
structure Kept (I : State → Prop) : Prop where
  frame : ∀ {s s'}, Modifies [.files, .mm, .io, .stack] s s' → I s → I s'
  alloc : ∀ {s s' parent context r}, LiveInv s none →
    (∀ q, parent = some q → (s.procs q).slotInuse = true) → I s →
    procAlloc s parent context = .ok (r, s') → I s'
  add : ∀ {s s' entry p r}, LiveInv s none → (s.procs p).slotInuse = true →
    (s.procs p).state = .alive → I s → schedAddThread s entry (some p) = .ok (r, s') → I s'
  reap : ∀ {s s' t z}, LiveInv s (some z) → (s.threads t).slotInuse = true →
    (s.threads t).state = .zombie ∨ (s.threads t).state = .runnable → I s →
    threadReap s t = .ok s' → I s'
  free : ∀ {s s' z}, LiveInv s (some z) →
    (∀ t, (s.threads t).slotInuse = true → (s.threads t).proc = some z →
      (s.threads t).state = .zombie) → I s → procFree s z = .ok s' → I s'

namespace Kept

variable {I : State → Prop} {s s' : State}

theorem reapChild (hI : Kept I) (h : Base s) (hs : I s) {parent z : Nat}
    (hreap : procReapChild s parent z = .ok (.success, s')) : I s' := by
  obtain ⟨s₁, hreaped, hlive, hzombie, hlive₁, hfree, hz⟩ := h.reapChild hreap
  have hs₁ : LiveInv s₁ (some z) ∧ (s₁.procs z).state = .zombie ∧ I s₁ := by
    refine hreaped.invariant (I := fun u => LiveInv u (some z) ∧ (u.procs z).state = .zombie ∧ I u)
      (fun u t u₁ hinuse hproc hone hu => ?_) ⟨hlive, hzombie, hs⟩
    obtain ⟨hlive, hzombie, hs⟩ := hu
    refine ⟨hlive.reap (.inr hproc) hone, ?_,
      hI.reap hlive hinuse (.inl (hlive.zombie (by simp [hzombie]) hinuse hproc)) hs hone⟩
    rw [(threadReap_modifies hone).phase (by decide)]
    exact hzombie
  exact hI.free hlive₁ hz hs₁.2.2 hfree

theorem fork (hI : Kept I) (h : Base s) (hs : I s) (hactive : s.Active) {tf : TrapFrame}
    (hstep : Step s (.fork tf) s') : I s' := by
  obtain ⟨parent, r, s₁, hslot, -, halloc, hlive₁, hrest⟩ := h.fork hactive hstep
  have hs₁ := hI.alloc h.live (by simpa using hslot) hs halloc
  obtain ⟨-, rfl⟩ | ⟨c, entry, t, s₂, s₃, -, hadd, hinuse, halive, hm, hlive₃, hrest⟩ := hrest
  · exact hs₁
  have hs₃ := hI.frame hm (hI.add hlive₁ hinuse halive hs₁ hadd)
  obtain ⟨-, rfl⟩ | ⟨s₄, hdrop, hlive₄, hz, hfree⟩ := hrest
  · exact hs₃
  refine hI.free hlive₄ hz ?_ hfree
  cases t with
  | none => exact Except.ok.inj hdrop ▸ hs₃
  | some t =>
      obtain ⟨-, -, -, -, -, hst, huse, -⟩ := schedAddThread_new hadd
      refine hI.reap (hlive₃.weaken c) ?_ (.inr ?_) hs₃ hdrop
      · rw [hm.inuse (by decide)]
        exact huse
      · rw [hm.states (by decide)]
        exact hst

end Kept

end Unidos.Sched
