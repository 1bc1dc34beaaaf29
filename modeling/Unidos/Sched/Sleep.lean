import Unidos.Sched.Runs

/-!
# The sleep queue

The sleeping threads stand on one list, ordered by the tick they wake up at, and those that wake up
at the same tick by the time they went to sleep. `SleepQueue s since l` says so for the list `l`,
where `since` tells when each thread went to sleep. Every tick wakes exactly the threads that are
due (`schedOnTick_spec`). `run_sleep_queue` is the result for whole runs.
-/

namespace Unidos.Sched

open Lib

/-- Thread `a` wakes up before thread `b`, or at the same tick and it has slept longer. -/
def State.Before (s : State) (since : Nat → Nat) (a b : Nat) : Prop :=
  (s.threads a).wakeTick < (s.threads b).wakeTick ∨
    ((s.threads a).wakeTick = (s.threads b).wakeTick ∧ since a < since b)

/-- The sleep queue holds the sleeping threads, each once, in the order in which they wake up. -/
structure SleepQueue (s : State) (since : Nat → Nat) (l : List Nat) : Prop where
  chain : Chain s.sleepNext s.threadSleepHead l
  mem : ∀ t, t ∈ l ↔ (s.threads t).state = .sleeping
  sorted : l.Pairwise (s.Before since)
  unused : ∀ t, (s.threads t).slotInuse = false → (s.threads t).state = .unused
  lt : ∀ t, (s.threads t).slotInuse = true → t < s.threadPoolCount

namespace SleepQueue

variable {s s' : State} {since : Nat → Nat} {l : List Nat} {parts : List Part}

theorem inuse (h : SleepQueue s since l) {t : Nat} (ht : (s.threads t).state ≠ .unused) :
    (s.threads t).slotInuse = true := by
  by_contra hno
  exact ht (h.unused t (by simpa using hno))

theorem length_le (h : SleepQueue s since l) : l.length ≤ s.threadPoolCount := by
  refine h.chain.length_le fun t ht => h.lt t (h.inuse ?_)
  rw [(h.mem t).mp ht]
  simp

/-- Changes to threads that do not sleep keep the queue. -/
theorem congr (h : SleepQueue s since l) (hm : Modifies parts s s') (hsleep : .sleep ∉ parts)
    (hwake : .wakeTick ∉ parts) (hinuse : .inuse ∉ parts)
    (hstates : ∀ t, (s'.threads t).state = (s.threads t).state ∨
      ((s.threads t).state ≠ .unused ∧ (s.threads t).state ≠ .sleeping ∧
        (s'.threads t).state ≠ .sleeping)) : SleepQueue s' since l := by
  refine ⟨?_, fun t => ?_, ?_, fun t ht => ?_, fun t ht => ?_⟩
  · rw [hm.sleepNext hsleep, hm.threadSleepHead hsleep]
    exact h.chain
  · rw [h.mem t]
    cases hstates t with
    | inl heq => rw [heq]
    | inr hne => simp [hne.2.1, hne.2.2]
  · refine h.sorted.imp fun {a b} hab => ?_
    unfold State.Before at hab ⊢
    rwa [hm.wakeTick hwake, hm.wakeTick hwake]
  · rw [hm.inuse hinuse] at ht
    cases hstates t with
    | inl heq => exact heq.trans (h.unused t ht)
    | inr hne => exact absurd (h.unused t ht) hne.1
  · rw [hm.inuse hinuse] at ht
    rw [hm.pools.threads]
    exact h.lt t ht

theorem frame (h : SleepQueue s since l) (hm : Modifies parts s s') (hsleep : .sleep ∉ parts)
    (hwake : .wakeTick ∉ parts) (hinuse : .inuse ∉ parts) (hstates : .states ∉ parts) :
    SleepQueue s' since l :=
  h.congr hm hsleep hwake hinuse fun t => .inl (hm.states hstates t)

end SleepQueue

/-! ## Insertion and removal -/

section Updates

variable {s s' : State} {since : Nat → Nat} {l : List Nat}

/-- A thread is put behind those that wake up no later than it does. -/
theorem sleepqInsert_spec {t : Nat} (h : Chain s.sleepNext s.threadSleepHead l)
    (hlen : l.length ≤ s.threadPoolCount) (ht : t ∉ l) :
    ∃ s' l₁ l₂, sleepqInsert s t = .ok s' ∧ l = l₁ ++ l₂ ∧
      Chain s'.sleepNext s'.threadSleepHead (l₁ ++ t :: l₂) ∧
      (∀ a ∈ l₁, (s.threads a).wakeTick ≤ (s.threads t).wakeTick) ∧
      ∀ b ∈ l₂.head?, (s.threads t).wakeTick < (s.threads b).wakeTick := by
  have hm := modifies_sleepNext s t none
  have hwake := hm.wakeTick (by decide)
  have hcount := hm.pools.threads
  have hhead : (s.setSleepNext t none).threadSleepHead = s.threadSleepHead := rfl
  have hchain : Chain (s.setSleepNext t none).sleepNext s.threadSleepHead l := by
    rw [State.sleepNext_setSleepNext]
    exact h.update ht
  unfold sleepqInsert
  generalize s.setSleepNext t none = s₁ at hwake hcount hhead hchain
  simp only [hhead]
  have hfront : Chain ((s₁.setSleepNext t s.threadSleepHead).withSleepHead (some t)).sleepNext
      (some t) (t :: l) := by
    simp only [State.sleepNext_withSleepHead, State.sleepNext_setSleepNext]
    exact hchain.push ht
  cases hsome : s.threadSleepHead with
  | none =>
      rw [hsome] at hchain hfront
      have hnil : l = [] := by
        cases l with
        | nil => rfl
        | cons a l => exact absurd hchain.1 (by simp)
      subst hnil
      exact ⟨_, [], [], rfl, rfl, hfront, by simp, by simp⟩
  | some hd =>
      rw [hsome] at hchain hfront
      obtain ⟨l', rfl⟩ := hchain.exists_cons
      simp only
      split
      · rename_i hlt
        rw [hwake, hwake] at hlt
        exact ⟨_, [], hd :: l', rfl, rfl, hfront, by simp, by simpa using hlt⟩
      · rename_i hlt
        have hstop : ∀ a, s₁.sleepStop t a = true ↔
            ∀ b, s₁.sleepNext a = some b → (s₁.threads t).wakeTick < (s₁.threads b).wakeTick := by
          intro a
          unfold State.sleepStop
          cases s₁.sleepNext a with
          | none => simp
          | some b => simp
        have hlen₁ : (hd :: l').length ≤ s₁.threadPoolCount := hcount.symm ▸ hlen
        obtain ⟨l₁, a, l₂, heq, hwalk, hle, hgt⟩ := Chain.walk_insert hchain
          (Nat.le_of_not_lt hlt) hstop hlen₁
        rw [hwalk]
        rw [heq] at hchain ht ⊢
        refine ⟨_, l₁ ++ [a], l₂, rfl, by simp, ?_, fun b hb => ?_, fun b hb => ?_⟩
        · simp only [State.sleepNext_setSleepNext, State.threadSleepHead_setSleepNext, hhead, hsome]
          have hins := hchain.insertAfter ht
          simpa using hins
        · have := hle b hb
          rwa [hwake, hwake] at this
        · have hnext : s₁.sleepNext a = some b := by
            have hrest := (seg_append_cons.mp hchain).2
            cases l₂ with
            | nil => simp at hb
            | cons c l₂ =>
                have hcb : c = b := by simpa using hb
                exact hcb ▸ hrest.1
          have := hgt b hnext
          rwa [hwake, hwake] at this

/-- A thread is taken out of the queue, if it is there. -/
theorem sleepqRemove_spec (h : Chain s.sleepNext s.threadSleepHead l)
    (hlen : l.length ≤ s.threadPoolCount) (t : Nat) :
    ∃ s', sleepqRemove s t = .ok s' ∧ Chain s'.sleepNext s'.threadSleepHead (l.erase t) := by
  unfold sleepqRemove
  obtain ⟨ht, hplace⟩ | ⟨l', rfl, hplace⟩ | ⟨l₁, a, l₂, rfl, hplace⟩ := h.place_cases hlen t
  · rw [hplace]
    exact ⟨s, rfl, by rwa [List.erase_of_not_mem ht]⟩
  · rw [hplace]
    refine ⟨_, rfl, ?_⟩
    simp only [State.sleepNext_withSleepHead, State.sleepNext_setSleepNext,
      State.threadSleepHead_withSleepHead, List.erase_cons_head]
    exact Chain.update h.2 (List.nodup_cons.mp h.nodup).1
  · rw [hplace]
    refine ⟨_, rfl, ?_⟩
    simp only [State.sleepNext_setSleepNext, State.threadSleepHead_setSleepNext]
    exact h.unlinkBehind.update h.nodup.not_mem_erase

/-- A thread that goes to sleep is put in its place. -/
theorem SleepQueue.sleep (h : SleepQueue s since l) {c n now : Nat}
    (hc : (s.threads c).state = .running) (hnow : ∀ t ∈ l, since t < now)
    (hinsert : sleepqInsert (s.asleep c n) c = .ok s') :
    ∃ l₁ l₂, l = l₁ ++ l₂ ∧ SleepQueue s' (Function.update since c now) (l₁ ++ c :: l₂) := by
  have hout : c ∉ l := fun hmem => by simp [(h.mem c).mp hmem] at hc
  have hasleep := modifies_asleep s c n
  have hm := sleepqInsert_modifies hinsert
  have hstate : ∀ t, (s'.threads t).state = if t = c then .sleeping else (s.threads t).state := by
    intro t
    rw [hm.states (by decide)]
    by_cases htc : t = c
    · subst htc
      simp [State.asleep]
    · rw [if_neg htc]
      exact congrArg Thread.state (State.threads_modThread_of_ne _ htc)
  have hwake : ∀ t, t ≠ c → (s'.threads t).wakeTick = (s.threads t).wakeTick := by
    intro t htc
    rw [hm.wakeTick (by decide)]
    exact congrArg Thread.wakeTick (State.threads_modThread_of_ne _ htc)
  have hinuse : ∀ t, (s'.threads t).slotInuse = (s.threads t).slotInuse := fun t =>
    (hm.inuse (by decide) t).trans (hasleep.inuse (by decide) t)
  have hchain₀ : Chain (s.asleep c n).sleepNext (s.asleep c n).threadSleepHead l := by
    rw [hasleep.sleepNext (by decide), hasleep.threadSleepHead (by decide)]
    exact h.chain
  obtain ⟨u, l₁, l₂, hu, rfl, hchain, hle, hgt⟩ := sleepqInsert_spec hchain₀ h.length_le hout
  rw [hinsert, Except.ok.injEq] at hu
  subst hu
  have hne : ∀ t ∈ l₁ ++ l₂, t ≠ c := fun t ht heq => hout (heq ▸ ht)
  have hold : ∀ t ∈ l₁ ++ l₂, ((s.asleep c n).threads t).wakeTick = (s'.threads t).wakeTick :=
    fun t _ => (hm.wakeTick (by decide) t).symm
  have hself : ((s.asleep c n).threads c).wakeTick = (s'.threads c).wakeTick :=
    (hm.wakeTick (by decide) c).symm
  have hsorted : (l₁ ++ l₂).Pairwise (s'.Before (Function.update since c now)) := by
    refine h.sorted.imp_of_mem fun {a b} ha hb hab => ?_
    unfold State.Before at hab ⊢
    rw [hwake a (hne a ha), hwake b (hne b hb), Function.update_of_ne (hne a ha),
      Function.update_of_ne (hne b hb)]
    exact hab
  obtain ⟨hsorted₁, hsorted₂, hcross⟩ := List.pairwise_append.mp hsorted
  refine ⟨l₁, l₂, rfl, hchain, fun t => ?_, ?_, fun t ht => ?_, fun t ht => ?_⟩
  · rw [hstate t]
    by_cases htc : t = c
    · simp [htc]
    · rw [if_neg htc, ← h.mem t]
      simp [htc]
  · refine List.pairwise_append.mpr ⟨hsorted₁, List.pairwise_cons.mpr ⟨?_, hsorted₂⟩, ?_⟩
    · -- the threads behind `c` wake up later, because the first of them does
      intro b hb
      refine .inl ?_
      cases l₂ with
      | nil => cases hb
      | cons d l₂ =>
          have hd := hgt d rfl
          rw [hself, hold d (by simp)] at hd
          cases List.mem_cons.mp hb with
          | inl heq => exact heq ▸ hd
          | inr hmem =>
              have hdb := (List.pairwise_cons.mp hsorted₂).1 b hmem
              unfold State.Before at hdb
              omega
    · intro a ha b hb
      cases List.mem_cons.mp hb with
      | inr hmem => exact hcross a ha b hmem
      | inl heq =>
          subst heq
          have hab := hle a ha
          rw [hself, hold a (by simp [ha])] at hab
          have hsince := hnow a (by simp [ha])
          unfold State.Before
          rw [Function.update_self, Function.update_of_ne (hne a (by simp [ha]))]
          omega
  · rw [hinuse] at ht
    have htc : t ≠ c := by
      intro heq
      rw [heq] at ht
      rw [h.unused c ht] at hc
      cases hc
    rw [hstate t, if_neg htc]
    exact h.unused t ht
  · rw [hinuse] at ht
    rw [hm.pools.threads, hasleep.pools.threads]
    exact h.lt t ht

/-- A sleeping thread that is woken leaves the queue. -/
theorem SleepQueue.remove (h : SleepQueue s since l) {t : Nat}
    (hsleep : (s.threads t).state = .sleeping)
    (hremove : sleepqRemove (s.setState t .runnable) t = .ok s') :
    SleepQueue s' since (l.erase t) := by
  have hset := modifies_state s t .runnable
  have hm := sleepqRemove_modifies hremove
  have hchain₀ : Chain (s.setState t .runnable).sleepNext
      (s.setState t .runnable).threadSleepHead l := by
    rw [hset.sleepNext (by decide), hset.threadSleepHead (by decide)]
    exact h.chain
  obtain ⟨u, hu, hchain⟩ := sleepqRemove_spec hchain₀ h.length_le t
  rw [hremove, Except.ok.injEq] at hu
  subst hu
  have hnodup := h.chain.nodup
  have hstate : ∀ v, (s'.threads v).state = if v = t then .runnable else (s.threads v).state := by
    intro v
    rw [hm.states (by decide)]
    by_cases hvt : v = t
    · subst hvt
      simp [State.setState]
    · rw [if_neg hvt]
      exact congrArg Thread.state (State.threads_modThread_of_ne _ hvt)
  have hinuse : ∀ v, (s'.threads v).slotInuse = (s.threads v).slotInuse := fun v =>
    (hm.inuse (by decide) v).trans (hset.inuse (by decide) v)
  have hwake : ∀ v, (s'.threads v).wakeTick = (s.threads v).wakeTick := fun v =>
    (hm.wakeTick (by decide) v).trans (hset.wakeTick (by decide) v)
  refine ⟨hchain, fun v => ?_, ?_, fun v hv => ?_, fun v hv => ?_⟩
  · rw [hnodup.mem_erase_iff, h.mem v, hstate v]
    by_cases hvt : v = t
    · simp [hvt]
    · simp [hvt]
  · refine (h.sorted.sublist List.erase_sublist).imp fun {a b} hab => ?_
    unfold State.Before at hab ⊢
    rwa [hwake, hwake]
  · rw [hinuse] at hv
    have hvt : v ≠ t := by
      intro heq
      rw [heq] at hv
      rw [h.unused t hv] at hsleep
      cases hsleep
    rw [hstate v, if_neg hvt]
    exact h.unused v hv
  · rw [hinuse] at hv
    rw [hm.pools.threads, hset.pools.threads]
    exact h.lt v hv

/-- A reaped thread is not on the queue. -/
theorem SleepQueue.reap (h : SleepQueue s since l) {t : Nat} (hreap : threadReap s t = .ok s') :
    SleepQueue s' since (l.erase t) := by
  obtain ⟨⟨hself, hselfState⟩, hother⟩ := threadReap_state hreap
  have hwake : ∀ u, u ≠ t → (s'.threads u).wakeTick = (s.threads u).wakeTick := fun u hu =>
    threadReap_other hreap hu (k := .wakeTick) (by decide)
  have hpools := (threadReap_modifies hreap).pools.threads
  have hnodup := h.chain.nodup
  have hchain : Chain s'.sleepNext s'.threadSleepHead (l.erase t) := by
    obtain ⟨s₁, s₂, s₃, hring, hsleep, hlist, rfl⟩ := threadReap_cases hreap
    have hm₁ := threadUnlinkFromRunq_modifies hring
    have hm₃ := unlinkThread_modifies hlist
    obtain ⟨u, hu, hchain⟩ := sleepqRemove_spec (s := s₁) (l := l)
      (by rw [hm₁.sleepNext (by decide), hm₁.threadSleepHead (by decide)]; exact h.chain)
      (by rw [hm₁.pools.threads]; exact h.length_le) t
    rw [hsleep, Except.ok.injEq] at hu
    subst hu
    show Chain _ s₃.threadSleepHead _
    rw [hm₃.threadSleepHead (by decide)]
    refine hchain.congr fun u hu => ?_
    have hne : u ≠ t := fun heq => hnodup.not_mem_erase (heq ▸ hu)
    exact (congrArg Thread.sleepNext (State.threads_modThread_of_ne _ hne)).trans
      (congrFun (hm₃.sleepNext (by decide)) u)
  refine ⟨hchain, fun u => ?_, ?_, fun u hu => ?_, fun u hu => ?_⟩
  · rw [hnodup.mem_erase_iff, h.mem u]
    by_cases hut : u = t
    · simp [hut, hselfState]
    · rw [(hother u hut).2.1]
      simp [hut]
  · refine (h.sorted.sublist List.erase_sublist).imp_of_mem fun {a b} ha hb hab => ?_
    have hat : a ≠ t := fun heq => hnodup.not_mem_erase (heq ▸ ha)
    have hbt : b ≠ t := fun heq => hnodup.not_mem_erase (heq ▸ hb)
    unfold State.Before at hab ⊢
    rwa [hwake a hat, hwake b hbt]
  · by_cases hut : u = t
    · rw [hut]
      exact hselfState
    · rw [(hother u hut).2.1]
      exact h.unused u ((hother u hut).1 ▸ hu)
  · have hut : u ≠ t := by
      intro heq
      rw [heq, hself] at hu
      cases hu
    rw [hpools]
    exact h.lt u ((hother u hut).1 ▸ hu)

/-- A new thread does not sleep. -/
theorem SleepQueue.add (h : SleepQueue s since l) {entry : BitVec 32} {proc r : Option Nat}
    (hadd : schedAddThread s entry proc = .ok (r, s')) : SleepQueue s' since l := by
  have hm := schedAddThread_modifies hadd
  have hcase := schedAddThread_state hadd
  have hout : ∀ t ∈ l, r ≠ some t := by
    intro t ht
    obtain ⟨-, hfree, -⟩ | ⟨hne, -⟩ := hcase t
    · have hinuse := h.inuse (t := t) (by rw [(h.mem t).mp ht]; simp)
      rw [hinuse] at hfree
      cases hfree
    · exact hne
  refine ⟨?_, fun t => ?_, ?_, fun t ht => ?_, fun t ht => ?_⟩
  · rw [hm.sleepNext (by decide), hm.threadSleepHead (by decide)]
    exact h.chain
  · rw [h.mem t]
    obtain ⟨-, hfree, hstate, -⟩ | ⟨-, hstate, -⟩ := hcase t
    · simp [hstate, h.unused t hfree]
    · rw [hstate]
  · refine h.sorted.imp_of_mem fun {a b} ha hb hab => ?_
    have hwake : ∀ t ∈ l, (s'.threads t).wakeTick = (s.threads t).wakeTick := fun t ht =>
      schedAddThread_other hadd (hout t ht) (k := .wakeTick) (by decide)
    unfold State.Before at hab ⊢
    rwa [hwake a ha, hwake b hb]
  · obtain ⟨-, -, -, -, -, hinuse⟩ | ⟨-, hstate, -, hinuse⟩ := hcase t
    · rw [hinuse] at ht
      cases ht
    · rw [hstate]
      exact h.unused t (hinuse ▸ ht)
  · rw [hm.pools.threads]
    by_cases hr : r = some t
    · subst hr
      exact (schedAddThread_new hadd).1
    · obtain ⟨heq, -⟩ | ⟨-, -, -, hinuse⟩ := hcase t
      · exact absurd heq hr
      · exact h.lt t (hinuse ▸ ht)

end Updates

/-! ## Ticks -/

section Ticks

variable {s s' : State} {since : Nat → Nat} {l : List Nat}

/-- The first sleeper leaves the queue and can run. -/
theorem SleepQueue.pop {t : Nat} (h : SleepQueue s since (t :: l)) :
    SleepQueue (((s.setSleepNext t none).withSleepHead (s.sleepNext t)).setState t .runnable)
      since l := by
  have hpop := modifies_popSleeper s t
  have hnodup := List.nodup_cons.mp h.chain.nodup
  have hsleep : (s.threads t).state = .sleeping := (h.mem t).mp (by simp)
  have hm := hpop.trans (modifies_state _ t .runnable)
  have hstate : ∀ u, ((((s.setSleepNext t none).withSleepHead (s.sleepNext t)).setState t
      .runnable).threads u).state = if u = t then .runnable else (s.threads u).state := by
    intro u
    by_cases hut : u = t
    · subst hut
      simp [State.setState]
    · rw [if_neg hut]
      exact (congrArg Thread.state (State.threads_modThread_of_ne _ hut)).trans
        (hpop.states (by decide) u)
  refine ⟨?_, fun u => ?_, ?_, fun u hu => ?_, fun u hu => ?_⟩
  · have hkeep := modifies_state ((s.setSleepNext t none).withSleepHead (s.sleepNext t)) t .runnable
    rw [hkeep.sleepNext (by decide), hkeep.threadSleepHead (by decide)]
    simp only [State.sleepNext_withSleepHead, State.sleepNext_setSleepNext,
      State.threadSleepHead_withSleepHead]
    exact Chain.update h.chain.2 hnodup.1
  · have hmem := h.mem u
    rw [hstate u]
    by_cases hut : u = t
    · simp [hut, hnodup.1]
    · simpa [hut] using hmem
  · refine (List.pairwise_cons.mp h.sorted).2.imp fun {a b} hab => ?_
    unfold State.Before at hab ⊢
    rwa [hm.wakeTick (by decide), hm.wakeTick (by decide)]
  · rw [hm.inuse (by decide)] at hu
    have hut : u ≠ t := by
      intro heq
      rw [heq] at hu
      rw [h.unused t hu] at hsleep
      cases hsleep
    rw [hstate u, if_neg hut]
    exact h.unused u hu
  · rw [hm.inuse (by decide)] at hu
    rw [hm.pools.threads]
    exact h.lt u hu

/-- The loop wakes the threads that are due, and only them. -/
theorem wakeDue_spec (h : SleepQueue s since l) {fuel : Nat} (hfuel : l.length ≤ fuel)
    (woke : Bool) :
    ∃ woke' s', wakeDue fuel s woke = .ok (woke', s') ∧
      SleepQueue s' since (l.filter fun t => s.ticks < (s.threads t).wakeTick) ∧
      ∀ t, (s'.threads t).state =
        if (s.threads t).state = .sleeping ∧ (s.threads t).wakeTick ≤ s.ticks then .runnable
        else (s.threads t).state := by
  induction l generalizing s fuel woke with
  | nil =>
      have hhead : s.threadSleepHead = none := h.chain
      refine ⟨woke, s, ?_, h, fun t => ?_⟩
      · unfold wakeDue
        rw [hhead]
      · have hno : (s.threads t).state ≠ .sleeping := fun heq => by simpa using (h.mem t).mpr heq
        rw [if_neg fun hh => hno hh.1]
  | cons t l ih =>
      have hhead : s.threadSleepHead = some t := h.chain.1
      have hsleep : (s.threads t).state = .sleeping := (h.mem t).mp (by simp)
      by_cases hdue : (s.threads t).wakeTick ≤ s.ticks
      · obtain ⟨n, rfl⟩ : ∃ n, fuel = n + 1 := ⟨fuel - 1, by simp at hfuel; omega⟩
        have hpop := modifies_popSleeper s t
        have hm := hpop.trans
          (modifies_state ((s.setSleepNext t none).withSleepHead (s.sleepNext t)) t .runnable)
        obtain ⟨woke', s', hrest, hqueue, hstates⟩ := ih h.pop (by simpa using hfuel) true
        have hticks := hm.ticks (by decide)
        have hwake := hm.wakeTick (by decide)
        refine ⟨woke', s', ?_, ?_, fun u => ?_⟩
        · unfold wakeDue
          rw [hhead]
          simp only [hdue, if_true]
          rw [hpop.inuse (by decide), hpop.states (by decide),
            if_pos ⟨h.inuse (by rw [hsleep]; simp), hsleep⟩]
          exact hrest
        · rw [List.filter_cons_of_neg (by simpa using hdue)]
          simp only [hticks, hwake] at hqueue
          exact hqueue
        · rw [hstates u, hticks, hwake]
          by_cases hut : u = t
          · subst hut
            simp [State.setState, hsleep, hdue]
          · have hsame : ((((s.setSleepNext t none).withSleepHead (s.sleepNext t)).setState t
                .runnable).threads u).state = (s.threads u).state :=
              (congrArg Thread.state (State.threads_modThread_of_ne _ hut)).trans
                (hpop.states (by decide) u)
            rw [hsame]
      · -- the queue is sorted: if the first thread is not due, none is
        have hlater : ∀ u ∈ t :: l, s.ticks < (s.threads u).wakeTick := by
          intro u hu
          cases List.mem_cons.mp hu with
          | inl heq =>
              rw [heq]
              omega
          | inr hmem =>
              have hbefore := (List.pairwise_cons.mp h.sorted).1 u hmem
              unfold State.Before at hbefore
              omega
        refine ⟨woke, s, ?_, ?_, fun u => ?_⟩
        · unfold wakeDue
          rw [hhead]
          simp only [hdue, if_false]
        · rw [List.filter_eq_self.mpr (by simpa using hlater)]
          exact h
        · rw [if_neg]
          intro hh
          have := hlater u ((h.mem u).mpr hh.1)
          omega

/-- A tick wakes exactly the threads whose time has come. -/
theorem schedOnTick_spec (h : SleepQueue s since l) :
    ∃ s', schedOnTick s = .ok s' ∧
      SleepQueue s' since (l.filter fun t => s.ticks < (s.threads t).wakeTick) ∧
      ∀ t, (s'.threads t).state =
        if (s.threads t).state = .sleeping ∧ (s.threads t).wakeTick ≤ s.ticks then .runnable
        else (s.threads t).state := by
  obtain ⟨woke, s₁, hdue, hqueue, hstates⟩ := wakeDue_spec h h.length_le false
  have hclock := countDown_modifies s₁ woke
  refine ⟨s₁.countDown woke, bind_eq_ok.mpr ⟨(woke, s₁), hdue, rfl⟩, ?_, fun t => ?_⟩
  · exact hqueue.frame hclock (by decide) (by decide) (by decide) (by decide)
  · rw [hclock.states (by decide)]
    exact hstates t

end Ticks

/-! ## Runs -/

/-- The sleep queue, with nobody on it who was not on `l`. -/
def SleepsAmong (since : Nat → Nat) (l : List Nat) (s : State) : Prop :=
  ∃ l', l' ⊆ l ∧ SleepQueue s since l'

section Steps

variable {s s' : State} {since : Nat → Nat} {l : List Nat}

theorem SleepsAmong.congr (h : SleepsAmong since l s) {parts : List Part} (hm : Modifies parts s s')
    (hsleep : .sleep ∉ parts) (hwake : .wakeTick ∉ parts) (hinuse : .inuse ∉ parts)
    (hstates : ∀ t, (s'.threads t).state = (s.threads t).state ∨
      ((s.threads t).state ≠ .unused ∧ (s.threads t).state ≠ .sleeping ∧
        (s'.threads t).state ≠ .sleeping)) : SleepsAmong since l s' := by
  obtain ⟨l', hsub, hqueue⟩ := h
  exact ⟨l', hsub, hqueue.congr hm hsleep hwake hinuse hstates⟩

theorem sleepsAmong_stable (since : Nat → Nat) (l : List Nat) :
    Stable (SleepsAmong since l) [.ring, .sleep, .states, .inuse, .owner, .wakeTick] where
  frame := by
    intro s s' touched hm hout h
    have hk : ∀ k ∈ [Part.ring, .sleep, .states, .inuse, .owner, .wakeTick], k ∉ touched :=
      fun k hk hmem => hout k hmem hk
    exact h.congr hm (hk _ (by decide)) (hk _ (by decide)) (hk _ (by decide)) fun t =>
      .inl (hm.states (hk _ (by decide)) t)
  add := by
    intro s s' entry proc r h hadd
    obtain ⟨l', hsub, hqueue⟩ := h
    exact ⟨l', hsub, hqueue.add hadd⟩
  reap := by
    intro s s' t h hreap
    obtain ⟨l', hsub, hqueue⟩ := h
    exact ⟨_, fun t ht => hsub (List.mem_of_mem_erase ht), hqueue.reap hreap⟩

theorem schedWakeThread_sleep (h : SleepsAmong since l s) {t : Nat}
    (hwake : schedWakeThread s t = .ok s') : SleepsAmong since l s' := by
  obtain ⟨hstate, hremove⟩ | ⟨hstate, s₁, rfl, hleave⟩ | ⟨-, -, rfl⟩ := schedWakeThread_cases hwake
  · obtain ⟨l', hsub, hqueue⟩ := h
    exact ⟨_, fun t ht => hsub (List.mem_of_mem_erase ht), hqueue.remove hstate hremove⟩
  · have hrest := (leaveWaiters_modifies hleave).trans (modifies_unwait s₁ t)
    refine h.congr ((modifies_state s t .runnable).trans hrest) (by decide) (by decide) (by decide)
      fun u => ?_
    rw [hrest.states (by decide)]
    by_cases hut : u = t
    · subst hut
      exact .inr ⟨by simp [hstate], by simp [hstate], by simp [State.setState]⟩
    · exact .inl (congrArg Thread.state (State.threads_modThread_of_ne _ hut))
  · exact h

theorem wakeParentWaiter_sleep (h : SleepsAmong since l s) {child : Nat}
    (hwake : wakeParentWaiter s child = .ok s') : SleepsAmong since l s' := by
  unfold wakeParentWaiter at hwake
  split at hwake
  · exact Except.ok.inj hwake ▸ h
  · simp only at hwake
    split at hwake
    · cases hwake
    · exact Except.ok.inj hwake ▸ h
    · exact schedWakeThread_sleep h hwake

theorem schedDoSwitch_sleep (h : SleepsAmong since l s) {esp r : Nat}
    (hswitch : schedDoSwitch s esp = .ok (r, s')) : SleepsAmong since l s' := by
  refine h.congr (schedDoSwitch_modifies hswitch) (by decide) (by decide) (by decide) fun t => ?_
  have hparked := parked_state (s := s) esp t
  split at hparked
  · rename_i hrun
    refine .inr ⟨by simp [hrun.2], by simp [hrun.2], ?_⟩
    obtain heq | ⟨-, hnow, -⟩ := schedDoSwitch_state hswitch t
    · simp [heq, hparked]
    · simp [hnow]
  · obtain heq | ⟨hrunnable, hnow, -⟩ := schedDoSwitch_state hswitch t
    · exact .inl (heq.trans hparked)
    · rw [hparked] at hrunnable
      exact .inr ⟨by simp [hrunnable], by simp [hrunnable], by simp [hnow]⟩

theorem schedBlockCurrentLocked_sleep (h : SleepsAmong since l s) {kind : WaitKind} {target : Nat}
    (hactive : s.Active) (hblock : schedBlockCurrentLocked s kind target = .ok s') :
    SleepsAmong since l s' := by
  obtain ⟨c, hc, hrun⟩ := hactive
  obtain ⟨hnone, -⟩ | ⟨d, p, hd, -, rfl⟩ := schedBlockCurrentLocked_cases hblock
  · rw [hc] at hnone
    cases hnone
  rw [hc, Option.some.injEq] at hd
  subst hd
  refine h.congr (schedBlockCurrentLocked_modifies hblock) (by decide) (by decide) (by decide)
    fun t => ?_
  rw [(modifies_waiters _ p (some c)).states (by decide)]
  by_cases htc : t = c
  · subst htc
    exact .inr ⟨by simp [hrun], by simp [hrun], by simp [Thread.waiting]⟩
  · exact .inl (congrArg Thread.state (State.threads_modThread_of_ne _ htc))

theorem schedThreadExit_sleep (h : SleepsAmong since l s) {code : BitVec 32} (hactive : s.Active)
    (hexit : schedThreadExit s code = .ok s') : SleepsAmong since l s' := by
  obtain ⟨c, hc, hrun⟩ := hactive
  obtain ⟨hnone, -⟩ | ⟨d, p, hd, -, hrest⟩ := schedThreadExit_cases hexit
  · rw [hc] at hnone
    cases hnone
  rw [hc, Option.some.injEq] at hd
  subst hd
  have hexiting : SleepsAmong since l (s.exiting c p code) := by
    refine h.congr (exiting_modifies c p code) (by decide) (by decide) (by decide) fun t => ?_
    rw [exiting_state]
    by_cases htc : t = c
    · subst htc
      exact .inr ⟨by simp [hrun], by simp [hrun], by simp⟩
    · exact .inl (if_neg htc)
  have hstable := sleepsAmong_stable since l
  obtain ⟨-, s₁, s₂, hwake, hfds, rfl⟩ | ⟨-, s₁, hunlink, rfl⟩ := hrest
  · have hended := hstable.frame (ended_modifies p code) (by decide) hexiting
    exact hstable.frame ((schedProcCleanupFds_modifies hfds).trans schedThreadYield_modifies)
      (by decide) (wakeParentWaiter_sleep hended hwake)
  · exact hstable.frame ((unlinkExited_modifies hunlink).trans schedThreadYield_modifies)
      (by decide) hexiting

theorem incrementTicks_sleep (h : SleepsAmong since l s) (htick : incrementTicks s = .ok s') :
    SleepsAmong since l s' := by
  obtain ⟨l', hsub, hqueue⟩ := h
  have hlater : ∀ now, SleepQueue { s with ticks := now } since l' := fun now =>
    ⟨hqueue.chain, hqueue.mem, hqueue.sorted, hqueue.unused, hqueue.lt⟩
  obtain ⟨s₁, hs₁, hqueue₁, -⟩ := schedOnTick_spec (hlater _)
  unfold incrementTicks at htick
  rw [htick, Except.ok.injEq] at hs₁
  exact ⟨_, fun t ht => hsub (List.mem_of_mem_filter ht), hs₁ ▸ hqueue₁⟩

/-- No operation but going to sleep puts a thread on the sleep queue. -/
theorem step_sleep (h : SleepsAmong since l s) {op : Op}
    (hstep : Guarded Step OnlyRunningActs s op s') (hop : ∀ n, op ≠ .sleep n) :
    SleepsAmong since l s' := by
  obtain ⟨hacts, hstep⟩ := hstep
  have hstable := sleepsAmong_stable since l
  cases op with
  | console | procAlloc | yield | execve =>
      exact hstable.frame (step_modifies hstep) (by simp only [Op.parts]; decide) h
  | addThread entry proc =>
      obtain ⟨⟨r, s₁⟩, hadd, hs'⟩ := bind_eq_ok.mp hstep
      exact Except.ok.inj hs' ▸ hstable.add h hadd
  | switch esp =>
      obtain ⟨⟨r, s₁⟩, hswitch, hs'⟩ := bind_eq_ok.mp hstep
      exact Except.ok.inj hs' ▸ schedDoSwitch_sleep h hswitch
  | tick => exact incrementTicks_sleep h hstep
  | wake t => exact schedWakeThread_sleep h hstep
  | sleep n => exact absurd rfl (hop n)
  | block kind target =>
      obtain ⟨s₁, hblock, hs'⟩ := bind_eq_ok.mp hstep
      rw [← Except.ok.inj hs']
      exact hstable.frame schedThreadYield_modifies (by decide)
        (schedBlockCurrentLocked_sleep h (hacts rfl) hblock)
  | exit code => exact schedThreadExit_sleep h (hacts rfl) hstep
  | reapThread t => exact hstable.reap h hstep
  | reapChild parent child =>
      obtain ⟨⟨r, s₁⟩, hreap, hs'⟩ := bind_eq_ok.mp hstep
      exact Except.ok.inj hs' ▸ hstable.procReapChild h hreap
  | waitpid parent filter =>
      obtain ⟨⟨r, s₁⟩, hwait, hs'⟩ := bind_eq_ok.mp hstep
      rw [← Except.ok.inj hs']
      obtain ⟨-, -, rfl⟩ | ⟨-, _, _, -, -, ⟨z, rr, -, hreap, -⟩ | ⟨-, -, -, rfl⟩ |
        ⟨-, -, -, s₂, hblock, rfl⟩⟩ := procWaitpid_cases hwait
      · exact h
      · exact hstable.procReapChild h hreap
      · exact h
      · exact hstable.frame schedThreadYield_modifies (by decide)
          (schedBlockCurrentLocked_sleep h (hacts rfl) hblock)
  | fork tf =>
      obtain ⟨⟨r, tf', s₁⟩, hfork, hs'⟩ := bind_eq_ok.mp hstep
      exact Except.ok.inj hs' ▸ hstable.fork h hfork

end Steps

/-- The scheduler, with a count of the operations so far and a record of when each thread last went
to sleep. -/
structure Timed where
  state : State
  now : Nat
  since : Nat → Nat

/-- What an operation adds to the record. -/
def Timed.recorded (x : Timed) (op : Op) : Nat → Nat :=
  match op, x.state.threadCurrent with
  | .sleep _, some c => Function.update x.since c x.now
  | _, _ => x.since

/-- One step of the scheduler, and of the record. -/
def Timed.Step (x : Timed) (op : Op) (y : Timed) : Prop :=
  Guarded Sched.Step OnlyRunningActs x.state op y.state ∧ y.now = x.now + 1 ∧
    y.since = x.recorded op

/-- The record can be kept in every run. -/
theorem exists_timed_run {s s' : State} {ops : List Op}
    (h : Run (Guarded Sched.Step OnlyRunningActs) s ops s') (now : Nat) (since : Nat → Nat) :
    ∃ since', Run Timed.Step ⟨s, now, since⟩ ops ⟨s', now + ops.length, since'⟩ := by
  induction h generalizing now since with
  | nil s => exact ⟨since, .nil _⟩
  | @cons s t u op ops hop _ ih =>
      obtain ⟨since', hrest⟩ := ih (now + 1) (Timed.recorded ⟨s, now, since⟩ op)
      have hlen : now + (op :: ops).length = now + 1 + ops.length := by
        simp only [List.length_cons]
        omega
      rw [hlen]
      exact ⟨since', .cons ⟨hop, rfl, rfl⟩ hrest⟩

/-- The sleep queue is in order, and all who are on it went to sleep before now. -/
def Timed.Inv (x : Timed) : Prop :=
  ∃ l, SleepQueue x.state x.since l ∧ ∀ t ∈ l, x.since t < x.now

theorem Timed.step_inv {x y : Timed} {op : Op} (h : x.Inv) (hstep : Timed.Step x op y) :
    y.Inv := by
  obtain ⟨l, hqueue, hsince⟩ := h
  obtain ⟨hstep, hnow, hrec⟩ := hstep
  by_cases hop : ∃ n, op = .sleep n
  · obtain ⟨n, rfl⟩ := hop
    obtain ⟨c, hc, hrun⟩ := hstep.1 rfl
    obtain ⟨hnone, -⟩ | ⟨d, s₁, hd, hinsert, hs'⟩ := schedThreadSleep_cases hstep.2
    · rw [hc] at hnone
      cases hnone
    rw [hc, Option.some.injEq] at hd
    subst hd
    obtain ⟨l₁, l₂, rfl, hsleep⟩ := hqueue.sleep hrun hsince hinsert
    have hrec' : y.since = Function.update x.since c x.now := by
      rw [hrec]
      simp [Timed.recorded, hc]
    refine ⟨l₁ ++ c :: l₂, ?_, fun t ht => ?_⟩
    · rw [hs', hrec']
      exact hsleep.frame schedThreadYield_modifies (by decide) (by decide) (by decide) (by decide)
    · rw [hrec', hnow]
      by_cases htc : t = c
      · rw [htc, Function.update_self]
        omega
      · rw [Function.update_of_ne htc]
        have := hsince t (by simpa [htc] using ht)
        omega
  · have hrec' : y.since = x.since := by
      rw [hrec]
      cases op with
      | sleep n => exact absurd ⟨n, rfl⟩ hop
      | _ => rfl
    obtain ⟨l', hsub, hqueue'⟩ := step_sleep ⟨l, fun _ ht => ht, hqueue⟩ hstep
      fun n heq => hop ⟨n, heq⟩
    refine ⟨l', by rw [hrec']; exact hqueue', fun t ht => ?_⟩
    rw [hrec', hnow]
    have := hsince t (hsub ht)
    omega

/-- At the start nobody sleeps. -/
theorem schedInit_sleep {s s' : State} {kib : Nat} {idle : BitVec 32} (hzero : ZeroedThreads s)
    (h : schedInit s kib idle = .ok s') (since : Nat → Nat) : SleepQueue s' since [] := by
  obtain ⟨s₁, p, s₂, r, hblank, halloc, hadd⟩ := schedInit_cases h
  have hzero₁ : ∀ t, s₁.threads t = .zero := fun t => hblank.threads ▸ hzero.threads t
  have hqueue : SleepQueue s₁ since [] := by
    refine ⟨hblank.sleepHead, fun t => ?_, by simp, fun t _ => ?_, fun t ht => ?_⟩
    · simp [hzero₁, Thread.zero]
    · rw [hzero₁]
      rfl
    · rw [hzero₁] at ht
      cases ht
  exact (hqueue.frame (procAlloc_modifies halloc) (by decide) (by decide) (by decide)
    (by decide)).add hadd

/-- The sleep queue over whole runs: it holds the sleeping threads, each once, ordered by the tick
they wake up at and then by when they went to sleep. A tick at any time wakes exactly the threads
that are due. -/
theorem run_sleep_queue {s₀ s₁ : State} {kib : Nat} {idle : BitVec 32} {ops : List Op} {x : Timed}
    (hzero : ZeroedThreads s₀) (hinit : schedInit s₀ kib idle = .ok s₁)
    (hrun : Run Timed.Step ⟨s₁, 0, fun _ => 0⟩ ops x) :
    ∃ l, Chain x.state.sleepNext x.state.threadSleepHead l ∧ l.Nodup ∧
      (∀ t, t ∈ l ↔ (x.state.threads t).state = .sleeping) ∧
      l.Pairwise (x.state.Before x.since) ∧
      ∀ now, ∃ s', schedOnTick { x.state with ticks := now } = .ok s' ∧
        (∀ t, (s'.threads t).state =
          if (x.state.threads t).state = .sleeping ∧ (x.state.threads t).wakeTick ≤ now
            then .runnable
          else (x.state.threads t).state) ∧
        Chain s'.sleepNext s'.threadSleepHead
          (l.filter fun t => now < (x.state.threads t).wakeTick) := by
  have hinv : x.Inv := hrun.invariant (fun _ _ _ h hstep => Timed.step_inv h hstep)
    ⟨[], schedInit_sleep hzero hinit _, by simp⟩
  obtain ⟨l, hqueue, -⟩ := hinv
  refine ⟨l, hqueue.chain, hqueue.chain.nodup, hqueue.mem, hqueue.sorted, fun now => ?_⟩
  have hlater : SleepQueue { x.state with ticks := now } x.since l :=
    ⟨hqueue.chain, hqueue.mem, hqueue.sorted, hqueue.unused, hqueue.lt⟩
  obtain ⟨s', hs', hqueue', hstates⟩ := schedOnTick_spec hlater
  exact ⟨s', hs', hstates, hqueue'.chain⟩

/-- Two threads are added and go to sleep one after the other, the second one for a shorter time. -/
def twoSleepers : List Op :=
  [.addThread 0xC0003000 (some 0), .addThread 0xC0004000 (some 0), .switch 0, .switch 4096,
    .sleep 5, .switch 4096, .sleep 3]

theorem run_sleep_queue_small : ∃ s₁ x, schedInit bootState 32768 0xC0002000 = .ok s₁ ∧
    Run Timed.Step ⟨s₁, 0, fun _ => 0⟩ twoSleepers x ∧
    (x.state.threads 1).state = .sleeping ∧ (x.state.threads 2).state = .sleeping ∧
    ∃ l, Chain x.state.sleepNext x.state.threadSleepHead l ∧ l.Nodup := by
  obtain ⟨s₁, hinit, htest⟩ := exists_of_okAnd (e := schedInit bootState 32768 0xC0002000)
    (p := fun s₁ => (execGuarded Op.exec OnlyRunningActs s₁ twoSleepers).any fun s : State =>
      decide ((s.threads 1).state = .sleeping) && decide ((s.threads 2).state = .sleeping))
    (by decide +kernel)
  obtain ⟨s, hall, htest⟩ := (Option.any_eq_true _ _).mp htest
  simp only [Bool.and_eq_true, decide_eq_true_eq] at htest
  obtain ⟨since, hrun⟩ := exists_timed_run (run_of_execGuarded hall) 0 fun _ => 0
  obtain ⟨l, hchain, hnodup, -⟩ := run_sleep_queue zeroed_bootState.toZeroedThreads hinit hrun
  exact ⟨s₁, _, hinit, hrun, htest.1, htest.2, l, hchain, hnodup⟩

end Unidos.Sched
