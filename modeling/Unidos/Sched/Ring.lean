import Unidos.Sched.States

/-!
# The run ring

`RunRing s l` says that the threads in use are those of `l`, in the order of the run ring. Adding a
thread appends it (`schedAddThread_ring`), and reaping one takes it out (`threadReap_ring`). No
walk over the ring diverges.
-/

namespace Unidos.Sched

open Lib

/-- The run ring holds the threads in use, each once. -/
structure RunRing (s : State) (l : List Nat) : Prop where
  loop : Loop s.rqNext s.threadHead l
  mem : ∀ t, t ∈ l ↔ (s.threads t).slotInuse = true
  lt : ∀ t, (s.threads t).slotInuse = true → t < s.threadPoolCount

namespace RunRing

variable {s s' : State} {l : List Nat}

theorem length_le (h : RunRing s l) : l.length ≤ s.threadPoolCount :=
  h.loop.length_le fun t ht => h.lt t ((h.mem t).mp ht)

theorem congr (h : RunRing s l) {parts : List Part} (hm : Modifies parts s s')
    (hring : .ring ∉ parts) (hinuse : .inuse ∉ parts) : RunRing s' l := by
  refine ⟨?_, fun t => ?_, fun t ht => ?_⟩
  · rw [hm.rqNext hring, hm.threadHead hring]
    exact h.loop
  · rw [hm.inuse hinuse]
    exact h.mem t
  · rw [hm.inuse hinuse] at ht
    rw [hm.pools.threads]
    exact h.lt t ht

end RunRing

section Walks

variable {s s' : State} {l : List Nat}

/-- The search for a runnable thread goes once around the ring. -/
theorem nextRunnable_spec (h : RunRing s l) {start : Option Nat} (hstart : ∀ b ∈ start, b ∈ l) :
    ∃ r, nextRunnable s start = .ok r ∧
      (∀ t ∈ r, t ∈ l ∧ (s.threads t).state = .runnable) ∧
      (r = none → ∀ t ∈ l, (s.threads t).state ≠ .runnable) := by
  unfold nextRunnable
  cases hhead : s.threadHead with
  | none =>
      have hnil : l = [] := by
        have hloop := h.loop
        rwa [hhead] at hloop
      refine ⟨none, rfl, by simp, fun _ t ht => ?_⟩
      simp [hnil] at ht
  | some hd =>
      have hring : Ring s.rqNext hd l := by
        have hloop := h.loop
        rwa [hhead] at hloop
      obtain ⟨b, hb, hmem⟩ : ∃ b, start.getD hd = b ∧ b ∈ l := by
        cases start with
        | none => exact ⟨hd, rfl, hring.head_mem⟩
        | some b => exact ⟨b, rfl, hstart b rfl⟩
      simp only [hb]
      by_cases hrun : (s.threads b).state = .runnable
      · rw [if_pos hrun]
        exact ⟨some b, rfl, by simpa using ⟨hmem, hrun⟩, by simp⟩
      rw [if_neg hrun]
      obtain ⟨l₁, l₂, rfl⟩ := List.append_of_mem hmem
      -- the walk comes back to where it started at the latest
      have hseg : Seg s.rqNext (s.rqNext b) ((l₂ ++ l₁) ++ [b]) (s.rqNext b) :=
        seg_append.mpr ⟨some b, hring.rotate, rfl, rfl⟩
      have hlen : ((l₂ ++ l₁) ++ [b]).length ≤ s.threadPoolCount := by
        have := h.length_le
        simp only [List.length_append, List.length_cons, List.length_nil] at this ⊢
        omega
      let stop (t : Nat) := t == b || (s.threads t).state == .runnable
      obtain ⟨t, hfind⟩ : ∃ t, ((l₂ ++ l₁) ++ [b]).find? stop = some t := by
        rw [← Option.isSome_iff_exists, List.find?_isSome]
        exact ⟨b, by simp, by simp [stop]⟩
      rw [walk_of_seg hseg hfind hlen]
      have htmem : t ∈ l₁ ++ b :: l₂ := by
        have := List.mem_of_find?_eq_some hfind
        simp only [List.mem_append, List.mem_cons, List.not_mem_nil, or_false] at this ⊢
        tauto
      by_cases ht : (s.threads t).state = .runnable
      · exact ⟨some t, by simp [ht], by simpa using ⟨by simpa using htmem, ht⟩, by simp⟩
      · refine ⟨none, by simp [ht], by simp, fun _ u hu hrunu => ?_⟩
        -- the walk passed every other thread, and stopped at `b` itself
        have htb : t = b := by
          have := List.find?_some hfind
          simpa [stop, ht] using this
        subst htb
        have hub : u ≠ t := fun heq => hrun (heq ▸ hrunu)
        have hmemu : u ∈ l₂ ++ l₁ := by
          simp only [List.mem_append, List.mem_cons] at hu ⊢
          tauto
        rw [List.find?_append] at hfind
        have hnone : (l₂ ++ l₁).find? stop = none := by
          by_contra hne
          obtain ⟨v, hv⟩ := Option.ne_none_iff_exists'.mp hne
          rw [hv] at hfind
          have hvt : v = t := by simpa using hfind
          have hnodup := hring.nodup
          have := List.mem_of_find?_eq_some hv
          rw [hvt] at this
          rw [List.nodup_append, List.nodup_cons] at hnodup
          obtain ⟨-, ⟨ht₂, -⟩, hdisj⟩ := hnodup
          cases List.mem_append.mp this with
          | inl h2 => exact ht₂ h2
          | inr h1 => exact hdisj t h1 t (by simp) rfl
        have := List.find?_eq_none.mp hnone u hmemu
        simp [stop, hrunu] at this

theorem runqAppend_spec {t : Nat} (h : Loop s.rqNext s.threadHead l)
    (hlen : l.length ≤ s.threadPoolCount) (ht : t ∉ l) :
    ∃ s', runqAppend s t = .ok s' ∧ Loop s'.rqNext s'.threadHead (l ++ [t]) := by
  unfold runqAppend
  cases hhead : s.threadHead with
  | none =>
      rw [hhead] at h
      have hnil : l = [] := h
      subst hnil
      refine ⟨_, rfl, ?_⟩
      simp only [State.rqNext_withThreadHead, State.rqNext_setRqNext,
        State.threadHead_withThreadHead]
      exact Ring.singleton s.rqNext t
  | some hd =>
      rw [hhead] at h
      have hring : Ring s.rqNext hd l := h
      obtain ⟨k, z, rfl⟩ : ∃ k z, l = k ++ [z] :=
        ⟨_, _, (List.dropLast_append_getLast hring.ne_nil).symm⟩
      simp only [hring.walk_last hlen]
      refine ⟨_, rfl, ?_⟩
      simp only [State.rqNext_setRqNext, State.threadHead_setRqNext, hhead, List.append_assoc]
      exact hring.append ht

/-- Unlinking a thread that is on the ring. -/
theorem threadUnlinkFromRunq_spec {t : Nat} (h : Loop s.rqNext s.threadHead l)
    (hlen : l.length ≤ s.threadPoolCount) (ht : t ∈ l) :
    ∃ s', threadUnlinkFromRunq s t = .ok s' ∧ Loop s'.rqNext s'.threadHead (l.erase t) ∧
      ∀ a ∈ l.erase t, s'.rqNext a = bypass s.rqNext t (s.rqNext a) := by
  unfold threadUnlinkFromRunq
  cases hhead : s.threadHead with
  | none =>
      rw [hhead] at h
      have hnil : l = [] := h
      simp [hnil] at ht
  | some hd =>
      rw [hhead] at h
      have hring : Ring s.rqNext hd l := h
      simp only
      by_cases htd : hd = t
      · subst htd
        rw [if_pos rfl]
        obtain ⟨l', rfl⟩ := hring.eq_cons
        rw [List.erase_cons_head]
        cases List.eq_nil_or_concat l' with
        | inl hnil =>
            subst hnil
            have hself : s.rqNext hd = some hd := hring.seg.2
            rw [if_pos hself]
            exact ⟨_, rfl, rfl, by simp⟩
        | inr hlast =>
            obtain ⟨k, z, rfl⟩ := hlast
            obtain ⟨m, hm⟩ : ∃ m, s.rqNext hd = some m := by
              cases hnext : s.rqNext hd with
              | some m => exact ⟨m, rfl⟩
              | none =>
                  have hrest := hring.seg.2
                  rw [hnext] at hrest
                  cases k with
                  | nil => exact absurd hrest.1 (by simp)
                  | cons a k => exact absurd hrest.1 (by simp)
            have hne : s.rqNext hd ≠ some hd := by
              have := (show Ring s.rqNext hd ((hd :: k) ++ [z]) from by simpa using hring)
              exact this.next_ne_head (by simp)
            rw [if_neg hne]
            have hcons : hd :: (k ++ [z]) = (hd :: k) ++ [z] := rfl
            have hwalk : walk s.rqNext (fun a => s.rqNext a == some hd) s.threadPoolCount
                (some hd) = some (some z) := by
              rw [List.concat_eq_append, hcons] at hring hlen
              exact hring.walk_last hlen
            rw [List.concat_eq_append] at hring ⊢
            simp only [hwalk, hm]
            have hout : ∀ n ∈ k ++ [z], n ≠ hd := fun n hn heq =>
              (List.nodup_cons.mp hring.nodup).1 (heq ▸ hn)
            refine ⟨_, rfl, ?_, fun a ha => ?_⟩
            · simp only [State.rqNext_setRqNext, State.threadHead_setRqNext,
                State.rqNext_withThreadHead, State.threadHead_withThreadHead]
              have hnew := hring.unlinkHead hm
              exact Ring.congr hnew fun n hn => Function.update_of_ne (hout n hn) _ _
            · simp only [State.rqNext_setRqNext, State.rqNext_withThreadHead]
              rw [Function.update_of_ne (hout a ha), bypass, hm]
              have hlast : Ring s.rqNext hd ((hd :: k) ++ [z]) := hring
              by_cases haz : a = z
              · rw [haz, Function.update_self, if_pos hlast.last_next]
              · have hak : a ∈ hd :: k := by simpa [haz] using Or.inr ha
                rw [Function.update_of_ne haz, if_neg (hlast.next_ne_head hak)]
      · rw [if_neg htd]
        obtain ⟨l', hcons⟩ | ⟨l₁, a, l₂, rfl⟩ := mem_cases ht
        · obtain ⟨k, hk⟩ := hring.eq_cons
          rw [hcons] at hk
          exact absurd (List.cons.inj hk).1.symm htd
        · obtain ⟨hwalk, ha⟩ := hring.walk_before hlen
          simp only [hwalk, ha, beq_self_eq_true, if_true]
          have hout : ∀ n ∈ (l₁ ++ a :: t :: l₂).erase t, n ≠ t := fun n hn heq =>
            hring.nodup.not_mem_erase (heq ▸ hn)
          refine ⟨_, rfl, ?_, fun n hn => ?_⟩
          · simp only [State.rqNext_setRqNext, State.threadHead_setRqNext, hhead]
            rw [erase_behind hring.nodup] at hout ⊢
            exact Ring.congr hring.unlinkAfter fun n hn => Function.update_of_ne (hout n hn) _ _
          · simp only [State.rqNext_setRqNext]
            rw [Function.update_of_ne (hout n hn), bypass]
            by_cases hna : n = a
            · rw [hna, Function.update_self, if_pos ha]
            · rw [Function.update_of_ne hna, if_neg fun heq => hna ?_]
              exact hring.next_inj (List.mem_of_mem_erase hn) (by simp) (heq.trans ha.symm)

/-- Unlinking a thread that is not on the ring does nothing. -/
theorem threadUnlinkFromRunq_absent {t : Nat} (h : Loop s.rqNext s.threadHead l)
    (hlen : l.length ≤ s.threadPoolCount) (ht : t ∉ l) : threadUnlinkFromRunq s t = .ok s := by
  unfold threadUnlinkFromRunq
  cases hhead : s.threadHead with
  | none => rfl
  | some hd =>
      rw [hhead] at h
      have hring : Ring s.rqNext hd l := h
      have hne : hd ≠ t := fun heq => ht (heq ▸ hring.head_mem)
      obtain ⟨z, hwalk, hz⟩ := hring.walk_absent ht hlen
      simp only [if_neg hne, hwalk]
      rw [if_neg (by simpa using hz)]

end Walks

/-! ## Threads that come and go -/

section Threads

variable {s s' : State} {l : List Nat}

/-- A new thread goes to the end of the ring. -/
theorem schedAddThread_ring (h : RunRing s l) {entry : BitVec 32} {proc r : Option Nat}
    (hadd : schedAddThread s entry proc = .ok (r, s')) : RunRing s' (l ++ r.toList) := by
  obtain ⟨rfl, ⟨-, rfl⟩ | halloc⟩ | ⟨p, t, s₁, s₂, base, top, -, rfl, halloc, hlink, -, happend⟩ :=
    schedAddThread_cases hadd
  · simpa using h
  · simpa using h.congr (allocThreadSlot_modifies halloc) (by decide) (by decide)
  · obtain ⟨hlt, hfree⟩ := allocThreadSlot_some halloc
    have hm := ((allocThreadSlot_modifies halloc).trans (linkThread_modifies hlink)).trans
      (modifies_countThread s₂ p)
    have h₂ : RunRing (s₂.countThread p) l := h.congr hm (by decide) (by decide)
    have ht : t ∉ l := fun hmem => by simp [(h.mem t).mp hmem] at hfree
    generalize hs₃ : (s₂.countThread p).modThread t (fun th =>
      th.started p t entry s₂.threadBootstrap base top) = s₃ at happend
    have hnext : ∀ u ∈ l, s₃.rqNext u = (s₂.countThread p).rqNext u := by
      intro u hu
      have hne : u ≠ t := fun heq => ht (heq ▸ hu)
      rw [← hs₃]
      exact congrArg Thread.rqNext (State.threads_modThread_of_ne _ hne)
    have hhead : s₃.threadHead = (s₂.countThread p).threadHead := by rw [← hs₃]; rfl
    have hcount : s₃.threadPoolCount = (s₂.countThread p).threadPoolCount := by rw [← hs₃]; rfl
    obtain ⟨s₄, happend', hloop⟩ := runqAppend_spec (s := s₃)
      (by rw [hhead]; exact h₂.loop.congr hnext) (by rw [hcount]; exact h₂.length_le) ht
    rw [happend, Except.ok.injEq] at happend'
    subst happend'
    have hring := runqAppend_modifies happend
    have hinuse : ∀ u, (s'.threads u).slotInuse = true ↔
        u = t ∨ (s.threads u).slotInuse = true := by
      intro u
      rw [hring.inuse (by decide), ← hs₃]
      by_cases hu : u = t
      · subst hu
        simp [Thread.started]
      · rw [State.threads_modThread_of_ne _ hu, hm.inuse (by decide)]
        simp [hu]
    refine ⟨hloop, fun u => ?_, fun u hu => ?_⟩
    · rw [hinuse u, ← h.mem u]
      simp [or_comm]
    · rw [hring.pools.threads, hcount, hm.pools.threads]
      cases (hinuse u).mp hu with
      | inl heq => exact heq ▸ hlt
      | inr hold => exact h.lt u hold

/-- A thread that is reaped leaves the ring. -/
theorem threadReap_ring (h : RunRing s l) {t : Nat} (hreap : threadReap s t = .ok s') :
    RunRing s' (l.erase t) := by
  obtain ⟨s₁, s₂, s₃, hring, hsleep, hlist, rfl⟩ := threadReap_cases hreap
  have hm := (threadUnlinkFromRunq_modifies hring).trans
    ((sleepqRemove_modifies hsleep).trans (unlinkThread_modifies hlist))
  have hm' := (sleepqRemove_modifies hsleep).trans (unlinkThread_modifies hlist)
  have hloop : Loop s₁.rqNext s₁.threadHead (l.erase t) := by
    by_cases ht : t ∈ l
    · obtain ⟨u, hu, hloop, -⟩ := threadUnlinkFromRunq_spec h.loop h.length_le ht
      rw [hring, Except.ok.injEq] at hu
      exact hu ▸ hloop
    · rw [threadUnlinkFromRunq_absent h.loop h.length_le ht, Except.ok.injEq] at hring
      rw [← hring, List.erase_of_not_mem ht]
      exact h.loop
  have hinuse : ∀ u, ((s₃.modThread t Thread.freed).threads u).slotInuse = true ↔
      u ≠ t ∧ (s.threads u).slotInuse = true := by
    intro u
    by_cases hu : u = t
    · subst hu
      simp [Thread.freed]
    · rw [State.threads_modThread_of_ne _ hu, hm.inuse (by decide)]
      simp [hu]
  refine ⟨?_, fun u => ?_, fun u hu => ?_⟩
  · show Loop _ s₃.threadHead _
    rw [hm'.threadHead (by decide)]
    refine hloop.congr fun u hu => ?_
    have hne : u ≠ t := fun heq => h.loop.nodup.not_mem_erase (heq ▸ hu)
    exact (congrArg Thread.rqNext (State.threads_modThread_of_ne _ hne)).trans
      (congrFun (hm'.rqNext (by decide)) u)
  · rw [hinuse u, ← h.mem u, h.loop.nodup.mem_erase_iff]
  · show u < s₃.threadPoolCount
    rw [hm.pools.threads]
    exact h.lt u ((hinuse u).mp hu).2

/-- What leads over a thread that is reaped leads to the next one. -/
theorem threadReap_next (h : RunRing s l) {t a : Nat} (ht : t ∈ l) (ha : a ∈ l) (hne : a ≠ t)
    (hreap : threadReap s t = .ok s') : s'.rqNext a = bypass s.rqNext t (s.rqNext a) := by
  obtain ⟨s₁, s₂, s₃, hring, hsleep, hlist, rfl⟩ := threadReap_cases hreap
  have hm := (sleepqRemove_modifies hsleep).trans (unlinkThread_modifies hlist)
  obtain ⟨u, hu, -, hnext⟩ := threadUnlinkFromRunq_spec h.loop h.length_le ht
  rw [hring, Except.ok.injEq] at hu
  subst hu
  rw [← hnext a (h.loop.nodup.mem_erase_iff.mpr ⟨hne, ha⟩)]
  exact (congrArg Thread.rqNext (State.threads_modThread_of_ne _ hne)).trans
    (congrFun (hm.rqNext (by decide)) a)

end Threads

end Unidos.Sched
