import Unidos.Sched.Live
import Unidos.Sched.RunQueue

/-!
# Every runnable thread gets its turn

A switch looks for a runnable thread from the one behind the current thread on, in the order of the
run ring. So the threads between the current one and a runnable thread become fewer with every
switch, and other threads that are reaped only take themselves out (`Between.switch`,
`Between.reap`). `round_robin` is the bound on the number of switches that follows.
-/

namespace Unidos.Sched

open Lib

/-- Following the ring `d` times from thread `c` on leads to thread `t`. -/
def RingDistance (s : State) (c t d : Nat) : Prop :=
  (s.threads c).slotInuse = true ∧ ∃ m, Seg s.rqNext (s.rqNext c) m (some t) ∧ m.length + 1 = d

/-- The threads from the one behind `c` on, up to the first visit of `t`, are those of `m`. -/
structure Between (s : State) (c : Nat) (m : List Nat) (t : Nat) : Prop where
  inuse : (s.threads c).slotInuse = true
  path : Seg s.rqNext (s.rqNext c) m (some t)
  first : t ∉ m

def Op.isSwitch : Op → Bool
  | .switch _ => true
  | _ => false

/-- The operations that add threads. -/
def Op.adds : Op → Bool
  | .addThread _ _ | .fork _ => true
  | _ => false

/-- The operations that reap threads for whoever calls them. -/
def Op.reaps : Op → Bool
  | .reapThread _ | .reapChild _ _ => true
  | _ => false

/-- Thread `t` is runnable. No thread is added, and threads are reaped only while another one runs.
-/
def Waits (t : Nat) (s : State) (op : Op) : Prop :=
  Proper s op ∧ op.adds = false ∧ (op.reaps = true → s.Active) ∧
    (s.threads t).state = .runnable

instance (t : Nat) (s : State) (op : Op) : Decidable (Waits t s op) :=
  inferInstanceAs (Decidable (_ ∧ _ ∧ _ ∧ _))

section Between

variable {s s' : State} {l m : List Nat} {c t u : Nat}

theorem RunRing.exists_ring (h : RunRing s l) (hc : c ∈ l) :
    ∃ head, s.threadHead = some head ∧ Ring s.rqNext head l := by
  have hloop := h.loop
  cases hhead : s.threadHead with
  | none =>
      rw [hhead] at hloop
      have hnil : l = [] := hloop
      simp [hnil] at hc
  | some head =>
      rw [hhead] at hloop
      exact ⟨head, rfl, hloop⟩

/-- A path on the ring stays on the ring. -/
theorem path_mem {next : Nat → Option Nat} {head : Nat} {q : Option Nat} (h : Ring next head l)
    (hc : c ∈ l) (hpath : Seg next (next c) m q) : ∀ a ∈ m, a ∈ l := by
  induction m generalizing c with
  | nil => simp
  | cons b m ih =>
      obtain ⟨b', hb', hmem⟩ := h.next_mem hc
      rw [hpath.1, Option.some.injEq] at hb'
      subst hb'
      intro a ha
      rcases List.mem_cons.mp ha with rfl | ha
      · exact hmem
      · exact ih hmem hpath.2 a ha

namespace Between

theorem nodup (h : Between s c m t) : m.Nodup := h.path.nodup h.first

theorem start_not_mem (h : Between s c m t) : c ∉ m := h.path.start_not_mem h.first

theorem frame (h : Between s c m t) {parts : List Part} (hm : Modifies parts s s')
    (hring : .ring ∉ parts) (hinuse : .inuse ∉ parts) : Between s' c m t where
  inuse := (hm.inuse hinuse c).trans h.inuse
  path := by
    rw [hm.rqNext hring]
    exact h.path
  first := h.first

/-- Another thread is reaped. -/
theorem reap (h : Between s c m t) (hring : RunRing s l) (hu : (s.threads u).slotInuse = true)
    (huc : u ≠ c) (hut : u ≠ t) (hreap : threadReap s u = .ok s') :
    Between s' c (m.filter (· ≠ u)) t := by
  have hc := (hring.mem c).mpr h.inuse
  have hu := (hring.mem u).mpr hu
  obtain ⟨head, -, hloop⟩ := hring.exists_ring hc
  have hnext : ∀ b ∈ l, b ≠ u → s'.rqNext b = bypass s.rqNext u (s.rqNext b) := fun b hb hne =>
    threadReap_next hring hu hb hne hreap
  refine ⟨?_, ?_, fun hmem => h.first (List.mem_of_mem_filter hmem)⟩
  · rw [((threadReap_state hreap).2 c (Ne.symm huc)).1]
    exact h.inuse
  · rw [hnext c hc (Ne.symm huc)]
    exact h.path.bypass hut (hloop.next_ne_self hu hc huc) fun b hb =>
      hnext b (path_mem hloop hc h.path b hb)

end Between

/-- The search finds the first runnable thread on the path. -/
theorem nextRunnable_path {b x head : Nat} {k : List Nat} (hhead : s.threadHead = some head)
    (hpath : Seg s.rqNext (some b) k (some x)) (hk : ∀ a ∈ k, (s.threads a).state ≠ .runnable)
    (hx : (s.threads x).state = .runnable) (hlen : k.length < s.threadPoolCount) :
    nextRunnable s (some b) = .ok (some x) := by
  have hxk : x ∉ k := fun hmem => hk x hmem hx
  unfold nextRunnable
  simp only [hhead, Option.getD_some]
  cases k with
  | nil =>
      have hb : b = x := Option.some.inj hpath
      rw [hb, if_pos hx]
  | cons b' k =>
      have hb := Option.some.inj hpath.1
      subst hb
      rw [if_neg (hk b (by simp))]
      have hbk : b ∉ k := hpath.2.start_not_mem fun hmem => hxk (by simp [hmem])
      have hseg : Seg s.rqNext (s.rqNext b) (k ++ [x]) (s.rqNext x) :=
        seg_append_cons.mpr ⟨hpath.2, rfl⟩
      have hfind : (k ++ [x]).find? (fun a => a == b || (s.threads a).state == .runnable) =
          some x := by
        rw [List.find?_append, List.find?_eq_none.mpr fun a ha => ?_]
        · simp [hx]
        · have hne : a ≠ b := fun heq => hbk (heq ▸ ha)
          simpa [hne] using hk a (by simp [ha])
      rw [walk_of_seg hseg hfind (by simpa using Nat.le_of_lt hlen)]
      simp [hx]

/-- A switch makes `t` the current thread, or one of the threads in front of it. -/
theorem Between.switch (h : Between s c m t) (hring : RunRing s l) (hc : s.threadCurrent = some c)
    (ht : (s.threads t).state = .runnable) {esp r : Nat}
    (hswitch : schedDoSwitch s esp = .ok (r, s')) :
    s'.threadCurrent = some t ∧ (s'.threads t).state = .running ∨
    ∃ k x m', m = k ++ x :: m' ∧ s'.threadCurrent = some x ∧ Between s' x m' t := by
  have hm := parked_modifies (s := s) esp
  have hmem := (hring.mem c).mpr h.inuse
  obtain ⟨head, hhead, hloop⟩ := hring.exists_ring hmem
  have hmem_m := path_mem hloop hmem h.path
  have hmem_t : t ∈ l := (path_mem hloop hmem
    (seg_append_cons.mpr ⟨h.path, rfl⟩ : Seg _ _ (m ++ [t]) (s.rqNext t))) t (by simp)
  have hready : ((s.parked esp).threads t).state = .runnable := by
    rw [parked_state]
    split
    · rfl
    · exact ht
  -- the first runnable thread on the way to `t`, which may be `t` itself
  obtain ⟨x, hfind⟩ : ∃ x, (m ++ [t]).find? (fun a =>
      decide (((s.parked esp).threads a).state = .runnable)) = some x := by
    rw [← Option.isSome_iff_exists, List.find?_isSome]
    exact ⟨t, by simp, by simpa using hready⟩
  obtain ⟨hx, k, rest, heq, hbefore⟩ := List.find?_eq_some_iff_append.mp hfind
  have hfull : Seg s.rqNext (s.rqNext c) (m ++ [t]) (s.rqNext t) :=
    seg_append_cons.mpr ⟨h.path, rfl⟩
  rw [heq] at hfull
  obtain ⟨hto, hfrom⟩ := seg_append_cons.mp hfull
  obtain ⟨b, hb⟩ : ∃ b, s.rqNext c = some b := by
    cases k with
    | nil => exact ⟨x, hto⟩
    | cons b k => exact ⟨b, hto.1⟩
  have hlen : k.length < s.threadPoolCount := by
    have hnodup : (m ++ [t]).Nodup := List.nodup_append.mpr
      ⟨h.nodup, by simp, fun a ha a' ha' heq => h.first (by simp_all)⟩
    have hle := length_le_of_nodup hnodup fun a ha => hring.lt a ((hring.mem a).mp (by
      rcases List.mem_append.mp ha with ha | ha
      · exact hmem_m a ha
      · rw [List.mem_singleton.mp ha]
        exact hmem_t))
    rw [heq, List.length_append, List.length_cons] at hle
    omega
  have hnext : nextRunnable (s.parked esp) ((s.parked esp).switchStart head) = .ok (some x) := by
    have hstart : (s.parked esp).switchStart head = some b := by
      rw [State.switchStart, hm.threadCurrent (by decide), hc, ← hb]
      exact congrFun (hm.rqNext (by decide)) c
    rw [hstart]
    refine nextRunnable_path ((hm.threadHead (by decide)).trans hhead) (k := k) ?_
      (fun a ha => by simpa using hbefore a ha) (by simpa using hx) ?_
    · rw [hm.rqNext (by decide), ← hb]
      exact hto
    · rw [hm.pools.threads]
      exact hlen
  have hto' : switchTo (s.parked esp) x = .ok (r, s') := by
    obtain ⟨hnone, -⟩ | ⟨head', next, hhead', hnext', hend⟩ := schedDoSwitch_cases hswitch
    · rw [hm.threadHead (by decide), hhead] at hnone
      cases hnone
    · rw [hm.threadHead (by decide), hhead, Option.some.injEq] at hhead'
      subst hhead'
      rw [hnext, Except.ok.injEq] at hnext'
      subst hnext'
      obtain ⟨hnone, -⟩ | ⟨x', hx', hto'⟩ := hend
      · cases hnone
      · rwa [Option.some.inj hx']
  obtain ⟨-, -, -, hcurrent, -, hstates⟩ := switchTo_cases hto'
  rcases List.eq_nil_or_concat rest with rfl | ⟨m', z, rfl⟩
  · obtain ⟨rfl, hxt⟩ := List.append_inj' heq rfl
    obtain rfl := List.singleton_inj.mp hxt
    exact .inl ⟨hcurrent, by rw [hstates, if_pos rfl]⟩
  · rw [List.concat_eq_append, ← List.cons_append, ← List.append_assoc] at heq
    obtain ⟨hsplit, hz⟩ := List.append_inj' heq rfl
    obtain rfl := List.singleton_inj.mp hz
    rw [List.concat_eq_append] at hfrom
    refine .inr ⟨k, x, m', hsplit, hcurrent, ?_⟩
    have hbetween : Between s x m' t := by
      refine ⟨(hring.mem x).mp (hmem_m x (by simp [hsplit])), (seg_append_cons.mp hfrom).1, ?_⟩
      exact fun hmem => h.first (by simp [hsplit, hmem])
    exact hbetween.frame (schedDoSwitch_modifies hswitch) (by decide) (by decide)

/-- Reaping a child takes out its threads, which have all exited. -/
theorem Between.reapChild (h : Between s c m t) (hbase : Base s) (hring : RunRing s l)
    (hc : (s.threads c).state = .running) (ht : (s.threads t).state = .runnable) {parent z : Nat}
    (hreap : procReapChild s parent z = .ok (.success, s')) :
    ∃ m', Between s' c m' t ∧ m'.Sublist m := by
  obtain ⟨s₁, hreaped, hlive, hzombie, -, hfree, -⟩ := hbase.reapChild hreap
  let I (v : State) : Prop := (∃ l, RunRing v l) ∧ LiveInv v (some z) ∧
    (v.procs z).state = .zombie ∧ (v.threads c).state = .running ∧
    (v.threads t).state = .runnable ∧ ∃ m', Between v c m' t ∧ m'.Sublist m
  have hI : I s₁ := by
    refine hreaped.invariant (I := I) ?_ ⟨⟨l, hring⟩, hlive, hzombie, hc, ht, m, h, .refl m⟩
    rintro v u v₁ hinuse hproc hone ⟨⟨l, hring⟩, hlive, hzombie, hc, ht, m', hbetween, hsub⟩
    have hu := hlive.zombie (by simp [hzombie]) hinuse hproc
    have huc : u ≠ c := fun heq => by simp [heq, hc] at hu
    have hut : u ≠ t := fun heq => by simp [heq, ht] at hu
    have hother := (threadReap_state hone).2
    refine ⟨⟨_, threadReap_ring hring hone⟩, hlive.reap (.inl hu) hone, ?_, ?_, ?_,
      _, hbetween.reap hring hinuse huc hut hone, (List.filter_sublist ..).trans hsub⟩
    · rw [(threadReap_modifies hone).phase (by decide)]
      exact hzombie
    · rw [(hother c (Ne.symm huc)).2.1]
      exact hc
    · rw [(hother t (Ne.symm hut)).2.1]
      exact ht
  obtain ⟨-, -, -, -, -, m', hbetween, hsub⟩ := hI
  exact ⟨m', hbetween.frame (procFree_modifies hfree) (by decide) (by decide), hsub⟩

/-- An operation that is not a switch leaves the current thread, and puts no thread in front of
`t`. -/
theorem Between.step (h : Between s c m t) (hbase : Base s) (hring : RunRing s l)
    (hc : s.threadCurrent = some c) {op : Op} (hstep : Guarded Step (Waits t) s op s')
    (hop : op.isSwitch = false) :
    s'.threadCurrent = some c ∧ ∃ m', Between s' c m' t ∧ m'.Sublist m := by
  obtain ⟨⟨hproper, hadds, hreaps, ht⟩, hstep⟩ := hstep
  have hm := step_modifies hstep
  have hrunning (hactive : s.Active) : (s.threads c).state = .running := by
    obtain ⟨d, hd, hrun⟩ := hactive
    rw [hc, Option.some.injEq] at hd
    rwa [hd]
  cases op with
  | switch => cases hop
  | addThread => cases hadds
  | fork => cases hadds
  | reapThread u =>
      have hu : (s.threads u).state = .zombie := hproper.2.2.2 u rfl
      have hrun := hrunning (hreaps rfl)
      refine ⟨(hm.threadCurrent (of_decide_eq_true rfl)).trans hc, _,
        h.reap hring (hbase.live.inuse (by simp [hu])) ?_ ?_ hstep, List.filter_sublist ..⟩
      · rintro rfl
        simp [hu] at hrun
      · rintro rfl
        simp [hu] at ht
  | reapChild parent child =>
      refine ⟨(hm.threadCurrent (of_decide_eq_true rfl)).trans hc, ?_⟩
      obtain rfl | ⟨-, hreap⟩ := step_reapChild hstep
      · exact ⟨m, h, .refl m⟩
      · exact h.reapChild hbase hring (hrunning (hreaps rfl)) ht hreap
  | waitpid parent filter =>
      refine ⟨(hm.threadCurrent (of_decide_eq_true rfl)).trans hc, ?_⟩
      obtain rfl | ⟨z, -, hreap⟩ | ⟨s₁, -, hblock, rfl⟩ := step_waitpid hstep
      · exact ⟨m, h, .refl m⟩
      · exact h.reapChild hbase hring (hrunning (hproper.1 rfl)) ht hreap
      · exact ⟨m, h.frame ((schedBlockCurrentLocked_modifies hblock).trans
          schedThreadYield_modifies) (by decide) (by decide), .refl m⟩
  | _ =>
      exact ⟨(hm.threadCurrent (of_decide_eq_true rfl)).trans hc, m,
        h.frame hm (of_decide_eq_true rfl) (of_decide_eq_true rfl), .refl m⟩

/-- As long as a thread is runnable, a switch comes to an end. -/
theorem switch_total (h : Between s c m t) (hbase : Base s) (hring : RunRing s l)
    (hc : s.threadCurrent = some c) (ht : (s.threads t).state = .runnable) (esp : Nat) :
    ∃ s', Step s (.switch esp) s' := by
  have hm := parked_modifies (s := s) esp
  have hmem := (hring.mem c).mpr h.inuse
  obtain ⟨head, hhead, hloop⟩ := hring.exists_ring hmem
  have hring' : RunRing (s.parked esp) l := hring.congr hm (by decide) (by decide)
  have hstart : ∀ b ∈ (s.parked esp).switchStart head, b ∈ l := by
    intro b hb
    rw [State.switchStart, hm.threadCurrent (by decide), hc] at hb
    obtain ⟨b', hb', hmem⟩ := hloop.next_mem hmem
    rw [← congrFun (hm.rqNext (by decide)) c] at hb'
    cases hb'.symm.trans hb
    exact hmem
  obtain ⟨r, hnext, hsome, hnone⟩ := nextRunnable_spec hring' hstart
  cases r with
  | none =>
      refine absurd ?_ (hnone rfl t ?_)
      · rw [parked_state]
        split
        · rfl
        · exact ht
      · exact (path_mem hloop hmem (seg_append_cons.mpr ⟨h.path, rfl⟩ :
          Seg _ _ (m ++ [t]) (s.rqNext t))) t (by simp)
  | some x =>
      obtain ⟨hx, hready⟩ := hsome x rfl
      have hstate : (s.threads x).state ≠ .zombie := by
        rw [parked_state] at hready
        split at hready
        · rename_i hrun
          simp [hrun.2]
        · simp [hready]
      obtain ⟨p, hp, -⟩ := hbase.live.owner x ((hring.mem x).mp hx) hstate
      obtain ⟨s', hto, -⟩ := switchTo_spec (s := s.parked esp) (t := x)
        ((hm.owner (by decide) x).trans hp)
      refine ⟨s', bind_eq_ok.mpr ⟨(((s.parked esp).threads x).savedEsp, s'), ?_, rfl⟩⟩
      simp only [schedDoSwitch, hm.threadHead (show Part.ring ∉ _ by decide), hhead]
      exact bind_eq_ok.mpr ⟨some x, hnext, hto⟩

end Between

/-! ## Runs -/

/-- The number of switches among the operations. -/
def switches (ops : List Op) : Nat := ops.countP Op.isSwitch

section Runs

variable {s s' : State} {ops : List Op} {m : List Nat} {c t : Nat}

theorem Waits.proper {s : State} {op : Op} (h : Waits t s op) : Proper s op := h.1

theorem waits_invariant (hrun : Run (Guarded Step (Waits t)) s ops s') (hbase : Base s)
    (hring : ∃ l, RunRing s l) : Base s' ∧ ∃ l, RunRing s' l := by
  refine hrun.invariant (I := fun v => Base v ∧ ∃ l, RunRing v l) ?_ ⟨hbase, hring⟩
  rintro v op v' ⟨hbase, hring⟩ hstep
  exact ⟨step_base hbase ⟨hstep.1.proper, hstep.2⟩, step_ring hring hstep.2⟩

/-- In a run while `t` is runnable, with the threads of `m` in front of it at the start: either `t`
has become current, or it is still in the queue, behind fewer threads for every switch. -/
theorem waits_run (hbase : Base s) (hring : ∃ l, RunRing s l) (hc : s.threadCurrent = some c)
    (h : Between s c m t) (hrun : Run (Guarded Step (Waits t)) s ops s') :
    (s'.threadCurrent = some t ∧ (s'.threads t).state = .running ∧
      switches ops ≤ m.length + 1) ∨
    ∃ c' m', s'.threadCurrent = some c' ∧ Between s' c' m' t ∧
      m'.length + switches ops ≤ m.length ∧ (c' = c ∧ switches ops = 0 ∨ c' ∈ m) := by
  induction hrun generalizing c m with
  | nil s => exact .inr ⟨c, m, hc, h, Nat.le_refl _, .inl ⟨rfl, rfl⟩⟩
  | @cons s v s' op ops hop hrest ih =>
      obtain ⟨l, hl⟩ := hring
      have hbase' := step_base hbase ⟨hop.1.proper, hop.2⟩
      have hring' := step_ring ⟨l, hl⟩ hop.2
      cases hswitch : op.isSwitch with
      | false =>
          obtain ⟨hc', m₁, hbetween, hsub⟩ := h.step hbase hl hc hop hswitch
          have hcount : switches (op :: ops) = switches ops := by simp [switches, hswitch]
          have hle := hsub.length_le
          rw [hcount]
          rcases ih hbase' hring' hc' hbetween with ⟨hcur, hrun, hlen⟩ |
            ⟨c', m', hcur, hbetween', hlen, hmem⟩
          · exact .inl ⟨hcur, hrun, by omega⟩
          · exact .inr ⟨c', m', hcur, hbetween', by omega, hmem.imp_right (hsub.subset ·)⟩
      | true =>
          have hcount : switches (op :: ops) = switches ops + 1 := by simp [switches, hswitch]
          rw [hcount]
          cases op with
          | switch esp =>
              obtain ⟨⟨r, v'⟩, hdo, heq⟩ := bind_eq_ok.mp hop.2
              cases heq
              rcases h.switch hl hc hop.1.2.2.2 hdo with ⟨hcur, hrunning⟩ |
                ⟨k, x, m₁, rfl, hcur, hbetween⟩
              · cases hrest with
                | nil => exact .inl ⟨hcur, hrunning, by simp [switches]⟩
                | cons hnext _ =>
                    have := hnext.1.2.2.2
                    rw [hrunning] at this
                    cases this
              · simp only [List.length_append, List.length_cons]
                rcases ih hbase' hring' hcur hbetween with ⟨hcur', hrun, hlen⟩ |
                  ⟨c', m', hcur', hbetween', hlen, hmem⟩
                · exact .inl ⟨hcur', hrun, by omega⟩
                · refine .inr ⟨c', m', hcur', hbetween', by omega, .inr ?_⟩
                  rcases hmem with ⟨rfl, -⟩ | hmem
                  · simp
                  · simp [hmem]
          | _ => cases hswitch

end Runs

/-- For every reachable state and every thread `t` at distance `d` behind the current thread, and as
long as `t` is runnable and no thread is added: there are at most `d` switches, all of them come to
an end, `t` is the current thread after the last of them, and no other thread becomes current
twice. -/
theorem round_robin {s₀ s₁ s s' : State} {kib c t d : Nat} {idle : BitVec 32} {ops₀ ops : List Op}
    (hzero : Zeroed s₀) (hinit : schedInit s₀ kib idle = .ok s₁)
    (hreach : Run (Guarded Step Proper) s₁ ops₀ s) (hc : s.threadCurrent = some c)
    (hdist : RingDistance s c t d) (hrun : Run (Guarded Step (Waits t)) s ops s') :
    switches ops ≤ d ∧
    (switches ops = d → s'.threadCurrent = some t ∧ (s'.threads t).state = .running) ∧
    ((s'.threads t).state = .runnable → ∀ esp, ∃ u, Step s' (.switch esp) u) ∧
    ∀ ops' u, Run (Guarded Step (Waits t)) s' ops' u → (u.threads t).state = .runnable →
      1 ≤ switches ops' → u.threadCurrent ≠ s'.threadCurrent := by
  have hbase : Base s := hreach.invariant (I := Base) (fun _ _ _ h hstep => step_base h hstep)
    (schedInit_base hzero hinit)
  have hring : ∃ l, RunRing s l := hreach.invariant (I := fun v => ∃ l, RunRing v l)
    (fun _ _ _ h hstep => step_ring h hstep.2) (schedInit_queue hzero.toZeroedThreads hinit).ring
  obtain ⟨hinuse, m₀, hpath, rfl⟩ := hdist
  obtain ⟨m, hpath, hfirst, hlen⟩ := hpath.exists_first
  obtain ⟨hbase', l', hring'⟩ := waits_invariant hrun hbase hring
  rcases waits_run hbase hring hc ⟨hinuse, hpath, hfirst⟩ hrun with ⟨hcur, hrunning, hle⟩ |
    ⟨c', m', hcur, hbetween, hle, -⟩
  · refine ⟨by omega, fun _ => ⟨hcur, hrunning⟩, fun hready => ?_, fun ops' u hafter _ hpos => ?_⟩
    · rw [hrunning] at hready
      cases hready
    · cases hafter with
      | nil => simp [switches] at hpos
      | cons hop _ =>
          have hready := hop.1.2.2.2
          rw [hrunning] at hready
          cases hready
  · refine ⟨by omega, fun heq => by omega, fun hready esp =>
      switch_total hbetween hbase' hring' hcur hready esp, fun ops' u hafter hready hpos => ?_⟩
    rcases waits_run hbase' ⟨l', hring'⟩ hcur hbetween hafter with ⟨-, hrunning, -⟩ |
      ⟨c'', m'', hcur'', -, -, ⟨-, hzero⟩ | hmem⟩
    · rw [hrunning] at hready
      cases hready
    · omega
    · rw [hcur, hcur'']
      exact fun heq => hbetween.start_not_mem (Option.some.inj heq ▸ hmem)

/-- The idle thread runs, a thread is added behind it, and becomes current with the first switch. -/
theorem round_robin_one : ∃ s₁ s s', schedInit bootState 32768 0xC0002000 = .ok s₁ ∧
    Run (Guarded Step Proper) s₁ [.addThread 0xC0003000 (some 0), .switch 0] s ∧
    RingDistance s 0 1 1 ∧ Run (Guarded Step (Waits 1)) s [.tick, .switch 4096] s' ∧
    s'.threadCurrent = some 1 := by
  obtain ⟨s₁, hinit, htest⟩ := exists_of_okAnd (e := schedInit bootState 32768 0xC0002000)
    (p := fun s₁ => (execGuarded Op.exec Proper s₁ [.addThread 0xC0003000 (some 0),
      .switch 0]).any fun s : State => decide (s.threadCurrent = some 0) &&
        (s.threads 0).slotInuse && decide (s.rqNext 0 = some 1) &&
        (execGuarded Op.exec (Waits 1) s [.tick, .switch 4096]).isSome) (by decide +kernel)
  obtain ⟨s, hall, htest⟩ := (Option.any_eq_true _ _).mp htest
  simp only [Bool.and_eq_true, decide_eq_true_eq] at htest
  obtain ⟨⟨⟨hc, hinuse⟩, hnext⟩, hafter⟩ := htest
  obtain ⟨s', hafter⟩ := Option.isSome_iff_exists.mp hafter
  have hdist : RingDistance s 0 1 1 := ⟨hinuse, [], hnext, rfl⟩
  have hreach := run_of_execGuarded hall
  have hrun := run_of_execGuarded hafter
  exact ⟨s₁, s, s', hinit, hreach, hdist, hrun,
    ((round_robin zeroed_bootState hinit hreach hc hdist hrun).2.1 rfl).1⟩

end Unidos.Sched
