import Unidos.Sched.States

/-!
# The slots of the processes

What allocating and freeing a process does to the records of the processes. The links between
parents and children are left to `Unidos.Sched.Tree`.
-/

namespace Unidos.Sched

open Lib

variable {s s' : State}

/-! ## Allocation -/

/-- The slot for a new process is free. -/
theorem allocProcessSlot_some {p : Nat} (h : allocProcessSlot s = some p) :
    p < s.processPoolCount ∧ (s.procs p).slotInuse = false := by
  unfold allocProcessSlot at h
  have hpos : 0 < s.processPoolCount := by
    by_contra hzero
    rw [Nat.eq_zero_of_not_pos hzero] at h
    simp [circFind] at h
  exact ⟨circFind_lt hpos h, by simpa using circFind_sound h⟩

theorem procAddrSpace_records {parent : Option Nat} {context : ProcessContext} {ok : Bool}
    {space : Option Nat} (h : procAddrSpace s parent context = .ok (ok, space, s')) :
    s'.procs = s.procs ∧ s'.threads = s.threads := by
  unfold procAddrSpace at h
  split at h
  · obtain ⟨⟨m, mm⟩, -, h⟩ := bind_eq_ok.mp h
    simp only [Except.ok.injEq, Prod.mk.injEq] at h
    rw [← h.2.2]
    exact ⟨rfl, rfl⟩
  · simp only [Except.ok.injEq, Prod.mk.injEq] at h
    rw [h.2.2]
    exact ⟨rfl, rfl⟩

/-- Giving a process its descriptors touches no other one. -/
theorem procStdio_other {parent : Option Nat} {context : ProcessContext} {p q : Nat}
    (h : procStdio s parent context p = .ok s') (hq : q ≠ p) : s'.procs q = s.procs q := by
  unfold procStdio at h
  split at h
  · obtain ⟨⟨fdList, fdCount, io⟩, -, h⟩ := bind_eq_ok.mp h
    rw [← Except.ok.inj h]
    exact State.procs_modProc_of_ne _ hq
  · rw [Except.ok.inj h]

section Alloc

variable {parent r : Option Nat} {context : ProcessContext} {p q : Nat}

/-- A new process leaves the records of the others alone, but for the links to it. -/
theorem procAlloc_other (h : procAlloc s parent context = .ok (r, s'))
    (hq : allocProcessSlot s ≠ some q) {k : Part} (hk : k ≠ .tree) :
    SameProcess k (s.procs q) (s'.procs q) := by
  obtain ⟨-, -, rfl⟩ | ⟨p, ok, space, s₁, hp, hspace, hrest⟩ := procAlloc_cases h
  · exact SameProcess.refl k _
  have hqp : q ≠ p := fun heq => hq (heq ▸ hp)
  have hfirst : (s₁.setAddrSpace p space).procs q = s.procs q := by
    rw [State.setAddrSpace, State.procs_modProc_of_ne _ hqp, (procAddrSpace_records hspace).1]
    exact State.procs_modProc_of_ne _ hqp
  obtain ⟨-, -, rfl⟩ | ⟨-, -, s₂, hlink, hstdio⟩ := hrest
  · rw [State.procs_modProc_of_ne _ hqp, hfirst]
    exact SameProcess.refl k _
  · rw [procStdio_other hstdio hqp, ← hfirst]
    exact (linkChild_modifies hlink).process k (by simpa using hk) q

/-- The record of a new process. -/
theorem procAlloc_slot (h : procAlloc s parent context = .ok (r, s'))
    (hp : allocProcessSlot s = some p) :
    (s'.procs p).slotInuse = r.isSome ∧ (r = none ∨ r = some p) ∧
      ∀ k, k ∉ [Part.tree, .files, .space, .slot] → SameProcess k
        ((s.procs p).started p (inherited s parent context).1 parent (inherited s parent context).2)
        (s'.procs p) := by
  obtain ⟨-, hnone, -⟩ | ⟨p', ok, space, s₁, hp', hspace, hrest⟩ := procAlloc_cases h
  · rw [hnone] at hp
    cases hp
  rw [hp, Option.some.injEq] at hp'
  subst hp'
  have hreserved : s₁.procs p = (s.procs p).started p (inherited s parent context).1 parent
      (inherited s parent context).2 := by
    rw [(procAddrSpace_records hspace).1, State.reserved, State.procs_modProc_self]
    cases parent <;> rfl
  have hfirst := modifies_addrSpace s₁ p space
  obtain ⟨-, rfl, rfl⟩ | ⟨-, rfl, s₂, hlink, hstdio⟩ := hrest
  · refine ⟨by simp, .inl rfl, fun k hk => ?_⟩
    have hslot : Modifies [.slot] (s₁.setAddrSpace p space)
        ((s₁.setAddrSpace p space).modProc p fun pr => { pr with slotInuse := false }) :=
      .modProc fun k hk => by cases k <;> simp_all [SameProcess]
    rw [← hreserved]
    exact (hfirst.trans hslot).process k (by simp at hk ⊢; tauto) p
  · have hlater := (linkChild_modifies hlink).trans (procStdio_modifies hstdio)
    refine ⟨?_, .inr rfl, fun k hk => ?_⟩
    · rw [(hfirst.trans hlater).slot (by decide), hreserved]
      rfl
    · rw [← hreserved]
      by_cases hmm : k = .mm ∨ k = .io
      · obtain rfl | rfl := hmm
        · trivial
        · trivial
      · exact (hfirst.trans hlater).process k (by simp at hk hmm ⊢; tauto) p

/-- A new process is in use and alive, in a slot that was free. -/
theorem procAlloc_new (h : procAlloc s parent context = .ok (some p, s')) :
    allocProcessSlot s = some p ∧ (s.procs p).slotInuse = false ∧ (s'.procs p).slotInuse = true ∧
      (s'.procs p).state = .alive := by
  obtain ⟨hno, -⟩ | ⟨q, _, _, _, hq, -⟩ := procAlloc_cases h
  · cases hno
  obtain ⟨hslot, hr, hsame⟩ := procAlloc_slot h hq
  obtain hr | hr := hr
  · cases hr
  rw [Option.some.injEq] at hr
  subst hr
  exact ⟨hq, (allocProcessSlot_some hq).2, hslot, (hsame .phase (by decide)).1⟩

/-- The processes in use before stay in use. -/
theorem procAlloc_slots (h : procAlloc s parent context = .ok (r, s'))
    (hq : (s.procs q).slotInuse = true) :
    (s'.procs q).slotInuse = true ∧ allocProcessSlot s ≠ some q := by
  have hne : allocProcessSlot s ≠ some q := by
    intro heq
    rw [(allocProcessSlot_some heq).2] at hq
    cases hq
  have hsame : (s'.procs q).slotInuse = (s.procs q).slotInuse :=
    procAlloc_other h hne (k := .slot) (by decide)
  exact ⟨hsame.trans hq, hne⟩

theorem linkChild_threads (h : linkChild s parent p = .ok s') : s'.threads = s.threads := by
  unfold linkChild at h
  split at h
  · rw [Except.ok.inj h]
  split at h
  · exact Except.ok.inj h ▸ rfl
  · split at h
    · exact Except.ok.inj h ▸ rfl
    · cases h

theorem procStdio_threads (h : procStdio s parent context p = .ok s') :
    s'.threads = s.threads := by
  unfold procStdio at h
  split at h
  · obtain ⟨⟨fdList, fdCount, io⟩, -, h⟩ := bind_eq_ok.mp h
    exact Except.ok.inj h ▸ rfl
  · rw [Except.ok.inj h]

/-- A new process has no threads, and those of the others are as they were. -/
theorem procAlloc_threads (h : procAlloc s parent context = .ok (r, s')) :
    s'.threads = s.threads := by
  obtain ⟨-, -, rfl⟩ | ⟨p, ok, space, s₁, hp, hspace, hrest⟩ := procAlloc_cases h
  · rfl
  have hfirst : s₁.threads = s.threads := (procAddrSpace_records hspace).2
  obtain ⟨-, -, rfl⟩ | ⟨-, -, s₂, hlink, hstdio⟩ := hrest
  · exact hfirst
  · rw [procStdio_threads hstdio, linkChild_threads hlink]
    exact hfirst

end Alloc

/-! ## Release -/

section Free

variable {p q : Nat}

/-- Freeing a process leaves the records of the others alone, but for the links to it. -/
theorem procFree_other (h : procFree s p = .ok s') (hq : q ≠ p) {k : Part} (hk : k ≠ .tree) :
    SameProcess k (s.procs q) (s'.procs q) := by
  obtain ⟨s₁, mm, hunlink, -, rfl⟩ := procFree_cases h
  rw [State.procs_modProc_of_ne _ hq]
  exact (unlinkChild_modifies hunlink).process k (by simpa using hk) q

/-- The record of a process that was freed. -/
theorem procFree_self (h : procFree s p = .ok s') : ∃ pr : Process, s'.procs p = pr.freed := by
  obtain ⟨s₁, mm, -, -, rfl⟩ := procFree_cases h
  exact ⟨_, State.procs_modProc_self _ _ _⟩

theorem unlinkChild_threads (h : unlinkChild s p = .ok s') : s'.threads = s.threads := by
  unfold unlinkChild at h
  split at h
  · rw [Except.ok.inj h]
  split at h
  · cases h
  · rw [Except.ok.inj h]
  · exact Except.ok.inj h ▸ rfl
  · exact Except.ok.inj h ▸ rfl

/-- Threads do not notice that a process is freed. -/
theorem procFree_threads (h : procFree s p = .ok s') : s'.threads = s.threads := by
  obtain ⟨s₁, mm, hunlink, -, rfl⟩ := procFree_cases h
  show s₁.threads = s.threads
  exact unlinkChild_threads hunlink

end Free

end Unidos.Sched
