import Unidos.Sched.Live

/-!
# The process tree

A process keeps a list of its children. `Kids s l` says that the list of process `p` is `l p`, and
that everything on it is in use and has `p` as its parent; this always holds. That a process also
stands on the list of its parent (`Tree s l`) holds as long as no process is reaped that still has
children, since nobody takes these over. `run_tree` says so for whole runs.
-/

namespace Unidos.Sched

open Lib

/-- The first child of each process. -/
def State.firstChild (s : State) (p : Nat) : Option Nat := (s.procs p).firstChild

@[simp] theorem State.firstChild_setFirstChild (s : State) (p : Nat) (head : Option Nat) :
    (s.setFirstChild p head).firstChild = Function.update s.firstChild p head :=
  proj_modProc s p Process.firstChild _

@[simp] theorem State.nextSibling_setFirstChild (s : State) (p : Nat) (head : Option Nat) :
    (s.setFirstChild p head).nextSibling = s.nextSibling := by
  refine (proj_modProc s p Process.nextSibling _).trans ?_
  exact Function.update_eq_self (f := s.nextSibling) p

@[simp] theorem State.firstChild_setNextSibling (s : State) (p : Nat) (next : Option Nat) :
    (s.setNextSibling p next).firstChild = s.firstChild := by
  refine (proj_modProc s p Process.firstChild _).trans ?_
  exact Function.update_eq_self (f := s.firstChild) p

/-- The parents of the processes. -/
def State.parent (s : State) (p : Nat) : Option Nat := (s.procs p).parent

@[simp] theorem State.parent_setFirstChild (s : State) (p : Nat) (head : Option Nat) :
    (s.setFirstChild p head).parent = s.parent := by
  refine (proj_modProc s p Process.parent _).trans ?_
  exact Function.update_eq_self (f := s.parent) p

@[simp] theorem State.parent_setNextSibling (s : State) (p : Nat) (next : Option Nat) :
    (s.setNextSibling p next).parent = s.parent := by
  refine (proj_modProc s p Process.parent _).trans ?_
  exact Function.update_eq_self (f := s.parent) p

/-- The lists of children hold processes in use whose parent is the owner of the list. -/
structure Kids (s : State) (l : Nat → List Nat) : Prop where
  lists : Lists s.nextSibling s.firstChild l
  mem : ∀ p, ∀ c ∈ l p, (s.procs c).slotInuse = true ∧ s.parent c = some p ∧
    (s.procs p).slotInuse = true
  lt : ∀ p, (s.procs p).slotInuse = true → p < s.processPoolCount
  irrefl : ∀ p, (s.procs p).slotInuse = true → s.parent p ≠ some p

namespace Kids

variable {s s' : State} {l : Nat → List Nat}

theorem length_le (h : Kids s l) (p : Nat) : (l p).length ≤ s.processPoolCount :=
  (h.lists.chain p).length_le fun c hc => h.lt c (h.mem p c hc).1

/-- A process is on no list but that of its parent. -/
theorem where_eq (h : Kids s l) {c p q : Nat} (hp : s.parent c = some p) (hq : c ∈ l q) :
    q = p := by
  have hparent := (h.mem q c hq).2.1
  rw [hp, Option.some.injEq] at hparent
  exact hparent.symm

/-- The list of a free slot is empty. -/
theorem eq_nil (h : Kids s l) {p : Nat} (hp : (s.procs p).slotInuse = false) : l p = [] := by
  refine List.eq_nil_iff_forall_not_mem.mpr fun c hc => ?_
  rw [(h.mem p c hc).2.2] at hp
  cases hp

theorem not_mem (h : Kids s l) {c : Nat} (hc : (s.procs c).slotInuse = false) (p : Nat) :
    c ∉ l p := by
  intro hmem
  rw [(h.mem p c hmem).1] at hc
  cases hc

theorem frame (h : Kids s l) {parts : List Part} (hm : Modifies parts s s') (htree : .tree ∉ parts)
    (hslot : .slot ∉ parts) : Kids s' l := by
  refine ⟨h.lists.congr (fun k n _ => ?_) (hm.firstChild htree), fun p c hc => ?_, fun p hp => ?_,
    fun p hp => ?_⟩
  · rw [hm.nextSibling htree]
  · rw [hm.slot hslot, hm.slot hslot, State.parent, hm.parent htree]
    exact h.mem p c hc
  · rw [hm.slot hslot] at hp
    rw [hm.pools.procs]
    exact h.lt p hp
  · rw [hm.slot hslot] at hp
    rw [State.parent, hm.parent htree]
    exact h.irrefl p hp

end Kids

/-! ## New processes -/

section Alloc

variable {s s' : State} {l : Nat → List Nat}

/-- The lists after process `r` was put behind the children of `parent`. -/
def withChild (l : Nat → List Nat) (parent r : Option Nat) : Nat → List Nat :=
  match r, parent with
  | some p, some q => Function.update l q (l q ++ [p])
  | _, _ => l

/-- A new process is put at the end of the list of its parent. -/
theorem linkChild_lists (h : Lists s.nextSibling s.firstChild l) {parent : Option Nat} {p : Nat}
    (hlen : ∀ q, (l q).length ≤ s.processPoolCount) (hout : ∀ q, p ∉ l q)
    (hnext : s.nextSibling p = none) (hlink : linkChild s parent p = .ok s') :
    Lists s'.nextSibling s'.firstChild (withChild l parent (some p)) ∧ s'.parent = s.parent := by
  unfold linkChild at hlink
  split at hlink
  · rw [← Except.ok.inj hlink]
    exact ⟨h, rfl⟩
  rename_i q
  split at hlink
  · rename_i hnone
    have hnil : l q = [] := h.head_eq_none.mp hnone
    rw [← Except.ok.inj hlink, State.nextSibling_setFirstChild, State.firstChild_setFirstChild,
      State.parent_setFirstChild]
    rw [withChild, hnil, List.nil_append]
    exact ⟨h.start hout hnone hnext, rfl⟩
  · rename_i c hc
    have hchain := h.chain q
    rw [show s.firstChild q = some c from hc] at hchain
    rw [walk_of_chain hchain (hlen q)] at hlink
    cases hfind : (l q).find? (fun a => s.nextSibling a == none) with
    | none =>
        rw [hfind] at hlink
        cases hlink
    | some a =>
        rw [hfind] at hlink
        have hnone : s.nextSibling a = none := by simpa using List.find?_some hfind
        obtain ⟨l₁, hl⟩ := hchain.eq_append_last (List.mem_of_find?_eq_some hfind) hnone
        rw [← Except.ok.inj hlink, State.nextSibling_setNextSibling,
          State.firstChild_setNextSibling, State.parent_setNextSibling]
        exact ⟨h.append hout hl hnext, rfl⟩

/-- The record that a new process starts from is on no list, and has no children. -/
theorem reserved_lists (h : Kids s l) {s₁ : State} {parent : Option Nat} (space : Option Nat)
    {p ppid : Nat} {context : ProcessContext} (hp : (s.procs p).slotInuse = false)
    (hself : s₁.procs p = (s.procs p).started p ppid parent context)
    (hother : ∀ q, q ≠ p → s₁.procs q = s.procs q) :
    Lists (s₁.setAddrSpace p space).nextSibling (s₁.setAddrSpace p space).firstChild l ∧
      (s₁.setAddrSpace p space).parent = Function.update s.parent p parent ∧
      (s₁.setAddrSpace p space).nextSibling p = none := by
  have hother' : ∀ q, q ≠ p → (s₁.setAddrSpace p space).procs q = s.procs q := fun q hq =>
    (State.procs_modProc_of_ne _ hq).trans (hother q hq)
  have hself' : ((s₁.setAddrSpace p space).procs p).nextSibling = none ∧
      ((s₁.setAddrSpace p space).procs p).firstChild = none ∧
      ((s₁.setAddrSpace p space).procs p).parent = parent := by
    simp [State.setAddrSpace, hself, Process.started]
  refine ⟨h.lists.congr (fun k n hn => ?_) fun q => ?_, ?_, hself'.1⟩
  · exact congrArg Process.nextSibling (hother' n fun heq => h.not_mem hp k (heq ▸ hn))
  · by_cases hq : q = p
    · rw [hq]
      exact hself'.2.1.trans (h.lists.head_eq_none.mpr (h.eq_nil hp)).symm
    · exact congrArg Process.firstChild (hother' q hq)
  · funext q
    by_cases hq : q = p
    · rw [hq, Function.update_self]
      exact hself'.2.2
    · rw [Function.update_of_ne hq]
      exact congrArg Process.parent (hother' q hq)

/-- The lists and the parents after a process was allocated. -/
theorem procAlloc_lists (h : Kids s l) {parent r : Option Nat} {context : ProcessContext}
    (halloc : procAlloc s parent context = .ok (r, s')) :
    Lists s'.nextSibling s'.firstChild (withChild l parent r) ∧
      (∀ c, (s.procs c).slotInuse = true → s'.parent c = s.parent c) ∧
      ∀ p, r = some p → s'.parent p = parent := by
  obtain ⟨rfl, -, rfl⟩ | ⟨p, ok, space, s₁, hp, hspace, hrest⟩ := procAlloc_cases halloc
  · exact ⟨h.lists, fun _ _ => rfl, by simp⟩
  have hfree := (allocProcessSlot_some hp).2
  have hrecords := (procAddrSpace_records hspace).1
  obtain ⟨hlists, hparent, hnext⟩ := reserved_lists h space hfree
    (by rw [hrecords, State.reserved, State.procs_modProc_self])
    fun q hq => by rw [hrecords]; exact State.procs_modProc_of_ne _ hq
  have hold : ∀ c, (s.procs c).slotInuse = true →
      Function.update s.parent p parent c = s.parent c := by
    intro c hc
    refine Function.update_of_ne ?_ _ _
    intro heq
    rw [heq, hfree] at hc
    cases hc
  obtain ⟨-, rfl, rfl⟩ | ⟨-, rfl, s₂, hlink, hstdio⟩ := hrest
  · have hslot : Modifies [.slot] (s₁.setAddrSpace p space)
        ((s₁.setAddrSpace p space).modProc p fun pr => { pr with slotInuse := false }) :=
      .modProc fun k hk => by cases k <;> simp_all [SameProcess]
    refine ⟨hlists.congr (fun k n _ => ?_) (hslot.firstChild (by decide)), fun c hc => ?_, by simp⟩
    · rw [hslot.nextSibling (by decide)]
    · rw [State.parent, hslot.parent (by decide)]
      exact (congrFun hparent c).trans (hold c hc)
  · have hpool : (s₁.setAddrSpace p space).processPoolCount = s.processPoolCount :=
      (procAddrSpace_modifies hspace).pools.procs
    obtain ⟨hlinked, hsame⟩ := linkChild_lists hlists (fun q => hpool ▸ h.length_le q)
      (h.not_mem hfree) hnext hlink
    have hm := procStdio_modifies hstdio
    have hparents : s'.parent = Function.update s.parent p parent := by
      rw [← hparent, ← hsame]
      exact funext (hm.parent (by decide))
    refine ⟨?_, fun c hc => ?_, fun q hq => ?_⟩
    · exact hlinked.congr (fun k n _ => by rw [hm.nextSibling (by decide)])
        (hm.firstChild (by decide))
    · rw [hparents]
      exact hold c hc
    · rw [Option.some.injEq] at hq
      rw [hparents, ← hq, Function.update_self]

theorem Kids.alloc (h : Kids s l) {parent r : Option Nat} {context : ProcessContext}
    (hparent : ∀ q, parent = some q → (s.procs q).slotInuse = true)
    (halloc : procAlloc s parent context = .ok (r, s')) : Kids s' (withChild l parent r) := by
  obtain ⟨hlists, hold, hnew⟩ := procAlloc_lists h halloc
  -- what is in use now was in use before, or is the new process
  have hinuse : ∀ c, (s'.procs c).slotInuse = true → (s.procs c).slotInuse = true ∨ r = some c := by
    intro c hc
    by_cases hslot : allocProcessSlot s = some c
    · obtain ⟨hsome, hr, -⟩ := procAlloc_slot halloc hslot
      rw [hsome] at hc
      obtain hr | hr := hr
      · simp [hr] at hc
      · exact .inr hr
    · have hsame : (s'.procs c).slotInuse = (s.procs c).slotInuse :=
        procAlloc_other halloc hslot (k := .slot) (by decide)
      exact .inl (hsame ▸ hc)
  have hkeep : ∀ c, (s.procs c).slotInuse = true → (s'.procs c).slotInuse = true :=
    fun c hc => (procAlloc_slots halloc hc).1
  have hmem : ∀ p, ∀ c ∈ l p, (s'.procs c).slotInuse = true ∧ s'.parent c = some p ∧
      (s'.procs p).slotInuse = true := by
    intro p c hc
    obtain ⟨hcuse, hcp, hpuse⟩ := h.mem p c hc
    exact ⟨hkeep c hcuse, (hold c hcuse).trans hcp, hkeep p hpuse⟩
  refine ⟨hlists, fun p c hc => ?_, fun p hp => ?_, fun p hp => ?_⟩
  · unfold withChild at hc
    split at hc
    · rename_i d q
      by_cases hpq : p = q
      · subst hpq
        rw [Function.update_self, List.mem_append, List.mem_singleton] at hc
        cases hc with
        | inl hc => exact hmem p c hc
        | inr hc =>
            subst hc
            obtain ⟨-, -, hcuse, -⟩ := procAlloc_new halloc
            exact ⟨hcuse, hnew c rfl, hkeep p (hparent p rfl)⟩
      · rw [Function.update_of_ne hpq] at hc
        exact hmem p c hc
    · exact hmem p c hc
  · rw [(procAlloc_modifies halloc).pools.procs]
    obtain hp | rfl := hinuse p hp
    · exact h.lt p hp
    · exact (allocProcessSlot_some (procAlloc_new halloc).1).1
  · obtain hp | rfl := hinuse p hp
    · rw [hold p hp]
      exact h.irrefl p hp
    · rw [hnew p rfl]
      intro heq
      have huse := hparent p heq
      rw [(procAlloc_new halloc).2.1] at huse
      cases huse

end Alloc

/-! ## Processes that go -/

section Free

variable {s s' : State} {l : Nat → List Nat}

/-- A process leaves the list of its parent. -/
theorem unlinkChild_lists (h : Kids s l) {z : Nat} (hunlink : unlinkChild s z = .ok s') :
    Lists s'.nextSibling s'.firstChild (fun q => (l q).erase z) ∧ s'.parent = s.parent := by
  unfold unlinkChild at hunlink
  split at hunlink
  · rename_i hnone
    have hout : ∀ q, z ∉ l q := by
      intro q hq
      have hparent : (s.procs z).parent = some q := (h.mem q z hq).2.1
      rw [hnone] at hparent
      cases hparent
    rw [← Except.ok.inj hunlink, Lists.erase_of_not_mem hout]
    exact ⟨h.lists, rfl⟩
  rename_i q hq
  obtain ⟨hplace, herase⟩ | ⟨hplace, -, hlists⟩ | ⟨a, -, hplace, hlists⟩ :=
    h.lists.unlink_cases (h.length_le q) fun j => h.where_eq hq
  · have hplace' : place s.nextSibling s.processPoolCount (s.procs q).firstChild z =
        some .absent := hplace
    rw [hplace'] at hunlink
    rw [← Except.ok.inj hunlink, herase]
    exact ⟨h.lists, rfl⟩
  · have hplace' : place s.nextSibling s.processPoolCount (s.procs q).firstChild z =
        some .front := hplace
    rw [hplace'] at hunlink
    rw [← Except.ok.inj hunlink, State.nextSibling_setFirstChild, State.firstChild_setFirstChild,
      State.parent_setFirstChild]
    exact ⟨hlists, rfl⟩
  · have hplace' : place s.nextSibling s.processPoolCount (s.procs q).firstChild z =
        some (.behind a) := hplace
    rw [hplace'] at hunlink
    rw [← Except.ok.inj hunlink, State.nextSibling_setNextSibling,
      State.firstChild_setNextSibling, State.parent_setNextSibling]
    exact ⟨hlists, rfl⟩

/-- The lists after process `z` is gone. -/
def withoutProcess (l : Nat → List Nat) (z : Nat) : Nat → List Nat :=
  Function.update (fun q => (l q).erase z) z []

theorem mem_withoutProcess {c p z : Nat} (hc : c ∈ withoutProcess l z p) :
    p ≠ z ∧ c ∈ (l p).erase z := by
  by_cases hpz : p = z
  · simp [withoutProcess, hpz] at hc
  · rw [withoutProcess, Function.update_of_ne hpz] at hc
    exact ⟨hpz, hc⟩

/-- Freeing a process takes it off the list of its parent, and forgets its own list. -/
theorem Kids.free (h : Kids s l) {z : Nat} (hfree : procFree s z = .ok s') :
    Kids s' (withoutProcess l z) ∧ ∀ c, c ≠ z → s'.parent c = s.parent c := by
  have hslot : ∀ {c}, c ≠ z → (s'.procs c).slotInuse = (s.procs c).slotInuse := fun hc =>
    procFree_other hfree hc (k := .slot) (by decide)
  have hgone : (s'.procs z).slotInuse = false := by
    obtain ⟨pr, hself⟩ := procFree_self hfree
    rw [hself]
    rfl
  have hne : ∀ {c}, (s'.procs c).slotInuse = true → c ≠ z := by
    intro c hc heq
    rw [heq, hgone] at hc
    cases hc
  have hpools := (procFree_modifies hfree).pools.procs
  obtain ⟨s₁, mm, hunlink, -, rfl⟩ := procFree_cases hfree
  obtain ⟨hlists, hparent⟩ := unlinkChild_lists h hunlink
  have hparent' : ∀ c, c ≠ z → ((s₁.withMm mm).modProc z Process.freed).parent c = s.parent c := by
    intro c hc
    rw [← hparent]
    exact congrArg Process.parent (State.procs_modProc_of_ne _ hc)
  refine ⟨⟨?_, fun p c hc => ?_, fun p hp => ?_, fun p hp => ?_⟩, hparent'⟩
  · have hnext : ((s₁.withMm mm).modProc z Process.freed).nextSibling =
        Function.update s₁.nextSibling z none := proj_modProc (s₁.withMm mm) z Process.nextSibling _
    have hfirst : ((s₁.withMm mm).modProc z Process.freed).firstChild =
        Function.update s₁.firstChild z none := proj_modProc (s₁.withMm mm) z Process.firstChild _
    rw [hnext, hfirst]
    refine (hlists.clear z).setNext (fun p hp => ?_) none
    exact h.lists.not_mem_erase z p (mem_withoutProcess hp).2
  · obtain ⟨hpz, hc⟩ := mem_withoutProcess hc
    have hcz : c ≠ z := fun heq => h.lists.not_mem_erase z p (heq ▸ hc)
    obtain ⟨hcuse, hcp, hpuse⟩ := h.mem p c (List.mem_of_mem_erase hc)
    exact ⟨(hslot hcz).trans hcuse, (hparent' c hcz).trans hcp, (hslot hpz).trans hpuse⟩
  · rw [hpools]
    exact h.lt p (hslot (hne hp) ▸ hp)
  · rw [hparent' p (hne hp)]
    exact h.irrefl p (hslot (hne hp) ▸ hp)

end Free

/-! ## The tree -/

/-- Every process also stands on the list of its parent. -/
structure Tree (s : State) (l : Nat → List Nat) : Prop extends Kids s l where
  linked : ∀ c p, (s.procs c).slotInuse = true → s.parent c = some p →
    (s.procs p).slotInuse = true ∧ c ∈ l p

namespace Tree

variable {s s' : State} {l : Nat → List Nat}

theorem frame (h : Tree s l) {parts : List Part} (hm : Modifies parts s s') (htree : .tree ∉ parts)
    (hslot : .slot ∉ parts) : Tree s' l := by
  refine ⟨h.toKids.frame hm htree hslot, fun c p hc hp => ?_⟩
  rw [hm.slot hslot] at hc ⊢
  rw [State.parent, hm.parent htree] at hp
  exact h.linked c p hc hp

theorem alloc (h : Tree s l) {parent r : Option Nat} {context : ProcessContext}
    (hparent : ∀ q, parent = some q → (s.procs q).slotInuse = true)
    (halloc : procAlloc s parent context = .ok (r, s')) : Tree s' (withChild l parent r) := by
  obtain ⟨-, hold, hnew⟩ := procAlloc_lists h.toKids halloc
  refine ⟨h.toKids.alloc hparent halloc, fun c p hc hp => ?_⟩
  have hmem : c ∈ l p → c ∈ withChild l parent r p := by
    intro hc
    unfold withChild
    split
    · rename_i d q
      by_cases hpq : p = q
      · subst hpq
        rw [Function.update_self]
        exact List.mem_append_left _ hc
      · rwa [Function.update_of_ne hpq]
    · exact hc
  by_cases hslot : allocProcessSlot s = some c
  · -- the new process has just been linked
    obtain ⟨hsome, hr, -⟩ := procAlloc_slot halloc hslot
    rw [hsome] at hc
    obtain hr | hr := hr
    · simp [hr] at hc
    subst hr
    rw [hnew c rfl] at hp
    subst hp
    refine ⟨(procAlloc_slots halloc (hparent p rfl)).1, ?_⟩
    simp [withChild]
  · have hsame : (s'.procs c).slotInuse = (s.procs c).slotInuse :=
      procAlloc_other halloc hslot (k := .slot) (by decide)
    rw [hsame] at hc
    rw [hold c hc] at hp
    obtain ⟨hpuse, hcl⟩ := h.linked c p hc hp
    exact ⟨(procAlloc_slots halloc hpuse).1, hmem hcl⟩

/-- A process without children can go. -/
theorem free (h : Tree s l) {z : Nat} (hz : s.firstChild z = none)
    (hfree : procFree s z = .ok s') : Tree s' (withoutProcess l z) := by
  obtain ⟨hkids, hparent⟩ := h.toKids.free hfree
  refine ⟨hkids, fun c p hc hp => ?_⟩
  have hcz : c ≠ z := by
    intro heq
    obtain ⟨pr, hself⟩ := procFree_self hfree
    rw [heq, hself] at hc
    cases hc
  have hcuse : (s'.procs c).slotInuse = (s.procs c).slotInuse :=
    procFree_other hfree hcz (k := .slot) (by decide)
  rw [hcuse] at hc
  rw [hparent c hcz] at hp
  obtain ⟨hpuse, hcl⟩ := h.linked c p hc hp
  have hpz : p ≠ z := by
    intro heq
    rw [heq, h.lists.head_eq_none.mp hz] at hcl
    cases hcl
  have hpuse' : (s'.procs p).slotInuse = (s.procs p).slotInuse :=
    procFree_other hfree hpz (k := .slot) (by decide)
  refine ⟨hpuse'.trans hpuse, ?_⟩
  rw [withoutProcess, Function.update_of_ne hpz]
  exact (List.mem_erase_of_ne hcz).mpr hcl

end Tree

/-- The tree as its links show it: a process in use stands on the list of its parent exactly once,
the parent is in use, and what stands on the list of a process in use is in use and has that process
as its parent. -/
structure TreeConsistent (s : State) : Prop where
  parent : ∀ c p, (s.procs c).slotInuse = true → s.parent c = some p →
    (s.procs p).slotInuse = true ∧
      ∃ l, Chain s.nextSibling (s.firstChild p) l ∧ l.count c = 1
  child : ∀ p, (s.procs p).slotInuse = true → ∃ l, Chain s.nextSibling (s.firstChild p) l ∧
    l.Nodup ∧ ∀ c ∈ l, (s.procs c).slotInuse = true ∧ s.parent c = some p

section Consistent

variable {s s' : State} {l : Nat → List Nat}

theorem Tree.consistent (h : Tree s l) : TreeConsistent s := by
  refine ⟨fun c p hc hp => ?_, fun p _ => ?_⟩
  · obtain ⟨hpuse, hmem⟩ := h.linked c p hc hp
    exact ⟨hpuse, l p, h.lists.chain p,
      List.count_eq_one_of_mem (h.lists.chain p).nodup hmem⟩
  · refine ⟨l p, h.lists.chain p, (h.lists.chain p).nodup, fun c hc => ?_⟩
    obtain ⟨hcuse, hcp, -⟩ := h.mem p c hc
    exact ⟨hcuse, hcp⟩

/-- Reaping a process keeps the tree exactly if the process has no children. -/
theorem procReapChild_tree (hbase : Base s) (h : Tree s l) {parent z : Nat}
    (hreap : procReapChild s parent z = .ok (.success, s')) :
    (s.firstChild z = none → ∃ l', Tree s' l') ∧
      (TreeConsistent s' → s.firstChild z = none) := by
  obtain ⟨s₁, hreaped, -, -, -, hfree, -⟩ := hbase.reapChild hreap
  have hs₁ : Tree s₁ l ∧ s₁.firstChild z = s.firstChild z := by
    refine hreaped.invariant (I := fun u => Tree u l ∧ u.firstChild z = s.firstChild z)
      (fun u t u₁ _ _ hone hu => ?_) ⟨h, rfl⟩
    have hm := threadReap_modifies hone
    exact ⟨hu.1.frame hm (by decide) (by decide), (hm.firstChild (by decide) z).trans hu.2⟩
  obtain ⟨htree, hsame⟩ := hs₁
  refine ⟨fun hnone => ⟨_, htree.free (hsame.trans hnone) hfree⟩, fun hconsistent => ?_⟩
  by_contra hsome
  obtain ⟨c, hc⟩ := Option.ne_none_iff_exists'.mp hsome
  have hmem : c ∈ l z := by
    have hchain := h.lists.chain z
    rw [hc] at hchain
    obtain ⟨l', hl⟩ := hchain.exists_cons
    simp [hl]
  obtain ⟨hcuse, hcz, -⟩ := htree.mem z c hmem
  have hne : c ≠ z := by
    intro heq
    subst heq
    exact htree.irrefl c hcuse hcz
  -- the child stays in use, and its parent is gone
  have hcuse' : (s'.procs c).slotInuse = (s₁.procs c).slotInuse :=
    procFree_other hfree hne (k := .slot) (by decide)
  obtain ⟨hzuse, -⟩ := hconsistent.parent c z (hcuse'.trans hcuse)
    (((htree.toKids.free hfree).2 c hne).trans hcz)
  obtain ⟨pr, hself⟩ := procFree_self hfree
  rw [hself] at hzuse
  cases hzuse

end Consistent

/-! ## Runs -/

theorem kids_kept : Kept fun s => ∃ l, Kids s l where
  frame := fun hm ⟨l, hl⟩ => ⟨l, hl.frame hm (by decide) (by decide)⟩
  alloc := fun _ hparent ⟨_, hl⟩ halloc => ⟨_, hl.alloc hparent halloc⟩
  add := fun _ _ _ ⟨l, hl⟩ hadd =>
    ⟨l, hl.frame (schedAddThread_modifies hadd) (by decide) (by decide)⟩
  reap := fun _ _ _ ⟨l, hl⟩ hreap =>
    ⟨l, hl.frame (threadReap_modifies hreap) (by decide) (by decide)⟩
  free := fun _ _ ⟨_, hl⟩ hfree => ⟨_, (hl.free hfree).1⟩

section Runs

variable {s s' : State}

theorem step_kids {op : Op} (hbase : Base s) (h : ∃ l, Kids s l)
    (hstep : Guarded Step Proper s op s') : ∃ l, Kids s' l := by
  obtain ⟨hproper, hstep⟩ := hstep
  have hkept := kids_kept
  cases op with
  | procAlloc parent context =>
      obtain ⟨⟨r, s₁⟩, halloc, hs'⟩ := bind_eq_ok.mp hstep
      exact Except.ok.inj hs' ▸ hkept.alloc hbase.live (fun q hq => hproper.2.2.1 q hq) h halloc
  | reapChild parent child =>
      obtain rfl | ⟨-, hreap⟩ := step_reapChild hstep
      · exact h
      · exact hkept.reapChild hbase h hreap
  | waitpid parent filter =>
      obtain rfl | ⟨z, -, hreap⟩ | ⟨s₁, -, hblock, rfl⟩ := step_waitpid hstep
      · exact h
      · exact hkept.reapChild hbase h hreap
      · obtain ⟨l, hl⟩ := h
        exact ⟨l, hl.frame ((schedBlockCurrentLocked_modifies hblock).trans
          schedThreadYield_modifies) (by decide) (by decide)⟩
  | fork tf => exact hkept.fork hbase h (hproper.1 rfl) hstep
  | _ =>
      obtain ⟨l, hl⟩ := h
      exact ⟨l, hl.frame (step_modifies hstep) (by simp only [Op.parts]; decide)
        (by simp only [Op.parts]; decide)⟩

/-- A fork keeps the tree: the process that a failed fork takes back has no children. -/
theorem fork_tree (hbase : Base s) (h : ∃ l, Tree s l) (hactive : s.Active) {tf : TrapFrame}
    (hstep : Step s (.fork tf) s') : ∃ l, Tree s' l := by
  obtain ⟨l, hl⟩ := h
  obtain ⟨parent, r, s₁, hslot, -, halloc, -, hrest⟩ := hbase.fork hactive hstep
  have hl₁ := hl.alloc (by simpa using hslot) halloc
  obtain ⟨-, rfl⟩ | ⟨c, entry, t, s₂, s₃, rfl, hadd, -, -, hm, -, hrest⟩ := hrest
  · exact ⟨_, hl₁⟩
  have hm₃ := (schedAddThread_modifies hadd).trans hm
  obtain ⟨-, rfl⟩ | ⟨s₄, hdrop, -, -, hfree⟩ := hrest
  · exact ⟨_, hl₁.frame hm₃ (by decide) (by decide)⟩
  have hm₄ : Modifies (addThreadParts ++ [.files, .mm, .io, .stack] ++ threadReapParts) s₁ s₄ := by
    cases t with
    | none => exact hm₃.trans (Except.ok.inj hdrop ▸ Modifies.refl _ _)
    | some t => exact hm₃.trans (threadReap_modifies hdrop)
  have hnone : s₄.firstChild c = none := by
    obtain ⟨hnew, hfree, -⟩ := procAlloc_new halloc
    have hnil : withChild l (some parent) (some c) c = [] := by
      have hne : c ≠ parent := by
        intro heq
        rw [← heq, hfree] at hslot
        cases hslot
      rw [withChild, Function.update_of_ne hne]
      exact hl.toKids.eq_nil hfree
    rw [State.firstChild, hm₄.firstChild (by decide)]
    exact hl₁.lists.head_eq_none.mpr hnil
  exact ⟨_, (hl₁.frame hm₄ (by decide) (by decide)).free hnone hfree⟩

theorem step_tree {op : Op} (hbase : Base s) (h : ∃ l, Tree s l)
    (hreaps : ∀ z, Reaps s op z → s.firstChild z = none)
    (hstep : Guarded Step Proper s op s') : ∃ l, Tree s' l := by
  obtain ⟨hproper, hstep⟩ := hstep
  obtain ⟨l, hl⟩ := h
  cases op with
  | procAlloc parent context =>
      obtain ⟨⟨r, s₁⟩, halloc, hs'⟩ := bind_eq_ok.mp hstep
      exact ⟨_, Except.ok.inj hs' ▸ hl.alloc (fun q hq => hproper.2.2.1 q hq) halloc⟩
  | reapChild parent child =>
      obtain rfl | ⟨hz, hreap⟩ := step_reapChild hstep
      · exact ⟨l, hl⟩
      · exact (procReapChild_tree hbase hl hreap).1 (hreaps child hz)
  | waitpid parent filter =>
      obtain rfl | ⟨z, hz, hreap⟩ | ⟨s₁, -, hblock, rfl⟩ := step_waitpid hstep
      · exact ⟨l, hl⟩
      · exact (procReapChild_tree hbase hl hreap).1 (hreaps z hz)
      · exact ⟨l, hl.frame ((schedBlockCurrentLocked_modifies hblock).trans
          schedThreadYield_modifies) (by decide) (by decide)⟩
  | fork tf => exact fork_tree hbase ⟨l, hl⟩ (hproper.1 rfl) hstep
  | _ =>
      exact ⟨l, hl.frame (step_modifies hstep) (by simp only [Op.parts]; decide)
        (by simp only [Op.parts]; decide)⟩

/-- At the start there is one process, without a parent. -/
theorem schedInit_tree {kib : Nat} {idle : BitVec 32} (hzero : Zeroed s)
    (h : schedInit s kib idle = .ok s') : ∃ l, Tree s' l := by
  obtain ⟨s₁, p, s₂, r, hblank, halloc, hadd⟩ := schedInit_cases h
  have hprocs : ∀ p, s₁.procs p = .zero := fun p => hblank.procs ▸ hzero.procs p
  have hfree : ∀ p, (s₁.procs p).slotInuse ≠ true := fun p => by
    rw [hprocs]
    simp [Process.zero]
  have htree : Tree s₁ fun _ => [] := by
    refine ⟨⟨.empty _ fun p => ?_, by simp, fun p hp => absurd hp (hfree p),
      fun p hp => absurd hp (hfree p)⟩, fun c p hc => absurd hc (hfree c)⟩
    rw [State.firstChild, hprocs]
    rfl
  exact ⟨_, (htree.alloc (by simp) halloc).frame (schedAddThread_modifies hadd) (by decide)
    (by decide)⟩

/-- The process tree is consistent in runs where no process is reaped that still has children. A
reap that does not meet the condition leaves a child with a parent that is gone. -/
theorem run_tree {s₀ s₁ s : State} {kib : Nat} {idle : BitVec 32} {ops : List Op}
    (hzero : Zeroed s₀) (hinit : schedInit s₀ kib idle = .ok s₁)
    (hrun : Run (Guarded Step fun s op => Proper s op ∧ ∀ z, Reaps s op z → s.firstChild z = none)
      s₁ ops s) :
    TreeConsistent s ∧ ∀ parent z s', procReapChild s parent z = .ok (.success, s') →
      (TreeConsistent s' ↔ s.firstChild z = none) := by
  have hinv : Base s ∧ ∃ l, Tree s l := hrun.invariant (I := fun s => Base s ∧ ∃ l, Tree s l)
    (fun _ _ _ h hstep => ⟨step_base h.1 ⟨hstep.1.1, hstep.2⟩,
      step_tree h.1 h.2 hstep.1.2 ⟨hstep.1.1, hstep.2⟩⟩)
    ⟨schedInit_base hzero hinit, schedInit_tree hzero hinit⟩
  obtain ⟨hbase, l, hl⟩ := hinv
  refine ⟨hl.consistent, fun parent z s' hreap => ?_⟩
  obtain ⟨hkeep, hneeds⟩ := procReapChild_tree hbase hl hreap
  refine ⟨hneeds, fun hnone => ?_⟩
  obtain ⟨l', hl'⟩ := hkeep hnone
  exact hl'.consistent

theorem run_tree_child : ∃ s₁ s s', schedInit bootState 32768 0xC0002000 = .ok s₁ ∧
    Run (Guarded Step fun s op => Proper s op ∧ ∀ z, Reaps s op z → s.firstChild z = none)
      s₁ childExits s ∧
    procReapChild s 0 1 = .ok (.success, s') ∧ (TreeConsistent s' ↔ s.firstChild 1 = none) := by
  obtain ⟨s₁, hinit, htest⟩ := exists_of_okAnd (e := schedInit bootState 32768 0xC0002000)
    (p := fun s₁ => (execGuarded Op.exec Proper s₁ childExits).any fun s : State =>
      okAnd (procReapChild s 0 1) fun r => r.1 == .success)
    (by decide +kernel)
  obtain ⟨s, hall, htest⟩ := (Option.any_eq_true _ _).mp htest
  obtain ⟨⟨r, s'⟩, hreap, htest⟩ := exists_of_okAnd htest
  have hr : r = .success := by simpa using htest
  subst hr
  have hrun : Run (Guarded Step fun s op => Proper s op ∧ ∀ z, Reaps s op z → s.firstChild z = none)
      s₁ childExits s :=
    (run_of_execGuarded hall).imp (by simp +contextual [childExits, Reaps])
  exact ⟨s₁, s, s', hinit, hrun, hreap, (run_tree zeroed_bootState hinit hrun).2 0 1 s' hreap⟩

/-- A child of the idle process has a child of its own, and exits. When it is reaped, its child is
left with a parent that is no longer in use. -/
theorem orphan_keeps_parent : ∃ s₁ s s', schedInit bootState 32768 0xC0002000 = .ok s₁ ∧
    Run (Guarded Step Proper) s₁ [.procAlloc (some 0) .kernel, .procAlloc (some 1) .kernel,
      .addThread 0xC0003000 (some 1), .switch 0, .switch 4096, .exit 7] s ∧
    procReapChild s 0 1 = .ok (.success, s') ∧ (s'.procs 2).slotInuse = true ∧
    s'.parent 2 = some 1 ∧ (s'.procs 1).slotInuse = false := by
  obtain ⟨s₁, hinit, htest⟩ := exists_of_okAnd (e := schedInit bootState 32768 0xC0002000)
    (p := fun s₁ => (execGuarded Op.exec Proper s₁ [.procAlloc (some 0) .kernel,
      .procAlloc (some 1) .kernel, .addThread 0xC0003000 (some 1), .switch 0, .switch 4096,
      .exit 7]).any fun s : State => okAnd (procReapChild s 0 1) fun r =>
        r.1 == .success && (r.2.procs 2).slotInuse && decide (r.2.parent 2 = some 1) &&
          !(r.2.procs 1).slotInuse)
    (by decide +kernel)
  obtain ⟨s, hall, htest⟩ := (Option.any_eq_true _ _).mp htest
  obtain ⟨⟨r, s'⟩, hreap, htest⟩ := exists_of_okAnd htest
  simp only [Bool.and_eq_true, beq_iff_eq, Bool.not_eq_true', decide_eq_true_eq] at htest
  obtain ⟨⟨⟨rfl, hinuse⟩, hparent⟩, hgone⟩ := htest
  exact ⟨s₁, s, s', hinit, run_of_execGuarded hall, hreap, hinuse, hparent, hgone⟩

end Runs

end Unidos.Sched
