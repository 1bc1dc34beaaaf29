import Mathlib.Data.Set.Card
import Unidos.Io.Refs
import Unidos.Sched.Processes
import Unidos.Sched.Runs
import Unidos.Sched.Traps

/-!
# Descriptors of the processes

Each process has a list of descriptor entries. `FdInv s l` says that these lists hold all entries in
use, that the reference counters are right, and that processes that have ended have no entries.
Every operation of the scheduler keeps this, and so no reference counter ever runs below zero
(`run_refs`).
-/

namespace Unidos.Sched

open Lib

/-- The first entries of the descriptor lists. -/
def State.fdHeads (s : State) (p : Nat) : Option Nat := (s.procs p).fdList

/-- The lists of entries of the processes. -/
structure FdInv (s : State) (l : Nat → List Nat) : Prop where
  refs : Io.Refs s.io s.fdHeads l []
  ended : ∀ p, (s.procs p).slotInuse = false ∨ (s.procs p).state = .zombie → s.fdHeads p = none

section Functions

variable {s s' : State} {l : Nat → List Nat} {loose : List Nat}

theorem refs_frame (h : Io.Refs s.io s.fdHeads l loose) {parts : List Part}
    (hm : Modifies parts s s') (hfiles : .files ∉ parts) (hio : .io ∉ parts) :
    Io.Refs s'.io s'.fdHeads l loose := by
  have hheads : s'.fdHeads = s.fdHeads := funext fun p => hm.fdList hfiles p
  have heq : { s'.io with mm := s.io.mm } = s.io := hm.global .io hio
  have hio' : s'.io = { s.io with mm := s'.io.mm } := by rw [← heq]
  rw [hheads, hio']
  exact h.anyMm _

namespace FdInv

theorem frame (h : FdInv s l) {parts : List Part} (hm : Modifies parts s s')
    (hfiles : .files ∉ parts) (hio : .io ∉ parts) (hslot : .slot ∉ parts)
    (hphase : .phase ∉ parts) : FdInv s' l := by
  refine ⟨refs_frame h.refs hm hfiles hio, fun p hp => ?_⟩
  rw [hm.slot hslot, hm.phase hphase] at hp
  exact (hm.fdList hfiles p).trans (h.ended p hp)

/-! ### Processes -/

/-- Reserving a slot for a new process leaves the lists as they are. -/
theorem reserve (h : FdInv s l) {p : Nat} (hp : allocProcessSlot s = some p) (parent : Option Nat)
    (context : ProcessContext) :
    (s.reserved parent context p).fdHeads = s.fdHeads ∧
      Io.Refs (s.reserved parent context p).io (s.reserved parent context p).fdHeads l [] := by
  have hheads : (s.reserved parent context p).fdHeads = s.fdHeads := by
    funext q
    by_cases hq : q = p
    · subst hq
      rw [h.ended q (.inl (allocProcessSlot_some hp).2)]
      show ((s.reserved parent context q).procs q).fdList = none
      unfold State.reserved
      rw [State.procs_modProc_self]
      rfl
    · exact congrArg Process.fdList (State.procs_modProc_of_ne _ hq)
  exact ⟨hheads, hheads ▸ h.refs⟩

/-- The lists are the same when `proc_alloc` comes to the descriptors. -/
theorem beforeStdio (h : FdInv s l) {p : Nat} {parent space : Option Nat}
    {context : ProcessContext} {ok : Bool} {s₁ : State} (hp : allocProcessSlot s = some p)
    (hspace : procAddrSpace (s.reserved parent context p) parent context = .ok (ok, space, s₁)) :
    Io.Refs (s₁.setAddrSpace p space).io (s₁.setAddrSpace p space).fdHeads l [] ∧
      (s₁.setAddrSpace p space).fdHeads = s.fdHeads := by
  obtain ⟨hheads, hrefs⟩ := h.reserve hp parent context
  have hm := (procAddrSpace_modifies hspace).trans (modifies_addrSpace s₁ p space)
  exact ⟨refs_frame hrefs hm (by decide) (by decide),
    (funext fun q => hm.fdList (by decide) q).trans hheads⟩

/-- The lists after `proc_alloc`: only a root process gets entries. -/
theorem alloc (h : FdInv s l) {parent r : Option Nat} {context : ProcessContext}
    (halloc : procAlloc s parent context = .ok (r, s')) :
    ∃ l', FdInv s' l' ∧ (parent ≠ none → l' = l ∧ s'.fdHeads = s.fdHeads) := by
  obtain ⟨-, -, rfl⟩ | ⟨p, ok, space, s₁, hp, hspace, hrest⟩ := procAlloc_cases halloc
  · exact ⟨l, h, fun _ => ⟨rfl, rfl⟩⟩
  obtain ⟨hrefs₁, hheads₁⟩ := h.beforeStdio hp hspace
  have hpfree := h.ended p (.inl (allocProcessSlot_some hp).2)
  have hother : ∀ q, q ≠ p → ((s'.procs q).slotInuse = false ∨ (s'.procs q).state = .zombie) →
      s'.fdHeads q = none := by
    intro q hq hend
    have hne : allocProcessSlot s ≠ some q := by
      rw [hp, ne_eq, Option.some.injEq]
      exact hq.symm
    have hslot : (s'.procs q).slotInuse = (s.procs q).slotInuse :=
      procAlloc_other halloc hne (k := .slot) (by decide)
    have hphase : (s'.procs q).state = (s.procs q).state :=
      (procAlloc_other halloc hne (k := .phase) (by decide)).1
    rw [hslot, hphase] at hend
    exact ((procAlloc_other halloc hne (k := .files) (by decide)).1).trans (h.ended q hend)
  obtain ⟨-, rfl, rfl⟩ | ⟨-, rfl, s₂, hlink, hstdio⟩ := hrest
  · have hlast : Modifies [.slot] (s₁.setAddrSpace p space)
        ((s₁.setAddrSpace p space).modProc p fun pr => { pr with slotInuse := false }) :=
      .modProc fun k hk => by cases k <;> simp_all [SameProcess]
    have hheads' := funext fun q => hlast.fdList (by decide) q
    refine ⟨l, ⟨refs_frame hrefs₁ hlast (by decide) (by decide), fun q hend => ?_⟩,
      fun _ => ⟨rfl, hheads'.trans hheads₁⟩⟩
    by_cases hq : q = p
    · rw [hq]
      exact (hlast.fdList (by decide) p).trans ((congrFun hheads₁ p).trans hpfree)
    · exact hother q hq hend
  · have hrefs₂ := refs_frame hrefs₁ (linkChild_modifies hlink) (by decide) (by decide)
    have hheads₂ : s₂.fdHeads = s.fdHeads :=
      (funext fun q => (linkChild_modifies hlink).fdList (by decide) q).trans hheads₁
    obtain ⟨-, -, hinuse, halive⟩ := procAlloc_new halloc
    have hended : ∀ q, ((s'.procs q).slotInuse = false ∨ (s'.procs q).state = .zombie) →
        s'.fdHeads q = none := by
      intro q hend
      by_cases hq : q = p
      · simp [hq, hinuse, halive] at hend
      · exact hother q hq hend
    unfold procStdio at hstdio
    split at hstdio
    · rename_i hroot
      obtain ⟨head, n, io, new, hboot, hnew, hchain, -, -⟩ := Io.stdioBootstrap_spec hrefs₂
      rw [hboot] at hstdio
      have hs' : s' = { s₂ with io := io }.modProc p fun pr =>
          { pr with fdList := head, fdCount := n } := (Except.ok.inj hstdio).symm
      have hheads' : s'.fdHeads = Function.update s₂.fdHeads p head := by
        rw [hs']
        exact proj_modProc _ p Process.fdList _
      have hfinal := hnew.link hchain (by rw [hheads₂]; exact hpfree : s₂.fdHeads p = none)
      refine ⟨Function.update l p new, ⟨?_, hended⟩, fun hparent => absurd hroot.2 hparent⟩
      rw [hheads', hs']
      exact hfinal
    · rw [← Except.ok.inj hstdio] at hended ⊢
      exact ⟨l, ⟨hrefs₂, hended⟩, fun _ => ⟨rfl, hheads₂⟩⟩

/-- A process without entries is freed. -/
theorem free (h : FdInv s l) {p : Nat} (hp : s.fdHeads p = none) (hfree : procFree s p = .ok s') :
    FdInv s' l := by
  have hm := procFree_modifies hfree
  refine ⟨refs_frame h.refs hm (by decide) (by decide), fun q hend => ?_⟩
  have hfiles : s'.fdHeads q = s.fdHeads q := hm.fdList (by decide) q
  rw [hfiles]
  by_cases hq : q = p
  · rw [hq, hp]
  · have hslot : (s'.procs q).slotInuse = (s.procs q).slotInuse :=
      procFree_other hfree hq (k := .slot) (by decide)
    have hphase : (s'.procs q).state = (s.procs q).state :=
      (procFree_other hfree hq (k := .phase) (by decide)).1
    rw [hslot, hphase] at hend
    exact h.ended q hend

/-- The entries of a process that has ended are dropped. -/
theorem cleanup {p : Nat} (h : Io.Refs s.io s.fdHeads l []) :
    ∃ io, Io.dropFds Io.poolSlots (s.procs p).fdList s.io = .ok io ∧
      Io.Refs io (Function.update s.fdHeads p none) (Function.update l p []) [] := by
  have hdrop := h.unlink p
  obtain ⟨io, hret, hrefs, -, -⟩ :=
    Io.dropFds_spec hdrop (h.lists.chain p) (h.length_le p)
  exact ⟨io, hret, hrefs⟩

theorem reapChild (h : FdInv s l) {parent child : Nat} {r : ReapResult}
    (hreap : procReapChild s parent child = .ok (r, s')) : FdInv s' l := by
  obtain ⟨-, rfl, -⟩ | ⟨-, -, hzombie, s₁, hthreads, hfree⟩ := procReapChild_cases hreap
  · exact h
  have hm := reapThreads_modifies hthreads
  refine (h.frame hm (by decide) (by decide) (by decide) (by decide)).free ?_ hfree
  exact (hm.fdList (by decide) child).trans (h.ended child (.inr hzombie))

/-- The lists after `sched_thread_exit`. -/
theorem exit (h : FdInv s l) {code : BitVec 32} (hexit : schedThreadExit s code = .ok s') :
    ∃ l', FdInv s' l' := by
  obtain ⟨-, rfl⟩ | ⟨c, p, -, -, ⟨-, s₁, s₂, hwake, hfds, rfl⟩ | ⟨-, s₁, hunlink, rfl⟩⟩ :=
    schedThreadExit_cases hexit
  · exact ⟨l, h⟩
  · have hm : Modifies _ s s₁ := ((exiting_modifies c p code).trans (ended_modifies p code)).trans
      (wakeParentWaiter_modifies hwake)
    have hrefs₁ := refs_frame h.refs hm (by decide) (by decide)
    obtain ⟨io, hdrop, hrefs⟩ := cleanup (p := p) hrefs₁
    unfold schedProcCleanupFds at hfds
    rw [hdrop] at hfds
    have hs₂ : s₂ = { s₁ with io := io }.modProc p fun pr =>
        { pr with fdList := none, fdCount := 0 } := (Except.ok.inj hfds).symm
    have hheads : s₂.fdHeads = Function.update s₁.fdHeads p none := by
      rw [hs₂]
      exact proj_modProc _ p Process.fdList _
    refine ⟨_, FdInv.frame (s := s₂) (l := Function.update l p []) ⟨?_, fun q hend => ?_⟩
      schedThreadYield_modifies (by decide) (by decide) (by decide) (by decide)⟩
    · rw [hheads, hs₂]
      exact hrefs
    · rw [hheads]
      by_cases hq : q = p
      · rw [hq, Function.update_self]
      rw [Function.update_of_ne hq]
      have hsame : s₂.procs q = s₁.procs q := by
        rw [hs₂]
        exact State.procs_modProc_of_ne _ hq
      have hended : ((s.exiting c p code).ended p code).procs q =
          (s.exiting c p code).procs q := State.procs_modProc_of_ne _ hq
      have hwoken := wakeParentWaiter_modifies hwake
      have hexiting := exiting_modifies (s := s) c p code
      rw [hsame, hwoken.slot (by decide), hwoken.phase (by decide), hended,
        hexiting.slot (by decide), hexiting.phase (by decide)] at hend
      exact (hm.fdList (by decide) q).trans (h.ended q hend)
  · exact ⟨l, h.frame (((exiting_modifies c p code).trans (unlinkExited_modifies hunlink)).trans
      schedThreadYield_modifies) (by decide) (by decide) (by decide) (by decide)⟩

theorem fdHeads_inheritFds (s : State) (io : Io.State) (parent child : Nat)
    (fdList : Option Nat) :
    ({ s with io := io }.inheritFds parent child fdList).fdHeads =
      Function.update s.fdHeads child fdList := by
  funext q
  show ((State.inheritFds { s with io := io } parent child fdList).procs q).fdList = _
  unfold State.inheritFds
  by_cases hq : q = child
  · rw [hq, State.procs_modProc_self, State.procs_modProc_self, Function.update_self]
  · rw [State.procs_modProc_of_ne _ hq, State.procs_modProc_of_ne _ hq, Function.update_of_ne hq]
    rfl

/-- The lists after `sched_clone_fork` for a new process. If it fails, they are as before. -/
theorem cloneFork (h : FdInv s l) {parent child : Nat} {tf tf' : TrapFrame} {ok : Bool}
    (hchild : s.fdHeads child = none) (hinuse : (s.procs child).slotInuse = true)
    (halive : (s.procs child).state = .alive)
    (hclone : schedCloneFork s parent child tf = .ok (ok, tf', s')) :
    ∃ l', FdInv s' l' ∧ (ok = false → l' = l ∧ s'.fdHeads = s.fdHeads) := by
  obtain ⟨-, -, -, rfl⟩ | ⟨c, thread, s₁, -, hadd, ⟨-, -, -, rfl⟩ | ⟨t, fdList, io, -, hcopy,
    hrest⟩⟩ := schedCloneFork_cases hclone
  · exact ⟨l, h, fun _ => ⟨rfl, rfl⟩⟩
  · have hm := schedAddThread_modifies hadd
    exact ⟨l, h.frame hm (by decide) (by decide) (by decide) (by decide),
      fun _ => ⟨rfl, funext fun q => hm.fdList (by decide) q⟩⟩
  · have hm := schedAddThread_modifies hadd
    have h₁ := h.frame hm (by decide) (by decide) (by decide) (by decide)
    have hheads₁ : s₁.fdHeads = s.fdHeads := funext fun q => hm.fdList (by decide) q
    obtain ⟨r, io', copy, hcopy', hrefs, hchain, -, -⟩ := Io.fdeForkCopy_spec h₁.refs parent
    have heq : (fdList, io) = (r, io') := Except.ok.inj (hcopy.symm.trans hcopy')
    simp only [Prod.mk.injEq] at heq
    obtain ⟨rfl, rfl⟩ := heq
    have hlinked := hrefs.link hchain ((congrFun hheads₁ child).trans hchild)
    dsimp only at hrest
    have hheads₂ := fdHeads_inheritFds s₁ io parent child fdList
    have h₂ : FdInv ({ s₁ with io := io }.inheritFds parent child fdList)
        (Function.update l child copy) := by
      refine ⟨hheads₂ ▸ hlinked, fun q hend => ?_⟩
      have hinherit := inheritFds_modifies (s := { s₁ with io := io }) parent child fdList
      rw [hinherit.slot (by decide), hinherit.phase (by decide)] at hend
      by_cases hq : q = child
      · rw [hq, hm.slot (by decide), hm.phase (by decide)] at hend
        simp [hinuse, halive] at hend
      · rw [hheads₂, Function.update_of_ne hq]
        exact h₁.ended q hend
    obtain ⟨hnone, -, hreap, rfl, -⟩ | ⟨-, rfl, rfl, -⟩ := hrest
    · -- nothing was copied
      have hfd : fdList = none := by
        have hself := congrFun hheads₂ child
        rw [Function.update_self] at hself
        exact hself.symm.trans hnone
      subst hfd
      have hcopied : copy = [] := hchain.unique (chain_nil.mpr rfl)
      have hfree : s₁.fdHeads child = none := (congrFun hheads₁ child).trans hchild
      have hlists : Function.update l child copy = l := by
        rw [hcopied, ← h₁.refs.lists.head_eq_none.mp hfree, Function.update_eq_self]
      have hheads : Function.update s₁.fdHeads child none = s.fdHeads := by
        rw [← hfree, Function.update_eq_self, hheads₁]
      have hm' := threadReap_modifies hreap
      refine ⟨_, h₂.frame hm' (by decide) (by decide) (by decide) (by decide),
        fun _ => ⟨hlists, ?_⟩⟩
      rw [← hheads, ← hheads₂]
      exact funext fun q => hm'.fdList (by decide) q
    · have hframe := modifies_withFrame ({ s₁ with io := io }.inheritFds parent child fdList) t
        { tf with eax := 0 }
      exact ⟨_, h₂.frame hframe (by decide) (by decide) (by decide) (by decide), by simp⟩

/-- The lists after `fork`. If it fails, they are as before. -/
theorem fork (h : FdInv s l) {tf tf' : TrapFrame} {r : Int}
    (hfork : fork s tf = .ok (r, tf', s')) :
    ∃ l', FdInv s' l' ∧ (r < 0 → l' = l ∧ s'.fdHeads = s.fdHeads) := by
  obtain ⟨-, -, -, rfl⟩ | ⟨parent, child, s₁, -, halloc, hrest⟩ := fork_cases hfork
  · exact ⟨l, h, fun _ => ⟨rfl, rfl⟩⟩
  obtain ⟨l₁, h₁, hsame⟩ := h.alloc halloc
  obtain ⟨rfl, hheads₁⟩ := hsame (by simp)
  obtain ⟨-, -, -, rfl⟩ | ⟨c, tf₁, s₂, rfl, hrest⟩ := hrest
  · exact ⟨l₁, h₁, fun _ => ⟨rfl, hheads₁⟩⟩
  obtain ⟨hslot, hunused, hinuse, halive⟩ := procAlloc_new halloc
  have hc : s₁.fdHeads c = none := (congrFun hheads₁ c).trans (h.ended c (.inl hunused))
  obtain ⟨hclone, hfree, -, -⟩ | ⟨hclone, rfl⟩ := hrest
  · obtain ⟨l₂, h₂, hsame⟩ := h₁.cloneFork hc hinuse halive hclone
    obtain ⟨rfl, hheads₂⟩ := hsame rfl
    refine ⟨l₂, h₂.free ((congrFun hheads₂ c).trans hc) hfree, fun _ => ⟨rfl, ?_⟩⟩
    rw [← hheads₁, ← hheads₂]
    exact funext fun q => (procFree_modifies hfree).fdList (by decide) q
  · obtain ⟨l₂, h₂, -⟩ := h₁.cloneFork hc hinuse halive hclone
    refine ⟨l₂, h₂, fun hneg => ?_⟩
    omega

end FdInv

/-! ## Steps -/

theorem step_fds {op : Op} (h : ∃ l, FdInv s l) (hstep : Step s op s') : ∃ l, FdInv s' l := by
  obtain ⟨l, h⟩ := h
  have hm := step_modifies hstep
  cases op with
  | console =>
      obtain ⟨io, hconsole, hs'⟩ := bind_eq_ok.mp hstep
      rw [← Except.ok.inj hs']
      obtain ⟨g, o, hadd⟩ := Io.consoleInit_cases hconsole
      exact ⟨l, h.refs.console_init hadd, h.ended⟩
  | procAlloc parent context =>
      obtain ⟨⟨r, s₁⟩, halloc, hs'⟩ := bind_eq_ok.mp hstep
      rw [← Except.ok.inj hs']
      obtain ⟨l', h', -⟩ := h.alloc halloc
      exact ⟨l', h'⟩
  | exit code => exact h.exit hstep
  | reapChild parent child =>
      obtain ⟨⟨r, s₁⟩, hreap, hs'⟩ := bind_eq_ok.mp hstep
      rw [← Except.ok.inj hs']
      exact ⟨l, h.reapChild hreap⟩
  | waitpid parent filter =>
      obtain rfl | ⟨z, -, hreap⟩ | ⟨s₁, -, hblock, rfl⟩ := step_waitpid hstep
      · exact ⟨l, h⟩
      · exact ⟨l, h.reapChild hreap⟩
      · exact ⟨l, h.frame ((schedBlockCurrentLocked_modifies hblock).trans
          schedThreadYield_modifies) (by decide) (by decide) (by decide) (by decide)⟩
  | fork tf =>
      obtain ⟨⟨r, tf', s₁⟩, hfork, hs'⟩ := bind_eq_ok.mp hstep
      rw [← Except.ok.inj hs']
      obtain ⟨l', h', -⟩ := h.fork hfork
      exact ⟨l', h'⟩
  | _ =>
      exact ⟨l, h.frame hm (by simp only [Op.parts]; decide) (by simp only [Op.parts]; decide)
        (by simp only [Op.parts]; decide) (by simp only [Op.parts]; decide)⟩

/-! ## No counter runs below zero -/

/-- Traps other than the panics of the reference counters. -/
def NoUnderflow (e : Trap) : Prop := ¬ e.Underflow

theorem noUnderflow_of_routine (e : Trap) (he : e.Routine) : NoUnderflow e := he.1

theorem procFree_noUnderflow (s : State) (p : Nat) : Raises NoUnderflow (procFree s p) :=
  procFree_raises noUnderflow_of_routine fun _ _ => Mm.mmDestroy_noUnderflow _ _

theorem procReapChild_noUnderflow (s : State) (parent child : Nat) :
    Raises NoUnderflow (procReapChild s parent child) :=
  procReapChild_raises noUnderflow_of_routine fun _ _ _ _ => procFree_noUnderflow _ _

theorem execve_noUnderflow (s : State) (image : Mm.InitialData) (tf : TrapFrame) :
    Raises NoUnderflow (execve s image tf) := by
  refine execve_raises noUnderflow_of_routine ?_ fun m mm p _ _ _ => ?_
  · refine ((Mm.mmCreate_routine _).mono noUnderflow_of_routine).bind fun r _ => ?_
    dsimp only
    split
    · exact raises_ok _
    have hmap := fun u mm va size type prot data =>
      (Mm.mmMapRegion_routine u mm va size type prot data).mono noUnderflow_of_routine
    refine (hmap _ _ _ _ _ _ _).bind fun r _ => ?_
    split
    · exact (Mm.mmDestroy_noUnderflow _ _).bind fun _ _ => raises_ok _
    refine (hmap _ _ _ _ _ _ _).bind fun r _ => ?_
    split
    · exact (Mm.mmDestroy_noUnderflow _ _).bind fun _ _ => raises_ok _
    · exact raises_ok _
  · exact (Mm.mmDestroy_noUnderflow _ _).bind fun _ _ => raises_ok _

namespace FdInv

theorem procAlloc_noUnderflow (h : FdInv s l) (parent : Option Nat) (context : ProcessContext) :
    Raises NoUnderflow (procAlloc s parent context) := by
  refine procAlloc_raises noUnderflow_of_routine (fun p hp _ => ?_)
    fun p ok space s₁ s₂ hp hspace hlink _ => ?_
  · unfold newSpace
    split
    · exact Mm.mmCloneUserEager_noUnderflow _ _
    · exact (Mm.mmCreate_routine _).mono noUnderflow_of_routine
  · have hrefs := refs_frame (h.beforeStdio hp hspace).1 (linkChild_modifies hlink) (by decide)
      (by decide)
    obtain ⟨head, n, io, new, hboot, -⟩ := Io.stdioBootstrap_spec hrefs
    rw [hboot]
    exact raises_ok _

theorem fork_noUnderflow (h : FdInv s l) (tf : TrapFrame) :
    Raises NoUnderflow (Sched.fork s tf) := by
  refine fork_raises (fun parent _ => h.procAlloc_noUnderflow _ _) (fun parent c s₁ _ halloc => ?_)
    fun _ _ _ _ _ _ _ _ => procFree_noUnderflow _ _
  obtain ⟨l₁, h₁, -⟩ := h.alloc halloc
  refine schedCloneFork_raises noUnderflow_of_routine fun entry t s₂ hadd => ?_
  have hrefs := refs_frame h₁.refs (schedAddThread_modifies hadd) (by decide) (by decide)
  obtain ⟨r, io, copy, hcopy, -⟩ := Io.fdeForkCopy_spec hrefs parent
  rw [show (s₂.procs parent).fdList = s₂.fdHeads parent from rfl, hcopy]
  exact raises_ok _

theorem exit_noUnderflow (h : FdInv s l) (code : BitVec 32) :
    Raises NoUnderflow (schedThreadExit s code) := by
  refine schedThreadExit_raises noUnderflow_of_routine fun c p s₁ _ _ hwake => ?_
  have hm : Modifies _ s s₁ := ((exiting_modifies c p code).trans (ended_modifies p code)).trans
    (wakeParentWaiter_modifies hwake)
  obtain ⟨io, hdrop, -⟩ := cleanup (p := p) (refs_frame h.refs hm (by decide) (by decide))
  rw [hdrop]
  exact raises_ok _

end FdInv

/-- No operation stops because a reference counter would run below zero. -/
theorem exec_noUnderflow (h : FdInv s l) (op : Op) : Raises NoUnderflow (op.exec s) := by
  have hroutine := noUnderflow_of_routine
  cases op with
  | console =>
      refine Raises.bind ?_ fun _ _ => raises_ok _
      unfold Io.consoleInit
      split
      · exact raises_error.mpr (by unfold NoUnderflow; decide)
      split
      · exact raises_error.mpr (by unfold NoUnderflow; decide)
      · exact raises_ok _
  | procAlloc parent context =>
      exact (h.procAlloc_noUnderflow parent context).bind fun _ _ => raises_ok _
  | addThread entry proc =>
      exact ((schedAddThread_routine s entry proc).mono hroutine).bind fun _ _ => raises_ok _
  | switch esp => exact ((schedDoSwitch_routine s esp).mono hroutine).bind fun _ _ => raises_ok _
  | yield => exact raises_ok _
  | tick => exact (incrementTicks_routine s).mono hroutine
  | wake t => exact (schedWakeThread_routine s t).mono hroutine
  | sleep n => exact (schedThreadSleep_routine s n).mono hroutine
  | block kind target =>
      exact ((schedBlockCurrentLocked_routine s kind target).mono hroutine).bind
        fun _ _ => raises_ok _
  | exit code => exact h.exit_noUnderflow code
  | reapThread t => exact (threadReap_routine s t).mono hroutine
  | reapChild parent child =>
      exact (procReapChild_noUnderflow s parent child).bind fun _ _ => raises_ok _
  | waitpid parent filter =>
      exact (procWaitpid_raises hroutine fun z _ => procReapChild_noUnderflow s parent z).bind
        fun _ _ => raises_ok _
  | fork tf => exact (h.fork_noUnderflow tf).bind fun _ _ => raises_ok _
  | execve image tf => exact (execve_noUnderflow s image tf).bind fun _ _ => raises_ok _

end Functions

/-! ## Runs -/

theorem schedInit_fds {s s' : State} {kib : Nat} {idle : BitVec 32} (hzero : Zeroed s)
    (hrefs : Io.Refs s.io (fun _ => none) (fun _ => []) []) (h : schedInit s kib idle = .ok s') :
    ∃ l, FdInv s' l := by
  obtain ⟨s₁, p, s₂, r, hblank, halloc, hadd⟩ := schedInit_cases h
  have hheads : s₁.fdHeads = fun _ => none := by
    funext q
    show (s₁.procs q).fdList = none
    rw [hblank.procs, hzero.procs]
    rfl
  have h₁ : FdInv s₁ fun _ => [] :=
    ⟨by rw [hheads, hblank.io]; exact hrefs, fun q _ => congrFun hheads q⟩
  obtain ⟨l, h₂, -⟩ := h₁.alloc halloc
  exact ⟨l, h₂.frame (schedAddThread_modifies hadd) (by decide) (by decide) (by decide)
    (by decide)⟩

/-- The entries of the processes in use that refer to open file `o`. -/
def State.holders (s : State) (l : Nat → List Nat) (o : Nat) : Set Nat :=
  {f | (∃ p, (s.procs p).slotInuse = true ∧ f ∈ l p) ∧ (s.io.fds f).of = some o}

/-- The open files in use that refer to target `g`. -/
def State.openers (s : State) (g : Nat) : Set Nat :=
  {o | s.io.fileUsed o = true ∧ (s.io.files o).target = some g}

section Counts

variable {s : State} {l : Nat → List Nat}

/-- The entries in use are those on the lists of the processes in use. -/
theorem FdInv.used_iff (h : FdInv s l) (f : Nat) :
    s.io.fdUsed f = true ↔ ∃ p, (s.procs p).slotInuse = true ∧ f ∈ l p := by
  rw [h.refs.used]
  simp only [List.not_mem_nil, false_or]
  refine exists_congr fun p => ⟨fun hf => ⟨?_, hf⟩, fun hf => hf.2⟩
  by_contra hfree
  have hnone := h.ended p (.inl (by simpa using hfree))
  rw [h.refs.lists.head_eq_none.mp hnone] at hf
  simp at hf

theorem FdInv.ncard_holders (h : FdInv s l) (o : Nat) :
    (s.holders l o).ncard = s.io.fileRefs o := by
  unfold Io.State.fileRefs Lib.refs
  rw [← Set.ncard_coe_finset]
  congr 1
  ext f
  simp only [State.holders, Set.mem_ofPred_eq, Finset.coe_filter, Finset.mem_range, ← h.used_iff]
  exact ⟨fun hf => ⟨(h.refs.fd f hf.1).1, hf⟩, fun hf => hf.2⟩

theorem FdInv.ncard_openers (h : FdInv s l) (g : Nat) :
    (s.openers g).ncard = s.io.targetRefs g := by
  unfold Io.State.targetRefs Lib.refs
  rw [← Set.ncard_coe_finset]
  congr 1
  ext o
  simp only [State.openers, Set.mem_ofPred_eq, Finset.coe_filter, Finset.mem_range]
  exact ⟨fun ho => ⟨(h.refs.file o ho.1).1, ho⟩, fun ho => ho.2⟩

end Counts

/-- Reference counts are right in every run. The entries in use are those on the lists of the
processes in use, each on one list. The counter of an open file is one more than the number of
entries that refer to it, and the counter of a target one more than the number of open files that
refer to it. A slot is given back when a counter reaches zero, and no counter runs below zero. -/
theorem run_refs {io₀ : Io.State} {boots : List Unit} {s₀ s₁ s : State} {kib : Nat}
    {idle : BitVec 32} {ops : List Op} (hempty : io₀.Empty)
    (hboot : Run Io.ConsoleStep io₀ boots s₀.io) (hzero : Zeroed s₀)
    (hinit : schedInit s₀ kib idle = .ok s₁) (hrun : Run Step s₁ ops s) :
    ∃ l : Nat → List Nat,
      (∀ p, Chain s.io.fdNext (s.procs p).fdList (l p)) ∧
      (∀ p q f, f ∈ l p → f ∈ l q → p = q) ∧
      (∀ f, s.io.fdUsed f = true ↔ ∃ p, (s.procs p).slotInuse = true ∧ f ∈ l p) ∧
      (∀ o, s.io.fileUsed o = true → (s.io.files o).refcount = 1 + (s.holders l o).ncard) ∧
      (∀ g, s.io.targetUsed g = true → (s.io.targets g).refcount = 1 + (s.openers g).ncard) ∧
      (∀ o, s.io.fileUsed o = true → ∃ t, Io.openFilePut s.io (some o) = .ok t ∧
        (t.fileUsed o = false ↔ (s.io.files o).refcount = 1)) ∧
      (∀ g, s.io.targetUsed g = true → ∃ t, Io.fileTargetPut s.io (some g) = .ok t ∧
        (t.targetUsed g = false ↔ (s.io.targets g).refcount = 1)) ∧
      ∀ op e, Op.exec s op = .error e → ¬ e.Underflow := by
  have hrefs : Io.Refs s₀.io (fun _ => none) (fun _ => []) [] :=
    hboot.invariant (I := fun io => Io.Refs io (fun _ => none) (fun _ => []) [])
      (fun _ _ _ h hstep => by
        obtain ⟨g, o, hadd⟩ := Io.consoleInit_cases hstep
        exact h.console_init hadd) (hempty.refs fun _ => rfl)
  obtain ⟨l, h⟩ := hrun.invariant (I := fun s => ∃ l, FdInv s l)
    (fun _ _ _ h hstep => step_fds h hstep) (schedInit_fds hzero hrefs hinit)
  refine ⟨l, h.refs.lists.chain, fun p q f hp hq => h.refs.lists.disjoint hp hq, h.used_iff,
    fun o ho => ?_, fun g hg => ?_, fun o ho => h.refs.putFile ho, fun g hg => h.refs.putTarget hg,
    fun op e he => exec_noUnderflow h op e he⟩
  · rw [h.ncard_holders, (h.refs.file o ho).2.2]
  · rw [h.ncard_openers, (h.refs.target g hg).2.2]

/-- A root process gets three descriptors for the console. -/
theorem run_refs_root : ∃ s₁ s, schedInit bootState 32768 0xC0002000 = .ok s₁ ∧
    Run Step s₁ [.console, .procAlloc none .user] s ∧ s.io.fileUsed 0 = true ∧
    (s.io.files 0).refcount = 4 ∧
    ∃ l, (s.io.files 0).refcount = 1 + (s.holders l 0).ncard := by
  obtain ⟨s₁, hinit, htest⟩ := exists_of_okAnd (e := schedInit bootState 32768 0xC0002000)
    (p := fun s₁ => okAnd (execAll Op.exec s₁ [.console, .procAlloc none .user]) fun s : State =>
      s.io.fileUsed 0 && decide ((s.io.files 0).refcount = 4)) (by decide +kernel)
  obtain ⟨s, hall, htest⟩ := exists_of_okAnd htest
  rw [Bool.and_eq_true] at htest
  have hrun : Run Step s₁ [.console, .procAlloc none .user] s := run_of_execAll hall
  have hempty : bootState.io.Empty := ⟨fun _ => rfl, fun _ => rfl, fun _ => rfl, rfl⟩
  obtain ⟨l, -, -, -, hfile, -⟩ :=
    run_refs hempty (.nil bootState.io) zeroed_bootState hinit hrun
  exact ⟨s₁, s, hinit, hrun, htest.1, of_decide_eq_true htest.2, l, hfile 0 htest.1⟩

end Unidos.Sched
