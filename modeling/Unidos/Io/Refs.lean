import Unidos.Io.Basic
import Unidos.Lib.Lists
import Unidos.Lib.RefCount
import Unidos.Mm.Create

/-!
# Reference counts of open files

`Counted s` says that the counters of open files and file targets are right: one for whoever made
the record, and one for each record in use that points to it. `Refs s heads l loose` adds that the
descriptor entries in use are those on the lists of the family `l`, and those of the list `loose`
that is being made or taken apart. Making an entry keeps this (`Counted.add`), and so does dropping
one (`Counted.drop`), which therefore never finds a counter at zero. The functions that work on
whole lists follow: `dropFds_spec`, `fdeForkCopy_spec`, and `stdioBootstrap_spec`.
-/

namespace Unidos.Io

open Lib

/-- The number of descriptor entries that refer to open file `o`. -/
def State.fileRefs (s : State) (o : Nat) : Nat := refs poolSlots s.fdUsed (fun f => (s.fds f).of) o

/-- The number of open files that refer to target `g`. -/
def State.targetRefs (s : State) (g : Nat) : Nat :=
  refs poolSlots s.fileUsed (fun o => (s.files o).target) g

/-- The counters are right, and the records in use point to records in use. -/
structure Counted (s : State) : Prop where
  fd : ∀ f, s.fdUsed f = true → f < poolSlots ∧ (s.fds f).fdId = f
  of : ∀ f o, s.fdUsed f = true → (s.fds f).of = some o → s.fileUsed o = true
  file : ∀ o, s.fileUsed o = true →
    o < poolSlots ∧ (s.files o).poolId = o ∧ (s.files o).refcount = 1 + s.fileRefs o
  fileTarget : ∀ o g, s.fileUsed o = true → (s.files o).target = some g → s.targetUsed g = true
  target : ∀ g, s.targetUsed g = true →
    g < poolSlots ∧ (s.targets g).poolId = g ∧ (s.targets g).refcount = 1 + s.targetRefs g
  console : ∀ o, s.consoleOf = some o → s.fileUsed o = true

/-- Two states with the same open files and targets, up to the counters of the open files. -/
structure SameFiles (s t : State) : Prop where
  fileUsed : t.fileUsed = s.fileUsed
  target : ∀ o, (t.files o).target = (s.files o).target
  poolId : ∀ o, (t.files o).poolId = (s.files o).poolId
  targets : t.targets = s.targets
  targetUsed : t.targetUsed = s.targetUsed
  consoleOf : t.consoleOf = s.consoleOf
  mm : Mm.Grown s.mm t.mm

section Counted

variable {s t u : State} {f : Nat} {of : Option Nat}

theorem SameFiles.refl (s : State) : SameFiles s s :=
  ⟨rfl, fun _ => rfl, fun _ => rfl, rfl, rfl, rfl, .refl _⟩

theorem SameFiles.trans (h : SameFiles s t) (h' : SameFiles t u) : SameFiles s u where
  fileUsed := h'.fileUsed.trans h.fileUsed
  target := fun o => (h'.target o).trans (h.target o)
  poolId := fun o => (h'.poolId o).trans (h.poolId o)
  targets := h'.targets.trans h.targets
  targetUsed := h'.targetUsed.trans h.targetUsed
  consoleOf := h'.consoleOf.trans h.consoleOf
  mm := h.mm.trans h'.mm

/-- The counters follow if the entries are the same. -/
theorem SameFiles.files_eq (h : SameFiles s t) (hs : Counted s) (ht : Counted t)
    (hused : ∀ f, t.fdUsed f = s.fdUsed f)
    (hof : ∀ f, s.fdUsed f = true → (t.fds f).of = (s.fds f).of) {o : Nat}
    (ho : s.fileUsed o = true) : t.files o = s.files o := by
  have ho' : t.fileUsed o = true := by rw [h.fileUsed, ho]
  have hcount : (t.files o).refcount = (s.files o).refcount := by
    rw [(hs.file o ho).2.2, (ht.file o ho').2.2]
    exact congrArg (1 + ·) (refs_congr hused hof)
  have htarget := h.target o
  have hpool := h.poolId o
  cases hfile : t.files o
  cases hfile' : s.files o
  simp_all

/-- Counters do not depend on the links and the numbers of the entries. -/
theorem Counted.congr (h : Counted s) (hfiles : SameFiles s t) (hcount : t.files = s.files)
    (hused : t.fdUsed = s.fdUsed)
    (hfds : ∀ f, (t.fds f).fdId = (s.fds f).fdId ∧ (t.fds f).of = (s.fds f).of) : Counted t := by
  have hrefs : ∀ o, t.fileRefs o = s.fileRefs o := fun o =>
    refs_congr (fun f => by rw [hused]) fun f _ => (hfds f).2
  have htrefs : ∀ g, t.targetRefs g = s.targetRefs g := fun g =>
    refs_congr (fun o => by rw [hfiles.fileUsed]) fun o _ => hfiles.target o
  refine ⟨fun f hf => ?_, fun f o hf ho => ?_, fun o ho => ?_, fun o g ho hg => ?_, fun g hg => ?_,
    fun o ho => ?_⟩
  · rw [hused] at hf
    rw [(hfds f).1]
    exact h.fd f hf
  · rw [hused] at hf
    rw [(hfds f).2] at ho
    rw [hfiles.fileUsed]
    exact h.of f o hf ho
  · rw [hfiles.fileUsed] at ho
    rw [hcount, hrefs]
    exact h.file o ho
  · rw [hfiles.fileUsed] at ho
    rw [hfiles.target] at hg
    rw [hfiles.targetUsed]
    exact h.fileTarget o g ho hg
  · rw [hfiles.targetUsed] at hg
    rw [hfiles.targets, htrefs]
    exact h.target g hg
  · rw [hfiles.consoleOf] at ho
    rw [hfiles.fileUsed]
    exact h.console o ho

/-! ### One entry -/

/-- What `fdpool_alloc_fdentry` can do. -/
theorem fdpoolAllocFdentry_cases {r : Option Nat} (h : fdpoolAllocFdentry s of = (r, t)) :
    (r = none ∧ ∃ mm, Mm.Grown s.mm mm ∧ t = { s with mm := mm }) ∨
    ∃ f mm, r = some f ∧ s.fdUsed f = false ∧ f < poolSlots ∧ Mm.Grown s.mm mm ∧
      t = { s.setFd f ⟨f, of, none, 0⟩ with
        mm := mm
        fdUsed := Function.update s.fdUsed f true } := by
  unfold fdpoolAllocFdentry at h
  split at h
  · rename_i mm halloc
    simp only [Prod.mk.injEq] at h
    exact .inl ⟨h.1.symm, mm, Mm.dpageAlloc_grown halloc, h.2.symm⟩
  · rename_i f mm halloc
    simp only [Prod.mk.injEq] at h
    obtain ⟨hfree, hlt⟩ := Mm.dpageAlloc_some halloc
    exact .inr ⟨f, mm, h.1.symm, hfree, hlt, Mm.dpageAlloc_grown halloc, h.2.symm⟩

/-- What `open_file_get` does. -/
theorem openFileGet_eq (s : State) (of : Option Nat) :
    ∃ files, openFileGet s of = { s with files := files } ∧ ∀ o,
      (files o).target = (s.files o).target ∧ (files o).poolId = (s.files o).poolId ∧
      (files o).refcount =
        if of = some o then ((s.files o).refcount + 1) % 2 ^ 32 else (s.files o).refcount := by
  cases of with
  | none => exact ⟨s.files, rfl, fun o => by simp⟩
  | some a =>
      refine ⟨_, rfl, fun o => ?_⟩
      by_cases ho : o = a
      · simp [ho]
      · simp [ho, Ne.symm ho]

/-- Counters do not depend on the memory of the machine. -/
theorem Counted.anyMm (h : Counted s) (mm : Mm.State) : Counted { s with mm := mm } :=
  ⟨h.fd, h.of, h.file, h.fileTarget, h.target, h.console⟩

theorem SameFiles.withMm {mm : Mm.State} (hmm : Mm.Grown s.mm mm) :
    SameFiles s { s with mm := mm } :=
  ⟨rfl, fun _ => rfl, fun _ => rfl, rfl, rfl, rfl, hmm⟩

/-- State `t` has one more entry than `s`. -/
structure Added (s t : State) (f : Nat) (of : Option Nat) : Prop where
  unused : s.fdUsed f = false
  fds : t.fds = Function.update s.fds f ⟨f, of, none, 0⟩
  fdUsed : t.fdUsed = Function.update s.fdUsed f true
  files : SameFiles s t

theorem Added.fileRefs (h : Added s t f of) (hlt : f < poolSlots) (o : Nat) :
    t.fileRefs o = s.fileRefs o + if of = some o then 1 else 0 := by
  have htake : refs poolSlots (Function.update s.fdUsed f true) (fun f => (t.fds f).of) o =
      s.fileRefs o + if (t.fds f).of = some o then 1 else 0 :=
    refs_take hlt h.unused fun j hj => by simp [h.fds, hj]
  unfold State.fileRefs at htake ⊢
  rw [h.fdUsed, htake, h.fds, Function.update_self]

/-- An entry, with the reference that it holds, is made. -/
theorem Counted.add (h : Counted s) (hof : ∀ o, of = some o → s.fileUsed o = true)
    (halloc : fdpoolAllocFdentry s of = (some f, t)) :
    Counted (openFileGet t of) ∧ Added s (openFileGet t of) f of := by
  obtain ⟨hr, -⟩ | ⟨f', mm, hf', hfree, hlt, hmm, rfl⟩ := fdpoolAllocFdentry_cases halloc
  · cases hr
  rw [Option.some.injEq] at hf'
  subst hf'
  obtain ⟨files, hget, hfiles⟩ := openFileGet_eq { s.setFd f ⟨f, of, none, 0⟩ with
    mm := mm
    fdUsed := Function.update s.fdUsed f true } of
  have hsame : SameFiles s { s.setFd f ⟨f, of, none, 0⟩ with
      mm := mm
      fdUsed := Function.update s.fdUsed f true
      files := files } :=
    ⟨rfl, fun o => (hfiles o).1, fun o => (hfiles o).2.1, rfl, rfl, rfl, hmm⟩
  have hadded : Added s _ f of := ⟨hfree, rfl, rfl, hsame⟩
  rw [hget]
  refine ⟨⟨fun f' hf' => ?_, fun f' o hf' ho => ?_, fun o ho => ?_, fun o g ho hg => ?_,
    fun g hg => ?_, h.console⟩, hadded⟩
  · by_cases hne : f' = f
    · subst hne
      exact ⟨hlt, by simp [State.setFd]⟩
    · simp only [State.setFd, Function.update_of_ne hne] at hf' ⊢
      exact h.fd f' hf'
  · by_cases hne : f' = f
    · subst hne
      simp only [State.setFd, Function.update_self] at ho
      exact hof o ho
    · simp only [State.setFd, Function.update_of_ne hne] at hf' ho
      exact h.of f' o hf' ho
  · obtain ⟨holt, hpool, hcount⟩ := h.file o ho
    refine ⟨holt, (hfiles o).2.1.trans hpool, ?_⟩
    have hle : s.fileRefs o ≤ poolSlots := refs_le _ _ _ _
    unfold poolSlots at hle
    rw [hadded.fileRefs hlt]
    refine (hfiles o).2.2.trans ?_
    show (if of = some o then ((s.files o).refcount + 1) % 2 ^ 32 else (s.files o).refcount) = _
    rw [hcount]
    split <;> omega
  · rw [(hfiles o).1] at hg
    exact h.fileTarget o g ho hg
  · obtain ⟨hglt, hpool, hcount⟩ := h.target g hg
    refine ⟨hglt, hpool, hcount.trans (congrArg (1 + ·) ?_)⟩
    exact (refs_congr (fun _ => rfl) fun o _ => (hfiles o).1).symm

/-- State `t` has one entry less than `s`. -/
structure Dropped (s t : State) (f : Nat) : Prop where
  fds : t.fds = Function.update s.fds f ⟨0, none, none, 0⟩
  fdUsed : t.fdUsed = Function.update s.fdUsed f false
  files : SameFiles s t

theorem Dropped.fileRefs (h : Dropped s t f) (hf : s.fdUsed f = true) (hlt : f < poolSlots)
    (o : Nat) : s.fileRefs o = t.fileRefs o + if (s.fds f).of = some o then 1 else 0 := by
  have hdrop : s.fileRefs o =
      refs poolSlots (Function.update s.fdUsed f false) (fun f => (t.fds f).of) o +
        if (s.fds f).of = some o then 1 else 0 :=
    refs_drop hlt hf fun j hj => by simp [h.fds, hj]
  rw [hdrop, ← h.fdUsed]
  rfl

/-- The counter of a file that an entry refers to does not reach zero: its maker still counts. -/
theorem Counted.put (h : Counted s) (hf : s.fdUsed f = true) :
    ∃ files, openFilePut s (s.fds f).of = .ok { s with files := files } ∧ ∀ o,
      (files o).target = (s.files o).target ∧ (files o).poolId = (s.files o).poolId ∧
      (files o).refcount =
        if (s.fds f).of = some o then (s.files o).refcount - 1 else (s.files o).refcount := by
  cases hof : (s.fds f).of with
  | none => exact ⟨s.files, rfl, fun o => by simp⟩
  | some a =>
      obtain ⟨-, -, hcount⟩ := h.file a (h.of f a hf hof)
      have hpos : 0 < s.fileRefs a := refs_pos (h.fd f hf).1 hf hof
      refine ⟨Function.update s.files a
        { s.files a with refcount := (s.files a).refcount - 1 }, ?_, fun o => ?_⟩
      · unfold openFilePut
        simp only
        rw [if_neg (by omega), if_neg (by simp [State.setFile]; omega)]
        rfl
      · by_cases ho : o = a
        · simp [ho]
        · simp [ho, Ne.symm ho]

/-- An entry is dropped, with the reference that it holds. -/
theorem Counted.drop (h : Counted s) (hf : s.fdUsed f = true) :
    ∃ t, openFilePut s (s.fds f).of = .ok t ∧ Counted (fdpoolFreeFdentry t f) ∧
      Dropped s (fdpoolFreeFdentry t f) f := by
  obtain ⟨files, hput, hfiles⟩ := h.put hf
  obtain ⟨hlt, hid⟩ := h.fd f hf
  refine ⟨_, hput, ?_⟩
  have hfree : fdpoolFreeFdentry { s with files := files } f =
      { s.setFd f ⟨0, none, none, 0⟩ with
        files := files
        fdUsed := Function.update s.fdUsed f false } := by
    unfold fdpoolFreeFdentry Mm.dpageBmClear
    rw [hid, if_neg (by omega)]
    rfl
  rw [hfree]
  have hsame : SameFiles s { s.setFd f ⟨0, none, none, 0⟩ with
      files := files
      fdUsed := Function.update s.fdUsed f false } :=
    ⟨rfl, fun o => (hfiles o).1, fun o => (hfiles o).2.1, rfl, rfl, rfl, .refl _⟩
  have hdropped : Dropped s _ f := ⟨rfl, rfl, hsame⟩
  refine ⟨⟨fun f' hf' => ?_, fun f' o hf' ho => ?_, fun o ho => ?_, fun o g ho hg => ?_,
    fun g hg => ?_, h.console⟩, hdropped⟩
  · by_cases hne : f' = f
    · simp [hne] at hf'
    · simp only [State.setFd, Function.update_of_ne hne] at hf' ⊢
      exact h.fd f' hf'
  · by_cases hne : f' = f
    · simp [hne] at hf'
    · simp only [State.setFd, Function.update_of_ne hne] at hf' ho
      exact h.of f' o hf' ho
  · obtain ⟨holt, hpool, hcount⟩ := h.file o ho
    refine ⟨holt, (hfiles o).2.1.trans hpool, ?_⟩
    refine (hfiles o).2.2.trans ?_
    rw [hcount, hdropped.fileRefs hf hlt]
    split <;> omega
  · rw [(hfiles o).1] at hg
    exact h.fileTarget o g ho hg
  · obtain ⟨hglt, hpool, hcount⟩ := h.target g hg
    refine ⟨hglt, hpool, hcount.trans (congrArg (1 + ·) ?_)⟩
    exact (refs_congr (fun _ => rfl) fun o _ => (hfiles o).1).symm

/-- `file_target_put` gives back the slot of a target if the counter reaches zero. -/
theorem Counted.putTarget (h : Counted s) {g : Nat} (hg : s.targetUsed g = true) :
    ∃ t, fileTargetPut s (some g) = .ok t ∧
      (t.targetUsed g = false ↔ (s.targets g).refcount = 1) := by
  obtain ⟨hlt, hpool, hcount⟩ := h.target g hg
  unfold fileTargetPut
  simp only
  rw [if_neg (by omega)]
  by_cases hone : (s.targets g).refcount = 1
  · refine ⟨_, if_pos (by simp [State.setTarget, hone]), ?_⟩
    have hclear : ¬ g ≥ poolSlots := by omega
    simp [fdpoolFreeFtarget, State.setTarget, Mm.dpageBmClear, hpool, hclear, hone]
  · refine ⟨_, if_neg (by simp [State.setTarget]; omega), ?_⟩
    simp [State.setTarget, hg, hone]

/-- `open_file_put` gives back the slot of a file if the counter reaches zero. -/
theorem Counted.putFile (h : Counted s) {o : Nat} (ho : s.fileUsed o = true) :
    ∃ t, openFilePut s (some o) = .ok t ∧
      (t.fileUsed o = false ↔ (s.files o).refcount = 1) := by
  obtain ⟨hlt, hpool, hcount⟩ := h.file o ho
  unfold openFilePut
  simp only
  rw [if_neg (by omega)]
  by_cases hone : (s.files o).refcount = 1
  · rw [if_pos (by simp [State.setFile, hone])]
    have hput : ∃ t, fileTargetPut
        (s.setFile o { s.files o with refcount := (s.files o).refcount - 1 })
        (s.files o).target = .ok t ∧ (t.files o).poolId = o ∧ t.fileUsed = s.fileUsed := by
      cases htarget : (s.files o).target with
      | none => exact ⟨_, rfl, by simp [State.setFile, hpool], rfl⟩
      | some g =>
          -- the target counts this file, and its maker
          obtain ⟨-, -, htcount⟩ := h.target g (h.fileTarget o g ho htarget)
          have hpos : 0 < s.targetRefs g := refs_pos hlt ho htarget
          unfold fileTargetPut
          simp only
          rw [if_neg (by simp [State.setFile]; omega),
            if_neg (by simp [State.setFile, State.setTarget]; omega)]
          exact ⟨_, rfl, by simp [State.setFile, State.setTarget, hpool], rfl⟩
    obtain ⟨t, ht, hid, hused⟩ := hput
    refine ⟨fdpoolFreeOpenfile t o, bind_eq_ok.mpr ⟨t, by simpa [State.setFile] using ht, rfl⟩, ?_⟩
    have hclear : ¬ o ≥ poolSlots := by omega
    simp [fdpoolFreeOpenfile, State.setFile, Mm.dpageBmClear, hid, hclear, hone]
  · rw [if_neg (by simp [State.setFile]; omega)]
    exact ⟨_, rfl, by simp [State.setFile, ho, hone]⟩

end Counted

/-! ## Lists of entries -/

/-- The entries in use are those on the lists, and those of `loose`. -/
structure Refs (s : State) (heads : Nat → Option Nat) (l : Nat → List Nat) (loose : List Nat) :
    Prop extends Counted s where
  lists : Lists s.fdNext heads l
  used : ∀ f, s.fdUsed f = true ↔ f ∈ loose ∨ ∃ p, f ∈ l p
  apart : ∀ f ∈ loose, ∀ p, f ∉ l p

@[simp] theorem fdNext_setFd (s : State) (f : Nat) (fd : FdEntry) :
    (s.setFd f fd).fdNext = Function.update s.fdNext f fd.next := by
  funext g
  show (Function.update s.fds f fd g).next = _
  by_cases hg : g = f
  · rw [hg, Function.update_self, Function.update_self]
  · rw [Function.update_of_ne hg, Function.update_of_ne hg]
    rfl

@[simp] theorem fds_openFileGet (s : State) (of : Option Nat) :
    (openFileGet s of).fds = s.fds := by
  cases of with
  | none => rfl
  | some o => rfl

theorem openFileGet_setFd (s : State) (f : Nat) (fd : FdEntry) (of : Option Nat) :
    openFileGet (s.setFd f fd) of = (openFileGet s of).setFd f fd := by
  cases of with
  | none => rfl
  | some o => rfl

section Refs

variable {s t : State} {heads : Nat → Option Nat} {l : Nat → List Nat} {loose rest : List Nat}
  {f p : Nat} {of : Option Nat}

namespace Refs

theorem length_le (h : Refs s heads l loose) (p : Nat) : (l p).length ≤ poolSlots :=
  (h.lists.chain p).length_le fun f hf => (h.fd f ((h.used f).mpr (.inr ⟨p, hf⟩))).1

theorem loose_length_le (h : Refs s heads l loose) (hnodup : loose.Nodup) :
    loose.length ≤ poolSlots :=
  length_le_of_nodup hnodup fun f hf => (h.fd f ((h.used f).mpr (.inl hf))).1

theorem looseCongr (h : Refs s heads l loose) (rest : List Nat)
    (hmem : ∀ f, f ∈ rest ↔ f ∈ loose) : Refs s heads l rest :=
  ⟨h.toCounted, h.lists, fun f => by rw [h.used, hmem], fun f hf => h.apart f ((hmem f).mp hf)⟩

theorem anyMm (h : Refs s heads l loose) (mm : Mm.State) : Refs { s with mm := mm } heads l loose :=
  ⟨h.toCounted.anyMm mm, h.lists, h.used, h.apart⟩

theorem add (h : Refs s heads l loose) (hadd : Added s t f of) (ht : Counted t) :
    Refs t heads l (f :: loose) := by
  have hout : f ∉ loose ∧ ∀ p, f ∉ l p := by
    have hunused : ¬ s.fdUsed f = true := by simp [hadd.unused]
    rw [h.used, not_or, not_exists] at hunused
    exact hunused
  refine ⟨ht, h.lists.congr (fun p g hg => ?_) fun _ => rfl, fun g => ?_, fun g hg p => ?_⟩
  · have hne : g ≠ f := fun heq => hout.2 p (heq ▸ hg)
    show (t.fds g).next = (s.fds g).next
    rw [hadd.fds, Function.update_of_ne hne]
  · rw [hadd.fdUsed]
    by_cases hg : g = f
    · simp [hg]
    · rw [Function.update_of_ne hg, h.used]
      simp [hg]
  · rcases List.mem_cons.mp hg with rfl | hg
    · exact hout.2 p
    · exact h.apart g hg p

theorem drop (h : Refs s heads l (f :: rest)) (hf : f ∉ rest) (hdrop : Dropped s t f)
    (ht : Counted t) : Refs t heads l rest := by
  have hout : ∀ p, f ∉ l p := h.apart f (by simp)
  refine ⟨ht, h.lists.congr (fun p g hg => ?_) fun _ => rfl, fun g => ?_,
    fun g hg => h.apart g (by simp [hg])⟩
  · have hne : g ≠ f := fun heq => hout p (heq ▸ hg)
    show (t.fds g).next = (s.fds g).next
    rw [hdrop.fds, Function.update_of_ne hne]
  · rw [hdrop.fdUsed]
    by_cases hg : g = f
    · simp [hg, hf, hout]
    · rw [Function.update_of_ne hg, h.used]
      simp [hg]

/-- The links of loose entries, and their numbers in the process, can be changed. -/
theorem setFd (h : Refs s heads l loose) (hf : f ∈ loose) (fd : FdEntry)
    (hid : fd.fdId = (s.fds f).fdId) (hof : fd.of = (s.fds f).of) :
    Refs (s.setFd f fd) heads l loose ∧ SameFiles s (s.setFd f fd) := by
  have hsame : SameFiles s (s.setFd f fd) :=
    ⟨rfl, fun _ => rfl, fun _ => rfl, rfl, rfl, rfl, .refl _⟩
  refine ⟨⟨h.toCounted.congr hsame rfl rfl fun g => ?_, ?_, h.used, h.apart⟩, hsame⟩
  · show (Function.update s.fds f fd g).fdId = _ ∧ (Function.update s.fds f fd g).of = _
    by_cases hg : g = f
    · rw [hg, Function.update_self]
      exact ⟨hid, hof⟩
    · rw [Function.update_of_ne hg]
      exact ⟨rfl, rfl⟩
  · rw [fdNext_setFd]
    exact h.lists.setNext (h.apart f hf) _

/-- The loose entries become the list of `p`. -/
theorem link (h : Refs s heads l rest) {r : Option Nat} (hchain : Chain s.fdNext r rest)
    (hp : heads p = none) :
    Refs s (Function.update heads p r) (Function.update l p rest) [] := by
  have hempty : l p = [] := h.lists.head_eq_none.mp hp
  have hmem : ∀ f q, f ∈ Function.update l p rest q ↔ (q = p ∧ f ∈ rest) ∨ f ∈ l q := by
    intro f q
    by_cases hq : q = p
    · simp [hq, hempty]
    · simp [hq]
  refine ⟨h.toCounted, ⟨fun q => ?_, fun {i j f} hi hj => ?_⟩, fun f => ?_, by simp⟩
  · by_cases hq : q = p
    · rw [hq, Function.update_self, Function.update_self]
      exact hchain
    · rw [Function.update_of_ne hq, Function.update_of_ne hq]
      exact h.lists.chain q
  · rw [hmem] at hi hj
    rcases hi with ⟨rfl, hi⟩ | hi <;> rcases hj with ⟨rfl, hj⟩ | hj
    · rfl
    · exact absurd hj (h.apart f hi j)
    · exact absurd hi (h.apart f hj i)
    · exact h.lists.disjoint hi hj
  · rw [h.used]
    simp only [hmem, List.not_mem_nil, false_or]
    constructor
    · rintro (hf | ⟨q, hq⟩)
      · exact ⟨p, .inl ⟨rfl, hf⟩⟩
      · exact ⟨q, .inr hq⟩
    · rintro ⟨q, ⟨-, hf⟩ | hq⟩
      · exact .inl hf
      · exact .inr ⟨q, hq⟩

/-- The entries of `p` are taken off its list. -/
theorem unlink (h : Refs s heads l []) (p : Nat) :
    Refs s (Function.update heads p none) (Function.update l p []) (l p) := by
  refine ⟨h.toCounted, h.lists.clear p, fun f => ?_, fun f hf q hq => ?_⟩
  · rw [h.used]
    constructor
    · rintro (hf | ⟨q, hq⟩)
      · simp at hf
      · by_cases hqp : q = p
        · exact .inl (hqp ▸ hq)
        · exact .inr ⟨q, by rwa [Function.update_of_ne hqp]⟩
    · rintro (hf | ⟨q, hq⟩)
      · exact .inr ⟨p, hf⟩
      · by_cases hqp : q = p
        · simp [hqp] at hq
        · exact .inr ⟨q, by rwa [Function.update_of_ne hqp] at hq⟩
  · by_cases hqp : q = p
    · simp [hqp] at hq
    · rw [Function.update_of_ne hqp] at hq
      exact hqp (h.lists.disjoint hq hf)

end Refs

/-- The entries of `rest` are dropped, one after another. -/
theorem dropFds_spec {fuel : Nat} {q : Option Nat} (h : Refs s heads l rest)
    (hchain : Chain s.fdNext q rest) (hfuel : rest.length ≤ fuel) :
    ∃ t, dropFds fuel q s = .ok t ∧ Refs t heads l [] ∧ SameFiles s t ∧
      ∀ f, f ∉ rest → t.fds f = s.fds f := by
  induction rest generalizing s q fuel with
  | nil =>
      obtain rfl := chain_nil.mp hchain
      refine ⟨s, ?_, h, .refl s, fun _ _ => rfl⟩
      cases fuel <;> rfl
  | cons f rest ih =>
      have hf : f ∉ rest := (List.nodup_cons.mp hchain.nodup).1
      obtain ⟨rfl, hnext⟩ := chain_cons.mp hchain
      obtain ⟨n, rfl⟩ : ∃ n, fuel = n + 1 := ⟨fuel - 1, by simp at hfuel; omega⟩
      obtain ⟨u, hput, hcount, hdrop⟩ := h.toCounted.drop ((h.used f).mpr (by simp))
      have hrefs := h.drop hf hdrop hcount
      have hother : ∀ g, g ≠ f → (fdpoolFreeFdentry u f).fds g = s.fds g := fun g hg => by
        rw [hdrop.fds, Function.update_of_ne hg]
      have hnext' : Chain (fdpoolFreeFdentry u f).fdNext (s.fdNext f) rest :=
        hnext.congr fun g hg => by
          show ((fdpoolFreeFdentry u f).fds g).next = _
          rw [hother g fun heq => hf (heq ▸ hg)]
          rfl
      obtain ⟨t, ht, hrefs', hfiles, hfds⟩ := ih hrefs hnext' (by simpa using hfuel)
      refine ⟨t, ?_, hrefs', hdrop.files.trans hfiles, fun g hg => ?_⟩
      · exact bind_eq_ok.mpr ⟨u, hput, ht⟩
      · rw [List.mem_cons, not_or] at hg
        rw [hfds g hg.2, hother g hg.1]

/-- One round of the loop of `fde_fork_copy` makes a loose entry for the same file. -/
theorem copyEntry_spec {c : Nat} {s₁ s₂ : State} (h : Refs s heads l loose)
    (hf : s.fdUsed f = true) (halloc : fdpoolAllocFdentry s (s.fds f).of = (some c, s₁))
    (hs₂ : s₂ = s₁.setFd c { s₁.fds c with
      of := (s₁.fds f).of
      localId := (s₁.fds f).localId }) :
    c ∉ loose ∧ (∀ q, c ∉ l q) ∧ Refs (openFileGet s₂ (s₂.fds c).of) heads l (c :: loose) ∧
      SameFiles s (openFileGet s₂ (s₂.fds c).of) ∧
      (openFileGet s₂ (s₂.fds c).of).fdNext = Function.update s.fdNext c none ∧
      ∀ g, g ≠ c → (openFileGet s₂ (s₂.fds c).of).fds g = s.fds g := by
  obtain ⟨hcount, hadd⟩ := h.toCounted.add (fun o ho => h.of f o hf ho) halloc
  have hfds : s₁.fds = Function.update s.fds c ⟨c, (s.fds f).of, none, 0⟩ := by
    rw [← hadd.fds, fds_openFileGet]
  have hout : c ∉ loose ∧ ∀ q, c ∉ l q := by
    have hunused : ¬ s.fdUsed c = true := by simp [hadd.unused]
    rw [h.used, not_or, not_exists] at hunused
    exact hunused
  have hfc : f ≠ c := fun heq => by simp [heq, hadd.unused] at hf
  have hself : s₁.fds c = ⟨c, (s.fds f).of, none, 0⟩ := by rw [hfds, Function.update_self]
  have hother : s₁.fds f = s.fds f := by rw [hfds, Function.update_of_ne hfc]
  rw [hself, hother] at hs₂
  have hof : (s₂.fds c).of = (s.fds f).of := by simp [hs₂, State.setFd]
  rw [hof, hs₂, openFileGet_setFd]
  have hget : (openFileGet s₁ (s.fds f).of).fds c = ⟨c, (s.fds f).of, none, 0⟩ := by
    rw [fds_openFileGet, hself]
  obtain ⟨hrefs, hfiles⟩ := (h.add hadd hcount).setFd (f := c) (by simp)
    ⟨c, (s.fds f).of, none, (s.fds f).localId⟩ (by rw [hget]) (by rw [hget])
  refine ⟨hout.1, hout.2, hrefs, hadd.files.trans hfiles, ?_, fun g hg => ?_⟩
  · rw [fdNext_setFd]
    funext g
    by_cases hg : g = c
    · rw [hg, Function.update_self, Function.update_self]
    · rw [Function.update_of_ne hg, Function.update_of_ne hg]
      show ((openFileGet s₁ (s.fds f).of).fds g).next = _
      rw [hadd.fds, Function.update_of_ne hg]
      rfl
  · show Function.update (openFileGet s₁ (s.fds f).of).fds c _ g = _
    rw [Function.update_of_ne hg, hadd.fds, Function.update_of_ne hg]

/-- The loop of `fde_fork_copy`. It either copies the entries that are left, or drops those it has
copied. -/
theorem forkCopy_spec {fuel : Nat} {src head tail : Option Nat} {done : List Nat}
    (h : Refs s heads l done) (hsrc : Chain s.fdNext src rest) (hrest : ∀ f ∈ rest, f ∈ l p)
    (hfuel : rest.length ≤ fuel) (hhead : Chain s.fdNext head done)
    (htail : tail = done.getLast?) :
    ∃ r t copy, forkCopy fuel src head tail s = .ok (r, t) ∧ Refs t heads l copy ∧
      Chain t.fdNext r copy ∧ SameFiles s t ∧ ∀ q, ∀ f ∈ l q, t.fds f = s.fds f := by
  induction rest generalizing s src head tail done fuel with
  | nil =>
      obtain rfl := chain_nil.mp hsrc
      refine ⟨head, s, done, ?_, h, hhead, .refl s, fun _ _ _ => rfl⟩
      cases fuel <;> rfl
  | cons f rest ih =>
      obtain ⟨rfl, hnext⟩ := chain_cons.mp hsrc
      obtain ⟨n, rfl⟩ : ∃ n, fuel = n + 1 := ⟨fuel - 1, by simp at hfuel; omega⟩
      have hfl : f ∈ l p := hrest f (by simp)
      have hfused : s.fdUsed f = true := (h.used f).mpr (.inr ⟨p, hfl⟩)
      unfold forkCopy
      generalize halloc : fdpoolAllocFdentry s (s.fds f).of = result
      obtain ⟨r, s₁⟩ := result
      cases r with
      | none =>
          obtain ⟨-, mm, hmm, rfl⟩ | ⟨_, _, hr, -⟩ := fdpoolAllocFdentry_cases halloc
          swap
          · cases hr
          obtain ⟨t, hdrop, hrefs, hfiles, hfds⟩ := dropFds_spec (h.anyMm mm) hhead
            (h.loose_length_le hhead.nodup)
          refine ⟨none, t, [], bind_eq_ok.mpr ⟨t, hdrop, rfl⟩, hrefs, rfl,
            (SameFiles.withMm hmm).trans hfiles, fun q g hg => ?_⟩
          exact hfds g fun hdone => h.apart g hdone q hg
      | some c =>
          obtain ⟨hdone, hlists, hrefs, hfiles, hnexts, hfds⟩ := copyEntry_spec h hfused halloc rfl
          dsimp only
          generalize openFileGet _ _ = s₂ at hrefs hfiles hnexts hfds ⊢
          have hne : ∀ q, ∀ g ∈ l q, g ≠ c := fun q g hg heq => hlists q (heq ▸ hg)
          have hnext₂ : s₂.fdNext f = s.fdNext f := by
            rw [hnexts, Function.update_of_ne (hne p f hfl)]
          have hrest₂ : Chain s₂.fdNext (s.fdNext f) rest := hnext.congr fun g hg => by
            rw [hnexts, Function.update_of_ne (hne p g (hrest g (by simp [hg])))]
          have hhead₂ : Chain s₂.fdNext head done := by
            rw [hnexts]
            exact hhead.update hdone
          rw [htail]
          cases hlast : done.getLast? with
          | none =>
              rw [List.getLast?_eq_none_iff] at hlast
              subst hlast
              rw [hnext₂]
              obtain ⟨r, t, copy, hcopy, hrefs', hchain, hfiles', hfds'⟩ := ih hrefs hrest₂
                (fun g hg => hrest g (by simp [hg])) (by simpa using hfuel)
                (show Chain s₂.fdNext (some c) [c] from ⟨rfl, by rw [hnexts]; simp [Seg]⟩) rfl
              refine ⟨r, t, copy, hcopy, hrefs', hchain, hfiles.trans hfiles', fun q g hg => ?_⟩
              rw [hfds' q g hg, hfds g (hne q g hg)]
          | some last =>
              obtain ⟨front, rfl⟩ := List.getLast?_eq_some_iff.mp hlast
              have hlastl : ∀ q, last ∉ l q := h.apart last (by simp)
              obtain ⟨hrefs₃, hfiles₃⟩ := hrefs.setFd (f := last) (by simp)
                { s₂.fds last with next := some c } rfl rfl
              dsimp only
              generalize hs₃ : s₂.setFd last { s₂.fds last with next := some c } = s₃
                at hrefs₃ hfiles₃ ⊢
              have hnexts₃ : s₃.fdNext = Function.update s₂.fdNext last (some c) := by
                rw [← hs₃, fdNext_setFd]
              have hkeep : ∀ q, ∀ g ∈ l q, s₃.fds g = s₂.fds g := fun q g hg => by
                have hg' : g ≠ last := fun heq => hlastl q (heq ▸ hg)
                rw [← hs₃]
                exact Function.update_of_ne hg' _ _
              have hchain : Chain s₃.fdNext head (front ++ [last, c]) := by
                rw [hnexts₃]
                exact hhead₂.append hdone (by rw [hnexts, Function.update_self])
              have hnext₃ : s₃.fdNext f = s.fdNext f :=
                (congrArg FdEntry.next (hkeep p f hfl)).trans hnext₂
              have hrest₃ : Chain s₃.fdNext (s.fdNext f) rest := hrest₂.congr fun g hg =>
                congrArg FdEntry.next (hkeep p g (hrest g (by simp [hg])))
              rw [hnext₃]
              obtain ⟨r, t, copy, hcopy, hrefs', hchain', hfiles', hfds'⟩ := ih
                (hrefs₃.looseCongr (front ++ [last, c]) fun g => by simp; tauto)
                hrest₃ (fun g hg => hrest g (by simp [hg])) (by simpa using hfuel) hchain
                (by rw [List.append_cons, List.getLast?_concat])
              refine ⟨r, t, copy, hcopy, hrefs', hchain', (hfiles.trans hfiles₃).trans hfiles',
                fun q g hg => ?_⟩
              rw [hfds' q g hg, hkeep q g hg, hfds g (hne q g hg)]

/-- `fde_fork_copy` on the list of process `p` returns a list of new entries, which is empty if
there are too few. The lists that were there before are still there. -/
theorem fdeForkCopy_spec (h : Refs s heads l []) (p : Nat) :
    ∃ r t copy, fdeForkCopy s (heads p) = .ok (r, t) ∧ Refs t heads l copy ∧
      Chain t.fdNext r copy ∧ SameFiles s t ∧ ∀ q, ∀ f ∈ l q, t.fds f = s.fds f :=
  forkCopy_spec h (h.lists.chain p) (fun _ hf => hf) (h.length_le p) (chain_nil.mpr rfl) rfl

/-! ## The console -/

/-- What `stdioEntry` does. -/
theorem stdioEntry_spec {r : Option Nat} (h : Refs s heads l loose) (hnodup : loose.Nodup)
    (hret : stdioEntry s = (r, t)) :
    Refs t heads l (r.toList ++ loose) ∧ (r.toList ++ loose).Nodup ∧ SameFiles s t ∧
      (∀ f, f ∉ r.toList → t.fds f = s.fds f) ∧
      ∀ f, r = some f → t.fds f = ⟨f, s.consoleOf, none, 0⟩ := by
  unfold stdioEntry at hret
  split at hret
  · rename_i s₁ halloc
    simp only [Prod.mk.injEq] at hret
    obtain ⟨rfl, rfl⟩ := hret
    obtain ⟨-, mm, hmm, rfl⟩ | ⟨_, _, hr, -⟩ := fdpoolAllocFdentry_cases halloc
    · exact ⟨h.anyMm mm, hnodup, .withMm hmm, fun _ _ => rfl, by simp⟩
    · cases hr
  · rename_i f s₁ halloc
    simp only [Prod.mk.injEq] at hret
    obtain ⟨rfl, rfl⟩ := hret
    have hconsole : s₁.consoleOf = s.consoleOf := by
      obtain ⟨hr, -⟩ | ⟨_, _, -, -, -, -, rfl⟩ := fdpoolAllocFdentry_cases halloc
      · cases hr
      · rfl
    rw [hconsole]
    obtain ⟨hcount, hadd⟩ := h.toCounted.add h.console halloc
    have hf : f ∉ loose := fun hmem => by
      have hused := (h.used f).mpr (.inl hmem)
      simp [hadd.unused] at hused
    refine ⟨h.add hadd hcount, List.nodup_cons.mpr ⟨hf, hnodup⟩, hadd.files, fun g hg => ?_,
      fun g hg => ?_⟩
    · have hne : g ≠ f := by simpa using hg
      rw [hadd.fds, Function.update_of_ne hne]
    · rw [Option.some.injEq] at hg
      rw [hadd.fds, hg, Function.update_self]

/-- What `dropStdio` does. -/
theorem dropStdio_spec {fd : Option Nat} (h : Refs s heads l (fd.toList ++ rest))
    (hnodup : (fd.toList ++ rest).Nodup) :
    ∃ t, dropStdio s fd = .ok t ∧ Refs t heads l rest ∧ SameFiles s t ∧
      ∀ f, f ∉ fd.toList → t.fds f = s.fds f := by
  cases fd with
  | none => exact ⟨s, rfl, h, .refl s, fun _ _ => rfl⟩
  | some f =>
      obtain ⟨u, hput, hcount, hdrop⟩ := h.toCounted.drop ((h.used f).mpr (by simp))
      refine ⟨_, bind_eq_ok.mpr ⟨u, hput, rfl⟩,
        h.drop (List.nodup_cons.mp hnodup).1 hdrop hcount, hdrop.files, fun g hg => ?_⟩
      have hne : g ≠ f := by simpa using hg
      rw [hdrop.fds, Function.update_of_ne hne]

/-- The end of the bootstrap links its three entries to a list. -/
theorem linkStdio_spec {i o e : Nat} (h : Refs s heads l [e, o, i]) (hnodup : [e, o, i].Nodup)
    (hlast : s.fdNext e = none) {s₁ s₂ s₃ : State}
    (hs₁ : s₁ = s.setFd i { s.fds i with next := some o, localId := 0 })
    (hs₂ : s₂ = s₁.setFd o { s₁.fds o with next := some e, localId := 1 })
    (hs₃ : s₃ = s₂.setFd e { s₂.fds e with localId := 2 }) :
    Refs s₃ heads l [i, o, e] ∧ Chain s₃.fdNext (some i) [i, o, e] ∧ SameFiles s s₃ ∧
      ∀ q, ∀ f ∈ l q, s₃.fds f = s.fds f := by
  have hne : i ≠ o ∧ i ≠ e ∧ o ≠ e := by
    simp only [List.nodup_cons, List.mem_cons, List.not_mem_nil, or_false, not_or] at hnodup
    exact ⟨fun heq => hnodup.2.1 heq.symm, fun heq => hnodup.1.2 heq.symm,
      fun heq => hnodup.1.1 heq.symm⟩
  obtain ⟨hio, hie, hoe⟩ := hne
  obtain ⟨h₁, hfiles₁⟩ := h.setFd (f := i) (by simp)
    { s.fds i with next := some o, localId := 0 } rfl rfl
  rw [← hs₁] at h₁ hfiles₁
  obtain ⟨h₂, hfiles₂⟩ := h₁.setFd (f := o) (by simp)
    { s₁.fds o with next := some e, localId := 1 } rfl rfl
  rw [← hs₂] at h₂ hfiles₂
  obtain ⟨h₃, hfiles₃⟩ := h₂.setFd (f := e) (by simp) { s₂.fds e with localId := 2 } rfl rfl
  rw [← hs₃] at h₃ hfiles₃
  have hnext₂ : s₂.fdNext =
      Function.update (Function.update s.fdNext i (some o)) o (some e) := by
    rw [hs₂, fdNext_setFd, hs₁, fdNext_setFd]
  have hnext₃ : s₃.fdNext = s₂.fdNext := by
    rw [hs₃, fdNext_setFd]
    exact Function.update_eq_self e s₂.fdNext
  refine ⟨h₃.looseCongr _ fun f => by simp; tauto, ?_, (hfiles₁.trans hfiles₂).trans hfiles₃,
    fun q f hf => ?_⟩
  · rw [hnext₃, hnext₂]
    refine ⟨rfl, ?_, ?_, ?_⟩
    · rw [Function.update_of_ne hio, Function.update_self]
    · rw [Function.update_self]
    · rw [Function.update_of_ne hoe.symm, Function.update_of_ne hie.symm]
      exact hlast
  · have hfi : f ≠ i := fun heq => h.apart i (by simp) q (heq ▸ hf)
    have hfo : f ≠ o := fun heq => h.apart o (by simp) q (heq ▸ hf)
    have hfe : f ≠ e := fun heq => h.apart e (by simp) q (heq ▸ hf)
    rw [hs₃, hs₂, hs₁]
    simp [State.setFd, hfi, hfo, hfe]

/-- A root process gets a list of entries for the console, which is empty if there are too few
entries. -/
theorem stdioBootstrap_spec (h : Refs s heads l []) :
    ∃ r n t new, stdioBootstrap s = .ok (r, n, t) ∧ Refs t heads l new ∧ Chain t.fdNext r new ∧
      SameFiles s t ∧ ∀ q, ∀ f ∈ l q, t.fds f = s.fds f := by
  unfold stdioBootstrap
  generalize hin : stdioEntry s = r₁
  obtain ⟨stdin, s₁⟩ := r₁
  obtain ⟨h₁, hnodup₁, hsame₁, hfds₁, hself₁⟩ := stdioEntry_spec h (by simp) hin
  simp only
  generalize hout : stdioEntry s₁ = r₂
  obtain ⟨stdout, s₂⟩ := r₂
  obtain ⟨h₂, hnodup₂, hsame₂, hfds₂, hself₂⟩ := stdioEntry_spec h₁ hnodup₁ hout
  simp only
  generalize herr : stdioEntry s₂ = r₃
  obtain ⟨stderr, s₃⟩ := r₃
  obtain ⟨h₃, hnodup₃, hsame₃, hfds₃, hself₃⟩ := stdioEntry_spec h₂ hnodup₂ herr
  have hfiles : SameFiles s s₃ := (hsame₁.trans hsame₂).trans hsame₃
  have hloose : ∀ f ∈ stderr.toList ++ (stdout.toList ++ (stdin.toList ++ [])), ∀ q, f ∉ l q :=
    h₃.apart
  have hkeep : ∀ q, ∀ f ∈ l q, s₃.fds f = s.fds f := by
    intro q f hf
    have hnot : f ∉ stderr.toList ++ (stdout.toList ++ (stdin.toList ++ [])) :=
      fun hmem => hloose f hmem q hf
    simp only [List.mem_append, not_or] at hnot
    rw [hfds₃ f hnot.1, hfds₂ f hnot.2.1, hfds₁ f hnot.2.2.1]
  simp only
  split
  · rename_i i o e
    obtain ⟨hlinked, hchain, hfiles', hkeep'⟩ := linkStdio_spec h₃ hnodup₃
      (congrArg FdEntry.next (hself₃ e rfl)) rfl rfl rfl
    exact ⟨_, _, _, _, rfl, hlinked, hchain, hfiles.trans hfiles',
      fun q f hf => (hkeep' q f hf).trans (hkeep q f hf)⟩
  · -- the entries that there are are dropped in the order in which they were made
    have hperm : (stdin.toList ++ (stdout.toList ++ (stderr.toList ++ []))).Perm
        (stderr.toList ++ (stdout.toList ++ (stdin.toList ++ []))) := by
      simp only [List.append_nil]
      refine List.perm_append_comm.trans ?_
      rw [← List.append_assoc]
      exact List.perm_append_comm.append_right _
    have hnodup := hperm.nodup_iff.mpr hnodup₃
    obtain ⟨s₄, hdrop₄, h₄, hsame₄, hfds₄⟩ :=
      dropStdio_spec (h₃.looseCongr _ fun f => hperm.mem_iff) hnodup
    obtain ⟨s₅, hdrop₅, h₅, hsame₅, hfds₅⟩ :=
      dropStdio_spec h₄ (List.nodup_append.mp hnodup).2.1
    obtain ⟨s₆, hdrop₆, h₆, hsame₆, hfds₆⟩ := dropStdio_spec h₅
      (List.nodup_append.mp (List.nodup_append.mp hnodup).2.1).2.1
    refine ⟨none, 0, s₆, [], ?_, h₆, rfl, hfiles.trans ((hsame₄.trans hsame₅).trans hsame₆),
      fun q f hf => ?_⟩
    · exact bind_eq_ok.mpr ⟨s₄, hdrop₄, bind_eq_ok.mpr ⟨s₅, hdrop₅, bind_eq_ok.mpr
        ⟨s₆, hdrop₆, rfl⟩⟩⟩
    · have hnot : f ∉ stderr.toList ++ (stdout.toList ++ (stdin.toList ++ [])) :=
        fun hmem => hloose f hmem q hf
      simp only [List.mem_append, not_or] at hnot
      rw [hfds₆ f hnot.1, hfds₅ f hnot.2.1, hfds₄ f hnot.2.2.1, hkeep q f hf]

/-- State `t` has one more target and one more file, which refers to it. -/
structure ConsoleAdded (s t : State) (g o : Nat) : Prop where
  targetFree : s.targetUsed g = false
  target_lt : g < poolSlots
  fileFree : s.fileUsed o = false
  file_lt : o < poolSlots
  fds : t.fds = s.fds
  fdUsed : t.fdUsed = s.fdUsed
  files : t.files = Function.update s.files o ⟨1, some g, o⟩
  fileUsed : t.fileUsed = Function.update s.fileUsed o true
  targets : t.targets = Function.update s.targets g ⟨2, g⟩
  targetUsed : t.targetUsed = Function.update s.targetUsed g true
  consoleOf : t.consoleOf = some o
  mm : Mm.Grown s.mm t.mm

theorem consoleInit_cases (h : consoleInit s = .ok t) : ∃ g o, ConsoleAdded s t g o := by
  unfold consoleInit fdpoolAllocFtarget at h
  split at h
  · cases h
  rename_i g s₁ htarget
  split at htarget
  · cases htarget
  rename_i g' mm hg
  simp only [Prod.mk.injEq, Option.some.injEq] at htarget
  obtain ⟨rfl, rfl⟩ := htarget
  unfold fdpoolAllocOpenfile at h
  split at h
  · cases h
  rename_i o s₂ hfile
  split at hfile
  · cases hfile
  rename_i o' mm' ho
  simp only [Prod.mk.injEq, Option.some.injEq] at hfile
  obtain ⟨rfl, rfl⟩ := hfile
  rw [Except.ok.injEq] at h
  subst h
  obtain ⟨hgfree, hglt⟩ := Mm.dpageAlloc_some hg
  obtain ⟨hofree, holt⟩ := Mm.dpageAlloc_some ho
  refine ⟨g', o', hgfree, hglt, hofree, holt, rfl, rfl, rfl, rfl, ?_, rfl, rfl,
    (Mm.dpageAlloc_grown hg).trans (Mm.dpageAlloc_grown ho)⟩
  show Function.update (Function.update s.targets g' ⟨1, g'⟩) g' _ = _
  rw [Function.update_idem]
  simp [State.setFile, State.setTarget]

/-- `console_init` keeps the counters right. -/
theorem Refs.console_init (h : Refs s heads l loose) {g o : Nat} (hadd : ConsoleAdded s t g o) :
    Refs t heads l loose := by
  have hnext : t.fdNext = s.fdNext := by
    funext f
    show (t.fds f).next = _
    rw [hadd.fds]
    rfl
  have hnew : ∀ a, s.fileUsed a = true → a ≠ o := fun a ha heq => by
    simp [heq, hadd.fileFree] at ha
  have hnewTarget : ∀ b, s.targetUsed b = true → b ≠ g := fun b hb heq => by
    simp [heq, hadd.targetFree] at hb
  have hfileRefs : ∀ a, t.fileRefs a = s.fileRefs a := fun a =>
    refs_congr (fun f => by rw [hadd.fdUsed]) fun f _ => by rw [hadd.fds]
  have htargetRefs : ∀ b, t.targetRefs b = s.targetRefs b + if some g = some b then 1 else 0 := by
    intro b
    have htake :
        refs poolSlots (Function.update s.fileUsed o true) (fun a => (t.files a).target) b =
        s.targetRefs b + if (t.files o).target = some b then 1 else 0 :=
      refs_take hadd.file_lt hadd.fileFree fun a ha => by
        rw [hadd.files, Function.update_of_ne ha]
    unfold State.targetRefs at htake ⊢
    rw [hadd.fileUsed, htake, hadd.files, Function.update_self]
  refine ⟨⟨fun f hf => ?_, fun f a hf ha => ?_, fun a ha => ?_, fun a b ha hb => ?_,
    fun b hb => ?_, fun a ha => ?_⟩, hnext ▸ h.lists, fun f => by rw [hadd.fdUsed, h.used],
    h.apart⟩
  · rw [hadd.fdUsed] at hf
    rw [hadd.fds]
    exact h.fd f hf
  · rw [hadd.fdUsed] at hf
    rw [hadd.fds] at ha
    have hused := h.of f a hf ha
    rw [hadd.fileUsed, Function.update_of_ne (hnew a hused)]
    exact hused
  · rw [hadd.fileUsed] at ha
    rw [hfileRefs, hadd.files]
    by_cases hao : a = o
    · subst hao
      -- nothing refers to a new file
      have hzero : s.fileRefs a = 0 := refs_eq_zero fun f hf hof =>
        hnew a (h.of f a hf hof) rfl
      rw [Function.update_self, hzero]
      exact ⟨hadd.file_lt, rfl, rfl⟩
    · rw [Function.update_of_ne hao] at ha ⊢
      exact h.file a ha
  · rw [hadd.fileUsed] at ha
    rw [hadd.files] at hb
    rw [hadd.targetUsed]
    by_cases hao : a = o
    · rw [hao, Function.update_self, Option.some.injEq] at hb
      rw [← hb, Function.update_self]
    · rw [Function.update_of_ne hao] at ha hb
      have hused := h.fileTarget a b ha hb
      rw [Function.update_of_ne (hnewTarget b hused)]
      exact hused
  · rw [hadd.targetUsed] at hb
    rw [htargetRefs, hadd.targets]
    by_cases hbg : b = g
    · subst hbg
      have hzero : s.targetRefs b = 0 := refs_eq_zero fun a ha htarget =>
        hnewTarget b (h.fileTarget a b ha htarget) rfl
      rw [Function.update_self, hzero, if_pos rfl]
      exact ⟨hadd.target_lt, rfl, rfl⟩
    · rw [Function.update_of_ne hbg] at hb ⊢
      rw [if_neg fun heq => hbg (Option.some.inj heq).symm, Nat.add_zero]
      exact h.target b hb
  · rw [hadd.consoleOf, Option.some.injEq] at ha
    rw [hadd.fileUsed, ← ha, Function.update_self]

/-! ## Start -/

/-- No slot of the three pools is in use. -/
structure State.Empty (s : State) : Prop where
  fds : ∀ f, s.fdUsed f = false
  files : ∀ o, s.fileUsed o = false
  targets : ∀ g, s.targetUsed g = false
  console : s.consoleOf = none

theorem State.Empty.refs (h : s.Empty) (hheads : ∀ p, heads p = none) :
    Refs s heads (fun _ => []) [] := by
  refine ⟨⟨fun f hf => ?_, fun f o hf => ?_, fun o ho => ?_, fun o g ho => ?_, fun g hg => ?_,
    fun o ho => ?_⟩, .empty _ hheads, fun f => by simp [h.fds], by simp⟩
  · simp [h.fds] at hf
  · simp [h.fds] at hf
  · simp [h.files] at ho
  · simp [h.files] at ho
  · simp [h.targets] at hg
  · simp [h.console] at ho

/-- A call of `console_init`. -/
def ConsoleStep (s : State) (_ : Unit) (t : State) : Prop := consoleInit s = .ok t

end Refs

end Unidos.Io
