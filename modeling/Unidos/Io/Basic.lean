import Unidos.Mm.Basic

/-!
# Open files and descriptors

After `kernel/io/fdpool.c`, `openfile.c`, `fdman.c`, and `console.c`. Descriptor entries, open
files, and file targets are records in three demand-paged pools; a pointer to a record is the
number of its slot. The hooks of the console's objects do nothing and are left out, and so is all
data that only reading and writing uses.
-/

namespace Unidos.Io

open Lib

/-- `fd_entry_t`. -/
structure FdEntry where
  fdId : Nat
  of : Option Nat
  next : Option Nat
  localId : Nat
  deriving DecidableEq

/-- `open_file_t`. -/
structure OpenFile where
  refcount : Nat
  target : Option Nat
  poolId : Nat
  deriving DecidableEq

/-- `file_target_t`. -/
structure FileTarget where
  refcount : Nat
  poolId : Nat
  deriving DecidableEq

/-- The three pools over the address spaces, with `consoles[0]`. -/
structure State where
  mm : Mm.State
  fds : Nat → FdEntry
  fdUsed : Nat → Bool
  files : Nat → OpenFile
  fileUsed : Nat → Bool
  targets : Nat → FileTarget
  targetUsed : Nat → Bool
  consoleOf : Option Nat

/-- The number of slots in each of the three pools: one bitmap page. -/
def poolSlots : Nat := 4096 * 8

/-- Replace a descriptor entry. -/
def State.setFd (s : State) (f : Nat) (fd : FdEntry) : State :=
  { s with fds := Function.update s.fds f fd }

/-- Replace an open file. -/
def State.setFile (s : State) (o : Nat) (file : OpenFile) : State :=
  { s with files := Function.update s.files o file }

/-- Replace a file target. -/
def State.setTarget (s : State) (g : Nat) (target : FileTarget) : State :=
  { s with targets := Function.update s.targets g target }

/-! ## Reference counts -/

/-- `file_target_get`. -/
def fileTargetGet (s : State) (target : Option Nat) : State :=
  match target with
  | none => s
  | some g => s.setTarget g
      { s.targets g with refcount := ((s.targets g).refcount + 1) % 2 ^ 32 }

/-- `fdpool_free_ftarget`. -/
def fdpoolFreeFtarget (s : State) (g : Nat) : State :=
  { s.setTarget g ⟨0, 0⟩ with
    targetUsed := Mm.dpageBmClear s.targetUsed poolSlots (s.targets g).poolId }

/-- `file_target_put`. -/
def fileTargetPut (s : State) (target : Option Nat) : Except Trap State :=
  match target with
  | none => .ok s
  | some g =>
      if (s.targets g).refcount = 0 then .error (.panic "file_target_put: refcount underflow")
      else
        let s := s.setTarget g { s.targets g with refcount := (s.targets g).refcount - 1 }
        if (s.targets g).refcount = 0 then .ok (fdpoolFreeFtarget s g) else .ok s

/-- `open_file_get`. -/
def openFileGet (s : State) (of : Option Nat) : State :=
  match of with
  | none => s
  | some o => s.setFile o { s.files o with refcount := ((s.files o).refcount + 1) % 2 ^ 32 }

/-- `fdpool_free_openfile`. -/
def fdpoolFreeOpenfile (s : State) (o : Nat) : State :=
  { s.setFile o ⟨0, none, 0⟩ with
    fileUsed := Mm.dpageBmClear s.fileUsed poolSlots (s.files o).poolId }

/-- `open_file_put`. -/
def openFilePut (s : State) (of : Option Nat) : Except Trap State :=
  match of with
  | none => .ok s
  | some o =>
      if (s.files o).refcount = 0 then .error (.panic "open_file_put: refcount underflow")
      else
        let s := s.setFile o { s.files o with refcount := (s.files o).refcount - 1 }
        if (s.files o).refcount = 0 then do
          let s ← fileTargetPut s (s.files o).target
          .ok (fdpoolFreeOpenfile s o)
        else .ok s

/-! ## Pool slots -/

/-- `fdpool_alloc_ftarget`. -/
def fdpoolAllocFtarget (s : State) : Option Nat × State :=
  match Mm.dpageAlloc s.targetUsed poolSlots s.mm with
  | (none, mm) => (none, { s with mm := mm })
  | (some g, mm) =>
      (some g, { s.setTarget g ⟨1, g⟩ with
        mm := mm
        targetUsed := Function.update s.targetUsed g true })

/-- `fdpool_alloc_openfile`. -/
def fdpoolAllocOpenfile (s : State) (target : Option Nat) : Option Nat × State :=
  match Mm.dpageAlloc s.fileUsed poolSlots s.mm with
  | (none, mm) => (none, { s with mm := mm })
  | (some o, mm) =>
      let s := { s.setFile o ⟨1, target, o⟩ with
        mm := mm
        fileUsed := Function.update s.fileUsed o true }
      (some o, fileTargetGet s target)

/-- `fdpool_alloc_fdentry`. -/
def fdpoolAllocFdentry (s : State) (of : Option Nat) : Option Nat × State :=
  match Mm.dpageAlloc s.fdUsed poolSlots s.mm with
  | (none, mm) => (none, { s with mm := mm })
  | (some f, mm) =>
      (some f, { s.setFd f ⟨f, of, none, 0⟩ with
        mm := mm
        fdUsed := Function.update s.fdUsed f true })

/-- `fdpool_free_fdentry`. -/
def fdpoolFreeFdentry (s : State) (f : Nat) : State :=
  { s.setFd f ⟨0, none, none, 0⟩ with
    fdUsed := Mm.dpageBmClear s.fdUsed poolSlots (s.fds f).fdId }

/-! ## Descriptor lists -/

/-- The links of the descriptor lists. -/
def State.fdNext (s : State) (f : Nat) : Option Nat := (s.fds f).next

/-- Drop every entry from `fd` on, and the reference that each holds: the loop of
`sched_proc_cleanup_fds`, and the one that undoes a half-made copy. -/
def dropFds : Nat → Option Nat → State → Except Trap State
  | _, none, s => .ok s
  | 0, some _, _ => .error .diverge
  | fuel + 1, some f, s => do
      let next := s.fdNext f
      let s ← openFilePut s (s.fds f).of
      dropFds fuel next (fdpoolFreeFdentry s f)

/-- The loop of `fde_fork_copy`, with the list copied so far. -/
def forkCopy : Nat → Option Nat → Option Nat → Option Nat → State →
    Except Trap (Option Nat × State)
  | _, none, head, _, s => .ok (head, s)
  | 0, some _, _, _, _ => .error .diverge
  | fuel + 1, some src, head, tail, s =>
      match fdpoolAllocFdentry s (s.fds src).of with
      | (none, s) => do
          let s ← dropFds poolSlots head s
          .ok (none, s)
      | (some copy, s) =>
          let s := s.setFd copy { s.fds copy with
            of := (s.fds src).of
            localId := (s.fds src).localId }
          let s := openFileGet s (s.fds copy).of
          match tail with
          | none => forkCopy fuel (s.fdNext src) (some copy) (some copy) s
          | some last =>
              let s := s.setFd last { s.fds last with next := some copy }
              forkCopy fuel (s.fdNext src) head (some copy) s

/-- `fde_fork_copy`. -/
def fdeForkCopy (s : State) (src : Option Nat) : Except Trap (Option Nat × State) :=
  forkCopy poolSlots src none none s

/-! ## The console -/

/-- `console_init`. -/
def consoleInit (s : State) : Except Trap State :=
  match fdpoolAllocFtarget s with
  | (none, _) => .error (.panic "failed to allocate file target for console")
  | (some g, s) =>
      match fdpoolAllocOpenfile s (some g) with
      | (none, _) => .error (.panic "failed to allocate openfile for console")
      | (some o, s) => .ok { s with consoleOf := some o }

/-- One descriptor for the console, with the reference it holds. -/
def stdioEntry (s : State) : Option Nat × State :=
  match fdpoolAllocFdentry s s.consoleOf with
  | (none, s) => (none, s)
  | (some f, s) => (some f, openFileGet s s.consoleOf)

/-- Give back a descriptor that `stdioEntry` may have made. -/
def dropStdio (s : State) (fd : Option Nat) : Except Trap State :=
  match fd with
  | none => .ok s
  | some f => do
      let s ← openFilePut s (s.fds f).of
      .ok (fdpoolFreeFdentry s f)

/-- The part of `proc_alloc` that gives a root process its three descriptors: the list, and its
length. -/
def stdioBootstrap (s : State) : Except Trap (Option Nat × Nat × State) :=
  let (stdin, s) := stdioEntry s
  let (stdout, s) := stdioEntry s
  let (stderr, s) := stdioEntry s
  match stdin, stdout, stderr with
  | some i, some o, some e =>
      let s := s.setFd i { s.fds i with next := some o, localId := 0 }
      let s := s.setFd o { s.fds o with next := some e, localId := 1 }
      let s := s.setFd e { s.fds e with localId := 2 }
      .ok (some i, 3, s)
  | _, _, _ => do
      let s ← dropStdio s stdin
      let s ← dropStdio s stdout
      let s ← dropStdio s stderr
      .ok (none, 0, s)

end Unidos.Io
