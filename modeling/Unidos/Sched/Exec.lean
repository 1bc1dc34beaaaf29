import Unidos.Sched.Frame
import Unidos.Paging.Query

/-!
# Replacing the image of a process

After `kernel/sys/exec.c`. The image is linked into the kernel, and there is one path for it. A new
address space is built beside the old one, which is destroyed once the new one is loaded.
-/

namespace Unidos.Sched

open Lib

/-- `EXEC_PATH_MAX`. -/
def execPathMax : Nat := 64

/-- `EXEC_ALLOWED_PATH`, with the byte that ends it. -/
def execAllowedPath : List Byte :=
  "/bin/syscalltest".toList.map (fun c => BitVec.ofNat 8 c.toNat) ++ [0]

/-- `EXEC_CODE_VA`. -/
def execCodeVa : BitVec 32 := 0x40000000

/-- `EXEC_STACK_VA`. -/
def execStackVa : BitVec 32 := 0x40001000

/-- `EXEC_PAGE_SIZE`. -/
def execPageSize : BitVec 32 := 0x1000

/-- `path_matches_allowed`. -/
def pathMatchesAllowed : List Byte → List Byte → Bool
  | c :: path, a :: allowed =>
      if c ≠ a then false else if c = 0 then true else pathMatchesAllowed path allowed
  | _, _ => false

/-- The loop of `copyin_path_bounded` over the indices that are left. -/
def copyinPath (s : Paging.State) (userPath : Nat) :
    List Nat → Except Trap (Except Errno (List Byte))
  | [] => .ok (.error .nametoolong)
  | i :: rest => do
      let ch ← Paging.copyin s ((userPath + i) % 2 ^ 32) 1
      match ch with
      | some [ch] =>
          if ch = 0 then .ok (.ok [ch])
          else do
            let path ← copyinPath s userPath rest
            .ok (path.map (ch :: ·))
      | _ => .ok (.error .fault)

/-- `copyin_path_bounded`. -/
def copyinPathBounded (s : Paging.State) (userPath outLen : Nat) :
    Except Trap (Except Errno (List Byte)) :=
  if userPath = 0 ∨ outLen < 2 then .ok (.error .fault)
  else copyinPath s userPath (List.range outLen)

/-- `_is_user`. -/
def TrapFrame.isUser (tf : TrapFrame) : Bool := tf.cs &&& 3 == 3

/-- `_ptr_safe`. -/
def ptrSafe (ptr len : Nat) (tf : TrapFrame) : Bool :=
  if ptr = 0 then false
  else if len = 0 then true
  else
    let last := (ptr + len - 1) % 2 ^ 32
    if last < ptr then false
    else !tf.isUser || decide (ptr < kernelVirtualBase ∧ last < kernelVirtualBase)

/-- The checks of `_execve` before it takes anything: the error it returns, if any. -/
def execChecks (s : State) (image : Mm.InitialData) (tf : TrapFrame) :
    Except Trap (Option Errno) :=
  let userPath := tf.ebx.toNat
  if tf.isUser = false then .ok (some .perm)
  else if tf.ecx ≠ 0 ∨ tf.edx ≠ 0 then .ok (some .inval)
  else if ptrSafe userPath 1 tf = false then .ok (some .fault)
  else do
    let kpath ← copyinPathBounded s.mm.paging userPath execPathMax
    match kpath with
    | .error e => .ok (some e)
    | .ok kpath =>
        if pathMatchesAllowed kpath execAllowedPath = false then .ok (some .noent)
        else if image.size = 0 then .ok (some .noexec)
        else if image.size > execPageSize.toNat then .ok (some .toobig)
        else .ok none

/-- The address space for the new image: a page of code and a page of stack. `none` is a failed
allocation, after which everything taken for it is given back. -/
def stageImage (s : Mm.State) (image : Mm.InitialData) : Except Trap (Option Nat × Mm.State) := do
  let (newMm, s) ← Mm.mmCreate s
  match newMm with
  | none => .ok (none, s)
  | some m => do
      -- read, write, execute
      let (rc, s) ← Mm.mmMapRegion s (some m) execCodeVa execPageSize .text 7 (some image)
      if rc ≠ 0 then do
        let s ← Mm.mmDestroy s (some m)
        .ok (none, s)
      else do
        -- read, write
        let (rc, s) ← Mm.mmMapRegion s (some m) execStackVa execPageSize .stack 3 none
        if rc ≠ 0 then do
          let s ← Mm.mmDestroy s (some m)
          .ok (none, s)
        else .ok (some m, s)

/-- The trap frame that the new image starts from. -/
def TrapFrame.started (tf : TrapFrame) : TrapFrame :=
  { tf with
    userEsp := execStackVa + execPageSize - 16
    userSs := 0x20 ||| 3
    cs := 0x18 ||| 3
    ds := 0x20 ||| 3
    es := 0x20 ||| 3
    fs := 0x20 ||| 3
    gs := 0x20 ||| 3
    eip := execCodeVa
    eax := 0
    ebx := 0
    ecx := 0
    edx := 0
    esi := 0
    edi := 0
    ebp := 0 }

/-- The commit of `_execve`: process `p` gets address space `m`, and its old one is destroyed. -/
def commitImage (s : State) (p m : Nat) : Except Trap State := do
  let oldMm := (s.procs p).addrSpace
  let s := s.setAddrSpace p (some m)
  let mm ← Mm.mmDestroy (Mm.mmSwitch s.mm (some m)) oldMm
  .ok (s.withMm mm)

/-- `_execve`: the value it returns, and the trap frame it leaves. -/
def execve (s : State) (image : Mm.InitialData) (tf : TrapFrame) :
    Except Trap (Int × TrapFrame × State) := do
  let refused ← execChecks s image tf
  match refused with
  | some e => .ok (-e.code, tf, s)
  | none => do
      let (newMm, mm) ← stageImage s.mm image
      let s := s.withMm mm
      match newMm with
      | none => .ok (-Errno.nomem.code, tf, s)
      | some m =>
          match schedCurrentProcess s with
          | none => .error .fault
          | some p =>
              if tf.isUser = false then .ok (-Errno.inval.code, tf, s)
              else do
                let s ← commitImage s p m
                .ok (0, tf.started, s)

/-! ## What it can do -/

section Cases

variable {s s' : State} {image : Mm.InitialData} {tf tf' : TrapFrame}

/-- How a call of `_execve` can end. -/
theorem execve_cases {r : Int} (h : execve s image tf = .ok (r, tf', s')) :
    (∃ e, execChecks s image tf = .ok (some e) ∧ r = -e.code ∧ tf' = tf ∧ s' = s) ∨
    (execChecks s image tf = .ok none ∧ ∃ mm, stageImage s.mm image = .ok (none, mm) ∧
      r = -Errno.nomem.code ∧ tf' = tf ∧ s' = s.withMm mm) ∨
    (execChecks s image tf = .ok none ∧ ∃ m mm p, stageImage s.mm image = .ok (some m, mm) ∧
      schedCurrentProcess s = some p ∧ commitImage (s.withMm mm) p m = .ok s' ∧ r = 0 ∧
      tf' = tf.started) := by
  obtain ⟨refused, hchecks, h⟩ := bind_eq_ok.mp h
  split at h
  · rename_i e
    simp only [Except.ok.injEq, Prod.mk.injEq] at h
    exact .inl ⟨e, hchecks, h.1.symm, h.2.1.symm, h.2.2.symm⟩
  obtain ⟨⟨newMm, mm⟩, hstage, h⟩ := bind_eq_ok.mp h
  simp only at h
  split at h
  · simp only [Except.ok.injEq, Prod.mk.injEq] at h
    exact .inr (.inl ⟨hchecks, mm, hstage, h.1.symm, h.2.1.symm, h.2.2.symm⟩)
  rename_i m
  split at h
  · cases h
  rename_i p hp
  have huser : tf.isUser = true := by
    by_contra hno
    have hfalse : tf.isUser = false := by simpa using hno
    simp [execChecks, hfalse] at hchecks
  rw [if_neg (by simp [huser])] at h
  obtain ⟨s₁, hcommit, h⟩ := bind_eq_ok.mp h
  simp only [Except.ok.injEq, Prod.mk.injEq] at h
  obtain ⟨hr, htf, rfl⟩ := h
  exact .inr (.inr ⟨hchecks, m, mm, p, hstage, hp, hcommit, hr.symm, htf.symm⟩)

/-- What the commit does. -/
theorem commitImage_cases {p m : Nat} (h : commitImage s p m = .ok s') :
    ∃ mm, Mm.mmDestroy (Mm.mmSwitch s.mm (some m)) (s.procs p).addrSpace = .ok mm ∧
      s' = (s.setAddrSpace p (some m)).withMm mm := by
  obtain ⟨mm, hdestroy, h⟩ := bind_eq_ok.mp h
  exact ⟨mm, hdestroy, (Except.ok.inj h).symm⟩

theorem execve_modifies {r : Int} (h : execve s image tf = .ok (r, tf', s')) :
    Modifies [.space, .mm] s s' := by
  obtain ⟨e, -, -, -, rfl⟩ | ⟨-, mm, -, -, -, rfl⟩ | ⟨-, m, mm, p, -, -, hcommit, -, -⟩ :=
    execve_cases h
  · exact Modifies.refl _ _
  · exact (modifies_mm s mm).mono (by decide)
  · obtain ⟨mm', -, rfl⟩ := commitImage_cases hcommit
    exact (((modifies_mm s mm).trans (modifies_addrSpace _ p _)).trans (modifies_mm _ mm')).mono
      (by decide)

end Cases

end Unidos.Sched
