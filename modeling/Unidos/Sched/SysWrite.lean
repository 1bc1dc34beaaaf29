import Unidos.Lib.Errors
import Unidos.Sched.Exec
import Unidos.Uaccess.Copy

/-!
# The system call `write`

After `kernel/sys/write.c`, with `open_file_write` of `kernel/io/openfile.c`. The call copies the
user buffer in by chunks and hands each chunk to the write function of the file's target. It stops
at the first error, or at a short write. The write function is a parameter: it works on data of its
own, and may accept any part of what it is given. `write_accounting` says that the value returned,
the offset of the file, and the bytes that were accepted agree, whatever stops the loop.
-/

namespace Unidos.Sched

open Lib

/-- `io_ops.write` of a target with data `δ`: the buffer and the offset it is called with, and what
it returns. -/
abbrev WriteFn (δ : Type) := δ → List Byte → BitVec 64 → Int × δ

/-- What writing looks at in an `open_file_t`: whether it has a target, the write function of the
target and its data, and the offset. -/
structure OutFile (δ : Type) where
  hasTarget : Bool
  write : Option (WriteFn δ)
  device : δ
  offset : BitVec 64

/-- A call of the write function. -/
structure WriteCall where
  bytes : List Byte
  offset : BitVec 64
  ret : Int

/-- The steps of the loop: `copyin` and `open_file_write`, with the error of each, and with the call
of the write function if there was one. -/
inductive WriteStep where
  | copyin (err : Int)
  | write (err : Int) (call : Option WriteCall)

/-- What the loop returns, the file it leaves, and the steps it made. -/
structure WriteResult (δ : Type) where
  written : Int
  err : Int
  file : OutFile δ
  steps : List WriteStep

/-- `EBADF`. -/
def ebadf : Int := 9

/-- `ENOSYS`. -/
def enosys : Int := 38

/-- `EBADFD`. -/
def ebadfd : Int := 77

/-- `COPYIN_BUF_SIZE`. -/
def copyinBufSize : Nat := 128

section Model

variable {δ : Type}

/-- `open_file_write`: the value returned, the error, the file, and the call it made. -/
def openFileWrite (of : OutFile δ) (buffer : List Byte) (offset : BitVec 64) :
    Int × Int × OutFile δ × Option WriteCall :=
  if of.hasTarget = false then (0, ebadfd, of, none)
  else
    match of.write with
    | none => (0, enosys, of, none)
    | some write =>
        let (res, device) := write of.device buffer offset
        let of := { of with device := device }
        if res < 0 then (0, -res, of, some ⟨buffer, offset, res⟩)
        else (res, 0, of, some ⟨buffer, offset, res⟩)

/-- The loop of `__write_copyin`, with `remaining` bytes to go after the first `offset`. -/
def writeLoop (s : Paging.State) (str : Nat) :
    Nat → Nat → Nat → OutFile δ → Except Trap (WriteResult δ)
  | _, 0, offset, of => .ok ⟨offset, 0, of, []⟩
  | 0, _ + 1, _, _ => .error .diverge
  | fuel + 1, remaining + 1, offset, of => do
      let chunk := min (remaining + 1) copyinBufSize
      let buf ← Paging.copyin s ((str + offset) % 2 ^ 32) chunk
      match buf with
      | none => .ok ⟨offset, Errno.fault.code, of, [.copyin Errno.fault.code]⟩
      | some buf =>
          let (res, err, of, call) := openFileWrite of buf of.offset
          let steps := [.copyin 0, .write err call]
          let count := if res > 0 then res else 0
          if err ≠ 0 then .ok ⟨offset + count, err, of, steps⟩
          else if res ≠ chunk then
            .ok ⟨offset + count, 0, { of with offset := of.offset + BitVec.ofInt 64 count }, steps⟩
          else do
            let of := { of with offset := of.offset + BitVec.ofNat 64 chunk }
            let r ← writeLoop s str fuel (remaining + 1 - chunk) (offset + chunk) of
            .ok { r with steps := steps ++ r.steps }

/-- `__write_copyin`. Every round takes at least one byte off `len`. -/
def writeCopyin (s : Paging.State) (str len : Nat) (of : OutFile δ) :
    Except Trap (WriteResult δ) := writeLoop s str len len 0 of

/-- `_ptr_range_safe`. -/
def ptrRangeSafe (ptr len : Nat) (tf : TrapFrame) : Bool :=
  if len = 0 then false
  else if (ptr + len) % 2 ^ 32 < ptr then false
  else !tf.isUser ||
    (decide (ptr < kernelVirtualBase) && decide ((ptr + len) % 2 ^ 32 < kernelVirtualBase))

/-- `sched_get_proc_local_fd`: the open file behind a descriptor. -/
def schedGetProcLocalFd (s : State) (p : Nat) (localFd : Int) : Except Trap (Option Nat) :=
  match walk (fun f => (s.io.fds f).next) (fun f => ((s.io.fds f).localId : Int) == localFd)
      Io.poolSlots (s.procs p).fdList with
  | none => .error .diverge
  | some none => .ok none
  | some (some f) => .ok (s.io.fds f).of

/-- The checks of `_write`: the value it returns at once, or the open file it writes to. -/
def writeChecks (s : State) (tf : TrapFrame) : Except Trap (Int ⊕ Nat) :=
  let str := tf.esi.toNat
  let len := tf.edx.toNat
  if str = 0 then .ok (.inl (-Errno.fault.code))
  else if len = 0 then .ok (.inl 0)
  else if ptrRangeSafe str len tf = false then .ok (.inl (-Errno.fault.code))
  else
    match schedCurrentProcess s with
    | none => .ok (.inl (-Errno.fault.code))
    | some proc => do
        let out ← schedGetProcLocalFd s proc tf.ebx.toInt
        match out with
        | none => .ok (.inl (-ebadf))
        | some out => .ok (.inr out)

/-- `_write`, with what the open files are for writing. -/
def sysWrite (s : State) (tf : TrapFrame) (files : Nat → OutFile δ) :
    Except Trap (Int × (Nat → OutFile δ)) := do
  let checked ← writeChecks s tf
  match checked with
  | .inl ret => .ok (ret, files)
  | .inr out => do
      let r ← writeCopyin s.mm.paging tf.esi.toNat tf.edx.toNat (files out)
      let ret := if r.written > 0 then r.written else if r.err ≠ 0 then -r.err else 0
      .ok (ret, Function.update files out r.file)

end Model

/-- What the kernel says of a page table out of reach of the window. -/
def windowPanic : Trap := .panic "Virtual address overflow at physwin translation"

/-! ## The story of a call -/

/-- The bytes that a call of the write function accepted: none if it returned an error. -/
def WriteCall.accepted (c : WriteCall) : List Byte := c.bytes.take c.ret.toNat

/-- The error of a step. -/
def WriteStep.err : WriteStep → Int
  | .copyin err => err
  | .write err _ => err

/-- The call of a step. -/
def WriteStep.call : WriteStep → Option WriteCall
  | .copyin _ => none
  | .write _ call => call

/-- All bytes accepted, in order. -/
def acceptedBytes (steps : List WriteStep) : List Byte :=
  (steps.filterMap WriteStep.call).flatMap WriteCall.accepted

/-- The error of the first step that failed, 0 if there was none. -/
def firstError (steps : List WriteStep) : Int :=
  ((steps.map WriteStep.err).find? (· != 0)).getD 0

/-- Each call is made at the offset that the bytes accepted before have led to. -/
def Consecutive : BitVec 64 → List WriteCall → Prop
  | _, [] => True
  | offset, c :: calls => c.offset = offset ∧
      Consecutive (offset + BitVec.ofNat 64 c.accepted.length) calls

/-- The bytes are those at the virtual address `va`, as read through the loaded directory. -/
def BytesAt (s : Paging.State) (va : Nat) (bytes : List Byte) : Prop :=
  ∀ k b, bytes[k]? = some b → Paging.loadByte s (va + k) = .ok b

/-- The write function returns an error, or a count that is at most the length given. -/
def Honest {δ : Type} (of : OutFile δ) : Prop :=
  ∀ write, of.write = some write → ∀ device bytes offset,
    (write device bytes offset).1 ≤ bytes.length

/-- The books of a loop that starts after the first `offset` bytes with `remaining` to go: `n` bytes
were accepted, they are the next bytes of the buffer, they were presented at consecutive offsets,
the offset of the file has grown by `n`, and the error is that of the first step that failed. -/
structure Accounted {δ : Type} (s : Paging.State) (str remaining offset : Nat) (of : OutFile δ)
    (r : WriteResult δ) (n : Nat) : Prop where
  written : r.written = offset + n
  le : n ≤ remaining
  length : (acceptedBytes r.steps).length = n
  bytes : BytesAt s (str + offset) (acceptedBytes r.steps)
  calls : Consecutive of.offset (r.steps.filterMap WriteStep.call)
  offset : r.file.offset = of.offset + BitVec.ofNat 64 n
  err : r.err = firstError r.steps

section Steps

variable (err : Int) (c : WriteCall) (steps : List WriteStep)

@[simp] theorem acceptedBytes_nil : acceptedBytes [] = [] := rfl

@[simp] theorem acceptedBytes_copyin : acceptedBytes (.copyin err :: steps) = acceptedBytes steps :=
  rfl

@[simp] theorem acceptedBytes_none :
    acceptedBytes (.write err none :: steps) = acceptedBytes steps := rfl

@[simp] theorem acceptedBytes_some :
    acceptedBytes (.write err (some c) :: steps) = c.accepted ++ acceptedBytes steps := rfl

@[simp] theorem firstError_nil : firstError [] = 0 := rfl

theorem firstError_cons (step : WriteStep) :
    firstError (step :: steps) = if step.err = 0 then firstError steps else step.err := by
  unfold firstError
  rw [List.map_cons, List.find?_cons]
  by_cases h : step.err = 0
  · simp [h]
  · rw [if_neg h, bne_iff_ne.mpr h]
    rfl

end Steps

section Bytes

variable {s : Paging.State} {va : Nat} {bytes bytes' : List Byte}

theorem BytesAt.nil (s : Paging.State) (va : Nat) : BytesAt s va [] := by
  intro k b h
  simp at h

theorem BytesAt.take (h : BytesAt s va bytes) (n : Nat) : BytesAt s va (bytes.take n) := by
  intro k b hb
  rw [List.getElem?_take] at hb
  split at hb
  · exact h k b hb
  · cases hb

theorem BytesAt.append (h : BytesAt s va bytes) (h' : BytesAt s (va + bytes.length) bytes') :
    BytesAt s va (bytes ++ bytes') := by
  intro k b hb
  rw [List.getElem?_append] at hb
  split at hb
  · exact h k b hb
  · rename_i hk
    have hload := h' _ b hb
    rwa [Nat.add_assoc, Nat.add_sub_cancel' (Nat.le_of_not_lt hk)] at hload

end Bytes

/-! ## Reading the buffer -/

section Copyin

variable {s : Paging.State} {usrc n : Nat}

theorem rangeCheckUser_eq (usrc n : Nat) :
    Paging.rangeCheckUser usrc n = Uaccess.rangeCheck usrc n true := by
  simp [Paging.rangeCheckUser, Uaccess.rangeCheck]

/-- The bytes that `copyin` delivers. -/
theorem copyin_some {bytes : List Byte} (hpos : 0 < n) (hn : n < 2 ^ 32) (husrc : usrc < 2 ^ 32)
    (h : Paging.copyin s usrc n = .ok (some bytes)) :
    usrc + n ≤ kernelVirtualBase ∧ bytes.length = n ∧ BytesAt s usrc bytes := by
  unfold Paging.copyin at h
  split at h
  · cases h
  rw [if_neg (Nat.ne_of_gt hpos)] at h
  split at h
  · cases h
  rename_i hrange
  obtain ⟨ok, -, h⟩ := bind_eq_ok.mp h
  split at h
  · cases h
  obtain ⟨bytes', hbytes, h⟩ := bind_eq_ok.mp h
  obtain rfl := Option.some.inj (Except.ok.inj h)
  obtain ⟨hlen, hget⟩ := mapM_eq_ok hbytes
  refine ⟨?_, by rw [hlen, List.length_range], fun k b hb => ?_⟩
  · rw [Bool.not_eq_false] at hrange
    exact (Uaccess.rangeCheck_user husrc hpos hn).mp (rangeCheckUser_eq usrc n ▸ hrange)
  · obtain ⟨a, ha, hload⟩ := hget k b hb
    obtain ⟨hk, rfl⟩ := List.getElem?_eq_some_iff.mp ha
    rwa [List.getElem_range] at hload

/-- The query of a page finds what the processor finds. -/
theorem loadByte_of_query {va va' : Nat} {res : Paging.QueryResult} (hpage : va / 4096 = va' / 4096)
    (h : Paging.pagingQueryPage s va = .ok (.ok, res)) : ∃ b, Paging.loadByte s va' = .ok b := by
  have hpdi : va / 2 ^ 22 = va' / 2 ^ 22 := by omega
  unfold Paging.pagingQueryPage at h
  split at h
  · cases h
  obtain ⟨pd, hpd, h⟩ := bind_eq_ok.mp h
  rw [Paging.physToVirt_eq_ok hpd] at h
  dsimp only at h
  split at h
  · cases h
  rename_i hdir
  obtain ⟨pt, hpt, h⟩ := bind_eq_ok.mp h
  rw [Paging.physToVirt_eq_ok hpt] at h
  split at h
  · cases h
  rename_i htable
  unfold Paging.loadByte
  dsimp only
  rw [← hpdi, ← hpage, if_pos]
  · exact ⟨_, rfl⟩
  · rw [Bool.not_eq_false] at hdir htable
    rw [hdir, htable]
    rfl

/-- The query of a page answers, or the kernel stops. -/
theorem pagingQueryPage_raises (va : Nat) :
    Raises (fun e => e = windowPanic ∧ ¬ Uaccess.InWindow s) (Paging.pagingQueryPage s va) := by
  have hpanic : ∀ addr, Raises (fun e => e = windowPanic) (physToVirt addr) := by
    intro addr
    unfold physToVirt
    split
    · exact raises_error.mpr rfl
    · exact raises_ok _
  intro e he
  constructor
  · revert e
    change Raises (fun e => e = windowPanic) (Paging.pagingQueryPage s va)
    unfold Paging.pagingQueryPage
    split
    · exact raises_ok _
    refine (hpanic _).bind fun pd _ => ?_
    dsimp only
    split
    · exact raises_ok _
    refine (hpanic _).bind fun pt _ => ?_
    split
    · exact raises_ok _
    · exact raises_ok _
  · intro hwindow
    by_cases hinit : s.pageDirectoryLocPhys = 0
    · rw [Paging.pagingQueryPage, if_pos hinit] at he
      cases he
    · rw [Uaccess.pagingQueryPage_eq hinit hwindow] at he
      cases he

/-- The loop over the pages of a buffer. -/
theorem userPages_raises (pages : List Nat) :
    Raises (fun e => e = windowPanic ∧ ¬ Uaccess.InWindow s) (Paging.userPages s pages) ∧
      (Paging.userPages s pages = .ok true →
        ∀ va ∈ pages, ∀ va', va / 4096 = va' / 4096 → ∃ b, Paging.loadByte s va' = .ok b) := by
  induction pages with
  | nil => exact ⟨raises_ok _, fun _ va hva => by simp at hva⟩
  | cons va pages ih =>
      constructor
      · refine ((pagingQueryPage_raises va).bind fun _ _ => raises_ok _).bind fun ok _ => ?_
        split
        · exact ih.1
        · exact raises_ok _
      · intro h
        obtain ⟨ok, hok, h⟩ := bind_eq_ok.mp h
        split at h
        · rename_i htrue
          obtain ⟨⟨status, res⟩, hquery, hok⟩ := bind_eq_ok.mp hok
          have hstatus : status = .ok := by
            simp only [Except.ok.injEq] at hok
            rw [← hok] at htrue
            simp only [Bool.and_eq_true, decide_eq_true_eq] at htrue
            exact htrue.1.1
          subst hstatus
          intro x hx x' hpage
          obtain rfl | hx := List.mem_cons.mp hx
          · exact loadByte_of_query hpage hquery
          · exact ih.2 h x hx x' hpage
        · cases h

/-- `copyin` returns, or the kernel stops at a page table that the window does not reach. -/
theorem copyin_raises (hn : n < 2 ^ 32) (husrc : usrc < 2 ^ 32) :
    Raises (fun e => e = windowPanic ∧ ¬ Uaccess.InWindow s) (Paging.copyin s usrc n) := by
  unfold Paging.copyin
  split
  · exact raises_ok _
  split
  · exact raises_ok _
  split
  · exact raises_ok _
  rename_i hpos hrange
  have hend : usrc + n ≤ kernelVirtualBase := by
    rw [Bool.not_eq_false] at hrange
    exact (Uaccess.rangeCheck_user husrc (Nat.pos_of_ne_zero hpos) hn).mp
      (rangeCheckUser_eq usrc n ▸ hrange)
  refine (userPages_raises _).1.bind fun ok hok => ?_
  split
  · exact raises_ok _
  rename_i htrue
  rw [Bool.not_eq_false] at htrue
  refine (Raises.mapM fun k hk => ?_).bind fun _ _ => raises_ok _
  rw [List.mem_range] at hk
  obtain ⟨b, hb⟩ := (userPages_raises _).2 (htrue ▸ hok) _
    (List.mem_map.mpr ⟨(usrc + k) / 4096 - usrc / 4096, List.mem_range.mpr (by omega), rfl⟩)
    (usrc + k) (by omega)
  rw [hb]
  exact raises_ok b

end Copyin

/-! ## The loop -/

section Loop

variable {δ : Type} {s : Paging.State} {str : Nat} {of : OutFile δ}

/-- What `open_file_write` can do. An error leaves no byte accepted. -/
theorem openFileWrite_cases (hhonest : Honest of) (buf : List Byte) (offset : BitVec 64) :
    ∃ device, (∃ err call,
        openFileWrite of buf offset = (0, err, { of with device := device }, call) ∧
          err ≠ 0 ∧ ∀ c ∈ call, c.accepted = [] ∧ c.offset = offset) ∨
      ∃ count : Nat, count ≤ buf.length ∧ openFileWrite of buf offset =
        ((count : Int), 0, { of with device := device }, some ⟨buf, offset, count⟩) := by
  unfold openFileWrite
  split
  · exact ⟨of.device, .inl ⟨ebadfd, none, rfl, by decide, by simp⟩⟩
  split
  · exact ⟨of.device, .inl ⟨enosys, none, rfl, by decide, by simp⟩⟩
  rename_i write hwrite
  have hle := hhonest write hwrite of.device buf offset
  generalize write of.device buf offset = ret at hle
  obtain ⟨res, device⟩ := ret
  dsimp only at hle ⊢
  refine ⟨device, ?_⟩
  split
  · rename_i hneg
    refine .inl ⟨-res, some ⟨buf, offset, res⟩, rfl, by omega, fun c hc => ?_⟩
    obtain rfl := Option.some.inj hc
    rw [WriteCall.accepted, Int.toNat_of_nonpos (show res ≤ 0 by omega), List.take_zero]
    exact ⟨rfl, rfl⟩
  · obtain ⟨count, rfl⟩ := Int.eq_ofNat_of_zero_le (show 0 ≤ res by omega)
    exact .inr ⟨count, by omega, rfl⟩

/-- The size of the next chunk. -/
theorem chunk_bounds (remaining : Nat) : 0 < min (remaining + 1) copyinBufSize ∧
    min (remaining + 1) copyinBufSize ≤ remaining + 1 ∧
      min (remaining + 1) copyinBufSize < 2 ^ 32 :=
  ⟨Nat.lt_min.mpr ⟨Nat.succ_pos _, by decide⟩, Nat.min_le_left _ _,
    Nat.lt_of_le_of_lt (Nat.min_le_right _ _) (by decide)⟩

/-- The loop ends: it returns, or the kernel stops. -/
theorem writeLoop_raises (fuel : Nat) : ∀ remaining offset (of : OutFile δ), remaining ≤ fuel →
    Raises (fun e => e = windowPanic ∧ ¬ Uaccess.InWindow s)
      (writeLoop s str fuel remaining offset of) := by
  induction fuel with
  | zero =>
      intro remaining offset of hle
      obtain rfl := Nat.le_zero.mp hle
      exact raises_ok _
  | succ fuel ih =>
      intro remaining offset of hle
      cases remaining with
      | zero => exact raises_ok _
      | succ remaining =>
          unfold writeLoop
          dsimp only
          obtain ⟨hpos, -, hlt⟩ := chunk_bounds remaining
          generalize min (remaining + 1) copyinBufSize = chunk at hpos hlt
          refine (copyin_raises hlt (Nat.mod_lt _ (by decide))).bind fun buf _ => ?_
          cases buf with
          | none => exact raises_ok _
          | some buf =>
              dsimp only
              split
              · exact raises_ok _
              split
              · exact raises_ok _
              exact (ih _ _ _ (by omega)).bind fun _ _ => raises_ok _

/-- What a round of the loop can do: it stops at an error with nothing accepted, or it has some of
the next chunk accepted, and goes on if it was all of it. -/
theorem writeLoop_cases {fuel remaining offset : Nat} {r : WriteResult δ} (hhonest : Honest of)
    (hstr : str + offset < 2 ^ 32)
    (h : writeLoop s str (fuel + 1) (remaining + 1) offset of = .ok r) :
    (∃ device err steps, err ≠ 0 ∧ r = ⟨offset, err, { of with device := device }, steps⟩ ∧
      firstError steps = err ∧ acceptedBytes steps = [] ∧
      Consecutive of.offset (steps.filterMap WriteStep.call)) ∨
    ∃ buf device, ∃ count : Nat, ∃ chunk ≤ remaining + 1, count ≤ chunk ∧ buf.length = chunk ∧
      BytesAt s (str + offset) buf ∧ str + offset + chunk < 2 ^ 32 ∧
      ((count < chunk ∧ r = ⟨offset + count, 0, { of with
          device := device
          offset := of.offset + BitVec.ofNat 64 count },
          [.copyin 0, .write 0 (some ⟨buf, of.offset, count⟩)]⟩) ∨
        count = chunk ∧ ∃ r', writeLoop s str fuel (remaining + 1 - chunk) (offset + chunk)
            { of with
              device := device
              offset := of.offset + BitVec.ofNat 64 chunk } = .ok r' ∧
          r = { r' with
            steps := [.copyin 0, .write 0 (some ⟨buf, of.offset, count⟩)] ++ r'.steps }) := by
  unfold writeLoop at h
  dsimp only at h
  obtain ⟨hpos, hle, hlt⟩ := chunk_bounds remaining
  generalize min (remaining + 1) copyinBufSize = chunk at hpos hle hlt h
  rw [Nat.mod_eq_of_lt hstr] at h
  obtain ⟨buf, hcopy, h⟩ := bind_eq_ok.mp h
  cases buf with
  | none =>
      obtain rfl := Except.ok.inj h
      exact .inl ⟨of.device, _, _, by decide, rfl, by decide, rfl, trivial⟩
  | some buf =>
      obtain ⟨hend, hlen, hbytes⟩ := copyin_some hpos hlt hstr hcopy
      obtain ⟨device, ⟨err, call, hwrite, herr, hcall⟩ | ⟨count, hcount, hwrite⟩⟩ :=
        openFileWrite_cases hhonest buf of.offset
      · dsimp only at h
        rw [hwrite] at h
        dsimp only at h
        rw [if_pos herr] at h
        obtain rfl := Except.ok.inj h
        refine .inl ⟨device, err, [.copyin 0, .write err call], herr, by simp,
          by simp [firstError_cons, WriteStep.err, herr], ?_, ?_⟩
        · cases call with
          | none => rfl
          | some c => simp [(hcall c rfl).1]
        · cases call with
          | none => trivial
          | some c => exact ⟨(hcall c rfl).2, trivial⟩
      · dsimp only at h
        rw [hwrite] at h
        dsimp only at h
        rw [if_neg (by simp)] at h
        have hnum : (if (count : Int) > 0 then (count : Int) else 0) = count := by
          split <;> omega
        rw [hnum, BitVec.ofInt_natCast] at h
        have hfits : str + offset + chunk < 2 ^ 32 := Nat.lt_of_le_of_lt hend (by decide)
        refine .inr ⟨buf, device, count, chunk, hle, hlen ▸ hcount, hlen, hbytes, hfits, ?_⟩
        split at h
        · rename_i hshort
          obtain rfl := Except.ok.inj h
          exact .inl ⟨by omega, rfl⟩
        · rename_i hfull
          obtain ⟨r', hrest, h⟩ := bind_eq_ok.mp h
          obtain rfl := Except.ok.inj h
          exact .inr ⟨by omega, r', hrest, rfl⟩

/-- The books of the loop. -/
theorem writeLoop_accounted (fuel : Nat) : ∀ remaining offset (of : OutFile δ) (r : WriteResult δ),
    Honest of → str + offset < 2 ^ 32 → writeLoop s str fuel remaining offset of = .ok r →
    ∃ n, Accounted s str remaining offset of r n := by
  have hnone : ∀ offset (of : OutFile δ), Accounted s str 0 offset of ⟨offset, 0, of, []⟩ 0 :=
    fun offset of => ⟨by simp, Nat.le_refl _, rfl, .nil s _, trivial, by simp, rfl⟩
  induction fuel with
  | zero =>
      intro remaining offset of r hhonest hstr h
      cases remaining with
      | zero => exact ⟨0, Except.ok.inj h ▸ hnone offset of⟩
      | succ remaining => cases h
  | succ fuel ih =>
      intro remaining offset of r hhonest hstr h
      cases remaining with
      | zero => exact ⟨0, Except.ok.inj h ▸ hnone offset of⟩
      | succ remaining =>
          obtain ⟨device, err, steps, -, rfl, hfirst, haccepted, hcalls⟩ |
            ⟨buf, device, count, chunk, hle, hcount, hlen, hbytes, hfits,
              ⟨hshort, rfl⟩ | ⟨rfl, r', hrest, rfl⟩⟩ := writeLoop_cases hhonest hstr h
          · refine ⟨0, by simp, Nat.zero_le _, by simp [haccepted], ?_, hcalls, by simp,
              hfirst.symm⟩
            rw [haccepted]
            exact .nil s _
          · have htake : acceptedBytes [.copyin 0, .write 0 (some ⟨buf, of.offset, count⟩)] =
                buf.take count := by simp [WriteCall.accepted]
            refine ⟨count, rfl, by omega, by rw [htake, List.length_take]; omega, ?_,
              ⟨rfl, trivial⟩, rfl, rfl⟩
            rw [htake]
            exact hbytes.take count
          · have hhonest' : Honest { of with
                device := device
                offset := of.offset + BitVec.ofNat 64 count } := hhonest
            obtain ⟨n, hn⟩ := ih _ _ _ r' hhonest' (by omega) hrest
            have htake : buf.take count = buf := List.take_of_length_le (by omega)
            have haccepted : acceptedBytes ([.copyin 0, .write 0 (some ⟨buf, of.offset, count⟩)] ++
                r'.steps) = buf ++ acceptedBytes r'.steps := by simp [WriteCall.accepted, htake]
            refine ⟨count + n, ?_, ?_, ?_, ?_, ⟨rfl, ?_⟩, ?_, ?_⟩
            · rw [hn.written]
              push_cast
              omega
            · have := hn.le
              omega
            · rw [haccepted, List.length_append, hlen, hn.length]
            · rw [haccepted]
              refine hbytes.append ?_
              rw [hlen, Nat.add_assoc]
              exact hn.bytes
            · rw [WriteCall.accepted, Int.toNat_natCast, htake, hlen]
              exact hn.calls
            · rw [hn.offset, BitVec.ofNat_add, BitVec.add_assoc]
            · simpa [firstError_cons, WriteStep.err] using hn.err

end Loop

/-! ## The result -/

/-- The value that `_write` returns once its checks have passed. -/
theorem sysWrite_eq {δ : Type} {w : State} {tf : TrapFrame} {files : Nat → OutFile δ} {out : Nat}
    {r : WriteResult δ} (hchecks : writeChecks w tf = .ok (.inr out))
    (h : writeCopyin w.mm.paging tf.esi.toNat tf.edx.toNat (files out) = .ok r) :
    sysWrite w tf files =
      .ok (if r.written > 0 then r.written else -r.err, Function.update files out r.file) := by
  rw [sysWrite, hchecks, ok_bind]
  dsimp only
  rw [h, ok_bind]
  by_cases herr : r.err = 0 <;> simp [herr]

/-- For every buffer of less than 2 GiB and every write function that keeps to its contract: the
loop ends, by returning or because the kernel stops at a page table out of reach; it returns the
number `n` of bytes that were accepted, which are the first `n` of the buffer, presented at
consecutive offsets, and the offset grows by `n`; and `_write` returns `n` if that is positive, and
else the error of the first step that failed. -/
theorem write_accounting {δ : Type} {s : Paging.State} {str len : Nat} {of : OutFile δ}
    (hhonest : Honest of) (hstr : str < 2 ^ 32) (hlen : len < 2 ^ 31) :
    (∀ e, writeCopyin s str len of = .error e → e = windowPanic ∧ ¬ Uaccess.InWindow s) ∧
    (∀ r, writeCopyin s str len of = .ok r →
      ∃ n : Nat, n < 2 ^ 31 ∧ Accounted s str len 0 of r n) ∧
    ∀ (w : State) (tf : TrapFrame) (files : Nat → OutFile δ) (out : Nat) (r : WriteResult δ),
      w.mm.paging = s → tf.esi.toNat = str → tf.edx.toNat = len → files out = of →
      writeChecks w tf = .ok (.inr out) → writeCopyin s str len of = .ok r →
      sysWrite w tf files = .ok (if r.written > 0 then r.written else -firstError r.steps,
        Function.update files out r.file) := by
  have haccounted : ∀ r, writeCopyin s str len of = .ok r → ∃ n, Accounted s str len 0 of r n :=
    fun r h => writeLoop_accounted len len 0 of r hhonest hstr h
  refine ⟨writeLoop_raises len len 0 of (Nat.le_refl _), fun r h => ?_, ?_⟩
  · obtain ⟨n, hn⟩ := haccounted r h
    exact ⟨n, Nat.lt_of_le_of_lt hn.le hlen, hn⟩
  · rintro w tf files out r rfl rfl rfl rfl hchecks h
    obtain ⟨n, hn⟩ := haccounted r h
    rw [sysWrite_eq hchecks h, hn.err]

/-- A device that takes one byte at a time. -/
def oneByteFile : OutFile (List Byte) where
  hasTarget := true
  write := some fun device bytes _ => ((min bytes.length 1 : Nat), device ++ bytes.take 1)
  device := []
  offset := 40

/-- A short write of one byte out of two. -/
theorem write_accounting_short : ∃ r,
    writeCopyin (Uaccess.twoPages true) 0x1000 2 oneByteFile = .ok r ∧ r.written = 1 ∧
      Accounted (Uaccess.twoPages true) 0x1000 2 0 oneByteFile r 1 := by
  have hhonest : Honest oneByteFile := by
    rintro write hwrite device bytes offset
    obtain rfl := Option.some.inj hwrite
    exact Int.ofNat_le.mpr (Nat.min_le_left _ _)
  obtain ⟨r, hret, htest⟩ := exists_of_okAnd
    (e := writeCopyin (Uaccess.twoPages true) 0x1000 2 oneByteFile)
    (p := fun r => decide (r.written = 1)) (by decide +kernel)
  have hwritten : r.written = 1 := of_decide_eq_true htest
  obtain ⟨-, haccounted, -⟩ := write_accounting hhonest (show 0x1000 < 2 ^ 32 by decide)
    (show 2 < 2 ^ 31 by decide)
  obtain ⟨n, -, hn⟩ := haccounted r hret
  have hone : n = 1 := by
    have := hn.written.symm.trans hwritten
    omega
  exact ⟨r, hret, hwritten, hone ▸ hn⟩

end Unidos.Sched
