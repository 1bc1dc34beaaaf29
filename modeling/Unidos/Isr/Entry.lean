import Unidos.Lib.Stack
import Unidos.Sched.Basic

/-!
# Interrupt entry and exit

After `kernel/prekinit/prekinit_isr_stubs.asm` and `isr_common_entry` of
`kernel/prekinit/prekinit_idt.asm`: what the processor pushes when it takes an interrupt, what the
stub of the vector and the common entry push on top of it, and how the common exit puts the
registers back. The words on the stack are `trap_frame_t` of `kernel/include/isr.h`.

`enter_entered` says what the frame holds, `isrRestore_eq` what a return from a frame does, and
`resume_entered` that the two are inverse to each other. `interrupt_transparent` says that a program
does not notice an interrupt, whose handler may be interrupted in turn, to any depth.
-/

namespace Unidos.Isr

open Lib Lib.Memory Sched

/-! ## The processor -/

/-- The registers that a program sees. -/
structure Cpu where
  eax : BitVec 32
  ecx : BitVec 32
  edx : BitVec 32
  ebx : BitVec 32
  esp : BitVec 32
  ebp : BitVec 32
  esi : BitVec 32
  edi : BitVec 32
  cs : BitVec 16
  ss : BitVec 16
  ds : BitVec 16
  es : BitVec 16
  fs : BitVec 16
  gs : BitVec 16
  eip : BitVec 32
  eflags : BitVec 32
  deriving DecidableEq

/-- The processor, the memory of the kernel, and the stack that the task state segment names for
the kernel. -/
structure Machine where
  cpu : Cpu
  cr2 : BitVec 32
  mem : Memory
  esp0 : BitVec 32
  ss0 : BitVec 16

/-- `GDT_SEL_KCODE`. -/
def gdtSelKcode : BitVec 16 := 0x08

/-- `GDT_SEL_KDATA`. -/
def gdtSelKdata : BitVec 16 := 0x10

/-- The code segment is not one of the kernel. -/
def outer (cs : BitVec 16) : Bool := cs.toNat % 4 ≠ 0

/-- The selectors that may stay loaded outside the kernel: a null selector, or a segment of the
user. -/
def userSelector (sel : BitVec 16) : Bool :=
  sel.toNat / 4 = 0 ∨ sel.toNat / 8 = 3 ∨ sel.toNat / 8 = 4

/-- What a return from the kernel leaves in a data segment register. -/
def keepUser (sel : BitVec 16) : BitVec 16 := if userSelector sel then sel else 0

namespace Cpu

variable (c : Cpu)

/-- Another stack pointer. -/
def withEsp (esp : BitVec 32) : Cpu := { c with esp := esp }

/-- `cld`. -/
def cld : Cpu := { c with eflags := c.eflags &&& ~~~0x400#32 }

/-- Load a selector into all data segment registers. -/
def loadSegments (sel : BitVec 16) : Cpu := { c with ds := sel, es := sel, fs := sel, gs := sel }

/-- What an interrupt gate changes: the processor is in the kernel, and TF, IF, NT, RF, and VM are
clear. -/
def throughGate (handler : BitVec 32) : Cpu :=
  { c with cs := gdtSelKcode, eip := handler, eflags := c.eflags &&& ~~~0x34300#32 }

end Cpu

namespace Machine

variable (m : Machine)

/-- Change registers. -/
def mapCpu (f : Cpu → Cpu) : Machine := { m with cpu := f m.cpu }

/-- `push`. -/
def push (word : BitVec 32) : Machine :=
  { m with
    cpu := m.cpu.withEsp (m.cpu.esp - 4)
    mem := m.mem.writeWord (m.cpu.esp - 4).toNat word }

/-- `push` of a segment register. -/
def pushSeg (sel : BitVec 16) : Machine := m.push (sel.setWidth 32)

/-- The word at `[esp + offset]`. -/
def top (offset : Nat) : BitVec 32 := m.mem.readWord (m.cpu.esp.toNat + offset)

/-- `add esp, n`. -/
def addEsp (n : BitVec 32) : Machine := m.mapCpu fun c => c.withEsp (c.esp + n)

/-- `mov eax, cr2`. -/
def movEaxCr2 : Machine := m.mapCpu fun c => { c with eax := m.cr2 }

/-- `xchg eax, [esp]`. -/
def xchgEaxTop : Machine :=
  { m with
    cpu := { m.cpu with eax := m.top 0 }
    mem := m.mem.writeWord m.cpu.esp.toNat m.cpu.eax }

/-- `push eax`, `mov eax, cr2`, `xchg eax, [esp]`. -/
def saveCr2 : Machine := (m.push m.cpu.eax).movEaxCr2.xchgEaxTop

/-- `pushad`: the stack pointer pushed is the one from before. -/
def pushad : Machine :=
  let esp := m.cpu.esp
  let m := m.push m.cpu.eax
  let m := m.push m.cpu.ecx
  let m := m.push m.cpu.edx
  let m := m.push m.cpu.ebx
  let m := m.push esp
  let m := m.push m.cpu.ebp
  let m := m.push m.cpu.esi
  m.push m.cpu.edi

/-- `popad`: the stack pointer on the stack is skipped. -/
def popad : Machine :=
  m.mapCpu fun c =>
    { c with
      edi := m.top 0
      esi := m.top 4
      ebp := m.top 8
      ebx := m.top 16
      edx := m.top 20
      ecx := m.top 24
      eax := m.top 28
      esp := c.esp + 32 }

/-- `pop ds`. -/
def popDs : Machine := (m.mapCpu fun c => { c with ds := (m.top 0).setWidth 16 }).addEsp 4

/-- `pop es`. -/
def popEs : Machine := (m.mapCpu fun c => { c with es := (m.top 0).setWidth 16 }).addEsp 4

/-- `pop fs`. -/
def popFs : Machine := (m.mapCpu fun c => { c with fs := (m.top 0).setWidth 16 }).addEsp 4

/-- `pop gs`. -/
def popGs : Machine := (m.mapCpu fun c => { c with gs := (m.top 0).setWidth 16 }).addEsp 4

/-- The stack for an interrupt: coming from outside the kernel it is the one of the task state
segment, and the old one is pushed there first. -/
def switchStack : Machine :=
  if outer m.cpu.cs then
    let kernel := m.mapCpu fun c => { c with ss := m.ss0, esp := m.esp0 }
    (kernel.pushSeg m.cpu.ss).push m.cpu.esp
  else m

/-- The processor takes an interrupt through a gate that leads to `handler` in the kernel. -/
def interrupt (error : Option (BitVec 32)) (handler : BitVec 32) : Machine :=
  let c := m.cpu
  let m := m.switchStack
  let m := m.push c.eflags
  let m := m.pushSeg c.cs
  let m := m.push c.eip
  let m := match error with
    | none => m
    | some code => m.push code
  m.mapCpu (Cpu.throughGate · handler)

/-- `iretd` in the kernel. Outside the kernel no data segment of the kernel stays loaded. -/
def iretd : Machine :=
  let cs := (m.top 4).setWidth 16
  if outer cs then
    m.mapCpu fun c =>
      { c with
        eip := m.top 0
        cs := cs
        eflags := m.top 8
        esp := m.top 12
        ss := (m.top 16).setWidth 16
        ds := keepUser c.ds
        es := keepUser c.es
        fs := keepUser c.fs
        gs := keepUser c.gs }
  else
    m.mapCpu fun c => { c with eip := m.top 0, cs := cs, eflags := m.top 8, esp := c.esp + 12 }

end Machine

/-! ## Stubs, entry, and exit -/

/-- The vectors for which the processor pushes an error code. -/
def hasErrorCode (vector : BitVec 8) : Bool := vector ∈ [8, 10, 11, 12, 13, 14, 17]

/-- The stub of a vector: `ISR_ERR` or `ISR_NOERR`. -/
def isrStub (vector : BitVec 8) (m : Machine) : Machine :=
  if hasErrorCode vector then m.push (vector.setWidth 32)
  else (m.push 0).push (vector.setWidth 32)

/-- `isr_common_entry` up to the call of `isr_dispatch`. -/
def isrSave (m : Machine) : Machine :=
  let m := m.mapCpu Cpu.cld
  let m := m.saveCr2
  let m := m.pushSeg m.cpu.gs
  let m := m.pushSeg m.cpu.fs
  let m := m.pushSeg m.cpu.es
  let m := m.pushSeg m.cpu.ds
  let m := m.pushad
  m.mapCpu (Cpu.loadSegments · gdtSelKdata)

/-- `isr_common_entry` from `.no_switch` on. -/
def isrRestore (m : Machine) : Machine :=
  let m := m.popad
  let m := m.popDs
  let m := m.popEs
  let m := m.popFs
  let m := m.popGs
  let m := m.addEsp 4
  let m := m.addEsp 8
  m.iretd

/-- From an instruction of the interrupted program to the call of `isr_dispatch`. -/
def enter (vector : BitVec 8) (error handler : BitVec 32) (m : Machine) : Machine :=
  isrSave (isrStub vector
    (m.interrupt (if hasErrorCode vector then some error else none) handler))

/-- The frame at an address, with the two words behind it. -/
def readFrame (mem : Memory) (a : Nat) : TrapFrame where
  edi := mem.readWord a
  esi := mem.readWord (a + 4)
  ebp := mem.readWord (a + 8)
  espDummy := mem.readWord (a + 12)
  ebx := mem.readWord (a + 16)
  edx := mem.readWord (a + 20)
  ecx := mem.readWord (a + 24)
  eax := mem.readWord (a + 28)
  ds := mem.readWord (a + 32)
  es := mem.readWord (a + 36)
  fs := mem.readWord (a + 40)
  gs := mem.readWord (a + 44)
  cr2 := mem.readWord (a + 48)
  vector := mem.readWord (a + 52)
  error := mem.readWord (a + 56)
  eip := mem.readWord (a + 60)
  cs := mem.readWord (a + 64)
  eflags := mem.readWord (a + 68)
  userEsp := mem.readWord (a + 72)
  userSs := mem.readWord (a + 76)

/-- Two frames with the same words, except perhaps for EAX and the words behind them. -/
theorem readFrame_of_words {mem mem' : Memory} {a a' : Nat}
    (h : ∀ k, k + 4 ≤ 72 → k + 4 ≤ 28 ∨ 32 ≤ k →
      mem'.readWord (a' + k) = mem.readWord (a + k)) :
    readFrame mem' a' =
      { readFrame mem a with
        eax := mem'.readWord (a' + 28)
        userEsp := mem'.readWord (a' + 72)
        userSs := mem'.readWord (a' + 76) } := by
  have hfirst : mem'.readWord a' = mem.readWord a := h 0 (by decide) (by decide)
  simp only [readFrame, hfirst, h 4 (by decide) (by decide), h 8 (by decide) (by decide),
    h 12 (by decide) (by decide), h 16 (by decide) (by decide),
    h 20 (by decide) (by decide), h 24 (by decide) (by decide),
    h 32 (by decide) (by decide), h 36 (by decide) (by decide),
    h 40 (by decide) (by decide), h 44 (by decide) (by decide),
    h 48 (by decide) (by decide), h 52 (by decide) (by decide),
    h 56 (by decide) (by decide), h 60 (by decide) (by decide),
    h 64 (by decide) (by decide), h 68 (by decide) (by decide)]

/-- The frame of a program that was interrupted in state `c`. -/
def frameOf (c : Cpu) (cr2 vector error dummy userEsp userSs : BitVec 32) : TrapFrame where
  edi := c.edi
  esi := c.esi
  ebp := c.ebp
  espDummy := dummy
  ebx := c.ebx
  edx := c.edx
  ecx := c.ecx
  eax := c.eax
  ds := c.ds.setWidth 32
  es := c.es.setWidth 32
  fs := c.fs.setWidth 32
  gs := c.gs.setWidth 32
  cr2 := cr2
  vector := vector
  error := error
  eip := c.eip
  cs := c.cs.setWidth 32
  eflags := c.eflags
  userEsp := userEsp
  userSs := userSs

/-- The words of a frame in the order in which they are pushed. -/
def frameWords (tf : TrapFrame) : List (BitVec 32) :=
  [tf.eflags, tf.cs, tf.eip, tf.error, tf.vector, tf.cr2, tf.gs, tf.fs, tf.es, tf.ds, tf.eax,
    tf.ecx, tf.edx, tf.ebx, tf.espDummy, tf.ebp, tf.esi, tf.edi]

/-- The frame is where its words were pushed. -/
theorem readFrame_pushWords (mem : Memory) {sp : Nat} (hsp : 72 ≤ sp) (tf : TrapFrame) :
    readFrame (mem.pushWords sp (frameWords tf)) (sp - 72) =
      { tf with userEsp := mem.readWord sp, userSs := mem.readWord (sp + 4) } := by
  have hlen : (frameWords tf).length = 18 := rfl
  have hword : ∀ i a (hi : i < 18), a + 4 * (i + 1) = sp →
      (mem.pushWords sp (frameWords tf)).readWord a = (frameWords tf)[i] :=
    fun i a hi ha => readWord_pushWords (by omega) (by omega) ha
  have habove : ∀ a, sp ≤ a → (mem.pushWords sp (frameWords tf)).readWord a = mem.readWord a := by
    intro a ha
    apply readWord_congr
    intro b hlo hhi
    exact pushWords_apply_ne (by omega) (by omega)
  unfold readFrame
  rw [hword 17 (sp - 72) (by omega) (by omega), hword 16 (sp - 72 + 4) (by omega) (by omega),
    hword 15 (sp - 72 + 8) (by omega) (by omega), hword 14 (sp - 72 + 12) (by omega) (by omega),
    hword 13 (sp - 72 + 16) (by omega) (by omega), hword 12 (sp - 72 + 20) (by omega) (by omega),
    hword 11 (sp - 72 + 24) (by omega) (by omega), hword 10 (sp - 72 + 28) (by omega) (by omega),
    hword 9 (sp - 72 + 32) (by omega) (by omega), hword 8 (sp - 72 + 36) (by omega) (by omega),
    hword 7 (sp - 72 + 40) (by omega) (by omega), hword 6 (sp - 72 + 44) (by omega) (by omega),
    hword 5 (sp - 72 + 48) (by omega) (by omega), hword 4 (sp - 72 + 52) (by omega) (by omega),
    hword 3 (sp - 72 + 56) (by omega) (by omega), hword 2 (sp - 72 + 60) (by omega) (by omega),
    hword 1 (sp - 72 + 64) (by omega) (by omega), hword 0 (sp - 72 + 68) (by omega) (by omega),
    habove (sp - 72 + 72) (by omega), habove (sp - 72 + 76) (by omega),
    show sp - 72 + 72 = sp by omega, show sp - 72 + 76 = sp + 4 by omega]
  rfl

/-! ## Entry -/

/-- Push several words. -/
def Machine.pushAll (m : Machine) (words : List (BitVec 32)) : Machine :=
  words.foldl Machine.push m

/-- A row of pushes that does not run out of addresses. -/
theorem pushAll_eq (m : Machine) (words : List (BitVec 32))
    (hroom : 4 * words.length ≤ m.cpu.esp.toNat) :
    m.pushAll words =
      { m with
        cpu := m.cpu.withEsp (m.cpu.esp - BitVec.ofNat 32 (4 * words.length))
        mem := m.mem.pushWords m.cpu.esp.toNat words } := by
  induction words generalizing m with
  | nil =>
      show m = _
      rw [List.length_nil, Nat.mul_zero, BitVec.sub_zero]
      rfl
  | cons word words ih =>
      rw [List.length_cons] at hroom
      have hesp : (m.cpu.esp - 4).toNat = m.cpu.esp.toNat - 4 :=
        BitVec.toNat_sub_of_le (by rw [BitVec.le_def]; show 4 ≤ _; omega)
      have hsub : m.cpu.esp - 4 - BitVec.ofNat 32 (4 * words.length) =
          m.cpu.esp - BitVec.ofNat 32 (4 * (words.length + 1)) := by
        rw [Nat.mul_succ, BitVec.ofNat_add, BitVec.add_comm, BitVec.sub_sub]
        rfl
      show (m.push word).pushAll words = _
      rw [ih (m.push word) (by show _ ≤ (m.cpu.esp - 4).toNat; omega)]
      show Machine.mk (m.cpu.withEsp (m.cpu.esp - 4 - BitVec.ofNat 32 (4 * words.length))) m.cr2
        ((m.mem.writeWord (m.cpu.esp - 4).toNat word).pushWords (m.cpu.esp - 4).toNat words)
        m.esp0 m.ss0 = _
      rw [hesp, hsub]
      rfl

theorem pushAll_append (m : Machine) (words words' : List (BitVec 32)) :
    m.pushAll (words ++ words') = (m.pushAll words).pushAll words' := List.foldl_append

/-- A push keeps all registers but the stack pointer. -/
theorem pushAll_regs (m : Machine) (words : List (BitVec 32)) : ∃ esp mem,
    m.pushAll words = { m with cpu := m.cpu.withEsp esp, mem := mem } := by
  induction words generalizing m with
  | nil => exact ⟨_, _, rfl⟩
  | cons word words ih =>
      obtain ⟨esp, mem, h⟩ := ih (m.push word)
      exact ⟨esp, mem, h⟩

/-- A change of registers that leaves the stack pointer alone. -/
structure SparesEsp (f : Cpu → Cpu) : Prop where
  esp : ∀ c, (f c).esp = c.esp
  withEsp : ∀ c esp, f (c.withEsp esp) = (f c).withEsp esp

theorem sparesEsp_cld : SparesEsp Cpu.cld := ⟨fun _ => rfl, fun _ _ => rfl⟩

theorem sparesEsp_throughGate (handler : BitVec 32) : SparesEsp (Cpu.throughGate · handler) :=
  ⟨fun _ => rfl, fun _ _ => rfl⟩

/-- A push does not mind a change to other registers. -/
theorem push_mapCpu {f : Cpu → Cpu} (hf : SparesEsp f) (m : Machine) (word : BitVec 32) :
    (m.mapCpu f).push word = (m.push word).mapCpu f := by
  show Machine.mk ((f m.cpu).withEsp ((f m.cpu).esp - 4)) m.cr2
      (m.mem.writeWord ((f m.cpu).esp - 4).toNat word) m.esp0 m.ss0 =
    Machine.mk (f (m.cpu.withEsp (m.cpu.esp - 4))) m.cr2
      (m.mem.writeWord (m.cpu.esp - 4).toNat word) m.esp0 m.ss0
  rw [hf.withEsp, hf.esp]

theorem pushAll_mapCpu {f : Cpu → Cpu} (hf : SparesEsp f) (m : Machine)
    (words : List (BitVec 32)) : (m.mapCpu f).pushAll words = (m.pushAll words).mapCpu f := by
  induction words generalizing m with
  | nil => rfl
  | cons word words ih =>
      show ((m.mapCpu f).push word).pushAll words = _
      rw [push_mapCpu hf, ih]
      rfl

section Projections

variable (m : Machine) (word : BitVec 32) (f : Cpu → Cpu)

@[simp] theorem push_cpu : (m.push word).cpu = m.cpu.withEsp (m.cpu.esp - 4) := rfl

@[simp] theorem mapCpu_cpu : (m.mapCpu f).cpu = f m.cpu := rfl

@[simp] theorem mapCpu_cr2 : (m.mapCpu f).cr2 = m.cr2 := rfl

end Projections

/-- The instructions that save CR2 leave EAX as it was. -/
theorem saveCr2_eq (m : Machine) : m.saveCr2 = m.push m.cr2 := by
  have htop : (m.push m.cpu.eax).movEaxCr2.top 0 = m.cpu.eax := readWord_writeWord_same _ _ _
  have hmem : (m.push m.cpu.eax).mem.writeWord (m.cpu.esp - 4).toNat m.cr2 =
      m.mem.writeWord (m.cpu.esp - 4).toNat m.cr2 := writeWord_writeWord_same _ _ _ _
  unfold Machine.saveCr2 Machine.xchgEaxTop
  rw [htop]
  show Machine.mk (m.cpu.withEsp (m.cpu.esp - 4)) m.cr2
    ((m.push m.cpu.eax).mem.writeWord (m.cpu.esp - 4).toNat m.cr2) m.esp0 m.ss0 = _
  rw [hmem]
  rfl

/-- The words that the common entry pushes on top of the vector. -/
def savedWords (c : Cpu) (cr2 dummy : BitVec 32) : List (BitVec 32) :=
  [cr2, c.gs.setWidth 32, c.fs.setWidth 32, c.es.setWidth 32, c.ds.setWidth 32, c.eax, c.ecx,
    c.edx, c.ebx, dummy, c.ebp, c.esi, c.edi]

/-- The common entry, as one row of pushes. -/
theorem isrSave_eq (m : Machine) : ∃ dummy, isrSave m =
    ((m.mapCpu Cpu.cld).pushAll (savedWords m.cpu m.cr2 dummy)).mapCpu
      (Cpu.loadSegments · gdtSelKdata) := by
  refine ⟨m.cpu.esp - 4 - 4 - 4 - 4 - 4, ?_⟩
  simp only [isrSave, saveCr2_eq, savedWords, Machine.pushSeg, Machine.pushad, Machine.pushAll,
    push_cpu, mapCpu_cpu, mapCpu_cr2, Cpu.withEsp, Cpu.cld, List.foldl_cons,
    List.foldl_nil]

/-- The error code that ends up in the frame. -/
def errorWord (vector : BitVec 8) (error : BitVec 32) : BitVec 32 :=
  if hasErrorCode vector then error else 0

/-- What the processor and the stub push. -/
theorem isrStub_interrupt (vector : BitVec 8) (error handler : BitVec 32) (m : Machine) :
    isrStub vector (m.interrupt (if hasErrorCode vector then some error else none) handler) =
      (m.switchStack.pushAll [m.cpu.eflags, m.cpu.cs.setWidth 32, m.cpu.eip,
        errorWord vector error, vector.setWidth 32]).mapCpu (Cpu.throughGate · handler) := by
  have hpush := push_mapCpu (sparesEsp_throughGate handler)
  cases hv : hasErrorCode vector with
  | true =>
      simp only [isrStub, errorWord, Machine.interrupt, hv, if_true, hpush, Machine.pushSeg,
        Machine.pushAll, List.foldl_cons, List.foldl_nil]
  | false =>
      simp only [isrStub, errorWord, Machine.interrupt, hv, Bool.false_eq_true, if_false, hpush,
        Machine.pushSeg, Machine.pushAll, List.foldl_cons, List.foldl_nil]

/-- Only the stack is another one. -/
theorem switchStack_regs (m : Machine) : ∃ esp ss mem,
    m.switchStack = { m with cpu := { m.cpu with esp := esp, ss := ss }, mem := mem } := by
  unfold Machine.switchStack
  split
  · exact ⟨_, _, _, rfl⟩
  · exact ⟨_, _, _, rfl⟩

/-- The registers in the kernel. -/
def inKernel (handler : BitVec 32) (c : Cpu) : Cpu :=
  ((c.throughGate handler).cld).loadSegments gdtSelKdata

/-- All that happens on entry, as one row of pushes. -/
theorem enter_eq (vector : BitVec 8) (error handler : BitVec 32) (m : Machine) :
    ∃ dummy, enter vector error handler m =
      (m.switchStack.pushAll (frameWords (frameOf m.cpu m.cr2 (vector.setWidth 32)
        (errorWord vector error) dummy 0 0))).mapCpu (inKernel handler) := by
  obtain ⟨dummy, hsave⟩ := isrSave_eq
    (isrStub vector (m.interrupt (if hasErrorCode vector then some error else none) handler))
  refine ⟨dummy, ?_⟩
  have hwords : frameWords (frameOf m.cpu m.cr2 (vector.setWidth 32) (errorWord vector error)
      dummy 0 0) = [m.cpu.eflags, m.cpu.cs.setWidth 32, m.cpu.eip, errorWord vector error,
        vector.setWidth 32] ++ savedWords m.cpu m.cr2 dummy := rfl
  unfold enter
  rw [hsave, isrStub_interrupt, hwords, pushAll_append]
  obtain ⟨esp, ss, mem, hstack⟩ := switchStack_regs m
  obtain ⟨esp', mem', hregs⟩ := pushAll_regs m.switchStack [m.cpu.eflags,
    m.cpu.cs.setWidth 32, m.cpu.eip, errorWord vector error, vector.setWidth 32]
  generalize m.switchStack.pushAll _ = pushed at hregs
  have hsaved : savedWords (pushed.mapCpu (Cpu.throughGate · handler)).cpu
      (pushed.mapCpu (Cpu.throughGate · handler)).cr2 dummy = savedWords m.cpu m.cr2 dummy := by
    rw [hregs, hstack]
    rfl
  rw [hsaved, pushAll_mapCpu sparesEsp_cld, pushAll_mapCpu (sparesEsp_throughGate handler)]
  generalize pushed.pushAll _ = saved
  rfl

/-- The stack on which a program is interrupted. -/
def Machine.entryStack (m : Machine) : BitVec 32 :=
  if outer m.cpu.cs then m.esp0 else m.cpu.esp

/-- How much of it the frame takes. -/
def Machine.entrySize (m : Machine) : Nat := if outer m.cpu.cs then 80 else 72

/-- What entry does: the frame on the stack, and nothing else in memory. -/
structure Entered (vector : BitVec 8) (error : BitVec 32) (m m' : Machine) : Prop where
  esp : m'.cpu.esp.toNat + m.entrySize = m.entryStack.toNat
  mem : ∀ a, a < m'.cpu.esp.toNat ∨ m.entryStack.toNat ≤ a → m'.mem a = m.mem a
  frame : ∃ dummy, readFrame m'.mem m'.cpu.esp.toNat =
    if outer m.cpu.cs then
      frameOf m.cpu m.cr2 (vector.setWidth 32) (errorWord vector error) dummy m.cpu.esp
        (m.cpu.ss.setWidth 32)
    else
      frameOf m.cpu m.cr2 (vector.setWidth 32) (errorWord vector error) dummy
        (m.mem.readWord m.cpu.esp.toNat) (m.mem.readWord (m.cpu.esp.toNat + 4))
  cs : m'.cpu.cs = gdtSelKcode
  ss : m'.cpu.ss = if outer m.cpu.cs then m.ss0 else m.cpu.ss
  tss : m'.esp0 = m.esp0 ∧ m'.ss0 = m.ss0

/-- A whole frame pushed from machine `k`, with the processor in the kernel. -/
structure Pushed (tf : TrapFrame) (k m' : Machine) : Prop where
  esp : m'.cpu.esp.toNat + 72 = k.cpu.esp.toNat
  mem : m'.mem = k.mem.pushWords k.cpu.esp.toNat (frameWords tf)
  cs : m'.cpu.cs = gdtSelKcode
  ss : m'.cpu.ss = k.cpu.ss
  tss : m'.esp0 = k.esp0 ∧ m'.ss0 = k.ss0

theorem pushed_frame (k : Machine) (tf : TrapFrame) (handler : BitVec 32)
    (hroom : 72 ≤ k.cpu.esp.toNat) :
    Pushed tf k ((k.pushAll (frameWords tf)).mapCpu (inKernel handler)) := by
  have hlen : (frameWords tf).length = 18 := rfl
  have hesp : (k.cpu.esp - BitVec.ofNat 32 72).toNat = k.cpu.esp.toNat - 72 :=
    BitVec.toNat_sub_of_le (by rw [BitVec.le_def]; show 72 ≤ _; omega)
  rw [pushAll_eq k _ (by rw [hlen]; omega), hlen]
  refine ⟨?_, rfl, rfl, rfl, rfl, rfl⟩
  show (k.cpu.esp - BitVec.ofNat 32 72).toNat + 72 = _
  omega

/-- Outside the pushed frame memory is as it was. -/
theorem Pushed.apply_ne {tf : TrapFrame} {k m' : Machine} {a : Nat} (h : Pushed tf k m')
    (ha : a < m'.cpu.esp.toNat ∨ k.cpu.esp.toNat ≤ a) : m'.mem a = k.mem a := by
  have hlen : (frameWords tf).length = 18 := rfl
  have hesp := h.esp
  rw [h.mem]
  exact pushWords_apply_ne (by omega) (by omega)

theorem Pushed.readFrame {tf : TrapFrame} {k m' : Machine} (h : Pushed tf k m') :
    readFrame m'.mem m'.cpu.esp.toNat =
      { tf with
        userEsp := k.mem.readWord k.cpu.esp.toNat
        userSs := k.mem.readWord (k.cpu.esp.toNat + 4) } := by
  have hesp := h.esp
  rw [h.mem, show m'.cpu.esp.toNat = k.cpu.esp.toNat - 72 by omega]
  exact readFrame_pushWords _ (by omega) tf

/-- The stack of the task state segment, with the old stack pointer on it. -/
structure Switched (m k : Machine) : Prop where
  esp : k.cpu.esp.toNat + 8 = m.esp0.toNat
  mem : ∀ a, a < k.cpu.esp.toNat ∨ m.esp0.toNat ≤ a → k.mem a = m.mem a
  userEsp : k.mem.readWord k.cpu.esp.toNat = m.cpu.esp
  userSs : k.mem.readWord (k.cpu.esp.toNat + 4) = m.cpu.ss.setWidth 32
  ss : k.cpu.ss = m.ss0
  tss : k.esp0 = m.esp0 ∧ k.ss0 = m.ss0

theorem switchStack_switched {m : Machine} (hcs : outer m.cpu.cs) (hroom : 8 ≤ m.esp0.toNat) :
    Switched m m.switchStack := by
  generalize hkernel : (m.mapCpu fun c => { c with ss := m.ss0, esp := m.esp0 }) = kernel
  have hesp0 : kernel.cpu.esp = m.esp0 := by rw [← hkernel]; rfl
  have hmem0 : kernel.mem = m.mem := by rw [← hkernel]; rfl
  have hlen : [m.cpu.ss.setWidth 32, m.cpu.esp].length = 2 := rfl
  have hswitch : m.switchStack = kernel.pushAll [m.cpu.ss.setWidth 32, m.cpu.esp] := by
    unfold Machine.switchStack
    rw [if_pos hcs, hkernel]
    rfl
  rw [hswitch, pushAll_eq kernel _ (by rw [hlen, hesp0]; omega), hlen, hesp0, hmem0]
  have hesp : (m.esp0 - BitVec.ofNat 32 (4 * 2)).toNat = m.esp0.toNat - 8 :=
    BitVec.toNat_sub_of_le (by rw [BitVec.le_def]; show 8 ≤ _; omega)
  refine ⟨?_, ?_, ?_, ?_, ?_, ?_, ?_⟩
  · show (m.esp0 - BitVec.ofNat 32 (4 * 2)).toNat + 8 = _
    omega
  · intro a ha
    replace ha : a < (m.esp0 - BitVec.ofNat 32 (4 * 2)).toNat ∨ m.esp0.toNat ≤ a := ha
    exact pushWords_apply_ne (by omega) (by omega)
  · show readWord _ (m.esp0 - BitVec.ofNat 32 (4 * 2)).toNat = _
    exact readWord_pushWords (i := 1) (by omega) (by omega) (by omega)
  · show readWord _ ((m.esp0 - BitVec.ofNat 32 (4 * 2)).toNat + 4) = _
    exact readWord_pushWords (i := 0) (by omega) (by omega) (by omega)
  · show kernel.cpu.ss = m.ss0
    rw [← hkernel]
    rfl
  · show kernel.esp0 = m.esp0
    rw [← hkernel]
    rfl
  · show kernel.ss0 = m.ss0
    rw [← hkernel]
    rfl

theorem enter_entered (vector : BitVec 8) (error handler : BitVec 32) {m : Machine}
    (hroom : 80 ≤ m.entryStack.toNat) : Entered vector error m (enter vector error handler m) := by
  obtain ⟨dummy, henter⟩ := enter_eq vector error handler m
  generalize htf : frameOf m.cpu m.cr2 (vector.setWidth 32) (errorWord vector error) dummy 0 0 = tf
    at henter
  unfold Machine.entryStack at hroom
  cases hcs : outer m.cpu.cs with
  | true =>
      rw [hcs, if_pos rfl] at hroom
      have hswitched := switchStack_switched hcs (by omega)
      generalize m.switchStack = k at henter hswitched
      have hpushed := pushed_frame k tf handler (by have := hswitched.esp; omega)
      rw [← henter] at hpushed
      generalize enter vector error handler m = m' at hpushed
      have hesp := hswitched.esp
      have hesp' := hpushed.esp
      refine ⟨?_, ?_, ⟨dummy, ?_⟩, hpushed.cs, ?_, ?_, ?_⟩
      · unfold Machine.entrySize Machine.entryStack
        rw [hcs, if_pos rfl, if_pos rfl]
        omega
      · intro a ha
        unfold Machine.entryStack at ha
        rw [hcs, if_pos rfl] at ha
        rw [hpushed.apply_ne (by omega), hswitched.mem a (by omega)]
      · rw [hcs, if_pos rfl, hpushed.readFrame, hswitched.userEsp, hswitched.userSs, ← htf]
        rfl
      · rw [hcs, if_pos rfl, hpushed.ss, hswitched.ss]
      · rw [hpushed.tss.1, hswitched.tss.1]
      · rw [hpushed.tss.2, hswitched.tss.2]
  | false =>
      rw [hcs, if_neg Bool.false_ne_true] at hroom
      have hswitch : m.switchStack = m := by
        unfold Machine.switchStack
        rw [hcs]
        rfl
      rw [hswitch] at henter
      have hpushed := pushed_frame m tf handler (by omega)
      rw [← henter] at hpushed
      generalize enter vector error handler m = m' at hpushed
      refine ⟨?_, ?_, ⟨dummy, ?_⟩, hpushed.cs, ?_, hpushed.tss⟩
      · unfold Machine.entrySize Machine.entryStack
        rw [hcs, if_neg Bool.false_ne_true, if_neg Bool.false_ne_true]
        exact hpushed.esp
      · intro a ha
        unfold Machine.entryStack at ha
        rw [hcs, if_neg Bool.false_ne_true] at ha
        exact hpushed.apply_ne ha
      · rw [hcs, if_neg Bool.false_ne_true, hpushed.readFrame, ← htf]
        rfl
      · rw [hcs, if_neg Bool.false_ne_true]
        exact hpushed.ss

/-! ## Exit -/

/-- The registers after a return from a frame at `esp`; `ss` is the stack segment of the kernel. -/
def resume (tf : TrapFrame) (esp : BitVec 32) (ss : BitVec 16) : Cpu :=
  let cs := tf.cs.setWidth 16
  let keep (sel : BitVec 32) : BitVec 16 :=
    if outer cs then keepUser (sel.setWidth 16) else sel.setWidth 16
  { eax := tf.eax
    ecx := tf.ecx
    edx := tf.edx
    ebx := tf.ebx
    esp := if outer cs then tf.userEsp else esp + 72
    ebp := tf.ebp
    esi := tf.esi
    edi := tf.edi
    cs := cs
    ss := if outer cs then tf.userSs.setWidth 16 else ss
    ds := keep tf.ds
    es := keep tf.es
    fs := keep tf.fs
    gs := keep tf.gs
    eip := tf.eip
    eflags := tf.eflags }

/-- The exit loads the registers from the frame at the stack pointer. -/
theorem isrRestore_eq (m : Machine) (hroom : m.cpu.esp.toNat + 72 ≤ 2 ^ 32) :
    isrRestore m =
      { m with cpu := resume (readFrame m.mem m.cpu.esp.toNat) m.cpu.esp m.cpu.ss } := by
  have hesp : ∀ n, n < 72 → (m.cpu.esp + BitVec.ofNat 32 n).toNat = m.cpu.esp.toNat + n := by
    intro n hn
    rw [BitVec.toNat_add, BitVec.toNat_ofNat]
    omega
  simp only [isrRestore, Machine.popad, Machine.popDs, Machine.popEs, Machine.popFs,
    Machine.popGs, Machine.addEsp, Machine.mapCpu, Machine.top, Cpu.withEsp, BitVec.add_assoc]
  have h32 : (m.cpu.esp + 32).toNat = m.cpu.esp.toNat + 32 := hesp 32 (by decide)
  have h36 : (m.cpu.esp + (32 + 4)).toNat = m.cpu.esp.toNat + 36 := hesp 36 (by decide)
  have h40 : (m.cpu.esp + (32 + (4 + 4))).toNat = m.cpu.esp.toNat + 40 := hesp 40 (by decide)
  have h44 : (m.cpu.esp + (32 + (4 + (4 + 4)))).toNat = m.cpu.esp.toNat + 44 :=
    hesp 44 (by decide)
  have h60 : (m.cpu.esp + (32 + (4 + (4 + (4 + (4 + (4 + 8))))))).toNat = m.cpu.esp.toNat + 60 :=
    hesp 60 (by decide)
  rw [h32, h36, h40, h44]
  simp only [Machine.iretd, Machine.top, Machine.mapCpu, h60, Nat.add_assoc]
  unfold resume readFrame
  cases hcs : outer ((m.mem.readWord (m.cpu.esp.toNat + 64)).setWidth 16) with
  | true => simp only [hcs, if_true, Nat.add_zero, Nat.reduceAdd]
  | false =>
      simp only [hcs, Bool.false_eq_true, if_false, Nat.add_zero, Nat.reduceAdd, BitVec.add_assoc]
      rfl

/-- How much of the stack a frame takes. -/
def frameSize (tf : TrapFrame) : Nat := if outer (tf.cs.setWidth 16) then 80 else 72

/-- A return depends on the frame only. -/
theorem resume_congr {mem mem' : Memory} {a : Nat}
    (h : ∀ b, a ≤ b → b < a + frameSize (readFrame mem a) → mem' b = mem b)
    (esp : BitVec 32) (ss : BitVec 16) :
    resume (readFrame mem' a) esp ss = resume (readFrame mem a) esp ss ∧
      frameSize (readFrame mem' a) = frameSize (readFrame mem a) := by
  have hsize : 72 ≤ frameSize (readFrame mem a) := by
    unfold frameSize
    split
    · decide
    · exact le_rfl
  have hword : ∀ k, k + 4 ≤ frameSize (readFrame mem a) →
      mem'.readWord (a + k) = mem.readWord (a + k) := fun k hk =>
    readWord_congr fun b hlo hhi => h b (by omega) (by omega)
  have hsame : ∀ k, k + 4 ≤ 72 → k + 4 ≤ 28 ∨ 32 ≤ k →
      mem'.readWord (a + k) = mem.readWord (a + k) := fun k hk _ => hword k (by omega)
  have hframe := readFrame_of_words hsame
  rw [hword 28 (by omega)] at hframe
  unfold frameSize at hword ⊢
  generalize htf : readFrame mem a = tf at hframe hword
  have heax : tf.eax = mem.readWord (a + 28) := by
    rw [← htf]
    rfl
  have hesp : tf.userEsp = mem.readWord (a + 72) := by
    rw [← htf]
    rfl
  have hss : tf.userSs = mem.readWord (a + 76) := by
    rw [← htf]
    rfl
  rw [hframe, ← heax]
  cases hcs : outer (tf.cs.setWidth 16) with
  | true =>
      rw [hcs, if_pos rfl] at hword
      rw [hword 72 (by decide), hword 76 (by decide), ← hesp, ← hss]
      exact ⟨rfl, rfl⟩
  | false =>
      unfold resume
      simp only [hcs, Bool.false_eq_true, if_false, and_self]

/-- A program that runs outside the kernel has no segment of the kernel loaded. -/
def Cpu.OuterSelectors (c : Cpu) : Prop :=
  outer c.cs → userSelector c.ds ∧ userSelector c.es ∧ userSelector c.fs ∧ userSelector c.gs

/-- **Entry and exit are inverse**: a return from the frame of a program gives its registers
back. -/
theorem resume_entered {vector : BitVec 8} {error : BitVec 32} {m m' : Machine} {ss : BitVec 16}
    (h : Entered vector error m m') (hsel : m.cpu.OuterSelectors)
    (hss : outer m.cpu.cs = false → ss = m.cpu.ss) :
    resume (readFrame m'.mem m'.cpu.esp.toNat) m'.cpu.esp ss = m.cpu := by
  have hwidth : ∀ sel : BitVec 16, (sel.setWidth 32).setWidth 16 = sel := by
    intro sel
    rw [BitVec.setWidth_setWidth_of_le sel (by decide), BitVec.setWidth_eq]
  obtain ⟨dummy, hframe⟩ := h.frame
  have hesp := h.esp
  unfold Machine.entrySize Machine.entryStack at hesp
  rw [hframe]
  cases hcs : outer m.cpu.cs with
  | true =>
      obtain ⟨hds, hes, hfs, hgs⟩ := hsel hcs
      simp only [if_true, resume, frameOf, hwidth, hcs, keepUser, hds, hes, hfs, hgs]
  | false =>
      rw [hcs, if_neg Bool.false_ne_true, if_neg Bool.false_ne_true] at hesp
      have hesp' : m'.cpu.esp + 72 = m.cpu.esp := by
        apply BitVec.eq_of_toNat_eq
        have hlt := m.cpu.esp.isLt
        rw [BitVec.toNat_add, show (72 : BitVec 32).toNat = 72 from rfl]
        omega
      simp only [Bool.false_eq_true, if_false, resume, frameOf, hwidth, hcs, hesp', hss hcs]

/-! ## Interrupts in interrupts -/

/-- What happens between the entry to an interrupt, with its frame at `top`, and the exit: code of
the kernel, which leaves what lies above `top` alone, and further interrupts with handlers of their
own. -/
inductive Handles : Nat → Machine → Machine → Prop where
  | done (top : Nat) (m : Machine) : Handles top m m
  | code {top : Nat} {m m₁ m' : Machine} (hcs : m₁.cpu.cs = m.cpu.cs)
      (hss : m₁.cpu.ss = m.cpu.ss) (hesp : m₁.cpu.esp.toNat ≤ top)
      (hmem : ∀ a, top ≤ a → m₁.mem a = m.mem a) (hrest : Handles top m₁ m') : Handles top m m'
  | interrupt {top : Nat} {m b m' : Machine} (vector : BitVec 8) (error handler : BitVec 32)
      (hroom : 80 ≤ m.cpu.esp.toNat)
      (hhandles : Handles (enter vector error handler m).cpu.esp.toNat
        (enter vector error handler m) b)
      (hesp : b.cpu.esp = (enter vector error handler m).cpu.esp)
      (hrest : Handles top (isrRestore b) m') : Handles top m m'

/-- What a handler that was entered in the kernel keeps. -/
structure Kept (top : Nat) (m m' : Machine) : Prop where
  cs : m'.cpu.cs = m.cpu.cs
  ss : m'.cpu.ss = m.cpu.ss
  esp : m'.cpu.esp.toNat ≤ top
  mem : ∀ a, top ≤ a → m'.mem a = m.mem a

/-- The exit of a handler that has kept the frame gives the registers back. -/
theorem Entered.restore {vector : BitVec 8} {error : BitVec 32} {m m' b : Machine}
    (h : Entered vector error m m') (hsel : m.cpu.OuterSelectors)
    (hkept : Kept m'.cpu.esp.toNat m' b) (hesp : b.cpu.esp = m'.cpu.esp) :
    isrRestore b = { b with cpu := m.cpu } := by
  have hsize : 72 ≤ m.entrySize := by
    unfold Machine.entrySize
    split
    · decide
    · exact le_rfl
  have hlt := m.entryStack.isLt
  have htop := h.esp
  have hmem : ∀ a, m'.cpu.esp.toNat ≤ a →
      a < m'.cpu.esp.toNat + frameSize (readFrame m'.mem m'.cpu.esp.toNat) → b.mem a = m'.mem a :=
    fun a ha _ => hkept.mem a ha
  have hss : outer m.cpu.cs = false → b.cpu.ss = m.cpu.ss := by
    intro hcs
    rw [hkept.ss, h.ss, hcs, if_neg Bool.false_ne_true]
  rw [isrRestore_eq b (by rw [hesp]; omega), hesp, (resume_congr hmem _ _).1,
    resume_entered h hsel hss]

theorem Handles.kept {top : Nat} {m m' : Machine} (h : Handles top m m')
    (hcs : outer m.cpu.cs = false) (hesp : m.cpu.esp.toNat ≤ top) : Kept top m m' := by
  induction h with
  | done top m => exact ⟨rfl, rfl, hesp, fun _ _ => rfl⟩
  | code hcs' hss' hesp' hmem' hrest ih =>
      have hkept := ih (hcs' ▸ hcs) hesp'
      exact ⟨hkept.cs.trans hcs', hkept.ss.trans hss', hkept.esp,
        fun a ha => (hkept.mem a ha).trans (hmem' a ha)⟩
  | @interrupt top m b m' vector error handler hroom hhandles hesp' hrest ih ih' =>
      have hstack : m.entryStack = m.cpu.esp := by
        unfold Machine.entryStack
        rw [hcs, if_neg Bool.false_ne_true]
      have hentered := enter_entered vector error handler (m := m) (by rw [hstack]; exact hroom)
      have hlevel : outer (enter vector error handler m).cpu.cs = false := by
        rw [hentered.cs]
        decide
      have hinner := ih hlevel le_rfl
      have hsel : m.cpu.OuterSelectors := by
        intro hout
        rw [hcs] at hout
        cases hout
      -- the inner interrupt leaves no trace above the stack pointer
      have hback := hentered.restore hsel hinner hesp'
      have houter := ih' (by rw [hback]; exact hcs) (by rw [hback]; exact hesp)
      rw [hback] at houter
      refine ⟨houter.cs, houter.ss, houter.esp, fun a ha => (houter.mem a ha).trans ?_⟩
      have hle := hentered.esp
      rw [hstack] at hle
      show b.mem a = m.mem a
      rw [hinner.mem a (by omega), hentered.mem a (.inr (by rw [hstack]; omega))]

/-- **A program does not notice an interrupt.** Whatever the handler does on its own stack and to
the registers, and however often it is interrupted in turn, the exit gives all registers back, and
the stack of the kernel above the frame is unchanged. -/
theorem interrupt_transparent (vector : BitVec 8) (error handler : BitVec 32) {w b : Machine}
    (hsel : w.cpu.OuterSelectors) (hroom : 80 ≤ w.entryStack.toNat)
    (hhandles : Handles (enter vector error handler w).cpu.esp.toNat
      (enter vector error handler w) b)
    (hesp : b.cpu.esp = (enter vector error handler w).cpu.esp) :
    isrRestore b = { b with cpu := w.cpu } ∧
      ∀ a, w.entryStack.toNat ≤ a → b.mem a = w.mem a := by
  have hentered := enter_entered vector error handler hroom
  have hlevel : outer (enter vector error handler w).cpu.cs = false := by
    rw [hentered.cs]
    decide
  have hkept := hhandles.kept hlevel le_rfl
  refine ⟨hentered.restore hsel hkept hesp, fun a ha => ?_⟩
  have hle := hentered.esp
  rw [hkept.mem a (by omega), hentered.mem a (.inr ha)]

/-- A program in user mode, with the stack of its thread in the task state segment. -/
def userMachine : Machine where
  cpu :=
    { eax := 1, ecx := 2, edx := 3, ebx := 4, esp := 0x40001FF0, ebp := 5, esi := 6, edi := 7
      cs := 0x1B, ss := 0x23, ds := 0x23, es := 0x23, fs := 0x23, gs := 0x23
      eip := 0x40000000, eflags := 0x202 }
  cr2 := 0
  mem := fun _ => 0
  esp0 := 0xF0003000
  ss0 := gdtSelKdata

/-- The timer interrupts the program, and the keyboard the handler of the timer. -/
theorem userMachine_resumes : ∃ b,
    Handles 0xF0002FB0 (enter 0x20 0 0 userMachine) b ∧
      isrRestore b = { b with cpu := userMachine.cpu } := by
  have hesp : (enter 0x20 0 0 userMachine).cpu.esp = 0xF0002FB0 := rfl
  have hback : (isrRestore (enter 0x21 0 0 (enter 0x20 0 0 userMachine))).cpu.esp =
      (enter 0x20 0 0 userMachine).cpu.esp := rfl
  have hhandles : Handles (enter 0x20 0 0 userMachine).cpu.esp.toNat (enter 0x20 0 0 userMachine)
      (isrRestore (enter 0x21 0 0 (enter 0x20 0 0 userMachine))) :=
    .interrupt 0x21 0 0 (by rw [hesp]; decide) (.done _ _) rfl (.done _ _)
  refine ⟨_, ?_, (interrupt_transparent 0x20 0 0 (fun _ => by decide) (by decide) hhandles hback).1⟩
  rw [hesp] at hhandles
  exact hhandles

end Unidos.Isr
