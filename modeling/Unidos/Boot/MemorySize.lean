import Mathlib.Data.BitVec

/-!
# The size of memory

After `.get_e820`, `.e801_entry`, `.ah88_entry` and `.cmosMemoryTest` of `boot/stage2/stage2.asm`,
and `bootinfo_getmem` of `kernel/bootinfo.c`. The boot loader asks the BIOS in several ways, and
leaves the method in the two lowest bits of `stage2Flags`.

`reportedKiB` is what the answers of the BIOS mean: the first method with an answer other than zero
counts. The loader adds the first megabyte before it tests for zero, so that it never looks at a
second answer, and loses a byte on the way to the last one. `availMemoryKib_iff` says for which
answers the kernel ends up with the right size.
-/

namespace Unidos.Boot

/-! ## The BIOS -/

/-- An answer to `INT 15h`, `EAX = E820h`. -/
structure E820Reply where
  carry : Bool
  eax : BitVec 32
  cx : Nat
  ebx : BitVec 32

/-- The answers of a BIOS. `E801` reports in two pairs of registers, in KiB below 16 MiB and in
blocks of 64 KiB above; the registers of the CMOS are bytes. -/
structure Bios where
  e820 : Nat → E820Reply
  e801Carry : Bool
  ax : Nat
  bx : Nat
  cx : Nat
  dx : Nat
  ah88Carry : Bool
  ah88Ax : Nat
  cmos : Nat → BitVec 8
  ax_le : ax ≤ 0x3C00
  bx_lt : bx < 2 ^ 16
  cx_le : cx ≤ 0x3C00
  dx_lt : dx < 2 ^ 16
  ah88Ax_lt : ah88Ax < 2 ^ 16

/-- Two registers of the CMOS as a word. -/
def Bios.cmosWord (b : Bios) (low high : Nat) : Nat :=
  (b.cmos low).toNat + 256 * (b.cmos high).toNat

theorem Bios.cmosWord_lt (b : Bios) (low high : Nat) : b.cmosWord low high < 2 ^ 16 := by
  have hlow := (b.cmos low).isLt
  have hhigh := (b.cmos high).isLt
  unfold Bios.cmosWord
  omega

/-! ## The boot loader -/

/-- The fields of `BOOTINFO` about memory. -/
structure MemoryInfo where
  stage2Flags : BitVec 16
  e801MemorySize : Nat
  ah88MemorySize : Nat
  cmosMemorySize : Nat

/-- `'SMAP'`. -/
def smap : BitVec 32 := 0x534D4150

/-- `.e820_next`: the number of entries that are gathered, with room for `bp` more and continuation
number `i`. -/
def e820Next (b : Bios) : Nat → Nat → Nat
  | 0, _ => 0
  | bp + 1, i =>
      let r := b.e820 i
      if r.carry then 0
      else if r.eax ≠ smap then 0
      else if r.cx < 20 then 0
      else if bp = 0 then 1
      else if r.ebx = 0 then 1
      else 1 + e820Next b bp (i + 1)

/-- `.get_e820`. -/
def getE820 (b : Bios) (info : MemoryInfo) : MemoryInfo :=
  let flags := info.stage2Flags &&& 0xFFFC
  { info with stage2Flags := if e820Next b 8 0 = 0 then flags else flags ||| 0x0001 }

/-- `.e801_save`. -/
def e801Save (eax : Nat) (info : MemoryInfo) : MemoryInfo :=
  { info with e801MemorySize := eax, stage2Flags := info.stage2Flags ||| 0x0002 }

/-- `.e801_entry`. -/
def e801Entry (b : Bios) (info : MemoryInfo) : MemoryInfo :=
  if b.e801Carry then info
  else
    let eax := ((b.ax + 0x400) % 2 ^ 16 + b.bx * 2 ^ 6) % 2 ^ 32
    if eax ≠ 0 then e801Save eax info
    else
      let eax := ((b.cx + 0x400) % 2 ^ 16 + b.dx * 2 ^ 6) % 2 ^ 32
      if eax = 0 then info else e801Save eax info

/-- `.ah88_entry`. -/
def ah88Entry (b : Bios) (info : MemoryInfo) : MemoryInfo :=
  if b.ah88Carry then info
  else
    { info with
      ah88MemorySize := (b.ah88Ax + 0x400) % 2 ^ 32
      stage2Flags := info.stage2Flags ||| 0x0003 }

/-- `.cmosMemoryTest`. The second pair of registers is read through `al`, which holds the low byte
of the sum. -/
def cmosMemoryTest (b : Bios) (info : MemoryInfo) : MemoryInfo :=
  let dx := b.cmosWord 0x17 0x18
  let ax := (0x400 + dx) % 2 ^ 16
  if dx ≠ 0 then { info with cmosMemorySize := ax }
  else
    let ax := ax / 256 * 256 + (b.cmos 0x31).toNat
    let dx := b.cmosWord 0x30 0x31
    { info with cmosMemorySize := (ax + dx) % 2 ^ 16 }

/-- From `.get_e820` to `.resumeEnterUnreal`. -/
def detectMemory (b : Bios) (info : MemoryInfo) : MemoryInfo :=
  let info := getE820 b info
  if info.stage2Flags &&& 0x0001 ≠ 0 then info
  else
    let info := e801Entry b info
    if info.stage2Flags &&& 0x0003 ≠ 0 then info
    else
      let info := ah88Entry b info
      if info.stage2Flags &&& 0x0003 ≠ 0 then info
      else cmosMemoryTest b info

/-! ## The kernel -/

/-- `bootinfo_memory_method_t`. -/
inductive MemoryMethod where
  | useCmos
  | useE820
  | useE801
  | useAh88
  deriving DecidableEq, Repr

/-- `BI_EXTRACT_MEMORY_METHOD`. -/
def memoryMethod (flags : BitVec 16) : MemoryMethod :=
  match (flags &&& 0x0003).toNat with
  | 0 => .useCmos
  | 1 => .useE820
  | 2 => .useE801
  | _ => .useAh88

/-- `SYNTHETIC_MEM_FALLBACK`. -/
def syntheticMemFallback : Nat := 8192

/-- `bootinfo_getmem`, except for the map of `E820`: the value of `g_avail_memory_kib`. -/
def bootinfoGetmem (topKiB : Nat) (info : MemoryInfo) : Nat :=
  match memoryMethod info.stage2Flags with
  | .useCmos => if info.cmosMemorySize ≤ 0x400 then syntheticMemFallback else info.cmosMemorySize
  | .useE820 => topKiB
  | .useE801 => info.e801MemorySize
  | .useAh88 => info.ah88MemorySize

/-! ## What the answers mean -/

/-- The extended memory in KiB by the first method with an answer other than zero. -/
def reported (b : Bios) : MemoryMethod × Nat :=
  if b.e801Carry = false ∧ b.ax + 64 * b.bx ≠ 0 then (.useE801, b.ax + 64 * b.bx)
  else if b.e801Carry = false ∧ b.cx + 64 * b.dx ≠ 0 then (.useE801, b.cx + 64 * b.dx)
  else if b.ah88Carry = false ∧ b.ah88Ax ≠ 0 then (.useAh88, b.ah88Ax)
  else if b.cmosWord 0x17 0x18 ≠ 0 then (.useCmos, b.cmosWord 0x17 0x18)
  else (.useCmos, b.cmosWord 0x30 0x31)

/-- The size of memory in KiB, with a default if nothing is known. -/
def reportedKiB (b : Bios) : Nat :=
  if (reported b).2 = 0 then syntheticMemFallback else 1024 + (reported b).2

/-- The first method that answers at all has an answer other than zero, in the first pair of
registers, and the sum of the CMOS fits into a word. -/
structure Bios.Plain (b : Bios) : Prop where
  e801 : b.e801Carry = false → b.ax ≠ 0 ∨ b.bx ≠ 0
  ah88 : b.e801Carry = true → b.ah88Carry = false → b.ah88Ax ≠ 0
  cmos : b.e801Carry = true → b.ah88Carry = true →
    (b.cmosWord 0x17 0x18 ≠ 0 ∧ b.cmosWord 0x17 0x18 < 0xFC00) ∨
      (b.cmosWord 0x17 0x18 = 0 ∧ b.cmos 0x31 = 0)

variable {b : Bios} {info : MemoryInfo} {flags : BitVec 16}

/-! ## The flags -/

theorem and_or_flags (h : flags &&& 0x0003 = 0) (m : BitVec 16) :
    (flags ||| m) &&& 0x0003 = m &&& 0x0003 := by
  rw [BitVec.and_comm, BitVec.and_or_distrib_left, BitVec.and_comm _ flags, h, BitVec.and_comm]
  exact BitVec.zero_or

theorem getE820_flags (info : MemoryInfo) (h : e820Next b 8 0 = 0) :
    (getE820 b info).stage2Flags &&& 0x0003 = 0 ∧
      (getE820 b info).stage2Flags &&& 0x0001 = 0 := by
  have hflags : (getE820 b info).stage2Flags = info.stage2Flags &&& 0xFFFC := if_pos h
  rw [hflags, BitVec.and_assoc, BitVec.and_assoc,
    show (0xFFFC &&& 0x0003 : BitVec 16) = 0#16 by decide,
    show (0xFFFC &&& 0x0001 : BitVec 16) = 0#16 by decide, BitVec.and_zero]
  exact ⟨rfl, rfl⟩

theorem memoryMethod_or (h : flags &&& 0x0003 = 0) :
    memoryMethod flags = .useCmos ∧ memoryMethod (flags ||| 0x0002) = .useE801 ∧
      memoryMethod (flags ||| 0x0003) = .useAh88 := by
  unfold memoryMethod
  rw [and_or_flags h, and_or_flags h, h]
  decide

/-! ## What the boot loader finds -/

/-- The value of `cmosMemorySize`. -/
def cmosSum (b : Bios) : Nat :=
  if b.cmosWord 0x17 0x18 ≠ 0 then (0x400 + b.cmosWord 0x17 0x18) % 2 ^ 16
  else (0x400 + (b.cmos 0x31).toNat + b.cmosWord 0x30 0x31) % 2 ^ 16

/-- The outcome by the methods that answer. -/
theorem detectMemory_cases (hno : e820Next b 8 0 = 0) (topKiB : Nat) :
    (memoryMethod (detectMemory b info).stage2Flags,
        bootinfoGetmem topKiB (detectMemory b info)) =
      if b.e801Carry = false then (.useE801, 1024 + (b.ax + 64 * b.bx))
      else if b.ah88Carry = false then (.useAh88, 1024 + b.ah88Ax)
      else (.useCmos, if cmosSum b ≤ 0x400 then syntheticMemFallback else cmosSum b) := by
  obtain ⟨hflags, hflag⟩ := getE820_flags info hno
  unfold detectMemory
  dsimp only
  rw [if_neg (not_not.mpr hflag)]
  generalize getE820 b info = i at hflags
  obtain ⟨hcmos, he801, hah88⟩ := memoryMethod_or hflags
  cases hcarry : b.e801Carry with
  | false =>
      have hax := b.ax_le
      have hbx := b.bx_lt
      have hsum : ((b.ax + 0x400) % 2 ^ 16 + b.bx * 2 ^ 6) % 2 ^ 32 =
          1024 + (b.ax + 64 * b.bx) := by
        omega
      have hentry : e801Entry b i = e801Save (1024 + (b.ax + 64 * b.bx)) i := by
        unfold e801Entry
        dsimp only
        rw [hcarry, if_neg (by decide), hsum, if_pos (by omega)]
      have hset : (e801Save (1024 + (b.ax + 64 * b.bx)) i).stage2Flags &&& 0x0003 ≠ 0 := by
        change (i.stage2Flags ||| 0x0002) &&& 0x0003 ≠ 0
        rw [and_or_flags hflags]
        decide
      have hmethod : memoryMethod (e801Save (1024 + (b.ax + 64 * b.bx)) i).stage2Flags = .useE801 :=
        he801
      rw [hentry, if_pos hset, if_pos rfl, bootinfoGetmem, hmethod]
      rfl
  | true =>
      have hentry : e801Entry b i = i := by
        unfold e801Entry
        rw [hcarry, if_pos rfl]
      rw [hentry, if_neg (not_not.mpr hflags), if_neg (show ¬ true = false by decide)]
      cases hcarry' : b.ah88Carry with
      | false =>
          have hax := b.ah88Ax_lt
          have hah : ah88Entry b i = { i with
              ah88MemorySize := 1024 + b.ah88Ax, stage2Flags := i.stage2Flags ||| 0x0003 } := by
            unfold ah88Entry
            rw [hcarry', if_neg (by decide), Nat.mod_eq_of_lt (by omega), Nat.add_comm]
          rw [hah]
          dsimp only
          rw [if_pos (by rw [and_or_flags hflags]; decide), if_pos rfl, bootinfoGetmem]
          dsimp only
          rw [hah88]
      | true =>
          have hah : ah88Entry b i = i := by
            unfold ah88Entry
            rw [hcarry', if_pos rfl]
          have htest : cmosMemoryTest b i = { i with cmosMemorySize := cmosSum b } := by
            unfold cmosMemoryTest cmosSum
            dsimp only
            split
            · rfl
            · rename_i hword
              rw [show b.cmosWord 0x17 0x18 = 0 by omega]
              rfl
          rw [hah, if_neg (not_not.mpr hflags), if_neg (show ¬ true = false by decide), htest,
            bootinfoGetmem]
          dsimp only
          rw [hcmos]

/-! ## Whether it is right -/

/-- The size is never that of the first megabyte alone. -/
theorem reportedKiB_ne (b : Bios) : reportedKiB b ≠ 1024 := by
  unfold reportedKiB
  split
  · decide
  · omega

theorem reported_e801 (hcarry : b.e801Carry = false) (hne : b.ax + 64 * b.bx ≠ 0) :
    reported b = (.useE801, b.ax + 64 * b.bx) := if_pos ⟨hcarry, hne⟩

theorem reported_ah88 (hcarry : b.e801Carry = true) (hcarry' : b.ah88Carry = false)
    (hne : b.ah88Ax ≠ 0) : reported b = (.useAh88, b.ah88Ax) := by
  simp [reported, hcarry, hcarry', hne]

theorem reported_cmos (hcarry : b.e801Carry = true) (hcarry' : b.ah88Carry = true) :
    reported b = (.useCmos, if b.cmosWord 0x17 0x18 ≠ 0 then b.cmosWord 0x17 0x18
      else b.cmosWord 0x30 0x31) := by
  simp only [reported, hcarry, hcarry', Bool.true_eq_false, false_and, if_false]
  split
  · rfl
  · rfl

/-- What becomes of the sum of the CMOS. -/
theorem cmosSum_iff (b : Bios) :
    (if cmosSum b ≤ 0x400 then syntheticMemFallback else cmosSum b) =
        (if (if b.cmosWord 0x17 0x18 ≠ 0 then b.cmosWord 0x17 0x18 else b.cmosWord 0x30 0x31) = 0
          then syntheticMemFallback
          else 1024 + if b.cmosWord 0x17 0x18 ≠ 0 then b.cmosWord 0x17 0x18
            else b.cmosWord 0x30 0x31) ↔
      (b.cmosWord 0x17 0x18 ≠ 0 ∧ b.cmosWord 0x17 0x18 < 0xFC00) ∨
        (b.cmosWord 0x17 0x18 = 0 ∧ b.cmos 0x31 = 0) := by
  have h17 := b.cmosWord_lt 0x17 0x18
  have hlow := (b.cmos 0x30).isLt
  have hhigh := (b.cmos 0x31).isLt
  have hzero : b.cmos 0x31 = 0 ↔ (b.cmos 0x31).toNat = 0 := by
    rw [← BitVec.toNat_inj]
    rfl
  rw [hzero, syntheticMemFallback, cmosSum]
  by_cases hword : b.cmosWord 0x17 0x18 ≠ 0
  · simp only [if_pos hword, if_neg hword]
    split
    · omega
    · omega
  · simp only [if_neg hword]
    have hsum : b.cmosWord 0x30 0x31 = (b.cmos 0x30).toNat + 256 * (b.cmos 0x31).toNat := rfl
    rw [hsum]
    split
    · split
      · omega
      · omega
    · split
      · omega
      · omega

/-- The kernel knows the method and the size of memory if and only if the answers of the BIOS are of
the plain kind. -/
theorem availMemoryKib_iff (b : Bios) (info : MemoryInfo) (topKiB : Nat)
    (hno : e820Next b 8 0 = 0) :
    (memoryMethod (detectMemory b info).stage2Flags = (reported b).1 ∧
      bootinfoGetmem topKiB (detectMemory b info) = reportedKiB b) ↔ b.Plain := by
  rw [← Prod.mk_inj, detectMemory_cases hno topKiB]
  have hne := reportedKiB_ne b
  cases hcarry : b.e801Carry with
  | false =>
      have hplain : b.Plain ↔ b.ax + 64 * b.bx ≠ 0 := by
        refine ⟨fun h => ?_, fun h => ⟨fun _ => by omega, by simp [hcarry], by simp [hcarry]⟩⟩
        have := h.e801 hcarry
        omega
      rw [hplain, if_pos rfl, Prod.mk_inj]
      constructor
      · rintro ⟨-, hkib⟩ hzero
        rw [hzero] at hkib
        exact hne hkib.symm
      · intro hax
        rw [reportedKiB, reported_e801 hcarry hax, if_neg hax]
        exact ⟨rfl, rfl⟩
  | true =>
      rw [if_neg (by decide)]
      cases hcarry' : b.ah88Carry with
      | false =>
          have hplain : b.Plain ↔ b.ah88Ax ≠ 0 :=
            ⟨fun h => h.ah88 hcarry hcarry',
              fun h => ⟨by simp [hcarry], fun _ _ => h, by simp [hcarry']⟩⟩
          rw [hplain, if_pos rfl, Prod.mk_inj]
          constructor
          · rintro ⟨-, hkib⟩ hzero
            rw [hzero] at hkib
            exact hne hkib.symm
          · intro hax
            rw [reportedKiB, reported_ah88 hcarry hcarry' hax, if_neg hax]
            exact ⟨rfl, rfl⟩
      | true =>
          rw [if_neg (by decide), reportedKiB, reported_cmos hcarry hcarry', Prod.mk_inj,
            cmosSum_iff]
          constructor
          · rintro ⟨-, hcmos⟩
            exact ⟨by simp [hcarry], by simp [hcarry'], fun _ _ => hcmos⟩
          · exact fun h => ⟨rfl, h.cmos hcarry hcarry'⟩

/-- A BIOS that reports 15 MiB and 16 MiB of extended memory, in the second pair of registers
only. -/
def secondPairBios : Bios where
  e820 _ := ⟨true, 0, 0, 0⟩
  e801Carry := false
  ax := 0
  bx := 0
  cx := 0x3C00
  dx := 0x100
  ah88Carry := true
  ah88Ax := 0
  cmos _ := 0
  ax_le := by decide
  bx_lt := by decide
  cx_le := by decide
  dx_lt := by decide
  ah88Ax_lt := by decide

/-- The kernel takes it for a machine with one megabyte. -/
theorem second_pair_ignored :
    e820Next secondPairBios 8 0 = 0 ∧ reported secondPairBios = (.useE801, 31744) ∧
      reportedKiB secondPairBios = 32768 ∧
      bootinfoGetmem 0 (detectMemory secondPairBios ⟨0, 0, 0, 0⟩) = 1024 := by
  decide +kernel

/-- The same memory in the first pair of registers. -/
def firstPairBios : Bios :=
  { secondPairBios with ax := 0x3C00, bx := 0x100, ax_le := by decide, bx_lt := by decide }

theorem availMemoryKib_iff_first_pair :
    bootinfoGetmem 0 (detectMemory firstPairBios ⟨0, 0, 0, 0⟩) = 32768 := by
  have hplain : firstPairBios.Plain :=
    ⟨fun _ => by decide, fun h => absurd h (by decide), fun h => absurd h (by decide)⟩
  rw [((availMemoryKib_iff firstPairBios ⟨0, 0, 0, 0⟩ 0 (by decide)).mpr hplain).2]
  decide

end Unidos.Boot
