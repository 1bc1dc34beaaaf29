import Unidos.Lib.Crc

/-!
# The checksum of the kernel image

After `.copy_loop` and `.crc32_finalize` of `boot/stage2/stage2.asm`. The second stage of the boot
loader updates the checksum with every byte it copies, in two rounds with a table of sixteen words.
The result is the CRC-32 of the bytes, however they are split into clusters (`stage2Crc_eq`).
-/

namespace Unidos.Boot

open Lib

/-- `crc32Table`. -/
def crc32Table : List (BitVec 32) := [
  0x00000000, 0x1DB71064, 0x3B6E20C8, 0x26D930AC,
  0x76DC4190, 0x6B6B51F4, 0x4DB26158, 0x5005713C,
  0xEDB88320, 0xF00F9344, 0xD6D6A3E8, 0xCB61B38C,
  0x9B64C2B0, 0x86D3D2D4, 0xA00AE278, 0xBDBDF21C]

/-- A round for the low nibble of `eax`. -/
def crcRound (eax : BitVec 32) : BitVec 32 :=
  let edx := eax &&& 0x0F
  (eax >>> 4) ^^^ crc32Table.getD edx.toNat 0

/-- The update of `kernelCrcRuntime` in `.copy_loop`, with `al` and `dl` exclusive-ored first. -/
def crcByte (eax : BitVec 32) (dl : BitVec 8) : BitVec 32 :=
  crcRound (crcRound (eax ^^^ dl.setWidth 32))

/-- The value of `kernelCrcRuntime` after the bytes of a cluster were copied. -/
def crcCluster (kernelCrcRuntime : BitVec 32) (bytes : List (BitVec 8)) : BitVec 32 :=
  bytes.foldl crcByte kernelCrcRuntime

/-- What `.crc32_finalize` compares with the expected checksum, after all clusters. -/
def stage2Crc (clusters : List (List (BitVec 8))) : BitVec 32 :=
  clusters.foldl crcCluster 0xFFFFFFFF ^^^ 0xFFFFFFFF

/-- CRC-32: the reflected division by `0xEDB88320`. -/
def crc32 (bytes : List (BitVec 8)) : BitVec 32 :=
  Crc.checksum 0xEDB88320 0xFFFFFFFF 0xFFFFFFFF bytes

/-- The table has the corrections for four bits. -/
theorem crc32Table_eq : ∀ i < 16,
    crc32Table.getD i 0 = (Crc.shift 0xEDB88320)^[4] (BitVec.ofNat 32 i) := by decide +kernel

theorem crcRound_eq (eax : BitVec 32) : crcRound eax = (Crc.shift 0xEDB88320)^[4] eax := by
  have hlt : (eax &&& 0x0F).toNat < 16 := by
    rw [BitVec.toNat_and]
    exact Nat.lt_of_le_of_lt Nat.and_le_right (by decide)
  rw [Crc.iterate_shift_split, crcRound, crc32Table_eq _ hlt, BitVec.ofNat_toNat,
    BitVec.setWidth_eq]
  rfl

theorem crcByte_eq : crcByte = Crc.update 0xEDB88320 := by
  funext eax dl
  rw [crcByte, crcRound_eq, crcRound_eq, ← Function.iterate_add_apply]
  rfl

/-- Splitting the bytes does not matter. -/
theorem foldl_crcCluster (crc : BitVec 32) (clusters : List (List (BitVec 8))) :
    clusters.foldl crcCluster crc = clusters.flatten.foldl crcByte crc := by
  induction clusters generalizing crc with
  | nil => rfl
  | cons bytes clusters ih => rw [List.foldl_cons, ih, List.flatten_cons, List.foldl_append,
      crcCluster]

theorem stage2Crc_eq (clusters : List (List (BitVec 8))) :
    stage2Crc clusters = crc32 clusters.flatten := by
  rw [stage2Crc, foldl_crcCluster, crcByte_eq]
  rfl

/-- The check value of CRC-32: the digits `1` to `9`. -/
example : crc32 [0x31, 0x32, 0x33, 0x34, 0x35, 0x36, 0x37, 0x38, 0x39] = 0xCBF43926 := by
  decide +kernel

end Unidos.Boot
