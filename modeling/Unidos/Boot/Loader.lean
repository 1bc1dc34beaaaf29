import Unidos.Boot.Crc
import Unidos.Lib.Memory

/-!
# Loading the kernel image

After `.parse_kernel`, `.copy_cluster_to_himem` and `.fat12_next_cluster` of
`boot/stage2/stage2.asm`. The loader follows the chain of the kernel's clusters in the FAT, reads
each into a bounce buffer, and copies it to its place above 1 MiB. The number of bytes that remain
is kept in two words; the loop ends by it, whatever the chain looks like.

`parseKernel_loads` says that this ends, and that it ends either with the image in its place, or
with the error that the chain deserves.
-/

namespace Unidos.Boot

open Lib

/-! ## Media -/

/-- The floppy formats of `boot/media.asm`. -/
inductive Floppy where
  | floppy720K
  | floppy1200K
  | floppy1440K
  deriving DecidableEq, Repr

namespace Floppy

def rootEntries : Floppy → Nat
  | .floppy720K => 112
  | .floppy1200K => 224
  | .floppy1440K => 224

def totalSectors16 : Floppy → Nat
  | .floppy720K => 1440
  | .floppy1200K => 2400
  | .floppy1440K => 2880

def sectorsPerFat : Floppy → Nat
  | .floppy720K => 3
  | .floppy1200K => 7
  | .floppy1440K => 9

end Floppy

/-- A medium: its format, and the sectors that the build reserves for the second stage, which leave
room for data. The contents are given by sector and by byte in the sector. -/
structure Medium where
  format : Floppy
  stage2ReservedSectors : Nat
  contents : Nat → Nat → Byte
  room : 1 + stage2ReservedSectors + 2 * format.sectorsPerFat +
    (format.rootEntries * 32 + 511) / 512 ≤ format.totalSectors16

/-- `dataStartLba`. -/
def Medium.dataStartLba (m : Medium) : Nat :=
  1 + m.stage2ReservedSectors + 2 * m.format.sectorsPerFat + (m.format.rootEntries * 32 + 511) / 512

/-- `FAT_SECTORS_PER_CLUSTER`, the same for all formats. -/
def sectorsPerCluster : Nat := 1

/-! ## The loader -/

/-- `FAT_BUFFER_SEG` as a linear address. -/
def fatBuffer : Nat := 0x62000

/-- `BOUNCE_BUFFER_SEG` as a linear address. -/
def bounceBuffer : Nat := 0x64000

/-- `KERNEL_LOAD_LINEAR_ADDR`. -/
def kernelLoadLinearAddr : Nat := 0x00100000

/-- Memory and the variables of the loader, with `kernelRemainingBytes` as two words.
`sectorsRead` lists the sectors that were asked for. -/
structure Loader where
  mem : Memory
  kernelLoadCursor : Nat
  remainingLow : Nat
  remainingHigh : Nat
  kernelCurCluster : Nat
  kernelCrcRuntime : BitVec 32
  sectorsRead : List Nat

/-- `.read_lba_sector` into the bounce buffer at `bx`. -/
def readLbaSector (m : Medium) (s : Loader) (ax bx : Nat) : Loader :=
  { s with
    mem := fun a => if bounceBuffer + bx ≤ a ∧ a < bounceBuffer + bx + 512 then
      m.contents ax (a - (bounceBuffer + bx)) else s.mem a
    sectorsRead := s.sectorsRead ++ [ax] }

/-- `.read_cluster_sectors`. -/
def readClusterSectors (m : Medium) : Nat → Nat → Nat → Loader → Loader
  | 0, _, _, s => s
  | cx + 1, ax, bx, s =>
      readClusterSectors m cx ((ax + 1) % 2 ^ 16) ((bx + 512) % 2 ^ 16) (readLbaSector m s ax bx)

/-- `.copy_loop`, for `cx` bytes. -/
def copyLoop : Nat → Nat → Nat → Loader → Loader
  | 0, _, _, s => s
  | cx + 1, si, edi, s =>
      let al := s.mem (bounceBuffer + si)
      copyLoop cx ((si + 1) % 2 ^ 16) ((edi + 1) % 2 ^ 32)
        { s with
          mem := Function.update s.mem edi al
          kernelCrcRuntime := crcByte s.kernelCrcRuntime al }

/-- How often a body that ends in `loop` is executed: a counter of 0 wraps around. -/
def loopCount (cx : Nat) : Nat := if cx = 0 then 2 ^ 16 else cx

/-- `.copy_cluster_to_himem`. -/
def copyClusterToHimem (s : Loader) : Loader :=
  let dx := sectorsPerCluster * 512 % 2 ^ 16
  let cx := if s.remainingHigh ≠ 0 then dx else if s.remainingLow ≤ dx then s.remainingLow else dx
  let si := loopCount cx % 2 ^ 16
  let copied := copyLoop (loopCount cx) 0 s.kernelLoadCursor s
  { copied with
    kernelLoadCursor := (s.kernelLoadCursor + si) % 2 ^ 32
    remainingLow := (s.remainingLow + 2 ^ 16 - si) % 2 ^ 16
    remainingHigh := (s.remainingHigh + 2 ^ 16 - if s.remainingLow < si then 1 else 0) % 2 ^ 16 }

/-- `.fat12_next_cluster`. -/
def fat12NextCluster (mem : Memory) (ax : Nat) : Nat :=
  let bx := (ax + ax / 2) % 2 ^ 16
  let word := (mem (fatBuffer + bx)).toNat + 256 * (mem (fatBuffer + bx + 1)).toNat
  if ax % 2 = 1 then word / 16 % 4096 else word % 4096

/-- The ways to leave `.parse_kernel`. -/
inductive Outcome where
  | done
  | loadError
  | sizeMismatch
  deriving DecidableEq, Repr

/-- No bytes remain. -/
def Loader.finished (s : Loader) : Bool := s.remainingLow == 0 && s.remainingHigh == 0

/-- The first part of a round of `.kernel_loop`: read the current cluster and copy it. -/
def loadCluster (m : Medium) (s : Loader) : Loader :=
  let ax := (s.kernelCurCluster + 2 ^ 16 - 2) % 2 ^ 16
  let ax := ax * sectorsPerCluster % 2 ^ 16
  let ax := (ax + m.dataStartLba) % 2 ^ 16
  copyClusterToHimem (readClusterSectors m (loopCount sectorsPerCluster) ax 0 s)

/-- `.kernel_loop`, for at most `fuel` rounds. -/
def kernelLoop (m : Medium) : Nat → Loader → Option (Outcome × Loader)
  | 0, _ => none
  | fuel + 1, s =>
      if s.finished then some (.done, s)
      else
        let s := loadCluster m s
        if s.finished then some (.done, s)
        else
          let ax := fat12NextCluster s.mem s.kernelCurCluster
          if ax < 0x002 then some (.loadError, s)
          else if ax < 0xFF0 then kernelLoop m fuel { s with kernelCurCluster := ax }
          else if ax = 0xFF7 then some (.loadError, s)
          else if ax < 0xFF8 then some (.loadError, s)
          else if s.finished then some (.done, s)
          else some (.sizeMismatch, s)

/-- `.parse_kernel`. -/
def parseKernel (m : Medium) (fuel : Nat) (s : Loader) : Option (Outcome × Loader) :=
  kernelLoop m fuel
    { s with kernelLoadCursor := kernelLoadLinearAddr, kernelCrcRuntime := 0xFFFFFFFF }

/-- What `.capture_kernel_entry` stores for a directory entry. -/
def captureKernelEntry (s : Loader) (startCluster sizeBytes : Nat) : Loader :=
  { s with
    kernelCurCluster := startCluster
    remainingLow := sizeBytes % 2 ^ 16
    remainingHigh := sizeBytes / 2 ^ 16 }

/-! ## The chain -/

/-- An entry of a FAT with twelve bits for each cluster: three bytes hold two entries. -/
def fat12Entry (fat : Nat → Byte) (n : Nat) : Nat :=
  let pair := (fat (3 * (n / 2))).toNat + 256 * (fat (3 * (n / 2) + 1)).toNat +
    65536 * (fat (3 * (n / 2) + 2)).toNat
  if n % 2 = 0 then pair % 4096 else pair / 4096

/-- The clusters of a file, by following the entries from the first cluster. -/
def chain (fat : Nat → Byte) (start : Nat) : Nat → Nat
  | 0 => start
  | k + 1 => fat12Entry fat (chain fat start k)

/-- The number of a cluster with data. -/
def DataCluster (c : Nat) : Prop := 2 ≤ c ∧ c ≤ 0xFEF

/-- The bytes of the clusters along a chain, one after another. -/
def chainByte (m : Medium) (fat : Nat → Byte) (start i : Nat) : Byte :=
  m.contents (m.dataStartLba + chain fat start (i / 512) - 2) (i % 512)

/-- The FAT that is in memory. -/
def fatOf (mem : Memory) : Nat → Byte := fun i => mem (fatBuffer + i)

theorem fat12NextCluster_eq (mem : Memory) {n : Nat} (hn : n ≤ 0xFEF) :
    fat12NextCluster mem n = fat12Entry (fatOf mem) n := by
  have h0 := (mem (fatBuffer + 3 * (n / 2))).isLt
  have h1 := (mem (fatBuffer + (3 * (n / 2) + 1))).isLt
  have h2 := (mem (fatBuffer + (3 * (n / 2) + 2))).isLt
  unfold fat12NextCluster fat12Entry fatOf
  dsimp only
  by_cases hodd : n % 2 = 1
  · rw [show fatBuffer + (n + n / 2) % 2 ^ 16 = fatBuffer + (3 * (n / 2) + 1) by omega,
      show fatBuffer + (3 * (n / 2) + 1) + 1 = fatBuffer + (3 * (n / 2) + 2) by omega]
    rw [if_pos hodd, if_neg (by omega)]
    omega
  · rw [show fatBuffer + (n + n / 2) % 2 ^ 16 = fatBuffer + 3 * (n / 2) by omega,
      show fatBuffer + 3 * (n / 2) + 1 = fatBuffer + (3 * (n / 2) + 1) by omega]
    rw [if_neg hodd, if_pos (by omega)]
    omega

theorem fat12Entry_lt (fat : Nat → Byte) (n : Nat) : fat12Entry fat n < 4096 := by
  have h0 := (fat (3 * (n / 2))).isLt
  have h1 := (fat (3 * (n / 2) + 1)).isLt
  have h2 := (fat (3 * (n / 2) + 2)).isLt
  unfold fat12Entry
  dsimp only
  split
  · omega
  · omega

theorem fat12Entry_congr {fat fat' : Nat → Byte} {n : Nat} (hn : n ≤ 0xFEF)
    (h : ∀ i, i < 0x1800 → fat' i = fat i) : fat12Entry fat' n = fat12Entry fat n := by
  unfold fat12Entry
  rw [h _ (by omega), h _ (by omega), h _ (by omega)]

/-! ## A round -/

/-- What the copying of `n` bytes does. -/
theorem copyLoop_eq {n si edi : Nat} {s : Loader} (hsi : si + n ≤ 512)
    (hedi : bounceBuffer + 512 ≤ edi) (hend : edi + n < 2 ^ 32) :
    copyLoop n si edi s = { s with
      mem := fun a =>
        if edi ≤ a ∧ a < edi + n then s.mem (bounceBuffer + si + (a - edi)) else s.mem a
      kernelCrcRuntime := ((List.range n).map fun i => s.mem (bounceBuffer + si + i)).foldl crcByte
        s.kernelCrcRuntime } := by
  induction n generalizing si edi s with
  | zero =>
      have hmem : (fun a => if edi ≤ a ∧ a < edi + 0 then s.mem (bounceBuffer + si + (a - edi))
          else s.mem a) = s.mem := by
        funext a
        rw [if_neg (by omega)]
      rw [hmem]
      rfl
  | succ n ih =>
      rw [copyLoop, Nat.mod_eq_of_lt (by omega), Nat.mod_eq_of_lt (by omega),
        ih (by omega) (by omega) (by omega)]
      -- the bounce buffer is not written to
      have hbounce : ∀ i, i < 512 → Function.update s.mem edi (s.mem (bounceBuffer + si))
          (bounceBuffer + i) = s.mem (bounceBuffer + i) := fun i hi =>
        Function.update_of_ne (by omega) _ _
      dsimp only
      congr 1
      · funext a
        by_cases ha : edi + 1 ≤ a ∧ a < edi + 1 + n
        · rw [if_pos ha, if_pos (by omega), Nat.add_assoc, hbounce _ (by omega)]
          congr 1
          omega
        · rw [if_neg ha]
          by_cases hedi' : a = edi
          · rw [hedi', Function.update_self, if_pos (by omega), Nat.sub_self, Nat.add_zero]
          · rw [Function.update_of_ne hedi', if_neg (by omega)]
      · rw [List.range_succ_eq_map, List.map_cons, List.foldl_cons, List.map_map, Nat.add_zero]
        congr 1
        refine List.map_congr_left fun i hi => ?_
        have hlt := List.mem_range.mp hi
        rw [Nat.add_assoc, hbounce _ (by omega)]
        simp only [Function.comp_apply]
        congr 1
        omega

variable {m : Medium} {s s₀ t : Loader} {start size k b : Nat}

/-- The state after `k` clusters were read and `b` bytes were copied. -/
structure Loading (m : Medium) (s₀ : Loader) (start size k b : Nat) (s : Loader) : Prop where
  le : b ≤ size
  low : s.remainingLow < 65536
  remaining : 65536 * s.remainingHigh + s.remainingLow = size - b
  cursor : s.kernelLoadCursor = kernelLoadLinearAddr + b
  loaded : ∀ i, i < b →
    s.mem (kernelLoadLinearAddr + i) = chainByte m (fatOf s₀.mem) start i
  others : ∀ a, (a < kernelLoadLinearAddr ∨ kernelLoadLinearAddr + b ≤ a) →
    (a < bounceBuffer ∨ bounceBuffer + 512 ≤ a) → s.mem a = s₀.mem a
  crc : s.kernelCrcRuntime =
    ((List.range b).map (chainByte m (fatOf s₀.mem) start)).foldl crcByte 0xFFFFFFFF
  sectors : s.sectorsRead = s₀.sectorsRead ++
    (List.range k).map fun j => m.dataStartLba + chain (fatOf s₀.mem) start j - 2

theorem Loading.finished_iff (h : Loading m s₀ start size k b s) :
    s.finished = true ↔ b = size := by
  have hle := h.le
  have hremaining := h.remaining
  have hlow := h.low
  unfold Loader.finished
  rw [Bool.and_eq_true, beq_iff_eq, beq_iff_eq]
  omega

/-- The FAT is not written to. -/
theorem Loading.next_eq (h : Loading m s₀ start size k b s) {c : Nat} (hc : DataCluster c) :
    fat12NextCluster s.mem c = fat12Entry (fatOf s₀.mem) c := by
  rw [fat12NextCluster_eq _ hc.2]
  refine fat12Entry_congr hc.2 fun i hi => h.others _ (.inl ?_) (.inl ?_)
  · unfold fatBuffer kernelLoadLinearAddr
    omega
  · unfold fatBuffer bounceBuffer
    omega

theorem Medium.dataStartLba_lt (m : Medium) : m.dataStartLba ≤ 2880 := by
  have hroom := m.room
  have htotal : m.format.totalSectors16 ≤ 2880 := by cases m.format <;> decide
  unfold Medium.dataStartLba
  omega

/-- The number of bytes that are copied from a cluster. -/
theorem copyClusterToHimem_eq (hlow : s.remainingLow < 65536)
    (hpos : 0 < 65536 * s.remainingHigh + s.remainingLow) : ∃ n,
    n = min 512 (65536 * s.remainingHigh + s.remainingLow) ∧
      copyClusterToHimem s = { copyLoop n 0 s.kernelLoadCursor s with
        kernelLoadCursor := (s.kernelLoadCursor + n) % 2 ^ 32
        remainingLow := (s.remainingLow + 2 ^ 16 - n) % 2 ^ 16
        remainingHigh :=
          (s.remainingHigh + 2 ^ 16 - if s.remainingLow < n then 1 else 0) % 2 ^ 16 } := by
  refine ⟨_, rfl, ?_⟩
  have hcx : (if s.remainingHigh ≠ 0 then 512 else if s.remainingLow ≤ 512 then s.remainingLow
      else 512) = min 512 (65536 * s.remainingHigh + s.remainingLow) := by
    split
    · omega
    · split
      · omega
      · omega
  have hcount : loopCount (min 512 (65536 * s.remainingHigh + s.remainingLow)) =
      min 512 (65536 * s.remainingHigh + s.remainingLow) := if_neg (by omega)
  have hmod : min 512 (65536 * s.remainingHigh + s.remainingLow) % 2 ^ 16 =
      min 512 (65536 * s.remainingHigh + s.remainingLow) := Nat.mod_eq_of_lt (by omega)
  unfold copyClusterToHimem
  dsimp only
  rw [show sectorsPerCluster * 512 % 2 ^ 16 = 512 by decide, hcx, hcount, hmod]

/-- A cluster is one sector. -/
theorem loadCluster_eq (hc : DataCluster s.kernelCurCluster) :
    loadCluster m s = copyClusterToHimem
      (readLbaSector m s (m.dataStartLba + s.kernelCurCluster - 2) 0) := by
  have hlba := m.dataStartLba_lt
  obtain ⟨hlow, hhigh⟩ := hc
  have hax : ((s.kernelCurCluster + 2 ^ 16 - 2) % 2 ^ 16 * sectorsPerCluster % 2 ^ 16 +
      m.dataStartLba) % 2 ^ 16 = m.dataStartLba + s.kernelCurCluster - 2 := by
    unfold sectorsPerCluster
    omega
  unfold loadCluster
  dsimp only
  rw [hax]
  rfl

theorem Loading.loadCluster (h : Loading m s₀ start size k (512 * k) s)
    (hsize : size < 2 ^ 32 - 2 ^ 20) (hlt : 512 * k < size)
    (hcur : s.kernelCurCluster = chain (fatOf s₀.mem) start k)
    (hc : DataCluster s.kernelCurCluster) :
    Loading m s₀ start size (k + 1) (min (512 * (k + 1)) size) (Boot.loadCluster m s) ∧
      (Boot.loadCluster m s).kernelCurCluster = s.kernelCurCluster := by
  rw [loadCluster_eq hc]
  -- the state `u` has the cluster in the bounce buffer
  obtain ⟨u, hu⟩ : ∃ u, u = readLbaSector m s (m.dataStartLba + s.kernelCurCluster - 2) 0 :=
    ⟨_, rfl⟩
  have hlow : u.remainingLow = s.remainingLow := by rw [hu]; rfl
  have hhigh : u.remainingHigh = s.remainingHigh := by rw [hu]; rfl
  have hcursor : u.kernelLoadCursor = kernelLoadLinearAddr + 512 * k := by
    rw [hu]
    exact h.cursor
  have hcluster : u.kernelCurCluster = s.kernelCurCluster := by rw [hu]; rfl
  have hcrc : u.kernelCrcRuntime = s.kernelCrcRuntime := by rw [hu]; rfl
  have hsectors : u.sectorsRead =
      s.sectorsRead ++ [m.dataStartLba + s.kernelCurCluster - 2] := by rw [hu]; rfl
  have hbounce : ∀ i, i < 512 → u.mem (bounceBuffer + 0 + i) =
      chainByte m (fatOf s₀.mem) start (512 * k + i) := by
    intro i hi
    rw [hu, readLbaSector]
    dsimp only
    rw [if_pos (by omega), chainByte, show (512 * k + i) / 512 = k by omega, ← hcur,
      show (512 * k + i) % 512 = i by omega, Nat.add_sub_cancel_left]
  have hother : ∀ a, (a < bounceBuffer ∨ bounceBuffer + 512 ≤ a) → u.mem a = s.mem a := by
    intro a ha
    rw [hu, readLbaSector]
    dsimp only
    rw [if_neg (by omega)]
  rw [← hu]
  clear hu
  have hremaining := h.remaining
  have hword := h.low
  obtain ⟨n, hn, hcopy⟩ := copyClusterToHimem_eq (s := u) (by omega) (by omega)
  have hend : min (512 * (k + 1)) size = 512 * k + n := by omega
  have hplace : bounceBuffer + 512 ≤ kernelLoadLinearAddr := by decide
  have hwrap : u.kernelLoadCursor + n < 2 ^ 32 := by
    rw [hcursor]
    unfold kernelLoadLinearAddr
    omega
  rw [hcopy, copyLoop_eq (by omega) (by omega) hwrap, hend]
  refine ⟨⟨by omega, Nat.mod_lt _ (by decide), ?_, ?_, fun i hi => ?_, fun a ha hout => ?_, ?_, ?_⟩,
    hcluster⟩
  · dsimp only
    split
    · omega
    · omega
  · dsimp only
    rw [Nat.mod_eq_of_lt hwrap]
    omega
  · dsimp only
    by_cases hold : i < 512 * k
    · rw [if_neg (by omega), hother _ (by omega)]
      exact h.loaded i hold
    · rw [if_pos (by omega), hbounce _ (by omega)]
      congr 1
      omega
  · dsimp only
    rw [if_neg (by omega), hother a hout]
    exact h.others a (by omega) hout
  · dsimp only
    rw [hcrc, h.crc, List.range_add, List.map_append, List.foldl_append, List.map_map]
    congr 1
    refine List.map_congr_left fun i hi => ?_
    have hlt := List.mem_range.mp hi
    exact hbounce i (by omega)
  · dsimp only
    rw [hsectors, h.sectors, List.range_succ, List.map_append, List.append_assoc, hcur]
    rfl

/-! ## The whole loop -/

/-- How the loader ends after `k` clusters, by the chain and the size of the file. -/
inductive Ended (clusters : Nat → Nat) (size k : Nat) : Outcome → Prop where
  | done (hall : ∀ j, j < k → DataCluster (clusters j)) (hsize : size ≤ 512 * k) :
      Ended clusters size k .done
  | loadError (hall : ∀ j, j < k → DataCluster (clusters j)) (hsize : 512 * k < size)
      (hlink : clusters k < 2 ∨ (0xFF0 ≤ clusters k ∧ clusters k ≤ 0xFF7)) :
      Ended clusters size k .loadError
  | sizeMismatch (hall : ∀ j, j < k → DataCluster (clusters j)) (hsize : 512 * k < size)
      (hlink : 0xFF8 ≤ clusters k) : Ended clusters size k .sizeMismatch

/-- The loop ends after as many rounds as there are clusters left, or earlier. -/
theorem kernelLoop_ends {fuel : Nat} (hsize : size < 2 ^ 32 - 2 ^ 20)
    (h : Loading m s₀ start size k (512 * k) s) (hlt : 512 * k < size)
    (hcur : s.kernelCurCluster = chain (fatOf s₀.mem) start k)
    (hall : ∀ j, j < k + 1 → DataCluster (chain (fatOf s₀.mem) start j))
    (hfuel : size ≤ 512 * (k + fuel)) :
    ∃ outcome t k', kernelLoop m fuel s = some (outcome, t) ∧
      Ended (chain (fatOf s₀.mem) start) size k' outcome ∧
      Loading m s₀ start size k' (min (512 * k') size) t := by
  induction fuel generalizing k s with
  | zero => omega
  | succ fuel ih =>
      have hc : DataCluster s.kernelCurCluster := hcur ▸ hall k (by omega)
      obtain ⟨hnext, hsame⟩ := h.loadCluster hsize hlt hcur hc
      have hstart : ¬ s.finished = true := by
        rw [h.finished_iff]
        omega
      have hfinished := hnext.finished_iff
      unfold kernelLoop
      rw [if_neg hstart]
      dsimp only
      generalize Boot.loadCluster m s = u at hnext hsame hfinished
      by_cases hend : size ≤ 512 * (k + 1)
      · rw [if_pos (hfinished.mpr (by omega))]
        exact ⟨.done, u, k + 1, rfl, .done hall hend, hnext⟩
      · have hlink : fat12NextCluster u.mem u.kernelCurCluster =
            chain (fatOf s₀.mem) start (k + 1) := by
          rw [hsame, hnext.next_eq hc, hcur]
          rfl
        have hlt' : 512 * (k + 1) < size := by omega
        have hmin : min (512 * (k + 1)) size = 512 * (k + 1) := by omega
        have hgoing : ¬ u.finished = true := by
          rw [hfinished]
          omega
        rw [if_neg hgoing, hlink]
        by_cases h2 : chain (fatOf s₀.mem) start (k + 1) < 0x002
        · rw [if_pos h2]
          exact ⟨.loadError, u, k + 1, rfl, .loadError hall hlt' (.inl h2), hnext⟩
        · rw [if_neg h2]
          by_cases hdata : chain (fatOf s₀.mem) start (k + 1) < 0xFF0
          · rw [if_pos hdata]
            rw [hmin] at hnext
            refine ih (k := k + 1) ⟨hnext.le, hnext.low, hnext.remaining, hnext.cursor,
              hnext.loaded, hnext.others, hnext.crc, hnext.sectors⟩ hlt' rfl (fun j hj => ?_)
              (by omega)
            by_cases hj' : j = k + 1
            · rw [hj']
              exact ⟨by omega, by omega⟩
            · exact hall j (by omega)
          · rw [if_neg hdata]
            by_cases hbad : chain (fatOf s₀.mem) start (k + 1) < 0xFF8
            · refine ⟨.loadError, u, k + 1, ?_, .loadError hall hlt' (.inr ⟨by omega, by omega⟩),
                hnext⟩
              rw [if_pos hbad, ite_self]
            · rw [if_neg (by omega), if_neg hbad, if_neg hgoing]
              exact ⟨.sizeMismatch, u, k + 1, rfl, .sizeMismatch hall hlt' (by omega), hnext⟩

/-- Loading the kernel ends, after no more rounds than the file has clusters. It has read the
clusters of the chain from their sectors. Without an error the image is in its place, and the
checksum is the one of the image. In any case nothing else was written but the bounce buffer. -/
theorem parseKernel_loads (m : Medium) (s : Loader) (hstart : DataCluster start)
    (hsize : size < 2 ^ 32 - 2 ^ 20) :
    ∃ outcome t k, parseKernel m (size / 512 + 1) (captureKernelEntry s start size) =
        some (outcome, t) ∧
      Ended (chain (fatOf s.mem) start) size k outcome ∧
      (outcome = .done →
        (∀ i, i < size → t.mem (kernelLoadLinearAddr + i) = chainByte m (fatOf s.mem) start i) ∧
        t.kernelCrcRuntime ^^^ 0xFFFFFFFF =
          crc32 ((List.range size).map (chainByte m (fatOf s.mem) start))) ∧
      (∀ a, (a < kernelLoadLinearAddr ∨ kernelLoadLinearAddr + size ≤ a) →
        (a < bounceBuffer ∨ bounceBuffer + 512 ≤ a) → t.mem a = s.mem a) ∧
      t.sectorsRead = s.sectorsRead ++
        (List.range k).map fun j => m.dataStartLba + chain (fatOf s.mem) start j - 2 := by
  have hinit : Loading m s start size 0 (512 * 0)
      { captureKernelEntry s start size with
        kernelLoadCursor := kernelLoadLinearAddr, kernelCrcRuntime := 0xFFFFFFFF } := by
    refine ⟨by omega, Nat.mod_lt _ (by decide), ?_, rfl, fun i hi => absurd hi (by omega),
      fun a _ _ => rfl, rfl, ?_⟩
    · change 65536 * (size / 2 ^ 16) + size % 2 ^ 16 = _
      omega
    · change s.sectorsRead = s.sectorsRead ++ []
      rw [List.append_nil]
  obtain ⟨outcome, t, k, hret, hended, hloading⟩ : ∃ outcome t k,
      parseKernel m (size / 512 + 1) (captureKernelEntry s start size) = some (outcome, t) ∧
        Ended (chain (fatOf s.mem) start) size k outcome ∧
        Loading m s start size k (min (512 * k) size) t := by
    by_cases hempty : size = 0
    · refine ⟨.done, _, 0, ?_, .done (fun j hj => absurd hj (by omega)) (by omega),
        by rw [show min (512 * 0) size = 512 * 0 by omega]; exact hinit⟩
      rw [parseKernel, kernelLoop, if_pos (hinit.finished_iff.mpr (by omega))]
    · refine kernelLoop_ends hsize hinit (by omega) rfl (fun j hj => ?_) (by omega)
      rw [show j = 0 by omega]
      exact hstart
  refine ⟨outcome, t, k, hret, hended, fun hdone => ?_, fun a ha hout => ?_, hloading.sectors⟩
  · have hk : size ≤ 512 * k := by
      cases hended with
      | done _ hk => exact hk
      | loadError => cases hdone
      | sizeMismatch => cases hdone
    rw [Nat.min_eq_right hk] at hloading
    refine ⟨hloading.loaded, ?_⟩
    rw [hloading.crc, crcByte_eq]
    rfl
  · exact hloading.others a (by omega) hout

/-- A floppy whose bytes tell their place. -/
def sampleMedium : Medium where
  format := .floppy1440K
  stage2ReservedSectors := 7
  contents lba i := BitVec.ofNat 8 (lba + i)
  room := by decide

/-- Cluster 2 is followed by cluster 3, which is the last. -/
def sampleLoader : Loader where
  mem a :=
    if a = 0x62003 then 0x03 else if a = 0x62004 then 0xF0 else if a = 0x62005 then 0xFF else 0
  kernelLoadCursor := 0
  remainingLow := 0
  remainingHigh := 0
  kernelCurCluster := 0
  kernelCrcRuntime := 0
  sectorsRead := []

/-- A file of 600 bytes is loaded from two clusters. -/
theorem parseKernel_loads_two_clusters : ∃ t,
    parseKernel sampleMedium 2 (captureKernelEntry sampleLoader 2 600) = some (.done, t) ∧
      ∀ i, i < 600 → t.mem (kernelLoadLinearAddr + i) =
        chainByte sampleMedium (fatOf sampleLoader.mem) 2 i := by
  have hstart : DataCluster 2 := ⟨by decide, by decide⟩
  obtain ⟨outcome, t, k, hret, hended, hdone, -, -⟩ :=
    parseKernel_loads sampleMedium sampleLoader hstart (show 600 < 2 ^ 32 - 2 ^ 20 by decide)
  have hlinks : ∀ j, j < 2 → DataCluster (chain (fatOf sampleLoader.mem) 2 j) := by
    intro j hj
    obtain rfl | rfl : j = 0 ∨ j = 1 := by omega
    · exact ⟨by decide, by decide⟩
    · exact ⟨by decide, by decide⟩
  cases hended with
  | done => exact ⟨t, hret, (hdone rfl).1⟩
  | loadError _ hlt hlink =>
      obtain ⟨h1, h2⟩ := hlinks k (by omega)
      omega
  | sizeMismatch _ hlt hlink =>
      obtain ⟨h1, h2⟩ := hlinks k (by omega)
      omega

end Unidos.Boot
