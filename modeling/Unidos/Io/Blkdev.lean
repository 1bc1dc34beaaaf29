import Unidos.Lib.Run
import Unidos.Machine

/-!
# Byte access to block devices

After `kernel/io/blkdev.c`. The adapters `kblkdev_read_bytes` and `kblkdev_write_bytes` turn a range
of bytes into a range of blocks, by a shift and a mask instead of a division, and hand it to the
driver. `blkdev_exact` says that the blocks are the right ones, over unbounded integers, and that
the driver is called for a range inside the device and for no other.
-/

namespace Unidos.Io

open Lib

/-- The error numbers of `blkdev.c`. -/
inductive BlkErrno where
  | fault
  | inval
  | nosys
  | overflow
  | badfd
  deriving DecidableEq, Repr

/-- The value of an error number. -/
def BlkErrno.code : BlkErrno → Int
  | .fault => 0x0E
  | .inval => 0x16
  | .nosys => 0x26
  | .overflow => 0x4B
  | .badfd => 0x4D

/-- A read or write function of a driver with data `σ`: buffer, number of blocks, first block. -/
abbrev BlkFn (σ : Type) := σ → BitVec 32 → BitVec 32 → BitVec 64 → Int × σ

/-- The part of `kblkdev_t` that says which blocks the device has. -/
structure BlkRange where
  blockSize : BitVec 32
  baseLba : BitVec 64
  spanBlocks : BitVec 64

/-- `kblkdev_t`. -/
structure Kblkdev (σ : Type) extends BlkRange where
  read : Option (BlkFn σ)
  write : Option (BlkFn σ)

variable {σ : Type}

/-- The loop that finds `block_shift`; `none` if it has not ended after so many tests. -/
def shiftLoop : Nat → BitVec 32 → Nat → Option Nat
  | 0, _, _ => none
  | fuel + 1, bs, shift => if bs > 1 then shiftLoop fuel (bs >>> 1) (shift + 1) else some shift

/-- `blkdev_prepare_aligned_io`, with the addresses of variables for its results: the number of
blocks and the first one. The device it stores in `out_blk` is that of the target. -/
def blkdevPrepareAlignedIo (target : Option BlkRange) (bytesize : BitVec 32) (offset : BitVec 64) :
    Except Trap (Except BlkErrno (BitVec 32 × BitVec 64)) :=
  match target with
  | none => .ok (.error .inval)
  | some blk =>
      if blk.blockSize = 0 then .ok (.error .inval)
      else if blk.blockSize &&& (blk.blockSize - 1) ≠ 0 then .ok (.error .inval)
      else
        match shiftLoop 32 blk.blockSize 0 with
        | none => .error .diverge
        | some blockShift =>
            let blockMask := blk.blockSize.setWidth 64 - 1
            if offset &&& blockMask ≠ 0 then .ok (.error .inval)
            else if bytesize % blk.blockSize ≠ 0 then .ok (.error .inval)
            else
              let relLba := offset >>> blockShift
              let blockCount := bytesize / blk.blockSize
              let blockCountOff := blockCount.setWidth 64
              if relLba > blk.spanBlocks then .ok (.error .inval)
              else if blockCountOff > blk.spanBlocks - relLba then .ok (.error .inval)
              else if blk.baseLba > BitVec.allOnes 64 - relLba then .ok (.error .overflow)
              else .ok (.ok (blockCount, blk.baseLba + relLba))

/-- What `kblkdev_read_bytes` and `kblkdev_write_bytes` share; `op` is the driver's function. -/
def kblkdevBytes (op : Kblkdev σ → Option (BlkFn σ)) (target : Option (Kblkdev σ))
    (bytebuffer bytesize : BitVec 32) (offset : BitVec 64) (device : σ) : Except Trap (Int × σ) :=
  match target with
  | none => .ok (-BlkErrno.badfd.code, device)
  | some blk =>
      if bytebuffer = 0 ∧ bytesize ≠ 0 then .ok (-BlkErrno.fault.code, device)
      else do
        let prep ← blkdevPrepareAlignedIo (some blk.toBlkRange) bytesize offset
        match prep with
        | .error e => .ok (-e.code, device)
        | .ok (blockCount, effectiveLba) =>
            if blockCount = 0 then .ok (0, device)
            else
              match op blk with
              | none => .ok (-BlkErrno.nosys.code, device)
              | some f => .ok (f device bytebuffer blockCount effectiveLba)

/-- `kblkdev_read_bytes`. -/
def kblkdevReadBytes (target : Option (Kblkdev σ)) (bytebuffer bytesize : BitVec 32)
    (offset : BitVec 64) (device : σ) : Except Trap (Int × σ) :=
  kblkdevBytes (·.read) target bytebuffer bytesize offset device

/-- `kblkdev_write_bytes`. -/
def kblkdevWriteBytes (target : Option (Kblkdev σ)) (bytebuffer bytesize : BitVec 32)
    (offset : BitVec 64) (device : σ) : Except Trap (Int × σ) :=
  kblkdevBytes (·.write) target bytebuffer bytesize offset device

/-! ## The translation of a range -/

/-- The range of bytes is a range of whole blocks inside the span of the device, and the number of
its first block has 64 bits. All sums are those of unbounded integers. -/
structure BlkRange.Fits (blk : BlkRange) (bytesize : BitVec 32) (offset : BitVec 64) : Prop where
  power : ∃ k, blk.blockSize.toNat = 2 ^ k
  offset_dvd : blk.blockSize.toNat ∣ offset.toNat
  size_dvd : blk.blockSize.toNat ∣ bytesize.toNat
  span : offset.toNat / blk.blockSize.toNat + bytesize.toNat / blk.blockSize.toNat ≤
    blk.spanBlocks.toNat
  lba_lt : blk.baseLba.toNat + offset.toNat / blk.blockSize.toNat < 2 ^ 64

/-- The number of blocks of a range. -/
def BlkRange.blockCount (blk : BlkRange) (bytesize : BitVec 32) : BitVec 32 :=
  bytesize / blk.blockSize

/-- The first block of a range. -/
def BlkRange.firstLba (blk : BlkRange) (offset : BitVec 64) : Nat :=
  blk.baseLba.toNat + offset.toNat / blk.blockSize.toNat

section Prepare

variable {blk : BlkRange} {bytesize : BitVec 32} {offset : BitVec 64}

/-- The test for a power of two. -/
theorem and_sub_one_eq_zero_iff (hne : blk.blockSize ≠ 0) :
    blk.blockSize &&& (blk.blockSize - 1) = 0 ↔ ∃ k, blk.blockSize.toNat = 2 ^ k := by
  have hpos : blk.blockSize.toNat ≠ 0 := fun h => hne (BitVec.eq_of_toNat_eq (by simpa using h))
  have hlt := blk.blockSize.isLt
  have hsub : (blk.blockSize - 1).toNat = blk.blockSize.toNat - 1 := by
    rw [BitVec.toNat_sub]
    simp only [BitVec.ofNat_eq_ofNat, BitVec.toNat_ofNat]
    omega
  rw [← BitVec.toNat_inj, BitVec.toNat_and, hsub]
  exact Nat.and_sub_one_eq_zero_iff_isPowerOfTwo hpos

/-- The loop counts the halvings of a power of two. -/
theorem shiftLoop_pow {k fuel shift : Nat} {bs : BitVec 32} (hbs : bs.toNat = 2 ^ k)
    (hfuel : k < fuel) : shiftLoop fuel bs shift = some (shift + k) := by
  induction k generalizing fuel bs shift with
  | zero =>
      obtain ⟨fuel, rfl⟩ : ∃ n, fuel = n + 1 := ⟨fuel - 1, by omega⟩
      have hone : bs = 1 := BitVec.eq_of_toNat_eq hbs
      rw [hone]
      rfl
  | succ k ih =>
      obtain ⟨fuel, rfl⟩ : ∃ n, fuel = n + 1 := ⟨fuel - 1, by omega⟩
      have hpos := Nat.two_pow_pos k
      have hgt : bs > 1 := by
        rw [gt_iff_lt, BitVec.lt_def, hbs, Nat.pow_succ]
        show 1 < _
        omega
      have hhalf : (bs >>> 1).toNat = 2 ^ k := by
        rw [BitVec.toNat_ushiftRight, Nat.shiftRight_eq_div_pow, hbs, Nat.pow_succ]
        omega
      rw [shiftLoop, if_pos hgt, ih hhalf (by omega)]
      congr 1
      omega

/-- Shift and mask divide by a power of two. -/
theorem mask_shift {k : Nat} (hk : blk.blockSize.toNat = 2 ^ k) (offset : BitVec 64) :
    (offset &&& (blk.blockSize.setWidth 64 - 1) = 0 ↔ blk.blockSize.toNat ∣ offset.toNat) ∧
      (offset >>> k).toNat = offset.toNat / blk.blockSize.toNat := by
  have hlt := blk.blockSize.isLt
  have hpos := Nat.two_pow_pos k
  have hmask : (blk.blockSize.setWidth 64 - 1).toNat = 2 ^ k - 1 := by
    rw [BitVec.toNat_sub, BitVec.toNat_setWidth, hk]
    simp only [BitVec.ofNat_eq_ofNat, BitVec.toNat_ofNat]
    omega
  constructor
  · rw [← BitVec.toNat_inj, BitVec.toNat_and, hmask, Nat.and_two_pow_sub_one_eq_mod, hk]
    exact (Nat.dvd_iff_mod_eq_zero).symm
  · rw [BitVec.toNat_ushiftRight, Nat.shiftRight_eq_div_pow, hk]

/-- The call succeeds exactly if the range fits, and then names its blocks. -/
theorem blkdevPrepareAlignedIo_cases (blk : BlkRange) (bytesize : BitVec 32)
    (offset : BitVec 64) :
    (blk.Fits bytesize offset ∧ ∃ lba : BitVec 64, lba.toNat = blk.firstLba offset ∧
      blkdevPrepareAlignedIo (some blk) bytesize offset =
        .ok (.ok (blk.blockCount bytesize, lba))) ∨
    (¬ blk.Fits bytesize offset ∧ ∃ e,
      blkdevPrepareAlignedIo (some blk) bytesize offset = .ok (.error e)) := by
  unfold blkdevPrepareAlignedIo
  dsimp only
  split
  · rename_i hzero
    refine .inr ⟨fun h => ?_, _, rfl⟩
    obtain ⟨k, hk⟩ := h.power
    rw [hzero] at hk
    exact absurd hk (Nat.ne_of_lt (Nat.two_pow_pos k))
  rename_i hne
  split
  · rename_i hpower
    exact .inr ⟨fun h => hpower ((and_sub_one_eq_zero_iff hne).mpr h.power), _, rfl⟩
  rename_i hpower
  obtain ⟨k, hk⟩ := (and_sub_one_eq_zero_iff hne).mp (Decidable.not_not.mp hpower)
  have hk32 : k < 32 := (Nat.pow_lt_pow_iff_right (by decide)).mp (hk ▸ blk.blockSize.isLt)
  obtain ⟨hmask, hshift⟩ := mask_shift hk offset
  rw [shiftLoop_pow hk hk32, Nat.zero_add]
  dsimp only
  split
  · rename_i hoff
    exact .inr ⟨fun h => hoff (hmask.mpr h.offset_dvd), _, rfl⟩
  rename_i hoff
  have hsize : bytesize % blk.blockSize = 0 ↔ blk.blockSize.toNat ∣ bytesize.toNat := by
    rw [← BitVec.toNat_inj, BitVec.toNat_umod]
    exact (Nat.dvd_iff_mod_eq_zero).symm
  split
  · rename_i hrem
    exact .inr ⟨fun h => hrem (hsize.mpr h.size_dvd), _, rfl⟩
  rename_i hrem
  -- from here on only the three comparisons are left, with no wrap before them
  have hcount : ((bytesize / blk.blockSize).setWidth 64).toNat =
      bytesize.toNat / blk.blockSize.toNat := by
    rw [BitVec.toNat_setWidth, BitVec.toNat_udiv]
    have hle := Nat.div_le_self bytesize.toNat blk.blockSize.toNat
    exact Nat.mod_eq_of_lt (Nat.lt_of_le_of_lt hle (Nat.lt_trans bytesize.isLt (by decide)))
  have hbase := blk.baseLba.isLt
  have hspanlt := blk.spanBlocks.isLt
  split
  · rename_i hrel
    rw [gt_iff_lt, BitVec.lt_def, hshift] at hrel
    exact .inr ⟨fun h => by have := h.span; omega, _, rfl⟩
  rename_i hrel
  rw [gt_iff_lt, BitVec.lt_def, hshift] at hrel
  have hroom : (blk.spanBlocks - offset >>> k).toNat =
      blk.spanBlocks.toNat - offset.toNat / blk.blockSize.toNat := by
    rw [BitVec.toNat_sub, hshift]
    omega
  split
  · rename_i hspan
    rw [gt_iff_lt, BitVec.lt_def, hroom, hcount] at hspan
    exact .inr ⟨fun h => by have := h.span; omega, _, rfl⟩
  rename_i hspan
  rw [gt_iff_lt, BitVec.lt_def, hroom, hcount] at hspan
  have hlimit : (BitVec.allOnes 64 - offset >>> k).toNat =
      2 ^ 64 - 1 - offset.toNat / blk.blockSize.toNat := by
    rw [BitVec.toNat_sub, hshift, BitVec.toNat_allOnes]
    omega
  split
  · rename_i hover
    rw [gt_iff_lt, BitVec.lt_def, hlimit] at hover
    exact .inr ⟨fun h => by have := h.lba_lt; omega, _, rfl⟩
  rename_i hover
  rw [gt_iff_lt, BitVec.lt_def, hlimit] at hover
  refine .inl ⟨⟨⟨k, hk⟩, hmask.mp (Decidable.not_not.mp hoff), hsize.mp (Decidable.not_not.mp hrem),
    by omega, by omega⟩, _, ?_, rfl⟩
  rw [BitVec.toNat_add, hshift, BlkRange.firstLba]
  omega

end Prepare

/-! ## The adapters -/

/-- The contract of an adapter, as a function of the driver's function, the buffer and the data of
the driver. A request that is refused gives the same result whatever the driver would do: it is not
called. -/
structure AdapterSpec (blk : BlkRange) (bytesize : BitVec 32) (offset : BitVec 64)
    (io : Option (BlkFn σ) → BitVec 32 → σ → Except Trap (Int × σ)) : Prop where
  called : blk.Fits bytesize offset → blk.blockCount bytesize ≠ 0 → ∀ f buffer device,
    buffer ≠ 0 → ∃ lba : BitVec 64, lba.toNat = blk.firstLba offset ∧
      io (some f) buffer device = .ok (f device buffer (blk.blockCount bytesize) lba)
  refused : ∀ buffer,
    ¬ (blk.Fits bytesize offset ∧ blk.blockCount bytesize ≠ 0 ∧ buffer ≠ 0) →
    ∃ ret : Int, ret ≤ 0 ∧ ∀ op device, io op buffer device = .ok (ret, device)
  no_driver : ∀ buffer, ∃ ret : Int, ret ≤ 0 ∧ ∀ device, io none buffer device = .ok (ret, device)

section Adapter

theorem BlkErrno.neg_code (e : BlkErrno) : -e.code ≤ 0 := by
  cases e <;> decide

/-- The shared part of the adapters, for devices that differ in one function of the driver. -/
theorem kblkdevBytes_spec (blk : BlkRange) (bytesize : BitVec 32) (offset : BitVec 64)
    (op : Kblkdev σ → Option (BlkFn σ)) (device : Option (BlkFn σ) → Kblkdev σ)
    (hrange : ∀ f, (device f).toBlkRange = blk) (hop : ∀ f, op (device f) = f) :
    AdapterSpec blk bytesize offset fun f buffer data =>
      kblkdevBytes op (some (device f)) buffer bytesize offset data := by
  have hzero : bytesize = 0 → blk.blockCount bytesize = 0 := by
    rintro rfl
    exact BitVec.zero_udiv
  have hnull : ∀ buffer : BitVec 32, buffer = 0 ∧ bytesize ≠ 0 → ∀ f data,
      kblkdevBytes op (some (device f)) buffer bytesize offset data =
        .ok (-BlkErrno.fault.code, data) := by
    intro buffer h f data
    exact if_pos h
  rcases blkdevPrepareAlignedIo_cases blk bytesize offset with
    ⟨hfits, lba, hlba, hprep⟩ | ⟨hfits, e, hprep⟩
  · have hrun : ∀ buffer : BitVec 32, ¬ (buffer = 0 ∧ bytesize ≠ 0) → ∀ f data,
        kblkdevBytes op (some (device f)) buffer bytesize offset data =
          if blk.blockCount bytesize = 0 then .ok (0, data)
          else
            match f with
            | none => .ok (-BlkErrno.nosys.code, data)
            | some f => .ok (f data buffer (blk.blockCount bytesize) lba) := by
      intro buffer h f data
      simp only [kblkdevBytes, if_neg h, hrange, hprep, ok_bind, hop]
    refine ⟨fun _ hcount f buffer data hbuffer => ⟨lba, hlba, ?_⟩, fun buffer hnot => ?_,
      fun buffer => ?_⟩
    · show kblkdevBytes op (some (device (some f))) buffer bytesize offset data = _
      rw [hrun buffer (fun h => hbuffer h.1), if_neg hcount]
    · by_cases hbuffer : buffer = 0 ∧ bytesize ≠ 0
      · exact ⟨_, BlkErrno.neg_code .fault, hnull buffer hbuffer⟩
      · have hcount : blk.blockCount bytesize = 0 := Decidable.byContradiction fun hcount =>
          hnot ⟨hfits, hcount, fun h => hbuffer ⟨h, fun hsize => hcount (hzero hsize)⟩⟩
        refine ⟨0, Int.le_refl 0, fun f data => ?_⟩
        show kblkdevBytes op (some (device f)) buffer bytesize offset data = _
        rw [hrun buffer hbuffer, if_pos hcount]
    · by_cases hbuffer : buffer = 0 ∧ bytesize ≠ 0
      · exact ⟨_, BlkErrno.neg_code .fault, hnull buffer hbuffer none⟩
      · by_cases hcount : blk.blockCount bytesize = 0
        · refine ⟨0, Int.le_refl 0, fun data => ?_⟩
          show kblkdevBytes op (some (device none)) buffer bytesize offset data = _
          rw [hrun buffer hbuffer, if_pos hcount]
        · refine ⟨_, BlkErrno.neg_code .nosys, fun data => ?_⟩
          show kblkdevBytes op (some (device none)) buffer bytesize offset data = _
          rw [hrun buffer hbuffer, if_neg hcount]
  · have hrefused : ∀ buffer : BitVec 32, ∃ ret : Int, ret ≤ 0 ∧ ∀ f data,
        kblkdevBytes op (some (device f)) buffer bytesize offset data = .ok (ret, data) := by
      intro buffer
      by_cases hbuffer : buffer = 0 ∧ bytesize ≠ 0
      · exact ⟨_, BlkErrno.neg_code .fault, hnull buffer hbuffer⟩
      · refine ⟨_, e.neg_code, fun f data => ?_⟩
        simp only [kblkdevBytes, if_neg hbuffer, hrange, hprep, ok_bind]
    refine ⟨fun h => absurd h hfits, fun buffer _ => hrefused buffer, fun buffer => ?_⟩
    obtain ⟨ret, hle, hret⟩ := hrefused buffer
    exact ⟨ret, hle, hret none⟩

end Adapter

/-- Every block of a range that fits lies inside the span of the device. -/
theorem BlkRange.Fits.inside {blk : BlkRange} {bytesize : BitVec 32} {offset : BitVec 64}
    (h : blk.Fits bytesize offset) {b : Nat} (hlo : blk.firstLba offset ≤ b)
    (hhi : b < blk.firstLba offset + (blk.blockCount bytesize).toNat) :
    blk.baseLba.toNat ≤ b ∧ b < blk.baseLba.toNat + blk.spanBlocks.toNat := by
  have hspan := h.span
  have hcount : (blk.blockCount bytesize).toNat = bytesize.toNat / blk.blockSize.toNat :=
    BitVec.toNat_udiv
  unfold BlkRange.firstLba at hlo hhi
  generalize offset.toNat / blk.blockSize.toNat = rel at hspan hlo hhi
  omega

/-- For every device, every byte size and every offset: the translation succeeds exactly if the
range fits, with the blocks of the range, which are blocks of the device; and the adapters call the
driver for a range that fits and has a block, and otherwise return an error or 0 without a call. -/
theorem blkdev_exact (blk : Kblkdev σ) (bytesize : BitVec 32) (offset : BitVec 64) :
    (∃ prep, blkdevPrepareAlignedIo (some blk.toBlkRange) bytesize offset = .ok prep ∧
      ((∃ blocks, prep = .ok blocks) ↔ blk.Fits bytesize offset) ∧
      ∀ count lba, prep = .ok (count, lba) →
        count.toNat = bytesize.toNat / blk.blockSize.toNat ∧
        lba.toNat = blk.baseLba.toNat + offset.toNat / blk.blockSize.toNat ∧
        ∀ b, lba.toNat ≤ b → b < lba.toNat + count.toNat →
          blk.baseLba.toNat ≤ b ∧ b < blk.baseLba.toNat + blk.spanBlocks.toNat) ∧
    AdapterSpec blk.toBlkRange bytesize offset (fun read buffer data =>
      kblkdevReadBytes (some { blk with read := read }) buffer bytesize offset data) ∧
    AdapterSpec blk.toBlkRange bytesize offset (fun write buffer data =>
      kblkdevWriteBytes (some { blk with write := write }) buffer bytesize offset data) := by
  refine ⟨?_, kblkdevBytes_spec blk.toBlkRange bytesize offset Kblkdev.read
      (fun read => { blk with read := read }) (fun _ => rfl) (fun _ => rfl),
    kblkdevBytes_spec blk.toBlkRange bytesize offset Kblkdev.write
      (fun write => { blk with write := write }) (fun _ => rfl) (fun _ => rfl)⟩
  rcases blkdevPrepareAlignedIo_cases blk.toBlkRange bytesize offset with
    ⟨hfits, lba, hlba, hprep⟩ | ⟨hfits, e, hprep⟩
  · refine ⟨_, hprep, ⟨fun _ => hfits, fun _ => ⟨_, rfl⟩⟩, fun count lba' h => ?_⟩
    obtain ⟨rfl, rfl⟩ := Prod.mk.inj (Except.ok.inj h)
    exact ⟨BitVec.toNat_udiv, hlba, fun b hlo hhi => hfits.inside (hlba ▸ hlo) (hlba ▸ hhi)⟩
  · refine ⟨_, hprep, ⟨fun ⟨_, h⟩ => (by cases h), fun h => absurd h hfits⟩, fun count lba h => ?_⟩
    cases h

end Unidos.Io
