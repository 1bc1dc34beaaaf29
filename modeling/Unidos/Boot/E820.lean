import Mathlib.Data.Finset.Lattice.Fold
import Mathlib.Order.Lattice.Nat
import Unidos.Boot.MemorySize
import Unidos.Lib.Errors
import Unidos.Lib.LittleEndian
import Unidos.Lib.Run
import Unidos.Machine

/-!
# The memory map of the firmware

After `decode_e820` of `kernel/bootinfo.c` and `.get_e820` of `boot/stage2/stage2.asm`. The boot
loader stores the descriptors of the BIOS with a stride of 24 bytes; the kernel accepts any stride
from 20 on. `decodeE820_exact` says which blocks are accepted, that no byte outside the data is
read, and what is decoded; and that the kernel reads back what the boot loader wrote.
-/

namespace Unidos.Boot

open Lib

/-! ## The block -/

/-- `bootinfo_e820_t`. The data are the bytes with an index below 192. -/
structure E820Block where
  entrySize : BitVec 16
  entryCount : BitVec 16
  totalLength : BitVec 16
  data : Nat → Byte

/-- `sizeof(e->data)`. -/
def e820DataSize : Nat := 192

/-- `E820_DESC_MAX`. -/
def e820DescMax : Nat := 8

/-- `e820_desc_t`, which takes 24 bytes. -/
structure E820Entry where
  base : BitVec 64
  length : BitVec 64
  type : BitVec 32
  attrs : BitVec 32
  deriving DecidableEq

/-- A descriptor that was zero before the bytes were copied over it. -/
def E820Entry.ofBytes (bytes : List Byte) : E820Entry where
  base := BitVec.ofNat 64 (leNat (bytes.take 8))
  length := BitVec.ofNat 64 (leNat ((bytes.drop 8).take 8))
  type := BitVec.ofNat 32 (leNat ((bytes.drop 16).take 4))
  attrs := BitVec.ofNat 32 (leNat ((bytes.drop 20).take 4))

/-- A descriptor as it lies in memory. -/
def E820Entry.bytes (d : E820Entry) : List Byte :=
  leBytes 8 d.base.toNat ++ leBytes 8 d.length.toNat ++ leBytes 4 d.type.toNat ++
    leBytes 4 d.attrs.toNat

/-! ## The kernel -/

/-- Read a byte of the data; there is nothing behind them that belongs to the block. -/
def E820Block.read (e : E820Block) (i : Nat) : Except Trap Byte :=
  if i < e820DataSize then .ok (e.data i) else .error .fault

/-- The variables of the loop of `decode_e820`; `p` is an offset into the data. -/
structure Decoding where
  usableBytes : BitVec 64
  topBytes : BitVec 64
  descs : List E820Entry
  p : Nat

/-- `end`, with the clamp for a sum that overflows. -/
def E820Entry.clampedEnd (d : E820Entry) : BitVec 64 :=
  if d.base + d.length < d.base then BitVec.allOnes 64 else d.base + d.length

/-- Count a usable descriptor. -/
def Decoding.count (acc : Decoding) (d : E820Entry) : Decoding :=
  if d.length ≠ 0 ∧ d.type = 1 then
    { acc with
      usableBytes := acc.usableBytes + d.length
      topBytes := if d.clampedEnd > acc.topBytes then d.clampedEnd else acc.topBytes }
  else acc

/-- Record a descriptor if there is room. -/
def Decoding.record (acc : Decoding) (d : E820Entry) (capacity : Nat) : Decoding :=
  if acc.descs.length < capacity then { acc with descs := acc.descs ++ [d] } else acc

section Updates

variable (acc : Decoding) (d : E820Entry) (capacity : Nat)

@[simp] theorem Decoding.p_count : (acc.count d).p = acc.p := by
  unfold Decoding.count
  split <;> rfl

@[simp] theorem Decoding.descs_count : (acc.count d).descs = acc.descs := by
  unfold Decoding.count
  split <;> rfl

@[simp] theorem Decoding.p_record : (acc.record d capacity).p = acc.p := by
  unfold Decoding.record
  split <;> rfl

@[simp] theorem Decoding.topBytes_record : (acc.record d capacity).topBytes = acc.topBytes := by
  unfold Decoding.record
  split <;> rfl

end Updates

/-- The number of bytes that are copied from an entry. -/
def E820Block.copyBytes (e : E820Block) : Nat :=
  if e.entrySize.toNat < 24 then e.entrySize.toNat else 24

/-- One round of the loop of `decode_e820`. -/
def decodeRound (e : E820Block) (capacity : Nat) (acc : Decoding) : Except Trap Decoding := do
  let bytes ← (List.range e.copyBytes).mapM fun k => e.read (acc.p + k)
  let d := E820Entry.ofBytes bytes
  let acc := (acc.count d).record d capacity
  .ok { acc with p := acc.p + e.entrySize.toNat }

/-- `e820_stats_t` and the descriptors that are recorded. -/
structure E820Map where
  usableKiB : BitVec 32
  topKiB : BitVec 32
  descs : List E820Entry

/-- `decode_e820`, with room for `capacity` descriptors. -/
def decodeE820 (e : E820Block) (capacity : Nat) : Except Trap (Option E820Map) :=
  if e.entrySize.toNat < 20 then .ok none
  else if e.entryCount = 0 then .ok none
  else if e.totalLength.toNat > e820DataSize then .ok none
  else
    let tableNeeded := e.entryCount.toNat * e.entrySize.toNat % 2 ^ 32
    if tableNeeded > e.totalLength.toNat then .ok none
    else do
      let acc ← (List.range e.entryCount.toNat).foldlM
        (fun acc _ => decodeRound e capacity acc) ⟨0, 0, [], 0⟩
      .ok (some ⟨(acc.usableBytes >>> 10).setWidth 32, (acc.topBytes >>> 10).setWidth 32,
        acc.descs⟩)

/-! ## The boot loader -/

/-- `.e820_next`, with room for `bp` more entries. The BIOS leaves the 24 bytes `entry i` in the
buffer of call number `i`; the attributes are set to 1 before the call. -/
def e820Store (b : Bios) (entry : Nat → Nat → Byte) : Nat → Nat → E820Block → E820Block
  | 0, _, e => e
  | bp + 1, i, e =>
      let r := b.e820 i
      let e := { e with data := fun k =>
        if 24 * i ≤ k ∧ k < 24 * i + 24 then entry i (k - 24 * i) else e.data k }
      if r.carry then e
      else if r.eax ≠ smap then e
      else if r.cx < 20 then e
      else
        let e := { e with entryCount := e.entryCount + 1, totalLength := e.totalLength + 24 }
        if bp = 0 then e
        else if r.ebx = 0 then e
        else e820Store b entry bp (i + 1) e

/-- The block that `.get_e820` leaves. -/
def e820Written (b : Bios) (entry : Nat → Nat → Byte) (data : Nat → Byte) : E820Block :=
  e820Store b entry 8 0 ⟨24, 0, 0, data⟩

/-! ## What is decoded -/

/-- The blocks that are accepted. -/
structure E820Block.Accepted (e : E820Block) : Prop where
  size : 20 ≤ e.entrySize.toNat
  count : 0 < e.entryCount.toNat
  length : e.totalLength.toNat ≤ 192
  table : e.entryCount.toNat * e.entrySize.toNat ≤ e.totalLength.toNat

/-- The descriptor of entry `i`: the first 24 bytes of the entry, or as many as there are. -/
def E820Block.entry (e : E820Block) (i : Nat) : E820Entry :=
  .ofBytes ((List.range (min e.entrySize.toNat 24)).map fun k => e.data (i * e.entrySize.toNat + k))

/-- A descriptor of usable memory that is not empty. -/
def E820Entry.Usable (d : E820Entry) : Prop := d.length ≠ 0 ∧ d.type = 1

instance (d : E820Entry) : Decidable d.Usable := inferInstanceAs (Decidable (_ ∧ _))

/-- The end address of a descriptor, saturated. -/
def E820Entry.last (d : E820Entry) : Nat := min (d.base.toNat + d.length.toNat) (2 ^ 64 - 1)

/-- The largest end address of the first `n` entries that are usable, 0 if there is none. -/
def E820Block.top (e : E820Block) (n : Nat) : Nat :=
  ((Finset.range n).filter fun i => (e.entry i).Usable).sup fun i => (e.entry i).last

section Decode

variable {e : E820Block}

theorem E820Block.copyBytes_eq (e : E820Block) : e.copyBytes = min e.entrySize.toNat 24 := by
  unfold E820Block.copyBytes
  split <;> omega

theorem E820Entry.toNat_clampedEnd (d : E820Entry) : d.clampedEnd.toNat = d.last := by
  have hbase := d.base.isLt
  have hlength := d.length.isLt
  unfold E820Entry.clampedEnd E820Entry.last
  split
  · rename_i h
    rw [BitVec.lt_def, BitVec.toNat_add] at h
    rw [BitVec.toNat_allOnes]
    omega
  · rename_i h
    rw [BitVec.lt_def, BitVec.toNat_add] at h
    rw [BitVec.toNat_add]
    omega

theorem E820Block.top_succ (e : E820Block) (n : Nat) :
    e.top (n + 1) = if (e.entry n).Usable then max (e.entry n).last (e.top n) else e.top n := by
  unfold E820Block.top
  rw [Finset.range_add_one, Finset.filter_insert]
  split
  · rw [Finset.sup_insert]
  · rfl

theorem Decoding.toNat_topBytes_count (acc : Decoding) (d : E820Entry) :
    (acc.count d).topBytes.toNat =
      if d.Usable then max d.last acc.topBytes.toNat else acc.topBytes.toNat := by
  unfold Decoding.count
  by_cases h : d.length ≠ 0 ∧ d.type = 1
  · rw [if_pos h, if_pos (show d.Usable from h)]
    dsimp only
    split
    · rename_i hgt
      rw [gt_iff_lt, BitVec.lt_def, E820Entry.toNat_clampedEnd] at hgt
      rw [E820Entry.toNat_clampedEnd]
      omega
    · rename_i hgt
      rw [gt_iff_lt, BitVec.lt_def, E820Entry.toNat_clampedEnd] at hgt
      omega
  · rw [if_neg h, if_neg (show ¬ d.Usable from h)]

/-- Where the loop stands after `n` rounds. -/
structure Decoded (e : E820Block) (capacity n : Nat) (acc : Decoding) : Prop where
  p : acc.p = n * e.entrySize.toNat
  descs : acc.descs = (List.range (min n capacity)).map e.entry
  top : acc.topBytes.toNat = e.top n

/-- One round decodes one entry, and reads no byte outside the data. -/
theorem Decoded.round {capacity n : Nat} {acc : Decoding} (h : Decoded e capacity n acc)
    (hok : e.Accepted) (hn : n < e.entryCount.toNat) :
    ∃ acc', decodeRound e capacity acc = .ok acc' ∧ Decoded e capacity (n + 1) acc' := by
  have hinside : (n + 1) * e.entrySize.toNat ≤ 192 :=
    Nat.le_trans (Nat.mul_le_mul_right _ hn) (Nat.le_trans hok.table hok.length)
  rw [Nat.add_mul, Nat.one_mul] at hinside
  have hbytes : (List.range e.copyBytes).mapM (fun k => e.read (acc.p + k)) =
      .ok ((List.range e.copyBytes).map fun k => e.data (n * e.entrySize.toNat + k)) := by
    refine mapM_of_ok fun k hk => ?_
    rw [List.mem_range, e.copyBytes_eq] at hk
    rw [h.p]
    exact if_pos (by unfold e820DataSize; omega)
  unfold decodeRound
  rw [hbytes, ok_bind, e.copyBytes_eq]
  refine ⟨_, rfl, ?_, ?_, ?_⟩
  · show ((acc.count _).record _ capacity).p + _ = _
    rw [Decoding.p_record, Decoding.p_count, h.p, Nat.add_mul, Nat.one_mul]
  · show ((acc.count (e.entry n)).record (e.entry n) capacity).descs = _
    unfold Decoding.record
    rw [Decoding.descs_count, h.descs, List.length_map, List.length_range]
    split
    · rw [show min (n + 1) capacity = min n capacity + 1 by omega, List.range_succ,
        List.map_append, show min n capacity = n by omega]
      rfl
    · rw [Decoding.descs_count, h.descs, show min (n + 1) capacity = min n capacity by omega]
  · show ((acc.count (e.entry n)).record (e.entry n) capacity).topBytes.toNat = _
    rw [Decoding.topBytes_record, Decoding.toNat_topBytes_count, h.top, e.top_succ]

/-- The whole loop. -/
theorem decode_rounds (hok : e.Accepted) (capacity : Nat) :
    ∀ n, n ≤ e.entryCount.toNat → ∃ acc, (List.range n).foldlM
      (fun acc _ => decodeRound e capacity acc) ⟨0, 0, [], 0⟩ = .ok acc ∧
        Decoded e capacity n acc := by
  intro n
  induction n with
  | zero => exact fun _ => ⟨_, rfl, (Nat.zero_mul _).symm, by simp, rfl⟩
  | succ n ih =>
      intro hn
      obtain ⟨acc, hacc, hdec⟩ := ih (by omega)
      obtain ⟨acc', hacc', hdec'⟩ := hdec.round hok hn
      refine ⟨acc', ?_, hdec'⟩
      rw [List.range_succ, List.foldlM_append, hacc, ok_bind, List.foldlM_cons, hacc', ok_bind]
      rfl

/-- The outcome of `decode_e820`. -/
theorem decodeE820_cases (e : E820Block) (capacity : Nat) :
    (e.Accepted ∧ ∃ acc, Decoded e capacity e.entryCount.toNat acc ∧
      decodeE820 e capacity = .ok (some ⟨(acc.usableBytes >>> 10).setWidth 32,
        (acc.topBytes >>> 10).setWidth 32, acc.descs⟩)) ∨
    (¬ e.Accepted ∧ decodeE820 e capacity = .ok none) := by
  have hcount := e.entryCount.isLt
  have hsize := e.entrySize.isLt
  have hneeded : e.entryCount.toNat * e.entrySize.toNat % 2 ^ 32 =
      e.entryCount.toNat * e.entrySize.toNat := by
    refine Nat.mod_eq_of_lt (Nat.lt_of_le_of_lt (Nat.mul_le_mul (Nat.le_of_lt_succ hcount)
      (Nat.le_of_lt_succ hsize)) (by decide))
  unfold decodeE820
  split
  · rename_i h
    exact .inr ⟨fun hok => by have := hok.size; omega, rfl⟩
  rename_i hsize20
  split
  · rename_i h
    exact .inr ⟨fun hok => absurd (congrArg BitVec.toNat h) (Nat.ne_of_gt hok.count), rfl⟩
  rename_i hpos
  split
  · rename_i h
    exact .inr ⟨fun hok => absurd hok.length (Nat.not_le.mpr h), rfl⟩
  rename_i hlen
  dsimp only
  rw [hneeded]
  split
  · rename_i h
    exact .inr ⟨fun hok => absurd hok.table (Nat.not_le.mpr h), rfl⟩
  rename_i htable
  have hok : e.Accepted := by
    refine ⟨by omega, Nat.pos_of_ne_zero fun h => hpos (BitVec.eq_of_toNat_eq h),
      Nat.le_of_not_lt hlen, Nat.le_of_not_lt htable⟩
  obtain ⟨acc, hacc, hdec⟩ := decode_rounds hok capacity _ (Nat.le_refl _)
  refine .inl ⟨hok, acc, hdec, ?_⟩
  rw [hacc, ok_bind]

end Decode

/-! ## What the boot loader writes -/

theorem e820Next_le (b : Bios) (bp i : Nat) : e820Next b bp i ≤ bp := by
  induction bp generalizing i with
  | zero => exact Nat.le_refl _
  | succ bp ih =>
      have := ih (i + 1)
      unfold e820Next
      dsimp only
      split_ifs <;> omega

/-- The block after the loop: the entries that were gathered lie one after another. -/
structure Stored (entry : Nat → Nat → Byte) (i n : Nat) (e e' : E820Block) : Prop where
  size : e'.entrySize = e.entrySize
  count : e'.entryCount = e.entryCount + BitVec.ofNat 16 n
  length : e'.totalLength = e.totalLength + BitVec.ofNat 16 (24 * n)
  before : ∀ k, k < 24 * i → e'.data k = e.data k
  entries : ∀ j, i ≤ j → j < i + n → ∀ k, k < 24 → e'.data (24 * j + k) = entry j k

theorem e820Store_stored (b : Bios) (entry : Nat → Nat → Byte) (bp : Nat) :
    ∀ i e, Stored entry i (e820Next b bp i) e (e820Store b entry bp i e) := by
  induction bp with
  | zero =>
      intro i e
      exact ⟨rfl, by simp [e820Next, e820Store], by simp [e820Next, e820Store], fun _ _ => rfl,
        fun j hi hj => absurd hj (by simp only [e820Next]; omega)⟩
  | succ bp ih =>
      intro i e
      have hdata : ∀ k, k < 24 * i → (if 24 * i ≤ k ∧ k < 24 * i + 24 then entry i (k - 24 * i)
          else e.data k) = e.data k := fun k hk => if_neg (by omega)
      have hown : ∀ k, k < 24 → (if 24 * i ≤ 24 * i + k ∧ 24 * i + k < 24 * i + 24 then
          entry i (24 * i + k - 24 * i) else e.data (24 * i + k)) = entry i k := by
        intro k hk
        rw [if_pos (by omega), Nat.add_sub_cancel_left]
      -- A call that is refused adds nothing, one that ends the map adds one entry.
      have hnone : Stored entry i 0 e { e with data := fun k =>
          if 24 * i ≤ k ∧ k < 24 * i + 24 then entry i (k - 24 * i) else e.data k } :=
        ⟨rfl, by simp, by simp, hdata, fun j hi hj => absurd hj (by omega)⟩
      have hone : Stored entry i 1 e { e with
          data := fun k =>
            if 24 * i ≤ k ∧ k < 24 * i + 24 then entry i (k - 24 * i) else e.data k
          entryCount := e.entryCount + 1
          totalLength := e.totalLength + 24 } := by
        refine ⟨rfl, rfl, rfl, hdata, fun j hi hj => ?_⟩
        obtain rfl : j = i := by omega
        exact hown
      unfold e820Next e820Store
      dsimp only
      split_ifs
      · exact hnone
      · exact hnone
      · exact hnone
      · exact hone
      · exact hone
      · have hrest := ih (i + 1) { e with
          data := fun k =>
            if 24 * i ≤ k ∧ k < 24 * i + 24 then entry i (k - 24 * i) else e.data k
          entryCount := e.entryCount + 1
          totalLength := e.totalLength + 24 }
        refine ⟨hrest.size, ?_, ?_, fun k hk => ?_, fun j hi hj k hk => ?_⟩
        · rw [hrest.count, BitVec.ofNat_add, ← BitVec.add_assoc]
          rfl
        · rw [hrest.length, Nat.mul_add, BitVec.ofNat_add, ← BitVec.add_assoc]
          rfl
        · exact (hrest.before k (by omega)).trans (hdata k hk)
        · rcases Nat.eq_or_lt_of_le hi with rfl | hlt
          · exact (hrest.before _ (by omega)).trans (hown k hk)
          · exact hrest.entries j hlt (by omega) k hk

/-- A descriptor is read back from its bytes. -/
theorem E820Entry.ofBytes_bytes (d : E820Entry) : E820Entry.ofBytes d.bytes = d := by
  have hbase : d.bytes.take 8 = leBytes 8 d.base.toNat := by
    simp [E820Entry.bytes]
  have hlength : (d.bytes.drop 8).take 8 = leBytes 8 d.length.toNat := by
    simp [E820Entry.bytes]
  have hdrop : ∀ n v, (leBytes 8 v).drop (8 + n) = [] := fun n v =>
    List.drop_eq_nil_of_le (by rw [length_leBytes]; omega)
  have htype : (d.bytes.drop 16).take 4 = leBytes 4 d.type.toNat := by
    simp [E820Entry.bytes, List.drop_append, hdrop 8]
  have hattrs : (d.bytes.drop 20).take 4 = leBytes 4 d.attrs.toNat := by
    simp [E820Entry.bytes, List.drop_append, hdrop 12, hdrop 4]
  unfold E820Entry.ofBytes
  rw [hbase, hlength, htype, hattrs, ofNat_leNat_leBytes 8, ofNat_leNat_leBytes 8,
    ofNat_leNat_leBytes 4, ofNat_leNat_leBytes 4]

theorem E820Entry.length_bytes (d : E820Entry) : d.bytes.length = 24 := by
  simp [E820Entry.bytes]

/-- The BIOS leaves the bytes of these descriptors in the buffers of its calls. -/
def Reports (entry : Nat → Nat → Byte) (descs : List E820Entry) : Prop :=
  ∀ i d, descs[i]? = some d → ∀ k, k < 24 → d.bytes[k]? = some (entry i k)

/-- The block that holds the gathered entries is accepted, and its entries are the descriptors. -/
theorem e820Written_entries {b : Bios} {entry : Nat → Nat → Byte} {descs : List E820Entry}
    (data : Nat → Byte) (hcount : e820Next b 8 0 = descs.length) (hpos : descs ≠ [])
    (hreports : Reports entry descs) :
    (e820Written b entry data).Accepted ∧
      (e820Written b entry data).entryCount.toNat = descs.length ∧
      (List.range descs.length).map (e820Written b entry data).entry = descs := by
  have hstored := e820Store_stored b entry 8 0 ⟨24, 0, 0, data⟩
  have hle := e820Next_le b 8 0
  rw [hcount] at hstored hle
  have hlen : 0 < descs.length := List.length_pos_iff.mpr hpos
  change Stored entry 0 descs.length _ (e820Written b entry data) at hstored
  generalize e820Written b entry data = e at hstored ⊢
  have hsize : e.entrySize.toNat = 24 := by
    rw [hstored.size]
    rfl
  have hn : e.entryCount.toNat = descs.length := by
    rw [hstored.count]
    simp only [BitVec.ofNat_eq_ofNat, BitVec.zero_add, BitVec.toNat_ofNat]
    omega
  have htotal : e.totalLength.toNat = 24 * descs.length := by
    rw [hstored.length]
    simp only [BitVec.ofNat_eq_ofNat, BitVec.zero_add, BitVec.toNat_ofNat]
    omega
  refine ⟨⟨by omega, by omega, by omega, by rw [hn, hsize, htotal]; omega⟩, hn, ?_⟩
  refine List.ext_getElem? fun i => ?_
  cases hi : descs[i]? with
  | none =>
      rw [List.getElem?_eq_none_iff] at hi ⊢
      rwa [List.length_map, List.length_range]
  | some d =>
      obtain ⟨hlt, -⟩ := List.getElem?_eq_some_iff.mp hi
      have hbytes : (List.range (min e.entrySize.toNat 24)).map
          (fun k => e.data (i * e.entrySize.toNat + k)) = d.bytes := by
        rw [hsize]
        refine List.ext_getElem? fun k => ?_
        rw [List.getElem?_map]
        by_cases hk : k < 24
        · have hstore := hstored.entries i (Nat.zero_le i) (by omega) k hk
          rw [Nat.mul_comm] at hstore
          rw [List.getElem?_range (by omega), Option.map_some, hstore]
          exact (hreports i d hi k hk).symm
        · rw [List.getElem?_eq_none (by rw [List.length_range]; omega),
            List.getElem?_eq_none (by rw [d.length_bytes]; omega)]
          rfl
      rw [List.getElem?_map, List.getElem?_range hlt, Option.map_some, E820Block.entry, hbytes,
        d.ofBytes_bytes]

/-- For every block: the call returns, so that it reads inside the data; it accepts exactly the
blocks whose table fits, records the first 8 descriptors, and computes the top of usable memory as
long as the number of KiB has 32 bits. What the boot loader has gathered from any BIOS that reports
1 to 8 descriptors is read back. -/
theorem decodeE820_exact (e : E820Block) :
    (∃ r, decodeE820 e e820DescMax = .ok r ∧ ((∃ map, r = some map) ↔ e.Accepted) ∧
      ∀ map, r = some map →
        map.descs = (List.range (min e.entryCount.toNat 8)).map e.entry ∧
        (e.top e.entryCount.toNat < 2 ^ 42 →
          map.topKiB.toNat = e.top e.entryCount.toNat / 1024)) ∧
    ∀ (b : Bios) (entry : Nat → Nat → Byte) (data : Nat → Byte) (descs : List E820Entry),
      e820Next b 8 0 = descs.length → descs ≠ [] → Reports entry descs →
      ∃ map, decodeE820 (e820Written b entry data) e820DescMax = .ok (some map) ∧
        map.descs = descs := by
  constructor
  · rcases decodeE820_cases e e820DescMax with ⟨hok, acc, hdec, hret⟩ | ⟨hno, hret⟩
    · refine ⟨_, hret, ⟨fun _ => hok, fun _ => ⟨_, rfl⟩⟩, fun map hmap => ?_⟩
      obtain rfl := Option.some.inj hmap
      refine ⟨hdec.descs, fun htop => ?_⟩
      show ((acc.topBytes >>> 10).setWidth 32).toNat = _
      rw [BitVec.toNat_setWidth, BitVec.toNat_ushiftRight, Nat.shiftRight_eq_div_pow, hdec.top]
      exact Nat.mod_eq_of_lt (by omega)
    · refine ⟨none, hret, ⟨fun ⟨_, h⟩ => (by cases h), fun h => absurd h hno⟩, fun map h => ?_⟩
      cases h
  · intro b entry data descs hcount hpos hreports
    have hle := hcount ▸ e820Next_le b 8 0
    obtain ⟨haccepted, hn, hentries⟩ := e820Written_entries data hcount hpos hreports
    rcases decodeE820_cases (e820Written b entry data) e820DescMax with
      ⟨-, acc, hdec, hret⟩ | ⟨hno, -⟩
    · refine ⟨_, hret, ?_⟩
      show acc.descs = descs
      rw [hdec.descs, hn, Nat.min_eq_left (show descs.length ≤ e820DescMax from hle), hentries]
    · exact absurd haccepted hno

end Unidos.Boot
