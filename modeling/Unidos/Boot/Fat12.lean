import Unidos.Boot.Loader

/-!
# The packing of a FAT12 table

A FAT12 table holds two entries of 12 bits in three bytes. `packFat12` writes such a table, and
`fat12NextCluster_packed` says that `.fat12_next_cluster` reads back every entry of a table that
fits into the segment of the FAT buffer, and looks at the two bytes that hold it alone. The offset
of an entry is a 16-bit sum: entries behind the end of the segment are not found
(`fat12NextCluster_wraps`).
-/

namespace Unidos.Boot

open Lib

/-- The bytes of a table with the given entries. An odd last entry takes two bytes. -/
def packFat12 : List (BitVec 12) → List Byte
  | [] => []
  | [a] => [a.extractLsb' 0 8, 0#4 ++ a.extractLsb' 8 4]
  | a :: b :: entries =>
      a.extractLsb' 0 8 :: (b.extractLsb' 0 4 ++ a.extractLsb' 8 4) :: b.extractLsb' 4 8 ::
        packFat12 entries

/-- The entry that a word of the table holds for cluster `n`. -/
def entryOfWord (n : Nat) (low high : Byte) : Nat :=
  let word := low.toNat + 256 * high.toNat
  if n % 2 = 1 then word / 16 % 4096 else word % 4096

/-- The entries `n` and `n + 2 * k` lie alike in their words. -/
theorem entryOfWord_add_two (n : Nat) (low high : Byte) :
    entryOfWord (n + 2) low high = entryOfWord n low high := by
  unfold entryOfWord
  rw [Nat.add_mod_right]

theorem nibbles_toNat (high low : BitVec 4) :
    (high ++ low).toNat = 16 * high.toNat + low.toNat := by
  rw [BitVec.toNat_append, ← Nat.shiftLeft_add_eq_or_of_lt low.isLt, Nat.shiftLeft_eq, Nat.mul_comm]

/-- The first entry of a pair. -/
theorem entryOfWord_even (a : BitVec 12) (nibble : BitVec 4) :
    entryOfWord 0 (a.extractLsb' 0 8) (nibble ++ a.extractLsb' 8 4) = a.toNat := by
  have ha := a.isLt
  show (_ + 256 * _) % 4096 = _
  rw [nibbles_toNat]
  simp only [BitVec.extractLsb'_toNat, Nat.shiftRight_eq_div_pow]
  omega

/-- The second entry of a pair. -/
theorem entryOfWord_odd (b : BitVec 12) (nibble : BitVec 4) :
    entryOfWord 1 (b.extractLsb' 0 4 ++ nibble) (b.extractLsb' 4 8) = b.toNat := by
  have hb := b.isLt
  have hn := nibble.isLt
  show (_ + 256 * _) / 16 % 4096 = _
  rw [nibbles_toNat]
  simp only [BitVec.extractLsb'_toNat, Nat.shiftRight_eq_div_pow]
  omega

/-- The two bytes of entry `n` are in the table, and hold it. -/
theorem packFat12_entry (entries : List (BitVec 12)) :
    ∀ n e, entries[n]? = some e → ∃ low high, (packFat12 entries)[n + n / 2]? = some low ∧
      (packFat12 entries)[n + n / 2 + 1]? = some high ∧ entryOfWord n low high = e.toNat := by
  fun_induction packFat12 entries with
  | case1 =>
      intro n e h
      simp at h
  | case2 a =>
      intro n e h
      obtain ⟨hn, rfl⟩ := List.getElem?_eq_some_iff.mp h
      obtain rfl : n = 0 := Nat.lt_one_iff.mp hn
      exact ⟨_, _, rfl, rfl, entryOfWord_even a _⟩
  | case3 a b entries ih =>
      intro n e h
      match n, h with
      | 0, h =>
          obtain rfl := Option.some.inj h
          exact ⟨_, _, rfl, rfl, entryOfWord_even a _⟩
      | 1, h =>
          obtain rfl := Option.some.inj h
          exact ⟨_, _, rfl, rfl, entryOfWord_odd b _⟩
      | n + 2, h =>
          obtain ⟨low, high, hlow, hhigh, he⟩ := ih n e h
          have hoff : n + 2 + (n + 2) / 2 = n + n / 2 + 3 := by omega
          rw [hoff]
          exact ⟨low, high, hlow, hhigh, (entryOfWord_add_two n low high).trans he⟩

/-- The FAT buffer starts with the bytes of the table; what follows is arbitrary. -/
def HoldsTable (mem : Memory) (entries : List (BitVec 12)) : Prop :=
  ∀ i b, (packFat12 entries)[i]? = some b → mem (fatBuffer + i) = b

/-- The lookup of an entry inside the segment reads one word. -/
theorem fat12NextCluster_word (mem : Memory) {n : Nat} (hn : n ≤ 43689) :
    fat12NextCluster mem n = entryOfWord n (mem (fatBuffer + (n + n / 2)))
      (mem (fatBuffer + (n + n / 2 + 1))) := by
  have hoff : (n + n / 2) % 2 ^ 16 = n + n / 2 := Nat.mod_eq_of_lt (by omega)
  unfold fat12NextCluster
  rw [hoff]
  rfl

/-- In a packed table of at most 43690 entries, which is what the segment of the FAT buffer holds,
the lookup gives the entry, and depends on the two bytes that contain it alone. -/
theorem fat12NextCluster_packed {mem : Memory} {entries : List (BitVec 12)}
    (hfits : entries.length ≤ 43690) (htable : HoldsTable mem entries) (n : Nat) (e : BitVec 12)
    (he : entries[n]? = some e) :
    fat12NextCluster mem n = e.toNat ∧
      ∀ mem' : Memory, mem' (fatBuffer + (n + n / 2)) = mem (fatBuffer + (n + n / 2)) →
        mem' (fatBuffer + (n + n / 2 + 1)) = mem (fatBuffer + (n + n / 2 + 1)) →
        fat12NextCluster mem' n = e.toNat := by
  obtain ⟨hlt, -⟩ := List.getElem?_eq_some_iff.mp he
  have hn : n ≤ 43689 := by omega
  obtain ⟨low, high, hlow, hhigh, hentry⟩ := packFat12_entry entries n e he
  have hmem : fat12NextCluster mem n = e.toNat := by
    rw [fat12NextCluster_word mem hn, htable _ _ hlow, htable _ _ hhigh, hentry]
  refine ⟨hmem, fun mem' hfirst hsecond => ?_⟩
  rw [fat12NextCluster_word mem' hn, hfirst, hsecond, ← fat12NextCluster_word mem hn, hmem]

/-- Memory with the bytes of a table in the FAT buffer. -/
def tableMemory (entries : List (BitVec 12)) : Memory :=
  fun a => (packFat12 entries).getD (a - fatBuffer) 0xFF

theorem tableMemory_holds (entries : List (BitVec 12)) :
    HoldsTable (tableMemory entries) entries := by
  intro i b h
  rw [tableMemory, Nat.add_sub_cancel_left, List.getD_eq_getElem?_getD, h]
  rfl

/-- The third entry of a small table. -/
theorem fat12NextCluster_packed_third : HoldsTable (tableMemory [0xFF0, 0xFFF, 0x003, 0xFFF])
    [0xFF0, 0xFFF, 0x003, 0xFFF] ∧
      fat12NextCluster (tableMemory [0xFF0, 0xFFF, 0x003, 0xFFF]) 2 = 3 :=
  ⟨tableMemory_holds _, (fat12NextCluster_packed (by decide) (tableMemory_holds _) 2 3 rfl).1⟩

/-- The offset of entry 43691 is 65536, of which 16 bits are left: the lookup reads the first word
of the table. -/
theorem fat12NextCluster_wraps : ∃ (mem : Memory) (entries : List (BitVec 12)),
    HoldsTable mem entries ∧ entries[43691]? = some 1 ∧ fat12NextCluster mem 43691 = 0 := by
  refine ⟨tableMemory (List.replicate 43691 0 ++ [1]), List.replicate 43691 0 ++ [1],
    tableMemory_holds _, ?_, ?_⟩
  · rw [List.getElem?_append_right (by rw [List.length_replicate]), List.length_replicate]
    rfl
  · have hsplit : List.replicate 43691 (0 : BitVec 12) ++ [1] =
        0 :: 0 :: (List.replicate 43689 0 ++ [1]) := rfl
    rw [hsplit]
    rfl

end Unidos.Boot
