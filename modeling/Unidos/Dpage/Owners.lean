import Unidos.Dpage.Elements

/-!
# The five pools of the kernel

After `kmem.h`, `mm.c`, `vma.c` and `io/fdpool.c`. One page is reserved for the bitmap of each pool,
directly below its elements. The owners of the pools for open files, descriptors and file targets
pass the size of that page to `dpage_alloc`; `mm.c` and `vma.c` pass an eighth of the size of the
pool. The two pools are searched beyond their bitmap once all slots that it describes are taken
(`mm_beyond_bitmap`). As long as this is not so, all five stay inside their memory
(`run_contained`).
-/

namespace Unidos.Dpage

open Lib Paging

inductive Owner where
  | mm
  | vma
  | openFile
  | fdEntry
  | fileTarget
  deriving DecidableEq, Repr

/-- `MMS_BITMAP_PAGES`, `VMA_BITMAP_PAGES`, `OPENFILE_BITMAP_PAGES`, `FD_BITMAP_PAGES` and
`FTARGET_BITMAP_PAGES`. -/
def Owner.bitmapPages (_ : Owner) : Nat := 1

/-- `MMS_VIRTUAL_BASE`, `VMA_VIRTUAL_BASE`, `OPENFILE_VIRTUAL_BASE`, `FD_VIRTUAL_BASE` and
`FTARGET_VIRTUAL_BASE`. -/
def Owner.virtualBase : Owner → Nat
  | .mm => 0xF4000000
  | .vma => 0xF0000000
  | .openFile => 0xE4000000
  | .fdEntry => 0xE8000000
  | .fileTarget => 0xEC000000

/-- `MMS_BITMAP_BASE` and so on. -/
def Owner.bitmapBase (o : Owner) : Nat := o.virtualBase - o.bitmapPages * 0x1000

/-- Where the memory of a pool ends: `STACK_VIRTUAL_BASE`, the bitmap of the next pool, or
`FTARGET_END`. -/
def Owner.limit : Owner → Nat
  | .mm => 0xF7000000
  | .vma => Owner.mm.bitmapBase
  | .openFile => Owner.fdEntry.bitmapBase
  | .fdEntry => Owner.fileTarget.bitmapBase
  | .fileTarget => 0xEFFFFFFF

/-- `mm_vaddr_size_bytes` and so on. -/
def Owner.vaddrSizeBytes (o : Owner) : Nat := (o.limit - o.virtualBase) / 4096 * 4096

/-- The sizes of the records on i386. -/
def Owner.elementSize : Owner → Nat
  | .mm => 36
  | .vma => 24
  | .openFile => 40
  | .fdEntry => 16
  | .fileTarget => 76

/-- The size of the bitmap that the owner passes. -/
def Owner.bitmapSize (o : Owner) : Nat :=
  match o with
  | .mm | .vma => o.vaddrSizeBytes / 8
  | .openFile | .fdEntry | .fileTarget => o.bitmapPages * 0x1000

def Owner.pool (o : Owner) : Pool := ⟨o.bitmapBase, o.virtualBase, o.elementSize, o.bitmapSize⟩

/-- The number of slots that the pages of the bitmap describe. -/
def Owner.capacity (o : Owner) : Nat := 8 * (o.bitmapPages * 0x1000)

/-! ## Accesses to the bitmap -/

/-- The addresses that the search of `dpage_alloc` reads. -/
def scanAddrs (pool : Pool) (s : Paging.State) : Nat → Nat → List Nat
  | 0, _ => []
  | n + 1, slot => pool.bitAddr slot ::
      match readByte s (pool.bitAddr slot) with
      | .error _ => []
      | .ok byte => if byte &&& 1#8 <<< (slot % 8) = 0 then [] else scanAddrs pool s n (slot + 1)

/-- The address lies in the pages that are reserved for the bitmap. -/
def Owner.InBitmap (o : Owner) (a : Nat) : Prop :=
  o.bitmapBase ≤ a ∧ a < o.bitmapBase + o.bitmapPages * 0x1000

/-- An allocation stays inside the memory of the pool. -/
structure Contained (o : Owner) (s : Paging.State) : Prop where
  reads : ∀ a ∈ scanAddrs o.pool s o.pool.slots 0, o.InBitmap a
  writes : ∀ slot, findSlot o.pool s o.pool.slots 0 = .ok (some slot) →
    o.InBitmap (o.pool.bitAddr slot)
  element : ∀ status va t, dpageAlloc o.pool s = .ok (status, some va, t) →
    o.virtualBase ≤ va ∧ va + o.elementSize ≤ o.virtualBase + o.vaddrSizeBytes
  exhausted : findSlot o.pool s o.capacity 0 = .ok none →
    ∃ status t, dpageAlloc o.pool s = .ok (status, none, t)

/-- Not all slots that the bitmap describes are taken, or the owner passes the size of the
bitmap. -/
def Room (o : Owner) (s : Paging.State) : Prop :=
  o.bitmapSize = o.bitmapPages * 0x1000 ∨ findSlot o.pool s o.capacity 0 ≠ .ok none

variable {pool : Pool} {s t : Paging.State} {o : Owner} {m n slot start : Nat}

theorem mem_scanAddrs {a : Nat} (h : a ∈ scanAddrs pool s n start) :
    ∃ i, start ≤ i ∧ i < start + n ∧ a = pool.bitAddr i := by
  induction n generalizing start with
  | zero => simp [scanAddrs] at h
  | succ n ih =>
      unfold scanAddrs at h
      rcases List.mem_cons.mp h with rfl | h
      · exact ⟨start, by omega, by omega, rfl⟩
      · split at h
        · simp at h
        · split at h
          · simp at h
          · obtain ⟨i, h1, h2, ha⟩ := ih h
            exact ⟨i, by omega, by omega, ha⟩

/-- The search goes no further than it has to. -/
theorem scan_stops (h : findSlot pool s m start ≠ .ok none) (n : Nat) :
    findSlot pool s (m + n) start = findSlot pool s m start ∧
      scanAddrs pool s (m + n) start = scanAddrs pool s m start := by
  induction m generalizing start with
  | zero => exact absurd rfl h
  | succ m ih =>
      rw [Nat.add_right_comm]
      unfold findSlot at h
      unfold findSlot scanAddrs
      cases hread : readByte s (pool.bitAddr start) with
      | error e => exact ⟨rfl, rfl⟩
      | ok byte =>
          rw [hread, ok_bind] at h
          rw [ok_bind, ok_bind]
          dsimp only
          by_cases hfree : byte &&& 1#8 <<< (start % 8) = 0
          · simp only [if_pos hfree, and_self]
          · rw [if_neg hfree] at h
            simp only [if_neg hfree]
            obtain ⟨hfind, hscan⟩ := ih h
            exact ⟨hfind, by rw [hscan]⟩

/-- The search goes on behind slots that are taken. -/
theorem scan_continues (h : findSlot pool s m start = .ok none) (n : Nat) :
    findSlot pool s (m + n) start = findSlot pool s n (start + m) ∧
      ∀ a ∈ scanAddrs pool s n (start + m), a ∈ scanAddrs pool s (m + n) start := by
  induction m generalizing start with
  | zero => simp
  | succ m ih =>
      rw [Nat.add_right_comm]
      unfold findSlot at h
      rw [findSlot, scanAddrs]
      cases hread : readByte s (pool.bitAddr start) with
      | error e => simp [hread, bind, Except.bind] at h
      | ok byte =>
          rw [hread, ok_bind] at h
          rw [ok_bind]
          dsimp only
          by_cases hfree : byte &&& 1#8 <<< (start % 8) = 0
          · rw [if_pos hfree] at h
            cases h
          · rw [if_neg hfree] at h
            simp only [if_neg hfree]
            obtain ⟨hfind, hscan⟩ := ih h
            rw [show start + 1 + m = start + (m + 1) by omega] at hfind hscan
            exact ⟨hfind, fun a ha => List.mem_cons_of_mem _ (hscan a ha)⟩

/-! ## The memory of a pool -/

theorem Owner.capacity_eq (o : Owner) : o.capacity = 32768 := by
  simp [Owner.capacity, Owner.bitmapPages]

theorem Owner.bitAddr_eq (hslot : slot < o.capacity) :
    o.pool.bitAddr slot = o.bitmapBase + slot / 8 := by
  rw [o.capacity_eq] at hslot
  change (o.bitmapBase + slot / 8) % 2 ^ 32 = _
  have hbase : o.bitmapBase + 4096 ≤ 2 ^ 32 := by cases o <;> decide
  omega

theorem Owner.inBitmap (hslot : slot < o.capacity) : o.InBitmap (o.pool.bitAddr slot) := by
  rw [o.bitAddr_eq hslot]
  rw [o.capacity_eq] at hslot
  unfold Owner.InBitmap Owner.bitmapPages
  omega

/-- The slots that the bitmap describes are in the memory of the pool. -/
theorem Owner.element_inside (hslot : slot < o.capacity) :
    o.pool.vaddr slot = o.virtualBase + slot * o.elementSize ∧
      o.virtualBase + slot * o.elementSize + o.elementSize ≤ o.virtualBase + o.vaddrSizeBytes := by
  rw [o.capacity_eq] at hslot
  change (o.virtualBase + slot * o.elementSize) % 2 ^ 32 = _ ∧ _
  cases o <;>
    simp only [Owner.virtualBase, Owner.elementSize, Owner.vaddrSizeBytes, Owner.limit,
      Owner.bitmapBase, Owner.bitmapPages] <;> omega

theorem Owner.slots_eq (o : Owner) : o.pool.slots = 8 * o.bitmapSize := by
  have hsize : 8 * o.bitmapSize < 2 ^ 32 := by cases o <;> decide
  change o.bitmapSize * 8 % 2 ^ 32 = _
  omega

theorem Owner.capacity_le (o : Owner) : o.capacity ≤ o.pool.slots := by
  have hsize : o.bitmapPages * 0x1000 ≤ o.bitmapSize := by cases o <;> decide
  rw [o.slots_eq]
  exact Nat.mul_le_mul_left 8 hsize

/-- With room left a search ends among the slots that the bitmap describes. -/
theorem Room.findSlot_eq (h : Room o s) :
    findSlot o.pool s o.pool.slots 0 = findSlot o.pool s o.capacity 0 ∧
      scanAddrs o.pool s o.pool.slots 0 = scanAddrs o.pool s o.capacity 0 := by
  rcases h with hsize | hne
  · rw [o.slots_eq, hsize, Owner.capacity]
    exact ⟨rfl, rfl⟩
  · have hscan := scan_stops hne (o.pool.slots - o.capacity)
    rwa [Nat.add_sub_cancel' o.capacity_le] at hscan

theorem Room.lt_capacity (h : Room o s)
    (hfind : findSlot o.pool s o.pool.slots 0 = .ok (some slot)) : slot < o.capacity := by
  rw [h.findSlot_eq.1] at hfind
  have := (findSlot_some hfind).1
  omega

/-- Where there is no room left the search reads behind the bitmap. -/
theorem reads_beyond (h : ¬ Room o s) :
    o.bitmapBase + o.bitmapPages * 0x1000 ∈ scanAddrs o.pool s o.pool.slots 0 := by
  obtain ⟨hsize, hnone⟩ : o.bitmapSize ≠ o.bitmapPages * 0x1000 ∧
      findSlot o.pool s o.capacity 0 = .ok none := by
    unfold Room at h
    tauto
  have hlt : o.capacity < o.pool.slots := by
    refine lt_of_le_of_ne o.capacity_le fun heq => hsize ?_
    rw [o.slots_eq, Owner.capacity] at heq
    omega
  have hbase : o.bitmapBase + 4096 < 2 ^ 32 := by cases o <;> decide
  have haddr : o.pool.bitAddr o.capacity = o.bitmapBase + o.bitmapPages * 0x1000 := by
    change (o.bitmapBase + o.capacity / 8) % 2 ^ 32 = _
    rw [Owner.capacity, Nat.mul_div_cancel_left _ (by decide), Owner.bitmapPages]
    omega
  have hscan := (scan_continues hnone (o.pool.slots - o.capacity)).2 (o.pool.bitAddr o.capacity)
  rw [Nat.add_sub_cancel' o.capacity_le, Nat.zero_add, haddr] at hscan
  refine hscan ?_
  rw [show o.pool.slots - o.capacity = o.pool.slots - o.capacity - 1 + 1 by omega, scanAddrs, haddr]
  exact List.mem_cons_self

/-- An allocation stays inside the memory of the pool if and only if there is room left. -/
theorem contained_iff (o : Owner) (s : Paging.State) : Contained o s ↔ Room o s := by
  constructor
  · intro hc
    by_contra hroom
    have hin := hc.reads _ (reads_beyond hroom)
    exact absurd hin.2 (lt_irrefl _)
  · intro hroom
    refine ⟨fun a ha => ?_, fun slot hfind => Owner.inBitmap (hroom.lt_capacity hfind),
      fun status va t hret => ?_, fun hnone => ?_⟩
    · rw [hroom.findSlot_eq.2] at ha
      obtain ⟨i, -, hi, rfl⟩ := mem_scanAddrs ha
      exact Owner.inBitmap (by omega)
    · obtain ⟨slot, -, -, hfind, -, -, -, rfl⟩ := dpageAlloc_found hret
      obtain ⟨hva, hend⟩ := Owner.element_inside (hroom.lt_capacity hfind)
      rw [hva]
      exact ⟨by omega, hend⟩
    · refine ⟨.noMoreRegionSlots, s, ?_⟩
      rw [dpageAlloc, hroom.findSlot_eq.1, hnone, ok_bind]

/-! ## Runs -/

/-- `dpage_alloc`, `dpage_bm_clear` of an element, or anything else that the kernel does. -/
inductive OwnerOp where
  | alloc
  | free (slot : Nat)
  | other

/-- The calls of an owner. It frees the slots of elements it was given and has not freed yet. -/
inductive OwnerStep (o : Owner) :
    Paging.State × List Nat → OwnerOp → Paging.State × List Nat → Prop where
  | given {s t : Paging.State} {owned : List Nat} {status : Status} {va : Nat}
      (hret : dpageAlloc o.pool s = .ok (status, some va, t)) :
      OwnerStep o (s, owned) .alloc (t, (va - o.virtualBase) / o.elementSize :: owned)
  | refused {s t : Paging.State} {owned : List Nat} {status : Status}
      (hret : dpageAlloc o.pool s = .ok (status, none, t)) :
      OwnerStep o (s, owned) .alloc (t, owned)
  | freed {s t : Paging.State} {owned : List Nat} {slot : Nat} (hslot : slot ∈ owned)
      (hret : dpageBmClear o.pool s slot = .ok t) :
      OwnerStep o (s, owned) (.free slot) (t, owned.erase slot)
  | other {s t : Paging.State} {owned : List Nat} : OwnerStep o (s, owned) .other (t, owned)

theorem slot_of_given {status : Status} {va : Nat} (hroom : Room o s)
    (hret : dpageAlloc o.pool s = .ok (status, some va, t)) :
    (va - o.virtualBase) / o.elementSize < o.capacity := by
  obtain ⟨slot, -, -, hfind, -, -, -, rfl⟩ := dpageAlloc_found hret
  have hslot := hroom.lt_capacity hfind
  have hsize : 0 < o.elementSize := by cases o <;> decide
  rwa [(Owner.element_inside hslot).1, Nat.add_sub_cancel_left, Nat.mul_div_cancel _ hsize]

/-- In every run in which each allocation finds room, the slots that can be freed are described by
the bitmap, and the next allocation stays inside the memory of the pool if and only if there is
room for it. -/
theorem run_contained {ops : List OwnerOp} {owned : List Nat}
    (hrun : Run (Guarded (OwnerStep o) fun p op => op = .alloc → Room o p.1) (s, []) ops
      (t, owned)) :
    (∀ slot ∈ owned, o.InBitmap (o.pool.bitAddr slot)) ∧ (Contained o t ↔ Room o t) := by
  have hinv : ∀ slot ∈ owned, slot < o.capacity := by
    refine hrun.invariant (I := fun p => ∀ slot ∈ p.2, slot < o.capacity) ?_ (by simp)
    rintro p op q hp ⟨hroom, hstep⟩
    cases hstep with
    | given hret =>
        intro slot hslot
        rcases List.mem_cons.mp hslot with rfl | hslot
        · exact slot_of_given (hroom rfl) hret
        · exact hp slot hslot
    | refused => exact hp
    | freed => exact fun slot hslot => hp slot (List.mem_of_mem_erase hslot)
    | other => exact hp
  exact ⟨fun slot hslot => Owner.inBitmap (hinv slot hslot), contained_iff o t⟩

/-- The bitmap of the pool for address spaces in frame `5`, all of its bytes being `fill`, and its
first page in frame `6`, with frame `7` free. -/
def mmState (fill : Byte) : Paging.State where
  pmm := {
    mem := setEntry (setEntry (setEntry (setEntry
      (fun a => if a = 0x2000 then 0x7F else if a / 4096 = 5 then fill else 0)
      1 975 0x3003) 1 976 0x4003) 3 1023 0x5003) 4 0 0x6003
    pagebitmapPhys := 0x2000
    pagebitmapSizeBytes := 1
    frameCount := 8
    frameHint := 0
    availableFrames := 1
    usePhysWindowAlias := true
    memRegions := [] }
  pageDirectoryLocPhys := 0x1000
  pageTablesLocPhys := fun i => if i = 975 then 0x3000 else if i = 976 then 0x4000 else 0
  pageTableCount := 2
  cr3 := 0x1000

theorem mmState_fill {a : Nat} (fill : Byte) (ha : a / 4096 = 5) :
    (mmState fill).pmm.mem a = fill := by
  have hlow : 4096 * 5 ≤ a := by omega
  have hhigh : a < 4096 * 5 + 4096 := by omega
  change setEntry _ _ _ _ a = fill
  rw [agreeOn_setEntry _ _ (by decide) (by decide) a hlow hhigh,
    agreeOn_setEntry _ _ (by decide) (by decide) a hlow hhigh,
    agreeOn_setEntry _ _ (by decide) (by decide) a hlow hhigh,
    agreeOn_setEntry _ _ (by decide) (by decide) a hlow hhigh, if_neg (by omega), if_pos ha]

/-- The search finds nothing where all bits are set. -/
theorem findSlot_none {n start : Nat} (h : ∀ i, start ≤ i → i < start + n →
      ∃ byte, readByte s (pool.bitAddr i) = .ok byte ∧ byte &&& 1#8 <<< (i % 8) ≠ 0) :
    findSlot pool s n start = .ok none := by
  induction n generalizing start with
  | zero => rfl
  | succ n ih =>
      obtain ⟨byte, hread, hset⟩ := h start le_rfl (by omega)
      rw [findSlot, hread, ok_bind, if_neg hset]
      exact ih fun i hi hlt => h i (by omega) (by omega)

theorem mmState_full : findSlot Owner.mm.pool (mmState 0xFF) Owner.mm.capacity 0 = .ok none := by
  refine findSlot_none fun i _ hi => ?_
  rw [Nat.zero_add] at hi
  have hpage : (mmState 0xFF).pageMap 0xF3FFF = some ⟨5, 3⟩ := by decide +kernel
  have haddr : Owner.mm.pool.bitAddr i = 0xF3FFF000 + i / 8 := Owner.bitAddr_eq hi
  rw [Owner.capacity_eq] at hi
  refine ⟨0xFF, readByte_eq_ok.mpr ⟨⟨5, 3⟩, ?_, ?_⟩, ?_⟩
  · rw [haddr, show (0xF3FFF000 + i / 8) / 4096 = 0xF3FFF by omega, hpage]
  · rw [haddr, mmState_fill]
    dsimp only
    omega
  · have hall : ∀ j < 8, (0xFF : Byte) &&& 1#8 <<< j ≠ 0 := by decide
    exact hall (i % 8) (by omega)

/-- All slots that the bitmap describes are taken. The next one has its bit in the first record of
the pool, and taking it changes that record. -/
theorem mm_beyond_bitmap :
    findSlot Owner.mm.pool (mmState 0xFF) Owner.mm.pool.slots 0 = .ok (some 32768) ∧
      Owner.mm.pool.bitAddr 32768 = Owner.mm.virtualBase ∧
      (∃ t, dpageBmSet Owner.mm.pool (mmState 0xFF) 32768 = .ok t ∧
        readByte (mmState 0xFF) 0xF4000000 = .ok 0 ∧ readByte t 0xF4000000 = .ok 1) ∧
      ¬ Contained .mm (mmState 0xFF) := by
  have hfull := mmState_full
  refine ⟨?_, by decide, ?_, fun hcontained => ?_⟩
  · have hscan := (scan_continues hfull (Owner.mm.pool.slots - Owner.mm.capacity)).1
    rw [Nat.add_sub_cancel' (Owner.capacity_le .mm), Nat.zero_add] at hscan
    have hread : readByte (mmState 0xFF) (Owner.mm.pool.bitAddr Owner.mm.capacity) = .ok 0 := by
      decide +kernel
    rw [hscan, show Owner.mm.pool.slots - Owner.mm.capacity = 50298879 + 1 by decide, findSlot,
      hread, ok_bind, if_pos (by simp), Owner.capacity_eq]
  · obtain ⟨t, hset, htest⟩ := exists_of_okAnd
      (e := dpageBmSet Owner.mm.pool (mmState 0xFF) 32768)
      (p := fun t => okAnd (readByte t 0xF4000000) fun byte => byte == 1) (by decide +kernel)
    obtain ⟨byte, hread, hbyte⟩ := exists_of_okAnd htest
    obtain rfl : byte = 1 := by simpa using hbyte
    exact ⟨t, hset, by decide +kernel, hread⟩
  · rcases (contained_iff .mm _).mp hcontained with hsize | hne
    · exact absurd hsize (by decide)
    · exact hne hfull

/-- An address space is made, and its slot can be freed. -/
theorem run_contained_first : ∃ t,
    Run (Guarded (OwnerStep .mm) fun p op => op = .alloc → Room .mm p.1) (mmState 0, []) [.alloc]
      (t, [0]) ∧ ∀ slot ∈ [0], Owner.mm.InBitmap (Owner.mm.pool.bitAddr slot) := by
  obtain ⟨⟨status, va, t⟩, hret, htest⟩ := exists_of_okAnd
    (e := dpageAlloc Owner.mm.pool (mmState 0))
    (p := fun r => r.2.1 == some 0xF4000000) (by decide +kernel)
  obtain rfl : va = some 0xF4000000 := by simpa using htest
  obtain ⟨slot?, hfind, htest⟩ := exists_of_okAnd
    (e := findSlot Owner.mm.pool (mmState 0) Owner.mm.capacity 0)
    (p := fun r => r.isSome) (by decide +kernel)
  have hroom : Room .mm (mmState 0) := by
    refine .inr fun hnone => ?_
    rw [hnone] at hfind
    cases hfind
    simp at htest
  have hrun : Run (Guarded (OwnerStep .mm) fun p op => op = .alloc → Room .mm p.1)
      (mmState 0, []) [.alloc] (t, [0]) := .cons ⟨fun _ => hroom, .given hret⟩ (.nil _)
  exact ⟨t, hrun, (run_contained hrun).1⟩

end Unidos.Dpage
