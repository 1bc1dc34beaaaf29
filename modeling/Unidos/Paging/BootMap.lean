import Unidos.Paging.PageMap

/-!
# The page tables of the boot

What `paging_init_identity_window` builds. The frames it reserves are the directory, a table for
each 4 MiB of memory, a table for the kernel image, and as many tables again for the window; the
loops write to them by index. `Cells` looks at the frames as rows of entries, so that each loop
fills in one row or one column. `bootTables_translate` reads the result off as a map from virtual
to physical addresses.
-/

namespace Unidos.Paging

open Lib

/-! ## Frames as rows of entries -/

/-- Entry `j` of the table in frame number `k` of a list. -/
def cell (frames : List Nat) (mem : Memory) (k j : Nat) : BitVec 32 :=
  tableEntry mem (frames.getD k 0 / 4096) j

/-- The frames of a list are `n` different ones. -/
structure DistinctFrames (frames : List Nat) (n : Nat) : Prop where
  length : frames.length = n
  aligned : ∀ a ∈ frames, a % 4096 = 0 ∧ a < 2 ^ 32
  nodup : frames.Nodup

section Cells

variable {frames : List Nat} {n k k' j i : Nat} {mem : Memory}

theorem DistinctFrames.getD_mem (h : DistinctFrames frames n) (hk : k < n) :
    frames.getD k 0 ∈ frames := by
  have hlen : k < frames.length := h.length ▸ hk
  rw [List.getD_eq_getElem _ _ hlen]
  exact List.getElem_mem hlen

theorem DistinctFrames.addr_eq (h : DistinctFrames frames n) (hk : k < n) :
    4096 * (frames.getD k 0 / 4096) = frames.getD k 0 := by
  have := (h.aligned _ (h.getD_mem hk)).1
  omega

theorem DistinctFrames.ne (h : DistinctFrames frames n) (hk : k < n) (hk' : k' < n)
    (hne : k' ≠ k) : frames.getD k' 0 / 4096 ≠ frames.getD k 0 / 4096 := by
  intro heq
  have haddr : frames.getD k' 0 = frames.getD k 0 := by
    rw [← h.addr_eq hk', ← h.addr_eq hk, heq]
  have hlen : k < frames.length := h.length ▸ hk
  have hlen' : k' < frames.length := h.length ▸ hk'
  rw [List.getD_eq_getElem _ _ hlen, List.getD_eq_getElem _ _ hlen'] at haddr
  exact hne ((List.Nodup.getElem_inj_iff h.nodup).mp haddr)

/-- One entry is written. -/
theorem cell_writeWord (h : DistinctFrames frames n) (hk : k < n) (hk' : k' < n) (hi : i < 1024)
    (hj : j < 1024) (w : BitVec 32) :
    cell frames (mem.writeWord (frames.getD k 0 + 4 * i) w) k' j =
      if k' = k ∧ j = i then w else cell frames mem k' j := by
  unfold cell
  rw [← h.addr_eq hk, show mem.writeWord (4096 * (frames.getD k 0 / 4096) + 4 * i) w =
    setEntry mem (frames.getD k 0 / 4096) i w from rfl]
  by_cases hkk : k' = k
  · subst hkk
    by_cases hji : j = i
    · rw [if_pos ⟨rfl, hji⟩, hji, tableEntry_setEntry_same]
    · rw [if_neg (fun h => hji h.2), tableEntry_setEntry_ne _ _ hji]
  · rw [if_neg (fun h => hkk h.1)]
    exact (agreeOn_setEntry mem w hi (h.ne hk hk' hkk)).tableEntry hj

/-- A row is cleared. -/
theorem cell_fillBytes (h : DistinctFrames frames n) (hk : k < n) (hk' : k' < n) (hj : j < 1024) :
    cell frames (mem.fillBytes (frames.getD k 0) 4096 0) k' j =
      if k' = k then 0 else cell frames mem k' j := by
  unfold cell
  rw [← h.addr_eq hk]
  split
  · rename_i hkk
    subst hkk
    exact Memory.readWord_fillBytes_zero _ (by omega) (by omega)
  · rename_i hkk
    exact (changesOnly_fillBytes mem _ 0 _ (h.ne hk hk' hkk)).tableEntry hj

/-- The first `m` entries of a row are written. -/
theorem cell_fillWords (h : DistinctFrames frames n) (hk : k < n) (hk' : k' < n) (hj : j < 1024)
    (word : Nat → BitVec 32) {m : Nat} (hm : m ≤ 1024) :
    cell frames (mem.fillWords (frames.getD k 0) word m) k' j =
      if k' = k ∧ j < m then word j else cell frames mem k' j := by
  induction m with
  | zero => simp [Memory.fillWords]
  | succ m ih =>
      rw [Memory.fillWords, cell_writeWord h hk hk' (by omega) hj, ih (by omega)]
      by_cases hkk : k' = k
      · by_cases hjm : j = m
        · simp [hkk, hjm]
        · simp only [hkk, true_and, hjm, if_false]
          congr 1
          simp only [eq_iff_iff]
          omega
      · simp [hkk]

end Cells

/-! ## The directory -/

/-- The entry for the table in frame number `k`, if there is one. -/
def dirWord (frames : List Nat) : Option Nat → BitVec 32
  | none => 0
  | some k => kernelEntry (frames.getD k 0)

/-- The directory of `s` is in the first frame, and `slot` says which frame holds the table for each
of its entries; the record of the tables says the same. -/
structure DirIs (frames : List Nat) (slot : Nat → Option Nat) (s : State) : Prop where
  loc : s.pageDirectoryLocPhys = frames.getD 0 0
  entry : ∀ i, i < 1024 → cell frames s.pmm.mem 0 i = dirWord frames (slot i)
  table : ∀ i, s.pageTablesLocPhys i = ((slot i).map fun k => frames.getD k 0).getD 0

section Directory

variable {frames : List Nat} {n k i : Nat} {slot : Nat → Option Nat} {s : State}

theorem DirIs.withCount (h : DirIs frames slot s) (count : Nat) :
    DirIs frames slot { s with pageTableCount := count } := ⟨h.loc, h.entry, h.table⟩

/-- A table is entered. -/
theorem DirIs.installTable (h : DirIs frames slot s) (hf : DistinctFrames frames n) (hn : 0 < n)
    (hi : i < 1024) :
    DirIs frames (Function.update slot i (some k)) (s.installTable i (frames.getD k 0)) := by
  refine ⟨h.loc, fun j hj => ?_, fun j => ?_⟩
  · change cell frames (s.pmm.mem.writeWord (s.pageDirectoryLocPhys + 4 * i) _) 0 j = _
    rw [h.loc, cell_writeWord hf hn hn hi hj]
    by_cases hji : j = i
    · subst hji
      rw [if_pos ⟨rfl, rfl⟩, Function.update_self]
      rfl
    · rw [if_neg (fun h => hji h.2), Function.update_of_ne hji, h.entry j hj]
  · change Function.update s.pageTablesLocPhys i _ j = _
    by_cases hji : j = i
    · subst hji
      rw [Function.update_self, Function.update_self]
      rfl
    · rw [Function.update_of_ne hji, Function.update_of_ne hji, h.table j]

/-- Writes to other frames leave the directory alone. -/
theorem DirIs.withMem (h : DirIs frames slot s) {mem : Memory}
    (hmem : ∀ i, i < 1024 → cell frames mem 0 i = cell frames s.pmm.mem 0 i) :
    DirIs frames slot (s.withMem mem) :=
  ⟨h.loc, fun i hi => (hmem i hi).trans (h.entry i hi), h.table⟩

end Directory

/-! ## The loops -/

/-- Which frame holds the table for each entry of the directory, with `n` tables of the identity map
and `w` tables of the window. -/
def bootSlot (n w i : Nat) : Option Nat :=
  if i < n then some (i + 1)
  else if i = 768 then some (n + 1)
  else if 832 ≤ i ∧ i < 832 + w then some (n + 2 + (i - 832))
  else none

/-- The address at which the kernel image starts, as the code rounds it. -/
def kernelPhysStart (boot : Layout) : Nat := boot.kernelStart.toNat / 4096 * 4096

/-- The number of pages of the kernel image. -/
def kernelPages (boot : Layout) : Nat :=
  ((boot.kernelEnd.toNat + 0xFFF) % 2 ^ 32 / 4096 * 4096 + (2 ^ 32 - kernelPhysStart boot)) %
    2 ^ 32 / 4096

/-- The entries of row `k`. -/
def RowIs (frames : List Nat) (k : Nat) (word : Nat → BitVec 32) (s : State) : Prop :=
  ∀ j, j < 1024 → cell frames s.pmm.mem k j = word j

/-- The table of the kernel image. -/
def kernelRow (boot : Layout) (j : Nat) : BitVec 32 :=
  if j < kernelPages boot then kernelEntry (kernelPhysStart boot + 4096 * j) else 0

/-- Table `p` of the window. -/
def windowRow (p j : Nat) : BitVec 32 := kernelEntry (p * 2 ^ 22 + 4096 * j)

/-- The state while the window is filled in: `w` of its tables are there. -/
structure WindowBuilt (boot : Layout) (frames : List Nat) (n w : Nat) (s : State) : Prop where
  room : w ≤ 192
  dir : DirIs frames (bootSlot n w) s
  kernel : RowIs frames (n + 1) (kernelRow boot) s
  window : ∀ p, p < w → RowIs frames (n + 2 + p) (windowRow p) s

/-- The state while the identity map is filled in: `q` of its pages are there. -/
structure IdentityBuilt (boot : Layout) (frames : List Nat) (n q : Nat) (s : State) : Prop where
  built : WindowBuilt boot frames n n s
  identity : ∀ q', q' < q →
    cell frames s.pmm.mem (q' / 1024 + 1) (q' % 1024) = kernelEntry (4096 * q')

section Loops

variable {boot : Layout} {frames : List Nat} {n w : Nat} {s t : State}

/-- The loop over the tables of the identity map. -/
theorem installIdentity_dir (hf : DistinctFrames frames (2 * n + 2)) (hn : n ≤ 511)
    (h : DirIs frames (fun _ => none) s) :
    DirIs frames (fun i => if i < n then some (i + 1) else none)
      (installIdentity frames n s) := by
  unfold installIdentity
  refine DirIs.withCount ?_ n
  refine foldl_range
    (I := fun k u => DirIs frames (fun i => if i < k then some (i + 1) else none) u)
    (fun i u hi hu => ?_) (by simpa using h)
  have hslot : Function.update (fun j => if j < i then some (j + 1) else none) i (some (i + 1)) =
      fun j => if j < i + 1 then some (j + 1) else none := by
    funext j
    by_cases hj : j = i
    · simp [hj]
    · rw [Function.update_of_ne hj]
      congr 1
      simp only [eq_iff_iff]
      omega
  rw [← hslot]
  exact hu.installTable hf (by omega) (by omega)

/-- The table of the kernel image. -/
theorem installHigh_built (hf : DistinctFrames frames (2 * n + 2)) (hn : n ≤ 511)
    (h : DirIs frames (fun i => if i < n then some (i + 1) else none) s)
    (hret : installHigh boot (frames.getD (n + 1) 0) s = .ok t) :
    WindowBuilt boot frames n 0 t ∧ kernelPages boot ≤ 1024 := by
  have hslot : Function.update (fun i => if i < n then some (i + 1) else none) 768 (some (n + 1)) =
      bootSlot n 0 := by
    funext i
    by_cases hi : i = 768
    · subst hi
      rw [Function.update_self, bootSlot, if_neg (by omega), if_pos rfl]
    · have hno : ¬ (832 ≤ i ∧ i < 832 + 0) := by omega
      rw [Function.update_of_ne hi, bootSlot, if_neg hi, if_neg hno]
  have hdir := (h.installTable (k := n + 1) hf (by omega) (show 768 < 1024 by decide)).withCount
    (s.pageTableCount + 1)
  rw [hslot] at hdir
  unfold installHigh at hret
  rw [show kernelVirtualBase / 2 ^ 22 = 768 by decide] at hret
  dsimp only at hret
  split at hret
  · cases hret
  rename_i hpages
  obtain rfl := Except.ok.inj hret
  have hle : kernelPages boot ≤ 1024 := Nat.le_of_not_lt hpages
  -- both writes go to the row of the new table
  have hcell : ∀ mem k j, k < 2 * n + 2 → j < 1024 →
      cell frames ((mem.fillBytes (frames.getD (n + 1) 0) 4096 0).fillWords (frames.getD (n + 1) 0)
        (fun i => kernelEntry (kernelPhysStart boot + 4096 * i)) (kernelPages boot)) k j =
        if k = n + 1 then kernelRow boot j else cell frames mem k j := by
    intro mem k j hk hj
    rw [cell_fillWords hf (by omega) hk hj _ hle, cell_fillBytes hf (by omega) hk hj]
    by_cases hkn : k = n + 1 <;> simp [hkn, kernelRow]
  refine ⟨⟨Nat.zero_le _, ⟨hdir.loc, fun i hi => ?_, hdir.table⟩, fun j hj => ?_,
    fun p hp => absurd hp (Nat.not_lt_zero p)⟩, hle⟩
  · exact ((hcell _ 0 i (by omega) hi).trans (if_neg (by omega))).trans (hdir.entry i hi)
  · exact (hcell _ (n + 1) j (by omega) hj).trans (if_pos rfl)

/-- A table of the window. -/
theorem installWindowTable_built (hf : DistinctFrames frames (2 * n + 2)) (hn : n ≤ 511)
    (hw : w < n) (h : WindowBuilt boot frames n w s)
    (hret : installWindowTable frames n s w = .ok t) : WindowBuilt boot frames n (w + 1) t := by
  unfold installWindowTable at hret
  rw [show physWindowBase / 2 ^ 22 = 832 by decide] at hret
  dsimp only at hret
  split at hret
  · cases hret
  rename_i hroom
  rw [show ptMax = 1024 from rfl] at hroom
  obtain rfl := Except.ok.inj hret
  have hslot : Function.update (bootSlot n w) (832 + w) (some (n + 2 + w)) =
      bootSlot n (w + 1) := by
    funext i
    by_cases hi : i = 832 + w
    · subst hi
      rw [Function.update_self, bootSlot, if_neg (by omega), if_neg (by omega),
        if_pos (by omega), Nat.add_sub_cancel_left]
    · rw [Function.update_of_ne hi, bootSlot, bootSlot]
      have hiff : 832 ≤ i ∧ i < 832 + w ↔ 832 ≤ i ∧ i < 832 + (w + 1) := by omega
      simp only [hiff]
  have hdir := h.dir.installTable (k := n + 2 + w) hf (by omega) (show 832 + w < 1024 by omega)
  rw [hslot] at hdir
  have hwin : w * 2 ^ 22 % 2 ^ 32 = w * 2 ^ 22 := Nat.mod_eq_of_lt (by omega)
  -- the entry goes to the directory, the words to the row of the new table
  have hcell : ∀ k j, k < 2 * n + 2 → j < 1024 →
      cell frames ((s.pmm.mem.writeWord (s.pageDirectoryLocPhys + 4 * (832 + w))
        (kernelEntry (frames.getD (n + 2 + w) 0))).fillWords (frames.getD (n + 2 + w) 0)
        (fun i => kernelEntry (w * 2 ^ 22 % 2 ^ 32 + 4096 * i)) 1024) k j =
        if k = n + 2 + w then windowRow w j
        else cell frames (s.pmm.mem.writeWord (s.pageDirectoryLocPhys + 4 * (832 + w))
          (kernelEntry (frames.getD (n + 2 + w) 0))) k j := by
    intro k j hk hj
    rw [cell_fillWords hf (by omega) hk hj _ (Nat.le_refl _), hwin]
    by_cases hkn : k = n + 2 + w <;> simp [hkn, hj, windowRow]
  have hrow : ∀ k j, 0 < k → k < 2 * n + 2 → j < 1024 →
      cell frames (s.pmm.mem.writeWord (s.pageDirectoryLocPhys + 4 * (832 + w))
          (kernelEntry (frames.getD (n + 2 + w) 0))) k j = cell frames s.pmm.mem k j := by
    intro k j hk hk' hj
    rw [h.dir.loc, cell_writeWord hf (by omega) hk' (by omega) hj, if_neg (by omega)]
  refine ⟨by omega, ⟨hdir.loc, fun i hi => ?_, hdir.table⟩, fun j hj => ?_, fun p hp j hj => ?_⟩
  · exact ((hcell 0 i (by omega) hi).trans (if_neg (by omega))).trans (hdir.entry i hi)
  · exact ((hcell (n + 1) j (by omega) hj).trans (if_neg (by omega))).trans
      ((hrow _ j (by omega) (by omega) hj).trans (h.kernel j hj))
  · by_cases hpw : p = w
    · subst hpw
      exact (hcell (n + 2 + p) j (by omega) hj).trans (if_pos rfl)
    · exact ((hcell (n + 2 + p) j (by omega) hj).trans (if_neg (by omega))).trans
        ((hrow _ j (by omega) (by omega) hj).trans (h.window p (by omega) j hj))

/-- A page of the identity map. -/
theorem mapIdentityPage_built (hf : DistinctFrames frames (2 * n + 2)) {q : Nat}
    (hq : q < 1024 * n) (h : IdentityBuilt boot frames n q s)
    (hret : mapIdentityPage s q = .ok t) : IdentityBuilt boot frames n (q + 1) t := by
  have hn := h.built.room
  have hvirt : q * 4096 % 2 ^ 32 = 4096 * q := by omega
  have hdirIndex : 4096 * q / 2 ^ 22 % 1024 = q / 1024 := by omega
  have htableIndex : 4096 * q / 4096 % 1024 = q % 1024 := by omega
  have hloc : s.pageTablesLocPhys (q / 1024) = frames.getD (q / 1024 + 1) 0 := by
    rw [h.built.dir.table, bootSlot, if_pos (by omega)]
    rfl
  unfold mapIdentityPage at hret
  dsimp only at hret
  rw [hvirt, hdirIndex, htableIndex, hloc] at hret
  split at hret
  · cases hret
  obtain rfl := Except.ok.inj hret
  have hcell : ∀ k j, k < 2 * n + 2 → j < 1024 →
      cell frames (s.pmm.mem.writeWord (frames.getD (q / 1024 + 1) 0 + 4 * (q % 1024))
        (kernelEntry (4096 * q))) k j =
        if k = q / 1024 + 1 ∧ j = q % 1024 then kernelEntry (4096 * q)
        else cell frames s.pmm.mem k j :=
    fun k j hk hj => cell_writeWord hf (by omega) hk (Nat.mod_lt _ (by decide)) hj _
  refine ⟨⟨h.built.room, ?_, fun j hj => ?_, fun p hp j hj => ?_⟩, fun q' hq' => ?_⟩
  · exact h.built.dir.withMem fun i hi => (hcell 0 i (by omega) hi).trans (if_neg (by omega))
  · exact ((hcell (n + 1) j (by omega) hj).trans (if_neg (by omega))).trans (h.built.kernel j hj)
  · exact ((hcell (n + 2 + p) j (by omega) hj).trans (if_neg (by omega))).trans
      (h.built.window p hp j hj)
  · refine (hcell _ _ (by omega) (Nat.mod_lt _ (by decide))).trans ?_
    by_cases hqq : q' = q
    · subst hqq
      exact if_pos ⟨rfl, rfl⟩
    · rw [if_neg (by omega)]
      exact h.identity q' (by omega)

/-- What has been built when the directory is loaded. -/
theorem buildTables_built (hf : DistinctFrames frames (2 * n + 2)) (hn : n ≤ 511)
    (hret : buildTables boot frames n (n * 2 ^ 22) s = .ok t) :
    IdentityBuilt boot frames n (1024 * n) t ∧ kernelPages boot ≤ 1024 ∧
      t.cr3 = frames.getD 0 0 := by
  unfold buildTables at hret
  dsimp only at hret
  obtain ⟨s₁, hhigh, hret⟩ := bind_eq_ok.mp hret
  obtain ⟨s₂, hwindow, hret⟩ := bind_eq_ok.mp hret
  obtain ⟨s₃, hidentity, hret⟩ := bind_eq_ok.mp hret
  obtain rfl := Except.ok.inj hret
  have hstart : DirIs frames (fun _ => none) (State.withMem { s with
      pageDirectoryLocPhys := frames.getD 0 0
      pageTablesLocPhys := fun _ => 0
      pageTableCount := 0 } (s.pmm.mem.fillBytes (frames.getD 0 0) 4096 0)) :=
    ⟨rfl, fun i hi => (cell_fillBytes hf (by omega) (by omega) hi).trans (if_pos rfl), fun _ => rfl⟩
  obtain ⟨hhigh, hpages⟩ := installHigh_built hf hn (installIdentity_dir hf hn hstart) hhigh
  have hwindow : WindowBuilt boot frames n n s₂ :=
    foldlM_range (I := WindowBuilt boot frames n)
      (fun p u v hp hu hv => installWindowTable_built hf hn hp hu hv) hhigh hwindow
  have hcount : (n * 2 ^ 22 + 0xFFF) / 4096 % 2 ^ 32 = 1024 * n := by omega
  rw [hcount] at hidentity
  have hidentity : IdentityBuilt boot frames n (1024 * n) s₃ :=
    foldlM_range (I := IdentityBuilt boot frames n)
      (fun q u v hq hu hv => mapIdentityPage_built hf hq hu hv)
      ⟨hwindow, fun q hq => absurd hq (Nat.not_lt_zero q)⟩ hidentity
  exact ⟨⟨⟨hidentity.built.room, ⟨hidentity.built.dir.loc, hidentity.built.dir.entry,
    hidentity.built.dir.table⟩, hidentity.built.kernel, hidentity.built.window⟩,
    hidentity.identity⟩, hpages, hidentity.built.dir.loc⟩

/-- The directory, the table of the kernel and the tables of both maps are counted. -/
theorem buildTables_count {bytes : Nat} (hret : buildTables boot frames n bytes s = .ok t) :
    t.pageTableCount = n + 1 + n := by
  unfold buildTables at hret
  obtain ⟨s1, hhigh, hret⟩ := bind_eq_ok.mp hret
  obtain ⟨s2, hwindow, hret⟩ := bind_eq_ok.mp hret
  obtain ⟨s3, hidentity, hret⟩ := bind_eq_ok.mp hret
  have h1 : s1.pageTableCount = n + 1 := by
    unfold installHigh at hhigh
    dsimp only at hhigh
    split at hhigh
    · cases hhigh
    · rw [← Except.ok.inj hhigh]
      rfl
  have h2 : s2.pageTableCount = n + 1 + n := by
    refine foldlM_range (I := fun w u => u.pageTableCount = n + 1 + w) (fun w u v _ hu hstep => ?_)
      h1 hwindow
    unfold installWindowTable at hstep
    dsimp only at hstep
    split at hstep
    · cases hstep
    · rw [← Except.ok.inj hstep, ← Nat.add_assoc, ← hu]
      rfl
  have h3 : s3.pageTableCount = n + 1 + n := by
    refine foldlM_invariant (I := fun u => u.pageTableCount = n + 1 + n)
      (fun u v i _ hu hstep => ?_) h2 hidentity
    unfold mapIdentityPage at hstep
    dsimp only at hstep
    split at hstep
    · cases hstep
    · rw [← Except.ok.inj hstep, ← hu]
      rfl
  rw [← Except.ok.inj hret]
  exact h3

end Loops

/-! ## Entries of the kernel -/

section Entries

variable {phys : Nat}

theorem kernelEntry_eq (phys : Nat) : kernelEntry phys = mkEntry (phys % 2 ^ 32) 3 := by
  have hmod : BitVec.ofNat 32 (phys % 2 ^ 32) = BitVec.ofNat 32 phys :=
    BitVec.eq_of_toNat_eq (by rw [BitVec.toNat_ofNat, BitVec.toNat_ofNat, Nat.mod_mod])
  rw [kernelEntry, mkEntry, hmod, BitVec.or_assoc]
  rfl

theorem entryPresent_kernelEntry (h : phys % 4096 = 0) :
    entryPresent (kernelEntry phys) = true := by
  rw [kernelEntry_eq, entryPresent_mkEntry (by omega)]
  rfl

theorem entryPhys_kernelEntry (h : phys % 4096 = 0) :
    entryPhys (kernelEntry phys) = phys % 2 ^ 32 := by
  rw [kernelEntry_eq, entryPhys_mkEntry (by omega) (Nat.mod_lt _ (by decide)) (by decide)]

/-- Pages of the kernel are writable, and not open to the user. -/
theorem kernelEntry_flags (h : phys % 4096 = 0) :
    kernelEntry phys &&& pgRw ≠ 0 ∧ kernelEntry phys &&& pgUser = 0 := by
  have hflags : entryFlags (kernelEntry phys) = 3 := by
    rw [kernelEntry_eq, entryFlags_mkEntry (by omega) (by decide)]
  have hmask : ∀ mask : BitVec 32, 0xFFF &&& mask = mask →
      kernelEntry phys &&& mask = 3 &&& mask := by
    intro mask hmask
    rw [← hflags, entryFlags, BitVec.and_assoc, hmask]
  rw [hmask _ (by decide), hmask _ (by decide)]
  decide

end Entries

/-! ## The map -/

/-- The memory to map: all of it, rounded up to 4 MiB. -/
def mappedBytes (boot : Layout) : Nat :=
  (boot.availMemoryKib.toNat * 1024 + 0x3FFFFF) / 0x400000 * 0x400000

/-- Where the boot tables should lead: low memory one to one, the kernel image from
`KERNEL_VIRTUAL_BASE` on, and all memory from `PHYS_WINDOW_BASE` on. -/
def bootTarget (boot : Layout) (bytes va : Nat) : Option Nat :=
  if va < bytes then some va
  else if kernelVirtualBase ≤ va ∧ va - kernelVirtualBase < 4096 * kernelPages boot then
    some ((kernelPhysStart boot + (va - kernelVirtualBase)) % 2 ^ 32)
  else if physWindowBase ≤ va ∧ va - physWindowBase < bytes then
    some (va - physWindowBase)
  else none

/-- The entry that the walk through the kernel's directory finds. -/
def State.walk (s : State) (va : Nat) : Option (BitVec 32) :=
  translate s.pmm.mem s.dirFrame (pdiOf va) (ptiOf va)

/-- The tables lead where they should, for the kernel only and with write access; and the record of
the tables agrees with the directory, which is loaded. -/
structure BootMapped (boot : Layout) (bytes : Nat) (s : State) : Prop where
  target : ∀ va, va < 2 ^ 32 →
    (s.walk va).map (fun w => entryPhys w + va % 4096) = bootTarget boot bytes va
  access : ∀ va w, s.walk va = some w → (w &&& pgRw ≠ 0 ∧ w &&& pgUser = 0) ∧
    s.dirEntry (pdiOf va) &&& pgRw ≠ 0 ∧ s.dirEntry (pdiOf va) &&& pgUser = 0
  tables : ∀ i, i < 1024 → s.pageTablesLocPhys i =
    if entryPresent (s.dirEntry i) then entryPhys (s.dirEntry i) else 0
  loaded : s.cr3 = s.pageDirectoryLocPhys

theorem bootSlot_lt {n i k : Nat} (hslot : bootSlot n n i = some k) : k < 2 * n + 2 := by
  unfold bootSlot at hslot
  split at hslot
  · obtain rfl := Option.some.inj hslot
    omega
  · split at hslot
    · obtain rfl := Option.some.inj hslot
      omega
    · split at hslot
      · obtain rfl := Option.some.inj hslot
        omega
      · cases hslot

/-- Every frame but the one of the directory becomes a page table. -/
theorem bootSlot_surj {n k : Nat} (hn : n ≤ 192) (hpos : 0 < k) (hk : k < 2 * n + 2) :
    ∃ i, i < 1024 ∧ bootSlot n n i = some k := by
  by_cases hlow : k ≤ n
  · refine ⟨k - 1, by omega, ?_⟩
    rw [bootSlot, if_pos (by omega), Nat.sub_add_cancel hpos]
  · by_cases hkernel : k = n + 1
    · refine ⟨768, by omega, ?_⟩
      rw [bootSlot, if_neg (by omega), if_pos rfl, hkernel]
    · refine ⟨832 + (k - (n + 2)), by omega, ?_⟩
      rw [bootSlot, if_neg (by omega), if_neg (by omega), if_pos (by omega), Option.some.injEq]
      omega

theorem bootSlot_pos {n i k : Nat} (hslot : bootSlot n n i = some k) : 0 < k := by
  unfold bootSlot at hslot
  grind

theorem bootSlot_inj {n i j k : Nat} (hi : bootSlot n n i = some k)
    (hj : bootSlot n n j = some k) : i = j := by
  unfold bootSlot at hi hj
  grind

section Walk

variable {boot : Layout} {frames : List Nat} {n : Nat} {s : State}
  (hf : DistinctFrames frames (2 * n + 2)) (h : IdentityBuilt boot frames n (1024 * n) s)

include h

theorem dirFrame_built : s.dirFrame = frames.getD 0 0 / 4096 := by
  rw [State.dirFrame, h.built.dir.loc]

theorem dirEntry_built {i : Nat} (hi : i < 1024) :
    s.dirEntry i = dirWord frames (bootSlot n n i) := by
  rw [State.dirEntry, dirFrame_built h]
  exact h.built.dir.entry i hi

/-- There is no table for an entry outside the three parts. -/
theorem walk_none {va : Nat} (hslot : bootSlot n n (pdiOf va) = none) : s.walk va = none := by
  have hentry := dirEntry_built h (pdiOf_lt va)
  rw [hslot] at hentry
  refine translate_of_absent ?_ _
  change entryPresent (s.dirEntry (pdiOf va)) = false
  rw [hentry]
  exact (by decide : entryPresent 0 = false)

include hf

/-- The entry for a table. -/
theorem dirEntry_some {i k : Nat} (hi : i < 1024) (hslot : bootSlot n n i = some k) :
    entryPresent (s.dirEntry i) = true ∧ entryPhys (s.dirEntry i) = frames.getD k 0 ∧
      s.dirEntry i &&& pgRw ≠ 0 ∧ s.dirEntry i &&& pgUser = 0 := by
  obtain ⟨haligned, hlt⟩ := hf.aligned _ (hf.getD_mem (bootSlot_lt hslot))
  rw [dirEntry_built h hi, hslot]
  refine ⟨entryPresent_kernelEntry haligned, ?_, kernelEntry_flags haligned⟩
  exact (entryPhys_kernelEntry haligned).trans (Nat.mod_eq_of_lt hlt)

/-- The walk reads the row of the table. -/
theorem walk_some {va k : Nat} (hslot : bootSlot n n (pdiOf va) = some k) :
    s.walk va = Option.guard entryPresent (cell frames s.pmm.mem k (ptiOf va)) := by
  obtain ⟨hpresent, hphys, -⟩ := dirEntry_some hf h (pdiOf_lt va) hslot
  have hframe : entryFrame (s.dirEntry (pdiOf va)) = frames.getD k 0 / 4096 := by
    rw [entryFrame, hphys]
  rw [State.walk, translate_of_present hpresent]
  change Option.guard entryPresent (tableEntry _ (entryFrame (s.dirEntry (pdiOf va))) _) = _
  rw [hframe]
  rfl

/-- The walk to a page of the kernel. -/
theorem walk_kernelEntry {va k phys : Nat} (hslot : bootSlot n n (pdiOf va) = some k)
    (hphys : phys % 4096 = 0) (hcell : cell frames s.pmm.mem k (ptiOf va) = kernelEntry phys) :
    s.walk va = some (kernelEntry phys) := by
  rw [walk_some hf h hslot, hcell, Option.guard, if_pos (entryPresent_kernelEntry hphys)]

omit hf in
/-- Every entry of a table is one of the kernel, or empty. -/
theorem cell_built {i j k : Nat} (hj : j < 1024) (hslot : bootSlot n n i = some k) :
    (∃ phys, phys % 4096 = 0 ∧ cell frames s.pmm.mem k j = kernelEntry phys) ∨
      cell frames s.pmm.mem k j = 0 := by
  have hstart : kernelPhysStart boot % 4096 = 0 := Nat.mul_mod_left _ _
  unfold bootSlot at hslot
  split at hslot
  · obtain rfl := Option.some.inj hslot
    have hcell := h.identity (1024 * i + j) (by omega)
    rw [show (1024 * i + j) / 1024 = i by omega, show (1024 * i + j) % 1024 = j by omega] at hcell
    exact .inl ⟨_, by omega, hcell⟩
  split at hslot
  · obtain rfl := Option.some.inj hslot
    have hcell := h.built.kernel j hj
    unfold kernelRow at hcell
    split at hcell
    · exact .inl ⟨_, by omega, hcell⟩
    · exact .inr hcell
  split at hslot
  · obtain rfl := Option.some.inj hslot
    exact .inl ⟨_, by omega, h.built.window (i - 832) (by omega) j hj⟩
  · cases hslot

/-- Pages are for the kernel only, with write access. -/
theorem access_built {va : Nat} {w : BitVec 32} (hwalk : s.walk va = some w) :
    (w &&& pgRw ≠ 0 ∧ w &&& pgUser = 0) ∧
      s.dirEntry (pdiOf va) &&& pgRw ≠ 0 ∧ s.dirEntry (pdiOf va) &&& pgUser = 0 := by
  cases hslot : bootSlot n n (pdiOf va) with
  | none =>
      rw [walk_none h hslot] at hwalk
      cases hwalk
  | some k =>
      obtain ⟨-, -, hdir⟩ := dirEntry_some hf h (pdiOf_lt va) hslot
      rw [walk_some hf h hslot, Option.guard_eq_some_iff] at hwalk
      obtain ⟨rfl, hpresent⟩ := hwalk
      obtain ⟨phys, hphys, hcell⟩ | hcell := cell_built h (ptiOf_lt va) hslot
      · rw [hcell]
        exact ⟨kernelEntry_flags hphys, hdir⟩
      · rw [hcell] at hpresent
        exact absurd hpresent (by decide)

/-- Every present entry of the directory is a table of its own. -/
theorem present_built {i : Nat} (hi : i < 1024) (hpresent : entryPresent (s.dirEntry i) = true) :
    ∃ k, bootSlot n n i = some k ∧ entryFrame (s.dirEntry i) = frames.getD k 0 / 4096 := by
  cases hslot : bootSlot n n i with
  | none =>
      rw [dirEntry_built h hi, hslot] at hpresent
      exact absurd hpresent (by decide : ¬ entryPresent 0 = true)
  | some k =>
      obtain ⟨-, hphys, -⟩ := dirEntry_some hf h hi hslot
      exact ⟨k, rfl, by rw [entryFrame, hphys]⟩

/-- The record of the tables. -/
theorem tables_built {i : Nat} (hi : i < 1024) : s.pageTablesLocPhys i =
    if entryPresent (s.dirEntry i) then entryPhys (s.dirEntry i) else 0 := by
  rw [h.built.dir.table]
  cases hslot : bootSlot n n i with
  | none =>
      have habsent : ¬ entryPresent (dirWord frames none) = true :=
        (by decide : ¬ entryPresent 0 = true)
      rw [dirEntry_built h hi, hslot, if_neg habsent]
      rfl
  | some k =>
      obtain ⟨hpresent, hphys, -⟩ := dirEntry_some hf h hi hslot
      rw [if_pos hpresent, hphys]
      rfl

/-- Where the tables lead. -/
theorem target_built (hpages : kernelPages boot ≤ 1024) {va : Nat} (hva : va < 2 ^ 32) :
    (s.walk va).map (fun w => entryPhys w + va % 4096) = bootTarget boot (n * 2 ^ 22) va := by
  have hn := h.built.room
  have hpdi : pdiOf va = va / 2 ^ 22 := by
    unfold pdiOf
    omega
  have hpti : ptiOf va = va / 4096 % 1024 := rfl
  have hkernel : kernelVirtualBase = 768 * 2 ^ 22 := by decide
  have hwindow : physWindowBase = 832 * 2 ^ 22 := by decide
  have hstart : kernelPhysStart boot % 4096 = 0 := Nat.mul_mod_left _ _
  unfold bootTarget
  rw [hkernel, hwindow]
  by_cases hlow : va < n * 2 ^ 22
  · -- the identity map
    have hslot : bootSlot n n (pdiOf va) = some (pdiOf va + 1) := if_pos (by omega)
    have hcell := h.identity (va / 4096) (by omega)
    rw [show va / 4096 / 1024 = pdiOf va by omega] at hcell
    rw [if_pos hlow, walk_kernelEntry hf h hslot (by omega) hcell, Option.map_some,
      entryPhys_kernelEntry (by omega)]
    refine congrArg some ?_
    omega
  rw [if_neg hlow]
  by_cases hhigh : va / 2 ^ 22 = 768
  · -- the kernel image
    have hslot : bootSlot n n (pdiOf va) = some (n + 1) := by
      rw [bootSlot, if_neg (by omega), if_pos (by omega)]
    have hcell := h.built.kernel (ptiOf va) (ptiOf_lt va)
    unfold kernelRow at hcell
    by_cases hin : ptiOf va < kernelPages boot
    · rw [if_pos hin] at hcell
      rw [if_pos (by omega), walk_kernelEntry hf h hslot (by omega) hcell, Option.map_some,
        entryPhys_kernelEntry (by omega)]
      refine congrArg some ?_
      omega
    · rw [if_neg hin] at hcell
      rw [if_neg (by omega), if_neg (by omega), walk_some hf h hslot, hcell,
        Option.guard, if_neg (by decide)]
      rfl
  rw [if_neg (by omega)]
  by_cases hwin : 832 ≤ va / 2 ^ 22 ∧ va / 2 ^ 22 < 832 + n
  · -- the window
    have hslot : bootSlot n n (pdiOf va) = some (n + 2 + (pdiOf va - 832)) := by
      rw [bootSlot, if_neg (by omega), if_neg (by omega), if_pos (by omega)]
    have hcell := h.built.window (pdiOf va - 832) (by omega) (ptiOf va) (ptiOf_lt va)
    rw [if_pos (by omega), walk_kernelEntry hf h hslot (by omega) hcell, Option.map_some,
      entryPhys_kernelEntry (by omega)]
    refine congrArg some ?_
    omega
  · have hslot : bootSlot n n (pdiOf va) = none := by
      rw [bootSlot, if_neg (by omega), if_neg (by omega), if_neg (by omega)]
    rw [if_neg (by omega), walk_none h hslot]
    rfl

end Walk

/-! ## The result -/

/-- What one successful call delivers. -/
theorem pmmReservePageframeSeq_addrs {pmm pmm' : Pmm.State} {n : Nat} {r : Pmm.SeqResult}
    (h : Pmm.pmmReservePageframeSeq pmm n true true true = .ok (r, pmm')) (hok : r.status = .ok) :
    ∃ cur count, count ≤ n ∧ r.outCount = some count ∧
      r.outReserved = (Pmm.windowFrames cur count).map Pmm.frameAddr := by
  unfold Pmm.pmmReservePageframeSeq at h
  split at h
  · obtain ⟨rfl, -⟩ := Prod.mk.inj (Except.ok.inj h)
    cases hok
  split at h
  · obtain ⟨rfl, -⟩ := Prod.mk.inj (Except.ok.inj h)
    cases hok
  rename_i cur _
  obtain ⟨⟨res, u⟩, -, h⟩ := bind_eq_ok.mp h
  dsimp only at h
  split at h
  · obtain ⟨rfl, -⟩ := Prod.mk.inj (Except.ok.inj h)
    cases hok
  obtain ⟨v, -, h⟩ := bind_eq_ok.mp h
  obtain ⟨rfl, -⟩ := Prod.mk.inj (Except.ok.inj h)
  exact ⟨cur, _, Pmm.seqWindow_le _ _ _ _ (Nat.le_refl _), rfl, rfl⟩

/-- The reservation loop delivers as many frames as it was asked for. -/
theorem reserveFrames_length {fuel n : Nat} {pmm pmm' : Pmm.State} {frames : List Nat}
    (h : reserveFrames fuel n pmm = .ok (some frames, pmm')) :
    frames.length = n ∧ ∀ a ∈ frames, a % 4096 = 0 ∧ a < 2 ^ 32 := by
  induction fuel generalizing n pmm frames with
  | zero =>
      cases n with
      | zero =>
          obtain ⟨heq, -⟩ := Prod.mk.inj (Except.ok.inj h)
          obtain rfl := Option.some.inj heq
          exact ⟨rfl, by simp⟩
      | succ n => cases h
  | succ fuel ih =>
      cases n with
      | zero =>
          obtain ⟨heq, -⟩ := Prod.mk.inj (Except.ok.inj h)
          obtain rfl := Option.some.inj heq
          exact ⟨rfl, by simp⟩
      | succ n =>
          obtain ⟨⟨r, next⟩, hseq, h⟩ := bind_eq_ok.mp h
          dsimp only at h
          split at h
          · simp at h
          rename_i hgood
          rw [not_or, not_not] at hgood
          obtain ⟨⟨rest, last⟩, hrest, h⟩ := bind_eq_ok.mp h
          simp only [Except.ok.injEq, Prod.mk.injEq, Option.map_eq_some_iff] at h
          obtain ⟨⟨rest, rfl, rfl⟩, rfl⟩ := h
          obtain ⟨cur, count, hle, hcount, hout⟩ := pmmReservePageframeSeq_addrs hseq hgood.1
          obtain ⟨hlen, haddr⟩ := ih hrest
          rw [hcount, Option.getD_some] at hlen
          refine ⟨?_, fun a ha => ?_⟩
          · rw [List.length_append, hlen, hout, List.length_map, Pmm.length_windowFrames]
            omega
          · obtain ha | ha := List.mem_append.mp ha
            · rw [hout] at ha
              obtain ⟨f, -, rfl⟩ := List.mem_map.mp ha
              unfold Pmm.frameAddr
              omega
            · exact haddr a ha

/-- How a successful boot went: it reserved `2 * n + 2` frames and filled them. -/
structure BootBuilt (boot : Layout) (s t : State) (frames : List Nat) (pmm : Pmm.State)
    (n : Nat) : Prop where
  bytes : identityBytesOf boot 0 = n * 2 ^ 22
  reserved : reserveFrames (2 * n + 2) (2 * n + 2) s.pmm = .ok (some frames, pmm)
  build : buildTables boot frames n (n * 2 ^ 22) { s with pmm := pmm } = .ok t
  distinct : DistinctFrames frames (2 * n + 2)
  built : IdentityBuilt boot frames n (1024 * n) t
  pages : kernelPages boot ≤ 1024
  loaded : t.cr3 = t.pageDirectoryLocPhys

theorem bootBuilt_of_ok {boot : Layout} {s t : State} {pd : Nat}
    (hret : pagingInitIdentityWindow boot s 0 = .ok (.ok, pd, t))
    (hdistinct : ∀ frames pmm, reserveFrames (neededFramesOf (identityBytesOf boot 0))
      (neededFramesOf (identityBytesOf boot 0)) s.pmm = .ok (some frames, pmm) → frames.Nodup) :
    pd = t.pageDirectoryLocPhys ∧ ∃ frames pmm n, BootBuilt boot s t frames pmm n := by
  obtain ⟨n, hn⟩ : ∃ n, identityBytesOf boot 0 = n * 2 ^ 22 := ⟨_, rfl⟩
  have hle : n ≤ 1024 := by
    rw [identityBytesOf, if_pos rfl] at hn
    omega
  have hpts : neededPtsOf (n * 2 ^ 22) = n := by
    rw [neededPtsOf, if_neg (by omega)]
    omega
  have htotal : neededFramesOf (n * 2 ^ 22) = 2 * n + 2 := by
    rw [neededFramesOf, hpts]
    omega
  unfold pagingInitIdentityWindow at hret
  rw [hn, htotal] at hdistinct
  rw [if_neg (by decide)] at hret
  dsimp only at hret
  rw [hn, htotal, hpts] at hret
  split at hret
  · cases hret
  rename_i hroom
  rw [show ptMax = 1024 from rfl] at hroom
  obtain ⟨⟨frames?, pmm⟩, hreserve, hret⟩ := bind_eq_ok.mp hret
  cases frames? with
  | none => cases hret
  | some frames =>
      dsimp only at hret
      split at hret
      · rename_i status u hbuild
        obtain ⟨rfl, -⟩ := Prod.mk.inj (Except.ok.inj hret)
        exact absurd rfl (buildTables_error hbuild)
      · rename_i u hbuild
        obtain ⟨-, hret⟩ := Prod.mk.inj (Except.ok.inj hret)
        obtain ⟨hpd, rfl⟩ := Prod.mk.inj hret
        obtain ⟨hlen, haddr⟩ := reserveFrames_length hreserve
        have hf : DistinctFrames frames (2 * n + 2) := ⟨hlen, haddr, hdistinct frames pmm hreserve⟩
        obtain ⟨hbuilt, hpages, hcr3⟩ := buildTables_built hf (by omega) hbuild
        exact ⟨hpd.symm, frames, pmm, n, hn, hreserve, hbuild, hf, hbuilt, hpages,
          hcr3.trans hbuilt.built.dir.loc.symm⟩

theorem BootBuilt.mapped {boot : Layout} {s t : State} {frames : List Nat} {pmm : Pmm.State}
    {n : Nat} (h : BootBuilt boot s t frames pmm n) :
    BootMapped boot (identityBytesOf boot 0) t where
  target va hva := by
    rw [h.bytes]
    exact target_built h.distinct h.built h.pages hva
  access va w hwalk := access_built h.distinct h.built hwalk
  tables i hi := tables_built h.distinct h.built hi
  loaded := h.loaded

/-- The tables of the boot are different frames, and different from the directory. -/
theorem BootBuilt.wired {boot : Layout} {s t : State} {frames : List Nat} {pmm : Pmm.State}
    {n : Nat} (h : BootBuilt boot s t frames pmm n) : t.Wired where
  dir_aligned := by
    rw [h.built.built.dir.loc]
    exact (h.distinct.aligned _ (h.distinct.getD_mem (by omega))).1
  tables := by
    refine ⟨fun i hi hpresent => ?_, fun i k hi hk hpi hpk heq => ?_⟩
    · obtain ⟨k, hslot, hframe⟩ := present_built h.distinct h.built hi hpresent
      have hpos := bootSlot_pos hslot
      change entryFrame (t.dirEntry i) ≠ t.dirFrame
      rw [hframe, dirFrame_built h.built]
      exact h.distinct.ne (by omega) (bootSlot_lt hslot) (by omega)
    · obtain ⟨a, ha, hfa⟩ := present_built h.distinct h.built hi hpi
      obtain ⟨b, hb, hfb⟩ := present_built h.distinct h.built hk hpk
      have hab : a = b := by
        by_contra hne
        refine h.distinct.ne (bootSlot_lt hb) (bootSlot_lt ha) hne ?_
        rw [← hfa, ← hfb]
        exact heq
      subst hab
      exact bootSlot_inj ha hb
  loc i hi hpresent := by
    rw [tables_built h.distinct h.built hi, if_pos hpresent]

/-- For every memory below 4 GiB and every place of the kernel image: if the boot succeeds with
different frames for all tables then these lead where they should. -/
theorem bootTables_translate {boot : Layout} {s t : State} {pd : Nat}
    (hkib : boot.availMemoryKib.toNat < 2 ^ 22)
    (hret : pagingInitIdentityWindow boot s 0 = .ok (.ok, pd, t))
    (hdistinct : ∀ frames pmm, reserveFrames (neededFramesOf (identityBytesOf boot 0))
      (neededFramesOf (identityBytesOf boot 0)) s.pmm = .ok (some frames, pmm) → frames.Nodup) :
    BootMapped boot (mappedBytes boot) t ∧ pd = t.pageDirectoryLocPhys := by
  have hbytes : identityBytesOf boot 0 = mappedBytes boot := by
    rw [identityBytesOf, if_pos rfl, mappedBytes, Nat.mod_eq_of_lt (by omega)]
  obtain ⟨hpd, frames, pmm, n, hbuilt⟩ := bootBuilt_of_ok hret hdistinct
  have hmapped := hbuilt.mapped
  rw [hbytes] at hmapped
  exact ⟨hmapped, hpd⟩

/-- A machine with 16 frames and a kernel image of one page. -/
def smallLayout : Layout where
  availMemoryKib := 64
  kernelEnd := 0x1000
  mem := fun _ => 0
  kernelStart := 0

/-- The machine before the boot tables: the bitmap lies in the second frame. -/
def beforePaging : State where
  pmm := {
    mem := fun a => if a = 4096 then 7 else 0
    pagebitmapPhys := 4096
    pagebitmapSizeBytes := 2
    frameCount := 16
    frameHint := 3
    availableFrames := 13
    usePhysWindowAlias := false
    memRegions := [] }
  pageDirectoryLocPhys := 0
  pageTablesLocPhys := fun _ => 0
  pageTableCount := 0
  cr3 := 0

theorem bootTables_translate_small : ∃ pd t,
    pagingInitIdentityWindow smallLayout beforePaging 0 = .ok (.ok, pd, t) ∧
      BootMapped smallLayout (mappedBytes smallLayout) t := by
  obtain ⟨⟨status, pd, t⟩, hret, htest⟩ := exists_of_okAnd
    (e := pagingInitIdentityWindow smallLayout beforePaging 0)
    (p := fun r => decide (r.1 = .ok)) (by decide +kernel)
  have hstatus : status = .ok := of_decide_eq_true htest
  subst hstatus
  obtain ⟨⟨found, pmm⟩, hreserve, hnodup⟩ := exists_of_okAnd
    (e := reserveFrames (neededFramesOf (identityBytesOf smallLayout 0))
      (neededFramesOf (identityBytesOf smallLayout 0)) beforePaging.pmm)
    (p := fun r => decide (r.1.getD []).Nodup) (by decide +kernel)
  refine ⟨pd, t, hret, (bootTables_translate (by decide) hret fun frames pmm' h => ?_).1⟩
  obtain ⟨hframes, -⟩ := Prod.mk.inj (Except.ok.inj (hreserve.symm.trans h))
  rw [hframes] at hnodup
  exact of_decide_eq_true hnodup

end Unidos.Paging
