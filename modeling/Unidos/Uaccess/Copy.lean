import Unidos.Mm.Load
import Unidos.Paging.PageMap
import Unidos.Paging.Query

/-!
# Copying between the kernel and user memory

After `kernel/uaccess.c`, with `kmemcpy`. Both functions check that one buffer lies in the kernel
half and the other in the user half, and that every page of the user buffer is mapped for the user;
then they copy byte by byte through the loaded directory. The write protection of pages does not
bind the kernel, which runs with `CR0.WP` clear.

`copy_checks` says that the checks ask for exactly this, and that the bytes arrive. The buffer of
the kernel is not checked, so that it has to be mapped; and the pages are not compared, so that the
copy must not run over its own source or over page tables.
-/

namespace Unidos.Uaccess

open Lib Paging

/-- `range_check`, for a length that is not zero or is. -/
def rangeCheck (start n : Nat) (wantUser : Bool) : Bool :=
  if n = 0 then true
  else
    let last := (start + (n - 1)) % 2 ^ 32
    if last < start then false
    else if wantUser then decide (start < kernelVirtualBase) && decide (last < kernelVirtualBase)
    else decide (start ≥ kernelVirtualBase) && decide (last ≥ kernelVirtualBase)

/-- The checks on one page of the user buffer; `write` says whether it must be writable. -/
def pageOk (s : Paging.State) (write : Bool) (va : Nat) : Except Trap Bool := do
  let (status, res) ← pagingQueryPage s va
  if status ≠ .ok ∨ res.mapped = false then .ok false
  else if res.flags &&& pgUser = 0 then .ok false
  else if write = true ∧ res.flags &&& pgRw = 0 then .ok false
  else .ok true

/-- The loop over the pages of the user buffer. It ends at the last page or at one that fails; after
as many rounds as there are pages it would go on forever. -/
def pageLoop (s : Paging.State) (write : Bool) (lastPage : Nat) : Nat → Nat → Except Trap Bool
  | 0, _ => .error .diverge
  | fuel + 1, va => do
      let ok ← pageOk s write va
      if ok = false then .ok false
      else if va = lastPage then .ok true
      else pageLoop s write lastPage fuel ((va + 0x1000) % 2 ^ 32)

/-- All pages of the user buffer. -/
def pagesOk (s : Paging.State) (write : Bool) (start n : Nat) : Except Trap Bool :=
  pageLoop s write ((start + (n - 1)) % 2 ^ 32 / 4096 * 4096) (2 ^ 20) (start / 4096 * 4096)

/-! ## Access through the loaded directory -/

/-- The entry that the walk through the loaded directory finds for an address. -/
def walkAt (s : Paging.State) (va : Nat) : Option (BitVec 32) :=
  translate s.pmm.mem (s.cr3 / 4096) (pdiOf va) (ptiOf va)

theorem readWord_dir (s : Paging.State) (va : Nat) :
    s.pmm.mem.readWord (s.cr3 / 4096 * 4096 + 4 * (va / 2 ^ 22 % 1024)) =
      tableEntry s.pmm.mem (s.cr3 / 4096) (pdiOf va) := by
  rw [Nat.mul_comm]
  rfl

/-- The walk is the same for all addresses of a page. -/
theorem walkAt_page (s : Paging.State) (va : Nat) :
    walkAt s (4096 * (va / 4096)) = walkAt s va := by
  have hpdi : pdiOf (4096 * (va / 4096)) = pdiOf va := by
    unfold pdiOf
    omega
  have hpti : ptiOf (4096 * (va / 4096)) = ptiOf va := by
    unfold ptiOf
    omega
  rw [walkAt, walkAt, hpdi, hpti]

/-- The physical address behind a virtual one. -/
def physAt (s : Paging.State) (va : Nat) : Option Nat :=
  (walkAt s va).map fun w => 4096 * entryFrame w + va % 4096

/-- A load by the processor. -/
def loadAt (s : Paging.State) (va : Nat) : Except Trap Byte :=
  match physAt s va with
  | none => .error .fault
  | some a => .ok (s.pmm.mem a)

/-- A store by the kernel: the page has to be present, not writable. -/
def storeAt (s : Paging.State) (va : Nat) (value : Byte) : Except Trap Paging.State :=
  match physAt s va with
  | none => .error .fault
  | some a => .ok (s.withMem (Function.update s.pmm.mem a value))

/-- The loop of `kmemcpy` for `n` more bytes from index `i` on. -/
def kmemcpyFrom (dest src : Nat) : Nat → Nat → Paging.State → Except Trap Paging.State
  | 0, _, s => .ok s
  | n + 1, i, s => do
      let byte ← loadAt s ((src + i) % 2 ^ 32)
      let s ← storeAt s ((dest + i) % 2 ^ 32) byte
      kmemcpyFrom dest src n (i + 1) s

/-- `kmemcpy`. -/
def kmemcpy (s : Paging.State) (dest src n : Nat) : Except Trap Paging.State :=
  kmemcpyFrom dest src n 0 s

/-- What the copying functions report. -/
inductive CopyStatus where
  | success
  | fault
  deriving DecidableEq, Repr

/-- `copyout`, called in kernel mode. -/
def copyout (s : Paging.State) (ksrc udest n : Nat) : Except Trap (CopyStatus × Paging.State) :=
  if ksrc = 0 ∨ udest = 0 then .ok (.fault, s)
  else if n = 0 then .ok (.success, s)
  else if rangeCheck ksrc n false = false then .ok (.fault, s)
  else if rangeCheck udest n true = false then .ok (.fault, s)
  else do
    let ok ← pagesOk s true udest n
    if ok = false then .ok (.fault, s)
    else do
      let s ← kmemcpy s udest ksrc n
      .ok (.success, s)

/-- `copyin`, called in kernel mode. -/
def copyin (s : Paging.State) (usrc kdest n : Nat) : Except Trap (CopyStatus × Paging.State) :=
  if usrc = 0 ∨ kdest = 0 then .ok (.fault, s)
  else if n = 0 then .ok (.success, s)
  else if rangeCheck usrc n true = false then .ok (.fault, s)
  else if rangeCheck kdest n false = false then .ok (.fault, s)
  else do
    let ok ← pagesOk s false usrc n
    if ok = false then .ok (.fault, s)
    else do
      let s ← kmemcpy s kdest usrc n
      .ok (.success, s)

/-! ## What the checks ask for -/

/-- The flags of a table entry let the user in, and if `write` is set also let pages be written. -/
def entryAllows (write : Bool) (w : BitVec 32) : Prop :=
  w &&& pgUser ≠ 0 ∧ (write = true → w &&& pgRw ≠ 0)

instance (write : Bool) (w : BitVec 32) : Decidable (entryAllows write w) :=
  inferInstanceAs (Decidable (_ ∧ _))

/-- The page of an address is present, with the flags in its table entry. -/
def PageOpen (s : Paging.State) (write : Bool) (va : Nat) : Prop :=
  ∃ w ∈ walkAt s va, entryAllows write w

instance (s : Paging.State) (write : Bool) (va : Nat) : Decidable (PageOpen s write va) :=
  decidable_of_iff ((walkAt s va).any (decide <| entryAllows write ·) = true)
    (by simp [PageOpen, Option.any_eq_true])

/-- What the functions should ask for: pointers that are not null, a kernel buffer in the kernel
half, and a user buffer in the user half with open pages. -/
structure Allowed (s : Paging.State) (write : Bool) (kaddr uaddr n : Nat) : Prop where
  kaddr_ne : kaddr ≠ 0
  uaddr_ne : uaddr ≠ 0
  kernel : kernelVirtualBase ≤ kaddr ∧ kaddr + n ≤ 2 ^ 32
  user : uaddr + n ≤ kernelVirtualBase
  pages : ∀ k, k < n → PageOpen s write (uaddr + k)

/-- The loaded directory and its page tables lie where the physical window reaches them. -/
structure InWindow (s : Paging.State) : Prop where
  dir : s.cr3 / 4096 * 4096 + physWindowBase < 2 ^ 32
  table : ∀ i, i < 1024 → entryPresent (tableEntry s.pmm.mem (s.cr3 / 4096) i) = true →
    entryPhys (tableEntry s.pmm.mem (s.cr3 / 4096) i) + physWindowBase < 2 ^ 32

section Checks

variable {s : Paging.State} {write : Bool} {va start n : Nat}

/-- The range of a user buffer. -/
theorem rangeCheck_user (hstart : start < 2 ^ 32) (hpos : 0 < n) (hn : n < 2 ^ 32) :
    rangeCheck start n true = true ↔ start + n ≤ kernelVirtualBase := by
  unfold rangeCheck kernelVirtualBase
  rw [if_neg (by omega)]
  simp only [if_true]
  split
  · simp only [Bool.false_eq_true, false_iff]
    omega
  · simp only [Bool.and_eq_true, decide_eq_true_eq]
    omega

/-- The range of a kernel buffer. -/
theorem rangeCheck_kernel (hstart : start < 2 ^ 32) (hpos : 0 < n) (hn : n < 2 ^ 32) :
    rangeCheck start n false = true ↔ kernelVirtualBase ≤ start ∧ start + n ≤ 2 ^ 32 := by
  unfold rangeCheck kernelVirtualBase
  rw [if_neg (by omega)]
  simp only [Bool.false_eq_true, if_false]
  split
  · simp only [Bool.false_eq_true, false_iff]
    omega
  · simp only [Bool.and_eq_true, decide_eq_true_eq]
    omega

section Query

variable (hinit : s.pageDirectoryLocPhys ≠ 0) (hwindow : InWindow s)

include hinit hwindow

/-- The query of a page answers by the walk: `none` for a page that is not mapped. -/
theorem pagingQueryPage_eq : pagingQueryPage s va = .ok ((walkAt s va).elim
    (.errNotMapped, .zero) fun w => (.ok, ⟨true, entryPhys w, entryFlags w⟩)) := by
  have hdir : physToVirt (s.cr3 / 4096 * 4096) = .ok (s.cr3 / 4096 * 4096) :=
    if_neg (Nat.not_le.mpr hwindow.dir)
  unfold pagingQueryPage walkAt
  rw [if_neg hinit, hdir, ok_bind, readWord_dir]
  by_cases hpresent : entryPresent (tableEntry s.pmm.mem (s.cr3 / 4096) (pdiOf va)) = true
  · have htable : physToVirt (entryPhys (tableEntry s.pmm.mem (s.cr3 / 4096) (pdiOf va))) =
        .ok (entryPhys (tableEntry s.pmm.mem (s.cr3 / 4096) (pdiOf va))) :=
      if_neg (Nat.not_le.mpr (hwindow.table _ (pdiOf_lt va) hpresent))
    rw [if_neg (by simp [hpresent]), htable, ok_bind, translate_of_present hpresent, entryPhys_eq]
    change (if entryPresent (tableEntry _ _ (ptiOf va)) = false then _ else _) = _
    split
    · rename_i habsent
      rw [Option.guard, if_neg (by rw [habsent]; exact Bool.false_ne_true)]
      rfl
    · rename_i hpte
      rw [Option.guard, if_pos (Bool.not_eq_false _ ▸ hpte)]
      rfl
  · have habsent := Bool.eq_false_iff.mpr hpresent
    rw [if_pos habsent, translate_of_absent habsent]
    rfl

/-- A page passes if it is open. -/
theorem pageOk_eq : pageOk s write va = .ok (decide (PageOpen s write va)) := by
  unfold pageOk
  cases hwalk : walkAt s va with
  | none =>
      have hclosed : ¬ PageOpen s write va := by simp [PageOpen, hwalk]
      rw [pagingQueryPage_eq hinit hwindow, hwalk, decide_eq_false hclosed]
      rfl
  | some w =>
      have hopen : PageOpen s write va ↔ entryAllows write w := by simp [PageOpen, hwalk]
      have huser := Mm.entryFlags_and w (show (0xFFF : BitVec 32) &&& pgUser = pgUser by decide)
      have hrw := Mm.entryFlags_and w (show (0xFFF : BitVec 32) &&& pgRw = pgRw by decide)
      rw [pagingQueryPage_eq hinit hwindow, hwalk, Option.elim_some, ok_bind]
      dsimp only
      rw [if_neg (by simp), huser, hrw]
      split
      · rename_i h
        rw [decide_eq_false fun hp => (hopen.mp hp).1 h]
      · rename_i hin
        split
        · rename_i h
          rw [decide_eq_false fun hp => (hopen.mp hp).2 h.1 h.2]
        · rename_i h
          rw [decide_eq_true (hopen.mpr ⟨hin, fun hw h0 => h ⟨hw, h0⟩⟩)]

/-- The loop over `k` pages after the first, with rounds enough. -/
theorem pageLoop_eq (k : Nat) : ∀ fuel p, k < fuel → 4096 * (p + k) < 2 ^ 32 →
    pageLoop s write (4096 * (p + k)) fuel (4096 * p) =
      .ok (decide (∀ j, j ≤ k → PageOpen s write (4096 * (p + j)))) := by
  induction k with
  | zero =>
      intro fuel p hfuel hlt
      obtain ⟨fuel, rfl⟩ : ∃ m, fuel = m + 1 := ⟨fuel - 1, by omega⟩
      unfold pageLoop
      rw [pageOk_eq hinit hwindow, ok_bind]
      by_cases h : PageOpen s write (4096 * p) <;> simp [h]
  | succ k ih =>
      intro fuel p hfuel hlt
      obtain ⟨fuel, rfl⟩ : ∃ m, fuel = m + 1 := ⟨fuel - 1, by omega⟩
      have hnext : (4096 * p + 0x1000) % 2 ^ 32 = 4096 * (p + 1) := by omega
      have hlast : 4096 * (p + (k + 1)) = 4096 * (p + 1 + k) := by omega
      unfold pageLoop
      rw [pageOk_eq hinit hwindow, ok_bind, hnext, hlast, ih fuel (p + 1) (by omega) (by omega)]
      by_cases h : PageOpen s write (4096 * p)
      · rw [if_neg (by simp [h]), if_neg (by omega)]
        refine congrArg Except.ok (decide_eq_decide.mpr ⟨fun hall j hj => ?_, fun hall j hj => ?_⟩)
        · cases j with
          | zero => exact h
          | succ j =>
              rw [Nat.add_comm j, ← Nat.add_assoc]
              exact hall j (by omega)
        · rw [Nat.add_assoc, Nat.add_comm 1]
          exact hall (j + 1) (by omega)
      · rw [if_pos (by simp [h]), decide_eq_false fun hall => h (hall 0 (Nat.zero_le _))]

/-- All pages of a buffer that does not wrap. -/
theorem pagesOk_eq (hpos : 0 < n) (hend : start + n ≤ 2 ^ 32) :
    pagesOk s write start n = .ok (decide (∀ k, k < n → PageOpen s write (start + k))) := by
  have hlast : (start + (n - 1)) % 2 ^ 32 / 4096 * 4096 =
      4096 * (start / 4096 + ((start + (n - 1)) / 4096 - start / 4096)) := by omega
  have hpage : ∀ va, PageOpen s write va ↔ PageOpen s write (4096 * (va / 4096)) := by
    intro va
    rw [PageOpen, PageOpen, walkAt_page]
  unfold pagesOk
  rw [hlast, Nat.mul_comm (start / 4096), pageLoop_eq hinit hwindow _ _ _ (by omega) (by omega)]
  refine congrArg Except.ok (decide_eq_decide.mpr ⟨fun hall k hk => ?_, fun hall j hj => ?_⟩)
  · have heq : (start + k) / 4096 = start / 4096 + ((start + k) / 4096 - start / 4096) := by omega
    rw [hpage, heq]
    exact hall _ (by omega)
  · -- The page of index `j` holds the first byte of the buffer or starts inside it.
    obtain ⟨k, hk, heq⟩ : ∃ k, k < n ∧ (start + k) / 4096 = start / 4096 + j :=
      ⟨4096 * (start / 4096 + j) - start, by omega, by omega⟩
    rw [← heq, ← hpage]
    exact hall k hk

end Query

end Checks

/-! ## The copy -/

/-- A byte of the loaded directory or of one of its page tables. -/
def OnTables (s : Paging.State) (a : Nat) : Prop :=
  a / 4096 = s.cr3 / 4096 ∨ ∃ i < 1024,
    entryPresent (tableEntry s.pmm.mem (s.cr3 / 4096) i) = true ∧
      a / 4096 = entryFrame (tableEntry s.pmm.mem (s.cr3 / 4096) i)

/-- Every byte of a buffer is mapped. -/
def Mapped (s : Paging.State) (start n : Nat) : Prop :=
  ∀ k, k < n → (walkAt s (start + k)).isSome = true

/-- No byte of the destination lies in page tables, and none is at the same physical address as
another byte of the two buffers. -/
structure Apart (s : Paging.State) (dest src n : Nat) : Prop where
  tables : ∀ k, k < n → ∀ a, physAt s (dest + k) = some a → ¬ OnTables s a
  once : ∀ j k, j < n → k < n → ∀ a, physAt s (dest + j) = some a →
    physAt s (dest + k) = some a → j = k
  source : ∀ j k, j < n → k < n → ∀ a, physAt s (dest + j) = some a →
    physAt s (src + k) ≠ some a

/-- The first `n` bytes of the destination are those of the source before the copy, and nothing
else has changed. -/
structure Copied (s t : Paging.State) (dest src n : Nat) : Prop where
  bytes : ∀ k, k < n → ∃ a b, physAt s (dest + k) = some a ∧ physAt s (src + k) = some b ∧
    t.pmm.mem a = s.pmm.mem b
  others : ∀ a, (∀ k, k < n → physAt s (dest + k) ≠ some a) → t.pmm.mem a = s.pmm.mem a
  rest : t = s.withMem t.pmm.mem

section Copy

variable {s t : Paging.State} {dest src n : Nat}

theorem physAt_isSome {va : Nat} : (walkAt s va).isSome = true ↔ ∃ a, physAt s va = some a := by
  rw [physAt, ← Option.isSome_iff_exists, Option.isSome_map]

/-- The walk is the same in a memory with the same tables. -/
theorem physAt_congr (hcr3 : t.cr3 = s.cr3)
    (hmem : ∀ a, OnTables s a → t.pmm.mem a = s.pmm.mem a) (va : Nat) :
    physAt t va = physAt s va := by
  have hwalk : walkAt t va = walkAt s va := by
    unfold walkAt
    rw [hcr3]
    refine translate_congr (pdiOf_lt va) (ptiOf_lt va) (fun a h1 h2 => hmem a (.inl (by omega)))
      fun hpresent a h1 h2 => hmem a (.inr ⟨_, pdiOf_lt va, hpresent, by omega⟩)
  rw [physAt, hwalk, physAt]

namespace Copied

/-- Nothing is copied at first. -/
theorem zero (s : Paging.State) (dest src : Nat) : Copied s s dest src 0 :=
  ⟨fun k hk => absurd hk (Nat.not_lt_zero k), fun _ _ => rfl, rfl⟩

/-- The copy leaves the translation alone. -/
theorem physAt_eq {i : Nat} (h : Copied s t dest src i) (hin : i ≤ n) (hapart : Apart s dest src n)
    (va : Nat) : physAt t va = physAt s va := by
  refine physAt_congr (by rw [h.rest]; rfl) (fun a ha => h.others a fun k hk hphys => ?_) va
  exact hapart.tables k (by omega) a hphys ha

/-- One round of the loop. -/
theorem step {i : Nat} (h : Copied s t dest src i) (hi : i < n) (hapart : Apart s dest src n)
    {a b : Nat} (ha : physAt s (dest + i) = some a) (hb : physAt s (src + i) = some b) :
    loadAt t (src + i) = .ok (s.pmm.mem b) ∧
      storeAt t (dest + i) (s.pmm.mem b) =
        .ok (t.withMem (Function.update t.pmm.mem a (s.pmm.mem b))) ∧
      Copied s (t.withMem (Function.update t.pmm.mem a (s.pmm.mem b))) dest src (i + 1) := by
  have hphys := h.physAt_eq (Nat.le_of_lt hi) hapart
  have hsource : t.pmm.mem b = s.pmm.mem b :=
    h.others b fun k hk hk' => hapart.source k i (by omega) hi b hk' hb
  refine ⟨by rw [loadAt, hphys, hb, ← hsource], by rw [storeAt, hphys, ha], fun k hk => ?_,
    fun c hc => ?_, ?_⟩
  · by_cases hki : k = i
    · subst hki
      exact ⟨a, b, ha, hb, Function.update_self ..⟩
    · obtain ⟨a', b', ha', hb', heq⟩ := h.bytes k (by omega)
      have hne : a' ≠ a := by
        rintro rfl
        exact hki (hapart.once k i (by omega) hi a' ha' ha)
      exact ⟨a', b', ha', hb', (Function.update_of_ne hne ..).trans heq⟩
  · have hne : c ≠ a := by
      rintro rfl
      exact hc i (Nat.lt_succ_self i) ha
    exact (Function.update_of_ne hne ..).trans (h.others c fun k hk => hc k (by omega))
  · rw [h.rest]
    rfl

/-- The rest of the loop. -/
theorem kmemcpyFrom_ok (hdest : dest + n ≤ 2 ^ 32) (hsrc : src + n ≤ 2 ^ 32)
    (hd : Mapped s dest n) (hs : Mapped s src n) (hapart : Apart s dest src n) (m : Nat) :
    ∀ i t, i + m = n → Copied s t dest src i →
      ∃ u, kmemcpyFrom dest src m i t = .ok u ∧ Copied s u dest src n := by
  induction m with
  | zero =>
      rintro i t rfl h
      exact ⟨t, rfl, h⟩
  | succ m ih =>
      intro i t him h
      obtain ⟨a, ha⟩ := physAt_isSome.mp (hd i (by omega))
      obtain ⟨b, hb⟩ := physAt_isSome.mp (hs i (by omega))
      obtain ⟨hload, hstore, hnext⟩ := h.step (by omega) hapart ha hb
      obtain ⟨u, hu, hcopied⟩ := ih (i + 1) _ (by omega) hnext
      refine ⟨u, ?_, hcopied⟩
      have hva : (src + i) % 2 ^ 32 = src + i := Nat.mod_eq_of_lt (by omega)
      have hva' : (dest + i) % 2 ^ 32 = dest + i := Nat.mod_eq_of_lt (by omega)
      rw [kmemcpyFrom, hva, hload, ok_bind, hva', hstore, ok_bind, hu]

end Copied

/-- The loop copies buffers that are mapped and apart. -/
theorem kmemcpy_ok (hdest : dest + n ≤ 2 ^ 32) (hsrc : src + n ≤ 2 ^ 32)
    (hd : Mapped s dest n) (hs : Mapped s src n) (hapart : Apart s dest src n) :
    ∃ t, kmemcpy s dest src n = .ok t ∧ Copied s t dest src n :=
  Copied.kmemcpyFrom_ok hdest hsrc hd hs hapart n 0 s (Nat.zero_add n) (.zero s dest src)

end Copy

/-! ## The results -/

/-- A copy is refused, with nothing written, unless it is allowed; and if it is, the bytes arrive,
provided that the buffer of the kernel is mapped and the destination is apart. -/
structure ChecksAndCopies (s : Paging.State) (r : Except Trap (CopyStatus × Paging.State))
    (write : Bool) (kaddr uaddr dest src n : Nat) : Prop where
  refused : ¬ Allowed s write kaddr uaddr n → r = .ok (.fault, s)
  copied : Allowed s write kaddr uaddr n → Mapped s kaddr n → Apart s dest src n →
    ∃ t, r = .ok (.success, t) ∧ Copied s t dest src n

/-- What an answer of `copyout` from a buffer in the kernel half says of the user buffer. -/
theorem copyout_status {s t : Paging.State} {ksrc udest n : Nat} {status : CopyStatus}
    (hksrc : ksrc ≠ 0) (hrange : rangeCheck ksrc n false = true) (hudest : udest ≠ 0) (hn : n ≠ 0)
    (h : copyout s ksrc udest n = .ok (status, t)) :
    status = .success ↔ rangeCheck udest n true = true ∧ pagesOk s true udest n ≠ .ok false := by
  rw [copyout, if_neg (by simp [hksrc, hudest]), if_neg hn, if_neg (by simp [hrange])] at h
  split at h
  · rename_i hout
    obtain ⟨rfl, -⟩ := Prod.mk.inj (Except.ok.inj h)
    simp [hout]
  · rename_i hin
    obtain ⟨ok, hok, h⟩ := bind_eq_ok.mp h
    rw [Bool.not_eq_false] at hin
    cases ok with
    | false =>
        obtain ⟨rfl, -⟩ := Prod.mk.inj (Except.ok.inj h)
        simp [hok]
    | true =>
        obtain ⟨u, -, h⟩ := bind_eq_ok.mp h
        obtain ⟨rfl, -⟩ := Prod.mk.inj (Except.ok.inj h)
        simp [hin, hok]

section Results

variable {s : Paging.State} (write : Bool) {kaddr uaddr n : Nat}
  (hinit : s.pageDirectoryLocPhys ≠ 0) (hwindow : InWindow s)
  (hk : kaddr < 2 ^ 32) (hu : uaddr < 2 ^ 32) (hpos : 0 < n) (hn : n < 2 ^ 32)

include hinit hwindow hk hu hpos hn

/-- The checks, in whatever order they are made. -/
theorem allowed_iff : Allowed s write kaddr uaddr n ↔ (kaddr ≠ 0 ∧ uaddr ≠ 0) ∧
    rangeCheck kaddr n false = true ∧ rangeCheck uaddr n true = true ∧
      pagesOk s write uaddr n = .ok true := by
  rw [rangeCheck_kernel hk hpos hn, rangeCheck_user hu hpos hn]
  constructor
  · intro h
    have hend : uaddr + n ≤ 2 ^ 32 := h.user.trans (by decide)
    exact ⟨⟨h.kaddr_ne, h.uaddr_ne⟩, h.kernel, h.user,
      by rw [pagesOk_eq hinit hwindow hpos hend, decide_eq_true h.pages]⟩
  · rintro ⟨⟨hkne, hune⟩, hkernel, huser, hpages⟩
    have hend : uaddr + n ≤ 2 ^ 32 := huser.trans (by decide)
    rw [pagesOk_eq hinit hwindow hpos hend] at hpages
    exact ⟨hkne, hune, hkernel, huser, of_decide_eq_true (Except.ok.inj hpages)⟩

omit hk in
/-- The loop over the pages ends for a buffer in range. -/
theorem pagesOk_returns (hrange : rangeCheck uaddr n true = true) :
    ∃ b, pagesOk s write uaddr n = .ok b := by
  rw [rangeCheck_user hu hpos hn] at hrange
  exact ⟨_, pagesOk_eq hinit hwindow hpos (hrange.trans (by decide))⟩

omit hinit hwindow hk hu hpos hn in
/-- Open pages are mapped. -/
theorem Allowed.mapped (h : Allowed s write kaddr uaddr n) : Mapped s uaddr n := by
  intro k hk
  obtain ⟨w, hw, -⟩ := h.pages k hk
  rw [Option.mem_def.mp hw, Option.isSome_some]

/-- `copyout` asks for writable user pages. -/
theorem copyout_checks :
    ChecksAndCopies s (copyout s kaddr uaddr n) true kaddr uaddr uaddr kaddr n := by
  have hiff := allowed_iff true hinit hwindow hk hu hpos hn
  refine ⟨fun hno => ?_, fun hall hmapped hapart => ?_⟩
  · unfold copyout
    split
    · rfl
    · rename_i hnull
      rw [if_neg (Nat.ne_of_gt hpos)]
      split
      · rfl
      · rename_i hkernel
        split
        · rfl
        · rename_i huser
          rw [Bool.not_eq_false] at hkernel huser
          obtain ⟨b, hb⟩ := pagesOk_returns true hinit hwindow hu hpos hn huser
          rw [hb, ok_bind]
          cases b with
          | false => rfl
          | true => exact absurd (hiff.mpr ⟨not_or.mp hnull, hkernel, huser, hb⟩) hno
  · obtain ⟨⟨hkne, hune⟩, hkernel, huser, hpages⟩ := hiff.mp hall
    obtain ⟨t, hret, hcopied⟩ := kmemcpy_ok (hall.user.trans (by decide)) hall.kernel.2
      (hall.mapped true) hmapped hapart
    refine ⟨t, ?_, hcopied⟩
    rw [copyout, if_neg (by simp [hkne, hune]), if_neg (Nat.ne_of_gt hpos),
      if_neg (by simp [hkernel]), if_neg (by simp [huser]), hpages, ok_bind, if_neg (by simp), hret]
    rfl

/-- `copyin` asks for user pages, writable or not. -/
theorem copyin_checks :
    ChecksAndCopies s (copyin s uaddr kaddr n) false kaddr uaddr kaddr uaddr n := by
  have hiff := allowed_iff false hinit hwindow hk hu hpos hn
  refine ⟨fun hno => ?_, fun hall hmapped hapart => ?_⟩
  · unfold copyin
    split
    · rfl
    · rename_i hnull
      rw [if_neg (Nat.ne_of_gt hpos)]
      split
      · rfl
      · rename_i huser
        split
        · rfl
        · rename_i hkernel
          rw [Bool.not_eq_false] at hkernel huser
          obtain ⟨b, hb⟩ := pagesOk_returns false hinit hwindow hu hpos hn huser
          rw [hb, ok_bind]
          cases b with
          | false => rfl
          | true =>
              exact absurd (hiff.mpr ⟨(not_or.mp hnull).symm, hkernel, huser, hb⟩) hno
  · obtain ⟨⟨hkne, hune⟩, hkernel, huser, hpages⟩ := hiff.mp hall
    obtain ⟨t, hret, hcopied⟩ := kmemcpy_ok hall.kernel.2 (hall.user.trans (by decide)) hmapped
      (hall.mapped false) hapart
    refine ⟨t, ?_, hcopied⟩
    rw [copyin, if_neg (by simp [hkne, hune]), if_neg (Nat.ne_of_gt hpos), if_neg (by simp [huser]),
      if_neg (by simp [hkernel]), hpages, ok_bind, if_neg (by simp), hret]
    rfl

end Results

/-- An open page of an address space in use lets user code through, by both of its entries. -/
theorem access_of_open {w : Mm.State} {m va : Nat} {write : Bool} (hopen : w.TablesOpen)
    (hm : w.mmUsed m = true) (hva : va < kernelVirtualBase)
    (hpage : PageOpen (Mm.mmSwitch w (some m)).paging write va) :
    w.UserAccess m va ∧ (write = true → w.Writable m va) := by
  have hpdi : pdiOf va = va / 2 ^ 22 := by
    unfold pdiOf
    unfold kernelVirtualBase at hva
    omega
  have hwalk : walkAt (Mm.mmSwitch w (some m)).paging va =
      translate w.mem (w.dirFrame m) (va / 2 ^ 22) (ptiOf va) := by
    unfold walkAt Mm.mmSwitch
    rw [hpdi]
    dsimp only
    split
    · rename_i hsame
      rw [Mm.State.dirFrame, ← Nat.eq_of_mul_eq_mul_right (by decide) hsame]
      rfl
    · rfl
  obtain ⟨e, he, huser, hwrite⟩ := hpage
  rw [Option.mem_def, hwalk] at he
  by_cases hpde : entryPresent (w.pde m va) = true
  · rw [translate_of_present hpde, Option.guard_eq_some_iff] at he
    obtain ⟨rfl, hpte⟩ := he
    obtain ⟨f, hf⟩ := (Mm.pde_present hm hva).mp hpde
    have htable : Mm.entryOpen (w.pde m va) := hopen m _ f hf
    refine ⟨⟨?_, htable.1, huser⟩, fun h => ⟨htable.2, hwrite h⟩⟩
    rw [Mm.State.translate, if_pos ⟨hva, hpde, hpte⟩, Option.isSome_some]
  · rw [translate_of_absent (Bool.eq_false_iff.mpr hpde)] at he
    cases he

/-- Under paging, with the directory and its tables in the window: `copyout` and `copyin` refuse
what is not allowed, and copy what is; and in every address space built by the kernel the pages that
pass are accessible to user code. -/
theorem copy_checks {s : Paging.State} {kaddr uaddr n : Nat}
    (hinit : s.pageDirectoryLocPhys ≠ 0) (hwindow : InWindow s) (hk : kaddr < 2 ^ 32)
    (hu : uaddr < 2 ^ 32) (hpos : 0 < n) (hn : n < 2 ^ 32) :
    ChecksAndCopies s (copyout s kaddr uaddr n) true kaddr uaddr uaddr kaddr n ∧
    ChecksAndCopies s (copyin s uaddr kaddr n) false kaddr uaddr kaddr uaddr n ∧
    ∀ (s₀ w : Mm.State) (ops : List Mm.Op) (m va : Nat) (write : Bool), Mm.Ready s₀ →
      Run (Guarded Mm.Step fun s op => op.Allowed s) s₀ ops w → w.mmUsed m = true →
      va < kernelVirtualBase → PageOpen (Mm.mmSwitch w (some m)).paging write va →
      w.UserAccess m va ∧ (write = true → w.Writable m va) :=
  ⟨copyout_checks hinit hwindow hk hu hpos hn, copyin_checks hinit hwindow hk hu hpos hn,
    fun _ _ _ _ _ _ hready hrun hm hva hpage =>
      access_of_open (Mm.run_tablesOpen hready hrun).2 hm hva hpage⟩

/-- A directory with a page of the kernel at `0xC0000000`, if `kernel` is set, and a user page at
`0x1000`. -/
def twoPages (kernel : Bool) : Paging.State :=
  let mem : Memory := setEntry (fun a => if a = 0x6000 then 7 else 0) 1 0 (mkEntry 0x2000 7)
  let mem := setEntry mem 2 1 (mkEntry 0x5000 7)
  let mem := setEntry mem 1 768 (mkEntry 0x3000 3)
  { oneTable 0x2000 with
    pmm := { (oneTable 0x2000).pmm with
      mem := if kernel then setEntry mem 3 0 (mkEntry 0x6000 3) else mem } }

/-- The directory of `twoPages` has two entries. -/
theorem twoPages_dirEntry (kernel : Bool) {i : Nat} (hi : i < 1024) :
    tableEntry (twoPages kernel).pmm.mem 1 i =
      if i = 768 then mkEntry 0x3000 3 else if i = 0 then mkEntry 0x2000 7 else 0 := by
  have hempty : tableEntry (fun a => if a = 0x6000 then 7 else 0) 1 i = 0 := by
    unfold tableEntry Memory.readWord
    dsimp only
    rw [if_neg (by omega), if_neg (by omega), if_neg (by omega), if_neg (by omega)]
    rfl
  have hdir : ∀ mem : Memory, tableEntry (setEntry (setEntry (setEntry mem 1 0 (mkEntry 0x2000 7))
      2 1 (mkEntry 0x5000 7)) 1 768 (mkEntry 0x3000 3)) 1 i =
        if i = 768 then mkEntry 0x3000 3 else if i = 0 then mkEntry 0x2000 7
        else tableEntry mem 1 i := by
    intro mem
    by_cases hkernel : i = 768
    · rw [if_pos hkernel, hkernel, tableEntry_setEntry_same]
    · rw [if_neg hkernel, tableEntry_setEntry_ne _ _ hkernel,
        (agreeOn_setEntry _ _ (by decide) (by decide)).tableEntry hi]
      by_cases huser : i = 0
      · rw [if_pos huser, huser, tableEntry_setEntry_same]
      · rw [if_neg huser, tableEntry_setEntry_ne _ _ huser]
  cases kernel with
  | false => exact (hdir _).trans (by rw [hempty])
  | true =>
      refine ((agreeOn_setEntry _ _ (by decide) (by decide)).tableEntry hi).trans ?_
      exact (hdir _).trans (by rw [hempty])

theorem twoPages_window (kernel : Bool) : InWindow (twoPages kernel) := by
  have hcr3 : (twoPages kernel).cr3 / 4096 = 1 := by
    show 0x1000 / 4096 = 1
    decide
  refine ⟨by rw [hcr3]; decide, fun i hi _ => ?_⟩
  rw [hcr3, twoPages_dirEntry kernel hi]
  split
  · decide
  · split
    · decide
    · decide

theorem twoPages_allowed (kernel : Bool) : Allowed (twoPages kernel) true 0xC0000000 0x1000 1 := by
  cases kernel
  · exact ⟨by decide, by decide, by decide, by decide, by decide +kernel⟩
  · exact ⟨by decide, by decide, by decide, by decide, by decide +kernel⟩

/-- The source is not looked at: an allowed copy from a page of the kernel that is not mapped ends
in a page fault. -/
theorem copyout_faults : InWindow (twoPages false) ∧
    Allowed (twoPages false) true 0xC0000000 0x1000 1 ∧
      copyout (twoPages false) 0xC0000000 0x1000 1 = .error .fault := by
  refine ⟨twoPages_window false, twoPages_allowed false, ?_⟩
  have hiff := (allowed_iff true (show (twoPages false).pageDirectoryLocPhys ≠ 0 by decide)
    (twoPages_window false) (show 0xC0000000 < 2 ^ 32 by decide) (show 0x1000 < 2 ^ 32 by decide)
    (by decide) (show 1 < 2 ^ 32 by decide)).mp (twoPages_allowed false)
  rw [copyout, if_neg (by decide), if_neg (by decide), if_neg (by decide), if_neg (by decide),
    hiff.2.2.2, ok_bind, if_neg (by decide)]
  have hwalk : walkAt (twoPages false) ((0xC0000000 + 0) % 2 ^ 32) = none := by decide +kernel
  have hcopy : kmemcpy (twoPages false) 0x1000 0xC0000000 1 = .error .fault := by
    rw [kmemcpy, kmemcpyFrom, loadAt, physAt, hwalk]
    rfl
  rw [hcopy]
  rfl

/-- With the page mapped the byte arrives. -/
theorem copy_checks_one_byte : ∃ t,
    copyout (twoPages true) 0xC0000000 0x1000 1 = .ok (.success, t) ∧
      Copied (twoPages true) t 0x1000 0xC0000000 1 := by
  have hspec := (copy_checks (n := 1) (show (twoPages true).pageDirectoryLocPhys ≠ 0 by decide)
    (twoPages_window true) (show 0xC0000000 < 2 ^ 32 by decide) (show 0x1000 < 2 ^ 32 by decide)
    (by decide) (by decide)).1
  have hmapped : ∀ k, k < 1 → (walkAt (twoPages true) (0xC0000000 + k)).isSome = true := by
    decide +kernel
  have hdest : physAt (twoPages true) 0x1000 = some 0x5000 := by decide +kernel
  have hsrc : physAt (twoPages true) 0xC0000000 = some 0x6000 := by decide +kernel
  have htables : ¬ (0x5000 / 4096 = (twoPages true).cr3 / 4096 ∨ ∃ i < 1024, entryPresent
      (tableEntry (twoPages true).pmm.mem ((twoPages true).cr3 / 4096) i) = true ∧
      0x5000 / 4096 = entryFrame
        (tableEntry (twoPages true).pmm.mem ((twoPages true).cr3 / 4096) i)) := by
    rintro (hdir | ⟨i, hi, -, hframe⟩)
    · exact absurd hdir (by decide)
    · change _ = entryFrame (tableEntry (twoPages true).pmm.mem 1 i) at hframe
      rw [twoPages_dirEntry true hi] at hframe
      split at hframe
      · exact absurd hframe (by decide)
      · split at hframe
        · exact absurd hframe (by decide)
        · exact absurd hframe (by decide)
  refine hspec.copied (twoPages_allowed true) hmapped ⟨fun k hk a ha => ?_,
    fun j k hj hk _ _ _ => by omega, fun j k hj hk a ha hb => ?_⟩
  · obtain rfl : k = 0 := by omega
    obtain rfl := Option.some.inj (hdest.symm.trans ha)
    exact htables
  · obtain ⟨rfl, rfl⟩ : j = 0 ∧ k = 0 := by omega
    exact absurd (Option.some.inj ((hdest.symm.trans ha).trans (hb.symm.trans hsrc))) (by decide)

end Unidos.Uaccess
