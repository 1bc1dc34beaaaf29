import Unidos.Pmm.Seq

/-!
# The first page tables

`paging_init_identity_window` reserves frames for a page directory and its page tables, and fills
them with an identity map, a map of the kernel image in the high half, and the physical-memory
window. It runs before paging is on, so it writes physical memory directly. `KeepsBelow` says that
all its writes land in the frames it reserved, which lie behind the page bitmap.
-/

namespace Unidos.Paging

open Lib

/-- `PT_MAX`: the number of entries of a directory or table. -/
def ptMax : Nat := 1024

/-- `PG_PRESENT`. -/
def pgPresent : BitVec 32 := 1

/-- `PG_RW`. -/
def pgRw : BitVec 32 := 2

/-- `PG_USER`. -/
def pgUser : BitVec 32 := 4

/-- The globals of `kernel/paging.c` over the memory manager, and the loaded directory. -/
structure State where
  pmm : Pmm.State
  pageDirectoryLocPhys : Nat
  pageTablesLocPhys : Nat → Nat
  pageTableCount : Nat
  cr3 : Nat

/-- What the linker and the boot information hand to the paging code. -/
structure Layout extends Pmm.BootParams where
  kernelStart : BitVec 32

/-- A directory or table entry for the frame at `phys`, present and writable. -/
def kernelEntry (phys : Nat) : BitVec 32 := BitVec.ofNat 32 phys ||| pgPresent ||| pgRw

/-- Replace the contents of memory. -/
def State.withMem (s : State) (mem : Memory) : State := { s with pmm := { s.pmm with mem := mem } }

/-- Enter a page table into the directory and into the table of page tables. -/
def State.installTable (s : State) (pdi ptPhys : Nat) : State :=
  { s.withMem (s.pmm.mem.writeWord (s.pageDirectoryLocPhys + 4 * pdi) (kernelEntry ptPhys)) with
    pageTablesLocPhys := Function.update s.pageTablesLocPhys pdi ptPhys }

/-- The reservation loop: ask for the remaining frames until all are there. `none` is a failed
reservation. Every round reserves a frame or ends the loop, so `remaining` rounds are enough. -/
def reserveFrames : Nat → Nat → Pmm.State → Except Trap (Option (List Nat) × Pmm.State)
  | _, 0, pmm => .ok (some [], pmm)
  | 0, _ + 1, _ => .error .diverge
  | fuel + 1, remaining + 1, pmm => do
      let (r, pmm) ← Pmm.pmmReservePageframeSeq pmm (remaining + 1) true true true
      if r.status ≠ .ok ∨ r.outCount.getD 0 = 0 then .ok (none, pmm)
      else
        let (rest, pmm) ← reserveFrames fuel (remaining + 1 - r.outCount.getD 0) pmm
        .ok (rest.map (r.outReserved ++ ·), pmm)

/-- The part of the directory that maps low memory one to one; the tables are filled last. -/
def installIdentity (frames : List Nat) (neededPts : Nat) (s : State) : State :=
  let s := (List.range neededPts).foldl
    (fun s pdi => s.installTable pdi (frames.getD (pdi + 1) 0)) s
  { s with pageTableCount := neededPts }

/-- The page table at `KERNEL_VIRTUAL_BASE`, which maps the kernel image. -/
def installHigh (boot : Layout) (hiPtPhys : Nat) (s : State) :
    Except (PagingStatus × State) State :=
  let s := s.installTable (kernelVirtualBase / 2 ^ 22) hiPtPhys
  let s := { s with pageTableCount := s.pageTableCount + 1 }
  let s := s.withMem (s.pmm.mem.fillBytes hiPtPhys 4096 0)
  let kernelPhysStart := boot.kernelStart.toNat / 4096 * 4096
  let kernelPhysEnd := (boot.kernelEnd.toNat + 0xFFF) % 2 ^ 32 / 4096 * 4096
  let kernelBytes := (kernelPhysEnd + (2 ^ 32 - kernelPhysStart)) % 2 ^ 32
  let kernelPages := kernelBytes / 4096
  if kernelPages > 1024 then .error (.errExcessPagesRequested, s)
  else .ok (s.withMem (s.pmm.mem.fillWords hiPtPhys
    (fun i => kernelEntry (kernelPhysStart + 4096 * i)) kernelPages))

/-- One page table of the window at `PHYS_WINDOW_BASE`. -/
def installWindowTable (frames : List Nat) (neededPts : Nat) (s : State) (p : Nat) :
    Except (PagingStatus × State) State :=
  let ptPhys := frames.getD (neededPts + 2 + p) 0
  let pdi := physWindowBase / 2 ^ 22 + p
  if pdi ≥ ptMax then .error (.errExcessPagesRequested, s)
  else
    let s := s.installTable pdi ptPhys
    let s := { s with pageTableCount := s.pageTableCount + 1 }
    .ok (s.withMem (s.pmm.mem.fillWords ptPhys
      (fun i => kernelEntry (p * 2 ^ 22 % 2 ^ 32 + 4096 * i)) 1024))

/-- One page of the identity map. -/
def mapIdentityPage (s : State) (i : Nat) : Except (PagingStatus × State) State :=
  let virt := i * 4096 % 2 ^ 32
  let dirIndex := virt / 2 ^ 22 % 1024
  if dirIndex ≥ ptMax ∨ s.pageTablesLocPhys dirIndex = 0 then
    .error (.errNotMappedOrAlreadyMapped, s)
  else
    let tableIndex := virt / 4096 % 1024
    .ok (s.withMem (s.pmm.mem.writeWord (s.pageTablesLocPhys dirIndex + 4 * tableIndex)
      (kernelEntry virt)))

/-- Everything after the reservation: fill the directory and the tables, and load the directory. -/
def buildTables (boot : Layout) (frames : List Nat) (neededPts identityBytes : Nat)
    (s : State) : Except (PagingStatus × State) State := do
  let s := { s with
    pageDirectoryLocPhys := frames.getD 0 0
    pageTablesLocPhys := fun _ => 0
    pageTableCount := 0 }
  let s := s.withMem (s.pmm.mem.fillBytes s.pageDirectoryLocPhys 4096 0)
  let s := installIdentity frames neededPts s
  let s ← installHigh boot (frames.getD (neededPts + 1) 0) s
  let s ← (List.range neededPts).foldlM (installWindowTable frames neededPts) s
  let s ← (List.range ((identityBytes + 0xFFF) / 4096 % 2 ^ 32)).foldlM mapIdentityPage s
  .ok { s with cr3 := s.pageDirectoryLocPhys }

/-- The number of bytes to map: the argument, or all memory rounded up to 4 MiB. The shift of the
32-bit size drops the bits above 4 GiB. -/
def identityBytesOf (boot : Layout) (identityBytes : Nat) : Nat :=
  if identityBytes = 0 then
    (boot.availMemoryKib.toNat * 1024 % 2 ^ 32 + 0x3FFFFF) / 0x400000 * 0x400000
  else identityBytes

/-- `needed_pts`: the page tables of the identity map. -/
def neededPtsOf (identityBytes : Nat) : Nat :=
  (identityBytes / 0x400000 + if identityBytes % 0x400000 ≠ 0 then 1 else 0) % 2 ^ 32

/-- `needed_frames_total`: the directory, both sets of tables, and the table of the kernel. -/
def neededFramesOf (identityBytes : Nat) : Nat := (2 * neededPtsOf identityBytes + 2) % 2 ^ 32

/-- `paging_init_identity_window`, with the status it stores and the address it returns. -/
def pagingInitIdentityWindow (boot : Layout) (s : State) (identityBytes : Nat) :
    Except Trap (PagingStatus × Nat × State) :=
  if identityBytes % 4096 ≠ 0 then .ok (.errAlign, 0, s)
  else
    let identityBytes := identityBytesOf boot identityBytes
    let neededFramesTotal := neededFramesOf identityBytes
    if neededFramesTotal > ptMax + 1 then .ok (.errExcessPagesRequested, 0, s)
    else do
      let (frames, pmm) ← reserveFrames neededFramesTotal neededFramesTotal s.pmm
      match frames with
      | none => .ok (.errInitReserveFailed, 0, { s with pmm := pmm })
      | some frames =>
          match buildTables boot frames (neededPtsOf identityBytes) identityBytes
              { s with pmm := pmm } with
          | .error (status, s) => .ok (status, 0, s)
          | .ok s => .ok (.ok, s.pageDirectoryLocPhys, s)

/-! ## Where it writes -/

/-- What the reservation loop gives: `n` frames behind the bitmap, one above the other, which are
then taken. -/
structure FramesReserved (pmm pmm' : Pmm.State) (frames : List Nat) (n : Nat) : Prop where
  inv : Pmm.BootInv pmm'
  phys : pmm'.pagebitmapPhys = pmm.pagebitmapPhys
  size : pmm'.pagebitmapSizeBytes = pmm.pagebitmapSizeBytes
  count : pmm'.frameCount = pmm.frameCount
  length : frames.length = n
  behind : ∀ addr ∈ frames, pmm.pagebitmapPhys + pmm.pagebitmapSizeBytes ≤ addr
  covered : ∀ a, Pmm.Covered pmm.memRegions a → Pmm.Covered pmm'.memRegions a
  grows : ∀ f, f < pmm.frameCount → pmm.bit f = true → pmm'.bit f = true
  taken : ∀ addr ∈ frames, 4096 * pmm.frameHint ≤ addr ∧ addr / 4096 < pmm.frameCount ∧
    pmm'.bit (addr / 4096) = true
  increasing : frames.Pairwise (· < ·)
  bits : ∀ f, f < pmm.frameCount → pmm'.bit f = true → pmm.bit f = true ∨ 4096 * f ∈ frames
  reserved : ∀ addr ∈ frames, Pmm.Covered pmm'.memRegions addr
  mem : ∀ a, a < pmm.pagebitmapPhys ∨ pmm.pagebitmapPhys + pmm.pagebitmapSizeBytes ≤ a →
    (∀ addr ∈ frames, a < addr ∨ addr + 4096 ≤ a) → pmm'.mem a = pmm.mem a

/-- Nothing was asked for. -/
theorem FramesReserved.refl {pmm : Pmm.State} (h : Pmm.BootInv pmm) :
    FramesReserved pmm pmm [] 0 where
  inv := h
  phys := rfl
  size := rfl
  count := rfl
  length := rfl
  behind := by simp
  covered _ ha := ha
  grows _ _ hf := hf
  taken := by simp
  increasing := .nil
  bits _ _ hf := .inl hf
  reserved := by simp
  mem _ _ _ := rfl

theorem map_frameAddr_pairwise {cur n : Nat} (h : cur + n ≤ 2 ^ 20) :
    ((Pmm.windowFrames cur n).map Pmm.frameAddr).Pairwise (· < ·) := by
  unfold Pmm.windowFrames
  rw [List.map_map, List.pairwise_map]
  refine List.pairwise_lt_range.imp_of_mem fun {i j} hi hj hlt => ?_
  have hj := List.mem_range.mp hj
  simp only [Function.comp_apply, Pmm.frameAddr]
  omega

/-- One round, and then the rest of the frames. -/
theorem FramesReserved.cons {pmm next pmm' : Pmm.State} {r : Pmm.SeqResult} {rest : List Nat}
    {n k : Nat} (hs : Pmm.BootInv pmm) (h : Pmm.Reserved pmm next r n)
    (hrest : FramesReserved next pmm' rest k) :
    FramesReserved pmm pmm' (r.outReserved ++ rest) (n + k) := by
  obtain ⟨cur, hwin, hhint, hnext, haddrs, hbit⟩ := h.window
  have hcount := hs.count_le
  have hmem : ∀ addr ∈ r.outReserved, ∃ f, addr = 4096 * f ∧ cur ≤ f ∧ f < cur + n := by
    intro addr haddr
    rw [haddrs] at haddr
    obtain ⟨f, hf, rfl⟩ := List.mem_map.mp haddr
    have hf' := (Pmm.mem_windowFrames (by omega)).mp hf
    exact ⟨f, Pmm.frameAddr_of_lt (by omega), hf'⟩
  refine ⟨hrest.inv, hrest.phys.trans h.phys, hrest.size.trans h.size, hrest.count.trans h.count,
    ?_, fun addr haddr => ?_, fun a ha => hrest.covered a (h.covered a ha), fun f hf hset => ?_,
    fun addr haddr => ?_, List.pairwise_append.mpr ⟨?_, hrest.increasing, ?_⟩,
    fun f hf hset => ?_, fun addr haddr => ?_, fun a ha hout => ?_⟩
  · rw [List.length_append, h.length, hrest.length]
  · rcases List.mem_append.mp haddr with hin | hin
    · exact h.behind addr hin
    · rw [← h.phys, ← h.size]
      exact hrest.behind addr hin
  · refine hrest.grows f (h.count ▸ hf) ?_
    rw [hbit f hf, hset, Bool.or_true]
  · rcases List.mem_append.mp haddr with hin | hin
    · obtain ⟨f, rfl, hge, hlt⟩ := hmem addr hin
      have hdiv : 4096 * f / 4096 = f := by omega
      have hset : next.bit f = true := by
        rw [hbit f (by omega), decide_eq_true ((Pmm.mem_windowFrames (by omega)).mpr ⟨hge, hlt⟩),
          Bool.true_or]
      rw [hdiv]
      have hcnt := h.count
      exact ⟨by omega, by omega, hrest.grows f (by omega) hset⟩
    · have hge := hrest.taken addr hin
      rw [h.count] at hge
      exact ⟨by omega, hge.2⟩
  · rw [haddrs]
    exact map_frameAddr_pairwise (by omega)
  · intro addr haddr addr' haddr'
    obtain ⟨f, rfl, -, hlt⟩ := hmem addr haddr
    have hge := (hrest.taken addr' haddr').1
    omega
  · rcases hrest.bits f (h.count ▸ hf) hset with hold | hin
    · rw [hbit f hf, Bool.or_eq_true, decide_eq_true_eq] at hold
      rcases hold with hin | hold
      · refine .inr (List.mem_append_left _ ?_)
        rw [haddrs, ← Pmm.frameAddr_of_lt (show f < 2 ^ 20 by omega)]
        exact List.mem_map_of_mem hin
      · exact .inl hold
    · exact .inr (List.mem_append_right _ hin)
  · rcases List.mem_append.mp haddr with hin | hin
    · exact hrest.covered addr (h.reserved addr hin)
    · exact hrest.reserved addr hin
  · rw [hrest.mem a (by rw [h.phys, h.size]; exact ha) fun addr haddr =>
        hout addr (List.mem_append_right _ haddr),
      h.mem a ha fun addr haddr => hout addr (List.mem_append_left _ haddr)]

theorem reserveFrames_spec {fuel remaining : Nat} {pmm pmm' : Pmm.State} {frames : List Nat}
    (h : Pmm.BootInv pmm) (hroom : remaining < clearCount pmm.bit pmm.frameCount)
    (hret : reserveFrames fuel remaining pmm = .ok (some frames, pmm')) :
    FramesReserved pmm pmm' frames remaining := by
  induction fuel generalizing remaining pmm frames with
  | zero =>
      cases remaining with
      | zero =>
          simp only [reserveFrames, Except.ok.injEq, Prod.mk.injEq, Option.some.injEq] at hret
          obtain ⟨rfl, rfl⟩ := hret
          exact .refl h
      | succ remaining => simp [reserveFrames] at hret
  | succ fuel ih =>
      cases remaining with
      | zero =>
          simp only [reserveFrames, Except.ok.injEq, Prod.mk.injEq, Option.some.injEq] at hret
          obtain ⟨rfl, rfl⟩ := hret
          exact .refl h
      | succ remaining =>
          obtain ⟨⟨r, next⟩, hseq, hret⟩ := bind_eq_ok.mp hret
          dsimp only at hret
          split at hret
          · simp at hret
          · rename_i hgood
            obtain ⟨⟨rest, last⟩, hrest, hret⟩ := bind_eq_ok.mp hret
            simp only [Except.ok.injEq, Prod.mk.injEq, Option.map_eq_some_iff] at hret
            obtain ⟨⟨rest, rfl, rfl⟩, rfl⟩ := hret
            have hok : r.status = .ok := by
              by_contra hbad
              exact hgood (.inl hbad)
            obtain ⟨hinv, n, hpos, hle, hres⟩ := h.seq hroom hseq hok
            rw [hres.outCount, Option.getD_some] at hrest
            have hclear := hres.clear
            have hih := FramesReserved.cons h hres (ih hinv (by omega) hrest)
            rwa [Nat.add_sub_cancel' hle] at hih

/-- The state `t` differs from `s` only in memory inside the given frames and in the paging
globals, and all tables of `t` are among the frames. -/
structure FillsOnly (frames : List Nat) (s t : State) : Prop where
  pmm : ∃ mem, t.pmm = { s.pmm with mem := mem } ∧
    ∀ a, (∀ addr ∈ frames, a < addr ∨ addr + 4096 ≤ a) → mem a = s.pmm.mem a
  directory : t.pageDirectoryLocPhys ∈ frames
  tables : ∀ i, t.pageTablesLocPhys i = 0 ∨ t.pageTablesLocPhys i ∈ frames

variable {frames : List Nat} {s t : State}

theorem getD_mem_of_lt {i : Nat} (hi : i < frames.length) : frames.getD i 0 ∈ frames := by
  rw [List.getD_eq_getElem?_getD, List.getElem?_eq_getElem hi, Option.getD_some]
  exact List.getElem_mem hi

/-- A write into one of the frames. -/
theorem FillsOnly.withMem (h : FillsOnly frames s t) {addr : Nat} (haddr : addr ∈ frames)
    (mem : Memory) (hmem : ∀ a, a < addr ∨ addr + 4096 ≤ a → mem a = t.pmm.mem a) :
    FillsOnly frames s (t.withMem mem) := by
  obtain ⟨mem', heq, hkeep⟩ := h.pmm
  refine ⟨⟨mem, by rw [State.withMem, heq], fun a ha => ?_⟩, h.directory, h.tables⟩
  rw [hmem a (ha addr haddr), heq]
  exact hkeep a ha

theorem FillsOnly.withCount (h : FillsOnly frames s t) (n : Nat) :
    FillsOnly frames s { t with pageTableCount := n } :=
  ⟨h.pmm, h.directory, h.tables⟩

theorem FillsOnly.installTable (h : FillsOnly frames s t) {pdi ptPhys : Nat} (hpdi : pdi < 1024)
    (hpt : ptPhys ∈ frames) : FillsOnly frames s (t.installTable pdi ptPhys) := by
  have hwrite := h.withMem h.directory (t.pmm.mem.writeWord (t.pageDirectoryLocPhys + 4 * pdi)
    (kernelEntry ptPhys)) fun a ha => Memory.writeWord_apply_ne _ _ _ _ (by omega)
  refine ⟨hwrite.pmm, hwrite.directory, fun i => ?_⟩
  change Function.update t.pageTablesLocPhys pdi ptPhys i = 0 ∨
    Function.update t.pageTablesLocPhys pdi ptPhys i ∈ frames
  by_cases hi : i = pdi
  · subst hi
    simp [hpt]
  · rw [Function.update_of_ne hi]
    exact h.tables i

theorem FillsOnly.installIdentity {neededPts : Nat} (h : FillsOnly frames s t)
    (hpts : neededPts ≤ 1024) (hlen : 2 * neededPts + 2 ≤ frames.length) :
    FillsOnly frames s (installIdentity frames neededPts t) := by
  unfold Paging.installIdentity
  refine FillsOnly.withCount ?_ neededPts
  have hlt : ∀ pdi ∈ List.range neededPts, pdi < neededPts := fun _ => List.mem_range.mp
  generalize List.range neededPts = pdis at hlt
  induction pdis generalizing t with
  | nil => exact h
  | cons pdi pdis ih =>
      have hpdi := hlt pdi (by simp)
      exact ih (h.installTable (by omega) (getD_mem_of_lt (by omega))) fun p hp =>
        hlt p (by simp [hp])

theorem FillsOnly.installHigh {boot : Layout} {hiPtPhys : Nat} {u : State}
    (h : FillsOnly frames s t) (hpt : hiPtPhys ∈ frames)
    (hret : installHigh boot hiPtPhys t = .ok u) : FillsOnly frames s u := by
  unfold Paging.installHigh at hret
  dsimp only at hret
  split at hret
  · simp at hret
  · rw [Except.ok.injEq] at hret
    subst hret
    refine ((h.installTable (by decide) hpt).withCount _ |>.withMem hpt _ fun a ha => ?_).withMem
      hpt _ fun a ha => ?_
    · exact Memory.fillBytes_apply_ne _ _ ha
    · exact Memory.fillWords_apply_ne _ _ (by omega)

theorem FillsOnly.installWindowTable {neededPts p : Nat} {u : State}
    (h : FillsOnly frames s t) (hlen : 2 * neededPts + 2 ≤ frames.length)
    (hp : p < neededPts) (hret : installWindowTable frames neededPts t p = .ok u) :
    FillsOnly frames s u := by
  have hpt : frames.getD (neededPts + 2 + p) 0 ∈ frames := getD_mem_of_lt (by omega)
  unfold Paging.installWindowTable at hret
  dsimp only at hret
  split at hret
  · simp at hret
  · rename_i hpdi
    rw [Except.ok.injEq] at hret
    subst hret
    have hmax : ptMax = 1024 := rfl
    exact ((h.installTable (by omega) hpt).withCount _).withMem hpt _ fun a ha =>
      Memory.fillWords_apply_ne _ _ (by omega)

theorem FillsOnly.mapIdentityPage {i : Nat} {u : State} (h : FillsOnly frames s t)
    (hret : mapIdentityPage t i = .ok u) : FillsOnly frames s u := by
  unfold Paging.mapIdentityPage at hret
  dsimp only at hret
  split at hret
  · simp at hret
  · rename_i hpresent
    rw [Except.ok.injEq] at hret
    subst hret
    rcases h.tables (i * 4096 % 2 ^ 32 / 2 ^ 22 % 1024) with hzero | hin
    · exact absurd (.inr hzero) hpresent
    · exact h.withMem hin _ fun a ha => Memory.writeWord_apply_ne _ _ _ _ (by omega)

/-- Building the tables writes only into the reserved frames. -/
theorem buildTables_fillsOnly {boot : Layout} {neededPts identityBytes : Nat}
    (hpts : neededPts ≤ 1024) (hlen : 2 * neededPts + 2 ≤ frames.length)
    (hret : buildTables boot frames neededPts identityBytes s = .ok t) :
    FillsOnly frames s t := by
  unfold buildTables at hret
  obtain ⟨s1, hhigh, hret⟩ := bind_eq_ok.mp hret
  obtain ⟨s2, hwindow, hret⟩ := bind_eq_ok.mp hret
  obtain ⟨s3, hidentity, hret⟩ := bind_eq_ok.mp hret
  have hpd : frames.getD 0 0 ∈ frames := getD_mem_of_lt (by omega)
  have hstart : FillsOnly frames s { s with
      pageDirectoryLocPhys := frames.getD 0 0
      pageTablesLocPhys := fun _ => 0
      pageTableCount := 0 } :=
    ⟨⟨s.pmm.mem, rfl, fun _ _ => rfl⟩, hpd, fun _ => .inl rfl⟩
  have hcleared := hstart.withMem hpd (s.pmm.mem.fillBytes (frames.getD 0 0) 4096 0)
    fun a ha => Memory.fillBytes_apply_ne _ _ ha
  have h1 := (hcleared.installIdentity hpts hlen).installHigh (getD_mem_of_lt (by omega)) hhigh
  have h2 : FillsOnly frames s s2 := foldlM_invariant (I := FillsOnly frames s)
    (fun _ _ p hp hu hstep => hu.installWindowTable hlen (List.mem_range.mp hp) hstep) h1 hwindow
  have h3 : FillsOnly frames s s3 := foldlM_invariant (I := FillsOnly frames s)
    (fun _ _ _ _ hu hstep => hu.mapIdentityPage hstep) h2 hidentity
  rw [Except.ok.injEq] at hret
  subst hret
  exact ⟨h3.pmm, h3.directory, h3.tables⟩

/-- Frames behind the bitmap are filled without a change below. -/
theorem FillsOnly.below {x : Nat} (h : FillsOnly frames s t) (hx : ∀ addr ∈ frames, x ≤ addr) :
    ∃ mem, t.pmm = { s.pmm with mem := mem } ∧ ∀ a, a < x → mem a = s.pmm.mem a := by
  obtain ⟨mem, heq, hkeep⟩ := h.pmm
  refine ⟨mem, heq, fun a ha => hkeep a fun addr haddr => .inl ?_⟩
  exact Nat.lt_of_lt_of_le ha (hx addr haddr)

/-- Where the tables cannot be built, the status says so. -/
theorem buildTables_error {boot : Layout} {neededPts identityBytes : Nat}
    {e : PagingStatus × State}
    (hret : buildTables boot frames neededPts identityBytes s = .error e) : e.1 ≠ .ok := by
  unfold buildTables at hret
  rcases bind_eq_error.mp hret with hhigh | ⟨s1, -, hret⟩
  · unfold installHigh at hhigh
    dsimp only at hhigh
    split at hhigh
    · simp [← Except.error.inj hhigh]
    · simp at hhigh
  · rcases bind_eq_error.mp hret with hwindow | ⟨s2, -, hret⟩
    · refine foldlM_error (P := fun e => e.1 ≠ .ok) (fun s p e hstep => ?_) hwindow
      unfold installWindowTable at hstep
      dsimp only at hstep
      split at hstep
      · simp [← Except.error.inj hstep]
      · simp at hstep
    · rcases bind_eq_error.mp hret with hidentity | ⟨s3, -, hret⟩
      · refine foldlM_error (P := fun e => e.1 ≠ .ok) (fun s i e hstep => ?_) hidentity
        unfold mapIdentityPage at hstep
        dsimp only at hstep
        split at hstep
        · simp [← Except.error.inj hstep]
        · simp at hstep
      · simp at hret

/-- With more frames free than the page tables need, `paging_init_identity_window` keeps the
invariant of the memory manager and everything that its region table covers. -/
theorem pagingInitIdentityWindow_spec {boot : Layout} {identityBytes pd : Nat}
    (hret : pagingInitIdentityWindow boot s identityBytes = .ok (.ok, pd, t))
    (h : Pmm.BootInv s.pmm)
    (hroom : neededFramesOf (identityBytesOf boot identityBytes) <
      clearCount s.pmm.bit s.pmm.frameCount)
    (hpts : neededFramesOf (identityBytesOf boot identityBytes) =
      2 * neededPtsOf (identityBytesOf boot identityBytes) + 2) :
    Pmm.BootInv t.pmm ∧ t.pmm.pagebitmapPhys = s.pmm.pagebitmapPhys ∧
      t.pmm.pagebitmapSizeBytes = s.pmm.pagebitmapSizeBytes ∧
      t.pmm.frameCount = s.pmm.frameCount ∧
      ∀ a, Pmm.Covered s.pmm.memRegions a → Pmm.Covered t.pmm.memRegions a := by
  unfold pagingInitIdentityWindow at hret
  dsimp only at hret
  split at hret
  · simp at hret
  · split at hret
    · simp at hret
    · obtain ⟨⟨frames, pmm⟩, hres, hret⟩ := bind_eq_ok.mp hret
      cases frames with
      | none => simp at hret
      | some frames =>
          have hspec := reserveFrames_spec h hroom hres
          have hlen := hspec.length
          dsimp only at hret
          split at hret
          · rename_i status u hbuild
            simp only [Except.ok.injEq, Prod.mk.injEq] at hret
            exact absurd hret.1 (buildTables_error hbuild)
          · rename_i u hbuild
            simp only [Except.ok.injEq, Prod.mk.injEq, true_and] at hret
            obtain ⟨rfl, rfl⟩ := hret
            have hmax : ptMax = 1024 := rfl
            obtain ⟨mem, heq, hmem⟩ :=
              (buildTables_fillsOnly (by omega) (by omega) hbuild).below hspec.behind
            have hsize := hspec.inv.size_eq
            have hphys := hspec.phys
            have hcount := hspec.size
            rw [heq]
            refine ⟨hspec.inv.withMem fun a _ ha => hmem a ?_, hspec.phys, hspec.size, hspec.count,
              hspec.covered⟩
            change a < pmm.pagebitmapPhys + (pmm.frameCount + 7) / 8 at ha
            omega

end Unidos.Paging
