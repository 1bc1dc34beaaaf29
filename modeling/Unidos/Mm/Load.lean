import Unidos.Mm.Isolation

/-!
# Loading an image

A successful `mm_map_region` gives every page of the range a frame of its own and fills it from
the initial data. `Kept` is what each step leaves alone: whatever was owned before, the entries it
is reached through, and the bytes of pages. `PageLoaded` is one round of the loop and `Loaded` the
loop after some rounds; `mmMapRegion_loads` is the whole call.
-/

namespace Unidos.Mm

open Lib

/-- Byte `k` of the image: the initial data, and zeros behind it. -/
def InitialData.byteAt (data : Option InitialData) (k : Nat) : Byte :=
  match data with
  | none => 0
  | some d => if k < d.size then d.bytes k else 0

/-- How much of the initial data has been copied after `p` pages. -/
def InitialData.copiedAfter (data : Option InitialData) (p : Nat) : Nat :=
  match data with
  | none => 0
  | some d => min d.size (4096 * p)

theorem copiedAfter_succ (data : Option InitialData) (p : Nat) :
    InitialData.copiedAfter data p + InitialData.toCopy data (InitialData.copiedAfter data p) =
      InitialData.copiedAfter data (p + 1) := by
  cases data with
  | none => rfl
  | some d =>
      simp only [InitialData.copiedAfter, InitialData.toCopy]
      omega

/-- A page that was initialised in round `p` holds its part of the image. -/
theorem initPage_apply (mem : Memory) (page : Nat) (data : Option InitialData) (p : Nat) {k : Nat}
    (hk : k < 4096) :
    initPage mem page data (InitialData.copiedAfter data p) (page + k) =
      InitialData.byteAt data (4096 * p + k) := by
  have hzero : (mem.fillBytes page 4096 0) (page + k) = 0 :=
    Memory.fillBytes_apply_of_mem _ _ (by omega) (by omega)
  cases data with
  | none => exact hzero
  | some d =>
      simp only [initPage, InitialData.copiedAfter, InitialData.toCopy, InitialData.byteAt]
      by_cases hin : 4096 * p + k < d.size
      · have hmin : min d.size (4096 * p) = 4096 * p := by omega
        rw [hmin, if_pos hin, Memory.copyBytes_apply_of_mem _ _ (by omega) (by omega)]
        congr 1
        omega
      · rw [if_neg hin, Memory.copyBytes_apply_ne _ _ (.inr (by omega)), hzero]

variable {B : Nat → Prop} {l : List Nat} {s t u : State} {m : Nat} {lists : Nat → List Nat}

/-! ## What stays -/

/-- Whatever was owned still is, through the same entry, and pages hold the same bytes. -/
structure Kept (s t : State) : Prop where
  mmUsed : t.mmUsed = s.mmUsed
  dirFrame : ∀ m, t.dirFrame m = s.dirFrame m
  taken : ∀ f, s.Taken f → t.Taken f
  own : ∀ k g, s.Own k g → t.Own k g
  entry : ∀ m r g, s.Own (m, r) g →
    roleEntry t.mem (s.dirFrame m) r = roleEntry s.mem (s.dirFrame m) r
  page : ∀ m i j g, s.Own (m, .page i j) g → AgreeOn s.mem t.mem g

/-- A write into a page leaves the entries of what is owned alone. -/
theorem roleEntry_writePage {m' i j f g : Nat} {r : Role} {mem : Memory} (h : FrameInv B l s)
    (hf : s.Own (m, .page i j) f) (hmem : ChangesOnly s.mem mem f) (hk : s.Own (m', r) g) :
    roleEntry mem (s.dirFrame m') r = roleEntry s.mem (s.dirFrame m') r := by
  refine roleEntry_congr maxPde_le (fun d hd => hmem d ?_) hk.2
  rintro rfl
  exact h.page_not_fixed hf (FrameInv.isTable_fixed hk.1 hd)

namespace Kept

theorem refl (s : State) : Kept s s :=
  ⟨rfl, fun _ => rfl, fun _ h => h, fun _ _ h => h, fun _ _ _ _ => rfl,
    fun _ _ _ _ _ => .refl _ _⟩

theorem trans (h : Kept s t) (h' : Kept t u) : Kept s u where
  mmUsed := h'.mmUsed.trans h.mmUsed
  dirFrame m := (h'.dirFrame m).trans (h.dirFrame m)
  taken f hf := h'.taken f (h.taken f hf)
  own k g hown := h'.own k g (h.own k g hown)
  entry m r g hown := by
    have hentry := h'.entry m r g (h.own _ g hown)
    rw [h.dirFrame] at hentry
    exact hentry.trans (h.entry m r g hown)
  page m i j g hown := (h.page m i j g hown).trans (h'.page m i j g (h.own _ g hown))

/-- Moves that agree on everything that is owned. -/
theorem of_agree (hmmUsed : t.mmUsed = s.mmUsed) (hdir : ∀ m, t.dirFrame m = s.dirFrame m)
    (htaken : ∀ f, s.Taken f → t.Taken f) (hown : ∀ k g, s.Own k g → t.Own k g)
    (hmem : ∀ k g, s.Own k g → AgreeOn s.mem t.mem g) : Kept s t where
  mmUsed := hmmUsed
  dirFrame := hdir
  taken := htaken
  own := hown
  entry m r g hk := by
    refine roleEntry_congr maxPde_le (fun f hf => ?_) hk.2
    rcases hf with rfl | ⟨i, hf⟩
    · exact hmem (m, .dir) _ ⟨hk.1, rfl⟩
    · exact hmem (m, .table i) f ⟨hk.1, hf⟩
  page m i j g hk := hmem _ g hk

theorem ofCalm (h : Calm l s t) : Kept s t :=
  of_agree h.mmUsed (Steady.ofCalm h).dirFrame h.taken (fun k g => (h.own k g).mpr) h.own_mem

theorem ofNewTable {i f : Nat} {entry : BitVec 32} (h : NewTable s t m i f entry)
    (hs : FrameInv B l s) (hm : s.mmUsed m = true) : Kept s t where
  mmUsed := h.steady.mmUsed
  dirFrame := h.steady.dirFrame
  taken := h.steady.taken
  own k g hk := (h.own k g).mpr (.inl hk)
  entry m' r g hk := h.roleEntry_eq hs hk
  page m' a b g hk := by
    refine h.mem _ g hk ?_
    rintro rfl
    have hkey := hs.ledger.unique (m', .page a b) (m, .dir) _ hk ⟨hm, rfl⟩
    simp at hkey

theorem ofTableMade {i d : Nat} (h : TableMade s m i d t) (hs : FrameInv B l s)
    (hm : s.mmUsed m = true) : Kept s t := by
  cases h with
  | there => exact refl s
  | made hnew => exact ofNewTable hnew hs hm

theorem ofNewPage {i j d f : Nat} {entry : BitVec 32} (h : NewPage s t m i j d f entry)
    (hs : FrameInv B (f :: l) s) (hd : s.Own (m, .table i) d) : Kept s t where
  mmUsed := h.steady.mmUsed
  dirFrame := h.steady.dirFrame
  taken := h.steady.taken
  own k g hk := (h.own k g).mpr (.inl hk)
  entry m' r g hk := h.roleEntry_eq hs hd hk
  page m' a b g hk := by
    refine h.mem g ?_
    rintro rfl
    have hkey := hs.ledger.unique (m', .page a b) (m, .table i) _ hk hd
    simp at hkey

/-- Then write into a page that was not owned at first. -/
theorem writePage {i j f : Nat} {mem : Memory} (h : Kept s t) (ht : FrameInv B l t)
    (hf : t.Own (m, .page i j) f) (hmem : ChangesOnly t.mem mem f) (hnew : ∀ k, ¬ s.Own k f) :
    Kept s (t.withMem mem) where
  mmUsed := h.mmUsed
  dirFrame := h.dirFrame
  taken g hg := (Mm.writePage ht hf hmem).2.1.taken g (h.taken g hg)
  own k g hk := ((Mm.writePage ht hf hmem).2.2 k g).mpr (h.own k g hk)
  entry m' r g hk := by
    rw [← h.entry m' r g hk, ← h.dirFrame]
    exact roleEntry_writePage ht hf hmem (h.own _ g hk)
  page m' a b g hk := by
    refine (h.page m' a b g hk).trans (hmem g ?_)
    rintro rfl
    exact hnew _ hk

end Kept

/-! ## One page -/

/-- Writes and user accesses go through an entry. -/
def entryOpen (w : BitVec 32) : Prop := w &&& Paging.pgUser ≠ 0 ∧ w &&& Paging.pgRw ≠ 0

/-- The page at `va` has the new frame `f` with its part of the image, and the rest is as
before. -/
structure PageLoaded (B : Nat → Prop) (s t : State) (m va : Nat) (flags : BitVec 32)
    (data : Option InitialData) (copied f : Nat) : Prop where
  inv : FrameInv B [] t
  steady : Steady s t
  kept : Kept s t
  free : ¬ s.Taken f
  own : t.Own (m, pageRole va) f
  entry : roleEntry t.mem (s.dirFrame m) (pageRole va) = mkEntry (4096 * f) flags
  bytes : ∃ mem, ∀ k, t.mem (4096 * f + k) = initPage mem (4096 * f) data copied (4096 * f + k)
  only : ∀ k g, t.Own k g → s.Own k g ∨ k = (m, pageRole va) ∨
    ∃ i, k = (m, .table i) ∧ roleEntry t.mem (s.dirFrame m) (.table i) =
      mkEntry (4096 * g) userTableFlags
  count : (t.mms m).pageCount = ((s.mms m).pageCount + 1) % 2 ^ 32

theorem PageMade.loaded {va copied f d : Nat} {flags : BitVec 32} {data : Option InitialData}
    {s₁ s₂ s₃ : State} (hs : FrameInv B [] s) (hm : s.mmUsed m = true)
    (h : PageMade B s t m va flags data copied f d s₁ s₂ s₃) :
    PageLoaded B s t m va flags data copied f := by
  obtain ⟨hinv₃, hnew⟩ := h.page
  have hm₁ : s₁.mmUsed m = true := by rw [h.take.2.mmUsed, hm]
  have hens := h.table.2.ensured
  have hkept₂ := (Kept.ofCalm h.take.2).trans (.ofTableMade h.table.2 h.take.1 hm₁)
  have hkept₂₃ := Kept.ofNewPage hnew h.table.1 hens.table
  have hkept₃ := hkept₂.trans hkept₂₃
  have hpage : s₃.Own (m, pageRole va) f := (hnew.own _ _).mpr (.inr ⟨rfl, rfl⟩)
  have hmem := changesOnly_initPage s₃.mem f data copied
  obtain ⟨hinv, -, hown⟩ := writePage hinv₃ hpage hmem
  have hkept := hkept₃.writePage hinv₃ hpage hmem fun k hk => h.free (hs.ledger.owned k f hk).1
  -- what the entries were before the contents of the page were set
  have hentry : ∀ r g, s₃.Own (m, r) g → roleEntry t.mem (s.dirFrame m) r =
      roleEntry s₃.mem (s.dirFrame m) r := by
    intro r g hg
    rw [h.init, ← hkept₃.dirFrame]
    exact roleEntry_writePage hinv₃ hpage hmem hg
  have htable : entryFrame (tableEntry s₃.mem (s.dirFrame m) (va / 2 ^ 22)) = d := by
    have hd := (hkept₂₃.own _ d hens.table).2.2.2
    rwa [hkept₃.dirFrame, eq_comm] at hd
  have honly : ∀ k g, s₂.Own k g → s.Own k g ∨ ∃ i, k = (m, .table i) ∧
      roleEntry s₂.mem (s.dirFrame m) (.table i) = mkEntry (4096 * g) userTableFlags := by
    intro k g hg
    cases h.table.2 with
    | there => exact .inl ((h.take.2.own k g).mp hg)
    | made hmade =>
        rcases (hmade.own k g).mp hg with hg | ⟨rfl, rfl⟩
        · exact .inl ((h.take.2.own k g).mp hg)
        · refine .inr ⟨_, rfl, ?_⟩
          rw [← (Steady.ofCalm h.take.2).dirFrame m]
          exact hmade.entry
  rw [h.init] at hentry ⊢
  refine ⟨hinv, h.init ▸ h.step.steady, hkept, h.free, (hown _ f).mpr hpage, ?_,
    ⟨s₃.mem, fun _ => rfl⟩, fun k g hg => ?_, h.count⟩
  · rw [hentry _ f hpage, pageRole, roleEntry, htable]
    exact hnew.entry
  · rcases (hnew.own k g).mp ((hown k g).mp hg) with hg₂ | ⟨rfl, -⟩
    · refine (honly k g hg₂).imp_right fun htable => ?_
      obtain ⟨i, rfl, heq⟩ := htable
      refine .inr ⟨i, rfl, ?_⟩
      rw [hentry _ g (hkept₂₃.own _ g hg₂), ← heq]
      have hstay := hkept₂₃.entry m (.table i) g hg₂
      rwa [hkept₂.dirFrame] at hstay
    · exact .inr (.inl rfl)

/-! ## The loop -/

/-- The first `p` pages of the range are loaded, page `q` into frame `F q`. -/
structure Loaded (B : Nat → Prop) (s t : State) (m vaStart : Nat) (flags : BitVec 32)
    (data : Option InitialData) (p : Nat) (F : Nat → Nat) : Prop where
  inv : FrameInv B [] t
  steady : Steady s t
  kept : Kept s t
  free : ∀ q, q < p → ¬ s.Taken (F q)
  own : ∀ q, q < p → t.Own (m, pageRole (vaStart + q * 4096)) (F q)
  entry : ∀ q, q < p → roleEntry t.mem (s.dirFrame m) (pageRole (vaStart + q * 4096)) =
    mkEntry (4096 * F q) flags
  bytes : ∀ q, q < p → ∀ k, k < 4096 →
    t.mem (4096 * F q + k) = InitialData.byteAt data (4096 * q + k)
  only : ∀ k g, t.Own k g → s.Own k g ∨ (∃ q, q < p ∧ k = (m, pageRole (vaStart + q * 4096))) ∨
    ∃ i, k = (m, .table i) ∧ roleEntry t.mem (s.dirFrame m) (.table i) =
      mkEntry (4096 * g) userTableFlags
  count : (t.mms m).pageCount = ((s.mms m).pageCount + p) % 2 ^ 32

variable {flags : BitVec 32} {data : Option InitialData} {F : Nat → Nat} {vaStart p f : Nat}

theorem FrameInv.pageCount_lt (h : FrameInv B l s) (hm : s.mmUsed m = true) :
    (s.mms m).pageCount ≤ 768 * 1024 := by
  rw [(h.records m hm).pages]
  exact pageCount_le _ _ _

theorem loaded_zero (h : FrameInv B [] s) (hm : s.mmUsed m = true) (F : Nat → Nat) :
    Loaded B s s m vaStart flags data 0 F where
  inv := h
  steady := .refl s
  kept := .refl s
  free q hq := by omega
  own q hq := by omega
  entry q hq := by omega
  bytes q hq := by omega
  only k g hg := .inl hg
  count := by
    have := h.pageCount_lt hm
    omega

/-- One more page. -/
theorem Loaded.step (h : Loaded B s t m vaStart flags data p F)
    (hpage : PageLoaded B t u m (vaStart + p * 4096) flags data (InitialData.copiedAfter data p)
      f) : Loaded B s u m vaStart flags data (p + 1) (Function.update F p f) := by
  have hdir := h.kept.dirFrame m
  -- the new page takes the place of `p`, and the others are kept
  have hcases : ∀ {P : Nat → Nat → Prop}, P p f → (∀ q, q < p → P q (F q)) →
      ∀ q, q < p + 1 → P q (Function.update F p f q) := by
    intro P hp hlt q hq
    by_cases hqp : q = p
    · rw [hqp, Function.update_self]
      exact hp
    · rw [Function.update_of_ne hqp]
      exact hlt q (by omega)
  refine ⟨hpage.inv, h.steady.trans hpage.steady, h.kept.trans hpage.kept, ?_, ?_, ?_, ?_,
    fun k g hg => ?_, ?_⟩
  · exact hcases (P := fun _ g => ¬ s.Taken g) (fun hf => hpage.free (h.kept.taken f hf))
      h.free
  · exact hcases (P := fun q g => u.Own (m, pageRole (vaStart + q * 4096)) g) hpage.own
      fun q hq => hpage.kept.own _ _ (h.own q hq)
  · refine hcases (P := fun q g => roleEntry u.mem (s.dirFrame m)
      (pageRole (vaStart + q * 4096)) = mkEntry (4096 * g) flags) ?_ fun q hq => ?_
    · rw [← hdir]
      exact hpage.entry
    · rw [← h.entry q hq, ← hdir]
      exact hpage.kept.entry m _ _ (h.own q hq)
  · refine hcases (P := fun q g => ∀ k, k < 4096 →
      u.mem (4096 * g + k) = InitialData.byteAt data (4096 * q + k)) (fun k hk => ?_)
      fun q hq k hk => ?_
    · obtain ⟨mem, hbytes⟩ := hpage.bytes
      rw [hbytes, initPage_apply mem _ data p hk]
    · rw [← h.bytes q hq k hk]
      exact hpage.kept.page m _ _ _ (h.own q hq) _ (by omega) (by omega)
  · rcases hpage.only k g hg with hg' | rfl | ⟨i, hk, heq⟩
    · refine (h.only k g hg').imp_right (Or.imp ?_ ?_)
      · rintro ⟨q, hq, rfl⟩
        exact ⟨q, by omega, rfl⟩
      · rintro ⟨i, rfl, heq⟩
        refine ⟨i, rfl, ?_⟩
        rw [← heq, ← hdir]
        exact hpage.kept.entry m _ g hg'
    · exact .inr (.inl ⟨p, by omega, rfl⟩)
    · rw [hdir] at heq
      exact .inr (.inr ⟨i, hk, heq⟩)
  · rw [hpage.count, h.count]
    omega

/-- The loop loads all pages, or it stops before one. -/
theorem mapPages_loaded {pages copied : Nat} {b : Bool}
    (hret : forOk (mapPage m (4096 * s.dirFrame m) vaStart flags data) (List.range pages) (s, 0) =
      .ok (b, t, copied))
    (h : FrameInv B [] s) (hm : s.mmUsed m = true) (halign : vaStart % 4096 = 0)
    (hlimit : vaStart + pages * 4096 ≤ kernelVirtualBase)
    (habsent : s.Unmapped m vaStart pages)
    (hflags : flags.toNat < 4096) (hpresent : entryPresent flags = true) :
    (b = true → ∃ F, Loaded B s t m vaStart flags data pages F) ∧
      (b = false → ∃ p F u, p < pages ∧ Loaded B s u m vaStart flags data p F ∧
        FrameInv B [] t ∧ Calm [] u t) := by
  have hloop := forOk_range
    (I := fun p (u : State × Nat) => u.2 = InitialData.copiedAfter data p ∧
      ∃ F, Loaded B s u.1 m vaStart flags data p F)
    (J := fun v => ∃ p F u, p < pages ∧ Loaded B s u m vaStart flags data p F ∧
      FrameInv B [] v.1 ∧ Calm [] u v.1) ?_
    ⟨by cases data <;> simp [InitialData.copiedAfter], fun _ => 0, loaded_zero h hm _⟩ hret
  · exact ⟨fun hb => (hloop.1 hb).2, hloop.2⟩
  · rintro p ⟨v, copied⟩ b ⟨w, copied'⟩ hp ⟨hcopied, F, hloaded⟩ hstep
    dsimp only at hcopied hloaded
    subst hcopied
    have hdir := hloaded.kept.dirFrame m
    have hm' : v.mmUsed m = true := by rw [hloaded.kept.mmUsed, hm]
    rw [← hdir] at hstep
    have hfresh : ∀ f, ¬ v.Own (m, pageRole (vaStart + p * 4096)) f := by
      intro f hf
      rcases hloaded.only _ f hf with hf | ⟨q, hq, heq⟩ | ⟨i, heq, -⟩
      · exact habsent p hp f hf
      · have := pageRole_inj (by omega) (by omega) (Prod.mk.inj heq).2
        omega
      · simp [pageRole] at heq
    rcases mapPage_cases hstep hloaded.inv hm' (by omega) hfresh hflags hpresent with
      ⟨rfl, hinv, hcalm⟩ | ⟨rfl, rfl, f, d, s₁, s₂, s₃, hmade⟩
    · exact ⟨by simp, fun _ => ⟨p, F, v, hp, hloaded, hinv, hcalm⟩⟩
    · exact ⟨fun _ => ⟨copiedAfter_succ data p, _, hloaded.step (hmade.loaded hloaded.inv hm')⟩,
        by simp⟩

/-! ## The call -/

theorem entryFlags_and {mask : BitVec 32} (w : BitVec 32) (h : 0xFFF &&& mask = mask) :
    entryFlags w &&& mask = w &&& mask := by
  rw [entryFlags, BitVec.and_assoc, h]

theorem mkEntry_and {mask : BitVec 32} (f : Nat) (hflags : flags.toNat < 4096)
    (h : 0xFFF &&& mask = mask) : mkEntry (4096 * f) flags &&& mask = flags &&& mask := by
  rw [← entryFlags_and _ h, entryFlags_mkEntry (by omega) hflags]

theorem entryOpen_flags (w : BitVec 32) : entryOpen (entryFlags w) ↔ entryOpen w := by
  unfold entryOpen
  rw [entryFlags_and _ (by decide), entryFlags_and _ (by decide)]

theorem entryOpen_userTable (f : Nat) : entryOpen (mkEntry (4096 * f) userTableFlags) := by
  unfold entryOpen
  rw [mkEntry_and f (by decide) (by decide), mkEntry_and f (by decide) (by decide)]
  decide

/-- The page tables of all address spaces let user code through. -/
def State.TablesOpen (s : State) : Prop :=
  ∀ m i f, s.Own (m, .table i) f → entryOpen (roleEntry s.mem (s.dirFrame m) (.table i))

/-- User code may read the page at `va`. -/
def State.UserAccess (s : State) (m va : Nat) : Prop :=
  (s.translate m va).isSome = true ∧ s.pde m va &&& Paging.pgUser ≠ 0 ∧
    s.pte m va &&& Paging.pgUser ≠ 0

/-- The page at `va` may be written. -/
def State.Writable (s : State) (m va : Nat) : Prop :=
  s.pde m va &&& Paging.pgRw ≠ 0 ∧ s.pte m va &&& Paging.pgRw ≠ 0

/-- The range of `m` holds the image in frames of its own, with the access that `prot` asks
for. -/
structure ImageAt (s t : State) (m vaStart size : Nat) (prot : BitVec 32)
    (data : Option InitialData) : Prop where
  bytes : ∀ k, k < size → t.readByte m (vaStart + k) = some (InitialData.byteAt data k)
  access : ∀ k, k < size → t.UserAccess m (vaStart + k)
  writable : ∀ k, k < size → (t.Writable m (vaStart + k) ↔ prot &&& vmaProtWrite ≠ 0)
  frames : ∃ F : Nat → Nat, Set.InjOn F {q | q < size / 4096} ∧ ∀ q, q < size / 4096 →
    ¬ s.Taken (F q) ∧ t.translate m (vaStart + 4096 * q) = some (4096 * F q)
  count : (t.mms m).pageCount = (s.mms m).pageCount + size / 4096

/-- The list of `m` has one more region. -/
structure RegionAdded (s t : State) (m : Nat) (lists : Nat → List Nat)
    (content : Nat × Nat × VmaType × BitVec 32) : Prop where
  list : ∃ v l₁ l₂, lists m = l₁ ++ l₂ ∧ v ∉ lists m ∧ (t.vmas v).content = content ∧
    Chain t.vmaNext (t.mms m).vmaHead (l₁ ++ v :: l₂)
  content : ∀ w ∈ lists m, (t.vmas w).content = (s.vmas w).content

/-- What is at `va` in `m` is as before. -/
structure SameAt (s t : State) (m va : Nat) : Prop where
  translate : t.translate m va = s.translate m va
  readByte : t.readByte m va = s.readByte m va
  pte : (s.translate m va).isSome = true → t.pde m va = s.pde m va ∧ t.pte m va = s.pte m va

theorem Kept.sameAt {m' va : Nat} (h : Kept s t) (hm : s.mmUsed m' = true)
    (hown : ∀ f, t.Own (m', pageRole va) f → s.Own (m', pageRole va) f) : SameAt s t m' va := by
  have hm' : t.mmUsed m' = true := by rw [h.mmUsed, hm]
  refine ⟨Option.ext fun a => ?_, readByte_congr hm hm' ⟨fun ⟨f, hf⟩ => ⟨f, hown f hf⟩,
    fun ⟨f, hf⟩ => ⟨f, h.own _ f hf⟩⟩ fun f f' hf hf' k hk => ?_, fun hsome => ?_⟩
  · rw [translate_eq_some hm', translate_eq_some hm]
    exact ⟨fun ⟨f, hf, ha⟩ => ⟨f, hown f hf, ha⟩, fun ⟨f, hf, ha⟩ => ⟨f, h.own _ f hf, ha⟩⟩
  · obtain rfl : f' = f := Owns.unique_frame (hown f' hf').2 hf.2
    exact h.page _ _ _ _ hf _ (by omega) (by omega)
  · obtain ⟨f, hf⟩ := (translate_isSome hm).mp hsome
    have htable : s.Own (m', .table (va / 2 ^ 22)) _ := ⟨hm, hf.2.table_of_page⟩
    refine ⟨?_, ?_⟩
    · rw [State.pde, h.dirFrame, State.pde]
      exact h.entry m' _ _ htable
    · rw [State.pte, State.pde, h.dirFrame]
      exact h.entry m' _ _ hf

/-- The offset into a page does not matter for where it is mapped. -/
theorem pageRole_offset {k : Nat} (h : vaStart % 4096 = 0) :
    pageRole (vaStart + k) = pageRole (vaStart + k / 4096 * 4096) := by
  simp only [pageRole, Role.page.injEq]
  omega

theorem pageRole_eq {va va' : Nat} (h : pageRole va = pageRole va') : va / 4096 = va' / 4096 := by
  simp only [pageRole, Role.page.injEq] at h
  omega

theorem Kept.ofRelinked (h : Relinked s t) (hs : FrameInv B l s) : Kept s t := by
  have hmem : t.mem = s.mem := by rw [State.mem, h.paging, State.mem]
  refine .of_agree h.mmUsed (fun m => ?_) (fun f hf => ?_) (fun k g => ((h.frameInv hs).2 k g).mpr)
    fun k g _ => ?_
  · obtain ⟨head, heq⟩ := h.mms m
    rw [State.dirFrame, heq, State.dirFrame]
  · rw [State.Taken, h.paging]
    exact hf
  · rw [hmem]
    exact .refl _ _

/-- What a call may add to `m`, whether it returns zero or not: pages of the range, and tables. -/
structure Filled (s t : State) (m vaStart pages : Nat) : Prop where
  kept : Kept s t
  only : ∀ k g, t.Own k g → s.Own k g ∨ (∃ q, q < pages ∧ k = (m, pageRole (vaStart + q * 4096))) ∨
    ∃ i, k = (m, .table i) ∧
      roleEntry t.mem (t.dirFrame m) (.table i) = mkEntry (4096 * g) userTableFlags

namespace Filled

variable {pages : Nat}

/-- Nothing was added. -/
theorem of_kept (h : Kept s t) (hown : ∀ k g, t.Own k g → s.Own k g) :
    Filled s t m vaStart pages :=
  ⟨h, fun k g hg => .inl (hown k g hg)⟩

theorem ofCalm (h : Calm l s t) : Filled s t m vaStart pages :=
  of_kept (.ofCalm h) fun k g => (h.own k g).mp

theorem ofLoaded (h : Loaded B s t m vaStart flags data p F) (hp : p ≤ pages) :
    Filled s t m vaStart pages := by
  refine ⟨h.kept, fun k g hg => (h.only k g hg).imp_right (Or.imp ?_ ?_)⟩
  · rintro ⟨q, hq, rfl⟩
    exact ⟨q, by omega, rfl⟩
  · rintro ⟨i, rfl, heq⟩
    exact ⟨i, rfl, by rw [h.kept.dirFrame, heq]⟩

theorem trans (h : Filled s t m vaStart pages) (h' : Filled t u m vaStart pages) :
    Filled s u m vaStart pages := by
  refine ⟨h.kept.trans h'.kept, fun k g hg => ?_⟩
  rcases h'.only k g hg with hg | hpage | htable
  · refine (h.only k g hg).imp_right (Or.imp_right ?_)
    rintro ⟨i, rfl, heq⟩
    refine ⟨i, rfl, ?_⟩
    rw [← heq, h'.kept.dirFrame]
    exact h'.kept.entry m _ g hg
  · exact .inr (.inl hpage)
  · exact .inr (.inr htable)

theorem tablesOpen (h : Filled s t m vaStart pages) (hopen : s.TablesOpen) : t.TablesOpen := by
  intro m' i f hf
  rcases h.only _ f hf with hf | ⟨q, -, heq⟩ | ⟨j, heq, hentry⟩
  · rw [h.kept.dirFrame, h.kept.entry m' _ f hf]
    exact hopen m' i f hf
  · simp [pageRole] at heq
  · obtain ⟨rfl, hrole⟩ := Prod.mk.inj heq
    rw [hrole, hentry]
    exact entryOpen_userTable f

/-- Other address spaces are left alone, and so are the pages outside the range. -/
theorem sameAt (h : Filled s t m vaStart pages) {m' va : Nat} (halign : vaStart % 4096 = 0)
    (hm' : s.mmUsed m' = true) (hout : m' = m → va < vaStart ∨ vaStart + pages * 4096 ≤ va) :
    SameAt s t m' va := by
  refine h.kept.sameAt hm' fun f hf => ?_
  rcases h.only _ f hf with hf | ⟨q, hq, heq⟩ | ⟨i, heq, -⟩
  · exact hf
  · obtain ⟨hmm, hrole⟩ := Prod.mk.inj heq
    have hdiv := pageRole_eq hrole
    rcases hout hmm with hlt | hge
    · omega
    · omega
  · simp [pageRole] at heq

end Filled

/-- The parts of a call that returns zero: a record for the region (`s₁`), the pages (`s₂`), and
the list. -/
structure Mapped (B : Nat → Prop) (s t : State) (m vaStart size : Nat) (type : VmaType)
    (prot : BitVec 32) (data : Option InitialData) (lists : Nat → List Nat) (v : Nat)
    (F : Nat → Nat) (s₁ s₂ : State) : Prop where
  aligned : vaStart % 4096 = 0
  whole : size % 4096 = 0
  filled : Filled s s₁ m vaStart (size / 4096)
  mms : s₁.mms = s.mms
  new : ∀ m', s.mmUsed m' = true → v ∉ lists m'
  content : (s₁.vmas v).content = (vaStart, vaStart + size, type, prot)
  vmas : ∀ w, w ≠ v → s₁.vmas w = s.vmas w
  loaded : Loaded B s₁ s₂ m vaStart (Paging.pgPresent ||| Paging.pgUser |||
    (if prot &&& vmaProtWrite ≠ 0 then Paging.pgRw else 0)) data (size / 4096) F
  inserted : ∃ l₁ l₂, Inserted s₂ t lists m v l₁ l₂

theorem mmMapRegion_cases {vaStart size prot : BitVec 32} {type : VmaType} {code : Int}
    (hret : mmMapRegion s (some m) vaStart size type prot data = .ok (code, t))
    (h : FrameInv B [] s) (hr : RegionInv s lists) (hm : s.mmUsed m = true)
    (hwrap : vaStart.toNat + size.toNat < 2 ^ 32)
    (habsent : s.Unmapped m vaStart.toNat (size.toNat / 4096)) :
    Filled s t m vaStart.toNat (size.toNat / 4096) ∧ (code = 0 → ∃ v F s₁ s₂,
      Mapped B s t m vaStart.toNat size.toNat type prot data lists v F s₁ s₂) := by
  have hsum : (vaStart + size).toNat = vaStart.toNat + size.toNat := by
    rw [BitVec.toNat_add, Nat.mod_eq_of_lt hwrap]
  have hfail : ∀ {t' : State}, (.ok (-1, t') : Except Trap (Int × State)) = .ok (code, t) →
      Filled s t' m vaStart.toNat (size.toNat / 4096) →
      Filled s t m vaStart.toNat (size.toNat / 4096) ∧ (code = 0 → ∃ v F s₁ s₂,
        Mapped B s t m vaStart.toNat size.toNat type prot data lists v F s₁ s₂) := by
    intro t' heq hfilled
    simp only [Except.ok.injEq, Prod.mk.injEq] at heq
    obtain ⟨rfl, rfl⟩ := heq
    exact ⟨hfilled, by simp⟩
  have hsame : Filled s s m vaStart.toNat (size.toNat / 4096) := .ofCalm (Calm.refl [] s)
  unfold mmMapRegion at hret
  dsimp only at hret
  split at hret
  · exact hfail hret hsame
  split at hret
  · exact hfail hret hsame
  split at hret
  · exact hfail hret hsame
  split at hret
  · exact hfail hret hsame
  rename_i hsize halign hsizeAlign hrange
  have hlimit : vaStart.toNat + size.toNat ≤ kernelVirtualBase := by
    rw [← (h.records m hm).userLimit, ← hsum]
    omega
  generalize halloc : vmaAlloc s = r at hret
  obtain ⟨slot, s₀⟩ := r
  obtain ⟨hinv₀, hcase⟩ := vmaAlloc_spec h halloc
  rcases hcase with ⟨rfl, hcalm⟩ | ⟨v, rfl, hnew⟩
  · exact hfail hret (.ofCalm hcalm)
  have hfacts := hnew.facts
  obtain ⟨hr₀, hnot₀⟩ := hnew.regionInv hr
  dsimp only at hret
  obtain ⟨pd, hpd, hret⟩ := bind_eq_ok.mp hret
  rw [Paging.physToVirt_eq_ok hpd] at hret
  generalize hvma : (s₀.vmas v).describe vaStart.toNat (vaStart + size).toNat type prot = vma
    at hret
  have hr₁ := hr₀.setVma vma hnot₀
  obtain ⟨hinv₁, hown₁⟩ := hinv₀.congr (t := s₀.setVma v vma) rfl rfl rfl fun m => ⟨_, rfl⟩
  have hcontent : ((s₀.setVma v vma).vmas v).content =
      (vaStart.toNat, vaStart.toNat + size.toNat, type, prot) := by
    rw [State.vmas_setVma_self, ← hvma, ← hsum]
    rfl
  have hvmas : ∀ w, w ≠ v → (s₀.setVma v vma).vmas w = s.vmas w := fun w hw =>
    (Function.update_of_ne hw _ _).trans (hfacts.vma_ne w hw)
  have hown : ∀ k g, (s₀.setVma v vma).Own k g ↔ s.Own k g := fun k g =>
    (hown₁ k g).trans (hfacts.own k g)
  have hfilled : Filled s (s₀.setVma v vma) m vaStart.toNat (size.toNat / 4096) := by
    refine .of_kept (.of_agree hfacts.mmUsed (fun m' => ?_) hfacts.taken
      (fun k g => (hown k g).mpr) hfacts.own_mem) fun k g => (hown k g).mp
    rw [State.dirFrame, State.mms_setVma, hfacts.mms, State.dirFrame]
  have hmms : (s₀.setVma v vma).mms = s.mms := hfacts.mms
  have hnot : ∀ m', s.mmUsed m' = true → v ∉ lists m' := fun m' hm' =>
    hnot₀ m' (by rw [hfacts.mmUsed, hm'])
  generalize s₀.setVma v vma = s₁ at *
  have hm₁ : s₁.mmUsed m = true := by rw [hfilled.kept.mmUsed, hm]
  obtain ⟨⟨done, s₂, copied⟩, hloop, hret⟩ := bind_eq_ok.mp hret
  rw [(hinv₁.records m hm₁).cr3] at hloop
  obtain ⟨hflags, hpresent⟩ := pteFlags_ok prot
  obtain ⟨hdone, hstop⟩ := mapPages_loaded hloop hinv₁ hm₁ (by simpa using halign) (by omega)
    (fun p hp f hf => habsent p hp f ((hown _ f).mp hf)) hflags hpresent
  dsimp only at hret
  split at hret
  · rename_i hb
    obtain ⟨F, hloaded⟩ := hdone hb
    obtain ⟨s₃, hins, hret⟩ := bind_eq_ok.mp hret
    have hm₂ : s₂.mmUsed m = true := by rw [hloaded.kept.mmUsed, hm₁]
    obtain ⟨s₃', l₁, l₂, heq, hinserted⟩ := vmaInsert_spec (hloaded.steady.regionInv hr₁) hm₂
      (hnot m hm)
    rw [heq] at hins
    obtain rfl := Except.ok.inj hins
    simp only [Except.ok.injEq, Prod.mk.injEq] at hret
    obtain ⟨rfl, rfl⟩ := hret
    have hlinked : Filled s₂ s₃' m vaStart.toNat (size.toNat / 4096) :=
      .of_kept (.ofRelinked hinserted.relinked hloaded.inv)
        fun k g => ((hinserted.relinked.frameInv hloaded.inv).2 k g).mp
    exact ⟨hfilled.trans ((Filled.ofLoaded hloaded le_rfl).trans hlinked), fun _ => ⟨v, F, s₁, s₂,
      by simpa using halign, by simpa using hsizeAlign, hfilled, hmms, hnot, hcontent, hvmas,
      hloaded, l₁, l₂, hinserted⟩⟩
  · rename_i hb
    -- the loop stopped early: the region is not on the list, and its record is freed
    obtain ⟨p, F, u, hp, hloaded, hinv₂, hcalm⟩ := hstop (by simpa using hb)
    have hr₂ := (hloaded.steady.trans (.ofCalm hcalm)).regionInv hr₁
    have hm₂ : s₂.mmUsed m = true := by rw [hcalm.mmUsed, hloaded.kept.mmUsed, hm₁]
    obtain ⟨s₃, hrem, hret⟩ := bind_eq_ok.mp hret
    rw [vmaRemove_of_notMem hr₂ hm₂ (hnot m hm)] at hrem
    obtain rfl := Except.ok.inj hrem
    obtain ⟨-, hfree⟩ := hinv₂.congr (t := vmaFree s₂ v) rfl rfl rfl fun m => ⟨_, rfl⟩
    have hfreed : Filled s₂ (vmaFree s₂ v) m vaStart.toNat (size.toNat / 4096) :=
      .of_kept (.of_agree rfl (fun _ => rfl) (fun _ hf => hf) (fun k g => (hfree k g).mpr)
        fun _ _ _ => .refl _ _) fun k g => (hfree k g).mp
    exact hfail hret (hfilled.trans ((Filled.ofLoaded hloaded hp.le).trans
      ((Filled.ofCalm hcalm).trans hfreed)))

namespace Mapped

variable {size v : Nat} {prot : BitVec 32} {type : VmaType} {s₁ s₂ : State}
  (h : Mapped B s t m vaStart size type prot data lists v F s₁ s₂)

include h

theorem kept_end : Kept s₂ t := by
  obtain ⟨l₁, l₂, hinserted⟩ := h.inserted
  exact .ofRelinked hinserted.relinked h.loaded.inv

theorem mem_end : t.mem = s₂.mem := by
  obtain ⟨l₁, l₂, hinserted⟩ := h.inserted
  rw [State.mem, hinserted.relinked.paging, State.mem]

theorem mmUsed_end : t.mmUsed = s.mmUsed := by
  rw [h.kept_end.mmUsed, h.loaded.kept.mmUsed, h.filled.kept.mmUsed]

/-- The frame behind an address of the range, and its entry. -/
theorem page {k : Nat} (hk : k < size) :
    t.Own (m, pageRole (vaStart + k)) (F (k / 4096)) ∧
      t.pte m (vaStart + k) = mkEntry (4096 * F (k / 4096)) (Paging.pgPresent ||| Paging.pgUser |||
        (if prot &&& vmaProtWrite ≠ 0 then Paging.pgRw else 0)) := by
  have hq : k / 4096 < size / 4096 := by
    have := h.whole
    omega
  have hentry := h.loaded.entry _ hq
  have hpte : t.pte m (vaStart + k) =
      roleEntry t.mem (t.dirFrame m) (pageRole (vaStart + k)) := rfl
  rw [← pageRole_offset h.aligned] at hentry
  refine ⟨?_, ?_⟩
  · rw [pageRole_offset h.aligned]
    exact h.kept_end.own _ _ (h.loaded.own _ hq)
  · rw [hpte, h.mem_end, h.kept_end.dirFrame, h.loaded.kept.dirFrame, hentry]

theorem translate_page (hm : s.mmUsed m = true) {k : Nat} (hk : k < size) :
    t.translate m (vaStart + k) = some (4096 * F (k / 4096) + k % 4096) := by
  have hm' : t.mmUsed m = true := by rw [h.mmUsed_end, hm]
  refine (translate_eq_some hm').mpr ⟨_, (h.page hk).1, ?_⟩
  have := h.aligned
  omega

theorem imageAt (hs : FrameInv B [] s) (hm : s.mmUsed m = true) (hopen : t.TablesOpen)
    (hsize : size < 2 ^ 32) : ImageAt s t m vaStart size prot data := by
  have hpde : ∀ k, k < size → entryOpen (t.pde m (vaStart + k)) := by
    intro k hk
    have hpage := (h.page hk).1
    exact hopen m _ _ ⟨hpage.1, hpage.2.table_of_page⟩
  obtain ⟨hflags, -⟩ := pteFlags_ok prot
  refine ⟨fun k hk => ?_, fun k hk => ⟨?_, (hpde k hk).1, ?_⟩, fun k hk => ?_, ⟨F, ?_, ?_⟩, ?_⟩
  · rw [State.readByte, h.translate_page hm hk, Option.map_some, h.mem_end,
      h.loaded.bytes _ (by have := h.whole; omega) _ (Nat.mod_lt _ (by decide)), Nat.div_add_mod]
  · rw [h.translate_page hm hk]
    rfl
  · rw [(h.page hk).2, mkEntry_and _ hflags (by decide)]
    split <;> decide
  · refine (and_iff_right (hpde k hk).2).trans ?_
    rw [(h.page hk).2, mkEntry_and _ hflags (by decide)]
    split
    · rename_i hwrite
      exact iff_of_true (by decide) hwrite
    · rename_i hwrite
      exact iff_of_false (by decide) hwrite
  · -- two pages in one frame would be one page
    intro q hq q' hq' heq
    have hkey := h.loaded.inv.ledger.unique _ _ _ (h.loaded.own q hq)
      (heq ▸ h.loaded.own q' hq')
    have := h.aligned
    have := pageRole_inj (by omega) (by omega) (Prod.mk.inj hkey).2
    omega
  · intro q hq
    refine ⟨fun htaken => h.loaded.free q hq (h.filled.kept.taken _ htaken), ?_⟩
    rw [h.translate_page hm (by omega), Nat.mul_div_cancel_left q (by decide), Nat.mul_mod_right,
      Nat.add_zero]
  · obtain ⟨l₁, l₂, hinserted⟩ := h.inserted
    obtain ⟨head, hmms⟩ := hinserted.relinked.mms m
    rw [hmms]
    dsimp only
    rw [h.loaded.count, h.mms]
    have := hs.pageCount_lt hm
    omega

theorem regionAdded (hm : s.mmUsed m = true) :
    RegionAdded s t m lists (vaStart, vaStart + size, type, prot) := by
  obtain ⟨l₁, l₂, hinserted⟩ := h.inserted
  -- linking a region changes no more than its link
  have hcontent : ∀ w, (t.vmas w).content = (s₁.vmas w).content := by
    intro w
    obtain ⟨next, heq⟩ := hinserted.relinked.vmas w
    rw [heq, h.loaded.steady.vmas]
    rfl
  refine ⟨⟨v, l₁, l₂, hinserted.split, h.new m hm, ?_, hinserted.chain⟩, fun w hw => ?_⟩
  · rw [hcontent, h.content]
  · rw [hcontent, h.vmas w]
    rintro rfl
    exact h.new m hm hw

end Mapped

/-! ## Open tables -/

/-- Tables that were there keep their flags. -/
theorem State.TablesOpen.of_flags (h : s.TablesOpen)
    (hold : ∀ m i g, t.Own (m, .table i) g → ∃ m' f, s.Own (m', .table i) f ∧
      entryFlags (roleEntry t.mem (t.dirFrame m) (.table i)) =
        entryFlags (roleEntry s.mem (s.dirFrame m') (.table i))) : t.TablesOpen := by
  intro m i g hg
  obtain ⟨m', f, hf, heq⟩ := hold m i g hg
  rw [← entryOpen_flags, heq, entryOpen_flags]
  exact h m' i f hf

/-- Tables of directories that agree. -/
theorem State.TablesOpen.of_agree (h : s.TablesOpen)
    (hold : ∀ m i g, t.Own (m, .table i) g → s.Own (m, .table i) g ∧
      t.dirFrame m = s.dirFrame m ∧ AgreeOn s.mem t.mem (s.dirFrame m)) : t.TablesOpen := by
  refine h.of_flags fun m i g hg => ?_
  obtain ⟨hs, hdir, hmem⟩ := hold m i g hg
  refine ⟨m, g, hs, ?_⟩
  rw [hdir, roleEntry, hmem.tableEntry (lt_of_lt_of_le hs.2.1 maxPde_le), roleEntry]

/-- All operations keep the tables open. -/
theorem step_tablesOpen {o : Op} (h : Inv B s) (hopen : s.TablesOpen) (hallowed : o.Allowed s)
    (hstep : Step s o t) : t.TablesOpen := by
  obtain ⟨hs, lists, hr⟩ := h
  cases o with
  | create =>
      obtain ⟨⟨child, u⟩, hret, heq⟩ := bind_eq_ok.mp hstep
      obtain rfl := Except.ok.inj heq
      obtain ⟨-, hcase⟩ := mmCreate_spec hret hs
      refine hopen.of_agree fun m i g hg => ?_
      rcases hcase with ⟨-, hcalm⟩ | ⟨c, f, -, hnew⟩
      · have hg' := (hcalm.own _ g).mp hg
        exact ⟨hg', (Steady.ofCalm hcalm).dirFrame m, hcalm.own_mem (m, .dir) _ ⟨hg'.1, rfl⟩⟩
      · rcases (hnew.own _ g).mp hg with hg' | ⟨heq, -⟩
        · have hmc : m ≠ c := by
            rintro rfl
            exact absurd (hnew.unused.symm.trans hg'.1) (by simp)
          refine ⟨hg', ?_, hnew.own_mem (m, .dir) _ ⟨hg'.1, rfl⟩⟩
          rw [State.dirFrame, hnew.mms, Function.update_of_ne hmc, State.dirFrame]
        · simp at heq
  | mapRegion m vaStart size type prot data =>
      obtain ⟨⟨code, u⟩, hret, heq⟩ := bind_eq_ok.mp hstep
      obtain rfl := Except.ok.inj heq
      obtain ⟨hm, hwrap, habsent⟩ := hallowed
      exact (mmMapRegion_cases hret hs hr hm hwrap habsent).1.tablesOpen hopen
  | clone p =>
      obtain ⟨⟨child, u⟩, hret, heq⟩ := bind_eq_ok.mp hstep
      obtain rfl := Except.ok.inj heq
      obtain ⟨lists', hclone⟩ := mmCloneUserEager_spec hret hs hr hallowed
      refine hopen.of_flags fun m i g hg => ?_
      by_cases hm : s.mmUsed m = true
      · have hg' := (hclone.keeps.own m hm _ g).mp hg
        have hmem := hclone.keeps.mem m hm .dir _ ⟨hm, rfl⟩
        refine ⟨m, g, hg', ?_⟩
        rw [State.dirFrame, hclone.keeps.record m hm, roleEntry, ← State.dirFrame,
          hmem.tableEntry (lt_of_lt_of_le hg'.2.1 maxPde_le), roleEntry]
      · -- a table of the clone has the flags of the one it was copied from
        cases child with
        | none => exact absurd (hclone.none rfl m hg.1) hm
        | some c =>
            obtain ⟨-, hcloned⟩ := hclone.some c rfl
            have hmc : m = c := by
              by_contra hne
              have hused := hg.1
              rw [hcloned.mmUsed, Function.update_of_ne hne] at hused
              exact hm hused
            subst hmc
            obtain ⟨f, hf⟩ := (hcloned.owns _ (by simp)).mp ⟨g, hg⟩
            exact ⟨p, f, hf, hcloned.flags _ f (by simp) hf⟩
  | destroy m =>
      obtain ⟨-, hgone, -⟩ := mmDestroy_spec hstep hs hr hallowed.1
      refine hopen.of_agree fun m' i g hg => ?_
      obtain ⟨hg', hne⟩ := (hgone.own _ g).mp hg
      refine ⟨hg', ?_, hgone.own_mem (m', .dir) _ ⟨hg'.1, rfl⟩⟩
      rw [State.dirFrame, hgone.mms m' hne, State.dirFrame]

/-- The tables are open in every state of a run. -/
theorem run_tablesOpen {s₀ : State} {ops : List Op} (hready : Ready s₀)
    (hrun : Run (Guarded Step fun s op => op.Allowed s) s₀ ops s) :
    Inv s₀.Taken s ∧ s.TablesOpen := by
  refine hrun.invariant (I := fun s => Inv s₀.Taken s ∧ s.TablesOpen) ?_ ⟨hready.inv, ?_⟩
  · rintro u o v ⟨hinv, hopen⟩ ⟨hallowed, hstep⟩
    exact ⟨step_inv hinv hallowed hstep, step_tablesOpen hinv hopen hallowed hstep⟩
  · intro m i f hf
    exact absurd ((hready.unused m).symm.trans hf.1) (by simp)

/-! ## The result -/

/-- A call that returns zero loads the image, adds one region, and leaves everything else as it
was. -/
theorem mmMapRegion_loads {vaStart size prot : BitVec 32} {type : VmaType}
    (hinv : FrameInv B [] s) (hregions : RegionInv s lists) (hopen : s.TablesOpen)
    (hm : s.mmUsed m = true) (hwrap : vaStart.toNat + size.toNat < 2 ^ 32)
    (habsent : s.Unmapped m vaStart.toNat (size.toNat / 4096))
    (hret : mmMapRegion s (some m) vaStart size type prot data = .ok (0, t)) :
    ImageAt s t m vaStart.toNat size.toNat prot data ∧
    RegionAdded s t m lists (vaStart.toNat, vaStart.toNat + size.toNat, type, prot) ∧
    ∀ m' va, s.mmUsed m' = true →
      (m' = m → va < vaStart.toNat ∨ vaStart.toNat + size.toNat ≤ va) → SameAt s t m' va := by
  obtain ⟨hfilled, hzero⟩ := mmMapRegion_cases hret hinv hregions hm hwrap habsent
  obtain ⟨v, F, s₁, s₂, hmapped⟩ := hzero rfl
  refine ⟨hmapped.imageAt hinv hm (hfilled.tablesOpen hopen) (by omega), hmapped.regionAdded hm,
    fun m' va hm' hout => hfilled.sameAt hmapped.aligned hm' ?_⟩
  rwa [Nat.div_mul_cancel (Nat.dvd_of_mod_eq_zero hmapped.whole)]

/-- Three bytes in a page of a new address space. -/
theorem mmMapRegion_loads_bytes : ∃ s t, s.mmUsed 0 = true ∧
    mmMapRegion s (some 0) 0x400000 4096 .text 1 (some ⟨fun k => BitVec.ofNat 8 (k + 7), 3⟩) =
      .ok (0, t) ∧
    ImageAt s t 0 0x400000 4096 1 (some ⟨fun k => BitVec.ofNat 8 (k + 7), 3⟩) := by
  obtain ⟨s, hcreate, htest⟩ := exists_of_okAnd (e := Op.exec smallState .create)
    (p := fun s => s.mmUsed 0 && !entryPresent (tableEntry s.mem (s.dirFrame 0) 1) &&
      okAnd (mmMapRegion s (some 0) 0x400000 4096 .text 1
        (some ⟨fun k => BitVec.ofNat 8 (k + 7), 3⟩)) fun r => r.1 == 0)
    (by decide +kernel)
  simp only [Bool.and_eq_true, Bool.not_eq_true'] at htest
  obtain ⟨⟨hused, habsent⟩, htest⟩ := htest
  obtain ⟨⟨code, t⟩, hmap, hcode⟩ := exists_of_okAnd htest
  obtain rfl : code = 0 := by simpa using hcode
  have hrun : Run (Guarded Step fun s op => op.Allowed s) smallState [.create] s :=
    .cons ⟨trivial, hcreate⟩ (.nil _)
  obtain ⟨⟨hinv, lists, hregions⟩, hopen⟩ := run_tablesOpen ready_smallState hrun
  have hunmapped : s.Unmapped 0 (0x400000 : BitVec 32).toNat ((4096 : BitVec 32).toNat / 4096) :=
    unmapped_of_absent habsent
  have hwrap : (0x400000 : BitVec 32).toNat + (4096 : BitVec 32).toNat < 2 ^ 32 := by decide
  exact ⟨s, t, hused, hmap,
    (mmMapRegion_loads hinv hregions hopen hused hwrap hunmapped hmap).1⟩

end Unidos.Mm
