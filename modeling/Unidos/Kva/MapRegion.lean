import Unidos.Dpage.Clean
import Unidos.Kva.Registry

/-!
# Mapping a registered region

After `kva_map_region` of `kernel/kva.c`. The pages of a region are mapped one by one, each to the
next free frame. If there is no frame the loop just ends; if a page cannot be mapped the pages
before it are unmapped and their frames freed, but not the frame that was meant for it.

`kvaMapRegion_iff` says that a call does what it should if it succeeds, or if there was no free
frame to begin with, and in no other case.
-/

namespace Unidos.Kva

open Lib Dpage

/-- `virt_addr` of page `j`. -/
def pageAddr (base j : Nat) : Nat := (base + j * 4096) % 2 ^ 32

/-- The rewinding after page `i` could not be mapped, from page `j` on, with the rest of
`phys_addresses`. -/
def rewind (base i : Nat) : List Nat → Nat → Paging.State → Except Trap Paging.State
  | [], _, s => .ok s
  | phys :: rest, j, s => do
      let s ← if i ≠ j then (do
          let (_, _, s) ← Paging.pagingUnmapPage s (pageAddr base j)
          .ok s)
        else .ok s
      rewind base i rest (j + 1) { s with pmm := (Pmm.pmmDeallocSpecificBlock s.pmm phys).2 }

/-- The loop over the next `n` pages from page `i` on. The result is `initialized`. -/
def mapPages (base : Nat) : Nat → Nat → List Nat → Paging.State → Except Trap (Nat × Paging.State)
  | 0, i, _, s => .ok (i, s)
  | n + 1, i, physAddresses, s =>
      let (res, pmm) := Pmm.pmmGetNextAvailableBlock s.pmm
      let s := { s with pmm := pmm }
      if res.status ≠ .allocSuccess then .ok (i, s)
      else do
        let (mapRes, s) ← Paging.pagingMapPage s (pageAddr base i) res.addr
          (Paging.pgPresent ||| Paging.pgRw)
        if mapRes ≠ .ok then
          let s ← rewind base i physAddresses 0 s
          .ok (i, s)
        else mapPages base n (i + 1) (physAddresses ++ [res.addr]) s

def kvaMapRegion (k : State) (s : Paging.State) (name : Nat → Byte) :
    Except Trap (Bool × State × Paging.State) :=
  match k.find name with
  | none => .error (.panic "KVA region not found")
  | some r =>
      let region := k.regions r
      if region.mapped then .error (.panic "KVA region already mapped")
      else do
        let pageCount := region.size / 4096
        let (initialized, s) ← mapPages region.base pageCount 0 [] s
        if initialized ≠ pageCount then .ok (false, k, s)
        else
          let regions := Function.update k.regions r { region with mapped := true }
          .ok (true, { k with regions := regions }, s)

/-! ## What a call should do -/

/-- Where `kva_register_region` puts a region. -/
structure Placed (r : KvaRegion) : Prop where
  base_aligned : r.base % 4096 = 0
  size_aligned : r.size % 4096 = 0
  size_ne : r.size ≠ 0
  below : r.base + r.size < physWindowBase

/-- Number `j` of the pages of a region. -/
def KvaRegion.page (r : KvaRegion) (j : Nat) : Nat := r.base / 4096 + j

/-- No page of the region is mapped. -/
def Unmapped (s : Paging.State) (r : KvaRegion) : Prop :=
  ∀ j, j < r.size / 4096 → s.pageMap (r.page j) = none

/-- Every page of the region is mapped, writable and not for users, to a frame of its own that was
free in `s`. -/
def Backed (s t : Paging.State) (r : KvaRegion) : Prop :=
  ∃ frames : List Nat, frames.length = r.size / 4096 ∧ frames.Nodup ∧
    (∀ f ∈ frames, f < s.pmm.frameCount ∧ s.pmm.bit f = false) ∧
    ∀ j f, frames[j]? = some f →
      t.pageMap (r.page j) = some ⟨f, Paging.pgPresent ||| Paging.pgRw⟩

/-- What was done has been undone: no page of the region is mapped, and apart from page tables no
frame is in use that was free in `s`. -/
structure Rewound (s t : Paging.State) (r : KvaRegion) : Prop where
  unmapped : Unmapped t r
  frames : ∀ f, f < s.pmm.frameCount → s.pmm.bit f = false → ¬ TableFrame t f →
    t.pmm.bit f = false

/-- The region is mapped and marked as such, or all is undone and the call can be repeated. -/
inductive MapsOrRewinds (k : State) (s : Paging.State) (r : Nat) :
    Bool → State → Paging.State → Prop where
  | mapped {k' : State} {t : Paging.State} : Backed s t (k.regions r) →
      (k'.regions r).mapped = true → MapsOrRewinds k s r true k' t
  | rewound {t : Paging.State} : Rewound s t (k.regions r) → MapsOrRewinds k s r false k t

variable {k k' : State} {s t u : Paging.State} {name : Nat → Byte} {r base n i j : Nat}
  {frames : List Nat}

theorem Registration.placed {size base : Nat} (hsize : size < 2 ^ 32)
    (hreg : Registration k name size base k') : Placed (k'.regions k.regionCount) := by
  have hbelow := hreg.below
  have hwrap := hreg.no_wrap
  have hlt : base < 2 ^ 32 := by
    rw [hreg.base_eq]
    omega
  have hsum : (base + size) % 2 ^ 32 = base + size := by omega
  rw [hreg.state]
  dsimp only
  rw [Function.update_self]
  refine ⟨?_, hreg.pages.2, hreg.pages.1, ?_⟩
  · change base % 4096 = 0
    rw [hreg.base_eq, Nat.mul_mod_left]
  · change base + size < physWindowBase
    rwa [hsum] at hbelow

/-- Every registered region is well placed. -/
theorem Registered.placed {kernelSize : Nat} {l : List Entry} (h : Registered kernelSize l k) :
    ∀ i, i < l.length → Placed (k.init.regions i) := by
  induction h with
  | nil => simp
  | @snoc l k k' name base size hprev hsize hcall ih =>
      have hinv := hprev.inv
      have hreg := kvaRegisterRegion_cases hcall
      rw [(hinv.registration hreg).init_eq]
      intro i hi
      by_cases hlast : i = l.length
      · rw [hlast, ← hinv.count]
        exact hreg.placed hsize
      · rw [List.length_append, List.length_singleton] at hi
        rw [hreg.state]
        dsimp only
        rw [Function.update_of_ne (by rw [hinv.count]; exact hlast)]
        exact ih i (by omega)

/-! ## The loop -/

/-- The first pages of the region, from page number `q` on, have been mapped to these frames. -/
structure Progress (s u : Paging.State) (q : Nat) (frames : List Nat) : Prop where
  moved : Moved frames s u
  nodup : frames.Nodup
  pages : ∀ j f, frames[j]? = some f →
    u.pageMap (q + j) = some ⟨f, Paging.pgPresent ||| Paging.pgRw⟩
  start : frames = [] → u = s

theorem Moved.held_busy {f : Nat} (h : Moved frames s u) (hf : f ∈ frames) :
    u.pmm.bit f = true :=
  (h.bits f (h.held_lt f hf)).mpr (.inr (.inl hf))

/-- The next frame is not one of those taken before. -/
theorem Progress.nodup_snoc {q f : Nat} (h : Progress s u q frames) (hfree : u.pmm.bit f = false) :
    (frames ++ [f]).Nodup := by
  refine h.nodup.append (List.nodup_singleton f) fun g hg hg' => ?_
  cases List.mem_singleton.mp hg'
  rw [Moved.held_busy h.moved hg] at hfree
  cases hfree

theorem Progress.snoc {q f : Nat} (h : Progress s u q frames)
    (hadded : Added u t (q + frames.length) f) : Progress s t q (frames ++ [f]) := by
  refine ⟨h.moved.trans hadded.moved, h.nodup_snoc (hadded.moved.held_free f (.head _)),
    fun j g hj => ?_, fun hnil => by simp at hnil⟩
  by_cases hlt : j < frames.length
  · rw [List.getElem?_append_left hlt] at hj
    exact hadded.keeps _ _ (h.pages j g hj)
  · have hlast : j = frames.length := by
      have := (List.getElem?_eq_some_iff.mp hj).1
      rw [List.length_append, List.length_singleton] at this
      omega
    subst hlast
    simp only [List.getElem?_concat_length, Option.some.injEq] at hj
    rw [← hj]
    exact hadded.added

theorem pageAddr_eq (halign : base % 4096 = 0) (hj : base + j * 4096 < 2 ^ 32) :
    pageAddr base j / 4096 = base / 4096 + j ∧ pageAddr base j % 4096 = 0 := by
  have heq : pageAddr base j = base + j * 4096 := Nat.mod_eq_of_lt hj
  clear hj
  rw [heq]
  omega

theorem pageAddr_lt (base j : Nat) : pageAddr base j < 2 ^ 32 := Nat.mod_lt _ (by decide)

/-- The rewinding frees what was mapped, and nothing else. -/
theorem rewind_moved {g : Nat} {rest : List Nat} (halign : base % 4096 = 0)
    (hend : base + i * 4096 < 2 ^ 32) (hi : j + rest.length = i)
    (hmoved : Moved (rest ++ [g]) s u) (hnodup : (rest ++ [g]).Nodup)
    (hpages : ∀ m f, rest[m]? = some f →
      u.pageMap (base / 4096 + (j + m)) = some ⟨f, Paging.pgPresent ||| Paging.pgRw⟩)
    (hret : rewind base i (rest.map (4096 * ·)) j u = .ok t) : Moved [g] s t := by
  induction rest generalizing j u with
  | nil =>
      cases hret
      exact hmoved
  | cons f rest ih =>
      rw [List.length_cons] at hi
      have hj : base + j * 4096 ≤ base + i * 4096 := by omega
      obtain ⟨hpage, hoffset⟩ := pageAddr_eq halign (Nat.lt_of_le_of_lt hj hend)
      have hfirst := hpages 0 f rfl
      rw [Nat.add_zero, ← hpage] at hfirst
      have hf : f ∉ rest ++ [g] := (List.nodup_cons.mp hnodup).1
      obtain ⟨v, hunmap, hstep, hmap⟩ :=
        pagingUnmapPage_result hmoved.good (pageAddr_lt base j) hoffset hfirst
      have hall := hmoved.trans hstep
      rw [List.append_nil] at hall
      obtain ⟨hdrop, hsame⟩ := hall.drop hf
      rw [List.map_cons, rewind, if_pos (by omega), hunmap, ok_bind] at hret
      refine ih (by omega) hdrop (List.nodup_cons.mp hnodup).2 (fun m f hm => ?_) hret
      rw [hsame, hmap, Function.update_of_ne (by omega)]
      have hrest := hpages (m + 1) f hm
      rwa [show j + (m + 1) = j + 1 + m by omega] at hrest

/-- How the loop ends. -/
inductive MapEnd (s : Paging.State) (q n : Nat) : Nat → Paging.State → Prop where
  | full {t : Paging.State} {frames : List Nat} (h : Progress s t q frames)
      (hlen : frames.length = n) : MapEnd s q n n t
  | noFrame {t : Paging.State} {frames : List Nat} (h : Progress s t q frames)
      (hlen : frames.length < n) (hbusy : ∀ f, f < t.pmm.frameCount → t.pmm.bit f = true) :
      MapEnd s q n frames.length t
  | refused {t : Paging.State} {i g : Nat} (hi : i < n) (h : Moved [g] s t) : MapEnd s q n i t

theorem mapPages_ends {m : Nat} (halign : base % 4096 = 0)
    (h : Progress s u (base / 4096) frames) (hend : base + (frames.length + n) * 4096 ≤ 2 ^ 32)
    (hret : mapPages base n frames.length (frames.map (4096 * ·)) u = .ok (m, t)) :
    MapEnd s (base / 4096) (frames.length + n) m t := by
  induction n generalizing frames u with
  | zero =>
      cases hret
      exact .full h rfl
  | succ n ih =>
      have hgood := h.moved.good
      have hnext := Pmm.getNext_spec hgood.sound
      have hoom := Pmm.getNext_oom_iff hgood.sound
      have hlt : base + frames.length * 4096 < 2 ^ 32 := by omega
      obtain ⟨hpage, hoffset⟩ := pageAddr_eq halign hlt
      unfold mapPages at hret
      generalize Pmm.pmmGetNextAvailableBlock u.pmm = r at hret hnext hoom
      cases hnext with
      | oom =>
          simp only [ne_eq, reduceCtorEq, not_false_eq_true, if_true, Except.ok.injEq,
            Prod.mk.injEq] at hret
          obtain ⟨rfl, rfl⟩ := hret
          exact .noFrame h (by omega) (hoom.mp (by simp))
      | @found f pmm htook =>
          have htake := Moved.take hgood htook
          have hmap := pageMap_withPmm hgood htook.bits
          simp only [ne_eq, not_true_eq_false, if_false] at hret
          obtain ⟨⟨mapRes, v⟩, hmapped, hret⟩ := bind_eq_ok.mp hret
          rcases pagingMapPage_result htake.good (pageAddr_lt base _) hoffset
            (hgood.sound.lt_pow htook.lt) hmapped with ⟨rfl, hadded⟩ | ⟨hfail, hnoPage⟩
          · rw [if_neg (by simp)] at hret
            have hkeeps := hadded.keeps
            have habsent := hadded.absent
            rw [KeepsPages, hmap] at hkeeps
            rw [hmap, hpage] at habsent
            have hnew := hadded.added
            rw [hpage] at hnew
            have hprogress : Progress s v (base / 4096) (frames ++ [f]) :=
              h.snoc ⟨htake.trans hadded.moved, habsent, hkeeps, hnew, fun hblank => by
                rw [hadded.exact (hblank.split htake hadded.moved).2, hmap, hpage]⟩
            have hlen : (frames ++ [f]).length = frames.length + 1 := by simp
            have hmap' : (frames ++ [f]).map (4096 * ·) = frames.map (4096 * ·) ++ [4096 * f] := by
              simp
            have hsum : frames.length + (n + 1) = (frames ++ [f]).length + n := by
              rw [hlen]
              omega
            rw [hsum] at hend ⊢
            rw [← hlen, ← hmap'] at hret
            exact ih hprogress hend hret
          · rw [if_pos hfail] at hret
            obtain ⟨w, hrewind, hret⟩ := bind_eq_ok.mp hret
            cases hret
            refine .refused (g := f) (by omega) ?_
            have hmoved := h.moved.trans (htake.trans hnoPage.moved)
            rw [List.append_nil] at hmoved
            refine rewind_moved halign hlt (Nat.zero_add _) hmoved (h.nodup_snoc htook.free)
              (fun j g hj => ?_) hrewind
            rw [Nat.zero_add]
            refine hnoPage.keeps _ _ ?_
            rw [hmap]
            exact h.pages j g hj

/-! ## The call -/

theorem kvaMapRegion_cases {ret : Bool} (hfind : k.find name = some r)
    (hret : kvaMapRegion k s name = .ok (ret, k', t)) :
    ∃ m, mapPages (k.regions r).base ((k.regions r).size / 4096) 0 [] s = .ok (m, t) ∧
      (m ≠ (k.regions r).size / 4096 ∧ ret = false ∧ k' = k ∨
        m = (k.regions r).size / 4096 ∧ ret = true ∧ (k'.regions r).mapped = true) := by
  unfold kvaMapRegion at hret
  rw [hfind] at hret
  dsimp only at hret
  split at hret
  · cases hret
  · obtain ⟨⟨m, u⟩, hpages, hret⟩ := bind_eq_ok.mp hret
    dsimp only at hret
    split at hret
    · rename_i hne
      cases hret
      exact ⟨m, hpages, .inl ⟨hne, rfl, rfl⟩⟩
    · rename_i heq
      cases hret
      refine ⟨m, hpages, .inr ⟨not_not.mp heq, rfl, ?_⟩⟩
      dsimp only
      rw [Function.update_self]

theorem Progress.backed {region : KvaRegion} (h : Progress s t (region.base / 4096) frames)
    (hlen : frames.length = region.size / 4096) : Backed s t region :=
  ⟨frames, hlen, h.nodup, fun f hf => ⟨h.moved.held_lt f hf, h.moved.held_free f hf⟩, h.pages⟩

/-- A frame that is kept cannot be there after all is undone. -/
theorem Moved.not_rewound {region : KvaRegion} {f : Nat} (h : Moved frames s t) (hf : f ∈ frames) :
    ¬ Rewound s t region := by
  intro hrewound
  have hfree := hrewound.frames f (h.held_lt f hf) (h.held_free f hf) (h.held_table f hf)
  rw [Moved.held_busy h hf] at hfree
  cases hfree

theorem sampleState_unmapped {free : Nat} {region : KvaRegion} (h : Placed region) :
    Unmapped (sampleState free) region := by
  intro j hj
  cases hpage : (sampleState free).pageMap (region.page j) with
  | none => rfl
  | some page =>
      have hbelow := h.below
      unfold KvaRegion.page at hpage
      unfold physWindowBase at hbelow
      rcases sampleState_page hpage with ⟨heq, -⟩ | ⟨heq, -⟩ <;> omega

/-- The name of a region. -/
def pool : Nat → Byte := chars ['p', 'o', 'o', 'l']

/-- A region of `size` bytes is registered first of all, and then mapped. -/
def firstRegion (free size : Nat) : Except Trap (State × Bool × State × Paging.State) := do
  let (_, k) ← kvaRegisterRegion 0x40000 .start pool size
  let r ← kvaMapRegion k (sampleState free) pool
  .ok (k, r)

theorem firstRegion_ok {free size : Nat} {ret : Bool} (hsize : size < 2 ^ 32)
    (h : firstRegion free size = .ok (k, ret, k', t)) :
    k.find pool = some 0 ∧ Placed (k.regions 0) ∧
      kvaMapRegion k (sampleState free) pool = .ok (ret, k', t) := by
  obtain ⟨⟨base, k₁⟩, hreg, h⟩ := bind_eq_ok.mp h
  obtain ⟨r, hmap, h⟩ := bind_eq_ok.mp h
  cases h
  have hrun : Registered 0x40000 ([] ++ [⟨pool, base, size⟩]) k := .snoc .nil hsize hreg
  have hready := hrun.ready (by simp)
  have hinv := hrun.inv
  have hplaced := hrun.placed 0 (by simp)
  rw [hready] at hinv hplaced
  exact ⟨hinv.find_eq (e := ⟨pool, base, size⟩) rfl, hplaced, hmap⟩

end Unidos.Kva
