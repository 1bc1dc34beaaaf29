import Unidos.Pmm.Seq
import Unidos.Lib.PageTable

/-!
# What clients of the memory manager rely on

`State.Sound` is the invariant with the bitmap's own frames marked. A client that allocates gets a
frame that was free, and memory outside the bitmap stays as it was (`BitsOnly`); a client that
frees a frame it was given gets it back into the pool. A client that reserves a frame gets it
cleared (`Secured`).
-/

namespace Unidos.Pmm

open Lib

/-- The invariant, and the frames that hold the bitmap are marked. -/
structure State.Sound (s : State) : Prop extends State.Inv s where
  bitmap_set : ∀ f, f < s.frameCount → s.HoldsBitmap f → s.bit f = true

/-- The states differ in the hint, the counter, and the bytes of the bitmap only. -/
structure BitsOnly (s t : State) : Prop where
  phys : t.pagebitmapPhys = s.pagebitmapPhys
  size : t.pagebitmapSizeBytes = s.pagebitmapSizeBytes
  count : t.frameCount = s.frameCount
  window : t.usePhysWindowAlias = s.usePhysWindowAlias
  regions : t.memRegions = s.memRegions
  mem : ∀ a, a < s.pagebitmapPhys ∨ s.pagebitmapPhys + (s.frameCount + 7) / 8 ≤ a →
    t.mem a = s.mem a

variable {s t u : State}

theorem BitsOnly.refl (s : State) : BitsOnly s s := ⟨rfl, rfl, rfl, rfl, rfl, fun _ _ => rfl⟩

theorem BitsOnly.trans (h : BitsOnly s t) (h' : BitsOnly t u) : BitsOnly s u := by
  refine ⟨h'.phys.trans h.phys, h'.size.trans h.size, h'.count.trans h.count,
    h'.window.trans h.window, h'.regions.trans h.regions, fun a ha => ?_⟩
  rw [h'.mem a (by rw [h.phys, h.count]; exact ha), h.mem a ha]

theorem BitsOnly.holdsBitmap (h : BitsOnly s t) (f : Nat) : t.HoldsBitmap f ↔ s.HoldsBitmap f := by
  unfold State.HoldsBitmap
  rw [h.phys, h.size]

theorem BitsOnly.frameReserved (h : BitsOnly s t) (f : Nat) :
    t.FrameReserved f ↔ s.FrameReserved f := by
  unfold State.FrameReserved
  rw [h.regions]

/-- Frames without bitmap bytes keep their contents. -/
theorem BitsOnly.agreeOn (h : BitsOnly s t) (hs : s.Inv) {f : Nat} (hf : ¬ s.HoldsBitmap f) :
    AgreeOn s.mem t.mem f := by
  intro a h1 h2
  unfold State.HoldsBitmap Touches at hf
  rw [hs.size_eq] at hf
  exact h.mem a (by omega)

/-- Frame `f` was free, and going from `s` to `t` takes it. -/
structure Took (s : State) (f : Nat) (t : State) : Prop where
  lt : f < s.frameCount
  free : s.bit f = false
  unreserved : ¬ s.FrameReserved f
  bits : BitsOnly s t
  sound : t.Sound
  set : ∀ g, t.bit g = (decide (g = f) || s.bit g)

/-- What an allocation does. -/
inductive GetNext (s : State) : Alloc × State → Prop where
  | oom : GetNext s (⟨.allocOom, 0⟩, s)
  | found {f : Nat} {t : State} (h : Took s f t) : GetNext s (⟨.allocSuccess, 4096 * f⟩, t)

theorem getNext_spec (h : s.Sound) : GetNext s (pmmGetNextAvailableBlock s) := by
  have hinv := pmmGetNextAvailableBlock_inv h.toInv
  rcases pmmGetNextAvailableBlock_cases h.toInv with heq | ⟨f, hf, hfree, heq⟩
  · rw [heq]
    exact .oom
  · rw [heq] at hinv ⊢
    have hmem : ∀ a, a < s.pagebitmapPhys ∨ s.pagebitmapPhys + (s.frameCount + 7) / 8 ≤ a →
        (s.take f).mem a = s.mem a := fun a ha => bmSet_mem_ne (by omega)
    refine .found ⟨hf, hfree, h.not_reserved hf hfree, ⟨rfl, rfl, rfl, rfl, rfl, hmem⟩,
      ⟨hinv, fun g hg hhold => ?_⟩, bit_bmSet s f⟩
    change (bmSet s f).bit g = true
    rw [bit_bmSet, h.bitmap_set g hg hhold]
    simp

/-- Memory is out exactly if every frame is allocated. -/
theorem getNext_oom_iff (h : s.Sound) : (pmmGetNextAvailableBlock s).1.status ≠ .allocSuccess ↔
    ∀ f, f < s.frameCount → s.bit f = true := by
  constructor
  · intro hstatus f hf
    have hcount : s.frameCount ≠ 0 := by omega
    unfold pmmGetNextAvailableBlock at hstatus
    rw [if_neg hcount, if_neg h.phys_ne] at hstatus
    cases hscan : circFind s.frameCount s.scanTest s.frameCount s.frameHint with
    | none =>
        have htest := circFind_round h.hint_lt hscan hf
        by_contra hbit
        rw [(scanTest_iff s f).mpr (by simpa using hbit)] at htest
        simp at htest
    | some g =>
        have hg := circFind_lt h.hint_lt hscan
        have hfree := (scanTest_iff s g).mp (circFind_sound hscan)
        have hres := mt (pmmIsRegionReserved_frame s (h.lt_pow hg)).mp (h.not_reserved hg hfree)
        simp [hscan, hres] at hstatus
  · intro hfull
    have hnext := getNext_spec h
    generalize pmmGetNextAvailableBlock s = r at hnext
    cases hnext with
    | oom => simp
    | found htook =>
        have hfree := htook.free
        simp [hfull _ htook.lt] at hfree

/-- Giving back an allocated frame that is neither reserved nor part of the bitmap. -/
theorem dealloc_spec (h : s.Sound) {f : Nat} (hf : f < s.frameCount) (hset : s.bit f = true)
    (hres : ¬ s.FrameReserved f) (hbitmap : ¬ s.HoldsBitmap f) :
    ∃ t, pmmDeallocSpecificBlock s (4096 * f) = (.allocSuccess, t) ∧ BitsOnly s t ∧ t.Sound ∧
      ∀ g, t.bit g = (!decide (g = f) && s.bit g) := by
  have hinv := pmmDeallocSpecificBlock_inv h.toInv (4096 * f)
  have hlt := h.lt_pow hf
  have hquery := pmmQueryBitmap_frame s hf hlt
  have hreserved := mt (pmmIsRegionReserved_frame s hlt).mp hres
  rw [frameAddr_of_lt hlt] at hquery hreserved
  have hcount : s.frameCount ≠ 0 := by omega
  have hdiv : 4096 * f / 4096 = f := by omega
  have halign : 4096 * f % 4096 = 0 := by omega
  have heq : pmmDeallocSpecificBlock s (4096 * f) =
      (.allocSuccess, bmClear { s with frameHint := f } f) := by
    simp [pmmDeallocSpecificBlock, hcount, h.phys_ne, hdiv, hf, hreserved, hquery, hset]
  rw [heq] at hinv
  have hmem : ∀ a, a < s.pagebitmapPhys ∨ s.pagebitmapPhys + (s.frameCount + 7) / 8 ≤ a →
      (bmClear { s with frameHint := f } f).mem a = s.mem a :=
    fun a ha => bmClear_mem_ne (s := { s with frameHint := f }) (by
      change a ≠ s.pagebitmapPhys + f / 8
      omega)
  refine ⟨_, heq, ⟨rfl, rfl, rfl, rfl, rfl, hmem⟩, ⟨hinv, fun g hg hhold => ?_⟩,
    bit_bmClear _ f⟩
  have hne : g ≠ f := fun hgf => hbitmap (hgf ▸ hhold)
  rw [bit_bmClear]
  simp only [hne, decide_false, Bool.not_false, Bool.true_and]
  exact h.bitmap_set g hg hhold

/-- Whatever is given back, only bits of the bitmap change. -/
theorem dealloc_bitsOnly (h : s.Sound) (addr : Nat) :
    BitsOnly s (pmmDeallocSpecificBlock s addr).2 := by
  rcases pmmDeallocSpecificBlock_cases h.toInv addr with ⟨-, heq⟩ | ⟨f, -, hf, -, -, heq⟩
  · rw [heq]
    exact .refl s
  · rw [heq]
    refine ⟨rfl, rfl, rfl, rfl, rfl, fun a ha => bmClear_mem_ne ?_⟩
    change a ≠ s.pagebitmapPhys + f / 8
    omega

/-- Writes outside the bitmap keep the state sound. -/
theorem State.Sound.withMem (h : s.Sound) {mem : Memory}
    (hmem : ∀ f, s.HoldsBitmap f → AgreeOn s.mem mem f) : State.Sound { s with mem := mem } := by
  have hbytes : ∀ a, s.pagebitmapPhys ≤ a →
      a < s.pagebitmapPhys + (s.frameCount + 7) / 8 → mem a = s.mem a := by
    intro a h1 h2
    refine hmem (a / 4096) ⟨by omega, ?_⟩ a (by omega) (by omega)
    rw [h.size_eq]
    omega
  exact ⟨h.toInv.withMem hbytes, fun f hf hhold =>
    (bit_withMem s hbytes hf).trans (h.bitmap_set f hf hhold)⟩

/-- Writes outside the bitmap change no bit. -/
theorem State.Sound.bit_withMem (h : s.Sound) (mem : Memory)
    (hmem : ∀ f, s.HoldsBitmap f → AgreeOn s.mem mem f) {g : Nat} (hg : g < s.frameCount) :
    ({ s with mem := mem } : State).bit g = s.bit g := by
  refine Pmm.bit_withMem s (fun a h1 h2 => ?_) hg
  refine hmem (a / 4096) ⟨by omega, ?_⟩ a (by omega) (by omega)
  rw [h.size_eq]
  omega

/-! ## Reserving a frame -/

/-- The frame `f` was free, and is reserved and cleared. -/
structure Secured (s : State) (f : Nat) (t : State) : Prop where
  lt : f < s.frameCount
  free : s.bit f = false
  phys : t.pagebitmapPhys = s.pagebitmapPhys
  size : t.pagebitmapSizeBytes = s.pagebitmapSizeBytes
  count : t.frameCount = s.frameCount
  sound : t.Sound
  set : ∀ g, g < s.frameCount → t.bit g = (decide (g = f) || s.bit g)
  mem : ∀ g, g ≠ f → ¬ s.HoldsBitmap g → AgreeOn s.mem t.mem g

/-- Reserving and marking one frame sets exactly its bit. -/
theorem ReserveCases.bit_take {s' : State} {f g : Nat} {res : ReserveResult} (hs : s.Inv)
    (h : ReserveCases s (BitVec.ofNat 32 (frameAddr f)) 4096#32 true res s')
    (hf : f < s.frameCount) (hg : g < s.frameCount) :
    (s'.take f).bit g = (decide (g = f) || s.bit g) := by
  have hbase := hs.toNat_frameAddr hf
  change (bmSet s' f).bit g = _
  rw [bit_bmSet]
  by_cases hgf : g = f
  · rw [decide_eq_true hgf, Bool.true_or, Bool.true_or]
  · rw [decide_eq_false hgf, Bool.false_or, Bool.false_or]
    cases hold : s.bit g with
    | true => exact h.grows.bit g hg hold
    | false =>
        by_contra hset
        rcases h.bit_sub hs hg (by simpa using hset) with hbit | ⟨a, h1, h2, h3, h4⟩
        · rw [hold] at hbit
          cases hbit
        · have hlen : (4096#32).toNat = 4096 := rfl
          omega

theorem reservePageframe_spec {st : PagingStatus} {addr : Option Nat} (h : s.Sound)
    (hret : pmmReservePageframe s true true = .ok (st, addr, t)) :
    (st ≠ .ok ∧ t = s) ∨ ∃ f, st = .ok ∧ addr = some (4096 * f) ∧ Secured s f t := by
  have hcare : (Op.reservePageframe true true).Careful s := h.bitmap_set
  have hinv := pmmReservePageframe_inv h.toInv hcare hret
  rcases pmmReservePageframe_cases h.toInv hret with
    hfail | ⟨f, res, s', hf, -, hfree, hcases, rfl, rfl, ht⟩
  · exact .inl hfail
  · rw [if_pos rfl] at ht
    have hgrow := hcases.grows
    have hsize := h.size_eq
    have hbitmap : ¬ s.HoldsBitmap f := by
      intro hholds
      rw [h.bitmap_set f hf hholds] at hfree
      cases hfree
    have hset : ∀ g, g < s.frameCount → t.bit g = (decide (g = f) || s.bit g) := by
      intro g hg
      rw [← hcases.bit_take h.toInv hf hg, ht]
      refine bit_withMem _ (fun a h1 h2 => ?_) (hgrow.count ▸ hg)
      refine Memory.fillBytes_apply_ne _ _ ?_
      change s'.pagebitmapPhys ≤ a at h1
      change a < s'.pagebitmapPhys + (s'.frameCount + 7) / 8 at h2
      rw [hgrow.phys] at h1 h2
      rw [hgrow.count] at h2
      unfold State.HoldsBitmap Touches at hbitmap
      omega
    have hphys : t.pagebitmapPhys = s.pagebitmapPhys := ht ▸ hgrow.phys
    have htsize : t.pagebitmapSizeBytes = s.pagebitmapSizeBytes := ht ▸ hgrow.size
    have hcount : t.frameCount = s.frameCount := ht ▸ hgrow.count
    refine .inr ⟨f, rfl, rfl, hf, hfree, hphys, htsize, hcount, ⟨hinv, fun g hg hholds => ?_⟩,
      hset, fun g hne hholds a h1 h2 => ?_⟩
    · rw [hcount] at hg
      unfold State.HoldsBitmap at hholds
      rw [hphys, htsize] at hholds
      rw [hset g hg, h.bitmap_set g hg hholds, Bool.or_true]
    · unfold State.HoldsBitmap Touches at hholds
      rw [ht]
      change (s'.take f).mem.fillBytes (4096 * f) 4096 0 a = s.mem a
      have hout : a < s.pagebitmapPhys ∨ s.pagebitmapPhys + (s.frameCount + 7) / 8 ≤ a := by omega
      rw [Memory.fillBytes_apply_ne _ _ (by omega), ← hgrow.mem a hout]
      refine bmSet_mem_ne ?_
      rw [hgrow.phys]
      omega

end Unidos.Pmm
