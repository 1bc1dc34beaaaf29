import Unidos.Pmm.Seq

/-!
# The window of a sequence reservation

`pmm_reserve_pageframe_seq` cuts its window at the first frame it cannot use, but it looks for that
frame from the far end, so frames nearer to the start are not looked at once one is found. The
window is right exactly if at most one frame of the request is in the way
(`pmmReservePageframeSeq_sound_iff`).
-/

namespace Unidos.Pmm

open Lib

/-- A state with the sizes that `pmm_init` sets up; bitmap and region table are arbitrary. -/
structure State.Sized (s : State) : Prop where
  hint_lt : s.frameHint < s.frameCount
  count_le : s.frameCount ≤ 2 ^ 20
  size_eq : s.pagebitmapSizeBytes = (s.frameCount + 7) / 8

/-- Setting bits keeps the sizes. -/
theorem State.Sized.grows {s t : State} (h : s.Sized) (hgrow : Grows s t) : t.Sized where
  hint_lt := by rw [hgrow.hint, hgrow.count]; exact h.hint_lt
  count_le := by rw [hgrow.count]; exact h.count_le
  size_eq := by rw [hgrow.size, hgrow.count]; exact h.size_eq

/-- A frame that can be reserved: it exists, no region reserves it, and its bit is clear. -/
def State.Usable (s : State) (f : Nat) : Prop :=
  f < s.frameCount ∧ ¬ s.FrameReserved f ∧ s.bit f = false

/-- What a successful reservation of a window from frame `c` on is meant to give. -/
structure WindowSound (s : State) (requested : Nat) (clear : Bool) (r : SeqResult) (t : State)
    (c n : Nat) : Prop where
  count : r.outCount = some n
  pos : 1 ≤ n
  le : n ≤ requested
  addrs : r.outReserved = (List.range n).map fun i => 4096 * (c + i)
  usable : ∀ i, i < n → s.Usable (c + i)
  largest : ∀ k, k ≤ requested → (∀ i, i < k → s.Usable (c + i)) → k ≤ n
  /-- Memory changes only in the bitmap and, if they are to be zeroed, in the frames returned. -/
  mem : ∀ a, t.mem a ≠ s.mem a →
    (s.pagebitmapPhys ≤ a ∧ a < s.pagebitmapPhys + s.pagebitmapSizeBytes) ∨
      clear = true ∧ ∃ addr ∈ r.outReserved, addr ≤ a ∧ a < addr + 4096

/-- At most one frame of the request, counted from the first free one, cannot be used. -/
def AtMostOneObstacle (s : State) (requested : Nat) : Prop :=
  ∀ c, circFind s.frameCount s.reserveTest s.frameCount s.frameHint = some c →
    ∀ i j, i < j → j < requested → s.Usable (c + i) ∨ s.Usable (c + j)

variable {s : State}

theorem State.Sized.usable_iff (h : s.Sized) {f : Nat} (hf : f < s.frameCount) :
    s.Usable f ↔ s.reserveTest f = true := by
  have hcount := h.count_le
  have hlt : f < 2 ^ 20 := by omega
  rw [State.reserveTest, pmmQueryBitmap_frame s hf hlt, Bool.and_eq_true, Bool.not_eq_true',
    Bool.not_eq_true', ← Bool.not_eq_true, pmmIsRegionReserved_frame s hlt]
  exact ⟨fun h => h.2, fun h => ⟨hf, h⟩⟩

/-- Where the loop over the window stops: behind it no frame is in the way, and unless it went
through the whole request it stands at a frame that is. -/
theorem seqWindow_spec (h : s.Sized) (cur requested k : Nat) (hk : k ≤ requested) :
    (∀ i, seqWindow s cur requested k < i → i < k → s.Usable ((cur + i) % 2 ^ 32)) ∧
      (seqWindow s cur requested k < k →
        ¬ s.Usable ((cur + seqWindow s cur requested k) % 2 ^ 32)) ∧
      (k ≤ seqWindow s cur requested k → seqWindow s cur requested k = requested ∧
        ∀ i, i < k → s.Usable ((cur + i) % 2 ^ 32)) := by
  induction k with
  | zero => exact ⟨by simp, by simp, by simp [seqWindow]⟩
  | succ k ih =>
      obtain ⟨habove, hstop, hall⟩ := ih (by omega)
      by_cases hbad : s.Usable ((cur + k) % 2 ^ 32)
      · have heq : seqWindow s cur requested (k + 1) = seqWindow s cur requested k := by
          have htest := (h.usable_iff hbad.1).mp hbad
          simp only [State.reserveTest, Bool.and_eq_true, Bool.not_eq_true'] at htest
          simp only [seqWindow, if_neg (Nat.not_le.mpr hbad.1), htest.1, htest.2,
            Bool.false_eq_true, if_false]
        rw [heq]
        refine ⟨fun i hi hlt => ?_, fun hlt => ?_, fun hle => ?_⟩
        · rcases Nat.lt_succ_iff_lt_or_eq.mp hlt with hlt | rfl
          · exact habove i hi hlt
          · exact hbad
        · rcases Nat.lt_succ_iff_lt_or_eq.mp hlt with hlt | heqk
          · exact hstop hlt
          · -- the loop that went through `k` frames returns the whole request
            have := (hall heqk.ge).1
            omega
        · obtain ⟨hreq, hbelow⟩ := hall (by omega)
          refine ⟨hreq, fun i hi => ?_⟩
          rcases Nat.lt_succ_iff_lt_or_eq.mp hi with hi | rfl
          · exact hbelow i hi
          · exact hbad
      · have heq : seqWindow s cur requested (k + 1) = k := by
          unfold seqWindow
          dsimp only
          by_cases hlt : (cur + k) % 2 ^ 32 ≥ s.frameCount
          · rw [if_pos hlt]
          · have htest := mt (h.usable_iff (by omega)).mpr hbad
            simp only [State.reserveTest, Bool.and_eq_true, Bool.not_eq_true', not_and,
              Bool.not_eq_false] at htest
            rw [if_neg hlt]
            split
            · rfl
            · rename_i hres
              rw [if_pos (htest (by simpa using hres))]
        rw [heq]
        exact ⟨fun i hi hlt => by omega, fun _ => hbad, fun hle => by omega⟩

/-- A call that reports an error changes nothing. -/
theorem pmmReservePageframeSeq_fail {t : State} {requested : Nat}
    {outReserved outCount clear : Bool} {r : SeqResult}
    (hret : pmmReservePageframeSeq s requested outReserved outCount clear = .ok (r, t))
    (hfail : r.status ≠ .ok) : t = s := by
  unfold pmmReservePageframeSeq at hret
  split at hret
  · exact (Prod.mk.inj (Except.ok.inj hret)).2.symm
  · split at hret
    · exact (Prod.mk.inj (Except.ok.inj hret)).2.symm
    · rename_i cur _
      obtain ⟨res, s', hrange, hcases⟩ := pmmReserveRange_cases s
        (BitVec.ofNat 32 (frameAddr cur))
        (BitVec.ofNat 32 (frameAddr (seqWindow s cur requested requested))) true
      simp only [hrange, bind_eq_ok, Except.ok.injEq, exists_eq_left'] at hret
      split at hret
      · rename_i hres
        obtain ⟨-, rfl⟩ := Prod.mk.inj (Except.ok.inj hret)
        cases hcases with
        | invalid | full => rfl
        | appended | merged => simp at hres
      · split at hret
        all_goals
          obtain ⟨u, -, hret⟩ := bind_eq_ok.mp hret
          obtain ⟨rfl, -⟩ := Prod.mk.inj (Except.ok.inj hret)
          exact absurd rfl hfail

/-- With at most one obstacle the request ends at most one frame behind the end of memory. -/
theorem AtMostOneObstacle.le_frameCount {requested c : Nat} (h : AtMostOneObstacle s requested)
    (hfind : circFind s.frameCount s.reserveTest s.frameCount s.frameHint = some c)
    (hc : c < s.frameCount) : c + requested ≤ s.frameCount + 1 := by
  by_contra hlt
  rcases h c hfind (s.frameCount - c) (s.frameCount - c + 1) (by omega) (by omega) with hu | hu
  all_goals
    have := hu.1
    omega

theorem map_windowFrames {c n : Nat} (h : c + n ≤ 2 ^ 20) :
    (windowFrames c n).map frameAddr = (List.range n).map fun i => 4096 * (c + i) := by
  rw [windowFrames, List.map_map]
  refine List.map_congr_left fun i hi => ?_
  rw [List.mem_range] at hi
  rw [Function.comp_apply, Nat.mod_eq_of_lt (by omega), frameAddr_of_lt (by omega)]

/-- Marking a window inside memory writes bitmap bytes only. -/
theorem takeWindow_mem {c n a : Nat} (h : s.Sized) (hwin : c + n ≤ s.frameCount)
    (ha : a < s.pagebitmapPhys ∨ s.pagebitmapPhys + s.pagebitmapSizeBytes ≤ a) :
    (s.takeWindow c n).mem a = s.mem a := by
  have hcount := h.count_le
  have hsize := h.size_eq
  refine foldl_bmSet_mem_ne fun f hf => ?_
  have := (mem_windowFrames (by omega)).mp hf
  omega

/-- Frames behind a window that lies inside memory do not wrap around, because the last frame
number of all is not usable. -/
theorem State.Sized.usable_of_mod (h : s.Sized) {cur n requested : Nat}
    (hwin : cur + n ≤ s.frameCount)
    (habove : ∀ i, n < i → i < requested → s.Usable ((cur + i) % 2 ^ 32)) {j : Nat} (hn : n < j)
    (hj : j < requested) : s.Usable (cur + j) := by
  have hcount := h.count_le
  have hlt : cur + j < 2 ^ 32 := by
    by_contra hge
    have := (habove (2 ^ 32 - 1 - cur) (by omega) (by omega)).1
    omega
  have := habove j hn hj
  rwa [Nat.mod_eq_of_lt hlt] at this

/-- A reservation that reports success gives a window as it should, exactly if at most one frame
of the request was in the way; one that reports an error changes nothing. -/
theorem pmmReservePageframeSeq_sound_iff {t : State} {requested : Nat} {clear : Bool}
    {r : SeqResult} (h : s.Sized)
    (hret : pmmReservePageframeSeq s requested true true clear = .ok (r, t)) :
    (r.status ≠ .ok → t = s) ∧
      (r.status = .ok →
        ((∃ c n, WindowSound s requested clear r t c n) ↔ AtMostOneObstacle s requested)) := by
  refine ⟨pmmReservePageframeSeq_fail hret, fun hok => ?_⟩
  obtain ⟨cur, n, res, s', hfind, hn, hpos, hle, hres, hcases, hout, haddrs, mem, ht, hmem⟩ :=
    pmmReservePageframeSeq_ok h.hint_lt h.count_le hret hok
  have hcount := h.count_le
  have hcur := circFind_lt h.hint_lt hfind
  obtain ⟨habove, hstop, hall⟩ := seqWindow_spec h cur requested requested le_rfl
  rw [← hn] at habove hstop hall
  constructor
  · rintro ⟨c, n', hsound⟩ c' hc' i j hij hj
    rw [hfind, Option.some.injEq] at hc'
    subst hc'
    have hn' : n = n' := Option.some.inj (hout.symm.trans hsound.count)
    subst hn'
    have hc : c = cur := by
      have hfirst := congrArg List.head? (haddrs.symm.trans hsound.addrs)
      obtain ⟨k, rfl⟩ := Nat.exists_eq_add_of_le' hpos
      simp only [windowFrames, List.range_succ_eq_map, List.map_cons, List.head?_cons,
        Nat.add_zero, Option.some.injEq] at hfirst
      rw [Nat.mod_eq_of_lt (by omega), frameAddr_of_lt (by omega)] at hfirst
      omega
    subst hc
    have hwin : c + n ≤ s.frameCount := by
      have := (hsound.usable (n - 1) (by omega)).1
      omega
    by_cases hi : i < n
    · exact .inl (hsound.usable i hi)
    · exact .inr (h.usable_of_mod hwin habove (by omega) hj)
  · intro hone
    have hreq := hone.le_frameCount hfind hcur
    -- nothing wraps around, so the loop has looked at the frames themselves
    have hplain : ∀ i, i < requested → (cur + i) % 2 ^ 32 = cur + i := fun i hi =>
      Nat.mod_eq_of_lt (by omega)
    have hbad : n < requested → ¬ s.Usable (cur + n) := fun hlt => hplain n hlt ▸ hstop hlt
    have husable : ∀ i, i < n → s.Usable (cur + i) := by
      intro i hi
      rcases Nat.lt_or_ge n requested with hlt | hge
      · exact (hone cur hfind i n hi hlt).resolve_right (hbad hlt)
      · exact hplain i (by omega) ▸ (hall hge).2 i (by omega)
    have hwin : cur + n ≤ s.frameCount := by
      have := (husable (n - 1) (by omega)).1
      omega
    have hwindow := map_windowFrames (c := cur) (n := n) (by omega)
    refine ⟨cur, n, hout, hpos, hle, haddrs.trans hwindow, husable, fun k hk hk' => ?_,
      fun a ha => ?_⟩
    · by_contra hlt
      exact hbad (by omega) (hk' n (by omega))
    · by_contra hout
      obtain ⟨hbitmap, hframes⟩ := not_or.mp hout
      have hgrow := hcases.grows
      have hs' : s'.Sized := h.grows hgrow
      have houtside : a < s.pagebitmapPhys ∨ s.pagebitmapPhys + s.pagebitmapSizeBytes ≤ a := by
        omega
      have hmarked : (s'.takeWindow cur n).mem a = s.mem a := by
        rw [takeWindow_mem hs' (by rw [hgrow.count]; exact hwin)
          (by rw [hgrow.phys, hgrow.size]; exact houtside)]
        exact hgrow.mem a (by rw [← h.size_eq]; exact houtside)
      refine ha ?_
      rw [ht, ← hmarked]
      change mem a = _
      rw [hmem]
      split
      · rename_i hclear
        refine foldl_fillBytes_apply_ne _ fun addr haddr => ?_
        by_contra hin
        exact hframes ⟨hclear, addr, haddrs ▸ haddr, by omega, by omega⟩
      · rfl

/-- Four frames of which the second and third are taken; the second holds the bitmap. -/
def twoTaken : State :=
  { mem := fun a => if a = 0x1000 then 6 else 0, pagebitmapPhys := 0x1000,
    pagebitmapSizeBytes := 1, frameCount := 4, frameHint := 0, availableFrames := 2,
    usePhysWindowAlias := false, memRegions := [] }

/-- Asked for three frames, the call returns two, and the second of them was taken. -/
theorem taken_frame_returned :
    twoTaken.Sized ∧ ∃ r t, pmmReservePageframeSeq twoTaken 3 true true false = .ok (r, t) ∧
      r.status = .ok ∧ r.outReserved = [0, 0x1000] ∧ twoTaken.bit 1 = true ∧
      ¬ ∃ c n, WindowSound twoTaken 3 false r t c n := by
  obtain ⟨⟨r, t⟩, hret, htest⟩ := exists_of_okAnd (show
    okAnd (pmmReservePageframeSeq twoTaken 3 true true false)
      (fun p => decide (p.1.status = .ok ∧ p.1.outReserved = [0, 0x1000])) = true by
        decide +kernel)
  obtain ⟨hok, hframes⟩ := of_decide_eq_true htest
  have htaken : twoTaken.bit 1 = true := by decide +kernel
  refine ⟨⟨by decide, by decide, rfl⟩, r, t, hret, hok, hframes, htaken, ?_⟩
  rintro ⟨c, n, hsound⟩
  have haddrs := hframes.symm.trans hsound.addrs
  have hn : n = 2 := by simpa using (congrArg List.length haddrs).symm
  subst hn
  have hc : c = 0 := by
    simp only [List.range_succ, List.range_zero, List.nil_append, List.map_cons,
      List.map_nil, List.cons_append, List.cons.injEq] at haddrs
    omega
  subst hc
  have hfree := (hsound.usable 1 (by omega)).2.2
  rw [Nat.zero_add, htaken] at hfree
  simp at hfree

/-- A request of two frames in the same state is answered with the one free frame. -/
theorem pmmReservePageframeSeq_sound_iff_two :
    twoTaken.Sized ∧ ∃ r t, pmmReservePageframeSeq twoTaken 2 true true false = .ok (r, t) ∧
      r.status = .ok ∧
      ((∃ c n, WindowSound twoTaken 2 false r t c n) ↔ AtMostOneObstacle twoTaken 2) := by
  obtain ⟨⟨r, t⟩, hret, htest⟩ := exists_of_okAnd (show
    okAnd (pmmReservePageframeSeq twoTaken 2 true true false)
      (fun p => decide (p.1.status = .ok)) = true by decide +kernel)
  have hok := of_decide_eq_true htest
  have hsized : twoTaken.Sized := ⟨by decide, by decide, rfl⟩
  exact ⟨hsized, r, t, hret, hok, (pmmReservePageframeSeq_sound_iff hsized hret).2 hok⟩

end Unidos.Pmm
