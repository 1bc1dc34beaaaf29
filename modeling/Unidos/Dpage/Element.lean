import Unidos.Dpage.Frames

/-!
# Mapping the pages of an element

What the loop over the pages of an element can do. `Round` lists the outcomes of one round before
the first page is taken away again, `mapElement_cases` those of the loop.
-/

namespace Unidos.Dpage

open Lib Paging

variable {s t u : Paging.State} {page first f q : Nat} {pool : Pool} {slot : Nat}

/-- `need_map` looks the page up in the map. -/
theorem needMap_eq (h : Good s) (hpage : page < 2 ^ 32) :
    needMap s page = .ok (s.pageMap (page / 4096)).isNone := by
  have hpdi : page / 2 ^ 22 = pdiOf page := by
    unfold pdiOf
    omega
  unfold needMap
  rw [physToVirt_of_lt h.reach.dir_lt, ok_bind, hpdi, h.wired.readWord_dir]
  by_cases hpresent : entryPresent (s.dirEntry (pdiOf page)) = true
  · rw [if_neg (by simp [hpresent]), physToVirt_of_lt (h.reach.table_lt _ (pdiOf_lt page) hpresent),
      ok_bind, entryPhys_eq, readWord_page, pageMap_of_present hpage hpresent]
    cases hentry : entryPresent (s.pageEntry (pdiOf page) (ptiOf page)) with
    | true =>
        rw [Option.guard, if_pos hentry]
        rfl
    | false =>
        rw [Option.guard, if_neg (by simp [hentry])]
        rfl
  · rw [if_pos (by simpa using hpresent), pageMap_absent hpage (by simpa using hpresent)]
    rfl

/-- A page was added in a frame that the call took for it. -/
structure Added (s t : Paging.State) (q f : Nat) : Prop where
  moved : Moved [f] s t
  absent : s.pageMap q = none
  keeps : KeepsPages s t
  added : t.pageMap q = some ⟨f, storedFlags (pgPresent ||| pgRw)⟩
  exact : TablesBlank s t →
    t.pageMap = Function.update s.pageMap q (some ⟨f, storedFlags (pgPresent ||| pgRw)⟩)

/-- What a round does for a page, before the first page is taken away again. -/
inductive Round (s : Paging.State) (q : Nat) : Except Status Bool → Paging.State → Prop where
  | present (h : (s.pageMap q).isSome = true) : Round s q (.ok false) s
  | added {t : Paging.State} {f : Nat} (h : Added s t q f) : Round s q (.ok true) t
  | full (habsent : s.pageMap q = none)
      (h : ∀ f, f < s.pmm.frameCount → s.pmm.bit f = true) :
      Round s q (.error .pmmInitFailed) s
  | refused {t : Paging.State} (habsent : s.pageMap q = none) (h : NoPage s t) :
      Round s q (.error .pgInitFailed) t

/-- The undoing that belongs to an outcome of round `p`. -/
def undoOf (first p : Nat) (mapped : Bool) (u : Paging.State) :
    Except Status Bool → Except Trap Paging.State
  | .error .pmmInitFailed => if p > 0 then undoFirst u first else .ok u
  | .error .pgInitFailed => if p > 0 ∧ mapped = true then undoFirst u first else .ok u
  | _ => .ok u

theorem mapRound_cases {p : Nat} {mapped : Bool} {res : Except Status Bool} (h : Good s)
    (hpage : page < 2 ^ 32) (halign : page % 4096 = 0)
    (hret : mapRound s first p page mapped = .ok (res, t)) :
    ∃ u, Round s (page / 4096) res u ∧ undoOf first p mapped u res = .ok t := by
  unfold mapRound at hret
  rw [needMap_eq h hpage, ok_bind] at hret
  split at hret
  · rename_i hneed
    simp only [Except.ok.injEq, Prod.mk.injEq] at hret
    obtain ⟨rfl, rfl⟩ := hret
    exact ⟨s, .present (by simpa [Option.isSome_iff_ne_none] using hneed), rfl⟩
  · rename_i hneed
    have habsent : s.pageMap (page / 4096) = none := by simpa using hneed
    have hnext := Pmm.getNext_spec h.sound
    have hoom := Pmm.getNext_oom_iff h.sound
    generalize Pmm.pmmGetNextAvailableBlock s.pmm = r at hret hnext hoom
    cases hnext with
    | oom =>
        have hfull := hoom.mp (by simp)
        simp only [ne_eq, reduceCtorEq, not_false_eq_true, if_true] at hret
        split at hret
        · rename_i hp
          obtain ⟨v, hundo, hret⟩ := bind_eq_ok.mp hret
          simp only [Except.ok.injEq, Prod.mk.injEq] at hret
          obtain ⟨rfl, rfl⟩ := hret
          exact ⟨s, .full habsent hfull, by rw [undoOf, if_pos hp]; exact hundo⟩
        · rename_i hp
          simp only [Except.ok.injEq, Prod.mk.injEq] at hret
          obtain ⟨rfl, rfl⟩ := hret
          exact ⟨s, .full habsent hfull, by rw [undoOf, if_neg hp]⟩
    | @found f pmm htook =>
        have htake := Moved.take h htook
        have hmap := pageMap_withPmm h htook.bits
        simp only [ne_eq, not_true_eq_false, if_false] at hret
        obtain ⟨⟨mapRes, v⟩, hmapped, hret⟩ := bind_eq_ok.mp hret
        rcases pagingMapPage_result htake.good hpage halign (h.sound.lt_pow htook.lt) hmapped with
          ⟨rfl, hadded⟩ | ⟨hfail, hnoPage⟩
        · simp only [not_true_eq_false, if_false, Except.ok.injEq, Prod.mk.injEq] at hret
          obtain ⟨rfl, rfl⟩ := hret
          refine ⟨v, .added ⟨htake.trans hadded.moved, habsent, ?_, hadded.added, fun hblank => ?_⟩,
            rfl⟩
          · have hkeeps := hadded.keeps
            rwa [KeepsPages, hmap] at hkeeps
          · rw [hadded.exact (hblank.split htake hadded.moved).2, hmap]
        · obtain ⟨hdrop, hsame⟩ := (htake.trans hnoPage.moved).drop (by simp)
          dsimp only at hret
          rw [if_pos hfail] at hret
          have hkeeps : KeepsPages s v := by
            have hkeeps := hnoPage.keeps
            rwa [KeepsPages, hmap] at hkeeps
          have hround := Round.refused (q := page / 4096) habsent
            ⟨hdrop, fun q m hq => by rw [hsame]; exact hkeeps q m hq⟩
          split at hret
          · rename_i hp
            obtain ⟨w, hundo, hret⟩ := bind_eq_ok.mp hret
            simp only [Except.ok.injEq, Prod.mk.injEq] at hret
            obtain ⟨rfl, rfl⟩ := hret
            exact ⟨_, hround, by rw [undoOf, if_pos hp]; exact hundo⟩
          · rename_i hp
            simp only [Except.ok.injEq, Prod.mk.injEq] at hret
            obtain ⟨rfl, rfl⟩ := hret
            exact ⟨_, hround, by rw [undoOf, if_neg hp]⟩

/-- Taking away a page that this call mapped. -/
theorem undoFirst_held {held : List Nat} {flags : BitVec 32} (h : Moved (f :: held) s u)
    (hf : f ∉ held) (hfirst : first < 2 ^ 32) (halign : first % 4096 = 0)
    (hpage : u.pageMap (first / 4096) = some ⟨f, flags⟩) (hret : undoFirst u first = .ok t) :
    Moved held s t ∧ t.pageMap = Function.update u.pageMap (first / 4096) none := by
  obtain ⟨v, hunmap, hmoved, hmap⟩ := pagingUnmapPage_result h.good hfirst halign hpage
  unfold undoFirst at hret
  rw [hunmap, ok_bind] at hret
  obtain rfl := Except.ok.inj hret
  have hall := h.trans hmoved
  rw [List.append_nil] at hall
  obtain ⟨hdrop, hsame⟩ := hall.drop hf
  exact ⟨hdrop, hsame.trans hmap⟩

/-- A page is there, mapped before or by this step. -/
inductive Grown (s : Paging.State) (q : Nat) : Paging.State → Prop where
  | same (h : (s.pageMap q).isSome = true) : Grown s q s
  | added {t : Paging.State} {f : Nat} (h : Added s t q f) : Grown s q t

theorem Grown.isSome (h : Grown s q t) : (t.pageMap q).isSome = true := by
  cases h with
  | same h => exact h
  | added h =>
      rw [h.added]
      rfl

/-- A round that goes on. -/
theorem Round.grown {b : Bool} (h : Round s q (.ok b) t) : Grown s q t := by
  cases h with
  | present h => exact .same h
  | added h => exact .added h

/-- The first page is there, the second is not, and there is no frame for it. -/
structure Stuck (pool : Pool) (s : Paging.State) (slot : Nat) : Prop where
  two : pool.second slot ≠ pool.first slot
  first : (s.pageMap (pool.first slot / 4096)).isSome = true
  second : s.pageMap (pool.second slot / 4096) = none
  full : ∀ f, f < s.pmm.frameCount → s.pmm.bit f = true

theorem first_lt (pool : Pool) (slot : Nat) : pool.first slot < 2 ^ 32 := by
  unfold Pool.first Pool.vaddr
  omega

theorem second_lt (pool : Pool) (slot : Nat) : pool.second slot < 2 ^ 32 := by
  unfold Pool.second
  omega

theorem first_aligned (pool : Pool) (slot : Nat) : pool.first slot % 4096 = 0 := by
  unfold Pool.first
  omega

theorem second_aligned (pool : Pool) (slot : Nat) : pool.second slot % 4096 = 0 := by
  unfold Pool.second
  omega

/-- After a page that the call mapped was taken away again, no page has changed. -/
theorem noPage_undo {flags : BitVec 32} (h : Moved [f] s u) (hkeeps : KeepsPages s u)
    (hfirst : first < 2 ^ 32) (halign : first % 4096 = 0)
    (habsent : s.pageMap (first / 4096) = none)
    (hpage : u.pageMap (first / 4096) = some ⟨f, flags⟩) (hret : undoFirst u first = .ok t) :
    NoPage s t := by
  obtain ⟨hmoved, hmap⟩ := undoFirst_held h (by simp) hfirst halign hpage hret
  refine ⟨hmoved, fun q page hq => ?_⟩
  rw [hmap, Function.update_of_ne, hkeeps q page hq]
  rintro rfl
  simp [habsent] at hq

theorem mapElement_cases {failed : Option Status} (h : Good s)
    (hret : mapElement pool s slot = .ok (failed, t)) :
    (failed = none ∧ ∃ u, Grown s (pool.first slot / 4096) u ∧
      Grown u (pool.second slot / 4096) t) ∨
    (failed ≠ none ∧ (NoPage s t ∨
      (Stuck pool s slot ∧ undoFirst s (pool.first slot) = .ok t))) := by
  have hfirst := first_lt pool slot
  have hsecond := second_lt pool slot
  have haligned := first_aligned pool slot
  have haligned' := second_aligned pool slot
  unfold mapElement at hret
  obtain ⟨⟨res, u⟩, hround, hret⟩ := bind_eq_ok.mp hret
  obtain ⟨u', hcases, hundo⟩ := mapRound_cases h hfirst haligned hround
  cases res with
  | error status =>
      simp only [Except.ok.injEq, Prod.mk.injEq] at hret
      obtain ⟨rfl, rfl⟩ := hret
      refine .inr ⟨by simp, .inl ?_⟩
      -- nothing is taken away in the first round
      cases hcases with
      | full habsent hfull =>
          obtain rfl := Except.ok.inj hundo
          exact ⟨.refl h, fun _ _ hq => hq⟩
      | refused habsent hnoPage =>
          obtain rfl := Except.ok.inj hundo
          exact hnoPage
  | ok mapped =>
      obtain rfl := Except.ok.inj hundo
      dsimp only at hret
      split at hret
      · rename_i hsame
        simp only [Except.ok.injEq, Prod.mk.injEq] at hret
        obtain ⟨rfl, rfl⟩ := hret
        refine .inl ⟨rfl, u', hcases.grown, .same ?_⟩
        rw [hsame]
        exact hcases.grown.isSome
      · rename_i htwo
        have hgood : Good u' := by
          cases hcases with
          | present => exact h
          | added hadded => exact hadded.moved.good
        obtain ⟨⟨res, w⟩, hround, hret⟩ := bind_eq_ok.mp hret
        obtain ⟨v, hcases', hundo⟩ := mapRound_cases hgood hsecond haligned' hround
        cases res with
        | ok b =>
            simp only [Except.ok.injEq, Prod.mk.injEq] at hret
            obtain ⟨rfl, rfl⟩ := hret
            obtain rfl := Except.ok.inj hundo
            exact .inl ⟨rfl, u', hcases.grown, hcases'.grown⟩
        | error status =>
            simp only [Except.ok.injEq, Prod.mk.injEq] at hret
            obtain ⟨rfl, rfl⟩ := hret
            refine .inr ⟨by simp, ?_⟩
            cases hcases with
            | present hthere =>
                cases hcases' with
                | full habsent hfull => exact .inr ⟨⟨htwo, hthere, habsent, hfull⟩, hundo⟩
                | refused habsent hnoPage =>
                    obtain rfl := Except.ok.inj hundo
                    exact .inl hnoPage
            | added hadded =>
                left
                cases hcases' with
                | full habsent hfull =>
                    exact noPage_undo hadded.moved hadded.keeps hfirst haligned hadded.absent
                      hadded.added hundo
                | refused habsent hnoPage =>
                    exact noPage_undo (hadded.moved.trans hnoPage.moved)
                      (hadded.keeps.trans hnoPage.keeps) hfirst haligned hadded.absent
                      (hnoPage.keeps _ _ hadded.added) hundo

end Unidos.Dpage
