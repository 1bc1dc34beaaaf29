import Unidos.Mm.Destroy
import Unidos.Mm.MapRegion

/-!
# Cloning an address space

`mm_clone_user_eager` copies the parent's user half entry by entry. `Copies` is the invariant of
its loops: what has been copied has the parent's flags and bytes in frames that were free, nothing
else has been added to the child, and every other address space is as it was.
`mmCloneUserEager_spec` covers all ways out, among them those that give up and destroy the child.
-/

namespace Unidos.Mm

open Lib

/-- The parts of `p` in `done` have been copied to `c`, since the child was created in state `s₁`.
Frames of `old` were allocated before. -/
structure Copies (old : Nat → Prop) (s₁ s : State) (p c : Nat) (done : Role → Prop) : Prop where
  old_taken : ∀ g, old g → s.Taken g
  steady : Steady s₁ s
  own_ne : ∀ k g, k.1 ≠ c → (s.Own k g ↔ s₁.Own k g)
  mem_ne : ∀ k g, k.1 ≠ c → s₁.Own k g → AgreeOn s₁.mem s.mem g
  copy : ∀ r f, r ≠ .dir → s₁.Own (p, r) f → done r → ∃ f', s.Own (c, r) f' ∧
    entryFlags (roleEntry s.mem (s.dirFrame c) r) =
      entryFlags (roleEntry s₁.mem (s₁.dirFrame p) r) ∧
    ∀ i j, r = .page i j → ∀ k, k < 4096 → s.mem (4096 * f' + k) = s₁.mem (4096 * f + k)
  only : ∀ r f', s.Own (c, r) f' → r = .dir ∨ (done r ∧ ∃ f, s₁.Own (p, r) f)
  fresh : ∀ r f', s.Own (c, r) f' → ¬ old f'

variable {B old : Nat → Prop} {l : List Nat} {s s₁ t : State} {lists : Nat → List Nat}
  {p c : Nat} {done done' : Role → Prop}

namespace Copies

theorem congr (h : Copies old s₁ s p c done) (done' : Role → Prop)
    (hdone : ∀ r f, s₁.Own (p, r) f → (done' r ↔ done r)) : Copies old s₁ s p c done' :=
  ⟨h.old_taken, h.steady, h.own_ne, h.mem_ne,
    fun r f hr hf hd => h.copy r f hr hf ((hdone r f hf).mp hd),
    fun r f' hf' => (h.only r f' hf').imp_right fun ⟨hd, f, hf⟩ =>
      ⟨(hdone r f hf).mpr hd, f, hf⟩, h.fresh⟩

/-- Moves of the kernel do not disturb the copy. -/
theorem calm (h : Copies old s₁ s p c done) (hcalm : Calm l s t) :
    Copies old s₁ t p c done := by
  have hdir : t.dirFrame c = s.dirFrame c := by rw [State.dirFrame, hcalm.mms, State.dirFrame]
  refine ⟨fun g hg => hcalm.taken g (h.old_taken g hg), h.steady.trans (.ofCalm hcalm),
    fun k g hk => (hcalm.own k g).trans (h.own_ne k g hk), fun k g hk hg => ?_,
    fun r f hr hf hd => ?_, fun r f' hf' => h.only r f' ((hcalm.own _ _).mp hf'),
    fun r f' hf' => h.fresh r f' ((hcalm.own _ _).mp hf')⟩
  · exact (h.mem_ne k g hk hg).trans (hcalm.own_mem k g ((h.own_ne k g hk).mpr hg))
  · obtain ⟨f', hf', hflags, hbytes⟩ := h.copy r f hr hf hd
    refine ⟨f', (hcalm.own _ _).mpr hf', ?_, fun i j hij k hk => ?_⟩
    · rw [← hflags, hdir]
      refine congrArg entryFlags (roleEntry_congr maxPde_le (fun g hg => ?_) hf'.2)
      rcases hg with hd | ⟨i, htable⟩
      · exact hcalm.own_mem (c, .dir) g ⟨hf'.1, hd⟩
      · exact hcalm.own_mem (c, .table i) g ⟨hf'.1, htable⟩
    · rw [hcalm.own_mem _ _ hf' _ (by omega) (by omega)]
      exact hbytes i j hij k hk

/-- One more frame in the child, copied from the parent. -/
theorem add {r : Role} {f f₀ : Nat} (h : Copies old s₁ s p c done) (hsteady : Steady s t)
    (hown : ∀ k g, t.Own k g ↔ s.Own k g ∨ (k = (c, r) ∧ g = f))
    (hentries : ∀ r' g, s.Own (c, r') g →
      roleEntry t.mem (s.dirFrame c) r' = roleEntry s.mem (s.dirFrame c) r')
    (hmem : ∀ k g, s.Own k g → (k.1 ≠ c ∨ ∃ i j, k.2 = .page i j) → AgreeOn s.mem t.mem g)
    (hp : s₁.Own (p, r) f₀)
    (hflags : entryFlags (roleEntry t.mem (s.dirFrame c) r) =
      entryFlags (roleEntry s₁.mem (s₁.dirFrame p) r))
    (hbytes : ∀ i j, r = .page i j →
      ∀ k, k < 4096 → t.mem (4096 * f + k) = s₁.mem (4096 * f₀ + k))
    (hold : ¬ old f) : Copies old s₁ t p c (fun r' => done r' ∨ r' = r) := by
  refine ⟨fun g hg => hsteady.taken g (h.old_taken g hg), h.steady.trans hsteady,
    fun k g hk => ?_, fun k g hk hg => ?_, fun r' f' hr' hf' hdone => ?_, fun r' f' hf' => ?_,
    fun r' f' hf' => ?_⟩
  · rw [hown, h.own_ne k g hk]
    constructor
    · rintro (hg | ⟨rfl, -⟩)
      · exact hg
      · exact absurd rfl hk
    · exact .inl
  · exact (h.mem_ne k g hk hg).trans (hmem k g ((h.own_ne k g hk).mpr hg) (.inl hk))
  · rw [hsteady.dirFrame]
    by_cases hrr : r' = r
    · subst hrr
      obtain rfl : f₀ = f' := Owns.unique_frame hp.2 hf'.2
      exact ⟨f, (hown _ _).mpr (.inr ⟨rfl, rfl⟩), hflags, hbytes⟩
    · obtain ⟨g, hg, hflags', hbytes'⟩ := h.copy r' f' hr' hf' (hdone.resolve_right hrr)
      refine ⟨g, (hown _ _).mpr (.inl hg), ?_, fun i j hij k hk => ?_⟩
      · rw [hentries r' g hg, hflags']
      · exact (hmem _ g hg (.inr ⟨i, j, hij⟩) _ (by omega) (by omega)).trans (hbytes' i j hij k hk)
  · rcases (hown _ _).mp hf' with hf' | ⟨heq, -⟩
    · exact (h.only r' f' hf').imp_right fun ⟨hd, hf⟩ => ⟨.inl hd, hf⟩
    · obtain rfl := (Prod.mk.inj heq).2
      exact .inr ⟨.inr rfl, f₀, hp⟩
  · rcases (hown _ _).mp hf' with hf' | ⟨-, rfl⟩
    · exact h.fresh r' f' hf'
    · exact hold

/-- One more page table. -/
theorem newTable {i f f₀ : Nat} {entry : BitVec 32} (h : Copies old s₁ s p c done)
    (hs : FrameInv B l s) (hnew : NewTable s t c i f entry) (hp : s₁.Own (p, .table i) f₀)
    (hentry : entryFlags entry = entryFlags (roleEntry s₁.mem (s₁.dirFrame p) (.table i))) :
    Copies old s₁ t p c (fun r => done r ∨ r = .table i) := by
  have hc : s.mmUsed c = true := by
    have := ((hnew.own (c, .table i) f).mpr (.inr ⟨rfl, rfl⟩)).1
    rwa [hnew.steady.mmUsed] at this
  refine h.add hnew.steady hnew.own (fun r' g hg => hnew.roleEntry_eq hs hg)
    (fun k g hg hk => hnew.mem k g hg ?_) hp ((congrArg entryFlags hnew.entry).trans hentry)
    (by simp) fun hold => hnew.free (h.old_taken f hold)
  rintro rfl
  have hkey := hs.ledger.unique k (c, .dir) _ hg ⟨hc, rfl⟩
  rcases hk with hk | ⟨i, j, hk⟩
  · exact hk (congrArg Prod.fst hkey)
  · simp [hkey] at hk

/-- One more page. -/
theorem newPage {i j d f f₀ : Nat} {entry : BitVec 32} (h : Copies old s₁ s p c done)
    (hs : FrameInv B (f :: l) s) (hd : s.Own (c, .table i) d)
    (hnew : NewPage s t c i j d f entry) (hp : s₁.Own (p, .page i j) f₀)
    (hentry : entryFlags entry = entryFlags (roleEntry s₁.mem (s₁.dirFrame p) (.page i j)))
    (hbytes : ∀ k, k < 4096 → s.mem (4096 * f + k) = s₁.mem (4096 * f₀ + k)) (hold : ¬ old f) :
    Copies old s₁ t p c (fun r => done r ∨ r = .page i j) := by
  have hfd : f ≠ d := by
    rintro rfl
    exact (hs.ledger.owned _ _ hd).2.2 (by simp)
  have hdt : d = entryFrame (tableEntry t.mem (s.dirFrame c) i) := by
    rw [← hnew.steady.dirFrame]
    exact ((hnew.own _ _).mpr (.inl hd)).2.2.2
  refine h.add hnew.steady hnew.own (fun r' g hg => hnew.roleEntry_eq hs hd hg)
    (fun k g hg hk => hnew.mem g ?_) hp ?_ (fun _ _ _ k hk => ?_) hold
  · rintro rfl
    have hkey := hs.ledger.unique k (c, .table i) _ hg hd
    rcases hk with hk | ⟨i', j', hk⟩
    · exact hk (congrArg Prod.fst hkey)
    · simp [hkey] at hk
  · rw [← hentry, ← hnew.entry, roleEntry, ← hdt]
  · rw [hnew.mem f hfd _ (by omega) (by omega)]
    exact hbytes k hk

end Copies

/-! ## Pages -/

/-- One round of the inner loop. -/
theorem clonePage_spec {pt d i j : Nat} {b : Bool}
    (hret : clonePage c (4096 * pt) (4096 * d) s j = .ok (b, t)) (hs : FrameInv B [] s)
    (h : Copies old s₁ s p c done) (hpc : p ≠ c) (hd : s.Own (c, .table i) d)
    (hp : s₁.Own (p, .table i) pt) (hj : j < 1024) (hnew : ¬ done (.page i j)) :
    (b = true → FrameInv B [] t ∧ Copies old s₁ t p c (fun r => done r ∨ r = .page i j) ∧
      t.Own (c, .table i) d) ∧
      (b = false → FrameInv B [] t ∧ ∃ done', Copies old s₁ t p c done') := by
  have hentry : s.mem.readWord (4096 * pt + 4 * j) = tableEntry s₁.mem pt j :=
    (h.mem_ne (p, .table i) pt hpc hp).tableEntry hj
  have hrole : roleEntry s₁.mem (s₁.dirFrame p) (.page i j) = tableEntry s₁.mem pt j := by
    rw [roleEntry, ← hp.2.2.2]
  have hpage : ∀ f, s₁.Own (p, .page i j) f ↔ entryPresent (tableEntry s₁.mem pt j) = true ∧
      f = entryFrame (tableEntry s₁.mem pt j) := by
    intro f
    obtain ⟨hm, hi, hpres, heq⟩ := hp
    simp only [State.Own, hm, true_and, Owns, hi, hpres, hj, ← heq]
  unfold clonePage at hret
  rw [hentry] at hret
  dsimp only at hret
  split at hret
  · rename_i habsent
    simp only [Except.ok.injEq, Prod.mk.injEq] at hret
    obtain ⟨rfl, rfl⟩ := hret
    refine ⟨fun _ => ⟨hs, h.congr _ fun r f hf => ?_, hd⟩, by simp⟩
    constructor
    · rintro (hr | rfl)
      · exact hr
      · exact absurd (habsent.symm.trans ((hpage f).mp hf).1) (by simp)
    · exact .inl
  · rename_i hpresent
    have hpresent : entryPresent (tableEntry s₁.mem pt j) = true := by simpa using hpresent
    have hnext := Pmm.getNext_spec hs.sound
    generalize Pmm.pmmGetNextAvailableBlock s.paging.pmm = r at hret hnext
    cases hnext with
    | oom =>
        simp only [ne_eq, reduceCtorEq, not_false_eq_true, if_true, Except.ok.injEq,
          Prod.mk.injEq] at hret
        obtain ⟨rfl, rfl⟩ := hret
        exact ⟨by simp, fun _ => ⟨hs, _, h⟩⟩
    | @found f pmm htook =>
        simp only [ne_eq, not_true_eq_false, if_false] at hret
        obtain ⟨src, hsrc, hret⟩ := bind_eq_ok.mp hret
        obtain ⟨dst, hdst, hret⟩ := bind_eq_ok.mp hret
        rw [Paging.physToVirt_eq_ok hsrc, Paging.physToVirt_eq_ok hdst, entryPhys_eq] at hret
        have hown : s₁.Own (p, .page i j) (entryFrame (tableEntry s₁.mem pt j)) :=
          (hpage _).mpr ⟨hpresent, rfl⟩
        generalize hf₀ : entryFrame (tableEntry s₁.mem pt j) = f₀ at hret hown
        obtain ⟨hinv1, hfree⟩ := hs.take htook
        have hcalm1 := Calm.take hs htook
        obtain ⟨hinv2, hcalm2⟩ := Calm.writeLoose hinv1 (by simp)
          (changesOnly_copyBytes pmm.mem f (fun k => pmm.mem (4096 * f₀ + k)) le_rfl)
        have hcalm := hcalm1.trans hcalm2 fun _ hg => hg
        have hcopies := h.calm hcalm
        have hd2 := (hcalm.own _ _).mpr hd
        have hslot : entryPresent (tableEntry (pmm.mem.copyBytes (4096 * f) 4096
            fun k => pmm.mem (4096 * f₀ + k)) d j) = false := by
          cases hcase : entryPresent (tableEntry (pmm.mem.copyBytes (4096 * f) 4096
              fun k => pmm.mem (4096 * f₀ + k)) d j) with
          | false => rfl
          | true =>
              obtain ⟨hm2, hi, hpres, heq⟩ := hd2
              rw [heq] at hcase
              have hbad := hcopies.only (.page i j) _ ⟨hm2, ⟨hi, hpres⟩, hj, hcase, rfl⟩
              rcases hbad with hbad | ⟨hbad, -⟩
              · simp at hbad
              · exact absurd hbad hnew
        obtain ⟨hinv3, hpage3⟩ := newPage (l := []) hinv2 (by simp) hd2 hj hslot
          (entryFlags_lt (tableEntry s₁.mem pt j))
          ((entryPresent_flags _).trans hpresent)
        have hbytes : ∀ k, k < 4096 → (pmm.mem.copyBytes (4096 * f) 4096
            fun k => pmm.mem (4096 * f₀ + k)) (4096 * f + k) = s₁.mem (4096 * f₀ + k) := by
          intro k hk
          rw [Memory.copyBytes_apply_of_mem _ _ (by omega) (by omega)]
          have hsub : 4096 * f + k - 4096 * f = k := by omega
          rw [hsub]
          refine (hcalm1.own_mem _ _ ((h.own_ne _ _ hpc).mpr hown) _ (by omega) (by omega)).trans ?_
          exact h.mem_ne _ _ hpc hown _ (by omega) (by omega)
        simp only [Except.ok.injEq, Prod.mk.injEq] at hret
        obtain ⟨rfl, rfl⟩ := hret
        refine ⟨fun _ => ⟨hinv3, hcopies.newPage hinv2 hd2 hpage3 hown ?_ hbytes ?_,
          (hpage3.own _ _).mpr (.inl hd2)⟩, by simp⟩
        · rw [entryFlags_mkEntry (by omega) (entryFlags_lt _), hrole]
        · exact fun hold => hfree (h.old_taken f hold)

/-! ## Tables -/

/-- One round of the outer loop. -/
theorem cloneTable_spec {i : Nat} {b : Bool}
    (hret : cloneTable c (4096 * s₁.dirFrame p) (4096 * s₁.dirFrame c) s i = .ok (b, t))
    (hs : FrameInv B [] s) (h : Copies old s₁ s p c (Role.before i)) (hpc : p ≠ c)
    (hp : s₁.mmUsed p = true) (hc : s₁.mmUsed c = true) (hi : i < maxPde) :
    (b = true → FrameInv B [] t ∧ Copies old s₁ t p c (Role.before (i + 1))) ∧
      (b = false → FrameInv B [] t ∧ ∃ done', Copies old s₁ t p c done') := by
  have hdir : s₁.Own (p, .dir) (s₁.dirFrame p) := ⟨hp, rfl⟩
  have hentry : s.mem.readWord (4096 * s₁.dirFrame p + 4 * i) =
      tableEntry s₁.mem (s₁.dirFrame p) i :=
    (h.mem_ne _ _ hpc hdir).tableEntry (lt_of_lt_of_le hi maxPde_le)
  have hcs : s.mmUsed c = true := by rw [h.steady.mmUsed]; exact hc
  unfold cloneTable at hret
  rw [hentry] at hret
  dsimp only at hret
  split at hret
  · rename_i habsent
    simp only [Except.ok.injEq, Prod.mk.injEq] at hret
    obtain ⟨rfl, rfl⟩ := hret
    exact ⟨fun _ => ⟨hs, h.congr _ fun r f hf => Role.before_skip hf.2 habsent⟩, by simp⟩
  · rename_i hpresent
    have hpresent : entryPresent (tableEntry s₁.mem (s₁.dirFrame p) i) = true := by
      simpa using hpresent
    have htable : s₁.Own (p, .table i) (entryFrame (tableEntry s₁.mem (s₁.dirFrame p) i)) :=
      ⟨hp, hi, hpresent, rfl⟩
    have hnext := Pmm.getNext_spec hs.sound
    generalize Pmm.pmmGetNextAvailableBlock s.paging.pmm = r at hret hnext
    cases hnext with
    | oom =>
        simp only [ne_eq, reduceCtorEq, not_false_eq_true, if_true, Except.ok.injEq,
          Prod.mk.injEq] at hret
        obtain ⟨rfl, rfl⟩ := hret
        exact ⟨by simp, fun _ => ⟨hs, _, h⟩⟩
    | @found f pmm htook =>
        simp only [ne_eq, not_true_eq_false, if_false] at hret
        obtain ⟨parentPt, hparent, hret⟩ := bind_eq_ok.mp hret
        obtain ⟨childPt, hchild, hret⟩ := bind_eq_ok.mp hret
        rw [Paging.physToVirt_eq_ok hparent, Paging.physToVirt_eq_ok hchild, entryPhys_eq,
          ← h.steady.dirFrame c] at hret
        have habsent : entryPresent (tableEntry s.mem (s.dirFrame c) i) = false := by
          cases hcase : entryPresent (tableEntry s.mem (s.dirFrame c) i) with
          | false => rfl
          | true =>
              rcases h.only (.table i) _ ⟨hcs, hi, hcase, rfl⟩ with hbad | ⟨hbad, -⟩
              · simp at hbad
              · simp [Role.before] at hbad
        obtain ⟨hinv, hnew⟩ := newTable (m := c) (i := i) _ hs htook hcs hi habsent
          (entryFlags_lt (tableEntry s₁.mem (s₁.dirFrame p) i))
          ((entryPresent_flags _).trans hpresent)
        have hcopies := h.newTable hs hnew htable (by
          rw [entryFlags_mkEntry (by omega) (entryFlags_lt _)]
          rfl)
        have htable' := (hnew.own (c, .table i) f).mpr (.inr ⟨rfl, rfl⟩)
        have hstart := hcopies.congr (fun r => r.walked i 0 ∨ r = .table i)
          fun r g _ => or_congr_left (r.walked_zero i)
        have hloop := forOk_range
          (I := fun n u => FrameInv B [] u ∧
            Copies old s₁ u p c (fun r => r.walked i n ∨ r = .table i) ∧ u.Own (c, .table i) f)
          (J := fun u => FrameInv B [] u ∧ ∃ done', Copies old s₁ u p c done') ?_
          ⟨hinv, hstart, htable'⟩ hret
        · exact ⟨fun hb => ⟨(hloop.1 hb).1,
            (hloop.1 hb).2.1.congr _ fun r g hg => Role.before_succ hg.2⟩, hloop.2⟩
        · rintro j u b v hj ⟨hinv, hcopies, hd⟩ hstep
          have hdone : ¬ ((Role.page i j).walked i j ∨ Role.page i j = .table i) := by
            simp [Role.not_walked_page]
          obtain ⟨hok, hfail⟩ := clonePage_spec hstep hinv hcopies hpc hd htable hj hdone
          refine ⟨fun hb => ⟨(hok hb).1, (hok hb).2.1.congr _ fun r g _ => ?_, (hok hb).2.2⟩, hfail⟩
          exact (or_congr_left (r.walked_succ i j)).trans or_right_comm

/-! ## Regions -/

/-- What a region covers, without its place in a list. -/
def Vma.content (vma : Vma) : Nat × Nat × VmaType × BitVec 32 :=
  (vma.start, vma.endAddr, vma.type, vma.prot)

/-- What copying regions to `c` leaves alone: memory that is owned, the records and lists of all
other address spaces, and what the regions already on a list cover. -/
structure RegionsCopied (s t : State) (c : Nat) (lists lists' : Nat → List Nat) : Prop where
  mms_ne : ∀ m, m ≠ c → t.mms m = s.mms m
  mm_c : ∃ head, t.mms c = { s.mms c with vmaHead := head }
  mmUsed : t.mmUsed = s.mmUsed
  cr3 : t.paging.cr3 = s.paging.cr3
  own : ∀ k f, t.Own k f ↔ s.Own k f
  taken : ∀ f, s.Taken f → t.Taken f
  own_mem : ∀ k f, s.Own k f → AgreeOn s.mem t.mem f
  lists_ne : ∀ m, m ≠ c → lists' m = lists m
  vma_ne : ∀ m, m ≠ c → s.mmUsed m = true → ∀ v ∈ lists m, t.vmas v = s.vmas v
  content : ∀ v ∈ lists c, (t.vmas v).content = (s.vmas v).content
  sub : ∀ v ∈ lists c, v ∈ lists' c

variable {u : State} {lists' lists'' : Nat → List Nat}

theorem RegionsCopied.refl (s : State) (c : Nat) (lists : Nat → List Nat) :
    RegionsCopied s s c lists lists :=
  ⟨fun _ _ => rfl, ⟨_, rfl⟩, rfl, rfl, fun _ _ => Iff.rfl, fun _ hf => hf,
    fun _ f _ => AgreeOn.refl _ f, fun _ _ => rfl, fun _ _ _ _ _ => rfl, fun _ _ => rfl,
    fun _ hv => hv⟩

theorem RegionsCopied.trans (h : RegionsCopied s t c lists lists')
    (h' : RegionsCopied t u c lists' lists'') : RegionsCopied s u c lists lists'' := by
  refine ⟨fun m hm => (h'.mms_ne m hm).trans (h.mms_ne m hm), ?_, h'.mmUsed.trans h.mmUsed,
    h'.cr3.trans h.cr3, fun k f => (h'.own k f).trans (h.own k f),
    fun f hf => h'.taken f (h.taken f hf), fun k f hf => ?_,
    fun m hm => (h'.lists_ne m hm).trans (h.lists_ne m hm), fun m hm hused v hv => ?_,
    fun v hv => (h'.content v (h.sub v hv)).trans (h.content v hv),
    fun v hv => h'.sub v (h.sub v hv)⟩
  · obtain ⟨head, hh⟩ := h.mm_c
    obtain ⟨head', hh'⟩ := h'.mm_c
    exact ⟨head', by rw [hh', hh]⟩
  · exact (h.own_mem k f hf).trans (h'.own_mem k f ((h.own k f).mpr hf))
  · rw [h'.vma_ne m hm (by rw [h.mmUsed]; exact hused) v (by rw [h.lists_ne m hm]; exact hv),
      h.vma_ne m hm hused v hv]

theorem RegionsCopied.ofCalm (h : Calm l s t) (c : Nat) (lists : Nat → List Nat) :
    RegionsCopied s t c lists lists :=
  ⟨fun m _ => by rw [h.mms], ⟨_, by rw [h.mms]⟩, h.mmUsed, h.cr3, h.own, h.taken, h.own_mem,
    fun _ _ => rfl, fun m _ _ v _ => by rw [h.vmas], fun v _ => by rw [h.vmas], fun _ hv => hv⟩

/-- One round of the loop: a fresh region that covers what `a` does, on the list of `c`. -/
theorem cloneVma_spec {v a : Nat} (hnew : NewRegion [] s t v) (ht : FrameInv B [] t)
    (hr : RegionInv s lists) (hc : s.mmUsed c = true)
    (hret : vmaInsert (t.setVma v ((t.vmas v).describe (t.vmas a).start (t.vmas a).endAddr
      (t.vmas a).type (t.vmas a).prot)) c v = .ok u) (hav : a ≠ v) :
    FrameInv B [] u ∧ ∃ l₁ l₂, lists c = l₁ ++ l₂ ∧
      RegionInv u (Function.update lists c (l₁ ++ v :: l₂)) ∧
      RegionsCopied s u c lists (Function.update lists c (l₁ ++ v :: l₂)) ∧
      (u.vmas v).content = (s.vmas a).content ∧
      ∀ w, l₂.head? = some w → (s.vmas a).start ≤ (s.vmas w).start := by
  have hfacts := hnew.facts
  obtain ⟨hr1, hnot1⟩ := hnew.regionInv hr
  have hnot : ∀ m, s.mmUsed m = true → v ∉ lists m := by
    intro m hm
    exact hnot1 m (by rw [hfacts.mmUsed]; exact hm)
  generalize hvma : (t.vmas v).describe (t.vmas a).start (t.vmas a).endAddr (t.vmas a).type
    (t.vmas a).prot = vma at hret
  have hcontent : vma.content = (s.vmas a).content := by
    rw [← hvma, ← hfacts.vma_ne a hav]
    rfl
  have hslot : vma.slotId = v := by
    rw [← hvma, hfacts.vma]
    rfl
  have hr2 := hr1.setVma vma hnot1
  obtain ⟨hinv2, hown2⟩ := ht.congr (t := t.setVma v vma) rfl rfl rfl fun m => ⟨_, rfl⟩
  have hct : (t.setVma v vma).mmUsed c = true := by
    change t.mmUsed c = true
    rw [hfacts.mmUsed]
    exact hc
  obtain ⟨u', l₁, l₂, heq, hins⟩ := vmaInsert_spec hr2 hct (hnot1 c hct)
  rw [heq] at hret
  obtain rfl := Except.ok.inj hret
  obtain ⟨hinv3, hown3⟩ := hins.relinked.frameInv hinv2
  have hne : ∀ w, w ≠ v → (t.setVma v vma).vmas w = s.vmas w := fun w hw =>
    (Function.update_of_ne hw _ _).trans (hfacts.vma_ne w hw)
  have hmem : u'.mem = t.mem := by rw [State.mem, hins.relinked.paging]; rfl
  refine ⟨hinv3, l₁, l₂, hins.split, hins.regionInv hr2 hct hfacts.used hnew.lt ?_ hnot1,
    ⟨fun m hm => ?_, ?_, ?_, ?_, fun k f => ?_, fun f hf => ?_, fun k f hf => ?_, fun m hm => ?_,
      fun m hm hused w hw => ?_, fun w hw => ?_, fun w hw => ?_⟩, ?_, fun w hw => ?_⟩
  · rw [State.vmas_setVma_self, hslot]
  · rw [hins.other_mm m hm]
    exact congrFun hfacts.mms m
  · obtain ⟨head, hh⟩ := hins.relinked.mms c
    exact ⟨head, by rw [hh, State.mms_setVma, hfacts.mms]⟩
  · exact hins.relinked.mmUsed.trans hfacts.mmUsed
  · rw [hins.relinked.paging]
    exact hfacts.cr3
  · rw [hown3, hown2, hfacts.own]
  · have htaken := hfacts.taken f hf
    unfold State.Taken at htaken ⊢
    rw [hins.relinked.paging]
    exact htaken
  · rw [hmem]
    exact hfacts.own_mem k f hf
  · exact Function.update_of_ne hm _ _
  · have hwc : w ∉ lists c := fun hwc => hm (hr.disjoint m c hused hc w hw hwc)
    have hwv : w ≠ v := by
      rintro rfl
      exact hnot m hused hw
    rw [hins.other_vma w hwc hwv, hne w hwv]
  · have hwv : w ≠ v := by
      rintro rfl
      exact hnot c hc hw
    obtain ⟨next, hnext⟩ := hins.relinked.vmas w
    rw [hnext, ← hne w hwv]
    rfl
  · rw [Function.update_self]
    rw [hins.split] at hw
    simp only [List.mem_append, List.mem_cons] at hw ⊢
    tauto
  · obtain ⟨next, hnext⟩ := hins.relinked.vmas v
    rw [hnext, State.vmas_setVma_self]
    exact hcontent
  · have hwv : w ≠ v := by
      rintro rfl
      refine hnot c hc ?_
      rw [hins.split]
      exact List.mem_append_right _ (List.mem_of_mem_head? hw)
    have hstart := hins.before w hw
    have hvmaStart : vma.start = (s.vmas a).start := congrArg Prod.fst hcontent
    rwa [State.vmas_setVma_self, hne w hwv, hvmaStart] at hstart

/-- The regions still to copy start behind those copied, and in order. -/
structure InOrder (s : State) (copied rest : List Nat) : Prop where
  behind : ∀ v ∈ copied, ∀ w ∈ rest, (s.vmas v).start < (s.vmas w).start
  sorted : rest.Pairwise fun v w => (s.vmas v).start < (s.vmas w).start

/-- The loop that copies regions. Regions in order end up at the end of the list, in order. -/
theorem cloneVmas_spec {fuel : Nat} {pvma : Option Nat} {rest : List Nat} {b : Bool}
    (hret : cloneVmas c fuel pvma s = .ok (b, t)) (hs : FrameInv B [] s)
    (hr : RegionInv s lists) (hpc : p ≠ c) (hp : s.mmUsed p = true) (hc : s.mmUsed c = true)
    (hchain : Chain s.vmaNext pvma rest) (hrest : ∀ v ∈ rest, v ∈ lists p) :
    FrameInv B [] t ∧ ∃ lists', RegionInv t lists' ∧ RegionsCopied s t c lists lists' ∧
      (b = true → InOrder s (lists c) rest →
        (lists' c).map (fun v => (t.vmas v).content) =
          (lists c ++ rest).map fun v => (s.vmas v).content) := by
  induction fuel generalizing s pvma rest lists with
  | zero =>
      cases pvma with
      | some a => simp [cloneVmas] at hret
      | none =>
          simp only [cloneVmas, Except.ok.injEq, Prod.mk.injEq] at hret
          obtain ⟨rfl, rfl⟩ := hret
          have hnil : rest = [] := hchain.unique (chain_nil.mpr rfl)
          exact ⟨hs, lists, hr, .refl s c lists, fun _ _ => by simp [hnil]⟩
  | succ fuel ih =>
      cases pvma with
      | none =>
          simp only [cloneVmas, Except.ok.injEq, Prod.mk.injEq] at hret
          obtain ⟨rfl, rfl⟩ := hret
          have hnil : rest = [] := hchain.unique (chain_nil.mpr rfl)
          exact ⟨hs, lists, hr, .refl s c lists, fun _ _ => by simp [hnil]⟩
      | some a =>
          obtain ⟨rest, rfl⟩ := hchain.exists_cons
          unfold cloneVmas at hret
          generalize halloc : vmaAlloc s = r at hret
          obtain ⟨slot, s2⟩ := r
          obtain ⟨hinv, hcase⟩ := vmaAlloc_spec hs halloc
          rcases hcase with ⟨rfl, hcalm⟩ | ⟨v, rfl, hnew⟩
          · simp only [Except.ok.injEq, Prod.mk.injEq] at hret
            obtain ⟨rfl, rfl⟩ := hret
            exact ⟨hinv, lists, hr.calm hcalm, .ofCalm hcalm c lists, by simp⟩
          · obtain ⟨s3, hins, hret⟩ := bind_eq_ok.mp hret
            have hap : a ∈ lists p := hrest a (by simp)
            have hav : a ≠ v := by
              rintro rfl
              exact absurd (hnew.unused.symm.trans (hr.used p hp a hap).1) (by simp)
            obtain ⟨hinv3, l₁, l₂, hsplit, hr3, hcopied, hcontent, hbefore⟩ :=
              cloneVma_spec hnew hinv hr hc hins hav
            have hp3 : s3.mmUsed p = true := by rw [hcopied.mmUsed]; exact hp
            have hc3 : s3.mmUsed c = true := by rw [hcopied.mmUsed]; exact hc
            -- the parent's list is as it was
            have hsame : ∀ w, w ∈ lists p → s3.vmas w = s.vmas w := hcopied.vma_ne p hpc hp
            have hchain3 : Chain s3.vmaNext (s3.vmaNext a) rest := by
              rw [State.vmaNext, hsame a hap]
              refine hchain.2.congr fun w hw => ?_
              rw [State.vmaNext, hsame w (hrest w (by simp [hw])), State.vmaNext]
            obtain ⟨hinvt, lists', hrt, hcopied', hseq⟩ := ih hret hinv3 hr3 hp3 hc3 hchain3
              fun w hw => by
                rw [Function.update_of_ne hpc]
                exact hrest w (by simp [hw])
            refine ⟨hinvt, lists', hrt, hcopied.trans hcopied', fun hb hord => ?_⟩
            have hstart : ∀ w, w ∈ lists c → (s3.vmas w).start = (s.vmas w).start :=
              fun w hw => congrArg Prod.fst (hcopied.content w hw)
            have hstartv : (s3.vmas v).start = (s.vmas a).start := congrArg Prod.fst hcontent
            -- nothing on the list starts at or behind the new region
            have hlast : l₂ = [] := by
              cases l₂ with
              | nil => rfl
              | cons w l₂ =>
                  have hle := hbefore w rfl
                  have hlt := hord.behind w (by rw [hsplit]; simp) a (by simp)
                  omega
            rw [hlast, List.append_nil] at hsplit
            have hord3 : InOrder s3 (Function.update lists c (l₁ ++ v :: l₂) c) rest := by
              rw [Function.update_self, hlast, ← hsplit]
              have hpair := hord.sorted
              rw [List.pairwise_cons] at hpair
              refine ⟨fun w hw x hx => ?_, ?_⟩
              · rw [hsame x (hrest x (by simp [hx]))]
                rcases List.mem_append.mp hw with hw | hw
                · rw [hstart w hw]
                  exact hord.behind w hw x (by simp [hx])
                · rw [List.mem_singleton] at hw
                  rw [hw, hstartv]
                  exact hpair.1 x hx
              · refine hpair.2.imp_of_mem fun {w x} hw hx hlt => ?_
                rwa [hsame w (hrest w (by simp [hw])), hsame x (hrest x (by simp [hx]))]
            rw [hseq hb hord3, Function.update_self, hlast, ← hsplit]
            simp only [List.map_append, List.map_cons, hcontent, List.append_assoc,
              List.singleton_append]
            congr 1
            · exact List.map_congr_left fun w hw => hcopied.content w hw
            · congr 1
              refine List.map_congr_left fun w hw => ?_
              rw [hsame w (hrest w (by simp [hw]))]

/-! ## The whole call -/

/-- The address spaces in `S` are as they were: records, owned frames and their contents, and
regions. -/
structure Keeps (S : Nat → Prop) (lists : Nat → List Nat) (s t : State) : Prop where
  mmUsed : ∀ m, S m → t.mmUsed m = s.mmUsed m
  record : ∀ m, S m → t.mms m = s.mms m
  own : ∀ m, S m → ∀ r f, t.Own (m, r) f ↔ s.Own (m, r) f
  mem : ∀ m, S m → ∀ r f, s.Own (m, r) f → AgreeOn s.mem t.mem f
  vmas : ∀ m, S m → ∀ v ∈ lists m, t.vmas v = s.vmas v

variable {S : Nat → Prop}

theorem Keeps.trans {v : Nat → List Nat} (h : Keeps S lists s t) (h' : Keeps S v t u)
    (hlists : ∀ m, S m → v m = lists m) : Keeps S lists s u :=
  ⟨fun m hm => (h'.mmUsed m hm).trans (h.mmUsed m hm),
    fun m hm => (h'.record m hm).trans (h.record m hm),
    fun m hm r f => (h'.own m hm r f).trans (h.own m hm r f),
    fun m hm r f hf => (h.mem m hm r f hf).trans (h'.mem m hm r f ((h.own m hm r f).mpr hf)),
    fun m hm v hv => (h'.vmas m hm v (by rw [hlists m hm]; exact hv)).trans (h.vmas m hm v hv)⟩

theorem Keeps.ofCalm (h : Calm l s t) (S : Nat → Prop) (lists : Nat → List Nat) :
    Keeps S lists s t :=
  ⟨fun m _ => by rw [h.mmUsed], fun m _ => by rw [h.mms], fun m _ r f => h.own (m, r) f,
    fun m _ r f hf => h.own_mem (m, r) f hf, fun m _ v _ => by rw [h.vmas]⟩

/-- An address space that owns what it owned has the same record. -/
theorem Steady.record_eq (h : Steady s t) (hs : FrameInv B l s) (ht : FrameInv B l t) {m : Nat}
    (hm : s.mmUsed m = true) (hown : ∀ r f, t.Own (m, r) f ↔ s.Own (m, r) f) :
    t.mms m = s.mms m := by
  have htm : t.mmUsed m = true := by rw [h.mmUsed]; exact hm
  have hpages : (t.mms m).pageCount = (s.mms m).pageCount := by
    rw [(ht.records m htm).pages, (hs.records m hm).pages, h.dirFrame]
    refine pageCount_congr fun i j f => ?_
    have hiff := hown (.page i j) f
    simp only [State.Own, hm, htm, true_and, h.dirFrame] at hiff
    exact hiff
  obtain ⟨n, hn⟩ := h.mms m
  rw [hn] at hpages ⊢
  have hcount : n = (s.mms m).pageCount := hpages
  rw [hcount]

theorem Created.regionInv {f : Nat} (h : Created s t c f) (hr : RegionInv s lists) :
    RegionInv t (Function.update lists c []) := by
  have hused : ∀ m, t.mmUsed m = true → m ≠ c → s.mmUsed m = true := by
    intro m hm hmc
    rw [h.mmUsed] at hm
    rwa [Function.update_of_ne hmc] at hm
  have hnext : t.vmaNext = s.vmaNext := by
    funext v
    rw [State.vmaNext, h.vmas, State.vmaNext]
  refine ⟨fun m hm => ?_, fun m hm v hv => ?_, fun m m' hm hm' v hv hv' => ?_⟩
  · rw [hnext, h.mms]
    by_cases hmc : m = c
    · subst hmc
      simp [Chain, Seg]
    · rw [Function.update_of_ne hmc, Function.update_of_ne hmc]
      exact hr.chain m (hused m hm hmc)
  · by_cases hmc : m = c
    · subst hmc
      simp at hv
    · rw [Function.update_of_ne hmc] at hv
      rw [h.vmas, h.vmaUsed]
      exact hr.used m (hused m hm hmc) v hv
  · by_cases hmc : m = c
    · subst hmc
      simp at hv
    · by_cases hmc' : m' = c
      · subst hmc'
        simp at hv'
      · rw [Function.update_of_ne hmc] at hv
        rw [Function.update_of_ne hmc'] at hv'
        exact hr.disjoint m m' (hused m hm hmc) (hused m' hm' hmc') v hv hv'

theorem Created.keeps {f : Nat} (h : Created s t c f) (lists : Nat → List Nat) :
    Keeps (fun m => s.mmUsed m = true) lists s t := by
  have hne : ∀ m, s.mmUsed m = true → m ≠ c := by
    rintro m hm rfl
    exact absurd (h.unused.symm.trans hm) (by simp)
  refine ⟨fun m hm => ?_, fun m hm => ?_, fun m hm r f => ?_, fun m _ r f hf => h.own_mem _ f hf,
    fun m _ v _ => by rw [h.vmas]⟩
  · rw [h.mmUsed, Function.update_of_ne (hne m hm)]
  · rw [h.mms, Function.update_of_ne (hne m hm)]
  · rw [h.own]
    simp [hne m hm]

theorem Created.copies {f : Nat} (h : Created s t c f) (p : Nat) :
    Copies s.Taken t t p c (Role.before 0) := by
  have hown : ∀ r g, t.Own (c, r) g → r = .dir ∧ g = f := by
    intro r g hg
    rcases (h.own _ _).mp hg with hg | ⟨heq, rfl⟩
    · exact absurd (h.unused.symm.trans hg.1) (by simp)
    · exact ⟨(Prod.mk.inj heq).2, rfl⟩
  refine ⟨h.taken, .refl t, fun _ _ _ => Iff.rfl, fun _ g _ _ => AgreeOn.refl _ g,
    fun r _ _ _ hr => absurd hr r.not_before_zero, fun r g hg => .inl (hown r g hg).1,
    fun r g hg => ?_⟩
  rw [(hown r g hg).2]
  exact h.free

theorem Copies.keeps (h : Copies old s₁ s p c done) (hs₁ : FrameInv B l s₁) (hs : FrameInv B l s)
    (lists : Nat → List Nat) :
    Keeps (fun m => s₁.mmUsed m = true ∧ m ≠ c) lists s₁ s := by
  have hown : ∀ m, m ≠ c → ∀ r f, s.Own (m, r) f ↔ s₁.Own (m, r) f :=
    fun m hm r f => h.own_ne (m, r) f hm
  exact ⟨fun m _ => by rw [h.steady.mmUsed],
    fun m hm => h.steady.record_eq hs₁ hs hm.1 (hown m hm.2), fun m hm => hown m hm.2,
    fun m hm r f hf => h.mem_ne (m, r) f hm.2 hf, fun m _ v _ => by rw [h.steady.vmas]⟩

theorem RegionsCopied.keeps (h : RegionsCopied s t c lists lists') :
    Keeps (fun m => s.mmUsed m = true ∧ m ≠ c) lists s t :=
  ⟨fun m _ => by rw [h.mmUsed], fun m hm => h.mms_ne m hm.2, fun m _ r f => h.own (m, r) f,
    fun m _ r f hf => h.own_mem (m, r) f hf, fun m hm v hv => h.vma_ne m hm.2 hm.1 v hv⟩

theorem Keeps.mono {S' : Nat → Prop} (h : Keeps S lists s t) (hsub : ∀ m, S' m → S m)
    (hlists : ∀ m, S' m → lists' m = lists m) : Keeps S' lists' s t :=
  ⟨fun m hm => h.mmUsed m (hsub m hm), fun m hm => h.record m (hsub m hm),
    fun m hm => h.own m (hsub m hm), fun m hm => h.mem m (hsub m hm),
    fun m hm v hv => h.vmas m (hsub m hm) v (by rw [← hlists m hm]; exact hv)⟩

/-- The outer loop over the whole user half. -/
theorem cloneTables_spec {b : Bool}
    (hret : forOk (cloneTable c (4096 * s₁.dirFrame p) (4096 * s₁.dirFrame c)) (List.range maxPde)
      s₁ = .ok (b, t))
    (hs : FrameInv B [] s₁) (h : Copies old s₁ s₁ p c (Role.before 0)) (hpc : p ≠ c)
    (hp : s₁.mmUsed p = true) (hc : s₁.mmUsed c = true) :
    FrameInv B [] t ∧ (∃ done', Copies old s₁ t p c done') ∧
      (b = true → Copies old s₁ t p c (Role.before maxPde)) := by
  have hloop := forOk_range
    (I := fun i u => FrameInv B [] u ∧ Copies old s₁ u p c (Role.before i))
    (J := fun u => FrameInv B [] u ∧ ∃ done', Copies old s₁ u p c done')
    (fun i u b v hi hu hstep => cloneTable_spec hstep hu.1 hu.2 hpc hp hc hi) ⟨hs, h⟩ hret
  cases b with
  | true => exact ⟨(hloop.1 rfl).1, ⟨_, (hloop.1 rfl).2⟩, fun _ => (hloop.1 rfl).2⟩
  | false => exact ⟨(hloop.2 rfl).1, (hloop.2 rfl).2, by simp⟩

/-- What copying the user half does. -/
structure UserCopied (B old : Nat → Prop) (s₁ t : State) (p c : Nat) (b : Bool)
    (lists lists' : Nat → List Nat) : Prop where
  inv : FrameInv B [] t
  regionInv : RegionInv t lists'
  lists_ne : ∀ m, m ≠ c → lists' m = lists m
  keeps : Keeps (fun m => s₁.mmUsed m = true ∧ m ≠ c) lists s₁ t
  mmUsed : t.mmUsed = s₁.mmUsed
  cr3 : t.paging.cr3 = s₁.paging.cr3
  copied : b = true → ∃ s₂, Copies old s₁ s₂ p c (Role.before maxPde) ∧
    RegionsCopied s₂ t c lists lists' ∧ (InOrder s₂ (lists c) (lists p) →
      (lists' c).map (fun v => (t.vmas v).content) =
        (lists c ++ lists p).map fun v => (s₂.vmas v).content)

theorem cloneUser_spec {b : Bool} (hret : cloneUser s₁ p c = .ok (b, t))
    (hs : FrameInv B [] s₁) (hr : RegionInv s₁ lists)
    (h : Copies old s₁ s₁ p c (Role.before 0)) (hpc : p ≠ c) (hp : s₁.mmUsed p = true)
    (hc : s₁.mmUsed c = true) : ∃ lists', UserCopied B old s₁ t p c b lists lists' := by
  unfold cloneUser at hret
  obtain ⟨parentPd, hparent, hret⟩ := bind_eq_ok.mp hret
  obtain ⟨childPd, hchild, hret⟩ := bind_eq_ok.mp hret
  obtain ⟨⟨done, s₂⟩, htables, hret⟩ := bind_eq_ok.mp hret
  rw [Paging.physToVirt_eq_ok hparent, Paging.physToVirt_eq_ok hchild, (hs.records p hp).cr3,
    (hs.records c hc).cr3] at htables
  obtain ⟨hinv₂, ⟨done', hcopies⟩, hall⟩ := cloneTables_spec htables hs h hpc hp hc
  have hr₂ := hcopies.steady.regionInv hr
  have hkeeps := hcopies.keeps hs hinv₂ lists
  dsimp only at hret
  split at hret
  · rename_i hdone
    have hp₂ : s₂.mmUsed p = true := by rw [hcopies.steady.mmUsed]; exact hp
    have hc₂ : s₂.mmUsed c = true := by rw [hcopies.steady.mmUsed]; exact hc
    obtain ⟨hinv, lists', hrt, hcopied, hseq⟩ := cloneVmas_spec hret hinv₂ hr₂ hpc hp₂ hc₂
      (hr₂.chain p hp₂) fun v hv => hv
    refine ⟨lists', hinv, hrt, hcopied.lists_ne, ?_, hcopied.mmUsed.trans hcopies.steady.mmUsed,
      hcopied.cr3.trans hcopies.steady.cr3, fun hb => ⟨s₂, hall hdone, hcopied, hseq hb⟩⟩
    refine hkeeps.trans (hcopied.keeps.mono (fun m hm => ?_) fun _ _ => rfl) fun _ _ => rfl
    exact ⟨by rw [hcopies.steady.mmUsed]; exact hm.1, hm.2⟩
  · simp only [Except.ok.injEq, Prod.mk.injEq] at hret
    obtain ⟨rfl, rfl⟩ := hret
    exact ⟨lists, hinv₂, hr₂, fun _ _ => rfl, hkeeps, hcopies.steady.mmUsed, hcopies.steady.cr3,
      by simp⟩

/-- The child `c` is a copy of the parent `p`. -/
structure Cloned (s t : State) (p c : Nat) (lists lists' : Nat → List Nat) : Prop where
  mmUsed : t.mmUsed = Function.update s.mmUsed c true
  owns : ∀ r, r ≠ .dir → ((∃ f', t.Own (c, r) f') ↔ ∃ f, s.Own (p, r) f)
  flags : ∀ r f, r ≠ .dir → s.Own (p, r) f →
    entryFlags (roleEntry t.mem (t.dirFrame c) r) = entryFlags (roleEntry s.mem (s.dirFrame p) r)
  bytes : ∀ i j f f', s.Own (p, .page i j) f → t.Own (c, .page i j) f' →
    ∀ k, k < 4096 → t.mem (4096 * f' + k) = s.mem (4096 * f + k)
  fresh : ∀ r f', t.Own (c, r) f' → ¬ s.Taken f'
  regions : ((lists p).Pairwise fun v w => (s.vmas v).start < (s.vmas w).start) →
    (lists' c).map (fun v => (t.vmas v).content) = (lists p).map fun v => (s.vmas v).content

theorem cloned_of_userCopied {f : Nat} {b : Bool} (hnew : Created s s₁ c f)
    (h : UserCopied B s.Taken s₁ t p c b (Function.update lists c []) lists') (hb : b = true)
    (hpc : p ≠ c) (hp : s.mmUsed p = true) : Cloned s t p c lists lists' := by
  obtain ⟨s₂, hcopies, hregions, hseq⟩ := h.copied hb
  have hkeeps := hnew.keeps lists
  have hown : ∀ r f, s₁.Own (p, r) f ↔ s.Own (p, r) f := hkeeps.own p hp
  have hdirp : s₁.dirFrame p = s.dirFrame p := by
    rw [State.dirFrame, hkeeps.record p hp, State.dirFrame]
  have hdirc : t.dirFrame c = s₂.dirFrame c := by
    obtain ⟨head, hh⟩ := hregions.mm_c
    rw [State.dirFrame, hh, State.dirFrame]
  -- everything but the directory has been copied
  have hcopy : ∀ r f, r ≠ .dir → s.Own (p, r) f → ∃ f', s₂.Own (c, r) f' ∧
      entryFlags (roleEntry s₂.mem (s₂.dirFrame c) r) =
        entryFlags (roleEntry s₁.mem (s₁.dirFrame p) r) ∧
      ∀ i j, r = .page i j → ∀ k, k < 4096 → s₂.mem (4096 * f' + k) = s₁.mem (4096 * f + k) :=
    fun r f hr hf => hcopies.copy r f hr ((hown r f).mpr hf) ((Role.before_all hf.2).mpr hr)
  have htables : ∀ m g, s₂.mmUsed m = true → IsTable maxPde s₂.mem (s₂.dirFrame m) g →
      AgreeOn s₂.mem t.mem g := by
    rintro m g hm (hd | ⟨i, hi⟩)
    · exact hregions.own_mem (m, .dir) g ⟨hm, hd⟩
    · exact hregions.own_mem (m, .table i) g ⟨hm, hi⟩
  have htablesp : ∀ g, IsTable maxPde s.mem (s.dirFrame p) g → AgreeOn s.mem s₁.mem g := by
    rintro g (hd | ⟨i, hi⟩)
    · exact hkeeps.mem p hp .dir g ⟨hp, hd⟩
    · exact hkeeps.mem p hp (.table i) g ⟨hp, hi⟩
  refine ⟨?_, fun r hr => ⟨fun h => ?_, fun h => ?_⟩, fun r f hr hf => ?_,
    fun i j f f' hf hf' k hk => ?_, fun r f' hf' => ?_, fun hsorted => ?_⟩
  · rw [h.mmUsed, hnew.mmUsed]
  · obtain ⟨f', hf'⟩ := h
    rcases hcopies.only r f' ((hregions.own _ _).mp hf') with hbad | ⟨-, f, hf⟩
    · exact absurd hbad hr
    · exact ⟨f, (hown r f).mp hf⟩
  · obtain ⟨f, hf⟩ := h
    obtain ⟨f', hf', -⟩ := hcopy r f hr hf
    exact ⟨f', (hregions.own _ _).mpr hf'⟩
  · obtain ⟨f', hf', hflags, -⟩ := hcopy r f hr hf
    rw [hdirc, roleEntry_congr maxPde_le (fun g hg => htables c g hf'.1 hg) hf'.2, hflags, hdirp,
      roleEntry_congr maxPde_le htablesp hf.2]
  · obtain ⟨g, hg, -, hbytes⟩ := hcopy (.page i j) f (by simp) hf
    have hf₂ := (hregions.own _ _).mp hf'
    obtain rfl : g = f' := Owns.unique_frame hg.2 hf₂.2
    rw [hregions.own_mem _ _ hg _ (by omega) (by omega), hbytes i j rfl k hk]
    exact hkeeps.mem p hp _ f hf _ (by omega) (by omega)
  · exact hcopies.fresh r f' ((hregions.own _ _).mp hf')
  · have hvmas : ∀ v ∈ lists p, s₂.vmas v = s.vmas v := fun v hv => by
      rw [hcopies.steady.vmas, hkeeps.vmas p hp v hv]
    rw [Function.update_self, Function.update_of_ne hpc, List.nil_append] at hseq
    rw [hseq ⟨by simp, hsorted.imp_of_mem fun {v w} hv hw hlt => by rwa [hvmas v hv, hvmas w hw]⟩]
    exact List.map_congr_left fun v hv => by rw [hvmas v hv]

/-- What `mm_clone_user_eager` does, whichever way it ends. -/
structure CloneResult (B : Nat → Prop) (s t : State) (p : Nat) (child : Option Nat)
    (lists lists' : Nat → List Nat) : Prop where
  inv : FrameInv B [] t
  regionInv : RegionInv t lists'
  lists_eq : ∀ m, s.mmUsed m = true → lists' m = lists m
  keeps : Keeps (fun m => s.mmUsed m = true) lists s t
  cr3 : t.paging.cr3 = s.paging.cr3
  none : child = none → ∀ m, t.mmUsed m = true → s.mmUsed m = true
  some : ∀ c, child = some c → s.mmUsed c = false ∧ Cloned s t p c lists lists'

theorem mmCloneUserEager_spec {child : Option Nat}
    (hret : mmCloneUserEager s (some p) = .ok (child, t)) (hs : FrameInv B [] s)
    (hr : RegionInv s lists) (hp : s.mmUsed p = true) :
    ∃ lists', CloneResult B s t p child lists lists' := by
  unfold mmCloneUserEager at hret
  obtain ⟨⟨child₁, s₁⟩, hcreate, hret⟩ := bind_eq_ok.mp hret
  obtain ⟨hinv₁, hcase⟩ := mmCreate_spec hcreate hs
  rcases hcase with ⟨rfl, hcalm⟩ | ⟨c, f, rfl, hnew⟩
  · simp only [Except.ok.injEq, Prod.mk.injEq] at hret
    obtain ⟨rfl, rfl⟩ := hret
    exact ⟨lists, hinv₁, hr.calm hcalm, fun _ _ => rfl, .ofCalm hcalm _ lists, hcalm.cr3,
      fun _ m hm => by rwa [hcalm.mmUsed] at hm, by simp⟩
  · have hpc : p ≠ c := by
      rintro rfl
      exact absurd (hnew.unused.symm.trans hp) (by simp)
    have hp₁ : s₁.mmUsed p = true := by
      rw [hnew.mmUsed, Function.update_of_ne hpc]
      exact hp
    have hc₁ : s₁.mmUsed c = true := by rw [hnew.mmUsed, Function.update_self]
    have hr₁ := hnew.regionInv hr
    have hkeeps₁ := hnew.keeps lists
    have hne : ∀ m, s.mmUsed m = true → m ≠ c := by
      rintro m hm rfl
      exact absurd (hnew.unused.symm.trans hm) (by simp)
    have hlists₁ : ∀ m, s.mmUsed m = true → Function.update lists c [] m = lists m :=
      fun m hm => Function.update_of_ne (hne m hm) _ _
    obtain ⟨⟨done, s₂⟩, hclone, hret⟩ := bind_eq_ok.mp hret
    obtain ⟨lists', huser⟩ := cloneUser_spec hclone hinv₁ hr₁ (hnew.copies p) hpc hp₁ hc₁
    have hkeeps : Keeps (fun m => s.mmUsed m = true) lists s s₂ := by
      refine hkeeps₁.trans (huser.keeps.mono (fun m hm => ⟨?_, hne m hm⟩) fun _ _ => rfl) hlists₁
      rw [hkeeps₁.mmUsed m hm]
      exact hm
    have hlists : ∀ m, s.mmUsed m = true → lists' m = lists m := fun m hm =>
      (huser.lists_ne m (hne m hm)).trans (hlists₁ m hm)
    dsimp only at hret
    split at hret
    · rename_i hdone
      simp only [Except.ok.injEq, Prod.mk.injEq] at hret
      obtain ⟨rfl, rfl⟩ := hret
      refine ⟨lists', huser.inv, huser.regionInv, hlists, hkeeps,
        huser.cr3.trans hnew.cr3, by simp, fun c' hc' => ?_⟩
      obtain rfl := Option.some.inj hc'
      exact ⟨hnew.unused, cloned_of_userCopied hnew huser hdone hpc hp⟩
    · obtain ⟨s₃, hdestroy, hret⟩ := bind_eq_ok.mp hret
      simp only [Except.ok.injEq, Prod.mk.injEq] at hret
      obtain ⟨rfl, rfl⟩ := hret
      have hc₂ : s₂.mmUsed c = true := by rw [huser.mmUsed]; exact hc₁
      obtain ⟨hinv₃, hdes, hr₃⟩ := mmDestroy_spec hdestroy huser.inv huser.regionInv hc₂
      have hlists₃ : ∀ m, s.mmUsed m = true → Function.update lists' c [] m = lists m :=
        fun m hm => (Function.update_of_ne (hne m hm) _ _).trans (hlists m hm)
      refine ⟨_, hinv₃, hr₃, hlists₃, ?_, hdes.cr3.trans (huser.cr3.trans hnew.cr3),
        fun _ m hm => ?_, by simp⟩
      · refine hkeeps.trans (v := lists) ⟨fun m hm => ?_, fun m hm => hdes.mms m (hne m hm),
          fun m hm r f => ?_, fun m hm r f hf => hdes.own_mem _ f hf,
          fun m hm v hv => by rw [hdes.vmas]⟩ fun _ _ => rfl
        · rw [hdes.mmUsed, Function.update_of_ne (hne m hm)]
        · rw [hdes.own]
          simp [hne m hm]
      · rw [hdes.mmUsed, huser.mmUsed, hnew.mmUsed] at hm
        by_cases hmc : m = c
        · subst hmc
          simp at hm
        · rwa [Function.update_of_ne hmc, Function.update_of_ne hmc] at hm

end Unidos.Mm
