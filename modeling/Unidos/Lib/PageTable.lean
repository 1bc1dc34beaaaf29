import Unidos.Lib.Memory
import Mathlib.Data.Finset.Card
import Mathlib.Data.Finset.Prod
import Mathlib.Data.Finset.Range
import Mathlib.Data.Nat.Bitwise

/-!
# Two-level page tables in memory

A page directory is a frame of 1024 entries; a present entry names the frame of a page table, and a
present entry of that table the frame of a page. `Owns n mem d role f` says that the directory in
frame `d` refers to frame `f` in the given role, through its first `n` entries. The lemmas say how
the relation changes when memory does: not at all outside the table frames (`owns_congr`), and by
one pair when an entry is filled in (`owns_setTable`, `owns_setPage`).
-/

namespace Unidos.Lib

/-! ## Entries -/

/-- The present bit of an entry. -/
def entryPresent (w : BitVec 32) : Bool := w &&& 1#32 != 0#32

/-- The physical address in an entry. -/
def entryPhys (w : BitVec 32) : Nat := (w &&& 0xFFFFF000).toNat

/-- The number of the frame in an entry. -/
def entryFrame (w : BitVec 32) : Nat := entryPhys w / 4096

/-- The flag bits of an entry. -/
def entryFlags (w : BitVec 32) : BitVec 32 := w &&& 0xFFF

/-- The entry for the frame at address `phys`. -/
def mkEntry (phys : Nat) (flags : BitVec 32) : BitVec 32 := BitVec.ofNat 32 phys ||| flags

theorem entryPresent_eq (w : BitVec 32) : entryPresent w = w.getLsbD 0 := by
  have hand : (w &&& 1#32).getLsbD 0 = w.getLsbD 0 := by simp
  unfold entryPresent
  cases hbit : w.getLsbD 0 with
  | true =>
      rw [bne_iff_ne]
      intro h
      rw [h, hbit] at hand
      simp at hand
  | false =>
      rw [bne_eq_false_iff_eq]
      refine BitVec.eq_of_getLsbD_eq fun i hi => ?_
      by_cases hi0 : i = 0
      · subst hi0
        rw [hand, hbit]
        simp
      · simp [BitVec.getLsbD_one, hi0]

theorem getLsbD_flagMask {i : Nat} (hi : i < 32) :
    (0xFFF : BitVec 32).getLsbD i = decide (i < 12) := by
  revert i
  decide

theorem getLsbD_physMask {i : Nat} (hi : i < 32) :
    (0xFFFFF000 : BitVec 32).getLsbD i = decide (12 ≤ i) := by
  revert i
  decide

/-- Low bits of a page-aligned address are clear. -/
theorem getLsbD_ofNat_aligned {phys i : Nat} (h : phys % 4096 = 0) (hi : i < 12) :
    (BitVec.ofNat 32 phys).getLsbD i = false := by
  obtain ⟨f, rfl⟩ : ∃ f, phys = 4096 * f := ⟨phys / 4096, by omega⟩
  rw [BitVec.getLsbD_ofNat, show 4096 * f = 2 ^ 12 * f from rfl, Nat.testBit_two_pow_mul]
  simp [hi]

/-- High bits of a flag word are clear. -/
theorem getLsbD_flags {flags : BitVec 32} {i : Nat} (h : flags.toNat < 4096) (hi : 12 ≤ i) :
    flags.getLsbD i = false := by
  rw [← BitVec.testBit_toNat]
  exact Nat.testBit_lt_two_pow (h.trans_le (Nat.pow_le_pow_right Nat.two_pos hi))

theorem entryFlags_lt (w : BitVec 32) : (entryFlags w).toNat < 4096 := by
  unfold entryFlags
  rw [BitVec.toNat_and]
  exact Nat.lt_of_le_of_lt Nat.and_le_right (by decide)

@[simp] theorem entryPresent_flags (w : BitVec 32) :
    entryPresent (entryFlags w) = entryPresent w := by
  simp [entryPresent_eq, entryFlags]

theorem entryPhys_aligned (w : BitVec 32) : entryPhys w % 4096 = 0 := by
  unfold entryPhys
  rw [BitVec.toNat_and, show 4096 = 2 ^ 12 from rfl, Nat.and_mod_two_pow]
  exact Nat.and_zero _

theorem entryPhys_eq (w : BitVec 32) : entryPhys w = 4096 * entryFrame w := by
  have := entryPhys_aligned w
  unfold entryFrame
  omega

section MkEntry

variable {phys : Nat} {flags : BitVec 32} (hphys : phys % 4096 = 0) (hlt : phys < 2 ^ 32)
  (hflags : flags.toNat < 4096)

include hphys hlt hflags

theorem entryPhys_mkEntry : entryPhys (mkEntry phys flags) = phys := by
  have h : mkEntry phys flags &&& 0xFFFFF000 = BitVec.ofNat 32 phys := by
    refine BitVec.eq_of_getLsbD_eq fun i hi => ?_
    rw [mkEntry, BitVec.getLsbD_and, BitVec.getLsbD_or, getLsbD_physMask hi]
    by_cases h12 : 12 ≤ i
    · simp [h12, getLsbD_flags hflags h12]
    · simp [h12, getLsbD_ofNat_aligned hphys (show i < 12 by omega)]
  rw [entryPhys, h, BitVec.toNat_ofNat, Nat.mod_eq_of_lt hlt]

theorem entryFrame_mkEntry : entryFrame (mkEntry phys flags) = phys / 4096 := by
  rw [entryFrame, entryPhys_mkEntry hphys hlt hflags]

omit hlt in
theorem entryFlags_mkEntry : entryFlags (mkEntry phys flags) = flags := by
  refine BitVec.eq_of_getLsbD_eq fun i hi => ?_
  rw [entryFlags, mkEntry, BitVec.getLsbD_and, BitVec.getLsbD_or, getLsbD_flagMask hi]
  by_cases h12 : i < 12
  · simp [h12, getLsbD_ofNat_aligned hphys h12]
  · simp [h12, getLsbD_flags hflags (show 12 ≤ i by omega)]

omit hlt hflags in
theorem entryPresent_mkEntry : entryPresent (mkEntry phys flags) = entryPresent flags := by
  rw [entryPresent_eq, entryPresent_eq, mkEntry, BitVec.getLsbD_or,
    getLsbD_ofNat_aligned hphys (by omega), Bool.false_or]

end MkEntry

/-! ## Tables -/

/-- Entry `i` of the directory or table in frame `t`. -/
def tableEntry (mem : Memory) (t i : Nat) : BitVec 32 := mem.readWord (4096 * t + 4 * i)

/-- Memory after entry `i` of the table in frame `t` was set. -/
def setEntry (mem : Memory) (t i : Nat) (w : BitVec 32) : Memory :=
  mem.writeWord (4096 * t + 4 * i) w

/-- Two memories agree on frame `f`. -/
def AgreeOn (mem mem' : Memory) (f : Nat) : Prop :=
  ∀ a, 4096 * f ≤ a → a < 4096 * f + 4096 → mem' a = mem a

theorem AgreeOn.refl (mem : Memory) (f : Nat) : AgreeOn mem mem f := fun _ _ _ => rfl

theorem AgreeOn.trans {mem mem' mem'' : Memory} {f : Nat} (h : AgreeOn mem mem' f)
    (h' : AgreeOn mem' mem'' f) : AgreeOn mem mem'' f :=
  fun a h1 h2 => (h' a h1 h2).trans (h a h1 h2)

theorem AgreeOn.tableEntry {mem mem' : Memory} {t i : Nat} (h : AgreeOn mem mem' t)
    (hi : i < 1024) : tableEntry mem' t i = tableEntry mem t i :=
  Memory.readWord_congr fun a h1 h2 => h a (by omega) (by omega)

theorem tableEntry_setEntry_same (mem : Memory) (t i : Nat) (w : BitVec 32) :
    tableEntry (setEntry mem t i w) t i = w :=
  Memory.readWord_writeWord_same mem _ w

theorem tableEntry_setEntry_ne (mem : Memory) {t i j : Nat} (w : BitVec 32) (h : j ≠ i) :
    tableEntry (setEntry mem t i w) t j = tableEntry mem t j :=
  Memory.readWord_writeWord_ne mem _ _ w (by omega)

theorem agreeOn_setEntry (mem : Memory) {t i f : Nat} (w : BitVec 32) (hi : i < 1024)
    (h : f ≠ t) : AgreeOn mem (setEntry mem t i w) f :=
  fun a _ _ => Memory.writeWord_apply_ne mem _ a w (by omega)

/-- All changes lie in frame `g`. -/
def ChangesOnly (mem mem' : Memory) (g : Nat) : Prop := ∀ f, f ≠ g → AgreeOn mem mem' f

theorem changesOnly_setEntry (mem : Memory) (t : Nat) {i : Nat} (w : BitVec 32) (hi : i < 1024) :
    ChangesOnly mem (setEntry mem t i w) t :=
  fun _ hf => agreeOn_setEntry mem w hi hf

theorem changesOnly_fillBytes (mem : Memory) (g : Nat) (value : Byte) :
    ChangesOnly mem (mem.fillBytes (4096 * g) 4096 value) g :=
  fun _ _ _ _ _ => Memory.fillBytes_apply_ne mem value (by omega)

theorem changesOnly_copyBytes (mem : Memory) (g : Nat) {len : Nat} (source : Nat → Byte)
    (hlen : len ≤ 4096) : ChangesOnly mem (mem.copyBytes (4096 * g) len source) g :=
  fun _ _ _ _ _ => Memory.copyBytes_apply_ne mem source (by omega)

theorem changesOnly_update (mem : Memory) (f va : Nat) (value : Byte) :
    ChangesOnly mem (Function.update mem (4096 * f + va % 4096) value) f :=
  fun g hg a h1 h2 => Function.update_of_ne (by omega) _ _

theorem ChangesOnly.trans {mem mem' mem'' : Memory} {g : Nat} (h : ChangesOnly mem mem' g)
    (h' : ChangesOnly mem' mem'' g) : ChangesOnly mem mem'' g :=
  fun f hf => (h f hf).trans (h' f hf)

/-- What a frame is to a page directory. -/
inductive Role where
  | dir
  | table (i : Nat)
  | page (i j : Nat)
  deriving DecidableEq

/-- The directory in frame `d` refers to frame `f` in a role, through its first `n` entries. -/
def Owns (n : Nat) (mem : Memory) (d : Nat) : Role → Nat → Prop
  | .dir, f => f = d
  | .table i, f =>
      i < n ∧ entryPresent (tableEntry mem d i) = true ∧ f = entryFrame (tableEntry mem d i)
  | .page i j, f =>
      (i < n ∧ entryPresent (tableEntry mem d i) = true) ∧ j < 1024 ∧
        entryPresent (tableEntry mem (entryFrame (tableEntry mem d i)) j) = true ∧
        f = entryFrame (tableEntry mem (entryFrame (tableEntry mem d i)) j)

/-- The frames whose contents the relation depends on. -/
def IsTable (n : Nat) (mem : Memory) (d f : Nat) : Prop := f = d ∨ ∃ i, Owns n mem d (.table i) f

variable {n d : Nat} {mem mem' : Memory}

/-- A directory refers to at most one frame in each role. -/
theorem Owns.unique_frame {r : Role} {f g : Nat} (hf : Owns n mem d r f) (hg : Owns n mem d r g) :
    f = g := by
  cases r with
  | dir => exact hf.trans hg.symm
  | table i => exact hf.2.2.trans hg.2.2.symm
  | page i j => exact hf.2.2.2.trans hg.2.2.2.symm

theorem Owns.table_of_page {i j f : Nat} (h : Owns n mem d (.page i j) f) :
    Owns n mem d (.table i) (entryFrame (tableEntry mem d i)) :=
  ⟨h.1.1, h.1.2, rfl⟩

/-- Memory that agrees on all table frames gives the same relation. -/
theorem owns_congr (hn : n ≤ 1024) (h : ∀ f, IsTable n mem d f → AgreeOn mem mem' f) (r : Role)
    (f : Nat) : Owns n mem' d r f ↔ Owns n mem d r f := by
  have hdir : ∀ i, i < n → tableEntry mem' d i = tableEntry mem d i :=
    fun i hi => (h d (.inl rfl)).tableEntry (by omega)
  cases r with
  | dir => exact Iff.rfl
  | table i =>
      simp only [Owns]
      by_cases hi : i < n
      · rw [hdir i hi]
      · simp [hi]
  | page i j =>
      simp only [Owns]
      by_cases hi : i < n
      · rw [hdir i hi]
        by_cases hp : entryPresent (tableEntry mem d i) = true
        · by_cases hj : j < 1024
          · rw [(h _ (.inr ⟨i, hi, hp, rfl⟩)).tableEntry hj]
          · simp [hj]
        · simp [hp]
      · simp [hi]

/-- The relation after a new, empty table was entered into the directory. -/
theorem owns_setTable (hn : n ≤ 1024) {i : Nat} {w : BitVec 32} (hi : i < n)
    (habsent : entryPresent (tableEntry mem d i) = false) (hw : entryPresent w = true)
    (hempty : ∀ j, j < 1024 → entryPresent (tableEntry mem (entryFrame w) j) = false)
    (hne : entryFrame w ≠ d) (hself : ∀ k, ¬ Owns n mem d (.table k) d) (r : Role) (f : Nat) :
    Owns n (setEntry mem d i w) d r f ↔
      Owns n mem d r f ∨ (r = .table i ∧ f = entryFrame w) := by
  have hagree : ∀ t, t ≠ d → AgreeOn mem (setEntry mem d i w) t :=
    fun t ht => agreeOn_setEntry mem w (by omega) ht
  cases r with
  | dir => simp [Owns]
  | table k =>
      simp only [Owns]
      by_cases hk : k = i
      · subst hk
        rw [tableEntry_setEntry_same]
        simp [hi, hw, habsent]
      · rw [tableEntry_setEntry_ne mem w hk]
        simp [hk]
  | page k j =>
      simp only [Owns]
      by_cases hk : k = i
      · subst hk
        rw [tableEntry_setEntry_same]
        simp only [reduceCtorEq, false_and, or_false]
        constructor
        · rintro ⟨-, hj, hp, -⟩
          rw [(hagree _ hne).tableEntry hj, hempty j hj] at hp
          exact absurd hp (by simp)
        · rintro ⟨⟨-, hp⟩, -⟩
          rw [habsent] at hp
          exact absurd hp (by simp)
      · rw [tableEntry_setEntry_ne mem w hk]
        by_cases hp : k < n ∧ entryPresent (tableEntry mem d k) = true
        · have hkd : entryFrame (tableEntry mem d k) ≠ d :=
            fun heq => hself k ⟨hp.1, hp.2, heq.symm⟩
          by_cases hj : j < 1024
          · rw [(hagree _ hkd).tableEntry hj]
            simp
          · simp [hj]
        · simp [hp]

/-- The relation after a page was entered into one of the tables. -/
theorem owns_setPage (hn : n ≤ 1024) {i j t : Nat} {w : BitVec 32}
    (ht : Owns n mem d (.table i) t) (hj : j < 1024)
    (habsent : entryPresent (tableEntry mem t j) = false) (hw : entryPresent w = true)
    (hne : t ≠ d) (huniq : ∀ k, Owns n mem d (.table k) t → k = i) (r : Role) (f : Nat) :
    Owns n (setEntry mem t j w) d r f ↔
      Owns n mem d r f ∨ (r = .page i j ∧ f = entryFrame w) := by
  have hdir : ∀ k, k < n → tableEntry (setEntry mem t j w) d k = tableEntry mem d k :=
    fun k hk => (agreeOn_setEntry mem w hj hne.symm).tableEntry (by omega)
  cases r with
  | dir => simp [Owns]
  | table k =>
      simp only [Owns]
      by_cases hk : k < n
      · rw [hdir k hk]
        simp
      · simp [hk]
  | page k l =>
      simp only [Owns]
      by_cases hk : k < n
      · rw [hdir k hk]
        by_cases hp : entryPresent (tableEntry mem d k) = true
        · by_cases hkt : entryFrame (tableEntry mem d k) = t
          · -- only entry `i` of the directory names the table
            have hki : k = i := huniq k ⟨hk, hp, hkt.symm⟩
            subst hki
            rw [hkt]
            by_cases hl : l = j
            · subst hl
              rw [tableEntry_setEntry_same]
              simp [hk, hp, hj, hw, habsent]
            · rw [tableEntry_setEntry_ne mem w hl]
              simp [hl]
          · by_cases hl : l < 1024
            · rw [(agreeOn_setEntry mem w hj hkt).tableEntry hl]
              have hki : ¬ (k = i ∧ l = j) := by
                rintro ⟨rfl, -⟩
                exact hkt ht.2.2.symm
              simp only [Role.page.injEq, hki, false_and, or_false]
            · have hlj : l ≠ j := by omega
              simp [hl, hlj]
        · have hki : k ≠ i := by
            rintro rfl
            exact hp ht.2.1
          simp [hp, hki]
      · have hki : k ≠ i := by
          rintro rfl
          exact hk ht.1
        simp [hk, hki]

/-- The entry through which a directory refers to a frame in a role. -/
def roleEntry (mem : Memory) (d : Nat) : Role → BitVec 32
  | .dir => 0
  | .table i => tableEntry mem d i
  | .page i j => tableEntry mem (entryFrame (tableEntry mem d i)) j

/-- Memory that agrees on all table frames holds the same entries. -/
theorem roleEntry_congr (hn : n ≤ 1024) (h : ∀ f, IsTable n mem d f → AgreeOn mem mem' f)
    {r : Role} {f : Nat} (hf : Owns n mem d r f) : roleEntry mem' d r = roleEntry mem d r := by
  have hdir : ∀ i, i < n → tableEntry mem' d i = tableEntry mem d i :=
    fun i hi => (h d (.inl rfl)).tableEntry (by omega)
  cases r with
  | dir => rfl
  | table i => exact hdir i hf.1
  | page i j =>
      simp only [roleEntry]
      rw [hdir i hf.1.1]
      exact (h _ (.inr ⟨i, hf.table_of_page⟩)).tableEntry hf.2.1

/-! ## Walks

A walk visits the directory entries in order, and for each one that is present its table and the
pages of the table. -/

/-- The roles that are through once a walk has come to entry `i` of the directory. -/
def Role.before (i : Nat) : Role → Prop
  | .dir => False
  | .table k => k < i
  | .page k _ => k < i

/-- The roles that are through once a walk has come to page `j` of entry `i`. -/
def Role.walked (i j : Nat) (r : Role) : Prop := r.before i ∨ ∃ k, k < j ∧ r = .page i k

theorem Role.walked_zero (i : Nat) (r : Role) : r.walked i 0 ↔ r.before i := by
  simp [Role.walked]

theorem Role.walked_succ (i j : Nat) (r : Role) :
    r.walked i (j + 1) ↔ r.walked i j ∨ r = .page i j := by
  unfold Role.walked
  constructor
  · rintro (hr | ⟨k, hk, rfl⟩)
    · exact .inl (.inl hr)
    · by_cases hkj : k = j
      · exact .inr (by rw [hkj])
      · exact .inl (.inr ⟨k, by omega, rfl⟩)
  · rintro ((hr | ⟨k, hk, rfl⟩) | rfl)
    · exact .inl hr
    · exact .inr ⟨k, by omega, rfl⟩
    · exact .inr ⟨j, by omega, rfl⟩

theorem Role.not_walked_page (i j : Nat) : ¬ (Role.page i j).walked i j := by
  rintro (hr | ⟨k, hk, heq⟩)
  · exact absurd hr (by simp [Role.before])
  · simp only [Role.page.injEq, true_and] at heq
    omega

theorem Role.not_walked_table (i j : Nat) : ¬ (Role.table i).walked i j := by
  simp [Role.walked, Role.before]

theorem Role.not_before_zero (r : Role) : ¬ r.before 0 := by
  cases r <;> simp [Role.before]

/-- After the last page of an entry and its table, the walk is at the next entry. -/
theorem Role.before_succ {i g : Nat} {r : Role} (h : Owns n mem d r g) :
    r.before (i + 1) ↔ r.walked i 1024 ∨ r = .table i := by
  cases r with
  | dir => simp [Role.walked, Role.before]
  | table k =>
      simp only [Role.walked, Role.before, Role.table.injEq, reduceCtorEq, and_false, exists_false,
        or_false]
      omega
  | page k j =>
      have hj : j < 1024 := h.2.1
      simp only [Role.walked, Role.before, Role.page.injEq, reduceCtorEq, or_false]
      constructor
      · intro hk
        by_cases hki : k = i
        · exact .inr ⟨j, hj, hki, rfl⟩
        · exact .inl (by omega)
      · rintro (hk | ⟨j', -, rfl, -⟩)
        · omega
        · omega

/-- Nothing is owned through an absent entry. -/
theorem Role.before_skip {i g : Nat} {r : Role} (h : Owns n mem d r g)
    (habsent : entryPresent (tableEntry mem d i) = false) : r.before (i + 1) ↔ r.before i := by
  cases r with
  | dir => exact Iff.rfl
  | table k =>
      have hki : k ≠ i := by
        rintro rfl
        exact absurd (habsent.symm.trans h.2.1) (by simp)
      simp only [Role.before]
      omega
  | page k j =>
      have hki : k ≠ i := by
        rintro rfl
        exact absurd (habsent.symm.trans h.1.2) (by simp)
      simp only [Role.before]
      omega

/-- A whole walk passes everything but the directory itself. -/
theorem Role.before_all {g : Nat} {r : Role} (h : Owns n mem d r g) : r.before n ↔ r ≠ .dir := by
  cases r with
  | dir => simp [Role.before]
  | table k => simp [Role.before, h.1]
  | page k j => simp [Role.before, h.1.1]

/-! ## Counting pages -/

open Classical in
/-- The number of pages a directory refers to. -/
noncomputable def pageCount (n : Nat) (mem : Memory) (d : Nat) : Nat :=
  ((Finset.range n ×ˢ Finset.range 1024).filter fun p => ∃ f, Owns n mem d (.page p.1 p.2) f).card

theorem pageCount_congr (h : ∀ i j f, Owns n mem' d (.page i j) f ↔ Owns n mem d (.page i j) f) :
    pageCount n mem' d = pageCount n mem d := by
  classical
  unfold pageCount
  congr 1
  apply Finset.filter_congr
  intro p _
  simp only [h]

/-- One page more. -/
theorem pageCount_add {i j g : Nat} (hi : i < n) (hj : j < 1024)
    (hnone : ∀ f, ¬ Owns n mem d (.page i j) f)
    (h : ∀ k l f, Owns n mem' d (.page k l) f ↔
      Owns n mem d (.page k l) f ∨ (Role.page k l = .page i j ∧ f = g)) :
    pageCount n mem' d = pageCount n mem d + 1 := by
  classical
  unfold pageCount
  rw [← Finset.card_insert_of_notMem (a := (i, j))]
  · congr 1
    ext ⟨k, l⟩
    simp only [Finset.mem_filter, Finset.mem_product, Finset.mem_range, Finset.mem_insert,
      Prod.mk.injEq, h, Role.page.injEq, exists_or]
    constructor
    · rintro ⟨hkl, hown | ⟨f, heq, -⟩⟩
      · exact .inr ⟨hkl, hown⟩
      · exact .inl heq
    · rintro (⟨rfl, rfl⟩ | ⟨hkl, hown⟩)
      · exact ⟨⟨hi, hj⟩, .inr ⟨g, ⟨rfl, rfl⟩, rfl⟩⟩
      · exact ⟨hkl, .inl hown⟩
  · simp [hnone]

theorem pageCount_le (n : Nat) (mem : Memory) (d : Nat) : pageCount n mem d ≤ n * 1024 := by
  classical
  unfold pageCount
  refine (Finset.card_filter_le _ _).trans ?_
  rw [Finset.card_product, Finset.card_range, Finset.card_range]

theorem pageCount_eq_zero (h : ∀ i, i < n → entryPresent (tableEntry mem d i) = false) :
    pageCount n mem d = 0 := by
  classical
  unfold pageCount
  rw [Finset.card_eq_zero, Finset.filter_eq_empty_iff]
  rintro ⟨i, j⟩ - ⟨f, ⟨⟨hi, hp⟩, -⟩⟩
  rw [h i hi] at hp
  exact absurd hp (by simp)

end Unidos.Lib
