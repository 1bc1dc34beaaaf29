import Unidos.Lib.PageTable

/-!
# The two-level walk

`translate` is the walk through a page directory. A directory is `Wired` if no table serves two of
its entries and none is the directory itself. Under that condition a write to one table entry
changes the translation of one page (`translate_setPage`), and a new table brings in the pages that
its memory happens to describe (`translate_setTable`).
-/

namespace Unidos.Lib

/-- The entry that the walk finds for page `j` of the table behind directory entry `i`. -/
def translate (mem : Memory) (d i j : Nat) : Option (BitVec 32) :=
  if entryPresent (tableEntry mem d i) then
    Option.guard entryPresent (tableEntry mem (entryFrame (tableEntry mem d i)) j)
  else none

/-- No table serves two directory entries, and none is the directory. -/
structure Wired (mem : Memory) (d : Nat) : Prop where
  ne_dir : ∀ i, i < 1024 → entryPresent (tableEntry mem d i) = true →
    entryFrame (tableEntry mem d i) ≠ d
  inj : ∀ i k, i < 1024 → k < 1024 → entryPresent (tableEntry mem d i) = true →
    entryPresent (tableEntry mem d k) = true →
    entryFrame (tableEntry mem d i) = entryFrame (tableEntry mem d k) → i = k

variable {mem mem' : Memory} {d : Nat}

theorem translate_of_absent {i : Nat} (h : entryPresent (tableEntry mem d i) = false) (j : Nat) :
    translate mem d i j = none := by
  simp [translate, h]

theorem translate_of_present {i : Nat} (h : entryPresent (tableEntry mem d i) = true) (j : Nat) :
    translate mem d i j =
      Option.guard entryPresent (tableEntry mem (entryFrame (tableEntry mem d i)) j) := by
  simp [translate, h]

/-- The walk looks at the directory and at one of its tables only. -/
theorem translate_congr {i j : Nat} (hi : i < 1024) (hj : j < 1024) (hdir : AgreeOn mem mem' d)
    (htable : entryPresent (tableEntry mem d i) = true →
      AgreeOn mem mem' (entryFrame (tableEntry mem d i))) :
    translate mem' d i j = translate mem d i j := by
  unfold translate
  rw [hdir.tableEntry hi]
  by_cases hpresent : entryPresent (tableEntry mem d i) = true
  · rw [if_pos hpresent, if_pos hpresent, (htable hpresent).tableEntry hj]
  · rw [if_neg hpresent, if_neg hpresent]

/-- A directory that stays as it is stays wired. -/
theorem Wired.congr (h : Wired mem d) (hdir : AgreeOn mem mem' d) : Wired mem' d where
  ne_dir i hi := by
    rw [hdir.tableEntry hi]
    exact h.ne_dir i hi
  inj i k hi hk := by
    rw [hdir.tableEntry hi, hdir.tableEntry hk]
    exact h.inj i k hi hk

section SetPage

variable {i : Nat} (h : Wired mem d) (hi : i < 1024)
  (hpresent : entryPresent (tableEntry mem d i) = true) {j : Nat} (hj : j < 1024) (w : BitVec 32)

include h hi hpresent hj

theorem agreeOn_setPage : AgreeOn mem (setEntry mem (entryFrame (tableEntry mem d i)) j w) d :=
  agreeOn_setEntry mem w hj (h.ne_dir i hi hpresent).symm

/-- A write to a table entry changes the translation of that page and of no other. -/
theorem translate_setPage {k l : Nat} (hk : k < 1024) (hl : l < 1024) :
    translate (setEntry mem (entryFrame (tableEntry mem d i)) j w) d k l =
      if k = i ∧ l = j then Option.guard entryPresent w else translate mem d k l := by
  have hdir := agreeOn_setPage h hi hpresent hj w
  by_cases hki : k = i
  · subst hki
    rw [translate_of_present (by rw [hdir.tableEntry hk]; exact hpresent), hdir.tableEntry hk]
    by_cases hlj : l = j
    · subst hlj
      rw [if_pos ⟨rfl, rfl⟩, tableEntry_setEntry_same]
    · rw [if_neg fun hand => hlj hand.2, tableEntry_setEntry_ne _ _ hlj,
        translate_of_present hpresent]
  · rw [if_neg fun hand => hki hand.1]
    refine translate_congr hk hl hdir fun hpresent' => agreeOn_setEntry mem w hj ?_
    exact fun heq => hki (h.inj k i hk hi hpresent' hpresent heq)

end SetPage

section SetTable

variable {i : Nat} (h : Wired mem d) (hi : i < 1024) {w : BitVec 32}

include h hi

/-- A new table brings in what its memory describes, and changes no other translation. -/
theorem translate_setTable (hw : entryPresent w = true) (hne : entryFrame w ≠ d) {k l : Nat}
    (hk : k < 1024) (hl : l < 1024) :
    translate (setEntry mem d i w) d k l =
      if k = i then Option.guard entryPresent (tableEntry mem (entryFrame w) l)
      else translate mem d k l := by
  by_cases hki : k = i
  · subst hki
    rw [if_pos rfl, translate_of_present (by rw [tableEntry_setEntry_same]; exact hw),
      tableEntry_setEntry_same, (agreeOn_setEntry mem w hi hne).tableEntry hl]
  · have hsame := tableEntry_setEntry_ne mem w hki (t := d)
    rw [if_neg hki]
    unfold translate
    rw [hsame]
    by_cases hpresent : entryPresent (tableEntry mem d k) = true
    · rw [if_pos hpresent, if_pos hpresent,
        (agreeOn_setEntry mem w hi (h.ne_dir k hk hpresent)).tableEntry hl]
    · rw [if_neg hpresent, if_neg hpresent]

/-- A table that serves no other entry may be added. -/
theorem Wired.setTable (hne : entryFrame w ≠ d)
    (hnew : ∀ k, k < 1024 → k ≠ i → entryPresent (tableEntry mem d k) = true →
      entryFrame (tableEntry mem d k) ≠ entryFrame w) :
    Wired (setEntry mem d i w) d where
  ne_dir k hk := by
    by_cases hki : k = i
    · subst hki
      rw [tableEntry_setEntry_same]
      exact fun _ => hne
    · rw [tableEntry_setEntry_ne _ _ hki]
      exact h.ne_dir k hk
  inj k l hk hl := by
    by_cases hki : k = i
    · by_cases hli : l = i
      · exact fun _ _ _ => hki.trans hli.symm
      · subst hki
        rw [tableEntry_setEntry_same, tableEntry_setEntry_ne _ _ hli]
        exact fun _ hpresent heq => absurd heq.symm (hnew l hl hli hpresent)
    · rw [tableEntry_setEntry_ne _ _ hki]
      by_cases hli : l = i
      · subst hli
        rw [tableEntry_setEntry_same]
        exact fun hpresent _ heq => absurd heq (hnew k hk hki hpresent)
      · rw [tableEntry_setEntry_ne _ _ hli]
        exact h.inj k l hk hl

end SetTable

end Unidos.Lib
