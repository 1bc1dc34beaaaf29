import Mathlib.Logic.Basic

/-!
# Ledgers

A ledger accounts for units of a resource. Every unit that is taken belongs to the fixed stock
`base`, is in flight (`loose`), or is owned, and an owned unit has exactly one owner. The lemmas
are the moves that keep the books: taking a unit, giving it to an owner or to the stock, putting
it back, and releasing everything that some owners hold.
-/

namespace Unidos.Lib

/-- The books balance: nothing is owned twice, and everything taken is accounted for. -/
structure Ledger {κ ρ : Type*} (own : κ → ρ → Prop) (taken base loose : ρ → Prop) : Prop where
  unique : ∀ k k' f, own k f → own k' f → k = k'
  owned : ∀ k f, own k f → taken f ∧ ¬ base f ∧ ¬ loose f
  base_taken : ∀ f, base f → taken f
  loose_taken : ∀ f, loose f → taken f ∧ ¬ base f
  accounted : ∀ f, taken f → base f ∨ loose f ∨ ∃ k, own k f

namespace Ledger

variable {κ ρ : Type*} {own own' : κ → ρ → Prop} {taken taken' base base' loose loose' : ρ → Prop}

theorem congr (h : Ledger own taken base loose) (hown : ∀ k f, own' k f ↔ own k f)
    (htaken : ∀ f, taken' f ↔ taken f) : Ledger own' taken' base loose where
  unique k k' f hk hk' := h.unique k k' f ((hown k f).mp hk) ((hown k' f).mp hk')
  owned k f hk := by
    obtain ⟨h1, h2⟩ := h.owned k f ((hown k f).mp hk)
    exact ⟨(htaken f).mpr h1, h2⟩
  base_taken f hf := (htaken f).mpr (h.base_taken f hf)
  loose_taken f hf := ⟨(htaken f).mpr (h.loose_taken f hf).1, (h.loose_taken f hf).2⟩
  accounted f hf := (h.accounted f ((htaken f).mp hf)).imp_right
    (Or.imp_right fun ⟨k, hk⟩ => ⟨k, (hown k f).mpr hk⟩)

/-- Take a free unit; it is in flight. -/
theorem take (h : Ledger own taken base loose) {f : ρ} (hf : ¬ taken f)
    (htaken : ∀ g, taken' g ↔ taken g ∨ g = f) (hloose : ∀ g, loose' g ↔ loose g ∨ g = f) :
    Ledger own taken' base loose' where
  unique := h.unique
  owned k g hk := by
    obtain ⟨h1, h2, h3⟩ := h.owned k g hk
    refine ⟨(htaken g).mpr (.inl h1), h2, fun hl => ?_⟩
    rcases (hloose g).mp hl with hl | rfl
    · exact h3 hl
    · exact hf h1
  base_taken g hg := (htaken g).mpr (.inl (h.base_taken g hg))
  loose_taken g hg := by
    rcases (hloose g).mp hg with hl | rfl
    · exact ⟨(htaken g).mpr (.inl (h.loose_taken g hl).1), (h.loose_taken g hl).2⟩
    · exact ⟨(htaken g).mpr (.inr rfl), fun hb => hf (h.base_taken g hb)⟩
  accounted g hg := by
    rcases (htaken g).mp hg with ht | rfl
    · exact (h.accounted g ht).imp_right (Or.imp_left fun hl => (hloose g).mpr (.inl hl))
    · exact .inr (.inl ((hloose g).mpr (.inr rfl)))

/-- Give a unit in flight to an owner. -/
theorem give (h : Ledger own taken base loose) {f : ρ} {k : κ} (hf : loose f)
    (hown : ∀ k' g, own' k' g ↔ own k' g ∨ (k' = k ∧ g = f))
    (hloose : ∀ g, loose' g ↔ loose g ∧ g ≠ f) : Ledger own' taken base loose' where
  unique k1 k2 g h1 h2 := by
    rcases (hown k1 g).mp h1 with h1 | ⟨rfl, rfl⟩ <;> rcases (hown k2 g).mp h2 with h2 | ⟨rfl, hg⟩
    · exact h.unique k1 k2 g h1 h2
    · exact absurd (hg ▸ hf) (h.owned k1 g h1).2.2
    · exact absurd hf (h.owned k2 g h2).2.2
    · rfl
  owned k' g hk := by
    rcases (hown k' g).mp hk with hk | ⟨rfl, rfl⟩
    · obtain ⟨h1, h2, h3⟩ := h.owned k' g hk
      exact ⟨h1, h2, fun hl => h3 ((hloose g).mp hl).1⟩
    · exact ⟨(h.loose_taken g hf).1, (h.loose_taken g hf).2, fun hl => ((hloose g).mp hl).2 rfl⟩
  base_taken := h.base_taken
  loose_taken g hg := h.loose_taken g ((hloose g).mp hg).1
  accounted g hg := by
    rcases h.accounted g hg with hb | hl | ⟨k', hk⟩
    · exact .inl hb
    · by_cases hgf : g = f
      · exact .inr (.inr ⟨k, (hown k g).mpr (.inr ⟨rfl, hgf⟩)⟩)
      · exact .inr (.inl ((hloose g).mpr ⟨hl, hgf⟩))
    · exact .inr (.inr ⟨k', (hown k' g).mpr (.inl hk)⟩)

/-- Give a unit in flight to the stock. -/
theorem keep (h : Ledger own taken base loose) {f : ρ} (hf : loose f)
    (hbase : ∀ g, base' g ↔ base g ∨ g = f) (hloose : ∀ g, loose' g ↔ loose g ∧ g ≠ f) :
    Ledger own taken base' loose' where
  unique := h.unique
  owned k g hk := by
    obtain ⟨h1, h2, h3⟩ := h.owned k g hk
    refine ⟨h1, fun hb => ?_, fun hl => h3 ((hloose g).mp hl).1⟩
    rcases (hbase g).mp hb with hb | rfl
    · exact h2 hb
    · exact h3 hf
  base_taken g hg := by
    rcases (hbase g).mp hg with hb | rfl
    · exact h.base_taken g hb
    · exact (h.loose_taken g hf).1
  loose_taken g hg := by
    obtain ⟨hl, hgf⟩ := (hloose g).mp hg
    refine ⟨(h.loose_taken g hl).1, fun hb => ?_⟩
    rcases (hbase g).mp hb with hb | rfl
    · exact (h.loose_taken g hl).2 hb
    · exact hgf rfl
  accounted g hg := by
    rcases h.accounted g hg with hb | hl | hk
    · exact .inl ((hbase g).mpr (.inl hb))
    · by_cases hgf : g = f
      · exact .inl ((hbase g).mpr (.inr hgf))
      · exact .inr (.inl ((hloose g).mpr ⟨hl, hgf⟩))
    · exact .inr (.inr hk)

/-- Put a unit in flight back. -/
theorem drop (h : Ledger own taken base loose) {f : ρ} (hf : loose f)
    (htaken : ∀ g, taken' g ↔ taken g ∧ g ≠ f) (hloose : ∀ g, loose' g ↔ loose g ∧ g ≠ f) :
    Ledger own taken' base loose' where
  unique := h.unique
  owned k g hk := by
    obtain ⟨h1, h2, h3⟩ := h.owned k g hk
    exact ⟨(htaken g).mpr ⟨h1, fun hgf => h3 (hgf ▸ hf)⟩, h2, fun hl => h3 ((hloose g).mp hl).1⟩
  base_taken g hg :=
    (htaken g).mpr ⟨h.base_taken g hg, fun hgf => (h.loose_taken f hf).2 (hgf ▸ hg)⟩
  loose_taken g hg := by
    obtain ⟨hl, hgf⟩ := (hloose g).mp hg
    exact ⟨(htaken g).mpr ⟨(h.loose_taken g hl).1, hgf⟩, (h.loose_taken g hl).2⟩
  accounted g hg := by
    obtain ⟨ht, hgf⟩ := (htaken g).mp hg
    exact (h.accounted g ht).imp_right (Or.imp_left fun hl => (hloose g).mpr ⟨hl, hgf⟩)

/-- Release everything that the owners in `gone` hold. -/
theorem release (h : Ledger own taken base loose) (gone : κ → Prop)
    (hown : ∀ k g, own' k g ↔ own k g ∧ ¬ gone k)
    (htaken : ∀ g, taken' g ↔ taken g ∧ ¬ ∃ k, gone k ∧ own k g) :
    Ledger own' taken' base loose where
  unique k k' g hk hk' := h.unique k k' g ((hown k g).mp hk).1 ((hown k' g).mp hk').1
  owned k g hk := by
    obtain ⟨hk, hgone⟩ := (hown k g).mp hk
    obtain ⟨h1, h2⟩ := h.owned k g hk
    refine ⟨(htaken g).mpr ⟨h1, ?_⟩, h2⟩
    rintro ⟨k', hgone', hk'⟩
    exact hgone (h.unique k' k g hk' hk ▸ hgone')
  base_taken g hg := by
    refine (htaken g).mpr ⟨h.base_taken g hg, ?_⟩
    rintro ⟨k, -, hk⟩
    exact (h.owned k g hk).2.1 hg
  loose_taken g hg := by
    refine ⟨(htaken g).mpr ⟨(h.loose_taken g hg).1, ?_⟩, (h.loose_taken g hg).2⟩
    rintro ⟨k, -, hk⟩
    exact (h.owned k g hk).2.2 hg
  accounted g hg := by
    obtain ⟨ht, hnone⟩ := (htaken g).mp hg
    rcases h.accounted g ht with hb | hl | ⟨k, hk⟩
    · exact .inl hb
    · exact .inr (.inl hl)
    · exact .inr (.inr ⟨k, (hown k g).mpr ⟨hk, fun hgone => hnone ⟨k, hgone, hk⟩⟩⟩)

end Ledger

end Unidos.Lib
