import Unidos.Lib.Chain

/-!
# Families of intrusive lists

Several lists can run through the same link field, as long as no node is on two of them. `Lists next
head l` says that from `head k` on the links lead through the nodes of `l k`, for every `k`. The
lemmas say what linking and unlinking a node does to the family.
-/

namespace Unidos.Lib

variable {κ ν : Type*}

/-- The links form one list for each head, and no two of them share a node. -/
structure Lists (next : ν → Option ν) (head : κ → Option ν) (l : κ → List ν) : Prop where
  chain : ∀ k, Chain next (head k) (l k)
  disjoint : ∀ {j k n}, n ∈ l j → n ∈ l k → j = k

namespace Lists

variable {next next' : ν → Option ν} {head head' : κ → Option ν} {l : κ → List ν} {k : κ} {n : ν}

theorem congr (h : Lists next head l) (hnext : ∀ k, ∀ n ∈ l k, next' n = next n)
    (hhead : ∀ k, head' k = head k) : Lists next' head' l := by
  refine ⟨fun k => ?_, h.disjoint⟩
  rw [hhead k]
  exact (h.chain k).congr (hnext k)

theorem empty (next : ν → Option ν) (hhead : ∀ k, head k = none) : Lists next head fun _ => [] :=
  ⟨hhead, fun hn _ => by simp at hn⟩

theorem head_eq_none (h : Lists next head l) : head k = none ↔ l k = [] := by
  have hchain := h.chain k
  constructor
  · intro hnone
    cases hl : l k with
    | nil => rfl
    | cons n l' =>
        rw [hl, hnone] at hchain
        cases hchain.1
  · intro hnil
    rw [hnil] at hchain
    exact hchain

section Nodes

variable [DecidableEq ν]

/-- The links of a node that is on no list do not matter. -/
theorem setNext (h : Lists next head l) (hn : ∀ k, n ∉ l k) (q : Option ν) :
    Lists (Function.update next n q) head l := by
  refine h.congr (fun k m hm => Function.update_of_ne ?_ _ _) fun _ => rfl
  intro heq
  exact hn k (heq ▸ hm)

/-- A node that is on no list is erased from none of them. -/
theorem erase_of_not_mem (hn : ∀ k, n ∉ l k) : (fun j => (l j).erase n) = l :=
  funext fun j => List.erase_of_not_mem (hn j)

private theorem disjoint_erase (h : Lists next head l) {i j : κ} {m : ν} (hi : m ∈ (l i).erase n)
    (hj : m ∈ (l j).erase n) : i = j :=
  h.disjoint (List.mem_of_mem_erase hi) (List.mem_of_mem_erase hj)

/-- The other lists do not notice that a node of one is erased. -/
private theorem erase_other (h : Lists next head l) {j : κ} (hk : n ∈ l k) (hjk : j ≠ k) :
    (l j).erase n = l j :=
  List.erase_of_not_mem fun hj => hjk (h.disjoint hj hk)

/-- After it was erased a node is on no list. -/
theorem not_mem_erase (h : Lists next head l) (n : ν) (j : κ) : n ∉ (l j).erase n :=
  fun hmem => ((h.chain j).nodup.mem_erase_iff.mp hmem).1 rfl

end Nodes

variable [DecidableEq κ]

/-- Forget one of the lists. -/
theorem clear (h : Lists next head l) (k : κ) :
    Lists next (Function.update head k none) (Function.update l k []) := by
  refine ⟨fun j => ?_, fun {i j m} hi hj => ?_⟩
  · by_cases hjk : j = k
    · subst hjk
      rw [Function.update_self, Function.update_self]
      rfl
    · rw [Function.update_of_ne hjk, Function.update_of_ne hjk]
      exact h.chain j
  · have hsub : ∀ i, m ∈ Function.update l k [] i → m ∈ l i := by
      intro i hm
      by_cases hik : i = k
      · simp [hik] at hm
      · rwa [Function.update_of_ne hik] at hm
    exact h.disjoint (hsub i hi) (hsub j hj)

/-- A longer list in place of one of them. -/
private theorem disjoint_update (h : Lists next head l) {l' : List ν} (hn : ∀ k, n ∉ l k)
    (hl' : ∀ m ∈ l', m = n ∨ m ∈ l k) {i j : κ} {m : ν} (hi : m ∈ Function.update l k l' i)
    (hj : m ∈ Function.update l k l' j) : i = j := by
  have hwhere : ∀ i, m ∈ Function.update l k l' i → (m = n ∧ i = k) ∨ m ∈ l i := by
    intro i hm
    by_cases hik : i = k
    · subst hik
      rw [Function.update_self] at hm
      exact (hl' m hm).imp_left fun heq => ⟨heq, rfl⟩
    · rw [Function.update_of_ne hik] at hm
      exact .inr hm
  obtain ⟨heq, hik⟩ | hi := hwhere i hi
  · obtain ⟨-, hjk⟩ | hj := hwhere j hj
    · rw [hik, hjk]
    · exact absurd (heq ▸ hj) (hn j)
  · obtain ⟨heq, -⟩ | hj := hwhere j hj
    · exact absurd (heq ▸ hi) (hn i)
    · exact h.disjoint hi hj

variable [DecidableEq ν]

/-- Push a node in front of a list. -/
theorem push (h : Lists next head l) (hn : ∀ k, n ∉ l k) (k : κ) :
    Lists (Function.update next n (head k)) (Function.update head k (some n))
      (Function.update l k (n :: l k)) := by
  refine ⟨fun j => ?_, h.disjoint_update hn fun m hm => by simpa using hm⟩
  by_cases hjk : j = k
  · subst hjk
    rw [Function.update_self, Function.update_self]
    exact (h.chain j).push (hn j)
  · rw [Function.update_of_ne hjk, Function.update_of_ne hjk]
    exact (h.chain j).update (hn j)

/-- Start a list with a node that leads nowhere. -/
theorem start (h : Lists next head l) (hn : ∀ k, n ∉ l k) (hhead : head k = none)
    (hnext : next n = none) :
    Lists next (Function.update head k (some n)) (Function.update l k [n]) := by
  have hpush := h.push hn k
  rwa [hhead, ← hnext, Function.update_eq_self, h.head_eq_none.mp hhead] at hpush

/-- Link a node that leads nowhere behind the last one of a list. -/
theorem append (h : Lists next head l) {z : ν} {l₁ : List ν} (hn : ∀ k, n ∉ l k)
    (hl : l k = l₁ ++ [z]) (hnext : next n = none) :
    Lists (Function.update next z (some n)) head (Function.update l k (l k ++ [n])) := by
  refine ⟨fun j => ?_, h.disjoint_update hn fun m hm => by simpa [or_comm] using hm⟩
  by_cases hjk : j = k
  · subst hjk
    have hchain := h.chain j
    have hout := hn j
    rw [Function.update_self, hl, List.append_assoc]
    rw [hl] at hchain hout
    exact hchain.append hout hnext
  · rw [Function.update_of_ne hjk]
    refine (h.chain j).update fun hz => hjk (h.disjoint hz (k := k) ?_)
    simp [hl]

/-- Unlink the first node of a list. -/
theorem unlinkFront (h : Lists next head l) {l' : List ν} (hl : l k = n :: l') :
    Lists next (Function.update head k (next n)) fun j => (l j).erase n := by
  refine ⟨fun j => ?_, h.disjoint_erase⟩
  by_cases hjk : j = k
  · subst hjk
    have hchain := h.chain j
    rw [hl] at hchain
    rw [Function.update_self, hl, List.erase_cons_head]
    exact hchain.2
  · rw [Function.update_of_ne hjk, h.erase_other (k := k) (by simp [hl]) hjk]
    exact h.chain j

/-- Unlink the node behind `a`. -/
theorem unlinkBehind (h : Lists next head l) {a : ν} {l₁ l₂ : List ν}
    (hl : l k = l₁ ++ a :: n :: l₂) :
    Lists (Function.update next a (next n)) head fun j => (l j).erase n := by
  refine ⟨fun j => ?_, h.disjoint_erase⟩
  by_cases hjk : j = k
  · subst hjk
    have hchain := h.chain j
    rw [hl] at hchain ⊢
    exact hchain.unlinkBehind
  · rw [h.erase_other (k := k) (by simp [hl]) hjk]
    refine (h.chain j).update fun ha => hjk (h.disjoint ha (k := k) ?_)
    simp [hl]

/-- What looking up a node comes to that is on the list of `k` if it is on any, and what unlinking
it there does. -/
theorem unlink_cases (h : Lists next head l) {fuel : Nat} (hfuel : (l k).length ≤ fuel)
    (hn : ∀ j, n ∈ l j → j = k) :
    (place next fuel (head k) n = some .absent ∧ (fun j => (l j).erase n) = l) ∨
    (place next fuel (head k) n = some .front ∧ head k = some n ∧
      Lists next (Function.update head k (next n)) fun j => (l j).erase n) ∨
    ∃ a ∈ l k, place next fuel (head k) n = some (.behind a) ∧
      Lists (Function.update next a (next n)) head fun j => (l j).erase n := by
  obtain ⟨hout, hplace⟩ | ⟨l', hl, hplace⟩ | ⟨l₁, a, l₂, hl, hplace⟩ :=
    (h.chain k).place_cases hfuel n
  · exact .inl ⟨hplace, erase_of_not_mem fun j hj => hout (hn j hj ▸ hj)⟩
  · have hchain := h.chain k
    rw [hl] at hchain
    exact .inr (.inl ⟨hplace, hchain.1, h.unlinkFront hl⟩)
  · exact .inr (.inr ⟨a, by simp [hl], hplace, h.unlinkBehind hl⟩)

end Lists

end Unidos.Lib
