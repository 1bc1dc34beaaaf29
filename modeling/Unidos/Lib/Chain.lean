import Mathlib.Data.Finset.Card
import Mathlib.Data.Finset.Range
import Mathlib.Logic.Function.Basic

/-!
# Intrusive lists

A linked list is given by a map `next` from nodes to successors. `Seg next p l q` says that the
nodes reached from `p` before `q` are those of `l`; `Chain next p l` is a list that ends, and
`Ring next h l` one that leads back to its head. A chain never visits a node twice
(`Chain.nodup`), and a bounded walk over it finds what `List.find?` finds (`walk_of_chain`). The
other lemmas say what the usual pointer updates do to the list of nodes.
-/

namespace Unidos.Lib

variable {ν : Type*}

/-- The nodes from `p` on, up to but not including `q`, are those of the list. -/
def Seg (next : ν → Option ν) : Option ν → List ν → Option ν → Prop
  | p, [], q => p = q
  | p, n :: l, q => p = some n ∧ Seg next (next n) l q

/-- A list that ends. -/
def Chain (next : ν → Option ν) (p : Option ν) (l : List ν) : Prop := Seg next p l none

/-- Walk from `p` on to the first node that satisfies `stop`. The outer `none` says that the walk
did not end within `fuel` nodes. -/
def walk (next : ν → Option ν) (stop : ν → Bool) : Nat → Option ν → Option (Option ν)
  | _, none => some none
  | 0, some _ => none
  | fuel + 1, some n => if stop n then some (some n) else walk next stop fuel (next n)

section Seg

variable {next next' : ν → Option ν} {p q : Option ν} {l l₁ l₂ : List ν}

theorem seg_append :
    Seg next p (l₁ ++ l₂) q ↔ ∃ m, Seg next p l₁ m ∧ Seg next m l₂ q := by
  induction l₁ generalizing p with
  | nil => simp [Seg]
  | cons n l₁ ih => simp only [List.cons_append, Seg, ih, and_assoc, exists_and_left]

/-- A node in the middle of a segment: the segment splits there. -/
theorem seg_append_cons {n : ν} :
    Seg next p (l₁ ++ n :: l₂) q ↔ Seg next p l₁ (some n) ∧ Seg next (next n) l₂ q := by
  rw [seg_append]
  constructor
  · rintro ⟨m, h1, rfl, h2⟩
    exact ⟨h1, h2⟩
  · rintro ⟨h1, h2⟩
    exact ⟨some n, h1, rfl, h2⟩

theorem Seg.congr (h : Seg next p l q) (hnext : ∀ n ∈ l, next' n = next n) : Seg next' p l q := by
  induction l generalizing p with
  | nil => exact h
  | cons n l ih =>
      refine ⟨h.1, ?_⟩
      rw [hnext n (by simp)]
      exact ih h.2 fun m hm => hnext m (by simp [hm])

/-- In front of a node, every node leads to one that comes after it, at most to that node. -/
theorem Seg.next_mem {a x : ν} (h : Seg next p (l₁ ++ a :: l₂) q) (hx : x ∈ l₁) :
    ∃ y, next x = some y ∧ y ∈ l₁ ++ [a] := by
  obtain ⟨k₁, k₂, rfl⟩ := List.append_of_mem hx
  rw [List.append_assoc, List.cons_append] at h
  obtain ⟨-, hrest⟩ := seg_append_cons.mp h
  cases k₂ with
  | nil => exact ⟨a, hrest.1, by simp⟩
  | cons y k₂ => exact ⟨y, hrest.1, by simp⟩

/-- The only node of a list that leads to `n` is the one right in front of it. -/
theorem Seg.find_before [DecidableEq ν] {a n : ν} (h : Seg next p (l₁ ++ a :: n :: l₂) q)
    (hnodup : (l₁ ++ a :: n :: l₂).Nodup) :
    (∀ x ∈ l₁, next x ≠ some n) ∧ next a = some n := by
  refine ⟨fun x hx heq => ?_, (seg_append_cons.mp h).2.1⟩
  obtain ⟨y, hy, hmem⟩ := h.next_mem hx
  rw [heq, Option.some.injEq] at hy
  subst hy
  have hsplit : l₁ ++ a :: n :: l₂ = (l₁ ++ [a]) ++ n :: l₂ := by simp
  rw [hsplit, List.nodup_append] at hnodup
  exact hnodup.2.2 n hmem n (by simp) rfl

theorem walk_of_seg {stop : ν → Bool} {fuel : Nat} {n : ν} (h : Seg next p l q)
    (hfind : l.find? stop = some n) (hfuel : l.length ≤ fuel) :
    walk next stop fuel p = some (some n) := by
  induction l generalizing p fuel with
  | nil => simp at hfind
  | cons m l ih =>
      obtain ⟨rfl, h⟩ := h
      obtain ⟨fuel, rfl⟩ : ∃ k, fuel = k + 1 := ⟨fuel - 1, by simp at hfuel; omega⟩
      unfold walk
      by_cases hm : stop m = true
      · rw [List.find?_cons_of_pos hm] at hfind
        rw [if_pos hm, hfind]
      · rw [List.find?_cons_of_neg hm] at hfind
        rw [if_neg hm]
        exact ih h hfind (by simpa using hfuel)

theorem walk_of_chain {stop : ν → Bool} {fuel : Nat} (h : Chain next p l)
    (hfuel : l.length ≤ fuel) : walk next stop fuel p = some (l.find? stop) := by
  induction l generalizing p fuel with
  | nil =>
      have hp : p = none := h
      subst hp
      cases fuel <;> rfl
  | cons m l ih =>
      obtain ⟨rfl, h⟩ := h
      obtain ⟨fuel, rfl⟩ : ∃ k, fuel = k + 1 := ⟨fuel - 1, by simp at hfuel; omega⟩
      unfold walk
      by_cases hm : stop m = true
      · rw [if_pos hm, List.find?_cons_of_pos hm]
      · rw [if_neg hm, List.find?_cons_of_neg hm]
        exact ih h (by simpa using hfuel)

end Seg

/-! ## Paths -/

section Path

variable {next next' : ν → Option ν} {p : Option ν} {l l' : List ν} {x : ν}

/-- The path to the first visit of a node is determined by where it starts. -/
theorem Seg.unique (h : Seg next p l (some x)) (h' : Seg next p l' (some x)) (hx : x ∉ l)
    (hx' : x ∉ l') : l = l' := by
  induction l generalizing p l' with
  | nil =>
      have hp : p = some x := h
      cases l' with
      | nil => rfl
      | cons n l' =>
          have hn := hp.symm.trans h'.1
          rw [Option.some.injEq] at hn
          exact absurd (by simp [hn]) hx'
  | cons n l ih =>
      cases l' with
      | nil =>
          have hn := h.1.symm.trans (show p = some x from h')
          rw [Option.some.injEq] at hn
          exact absurd (by simp [hn]) hx
      | cons m l' =>
          have hm := h.1.symm.trans h'.1
          rw [Option.some.injEq] at hm
          subst hm
          rw [ih h.2 h'.2 (fun hmem => hx (by simp [hmem])) fun hmem => hx' (by simp [hmem])]

/-- Before the first visit of a node no node is visited twice, and if the path starts behind a node,
it does not come back to that one. -/
theorem Seg.start_not_mem {c : ν} (h : Seg next (next c) l (some x)) (hx : x ∉ l) : c ∉ l := by
  intro hmem
  obtain ⟨l₁, l₂, rfl⟩ := List.append_of_mem hmem
  have hagain := (seg_append_cons.mp h).2
  have hlen := congrArg List.length (Seg.unique h hagain hx fun hmem => hx (by simp [hmem]))
  simp only [List.length_append, List.length_cons] at hlen
  omega

theorem Seg.nodup (h : Seg next p l (some x)) (hx : x ∉ l) : l.Nodup := by
  induction l generalizing p with
  | nil => exact List.nodup_nil
  | cons n l ih =>
      have hx' : x ∉ l := fun hmem => hx (by simp [hmem])
      exact List.nodup_cons.mpr ⟨Seg.start_not_mem h.2 hx', ih h.2 hx'⟩

/-- A path to a node has a part that leads to the first visit of it. -/
theorem Seg.exists_first (h : Seg next p l (some x)) :
    ∃ l', Seg next p l' (some x) ∧ x ∉ l' ∧ l'.length ≤ l.length := by
  by_cases hx : x ∈ l
  · obtain ⟨l₁, l₂, rfl, hfirst⟩ := List.eq_append_cons_of_mem hx
    exact ⟨l₁, (seg_append_cons.mp h).1, hfirst, by simp⟩
  · exact ⟨l, h, hx, Nat.le_refl _⟩

variable [DecidableEq ν]

/-- Where a link leads once node `u` has been taken out. -/
def bypass (next : ν → Option ν) (u : ν) (p : Option ν) : Option ν :=
  if p = some u then next u else p

/-- Taking out a node shortens the paths that lead over it. -/
theorem Seg.bypass {u : ν} (h : Seg next p l (some x)) (hx : u ≠ x) (hu : next u ≠ some u)
    (hnext : ∀ b ∈ l, b ≠ u → next' b = bypass next u (next b)) :
    Seg next' (bypass next u p) (l.filter (· ≠ u)) (some x) := by
  induction l generalizing p with
  | nil =>
      have hp : p = some x := h
      rw [List.filter_nil, Lib.bypass, if_neg (by rw [hp, Option.some.injEq]; exact Ne.symm hx)]
      exact hp
  | cons b l ih =>
      obtain ⟨rfl, h⟩ := h
      have hrest := ih h fun c hc => hnext c (by simp [hc])
      by_cases hb : b = u
      · subst hb
        rw [List.filter_cons_of_neg (by simp), Lib.bypass, if_pos rfl]
        rwa [Lib.bypass, if_neg hu] at hrest
      · rw [List.filter_cons_of_pos (by simpa using hb), Lib.bypass, if_neg (by simpa using hb)]
        refine ⟨rfl, ?_⟩
        rw [hnext b (by simp) hb]
        exact hrest

end Path

section Chain

variable {next next' : ν → Option ν} {p : Option ν} {l l' l₁ l₂ : List ν}

theorem Chain.congr (h : Chain next p l) (hnext : ∀ n ∈ l, next' n = next n) : Chain next' p l :=
  Seg.congr h hnext

theorem Chain.unique (h : Chain next p l) (h' : Chain next p l') : l = l' := by
  induction l generalizing p l' with
  | nil =>
      have hp : p = none := h
      subst hp
      cases l' with
      | nil => rfl
      | cons n l' => exact absurd h'.1 (by simp)
  | cons n l ih =>
      obtain ⟨rfl, h⟩ := h
      cases l' with
      | nil => exact absurd h' (by simp [Chain, Seg])
      | cons m l' =>
          obtain ⟨hm, h'⟩ := h'
          rw [Option.some.injEq] at hm
          subst hm
          rw [ih h h']

/-- A list that ends visits no node twice. -/
theorem Chain.nodup (h : Chain next p l) : l.Nodup := by
  induction l generalizing p with
  | nil => exact List.nodup_nil
  | cons n l ih =>
      refine List.nodup_cons.mpr ⟨fun hmem => ?_, ih h.2⟩
      obtain ⟨l₁, l₂, rfl⟩ := List.append_of_mem hmem
      -- the rest of the list from `n` on would be the same list twice
      have hagain : Chain next (next n) l₂ := (seg_append_cons.mp h.2).2
      have hlen := congrArg List.length (Chain.unique h.2 hagain)
      simp only [List.length_append, List.length_cons] at hlen
      omega

/-- A list of different slots below `n` has at most `n` of them. -/
theorem length_le_of_nodup {l : List Nat} {n : Nat} (h : l.Nodup) (hlt : ∀ v ∈ l, v < n) :
    l.length ≤ n := by
  rw [← List.toFinset_card_of_nodup h, ← Finset.card_range n]
  refine Finset.card_le_card fun v hv => ?_
  rw [List.mem_toFinset] at hv
  exact Finset.mem_range.mpr (hlt v hv)

/-- A list over slots below `n` has at most `n` nodes. -/
theorem Chain.length_le {next : Nat → Option Nat} {p : Option Nat} {l : List Nat} {n : Nat}
    (h : Chain next p l) (hlt : ∀ v ∈ l, v < n) : l.length ≤ n :=
  length_le_of_nodup h.nodup hlt

/-- What a node of a list leads to is on the list as well. -/
theorem Chain.next_mem {a b : ν} (h : Chain next p l) (ha : a ∈ l) (hab : next a = some b) :
    b ∈ l := by
  obtain ⟨l₁, l₂, rfl⟩ := List.append_of_mem ha
  obtain ⟨-, hrest⟩ := seg_append_cons.mp h
  rw [hab] at hrest
  cases l₂ with
  | nil => simp [Seg] at hrest
  | cons c l₂ =>
      rw [Option.some.inj hrest.1]
      simp

/-- The nodes of two lists with a common node agree from there on. -/
theorem Chain.suffix_unique {q : Option ν} {k₁ k₂ : List ν} {n : ν}
    (h : Chain next p (l₁ ++ n :: l₂)) (h' : Chain next q (k₁ ++ n :: k₂)) : l₂ = k₂ :=
  Chain.unique (seg_append_cons.mp h).2 (seg_append_cons.mp h').2

theorem chain_nil : Chain next p [] ↔ p = none := Iff.rfl

theorem chain_cons {n : ν} : Chain next p (n :: l) ↔ p = some n ∧ Chain next (next n) l := Iff.rfl

theorem Chain.exists_cons {n : ν} (h : Chain next (some n) l) : ∃ l', l = n :: l' := by
  cases l with
  | nil => simp [Chain, Seg] at h
  | cons m l' => exact ⟨l', by rw [Option.some.inj h.1]⟩

theorem Chain.exists_last {n : ν} (h : Chain next (some n) l) : ∃ z ∈ l, next z = none := by
  obtain ⟨l', rfl⟩ := h.exists_cons
  obtain ⟨l'', z, heq⟩ : ∃ l'' z, n :: l' = l'' ++ [z] :=
    ⟨_, _, (List.dropLast_append_getLast (List.cons_ne_nil n l')).symm⟩
  rw [heq] at h ⊢
  exact ⟨z, by simp, (seg_append_cons.mp h).2⟩

/-- A node that leads nowhere is the last one. -/
theorem Chain.eq_append_last {a : ν} (h : Chain next p l) (ha : a ∈ l) (hnone : next a = none) :
    ∃ l₁, l = l₁ ++ [a] := by
  obtain ⟨l₁, l₂, rfl⟩ := List.append_of_mem ha
  have hrest := (seg_append_cons.mp h).2
  rw [hnone] at hrest
  cases l₂ with
  | nil => exact ⟨l₁, rfl⟩
  | cons b l₂ => cases hrest.1

variable [DecidableEq ν]

/-- Push a node in front. -/
theorem Chain.push (h : Chain next p l) {n : ν} (hn : n ∉ l) :
    Chain (Function.update next n p) (some n) (n :: l) := by
  refine ⟨rfl, ?_⟩
  rw [Function.update_self]
  refine h.congr fun m hm => Function.update_of_ne ?_ _ _
  rintro rfl
  exact hn hm

/-- Link a node behind `a`. -/
theorem Chain.insertAfter {a n : ν} (h : Chain next p (l₁ ++ a :: l₂)) (hn : n ∉ l₁ ++ a :: l₂) :
    Chain (Function.update (Function.update next n (next a)) a (some n)) p
      (l₁ ++ a :: n :: l₂) := by
  have hnodup := h.nodup
  rw [List.nodup_append, List.nodup_cons] at hnodup
  obtain ⟨-, ⟨ha₂, -⟩, hdisj⟩ := hnodup
  simp only [List.mem_append, List.mem_cons, not_or] at hn
  obtain ⟨hn₁, hna, hn₂⟩ := hn
  obtain ⟨h1, h2⟩ := seg_append_cons.mp h
  refine seg_append_cons.mpr ⟨h1.congr fun m hm => ?_, ?_⟩
  · have hma : m ≠ a := fun heq => hdisj m hm a (by simp) heq
    have hmn : m ≠ n := fun heq => hn₁ (heq ▸ hm)
    rw [Function.update_of_ne hma, Function.update_of_ne hmn]
  · rw [Function.update_self]
    refine ⟨rfl, ?_⟩
    rw [Function.update_of_ne hna, Function.update_self]
    refine Seg.congr h2 fun m hm => ?_
    have hma : m ≠ a := fun heq => ha₂ (heq ▸ hm)
    have hmn : m ≠ n := fun heq => hn₂ (heq ▸ hm)
    rw [Function.update_of_ne hma, Function.update_of_ne hmn]

/-- Link a node behind the last one. -/
theorem Chain.append {z n : ν} (h : Chain next p (l ++ [z])) (hn : n ∉ l ++ [z])
    (hnone : next n = none) : Chain (Function.update next z (some n)) p (l ++ [z, n]) := by
  have hz : next z = none := (seg_append_cons.mp h).2
  have hins := Chain.insertAfter h hn
  rw [hz, ← hnone, Function.update_eq_self] at hins
  exact hins

/-- Unlink the node behind `a`. -/
theorem Chain.unlinkAfter {a n : ν} (h : Chain next p (l₁ ++ a :: n :: l₂)) :
    Chain (Function.update next a (next n)) p (l₁ ++ a :: l₂) := by
  have hnodup := h.nodup
  rw [List.nodup_append, List.nodup_cons] at hnodup
  obtain ⟨-, ⟨ha, -⟩, hdisj⟩ := hnodup
  obtain ⟨h1, -, h2⟩ := seg_append_cons.mp h
  refine seg_append_cons.mpr ⟨h1.congr fun m hm => ?_, ?_⟩
  · exact Function.update_of_ne (fun heq => hdisj m hm a (by simp) heq) _ _
  · rw [Function.update_self]
    refine Seg.congr h2 fun m hm => Function.update_of_ne (fun heq => ?_) _ _
    exact ha (heq ▸ List.mem_cons_of_mem _ hm)

end Chain

/-! ## Where to put a node in -/

/-- If every node in front of `a` leads to one with a small key, all nodes up to `a` have small
keys. -/
theorem Seg.key_le {next : ν → Option ν} (key : ν → Nat) {bound : Nat} {a : ν} {l₁ l₂ : List ν}
    {n : ν} {q : Option ν} (h : Seg next (some n) (l₁ ++ a :: l₂) q) (hn : key n ≤ bound)
    (hle : ∀ x ∈ l₁, ∀ b, next x = some b → key b ≤ bound) : ∀ x ∈ l₁ ++ [a], key x ≤ bound := by
  induction l₁ generalizing n with
  | nil =>
      have hna := h.1
      rw [Option.some.injEq] at hna
      intro x hx
      rw [List.nil_append, List.mem_singleton] at hx
      rwa [hx, ← hna]
  | cons m l₁ ih =>
      obtain ⟨hnm, hrest⟩ := h
      rw [Option.some.injEq] at hnm
      subst hnm
      obtain ⟨b, hb⟩ : ∃ b, next n = some b := by
        cases l₁ with
        | nil => exact ⟨a, hrest.1⟩
        | cons c l₁ => exact ⟨c, hrest.1⟩
      rw [hb] at hrest
      intro x hx
      rw [List.cons_append, List.mem_cons] at hx
      cases hx with
      | inl hx => rwa [hx]
      | inr hx => exact ih hrest (hle n (by simp) b hb) (fun y hy => hle y (by simp [hy])) x hx

/-- The walk that looks for the place of a new node: it ends at the last node, or in front of the
first one with a larger key. -/
theorem Chain.walk_insert {next : ν → Option ν} {key : ν → Nat} {bound fuel : Nat} {n : ν}
    {l : List ν} {stop : ν → Bool} (h : Chain next (some n) l) (hn : key n ≤ bound)
    (hstop : ∀ a, stop a = true ↔ ∀ b, next a = some b → bound < key b)
    (hfuel : l.length ≤ fuel) :
    ∃ l₁ a l₂, l = l₁ ++ a :: l₂ ∧ walk next stop fuel (some n) = some (some a) ∧
      (∀ x ∈ l₁ ++ [a], key x ≤ bound) ∧ ∀ b, next a = some b → bound < key b := by
  have hwalk : walk next stop fuel (some n) = some (l.find? stop) := walk_of_chain h hfuel
  obtain ⟨z, hz, hnext⟩ := h.exists_last
  obtain ⟨a, hfind⟩ : ∃ a, l.find? stop = some a := by
    rw [← Option.isSome_iff_exists, List.find?_isSome]
    exact ⟨z, hz, (hstop z).mpr (by simp [hnext])⟩
  obtain ⟨ha, l₁, l₂, rfl, hbefore⟩ := List.find?_eq_some_iff_append.mp hfind
  refine ⟨l₁, a, l₂, rfl, hwalk.trans (by rw [hfind]), ?_, (hstop a).mp ha⟩
  refine Seg.key_le _ h hn fun x hx b hb => ?_
  by_contra hlt
  have hx' : stop x = true := (hstop x).mpr fun c hc => by
    rw [hb, Option.some.injEq] at hc
    subst hc
    omega
  have := hbefore x hx
  simp [hx'] at this

/-! ## Taking a node out -/

/-- Where a node stands in a list: in front, behind another node, or not at all. -/
inductive Place (ν : Type*) where
  | front
  | behind (a : ν)
  | absent

/-- Look a node up in the list from `head` on. The outer `none` says that the walk did not end
within `fuel` nodes. -/
def place [DecidableEq ν] (next : ν → Option ν) (fuel : Nat) (head : Option ν) (n : ν) :
    Option (Place ν) :=
  if head = some n then some .front
  else
    match walk next (fun a => next a == some n) fuel head with
    | none => none
    | some none => some .absent
    | some (some a) => some (.behind a)

/-- An element of a list without repetitions stands in front, or behind another one. -/
theorem mem_cases {l : List ν} {n : ν} (h : n ∈ l) :
    (∃ l', l = n :: l') ∨ ∃ l₁ a l₂, l = l₁ ++ a :: n :: l₂ := by
  obtain ⟨l₁, l₂, rfl⟩ := List.append_of_mem h
  cases List.eq_nil_or_concat l₁ with
  | inl hnil => exact .inl ⟨l₂, by rw [hnil, List.nil_append]⟩
  | inr hlast =>
      obtain ⟨k, a, rfl⟩ := hlast
      exact .inr ⟨k, a, l₂, by simp⟩

section Place

variable [DecidableEq ν] {next : ν → Option ν} {head : Option ν} {l l₁ l₂ : List ν} {fuel : Nat}

/-- What looking up a node of a list that ends comes to. -/
theorem Chain.place_cases (h : Chain next head l) (hfuel : l.length ≤ fuel) (n : ν) :
    (n ∉ l ∧ place next fuel head n = some .absent) ∨
    (∃ l', l = n :: l' ∧ place next fuel head n = some .front) ∨
    ∃ l₁ a l₂, l = l₁ ++ a :: n :: l₂ ∧ place next fuel head n = some (.behind a) := by
  have hwalk : walk next (fun a => next a == some n) fuel head =
      some (l.find? fun a => next a == some n) := walk_of_chain h hfuel
  by_cases hn : n ∈ l
  · cases mem_cases hn with
    | inl hfront =>
        obtain ⟨l', rfl⟩ := hfront
        exact .inr (.inl ⟨l', rfl, if_pos h.1⟩)
    | inr hbehind =>
        obtain ⟨l₁, a, l₂, rfl⟩ := hbehind
        obtain ⟨hbefore, ha⟩ := Seg.find_before h h.nodup
        have hfind : (l₁ ++ a :: n :: l₂).find? (fun a => next a == some n) = some a := by
          rw [List.find?_append, List.find?_eq_none.mpr (by simpa using hbefore)]
          simp [ha]
        have hhead : head ≠ some n := by
          intro heq
          have hnodup := h.nodup
          cases l₁ with
          | nil =>
              have heq' := heq.symm.trans h.1
              rw [Option.some.injEq] at heq'
              simp [heq'] at hnodup
          | cons b l₁ =>
              have heq' := heq.symm.trans h.1
              rw [Option.some.injEq] at heq'
              simp [heq'] at hnodup
        refine .inr (.inr ⟨l₁, a, l₂, rfl, ?_⟩)
        rw [place, if_neg hhead, hwalk, hfind]
  · have hfind : l.find? (fun a => next a == some n) = none := by
      refine List.find?_eq_none.mpr fun a ha heq => hn ?_
      exact h.next_mem ha (by simpa using heq)
    have hhead : head ≠ some n := by
      intro heq
      subst heq
      obtain ⟨l', rfl⟩ := h.exists_cons
      exact hn (by simp)
    refine .inl ⟨hn, ?_⟩
    rw [place, if_neg hhead, hwalk, hfind]

theorem erase_behind {a n : ν} (hnodup : (l₁ ++ a :: n :: l₂).Nodup) :
    (l₁ ++ a :: n :: l₂).erase n = l₁ ++ a :: l₂ := by
  have hsplit : l₁ ++ a :: n :: l₂ = (l₁ ++ [a]) ++ n :: l₂ := by simp
  rw [hsplit] at hnodup ⊢
  have hn : n ∉ l₁ ++ [a] := fun hmem =>
    (List.nodup_append.mp hnodup).2.2 n hmem n (by simp) rfl
  rw [List.erase_append_right _ hn, List.erase_cons_head]
  simp

/-- Take a node out that stands behind another one. -/
theorem Chain.unlinkBehind {a n : ν} (h : Chain next head (l₁ ++ a :: n :: l₂)) :
    Chain (Function.update next a (next n)) head ((l₁ ++ a :: n :: l₂).erase n) := by
  rw [erase_behind h.nodup]
  exact h.unlinkAfter

/-- A node that is on no list can be changed. -/
theorem Chain.update {n : ν} {q : Option ν} (h : Chain next head l) (hn : n ∉ l) :
    Chain (Function.update next n q) head l := by
  refine h.congr fun m hm => Function.update_of_ne ?_ _ _
  intro heq
  exact hn (heq ▸ hm)

end Place

/-! ## Rings -/

/-- A circular list through its head `h`. -/
structure Ring (next : ν → Option ν) (h : ν) (l : List ν) : Prop where
  seg : Seg next (some h) l (some h)
  ne_nil : l ≠ []
  nodup : l.Nodup

namespace Ring

variable {next next' : ν → Option ν} {h : ν} {l l₁ l₂ : List ν}

theorem congr (hring : Ring next h l) (hnext : ∀ n ∈ l, next' n = next n) : Ring next' h l :=
  ⟨hring.seg.congr hnext, hring.ne_nil, hring.nodup⟩

theorem eq_cons (hring : Ring next h l) : ∃ l', l = h :: l' := by
  cases l with
  | nil => exact absurd rfl hring.ne_nil
  | cons n l' =>
      have hn := hring.seg.1
      rw [Option.some.injEq] at hn
      exact ⟨l', by rw [hn]⟩

theorem head_mem (hring : Ring next h l) : h ∈ l := by
  obtain ⟨l', rfl⟩ := hring.eq_cons
  simp

/-- The ring may be entered at any of its nodes. -/
theorem rotate {b : ν} (hring : Ring next h (l₁ ++ b :: l₂)) :
    Seg next (next b) (l₂ ++ l₁) (some b) := by
  obtain ⟨h1, h2⟩ := seg_append_cons.mp hring.seg
  exact seg_append.mpr ⟨some h, h2, h1⟩

/-- The last node is the only one that leads to the head. -/
theorem last_next {z : ν} (hring : Ring next h (l ++ [z])) : next z = some h :=
  (seg_append_cons.mp hring.seg).2

/-- The ring leads on to its own nodes. -/
theorem next_mem {a : ν} (hring : Ring next h l) (ha : a ∈ l) : ∃ b, next a = some b ∧ b ∈ l := by
  obtain ⟨k, z, rfl⟩ : ∃ k z, l = k ++ [z] :=
    ⟨_, _, (List.dropLast_append_getLast hring.ne_nil).symm⟩
  rw [List.mem_append, List.mem_singleton] at ha
  cases ha with
  | inl ha => exact hring.seg.next_mem ha
  | inr ha => exact ⟨h, ha ▸ hring.last_next, hring.head_mem⟩

/-- No two nodes lead to the same one. -/
theorem next_inj {a b : ν} (hring : Ring next h l) (ha : a ∈ l) (hb : b ∈ l)
    (heq : next a = next b) : a = b := by
  obtain ⟨l₁, l₂, rfl⟩ := List.append_of_mem ha
  have hnodup := hring.nodup
  have hround := hring.rotate
  rw [List.nodup_middle, List.nodup_cons] at hnodup
  have ha' : a ∉ l₂ ++ l₁ := fun hmem => hnodup.1 (by simpa [or_comm] using hmem)
  by_contra hne
  have hb' : b ∈ l₂ ++ l₁ := by
    simp only [List.mem_append, List.mem_cons] at hb ⊢
    tauto
  -- the way from `b` to `a` is part of the way once around from `a`, and has the same start
  obtain ⟨k₁, k₂, hk⟩ := List.append_of_mem hb'
  rw [hk] at hround ha'
  have hrest := (seg_append_cons.mp hround).2
  rw [← heq] at hrest
  have hlen := congrArg List.length (Seg.unique hround hrest ha' fun hmem => ha' (by simp [hmem]))
  simp only [List.length_append, List.length_cons] at hlen
  omega

/-- A ring with more than one node has no node that leads to itself. -/
theorem next_ne_self {a b : ν} (hring : Ring next h l) (ha : a ∈ l) (hb : b ∈ l) (hne : a ≠ b) :
    next a ≠ some a := by
  obtain ⟨l₁, l₂, rfl⟩ := List.append_of_mem ha
  intro hself
  have hround := hring.rotate
  have hnodup := hring.nodup
  rw [List.nodup_middle, List.nodup_cons] at hnodup
  rw [hself] at hround
  cases hk : l₂ ++ l₁ with
  | nil =>
      simp only [List.append_eq_nil_iff] at hk
      simp [hk, Ne.symm hne] at hb
  | cons n k =>
      rw [hk] at hround
      have hn := hround.1
      rw [Option.some.injEq] at hn
      refine hnodup.1 ?_
      have : a ∈ l₂ ++ l₁ := by simp [hk, hn]
      simpa [or_comm] using this

theorem next_ne_head {z : ν} (hring : Ring next h (l ++ [z])) {n : ν} (hn : n ∈ l) :
    next n ≠ some h := by
  obtain ⟨l₁, l₂, rfl⟩ := List.append_of_mem hn
  intro heq
  rw [List.append_assoc, List.cons_append] at hring
  obtain ⟨-, hrest⟩ := seg_append_cons.mp hring.seg
  rw [heq] at hrest
  -- the node after `n` would be the head again
  have hmem : h ∈ l₂ ++ [z] := by
    cases hl : l₂ ++ [z] with
    | nil => simp at hl
    | cons m k =>
        rw [hl] at hrest
        rw [Option.some.inj hrest.1]
        simp
  obtain ⟨k, hk⟩ := hring.eq_cons
  have hnodup := hring.nodup
  cases l₁ with
  | nil =>
      simp only [List.nil_append, List.cons.injEq] at hk
      rw [List.nil_append, List.nodup_cons, hk.1] at hnodup
      exact hnodup.1 hmem
  | cons m l₁ =>
      simp only [List.cons_append, List.cons.injEq] at hk
      rw [List.cons_append, List.nodup_cons, hk.1] at hnodup
      exact hnodup.1 (by simp at hmem ⊢; tauto)

variable [DecidableEq ν]

theorem singleton (next : ν → Option ν) (n : ν) : Ring (Function.update next n (some n)) n [n] :=
  ⟨⟨rfl, by simp [Seg]⟩, by simp, by simp⟩

/-- Link a node between the last one and the head. -/
theorem append {z n : ν} (hring : Ring next h (l ++ [z])) (hn : n ∉ l ++ [z]) :
    Ring (Function.update (Function.update next z (some n)) n (some h)) h (l ++ [z, n]) := by
  have hnodup := hring.nodup
  simp only [List.mem_append, List.mem_singleton, not_or] at hn
  obtain ⟨hnl, hnz⟩ := hn
  rw [List.nodup_append] at hnodup
  obtain ⟨h1, -⟩ := seg_append_cons.mp hring.seg
  refine ⟨seg_append_cons.mpr ⟨h1.congr fun m hm => ?_, ?_⟩, by simp, ?_⟩
  · have hmn : m ≠ n := fun heq => hnl (heq ▸ hm)
    have hmz : m ≠ z := fun heq => hnodup.2.2 m hm z (by simp) heq
    rw [Function.update_of_ne hmn, Function.update_of_ne hmz]
  · rw [Function.update_of_ne (Ne.symm hnz), Function.update_self]
    exact ⟨rfl, by simp [Seg]⟩
  · have heq : l ++ [z, n] = (l ++ [z]) ++ [n] := by simp
    rw [heq, List.nodup_append]
    refine ⟨hring.nodup, by simp, ?_⟩
    intro a ha b hb
    rw [List.mem_singleton] at hb
    subst hb
    intro heq
    subst heq
    simp [hnl, hnz] at ha

/-- Unlink the head: the node behind it becomes the head. -/
theorem unlinkHead {z m : ν} (hring : Ring next h (h :: (l ++ [z]))) (hm : next h = some m) :
    Ring (Function.update next z (some m)) m (l ++ [z]) := by
  have hnodup := (List.nodup_cons.mp hring.nodup).2
  have hseg := hring.seg.2
  rw [hm] at hseg
  refine ⟨seg_append_cons.mpr ⟨?_, by simp [Seg]⟩, by simp, hnodup⟩
  refine (seg_append_cons.mp hseg).1.congr fun n hn => Function.update_of_ne ?_ _ _
  rintro rfl
  exact (List.nodup_append.mp hnodup).2.2 n hn n (by simp) rfl

/-- Unlink the node behind `a`, which is not the head. -/
theorem unlinkAfter {a n : ν} (hring : Ring next h (l₁ ++ a :: n :: l₂)) :
    Ring (Function.update next a (next n)) h (l₁ ++ a :: l₂) := by
  have hnodup := hring.nodup
  obtain ⟨h1, -, h2⟩ := seg_append_cons.mp hring.seg
  have hsub : (l₁ ++ a :: l₂).Sublist (l₁ ++ a :: n :: l₂) :=
    List.Sublist.append (List.Sublist.refl l₁)
      (List.Sublist.cons_cons a (List.sublist_cons_self n l₂))
  rw [List.nodup_append, List.nodup_cons] at hnodup
  obtain ⟨-, ⟨ha, -⟩, hdisj⟩ := hnodup
  refine ⟨seg_append_cons.mpr ⟨h1.congr fun m hm => ?_, ?_⟩, by simp, hring.nodup.sublist hsub⟩
  · exact Function.update_of_ne (fun heq => hdisj m hm a (by simp) heq) _ _
  · rw [Function.update_self]
    refine Seg.congr h2 fun m hm => Function.update_of_ne (fun heq => ?_) _ _
    exact ha (heq ▸ List.mem_cons_of_mem _ hm)

/-- The walk to the last node. -/
theorem walk_last {fuel : Nat} {z : ν} (hring : Ring next h (l ++ [z]))
    (hfuel : (l ++ [z]).length ≤ fuel) :
    walk next (fun a => next a == some h) fuel (some h) = some (some z) := by
  refine walk_of_seg hring.seg ?_ hfuel
  rw [List.find?_append, List.find?_eq_none.mpr fun n hn => ?_]
  · simp [hring.last_next]
  · simpa using hring.next_ne_head hn

/-- The walk to the node in front of `n`, which is not the head. -/
theorem walk_before {fuel : Nat} {a n : ν} (hring : Ring next h (l₁ ++ a :: n :: l₂))
    (hfuel : (l₁ ++ a :: n :: l₂).length ≤ fuel) :
    walk next (fun b => next b == some n || next b == some h) fuel (some h) = some (some a) ∧
      next a = some n := by
  obtain ⟨hbefore, ha⟩ := Seg.find_before hring.seg hring.nodup
  refine ⟨walk_of_seg hring.seg ?_ hfuel, ha⟩
  rw [List.find?_append, List.find?_eq_none.mpr fun b hb => ?_]
  · simp [ha]
  · obtain ⟨k, z, hlast⟩ : ∃ k z, n :: l₂ = k ++ [z] :=
      ⟨_, _, (List.dropLast_append_getLast (List.cons_ne_nil n l₂)).symm⟩
    have hsplit : l₁ ++ a :: n :: l₂ = (l₁ ++ a :: k) ++ [z] := by simp [hlast]
    rw [hsplit] at hring
    have hne := hring.next_ne_head (n := b) (by simp [hb])
    simpa using ⟨hbefore b hb, hne⟩

/-- The walk for a node that is not on the ring ends at the last node. -/
theorem walk_absent {fuel : Nat} {n : ν} (hring : Ring next h l) (hn : n ∉ l)
    (hfuel : l.length ≤ fuel) :
    ∃ z, walk next (fun b => next b == some n || next b == some h) fuel (some h) =
      some (some z) ∧ next z ≠ some n := by
  obtain ⟨k, z, rfl⟩ : ∃ k z, l = k ++ [z] :=
    ⟨_, _, (List.dropLast_append_getLast hring.ne_nil).symm⟩
  have hne : ∀ b ∈ k ++ [z], next b ≠ some n := by
    intro b hb heq
    rw [List.mem_append, List.mem_singleton] at hb
    cases hb with
    | inl hb =>
        obtain ⟨y, hy, hmem⟩ := hring.seg.next_mem hb
        rw [heq, Option.some.injEq] at hy
        exact hn (hy ▸ hmem)
    | inr hb =>
        rw [hb, hring.last_next, Option.some.injEq] at heq
        exact hn (heq ▸ hring.head_mem)
  refine ⟨z, walk_of_seg hring.seg ?_ hfuel, hne z (by simp)⟩
  rw [List.find?_append, List.find?_eq_none.mpr fun b hb => ?_]
  · simp [hring.last_next]
  · simpa using ⟨hne b (by simp [hb]), hring.next_ne_head hb⟩

end Ring

/-- A ring, or nothing at all. -/
def Loop (next : ν → Option ν) (head : Option ν) (l : List ν) : Prop :=
  match head with
  | none => l = []
  | some h => Ring next h l

section Loop

variable {next next' : ν → Option ν} {head : Option ν} {l : List ν}

theorem Loop.congr (h : Loop next head l) (hnext : ∀ n ∈ l, next' n = next n) :
    Loop next' head l := by
  cases head with
  | none => exact h
  | some n => exact Ring.congr h hnext

theorem Loop.nodup (h : Loop next head l) : l.Nodup := by
  cases head with
  | none =>
      have hnil : l = [] := h
      simp [hnil]
  | some n => exact Ring.nodup h

/-- A ring over slots below `n` has at most `n` nodes. -/
theorem Loop.length_le {next : Nat → Option Nat} {head : Option Nat} {l : List Nat} {n : Nat}
    (h : Loop next head l) (hlt : ∀ v ∈ l, v < n) : l.length ≤ n :=
  length_le_of_nodup h.nodup hlt

end Loop

end Unidos.Lib
