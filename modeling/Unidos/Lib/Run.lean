import Mathlib.Data.Nat.Notation

/-!
# Runs of a transition system

`Run step s ops t` says that performing `ops` one after another leads from `s` to `t`. A property
that every step keeps holds at the end of every run (`Run.invariant`). `Guarded` restricts a
system to the steps that meet a condition on the state before them. Where the steps are computed
by a function, `execAll` performs a whole run, so that concrete runs can be evaluated.
-/

namespace Unidos.Lib

variable {σ ι : Type*}

/-- The states that a sequence of operations can lead to. -/
inductive Run (step : σ → ι → σ → Prop) : σ → List ι → σ → Prop where
  | nil (s) : Run step s [] s
  | cons {s t u op ops} : step s op t → Run step t ops u → Run step s (op :: ops) u

/-- The steps of a system that meet a condition on the state before them. -/
def Guarded (step : σ → ι → σ → Prop) (guard : σ → ι → Prop) : σ → ι → σ → Prop :=
  fun s op t => guard s op ∧ step s op t

/-- What every step keeps, every run keeps. -/
theorem Run.invariant {step : σ → ι → σ → Prop} {I : σ → Prop}
    (hstep : ∀ s op t, I s → step s op t → I t) {s t : σ} {ops : List ι}
    (h : Run step s ops t) (hs : I s) : I t := by
  induction h with
  | nil => exact hs
  | cons hop _ ih => exact ih (hstep _ _ _ hs hop)

/-- A run whose operations are permitted for another reason as well. -/
theorem Run.imp {step : σ → ι → σ → Prop} {guard guard' : σ → ι → Prop} {s t : σ} {ops : List ι}
    (h : Run (Guarded step guard) s ops t) (hops : ∀ op ∈ ops, ∀ s, guard s op → guard' s op) :
    Run (Guarded step guard') s ops t := by
  induction h with
  | nil s => exact .nil s
  | cons hop _ ih =>
      exact .cons ⟨hops _ (by simp) _ hop.1, hop.2⟩ (ih fun op hmem => hops op (by simp [hmem]))

/-- A run whose operations are always permitted. -/
theorem Run.guarded {step : σ → ι → σ → Prop} {guard : σ → ι → Prop} {s t : σ} {ops : List ι}
    (h : Run step s ops t) (hops : ∀ op ∈ ops, ∀ s, guard s op) :
    Run (Guarded step guard) s ops t := by
  induction h with
  | nil s => exact .nil s
  | cons hop _ ih =>
      exact .cons ⟨hops _ (by simp) _, hop⟩ (ih fun op hmem => hops op (by simp [hmem]))

/-- What certain operations establish and every step keeps holds once one of them was performed. -/
theorem Run.since {step : σ → ι → σ → Prop} {I K : σ → Prop} {m : ι → Prop}
    (hstep : ∀ s op t, I s → step s op t → I t) (hkeep : ∀ s op t, I s → K s → step s op t → K t)
    (hmark : ∀ s op t, I s → m op → step s op t → K t) {s t : σ} {ops : List ι}
    (h : Run step s ops t) (hs : I s) (hops : K s ∨ ∃ op ∈ ops, m op) : K t := by
  induction h with
  | nil => simpa using hops
  | @cons s t u op ops hop _ ih =>
      refine ih (hstep _ _ _ hs hop) ?_
      rcases hops with hK | ⟨op', hmem, hop'⟩
      · exact .inl (hkeep _ _ _ hs hK hop)
      · cases List.mem_cons.mp hmem with
        | inl heq => exact .inl (hmark _ _ _ hs (heq ▸ hop') hop)
        | inr hmem => exact .inr ⟨op', hmem, hop'⟩

theorem ok_bind {ε : Type*} {α β : Type _} (a : α) (f : α → Except ε β) :
    (Except.ok a >>= f) = f a := rfl

/-- A sequence of two fallible computations succeeds if both do. -/
theorem bind_eq_ok {ε : Type*} {α β : Type _} {x : Except ε α} {f : α → Except ε β} {b : β} :
    (x >>= f) = .ok b ↔ ∃ a, x = .ok a ∧ f a = .ok b := by
  cases x with
  | error e => simp [bind, Except.bind]
  | ok a => simp [bind, Except.bind]

theorem bind_eq_error {ε : Type*} {α β : Type _} {x : Except ε α} {f : α → Except ε β} {e : ε} :
    (x >>= f) = .error e ↔ x = .error e ∨ ∃ a, x = .ok a ∧ f a = .error e := by
  cases x with
  | error e' => simp [bind, Except.bind]
  | ok a => simp [bind, Except.bind]

/-- An error of a fallible loop is an error of one of its steps. -/
theorem foldlM_error {ε : Type*} {α : Type _} {f : σ → α → Except ε σ} {P : ε → Prop} {l : List α}
    (hstep : ∀ s a e, f s a = .error e → P e) {s : σ} {e : ε}
    (h : l.foldlM f s = .error e) : P e := by
  induction l generalizing s with
  | nil => cases h
  | cons a l ih =>
      rw [List.foldlM_cons] at h
      rcases bind_eq_error.mp h with h | ⟨u, -, h⟩
      · exact hstep s a e h
      · exact ih h

/-- What every successful step of a fallible loop keeps holds after the loop. -/
theorem foldlM_invariant {ε : Type*} {α : Type _} {f : σ → α → Except ε σ} {I : σ → Prop}
    {l : List α} (hstep : ∀ s t, ∀ a ∈ l, I s → f s a = .ok t → I t) {s t : σ} (hs : I s)
    (h : l.foldlM f s = .ok t) : I t := by
  induction l generalizing s with
  | nil => exact Except.ok.inj h ▸ hs
  | cons a l ih =>
      rw [List.foldlM_cons] at h
      obtain ⟨u, hu, h⟩ := bind_eq_ok.mp h
      exact ih (fun s t b hb => hstep s t b (by simp [hb])) (hstep s u a (by simp) hs hu) h

/-- A loop over `0`, …, `n - 1`, with an invariant that knows how far it has come. -/
theorem foldl_range {f : σ → Nat → σ} {I : Nat → σ → Prop} {n : Nat} {s : σ}
    (hstep : ∀ i s, i < n → I i s → I (i + 1) (f s i)) (hs : I 0 s) :
    I n ((List.range n).foldl f s) := by
  induction n with
  | zero => exact hs
  | succ n ih =>
      rw [List.range_succ, List.foldl_append]
      exact hstep n _ (by omega) (ih fun i s hi => hstep i s (by omega))

theorem foldlM_range {ε : Type*} {f : σ → Nat → Except ε σ} {I : Nat → σ → Prop} {n : Nat}
    {s t : σ} (hstep : ∀ i s t, i < n → I i s → f s i = .ok t → I (i + 1) t) (hs : I 0 s)
    (h : (List.range n).foldlM f s = .ok t) : I n t := by
  induction n generalizing t with
  | zero => exact Except.ok.inj h ▸ hs
  | succ n ih =>
      rw [List.range_succ, List.foldlM_append] at h
      obtain ⟨u, hu, h⟩ := bind_eq_ok.mp h
      rw [List.foldlM_cons] at h
      obtain ⟨v, hv, h⟩ := bind_eq_ok.mp h
      have heq : v = t := Except.ok.inj h
      exact heq ▸ hstep n u v (by omega) (ih (fun i s t hi => hstep i s t (by omega)) hu) hv

/-- A fallible loop whose every step succeeds. -/
theorem foldlM_range_ok {ε : Type*} {f : σ → Nat → Except ε σ} {I : Nat → σ → Prop} {n : Nat}
    {s : σ} (hstep : ∀ i s, i < n → I i s → ∃ t, f s i = .ok t ∧ I (i + 1) t) (hs : I 0 s) :
    ∃ t, (List.range n).foldlM f s = .ok t ∧ I n t := by
  induction n with
  | zero => exact ⟨s, rfl, hs⟩
  | succ n ih =>
      obtain ⟨u, hu, hI⟩ := ih fun i s hi => hstep i s (by omega)
      obtain ⟨t, ht, hI'⟩ := hstep n u (by omega) hI
      refine ⟨t, ?_, hI'⟩
      rw [List.range_succ, List.foldlM_append]
      refine bind_eq_ok.mpr ⟨u, hu, ?_⟩
      rw [List.foldlM_cons]
      exact bind_eq_ok.mpr ⟨t, ht, rfl⟩

/-- A loop that a step can end early, by returning `false` with the state it leaves. -/
def forOk {ε α : Type*} (f : σ → α → Except ε (Bool × σ)) : List α → σ → Except ε (Bool × σ)
  | [], s => .ok (true, s)
  | a :: l, s => match f s a with
      | .ok (true, s) => forOk f l s
      | .ok (false, s) => .ok (false, s)
      | .error e => .error e

/-- What every step of such a loop keeps holds after it, also after an early end. -/
theorem forOk_invariant {ε α : Type*} {f : σ → α → Except ε (Bool × σ)} {I : σ → Prop}
    {l : List α} (hstep : ∀ s t b, ∀ a ∈ l, I s → f s a = .ok (b, t) → I t) {s t : σ} {b : Bool}
    (hs : I s) (h : forOk f l s = .ok (b, t)) : I t := by
  induction l generalizing s with
  | nil =>
      simp only [forOk, Except.ok.injEq, Prod.mk.injEq] at h
      exact h.2 ▸ hs
  | cons a l ih =>
      unfold forOk at h
      split at h
      · rename_i u hu
        exact ih (fun s t b c hc => hstep s t b c (by simp [hc])) (hstep s u _ a (by simp) hs hu) h
      · rename_i u hu
        simp only [Except.ok.injEq, Prod.mk.injEq] at h
        exact h.2 ▸ hstep s u _ a (by simp) hs hu
      · simp at h

/-- Such a loop over `0`, …, `n - 1`, with an invariant that knows how far it has come. -/
theorem forOk_range {ε : Type*} {f : σ → Nat → Except ε (Bool × σ)} {I : Nat → σ → Prop}
    {J : σ → Prop} {n : Nat} {s t : σ} {b : Bool}
    (hstep : ∀ i s b t, i < n → I i s → f s i = .ok (b, t) →
      (b = true → I (i + 1) t) ∧ (b = false → J t))
    (hs : I 0 s) (h : forOk f (List.range n) s = .ok (b, t)) :
    (b = true → I n t) ∧ (b = false → J t) := by
  -- count the rounds that are left, so that the induction can move the start
  suffices hgen : ∀ k i s, i + k = n → I i s → forOk f (List.range' i k) s = .ok (b, t) →
      (b = true → I n t) ∧ (b = false → J t) by
    rw [List.range_eq_range'] at h
    exact hgen n 0 s (by omega) hs h
  intro k
  induction k with
  | zero =>
      intro i s hi hs h
      simp only [List.range'_zero, forOk, Except.ok.injEq, Prod.mk.injEq] at h
      obtain ⟨rfl, rfl⟩ := h
      have hin : i = n := by omega
      exact ⟨fun _ => hin ▸ hs, by simp⟩
  | succ k ih =>
      intro i s hi hs h
      rw [List.range'_succ] at h
      unfold forOk at h
      split at h
      · rename_i u hu
        exact ih (i + 1) u (by omega) ((hstep i s _ u (by omega) hs hu).1 rfl) h
      · rename_i u hu
        simp only [Except.ok.injEq, Prod.mk.injEq] at h
        obtain ⟨rfl, rfl⟩ := h
        exact ⟨by simp, (hstep i s _ _ (by omega) hs hu).2⟩
      · simp at h

/-- Perform operations one after another, up to the first error. -/
def execAll {ε : Type*} (exec : σ → ι → Except ε σ) (s : σ) : List ι → Except ε σ
  | [] => .ok s
  | op :: ops => match exec s op with
      | .ok t => execAll exec t ops
      | .error e => .error e

theorem run_of_execAll {ε : Type*} {exec : σ → ι → Except ε σ} {ops : List ι} {s t : σ}
    (h : execAll exec s ops = .ok t) : Run (fun s op t => exec s op = .ok t) s ops t := by
  induction ops generalizing s with
  | nil => exact Except.ok.inj h ▸ .nil s
  | cons op ops ih =>
      unfold execAll at h
      split at h
      · rename_i u hop
        exact .cons hop (ih h)
      · simp at h

/-- Perform operations one after another, as long as they are permitted and succeed. -/
def execGuarded {ε : Type*} (exec : σ → ι → Except ε σ) (guard : σ → ι → Prop)
    [∀ s op, Decidable (guard s op)] (s : σ) : List ι → Option σ
  | [] => some s
  | op :: ops =>
      if guard s op then
        match exec s op with
        | .ok t => execGuarded exec guard t ops
        | .error _ => none
      else none

theorem run_of_execGuarded {ε : Type*} {exec : σ → ι → Except ε σ} {guard : σ → ι → Prop}
    [∀ s op, Decidable (guard s op)] {ops : List ι} {s t : σ}
    (h : execGuarded exec guard s ops = some t) :
    Run (Guarded (fun s op t => exec s op = .ok t) guard) s ops t := by
  induction ops generalizing s with
  | nil => exact Option.some.inj h ▸ .nil s
  | cons op ops ih =>
      unfold execGuarded at h
      split at h
      · rename_i hguard
        split at h
        · rename_i u hop
          exact .cons ⟨hguard, hop⟩ (ih h)
        · simp at h
      · simp at h

/-- Whether a computation succeeds with a result that passes a test. -/
def okAnd {ε : Type*} (e : Except ε σ) (p : σ → Bool) : Bool :=
  match e with
  | .ok s => p s
  | .error _ => false

theorem exists_of_okAnd {ε : Type*} {e : Except ε σ} {p : σ → Bool} (h : okAnd e p = true) :
    ∃ s, e = .ok s ∧ p s = true := by
  unfold okAnd at h
  split at h
  · exact ⟨_, rfl, h⟩
  · simp at h

end Unidos.Lib
