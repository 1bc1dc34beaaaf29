import Unidos.Lib.Run

/-!
# Errors that a computation can end with

`Raises P x` says that `x` succeeds, or ends with an error of which `P` holds. It goes through
sequences and loops, so that each function needs to be looked at once.
-/

namespace Unidos.Lib

variable {ε : Type*} {α β : Type _}

/-- The computation succeeds, or its error is one of `P`. -/
def Raises (P : ε → Prop) (x : Except ε α) : Prop := ∀ e, x = .error e → P e

section Raises

variable {P Q : ε → Prop} {x : Except ε α}

@[simp] theorem raises_ok (a : α) : Raises P (.ok a : Except ε α) := by
  intro e h
  cases h

@[simp] theorem raises_error {e : ε} : Raises P (.error e : Except ε α) ↔ P e :=
  ⟨fun h => h e rfl, fun h _ heq => Except.error.inj heq ▸ h⟩

theorem Raises.mono (h : Raises P x) (hPQ : ∀ e, P e → Q e) : Raises Q x :=
  fun e he => hPQ e (h e he)

theorem Raises.bind {f : α → Except ε β} (h : Raises P x) (hf : ∀ a, x = .ok a → Raises P (f a)) :
    Raises P (x >>= f) := by
  intro e he
  obtain he | ⟨a, ha, he⟩ := bind_eq_error.mp he
  · exact h e he
  · exact hf a ha e he

theorem Raises.foldlM {σ : Type _} {f : σ → α → Except ε σ} (hf : ∀ s a, Raises P (f s a))
    (l : List α) (s : σ) : Raises P (l.foldlM f s) :=
  fun _ he => foldlM_error (fun s a e h => hf s a e h) he

theorem Raises.forOk {σ : Type _} {f : σ → α → Except ε (Bool × σ)}
    (hf : ∀ s a, Raises P (f s a)) (l : List α) (s : σ) : Raises P (Lib.forOk f l s) := by
  induction l generalizing s with
  | nil => exact raises_ok _
  | cons a l ih =>
      unfold Lib.forOk
      split
      · exact ih _
      · exact raises_ok _
      · rename_i e he
        exact raises_error.mpr (hf s a e he)

theorem Raises.mapM {f : α → Except ε β} {l : List α} (hf : ∀ a ∈ l, Raises P (f a)) :
    Raises P (l.mapM f) := by
  induction l with
  | nil => exact raises_ok _
  | cons a l ih =>
      rw [List.mapM_cons]
      exact (hf a List.mem_cons_self).bind fun _ _ =>
        (ih fun b hb => hf b (List.mem_cons_of_mem a hb)).bind fun _ _ => raises_ok _

end Raises

/-- What a loop that collects results has collected. -/
theorem mapM_eq_ok {f : α → Except ε β} {l : List α} {bs : List β} (h : l.mapM f = .ok bs) :
    bs.length = l.length ∧ ∀ (k : Nat) b, bs[k]? = some b → ∃ a, l[k]? = some a ∧ f a = .ok b := by
  induction l generalizing bs with
  | nil =>
      obtain rfl := Except.ok.inj h
      exact ⟨rfl, fun k b hb => by simp at hb⟩
  | cons a l ih =>
      rw [List.mapM_cons] at h
      obtain ⟨b, hb, h⟩ := bind_eq_ok.mp h
      obtain ⟨rest, hrest, h⟩ := bind_eq_ok.mp h
      obtain rfl := Except.ok.inj h
      obtain ⟨hlen, hget⟩ := ih hrest
      refine ⟨by rw [List.length_cons, List.length_cons, hlen], fun k c hc => ?_⟩
      cases k with
      | zero => exact ⟨a, rfl, (Option.some.inj hc) ▸ hb⟩
      | succ k => exact hget k c hc

/-- A loop none of whose rounds raises. -/
theorem mapM_of_ok {f : α → Except ε β} {g : α → β} {l : List α} (h : ∀ a ∈ l, f a = .ok (g a)) :
    l.mapM f = .ok (l.map g) := by
  induction l with
  | nil => rfl
  | cons a l ih =>
      rw [List.mapM_cons, h a List.mem_cons_self, ok_bind,
        ih fun b hb => h b (List.mem_cons_of_mem a hb), ok_bind]
      rfl

end Unidos.Lib
