import Unidos.Lib.Memory

/-!
# Words on a stack

A stack grows towards lower addresses. `pushWords` stores a list of words, the first one on top of
what was there; `readWord_pushWords` reads them back, and `pushWords_apply_ne` says that nothing
else has changed.
-/

namespace Unidos.Lib.Memory

/-- Push the words of a list one after the other onto the stack that ends at `sp`. -/
def pushWords (mem : Memory) (sp : Nat) : List (BitVec 32) → Memory
  | [] => mem
  | word :: words => (mem.writeWord (sp - 4) word).pushWords (sp - 4) words

variable {mem : Memory} {sp : Nat} {words : List (BitVec 32)}

/-- The second of two stores to one address remains. -/
theorem writeWord_writeWord_same (mem : Memory) (addr : Nat) (word word' : BitVec 32) :
    (mem.writeWord addr word).writeWord addr word' = mem.writeWord addr word' := by
  funext a
  unfold writeWord
  repeat' split
  all_goals rfl

/-- Only the words pushed are written. -/
theorem pushWords_apply_ne {a : Nat} (hroom : 4 * words.length ≤ sp)
    (ha : a < sp - 4 * words.length ∨ sp ≤ a) : mem.pushWords sp words a = mem a := by
  induction words generalizing mem sp with
  | nil => rfl
  | cons word words ih =>
      rw [List.length_cons] at hroom ha
      rw [pushWords, ih (by omega) (by omega), writeWord_apply_ne _ _ _ _ (by omega)]

/-- Each word is where it was pushed. -/
theorem readWord_pushWords {i addr : Nat} (hi : i < words.length) (hroom : 4 * words.length ≤ sp)
    (haddr : addr + 4 * (i + 1) = sp) : (mem.pushWords sp words).readWord addr = words[i] := by
  induction words generalizing mem sp i with
  | nil => cases hi
  | cons word words ih =>
      rw [List.length_cons] at hroom hi
      cases i with
      | zero =>
          have hkeep : ((mem.writeWord (sp - 4) word).pushWords (sp - 4) words).readWord addr =
              (mem.writeWord (sp - 4) word).readWord addr := by
            apply readWord_congr
            intro a hlo hhi
            exact pushWords_apply_ne (by omega) (by omega)
          rw [pushWords, hkeep, show addr = sp - 4 by omega, readWord_writeWord_same]
          rfl
      | succ i =>
          exact ih (by omega) (by omega) (by omega)

theorem pushWords_append (mem : Memory) (sp : Nat) (words words' : List (BitVec 32)) :
    mem.pushWords sp (words ++ words') =
      (mem.pushWords sp words).pushWords (sp - 4 * words.length) words' := by
  induction words generalizing mem sp with
  | nil => rfl
  | cons word words ih =>
      rw [List.cons_append, pushWords, pushWords, ih, List.length_cons]
      congr 1
      omega

end Unidos.Lib.Memory
