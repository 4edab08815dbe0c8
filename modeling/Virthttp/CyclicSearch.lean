import Mathlib.Data.List.Basic
import Mathlib.Logic.Function.Iterate
import Mathlib.Tactic.Common

/-! A search along the iterates of a successor function for the first element that is not
busy. The bound stands for a loop without one: on a cycle the loop ends exactly when some
element is free, and then the length of the cycle is bound enough. -/
namespace CyclicSearch

variable {α : Type}

def firstFree (next : α → α) (busy : α → Bool) : ℕ → α → Option α
  | 0, _ => none
  | n+1, a => if busy (next a) then firstFree next busy n (next a) else some (next a)

variable {next : α → α} {busy : α → Bool}

/-- The element found is the first free iterate, and every iterate before it is busy. -/
theorem firstFree_eq_some_iff {n : ℕ} {a b : α} :
    firstFree next busy n a = some b ↔
      ∃ d < n, next^[d+1] a = b ∧ busy b = false ∧ ∀ e < d, busy (next^[e+1] a) = true := by
  induction n generalizing a with
  | zero => simp [firstFree]
  | succ n ih =>
    by_cases hb : busy (next a) = true
    · rw [firstFree, if_pos hb, ih]
      constructor
      · rintro ⟨d, hd, heq, hf, hbefore⟩
        refine ⟨d+1, by omega, heq, hf, ?_⟩
        intro e he
        cases e with
        | zero => exact hb
        | succ e => exact hbefore e (by omega)
      · rintro ⟨d, hd, heq, hf, hbefore⟩
        cases d with
        | zero =>
          have heq' : next a = b := heq
          rw [heq', hf] at hb
          contradiction
        | succ d =>
          exact ⟨d, by omega, heq, hf, fun e he => hbefore (e+1) (by omega)⟩
    · rw [firstFree, if_neg hb]
      constructor
      · intro h
        cases h
        exact ⟨0, by omega, rfl, by simpa using hb, fun e he => absurd he (by omega)⟩
      · rintro ⟨d, hd, heq, hf, hbefore⟩
        cases d with
        | zero => exact congrArg some heq
        | succ d => exact absurd (hbefore 0 (by omega)) hb

theorem firstFree_eq_none_iff {n : ℕ} {a : α} :
    firstFree next busy n a = none ↔ ∀ d < n, busy (next^[d+1] a) = true := by
  induction n generalizing a with
  | zero => simp [firstFree]
  | succ n ih =>
    by_cases hb : busy (next a) = true
    · rw [firstFree, if_pos hb, ih]
      constructor
      · intro h d hd
        cases d with
        | zero => exact hb
        | succ d => exact h d (by omega)
      · exact fun h d hd => h (d+1) (by omega)
    · rw [firstFree, if_neg hb]
      simp only [reduceCtorEq, false_iff]
      exact fun h => hb (h 0 (by omega))

end CyclicSearch
