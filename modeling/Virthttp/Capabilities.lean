import Mathlib.Data.List.Induction
import Mathlib.Tactic.Common

/-! Logs in which handles are given out and used: an entry that uses a handle comes after one that
has given it out. -/
namespace Capabilities

variable {ε κ : Type} {uses gives : ε → List κ} {l l' : List ε} {k : κ}

def Held (gives : ε → List κ) (l : List ε) (k : κ) : Prop := ∃ e ∈ l, k ∈ gives e

inductive Disciplined (uses gives : ε → List κ) : List ε → Prop
  | nil : Disciplined uses gives []
  | snoc (l : List ε) (e : ε) (h : Disciplined uses gives l) (he : ∀ k ∈ uses e, Held gives l k) :
      Disciplined uses gives (l ++ [e])

theorem Held.append (h : Held gives l k) (l' : List ε) : Held gives (l ++ l') k := by
  obtain ⟨e, he, hk⟩ := h
  exact ⟨e, List.mem_append_left l' he, hk⟩

theorem held_snoc {e : ε} (hk : k ∈ gives e) (l : List ε) : Held gives (l ++ [e]) k :=
  ⟨e, List.mem_append_right l (List.mem_singleton_self e), hk⟩

/-- Entries that only use what is held already -/
theorem Disciplined.append (h : Disciplined uses gives l)
    (hl' : ∀ e ∈ l', ∀ k ∈ uses e, Held gives l k) : Disciplined uses gives (l ++ l') := by
  induction l' using List.reverseRecOn with
  | nil => rwa [List.append_nil]
  | append_singleton l' e ih =>
    rw [← List.append_assoc]
    refine .snoc _ e (ih fun e' he' => hl' e' (List.mem_append_left _ he')) fun k hk => ?_
    exact (hl' e (by simp) k hk).append l'

end Capabilities
