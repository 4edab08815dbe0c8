import Mathlib.Tactic.Common

/-! Requests and responses in turns over one connection, on which either side can leave. -/
namespace Dialogue

variable {ρ σ : Type}

inductive Move (ρ σ : Type) where
  | ask (q : ρ)
  | answer (r : σ)
  | delivered (r : σ)
  | leave

inductive Phase (ρ σ : Type) where
  | idle
  | asked (q : ρ)
  | answered (q : ρ) (r : σ)
  | over

/-- `A` says what may be answered to a request, and `K` which responses are followed by another
turn. -/
inductive Moves (A : ρ → σ → Prop) (K : σ → Prop) : Phase ρ σ → Move ρ σ → Phase ρ σ → Prop
  | ask (q : ρ) : Moves A K .idle (.ask q) (.asked q)
  | answer (q : ρ) (r : σ) (h : A q r) : Moves A K (.asked q) (.answer r) (.answered q r)
  | delivered (q : ρ) (r : σ) (h : K r) : Moves A K (.answered q r) (.delivered r) .idle
  | leave (p : Phase ρ σ) (hp : p ≠ .over) : Moves A K p .leave .over

/-- What has been said on a connection, and where that leaves it. -/
inductive History (A : ρ → σ → Prop) (K : σ → Prop) : List (Move ρ σ) → Phase ρ σ → Prop
  | start : History A K [] .idle
  | move {ms : List (Move ρ σ)} {m : Move ρ σ} {p p' : Phase ρ σ} (h : History A K ms p)
      (hm : Moves A K p m p') : History A K (ms ++ [m]) p'

def turn (x : ρ × σ) : List (Move ρ σ) := [.ask x.1, .answer x.2, .delivered x.2]

inductive Unfinished (A : ρ → σ → Prop) : List (Move ρ σ) → Phase ρ σ → Prop
  | idle : Unfinished A [] .idle
  | asked (q : ρ) : Unfinished A [.ask q] (.asked q)
  | answered (q : ρ) (r : σ) (h : A q r) : Unfinished A [.ask q, .answer r] (.answered q r)
  | left {ms : List (Move ρ σ)} {p : Phase ρ σ} (h : Unfinished A ms p) (hp : p ≠ .over) :
      Unfinished A (ms ++ [.leave]) .over

structure InTurns (A : ρ → σ → Prop) (K : σ → Prop) (ms : List (Move ρ σ)) (p : Phase ρ σ)
    (turns : List (ρ × σ)) (rest : List (Move ρ σ)) : Prop where
  eq : ms = turns.flatMap turn ++ rest
  answered : ∀ x ∈ turns, A x.1 x.2 ∧ K x.2
  unfinished : Unfinished A rest p

theorem InTurns.move {A : ρ → σ → Prop} {K : σ → Prop} {ms rest : List (Move ρ σ)}
    {m : Move ρ σ} {p p' : Phase ρ σ} {turns : List (ρ × σ)} (h : InTurns A K ms p turns rest)
    (hm : Moves A K p m p') : ∃ turns' rest', InTurns A K (ms ++ [m]) p' turns' rest' := by
  obtain ⟨rfl, hall, hrest⟩ := h
  cases hm with
  | ask q =>
    cases hrest
    exact ⟨turns, [.ask q], by simp, hall, .asked q⟩
  | answer q r hA =>
    cases hrest
    exact ⟨turns, [.ask q, .answer r], by simp, hall, .answered q r hA⟩
  | delivered q r hK =>
    cases hrest with
    | answered _ _ hA =>
      refine ⟨turns ++ [(q, r)], [], by simp [turn], fun x hx => ?_, .idle⟩
      rcases List.mem_append.mp hx with hx | hx
      · exact hall x hx
      · rw [List.mem_singleton.mp hx]
        exact ⟨hA, hK⟩
  | leave p hp => exact ⟨turns, rest ++ [.leave], by simp, hall, .left hrest hp⟩

theorem History.inTurns {A : ρ → σ → Prop} {K : σ → Prop} {ms : List (Move ρ σ)}
    {p : Phase ρ σ} (h : History A K ms p) : ∃ turns rest, InTurns A K ms p turns rest := by
  induction h with
  | start => exact ⟨[], [], rfl, by simp, .idle⟩
  | move _ hm ih =>
    obtain ⟨turns, rest, hturns⟩ := ih
    exact hturns.move hm

end Dialogue
