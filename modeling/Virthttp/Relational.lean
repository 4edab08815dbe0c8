import Virthttp.Interaction

/-! Two programs side by side: rules for what relates their states, whichever way both end. -/
namespace Program

variable {σ τ ε α β γ δ : Type}

inductive SameEnd (R : σ → τ → Prop) (V : α → β → Prop) : Except ε α × σ → Except ε β × τ → Prop
  | returned {a : α} {b : β} {s : σ} {t : τ} (hV : V a b) (hR : R s t) :
      SameEnd R V (.ok a, s) (.ok b, t)
  | stopped {e : ε} {s : σ} {t : τ} (hR : R s t) : SameEnd R V (.error e, s) (.error e, t)

def Alike (R : σ → τ → Prop) (V : α → β → Prop) (p : Prog σ ε α) (q : Prog τ ε β) : Prop :=
  ∀ s t, R s t → SameEnd R V (p s) (q t)

variable {R : σ → τ → Prop} {V : α → β → Prop}

theorem alike_pure {a : α} {b : β} (hV : V a b) :
    Alike R V (pure a : Prog σ ε α) (pure b : Prog τ ε β) := fun _ _ hR => .returned hV hR

theorem alike_stop (e : ε) : Alike R V (stop e) (stop e) := fun _ _ hR => .stopped hR

theorem alike_modify {f : σ → σ} {g : τ → τ} (h : ∀ s t, R s t → R (f s) (g t)) :
    Alike R Eq (modify f : Prog σ ε Unit) (modify g : Prog τ ε Unit) :=
  fun s t hR => .returned rfl (h s t hR)

theorem alike_reads {f : σ → α} {g : τ → β} (h : ∀ s t, R s t → V (f s) (g t)) :
    Alike R V (reads f : Prog σ ε α) (reads g : Prog τ ε β) := fun s t hR => .returned (h s t hR) hR

theorem Alike.bind {α' β' : Type} {W : α' → β' → Prop} {p : Prog σ ε α} {q : Prog τ ε β}
    {f : α → Prog σ ε α'} {g : β → Prog τ ε β'} (h : Alike R V p q)
    (hfg : ∀ a b, V a b → Alike R W (f a) (g b)) : Alike R W (p >>= f) (q >>= g) := by
  intro s t hR
  change SameEnd R W (Prog.andThen p f s) (Prog.andThen q g t)
  have hpq := h s t hR
  unfold Prog.andThen
  generalize p s = o at hpq ⊢
  generalize q t = o' at hpq ⊢
  cases hpq with
  | returned hV hR' => exact hfg _ _ hV _ _ hR'
  | stopped hR' => exact .stopped hR'

/-- Where the results are the same, so is what follows. -/
theorem Alike.bind_eq {α' β' : Type} {W : α' → β' → Prop} {p : Prog σ ε α} {q : Prog τ ε α}
    {f : α → Prog σ ε α'} {g : α → Prog τ ε β'} (h : Alike R Eq p q)
    (hfg : ∀ a, Alike R W (f a) (g a)) : Alike R W (p >>= f) (q >>= g) := by
  apply h.bind
  rintro a _ rfl
  exact hfg a

end Program

namespace Interaction

open Program

variable {Op : Type} {Ret : Op → Type} {σ τ ε δ α β : Type}

theorem play_bind {I : (o : Op) → Prog σ δ (Ret o)} {onStop : ε → δ} (p : Script Ret ε α)
    (f : α → Script Ret ε β) :
    (p >>= f).play I onStop = p.play I onStop >>= fun a => (f a).play I onStop := by
  change (p.andThen f).play I onStop = _
  induction p with
  | ret a => rfl
  | stop e => rfl
  | ask o k ih =>
    funext s
    change Prog.andThen (I o) _ s = Prog.andThen (Prog.andThen (I o) _) _ s
    unfold Prog.andThen
    rcases I o s with ⟨e | r, s'⟩
    · rfl
    · exact congrFun (ih r) s'

/-- Two interpretations that agree on the operations asked for agree on the program. -/
theorem play_alike {R : σ → τ → Prop} {O : Op → Prop} {I : (o : Op) → Prog σ δ (Ret o)}
    {J : (o : Op) → Prog τ δ (Ret o)} {onStop : ε → δ}
    (hIJ : ∀ o, O o → Alike R Eq (I o) (J o)) {p : Script Ret ε α} (hp : p.Asks O) :
    Alike R Eq (p.play I onStop) (p.play J onStop) := by
  induction p with
  | ret a => exact alike_pure rfl
  | stop e => exact alike_stop _
  | ask o k ih => exact (hIJ o hp.1).bind_eq fun r => ih r (hp.2 r)

end Interaction
