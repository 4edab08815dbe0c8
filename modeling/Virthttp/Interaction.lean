import Virthttp.Program

/-! Programs that only interact through a fixed set of operations. What such a program does is
read off its text, for all answers at once, and carried over to any interpretation of its
operations as stateful programs. -/
namespace Interaction

open Program

inductive Script {Op : Type} (Ret : Op → Type) (ε α : Type) where
  | ret (a : α)
  | stop (e : ε)
  | ask (o : Op) (k : Ret o → Script Ret ε α)

variable {Op : Type} {Ret : Op → Type} {σ ε δ α β : Type}

def Script.andThen (p : Script Ret ε α) (f : α → Script Ret ε β) : Script Ret ε β :=
  match p with
  | .ret a => f a
  | .stop e => .stop e
  | .ask o k => .ask o (fun r => (k r).andThen f)

instance : Monad (Script Ret ε) where
  pure := .ret
  bind := Script.andThen

theorem ret_bind (a : α) (f : α → Script Ret ε β) : (pure a >>= f) = f a := rfl

def ask (Ret : Op → Type) (o : Op) : Script Ret ε (Ret o) := .ask o .ret

abbrev Log (Ret : Op → Type) := List (Σ o, Ret o)

/-- Whatever the answers, the program returns with `Q` or stops with `E`, both of which may
speak about what was performed. -/
def Spec : Script Ret ε α → Log Ret → (Log Ret → α → Prop) → (Log Ret → ε → Prop) → Prop
  | .ret a, h, Q, _ => Q h a
  | .stop e, h, _, E => E h e
  | .ask o k, h, Q, E => ∀ r, Spec (k r) (h ++ [⟨o, r⟩]) Q E

def Script.play (I : (o : Op) → Prog σ δ (Ret o)) (onStop : ε → δ) :
    Script Ret ε α → Prog σ δ α
  | .ret a => pure a
  | .stop e => Program.stop (onStop e)
  | .ask o k => I o >>= fun r => (k r).play I onStop

variable {h : Log Ret} {Q Q' : Log Ret → α → Prop} {E E' : Log Ret → ε → Prop}

theorem spec_pure {a : α} : Spec (pure a : Script Ret ε α) h Q E ↔ Q h a := Iff.rfl

theorem spec_stop {e : ε} : Spec (.stop e : Script Ret ε α) h Q E ↔ E h e := Iff.rfl

theorem spec_ask {o : Op} {Q : Log Ret → Ret o → Prop} :
    Spec (ask Ret o : Script Ret ε (Ret o)) h Q E ↔ ∀ r, Q (h ++ [⟨o, r⟩]) r := Iff.rfl

theorem spec_bind {p : Script Ret ε α} {f : α → Script Ret ε β} {Q : Log Ret → β → Prop} :
    Spec (p >>= f) h Q E ↔ Spec p h (fun h' a => Spec (f a) h' Q E) E := by
  change Spec (p.andThen f) h Q E ↔ _
  induction p generalizing h with
  | ret a => rfl
  | stop e => rfl
  | ask o k ih => exact forall_congr' (fun r => ih r)

theorem Spec.mono {p : Script Ret ε α} (hp : Spec p h Q E) (hQ : ∀ h' a, Q h' a → Q' h' a)
    (hE : ∀ h' e, E h' e → E' h' e) : Spec p h Q' E' := by
  induction p generalizing h with
  | ret a => exact hQ h a hp
  | stop e => exact hE h e hp
  | ask o k ih => exact fun r => ih r (hp r)

theorem Spec.and {p : Script Ret ε α} (hp : Spec p h Q E) (hp' : Spec p h Q' E') :
    Spec p h (fun h' a => Q h' a ∧ Q' h' a) (fun h' e => E h' e ∧ E' h' e) := by
  induction p generalizing h with
  | ret a => exact ⟨hp, hp'⟩
  | stop e => exact ⟨hp, hp'⟩
  | ask o k ih => exact fun r => ih r (hp r) (hp' r)

theorem spec_trivial (p : Script Ret ε α) (h : Log Ret) :
    Spec p h (fun _ _ => True) (fun _ _ => True) := by
  induction p generalizing h with
  | ret a => trivial
  | stop e => trivial
  | ask o k ih => exact fun r => ih r _

/-- Programs agree that go on alike after every result that the first part can have. -/
theorem bind_congr_of_spec {p : Script Ret ε α} {f g : α → Script Ret ε β}
    (hp : Spec p h (fun _ a => f a = g a) (fun _ _ => True)) : (p >>= f) = (p >>= g) := by
  change p.andThen f = p.andThen g
  induction p generalizing h with
  | ret a => exact hp
  | stop e => rfl
  | ask o k ih =>
    rw [Script.andThen, Script.andThen]
    congr 1
    funext r
    exact ih r (hp r)

/-- If a relation between logs and states is kept by every operation, then the run of a program
ends in a state related to a log that its specification speaks about. -/
theorem play_spec {I : (o : Op) → Prog σ δ (Ret o)} {onStop : ε → δ}
    {T : Log Ret → σ → Prop}
    (hstep : ∀ h s o, T h s → Holds (I o) s (fun r s' => T (h ++ [⟨o, r⟩]) s') (fun _ _ => False))
    {p : Script Ret ε α} (hp : Spec p h Q E) {s : σ} (hT : T h s) :
    Holds (p.play I onStop) s (fun a s' => ∃ h', T h' s' ∧ Q h' a)
      (fun d s' => ∃ h' e, d = onStop e ∧ T h' s' ∧ E h' e) := by
  induction p generalizing h s with
  | ret a => exact ⟨h, hT, hp⟩
  | stop e => exact ⟨h, e, rfl, hT, hp⟩
  | ask o k ih =>
    rw [Script.play, holds_bind]
    refine (hstep h s o hT).mono ?_ (fun _ _ hf => hf.elim)
    intro r s' hT'
    exact ih r (hp r) hT'

def Script.Asks (O : Op → Prop) : Script Ret ε α → Prop
  | .ret _ => True
  | .stop _ => True
  | .ask o k => O o ∧ ∀ r, (k r).Asks O

section Asks

variable {O O' : Op → Prop}

theorem asks_pure (a : α) : (pure a : Script Ret ε α).Asks O := trivial

theorem asks_ask {o : Op} (ho : O o) : (ask Ret o : Script Ret ε (Ret o)).Asks O :=
  ⟨ho, fun _ => trivial⟩

/-- What follows counts only for the results that the first program can have. -/
theorem asks_bind {p : Script Ret ε α} {f : α → Script Ret ε β} (hp : p.Asks O)
    (hf : Spec p h (fun _ a => (f a).Asks O) (fun _ _ => True)) : (p >>= f).Asks O := by
  change (p.andThen f).Asks O
  induction p generalizing h with
  | ret a => exact hf
  | stop e => trivial
  | ask o k ih => exact ⟨hp.1, fun r => ih r (hp.2 r) (hf r)⟩

theorem asks_bind_all {p : Script Ret ε α} {f : α → Script Ret ε β} (hp : p.Asks O)
    (hf : ∀ a, (f a).Asks O) : (p >>= f).Asks O := by
  apply asks_bind hp
  exact (spec_trivial p []).mono (fun _ a _ => hf a) (fun _ _ _ => trivial)

theorem Script.Asks.mono {p : Script Ret ε α} (hp : p.Asks O) (hO : ∀ o, O o → O' o) :
    p.Asks O' := by
  induction p with
  | ret a => trivial
  | stop e => trivial
  | ask o k ih => exact ⟨hO o hp.1, fun r => ih r (hp.2 r)⟩

/-- Only such operations are then performed. -/
theorem Script.Asks.spec {p : Script Ret ε α} (hp : p.Asks O) (hh : ∀ x ∈ h, O x.1) :
    Spec p h (fun h' _ => ∀ x ∈ h', O x.1) (fun h' _ => ∀ x ∈ h', O x.1) := by
  induction p generalizing h with
  | ret a => exact hh
  | stop e => exact hh
  | ask o k ih =>
    intro r
    apply ih r (hp.2 r)
    intro x hx
    rcases List.mem_append.mp hx with hx | hx
    · exact hh x hx
    · rw [List.mem_singleton.mp hx]
      exact hp.1

end Asks

end Interaction
