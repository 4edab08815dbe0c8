import Mathlib.Tactic.Common

/-! Programs over a state that may stop early; what they had done to the state until then is
kept. Rules for what holds when a program is done. -/
namespace Program

def Prog (σ ε α : Type) : Type := σ → Except ε α × σ

variable {σ ε α β : Type}

def Prog.andThen (p : Prog σ ε α) (f : α → Prog σ ε β) : Prog σ ε β := fun s =>
  match p s with
  | (.ok a, s') => f a s'
  | (.error e, s') => (.error e, s')

instance : Monad (Prog σ ε) where
  pure a := fun s => (.ok a, s)
  bind := Prog.andThen

def stop (e : ε) : Prog σ ε α := fun s => (.error e, s)

def modify (f : σ → σ) : Prog σ ε Unit := fun s => (.ok (), f s)

def reads (f : σ → α) : Prog σ ε α := fun s => (.ok (f s), s)

def total (f : σ → α × σ) : Prog σ ε α := fun s => (.ok (f s).1, (f s).2)

def forEach (f : α → Prog σ ε Unit) : List α → Prog σ ε Unit
  | [] => pure ()
  | a :: as => do
    f a
    forEach f as

theorem forEach_singleton (f : α → Prog σ ε Unit) (a : α) : forEach f [a] = f a := by
  funext s
  change Prog.andThen (f a) (fun _ => pure ()) s = f a s
  unfold Prog.andThen
  rcases f a s with ⟨e | ⟨⟩, s'⟩ <;> rfl

/-- Started in `s`, the program returns with `Q` or stops with `E`. -/
def Holds (p : Prog σ ε α) (s : σ) (Q : α → σ → Prop) (E : ε → σ → Prop) : Prop :=
  match p s with
  | (.ok a, s') => Q a s'
  | (.error e, s') => E e s'

variable {s : σ} {Q Q' : α → σ → Prop} {E E' : ε → σ → Prop}

theorem pure_run (a : α) : (pure a : Prog σ ε α) s = (.ok a, s) := rfl

theorem pure_andThen (a : α) (f : α → Prog σ ε β) : ((pure a : Prog σ ε α) >>= f) = f a := rfl

theorem bind_run_ok {p : Prog σ ε α} {f : α → Prog σ ε β} {a : α} {s' : σ}
    (h : p s = (.ok a, s')) : (p >>= f) s = f a s' := by
  change Prog.andThen p f s = _
  rw [Prog.andThen, h]

theorem bind_run_error {p : Prog σ ε α} {f : α → Prog σ ε β} {e : ε} {s' : σ}
    (h : p s = (.error e, s')) : (p >>= f) s = (.error e, s') := by
  change Prog.andThen p f s = _
  rw [Prog.andThen, h]

theorem bind_run_ok_iff {p : Prog σ ε α} {f : α → Prog σ ε β} {b : β} {s' : σ} :
    (p >>= f) s = (.ok b, s') ↔ ∃ a s₁, p s = (.ok a, s₁) ∧ f a s₁ = (.ok b, s') := by
  rcases hp : p s with ⟨e | a, s₁⟩
  · rw [bind_run_error hp]
    simp
  · rw [bind_run_ok hp]
    simp

theorem holds_pure {a : α} : Holds (pure a) s Q E ↔ Q a s := Iff.rfl

theorem holds_modify {f : σ → σ} {Q : Unit → σ → Prop} :
    Holds (modify f) s Q E ↔ Q () (f s) := Iff.rfl

theorem holds_reads {f : σ → α} : Holds (reads f) s Q E ↔ Q (f s) s := Iff.rfl

theorem holds_bind {p : Prog σ ε α} {f : α → Prog σ ε β} {Q : β → σ → Prop} :
    Holds (p >>= f) s Q E ↔ Holds p s (fun a s' => Holds (f a) s' Q E) E := by
  change Holds (Prog.andThen p f) s Q E ↔ _
  unfold Holds Prog.andThen
  rcases p s with ⟨_ | a, s'⟩ <;> rfl

theorem Holds.mono {p : Prog σ ε α} (h : Holds p s Q E) (hQ : ∀ a s', Q a s' → Q' a s')
    (hE : ∀ e s', E e s' → E' e s') : Holds p s Q' E' := by
  unfold Holds at h ⊢
  generalize p s = o at h ⊢
  rcases o with ⟨e | a, s'⟩
  · exact hE e s' h
  · exact hQ a s' h

theorem Holds.and {p : Prog σ ε α} (h : Holds p s Q E) (h' : Holds p s Q' E') :
    Holds p s (fun a s' => Q a s' ∧ Q' a s') (fun e s' => E e s' ∧ E' e s') := by
  unfold Holds at h h' ⊢
  generalize p s = o at h h' ⊢
  rcases o with ⟨e | a, s'⟩
  · exact ⟨h, h'⟩
  · exact ⟨h, h'⟩

theorem holds_iff_run {p : Prog σ ε α} : Holds p s Q E ↔
    (∀ a s', p s = (.ok a, s') → Q a s') ∧ ∀ e s', p s = (.error e, s') → E e s' := by
  unfold Holds
  rcases p s with ⟨e | a, s'⟩ <;> simp

/-- What holds in every final state, however the program ends. -/
theorem holds_final {p : Prog σ ε α} {I : σ → Prop} :
    Holds p s (fun _ => I) (fun _ => I) ↔ I (p s).2 := by
  unfold Holds
  rcases p s with ⟨e | a, s'⟩ <;> rfl

/-- What holds of the way in which the program ends. -/
theorem holds_outcome {p : Prog σ ε α} {P : Except ε α × σ → Prop} :
    Holds p s (fun a s' => P (.ok a, s')) (fun e s' => P (.error e, s')) ↔ P (p s) := by
  unfold Holds
  rcases p s with ⟨e | a, s'⟩ <;> rfl

theorem holds_trivial (p : Prog σ ε α) (s : σ) : Holds p s (fun _ _ => True) (fun _ _ => True) :=
  (holds_final (I := fun _ => True)).mpr trivial

/-- A loop keeps what each of its turns keeps. -/
theorem holds_forEach {f : α → Prog σ ε Unit} {I : List α → σ → Prop}
    {E : ε → σ → Prop} (hstep : ∀ done a s, I done s →
      Holds (f a) s (fun _ s' => I (done ++ [a]) s') E) (as done : List α) (hI : I done s) :
    Holds (forEach f as) s (fun _ s' => I (done ++ as) s') E := by
  induction as generalizing done s with
  | nil => simpa [forEach, holds_pure] using hI
  | cons a as ih =>
    rw [forEach, holds_bind]
    refine (hstep done a s hI).mono ?_ (fun _ _ h => h)
    intro _ s' hI'
    simpa using ih (done ++ [a]) hI'

theorem holds_forEach_mem {f : α → Prog σ ε Unit} {I : σ → Prop} {E : ε → σ → Prop} {as : List α}
    (hstep : ∀ a ∈ as, ∀ s, I s → Holds (f a) s (fun _ => I) E) (hI : I s) :
    Holds (forEach f as) s (fun _ => I) E := by
  induction as generalizing s with
  | nil => exact hI
  | cons a as ih =>
    obtain ⟨hhead, htail⟩ := List.forall_mem_cons.mp hstep
    rw [forEach, holds_bind]
    exact (hhead s hI).mono (fun _ _ hI' => ih htail hI') (fun _ _ h => h)

/-- Started in `s`, the program stops before its end. -/
def Stops (p : Prog σ ε α) (s : σ) : Prop := ∃ e s', p s = (.error e, s')

theorem not_stops_iff {p : Prog σ ε α} : ¬Stops p s ↔ ∃ a s', p s = (.ok a, s') := by
  unfold Stops
  rcases p s with ⟨e | a, s'⟩ <;> simp

theorem not_stops_pure (a : α) : ¬Stops (pure a : Prog σ ε α) s :=
  not_stops_iff.mpr ⟨a, s, rfl⟩

theorem Holds.not_stops {p : Prog σ ε α} (h : Holds p s Q (fun _ _ => False)) : ¬Stops p s := by
  rintro ⟨e, s', hp⟩
  rwa [Holds, hp] at h

theorem stops_bind {p : Prog σ ε α} {f : α → Prog σ ε β} :
    Stops (p >>= f) s ↔ Stops p s ∨ ∃ a s', p s = (.ok a, s') ∧ Stops (f a) s' := by
  change (∃ e s', Prog.andThen p f s = (.error e, s')) ↔ _
  unfold Stops Prog.andThen
  rcases p s with ⟨e | a, s'⟩ <;> simp

theorem stops_bind_ok {p : Prog σ ε α} {f : α → Prog σ ε β} {a : α} {s' : σ}
    (h : p s = (.ok a, s')) : Stops (p >>= f) s ↔ Stops (f a) s' := by
  unfold Stops
  rw [bind_run_ok h]

/-- A turn of a loop is the first one, or one of those behind it. -/
theorem exists_turn_cons {b : α} {as : List α} {P : List α → α → Prop} :
    (∃ done a rest, b :: as = done ++ a :: rest ∧ P done a) ↔
      P [] b ∨ ∃ done a rest, as = done ++ a :: rest ∧ P (b :: done) a := by
  constructor
  · rintro ⟨done, a, rest, has, ha⟩
    cases done with
    | nil =>
      obtain ⟨rfl, rfl⟩ := List.cons.inj has
      exact Or.inl ha
    | cons c done =>
      obtain ⟨rfl, rfl⟩ := List.cons.inj has
      exact Or.inr ⟨done, a, rest, rfl, ha⟩
  · rintro (hb | ⟨done, a, rest, rfl, ha⟩)
    · exact ⟨[], b, as, rfl, hb⟩
    · exact ⟨b :: done, a, rest, rfl, ha⟩

theorem not_exists_turn_nil {P : List α → α → Prop} :
    ¬∃ done a rest, [] = done ++ a :: rest ∧ P done a := by
  rintro ⟨done, a, rest, has, -⟩
  simp at has

/-- A loop stops in one of its turns, when those before it are done. -/
theorem stops_forEach {f : α → Prog σ ε Unit} {as : List α} : Stops (forEach f as) s ↔
    ∃ done a rest, as = done ++ a :: rest ∧ ∃ s', forEach f done s = (.ok (), s') ∧
      Stops (f a) s' := by
  induction as generalizing s with
  | nil => exact iff_of_false (not_stops_pure ()) not_exists_turn_nil
  | cons b as ih =>
    have hfirst (s' : σ) : forEach f [] s = (.ok (), s') ↔ s = s' := by
      change ((.ok (), s) : Except ε Unit × σ) = _ ↔ _
      simp
    have hturn (done : List α) (s' : σ) : forEach f (b :: done) s = (.ok (), s') ↔
        ∃ u s₁, f b s = (.ok u, s₁) ∧ forEach f done s₁ = (.ok (), s') := bind_run_ok_iff
    rw [forEach, stops_bind, exists_turn_cons]
    simp only [ih, hturn, hfirst]
    constructor
    · rintro (hb | ⟨u, s₁, hb, done, a, rest, rfl, s', hdone, ha⟩)
      · exact Or.inl ⟨s, rfl, hb⟩
      · exact Or.inr ⟨done, a, rest, rfl, s', ⟨u, s₁, hb, hdone⟩, ha⟩
    · rintro (⟨_, rfl, hb⟩ | ⟨done, a, rest, rfl, s', ⟨u, s₁, hb, hdone⟩, ha⟩)
      · exact Or.inl hb
      · exact Or.inr ⟨u, s₁, hb, done, a, rest, rfl, s', hdone, ha⟩

end Program
