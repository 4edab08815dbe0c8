import Mathlib.Data.List.Basic
import Mathlib.Tactic.Common

/-! Finite runs of a labelled transition function: a step that is not enabled has no result,
and a run keeps the labels of its steps in order. -/
namespace Runs

variable {σ α ε : Type}

def exec (step : σ → α → Option (ε × σ)) : σ → List α → Option (List ε × σ)
  | s, [] => some ([], s)
  | s, a :: as => do
    let (e, s') ← step s a
    let (es, s'') ← exec step s' as
    return (e :: es, s'')

variable {step : σ → α → Option (ε × σ)}

theorem exec_cons_eq_some {s s' : σ} {a : α} {as : List α} {es : List ε} :
    exec step s (a :: as) = some (es, s') ↔
      ∃ e s₁ es', step s a = some (e, s₁) ∧ exec step s₁ as = some (es', s') ∧ es = e :: es' := by
  constructor
  · intro h
    simp only [exec, Option.bind_eq_bind, Option.bind_eq_some_iff] at h
    obtain ⟨⟨e, s₁⟩, h1, ⟨es', s₂⟩, h2, h3⟩ := h
    cases h3
    exact ⟨e, s₁, es', h1, h2, rfl⟩
  · rintro ⟨e, s₁, es', h1, h2, rfl⟩
    simp [exec, h1, h2]

/-- A step keeps the invariant of the labels so far and the state; so does a run. -/
theorem exec_invariant {I : List ε → σ → Prop}
    (hstep : ∀ pre s a e s', I pre s → step s a = some (e, s') → I (pre ++ [e]) s')
    {pre es : List ε} {s s' : σ} {as : List α} (hI : I pre s)
    (h : exec step s as = some (es, s')) : I (pre ++ es) s' := by
  induction as generalizing pre es s with
  | nil =>
    cases h
    simpa using hI
  | cons a as ih =>
    obtain ⟨e, s₁, es', h1, h2, rfl⟩ := exec_cons_eq_some.mp h
    have := ih (hstep pre s a e s₁ hI h1) h2
    simpa using this

theorem exec_invariant_nil {I : List ε → σ → Prop}
    (hstep : ∀ pre s a e s', I pre s → step s a = some (e, s') → I (pre ++ [e]) s')
    {es : List ε} {s s' : σ} {as : List α} (hI : I [] s)
    (h : exec step s as = some (es, s')) : I es s' := by
  simpa using exec_invariant hstep hI h

/-- The same for an invariant of the inputs so far and the state. -/
theorem exec_invariant_inputs {I : List α → σ → Prop}
    (hstep : ∀ pre s a e s', I pre s → step s a = some (e, s') → I (pre ++ [a]) s')
    {pre as : List α} {es : List ε} {s s' : σ} (hI : I pre s)
    (h : exec step s as = some (es, s')) : I (pre ++ as) s' := by
  induction as generalizing pre es s with
  | nil =>
    cases h
    simpa using hI
  | cons a as ih =>
    obtain ⟨e, s₁, es', h1, h2, _⟩ := exec_cons_eq_some.mp h
    have hrest := ih (hstep pre s a e s₁ hI h1) h2
    simpa using hrest

theorem exec_invariant_inputs_nil {I : List α → σ → Prop}
    (hstep : ∀ pre s a e s', I pre s → step s a = some (e, s') → I (pre ++ [a]) s')
    {as : List α} {es : List ε} {s s' : σ} (hI : I [] s)
    (h : exec step s as = some (es, s')) : I as s' := by
  simpa using exec_invariant_inputs hstep hI h

/-- A run goes on from where another one ends. -/
theorem exec_append {s s' s'' : σ} {as bs : List α} {es fs : List ε}
    (h : exec step s as = some (es, s')) (h' : exec step s' bs = some (fs, s'')) :
    exec step s (as ++ bs) = some (es ++ fs, s'') := by
  induction as generalizing es s with
  | nil =>
    cases h
    exact h'
  | cons a as ih =>
    obtain ⟨e, s₁, es', h1, h2, rfl⟩ := exec_cons_eq_some.mp h
    exact exec_cons_eq_some.mpr ⟨e, s₁, es' ++ fs, h1, ih h2, rfl⟩

def Meets (step : σ → α → Option (ε × σ)) (P : σ → α → Prop) : σ → List α → Prop
  | _, [] => True
  | s, a :: as => P s a ∧ ∀ e s', step s a = some (e, s') → Meets step P s' as

theorem meets_of_forall {P : α → Prop} {as : List α} (hP : ∀ a ∈ as, P a) :
    ∀ s, Meets step (fun _ a => P a) s as := by
  induction as with
  | nil => exact fun _ => trivial
  | cons a as ih =>
    obtain ⟨hfirst, hrest⟩ := List.forall_mem_cons.mp hP
    exact fun s => ⟨hfirst, fun _ s' _ => ih hrest s'⟩

theorem exec_invariant_meets {P : σ → α → Prop} {I : List ε → σ → Prop}
    (hstep : ∀ pre s a e s', I pre s → P s a → step s a = some (e, s') → I (pre ++ [e]) s')
    {pre es : List ε} {s s' : σ} {as : List α} (hP : Meets step P s as) (hI : I pre s)
    (h : exec step s as = some (es, s')) : I (pre ++ es) s' := by
  induction as generalizing pre es s with
  | nil =>
    cases h
    simpa using hI
  | cons a as ih =>
    obtain ⟨e, s₁, es', h1, h2, rfl⟩ := exec_cons_eq_some.mp h
    have hrest := ih (hP.2 e s₁ h1) (hstep pre s a e s₁ hI hP.1 h1) h2
    simpa using hrest

theorem exec_invariant_meets_nil {P : σ → α → Prop} {I : List ε → σ → Prop}
    (hstep : ∀ pre s a e s', I pre s → P s a → step s a = some (e, s') → I (pre ++ [e]) s')
    {es : List ε} {s s' : σ} {as : List α} (hP : Meets step P s as) (hI : I [] s)
    (h : exec step s as = some (es, s')) : I es s' := by
  simpa using exec_invariant_meets hstep hP hI h

/-- Where the condition on a step says exactly that the step keeps the invariant and has a good
label, a run meets it if and only if all that is reached on the way is as it should be. -/
theorem meets_iff_prefixes {P : σ → α → Prop} {I : σ → Prop} {F : ε → Prop}
    (hstep : ∀ s a e s', I s → step s a = some (e, s') → (P s a ↔ I s' ∧ F e))
    {s s' : σ} {as : List α} {es : List ε} (hI : I s) (h : exec step s as = some (es, s')) :
    Meets step P s as ↔ ∀ pre post es₁ s₁, as = pre ++ post →
      exec step s pre = some (es₁, s₁) → I s₁ ∧ ∀ e ∈ es₁, F e := by
  induction as generalizing s es with
  | nil =>
    refine ⟨fun _ pre post es₁ s₁ heq h₁ => ?_, fun _ => trivial⟩
    obtain ⟨rfl, rfl⟩ := List.append_eq_nil_iff.mp heq.symm
    cases h₁
    exact ⟨hI, by simp⟩
  | cons a as ih =>
    obtain ⟨e, s₂, es', h1, h2, rfl⟩ := exec_cons_eq_some.mp h
    have hone := hstep s a e s₂ hI h1
    constructor
    · intro hmeets pre post es₁ s₁ heq h₁
      obtain ⟨hI₂, hF⟩ := hone.mp hmeets.1
      cases pre with
      | nil =>
        cases h₁
        exact ⟨hI, by simp⟩
      | cons b pre =>
        obtain ⟨rfl, hrest⟩ := List.cons.inj heq
        obtain ⟨e', s₂', es₂, k1, k2, rfl⟩ := exec_cons_eq_some.mp h₁
        rw [h1] at k1
        cases k1
        have htail := (ih hI₂ h2).mp (hmeets.2 e s₂ h1) pre post es₂ s₁ hrest k2
        exact ⟨htail.1, List.forall_mem_cons.mpr ⟨hF, htail.2⟩⟩
    · intro hall
      have hfirst := hall [a] as [e] s₂ rfl (exec_cons_eq_some.mpr ⟨e, s₂, [], h1, rfl, rfl⟩)
      have hF : F e := hfirst.2 e List.mem_cons_self
      refine ⟨hone.mpr ⟨hfirst.1, hF⟩, ?_⟩
      intro e' s₂' h1'
      rw [h1] at h1'
      cases h1'
      apply (ih hfirst.1 h2).mpr
      intro pre post es₁ s₁ heq h₁
      have hlonger := hall (a :: pre) post (e :: es₁) s₁ (by rw [heq, List.cons_append])
        (exec_cons_eq_some.mpr ⟨e, s₂, es₁, h1, h₁, rfl⟩)
      exact ⟨hlonger.1, fun x hx => hlonger.2 x (List.mem_cons_of_mem _ hx)⟩

/-- A run can be cut in front of any of its labels. -/
theorem exec_split {s s' : σ} {as : List α} {pre post : List ε} {e : ε}
    (h : exec step s as = some (pre ++ e :: post, s')) :
    ∃ as₁ a as₂ s₁ s₂, exec step s as₁ = some (pre, s₁) ∧ step s₁ a = some (e, s₂) ∧
      exec step s₂ as₂ = some (post, s') := by
  induction pre generalizing s as with
  | nil =>
    cases as with
    | nil => simp [exec] at h
    | cons a as =>
      obtain ⟨e', s₁, es', h1, h2, h3⟩ := exec_cons_eq_some.mp h
      simp only [List.nil_append, List.cons.injEq] at h3
      obtain ⟨rfl, rfl⟩ := h3
      exact ⟨[], a, as, s, s₁, rfl, h1, h2⟩
  | cons e₀ pre ih =>
    cases as with
    | nil => simp [exec] at h
    | cons a as =>
      obtain ⟨e', s₁, es', h1, h2, h3⟩ := exec_cons_eq_some.mp h
      simp only [List.cons_append, List.cons.injEq] at h3
      obtain ⟨rfl, rfl⟩ := h3
      obtain ⟨as₁, b, as₂, t₁, t₂, k1, k2, k3⟩ := ih h2
      exact ⟨a :: as₁, b, as₂, t₁, t₂,
        exec_cons_eq_some.mpr ⟨_, _, _, h1, k1, rfl⟩, k2, k3⟩

/-- Two machines that take related steps from related states have related runs. -/
theorem exec_rel {τ δ : Type} {step' : τ → α → Option (δ × τ)} {L : ε → δ → Prop}
    {R : σ → τ → Prop} (hstep : ∀ s t a, R s t →
      Option.Rel (fun x y => L x.1 y.1 ∧ R x.2 y.2) (step s a) (step' t a))
    (as : List α) : ∀ s t, R s t →
      Option.Rel (fun x y => List.Forall₂ L x.1 y.1 ∧ R x.2 y.2) (exec step s as)
        (exec step' t as) := by
  induction as with
  | nil =>
    intro s t h
    exact .some ⟨.nil, h⟩
  | cons a as ih =>
    intro s t h
    have hone := hstep s t a h
    unfold exec
    generalize step s a = x at hone
    generalize step' t a = y at hone
    cases hone with
    | none => exact .none
    | some hxy =>
      obtain ⟨hlabel, hstate⟩ := hxy
      have hrest := ih _ _ hstate
      simp only [Option.bind_eq_bind, Option.bind_some]
      generalize exec step _ as = x at hrest
      generalize exec step' _ as = y at hrest
      cases hrest with
      | none => exact .none
      | some hxy => exact .some ⟨.cons hlabel hxy.1, hxy.2⟩

/-- A machine that is given its inputs in another form -/
theorem exec_comap {β : Type} (h : β → α) (bs : List β) : ∀ s,
    exec (fun s b => step s (h b)) s bs = exec step s (bs.map h) := by
  induction bs with
  | nil => exact fun _ => rfl
  | cons b bs ih =>
    intro s
    simp only [List.map_cons, exec, ih]

/-- Where each step of a machine is a run of another one, with the labels that it is told by, so
is each of its runs. -/
theorem exec_refines {τ β δ : Type} {step' : τ → β → Option (δ × τ)} {told : ε → List δ}
    {R : σ → τ → Prop} (hstep : ∀ s t a e s', R s t → step s a = some (e, s') →
      ∃ bs t', exec step' t bs = some (told e, t') ∧ R s' t')
    {as : List α} {es : List ε} {s s' : σ} {t : τ} (hR : R s t)
    (h : exec step s as = some (es, s')) :
    ∃ bs t', exec step' t bs = some (es.flatMap told, t') ∧ R s' t' := by
  induction as generalizing es s t with
  | nil =>
    cases h
    exact ⟨[], t, rfl, hR⟩
  | cons a as ih =>
    obtain ⟨e, s₁, es', h1, h2, rfl⟩ := exec_cons_eq_some.mp h
    obtain ⟨bs, t₁, hone, hR₁⟩ := hstep s t a e s₁ hR h1
    obtain ⟨cs, t', hrest, hR'⟩ := ih hR₁ h2
    exact ⟨bs ++ cs, t', exec_append hone hrest, hR'⟩

/-- Where every step that is hidden keeps a relation to a state that does not move, and every other
step is taken there as well, a run without its hidden steps is a run. -/
theorem exec_erase {hidden : α → Bool} {hiddenLabel good : ε → Bool} {R : σ → σ → Prop}
    (hhidden : ∀ s t a e s', R s t → good e = true → step s a = some (e, s') → hidden a = true →
      hiddenLabel e = true ∧ R s' t)
    (hshown : ∀ s t a e s', R s t → step s a = some (e, s') → hidden a = false →
      hiddenLabel e = false ∧ ∃ t', step t a = some (e, t') ∧ R s' t')
    {as : List α} {es : List ε} {s s' t : σ} (hR : R s t) (hgood : ∀ e ∈ es, good e = true)
    (h : exec step s as = some (es, s')) :
    ∃ t', exec step t (as.filter fun a => !hidden a) =
      some (es.filter fun e => !hiddenLabel e, t') ∧ R s' t' := by
  induction as generalizing es s t with
  | nil =>
    cases h
    exact ⟨t, rfl, hR⟩
  | cons a as ih =>
    obtain ⟨e, s₁, es', h1, h2, rfl⟩ := exec_cons_eq_some.mp h
    obtain ⟨hfirst, hrest⟩ := List.forall_mem_cons.mp hgood
    cases ha : hidden a with
    | true =>
      obtain ⟨he, hR₁⟩ := hhidden s t a e s₁ hR hfirst h1 ha
      obtain ⟨t', hrun, hR'⟩ := ih hR₁ hrest h2
      refine ⟨t', ?_, hR'⟩
      simpa [ha, he] using hrun
    | false =>
      obtain ⟨he, t₁, hone, hR₁⟩ := hshown s t a e s₁ hR h1 ha
      obtain ⟨t', hrun, hR'⟩ := ih hR₁ hrest h2
      refine ⟨t', ?_, hR'⟩
      simp only [List.filter_cons, ha, he, Bool.not_false, if_true]
      exact exec_cons_eq_some.mpr ⟨e, t₁, _, hone, hrun, rfl⟩

/-- What every step of a kind lowers bounds the runs of such steps. -/
theorem exec_length_le {P : α → Prop} {m : σ → ℕ}
    (hstep : ∀ s a e s', P a → step s a = some (e, s') → m s' < m s)
    {as : List α} {es : List ε} {s s' : σ} (hP : ∀ a ∈ as, P a)
    (h : exec step s as = some (es, s')) : as.length+m s' ≤ m s := by
  induction as generalizing es s with
  | nil =>
    cases h
    simp
  | cons a as ih =>
    obtain ⟨e, s₁, es', h1, h2, _⟩ := exec_cons_eq_some.mp h
    obtain ⟨hfirst, hrest⟩ := List.forall_mem_cons.mp hP
    have hlower := hstep s a e s₁ hfirst h1
    have hmore := ih hrest h2
    rw [List.length_cons]
    omega

/-- Such steps, taken for as long as there is one to take, come to a state that allows none. -/
theorem exists_exec_stuck {P : α → Prop} {m : σ → ℕ}
    (hstep : ∀ s a e s', P a → step s a = some (e, s') → m s' < m s) (s : σ) :
    ∃ as es s', (∀ a ∈ as, P a) ∧ exec step s as = some (es, s') ∧
      ∀ a, P a → step s' a = none := by
  induction hm : m s using Nat.strongRecOn generalizing s with
  | ind k ih =>
    by_cases hstuck : ∀ a, P a → step s a = none
    · exact ⟨[], [], s, by simp, rfl, hstuck⟩
    · push Not at hstuck
      obtain ⟨a, ha, hsome⟩ := hstuck
      obtain ⟨⟨e, s₁⟩, hone⟩ := Option.ne_none_iff_exists'.mp hsome
      have hlower := hstep s a e s₁ ha hone
      obtain ⟨as, es, s', hP, hrun, hend⟩ := ih (m s₁) (by omega) s₁ rfl
      exact ⟨a :: as, e :: es, s', List.forall_mem_cons.mpr ⟨ha, hP⟩,
        exec_cons_eq_some.mpr ⟨e, s₁, es, hone, hrun, rfl⟩, hend⟩

def run (f : σ → α → ε × σ) : σ → List α → List ε × σ
  | s, [] => ([], s)
  | s, a :: as =>
    let (e, s') := f s a
    let (es, s'') := run f s' as
    (e :: es, s'')

theorem run_rel {τ δ : Type} {f : σ → α → ε × σ} {g : τ → α → δ × τ} {L : ε → δ → Prop}
    {R : σ → τ → Prop} (hstep : ∀ s t a, R s t → L (f s a).1 (g t a).1 ∧ R (f s a).2 (g t a).2)
    (as : List α) : ∀ s t, R s t →
      List.Forall₂ L (run f s as).1 (run g t as).1 ∧ R (run f s as).2 (run g t as).2 := by
  induction as with
  | nil => exact fun s t h => ⟨.nil, h⟩
  | cons a as ih =>
    intro s t h
    obtain ⟨hlabel, hstate⟩ := hstep s t a h
    obtain ⟨hlabels, hfinal⟩ := ih _ _ hstate
    exact ⟨.cons hlabel hlabels, hfinal⟩

end Runs
