import Virthttp.HandlerRuns

namespace Virthttp

open Program Interaction

def dependencies (action : JVal) : List JVal :=
  match dependsOf action with
  | none => []
  | some (.array deps) => deps
  | some dep => [dep]

def NamesEarlier (k : ℕ) (dep : JVal) : Prop := ∃ n, dep.int32 = some n ∧ 0 ≤ n ∧ n < k

def DependsFit (actions : List JVal) : Prop :=
  (∃ action ∈ actions, Malformed action) ∨
    ∀ i action, actions[i]? = some action → ∀ dep ∈ dependencies action, NamesEarlier i dep

def subqueryNames (key : Str) : List String :=
  if key = lit "domains" then DomainHandlers.subqueryNames else NetworkHandlers.subqueryNames

/-- Neither a dependency nor a subquery of the request fails in silence. -/
structure NothingSilent (key : Str) (idx : Method) (d : JDispatch) (target : TargetParser)
    (body : JVal) : Prop where
  depends : DependsFit (d.dependent body)
  subquery : idx = .query → Answerable (subqueryNames key) target

def Exchange.refusesKeys : Exchange → Bool
  | ⟨.domain _ c, r⟩ => c.refusesKeys r
  | _ => false

/-- The answers of libvirt and the actions that are passed over without a word. -/
structure Silence where
  answer : Exchange → Bool
  action : JVal → Prop

def Silenced (silent : Silence) (s : Session) : Prop :=
  (∃ e ∈ s.calls, silent.answer e = true) ∨ ∃ x ∈ s.invoked, silent.action x.2

def handlerSilence (key : Str) (idx : Method) : Silence :=
  ⟨Exchange.refusesKeys, fun x => idx = .alter ∧ key = lit "domains" ∧ QuietAction x⟩

theorem Silenced.mono {silent : Silence} {s s' : Session} (h : Silenced silent s)
    (hcalls : s.calls <+: s'.calls) (hinvoked : s.invoked <+: s'.invoked) :
    Silenced silent s' := by
  rcases h with ⟨e, he, hr⟩ | ⟨x, hx, hr⟩
  · exact Or.inl ⟨e, hcalls.subset he, hr⟩
  · exact Or.inr ⟨x, hinvoked.subset hx, hr⟩

theorem refusesKeys_exchanges {obj : Option Ptr} {h : Log HandlerOp.Ret} :
    (∃ e ∈ exchanges obj h, e.refusesKeys = true) ↔ RefusesKeys h := by
  have hone (x : Performed) : (∃ e ∈ x.exchange? obj, e.refusesKeys = true) ↔
      x.refusesKeys = true := by
    obtain ⟨o, r⟩ := x
    cases o <;> simp [Performed.exchange?, Performed.refusesKeys, Exchange.refusesKeys]
  unfold exchanges RefusesKeys
  simp only [List.mem_filterMap, ← hone]
  constructor
  · rintro ⟨e, ⟨x, hx, he⟩, hk⟩
    exact ⟨x, hx, e, he, hk⟩
  · rintro ⟨x, hx, e, he, hk⟩
    exact ⟨e, ⟨x, hx, he⟩, hk⟩

theorem onObject_of_refusesKeys {e : Exchange} (h : e.refusesKeys = true) :
    e.onObject = true := by
  obtain ⟨c, r⟩ := e
  cases c <;> first | rfl | cases h

def callsSince (s s' : Session) : List Exchange := s'.calls.drop s.calls.length

theorem Tracks.refusesKeys {s s' : Session} {h : Log HandlerOp.Ret} (ht : Tracks s h s') :
    (∃ e ∈ callsSince s s', e.refusesKeys = true) ↔ RefusesKeys h := by
  obtain ⟨l, hl, hfilter, _⟩ := ht.calls
  rw [← @refusesKeys_exchanges s.obj, ← hfilter, callsSince, hl, List.drop_left]
  simp only [List.mem_filter]
  constructor
  · exact fun ⟨e, he, hk⟩ => ⟨e, ⟨he, onObject_of_refusesKeys hk⟩, hk⟩
  · exact fun ⟨e, he, hk⟩ => ⟨e, he.1, hk⟩

theorem Tracks.told_iff {s s' : Session} {h : Log HandlerOp.Ret} {o : DependsOutcome}
    (ht : Tracks s h s') (hs : s.res.success = true) :
    (s'.res.success = true → o = .success) ↔ Told h o := by
  rw [ht.success, hs, Bool.true_and, List.isEmpty_iff, Told, Loud, or_comm, ← imp_iff_not_or]

structure CallTells (key : Str) (idx : Method) (target : TargetParser) (x : JVal)
    (s s' : Session) : Prop where
  action : idx = .alter → key = lit "domains" →
    ¬QuietAction x ∧ ¬(SendsKeys x ∧ ∃ e ∈ callsSince s s', e.refusesKeys = true)
  subquery : idx = .query → Answerable (subqueryNames key) target

/-- A call that starts without an error tells that it has not succeeded exactly if nothing in it
fails in silence. -/
theorem methods_tell_iff {key : Str} {sub : Subsystem} (hsub : namedCall subsystems key = some sub)
    (lv : Libvirt) (conn : Ptr) (target : TargetParser) (idx : Method) (x : JVal) {s : Session}
    (hs : s.res.success = true) :
    Holds ((sub.handlers lv conn target).methods lv idx x) s
      (fun o s' => (s'.res.success = true → o = .success) ↔ CallTells key idx target x s s')
      (fun _ _ => True) := by
  have hcreate {p : M DependsOutcome} (hp : Creates p) : Holds p s (fun o s' =>
      (s'.res.success = true → o = .success) ↔ CallTells key .create target x s s')
      (fun _ _ => True) := by
    refine (hp s).mono ?_ (fun _ _ _ => trivial)
    rintro o s' ⟨_, ho⟩
    exact iff_of_true (fun hs => ho.resolve_right (by simp [hs])) ⟨nofun, nofun⟩
  have hact {p : Act DependsOutcome} {T : Log HandlerOp.Ret → Prop}
      {E : Log HandlerOp.Ret → Unit → Prop} (hp : Spec p [] (fun h o => Told h o ↔ T h) E)
      (hT : ∀ h s', Tracks s h s' → (T h ↔ CallTells key idx target x s s')) :
      Holds (p.run lv) s (fun o s' => (s'.res.success = true → o = .success) ↔
        CallTells key idx target x s s') (fun _ _ => True) := by
    refine (Act.run_holds hp lv s).mono ?_ (fun _ _ _ => trivial)
    rintro o s' ⟨h, ht, ho⟩
    exact (ht.told_iff hs).trans (ho.trans (hT h s' ht))
  have htold {p : Act DependsOutcome} {E : Log HandlerOp.Ret → Unit → Prop}
      (hp : Spec p [] Told E) (hT : ∀ s', CallTells key idx target x s s') :
      Holds (p.run lv) s (fun o s' => (s'.res.success = true → o = .success) ↔
        CallTells key idx target x s s') (fun _ _ => True) :=
    hact (T := fun _ => True) (hp.mono (fun _ _ ht => iff_of_true ht trivial) (fun _ _ hE => hE))
      fun _ s' _ => iff_of_true trivial (hT s')
  cases idx with
  | create =>
    rcases subsystems_cases hsub with ⟨rfl, rfl⟩ | ⟨rfl, rfl⟩
    · exact hcreate (DomainHandlers.create_creates lv conn x)
    · exact hcreate (NetworkHandlers.create_creates lv conn x)
  | query =>
    have hT (s' : Session) : Answerable (subqueryNames key) target ↔
        CallTells key .query target x s s' :=
      ⟨fun h => ⟨nofun, fun _ => h⟩, fun h => h.subquery rfl⟩
    rcases subsystems_cases hsub with ⟨rfl, rfl⟩ | ⟨rfl, rfl⟩
    · exact hact ((DomainHandlers.query_spec target x).mono (fun _ _ h => h.2) (fun _ _ hE => hE))
        fun _ s' _ => hT s'
    · exact hact ((NetworkHandlers.query_spec target x).mono (fun _ _ h => h.2) (fun _ _ hE => hE))
        fun _ s' _ => hT s'
  | alter =>
    rcases subsystems_cases hsub with ⟨rfl, rfl⟩ | ⟨rfl, rfl⟩
    · refine hact (DomainHandlers.alter_spec x) fun h s' ht => ?_
      rw [← ht.refusesKeys]
      exact ⟨fun h => ⟨fun _ _ => h, nofun⟩, fun h => h.action rfl rfl⟩
    · refine htold (NetworkHandlers.alter_spec x) fun s' => ⟨fun _ hkey => ?_, nofun⟩
      exact absurd hkey (by decide)
  | vacuum =>
    have hT (s' : Session) : CallTells key .vacuum target x s s' :=
      ⟨nofun, nofun⟩
    rcases subsystems_cases hsub with ⟨rfl, rfl⟩ | ⟨rfl, rfl⟩
    · exact htold (DomainHandlers.vacuum_spec target x) hT
    · exact htold (NetworkHandlers.vacuum_spec x) hT

def Reports (silent : Silence) (o : DependsOutcome) (s : Session) : Prop :=
  Silenced silent s ∨ (s.res.success = true → o = .success)

theorem methods_report {key : Str} {sub : Subsystem} (hsub : namedCall subsystems key = some sub)
    (lv : Libvirt) (conn : Ptr) (target : TargetParser) (idx : Method) {x : JVal}
    (hquery : idx = .query → Answerable (subqueryNames key) target) {s : Session}
    {obj : Option Ptr} (hx : (obj, x) ∈ s.invoked) :
    Holds ((sub.handlers lv conn target).methods lv idx x) s (fun o s' =>
      Handled s s' ∧ (idx ≠ .create → s'.obj = s.obj) ∧ Reports (handlerSilence key idx) o s')
      (fun _ _ => True) := by
  have hhandled := methods_handled hsub lv conn target idx x s
  have hobj : Holds ((sub.handlers lv conn target).methods lv idx x) s
      (fun _ s' => idx ≠ .create → s'.obj = s.obj) (fun _ _ => True) := by
    by_cases hidx : idx = .create
    · exact (holds_trivial _ s).mono (fun _ _ _ hne => absurd hidx hne) (fun _ _ h => h)
    · exact (methods_track sub lv conn target hidx x s).mono (fun _ _ ⟨_, ht⟩ _ => ht.same.obj)
        (fun _ _ _ => trivial)
  have hreport : Holds ((sub.handlers lv conn target).methods lv idx x) s
      (fun o s' => Handled s s' → Reports (handlerSilence key idx) o s') (fun _ _ => True) := by
    by_cases hs : s.res.success = true
    · refine (methods_tell_iff hsub lv conn target idx x hs).mono ?_ (fun _ _ h => h)
      intro o s' hiff hh
      by_cases hkeys : ∃ e ∈ callsSince s s', e.refusesKeys = true
      · obtain ⟨e, he, hk⟩ := hkeys
        exact Or.inl (Or.inl ⟨e, List.mem_of_mem_drop he, hk⟩)
      · by_cases hquiet : idx = .alter ∧ key = lit "domains" ∧ QuietAction x
        · exact Or.inl (Or.inr ⟨(obj, x), hh.invoked ▸ hx, hquiet⟩)
        · refine Or.inr (hiff.mpr ⟨fun h h' => ⟨fun hq => hquiet ⟨h, h', hq⟩,
            fun hsend => hkeys hsend.2⟩, hquery⟩)
    · exact (holds_trivial _ s).mono
        (fun _ _ _ hh => Or.inr fun hs' => absurd (hh.success hs') hs) (fun _ _ h => h)
  refine ((hhandled.and hobj).and hreport).mono ?_ (fun _ _ _ => trivial)
  exact fun o s' ⟨⟨hh, hobj⟩, hrep⟩ => ⟨hh, hobj, hrep hh⟩

section Dispatching

variable {silent : Silence}

structure Kept (fixed : Prop) (s s' : Session) : Prop where
  obj : fixed → s'.obj = s.obj
  resolved : s'.resolved = s.resolved
  calls : s.calls <+: s'.calls
  invoked : s.invoked <+: s'.invoked
  success : s'.res.success = true → s.res.success = true

theorem Kept.refl (fixed : Prop) (s : Session) : Kept fixed s s :=
  ⟨fun _ => rfl, rfl, List.prefix_rfl, List.prefix_rfl, id⟩

theorem Kept.trans {fixed : Prop} {s₁ s₂ s₃ : Session} (h : Kept fixed s₁ s₂)
    (h' : Kept fixed s₂ s₃) : Kept fixed s₁ s₃ :=
  ⟨fun hf => (h'.obj hf).trans (h.obj hf), h'.resolved.trans h.resolved,
    h.calls.trans h'.calls, h.invoked.trans h'.invoked, fun hs => h.success (h'.success hs)⟩

theorem Errored.kept {fixed : Prop} {code : ℤ} {s s' : Session} (h : Errored code s s') :
    Kept fixed s s' :=
  ⟨fun _ => h.same.obj, h.handled.resolved, h.handled.calls, h.handled.invoked ▸ List.prefix_rfl,
    h.handled.success⟩

structure Reported (silent : Silence) (fixed : Prop) (xs : List JVal) (s s' : Session) : Prop
    extends Kept fixed s s' where
  done : Silenced silent s' ∨ (s'.res.success = true → ∃ l, s'.invoked = s.invoked ++ l ∧
    l.map Prod.snd = xs ∧ (fixed → ∀ x ∈ l, x.1 = s.obj) ∧
    s'.outcomes = s.outcomes ++ xs.map (fun _ => .success))

theorem Reported.refl (silent : Silence) (fixed : Prop) (s : Session) :
    Reported silent fixed [] s s :=
  ⟨Kept.refl fixed s, Or.inr fun _ => ⟨[], by simp⟩⟩

theorem Reported.trans {fixed : Prop} {xs ys : List JVal} {s₁ s₂ s₃ : Session}
    (h : Reported silent fixed xs s₁ s₂) (h' : Reported silent fixed ys s₂ s₃) :
    Reported silent fixed (xs ++ ys) s₁ s₃ := by
  refine ⟨h.toKept.trans h'.toKept, ?_⟩
  rcases h'.done with hr | hdone'
  · exact Or.inl hr
  · rcases h.done with hr | hdone
    · exact Or.inl (hr.mono h'.calls h'.invoked)
    · refine Or.inr fun hs => ?_
      obtain ⟨l', hl', hys, hobj', hout'⟩ := hdone' hs
      obtain ⟨l, hl, hxs, hobj, hout⟩ := hdone (h'.success hs)
      refine ⟨l ++ l', ?_, by simp [hxs, hys], fun hf x hx => ?_, ?_⟩
      · rw [hl', hl, List.append_assoc]
      · rcases List.mem_append.mp hx with hx | hx
        · exact hobj hf x hx
        · exact (hobj' hf x hx).trans (h.obj hf)
      · rw [hout', hout, List.map_append, List.append_assoc]

theorem Errored.reported {code : ℤ} {s s' : Session} (h : Errored code s s')
    (silent : Silence) (fixed : Prop) (xs : List JVal) :
    Reported silent fixed xs s s' := by
  refine ⟨h.kept, Or.inr fun hs => ?_⟩
  simp [h.success] at hs

/-- A call whose outcome is reported. -/
theorem invoke_reported {fixed : Prop} {hdl : JVal → M DependsOutcome} {x : JVal} {s : Session}
    (h : Holds (hdl x) { s with invoked := s.invoked ++ [(s.obj, x)] } (fun o s' =>
      Handled { s with invoked := s.invoked ++ [(s.obj, x)] } s' ∧ (fixed → s'.obj = s.obj) ∧
      Reports silent o s') (fun _ _ => True)) :
    Holds (invoke hdl x) s (fun o s' => Reported silent fixed [x] s s' ∧ Reports silent o s')
      (fun _ _ => True) := by
  refine invoke_holds (h.mono ?_ (fun _ _ _ => trivial))
  rintro o s' ⟨hh, hobj, hrep⟩
  have hinvoked : s.invoked <+: s'.invoked := ⟨[(s.obj, x)], hh.invoked.symm⟩
  refine ⟨⟨⟨hobj, hh.resolved, hh.calls, hinvoked, hh.success⟩, ?_⟩, hrep⟩
  refine hrep.imp (fun hr => hr) fun hsuccess hs => ?_
  refine ⟨[(s.obj, x)], hh.invoked, rfl, by simp, ?_⟩
  simp only [hh.outcomes, List.map_cons, List.map_nil, hsuccess hs]

theorem runnable_of_namesEarlier {outcomes : List DependsOutcome} {action : JVal}
    (hall : ∀ o ∈ outcomes, o = .success)
    (hfit : ∀ dep ∈ dependencies action, NamesEarlier outcomes.length dep) :
    Runnable outcomes action := by
  have hmet {dep : JVal} (h : NamesEarlier outcomes.length dep) : Met outcomes dep := by
    obtain ⟨n, hn, h0, hlt⟩ := h
    have hidx : n.toNat < outcomes.length := by omega
    refine ⟨n, hn, h0, hlt, ?_⟩
    rw [List.getElem?_eq_getElem hidx, hall _ (List.getElem_mem hidx)]
  unfold dependencies at hfit
  unfold Runnable
  cases hdep : dependsOf action with
  | none => exact Or.inl rfl
  | some dep =>
    rw [hdep] at hfit
    refine Or.inr ⟨dep, rfl, ?_⟩
    cases dep with
    | array deps => exact Or.inr ⟨deps, rfl, fun d hd => hmet (hfit d hd)⟩
    | _ => exact Or.inl (hmet (hfit _ (by simp)))

theorem namesEarlier_of_runnable {outcomes : List DependsOutcome} {action : JVal}
    (h : Runnable outcomes action) :
    ∀ dep ∈ dependencies action, NamesEarlier outcomes.length dep := by
  have hnames {dep : JVal} (h : Met outcomes dep) : NamesEarlier outcomes.length dep := by
    obtain ⟨n, hn, h0, hlt, _⟩ := h
    exact ⟨n, hn, h0, hlt⟩
  have harray {deps : List JVal} : ¬Met outcomes (.array deps) := by
    rintro ⟨n, hn, _⟩
    cases hn
  unfold dependencies
  rcases h with hnone | ⟨dep, hdep, hmet | ⟨deps, rfl, hmet⟩⟩
  · simp [hnone]
  · rw [hdep]
    cases dep with
    | array deps => exact absurd hmet harray
    | _ => simpa using hnames hmet
  · rw [hdep]
    exact fun d hd => hnames (hmet d hd)

theorem Malformed.not_runnable {outcomes : List DependsOutcome} {action : JVal}
    (h : Malformed action) : ¬Runnable outcomes action := by
  obtain ⟨dep, hdep, hint, harray⟩ := h
  rintro (hnone | ⟨dep', hdep', ⟨n, hn, _⟩ | ⟨deps, rfl, _⟩⟩)
  · simp [hnone] at hdep
  · obtain rfl := Option.some.inj (hdep.symm.trans hdep')
    simp [hint] at hn
  · exact harray deps (Option.some.inj (hdep.symm.trans hdep'))

/-- One `depends` of a type that is refused puts an error on record. -/
theorem dependsLoop_malformed {lv : Libvirt} {hdl : JVal → M DependsOutcome} (fixed : Prop)
    {actions : List JVal} (hmal : ∃ action ∈ actions, Malformed action)
    (hhdl : ∀ x ∈ actions, ∀ s, Holds (hdl x) s (fun _ => Kept fixed s) (fun _ _ => True))
    (s : Session) :
    Holds (dependsLoop lv hdl actions []) s
      (fun _ s' => Kept fixed s s' ∧ s'.res.success = false) (fun _ _ => True) := by
  let I : List JVal → List DependsOutcome → Session → Prop := fun done _ s' =>
    Kept fixed s s' ∧ ((∃ action ∈ done, Malformed action) → s'.res.success = false)
  refine (dependsLoop_holds (I := I) ?_ ?_ ?_ actions [] [] s rfl
    ⟨Kept.refl fixed s, by simp⟩).mono (fun _ _ hI => ⟨hI.1, hI.2 hmal⟩) (fun _ _ h => h)
  · rintro done action outcomes s₁ hpre ⟨hkept, hfalse⟩ hrun
    refine (hhdl action (hpre.subset (by simp)) s₁).mono ?_ (fun _ _ h => h)
    rintro _ s₂ hone
    refine ⟨hkept.trans hone, ?_⟩
    rintro ⟨x, hx, hxm⟩
    rcases List.mem_append.mp hx with hx | hx
    · refine Bool.eq_false_iff.mpr fun hs => ?_
      have hs₁ := hone.success hs
      simp [hfalse ⟨x, hx, hxm⟩] at hs₁
    · rw [List.mem_singleton.mp hx] at hxm
      exact absurd hrun hxm.not_runnable
  · rintro done action outcomes s₁ s₂ _ ⟨hkept, _⟩ _ _ he
    exact ⟨hkept.trans he.kept, fun _ => he.success⟩
  · rintro done action outcomes s₁ _ ⟨hkept, hfalse⟩ _ hno
    refine ⟨hkept, ?_⟩
    rintro ⟨x, hx, hxm⟩
    rcases List.mem_append.mp hx with hx | hx
    · exact hfalse ⟨x, hx, hxm⟩
    · rw [List.mem_singleton.mp hx] at hxm
      exact absurd hxm hno

/-- The array of actions: an action is only left out where an earlier one has been reported. -/
theorem dependsLoop_fit {lv : Libvirt} {hdl : JVal → M DependsOutcome} {fixed : Prop}
    {actions : List JVal} (hfit : ∀ i action, actions[i]? = some action →
      ∀ dep ∈ dependencies action, NamesEarlier i dep)
    (hhdl : ∀ x ∈ actions, ∀ s, Holds (hdl x) s (fun o s' => Reported silent fixed [x] s s' ∧
      Reports silent o s') (fun _ _ => True)) (s : Session) :
    Holds (dependsLoop lv hdl actions []) s (fun _ s' => Reported silent fixed actions s s')
      (fun _ _ => True) := by
  let I : List JVal → List DependsOutcome → Session → Prop := fun done outcomes s' =>
    Reported silent fixed done s s' ∧ outcomes.length = done.length ∧
      (Silenced silent s' ∨ (s'.res.success = true → ∀ o ∈ outcomes, o = .success))
  have hleft {done : List JVal} {action : JVal} {outcomes : List DependsOutcome}
      {o : DependsOutcome} {s' : Session} (hI : I done outcomes s')
      (hfail : Silenced silent s' ∨ s'.res.success = false) :
      I (done ++ [action]) (outcomes ++ [o]) s' := by
    obtain ⟨hrep, hlen, _⟩ := hI
    refine ⟨⟨hrep.toKept, ?_⟩, by simp [hlen], ?_⟩
    · exact hfail.imp_right fun hf hs => by simp [hf] at hs
    · exact hfail.imp_right fun hf hs => by simp [hf] at hs
  refine (dependsLoop_holds (I := I) ?_ ?_ ?_ actions [] [] s rfl
    ⟨Reported.refl silent fixed s, rfl, Or.inr (by simp)⟩).mono (fun _ _ hI => hI.1) (fun _ _ h => h)
  · rintro done action outcomes s₁ hpre ⟨hrep, hlen, hall⟩ _
    refine (hhdl action (hpre.subset (by simp)) s₁).mono ?_ (fun _ _ h => h)
    rintro o s₂ ⟨hone, ho⟩
    refine ⟨hrep.trans hone, by simp [hlen], ?_⟩
    rcases hall with hr | hall
    · exact Or.inl (hr.mono hone.calls hone.invoked)
    · refine ho.imp_right fun ho hs o' ho' => ?_
      rcases List.mem_append.mp ho' with ho' | ho'
      · exact hall (hone.success hs) o' ho'
      · rw [List.mem_singleton.mp ho', ho hs]
  · rintro done action outcomes s₁ s₂ _ ⟨hrep, hlen, _⟩ _ _ he
    have hkept : Reported silent fixed done s s₂ := by
      have h := hrep.trans (he.reported silent fixed [])
      rwa [List.append_nil] at h
    have hI : I done outcomes s₂ :=
      ⟨hkept, hlen, Or.inr fun hs => by simp [he.success] at hs⟩
    exact hleft hI (Or.inr he.success)
  · -- with only successes before it, an action that names earlier ones would have run
    rintro done action outcomes s₁ hpre hI hno _
    refine hleft hI ?_
    have hidx : actions[done.length]? = some action := by
      obtain ⟨rest, rfl⟩ := hpre
      simp
    rcases hI.2.2 with hr | hall
    · exact Or.inl hr
    · refine Or.inr (Bool.eq_false_iff.mpr fun hs => hno ?_)
      refine runnable_of_namesEarlier (hall hs) ?_
      rw [hI.2.1]
      exact hfit done.length action hidx

/-- A handler that reports is dispatched with a report. -/
theorem JDispatch.exec_reported (silent : Silence) (fixed : Prop) {lv : Libvirt}
    {d : JDispatch} {jval : JVal} {hdl : JVal → M DependsOutcome}
    (hfit : DependsFit (d.dependent jval))
    (hhdl : ∀ x ∈ d.asked jval, ∀ s, Holds (hdl x) s (fun o s' => Reported silent fixed [x] s s' ∧
      Reports silent o s') (fun _ _ => True)) (s : Session) :
    Holds (d.exec lv jval hdl) s (fun _ s' => Reported silent fixed (d.asked jval) s s')
      (fun _ _ => True) := by
  have herror (code : ℤ) (xs : List JVal) :
      Holds (error lv code) s (fun _ s' => Reported silent fixed xs s s') (fun _ _ => True) :=
    (error_holds lv code s).mono (fun _ _ he => he.reported silent fixed xs) (fun _ _ _ => trivial)
  unfold exec asked dependent at *
  split
  · rename_i hsingle
    rw [if_pos hsingle] at hhdl
    rw [holds_bind]
    exact (hhdl jval List.mem_cons_self s).mono (fun _ _ h => h.1) (fun _ _ h => h)
  · rename_i hsingle
    rw [if_neg hsingle] at hhdl hfit
    split
    · rename_i hrange
      rw [if_pos hrange] at hhdl hfit
      unfold handleDepends
      split
      · rename_i actions
        rw [holds_bind]
        rcases hfit with hmal | hfit
        · refine (dependsLoop_malformed fixed hmal (fun x hx s => ?_) s).mono ?_
            (fun _ _ h => h)
          · exact (hhdl x hx s).mono (fun _ _ h => h.1.toKept) (fun _ _ h => h)
          · exact fun _ _ ⟨hkept, hfalse⟩ => ⟨hkept, Or.inr fun hs => by simp [hfalse] at hs⟩
        · exact dependsLoop_fit hfit hhdl s
      · exact herror 298 _
    · exact herror 3 _

end Dispatching

def DispatchTells (d : JDispatch) (body : JVal) : Prop :=
  ∀ (lv : Libvirt) (hdl : JVal → M DependsOutcome) (s : Session),
    (∀ x s, Holds (hdl x) s (fun o s' => Handled s s' ∧ (s'.res.success = true → o = .success))
      (fun _ _ => True)) →
    Holds (d.exec lv body (invoke hdl)) s (fun _ s' => s'.res.success = true →
      ∃ l, s'.invoked = s.invoked ++ l ∧ l.map Prod.snd = d.asked body ∧
        s'.outcomes = s.outcomes ++ (d.asked body).map (fun _ => .success)) (fun _ _ => True)

theorem dispatchTells_of_fit {d : JDispatch} {body : JVal} (hfit : DependsFit (d.dependent body)) :
    DispatchTells d body := by
  intro lv hdl s hhdl
  refine (JDispatch.exec_reported ⟨fun _ => false, fun _ => False⟩ False hfit
    (fun x _ s => invoke_reported ?_) s).mono ?_ (fun _ _ h => h)
  · refine (hhdl x _).mono ?_ (fun _ _ h => h)
    exact fun o s' ⟨hh, ho⟩ => ⟨hh, fun hf => hf.elim, Or.inr ho⟩
  · intro _ s' hrep hs
    rcases hrep.done with (⟨e, _, he⟩ | ⟨x, _, hx⟩) | hdone
    · cases he
    · exact hx.elim
    · obtain ⟨l, hl, hsnd, _, hout⟩ := hdone hs
      exact ⟨l, hl, hsnd, hout⟩

theorem dependent_eq_nil_or (d : JDispatch) (body : JVal) : d.dependent body = [] ∨
    ∃ actions, d.dependent body = actions ∧ d.asked body = actions ∧
      ∀ lv hdl, d.exec lv body hdl = handleDepends lv (.array actions) hdl := by
  unfold JDispatch.dependent JDispatch.asked JDispatch.exec
  split_ifs with hsingle hrange
  · exact Or.inl rfl
  · split
    · exact Or.inr ⟨_, rfl, rfl, fun _ _ => rfl⟩
    · exact Or.inl rfl
  · exact Or.inl rfl

/-- Calls that all succeed do not make up for an action that is left out. -/
theorem dependsLoop_leaves_out {lv : Libvirt} {actions : List JVal}
    (hmal : ∀ action ∈ actions, ¬Malformed action) {i : ℕ} {action : JVal}
    (hidx : actions[i]? = some action) {dep : JVal} (hdep : dep ∈ dependencies action)
    (hnames : ¬NamesEarlier i dep) :
    Holds (dependsLoop lv (invoke fun _ => pure .success) actions []) Session.init
      (fun _ s' => s'.res.success = true ∧ s'.invoked.length < actions.length)
      (fun _ _ => False) := by
  let I : List JVal → List DependsOutcome → Session → Prop := fun done outcomes s' =>
    s'.res.success = true ∧ outcomes.length = done.length ∧ s'.invoked.length ≤ done.length ∧
      (i < done.length → s'.invoked.length < done.length)
  have hi : i < actions.length := (List.getElem?_eq_some_iff.mp hidx).1
  refine (dependsLoop_holds (I := I) ?_ ?_ ?_ actions [] [] Session.init (List.nil_append _)
    ⟨rfl, rfl, Nat.le_refl _, fun h => absurd h (Nat.not_lt_zero i)⟩).mono
    (fun _ _ hI => ⟨hI.1, hI.2.2.2 hi⟩) (fun _ _ h => h)
  · rintro done x outcomes s ⟨rest, hpre⟩ ⟨hs, hlen, hle, hlt⟩ hrun
    have hne : done.length ≠ i := by
      rintro rfl
      rw [← hpre] at hidx
      obtain rfl : x = action := by simpa using hidx
      exact hnames (hlen ▸ namesEarlier_of_runnable hrun dep hdep)
    refine invoke_holds ⟨hs, by simp [hlen], by simpa using hle, fun h => ?_⟩
    simp only [List.length_append, List.length_singleton] at h ⊢
    have := hlt (by omega)
    omega
  · intro done x outcomes s s' hpre _ _ hx
    exact absurd hx (hmal x (hpre.subset (by simp)))
  · -- what is skipped is not invoked, and from then on there are fewer invocations than actions
    rintro done x outcomes s _ ⟨hs, hlen, hle, _⟩ _ _
    refine ⟨hs, by simp [hlen], ?_, fun _ => ?_⟩
    · rw [List.length_append]
      omega
    · rw [List.length_append, List.length_singleton]
      omega

theorem fit_of_dispatchTells {d : JDispatch} {body : JVal} (h : DispatchTells d body) :
    DependsFit (d.dependent body) := by
  by_contra hno
  obtain ⟨hmal, hunfit⟩ := not_or.mp hno
  simp only [not_forall, not_exists, not_and] at hmal hunfit
  obtain ⟨i, action, hidx, dep, hdep, hnames⟩ := hunfit
  rcases dependent_eq_nil_or d body with hnil | ⟨actions, hdependent, hasked, hexec⟩
  · simp [hnil] at hidx
  · rw [hdependent] at hmal hidx
    have htell := h (fun _ _ => default) (fun _ => pure .success) Session.init
      (fun x s => ⟨Handled.refl s, fun _ => rfl⟩)
    rw [hexec, handleDepends, holds_bind] at htell
    have hleft := @dependsLoop_leaves_out (fun _ _ => default) actions hmal i action hidx dep
      hdep hnames
    refine (holds_final (I := fun _ => False)).mp ((hleft.and htell).mono ?_ ?_)
    · rintro _ s' ⟨⟨hs, hlt⟩, hdone⟩
      obtain ⟨l, hl, hsnd, _⟩ := hdone hs
      have hlen := congrArg List.length hsnd
      rw [hl, Session.init, List.nil_append] at hlt
      rw [List.length_map, hasked] at hlen
      omega
    · exact fun _ _ hf => hf.1

theorem dispatchTells_iff (d : JDispatch) (body : JVal) :
    DispatchTells d body ↔ DependsFit (d.dependent body) :=
  ⟨fit_of_dispatchTells, dispatchTells_of_fit⟩

/-- All that a request asks for has been done: each action for each object. -/
structure AllDone (idx : Method) (asked : List JVal) (s : Session) : Prop where
  created : idx = .create → s.invoked.map Prod.snd = asked
  invoked : idx ≠ .create →
    s.invoked = s.resolved.flatMap (fun v => asked.map (fun x => (some v, x)))
  outcomes : s.outcomes = s.invoked.map (fun _ => .success)

/-- The body is dispatched for each of the objects. -/
theorem forEach_done {key : Str} {sub : Subsystem} (hsub : namedCall subsystems key = some sub)
    {lv : Libvirt} {conn : Ptr} {target : TargetParser} {idx : Method} {body : JVal}
    (hidx : idx ≠ .create)
    (hns : NothingSilent key idx (sub.jdispatchers idx) target body) (objs : List Ptr)
    {s : Session} (hinvoked : s.invoked = []) (houtcomes : s.outcomes = []) :
    Holds (forEach (execOn lv sub conn target idx body) objs) s (fun _ s' =>
        Silenced (handlerSilence key idx) s' ∨ (s'.res.success = true →
          s'.invoked = objs.flatMap (fun v => ((sub.jdispatchers idx).asked body).map
            (fun x => (some v, x))) ∧ s'.outcomes = s'.invoked.map (fun _ => .success)))
      (fun _ _ => True) := by
  let asked := (sub.jdispatchers idx).asked body
  let I : List Ptr → Session → Prop := fun done s' =>
    Silenced (handlerSilence key idx) s' ∨ (s'.res.success = true →
      s'.invoked = done.flatMap (fun v => asked.map (fun x => (some v, x))) ∧
        s'.outcomes = s'.invoked.map (fun _ => .success))
  refine holds_forEach (I := I) ?_ objs [] (Or.inr fun _ => ⟨hinvoked, by simp [hinvoked, houtcomes]⟩)
  intro done v s hI
  unfold execOn execBody
  rw [holds_bind, holds_modify]
  refine (JDispatch.exec_reported (handlerSilence key idx) True hns.depends
    (fun x _ s => invoke_reported ?_) _).mono ?_ (fun _ _ h => h)
  · refine (methods_report hsub lv conn target idx hns.subquery
      (List.mem_append_right _ List.mem_cons_self)).mono ?_ (fun _ _ h => h)
    exact fun o s' ⟨hh, hobj, ho⟩ => ⟨hh, fun _ => hobj hidx, ho⟩
  · intro _ s' hrep
    rcases hI with hI | hI
    · exact Or.inl (hI.mono hrep.calls hrep.invoked)
    · refine hrep.done.imp_right fun hdone hs => ?_
      obtain ⟨l, hl, hsnd, hfst, hout⟩ := hdone hs
      obtain ⟨hinv, houts⟩ := hI (hrep.success hs)
      have hl' : l = (l.map Prod.snd).map (fun x => (some v, x)) := by
        rw [List.map_map]
        refine (List.map_id l).symm.trans (List.map_congr_left fun x hx => ?_)
        exact Prod.ext (hfst trivial x hx) rfl
      rw [hsnd] at hl'
      have hinvoked' : s'.invoked =
          (done ++ [v]).flatMap (fun v => asked.map (fun x => (some v, x))) := by
        rw [hl, hl', List.flatMap_append, List.flatMap_singleton]
        exact congrArg (· ++ _) hinv
      refine ⟨hinvoked', ?_⟩
      rw [hout, hl, List.map_append, hl', List.map_map]
      exact congrArg (· ++ _) houts

/-- What the dispatching leaves as it was resolved. -/
theorem forEach_resolved {key : Str} {sub : Subsystem}
    (hsub : namedCall subsystems key = some sub) {lv : Libvirt} {conn : Ptr}
    {target : TargetParser} {idx : Method} {body : JVal} (objs : List Ptr) {s : Session}
    (hs : s.resolved = objs) :
    Holds (forEach (execOn lv sub conn target idx body) objs) s (fun _ s' => s'.resolved = objs)
      (fun _ _ => True) := by
  refine holds_forEach (I := fun _ (s' : Session) => s'.resolved = objs) (fun _ v s hs => ?_) objs [] hs
  unfold execOn execBody
  rw [holds_bind, holds_modify]
  refine JDispatch.exec_holds (I := fun (s' : Session) => s'.resolved = objs)
    (fun _ _ _ hs he => he.same.resolved.trans hs) (fun x _ s hs => ?_) _ hs
  exact invoke_holds ((methods_handled hsub lv conn target idx x _).mono
    (fun _ _ hh => hh.resolved.trans hs) (fun _ _ _ => trivial))

/-- A creation is asked for once for each value. -/
theorem create_done {key : Str} {sub : Subsystem} (hsub : namedCall subsystems key = some sub)
    {lv : Libvirt} {conn : Ptr} {target : TargetParser} {body : JVal}
    (hns : NothingSilent key .create (sub.jdispatchers .create) target body)
    {s : Session} (hinvoked : s.invoked = []) (houtcomes : s.outcomes = []) :
    Holds (execBody lv sub conn target .create body) s (fun _ s' =>
        Silenced (handlerSilence key .create) s' ∨ (s'.res.success = true →
          s'.invoked.map Prod.snd = (sub.jdispatchers .create).asked body ∧
            s'.outcomes = s'.invoked.map (fun _ => .success))) (fun _ _ => True) := by
  refine (JDispatch.exec_reported (handlerSilence key .create) False hns.depends
    (fun x _ s => invoke_reported ?_) s).mono ?_ (fun _ _ h => h)
  · refine (methods_report hsub lv conn target .create nofun
      (List.mem_append_right _ List.mem_cons_self)).mono ?_ (fun _ _ h => h)
    exact fun o s' ⟨hh, _, ho⟩ => ⟨hh, fun hf => hf.elim, ho⟩
  · intro _ s' hrep
    refine hrep.done.imp_right fun hdone hs => ?_
    obtain ⟨l, hl, hsnd, _, hout⟩ := hdone hs
    rw [hinvoked, List.nil_append] at hl
    rw [houtcomes, List.nil_append] at hout
    refine ⟨hl ▸ hsnd, ?_⟩
    rw [hout, hl, ← hsnd, List.map_map]
    rfl

/-- The condition under which a run is asked to report everything: nothing in the request fails in
silence where there is an object to work on, no action that runs does, and libvirt refuses no
keys. -/
structure LoudRun (key : Str) (idx : Method) (d : JDispatch) (target : TargetParser) (body : JVal)
    (s : Session) : Prop where
  request : idx = .create ∨ s.resolved ≠ [] → NothingSilent key idx d target body
  actions : idx = .alter → key = lit "domains" → ∀ x ∈ s.invoked, ¬QuietAction x.2
  keys : ∀ e ∈ s.calls, e.refusesKeys = false

theorem LoudRun.not_silenced {key : Str} {idx : Method} {d : JDispatch} {target : TargetParser}
    {body : JVal} {s : Session} (h : LoudRun key idx d target body s) :
    ¬Silenced (handlerSilence key idx) s := by
  rintro (⟨e, he, hrefuses⟩ | ⟨x, hx, halter, hkey, hquiet⟩)
  · have hrefused : e.refusesKeys = true := hrefuses
    rw [h.keys e he] at hrefused
    cases hrefused
  · exact h.actions halter hkey x hx hquiet

theorem handleJsonBody_done {lib : Rapidjson} {lv : Libvirt} {config : IniConfig} {req : Request}
    {target : TargetParser} {key : Str} {sub : Subsystem} {idx : Method}
    (hkey : target.pathParts[1]? = some key) (hsub : namedCall subsystems key = some sub)
    (hidx : verbToIdx req.method = some idx) :
    Holds (handleJsonBody lib lv config req target) Session.init (fun _ s' =>
        LoudRun key idx (sub.jdispatchers idx) target (lib.parse (cstr req.body)) s' →
        s'.res.success = true →
        AllDone idx ((sub.jdispatchers idx).asked (lib.parse (cstr req.body))) s')
      (fun _ _ => True) := by
  refine handleJsonBody_holds ?_ ?_
  · intro calls code s' _ he _ hs
    simp [he.success] at hs
  · intro front key' rest conn sub' hparts hsub'
    obtain rfl : key = key' := by simpa [hparts] using hkey.symm
    obtain rfl : sub = sub' := Option.some.inj (hsub.symm.trans hsub')
    let body := lib.parse (cstr req.body)
    unfold object resolveFor
    rw [holds_bind]
    by_cases hpost : req.method = .post
    · obtain rfl : Method.create = idx := by simpa [hpost, verbToIdx] using hidx
      rw [if_pos hpost, holds_pure, holds_bind, holds_modify, hidx]
      simp only [if_pos hpost]
      by_cases hns : NothingSilent key .create (sub.jdispatchers .create) target body
      · refine (create_done hsub hns rfl rfl).mono ?_ (fun _ _ h => h)
        intro _ s' hdone hloud hs
        obtain ⟨hinv, hout⟩ := hdone.resolve_left hloud.not_silenced hs
        exact ⟨fun _ => hinv, fun hne => absurd rfl hne, hout⟩
      · exact (holds_trivial _ _).mono (fun _ _ _ hloud => absurd (hloud.request (Or.inl rfl)) hns)
          (fun _ _ h => h)
    · have hcreate : idx ≠ .create := by
        rintro rfl
        cases hm : req.method <;> simp_all [verbToIdx]
      obtain ⟨byName, byUUID, hr⟩ := resolver_resolves hsub
      rw [if_neg hpost]
      refine (resolve_holds hr lv conn target _).mono ?_ (fun _ _ _ => trivial)
      intro objs s hres
      rw [holds_bind, holds_modify, hidx]
      simp only [if_neg hpost]
      have hinvoked : s.invoked = [] := hres.same.invoked
      have houtcomes : s.outcomes = [] := hres.same.outcomes
      have hkept := @forEach_resolved key sub hsub lv conn target idx body objs
        { s with resolved := objs } rfl
      by_cases hns : NothingSilent key idx (sub.jdispatchers idx) target body
      · refine (hkept.and (forEach_done hsub hcreate hns objs hinvoked houtcomes)).mono ?_
          (fun _ _ _ => trivial)
        rintro _ s' ⟨hresolved, hdone⟩ hloud hs
        obtain ⟨hinv, hout⟩ := hdone.resolve_left hloud.not_silenced hs
        exact ⟨fun h => absurd h hcreate, fun _ => hresolved ▸ hinv, hout⟩
      · cases objs with
        | nil =>
          exact fun _ _ => ⟨fun h => absurd h hcreate, fun _ => hinvoked,
            houtcomes.trans (congrArg (List.map _) hinvoked).symm⟩
        | cons v objs =>
          refine hkept.mono (fun _ s' hresolved hloud => ?_) (fun _ _ h => h)
          exact absurd (hloud.request (Or.inr (by simp [hresolved]))) hns

/-- Success is reported for what has been done. The actions that the dispatching leaves out show
in the response exactly if they depend on earlier ones only, and the failure of a call shows
exactly if nothing in it fails in silence; a run in which both are so does all that it reports. -/
theorem success_reported {key : Str} {sub : Subsystem} {idx : Method}
    (hsub : namedCall subsystems key = some sub) :
    (∀ body, DispatchTells (sub.jdispatchers idx) body ↔
      DependsFit ((sub.jdispatchers idx).dependent body)) ∧
    (∀ lv conn target x s, s.res.success = true →
      Holds ((sub.handlers lv conn target).methods lv idx x) s
        (fun o s' => (s'.res.success = true → o = .success) ↔ CallTells key idx target x s s')
        (fun _ _ => True)) ∧
    ∀ (lib : Rapidjson) (lv : Libvirt) (config : IniConfig) (req : Request)
      (target : TargetParser), target.pathParts[1]? = some key →
      verbToIdx req.method = some idx →
      LoudRun key idx (sub.jdispatchers idx) target (lib.parse (cstr req.body))
        (handleJson lib lv config req target).2 →
      (handleJson lib lv config req target).1 = .ok () →
      (handleJson lib lv config req target).2.res.success = true →
      AllDone idx ((sub.jdispatchers idx).asked (lib.parse (cstr req.body)))
        (handleJson lib lv config req target).2 := by
  refine ⟨fun body => dispatchTells_iff _ body,
    fun lv conn target x s hs => methods_tell_iff hsub lv conn target idx x hs, ?_⟩
  intro lib lv config req target hkey hidx hloud hok hs
  have hdone := @handleJsonBody_done lib lv config req target key sub idx hkey hsub hidx
  have hrun := (holds_iff_run.mp hdone).1 () (handleJson lib lv config req target).2
  exact hrun (Prod.ext hok rfl) hloud hs

/-- Two actions on a domain, the second of which depends on the first, that both succeed. -/
theorem success_reported_patch :
    let memory : JVal := .object [(lit "memory", .int ⟨5, by decide⟩)]
    let autostart : JVal := .object [(lit "autostart", .bool true),
      (lit "depends", .int ⟨0, by decide⟩)]
    AllDone .alter [memory, autostart] (handleJson ⟨fun _ => .array [memory, autostart],
      fun _ => []⟩ obliging ⟨false, [], lit "test:///default"⟩
      ⟨.patch, lit "/libvirt/domains/by-name/vm", 11, [],
        lit "[\x7b\"memory\":5\x7d,\x7b\"autostart\":true,\"depends\":0\x7d]"⟩
      (.ofUrl (lit "/libvirt/domains/by-name/vm"))).2 := by
  intro memory autostart
  refine (@success_reported (lit "domains") domains .alter rfl).2.2
    ⟨fun _ => .array [memory, autostart], fun _ => []⟩ obliging
    ⟨false, [], lit "test:///default"⟩ ⟨.patch, lit "/libvirt/domains/by-name/vm", 11, [],
      lit "[\x7b\"memory\":5\x7d,\x7b\"autostart\":true,\"depends\":0\x7d]"⟩ _ rfl rfl
    ⟨fun _ => ⟨Or.inr ?_, nofun⟩, fun _ _ => ?_, ?_⟩ rfl rfl
  · intro i action hi dep hdep
    rcases i with _ | _ | i
    · obtain rfl : memory = action := Option.some.inj hi
      cases hdep
    · obtain rfl : autostart = action := Option.some.inj hi
      obtain rfl := List.mem_singleton.mp hdep
      exact ⟨0, rfl, by decide, by decide⟩
    · cases hi
  · intro x hx
    have hrun : x ∈ [((some 1 : Option Ptr), memory), (some 1, autostart)] := hx
    simp only [List.mem_cons, List.not_mem_nil, or_false] at hrun
    rcases hrun with rfl | rfl
    · exact not_quietAction (by decide)
    · exact not_quietAction (by decide)
  · decide

/-- An action that depends on one that is not there is left out, and success is reported. -/
theorem skipped_action_succeeds :
    let action : JVal := .object [(lit "memory", .int ⟨5, by decide⟩),
      (lit "depends", .int ⟨7, by decide⟩)]
    let req : Request := ⟨.patch, lit "/libvirt/domains/by-name/vm", 11, [],
      lit "[\x7b\"memory\":5,\"depends\":7\x7d]"⟩
    let run := handleJson ⟨fun _ => .array [action], fun _ => []⟩ obliging
      ⟨false, [], lit "test:///default"⟩ req (.ofUrl req.target)
    run.1 = .ok () ∧ run.2.res.success = true ∧ run.2.resolved = [1] ∧ run.2.invoked = [] ∧
      ¬AllDone .alter [action] run.2 := by
  refine ⟨rfl, rfl, rfl, rfl, fun h => ?_⟩
  have hinvoked := h.invoked (by decide)
  cases hinvoked

end Virthttp
