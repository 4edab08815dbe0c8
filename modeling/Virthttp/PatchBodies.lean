import Virthttp.HandlerRuns

namespace Virthttp

open Program

/-- The domain handlers are called with the object or with each element of the array, and with
nothing else. -/
def DomainPatchBody : JVal → Prop
  | .object ms => ms ≠ []
  | .array actions => ∀ action ∈ actions, action.nonEmptyObject = true
  | _ => True

/-- The network handlers are called with the document, whatever it is. -/
def NetworkPatchBody (body : JVal) : Prop := body.nonEmptyObject = true

def PatchBody (key : Str) (body : JVal) : Prop :=
  (key = lit "domains" → DomainPatchBody body) ∧ (key = lit "networks" → NetworkPatchBody body)

/-- Whatever a handler does, the dispatching only calls it with non-empty objects. -/
def GetsObjects (d : JDispatch) (body : JVal) : Prop :=
  ∀ (lv : Libvirt) (hdl : JVal → M DependsOutcome) (s : Session),
    (∀ jval s, Holds (hdl jval) s (fun _ => Handled s) (fun _ => Handled s)) →
    ∀ x ∈ (d.exec lv body (invoke hdl) s).2.invoked, x ∈ s.invoked ∨ x.2.nonEmptyObject = true

theorem domain_asked_iff (body : JVal) :
    (∀ x ∈ (domainJDispatchers .alter).asked body, x.nonEmptyObject = true) ↔
      DomainPatchBody body := by
  cases body with
  | object ms => cases ms <;> simp [JDispatch.asked, domainJDispatchers, JVal.getType,
      DomainPatchBody, JVal.nonEmptyObject]
  | array actions => simp [JDispatch.asked, domainJDispatchers, JVal.getType, DomainPatchBody]
  | bool b => cases b <;> simp [JDispatch.asked, domainJDispatchers, JVal.getType, DomainPatchBody]
  | _ => simp [JDispatch.asked, domainJDispatchers, JVal.getType, DomainPatchBody]

theorem network_asked_iff (body : JVal) :
    (∀ x ∈ (networkJDispatchers .alter).asked body, x.nonEmptyObject = true) ↔
      NetworkPatchBody body := by
  simp [JDispatch.asked, networkJDispatchers, jAll, NetworkPatchBody]

theorem patchBody_iff {key : Str} {sub : Subsystem} (h : namedCall subsystems key = some sub)
    (body : JVal) : (∀ x ∈ (sub.jdispatchers .alter).asked body, x.nonEmptyObject = true) ↔
      PatchBody key body := by
  rcases subsystems_cases h with ⟨rfl, rfl⟩ | ⟨rfl, rfl⟩
  · refine (domain_asked_iff body).trans ⟨fun h => ⟨fun _ => h, fun hne => ?_⟩, fun h => h.1 rfl⟩
    exact absurd hne (by decide)
  · refine (network_asked_iff body).trans ⟨fun h => ⟨fun hne => ?_, fun _ => h⟩, fun h => h.2 rfl⟩
    exact absurd hne (by decide)

/-- A value that is no object names no dependency, so that nothing keeps it from the handler. -/
theorem dependsOf_eq_none {action : JVal} (h : action.nonEmptyObject ≠ true) :
    dependsOf action = none := by
  cases action with
  | object ms =>
    cases ms with
    | nil => rfl
    | cons m ms => exact absurd rfl h
  | _ => rfl

/-- What a call of the handler brings about, and later calls leave, holds in the end of every
value that is asked for and has no dependency. -/
theorem JDispatch.exec_reaches {lv : Libvirt} {d : JDispatch} {jval : JVal}
    {hdl : JVal → M DependsOutcome} {G : JVal → Session → Prop} {E : Stop → Session → Prop}
    (herr : ∀ code s s' x, Errored code s s' → G x s → G x s')
    (hhdl : ∀ (S : JVal → Prop) x s, (∀ y, S y → G y s) →
      Holds (hdl x) s (fun _ s' => G x s' ∧ ∀ y, S y → G y s') E) (s : Session) :
    Holds (d.exec lv jval hdl) s
      (fun _ s' => ∀ x ∈ d.asked jval, dependsOf x = none → G x s') E := by
  have herror {P : JVal → Prop} (code : ℤ) (hP : ∀ x, ¬P x) :
      Holds (error lv code) s (fun _ s' => ∀ x, P x → dependsOf x = none → G x s') E :=
    (error_holds lv code s).mono (fun _ _ _ x hx => absurd hx (hP x)) (fun _ _ hf => hf.elim)
  unfold exec asked
  split
  · rw [holds_bind]
    refine (hhdl (fun _ => False) jval s (fun _ hf => hf.elim)).mono ?_ (fun _ _ hE => hE)
    intro _ s' hs' x hx _
    rw [List.mem_singleton.mp hx]
    exact hs'.1
  · rename_i hsingle
    split
    · rename_i hrange
      unfold handleDepends
      split
      · rename_i actions
        let I : List JVal → List DependsOutcome → Session → Prop :=
          fun done _ s => ∀ y, (y ∈ done ∧ dependsOf y = none) → G y s
        rw [holds_bind]
        refine (dependsLoop_holds (I := I) ?_ ?_ ?_ actions [] [] s rfl (by simp [I])).mono
          (fun _ _ hI x hx hno => hI x ⟨hx, hno⟩) (fun _ _ hE => hE)
        · intro done action _ s _ hI _
          refine (hhdl _ action s hI).mono ?_ (fun _ _ hE => hE)
          rintro _ s' ⟨hG, hS⟩ y ⟨hy, hno⟩
          rcases List.mem_append.mp hy with hy | hy
          · exact hS y ⟨hy, hno⟩
          · rw [List.mem_singleton.mp hy]
            exact hG
        · rintro done action outcomes s s' _ hI hrun _ he y ⟨hy, hno⟩
          rcases List.mem_append.mp hy with hy | hy
          · exact herr 0 s s' y he (hI y ⟨hy, hno⟩)
          · rw [List.mem_singleton.mp hy] at hno
            exact absurd (Or.inl hno) hrun
        · rintro done action outcomes s _ hI hrun _ y ⟨hy, hno⟩
          rcases List.mem_append.mp hy with hy | hy
          · exact hI y ⟨hy, hno⟩
          · rw [List.mem_singleton.mp hy] at hno
            exact absurd (Or.inl hno) hrun
      · exact herror 298 (by simp)
    · exact herror 3 (by simp)

theorem getsObjects_iff (d : JDispatch) (body : JVal) :
    GetsObjects d body ↔ ∀ x ∈ d.asked body, x.nonEmptyObject = true := by
  refine ⟨fun h x hx => ?_, fun h lv hdl s hhdl => ?_⟩
  · by_contra hbad
    -- the handler that only says that it has succeeded sees every value
    let hdl : JVal → M DependsOutcome := fun _ => pure .success
    let lv : Libvirt := fun _ _ => default
    have hall : Holds (d.exec lv body (invoke hdl)) Session.init
        (fun _ s' => ∀ x ∈ d.asked body, dependsOf x = none → ∃ obj, (obj, x) ∈ s'.invoked)
        (fun _ _ => False) := by
      refine JDispatch.exec_reaches (G := fun x s => ∃ obj, (obj, x) ∈ s.invoked) ?_ ?_ _
      · rintro code s s' x he ⟨obj, hx⟩
        exact ⟨obj, by rwa [he.same.invoked]⟩
      · intro S x s hS
        refine invoke_holds ⟨⟨s.obj, by simp⟩, fun y hy => ?_⟩
        obtain ⟨obj, hmem⟩ := hS y hy
        exact ⟨obj, List.mem_append_left _ hmem⟩
    have hinvoked := holds_final.mp (hall.mono (fun _ _ hQ => hQ x hx (dependsOf_eq_none hbad))
      (fun _ _ hf => hf.elim))
    obtain ⟨obj, hmem⟩ := hinvoked
    rcases h lv hdl Session.init (fun _ s => Handled.refl s) _ hmem with hinit | hgood
    · simp [Session.init] at hinit
    · exact hbad hgood
  · let I : Session → Prop := fun s' => ∀ x ∈ s'.invoked, x ∈ s.invoked ∨ x.2.nonEmptyObject = true
    have hnext {x : JVal} {s₁ s₂ : Session} (hx : x ∈ d.asked body) (hI : I s₁)
        (hh : s₂.invoked = s₁.invoked ++ [(s₁.obj, x)]) : I s₂ := by
      intro y hy
      rw [hh] at hy
      rcases List.mem_append.mp hy with hy | hy
      · exact hI y hy
      · rw [List.mem_singleton.mp hy]
        exact Or.inr (h x hx)
    refine holds_final.mp (JDispatch.exec_holds (I := I) (E := fun _ => I) ?_ ?_ s
      fun x hx => Or.inl hx)
    · intro code s₁ s₂ hI he
      simpa only [I, he.same.invoked] using hI
    · intro x hx s₁ hI
      refine invoke_holds ((hhdl x _).mono ?_ ?_)
      · exact fun _ s₂ hh => hnext hx hI hh.invoked
      · exact fun _ s₂ hh => hnext hx hI hh.invoked

/-- `alter` dereferences the first member of whatever it is called with. -/
theorem alter_holds {key : Str} {sub : Subsystem} (h : namedCall subsystems key = some sub)
    (lv : Libvirt) (conn : Ptr) (target : TargetParser) (action : JVal) (s : Session) :
    Holds ((sub.handlers lv conn target).methods lv .alter action) s
      (fun _ _ => action.nonEmptyObject = true) (fun e _ => e = .aborted) := by
  have hrun (find : Str → Option (JVal → Act DependsOutcome)) :
      Holds ((alterWith find action).run lv) s (fun _ _ => action.nonEmptyObject = true)
        (fun e _ => e = .aborted) := by
    cases hgood : action.nonEmptyObject with
    | true =>
      exact (Act.run_holds (Interaction.spec_trivial _ []) lv s).mono (fun _ _ _ => rfl)
        (fun _ _ he => he.1)
    | false =>
      have habort : alterWith find action = Act.abort := by
        cases action with
        | object ms =>
          cases ms with
          | nil => rfl
          | cons m ms => simp [JVal.nonEmptyObject] at hgood
        | _ => rfl
      rw [habort]
      exact rfl
  rcases subsystems_cases h with ⟨_, rfl⟩ | ⟨_, rfl⟩
  · exact hrun _
  · exact hrun _

/-- A body that calls `alter` with anything else aborts every request that has an object. -/
theorem patch_aborts {lib : Rapidjson} {lv : Libvirt} {config : IniConfig} {req : Request}
    {target : TargetParser} (hpatch : req.method = .patch) :
    Holds (handleJsonBody lib lv config req target) Session.init
      (fun _ s' => s'.resolved ≠ [] →
        ∀ key, target.pathParts[1]? = some key → PatchBody key (lib.parse (cstr req.body)))
      (fun e s' => s'.resolved ≠ [] → e = .aborted) := by
  refine handleJsonBody_holds ?_ ?_
  · intro calls code s' _ he hne
    exact absurd he.same.resolved hne
  · intro front key rest conn sub hparts hsub
    have hmethod : ¬req.method = .post := by simp [hpatch]
    unfold object resolveFor
    rw [if_neg hmethod, holds_bind]
    obtain ⟨byName, byUUID, hr⟩ := resolver_resolves hsub
    refine (resolve_holds hr lv conn target _).mono ?_ ?_
    · intro objs s hres
      rw [holds_bind, holds_modify]
      simp only [hpatch, verbToIdx, reduceCtorEq, if_false]
      let Good : Prop := PatchBody key (lib.parse (cstr req.body))
      have hturn (v : Ptr) (s : Session) : Holds (execOn lv sub conn target .alter
          (lib.parse (cstr req.body)) v) s (fun _ _ => Good) (fun e _ => e = .aborted) := by
        unfold execOn execBody
        rw [holds_bind, holds_modify]
        refine (JDispatch.exec_reaches (G := fun x _ => x.nonEmptyObject = true)
          (fun _ _ _ _ _ hG => hG) ?_ _).mono ?_ (fun _ _ he => he)
        · intro S x s hS
          exact invoke_holds ((alter_holds hsub lv conn target x _).mono
            (fun _ _ hx => ⟨hx, hS⟩) (fun _ _ he => he))
        · intro _ _ hall
          refine (patchBody_iff hsub _).mp fun x hx => ?_
          by_contra hbad
          exact hbad (hall x hx (dependsOf_eq_none hbad))
      cases objs with
      | nil => exact fun hne => absurd rfl hne
      | cons v objs =>
        have hloop : Holds (forEach (execOn lv sub conn target .alter (lib.parse (cstr req.body)))
            (v :: objs)) { s with resolved := v :: objs } (fun _ _ => Good)
            (fun e _ => e = .aborted) := by
          rw [forEach, holds_bind]
          refine (hturn v _).mono (fun _ s' hgood => ?_) (fun _ _ he => he)
          exact holds_forEach (I := fun _ _ => Good) (fun _ v s _ => hturn v s) objs [] hgood
        refine hloop.mono ?_ (fun _ _ he _ => he)
        intro _ _ hgood _ key' hkey'
        obtain rfl : key = key' := by simpa [hparts] using hkey'
        exact hgood
    · rintro err s' ⟨_, e, _, rfl, _⟩ hne
      exact absurd rfl hne

/-- The dispatching gets nothing but non-empty objects out of a body exactly where the body is a
non-empty object, or for domains an array of them or no object at all; any other body aborts every
request that resolves an object. -/
theorem alter_gets_objects_iff (body : JVal) :
    (GetsObjects (domains.jdispatchers .alter) body ↔ DomainPatchBody body) ∧
    (GetsObjects (networks.jdispatchers .alter) body ↔ NetworkPatchBody body) ∧
    ∀ (lib : Rapidjson) (lv : Libvirt) (config : IniConfig) (req : Request)
      (target : TargetParser) (key : Str), req.method = .patch →
      target.pathParts[1]? = some key → lib.parse (cstr req.body) = body →
      (PatchBody key body → ∀ x ∈ (handleJson lib lv config req target).2.invoked,
        x.2.nonEmptyObject = true) ∧
      ((handleJson lib lv config req target).2.resolved ≠ [] → ¬PatchBody key body →
        (handleJson lib lv config req target).1 = .error .aborted) := by
  refine ⟨(getsObjects_iff _ body).trans (domain_asked_iff body),
    (getsObjects_iff _ body).trans (network_asked_iff body), ?_⟩
  rintro lib lv config req target key hpatch hkey rfl
  refine ⟨fun hbody => ?_, fun hne hbad => ?_⟩
  · refine handleJson_invocations (P := fun x => x.2.nonEmptyObject = true) ?_
    intro key' sub idx hkey' hsub hidx x hx obj
    obtain rfl : key = key' := Option.some.inj (hkey.symm.trans hkey')
    obtain rfl : Method.alter = idx := by simpa [hpatch, verbToIdx] using hidx
    exact (patchBody_iff hsub _).mpr hbody x hx
  · obtain ⟨hok, herr⟩ := holds_iff_run.mp (@patch_aborts lib lv config req target hpatch)
    unfold handleJson at hne ⊢
    generalize handleJsonBody lib lv config req target Session.init = run at hok herr hne ⊢
    rcases run with ⟨e | _, s'⟩
    · exact congrArg Except.error (herr e s' rfl hne)
    · exact absurd (hok () s' rfl hne key hkey) hbad

/-- The body `{}` on a domain calls `alter` with an object that has no members. -/
theorem empty_body_reaches_alter :
    ∃ x ∈ (handleJson ⟨fun _ => .object [], fun _ => []⟩ obliging
      ⟨false, [], lit "test:///default"⟩
      ⟨.patch, lit "/libvirt/domains/by-name/vm", 11, [], lit "\x7b\x7d"⟩
      (.ofUrl (lit "/libvirt/domains/by-name/vm"))).2.invoked, x.2.nonEmptyObject = false :=
  ⟨(some 1, .object []), List.mem_singleton.mpr rfl, rfl⟩

end Virthttp
