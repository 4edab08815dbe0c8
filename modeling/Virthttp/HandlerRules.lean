import Virthttp.HandlerRuns

namespace Virthttp

open Program

/-- What the functions of a resolver keep, the resolution keeps. -/
theorem Resolver.resolve_keeps {r : Resolver} {lv : Libvirt} {conn : Ptr} {I : Session → Prop}
    {G : Session → Ptr → Prop}
    (herr : ∀ code s, I s → Holds (error lv code) s (fun _ => I) (fun _ _ => False))
    (hsfcns : ∀ f ∈ r.sfcns, ∀ sv s, I s → Holds (f lv conn sv) s
      (fun o s' => I s' ∧ ∀ p ∈ o, G s' p) (fun _ => I))
    (hflags : ∀ target s, I s → Holds (r.searchAllFlags lv target) s (fun _ => I) (fun _ => I))
    (hlist : ∀ flags s, I s → Holds (r.listFcn lv conn flags) s
      (fun objs s' => I s' ∧ ∀ p ∈ objs, G s' p) (fun _ => I))
    (target : TargetParser) (s : Session) (hI : I s) : Holds (r.resolve lv conn target) s
      (fun objs s' => I s' ∧ ∀ p ∈ objs, G s' p) (fun _ => I) := by
  have hrefuse (code : ℤ) (s : Session) (hI : I s) : Holds (do
      error lv code
      return ([] : List Ptr)) s (fun objs s' => I s' ∧ ∀ p ∈ objs, G s' p) (fun _ => I) := by
    rw [holds_bind]
    exact (herr code s hI).mono (fun _ s' hI' => ⟨hI', by simp⟩) (fun _ _ hf => hf.elim)
  unfold Resolver.resolve
  split
  · exact hrefuse 101 s hI
  · rename_i idx searchValue _
    split
    · split
      · exact hI
      · rename_i sfcn hsfcn
        rw [holds_bind]
        refine (hsfcns sfcn (List.mem_of_getElem? hsfcn) searchValue s hI).mono ?_ (fun _ _ h => h)
        rintro domRes s' ⟨hI', hG⟩
        cases domRes with
        | some dom => exact ⟨hI', by simpa using hG⟩
        | none => exact hrefuse 100 s' hI'
    · rw [holds_bind]
      refine (hflags target s hI).mono ?_ (fun _ _ h => h)
      intro flagsOpt s' hI'
      cases flagsOpt with
      | none => exact hrefuse 102 s' hI'
      | some flags => exact hlist flags s' hI'

theorem errored_keeps {I : Session → Prop} (h : ∀ code s s', I s → Errored code s s' → I s')
    (lv : Libvirt) (code : ℤ) (s : Session) (hI : I s) :
    Holds (error lv code) s (fun _ => I) (fun _ _ => False) :=
  (error_holds lv code s).mono (fun _ s' he => h code s s' hI he) (fun _ _ hf => hf)

theorem domainSearchAllFlags_keeps {lv : Libvirt} {I : Session → Prop}
    (herr : ∀ code s, I s → Holds (error lv code) s (fun _ => I) (fun _ _ => False))
    (target : TargetParser) {s : Session} (hI : I s) :
    Holds (domainSearchAllFlags lv target) s (fun _ => I) (fun _ => I) := by
  unfold domainSearchAllFlags
  split
  · rw [holds_bind]
    exact (herr 301 s hI).mono (fun _ _ hI' => hI') (fun _ _ hf => hf.elim)
  · exact hI

def LvCall.selects : LvCall → Bool
  | .connectOpen _ | .domainLookupByName _ _ | .domainLookupByUUIDString _ _
  | .listAllDomains _ _ | .networkLookupByName _ _ | .networkLookupByUUIDString _ _
  | .listAllNetworks _ _ => true
  | _ => false

structure KeptOutside (I : Session → Prop) : Prop where
  select : ∀ s (e : Exchange), e.call.selects = true → I s → I (s.asked e)
  error : ∀ lv code s, I s → Holds (error lv code) s (fun _ => I) (fun _ _ => False)
  context : ∀ s obj resolved invoked, I s →
    I { s with obj := obj, resolved := resolved, invoked := invoked }

theorem KeptOutside.call {I : Session → Prop} (hI : KeptOutside I) {lv : Libvirt} {c : LvCall}
    (hc : c.selects = true) {s : Session} (hs : I s) :
    Holds (call lv c) s (fun _ => I) (fun _ _ => False) :=
  call_holds fun a => hI.select s ⟨c, a⟩ hc hs

theorem KeptOutside.errorHolds {I : Session → Prop} (hI : KeptOutside I) {lv : Libvirt} (code : ℤ)
    {s : Session} (hs : I s) : Holds (Virthttp.error lv code) s (fun _ => I) (fun _ => I) :=
  (hI.error lv code s hs).mono (fun _ _ h => h) (fun _ _ hf => hf.elim)

/-- The resolvers that there are only select. -/
theorem resolve_kept {I : Session → Prop} (hI : KeptOutside I) {key : Str} {sub : Subsystem}
    (hsub : namedCall subsystems key = some sub) (lv : Libvirt) (conn : Ptr)
    (target : TargetParser) {s : Session} (hs : I s) :
    Holds (sub.resolver.resolve lv conn target) s (fun _ => I) (fun _ => I) := by
  have hlookup {c : LvCall} (hc : c.selects = true) {s : Session} (hs : I s)
      {o : c.Ret → Option Ptr} : Holds (call lv c) s
        (fun a s' => I s' ∧ ∀ p ∈ o a, (fun (_ : Session) (_ : Ptr) => True) s' p) (fun _ => I) :=
    (hI.call hc hs).mono (fun _ _ h => ⟨h, fun _ _ => trivial⟩) (fun _ _ hf => hf.elim)
  suffices h : Holds (sub.resolver.resolve lv conn target) s
      (fun objs s' => I s' ∧ ∀ p ∈ objs, (fun (_ : Session) (_ : Ptr) => True) s' p)
      (fun _ => I) from h.mono (fun _ _ h => h.1) (fun _ _ h => h)
  rcases subsystems_cases hsub with ⟨_, rfl⟩ | ⟨_, rfl⟩
  · refine Resolver.resolve_keeps (hI.error lv) ?_ ?_ ?_ target s hs
    · intro f hf sv s hs
      simp only [domains, domainResolver, List.mem_cons, List.not_mem_nil, or_false] at hf
      rcases hf with rfl | rfl
      · exact hlookup rfl hs
      · exact hlookup rfl hs
    · exact fun target s hs => domainSearchAllFlags_keeps (hI.error lv) target hs
    · intro flags s hs
      change Holds (listAllDomains lv conn flags) s _ _
      unfold listAllDomains
      rw [holds_bind]
      refine (hI.call rfl hs).mono (fun a s' hs' => ?_) (fun _ _ hf => hf.elim)
      cases a with
      | none => exact hs'
      | some objs => exact ⟨hs', fun _ _ => trivial⟩
  · refine Resolver.resolve_keeps (hI.error lv) ?_ ?_ ?_ target s hs
    · intro f hf sv s hs
      simp only [networks, networkResolver, List.mem_cons, List.not_mem_nil, or_false] at hf
      rcases hf with rfl | rfl
      · exact hlookup rfl hs
      · exact hlookup rfl hs
    · exact fun target s hs => hs
    · intro flags s hs
      change Holds (extractAllNetworks lv conn flags) s _ _
      unfold extractAllNetworks
      rw [holds_bind]
      refine (hI.call rfl hs).mono (fun a s' hs' => ?_) (fun _ _ hf => hf.elim)
      cases a with
      | none => exact hs'
      | some objs => exact ⟨hs', fun _ _ => trivial⟩

def Session.madeBy (s : Session) (e : Exchange) : Option Ptr → Session
  | none => { s.asked e with obj := none }
  | some obj => { s.asked e with obj := some obj, res := s.res.result created }

section Creations

variable {I : Session → Prop} {lv : Libvirt} {conn : Ptr}

theorem fail_keeps (herr : ∀ code s, I s → Holds (error lv code) s (fun _ => I) (fun _ _ => False))
    (code : ℤ) {s : Session} (hI : I s) :
    Holds (M.fail lv code) s (fun _ => I) (fun _ => I) := by
  unfold M.fail
  rw [holds_bind]
  exact (herr code s hI).mono (fun _ _ h => h) (fun _ _ hf => hf.elim)

/-- The common end of both creations -/
theorem created_keeps
    (herr : ∀ code s, I s → Holds (error lv code) s (fun _ => I) (fun _ _ => False))
    {c : LvCall} (hc : c.Ret = Option Ptr) {code : ℤ} {s : Session}
    (hmade : ∀ a : c.Ret, I (s.madeBy ⟨c, a⟩ (hc ▸ a))) : Holds (do
      let obj ← call lv c
      modify (fun s => { s with obj := hc ▸ obj })
      if (hc ▸ obj : Option Ptr).isNone then M.fail lv code
      else do
        M.result created
        return .success) s (fun _ => I) (fun _ => I) := by
  rw [holds_bind]
  refine call_holds fun a => ?_
  rw [holds_bind, holds_modify]
  have hI := hmade a
  generalize (hc ▸ a : Option Ptr) = obj at hI ⊢
  cases obj with
  | none => exact fail_keeps herr code hI
  | some obj => exact hI

theorem DomainHandlers.create_keeps
    (herr : ∀ code s, I s → Holds (error lv code) s (fun _ => I) (fun _ _ => False))
    (hmade : ∀ xml dom s, I s → I (s.madeBy ⟨.domainCreateXML conn xml, dom⟩ dom)) (jval : JVal)
    {s : Session} (hI : I s) :
    Holds (DomainHandlers.create lv conn jval) s (fun _ => I) (fun _ => I) := by
  cases jval with
  | string xml =>
    exact created_keeps herr (c := .domainCreateXML conn (cstr xml)) rfl fun dom => hmade _ dom s hI
  | object ms => exact fail_keeps herr (-1) hI
  | _ => exact fail_keeps herr 0 hI

theorem NetworkHandlers.createNw_keeps
    (herr : ∀ code s, I s → Holds (error lv code) s (fun _ => I) (fun _ _ => False))
    (hmade : ∀ xml nw s, I s → I (s.madeBy ⟨.networkCreateXML conn xml, nw⟩ nw)) (xml : Str)
    {s : Session} (hI : I s) :
    Holds (NetworkHandlers.createNw lv conn xml) s (fun _ => I) (fun _ => I) :=
  created_keeps herr (c := .networkCreateXML conn (cstr xml)) rfl fun nw => hmade _ nw s hI

/-- An array is worked off until a creation fails. -/
theorem NetworkHandlers.create_keeps
    (herr : ∀ code s, I s → Holds (error lv code) s (fun _ => I) (fun _ _ => False))
    (hmade : ∀ xml nw s, I s → I (s.madeBy ⟨.networkCreateXML conn xml, nw⟩ nw)) (jval : JVal)
    {s : Session} (hI : I s) :
    Holds (NetworkHandlers.create lv conn jval) s (fun _ => I) (fun _ => I) := by
  cases jval with
  | string xml => exact createNw_keeps herr hmade xml hI
  | array items =>
    change Holds (createAll lv conn items) s _ _
    induction items generalizing s with
    | nil => exact hI
    | cons item items ih =>
      cases item with
      | string xml =>
        rw [createAll, holds_bind]
        refine (createNw_keeps herr hmade xml hI).mono ?_ (fun _ _ h => h)
        intro o s' hI'
        split
        · exact hI'
        · exact ih hI'
      | _ => exact fail_keeps herr (-999) hI
  | _ => exact fail_keeps herr (-1) hI

end Creations

section Rule

variable {I : Session → Prop} {lib : Rapidjson} {lv : Libvirt} {config : IniConfig}
  {req : Request} {target : TargetParser}

def MethodsKeep (lv : Libvirt) (req : Request) (target : TargetParser) (I : Session → Prop) :
    Prop :=
  ∀ key sub conn idx, namedCall subsystems key = some sub → verbToIdx req.method = some idx →
    ∀ jval s, I s → Holds ((sub.handlers lv conn target).methods lv idx jval) s
      (fun o s' => I { s' with outcomes := s'.outcomes ++ [o] }) (fun _ => I)

theorem execBody_kept (hI : KeptOutside I) (hmethods : MethodsKeep lv req target I) {key : Str}
    {sub : Subsystem} (hsub : namedCall subsystems key = some sub) (conn : Ptr) {idx : Method}
    (hidx : verbToIdx req.method = some idx) (jsonReq : JVal) {s : Session} (hs : I s) :
    Holds (execBody lv sub conn target idx jsonReq) s (fun _ => I) (fun _ => I) := by
  unfold execBody
  refine JDispatch.exec_keeps (hI.error lv) ?_ s hs
  intro x _ s hs
  apply invoke_holds
  exact hmethods key sub conn idx hsub hidx x _ (hI.context s _ _ _ hs)

theorem object_kept (hI : KeptOutside I) (hmethods : MethodsKeep lv req target I) {key : Str}
    {sub : Subsystem} (hsub : namedCall subsystems key = some sub) (conn : Ptr) {s : Session}
    (hs : I s) : Holds (object lib lv sub conn req target) s (fun _ => I) (fun _ => I) := by
  unfold object
  rw [holds_bind]
  have hresolve : Holds (resolveFor lv sub conn req target) s (fun _ => I) (fun _ => I) := by
    unfold resolveFor
    split
    · exact hs
    · exact resolve_kept hI hsub lv conn target hs
  refine hresolve.mono ?_ (fun _ _ h => h)
  intro objs s₁ hs₁
  rw [holds_bind, holds_modify]
  have hs₂ : I { s₁ with resolved := objs } := hI.context s₁ _ _ _ hs₁
  split
  · exact hI.errorHolds 3 hs₂
  · rename_i idx hidx
    split
    · exact execBody_kept hI hmethods hsub conn hidx _ hs₂
    · refine holds_forEach_mem ?_ hs₂
      intro v _ s₃ hs₃
      unfold execOn
      rw [holds_bind, holds_modify]
      exact execBody_kept hI hmethods hsub conn hidx _ (hI.context s₃ _ _ _ hs₃)

/-- What the handlers and the rest of `handle_json` keep holds of the session that the response is
written from, however the run ends. -/
theorem handleJson_keeps (hI : KeptOutside I) (hinit : I Session.init)
    (hmethods : MethodsKeep lv req target I) : I (handleJson lib lv config req target).2 := by
  suffices h : Holds (handleJsonBody lib lv config req target) Session.init (fun _ => I)
      (fun _ => I) from holds_final.mp h
  unfold handleJsonBody
  split
  · exact hI.errorHolds 1 hinit
  · split
    · exact hI.errorHolds 4 hinit
    · split
      · exact hI.errorHolds 5 hinit
      · exact hI.errorHolds 6 hinit
    · split
      · exact hI.errorHolds 5 hinit
      · rw [holds_bind]
        refine (hI.call rfl hinit).mono (fun conn s hs => ?_) (fun _ _ hf => hf.elim)
        cases conn with
        | none => exact hI.errorHolds 10 hs
        | some conn =>
          dsimp only
          split
          · exact hI.errorHolds 7 hs
          · rename_i sub hsub
            exact object_kept hI hmethods hsub conn hs

end Rule

end Virthttp
