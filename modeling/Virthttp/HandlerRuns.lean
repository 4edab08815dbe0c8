import Virthttp.ActionOutcomes
import Virthttp.Handler

namespace Virthttp

open Program

/-- A libvirt that opens every connection, finds every object and fails no call. -/
def obliging : Libvirt := fun _ c =>
  match c with
  | .connectOpen _ => some 0
  | .domainLookupByName _ _ => some 1
  | .domainLookupByUUIDString _ _ => some 1
  | .networkLookupByName _ _ => some 1
  | .networkLookupByUUIDString _ _ => some 1
  | _ => default

def Exchange.lookup? : Exchange → Option (Option Ptr)
  | ⟨.domainLookupByName _ _, a⟩ => some a
  | ⟨.domainLookupByUUIDString _ _, a⟩ => some a
  | ⟨.networkLookupByName _ _, a⟩ => some a
  | ⟨.networkLookupByUUIDString _ _, a⟩ => some a
  | _ => none

def Exchange.listed? : Exchange → Option (Option (List Ptr))
  | ⟨.listAllDomains _ _, a⟩ => some a
  | ⟨.listAllNetworks _ _, a⟩ => some a
  | _ => none

def Session.asked (s : Session) (e : Exchange) : Session := { s with calls := s.calls ++ [e] }

def LooksUp (f : Libvirt → Ptr → Str → M (Option Ptr)) (c : Ptr → Str → LvCall) : Prop :=
  ∀ lv conn sv s, Holds (f lv conn sv) s (fun r s' => ∃ e : Exchange, e.call = c conn (cstr sv) ∧
    e.lookup? = some r ∧ s' = s.asked e) (fun _ _ => False)

structure Resolves (r : Resolver) (byName byUUID : Ptr → Str → LvCall) : Prop where
  skeys : r.skeys = ["by-name", "by-uuid"]
  sfcns : ∃ f g, r.sfcns = [f, g] ∧ LooksUp f byName ∧ LooksUp g byUUID
  flags : ∀ lv target s, Holds (r.searchAllFlags lv target) s (fun o s' =>
    (o ≠ none ∧ s' = s) ∨ (o = none ∧ Errored 301 s s')) (fun _ _ => False)
  list : ∀ lv conn flags s, Holds (r.listFcn lv conn flags) s
    (fun objs s' => ∃ e : Exchange, e.listed? = some (some objs) ∧ s' = s.asked e)
    (fun err s' => ∃ e : Exchange, e.listed? = some none ∧ s' = s.asked e ∧ ∃ x, err = .thrown x)

theorem domainResolver_resolves : Resolves domainResolver
    (fun conn sv => .domainLookupByName conn sv)
    (fun conn sv => .domainLookupByUUIDString conn sv) where
  skeys := rfl
  sfcns := by
    refine ⟨_, _, rfl, fun lv conn sv s => ?_, fun lv conn sv s => ?_⟩
    · exact call_holds fun a => ⟨⟨_, a⟩, rfl, rfl, rfl⟩
    · exact call_holds fun a => ⟨⟨_, a⟩, rfl, rfl, rfl⟩
  flags := by
    intro lv target s
    change Holds (domainSearchAllFlags lv target) s _ _
    unfold domainSearchAllFlags
    split
    · rw [holds_bind]
      exact (error_holds lv 301 s).mono (fun _ s' he => Or.inr ⟨rfl, he⟩) (fun _ _ hf => hf)
    · exact Or.inl ⟨by simp, rfl⟩
  list := by
    intro lv conn flags s
    change Holds (listAllDomains lv conn flags) s _ _
    unfold listAllDomains
    rw [holds_bind]
    refine call_holds fun a => ?_
    cases a with
    | none => exact ⟨⟨.listAllDomains conn flags, none⟩, rfl, rfl, _, rfl⟩
    | some objs => exact ⟨⟨.listAllDomains conn flags, some objs⟩, rfl, rfl⟩

theorem networkResolver_resolves : Resolves networkResolver
    (fun conn sv => .networkLookupByName conn sv)
    (fun conn sv => .networkLookupByUUIDString conn sv) where
  skeys := rfl
  sfcns := by
    refine ⟨_, _, rfl, fun lv conn sv s => ?_, fun lv conn sv s => ?_⟩
    · exact call_holds fun a => ⟨⟨_, a⟩, rfl, rfl, rfl⟩
    · exact call_holds fun a => ⟨⟨_, a⟩, rfl, rfl, rfl⟩
  flags := fun lv target s => Or.inl ⟨by simp, rfl⟩
  list := by
    intro lv conn flags s
    change Holds (extractAllNetworks lv conn flags) s _ _
    unfold extractAllNetworks
    rw [holds_bind]
    refine call_holds fun a => ?_
    cases a with
    | none => exact ⟨⟨.listAllNetworks conn flags, none⟩, rfl, rfl, _, rfl⟩
    | some objs => exact ⟨⟨.listAllNetworks conn flags, some objs⟩, rfl, rfl⟩

def searchCall (byName byUUID : Ptr → Str → LvCall) (target : TargetParser) (conn : Ptr) :
    Option LvCall :=
  if target.pathParts.length < 4 then none
  else if target.pathParts.getD 2 [] = lit "by-name" then
    some (byName conn (cstr (target.pathParts.getD 3 [])))
  else if target.pathParts.getD 2 [] = lit "by-uuid" then
    some (byUUID conn (cstr (target.pathParts.getD 3 [])))
  else none

/-- How a resolution ends: with the object that was looked up, with a list where the path names
no search, or with no object and an error. -/
inductive Resolution (byName byUUID : Ptr → Str → LvCall) (target : TargetParser) (conn : Ptr)
    (s : Session) : List Ptr → Session → Prop where
  | found (e : Exchange) (p : Ptr) (hcall : searchCall byName byUUID target conn = some e.call)
      (hp : e.lookup? = some (some p)) : Resolution byName byUUID target conn s [p] (s.asked e)
  | listed (e : Exchange) (objs : List Ptr) (hlen : target.pathParts.length < 3)
      (hlist : e.listed? = some (some objs)) :
      Resolution byName byUUID target conn s objs (s.asked e)
  | refused (s' : Session) (hsame : SameContext s s') (hfail : s'.res.success = false)
      (hcalls : ∃ l, s'.calls = s.calls ++ l ∧ ∀ e ∈ l, AsksLastError e ∨
        (e.lookup? = some none ∧ searchCall byName byUUID target conn = some e.call)) :
      Resolution byName byUUID target conn s [] s'

theorem Errored.success {code : ℤ} {s s' : Session} (h : Errored code s s') :
    s'.res.success = false := by
  obtain ⟨libvirt, hres⟩ := h.res
  rw [hres]
  rfl

theorem enumFromString_skeys (part : Str) : enumFromString ["by-name", "by-uuid"] part =
    if part = lit "by-name" then some 0 else if part = lit "by-uuid" then some 1 else none := by
  simp only [enumFromString, List.findIdx?_cons, List.findIdx?_nil, beq_iff_eq, eq_comm (a := part)]
  split
  · rfl
  · split <;> rfl

/-- A lookup and what is made of its answer. -/
theorem lookup_holds {byName byUUID c : Ptr → Str → LvCall}
    {f : Libvirt → Ptr → Str → M (Option Ptr)} (hf : LooksUp f c) {target : TargetParser}
    {conn : Ptr} {value : Str} {E : Stop → Session → Prop}
    (hcall : searchCall byName byUUID target conn = some (c conn (cstr value))) (lv : Libvirt)
    (s : Session) : Holds (do
      let domRes ← f lv conn value
      match domRes with
      | some dom => return [dom]
      | none => do
        error lv 100
        return []) s (Resolution byName byUUID target conn s) E := by
  rw [holds_bind]
  refine (hf lv conn value s).mono ?_ (fun _ _ hf => hf.elim)
  rintro domRes s' ⟨e, hc, ha, rfl⟩
  rw [← hc] at hcall
  cases domRes with
  | some dom => exact .found e dom hcall ha
  | none =>
    rw [holds_bind]
    refine (error_holds lv 100 _).mono (fun _ s'' he => ?_) (fun _ _ hf => hf.elim)
    obtain ⟨l, hl, hask⟩ := he.calls
    refine .refused s'' ⟨he.same.obj, he.same.resolved, he.same.invoked, he.same.outcomes⟩
      he.success ⟨e :: l, ?_, ?_⟩
    · simp [hl, Session.asked]
    · intro e' he'
      rcases List.mem_cons.mp he' with rfl | he'
      · exact Or.inr ⟨ha, hcall⟩
      · exact Or.inl (hask e' he')

theorem resolve_holds {r : Resolver} {byName byUUID : Ptr → Str → LvCall}
    (hr : Resolves r byName byUUID) (lv : Libvirt) (conn : Ptr) (target : TargetParser)
    (s : Session) :
    Holds (r.resolve lv conn target) s (Resolution byName byUUID target conn s)
      (fun err s' => target.pathParts.length < 3 ∧ ∃ e : Exchange, e.listed? = some none ∧
        s' = s.asked e ∧ ∃ x, err = .thrown x) := by
  have hrefuse (code : ℤ) {E : Stop → Session → Prop} : Holds (do
      error lv code
      return ([] : List Ptr)) s (Resolution byName byUUID target conn s) E := by
    rw [holds_bind]
    refine (error_holds lv code s).mono (fun _ s' he => ?_) (fun _ _ hf => hf.elim)
    obtain ⟨l, hl, hask⟩ := he.calls
    exact .refused s' he.same he.success ⟨l, hl, fun e h => Or.inl (hask e h)⟩
  unfold Resolver.resolve Resolver.getSearchKey
  by_cases h3 : target.pathParts.length < 3
  · simp only [if_pos h3]
    rw [if_neg (by decide), holds_bind]
    refine (hr.flags lv target s).mono ?_ (fun _ _ hf => hf.elim)
    rintro flagsOpt s' (⟨hne, rfl⟩ | ⟨rfl, he⟩)
    · cases flagsOpt with
      | none => exact absurd rfl hne
      | some flags =>
        refine (hr.list lv conn flags s').mono ?_ ?_
        · rintro objs _ ⟨e, hlist, rfl⟩
          exact .listed e objs h3 hlist
        · exact fun err _ he => ⟨h3, he⟩
    · rw [holds_bind]
      refine (error_holds lv 102 s').mono (fun _ s'' he' => ?_) (fun _ _ hf => hf.elim)
      obtain ⟨l, hl, hask⟩ := he.calls
      obtain ⟨l', hl', hask'⟩ := he'.calls
      refine .refused s'' (he.same.trans he'.same) he'.success ⟨l ++ l', ?_, ?_⟩
      · rw [hl', hl, List.append_assoc]
      · exact fun e h => Or.inl ((List.mem_append.mp h).elim (hask e) (hask' e))
  · by_cases h4 : target.pathParts.length < 4
    · simp only [if_neg h3, if_pos h4]
      exact hrefuse 101
    · obtain ⟨f, g, hfg, hf, hg⟩ := hr.sfcns
      simp only [if_neg h3, if_neg h4, hr.skeys, hfg, enumFromString_skeys]
      by_cases hname : target.pathParts.getD 2 [] = lit "by-name"
      · rw [if_pos hname]
        exact lookup_holds hf (by rw [searchCall, if_neg h4, if_pos hname]) lv s
      · rw [if_neg hname]
        by_cases huuid : target.pathParts.getD 2 [] = lit "by-uuid"
        · rw [if_pos huuid]
          exact lookup_holds hg (by rw [searchCall, if_neg h4, if_neg hname, if_pos huuid]) lv s
        · rw [if_neg huuid]
          exact hrefuse 101

structure Handled (s s' : Session) : Prop where
  resolved : s'.resolved = s.resolved
  invoked : s'.invoked = s.invoked
  outcomes : s'.outcomes = s.outcomes
  calls : s.calls <+: s'.calls
  success : s'.res.success = true → s.res.success = true

theorem Handled.refl (s : Session) : Handled s s := ⟨rfl, rfl, rfl, List.prefix_rfl, id⟩

theorem Handled.trans {s₁ s₂ s₃ : Session} (h : Handled s₁ s₂) (h' : Handled s₂ s₃) :
    Handled s₁ s₃ :=
  ⟨h'.resolved.trans h.resolved, h'.invoked.trans h.invoked, h'.outcomes.trans h.outcomes,
    h.calls.trans h'.calls, fun hs => h.success (h'.success hs)⟩

theorem Tracks.handled {s s' : Session} {h : Interaction.Log HandlerOp.Ret} (ht : Tracks s h s') :
    Handled s s' := by
  obtain ⟨l, hl, _⟩ := ht.calls
  refine ⟨ht.same.resolved, ht.same.invoked, ht.same.outcomes, ⟨l, hl.symm⟩, fun hs => ?_⟩
  rw [ht.success, Bool.and_eq_true] at hs
  exact hs.1

theorem Errored.handled {code : ℤ} {s s' : Session} (h : Errored code s s') : Handled s s' := by
  obtain ⟨l, hl, _⟩ := h.calls
  exact ⟨h.same.resolved, h.same.invoked, h.same.outcomes, ⟨l, hl.symm⟩,
    fun hs => by simp [h.success] at hs⟩

def Creates (p : M DependsOutcome) : Prop :=
  ∀ s, Holds p s (fun o s' => Handled s s' ∧ (o = .success ∨ s'.res.success = false))
    (fun _ _ => False)

theorem fail_creates (lv : Libvirt) (code : ℤ) : Creates (M.fail lv code) := by
  intro s
  unfold M.fail
  rw [holds_bind]
  exact (error_holds lv code s).mono (fun _ _ he => ⟨he.handled, Or.inr he.success⟩)
    (fun _ _ hf => hf)

/-- The common end of both creations: a null object is told. -/
theorem created_creates {lv : Libvirt} {c : LvCall} (hc : c.Ret = Option Ptr) {code : ℤ} :
    Creates (do
      let obj ← call lv c
      modify (fun s => { s with obj := hc ▸ obj })
      if (hc ▸ obj : Option Ptr).isNone then M.fail lv code
      else do
        M.result created
        return .success) := by
  intro s
  rw [holds_bind]
  refine call_holds fun a => ?_
  rw [holds_bind, holds_modify]
  split
  · refine (fail_creates lv code _).mono (fun _ s' h => ⟨?_, h.2⟩) (fun _ _ hf => hf)
    refine Handled.trans ?_ h.1
    exact ⟨rfl, rfl, rfl, List.prefix_append _ _, id⟩
  · rw [holds_bind]
    exact ⟨⟨rfl, rfl, rfl, List.prefix_append _ _, id⟩, Or.inl rfl⟩

theorem DomainHandlers.create_creates (lv : Libvirt) (conn : Ptr) (obj : JVal) :
    Creates (create lv conn obj) := by
  cases obj with
  | string xml => exact created_creates (c := .domainCreateXML conn (cstr xml)) rfl
  | object ms => exact fail_creates lv (-1)
  | _ => exact fail_creates lv 0

theorem NetworkHandlers.createNw_creates (lv : Libvirt) (conn : Ptr) (xml : Str) :
    Creates (createNw lv conn xml) :=
  created_creates (c := .networkCreateXML conn (cstr xml)) rfl

theorem NetworkHandlers.createAll_creates (lv : Libvirt) (conn : Ptr) (items : List JVal) :
    Creates (createAll lv conn items) := by
  induction items with
  | nil => exact fun s => ⟨Handled.refl s, Or.inl rfl⟩
  | cons item items ih =>
    cases item with
    | string xml =>
      intro s
      rw [createAll, holds_bind]
      refine (createNw_creates lv conn xml s).mono ?_ (fun _ _ hf => hf)
      rintro o s' ⟨hh, ho⟩
      split
      · rename_i hfail
        exact ⟨hh, Or.inr (ho.resolve_left (by simp [hfail]))⟩
      · exact (ih s').mono (fun _ _ h => ⟨hh.trans h.1, h.2⟩) (fun _ _ hf => hf)
    | _ => exact fail_creates lv (-999)

theorem NetworkHandlers.create_creates (lv : Libvirt) (conn : Ptr) (obj : JVal) :
    Creates (create lv conn obj) := by
  cases obj with
  | string xml => exact createNw_creates lv conn xml
  | array items => exact createAll_creates lv conn items
  | _ => exact fail_creates lv (-1)

def Session.opened (config : IniConfig) (conn : Ptr) : Session :=
  Session.init.asked ⟨.connectOpen (cstr config.connURI), some conn⟩

/-- A request is answered with an error or dispatched to the subsystem it names. -/
theorem handleJsonBody_holds {lib : Rapidjson} {lv : Libvirt} {config : IniConfig} {req : Request}
    {target : TargetParser} {Q : Unit → Session → Prop} {E : Stop → Session → Prop}
    (herr : ∀ calls code s', (∀ e ∈ calls, ∃ uri, e.call = .connectOpen uri) →
      Errored code { Session.init with calls := calls } s' → Q () s')
    (hobj : ∀ front key rest conn sub, target.pathParts = front :: key :: rest →
      namedCall subsystems key = some sub →
      Holds (object lib lv sub conn req target) (Session.opened config conn) Q E) :
    Holds (handleJsonBody lib lv config req target) Session.init Q E := by
  have hinit (code : ℤ) : Holds (error lv code) Session.init Q E :=
    (error_holds lv code _).mono (fun _ s' he => herr [] code s' (by simp) he)
      (fun _ _ hf => hf.elim)
  unfold handleJsonBody
  split
  · exact hinit 1
  · split
    · exact hinit 4
    · split
      · exact hinit 5
      · exact hinit 6
    · rename_i front key rest hparts
      split
      · exact hinit 5
      · rw [holds_bind]
        refine call_holds fun conn => ?_
        have hopen (code : ℤ) : Holds (error lv code)
            { Session.init with calls := Session.init.calls ++
              [⟨.connectOpen (cstr config.connURI), conn⟩] } Q E :=
          (error_holds lv code _).mono (fun _ s' he => herr _ code s' (by simp [Session.init]) he)
            (fun _ _ hf => hf.elim)
        cases conn with
        | none => exact hopen 10
        | some conn =>
          dsimp only
          split
          · exact hopen 7
          · rename_i sub hsub
            exact hobj front key rest conn sub hparts hsub

theorem subsystems_cases {key : Str} {sub : Subsystem} (h : namedCall subsystems key = some sub) :
    (key = lit "domains" ∧ sub = domains) ∨ (key = lit "networks" ∧ sub = networks) := by
  obtain ⟨n, hmem, rfl⟩ := namedCall_mem h
  simp only [subsystems, List.mem_cons, Prod.mk.injEq, List.not_mem_nil, or_false] at hmem
  rcases hmem with ⟨rfl, rfl⟩ | ⟨rfl, rfl⟩
  · exact Or.inl ⟨rfl, rfl⟩
  · exact Or.inr ⟨rfl, rfl⟩

/-- The methods that work on an object are told by their operations. -/
theorem methods_track (sub : Subsystem) (lv : Libvirt) (conn : Ptr) (target : TargetParser)
    {idx : Method} (hidx : idx ≠ .create) (jval : JVal) (s : Session) :
    Holds ((sub.handlers lv conn target).methods lv idx jval) s
      (fun _ s' => ∃ h, Tracks s h s') (fun _ s' => ∃ h, Tracks s h s') := by
  have hrun (p : Act DependsOutcome) : Holds (p.run lv) s (fun _ s' => ∃ h, Tracks s h s')
      (fun _ s' => ∃ h, Tracks s h s') :=
    (Act.run_holds (Interaction.spec_trivial p []) lv s).mono (fun _ _ ⟨h, ht, _⟩ => ⟨h, ht⟩)
      (fun _ _ ⟨_, h, ht, _⟩ => ⟨h, ht⟩)
  cases idx with
  | create => exact absurd rfl hidx
  | query => exact hrun _
  | alter => exact hrun _
  | vacuum => exact hrun _

theorem methods_handled {key : Str} {sub : Subsystem} (h : namedCall subsystems key = some sub)
    (lv : Libvirt) (conn : Ptr) (target : TargetParser) (idx : Method) (jval : JVal) (s : Session) :
    Holds ((sub.handlers lv conn target).methods lv idx jval) s (fun _ => Handled s)
      (fun _ => Handled s) := by
  by_cases hidx : idx = .create
  · subst hidx
    rcases subsystems_cases h with ⟨_, rfl⟩ | ⟨_, rfl⟩
    · exact (DomainHandlers.create_creates lv conn jval s).mono (fun _ _ h => h.1)
        (fun _ _ hf => hf.elim)
    · exact (NetworkHandlers.create_creates lv conn jval s).mono (fun _ _ h => h.1)
        (fun _ _ hf => hf.elim)
  · exact (methods_track sub lv conn target hidx jval s).mono (fun _ _ ⟨_, ht⟩ => ht.handled)
      (fun _ _ ⟨_, ht⟩ => ht.handled)

/-- The functions that the path selects an object with. -/
theorem resolver_resolves {key : Str} {sub : Subsystem} (h : namedCall subsystems key = some sub) :
    ∃ byName byUUID, Resolves sub.resolver byName byUUID := by
  rcases subsystems_cases h with ⟨_, rfl⟩ | ⟨_, rfl⟩
  · exact ⟨_, _, domainResolver_resolves⟩
  · exact ⟨_, _, networkResolver_resolves⟩

theorem Resolution.same {byName byUUID : Ptr → Str → LvCall} {target : TargetParser} {conn : Ptr}
    {s s' : Session} {objs : List Ptr} (h : Resolution byName byUUID target conn s objs s') :
    SameContext s s' := by
  cases h with
  | found => exact ⟨rfl, rfl, rfl, rfl⟩
  | listed => exact ⟨rfl, rfl, rfl, rfl⟩
  | refused s' hsame => exact hsame

/-- What only depends on the invocations and is kept by each of them holds of a whole run. -/
theorem handleJson_invocations {lib : Rapidjson} {lv : Libvirt} {config : IniConfig}
    {req : Request} {target : TargetParser} {P : Option Ptr × JVal → Prop}
    (h : ∀ key sub idx, target.pathParts[1]? = some key → namedCall subsystems key = some sub →
      verbToIdx req.method = some idx →
      ∀ x ∈ (sub.jdispatchers idx).asked (lib.parse (cstr req.body)), ∀ obj, P (obj, x)) :
    ∀ x ∈ (handleJson lib lv config req target).2.invoked, P x := by
  let I : Session → Prop := fun s => ∀ x ∈ s.invoked, P x
  have hI {s s' : Session} (hs : I s) (heq : s'.invoked = s.invoked) : I s' := by
    intro x hx
    rw [heq] at hx
    exact hs x hx
  refine holds_final.mp (handleJsonBody_holds (Q := fun _ => I) (E := fun _ => I) ?_ ?_)
  · intro calls code s' _ he
    exact hI (by simp [I, Session.init]) he.same.invoked
  · intro front key rest conn sub hparts hsub
    have hkey : target.pathParts[1]? = some key := by simp [hparts]
    have hopened : I (Session.opened config conn) := by
      simp [I, Session.opened, Session.asked, Session.init]
    unfold object resolveFor
    rw [holds_bind]
    have hresolve : Holds (if req.method = .post then pure []
        else sub.resolver.resolve lv conn target) (Session.opened config conn) (fun _ => I)
        (fun _ => I) := by
      split
      · exact hopened
      · obtain ⟨byName, byUUID, hr⟩ := resolver_resolves hsub
        refine (resolve_holds hr lv conn target _).mono ?_ ?_
        · exact fun _ s' hres => hI hopened hres.same.invoked
        · rintro err s' ⟨_, e, _, rfl, _⟩
          exact hI hopened rfl
    refine hresolve.mono ?_ (fun _ _ hE => hE)
    intro objs s hs
    rw [holds_bind, holds_modify]
    split
    · exact (error_holds lv 3 _).mono (fun _ s' he => hI hs he.same.invoked)
        (fun _ _ hf => hf.elim)
    · rename_i idx hidx
      have hexec (s : Session) (hs : I s) : Holds (execBody lv sub conn target idx
          (lib.parse (cstr req.body))) s (fun _ => I) (fun _ => I) := by
        refine JDispatch.exec_holds (fun code s s' hs he => hI hs he.same.invoked) ?_ s hs
        intro x hx s hs
        have hnext {s' : Session} (hh : s'.invoked = s.invoked ++ [(s.obj, x)]) : I s' := by
          intro y hy
          rw [hh] at hy
          rcases List.mem_append.mp hy with hy | hy
          · exact hs y hy
          · obtain rfl := List.mem_singleton.mp hy
            exact h key sub idx hkey hsub hidx x hx s.obj
        refine invoke_holds ((methods_handled hsub lv conn target idx x _).mono ?_ ?_)
        · exact fun _ _ hh => hnext hh.invoked
        · exact fun _ _ hh => hnext hh.invoked
      split
      · exact hexec _ (hI hs rfl)
      · have hresolved : I { s with resolved := objs } := hI hs rfl
        refine (holds_forEach (I := fun _ => I) ?_ objs [] hresolved).mono
          (fun _ _ h => h) (fun _ _ h => h)
        intro _ v s hs
        unfold execOn
        rw [holds_bind, holds_modify]
        exact hexec _ (hI hs rfl)

end Virthttp
