import Virthttp.HandlerEffects
import Virthttp.HandlerRules

namespace Virthttp

open Program Interaction

def Performed.result? : Performed → Option JVal
  | ⟨.result val, _⟩ => some val
  | _ => none

def loggedResults (h : Log HandlerOp.Ret) : List JVal := h.filterMap Performed.result?

theorem loggedResults_snoc (h : Log HandlerOp.Ret) (x : Performed) :
    loggedResults (h ++ [x]) = loggedResults h ++ x.result?.toList :=
  filterMap_snoc _ h x

theorem Errored.results {code : ℤ} {s s' : Session} (h : Errored code s s') :
    s'.res.results = s.res.results := by
  obtain ⟨libvirt, hres⟩ := h.res
  rw [hres]
  rfl

theorem perform_results (lv : Libvirt) (o : HandlerOp) (s : Session) :
    Holds (o.perform lv) s (fun r s' => s'.res.results =
      s.res.results ++ (Performed.result? ⟨o, r⟩).toList) (fun _ _ => False) := by
  have hquiet {s' : Session} (h : s'.res.results = s.res.results) :
      s'.res.results = s.res.results ++ [] := by
    rw [h, List.append_nil]
  cases o with
  | domain c =>
    change Holds (reads Session.obj >>= fun dom => call lv (.domain dom c)) s _ _
    rw [holds_bind, holds_reads]
    exact call_holds fun a => hquiet rfl
  | network c =>
    change Holds (reads Session.obj >>= fun nw => call lv (.network nw c)) s _ _
    rw [holds_bind, holds_reads]
    exact call_holds fun a => hquiet rfl
  | lastError =>
    exact (extractLastError_holds lv s).mono (fun _ s' h => hquiet (by rw [h.res]))
      (fun _ _ hf => hf)
  | error code =>
    exact (error_holds lv code s).mono (fun _ s' h => hquiet h.results) (fun _ _ hf => hf)
  | result val => rfl
  | message val => exact hquiet rfl

def Records (s₀ : Session) (h : Log HandlerOp.Ret) (s : Session) : Prop :=
  Tracks s₀ h s ∧ s.res.results = s₀.res.results ++ loggedResults h

/-- The run of a handler whose operations are told, with the results that it adds. -/
theorem Act.run_records {α : Type} {p : Act α} {Q : Log HandlerOp.Ret → α → Prop}
    {E : Log HandlerOp.Ret → Unit → Prop} (hp : Spec p [] Q E) (lv : Libvirt) (s : Session) :
    Holds (p.run lv) s (fun a s' => ∃ h, Records s h s' ∧ Q h a)
      (fun _ s' => ∃ h, Records s h s' ∧ E h ()) := by
  have hstep (h : Log HandlerOp.Ret) (s' : Session) (o : HandlerOp) (hr : Records s h s') :
      Holds (o.perform lv) s' (fun r s'' => Records s (h ++ [⟨o, r⟩]) s'') (fun _ _ => False) := by
    refine ((perform_tracks lv s h s' o hr.1).and (perform_results lv o s')).mono ?_
      (fun _ _ hf => hf.1)
    rintro r s'' ⟨htracks, hresults⟩
    exact ⟨htracks, by rw [hresults, hr.2, loggedResults_snoc, List.append_assoc]⟩
  have hinit : Records s [] s := ⟨Tracks.init s, by simp [loggedResults]⟩
  refine (play_spec hstep hp hinit).mono (fun _ _ hq => hq) ?_
  rintro _ s' ⟨h, ⟨⟩, _, hr, hE⟩
  exact ⟨h, hr, hE⟩

def Quiet (h : Log HandlerOp.Ret) : Prop := loggedResults h = []

theorem quiet_nil : Quiet [] := rfl

theorem quiet_of_noResult {h : Log HandlerOp.Ret} (hh : ∀ x ∈ h, NoResult x.1) : Quiet h := by
  unfold Quiet loggedResults
  rw [List.filterMap_eq_nil_iff]
  rintro ⟨o, r⟩ hx
  cases o with
  | result val => exact (hh _ hx).elim
  | _ => rfl

theorem quiet_append {h h' : Log HandlerOp.Ret} :
    Quiet (h ++ h') ↔ Quiet h ∧ Quiet h' := by
  simp [Quiet, loggedResults]

/-- What asks for no result logs none. -/
theorem noResult_spec {α : Type} {p : Act α} (hp : p.Asks NoResult) {h : Log HandlerOp.Ret}
    (hh : Quiet h) : Spec p h (fun h' _ => Quiet h') (fun h' _ => Quiet h') := by
  induction p generalizing h with
  | ret a => exact hh
  | stop e => exact hh
  | ask o k ih =>
    intro r
    apply ih r (hp.2 r)
    refine quiet_append.mpr ⟨hh, quiet_of_noResult ?_⟩
    intro x hx
    rw [List.mem_singleton.mp hx]
    exact hp.1

def OneResult (p : Act DependsOutcome) : Prop :=
  ∀ h, Quiet h → Spec p h
    (fun h' o => (loggedResults h').length = if o = .success then 1 else 0)
    (fun h' _ => Quiet h')

theorem oneResult_bind {α : Type} {p : Act α} {f : α → Act DependsOutcome}
    (hp : p.Asks NoResult) (hf : ∀ a, OneResult (f a)) : OneResult (p >>= f) := by
  intro h hh
  rw [spec_bind]
  exact (noResult_spec hp hh).mono (fun h' a hh' => hf a h' hh') (fun _ _ hE => hE)

theorem oneResult_result (val : JVal) : OneResult (do
    Act.result val
    return .success) := by
  intro h hh
  rw [spec_bind, spec_result, spec_pure, loggedResults_snoc, hh]
  rfl

theorem oneResult_unsuccessful {o : DependsOutcome} (ho : o ≠ .success) : OneResult (pure o) := by
  intro h hh
  rw [spec_pure, hh, if_neg ho]
  rfl

theorem oneResult_fail (code : ℤ) : OneResult (Act.fail code) :=
  oneResult_bind (asks_ask trivial) fun _ => oneResult_unsuccessful (by decide)

theorem answerWith_oneResult {scope : Subquery} (h : scope.Asks NoResult) :
    OneResult (answerWith scope) := by
  refine oneResult_bind h ?_
  rintro ⟨outcome, val⟩
  dsimp only
  split
  · rename_i hsuccess
    subst hsuccess
    exact oneResult_result val
  · rename_i hne
    exact oneResult_unsuccessful hne

theorem DomainHandlers.query_oneResult (target : TargetParser) (jval : JVal) :
    OneResult (DomainHandlers.query target jval) := by
  have hread {c : DomainCall} : (Act.domain c).Asks NoResult := asks_ask trivial
  unfold DomainHandlers.query
  split
  · unfold DomainHandlers.queryInfo
    refine oneResult_bind hread fun info => ?_
    refine oneResult_bind hread fun osType => ?_
    refine oneResult_bind hread fun name => ?_
    refine oneResult_bind (require_allowed _) fun name => ?_
    refine oneResult_bind hread fun uuid => ?_
    refine oneResult_bind hread fun id => ?_
    refine oneResult_bind (require_allowed _) fun status => ?_
    refine oneResult_bind (require_allowed _) fun os => ?_
    exact oneResult_result _
  · exact answerWith_oneResult (parameterizedDependsScope_allowed
      (DomainHandlers.subqueries_allowed noResult_lenient (fun _ _ => trivial) target))

theorem NetworkHandlers.query_oneResult (target : TargetParser) (jval : JVal) :
    OneResult (NetworkHandlers.query target jval) := by
  have hread {c : NetworkCall} : (Act.network c).Asks NoResult := asks_ask trivial
  have hcall {c : NetworkCall} {β : Type} (f : c.Ret → β) :
      (Act.network c >>= fun r => pure (f r)).Asks NoResult :=
    asks_bind_all hread fun _ => asks_pure _
  have htfe {get : Act TFE} {k : JVal → Act DependsOutcome} (hget : get.Asks NoResult)
      (hk : ∀ val, OneResult (k val)) : OneResult (NetworkHandlers.getTFE get k) := by
    refine oneResult_bind hget fun tfe => ?_
    split
    · exact oneResult_fail 500
    · exact hk _
  unfold NetworkHandlers.query
  split
  · unfold NetworkHandlers.queryInfo
    refine htfe (hcall _) fun active => ?_
    refine htfe (hcall _) fun autostart => ?_
    refine htfe (hcall _) fun persistent => ?_
    refine oneResult_bind hread fun name => ?_
    refine oneResult_bind (require_allowed _) fun name => ?_
    refine oneResult_bind (hcall _) fun uuid => ?_
    dsimp only
    split
    · refine oneResult_bind hread fun bridge => ?_
      refine oneResult_bind (require_allowed _) fun bridge => ?_
      exact oneResult_result _
    · exact oneResult_result _
  · exact answerWith_oneResult (parameterizedDependsScope_allowed
      (NetworkHandlers.subqueries_allowed noResult_lenient (fun _ _ => trivial) target))

def Exchange.creates : Exchange → Bool
  | ⟨.domainCreateXML _ _, dom⟩ => dom.isSome
  | ⟨.networkCreateXML _ _, nw⟩ => nw.isSome
  | _ => false

def Exchange.deletes : Exchange → Bool
  | ⟨.domain _ (.undefineFlags _), r⟩ => zeroCall r
  | ⟨.network _ .undefine, r⟩ => zeroCall r
  | _ => false

def Accounts (done : Exchange → Bool) (val : JVal) (s : Session) : Prop :=
  s.res.results = List.replicate (s.calls.countP done) val

theorem accounts_more {done : Exchange → Bool} {val : JVal} {s s' : Session} {l : List Exchange}
    {r : List JVal} (h : Accounts done val s) (hcalls : s'.calls = s.calls ++ l)
    (hresults : s'.res.results = s.res.results ++ r)
    (hl : r = List.replicate (l.countP done) val) : Accounts done val s' := by
  unfold Accounts at *
  rw [hcalls, hresults, h, hl, List.countP_append, List.replicate_add]

structure Deed (done : Exchange → Bool) : Prop where
  select : ∀ e : Exchange, e.call.selects = true → done e = false
  lastError : ∀ e, AsksLastError e → done e = false

theorem creates_deed : Deed Exchange.creates where
  select e he := by
    obtain ⟨c, r⟩ := e
    cases c <;> first | rfl | exact absurd he (by simp [LvCall.selects])
  lastError e he := by
    obtain ⟨c, r⟩ := e
    rcases he with rfl | rfl <;> rfl

theorem deletes_deed : Deed Exchange.deletes where
  select e he := by
    obtain ⟨c, r⟩ := e
    cases c <;> first | rfl | exact absurd he (by simp [LvCall.selects])
  lastError e he := by
    obtain ⟨c, r⟩ := e
    rcases he with rfl | rfl <;> rfl

theorem Accounts.errored {done : Exchange → Bool} (hdone : Deed done) {val : JVal} {code : ℤ}
    {s s' : Session} (h : Accounts done val s) (he : Errored code s s') :
    Accounts done val s' := by
  obtain ⟨l, hl, hask⟩ := he.calls
  refine accounts_more (r := []) h hl (by rw [he.results, List.append_nil]) ?_
  have hzero : l.countP done = 0 := by
    rw [List.countP_eq_zero]
    intro e hmem
    simp [hdone.lastError e (hask e hmem)]
  rw [hzero]
  rfl

theorem accounts_kept {done : Exchange → Bool} (hdone : Deed done) (val : JVal) :
    KeptOutside (Accounts done val) where
  select s e he h := by
    refine accounts_more (l := [e]) (r := []) h rfl (List.append_nil _).symm ?_
    simp [hdone.select e he]
  error := errored_keeps fun _ _ _ h he => h.errored hdone he
  context _ _ _ _ h := h

/-- A result tells of every object that libvirt has made. -/
theorem Accounts.madeBy {s : Session} (h : Accounts Exchange.creates created s) {e : Exchange}
    {obj : Option Ptr} (he : e.creates = obj.isSome) :
    Accounts Exchange.creates created (s.madeBy e obj) := by
  cases obj with
  | none =>
    refine accounts_more (l := [e]) (r := []) h rfl (List.append_nil _).symm ?_
    simp [he]
  | some obj =>
    refine accounts_more (l := [e]) (r := [created]) h rfl rfl ?_
    simp [he]

theorem creations_errored (lv : Libvirt) (code : ℤ) (s : Session)
    (h : Accounts Exchange.creates created s) : Holds (error lv code) s
      (fun _ => Accounts Exchange.creates created) (fun _ _ => False) :=
  errored_keeps (fun _ _ _ h he => h.errored creates_deed he) lv code s h

def Reckons (obj : Option Ptr) (h : Log HandlerOp.Ret) : Prop :=
  loggedResults h = List.replicate ((exchanges obj h).countP Exchange.deletes) deleted

theorem vacuumWith_reckons {obj : Option Ptr} {undefine : Act Bool} {errc : ℤ}
    (hundefine : Spec undefine []
      (fun h ok => Quiet h ∧ (exchanges obj h).countP Exchange.deletes = if ok then 1 else 0)
      (fun _ _ => False)) :
    Spec (vacuumWith undefine errc) [] (fun h _ => Reckons obj h) (fun _ _ => False) := by
  unfold vacuumWith
  rw [spec_bind]
  refine hundefine.mono ?_ (fun _ _ hf => hf)
  rintro h ok ⟨hquiet, hcount⟩
  cases ok with
  | true =>
    refine spec_bind.mpr (spec_result.mpr ?_)
    rw [spec_pure, Reckons, loggedResults_snoc, hquiet, exchanges, List.filterMap_append,
      List.countP_append, ← exchanges, hcount]
    rfl
  | false =>
    refine spec_bind.mpr (spec_lastError.mpr fun libvirt => ?_)
    refine spec_bind.mpr (spec_message.mpr (spec_fail.mpr ?_))
    simp only [Reckons, loggedResults_snoc, exchanges, List.filterMap_append, List.countP_append]
    rw [hquiet, ← exchanges, hcount]
    rfl

theorem Domain.undefine_reckons (obj : Option Ptr) (flags : BitVec 32) :
    Spec (Domain.undefine flags) []
      (fun h ok => Quiet h ∧ (exchanges obj h).countP Exchange.deletes = if ok then 1 else 0)
      (fun _ _ => False) := by
  refine spec_bind.mpr (spec_domain.mpr fun r => spec_pure.mpr ⟨rfl, ?_⟩)
  exact List.countP_singleton

theorem Network.undefine_reckons (obj : Option Ptr) :
    Spec Network.undefine []
      (fun h ok => Quiet h ∧ (exchanges obj h).countP Exchange.deletes = if ok then 1 else 0)
      (fun _ _ => False) := by
  refine spec_bind.mpr (spec_network.mpr fun r => spec_pure.mpr ⟨rfl, ?_⟩)
  exact List.countP_singleton

theorem DomainHandlers.vacuum_reckons (obj : Option Ptr) (target : TargetParser) (jval : JVal) :
    Spec (DomainHandlers.vacuum target jval) [] (fun h _ => Reckons obj h) (fun _ _ => False) := by
  unfold DomainHandlers.vacuum
  split
  · exact spec_fail.mpr rfl
  · exact vacuumWith_reckons (Domain.undefine_reckons obj _)

theorem NetworkHandlers.vacuum_reckons (obj : Option Ptr) (jval : JVal) :
    Spec (NetworkHandlers.vacuum jval) [] (fun h _ => Reckons obj h) (fun _ _ => False) :=
  vacuumWith_reckons (Network.undefine_reckons obj)

theorem onObject_of_deletes {e : Exchange} (h : e.deletes = true) : e.onObject = true := by
  obtain ⟨c, r⟩ := e
  cases c <;> first | rfl | exact absurd h (by simp [Exchange.deletes])

/-- The calls of a handler that count are those on its object. -/
theorem Records.accounts {s s' : Session} {h : Log HandlerOp.Ret} (hr : Records s h s')
    (hh : Reckons s.obj h) (hs : Accounts Exchange.deletes deleted s) :
    Accounts Exchange.deletes deleted s' := by
  obtain ⟨l, hl, hfilter, _⟩ := hr.1.calls
  refine accounts_more hs hl hr.2 ?_
  rw [hh, ← hfilter, List.countP_filter]
  congr 1
  apply List.countP_congr
  intro e _
  constructor
  · intro hdone
    rw [Bool.and_eq_true] at hdone
    exact hdone.1
  · intro hdone
    rw [hdone, onObject_of_deletes hdone]
    rfl

/-- The results of the response that the session `s` of a request with this method is about. -/
def ResultsTold (s : Session) : Option Method → Prop
  | some .create => Accounts Exchange.creates created s
  | some .vacuum => Accounts Exchange.deletes deleted s
  | some .query => s.res.results.length = s.outcomes.count .success
  | _ => s.res.results = []

section Request

variable {lib : Rapidjson} {lv : Libvirt} {config : IniConfig} {req : Request}
  {target : TargetParser}

theorem reports_kept : KeptOutside fun s => s.res.results.length = s.outcomes.count .success where
  select _ _ _ h := h
  error := errored_keeps fun _ _ _ h he => by rw [he.results, he.same.outcomes, h]
  context _ _ _ _ h := h

theorem noResults_kept : KeptOutside fun s => s.res.results = [] where
  select _ _ _ h := h
  error := errored_keeps fun _ _ _ h he => by rw [he.results, h]
  context _ _ _ _ h := h

/-- A handler that reports, run. -/
theorem OneResult.run {p : Act DependsOutcome} (hp : OneResult p) (lv : Libvirt) {s : Session}
    (h : s.res.results.length = s.outcomes.count .success) : Holds (p.run lv) s
      (fun o s' => s'.res.results.length = (s'.outcomes ++ [o]).count .success)
      (fun _ s' => s'.res.results.length = s'.outcomes.count .success) := by
  refine (Act.run_records (hp [] quiet_nil) lv s).mono ?_ ?_
  · rintro o s' ⟨log, hr, hlog⟩
    rw [hr.2, hr.1.same.outcomes, List.length_append, h, hlog, List.count_append,
      List.count_singleton]
    cases o <;> rfl
  · rintro _ s' ⟨log, hr, hlog⟩
    rw [hr.2, hr.1.same.outcomes, hlog, List.append_nil, h]

/-- A handler that records no result, run. -/
theorem noResult_run {p : Act DependsOutcome} (hp : p.Asks NoResult) (lv : Libvirt) {s : Session}
    (h : s.res.results = []) : Holds (p.run lv) s (fun _ s' => s'.res.results = [])
      (fun _ s' => s'.res.results = []) := by
  refine (Act.run_records (noResult_spec hp quiet_nil) lv s).mono ?_ ?_
  all_goals
    rintro _ s' ⟨log, hr, hlog⟩
    rw [hr.2, h, hlog]
    rfl

theorem methodsKeep_results (idx : Method) (hidx : verbToIdx req.method = some idx) :
    MethodsKeep lv req target (ResultsTold · (some idx)) := by
  intro key sub conn idx' hsub hidx' jval s h
  obtain rfl : idx' = idx := Option.some.inj (hidx'.symm.trans hidx)
  rcases subsystems_cases hsub with ⟨_, rfl⟩ | ⟨_, rfl⟩
  · cases idx' with
    | create =>
      exact DomainHandlers.create_keeps (creations_errored lv) (fun _ _ _ h => h.madeBy rfl) jval h
    | query => exact (DomainHandlers.query_oneResult target jval).run lv h
    | alter =>
      exact noResult_run ((DomainHandlers.alter_allowed jval).mono fun _ ho => ho.2.1) lv h
    | vacuum =>
      refine (Act.run_records (DomainHandlers.vacuum_reckons s.obj target jval) lv s).mono ?_ ?_
      · rintro _ s' ⟨log, hr, hlog⟩
        exact hr.accounts hlog h
      · rintro _ s' ⟨_, _, hf⟩
        exact hf.elim
  · cases idx' with
    | create =>
      exact NetworkHandlers.create_keeps (creations_errored lv) (fun _ _ _ h => h.madeBy rfl) jval h
    | query => exact (NetworkHandlers.query_oneResult target jval).run lv h
    | alter => exact noResult_run (NetworkHandlers.alter_allowed noResult_lenient jval) lv h
    | vacuum =>
      refine (Act.run_records (NetworkHandlers.vacuum_reckons s.obj jval) lv s).mono ?_ ?_
      · rintro _ s' ⟨log, hr, hlog⟩
        exact hr.accounts hlog h
      · rintro _ s' ⟨_, _, hf⟩
        exact hf.elim

theorem resultsTold_kept : ∀ idx, KeptOutside (ResultsTold · idx)
  | some .create => accounts_kept creates_deed created
  | some .vacuum => accounts_kept deletes_deed deleted
  | some .query => reports_kept
  | some .alter => noResults_kept
  | none => noResults_kept

theorem resultsTold_init : ∀ idx, ResultsTold Session.init idx
  | some .create => rfl
  | some .vacuum => rfl
  | some .query => rfl
  | some .alter => rfl
  | none => rfl

/-- However libvirt answers and however the request ends, its response reports every object that
was created or deleted by it, once each; a query reports one result for each handler that has
succeeded, and an alteration reports none. -/
theorem response_results (lib : Rapidjson) (lv : Libvirt) (config : IniConfig) (req : Request)
    (target : TargetParser) :
    ResultsTold (handleJson lib lv config req target).2 (verbToIdx req.method) := by
  have hkept := resultsTold_kept (verbToIdx req.method)
  have hinit := resultsTold_init (verbToIdx req.method)
  refine handleJson_keeps (I := (ResultsTold · (verbToIdx req.method))) hkept hinit ?_
  intro key sub conn idx hsub hidx
  rw [hidx]
  exact methodsKeep_results idx hidx key sub conn idx hsub hidx

end Request

end Virthttp
