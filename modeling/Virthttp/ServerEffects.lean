import Virthttp.Authentication
import Virthttp.LibvirtCalls
import Virthttp.ServerResults

namespace Virthttp

variable {libs : Libraries} {config : IniConfig} {sv sv' : Server} {ev : ServerEvent}

def WasRead (es : List ServerEvent) (req : Request) : Prop :=
  ∃ i sent calls stored, .received i req sent calls stored ∈ es

/-- The calls are those of one run of `handle_json`, for a request with the key. -/
structure CausedBy (libs : Libraries) (config : IniConfig) (req : Request)
    (calls : List Exchange) : Prop where
  carriesKey : ¬Unauthenticated config req
  run : ∃ target lv, (routeOf req = .json target ∨ routeOf req = .launch target) ∧
    calls = (handleJson libs.rapidjson lv config req target).2.calls

theorem CausedBy.proper {req : Request} {calls : List Exchange}
    (h : CausedBy libs config req calls) :
    ProperCalls config (verbToIdx req.method) calls := by
  obtain ⟨target, lv, _, rfl⟩ := h.run
  exact handleJson_proper libs.rapidjson lv config req target

/-- A run of `handle_json` calls nothing unless the request carries the key. -/
theorem handleJson_caused {req : Request} {target : TargetParser}
    (hroute : routeOf req = .json target ∨ routeOf req = .launch target) (lv : Libvirt) :
    (handleJson libs.rapidjson lv config req target).2.calls = [] ∨
      CausedBy libs config req (handleJson libs.rapidjson lv config req target).2.calls := by
  by_cases hkey : Unauthenticated config req
  · refine Or.inl ?_
    rw [handleJson_unauthenticated hkey]
    rfl
  · exact Or.inr ⟨hkey, target, lv, hroute, rfl⟩

theorem handleRequest_calls {gstore : GeneralStore} {req : Request} (lv : Libvirt)
    (canSpawn : Bool) : (handleRequest libs lv canSpawn gstore req).calls = [] ∨
      ∃ target, routeOf req = .json target ∧ (handleRequest libs lv canSpawn gstore req).calls =
        (handleJson libs.rapidjson lv gstore.config req target).2.calls := by
  cases hroute : routeOf req with
  | head | refused why =>
    rw [handleRequest, hroute]
    exact Or.inl rfl
  | retrieve strId =>
    rw [handleRequest, hroute]
    refine Or.inl ?_
    simp only [serveRetrieve]
    split <;> rfl
  | launch target =>
    rw [handleRequest, hroute]
    refine Or.inl ?_
    simp only [serveLaunch]
    split <;> rfl
  | json target =>
    rw [handleRequest, hroute]
    refine Or.inr ⟨target, rfl, ?_⟩
    simp only [serveJson]
    generalize handleJson libs.rapidjson lv gstore.config req target = run
    rcases run with ⟨(x | _) | ⟨⟩, s⟩ <;> rfl

/-- A turn calls nothing but for a request that has been read. -/
theorem turn_caused {es : List ServerEvent} (hrecorded : Recorded libs config es sv)
    (h : ServerTurn libs config sv ev sv') :
    ev.calls = [] ∨ ∃ req, WasRead (es ++ [ev]) req ∧ CausedBy libs config req ev.calls := by
  have hworker {t : ℕ} {task : Task 32 Job} {lv : Libvirt}
      (ht : sv.asyncStore.tasks[t]? = some task) : workerCalls libs lv config task.fcn = [] ∨
        ∃ req, WasRead (es ++ [ev]) req ∧
          CausedBy libs config req (workerCalls libs lv config task.fcn) := by
    have hstarted : sv.asyncStore.started t = some (task.id, task.fcn) := by
      simp [Runtime.started, ht]
    obtain ⟨i, _, ⟨hroute, hmem⟩, _⟩ := hrecorded.workers t task.id task.fcn hstarted
    refine (@handleJson_caused libs config _ _ (Or.inr hroute) lv).imp id fun hcaused => ?_
    exact ⟨task.fcn.req, ⟨i, [], [], _, List.mem_append_left _ hmem⟩, hcaused⟩
  cases h with
  | answered i req lv served _ _ hserved =>
    subst hserved
    rcases @handleRequest_calls libs ⟨config, sv.asyncStore⟩ req lv true with
      hnil | ⟨target, hroute, hcalls⟩
    · exact Or.inl hnil
    · simp only [ServerEvent.calls]
      rw [hcalls]
      refine (handleJson_caused (Or.inl hroute) lv).imp id fun hcaused => ⟨req, ?_, hcaused⟩
      exact ⟨i, _, _, _, List.mem_append_right _ (List.mem_singleton_self _)⟩
  | computed t task lv r rt ht _ _ => exact hworker ht
  | workerAborted t task lv ht _ _ => exact hworker ht
  | _ => exact Or.inl rfl

theorem serverRun_caused {as : List ServerAction} {es : List ServerEvent}
    (h : serverRun libs config as = some (es, sv)) :
    ∀ ev ∈ es, ev.calls = [] ∨ ∃ req, WasRead es req ∧ CausedBy libs config req ev.calls := by
  have hall : Recorded libs config es sv ∧ ∀ ev ∈ es, ev.calls = [] ∨
      ∃ req, WasRead es req ∧ CausedBy libs config req ev.calls := by
    refine Runs.exec_invariant_nil (I := fun es sv => Recorded libs config es sv ∧ ∀ ev ∈ es,
      ev.calls = [] ∨ ∃ req, WasRead es req ∧ CausedBy libs config req ev.calls) ?_
      ⟨.empty, by simp⟩ h
    rintro es sv a ev sv' ⟨hrecorded, hI⟩ hstep
    have hturn := (turn_cases hstep).2
    refine ⟨hrecorded.turn hturn, fun ev' hmem => ?_⟩
    rcases List.mem_append.mp hmem with hmem | hmem
    · refine (hI ev' hmem).imp id ?_
      rintro ⟨req, ⟨i, sent, calls, stored, hread⟩, hcaused⟩
      exact ⟨req, ⟨i, sent, calls, stored, List.mem_append_left _ hread⟩, hcaused⟩
    · rw [List.mem_singleton.mp hmem]
      exact turn_caused hrecorded hturn
  exact hall.2

/-- Everything that a run of the server asks of libvirt, at once or in a worker, is asked for one
request that a connection has read and that carries the key: on one connection that is opened
first, on objects that libvirt gave out for that request, and within what its method permits. -/
theorem server_calls_authorized (libs : Libraries) (config : IniConfig) (as : List ServerAction)
    (es : List ServerEvent) (sv : Server) (h : serverRun libs config as = some (es, sv)) :
    ∀ ev ∈ es, ev.calls ≠ [] → ∃ req, WasRead es req ∧ ¬Unauthenticated config req ∧
      ProperCalls config (verbToIdx req.method) ev.calls := by
  intro ev hev hne
  obtain ⟨req, hread, hcaused⟩ := (serverRun_caused h ev hev).resolve_left hne
  exact ⟨req, hread, hcaused.carriesKey, hcaused.proper⟩

theorem server_calls_authorized_one :
    ∃ es sv, launchAndTake = some (es, sv) ∧ es.any (fun ev => !ev.calls.isEmpty) = true ∧
      ∀ ev ∈ es, ev.calls ≠ [] → ∃ req, WasRead es req ∧ ¬Unauthenticated openConfig req ∧
        ProperCalls openConfig (verbToIdx req.method) ev.calls := by
  refine ⟨?es, ?sv, ?hrun, ?_, server_calls_authorized plainLibs openConfig _ ?es ?sv ?hrun⟩
  case hrun => rfl
  rfl

def LvCall.onlyReads : LvCall → Bool
  | .domainCreateXML _ _ | .networkCreateXML _ _ => false
  | .domain _ c => c.onlyReads
  | .network _ c => c.onlyReads
  | _ => true

theorem permits_onlyReads {idx : Option Method} (hidx : idx = none ∨ idx = some .query)
    {c : LvCall} (h : permits idx c = true) : c.onlyReads = true := by
  rcases hidx with rfl | rfl
  · cases c <;> simp_all [permits, LvCall.onlyReads]
  · cases c <;> simp_all [permits, LvCall.onlyReads, Method.onDomain, Method.onNetwork]

/-- However many requests come in, and in whatever order the workers are run: if none of those with
the key is a `POST`, a `PATCH` or a `DELETE`, nothing is ever changed in libvirt. -/
theorem readers_change_nothing (libs : Libraries) (config : IniConfig) (as : List ServerAction)
    (es : List ServerEvent) (sv : Server) (h : serverRun libs config as = some (es, sv))
    (hreads : ∀ req, WasRead es req → ¬Unauthenticated config req →
      req.method ∉ [.post, .patch, .delete]) :
    ∀ ev ∈ es, ∀ e ∈ ev.calls, e.call.onlyReads = true := by
  intro ev hev e he
  obtain ⟨req, hread, hcaused⟩ :=
    (serverRun_caused h ev hev).resolve_left (List.ne_nil_of_mem he)
  have hmethod := hreads req hread hcaused.carriesKey
  have hidx : verbToIdx req.method = none ∨ verbToIdx req.method = some .query := by
    cases hverb : req.method <;> simp_all [verbToIdx]
  rcases hcaused.proper.opened with hnil | ⟨conn, rest, hcalls, hrest⟩
  · rw [hnil] at he
    contradiction
  · rw [hcalls] at he
    rcases List.mem_cons.mp he with rfl | he
    · rfl
    · exact permits_onlyReads hidx (hrest e he)

theorem readers_change_nothing_one :
    ∃ es sv, serverRun plainLibs openConfig [.accept true,
        .read 0 (.request ⟨.get, lit "/libvirt/domains/by-name/vm", 11, [], []⟩) obliging] =
          some (es, sv) ∧
      es.any (fun ev => !ev.calls.isEmpty) = true ∧
      ∀ ev ∈ es, ∀ e ∈ ev.calls, e.call.onlyReads = true := by
  refine ⟨?es, ?sv, ?hrun, ?_, readers_change_nothing plainLibs openConfig _ ?es ?sv ?hrun ?_⟩
  case hrun => rfl
  · rfl
  · rintro req ⟨i, sent, calls, stored, hmem⟩ _
    simp only [List.mem_cons, List.not_mem_nil, or_false] at hmem
    rcases hmem with heq | heq <;> cases heq
    decide

end Virthttp
