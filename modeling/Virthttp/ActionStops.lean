import Virthttp.HandlerRuns
import Virthttp.PowerManagement
import Virthttp.Relational

namespace Virthttp

open Program Interaction

/-- A value that is no text comes before the first text that names no flag, where reading ends. -/
def readsNonText (values : List String) : List JVal → Bool
  | [] => false
  | x :: xs =>
    match x.asString with
    | none => true
    | some name => (enumSetFromString values name).isSome && readsNonText values xs

def PmNeed.answered (lv : Libvirt) (calls : List Exchange) (obj : Option Ptr) (need : PmNeed) :
    Bool :=
  let info : DomainInfo := lv calls (.domain obj .getInfo)
  let active : ℤ := lv (calls ++ [⟨.domain obj .getInfo, info⟩]) (.domain obj .isActive)
  match need with
  | .running => info.state == State.RUNNING
  | .paused => info.state == State.PAUSED
  | .active => active != 0
  | .inactive => active == 0

/-- The names of the flags that the type of a request is read against. -/
def flagsRead (lv : Libvirt) (calls : List Exchange) (obj : Option Ptr) (pmReq : Str) :
    Option (List String) := do
  let need ← namedCall pmNeeds pmReq
  let pm ← namedCall pmCalls pmReq
  let flagged ← pm.flagged
  if need.answered lv calls obj then some flagged.1 else none

def typeStops (values : List String) : Option JVal → Bool
  | some (.array xs) => readsNonText values xs
  | _ => false

def powerMgtStops (lv : Libvirt) (calls : List Exchange) (obj : Option Ptr) : JVal → Bool
  | .object ms =>
    match JVal.findMember ms (lit "request") with
    | none => false
    | some req =>
      match req.asString with
      | none => true
      | some pmReq =>
        (flagsRead lv calls obj (cstr pmReq)).any fun values =>
          typeStops values (JVal.findMember ms (lit "type"))
  | _ => false

/-- The action is no object with a member, or stops power management; `calls` are the calls that
libvirt has answered before it. -/
def alterStops (lv : Libvirt) (calls : List Exchange) (obj : Option Ptr) (key : Str) :
    JVal → Bool
  | .object ((name, val) :: _) =>
    decide (key = lit "domains" ∧ name = lit "power_mgt") && powerMgtStops lv calls obj val
  | _ => true

section Returning

variable {α β : Type} {lv : Libvirt} {s : Session}

theorem returns_pure (a : α) : Returns (pure a) := fun _ => spec_pure.mpr trivial

theorem Returns.bind {p : Act α} {f : α → Act β} (hp : Returns p) (hf : ∀ a, Returns (f a)) :
    Returns (p >>= f) := by
  intro h
  rw [spec_bind]
  exact (hp h).mono (fun h' a _ => hf a h') (fun _ _ hE => hE)

theorem returns_fail (code : ℤ) : Returns (Act.fail code) := fun _ => spec_fail.mpr trivial

theorem not_stops_of_spec {p : Act α} {Q : Log HandlerOp.Ret → α → Prop}
    (hp : Spec p [] Q (fun _ _ => False)) : ¬Stops (p.run lv) s := by
  refine ((Act.run_holds hp lv s).mono (fun _ _ h => h) ?_).not_stops
  rintro _ _ ⟨_, _, _, hf⟩
  exact hf

theorem Returns.not_stops {p : Act α} (hp : Returns p) : ¬Stops (p.run lv) s :=
  not_stops_of_spec (hp [])

theorem run_bind (p : Act α) (f : α → Act β) :
    (p >>= f).run lv = p.run lv >>= fun a => (f a).run lv := play_bind p f

/-- What comes after a program decides nothing where it always returns. -/
theorem stops_run_bind {p : Act α} {f : α → Act β} (hf : ∀ a, Returns (f a)) :
    Stops ((p >>= f).run lv) s ↔ Stops (p.run lv) s := by
  rw [run_bind, stops_bind]
  constructor
  · rintro (hstop | ⟨a, s', -, hrest⟩)
    · exact hstop
    · exact absurd hrest (hf a).not_stops
  · exact Or.inl

theorem stops_run_bind_ok {p : Act α} {f : α → Act β} {a : α} {s' : Session}
    (h : p.run lv s = (.ok a, s')) : Stops ((p >>= f).run lv) s ↔ Stops ((f a).run lv) s' := by
  rw [run_bind, stops_bind_ok h]

theorem stops_run_abort : Stops ((Act.abort : Act α).run lv) s := ⟨.aborted, s, rfl⟩

end Returning

namespace DomainActions

theorem getCombinedFlagsFrom_abort {values : List String} {xs : List JVal}
    (h : readsNonText values xs = true) (flagset : BitVec 32) :
    Act.getCombinedFlagsFrom values flagset xs = Act.abort := by
  induction xs generalizing flagset with
  | nil => cases h
  | cons x xs ih =>
    rw [readsNonText] at h
    rw [Act.getCombinedFlagsFrom, Act.getFlag]
    cases hname : x.asString with
    | none => rfl
    | some name =>
      simp only [hname, Bool.and_eq_true] at h
      obtain ⟨v, hv⟩ := Option.isSome_iff_exists.mp h.1
      simp only [Act.require, ret_bind, hv]
      exact ih h.2 _

theorem getCombinedFlagsFrom_returns {values : List String} {xs : List JVal}
    (h : readsNonText values xs = false) (flagset : BitVec 32) :
    Returns (Act.getCombinedFlagsFrom values flagset xs) := by
  induction xs generalizing flagset with
  | nil => exact returns_pure _
  | cons x xs ih =>
    rw [readsNonText] at h
    rw [Act.getCombinedFlagsFrom, Act.getFlag]
    cases hname : x.asString with
    | none => simp [hname] at h
    | some name =>
      simp only [hname, Bool.and_eq_false_iff] at h
      cases hv : enumSetFromString values name with
      | none =>
        simp only [Act.require, ret_bind, hv]
        exact fun _ => spec_bind.mpr (spec_bind.mpr (spec_error.mpr (spec_pure.mpr trivial)))
      | some v =>
        simp only [Act.require, ret_bind, hv]
        exact ih (h.resolve_left (by simp [hv])) _

theorem getCombinedFlags_abort {values : List String} {jsonFlag : JVal}
    (h : typeStops values (some jsonFlag) = true) :
    Act.getCombinedFlags values jsonFlag = Act.abort := by
  cases jsonFlag with
  | array xs => exact getCombinedFlagsFrom_abort h 0
  | _ => cases h

theorem getCombinedFlags_returns {values : List String} {jsonFlag : JVal}
    (h : typeStops values (some jsonFlag) = false) :
    Returns (Act.getCombinedFlags values jsonFlag) := by
  cases jsonFlag with
  | array xs => exact getCombinedFlagsFrom_returns h 0
  | string s =>
    rw [Act.getCombinedFlags, Act.getFlag]
    simp only [JVal.asString, Act.require, ret_bind]
    split
    · exact returns_pure _
    · exact fun _ => spec_bind.mpr (spec_error.mpr trivial)
  | _ => exact returns_pure _

theorem pmHdl_other {pmReq : Str} {jsonFlag : Option JVal} {reqTag : String}
    {flags : Option PmFlags} {memFcn : Act Bool} {errc : ℤ} {pmMsg : String}
    {prereqs : Act DependsOutcome} (h : pmReq ≠ lit reqTag) :
    pmHdl pmReq jsonFlag reqTag flags memFcn errc pmMsg prereqs = pure .skipped := if_neg h

theorem pmReply_returns {reqTag pmMsg : String} {errc : ℤ} {memFcn : Act Bool}
    (hmem : Returns memFcn) : Returns (pmReply reqTag errc pmMsg memFcn) := by
  unfold pmReply
  refine hmem.bind fun ok => ?_
  split
  · exact fun _ => spec_bind.mpr (spec_message.mpr (spec_pure.mpr trivial))
  · exact returns_fail errc

theorem pmPrereq_returns {bad : Act Bool} (hbad : Returns bad) (code : ℤ) :
    Returns (pmPrereq bad code) := by
  unfold pmPrereq
  refine hbad.bind fun b => ?_
  split
  · exact returns_fail code
  · exact returns_pure _

/-- A request without flags of its own returns. -/
theorem pmHdl_returns {pmReq : Str} {jsonFlag : Option JVal} {reqTag : String}
    {memFcn : Act Bool} {errc : ℤ} {pmMsg : String} {prereqs : Act DependsOutcome}
    (hmem : Returns memFcn) (hpre : Returns prereqs) :
    Returns (pmHdl pmReq jsonFlag reqTag none memFcn errc pmMsg prereqs) := by
  unfold pmHdl
  split
  · refine hpre.bind fun pre => ?_
    split
    · exact returns_pure _
    · cases jsonFlag with
      | none => exact pmReply_returns hmem
      | some jsonFlag => exact returns_fail 301
  · exact returns_pure _

/-- A request with flags stops where its prerequisite is met and its type stops. -/
theorem stops_pmHdl {lv : Libvirt} {s s' : Session} {jsonFlag : Option JVal} {reqTag : String}
    {f : PmFlags} {memFcn : Act Bool} {errc : ℤ} {pmMsg : String} {bad : Act Bool} {code : ℤ}
    {b : Bool} (hbad : bad.run lv s = (.ok b, s')) (hmem : Returns memFcn)
    (hflags : ∀ b, Returns (f.memFcn b)) :
    Stops ((pmHdl (lit reqTag) jsonFlag reqTag (some f) memFcn errc pmMsg
      (pmPrereq bad code)).run lv) s ↔ b = false ∧ typeStops f.values jsonFlag = true := by
  have hpre : ∃ s'', (pmPrereq bad code).run lv s =
      (.ok (if b then .failure else .success), s'') := by
    unfold pmPrereq
    rw [run_bind, bind_run_ok hbad]
    cases b with
    | false => exact ⟨s', rfl⟩
    | true =>
      obtain ⟨s'', hfail, -⟩ := fail_run lv code s'
      exact ⟨s'', hfail⟩
  obtain ⟨s'', hpre⟩ := hpre
  unfold pmHdl
  rw [if_pos rfl, stops_run_bind_ok hpre]
  cases b with
  | true => exact iff_of_false (returns_pure _).not_stops (by simp)
  | false =>
    cases jsonFlag with
    | none => exact iff_of_false (pmReply_returns hmem).not_stops (by simp [typeStops])
    | some jsonFlag =>
      cases htype : typeStops f.values (some jsonFlag) with
      | true =>
        simp only [getCombinedFlags_abort htype]
        exact iff_of_true stops_run_abort (by simp)
      | false =>
        refine iff_of_false (Returns.not_stops ?_) (by simp)
        refine (getCombinedFlags_returns htype).bind fun flagset => ?_
        cases flagset with
        | none => exact returns_pure _
        | some flagset => exact pmReply_returns (hflags flagset)

theorem returns_actionScope {actions : List (Act DependsOutcome)}
    (hactions : ∀ a ∈ actions, Returns a) : Returns (actionScope actions) := by
  induction actions with
  | nil => exact returns_pure _
  | cons a actions ih =>
    obtain ⟨ha, hrest⟩ := List.forall_mem_cons.mp hactions
    refine ha.bind fun ao => ?_
    split
    · exact returns_pure _
    · exact ih hrest

/-- The first action of a scope decides whether it stops, where the others always return. -/
theorem stops_actionScope {lv : Libvirt} {s : Session} {action : Act DependsOutcome}
    {actions : List (Act DependsOutcome)} (hactions : ∀ a ∈ actions, Returns a) :
    Stops ((actionScope (action :: actions)).run lv) s ↔ Stops (action.run lv) s := by
  refine stops_run_bind fun ao => ?_
  split
  · exact returns_pure _
  · exact returns_actionScope hactions

theorem actionScope_skipped (actions : List (Act DependsOutcome)) :
    actionScope (pure .skipped :: actions) = actionScope actions := rfl

theorem getInfo_run (lv : Libvirt) (s : Session) : Domain.getInfo.run lv s =
    (.ok (lv s.calls (.domain s.obj .getInfo)),
      s.asked ⟨.domain s.obj .getInfo, lv s.calls (.domain s.obj .getInfo)⟩) := rfl

theorem isActive_run (lv : Libvirt) (s : Session) : Domain.isActive.run lv s =
    (.ok ((lv s.calls (.domain s.obj .isActive) : ℤ) != 0),
      s.asked ⟨.domain s.obj .isActive, lv s.calls (.domain s.obj .isActive)⟩) := rfl

theorem inactive_run (lv : Libvirt) (s : Session) :
    Act.run lv (do return !(← Domain.isActive)) s =
      (.ok (!((lv s.calls (.domain s.obj .isActive) : ℤ) != 0)),
        s.asked ⟨.domain s.obj .isActive, lv s.calls (.domain s.obj .isActive)⟩) := rfl

theorem flagsRead_flagged {lv : Libvirt} {calls : List Exchange} {obj : Option Ptr} {pmReq : Str}
    {need : PmNeed} {pm : PmCalls} {values : List String} {withFlags : BitVec 32 → DomainCall}
    (hneed : namedCall pmNeeds pmReq = some need) (hpm : namedCall pmCalls pmReq = some pm)
    (hflagged : pm.flagged = some (values, withFlags)) {jsonFlag : Option JVal} :
    (∃ values, flagsRead lv calls obj pmReq = some values ∧ typeStops values jsonFlag = true) ↔
      need.answered lv calls obj = true ∧ typeStops values jsonFlag = true := by
  have hread : flagsRead lv calls obj pmReq =
      if need.answered lv calls obj then some values else none := by
    simp [flagsRead, hneed, hpm, hflagged]
  rw [hread]
  by_cases hanswered : need.answered lv calls obj = true
  · simp [hanswered]
  · simp [hanswered]

theorem flagsRead_other {lv : Libvirt} {calls : List Exchange} {obj : Option Ptr} {pmReq : Str}
    (hshutdown : pmReq ≠ lit "shutdown") (hdestroy : pmReq ≠ lit "destroy")
    (hstart : pmReq ≠ lit "start") (hreboot : pmReq ≠ lit "reboot") :
    flagsRead lv calls obj pmReq = none := by
  have hflagged (pm : PmCalls) (hpm : namedCall pmCalls pmReq = some pm) : pm.flagged = none := by
    obtain ⟨n, hmem, rfl⟩ := namedCall_mem hpm
    simp only [pmCalls, List.mem_cons, Prod.mk.injEq, List.not_mem_nil, or_false] at hmem
    rcases hmem with ⟨rfl, rfl⟩ | ⟨rfl, rfl⟩ | ⟨rfl, rfl⟩ | ⟨rfl, rfl⟩ | ⟨rfl, rfl⟩ | ⟨rfl, rfl⟩ |
      ⟨rfl, rfl⟩
    · exact absurd rfl hshutdown
    · exact absurd rfl hdestroy
    · exact absurd rfl hstart
    · exact absurd rfl hreboot
    · rfl
    · rfl
    · rfl
  unfold flagsRead
  cases namedCall pmNeeds pmReq with
  | none => rfl
  | some need =>
    cases hpm : namedCall pmCalls pmReq with
    | none => rfl
    | some pm => simp [hflagged pm hpm]

theorem pmHdl_other_returns {pmReq : Str} {jsonFlag : Option JVal} {reqTag : String}
    {flags : Option PmFlags} {memFcn : Act Bool} {errc : ℤ} {pmMsg : String}
    {prereqs : Act DependsOutcome} (h : pmReq ≠ lit reqTag) :
    Returns (pmHdl pmReq jsonFlag reqTag flags memFcn errc pmMsg prereqs) := by
  rw [pmHdl_other h]
  exact returns_pure _

/-- The request in front has flags, and the ones behind it are others. -/
theorem stops_flagged {lv : Libvirt} {s s' : Session} {calls : List Exchange} {obj : Option Ptr}
    {jsonFlag : Option JVal} {reqTag : String} {f : PmFlags} {memFcn : Act Bool} {errc : ℤ}
    {pmMsg : String} {bad : Act Bool} {code : ℤ} {b : Bool} {actions : List (Act DependsOutcome)}
    {need : PmNeed} {pm : PmCalls} {withFlags : BitVec 32 → DomainCall}
    (hneed : namedCall pmNeeds (lit reqTag) = some need)
    (hpm : namedCall pmCalls (lit reqTag) = some pm)
    (hflagged : pm.flagged = some (f.values, withFlags)) (hbad : bad.run lv s = (.ok b, s'))
    (hanswered : need.answered lv calls obj = !b) (hmem : Returns memFcn)
    (hflags : ∀ b, Returns (f.memFcn b)) (hactions : ∀ a ∈ actions, Returns a) :
    Stops ((actionScope (pmHdl (lit reqTag) jsonFlag reqTag (some f) memFcn errc pmMsg
      (pmPrereq bad code) :: actions)).run lv) s ↔
        ∃ values, flagsRead lv calls obj (lit reqTag) = some values ∧
          typeStops values jsonFlag = true := by
  rw [stops_actionScope hactions, stops_pmHdl hbad hmem hflags,
    flagsRead_flagged hneed hpm hflagged, hanswered, Bool.not_eq_true']

/-- A request stops where its flags are read and its type stops. -/
theorem stops_pmRequest (lv : Libvirt) (s : Session) (pmReq : Str) (jsonFlag : Option JVal) :
    Stops ((pmRequest pmReq jsonFlag).run lv) s ↔
      ∃ values, flagsRead lv s.calls s.obj pmReq = some values ∧
        typeStops values jsonFlag = true := by
  unfold pmRequest
  rw [stops_run_bind_ok (getInfo_run lv s)]
  dsimp only
  by_cases hshutdown : pmReq = lit "shutdown"
  · subst hshutdown
    refine stops_flagged rfl rfl rfl rfl (by simp [PmNeed.answered, bne])
      (returns_call .shutdown _) (fun b => returns_call (.shutdownFlags b) _) ?_
    simp (disch := decide) [pmHdl_other_returns, returns_fail]
  rw [pmHdl_other hshutdown, actionScope_skipped]
  by_cases hdestroy : pmReq = lit "destroy"
  · subst hdestroy
    refine stops_flagged rfl rfl rfl (inactive_run lv _)
      (by simp [PmNeed.answered, Session.asked]) (returns_call .destroy _)
      (fun b => returns_call (.destroyFlags b) _) ?_
    simp (disch := decide) [pmHdl_other_returns, returns_fail]
  rw [pmHdl_other hdestroy, actionScope_skipped]
  by_cases hstart : pmReq = lit "start"
  · subst hstart
    refine stops_flagged rfl rfl rfl (isActive_run lv _)
      (by simp [PmNeed.answered, Session.asked, bne]) (returns_call .create _)
      (fun b => returns_call (.createWithFlags b) _) ?_
    simp (disch := decide) [pmHdl_other_returns, returns_fail]
  rw [pmHdl_other hstart, actionScope_skipped]
  by_cases hreboot : pmReq = lit "reboot"
  · subst hreboot
    refine stops_flagged rfl rfl rfl rfl (by simp [PmNeed.answered, bne])
      (returns_call (.reboot 0) _) (fun b => returns_call (.reboot b) _) ?_
    simp (disch := decide) [pmHdl_other_returns, returns_fail]
  rw [pmHdl_other hreboot, actionScope_skipped,
    flagsRead_other hshutdown hdestroy hstart hreboot]
  refine iff_of_false (Returns.not_stops (returns_actionScope ?_)) (by simp)
  have hinactive : Returns (do return !(← Domain.isActive)) :=
    (returns_call .isActive _).bind fun _ => returns_pure _
  simp only [List.forall_mem_cons, List.not_mem_nil, false_imp_iff, implies_true, and_true]
  refine ⟨?_, ?_, ?_, returns_fail 300⟩
  · exact pmHdl_returns (returns_call .reset _) (pmPrereq_returns hinactive 210)
  · exact pmHdl_returns (returns_call .suspend _) (pmPrereq_returns (returns_pure _) 201)
  · exact pmHdl_returns (returns_call .resume _) (pmPrereq_returns (returns_pure _) 211)

theorem stops_powerMgt (lv : Libvirt) (s : Session) (val : JVal) :
    Stops ((powerMgt val).run lv) s ↔ powerMgtStops lv s.calls s.obj val = true := by
  cases val with
  | string pmReq =>
    refine iff_of_false ?_ (by simp [powerMgtStops])
    change ¬Stops ((pmRequest (cstr pmReq) none).run lv) s
    rw [stops_pmRequest]
    simp [typeStops]
  | object ms =>
    rw [powerMgt, powerMgtStops]
    cases hreq : JVal.findMember ms (lit "request") with
    | none => exact iff_of_false (returns_fail 300).not_stops (by simp)
    | some req =>
      cases htext : req.asString with
      | none =>
        refine iff_of_true ?_ (by simp [htext])
        simp only [htext]
        exact stops_run_abort
      | some pmReq =>
        simp only [htext, Act.require, ret_bind]
        rw [stops_pmRequest, Option.any_eq_true]
  | _ => exact iff_of_false (returns_fail 300).not_stops (by simp [powerMgtStops])

end DomainActions

/-- Every other entry of the table returns. -/
theorem not_stops_table {name : Str} {hdl : JVal → Act DependsOutcome}
    (h : namedCall DomainActions.table name = some hdl) (hname : name ≠ lit "power_mgt")
    (lv : Libvirt) (s : Session) (val : JVal) : ¬Stops ((hdl val).run lv) s := by
  obtain ⟨n, hmem, rfl⟩ := namedCall_mem h
  simp only [DomainActions.table, List.mem_cons, Prod.mk.injEq, List.not_mem_nil, or_false] at hmem
  rcases hmem with ⟨rfl, rfl⟩ | ⟨rfl, rfl⟩ | ⟨rfl, rfl⟩ | ⟨rfl, rfl⟩ | ⟨rfl, rfl⟩ | ⟨rfl, rfl⟩ |
    ⟨rfl, rfl⟩
  · exact absurd rfl hname
  · exact not_stops_of_spec
      (DomainActions.oneCall_spec (fun a => returns_call (.rename (cstr a)) _) val [])
  · exact not_stops_of_spec
      (DomainActions.oneCall_spec (fun a => returns_call (.setMemory _) _) val [])
  · exact not_stops_of_spec
      (DomainActions.oneCall_spec (fun a => returns_call (.setMaxMemory _) _) val [])
  · exact not_stops_of_spec
      (DomainActions.oneCall_spec (fun a => returns_call (.setAutostart _) _) val [])
  · exact not_stops_of_spec (DomainActions.sendSignal_spec val)
  · exact not_stops_of_spec (DomainActions.sendKeys_spec val)

theorem alterStops_of_not_object {lv : Libvirt} {calls : List Exchange} {obj : Option Ptr}
    {key : Str} {action : JVal} (h : ∀ name val ms, action ≠ .object ((name, val) :: ms)) :
    alterStops lv calls obj key action = true := by
  unfold alterStops
  split
  · rename_i name val ms
    exact absurd rfl (h name val ms)
  · rfl

theorem DomainHandlers.stops_alter (lv : Libvirt) (s : Session) (action : JVal) :
    Stops ((alter action).run lv) s ↔
      alterStops lv s.calls s.obj (lit "domains") action = true := by
  unfold alter alterWith
  split
  · rename_i name val ms
    rw [alterStops]
    split
    · rename_i hdl hhdl
      by_cases hname : name = lit "power_mgt"
      · subst hname
        obtain rfl : DomainActions.powerMgt = hdl := Option.some.inj hhdl
        rw [DomainActions.stops_powerMgt]
        simp
      · exact iff_of_false (not_stops_table hhdl hname lv s val) (by simp [hname])
    · rename_i hnone
      refine iff_of_false (returns_fail 123).not_stops ?_
      have hname : name ≠ lit "power_mgt" := by
        rintro rfl
        cases hnone
      simp [hname]
  · rename_i hno
    refine iff_of_true stops_run_abort (alterStops_of_not_object fun name val ms heq => ?_)
    exact hno name val ms heq

theorem NetworkHandlers.stops_alter (lv : Libvirt) (s : Session) (action : JVal) :
    Stops ((alter action).run lv) s ↔
      alterStops lv s.calls s.obj (lit "networks") action = true := by
  unfold alter alterWith
  split
  · rename_i name val ms
    have hkey : lit "networks" ≠ lit "domains" := by decide
    split
    · rename_i hdl hhdl
      have hnone : (namedCall NetworkHandlers.table name).join = some hdl := hhdl
      rw [networks_find name] at hnone
      cases hnone
    · exact iff_of_false (returns_fail 123).not_stops (by simp [alterStops, hkey])
  · rename_i hno
    refine iff_of_true stops_run_abort (alterStops_of_not_object fun name val ms heq => ?_)
    exact hno name val ms heq

/-- A handler does not come back from an action exactly if the action stops it. -/
theorem methods_alter_stops {key : Str} {sub : Subsystem}
    (hsub : namedCall subsystems key = some sub) (lv : Libvirt) (conn : Ptr)
    (target : TargetParser) (x : JVal) (s : Session) :
    Stops ((sub.handlers lv conn target).methods lv .alter x) s ↔
      alterStops lv s.calls s.obj key x = true := by
  rcases subsystems_cases hsub with ⟨rfl, rfl⟩ | ⟨rfl, rfl⟩
  · exact DomainHandlers.stops_alter lv s x
  · exact NetworkHandlers.stops_alter lv s x

/-- A request that takes no flags does not read its `type`. -/
example (lv : Libvirt) (calls : List Exchange) (obj : Option Ptr) :
    alterStops lv calls obj (lit "domains") (.object [(lit "power_mgt", .object
      [(lit "request", .string (lit "reset")), (lit "type", .array [.int ⟨5, by decide⟩])])]) =
        false := rfl

end Virthttp
