import Virthttp.ActionOutcomes
import Virthttp.Handler

namespace Virthttp

open Interaction

def DomainCall.onlyReads : DomainCall → Bool
  | .getInfo | .getOSType | .getName | .getUUIDString | .getID | .getXMLDesc _ | .getFSInfo
  | .getHostname | .getTime | .getSchedulerType | .getLaunchSecurityInfo | .isActive => true
  | _ => false

def DomainCall.undefines : DomainCall → Bool
  | .undefineFlags _ => true
  | _ => false

def NetworkCall.onlyReads : NetworkCall → Bool
  | .undefine => false
  | _ => true

def Method.onDomain : Method → DomainCall → Bool
  | .create, _ => false
  | .query, c => c.onlyReads
  | .alter, c => !c.undefines
  | .vacuum, c => c.undefines

def Method.onNetwork : Method → NetworkCall → Bool
  | .query, c => c.onlyReads
  | .vacuum, c => !c.onlyReads
  | _, _ => false

def OnDomain (P : DomainCall → Bool) : HandlerOp → Prop
  | .domain c => P c = true
  | .network _ => False
  | _ => True

def OnNetwork (P : NetworkCall → Bool) : HandlerOp → Prop
  | .domain _ => False
  | .network c => P c = true
  | _ => True

def NoResult : HandlerOp → Prop
  | .result _ => False
  | _ => True

def nonEmpty (text : Str) : Option Str := if text = [] then none else some text

def JVal.libvirtText : JVal → Option Str
  | .object ms =>
    match JVal.findMember ms (lit "libvirt") with
    | some (.string text) => nonEmpty text
    | _ => none
  | _ => none

def NoText : HandlerOp → Prop
  | .lastError => False
  | .message val => val.libvirtText = none
  | _ => True

def Lenient (O : HandlerOp → Prop) : Prop := ∀ code, O (.error code)

theorem onDomain_lenient (P : DomainCall → Bool) : Lenient (OnDomain P) := fun _ => trivial

theorem onNetwork_lenient (P : NetworkCall → Bool) : Lenient (OnNetwork P) := fun _ => trivial

theorem noResult_lenient : Lenient NoResult := fun _ => trivial

theorem filterMap_snoc {α β : Type*} (f : α → Option β) (l : List α) (x : α) :
    (l ++ [x]).filterMap f = l.filterMap f ++ (f x).toList := by
  rw [List.filterMap_append]
  cases hx : f x <;> simp [hx]

section Parts

variable {O : HandlerOp → Prop} {α β γ : Type}

theorem require_allowed (o : Option α) : (Act.require o).Asks O := by
  cases o <;> trivial

theorem fail_allowed (hO : Lenient O) (code : ℤ) : (Act.fail code).Asks O :=
  asks_bind_all (asks_ask (hO code)) fun _ => asks_pure _

theorem fwdErr_allowed (hO : Lenient O) (fwd : Bool) (code : ℤ) : (fwdErr fwd code).Asks O := by
  cases fwd with
  | true => exact asks_pure _
  | false => exact asks_bind_all (asks_ask (hO code)) fun _ => asks_pure _

theorem fwdAsIfErr_allowed (hO : Lenient O) (code : ℤ) (arg : Option α) :
    (fwdAsIfErr code arg).Asks O :=
  fwdErr_allowed hO _ code

theorem runLifted_allowed {lifted : Act β} {validCheck : β → Act Bool} {toJson : β → Act JVal}
    (hlifted : lifted.Asks O) (hvalid : ∀ res, (validCheck res).Asks O)
    (hjson : ∀ res, (toJson res).Asks O) : (runLifted lifted validCheck toJson).Asks O := by
  apply asks_bind_all hlifted
  intro res
  apply asks_bind_all (hvalid res)
  intro ok
  cases ok with
  | true => exact asks_bind_all (hjson res) fun _ => asks_pure _
  | false => exact asks_pure _

theorem subquery_allowed {name : String} {part : Str} {lifted : Act β} {validCheck : β → Act Bool}
    {toJson : β → Act JVal} (hlifted : lifted.Asks O) (hvalid : ∀ res, (validCheck res).Asks O)
    (hjson : ∀ res, (toJson res).Asks O) :
    (subquery name part lifted validCheck toJson).Asks O := by
  unfold subquery
  split
  · exact runLifted_allowed hlifted hvalid hjson
  · exact asks_pure _

theorem flagSubquery_allowed (hO : Lenient O) {name : String} {part : Str}
    {optFlags : Option (BitVec 32)} {lifted : BitVec 32 → Act β} {validCheck : β → Act Bool}
    {toJson : β → Act JVal} (hlifted : ∀ flag, (lifted flag).Asks O)
    (hvalid : ∀ res, (validCheck res).Asks O) (hjson : ∀ res, (toJson res).Asks O) :
    (flagSubquery name part optFlags lifted validCheck toJson).Asks O := by
  unfold flagSubquery
  split
  · cases optFlags with
    | none => exact asks_bind_all (asks_ask (hO 301)) fun _ => asks_pure _
    | some flag => exact runLifted_allowed (hlifted flag) hvalid hjson
  · exact asks_pure _

theorem parameterizedDependsScope_allowed {fs : List Subquery} (h : ∀ f ∈ fs, f.Asks O) :
    (parameterizedDependsScope fs).Asks O := by
  induction fs with
  | nil => exact asks_pure _
  | cons f fs ih =>
    obtain ⟨hf, hfs⟩ := List.forall_mem_cons.mp h
    apply asks_bind_all hf
    rintro ⟨ao, val⟩
    dsimp only
    split
    · exact asks_pure _
    · exact ih hfs

theorem answerWith_allowed (hresult : ∀ val, O (.result val)) {scope : Subquery}
    (h : scope.Asks O) : (answerWith scope).Asks O := by
  apply asks_bind_all h
  rintro ⟨outcome, val⟩
  dsimp only
  split
  · exact asks_bind_all (asks_ask (hresult val)) fun _ => asks_pure _
  · exact asks_pure _

theorem alterWith_allowed (hO : Lenient O) {find : Str → Option (JVal → Act DependsOutcome)}
    (h : ∀ name hdl, find name = some hdl → ∀ val, (hdl val).Asks O) (action : JVal) :
    (alterWith find action).Asks O := by
  unfold alterWith
  split
  · split
    · rename_i hdl hfind
      exact h _ hdl hfind _
    · exact fail_allowed hO 123
  · trivial

theorem vacuumWith_allowed (hO : Lenient O) (hresult : ∀ val, O (.result val))
    (hlast : O .lastError) (hmessage : ∀ val, O (.message val)) {undefine : Act Bool}
    (h : undefine.Asks O) (errc : ℤ) : (vacuumWith undefine errc).Asks O := by
  apply asks_bind_all h
  intro ok
  cases ok with
  | true => exact asks_bind_all (asks_ask (hresult _)) fun _ => asks_pure _
  | false =>
    apply asks_bind_all (asks_ask hlast)
    intro libvirt
    exact asks_bind_all (asks_ask (hmessage _)) fun _ => fail_allowed hO errc

theorem actionScope_allowed {actions : List (Act DependsOutcome)} (h : ∀ a ∈ actions, a.Asks O) :
    (actionScope actions).Asks O := by
  induction actions with
  | nil => exact asks_pure _
  | cons action actions ih =>
    obtain ⟨haction, hactions⟩ := List.forall_mem_cons.mp h
    apply asks_bind_all haction
    intro ao
    split
    · exact asks_pure _
    · exact ih hactions

theorem oneCall_allowed (hO : Lenient O) {get : JVal → Option α} {memFcn : α → Act Bool}
    (h : ∀ a, (memFcn a).Asks O) (errc : ℤ) (val : JVal) :
    (DomainActions.oneCall get memFcn errc val).Asks O := by
  unfold DomainActions.oneCall
  cases get val with
  | none => exact fail_allowed hO 0
  | some a =>
    apply asks_bind_all (h a)
    intro ok
    cases ok with
    | true => exact asks_pure _
    | false => exact fail_allowed hO errc

theorem extractParamVal_allowed (hO : Lenient O) (get : JVal → Option α) (elJson : JVal) :
    (Act.extractParamVal get elJson).Asks O := by
  unfold Act.extractParamVal
  cases get elJson with
  | none => exact asks_bind_all (asks_ask (hO 0)) fun _ => asks_pure _
  | some val => exact asks_pure _

theorem extractEnum_allowed (hO : Lenient O) (values : List String) (elJson : JVal) :
    (Act.extractEnum values elJson).Asks O := by
  unfold Act.extractEnum
  cases elJson.asString with
  | none => exact asks_bind_all (asks_ask (hO 0)) fun _ => asks_pure _
  | some name => exact asks_pure _

theorem extractArray_allowed (hO : Lenient O) {sub : JVal → Act (Option α)}
    (hsub : ∀ x, (sub x).Asks O) (val : JVal) : (Act.extractArray sub val).Asks O := by
  cases val with
  | array xs =>
    change (Act.extractElements sub xs).Asks O
    induction xs with
    | nil => exact asks_pure _
    | cons x xs ih =>
      apply asks_bind_all (hsub x)
      intro res
      cases res with
      | none => exact asks_pure _
      | some a => exact asks_bind_all ih fun _ => asks_pure _
  | _ => exact asks_bind_all (asks_ask (hO 0)) fun _ => asks_pure _

theorem extractParam_allowed {sub : JVal → Act (Option α)} (hsub : ∀ x, (sub x).Asks O)
    (ms : List (Str × JVal)) (name : String) : (Act.extractParam sub ms name).Asks O := by
  unfold Act.extractParam
  cases JVal.findMember ms (lit name) with
  | none => exact asks_pure _
  | some x => exact hsub x

theorem wrapFcn_allowed (hO : Lenient O) {fcn : α → β → Act γ} {sub₁ : JVal → Act (Option α)}
    {sub₂ : JVal → Act (Option β)} (hfcn : ∀ a b, (fcn a b).Asks O)
    (h₁ : ∀ x, (sub₁ x).Asks O) (h₂ : ∀ x, (sub₂ x).Asks O) (val : JVal)
    (name₁ name₂ : String) : (Act.wrapFcn val fcn sub₁ name₁ sub₂ name₂).Asks O := by
  cases val with
  | object ms =>
    apply asks_bind_all (extractParam_allowed h₁ ms name₁)
    intro res₁
    cases res₁ with
    | none => exact asks_pure _
    | some a =>
      apply asks_bind_all (extractParam_allowed h₂ ms name₂)
      intro res₂
      cases res₂ with
      | none => exact asks_pure _
      | some b => exact asks_bind_all (hfcn a b) fun _ => asks_pure _
  | _ => exact asks_bind_all (asks_ask (hO 0)) fun _ => asks_pure _

theorem getFlag_allowed (hO : Lenient O) (values : List String) (jsonFlag : JVal) :
    (Act.getFlag values jsonFlag).Asks O := by
  apply asks_bind_all (require_allowed _)
  intro name
  split
  · exact asks_pure _
  · exact asks_bind_all (asks_ask (hO 301)) fun _ => asks_pure _

theorem getCombinedFlags_allowed (hO : Lenient O) (values : List String) (val : JVal) :
    (Act.getCombinedFlags values val).Asks O := by
  have hfrom (xs : List JVal) (flagset : BitVec 32) :
      (Act.getCombinedFlagsFrom values flagset xs).Asks O := by
    induction xs generalizing flagset with
    | nil => exact asks_pure _
    | cons x xs ih =>
      apply asks_bind_all (getFlag_allowed hO values x)
      intro v
      cases v with
      | none => exact asks_pure _
      | some v => exact ih _
  cases val with
  | array xs => exact hfrom xs 0
  | string s => exact getFlag_allowed hO values _
  | _ => exact asks_pure _

/-- A call on a domain and what is made of its result -/
theorem domainCall_allowed {P : DomainCall → Bool} {c : DomainCall} (hc : P c = true)
    (f : c.Ret → β) : (Act.domain c >>= fun r => pure (f r)).Asks (OnDomain P) :=
  asks_bind_all (asks_ask hc) fun _ => asks_pure _

theorem networkCall_allowed {P : NetworkCall → Bool} {c : NetworkCall} (hc : P c = true)
    (f : c.Ret → β) : (Act.network c >>= fun r => pure (f r)).Asks (OnNetwork P) :=
  asks_bind_all (asks_ask hc) fun _ => asks_pure _

end Parts

namespace DomainActions

def Alters (o : HandlerOp) : Prop :=
  OnDomain Method.alter.onDomain o ∧ NoResult o ∧ NoText o

theorem alters_lenient : Lenient Alters := fun _ => ⟨trivial, trivial, trivial⟩

theorem alterCall_allowed {c : DomainCall} {β : Type} (hc : c.undefines = false)
    (f : c.Ret → β) : (Act.domain c >>= fun r => pure (f r)).Asks Alters := by
  refine asks_bind_all (asks_ask ⟨?_, trivial, trivial⟩) fun _ => asks_pure _
  change (!c.undefines) = true
  rw [hc]
  rfl

theorem pmPrereq_allowed {bad : Act Bool} (h : bad.Asks Alters) (code : ℤ) :
    (pmPrereq bad code).Asks Alters := by
  apply asks_bind_all h
  intro b
  cases b with
  | true => exact fail_allowed alters_lenient code
  | false => exact asks_pure _

theorem pmReply_allowed {memFcn : Act Bool} (h : memFcn.Asks Alters) {reqTag : String}
    (htag : (lit reqTag == lit "libvirt") = false) (errc : ℤ) (pmMsg : String) :
    (pmReply reqTag errc pmMsg memFcn).Asks Alters := by
  apply asks_bind_all h
  intro ok
  cases ok with
  | true =>
    refine asks_bind_all (asks_ask ⟨trivial, trivial, ?_⟩) fun _ => asks_pure _
    simp only [NoText, JVal.libvirtText, JVal.findMember, List.find?_cons, htag, List.find?_nil,
      Option.map_none]
  | false => exact fail_allowed alters_lenient errc

theorem pmHdl_allowed {flags : Option PmFlags} {memFcn : Act Bool} {prereqs : Act DependsOutcome}
    (hflags : ∀ f ∈ flags, ∀ flagset, (f.memFcn flagset).Asks Alters)
    (hmem : memFcn.Asks Alters) (hpre : prereqs.Asks Alters) (pmReq : Str)
    (jsonFlag : Option JVal) {reqTag : String} (htag : (lit reqTag == lit "libvirt") = false)
    (errc : ℤ) (pmMsg : String) :
    (pmHdl pmReq jsonFlag reqTag flags memFcn errc pmMsg prereqs).Asks Alters := by
  unfold pmHdl
  split
  · apply asks_bind_all hpre
    intro pre
    split
    · exact asks_pure _
    · split
      · exact fail_allowed alters_lenient 301
      · rename_i f _
        apply asks_bind_all (getCombinedFlags_allowed alters_lenient _ _)
        intro flagset
        cases flagset with
        | none => exact asks_pure _
        | some flagset => exact pmReply_allowed (hflags _ rfl flagset) htag _ _
      · exact pmReply_allowed hmem htag _ _
  · exact asks_pure _

theorem pmRequest_allowed (pmReq : Str) (jsonFlag : Option JVal) :
    (pmRequest pmReq jsonFlag).Asks Alters := by
  have hinfo : Domain.getInfo.Asks Alters := asks_ask ⟨rfl, trivial, trivial⟩
  apply asks_bind_all hinfo
  intro info
  have hpure (b : Bool) : (pure b : Act Bool).Asks Alters := asks_pure b
  have hactive : Domain.isActive.Asks Alters := alterCall_allowed rfl _
  have hinactive : (do return !(← Domain.isActive) : Act Bool).Asks Alters :=
    asks_bind_all hactive fun _ => asks_pure _
  have hone {memFcn : BitVec 32 → Act Bool} {values : List String}
      (h : ∀ flagset, (memFcn flagset).Asks Alters) :
      ∀ f ∈ some (⟨values, memFcn⟩ : PmFlags), ∀ flagset, (f.memFcn flagset).Asks Alters := by
    rintro f ⟨⟩
    exact h
  have hnone : ∀ f ∈ (none : Option PmFlags), ∀ flagset, (f.memFcn flagset).Asks Alters := by
    rintro f ⟨⟩
  apply actionScope_allowed
  simp only [List.forall_mem_cons, List.not_mem_nil, false_implies, implies_true, and_true]
  refine ⟨?shutdown, ?destroy, ?start, ?reboot, ?reset, ?suspend, ?resume, ?other⟩
  case shutdown =>
    exact pmHdl_allowed (hone fun _ => alterCall_allowed rfl _) (alterCall_allowed rfl _)
      (pmPrereq_allowed (hpure _) _) _ _ rfl _ _
  case destroy =>
    exact pmHdl_allowed (hone fun _ => alterCall_allowed rfl _) (alterCall_allowed rfl _)
      (pmPrereq_allowed hinactive _) _ _ rfl _ _
  case start =>
    exact pmHdl_allowed (hone fun _ => alterCall_allowed rfl _) (alterCall_allowed rfl _)
      (pmPrereq_allowed hactive _) _ _ rfl _ _
  case reboot =>
    exact pmHdl_allowed (hone fun _ => alterCall_allowed rfl _) (alterCall_allowed rfl _)
      (pmPrereq_allowed (hpure _) _) _ _ rfl _ _
  case reset =>
    exact pmHdl_allowed hnone (alterCall_allowed rfl _) (pmPrereq_allowed hinactive _) _ _ rfl _ _
  case suspend =>
    exact pmHdl_allowed hnone (alterCall_allowed rfl _) (pmPrereq_allowed (hpure _) _) _ _ rfl _ _
  case resume =>
    exact pmHdl_allowed hnone (alterCall_allowed rfl _) (pmPrereq_allowed (hpure _) _) _ _ rfl _ _
  case other => exact fail_allowed alters_lenient 300

theorem powerMgt_allowed (val : JVal) : (powerMgt val).Asks Alters := by
  unfold powerMgt
  split
  · exact pmRequest_allowed _ _
  · split
    · exact fail_allowed alters_lenient 300
    · exact asks_bind_all (require_allowed _) fun _ => pmRequest_allowed _ _
  · exact fail_allowed alters_lenient 300

theorem sendSignal_allowed (val : JVal) : (sendSignal val).Asks Alters := by
  refine asks_bind_all ?_ fun _ => asks_pure _
  exact wrapFcn_allowed alters_lenient (fun _ _ => alterCall_allowed rfl _)
    (extractParamVal_allowed alters_lenient _) (extractEnum_allowed alters_lenient _) _ _ _

theorem sendKeys_allowed (val : JVal) : (sendKeys val).Asks Alters := by
  have hfail := fail_allowed alters_lenient 0
  have hint {α : Type} (get : JVal → Option α) := extractParamVal_allowed alters_lenient get
  cases val with
  | object ms =>
    apply asks_bind_all (extractParam_allowed (extractEnum_allowed alters_lenient _) ms _)
    intro keycodeset
    cases keycodeset with
    | none => exact hfail
    | some keycodeset =>
      apply asks_bind_all (extractParam_allowed (hint _) ms _)
      intro holdtime
      cases holdtime with
      | none => exact hfail
      | some holdtime =>
        apply asks_bind_all
          (extractParam_allowed (extractArray_allowed alters_lenient (hint _)) ms _)
        intro keys
        cases keys with
        | none => exact hfail
        | some keys => exact asks_bind_all (alterCall_allowed rfl _) fun _ => asks_pure _
  | _ => exact hfail

theorem table_allowed : ∀ e ∈ table, ∀ val, (e.2 val).Asks Alters := by
  simp only [table, List.forall_mem_cons, List.not_mem_nil, false_implies, implies_true, and_true]
  refine ⟨powerMgt_allowed, ?name, ?memory, ?maxMemory, ?autostart, sendSignal_allowed,
    sendKeys_allowed⟩
  all_goals exact fun val => oneCall_allowed alters_lenient (fun _ => alterCall_allowed rfl _) _ val

end DomainActions

theorem DomainHandlers.subqueries_allowed {O : HandlerOp → Prop} (hO : Lenient O)
    (hread : ∀ c : DomainCall, c.onlyReads = true → O (.domain c)) (target : TargetParser) :
    ∀ f ∈ DomainHandlers.subqueries target, f.Asks O := by
  have hsub {β : Type} {name : String} {part : Str} {lifted : Act (Option β)} {code : ℤ}
      {toJson : β → Option JVal} (h : lifted.Asks O) :
      (subquery name part lifted (fwdAsIfErr code) (serialize toJson)).Asks O :=
    subquery_allowed h (fwdAsIfErr_allowed hO code) fun _ => require_allowed _
  have hask {c : DomainCall} (hc : c.onlyReads = true) : (Act.domain c).Asks O :=
    asks_ask (hread c hc)
  simp only [DomainHandlers.subqueries, List.forall_mem_cons, List.not_mem_nil, false_implies,
    implies_true, and_true]
  refine ⟨?xmlDesc, hsub (hask rfl), hsub (hask rfl), hsub (hask rfl), ?scheduler,
    hsub (hask rfl)⟩
  case xmlDesc =>
    exact flagSubquery_allowed hO (fun _ => hask rfl) (fwdAsIfErr_allowed hO _)
      fun _ => require_allowed _
  case scheduler =>
    exact subquery_allowed (hask rfl) (fun _ => fwdErr_allowed hO _ _)
      fun _ => require_allowed _

theorem DomainHandlers.query_allowed {O : HandlerOp → Prop} (hO : Lenient O)
    (hread : ∀ c : DomainCall, c.onlyReads = true → O (.domain c))
    (hresult : ∀ val, O (.result val)) (target : TargetParser) (jval : JVal) :
    (DomainHandlers.query target jval).Asks O := by
  have hask {c : DomainCall} (hc : c.onlyReads = true) : (Act.domain c).Asks O :=
    asks_ask (hread c hc)
  unfold DomainHandlers.query
  split
  · unfold DomainHandlers.queryInfo
    apply asks_bind_all (hask rfl)
    intro info
    apply asks_bind_all (hask rfl)
    intro osType
    apply asks_bind_all (hask rfl)
    intro name
    apply asks_bind_all (require_allowed _)
    intro name
    apply asks_bind_all (hask rfl)
    intro uuid
    apply asks_bind_all (hask rfl)
    intro id
    apply asks_bind_all (require_allowed _)
    intro status
    apply asks_bind_all (require_allowed _)
    intro os
    exact asks_bind_all (asks_ask (hresult _)) fun _ => asks_pure _
  · exact answerWith_allowed hresult (parameterizedDependsScope_allowed
      (DomainHandlers.subqueries_allowed hO hread target))

theorem namedCall_allowed {table : List (String × (JVal → Act DependsOutcome))}
    {O : HandlerOp → Prop} (h : ∀ e ∈ table, ∀ val, (e.2 val).Asks O) {name : Str}
    {hdl : JVal → Act DependsOutcome} (hfind : namedCall table name = some hdl) (val : JVal) :
    (hdl val).Asks O := by
  obtain ⟨n, hmem, _⟩ := namedCall_mem hfind
  exact h _ hmem val

theorem DomainHandlers.alter_allowed (jval : JVal) :
    (DomainHandlers.alter jval).Asks DomainActions.Alters :=
  alterWith_allowed DomainActions.alters_lenient
    (fun _ _ hfind => namedCall_allowed DomainActions.table_allowed hfind) jval

theorem DomainHandlers.vacuum_allowed (target : TargetParser) (jval : JVal) :
    (DomainHandlers.vacuum target jval).Asks (OnDomain Method.vacuum.onDomain) := by
  have hO := onDomain_lenient Method.vacuum.onDomain
  unfold DomainHandlers.vacuum
  split
  · exact fail_allowed hO 301
  · exact vacuumWith_allowed hO (fun _ => trivial) trivial (fun _ => trivial)
      (domainCall_allowed rfl _) 216

theorem NetworkHandlers.subqueries_allowed {O : HandlerOp → Prop} (hO : Lenient O)
    (hread : ∀ c : NetworkCall, c.onlyReads = true → O (.network c)) (target : TargetParser) :
    ∀ f ∈ NetworkHandlers.subqueries target, f.Asks O := by
  have hask {c : NetworkCall} (hc : c.onlyReads = true) : (Act.network c).Asks O :=
    asks_ask (hread c hc)
  simp only [NetworkHandlers.subqueries, List.forall_mem_cons, List.not_mem_nil, false_implies,
    implies_true, and_true]
  refine ⟨?leases, ?dumpxml⟩
  case leases =>
    exact subquery_allowed (hask rfl) (fwdAsIfErr_allowed hO _) fun _ => require_allowed _
  case dumpxml =>
    exact flagSubquery_allowed hO (fun _ => hask rfl) (fwdAsIfErr_allowed hO _)
      fun _ => require_allowed _

theorem NetworkHandlers.query_allowed {O : HandlerOp → Prop} (hO : Lenient O)
    (hread : ∀ c : NetworkCall, c.onlyReads = true → O (.network c))
    (hresult : ∀ val, O (.result val)) (target : TargetParser) (jval : JVal) :
    (NetworkHandlers.query target jval).Asks O := by
  have hask {c : NetworkCall} (hc : c.onlyReads = true) : (Act.network c).Asks O :=
    asks_ask (hread c hc)
  have hcall {c : NetworkCall} (hc : c.onlyReads = true) {β : Type} (f : c.Ret → β) :
      (Act.network c >>= fun r => pure (f r)).Asks O :=
    asks_bind_all (hask hc) fun _ => asks_pure _
  have htfe {get : Act TFE} {k : JVal → Act DependsOutcome} (hget : get.Asks O)
      (hk : ∀ val, (k val).Asks O) : (NetworkHandlers.getTFE get k).Asks O := by
    apply asks_bind_all hget
    intro tfe
    split
    · exact fail_allowed hO 500
    · exact hk _
  unfold NetworkHandlers.query
  split
  · unfold NetworkHandlers.queryInfo
    apply htfe (hcall rfl _)
    intro active
    apply htfe (hcall rfl _)
    intro autostart
    apply htfe (hcall rfl _)
    intro persistent
    apply asks_bind_all (hask rfl)
    intro name
    apply asks_bind_all (require_allowed _)
    intro name
    apply asks_bind_all (hcall rfl _)
    intro uuid
    dsimp only
    split
    · apply asks_bind_all (hask rfl)
      intro bridge
      apply asks_bind_all (require_allowed _)
      intro bridge
      exact asks_bind_all (asks_ask (hresult _)) fun _ => asks_pure _
    · exact asks_bind_all (asks_ask (hresult _)) fun _ => asks_pure _
  · exact answerWith_allowed hresult (parameterizedDependsScope_allowed
      (NetworkHandlers.subqueries_allowed hO hread target))

/-- The table of networks has no function that could be called. -/
theorem NetworkHandlers.alter_allowed {O : HandlerOp → Prop} (hO : Lenient O) (jval : JVal) :
    (NetworkHandlers.alter jval).Asks O := by
  apply alterWith_allowed hO
  intro name hdl hfind
  obtain ⟨n, hmem, _⟩ := namedCall_mem (Option.join_eq_some_iff.mp hfind)
  simp [NetworkHandlers.table] at hmem

theorem NetworkHandlers.vacuum_allowed (jval : JVal) :
    (NetworkHandlers.vacuum jval).Asks (OnNetwork Method.vacuum.onNetwork) :=
  vacuumWith_allowed (onNetwork_lenient _) (fun _ => trivial) trivial (fun _ => trivial)
    (networkCall_allowed rfl _) _

end Virthttp
