import Virthttp.ActionTruth
import Virthttp.FlagDecoders

namespace Virthttp

open Program Interaction

def DomainCall.changes : DomainCall → Bool
  | .getInfo | .getOSType | .getName | .getUUIDString | .getID | .getXMLDesc _ | .getFSInfo
  | .getHostname | .getTime | .getSchedulerType | .getLaunchSecurityInfo | .isActive => false
  | _ => true

def LvCall.changes : LvCall → Bool
  | .domainCreateXML _ _ | .networkCreateXML _ _ | .network _ .undefine => true
  | .domain _ c => c.changes
  | _ => false

def Exchange.changes (e : Exchange) : Bool := e.call.changes

def DomainCall.succeeded : (c : DomainCall) → c.Ret → Bool
  | .shutdown, r => r == 0
  | .shutdownFlags _, r => r == 0
  | .destroy, r => r == 0
  | .destroyFlags _, r => r == 0
  | .create, r => r == 0
  | .createWithFlags _, r => r == 0
  | .reboot _, r => r == 0
  | .reset, r => r == 0
  | .suspend, r => r == 0
  | .resume, r => r == 0
  | _, _ => false

def Exchange.succeeded : Exchange → Bool
  | ⟨.domain _ c, r⟩ => c.succeeded r
  | _ => false

/-- What has to be the case for a request: the state that `getInfo` reports, or what `isActive`
answers. -/
inductive PmNeed where
  | running
  | paused
  | active
  | inactive

def PmNeed.Met (obj : Option Ptr) (made : List Exchange) : PmNeed → Prop
  | .running => ∃ info : DomainInfo, (⟨.domain obj .getInfo, info⟩ : Exchange) ∈ made ∧
      info.state = State.RUNNING
  | .paused => ∃ info : DomainInfo, (⟨.domain obj .getInfo, info⟩ : Exchange) ∈ made ∧
      info.state = State.PAUSED
  | .active => ∃ r : ℤ, (⟨.domain obj .isActive, r⟩ : Exchange) ∈ made ∧ r ≠ 0
  | .inactive => ∃ r : ℤ, (⟨.domain obj .isActive, r⟩ : Exchange) ∈ made ∧ r = 0

def pmNeeds : List (String × PmNeed) :=
  [("shutdown", .running), ("destroy", .active), ("start", .inactive), ("reboot", .running),
    ("reset", .active), ("suspend", .running), ("resume", .paused)]

inductive TypeMember where
  | absent
  | one (name : Str)
  | many (names : List Str)

def TypeMember.value : TypeMember → Option JVal
  | .absent => none
  | .one name => some (.string name)
  | .many names => some (.array (names.map .string))

inductive PowerValue where
  | text (request : Str)
  | object (ms : List (Str × JVal)) (request : Str) (type : TypeMember)
      (hrequest : JVal.findMember ms (lit "request") = some (.string request))
      (htype : JVal.findMember ms (lit "type") = type.value)

namespace PowerValue

def val : PowerValue → JVal
  | text request => .string request
  | object ms _ _ _ _ => .object ms

def request : PowerValue → Str
  | text request => cstr request
  | object _ request _ _ _ => cstr request

def need (v : PowerValue) : Option PmNeed := namedCall pmNeeds v.request

end PowerValue

/-- At most one change is made: the call of the request, when its need was met. It is told by one
message where it has succeeded, and otherwise a failure is told by one error. -/
structure PmReport (call : Option DomainCall) (need : Option PmNeed) (obj : Option Ptr)
    (made : List Exchange) (errors messages : ℕ) (o : DependsOutcome) : Prop where
  once : (made.filter Exchange.changes).length ≤ 1
  own : ∀ e ∈ made, e.changes = true → ∃ c r n, call = some c ∧ e = ⟨.domain obj c, r⟩ ∧
    need = some n ∧ n.Met obj made
  success : o = .success ↔ ∃ e ∈ made, e.changes = true ∧ e.succeeded = true
  told : o = .success → errors = 0 ∧ messages = 1
  failed : o ≠ .success → o = .failure ∧ errors = 1 ∧ messages = 0

def Performed.message? : Performed → Option JVal
  | ⟨.message val, _⟩ => some val
  | _ => none

def loggedMessages (h : Log HandlerOp.Ret) : List JVal := h.filterMap Performed.message?

def PmReports (call : Option DomainCall) (need : Option PmNeed) (obj : Option Ptr)
    (h : Log HandlerOp.Ret) (o : DependsOutcome) : Prop :=
  PmReport call need obj (exchanges obj h) (loggedErrors h).length (loggedMessages h).length o

structure Silent (obj : Option Ptr) (h : Log HandlerOp.Ret) : Prop where
  changes : ∀ e ∈ exchanges obj h, e.changes = false
  errors : loggedErrors h = []
  messages : loggedMessages h = []

section Ends

variable {obj : Option Ptr} {h : Log HandlerOp.Ret} {call : Option DomainCall}
  {need : Option PmNeed}

theorem exchanges_append (obj : Option Ptr) (h : Log HandlerOp.Ret) (x : Performed) :
    exchanges obj (h ++ [x]) = exchanges obj h ++ (x.exchange? obj).toList := by
  rw [exchanges, exchanges, List.filterMap_append]
  cases hx : x.exchange? obj <;> simp [hx]

theorem loggedErrors_append (h : Log HandlerOp.Ret) (x : Performed) :
    loggedErrors (h ++ [x]) = loggedErrors h ++ x.error?.toList := by
  rw [loggedErrors, loggedErrors, List.filterMap_append]
  cases hx : x.error? <;> simp [hx]

theorem loggedMessages_append (h : Log HandlerOp.Ret) (x : Performed) :
    loggedMessages (h ++ [x]) = loggedMessages h ++ x.message?.toList := by
  rw [loggedMessages, loggedMessages, List.filterMap_append]
  cases hx : x.message? <;> simp [hx]

theorem silent_nil : Silent obj [] := ⟨by simp [exchanges], rfl, rfl⟩

/-- A call that only asks keeps the silence. -/
theorem Silent.ask (hs : Silent obj h) {c : DomainCall} (hc : c.changes = false) (r : c.Ret) :
    Silent obj (h ++ [⟨.domain c, r⟩]) := by
  refine ⟨?_, ?_, ?_⟩
  · intro e he
    rw [exchanges_append, List.mem_append] at he
    rcases he with he | he
    · exact hs.changes e he
    · rw [List.mem_singleton.mp he]
      exact hc
  · rw [loggedErrors_append, hs.errors]
    rfl
  · rw [loggedMessages_append, hs.messages]
    rfl

theorem PmNeed.Met.mono {need : PmNeed} {made made' : List Exchange} (hm : need.Met obj made)
    (hsub : made ⊆ made') : need.Met obj made' := by
  cases need with
  | running | paused | active | inactive =>
    obtain ⟨r, hr, hval⟩ := hm
    exact ⟨r, hsub hr, hval⟩

/-- An error ends a silent request. -/
theorem reports_error (hs : Silent obj h) (code : ℤ) :
    PmReports call need obj (h ++ [⟨.error code, ()⟩]) .failure := by
  have hmade : exchanges obj (h ++ [⟨.error code, ()⟩]) = exchanges obj h := by
    rw [exchanges_append]
    exact List.append_nil _
  have hnone : (exchanges obj h).filter Exchange.changes = [] :=
    List.filter_eq_nil_iff.mpr fun e he => by simp [hs.changes e he]
  unfold PmReports
  rw [hmade]
  refine ⟨by simp [hnone], ?_, ?_, by simp, fun _ => ⟨rfl, ?_, ?_⟩⟩
  · intro e he hchanges
    simp [hs.changes e he] at hchanges
  · refine iff_of_false (by simp) ?_
    intro hex
    obtain ⟨e, he, hchanges, _⟩ := hex
    simp [hs.changes e he] at hchanges
  · rw [loggedErrors_append, hs.errors]
    rfl
  · rw [loggedMessages_append, hs.messages]
    rfl

/-- A change that is told by a message if it has succeeded, and otherwise by an error. -/
theorem reports_change (hs : Silent obj h) {c : DomainCall} {n : PmNeed}
    (hc : c.changes = true) (hn : n.Met obj (exchanges obj h)) (r : c.Ret) {x : Performed}
    {o : DependsOutcome} (hquiet : x.exchange? obj = none)
    (hx : (c.succeeded r = true ∧ o = .success ∧ x.error? = none ∧ x.message?.isSome) ∨
      (c.succeeded r = false ∧ o = .failure ∧ x.error?.isSome ∧ x.message? = none)) :
    PmReports (some c) (some n) obj (h ++ [⟨.domain c, r⟩] ++ [x]) o := by
  have hmade : exchanges obj (h ++ [⟨.domain c, r⟩] ++ [x]) =
      exchanges obj h ++ [⟨.domain obj c, r⟩] := by
    rw [exchanges_append, exchanges_append, hquiet]
    exact List.append_nil _
  have hnone : (exchanges obj h).filter Exchange.changes = [] :=
    List.filter_eq_nil_iff.mpr fun e he => by simp [hs.changes e he]
  have honly {e : Exchange} (he : e ∈ exchanges obj h ++ [⟨.domain obj c, r⟩])
      (hchanges : e.changes = true) : e = ⟨.domain obj c, r⟩ := by
    rcases List.mem_append.mp he with he | he
    · simp [hs.changes e he] at hchanges
    · exact List.mem_singleton.mp he
  have herrors : (loggedErrors (h ++ [⟨.domain c, r⟩] ++ [x])) = x.error?.toList := by
    rw [loggedErrors_append, loggedErrors_append, hs.errors]
    rfl
  have hmessages : (loggedMessages (h ++ [⟨.domain c, r⟩] ++ [x])) = x.message?.toList := by
    rw [loggedMessages_append, loggedMessages_append, hs.messages]
    rfl
  have hsucceeded : (∃ e ∈ exchanges obj h ++ [⟨.domain obj c, r⟩],
      e.changes = true ∧ e.succeeded = true) ↔ c.succeeded r = true := by
    constructor
    · intro hex
      obtain ⟨e, he, hchanges, hsucc⟩ := hex
      rw [honly he hchanges] at hsucc
      exact hsucc
    · exact fun hsucc => ⟨_, List.mem_append_right _ (List.mem_singleton_self _), hc, hsucc⟩
  unfold PmReports
  rw [hmade, herrors, hmessages]
  refine ⟨?_, ?_, ?_, ?_, ?_⟩
  · rw [List.filter_append, hnone]
    simp [Exchange.changes, LvCall.changes, hc]
  · intro e he hchanges
    exact ⟨c, r, n, rfl, honly he hchanges, rfl, hn.mono (List.subset_append_left _ _)⟩
  · rw [hsucceeded]
    rcases hx with ⟨hsucc, rfl, _⟩ | ⟨hsucc, rfl, _⟩
    · simp [hsucc]
    · simp [hsucc]
  · intro ho
    rcases hx with ⟨_, _, herr, hmsg⟩ | ⟨_, rfl, _⟩
    · obtain ⟨m, hm⟩ := Option.isSome_iff_exists.mp hmsg
      simp [herr, hm]
    · contradiction
  · intro ho
    rcases hx with ⟨_, rfl, _⟩ | ⟨_, rfl, herr, hmsg⟩
    · exact absurd rfl ho
    · obtain ⟨code, hcode⟩ := Option.isSome_iff_exists.mp herr
      simp [hcode, hmsg]

end Ends

namespace DomainActions

def Makes (p : Act Bool) (c : DomainCall) : Prop :=
  c.changes = true ∧
    ∀ h, Spec p h (fun h' ok => ∃ r, h' = h ++ [⟨.domain c, r⟩] ∧ ok = c.succeeded r)
      (fun _ _ => False)

theorem makes_call {c : DomainCall} {f : c.Ret → Bool} (hc : c.changes = true)
    (hf : ∀ r, f r = c.succeeded r) : Makes (Act.domain c >>= fun r => pure (f r)) c := by
  refine ⟨hc, fun h => ?_⟩
  apply spec_bind.mpr
  apply spec_domain.mpr
  intro r
  exact ⟨r, rfl, hf r⟩

def Checks (p : Act DependsOutcome) (obj : Option Ptr) (info : DomainInfo) (need : PmNeed) :
    Prop :=
  ∀ h, Silent obj h → (⟨.domain obj .getInfo, info⟩ : Exchange) ∈ exchanges obj h →
    Spec p h (fun h' o => (o = .failure ∧ ∀ call n, PmReports call n obj h' .failure) ∨
      (o ≠ .failure ∧ Silent obj h' ∧ need.Met obj (exchanges obj h'))) (fun _ _ => False)

theorem pmPrereq_state {obj : Option Ptr} {info : DomainInfo} {need : PmNeed} {state : BitVec 8}
    (hneed : ∀ made, (⟨.domain obj .getInfo, info⟩ : Exchange) ∈ made → info.state = state →
      need.Met obj made) (code : ℤ) :
    Checks (pmPrereq (pure (info.state != state)) code) obj info need := by
  intro h hs hinfo
  unfold pmPrereq
  apply spec_bind.mpr
  apply spec_pure.mpr
  by_cases hstate : info.state = state
  · have hsame : (info.state != state) = false := by simpa using hstate
    simp only [hsame, Bool.false_eq_true, if_false]
    apply spec_pure.mpr
    exact Or.inr ⟨by simp, hs, hneed _ hinfo hstate⟩
  · have hdiffers : (info.state != state) = true := by simpa using hstate
    simp only [hdiffers, if_true]
    apply spec_fail.mpr
    exact Or.inl ⟨rfl, fun _ _ => reports_error hs code⟩

theorem pmPrereq_active {obj : Option Ptr} {info : DomainInfo} {need : PmNeed} {bad : Bool → Bool}
    (hneed : ∀ made r, (⟨.domain obj .isActive, r⟩ : Exchange) ∈ made →
      bad (decide (r ≠ (0 : ℤ))) = false → need.Met obj made) (code : ℤ) :
    Checks (pmPrereq (do return bad (← Domain.isActive)) code) obj info need := by
  intro h hs _
  unfold pmPrereq Domain.isActive
  apply spec_bind.mpr
  apply spec_bind.mpr
  apply spec_bind.mpr
  apply spec_domain.mpr
  intro r
  apply spec_pure.mpr
  apply spec_pure.mpr
  have hasked : Silent obj (h ++ [⟨.domain .isActive, r⟩]) := hs.ask rfl r
  have hmem : (⟨.domain obj .isActive, r⟩ : Exchange) ∈
      exchanges obj (h ++ [⟨.domain .isActive, r⟩]) := by
    rw [exchanges_append]
    exact List.mem_append_right _ (List.mem_singleton_self _)
  have hbool : (r != (0 : ℤ)) = decide (r ≠ (0 : ℤ)) := by
    by_cases hr : r = (0 : ℤ) <;> simp [hr]
  rw [hbool]
  cases hbad : bad (decide (r ≠ (0 : ℤ))) with
  | true =>
    apply spec_fail.mpr
    exact Or.inl ⟨rfl, fun _ _ => reports_error hasked code⟩
  | false =>
    apply spec_pure.mpr
    exact Or.inr ⟨by simp, hasked, hneed _ r hmem hbad⟩

/-- The texts of a type are decoded, or else there is one error. -/
theorem getCombinedFlags_type (values : List String) {type : TypeMember} {t : JVal}
    (htype : type.value = some t) :
    Act.getCombinedFlags values t = Act.flagAnswer (flagsOf values t) := by
  cases type with
  | absent => cases htype
  | one name =>
    cases htype
    exact getFlag_string values name
  | many names =>
    cases htype
    have hnames : (names.map JVal.string).mapM JVal.asString = some names := by
      induction names with
      | nil => rfl
      | cons name names ih => simp [List.mapM_cons, JVal.asString, ih]
    have hflags : flagsOf values (.array (names.map .string)) = flagsNamed values names := by
      simp [flagsOf, hnames]
    rw [hflags, Act.getCombinedFlags, getCombinedFlagsFrom_strings, composeFlags_zero]

theorem pmReply_report {obj : Option Ptr} {reqTag pmMsg : String} {errc : ℤ} {memFcn : Act Bool}
    {c : DomainCall} {n : PmNeed} (hmem : Makes memFcn c) {h : Log HandlerOp.Ret}
    (hs : Silent obj h) (hn : n.Met obj (exchanges obj h)) :
    Spec (pmReply reqTag errc pmMsg memFcn) h
      (fun h' o => o ≠ .skipped ∧ PmReports (some c) (some n) obj h' o) (fun _ _ => False) := by
  obtain ⟨hchanges, hmakes⟩ := hmem
  unfold pmReply
  rw [spec_bind]
  refine (hmakes h).mono ?_ (fun _ _ hf => hf)
  intro h' ok hmade
  obtain ⟨r, rfl, rfl⟩ := hmade
  cases hr : c.succeeded r with
  | true =>
    simp only [if_true]
    apply spec_bind.mpr
    apply spec_message.mpr
    apply spec_pure.mpr
    exact ⟨by simp, reports_change hs hchanges hn r rfl (Or.inl ⟨hr, rfl, rfl, rfl⟩)⟩
  | false =>
    simp only [Bool.false_eq_true, if_false]
    apply spec_fail.mpr
    exact ⟨by simp, reports_change hs hchanges hn r rfl (Or.inr ⟨hr, rfl, rfl, rfl⟩)⟩

def TypeDecoded (pmReq : Str) (jsonFlag : Option JVal) : Prop :=
  ∀ calls values withFlags, namedCall pmCalls pmReq = some calls →
    calls.flagged = some (values, withFlags) → ∀ t, jsonFlag = some t →
      Act.getCombinedFlags values t = Act.flagAnswer (flagsOf values t)

theorem typeDecoded_value (pmReq : Str) (type : TypeMember) : TypeDecoded pmReq type.value :=
  fun _ values _ _ _ _ htype => getCombinedFlags_type values htype

/-- The handler of a request is the one that answers it, or leaves no trace. -/
theorem pmHdl_report {obj : Option Ptr} {info : DomainInfo} {pmReq : Str}
    {jsonFlag : Option JVal} {reqTag : String} {flags : Option PmFlags} {memFcn : Act Bool}
    {errc : ℤ} {pmMsg : String} {prereqs : Act DependsOutcome} {calls : PmCalls} {need : PmNeed}
    (htype : TypeDecoded pmReq jsonFlag)
    (hcalls : namedCall pmCalls (lit reqTag) = some calls)
    (hneed : namedCall pmNeeds (lit reqTag) = some need) (hmem : Makes memFcn calls.plain)
    (hflags : ∀ f ∈ flags, ∃ withFlags, calls.flagged = some (f.values, withFlags) ∧
      ∀ b, Makes (f.memFcn b) (withFlags b))
    (hpre : Checks prereqs obj info need) {h : Log HandlerOp.Ret} (hs : Silent obj h)
    (hinfo : (⟨.domain obj .getInfo, info⟩ : Exchange) ∈ exchanges obj h) :
    Spec (pmHdl pmReq jsonFlag reqTag flags memFcn errc pmMsg prereqs) h
      (fun h' o => (o = .skipped ∧ h' = h) ∨
        (o ≠ .skipped ∧ PmReports (pmCall pmReq jsonFlag) (namedCall pmNeeds pmReq) obj h' o))
      (fun _ _ => False) := by
  unfold pmHdl
  split
  · rename_i hreq
    have hcall : pmCall pmReq jsonFlag = calls.call jsonFlag := by
      rw [hreq, pmCall, hcalls]
      rfl
    rw [hcall, hreq, hneed, spec_bind]
    refine (hpre h hs hinfo).mono ?_ (fun _ _ hf => hf)
    intro h' pre hafter
    -- the state may already be told to be wrong, and then nothing is called
    rcases hafter with ⟨rfl, hreports⟩ | ⟨hne, hs', hmet⟩
    · rw [if_pos rfl]
      apply spec_pure.mpr
      exact Or.inr ⟨by simp, hreports _ _⟩
    · rw [if_neg hne]
      split
      · apply spec_fail.mpr
        exact Or.inr ⟨by simp, reports_error hs' 301⟩
      · rename_i t f
        obtain ⟨withFlags, hflagged, hmakes⟩ := hflags f rfl
        rw [htype calls f.values withFlags (by rw [hreq, hcalls]) hflagged t rfl, spec_bind]
        cases hflagset : flagsOf f.values t with
        | none =>
          apply spec_bind.mpr
          apply spec_error.mpr
          apply spec_pure.mpr
          apply spec_pure.mpr
          exact Or.inr ⟨by simp, reports_error hs' 301⟩
        | some b =>
          apply spec_pure.mpr
          have hthis : calls.call (some t) = some (withFlags b) := by
            simp [PmCalls.call, hflagged, hflagset]
          rw [hthis]
          exact (pmReply_report (hmakes b) hs' hmet).mono (fun _ _ hr => Or.inr hr)
            (fun _ _ hf => hf)
      · exact (pmReply_report hmem hs' hmet).mono (fun _ _ hr => Or.inr hr) (fun _ _ hf => hf)
  · exact spec_pure.mpr (Or.inl ⟨rfl, rfl⟩)

/-- The first action that does not skip answers for all of them. -/
theorem actionScope_report {P : Log HandlerOp.Ret → DependsOutcome → Prop}
    {actions : List (Act DependsOutcome)} {last : Act DependsOutcome} {h : Log HandlerOp.Ret}
    (hactions : ∀ a ∈ actions, Spec a h (fun h' o => (o = .skipped ∧ h' = h) ∨
      (o ≠ .skipped ∧ P h' o)) (fun _ _ => False))
    (hlast : Spec last h (fun h' o => o ≠ .skipped ∧ P h' o) (fun _ _ => False)) :
    Spec (actionScope (actions ++ [last])) h P (fun _ _ => False) := by
  induction actions with
  | nil =>
    rw [List.nil_append, actionScope, spec_bind]
    refine hlast.mono ?_ (fun _ _ hf => hf)
    intro h' o ho
    rw [if_pos ho.1]
    exact spec_pure.mpr ho.2
  | cons a actions ih =>
    rw [List.cons_append, actionScope, spec_bind]
    refine (hactions a List.mem_cons_self).mono ?_ (fun _ _ hf => hf)
    intro h' o ho
    rcases ho with ⟨rfl, rfl⟩ | ⟨hne, hP⟩
    · rw [if_neg (by simp)]
      exact ih fun b hb => hactions b (List.mem_cons_of_mem _ hb)
    · rw [if_pos hne]
      exact spec_pure.mpr hP

theorem pmRequest_report (obj : Option Ptr) {pmReq : Str} {jsonFlag : Option JVal}
    (htype : TypeDecoded pmReq jsonFlag) :
    Spec (pmRequest pmReq jsonFlag) []
      (PmReports (pmCall pmReq jsonFlag) (namedCall pmNeeds pmReq) obj) (fun _ _ => False) := by
  unfold pmRequest
  apply spec_bind.mpr
  apply spec_domain.mpr
  intro info
  have hs : Silent obj ([] ++ [⟨.domain .getInfo, info⟩]) := silent_nil.ask rfl info
  have hinfo : (⟨.domain obj .getInfo, info⟩ : Exchange) ∈
      exchanges obj ([] ++ [⟨.domain .getInfo, info⟩]) := List.mem_singleton_self _
  have hrunning (code : ℤ) : Checks (pmPrereq (pure (info.state != State.RUNNING)) code) obj info
      .running := by
    apply pmPrereq_state
    exact fun _ hmem hstate => ⟨info, hmem, hstate⟩
  have hpaused (code : ℤ) : Checks (pmPrereq (pure (info.state != State.PAUSED)) code) obj info
      .paused := by
    apply pmPrereq_state
    exact fun _ hmem hstate => ⟨info, hmem, hstate⟩
  have hactive (code : ℤ) : Checks (pmPrereq (do return !(← Domain.isActive)) code) obj info
      .active := by
    apply pmPrereq_active
    exact fun _ r hmem hr => ⟨r, hmem, by simpa using hr⟩
  have hinactive (code : ℤ) : Checks (pmPrereq Domain.isActive code) obj info .inactive := by
    refine @pmPrereq_active obj info .inactive (fun b => b) ?_ code
    exact fun _ r hmem hr => ⟨r, hmem, by simpa using hr⟩
  have hno (calls : PmCalls) : ∀ f ∈ (none : Option PmFlags), ∃ withFlags,
      calls.flagged = some (f.values, withFlags) ∧ ∀ b, Makes (f.memFcn b) (withFlags b) := by
    simp
  have hyes {plain : DomainCall} {values : List String} {memFcn : BitVec 32 → Act Bool}
      {withFlags : BitVec 32 → DomainCall} (hmakes : ∀ b, Makes (memFcn b) (withFlags b)) :
      ∀ f ∈ some (PmFlags.mk values memFcn), ∃ g,
        (PmCalls.mk plain (some (values, withFlags))).flagged = some (f.values, g) ∧
          ∀ b, Makes (f.memFcn b) (g b) := by
    intro f hf
    cases hf
    exact ⟨withFlags, rfl, hmakes⟩
  refine @actionScope_report _ [_, _, _, _, _, _, _] _ _ ?_
    (spec_fail.mpr ⟨by simp, reports_error hs 300⟩)
  simp only [List.forall_mem_cons, List.not_mem_nil, false_imp_iff, implies_true, and_true]
  refine ⟨?_, ?_, ?_, ?_, ?_, ?_, ?_⟩
  · exact pmHdl_report htype rfl rfl (makes_call rfl fun _ => rfl)
      (hyes fun b => makes_call rfl fun _ => rfl) (hrunning 201) hs hinfo
  · exact pmHdl_report htype rfl rfl (makes_call rfl fun _ => rfl)
      (hyes fun b => makes_call rfl fun _ => rfl) (hactive 210) hs hinfo
  · exact pmHdl_report htype rfl rfl (makes_call rfl fun _ => rfl)
      (hyes fun b => makes_call rfl fun _ => rfl) (hinactive 203) hs hinfo
  · exact pmHdl_report htype rfl rfl (makes_call rfl fun _ => rfl)
      (hyes fun b => makes_call rfl fun _ => rfl) (hrunning 201) hs hinfo
  · exact pmHdl_report htype rfl rfl (makes_call (c := .reset) rfl fun _ => rfl) (hno _)
      (hactive 210) hs hinfo
  · exact pmHdl_report htype rfl rfl (makes_call (c := .suspend) rfl fun _ => rfl) (hno _)
      (hrunning 201) hs hinfo
  · exact pmHdl_report htype rfl rfl (makes_call (c := .resume) rfl fun _ => rfl) (hno _)
      (hpaused 211) hs hinfo

theorem powerMgt_report (obj : Option Ptr) (v : PowerValue) :
    Spec (powerMgt v.val) [] (PmReports (powerCall v.val) v.need obj) (fun _ _ => False) := by
  cases v with
  | text request => exact pmRequest_report obj (typeDecoded_value (cstr request) .absent)
  | object ms request type hrequest htype =>
    have hcall : powerCall (.object ms) = pmCall (cstr request) type.value := by
      simp [powerCall, hrequest, htype, JVal.asString]
    have hrun : powerMgt (.object ms) = pmRequest (cstr request) type.value := by
      simp only [powerMgt, hrequest, htype]
      rfl
    simp only [PowerValue.val, PowerValue.need, PowerValue.request, hcall, hrun]
    exact pmRequest_report obj (typeDecoded_value (cstr request) type)

end DomainActions

def MessagesTracked (s₀ : Session) (h : Log HandlerOp.Ret) (s : Session) : Prop :=
  s.res.messages = s₀.res.messages ++ loggedMessages h

theorem MessagesTracked.step {s₀ s s' : Session} {h : Log HandlerOp.Ret} {x : Performed}
    (ht : MessagesTracked s₀ h s) (hs : s'.res.messages = s.res.messages ++ x.message?.toList) :
    MessagesTracked s₀ (h ++ [x]) s' := by
  rw [MessagesTracked, hs, ht, loggedMessages_append, List.append_assoc]

theorem perform_messagesTracked (lv : Libvirt) (s₀ : Session) (h : Log HandlerOp.Ret)
    (s : Session) (o : HandlerOp) (ht : MessagesTracked s₀ h s) :
    Holds (o.perform lv) s (fun r s' => MessagesTracked s₀ (h ++ [⟨o, r⟩]) s')
      (fun _ _ => False) := by
  cases o with
  | domain c => exact ht.step (List.append_nil _).symm
  | network c => exact ht.step (List.append_nil _).symm
  | lastError =>
    refine (extractLastError_holds lv s).mono ?_ (fun _ _ hf => hf)
    intro libvirt s' hs'
    apply ht.step
    rw [hs'.res]
    exact (List.append_nil _).symm
  | error code =>
    refine (error_holds lv code s).mono ?_ (fun _ _ hf => hf)
    intro _ s' hs'
    obtain ⟨libvirt, hres⟩ := hs'.res
    apply ht.step
    rw [hres]
    exact (List.append_nil _).symm
  | result val => exact ht.step (List.append_nil _).symm
  | message val => exact ht.step rfl

/-- A run on a session, with its calls, its errors and its messages. -/
theorem Act.run_reported {α : Type} {p : Act α} {Q : Log HandlerOp.Ret → α → Prop}
    {E : Log HandlerOp.Ret → Unit → Prop} (hp : Spec p [] Q E) (lv : Libvirt) (s : Session) :
    Holds (p.run lv) s (fun a s' => ∃ h, Tracks s h s' ∧ ErrorsTracked s h s' ∧
      MessagesTracked s h s' ∧ Q h a) (fun _ _ => ∃ h, E h ()) := by
  have hstep (h : Log HandlerOp.Ret) (s' : Session) (o : HandlerOp)
      (hT : Tracks s h s' ∧ ErrorsTracked s h s' ∧ MessagesTracked s h s') :
      Holds (o.perform lv) s' (fun r s'' => Tracks s (h ++ [⟨o, r⟩]) s'' ∧
        ErrorsTracked s (h ++ [⟨o, r⟩]) s'' ∧ MessagesTracked s (h ++ [⟨o, r⟩]) s'')
        (fun _ _ => False) := by
    have hall := (perform_tracks lv s h s' o hT.1).and
      ((perform_errorsTracked lv s h s' o hT.2.1).and (perform_messagesTracked lv s h s' o hT.2.2))
    exact hall.mono (fun _ _ hT' => hT') (fun _ _ hf => hf.1)
  have hinit : MessagesTracked s [] s := (List.append_nil _).symm
  refine (play_spec hstep hp ⟨Tracks.init s, ErrorsTracked.init s, hinit⟩).mono ?_ ?_
  · intro a s' hrun
    obtain ⟨h, ⟨hcalls, herrors, hmessages⟩, hQ⟩ := hrun
    exact ⟨h, hcalls, herrors, hmessages, hQ⟩
  · intro e s' hstop
    obtain ⟨h, _, _, _, hE⟩ := hstop
    exact ⟨h, hE⟩

/-- Questions about the last error change nothing and report nothing. -/
theorem PmReport.of_filter {call : Option DomainCall} {need : Option PmNeed} {obj : Option Ptr}
    {made made' : List Exchange} {errors messages : ℕ} {o : DependsOutcome}
    (h : PmReport call need obj made errors messages o)
    (hmade : made'.filter Exchange.onObject = made)
    (hother : ∀ e ∈ made', e.onObject = true ∨ AsksLastError e) :
    PmReport call need obj made' errors messages o := by
  have hsub : made ⊆ made' := by
    rw [← hmade]
    exact List.filter_subset_self _
  have hchanges {e : Exchange} (he : e ∈ made') (hc : e.changes = true) : e ∈ made := by
    rw [← hmade]
    apply List.mem_filter.mpr
    refine ⟨he, (hother e he).resolve_right fun hask => ?_⟩
    rcases hask with hcall | hcall <;> simp [Exchange.changes, hcall, LvCall.changes] at hc
  refine ⟨?_, ?_, ?_, h.told, h.failed⟩
  · have hsame : made'.filter Exchange.changes = made.filter Exchange.changes := by
      rw [← hmade, List.filter_filter]
      apply List.filter_congr
      intro e he
      cases hc : e.changes with
      | false => rfl
      | true =>
        have hmem := hchanges he hc
        rw [← hmade] at hmem
        rw [(List.mem_filter.mp hmem).2]
        rfl
    rw [hsame]
    exact h.once
  · intro e he hc
    obtain ⟨c, r, n, hcall, heq, hneed, hmet⟩ := h.own e (hchanges he hc) hc
    exact ⟨c, r, n, hcall, heq, hneed, hmet.mono hsub⟩
  · rw [h.success]
    constructor
    · intro hex
      obtain ⟨e, he, hc⟩ := hex
      exact ⟨e, hsub he, hc⟩
    · intro hex
      obtain ⟨e, he, hc, hsucc⟩ := hex
      exact ⟨e, hchanges he hc, hc, hsucc⟩

/-- Every power management value, in every state of the domain and for every answer of libvirt. -/
theorem powerMgt_reports (v : PowerValue) (lv : Libvirt) (s : Session) :
    Holds ((DomainActions.powerMgt v.val).run lv) s
      (fun o s' => ∃ made errs msgs, s'.calls = s.calls ++ made ∧
        s'.res.errors = s.res.errors ++ errs ∧ s'.res.messages = s.res.messages ++ msgs ∧
        PmReport (powerCall v.val) v.need s.obj made errs.length msgs.length o)
      (fun _ _ => False) := by
  have hrun := Act.run_reported (DomainActions.powerMgt_report s.obj v) lv s
  refine hrun.mono ?_ ?_
  · intro o s' hend
    obtain ⟨h, ht, herrors, hmessages, hreport⟩ := hend
    obtain ⟨made, hmade, hfilter, hother⟩ := ht.calls
    obtain ⟨errs, herrs, hlength⟩ := herrors
    refine ⟨made, errs, loggedMessages h, hmade, herrs, hmessages, ?_⟩
    rw [hlength]
    exact PmReport.of_filter hreport hfilter hother
  · intro _ _ hstop
    obtain ⟨_, hf⟩ := hstop
    exact hf

end Virthttp
