import Virthttp.HandlerEffects
import Virthttp.HandlerRules
import Virthttp.Relational

/-! A request on all objects of a kind against the requests on each of them: what it does to an
object and what it tells of it are the same. -/
namespace Virthttp

open Program Interaction

def LvCall.object : LvCall → Option Ptr
  | .domain dom _ => dom
  | .network nw _ => nw
  | _ => none

def callsOn (p : Ptr) (calls : List Exchange) : List Exchange :=
  calls.filter (fun e => e.call.object == some p)

/-- What libvirt answers about an object may depend on all that has been asked about it, but not
on what has been asked about others. -/
def Libvirt.KeepsApart (lv : Libvirt) : Prop :=
  ∀ (p : Ptr) (c : LvCall) (h h' : List Exchange), c.object = some p →
    callsOn p h = callsOn p h' → lv h c = lv h' c

def JVal.unquoted : JVal → JVal
  | .object ms => .object (ms.filter (fun m => m.1 != lit "libvirt"))
  | val => val

/-- What a request has told in its response, and the calls that it has made on objects. -/
structure Account where
  results : List JVal
  errors : List JVal
  messages : List JVal
  calls : List Exchange

namespace Account

def empty : Account := ⟨[], [], [], []⟩

instance : Append Account where
  append a b := ⟨a.results ++ b.results, a.errors ++ b.errors, a.messages ++ b.messages,
    a.calls ++ b.calls⟩

theorem append_def (a b : Account) : a ++ b = ⟨a.results ++ b.results, a.errors ++ b.errors,
    a.messages ++ b.messages, a.calls ++ b.calls⟩ := rfl

@[simp] theorem empty_append (a : Account) : empty ++ a = a := rfl

@[simp] theorem append_empty (a : Account) : a ++ empty = a := by
  simp [append_def, empty]

theorem append_assoc (a b c : Account) : a ++ b ++ c = a ++ (b ++ c) := by
  simp [append_def]

end Account

def Session.account (s : Session) : Account where
  results := s.res.results
  errors := s.res.errors.map JVal.unquoted
  messages := s.res.messages.map JVal.unquoted
  calls := s.calls.filter (fun e => e.call.object.isSome)

def inTurn (single : Ptr → Except Stop Unit × Account) : List Ptr → Except Stop Unit × Account
  | [] => (.ok (), .empty)
  | p :: ps =>
    match single p with
    | (.ok (), a) => ((inTurn single ps).1, a ++ (inTurn single ps).2)
    | (.error e, a) => (.error e, a)

theorem inTurn_congr {single single' : Ptr → Except Stop Unit × Account} {objs : List Ptr}
    (h : ∀ p ∈ objs, single p = single' p) : inTurn single objs = inTurn single' objs := by
  induction objs with
  | nil => rfl
  | cons p objs ih =>
    obtain ⟨hp, hobjs⟩ := List.forall_mem_cons.mp h
    rw [inTurn, inTurn, hp, ih hobjs]

theorem callsOn_account (p : Ptr) (s : Session) :
    callsOn p s.account.calls = callsOn p s.calls := by
  simp only [callsOn, Session.account, List.filter_filter]
  apply List.filter_congr
  intro e _
  cases h : e.call.object <;> simp

structure Besides (p : Ptr) (s₀ t₀ s t : Session) : Prop where
  obj : s.obj = some p
  obj' : t.obj = some p
  told : ∃ d : Account, s.account = s₀.account ++ d ∧ t.account = t₀.account ++ d ∧
    ∀ e ∈ d.calls, e.call.object = some p

section OneObject

variable {lv : Libvirt} {p : Ptr} {s₀ t₀ s t : Session}

theorem Besides.grow (h : Besides p s₀ t₀ s t) {s' t' : Session} {d : Account}
    (hs : s'.account = s.account ++ d) (ht : t'.account = t.account ++ d)
    (hd : ∀ e ∈ d.calls, e.call.object = some p) (hobj : s'.obj = s.obj)
    (hobj' : t'.obj = t.obj) : Besides p s₀ t₀ s' t' := by
  obtain ⟨d₀, hs₀, ht₀, hd₀⟩ := h.told
  refine ⟨hobj.trans h.obj, hobj'.trans h.obj', d₀ ++ d, ?_, ?_, ?_⟩
  · rw [hs, hs₀, Account.append_assoc]
  · rw [ht, ht₀, Account.append_assoc]
  · intro e he
    exact (List.mem_append.mp he).elim (hd₀ e) (hd e)

/-- What the account does not show changes nothing. -/
theorem Besides.same (h : Besides p s₀ t₀ s t) {s' t' : Session} (hs : s'.account = s.account)
    (ht : t'.account = t.account) (hobj : s'.obj = s.obj) (hobj' : t'.obj = t.obj) :
    Besides p s₀ t₀ s' t' :=
  h.grow (d := .empty) (by simpa using hs) (by simpa using ht) (by simp [Account.empty]) hobj hobj'

theorem Besides.sameCalls (h₀ : callsOn p s₀.calls = callsOn p t₀.calls)
    (h : Besides p s₀ t₀ s t) : callsOn p s.calls = callsOn p t.calls := by
  obtain ⟨d, hs, ht, _⟩ := h.told
  have hsplit (a : Account) : callsOn p (a ++ d).calls =
      callsOn p a.calls ++ callsOn p d.calls := List.filter_append ..
  rw [← callsOn_account, hs, hsplit, callsOn_account, h₀, ← callsOn_account, ← hsplit, ← ht,
    callsOn_account]

theorem account_call (s : Session) (e : Exchange) : (s.asked e).account =
    s.account ++ ⟨[], [], [], [e].filter (fun e => e.call.object.isSome)⟩ := by
  simp [Session.account, Session.asked, Account.append_def, List.filter_append]

theorem account_asked (s : Session) {e : Exchange} (he : e.call.object = none) :
    (s.asked e).account = s.account := by
  rw [account_call]
  simp [he, Account.append_def]

/-- A call that is about no object -/
theorem call_besides {c : LvCall} (hc : c.object = none) :
    Alike (Besides p s₀ t₀) (fun _ _ => True) (call lv c) (call lv c) := fun s t h =>
  .returned trivial (h.same (account_asked s hc) (account_asked t hc) rfl rfl)

/-- A call about the object that both runs are on is answered the same. -/
theorem call_alike (hlv : lv.KeepsApart) (h₀ : callsOn p s₀.calls = callsOn p t₀.calls)
    {c : LvCall} (hc : c.object = some p) :
    Alike (Besides p s₀ t₀) Eq (call lv c) (call lv c) := by
  intro s t h
  have hanswer : lv s.calls c = lv t.calls c := hlv p c _ _ hc (h.sameCalls h₀)
  refine .returned hanswer (h.grow (account_call s ⟨c, lv s.calls c⟩) ?_ (by simp [hc]) rfl rfl)
  rw [hanswer]
  exact account_call t ⟨c, lv t.calls c⟩

theorem extractLastError_besides :
    Alike (Besides p s₀ t₀) (fun _ _ => True) (extractLastError lv) (extractLastError lv) :=
  (call_besides rfl).bind fun _ _ _ => (call_besides rfl).bind fun _ _ _ => alike_pure trivial

theorem unquoted_errorEntry (code : ℤ) (text text' : Str) :
    (JsonRes.errorEntry code text).unquoted = (JsonRes.errorEntry code text').unquoted := by
  have hbare (text : Str) : (JsonRes.errorEntry code text).unquoted = .object [(lit "code",
      JsonRes.codeVal code), (lit "message", .string (errorMessages code))] := by
    unfold JsonRes.errorEntry JVal.unquoted
    split_ifs <;> rfl
  rw [hbare, hbare]

theorem error_alike (code : ℤ) :
    Alike (Besides p s₀ t₀) Eq (error lv code) (error lv code) := by
  have htext : Alike (Besides p s₀ t₀) (fun _ _ => True) (libvirtText lv code)
      (libvirtText lv code) := by
    unfold libvirtText
    split
    · exact extractLastError_besides
    · exact alike_pure trivial
  refine htext.bind fun text text' _ => alike_modify fun s t h => ?_
  refine h.grow (d := ⟨[], [(JsonRes.errorEntry code text).unquoted], [], []⟩) ?_ ?_ (by simp)
    rfl rfl
  · simp [Session.account, JsonRes.error, Account.append_def]
  · rw [unquoted_errorEntry code text text']
    simp [Session.account, JsonRes.error, Account.append_def]

theorem message_alike {val val' : JVal} (hval : val.unquoted = val'.unquoted) :
    Alike (Besides p s₀ t₀) Eq ((HandlerOp.message val).perform lv)
      ((HandlerOp.message val').perform lv) := by
  apply alike_modify
  intro s t h
  refine h.grow (d := ⟨[], [], [val.unquoted], []⟩) ?_ ?_ (by simp) rfl rfl
  · simp [Session.account, JsonRes.message, Account.append_def]
  · simp [Session.account, JsonRes.message, Account.append_def, hval]

theorem perform_alike (hlv : lv.KeepsApart) (h₀ : callsOn p s₀.calls = callsOn p t₀.calls)
    (o : HandlerOp) (ho : o ≠ .lastError) :
    Alike (Besides p s₀ t₀) Eq (o.perform lv) (o.perform lv) := by
  have hobj : Alike (Besides p s₀ t₀) (fun q q' => q = some p ∧ q' = some p)
      (reads Session.obj : M (Option Ptr)) (reads Session.obj : M (Option Ptr)) :=
    alike_reads fun s t h => ⟨h.obj, h.obj'⟩
  cases o with
  | domain c =>
    apply hobj.bind
    rintro _ _ ⟨rfl, rfl⟩
    exact call_alike (c := .domain (some p) c) hlv h₀ rfl
  | network c =>
    apply hobj.bind
    rintro _ _ ⟨rfl, rfl⟩
    exact call_alike (c := .network (some p) c) hlv h₀ rfl
  | lastError => exact absurd rfl ho
  | error code => exact error_alike code
  | result val =>
    apply alike_modify
    intro s t h
    refine h.grow (d := ⟨[val], [], [], []⟩) ?_ ?_ (by simp) rfl rfl
    · simp [Session.account, JsonRes.result, Account.append_def]
    · simp [Session.account, JsonRes.result, Account.append_def]
  | message val => exact message_alike rfl

/-- A handler that does not look at the last error -/
theorem Act.run_alike (hlv : lv.KeepsApart) (h₀ : callsOn p s₀.calls = callsOn p t₀.calls)
    {α : Type} {act : Act α} (hact : act.Asks (· ≠ .lastError)) :
    Alike (Besides p s₀ t₀) Eq (act.run lv) (act.run lv) :=
  play_alike (perform_alike hlv h₀) hact

/-- A deletion only quotes the last error. -/
theorem vacuumWith_alike (hlv : lv.KeepsApart) (h₀ : callsOn p s₀.calls = callsOn p t₀.calls)
    {undefine : Act Bool} (h : undefine.Asks (· ≠ .lastError)) (errc : ℤ) :
    Alike (Besides p s₀ t₀) Eq ((vacuumWith undefine errc).run lv)
      ((vacuumWith undefine errc).run lv) := by
  have hrun {α : Type} {act : Act α} (hact : act.Asks (· ≠ .lastError)) :
      Alike (Besides p s₀ t₀) Eq (act.run lv) (act.run lv) := Act.run_alike hlv h₀ hact
  have hlenient : Lenient (· ≠ HandlerOp.lastError) := fun _ => nofun
  unfold vacuumWith
  rw [Act.run, play_bind]
  apply (hrun h).bind_eq
  intro ok
  cases ok with
  | true => exact hrun (asks_bind_all (asks_ask nofun) fun _ => asks_pure _)
  | false =>
    change Alike _ _ (Script.play _ _ (Act.lastError >>= _)) (Script.play _ _ (Act.lastError >>= _))
    rw [play_bind]
    -- the texts of the two runs may differ: they are quoted in the message and nowhere else
    refine Alike.bind (V := fun _ _ => True) ?_ fun text text' _ => ?_
    · exact extractLastError_besides.bind fun _ _ _ => alike_pure trivial
    · rw [play_bind, play_bind]
      have hquote : Alike (Besides p s₀ t₀) Eq
          ((HandlerOp.message (.object [(lit "libvirt", .string text)])).perform lv)
          ((HandlerOp.message (.object [(lit "libvirt", .string text')])).perform lv) :=
        message_alike rfl
      refine Alike.bind_eq ?_ fun _ => hrun (fail_allowed hlenient errc)
      exact hquote.bind_eq fun _ => alike_pure rfl

theorem successPred_alike (currIdx : ℕ) (outcomes : List DependsOutcome) (dep : JVal) :
    Alike (Besides p s₀ t₀) Eq (successPred currIdx outcomes dep)
      (successPred currIdx outcomes dep) := by
  unfold successPred
  split
  · exact alike_pure rfl
  · split
    · exact alike_pure rfl
    · split
      · exact alike_stop _
      · split
        · exact alike_pure rfl
        · exact alike_pure rfl

theorem allSucceeded_alike (currIdx : ℕ) (outcomes : List DependsOutcome) (deps : List JVal) :
    Alike (Besides p s₀ t₀) Eq (allSucceeded currIdx outcomes deps)
      (allSucceeded currIdx outcomes deps) := by
  induction deps generalizing outcomes with
  | nil => exact alike_pure rfl
  | cons dep deps ih =>
    refine (successPred_alike currIdx outcomes dep).bind_eq fun x => ?_
    split
    split
    · exact ih _
    · exact alike_pure rfl

theorem checkDepends_alike (json : JVal) (outcomes : List DependsOutcome) :
    Alike (Besides p s₀ t₀) Eq (checkDepends lv json outcomes) (checkDepends lv json outcomes) := by
  unfold checkDepends
  split
  · split
    · exact alike_pure rfl
    · exact allSucceeded_alike _ _ _
    · split
      · exact successPred_alike _ _ _
      · exact (error_alike 0).bind_eq fun _ => alike_pure rfl
  · exact alike_pure rfl

theorem dependsLoop_alike {hdl : JVal → M DependsOutcome}
    (hhdl : ∀ x, Alike (Besides p s₀ t₀) Eq (hdl x) (hdl x)) (actions : List JVal)
    (outcomes : List DependsOutcome) :
    Alike (Besides p s₀ t₀) Eq (dependsLoop lv hdl actions outcomes)
      (dependsLoop lv hdl actions outcomes) := by
  induction actions generalizing outcomes with
  | nil => exact alike_pure rfl
  | cons action actions ih =>
    refine (checkDepends_alike action outcomes).bind_eq fun x => ?_
    split
    split
    · exact (hhdl action).bind_eq fun o => ih _
    · exact ih _

theorem JDispatch.exec_alike {hdl : JVal → M DependsOutcome}
    (hhdl : ∀ x, Alike (Besides p s₀ t₀) Eq (hdl x) (hdl x)) (d : JDispatch) (jval : JVal) :
    Alike (Besides p s₀ t₀) Eq (d.exec lv jval hdl) (d.exec lv jval hdl) := by
  unfold JDispatch.exec
  split
  · exact (hhdl jval).bind_eq fun _ => alike_pure rfl
  · split
    · unfold handleDepends
      split
      · exact (dependsLoop_alike hhdl _ _).bind_eq fun _ => alike_pure rfl
      · exact error_alike 298
    · exact error_alike 3

theorem invoke_alike {hdl : JVal → M DependsOutcome}
    (hhdl : ∀ x, Alike (Besides p s₀ t₀) Eq (hdl x) (hdl x)) (jval : JVal) :
    Alike (Besides p s₀ t₀) Eq (invoke hdl jval) (invoke hdl jval) := by
  refine Alike.bind_eq (alike_modify fun s t h => h.same rfl rfl rfl rfl) fun _ => ?_
  refine (hhdl jval).bind_eq fun o => ?_
  exact Alike.bind_eq (alike_modify fun s t h => h.same rfl rfl rfl rfl) fun _ => alike_pure rfl

/-- The methods on an existing object; what is created starts from none. -/
theorem methods_alike (hlv : lv.KeepsApart) (h₀ : callsOn p s₀.calls = callsOn p t₀.calls)
    {key : Str} {sub : Subsystem} (hsub : namedCall subsystems key = some sub) (conn : Ptr)
    (target : TargetParser) {idx : Method} (hidx : idx ≠ .create) (jval : JVal) :
    Alike (Besides p s₀ t₀) Eq ((sub.handlers lv conn target).methods lv idx jval)
      ((sub.handlers lv conn target).methods lv idx jval) := by
  have hlenient : Lenient (· ≠ HandlerOp.lastError) := fun _ => nofun
  have hrun {act : Act DependsOutcome} (hact : act.Asks (· ≠ .lastError)) :
      Alike (Besides p s₀ t₀) Eq (act.run lv) (act.run lv) := Act.run_alike hlv h₀ hact
  rcases subsystems_cases hsub with ⟨_, rfl⟩ | ⟨_, rfl⟩
  · cases idx with
    | create => exact absurd rfl hidx
    | query => exact hrun (DomainHandlers.query_allowed hlenient (fun _ _ => nofun)
        (fun _ => nofun) target jval)
    | alter =>
      refine hrun ((DomainHandlers.alter_allowed jval).mono ?_)
      rintro _ ⟨_, _, hno⟩ rfl
      exact hno
    | vacuum =>
      change Alike _ _ (Act.run lv (DomainHandlers.vacuum target jval))
        (Act.run lv (DomainHandlers.vacuum target jval))
      unfold DomainHandlers.vacuum
      split
      · exact hrun (fail_allowed hlenient 301)
      · rename_i flags _
        have hundefine : (Domain.undefine flags).Asks (· ≠ HandlerOp.lastError) :=
          asks_bind_all (asks_ask nofun) fun _ => asks_pure _
        exact vacuumWith_alike hlv h₀ hundefine 216
  · cases idx with
    | create => exact absurd rfl hidx
    | query => exact hrun (NetworkHandlers.query_allowed hlenient (fun _ _ => nofun)
        (fun _ => nofun) target jval)
    | alter => exact hrun (NetworkHandlers.alter_allowed hlenient jval)
    | vacuum =>
      have hundefine : Network.undefine.Asks (· ≠ HandlerOp.lastError) :=
        asks_bind_all (asks_ask nofun) fun _ => asks_pure _
      exact vacuumWith_alike hlv h₀ hundefine (-999)

theorem execOn_alike (hlv : lv.KeepsApart) (h₀ : callsOn p s₀.calls = callsOn p t₀.calls)
    {key : Str} {sub : Subsystem} (hsub : namedCall subsystems key = some sub) (conn : Ptr)
    (target : TargetParser) {idx : Method} (hidx : idx ≠ .create) (jsonReq : JVal) :
    SameEnd (Besides p s₀ t₀) Eq (execOn lv sub conn target idx jsonReq p s₀)
      (execOn lv sub conn target idx jsonReq p t₀) := by
  have hstart : Besides p s₀ t₀ { s₀ with obj := some p } { t₀ with obj := some p } :=
    ⟨rfl, rfl, .empty, by simp [Session.account], by simp [Session.account],
      by simp [Account.empty]⟩
  exact (JDispatch.exec_alike (invoke_alike (methods_alike hlv h₀ hsub conn target hidx))
    (sub.jdispatchers idx) jsonReq) _ _ hstart

end OneObject

section Requests

variable {lib : Rapidjson} {lv : Libvirt} {config : IniConfig} {req : Request}
  {target : TargetParser}

def Session.Fresh (s : Session) : Prop := s.account = .empty

def TurnsTo (lib : Rapidjson) (lv : Libvirt) (req : Request) (target : TargetParser) (idx : Method)
    (o : Except Stop Unit × Session) : Prop :=
  ∃ front key rest conn sub s, target.pathParts = front :: key :: rest ∧
    namedCall subsystems key = some sub ∧ idx ≠ .create ∧ s.Fresh ∧
    o = forEach (execOn lv sub conn target idx (lib.parse (cstr req.body))) o.2.resolved s

theorem execBody_resolved {key : Str} {sub : Subsystem}
    (hsub : namedCall subsystems key = some sub) (conn : Ptr) (idx : Method) (jsonReq : JVal)
    {objs : List Ptr} {s : Session} (hs : s.resolved = objs) :
    Holds (execBody lv sub conn target idx jsonReq) s (fun _ s' => s'.resolved = objs)
      (fun _ s' => s'.resolved = objs) := by
  refine JDispatch.exec_holds (I := fun (s' : Session) => s'.resolved = objs)
    (fun code s₁ s₂ hs₁ he => he.same.resolved.trans hs₁) ?_ s hs
  intro x _ s₁ hs₁
  exact invoke_holds ((methods_handled hsub lv conn target idx x _).mono
    (fun _ _ h => h.resolved.trans hs₁) (fun _ _ h => h.resolved.trans hs₁))

theorem turns_resolved (lv : Libvirt) (target : TargetParser) {key : Str} {sub : Subsystem}
    (hsub : namedCall subsystems key = some sub) (conn : Ptr) (idx : Method) (jsonReq : JVal)
    (objs : List Ptr) (s : Session) :
    (forEach (execOn lv sub conn target idx jsonReq) objs s).2.resolved = s.resolved := by
  refine holds_final.mp
    (holds_forEach_mem (I := fun (s' : Session) => s'.resolved = s.resolved) ?_ rfl)
  intro v _ s₁ hs₁
  unfold execOn
  rw [holds_bind, holds_modify]
  exact execBody_resolved hsub conn idx jsonReq hs₁

theorem fresh_asked {s : Session} (hs : s.Fresh) {e : Exchange} (he : e.call.object = none) :
    (s.asked e).Fresh := (account_asked s he).trans hs

/-- What selects objects is about none. -/
theorem resolution_fresh {byName byUUID : Ptr → Str → LvCall} {conn : Ptr} {s s' : Session}
    {objs : List Ptr} (hres : Resolution byName byUUID target conn s objs s') (hs : s.Fresh)
    (hne : objs ≠ []) : s'.Fresh := by
  cases hres with
  | found e p _ hp =>
    refine fresh_asked hs ?_
    obtain ⟨c, a⟩ := e
    cases c <;> first | rfl | cases hp
  | listed e objs _ hlist =>
    refine fresh_asked hs ?_
    obtain ⟨c, a⟩ := e
    cases c <;> first | rfl | cases hlist
  | refused => exact absurd rfl hne

theorem object_turnsTo {idx : Method} (hidx : verbToIdx req.method = some idx)
    {front key : Str} {rest : List Str} (hparts : target.pathParts = front :: key :: rest)
    {sub : Subsystem} (hsub : namedCall subsystems key = some sub) (conn : Ptr) {s : Session}
    (hs : s.Fresh) (hresolved : s.resolved = []) :
    (object lib lv sub conn req target s).2.resolved ≠ [] →
      TurnsTo lib lv req target idx (object lib lv sub conn req target s) := by
  let P : Except Stop Unit × Session → Prop := fun o =>
    o.2.resolved ≠ [] → TurnsTo lib lv req target idx o
  change P _
  rw [← holds_outcome (P := P)]
  unfold object resolveFor
  rw [holds_bind]
  by_cases hpost : req.method = .post
  · rw [if_pos hpost, holds_pure, holds_bind, holds_modify, hidx]
    simp only [if_pos hpost]
    refine (execBody_resolved hsub conn idx _ rfl).mono ?_ ?_
    · exact fun _ s' hs' hne => absurd hs' hne
    · exact fun _ s' hs' hne => absurd hs' hne
  · rw [if_neg hpost]
    obtain ⟨byName, byUUID, hr⟩ := resolver_resolves hsub
    refine (resolve_holds hr lv conn target s).mono ?_ ?_
    · intro objs s' hres
      rw [holds_bind, holds_modify, hidx]
      simp only [if_neg hpost]
      rw [holds_outcome]
      intro hne
      have hobjs := turns_resolved lv target hsub conn idx (lib.parse (cstr req.body)) objs
        { s' with resolved := objs }
      have hidx' : idx ≠ .create := by
        rintro rfl
        cases hm : req.method <;> simp_all [verbToIdx]
      have hsome : objs ≠ [] := fun hnil => hne (hobjs.trans hnil)
      have hfresh : s'.Fresh := resolution_fresh hres hs hsome
      refine ⟨front, key, rest, conn, sub, { s' with resolved := objs }, hparts, hsub, hidx',
        hfresh, ?_⟩
      rw [hobjs]
    · rintro err s' ⟨_, e, _, rfl, _⟩ hne
      exact absurd hresolved hne

/-- A request that selects objects does nothing else before it turns to the first of them. -/
theorem handleJson_turnsTo {idx : Method} (hidx : verbToIdx req.method = some idx) :
    (handleJson lib lv config req target).2.resolved ≠ [] →
      TurnsTo lib lv req target idx (handleJson lib lv config req target) := by
  let P : Except Stop Unit × Session → Prop := fun o =>
    o.2.resolved ≠ [] → TurnsTo lib lv req target idx o
  change P _
  rw [handleJson, ← holds_outcome (P := P)]
  refine handleJsonBody_holds ?_ ?_
  · exact fun calls code s' _ he hne => absurd he.same.resolved hne
  · intro front key rest conn sub hparts hsub
    rw [holds_outcome]
    have hfresh : (Session.opened config conn).Fresh := fresh_asked (s := Session.init) rfl rfl
    exact object_turnsTo hidx hparts hsub conn hfresh rfl

end Requests

/-- The target names one object of those that `all` is about; what else the handlers read is the
same. -/
structure NamesOne (key : Str) (all one : TargetParser) : Prop where
  listed : all.pathParts = [lit "libvirt", key]
  named : ∃ search name, one.pathParts = [lit "libvirt", key, search, name]
  options : one.get (lit "options") = all.get (lit "options")

section Agreement

variable {lv : Libvirt} {all one : TargetParser} {key : Str} {sub : Subsystem} {idx : Method}

/-- Only a query of networks tells a listing from a request on one object. -/
theorem NamesOne.execOn (h : NamesOne key all one) (hsub : namedCall subsystems key = some sub)
    (hidx : idx ≠ .create) (hkey : key = lit "domains" ∨ idx ≠ .query) (conn conn' : Ptr) :
    execOn lv sub conn one idx = execOn lv sub conn' all idx := by
  obtain ⟨search, name, hone⟩ := h.named
  have hoptions (values : List String) : targetGetComposableFlag values one (lit "options") =
      targetGetComposableFlag values all (lit "options") := by
    rw [targetGetComposableFlag, h.options, targetGetComposableFlag]
  have hmethods : HandlerMethods.methods lv (sub.handlers lv conn one) idx =
      HandlerMethods.methods lv (sub.handlers lv conn' all) idx := by
    funext jval
    rcases subsystems_cases hsub with ⟨_, rfl⟩ | ⟨rfl, rfl⟩
    · cases idx with
      | create => exact absurd rfl hidx
      | query =>
        change (DomainHandlers.query one jval).run lv = (DomainHandlers.query all jval).run lv
        simp [DomainHandlers.query, hone, h.listed]
      | alter => rfl
      | vacuum =>
        change (DomainHandlers.vacuum one jval).run lv = (DomainHandlers.vacuum all jval).run lv
        simp only [DomainHandlers.vacuum, hoptions]
    · cases idx with
      | create => exact absurd rfl hidx
      | query => exact absurd hkey (by simp; decide)
      | alter => rfl
      | vacuum => rfl
  funext jsonReq v
  simp only [Virthttp.execOn, execBody, hmethods]

theorem Besides.others {p q : Ptr} {s₀ t₀ s t : Session} (h : Besides p s₀ t₀ s t) (hqp : p ≠ q) :
    callsOn q s.calls = callsOn q s₀.calls := by
  obtain ⟨d, hs, _, hd⟩ := h.told
  have hnone : callsOn q d.calls = [] := by
    apply List.filter_eq_nil_iff.mpr
    intro e he
    simpa [hd e he] using hqp
  have hsplit : callsOn q s.account.calls = callsOn q s₀.account.calls ++ callsOn q d.calls := by
    rw [hs]
    exact List.filter_append ..
  rwa [hnone, List.append_nil, callsOn_account, callsOn_account] at hsplit

theorem Session.Fresh.untouched {s : Session} (h : s.Fresh) (p : Ptr) : callsOn p s.calls = [] := by
  rw [← callsOn_account, h]
  rfl

/-- Objects that have not been turned to before are dealt with as if each was the only one. -/
theorem forEach_inTurn (hlv : lv.KeepsApart) (hsub : namedCall subsystems key = some sub)
    (conn : Ptr) (all : TargetParser) (hidx : idx ≠ .create) (jsonReq : JVal)
    {t : Ptr → Session} {objs : List Ptr} (hnodup : objs.Nodup)
    (ht : ∀ p ∈ objs, (t p).Fresh) {s : Session} (hs : ∀ p ∈ objs, callsOn p s.calls = []) :
    let run := forEach (execOn lv sub conn all idx jsonReq) objs s
    let turns := inTurn (fun p => ((execOn lv sub conn all idx jsonReq p (t p)).1,
      (execOn lv sub conn all idx jsonReq p (t p)).2.account)) objs
    run.1 = turns.1 ∧ run.2.account = s.account ++ turns.2 := by
  induction objs generalizing s with
  | nil => exact ⟨rfl, by simp [forEach, inTurn, pure_run]⟩
  | cons p objs ih =>
    obtain ⟨hp, hobjs⟩ := List.nodup_cons.mp hnodup
    obtain ⟨htp, htobjs⟩ := List.forall_mem_cons.mp ht
    obtain ⟨hsp, hsobjs⟩ := List.forall_mem_cons.mp hs
    have hcalls : callsOn p s.calls = callsOn p (t p).calls := hsp.trans (htp.untouched p).symm
    have hturn := execOn_alike hlv hcalls hsub conn all hidx jsonReq
    change (Prog.andThen _ _ s).1 = _ ∧ (Prog.andThen _ _ s).2.account = _
    simp only [Prog.andThen, inTurn]
    generalize execOn lv sub conn all idx jsonReq p s = o at hturn ⊢
    generalize execOn lv sub conn all idx jsonReq p (t p) = o' at hturn ⊢
    -- the rest of the listing finds its objects untouched, whatever has been done to `p`
    cases hturn with
    | @returned _ _ s' _ _ hbeside =>
      obtain ⟨d, hsd, htd, _⟩ := hbeside.told
      rw [htp, Account.empty_append] at htd
      have hfresh : ∀ q ∈ objs, callsOn q s'.calls = [] := fun q hq =>
        (hbeside.others fun h => hp (h ▸ hq)).trans (hsobjs q hq)
      obtain ⟨hend, hrest⟩ := ih hobjs htobjs hfresh
      refine ⟨hend, ?_⟩
      dsimp only at hrest ⊢
      rw [hrest, hsd, htd, Account.append_assoc]
    | stopped hbeside =>
      obtain ⟨d, hsd, htd, _⟩ := hbeside.told
      rw [htp, Account.empty_append] at htd
      exact ⟨rfl, by rw [hsd, htd]⟩

/-- A request that names an object turns to it from a session of its own. -/
theorem NamesOne.turnsTo {lib : Rapidjson} {config : IniConfig} {req : Request}
    (h : NamesOne key all one) (hidx : verbToIdx req.method = some idx)
    (hsub : namedCall subsystems key = some sub) (hkey : key = lit "domains" ∨ idx ≠ .query)
    (conn : Ptr) {p : Ptr} (hp : (handleJson lib lv config req one).2.resolved = [p]) :
    ∃ t : Session, t.Fresh ∧ handleJson lib lv config req one =
      Virthttp.execOn lv sub conn all idx (lib.parse (cstr req.body)) p t := by
  have hne : (handleJson lib lv config req one).2.resolved ≠ [] := by simp [hp]
  obtain ⟨front, key', rest, conn', sub', t, hparts, hsub', hcreate, hfresh, hrun⟩ :=
    handleJson_turnsTo hidx hne
  obtain rfl : key' = key := by
    obtain ⟨search, name, hnamed⟩ := h.named
    rw [hnamed] at hparts
    exact (List.cons.inj (List.cons.inj hparts).2).1.symm
  obtain rfl : sub' = sub := Option.some.inj (hsub'.symm.trans hsub)
  rw [hp, h.execOn hsub hcreate hkey conn' conn, forEach_singleton] at hrun
  exact ⟨t, hfresh, hrun⟩

end Agreement

/-- A request on all objects of a kind comes to what the requests on each of them come to, one
after the other until one stops: the same results, errors and messages but for the texts quoted
from libvirt, and the same calls on objects. A query of networks is the exception. -/
theorem listing_agrees (lib : Rapidjson) (lv : Libvirt) (config : IniConfig) (req : Request)
    (key all : Str) (one : Ptr → Str) (hlv : lv.KeepsApart)
    (hmethod : (verbToIdx req.method).isSome)
    (hkey : key = lit "domains" ∨ req.method ≠ .get) :
    let ask (url : Str) := handleJson lib lv config { req with target := url } (.ofUrl url)
    let objs := (ask all).2.resolved
    objs ≠ [] → objs.Nodup → (∀ p ∈ objs, NamesOne key (.ofUrl all) (.ofUrl (one p)) ∧
      (ask (one p)).2.resolved = [p]) →
    ((ask all).1, (ask all).2.account) =
      inTurn (fun p => ((ask (one p)).1, (ask (one p)).2.account)) objs := by
  intro ask objs hne hnodup hone
  obtain ⟨idx, hidx⟩ := Option.isSome_iff_exists.mp hmethod
  have hverb (url : Str) : verbToIdx ({ req with target := url } : Request).method = some idx :=
    hidx
  obtain ⟨front, key', rest, conn, sub, s, hparts, hsub, hcreate, hfresh, hall⟩ :=
    handleJson_turnsTo (hverb all) hne
  obtain ⟨rfl, rfl⟩ : key' = key ∧ rest = [] := by
    obtain ⟨p, hp⟩ := List.exists_mem_of_ne_nil objs hne
    have hlisted := (hone p hp).1.listed
    rw [hparts] at hlisted
    simpa using (List.cons.inj hlisted).2
  have hquery : key' = lit "domains" ∨ idx ≠ .query := by
    refine hkey.imp_right fun hget => ?_
    rintro rfl
    cases hm : req.method <;> simp_all [verbToIdx]
  have hturn : ∀ p ∈ objs, ∃ t : Session, t.Fresh ∧ ask (one p) =
      execOn lv sub conn (.ofUrl all) idx (lib.parse (cstr req.body)) p t := fun p hp =>
    (hone p hp).1.turnsTo (hverb (one p)) hsub hquery conn (hone p hp).2
  have hinit : Nonempty Session := ⟨.init⟩
  choose! t ht using hturn
  have hsingle : ∀ p ∈ objs, ((ask (one p)).1, (ask (one p)).2.account) =
      ((execOn lv sub conn (.ofUrl all) idx (lib.parse (cstr req.body)) p (t p)).1,
        (execOn lv sub conn (.ofUrl all) idx (lib.parse (cstr req.body)) p (t p)).2.account) := by
    intro p hp
    rw [(ht p hp).2]
  rw [inTurn_congr hsingle]
  obtain ⟨hend, haccount⟩ := forEach_inTurn hlv hsub conn (.ofUrl all) hcreate
    (lib.parse (cstr req.body)) hnodup (fun p hp => (ht p hp).1)
    (fun p _ => hfresh.untouched p)
  rw [hfresh, Account.empty_append] at haccount
  exact Prod.ext ((congrArg Prod.fst hall).trans hend)
    ((congrArg (fun o => o.2.account) hall).trans haccount)

def twoDomains : Libvirt := fun _ c =>
  match c with
  | .connectOpen _ => some 0
  | .listAllDomains _ _ => some [1, 2]
  | .domainLookupByName _ name => if name = lit "a" then some 1 else some 2
  | .domain (some 2) (.undefineFlags _) => (-1 : ℤ)
  | _ => default

def deletion (url : Str) : Except Stop Unit × Session :=
  handleJson ⟨fun _ => .null, fun _ => []⟩ twoDomains ⟨false, [], lit "test:///default"⟩
    ⟨.delete, url, 11, [], []⟩ (.ofUrl url)

def nameOfTwo (p : Ptr) : Str :=
  if p = 1 then lit "/libvirt/domains/by-name/a" else lit "/libvirt/domains/by-name/b"

theorem listing_agrees_two :
    ((deletion (lit "/libvirt/domains")).1, (deletion (lit "/libvirt/domains")).2.account) =
      inTurn (fun p => ((deletion (nameOfTwo p)).1, (deletion (nameOfTwo p)).2.account))
        [1, 2] := by
  have hobjs : (deletion (lit "/libvirt/domains")).2.resolved = [1, 2] := by decide +kernel
  have hlisted : (TargetParser.ofUrl (lit "/libvirt/domains")).pathParts =
      [lit "libvirt", lit "domains"] := by decide +kernel
  have hagrees := listing_agrees ⟨fun _ => .null, fun _ => []⟩ twoDomains
    ⟨false, [], lit "test:///default"⟩ ⟨.delete, [], 11, [], []⟩ (lit "domains")
    (lit "/libvirt/domains") nameOfTwo (fun _ _ _ _ _ _ => rfl) rfl (Or.inl rfl)
    (ne_of_eq_of_ne hobjs (List.cons_ne_nil 1 [2])) (hobjs.symm ▸ (by decide : [1, 2].Nodup)) ?one
  case one =>
    intro p hp
    have hp' : p ∈ [1, 2] := hobjs ▸ hp
    simp only [List.mem_cons, List.not_mem_nil, or_false] at hp'
    rcases hp' with rfl | rfl
    · exact ⟨⟨hlisted, ⟨lit "by-name", lit "a", by decide +kernel⟩, by decide +kernel⟩,
        by decide +kernel⟩
    · exact ⟨⟨hlisted, ⟨lit "by-name", lit "b", by decide +kernel⟩, by decide +kernel⟩,
        by decide +kernel⟩
  exact hagrees.trans (congrArg (inTurn _) hobjs)

end Virthttp
