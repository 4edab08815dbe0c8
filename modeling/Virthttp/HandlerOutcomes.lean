import Virthttp.Handlers
import Virthttp.HandlerSpec

namespace Virthttp

open Interaction

def DomainCall.presentable : (c : DomainCall) → c.Ret → Bool
  | .getInfo, info => decide (info.state.toNat < State.values.length)
  | .getOSType, osType => osType.isSome
  | .getName, name => name.isSome
  | .getFSInfo, fsInfos => fsInfos.all List.isEmpty
  | .getSchedulerType, sp => sp.2 == 0 || sp.1.isSome
  | .getLaunchSecurityInfo, params => params.all List.isEmpty
  | _, _ => true

def NetworkCall.presentable : (c : NetworkCall) → c.Ret → Bool
  | .getName, name => name.isSome
  | .getBridgeName, bridge => bridge.isSome
  | .getDHCPLeases _, leases => leases.all List.isEmpty
  | _, _ => true

def Exchange.presentable : Exchange → Bool
  | ⟨.domain _ c, r⟩ => c.presentable r
  | ⟨.network _ c, r⟩ => c.presentable r
  | _ => true

def Performed.presentable : Performed → Bool
  | ⟨.domain c, r⟩ => c.presentable r
  | ⟨.network c, r⟩ => c.presentable r
  | _ => true

def Presentable (h : Log HandlerOp.Ret) : Prop := ∀ x ∈ h, Performed.presentable x = true

theorem presentable_nil : Presentable [] := by
  simp [Presentable]

theorem presentable_append (h : Log HandlerOp.Ret) (x : Performed) :
    Presentable (h ++ [x]) ↔ Presentable h ∧ x.presentable = true := by
  simp [Presentable, or_imp, forall_and]

theorem not_presentable_append {h : Log HandlerOp.Ret} {x : Performed}
    (hx : x.presentable = false) : ¬Presentable (h ++ [x]) := by
  rw [presentable_append, hx]
  simp

/-- The exchanges of a handler are presentable where its operations are. -/
theorem presentable_exchanges (obj : Option Ptr) (h : Log HandlerOp.Ret) :
    (∀ e ∈ exchanges obj h, e.presentable = true) ↔ Presentable h := by
  have hone (x : Performed) : (∀ e ∈ x.exchange? obj, e.presentable = true) ↔
      x.presentable = true := by
    obtain ⟨o, r⟩ := x
    cases o <;> simp [Performed.exchange?, Performed.presentable, Exchange.presentable]
  simp only [exchanges, List.mem_filterMap, forall_exists_index, and_imp, Presentable]
  constructor
  · exact fun hall x hx => (hone x).mp (fun e he => hall e x hx he)
  · exact fun hall e x hx he => (hone x).mpr (hall x hx) e he

theorem fsInfosToJson_isSome (fsInfos : List FSInfo) :
    (fsInfosToJson fsInfos).isSome = fsInfos.isEmpty := by
  cases fsInfos with
  | nil => rfl
  | cons x xs =>
    have hx : fsInfoToJson x = none := by
      unfold fsInfoToJson
      cases x.name <;> simp [JVal.addMember]
    simp [fsInfosToJson, hx]

theorem typedParamsToJson_isSome (tp : List TypedParam) :
    (typedParamsToJson tp).isSome = tp.isEmpty := by
  cases tp with
  | nil => rfl
  | cons x xs => cases hv : typedParamToJson x.value <;> simp [typedParamsToJson, hv, JVal.addMember]

theorem leasesToJson_isSome (vec : List DHCPLease) :
    (leasesToJson vec).isSome = vec.isEmpty := by
  cases vec with
  | nil => rfl
  | cons x xs =>
    -- a null value has no members, so that the first one is never added
    have hx : leaseToJson x = none := rfl
    simp [leasesToJson, hx]

def Answers (f : Subquery) : Prop :=
  Spec f [] (fun h p => p.1 ≠ .skipped ∧ Presentable h ∧ Told h p.1) (fun h _ => ¬Presentable h)

theorem told_error {h : Log HandlerOp.Ret} {code : ℤ} {o : DependsOutcome} :
    Told (h ++ [⟨.error code, ()⟩]) o :=
  Or.inr ((loud_append _ _).mpr (Or.inr rfl))

/-- A call whose answer is tested, then turned into JSON. -/
theorem runLifted_answers {o : HandlerOp} {valid : HandlerOp.Ret o → Bool}
    {toJson : HandlerOp.Ret o → Option JVal} {code : ℤ}
    (h : ∀ r, Performed.presentable ⟨o, r⟩ = true ↔ (valid r = true → (toJson r).isSome = true)) :
    Answers (runLifted (ask HandlerOp.Ret o) (fun r => fwdErr (valid r) code)
      (fun r => Act.require (toJson r))) := by
  unfold Answers runLifted
  rw [spec_bind, spec_ask]
  intro r
  simp only [List.nil_append, spec_bind]
  unfold fwdErr
  cases hv : valid r with
  | false =>
    simp only [Bool.false_eq_true, if_false, spec_bind, spec_error, spec_pure]
    refine ⟨by decide, ?_, told_error⟩
    have hp := (h r).mpr (by simp [hv])
    rw [presentable_append]
    exact ⟨by simpa [Presentable] using hp, rfl⟩
  | true =>
    simp only [if_true, spec_pure, spec_bind, spec_require]
    refine ⟨fun val hval => ⟨by decide, ?_, Or.inl rfl⟩, fun hnone hp => ?_⟩
    · simpa [Presentable, hval] using h r
    · have := (h r).mp (hp _ List.mem_cons_self) hv
      rw [hnone] at this
      contradiction

theorem flag_answers : Answers (do
    Act.error 301
    return (.failure, .null)) := by
  unfold Answers
  simp only [spec_bind, spec_error, spec_pure]
  exact ⟨by decide, by simp [Presentable, Performed.presentable], told_error⟩

def Selects (part : Str) (names : List String) (fs : List Subquery) : Prop :=
  List.Forall₂ (fun n f => (part ≠ lit n → f = pure (.skipped, .null)) ∧
    (part = lit n → Answers f)) names fs

theorem scope_spec {part : Str} {names : List String} {fs : List Subquery}
    (h : Selects part names fs) :
    Spec (parameterizedDependsScope fs) [] (fun h p => Presentable h ∧
        if part ∈ names.map lit then p.1 ≠ .skipped ∧ Told h p.1 else p.1 = .skipped ∧ h = [])
      (fun h _ => ¬Presentable h) := by
  induction h with
  | nil => exact ⟨presentable_nil, by simp⟩
  | @cons n f names fs hf hfs ih =>
    rw [parameterizedDependsScope, spec_bind]
    by_cases hn : part = lit n
    · refine (hf.2 hn).mono ?_ (fun _ _ hE => hE)
      rintro h ⟨ao, val⟩ ⟨hne, hp, ht⟩
      change Spec (if ao ≠ .skipped then pure (ao, val) else parameterizedDependsScope fs) h _ _
      rw [if_pos hne, spec_pure]
      exact ⟨hp, by simpa [hn, ht] using hne⟩
    · rw [hf.1 hn, spec_pure]
      simpa [hn] using ih

theorem answerWith_spec {part : Str} {names : List String} {fs : List Subquery}
    (h : Selects part names fs) :
    Spec (answerWith (parameterizedDependsScope fs)) [] (fun h o => Presentable h ∧
        if part ∈ names.map lit then Told h o else o = .skipped ∧ ¬Loud h)
      (fun h _ => ¬Presentable h) := by
  unfold answerWith
  rw [spec_bind]
  refine (scope_spec h).mono ?_ (fun _ _ hE => hE)
  rintro h ⟨o, val⟩ ⟨hp, hif⟩
  by_cases hs : o = .success
  · simp only [hs, if_true, spec_bind, spec_result, spec_pure]
    refine ⟨(presentable_append _ _).mpr ⟨hp, rfl⟩, ?_⟩
    split
    · exact Or.inl rfl
    · rename_i hno
      simp [hno, hs] at hif
  · simp only [hs, if_false, spec_pure]
    refine ⟨hp, ?_⟩
    split
    · rename_i hyes
      simp only [hyes, if_true] at hif
      exact hif.2
    · rename_i hno
      simp only [hno, if_false] at hif
      exact ⟨hif.1, by rw [hif.2]; exact not_loud_nil⟩

theorem subquery_selects {β : Type} {n : String} {part : Str} {lifted : Act β}
    {validCheck : β → Act Bool} {toJson : β → Act JVal}
    (h : Answers (runLifted lifted validCheck toJson)) :
    (part ≠ lit n → subquery n part lifted validCheck toJson = pure (.skipped, .null)) ∧
      (part = lit n → Answers (subquery n part lifted validCheck toJson)) := by
  unfold subquery
  exact ⟨fun hn => if_neg hn, fun hn => by rwa [if_pos hn]⟩

theorem flagSubquery_selects {β : Type} {n : String} {part : Str} {optFlags : Option (BitVec 32)}
    {lifted : BitVec 32 → Act β} {validCheck : β → Act Bool} {toJson : β → Act JVal}
    (h : ∀ flag, Answers (runLifted (lifted flag) validCheck toJson)) :
    (part ≠ lit n →
        flagSubquery n part optFlags lifted validCheck toJson = pure (.skipped, .null)) ∧
      (part = lit n → Answers (flagSubquery n part optFlags lifted validCheck toJson)) := by
  unfold flagSubquery
  refine ⟨fun hn => if_neg hn, fun hn => ?_⟩
  rw [if_pos hn]
  cases optFlags with
  | none => exact flag_answers
  | some flag => exact h flag

def DomainHandlers.subqueryNames : List String :=
  ["xml_desc", "fs_info", "hostname", "time", "scheduler_type", "launch_security_info"]

def NetworkHandlers.subqueryNames : List String := ["dhcp-leases", "dumpxml"]

theorem DomainHandlers.subqueries_select (target : TargetParser) :
    Selects target.subqueryPart subqueryNames (subqueries target) := by
  have hz (r : Option Str) : true = true ↔
      (r.isSome = true → (r.bind zstring).isSome = true) := by
    cases r <;> simp [zstring]
  refine .cons (flagSubquery_selects fun flag => runLifted_answers hz) ?_
  refine .cons (subquery_selects (runLifted_answers fun r => ?_)) ?_
  · cases r <;> simp [Performed.presentable, DomainCall.presentable, fsInfosToJson_isSome]
  refine .cons (subquery_selects (runLifted_answers hz)) ?_
  refine .cons (subquery_selects (runLifted_answers fun r => ?_)) ?_
  · cases r <;> simp [Performed.presentable, DomainCall.presentable]
  refine .cons (subquery_selects (runLifted_answers fun r => ?_)) ?_
  · simp only [Performed.presentable, DomainCall.presentable, schedulerToJson, Option.isSome_map]
    by_cases h : r.2 = 0 <;> simp [h]
  refine .cons (subquery_selects (runLifted_answers fun r => ?_)) .nil
  · cases r <;> simp [Performed.presentable, DomainCall.presentable, typedParamsToJson_isSome]

theorem NetworkHandlers.subqueries_select (target : TargetParser) :
    Selects target.subqueryPart subqueryNames (subqueries target) := by
  refine .cons (subquery_selects (runLifted_answers fun r => ?_)) ?_
  · cases r <;> simp [Performed.presentable, NetworkCall.presentable, leasesToJson_isSome]
  refine .cons (flagSubquery_selects fun flag => runLifted_answers fun r => ?_) .nil
  · cases r <;> simp [Performed.presentable, NetworkCall.presentable, zstring]

def Answerable (names : List String) (target : TargetParser) : Prop :=
  target.pathParts.length < 5 ∨ target.subqueryPart ∈ names.map lit

def Fine (h : Log HandlerOp.Ret) (o : DependsOutcome) : Prop := Presentable h ∧ Told h o

theorem DomainHandlers.queryInfo_spec :
    Spec queryInfo [] Fine (fun h _ => ¬Presentable h) := by
  unfold queryInfo
  simp only [spec_bind, spec_require, spec_result, spec_pure]
  refine spec_domain.mpr fun info => spec_domain.mpr fun osType => spec_domain.mpr fun name => ?_
  refine ⟨fun n hn => spec_domain.mpr fun uuid => spec_domain.mpr fun id => ?_, ?_⟩
  · refine ⟨fun status hstatus => ⟨fun os hos => ⟨?_, Or.inl rfl⟩, ?_⟩, ?_⟩
    · obtain ⟨hlt, _⟩ := List.getElem?_eq_some_iff.mp hstatus
      simp [Presentable, Performed.presentable, DomainCall.presentable, hn, hos, hlt]
    · rintro rfl
      simp [Presentable, Performed.presentable, DomainCall.presentable]
    · intro hnone
      have hle := List.getElem?_eq_none_iff.mp hnone
      simp [Presentable, Performed.presentable, DomainCall.presentable, not_lt.mpr hle]
  · rintro rfl
    simp [Presentable, Performed.presentable, DomainCall.presentable]

theorem NetworkHandlers.getTFE_spec {get : Act TFE} {k : JVal → Act DependsOutcome}
    {h : Log HandlerOp.Ret} (hp : Presentable h)
    (hget : ∀ h, Presentable h → Spec get h (fun h' _ => Presentable h') (fun _ _ => False))
    (hk : ∀ val h, Presentable h → Spec (k val) h Fine (fun h _ => ¬Presentable h)) :
    Spec (getTFE get k) h Fine (fun h _ => ¬Presentable h) := by
  unfold getTFE
  rw [spec_bind]
  refine (hget h hp).mono ?_ (fun _ _ hf => hf.elim)
  intro h' tfe hp'
  split
  · exact spec_fail.mpr ⟨(presentable_append _ _).mpr ⟨hp', rfl⟩, told_error⟩
  · exact hk _ h' hp'

theorem NetworkHandlers.queryInfo_spec (target : TargetParser) :
    Spec (queryInfo target) [] Fine (fun h _ => ¬Presentable h) := by
  have hcall {h : Log HandlerOp.Ret} (hp : Presentable h) {c : NetworkCall} {r : c.Ret}
      (hc : c.presentable r = true) : Presentable (h ++ [⟨.network c, r⟩]) :=
    (presentable_append _ _).mpr ⟨hp, hc⟩
  unfold queryInfo
  refine getTFE_spec presentable_nil
    (fun h hp => spec_bind.mpr (spec_network.mpr fun r => hcall hp rfl)) ?_
  intro active h₁ hp₁
  refine getTFE_spec hp₁
    (fun h hp => spec_bind.mpr (spec_network.mpr fun r => hcall hp rfl)) ?_
  intro autostart h₂ hp₂
  refine getTFE_spec hp₂
    (fun h hp => spec_bind.mpr (spec_network.mpr fun r => hcall hp rfl)) ?_
  intro persistent h₃ hp₃
  simp only [spec_bind, spec_require]
  refine spec_network.mpr fun name => ⟨?_, ?_⟩
  · rintro n rfl
    refine spec_bind.mpr (spec_network.mpr fun uuid => spec_pure.mpr ?_)
    have hp₄ := hcall (hcall hp₃ (c := .getName) (r := some n) rfl) (c := .getUUIDString)
      (r := uuid) rfl
    split
    · simp only [spec_bind, spec_require, spec_result, spec_pure]
      refine spec_network.mpr fun bridge => ⟨?_, ?_⟩
      · rintro b rfl
        exact ⟨(presentable_append _ _).mpr ⟨hcall hp₄ rfl, rfl⟩, Or.inl rfl⟩
      · rintro rfl
        exact not_presentable_append rfl
    · simp only [spec_bind, spec_result, spec_pure]
      exact ⟨(presentable_append _ _).mpr ⟨hp₄, rfl⟩, Or.inl rfl⟩
  · rintro rfl
    exact not_presentable_append rfl

/-- What both kinds of query come to. -/
theorem queryWith_spec {target : TargetParser} {names : List String} {fs : List Subquery}
    {info : Act DependsOutcome} (hinfo : Spec info [] Fine (fun h _ => ¬Presentable h))
    (hsel : Selects target.subqueryPart names fs) :
    Spec (if target.pathParts.length < 5 then info else answerWith (parameterizedDependsScope fs))
      [] (fun h o => Presentable h ∧ (Told h o ↔ Answerable names target))
      (fun h _ => ¬Presentable h) := by
  unfold Answerable
  split
  · rename_i hlen
    refine hinfo.mono ?_ (fun _ _ hE => hE)
    exact fun h o hf => ⟨hf.1, iff_of_true hf.2 (Or.inl hlen)⟩
  · rename_i hlen
    refine (answerWith_spec hsel).mono ?_ (fun _ _ hE => hE)
    rintro h o ⟨hp, hif⟩
    refine ⟨hp, ?_⟩
    split at hif
    · rename_i hmem
      exact iff_of_true hif (Or.inr hmem)
    · rename_i hmem
      refine iff_of_false ?_ (fun h => h.elim hlen hmem)
      rintro (hs | hl)
      · simp [hif.1] at hs
      · exact hif.2 hl

theorem DomainHandlers.query_spec (target : TargetParser) (jval : JVal) :
    Spec (query target jval) [] (fun h o => Presentable h ∧ (Told h o ↔
      Answerable subqueryNames target)) (fun h _ => ¬Presentable h) :=
  queryWith_spec queryInfo_spec (subqueries_select target)

theorem NetworkHandlers.query_spec (target : TargetParser) (jval : JVal) :
    Spec (query target jval) [] (fun h o => Presentable h ∧ (Told h o ↔
      Answerable subqueryNames target)) (fun h _ => ¬Presentable h) :=
  queryWith_spec (queryInfo_spec target) (subqueries_select target)

theorem vacuumWith_spec {undefine : Act Bool} {errc : ℤ}
    (hundefine : ∀ h, Spec undefine h (fun _ _ => True) (fun _ _ => False)) :
    Spec (vacuumWith undefine errc) [] Told (fun _ _ => False) := by
  unfold vacuumWith
  rw [spec_bind]
  refine (hundefine []).mono ?_ (fun _ _ hf => hf)
  intro h ok _
  split
  · exact spec_bind.mpr (spec_result.mpr (Or.inl rfl))
  · refine spec_bind.mpr (spec_lastError.mpr fun libvirt => ?_)
    exact spec_bind.mpr (spec_message.mpr (spec_fail.mpr told_error))

theorem DomainHandlers.vacuum_spec (target : TargetParser) (jval : JVal) :
    Spec (vacuum target jval) [] Told (fun _ _ => False) := by
  unfold vacuum
  split
  · exact spec_fail.mpr told_error
  · exact vacuumWith_spec fun _ => spec_bind.mpr (spec_domain.mpr fun _ => trivial)

theorem NetworkHandlers.vacuum_spec (jval : JVal) :
    Spec (vacuum jval) [] Told (fun _ _ => False) :=
  vacuumWith_spec fun _ => spec_bind.mpr (spec_network.mpr fun _ => trivial)

end Virthttp
