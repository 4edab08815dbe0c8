import Virthttp.HandlerEffects
import Virthttp.HandlerRules

namespace Virthttp

open Program Interaction

def Exchange.text? : Exchange → Option Str
  | ⟨.getLastError, err⟩ => err.bind nonEmpty
  | _ => none

def Session.given (s : Session) : List Str := s.calls.filterMap Exchange.text?

def Session.told (s : Session) : List Str :=
  (s.res.errors ++ s.res.messages).filterMap JVal.libvirtText

/-- The last error is cleared whenever it has been asked for, and at no other time. -/
inductive Cleared : List Exchange → Prop where
  | nil : Cleared []
  | other (calls : List Exchange) (e : Exchange) (h : Cleared calls) (he : ¬AsksLastError e) :
      Cleared (calls ++ [e])
  | asked (calls : List Exchange) (err : Option Str) (h : Cleared calls) :
      Cleared (calls ++ [⟨.getLastError, err⟩, ⟨.resetLastError, ()⟩])

/-- What the session owes to the response: texts that were taken and are not told yet. -/
structure Owes (owed paid : List Str) (s : Session) : Prop where
  balance : ∀ text, s.told.count text + owed.count text = s.given.count text + paid.count text
  cleared : Cleared s.calls

theorem owes_init : Owes [] [] Session.init := ⟨fun _ => rfl, .nil⟩

theorem libvirtText_errorEntry (code : ℤ) (libvirt : Str) :
    (JsonRes.errorEntry code libvirt).libvirtText = nonEmpty libvirt := by
  have hcode : (lit "code" == lit "libvirt") = false := by decide
  have hmessage : (lit "message" == lit "libvirt") = false := by decide
  unfold JsonRes.errorEntry JVal.libvirtText JVal.findMember
  by_cases h : libvirt = []
  · simp [h, hcode, hmessage, nonEmpty]
  · simp [h, hcode, hmessage]

theorem libvirtText_message (libvirt : Str) :
    (JVal.object [(lit "libvirt", .string libvirt)]).libvirtText = nonEmpty libvirt := by
  simp [JVal.libvirtText, JVal.findMember]

theorem Session.given_asked (s : Session) (e : Exchange) :
    (s.asked e).given = s.given ++ e.text?.toList :=
  filterMap_snoc _ s.calls e

theorem text?_of_not_asksLastError {e : Exchange} (h : ¬AsksLastError e) : e.text? = none := by
  obtain ⟨c, r⟩ := e
  cases c with
  | getLastError => exact absurd (Or.inl rfl) h
  | _ => rfl

/-- Other calls are none of the texts' business. -/
theorem Owes.ask {owed paid : List Str} {s : Session} (h : Owes owed paid s) {e : Exchange}
    (he : ¬AsksLastError e) : Owes owed paid (s.asked e) where
  balance text := by
    rw [Session.given_asked, text?_of_not_asksLastError he]
    simpa [Session.told, Session.asked] using h.balance text
  cleared := .other _ _ h.cleared he

theorem extractLastError_owes (lv : Libvirt) {owed paid : List Str} {s : Session}
    (h : Owes owed paid s) : Holds (extractLastError lv) s
      (fun libvirt s' => s'.res = s.res ∧ Owes (owed ++ (nonEmpty libvirt).toList) paid s')
      (fun _ _ => False) := by
  unfold extractLastError
  simp only [holds_bind]
  refine call_holds fun err => call_holds fun _ => ⟨rfl, ?_, ?_⟩
  · intro text
    have hgiven : ((s.asked ⟨.getLastError, err⟩).asked ⟨.resetLastError, ()⟩).given =
        s.given ++ (nonEmpty (err.getD [])).toList := by
      rw [Session.given_asked, Session.given_asked]
      cases err <;> simp [Exchange.text?, nonEmpty]
    change s.told.count text + _ =
      ((s.asked ⟨.getLastError, err⟩).asked ⟨.resetLastError, ()⟩).given.count text + _
    rw [hgiven, List.count_append, List.count_append]
    have hbalance := h.balance text
    omega
  · rw [List.append_assoc]
    exact .asked s.calls err h.cleared

/-- A text that is told is paid for. -/
theorem Owes.tell {owed paid : List Str} {s s' : Session} {libvirt : Str}
    (h : Owes (owed ++ (nonEmpty libvirt).toList) paid s) (hcalls : s'.calls = s.calls)
    (htold : ∀ text, s'.told.count text =
      s.told.count text + (nonEmpty libvirt).toList.count text) : Owes owed paid s' where
  balance text := by
    have hbalance := h.balance text
    have hgiven : s'.given = s.given := by rw [Session.given, hcalls, Session.given]
    rw [List.count_append] at hbalance
    rw [htold, hgiven]
    omega
  cleared := by rw [hcalls]; exact h.cleared

theorem error_owes (lv : Libvirt) (code : ℤ) {owed paid : List Str} {s : Session}
    (h : Owes owed paid s) :
    Holds (error lv code) s (fun _ => Owes owed paid) (fun _ _ => False) := by
  have htext : Holds (libvirtText lv code) s
      (fun libvirt s' => Owes (owed ++ (nonEmpty libvirt).toList) paid s') (fun _ _ => False) := by
    unfold libvirtText
    split
    · exact (extractLastError_owes lv h).mono (fun _ _ h' => h'.2) (fun _ _ hf => hf)
    · rw [holds_pure]
      simpa [nonEmpty] using h
  unfold error
  rw [holds_bind]
  refine htext.mono ?_ (fun _ _ hf => hf)
  intro libvirt s' h'
  refine h'.tell rfl fun text => ?_
  have hentry := libvirtText_errorEntry code libvirt
  simp only [Session.told, JsonRes.error, List.filterMap_append, List.count_append]
  rw [← hentry]
  cases hn : (JsonRes.errorEntry code libvirt).libvirtText <;> simp [hn]
  omega

theorem not_asksLastError_of_selects {e : Exchange} (he : e.call.selects = true) :
    ¬AsksLastError e := by
  rintro (h | h) <;> simp [h, LvCall.selects] at he

theorem owes_kept : KeptOutside (Owes [] []) where
  select _ _ he h := h.ask (not_asksLastError_of_selects he)
  error lv code _ h := error_owes lv code h
  context _ _ _ _ h := ⟨h.balance, h.cleared⟩

def Performed.taken? : Performed → Option Str
  | ⟨.lastError, libvirt⟩ => nonEmpty libvirt
  | _ => none

def Performed.told? : Performed → Option Str
  | ⟨.message val, _⟩ => val.libvirtText
  | _ => none

def Settled (h : Log HandlerOp.Ret) : Prop :=
  h.filterMap Performed.taken? = h.filterMap Performed.told?

theorem settled_of_noText {h : Log HandlerOp.Ret} (hh : ∀ x ∈ h, NoText x.1) : Settled h := by
  have htaken : h.filterMap Performed.taken? = [] := by
    rw [List.filterMap_eq_nil_iff]
    rintro ⟨o, r⟩ hx
    cases o with
    | lastError => exact (hh _ hx).elim
    | _ => rfl
  have htold : h.filterMap Performed.told? = [] := by
    rw [List.filterMap_eq_nil_iff]
    rintro ⟨o, r⟩ hx
    cases o with
    | message val => exact hh _ hx
    | _ => rfl
  rw [Settled, htaken, htold]

theorem perform_owes (lv : Libvirt) (h : Log HandlerOp.Ret) (o : HandlerOp) {s : Session}
    (hs : Owes (h.filterMap Performed.taken?) (h.filterMap Performed.told?) s) :
    Holds (o.perform lv) s (fun r s' =>
      Owes ((h ++ [(⟨o, r⟩ : Performed)]).filterMap Performed.taken?)
        ((h ++ [(⟨o, r⟩ : Performed)]).filterMap Performed.told?) s') (fun _ _ => False) := by
  simp only [filterMap_snoc]
  have hquiet {s' : Session} (h' : Owes (h.filterMap Performed.taken?)
      (h.filterMap Performed.told?) s') : Owes (h.filterMap Performed.taken? ++ [])
        (h.filterMap Performed.told? ++ []) s' := by
    rwa [List.append_nil, List.append_nil]
  cases o with
  | domain c =>
    change Holds (reads Session.obj >>= fun dom => call lv (.domain dom c)) s _ _
    rw [holds_bind, holds_reads]
    exact call_holds fun a =>
      hquiet (hs.ask (e := ⟨.domain s.obj c, a⟩) (by simp [AsksLastError]))
  | network c =>
    change Holds (reads Session.obj >>= fun nw => call lv (.network nw c)) s _ _
    rw [holds_bind, holds_reads]
    exact call_holds fun a =>
      hquiet (hs.ask (e := ⟨.network s.obj c, a⟩) (by simp [AsksLastError]))
  | lastError =>
    refine (extractLastError_owes lv hs).mono ?_ (fun _ _ hf => hf)
    rintro libvirt s' ⟨_, hs'⟩
    change Owes _ (_ ++ []) s'
    rwa [List.append_nil]
  | error code =>
    exact (error_owes lv code hs).mono (fun _ _ hs' => hquiet hs') (fun _ _ hf => hf)
  | result val =>
    have hres : Owes _ _ { s with res := s.res.result val } := ⟨hs.balance, hs.cleared⟩
    exact hquiet hres
  | message val =>
    change Owes (_ ++ []) (_ ++ val.libvirtText.toList) { s with res := s.res.message val }
    refine ⟨fun text => ?_, hs.cleared⟩
    have hbalance := hs.balance text
    change (List.filterMap JVal.libvirtText
      (s.res.errors ++ (s.res.messages ++ [val]))).count text + (_ ++ []).count text =
        s.given.count text + (_ ++ val.libvirtText.toList).count text
    rw [← List.append_assoc, filterMap_snoc, List.append_nil, List.count_append,
      List.count_append, ← Session.told]
    omega

/-- A handler that tells what it takes leaves nothing owed. -/
theorem Act.run_owes {α : Type} {p : Act α}
    (hp : Spec p [] (fun h _ => Settled h) (fun h _ => Settled h)) (lv : Libvirt) {s : Session}
    (hs : Owes [] [] s) : Holds (p.run lv) s (fun _ => Owes [] []) (fun _ => Owes [] []) := by
  have hsettled {h : Log HandlerOp.Ret} {s' : Session} (hh : Settled h)
      (hs' : Owes (h.filterMap Performed.taken?) (h.filterMap Performed.told?) s') :
      Owes [] [] s' := by
    refine ⟨fun text => ?_, hs'.cleared⟩
    have hbalance := hs'.balance text
    rw [show h.filterMap Performed.taken? = h.filterMap Performed.told? from hh] at hbalance
    simpa using hbalance
  let T (h : Log HandlerOp.Ret) : Session → Prop :=
    Owes (h.filterMap Performed.taken?) (h.filterMap Performed.told?)
  have hstep (h : Log HandlerOp.Ret) (s : Session) (o : HandlerOp) (hT : T h s) :
      Holds (o.perform lv) s (fun r s' => T (h ++ [⟨o, r⟩]) s') (fun _ _ => False) :=
    perform_owes lv h o hT
  have hinit : T [] s := hs
  refine (play_spec hstep hp hinit).mono ?_ ?_
  · rintro _ s' ⟨h, hs', hh⟩
    exact hsettled hh hs'
  · rintro _ s' ⟨h, _, _, hs', hh⟩
    exact hsettled hh hs'

theorem noText_settled {α : Type} {p : Act α} (hp : p.Asks NoText) :
    Spec p [] (fun h _ => Settled h) (fun h _ => Settled h) :=
  (hp.spec (by simp)).mono (fun _ _ hh => settled_of_noText hh) (fun _ _ hh => settled_of_noText hh)

theorem noText_lenient : Lenient NoText := fun _ => trivial

/-- The text of a deletion that failed goes to a message; the error after it takes its own. -/
theorem vacuumWith_settled {undefine : Act Bool} {errc : ℤ}
    (hundefine : Spec undefine [] (fun h _ => ∀ x ∈ h, NoText x.1) (fun _ _ => False)) :
    Spec (vacuumWith undefine errc) [] (fun h _ => Settled h) (fun h _ => Settled h) := by
  unfold vacuumWith
  rw [spec_bind]
  refine hundefine.mono ?_ (fun _ _ hf => hf.elim)
  intro h ok hh
  have hsettled := settled_of_noText hh
  cases ok with
  | true =>
    refine spec_bind.mpr (spec_result.mpr ?_)
    rw [spec_pure, Settled, filterMap_snoc, filterMap_snoc, hsettled]
    rfl
  | false =>
    refine spec_bind.mpr (spec_lastError.mpr fun libvirt => ?_)
    refine spec_bind.mpr (spec_message.mpr (spec_fail.mpr ?_))
    simp only [Settled, filterMap_snoc]
    change _ ++ (nonEmpty libvirt).toList ++ [] ++ [] =
      _ ++ [] ++ (JVal.object [(lit "libvirt", .string libvirt)]).libvirtText.toList ++ []
    rw [hsettled, libvirtText_message]
    simp

theorem DomainHandlers.vacuum_settled (target : TargetParser) (jval : JVal) :
    Spec (DomainHandlers.vacuum target jval) [] (fun h _ => Settled h) (fun h _ => Settled h) := by
  unfold DomainHandlers.vacuum
  split
  · exact noText_settled (fail_allowed noText_lenient 301)
  · exact vacuumWith_settled (spec_bind.mpr (spec_domain.mpr fun r => by simp [spec_pure, NoText]))

theorem NetworkHandlers.vacuum_settled (jval : JVal) :
    Spec (NetworkHandlers.vacuum jval) [] (fun h _ => Settled h) (fun h _ => Settled h) :=
  vacuumWith_settled (spec_bind.mpr (spec_network.mpr fun r => by simp [spec_pure, NoText]))

section Request

variable {lv : Libvirt} {req : Request} {target : TargetParser}

/-- A creation makes a call and may add a result. -/
theorem Owes.madeBy {s : Session} (h : Owes [] [] s) {e : Exchange} (he : ¬AsksLastError e)
    (obj : Option Ptr) : Owes [] [] (s.madeBy e obj) := by
  have hasked := h.ask he
  cases obj <;> exact ⟨hasked.balance, hasked.cleared⟩

theorem methodsKeep_owes : MethodsKeep lv req target (Owes [] []) := by
  intro key sub conn idx hsub _ jval s h
  have herr (code : ℤ) (s : Session) (h : Owes [] [] s) := error_owes lv code h
  have hrun {p : Act DependsOutcome}
      (hp : Spec p [] (fun h _ => Settled h) (fun h _ => Settled h)) : Holds (p.run lv) s
        (fun o s' => Owes [] [] { s' with outcomes := s'.outcomes ++ [o] })
        (fun _ => Owes [] []) :=
    (Act.run_owes hp lv h).mono (fun _ _ h' => ⟨h'.balance, h'.cleared⟩) (fun _ _ h' => h')
  rcases subsystems_cases hsub with ⟨_, rfl⟩ | ⟨_, rfl⟩
  · cases idx with
    | create =>
      exact (DomainHandlers.create_keeps herr (fun _ dom s h => h.madeBy (by simp [AsksLastError])
        dom) jval h).mono (fun _ _ h' => ⟨h'.balance, h'.cleared⟩) (fun _ _ h' => h')
    | query =>
      exact hrun (noText_settled (DomainHandlers.query_allowed noText_lenient
        (fun _ _ => trivial) (fun _ => trivial) target jval))
    | alter =>
      exact hrun (noText_settled ((DomainHandlers.alter_allowed jval).mono fun _ ho => ho.2.2))
    | vacuum => exact hrun (DomainHandlers.vacuum_settled target jval)
  · cases idx with
    | create =>
      exact (NetworkHandlers.create_keeps herr (fun _ nw s h => h.madeBy (by simp [AsksLastError])
        nw) jval h).mono (fun _ _ h' => ⟨h'.balance, h'.cleared⟩) (fun _ _ h' => h')
    | query =>
      exact hrun (noText_settled (NetworkHandlers.query_allowed noText_lenient
        (fun _ _ => trivial) (fun _ => trivial) target jval))
    | alter => exact hrun (noText_settled (NetworkHandlers.alter_allowed noText_lenient jval))
    | vacuum => exact hrun (NetworkHandlers.vacuum_settled jval)

end Request

/-- Whatever libvirt answers, each text of an error that it gives is cleared at once and is told in
the response exactly once, and the response tells no other text of libvirt. -/
theorem error_texts_conserved (lib : Rapidjson) (lv : Libvirt) (config : IniConfig)
    (req : Request) (target : TargetParser) :
    let s := (handleJson lib lv config req target).2
    s.told.Perm s.given ∧ Cleared s.calls := by
  have h : Owes [] [] (handleJson lib lv config req target).2 :=
    handleJson_keeps owes_kept owes_init methodsKeep_owes
  refine ⟨List.perm_iff_count.mpr fun text => ?_, h.cleared⟩
  simpa using h.balance text

end Virthttp
