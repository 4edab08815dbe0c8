import Virthttp.HandlerContext

namespace Virthttp

open Program Interaction

abbrev Performed := Σ o, HandlerOp.Ret o

def Performed.error? : Performed → Option ℤ
  | ⟨.error code, _⟩ => some code
  | _ => none

def loggedErrors (h : Log HandlerOp.Ret) : List ℤ := h.filterMap Performed.error?

def Performed.exchange? (obj : Option Ptr) : Performed → Option Exchange
  | ⟨.domain c, r⟩ => some ⟨.domain obj c, r⟩
  | ⟨.network c, r⟩ => some ⟨.network obj c, r⟩
  | _ => none

def exchanges (obj : Option Ptr) (h : Log HandlerOp.Ret) : List Exchange :=
  h.filterMap (Performed.exchange? obj)

def Exchange.onObject (e : Exchange) : Bool :=
  match e.call with
  | .domain _ _ => true
  | .network _ _ => true
  | _ => false

theorem not_onObject_of_asksLastError {e : Exchange} (h : AsksLastError e) :
    e.onObject = false := by
  rcases h with h | h <;> simp [Exchange.onObject, h]

/-- The session `s` is what the operations of `h` make of `s₀`. -/
structure Tracks (s₀ : Session) (h : Log HandlerOp.Ret) (s : Session) : Prop where
  same : SameContext s₀ s
  success : s.res.success = (s₀.res.success && (loggedErrors h).isEmpty)
  calls : ∃ l, s.calls = s₀.calls ++ l ∧ l.filter Exchange.onObject = exchanges s₀.obj h ∧
    ∀ e ∈ l, e.onObject = true ∨ AsksLastError e

theorem Tracks.init (s : Session) : Tracks s [] s :=
  ⟨SameContext.refl s, by simp [loggedErrors], [], by simp [exchanges]⟩

/-- An operation is tracked if it adds what it stands for. -/
theorem Tracks.step {s₀ s s' : Session} {h : Log HandlerOp.Ret} {x : Performed}
    (ht : Tracks s₀ h s) (hsame : SameContext s s')
    (hsuccess : s'.res.success = (s.res.success && x.error?.isNone))
    (hcalls : ∃ l, s'.calls = s.calls ++ l ∧
      l.filter Exchange.onObject = (x.exchange? s₀.obj).toList ∧
      ∀ e ∈ l, e.onObject = true ∨ AsksLastError e) : Tracks s₀ (h ++ [x]) s' := by
  obtain ⟨l, hl, hfilter, hl'⟩ := ht.calls
  obtain ⟨k, hk, hfilter', hk'⟩ := hcalls
  refine ⟨ht.same.trans hsame, ?_, l ++ k, ?_, ?_, ?_⟩
  · rw [hsuccess, ht.success, loggedErrors, loggedErrors, List.filterMap_append, Bool.and_assoc]
    cases hx : x.error? <;> simp [hx]
  · rw [hk, hl, List.append_assoc]
  · rw [List.filter_append, hfilter, hfilter', exchanges, exchanges, List.filterMap_append]
    cases hx : x.exchange? s₀.obj <;> simp [hx]
  · intro e he
    exact (List.mem_append.mp he).elim (hl' e) (hk' e)

theorem perform_tracks (lv : Libvirt) (s₀ : Session) (h : Log HandlerOp.Ret) (s : Session)
    (o : HandlerOp) (ht : Tracks s₀ h s) :
    Holds (o.perform lv) s (fun r s' => Tracks s₀ (h ++ [⟨o, r⟩]) s') (fun _ _ => False) := by
  have hobj := ht.same.obj
  cases o with
  | domain c =>
    change Holds (reads Session.obj >>= fun dom => call lv (.domain dom c)) s _ _
    rw [holds_bind, holds_reads]
    refine call_holds fun a => ht.step ⟨rfl, rfl, rfl, rfl⟩ (by simp [Performed.error?]) ?_
    exact ⟨_, rfl, by rw [← hobj]; rfl, by simp [Exchange.onObject]⟩
  | network c =>
    change Holds (reads Session.obj >>= fun nw => call lv (.network nw c)) s _ _
    rw [holds_bind, holds_reads]
    refine call_holds fun a => ht.step ⟨rfl, rfl, rfl, rfl⟩ (by simp [Performed.error?]) ?_
    exact ⟨_, rfl, by rw [← hobj]; rfl, by simp [Exchange.onObject]⟩
  | lastError =>
    refine (extractLastError_holds lv s).mono ?_ (fun _ _ hf => hf)
    intro libvirt s' hs'
    obtain ⟨l, hl, hask⟩ := hs'.calls
    refine ht.step hs'.same (by simp [hs'.res, Performed.error?])
      ⟨l, hl, ?_, fun e he => Or.inr (hask e he)⟩
    simpa [Performed.exchange?] using fun e he => not_onObject_of_asksLastError (hask e he)
  | error code =>
    refine (error_holds lv code s).mono ?_ (fun _ _ hf => hf)
    intro _ s' hs'
    obtain ⟨l, hl, hask⟩ := hs'.calls
    obtain ⟨libvirt, hres⟩ := hs'.res
    refine ht.step hs'.same (by simp [hres, Performed.error?])
      ⟨l, hl, ?_, fun e he => Or.inr (hask e he)⟩
    simpa [Performed.exchange?] using fun e he => not_onObject_of_asksLastError (hask e he)
  | result val =>
    exact ht.step ⟨rfl, rfl, rfl, rfl⟩ (by simp [Performed.error?])
      ⟨[], by simp [Performed.exchange?]⟩
  | message val =>
    exact ht.step ⟨rfl, rfl, rfl, rfl⟩ (by simp [Performed.error?])
      ⟨[], by simp [Performed.exchange?]⟩

/-- A handler that is specified by its operations, run on a session. -/
theorem Act.run_holds {α : Type} {p : Act α} {Q : Log HandlerOp.Ret → α → Prop}
    {E : Log HandlerOp.Ret → Unit → Prop} (hp : Spec p [] Q E) (lv : Libvirt) (s : Session) :
    Holds (p.run lv) s (fun a s' => ∃ h, Tracks s h s' ∧ Q h a)
      (fun e s' => e = .aborted ∧ ∃ h, Tracks s h s' ∧ E h ()) := by
  refine (play_spec (perform_tracks lv s) hp (Tracks.init s)).mono (fun _ _ hq => hq) ?_
  rintro e s' ⟨h, ⟨⟩, rfl, ht, hE⟩
  exact ⟨rfl, h, ht, hE⟩

theorem error_run (lv : Libvirt) (code : ℤ) (s : Session) :
    ∃ s', error lv code s = (.ok (), s') ∧ Errored code s s' := by
  have hholds := error_holds lv code s
  unfold Holds at hholds
  generalize error lv code s = run at hholds ⊢
  obtain ⟨_ | u, s'⟩ := run
  · exact hholds.elim
  · exact ⟨s', rfl, hholds⟩

theorem fail_run (lv : Libvirt) (code : ℤ) (s : Session) :
    ∃ s', (Act.fail code).run lv s = (.ok .failure, s') ∧ Errored code s s' := by
  obtain ⟨s', hrun, hs'⟩ := error_run lv code s
  exact ⟨s', bind_run_ok hrun, hs'⟩

section Operations

variable {h : Log HandlerOp.Ret}

theorem spec_domain {c : DomainCall} {Q : Log HandlerOp.Ret → c.Ret → Prop}
    {E : Log HandlerOp.Ret → Unit → Prop} :
    Spec (Act.domain c) h Q E ↔ ∀ r, Q (h ++ [⟨.domain c, r⟩]) r := Iff.rfl

theorem spec_network {c : NetworkCall} {Q : Log HandlerOp.Ret → c.Ret → Prop}
    {E : Log HandlerOp.Ret → Unit → Prop} :
    Spec (Act.network c) h Q E ↔ ∀ r, Q (h ++ [⟨.network c, r⟩]) r := Iff.rfl

theorem spec_error {code : ℤ} {Q : Log HandlerOp.Ret → Unit → Prop}
    {E : Log HandlerOp.Ret → Unit → Prop} :
    Spec (Act.error code) h Q E ↔ Q (h ++ [⟨.error code, ()⟩]) () := ⟨fun h => h (), fun h _ => h⟩

theorem spec_result {val : JVal} {Q : Log HandlerOp.Ret → Unit → Prop}
    {E : Log HandlerOp.Ret → Unit → Prop} :
    Spec (Act.result val) h Q E ↔ Q (h ++ [⟨.result val, ()⟩]) () := ⟨fun h => h (), fun h _ => h⟩

theorem spec_message {val : JVal} {Q : Log HandlerOp.Ret → Unit → Prop}
    {E : Log HandlerOp.Ret → Unit → Prop} :
    Spec (Act.message val) h Q E ↔ Q (h ++ [⟨.message val, ()⟩]) () :=
  ⟨fun h => h (), fun h _ => h⟩

theorem spec_lastError {Q : Log HandlerOp.Ret → Str → Prop}
    {E : Log HandlerOp.Ret → Unit → Prop} :
    Spec Act.lastError h Q E ↔ ∀ libvirt, Q (h ++ [⟨.lastError, libvirt⟩]) libvirt := Iff.rfl

theorem spec_fail {code : ℤ} {Q : Log HandlerOp.Ret → DependsOutcome → Prop}
    {E : Log HandlerOp.Ret → Unit → Prop} :
    Spec (Act.fail code) h Q E ↔ Q (h ++ [⟨.error code, ()⟩]) .failure :=
  ⟨fun h => h (), fun h _ => h⟩

theorem spec_require {α : Type} {o : Option α} {Q : Log HandlerOp.Ret → α → Prop}
    {E : Log HandlerOp.Ret → Unit → Prop} :
    Spec (Act.require o) h Q E ↔ (∀ a, o = some a → Q h a) ∧ (o = none → E h ()) := by
  cases o with
  | none => simp [Act.require, Act.abort, spec_stop]
  | some a => simp [Act.require, spec_pure]

end Operations

def Loud (h : Log HandlerOp.Ret) : Prop := loggedErrors h ≠ []

theorem loud_append (h : Log HandlerOp.Ret) (x : Performed) :
    Loud (h ++ [x]) ↔ Loud h ∨ x.error?.isSome := by
  simp only [Loud, loggedErrors, List.filterMap_append, ne_eq, List.append_eq_nil_iff, not_and_or]
  cases hx : x.error? <;> simp [hx]

theorem not_loud_nil : ¬Loud [] := by
  simp [Loud, loggedErrors]

def Told (h : Log HandlerOp.Ret) (o : DependsOutcome) : Prop := o = .success ∨ Loud h

end Virthttp
