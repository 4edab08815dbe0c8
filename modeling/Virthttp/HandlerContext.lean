import Virthttp.Interaction
import Virthttp.JsonRes
import Virthttp.Libvirt

/-! What the handlers of one request work on: the response, the libvirt object they refer to and
the calls made so far. -/
namespace Virthttp

open Program Interaction

inductive DependsOutcome where
  | success
  | failure
  | skipped
  deriving DecidableEq

/-- Why a request does not run to its end: an exception, or a library function called outside
its contract, which aborts the server. -/
inductive Stop where
  | thrown (e : Exn)
  | aborted
  deriving DecidableEq

/-- The state of one request. The last three fields only record: the objects that were resolved,
the handler invocations with the object they were made for, and what they returned. -/
structure Session where
  res : JsonRes
  calls : List Exchange
  obj : Option Ptr
  resolved : List Ptr
  invoked : List (Option Ptr × JVal)
  outcomes : List DependsOutcome

def Session.init : Session := ⟨.init, [], none, [], [], []⟩

abbrev M := Prog Session Stop

def call (lv : Libvirt) (c : LvCall) : M c.Ret := do
  let answer ← reads (fun s => lv s.calls c)
  modify (fun s => { s with calls := s.calls ++ [⟨c, answer⟩] })
  return answer

def extractLastError (lv : Libvirt) : M Str := do
  let err : Option Str ← call lv .getLastError
  call lv .resetLastError
  return err.getD []

def libvirtText (lv : Libvirt) (code : ℤ) : M Str :=
  if code > 100 ∨ code < 0 then extractLastError lv else pure []

def error (lv : Libvirt) (code : ℤ) : M Unit := do
  let libvirt ← libvirtText lv code
  modify (fun s => { s with res := s.res.error code libvirt })

/-- What the handlers of an existing object can do. -/
inductive HandlerOp where
  | domain (c : DomainCall)
  | network (c : NetworkCall)
  | lastError
  | error (code : ℤ)
  | result (val : JVal)
  | message (val : JVal)

abbrev HandlerOp.Ret : HandlerOp → Type
  | .domain c => c.Ret
  | .network c => c.Ret
  | .lastError => Str
  | _ => Unit

abbrev Act := Script HandlerOp.Ret Unit

def HandlerOp.perform (lv : Libvirt) : (o : HandlerOp) → M o.Ret
  | .domain c => do
    let dom ← reads Session.obj
    call lv (.domain dom c)
  | .network c => do
    let nw ← reads Session.obj
    call lv (.network nw c)
  | .lastError => extractLastError lv
  | .error code => Virthttp.error lv code
  | .result val => modify (fun s => { s with res := s.res.result val })
  | .message val => modify (fun s => { s with res := s.res.message val })

def Act.run {α : Type} (lv : Libvirt) (p : Act α) : M α :=
  Script.play (HandlerOp.perform lv) (fun _ => .aborted) p

namespace Act

def domain (c : DomainCall) : Act c.Ret := ask HandlerOp.Ret (.domain c)
def network (c : NetworkCall) : Act c.Ret := ask HandlerOp.Ret (.network c)
def lastError : Act Str := ask HandlerOp.Ret .lastError
def error (code : ℤ) : Act Unit := ask HandlerOp.Ret (.error code)
def result (val : JVal) : Act Unit := ask HandlerOp.Ret (.result val)
def message (val : JVal) : Act Unit := ask HandlerOp.Ret (.message val)
def abort {α : Type} : Act α := .stop ()

/-- `return error(code), DependsOutcome::FAILURE` -/
def fail (code : ℤ) : Act DependsOutcome := do
  error code
  return .failure

/-- A value that has to be there for a library call to be within its contract. -/
def require {α : Type} : Option α → Act α
  | some a => pure a
  | none => abort

end Act

structure SameContext (s s' : Session) : Prop where
  obj : s'.obj = s.obj
  resolved : s'.resolved = s.resolved
  invoked : s'.invoked = s.invoked
  outcomes : s'.outcomes = s.outcomes

theorem SameContext.refl (s : Session) : SameContext s s := ⟨rfl, rfl, rfl, rfl⟩

theorem SameContext.trans {s₁ s₂ s₃ : Session} (h : SameContext s₁ s₂) (h' : SameContext s₂ s₃) :
    SameContext s₁ s₃ :=
  ⟨h'.obj.trans h.obj, h'.resolved.trans h.resolved, h'.invoked.trans h.invoked,
    h'.outcomes.trans h.outcomes⟩

def AsksLastError (e : Exchange) : Prop := e.call = .getLastError ∨ e.call = .resetLastError

structure Asked (s s' : Session) : Prop where
  res : s'.res = s.res
  calls : ∃ asked, s'.calls = s.calls ++ asked ∧ ∀ e ∈ asked, AsksLastError e
  same : SameContext s s'

structure Errored (code : ℤ) (s s' : Session) : Prop where
  res : ∃ libvirt, s'.res = s.res.error code libvirt
  calls : ∃ asked, s'.calls = s.calls ++ asked ∧ ∀ e ∈ asked, AsksLastError e
  same : SameContext s s'

theorem call_holds {lv : Libvirt} {c : LvCall} {s : Session} {Q : c.Ret → Session → Prop}
    {E : Stop → Session → Prop}
    (h : ∀ a, Q a { s with calls := s.calls ++ [⟨c, a⟩] }) : Holds (call lv c) s Q E :=
  h (lv s.calls c)

theorem extractLastError_holds (lv : Libvirt) (s : Session) :
    Holds (extractLastError lv) s (fun _ => Asked s) (fun _ _ => False) := by
  unfold extractLastError
  simp only [holds_bind]
  refine call_holds fun err => call_holds fun _ => ?_
  refine ⟨rfl, ⟨[⟨.getLastError, err⟩, ⟨.resetLastError, ()⟩], ?_, ?_⟩, ⟨rfl, rfl, rfl, rfl⟩⟩
  · simp
  · simp [AsksLastError]

theorem libvirtText_holds (lv : Libvirt) (code : ℤ) (s : Session) :
    Holds (libvirtText lv code) s (fun _ => Asked s) (fun _ _ => False) := by
  unfold libvirtText
  split
  · exact extractLastError_holds lv s
  · exact ⟨rfl, ⟨[], (List.append_nil _).symm, by simp⟩, SameContext.refl s⟩

theorem error_holds (lv : Libvirt) (code : ℤ) (s : Session) :
    Holds (error lv code) s (fun _ => Errored code s) (fun _ _ => False) := by
  unfold error
  rw [holds_bind]
  refine (libvirtText_holds lv code s).mono ?_ (fun _ _ hf => hf)
  intro libvirt s' hs'
  exact ⟨⟨libvirt, congrArg (fun r => JsonRes.error r code libvirt) hs'.res⟩, hs'.calls,
    ⟨hs'.same.obj, hs'.same.resolved, hs'.same.invoked, hs'.same.outcomes⟩⟩

end Virthttp
