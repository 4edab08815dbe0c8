import Virthttp.Dispatch
import Virthttp.Handlers
import Virthttp.Solver

/-! `handle_json`: a request on libvirt objects is checked, dispatched and answered. -/
namespace Virthttp

open Program

inductive Verb where
  | get
  | post
  | patch
  | delete
  | head
  | other (n : ℕ)
  deriving DecidableEq

structure Request where
  method : Verb
  target : Str
  version : ℕ
  fields : List (Str × Str)
  body : Str

def fieldEq (a b : Str) : Bool := a.map Char.toLower == b.map Char.toLower

/-- `req[name]`: the first field of that name, empty where there is none. -/
def fieldOf (fields : List (Str × Str)) (name : Str) : Str :=
  ((fields.find? (fun f => fieldEq f.1 name)).map Prod.snd).getD []

structure IniConfig where
  httpAuthKeyRequired : Bool
  httpAuthKey : Str
  connURI : Str

/-- The library functions that `handle_json` relies on: `Parse` leaves a null document where the
text is no JSON. -/
structure Rapidjson where
  parse : Str → JVal
  write : JVal → Str

/-- What an index into `HandlerMethods::methods` and into the dispatchers stands for. -/
inductive Method where
  | create
  | query
  | alter
  | vacuum
  deriving DecidableEq

def verbToIdx : Verb → Option Method
  | .post => some .create
  | .get => some .query
  | .patch => some .alter
  | .delete => some .vacuum
  | _ => none

def HandlerMethods.methods (lv : Libvirt) (hdls : HandlerMethods) : Method → JVal → M DependsOutcome
  | .create, jval => hdls.create jval
  | .query, jval => (hdls.query jval).run lv
  | .alter, jval => (hdls.alter jval).run lv
  | .vacuum, jval => (hdls.vacuum jval).run lv

def domainJDispatchers : Method → JDispatch
  | .create => ⟨[some .string, some .object], [some .array]⟩
  | .query => ⟨jAll, []⟩
  | .alter => ⟨[some .object], [some .array]⟩
  | .vacuum => ⟨jAll, []⟩

def networkJDispatchers : Method → JDispatch := fun _ => ⟨jAll, []⟩

structure Subsystem where
  resolver : Resolver
  jdispatchers : Method → JDispatch
  handlers : Libvirt → Ptr → TargetParser → HandlerMethods

def domains : Subsystem := ⟨domainResolver, domainJDispatchers, domainHandlers⟩

def networks : Subsystem := ⟨networkResolver, networkJDispatchers, networkHandlers⟩

def subsystems : List (String × Subsystem) := [("domains", domains), ("networks", networks)]

/-- The objects that a request works on; creation resolves none. -/
def resolveFor (lv : Libvirt) (sub : Subsystem) (conn : Ptr) (req : Request)
    (target : TargetParser) : M (List Ptr) :=
  if req.method = .post then pure [] else sub.resolver.resolve lv conn target

def execBody (lv : Libvirt) (sub : Subsystem) (conn : Ptr) (target : TargetParser) (idx : Method)
    (jsonReq : JVal) : M Unit :=
  (sub.jdispatchers idx).exec lv jsonReq
    (invoke ((sub.handlers lv conn target).methods lv idx))

def execOn (lv : Libvirt) (sub : Subsystem) (conn : Ptr) (target : TargetParser) (idx : Method)
    (jsonReq : JVal) (v : Ptr) : M Unit := do
  modify (fun s => { s with obj := some v })
  execBody lv sub conn target idx jsonReq

def object (lib : Rapidjson) (lv : Libvirt) (sub : Subsystem) (conn : Ptr) (req : Request)
    (target : TargetParser) : M Unit := do
  let objs ← resolveFor lv sub conn req target
  modify (fun s => { s with resolved := objs })
  match verbToIdx req.method with
  | none => error lv 3
  | some idx =>
    let jsonReq := lib.parse (cstr req.body)
    if req.method = .post then execBody lv sub conn target idx jsonReq
    else forEach (execOn lv sub conn target idx jsonReq) objs

/-- What `handle_json` does before it writes the response. -/
def handleJsonBody (lib : Rapidjson) (lv : Libvirt) (config : IniConfig) (req : Request)
    (target : TargetParser) : M Unit :=
  if config.httpAuthKeyRequired ∧ fieldOf req.fields (lit "X-Auth-Key") ≠ config.httpAuthKey then
    error lv 1
  else
    match target.pathParts with
    | [] => error lv 4
    | [front] => if front ≠ lit "libvirt" then error lv 5 else error lv 6
    | front :: key :: _ =>
      if front ≠ lit "libvirt" then error lv 5
      else do
        let conn : Option Ptr ← call lv (.connectOpen (cstr config.connURI))
        match conn with
        | none => error lv 10
        | some conn =>
          match namedCall subsystems key with
          | none => error lv 7
          | some sub => object lib lv sub conn req target

/-- `handle_json`: how it ends, and the session that the response is written from. -/
def handleJson (lib : Rapidjson) (lv : Libvirt) (config : IniConfig) (req : Request)
    (target : TargetParser) : Except Stop Unit × Session :=
  handleJsonBody lib lv config req target Session.init

end Virthttp
