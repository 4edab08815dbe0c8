import Virthttp.AsyncHandler
import Virthttp.Compression

/-! `handle_request`: every HTTP request passes a chain of early exits and is answered at one of
them. -/
namespace Virthttp

structure Job where
  req : Request
  target : TargetParser

structure GeneralStore where
  config : IniConfig
  asyncStore : Runtime 32 Job

inductive Ending where
  | returned
  | threw (e : Exn)
  | aborted
  | spins
  deriving DecidableEq

/-- What the handling of a request comes to: the responses handed to `send`, the calls to libvirt
and the asynchronous store that it leaves. -/
structure Served where
  sent : List Response
  ending : Ending
  calls : List Exchange
  asyncStore : Runtime 32 Job

/-- The exits of `handle_request`. -/
inductive Route where
  | head
  | refused (why : Str)
  | retrieve (strId : Str)
  | launch (target : TargetParser)
  | json (target : TargetParser)

def supportedMethods : List Verb := [.get, .patch, .post, .delete]

def hasDoubleDot : Str → Bool
  | '.' :: '.' :: _ => true
  | _ :: xs => hasDoubleDot xs
  | [] => false

def routeOf (req : Request) : Route :=
  if req.method = .head then .head
  else if req.method ∉ supportedMethods then .refused (lit "Unknown/Unsupported HTTP-method")
  else if req.target.head? ≠ some '/' ∨ hasDoubleDot req.target = true then
    .refused (lit "Illegal request-target")
  else
    let target := TargetParser.ofUrl req.target
    match target.pathParts with
    | [] => .refused (lit "No module name specified")
    | front :: rest =>
      if front = lit "async" then
        match rest with
        | [strId] =>
          if target.getBool (lit "async") = some true then
            .refused (lit "Async retrieve cannot be async'ed")
          else .retrieve strId
        | _ => .refused (lit "Invalid request target")
      else if target.getBool (lit "async") = some true then .launch target
      else .json target

/-- What the constructor of a request leaves where it is moved from. -/
def Request.movedFrom (req : Request) : Request := { req with target := [], fields := [], body := [] }

def forwardPackid (req : Request) : Option Str :=
  let pakid := fieldOf req.fields (lit "X-Packet-ID")
  if pakid = [] then none else some pakid

def htmlResponse (libs : Libraries) (req : Request) (status : ℕ) (body : Str) : Response :=
  ⟨status, req.version, libs.beastVersion, lit "text/html", none, body.length, none,
    libs.keepAlive req.version req.fields, body⟩

def badRequest (libs : Libraries) (req : Request) (why : Str) : Response :=
  htmlResponse libs req 400 why

def serverError (libs : Libraries) (req : Request) (what : Str) : Response :=
  htmlResponse libs req 500 (lit "An error occurred: '" ++ what ++ lit "'")

def headResponse (libs : Libraries) (req : Request) : Response :=
  ⟨200, req.version, libs.beastVersion, lit "application/json", none, 0, none,
    libs.keepAlive req.version req.fields, []⟩

def jsonResponse (libs : Libraries) (req : Request) (status : ℕ) (body : Str) : Response :=
  ⟨status, req.version, libs.beastVersion, lit "application/json", none, body.length,
    forwardPackid req, libs.keepAlive req.version req.fields, body⟩

def send (res : Response) (asyncStore : Runtime 32 Job) : Served :=
  ⟨[res], .returned, [], asyncStore⟩

def serveRetrieve (libs : Libraries) (gstore : GeneralStore) (req : Request) (strId : Str) :
    Served :=
  match handleAsyncRetrieve gstore.asyncStore strId with
  | (.error e, store) => ⟨[], .threw e, [], store⟩
  | (.ok (code, body), store) => send (jsonResponse libs req code body) store

/-- The exit for an asynchronous request. The request has been moved into the worker when the
response is made. -/
def serveLaunch (libs : Libraries) (canSpawn : Bool) (gstore : GeneralStore) (req : Request)
    (target : TargetParser) : Served :=
  match gstore.asyncStore.launch ⟨req, target⟩ none canSpawn with
  | (none, store) =>
    send (serverError libs req.movedFrom (lit "Unable to enqueue async request")) store
  | (some (.id id), store) => send (jsonResponse libs req.movedFrom 200 (hexEncodeId id)) store
  | (some (.threw _ e), store) => ⟨[], .threw e, [], store⟩
  | (some .spins, store) => ⟨[], .spins, [], store⟩

def serveJson (libs : Libraries) (lv : Libvirt) (gstore : GeneralStore) (req : Request)
    (target : TargetParser) : Served :=
  match handleJson libs.rapidjson lv gstore.config req target with
  | (.error (.thrown e), s) => ⟨[], .threw e, s.calls, gstore.asyncStore⟩
  | (.error .aborted, s) => ⟨[], .aborted, s.calls, gstore.asyncStore⟩
  | (.ok (), s) =>
    let res := handleCompression libs req.fields
      (jsonResponse libs req 200 (cstr (libs.rapidjson.write s.res.document)))
    ⟨[{ res with contentLength := res.body.length }], .returned, s.calls, gstore.asyncStore⟩

/-- `handle_request`; `canSpawn` says whether a thread can be started. -/
def handleRequest (libs : Libraries) (lv : Libvirt) (canSpawn : Bool) (gstore : GeneralStore)
    (req : Request) : Served :=
  match routeOf req with
  | .head => send (headResponse libs req) gstore.asyncStore
  | .refused why => send (badRequest libs req why) gstore.asyncStore
  | .retrieve strId => serveRetrieve libs gstore req strId
  | .launch target => serveLaunch libs canSpawn gstore req target
  | .json target => serveJson libs lv gstore req target

/-- A launch adds at most one entry and one worker. -/
theorem launch_cases (rt : Runtime 32 Job) (job : Job) (canSpawn : Bool) :
    (rt.store.full = true ∧ rt.launch job none canSpawn = (none, rt)) ∨
    (rt.store.full = false ∧ rt.store.getFreeId = none ∧
      rt.launch job none canSpawn = (some .spins, rt)) ∨
    ∃ id, rt.store.full = false ∧ rt.store.getFreeId = some id ∧
      ((canSpawn = true ∧ rt.launch job none canSpawn = (some (.id id),
        { rt with
          store := rt.store.issue id (some rt.tasks.length)
          tasks := rt.tasks ++ [⟨id, job, none, .running⟩] })) ∨
      (canSpawn = false ∧ rt.launch job none canSpawn = (some (.threw id .systemError),
        { rt with store := rt.store.issue id none }))) := by
  unfold Runtime.launch Runtime.launchLocked
  cases hfull : rt.store.full with
  | true => exact Or.inl ⟨rfl, rfl⟩
  | false =>
    cases hfree : rt.store.getFreeId with
    | none => exact Or.inr (Or.inl ⟨rfl, rfl, rfl⟩)
    | some id =>
      refine Or.inr (Or.inr ⟨id, rfl, rfl, ?_⟩)
      cases canSpawn with
      | true =>
        refine Or.inl ⟨rfl, ?_⟩
        simp only [Bool.false_eq_true, if_false, if_true, AList.insert_twice]
        rfl
      | false => exact Or.inr ⟨rfl, rfl⟩

end Virthttp
