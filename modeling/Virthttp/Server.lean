import Virthttp.AsyncSafety
import Virthttp.RequestHandler

/-! The server: any number of connections, each of which reads a request, has it handled and writes
the response before it reads the next one, and the workers that they start. What `launch` tests
before it takes the mutex of the store and what it does under it are steps of their own. -/
namespace Virthttp

/-- What a `Session` of HTTP/1 waits for: a request, the mutex in `launch`, or the end of the
writing of a response. -/
inductive HttpSession where
  | reading
  | launching (req : Request) (target : TargetParser)
  | writing (res : Response)
  | closed

def HttpSession.isLaunching : HttpSession → Bool
  | .launching _ _ => true
  | _ => false

inductive Arrival where
  | request (req : Request)
  | endOfStream
  | failed

/-- An exception that leaves `handle_request` ends the process, as an abort does. -/
structure Server where
  sessions : List HttpSession
  asyncStore : Runtime 32 Job
  terminated : Bool

def Server.empty : Server := ⟨[], Runtime.empty 32 Job, false⟩

def Response.needEof (res : Response) : Bool := !res.keepAlive

/-- The behaviour of libvirt is chosen anew whenever `handle_json` is run. -/
inductive ServerAction where
  | accept (ok : Bool)
  | read (i : ℕ) (arrival : Arrival) (lv : Libvirt)
  | launch (i : ℕ) (canSpawn : Bool)
  | wrote (i : ℕ) (ok : Bool)
  | compute (t : ℕ) (lv : Libvirt)
  | housekeep (t : ℕ) (now : ℤ)
  | publish (t : ℕ)

/-- What a step did: the response that was handed to `send`, if there was one, the calls to
libvirt, and the steps of the store. -/
inductive ServerEvent where
  | accepted (ok : Bool)
  | hungUp (i : ℕ)
  | received (i : ℕ) (req : Request) (sent : List Response) (calls : List Exchange)
      (stored : List (Event 32))
  | enqueued (i : ℕ) (job : Job) (sent : List Response) (ev : Event 32)
  | wrote (i : ℕ) (res : Response) (ok : Bool)
  | computed (t : ℕ) (calls : List Exchange) (stored : List (Event 32))
  | worker (ev : Event 32)

def ServerEvent.stored : ServerEvent → List (Event 32)
  | .received _ _ _ _ stored => stored
  | .enqueued _ _ _ ev => [ev]
  | .computed _ _ stored => stored
  | .worker ev => [ev]
  | _ => []

def ServerEvent.calls : ServerEvent → List Exchange
  | .received _ _ _ calls _ => calls
  | .computed _ calls _ => calls
  | _ => []

def ServerEvent.request? (i : ℕ) : ServerEvent → Option Request
  | .received j req _ _ _ => if j = i then some req else none
  | _ => none

def ServerEvent.responses (i : ℕ) : ServerEvent → List Response
  | .received j _ sent _ _ => if j = i then sent else []
  | .enqueued j _ sent _ => if j = i then sent else []
  | _ => []

def requestsOf (i : ℕ) (es : List ServerEvent) : List Request :=
  es.filterMap (ServerEvent.request? i)

def responsesOf (i : ℕ) (es : List ServerEvent) : List Response :=
  es.flatMap (ServerEvent.responses i)

def storeAction (req : Request) : Option (Action 32 Job) :=
  match routeOf req with
  | .retrieve strId => if numericIdMatch strId then some (.retrieve (hexDecodeId strId)) else none
  | .launch _ => some .arrive
  | _ => none

def storeEvents (rt : Runtime 32 Job) (req : Request) : List (Event 32) :=
  match storeAction req with
  | none => []
  | some a => ((rt.step a).map Prod.fst).toList

def workerResult (libs : Libraries) (lv : Libvirt) (config : IniConfig) (job : Job) :
    Except Stop Str :=
  match handleJson libs.rapidjson lv config job.req job.target with
  | (.ok (), s) => .ok (libs.rapidjson.write s.res.document)
  | (.error e, _) => .error e

/-- What the future of a worker is given: nothing where the process is aborted. -/
def futureOf : Except Stop Str → Option (Except Exn Str)
  | .ok ret => some (.ok ret)
  | .error (.thrown e) => some (.error e)
  | .error .aborted => none

def workerCalls (libs : Libraries) (lv : Libvirt) (config : IniConfig) (job : Job) :
    List Exchange :=
  (handleJson libs.rapidjson lv config job.req job.target).2.calls

namespace Server

def setSession (sv : Server) (i : ℕ) (session : HttpSession) : Server :=
  { sv with sessions := sv.sessions.set i session }

def afterHandling : List Response → HttpSession
  | [res] => .writing res
  | _ => .closed

def serve (sv : Server) (i : ℕ) (served : Served) : Server where
  sessions := sv.sessions.set i (afterHandling served.sent)
  asyncStore := served.asyncStore
  terminated := decide (served.ending ≠ .returned)

def handle (libs : Libraries) (config : IniConfig) (sv : Server) (i : ℕ) (req : Request)
    (lv : Libvirt) : ServerEvent × Server :=
  let stored := storeEvents sv.asyncStore req
  let answered :=
    let served := handleRequest libs lv true ⟨config, sv.asyncStore⟩ req
    (.received i req served.sent served.calls stored, sv.serve i served)
  match routeOf req with
  | .launch target =>
    if sv.asyncStore.store.full then answered
    else (.received i req [] [] stored,
      { sv.setSession i (.launching req target) with
        asyncStore := { sv.asyncStore with admitted := sv.asyncStore.admitted+1 } })
  | _ => answered

/-- The critical section of `launch` and the response that follows it. -/
def launch (libs : Libraries) (sv : Server) (i : ℕ) (job : Job) (canSpawn : Bool) :
    Option (ServerEvent × Server) :=
  match sv.asyncStore.step (.launch job none canSpawn) with
  | some (.launched t id before, rt) =>
    let res := jsonResponse libs job.req.movedFrom 200 (hexEncodeId id)
    some (.enqueued i job [res] (.launched t id before),
      { sv.setSession i (.writing res) with asyncStore := rt })
  | some (ev, rt) => some (.enqueued i job [] ev, ⟨sv.sessions.set i .closed, rt, true⟩)
  | none => none

def work (sv : Server) (a : Action 32 Job) : Option (Event 32 × Server) :=
  (sv.asyncStore.step a).map fun (ev, rt) => (ev, { sv with asyncStore := rt })

/-- The callable of a worker is run. An exception goes into the future, an abort does not. -/
def compute (libs : Libraries) (config : IniConfig) (sv : Server) (t : ℕ) (task : Task 32 Job)
    (lv : Libvirt) : Option (ServerEvent × Server) :=
  let calls := workerCalls libs lv config task.fcn
  match futureOf (workerResult libs lv config task.fcn), task.phase with
  | some r, _ => (sv.work (.compute t r)).map fun (ev, sv') => (.computed t calls [ev], sv')
  | none, .running => some (.computed t calls [], { sv with terminated := true })
  | none, _ => none

def step (libs : Libraries) (config : IniConfig) (sv : Server) (a : ServerAction) :
    Option (ServerEvent × Server) :=
  if sv.terminated then none
  else
    match a with
    | .accept true => some (.accepted true, { sv with sessions := sv.sessions ++ [.reading] })
    | .accept false => some (.accepted false, sv)
    | .read i arrival lv =>
      match sv.sessions[i]? with
      | some .reading =>
        match arrival with
        | .request req => some (sv.handle libs config i req lv)
        | _ => some (.hungUp i, sv.setSession i .closed)
      | _ => none
    | .launch i canSpawn =>
      match sv.sessions[i]? with
      | some (.launching req target) => sv.launch libs i ⟨req, target⟩ canSpawn
      | _ => none
    | .wrote i ok =>
      match sv.sessions[i]? with
      | some (.writing res) =>
        some (.wrote i res ok, sv.setSession i (if ok && !res.needEof then .reading else .closed))
      | _ => none
    | .compute t lv =>
      match sv.asyncStore.tasks[t]? with
      | some task => sv.compute libs config t task lv
      | none => none
    | .housekeep t now => (sv.work (.housekeep t now)).map fun (ev, sv') => (.worker ev, sv')
    | .publish t => (sv.work (.publish t)).map fun (ev, sv') => (.worker ev, sv')

end Server

def serverRun (libs : Libraries) (config : IniConfig) (as : List ServerAction) :
    Option (List ServerEvent × Server) :=
  Runs.exec (Server.step libs config) Server.empty as

inductive ServerTurn (libs : Libraries) (config : IniConfig) (sv : Server) :
    ServerEvent → Server → Prop
  | accepted :
      ServerTurn libs config sv (.accepted true) { sv with sessions := sv.sessions ++ [.reading] }
  | notAccepted : ServerTurn libs config sv (.accepted false) sv
  | hungUp (i : ℕ) (hi : sv.sessions[i]? = some .reading) :
      ServerTurn libs config sv (.hungUp i) (sv.setSession i .closed)
  | admitted (i : ℕ) (req : Request) (target : TargetParser)
      (hi : sv.sessions[i]? = some .reading) (hroute : routeOf req = .launch target)
      (hroom : sv.asyncStore.store.full = false) :
      ServerTurn libs config sv (.received i req [] [] [.admitted true])
        { sv.setSession i (.launching req target) with
          asyncStore := { sv.asyncStore with admitted := sv.asyncStore.admitted+1 } }
  | answered (i : ℕ) (req : Request) (lv : Libvirt) (served : Served)
      (hi : sv.sessions[i]? = some .reading)
      (hexit : ∀ target, routeOf req = .launch target → sv.asyncStore.store.full = true)
      (hserved : served = handleRequest libs lv true ⟨config, sv.asyncStore⟩ req) :
      ServerTurn libs config sv
        (.received i req served.sent served.calls (storeEvents sv.asyncStore req))
        (sv.serve i served)
  | launched (i : ℕ) (job : Job) (t : ℕ) (id : BitVec 32) (before : AsyncStore 32)
      (rt : Runtime 32 Job) (res : Response)
      (hi : sv.sessions[i]? = some (.launching job.req job.target))
      (hstep : sv.asyncStore.step (.launch job none true) = some (.launched t id before, rt))
      (hres : res = jsonResponse libs job.req.movedFrom 200 (hexEncodeId id)) :
      ServerTurn libs config sv (.enqueued i job [res] (.launched t id before))
        { sv.setSession i (.writing res) with asyncStore := rt }
  | launchFailed (i : ℕ) (job : Job) (id : BitVec 32) (before : AsyncStore 32)
      (rt : Runtime 32 Job) (hi : sv.sessions[i]? = some (.launching job.req job.target))
      (hstep : sv.asyncStore.step (.launch job none false) =
        some (.launchFailed id before, rt)) :
      ServerTurn libs config sv (.enqueued i job [] (.launchFailed id before))
        ⟨sv.sessions.set i .closed, rt, true⟩
  | wrote (i : ℕ) (ok : Bool) (res : Response) (hi : sv.sessions[i]? = some (.writing res)) :
      ServerTurn libs config sv (.wrote i res ok)
        (sv.setSession i (if ok && !res.needEof then .reading else .closed))
  | computed (t : ℕ) (task : Task 32 Job) (lv : Libvirt) (r : Except Exn Str)
      (rt : Runtime 32 Job) (ht : sv.asyncStore.tasks[t]? = some task)
      (hr : futureOf (workerResult libs lv config task.fcn) = some r)
      (hstep : sv.asyncStore.step (.compute t r) = some (.computed t r, rt)) :
      ServerTurn libs config sv (.computed t (workerCalls libs lv config task.fcn) [.computed t r])
        { sv with asyncStore := rt }
  | workerAborted (t : ℕ) (task : Task 32 Job) (lv : Libvirt)
      (ht : sv.asyncStore.tasks[t]? = some task) (hphase : task.phase = .running)
      (hr : futureOf (workerResult libs lv config task.fcn) = none) :
      ServerTurn libs config sv (.computed t (workerCalls libs lv config task.fcn) [])
        { sv with terminated := true }
  | housekept (t : ℕ) (now : ℤ) (ev : Event 32) (rt : Runtime 32 Job)
      (hstep : sv.asyncStore.step (.housekeep t now) = some (ev, rt)) :
      ServerTurn libs config sv (.worker ev) { sv with asyncStore := rt }
  | published (t : ℕ) (ev : Event 32) (rt : Runtime 32 Job)
      (hstep : sv.asyncStore.step (.publish t) = some (ev, rt)) :
      ServerTurn libs config sv (.worker ev) { sv with asyncStore := rt }

variable {libs : Libraries} {config : IniConfig} {sv sv' : Server} {ev : ServerEvent}

theorem storeEvents_admitted {rt : Runtime 32 Job} {req : Request} {target : TargetParser}
    (hroute : routeOf req = .launch target) (hroom : rt.store.full = false) :
    storeEvents rt req = [.admitted true] := by
  have haction : storeAction req = some .arrive := by
    rw [storeAction, hroute]
  simp [storeEvents, haction, Runtime.step, hroom]

theorem handle_turn {i : ℕ} (hi : sv.sessions[i]? = some .reading) (req : Request) (lv : Libvirt) :
    ServerTurn libs config sv (sv.handle libs config i req lv).1
      (sv.handle libs config i req lv).2 := by
  have hanswer (hexit : ∀ target, routeOf req = .launch target → sv.asyncStore.store.full = true) :=
    @ServerTurn.answered libs config sv i req lv _ hi hexit rfl
  unfold Server.handle
  cases hroute : routeOf req with
  | launch target =>
    cases hfull : sv.asyncStore.store.full with
    | true => exact hanswer fun _ _ => hfull
    | false =>
      rw [storeEvents_admitted hroute hfull]
      exact .admitted i req target hi hroute hfull
  | _ => exact hanswer fun target h => by simp [hroute] at h

theorem launch_turn {i : ℕ} {job : Job} {canSpawn : Bool}
    (hi : sv.sessions[i]? = some (.launching job.req job.target))
    (h : sv.launch libs i job canSpawn = some (ev, sv')) : ServerTurn libs config sv ev sv' := by
  unfold Server.launch at h
  cases hstep : sv.asyncStore.step (.launch job none canSpawn) with
  | none => simp [hstep] at h
  | some x =>
    obtain ⟨ev', rt⟩ := x
    obtain ⟨n, id, _, _, ⟨rfl, rfl, _⟩ | ⟨rfl, rfl, _⟩⟩ := step_launch_inv hstep
    · simp only [hstep, Option.some.injEq, Prod.mk.injEq] at h
      obtain ⟨rfl, rfl⟩ := h
      exact .launched i job _ id _ rt _ hi hstep rfl
    · simp only [hstep, Option.some.injEq, Prod.mk.injEq] at h
      obtain ⟨rfl, rfl⟩ := h
      exact .launchFailed i job id _ rt hi hstep

theorem step_compute_label {rt rt' : Runtime 32 Job} {t : ℕ} {r : Except Exn Str} {ev : Event 32}
    (h : rt.step (.compute t r) = some (ev, rt')) : ev = .computed t r := by
  simp only [Runtime.step] at h
  split at h
  · contradiction
  · split at h
    · cases h
      rfl
    · contradiction

theorem work_eq_some {a : Action 32 Job} {ev : Event 32}
    (h : sv.work a = some (ev, sv')) :
    ∃ rt, sv.asyncStore.step a = some (ev, rt) ∧ sv' = { sv with asyncStore := rt } := by
  obtain ⟨⟨ev', rt⟩, hstep, heq⟩ := Option.map_eq_some_iff.mp h
  obtain ⟨rfl, rfl⟩ := Prod.mk.inj heq
  exact ⟨rt, hstep, rfl⟩

theorem compute_turn {t : ℕ} {task : Task 32 Job} {lv : Libvirt}
    (ht : sv.asyncStore.tasks[t]? = some task)
    (h : sv.compute libs config t task lv = some (ev, sv')) : ServerTurn libs config sv ev sv' := by
  unfold Server.compute at h
  cases hr : futureOf (workerResult libs lv config task.fcn) with
  | some r =>
    simp only [hr] at h
    obtain ⟨⟨ev', sv₁⟩, hwork, heq⟩ := Option.map_eq_some_iff.mp h
    obtain ⟨rt, hstep, rfl⟩ := work_eq_some hwork
    obtain ⟨rfl, rfl⟩ := Prod.mk.inj heq
    obtain rfl := step_compute_label hstep
    exact .computed t task lv r rt ht hr hstep
  | none =>
    cases hphase : task.phase with
    | running =>
      simp only [hr, hphase, Option.some.injEq, Prod.mk.injEq] at h
      obtain ⟨rfl, rfl⟩ := h
      exact .workerAborted t task lv ht hphase hr
    | _ => simp [hr, hphase] at h

theorem turn_cases {a : ServerAction} (h : sv.step libs config a = some (ev, sv')) :
    sv.terminated = false ∧ ServerTurn libs config sv ev sv' := by
  unfold Server.step at h
  split at h
  · contradiction
  rename_i halive
  refine ⟨Bool.eq_false_iff.mpr halive, ?_⟩
  cases a with
  | accept ok =>
    cases ok with
    | true =>
      cases h
      exact .accepted
    | false =>
      cases h
      exact .notAccepted
  | read i arrival lv =>
    simp only at h
    split at h
    · rename_i hi
      cases arrival with
      | request req =>
        have hturn := @handle_turn libs config sv i hi req lv
        simp only [Option.some.injEq] at h
        rwa [h] at hturn
      | endOfStream | failed =>
        cases h
        exact .hungUp i hi
    · contradiction
  | launch i canSpawn =>
    simp only at h
    split at h
    · rename_i req target hi
      exact @launch_turn libs config sv sv' ev i ⟨req, target⟩ canSpawn hi h
    · contradiction
  | wrote i ok =>
    simp only at h
    split at h
    · rename_i res hi
      cases h
      exact .wrote i ok res hi
    · contradiction
  | compute t lv =>
    simp only at h
    split at h
    · rename_i task ht
      exact compute_turn ht h
    · contradiction
  | housekeep t now =>
    obtain ⟨⟨ev', sv₁⟩, hwork, heq⟩ := Option.map_eq_some_iff.mp h
    obtain ⟨rt, hstep, rfl⟩ := work_eq_some hwork
    obtain ⟨rfl, rfl⟩ := Prod.mk.inj heq
    exact .housekept t now ev' rt hstep
  | publish t =>
    obtain ⟨⟨ev', sv₁⟩, hwork, heq⟩ := Option.map_eq_some_iff.mp h
    obtain ⟨rt, hstep, rfl⟩ := work_eq_some hwork
    obtain ⟨rfl, rfl⟩ := Prod.mk.inj heq
    exact .published t ev' rt hstep

end Virthttp
