import Virthttp.AsyncNaturality
import Virthttp.ServerResults

/-! What a client gains from `Accept-Encoding`: a server whose clients send that field and decode
what they get is in step with one whose clients do not send it. -/
namespace Virthttp

open Program

def plainFields (fields : List (Str × Str)) : List (Str × Str) :=
  fields.filter (fun f => !fieldEq f.1 (lit "Accept-Encoding"))

def Request.plain (req : Request) : Request := { req with fields := plainFields req.fields }

def Job.plain (job : Job) : Job := ⟨job.req.plain, job.target⟩

def ServerAction.plain : ServerAction → ServerAction
  | .read i (.request req) lv => .read i (.request req.plain) lv
  | a => a

def Response.decoded (gunzip inflate : Str → Option Str) (res : Response) : Option Str :=
  match res.contentEncoding with
  | none => some res.body
  | some encoding =>
    if encoding = lit "gzip" then gunzip res.body
    else if encoding = lit "deflate" then inflate res.body
    else none

/-- The response says what the plain one says: it differs in nothing but the encoding, and its
length is that of its body. A body that has grown in being compressed is not what the compressor
has written, as the buffer that it writes to has the size of the plain body. -/
structure SameMessage (gunzip inflate : Str → Option Str) (res plain : Response) : Prop where
  head : { res with
    contentEncoding := none
    contentLength := plain.contentLength
    body := plain.body } = plain
  length : res.contentLength = res.body.length
  plainLength : plain.contentLength = plain.body.length
  body : res.body.length ≤ plain.body.length →
    res.decoded gunzip inflate = some plain.body

variable {gunzip inflate : Str → Option Str}

theorem SameMessage.refl {res : Response} (hencoding : res.contentEncoding = none)
    (hlength : res.contentLength = res.body.length) : SameMessage gunzip inflate res res where
  head := by rw [← hencoding]
  length := hlength
  plainLength := hlength
  body _ := by rw [Response.decoded, hencoding]

/-- Other fields are found where they were. -/
theorem fieldOf_plainFields {name : Str}
    (h : name.map Char.toLower ≠ (lit "Accept-Encoding").map Char.toLower)
    (fields : List (Str × Str)) : fieldOf (plainFields fields) name = fieldOf fields name := by
  unfold fieldOf plainFields
  rw [List.find?_filter]
  have hsame (f : Str × Str) : decide ((!fieldEq f.1 (lit "Accept-Encoding")) = true ∧
      fieldEq f.1 name = true) = fieldEq f.1 name := by
    by_cases hname : fieldEq f.1 name = true
    · have hother : fieldEq f.1 (lit "Accept-Encoding") = false := by
        rw [Bool.eq_false_iff]
        intro heq
        simp only [fieldEq, beq_iff_eq] at hname heq
        exact h (hname.symm.trans heq)
      simp [hname, hother]
    · simp [hname]
  simp only [hsame]

theorem fieldOf_plainFields_encoding (fields : List (Str × Str)) :
    fieldOf (plainFields fields) (lit "Accept-Encoding") = [] := by
  unfold fieldOf plainFields
  rw [List.find?_filter, List.find?_eq_none.mpr]
  · rfl
  · simp

theorem forwardPackid_plain (req : Request) : forwardPackid req.plain = forwardPackid req := by
  have hfield : fieldOf (plainFields req.fields) (lit "X-Packet-ID") =
      fieldOf req.fields (lit "X-Packet-ID") := fieldOf_plainFields (by decide) req.fields
  simp only [forwardPackid, Request.plain, hfield]

/-- What `handle_json` does is not told by the encodings that a client accepts. -/
theorem handleJson_plain (lib : Rapidjson) (lv : Libvirt) (config : IniConfig) (req : Request)
    (target : TargetParser) :
    handleJson lib lv config req.plain target = handleJson lib lv config req target := by
  have hkey : fieldOf (plainFields req.fields) (lit "X-Auth-Key") =
      fieldOf req.fields (lit "X-Auth-Key") := fieldOf_plainFields (by decide) req.fields
  have hfields : req.plain.fields = plainFields req.fields := rfl
  have hobject (sub : Subsystem) (conn : Ptr) :
      object lib lv sub conn req.plain target = object lib lv sub conn req target := rfl
  unfold handleJson handleJsonBody
  simp only [hfields, hkey, hobject]

/-- What is assumed of the libraries: compressors whose output fits into their buffer can be
undone, and whether a connection is kept open is not told by the encodings. -/
structure Lossless (libs : Libraries) (gunzip inflate : Str → Option Str) : Prop where
  gzip : ∀ body out, libs.gzip body = some out → out.length ≤ body.length →
    gunzip out = some body
  zlib : ∀ body out, libs.zlib body = some out → out.length ≤ body.length →
    inflate out = some body
  keepAlive : ∀ version fields, libs.keepAlive version (plainFields fields) =
    libs.keepAlive version fields

variable {libs : Libraries} {config : IniConfig}

theorem compressed_same (hlibs : Lossless libs gunzip inflate)
    (inHead : List (Str × Str)) {res : Response} (hencoding : res.contentEncoding = none)
    (hlength : res.contentLength = res.body.length) {out : Response}
    (hout : out = handleCompression libs inHead res) :
    SameMessage gunzip inflate { out with contentLength := out.body.length } res := by
  have hkeep : SameMessage gunzip inflate { res with contentLength := res.body.length } res := by
    rw [← hlength]
    exact .refl hencoding hlength
  have hwith {compress decode : Str → Option Str} {encoding : String}
      (hdecode : ∀ c, compress res.body = some c → c.length ≤ res.body.length →
        decode c = some res.body)
      (hread : ∀ r : Response, r.contentEncoding = some (lit encoding) →
        r.decoded gunzip inflate = decode r.body) :
      SameMessage gunzip inflate
        { compressWith compress encoding res with
          contentLength := (compressWith compress encoding res).body.length } res := by
    unfold compressWith
    cases hcompress : compress res.body with
    | none => exact hkeep
    | some c =>
      refine ⟨by rw [← hencoding], rfl, hlength, fun hfits => ?_⟩
      rw [hread _ rfl]
      exact hdecode c hcompress hfits
  rw [hout]
  unfold handleCompression
  simp only
  split
  · exact hkeep
  · split
    · exact hkeep
    · split
      · exact hwith (hlibs.gzip res.body) fun r hr => by simp [Response.decoded, hr]
      · split
        · refine hwith (hlibs.zlib res.body) fun r hr => ?_
          have hne : lit "deflate" ≠ lit "gzip" := by decide
          simp [Response.decoded, hr, hne]
        · exact hkeep

structure SameServed (gunzip inflate : Str → Option Str) (served plain : Served) : Prop where
  sent : List.Forall₂ (SameMessage gunzip inflate) served.sent plain.sent
  ending : plain.ending = served.ending
  calls : plain.calls = served.calls
  asyncStore : plain.asyncStore = served.asyncStore.mapFcn Job.plain

theorem send_same {res plain : Response} (h : SameMessage gunzip inflate res plain)
    (rt : Runtime 32 Job) :
    SameServed gunzip inflate (send res rt) (send plain (rt.mapFcn Job.plain)) :=
  ⟨.cons h .nil, rfl, rfl, rfl⟩

theorem jsonResponse_same (hlibs : Lossless libs gunzip inflate) (req : Request) (status : ℕ)
    (body : Str) : jsonResponse libs req.plain status body = jsonResponse libs req status body := by
  simp only [jsonResponse, forwardPackid_plain]
  simp only [Request.plain, hlibs.keepAlive]

theorem jsonResponse_refl (libs : Libraries) (req : Request) (status : ℕ) (body : Str) :
    SameMessage gunzip inflate (jsonResponse libs req status body)
      (jsonResponse libs req status body) := .refl rfl rfl

theorem serveRetrieve_same (hlibs : Lossless libs gunzip inflate) (rt : Runtime 32 Job)
    (req : Request) (strId : Str) : SameServed gunzip inflate
      (serveRetrieve libs ⟨config, rt⟩ req strId)
      (serveRetrieve libs ⟨config, rt.mapFcn Job.plain⟩ req.plain strId) := by
  have hretrieve : handleAsyncRetrieve (rt.mapFcn Job.plain) strId =
      ((handleAsyncRetrieve rt strId).1, (handleAsyncRetrieve rt strId).2.mapFcn Job.plain) := by
    unfold handleAsyncRetrieve
    simp only [valueIfReady_mapFcn]
    split <;> rfl
  unfold serveRetrieve
  simp only [hretrieve]
  rcases handleAsyncRetrieve rt strId with ⟨_ | ⟨code, body⟩, store⟩
  · exact ⟨.nil, rfl, rfl, rfl⟩
  · simp only [jsonResponse_same hlibs]
    exact send_same (jsonResponse_refl _ _ _ _) store

theorem serveJson_same (hlibs : Lossless libs gunzip inflate) (lv : Libvirt)
    (rt : Runtime 32 Job) (req : Request) (target : TargetParser) : SameServed gunzip inflate
      (serveJson libs lv ⟨config, rt⟩ req target)
      (serveJson libs lv ⟨config, rt.mapFcn Job.plain⟩ req.plain target) := by
  unfold serveJson
  simp only [handleJson_plain]
  generalize handleJson libs.rapidjson lv config req target = run
  rcases run with ⟨(x | _) | ⟨⟩, s⟩
  · exact ⟨.nil, rfl, rfl, rfl⟩
  · exact ⟨.nil, rfl, rfl, rfl⟩
  · refine ⟨.cons ?_ .nil, rfl, rfl, rfl⟩
    rw [jsonResponse_same hlibs]
    have hplain (res : Response) : handleCompression libs req.plain.fields res = res := by
      unfold handleCompression
      rw [Request.plain, fieldOf_plainFields_encoding, if_pos rfl]
    rw [hplain]
    exact compressed_same hlibs req.fields rfl rfl rfl

theorem handleRequest_same (hlibs : Lossless libs gunzip inflate) (lv : Libvirt)
    {rt : Runtime 32 Job} {req : Request}
    (hexit : ∀ target, routeOf req = .launch target → rt.store.full = true) :
    SameServed gunzip inflate (handleRequest libs lv true ⟨config, rt⟩ req)
      (handleRequest libs lv true ⟨config, rt.mapFcn Job.plain⟩ req.plain) := by
  have hroute : routeOf req.plain = routeOf req := rfl
  unfold handleRequest
  rw [hroute]
  cases hcase : routeOf req with
  | head =>
    have hres : headResponse libs req.plain = headResponse libs req := by
      simp only [headResponse, Request.plain, hlibs.keepAlive]
    simp only [hres]
    exact send_same (.refl rfl rfl) rt
  | refused why =>
    have hres : badRequest libs req.plain why = badRequest libs req why := by
      simp only [badRequest, htmlResponse, Request.plain, hlibs.keepAlive]
    simp only [hres]
    exact send_same (.refl rfl rfl) rt
  | retrieve strId => exact serveRetrieve_same hlibs rt req strId
  | launch target =>
    have hfull := hexit target hcase
    have hfull' : (rt.mapFcn Job.plain).store.full = true := hfull
    simp only [serveLaunch_full hfull, serveLaunch_full hfull']
    exact send_same (.refl rfl rfl) rt
  | json target => exact serveJson_same hlibs lv rt req target

inductive SameSession (gunzip inflate : Str → Option Str) : HttpSession → HttpSession → Prop
  | reading : SameSession gunzip inflate .reading .reading
  | launching (req : Request) (target : TargetParser) :
      SameSession gunzip inflate (.launching req target) (.launching req.plain target)
  | writing (res plain : Response) (h : SameMessage gunzip inflate res plain) :
      SameSession gunzip inflate (.writing res) (.writing plain)
  | closed : SameSession gunzip inflate .closed .closed

structure SameServer (gunzip inflate : Str → Option Str) (sv plain : Server) : Prop where
  sessions : List.Forall₂ (SameSession gunzip inflate) sv.sessions plain.sessions
  asyncStore : plain.asyncStore = sv.asyncStore.mapFcn Job.plain
  terminated : plain.terminated = sv.terminated

inductive SameEvent (gunzip inflate : Str → Option Str) : ServerEvent → ServerEvent → Prop
  | accepted (ok : Bool) : SameEvent gunzip inflate (.accepted ok) (.accepted ok)
  | hungUp (i : ℕ) : SameEvent gunzip inflate (.hungUp i) (.hungUp i)
  | received (i : ℕ) (req : Request) (sent plain : List Response) (calls : List Exchange)
      (stored : List (Event 32)) (h : List.Forall₂ (SameMessage gunzip inflate) sent plain) :
      SameEvent gunzip inflate (.received i req sent calls stored)
        (.received i req.plain plain calls stored)
  | enqueued (i : ℕ) (job : Job) (sent : List Response) (ev : Event 32) :
      SameEvent gunzip inflate (.enqueued i job sent ev) (.enqueued i job.plain sent ev)
  | wrote (i : ℕ) (res plain : Response) (ok : Bool) (h : SameMessage gunzip inflate res plain) :
      SameEvent gunzip inflate (.wrote i res ok) (.wrote i plain ok)
  | computed (t : ℕ) (calls : List Exchange) (stored : List (Event 32)) :
      SameEvent gunzip inflate (.computed t calls stored) (.computed t calls stored)
  | worker (ev : Event 32) : SameEvent gunzip inflate (.worker ev) (.worker ev)

theorem forall₂_getElem? {α β : Type} {R : α → β → Prop} {l : List α} {l' : List β}
    (h : List.Forall₂ R l l') (i : ℕ) : Option.Rel R l[i]? l'[i]? := by
  induction h generalizing i with
  | nil => exact .none
  | cons hhead _ ih =>
    cases i with
    | zero => exact .some hhead
    | succ i => exact ih i

theorem forall₂_set {α β : Type} {R : α → β → Prop} {l : List α} {l' : List β}
    (h : List.Forall₂ R l l') {a : α} {b : β} (hab : R a b) (i : ℕ) :
    List.Forall₂ R (l.set i a) (l'.set i b) := by
  induction h generalizing i with
  | nil => exact .nil
  | cons hhead htail ih =>
    cases i with
    | zero => exact .cons hab htail
    | succ i => exact .cons hhead (ih i)

section Step

variable {sv plain : Server}

abbrev SameStep (gunzip inflate : Str → Option Str) :
    Option (ServerEvent × Server) → Option (ServerEvent × Server) → Prop :=
  Option.Rel fun x y => SameEvent gunzip inflate x.1 y.1 ∧ SameServer gunzip inflate x.2 y.2

theorem sameStep_some {ev ev' : ServerEvent} (hev : SameEvent gunzip inflate ev ev')
    (hsv : SameServer gunzip inflate sv plain) :
    SameStep gunzip inflate (some (ev, sv)) (some (ev', plain)) := .some ⟨hev, hsv⟩

theorem SameServer.setSession (h : SameServer gunzip inflate sv plain)
    {new new' : HttpSession} (hnew : SameSession gunzip inflate new new') (i : ℕ) :
    SameServer gunzip inflate (sv.setSession i new) (plain.setSession i new') :=
  ⟨forall₂_set h.sessions hnew i, h.asyncStore, h.terminated⟩

theorem afterHandling_same {sent sent' : List Response}
    (h : List.Forall₂ (SameMessage gunzip inflate) sent sent') :
    SameSession gunzip inflate (Server.afterHandling sent) (Server.afterHandling sent') := by
  cases h with
  | nil => exact .closed
  | cons hhead htail =>
    cases htail with
    | nil => exact .writing _ _ hhead
    | cons _ _ => exact .closed

theorem storeEvents_plain (rt : Runtime 32 Job) (req : Request) :
    storeEvents (rt.mapFcn Job.plain) req.plain = storeEvents rt req := by
  have haction : storeAction req.plain = storeAction req := rfl
  have hmap {a : Action 32 Job} (ha : storeAction req = some a) : a.mapFcn Job.plain = a := by
    unfold storeAction at ha
    split at ha
    · split at ha <;> cases ha
      rfl
    · cases ha
      rfl
    · contradiction
  unfold storeEvents
  rw [haction]
  cases ha : storeAction req with
  | none => rfl
  | some a =>
    have hstep := step_mapFcn Job.plain rt a
    rw [hmap ha] at hstep
    simp only [hstep, Option.map_map]
    rfl

theorem handle_same (hlibs : Lossless libs gunzip inflate)
    (h : SameServer gunzip inflate sv plain) (i : ℕ) (req : Request) (lv : Libvirt) :
    SameEvent gunzip inflate (sv.handle libs config i req lv).1
      (plain.handle libs config i req.plain lv).1 ∧
    SameServer gunzip inflate (sv.handle libs config i req lv).2
      (plain.handle libs config i req.plain lv).2 := by
  have hroute : routeOf req.plain = routeOf req := rfl
  have hanswer (hexit : ∀ target, routeOf req = .launch target →
      sv.asyncStore.store.full = true) :
      let served := handleRequest libs lv true ⟨config, sv.asyncStore⟩ req
      let served' := handleRequest libs lv true ⟨config, plain.asyncStore⟩ req.plain
      SameEvent gunzip inflate
        (.received i req served.sent served.calls (storeEvents sv.asyncStore req))
        (.received i req.plain served'.sent served'.calls
          (storeEvents plain.asyncStore req.plain)) ∧
      SameServer gunzip inflate (sv.serve i served) (plain.serve i served') := by
    rw [h.asyncStore, storeEvents_plain]
    obtain ⟨hsent, hending, hcalls, hstore⟩ := @handleRequest_same gunzip inflate libs config
      hlibs lv sv.asyncStore req hexit
    dsimp only
    rw [hcalls]
    refine ⟨.received _ _ _ _ _ _ hsent, forall₂_set h.sessions (afterHandling_same hsent) i,
      hstore, ?_⟩
    simp only [Server.serve, hending]
  unfold Server.handle
  rw [hroute]
  cases hcase : routeOf req with
  | launch target =>
    have hfull : plain.asyncStore.store.full = sv.asyncStore.store.full := by
      rw [h.asyncStore]
      rfl
    simp only [hfull]
    cases hroom : sv.asyncStore.store.full with
    | true => exact hanswer fun _ _ => hroom
    | false =>
      simp only [Bool.false_eq_true, if_false, h.asyncStore, storeEvents_plain]
      refine ⟨.received _ _ _ _ _ _ .nil, ?_⟩
      exact ⟨forall₂_set h.sessions (.launching req target) i, rfl, h.terminated⟩
  | _ => exact hanswer fun target hlaunch => by simp [hcase] at hlaunch

/-- A step of the store alone -/
theorem work_same (h : SameServer gunzip inflate sv plain) {a : Action 32 Job}
    (ha : a.mapFcn Job.plain = a) :
    Option.Rel (fun x y => y.1 = x.1 ∧ SameServer gunzip inflate x.2 y.2)
      (sv.work a) (plain.work a) := by
  unfold Server.work
  have hstep := step_mapFcn Job.plain sv.asyncStore a
  rw [ha] at hstep
  rw [h.asyncStore, hstep]
  cases sv.asyncStore.step a with
  | none => exact .none
  | some x => exact .some ⟨rfl, h.sessions, rfl, h.terminated⟩

theorem launch_sameServer (libs : Libraries) (h : SameServer gunzip inflate sv plain) (i : ℕ)
    (job : Job) (canSpawn : Bool) :
    SameStep gunzip inflate (sv.launch libs i job canSpawn)
      (plain.launch libs i job.plain canSpawn) := by
  have hstep := step_mapFcn Job.plain sv.asyncStore (.launch job none canSpawn)
  have hmoved : job.plain.req.movedFrom = job.req.movedFrom := rfl
  have hjob : Action.mapFcn Job.plain (Action.launch (w := 32) job none canSpawn) =
      .launch job.plain none canSpawn := rfl
  rw [hjob] at hstep
  unfold Server.launch
  rw [h.asyncStore, hstep, hmoved]
  cases hcase : sv.asyncStore.step (.launch job none canSpawn) with
  | none => exact .none
  | some x =>
    obtain ⟨ev, rt⟩ := x
    obtain ⟨n, id, _, _, ⟨rfl, rfl, _⟩ | ⟨rfl, rfl, _⟩⟩ := step_launch_inv hcase
    · have hsv : SameServer gunzip inflate
          { sv.setSession i (.writing (jsonResponse libs job.req.movedFrom 200 (hexEncodeId id)))
            with asyncStore := rt }
          { plain.setSession i
              (.writing (jsonResponse libs job.req.movedFrom 200 (hexEncodeId id)))
            with asyncStore := rt.mapFcn Job.plain } :=
        ⟨forall₂_set h.sessions (.writing _ _ (jsonResponse_refl _ _ _ _)) i, rfl, h.terminated⟩
      exact sameStep_some (.enqueued i job _ _) hsv
    · have hsv : SameServer gunzip inflate ⟨sv.sessions.set i .closed, rt, true⟩
          ⟨plain.sessions.set i .closed, rt.mapFcn Job.plain, true⟩ :=
        ⟨forall₂_set h.sessions .closed i, rfl, rfl⟩
      exact sameStep_some (.enqueued i job _ _) hsv

theorem compute_same (h : SameServer gunzip inflate sv plain) (t : ℕ) (task : Task 32 Job)
    (lv : Libvirt) : SameStep gunzip inflate (sv.compute libs config t task lv)
      (plain.compute libs config t (task.mapFcn Job.plain) lv) := by
  have hresult : workerResult libs lv config (task.mapFcn Job.plain).fcn =
      workerResult libs lv config task.fcn := by
    simp only [workerResult, Task.mapFcn, Job.plain, handleJson_plain]
  have hcalls : workerCalls libs lv config (task.mapFcn Job.plain).fcn =
      workerCalls libs lv config task.fcn := by
    simp only [workerCalls, Task.mapFcn, Job.plain, handleJson_plain]
  have hphase : (task.mapFcn Job.plain).phase = task.phase := rfl
  unfold Server.compute
  rw [hresult, hcalls, hphase]
  cases futureOf (workerResult libs lv config task.fcn) with
  | some r =>
    have hwork := work_same h (a := .compute t r) rfl
    dsimp only
    generalize sv.work (.compute t r) = x at hwork
    generalize plain.work (.compute t r) = y at hwork
    cases hwork with
    | none => exact .none
    | @some x y hxy =>
      obtain ⟨ev, sv'⟩ := x
      obtain ⟨ev', plain'⟩ := y
      obtain ⟨rfl, hsame⟩ := hxy
      exact sameStep_some (.computed _ _ _) hsame
  | none =>
    cases task.phase with
    | running => exact sameStep_some (.computed _ _ _) ⟨h.sessions, h.asyncStore, rfl⟩
    | _ => exact .none

theorem step_same (hlibs : Lossless libs gunzip inflate)
    (h : SameServer gunzip inflate sv plain) (a : ServerAction) :
    SameStep gunzip inflate (sv.step libs config a) (plain.step libs config a.plain) := by
  have hworker {a : Action 32 Job} (ha : a.mapFcn Job.plain = a) : SameStep gunzip inflate
      ((sv.work a).map fun x => (.worker x.1, x.2))
      ((plain.work a).map fun x => (.worker x.1, x.2)) := by
    have hwork := work_same h ha
    generalize sv.work a = x at hwork
    generalize plain.work a = y at hwork
    cases hwork with
    | none => exact .none
    | @some x y hxy =>
      obtain ⟨ev, sv'⟩ := x
      obtain ⟨ev', plain'⟩ := y
      obtain ⟨rfl, hsame⟩ := hxy
      exact sameStep_some (.worker _) hsame
  have hsession (i : ℕ) := forall₂_getElem? h.sessions i
  unfold Server.step
  rw [h.terminated]
  split
  · exact .none
  cases a with
  | accept ok =>
    cases ok with
    | true =>
      refine sameStep_some (.accepted true) ⟨?_, h.asyncStore, rfl⟩
      exact List.rel_append h.sessions (.cons .reading .nil)
    | false => exact sameStep_some (.accepted false) h
  | read i arrival lv =>
    have hi := hsession i
    cases arrival with
    | request req =>
      simp only [ServerAction.plain]
      generalize sv.sessions[i]? = x at hi
      generalize plain.sessions[i]? = y at hi
      cases hi with
      | none => exact .none
      | some hxy =>
        cases hxy with
        | reading => exact .some (handle_same hlibs h i req lv)
        | _ => exact .none
    | endOfStream | failed =>
      simp only [ServerAction.plain]
      generalize sv.sessions[i]? = x at hi
      generalize plain.sessions[i]? = y at hi
      cases hi with
      | none => exact .none
      | some hxy =>
        cases hxy with
        | reading => exact sameStep_some (.hungUp i) (h.setSession .closed i)
        | _ => exact .none
  | launch i canSpawn =>
    have hi := hsession i
    simp only [ServerAction.plain]
    generalize sv.sessions[i]? = x at hi
    generalize plain.sessions[i]? = y at hi
    cases hi with
    | none => exact .none
    | some hxy =>
      cases hxy with
      | launching req target => exact launch_sameServer libs h i ⟨req, target⟩ canSpawn
      | _ => exact .none
  | wrote i ok =>
    have hi := hsession i
    simp only [ServerAction.plain]
    generalize sv.sessions[i]? = x at hi
    generalize plain.sessions[i]? = y at hi
    cases hi with
    | none => exact .none
    | some hxy =>
      cases hxy with
      | writing res plainRes hres =>
        have heof : plainRes.needEof = res.needEof := by
          rw [← hres.head]
          rfl
        refine sameStep_some (.wrote i res plainRes ok hres) ?_
        simp only [heof]
        split
        · exact h.setSession .reading i
        · exact h.setSession .closed i
      | _ => exact .none
  | compute t lv =>
    have htask : plain.asyncStore.tasks[t]? =
        (sv.asyncStore.tasks[t]?).map (Task.mapFcn Job.plain) := by
      rw [h.asyncStore]
      exact List.getElem?_map
    simp only [ServerAction.plain, htask]
    cases sv.asyncStore.tasks[t]? with
    | none => exact .none
    | some task => exact compute_same h t task lv
  | housekeep t now => exact hworker rfl
  | publish t => exact hworker rfl

end Step

/-- With compressors that can be undone, `Accept-Encoding` changes nothing but the encoding of what
is sent: in every run of the server the same steps are possible as in the run in which no request
has that field, libvirt is asked the same, the same workers are started under the same ids, and
every response says what it says there, under the length of its body. -/
theorem compression_transparent (libs : Libraries) (config : IniConfig)
    (gunzip inflate : Str → Option Str) (hlibs : Lossless libs gunzip inflate)
    (as : List ServerAction) :
    Option.Rel (fun x y => List.Forall₂ (SameEvent gunzip inflate) x.1 y.1 ∧
        SameServer gunzip inflate x.2 y.2)
      (serverRun libs config as) (serverRun libs config (as.map ServerAction.plain)) := by
  unfold serverRun
  rw [← Runs.exec_comap]
  have hempty : SameServer gunzip inflate Server.empty Server.empty := ⟨.nil, rfl, rfl⟩
  exact Runs.exec_rel (R := SameServer gunzip inflate) (L := SameEvent gunzip inflate)
    (fun sv plain a h => step_same hlibs h a) as _ _ hempty

def manyAs : Str := List.replicate 64 'a'

def manyAsZipped : Str :=
  [31, 139, 8, 0, 0, 0, 0, 0, 2, 255, 75, 76, 164, 12, 0, 0, 85, 101, 180, 137, 64, 0, 0, 0].map
    Char.ofNat

def zippingLibs : Libraries :=
  ⟨⟨fun _ => .null, fun _ => manyAs⟩, [], fun _ _ => true, fun _ => false,
    fun body => if body = manyAs then some manyAsZipped else none, fun _ => none⟩

theorem compression_transparent_one :
    let gunzip := fun body => if body = manyAsZipped then some manyAs else none
    let as : List ServerAction := [.accept true, .read 0 (.request ⟨.get, lit "/libvirt", 11,
      [(lit "accept-encoding", lit "gzip")], []⟩) obliging]
    ((serverRun zippingLibs openConfig as).map fun x => (responsesOf 0 x.1).map Response.body) =
      some [manyAsZipped] ∧
    Option.Rel (fun x y => List.Forall₂ (SameEvent gunzip (fun _ => none)) x.1 y.1 ∧
        SameServer gunzip (fun _ => none) x.2 y.2)
      (serverRun zippingLibs openConfig as)
      (serverRun zippingLibs openConfig (as.map ServerAction.plain)) := by
  intro gunzip as
  refine ⟨?_, compression_transparent zippingLibs openConfig gunzip (fun _ => none)
    ⟨fun body out h _ => ?_, fun body out h _ => ?_, fun _ _ => rfl⟩ as⟩
  · decide +kernel
  · simp only [zippingLibs, Option.ite_none_right_eq_some, Option.some.injEq] at h
    obtain ⟨rfl, rfl⟩ := h
    exact if_pos rfl
  · simp [zippingLibs] at h

end Virthttp
