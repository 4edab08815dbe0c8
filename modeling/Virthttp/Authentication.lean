import Virthttp.AsyncSafety
import Virthttp.HandlerRuns
import Virthttp.RequestHandler

/-! What a client without the key can make the server do and learn: the key is only looked at when
a request is answered, and the exits in front of that do not ask for it. -/
namespace Virthttp

structure Unauthenticated (config : IniConfig) (req : Request) : Prop where
  required : config.httpAuthKeyRequired = true
  wrong : fieldOf req.fields (lit "X-Auth-Key") ≠ config.httpAuthKey

/-- The stores may differ in all that they hold, but not in where the next id is looked for. -/
structure SameCounter (rt rt' : Runtime 32 Job) : Prop where
  lastId : rt.store.lastId = rt'.store.lastId
  defaultExpire : rt.store.defaultExpire = rt'.store.defaultExpire

/-- The stores may differ in how far the tasks are and in their results, but hold the same ids. -/
structure SameIds (rt rt' : Runtime 32 Job) : Prop extends SameCounter rt rt' where
  live : ∀ id, rt.store.live id = rt'.store.live id

/-- The request reaches neither libvirt nor what is stored, now or in the worker that it starts,
and the response tells nothing of it: stores that `same` does not tell apart give the same one. -/
structure Harmless (libs : Libraries) (config : IniConfig) (req : Request)
    (same : Runtime 32 Job → Runtime 32 Job → Prop) : Prop where
  calls : ∀ lv canSpawn rt, (handleRequest libs lv canSpawn ⟨config, rt⟩ req).calls = []
  workers : ∀ lv canSpawn rt, ∀ task ∈
    (handleRequest libs lv canSpawn ⟨config, rt⟩ req).asyncStore.tasks.drop rt.tasks.length,
      (handleJson libs.rapidjson lv config task.fcn.req task.fcn.target).2.calls = []
  keeps : ∀ lv canSpawn rt id e, rt.store.elems.lookup id = some e →
    (handleRequest libs lv canSpawn ⟨config, rt⟩ req).asyncStore.store.elems.lookup id = some e
  response : ∀ lv canSpawn rt rt', same rt rt' →
    (handleRequest libs lv canSpawn ⟨config, rt⟩ req).sent =
      (handleRequest libs lv canSpawn ⟨config, rt'⟩ req).sent

/-- Without the key the answer is an error, before anything is asked of libvirt. -/
theorem handleJson_unauthenticated {config : IniConfig} {req : Request}
    (h : Unauthenticated config req) (lib : Rapidjson) (lv : Libvirt) (target : TargetParser) :
    handleJson lib lv config req target =
      (.ok (), { Session.init with res := JsonRes.init.error 1 [] }) := by
  unfold handleJson handleJsonBody
  rw [if_pos ⟨h.required, h.wrong⟩]
  rfl

theorem SameIds.full {rt rt' : Runtime 32 Job} (h : SameIds rt rt') :
    rt.store.full = rt'.store.full := by
  have hperm : rt.store.elems.keys.Perm rt'.store.elems.keys := by
    refine (List.perm_ext_iff_of_nodup rt.store.elems.keys_nodup rt'.store.elems.keys_nodup).mpr ?_
    intro id
    have hlive := h.live id
    unfold AsyncStore.live at hlive
    rw [← AList.mem_keys, ← AList.mem_keys, ← AList.lookup_isSome, ← AList.lookup_isSome, hlive]
  have hlen := hperm.length_eq
  simp only [AList.keys, List.keys, List.length_map] at hlen
  unfold AsyncStore.full
  rw [hlen]

theorem SameIds.getFreeId {rt rt' : Runtime 32 Job} (h : SameIds rt rt') :
    rt.store.getFreeId = rt'.store.getFreeId := by
  unfold AsyncStore.getFreeId
  rw [funext h.live, h.lastId]

/-- Whatever the launch of a worker comes to, the entries are kept. -/
theorem launch_keeps {rt : Runtime 32 Job} {job : Job} {canSpawn : Bool} {id : BitVec 32}
    {e : Element} (he : rt.store.elems.lookup id = some e) :
    (rt.launch job none canSpawn).2.store.elems.lookup id = some e := by
  have hissue {id' : BitVec 32} (hfree : rt.store.getFreeId = some id') (fut : Option ℕ) :
      (rt.store.issue id' fut).elems.lookup id = some e := by
    have hne : id ≠ id' := by
      rintro rfl
      have hlive := getFreeId_free hfree
      simp [he] at hlive
    rw [← he]
    exact AList.lookup_insert_ne hne
  rcases launch_cases rt job canSpawn with ⟨_, h⟩ | ⟨_, _, h⟩ | ⟨id', _, hfree, ⟨_, h⟩ | ⟨_, h⟩⟩
  · rwa [h]
  · rwa [h]
  · rw [h]
    exact hissue hfree _
  · rw [h]
    exact hissue hfree _

/-- The worker that is launched has no other request than the one that launched it. -/
theorem launch_tasks (rt : Runtime 32 Job) (job : Job) (canSpawn : Bool) :
    ∀ task ∈ (rt.launch job none canSpawn).2.tasks.drop rt.tasks.length, task.fcn = job := by
  rcases launch_cases rt job canSpawn with ⟨_, h⟩ | ⟨_, _, h⟩ | ⟨id', _, _, ⟨_, h⟩ | ⟨_, h⟩⟩
  · simp [h]
  · simp [h]
  · simp [h]
  · simp [h]

/-- What is answered to a launch only depends on which ids are taken. -/
theorem launch_same {rt rt' : Runtime 32 Job} (h : SameIds rt rt') (job : Job) (canSpawn : Bool) :
    (rt.launch job none canSpawn).1 = (rt'.launch job none canSpawn).1 := by
  unfold Runtime.launch Runtime.launchLocked
  rw [h.full, h.getFreeId]
  split
  · rfl
  · cases rt'.store.getFreeId with
    | none => rfl
    | some id => cases canSpawn <;> rfl

theorem serveLaunch_asyncStore (libs : Libraries) (canSpawn : Bool) (gstore : GeneralStore)
    (req : Request) (target : TargetParser) :
    (serveLaunch libs canSpawn gstore req target).asyncStore =
      (gstore.asyncStore.launch ⟨req, target⟩ none canSpawn).2 := by
  unfold serveLaunch
  rcases gstore.asyncStore.launch ⟨req, target⟩ none canSpawn with ⟨_ | _ | _ | _, store⟩ <;> rfl

theorem serveLaunch_sent (libs : Libraries) (canSpawn : Bool) {config config' : IniConfig}
    {rt rt' : Runtime 32 Job} (req : Request) (target : TargetParser)
    (h : (rt.launch ⟨req, target⟩ none canSpawn).1 = (rt'.launch ⟨req, target⟩ none canSpawn).1) :
    (serveLaunch libs canSpawn ⟨config, rt⟩ req target).sent =
      (serveLaunch libs canSpawn ⟨config', rt'⟩ req target).sent := by
  unfold serveLaunch
  simp only
  generalize rt.launch ⟨req, target⟩ none canSpawn = l at h ⊢
  generalize rt'.launch ⟨req, target⟩ none canSpawn = l' at h ⊢
  obtain ⟨res, store⟩ := l
  obtain ⟨res', store'⟩ := l'
  obtain rfl : res = res' := h
  rcases res with _ | _ | _ | _ <;> rfl

theorem serveLaunch_calls (libs : Libraries) (canSpawn : Bool) (gstore : GeneralStore)
    (req : Request) (target : TargetParser) :
    (serveLaunch libs canSpawn gstore req target).calls = [] := by
  unfold serveLaunch
  rcases gstore.asyncStore.launch ⟨req, target⟩ none canSpawn with ⟨_ | _ | _ | _, store⟩ <;> rfl

theorem serveLaunch_body (libs : Libraries) {canSpawn : Bool} (gstore : GeneralStore)
    (req : Request) (target : TargetParser) {id : BitVec 32}
    (h : (gstore.asyncStore.launch ⟨req, target⟩ none canSpawn).1 = some (.id id)) :
    (serveLaunch libs canSpawn gstore req target).sent.map Response.body = [hexEncodeId id] := by
  unfold serveLaunch
  generalize gstore.asyncStore.launch ⟨req, target⟩ none canSpawn = l at h ⊢
  obtain ⟨res, store⟩ := l
  obtain rfl : res = some (.id id) := h
  rfl

/-- An exit that neither looks at what is stored nor changes it. -/
theorem harmless_of_const {libs : Libraries} {config : IniConfig} {req : Request}
    {same : Runtime 32 Job → Runtime 32 Job → Prop} {sent : List Response} {ending : Ending}
    (h : ∀ lv canSpawn rt, handleRequest libs lv canSpawn ⟨config, rt⟩ req =
      ⟨sent, ending, [], rt⟩) : Harmless libs config req same where
  calls := fun lv canSpawn rt => by rw [h]
  workers := fun lv canSpawn rt => by
    rw [h]
    simp
  keeps := fun lv canSpawn rt id e he => by
    rw [h]
    exact he
  response := fun lv canSpawn rt rt' _ => by rw [h, h]

theorem harmless_of_launch {libs : Libraries} {config : IniConfig} {req : Request}
    (hauth : Unauthenticated config req) {target : TargetParser}
    (hroute : routeOf req = .launch target) : Harmless libs config req SameIds := by
  have hserve (lv : Libvirt) (canSpawn : Bool) (rt : Runtime 32 Job) :
      handleRequest libs lv canSpawn ⟨config, rt⟩ req =
        serveLaunch libs canSpawn ⟨config, rt⟩ req target := by
    rw [handleRequest, hroute]
  refine ⟨fun lv canSpawn rt => ?_, fun lv canSpawn rt => ?_, fun lv canSpawn rt id e he => ?_,
    fun lv canSpawn rt rt' hsame => ?_⟩
  · rw [hserve, serveLaunch_calls]
  · rw [hserve, serveLaunch_asyncStore]
    intro task htask
    rw [launch_tasks rt _ canSpawn task htask, handleJson_unauthenticated hauth]
    rfl
  · rw [hserve, serveLaunch_asyncStore]
    exact launch_keeps he
  · rw [hserve, hserve]
    exact serveLaunch_sent libs canSpawn req target (launch_same hsame _ canSpawn)

/-- The exits other than for a retrieval that finds an id and for a launch. -/
theorem harmless_of_other {libs : Libraries} {config : IniConfig} {req : Request}
    (hauth : Unauthenticated config req) {same : Runtime 32 Job → Runtime 32 Job → Prop}
    (hretrieve : ∀ strId, routeOf req = .retrieve strId → numericIdMatch strId = false)
    (hlaunch : ∀ target, routeOf req ≠ .launch target) : Harmless libs config req same := by
  cases hroute : routeOf req with
  | head => exact harmless_of_const fun lv canSpawn rt => by rw [handleRequest, hroute]; rfl
  | refused why => exact harmless_of_const fun lv canSpawn rt => by rw [handleRequest, hroute]; rfl
  | retrieve strId =>
    have hno : ¬numericIdMatch strId = true := by simp [hretrieve strId hroute]
    have hsend (lv : Libvirt) (canSpawn : Bool) (rt : Runtime 32 Job) :
        handleRequest libs lv canSpawn ⟨config, rt⟩ req = send (jsonResponse libs req 404 []) rt := by
      simp only [handleRequest, hroute, serveRetrieve, handleAsyncRetrieve, if_neg hno]
    exact harmless_of_const hsend
  | launch target => exact absurd hroute (hlaunch target)
  | json target =>
    let res := handleCompression libs req.fields (jsonResponse libs req 200
      (cstr (libs.rapidjson.write (JsonRes.init.error 1 []).document)))
    have hsend (lv : Libvirt) (canSpawn : Bool) (rt : Runtime 32 Job) :
        handleRequest libs lv canSpawn ⟨config, rt⟩ req =
          send { res with contentLength := res.body.length } rt := by
      simp only [handleRequest, hroute, serveJson, handleJson_unauthenticated hauth]
      rfl
    exact harmless_of_const hsend

def storeOf (id lastId : BitVec 32) (phase : Phase) (job : Job) : Runtime 32 Job :=
  ⟨⟨AList.singleton id ⟨toNanos initExpire, some 0⟩, lastId, 120⟩, [⟨id, job, none, phase⟩], 0⟩

theorem storeOf_sameIds (id lastId : BitVec 32) (phase phase' : Phase) (job : Job) :
    SameIds (storeOf id lastId phase job) (storeOf id lastId phase' job) :=
  ⟨⟨rfl, rfl⟩, fun _ => rfl⟩

theorem valueIfReady_storeOf (id lastId : BitVec 32) (job : Job) (ret : Str) :
    (storeOf id lastId (.ready (.ok ret)) job).valueIfReady id =
        (.ok (.finished, ret), { storeOf id lastId (.ready (.ok ret)) job with
          store := ⟨(AList.singleton id ⟨toNanos initExpire, some 0⟩).erase id, lastId, 120⟩ }) ∧
      (storeOf id lastId .running job).valueIfReady id =
        (.ok (.inProgress, []), storeOf id lastId .running job) := by
  have hlookup : AList.lookup id (AList.singleton (β := fun _ => Element) id
      ⟨toNanos initExpire, some 0⟩) = some ⟨toNanos initExpire, some 0⟩ :=
    List.dlookup_cons_eq [] id _
  constructor
  · simp only [Runtime.valueIfReady, storeOf, hlookup]
    rfl
  · simp only [Runtime.valueIfReady, storeOf, hlookup]
    rfl

/-- A retrieval shows whether a task is done. -/
theorem retrieve_not_harmless {libs : Libraries} {config : IniConfig} {req : Request}
    {same : Runtime 32 Job → Runtime 32 Job → Prop} (hsame : ∀ rt rt', SameIds rt rt' → same rt rt')
    {strId : Str} (hroute : routeOf req = .retrieve strId) (hid : numericIdMatch strId = true) :
    ¬Harmless libs config req same := by
  intro h
  let id := hexDecodeId strId
  let job : Job := ⟨req, .ofUrl req.target⟩
  obtain ⟨hready, hpending⟩ := valueIfReady_storeOf id 0 job []
  have hresponse := h.response (fun _ _ => default) true _ _
    (hsame _ _ (storeOf_sameIds id 0 (.ready (.ok [])) .running job))
  simp only [handleRequest, hroute, serveRetrieve, handleAsyncRetrieve, if_pos hid] at hresponse
  rw [hready, hpending] at hresponse
  have hstatus : [302] = [102] := congrArg (List.map Response.status) hresponse
  simp at hstatus

/-- A launch shows whether the next id is taken. -/
theorem launch_not_harmless {libs : Libraries} {config : IniConfig} {req : Request}
    {target : TargetParser} (hroute : routeOf req = .launch target) :
    ¬Harmless libs config req SameCounter := by
  intro h
  let job : Job := ⟨req, target⟩
  have hresponse := h.response (fun _ _ => default) true (Runtime.empty 32 Job)
    (storeOf 0 (-1) .running job) ⟨rfl, rfl⟩
  have hfirst : ((Runtime.empty 32 Job).launch job none true).1 = some (.id 0) := rfl
  have hfree : (storeOf 0 (-1) .running job).store.getFreeId = some 1 := by
    change (⟨AList.singleton (β := fun _ => Element) 0 ⟨toNanos initExpire, some 0⟩, -1, 120⟩ :
      AsyncStore 32).getFreeId = some 1
    rfl
  have hsecond : ((storeOf 0 (-1) .running job).launch job none true).1 = some (.id 1) := by
    simp only [Runtime.launch, Runtime.launchLocked, hfree]
    rfl
  simp only [handleRequest, hroute] at hresponse
  have hbody := congrArg (List.map Response.body) hresponse
  rw [serveLaunch_body libs ⟨config, Runtime.empty 32 Job⟩ req target hfirst,
    serveLaunch_body libs ⟨config, storeOf 0 (-1) .running job⟩ req target hsecond] at hbody
  exact absurd hbody (by decide)

/-- Without the key a request is harmless exactly if it is no retrieval with the string of an id
and, where the stores may also differ in which ids are taken, no launch. -/
theorem harmless_iff (libs : Libraries) (config : IniConfig) (req : Request)
    (hauth : Unauthenticated config req) :
    (Harmless libs config req SameIds ↔
      ∀ strId, routeOf req = .retrieve strId → numericIdMatch strId = false) ∧
    (Harmless libs config req SameCounter ↔
      (∀ strId, routeOf req = .retrieve strId → numericIdMatch strId = false) ∧
        ∀ target, routeOf req ≠ .launch target) := by
  have hretrieve {same : Runtime 32 Job → Runtime 32 Job → Prop}
      (hsame : ∀ rt rt', SameIds rt rt' → same rt rt') (h : Harmless libs config req same)
      (strId : Str) (hroute : routeOf req = .retrieve strId) : numericIdMatch strId = false := by
    by_contra hid
    exact retrieve_not_harmless hsame hroute (Bool.not_eq_false _ ▸ hid) h
  refine ⟨⟨hretrieve fun _ _ h => h, fun h => ?_⟩, ⟨fun h => ⟨?_, ?_⟩, fun h => ?_⟩⟩
  · by_cases hlaunch : ∃ target, routeOf req = .launch target
    · obtain ⟨target, hroute⟩ := hlaunch
      exact harmless_of_launch hauth hroute
    · exact harmless_of_other hauth h (not_exists.mp hlaunch)
  · exact hretrieve (fun _ _ h => h.toSameCounter) h
  · exact fun target hroute => launch_not_harmless hroute h
  · exact harmless_of_other hauth h.1 h.2

/-- A request without a key is harmless where it is answered at once. -/
theorem harmless_get :
    Harmless ⟨⟨fun _ => .null, fun _ => []⟩, [], fun _ _ => true, fun _ => false, some, some⟩
      ⟨true, lit "key", lit "test:///default"⟩ ⟨.get, lit "/libvirt/domains", 11, [], []⟩
      SameCounter := by
  have hroute : routeOf ⟨.get, lit "/libvirt/domains", 11, [], []⟩ =
      .json (.ofUrl (lit "/libvirt/domains")) := rfl
  refine (harmless_iff _ ⟨true, lit "key", _⟩ ⟨.get, lit "/libvirt/domains", _, [], _⟩
    ⟨rfl, by decide⟩).2.mpr ⟨fun _ h => ?_, fun _ h => ?_⟩
  · cases hroute.symm.trans h
  · cases hroute.symm.trans h

/-- Anyone can take the result of a task that is done, and nobody can take it again. -/
theorem retrieve_discloses :
    let libs : Libraries :=
      ⟨⟨fun _ => .null, fun _ => []⟩, [], fun _ _ => true, fun _ => false, some, some⟩
    let config : IniConfig := ⟨true, lit "key", lit "test:///default"⟩
    let req : Request := ⟨.get, lit "/async/00000000", 11, [], []⟩
    let rt := storeOf 0 0 (.ready (.ok (lit "secret"))) ⟨req, .ofUrl req.target⟩
    let served := handleRequest libs obliging true ⟨config, rt⟩ req
    Unauthenticated config req ∧ served.sent.map Response.body = [lit "secret"] ∧
      served.asyncStore.store.elems.entries = [] :=
  ⟨⟨rfl, by decide⟩, rfl, rfl⟩

end Virthttp
