import Virthttp.AsyncConservation
import Virthttp.Server

/-! What every run of the server is on its store: a run of the store alone, in which the callers of
`launch` that have passed the test are the connections that wait for the mutex. -/
namespace Virthttp

variable {libs : Libraries} {config : IniConfig} {sv sv' : Server} {ev : ServerEvent}

theorem serveRetrieve_asyncStore (libs : Libraries) (gstore : GeneralStore) (req : Request)
    (strId : Str) : (serveRetrieve libs gstore req strId).asyncStore =
      (handleAsyncRetrieve gstore.asyncStore strId).2 := by
  unfold serveRetrieve
  rcases handleAsyncRetrieve gstore.asyncStore strId with ⟨_ | ⟨code, body⟩, store⟩ <;> rfl

theorem serveJson_asyncStore (libs : Libraries) (lv : Libvirt) (gstore : GeneralStore)
    (req : Request) (target : TargetParser) :
    (serveJson libs lv gstore req target).asyncStore = gstore.asyncStore := by
  unfold serveJson
  generalize handleJson libs.rapidjson lv gstore.config req target = run
  rcases run with ⟨(x | _) | ⟨⟩, s⟩ <;> rfl

theorem serveLaunch_full {rt : Runtime 32 Job} (hfull : rt.store.full = true) (libs : Libraries)
    (config : IniConfig) (canSpawn : Bool) (req : Request) (target : TargetParser) :
    serveLaunch libs canSpawn ⟨config, rt⟩ req target =
      send (serverError libs req.movedFrom (lit "Unable to enqueue async request")) rt := by
  simp only [serveLaunch, Runtime.launch, hfull, if_true]

/-- What a request does to the store when it is answered at once is at most one step of it. -/
theorem handleRequest_store {req : Request} {rt : Runtime 32 Job}
    (hexit : ∀ target, routeOf req = .launch target → rt.store.full = true) (lv : Libvirt) :
    Runs.exec Runtime.step rt (storeAction req).toList =
      some (storeEvents rt req, (handleRequest libs lv true ⟨config, rt⟩ req).asyncStore) := by
  have hone {a : Action 32 Job} {ev : Event 32} {rt' : Runtime 32 Job}
      (haction : storeAction req = some a) (hstep : rt.step a = some (ev, rt')) :
      Runs.exec Runtime.step rt (storeAction req).toList = some (storeEvents rt req, rt') := by
    simp only [storeEvents, haction, hstep]
    exact Runs.exec_cons_eq_some.mpr ⟨ev, rt', [], hstep, rfl, rfl⟩
  have hnone (haction : storeAction req = none) :
      Runs.exec Runtime.step rt (storeAction req).toList = some (storeEvents rt req, rt) := by
    simp [storeEvents, haction, Runs.exec]
  cases hroute : routeOf req with
  | head =>
    rw [handleRequest, hroute]
    exact hnone (by rw [storeAction, hroute])
  | refused why =>
    rw [handleRequest, hroute]
    exact hnone (by rw [storeAction, hroute])
  | retrieve strId =>
    rw [handleRequest, hroute]
    simp only [serveRetrieve_asyncStore, handleAsyncRetrieve]
    by_cases hid : numericIdMatch strId = true
    · rw [if_pos hid]
      exact hone (a := .retrieve (hexDecodeId strId)) (by simp [storeAction, hroute, hid]) rfl
    · rw [if_neg hid]
      exact hnone (by simp [storeAction, hroute, hid])
  | launch target =>
    have hfull := hexit target hroute
    rw [handleRequest, hroute]
    simp only [serveLaunch_full hfull]
    have hstep : rt.step .arrive = some (.admitted false, rt) := by
      simp [Runtime.step, hfull]
    exact hone (by rw [storeAction, hroute]) hstep
  | json target =>
    rw [handleRequest, hroute]
    simp only [serveJson_asyncStore]
    exact hnone (by rw [storeAction, hroute])

/-- A turn of the server is a run of the store of at most one step. -/
theorem turn_store (h : ServerTurn libs config sv ev sv') :
    ∃ as, Runs.exec Runtime.step sv.asyncStore as = some (ev.stored, sv'.asyncStore) := by
  have hone {a : Action 32 Job} {ev' : Event 32} {rt : Runtime 32 Job}
      (hstep : sv.asyncStore.step a = some (ev', rt)) :
      ∃ as, Runs.exec Runtime.step sv.asyncStore as = some ([ev'], rt) :=
    ⟨[a], Runs.exec_cons_eq_some.mpr ⟨ev', rt, [], hstep, rfl, rfl⟩⟩
  cases h with
  | admitted i req target _ _ hroom => exact hone (a := .arrive) (by simp [Runtime.step, hroom])
  | answered i req lv served _ hexit hserved =>
    subst hserved
    exact ⟨_, handleRequest_store hexit lv⟩
  | launched i job t id before rt res _ hstep _ => exact hone hstep
  | launchFailed i job id before rt _ hstep => exact hone hstep
  | computed t task lv r rt _ _ hstep => exact hone hstep
  | housekept t now ev rt hstep => exact hone hstep
  | published t ev rt hstep => exact hone hstep
  | _ => exact ⟨[], rfl⟩

theorem serverRun_store {as : List ServerAction} {es : List ServerEvent}
    (h : serverRun libs config as = some (es, sv)) :
    ∃ bs, asyncRun 32 Job bs = some (es.flatMap ServerEvent.stored, sv.asyncStore) := by
  have hrefines : ∃ bs rt, asyncRun 32 Job bs = some (es.flatMap ServerEvent.stored, rt) ∧
      sv.asyncStore = rt := by
    refine Runs.exec_refines (R := fun sv rt => sv.asyncStore = rt) ?_ rfl h
    rintro sv _ a ev sv' rfl hstep
    obtain ⟨bs, hbs⟩ := turn_store (turn_cases hstep).2
    exact ⟨bs, _, hbs, rfl⟩
  obtain ⟨bs, rt, hrun, rfl⟩ := hrefines
  exact ⟨bs, hrun⟩

theorem countP_set_get {α : Type} {p : α → Bool} {l : List α} {i : ℕ} {a : α}
    (h : l[i]? = some a) (b : α) :
    (l.set i b).countP p+(if p a then 1 else 0) = l.countP p+(if p b then 1 else 0) := by
  obtain ⟨hlt, rfl⟩ := List.getElem?_eq_some_iff.mp h
  have hpos : (if p l[i] then 1 else 0) ≤ l.countP p := by
    split
    · rename_i hp
      exact List.countP_pos_iff.mpr ⟨l[i], List.getElem_mem hlt, hp⟩
    · exact Nat.zero_le _
  rw [List.countP_set hlt]
  omega

theorem valueIfReady_keeps {w : ℕ} {φ : Type} (rt : Runtime w φ) (id : BitVec w) :
    (rt.valueIfReady id).2.tasks = rt.tasks ∧ (rt.valueIfReady id).2.admitted = rt.admitted := by
  unfold Runtime.valueIfReady
  split
  · exact ⟨rfl, rfl⟩
  · split
    · exact ⟨rfl, rfl⟩
    · exact ⟨rfl, rfl⟩
    · split <;> exact ⟨rfl, rfl⟩

theorem handleRequest_keeps {req : Request} {rt : Runtime 32 Job}
    (hexit : ∀ target, routeOf req = .launch target → rt.store.full = true) (lv : Libvirt) :
    (handleRequest libs lv true ⟨config, rt⟩ req).asyncStore.tasks = rt.tasks ∧
      (handleRequest libs lv true ⟨config, rt⟩ req).asyncStore.admitted = rt.admitted := by
  cases hroute : routeOf req with
  | head | refused why =>
    rw [handleRequest, hroute]
    exact ⟨rfl, rfl⟩
  | retrieve strId =>
    rw [handleRequest, hroute]
    simp only [serveRetrieve_asyncStore, handleAsyncRetrieve]
    split
    · exact valueIfReady_keeps rt _
    · exact ⟨rfl, rfl⟩
  | launch target =>
    rw [handleRequest, hroute]
    simp only [serveLaunch_full (hexit target hroute)]
    exact ⟨rfl, rfl⟩
  | json target =>
    rw [handleRequest, hroute]
    simp only [serveJson_asyncStore, and_self]

def Server.CountsWaiting (sv : Server) : Prop :=
  sv.asyncStore.admitted = sv.sessions.countP HttpSession.isLaunching

theorem step_admitted_same {rt rt' : Runtime 32 Job} {a : Action 32 Job} {ev : Event 32}
    (h : rt.step a = some (ev, rt')) (ha : a ≠ .arrive) (hev : ev.search = none) :
    rt'.admitted = rt.admitted := by
  rcases step_admitted h with ⟨harrive, _⟩ | ⟨hsearch, _⟩ | ⟨_, hsame⟩
  · exact absurd harrive ha
  · exact absurd hev hsearch
  · exact hsame

theorem turn_countsWaiting (h : ServerTurn libs config sv ev sv') (hI : sv.CountsWaiting) :
    sv'.CountsWaiting := by
  unfold Server.CountsWaiting at *
  have hset {i : ℕ} {old new : HttpSession} (hi : sv.sessions[i]? = some old)
      (hold : old.isLaunching = false) (hnew : new.isLaunching = false) :
      (sv.sessions.set i new).countP HttpSession.isLaunching =
        sv.sessions.countP HttpSession.isLaunching := by
    have hcount := countP_set_get (p := HttpSession.isLaunching) hi new
    rw [hold, hnew] at hcount
    exact hcount
  have hleave {i : ℕ} {job : Job} {new : HttpSession} {canSpawn : Bool} {ev : Event 32}
      {rt : Runtime 32 Job} (hi : sv.sessions[i]? = some (.launching job.req job.target))
      (hnew : new.isLaunching = false)
      (hstep : sv.asyncStore.step (.launch job none canSpawn) = some (ev, rt)) :
      rt.admitted = (sv.sessions.set i new).countP HttpSession.isLaunching := by
    have hcount := countP_set_get (p := HttpSession.isLaunching) hi new
    have hadm := launch_admitted hstep
    rw [hnew] at hcount
    simp only [HttpSession.isLaunching, if_true, Bool.false_eq_true, if_false] at hcount
    omega
  cases h with
  | accepted => simpa [HttpSession.isLaunching] using hI
  | notAccepted => exact hI
  | hungUp i hi => exact hI.trans (hset hi rfl rfl).symm
  | admitted i req target hi _ _ =>
    have hcount := countP_set_get (p := HttpSession.isLaunching) hi (.launching req target)
    simp only [HttpSession.isLaunching, Bool.false_eq_true, if_false, if_true] at hcount
    change sv.asyncStore.admitted+1 =
      (sv.sessions.set i (.launching req target)).countP HttpSession.isLaunching
    omega
  | answered i req lv served hi hexit hserved =>
    subst hserved
    have hnew : (Server.afterHandling
        (handleRequest libs lv true ⟨config, sv.asyncStore⟩ req).sent).isLaunching = false := by
      unfold Server.afterHandling
      split <;> rfl
    exact ((handleRequest_keeps hexit lv).2.trans hI).trans (hset hi rfl hnew).symm
  | launched i job t id before rt res hi hstep _ => exact hleave hi rfl hstep
  | launchFailed i job id before rt hi hstep => exact hleave hi rfl hstep
  | wrote i ok res hi =>
    refine hI.trans (hset hi rfl ?_).symm
    split <;> rfl
  | computed t task lv r rt _ _ hstep =>
    exact (step_admitted_same hstep (by simp) rfl).trans hI
  | workerAborted => exact hI
  | housekept t now ev rt hstep =>
    have hsearch : ev.search = none := by
      obtain ⟨_, _, _, _, rfl, _⟩ := step_housekeep_inv hstep
      rfl
    exact (step_admitted_same hstep (by simp) hsearch).trans hI
  | published t ev rt hstep =>
    have hsearch : ev.search = none := by
      have hanswers := step_answers hstep
      cases ev <;> first | rfl | exact hanswers.elim
    exact (step_admitted_same hstep (by simp) hsearch).trans hI

/-- What a request does to the store at once is an admission or a retrieval. -/
theorem mem_storeEvents {rt : Runtime 32 Job} {req : Request} {ev : Event 32}
    (h : ev ∈ storeEvents rt req) :
    (∃ ok, ev = .admitted ok) ∨ ∃ id fut res, ev = .retrieved id fut res := by
  have hanswers {a : Action 32 Job} (ha : storeAction req = some a) : ev.answers a := by
    simp only [storeEvents, ha, Option.mem_toList, Option.map_eq_some_iff] at h
    obtain ⟨⟨ev', rt'⟩, hstep, rfl⟩ := h
    exact step_answers hstep
  have haction : storeAction req = some .arrive ∨ (∃ id, storeAction req = some (.retrieve id)) ∨
      storeAction req = none := by
    unfold storeAction
    split
    · split
      · exact Or.inr (Or.inl ⟨_, rfl⟩)
      · exact Or.inr (Or.inr rfl)
    · exact Or.inl rfl
    · exact Or.inr (Or.inr rfl)
  rcases haction with ha | ⟨id, ha⟩ | ha
  · have hev := hanswers ha
    cases ev <;> first | exact Or.inl ⟨_, rfl⟩ | exact hev.elim
  · have hev := hanswers ha
    cases ev <;> first | exact Or.inr ⟨_, _, _, rfl⟩ | exact hev.elim
  · simp [storeEvents, ha] at h

/-- A connection has read the request, and the test of `launch` has let it pass. -/
def Passed (es : List ServerEvent) (i : ℕ) (job : Job) : Prop :=
  routeOf job.req = .launch job.target ∧ .received i job.req [] [] [.admitted true] ∈ es

/-- Every connection that waits and every worker goes back to a request that was read, and every
result of a worker to what `handle_json` makes of that request. -/
structure Recorded (libs : Libraries) (config : IniConfig) (es : List ServerEvent)
    (sv : Server) : Prop where
  waiting : ∀ i job, sv.sessions[i]? = some (.launching job.req job.target) → Passed es i job
  workers : ∀ t id job, sv.asyncStore.started t = some (id, job) → ∃ i before, Passed es i job ∧
    .enqueued i job [jsonResponse libs job.req.movedFrom 200 (hexEncodeId id)]
      (.launched t id before) ∈ es
  results : ∀ t r, .computed t r ∈ es.flatMap ServerEvent.stored → ∃ lv id job,
    sv.asyncStore.started t = some (id, job) ∧
      futureOf (workerResult libs lv config job) = some r ∧
      .computed t (workerCalls libs lv config job) [.computed t r] ∈ es

theorem Recorded.empty : Recorded libs config [] Server.empty where
  waiting := by simp [Server.empty]
  workers := by simp [Server.empty, Runtime.started, Runtime.empty]
  results := by simp

theorem Passed.snoc {es : List ServerEvent} {i : ℕ} {job : Job} (h : Passed es i job) :
    Passed (es ++ [ev]) i job :=
  ⟨h.1, List.mem_append_left _ h.2⟩

/-- What is needed of a turn that does not start a worker. -/
theorem Recorded.keep {es : List ServerEvent} (hI : Recorded libs config es sv)
    (hwaiting : ∀ i job, sv'.sessions[i]? = some (.launching job.req job.target) →
      sv.sessions[i]? = some (.launching job.req job.target) ∨ Passed (es ++ [ev]) i job)
    (hstarted : sv'.asyncStore.started = sv.asyncStore.started)
    (hresults : ∀ t r, .computed t r ∈ ev.stored → ∃ lv id job,
      sv.asyncStore.started t = some (id, job) ∧
        futureOf (workerResult libs lv config job) = some r ∧
        ev = .computed t (workerCalls libs lv config job) [.computed t r]) :
    Recorded libs config (es ++ [ev]) sv' where
  waiting i job hi := (hwaiting i job hi).elim (fun h => (hI.waiting i job h).snoc) id
  workers t id job ht := by
    rw [hstarted] at ht
    obtain ⟨i, before, hpassed, hmem⟩ := hI.workers t id job ht
    exact ⟨i, before, hpassed.snoc, List.mem_append_left _ hmem⟩
  results t r ht := by
    rw [hstarted]
    rw [List.flatMap_append, List.flatMap_singleton] at ht
    rcases List.mem_append.mp ht with ht | ht
    · obtain ⟨lv, id, job, hstart, hr, hmem⟩ := hI.results t r ht
      exact ⟨lv, id, job, hstart, hr, List.mem_append_left _ hmem⟩
    · obtain ⟨lv, id, job, hstart, hr, rfl⟩ := hresults t r ht
      exact ⟨lv, id, job, hstart, hr, by simp⟩

theorem Recorded.turn {es : List ServerEvent} (hI : Recorded libs config es sv)
    (h : ServerTurn libs config sv ev sv') : Recorded libs config (es ++ [ev]) sv' := by
  have hset {i : ℕ} {new : HttpSession} (hnew : new.isLaunching = false) (j : ℕ) (job : Job)
      (hj : (sv.sessions.set i new)[j]? = some (.launching job.req job.target)) :
      sv.sessions[j]? = some (.launching job.req job.target) ∨ Passed (es ++ [ev]) j job := by
    rw [List.getElem?_set] at hj
    split at hj
    · split at hj
      · cases hj
        simp [HttpSession.isLaunching] at hnew
      · contradiction
    · exact Or.inl hj
  cases h with
  | accepted =>
    refine hI.keep (fun j job hj => Or.inl ?_) rfl (by simp [ServerEvent.stored])
    change (sv.sessions ++ [.reading])[j]? = _ at hj
    rw [List.getElem?_append] at hj
    split at hj
    · exact hj
    · rw [List.getElem?_singleton] at hj
      split at hj <;> cases hj
  | notAccepted => exact hI.keep (fun j job hj => Or.inl hj) rfl (by simp [ServerEvent.stored])
  | hungUp i hi => exact hI.keep (hset rfl) rfl (by simp [ServerEvent.stored])
  | admitted i req target hi hroute _ =>
    refine hI.keep (fun j job hj => ?_) rfl (by simp [ServerEvent.stored])
    change (sv.sessions.set i (.launching req target))[j]? = _ at hj
    rw [List.getElem?_set] at hj
    split at hj
    · rename_i hij
      split at hj
      · cases hj
        subst hij
        exact Or.inr ⟨hroute, by simp⟩
      · contradiction
    · exact Or.inl hj
  | answered i req lv served hi hexit hserved =>
    subst hserved
    refine hI.keep (hset ?_) (started_eq (handleRequest_keeps hexit lv).1) ?_
    · unfold Server.afterHandling
      split <;> rfl
    · intro t r ht
      rcases mem_storeEvents ht with ⟨ok, hev⟩ | ⟨id, fut, res, hev⟩ <;> cases hev
  | launched i job t id before rt res hi hstep hres =>
    have hpassed := hI.waiting i job hi
    refine ⟨fun j job' hj => ?_, fun u id' job' hu => ?_, fun u r hu => ?_⟩
    · exact (hset rfl j job' hj).elim (fun h => (hI.waiting j job' h).snoc) (fun h => h)
    · change rt.started u = _ at hu
      rw [launch_started hstep u] at hu
      split at hu
      · rename_i htu
        cases hu
        subst htu hres
        exact ⟨i, before, hpassed.snoc, by simp⟩
      · obtain ⟨j, before', hpassed', hmem⟩ := hI.workers u id' job' hu
        exact ⟨j, before', hpassed'.snoc, List.mem_append_left _ hmem⟩
    · rw [List.flatMap_append, List.flatMap_singleton] at hu
      rcases List.mem_append.mp hu with hu | hu
      · obtain ⟨lv, id', job', hstart, hr, hmem⟩ := hI.results u r hu
        refine ⟨lv, id', job', ?_, hr, List.mem_append_left _ hmem⟩
        change rt.started u = _
        rw [launch_started hstep u, if_neg, hstart]
        rintro rfl
        obtain ⟨_, _, _, _, hcase⟩ := step_launch_inv hstep
        rcases hcase with ⟨_, hlabel, _⟩ | ⟨_, hlabel, _⟩
        · cases hlabel
          simp [Runtime.started] at hstart
        · cases hlabel
      · simp [ServerEvent.stored] at hu
  | launchFailed i job id before rt hi hstep =>
    refine hI.keep (hset rfl) (step_started (step_cases hstep) (by simp)) ?_
    simp [ServerEvent.stored]
  | wrote i ok res hi =>
    refine hI.keep (hset ?_) rfl (by simp [ServerEvent.stored])
    split <;> rfl
  | computed t task lv r rt ht hr hstep =>
    refine hI.keep (fun j job hj => Or.inl hj) (step_started (step_cases hstep) (by simp)) ?_
    intro u r' hu
    obtain ⟨rfl, rfl⟩ : u = t ∧ r' = r := by simpa [ServerEvent.stored] using hu
    exact ⟨lv, task.id, task.fcn, by simp [Runtime.started, ht], hr, rfl⟩
  | workerAborted => exact hI.keep (fun j job hj => Or.inl hj) rfl (by simp [ServerEvent.stored])
  | housekept t now ev rt hstep =>
    obtain ⟨_, _, _, _, rfl, _⟩ := step_housekeep_inv hstep
    exact hI.keep (fun j job hj => Or.inl hj) (step_started (step_cases hstep) (by simp))
      (by simp [ServerEvent.stored])
  | published t ev rt hstep =>
    have hanswers := step_answers hstep
    cases ev with
    | published u =>
      exact hI.keep (fun j job hj => Or.inl hj) (step_started (step_cases hstep) (by simp))
        (by simp [ServerEvent.stored])
    | _ => exact hanswers.elim

theorem serverRun_recorded {as : List ServerAction} {es : List ServerEvent}
    (h : serverRun libs config as = some (es, sv)) : Recorded libs config es sv :=
  Runs.exec_invariant_nil (fun _ _ _ _ _ hI hs => hI.turn (turn_cases hs).2) Recorded.empty h

end Virthttp
