import Virthttp.HandlerRuns
import Virthttp.ServerRuns

namespace Virthttp

variable {libs : Libraries} {config : IniConfig} {sv sv' : Server} {ev : ServerEvent}

/-- Nothing that the server does collects entries of the store. -/
theorem turn_not_collected (h : ServerTurn libs config sv ev sv') : .collected ∉ ev.stored := by
  cases h with
  | answered i req lv served _ _ _ =>
    intro hmem
    rcases mem_storeEvents hmem with ⟨ok, hev⟩ | ⟨id, fut, res, hev⟩ <;> cases hev
  | housekept t now ev rt hstep =>
    obtain ⟨_, _, _, _, rfl, _⟩ := step_housekeep_inv hstep
    simp [ServerEvent.stored]
  | published t ev rt hstep =>
    have hanswers := step_answers hstep
    cases ev <;> first | simp [ServerEvent.stored]; done | exact hanswers.elim
  | _ => simp [ServerEvent.stored]

theorem serverRun_not_collected {as : List ServerAction} {es : List ServerEvent}
    (h : serverRun libs config as = some (es, sv)) :
    .collected ∉ es.flatMap ServerEvent.stored := by
  refine Runs.exec_invariant_nil (I := fun es _ => .collected ∉ es.flatMap ServerEvent.stored)
    ?_ (by simp) h
  intro pre sv a ev sv' hpre hs
  rw [List.flatMap_append, List.flatMap_singleton]
  exact fun hmem => (List.mem_append.mp hmem).elim hpre (turn_not_collected (turn_cases hs).2)

/-- On its store the server is a run of the store alone, without any collection, in which the
callers of `launch` on their way to the mutex are the connections that wait for it and each worker
was started for a request that one of the connections has read. -/
theorem server_refines_store (libs : Libraries) (config : IniConfig) (as : List ServerAction)
    (es : List ServerEvent) (sv : Server) (h : serverRun libs config as = some (es, sv)) :
    (∃ bs, asyncRun 32 Job bs = some (es.flatMap ServerEvent.stored, sv.asyncStore)) ∧
    .collected ∉ es.flatMap ServerEvent.stored ∧
    sv.asyncStore.admitted = sv.sessions.countP HttpSession.isLaunching ∧
    ∀ t id job, sv.asyncStore.started t = some (id, job) → ∃ i before, Passed es i job ∧
      .enqueued i job [jsonResponse libs job.req.movedFrom 200 (hexEncodeId id)]
        (.launched t id before) ∈ es := by
  have hcounts : sv.CountsWaiting :=
    Runs.exec_invariant_nil (I := fun _ sv => sv.CountsWaiting)
      (fun _ _ _ _ _ hI hs => turn_countsWaiting (turn_cases hs).2 hI) rfl h
  exact ⟨serverRun_store h, serverRun_not_collected h, hcounts, (serverRun_recorded h).workers⟩

def plainLibs : Libraries :=
  ⟨⟨fun _ => .null, fun _ => lit "done"⟩, [], fun _ _ => true, fun _ => false, some, some⟩

def openConfig : IniConfig := ⟨false, [], lit "test:///default"⟩

def startWorker : List ServerAction :=
  [.accept true,
    .read 0 (.request ⟨.delete, lit "/libvirt/domains/by-name/vm?async=true", 11, [], []⟩) obliging,
    .launch 0 true]

def launchAndTake : Option (List ServerEvent × Server) :=
  serverRun plainLibs openConfig (startWorker ++ [.wrote 0 true, .compute 0 obliging,
    .housekeep 0 5, .publish 0, .read 0 (.request ⟨.get, lit "/async/0", 11, [], []⟩) obliging])

theorem server_refines_store_one :
    ∃ es sv, launchAndTake = some (es, sv) ∧
      sv.asyncStore.admitted = sv.sessions.countP HttpSession.isLaunching := by
  refine ⟨?es, ?sv, ?hrun, (server_refines_store plainLibs openConfig _
    ?es ?sv ?hrun).2.2.1⟩
  case hrun => rfl

/-- Only a retrieval of a task that is done is answered with that status. -/
theorem sent_found {req : Request} {rt : Runtime 32 Job} {lv : Libvirt} {res : Response}
    (hexit : ∀ target, routeOf req = .launch target → rt.store.full = true)
    (hres : res ∈ (handleRequest libs lv true ⟨config, rt⟩ req).sent) (hstatus : res.status = 302) :
    ∃ strId fut rt', routeOf req = .retrieve strId ∧ rt.step (.retrieve (hexDecodeId strId)) =
        some (.retrieved (hexDecodeId strId) fut (.ok (.finished, res.body)), rt') ∧
      storeEvents rt req = [.retrieved (hexDecodeId strId) fut (.ok (.finished, res.body))] := by
  cases hroute : routeOf req with
  | head | refused why =>
    rw [handleRequest, hroute] at hres
    obtain rfl := List.mem_singleton.mp hres
    simp [headResponse, badRequest, htmlResponse] at hstatus
  | launch target =>
    simp only [handleRequest, hroute, serveLaunch_full (hexit target hroute)] at hres
    obtain rfl := List.mem_singleton.mp hres
    simp [serverError, htmlResponse] at hstatus
  | json target =>
    simp only [handleRequest, hroute, serveJson] at hres
    split at hres
    · simp at hres
    · simp at hres
    · obtain rfl := List.mem_singleton.mp hres
      simp [handleCompression_status, jsonResponse] at hstatus
  | retrieve strId =>
    simp only [handleRequest, hroute, serveRetrieve, handleAsyncRetrieve] at hres
    by_cases hid : numericIdMatch strId = true
    · have hvalue : ∃ rt', rt.valueIfReady (hexDecodeId strId) =
          (.ok (.finished, res.body), rt') := by
        rw [if_pos hid] at hres
        generalize rt.valueIfReady (hexDecodeId strId) = value at hres ⊢
        obtain ⟨x | ⟨_ | _ | _, val⟩, rt'⟩ := value
        · simp [Except.map] at hres
        · obtain rfl := List.mem_singleton.mp hres
          simp [jsonResponse] at hstatus
        · obtain rfl := List.mem_singleton.mp hres
          simp [jsonResponse] at hstatus
        · obtain rfl := List.mem_singleton.mp hres
          exact ⟨rt', rfl⟩
      obtain ⟨rt', hvalue⟩ := hvalue
      have hstep : rt.step (.retrieve (hexDecodeId strId)) = some (.retrieved (hexDecodeId strId)
          ((rt.store.elems.lookup (hexDecodeId strId)).bind Element.fut)
          (.ok (.finished, res.body)), rt') := by
        simp only [Runtime.step, hvalue]
      have haction : storeAction req = some (.retrieve (hexDecodeId strId)) := by
        simp [storeAction, hroute, hid]
      refine ⟨strId, _, rt', rfl, hstep, ?_⟩
      simp only [storeEvents, haction, hstep, Option.map_some, Option.toList_some]
    · rw [if_neg hid] at hres
      obtain rfl := List.mem_singleton.mp hres
      simp [jsonResponse] at hstatus

theorem futureOf_eq_ok {r : Except Stop Str} {ret : Str} (h : futureOf r = some (.ok ret)) :
    r = .ok ret := by
  rcases r with (e | _) | ret' <;> simp_all [futureOf]

/-- The task that a retrieval has the result of, and what that result was made of. -/
theorem result_origin {bs : List (Action 32 Job)} {es : List ServerEvent} {id : BitVec 32}
    {fut : Option ℕ} {ret : Str} {rt : Runtime 32 Job}
    (hrun : asyncRun 32 Job bs = some (es.flatMap ServerEvent.stored, sv.asyncStore))
    (hrec : Recorded libs config es sv)
    (hstep : sv.asyncStore.step (.retrieve id) =
      some (.retrieved id fut (.ok (.finished, ret)), rt)) :
    ∃ t i job before lv, fut = some t ∧ Passed es i job ∧
      .enqueued i job [jsonResponse libs job.req.movedFrom 200 (hexEncodeId id)]
        (.launched t id before) ∈ es ∧
      lastLaunch id (es.flatMap ServerEvent.stored) = some t ∧
      workerResult libs lv config job = .ok ret ∧
      .computed t (workerCalls libs lv config job) [.computed t (.ok ret)] ∈ es := by
  have hmore : asyncRun 32 Job (bs ++ [.retrieve id]) = some (es.flatMap ServerEvent.stored ++
      .retrieved id fut (.ok (.finished, ret)) :: [], rt) :=
    Runs.exec_append hrun (Runs.exec_cons_eq_some.mpr ⟨_, rt, [], hstep, rfl, rfl⟩)
  obtain ⟨t, hfut, hlast, hcomputed⟩ := (storeInv_label hmore).2 id fut ret rfl
  obtain ⟨lv, id', job, hstarted, hresult, hmem⟩ := hrec.results t _ ((hcomputed (.ok ret)).mpr rfl)
  have hholds : sv.asyncStore.holds id t := by
    have hlabel : fut = (sv.asyncStore.store.elems.lookup id).bind Element.fut := by
      simp only [Runtime.step, Option.some.injEq, Prod.mk.injEq, Event.retrieved.injEq] at hstep
      exact hstep.1.2.1.symm
    rw [hfut] at hlabel
    obtain ⟨e, hl, hf⟩ := Option.bind_eq_some_iff.mp hlabel.symm
    exact ⟨e, hl, hf⟩
  obtain ⟨task, ht, hid⟩ := ((storeInv_run hrun).entry id t hholds).1
  obtain rfl : id = id' := by
    simp only [Runtime.started, ht, Option.map_some, Option.some.injEq, Prod.mk.injEq] at hstarted
    exact hid.symm.trans hstarted.1
  obtain ⟨i, before, hpassed, henqueued⟩ := hrec.workers t id job hstarted
  exact ⟨t, i, job, before, lv, hfut, hpassed, henqueued, hlast, futureOf_eq_ok hresult, hmem⟩

theorem retrieval_origin {as : List ServerAction} {pre post : List ServerEvent} {i : ℕ}
    {req : Request} {sent : List Response} {calls : List Exchange} {stored : List (Event 32)}
    {res : Response}
    (h : serverRun libs config as = some (pre ++ .received i req sent calls stored :: post, sv))
    (hmem : res ∈ sent) (hstatus : res.status = 302) :
    ∃ strId t j job before lv, routeOf req = .retrieve strId ∧
      stored = [.retrieved (hexDecodeId strId) (some t) (.ok (.finished, res.body))] ∧
      Passed pre j job ∧
      .enqueued j job
        [jsonResponse libs job.req.movedFrom 200 (hexEncodeId (hexDecodeId strId))]
        (.launched t (hexDecodeId strId) before) ∈ pre ∧
      lastLaunch (hexDecodeId strId) (pre.flatMap ServerEvent.stored) = some t ∧
      workerResult libs lv config job = .ok res.body ∧
      .computed t (workerCalls libs lv config job) [.computed t (.ok res.body)] ∈ pre := by
  obtain ⟨_, a, _, sv₁, sv₂, hpre, hs, _⟩ := Runs.exec_split h
  obtain ⟨bs, hrun⟩ := serverRun_store hpre
  have hrec := serverRun_recorded hpre
  generalize hev : ServerEvent.received i req sent calls stored = ev at hs
  cases (turn_cases hs).2 with
  | answered i' req' lv served hi hexit hserved =>
    cases hev
    subst hserved
    obtain ⟨strId, fut, rt, hroute, hstep, hstored⟩ := sent_found hexit hmem hstatus
    obtain ⟨t, j, job, before, lv', hfut, hpassed, henqueued, hlast, hresult, hcomputed⟩ :=
      result_origin hrun hrec hstep
    rw [hfut] at hstored
    exact ⟨strId, t, j, job, before, lv', hroute, hstored, hpassed, henqueued, hlast, hresult,
      hcomputed⟩
  | admitted =>
    cases hev
    simp at hmem
  | _ => cases hev

/-- The text of a retrieval that is answered with 302 is what `handle_json` made of the request for
which the worker was started that was given the id last, and no worker's text is handed out twice,
on whichever connections. -/
theorem results_end_to_end (libs : Libraries) (config : IniConfig) (as : List ServerAction)
    (es : List ServerEvent) (sv : Server) (h : serverRun libs config as = some (es, sv)) :
    (∀ pre i req sent calls stored post res,
      es = pre ++ .received i req sent calls stored :: post → res ∈ sent → res.status = 302 →
      ∃ strId t j job before lv, routeOf req = .retrieve strId ∧
        stored = [.retrieved (hexDecodeId strId) (some t) (.ok (.finished, res.body))] ∧
        Passed pre j job ∧
        .enqueued j job
          [jsonResponse libs job.req.movedFrom 200 (hexEncodeId (hexDecodeId strId))]
          (.launched t (hexDecodeId strId) before) ∈ pre ∧
        lastLaunch (hexDecodeId strId) (pre.flatMap ServerEvent.stored) = some t ∧
        workerResult libs lv config job = .ok res.body ∧
        .computed t (workerCalls libs lv config job) [.computed t (.ok res.body)] ∈ pre) ∧
    ∀ t, (es.flatMap ServerEvent.stored).countP (Event.hands t) ≤ 1 := by
  refine ⟨?_, fun t => ?_⟩
  · rintro pre i req sent calls stored post res rfl hmem hstatus
    exact retrieval_origin h hmem hstatus
  · obtain ⟨bs, hrun⟩ := serverRun_store h
    exact ((storeInv_run hrun).once t).1

theorem results_end_to_end_one :
    ∃ es sv, launchAndTake = some (es, sv) ∧
      (responsesOf 0 es).map (fun res => (res.status, res.body)) =
        [(200, lit "00000000"), (302, lit "done")] ∧
      ∀ t, (es.flatMap ServerEvent.stored).countP (Event.hands t) ≤ 1 := by
  refine ⟨?es, ?sv, ?hrun, ?_, (results_end_to_end plainLibs openConfig _
    ?es ?sv ?hrun).2⟩
  case hrun => rfl
  rfl

theorem serverRun_conserved {as : List ServerAction} {es : List ServerEvent}
    (h : serverRun libs config as = some (es, sv)) :
    Conserved (es.flatMap ServerEvent.stored) sv.asyncStore := by
  obtain ⟨bs, hrun⟩ := serverRun_store h
  exact conserved_run hrun (serverRun_not_collected h)

/-- A worker that a connection has started stays in the store under its id until one retrieval has
taken what it came to; the entries that launches have made are those in the store and those that
results were taken out of. Nothing is ever dropped for its expiry. -/
theorem results_conserved (libs : Libraries) (config : IniConfig) (as : List ServerAction)
    (es : List ServerEvent) (sv : Server) (h : serverRun libs config as = some (es, sv)) :
    let stored := es.flatMap ServerEvent.stored
    (∀ t id job, sv.asyncStore.started t = some (id, job) →
      (sv.asyncStore.holds id t ∧ stored.countP (Event.takes t) = 0) ∨
        ((∀ id', ¬sv.asyncStore.holds id' t) ∧ stored.countP (Event.takes t) = 1)) ∧
    sv.asyncStore.store.size+stored.countP (fun ev => ev.taken.isSome) =
      stored.countP (fun ev => ev.search.isSome) := by
  have hconserved := serverRun_conserved h
  refine ⟨fun t id job hstarted => ?_, hconserved.size⟩
  exact hconserved.task t id (owned_iff_started.mpr ⟨job, hstarted⟩)

theorem results_conserved_one :
    ∃ es sv, launchAndTake = some (es, sv) ∧
      sv.asyncStore.store.size+(es.flatMap ServerEvent.stored).countP (fun ev => ev.taken.isSome) =
        (es.flatMap ServerEvent.stored).countP (fun ev => ev.search.isSome) := by
  refine ⟨?es, ?sv, ?hrun, (results_conserved plainLibs openConfig _ ?es ?sv ?hrun).2⟩
  case hrun => rfl

/-- The text that worker `t` has, or will have where `lv` is the libvirt that it still has to
ask. -/
def Server.promises (libs : Libraries) (config : IniConfig) (lv : Libvirt) (sv : Server) (t : ℕ)
    (ret : Str) : Prop :=
  ∃ task, sv.asyncStore.tasks[t]? = some task ∧
    match task.phase with
    | .running => workerResult libs lv config task.fcn = .ok ret
    | .returned ret' => ret' = ret
    | .stored ret' => ret' = ret
    | .ready r => r = .ok ret

def Obtainable (libs : Libraries) (config : IniConfig) (lv : Libvirt) (now : ℤ) (t : ℕ)
    (id : BitVec 32) (ret : Str) (sv : Server) : Prop :=
  ∃ as es sv', Runs.exec (Server.step libs config) sv as = some (es, sv') ∧
    (∀ a ∈ as, a = .compute t lv ∨ a = .housekeep t now ∨ a = .publish t) ∧
    sv'.terminated = false ∧ sv'.sessions = sv.sessions ∧
    (sv'.asyncStore.valueIfReady id).1 = .ok (.finished, ret)

section Obtainable

variable {lv : Libvirt} {now : ℤ} {t : ℕ} {id : BitVec 32} {ret : Str}

/-- The next step of the worker is one of the server, whatever the connections wait for. -/
theorem obtainable_next {es : List (Event 32)} {task : Task 32 Job} {r : Except Exn Str}
    {a : Action 32 Job} {p : Phase} (hI : StoreInv es sv.asyncStore)
    (halive : sv.terminated = false) (hh : sv.asyncStore.holds id t)
    (ht : sv.asyncStore.tasks[t]? = some task) (hnext : NextStep t now r task.phase a p)
    (hr : task.phase = .running → futureOf (workerResult libs lv config task.fcn) = some r)
    (hafter : ∀ es' rt, StoreInv es' rt → rt.holds id t →
      rt.tasks[t]? = some { task with phase := p } →
      Obtainable libs config lv now t id ret { sv with asyncStore := rt }) :
    Obtainable libs config lv now t id ret sv := by
  obtain ⟨ev, rt, hs, hh', ht'⟩ := nextStep_enabled hI hh ht hnext
  have hwork : sv.work a = some (ev, { sv with asyncStore := rt }) := by
    rw [Server.work, hs]
    rfl
  have hstep : ∃ b ev', sv.step libs config b = some (ev', { sv with asyncStore := rt }) ∧
      (b = .compute t lv ∨ b = .housekeep t now ∨ b = .publish t) := by
    unfold Server.step
    generalize hphase : task.phase = phase at hnext hr
    cases hnext with
    | compute =>
      refine ⟨.compute t lv, .computed t (workerCalls libs lv config task.fcn) [ev], ?_, by simp⟩
      simp only [halive, Bool.false_eq_true, if_false, ht, Server.compute, hr rfl, hwork,
        Option.map_some]
    | housekeep ret' =>
      refine ⟨.housekeep t now, .worker ev, ?_, by simp⟩
      simp only [halive, Bool.false_eq_true, if_false, hwork, Option.map_some]
    | publish ret' =>
      refine ⟨.publish t, .worker ev, ?_, by simp⟩
      simp only [halive, Bool.false_eq_true, if_false, hwork, Option.map_some]
  obtain ⟨b, ev', hstep, hb⟩ := hstep
  obtain ⟨as, es', sv', hrun, has, halive', hsessions, hvalue⟩ :=
    hafter _ rt (hI.step (step_cases hs)) hh' ht'
  refine ⟨b :: as, ev' :: es', sv', ?_, List.forall_mem_cons.mpr ⟨hb, has⟩, halive', hsessions,
    hvalue⟩
  exact Runs.exec_cons_eq_some.mpr ⟨ev', _, es', hstep, hrun, rfl⟩

theorem obtainable_ready {es : List (Event 32)} {task : Task 32 Job}
    (hI : StoreInv es sv.asyncStore) (halive : sv.terminated = false)
    (hh : sv.asyncStore.holds id t) (ht : sv.asyncStore.tasks[t]? = some task)
    (hphase : task.phase = .ready (.ok ret)) : Obtainable libs config lv now t id ret sv :=
  ⟨[], [], sv, rfl, by simp, halive, rfl, valueIfReady_published hI hh ht hphase⟩

theorem obtainable_stored {es : List (Event 32)} {task : Task 32 Job}
    (hI : StoreInv es sv.asyncStore) (halive : sv.terminated = false)
    (hh : sv.asyncStore.holds id t) (ht : sv.asyncStore.tasks[t]? = some task)
    (hphase : task.phase = .stored ret) : Obtainable libs config lv now t id ret sv := by
  have hnext : NextStep t now (.ok ret) task.phase (Action.publish t : Action 32 Job)
      (.ready (.ok ret)) := hphase ▸ .publish ret
  refine obtainable_next hI halive hh ht hnext (by simp [hphase]) ?_
  exact fun es' rt hI' hh' ht' => obtainable_ready hI' halive hh' ht' rfl

theorem obtainable_returned {es : List (Event 32)} {task : Task 32 Job}
    (hI : StoreInv es sv.asyncStore) (halive : sv.terminated = false)
    (hh : sv.asyncStore.holds id t) (ht : sv.asyncStore.tasks[t]? = some task)
    (hphase : task.phase = .returned ret) : Obtainable libs config lv now t id ret sv := by
  have hnext : NextStep t now (.ok ret) task.phase (Action.housekeep t now : Action 32 Job)
      (.stored ret) := hphase ▸ .housekeep ret
  refine obtainable_next hI halive hh ht hnext (by simp [hphase]) ?_
  exact fun es' rt hI' hh' ht' => obtainable_stored hI' halive hh' ht' rfl

/-- From the last phase of a worker back to the first one. -/
theorem obtainable_of_promise {es : List (Event 32)} (hI : StoreInv es sv.asyncStore)
    (halive : sv.terminated = false) (hh : sv.asyncStore.holds id t)
    (hpromise : sv.promises libs config lv t ret) :
    Obtainable libs config lv now t id ret sv := by
  obtain ⟨task, ht, hpromise⟩ := hpromise
  cases hphase : task.phase with
  | running =>
    have hresult : workerResult libs lv config task.fcn = .ok ret := by
      simpa only [hphase] using hpromise
    have hnext : NextStep t now (.ok ret) task.phase (Action.compute t (.ok ret) : Action 32 Job)
        (.returned ret) := hphase ▸ .compute
    refine obtainable_next hI halive hh ht hnext (fun _ => by rw [hresult]; rfl) ?_
    exact fun es' rt hI' hh' ht' => obtainable_returned hI' halive hh' ht' rfl
  | returned ret' =>
    obtain rfl : ret' = ret := by simpa only [hphase] using hpromise
    exact obtainable_returned hI halive hh ht hphase
  | stored ret' =>
    obtain rfl : ret' = ret := by simpa only [hphase] using hpromise
    exact obtainable_stored hI halive hh ht hphase
  | ready r =>
    obtain rfl : r = .ok ret := by simpa only [hphase] using hpromise
    exact obtainable_ready hI halive hh ht hphase

/-- A connection that asks for the text of a worker is answered with it. -/
theorem handle_found {i : ℕ} {req : Request} {strId : Str} (hroute : routeOf req = .retrieve strId)
    (hid : numericIdMatch strId = true)
    (hvalue : (sv.asyncStore.valueIfReady (hexDecodeId strId)).1 = .ok (.finished, ret)) :
    (sv.handle libs config i req lv).1.responses i = [jsonResponse libs req 302 ret] ∧
      (sv.handle libs config i req lv).2.terminated = false := by
  have hserved : ∃ rt, handleRequest libs lv true ⟨config, sv.asyncStore⟩ req =
      send (jsonResponse libs req 302 ret) rt := by
    simp only [handleRequest, hroute, serveRetrieve, handleAsyncRetrieve, if_pos hid]
    generalize sv.asyncStore.valueIfReady (hexDecodeId strId) = value at hvalue ⊢
    obtain ⟨res, rt⟩ := value
    obtain rfl : res = .ok (.finished, ret) := hvalue
    exact ⟨rt, rfl⟩
  obtain ⟨rt, hserved⟩ := hserved
  unfold Server.handle
  simp only [hroute, hserved, ServerEvent.responses, if_true, Server.serve, send]
  exact ⟨trivial, rfl⟩

end Obtainable

/-- From every state that a run of the server reaches, steps of a worker alone bring its text to the
store, as long as nobody has taken it, and any connection that then asks for it gets it. -/
theorem result_obtainable (libs : Libraries) (config : IniConfig) (as : List ServerAction)
    (es : List ServerEvent) (sv : Server) (h : serverRun libs config as = some (es, sv))
    (halive : sv.terminated = false) (t : ℕ) (id : BitVec 32) (job : Job)
    (hstarted : sv.asyncStore.started t = some (id, job))
    (hkept : (es.flatMap ServerEvent.stored).countP (Event.takes t) = 0) (lv : Libvirt) (now : ℤ)
    (ret : Str) (hpromise : sv.promises libs config lv t ret) :
    ∃ bs es' sv', serverRun libs config (as ++ bs) = some (es ++ es', sv') ∧
      (∀ b ∈ bs, b = .compute t lv ∨ b = .housekeep t now ∨ b = .publish t) ∧
      sv'.sessions = sv.sessions ∧
      ∀ i req lv' strId, sv'.sessions[i]? = some .reading → routeOf req = .retrieve strId →
        numericIdMatch strId = true → hexDecodeId strId = id → ∃ ev sv'',
          sv'.step libs config (.read i (.request req) lv') = some (ev, sv'') ∧
          ev.responses i = [jsonResponse libs req 302 ret] ∧ sv''.terminated = false := by
  have hconserved := serverRun_conserved h
  have hheld : sv.asyncStore.holds id t := by
    rcases hconserved.task t id (owned_iff_started.mpr ⟨job, hstarted⟩) with
      ⟨hheld, _⟩ | ⟨_, hone⟩
    · exact hheld
    · omega
  obtain ⟨bs, es', sv', hmore, hbs, halive', hsessions, hvalue⟩ :=
    @obtainable_of_promise libs config sv lv now t id ret _ hconserved.past halive hheld hpromise
  refine ⟨bs, es', sv', Runs.exec_append h hmore, hbs, hsessions, ?_⟩
  rintro i req lv' strId hi hroute hid rfl
  obtain ⟨hresponses, hterminated⟩ :=
    @handle_found libs config sv' lv' ret i req strId hroute hid hvalue
  refine ⟨_, _, ?_, hresponses, hterminated⟩
  simp only [Server.step, halive', Bool.false_eq_true, if_false, hi]

/-- A worker that has just been started. -/
theorem result_obtainable_one :
    ∃ bs es sv, serverRun plainLibs openConfig (startWorker ++ bs) = some (es, sv) ∧
      ∀ b ∈ bs, b = .compute 0 obliging ∨ b = .housekeep 0 5 ∨ b = .publish 0 := by
  have hrun := result_obtainable plainLibs openConfig startWorker ?es ?sv ?hrun ?halive 0 0 ?job
    ?hstarted ?hkept obliging 5 (lit "done") ⟨?task, ?ht, ?hpromise⟩
  case hrun => rfl
  case halive => rfl
  case hstarted => rfl
  case hkept => rfl
  case ht => rfl
  case hpromise => rfl
  obtain ⟨bs, es', sv', hmore, hbs, _⟩ := hrun
  exact ⟨bs, _, sv', hmore, hbs⟩

end Virthttp
