import Virthttp.AsyncRuns

namespace Virthttp

variable {w : ℕ} {φ : Type}

def Phase.busy : Phase → Bool
  | .ready _ => false
  | _ => true

def Phase.result : Phase → Option (Except Exn Str)
  | .running => none
  | .returned ret => some (.ok ret)
  | .stored ret => some (.ok ret)
  | .ready r => some r

theorem Phase.result_computed (r : Except Exn Str) : (Phase.computed r).result = some r := by
  cases r <;> rfl

def Event.launchOf (id : BitVec w) : Event w → Option ℕ
  | .launched t id' _ => if id' = id then some t else none
  | _ => none

def lastLaunch (id : BitVec w) (es : List (Event w)) : Option ℕ :=
  es.reverse.findSome? (Event.launchOf id)

theorem lastLaunch_snoc (id : BitVec w) (es : List (Event w)) (ev : Event w) :
    lastLaunch id (es ++ [ev]) = (ev.launchOf id).or (lastLaunch id es) := by
  rw [lastLaunch, List.reverse_append, List.findSome?_append]
  cases h : ev.launchOf id <;> simp [h, lastLaunch]

def Event.hands (t : ℕ) : Event w → Bool
  | .retrieved _ (some u) (.ok (.finished, _)) => u == t
  | _ => false

def Runtime.holds (rt : Runtime w φ) (id : BitVec w) (t : ℕ) : Prop :=
  ∃ e, rt.store.elems.lookup id = some e ∧ e.fut = some t

def Runtime.owned (rt : Runtime w φ) (t : ℕ) (id : BitVec w) : Prop :=
  ∃ task, rt.tasks[t]? = some task ∧ task.id = id

def Runtime.working (rt : Runtime w φ) (t : ℕ) (id : BitVec w) : Prop :=
  ∃ task, rt.tasks[t]? = some task ∧ task.id = id ∧ task.phase.busy = true

def Runtime.produced (rt : Runtime w φ) (t : ℕ) (r : Except Exn Str) : Prop :=
  ∃ task, rt.tasks[t]? = some task ∧ task.phase.result = some r

theorem getFreeId_free {s : AsyncStore w} {id : BitVec w} (h : s.getFreeId = some id) :
    s.elems.lookup id = none := by
  obtain ⟨_, _, _, hlive, _⟩ := CyclicSearch.firstFree_eq_some_iff.mp h
  simpa [AsyncStore.live] using hlive

theorem at_fut {s : AsyncStore w} {id : BitVec w} {t : ℕ} (h : (s.at id).fut = some t) :
    ∃ e, s.elems.lookup id = some e ∧ e.fut = some t := by
  unfold AsyncStore.at at h
  cases hl : s.elems.lookup id with
  | none => simp [hl] at h
  | some e => exact ⟨e, rfl, by simpa [hl] using h⟩

/-- A task that a step finds keeps its key and moves to the phase `p`. -/
theorem setPhase_tasks {rt : Runtime w φ} {t u : ℕ} {task task' : Task w φ} {p : Phase}
    (ht : rt.tasks[t]? = some task) (hu : (rt.setPhase t task p).tasks[u]? = some task') :
    (u = t ∧ task'.id = task.id ∧ task'.phase = p) ∨ (u ≠ t ∧ rt.tasks[u]? = some task') := by
  rw [getElem?_setPhase ht] at hu
  split at hu
  · cases hu
    exact Or.inl ⟨‹_›, rfl, rfl⟩
  · exact Or.inr ⟨‹_›, hu⟩

theorem owned_setPhase {rt : Runtime w φ} {t u : ℕ} {task : Task w φ} {p : Phase}
    {id : BitVec w} (ht : rt.tasks[t]? = some task) (h : rt.owned u id) :
    (rt.setPhase t task p).owned u id := by
  obtain ⟨task', htask, hid⟩ := h
  by_cases hu : u = t
  · subst hu
    rw [ht] at htask
    cases htask
    exact ⟨_, (getElem?_setPhase ht).trans (if_pos rfl), hid⟩
  · exact ⟨task', (getElem?_setPhase ht).trans ((if_neg hu).trans htask), hid⟩

theorem step_owned {rt rt' : Runtime w φ} {ev : Event w} (h : Steps rt ev rt') {t : ℕ}
    {id : BitVec w} (ho : rt.owned t id) : rt'.owned t id := by
  cases h with
  | launched n id' task _ _ _ =>
    obtain ⟨task', ht, hid⟩ := ho
    exact ⟨task', List.getElem?_append_left (List.getElem?_eq_some_iff.mp ht).1 ▸ ht, hid⟩
  | computed u task r ht _ => exact owned_setPhase ht ho
  | housekept u task ret now ht _ => exact owned_setPhase ht ho
  | published u task ret ht _ => exact owned_setPhase ht ho
  | collected now rt' hg =>
    obtain ⟨task, ht, hid⟩ := ho
    exact ⟨task, (Runtime.gc_same hg).1 ▸ ht, hid⟩
  | _ => exact ho

/-- A future that is held was held before the step, unless the step launched its task. -/
theorem step_holds {rt rt' : Runtime w φ} {ev : Event w} (h : Steps rt ev rt') {t : ℕ}
    {id : BitVec w} (hh : rt'.holds id t) :
    (ev = .launched t id rt.store ∧ t = rt.tasks.length ∧ rt'.owned t id) ∨
      (ev.launchOf id = none ∧ rt.holds id t) := by
  cases h with
  | launched n id' task _ hid _ =>
    obtain ⟨e, hl, hf⟩ := hh
    rw [AsyncStore.issue, lookup_insert_eq] at hl
    split at hl
    · rename_i heq
      cases hl
      cases hf
      subst heq
      exact Or.inl ⟨rfl, rfl, task, by simp, hid⟩
    · rename_i hne
      exact Or.inr ⟨if_neg (Ne.symm hne), e, hl, hf⟩
  | launchFailed n id' _ =>
    obtain ⟨e, hl, hf⟩ := hh
    rw [AsyncStore.issue, lookup_insert_eq] at hl
    split at hl
    · cases hl
      cases hf
    · exact Or.inr ⟨rfl, e, hl, hf⟩
  | housekept u task ret now _ _ =>
    -- `operator[]` makes an entry without a future where there is none
    obtain ⟨e, hl, hf⟩ := hh
    rw [Runtime.setPhase, AsyncStore.housekeep, lookup_insert_eq] at hl
    split at hl
    · rename_i heq
      cases hl
      subst heq
      exact Or.inr ⟨rfl, at_fut hf⟩
    · exact Or.inr ⟨rfl, e, hl, hf⟩
  | consumed id' e' r _ _ =>
    obtain ⟨e, hl, hf⟩ := hh
    rw [lookup_erase_eq] at hl
    split at hl
    · contradiction
    · exact Or.inr ⟨rfl, e, hl, hf⟩
  | collected now rt' hg =>
    obtain ⟨e, hl, hf⟩ := hh
    exact Or.inr ⟨rfl, e, ((Runtime.gc_lookup hg id e).mp hl).1, hf⟩
  | _ => exact Or.inr ⟨rfl, hh⟩

/-- What is held by an unfinished worker stays held. -/
theorem step_holds_working {rt rt' : Runtime w φ} {ev : Event w} (h : Steps rt ev rt') {t : ℕ}
    {id : BitVec w} (hh : rt.holds id t) (hw : rt.working t id) : rt'.holds id t := by
  obtain ⟨e, hl, hf⟩ := hh
  obtain ⟨task, ht, hid, hbusy⟩ := hw
  have hnot (r : Except Exn Str) : rt.futureResult e.fut ≠ .ok (some r) := by
    intro hr
    obtain ⟨u, task', hu, ht', hphase⟩ := futureResult_ready hr
    obtain rfl : t = u := Option.some.inj (hf.symm.trans hu)
    obtain rfl : task = task' := Option.some.inj (ht.symm.trans ht')
    simp [hphase, Phase.busy] at hbusy
  have hissue (id' : BitVec w) (fut : Option ℕ) (hfree : rt.store.getFreeId = some id') :
      (rt.store.issue id' fut).elems.lookup id = some e := by
    rw [AsyncStore.issue, lookup_insert_eq, if_neg]
    · exact hl
    · rintro rfl
      simp [getFreeId_free hfree] at hl
  cases h with
  | launched n id' task' hfree _ _ => exact ⟨e, hissue id' _ hfree, hf⟩
  | launchFailed n id' hfree => exact ⟨e, hissue id' _ hfree, hf⟩
  | housekept u task' ret now _ _ =>
    by_cases heq : id = task'.id
    · refine ⟨_, (lookup_insert_eq _ _ _ _).trans (if_pos heq), ?_⟩
      rw [← heq]
      simpa [AsyncStore.at, hl] using hf
    · exact ⟨e, ((lookup_insert_eq _ _ _ _).trans (if_neg heq)).trans hl, hf⟩
  | consumed id' e' r hl' hready =>
    refine ⟨e, ?_, hf⟩
    rw [lookup_erase_eq, if_neg]
    · exact hl
    · rintro rfl
      obtain rfl : e = e' := Option.some.inj (hl.symm.trans hl')
      exact hnot r hready
  | collected now rt' hg =>
    exact ⟨e, (Runtime.gc_lookup hg id e).mpr ⟨hl, fun ⟨_, r, hr⟩ => hnot r hr⟩, hf⟩
  | _ => exact ⟨e, hl, hf⟩

theorem working_setPhase {rt : Runtime w φ} {t u : ℕ} {task : Task w φ} {p : Phase}
    {id : BitVec w} (ht : rt.tasks[t]? = some task) (hbusy : task.phase.busy = true)
    (h : (rt.setPhase t task p).working u id) : rt.working u id := by
  obtain ⟨task', hu, hid, hb⟩ := h
  rcases setPhase_tasks ht hu with ⟨rfl, hid', _⟩ | ⟨_, hu'⟩
  · exact ⟨task, ht, hid'.symm.trans hid, hbusy⟩
  · exact ⟨task', hu', hid, hb⟩

/-- An unfinished worker was at work before the step, unless the step launched it. -/
theorem step_working {rt rt' : Runtime w φ} {ev : Event w} (h : Steps rt ev rt') {t : ℕ}
    {id : BitVec w} (hw : rt'.working t id) : rt'.holds id t ∨ rt.working t id := by
  cases h with
  | launched n id' task _ hid' _ =>
    obtain ⟨task', ht, hid, hbusy⟩ := hw
    rw [List.getElem?_append] at ht
    split at ht
    · exact Or.inr ⟨task', ht, hid, hbusy⟩
    · rename_i hlt
      obtain ⟨hlen, hget⟩ := List.getElem?_eq_some_iff.mp ht
      simp only [List.length_singleton, Nat.lt_one_iff] at hlen
      obtain rfl : t = rt.tasks.length := by omega
      obtain rfl : task = task' := by simpa using hget
      obtain rfl : id' = id := hid'.symm.trans hid
      exact Or.inl ⟨_, (lookup_insert_eq _ _ _ _).trans (if_pos rfl), rfl⟩
  | computed u task r ht hphase =>
    exact Or.inr (working_setPhase ht (by simp [hphase, Phase.busy]) hw)
  | housekept u task ret now ht hphase =>
    have ht' : (Runtime.mk (rt.store.housekeep task now) rt.tasks rt.admitted).tasks[u]? =
        some task := ht
    exact Or.inr (working_setPhase ht' (by simp [hphase, Phase.busy]) hw)
  | published u task ret ht hphase =>
    exact Or.inr (working_setPhase ht (by simp [hphase, Phase.busy]) hw)
  | collected now rt' hg =>
    obtain ⟨task, ht, hid, hbusy⟩ := hw
    exact Or.inr ⟨task, (Runtime.gc_same hg).1 ▸ ht, hid, hbusy⟩
  | _ => exact Or.inr hw

/-- A phase with the same result leaves what was produced as it is. -/
theorem produced_setPhase {rt : Runtime w φ} {t u : ℕ} {task : Task w φ} {p : Phase}
    {r : Except Exn Str} (ht : rt.tasks[t]? = some task) :
    (rt.setPhase t task p).produced u r ↔
      if u = t then p.result = some r else rt.produced u r := by
  unfold Runtime.produced
  rw [getElem?_setPhase ht]
  split
  · simp
  · rfl

theorem step_produced {rt rt' : Runtime w φ} {ev : Event w} (h : Steps rt ev rt') (t : ℕ)
    (r : Except Exn Str) : rt'.produced t r ↔ ev = .computed t r ∨ rt.produced t r := by
  have rename {rt₁ : Runtime w φ} {u : ℕ} {task : Task w φ} {p : Phase}
      (ht : rt₁.tasks[u]? = some task) (hp : p.result = task.phase.result) :
      (rt₁.setPhase u task p).produced t r ↔ rt₁.produced t r := by
    rw [produced_setPhase ht]
    split
    · rename_i heq
      subst heq
      simp [Runtime.produced, ht, hp]
    · rfl
  cases h with
  | launched n id task _ _ hphase =>
    simp only [Runtime.produced, reduceCtorEq, false_or]
    rw [List.getElem?_append]
    split
    · rfl
    · rename_i hlt
      rw [List.getElem?_eq_none (by omega : rt.tasks.length ≤ t)]
      constructor
      · rintro ⟨task', ht, hr⟩
        obtain rfl : task' = task := by
          simpa using List.mem_of_getElem? ht
        simp [hphase, Phase.result] at hr
      · rintro ⟨_, ht, _⟩
        contradiction
  | computed u task r' ht hphase =>
    rw [produced_setPhase ht]
    split
    · rename_i heq
      subst heq
      rw [Phase.result_computed]
      simp [Runtime.produced, ht, hphase, Phase.result]
    · rename_i hne
      simp [Ne.symm hne]
  | housekept u task ret now ht hphase =>
    have ht' : (Runtime.mk (rt.store.housekeep task now) rt.tasks rt.admitted).tasks[u]? =
        some task := ht
    rw [rename ht' (by simp [hphase, Phase.result])]
    simp [Runtime.produced]
  | published u task ret ht hphase =>
    rw [rename ht (by simp [hphase, Phase.result])]
    simp
  | collected now rt' hg =>
    simp [Runtime.produced, (Runtime.gc_same hg).1]
  | _ => simp [Runtime.produced]

/-- A string is handed out of an entry that held its task and is gone afterwards. -/
theorem step_hands {rt rt' : Runtime w φ} {ev : Event w} (h : Steps rt ev rt') {t : ℕ}
    (hh : ev.hands t = true) :
    ∃ id, rt.holds id t ∧ ∀ id' u, rt'.holds id' u → id' ≠ id ∧ rt.holds id' u := by
  cases h with
  | notReady id e _ _ => cases hf : e.fut <;> simp [hf, Event.hands] at hh
  | noState id e x _ _ => cases hf : e.fut <;> simp [hf, Event.hands] at hh
  | consumed id e r hl _ =>
    have hfut : e.fut = some t := by
      cases hf : e.fut with
      | none => simp [hf, Event.hands] at hh
      | some u =>
        cases r with
        | error x => simp [hf, Event.hands, Except.map] at hh
        | ok ret => simpa [hf, Event.hands, Except.map] using hh
    refine ⟨id, ⟨e, hl, hfut⟩, ?_⟩
    rintro id' u ⟨e', hl', hf'⟩
    rw [lookup_erase_eq] at hl'
    split at hl'
    · contradiction
    · exact ⟨‹_›, e', hl', hf'⟩
  | _ => simp [Event.hands] at hh

/-- Every live entry belongs to the last launch of its key, every unfinished worker finds its
own entry, a worker holds what its callable came to, and a string handed out leaves no entry
behind. -/
structure StoreInv (es : List (Event w)) (rt : Runtime w φ) : Prop where
  entry : ∀ id t, rt.holds id t → rt.owned t id ∧ lastLaunch id es = some t
  busy : ∀ t id, rt.working t id → rt.holds id t
  results : ∀ t r, .computed t r ∈ es ↔ rt.produced t r
  once : ∀ t, es.countP (Event.hands t) ≤ 1 ∧ (0 < es.countP (Event.hands t) →
    t < rt.tasks.length ∧ ∀ id, ¬rt.holds id t)

theorem StoreInv.empty : StoreInv [] (Runtime.empty w φ) where
  entry := by simp [Runtime.holds, Runtime.empty, AsyncStore.empty]
  busy := by simp [Runtime.working, Runtime.empty]
  results := by simp [Runtime.produced, Runtime.empty]
  once := by simp

theorem StoreInv.step_once {es : List (Event w)} {rt rt' : Runtime w φ} {ev : Event w}
    (hI : StoreInv es rt) (h : Steps rt ev rt') (t : ℕ) :
    (es ++ [ev]).countP (Event.hands t) ≤ 1 ∧ (0 < (es ++ [ev]).countP (Event.hands t) →
      t < rt'.tasks.length ∧ ∀ id, ¬rt'.holds id t) := by
  obtain ⟨hle, hgone⟩ := hI.once t
  have hlen (u : ℕ) (id : BitVec w) (ho : rt.owned u id) : u < rt'.tasks.length := by
    obtain ⟨_, ht, _⟩ := step_owned h ho
    exact (List.getElem?_eq_some_iff.mp ht).1
  rw [List.countP_append, List.countP_singleton]
  by_cases hh : ev.hands t = true
  · obtain ⟨id, hheld, hothers⟩ := step_hands h hh
    have hzero : es.countP (Event.hands t) = 0 := by
      by_contra hne
      exact (hgone (Nat.pos_of_ne_zero hne)).2 id hheld
    have howned := (hI.entry id t hheld).1
    rw [hzero, if_pos hh]
    refine ⟨by omega, fun _ => ⟨hlen t id howned, ?_⟩⟩
    intro id' hheld'
    obtain ⟨hne, hbefore⟩ := hothers id' t hheld'
    obtain ⟨task, ht, hid⟩ := howned
    obtain ⟨task', ht', hid'⟩ := (hI.entry id' t hbefore).1
    obtain rfl : task = task' := Option.some.inj (ht.symm.trans ht')
    exact hne (hid'.symm.trans hid)
  · rw [if_neg hh, Nat.add_zero]
    refine ⟨hle, fun hpos => ?_⟩
    obtain ⟨hlt, hnone⟩ := hgone hpos
    refine ⟨hlen t _ ⟨rt.tasks[t], List.getElem?_eq_getElem hlt, rfl⟩, ?_⟩
    intro id hheld
    rcases step_holds h hheld with ⟨_, heq, _⟩ | ⟨_, hbefore⟩
    · omega
    · exact hnone id hbefore

theorem StoreInv.step {es : List (Event w)} {rt rt' : Runtime w φ} {ev : Event w}
    (hI : StoreInv es rt) (h : Steps rt ev rt') : StoreInv (es ++ [ev]) rt' where
  entry id t hh := by
    rw [lastLaunch_snoc]
    rcases step_holds h hh with ⟨rfl, _, ho⟩ | ⟨hev, hbefore⟩
    · exact ⟨ho, by simp [Event.launchOf]⟩
    · obtain ⟨ho, hlast⟩ := hI.entry id t hbefore
      exact ⟨step_owned h ho, by simp [hev, hlast]⟩
  busy t id hw := by
    rcases step_working h hw with hh | hbefore
    · exact hh
    · exact step_holds_working h (hI.busy t id hbefore) hbefore
  results t r := by
    rw [List.mem_append, List.mem_singleton, hI.results, step_produced h, eq_comm, or_comm]
  once := hI.step_once h

theorem storeInv_run {as : List (Action w φ)} {es : List (Event w)} {rt : Runtime w φ}
    (h : asyncRun w φ as = some (es, rt)) : StoreInv es rt := by
  exact Runs.exec_invariant_nil (fun _ _ _ _ _ hI hs => hI.step (step_cases hs))
    StoreInv.empty h

/-- What every housekeeping and every retrieval of a run sees. -/
theorem storeInv_label {as : List (Action w φ)} {pre post : List (Event w)} {ev : Event w}
    {rt : Runtime w φ} (h : asyncRun w φ as = some (pre ++ ev :: post, rt)) :
    (∀ t found, ev = .housekept t found → ∃ e, found = some e ∧ e.fut = some t) ∧
      ∀ id fut ret, ev = .retrieved id fut (.ok (.finished, ret)) → ∃ t, fut = some t ∧
        lastLaunch id pre = some t ∧ ∀ r, .computed t r ∈ pre ↔ r = .ok ret := by
  obtain ⟨as₁, a, as₂, s, s', hpre, hs, _⟩ := Runs.exec_split h
  have hI := storeInv_run hpre
  constructor
  · rintro t found rfl
    cases step_cases hs with
    | housekept t task ret now ht hphase =>
      exact hI.busy t task.id ⟨task, ht, rfl, by simp [hphase, Phase.busy]⟩
  · rintro id fut ret rfl
    generalize hev : Event.retrieved id fut (.ok (.finished, ret)) = ev at hs
    cases step_cases hs with
    | consumed id' e r hl hready =>
      cases r with
      | error x => simp [Except.map] at hev
      | ok ret' =>
        simp only [Except.map, Event.retrieved.injEq, Except.ok.injEq, Prod.mk.injEq,
          true_and] at hev
        obtain ⟨rfl, rfl, rfl⟩ := hev
        obtain ⟨t, task, hfut, ht, hphase⟩ := futureResult_ready hready
        refine ⟨t, hfut, (hI.entry id t ⟨e, hl, hfut⟩).2, fun r => ?_⟩
        rw [hI.results]
        simp [Runtime.produced, ht, hphase, Phase.result, eq_comm]
    | _ => simp at hev

/-- The worker of a launch finds the entry of that launch, a finished retrieval hands out what
the callable of the last launch of the key produced, and it does so at most once. -/
theorem results_reach_their_launch (as : List (Action w φ)) (es : List (Event w))
    (rt : Runtime w φ) (h : asyncRun w φ as = some (es, rt)) :
    (∀ t found, .housekept t found ∈ es → ∃ e, found = some e ∧ e.fut = some t) ∧
    (∀ pre id fut ret post, es = pre ++ .retrieved id fut (.ok (.finished, ret)) :: post →
      ∃ t, fut = some t ∧ lastLaunch id pre = some t ∧ ∀ r, .computed t r ∈ pre ↔ r = .ok ret) ∧
    ∀ t, es.countP (Event.hands t) ≤ 1 := by
  refine ⟨?_, ?_, fun t => ((storeInv_run h).once t).1⟩
  · intro t found hmem
    obtain ⟨pre, post, rfl⟩ := List.append_of_mem hmem
    exact (storeInv_label h).1 t found rfl
  · rintro pre id fut ret post rfl
    exact (storeInv_label h).2 id fut ret rfl

theorem results_reach_their_launch_once :
    ∃ es rt, asyncRun 32 Unit [.arrive, .launch () none true, .compute 0 (.ok ['a']),
        .housekeep 0 5, .publish 0, .retrieve 0, .retrieve 0] = some (es, rt) ∧
      .housekept 0 (some ⟨toNanos initExpire, some 0⟩) ∈ es ∧
      .retrieved 0 (some 0) (.ok (.finished, ['a'])) ∈ es ∧
      ∀ t, es.countP (Event.hands t) ≤ 1 := by
  refine ⟨[.admitted true, .launched 0 0 (AsyncStore.empty 32), .computed 0 (.ok ['a']),
    .housekept 0 (some ⟨toNanos initExpire, some 0⟩), .published 0,
    .retrieved 0 (some 0) (.ok (.finished, ['a'])), .retrieved 0 none (.ok (.nonExistent, []))],
    ?rt, ?hrun, by simp, by simp, (results_reach_their_launch _ _ ?rt ?hrun).2.2⟩
  case hrun => rfl

end Virthttp
