import Virthttp.AsyncCapacity

namespace Virthttp

variable {w : ℕ} {φ : Type}

def Runtime.started (rt : Runtime w φ) (t : ℕ) : Option (BitVec w × φ) :=
  (rt.tasks[t]?).map fun task => (task.id, task.fcn)

theorem started_setPhase {rt : Runtime w φ} {t : ℕ} {task : Task w φ} {p : Phase}
    (ht : rt.tasks[t]? = some task) :
    (rt.setPhase t task p).started = rt.started := by
  funext u
  unfold Runtime.started
  rw [getElem?_setPhase ht]
  split
  · rename_i hu
    rw [hu, ht]
    rfl
  · rfl

theorem started_eq {rt rt' : Runtime w φ} (h : rt'.tasks = rt.tasks) :
    rt'.started = rt.started := by
  funext t
  rw [Runtime.started, h, Runtime.started]

/-- No step but a launch starts a worker, and none changes what it was started for. -/
theorem step_started {rt rt' : Runtime w φ} {ev : Event w}
    (h : Steps rt ev rt') (hev : ∀ t id before, ev ≠ .launched t id before) :
    rt'.started = rt.started := by
  cases h with
  | launched n id task _ _ _ => exact absurd rfl (hev _ _ _)
  | computed t task r ht _ => exact started_setPhase ht
  | housekept t task ret now ht _ =>
    exact @started_setPhase w φ { rt with store := rt.store.housekeep task now } t task _ ht
  | published t task ret ht _ => exact started_setPhase ht
  | collected now rt' hg => exact started_eq (Runtime.gc_same hg).1
  | _ => rfl

theorem launch_started {rt rt' : Runtime w φ} {fcn : φ} {expireOpt : Option ℤ}
    {canSpawn : Bool} {t : ℕ} {id : BitVec w} {before : AsyncStore w}
    (h : rt.step (.launch fcn expireOpt canSpawn) = some (.launched t id before, rt')) (u : ℕ) :
    rt'.started u = if u = t then some (id, fcn) else rt.started u := by
  have htasks : t = rt.tasks.length ∧ ∃ p, rt'.tasks = rt.tasks ++ [⟨id, fcn, expireOpt, p⟩] := by
    simp only [Runtime.step, Runtime.launchLocked] at h
    split at h
    · contradiction
    · cases hfree : rt.store.getFreeId with
      | none => simp [hfree] at h
      | some id' =>
        cases canSpawn with
        | false => simp [hfree] at h
        | true =>
          simp only [hfree, if_true, Option.some.injEq, Prod.mk.injEq, Event.launched.injEq] at h
          obtain ⟨⟨rfl, rfl, _⟩, rfl⟩ := h
          exact ⟨rfl, _, rfl⟩
  obtain ⟨rfl, p, htasks⟩ := htasks
  unfold Runtime.started
  rw [htasks]
  split
  · rename_i hu
    subst hu
    simp
  · rename_i hu
    rcases Nat.lt_or_gt_of_ne hu with hlt | hgt
    · rw [List.getElem?_append_left hlt]
    · rw [List.getElem?_eq_none (by simp; omega), List.getElem?_eq_none (by omega)]

def Event.taken : Event w → Option ℕ
  | .retrieved _ (some t) (.ok (.finished, _)) => some t
  | .retrieved _ (some t) (.error _) => some t
  | _ => none

def Event.takes (t : ℕ) (ev : Event w) : Bool := ev.taken == some t

def Phase.published : Phase → Option (Except Exn Str)
  | .ready r => some r
  | _ => none

theorem futureResult_of_holds {es : List (Event w)} {rt : Runtime w φ} (hI : StoreInv es rt)
    {id : BitVec w} {t : ℕ} {e : Element} (hl : rt.store.elems.lookup id = some e)
    (hf : e.fut = some t) : ∃ task, rt.tasks[t]? = some task ∧ task.id = id ∧
      rt.futureResult e.fut = .ok task.phase.published := by
  obtain ⟨task, ht, hid⟩ := (hI.entry id t ⟨e, hl, hf⟩).1
  refine ⟨task, ht, hid, ?_⟩
  simp only [Runtime.futureResult, hf, Option.bind_some, ht]
  cases task.phase <;> rfl

/-- A step that takes nothing of a task leaves its entry where it is. -/
theorem step_kept {rt rt' : Runtime w φ} {ev : Event w} (h : Steps rt ev rt')
    (hev : ev ≠ .collected) {t : ℕ} {id : BitVec w} (hh : rt.holds id t) :
    ev.takes t = true ∨ rt'.holds id t := by
  obtain ⟨e, hl, hf⟩ := hh
  have hissue (id' : BitVec w) (fut : Option ℕ) (hfree : rt.store.getFreeId = some id') :
      (rt.store.issue id' fut).elems.lookup id = some e := by
    rw [AsyncStore.issue, lookup_insert_eq, if_neg]
    · exact hl
    · rintro rfl
      simp [getFreeId_free hfree] at hl
  cases h with
  | launched n id' task' hfree _ _ => exact Or.inr ⟨e, hissue id' _ hfree, hf⟩
  | launchFailed n id' hfree => exact Or.inr ⟨e, hissue id' _ hfree, hf⟩
  | housekept u task' ret now _ _ =>
    by_cases heq : id = task'.id
    · refine Or.inr ⟨_, (lookup_insert_eq _ _ _ _).trans (if_pos heq), ?_⟩
      rw [← heq]
      simpa [AsyncStore.at, hl] using hf
    · exact Or.inr ⟨e, ((lookup_insert_eq _ _ _ _).trans (if_neg heq)).trans hl, hf⟩
  | consumed id' e' r hl' hready =>
    by_cases heq : id = id'
    · subst heq
      obtain rfl : e = e' := Option.some.inj (hl.symm.trans hl')
      refine Or.inl ?_
      cases r <;> simp [Event.takes, Event.taken, hf, Except.map]
    · exact Or.inr ⟨e, ((lookup_erase_eq _ _ _).trans (if_neg heq)).trans hl, hf⟩
  | collected => exact absurd rfl hev
  | _ => exact Or.inr ⟨e, hl, hf⟩

/-- A result is taken out of the entry of its task, which is gone afterwards. -/
theorem step_takes {es : List (Event w)} {rt rt' : Runtime w φ} {ev : Event w}
    (hI : StoreInv es rt) (h : Steps rt ev rt') {t : ℕ} (ht : ev.takes t = true) :
    (∃ id, rt.holds id t) ∧ rt'.store.size+1 = rt.store.size ∧ ∀ id, ¬rt'.holds id t := by
  have htaken : ev.taken = some t := by simpa [Event.takes] using ht
  cases h with
  | notReady id e hl hfut => cases hf : e.fut <;> simp [hf, Event.taken] at htaken
  | noState id e x hl hfut =>
    cases hf : e.fut with
    | none => simp [hf, Event.taken] at htaken
    | some u =>
      obtain ⟨task, _, _, hres⟩ := futureResult_of_holds hI hl hf
      rw [hfut] at hres
      cases hres
  | consumed id e r hl hready =>
    have hf : e.fut = some t := by
      cases hf : e.fut with
      | none => simp [hf, Event.taken] at htaken
      | some u => cases r <;> simpa [hf, Event.taken, Except.map] using htaken
    refine ⟨⟨id, e, hl, hf⟩, ?_, ?_⟩
    · have hmem : id ∈ rt.store.elems.keys := by
        rw [← AList.mem_keys, ← AList.lookup_isSome, hl]
        rfl
      have hlen : (rt.store.elems.erase id).keys.length = rt.store.elems.keys.length-1 := by
        rw [AList.keys_erase, List.length_erase_of_mem hmem]
      have hpos := List.length_pos_of_mem hmem
      rw [rt.store.length_keys] at hlen hpos
      have hsize : (rt.store.elems.erase id).keys.length =
          (rt.store.elems.erase id).entries.length := List.length_map _
      change (rt.store.elems.erase id).entries.length+1 = rt.store.size
      omega
    · rintro id' ⟨e', hl', hf'⟩
      rw [lookup_erase_eq] at hl'
      split at hl'
      · contradiction
      · rename_i hne
        obtain ⟨task, ht, hid⟩ := (hI.entry id t ⟨e, hl, hf⟩).1
        obtain ⟨task', ht', hid'⟩ := (hI.entry id' t ⟨e', hl', hf'⟩).1
        obtain rfl : task = task' := Option.some.inj (ht.symm.trans ht')
        exact hne (hid'.symm.trans hid)
  | _ => simp [Event.taken] at htaken

theorem owned_iff_started {rt : Runtime w φ} {t : ℕ} {id : BitVec w} :
    rt.owned t id ↔ ∃ fcn, rt.started t = some (id, fcn) := by
  simp only [Runtime.owned, Runtime.started, Option.map_eq_some_iff, Prod.mk.injEq]
  constructor
  · rintro ⟨task, ht, hid⟩
    exact ⟨task.fcn, task, ht, hid, rfl⟩
  · rintro ⟨_, task, ht, hid, _⟩
    exact ⟨task, ht, hid⟩

/-- A task was there before the step, unless the step launched it into an entry of its own. -/
theorem step_owned_before {rt rt' : Runtime w φ} {ev : Event w} (h : Steps rt ev rt') {t : ℕ}
    {id : BitVec w} (ho : rt'.owned t id) :
    rt.owned t id ∨ (ev = .launched t id rt.store ∧ t = rt.tasks.length ∧ rt'.holds id t) := by
  by_cases hev : ∃ u id' before, ev = .launched u id' before
  · obtain ⟨u, id', before, rfl⟩ := hev
    cases h with
    | launched n id task _ hid _ =>
      obtain ⟨task', ht, hid'⟩ := ho
      rw [List.getElem?_append] at ht
      split at ht
      · exact Or.inl ⟨task', ht, hid'⟩
      · rw [List.getElem?_singleton] at ht
        split at ht
        · cases ht
          obtain rfl : t = rt.tasks.length := by omega
          rw [← hid', hid]
          refine Or.inr ⟨rfl, rfl, ⟨toNanos initExpire, some rt.tasks.length⟩, ?_, rfl⟩
          exact (lookup_insert_eq _ _ _ _).trans (if_pos rfl)
        · contradiction
  · have hsame := step_started h fun u id' before heq => hev ⟨u, id', before, heq⟩
    rw [owned_iff_started, hsame, ← owned_iff_started] at ho
    exact Or.inl ho

/-- An entry is made by a launch and removed by a retrieval only. -/
theorem step_size_same {es : List (Event w)} {rt rt' : Runtime w φ} {ev : Event w}
    (hI : StoreInv es rt) (h : Steps rt ev rt') (hev : ev ≠ .collected)
    (hsearch : ev.search = none) (htaken : ev.taken = none) : rt'.store.size = rt.store.size := by
  cases h with
  | launched n id task _ _ _ => simp [Event.search] at hsearch
  | launchFailed n id _ => simp [Event.search] at hsearch
  | housekept t task ret now ht hphase =>
    obtain ⟨e, hl, _⟩ := hI.busy t task.id ⟨task, ht, rfl, by simp [hphase, Phase.busy]⟩
    exact size_insert_live hl
  | consumed id e r _ hready =>
    obtain ⟨t, _, hfut, _⟩ := futureResult_ready hready
    cases r <;> simp [hfut, Event.taken, Except.map] at htaken
  | collected => exact absurd rfl hev
  | _ => rfl

/-- The entry of a task is there until its result has been taken out, once; the entries made are
those that are there and those that results were taken out of. -/
structure Conserved (es : List (Event w)) (rt : Runtime w φ) : Prop where
  past : StoreInv es rt
  task : ∀ t id, rt.owned t id → (rt.holds id t ∧ es.countP (Event.takes t) = 0) ∨
    ((∀ id', ¬rt.holds id' t) ∧ es.countP (Event.takes t) = 1)
  fresh : ∀ t, rt.tasks.length ≤ t → es.countP (Event.takes t) = 0
  size : rt.store.size+es.countP (fun ev => ev.taken.isSome) =
    es.countP (fun ev => ev.search.isSome)

theorem Conserved.step {es : List (Event w)} {rt rt' : Runtime w φ} {ev : Event w}
    (hI : Conserved es rt) (h : Steps rt ev rt') (hev : ev ≠ .collected) :
    Conserved (es ++ [ev]) rt' where
  past := hI.past.step h
  task t id ho := by
    rw [List.countP_append, List.countP_singleton]
    by_cases htakes : ev.takes t = true
    · obtain ⟨⟨id', hheld⟩, _, hgone⟩ := step_takes hI.past h htakes
      have hbefore := hI.task t id' (hI.past.entry id' t hheld).1
      have hzero := (hbefore.resolve_right fun hno => hno.1 id' hheld).2
      rw [hzero, if_pos htakes]
      exact Or.inr ⟨hgone, rfl⟩
    · rw [if_neg htakes, Nat.add_zero]
      rcases step_owned_before h ho with hbefore | ⟨_, rfl, hheld⟩
      · rcases hI.task t id hbefore with ⟨hheld, hzero⟩ | ⟨hgone, hone⟩
        · exact Or.inl ⟨(step_kept h hev hheld).resolve_left htakes, hzero⟩
        · refine Or.inr ⟨fun id' hheld => ?_, hone⟩
          rcases step_holds h hheld with ⟨_, hnew, _⟩ | ⟨_, hheld'⟩
          · obtain ⟨task, ht, _⟩ := hbefore
            exact absurd (List.getElem?_eq_some_iff.mp ht).1 (by omega)
          · exact hgone id' hheld'
      · exact Or.inl ⟨hheld, hI.fresh _ le_rfl⟩
  fresh t ht := by
    rw [List.countP_append, List.countP_singleton]
    have hlen : rt.tasks.length ≤ t := by
      by_contra hlt
      obtain ⟨task, ho, _⟩ := step_owned h (t := t)
        ⟨rt.tasks[t], List.getElem?_eq_getElem (by omega), rfl⟩
      exact absurd (List.getElem?_eq_some_iff.mp ho).1 (by omega)
    rw [hI.fresh t hlen, if_neg]
    intro htakes
    obtain ⟨⟨id, hheld⟩, _⟩ := step_takes hI.past h htakes
    obtain ⟨task, ho, _⟩ := (hI.past.entry id t hheld).1
    exact absurd (List.getElem?_eq_some_iff.mp ho).1 (by omega)
  size := by
    have hbefore := hI.size
    rw [List.countP_append, List.countP_append, List.countP_singleton, List.countP_singleton]
    cases htaken : ev.taken with
    | some t =>
      obtain ⟨_, hsize, _⟩ := step_takes (t := t) hI.past h (by simp [Event.takes, htaken])
      have hsearch : ev.search = none := by
        cases ev <;> first | rfl | simp [Event.taken] at htaken
      simp only [hsearch, Option.isSome_some, Option.isSome_none, if_true, Bool.false_eq_true,
        if_false]
      omega
    | none =>
      simp only [Option.isSome_none, Bool.false_eq_true, if_false]
      rcases step_size hI.past h with ⟨hnone, _⟩ | ⟨hsome, hsize⟩
      · have hsame := step_size_same hI.past h hev hnone htaken
        simp only [hnone, Option.isSome_none, Bool.false_eq_true, if_false]
        omega
      · rw [if_pos (Option.isSome_iff_ne_none.mpr hsome)]
        omega

theorem conserved_run {as : List (Action w φ)} {es : List (Event w)} {rt : Runtime w φ}
    (h : asyncRun w φ as = some (es, rt)) (hnone : .collected ∉ es) : Conserved es rt := by
  have hrun := Runs.exec_invariant_nil
    (I := fun es (rt : Runtime w φ) => .collected ∉ es → Conserved es rt) ?_ ?_ h
  · exact hrun hnone
  · intro es rt a ev rt' hI hs hcollected
    rw [List.mem_append, List.mem_singleton, not_or] at hcollected
    exact (hI hcollected.1).step (step_cases hs) (Ne.symm hcollected.2)
  · intro _
    refine ⟨StoreInv.empty, ?_, by simp, rfl⟩
    rintro t id ⟨task, ht, _⟩
    simp [Runtime.empty] at ht

/-- A worker at rest holds up nobody: what it has to give is there to be taken. -/
theorem valueIfReady_published {es : List (Event w)} {rt : Runtime w φ} (hI : StoreInv es rt)
    {id : BitVec w} {t : ℕ} {task : Task w φ} {ret : Str} (hh : rt.holds id t)
    (ht : rt.tasks[t]? = some task) (hphase : task.phase = .ready (.ok ret)) :
    (rt.valueIfReady id).1 = .ok (.finished, ret) := by
  obtain ⟨e, hl, hf⟩ := hh
  obtain ⟨task', ht', _, hres⟩ := futureResult_of_holds hI hl hf
  obtain rfl : task = task' := Option.some.inj (ht.symm.trans ht')
  rw [hphase] at hres
  simp only [Runtime.valueIfReady, hl, hres, Phase.published]

inductive NextStep (t : ℕ) (now : ℤ) (r : Except Exn Str) : Phase → Action w φ → Phase → Prop
  | compute : NextStep t now r .running (.compute t r) (.computed r)
  | housekeep (ret : Str) : NextStep t now r (.returned ret) (.housekeep t now) (.stored ret)
  | publish (ret : Str) : NextStep t now r (.stored ret) (.publish t) (.ready (.ok ret))

/-- Nothing that the others do keeps a worker from its next step, after which its entry is still
there. -/
theorem nextStep_enabled {es : List (Event w)} {rt : Runtime w φ} (hI : StoreInv es rt)
    {id : BitVec w} {t : ℕ} {task : Task w φ} {now : ℤ} {r : Except Exn Str} {a : Action w φ}
    {p : Phase} (hh : rt.holds id t) (ht : rt.tasks[t]? = some task)
    (hnext : NextStep t now r task.phase a p) :
    ∃ ev rt', rt.step a = some (ev, rt') ∧ rt'.holds id t ∧
      rt'.tasks[t]? = some { task with phase := p } := by
  have hid : task.id = id := by
    obtain ⟨task', ht', hid⟩ := (hI.entry id t hh).1
    obtain rfl : task = task' := Option.some.inj (ht.symm.trans ht')
    exact hid
  have hstep : ∃ ev rt', rt.step a = some (ev, rt') ∧
      rt'.tasks[t]? = some { task with phase := p } ∧ task.phase.busy = true := by
    generalize hphase : task.phase = phase at hnext
    cases hnext with
    | compute =>
      refine ⟨_, _, by simp only [Runtime.step, ht, hphase]; rfl, ?_, rfl⟩
      exact (getElem?_setPhase ht).trans (if_pos rfl)
    | housekeep ret =>
      refine ⟨_, _, by simp only [Runtime.step, ht, hphase]; rfl, ?_, rfl⟩
      have hsame : (Runtime.mk (rt.store.housekeep task now) rt.tasks rt.admitted).tasks[t]? =
          some task := ht
      exact (getElem?_setPhase hsame).trans (if_pos rfl)
    | publish ret =>
      refine ⟨_, _, by simp only [Runtime.step, ht, hphase]; rfl, ?_, rfl⟩
      exact (getElem?_setPhase ht).trans (if_pos rfl)
  obtain ⟨ev, rt', hs, ht', hbusy⟩ := hstep
  exact ⟨ev, rt', hs, step_holds_working (step_cases hs) hh ⟨task, ht, hid, hbusy⟩, ht'⟩

end Virthttp
