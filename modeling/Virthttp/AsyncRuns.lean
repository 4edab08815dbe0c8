import Virthttp.AsyncStore

namespace Virthttp

variable {w : ℕ} {φ : Type}

inductive Action (w : ℕ) (φ : Type) where
  | arrive
  | launch (fcn : φ) (expireOpt : Option ℤ) (canSpawn : Bool)
  | compute (t : ℕ) (r : Except Exn Str)
  | housekeep (t : ℕ) (now : ℤ)
  | publish (t : ℕ)
  | retrieve (id : BitVec w)
  | gc (now : ℤ)

/-- What a step did. A launch records the store its search started from, the housekeeping the
entry it found, a retrieval the future it looked at. -/
inductive Event (w : ℕ) where
  | admitted (ok : Bool)
  | launched (t : ℕ) (id : BitVec w) (before : AsyncStore w)
  | launchFailed (id : BitVec w) (before : AsyncStore w)
  | computed (t : ℕ) (r : Except Exn Str)
  | housekept (t : ℕ) (found : Option Element)
  | published (t : ℕ)
  | retrieved (id : BitVec w) (fut : Option ℕ) (res : Except Exn (TaskStatus × Str))
  | collected

def Phase.computed : Except Exn Str → Phase
  | .ok ret => .returned ret
  | .error x => .ready (.error x)

def Runtime.step (rt : Runtime w φ) : Action w φ → Option (Event w × Runtime w φ)
  | .arrive =>
    if rt.store.full then some (.admitted false, rt)
    else some (.admitted true, { rt with admitted := rt.admitted+1 })
  | .launch fcn expireOpt canSpawn =>
    match rt.admitted with
    | 0 => none
    | n+1 =>
      match Runtime.launchLocked { rt with admitted := n } fcn expireOpt canSpawn with
      | (.id id, rt') => some (.launched rt.tasks.length id rt.store, rt')
      | (.threw id _, rt') => some (.launchFailed id rt.store, rt')
      | (.spins, _) => none
  | .compute t r =>
    match rt.tasks[t]? with
    | none => none
    | some task =>
      match task.phase with
      | .running => some (.computed t r, rt.setPhase t task (.computed r))
      | _ => none
  | .housekeep t now =>
    match rt.tasks[t]? with
    | none => none
    | some task =>
      match task.phase with
      | .returned ret =>
        some (.housekept t (rt.store.elems.lookup task.id),
          Runtime.setPhase { rt with store := rt.store.housekeep task now } t task (.stored ret))
      | _ => none
  | .publish t =>
    match rt.tasks[t]? with
    | none => none
    | some task =>
      match task.phase with
      | .stored ret => some (.published t, rt.setPhase t task (.ready (.ok ret)))
      | _ => none
  | .retrieve id =>
    let (res, rt') := rt.valueIfReady id
    some (.retrieved id ((rt.store.elems.lookup id).bind Element.fut) res, rt')
  | .gc now => (rt.gc now).map (fun rt' => (.collected, rt'))

def asyncRun (w : ℕ) (φ : Type) (as : List (Action w φ)) :
    Option (List (Event w) × Runtime w φ) :=
  Runs.exec Runtime.step (Runtime.empty w φ) as

def AsyncStore.issue (s : AsyncStore w) (id : BitVec w) (fut : Option ℕ) : AsyncStore w :=
  { s with elems := s.elems.insert id ⟨toNanos initExpire, fut⟩, lastId := id }

inductive Steps (rt : Runtime w φ) : Event w → Runtime w φ → Prop where
  | admitted (ok : Bool) (n : ℕ) : Steps rt (.admitted ok) { rt with admitted := n }
  | launched (n : ℕ) (id : BitVec w) (task : Task w φ) (hfree : rt.store.getFreeId = some id)
      (hid : task.id = id) (hphase : task.phase = .running) :
      Steps rt (.launched rt.tasks.length id rt.store)
        ⟨rt.store.issue id (some rt.tasks.length), rt.tasks ++ [task], n⟩
  | launchFailed (n : ℕ) (id : BitVec w) (hfree : rt.store.getFreeId = some id) :
      Steps rt (.launchFailed id rt.store) ⟨rt.store.issue id none, rt.tasks, n⟩
  | computed (t : ℕ) (task : Task w φ) (r : Except Exn Str) (ht : rt.tasks[t]? = some task)
      (hphase : task.phase = .running) :
      Steps rt (.computed t r) (rt.setPhase t task (.computed r))
  | housekept (t : ℕ) (task : Task w φ) (ret : Str) (now : ℤ) (ht : rt.tasks[t]? = some task)
      (hphase : task.phase = .returned ret) :
      Steps rt (.housekept t (rt.store.elems.lookup task.id))
        (Runtime.setPhase { rt with store := rt.store.housekeep task now } t task (.stored ret))
  | published (t : ℕ) (task : Task w φ) (ret : Str) (ht : rt.tasks[t]? = some task)
      (hphase : task.phase = .stored ret) :
      Steps rt (.published t) (rt.setPhase t task (.ready (.ok ret)))
  | notFound (id : BitVec w) (h : rt.store.elems.lookup id = none) :
      Steps rt (.retrieved id none (.ok (.nonExistent, []))) rt
  | noState (id : BitVec w) (e : Element) (x : Exn) (h : rt.store.elems.lookup id = some e)
      (hfut : rt.futureResult e.fut = .error x) : Steps rt (.retrieved id e.fut (.error x)) rt
  | notReady (id : BitVec w) (e : Element) (h : rt.store.elems.lookup id = some e)
      (hfut : rt.futureResult e.fut = .ok none) :
      Steps rt (.retrieved id e.fut (.ok (.inProgress, []))) rt
  | consumed (id : BitVec w) (e : Element) (r : Except Exn Str)
      (h : rt.store.elems.lookup id = some e) (hfut : rt.futureResult e.fut = .ok (some r)) :
      Steps rt (.retrieved id e.fut (r.map (fun ret => (.finished, ret))))
        { rt with store := { rt.store with elems := rt.store.elems.erase id } }
  | collected (now : ℤ) (rt' : Runtime w φ) (h : rt.gc now = some rt') : Steps rt .collected rt'

theorem AList.insert_twice {α β : Type} [DecidableEq α] (s : AList (fun _ : α => β)) (a : α)
    (b b' : β) : (s.insert a b).insert a b' = s.insert a b' :=
  AList.insert_insert s

/-- A launch takes up an admission and a free id, whether its thread can be started or not. -/
theorem step_launch_inv {rt rt' : Runtime w φ} {fcn : φ} {expireOpt : Option ℤ} {canSpawn : Bool}
    {ev : Event w} (h : rt.step (.launch fcn expireOpt canSpawn) = some (ev, rt')) :
    ∃ n id, rt.admitted = n+1 ∧ rt.store.getFreeId = some id ∧
      ((canSpawn = true ∧ ev = .launched rt.tasks.length id rt.store ∧
          ∃ task, task.id = id ∧ task.phase = .running ∧
            rt' = ⟨rt.store.issue id (some rt.tasks.length), rt.tasks ++ [task], n⟩) ∨
        (canSpawn = false ∧ ev = .launchFailed id rt.store ∧
          rt' = ⟨rt.store.issue id none, rt.tasks, n⟩)) := by
  simp only [Runtime.step, Runtime.launchLocked] at h
  split at h
  · contradiction
  · rename_i n hn
    cases hfree : rt.store.getFreeId with
    | none => simp [hfree] at h
    | some id =>
      refine ⟨n, id, hn, rfl, ?_⟩
      cases canSpawn with
      | true =>
        -- `launch` writes the entry with the future over the one that it has just made
        simp only [hfree, if_true, AList.insert_twice] at h
        cases h
        exact Or.inl ⟨rfl, rfl, _, rfl, rfl, rfl⟩
      | false =>
        simp only [hfree, Bool.false_eq_true, if_false] at h
        cases h
        exact Or.inr ⟨rfl, rfl, rfl⟩

theorem step_housekeep_inv {rt rt' : Runtime w φ} {t : ℕ} {now : ℤ} {ev : Event w}
    (h : rt.step (.housekeep t now) = some (ev, rt')) :
    ∃ task ret, rt.tasks[t]? = some task ∧ task.phase = .returned ret ∧
      ev = .housekept t (rt.store.elems.lookup task.id) ∧
      rt' = Runtime.setPhase { rt with store := rt.store.housekeep task now } t task
        (.stored ret) := by
  simp only [Runtime.step] at h
  split at h
  · contradiction
  · rename_i task ht
    split at h
    · rename_i ret hphase
      cases h
      exact ⟨task, ret, ht, hphase, rfl, rfl⟩
    · contradiction

theorem step_cases {rt rt' : Runtime w φ} {a : Action w φ} {e : Event w}
    (h : rt.step a = some (e, rt')) : Steps rt e rt' := by
  cases a with
  | arrive =>
    simp only [Runtime.step] at h
    split at h
    · cases h
      exact .admitted false rt.admitted
    · cases h
      exact .admitted true _
  | launch fcn expireOpt canSpawn =>
    obtain ⟨n, id, _, hfree, hcase⟩ := step_launch_inv h
    rcases hcase with ⟨_, rfl, task, hid, hphase, rfl⟩ | ⟨_, rfl, rfl⟩
    · exact .launched n id task hfree hid hphase
    · exact .launchFailed n id hfree
  | compute t r =>
    simp only [Runtime.step] at h
    split at h
    · contradiction
    · rename_i task ht
      split at h
      · rename_i hphase
        cases h
        exact .computed t task r ht hphase
      · contradiction
  | housekeep t now =>
    obtain ⟨task, ret, ht, hphase, rfl, rfl⟩ := step_housekeep_inv h
    exact .housekept t task ret now ht hphase
  | publish t =>
    simp only [Runtime.step] at h
    split at h
    · contradiction
    · rename_i task ht
      split at h
      · rename_i ret hphase
        cases h
        exact .published t task ret ht hphase
      · contradiction
  | retrieve id =>
    simp only [Runtime.step, Runtime.valueIfReady] at h
    cases hl : rt.store.elems.lookup id with
    | none =>
      simp only [hl] at h
      cases h
      exact .notFound id hl
    | some e =>
      cases hf : rt.futureResult e.fut with
      | error x =>
        simp only [hl, hf] at h
        cases h
        exact .noState id e x hl hf
      | ok o =>
        cases o with
        | none =>
          simp only [hl, hf] at h
          cases h
          exact .notReady id e hl hf
        | some r =>
          have hc := Steps.consumed id e r hl hf
          cases r <;> simp only [hl, hf] at h <;> cases h <;> exact hc
  | gc now =>
    obtain ⟨rt₁, hg, heq⟩ := Option.map_eq_some_iff.mp h
    cases heq
    exact .collected now rt' hg

def Event.answers : Event w → Action w φ → Prop
  | .admitted _, .arrive => True
  | .launched _ _ _, .launch _ _ true => True
  | .launchFailed _ _, .launch _ _ false => True
  | .computed _ _, .compute _ _ => True
  | .housekept t _, .housekeep u _ => t = u
  | .published _, .publish _ => True
  | .retrieved _ _ _, .retrieve _ => True
  | .collected, .gc _ => True
  | _, _ => False

theorem step_answers {rt rt' : Runtime w φ} {a : Action w φ} {ev : Event w}
    (h : rt.step a = some (ev, rt')) : ev.answers a := by
  cases a with
  | arrive =>
    simp only [Runtime.step] at h
    split at h <;> cases h <;> trivial
  | launch fcn expireOpt canSpawn =>
    obtain ⟨n, id, _, _, hcase⟩ := step_launch_inv h
    rcases hcase with ⟨rfl, rfl, _⟩ | ⟨rfl, rfl, _⟩ <;> trivial
  | compute t r | housekeep t now | publish t =>
    simp only [Runtime.step] at h
    split at h
    · contradiction
    · split at h
      · cases h
        trivial
      · contradiction
  | retrieve id =>
    cases h
    trivial
  | gc now =>
    obtain ⟨rt₁, _, heq⟩ := Option.map_eq_some_iff.mp h
    cases heq
    trivial

theorem lookup_insert_eq {α β : Type} [DecidableEq α] (s : AList (fun _ : α => β)) (a a' : α)
    (b : β) : (s.insert a' b).lookup a = if a = a' then some b else s.lookup a := by
  by_cases h : a = a'
  · subst h
    simp
  · simp [h, AList.lookup_insert_ne h]

theorem lookup_erase_eq {α β : Type} [DecidableEq α] (s : AList (fun _ : α => β)) (a a' : α) :
    (s.erase a').lookup a = if a = a' then none else s.lookup a := by
  by_cases h : a = a'
  · subst h
    simp
  · simp [h, AList.lookup_erase_ne h]

/-- `gc` keeps exactly the entries that are not both past their test and ready. -/
theorem Runtime.mem_gcLoop {rt : Runtime w φ} {now : ℤ}
    {xs ys : List (Sigma fun _ : BitVec w => Element)} (h : rt.gcLoop now xs = some ys)
    (x : Sigma fun _ : BitVec w => Element) :
    x ∈ ys ↔ x ∈ xs ∧ ¬(x.2.expires > now ∧ ∃ r, rt.futureResult x.2.fut = .ok (some r)) := by
  induction xs generalizing ys with
  | nil =>
    cases h
    simp
  | cons y xs ih =>
    have keep (hy : ¬(y.2.expires > now ∧ ∃ r, rt.futureResult y.2.fut = .ok (some r)))
        (h : (rt.gcLoop now xs).map (y :: ·) = some ys) : x ∈ ys ↔ x ∈ y :: xs ∧
          ¬(x.2.expires > now ∧ ∃ r, rt.futureResult x.2.fut = .ok (some r)) := by
      obtain ⟨zs, hz, rfl⟩ := Option.map_eq_some_iff.mp h
      rw [List.mem_cons, List.mem_cons, ih hz]
      constructor
      · rintro (rfl | ⟨hx, hn⟩)
        · exact ⟨Or.inl rfl, hy⟩
        · exact ⟨Or.inr hx, hn⟩
      · rintro ⟨rfl | hx, hn⟩
        · exact Or.inl rfl
        · exact Or.inr ⟨hx, hn⟩
    simp only [gcLoop] at h
    split at h
    · rename_i hexp
      split at h
      · contradiction
      · rename_i r hr
        rw [ih h, List.mem_cons]
        constructor
        · exact fun hx => ⟨Or.inr hx.1, hx.2⟩
        · rintro ⟨rfl | hx, hn⟩
          · exact absurd ⟨hexp, r, hr⟩ hn
          · exact ⟨hx, hn⟩
      · rename_i hr
        exact keep (fun hy => by simp [hr] at hy) h
    · rename_i hexp
      exact keep (fun hy => hexp hy.1) h

theorem Runtime.gc_lookup {rt rt' : Runtime w φ} {now : ℤ} (h : rt.gc now = some rt')
    (id : BitVec w) (e : Element) : rt'.store.elems.lookup id = some e ↔
      rt.store.elems.lookup id = some e ∧
        ¬(e.expires > now ∧ ∃ r, rt.futureResult e.fut = .ok (some r)) := by
  unfold Runtime.gc at h
  split at h
  · contradiction
  · rename_i left hl
    cases h
    have hm := Runtime.mem_gcLoop hl ⟨id, e⟩
    rw [← Option.mem_def, ← Option.mem_def, AList.mem_lookup_iff, AList.mem_lookup_iff]
    exact hm

theorem Runtime.gc_same {rt rt' : Runtime w φ} {now : ℤ} (h : rt.gc now = some rt') :
    rt'.tasks = rt.tasks ∧ rt'.store.lastId = rt.store.lastId := by
  unfold Runtime.gc at h
  split at h
  · contradiction
  · cases h
    exact ⟨rfl, rfl⟩

/-- The task whose future is held in an entry that is ready. -/
theorem futureResult_ready {rt : Runtime w φ} {fut : Option ℕ} {r : Except Exn Str}
    (h : rt.futureResult fut = .ok (some r)) :
    ∃ t task, fut = some t ∧ rt.tasks[t]? = some task ∧ task.phase = .ready r := by
  unfold Runtime.futureResult at h
  split at h
  · contradiction
  · rename_i task htask
    obtain ⟨t, rfl, ht⟩ := Option.bind_eq_some_iff.mp htask
    split at h
    · rename_i result hphase
      cases h
      exact ⟨t, task, rfl, ht, hphase⟩
    · cases h

theorem getElem?_setPhase {rt : Runtime w φ} {t u : ℕ} {task : Task w φ} {p : Phase}
    (ht : rt.tasks[t]? = some task) : (rt.setPhase t task p).tasks[u]? =
      if u = t then some { task with phase := p } else rt.tasks[u]? := by
  obtain ⟨hlt, _⟩ := List.getElem?_eq_some_iff.mp ht
  by_cases h : u = t
  · subst h
    simp [Runtime.setPhase, hlt]
  · simp [Runtime.setPhase, h, Ne.symm h]

end Virthttp
