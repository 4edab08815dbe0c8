import Virthttp.AsyncRuns

namespace Virthttp

variable {w : ℕ} {φ ψ : Type}

def Task.mapFcn (f : φ → ψ) (task : Task w φ) : Task w ψ :=
  ⟨task.id, f task.fcn, task.expireOpt, task.phase⟩

def Runtime.mapFcn (f : φ → ψ) (rt : Runtime w φ) : Runtime w ψ :=
  ⟨rt.store, rt.tasks.map (Task.mapFcn f), rt.admitted⟩

def Action.mapFcn (f : φ → ψ) : Action w φ → Action w ψ
  | .arrive => .arrive
  | .launch fcn expireOpt canSpawn => .launch (f fcn) expireOpt canSpawn
  | .compute t r => .compute t r
  | .housekeep t now => .housekeep t now
  | .publish t => .publish t
  | .retrieve id => .retrieve id
  | .gc now => .gc now

section Parts

variable (f : φ → ψ) (rt : Runtime w φ)

theorem futureResult_mapFcn (fut : Option ℕ) :
    (rt.mapFcn f).futureResult fut = rt.futureResult fut := by
  have htask (t : ℕ) : (rt.mapFcn f).tasks[t]? = (rt.tasks[t]?).map (Task.mapFcn f) :=
    List.getElem?_map
  cases fut with
  | none => rfl
  | some t =>
    simp only [Runtime.futureResult, Option.bind_some, htask]
    cases rt.tasks[t]? <;> rfl

theorem valueIfReady_mapFcn (id : BitVec w) : (rt.mapFcn f).valueIfReady id =
    ((rt.valueIfReady id).1, (rt.valueIfReady id).2.mapFcn f) := by
  unfold Runtime.valueIfReady
  have hlookup : (rt.mapFcn f).store.elems.lookup id = rt.store.elems.lookup id := rfl
  rw [hlookup]
  cases rt.store.elems.lookup id with
  | none => rfl
  | some e =>
    simp only [futureResult_mapFcn]
    cases rt.futureResult e.fut with
    | error x => rfl
    | ok o =>
      rcases o with _ | _ | _ <;> rfl

theorem setPhase_mapFcn (t : ℕ) (task : Task w φ) (p : Phase) :
    (rt.mapFcn f).setPhase t (task.mapFcn f) p = (rt.setPhase t task p).mapFcn f := by
  simp only [Runtime.setPhase, Runtime.mapFcn, List.map_set]
  rfl

theorem gcLoop_mapFcn (now : ℤ) (xs : List (Sigma fun _ : BitVec w => Element)) :
    (rt.mapFcn f).gcLoop now xs = rt.gcLoop now xs := by
  induction xs with
  | nil => rfl
  | cons x xs ih => simp only [Runtime.gcLoop, futureResult_mapFcn, ih]

theorem gc_mapFcn (now : ℤ) :
    (rt.mapFcn f).gc now = (rt.gc now).map (Runtime.mapFcn f) := by
  have hloop := gcLoop_mapFcn f rt now rt.store.elems.entries
  unfold Runtime.gc
  split
  · rename_i hnone
    split
    · rfl
    · rename_i left hsome
      change (rt.mapFcn f).gcLoop now rt.store.elems.entries = none at hnone
      rw [hloop, hsome] at hnone
      contradiction
  · rename_i left hsome
    change (rt.mapFcn f).gcLoop now rt.store.elems.entries = some left at hsome
    rw [hloop] at hsome
    split
    · rename_i hnone
      rw [hnone] at hsome
      contradiction
    · rename_i left' hsome'
      rw [hsome'] at hsome
      cases hsome
      rfl

theorem launchLocked_mapFcn (fcn : φ) (expireOpt : Option ℤ) (canSpawn : Bool) :
    (rt.mapFcn f).launchLocked (f fcn) expireOpt canSpawn =
      ((rt.launchLocked fcn expireOpt canSpawn).1,
        (rt.launchLocked fcn expireOpt canSpawn).2.mapFcn f) := by
  unfold Runtime.launchLocked
  have hfree : (rt.mapFcn f).store.getFreeId = rt.store.getFreeId := rfl
  rw [hfree]
  cases rt.store.getFreeId with
  | none => rfl
  | some id =>
    cases canSpawn with
    | false => rfl
    | true => simp [Runtime.mapFcn, Task.mapFcn]

end Parts

/-- A step on renamed callables is the renamed step. -/
theorem step_mapFcn (f : φ → ψ) (rt : Runtime w φ) (a : Action w φ) :
    (rt.mapFcn f).step (a.mapFcn f) =
      (rt.step a).map (fun x => (x.1, x.2.mapFcn f)) := by
  have htask (t : ℕ) : (rt.mapFcn f).tasks[t]? = (rt.tasks[t]?).map (Task.mapFcn f) :=
    List.getElem?_map
  cases a with
  | arrive =>
    simp only [Action.mapFcn, Runtime.step]
    cases hfull : rt.store.full <;> simp [Runtime.mapFcn, hfull]
  | launch fcn expireOpt canSpawn =>
    simp only [Action.mapFcn, Runtime.step]
    have hadm : (rt.mapFcn f).admitted = rt.admitted := rfl
    rw [hadm]
    cases rt.admitted with
    | zero => rfl
    | succ n =>
      have hrt : ({ rt.mapFcn f with admitted := n } : Runtime w ψ) =
          Runtime.mapFcn f { rt with admitted := n } := rfl
      have hlen : (rt.mapFcn f).tasks.length = rt.tasks.length := List.length_map _
      simp only [hrt, hlen, launchLocked_mapFcn]
      rcases Runtime.launchLocked { rt with admitted := n } fcn expireOpt canSpawn with
        ⟨_ | _ | _, rt'⟩ <;> rfl
  | compute t r =>
    simp only [Action.mapFcn, Runtime.step, htask]
    cases rt.tasks[t]? with
    | none => rfl
    | some task =>
      have hphase : (task.mapFcn f).phase = task.phase := rfl
      simp only [Option.map_some, hphase, setPhase_mapFcn]
      cases task.phase <;> rfl
  | housekeep t now =>
    simp only [Action.mapFcn, Runtime.step, htask]
    cases rt.tasks[t]? with
    | none => rfl
    | some task =>
      have hphase : (task.mapFcn f).phase = task.phase := rfl
      have hrt : ({ rt.mapFcn f with store := (rt.mapFcn f).store.housekeep (task.mapFcn f) now } :
          Runtime w ψ) = Runtime.mapFcn f { rt with store := rt.store.housekeep task now } := rfl
      simp only [Option.map_some, hphase, hrt, setPhase_mapFcn]
      cases task.phase <;> rfl
  | publish t =>
    simp only [Action.mapFcn, Runtime.step, htask]
    cases rt.tasks[t]? with
    | none => rfl
    | some task =>
      have hphase : (task.mapFcn f).phase = task.phase := rfl
      simp only [Option.map_some, hphase, setPhase_mapFcn]
      cases task.phase <;> rfl
  | retrieve id =>
    simp only [Action.mapFcn, Runtime.step, valueIfReady_mapFcn, Option.map_some]
    rfl
  | gc now =>
    simp only [Action.mapFcn, Runtime.step, gc_mapFcn, Option.map_map]
    rfl

end Virthttp
