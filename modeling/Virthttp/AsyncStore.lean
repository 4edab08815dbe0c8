import Virthttp.Common
import Virthttp.CyclicSearch
import Virthttp.Runs
import Mathlib.Data.List.AList

/-! `AsyncStore` and the worker threads it starts. The width `w` of the keys is a parameter;
the program takes `w = 32`. The futures are the numbers of the tasks whose result they hold. -/
namespace Virthttp

inductive TaskStatus where
  | nonExistent
  | inProgress
  | finished
  deriving DecidableEq

/-- `std::chrono` turns seconds into the system clock's signed 64-bit nanoseconds. -/
def toNanos (seconds : ℤ) : ℤ := Int.bmod (seconds*10^9) (2^64)

/-- A stored entry; a future without a shared state is `none`. -/
structure Element where
  expires : ℤ
  fut : Option ℕ

structure AsyncStore (w : ℕ) where
  elems : AList (fun _ : BitVec w => Element)
  lastId : BitVec w
  defaultExpire : ℤ

def AsyncStore.empty (w : ℕ) : AsyncStore w := ⟨∅, -1, 120⟩

/-- `std::chrono::seconds::max()` -/
def initExpire : ℤ := 2^63-1

inductive Phase where
  | running
  | returned (ret : Str)
  | stored (ret : Str)
  | ready (result : Except Exn Str)

structure Task (w : ℕ) (φ : Type) where
  id : BitVec w
  fcn : φ
  expireOpt : Option ℤ
  phase : Phase

/-- The store, its workers in the order of their launches, and the number of callers of
`launch` that have passed the capacity test and do not hold the mutex yet. -/
structure Runtime (w : ℕ) (φ : Type) where
  store : AsyncStore w
  tasks : List (Task w φ)
  admitted : ℕ

def Runtime.empty (w : ℕ) (φ : Type) : Runtime w φ := ⟨AsyncStore.empty w, [], 0⟩

variable {w : ℕ} {φ : Type}

def AsyncStore.live (s : AsyncStore w) (id : BitVec w) : Bool := (s.elems.lookup id).isSome

/-- The loop `while (elems.count(++id) > 0)`; no result when it goes round for ever. -/
def AsyncStore.getFreeId (s : AsyncStore w) : Option (BitVec w) :=
  CyclicSearch.firstFree (fun id => id+1) s.live (2^w) s.lastId

def AsyncStore.full (s : AsyncStore w) : Bool := s.elems.entries.length == 2^w-1

inductive Launched (w : ℕ) where
  | id (id : BitVec w)
  | threw (id : BitVec w) (e : Exn)
  | spins

/-- The critical section of `launch`; `canSpawn` says whether a thread can be started. -/
def Runtime.launchLocked (rt : Runtime w φ) (fcn : φ) (expireOpt : Option ℤ) (canSpawn : Bool) :
    Launched w × Runtime w φ :=
  match rt.store.getFreeId with
  | none => (.spins, rt)
  | some id =>
    let inserted := rt.store.elems.insert id ⟨toNanos initExpire, none⟩
    if canSpawn then
      let started := inserted.insert id ⟨toNanos initExpire, some rt.tasks.length⟩
      (.id id, { rt with
        store := { rt.store with elems := started, lastId := id }
        tasks := rt.tasks ++ [⟨id, fcn, expireOpt, .running⟩] })
    else
      (.threw id .systemError, { rt with
        store := { rt.store with elems := inserted, lastId := id } })

/-- `launch` called while no other thread touches the store. -/
def Runtime.launch (rt : Runtime w φ) (fcn : φ) (expireOpt : Option ℤ) (canSpawn : Bool) :
    Option (Launched w) × Runtime w φ :=
  if rt.store.full then (none, rt)
  else
    let (res, rt') := rt.launchLocked fcn expireOpt canSpawn
    (some res, rt')

def Runtime.setPhase (rt : Runtime w φ) (t : ℕ) (task : Task w φ) (p : Phase) : Runtime w φ :=
  { rt with tasks := rt.tasks.set t { task with phase := p } }

/-- The worker's `elems[id]`, which inserts a default entry where there is none. -/
def AsyncStore.at (s : AsyncStore w) (id : BitVec w) : Element :=
  (s.elems.lookup id).getD ⟨0, none⟩

def AsyncStore.housekeep (s : AsyncStore w) (task : Task w φ) (now : ℤ) : AsyncStore w :=
  let expires := Int.bmod (now+toNanos (task.expireOpt.getD s.defaultExpire)) (2^64)
  { s with elems := s.elems.insert task.id { s.at task.id with expires := expires } }

/-- The result behind a future once it is ready; waiting on no shared state throws. -/
def Runtime.futureResult (rt : Runtime w φ) (fut : Option ℕ) :
    Except Exn (Option (Except Exn Str)) :=
  match fut.bind (fun t => rt.tasks[t]?) with
  | none => .error .futureError
  | some task =>
    match task.phase with
    | .ready result => .ok (some result)
    | _ => .ok none

def Runtime.valueIfReady (rt : Runtime w φ) (id : BitVec w) :
    Except Exn (TaskStatus × Str) × Runtime w φ :=
  match rt.store.elems.lookup id with
  | none => (.ok (.nonExistent, []), rt)
  | some e =>
    match rt.futureResult e.fut with
    | .error x => (.error x, rt)
    | .ok none => (.ok (.inProgress, []), rt)
    | .ok (some result) =>
      let rt' := { rt with store := { rt.store with elems := rt.store.elems.erase id } }
      match result with
      | .error x => (.error x, rt')
      | .ok ret => (.ok (.finished, ret), rt')

/-- The loop of `gc` over the entries; no result where `noexcept` ends the process. -/
def Runtime.gcLoop (rt : Runtime w φ) (now : ℤ) :
    List (Sigma fun _ : BitVec w => Element) → Option (List (Sigma fun _ : BitVec w => Element))
  | [] => some []
  | x :: xs =>
    if x.2.expires > now then
      match rt.futureResult x.2.fut with
      | .error _ => none
      | .ok (some _) => rt.gcLoop now xs
      | .ok none => (rt.gcLoop now xs).map (x :: ·)
    else (rt.gcLoop now xs).map (x :: ·)

theorem Runtime.gcLoop_sublist (rt : Runtime w φ) (now : ℤ)
    {xs ys : List (Sigma fun _ : BitVec w => Element)} (h : rt.gcLoop now xs = some ys) :
    ys.Sublist xs := by
  induction xs generalizing ys with
  | nil =>
    cases h
    exact List.Sublist.refl _
  | cons x xs ih =>
    have keep (h : (rt.gcLoop now xs).map (x :: ·) = some ys) : ys.Sublist (x :: xs) := by
      obtain ⟨zs, hz, rfl⟩ := Option.map_eq_some_iff.mp h
      exact (ih hz).cons_cons x
    simp only [gcLoop] at h
    split at h
    · split at h
      · contradiction
      · exact (ih h).cons x
      · exact keep h
    · exact keep h

def Runtime.gc (rt : Runtime w φ) (now : ℤ) : Option (Runtime w φ) :=
  match h : rt.gcLoop now rt.store.elems.entries with
  | none => none
  | some left => some { rt with store := { rt.store with
      elems := ⟨left, (rt.store.elems.nodupKeys).sublist (rt.gcLoop_sublist now h)⟩ } }

end Virthttp
