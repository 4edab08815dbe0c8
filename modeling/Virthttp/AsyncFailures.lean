import Virthttp.AsyncFresh

namespace Virthttp

variable {w : ℕ} {φ : Type}

/-- A call that does not return a key leaves the entries as they were. -/
def Runtime.LaunchAtomic (rt : Runtime w φ) (fcn : φ) (expireOpt : Option ℤ) (canSpawn : Bool) :
    Prop :=
  (∀ id, (rt.launch fcn expireOpt canSpawn).1 ≠ some (.id id)) →
    ∀ id, (rt.launch fcn expireOpt canSpawn).2.store.elems.lookup id = rt.store.elems.lookup id

theorem getFreeId_eq_none_iff {s : AsyncStore w} :
    s.getFreeId = none ↔ ∀ id, s.live id = true := by
  constructor
  · intro hnone id
    by_contra hfree
    obtain ⟨y, hy⟩ := getFreeId_isSome (by simpa using hfree)
    rw [hnone] at hy
    contradiction
  · intro hlive
    rw [Option.eq_none_iff_forall_ne_some]
    intro id hid
    obtain ⟨_, _, _, hfree, _⟩ := getFreeId_eq_some_iff.mp hid
    rw [hlive id] at hfree
    contradiction

/-- A launch that finds no thread has already inserted its entry. -/
theorem launch_threw {rt : Runtime w φ} {fcn : φ} {expireOpt : Option ℤ} {id : BitVec w}
    (hroom : ¬rt.store.full = true) (hfree : rt.store.getFreeId = some id) :
    rt.launch fcn expireOpt false =
      (some (.threw id .systemError), { rt with store := rt.store.issue id none }) := by
  rw [Runtime.launch, if_neg hroom, Runtime.launchLocked, hfree]
  rfl

theorem launchAtomic_iff (rt : Runtime w φ) (fcn : φ) (expireOpt : Option ℤ) (canSpawn : Bool) :
    rt.LaunchAtomic fcn expireOpt canSpawn ↔
      rt.store.full = true ∨ canSpawn = true ∨ ∀ id, rt.store.live id = true := by
  unfold Runtime.LaunchAtomic
  by_cases hfull : rt.store.full = true
  · have hsame : rt.launch fcn expireOpt canSpawn = (none, rt) := by
      rw [Runtime.launch, if_pos hfull]
    simp [hfull, hsame]
  · rw [← getFreeId_eq_none_iff]
    cases hfree : rt.store.getFreeId with
    | none =>
      have hspins : rt.launch fcn expireOpt canSpawn = (some .spins, rt) := by
        rw [Runtime.launch, if_neg hfull, Runtime.launchLocked, hfree]
      simp [hspins]
    | some id =>
      cases canSpawn with
      | true =>
        have hid : (rt.launch fcn expireOpt true).1 = some (.id id) := by
          rw [Runtime.launch, if_neg hfull, Runtime.launchLocked, hfree]
          rfl
        simp [hid]
      | false =>
        rw [launch_threw hfull hfree]
        simp only [hfull, Bool.false_eq_true, reduceCtorEq, or_false, iff_false]
        intro hatomic
        have hsame := hatomic (by simp) id
        rw [getFreeId_free hfree, AsyncStore.issue, AList.lookup_insert] at hsame
        contradiction

def Runtime.AllValid (rt : Runtime w φ) : Prop :=
  ∀ id e, rt.store.elems.lookup id = some e → ∃ status, rt.futureResult e.fut = .ok status

def Runtime.HasInvalid (rt : Runtime w φ) : Prop :=
  ∃ id e, rt.store.elems.lookup id = some e ∧ e.fut = none

theorem allValid_iff {es : List (Event w)} {rt : Runtime w φ} (hI : StoreInv es rt) :
    rt.AllValid ↔ ¬rt.HasInvalid := by
  constructor
  · intro hvalid ⟨id, e, hl, hf⟩
    obtain ⟨status, hstatus⟩ := hvalid id e hl
    rw [hf] at hstatus
    contradiction
  · intro hnone id e hl
    cases hf : e.fut with
    | none => exact absurd ⟨id, e, hl, hf⟩ hnone
    | some t =>
      obtain ⟨task, ht, _⟩ := (hI.entry id t ⟨e, hl, hf⟩).1
      unfold Runtime.futureResult
      simp only [Option.bind_some, ht]
      cases hphase : task.phase with
      | ready r => exact ⟨some r, rfl⟩
      | running | returned _ | stored _ => exact ⟨none, rfl⟩

theorem step_failed {rt rt' : Runtime w φ} {fcn : φ} {expireOpt : Option ℤ} {ev : Event w}
    (h : rt.step (.launch fcn expireOpt false) = some (ev, rt')) : rt'.HasInvalid := by
  have hev := step_answers h
  cases step_cases h with
  | launchFailed n id hfree => exact ⟨id, _, AList.lookup_insert _, rfl⟩
  | _ => exact hev.elim

/-- Nothing removes an entry without a shared state or gives it one. -/
theorem step_invalid_stays {rt rt' : Runtime w φ} {ev : Event w} (h : Steps rt ev rt')
    (hinvalid : rt.HasInvalid) : rt'.HasInvalid := by
  obtain ⟨id, e, hl, hf⟩ := hinvalid
  have hnot (r : Except Exn Str) : rt.futureResult e.fut ≠ .ok (some r) := by
    rw [hf]
    intro hr
    contradiction
  -- the search passes over the key, so an insertion is made elsewhere
  have hissue (id' : BitVec w) (fut : Option ℕ) (hfree : rt.store.getFreeId = some id') :
      (rt.store.issue id' fut).elems.lookup id = some e := by
    have hne : id ≠ id' := by
      intro heq
      rw [heq, getFreeId_free hfree] at hl
      contradiction
    rw [AsyncStore.issue, lookup_insert_eq, if_neg hne]
    exact hl
  cases h with
  | launched n id' task hfree _ _ => exact ⟨id, e, hissue id' _ hfree, hf⟩
  | launchFailed n id' hfree => exact ⟨id, e, hissue id' _ hfree, hf⟩
  | housekept t task ret now _ _ =>
    by_cases heq : id = task.id
    · refine ⟨id, _, (lookup_insert_eq _ _ _ _).trans (if_pos heq), ?_⟩
      rw [← heq, AsyncStore.at, hl]
      exact hf
    · exact ⟨id, e, ((lookup_insert_eq _ _ _ _).trans (if_neg heq)).trans hl, hf⟩
  | consumed id' e' r hl' hready =>
    have hne : id ≠ id' := by
      intro heq
      subst heq
      obtain rfl : e = e' := Option.some.inj (hl.symm.trans hl')
      exact hnot r hready
    exact ⟨id, e, (lookup_erase_eq _ _ _).trans ((if_neg hne).trans hl), hf⟩
  | collected now rt' hg =>
    exact ⟨id, e, (Runtime.gc_lookup hg id e).mpr ⟨hl, fun h => hnot _ h.2.choose_spec⟩, hf⟩
  | _ => exact ⟨id, e, hl, hf⟩

/-- Only a launch that finds no thread brings an entry without a shared state. -/
theorem step_invalid_comes {es : List (Event w)} {rt rt' : Runtime w φ} {a : Action w φ}
    {ev : Event w} (hI : StoreInv es rt) (h : rt.step a = some (ev, rt'))
    (hinvalid : rt'.HasInvalid) :
    rt.HasInvalid ∨ ∃ fcn expireOpt, a = .launch fcn expireOpt false := by
  obtain ⟨id, e, hl, hf⟩ := hinvalid
  cases step_cases h with
  | launched n id' task _ _ _ =>
    rw [AsyncStore.issue, lookup_insert_eq] at hl
    split at hl
    · cases hl
      contradiction
    · exact Or.inl ⟨id, e, hl, hf⟩
  | launchFailed n id' _ =>
    apply Or.inr
    have hev := step_answers h
    cases a with
    | launch fcn expireOpt canSpawn =>
      cases canSpawn with
      | false => exact ⟨fcn, expireOpt, rfl⟩
      | true => exact hev.elim
    | _ => exact hev.elim
  | housekept t task ret now ht hphase =>
    rw [Runtime.setPhase, AsyncStore.housekeep, lookup_insert_eq] at hl
    split at hl
    · rename_i heq
      cases hl
      obtain ⟨e₀, hl₀, hf₀⟩ := hI.busy t task.id ⟨task, ht, rfl, by rw [hphase]; rfl⟩
      rw [AsyncStore.at, hl₀] at hf
      exact Or.inl ⟨task.id, e₀, hl₀, hf⟩
    · exact Or.inl ⟨id, e, hl, hf⟩
  | consumed id' e' r _ _ =>
    rw [lookup_erase_eq] at hl
    split at hl
    · contradiction
    · exact Or.inl ⟨id, e, hl, hf⟩
  | collected now rt' hg => exact Or.inl ⟨id, e, ((Runtime.gc_lookup hg id e).mp hl).1, hf⟩
  | _ => exact Or.inl ⟨id, e, hl, hf⟩

theorem hasInvalid_run {as : List (Action w φ)} {es : List (Event w)} {rt : Runtime w φ}
    (h : asyncRun w φ as = some (es, rt)) :
    rt.HasInvalid ↔ ∃ fcn expireOpt, .launch fcn expireOpt false ∈ as := by
  have hrun := Runs.exec_invariant_inputs_nil
    (I := fun pre (s : Runtime w φ) => (∃ es, StoreInv es s) ∧
      (s.HasInvalid ↔ ∃ fcn expireOpt, .launch fcn expireOpt false ∈ pre))
    ?_ ⟨⟨[], StoreInv.empty⟩, ?_⟩ h
  · exact hrun.2
  · intro pre s a ev s' ⟨⟨es, hI⟩, hpre⟩ hs
    refine ⟨⟨_, hI.step (step_cases hs)⟩, ?_⟩
    constructor
    · intro hinvalid
      rcases step_invalid_comes hI hs hinvalid with hbefore | ⟨fcn, expireOpt, rfl⟩
      · obtain ⟨fcn, expireOpt, hmem⟩ := hpre.mp hbefore
        exact ⟨fcn, expireOpt, List.mem_append_left _ hmem⟩
      · exact ⟨fcn, expireOpt, by simp⟩
    · intro ⟨fcn, expireOpt, hmem⟩
      rcases List.mem_append.mp hmem with hmem | hmem
      · exact step_invalid_stays (step_cases hs) (hpre.mpr ⟨fcn, expireOpt, hmem⟩)
      · rw [← List.mem_singleton.mp hmem] at hs
        exact step_failed hs
  · simp [Runtime.HasInvalid, Runtime.empty, AsyncStore.empty]

/-- A call that returns no key leaves the entries as they were unless it finds no thread; and the
futures of all entries are valid as long as no launch of the run has found no thread. -/
theorem launch_failures (w : ℕ) (φ : Type) :
    (∀ (rt : Runtime w φ) (fcn : φ) (expireOpt : Option ℤ) (canSpawn : Bool),
      rt.LaunchAtomic fcn expireOpt canSpawn ↔
        rt.store.full = true ∨ canSpawn = true ∨ ∀ id, rt.store.live id = true) ∧
    ∀ (as : List (Action w φ)) (es : List (Event w)) (rt : Runtime w φ),
      asyncRun w φ as = some (es, rt) →
        (rt.AllValid ↔ ∀ fcn expireOpt, .launch fcn expireOpt false ∉ as) := by
  refine ⟨launchAtomic_iff, ?_⟩
  intro as es rt h
  rw [allValid_iff (storeInv_run h), hasInvalid_run h]
  simp

theorem launch_failures_started :
    let as : List (Action 32 Unit) := [.arrive, .launch () none true]
    ∃ es rt, asyncRun 32 Unit as = some (es, rt) ∧
      ∃ status, rt.futureResult (some 0) = .ok status := by
  intro as
  refine ⟨?es, ?rt, ?hrun, ?_⟩
  case hrun => rfl
  have hvalid := ((launch_failures 32 Unit).2 as _ _ rfl).mpr (by simp [as])
  exact hvalid 0 ⟨toNanos initExpire, some 0⟩ rfl

/-- No thread for the first request: its key stays behind and every query of it throws. -/
theorem failed_launch_leaves_entry :
    ¬(Runtime.empty 32 Unit).LaunchAtomic () none false ∧
      ∃ es rt, asyncRun 32 Unit [.arrive, .launch () none false] = some (es, rt) ∧
        ¬rt.AllValid ∧ (rt.valueIfReady 0).1 = .error .futureError := by
  constructor
  · intro hatomic
    have hsame := hatomic (fun id h => by cases h) 0
    cases hsame
  · refine ⟨_, _, rfl, ?_, rfl⟩
    intro hvalid
    obtain ⟨status, hstatus⟩ := hvalid 0 ⟨toNanos initExpire, none⟩ rfl
    cases hstatus

end Virthttp
