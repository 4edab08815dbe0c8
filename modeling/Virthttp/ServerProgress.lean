import Virthttp.AsyncCapacity
import Virthttp.ServerResults

/-! The server while nobody connects and no connection is read from: it finishes what it has begun
in a bounded number of steps, whichever of them it takes first, and never gets stuck before that. -/
namespace Virthttp

def ServerAction.finishes : ServerAction → Bool
  | .accept _ => false
  | .read _ _ _ => false
  | _ => true

def ServerEvent.finishes : ServerEvent → Bool
  | .enqueued _ _ _ _ => true
  | .wrote _ _ _ => true
  | .computed _ _ _ => true
  | .worker _ => true
  | _ => false

def Phase.stepsLeft : Phase → ℕ
  | .running => 3
  | .returned _ => 2
  | .stored _ => 1
  | .ready _ => 0

def HttpSession.stepsLeft : HttpSession → ℕ
  | .launching _ _ => 5
  | .writing _ => 1
  | _ => 0

namespace Server

def stepsLeft (sv : Server) : ℕ :=
  if sv.terminated then 0
  else (sv.sessions.map HttpSession.stepsLeft).sum+
    (sv.asyncStore.tasks.map fun task => task.phase.stepsLeft).sum

/-- Every connection waits for a request or is closed, and every worker has published its result,
unless the process has ended. -/
def AtRest (sv : Server) : Prop :=
  sv.terminated = true ∨
    ((∀ session ∈ sv.sessions, session = .reading ∨ session = .closed) ∧
      ∀ task ∈ sv.asyncStore.tasks, ∃ r, task.phase = .ready r)

/-- Every connection that waits for the mutex will find a free id. -/
def HasRoom (sv : Server) : Prop :=
  sv.asyncStore.store.size+sv.sessions.countP HttpSession.isLaunching ≤ 2^32

end Server

variable {libs : Libraries} {config : IniConfig} {sv sv' : Server} {ev : ServerEvent}

theorem HttpSession.stepsLeft_eq_zero {session : HttpSession} :
    session.stepsLeft = 0 ↔ session = .reading ∨ session = .closed := by
  cases session <;> simp [HttpSession.stepsLeft]

theorem Phase.stepsLeft_eq_zero {phase : Phase} :
    phase.stepsLeft = 0 ↔ ∃ r, phase = .ready r := by
  cases phase <;> simp [Phase.stepsLeft]

theorem atRest_iff (sv : Server) : sv.AtRest ↔ sv.stepsLeft = 0 := by
  unfold Server.AtRest Server.stepsLeft
  cases sv.terminated with
  | true => simp
  | false =>
    simp [List.sum_eq_zero_iff_forall_eq_nat, HttpSession.stepsLeft_eq_zero,
      Phase.stepsLeft_eq_zero]

theorem sum_map_set {α : Type} {f : α → ℕ} {l : List α} {i : ℕ} {a : α} (h : l[i]? = some a)
    (b : α) : ((l.set i b).map f).sum+f a = (l.map f).sum+f b := by
  induction l generalizing i with
  | nil => simp at h
  | cons x l ih =>
    cases i with
    | zero =>
      obtain rfl : x = a := by simpa using h
      simp only [List.set_cons_zero, List.map_cons, List.sum_cons]
      omega
    | succ i =>
      have hrest := ih (i := i) (by simpa using h)
      simp only [List.set_cons_succ, List.map_cons, List.sum_cons]
      omega

theorem stepsLeft_le {sessions : List HttpSession} {rt : Runtime 32 Job} (terminated : Bool) :
    Server.stepsLeft ⟨sessions, rt, terminated⟩ ≤
      (sessions.map HttpSession.stepsLeft).sum+
        (rt.tasks.map fun task => task.phase.stepsLeft).sum := by
  unfold Server.stepsLeft
  split
  · exact Nat.zero_le _
  · exact Nat.le_refl _

theorem step_finishes {a : ServerAction} (ha : a.finishes = true)
    (h : sv.step libs config a = some (ev, sv')) : ev.finishes = true := by
  unfold Server.step at h
  split at h
  · contradiction
  cases a with
  | accept ok => contradiction
  | read i arrival lv => contradiction
  | launch i canSpawn =>
    simp only at h
    split at h
    · unfold Server.launch at h
      split at h <;> cases h <;> rfl
    · contradiction
  | wrote i ok =>
    simp only at h
    split at h
    · cases h
      rfl
    · contradiction
  | compute t lv =>
    simp only at h
    split at h
    · unfold Server.compute at h
      split at h
      · obtain ⟨x, _, heq⟩ := Option.map_eq_some_iff.mp h
        cases heq
        rfl
      · cases h
        rfl
      · contradiction
    · contradiction
  | housekeep t now | publish t =>
    obtain ⟨x, _, heq⟩ := Option.map_eq_some_iff.mp h
    cases heq
    rfl

theorem turn_lowers (hev : ev.finishes = true) (halive : sv.terminated = false)
    (h : ServerTurn libs config sv ev sv') : sv'.stepsLeft < sv.stepsLeft := by
  have hbefore : sv.stepsLeft = (sv.sessions.map HttpSession.stepsLeft).sum+
      (sv.asyncStore.tasks.map fun task => task.phase.stepsLeft).sum := by
    rw [Server.stepsLeft, halive, if_neg Bool.false_ne_true]
  rw [hbefore]
  have hphase {t : ℕ} {task : Task 32 Job} {p : Phase} {rt : Runtime 32 Job}
      (ht : sv.asyncStore.tasks[t]? = some task)
      (hrt : rt.tasks = sv.asyncStore.tasks.set t { task with phase := p })
      (hp : p.stepsLeft < task.phase.stepsLeft) :
      Server.stepsLeft { sv with asyncStore := rt } <
        (sv.sessions.map HttpSession.stepsLeft).sum+
          (sv.asyncStore.tasks.map fun task => task.phase.stepsLeft).sum := by
    have hsum := sum_map_set (f := fun task : Task 32 Job => task.phase.stepsLeft) ht
      { task with phase := p }
    have hafter := @stepsLeft_le sv.sessions rt sv.terminated
    rw [hrt] at hafter
    dsimp only at hsum
    omega
  cases h with
  | launched i job t id before rt res hi hstep _ =>
    have hsum := sum_map_set (f := HttpSession.stepsLeft) hi (.writing res)
    simp only [HttpSession.stepsLeft] at hsum
    cases step_cases hstep with
    | launched n _ task _ _ hrunning =>
      have hnew : task.phase.stepsLeft = 3 := by rw [hrunning]; rfl
      refine (stepsLeft_le sv.terminated).trans_lt ?_
      simp only [Server.setSession, List.map_append, List.sum_append, List.map_singleton,
        List.sum_singleton, hnew]
      omega
  | launchFailed i job id before rt hi hstep =>
    have hsum := sum_map_set (f := HttpSession.stepsLeft) hi .closed
    simp only [HttpSession.stepsLeft] at hsum
    simp only [Server.stepsLeft, if_true]
    omega
  | wrote i ok res hi =>
    have hnext : HttpSession.stepsLeft (if ok && !res.needEof then .reading else .closed) = 0 := by
      split <;> rfl
    have hsum := sum_map_set (f := HttpSession.stepsLeft) hi
      (if ok && !res.needEof then .reading else .closed)
    rw [hnext] at hsum
    simp only [HttpSession.stepsLeft] at hsum
    refine (stepsLeft_le sv.terminated).trans_lt ?_
    omega
  | computed t task lv r rt ht _ hstep =>
    cases step_cases hstep with
    | computed _ task _ ht hrunning =>
      refine hphase ht rfl ?_
      rw [hrunning]
      cases r <;> simp [Phase.computed, Phase.stepsLeft]
  | workerAborted t task lv ht hrunning _ =>
    have hpos : 0 < (sv.asyncStore.tasks.map fun task => task.phase.stepsLeft).sum := by
      refine List.sum_pos_iff_exists_pos_nat.mpr ⟨3, ?_, by decide⟩
      exact List.mem_map.mpr ⟨task, List.mem_of_getElem? ht, by rw [hrunning]; rfl⟩
    simp only [Server.stepsLeft, if_true]
    omega
  | housekept t now ev rt hstep =>
    obtain ⟨task, ret, ht, hreturned, _, rfl⟩ := step_housekeep_inv hstep
    refine hphase ht rfl ?_
    simp [hreturned, Phase.stepsLeft]
  | published t ev rt hstep =>
    have hanswers := step_answers hstep
    cases ev with
    | published u =>
      cases step_cases hstep with
      | published _ task ret ht hstored =>
        refine hphase ht rfl ?_
        simp [hstored, Phase.stepsLeft]
    | _ => exact hanswers.elim
  | _ => contradiction

theorem step_lowers {a : ServerAction} (ha : a.finishes = true)
    (h : sv.step libs config a = some (ev, sv')) : sv'.stepsLeft < sv.stepsLeft :=
  turn_lowers (step_finishes ha h) (turn_cases h).1 (turn_cases h).2

/-- What is there to be done can be done. -/
theorem finishing_enabled (hcounts : sv.CountsWaiting) (hroom : sv.HasRoom)
    (h : ¬sv.AtRest) : ∃ a : ServerAction, a.finishes = true ∧ sv.step libs config a ≠ none := by
  have halive : sv.terminated = false := Bool.eq_false_iff.mpr fun h' => h (Or.inl h')
  have hrunning {a : ServerAction} (ha : a.finishes = true) {x : ServerEvent × Server}
      (hstep : sv.step libs config a = some x) :
      ∃ a : ServerAction, a.finishes = true ∧ sv.step libs config a ≠ none :=
    ⟨a, ha, by rw [hstep]; simp⟩
  by_cases hsessions : ∀ session ∈ sv.sessions, session = .reading ∨ session = .closed
  · have htasks : ∃ task ∈ sv.asyncStore.tasks, ∀ r, task.phase ≠ .ready r := by
      by_contra hnone
      push Not at hnone
      exact h (Or.inr ⟨hsessions, hnone⟩)
    obtain ⟨task, hmem, hphase⟩ := htasks
    obtain ⟨t, ht⟩ := List.mem_iff_getElem?.mp hmem
    cases hp : task.phase with
    | running =>
      refine ⟨.compute t obliging, rfl, ?_⟩
      simp only [Server.step, halive, Bool.false_eq_true, if_false, ht, Server.compute, hp]
      cases futureOf (workerResult libs obliging config task.fcn) with
      | none => simp
      | some r => simp [Server.work, Runtime.step, ht, hp]
    | returned ret =>
      refine ⟨.housekeep t 0, rfl, ?_⟩
      simp [Server.step, halive, Server.work, Runtime.step, ht, hp]
    | stored ret =>
      refine ⟨.publish t, rfl, ?_⟩
      simp [Server.step, halive, Server.work, Runtime.step, ht, hp]
    | ready r => exact absurd hp (hphase r)
  · push Not at hsessions
    obtain ⟨session, hmem, hreading, hclosed⟩ := hsessions
    obtain ⟨i, hi⟩ := List.mem_iff_getElem?.mp hmem
    cases session with
    | reading => contradiction
    | closed => contradiction
    | writing res =>
      refine ⟨.wrote i true, rfl, ?_⟩
      simp [Server.step, halive, hi]
    | launching req target =>
      have hwaits : 0 < sv.sessions.countP HttpSession.isLaunching :=
        List.countP_pos_iff.mpr ⟨_, hmem, rfl⟩
      have hsize : sv.asyncStore.store.size < 2^32 := by
        unfold Server.HasRoom at hroom
        omega
      obtain ⟨ev, rt, hstep, _⟩ :=
        launch_enabled sv.asyncStore (⟨req, target⟩ : Job) (hcounts ▸ hwaits) hsize
      refine ⟨.launch i true, rfl, ?_⟩
      simp only [Server.step, halive, Bool.false_eq_true, if_false, hi, Server.launch, hstep]
      split <;> simp_all

theorem stuck_iff (hcounts : sv.CountsWaiting) (hroom : sv.HasRoom) :
    (∀ a : ServerAction, a.finishes = true → sv.step libs config a = none) ↔ sv.AtRest := by
  constructor
  · intro hstuck
    by_contra h
    obtain ⟨a, ha, hsome⟩ := @finishing_enabled libs config sv hcounts hroom h
    exact hsome (hstuck a ha)
  · intro h a ha
    cases hstep : sv.step libs config a with
    | none => rfl
    | some x =>
      have hlower := step_lowers ha hstep
      rw [(atRest_iff sv).mp h] at hlower
      omega

/-- A launch takes the id that was left for its connection. -/
theorem turn_roomy {es : List (Event 32)} (hev : ev.finishes = true)
    (hI : Roomy es sv.asyncStore) (h : ServerTurn libs config sv ev sv') :
    Roomy (es ++ ev.stored) sv'.asyncStore := by
  cases h with
  | launched i job t id before rt res _ hstep _ => exact hI.step (by trivial) hstep
  | launchFailed i job id before rt _ hstep => exact hI.step (by trivial) hstep
  | computed t task lv r rt _ _ hstep => exact hI.step (by trivial) hstep
  | housekept t now ev rt hstep => exact hI.step (by trivial) hstep
  | published t ev rt hstep => exact hI.step (by trivial) hstep
  | wrote | workerAborted => simpa [ServerEvent.stored, Server.setSession] using hI
  | _ => contradiction

structure Draining (es : List ServerEvent) (sv : Server) : Prop where
  roomy : Roomy (es.flatMap ServerEvent.stored) sv.asyncStore
  counts : sv.CountsWaiting

theorem Draining.hasRoom {es : List ServerEvent} (h : Draining es sv) : sv.HasRoom := by
  have hroom := h.roomy.room
  rwa [h.counts] at hroom

theorem Draining.run {es es' : List ServerEvent} {bs : List ServerAction}
    (hI : Draining es sv) (hb : ∀ b ∈ bs, b.finishes = true)
    (h : Runs.exec (Server.step libs config) sv bs = some (es', sv')) :
    Draining (es ++ es') sv' := by
  refine Runs.exec_invariant_meets ?_ (Runs.meets_of_forall hb sv) hI h
  intro pre sv b ev sv' hI hb hstep
  refine ⟨?_, turn_countsWaiting (turn_cases hstep).2 hI.counts⟩
  rw [List.flatMap_append, List.flatMap_singleton]
  exact turn_roomy (step_finishes hb hstep) hI.roomy (turn_cases hstep).2

/-- From every state that a run of the server reaches with an id for each connection that waits,
the steps that take in nothing new come to an end after as many of them as are left at most,
whichever are taken first; none can be taken only where every connection waits for a request or is
closed and every worker has published its result, or where the process has ended. -/
theorem server_drains (libs : Libraries) (config : IniConfig) (as : List ServerAction)
    (es : List ServerEvent) (sv : Server) (h : serverRun libs config as = some (es, sv))
    (hroom : sv.HasRoom) :
    (∀ bs es' sv', (∀ b ∈ bs, b.finishes = true) →
      Runs.exec (Server.step libs config) sv bs = some (es', sv') →
        bs.length+sv'.stepsLeft ≤ sv.stepsLeft ∧
        ((∀ b : ServerAction, b.finishes = true → sv'.step libs config b = none) ↔
          sv'.AtRest)) ∧
    ∃ bs es' sv', (∀ b ∈ bs, b.finishes = true) ∧
      serverRun libs config (as ++ bs) = some (es ++ es', sv') ∧ sv'.AtRest := by
  have hcounts : sv.CountsWaiting :=
    Runs.exec_invariant_nil (I := fun _ sv => sv.CountsWaiting)
      (fun _ _ _ _ _ hI hs => turn_countsWaiting (turn_cases hs).2 hI) rfl h
  have hstart : Draining es sv :=
    ⟨⟨(serverRun_conserved h).past, by rwa [hcounts]⟩, hcounts⟩
  have hlower : ∀ sv b ev sv', b.finishes = true →
      Server.step libs config sv b = some (ev, sv') → sv'.stepsLeft < sv.stepsLeft :=
    fun _ _ _ _ => step_lowers
  have hend {bs : List ServerAction} {es' : List ServerEvent} {sv' : Server}
      (hb : ∀ b ∈ bs, b.finishes = true)
      (hrun : Runs.exec (Server.step libs config) sv bs = some (es', sv')) :
      (∀ b : ServerAction, b.finishes = true → sv'.step libs config b = none) ↔ sv'.AtRest :=
    stuck_iff (hstart.run hb hrun).counts (hstart.run hb hrun).hasRoom
  constructor
  · intro bs es' sv' hb hrun
    exact ⟨Runs.exec_length_le hlower hb hrun, hend hb hrun⟩
  · obtain ⟨bs, es', sv', hb, hrun, hstuck⟩ := Runs.exists_exec_stuck hlower sv
    exact ⟨bs, es', sv', hb, Runs.exec_append h hrun, (hend hb hrun).mp hstuck⟩

/-- A worker that has just been started has three steps left, and its connection one. -/
theorem server_drains_one :
    ∃ es sv bs es' sv', serverRun plainLibs openConfig startWorker = some (es, sv) ∧
      sv.stepsLeft = 4 ∧ serverRun plainLibs openConfig (startWorker ++ bs) =
        some (es ++ es', sv') ∧ sv'.AtRest := by
  have hdrains := (server_drains plainLibs openConfig startWorker ?es ?sv ?hrun ?hroom).2
  case hrun => rfl
  case hroom => exact Nat.le_of_ble_eq_true rfl
  obtain ⟨bs, es', sv', _, hrun, hrest⟩ := hdrains
  exact ⟨_, _, bs, es', sv', rfl, rfl, hrun, hrest⟩

end Virthttp
