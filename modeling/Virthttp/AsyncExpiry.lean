import Virthttp.AsyncSafety

namespace Virthttp

variable {w : ℕ} {φ : Type}

def Runtime.done (rt : Runtime w φ) (e : Element) : Prop :=
  ∃ r, rt.futureResult e.fut = .ok (some r)

/-- The future of the entry has no shared state. -/
def Runtime.stateless (rt : Runtime w φ) (e : Element) : Prop :=
  ∃ x, rt.futureResult e.fut = .error x

/-- The collection ends, takes exactly the finished entries whose expiry has passed, and leaves
the workers and the counter alone. -/
def Runtime.CollectsExpired (rt : Runtime w φ) (now : ℤ) : Prop :=
  ∃ rt', rt.gc now = some rt' ∧ rt'.tasks = rt.tasks ∧ rt'.store.lastId = rt.store.lastId ∧
    ∀ id e, rt'.store.elems.lookup id = some e ↔
      rt.store.elems.lookup id = some e ∧ ¬(rt.done e ∧ e.expires ≤ now)

/-- `noexcept` ends the process at the first entry that passes the test of the clock and whose
future has no shared state. -/
theorem Runtime.gcLoop_isSome_iff (rt : Runtime w φ) (now : ℤ)
    (xs : List (Sigma fun _ : BitVec w => Element)) :
    (∃ ys, rt.gcLoop now xs = some ys) ↔ ∀ x ∈ xs, rt.stateless x.2 → x.2.expires ≤ now := by
  induction xs with
  | nil => simp [gcLoop]
  | cons x xs ih =>
    have kept : (∃ ys, (rt.gcLoop now xs).map (x :: ·) = some ys) ↔
        ∀ y ∈ xs, rt.stateless y.2 → y.2.expires ≤ now := by
      rw [← ih]
      simp [Option.map_eq_some_iff]
    rw [List.forall_mem_cons]
    unfold gcLoop
    by_cases hexp : x.2.expires > now
    · -- the comparison lets the loop look at the future of an entry that has not expired
      rw [if_pos hexp]
      cases hfut : rt.futureResult x.2.fut with
      | error exn =>
        have hstateless : rt.stateless x.2 := ⟨exn, hfut⟩
        simp [hstateless, not_le.mpr hexp]
      | ok o =>
        have hstate : ¬rt.stateless x.2 := by
          intro hst
          obtain ⟨exn, hexn⟩ := hst
          rw [hfut] at hexn
          contradiction
        cases o with
        | none => simpa [hstate] using kept
        | some r => simpa [hstate] using ih
    · have hle : x.2.expires ≤ now := not_lt.mp hexp
      rw [if_neg hexp]
      simpa [hle] using kept

theorem Runtime.gc_isSome_iff {rt : Runtime w φ} {now : ℤ} :
    (∃ rt', rt.gc now = some rt') ↔
      ∀ id e, rt.store.elems.lookup id = some e → rt.stateless e → e.expires ≤ now := by
  have hmem (id : BitVec w) (e : Element) :
      rt.store.elems.lookup id = some e ↔ ⟨id, e⟩ ∈ rt.store.elems.entries := by
    rw [← Option.mem_def, AList.mem_lookup_iff]
  have hloop := Runtime.gcLoop_isSome_iff rt now rt.store.elems.entries
  have hgc : (∃ rt', rt.gc now = some rt') ↔
      ∃ ys, rt.gcLoop now rt.store.elems.entries = some ys := by
    unfold gc
    split
    · rename_i hnone
      simp [hnone]
    · rename_i left hleft
      simp [hleft]
  rw [hgc, hloop]
  constructor
  · intro h id e he
    exact h ⟨id, e⟩ ((hmem id e).mp he)
  · intro h x hx
    exact h x.1 x.2 ((hmem x.1 x.2).mpr hx)

/-- The loop has the sense of the comparison reversed: it takes what is finished and has not
expired. So it is right exactly where nothing is finished and nothing ends the process. -/
theorem collectsExpired_iff (rt : Runtime w φ) (now : ℤ) :
    rt.CollectsExpired now ↔ ∀ id e, rt.store.elems.lookup id = some e →
      ¬rt.done e ∧ (rt.stateless e → e.expires ≤ now) := by
  constructor
  · intro ⟨rt', hgc, _, _, hright⟩ id e he
    have hends := Runtime.gc_isSome_iff.mp ⟨rt', hgc⟩ id e he
    refine ⟨?_, hends⟩
    intro hdone
    have hcode := Runtime.gc_lookup hgc id e
    have hcollected := hright id e
    rw [hcode] at hcollected
    by_cases hexp : e.expires ≤ now
    · have hstays : ¬(e.expires > now ∧ rt.done e) := fun h => absurd h.1 (not_lt.mpr hexp)
      exact (hcollected.mp ⟨he, hstays⟩).2 ⟨hdone, hexp⟩
    · have hgoes := (hcollected.mpr ⟨he, fun h => hexp h.2⟩).2
      exact hgoes ⟨not_le.mp hexp, hdone⟩
  · intro h
    obtain ⟨rt', hgc⟩ := Runtime.gc_isSome_iff.mpr (fun id e he => (h id e he).2)
    obtain ⟨htasks, hlast⟩ := Runtime.gc_same hgc
    refine ⟨rt', hgc, htasks, hlast, ?_⟩
    intro id e
    rw [Runtime.gc_lookup hgc]
    apply and_congr_right
    intro he
    have hnot : ¬rt.done e := (h id e he).1
    exact ⟨fun _ hd => hnot hd.1, fun _ hd => hnot hd.2⟩

/-- A result that has 120 seconds left is discarded one nanosecond after its completion. -/
theorem fresh_result_collected :
    ∃ es rt, asyncRun 32 Unit [.arrive, .launch () none true, .compute 0 (.ok ['a']),
        .housekeep 0 5, .publish 0] = some (es, rt) ∧
      rt.store.elems.lookup 0 = some ⟨5+120*10^9, some 0⟩ ∧ ¬rt.CollectsExpired 6 := by
  refine ⟨_, _, rfl, rfl, ?_⟩
  intro ⟨rt', hgc, _, _, hright⟩
  have hkept := (hright 0 ⟨5+120*10^9, some 0⟩).mpr ⟨rfl, by simp⟩
  have hgone := ((Runtime.gc_lookup hgc 0 ⟨5+120*10^9, some 0⟩).mp hkept).2
  exact hgone ⟨by simp, .ok ['a'], rfl⟩

def completedAt (t : ℕ) (as : List (Action w φ)) : Option ℤ :=
  as.findSome? fun a => match a with
    | .housekeep u now => if u = t then some now else none
    | _ => none

def Phase.housekept : Phase → Bool
  | .stored _ => true
  | .ready (.ok _) => true
  | _ => false

theorem Phase.housekept_computed (r : Except Exn Str) :
    (Phase.computed r).housekept = false := by
  cases r <;> rfl

theorem completedAt_snoc (t : ℕ) (as : List (Action w φ)) (a : Action w φ) :
    completedAt t (as ++ [a]) = (completedAt t as).or (completedAt t [a]) :=
  List.findSome?_append

theorem completedAt_of_no_housekeep {as : List (Action w φ)} {a : Action w φ}
    (h : ∀ t now, a ≠ .housekeep t now) (t : ℕ) : completedAt t (as ++ [a]) = completedAt t as := by
  rw [completedAt_snoc]
  cases a with
  | housekeep u now => exact absurd rfl (h u now)
  | _ => exact Option.or_none

theorem completedAt_housekeep (as : List (Action w φ)) (t u : ℕ) (now : ℤ) :
    completedAt u (as ++ [.housekeep t now]) =
      (completedAt u as).or (if t = u then some now else none) := by
  rw [completedAt_snoc]
  by_cases h : t = u <;> simp [completedAt, h]

/-- A housekeeping with its clock reading, or any other step. -/
theorem step_housekeep_or {rt rt' : Runtime w φ} {a : Action w φ} {ev : Event w}
    (h : rt.step a = some (ev, rt')) :
    (∃ t task ret now, a = .housekeep t now ∧ rt.tasks[t]? = some task ∧
      task.phase = .returned ret ∧ rt' = Runtime.setPhase
        { rt with store := rt.store.housekeep task now } t task (.stored ret)) ∨
      (Steps rt ev rt' ∧ (∀ t found, ev ≠ .housekept t found) ∧ ∀ t now, a ≠ .housekeep t now) := by
  have hsteps := step_cases h
  cases a with
  | housekeep t now =>
    obtain ⟨task, ret, ht, hphase, _, hrt⟩ := step_housekeep_inv h
    exact Or.inl ⟨t, task, ret, now, rfl, ht, hphase, hrt⟩
  | arrive | launch _ _ _ | compute _ _ | publish _ | retrieve _ | gc _ =>
    refine Or.inr ⟨hsteps, ?_, by simp⟩
    intro t found hev
    subst hev
    exact step_answers h

/-- An entry that a step leaves was there before, unless a launch has just put it in; only the
housekeeping writes to an entry. -/
theorem step_entry {rt rt' : Runtime w φ} {ev : Event w} (h : Steps rt ev rt')
    (hev : ∀ t found, ev ≠ .housekept t found) {id : BitVec w} {e : Element} {t : ℕ}
    (hl : rt'.store.elems.lookup id = some e) (hf : e.fut = some t) :
    rt.store.elems.lookup id = some e ∨ (t = rt.tasks.length ∧ e.expires = toNanos initExpire) := by
  cases h with
  | launched n id' task _ _ _ =>
    rw [AsyncStore.issue, lookup_insert_eq] at hl
    split at hl
    · cases hl
      cases hf
      exact Or.inr ⟨rfl, rfl⟩
    · exact Or.inl hl
  | launchFailed n id' _ =>
    rw [AsyncStore.issue, lookup_insert_eq] at hl
    split at hl
    · cases hl
      contradiction
    · exact Or.inl hl
  | housekept u task ret now _ _ => exact absurd rfl (hev _ _)
  | consumed id' e' r _ _ =>
    rw [lookup_erase_eq] at hl
    split at hl
    · contradiction
    · exact Or.inl hl
  | collected now rt' hg => exact Or.inl ((Runtime.gc_lookup hg id e).mp hl).1
  | _ => exact Or.inl hl

/-- A task keeps its duration, and only the housekeeping makes it one that has done it. -/
theorem step_task {rt rt' : Runtime w φ} {ev : Event w} (h : Steps rt ev rt')
    (hev : ∀ t found, ev ≠ .housekept t found) {t : ℕ} {task' : Task w φ}
    (ht' : rt'.tasks[t]? = some task') :
    (∃ task, rt.tasks[t]? = some task ∧ task'.expireOpt = task.expireOpt ∧
      task'.phase.housekept = task.phase.housekept) ∨
      (t = rt.tasks.length ∧ task'.phase.housekept = false) := by
  have hset {u : ℕ} {task : Task w φ} {p : Phase} (hu : rt.tasks[u]? = some task)
      (hp : p.housekept = task.phase.housekept)
      (ht' : (rt.setPhase u task p).tasks[t]? = some task') :
      ∃ task, rt.tasks[t]? = some task ∧ task'.expireOpt = task.expireOpt ∧
        task'.phase.housekept = task.phase.housekept := by
    rw [getElem?_setPhase hu] at ht'
    split at ht'
    · rename_i heq
      subst heq
      cases ht'
      exact ⟨task, hu, rfl, hp⟩
    · exact ⟨task', ht', rfl, rfl⟩
  cases h with
  | launched n id task _ _ hphase =>
    have hlast : (rt.tasks ++ [task])[t]? = if t < rt.tasks.length then rt.tasks[t]?
        else [task][t-rt.tasks.length]? := List.getElem?_append
    rw [hlast] at ht'
    split at ht'
    · exact Or.inl ⟨task', ht', rfl, rfl⟩
    · rename_i hlt
      obtain ⟨hlen, hget⟩ := List.getElem?_eq_some_iff.mp ht'
      simp only [List.length_singleton, Nat.lt_one_iff] at hlen
      obtain rfl : task = task' := by simpa using hget
      exact Or.inr ⟨by omega, by simp [hphase, Phase.housekept]⟩
  | computed u task r hu hphase =>
    apply Or.inl
    apply hset hu _ ht'
    rw [Phase.housekept_computed, hphase]
    rfl
  | housekept u task ret now _ _ => exact absurd rfl (hev _ _)
  | published u task ret hu hphase =>
    apply Or.inl
    apply hset hu _ ht'
    rw [hphase]
    rfl
  | collected now rt' hg =>
    rw [(Runtime.gc_same hg).1] at ht'
    exact Or.inl ⟨task', ht', rfl, rfl⟩
  | _ => exact Or.inl ⟨task', ht', rfl, rfl⟩

def expectedExpiry (as : List (Action w φ)) (t : ℕ) (task : Task w φ) : ℤ :=
  (completedAt t as).elim (toNanos initExpire)
    fun done => Int.bmod (done+toNanos (task.expireOpt.getD 120)) (2^64)

structure ExpiryInv (as : List (Action w φ)) (rt : Runtime w φ) : Prop where
  past : ∃ es, StoreInv es rt
  default : rt.store.defaultExpire = 120
  future : ∀ t, rt.tasks.length ≤ t → completedAt t as = none
  phase : ∀ t task, rt.tasks[t]? = some task →
    task.phase.housekept = (completedAt t as).isSome
  entry : ∀ id e t task, rt.store.elems.lookup id = some e → e.fut = some t →
    rt.tasks[t]? = some task → e.expires = expectedExpiry as t task

theorem ExpiryInv.empty : ExpiryInv [] (Runtime.empty w φ) where
  past := ⟨[], StoreInv.empty⟩
  default := rfl
  future := fun _ _ => rfl
  phase := by simp [Runtime.empty]
  entry := by simp [Runtime.empty]

/-- The housekeeping of a worker writes into the entry of its own task and into no other. -/
theorem housekeep_entry {es : List (Event w)} {rt : Runtime w φ} {t u : ℕ} {task : Task w φ}
    {ret : Str} {now : ℤ} {id : BitVec w} {e : Element} (hstore : StoreInv es rt)
    (ht : rt.tasks[t]? = some task) (hphase : task.phase = .returned ret)
    (hl : (rt.store.housekeep task now).elems.lookup id = some e) (hf : e.fut = some u) :
    (u = t ∧ e.expires =
      Int.bmod (now+toNanos (task.expireOpt.getD rt.store.defaultExpire)) (2^64)) ∨
      (u ≠ t ∧ rt.store.elems.lookup id = some e) := by
  rw [AsyncStore.housekeep, lookup_insert_eq] at hl
  split at hl
  · cases hl
    obtain ⟨e₀, hl₀, hf₀⟩ := hstore.busy t task.id ⟨task, ht, rfl, by rw [hphase]; rfl⟩
    have hown : (rt.store.at task.id).fut = some t := by
      rw [AsyncStore.at, hl₀]
      exact hf₀
    exact Or.inl ⟨Option.some.inj (hf.symm.trans hown), rfl⟩
  · rename_i hne
    refine Or.inr ⟨?_, hl⟩
    intro heq
    subst heq
    obtain ⟨task₀, ht₀, hid⟩ := (hstore.entry id u ⟨e, hl, hf⟩).1
    have hsame : task₀ = task := Option.some.inj (ht₀.symm.trans ht)
    rw [hsame] at hid
    exact hne hid.symm

theorem ExpiryInv.housekeep {as : List (Action w φ)} {rt : Runtime w φ} {t : ℕ} {task : Task w φ}
    {ret : Str} {now : ℤ} (hI : ExpiryInv as rt) (ht : rt.tasks[t]? = some task)
    (hphase : task.phase = .returned ret)
    (hpast : ∃ es, StoreInv es (Runtime.setPhase
      { rt with store := rt.store.housekeep task now } t task (.stored ret))) :
    ExpiryInv (as ++ [.housekeep t now]) (Runtime.setPhase
      { rt with store := rt.store.housekeep task now } t task (.stored ret)) := by
  have hnew : completedAt t as = none := by
    have hkept : false = (completedAt t as).isSome := by
      rw [← hI.phase t task ht, hphase]
      rfl
    exact Option.not_isSome_iff_eq_none.mp (by simp [← hkept])
  have hlt : t < rt.tasks.length := (List.getElem?_eq_some_iff.mp ht).1
  have hget (u : ℕ) : (({ rt with store := rt.store.housekeep task now } : Runtime w φ).setPhase t
      task (.stored ret)).tasks[u]? =
        if u = t then some { task with phase := .stored ret } else rt.tasks[u]? :=
    getElem?_setPhase ht
  have hother {u : ℕ} (hu : u ≠ t) :
      completedAt u (as ++ [.housekeep t now]) = completedAt u as := by
    rw [completedAt_housekeep, if_neg (Ne.symm hu), Option.or_none]
  have hself : completedAt t (as ++ [.housekeep t now]) = some now := by
    rw [completedAt_housekeep, if_pos rfl, hnew, Option.none_or]
  obtain ⟨es, hstore⟩ := hI.past
  refine ⟨hpast, hI.default, ?_, ?_, ?_⟩
  · intro u hu
    have hle : rt.tasks.length ≤ u := by simpa [Runtime.setPhase] using hu
    rw [hother (by omega)]
    exact hI.future u hle
  · intro u task' hu
    rw [hget] at hu
    split at hu
    · rename_i heq
      subst heq
      cases hu
      rw [hself]
      rfl
    · rename_i hne
      rw [hother hne]
      exact hI.phase u task' hu
  · intro id e u task' hl hf hu
    rw [hget] at hu
    rcases housekeep_entry hstore ht hphase hl hf with ⟨heq, hexp⟩ | ⟨hne, hbefore⟩
    · rw [heq, if_pos rfl] at hu
      cases hu
      rw [hexp, heq, expectedExpiry, hself, Option.elim_some, hI.default]
    · rw [if_neg hne] at hu
      rw [expectedExpiry, hother hne]
      exact hI.entry id e u task' hbefore hf hu

theorem step_default {rt rt' : Runtime w φ} {ev : Event w} (h : Steps rt ev rt') :
    rt'.store.defaultExpire = rt.store.defaultExpire := by
  cases h with
  | collected now rt' hg =>
    unfold Runtime.gc at hg
    split at hg
    · contradiction
    · cases hg
      rfl
  | _ => rfl

theorem step_length {rt rt' : Runtime w φ} {ev : Event w} (h : Steps rt ev rt') :
    rt.tasks.length ≤ rt'.tasks.length := by
  cases h with
  | launched n id task _ _ _ => simp
  | collected now rt' hg => rw [(Runtime.gc_same hg).1]
  | _ => simp [Runtime.setPhase]

theorem ExpiryInv.step {as : List (Action w φ)} {rt rt' : Runtime w φ} {a : Action w φ}
    {ev : Event w} (hI : ExpiryInv as rt) (h : rt.step a = some (ev, rt')) :
    ExpiryInv (as ++ [a]) rt' := by
  obtain ⟨es, hstore⟩ := hI.past
  have hpast : ∃ es, StoreInv es rt' := ⟨_, hstore.step (step_cases h)⟩
  rcases step_housekeep_or h with ⟨t, task, ret, now, rfl, ht, hphase, rfl⟩ | ⟨hs, hev, ha⟩
  · exact hI.housekeep ht hphase hpast
  · have hsame (t : ℕ) : completedAt t (as ++ [a]) = completedAt t as :=
      completedAt_of_no_housekeep ha t
    refine ⟨hpast, (step_default hs).trans hI.default, ?_, ?_, ?_⟩
    · intro t ht
      rw [hsame]
      exact hI.future t ((step_length hs).trans ht)
    · intro t task' ht'
      rw [hsame]
      rcases step_task hs hev ht' with ⟨task, ht, _, hkept⟩ | ⟨rfl, hnot⟩
      · rw [hkept]
        exact hI.phase t task ht
      · rw [hnot, hI.future _ (Nat.le_refl _)]
        rfl
    · intro id e t task' hl hf ht'
      rw [expectedExpiry, hsame]
      rcases step_entry hs hev hl hf with hbefore | ⟨rfl, hexp⟩
      · rcases step_task hs hev ht' with ⟨task, ht, hopt, _⟩ | ⟨rfl, _⟩
        · rw [hopt]
          exact hI.entry id e t task hbefore hf ht
        · obtain ⟨_, ht, _⟩ := (hstore.entry id _ ⟨e, hbefore, hf⟩).1
          have hlt := (List.getElem?_eq_some_iff.mp ht).1
          omega
      · rw [hI.future _ (Nat.le_refl _)]
        exact hexp

theorem expiryInv_run {as : List (Action w φ)} {es : List (Event w)} {rt : Runtime w φ}
    (h : asyncRun w φ as = some (es, rt)) : ExpiryInv as rt := by
  have hrun := Runs.exec_invariant_inputs_nil (I := ExpiryInv)
    (fun pre s a e s' hI hs => hI.step hs) ExpiryInv.empty h
  exact hrun

def Fits (n : ℤ) : Prop := -2^63 ≤ n ∧ n < 2^63

theorem bmod_eq_self_iff (n : ℤ) : Int.bmod n (2^64) = n ↔ Fits n := by
  have hlow := Int.le_bmod (m := 2^64) (x := n) (by decide)
  have hhigh := Int.bmod_lt (m := 2^64) (x := n) (by decide)
  unfold Fits
  constructor
  · intro h
    rw [h] at hlow hhigh
    omega
  · intro ⟨hn, hn'⟩
    apply Int.bmod_eq_of_le
    · omega
    · omega

/-- One second before the epoch. -/
theorem toNanos_initExpire : toNanos initExpire = -10^9 := rfl

/-- The entry of a task without housekeeping expires after every clock reading, the entry of one
with housekeeping the right time after it, and no conversion to nanoseconds overflows. -/
structure ExpiresRight (as : List (Action w φ)) (rt : Runtime w φ) : Prop where
  pending : ∀ id e t task, rt.store.elems.lookup id = some e → e.fut = some t →
    rt.tasks[t]? = some task → task.phase.housekept = false → ∀ now, Fits now → now < e.expires
  completed : ∀ id e t task, rt.store.elems.lookup id = some e → e.fut = some t →
    rt.tasks[t]? = some task → task.phase.housekept = true → ∃ done, completedAt t as = some done ∧
      e.expires = done+task.expireOpt.getD rt.store.defaultExpire*10^9
  launches : ∀ fcn expireOpt canSpawn, .launch fcn expireOpt canSpawn ∈ as → Fits (initExpire*10^9)
  housekeepings : ∀ t now task, .housekeep t now ∈ as → rt.tasks[t]? = some task →
    Fits (task.expireOpt.getD rt.store.defaultExpire*10^9) ∧
      Fits (now+task.expireOpt.getD rt.store.defaultExpire*10^9)

theorem step_grows {rt rt' : Runtime w φ} {a : Action w φ} {ev : Event w}
    (h : rt.step a = some (ev, rt')) :
    rt'.tasks.length = rt.tasks.length ∨
      ∃ fcn expireOpt canSpawn, a = .launch fcn expireOpt canSpawn := by
  cases a with
  | launch fcn expireOpt canSpawn => exact Or.inr ⟨fcn, expireOpt, canSpawn, rfl⟩
  | arrive | compute _ _ | housekeep _ _ | publish _ | retrieve _ | gc _ =>
    apply Or.inl
    cases step_cases h with
    | launched n id task _ _ _ => exact (step_answers h).elim
    | collected now rt' hg => rw [(Runtime.gc_same hg).1]
    | _ => simp [Runtime.setPhase]

theorem tasks_of_no_launch {as : List (Action w φ)} {es : List (Event w)} {rt : Runtime w φ}
    (h : asyncRun w φ as = some (es, rt))
    (hno : ∀ fcn expireOpt canSpawn, .launch fcn expireOpt canSpawn ∉ as) : rt.tasks = [] := by
  have hrun := Runs.exec_invariant_inputs_nil
    (I := fun pre (s : Runtime w φ) =>
      (∃ fcn expireOpt canSpawn, .launch fcn expireOpt canSpawn ∈ pre) ∨ s.tasks.length = 0)
    ?_ (Or.inr rfl) h
  · rcases hrun with ⟨fcn, expireOpt, canSpawn, hmem⟩ | hzero
    · exact absurd hmem (hno fcn expireOpt canSpawn)
    · exact List.length_eq_zero_iff.mp hzero
  · intro pre s a ev s' hI hs
    rcases hI with ⟨fcn, expireOpt, canSpawn, hmem⟩ | hzero
    · exact Or.inl ⟨fcn, expireOpt, canSpawn, List.mem_append_left _ hmem⟩
    · rcases step_grows hs with hsame | ⟨fcn, expireOpt, canSpawn, rfl⟩
      · exact Or.inr (hsame.trans hzero)
      · exact Or.inl ⟨fcn, expireOpt, canSpawn, by simp⟩

/-- The first launch already overflows. The entry it inserts then expires one second before the
epoch, until the housekeeping writes an expiry that is right as long as it can be represented. -/
theorem expires_right_iff (as : List (Action w φ)) (es : List (Event w)) (rt : Runtime w φ)
    (h : asyncRun w φ as = some (es, rt)) :
    (ExpiresRight as rt ↔ ∀ fcn expireOpt canSpawn, .launch fcn expireOpt canSpawn ∉ as) ∧
    ∀ id e t task, rt.store.elems.lookup id = some e → e.fut = some t →
      rt.tasks[t]? = some task →
      (task.phase.housekept = false → ∀ now, now < e.expires ↔ now < -10^9) ∧
      (task.phase.housekept = true → ∃ done, completedAt t as = some done ∧
        (e.expires = done+task.expireOpt.getD rt.store.defaultExpire*10^9 ↔
          Fits (done+task.expireOpt.getD rt.store.defaultExpire*10^9))) := by
  have hI := expiryInv_run h
  refine ⟨⟨?_, ?_⟩, ?_⟩
  · -- the conversion of the initial expiry overflows in every launch
    intro hright fcn expireOpt canSpawn hmem
    have hfits := (hright.launches fcn expireOpt canSpawn hmem).2
    unfold initExpire at hfits
    omega
  · intro hno
    have htasks := tasks_of_no_launch h hno
    have hnone (t : ℕ) (task : Task w φ) : rt.tasks[t]? ≠ some task := by
      rw [htasks]
      simp
    exact ⟨fun _ _ t task _ _ ht => absurd ht (hnone t task),
      fun _ _ t task _ _ ht => absurd ht (hnone t task),
      fun fcn expireOpt canSpawn hmem => absurd hmem (hno fcn expireOpt canSpawn),
      fun t _ task _ ht => absurd ht (hnone t task)⟩
  · intro id e t task hl hf ht
    have hexp := hI.entry id e t task hl hf ht
    have hphase := hI.phase t task ht
    unfold expectedExpiry at hexp
    cases hdone : completedAt t as with
    | none =>
      rw [hdone] at hexp hphase
      refine ⟨?_, fun hkept => by simp [hphase] at hkept⟩
      intro _ now
      rw [hexp, Option.elim_none, toNanos_initExpire]
    | some done =>
      rw [hdone] at hexp hphase
      refine ⟨fun hnot => by simp [hphase] at hnot, ?_⟩
      intro _
      refine ⟨done, rfl, ?_⟩
      rw [hexp, Option.elim_some, hI.default, toNanos, Int.add_bmod_bmod]
      exact bmod_eq_self_iff _

theorem expires_right_iff_completed :
    let as : List (Action 32 Unit) :=
      [.arrive, .launch () (some 60) true, .compute 0 (.ok ['a']), .housekeep 0 5]
    ∃ es rt, asyncRun 32 Unit as = some (es, rt) ∧
      rt.store.elems.lookup 0 = some ⟨5+60*10^9, some 0⟩ ∧
      ∃ done, completedAt 0 as = some done ∧
        (5+60*10^9 = done+60*10^9 ↔ Fits (done+60*10^9)) := by
  intro as
  refine ⟨?es, ?rt, ?hrun, ?hentry, ?_⟩
  case hrun => rfl
  case hentry => rfl
  have hentry := (expires_right_iff as _ _ rfl).2 0 ⟨5+60*10^9, some 0⟩ 0
    ⟨0, (), some 60, .stored ['a']⟩ rfl rfl rfl
  exact hentry.2 rfl

/-- A task that has just been launched counts as expired at the epoch and ever after. -/
theorem running_task_expired :
    ∃ es rt, asyncRun 32 Unit [.arrive, .launch () none true] = some (es, rt) ∧
      rt.store.elems.lookup 0 = some ⟨-10^9, some 0⟩ ∧
      ¬ExpiresRight [.arrive, .launch () none true] rt := by
  refine ⟨_, _, rfl, rfl, ?_⟩
  intro hright
  have hlater := hright.pending 0 ⟨-10^9, some 0⟩ 0 ⟨0, (), none, .running⟩ rfl rfl rfl rfl 0
    ⟨by omega, by omega⟩
  have hpast : ¬(0 : ℤ) < -10^9 := by omega
  exact hpast hlater

end Virthttp
