import Virthttp.AsyncFailures
import Mathlib.Data.List.Perm.Subperm

/-! The capacity of the asynchronous store. The test of `launch` runs outside of the mutex, so
what it must leave room for are the callers that have passed it and not inserted yet. -/
namespace Virthttp

variable {w : ℕ} {φ : Type}

def AsyncStore.size (s : AsyncStore w) : ℕ := s.elems.entries.length

theorem toNat_subperm_range {keys : List (BitVec w)} (hnodup : keys.Nodup) :
    (keys.map BitVec.toNat).Subperm (List.range (2^w)) := by
  apply List.subperm_of_subset
  · exact hnodup.map (fun a b h => BitVec.eq_of_toNat_eq h)
  · intro n hn
    obtain ⟨key, _, rfl⟩ := List.mem_map.mp hn
    exact List.mem_range.mpr key.isLt

theorem mem_of_length_le {keys : List (BitVec w)} (hnodup : keys.Nodup)
    (hlen : 2^w ≤ keys.length) (id : BitVec w) : id ∈ keys := by
  have hperm := (toNat_subperm_range hnodup).perm_of_length_le (by simpa using hlen)
  have hmem : id.toNat ∈ keys.map BitVec.toNat :=
    hperm.mem_iff.mpr (List.mem_range.mpr id.isLt)
  obtain ⟨key, hkey, heq⟩ := List.mem_map.mp hmem
  rw [← BitVec.eq_of_toNat_eq heq]
  exact hkey

theorem length_of_all_mem {keys : List (BitVec w)} (hall : ∀ id, id ∈ keys) :
    2^w ≤ keys.length := by
  have hsub : List.range (2^w) ⊆ keys.map BitVec.toNat := by
    intro n hn
    have hlt := List.mem_range.mp hn
    refine List.mem_map.mpr ⟨BitVec.ofNat w n, hall _, ?_⟩
    rw [BitVec.toNat_ofNat, Nat.mod_eq_of_lt hlt]
  have hle := (List.subperm_of_subset List.nodup_range hsub).length_le
  simpa using hle

theorem AsyncStore.live_iff (s : AsyncStore w) (id : BitVec w) :
    s.live id = true ↔ id ∈ s.elems.keys := by
  rw [AsyncStore.live, AList.lookup_isSome, AList.mem_keys]

theorem AsyncStore.length_keys (s : AsyncStore w) : s.elems.keys.length = s.size :=
  List.length_map _

theorem AsyncStore.size_le (s : AsyncStore w) : s.size ≤ 2^w := by
  have hle := (toNat_subperm_range s.elems.keys_nodup).length_le
  rw [List.length_map, List.length_range, s.length_keys] at hle
  exact hle

/-- The store has a free key as long as it is not completely full. -/
theorem exists_free_iff (s : AsyncStore w) : (∃ id, s.live id = false) ↔ s.size < 2^w := by
  rw [← not_iff_not, not_exists, not_lt, ← s.length_keys]
  constructor
  · intro hall
    apply length_of_all_mem
    intro id
    exact (s.live_iff id).mp (by simpa using hall id)
  · intro hlen id
    have hmem := mem_of_length_le s.elems.keys_nodup hlen id
    simp [(s.live_iff id).mpr hmem]

theorem size_insert_free {s : AsyncStore w} {id : BitVec w} {e : Element}
    (hfree : s.elems.lookup id = none) : (s.elems.insert id e).entries.length = s.size+1 := by
  rw [AList.entries_insert_of_notMem (AList.lookup_eq_none.mp hfree)]
  rfl

theorem size_insert_live {s : AsyncStore w} {id : BitVec w} {e e' : Element}
    (hlive : s.elems.lookup id = some e) : (s.elems.insert id e').entries.length = s.size := by
  have hmem : id ∈ s.elems.keys := by
    rw [← AList.mem_keys, ← AList.lookup_isSome, hlive]
    rfl
  have hkeys : (s.elems.insert id e').keys.length = s.elems.keys.length := by
    rw [AList.keys_insert, List.length_cons, List.length_erase_of_mem hmem]
    have hpos := List.length_pos_of_mem hmem
    omega
  rw [s.length_keys] at hkeys
  rw [← hkeys]
  exact (List.length_map _).symm

theorem size_erase_le (s : AsyncStore w) (id : BitVec w) :
    (s.elems.erase id).entries.length ≤ s.size := by
  have hkeys : (s.elems.erase id).keys.length ≤ s.elems.keys.length := by
    rw [AList.keys_erase]
    exact List.length_erase_le
  rw [s.length_keys] at hkeys
  refine le_trans (le_of_eq ?_) hkeys
  exact (List.length_map _).symm

theorem Runtime.gc_size_le {rt rt' : Runtime w φ} {now : ℤ} (h : rt.gc now = some rt') :
    rt'.store.size ≤ rt.store.size := by
  unfold Runtime.gc at h
  split at h
  · contradiction
  · rename_i left hleft
    cases h
    exact (Runtime.gcLoop_sublist rt now hleft).length_le

theorem step_size {es : List (Event w)} {rt rt' : Runtime w φ} {ev : Event w}
    (hI : StoreInv es rt) (h : Steps rt ev rt') :
    (ev.search = none ∧ rt'.store.size ≤ rt.store.size) ∨
      (ev.search ≠ none ∧ rt'.store.size = rt.store.size+1) := by
  cases h with
  | launched n id task hfree _ _ =>
    exact Or.inr ⟨by simp [Event.search], size_insert_free (getFreeId_free hfree)⟩
  | launchFailed n id hfree =>
    exact Or.inr ⟨by simp [Event.search], size_insert_free (getFreeId_free hfree)⟩
  | housekept t task ret now ht hphase =>
    obtain ⟨e, hl, _⟩ := hI.busy t task.id ⟨task, ht, rfl, by rw [hphase]; rfl⟩
    exact Or.inl ⟨rfl, (size_insert_live hl).le⟩
  | consumed id e r _ _ => exact Or.inl ⟨rfl, size_erase_le rt.store id⟩
  | collected now rt' hg => exact Or.inl ⟨rfl, Runtime.gc_size_le hg⟩
  | _ => exact Or.inl ⟨rfl, Nat.le_refl _⟩

theorem launch_admitted {rt rt' : Runtime w φ} {fcn : φ} {expireOpt : Option ℤ}
    {canSpawn : Bool} {ev : Event w}
    (h : rt.step (.launch fcn expireOpt canSpawn) = some (ev, rt')) :
    rt.admitted = rt'.admitted+1 := by
  obtain ⟨n, id, hn, _, hcase⟩ := step_launch_inv h
  rcases hcase with ⟨_, _, task, _, _, rfl⟩ | ⟨_, _, rfl⟩
  · exact hn
  · exact hn

theorem Runtime.gc_admitted {rt rt' : Runtime w φ} {now : ℤ} (h : rt.gc now = some rt') :
    rt'.admitted = rt.admitted := by
  unfold Runtime.gc at h
  split at h
  · contradiction
  · cases h
    rfl

/-- What a step does to the number of the callers that have passed the test. -/
theorem step_admitted {rt rt' : Runtime w φ} {a : Action w φ} {ev : Event w}
    (h : rt.step a = some (ev, rt')) :
    (a = .arrive ∧ rt'.store = rt.store ∧
      rt'.admitted = if rt.store.full then rt.admitted else rt.admitted+1) ∨
    (ev.search ≠ none ∧ rt.admitted = rt'.admitted+1) ∨
    (ev.search = none ∧ rt'.admitted = rt.admitted) := by
  have hev := step_answers h
  have hsteps := step_cases h
  cases a with
  | arrive =>
    simp only [Runtime.step] at h
    split at h
    · rename_i hfull
      cases h
      exact Or.inl ⟨rfl, rfl, by rw [if_pos hfull]⟩
    · rename_i hfull
      cases h
      exact Or.inl ⟨rfl, rfl, by rw [if_neg hfull]⟩
  | launch fcn expireOpt canSpawn =>
    apply Or.inr
    apply Or.inl
    refine ⟨?_, launch_admitted h⟩
    cases hsteps with
    | launched n id task _ _ _ => simp [Event.search]
    | launchFailed n id _ => simp [Event.search]
    | _ => exact hev.elim
  | compute _ _ | housekeep _ _ | publish _ | retrieve _ | gc _ =>
    apply Or.inr
    apply Or.inr
    cases hsteps with
    | admitted ok n => exact hev.elim
    | launched n id task _ _ _ => exact hev.elim
    | launchFailed n id _ => exact hev.elim
    | collected now rt' hg => exact ⟨rfl, Runtime.gc_admitted hg⟩
    | _ => exact ⟨rfl, rfl⟩

def Runtime.SearchEnds (rt : Runtime w φ) : Prop :=
  0 < rt.admitted → (∃ id, rt.store.live id = false) ∧ ∃ id, rt.store.getFreeId = some id

/-- A caller that passes the test leaves a key for itself next to the entries and to those who
have passed before it. The code compares the number of entries only, and only for equality. -/
def Runtime.RoomFor (rt : Runtime w φ) : Action w φ → Prop
  | .arrive => rt.store.full = true ∨ rt.store.size+rt.admitted < 2^w
  | _ => True

structure Roomy (es : List (Event w)) (rt : Runtime w φ) : Prop where
  past : StoreInv es rt
  room : rt.store.size+rt.admitted ≤ 2^w

theorem Roomy.step {es : List (Event w)} {rt rt' : Runtime w φ} {a : Action w φ} {ev : Event w}
    (hI : Roomy es rt) (hroom : rt.RoomFor a) (h : rt.step a = some (ev, rt')) :
    Roomy (es ++ [ev]) rt' := by
  refine ⟨hI.past.step (step_cases h), ?_⟩
  have hbefore := hI.room
  have hsize := step_size hI.past (step_cases h)
  rcases step_admitted h with ⟨rfl, hstore, hadm⟩ | ⟨hsearch, hadm⟩ | ⟨hsearch, hadm⟩
  · rw [hstore, hadm]
    rcases hroom with hfull | hlt
    · rw [if_pos hfull]
      exact hbefore
    · split <;> omega
  · rcases hsize with ⟨hnone, _⟩ | ⟨_, hsize⟩
    · exact absurd hnone hsearch
    · omega
  · rcases hsize with ⟨_, hsize⟩ | ⟨hsome, _⟩
    · omega
    · exact absurd hsearch hsome

theorem Roomy.searchEnds {es : List (Event w)} {rt : Runtime w φ} (hI : Roomy es rt) :
    rt.SearchEnds := by
  intro hpos
  have hroom := hI.room
  have hfree : ∃ id, rt.store.live id = false := (exists_free_iff rt.store).mpr (by omega)
  obtain ⟨id, hid⟩ := hfree
  exact ⟨⟨id, hid⟩, getFreeId_isSome hid⟩

theorem launch_enabled (rt : Runtime w φ) (fcn : φ) (hadm : 0 < rt.admitted)
    (hsize : rt.store.size < 2^w) :
    ∃ ev rt', rt.step (.launch fcn none true) = some (ev, rt') ∧
      rt'.store.size = rt.store.size+1 ∧ rt.admitted = rt'.admitted+1 := by
  obtain ⟨y, hy⟩ := (exists_free_iff rt.store).mpr hsize
  obtain ⟨id, hid⟩ := getFreeId_isSome hy
  obtain ⟨n, hn⟩ := Nat.exists_eq_succ_of_ne_zero (Nat.pos_iff_ne_zero.mp hadm)
  have hstep : rt.step (.launch fcn none true) = some (.launched rt.tasks.length id rt.store,
      ⟨rt.store.issue id (some rt.tasks.length), rt.tasks ++ [⟨id, fcn, none, .running⟩], n⟩) := by
    simp only [Runtime.step, hn, Runtime.launchLocked, hid, if_true, AList.insert_twice]
    rfl
  exact ⟨_, _, hstep, size_insert_free (getFreeId_free hid), hn⟩

/-- Launches alone fill the store. -/
theorem launches_fill (fcn : φ) (k : ℕ) : ∀ rt : Runtime w φ, rt.store.size+k ≤ 2^w →
    k ≤ rt.admitted → ∃ es rt',
      Runs.exec Runtime.step rt (List.replicate k (.launch fcn none true)) = some (es, rt') ∧
        rt'.store.size = rt.store.size+k ∧ rt.admitted = rt'.admitted+k := by
  induction k with
  | zero => exact fun rt _ _ => ⟨[], rt, rfl, rfl, rfl⟩
  | succ k ih =>
    intro rt hsize hadm
    obtain ⟨ev, rt₁, hstep, hsize₁, hadm₁⟩ := launch_enabled rt fcn (by omega) (by omega)
    obtain ⟨es, rt₂, hrun, hsize₂, hadm₂⟩ := ih rt₁ (by omega) (by omega)
    refine ⟨ev :: es, rt₂, ?_, by omega, by omega⟩
    exact Runs.exec_cons_eq_some.mpr ⟨ev, rt₁, es, hstep, hrun, rfl⟩

theorem not_searchEnds_of_full {rt : Runtime w φ} (hadm : 0 < rt.admitted)
    (hfull : rt.store.size = 2^w) : ¬rt.SearchEnds := by
  intro hends
  have hlt := (exists_free_iff rt.store).mp (hends hadm).1
  omega

/-- More callers on their way than there are keys left: the last of them never comes back. -/
theorem overfull_spins (fcn : φ) {rt : Runtime w φ} (h : 2^w < rt.store.size+rt.admitted) :
    ∃ k es rt', Runs.exec Runtime.step rt (List.replicate k (.launch fcn none true)) =
      some (es, rt') ∧ ¬rt'.SearchEnds := by
  have hle := rt.store.size_le
  obtain ⟨es, rt', hrun, hsize, hadm⟩ :=
    launches_fill fcn (2^w-rt.store.size) rt (by omega) (by omega)
  exact ⟨_, es, rt', hrun, not_searchEnds_of_full (by omega) (by omega)⟩

/-- In a run in which every caller that passes the test leaves room in this sense, every search
for a key starts with a free one and ends; and once a caller passes without leaving room, launches
alone lead to a search that does not. -/
theorem searches_end_iff_room (w : ℕ) (φ : Type) :
    (∀ (as : List (Action w φ)) (es : List (Event w)) (rt : Runtime w φ),
      asyncRun w φ as = some (es, rt) →
        Runs.Meets Runtime.step Runtime.RoomFor (Runtime.empty w φ) as → rt.SearchEnds) ∧
    ∀ (rt : Runtime w φ) (fcn : φ), ¬rt.RoomFor .arrive → ∃ k es rt',
      Runs.exec Runtime.step rt (.arrive :: List.replicate k (.launch fcn none true)) =
        some (es, rt') ∧ ¬rt'.SearchEnds := by
  constructor
  · intro as es rt h hroom
    have hstart : Roomy [] (Runtime.empty w φ) := by
      refine ⟨StoreInv.empty, ?_⟩
      simp [AsyncStore.size, Runtime.empty, AsyncStore.empty]
    have hrun := Runs.exec_invariant_meets_nil (I := Roomy)
      (fun pre s a ev s' hI hP hs => hI.step hP hs) hroom hstart h
    exact hrun.searchEnds
  · intro rt fcn hno
    simp only [Runtime.RoomFor, not_or, not_lt] at hno
    obtain ⟨hfull, hsize⟩ := hno
    have hstep : rt.step .arrive =
        some (.admitted true, { rt with admitted := rt.admitted+1 }) := by
      simp only [Runtime.step, if_neg hfull]
    have hover : 2^w < ({ rt with admitted := rt.admitted+1 } : Runtime w φ).store.size+
        (rt.admitted+1) := Nat.lt_succ_of_le hsize
    obtain ⟨k, es, rt', hrun, hspins⟩ := overfull_spins fcn hover
    exact ⟨k, _, rt', Runs.exec_cons_eq_some.mpr ⟨_, _, es, hstep, hrun, rfl⟩, hspins⟩

/-- One caller on an empty store leaves room. -/
theorem searches_end_one :
    ∃ es rt, asyncRun 32 Unit [.arrive] = some (es, rt) ∧ rt.SearchEnds := by
  refine ⟨?es, ?rt, ?hrun, ?_⟩
  case hrun => rfl
  apply (searches_end_iff_room 32 Unit).1 [.arrive] _ _ rfl
  refine ⟨Or.inr ?_, fun _ _ _ => trivial⟩
  decide

def launchRounds (w : ℕ) (n : ℕ) : List (Action w Unit) :=
  (List.replicate n [.arrive, .launch () none true]).flatten

theorem launchRounds_fill (n : ℕ) : ∀ rt : Runtime w Unit, rt.admitted = 0 →
    rt.store.size+n < 2^w → ∃ es rt', Runs.exec Runtime.step rt (launchRounds w n) =
      some (es, rt') ∧ rt'.store.size = rt.store.size+n ∧ rt'.admitted = 0 := by
  induction n with
  | zero => exact fun rt hadm _ => ⟨[], rt, rfl, rfl, hadm⟩
  | succ n ih =>
    intro rt hadm hsize
    have hroom : ¬rt.store.full = true := by
      have hne : rt.store.size ≠ 2^w-1 := by omega
      simpa [AsyncStore.full, AsyncStore.size] using hne
    have harrive : rt.step .arrive =
        some (.admitted true, { rt with admitted := rt.admitted+1 }) := by
      simp only [Runtime.step, if_neg hroom]
    obtain ⟨ev, rt₁, hlaunch, hsize₁, hadm₁⟩ :=
      launch_enabled { rt with admitted := rt.admitted+1 } () (Nat.succ_pos _)
        (by simp only; omega)
    simp only at hsize₁ hadm₁
    obtain ⟨es, rt₂, hrun, hsize₂, hadm₂⟩ := ih rt₁ (by omega) (by omega)
    refine ⟨.admitted true :: ev :: es, rt₂, ?_, by omega, hadm₂⟩
    exact Runs.exec_cons_eq_some.mpr ⟨_, _, _, harrive,
      Runs.exec_cons_eq_some.mpr ⟨_, _, _, hlaunch, hrun, rfl⟩, rfl⟩

/-- With two keys left three clients pass the test before any of them inserts. -/
theorem three_arrivals_spin (hw : 0 < w) :
    ∃ es rt, asyncRun w Unit (launchRounds w (2^w-2) ++
        ([.arrive, .arrive, .arrive] ++ List.replicate 2 (.launch () none true))) =
      some (es, rt) ∧ ¬rt.SearchEnds := by
  have htwo : 2 ≤ 2^w := Nat.le_self_pow (by omega) 2
  have hempty : (Runtime.empty w Unit).store.size = 0 := rfl
  obtain ⟨es₁, rt₁, hrounds, hsize₁, hadm₁⟩ :=
    launchRounds_fill (2^w-2) (Runtime.empty w Unit) rfl (by omega)
  have hroom : ¬rt₁.store.full = true := by
    have hne : rt₁.store.size ≠ 2^w-1 := by omega
    simpa [AsyncStore.full, AsyncStore.size] using hne
  -- the test looks at the entries only, which an arrival leaves as they are
  have harrive (n : ℕ) : Runtime.step (⟨rt₁.store, rt₁.tasks, n⟩ : Runtime w Unit) .arrive =
      some (.admitted true, ⟨rt₁.store, rt₁.tasks, n+1⟩) := by
    simp only [Runtime.step, if_neg hroom]
  have harrivals : Runs.exec Runtime.step rt₁ [.arrive, .arrive, .arrive] =
      some ([.admitted true, .admitted true, .admitted true],
        ⟨rt₁.store, rt₁.tasks, rt₁.admitted+3⟩) :=
    Runs.exec_cons_eq_some.mpr ⟨_, _, _, harrive _,
      Runs.exec_cons_eq_some.mpr ⟨_, _, _, harrive _,
        Runs.exec_cons_eq_some.mpr ⟨_, _, _, harrive _, rfl, rfl⟩, rfl⟩, rfl⟩
  obtain ⟨es₂, rt₂, hlaunches, hsize₂, hadm₂⟩ :=
    launches_fill () 2 (⟨rt₁.store, rt₁.tasks, rt₁.admitted+3⟩ : Runtime w Unit)
      (by simp only; omega) (by simp only; omega)
  simp only at hsize₂ hadm₂
  refine ⟨_, rt₂, Runs.exec_append hrounds (Runs.exec_append harrivals hlaunches), ?_⟩
  exact not_searchEnds_of_full (by omega) (by omega)

theorem third_client_spins :
    ∃ es rt, asyncRun 32 Unit (launchRounds 32 (2^32-2) ++
        ([.arrive, .arrive, .arrive] ++ List.replicate 2 (.launch () none true))) =
      some (es, rt) ∧ ¬rt.SearchEnds :=
  three_arrivals_spin (by decide)

end Virthttp
