import Virthttp.OtherFlatmaps

namespace Virthttp

variable {K V : Type}

/-- The calls that insert a pair where the key is missing. The pair given to `insert` is copied
or moved; `operator[]` has no value to give. -/
inductive Insertion (K V : Type) where
  | insertCopy (key : K) (v : V)
  | insertMove (key : K) (v : V)
  | emplace (key : K) (v : V)
  | tryEmplace (key : K) (v : V)
  | insertOrAssign (key : K) (v : V)
  | subscript (key : K)

namespace Insertion

def key : Insertion K V → K
  | insertCopy key _ => key
  | insertMove key _ => key
  | emplace key _ => key
  | tryEmplace key _ => key
  | insertOrAssign key _ => key
  | subscript key => key

def value [Inhabited V] : Insertion K V → V
  | insertCopy _ v => v
  | insertMove _ v => v
  | emplace _ v => v
  | tryEmplace _ v => v
  | insertOrAssign _ v => v
  | subscript _ => default

def op : Insertion K V → MapOp K V
  | insertCopy key v => .insert key v
  | insertMove key v => .insert key v
  | emplace key v => .emplace key v
  | tryEmplace key v => .tryEmplace key v
  | insertOrAssign key v => .insertOrAssign key v
  | subscript key => .subscript key

end Insertion

namespace SplitFlatmap

def valuesThenKeys (throws : Bool) (s : SplitStorage K V) (iter : ℕ) (key : K) (v : V) :
    Option Unit × SplitStorage K V :=
  let half : SplitStorage K V := { s with values := s.values.insertIdx iter v }
  if throws then (none, half)
  else (some (), { half with keys := half.keys.insertIdx iter key })

def keysThenValues (throws : Bool) (s : SplitStorage K V) (iter : ℕ) (key : K) (v : V) :
    Option Unit × SplitStorage K V :=
  let half : SplitStorage K V := { s with keys := s.keys.insertIdx iter key }
  if throws then (none, half)
  else (some (), { half with values := half.values.insertIdx iter v })

variable (comp : Compare K)

def attempt [Inhabited V] (throws : Bool) (s : SplitStorage K V) :
    Insertion K V → Option (MapResult V) × SplitStorage K V
  | .insertCopy key v =>
    let (iter, exactMatch) := findKey comp s key
    if exactMatch then (some (.placed iter false), s)
    else Prod.map (Option.map fun _ => .placed iter true) id (valuesThenKeys throws s iter key v)
  | .insertMove key v =>
    let (iter, exactMatch) := findKey comp s key
    if exactMatch then (some (.placed iter false), s)
    else Prod.map (Option.map fun _ => .placed iter true) id (keysThenValues throws s iter key v)
  | .emplace key v =>
    let (iter, exactMatch) := findKey comp s key
    if exactMatch then (some (.placed iter false), s)
    else Prod.map (Option.map fun _ => .placed iter true) id (keysThenValues throws s iter key v)
  | .tryEmplace key v =>
    let (iter, exactMatch) := findKey comp s key
    if exactMatch then (some (.placed iter false), s)
    else Prod.map (Option.map fun _ => .placed iter true) id (keysThenValues throws s iter key v)
  | .insertOrAssign key v =>
    let (iter, exactMatch) := findKey comp s key
    if exactMatch then (some (.placed iter false), { s with values := s.values.set iter v })
    else Prod.map (Option.map fun _ => .placed iter true) id (keysThenValues throws s iter key v)
  | .subscript key =>
    let (iter, exactMatch) := findKey comp s key
    if exactMatch then (some (.value (s.second iter)), s)
    else
      let (done, grown) := keysThenValues throws s iter key default
      (done.map fun _ => .value (grown.second iter), grown)

def Stored (s : SplitStorage K V) (key : K) : Prop := (findKey comp s key).2 = true

/-- The maps that are reached by operations, some of which would have thrown had they had
something to insert. -/
inductive Reachable [Inhabited V] : SplitStorage K V → Prop where
  | init : Reachable .empty
  | op (s : SplitStorage K V) (o : MapOp K V) (h : Reachable s) :
      Reachable ((methods comp).apply s o).2
  | throwing (s : SplitStorage K V) (a : Insertion K V) (h : Reachable s)
      (hkey : Stored comp s a.key) : Reachable (attempt comp true s a).2

/-- What a call that has thrown must leave of the map. -/
structure Intact [Inhabited V] (s s' : SplitStorage K V) (a : Insertion K V) : Prop where
  lockstep : s'.keys.length = s'.values.length
  belong : ∀ i e, s'.entryAt i = some e → (∃ j, s.entryAt j = some e) ∨ e = (a.key, a.value)
  kept : ∀ key e, s.entryAt (find comp s key) = some e → s'.entryAt (find comp s' key) = some e

def SafeUnderFailure [Inhabited V] (s : SplitStorage K V) (a : Insertion K V) : Prop :=
  (attempt comp true s a).1 = none → Intact comp s (attempt comp true s a).2 a

variable {comp} [Inhabited V] {s : SplitStorage K V}

/-- Where nothing throws, the call is the operation. -/
theorem attempt_op (s : SplitStorage K V) (a : Insertion K V) :
    attempt comp false s a =
      (some ((methods comp).apply s a.op).1, ((methods comp).apply s a.op).2) := by
  cases a with
  | subscript key =>
    simp only [attempt, Insertion.op, MapMethods.apply, methods, SplitFlatmap.subscript]
    cases (findKey comp s key).2 <;> rfl
  | insertOrAssign key v =>
    simp only [attempt, Insertion.op, MapMethods.apply, methods, SplitFlatmap.insertOrAssign]
    cases (findKey comp s key).2 <;> rfl
  | tryEmplace key v =>
    simp only [attempt, Insertion.op, MapMethods.apply, methods, SplitFlatmap.tryEmplace]
    cases (findKey comp s key).2 <;> rfl
  | insertCopy key v =>
    simp only [attempt, Insertion.op, MapMethods.apply, methods, SplitFlatmap.insert]
    cases (findKey comp s key).2 <;> rfl
  | insertMove key v =>
    simp only [attempt, Insertion.op, MapMethods.apply, methods, SplitFlatmap.insert]
    cases (findKey comp s key).2 <;> rfl
  | emplace key v =>
    simp only [attempt, Insertion.op, MapMethods.apply, methods, SplitFlatmap.emplace,
      SplitFlatmap.insert]
    cases (findKey comp s key).2 <;> rfl

/-- Nothing is inserted where the key is stored. -/
theorem attempt_stored {a : Insertion K V} (hkey : Stored comp s a.key) (throws : Bool) :
    attempt comp throws s a = attempt comp false s a := by
  unfold Stored at hkey
  cases a <;> simp only [Insertion.key] at hkey <;> simp only [attempt, hkey, if_true]

theorem attempt_stored_returns {a : Insertion K V} (hkey : Stored comp s a.key) :
    (attempt comp true s a).1 ≠ none := by
  rw [attempt_stored hkey, attempt_op]
  exact Option.some_ne_none _

/-- A call that throws leaves one of the vectors with a new element and the other without. -/
theorem attempt_missing {a : Insertion K V} (hkey : ¬Stored comp s a.key) :
    (attempt comp true s a).1 = none ∧
      ((attempt comp true s a).2 =
          { s with values := s.values.insertIdx (findKey comp s a.key).1 a.value } ∨
        (attempt comp true s a).2 =
          { s with keys := s.keys.insertIdx (findKey comp s a.key).1 a.key }) := by
  have hmatch : (findKey comp s a.key).2 = false := by simpa [Stored] using hkey
  cases a with
  | insertCopy key v =>
    simp only [Insertion.key] at hmatch
    simp only [attempt, hmatch, Insertion.key]
    exact ⟨rfl, Or.inl rfl⟩
  | _ =>
    simp only [Insertion.key] at hmatch
    simp only [attempt, hmatch, Insertion.key]
    exact ⟨rfl, Or.inr rfl⟩

/-- A map that is reached is a vector of pairs, sorted by their keys, taken apart. -/
theorem Reachable.holds (hs : Reachable comp s) :
    ∃ f m, FlatmapStorage.Holds comp f m ∧ s = .ofPairs f := by
  have hop (s : SplitStorage K V) (o : MapOp K V)
      (h : ∃ f m, FlatmapStorage.Holds comp f m ∧ s = .ofPairs f) :
      ∃ f m, FlatmapStorage.Holds comp f m ∧ ((methods comp).apply s o).2 = .ofPairs f := by
    obtain ⟨f, m, hf, rfl⟩ := h
    have hflat := (FlatmapStorage.methods_simulate (V := V) comp).apply f m o hf
    have hsplit := (methods_simulate (V := V) comp).apply _ f o rfl
    exact ⟨_, _, hflat.2, hsplit.2⟩
  induction hs with
  | init => exact ⟨[], .empty, FlatmapStorage.holds_nil, rfl⟩
  | op s o _ ih => exact hop s o ih
  | throwing s a _ hkey ih =>
    rw [attempt_stored hkey, attempt_op]
    exact hop s a.op ih

theorem Reachable.lockstep (hs : Reachable comp s) : s.keys.length = s.values.length := by
  obtain ⟨f, _, _, rfl⟩ := hs.holds
  simp [SplitStorage.ofPairs]

theorem Reachable.findKey_le (hs : Reachable comp s) (key : K) :
    (findKey comp s key).1 ≤ s.keys.length := by
  obtain ⟨f, _, hf, rfl⟩ := hs.holds
  have hle := BinarySearch.lowerBound_le (hf.sorted.partitioned key)
  unfold findKey
  simp only [SplitStorage.ofPairs, BinarySearch.lowerBound_map, List.length_map]
  exact hle

theorem not_safe_of_missing (hs : Reachable comp s) {a : Insertion K V}
    (hkey : ¬Stored comp s a.key) : ¬SafeUnderFailure comp s a := by
  intro hsafe
  obtain ⟨hthrows, hleft⟩ := attempt_missing hkey
  -- an element was inserted into one of two vectors of equal length
  have hlockstep := (hsafe hthrows).lockstep
  have hlength := hs.lockstep
  have hle := hs.findKey_le a.key
  rcases hleft with hleft | hleft
  · rw [hleft] at hlockstep
    dsimp only at hlockstep
    rw [List.length_insertIdx_of_le_length (hlength ▸ hle)] at hlockstep
    omega
  · rw [hleft] at hlockstep
    dsimp only at hlockstep
    rw [List.length_insertIdx_of_le_length hle] at hlockstep
    omega

/-- In a map that is reached keys and values are in lockstep, and a call that may fail between
them is safe if and only if its key is already there. -/
theorem failure_safe_iff (hs : Reachable comp s) (a : Insertion K V) :
    s.keys.length = s.values.length ∧
      (SafeUnderFailure comp s a ↔ Stored comp s a.key) := by
  refine ⟨hs.lockstep, ?_, ?_⟩
  · intro hsafe
    by_contra hkey
    exact not_safe_of_missing hs hkey hsafe
  · intro hkey hthrows
    exact absurd hthrows (attempt_stored_returns hkey)

def single : SplitStorage ℕ ℕ := ((methods (Compare.less ℕ)).apply .empty (.insert 2 20)).2

theorem single_reachable : Reachable (Compare.less ℕ) single := .op .empty (.insert 2 20) .init

theorem failure_safe_again : Stored (Compare.less ℕ) single 2 ∧
    SafeUnderFailure (Compare.less ℕ) single (.tryEmplace 2 30) := by
  have hstored : Stored (Compare.less ℕ) single 2 := by
    unfold Stored
    decide +kernel
  exact ⟨hstored, ((failure_safe_iff single_reachable (.tryEmplace 2 30)).2).mpr hstored⟩

/-- After a failure to insert the key 1 no value is found for the key 2. -/
theorem binding_lost :
    let failed := (attempt (Compare.less ℕ) true single (.subscript 1)).2
    single.entryAt (find (Compare.less ℕ) single 2) = some (2, 20) ∧
      failed.entryAt (find (Compare.less ℕ) failed 2) = none ∧
      Reachable (Compare.less ℕ) single ∧
      ¬SafeUnderFailure (Compare.less ℕ) single (.subscript 1) := by
  intro failed
  have hbefore : single.entryAt (find (Compare.less ℕ) single 2) = some (2, 20) := by
    decide +kernel
  have hafter : failed.entryAt (find (Compare.less ℕ) failed 2) = none := by decide +kernel
  have hmissing : ¬Stored (Compare.less ℕ) single 1 := by
    unfold Stored
    decide +kernel
  refine ⟨hbefore, hafter, single_reachable, ?_⟩
  intro hsafe
  have hkept := (hsafe (attempt_missing hmissing).1).kept 2 (2, 20) hbefore
  cases hafter.symm.trans hkept

end SplitFlatmap

end Virthttp
