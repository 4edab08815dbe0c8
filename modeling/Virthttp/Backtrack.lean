import Mathlib.Data.List.Infix
import Mathlib.Tactic.Common

/-! Backtracking regular expressions over an arbitrary alphabet. A pattern denotes the list
of its matches in the order in which a backtracking engine tries them, so that a greedy
repetition lists its longest match first and a lazy one its shortest. -/
namespace Backtrack

/-- Patterns. Repetition is over a character class, where every turn consumes a character. -/
inductive Re (α : Type) where
  | cls (p : α → Bool)
  | eos
  | seq (r s : Re α)
  | alt (r s : Re α)
  | opt (r : Re α)
  | many (p : α → Bool) (min : ℕ) (max : Option ℕ)
  | manyLazy (p : α → Bool)
  | group (n : ℕ) (r : Re α)

/-- Captured groups, the most recent first. -/
abbrev Caps (α : Type) := List (ℕ × List α)

def greedyRests {α : Type} (p : α → Bool) : ℕ → Option ℕ → List α → List (List α)
  | 0, _, [] => [[]]
  | _+1, _, [] => []
  | 0, some 0, x :: xs => [x :: xs]
  | _+1, some 0, _ :: _ => []
  | min, max, x :: xs =>
    (if p x then greedyRests p (min-1) (max.map (· - 1)) xs else []) ++
      (if min = 0 then [x :: xs] else [])

def lazyRests {α : Type} (p : α → Bool) : List α → List (List α)
  | [] => [[]]
  | x :: xs => (x :: xs) :: (if p x then lazyRests p xs else [])

/-- The matches of a pattern at the head of the input, in the order they are tried. -/
def run {α : Type} : Re α → List α → Caps α → List (Caps α × List α)
  | .cls _, [], _ => []
  | .cls p, x :: xs, c => if p x then [(c, xs)] else []
  | .eos, xs, c => if xs.isEmpty then [(c, xs)] else []
  | .seq r s, xs, c => (run r xs c).flatMap (fun o => run s o.2 o.1)
  | .alt r s, xs, c => run r xs c ++ run s xs c
  | .opt r, xs, c => run r xs c ++ [(c, xs)]
  | .many p min max, xs, c => (greedyRests p min max xs).map (fun ys => (c, ys))
  | .manyLazy p, xs, c => (lazyRests p xs).map (fun ys => (c, ys))
  | .group n r, xs, c =>
    (run r xs c).map (fun o => ((n, xs.take (xs.length-o.2.length)) :: o.1, o.2))

/-- The match an engine reports at the head of the input. -/
def first {α : Type} (r : Re α) (xs : List α) (c : Caps α) : Option (Caps α × List α) :=
  (run r xs c).head?

def fullMatch {α : Type} (r : Re α) (xs : List α) : Option (Caps α) :=
  ((run r xs []).find? (fun o => o.2.isEmpty)).map Prod.fst

def search {α : Type} (r : Re α) : List α → Option (Caps α × List α)
  | [] => first r [] []
  | x :: xs => (first r (x :: xs) []).or (search r xs)

/-- At most `n` successive searches, each from the end of the last match. -/
def rangeFuel {α : Type} (r : Re α) : ℕ → List α → List (Caps α)
  | 0, _ => []
  | n+1, xs =>
    match search r xs with
    | none => []
    | some (c, ys) => c :: rangeFuel r n ys

def range {α : Type} (r : Re α) (xs : List α) : List (Caps α) :=
  rangeFuel r xs.length xs

def Caps.get {α : Type} (c : Caps α) (n : ℕ) : Option (List α) :=
  (c.find? (fun g => g.1 = n)).map Prod.snd

theorem Caps.get_cons_ne {α : Type} {n m : ℕ} (h : n ≠ m) (xs : List α) (c : Caps α) :
    Caps.get ((n, xs) :: c) m = Caps.get c m := by
  simp only [Caps.get]
  rw [List.find?_cons_of_neg (by simpa using h)]

theorem mem_run_cls {α : Type} {p : α → Bool} {xs : List α} {c : Caps α} {o : Caps α × List α}
    (h : o ∈ run (.cls p) xs c) : ∃ x rest, xs = x :: rest ∧ p x = true ∧ o = (c, rest) := by
  cases xs with
  | nil => simp [run] at h
  | cons x xs =>
    simp only [run] at h
    split at h
    · rename_i hx
      exact ⟨x, xs, rfl, hx, List.mem_singleton.mp h⟩
    · simp at h

theorem mem_run_eos {α : Type} {xs : List α} {c : Caps α} {o : Caps α × List α}
    (h : o ∈ run .eos xs c) : xs = [] ∧ o = (c, xs) := by
  simp only [run] at h
  split at h
  · rename_i hnil
    exact ⟨List.isEmpty_iff.mp hnil, List.mem_singleton.mp h⟩
  · simp at h

theorem greedyRests_length {α : Type} (p : α → Bool) (min : ℕ) (max : Option ℕ) (xs : List α) :
    ∀ ys ∈ greedyRests p min max xs, ys.length+min ≤ xs.length := by
  induction xs generalizing min max with
  | nil =>
    intro ys hys
    cases min with
    | zero => simp_all [greedyRests]
    | succ n => simp [greedyRests] at hys
  | cons x xs ih =>
    -- both bounds that let another element through, `none` and `some (m+1)`, behave alike
    have step (ys : List α) (m : Option ℕ)
        (hys : ys ∈ (if p x then greedyRests p (min-1) m xs else []) ++
          (if min = 0 then [x :: xs] else [])) : ys.length+min ≤ (x :: xs).length := by
      rcases List.mem_append.mp hys with h | h
      · split at h
        · have := ih (min-1) m ys h
          simp only [List.length_cons]
          omega
        · simp at h
      · split at h
        · simp only [List.mem_singleton] at h
          subst h
          omega
        · simp at h
    intro ys hys
    rcases max with _ | _ | m
    · exact step ys none (by simpa [greedyRests] using hys)
    · cases min with
      | zero => simp_all [greedyRests]
      | succ n => simp [greedyRests] at hys
    · exact step ys (some m) (by simpa [greedyRests] using hys)

theorem lazyRests_length {α : Type} (p : α → Bool) (xs : List α) :
    ∀ ys ∈ lazyRests p xs, ys.length ≤ xs.length := by
  induction xs with
  | nil => simp [lazyRests]
  | cons x xs ih =>
    intro ys hys
    rcases List.mem_cons.mp hys with rfl | h
    · exact Nat.le_refl _
    · split at h
      · exact Nat.le_trans (ih ys h) (Nat.le_succ _)
      · simp at h

def consumes {α : Type} : Re α → Bool
  | .cls _ => true
  | .eos => false
  | .seq r s => consumes r || consumes s
  | .alt r s => consumes r && consumes s
  | .opt _ => false
  | .many _ min _ => min != 0
  | .manyLazy _ => false
  | .group _ r => consumes r

theorem run_length {α : Type} (r : Re α) (xs : List α) (c : Caps α) :
    ∀ o ∈ run r xs c, o.2.length+(consumes r).toNat ≤ xs.length := by
  induction r generalizing xs c with
  | cls p =>
    intro o ho
    obtain ⟨x, rest, rfl, _, rfl⟩ := mem_run_cls ho
    simp [consumes]
  | eos =>
    intro o ho
    rw [(mem_run_eos ho).2]
    simp [consumes]
  | seq r s ihr ihs =>
    intro o ho
    obtain ⟨m, hm, hom⟩ := List.mem_flatMap.mp ho
    have h1 := ihr xs c m hm
    have h2 := ihs m.2 m.1 o hom
    have hor : (consumes (.seq r s)).toNat ≤ (consumes r).toNat+(consumes s).toNat := by
      cases hr : consumes r <;> cases hs : consumes s <;> simp [consumes, hr, hs]
    omega
  | alt r s ihr ihs =>
    intro o ho
    rcases List.mem_append.mp ho with h | h
    · have h1 := ihr xs c o h
      have hand : (consumes (.alt r s)).toNat ≤ (consumes r).toNat := by
        cases hr : consumes r <;> cases hs : consumes s <;> simp [consumes, hr, hs]
      omega
    · have h1 := ihs xs c o h
      have hand : (consumes (.alt r s)).toNat ≤ (consumes s).toNat := by
        cases hr : consumes r <;> cases hs : consumes s <;> simp [consumes, hr, hs]
      omega
  | opt r ih =>
    intro o ho
    rcases List.mem_append.mp ho with h | h
    · have h1 := ih xs c o h
      simp only [consumes, Bool.toNat_false]
      omega
    · simp only [List.mem_singleton] at h
      simp [h, consumes]
  | many p min max =>
    intro o ho
    obtain ⟨ys, hys, rfl⟩ := List.mem_map.mp ho
    have h1 := greedyRests_length p min max xs ys hys
    cases min with
    | zero => simpa [consumes] using h1
    | succ n => simp [consumes]; omega
  | manyLazy p =>
    intro o ho
    obtain ⟨ys, hys, rfl⟩ := List.mem_map.mp ho
    simpa [consumes] using lazyRests_length p xs ys hys
  | group n r ih =>
    intro o ho
    obtain ⟨o', ho', rfl⟩ := List.mem_map.mp ho
    exact ih xs c o' ho'

theorem first_length {α : Type} {r : Re α} {xs ys : List α} {c c' : Caps α}
    (h : first r xs c = some (c', ys)) : ys.length+(consumes r).toNat ≤ xs.length :=
  run_length r xs c (c', ys) (List.mem_of_mem_head? h)

theorem search_length {α : Type} {r : Re α} {xs ys : List α} {c : Caps α}
    (h : search r xs = some (c, ys)) : ys.length+(consumes r).toNat ≤ xs.length := by
  induction xs with
  | nil => exact first_length h
  | cons x xs ih =>
    rcases Option.or_eq_some_iff.mp h with h | ⟨_, h⟩
    · exact first_length h
    · exact Nat.le_trans (ih h) (Nat.le_succ _)

/-- What a greedy run leaves comes behind a word of its class. -/
theorem mem_greedyRests {α : Type} {p : α → Bool} {min : ℕ} {max : Option ℕ} {xs ys : List α}
    (h : ys ∈ greedyRests p min max xs) :
    ∃ zs, xs = zs ++ ys ∧ (∀ z ∈ zs, p z = true) ∧ min ≤ zs.length := by
  induction xs generalizing min max with
  | nil =>
    cases min with
    | zero =>
      obtain rfl : ys = [] := by simpa [greedyRests] using h
      exact ⟨[], rfl, by simp, Nat.le_refl _⟩
    | succ n => simp [greedyRests] at h
  | cons x xs ih =>
    have step (m : Option ℕ) (hys : ys ∈ (if p x then greedyRests p (min-1) m xs else []) ++
        (if min = 0 then [x :: xs] else [])) :
        ∃ zs, x :: xs = zs ++ ys ∧ (∀ z ∈ zs, p z = true) ∧ min ≤ zs.length := by
      rcases List.mem_append.mp hys with hmem | hmem
      · split at hmem
        · rename_i hx
          obtain ⟨zs, hzs, hall, hlen⟩ := ih hmem
          refine ⟨x :: zs, by rw [hzs, List.cons_append], ?_, ?_⟩
          · exact List.forall_mem_cons.mpr ⟨hx, hall⟩
          · rw [List.length_cons]
            omega
        · simp at hmem
      · split at hmem
        · rename_i hmin
          rw [List.mem_singleton.mp hmem]
          exact ⟨[], rfl, by simp, by simp [hmin]⟩
        · simp at hmem
    rcases max with _ | _ | m
    · exact step none (by simpa [greedyRests] using h)
    · cases min with
      | zero =>
        obtain rfl : ys = x :: xs := by simpa [greedyRests] using h
        exact ⟨[], rfl, by simp, Nat.le_refl _⟩
      | succ n => simp [greedyRests] at h
    · exact step (some m) (by simpa [greedyRests] using h)

def captures {α : Type} : Re α → ℕ → Bool
  | .seq r s, n => captures r n || captures s n
  | .alt r s, n => captures r n || captures s n
  | .opt r, n => captures r n
  | .group m r, n => m == n || captures r n
  | _, _ => false

/-- A match leaves the groups alone that are not in the pattern. -/
theorem run_get {α : Type} {r : Re α} {n : ℕ} (hn : captures r n = false) (xs : List α)
    (c : Caps α) : ∀ o ∈ run r xs c, o.1.get n = c.get n := by
  induction r generalizing xs c with
  | cls p =>
    intro o ho
    obtain ⟨x, rest, _, _, rfl⟩ := mem_run_cls ho
    rfl
  | eos =>
    intro o ho
    rw [(mem_run_eos ho).2]
  | seq r s ihr ihs =>
    intro o ho
    simp only [captures, Bool.or_eq_false_iff] at hn
    obtain ⟨m, hm, hom⟩ := List.mem_flatMap.mp ho
    exact (ihs hn.2 m.2 m.1 o hom).trans (ihr hn.1 xs c m hm)
  | alt r s ihr ihs =>
    intro o ho
    simp only [captures, Bool.or_eq_false_iff] at hn
    rcases List.mem_append.mp ho with h | h
    · exact ihr hn.1 xs c o h
    · exact ihs hn.2 xs c o h
  | opt r ih =>
    intro o ho
    rcases List.mem_append.mp ho with h | h
    · exact ih hn xs c o h
    · rw [List.mem_singleton.mp h]
  | many p min max =>
    intro o ho
    obtain ⟨ys, _, rfl⟩ := List.mem_map.mp ho
    rfl
  | manyLazy p =>
    intro o ho
    obtain ⟨ys, _, rfl⟩ := List.mem_map.mp ho
    rfl
  | group m r ih =>
    intro o ho
    simp only [captures, Bool.or_eq_false_iff, beq_eq_false_iff_ne] at hn
    obtain ⟨o', ho', rfl⟩ := List.mem_map.mp ho
    exact (Caps.get_cons_ne hn.1 _ _).trans (ih hn.2 xs c o' ho')

theorem rangeFuel_enough {α : Type} (r : Re α) (hr : consumes r = true) (n m : ℕ) (xs : List α)
    (hn : xs.length ≤ n) (hm : xs.length ≤ m) : rangeFuel r n xs = rangeFuel r m xs := by
  have hnil (k : ℕ) : rangeFuel r k ([] : List α) = [] := by
    cases k with
    | zero => rfl
    | succ k =>
      simp only [rangeFuel]
      split
      · rfl
      · rename_i c ys h
        have := search_length h
        simp [hr] at this
  induction n generalizing m xs with
  | zero =>
    obtain rfl : xs = [] := List.length_eq_zero_iff.mp (by omega)
    rw [hnil, hnil]
  | succ n ih =>
    cases m with
    | zero =>
      obtain rfl : xs = [] := List.length_eq_zero_iff.mp (by omega)
      rw [hnil, hnil]
    | succ m =>
      simp only [rangeFuel]
      cases h : search r xs with
      | none => rfl
      | some o =>
        have hl := search_length h
        simp only [hr, Bool.toNat_true] at hl
        exact congrArg (o.1 :: ·) (ih m o.2 (by omega) (by omega))

/-- One search, then the searches of what follows it. -/
theorem range_eq {α : Type} (r : Re α) (hr : consumes r = true) (xs : List α) :
    range r xs = match search r xs with
      | none => []
      | some (c, ys) => c :: range r ys := by
  unfold range
  cases hxs : xs.length with
  | zero =>
    obtain rfl : xs = [] := List.length_eq_zero_iff.mp hxs
    cases h : search r ([] : List α) with
    | none => rfl
    | some o =>
      have hl : o.2.length+(consumes r).toNat ≤ ([] : List α).length := search_length h
      simp [hr] at hl
  | succ n =>
    simp only [rangeFuel]
    cases h : search r xs with
    | none => rfl
    | some o =>
      have hl : o.2.length+(consumes r).toNat ≤ xs.length := search_length h
      simp only [hr, Bool.toNat_true] at hl
      exact congrArg (o.1 :: ·) (rangeFuel_enough r hr n o.2.length o.2 (by omega) (Nat.le_refl _))

theorem range_of_search {α : Type} {r : Re α} (hr : consumes r = true) {xs ys : List α}
    {c : Caps α} (h : search r xs = some (c, ys)) : range r xs = c :: range r ys := by
  rw [range_eq r hr xs, h]

theorem search_of_first {α : Type} {r : Re α} {xs ys : List α} {c : Caps α}
    (h : first r xs [] = some (c, ys)) : search r xs = some (c, ys) := by
  cases xs with
  | nil => exact h
  | cons x xs => simp [search, h]

theorem search_cons_of_first_none {α : Type} {r : Re α} {x : α} {xs : List α}
    (h : first r (x :: xs) [] = none) : search r (x :: xs) = search r xs := by
  simp [search, h]

theorem first_cls_cons {α : Type} (p : α → Bool) (x : α) (xs : List α) (c : Caps α) :
    first (.cls p) (x :: xs) c = if p x then some (c, xs) else none := by
  simp only [first, run]
  split <;> rfl

theorem run_cls_seq {α : Type} (p : α → Bool) (s : Re α) (x : α) (xs : List α) (c : Caps α) :
    run (.seq (.cls p) s) (x :: xs) c = if p x then run s xs c else [] := by
  rw [run, run]
  split
  · exact List.flatMap_singleton _ _
  · rfl

theorem first_seq {α : Type} (r s : Re α) (xs : List α) (c : Caps α) :
    first (.seq r s) xs c = (run r xs c).findSome? (fun o => first s o.2 o.1) := by
  simp only [first, run, List.head?_flatMap]

/-- If the rest of the pattern goes on from the first match of its head, that match is kept. -/
theorem first_seq_of_first {α : Type} {r s : Re α} {xs ys : List α} {c c' : Caps α}
    {o : Caps α × List α} (hr : first r xs c = some (c', ys)) (hs : first s ys c' = some o) :
    first (.seq r s) xs c = some o := by
  rw [first_seq]
  obtain ⟨l, hl⟩ := List.head?_eq_some_iff.mp hr
  simp [hl, hs]

theorem first_opt {α : Type} (r : Re α) (xs : List α) (c : Caps α) :
    first (.opt r) xs c = some ((first r xs c).getD (c, xs)) := by
  simp only [first, run, List.head?_append, List.head?_cons]
  cases (run r xs c).head? <;> rfl

/-- An optional character is left out only if nothing goes on behind it. -/
theorem first_opt_cls_seq {α : Type} (p : α → Bool) (s : Re α) (x : α) (xs : List α)
    (c : Caps α) : first (.seq (.opt (.cls p)) s) (x :: xs) c =
      if p x then (first s xs c).or (first s (x :: xs) c) else first s (x :: xs) c := by
  rw [first_seq]
  by_cases hx : p x = true
  · simp only [run, hx, if_true, List.cons_append, List.nil_append, List.findSome?_cons,
      List.findSome?_nil]
    cases first s xs c <;> cases first s (x :: xs) c <;> rfl
  · simp only [run, if_neg hx, List.nil_append, List.findSome?_cons, List.findSome?_nil]
    cases first s (x :: xs) c <;> rfl

theorem first_group {α : Type} (n : ℕ) (r : Re α) (xs : List α) (c : Caps α) :
    first (.group n r) xs c =
      (first r xs c).map (fun o => ((n, xs.take (xs.length-o.2.length)) :: o.1, o.2)) := by
  simp only [first, run, List.head?_map]

/-- A captured group holds what its pattern consumed. -/
theorem first_group_append {α : Type} {n : ℕ} {r : Re α} {xs ys : List α} {c c' : Caps α}
    (h : first r (xs ++ ys) c = some (c', ys)) :
    first (.group n r) (xs ++ ys) c = some ((n, xs) :: c', ys) := by
  rw [first_group, h]
  simp

theorem first_group_all {α : Type} {n : ℕ} {r : Re α} {xs : List α} {c c' : Caps α}
    (h : first r xs c = some (c', [])) : first (.group n r) xs c = some ((n, xs) :: c', []) := by
  rw [first_group, h]
  simp

theorem first_many {α : Type} (p : α → Bool) (xs : List α) (c : Caps α) :
    first (.many p 0 none) xs c = some (c, xs.dropWhile p) := by
  have head : (greedyRests p 0 none xs).head? = some (xs.dropWhile p) := by
    induction xs with
    | nil => rfl
    | cons x xs ih =>
      by_cases hx : p x = true
      · simp [greedyRests, hx, ih]
      · simp [greedyRests, hx]
  simp only [first, run, List.head?_map, head, Option.map_some]

theorem first_many_one_cons {α : Type} {p : α → Bool} {x : α} (hx : p x = true) (xs : List α)
    (c : Caps α) : first (.many p 1 none) (x :: xs) c = some (c, xs.dropWhile p) := by
  have h := first_many p xs c
  simp only [first, run, List.head?_map] at h ⊢
  simpa [greedyRests, hx] using h

theorem run_many_one_of_not {α : Type} {p : α → Bool} {xs : List α}
    (hx : ∀ x ∈ xs.head?, p x = false) (c : Caps α) : run (.many p 1 none) xs c = [] := by
  cases xs with
  | nil => rfl
  | cons x xs => simp [run, greedyRests, hx x rfl]

/-- A greedy repetition followed by a character outside its class stops exactly there. -/
theorem first_many_append {α : Type} {p : α → Bool} {xs ys : List α} (hne : xs ≠ [])
    (hp : ∀ x ∈ xs, p x = true) (hy : ∀ y ∈ ys.head?, p y = false) (c : Caps α) :
    first (.many p 1 none) (xs ++ ys) c = some (c, ys) := by
  obtain ⟨x, xs, rfl⟩ := List.exists_cons_of_ne_nil hne
  rw [List.cons_append, first_many_one_cons (hp x List.mem_cons_self),
    List.dropWhile_append_of_pos (fun a ha => hp a (List.mem_cons_of_mem _ ha))]
  cases ys with
  | nil => rfl
  | cons y ys => rw [List.dropWhile_cons_of_neg (by simp [hy y rfl])]

/-- An optional repetition of at least one character is one of any number of them. -/
theorem first_opt_many {α : Type} (p : α → Bool) (xs : List α) (c : Caps α) :
    first (.opt (.many p 1 none)) xs c = some (c, xs.dropWhile p) := by
  cases xs with
  | nil => rfl
  | cons x xs =>
    by_cases hx : p x = true
    · rw [first_opt, first_many_one_cons hx, List.dropWhile_cons_of_pos hx]
      rfl
    · have hnone : run (.many p 1 none) (x :: xs) c = [] :=
        run_many_one_of_not (by simpa using hx) c
      rw [first_opt, first, hnone, List.dropWhile_cons_of_neg hx]
      rfl

theorem lazyRests_true {α : Type} (xs : List α) : lazyRests (fun _ => true) xs = xs.tails := by
  induction xs with
  | nil => rfl
  | cons x xs ih => simp [lazyRests, ih]

theorem first_many_zero_append {α : Type} {p : α → Bool} {xs ys : List α}
    (hp : ∀ x ∈ xs, p x = true) (hy : ∀ y ∈ ys.head?, p y = false) (c : Caps α) :
    first (.many p 0 none) (xs ++ ys) c = some (c, ys) := by
  rw [first_many, List.dropWhile_append_of_pos hp]
  cases ys with
  | nil => rfl
  | cons y ys => rw [List.dropWhile_cons_of_neg (by simp [hy y rfl])]

/-- A captured lazy repetition of everything takes what is in front of the first place from
which the rest of the pattern goes on. -/
theorem first_lazy_seq {α : Type} {n : ℕ} {s : Re α} {xs ys : List α} {c : Caps α}
    {o : Caps α × List α}
    (hxs : ∀ x zs, x :: zs <:+ xs → ∀ c', first s (x :: (zs ++ ys)) c' = none)
    (hys : first s ys ((n, xs) :: c) = some o) :
    first (.seq (.opt (.group n (.manyLazy (fun _ => true)))) s) (xs ++ ys) c = some o := by
  have htails (g : List α → Caps α) (us : List α) (hus : us <:+ xs)
      (hg : g ys = (n, xs) :: c) :
      (us ++ ys).tails.findSome? (fun zs => first s zs (g zs)) = some o := by
    induction us with
    | nil =>
      rw [List.nil_append]
      cases ys <;> simp [hg, hys]
    | cons u us ih =>
      simp only [List.cons_append, List.tails, List.findSome?_cons, hxs u us hus]
      exact ih ((List.suffix_cons u us).trans hus)
  have h := htails (fun zs => (n, (xs ++ ys).take ((xs ++ ys).length-zs.length)) :: c) xs
    List.suffix_rfl (by simp)
  rw [first_seq, run, List.findSome?_append]
  simp only [run, lazyRests_true, List.map_map, List.findSome?_map]
  exact Option.or_eq_some_iff.mpr (Or.inl h)

/-- The lazy repetition goes on to the end of the input if nothing else matches before. -/
theorem first_lazy_seq_isSome {α : Type} {n : ℕ} {s : Re α}
    (hs : ∀ c, (first s [] c).isSome = true) (xs : List α) (c : Caps α) :
    (first (.seq (.opt (.group n (.manyLazy (fun _ => true)))) s) xs c).isSome = true := by
  rw [first_seq, List.findSome?_isSome_iff]
  refine ⟨((n, xs.take xs.length) :: c, []), ?_, hs _⟩
  simp [run, lazyRests_true, List.mem_tails]

/-- The first of the shorter and shorter rests from which something goes on, where nothing goes on
in front of it. -/
theorem findSome_lazyRests {α β : Type} {p : α → Bool} {g : List α → Option β} {xs ys : List α}
    {b : β} (hp : ∀ x ∈ xs, p x = true) (hxs : ∀ x zs, x :: zs <:+ xs → g (x :: (zs ++ ys)) = none)
    (hys : g ys = some b) : (lazyRests p (xs ++ ys)).findSome? g = some b := by
  induction xs with
  | nil =>
    rw [List.nil_append]
    cases ys with
    | nil => simp [lazyRests, hys]
    | cons y ys => simp [lazyRests, hys]
  | cons x xs ih =>
    have hx : p x = true := hp x List.mem_cons_self
    have hnone := hxs x xs List.suffix_rfl
    rw [List.cons_append, lazyRests, List.findSome?_cons, hnone, if_pos hx]
    apply ih
    · exact fun y hy => hp y (List.mem_cons_of_mem _ hy)
    · exact fun y zs hsuf => hxs y zs (hsuf.trans (List.suffix_cons x xs))

/-- A captured lazy repetition of at least one character takes them up to the first place from which
the rest of the pattern goes on. -/
theorem first_lazyOne_seq {α : Type} {n : ℕ} {p : α → Bool} {s : Re α} {x : α} {xs ys : List α}
    {c : Caps α} {o : Caps α × List α} (hx : p x = true) (hp : ∀ y ∈ xs, p y = true)
    (hxs : ∀ y zs, y :: zs <:+ xs → ∀ c', first s (y :: (zs ++ ys)) c' = none)
    (hys : first s ys ((n, x :: xs) :: c) = some o) :
    first (.seq (.group n (.seq (.cls p) (.manyLazy p))) s) (x :: (xs ++ ys)) c = some o := by
  have hrun : run (.group n (.seq (.cls p) (.manyLazy p))) (x :: (xs ++ ys)) c =
      (lazyRests p (xs ++ ys)).map (fun zs =>
        ((n, (x :: (xs ++ ys)).take ((x :: (xs ++ ys)).length-zs.length)) :: c, zs)) := by
    simp [run, hx]
  rw [first_seq, hrun, List.findSome?_map]
  apply findSome_lazyRests hp
  · exact fun y zs hsuf => hxs y zs hsuf _
  · have hlen : (x :: (xs ++ ys)).length-ys.length = (x :: xs).length := by
      simp only [List.length_cons, List.length_append]
      omega
    have htake : (x :: (xs ++ ys)).take ((x :: (xs ++ ys)).length-ys.length) = x :: xs := by
      rw [hlen, ← List.cons_append, List.take_left]
    simpa only [Function.comp_apply, htake] using hys

def word {α : Type} [BEq α] : α → List α → Re α
  | x, [] => .cls (· == x)
  | x, y :: ys => .seq (.cls (· == x)) (word y ys)

theorem run_word {α : Type} [BEq α] [LawfulBEq α] (x : α) (ys xs : List α) (c : Caps α) :
    run (word x ys) xs c =
      if (x :: ys).isPrefixOf xs then [(c, xs.drop (ys.length+1))] else [] := by
  induction ys generalizing x xs with
  | nil =>
    cases xs with
    | nil => rfl
    | cons z zs =>
      have hcomm : (z == x) = (x == z) := BEq.comm
      have hstart : [x].isPrefixOf (z :: zs) = (x == z) := by
        rw [List.isPrefixOf_cons_cons, List.isPrefixOf_nil_left, Bool.and_true]
      rw [word, run, hcomm, hstart]
      rfl
  | cons y ys ih =>
    cases xs with
    | nil => rfl
    | cons z zs =>
      have hcomm : (z == x) = (x == z) := BEq.comm
      rw [word, run, run, hcomm, List.isPrefixOf_cons_cons]
      cases x == z with
      | false => rfl
      | true =>
        have hword := ih y zs
        simpa only [if_true, List.flatMap_singleton, Bool.true_and, List.length_cons,
          List.drop_succ_cons] using hword

def MatchesWords {α : Type} [BEq α] (r : Re α) (ws : List (List α)) : Prop :=
  ∀ xs c, run r xs c =
    (ws.filter (fun w => w.isPrefixOf xs)).map (fun w => (c, xs.drop w.length))

theorem isPrefixOf_append {α : Type} [BEq α] (v w xs : List α) : (v ++ w).isPrefixOf xs =
    (v.isPrefixOf xs && w.isPrefixOf (xs.drop v.length)) := by
  induction v generalizing xs with
  | nil => simp
  | cons x v ih =>
    cases xs with
    | nil => rfl
    | cons y xs =>
      rw [List.cons_append, List.isPrefixOf_cons_cons, List.isPrefixOf_cons_cons, ih,
        Bool.and_assoc, List.length_cons, List.drop_succ_cons]

section MatchesWords

variable {α : Type} [BEq α] {r s : Re α} {vs ws : List (List α)}

theorem matchesWords_word [LawfulBEq α] (x : α) (ys : List α) :
    MatchesWords (word x ys) [x :: ys] := by
  intro xs c
  rw [run_word, List.filter_cons, List.filter_nil]
  split <;> rfl

theorem MatchesWords.alt (hr : MatchesWords r vs) (hs : MatchesWords s ws) :
    MatchesWords (.alt r s) (vs ++ ws) := by
  intro xs c
  rw [run, hr, hs, List.filter_append, List.map_append]

theorem MatchesWords.opt (hr : MatchesWords r vs) : MatchesWords (.opt r) (vs ++ [[]]) := by
  intro xs c
  rw [run, hr, List.filter_append, List.map_append]
  rfl

theorem MatchesWords.seq (hr : MatchesWords r vs) (hs : MatchesWords s ws) :
    MatchesWords (.seq r s) (vs.flatMap (fun v => ws.map (v ++ ·))) := by
  intro xs c
  have hword (v : List α) : (if v.isPrefixOf xs then run s (xs.drop v.length) c else []) =
      ((ws.map (v ++ ·)).filter (fun w => w.isPrefixOf xs)).map
        (fun w => (c, xs.drop w.length)) := by
    simp only [List.filter_map, List.map_map, Function.comp_def, isPrefixOf_append,
      List.length_append, ← List.drop_drop]
    split
    · rename_i hv
      simp only [hv, Bool.true_and, hs _ c]
    · rename_i hv
      simp [hv]
  rw [run, hr]
  clear hr
  induction vs with
  | nil => rfl
  | cons v vs ih =>
    rw [List.flatMap_cons, List.filter_append, List.map_append, ← hword, ← ih, List.filter_cons]
    split <;> rfl

/-- What is captured of the words, where a fixed word follows them. -/
theorem MatchesWords.run_group_seq [LawfulBEq α] (hr : MatchesWords r vs) {w : List α}
    (hs : MatchesWords s [w]) (n : ℕ) (xs : List α) (c : Caps α) :
    run (.seq (.group n r) s) xs c = (vs.filter (fun v => (v ++ w).isPrefixOf xs)).map
      (fun v => ((n, v) :: c, xs.drop (v.length+w.length))) := by
  rw [run, run, hr]
  clear hr
  induction vs with
  | nil => rfl
  | cons v vs ih =>
    rw [List.filter_cons, List.filter_cons, isPrefixOf_append]
    cases hv : v.isPrefixOf xs with
    | false => exact ih
    | true =>
      obtain ⟨ys, rfl⟩ := List.isPrefixOf_iff_prefix.mp hv
      have htake : (v ++ ys).take ((v ++ ys).length-((v ++ ys).drop v.length).length) = v := by
        simp
      rw [if_pos rfl, List.map_cons, List.map_cons, List.flatMap_cons, ih, htake, hs,
        List.filter_cons, Bool.true_and]
      simp only [← List.drop_drop]
      split <;> rfl

end MatchesWords

/-- The first of the chosen elements from which something goes on. -/
theorem findSome_filter {α β : Type} {p q : α → Bool} {f : α → Option β}
    (hf : ∀ a, (f a).isSome = q a) (l : List α) :
    (l.filter p).findSome? f = (l.find? (fun a => p a && q a)).bind f := by
  induction l with
  | nil => rfl
  | cons a l ih =>
    have ha := hf a
    rw [List.filter_cons, List.find?_cons]
    cases hp : p a with
    | false => exact ih
    | true =>
      rw [if_pos rfl, List.findSome?_cons]
      cases hq : q a with
      | true =>
        rw [hq] at ha
        obtain ⟨b, hb⟩ := Option.isSome_iff_exists.mp ha
        rw [hb]
        exact hb.symm
      | false =>
        rw [hq, Option.isSome_eq_false_iff, Option.isNone_iff_eq_none] at ha
        rw [ha]
        exact ih

theorem fullMatch_of_ends {α : Type} {r : Re α} {xs : List α}
    (h : ∀ o ∈ run r xs [], o.2 = []) : fullMatch r xs = (first r xs []).map Prod.fst := by
  unfold fullMatch first
  cases hr : run r xs [] with
  | nil => rfl
  | cons o os => simp [h o (by simp [hr])]

theorem run_seq_ends {α : Type} {r s : Re α} (hs : ∀ xs c, ∀ o ∈ run s xs c, o.2 = [])
    (xs : List α) (c : Caps α) : ∀ o ∈ run (.seq r s) xs c, o.2 = [] := by
  intro o ho
  obtain ⟨m, _, hom⟩ := List.mem_flatMap.mp ho
  exact hs m.2 m.1 o hom

theorem run_eos_ends {α : Type} (xs : List α) (c : Caps α) :
    ∀ o ∈ run .eos xs c, o.2 = [] := by
  intro o ho
  obtain ⟨hnil, rfl⟩ := mem_run_eos ho
  exact hnil

theorem nil_mem_greedyRests {α : Type} (p : α → Bool) (min : ℕ) (max : Option ℕ) (xs : List α) :
    [] ∈ greedyRests p min max xs ↔
      (∀ x ∈ xs, p x = true) ∧ min ≤ xs.length ∧ ∀ m ∈ max, xs.length ≤ m := by
  induction xs generalizing min max with
  | nil =>
    cases min with
    | zero => simp [greedyRests]
    | succ n => simp [greedyRests]
  | cons x xs ih =>
    rcases max with _ | _ | m
    · have h := ih (min-1) none
      by_cases hx : p x = true
      · simp_all [greedyRests]
      · simp [greedyRests, hx]
    · cases min with
      | zero => simp [greedyRests]
      | succ n => simp [greedyRests]
    · have h := ih (min-1) (some m)
      by_cases hx : p x = true
      · simp_all [greedyRests]
      · simp [greedyRests, hx]

/-- A bounded class repetition matches the words of that class of admissible length. -/
theorem fullMatch_many {α : Type} (p : α → Bool) (min : ℕ) (max : Option ℕ) (xs : List α) :
    (fullMatch (.many p min max) xs).isSome ↔
      (∀ x ∈ xs, p x = true) ∧ min ≤ xs.length ∧ ∀ m ∈ max, xs.length ≤ m := by
  rw [← nil_mem_greedyRests]
  simp [fullMatch, run, List.isEmpty_iff]

end Backtrack
