import Mathlib.Data.List.Basic

/-! Resources with reference counts and slots whose owners may hold them. -/
namespace Ownership

variable {α H : Type} [DecidableEq H]

def owns (p : Option H) (h : H) : ℕ := if p = some h then 1 else 0

@[simp] theorem owns_none (h : H) : owns none h = 0 := rfl

@[simp] theorem owns_self (h : H) : owns (some h) h = 1 := if_pos rfl

theorem owns_eq_zero_of_forall {p : Option H} (hp : ∀ h, owns p h = 0) : p = none := by
  cases p with
  | none => rfl
  | some h =>
    have hone := hp h
    rw [owns_self] at hone
    omega

/-- How many slots hold the resource; a slot is empty once its owner is gone. -/
def holders (held : α → Option H) (slots : List (Option α)) (h : H) : ℕ :=
  slots.countP (fun s => decide (s.bind held = some h))

variable (held : α → Option H) {slots : List (Option α)}

theorem holders_append (s : Option α) (h : H) :
    holders held (slots ++ [s]) h = holders held slots h + owns (s.bind held) h := by
  unfold holders owns
  rw [List.countP_append, List.countP_singleton]
  simp only [decide_eq_true_eq]

theorem owns_le_holders {i : ℕ} {s : Option α} (hs : slots[i]? = some s) (h : H) :
    owns (s.bind held) h ≤ holders held slots h := by
  unfold owns
  split
  · rename_i hheld
    apply List.countP_pos_iff.mpr
    exact ⟨s, List.mem_of_getElem? hs, decide_eq_true hheld⟩
  · exact Nat.zero_le _

theorem holders_set {i : ℕ} {s : Option α} (hs : slots[i]? = some s) (s' : Option α) (h : H) :
    holders held (slots.set i s') h + owns (s.bind held) h =
      holders held slots h + owns (s'.bind held) h := by
  obtain ⟨hlt, hget⟩ := List.getElem?_eq_some_iff.mp hs
  have hle := owns_le_holders held hs h
  unfold holders owns at *
  rw [List.countP_set hlt, hget]
  simp only [decide_eq_true_eq]
  omega

/-- Two slots that hold the same resource are counted twice. -/
theorem owns_add_le_holders {i j : ℕ} {s t : Option α} (hij : i ≠ j) (hs : slots[i]? = some s)
    (ht : slots[j]? = some t) (h : H) :
    owns (s.bind held) h + owns (t.bind held) h ≤ holders held slots h := by
  have hset := holders_set held hs none h
  have hother : (slots.set i none)[j]? = some t := by
    rw [List.getElem?_set_ne hij]
    exact ht
  have hle := owns_le_holders held hother h
  simp only [Option.bind_none, owns_none] at hset
  omega

theorem holders_eq_zero (hgone : ∀ s ∈ slots, s = none) (h : H) : holders held slots h = 0 := by
  apply List.countP_eq_zero.mpr
  intro s hs
  rw [hgone s hs]
  simp

def count (refs : List ℕ) (h : ℕ) : ℕ := refs.getD h 0

def acquire (refs : List ℕ) (h : ℕ) : List ℕ := refs.modify h (· + 1)

def release (refs : List ℕ) (h : ℕ) : List ℕ := refs.modify h (· - 1)

variable {refs : List ℕ}

theorem count_fresh (h : ℕ) :
    count (refs ++ [1]) h = count refs h + owns (some refs.length) h := by
  unfold count owns
  rw [List.getD_eq_getElem?_getD, List.getD_eq_getElem?_getD, List.getElem?_append]
  by_cases hlt : h < refs.length
  · have hne : ¬some refs.length = some h := by
      intro heq
      cases heq
      exact Nat.lt_irrefl _ hlt
    rw [if_pos hlt, if_neg hne, Nat.add_zero]
  · have hnone : refs[h]? = none := List.getElem?_eq_none (Nat.not_lt.mp hlt)
    rw [if_neg hlt, hnone]
    by_cases heq : refs.length = h
    · simp [heq]
    · have hpos : h - refs.length ≠ 0 := by omega
      simp [heq, hpos]

theorem count_modify {f : ℕ → ℕ} {h : ℕ} (hpos : 0 < count refs h) (h' : ℕ) :
    count (refs.modify h f) h' = if h = h' then f (count refs h) else count refs h' := by
  have hlt : h < refs.length := by
    by_contra hge
    have hzero : count refs h = 0 := by
      simp [count, List.getElem?_eq_none (Nat.not_lt.mp hge)]
    omega
  unfold count
  simp only [List.getD_eq_getElem?_getD]
  rw [List.getElem?_modify]
  by_cases heq : h = h'
  · subst heq
    simp [hlt]
  · simp [heq]

theorem count_acquire {h : ℕ} (hpos : 0 < count refs h) (h' : ℕ) :
    count (acquire refs h) h' = count refs h' + owns (some h) h' := by
  rw [acquire, count_modify hpos]
  by_cases heq : h = h'
  · rw [if_pos heq, heq, owns_self]
  · have hzero : owns (some h) h' = 0 := if_neg (by simpa using heq)
    rw [if_neg heq, hzero, Nat.add_zero]

theorem count_release {h : ℕ} (hpos : 0 < count refs h) (h' : ℕ) :
    count (release refs h) h' + owns (some h) h' = count refs h' := by
  rw [release, count_modify hpos]
  by_cases heq : h = h'
  · subst heq
    rw [if_pos rfl, owns_self]
    omega
  · have hzero : owns (some h) h' = 0 := if_neg (by simpa using heq)
    rw [if_neg heq, hzero, Nat.add_zero]

end Ownership
