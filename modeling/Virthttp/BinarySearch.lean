import Mathlib.Data.List.TakeWhile
import Mathlib.Tactic.Common

/-! Binary search for the end of the part of a list on which a test holds, by halving the range
that is left. -/
namespace BinarySearch

variable {α β : Type}

/-- The loop of `std::lower_bound` on the `len` places from `first` on. -/
def lowerBoundLoop (p : α → Bool) (xs : List α) (first len : ℕ) : ℕ :=
  if len = 0 then first
  else
    let half := len/2
    if (xs[first+half]?).any p then lowerBoundLoop p xs (first+half+1) (len-half-1)
    else lowerBoundLoop p xs first half
termination_by len

def lowerBound (p : α → Bool) (xs : List α) : ℕ := lowerBoundLoop p xs 0 xs.length

/-- The test holds in front of every place where it holds. -/
def Partitioned (p : α → Bool) (xs : List α) : Prop :=
  xs.Pairwise (fun a b => p b = true → p a = true)

theorem Partitioned.getElem {p : α → Bool} {xs : List α} (h : Partitioned p xs) {i j : ℕ}
    (hij : i ≤ j) (hi : i < xs.length) (hj : j < xs.length) (hp : p xs[j] = true) :
    p xs[i] = true := by
  rcases Nat.lt_or_eq_of_le hij with hlt | rfl
  · exact List.pairwise_iff_getElem.mp h i j (by omega) hj hlt hp
  · exact hp

structure Around (p : α → Bool) (xs : List α) (first len : ℕ) : Prop where
  within : first+len ≤ xs.length
  front : ∀ i (h : i < xs.length), i < first → p xs[i] = true
  back : ∀ i (h : i < xs.length), first+len ≤ i → p xs[i] = false

theorem lowerBoundLoop_around {p : α → Bool} {xs : List α} (hxs : Partitioned p xs) (len : ℕ) :
    ∀ first, Around p xs first len → Around p xs (lowerBoundLoop p xs first len) 0 := by
  induction len using Nat.strong_induction_on with
  | _ len ih =>
    intro first h
    unfold lowerBoundLoop
    by_cases hlen : len = 0
    · subst hlen
      simpa using h
    · have hwithin := h.within
      have hmid : first+len/2 < xs.length := by omega
      rw [if_neg hlen]
      simp only [List.getElem?_eq_getElem hmid, Option.any_some]
      cases hp : p xs[first+len/2] with
      | true =>
        rw [if_pos rfl]
        apply ih (len-len/2-1) (by omega)
        refine ⟨by omega, fun i hi hlt => ?_, fun i hi hle => h.back i hi (by omega)⟩
        exact hxs.getElem (by omega) hi hmid hp
      | false =>
        rw [if_neg (by simp)]
        apply ih (len/2) (by omega)
        refine ⟨by omega, h.front, fun i hi hle => ?_⟩
        by_contra hpi
        have htrue : p xs[i] = true := by simpa using hpi
        rw [hxs.getElem hle hmid hi htrue] at hp
        contradiction

theorem lowerBound_around {p : α → Bool} {xs : List α} (hxs : Partitioned p xs) :
    Around p xs (lowerBound p xs) 0 := by
  apply lowerBoundLoop_around hxs
  exact ⟨by omega, fun i hi hlt => by omega, fun i hi hle => by omega⟩

theorem lowerBound_le {p : α → Bool} {xs : List α} (hxs : Partitioned p xs) :
    lowerBound p xs ≤ xs.length := (lowerBound_around hxs).within

/-- What is in front of the place found passes the test. -/
theorem of_mem_take_lowerBound {p : α → Bool} {xs : List α} (hxs : Partitioned p xs) {a : α}
    (h : a ∈ xs.take (lowerBound p xs)) : p a = true := by
  obtain ⟨i, hi, rfl⟩ := List.mem_take_iff_getElem.mp h
  exact (lowerBound_around hxs).front i (by omega) (by omega)

/-- What is from the place found on fails it. -/
theorem of_mem_drop_lowerBound {p : α → Bool} {xs : List α} (hxs : Partitioned p xs) {a : α}
    (h : a ∈ xs.drop (lowerBound p xs)) : p a = false := by
  obtain ⟨i, hi, rfl⟩ := List.mem_drop_iff_getElem.mp h
  exact (lowerBound_around hxs).back _ (by omega) (by omega)

theorem take_lowerBound {p : α → Bool} {xs : List α} (hxs : Partitioned p xs) :
    xs.take (lowerBound p xs) = xs.takeWhile p := by
  have hfront : ∀ a ∈ xs.take (lowerBound p xs), p a = true :=
    fun a => of_mem_take_lowerBound hxs
  have hback : (xs.drop (lowerBound p xs)).takeWhile p = [] := by
    cases hd : xs.drop (lowerBound p xs) with
    | nil => rfl
    | cons b bs =>
      have hb : p b = false := of_mem_drop_lowerBound hxs (hd ▸ List.mem_cons_self)
      rw [List.takeWhile_cons_of_neg (by simp [hb])]
  calc xs.take (lowerBound p xs)
      = xs.take (lowerBound p xs) ++ (xs.drop (lowerBound p xs)).takeWhile p := by
        rw [hback, List.append_nil]
    _ = (xs.take (lowerBound p xs) ++ xs.drop (lowerBound p xs)).takeWhile p :=
        (List.takeWhile_append_of_pos hfront).symm
    _ = xs.takeWhile p := by rw [List.take_append_drop]

theorem drop_lowerBound {p : α → Bool} {xs : List α} (hxs : Partitioned p xs) :
    xs.drop (lowerBound p xs) = xs.dropWhile p := by
  apply List.append_cancel_left
  rw [List.take_append_drop (lowerBound p xs), take_lowerBound hxs, List.takeWhile_append_dropWhile]

/-- The search on the keys of a list goes the same way as the search on the list. -/
theorem lowerBound_map (p : β → Bool) (f : α → β) (xs : List α) :
    lowerBound p (xs.map f) = lowerBound (fun a => p (f a)) xs := by
  have hloop (len : ℕ) : ∀ first, lowerBoundLoop p (xs.map f) first len =
      lowerBoundLoop (fun a => p (f a)) xs first len := by
    induction len using Nat.strong_induction_on with
    | _ len ih =>
      intro first
      rw [lowerBoundLoop, lowerBoundLoop]
      by_cases hlen : len = 0
      · rw [if_pos hlen, if_pos hlen]
      · have htest : ((xs.map f)[first+len/2]?).any p =
            (xs[first+len/2]?).any (fun a => p (f a)) := by
          rw [List.getElem?_map, Option.any_map]
        rw [if_neg hlen, if_neg hlen]
        simp only [htest]
        rw [ih (len-len/2-1) (by omega), ih (len/2) (by omega)]
  rw [lowerBound, lowerBound, List.length_map, hloop]

end BinarySearch
