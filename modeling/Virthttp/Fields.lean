import Mathlib.Data.List.TakeWhile
import Mathlib.Tactic.Common

/-! Texts that are cut at separators, over an arbitrary alphabet. -/
namespace Fields

variable {α : Type} {p : α → Bool}

/-- What ends a run is not in it. -/
theorem head_dropWhile (p : α → Bool) (xs : List α) :
    ∀ x ∈ (xs.dropWhile p).head?, p x = false := by
  have hhead := List.head?_dropWhile_not p xs
  intro x hx
  rw [Option.mem_def] at hx
  simpa [hx] using hhead

/-- A text is its last field, or a field, a separator and a text. -/
theorem fields_induction {P : List α → Prop} (last : ∀ f, (∀ x ∈ f, p x = false) → P f)
    (step : ∀ f s rest, (∀ x ∈ f, p x = false) → p s = true → P rest → P (f ++ s :: rest))
    (xs : List α) : P xs := by
  induction hn : xs.length using Nat.strong_induction_on generalizing xs with
  | _ n ih =>
    have hsplit : xs.takeWhile (fun x => !p x) ++ xs.dropWhile (fun x => !p x) = xs :=
      List.takeWhile_append_dropWhile
    have hfield : ∀ x ∈ xs.takeWhile (fun x => !p x), p x = false := by
      intro x hx
      simpa using List.mem_takeWhile_imp hx
    cases hrest : xs.dropWhile (fun x => !p x) with
    | nil =>
      rw [hrest, List.append_nil] at hsplit
      rw [← hsplit]
      exact last _ hfield
    | cons s rest =>
      have hs : p s = true := by
        have hhead := head_dropWhile (fun x => !p x) xs s (by rw [hrest]; rfl)
        simpa using hhead
      have hlen : rest.length < n := by
        have := congrArg List.length hsplit
        rw [hrest, List.length_append, List.length_cons] at this
        omega
      rw [← hsplit, hrest]
      exact step _ s rest hfield hs (ih rest.length hlen rest rfl)

theorem not_sep_of_mem_field {xs f : List α} (hf : f ∈ xs.splitOnP p) : ∀ x ∈ f, p x = false := by
  induction xs using fields_induction (p := p) with
  | last g hg =>
    rw [List.splitOnP_eq_singleton hg, List.mem_singleton] at hf
    rw [hf]
    exact hg
  | step g s rest hg hs ih =>
    rw [List.splitOnP_append_cons_of_forall_mem hg s hs, List.mem_cons] at hf
    rcases hf with rfl | hf
    · exact hg
    · exact ih hf

def upTo (P : List α → Bool) : List α → List α
  | [] => []
  | x :: xs => if P (x :: xs) then [] else x :: upTo P xs

def fromOn (P : List α → Bool) : List α → List α
  | [] => []
  | x :: xs => if P (x :: xs) then x :: xs else fromOn P xs

variable {P : List α → Bool}

theorem upTo_append_fromOn (xs : List α) : upTo P xs ++ fromOn P xs = xs := by
  induction xs with
  | nil => rfl
  | cons x xs ih =>
    rw [upTo, fromOn]
    split
    · rfl
    · rw [List.cons_append, ih]

theorem fromOn_cases (xs : List α) : fromOn P xs = [] ∨ P (fromOn P xs) = true := by
  induction xs with
  | nil => exact Or.inl rfl
  | cons x xs ih =>
    rw [fromOn]
    split
    · rename_i hx
      exact Or.inr hx
    · exact ih

theorem upTo_eq_self {xs : List α} (h : ∀ y ys, y :: ys <:+ xs → P (y :: ys) = false) :
    upTo P xs = xs := by
  induction xs with
  | nil => rfl
  | cons x xs ih =>
    rw [upTo, h x xs List.suffix_rfl, if_neg Bool.false_ne_true]
    rw [ih fun y ys hsuf => h y ys (hsuf.trans (List.suffix_cons x xs))]

/-- No suffix that starts in front of that place has the property. -/
theorem not_of_suffix_upTo {xs ys : List α} {y : α} (h : y :: ys <:+ upTo P xs) :
    P (y :: (ys ++ fromOn P xs)) = false := by
  induction xs with
  | nil => simp [upTo] at h
  | cons x xs ih =>
    rw [fromOn]
    rw [upTo] at h
    split at h
    · simp at h
    · rename_i hx
      rw [if_neg hx]
      rcases List.suffix_cons_iff.mp h with heq | hsuf
      · cases heq
        rw [upTo_append_fromOn]
        simpa using hx
      · exact ih hsuf

/-- The place is looked for behind a text in which it cannot be. -/
theorem fromOn_append {xs ys : List α}
    (hxs : ∀ z zs, z :: zs <:+ xs → P (z :: (zs ++ ys)) = false) :
    fromOn P (xs ++ ys) = fromOn P ys := by
  induction xs with
  | nil => rfl
  | cons x xs ih =>
    have hx := hxs x xs List.suffix_rfl
    rw [List.cons_append, fromOn, hx]
    exact ih fun z zs hsuf => hxs z zs (hsuf.trans (List.suffix_cons x xs))

section Cut

variable [DecidableEq α] {s : α} {a b xs : List α}

def cut (s : α) (xs : List α) : List α × List α :=
  (xs.takeWhile (· != s), (xs.dropWhile (· != s)).drop 1)

def withSep (s : α) (xs : List α) : List α := if xs = [] then [] else s :: xs

theorem cut_append_cons (ha : s ∉ a) : cut s (a ++ s :: b) = (a, b) := by
  have hchars : ∀ c ∈ a, (c != s) = true := by
    intro c hc
    rw [bne_iff_ne]
    rintro rfl
    exact ha hc
  rw [cut, List.takeWhile_append_of_pos hchars, List.dropWhile_append_of_pos hchars]
  simp

theorem cut_of_not_mem (ha : s ∉ a) : cut s a = (a, []) := by
  have hchars : ∀ c ∈ a, (c != s) = true := by
    intro c hc
    rw [bne_iff_ne]
    rintro rfl
    exact ha hc
  rw [cut, List.takeWhile_eq_self_iff.mpr hchars, List.dropWhile_eq_nil_iff.mpr hchars]
  rfl

theorem cut_append_withSep (ha : s ∉ a) : cut s (a ++ withSep s b) = (a, b) := by
  unfold withSep
  split
  · rename_i hb
    rw [List.append_nil, cut_of_not_mem ha, hb]
  · exact cut_append_cons ha

theorem not_mem_cut : s ∉ (cut s xs).1 := by
  intro h
  simpa using List.mem_takeWhile_imp h

theorem mem_of_mem_cut_fst {c : α} (h : c ∈ (cut s xs).1) : c ∈ xs :=
  (List.takeWhile_prefix _).subset h

theorem mem_of_mem_cut_snd {c : α} (h : c ∈ (cut s xs).2) : c ∈ xs :=
  ((List.drop_suffix _ _).trans (List.dropWhile_suffix _)).subset h

/-- Put together again, the two texts are the one that was cut, up to a separator at its end. -/
theorem cut_prefix (s : α) (xs : List α) : (cut s xs).1 ++ withSep s (cut s xs).2 <+: xs := by
  have hsplit : xs.takeWhile (· != s) ++ xs.dropWhile (· != s) = xs :=
    List.takeWhile_append_dropWhile
  unfold cut withSep
  cases hrest : xs.dropWhile (· != s) with
  | nil =>
    rw [hrest, List.append_nil] at hsplit
    simp [hsplit]
  | cons x rest =>
    have hx : x = s := by
      simpa using head_dropWhile (· != s) xs x (by rw [hrest]; rfl)
    subst hx
    rw [hrest] at hsplit
    split
    · rename_i hnil
      rw [List.append_nil]
      exact List.takeWhile_prefix _
    · exact ⟨[], by simpa using hsplit⟩

end Cut

end Fields
