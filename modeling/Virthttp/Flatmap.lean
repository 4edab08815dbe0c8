import Virthttp.Common
import Mathlib.Data.List.Lex
import Mathlib.Data.List.Sort
import Mathlib.Data.List.TakeWhile

namespace Virthttp

/-- A strict weak order, as `Compare` has to be. -/
structure Compare (K : Type) where
  lt : K → K → Bool
  irrefl : ∀ a, lt a a = false
  trans : ∀ a b c, lt a b = true → lt b c = true → lt a c = true
  incomp : ∀ a b c, lt a b = true → lt a c = true ∨ lt c b = true

namespace Compare

variable {K : Type} (comp : Compare K)

def equiv (a b : K) : Bool := !comp.lt a b && !comp.lt b a

def less (K : Type) [LinearOrder K] : Compare K where
  lt a b := decide (a < b)
  irrefl a := by simp
  trans a b c := by
    simp only [decide_eq_true_eq]
    exact lt_trans
  incomp a b c h := by
    simp only [decide_eq_true_eq] at h ⊢
    rcases lt_or_ge a c with hac | hca
    · exact Or.inl hac
    · exact Or.inr (lt_of_le_of_lt hca h)

theorem equiv_less {K : Type} [LinearOrder K] {a b : K} :
    (less K).equiv a b = true ↔ a = b := by
  simp only [equiv, less, Bool.and_eq_true, Bool.not_eq_true', decide_eq_false_iff_not, not_lt]
  exact ⟨fun h => le_antisymm h.2 h.1, fun h => ⟨h.ge, h.le⟩⟩

end Compare

structure Flatmap {K : Type} (V : Type) (comp : Compare K) where
  values : List (K × V)
  sorted : values.Pairwise (fun a b => comp.lt a.1 b.1 = true)

namespace Flatmap

variable {K V : Type} {comp : Compare K}

def empty : Flatmap V comp := ⟨[], List.Pairwise.nil⟩

/-- `std::lower_bound` cuts the pairs into those in front of the key and the others. -/
def before (m : Flatmap V comp) (key : K) : List (K × V) :=
  m.values.takeWhile (fun e => comp.lt e.1 key)

def rest (m : Flatmap V comp) (key : K) : List (K × V) :=
  m.values.dropWhile (fun e => comp.lt e.1 key)

/-- `find_key`, as the pair it points to where the match is exact. -/
def findKey (m : Flatmap V comp) (key : K) : Option (K × V) :=
  (m.rest key).head?.filter (fun e => !comp.lt key e.1)

def find (m : Flatmap V comp) (key : K) : Option V := (m.findKey key).map Prod.snd

theorem before_append_rest (m : Flatmap V comp) (key : K) :
    m.before key ++ m.rest key = m.values := List.takeWhile_append_dropWhile

theorem lt_of_mem_before {m : Flatmap V comp} {key : K} {e : K × V} (h : e ∈ m.before key) :
    comp.lt e.1 key = true := by
  have himp := List.mem_takeWhile_imp h
  exact himp

theorem not_lt_of_mem_rest {m : Flatmap V comp} {key : K} {e : K × V} (h : e ∈ m.rest key) :
    comp.lt e.1 key = false := by
  have hsort : (m.rest key).Pairwise (fun a b => comp.lt a.1 b.1 = true) :=
    m.sorted.sublist (List.dropWhile_sublist _)
  cases hr : m.rest key with
  | nil => simp [hr] at h
  | cons x xs =>
    have hx : comp.lt x.1 key = false := by
      have hhead := List.head?_dropWhile_not (fun e => comp.lt e.1 key) m.values
      unfold rest at hr
      simpa [hr] using hhead
    rw [hr] at h hsort
    rcases List.mem_cons.mp h with rfl | hmem
    · exact hx
    · by_contra hlt
      have hxe := (List.pairwise_cons.mp hsort).1 e hmem
      rw [comp.trans x.1 e.1 key hxe (by simpa using hlt)] at hx
      contradiction

/-- Without an exact match the key comes before all the pairs that are not before it. -/
theorem lt_of_mem_rest {m : Flatmap V comp} {key : K} (hnone : m.findKey key = none)
    {e : K × V} (h : e ∈ m.rest key) : comp.lt key e.1 = true := by
  have hsort : (m.rest key).Pairwise (fun a b => comp.lt a.1 b.1 = true) :=
    m.sorted.sublist (List.dropWhile_sublist _)
  unfold findKey at hnone
  cases hr : m.rest key with
  | nil => simp [hr] at h
  | cons x xs =>
    have hx : comp.lt key x.1 = true := by simpa [hr, Option.filter] using hnone
    rw [hr] at h hsort
    rcases List.mem_cons.mp h with rfl | hmem
    · exact hx
    · exact comp.trans key x.1 e.1 hx ((List.pairwise_cons.mp hsort).1 e hmem)

def emplace (m : Flatmap V comp) (key : K) (v : V) : Flatmap V comp :=
  match hm : m.findKey key with
  | some _ => m
  | none => ⟨m.before key ++ (key, v) :: m.rest key, by
      have hsort := m.sorted
      rw [← m.before_append_rest key, List.pairwise_append] at hsort
      obtain ⟨hb, hr, hbr⟩ := hsort
      refine List.pairwise_append.mpr ⟨hb, List.pairwise_cons.mpr ⟨?_, hr⟩, ?_⟩
      · exact fun e he => lt_of_mem_rest hm he
      · intro a ha b hb'
        rcases List.mem_cons.mp hb' with rfl | hb'
        · exact lt_of_mem_before ha
        · exact hbr a ha b hb'⟩

theorem equiv_of_lt {a b : K} (h : comp.lt a b = true) : comp.equiv a b = false := by
  simp [Compare.equiv, h]

theorem equiv_of_gt {a b : K} (h : comp.lt b a = true) : comp.equiv a b = false := by
  simp [Compare.equiv, h]

/-- The pair found is the one with an equivalent key, of which there is at most one. -/
theorem findKey_eq (m : Flatmap V comp) (key : K) :
    m.findKey key = m.values.find? (fun e => comp.equiv e.1 key) := by
  have hb : (m.before key).find? (fun e => comp.equiv e.1 key) = none := by
    rw [List.find?_eq_none]
    intro e he
    simp [equiv_of_lt (lt_of_mem_before he)]
  rw [← m.before_append_rest key, List.find?_append, hb, Option.none_or, findKey]
  have hsort : (m.rest key).Pairwise (fun a b => comp.lt a.1 b.1 = true) :=
    m.sorted.sublist (List.dropWhile_sublist _)
  have hlow := fun e (h : e ∈ m.rest key) => not_lt_of_mem_rest h
  cases hr : m.rest key with
  | nil => rfl
  | cons x xs =>
    rw [hr] at hsort hlow
    have hx := hlow x List.mem_cons_self
    cases hlt : comp.lt key x.1 with
    | false => simp [Option.filter, Compare.equiv, hx, hlt]
    | true =>
      have hxs : xs.find? (fun e => comp.equiv e.1 key) = none := by
        rw [List.find?_eq_none]
        intro e he
        have := comp.trans key x.1 e.1 hlt ((List.pairwise_cons.mp hsort).1 e he)
        simp [equiv_of_gt this]
      rw [List.find?_cons_of_neg (by simp [equiv_of_gt hlt]), hxs]
      simp [Option.filter, hlt]

theorem lt_congr {a b c : K} (h : comp.equiv a b = true) :
    comp.lt c a = comp.lt c b ∧ comp.lt a c = comp.lt b c := by
  simp only [Compare.equiv, Bool.and_eq_true, Bool.not_eq_true'] at h
  constructor
  · rw [Bool.eq_iff_iff]
    constructor
    · intro hca
      rcases comp.incomp c a b hca with hcb | hba
      · exact hcb
      · simp [h.2] at hba
    · intro hcb
      rcases comp.incomp c b a hcb with hca | hab
      · exact hca
      · simp [h.1] at hab
  · rw [Bool.eq_iff_iff]
    constructor
    · intro hac
      rcases comp.incomp a c b hac with hab | hbc
      · simp [h.1] at hab
      · exact hbc
    · intro hbc
      rcases comp.incomp b c a hbc with hba | hac
      · simp [h.2] at hba
      · exact hac

theorem equiv_congr {a b c : K} (h : comp.equiv a b = true) :
    comp.equiv c a = comp.equiv c b := by
  simp only [Compare.equiv, (lt_congr h).1, (lt_congr h).2]

theorem find_less_eq_some {K : Type} [LinearOrder K] {m : Flatmap V (Compare.less K)} {key : K}
    {v : V} : m.find key = some v ↔ (key, v) ∈ m.values := by
  have hsort := m.sorted
  rw [find, findKey_eq]
  generalize m.values = es at hsort ⊢
  induction es with
  | nil => simp
  | cons e es ih =>
    obtain ⟨hfirst, hes⟩ := List.pairwise_cons.mp hsort
    rw [List.find?_cons]
    cases heq : (Compare.less K).equiv e.1 key with
    | false =>
      have hne : (key, v) ≠ e := by
        intro h
        have hrefl : (Compare.less K).equiv key key = true := Compare.equiv_less.mpr rfl
        rw [← h, hrefl] at heq
        cases heq
      rw [List.mem_cons, or_iff_right hne]
      exact ih hes
    | true =>
      obtain rfl := Compare.equiv_less.mp heq
      have hnot : (e.1, v) ∉ es := by
        intro hmem
        have hlt := hfirst _ hmem
        rw [(Compare.less K).irrefl] at hlt
        cases hlt
      rw [List.mem_cons, or_iff_left hnot]
      simp [Prod.ext_iff, eq_comm]

/-- The map is given by what is found in it. -/
theorem eq_of_find {K : Type} [LinearOrder K] {m m' : Flatmap V (Compare.less K)}
    (h : ∀ key, m.find key = m'.find key) : m = m' := by
  have hmem (e : K × V) : e ∈ m.values ↔ e ∈ m'.values := by
    rw [← find_less_eq_some, ← find_less_eq_some, h]
  have hirrefl : Std.Irrefl (fun a b : K × V => (Compare.less K).lt a.1 b.1 = true) :=
    ⟨fun a => by simp [(Compare.less K).irrefl]⟩
  have hantisymm : Std.Antisymm (fun a b : K × V => (Compare.less K).lt a.1 b.1 = true) := by
    constructor
    intro a b hab hba
    have haa := (Compare.less K).trans _ _ _ hab hba
    rw [(Compare.less K).irrefl] at haa
    cases haa
  have hvalues := m.sorted.eq_of_mem_iff m'.sorted hmem
  cases m
  cases m'
  simpa using hvalues

end Flatmap

end Virthttp
