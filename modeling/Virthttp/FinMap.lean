import Mathlib.Data.Set.Card
import Mathlib.Data.List.Pairwise

/-! Finite maps whose keys are told apart up to an equivalence, and the lists of pairs that hold
one. The key that is stored is the one that came first. -/

variable {K V : Type}

/-- For every key the pair stored for it. -/
@[ext]
structure FinMap (r : Setoid K) (V : Type) where
  entry : K → Option (K × V)
  congr : ∀ {a b}, r a b → entry a = entry b
  own : ∀ {k e}, entry k = some e → r e.1 k
  finite : {e | entry e.1 = some e}.Finite

namespace FinMap

variable {r : Setoid K}

def entries (m : FinMap r V) : Set (K × V) := {e | m.entry e.1 = some e}

noncomputable def size (m : FinMap r V) : ℕ := m.entries.ncard

def get (m : FinMap r V) (k : K) : Option V := (m.entry k).map Prod.snd

def empty : FinMap r V where
  entry _ := none
  congr _ := rfl
  own h := by contradiction
  finite := by simp

open Classical in
noncomputable def set (m : FinMap r V) (e : K × V) : FinMap r V where
  entry k := if r e.1 k then some e else m.entry k
  congr {a b} hab := by
    have hiff : r e.1 a ↔ r e.1 b := ⟨fun h => r.trans h hab, fun h => r.trans h (r.symm hab)⟩
    simp only [hiff, m.congr hab]
  own {k e'} h := by
    split at h
    · rename_i hk
      cases h
      exact hk
    · exact m.own h
  finite := by
    apply (m.finite.insert e).subset
    intro e' he'
    by_cases h : r e.1 e'.1
    · exact Or.inl (by simpa [h] using he'.symm)
    · exact Or.inr (by simpa [h] using he')

open Classical in
noncomputable def remove (m : FinMap r V) (k : K) : FinMap r V where
  entry k' := if r k k' then none else m.entry k'
  congr {a b} hab := by
    have hiff : r k a ↔ r k b := ⟨fun h => r.trans h hab, fun h => r.trans h (r.symm hab)⟩
    simp only [hiff, m.congr hab]
  own {k' e} h := by
    split at h
    · contradiction
    · exact m.own h
  finite := by
    apply m.finite.subset
    intro e he
    by_cases h : r k e.1
    · simp [h] at he
    · simpa [h] using he

noncomputable def insert (m : FinMap r V) (k : K) (v : V) : FinMap r V :=
  match m.entry k with
  | some _ => m
  | none => m.set (k, v)

/-- The last value stays, under the key that came first. -/
noncomputable def assign (m : FinMap r V) (k : K) (v : V) : FinMap r V :=
  match m.entry k with
  | some e => m.set (e.1, v)
  | none => m.set (k, v)

def has (m : FinMap r V) (k : K) : Bool := (m.entry k).isSome

noncomputable def rank (m : FinMap r V) (lt : K → K → Bool) (k : K) : ℕ :=
  {e ∈ m.entries | lt e.1 k = true}.ncard

open Classical in
noncomputable def nth (m : FinMap r V) (lt : K → K → Bool) (i : ℕ) : Option (K × V) :=
  if h : ∃ e ∈ m.entries, m.rank lt e.1 = i then some h.choose else none

theorem remove_congr (m : FinMap r V) {a b : K} (h : r a b) : m.remove a = m.remove b := by
  ext k
  by_cases hk : r a k
  · have hb : r b k := r.trans (r.symm h) hk
    simp only [remove, if_pos hk, if_pos hb]
  · have hb : ¬r b k := fun hb => hk (r.trans h hb)
    simp only [remove, if_neg hk, if_neg hb]

theorem insert_of_some {m : FinMap r V} {k : K} {e : K × V} (v : V) (h : m.entry k = some e) :
    m.insert k v = m := by
  rw [insert, h]

theorem insert_of_none {m : FinMap r V} {k : K} (v : V) (h : m.entry k = none) :
    m.insert k v = m.set (k, v) := by
  rw [insert, h]

theorem assign_of_some {m : FinMap r V} {k : K} {e : K × V} (v : V) (h : m.entry k = some e) :
    m.assign k v = m.set (e.1, v) := by
  rw [assign, h]

theorem assign_of_none {m : FinMap r V} {k : K} (v : V) (h : m.entry k = none) :
    m.assign k v = m.set (k, v) := by
  rw [assign, h]

theorem remove_of_none {m : FinMap r V} {k : K} (h : m.entry k = none) : m.remove k = m := by
  ext k'
  by_cases hk : r k k'
  · simp [remove, hk, ← m.congr hk, h]
  · simp [remove, hk]

theorem get_insert {q : K × V → Bool} {k' : K} (hq : ∀ e, q e = true ↔ r e.1 k')
    (m : FinMap r V) (k : K) (v : V) :
    (m.insert k v).get k' = (m.get k').or (if q (k, v) then some v else none) := by
  cases hentry : m.entry k with
  | some e =>
    rw [insert_of_some v hentry]
    split
    · rename_i hk
      have hsame := m.congr ((hq (k, v)).mp hk)
      simp [get, ← hsame, hentry]
    · simp
  | none =>
    rw [insert_of_none v hentry]
    by_cases hk : q (k, v) = true
    · have hsame := m.congr ((hq (k, v)).mp hk)
      simp [get, set, hk, (hq (k, v)).mp hk, ← hsame, hentry]
    · have hne : ¬r k k' := fun h => hk ((hq (k, v)).mpr h)
      simp [get, set, hk, hne]

/-- Of the values inserted for a key the first one stays. -/
theorem get_foldl_insert {q : K × V → Bool} {k : K} (hq : ∀ e, q e = true ↔ r e.1 k)
    (es : List (K × V)) (m : FinMap r V) :
    (es.foldl (fun m e => m.insert e.1 e.2) m).get k =
      (m.get k).or ((es.find? q).map Prod.snd) := by
  induction es generalizing m with
  | nil => simp
  | cons e es ih =>
    rw [List.foldl_cons, ih, get_insert hq, Option.or_assoc, List.find?_cons]
    cases q e <;> rfl

structure HeldBy (m : FinMap r V) (xs : List (K × V)) : Prop where
  distinct : xs.Pairwise (fun a b => ¬r a.1 b.1)
  entry : ∀ k e, m.entry k = some e ↔ e ∈ xs ∧ r e.1 k

namespace HeldBy

variable {m : FinMap r V} {xs ys : List (K × V)}

theorem nil : (empty : FinMap r V).HeldBy [] := ⟨List.Pairwise.nil, by simp [empty]⟩

theorem perm (h : m.HeldBy xs) (hp : xs.Perm ys) : m.HeldBy ys := by
  have hsymm {a b : K × V} (hab : ¬r a.1 b.1) : ¬r b.1 a.1 := fun hba => hab (r.symm hba)
  refine ⟨(hp.pairwise_iff hsymm).mp h.distinct, fun k e => ?_⟩
  rw [h.entry, hp.mem_iff]

theorem entry_of_mem (h : m.HeldBy xs) {e : K × V} (he : e ∈ xs) {k : K} (hk : r e.1 k) :
    m.entry k = some e := (h.entry k e).mpr ⟨he, hk⟩

theorem entry_none (h : m.HeldBy xs) {k : K} : m.entry k = none ↔ ∀ e ∈ xs, ¬r e.1 k := by
  rw [Option.eq_none_iff_forall_ne_some]
  constructor
  · exact fun hnone e he hk => hnone e (h.entry_of_mem he hk)
  · exact fun hall e he => hall e ((h.entry k e).mp he).1 ((h.entry k e).mp he).2

theorem mem_entries (h : m.HeldBy xs) {e : K × V} : e ∈ m.entries ↔ e ∈ xs := by
  constructor
  · exact fun he => ((h.entry e.1 e).mp he).1
  · exact fun he => h.entry_of_mem he (r.refl e.1)

theorem nodup (h : m.HeldBy xs) : xs.Nodup := by
  apply h.distinct.imp
  rintro a b hab rfl
  exact hab (r.refl a.1)

/-- As many entries pass a test as there are places that do. -/
theorem ncard (h : m.HeldBy xs) (p : K × V → Bool) :
    {e ∈ m.entries | p e = true}.ncard = (xs.filter p).length := by
  classical
  have hset : {e ∈ m.entries | p e = true} = ((xs.filter p).toFinset : Set (K × V)) := by
    ext e
    simp [h.mem_entries]
  rw [hset, Set.ncard_coe_finset, List.toFinset_card_of_nodup (h.nodup.filter p)]

theorem size (h : m.HeldBy xs) : m.size = xs.length := by
  have hall := h.ncard (fun _ => true)
  simpa [FinMap.size] using hall

theorem rank (h : m.HeldBy xs) (lt : K → K → Bool) (k : K) :
    m.rank lt k = (xs.filter (fun e => lt e.1 k)).length := h.ncard _

theorem rank_append {front back : List (K × V)} (h : m.HeldBy (front ++ back))
    {lt : K → K → Bool} {k : K} (hfront : ∀ a ∈ front, lt a.1 k = true)
    (hback : ∀ b ∈ back, lt b.1 k = false) : m.rank lt k = front.length := by
  have hf : front.filter (fun e => lt e.1 k) = front := List.filter_eq_self.mpr hfront
  have hb : back.filter (fun e => lt e.1 k) = [] :=
    List.filter_eq_nil_iff.mpr fun b hb => by simp [hback b hb]
  rw [h.rank, List.filter_append, hf, hb, List.append_nil]

theorem set_of_none (h : m.HeldBy xs) {k : K} (v : V) (hk : m.entry k = none) :
    (m.set (k, v)).HeldBy ((k, v) :: xs) := by
  have hall := h.entry_none.mp hk
  refine ⟨List.pairwise_cons.mpr ⟨fun e he hke => hall e he (r.symm hke), h.distinct⟩, ?_⟩
  intro k' e
  by_cases hkk : r k k'
  · simp only [set, if_pos hkk, List.mem_cons]
    constructor
    · rintro ⟨⟩
      exact ⟨Or.inl rfl, hkk⟩
    · rintro ⟨rfl | he, hek⟩
      · rfl
      · exact absurd (r.trans hek (r.symm hkk)) (hall e he)
  · simp only [set, if_neg hkk, h.entry, List.mem_cons]
    constructor
    · exact fun he => ⟨Or.inr he.1, he.2⟩
    · rintro ⟨rfl | he, hek⟩
      · exact absurd hek hkk
      · exact ⟨he, hek⟩

theorem remove_head {e : K × V} (h : m.HeldBy (e :: xs)) : (m.remove e.1).HeldBy xs := by
  obtain ⟨hhead, htail⟩ := List.pairwise_cons.mp h.distinct
  refine ⟨htail, fun k e' => ?_⟩
  by_cases hk : r e.1 k
  · simp only [remove, if_pos hk]
    refine iff_of_false (by simp) ?_
    rintro ⟨he', hk'⟩
    exact hhead e' he' (r.trans hk (r.symm hk'))
  · simp only [remove, if_neg hk, h.entry, List.mem_cons]
    constructor
    · rintro ⟨rfl | he', hk'⟩
      · exact absurd hk' hk
      · exact ⟨he', hk'⟩
    · exact fun he' => ⟨Or.inr he'.1, he'.2⟩

/-- What the map stores is what it stores without the key and the key again. -/
theorem set_remove (m : FinMap r V) (e : K × V) : (m.remove e.1).set e = m.set e := by
  ext k
  by_cases hk : r e.1 k
  · simp [set, hk]
  · simp [set, remove, hk]

theorem set_head {k : K} {v v' : V} (h : m.HeldBy ((k, v) :: xs)) :
    (m.set (k, v')).HeldBy ((k, v') :: xs) := by
  have hk : (m.remove k).entry k = none := if_pos (r.refl k)
  have hset := h.remove_head.set_of_none v' hk
  rwa [set_remove m (k, v')] at hset

end HeldBy

end FinMap
