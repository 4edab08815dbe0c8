import Virthttp.FlatmapStorage
import Virthttp.Runs

/-! What a `flatmap` means: the finite map on the classes of equivalent keys. -/
namespace Virthttp

variable {K V : Type}

def Compare.setoid (comp : Compare K) : Setoid K where
  r a b := comp.equiv a b = true
  iseqv := {
    refl := fun a => by simp [Compare.equiv, comp.irrefl]
    symm := fun {a b} h => by
      simp only [Compare.equiv, Bool.and_eq_true] at h ⊢
      exact ⟨h.2, h.1⟩
    trans := fun {a b c} hab hbc => (Flatmap.equiv_congr hbc).symm.trans hab }

/-- What the methods do to the finite map, and what they return. An iterator is the number of
the entries in front of it. -/
noncomputable def Compare.meant [Inhabited V] (comp : Compare K) :
    MapMethods (FinMap comp.setoid V) K V where
  insert m key v := (((m.insert key v).rank comp.lt key, !m.has key), m.insert key v)
  emplace m key v := (((m.insert key v).rank comp.lt key, !m.has key), m.insert key v)
  tryEmplace m key v := (((m.insert key v).rank comp.lt key, !m.has key), m.insert key v)
  insertOrAssign m key v := (((m.assign key v).rank comp.lt key, !m.has key), m.assign key v)
  subscript m key := ((m.get key).getD default, m.insert key default)
  erase m key := (if m.has key then 1 else 0, m.remove key)
  cleared := .empty

/-- The operations of a `flatmap`; an iterator is only good for the map it was taken from. -/
inductive FlatmapOp (K V : Type) where
  | op (o : MapOp K V)
  | eraseAt (iter : ℕ)

def FlatmapStorage.step [Inhabited V] (comp : Compare K) (xs : FlatmapStorage K V) :
    FlatmapOp K V → Option (MapResult V × FlatmapStorage K V)
  | .op o => some ((methods comp).apply xs o)
  | .eraseAt iter => (eraseAt xs iter).map (fun ys => (.done, ys))

noncomputable def Compare.meantStep [Inhabited V] (comp : Compare K) (m : FinMap comp.setoid V) :
    FlatmapOp K V → Option (MapResult V × FinMap comp.setoid V)
  | .op o => some (comp.meant.apply m o)
  | .eraseAt iter => (m.nth comp.lt iter).map (fun e => (.done, m.remove e.1))

inductive FlatmapInit (K V : Type) where
  | default
  | list (es : List (K × V))
  | range (es : List (K × V))

def FlatmapStorage.construct (comp : Compare K) : FlatmapInit K V → FlatmapStorage K V
  | .default => []
  | .list es => es.foldl (fun xs e => (insert comp xs e.1 e.2).2) []
  | .range es => es.foldl (fun xs e => (emplace comp xs e.1 e.2).2) []

noncomputable def Compare.meantInit (comp : Compare K) : FlatmapInit K V → FinMap comp.setoid V
  | .default => .empty
  | .list es | .range es => es.foldl (fun m e => m.insert e.1 e.2) .empty

/-- What can be seen of the vector agrees with the finite map. -/
structure Coincides (comp : Compare K) (xs : FlatmapStorage K V) (m : FinMap comp.setoid V) :
    Prop where
  sorted : FlatmapStorage.Sorted comp xs
  find : ∀ key, FlatmapStorage.find comp xs key =
    if m.has key then m.rank comp.lt key else m.size
  found : ∀ key, xs[FlatmapStorage.find comp xs key]? = m.entry key
  count : ∀ key, FlatmapStorage.count comp xs key = if m.has key then 1 else 0
  size : xs.length = m.size
  iteration : ∀ e, e ∈ xs ↔ e ∈ m.entries

namespace FlatmapStorage

variable {comp : Compare K} {m : FinMap comp.setoid V} {xs : FlatmapStorage K V}

structure Holds (comp : Compare K) (xs : FlatmapStorage K V) (m : FinMap comp.setoid V) : Prop where
  sorted : Sorted comp xs
  held : m.HeldBy xs

theorem sorted_iff_keys :
    Sorted comp xs ↔ (xs.map Prod.fst).Pairwise (fun a b => comp.lt a b = true) := by
  rw [List.pairwise_map]
  rfl

theorem not_setoid_of_lt {a b : K} (h : comp.lt a b = true) : ¬comp.setoid a b := fun heq => by
  have hne := Flatmap.equiv_of_lt h
  rw [show comp.equiv a b = true from heq] at hne
  contradiction

theorem not_lt_of_setoid {a b : K} (h : comp.setoid a b) : comp.lt a b = false :=
  Bool.eq_false_iff.mpr fun hlt => not_setoid_of_lt hlt h

theorem not_lt_of_lt {a b : K} (h : comp.lt a b = true) : comp.lt b a = false := by
  by_contra hba
  have haa := comp.trans _ _ _ h (by simpa using hba)
  rw [comp.irrefl] at haa
  contradiction

theorem insertIdx_length {α : Type} (front back : List α) (a : α) :
    (front ++ back).insertIdx front.length a = front ++ a :: back := by
  induction front with
  | nil => rfl
  | cons b front ih => rw [List.cons_append, List.length_cons, List.insertIdx_succ_cons, ih,
      List.cons_append]

theorem modify_length {α : Type} (front back : List α) (a : α) (f : α → α) :
    (front ++ a :: back).modify front.length f = front ++ f a :: back := by
  induction front with
  | nil => rfl
  | cons b front ih => rw [List.cons_append, List.length_cons, List.modify_succ_cons, ih,
      List.cons_append]

theorem Holds.entry_missing {front back : FlatmapStorage K V} {key : K}
    (h : Holds comp (front ++ back) m) (hfront : ∀ a ∈ front, comp.lt a.1 key = true)
    (hback : ∀ b ∈ back, comp.lt key b.1 = true) : m.entry key = none := by
  rw [h.held.entry_none]
  intro e he
  rcases List.mem_append.mp he with he | he
  · exact not_setoid_of_lt (hfront e he)
  · exact fun heq => not_setoid_of_lt (hback e he) (comp.setoid.symm heq)

/-- What is known of the map where the vector has no pair for the key. -/
theorem Holds.missing {front back : FlatmapStorage K V} {key : K}
    (h : Holds comp (front ++ back) m) (hfront : ∀ a ∈ front, comp.lt a.1 key = true)
    (hback : ∀ b ∈ back, comp.lt key b.1 = true) (v : V) :
    m.entry key = none ∧ Holds comp (front ++ (key, v) :: back) (m.set (key, v)) ∧
      (m.set (key, v)).rank comp.lt key = front.length := by
  have hnone : m.entry key = none := h.entry_missing hfront hback
  have hheld : (m.set (key, v)).HeldBy (front ++ (key, v) :: back) :=
    (h.held.set_of_none v hnone).perm List.perm_middle.symm
  obtain ⟨hf, hb, hfb⟩ := List.pairwise_append.mp h.sorted
  have hsorted : Sorted comp (front ++ (key, v) :: back) := by
    apply List.pairwise_append.mpr
    refine ⟨hf, List.pairwise_cons.mpr ⟨hback, hb⟩, fun a ha b hb' => ?_⟩
    rcases List.mem_cons.mp hb' with rfl | hb'
    · exact hfront a ha
    · exact hfb a ha b hb'
  refine ⟨hnone, ⟨hsorted, hheld⟩, hheld.rank_append hfront fun b hb' => ?_⟩
  rcases List.mem_cons.mp hb' with rfl | hb'
  · exact comp.irrefl key
  · exact not_lt_of_lt (hback b hb')

/-- What is known of the map where the vector has a pair for the key. -/
theorem Holds.found {front back : FlatmapStorage K V} {key : K} {e : K × V}
    (h : Holds comp (front ++ e :: back) m) (hfront : ∀ a ∈ front, comp.lt a.1 key = true)
    (he : comp.equiv e.1 key = true) (hback : ∀ b ∈ back, comp.lt key b.1 = true) :
    m.entry key = some e ∧ m.rank comp.lt key = front.length ∧
      Holds comp (front ++ back) (m.remove key) ∧
      ∀ v, Holds comp (front ++ (e.1, v) :: back) (m.set (e.1, v)) ∧
        (m.set (e.1, v)).rank comp.lt key = front.length := by
  have hentry : m.entry key = some e := h.held.entry_of_mem (by simp) he
  have hbehind {e' : K × V} (he' : e'.1 = e.1) : ∀ b ∈ e' :: back, comp.lt b.1 key = false := by
    intro b hb
    rcases List.mem_cons.mp hb with rfl | hb
    · rw [he']
      exact not_lt_of_setoid he
    · exact not_lt_of_lt (hback b hb)
  have hhead : m.HeldBy (e :: (front ++ back)) := h.held.perm List.perm_middle
  have hsorted := h.sorted
  refine ⟨hentry, h.held.rank_append hfront (hbehind rfl), ⟨?_, ?_⟩, fun v => ?_⟩
  · exact hsorted.sublist ((List.sublist_cons_self e back).append_left front)
  · rw [← m.remove_congr he]
    exact hhead.remove_head
  · have hheld : (m.set (e.1, v)).HeldBy (front ++ (e.1, v) :: back) :=
      (FinMap.HeldBy.set_head hhead).perm List.perm_middle.symm
    refine ⟨⟨?_, hheld⟩, hheld.rank_append hfront (hbehind rfl)⟩
    have hkeys : (front ++ (e.1, v) :: back).map Prod.fst = (front ++ e :: back).map Prod.fst := by
      simp
    rw [sorted_iff_keys] at hsorted ⊢
    rwa [hkeys]

theorem holds_nil : Holds comp ([] : FlatmapStorage K V) .empty :=
  ⟨List.Pairwise.nil, FinMap.HeldBy.nil⟩

theorem emplace_holds (h : Holds comp xs m) (key : K) (v : V) :
    (emplace comp xs key v).1 = ((m.insert key v).rank comp.lt key, !m.has key) ∧
      Holds comp (emplace comp xs key v).2 (m.insert key v) := by
  have hcut := findKey_cut h.sorted key
  unfold emplace
  generalize findKey comp xs key = found at hcut ⊢
  cases hcut with
  | found front back e hfront he hback =>
    obtain ⟨hentry, hrank, _⟩ := h.found hfront he hback
    rw [FinMap.insert_of_some v hentry, FinMap.has, hentry, hrank]
    exact ⟨rfl, h⟩
  | missing front back hfront hback =>
    obtain ⟨hentry, hholds, hrank⟩ := h.missing hfront hback v
    rw [FinMap.insert_of_none v hentry, FinMap.has, hentry, hrank]
    dsimp only
    rw [if_neg (by simp), insertIdx_length]
    exact ⟨rfl, hholds⟩

/-- A pair that is pushed back goes to the same place. -/
theorem insert_eq_emplace (xs : FlatmapStorage K V) (key : K) (v : V) :
    insert comp xs key v = emplace comp xs key v := by
  unfold insert emplace
  generalize findKey comp xs key = found
  obtain ⟨iter, exactMatch⟩ := found
  dsimp only
  by_cases hend : iter = xs.length
  · subst hend
    rw [if_pos rfl, List.insertIdx_length_self]
  · rw [if_neg hend]

theorem insertOrAssign_holds (h : Holds comp xs m) (key : K) (v : V) :
    (insertOrAssign comp xs key v).1 = ((m.assign key v).rank comp.lt key, !m.has key) ∧
      Holds comp (insertOrAssign comp xs key v).2 (m.assign key v) := by
  have hcut := findKey_cut h.sorted key
  unfold insertOrAssign
  generalize findKey comp xs key = found at hcut ⊢
  cases hcut with
  | found front back e hfront he hback =>
    obtain ⟨hentry, _, _, hset⟩ := h.found hfront he hback
    obtain ⟨hholds, hrank⟩ := hset v
    rw [FinMap.assign_of_some v hentry, FinMap.has, hentry, hrank]
    dsimp only
    rw [if_pos rfl, modify_length]
    exact ⟨rfl, hholds⟩
  | missing front back hfront hback =>
    obtain ⟨hentry, hholds, hrank⟩ := h.missing hfront hback v
    rw [FinMap.assign_of_none v hentry, FinMap.has, hentry, hrank]
    dsimp only
    rw [if_neg (by simp), insertIdx_length]
    exact ⟨rfl, hholds⟩

theorem subscript_holds [Inhabited V] (h : Holds comp xs m) (key : K) :
    (subscript comp xs key).1 = (m.get key).getD default ∧
      Holds comp (subscript comp xs key).2 (m.insert key default) := by
  have hcut := findKey_cut h.sorted key
  unfold subscript
  generalize findKey comp xs key = found at hcut ⊢
  cases hcut with
  | found front back e hfront he hback =>
    obtain ⟨hentry, _⟩ := h.found hfront he hback
    rw [FinMap.insert_of_some default hentry, FinMap.get, hentry]
    dsimp only
    rw [if_pos rfl]
    exact ⟨by simp [second], h⟩
  | missing front back hfront hback =>
    obtain ⟨hentry, hholds, _⟩ := h.missing hfront hback (default : V)
    rw [FinMap.insert_of_none default hentry, FinMap.get, hentry]
    dsimp only
    rw [if_neg (by simp), insertIdx_length]
    exact ⟨by simp [second], hholds⟩

theorem erase_holds (h : Holds comp xs m) (key : K) :
    (erase comp xs key).1 = (if m.has key then 1 else 0) ∧
      Holds comp (erase comp xs key).2 (m.remove key) := by
  have hcut := findKey_cut h.sorted key
  unfold erase
  generalize findKey comp xs key = found at hcut ⊢
  cases hcut with
  | found front back e hfront he hback =>
    obtain ⟨hentry, _, hholds, _⟩ := h.found hfront he hback
    rw [FinMap.has, hentry]
    dsimp only
    rw [if_pos rfl, List.eraseIdx_append_of_length_le (Nat.le_refl _), Nat.sub_self]
    exact ⟨rfl, hholds⟩
  | missing front back hfront hback =>
    have hentry : m.entry key = none := h.entry_missing hfront hback
    rw [FinMap.remove_of_none hentry, FinMap.has, hentry]
    exact ⟨rfl, h⟩

theorem methods_simulate [Inhabited V] (comp : Compare K) :
    (methods (V := V) comp).Simulates comp.meant Eq (Holds comp) := by
  have hemplace : PlacesAlike Eq (Holds comp) (emplace comp)
      (comp.meant : MapMethods (FinMap comp.setoid V) K V).emplace := by
    intro xs m key v h
    obtain ⟨hres, hholds⟩ := emplace_holds h key v
    exact ⟨congrArg Prod.fst hres, congrArg Prod.snd hres, hholds⟩
  refine ⟨?_, hemplace, hemplace, ?_, ?_, ?_, holds_nil⟩
  · intro xs m key v h
    have hsame : (methods comp).insert xs key v = emplace comp xs key v :=
      insert_eq_emplace xs key v
    rw [hsame]
    exact hemplace xs m key v h
  · intro xs m key v h
    obtain ⟨hres, hholds⟩ := insertOrAssign_holds h key v
    exact ⟨congrArg Prod.fst hres, congrArg Prod.snd hres, hholds⟩
  · exact fun xs m key h => subscript_holds h key
  · exact fun xs m key h => erase_holds h key

/-- As many entries come before a pair as are in front of it. -/
theorem rank_getElem (h : Holds comp xs m) {i : ℕ} (hi : i < xs.length) :
    m.rank comp.lt xs[i].1 = i := by
  have hsplit : xs = xs.take i ++ xs.drop i := (List.take_append_drop i xs).symm
  have hlen : (xs.take i).length = i := List.length_take_of_le (by omega)
  have hheld : m.HeldBy (xs.take i ++ xs.drop i) := hsplit ▸ h.held
  have hsort := List.pairwise_iff_getElem.mp h.sorted
  have hrank := @FinMap.HeldBy.rank_append K V comp.setoid m _ _ hheld comp.lt xs[i].1 ?_ ?_
  · rw [hrank, hlen]
  · intro a ha
    obtain ⟨j, hj, rfl⟩ := List.mem_take_iff_getElem.mp ha
    exact hsort j i (by omega) hi (by omega)
  · intro b hb
    obtain ⟨j, hj, rfl⟩ := List.mem_drop_iff_getElem.mp hb
    rcases Nat.eq_zero_or_pos j with rfl | hpos
    · exact comp.irrefl _
    · exact not_lt_of_lt (hsort i (i+j) hi (by omega) (by omega))

theorem nth_eq_getElem? (h : Holds comp xs m) (i : ℕ) : m.nth comp.lt i = xs[i]? := by
  unfold FinMap.nth
  split
  · rename_i hex
    obtain ⟨hmem, hrank⟩ := hex.choose_spec
    obtain ⟨j, hj, hget⟩ := List.getElem_of_mem (h.held.mem_entries.mp hmem)
    have hij : j = i := by
      rw [← hget, rank_getElem h hj] at hrank
      exact hrank
    subst hij
    rw [List.getElem?_eq_getElem hj, hget]
  · rename_i hno
    rw [eq_comm, List.getElem?_eq_none_iff]
    by_contra hlt
    have hi : i < xs.length := by omega
    exact hno ⟨xs[i], h.held.mem_entries.mpr (List.getElem_mem hi), rank_getElem h hi⟩

theorem eraseAt_holds (h : Holds comp xs m) (iter : ℕ) :
    Option.Rel (fun ys e => Holds comp ys (m.remove e.1)) (eraseAt xs iter) (m.nth comp.lt iter) := by
  rw [nth_eq_getElem? h]
  unfold eraseAt
  by_cases hi : iter < xs.length
  · rw [if_pos hi, List.getElem?_eq_getElem hi]
    have hheld : m.HeldBy (xs[iter] :: xs.eraseIdx iter) :=
      h.held.perm (List.getElem_cons_eraseIdx_perm hi).symm
    exact .some ⟨h.sorted.sublist (List.eraseIdx_sublist ..), hheld.remove_head⟩
  · rw [if_neg hi, List.getElem?_eq_none (by omega)]
    exact .none

theorem step_holds [Inhabited V] (h : Holds comp xs m) (o : FlatmapOp K V) :
    Option.Rel (fun x y => x.1 = y.1 ∧ Holds comp x.2 y.2) (step comp xs o)
      (comp.meantStep m o) := by
  cases o with
  | op o =>
    obtain ⟨hres, hholds⟩ := (methods_simulate comp).apply xs m o h
    exact .some ⟨MapResult.agree_eq hres, hholds⟩
  | eraseAt iter =>
    have hone := eraseAt_holds h iter
    simp only [step, Compare.meantStep]
    generalize eraseAt xs iter = x at hone ⊢
    generalize m.nth comp.lt iter = y at hone ⊢
    cases hone with
    | none => exact .none
    | some hxy => exact .some ⟨rfl, hxy⟩

theorem construct_holds (comp : Compare K) (init : FlatmapInit K V) :
    Holds comp (construct comp init) (comp.meantInit init) := by
  have hfold (es : List (K × V)) : ∀ {xs : FlatmapStorage K V} {m : FinMap comp.setoid V},
      Holds comp xs m → Holds comp (es.foldl (fun xs e => (emplace comp xs e.1 e.2).2) xs)
        (es.foldl (fun m e => m.insert e.1 e.2) m) := by
    induction es with
    | nil => exact fun h => h
    | cons e es ih => exact fun h => ih (emplace_holds h e.1 e.2).2
  cases init with
  | default => exact holds_nil
  | list es =>
    simp only [construct, insert_eq_emplace]
    exact hfold es holds_nil
  | range es => exact hfold es holds_nil

theorem Holds.coincides (h : Holds comp xs m) : Coincides comp xs m := by
  -- the position that the binary search returns is the number of smaller keys
  have hfindKey (key : K) : findKey comp xs key = (m.rank comp.lt key, m.has key) ∧
      (m.has key = true → xs[m.rank comp.lt key]? = m.entry key) := by
    have hcut := findKey_cut h.sorted key
    generalize findKey comp xs key = found at hcut ⊢
    cases hcut with
    | found front back e hfront he hback =>
      obtain ⟨hentry, hrank, _⟩ := h.found hfront he hback
      rw [FinMap.has, hentry, hrank]
      exact ⟨rfl, fun _ => by simp⟩
    | missing front back hfront hback =>
      have hrank := h.held.rank_append hfront fun b hb => not_lt_of_lt (hback b hb)
      have hentry : m.entry key = none := h.entry_missing hfront hback
      rw [FinMap.has, hentry, hrank]
      exact ⟨rfl, fun hf => by simp at hf⟩
  have hfind (key : K) : find comp xs key =
      if m.has key then m.rank comp.lt key else m.size := by
    rw [find, (hfindKey key).1, h.held.size]
  refine ⟨h.sorted, hfind, fun key => ?_, fun key => ?_, h.held.size.symm,
    fun e => h.held.mem_entries.symm⟩
  · rw [hfind]
    cases hhas : m.has key with
    | true => exact (hfindKey key).2 hhas
    | false =>
      have hentry : m.entry key = none := by simpa [FinMap.has] using hhas
      simp [h.held.size, hentry]
  · rw [count, (hfindKey key).1]

/-- After any operations a `flatmap` is sorted by its keys and is the finite map that the
operations mean; what they return, and where they are undefined, is the same. -/
theorem flatmap_coincides [Inhabited V] (comp : Compare K) (init : FlatmapInit K V)
    (ops : List (FlatmapOp K V)) :
    Option.Rel (fun x y => x.1 = y.1 ∧ Coincides comp x.2 y.2)
      (Runs.exec (step comp) (construct comp init) ops)
      (Runs.exec comp.meantStep (comp.meantInit init) ops) := by
  have hstep (xs : FlatmapStorage K V) (m : FinMap comp.setoid V) (o : FlatmapOp K V)
      (h : Holds comp xs m) : Option.Rel (fun x y => x.1 = y.1 ∧ Holds comp x.2 y.2)
        (step comp xs o) (comp.meantStep m o) := step_holds h o
  have hrun := Runs.exec_rel hstep ops _ _ (construct_holds comp init)
  generalize Runs.exec (step comp) (construct comp init) ops = x at hrun ⊢
  generalize Runs.exec comp.meantStep (comp.meantInit init) ops = y at hrun ⊢
  cases hrun with
  | none => exact .none
  | some hxy =>
    obtain ⟨hres, hholds⟩ := hxy
    exact .some ⟨List.forall₂_eq_eq_eq ▸ hres, hholds.coincides⟩

/-- The map of a target's queries is this vector with what it inserts and finds. -/
theorem findKey_flatmap (m : Flatmap V comp) (key : K) :
    (m.findKey key).isSome = (findKey comp m.values key).2 ∧
      m.find key = (m.values[find comp m.values key]?).map Prod.snd := by
  have hpart := Sorted.partitioned m.sorted key
  have hrest : m.values.drop (findKey comp m.values key).1 = m.rest key :=
    BinarySearch.drop_lowerBound hpart
  have hhead : m.values[(findKey comp m.values key).1]? = (m.rest key).head? := by
    rw [← hrest, List.head?_drop]
  have hexact : (findKey comp m.values key).2 =
      ((m.rest key).head?).any (fun e => !comp.lt key e.1) := by
    rw [← hhead]
    rfl
  rw [Flatmap.find, Flatmap.findKey, find]
  cases hr : (m.rest key).head? with
  | none => simp [hexact, hr]
  | some e =>
    rw [hr] at hhead hexact
    cases hlt : comp.lt key e.1 with
    | true => simp [Option.filter, hexact, hlt]
    | false => simp [Option.filter, hexact, hlt, hhead]

/-- The map that carries its order is filled as the one of the source is. -/
theorem emplace_flatmap (m : Flatmap V comp) (key : K) (v : V) :
    (m.emplace key v).values = (emplace comp m.values key v).2 := by
  have hpart := Sorted.partitioned m.sorted key
  have hsome := (findKey_flatmap m key).1
  have hfront : m.values.take (findKey comp m.values key).1 = m.before key :=
    BinarySearch.take_lowerBound hpart
  have hrest : m.values.drop (findKey comp m.values key).1 = m.rest key :=
    BinarySearch.drop_lowerBound hpart
  have hlen : (m.values.take (findKey comp m.values key).1).length =
      (findKey comp m.values key).1 :=
    List.length_take_of_le (BinarySearch.lowerBound_le hpart)
  have hinsert := insertIdx_length (m.values.take (findKey comp m.values key).1)
    (m.values.drop (findKey comp m.values key).1) (key, v)
  rw [List.take_append_drop, hlen, hfront, hrest] at hinsert
  unfold Flatmap.emplace emplace
  split
  · rename_i e he
    rw [he] at hsome
    simp [← hsome]
  · rename_i hnone
    rw [hnone] at hsome
    simp [← hsome, hinsert]

theorem foldl_emplace_flatmap (es : List (K × V)) (xs : Flatmap V comp) :
    (es.foldl (fun xs e => xs.emplace e.1 e.2) xs).values =
      es.foldl (fun xs e => (emplace comp xs e.1 e.2).2) xs.values := by
  induction es generalizing xs with
  | nil => rfl
  | cons e es ih => rw [List.foldl_cons, List.foldl_cons, ih, emplace_flatmap]

theorem find_of_holds {xs : Flatmap V comp} (h : Holds comp xs.values m) (key : K) :
    xs.find key = m.get key := by
  rw [(findKey_flatmap xs key).2, h.coincides.found key, FinMap.get]

/-- The map that is filled pair by pair has the first value of every key. -/
theorem find_foldl_emplace {q : K × V → Bool} {key : K}
    (hq : ∀ e, q e = true ↔ comp.equiv e.1 key = true) (es : List (K × V)) :
    (es.foldl (fun xs e => xs.emplace e.1 e.2) (Flatmap.empty : Flatmap V comp)).find key =
      (es.find? q).map Prod.snd := by
  have hholds : Holds comp
      (es.foldl (fun xs e => xs.emplace e.1 e.2) (Flatmap.empty : Flatmap V comp)).values
      (comp.meantInit (.range es)) := by
    rw [foldl_emplace_flatmap]
    exact construct_holds comp (.range es)
  rw [find_of_holds hholds]
  have hget := FinMap.get_foldl_insert (r := comp.setoid) hq es .empty
  simpa [FinMap.get, FinMap.empty, Compare.meantInit] using hget

end FlatmapStorage

end Virthttp
