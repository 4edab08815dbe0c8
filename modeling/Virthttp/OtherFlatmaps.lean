import Virthttp.FlatmapMeaning

/-! The siblings of `flatmap`: without an order, and with the keys and the values in vectors of
their own. All of them hold the same finite map. -/
namespace Virthttp

variable {K V : Type}

structure SplitStorage (K V : Type) where
  keys : List K
  values : List V

namespace SplitStorage

def empty : SplitStorage K V := ⟨[], []⟩

def size (s : SplitStorage K V) : ℕ := s.values.length

def fin (s : SplitStorage K V) : ℕ := s.keys.length

def entryAt (s : SplitStorage K V) (iter : ℕ) : Option (K × V) :=
  (s.keys[iter]?).bind fun k => (s.values[iter]?).map fun v => (k, v)

def second [Inhabited V] (s : SplitStorage K V) (iter : ℕ) : V := (s.values[iter]?).getD default

end SplitStorage

namespace UnorderedFlatmap

variable [BEq K]

def find (xs : FlatmapStorage K V) (key : K) : ℕ := xs.findIdx (fun e => key == e.1)

/-- By the `find` of a constant map, which compares the other way round. -/
def count (xs : FlatmapStorage K V) (key : K) : ℕ :=
  if xs.findIdx (fun e => e.1 == key) = xs.length then 0 else 1

def insert (xs : FlatmapStorage K V) (key : K) (v : V) : (ℕ × Bool) × FlatmapStorage K V :=
  if find xs key ≠ xs.length then ((find xs key, false), xs)
  else ((xs.length, true), xs ++ [(key, v)])

def emplace (xs : FlatmapStorage K V) (key : K) (v : V) : (ℕ × Bool) × FlatmapStorage K V :=
  insert xs key v

def tryEmplace (xs : FlatmapStorage K V) (key : K) (v : V) : (ℕ × Bool) × FlatmapStorage K V :=
  if find xs key ≠ xs.length then ((find xs key, false), xs)
  else ((xs.length, true), xs ++ [(key, v)])

def insertOrAssign (xs : FlatmapStorage K V) (key : K) (v : V) :
    (ℕ × Bool) × FlatmapStorage K V :=
  if find xs key ≠ xs.length then
    ((find xs key, false), xs.modify (find xs key) (fun e => (e.1, v)))
  else ((xs.length, true), xs ++ [(key, v)])

def subscript [Inhabited V] (xs : FlatmapStorage K V) (key : K) : V × FlatmapStorage K V :=
  if find xs key ≠ xs.length then (FlatmapStorage.second xs (find xs key), xs)
  else (((xs ++ [(key, default)]).getLast?).elim default Prod.snd, xs ++ [(key, default)])

def eraseAt (xs : FlatmapStorage K V) (iter : ℕ) : FlatmapStorage K V :=
  (if iter ≠ xs.length-1 then (xs.getLast?).elim xs (xs.set iter) else xs).dropLast

def erase (xs : FlatmapStorage K V) (key : K) : ℕ × FlatmapStorage K V :=
  if find xs key ≠ xs.length then (1, eraseAt xs (find xs key)) else (0, xs)

def methods [Inhabited V] : MapMethods (FlatmapStorage K V) K V where
  insert := insert
  emplace := emplace
  tryEmplace := tryEmplace
  insertOrAssign := insertOrAssign
  subscript := subscript
  erase := erase
  cleared := []

end UnorderedFlatmap

namespace UnorderedSplitFlatmap

variable [BEq K]

def find (s : SplitStorage K V) (key : K) : ℕ := s.keys.findIdx (fun x => x == key)

def count (s : SplitStorage K V) (key : K) : ℕ := if find s key = s.fin then 0 else 1

def insert (s : SplitStorage K V) (key : K) (v : V) : (ℕ × Bool) × SplitStorage K V :=
  if find s key ≠ s.fin then ((find s key, false), s)
  else ((s.fin, true), ⟨s.keys ++ [key], s.values ++ [v]⟩)

def emplace (s : SplitStorage K V) (key : K) (v : V) : (ℕ × Bool) × SplitStorage K V :=
  insert s key v

def tryEmplace (s : SplitStorage K V) (key : K) (v : V) : (ℕ × Bool) × SplitStorage K V :=
  if find s key ≠ s.fin then ((find s key, false), s) else emplace s key v

def insertOrAssign (s : SplitStorage K V) (key : K) (v : V) : (ℕ × Bool) × SplitStorage K V :=
  if find s key ≠ s.fin then
    ((find s key, false), { s with values := s.values.set (find s key) v })
  else emplace s key v

def subscript [Inhabited V] (s : SplitStorage K V) (key : K) : V × SplitStorage K V :=
  if find s key ≠ s.fin then (s.second (find s key), s)
  else
    let grown := (emplace s key default).2
    ((grown.values.getLast?).getD default, grown)

def eraseAt (s : SplitStorage K V) (iter : ℕ) : SplitStorage K V :=
  let moved : SplitStorage K V :=
    if iter ≠ s.fin-1 then
      ⟨(s.keys.getLast?).elim s.keys (s.keys.set iter),
        (s.values.getLast?).elim s.values (s.values.set iter)⟩
    else s
  ⟨moved.keys.dropLast, moved.values.dropLast⟩

def erase (s : SplitStorage K V) (key : K) : ℕ × SplitStorage K V :=
  if find s key ≠ s.fin then (1, eraseAt s (find s key)) else (0, s)

def methods [Inhabited V] : MapMethods (SplitStorage K V) K V where
  insert := insert
  emplace := emplace
  tryEmplace := tryEmplace
  insertOrAssign := insertOrAssign
  subscript := subscript
  erase := erase
  cleared := .empty

end UnorderedSplitFlatmap

namespace SplitFlatmap

variable (comp : Compare K)

def findKey (s : SplitStorage K V) (key : K) : ℕ × Bool :=
  let i := BinarySearch.lowerBound (fun k => comp.lt k key) s.keys
  (i, (s.keys[i]?).any (fun k => !comp.lt key k))

def find (s : SplitStorage K V) (key : K) : ℕ :=
  let (iter, exactMatch) := findKey comp s key
  if exactMatch then iter else s.fin

def count (s : SplitStorage K V) (key : K) : ℕ := if find comp s key = s.fin then 0 else 1

def insertAt (s : SplitStorage K V) (iter : ℕ) (key : K) (v : V) : SplitStorage K V :=
  ⟨s.keys.insertIdx iter key, s.values.insertIdx iter v⟩

def insert (s : SplitStorage K V) (key : K) (v : V) : (ℕ × Bool) × SplitStorage K V :=
  let (iter, exactMatch) := findKey comp s key
  if exactMatch then ((iter, false), s) else ((iter, true), insertAt s iter key v)

def emplace (s : SplitStorage K V) (key : K) (v : V) : (ℕ × Bool) × SplitStorage K V :=
  insert comp s key v

def insertOrAssign (s : SplitStorage K V) (key : K) (v : V) : (ℕ × Bool) × SplitStorage K V :=
  let (iter, exactMatch) := findKey comp s key
  if exactMatch then ((iter, false), { s with values := s.values.set iter v })
  else ((iter, true), insertAt s iter key v)

def tryEmplace (s : SplitStorage K V) (key : K) (v : V) : (ℕ × Bool) × SplitStorage K V :=
  let (iter, exactMatch) := findKey comp s key
  if exactMatch then ((iter, false), s) else ((iter, true), insertAt s iter key v)

def subscript [Inhabited V] (s : SplitStorage K V) (key : K) : V × SplitStorage K V :=
  let (iter, exactMatch) := findKey comp s key
  if exactMatch then (s.second iter, s)
  else ((insertAt s iter key default).second iter, insertAt s iter key default)

def eraseAt (s : SplitStorage K V) (iter : ℕ) : SplitStorage K V :=
  ⟨s.keys.eraseIdx iter, s.values.eraseIdx iter⟩

def erase (s : SplitStorage K V) (key : K) : ℕ × SplitStorage K V :=
  let (iter, exactMatch) := findKey comp s key
  if exactMatch then (1, eraseAt s iter) else (0, s)

def methods [Inhabited V] : MapMethods (SplitStorage K V) K V where
  insert := insert comp
  emplace := emplace comp
  tryEmplace := tryEmplace comp
  insertOrAssign := insertOrAssign comp
  subscript := subscript comp
  erase := erase comp
  cleared := .empty

end SplitFlatmap

theorem findIdx_cases {α : Type} (p : α → Bool) (xs : List α) :
    (∃ front e back, xs = front ++ e :: back ∧ p e = true ∧ xs.findIdx p = front.length) ∨
      ((∀ e ∈ xs, p e = false) ∧ xs.findIdx p = xs.length) := by
  by_cases hex : ∃ e ∈ xs, p e = true
  · have hlt : xs.findIdx p < xs.length := List.findIdx_lt_length.mpr hex
    refine Or.inl ⟨xs.take (xs.findIdx p), xs[xs.findIdx p], xs.drop (xs.findIdx p+1), ?_, ?_, ?_⟩
    · rw [← List.drop_eq_getElem_cons hlt, List.take_append_drop]
    · exact List.findIdx_getElem
    · rw [List.length_take_of_le (by omega)]
  · have hall : ∀ e ∈ xs, p e = false := fun e he => by
      by_contra hp
      exact hex ⟨e, he, by simpa using hp⟩
    exact Or.inr ⟨hall, List.findIdx_eq_length.mpr hall⟩

/-- The last element put in the place of another and taken away from the end. -/
theorem swap_last_perm {α : Type} (front back : List α) (e : α) :
    ((if front.length ≠ (front ++ e :: back).length-1 then
        ((front ++ e :: back).getLast?).elim (front ++ e :: back)
          ((front ++ e :: back).set front.length)
      else front ++ e :: back).dropLast).Perm (front ++ back) := by
  rcases List.eq_nil_or_concat back with rfl | ⟨mid, b, rfl⟩
  · rw [if_neg (by simp)]
    simp
  · rw [List.concat_eq_append]
    have hlen : front.length ≠ (front ++ e :: (mid ++ [b])).length-1 := by
      simp only [List.length_append, List.length_cons, List.length_nil]
      omega
    have hlast : (front ++ e :: (mid ++ [b])).getLast? = some b := by
      rw [show front ++ e :: (mid ++ [b]) = (front ++ e :: mid) ++ [b] by simp,
        List.getLast?_concat]
    have hset : (front ++ e :: (mid ++ [b])).set front.length b = (front ++ b :: mid) ++ [b] := by
      simp
    rw [if_pos hlen, hlast, Option.elim_some, hset, List.dropLast_concat]
    apply List.Perm.append_left
    exact (List.perm_append_singleton b mid).symm

namespace UnorderedFlatmap

variable {comp : Compare K} {m : FinMap comp.setoid V} {xs : FlatmapStorage K V}

inductive Spot (m : FinMap comp.setoid V) (key : K) : FlatmapStorage K V → ℕ → Prop where
  | found (front back : List (K × V)) (e : K × V) (hentry : m.entry key = some e)
      (he : comp.setoid e.1 key) (hheld : m.HeldBy (e :: (front ++ back))) :
      Spot m key (front ++ e :: back) front.length
  | missing (xs : FlatmapStorage K V) (hentry : m.entry key = none) : Spot m key xs xs.length

/-- What all the methods that insert do where the key is missing. -/
theorem push_held (h : m.HeldBy xs) {key : K} (v : V) (hentry : m.entry key = none) :
    (m.set (key, v)).HeldBy (xs ++ [(key, v)]) :=
  (h.set_of_none v hentry).perm (List.perm_append_singleton (key, v) xs).symm

variable [BEq K]

/-- Keys are the same to `==` if none of them comes before the other. -/
def SameKeys (comp : Compare K) : Prop := ∀ a b : K, (a == b) = comp.equiv a b

theorem find_spot (hkeys : SameKeys comp) (h : m.HeldBy xs) (key : K) :
    Spot m key xs (find xs key) := by
  unfold find
  rcases findIdx_cases (fun e => key == e.1) xs with ⟨front, e, back, rfl, he, hidx⟩ | ⟨hno, hidx⟩
  · have hke : comp.setoid key e.1 := (hkeys key e.1).symm.trans he
    have hek := comp.setoid.symm hke
    rw [hidx]
    exact .found front back e (h.entry_of_mem (by simp) hek) hek (h.perm List.perm_middle)
  · rw [hidx]
    apply Spot.missing
    rw [h.entry_none]
    intro e he heq
    have hno' := hno e he
    rw [hkeys] at hno'
    rw [show comp.equiv key e.1 = true from comp.setoid.symm heq] at hno'
    contradiction

theorem count_eq (hkeys : SameKeys comp) (h : m.HeldBy xs) (key : K) :
    count xs key = if m.has key then 1 else 0 := by
  have hflip : (fun e : K × V => e.1 == key) = fun e => key == e.1 := by
    funext e
    rw [hkeys, hkeys, Compare.equiv, Compare.equiv, Bool.and_comm]
  have hspot := find_spot hkeys h key
  unfold count
  rw [hflip]
  unfold find at hspot
  generalize xs.findIdx (fun e => key == e.1) = iter at hspot ⊢
  cases hspot with
  | found front back e hentry =>
    rw [FinMap.has, hentry, if_neg (by simp)]
    rfl
  | missing _ hentry =>
    rw [FinMap.has, hentry, if_pos rfl]
    rfl

theorem find_entry (hkeys : SameKeys comp) (h : m.HeldBy xs) (key : K) :
    xs[find xs key]? = m.entry key := by
  have hspot := find_spot hkeys h key
  generalize find xs key = iter at hspot ⊢
  cases hspot with
  | found front back e hentry => simp [hentry]
  | missing _ hentry => simp [hentry]

theorem insert_simulates [Inhabited V] (hkeys : SameKeys comp) :
    PlacesAlike (fun _ _ => True) (fun xs m => FinMap.HeldBy m xs) (insert (K := K) (V := V))
      (comp.meant : MapMethods (FinMap comp.setoid V) K V).insert := by
  intro xs m key v h
  have hspot := find_spot hkeys h key
  refine ⟨trivial, ?_⟩
  simp only [insert, Compare.meant]
  generalize find xs key = iter at hspot ⊢
  cases hspot with
  | found front back e hentry =>
    rw [FinMap.insert_of_some v hentry, FinMap.has, hentry, if_pos (by simp)]
    exact ⟨rfl, h⟩
  | missing _ hentry =>
    rw [FinMap.insert_of_none v hentry, FinMap.has, hentry, if_neg (by simp)]
    exact ⟨rfl, push_held h v hentry⟩

theorem insertOrAssign_simulates [Inhabited V] (hkeys : SameKeys comp) :
    PlacesAlike (fun _ _ => True) (fun xs m => FinMap.HeldBy m xs)
      (insertOrAssign (K := K) (V := V))
      (comp.meant : MapMethods (FinMap comp.setoid V) K V).insertOrAssign := by
  intro xs m key v h
  have hspot := find_spot hkeys h key
  refine ⟨trivial, ?_⟩
  simp only [insertOrAssign, Compare.meant]
  generalize find xs key = iter at hspot ⊢
  cases hspot with
  | found front back e hentry he hheld =>
    rw [FinMap.assign_of_some v hentry, FinMap.has, hentry, if_pos (by simp)]
    refine ⟨rfl, ?_⟩
    rw [FlatmapStorage.modify_length]
    exact (FinMap.HeldBy.set_head hheld).perm List.perm_middle.symm
  | missing _ hentry =>
    rw [FinMap.assign_of_none v hentry, FinMap.has, hentry, if_neg (by simp)]
    exact ⟨rfl, push_held h v hentry⟩

theorem methods_simulate [Inhabited V] (hkeys : SameKeys comp) :
    (methods (K := K) (V := V)).Simulates comp.meant (fun _ _ => True)
      (fun xs m => FinMap.HeldBy m xs) := by
  refine ⟨insert_simulates hkeys, insert_simulates hkeys, insert_simulates hkeys,
    insertOrAssign_simulates hkeys, ?_, ?_, FinMap.HeldBy.nil⟩
  · intro xs m key h
    have hspot := find_spot hkeys h key
    simp only [methods, subscript, Compare.meant]
    generalize find xs key = iter at hspot ⊢
    cases hspot with
    | found front back e hentry =>
      rw [FinMap.insert_of_some default hentry, FinMap.get, hentry, if_pos (by simp)]
      exact ⟨by simp [FlatmapStorage.second], h⟩
    | missing _ hentry =>
      rw [FinMap.insert_of_none default hentry, FinMap.get, hentry, if_neg (by simp)]
      exact ⟨by simp, push_held h default hentry⟩
  · intro xs m key h
    have hspot := find_spot hkeys h key
    simp only [methods, erase, Compare.meant]
    generalize find xs key = iter at hspot ⊢
    cases hspot with
    | found front back e hentry he hheld =>
      rw [FinMap.has, hentry, if_pos (by simp)]
      refine ⟨rfl, ?_⟩
      rw [← m.remove_congr he]
      exact hheld.remove_head.perm (swap_last_perm front back e).symm
    | missing _ hentry =>
      rw [FinMap.remove_of_none hentry, FinMap.has, hentry, if_neg (by simp)]
      exact ⟨rfl, h⟩

end UnorderedFlatmap

namespace SplitStorage

def ofPairs (xs : FlatmapStorage K V) : SplitStorage K V := ⟨xs.map Prod.fst, xs.map Prod.snd⟩

variable {xs : FlatmapStorage K V}

theorem ofPairs_fin (xs : FlatmapStorage K V) : (ofPairs xs).fin = xs.length :=
  List.length_map _

theorem ofPairs_size (xs : FlatmapStorage K V) : (ofPairs xs).size = xs.length :=
  List.length_map _

theorem ofPairs_entryAt (xs : FlatmapStorage K V) (iter : ℕ) :
    (ofPairs xs).entryAt iter = xs[iter]? := by
  simp only [entryAt, ofPairs, List.getElem?_map]
  cases xs[iter]? <;> rfl

theorem ofPairs_second [Inhabited V] (xs : FlatmapStorage K V) (iter : ℕ) :
    (ofPairs xs).second iter = FlatmapStorage.second xs iter := by
  simp only [second, ofPairs, List.getElem?_map, FlatmapStorage.second]
  cases xs[iter]? <;> rfl

theorem ofPairs_append (xs : FlatmapStorage K V) (key : K) (v : V) :
    (⟨(ofPairs xs).keys ++ [key], (ofPairs xs).values ++ [v]⟩ : SplitStorage K V) =
      ofPairs (xs ++ [(key, v)]) := by
  simp [ofPairs]

theorem ofPairs_set (xs : FlatmapStorage K V) (iter : ℕ) (v : V) :
    ({ ofPairs xs with values := (ofPairs xs).values.set iter v } : SplitStorage K V) =
      ofPairs (xs.modify iter (fun e => (e.1, v))) := by
  have hkeys : (xs.modify iter (fun e => (e.1, v))).map Prod.fst = xs.map Prod.fst := by
    apply List.ext_getElem?
    intro i
    simp only [List.getElem?_map, List.getElem?_modify]
    cases xs[i]? <;> by_cases h : iter = i <;> simp [h]
  have hvalues : (xs.modify iter (fun e => (e.1, v))).map Prod.snd = (xs.map Prod.snd).set iter v := by
    apply List.ext_getElem?
    intro i
    simp only [List.getElem?_map, List.getElem?_modify, List.getElem?_set, List.length_map]
    by_cases h : iter = i
    · subst h
      by_cases hlt : iter < xs.length
      · simp [hlt]
      · simp [hlt]
    · simp [h]
  simp only [ofPairs, hkeys, hvalues]

theorem ofPairs_insertAt (xs : FlatmapStorage K V) (iter : ℕ) (key : K) (v : V) :
    SplitFlatmap.insertAt (ofPairs xs) iter key v = ofPairs (xs.insertIdx iter (key, v)) := by
  simp only [SplitFlatmap.insertAt, ofPairs, List.map_insertIdx]

theorem ofPairs_eraseIdx (xs : FlatmapStorage K V) (iter : ℕ) :
    SplitFlatmap.eraseAt (ofPairs xs) iter = ofPairs (xs.eraseIdx iter) := by
  simp only [SplitFlatmap.eraseAt, ofPairs, List.eraseIdx_map]

theorem ofPairs_swapLast (xs : FlatmapStorage K V) (iter : ℕ) :
    UnorderedSplitFlatmap.eraseAt (ofPairs xs) iter = ofPairs (UnorderedFlatmap.eraseAt xs iter) := by
  unfold UnorderedSplitFlatmap.eraseAt UnorderedFlatmap.eraseAt
  rw [ofPairs_fin]
  by_cases h : iter ≠ xs.length-1
  · rw [if_pos h, if_pos h]
    simp only [ofPairs, List.getLast?_map, List.map_dropLast]
    cases xs.getLast? with
    | none => rfl
    | some e => simp [List.map_set]
  · rw [if_neg h, if_neg h]
    simp only [ofPairs, List.map_dropLast]

end SplitStorage

/-- The split class takes the same steps as the class with pairs. -/
theorem SplitFlatmap.methods_simulate [Inhabited V] (comp : Compare K) :
    (SplitFlatmap.methods (V := V) comp).Simulates (FlatmapStorage.methods comp) Eq
      (fun s xs => s = SplitStorage.ofPairs xs) := by
  have hfindKey (xs : FlatmapStorage K V) (key : K) :
      SplitFlatmap.findKey comp (.ofPairs xs) key = FlatmapStorage.findKey comp xs key := by
    unfold SplitFlatmap.findKey FlatmapStorage.findKey
    simp only [SplitStorage.ofPairs, BinarySearch.lowerBound_map, List.getElem?_map,
      Option.any_map]
  have hemplace : PlacesAlike Eq (fun s xs => s = SplitStorage.ofPairs xs)
      (SplitFlatmap.insert comp) (FlatmapStorage.emplace (V := V) comp) := by
    rintro _ xs key v rfl
    simp only [SplitFlatmap.insert, FlatmapStorage.emplace, hfindKey,
      SplitStorage.ofPairs_insertAt]
    cases (FlatmapStorage.findKey comp xs key).2 <;> exact ⟨rfl, rfl, rfl⟩
  refine ⟨?_, hemplace, hemplace, ?_, ?_, ?_, rfl⟩
  · intro s xs key v h
    have hsame : (FlatmapStorage.methods comp).insert xs key v =
        FlatmapStorage.emplace comp xs key v := FlatmapStorage.insert_eq_emplace xs key v
    rw [hsame]
    exact hemplace s xs key v h
  · rintro _ xs key v rfl
    simp only [SplitFlatmap.methods, SplitFlatmap.insertOrAssign, FlatmapStorage.methods,
      FlatmapStorage.insertOrAssign, hfindKey, SplitStorage.ofPairs_insertAt,
      SplitStorage.ofPairs_set]
    cases (FlatmapStorage.findKey comp xs key).2 <;> exact ⟨rfl, rfl, rfl⟩
  · rintro _ xs key rfl
    simp only [SplitFlatmap.methods, SplitFlatmap.subscript, FlatmapStorage.methods,
      FlatmapStorage.subscript, hfindKey, SplitStorage.ofPairs_insertAt,
      SplitStorage.ofPairs_second]
    cases (FlatmapStorage.findKey comp xs key).2 <;> exact ⟨rfl, rfl⟩
  · rintro _ xs key rfl
    simp only [SplitFlatmap.methods, SplitFlatmap.erase, FlatmapStorage.methods,
      FlatmapStorage.erase, hfindKey, SplitStorage.ofPairs_eraseIdx]
    cases (FlatmapStorage.findKey comp xs key).2 <;> exact ⟨rfl, rfl⟩

theorem UnorderedSplitFlatmap.find_ofPairs [BEq K] {comp : Compare K}
    (hkeys : UnorderedFlatmap.SameKeys comp) (xs : FlatmapStorage K V) (key : K) :
    UnorderedSplitFlatmap.find (.ofPairs xs) key = UnorderedFlatmap.find xs key := by
  -- the one class compares the entry with the key, the other the key with the entry
  have hflip : (fun e : K × V => e.1 == key) = fun e => key == e.1 := by
    funext e
    rw [hkeys, hkeys, Compare.equiv, Compare.equiv, Bool.and_comm]
  rw [UnorderedFlatmap.find, ← hflip]
  exact List.findIdx_map xs Prod.fst (fun k => k == key)

theorem UnorderedSplitFlatmap.methods_simulate [Inhabited V] [BEq K] {comp : Compare K}
    (hkeys : UnorderedFlatmap.SameKeys comp) :
    (UnorderedSplitFlatmap.methods (K := K) (V := V)).Simulates UnorderedFlatmap.methods Eq
      (fun s xs => s = SplitStorage.ofPairs xs) := by
  have hfind := UnorderedSplitFlatmap.find_ofPairs (V := V) hkeys
  have hinsert : PlacesAlike Eq (fun s xs => s = SplitStorage.ofPairs xs)
      (UnorderedSplitFlatmap.insert (K := K) (V := V)) UnorderedFlatmap.insert := by
    rintro _ xs key v rfl
    simp only [UnorderedSplitFlatmap.insert, UnorderedFlatmap.insert, hfind,
      SplitStorage.ofPairs_fin, SplitStorage.ofPairs_append]
    by_cases h : UnorderedFlatmap.find xs key ≠ xs.length
    · rw [if_pos h, if_pos h]
      exact ⟨rfl, rfl, rfl⟩
    · rw [if_neg h, if_neg h]
      exact ⟨rfl, rfl, rfl⟩
  -- `emplace` searches once more for a key that `try_emplace` has just not found
  have hagain (s : SplitStorage K V) (key : K) (v : V) :
      UnorderedSplitFlatmap.tryEmplace s key v = UnorderedSplitFlatmap.insert s key v := by
    unfold UnorderedSplitFlatmap.tryEmplace UnorderedSplitFlatmap.emplace
    by_cases h : UnorderedSplitFlatmap.find s key ≠ s.fin
    · rw [if_pos h, UnorderedSplitFlatmap.insert, if_pos h]
    · rw [if_neg h]
  refine ⟨hinsert, hinsert, ?_, ?_, ?_, ?_, rfl⟩
  · intro s xs key v h
    have hsame : (UnorderedSplitFlatmap.methods (K := K) (V := V)).tryEmplace s key v =
        UnorderedSplitFlatmap.insert s key v := hagain s key v
    rw [hsame]
    exact hinsert s xs key v h
  · rintro _ xs key v rfl
    simp only [UnorderedSplitFlatmap.methods, UnorderedSplitFlatmap.insertOrAssign,
      UnorderedSplitFlatmap.emplace, UnorderedSplitFlatmap.insert, UnorderedFlatmap.methods,
      UnorderedFlatmap.insertOrAssign, hfind, SplitStorage.ofPairs_fin,
      SplitStorage.ofPairs_append, SplitStorage.ofPairs_set]
    by_cases h : UnorderedFlatmap.find xs key ≠ xs.length
    · rw [if_pos h, if_pos h]
      exact ⟨rfl, rfl, rfl⟩
    · rw [if_neg h, if_neg h, if_neg h]
      exact ⟨rfl, rfl, rfl⟩
  · rintro _ xs key rfl
    simp only [UnorderedSplitFlatmap.methods, UnorderedSplitFlatmap.subscript,
      UnorderedSplitFlatmap.emplace, UnorderedSplitFlatmap.insert, UnorderedFlatmap.methods,
      UnorderedFlatmap.subscript, hfind, SplitStorage.ofPairs_fin,
      SplitStorage.ofPairs_append, SplitStorage.ofPairs_second]
    by_cases h : UnorderedFlatmap.find xs key ≠ xs.length
    · rw [if_pos h, if_pos h]
      exact ⟨rfl, rfl⟩
    · rw [if_neg h, if_neg h, if_neg h]
      exact ⟨by simp [SplitStorage.ofPairs], rfl⟩
  · rintro _ xs key rfl
    simp only [UnorderedSplitFlatmap.methods, UnorderedSplitFlatmap.erase,
      UnorderedFlatmap.methods, UnorderedFlatmap.erase, hfind, SplitStorage.ofPairs_fin,
      SplitStorage.ofPairs_swapLast]
    by_cases h : UnorderedFlatmap.find xs key ≠ xs.length
    · rw [if_pos h, if_pos h]
      exact ⟨rfl, rfl⟩
    · rw [if_neg h, if_neg h]
      exact ⟨rfl, rfl⟩

theorem MapResult.all_agree_eq {xs ys : List (MapResult V)}
    (h : List.Forall₂ (MapResult.Agree Eq) xs ys) : xs = ys := by
  induction h with
  | nil => rfl
  | cons hxy _ ih => rw [MapResult.agree_eq hxy, ih]

/-- Answers agree where both agree with the same third ones. -/
theorem MapResult.agree_through {P Q : ℕ → ℕ → Prop} {xs ys zs : List (MapResult V)}
    (hx : List.Forall₂ (MapResult.Agree P) xs zs) (hy : List.Forall₂ (MapResult.Agree Q) ys zs) :
    List.Forall₂ (MapResult.Agree fun _ _ => True) xs ys := by
  induction hx generalizing ys with
  | nil =>
    cases hy
    exact .nil
  | cons hxz _ ih =>
    cases hy with
    | cons hyz hrest =>
      apply List.Forall₂.cons _ (ih hrest)
      cases hxz with
      | placed b => cases hyz; exact .placed b trivial
      | value v => cases hyz; exact .value v
      | count n => cases hyz; exact .count n
      | done => cases hyz; exact .done

/-- The three siblings of a `flatmap` have its size and find what it finds, and the vectors of
keys and of values belong together. -/
structure SameMaps (comp : Compare K) [BEq K] [Inhabited V] (f u : FlatmapStorage K V)
    (us s : SplitStorage K V) : Prop where
  size : u.length = f.length ∧ us.size = f.length ∧ s.size = f.length
  find : ∀ key, let e := f[FlatmapStorage.find comp f key]?
    u[UnorderedFlatmap.find u key]? = e ∧ us.entryAt (UnorderedSplitFlatmap.find us key) = e ∧
      s.entryAt (SplitFlatmap.find comp s key) = e
  count : ∀ key, let n := FlatmapStorage.count comp f key
    UnorderedFlatmap.count u key = n ∧ UnorderedSplitFlatmap.count us key = n ∧
      SplitFlatmap.count comp s key = n
  subscript : ∀ key, let v := (FlatmapStorage.subscript comp f key).1
    (UnorderedFlatmap.subscript u key).1 = v ∧ (UnorderedSplitFlatmap.subscript us key).1 = v ∧
      (SplitFlatmap.subscript comp s key).1 = v
  lockstep : us.keys.length = us.values.length ∧ s.keys.length = s.values.length
  belong : ∀ (i : ℕ) (e : K × V), us.entryAt i = some e ∨ s.entryAt i = some e →
    f[FlatmapStorage.find comp f e.1]? = some e

theorem sameMaps_of_held [BEq K] [Inhabited V] {comp : Compare K} {f u : FlatmapStorage K V}
    {m : FinMap comp.setoid V} (hkeys : UnorderedFlatmap.SameKeys comp)
    (hf : FlatmapStorage.Holds comp f m) (hu : m.HeldBy u) :
    SameMaps comp f u (.ofPairs u) (.ofPairs f) := by
  have hcoin := hf.coincides
  have hsplit (key : K) : SplitFlatmap.find comp (.ofPairs f) key =
      FlatmapStorage.find comp f key := by
    unfold SplitFlatmap.find FlatmapStorage.find SplitFlatmap.findKey FlatmapStorage.findKey
    rw [SplitStorage.ofPairs_fin]
    simp only [SplitStorage.ofPairs, BinarySearch.lowerBound_map, List.getElem?_map,
      Option.any_map]
  have hentry (key : K) : f[FlatmapStorage.find comp f key]? = m.entry key := hcoin.found key
  have hcount (key : K) : SplitFlatmap.count comp (.ofPairs f) key =
      FlatmapStorage.count comp f key := by
    have hfind := hentry key
    unfold SplitFlatmap.count
    rw [hsplit, SplitStorage.ofPairs_fin, hcoin.count key]
    by_cases hend : FlatmapStorage.find comp f key = f.length
    · rw [hend, List.getElem?_length] at hfind
      rw [if_pos hend, FinMap.has, ← hfind]
      rfl
    · have hne : m.has key = true := by
        by_contra hno
        have hsize := hcoin.find key
        rw [if_neg hno, ← hcoin.size] at hsize
        exact hend hsize
      rw [if_neg hend, if_pos hne]
  have hsubf (key : K) := (FlatmapStorage.subscript_holds hf key).1
  have hsubu (key : K) := ((UnorderedFlatmap.methods_simulate hkeys).subscript u m key hu).1
  have hsubus (key : K) :=
    ((UnorderedSplitFlatmap.methods_simulate hkeys).subscript _ u key rfl).1
  have husize : u.length = f.length := by rw [← hu.size, hcoin.size]
  have hufind (key : K) : u[UnorderedFlatmap.find u key]? = m.entry key :=
    UnorderedFlatmap.find_entry hkeys hu key
  refine ⟨⟨husize, ?_, SplitStorage.ofPairs_size f⟩, fun key => ⟨?_, ?_, ?_⟩,
    fun key => ⟨?_, ?_, hcount key⟩, fun key => ⟨?_, ?_, ?_⟩, ⟨?_, ?_⟩, fun i e he => ?_⟩
  · rw [SplitStorage.ofPairs_size, husize]
  · rw [hufind, hentry]
  · rw [SplitStorage.ofPairs_entryAt, UnorderedSplitFlatmap.find_ofPairs hkeys, hufind, hentry]
  · rw [SplitStorage.ofPairs_entryAt, hsplit]
  · rw [UnorderedFlatmap.count_eq hkeys hu, hcoin.count]
  · rw [UnorderedSplitFlatmap.count, UnorderedSplitFlatmap.find_ofPairs hkeys,
      SplitStorage.ofPairs_fin, hcoin.count, FinMap.has, ← hufind]
    have hle : UnorderedFlatmap.find u key ≤ u.length := List.findIdx_le_length
    rcases Nat.lt_or_eq_of_le hle with hlt | heq
    · rw [if_neg (by omega), List.getElem?_eq_getElem hlt]
      rfl
    · rw [if_pos heq, heq, List.getElem?_length]
      rfl
  · exact (hsubu key).trans (hsubf key).symm
  · exact (hsubus key).trans ((hsubu key).trans (hsubf key).symm)
  · exact ((SplitFlatmap.methods_simulate comp).subscript _ f key rfl).1
  · simp [SplitStorage.ofPairs]
  · simp [SplitStorage.ofPairs]
  · rw [hentry]
    rw [SplitStorage.ofPairs_entryAt, SplitStorage.ofPairs_entryAt] at he
    rcases he with he | he
    · exact hu.entry_of_mem (List.mem_of_getElem? he) (comp.setoid.refl e.1)
    · exact hf.held.entry_of_mem (List.mem_of_getElem? he) (comp.setoid.refl e.1)

/-- The same operations on a `flatmap` and on its siblings return the same answers, but for the
iterators, and leave the same map. -/
theorem flatmaps_agree [BEq K] [Inhabited V] (comp : Compare K)
    (hkeys : UnorderedFlatmap.SameKeys comp) (ops : List (MapOp K V)) :
    let f := Runs.run (FlatmapStorage.methods comp).apply [] ops
    let u := Runs.run UnorderedFlatmap.methods.apply [] ops
    let us := Runs.run UnorderedSplitFlatmap.methods.apply .empty ops
    let s := Runs.run (SplitFlatmap.methods comp).apply .empty ops
    List.Forall₂ (MapResult.Agree fun _ _ => True) u.1 f.1 ∧ us.1 = u.1 ∧ s.1 = f.1 ∧
      SameMaps comp f.2 u.2 us.2 s.2 := by
  intro f u us s
  have hf := Runs.run_rel (FlatmapStorage.methods_simulate (V := V) comp).apply ops [] .empty
    FlatmapStorage.holds_nil
  have hu := Runs.run_rel (UnorderedFlatmap.methods_simulate (V := V) hkeys).apply ops [] .empty
    FinMap.HeldBy.nil
  have hs := Runs.run_rel (SplitFlatmap.methods_simulate (V := V) comp).apply ops .empty [] rfl
  have hus := Runs.run_rel (UnorderedSplitFlatmap.methods_simulate (V := V) hkeys).apply ops
    .empty [] rfl
  refine ⟨MapResult.agree_through hu.1 hf.1, MapResult.all_agree_eq hus.1,
    MapResult.all_agree_eq hs.1, ?_⟩
  have hsame := sameMaps_of_held hkeys hf.2 hu.2
  rw [← hus.2, ← hs.2] at hsame
  exact hsame

/-- `std::less<>` and `==` of a linear order. -/
theorem UnorderedFlatmap.sameKeys_less (K : Type) [LinearOrder K] :
    SameKeys (Compare.less K) := by
  intro a b
  unfold Compare.equiv Compare.less
  rw [Bool.eq_iff_iff]
  simp only [beq_iff_eq, Bool.and_eq_true, Bool.not_eq_true', decide_eq_false_iff_not, not_lt]
  exact ⟨fun h => ⟨h.ge, h.le⟩, fun h => le_antisymm h.2 h.1⟩

theorem flatmaps_agree_nat :
    let ops := [MapOp.insert 3 10, .insert 1 20, .erase 3, .insertOrAssign 1 30]
    (Runs.run UnorderedFlatmap.methods.apply ([] : FlatmapStorage ℕ ℕ) ops).2 = [(1, 30)] ∧
      SameMaps (Compare.less ℕ)
        (Runs.run (FlatmapStorage.methods (Compare.less ℕ)).apply [] ops).2
        (Runs.run UnorderedFlatmap.methods.apply [] ops).2
        (Runs.run UnorderedSplitFlatmap.methods.apply .empty ops).2
        (Runs.run (SplitFlatmap.methods (Compare.less ℕ)).apply .empty ops).2 := by
  have hagree := flatmaps_agree (V := ℕ) (Compare.less ℕ) (UnorderedFlatmap.sameKeys_less ℕ)
    [MapOp.insert 3 10, .insert 1 20, .erase 3, .insertOrAssign 1 30]
  exact ⟨rfl, hagree.2.2.2⟩

end Virthttp
