import Virthttp.BinarySearch
import Virthttp.FinMap
import Virthttp.Flatmap
import Mathlib.Data.List.InsertIdx

/-! The operations of `flatmap` on its vector of pairs. An iterator is a position in the vector,
the end of the vector is its length. -/
namespace Virthttp

abbrev FlatmapStorage (K V : Type) := List (K × V)

inductive MapOp (K V : Type) where
  | insert (key : K) (v : V)
  | emplace (key : K) (v : V)
  | tryEmplace (key : K) (v : V)
  | insertOrAssign (key : K) (v : V)
  | subscript (key : K)
  | erase (key : K)
  | clear

/-- What an operation returns: an iterator and whether a pair was inserted, the value that is
referred to, or a count. -/
inductive MapResult (V : Type) where
  | placed (pos : ℕ) (inserted : Bool)
  | value (v : V)
  | count (n : ℕ)
  | done

structure MapMethods (σ K V : Type) where
  insert : σ → K → V → (ℕ × Bool) × σ
  emplace : σ → K → V → (ℕ × Bool) × σ
  tryEmplace : σ → K → V → (ℕ × Bool) × σ
  insertOrAssign : σ → K → V → (ℕ × Bool) × σ
  subscript : σ → K → V × σ
  erase : σ → K → ℕ × σ
  cleared : σ

def MapMethods.apply {σ K V : Type} (c : MapMethods σ K V) (s : σ) :
    MapOp K V → MapResult V × σ
  | .insert key v => Prod.map (fun r => .placed r.1 r.2) id (c.insert s key v)
  | .emplace key v => Prod.map (fun r => .placed r.1 r.2) id (c.emplace s key v)
  | .tryEmplace key v => Prod.map (fun r => .placed r.1 r.2) id (c.tryEmplace s key v)
  | .insertOrAssign key v => Prod.map (fun r => .placed r.1 r.2) id (c.insertOrAssign s key v)
  | .subscript key => Prod.map .value id (c.subscript s key)
  | .erase key => Prod.map .count id (c.erase s key)
  | .clear => (.done, c.cleared)

namespace FlatmapStorage

variable {K V : Type} (comp : Compare K)

def findKey (xs : FlatmapStorage K V) (key : K) : ℕ × Bool :=
  let i := BinarySearch.lowerBound (fun e => comp.lt e.1 key) xs
  (i, (xs[i]?).any (fun e => !comp.lt key e.1))

def find (xs : FlatmapStorage K V) (key : K) : ℕ :=
  let (iter, exactMatch) := findKey comp xs key
  if exactMatch then iter else xs.length

def count (xs : FlatmapStorage K V) (key : K) : ℕ :=
  let (_, exactMatch) := findKey comp xs key
  if exactMatch then 1 else 0

def second [Inhabited V] (xs : FlatmapStorage K V) (iter : ℕ) : V := (xs[iter]?).elim default Prod.snd

def subscript [Inhabited V] (xs : FlatmapStorage K V) (key : K) : V × FlatmapStorage K V :=
  let (iter, exactMatch) := findKey comp xs key
  if exactMatch then (second xs iter, xs)
  else (second (xs.insertIdx iter (key, default)) iter, xs.insertIdx iter (key, default))

/-- A pair behind all the others is pushed back. -/
def insert (xs : FlatmapStorage K V) (key : K) (v : V) : (ℕ × Bool) × FlatmapStorage K V :=
  let (iter, exactMatch) := findKey comp xs key
  if exactMatch then ((iter, false), xs)
  else if iter = xs.length then ((xs.length, true), xs ++ [(key, v)])
  else ((iter, true), xs.insertIdx iter (key, v))

def insertOrAssign (xs : FlatmapStorage K V) (key : K) (v : V) :
    (ℕ × Bool) × FlatmapStorage K V :=
  let (iter, exactMatch) := findKey comp xs key
  if exactMatch then ((iter, false), xs.modify iter (fun e => (e.1, v)))
  else ((iter, true), xs.insertIdx iter (key, v))

def emplace (xs : FlatmapStorage K V) (key : K) (v : V) : (ℕ × Bool) × FlatmapStorage K V :=
  let (iter, exactMatch) := findKey comp xs key
  if exactMatch then ((iter, false), xs)
  else ((iter, true), xs.insertIdx iter (key, v))

def tryEmplace (xs : FlatmapStorage K V) (key : K) (v : V) : (ℕ × Bool) × FlatmapStorage K V :=
  let (iter, exactMatch) := findKey comp xs key
  if exactMatch then ((iter, false), xs)
  else ((iter, true), xs.insertIdx iter (key, v))

/-- `erase(iterator)`, undefined at the end. -/
def eraseAt (xs : FlatmapStorage K V) (iter : ℕ) : Option (FlatmapStorage K V) :=
  if iter < xs.length then some (xs.eraseIdx iter) else none

def erase (xs : FlatmapStorage K V) (key : K) : ℕ × FlatmapStorage K V :=
  let (iter, exactMatch) := findKey comp xs key
  if exactMatch then (1, xs.eraseIdx iter) else (0, xs)

def methods [Inhabited V] : MapMethods (FlatmapStorage K V) K V where
  insert := insert comp
  emplace := emplace comp
  tryEmplace := tryEmplace comp
  insertOrAssign := insertOrAssign comp
  subscript := subscript comp
  erase := erase comp
  cleared := []

end FlatmapStorage

inductive MapResult.Agree {V : Type} (P : ℕ → ℕ → Prop) : MapResult V → MapResult V → Prop where
  | placed {i j : ℕ} (b : Bool) (h : P i j) : Agree P (.placed i b) (.placed j b)
  | value (v : V) : Agree P (.value v) (.value v)
  | count (n : ℕ) : Agree P (.count n) (.count n)
  | done : Agree P .done .done

theorem MapResult.agree_eq {V : Type} {x y : MapResult V} (h : Agree Eq x y) : x = y := by
  cases h with
  | placed b hij => rw [hij]
  | value | count | done => rfl

def PlacesAlike {σ τ K V : Type} (P : ℕ → ℕ → Prop) (R : σ → τ → Prop)
    (f : σ → K → V → (ℕ × Bool) × σ) (g : τ → K → V → (ℕ × Bool) × τ) : Prop :=
  ∀ s t key v, R s t → P (f s key v).1.1 (g t key v).1.1 ∧ (f s key v).1.2 = (g t key v).1.2 ∧
    R (f s key v).2 (g t key v).2

structure MapMethods.Simulates {σ τ K V : Type} (c : MapMethods σ K V) (d : MapMethods τ K V)
    (P : ℕ → ℕ → Prop) (R : σ → τ → Prop) : Prop where
  insert : PlacesAlike P R c.insert d.insert
  emplace : PlacesAlike P R c.emplace d.emplace
  tryEmplace : PlacesAlike P R c.tryEmplace d.tryEmplace
  insertOrAssign : PlacesAlike P R c.insertOrAssign d.insertOrAssign
  subscript : ∀ s t key, R s t → (c.subscript s key).1 = (d.subscript t key).1 ∧
    R (c.subscript s key).2 (d.subscript t key).2
  erase : ∀ s t key, R s t → (c.erase s key).1 = (d.erase t key).1 ∧
    R (c.erase s key).2 (d.erase t key).2
  cleared : R c.cleared d.cleared

theorem MapMethods.Simulates.apply {σ τ K V : Type} {c : MapMethods σ K V}
    {d : MapMethods τ K V} {P : ℕ → ℕ → Prop} {R : σ → τ → Prop} (h : c.Simulates d P R)
    (s : σ) (t : τ) (o : MapOp K V) (hst : R s t) :
    (c.apply s o).1.Agree P (d.apply t o).1 ∧ R (c.apply s o).2 (d.apply t o).2 := by
  have hplaced {f : σ → K → V → (ℕ × Bool) × σ} {g : τ → K → V → (ℕ × Bool) × τ}
      (hfg : PlacesAlike P R f g) (key : K) (v : V) :
      (MapResult.placed (f s key v).1.1 (f s key v).1.2 : MapResult V).Agree P
        (.placed (g t key v).1.1 (g t key v).1.2) ∧ R (f s key v).2 (g t key v).2 := by
    obtain ⟨hpos, hins, hR⟩ := hfg s t key v hst
    rw [hins]
    exact ⟨.placed _ hpos, hR⟩
  cases o with
  | insert key v => exact hplaced h.insert key v
  | emplace key v => exact hplaced h.emplace key v
  | tryEmplace key v => exact hplaced h.tryEmplace key v
  | insertOrAssign key v => exact hplaced h.insertOrAssign key v
  | subscript key =>
    obtain ⟨hres, hR⟩ := h.subscript s t key hst
    simp only [MapMethods.apply, Prod.map, hres]
    exact ⟨.value _, hR⟩
  | erase key =>
    obtain ⟨hres, hR⟩ := h.erase s t key hst
    simp only [MapMethods.apply, Prod.map, hres]
    exact ⟨.count _, hR⟩
  | clear => exact ⟨.done, h.cleared⟩

namespace FlatmapStorage

variable {K V : Type} {comp : Compare K}

def Sorted (comp : Compare K) (xs : FlatmapStorage K V) : Prop :=
  xs.Pairwise (fun a b => comp.lt a.1 b.1 = true)

inductive Cut (comp : Compare K) (key : K) : FlatmapStorage K V → ℕ × Bool → Prop where
  | found (front back : List (K × V)) (e : K × V)
      (hfront : ∀ a ∈ front, comp.lt a.1 key = true) (he : comp.equiv e.1 key = true)
      (hback : ∀ b ∈ back, comp.lt key b.1 = true) :
      Cut comp key (front ++ e :: back) (front.length, true)
  | missing (front back : List (K × V)) (hfront : ∀ a ∈ front, comp.lt a.1 key = true)
      (hback : ∀ b ∈ back, comp.lt key b.1 = true) :
      Cut comp key (front ++ back) (front.length, false)

theorem Sorted.partitioned {xs : FlatmapStorage K V} (h : Sorted comp xs) (key : K) :
    BinarySearch.Partitioned (fun e => comp.lt e.1 key) xs :=
  h.imp fun hab hb => comp.trans _ _ _ hab hb

theorem findKey_cut {xs : FlatmapStorage K V} (h : Sorted comp xs) (key : K) :
    Cut comp key xs (findKey comp xs key) := by
  have hpart := h.partitioned key
  have hle := BinarySearch.lowerBound_le hpart
  have hsort := h
  unfold findKey
  generalize hi : BinarySearch.lowerBound (fun e => comp.lt e.1 key) xs = i at hle ⊢
  have hfront : ∀ a ∈ xs.take i, comp.lt a.1 key = true := fun a ha =>
    BinarySearch.of_mem_take_lowerBound hpart (hi ▸ ha)
  have hrest : ∀ b ∈ xs.drop i, comp.lt b.1 key = false := fun b hb =>
    BinarySearch.of_mem_drop_lowerBound hpart (hi ▸ hb)
  have hlen : (xs.take i).length = i := List.length_take_of_le hle
  have hget : xs[i]? = (xs.drop i).head? := List.head?_drop.symm
  rw [← List.take_append_drop i xs] at hsort
  dsimp only
  rw [hget]
  -- the head of what is left is equivalent to the key or above it, and so is all that follows
  cases hd : xs.drop i with
  | nil =>
    have hcut : Cut comp key (xs.take i ++ []) ((xs.take i).length, false) :=
      .missing _ [] hfront (by simp)
    rw [← hd, List.take_append_drop, hlen] at hcut
    exact hcut
  | cons e back =>
    rw [hd] at hrest hsort
    have hafter : ∀ b ∈ back, comp.lt e.1 b.1 = true :=
      (List.pairwise_cons.mp (List.pairwise_append.mp hsort).2.1).1
    have hlow := hrest e List.mem_cons_self
    rw [List.head?_cons, Option.any_some]
    cases hlt : comp.lt key e.1 with
    | true =>
      have hcut : Cut comp key (xs.take i ++ e :: back) ((xs.take i).length, false) := by
        apply Cut.missing _ _ hfront
        intro b hb
        rcases List.mem_cons.mp hb with rfl | hb
        · exact hlt
        · exact comp.trans _ _ _ hlt (hafter b hb)
      rw [← hd, List.take_append_drop, hlen] at hcut
      exact hcut
    | false =>
      have he : comp.equiv e.1 key = true := by simp [Compare.equiv, hlow, hlt]
      have hcut : Cut comp key (xs.take i ++ e :: back) ((xs.take i).length, true) := by
        apply Cut.found _ _ _ hfront he
        intro b hb
        rw [← (Flatmap.lt_congr he).2]
        exact hafter b hb
      rw [← hd, List.take_append_drop, hlen] at hcut
      exact hcut

end FlatmapStorage

end Virthttp
