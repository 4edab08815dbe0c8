import Mathlib.Data.List.ReduceOption
import Mathlib.Tactic.Common

namespace Virthttp

variable {α : Type}

/-- An array that libvirt has allocated: its elements, and a null pointer after them. Pointers
into it are counted in elements. -/
structure NullTerminated (α : Type) where
  base : ℕ
  nonnull : base ≠ 0
  elems : List α

namespace NullTerminated

def cells (arr : NullTerminated α) : List (Option α) := arr.elems.map some ++ [none]

def read (arr : NullTerminated α) (it : ℕ) : Option (Option α) :=
  if it < arr.base then none else arr.cells[it - arr.base]?

end NullTerminated

/-- What a turn of a loop does: the condition is false, or the next element that is read is
outside of the array, or it is released, where it is not null. -/
inductive Turn (α : Type) where
  | exits
  | outside
  | goesOn (it : ℕ) (released : Option α)

inductive LoopEnd where
  | finished
  | outside
  deriving DecidableEq

def turns (turn : ℕ → Turn α) : ℕ → ℕ → List α → Option (LoopEnd × List α)
  | 0, _, _ => none
  | fuel + 1, it, released =>
    match turn it with
    | .exits => some (.finished, released)
    | .outside => some (.outside, released)
    | .goesOn it' e => turns turn fuel it' (released ++ e.toList)

inductive Deleter where
  | span
  | leases

/-- `while (it) dtroy(it++)` and `while (it++) virNetworkDHCPLeaseFree(*it)`: what the condition
tests is the pointer. -/
def Deleter.turn (arr : NullTerminated α) : Deleter → ℕ → Turn α
  | .span, it =>
    if it = 0 then .exits
    else
      match arr.read it with
      | none => .outside
      | some e => .goesOn (it + 1) e
  | .leases, it =>
    if it = 0 then .exits
    else
      match arr.read (it + 1) with
      | none => .outside
      | some e => .goesOn (it + 1) e

def Deleter.run (d : Deleter) (arr : NullTerminated α) (fuel : ℕ) : Option (LoopEnd × List α) :=
  turns (d.turn arr) fuel arr.base []

/-- The loop ends without reading outside, and has released every element exactly once. -/
def Deleter.Right (d : Deleter) (arr : NullTerminated α) : Prop :=
  ∃ fuel released, d.run arr fuel = some (.finished, released) ∧ released.Perm arr.elems

section Turns

variable {turn : ℕ → Turn α}

/-- More fuel does not change how a loop ends. -/
theorem turns_add {fuel it : ℕ} {released : List α} {r : LoopEnd × List α}
    (h : turns turn fuel it released = some r) (more : ℕ) :
    turns turn (fuel + more) it released = some r := by
  induction fuel generalizing it released with
  | zero => cases h
  | succ fuel ih =>
    rw [Nat.add_right_comm, turns]
    rw [turns] at h
    cases hturn : turn it with
    | exits => simpa only [hturn] using h
    | outside => simpa only [hturn] using h
    | goesOn it' e =>
      simp only [hturn] at h
      exact ih h

theorem turns_unique {fuel fuel' it : ℕ} {released : List α} {r r' : LoopEnd × List α}
    (h : turns turn fuel it released = some r) (h' : turns turn fuel' it released = some r') :
    r = r' := by
  have hmore := turns_add h fuel'
  have hmore' := turns_add h' fuel
  rw [Nat.add_comm, hmore] at hmore'
  exact Option.some.inj hmore'

/-- A loop that goes through the cells one after the other, and then reads outside. -/
theorem turns_through {cells : List (Option α)} {it : ℕ} {released : List α}
    (hcells : ∀ i e, cells[i]? = some e → turn (it + i) = .goesOn (it + i + 1) e)
    (hend : turn (it + cells.length) = .outside) :
    turns turn (cells.length + 1) it released = some (.outside, released ++ cells.reduceOption) := by
  induction cells generalizing it released with
  | nil =>
    have hturn : turn it = .outside := hend
    rw [turns, hturn, List.reduceOption_nil, List.append_nil]
  | cons e cells ih =>
    have hturn : turn it = .goesOn (it + 1) e := hcells 0 e rfl
    have hrest : ∀ i e', cells[i]? = some e' → turn (it + 1 + i) = .goesOn (it + 1 + i + 1) e' := by
      intro i e' he
      have hnext := hcells (i + 1) e' (by simpa using he)
      rwa [Nat.add_assoc it 1 i, Nat.add_comm 1 i]
    have hlast : turn (it + 1 + cells.length) = .outside := by
      rwa [Nat.add_assoc it 1, Nat.add_comm 1 cells.length]
    rw [List.length_cons, turns, hturn]
    change turns turn (cells.length + 1) (it + 1) _ = _
    rw [ih hrest hlast, List.append_assoc]
    cases e <;> simp

end Turns

namespace NullTerminated

theorem read_base_add (arr : NullTerminated α) (i : ℕ) :
    arr.read (arr.base + i) = arr.cells[i]? := by
  have hle : ¬arr.base + i < arr.base := by omega
  rw [read, if_neg hle, Nat.add_sub_cancel_left]

theorem read_end (arr : NullTerminated α) : arr.read (arr.base + arr.cells.length) = none := by
  rw [read_base_add]
  exact List.getElem?_eq_none (Nat.le_refl _)

theorem reduceOption_cells (arr : NullTerminated α) : arr.cells.reduceOption = arr.elems := by
  rw [cells, List.reduceOption_append]
  simp [List.reduceOption]

theorem reduceOption_tail (arr : NullTerminated α) :
    arr.cells.tail.reduceOption = arr.elems.tail := by
  unfold cells
  cases arr.elems with
  | nil => rfl
  | cons x xs => simp [List.reduceOption]

end NullTerminated

namespace Deleter

/-- A pointer into the array is not null, so that the condition is true for ever. -/
theorem base_add_ne_zero (arr : NullTerminated α) (i : ℕ) : arr.base + i ≠ 0 := by
  have hnonnull := arr.nonnull
  omega

/-- Every element is released, then the null pointer is passed. -/
theorem span_run (arr : NullTerminated α) :
    span.run arr (arr.cells.length + 1) = some (.outside, arr.elems) := by
  have hcells : ∀ i e, arr.cells[i]? = some e →
      span.turn arr (arr.base + i) = .goesOn (arr.base + i + 1) e := by
    intro i e he
    rw [turn, if_neg (base_add_ne_zero arr i), arr.read_base_add, he]
  have hend : span.turn arr (arr.base + arr.cells.length) = .outside := by
    rw [turn, if_neg (base_add_ne_zero arr _), arr.read_end]
  have hrun : span.run arr (arr.cells.length + 1) =
      some (.outside, [] ++ arr.cells.reduceOption) := turns_through hcells hend
  rw [arr.reduceOption_cells, List.nil_append] at hrun
  exact hrun

/-- The pointer is advanced before it is read: the first element is never released. -/
theorem leases_run (arr : NullTerminated α) :
    leases.run arr (arr.cells.tail.length + 1) = some (.outside, arr.elems.tail) := by
  have hlength : arr.cells.tail.length + 1 = arr.cells.length := by
    rw [List.length_tail, NullTerminated.cells, List.length_append, List.length_singleton]
    omega
  have hcells : ∀ i e, arr.cells.tail[i]? = some e →
      leases.turn arr (arr.base + i) = .goesOn (arr.base + i + 1) e := by
    intro i e he
    rw [List.getElem?_tail] at he
    rw [turn, if_neg (base_add_ne_zero arr i), Nat.add_assoc, arr.read_base_add, he]
  have hend : leases.turn arr (arr.base + arr.cells.tail.length) = .outside := by
    rw [turn, if_neg (base_add_ne_zero arr _), Nat.add_assoc, hlength, arr.read_end]
  have hrun : leases.run arr (arr.cells.tail.length + 1) =
      some (.outside, [] ++ arr.cells.tail.reduceOption) := turns_through hcells hend
  rw [arr.reduceOption_tail, List.nil_append] at hrun
  exact hrun

theorem not_right_of_outside {d : Deleter} {arr : NullTerminated α} {fuel : ℕ}
    {released : List α} (hrun : d.run arr fuel = some (.outside, released)) : ¬d.Right arr := by
  intro hright
  obtain ⟨fuel', released', hrun', _⟩ := hright
  cases turns_unique hrun hrun'

/-- Whatever the array, the deleter reads beyond the null pointer at its end. -/
theorem not_right (d : Deleter) (arr : NullTerminated α) : ¬d.Right arr := by
  cases d with
  | span => exact not_right_of_outside (span_run arr)
  | leases => exact not_right_of_outside (leases_run arr)

/-- A single lease is not released at all, and a single device is followed by what is outside. -/
theorem single_element_outside :
    let arr : NullTerminated ℕ := ⟨1, by decide, [7]⟩
    (leases.run arr 2 = some (.outside, []) ∧ ¬leases.Right arr) ∧
      span.run arr 3 = some (.outside, [7]) ∧ ¬span.Right arr := by
  intro arr
  have hleases : leases.run arr 2 = some (.outside, []) := rfl
  have hspan : span.run arr 3 = some (.outside, [7]) := rfl
  exact ⟨⟨hleases, not_right_of_outside hleases⟩, hspan, not_right_of_outside hspan⟩

end Deleter

end Virthttp
