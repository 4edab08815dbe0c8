import Mathlib.Data.Nat.Digits.Lemmas
import Mathlib.Tactic.Common

/-! Texts of digits, the most significant of them first: their values, when two of them have the
same value, and words that are read from them by shifts. -/
namespace Numerals

variable {α : Type} {b : ℕ} {digit : α → ℕ}

def value (b : ℕ) (digit : α → ℕ) (xs : List α) : ℕ := Nat.ofDigits b (xs.map digit).reverse

def significant (digit : α → ℕ) (xs : List α) : List α := xs.dropWhile fun x => digit x == 0

def spell (b : ℕ) (letter : ℕ → α) (len n : ℕ) : List α :=
  ((Nat.digitsAppend b len n).map letter).reverse

theorem value_concat (xs : List α) (x : α) :
    value b digit (xs ++ [x]) = digit x + b*value b digit xs := by
  rw [value, List.map_append, List.map_singleton, List.reverse_concat, Nat.ofDigits_cons, value]

theorem value_lt (hb : 1 < b) {xs : List α} (hxs : ∀ x ∈ xs, digit x < b) :
    value b digit xs < b^xs.length := by
  have hdigits : ∀ d ∈ (xs.map digit).reverse, d < b := by
    intro d hd
    obtain ⟨x, hx, rfl⟩ := List.mem_map.mp (List.mem_reverse.mp hd)
    exact hxs x hx
  have hlt := Nat.ofDigits_lt_base_pow_length hb hdigits
  rw [List.length_reverse, List.length_map] at hlt
  exact hlt

theorem value_significant (xs : List α) :
    value b digit (significant digit xs) = value b digit xs := by
  induction xs with
  | nil => rfl
  | cons x xs ih =>
    rw [significant, List.dropWhile_cons]
    split
    · rename_i hx
      have hzero : digit x = 0 := beq_iff_eq.mp hx
      change value b digit (significant digit xs) = _
      rw [ih, value, value, List.map_cons, hzero, Nat.ofDigits_reverse_zero_cons]
    · rfl

/-- What is left of a text are the digits of its value. -/
theorem digits_value (hb : 1 < b) {xs : List α} (hxs : ∀ x ∈ xs, digit x < b) :
    b.digits (value b digit xs) = ((significant digit xs).map digit).reverse := by
  rw [← value_significant, value]
  apply Nat.digits_ofDigits b hb
  · intro d hd
    obtain ⟨x, hx, rfl⟩ := List.mem_map.mp (List.mem_reverse.mp hd)
    exact hxs x ((List.dropWhile_sublist _).subset hx)
  · intro hne
    have hleft : significant digit xs ≠ [] := by simpa using hne
    have hhead : (digit ((significant digit xs).head hleft) == 0) = false :=
      List.head_dropWhile_not (fun x => digit x == 0) hleft
    rw [List.getLast_reverse, List.head_map]
    exact beq_eq_false_iff_ne.mp hhead

theorem value_inj (hb : 1 < b) {xs ys : List α} (hxs : ∀ x ∈ xs, digit x < b)
    (hys : ∀ y ∈ ys, digit y < b) : value b digit xs = value b digit ys ↔
      (significant digit xs).map digit = (significant digit ys).map digit := by
  rw [← Nat.digits_inj_iff (b := b), digits_value hb hxs, digits_value hb hys, List.reverse_inj]

/-- The zeros of a text may be known by another test. -/
theorem significant_eq {p : α → Bool} {xs : List α} (hp : ∀ x ∈ xs, p x = true ↔ digit x = 0) :
    significant digit xs = xs.dropWhile p := by
  induction xs with
  | nil => rfl
  | cons x xs ih =>
    rw [List.forall_mem_cons] at hp
    have hsame : (digit x == 0) = p x := by
      rw [Bool.eq_iff_iff, beq_iff_eq]
      exact hp.1.symm
    rw [significant, List.dropWhile_cons, List.dropWhile_cons, hsame, ← ih hp.2, significant]

theorem length_spell (hb : 1 < b) {len n : ℕ} (hn : n < b^len) (letter : ℕ → α) :
    (spell b letter len n).length = len := by
  rw [spell, List.length_reverse, List.length_map]
  exact Nat.length_digitsAppend hb len hn

theorem mem_spell (hb : 1 < b) {letter : ℕ → α} {len n : ℕ} {x : α}
    (hx : x ∈ spell b letter len n) : ∃ d < b, x = letter d := by
  obtain ⟨d, hd, rfl⟩ := List.mem_map.mp (List.mem_reverse.mp hx)
  exact ⟨d, Nat.lt_of_mem_digitsAppend hb len d hd, rfl⟩

theorem value_spell (hb : 1 < b) {letter : ℕ → α} (hletter : ∀ d < b, digit (letter d) = d)
    (len n : ℕ) : value b digit (spell b letter len n) = n := by
  have hdigits : ((Nat.digitsAppend b len n).map letter).map digit = Nat.digitsAppend b len n := by
    rw [List.map_map]
    calc
      (Nat.digitsAppend b len n).map (digit ∘ letter) = (Nat.digitsAppend b len n).map id :=
        List.map_congr_left fun d hd => hletter d (Nat.lt_of_mem_digitsAppend hb len d hd)
      _ = Nat.digitsAppend b len n := List.map_id _
  rw [value, spell, List.map_reverse, List.reverse_reverse, hdigits, Nat.digitsAppend,
    Nat.ofDigits_append_replicate_zero, Nat.ofDigits_digits]

section Words

variable {w k : ℕ} {val : α → BitVec w}

/-- A word that is shifted before each digit is added holds the value, up to its width. -/
theorem toNat_foldl_shift {xs : List α} (hval : ∀ x ∈ xs, (val x).toNat = digit x) :
    (xs.foldl (fun (ret : BitVec w) x => (ret <<< k)+val x) 0#w).toNat =
      value (2^k) digit xs % 2^w := by
  induction xs using List.reverseRecOn with
  | nil => simp [value]
  | append_singleton xs x ih =>
    have hlast : (val x).toNat = digit x := hval x (by simp)
    rw [List.foldl_append, List.foldl_cons, List.foldl_nil, value_concat, BitVec.toNat_add,
      BitVec.toNat_shiftLeft, ih fun y hy => hval y (List.mem_append_left _ hy), hlast,
      Nat.shiftLeft_eq]
    simp [Nat.add_mod, Nat.mul_mod, Nat.add_comm, Nat.mul_comm]

/-- A shift that keeps within the width can be undone. -/
theorem shiftLeft_ushiftRight {ret : BitVec w} (h : 2^k*ret.toNat < 2^w) :
    ret <<< k >>> k = ret := by
  apply BitVec.eq_of_toNat_eq
  rw [BitVec.toNat_ushiftRight, BitVec.toNat_shiftLeft, Nat.shiftLeft_eq, Nat.mul_comm,
    Nat.mod_eq_of_lt h, Nat.shiftRight_eq_div_pow]
  exact Nat.mul_div_cancel_left _ (Nat.two_pow_pos k)

end Words

end Numerals
