import Mathlib.Data.Nat.Size
import Mathlib.Tactic.Common
import Mathlib.Tactic.Ring

/-! Natural numbers rounded to a number of binary digits, to the nearest and from the middle to
the even one, and the numbers that this leaves as they are. -/
namespace Rounding

/-- The multiple of `2^e` next to a number, counted in `2^e` -/
def roundShift (e m : ℕ) : ℕ :=
  let q := m/2^e
  let r := m%2^e
  if 2*r < 2^e then q
  else if 2^e < 2*r then q+1
  else q+q%2

def roundTo (p m : ℕ) : ℕ := roundShift (m.size-p) m * 2^(m.size-p)

/-- The number has `p` binary digits, and zeros after them. -/
def Representable (p m : ℕ) : Prop := ∃ c e, c < 2^p ∧ m = c*2^e

theorem roundShift_mul (e c : ℕ) : roundShift e (c*2^e) = c := by
  have hpos : 0 < 2^e := Nat.two_pow_pos e
  have hq : c*2^e/2^e = c := Nat.mul_div_cancel c hpos
  have hr : c*2^e%2^e = 0 := Nat.mul_mod_left c (2^e)
  have hlt : 2*(c*2^e%2^e) < 2^e := by omega
  rw [roundShift, if_pos hlt, hq]

theorem roundShift_le (e m : ℕ) : roundShift e m ≤ m/2^e+1 := by
  unfold roundShift
  dsimp only
  split_ifs <;> omega

/-- Rounding leaves no more than `p` digits; a carry may leave a power of two. -/
theorem roundShift_size_le {p m : ℕ} : roundShift (m.size-p) m ≤ 2^p := by
  have hlt : m < 2^p*2^(m.size-p) := by
    rw [← pow_add]
    have hle : m.size ≤ p+(m.size-p) := by omega
    exact Nat.size_le.mp hle
  have hdiv : m/2^(m.size-p) < 2^p := Nat.div_lt_of_lt_mul (by rwa [Nat.mul_comm] at hlt)
  have hround := roundShift_le (m.size-p) m
  omega

theorem roundTo_representable {p : ℕ} (hp : 0 < p) (m : ℕ) : Representable p (roundTo p m) := by
  have hle := roundShift_size_le (p := p) (m := m)
  rcases Nat.lt_or_eq_of_le hle with hlt | heq
  · exact ⟨_, _, hlt, rfl⟩
  · -- the carry leaves a power of two
    have hone : 1 < 2^p := Nat.one_lt_two_pow hp.ne'
    refine ⟨1, p+(m.size-p), hone, ?_⟩
    rw [roundTo, heq, Nat.one_mul, pow_add]

/-- The zeros that a representable number has are those that rounding asks for. -/
theorem roundTo_eq_self {p m : ℕ} (h : Representable p m) : roundTo p m = m := by
  obtain ⟨c, e, hc, rfl⟩ := h
  have hsize : (c*2^e).size ≤ p+e := by
    rw [Nat.size_le, pow_add]
    exact Nat.mul_lt_mul_of_pos_right hc (Nat.two_pow_pos e)
  have hshift : (c*2^e).size-p ≤ e := by omega
  have hmul : c*2^e = c*2^(e-((c*2^e).size-p))*2^((c*2^e).size-p) := by
    rw [Nat.mul_assoc, ← pow_add, Nat.sub_add_cancel hshift]
  rw [roundTo]
  generalize (c*2^e).size-p = k at hmul
  rw [hmul, roundShift_mul]

theorem roundTo_eq_self_iff {p : ℕ} (hp : 0 < p) {m : ℕ} :
    roundTo p m = m ↔ Representable p m := by
  constructor
  · intro heq
    rw [← heq]
    exact roundTo_representable hp m
  · exact roundTo_eq_self

def significand (m : ℕ) : ℕ :=
  let e := m.size-1
  if e ≤ 52 then m*2^(52-e) else m/2^(e-52)

/-- The sign, the exponent and the digits of a double, but for the first of them -/
def doubleBits (neg : Bool) (m : ℕ) : BitVec 64 :=
  if m = 0 then 0
  else
    .ofNat 64 ((if neg then 1 else 0)*2^63 + (m.size-1+1023)*2^52 + (significand m-2^52))

end Rounding
