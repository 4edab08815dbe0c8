import Virthttp.Libvirt
import Virthttp.Rapidjson
import Virthttp.Rounding
import Mathlib.Data.List.Forall2
import Mathlib.Data.List.TakeWhile

namespace Virthttp

open Rounding

def roundInt (p : ℕ) (n : ℤ) : ℤ := n.sign*roundTo p n.natAbs

def doubleOfInt (n : ℤ) : BitVec 64 := doubleBits (decide (n < 0)) (roundTo 53 n.natAbs)

def floatMax : ℤ := (2^24-1)*2^104

namespace JInt

/-- `IsLosslessDouble`: the value is converted to a double and back, where that is in range. -/
def isLosslessDouble (n : JInt) : Bool :=
  let d := roundInt 53 n.1
  if 0 ≤ n.1 then decide (0 ≤ d ∧ d < 2^64 ∧ n.1 = d)
  else decide (-2^63 ≤ d ∧ d < 2^63 ∧ n.1 = d)

/-- `IsLosslessFloat`, which asks about the double that the value is converted to. -/
def isLosslessFloat (n : JInt) : Bool :=
  let a := roundInt 53 n.1
  if a < -floatMax ∨ floatMax < a then false
  else
    let b := roundInt 24 a
    decide (a ≤ b ∧ b ≤ a)

/-- The parameter that is made of a number that is no double, in the order of the tests -/
def paramValue (n : JInt) : Option TypedParamValue :=
  if isLosslessDouble n then some (.double (doubleOfInt n.1))
  else if isLosslessFloat n then some (.double (doubleOfInt (roundInt 24 (roundInt 53 n.1))))
  else if n.1 < 2^63 then some (.llong (.ofInt 64 n.1))
  else if n.1 ≠ 0 then some (.ullong (.ofInt 64 n.1))
  else if ((JVal.int n).uint32).isSome then some (.uint (.ofInt 32 n.1))
  else if ((JVal.int n).int32).isSome then some (.int (.ofInt 32 n.1))
  else none

end JInt

/-- Libvirt adds a parameter to the others, or fails, which is not looked at. -/
def TypedParams.add (takes : TypedParam → Bool) (ret : List TypedParam) (v : TypedParam) :
    List TypedParam :=
  if takes v then ret ++ [v] else ret

/-- The members from the next one on; names and texts are C strings. -/
def addMembers (takes : TypedParam → Bool) (ret : List TypedParam) :
    List (Str × JVal) → Option (List TypedParam)
  | [] => some ret
  | (name, val) :: ms =>
    match val with
    | .null => none
    | .object _ => none
    | .array _ => none
    | .bool b => addMembers takes (TypedParams.add takes ret ⟨cstr name, .boolean b⟩) ms
    | .string s =>
      addMembers takes (TypedParams.add takes ret ⟨cstr name, .string (some (cstr s))⟩) ms
    | .double d => addMembers takes (TypedParams.add takes ret ⟨cstr name, .double d⟩) ms
    | .int n =>
      match JInt.paramValue n with
      | some v => addMembers takes (TypedParams.add takes ret ⟨cstr name, v⟩) ms
      | none => addMembers takes ret ms

def jsonToTypedParameters (takes : TypedParam → Bool) : JVal → Option (List TypedParam)
  | .object ms => addMembers takes [] ms
  | _ => none

def JVal.Unfit : JVal → Prop
  | .null => True
  | .object _ => True
  | .array _ => True
  | _ => False

def TypedParamValue.Keeps : TypedParamValue → JVal → Prop
  | .boolean b, .bool b' => b = b'
  | .string s, .string s' => s = some s'
  | .double d, .double d' => d = d'
  | .int i, .int n => i.toInt = n.1
  | .uint ui, .int n => (ui.toNat : ℤ) = n.1
  | .llong l, .int n => l.toInt = n.1
  | .ullong ul, .int n => (ul.toNat : ℤ) = n.1
  | _, _ => False

def Inconvertible (val : JVal) : Prop :=
  (∀ ms, val ≠ .object ms) ∨ ∃ ms, val = .object ms ∧ ∃ m ∈ ms, JVal.Unfit m.2

/-- Nothing is returned exactly for what is inconvertible, and one parameter for each member of
anything else. -/
structure ConvertsRight (takes : TypedParam → Bool) (val : JVal) : Prop where
  none_iff : jsonToTypedParameters takes val = none ↔ Inconvertible val
  members : ∀ ms ps, val = .object ms → jsonToTypedParameters takes val = some ps →
    List.Forall₂ (fun (m : Str × JVal) (p : TypedParam) => p.name = m.1 ∧ p.value.Keeps m.2) ms ps

def NoNul (s : Str) : Prop := Char.ofNat 0 ∉ s

/-- The integer that is read of a double is another one, and so is the double that is read of the
nearest `float`. -/
def Wide (n : JInt) : Prop :=
  ¬Representable 53 n.1.natAbs ∧ ¬Representable 24 (roundTo 53 n.1.natAbs)

def KeptMember (takes : TypedParam → Bool) : Str × JVal → Prop
  | (name, .bool b) => NoNul name ∧ takes ⟨name, .boolean b⟩
  | (name, .string s) => NoNul name ∧ NoNul s ∧ takes ⟨name, .string (some s)⟩
  | (name, .double d) => NoNul name ∧ takes ⟨name, .double d⟩
  | (name, .int n) => NoNul name ∧ Wide n ∧
      takes ⟨name, if n.1 < 2^63 then .llong (.ofInt 64 n.1) else .ullong (.ofInt 64 n.1)⟩
  | _ => True

theorem roundTo_zero (p : ℕ) : roundTo p 0 = 0 := roundTo_eq_self ⟨0, 0, Nat.two_pow_pos p, rfl⟩

theorem natAbs_roundInt (p : ℕ) (n : ℤ) : (roundInt p n).natAbs = roundTo p n.natAbs := by
  rw [roundInt, Int.natAbs_mul, Int.natAbs_natCast, Int.natAbs_sign]
  split
  · rename_i hzero
    rw [hzero, Int.natAbs_zero, roundTo_zero]
  · rw [Nat.one_mul]

theorem roundInt_eq_self_iff {p : ℕ} (hp : 0 < p) {n : ℤ} :
    roundInt p n = n ↔ Representable p n.natAbs := by
  rw [← roundTo_eq_self_iff hp]
  constructor
  · intro heq
    rw [← natAbs_roundInt, heq]
  · intro heq
    rw [roundInt, heq]
    exact Int.sign_mul_natAbs n

namespace JInt

theorem natAbs_lt (n : JInt) : n.1.natAbs < 2^64 := by
  have hbounds := n.2
  omega

theorem isLosslessDouble_iff (n : JInt) :
    isLosslessDouble n = true ↔ Representable 53 n.1.natAbs := by
  have hbounds := n.2
  rw [← roundInt_eq_self_iff (by decide)]
  unfold isLosslessDouble
  dsimp only
  split
  · rw [decide_eq_true_iff]
    omega
  · rw [decide_eq_true_iff]
    omega

theorem roundInt_bounds (n : JInt) : (roundInt 53 n.1).natAbs ≤ 2^64 := by
  have hlt := natAbs_lt n
  have hsize : n.1.natAbs.size ≤ 64 := Nat.size_le.mpr hlt
  rw [natAbs_roundInt, roundTo]
  calc
    roundShift (n.1.natAbs.size-53) n.1.natAbs*2^(n.1.natAbs.size-53)
        ≤ 2^53*2^(n.1.natAbs.size-53) := Nat.mul_le_mul_right _ roundShift_size_le
    _ ≤ 2^53*2^11 := Nat.mul_le_mul_left _ (Nat.pow_le_pow_right (by decide) (by omega))
    _ = 2^64 := by decide

theorem isLosslessFloat_iff (n : JInt) :
    isLosslessFloat n = true ↔ Representable 24 (roundTo 53 n.1.natAbs) := by
  have hbounds := roundInt_bounds n
  have hmax : (2 : ℤ)^64 < floatMax := by decide
  have hrange : ¬(roundInt 53 n.1 < -floatMax ∨ floatMax < roundInt 53 n.1) := by omega
  rw [← natAbs_roundInt, ← roundInt_eq_self_iff (by decide)]
  unfold isLosslessFloat
  dsimp only
  rw [if_neg hrange, decide_eq_true_iff]
  omega

/-- An integer that passes for a double or a `float` is no integer any more. -/
theorem paramValue_of_not_wide {n : JInt} (hn : ¬Wide n) :
    ∃ bits, paramValue n = some (.double bits) := by
  unfold paramValue
  by_cases hdouble : isLosslessDouble n = true
  · exact ⟨_, if_pos hdouble⟩
  · rw [if_neg hdouble]
    by_cases hfloat : isLosslessFloat n = true
    · exact ⟨_, if_pos hfloat⟩
    · rw [isLosslessDouble_iff] at hdouble
      rw [isLosslessFloat_iff] at hfloat
      exact absurd ⟨hdouble, hfloat⟩ hn

theorem paramValue_of_wide {n : JInt} (hn : Wide n) :
    paramValue n =
      some (if n.1 < 2^63 then .llong (.ofInt 64 n.1) else .ullong (.ofInt 64 n.1)) := by
  have hdouble : ¬isLosslessDouble n = true := by
    rw [isLosslessDouble_iff]
    exact hn.1
  have hfloat : ¬isLosslessFloat n = true := by
    rw [isLosslessFloat_iff]
    exact hn.2
  rw [paramValue, if_neg hdouble, if_neg hfloat]
  split
  · rfl
  · rename_i hlarge
    have hne : n.1 ≠ 0 := by omega
    rw [if_pos hne]

/-- The wide type that is chosen holds the integer. -/
theorem wide_keeps (n : JInt) :
    TypedParamValue.Keeps (if n.1 < 2^63 then .llong (.ofInt 64 n.1) else .ullong (.ofInt 64 n.1))
      (.int n) := by
  have hbounds := n.2
  split
  · rename_i hsmall
    exact BitVec.toInt_ofInt_eq_self (by decide) hbounds.1 hsmall
  · rename_i hlarge
    have hnonneg : 0 ≤ n.1 := by omega
    exact toNat_ofInt_of_bounds hnonneg hbounds.2

end JInt

theorem cstr_eq_self_iff {s : Str} : cstr s = s ↔ NoNul s := by
  rw [cstr, List.takeWhile_eq_self_iff, NoNul]
  constructor
  · intro hall hmem
    have hne := hall _ hmem
    simp at hne
  · intro hno c hc
    rw [bne_iff_ne]
    intro heq
    exact hno (heq ▸ hc)

def memberParam : Str × JVal → Option TypedParam
  | (name, .bool b) => some ⟨cstr name, .boolean b⟩
  | (name, .string s) => some ⟨cstr name, .string (some (cstr s))⟩
  | (name, .double d) => some ⟨cstr name, .double d⟩
  | (name, .int n) => (JInt.paramValue n).map fun v => ⟨cstr name, v⟩
  | _ => none

def addedParam (takes : TypedParam → Bool) (m : Str × JVal) : Option TypedParam :=
  (memberParam m).filter takes

theorem add_eq (takes : TypedParam → Bool) (ret : List TypedParam) (v : TypedParam) :
    TypedParams.add takes ret v = ret ++ ((some v).filter takes).toList := by
  unfold TypedParams.add
  cases h : takes v <;> simp [Option.filter, h]

/-- A member that is fit is added, and the loop goes on. -/
theorem addMembers_cons {takes : TypedParam → Bool} {ret : List TypedParam} {m : Str × JVal}
    {ms : List (Str × JVal)} (hm : ¬JVal.Unfit m.2) :
    addMembers takes ret (m :: ms) = addMembers takes (ret ++ (addedParam takes m).toList) ms := by
  obtain ⟨name, val⟩ := m
  cases val with
  | null => exact absurd trivial hm
  | array xs => exact absurd trivial hm
  | object ms => exact absurd trivial hm
  | int n =>
    simp only [addMembers, addedParam, memberParam]
    cases JInt.paramValue n with
    | none => simp
    | some v =>
      dsimp only
      rw [add_eq]
      rfl
  | _ =>
    simp only [addMembers, addedParam, memberParam]
    rw [add_eq]

theorem addMembers_unfit {takes : TypedParam → Bool} {ret : List TypedParam} {m : Str × JVal}
    {ms : List (Str × JVal)} (hm : JVal.Unfit m.2) : addMembers takes ret (m :: ms) = none := by
  obtain ⟨name, val⟩ := m
  cases val <;> first | rfl | exact hm.elim

theorem addMembers_none_iff (takes : TypedParam → Bool) (ret : List TypedParam)
    (ms : List (Str × JVal)) :
    addMembers takes ret ms = none ↔ ∃ m ∈ ms, JVal.Unfit m.2 := by
  induction ms generalizing ret with
  | nil => simp [addMembers]
  | cons m ms ih =>
    by_cases hm : JVal.Unfit m.2
    · rw [addMembers_unfit hm]
      exact iff_of_true rfl ⟨m, List.mem_cons_self, hm⟩
    · rw [addMembers_cons hm, ih]
      simp [hm]

theorem addMembers_some {takes : TypedParam → Bool} {ret ps : List TypedParam}
    {ms : List (Str × JVal)} (h : addMembers takes ret ms = some ps) :
    ps = ret ++ ms.filterMap (addedParam takes) := by
  induction ms generalizing ret with
  | nil =>
    cases h
    simp
  | cons m ms ih =>
    by_cases hm : JVal.Unfit m.2
    · rw [addMembers_unfit hm] at h
      cases h
    · rw [addMembers_cons hm] at h
      rw [ih h, List.append_assoc, List.filterMap_cons]
      cases addedParam takes m <;> rfl

/-- A list with some elements left out is never in step with the whole list. -/
theorem forall₂_filterMap_iff {α β : Type} {f : α → Option β} {R : α → β → Prop} {xs : List α} :
    List.Forall₂ R xs (xs.filterMap f) ↔ ∀ x ∈ xs, ∃ y, f x = some y ∧ R x y := by
  induction xs with
  | nil => simp
  | cons x xs ih =>
    rw [List.filterMap_cons, List.forall_mem_cons]
    cases hx : f x with
    | none =>
      refine iff_of_false ?_ (by simp)
      intro hall
      have hlength := hall.length_eq
      have hle := List.length_filterMap_le f xs
      rw [List.length_cons] at hlength
      dsimp only at hlength
      omega
    | some y =>
      rw [List.forall₂_cons, ih]
      simp

theorem added_iff {takes : TypedParam → Bool} {m : Str × JVal} {q : TypedParam}
    (hq : memberParam m = some q) :
    (∃ p, addedParam takes m = some p ∧ p.name = m.1 ∧ p.value.Keeps m.2) ↔
      takes q = true ∧ q.name = m.1 ∧ q.value.Keeps m.2 := by
  rw [addedParam, hq]
  cases htakes : takes q <;> simp [Option.filter, htakes]

/-- The name is kept if no character of it is lost, and it is then what libvirt is given. -/
theorem taken_name_iff {takes : TypedParam → Bool} {name : Str} {v : TypedParamValue} {P : Prop} :
    (takes ⟨cstr name, v⟩ = true ∧ cstr name = name ∧ P) ↔
      NoNul name ∧ P ∧ takes ⟨name, v⟩ = true := by
  rw [← cstr_eq_self_iff]
  constructor
  · intro h
    obtain ⟨htakes, hname, hP⟩ := h
    rw [hname] at htakes
    exact ⟨hname, hP, htakes⟩
  · intro h
    obtain ⟨hname, hP, htakes⟩ := h
    rw [hname]
    exact ⟨htakes, rfl, hP⟩

/-- The members that are kept are those that get a parameter of the same name and value. -/
theorem keptMember_iff {takes : TypedParam → Bool} {m : Str × JVal} (hm : ¬JVal.Unfit m.2) :
    KeptMember takes m ↔
      ∃ p, addedParam takes m = some p ∧ p.name = m.1 ∧ p.value.Keeps m.2 := by
  obtain ⟨name, val⟩ := m
  cases val with
  | null => exact absurd trivial hm
  | array xs => exact absurd trivial hm
  | object ms => exact absurd trivial hm
  | bool b =>
    have hvalue : (TypedParamValue.boolean b).Keeps (.bool b) := rfl
    rw [added_iff rfl, taken_name_iff]
    exact and_congr_right fun _ => (and_iff_right hvalue).symm
  | double d =>
    have hvalue : (TypedParamValue.double d).Keeps (.double d) := rfl
    rw [added_iff rfl, taken_name_iff]
    exact and_congr_right fun _ => (and_iff_right hvalue).symm
  | string s =>
    have hvalue : (TypedParamValue.string (some (cstr s))).Keeps (.string s) ↔ NoNul s :=
      Option.some_inj.trans cstr_eq_self_iff
    rw [added_iff rfl, taken_name_iff, hvalue]
    refine and_congr_right fun _ => and_congr_right fun hs => ?_
    rw [cstr_eq_self_iff.mpr hs]
  | int n =>
    by_cases hn : Wide n
    · have hparam : memberParam (name, .int n) = some ⟨cstr name,
          if n.1 < 2^63 then .llong (.ofInt 64 n.1) else .ullong (.ofInt 64 n.1)⟩ := by
        rw [memberParam, JInt.paramValue_of_wide hn, Option.map_some]
      rw [added_iff hparam, taken_name_iff]
      refine and_congr_right fun _ => and_congr_left fun _ => ?_
      exact iff_of_true hn (JInt.wide_keeps n)
    · obtain ⟨bits, hbits⟩ := JInt.paramValue_of_not_wide hn
      have hparam : memberParam (name, .int n) = some ⟨cstr name, .double bits⟩ := by
        rw [memberParam, hbits, Option.map_some]
      rw [added_iff hparam]
      -- a double keeps no integer
      exact iff_of_false (fun hkept => hn hkept.2.1) (fun hkeeps => hkeeps.2.2)

theorem jsonToTypedParameters_none_iff (takes : TypedParam → Bool) (val : JVal) :
    jsonToTypedParameters takes val = none ↔ Inconvertible val := by
  cases val with
  | object ms =>
    rw [jsonToTypedParameters, addMembers_none_iff]
    constructor
    · exact fun hunfit => Or.inr ⟨ms, rfl, hunfit⟩
    · intro hinconvertible
      rcases hinconvertible with hno | ⟨_, ⟨⟩, hunfit⟩
      · exact absurd rfl (hno ms)
      · exact hunfit
  | _ =>
    refine iff_of_true rfl (Or.inl ?_)
    intro ms heq
    cases heq

theorem jsonToTypedParameters_some {takes : TypedParam → Bool} {ms : List (Str × JVal)}
    (hfit : ∀ m ∈ ms, ¬JVal.Unfit m.2) :
    jsonToTypedParameters takes (.object ms) = some (ms.filterMap (addedParam takes)) := by
  cases h : jsonToTypedParameters takes (.object ms) with
  | none =>
    obtain ⟨m, hmem, hunfit⟩ := (addMembers_none_iff takes [] ms).mp h
    exact absurd hunfit (hfit m hmem)
  | some ps => rw [addMembers_some h, List.nil_append]

/-- A JSON value is converted right if it has to be refused, or if all its members are kept. -/
theorem convertsRight_iff (takes : TypedParam → Bool) (val : JVal) :
    ConvertsRight takes val ↔
      Inconvertible val ∨ ∀ ms, val = .object ms → ∀ m ∈ ms, KeptMember takes m := by
  have hnone := jsonToTypedParameters_none_iff takes val
  by_cases hrefused : Inconvertible val
  · refine iff_of_true ⟨hnone, ?_⟩ (Or.inl hrefused)
    intro ms ps _ hps
    rw [hnone.mpr hrefused] at hps
    cases hps
  · rw [or_iff_right hrefused]
    cases val with
    | object ms =>
      have hfit : ∀ m ∈ ms, ¬JVal.Unfit m.2 := fun m hmem hunfit =>
        hrefused (Or.inr ⟨ms, rfl, m, hmem, hunfit⟩)
      have hsome : jsonToTypedParameters takes (.object ms) =
          some (ms.filterMap (addedParam takes)) := jsonToTypedParameters_some hfit
      constructor
      · intro hright _ heq m hmem
        cases heq
        have hall := forall₂_filterMap_iff.mp (hright.members ms _ rfl hsome) m hmem
        exact (keptMember_iff (hfit m hmem)).mpr hall
      · intro hkept
        refine ⟨hnone, ?_⟩
        intro _ ps heq hps
        cases heq
        rw [hsome] at hps
        cases hps
        exact forall₂_filterMap_iff.mpr fun m hmem =>
          (keptMember_iff (hfit m hmem)).mp (hkept ms rfl m hmem)
    | _ =>
      refine absurd (Or.inl ?_) hrefused
      intro ms heq
      cases heq

/-- `{"vcpu_quota": 1}` becomes a double. -/
theorem integer_becomes_double :
    let val : JVal := .object [(lit "vcpu_quota", .int ⟨1, by decide⟩)]
    jsonToTypedParameters (fun _ => true) val =
        some [⟨lit "vcpu_quota", .double 0x3FF0000000000000⟩] ∧
      ¬ConvertsRight (fun _ => true) val := by
  intro val
  have hresult : jsonToTypedParameters (fun _ => true) val =
      some [⟨lit "vcpu_quota", .double 0x3FF0000000000000⟩] := by
    have hlossless : JInt.isLosslessDouble ⟨1, by decide⟩ = true :=
      (JInt.isLosslessDouble_iff _).mpr ⟨1, 0, by decide, rfl⟩
    have hbits : doubleOfInt 1 = 0x3FF0000000000000 := by decide +kernel
    simp only [val, jsonToTypedParameters, addMembers, JInt.paramValue, hlossless, if_true, hbits]
    rfl
  refine ⟨hresult, ?_⟩
  intro hright
  have hmembers := hright.members _ _ rfl hresult
  rw [List.forall₂_cons] at hmembers
  exact hmembers.1.2

end Virthttp
