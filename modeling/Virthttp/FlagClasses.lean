import Virthttp.Flagwork

namespace Virthttp

/-- The values of all names, joined by `|`; none where a name has no value. -/
def orAll (f : Str → Option (BitVec 32)) : List Str → Option (BitVec 32)
  | [] => some 0
  | name :: names => do
    let v ← f name
    let vs ← orAll f names
    return v ||| vs

variable {f g : Str → Option (BitVec 32)}

theorem orAll_cons_eq_some {name : Str} {names : List Str} {v : BitVec 32} :
    orAll f (name :: names) = some v ↔
      ∃ a b, f name = some a ∧ orAll f names = some b ∧ v = a ||| b := by
  simp only [orAll, Option.bind_eq_bind, Option.bind_eq_some_iff, Option.pure_def,
    Option.some.injEq]
  constructor
  · intro ⟨a, ha, b, hb, hv⟩
    exact ⟨a, b, ha, hb, hv.symm⟩
  · intro ⟨a, b, ha, hb, hv⟩
    exact ⟨a, ha, b, hb, hv.symm⟩

theorem orAll_eq_none_iff {names : List Str} :
    orAll f names = none ↔ ∃ name ∈ names, f name = none := by
  induction names with
  | nil => simp [orAll]
  | cons name names ih =>
    rw [List.exists_mem_cons_iff, ← ih]
    cases ha : f name with
    | none => simp [orAll, ha]
    | some a => cases hb : orAll f names <;> simp [orAll, ha, hb]

/-- A bit is set if and only if one of the names stands for it. -/
theorem orAll_bit {names : List Str} {v : BitVec 32} (h : orAll f names = some v) (i : ℕ) :
    v.getLsbD i = true ↔ ∃ name ∈ names, ∃ a, f name = some a ∧ a.getLsbD i = true := by
  induction names generalizing v with
  | nil =>
    cases h
    simp
  | cons name names ih =>
    obtain ⟨a, b, ha, hb, rfl⟩ := orAll_cons_eq_some.mp h
    rw [List.exists_mem_cons_iff, BitVec.getLsbD_or, Bool.or_eq_true, ih hb]
    simp [ha]

/-- Neither the order nor the repetition of the names matters. -/
theorem orAll_congr_mem {xs ys : List Str} (h : ∀ name, name ∈ xs ↔ name ∈ ys) :
    orAll f xs = orAll f ys := by
  have hnone : orAll f xs = none ↔ orAll f ys = none := by
    simp only [orAll_eq_none_iff, h]
  cases hx : orAll f xs with
  | none => exact (hnone.mp hx).symm
  | some v =>
    cases hy : orAll f ys with
    | none =>
      rw [hnone.mpr hy] at hx
      contradiction
    | some u =>
      apply congrArg some
      apply BitVec.eq_of_getLsbD_eq
      intro i _
      rw [Bool.eq_iff_iff, orAll_bit hx, orAll_bit hy]
      simp only [h]

theorem orAll_congr {names : List Str} (h : ∀ name ∈ names, f name = g name) :
    orAll f names = orAll g names := by
  induction names with
  | nil => rfl
  | cons name names ih =>
    obtain ⟨hname, hnames⟩ := List.forall_mem_cons.mp h
    simp only [orAll, hname, ih hnames]

def flagsNamed (values : List String) (names : List Str) : Option (BitVec 32) :=
  orAll (enumSetFromString values) names

theorem composeFlags_eq (values : List String) (flags : BitVec 32) (names : List Str) :
    composeFlags values flags names = (flagsNamed values names).map (flags ||| ·) := by
  unfold flagsNamed
  induction names generalizing flags with
  | nil => simp [composeFlags, orAll]
  | cons name names ih =>
    unfold composeFlags
    cases ha : enumSetFromString values name with
    | none => simp [orAll, ha]
    | some a =>
      simp only [ih, orAll, ha, Option.bind_eq_bind, Option.bind_some]
      cases orAll (enumSetFromString values) names with
      | none => rfl
      | some b => simp [BitVec.or_assoc]

theorem composeFlags_zero (values : List String) (names : List Str) :
    composeFlags values 0 names = flagsNamed values names := by
  rw [composeFlags_eq]
  cases flagsNamed values names with
  | none => rfl
  | some v => simp

inductive FlagClass where
  | listDomain
  | undefine
  | domainXML
  | networkXML
  | shutdown
  | destroy
  | create
  deriving DecidableEq

namespace FlagClass

/-- The array that `from_string` searches. That of `network::XMLFlags` has the names of
`domain::XMLFlags`. -/
def values : FlagClass → List String
  | .listDomain => ListDomainFlag.values
  | .undefine => UndefineFlag.values
  | .domainXML => XMLFlags.values
  | .networkXML => XMLFlags.values
  | .shutdown => ShutdownFlag.values
  | .destroy => DestroyFlag.values
  | .create => CreateFlag.values

/-- The enumerators of `Underlying`, in lower case, with the libvirt constants they are set to. -/
def underlying : FlagClass → List (String × BitVec 32)
  | .listDomain => [("default", 0), ("active", 1#32 <<< 0), ("inactive", 1#32 <<< 1),
      ("persistent", 1#32 <<< 2), ("transient", 1#32 <<< 3), ("running", 1#32 <<< 4),
      ("paused", 1#32 <<< 5), ("shutoff", 1#32 <<< 6), ("other", 1#32 <<< 7),
      ("managedsave", 1#32 <<< 8), ("no_managedsave", 1#32 <<< 9), ("autostart", 1#32 <<< 10),
      ("no_autostart", 1#32 <<< 11), ("has_snapshot", 1#32 <<< 12), ("no_snapshot", 1#32 <<< 13)]
  | .undefine => [("managed_save", 1#32 <<< 0), ("snapshots_metadata", 1#32 <<< 1),
      ("nvram", 1#32 <<< 2), ("keep_nvram", 1#32 <<< 3)]
  | .domainXML => [("default", 0), ("secure", 1#32 <<< 0), ("inactive", 1#32 <<< 1),
      ("update_cpu", 1#32 <<< 2), ("migratable", 1#32 <<< 3)]
  | .networkXML => [("default", 0), ("inactive", 1#32 <<< 0)]
  | .shutdown => [("default", 0), ("acpi_power_btn", 1#32 <<< 0), ("guest_agent", 1#32 <<< 1),
      ("initctl", 1#32 <<< 2), ("signal", 1#32 <<< 3), ("paravirt", 1#32 <<< 4)]
  | .destroy => [("default", 0), ("graceful", 1#32 <<< 0)]
  | .create => [("none", 0), ("paused", 1#32 <<< 0), ("autodestroy", 1#32 <<< 1),
      ("bypass_cache", 1#32 <<< 2), ("force_boot", 1#32 <<< 3), ("validate", 1#32 <<< 4)]

def constant (c : FlagClass) (name : Str) : Option (BitVec 32) :=
  (c.underlying.find? (fun e => lit e.1 == name && e.2 != 0)).map Prod.snd

/-- What the code makes of a list of names, by `from_string` and `|=`. -/
def decode (c : FlagClass) (names : List Str) : Option (BitVec 32) :=
  composeFlags c.values 0 names

/-- What the enumeration of the class makes of it. -/
def declared (c : FlagClass) (names : List Str) : Option (BitVec 32) := orAll c.constant names

def Accepts (c : FlagClass) (name : Str) : Prop := ∃ v ∈ c.values, lit v = name

def Declares (c : FlagClass) (name : Str) : Prop :=
  ∃ e ∈ c.underlying, lit e.1 = name ∧ e.2 ≠ 0

/-- The names in which the array and the enumeration have drifted apart. -/
def drifted : FlagClass → List String
  | .listDomain => ["managed_save", "no_managed_save", "managedsave", "no_managedsave"]
  | .networkXML => ["secure", "inactive", "update_cpu", "migratable"]
  | _ => []

theorem enumSetFromString_eq_none_iff (values : List String) (name : Str) :
    enumSetFromString values name = none ↔ ∀ v ∈ values, lit v ≠ name := by
  simp [enumSetFromString, enumFromString, List.findIdx?_eq_none_iff]

theorem not_accepts_iff (c : FlagClass) (name : Str) :
    enumSetFromString c.values name = none ↔ ¬c.Accepts name := by
  rw [enumSetFromString_eq_none_iff, Accepts]
  simp

theorem not_declares_iff (c : FlagClass) (name : Str) :
    c.constant name = none ↔ ¬c.Declares name := by
  simp [constant, Declares, List.find?_eq_none]

theorem values_agree (c : FlagClass) : ∀ v ∈ c.values, v ∉ c.drifted →
    enumSetFromString c.values (lit v) = c.constant (lit v) := by
  cases c <;> decide +kernel

theorem underlying_in_values (c : FlagClass) : ∀ e ∈ c.underlying, e.2 ≠ 0 → e.1 ∉ c.drifted →
    e.1 ∈ c.values := by
  cases c <;> decide

theorem name_agrees (c : FlagClass) {name : Str} (h : ∀ d ∈ c.drifted, lit d ≠ name) :
    enumSetFromString c.values name = c.constant name := by
  have hnot (v : String) (hv : lit v = name) : v ∉ c.drifted := fun hd => h v hd hv
  by_cases haccepts : c.Accepts name
  · obtain ⟨v, hv, rfl⟩ := haccepts
    exact values_agree c v hv (hnot v rfl)
  · have hdeclares : ¬c.Declares name := by
      intro ⟨e, he, hname, hne⟩
      exact haccepts ⟨e.1, underlying_in_values c e he hne (hnot e.1 hname), hname⟩
    rw [(not_accepts_iff c name).mpr haccepts, (not_declares_iff c name).mpr hdeclares]

/-- Of the drifted names only `inactive` of a network is known on both sides, and there with
different bits. -/
theorem drifted_known (c : FlagClass) : ∀ d ∈ c.drifted,
    (enumSetFromString c.values (lit d)).isSome = true → (c.constant (lit d)).isSome = true →
      c = .networkXML ∧ enumSetFromString c.values (lit d) = some 2 := by
  cases c <;> decide +kernel

theorem network_constant {name : Str} {a : BitVec 32}
    (h : constant .networkXML name = some a) : a = 1 := by
  obtain ⟨e, he, rfl⟩ := Option.map_eq_some_iff.mp h
  have hmem := List.mem_of_find?_eq_some he
  have hne := List.find?_some he
  simp only [underlying, List.mem_cons, List.not_mem_nil, or_false] at hmem
  rcases hmem with rfl | rfl
  · simp at hne
  · rfl

/-- No list with a drifted name means the same on both sides. -/
theorem drifted_differs {c : FlagClass} {names : List Str} {v : BitVec 32} {d : String}
    (hd : d ∈ c.drifted) (hmem : lit d ∈ names)
    (hdecode : orAll (enumSetFromString c.values) names = some v)
    (hdeclared : orAll c.constant names = some v) : False := by
  have known (f : Str → Option (BitVec 32)) (h : orAll f names = some v) :
      (f (lit d)).isSome = true := by
    rw [Option.isSome_iff_ne_none]
    intro hnone
    rw [orAll_eq_none_iff.mpr ⟨lit d, hmem, hnone⟩] at h
    contradiction
  obtain ⟨rfl, hbit⟩ := drifted_known c d hd (known _ hdecode) (known _ hdeclared)
  have hset : v.getLsbD 1 = true := (orAll_bit hdecode 1).mpr ⟨lit d, hmem, 2, hbit, rfl⟩
  obtain ⟨name, _, a, ha, hone⟩ := (orAll_bit hdeclared 1).mp hset
  rw [network_constant ha] at hone
  contradiction

/-- The code and the enumeration agree on a list of names that have not drifted. On any other
list they agree only where both reject it. -/
theorem decode_eq_declared_iff (c : FlagClass) (names : List Str) :
    c.decode names = c.declared names ↔
      (∀ name ∈ names, ∀ d ∈ c.drifted, lit d ≠ name) ∨
      ((∃ name ∈ names, ¬c.Accepts name) ∧ ∃ name ∈ names, ¬c.Declares name) := by
  have hdecode : c.decode names = orAll (enumSetFromString c.values) names :=
    composeFlags_zero c.values names
  have hrejected : orAll (enumSetFromString c.values) names = none ↔
      ∃ name ∈ names, ¬c.Accepts name := by
    simp only [orAll_eq_none_iff, not_accepts_iff]
  have hundeclared : orAll c.constant names = none ↔ ∃ name ∈ names, ¬c.Declares name := by
    simp only [orAll_eq_none_iff, not_declares_iff]
  rw [hdecode, declared, ← hrejected, ← hundeclared]
  constructor
  · intro heq
    by_cases hdrift : ∀ name ∈ names, ∀ d ∈ c.drifted, lit d ≠ name
    · exact Or.inl hdrift
    · simp only [not_forall, not_not] at hdrift
      obtain ⟨name, hmem, d, hd, rfl⟩ := hdrift
      cases hcode : orAll (enumSetFromString c.values) names with
      | none => exact Or.inr ⟨rfl, heq.symm.trans hcode⟩
      | some v => exact (drifted_differs hd hmem hcode (heq.symm.trans hcode)).elim
  · intro h
    rcases h with hdrift | ⟨hcode, henum⟩
    · exact orAll_congr fun name hmem => name_agrees c (hdrift name hmem)
    · rw [hcode, henum]

/-- `options=inactive` on a network: the code sets the bit of `VIR_DOMAIN_XML_INACTIVE`. -/
theorem network_inactive_differs :
    decode .networkXML [lit "inactive"] = some 2 ∧ declared .networkXML [lit "inactive"] = some 1 ∧
      decode .networkXML [lit "inactive"] ≠ declared .networkXML [lit "inactive"] := by
  decide

end FlagClass

end Virthttp
