import Virthttp.HandlerOutcomes

/-! The serializers of the lists that libvirt answers to a subquery, and what they have to build:
an object with a member for every parameter, or an array with an element for every item. -/
namespace Virthttp

inductive SubqueryAnswer where
  | typedParams (tp : List TypedParam)
  | leases (vec : List DHCPLease)
  | fsInfos (infos : List FSInfo)

def TypedParamValue.Says : TypedParamValue → JVal → Prop
  | .int i, .int n => n.1 = i.toInt
  | .uint ui, .int n => n.1 = ui.toNat
  | .llong l, .int n => n.1 = l.toInt
  | .ullong ul, .int n => n.1 = ul.toNat
  | .double d, .double bits => bits = d
  | .boolean b, .int n => n.1 = if b then 1 else 0
  | .boolean b, .bool b' => b' = b
  | .string s, .string s' => s = some s'
  | .string s, .null => s = none
  | _, _ => False

def TypedParam.SaysMember (v : TypedParam) (m : Str × JVal) : Prop :=
  m.1 = v.name ∧ v.value.Says m.2

def textOrNull : Option Str → JVal
  | none => .null
  | some s => .string s

def DHCPLease.members (lease : DHCPLease) : List (String × JVal) :=
  [("type", .signed (lease.type.signExtend 64)), ("client-id", textOrNull lease.clientid),
    ("expiry-time", .signed lease.expirytime), ("hostname", textOrNull lease.hostname),
    ("iaid", textOrNull lease.iaid), ("interface", textOrNull lease.iface),
    ("ip-address", textOrNull lease.ipaddr), ("mac-address", textOrNull lease.mac),
    ("prefix", .unsigned (lease.netPrefix.setWidth 64))]

def FSInfo.members (fsInfo : FSInfo) : List (String × JVal) :=
  [("name", textOrNull fsInfo.name), ("mountpoint", textOrNull fsInfo.mountpoint),
    ("fs_type", textOrNull fsInfo.fstype),
    ("disk_dev_aliases", .array (fsInfo.devAlias.map textOrNull))]

def objectOf (ms : List (String × JVal)) : JVal := .object (ms.map fun m => (lit m.1, m.2))

namespace SubqueryAnswer

/-- The value that the serializer builds; none where an assertion of rapidjson fails. -/
def toJson : SubqueryAnswer → Option JVal
  | typedParams tp => typedParamsToJson tp
  | leases vec => leasesToJson vec
  | fsInfos infos => fsInfosToJson infos

def Represents : SubqueryAnswer → JVal → Prop
  | typedParams tp, .object ms => List.Forall₂ TypedParam.SaysMember tp ms
  | leases vec, .array xs => xs = vec.map fun lease => objectOf lease.members
  | fsInfos infos, .array xs => xs = infos.map fun fsInfo => objectOf fsInfo.members
  | _, _ => False

/-- No assertion fails, and the answer is represented. -/
def SerializesRight (a : SubqueryAnswer) : Prop := ∃ x, a.toJson = some x ∧ a.Represents x

end SubqueryAnswer

section Loops

variable {α : Type} {name : α → Str} {value : α → Option JVal}

/-- To a value that is no object not even the first one is added. -/
theorem addMembers_none {init : JVal} (hinit : ∀ ms, init ≠ .object ms) {xs : List α}
    (hxs : xs ≠ []) :
    xs.foldlM (fun ret x => do
      let val ← value x
      ret.addMember (name x) val) init = none := by
  cases xs with
  | nil => exact absurd rfl hxs
  | cons x xs =>
    rw [List.foldlM_cons]
    cases value x with
    | none => rfl
    | some val =>
      have hadd : init.addMember (name x) val = none := by
        cases init with
        | object ms => exact absurd rfl (hinit ms)
        | _ => rfl
      simp [hadd]

end Loops

namespace SubqueryAnswer

theorem not_represents_null (a : SubqueryAnswer) : ¬a.Represents .null := by
  cases a <;> exact id

theorem toJson_typedParams (tp : List TypedParam) :
    (typedParams tp).toJson = if tp = [] then some .null else none := by
  split
  · rename_i hnil
    rw [hnil]
    rfl
  · rename_i hne
    exact addMembers_none (fun _ h => by cases h) hne

theorem toJson_leases (vec : List DHCPLease) :
    (leases vec).toJson = if vec = [] then some (.array []) else none := by
  split
  · rename_i hnil
    rw [hnil]
    rfl
  · rename_i hne
    have hnone := leasesToJson_isSome vec
    rw [List.isEmpty_eq_false_iff.mpr hne] at hnone
    exact Option.not_isSome_iff_eq_none.mp (by simp [toJson, hnone])

theorem toJson_fsInfos (infos : List FSInfo) :
    (fsInfos infos).toJson = if infos = [] then some .null else none := by
  split
  · rename_i hnil
    rw [hnil]
    rfl
  · rename_i hne
    have hnone := fsInfosToJson_isSome infos
    rw [List.isEmpty_eq_false_iff.mpr hne] at hnone
    exact Option.not_isSome_iff_eq_none.mp (by simp [toJson, hnone])

/-- An answer whose serializer gives null or fails is not represented. -/
theorem not_serializesRight {a : SubqueryAnswer} {p : Prop} [Decidable p]
    (ha : a.toJson = if p then some .null else none) : ¬a.SerializesRight := by
  intro hright
  obtain ⟨x, hx, hrep⟩ := hright
  rw [ha, Option.ite_none_right_eq_some] at hx
  obtain ⟨_, heq⟩ := hx
  cases heq
  exact not_represents_null a hrep

/-- The only answer that is represented is an empty list of leases. -/
theorem serializesRight_iff (a : SubqueryAnswer) : a.SerializesRight ↔ a = leases [] := by
  cases a with
  | typedParams tp => exact iff_of_false (not_serializesRight (toJson_typedParams tp)) (by simp)
  | fsInfos infos => exact iff_of_false (not_serializesRight (toJson_fsInfos infos)) (by simp)
  | leases vec =>
    rw [SerializesRight, toJson_leases]
    constructor
    · intro hright
      obtain ⟨x, hx, _⟩ := hright
      rw [Option.ite_none_right_eq_some] at hx
      rw [hx.1]
    · intro heq
      cases heq
      exact ⟨.array [], if_pos rfl, rfl⟩

/-- The parameters of a domain that is launched securely: a member is added to a null value. -/
theorem launchSecurity_aborts :
    (typedParams [⟨lit "sev-measurement", .string (some (lit "abc"))⟩]).toJson = none ∧
      ¬(typedParams [⟨lit "sev-measurement", .string (some (lit "abc"))⟩]).SerializesRight := by
  have hnone : (typedParams [⟨lit "sev-measurement", .string (some (lit "abc"))⟩]).toJson = none :=
    rfl
  refine ⟨hnone, ?_⟩
  intro hright
  obtain ⟨x, hx, _⟩ := hright
  rw [hnone] at hx
  cases hx

end SubqueryAnswer

end Virthttp
