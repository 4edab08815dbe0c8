import Virthttp.Common

/-! JSON documents as rapidjson keeps them: the members of an object stay in the order of the
text, repeated names included, and integers are told from doubles by how they are written. -/
namespace Virthttp

/-- The integers that a JSON number holds exactly: those of `int64_t` and of `uint64_t`. -/
abbrev JInt := { n : ℤ // -2^63 ≤ n ∧ n < 2^64 }

/-- A number that fits is not changed by a conversion to an unsigned type. -/
theorem toNat_ofInt_of_bounds {w : ℕ} {n : ℤ} (hlo : 0 ≤ n) (hhi : n < 2 ^ w) :
    ((BitVec.ofInt w n).toNat : ℤ) = n := by
  rw [BitVec.toNat_ofInt]
  have hmod : n % ((2 ^ w : ℕ) : ℤ) = n := by
    apply Int.emod_eq_of_lt hlo
    push_cast
    exact hhi
  rw [hmod]
  exact Int.toNat_of_nonneg hlo

inductive JVal where
  | null
  | bool (b : Bool)
  | int (n : JInt)
  | double (bits : BitVec 64)
  | string (s : Str)
  | array (xs : List JVal)
  | object (ms : List (Str × JVal))
  deriving Inhabited

inductive JType where
  | null
  | false
  | true
  | object
  | array
  | string
  | number
  deriving DecidableEq

namespace JVal

def getType : JVal → JType
  | null => .null
  | bool b => if b then .true else .false
  | int _ => .number
  | double _ => .number
  | string _ => .string
  | array _ => .array
  | object _ => .object

def int32 : JVal → Option ℤ
  | int n => if -2^31 ≤ n.1 ∧ n.1 < 2^31 then some n.1 else none
  | _ => none

def uint32 : JVal → Option ℤ
  | int n => if 0 ≤ n.1 ∧ n.1 < 2^32 then some n.1 else none
  | _ => none

def int64 : JVal → Option ℤ
  | int n => if n.1 < 2^63 then some n.1 else none
  | _ => none

def asString : JVal → Option Str
  | string s => some s
  | _ => none

/-- `FindMember`: the first member of that name -/
def findMember (ms : List (Str × JVal)) (name : Str) : Option JVal :=
  (ms.find? (fun m => m.1 == name)).map Prod.snd

def addMember (val : JVal) (name : Str) (x : JVal) : Option JVal :=
  match val with
  | object ms => some (object (ms ++ [(name, x)]))
  | _ => none

def pushBack (val : JVal) (x : JVal) : Option JVal :=
  match val with
  | array xs => some (array (xs ++ [x]))
  | _ => none

def nonEmptyObject : JVal → Bool
  | object (_ :: _) => Bool.true
  | _ => Bool.false

def unsigned (x : BitVec 64) : JVal :=
  int ⟨x.toNat, by
    have h := x.isLt
    omega⟩

def signed (x : BitVec 64) : JVal :=
  int ⟨x.toInt, by
    have hlo := BitVec.le_toInt x
    have hhi : x.toInt < 2^63 := BitVec.toInt_lt
    omega⟩

end JVal

end Virthttp
