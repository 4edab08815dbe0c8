import Virthttp.Flagwork
import Virthttp.VirtWrap

namespace Virthttp

open Interaction

namespace Act

def extractParamVal {α : Type} (get : JVal → Option α) (elJson : JVal) : Act (Option α) :=
  match get elJson with
  | none => do
    error 0
    return none
  | some val => return some val

/-- `extract_param_val<JTag::Enum>`; a name that is none of the values leaves no error. -/
def extractEnum (values : List String) (elJson : JVal) : Act (Option ℕ) :=
  match elJson.asString with
  | none => do
    error 0
    return none
  | some name => return enumFromString values name

def extractElements {α : Type} (sub : JVal → Act (Option α)) : List JVal → Act (Option (List α))
  | [] => pure (some [])
  | x :: xs => do
    let res ← sub x
    match res with
    | none => return none
    | some val => do
      let vals ← extractElements sub xs
      return vals.map (val :: ·)

def extractArray {α : Type} (sub : JVal → Act (Option α)) : JVal → Act (Option (List α))
  | .array xs => extractElements sub xs
  | _ => do
    error 0
    return none

/-- `extract_param`; a member that is missing leaves no error. -/
def extractParam {α : Type} (sub : JVal → Act (Option α)) (ms : List (Str × JVal)) (name : String) :
    Act (Option α) :=
  match JVal.findMember ms (lit name) with
  | none => pure none
  | some elJson => sub elJson

/-- `wrap_fcn` of two parameters: the function is called once both have been extracted. -/
def wrapFcn {α β γ : Type} (val : JVal) (fcn : α → β → Act γ)
    (sub₁ : JVal → Act (Option α)) (name₁ : String)
    (sub₂ : JVal → Act (Option β)) (name₂ : String) : Act (Option γ) :=
  match val with
  | .object ms => do
    let res₁ ← extractParam sub₁ ms name₁
    match res₁ with
    | none => return none
    | some a => do
      let res₂ ← extractParam sub₂ ms name₂
      match res₂ with
      | none => return none
      | some b => do
        let ret ← fcn a b
        return some ret
  | _ => do
    error 0
    return none

/-- `getFlag`, which takes the text of the value without a test. -/
def getFlag (values : List String) (jsonFlag : JVal) : Act (Option (BitVec 32)) := do
  let name ← require jsonFlag.asString
  match enumSetFromString values name with
  | some v => return some v
  | none => do
    error 301
    return none

def getCombinedFlagsFrom (values : List String) : BitVec 32 → List JVal → Act (Option (BitVec 32))
  | flagset, [] => pure (some flagset)
  | flagset, x :: xs => do
    let v ← getFlag values x
    match v with
    | none => return none
    | some v => getCombinedFlagsFrom values (flagset ||| v) xs

/-- `getCombinedFlags`: what is neither an array nor a string sets no flag. -/
def getCombinedFlags (values : List String) : JVal → Act (Option (BitVec 32))
  | .array xs => getCombinedFlagsFrom values 0 xs
  | .string s => getFlag values (.string s)
  | _ => pure (some 0)

end Act

end Virthttp
