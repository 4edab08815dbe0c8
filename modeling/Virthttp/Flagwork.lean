import Virthttp.HandlerContext
import Virthttp.UrlParser

namespace Virthttp

open Interaction

/-- `EnumHelper::from_string_base`: the position of the first equal name. -/
def enumFromString (values : List String) (v : Str) : Option ℕ :=
  values.findIdx? (fun n => lit n == v)

/-- `EnumSetHelper::from_string_base`: a single bit at that position. -/
def enumSetFromString (values : List String) (v : Str) : Option (BitVec 32) :=
  (enumFromString values v).map (fun i => 1#32 <<< i)

def State.values : List String :=
  ["No State", "Running", "Blocked", "Paused", "Shutting down", "Shutoff", "Crashed",
    "Power Management Suspended"]

def State.RUNNING : BitVec 8 := 1
def State.PAUSED : BitVec 8 := 3

def XMLFlags.values : List String := ["secure", "inactive", "update_cpu", "migratable"]

def ShutdownFlag.values : List String :=
  ["acpi_power_btn", "guest_agent", "initctl", "signal", "paravirt"]

def DestroyFlag.values : List String := ["graceful"]

def CreateFlag.values : List String :=
  ["paused", "autodestroy", "bypass_cache", "force_boot", "validate"]

def UndefineFlag.values : List String :=
  ["managed_save", "snapshots_metadata", "nvram", "keep_nvram"]

def ListDomainFlag.values : List String :=
  ["active", "inactive", "persistent", "transient", "running", "paused", "shutoff", "other",
    "managed_save", "no_managed_save", "autostart", "no_autostart", "has_snapshot", "no_snapshot"]

def KeycodeSet.values : List String := ["linux", "xt", "atset1", "atset2", "atset3", "osx", ""]

def ProcessSignal.values : List String :=
  ["nop", "hup", "int", "quit", "ill", "trap", "abrt", "bus", "fpe", "kill", "usr1", "segv",
    "usr2", "pipe", "alrm", "term", "stkflt", "chld", "cont", "stop", "tstp", "ttin", "ttou",
    "urg", "xcpu", "xfsz", "vtalrm", "prof", "winch", "poll", "pwr", "sys", "rt0", "rt1", "rt2",
    "rt3", "rt4", "rt5", "rt6", "rt7", "rt8", "rt9", "rt10", "rt11", "rt12", "rt13", "rt14",
    "rt15", "rt16", "rt17", "rt18", "rt19", "rt20", "rt21", "rt22", "rt23", "rt24", "rt25",
    "rt26", "rt27", "rt28", "rt29", "rt30", "rt31", "rt32"]

/-- `CSVIterator::operator++` -/
def csvNext (sv : Str) : Str := (sv.dropWhile (· != ',')).drop 1

/-- `CSVIterator::operator*`; commas in front stay in the field. -/
def csvGet (sv : Str) : Str :=
  let csv := sv.dropWhile (· == ',')
  sv.take (sv.length-(csv.dropWhile (· != ',')).length)

def csvFieldsFuel : ℕ → Str → List Str
  | 0, _ => []
  | n+1, sv => if sv = [] then [] else csvGet sv :: csvFieldsFuel n (csvNext sv)

def csvFields (sv : Str) : List Str := csvFieldsFuel sv.length sv

theorem csvNext_length {sv : Str} (h : sv ≠ []) : (csvNext sv).length < sv.length := by
  have hsuf := (List.dropWhile_suffix (l := sv) (· != ',')).length_le
  have hpos := List.length_pos_iff.mpr h
  rw [csvNext, List.length_drop]
  omega

theorem csvFieldsFuel_enough (n m : ℕ) {sv : Str} (hn : sv.length ≤ n) (hm : sv.length ≤ m) :
    csvFieldsFuel n sv = csvFieldsFuel m sv := by
  induction n generalizing m sv with
  | zero =>
    obtain rfl : sv = [] := List.length_eq_zero_iff.mp (by omega)
    cases m <;> rfl
  | succ n ih =>
    by_cases h : sv = []
    · subst h
      cases m <;> rfl
    · have hlt := csvNext_length h
      cases m with
      | zero => omega
      | succ m =>
        simp only [csvFieldsFuel, if_neg h]
        rw [ih m (by omega) (by omega)]

/-- The loop visits the field at the iterator, then those after the next comma. -/
theorem csvFields_eq {sv : Str} (h : sv ≠ []) :
    csvFields sv = csvGet sv :: csvFields (csvNext sv) := by
  have hlt := csvNext_length h
  rw [csvFields, csvFieldsFuel_enough _ (sv.length+1) (Nat.le_refl _) (Nat.le_succ _),
    csvFieldsFuel, if_neg h, csvFields,
    csvFieldsFuel_enough (csvNext sv).length sv.length (Nat.le_refl _) (by omega)]

/-- `flags |= *v` over all fields; none where a field is no flag. -/
def composeFlags (values : List String) : BitVec 32 → List Str → Option (BitVec 32)
  | flags, [] => some flags
  | flags, field :: fields =>
    match enumSetFromString values field with
    | none => none
    | some v => composeFlags values (flags ||| v) fields

def targetGetComposableFlag (values : List String) (target : TargetParser) (tag : Str) :
    Option (BitVec 32) :=
  composeFlags values 0 (csvFields ((target.get tag).getD []))

abbrev Subquery := Act (DependsOutcome × JVal)

def fwdErr (fwd : Bool) (code : ℤ) : Act Bool :=
  if fwd then pure true
  else do
    Act.error code
    return false

/-- What a selected subquery does with the function that is lifted into it. -/
def runLifted {β : Type} (lifted : Act β) (validCheck : β → Act Bool) (toJson : β → Act JVal) :
    Subquery := do
  let res ← lifted
  if ← validCheck res then
    let val ← toJson res
    return (.success, val)
  else return (.failure, .null)

/-- `subquery` without flags; `part` is the part of the path that selects the subquery. -/
def subquery {β : Type} (name : String) (part : Str) (lifted : Act β) (validCheck : β → Act Bool)
    (toJson : β → Act JVal) : Subquery :=
  if part = lit name then runLifted lifted validCheck toJson
  else pure (.skipped, .null)

/-- `subquery` with flags that are read from the target. -/
def flagSubquery {β : Type} (name : String) (part : Str) (optFlags : Option (BitVec 32))
    (lifted : BitVec 32 → Act β) (validCheck : β → Act Bool) (toJson : β → Act JVal) : Subquery :=
  if part = lit name then
    match optFlags with
    | none => do
      Act.error 301
      return (.failure, .null)
    | some flag => runLifted (lifted flag) validCheck toJson
  else pure (.skipped, .null)

/-- `parameterized_depends_scope`: the first outcome that is not `SKIPPED`. -/
def parameterizedDependsScope : List Subquery → Subquery
  | [] => pure (.skipped, .null)
  | f :: fs => do
    let (ao, val) ← f
    if ao ≠ .skipped then return (ao, val)
    else parameterizedDependsScope fs

def answerWith (scope : Subquery) : Act DependsOutcome := do
  let (outcome, val) ← scope
  if outcome = .success then do
    Act.result val
    return .success
  else return outcome

end Virthttp
