import Virthttp.ActionTruth

namespace Virthttp

open Interaction

inductive JTag where
  | bool
  | int32
  | uint32
  | int64
  | uint64
  | float
  | double
  | string

inductive ArgType where
  | plain (tag : JTag)
  | enum (values : List String)
  | array (nested : JTag)

inductive JRepr where
  | bool (b : Bool)
  | int (n : ℤ)
  | float (f : Float32)
  | double (bits : BitVec 64)
  | string (s : Str)

inductive ArgVal where
  | plain (x : JRepr)
  | enum (v : ℕ)
  | array (xs : List JRepr)

structure WArg where
  name : String
  type : ArgType
  optional : Bool

namespace JVal

def uint64 : JVal → Option ℤ
  | int n => if 0 ≤ n.1 then some n.1 else none
  | _ => none

def asDouble : JVal → Option (BitVec 64)
  | double bits => some bits
  | _ => none

def asFloat : JVal → Option Float32
  | double bits =>
    let d := Float.ofBits ⟨bits⟩
    if -3.4028234e38 ≤ d ∧ d ≤ 3.4028234e38 then some d.toFloat32 else none
  | _ => none

end JVal

def JTag.get : JTag → JVal → Option JRepr
  | bool, x => (DomainActions.getBool x).map .bool
  | int32, x => x.int32.map .int
  | uint32, x => x.uint32.map .int
  | int64, x => x.int64.map .int
  | uint64, x => x.uint64.map .int
  | float, x => x.asFloat.map .float
  | double, x => x.asDouble.map .double
  | string, x => x.asString.map .string

def JTag.default : JTag → JRepr
  | bool => .bool false
  | int32 => .int 0
  | uint32 => .int 0
  | int64 => .int 0
  | uint64 => .int 0
  | float => .float 0
  | double => .double 0
  | string => .string []

def ArgType.default : ArgType → ArgVal
  | plain tag => .plain tag.default
  | enum _ => .enum 0
  | array _ => .array []

namespace Act

def extractArg : ArgType → JVal → Act (Option ArgVal)
  | .plain tag, x => do return (← extractParamVal tag.get x).map .plain
  | .enum values, x => do return (← extractEnum values x).map .enum
  | .array nested, x => do return (← extractArray (extractParamVal nested.get) x).map .array

def extractArgParam (considerOptional : Bool) (type : ArgType) (ms : List (Str × JVal))
    (name : String) : Act (Option ArgVal) :=
  match JVal.findMember ms (lit name) with
  | none => pure (if considerOptional then some type.default else none)
  | some elJson => extractArg type elJson

/-- `(proc_parm(args) && ...)` of several arguments, with the values that it fills in;
`extract_param` is left to its default, which considers no parameter optional. -/
def procParms (ms : List (Str × JVal)) : List WArg → Act (Option (List ArgVal))
  | [] => pure (some [])
  | warg :: args => do
    let res ← extractArgParam false warg.type ms warg.name
    match res with
    | none => return none
    | some a => do
      let vals ← procParms ms args
      return vals.map (a :: ·)

/-- `wrap_fcn_args`: a single argument is the value itself, several are members of it. -/
def wrapFcnArgs (val : JVal) : List WArg → Act (Option (List ArgVal))
  | [] => pure (some [])
  | [warg] => do return (← extractArg warg.type val).map fun a => [a]
  | args =>
    match val with
    | .object ms => procParms ms args
    | _ => do
      error 0
      return none

def wrapFcnOf {γ : Type} (val : JVal) (fcn : List ArgVal → Act γ) (args : List WArg) :
    Act (Option γ) := do
  let tup ← wrapFcnArgs val args
  match tup with
  | none => return none
  | some vals => do
    let ret ← fcn vals
    return some ret

end Act

def ArgType.decode : ArgType → JVal → Option ArgVal
  | plain tag, x => (tag.get x).map .plain
  | enum values, x => (enumValue values x).map .enum
  | array nested, x => (arrayValue nested.get x).map .array

def WArg.Missing (warg : WArg) (ms : List (Str × JVal)) : Prop :=
  JVal.findMember ms (lit warg.name) = none

/-- The argument that is owed to the function: the value of the member, or the default where an
optional one is missing. -/
def WArg.owed (ms : List (Str × JVal)) (warg : WArg) : Option ArgVal :=
  match JVal.findMember ms (lit warg.name) with
  | none => if warg.optional then some warg.type.default else none
  | some x => warg.type.decode x

def owedArgs : JVal → List WArg → Option (List ArgVal)
  | .object ms, args => args.mapM (WArg.owed ms)
  | _, _ => none

/-- The function is called once with the arguments that are owed, and its result is returned; it
is not called where none are owed, and there is no result. -/
def WrapsRight (val : JVal) (args : List WArg) : Prop :=
  match owedArgs val args with
  | some vals => ∀ (γ : Type) (fcn : List ArgVal → Act γ),
      Act.wrapFcnOf val fcn args = (do
        let ret ← fcn vals
        return some ret)
  | none => ∀ γ : Type, ∃ p : Act (Option γ), (∀ fcn, Act.wrapFcnOf val fcn args = p) ∧
      ∀ h, Spec p h (fun _ r => r = none) (fun _ _ => False)

/-- All the arguments that are needed are there and understood, but for an optional one that is
missing. -/
def MissesOptional (val : JVal) (args : List WArg) : Prop :=
  ∃ ms, val = .object ms ∧ (∀ warg ∈ args, warg.Missing ms → warg.optional = true) ∧
    (∀ warg ∈ args, ∀ x, JVal.findMember ms (lit warg.name) = some x →
      warg.type.decode x ≠ none) ∧ ∃ warg ∈ args, warg.Missing ms

open DomainActions

theorem reads_map {α β : Type} {p : Act (Option α)} {value : Option α} (hp : Reads p value)
    (f : α → β) : Reads (do return (← p).map f) (value.map f) := by
  have hbind : Reads (p >>= fun r => pure (r.map f)) (value.bind fun a => some (f a)) :=
    hp.bind rfl fun a => reads_pure (some (f a))
  rw [Option.map_eq_bind]
  exact hbind

theorem extractArg_reads (type : ArgType) (x : JVal) :
    Reads (Act.extractArg type x) (type.decode x) := by
  cases type with
  | plain tag => exact reads_map (extractParamVal_reads tag.get x) _
  | enum values => exact reads_map (extractEnum_reads values x) _
  | array nested => exact reads_map (extractArray_reads (extractParamVal_reads nested.get) x) _

def WArg.member (ms : List (Str × JVal)) (warg : WArg) : Option ArgVal :=
  memberValue warg.type.decode ms warg.name

theorem extractArgParam_reads (ms : List (Str × JVal)) (warg : WArg) :
    Reads (Act.extractArgParam false warg.type ms warg.name) (warg.member ms) := by
  have hsame : Act.extractArgParam false warg.type ms warg.name =
      Act.extractParam (Act.extractArg warg.type) ms warg.name := by
    unfold Act.extractArgParam Act.extractParam
    cases JVal.findMember ms (lit warg.name) <;> rfl
  rw [hsame]
  exact extractParam_reads (extractArg_reads warg.type) ms warg.name

theorem procParms_reads (ms : List (Str × JVal)) (args : List WArg) :
    Reads (Act.procParms ms args) (args.mapM (WArg.member ms)) := by
  induction args with
  | nil => exact reads_pure (some [])
  | cons warg args ih =>
    rw [List.mapM_cons]
    refine (extractArgParam_reads ms warg).bind rfl fun a => ?_
    have hrest := reads_map ih (a :: ·)
    rw [Option.map_eq_bind] at hrest
    exact hrest

def extractedArgs : JVal → List WArg → Option (List ArgVal)
  | .object ms, args => args.mapM (WArg.member ms)
  | _, _ => none

theorem wrapFcnArgs_reads (val : JVal) (first second : WArg) (rest : List WArg) :
    Reads (Act.wrapFcnArgs val (first :: second :: rest))
      (extractedArgs val (first :: second :: rest)) := by
  cases val with
  | object ms => exact procParms_reads ms _
  | _ => exact reads_error

section Calls

variable {val : JVal} {first second : WArg} {rest : List WArg}

theorem wrapFcnOf_extracted {γ : Type} {vals : List ArgVal} (fcn : List ArgVal → Act γ)
    (hvals : extractedArgs val (first :: second :: rest) = some vals) :
    Act.wrapFcnOf val fcn (first :: second :: rest) = (do
      let ret ← fcn vals
      return some ret) := by
  have hreads := wrapFcnArgs_reads val first second rest
  rw [hvals] at hreads
  exact hreads.bind_some

/-- Where an argument is not extracted there is no call, and no result. -/
theorem wrapFcnOf_none (γ : Type) (hvals : extractedArgs val (first :: second :: rest) = none) :
    ∃ p : Act (Option γ), (∀ fcn, Act.wrapFcnOf val fcn (first :: second :: rest) = p) ∧
      ∀ h, Spec p h (fun _ r => r = none) (fun _ _ => False) := by
  have hreads := wrapFcnArgs_reads val first second rest
  have hnone := hreads.missing hvals
  refine ⟨Act.wrapFcnArgs val (first :: second :: rest) >>= fun _ => pure none, ?_, ?_⟩
  · intro fcn
    apply bind_congr_of_spec
    refine (hnone []).mono ?_ (fun _ _ _ => trivial)
    intro _ tup htup
    rw [htup]
  · intro h
    apply spec_bind.mpr
    exact (hnone h).mono (fun _ _ _ => rfl) (fun _ _ hf => hf)

/-- The function is called right where exactly the arguments are extracted that are owed. -/
theorem wrapsRight_iff_extracted
    (howed : ∀ vals, extractedArgs val (first :: second :: rest) = some vals →
      owedArgs val (first :: second :: rest) = some vals) :
    WrapsRight val (first :: second :: rest) ↔
      owedArgs val (first :: second :: rest) = extractedArgs val (first :: second :: rest) := by
  unfold WrapsRight
  cases hextracted : extractedArgs val (first :: second :: rest) with
  | some vals =>
    rw [howed vals hextracted]
    exact iff_of_true (fun _ fcn => wrapFcnOf_extracted fcn hextracted) rfl
  | none =>
    cases hargs : owedArgs val (first :: second :: rest) with
    | none => exact iff_of_true (fun γ => wrapFcnOf_none γ hextracted) rfl
    | some vals =>
      refine iff_of_false ?_ (by simp)
      intro hright
      obtain ⟨p, hp, hnone⟩ := wrapFcnOf_none Unit hextracted
      have hcalled := hright Unit fun _ => pure ()
      rw [hp] at hcalled
      have hspec := hnone []
      rw [hcalled] at hspec
      cases hspec

end Calls

theorem mapM_isSome_iff {α β : Type} {f : α → Option β} {xs : List α} :
    (xs.mapM f).isSome ↔ ∀ x ∈ xs, (f x).isSome := by
  induction xs with
  | nil => simp
  | cons x xs ih =>
    rw [List.mapM_cons, List.forall_mem_cons, ← ih]
    cases f x with
    | none => simp
    | some y => cases xs.mapM f <;> simp

theorem mapM_congr {α β : Type} {f g : α → Option β} {xs : List α} (h : ∀ x ∈ xs, f x = g x) :
    xs.mapM f = xs.mapM g := by
  induction xs with
  | nil => rfl
  | cons x xs ih =>
    rw [List.forall_mem_cons] at h
    rw [List.mapM_cons, List.mapM_cons, h.1, ih h.2]

namespace WArg

variable {ms : List (Str × JVal)} {warg : WArg}

theorem member_of_missing (h : warg.Missing ms) : warg.member ms = none := by
  rw [member, memberValue, h]
  rfl

theorem owed_of_present (h : ¬warg.Missing ms) : warg.owed ms = warg.member ms := by
  unfold owed member memberValue
  cases hfound : JVal.findMember ms (lit warg.name) with
  | none => exact absurd hfound h
  | some x => rfl

theorem owed_isSome_iff : (warg.owed ms).isSome ↔ (warg.Missing ms → warg.optional = true) ∧
    ∀ x, JVal.findMember ms (lit warg.name) = some x → warg.type.decode x ≠ none := by
  unfold owed Missing
  cases JVal.findMember ms (lit warg.name) with
  | none => cases warg.optional <;> simp
  | some x => simp [Option.isSome_iff_ne_none]

end WArg

/-- The arguments that are extracted are owed; they are not all of them if one is missing. -/
theorem extracted_of_object (ms : List (Str × JVal)) (args : List WArg) :
    (∃ warg ∈ args, warg.Missing ms) ∧ extractedArgs (.object ms) args = none ∨
      (∀ warg ∈ args, ¬warg.Missing ms) ∧
        owedArgs (.object ms) args = extractedArgs (.object ms) args := by
  by_cases hmissing : ∃ warg ∈ args, warg.Missing ms
  · refine Or.inl ⟨hmissing, ?_⟩
    obtain ⟨warg, hmem, hwarg⟩ := hmissing
    have hnone : ¬(args.mapM (WArg.member ms)).isSome := by
      intro hsome
      have hthis := mapM_isSome_iff.mp hsome warg hmem
      rw [WArg.member_of_missing hwarg] at hthis
      cases hthis
    exact Option.not_isSome_iff_eq_none.mp hnone
  · have hpresent : ∀ warg ∈ args, ¬warg.Missing ms := fun warg hmem h =>
      hmissing ⟨warg, hmem, h⟩
    exact Or.inr ⟨hpresent, mapM_congr fun warg hmem => WArg.owed_of_present (hpresent warg hmem)⟩

theorem missesOptional_object_iff (ms : List (Str × JVal)) (args : List WArg) :
    MissesOptional (.object ms) args ↔
      (owedArgs (.object ms) args).isSome ∧ ∃ warg ∈ args, warg.Missing ms := by
  have howed : (owedArgs (.object ms) args).isSome ↔ ∀ warg ∈ args, (warg.owed ms).isSome :=
    mapM_isSome_iff
  rw [howed]
  constructor
  · intro hmisses
    obtain ⟨_, ⟨⟩, hoptional, hdecode, hmissing⟩ := hmisses
    refine ⟨fun warg hmem => ?_, hmissing⟩
    exact WArg.owed_isSome_iff.mpr ⟨hoptional warg hmem, hdecode warg hmem⟩
  · intro hmisses
    obtain ⟨hsome, hmissing⟩ := hmisses
    refine ⟨ms, rfl, fun warg hmem => ?_, fun warg hmem => ?_, hmissing⟩
    · exact (WArg.owed_isSome_iff.mp (hsome warg hmem)).1
    · exact (WArg.owed_isSome_iff.mp (hsome warg hmem)).2

theorem missesOptional_iff_ne (val : JVal) (args : List WArg) :
    MissesOptional val args ↔ owedArgs val args ≠ extractedArgs val args := by
  cases val with
  | object ms =>
    rw [missesOptional_object_iff]
    rcases extracted_of_object ms args with ⟨hmissing, hnone⟩ | ⟨hpresent, hsame⟩
    · rw [hnone, Option.isSome_iff_ne_none]
      exact and_iff_left hmissing
    · refine iff_of_false ?_ (not_not.mpr hsame)
      intro hmisses
      obtain ⟨_, warg, hmem, hwarg⟩ := hmisses
      exact hpresent warg hmem hwarg
  | _ =>
    refine iff_of_false ?_ (not_not.mpr rfl)
    intro hmisses
    obtain ⟨_, heq, _⟩ := hmisses
    cases heq

theorem owed_of_extracted {val : JVal} {args : List WArg} {vals : List ArgVal}
    (hvals : extractedArgs val args = some vals) : owedArgs val args = some vals := by
  cases val with
  | object ms =>
    rcases extracted_of_object ms args with ⟨_, hnone⟩ | ⟨_, hsame⟩
    · rw [hnone] at hvals
      cases hvals
    · rw [hsame, hvals]
  | _ => cases hvals

/-- Several arguments are passed right unless all that is needed is there and understood, and an
optional one is missing. -/
theorem wrapsRight_iff (val : JVal) (first second : WArg) (rest : List WArg) :
    WrapsRight val (first :: second :: rest) ↔
      ¬MissesOptional val (first :: second :: rest) := by
  rw [missesOptional_iff_ne, not_not]
  exact wrapsRight_iff_extracted fun _ => owed_of_extracted

/-- `{"pid": 7}` for an optional flag besides: the function is not called. -/
theorem optional_argument_required :
    let args : List WArg := [⟨"pid", .plain .int64, false⟩, ⟨"force", .plain .bool, true⟩]
    let val : JVal := .object [(lit "pid", .int ⟨7, by decide⟩)]
    owedArgs val args = some [.plain (.int 7), .plain (.bool false)] ∧ ¬WrapsRight val args := by
  intro args val
  have howed : owedArgs val args = some [.plain (.int 7), .plain (.bool false)] := rfl
  refine ⟨howed, ?_⟩
  intro hright
  have hnone : extractedArgs val args = none := rfl
  have hsame := (wrapsRight_iff_extracted fun _ => owed_of_extracted).mp hright
  rw [howed, hnone] at hsame
  cases hsame

/-- The action on signals passes its two parameters this way. -/
theorem sendSignal_wraps (val : JVal) :
    Act.wrapFcn val Domain.sendProcessSignal (Act.extractParamVal JVal.int64) "pid"
      (Act.extractEnum ProcessSignal.values) "signal" =
    Act.wrapFcnOf val (fun
      | [.plain (.int pidValue), .enum signum] => Domain.sendProcessSignal pidValue signum
      | _ => Act.abort)
      [⟨"pid", .plain .int64, false⟩, ⟨"signal", .enum ProcessSignal.values, false⟩] := by
  cases val with
  | object ms =>
    simp only [Act.wrapFcn, Act.wrapFcnOf, Act.wrapFcnArgs, Act.procParms, Act.extractArgParam,
      Act.extractParam, Act.extractArg, Act.extractParamVal, Act.extractEnum, JTag.get]
    cases JVal.findMember ms (lit "pid") with
    | none => rfl
    | some x =>
      cases hx : x.int64 with
      | none =>
        simp only [hx, Option.map_none]
        rfl
      | some pidValue =>
        simp only [hx, Option.map_some]
        cases JVal.findMember ms (lit "signal") with
        | none => rfl
        | some y =>
          cases hy : y.asString with
          | none =>
            simp only [hy]
            rfl
          | some name =>
            simp only [hy]
            cases enumFromString ProcessSignal.values name <;> rfl
  | _ => rfl

end Virthttp
