import Virthttp.PowerManagement

namespace Virthttp

open Program Interaction

def understoodFlags (values : List String) : JVal → Option (BitVec 32)
  | .array xs => do
    let names ← xs.mapM JVal.asString
    flagsNamed values names
  | .string name => enumSetFromString values name
  | _ => none

/-- The decoder returns what the value stands for and nothing where it stands for nothing, which
it tells by an error. It never reads the text of a value that is none. -/
def StrictFlags (values : List String) (type : JVal) : Prop :=
  ∀ h, Spec (Act.getCombinedFlags values type) h (fun h' r => r = understoodFlags values type ∧
    (r = none → ∃ code, h' = h ++ [⟨.error code, ()⟩]) ∧ (r ≠ none → h' = h))
    (fun _ _ => False)

def TextsReached (values : List String) : List JVal → Prop
  | [] => True
  | x :: xs => ∃ name, x.asString = some name ∧
      (enumSetFromString values name = none ∨ TextsReached values xs)

theorem flagAnswer_strict (flags : Option (BitVec 32)) (h : Log HandlerOp.Ret) :
    Spec (Act.flagAnswer flags) h (fun h' r => r = flags ∧
      (r = none → ∃ code, h' = h ++ [⟨.error code, ()⟩]) ∧ (r ≠ none → h' = h))
      (fun _ _ => False) := by
  cases flags with
  | none =>
    apply spec_bind.mpr
    apply spec_error.mpr
    exact spec_pure.mpr ⟨rfl, fun _ => ⟨301, rfl⟩, by simp⟩
  | some b => exact spec_pure.mpr ⟨rfl, by simp, fun _ => rfl⟩

theorem getFlag_text (values : List String) {x : JVal} {name : Str} (hx : x.asString = some name) :
    Act.getFlag values x = Act.flagAnswer (enumSetFromString values name) := by
  cases x with
  | string s =>
    have hname : s = name := by simpa [JVal.asString] using hx
    rw [hname]
    exact getFlag_string values name
  | _ => cases hx

/-- What the loop over an array returns where it never comes to a value that is no text. -/
theorem getCombinedFlagsFrom_texts {values : List String} {xs : List JVal}
    (hxs : TextsReached values xs) (flagset : BitVec 32) :
    Act.getCombinedFlagsFrom values flagset xs =
      Act.flagAnswer ((xs.mapM JVal.asString).bind (composeFlags values flagset)) := by
  induction xs generalizing flagset with
  | nil => rfl
  | cons x xs ih =>
    obtain ⟨name, hname, hrest⟩ := hxs
    rw [Act.getCombinedFlagsFrom, getFlag_text values hname]
    cases hv : enumSetFromString values name with
    | none =>
      have hnone : ((x :: xs).mapM JVal.asString).bind (composeFlags values flagset) = none := by
        rw [List.mapM_cons, hname]
        cases hmap : xs.mapM JVal.asString with
        | none => rfl
        | some names => simp [composeFlags, hv]
      rw [hnone]
      rfl
    | some v =>
      have hreached : TextsReached values xs := hrest.resolve_left (by simp [hv])
      have hsame : ((x :: xs).mapM JVal.asString).bind (composeFlags values flagset) =
          (xs.mapM JVal.asString).bind (composeFlags values (flagset ||| v)) := by
        rw [List.mapM_cons, hname]
        cases hmap : xs.mapM JVal.asString with
        | none => rfl
        | some names => simp [composeFlags, hv]
      rw [hsame]
      exact ih hreached (flagset ||| v)

/-- Otherwise it reads the text of a value that has none. -/
theorem textsReached_of_no_stop {values : List String} {xs : List JVal} {flagset : BitVec 32}
    {h : Log HandlerOp.Ret} {Q : Log HandlerOp.Ret → Option (BitVec 32) → Prop}
    (hspec : Spec (Act.getCombinedFlagsFrom values flagset xs) h Q (fun _ _ => False)) :
    TextsReached values xs := by
  induction xs generalizing flagset h with
  | nil => trivial
  | cons x xs ih =>
    rw [Act.getCombinedFlagsFrom, spec_bind] at hspec
    cases hname : x.asString with
    | none =>
      unfold Act.getFlag at hspec
      rw [hname] at hspec
      exact hspec.elim
    | some name =>
      rw [getFlag_text values hname] at hspec
      refine ⟨name, hname, ?_⟩
      cases hv : enumSetFromString values name with
      | none => exact Or.inl rfl
      | some v =>
        rw [hv] at hspec
        exact Or.inr (ih hspec)

def StrictType (values : List String) : JVal → Prop
  | .string _ => True
  | .array xs => TextsReached values xs
  | _ => False

/-- On such a value the decoder answers by what the value stands for. -/
theorem getCombinedFlags_strict {values : List String} {type : JVal}
    (htype : StrictType values type) :
    Act.getCombinedFlags values type = Act.flagAnswer (understoodFlags values type) := by
  cases type with
  | string s => exact getFlag_string values s
  | array xs =>
    have hflags : understoodFlags values (.array xs) =
        (xs.mapM JVal.asString).bind (composeFlags values 0) := by
      rw [understoodFlags, Option.bind_eq_bind]
      congr 1
      funext names
      exact (composeFlags_zero values names).symm
    rw [hflags]
    exact getCombinedFlagsFrom_texts htype 0
  | _ => exact htype.elim

theorem strictFlags_iff (values : List String) (type : JVal) :
    StrictFlags values type ↔ StrictType values type := by
  constructor
  · intro hstrict
    have hspec := hstrict []
    cases type with
    | string s => trivial
    | array xs => exact textsReached_of_no_stop hspec
    | _ =>
      have hdefault : some (0 : BitVec 32) = none := hspec.1
      cases hdefault
  · intro htype h
    rw [getCombinedFlags_strict htype]
    exact flagAnswer_strict _ h

theorem flagsOf_strict {values : List String} {type : JVal} (htype : StrictType values type) :
    flagsOf values type = understoodFlags values type := by
  cases type with
  | string s => rfl
  | array xs => rfl
  | _ => exact htype.elim

def OwnFlags (values : List String) (withFlags : BitVec 32 → DomainCall) (type : JVal)
    (made : List Exchange) : Prop :=
  ∀ e ∈ made, e.changes = true → ∃ flags obj r,
    understoodFlags values type = some flags ∧ e = ⟨.domain obj (withFlags flags), r⟩

/-- A power management request that takes the flags of the class runs with the flags of its type
or changes nothing, for every answer of libvirt. -/
def StrictPower (values : List String) (type : JVal) : Prop :=
  ∀ ms request plain withFlags lv s,
    JVal.findMember ms (lit "request") = some (.string request) →
    JVal.findMember ms (lit "type") = some type →
    namedCall pmCalls (cstr request) = some ⟨plain, some (values, withFlags)⟩ →
    Holds ((DomainActions.powerMgt (.object ms)).run lv) s
      (fun _ s' => ∃ made, s'.calls = s.calls ++ made ∧ OwnFlags values withFlags type made)
      (fun _ _ => False)

theorem strictPower_of_strictType {values : List String} {type : JVal}
    (htype : StrictType values type) : StrictPower values type := by
  intro ms request plain withFlags lv s hrequest htypeMember hcalls
  have hdecoded : DomainActions.TypeDecoded (cstr request) (some type) := by
    intro calls values' withFlags' hcalls' hflagged t ht
    cases ht
    rw [hcalls] at hcalls'
    cases hcalls'
    cases hflagged
    rw [getCombinedFlags_strict htype, flagsOf_strict htype]
  have hrun : DomainActions.powerMgt (.object ms) =
      DomainActions.pmRequest (cstr request) (some type) := by
    simp only [DomainActions.powerMgt, hrequest, htypeMember]
    rfl
  rw [hrun]
  refine (Act.run_reported (DomainActions.pmRequest_report s.obj hdecoded) lv s).mono ?_ ?_
  · intro o s' hend
    obtain ⟨h, ht, -, -, hreport⟩ := hend
    obtain ⟨made, hmade, hfilter, hother⟩ := ht.calls
    refine ⟨made, hmade, fun e he hchanges => ?_⟩
    have hreport' := PmReport.of_filter hreport hfilter hother
    obtain ⟨c, r, n, hcall, heq, -⟩ := hreport'.own e he hchanges
    have hmap : (understoodFlags values type).map withFlags = some c := by
      rw [← hcall, pmCall, hcalls, ← flagsOf_strict htype]
      cases hf : flagsOf values type <;> simp [PmCalls.call, hf]
    obtain ⟨flags, hflags, rfl⟩ := Option.map_eq_some_iff.mp hmap
    exact ⟨flags, s.obj, r, hflags, heq⟩
  · intro _ _ hstop
    obtain ⟨_, hf⟩ := hstop
    exact hf

/-- The decoder is strict, and no request runs with flags that were not asked for, where the type
is a text or an array that begins with texts up to the first one that names no flag. -/
theorem type_strict_iff (values : List String) (type : JVal) :
    StrictFlags values type ∧ StrictPower values type ↔ StrictType values type := by
  rw [strictFlags_iff]
  exact ⟨And.left, fun htype => ⟨htype, strictPower_of_strictType htype⟩⟩

def runningDomain : Libvirt := fun _ c =>
  match c with
  | .domain _ .isActive => (1 : ℤ)
  | _ => default

/-- `{"request": "destroy", "type": true}` destroys with the default flags. -/
theorem boolean_type_destroys :
    let run := (DomainActions.powerMgt (.object [(lit "request", .string (lit "destroy")),
      (lit "type", .bool true)])).run runningDomain Session.init
    ¬StrictFlags DestroyFlag.values (.bool true) ∧ run.1 = .ok .success ∧
      ∃ r, (⟨.domain none (.destroyFlags 0), r⟩ : Exchange) ∈ run.2.calls := by
  intro run
  refine ⟨fun hstrict => (strictFlags_iff _ _).mp hstrict, rfl, (0 : ℤ), ?_⟩
  have hcalls : run.2.calls = Session.init.calls ++ [⟨.domain none .getInfo, default⟩,
      ⟨.domain none .isActive, (1 : ℤ)⟩, ⟨.domain none (.destroyFlags 0), (0 : ℤ)⟩] := rfl
  rw [hcalls]
  simp

end Virthttp
