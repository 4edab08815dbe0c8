import Virthttp.CsvFields
import Virthttp.FlagClasses
import Virthttp.Json2Virt
import Virthttp.UrlRoundTrip

namespace Virthttp

open Interaction

/-- A name without commas and without the characters at which a target is cut. -/
structure FlagName where
  text : Str
  nonempty : text ≠ []
  chars : ∀ c ∈ text, wordChar c = true ∧ c ≠ ','

structure Tag where
  text : Str
  nonempty : text ≠ []
  chars : ∀ c ∈ text, wordChar c = true

def commaSeparated (names : List FlagName) : Str :=
  List.intercalate [','] (names.map (·.text))

theorem commaSeparated_cons (name next : FlagName) (names : List FlagName) :
    commaSeparated (name :: next :: names) =
      name.text ++ ',' :: commaSeparated (next :: names) := by
  simp [commaSeparated, List.intercalate_cons_cons]

theorem commaSeparated_chars (names : List FlagName) :
    ∀ c ∈ commaSeparated names, wordChar c = true := by
  intro c hc
  induction names with
  | nil => simp [commaSeparated] at hc
  | cons name names ih =>
    cases names with
    | nil => exact (name.chars c (by simpa [commaSeparated] using hc)).1
    | cons next names =>
      rw [commaSeparated_cons, List.mem_append, List.mem_cons] at hc
      rcases hc with hc | rfl | hc
      · exact (name.chars c hc).1
      · decide
      · exact ih hc

def flagPair (sep : Separator) (tag : Tag) (names : List FlagName) : QueryPair where
  sep := sep
  name := tag.text
  value := commaSeparated names
  equals := true
  named := tag.nonempty
  nameChars := tag.chars
  valueChars := commaSeparated_chars names
  valued := fun _ => rfl

theorem FlagName.no_comma (name : FlagName) : ∀ c ∈ name.text, c ≠ ',' :=
  fun c hc => (name.chars c hc).2

/-- The iterator visits the names in order. -/
theorem csvFields_commaSeparated (names : List FlagName) :
    csvFields (commaSeparated names) = names.map (·.text) := by
  induction names with
  | nil => rfl
  | cons name names ih =>
    cases names with
    | nil =>
      have htext : commaSeparated [name] = name.text := by simp [commaSeparated]
      rw [htext, csvFields_last name.nonempty name.no_comma]
      rfl
    | cons next names =>
      rw [commaSeparated_cons, csvFields_cons name.nonempty name.no_comma, ih]
      rfl

/-- The first pair loses its name where there is no path: the question mark stays in front. -/
theorem get_targetOf_cons (segs : List PathSegment) (p : QueryPair) (ps : List QueryPair)
    (f : Option Fragment) (name : Str) :
    (TargetParser.ofUrl (targetOf segs (p :: ps) f)).get name =
      if (if segs = [] then ['?'] else []) ++ p.name = name then some p.value
      else firstValue ps name := by
  have hstart : ∀ c ∈ (if segs = [] then ['?'] else []), queryChar c = true := by
    intro c hc
    split at hc
    · obtain rfl := List.mem_singleton.mp hc
      decide
    · simp at hc
  rw [(ofUrl_targetOf segs (p :: ps) f).2 name, range_first hstart, find_name_cons,
    firstValue_eq]

def firstName (segs : List PathSegment) (p : QueryPair) : Str :=
  (if segs = [] then ['?'] else []) ++ p.name

/-- The code finds the pair of the tag behind the pairs `front`: it keeps its name, and no pair in
front is kept under the same. -/
def TagFound (segs : List PathSegment) (front : List QueryPair) (tag : Tag) : Prop :=
  match front with
  | [] => segs ≠ []
  | p :: ps => firstName segs p ≠ tag.text ∧ ∀ q ∈ ps, q.name ≠ tag.text

def foundInstead (segs : List PathSegment) (front back : List QueryPair) (tag : Tag) : Str :=
  match front with
  | [] => (firstValue back tag.text).getD []
  | p :: ps =>
    if firstName segs p = tag.text then p.value else (firstValue ps tag.text).getD []

theorem firstValue_append {front : List QueryPair} {name : Str} {q : QueryPair} (hq : q ∈ front)
    (hname : q.name = name) (back : List QueryPair) :
    firstValue (front ++ back) name = firstValue front name := by
  have hsome : (front.find? (fun p => p.name == name)).isSome = true := by
    rw [List.find?_isSome]
    exact ⟨q, hq, by simpa using hname⟩
  rw [firstValue, firstValue, List.find?_append, Option.or_of_isSome hsome]

theorem firstValue_flagPair {front : List QueryPair} {tag : Tag}
    (hfront : ∀ p ∈ front, p.name ≠ tag.text) (sep : Separator) (names : List FlagName)
    (back : List QueryPair) :
    firstValue (front ++ flagPair sep tag names :: back) tag.text = some (commaSeparated names) := by
  have hnone : front.find? (fun p => p.name == tag.text) = none := by
    rw [List.find?_eq_none]
    intro p hp
    simpa using hfront p hp
  rw [firstValue, List.find?_append, hnone, Option.none_or,
    List.find?_cons_of_pos (by simp [flagPair])]
  rfl

theorem get_flagPair {tag : Tag} (front : List QueryPair) (segs : List PathSegment)
    (sep : Separator) (names : List FlagName) (back : List QueryPair) (f : Option Fragment) :
    let t := TargetParser.ofUrl (targetOf segs (front ++ flagPair sep tag names :: back) f)
    (TagFound segs front tag → t.get tag.text = some (commaSeparated names)) ∧
      (¬TagFound segs front tag →
        (t.get tag.text).getD [] = foundInstead segs front back tag) := by
  intro t
  cases front with
  | nil =>
    have hget : t.get tag.text = _ := get_targetOf_cons segs (flagPair sep tag names) back f tag.text
    by_cases hsegs : segs = []
    · have hne : ['?'] ++ (flagPair sep tag names).name ≠ tag.text := List.cons_ne_self '?' tag.text
      refine ⟨fun h => absurd hsegs h, fun _ => ?_⟩
      rw [hget, if_pos hsegs, if_neg hne]
      rfl
    · refine ⟨fun _ => ?_, fun h => absurd hsegs h⟩
      rw [hget, if_neg hsegs]
      exact if_pos rfl
  | cons p ps =>
    have hget : t.get tag.text = if firstName segs p = tag.text then some p.value
        else firstValue (ps ++ flagPair sep tag names :: back) tag.text :=
      get_targetOf_cons segs p (ps ++ flagPair sep tag names :: back) f tag.text
    constructor
    · intro hfound
      rw [hget, if_neg hfound.1, firstValue_flagPair hfound.2]
    · intro hnot
      have hinstead : foundInstead segs (p :: ps) back tag =
          if firstName segs p = tag.text then p.value else (firstValue ps tag.text).getD [] := rfl
      rw [hinstead]
      by_cases hfirst : firstName segs p = tag.text
      · rw [hget, if_pos hfirst, if_pos hfirst]
        rfl
      · have hearlier : ∃ q ∈ ps, q.name = tag.text := by
          by_contra hno
          exact hnot ⟨hfirst, fun q hq hname => hno ⟨q, hq, hname⟩⟩
        obtain ⟨q, hq, hname⟩ := hearlier
        rw [hget, if_neg hfirst, if_neg hfirst, firstValue_append hq hname]

def Act.flagAnswer : Option (BitVec 32) → Act (Option (BitVec 32))
  | some flags => pure (some flags)
  | none => do
    error 301
    return none

theorem getFlag_string (values : List String) (name : Str) :
    Act.getFlag values (.string name) = Act.flagAnswer (enumSetFromString values name) := by
  unfold Act.getFlag
  simp only [JVal.asString, Act.require, ret_bind]
  cases enumSetFromString values name with
  | none => rfl
  | some v => rfl

theorem getCombinedFlagsFrom_strings (values : List String) (flagset : BitVec 32)
    (names : List Str) : Act.getCombinedFlagsFrom values flagset (names.map .string) =
      Act.flagAnswer (composeFlags values flagset names) := by
  induction names generalizing flagset with
  | nil => rfl
  | cons name names ih =>
    rw [List.map_cons, Act.getCombinedFlagsFrom, composeFlags, getFlag_string]
    cases enumSetFromString values name with
    | none => rfl
    | some v => exact ih (flagset ||| v)

/-- Both decoders give the flags that the names stand for; only the one of the body adds an error
to the response where a name is unknown. -/
structure DecodersAgree (values : List String) (target : TargetParser) (tag : Str)
    (names : List Str) : Prop where
  target : targetGetComposableFlag values target tag = flagsNamed values names
  body : Act.getCombinedFlags values (.array (names.map .string)) =
    Act.flagAnswer (flagsNamed values names)

theorem decodersAgree_iff {values : List String} {target : TargetParser} {tag : Str}
    {names : List Str} : DecodersAgree values target tag names ↔
      flagsNamed values (csvFields ((target.get tag).getD [])) = flagsNamed values names := by
  have htarget : targetGetComposableFlag values target tag =
      flagsNamed values (csvFields ((target.get tag).getD [])) := composeFlags_zero values _
  have hbody : Act.getCombinedFlags values (.array (names.map .string)) =
      Act.flagAnswer (flagsNamed values names) := by
    rw [Act.getCombinedFlags, getCombinedFlagsFrom_strings, composeFlags_zero]
  rw [← htarget]
  exact ⟨fun h => h.target, fun h => ⟨h, hbody⟩⟩

/-- The decoders agree on all flags and all names if and only if the pair of the tag is found in
the target; where it is not, they agree on those names that mean what is found instead. Order and
repetition of the names do not matter. -/
theorem decoders_agree_iff (segs : List PathSegment) (front back : List QueryPair) (sep : Separator)
    (tag : Tag) (f : Option Fragment) :
    let target (names : List FlagName) :=
      TargetParser.ofUrl (targetOf segs (front ++ flagPair sep tag names :: back) f)
    let agree (values : List String) (names : List FlagName) :=
      DecodersAgree values (target names) tag.text (names.map (·.text))
    ((∀ values names, agree values names) ↔ TagFound segs front tag) ∧
    (∀ values names, agree values names ↔ TagFound segs front tag ∨
      flagsNamed values (csvFields (foundInstead segs front back tag)) =
        flagsNamed values (names.map (·.text))) ∧
    ∀ values xs ys, (∀ name, name ∈ xs ↔ name ∈ ys) →
      flagsNamed values xs = flagsNamed values ys := by
  intro target agree
  have hfound (hf : TagFound segs front tag) (values : List String) (names : List FlagName) :
      agree values names := by
    apply decodersAgree_iff.mpr
    rw [(get_flagPair front segs sep names back f).1 hf, Option.getD_some,
      csvFields_commaSeparated]
  have hinstead (hf : ¬TagFound segs front tag) (values : List String) (names : List FlagName) :
      agree values names ↔ flagsNamed values (csvFields (foundInstead segs front back tag)) =
        flagsNamed values (names.map (·.text)) := by
    rw [← (get_flagPair front segs sep names back f).2 hf]
    exact decodersAgree_iff
  refine ⟨⟨?_, hfound⟩, ?_, fun values xs ys => orAll_congr_mem⟩
  · intro hall
    by_contra hf
    let name : FlagName := ⟨['a'], by simp, by simp [wordChar, queryChar, sepChar, isSpace]⟩
    have hnone := (hinstead hf ["a"] []).mp (hall ["a"] [])
    have hone := (hinstead hf ["a"] [name]).mp (hall ["a"] [name])
    have heq : flagsNamed ["a"] [] = flagsNamed ["a"] [['a']] := hnone.symm.trans hone
    revert heq
    decide
  · intro values names
    by_cases hf : TagFound segs front tag
    · exact ⟨fun _ => Or.inl hf, fun _ => hfound hf values names⟩
    · rw [hinstead hf]
      exact ⟨Or.inr, fun h => h.resolve_left hf⟩

/-- The target `/?options=inactive`, where the decoder of the target finds no flag. -/
theorem root_options_ignored :
    let tag : Tag := ⟨lit "options", by decide, List.all_eq_true.mp rfl⟩
    let names : List FlagName := [
      ⟨lit "inactive", by decide, List.forall_iff_forall_mem.mp (by decide)⟩]
    ¬DecodersAgree XMLFlags.values (TargetParser.ofUrl (targetOf []
      ([] ++ flagPair .ampersand tag names :: []) none)) tag.text (names.map (·.text)) := by
  intro tag names hagree
  have hnot : ¬TagFound [] [] tag := fun h => h rfl
  have hnone := (get_flagPair [] [] .ampersand names [] none).2 hnot
  have heq := decodersAgree_iff.mp hagree
  rw [hnone] at heq
  revert heq
  decide

end Virthttp
