import Virthttp.Backtrack
import Virthttp.Fields
import Virthttp.Flatmap
import Mathlib.Data.Char

namespace Virthttp

open Backtrack

def isSpace (c : Char) : Bool := c == ' ' || ('\t' ≤ c && c ≤ '\r')

def pathChar (c : Char) : Bool := c != '#' && c != '?' && !isSpace c

def fragmentChar (c : Char) : Bool :=
  ('A' ≤ c && c ≤ 'Z') || ('a' ≤ c && c ≤ 'z') || c == '_' || c == '-'

def sepChar (c : Char) : Bool := c == '&' || c == ';'

def queryChar (c : Char) : Bool := c != '=' && !sepChar c

def digitChar (c : Char) : Bool := '0' ≤ c && c ≤ '9'

def fragmentPattern : Re Char :=
  .seq (.opt (.group 3 (.seq (.cls (· == '#')) (.many fragmentChar 1 none)))) .eos

def queryPattern : Re Char := .seq (.opt (.group 2 (.manyLazy (fun _ => true)))) fragmentPattern

def pathPattern : Re Char :=
  .opt (.group 1 (.alt .eos (.seq (.cls (· == '/')) (.many pathChar 1 none))))

/-- `^($|/[^#?\s]+)?(.*?)?(#[A-Za-z_\-]+)?$` -/
def targetPattern : Re Char := .seq pathPattern queryPattern

/-- `[&;]?([^=&;]+)=?([^=&;]*)` -/
def targetQueries : Re Char :=
  .seq (.opt (.cls sepChar)) (.seq (.group 1 (.many queryChar 1 none))
    (.seq (.opt (.cls (· == '='))) (.group 2 (.many queryChar 0 none))))

def targetPathParts : Re Char :=
  .seq (.cls (· == '/')) (.group 1 (.many (· != '/') 1 none))

def captured (c : Caps Char) (n : ℕ) : Str := (c.get n).getD []

/-- The keys and the values are views into the url, none of which is null. -/
abbrev Queries := Flatmap Str (Compare.less Str)

structure TargetParser where
  url : Str
  path : Str
  pathParts : List Str
  queries : Queries

namespace TargetParser

/-- `match`, which leaves the path and returns the query with its leading character. -/
def matched (t : TargetParser) : TargetParser × Str :=
  let caps := (fullMatch targetPattern t.url).getD []
  ({ t with path := captured caps 1 }, captured caps 2)

def parseQueries (t : TargetParser) (svQuery : Str) : TargetParser :=
  let parts := (range targetPathParts t.path).map (fun c => captured c 1)
  let svQuery := if svQuery.length > 0 then svQuery.drop 1 else svQuery
  let found := (range targetQueries svQuery).map (fun c => (captured c 1, captured c 2))
  { t with
    pathParts := t.pathParts ++ parts
    queries := found.foldl (fun m e => m.emplace e.1 e.2) Flatmap.empty }

def parse (t : TargetParser) : TargetParser := t.matched.1.parseQueries t.matched.2

def ofUrl (url : Str) : TargetParser := parse ⟨url, [], [], Flatmap.empty⟩

def init : TargetParser := ⟨[], [], [], Flatmap.empty⟩

def setURL (t : TargetParser) (url : Str) : TargetParser := parse { t with url := url }

/-- `operator[]`; a null view where there is no such key. -/
def get (t : TargetParser) (key : Str) : View := t.queries.find key

def getBool (t : TargetParser) (key : Str) : Option Bool :=
  match t.get key with
  | none => none
  | some val =>
    if val = [] then some true
    else if val = lit "1" ∨ val = lit "yes" ∨ val = lit "true" then some true
    else if val = lit "0" ∨ val = lit "no" ∨ val = lit "false" then some false
    else none

end TargetParser

def segments (path : Str) : List Str := (path.splitOn '/').filter (· ≠ [])

theorem consumes_pathParts : consumes targetPathParts = true := rfl

theorem range_pathParts_nil : range targetPathParts [] = [] := rfl

/-- A slash in front of another one, or of nothing, starts no part. -/
theorem first_pathParts_none {xs : Str} (h : ∀ x ∈ xs.head?, x = '/') :
    first targetPathParts ('/' :: xs) [] = none := by
  have hrun : run (.group 1 (.many (· != '/') 1 none)) xs ([] : Caps Char) = [] := by
    rw [run, run_many_one_of_not (fun x hx => by simp [h x hx]) [], List.map_nil]
  have hslash : run (.cls (· == '/')) ('/' :: xs) ([] : Caps Char) = [([], xs)] := rfl
  rw [targetPathParts, first_seq, hslash]
  simp only [List.findSome?_cons, List.findSome?_nil, first, hrun, List.head?_nil]

/-- A part goes up to the next slash. -/
theorem first_pathParts {part rest : Str} (hne : part ≠ []) (hpart : ∀ c ∈ part, c ≠ '/')
    (hrest : ∀ x ∈ rest.head?, x = '/') :
    first targetPathParts ('/' :: (part ++ rest)) [] = some ([(1, part)], rest) := by
  refine first_seq_of_first ((first_cls_cons _ _ _ _).trans (if_pos rfl)) ?_
  exact first_group_append (first_many_append hne (fun c hc => by simpa using hpart c hc)
    (fun x hx => by simp [hrest x hx]) [])

theorem range_pathParts_cons {part rest : Str} (hne : part ≠ []) (hpart : ∀ c ∈ part, c ≠ '/')
    (hrest : ∀ x ∈ rest.head?, x = '/') :
    range targetPathParts ('/' :: (part ++ rest)) =
      [(1, part)] :: range targetPathParts rest :=
  range_of_search consumes_pathParts (search_of_first (first_pathParts hne hpart hrest))

theorem segments_cons_slash (path : Str) : segments ('/' :: path) = segments path := by
  simp [segments, List.splitOn_cons_eq_if_modifyHead]

theorem segments_append {part rest : Str} (hne : part ≠ []) (hpart : ∀ c ∈ part, c ≠ '/') :
    segments (part ++ '/' :: rest) = part :: segments rest := by
  have hslash : '/' ∉ part := fun h => hpart '/' h rfl
  rw [segments, List.splitOn_append_cons_self, List.splitOn_eq_singleton hslash]
  simp [segments, hne]

theorem segments_part {part : Str} (hne : part ≠ []) (hpart : ∀ c ∈ part, c ≠ '/') :
    segments part = [part] := by
  rw [segments, List.splitOn_eq_singleton (fun h => hpart '/' h rfl)]
  simp [hne]

/-- The parts of a path are its non-empty segments. -/
theorem pathParts_eq_segments (path : Str) :
    (range targetPathParts ('/' :: path)).map (fun c => captured c 1) = segments path := by
  induction hn : path.length using Nat.strong_induction_on generalizing path with
  | _ n ih =>
    have hsplit : path = path.takeWhile (· != '/') ++ path.dropWhile (· != '/') :=
      List.takeWhile_append_dropWhile.symm
    have hpart : ∀ c ∈ path.takeWhile (· != '/'), c ≠ '/' := by
      intro c hc
      have himp := List.mem_takeWhile_imp hc
      simpa using himp
    have hrest : ∀ x ∈ (path.dropWhile (· != '/')).head?, x = '/' := by
      intro x hx
      simpa using Fields.head_dropWhile (· != '/') path x hx
    by_cases hne : path.takeWhile (· != '/') = []
    · have hhead : ∀ x ∈ path.head?, x = '/' := by
        rw [hne, List.nil_append] at hsplit
        rwa [← hsplit] at hrest
      have hskip := search_cons_of_first_none (first_pathParts_none hhead)
      cases path with
      | nil => rfl
      | cons x xs =>
        obtain rfl : x = '/' := hhead x rfl
        rw [range_eq _ consumes_pathParts, hskip, ← range_eq _ consumes_pathParts,
          ih xs.length (by simp [← hn]) xs rfl, segments_cons_slash]
    · rw [hsplit, range_pathParts_cons hne hpart hrest]
      cases hr : path.dropWhile (· != '/') with
      | nil => rw [List.append_nil, segments_part hne hpart]; rfl
      | cons x xs =>
        obtain rfl : x = '/' := hrest x (by simp [hr])
        have hlen : xs.length < n := by
          have := congrArg List.length hsplit
          rw [hr, List.length_append, List.length_cons] at this
          omega
        rw [List.map_cons, ih xs.length hlen xs rfl, segments_append hne hpart]
        rfl

/-- Only from a slash on are there parts, whatever is in front of it. -/
theorem pathParts_eq (path : Str) : (range targetPathParts path).map (fun c => captured c 1) =
    segments (path.dropWhile (· != '/')) := by
  induction path with
  | nil => rfl
  | cons x path ih =>
    by_cases hx : x = '/'
    · rw [hx, pathParts_eq_segments, List.dropWhile_cons_of_neg (by decide), segments_cons_slash]
    · have hnone : first targetPathParts (x :: path) [] = none := by
        simp [first, targetPathParts, run, hx]
      have hsearch := search_cons_of_first_none hnone
      rw [range_eq _ consumes_pathParts, hsearch, ← range_eq _ consumes_pathParts, ih,
        List.dropWhile_cons_of_pos (by simpa using hx)]

def pathOf (url : Str) : Str := if url.head? = some '/' then url.takeWhile pathChar else []

theorem first_path {path rest : Str} (hne : path ≠ []) (hpath : ∀ c ∈ path, pathChar c = true)
    (hrest : ∀ x ∈ rest.head?, pathChar x = false) :
    first pathPattern ('/' :: path ++ rest) [] = some ([(1, '/' :: path)], rest) := by
  have hmany : first (.many pathChar 1 none) (path ++ rest) [] = some ([], rest) :=
    first_many_append hne hpath hrest []
  have hseq : first (.seq (.cls (· == '/')) (.many pathChar 1 none)) ('/' :: path ++ rest) [] =
      some ([], rest) := first_seq_of_first ((first_cls_cons _ _ _ _).trans (if_pos rfl)) hmany
  have halt : first (.alt .eos (.seq (.cls (· == '/')) (.many pathChar 1 none)))
      ('/' :: path ++ rest) [] = some ([], rest) := by simpa [first, run] using hseq
  rw [pathPattern, first_opt, first_group_append halt]
  rfl

/-- A slash on its own is not taken for a path. -/
theorem run_path_root {rest : Str} (hrest : ∀ x ∈ rest.head?, pathChar x = false) :
    run pathPattern ('/' :: rest) [] = [([], '/' :: rest)] := by
  have hmany : run (.many pathChar 1 none) rest ([] : Caps Char) = [] :=
    run_many_one_of_not hrest []
  simp only [pathPattern, run] at hmany ⊢
  simp [hmany]

/-- The path is captured, unless it has no segment. -/
theorem first_pathPattern (url : Str) : ∃ c rest, first pathPattern url [] = some (c, rest) ∧
    ((captured c 1 = [] ∧ segments (pathOf url) = []) ∨
      ∃ path, captured c 1 = '/' :: path ∧ pathOf url = '/' :: path) := by
  rcases url with _ | ⟨x, xs⟩
  · exact ⟨_, _, rfl, Or.inl ⟨rfl, rfl⟩⟩
  · by_cases hx : x = '/'
    · subst hx
      have hpath : pathOf ('/' :: xs) = '/' :: xs.takeWhile pathChar := rfl
      have hend := Fields.head_dropWhile pathChar xs
      have hsplit : xs = xs.takeWhile pathChar ++ xs.dropWhile pathChar :=
        List.takeWhile_append_dropWhile.symm
      by_cases hne : xs.takeWhile pathChar = []
      · rw [hne, List.nil_append] at hsplit
        rw [← hsplit] at hend
        refine ⟨[], '/' :: xs, ?_, Or.inl ⟨rfl, ?_⟩⟩
        · rw [first, run_path_root hend]
          rfl
        · rw [hpath, hne]
          rfl
      · have hfirst := first_path hne (fun c hc => List.mem_takeWhile_imp hc) hend
        rw [List.cons_append, ← hsplit] at hfirst
        exact ⟨_, _, hfirst, Or.inr ⟨_, rfl, hpath⟩⟩
    · refine ⟨[], x :: xs, ?_, Or.inl ⟨rfl, ?_⟩⟩
      · simp [first, pathPattern, run, hx]
      · have hpath : pathOf (x :: xs) = [] := by simp [pathOf, hx]
        rw [hpath]
        rfl

theorem targetPattern_ends (xs : Str) (c : Caps Char) :
    ∀ o ∈ run targetPattern xs c, o.2 = [] :=
  run_seq_ends (run_seq_ends (run_seq_ends run_eos_ends)) xs c

/-- The parts of any target are the non-empty segments of its path. -/
theorem pathParts_ofUrl (url : Str) :
    (TargetParser.ofUrl url).pathParts = segments (pathOf url) := by
  obtain ⟨c, rest, hpath, hseg⟩ := first_pathPattern url
  have hquery : (first queryPattern rest c).isSome = true :=
    first_lazy_seq_isSome (fun c => rfl) rest c
  obtain ⟨⟨c', ys⟩, hfirst⟩ := Option.isSome_iff_exists.mp hquery
  have hget : captured c' 1 = captured c 1 :=
    congrArg (fun o => o.getD []) (run_get (n := 1) rfl rest c _ (List.mem_of_mem_head? hfirst))
  have hmatched : (TargetParser.mk url [] [] Flatmap.empty).matched.1.path = captured c' 1 := by
    rw [TargetParser.matched, fullMatch_of_ends (targetPattern_ends url []), targetPattern,
      first_seq_of_first hpath hfirst]
    rfl
  have hparts : (TargetParser.ofUrl url).pathParts =
      (range targetPathParts (captured c' 1)).map (fun c => captured c 1) := by
    rw [← hmatched]
    rfl
  rw [hparts, hget]
  rcases hseg with ⟨hnil, hsegs⟩ | ⟨path, hcap, hpath⟩
  · rw [hnil, hsegs, range_pathParts_nil]
    rfl
  · rw [hcap, hpath, pathParts_eq_segments, segments_cons_slash]

end Virthttp
