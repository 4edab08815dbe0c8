import Virthttp.FlatmapMeaning
import Virthttp.UrlParser

namespace Virthttp

open Backtrack

structure PathSegment where
  text : Str
  nonempty : text ≠ []
  chars : ∀ c ∈ text, c ≠ '/' ∧ pathChar c = true

/-- A character free of `=`, `&`, `;`, `#` and whitespace. -/
def wordChar (c : Char) : Bool := queryChar c && c != '#' && !isSpace c

inductive Separator where
  | ampersand
  | semicolon

def Separator.char : Separator → Char
  | ampersand => '&'
  | semicolon => ';'

/-- A pair with the separator that stands in front of it, unless it is the first one; the equals
sign may be left out in front of an empty value. -/
structure QueryPair where
  sep : Separator
  name : Str
  value : Str
  equals : Bool
  named : name ≠ []
  nameChars : ∀ c ∈ name, wordChar c = true
  valueChars : ∀ c ∈ value, wordChar c = true
  valued : value ≠ [] → equals = true

structure Fragment where
  name : Str
  nonempty : name ≠ []
  chars : ∀ c ∈ name, fragmentChar c = true

def QueryPair.text (p : QueryPair) : Str :=
  p.name ++ (if p.equals then '=' :: p.value else [])

def separated (ps : List QueryPair) : Str := ps.flatMap (fun p => p.sep.char :: p.text)

def joined : List QueryPair → Str
  | [] => []
  | p :: ps => p.text ++ separated ps

def joinedPath (segs : List PathSegment) : Str := List.intercalate ['/'] (segs.map (·.text))

def fragmentText : Option Fragment → Str
  | none => []
  | some f => '#' :: f.name

def targetOf (segs : List PathSegment) (ps : List QueryPair) (f : Option Fragment) : Str :=
  '/' :: (joinedPath segs ++ '?' :: (joined ps ++ fragmentText f))

def firstValue (ps : List QueryPair) (name : Str) : View :=
  (ps.find? (fun p => p.name == name)).map (·.value)

/-- The parser gives back the segments in order and the first value of every name. -/
def GivenBack (segs : List PathSegment) (ps : List QueryPair) (f : Option Fragment) : Prop :=
  (TargetParser.ofUrl (targetOf segs ps f)).pathParts = segs.map (·.text) ∧
    ∀ name, (TargetParser.ofUrl (targetOf segs ps f)).get name = firstValue ps name

theorem queryChar_of_wordChar {c : Char} (h : wordChar c = true) : queryChar c = true := by
  simp only [wordChar, Bool.and_eq_true] at h
  exact h.1.1

theorem not_hash_of_wordChar {c : Char} (h : wordChar c = true) : c ≠ '#' := by
  simp only [wordChar, Bool.and_eq_true, bne_iff_ne] at h
  exact h.1.2

theorem Separator.char_sep (s : Separator) : sepChar s.char = true := by
  cases s <;> rfl

theorem Separator.char_ne_hash (s : Separator) : s.char ≠ '#' := by
  cases s <;> decide

theorem QueryPair.not_hash_mem (p : QueryPair) : ∀ c ∈ p.text, c ≠ '#' := by
  intro c hc
  rcases List.mem_append.mp hc with hc | hc
  · exact not_hash_of_wordChar (p.nameChars c hc)
  · split at hc
    · rcases List.mem_cons.mp hc with rfl | hc
      · decide
      · exact not_hash_of_wordChar (p.valueChars c hc)
    · simp at hc

theorem not_hash_mem_separated (ps : List QueryPair) : ∀ c ∈ separated ps, c ≠ '#' := by
  intro c hc
  obtain ⟨p, _, hc⟩ := List.mem_flatMap.mp hc
  rcases List.mem_cons.mp hc with rfl | hc
  · exact p.sep.char_ne_hash
  · exact p.not_hash_mem c hc

theorem not_hash_mem_joined (ps : List QueryPair) : ∀ c ∈ joined ps, c ≠ '#' := by
  intro c hc
  cases ps with
  | nil => simp [joined] at hc
  | cons p ps =>
    rcases List.mem_append.mp hc with hc | hc
    · exact p.not_hash_mem c hc
    · exact not_hash_mem_separated ps c hc

theorem first_fragment (f : Option Fragment) (c : Caps Char) : ∃ c',
    first fragmentPattern (fragmentText f) c = some (c', []) ∧
      ∀ n, n ≠ 3 → captured c' n = captured c n := by
  cases f with
  | none => exact ⟨c, rfl, fun _ _ => rfl⟩
  | some f =>
    refine ⟨(3, '#' :: f.name) :: c, ?_, fun n hn => ?_⟩
    · have hname : first (.many fragmentChar 1 none) (f.name ++ []) c = some (c, []) :=
        first_many_append f.nonempty f.chars (by simp) c
      have hseq : first (.seq (.cls (· == '#')) (.many fragmentChar 1 none))
          ('#' :: f.name ++ []) c = some (c, []) :=
        first_seq_of_first ((first_cls_cons _ _ _ _).trans (if_pos rfl)) hname
      rw [List.append_nil] at hseq
      have hopt : first (.opt (.group 3 (.seq (.cls (· == '#')) (.many fragmentChar 1 none))))
          (fragmentText (some f)) c = some ((3, '#' :: f.name) :: c, []) := by
        rw [first_opt, fragmentText, first_group_all hseq]
        rfl
      exact first_seq_of_first hopt rfl
    · rw [captured, Caps.get_cons_ne hn.symm, captured]

/-- Only at a number sign or at the end can a fragment start. -/
theorem first_fragment_none {x : Char} (hx : x ≠ '#') (xs : Str) (c : Caps Char) :
    first fragmentPattern (x :: xs) c = none := by
  simp [first, fragmentPattern, run, hx]

theorem first_query {q : Str} (hq : ∀ c ∈ q, c ≠ '#') (f : Option Fragment) (c : Caps Char) :
    ∃ c', first queryPattern (q ++ fragmentText f) c = some (c', []) ∧ captured c' 2 = q ∧
      captured c' 1 = captured c 1 := by
  obtain ⟨c', hf, hc'⟩ := first_fragment f ((2, q) :: c)
  refine ⟨c', first_lazy_seq ?_ hf, ?_, ?_⟩
  · intro x zs hsuf c₁
    exact first_fragment_none (hq x (hsuf.subset List.mem_cons_self)) _ c₁
  · rw [hc' 2 (by decide)]
    rfl
  · rw [hc' 1 (by decide)]
    rfl

theorem joinedPath_chars (segs : List PathSegment) :
    ∀ c ∈ joinedPath segs, pathChar c = true := by
  intro c hc
  induction segs with
  | nil => simp [joinedPath] at hc
  | cons s segs ih =>
    cases segs with
    | nil => exact (s.chars c (by simpa [joinedPath] using hc)).2
    | cons s' segs =>
      simp only [joinedPath, List.map_cons, List.intercalate_cons_cons, List.mem_append] at hc
      rcases hc with (hc | hc) | hc
      · exact (s.chars c hc).2
      · obtain rfl : c = '/' := by simpa using hc
        decide
      · exact ih hc

theorem joinedPath_ne_nil {segs : List PathSegment} (h : segs ≠ []) : joinedPath segs ≠ [] := by
  obtain ⟨s, segs, rfl⟩ := List.exists_cons_of_ne_nil h
  obtain ⟨x, xs, hx⟩ := List.exists_cons_of_ne_nil s.nonempty
  cases segs <;> simp [joinedPath, hx]

/-- The texts captured for the path and for the query. With no segment the query starts at the
slash. -/
theorem matched_targetOf (segs : List PathSegment) (ps : List QueryPair) (f : Option Fragment) :
    let t := (TargetParser.mk (targetOf segs ps f) [] [] Flatmap.empty).matched
    t.1.pathParts = [] ∧
      (segs ≠ [] → t.1.path = '/' :: joinedPath segs ∧ t.2 = '?' :: joined ps) ∧
      (segs = [] → t.1.path = [] ∧ t.2 = '/' :: '?' :: joined ps) := by
  have hfull := fullMatch_of_ends (targetPattern_ends (targetOf segs ps f) [])
  refine ⟨rfl, fun hne => ?_, fun hnil => ?_⟩
  · obtain ⟨c, hq, h2, h1⟩ := first_query (q := '?' :: joined ps)
      (by simpa using not_hash_mem_joined ps) f [(1, '/' :: joinedPath segs)]
    have hpath := @first_path _ ('?' :: (joined ps ++ fragmentText f)) (joinedPath_ne_nil hne)
      (joinedPath_chars segs) (by simp [pathChar])
    have hfirst : first targetPattern (targetOf segs ps f) [] = some (c, []) :=
      first_seq_of_first hpath hq
    rw [TargetParser.matched, hfull, hfirst]
    exact ⟨h1, h2⟩
  · subst hnil
    obtain ⟨c, hq, h2, h1⟩ := first_query (q := '/' :: '?' :: joined ps)
      (by simpa using not_hash_mem_joined ps) f []
    have hfirst : first targetPattern (targetOf [] ps f) [] = some (c, []) := by
      have hroot := @run_path_root ('?' :: (joined ps ++ fragmentText f)) (by simp [pathChar])
      rw [targetPattern, first_seq]
      simp only [targetOf, joinedPath, List.map_nil, List.intercalate_nil, List.nil_append,
        hroot, List.findSome?_cons]
      rw [List.cons_append, List.cons_append] at hq
      rw [hq]
    rw [TargetParser.matched, hfull, hfirst]
    exact ⟨h1, h2⟩

/-- A name and a value as the pattern of a query finds them, with what follows. -/
theorem first_name_value {name value rest : Str} {equals : Bool} (hne : name ≠ [])
    (hname : ∀ c ∈ name, queryChar c = true) (hvalue : ∀ c ∈ value, queryChar c = true)
    (heq : value ≠ [] → equals = true) (hstop : ∀ x ∈ rest.head?, queryChar x = false)
    (hbare : equals = false → ∀ x ∈ rest.head?, x ≠ '=') (c : Caps Char) :
    first (.seq (.group 1 (.many queryChar 1 none)) (.seq (.opt (.cls (· == '=')))
        (.group 2 (.many queryChar 0 none))))
      (name ++ ((if equals then '=' :: value else []) ++ rest)) c =
      some ((2, value) :: (1, name) :: c, rest) := by
  cases equals with
  | true =>
    have hequals : ∀ x ∈ ('=' :: (value ++ rest)).head?, queryChar x = false := by
      simp [queryChar]
    have h1 := first_group_append (n := 1) (first_many_append hne hname hequals c)
    have h2 := first_group_append (n := 2) (first_many_zero_append hvalue hstop ((1, name) :: c))
    exact first_seq_of_first h1 (first_seq_of_first rfl h2)
  | false =>
    obtain rfl : value = [] := by
      by_contra hv
      exact absurd (heq hv) (by simp)
    have h1 := first_group_append (n := 1) (first_many_append hne hname hstop c)
    have hnone : first (.many queryChar 0 none) ([] ++ rest) ((1, name) :: c) =
        some ((1, name) :: c, rest) := first_many_zero_append hvalue hstop _
    have h2 := first_group_append (n := 2) hnone
    have hopt : first (.opt (.cls (· == '='))) rest ((1, name) :: c) =
        some ((1, name) :: c, rest) := by
      cases rest with
      | nil => rfl
      | cons x rest =>
        have hx : (x == '=') = false := by simpa using hbare rfl x rfl
        simp [first_opt, first_cls_cons, hx]
    exact first_seq_of_first h1 (first_seq_of_first hopt h2)

/-- The first search finds the first pair, with or without a separator in front of it. -/
theorem range_pair {name value rest : Str} {equals : Bool} (hne : name ≠ [])
    (hname : ∀ c ∈ name, queryChar c = true) (hvalue : ∀ c ∈ value, queryChar c = true)
    (heq : value ≠ [] → equals = true) (hstop : ∀ x ∈ rest.head?, queryChar x = false)
    (hbare : equals = false → ∀ x ∈ rest.head?, x ≠ '=') :
    let text := name ++ ((if equals then '=' :: value else []) ++ rest)
    range targetQueries text = [(2, value), (1, name)] :: range targetQueries rest ∧
      ∀ s : Separator, range targetQueries (s.char :: text) =
        [(2, value), (1, name)] :: range targetQueries rest := by
  intro text
  have hmatch := first_name_value hne hname hvalue heq hstop hbare []
  constructor
  · have hopt : first (.opt (.cls sepChar)) text [] = some ([], text) := by
      obtain ⟨x, xs, rfl⟩ := List.exists_cons_of_ne_nil hne
      have hx : sepChar x = false := by
        have := hname x List.mem_cons_self
        simp only [queryChar, Bool.and_eq_true, Bool.not_eq_true'] at this
        exact this.2
      simp [text, first_opt, first_cls_cons, hx]
    exact range_of_search rfl (search_of_first (first_seq_of_first hopt hmatch))
  · intro s
    have hopt : first (.opt (.cls sepChar)) (s.char :: text) [] = some ([], text) := by
      simp [first_opt, first_cls_cons, s.char_sep]
    exact range_of_search rfl (search_of_first (first_seq_of_first hopt hmatch))

theorem separated_head (ps : List QueryPair) :
    (∀ x ∈ (separated ps).head?, queryChar x = false) ∧
      ∀ x ∈ (separated ps).head?, x ≠ '=' := by
  have hsep (x : Char) (hx : x ∈ (separated ps).head?) : sepChar x = true := by
    cases ps with
    | nil => simp [separated] at hx
    | cons p ps =>
      obtain rfl : p.sep.char = x := by simpa [separated] using hx
      exact p.sep.char_sep
  constructor
  · intro x hx
    simp [queryChar, hsep x hx]
  · intro x hx heq
    rw [heq] at hx
    exact absurd (hsep _ hx) (by decide)

def found (c : Caps Char) : Str × Str := (captured c 1, captured c 2)

theorem range_separated (ps : List QueryPair) :
    (range targetQueries (separated ps)).map found = ps.map (fun p => (p.name, p.value)) := by
  induction ps with
  | nil => rfl
  | cons p ps ih =>
    have h := (range_pair p.named (fun c hc => queryChar_of_wordChar (p.nameChars c hc))
      (fun c hc => queryChar_of_wordChar (p.valueChars c hc)) p.valued (separated_head ps).1
      (fun _ => (separated_head ps).2)).2 p.sep
    have hsplit : separated (p :: ps) = p.sep.char ::
        (p.name ++ ((if p.equals then '=' :: p.value else []) ++ separated ps)) := by
      simp [separated, QueryPair.text]
    rw [hsplit, h, List.map_cons, List.map_cons, ih]
    rfl

/-- The queries of a text that starts with a name, which need not be a word. -/
theorem range_first {start : Str} (hstart : ∀ c ∈ start, queryChar c = true) (p : QueryPair)
    (ps : List QueryPair) :
    (range targetQueries (start ++ joined (p :: ps))).map found =
      (start ++ p.name, p.value) :: ps.map (fun p => (p.name, p.value)) := by
  have hname : ∀ c ∈ start ++ p.name, queryChar c = true := fun c hc =>
    (List.mem_append.mp hc).elim (hstart c) fun hc => queryChar_of_wordChar (p.nameChars c hc)
  have h := (range_pair (by simp [p.named]) hname
    (fun c hc => queryChar_of_wordChar (p.valueChars c hc)) p.valued (separated_head ps).1
    (fun _ => (separated_head ps).2)).1
  have hsplit : start ++ joined (p :: ps) = start ++ p.name ++
      ((if p.equals then '=' :: p.value else []) ++ separated ps) := by
    simp [joined, QueryPair.text]
  rw [hsplit, h, List.map_cons, range_separated]
  rfl

theorem find_queries (es : List (Str × Str)) (name : Str) :
    (es.foldl (fun (m : Queries) e => m.emplace e.1 e.2) Flatmap.empty).find name =
      (es.find? (fun e => e.1 == name)).map Prod.snd := by
  refine FlatmapStorage.find_foldl_emplace (fun e => ?_) es
  rw [Compare.equiv_less, beq_iff_eq]

theorem firstValue_eq (ps : List QueryPair) (name : Str) :
    firstValue ps name =
      ((ps.map (fun p => (p.name, p.value))).find? (fun e => e.1 == name)).map Prod.snd := by
  rw [firstValue, List.find?_map, Option.map_map]
  rfl

theorem parts_joinedPath {segs : List PathSegment} (hne : segs ≠ []) :
    (range targetPathParts ('/' :: joinedPath segs)).map (fun c => captured c 1) =
      segs.map (·.text) := by
  rw [pathParts_eq_segments, segments, joinedPath, List.splitOn_intercalate]
  · rw [List.filter_eq_self]
    intro text htext
    obtain ⟨s, _, rfl⟩ := List.mem_map.mp htext
    simpa using s.nonempty
  · intro text htext hslash
    obtain ⟨s, _, rfl⟩ := List.mem_map.mp htext
    exact (s.chars '/' hslash).1 rfl
  · simpa using hne

/-- What the parser gives back, by the text that it takes the queries from. -/
theorem ofUrl_targetOf (segs : List PathSegment) (ps : List QueryPair) (f : Option Fragment) :
    let t := TargetParser.ofUrl (targetOf segs ps f)
    t.pathParts = segs.map (·.text) ∧ ∀ name, t.get name =
      (((range targetQueries ((if segs = [] then ['?'] else []) ++ joined ps)).map found).find?
        (fun e => e.1 == name)).map Prod.snd := by
  obtain ⟨hparts, hsome, hnone⟩ := matched_targetOf segs ps f
  by_cases hsegs : segs = []
  · obtain ⟨hpath, hquery⟩ := hnone hsegs
    constructor
    · simp only [TargetParser.ofUrl, TargetParser.parse, TargetParser.parseQueries, hpath, hparts,
        range_pathParts_nil]
      rw [hsegs]
      rfl
    · intro name
      simp only [TargetParser.ofUrl, TargetParser.parse, TargetParser.parseQueries, hquery,
        TargetParser.get, if_pos hsegs, List.length_cons, gt_iff_lt, Nat.succ_pos, if_true]
      exact find_queries _ name
  · obtain ⟨hpath, hquery⟩ := hsome hsegs
    constructor
    · simp only [TargetParser.ofUrl, TargetParser.parse, TargetParser.parseQueries, hpath, hparts,
        parts_joinedPath hsegs, List.nil_append]
    · intro name
      simp only [TargetParser.ofUrl, TargetParser.parse, TargetParser.parseQueries, hquery,
        TargetParser.get, if_neg hsegs, List.length_cons, gt_iff_lt, Nat.succ_pos, if_true]
      exact find_queries _ name

/-- The name and the value of the first pair are those of a later pair, and so are the same
value and the name with a question mark in front. -/
def FirstRepeated : List QueryPair → Prop
  | [] => False
  | p :: ps => firstValue ps p.name = some p.value ∧ firstValue ps ('?' :: p.name) = some p.value

theorem find_name_cons (n v : Str) (es : List (Str × Str)) (name : Str) :
    (((n, v) :: es).find? (fun e => e.1 == name)).map Prod.snd =
      if n = name then some v else (es.find? (fun e => e.1 == name)).map Prod.snd := by
  by_cases h : n = name
  · simp [h]
  · rw [List.find?_cons_of_neg (by simpa using h), if_neg h]

/-- A target is given back except where it has no path segment: there the question mark is
taken for a part of the first name. -/
theorem givenBack_iff (segs : List PathSegment) (ps : List QueryPair) (f : Option Fragment) :
    GivenBack segs ps f ↔ segs ≠ [] ∨ FirstRepeated ps := by
  obtain ⟨hparts, hget⟩ := ofUrl_targetOf segs ps f
  have hiff : GivenBack segs ps f ↔ ∀ name, (((range targetQueries
      ((if segs = [] then ['?'] else []) ++ joined ps)).map found).find?
        (fun e => e.1 == name)).map Prod.snd = firstValue ps name := by
    simp only [GivenBack, hparts, hget, true_and]
  rw [hiff]
  by_cases hsegs : segs = []
  · simp only [hsegs, if_true, ne_eq, not_true_eq_false, false_or]
    cases ps with
    | nil =>
      refine iff_of_false (fun h => ?_) not_false
      have := h ['?']
      revert this
      decide
    | cons p ps =>
      rw [range_first (by simp [queryChar, sepChar])]
      simp only [firstValue_eq, List.map_cons, List.singleton_append, find_name_cons, FirstRepeated]
      constructor
      · intro h
        have h1 := h p.name
        have h2 := h ('?' :: p.name)
        rw [if_neg (List.cons_ne_self '?' p.name), if_pos rfl] at h1
        rw [if_pos rfl, if_neg (List.cons_ne_self '?' p.name).symm] at h2
        exact ⟨h1, h2.symm⟩
      · rintro ⟨h1, h2⟩ name
        by_cases hq : '?' :: p.name = name
        · rw [if_pos hq, ← hq, if_neg (List.cons_ne_self '?' p.name).symm, h2]
        · rw [if_neg hq]
          by_cases hn : p.name = name
          · rw [if_pos hn, ← hn, h1]
          · rw [if_neg hn]
  · refine iff_of_true (fun name => ?_) (Or.inl hsegs)
    rw [if_neg hsegs, firstValue_eq]
    cases ps with
    | nil => rfl
    | cons p ps =>
      rw [range_first (by simp)]
      rfl

/-- The target `/?a=1` -/
theorem root_query_not_givenBack : ¬GivenBack [] [⟨.ampersand, ['a'], ['1'], true, by simp,
    List.all_eq_true.mp rfl, List.all_eq_true.mp rfl, by simp⟩] none := by
  rintro ⟨_, hget⟩
  have := hget ['a']
  revert this
  decide

end Virthttp
