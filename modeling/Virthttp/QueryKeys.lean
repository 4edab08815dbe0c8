import Virthttp.UrlRoundTrip

namespace Virthttp

open Backtrack

def components (q : Str) : List Str := q.splitOnP sepChar

/-- What is found in the texts between the equals signs of a component: a text that is not empty is
a name, and the next one is its value. -/
def tokenPairs : List Str → List (Str × Str)
  | [] => []
  | [t] => if t = [] then [] else [(t, [])]
  | t :: v :: ts => if t = [] then tokenPairs (v :: ts) else (t, v) :: tokenPairs ts

def componentPairs (comp : Str) : List (Str × Str) := tokenPairs (comp.splitOn '=')

def queryPairs (q : Str) : List (Str × Str) := (components q).flatMap componentPairs

theorem tokenPairs_nil_cons (ts : List Str) : tokenPairs ([] :: ts) = tokenPairs ts := by
  cases ts <;> simp [tokenPairs]

theorem tokenPairs_cons_cons {t : Str} (ht : t ≠ []) (v : Str) (ts : List Str) :
    tokenPairs (t :: v :: ts) = (t, v) :: tokenPairs ts := by
  simp [tokenPairs, ht]

def nameValuePattern : Re Char :=
  .seq (.group 1 (.many queryChar 1 none)) (.seq (.opt (.cls (· == '=')))
    (.group 2 (.many queryChar 0 none)))

theorem targetQueries_eq : targetQueries = .seq (.opt (.cls sepChar)) nameValuePattern := rfl

theorem first_nameValue_none {xs : Str} (hxs : ∀ x ∈ xs.head?, queryChar x = false)
    (c : Caps Char) : first nameValuePattern xs c = none := by
  have hmany : run (.group 1 (.many queryChar 1 none)) xs c = [] := by
    rw [run, run_many_one_of_not hxs, List.map_nil]
  rw [nameValuePattern, first_seq, hmany]
  rfl

/-- No query starts with an equals sign, or with a separator that has no name behind it. -/
theorem range_skip {x : Char} (hx : queryChar x = false) (xs : Str) :
    range targetQueries (x :: xs) = range targetQueries xs := by
  have hnone : first nameValuePattern (x :: xs) [] = none :=
    first_nameValue_none (by simpa using hx) []
  have hsearch : search targetQueries (x :: xs) = search targetQueries xs := by
    cases hs : sepChar x with
    | false =>
      have hfirst : first targetQueries (x :: xs) [] = none := by
        rw [targetQueries_eq, first_opt_cls_seq, hs, hnone]
        rfl
      exact search_cons_of_first_none hfirst
    | true =>
      have hfirst : first targetQueries (x :: xs) [] = first nameValuePattern xs [] := by
        rw [targetQueries_eq, first_opt_cls_seq, hs, hnone]
        exact Option.or_none
      rw [search, hfirst]
      cases xs with
      | nil => rfl
      | cons y ys =>
        cases hy : queryChar y with
        | false =>
          rw [first_nameValue_none (by simpa using hy)]
          rfl
        | true =>
          have hsep : sepChar y = false := by
            simp only [queryChar, Bool.and_eq_true, Bool.not_eq_true'] at hy
            exact hy.2
          have hsame : first targetQueries (y :: ys) [] = first nameValuePattern (y :: ys) [] := by
            rw [targetQueries_eq, first_opt_cls_seq, hsep]
            rfl
          rw [search, hsame, ← Option.or_assoc, Option.or_self]
  rw [range_eq _ rfl, range_eq _ rfl, hsearch]

theorem queryChar_of_field {t : Str} (hsep : ∀ c ∈ t, sepChar c = false)
    (hequals : ∀ c ∈ t, (c == '=') = false) : ∀ c ∈ t, queryChar c = true := by
  intro c hc
  simp [queryChar, hsep c hc, bne, hequals c hc]

theorem range_bare {name rest : Str} (hne : name ≠ []) (hname : ∀ c ∈ name, queryChar c = true)
    (hstop : ∀ x ∈ rest.head?, queryChar x = false) (hbare : ∀ x ∈ rest.head?, x ≠ '=') :
    (range targetQueries (name ++ rest)).map found =
      (name, []) :: (range targetQueries rest).map found := by
  have hpair := (@range_pair name [] rest false hne hname (by simp) (by simp) hstop
    (fun _ => hbare)).1
  simp only [Bool.false_eq_true, if_false, List.nil_append] at hpair
  rw [hpair]
  rfl

theorem range_valued {name value rest : Str} (hne : name ≠ [])
    (hname : ∀ c ∈ name, queryChar c = true) (hvalue : ∀ c ∈ value, queryChar c = true)
    (hstop : ∀ x ∈ rest.head?, queryChar x = false) :
    (range targetQueries (name ++ '=' :: (value ++ rest))).map found =
      (name, value) :: (range targetQueries rest).map found := by
  have hpair := (@range_pair name value rest true hne hname hvalue (by simp) hstop (by simp)).1
  simp only [if_true, List.cons_append] at hpair
  rw [hpair]
  rfl

/-- The searches through a component, and through what has a name and an equals sign in front of
it. -/
theorem range_component {comp rest : Str} (hcomp : ∀ c ∈ comp, sepChar c = false)
    (hrest : ∀ x ∈ rest.head?, sepChar x = true) :
    (range targetQueries (comp ++ rest)).map found =
        componentPairs comp ++ (range targetQueries rest).map found ∧
      ∀ name, name ≠ [] → (∀ c ∈ name, queryChar c = true) →
        (range targetQueries (name ++ '=' :: (comp ++ rest))).map found =
          tokenPairs (name :: comp.splitOn '=') ++ (range targetQueries rest).map found := by
  have hstop : ∀ x ∈ rest.head?, queryChar x = false := by
    intro x hx
    simp [queryChar, hrest x hx]
  have hbare : ∀ x ∈ rest.head?, x ≠ '=' := by
    intro x hx heq
    have hsep := hrest x hx
    rw [heq] at hsep
    exact absurd hsep (by decide)
  unfold componentPairs
  induction comp using Fields.fields_induction (p := (· == '=')) with
  | last f hf =>
    have hquery := queryChar_of_field hcomp hf
    have hsplit : f.splitOn '=' = [f] := List.splitOn_eq_singleton_of_beq_eq_false hf
    rw [hsplit]
    constructor
    · by_cases hne : f = []
      · rw [hne]
        rfl
      · rw [range_bare hne hquery hstop hbare]
        simp [tokenPairs, hne]
    · intro name hne hname
      rw [range_valued hne hname hquery hstop, tokenPairs_cons_cons hne]
      rfl
  | step f s tail hf hs ih =>
    obtain rfl : s = '=' := by simpa using hs
    obtain ⟨ihtail, ihname⟩ := ih fun c hc => hcomp c (by simp [hc])
    have hquery := queryChar_of_field (fun c hc => hcomp c (by simp [hc])) hf
    have hsplit : (f ++ '=' :: tail).splitOn '=' = f :: tail.splitOn '=' :=
      List.splitOn_append_cons_of_forall_mem_beq_eq_false hf '=' rfl tail
    have htail : (range targetQueries ('=' :: (tail ++ rest))).map found =
        tokenPairs (tail.splitOn '=') ++ (range targetQueries rest).map found := by
      rw [range_skip (by decide), ihtail]
    rw [hsplit, List.append_assoc, List.cons_append]
    constructor
    · by_cases hne : f = []
      · rw [hne, List.nil_append, htail, tokenPairs_nil_cons]
      · exact ihname f hne hquery
    · intro name hne hname
      rw [range_valued hne hname hquery (by simp [queryChar]), htail, tokenPairs_cons_cons hne]
      rfl

/-- What the searches through any text find. -/
theorem range_queries (q : Str) : (range targetQueries q).map found = queryPairs q := by
  induction q using Fields.fields_induction (p := sepChar) with
  | last comp hcomp =>
    have hscan := (@range_component comp [] hcomp (by simp)).1
    have hsplit : components comp = [comp] := List.splitOnP_eq_singleton hcomp
    rw [List.append_nil] at hscan
    rw [hscan, queryPairs, hsplit]
    simp [range, rangeFuel]
  | step comp s tail hcomp hs ih =>
    have hscan := (@range_component comp (s :: tail) hcomp (by simpa using hs)).1
    have hsplit : components (comp ++ s :: tail) = comp :: components tail :=
      List.splitOnP_append_cons_of_forall_mem hcomp s hs tail
    have hskip : range targetQueries (s :: tail) = range targetQueries tail :=
      range_skip (by simp [queryChar, hs]) tail
    rw [hscan, hskip, ih, queryPairs, queryPairs, hsplit, List.flatMap_cons]

def isFragment : Str → Bool
  | [] => false
  | x :: name => x == '#' && name.all fragmentChar && !name.isEmpty

def beforeFragment : Str → Str := Fields.upTo isFragment

/-- What is behind the path. A slash on its own is not taken for a path. -/
def behindPath (url : Str) : Str :=
  if 2 ≤ (pathOf url).length then url.dropWhile pathChar else url

def queryText (url : Str) : Str := (beforeFragment (behindPath url)).drop 1

theorem first_fragment_isFragment {x : Char} {xs : Str} (h : isFragment (x :: xs) = false)
    (c : Caps Char) : first fragmentPattern (x :: xs) c = none := by
  by_cases hx : x = '#'
  · subst hx
    have hmany : [] ∉ greedyRests fragmentChar 1 none xs := by
      rw [nil_mem_greedyRests]
      intro hall
      obtain ⟨hchars, hlen, -⟩ := hall
      have hne : xs ≠ [] := List.ne_nil_of_length_pos hlen
      simp [isFragment, hne] at h
      obtain ⟨y, hy, hfalse⟩ := h
      simp [hchars y hy] at hfalse
    have hrun : run fragmentPattern ('#' :: xs) c = [] := by
      have hends : ∀ ys ∈ greedyRests fragmentChar 1 none xs, ys ≠ [] := by
        intro ys hys hnil
        exact hmany (hnil ▸ hys)
      simpa [fragmentPattern, run, List.flatMap_eq_nil_iff] using hends
    rw [first, hrun]
    rfl
  · exact first_fragment_none hx xs c

theorem isFragment_text {xs : Str} (h : xs = [] ∨ isFragment xs = true) :
    ∃ f : Option Fragment, xs = fragmentText f := by
  rcases h with rfl | h
  · exact ⟨none, rfl⟩
  · cases xs with
    | nil => cases h
    | cons x name =>
      simp only [isFragment, Bool.and_eq_true, beq_iff_eq, Bool.not_eq_true',
        List.isEmpty_eq_false_iff, List.all_eq_true] at h
      obtain ⟨⟨rfl, hchars⟩, hne⟩ := h
      exact ⟨some ⟨name, hne, hchars⟩, rfl⟩

/-- The query goes up to the fragment, whatever it contains. -/
theorem first_queryPattern (xs : Str) (c : Caps Char) :
    ∃ c', first queryPattern xs c = some (c', []) ∧ captured c' 2 = beforeFragment xs ∧
      captured c' 1 = captured c 1 := by
  obtain ⟨f, hf⟩ := isFragment_text (@Fields.fromOn_cases _ isFragment xs)
  obtain ⟨c', hfirst, hc'⟩ := first_fragment f ((2, beforeFragment xs) :: c)
  refine ⟨c', ?_, ?_, ?_⟩
  · rw [← hf] at hfirst
    have hlazy := first_lazy_seq (fun y ys hsuf c₁ => first_fragment_isFragment
      (Fields.not_of_suffix_upTo hsuf) c₁) hfirst
    rwa [Fields.upTo_append_fromOn] at hlazy
  · rw [hc' 2 (by decide)]
    rfl
  · rw [hc' 1 (by decide)]
    rfl

def keptPath (url : Str) : Str := if 2 ≤ (pathOf url).length then pathOf url else []

theorem first_pathPattern_behind (url : Str) : ∃ c,
    first pathPattern url [] = some (c, behindPath url) ∧ captured c 1 = keptPath url := by
  unfold behindPath keptPath
  rcases url with _ | ⟨x, xs⟩
  · exact ⟨_, rfl, rfl⟩
  · by_cases hx : x = '/'
    · subst hx
      have hpath : pathOf ('/' :: xs) = '/' :: xs.takeWhile pathChar := rfl
      have hdrop : ('/' :: xs).dropWhile pathChar = xs.dropWhile pathChar := rfl
      have hend := Fields.head_dropWhile pathChar xs
      have hsplit : xs.takeWhile pathChar ++ xs.dropWhile pathChar = xs :=
        List.takeWhile_append_dropWhile
      rw [hpath, hdrop, List.length_cons]
      by_cases hne : xs.takeWhile pathChar = []
      · rw [hne, List.nil_append] at hsplit
        rw [hsplit] at hend
        have hroot : first pathPattern ('/' :: xs) [] = some ([], '/' :: xs) := by
          rw [first, run_path_root hend]
          rfl
        exact ⟨[], by simpa [hne] using hroot, by simp [hne, captured, Caps.get]⟩
      · have hlen : 2 ≤ (xs.takeWhile pathChar).length+1 := by
          have := List.length_pos_iff.mpr hne
          omega
        have hfirst := first_path hne (fun c hc => List.mem_takeWhile_imp hc) hend
        rw [List.cons_append, hsplit] at hfirst
        rw [if_pos hlen, if_pos hlen]
        exact ⟨_, hfirst, rfl⟩
    · have hpath : pathOf (x :: xs) = [] := by simp [pathOf, hx]
      rw [hpath]
      refine ⟨[], ?_, rfl⟩
      simp [first, pathPattern, run, hx]

/-- What is matched of any url, by any parser. -/
theorem matched_eq (t : TargetParser) :
    t.matched = ({ t with path := keptPath t.url }, beforeFragment (behindPath t.url)) := by
  obtain ⟨c, hpath, hcap⟩ := first_pathPattern_behind t.url
  obtain ⟨c', hquery, h2, h1⟩ := first_queryPattern (behindPath t.url) c
  rw [TargetParser.matched, fullMatch_of_ends (targetPattern_ends t.url []), targetPattern,
    first_seq_of_first hpath hquery]
  simp only [Option.map_some, Option.getD_some, h1, h2, hcap]

def queriesOf (q : Str) : Queries :=
  (queryPairs q).foldl (fun m e => m.emplace e.1 e.2) Flatmap.empty

/-- What `parse_queries` makes of a path and a query. -/
theorem parseQueries_eq (t : TargetParser) (svQuery : Str) : t.parseQueries svQuery =
    { t with
      pathParts := t.pathParts ++ segments (t.path.dropWhile (· != '/'))
      queries := queriesOf (svQuery.drop 1) } := by
  have hstrip : (if svQuery.length > 0 then svQuery.drop 1 else svQuery) = svQuery.drop 1 := by
    cases svQuery <;> simp
  rw [TargetParser.parseQueries, hstrip, pathParts_eq, queriesOf, ← range_queries]
  rfl

/-- The path that is kept starts with a slash, if there is one. -/
theorem keptPath_dropWhile (url : Str) : (keptPath url).dropWhile (· != '/') = keptPath url := by
  unfold keptPath
  split
  · cases url with
    | nil => rfl
    | cons x xs =>
      by_cases hx : x = '/'
      · have hpath : pathOf (x :: xs) = '/' :: xs.takeWhile pathChar := by
          rw [hx]
          rfl
        rw [hpath]
        rfl
      · have hpath : pathOf (x :: xs) = [] := by simp [pathOf, hx]
        rw [hpath]
        rfl
  · rfl

theorem parse_eq (t : TargetParser) : t.parse =
    { t with
      path := keptPath t.url
      pathParts := t.pathParts ++ segments (keptPath t.url)
      queries := queriesOf (queryText t.url) } := by
  rw [TargetParser.parse, parseQueries_eq, matched_eq]
  simp only [keptPath_dropWhile]
  rfl

theorem get_ofUrl (url name : Str) : (TargetParser.ofUrl url).get name =
    ((queryPairs (queryText url)).find? (fun e => e.1 == name)).map Prod.snd := by
  rw [TargetParser.ofUrl, parse_eq]
  exact find_queries _ name

def queryKeys (url : Str) : List Str := (TargetParser.ofUrl url).queries.values.map Prod.fst

theorem mem_queryKeys {url key : Str} :
    key ∈ queryKeys url ↔ key ∈ (queryPairs (queryText url)).map Prod.fst := by
  have hget := get_ofUrl url key
  rw [TargetParser.get, Flatmap.find, Flatmap.findKey_eq] at hget
  have hsome := congrArg Option.isSome hget
  rw [Option.isSome_map, Option.isSome_map, Bool.eq_iff_iff, List.find?_isSome,
    List.find?_isSome] at hsome
  simp only [Compare.equiv_less, beq_iff_eq] at hsome
  simpa only [queryKeys, List.mem_map] using hsome

def nameOf (comp : Str) : Str := comp.takeWhile (· != '=')

def NamedIn (q key : Str) : Prop := key ≠ [] ∧ ∃ comp ∈ components q, nameOf comp = key

/-- The keys that are made of the url are all names of components of the query `q`. -/
def KeysNamed (url q : Str) : Prop := ∀ key ∈ queryKeys url, NamedIn q key

def strayNames (comp : Str) : List Str :=
  match comp.splitOn '=' with
  | [] => []
  | t :: ts => (tokenPairs (if t = [] then ts else ts.drop 1)).map Prod.fst

/-- The query as a client means it: what is behind the first question mark. -/
def clientQuery (url : Str) : Str := beforeFragment ((url.dropWhile (· != '?')).drop 1)

theorem splitOn_eq_nameOf (comp : Str) : ∃ ts, comp.splitOn '=' = nameOf comp :: ts := by
  unfold nameOf
  induction comp using Fields.fields_induction (p := (· == '=')) with
  | last f hf =>
    have hall : f.takeWhile (· != '=') = f := by
      rw [List.takeWhile_eq_self_iff]
      intro c hc
      simp [bne, hf c hc]
    exact ⟨[], by rw [hall, List.splitOn_eq_singleton_of_beq_eq_false hf]⟩
  | step f s tail hf hs _ =>
    obtain rfl : s = '=' := by simpa using hs
    have hfield : (f ++ '=' :: tail).takeWhile (· != '=') = f := by
      rw [List.takeWhile_append_of_pos (fun c hc => by simp [bne, hf c hc])]
      simp
    refine ⟨tail.splitOn '=', ?_⟩
    rw [hfield, List.splitOn_append_cons_of_forall_mem_beq_eq_false hf '=' rfl]

/-- A component gives its name, if it has one, and its stray names. -/
theorem componentPairs_names (comp : Str) : (componentPairs comp).map Prod.fst =
    (if nameOf comp = [] then [] else [nameOf comp]) ++ strayNames comp := by
  obtain ⟨ts, hsplit⟩ := splitOn_eq_nameOf comp
  unfold componentPairs strayNames
  rw [hsplit]
  by_cases hname : nameOf comp = []
  · simp [hname, tokenPairs_nil_cons]
  · cases ts with
    | nil => simp [tokenPairs, hname]
    | cons v ts => simp [tokenPairs, hname]

theorem mem_queryKeys_iff {url key : Str} : key ∈ queryKeys url ↔
    ∃ comp ∈ components (queryText url),
      (key ≠ [] ∧ nameOf comp = key) ∨ key ∈ strayNames comp := by
  rw [mem_queryKeys, queryPairs, List.map_flatMap, List.mem_flatMap]
  simp only [componentPairs_names, List.mem_append]
  refine exists_congr fun comp => and_congr_right fun _ => or_congr_left ?_
  split
  · rename_i hname
    simp [hname, eq_comm]
  · rename_i hname
    rw [List.mem_singleton]
    constructor
    · intro hkey
      exact ⟨hkey ▸ hname, hkey.symm⟩
    · exact fun hkey => hkey.2.symm

def WellPlaced (url : Str) : Prop :=
  2 ≤ (pathOf url).length ∧ (behindPath url).head? = some '?'

theorem clientQuery_eq {url : Str} (h : WellPlaced url) : clientQuery url = queryText url := by
  obtain ⟨hlen, hhead⟩ := h
  obtain ⟨q, hq⟩ := List.head?_eq_some_iff.mp hhead
  have hbehind : url.dropWhile pathChar = '?' :: q := by
    rw [← hq, behindPath, if_pos hlen]
  have hpath : ∀ c ∈ url.takeWhile pathChar, (c != '?') = true := by
    intro c hc
    have hchar := List.mem_takeWhile_imp hc
    simp only [pathChar, Bool.and_eq_true] at hchar
    exact hchar.1.2
  have hmark : url.dropWhile (· != '?') = '?' :: q := by
    have hsplit : url = url.takeWhile pathChar ++ '?' :: q := by
      rw [← hbehind, List.takeWhile_append_dropWhile]
    rw [hsplit, List.dropWhile_append_of_pos hpath]
    rfl
  rw [clientQuery, queryText, hmark, hq]
  rfl

/-- The keys are the names of components wherever the stray names are. Where the query does not
directly follow the path, the components are not those that the client has written. -/
theorem query_keys_named_iff (url : Str) :
    (KeysNamed url (queryText url) ↔ ∀ comp ∈ components (queryText url),
      ∀ name ∈ strayNames comp, NamedIn (queryText url) name) ∧
    (KeysNamed url (clientQuery url) ↔ ∀ comp ∈ components (queryText url),
      (nameOf comp ≠ [] → NamedIn (clientQuery url) (nameOf comp)) ∧
        ∀ name ∈ strayNames comp, NamedIn (clientQuery url) name) ∧
    (WellPlaced url → clientQuery url = queryText url) := by
  have hall (q : Str) : KeysNamed url q ↔ ∀ comp ∈ components (queryText url),
      (nameOf comp ≠ [] → NamedIn q (nameOf comp)) ∧ ∀ name ∈ strayNames comp, NamedIn q name := by
    unfold KeysNamed
    simp only [mem_queryKeys_iff]
    constructor
    · intro hkeys comp hcomp
      exact ⟨fun hname => hkeys _ ⟨comp, hcomp, Or.inl ⟨hname, rfl⟩⟩,
        fun name hname => hkeys name ⟨comp, hcomp, Or.inr hname⟩⟩
    · intro hcomps key hkey
      obtain ⟨comp, hcomp, ⟨hne, rfl⟩ | hstray⟩ := hkey
      · exact (hcomps comp hcomp).1 hne
      · exact (hcomps comp hcomp).2 key hstray
  refine ⟨?_, hall _, clientQuery_eq⟩
  rw [hall]
  constructor
  · exact fun h comp hcomp => (h comp hcomp).2
  · exact fun h comp hcomp => ⟨fun hname => ⟨hname, comp, hcomp, rfl⟩, h comp hcomp⟩

/-- `/x?a=b=active` -/
theorem stray_value_switches_on :
    let url := lit "/x?a=b=active"
    ¬KeysNamed url (queryText url) ∧ ¬KeysNamed url (clientQuery url) ∧
      (TargetParser.ofUrl url).getBool (lit "active") = some true := by
  intro url
  have hquery : queryText url = lit "a=b=active" := by decide
  have hclient : clientQuery url = lit "a=b=active" := by decide
  have hkey : lit "active" ∈ queryKeys url := by
    rw [mem_queryKeys, hquery]
    decide
  have hno : ¬NamedIn (lit "a=b=active") (lit "active") := by
    intro h
    obtain ⟨-, comp, hcomp, hname⟩ := h
    have hcomps : components (lit "a=b=active") = [lit "a=b=active"] := by decide
    rw [hcomps, List.mem_singleton] at hcomp
    rw [hcomp] at hname
    exact absurd hname (by decide)
  refine ⟨?_, ?_, ?_⟩
  · rw [hquery]
    exact fun h => hno (h _ hkey)
  · rw [hclient]
    exact fun h => hno (h _ hkey)
  · rw [TargetParser.getBool, get_ofUrl, hquery]
    decide

end Virthttp
