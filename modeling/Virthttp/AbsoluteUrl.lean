import Virthttp.QueryKeys

namespace Virthttp

open Backtrack Fields

def schemeNamePattern : Re Char :=
  .group 4 (.alt (.seq (word 'h' ['t', 't', 'p']) (.opt (.cls (· == 's'))))
    (word 'f' ['t', 'p']))

def schemePattern : Re Char := .opt (.seq schemeNamePattern (word ':' ['/', '/']))

def hostPattern : Re Char := .group 5 (.seq (.cls (· != '/')) (.manyLazy (· != '/')))

def portPattern : Re Char :=
  .opt (.seq (.cls (· == ':')) (.group 6 (.many digitChar 1 none)))

def pathQueryPattern : Re Char := .seq (.opt (.group 1 (.many pathChar 1 none))) queryPattern

def slashPattern : Re Char := .seq (.alt .eos (.cls (· == '/'))) pathQueryPattern

/-- `^(?:(http[s]?|ftp)://)?([^/]+?)(?::(\d+))?(?:$|/)([^#?\s]+)?(.*?)?(#[A-Za-z_\-]+)?$` -/
def urlPattern : Re Char :=
  .seq schemePattern (.seq hostPattern (.seq portPattern slashPattern))

structure URLParser extends TargetParser where
  scheme : Str
  host : Str
  port : BitVec 16

def decimal (ds : Str) : ℕ := ds.foldl (fun n c => 10*n+(c.toNat - '0'.toNat)) 0

/-- `strtoul` in base 10, of a text that starts with a digit: it reads on to the first character
that is none, and does not go beyond `ULONG_MAX`. -/
def strtoul (mem : Str) : BitVec 64 :=
  BitVec.ofNat 64 (min (decimal (mem.takeWhile digitChar)) (2^64-1))

namespace URLParser

/-- The position in the url of the port, which is behind the scheme, the host and a colon. -/
def portOffset (caps : Caps Char) : ℕ :=
  let scheme := captured caps 4
  (if scheme = [] then 0 else scheme.length+3)+(captured caps 5).length+1

/-- `parse_all`; `behind` is what follows the url in memory. -/
def parseAll (behind : Str) (t : URLParser) : URLParser :=
  let caps := (fullMatch urlPattern t.url).getD []
  let port := match caps.get 6 with
    | some _ => (strtoul (t.url.drop (portOffset caps) ++ behind)).setWidth 16
    | none => t.port
  let target := { t.toTargetParser with path := captured caps 1 }
  { toTargetParser := target.parseQueries (captured caps 2)
    scheme := captured caps 4
    host := captured caps 5
    port := port }

def init : URLParser := ⟨⟨[], [], [], Flatmap.empty⟩, [], [], 0⟩

def setURL (behind : Str) (t : URLParser) (url : Str) : URLParser :=
  parseAll behind { t with url := url }

def ofUrl (behind url : Str) : URLParser := setURL behind init url

end URLParser

def isPort : Str → Bool
  | [] => false
  | x :: ds => x == ':' && ds.all digitChar && !ds.isEmpty

def hostStarts : Str → Bool
  | [] => false
  | x :: _ => x != '/'

def schemes : List Str := [lit "https", lit "http", lit "ftp"]

def splitScheme (url : Str) : Str × Str :=
  match schemes.find? (fun s =>
      (s ++ lit "://").isPrefixOf url && hostStarts (url.drop (s.length+3))) with
  | some s => (s, url.drop (s.length+3))
  | none => ([], url)

def hostOf : Str → Str
  | [] => []
  | x :: xs => x :: upTo isPort xs

def portOf : Str → Option Str
  | [] => none
  | _ :: xs => (fromOn isPort xs).tail?

structure UrlParts where
  scheme : Str
  host : Str
  port : Option Str
  path : Str
  query : Str

def authorityOf (s : Str) : Str := s.takeWhile (· != '/')

def pathTextOf (s : Str) : Str := (s.dropWhile (· != '/')).drop 1

def urlParts (url : Str) : UrlParts :=
  let s := (splitScheme url).2
  if hostStarts s then
    ⟨(splitScheme url).1, hostOf (authorityOf s), portOf (authorityOf s),
      (pathTextOf s).takeWhile pathChar, beforeFragment ((pathTextOf s).dropWhile pathChar)⟩
  else ⟨[], [], none, [], []⟩

theorem first_optPath (xs : Str) (c : Caps Char) :
    first (.opt (.group 1 (.many pathChar 1 none))) xs c =
      some (if xs.takeWhile pathChar = [] then c else (1, xs.takeWhile pathChar) :: c,
        xs.dropWhile pathChar) := by
  have hsplit : xs.takeWhile pathChar ++ xs.dropWhile pathChar = xs :=
    List.takeWhile_append_dropWhile
  have hend := head_dropWhile pathChar xs
  rw [first_opt]
  by_cases hne : xs.takeWhile pathChar = []
  · rw [hne, List.nil_append] at hsplit
    rw [hsplit] at hend
    have hnone : first (.group 1 (.many pathChar 1 none)) xs c = none := by
      rw [first_group, first, run_many_one_of_not hend]
      rfl
    rw [hnone, if_pos hne, hsplit]
    rfl
  · have hgroup := first_group_append (n := 1)
      (first_many_append hne (fun x hx => List.mem_takeWhile_imp hx) hend c)
    rw [hsplit] at hgroup
    rw [hgroup, if_neg hne]
    rfl

theorem first_pathQuery (xs : Str) {c : Caps Char} (hc : c.get 1 = none) :
    ∃ c', first pathQueryPattern xs c = some (c', []) ∧
      captured c' 1 = xs.takeWhile pathChar ∧
      captured c' 2 = beforeFragment (xs.dropWhile pathChar) ∧ ∀ n, 4 ≤ n → c'.get n = c.get n := by
  obtain ⟨c', hquery, h2, h1⟩ := first_queryPattern (xs.dropWhile pathChar)
    (if xs.takeWhile pathChar = [] then c else (1, xs.takeWhile pathChar) :: c)
  have hfirst : first pathQueryPattern xs c = some (c', []) :=
    first_seq_of_first (first_optPath xs c) hquery
  refine ⟨c', hfirst, ?_, h2, ?_⟩
  · rw [h1]
    by_cases hne : xs.takeWhile pathChar = []
    · rw [if_pos hne, hne, captured, hc]
      rfl
    · rw [if_neg hne]
      rfl
  · intro n hn
    have hcaptures : captures pathQueryPattern n = false := by
      have h1 : n ≠ 1 := by omega
      have h2 : n ≠ 2 := by omega
      have h3 : n ≠ 3 := by omega
      simp [pathQueryPattern, queryPattern, fragmentPattern, captures, h1.symm, h2.symm, h3.symm]
    exact run_get hcaptures xs c _ (List.mem_of_mem_head? hfirst)

/-- A digit is neither the end of an authority nor the start of a port. -/
theorem digitChar_ne {d : Char} (h : digitChar d = true) : d ≠ '/' ∧ d ≠ ':' := by
  constructor
  · intro heq
    rw [heq] at h
    exact absurd h (by decide)
  · intro heq
    rw [heq] at h
    exact absurd h (by decide)

def EndsAuthority (xs : Str) : Prop := ∀ x ∈ xs.head?, x = '/'

theorem first_slash {xs : Str} (hxs : EndsAuthority xs) (c : Caps Char) :
    first slashPattern xs c = first pathQueryPattern (xs.drop 1) c := by
  have hrun : run (.alt .eos (.cls (· == '/'))) xs c = [(c, xs.drop 1)] := by
    cases xs with
    | nil => rfl
    | cons x xs =>
      obtain rfl := hxs x rfl
      rfl
  rw [slashPattern, first_seq, hrun, List.findSome?_cons]
  cases first pathQueryPattern (xs.drop 1) c <;> rfl

theorem first_slash_none {x : Char} (hx : x ≠ '/') (xs : Str) (c : Caps Char) :
    first slashPattern (x :: xs) c = none := by
  simp [first, slashPattern, run, hx]

/-- A port goes up to the end of the authority. -/
theorem first_port {ds rest : Str} (hne : ds ≠ []) (hds : ∀ d ∈ ds, digitChar d = true)
    (hrest : EndsAuthority rest) (c : Caps Char) :
    first (.seq portPattern slashPattern) (':' :: (ds ++ rest)) c =
      first slashPattern rest ((6, ds) :: c) := by
  have hstop : ∀ x ∈ rest.head?, digitChar x = false := by
    intro x hx
    rw [hrest x hx]
    decide
  have hdigits := first_group_append (n := 6) (first_many_append hne hds hstop c)
  have hport : first portPattern (':' :: (ds ++ rest)) c = some ((6, ds) :: c, rest) := by
    have hseq : first (.seq (.cls (· == ':')) (.group 6 (.many digitChar 1 none)))
        (':' :: (ds ++ rest)) c = some ((6, ds) :: c, rest) :=
      first_seq_of_first ((first_cls_cons _ _ _ _).trans (if_pos rfl)) hdigits
    rw [portPattern, first_opt, hseq]
    rfl
  obtain ⟨c', hquery, -⟩ := first_queryPattern ((rest.drop 1).dropWhile pathChar)
    (if (rest.drop 1).takeWhile pathChar = [] then (6, ds) :: c
      else (1, (rest.drop 1).takeWhile pathChar) :: (6, ds) :: c)
  have hslash : first slashPattern rest ((6, ds) :: c) = some (c', []) := by
    rw [first_slash hrest]
    exact first_seq_of_first (first_optPath _ _) hquery
  rw [hslash]
  exact first_seq_of_first hport hslash

theorem first_no_port {xs : Str} (hxs : EndsAuthority xs) (c : Caps Char) :
    first (.seq portPattern slashPattern) xs c = first slashPattern xs c := by
  have hrun : run portPattern xs c = [(c, xs)] := by
    cases xs with
    | nil => rfl
    | cons x xs =>
      obtain rfl := hxs x rfl
      rfl
  rw [first_seq, hrun, List.findSome?_cons]
  cases first slashPattern xs c <;> rfl

theorem authorityOf_append {a rest : Str} (ha : ∀ x ∈ a, x ≠ '/') (hrest : EndsAuthority rest) :
    authorityOf (a ++ rest) = a ∧ (a ++ rest).dropWhile (· != '/') = rest := by
  have hchars : ∀ x ∈ a, (x != '/') = true := fun x hx => by simpa using ha x hx
  rw [authorityOf, List.takeWhile_append_of_pos hchars, List.dropWhile_append_of_pos hchars]
  cases rest with
  | nil => simp
  | cons x rest =>
    obtain rfl := hrest x rfl
    simp

/-- Inside an authority the host goes on, except in front of a port. -/
theorem first_port_none {w rest : Str} (hne : w ≠ []) (hw : ∀ x ∈ w, x ≠ '/')
    (hport : isPort w = false) (hrest : EndsAuthority rest) (c : Caps Char) :
    first (.seq portPattern slashPattern) (w ++ rest) c = none := by
  obtain ⟨x, xs, rfl⟩ := List.exists_cons_of_ne_nil hne
  have hx : x ≠ '/' := hw x List.mem_cons_self
  rw [first_seq, List.findSome?_eq_none_iff]
  intro o ho
  rcases List.mem_append.mp ho with ho | ho
  · obtain ⟨m, hm, ho⟩ := List.mem_flatMap.mp ho
    have hcolon : x = ':' ∧ m = (c, xs ++ rest) := by
      by_cases hcolon : x = ':'
      · refine ⟨hcolon, ?_⟩
        simpa [run, hcolon] using hm
      · simp [run, hcolon] at hm
    obtain ⟨rfl, rfl⟩ := hcolon
    obtain ⟨o', ho', rfl⟩ := List.mem_map.mp ho
    obtain ⟨ys, hys, rfl⟩ := List.mem_map.mp ho'
    obtain ⟨zs, hzs, hdigits, hlen⟩ := mem_greedyRests hys
    by_cases hends : EndsAuthority ys
    · have hslash : ∀ z ∈ zs, z ≠ '/' := fun z hz => (digitChar_ne (hdigits z hz)).1
      have heq : xs = zs := by
        have hxs := (authorityOf_append (fun y hy => hw y (List.mem_cons_of_mem _ hy)) hrest).1
        have hcut : xs ++ rest = zs ++ ys := hzs
        rw [← hxs, hcut, (authorityOf_append hslash hends).1]
      have hthis : isPort (':' :: xs) = true := by
        have hnil : xs ≠ [] := by
          rw [heq]
          exact List.ne_nil_of_length_pos hlen
        have hall : xs.all digitChar = true := by
          rw [heq]
          exact List.all_eq_true.mpr hdigits
        simp [isPort, hall, hnil]
      rw [hthis] at hport
      cases hport
    · unfold EndsAuthority at hends
      push Not at hends
      obtain ⟨y, hy, hne⟩ := hends
      obtain ⟨ys', rfl⟩ := List.head?_eq_some_iff.mp hy
      exact first_slash_none hne ys' _
  · rw [List.mem_singleton.mp ho]
    exact first_slash_none hx _ _

/-- Behind the host there is nothing, or a port. -/
theorem fromOn_isPort (xs : Str) : fromOn isPort xs = [] ∨
    ∃ ds, fromOn isPort xs = ':' :: ds ∧ ds ≠ [] ∧ ∀ d ∈ ds, digitChar d = true := by
  rcases @fromOn_cases _ isPort xs with hnil | hport
  · exact Or.inl hnil
  · cases hfrom : fromOn isPort xs with
    | nil => exact Or.inl rfl
    | cons d ds =>
      rw [hfrom] at hport
      simp only [isPort, Bool.and_eq_true, beq_iff_eq, List.all_eq_true, Bool.not_eq_true',
        List.isEmpty_eq_false_iff] at hport
      obtain ⟨⟨rfl, hdigits⟩, hds⟩ := hport
      exact Or.inr ⟨ds, rfl, hds, hdigits⟩

/-- The host goes up to the port, or to the end of the authority. -/
theorem first_host {a rest : Str} (hne : a ≠ []) (ha : ∀ x ∈ a, x ≠ '/')
    (hrest : EndsAuthority rest) (c : Caps Char) :
    ∃ c₁, c₁ = (match portOf a with
        | some ds => (6, ds) :: (5, hostOf a) :: c
        | none => (5, hostOf a) :: c) ∧
      ∀ o, first pathQueryPattern (rest.drop 1) c₁ = some o →
        first (.seq hostPattern (.seq portPattern slashPattern)) (a ++ rest) c = some o := by
  obtain ⟨x, xs, rfl⟩ := List.exists_cons_of_ne_nil hne
  have hx : x ≠ '/' := ha x List.mem_cons_self
  have hsplit : upTo isPort xs ++ fromOn isPort xs = xs := upTo_append_fromOn xs
  refine ⟨_, rfl, fun o ho => ?_⟩
  have htext : x :: xs ++ rest = x :: (upTo isPort xs ++ (fromOn isPort xs ++ rest)) := by
    rw [← List.append_assoc, hsplit]
    rfl
  rw [htext]
  -- the host is lazy: it grows until the rest matches, first in front of the port
  apply first_lazyOne_seq
  · simpa using hx
  · intro y hy
    have hmem : y ∈ xs := by
      rw [← hsplit]
      exact List.mem_append_left _ hy
    simpa using ha y (List.mem_cons_of_mem _ hmem)
  · intro y zs hsuf c'
    have hport := not_of_suffix_upTo hsuf
    have hin : ∀ z ∈ y :: (zs ++ fromOn isPort xs), z ∈ xs := by
      intro z hz
      rw [← hsplit]
      rw [← List.cons_append] at hz
      rcases List.mem_append.mp hz with hz | hz
      · exact List.mem_append_left _ (hsuf.subset hz)
      · exact List.mem_append_right _ hz
    have hnone := first_port_none (w := y :: (zs ++ fromOn isPort xs)) (by simp)
      (fun z hz => ha z (List.mem_cons_of_mem _ (hin z hz))) hport hrest c'
    rwa [List.cons_append, List.append_assoc] at hnone
  · have hcaps : portOf (x :: xs) = (fromOn isPort xs).tail? := rfl
    rw [hcaps] at ho
    rcases fromOn_isPort xs with hnil | ⟨ds, hport, hds, hdigits⟩
    · rw [hnil] at ho ⊢
      rw [List.nil_append, first_no_port hrest, first_slash hrest]
      exact ho
    · rw [hport] at ho ⊢
      rw [List.cons_append, first_port hds hdigits hrest, first_slash hrest]
      exact ho

/-- No host is found in front of a slash, or of nothing. -/
theorem first_host_none {s : Str} (hs : hostStarts s = false) (c : Caps Char) :
    first (.seq hostPattern (.seq portPattern slashPattern)) s c = none := by
  have hrun : run hostPattern s c = [] := by
    cases s with
    | nil => rfl
    | cons x xs =>
      have hx : (x != '/') = false := hs
      simp [hostPattern, run, hx]
  rw [first_seq, hrun]
  rfl

theorem endsAuthority_dropWhile (s : Str) : EndsAuthority (s.dropWhile (· != '/')) := by
  intro x hx
  simpa using head_dropWhile (· != '/') s x hx

/-- What is captured behind the scheme. -/
theorem first_hostStarts {s : Str} (hs : hostStarts s = true) {c : Caps Char}
    (h1 : c.get 1 = none) (h6 : c.get 6 = none) :
    ∃ c', first (.seq hostPattern (.seq portPattern slashPattern)) s c = some (c', []) ∧
      captured c' 1 = (pathTextOf s).takeWhile pathChar ∧
      captured c' 2 = beforeFragment ((pathTextOf s).dropWhile pathChar) ∧
      captured c' 4 = captured c 4 ∧ captured c' 5 = hostOf (authorityOf s) ∧
      c'.get 6 = portOf (authorityOf s) := by
  have hne : authorityOf s ≠ [] := by
    cases s with
    | nil => cases hs
    | cons x xs =>
      have hx : (x != '/') = true := hs
      simp [authorityOf, hx]
  have hauth : ∀ x ∈ authorityOf s, x ≠ '/' := by
    intro x hx
    simpa using List.mem_takeWhile_imp hx
  have hsplit : authorityOf s ++ s.dropWhile (· != '/') = s := List.takeWhile_append_dropWhile
  obtain ⟨c₁, hc₁, hgo⟩ := first_host hne hauth (endsAuthority_dropWhile s) c
  have hget : c₁.get 1 = none ∧ c₁.get 4 = c.get 4 ∧ c₁.get 5 = some (hostOf (authorityOf s)) ∧
      c₁.get 6 = portOf (authorityOf s) := by
    rw [hc₁]
    cases hport : portOf (authorityOf s) with
    | none => exact ⟨h1, rfl, rfl, h6⟩
    | some ds => exact ⟨h1, rfl, rfl, rfl⟩
  obtain ⟨hget1, hget4, hget5, hget6⟩ := hget
  obtain ⟨c', hquery, hpath, hq, hkeep⟩ := first_pathQuery (pathTextOf s) hget1
  have hfirst := hgo _ hquery
  rw [hsplit] at hfirst
  refine ⟨c', hfirst, hpath, hq, ?_, ?_, ?_⟩
  · rw [captured, captured, hkeep 4 (by decide), hget4]
  · rw [captured, hkeep 5 (by decide), hget5]
    rfl
  · rw [hkeep 6 (by decide), hget6]

theorem schemeNamePattern_words : ∃ r, schemeNamePattern = .group 4 r ∧ MatchesWords r schemes :=
  ⟨_, rfl, ((matchesWords_word 'h' ['t', 't', 'p']).seq (matchesWords_word 's' []).opt).alt
    (matchesWords_word 'f' ['t', 'p'])⟩

theorem run_scheme (url : Str) (c : Caps Char) :
    run (.seq schemeNamePattern (word ':' ['/', '/'])) url c =
      (schemes.filter (fun s => (s ++ lit "://").isPrefixOf url)).map
        (fun s => ((4, s) :: c, url.drop (s.length+3))) := by
  obtain ⟨r, hr, hwords⟩ := schemeNamePattern_words
  rw [hr, hwords.run_group_seq (matchesWords_word ':' ['/', '/'])]
  rfl

theorem first_host_isSome (s : Str) {c : Caps Char} (h1 : c.get 1 = none) (h6 : c.get 6 = none) :
    (first (.seq hostPattern (.seq portPattern slashPattern)) s c).isSome = hostStarts s := by
  cases hs : hostStarts s with
  | false => rw [first_host_none hs]; rfl
  | true =>
    obtain ⟨c', hfirst, -⟩ := first_hostStarts hs h1 h6
    rw [hfirst]
    rfl

theorem urlPattern_ends (xs : Str) (c : Caps Char) : ∀ o ∈ run urlPattern xs c, o.2 = [] :=
  run_seq_ends (run_seq_ends (run_seq_ends (run_seq_ends (run_seq_ends (run_seq_ends
    (run_seq_ends run_eos_ends)))))) xs c

/-- The match goes on behind the scheme if a host follows it, and else at the front. -/
theorem first_url (url : Str) : first urlPattern url [] =
    first (.seq hostPattern (.seq portPattern slashPattern)) (splitScheme url).2
      (if (splitScheme url).1 = [] then [] else [(4, (splitScheme url).1)]) := by
  have hrun : run schemePattern url ([] : Caps Char) =
      (schemes.filter (fun s => (s ++ lit "://").isPrefixOf url)).map
        (fun s => ([(4, s)], url.drop (s.length+3))) ++ [([], url)] := by
    rw [schemePattern, run, run_scheme]
  have hsome (s : Str) : (first (.seq hostPattern (.seq portPattern slashPattern))
      (url.drop (s.length+3)) [(4, s)]).isSome = hostStarts (url.drop (s.length+3)) :=
    first_host_isSome _ rfl rfl
  have hscheme : ∀ s ∈ schemes, s ≠ [] := by decide
  -- only one scheme can be in front, and without it the search starts over at the front
  rw [urlPattern, first_seq, hrun, List.findSome?_append, List.findSome?_map, Function.comp_def,
    findSome_filter hsome]
  unfold splitScheme
  cases hfind : schemes.find? (fun s =>
      (s ++ lit "://").isPrefixOf url && hostStarts (url.drop (s.length+3))) with
  | none =>
    simp only [Option.bind_none, Option.none_or, List.findSome?_cons, List.findSome?_nil, if_true]
    split
    · rename_i ho
      exact ho.symm
    · rename_i ho
      exact ho.symm
  | some s =>
    have hs : s ≠ [] := hscheme s (List.mem_of_find?_eq_some hfind)
    have hhost : hostStarts (url.drop (s.length+3)) = true := by
      have hp := List.find?_some hfind
      simp only [Bool.and_eq_true] at hp
      exact hp.2
    have hthis := hsome s
    rw [hhost] at hthis
    obtain ⟨o, ho⟩ := Option.isSome_iff_exists.mp hthis
    simp only [Option.bind_some, ho, Option.some_or, if_neg hs]

/-- What the pattern finds in any url. -/
theorem fullMatch_url (url : Str) : ∃ caps, (fullMatch urlPattern url).getD [] = caps ∧
    captured caps 1 = (urlParts url).path ∧ captured caps 2 = (urlParts url).query ∧
    captured caps 4 = (urlParts url).scheme ∧ captured caps 5 = (urlParts url).host ∧
    caps.get 6 = (urlParts url).port := by
  have hget (n : ℕ) (hn : n ≠ 4) : Caps.get (if (splitScheme url).1 = [] then []
      else [(4, (splitScheme url).1)]) n = none := by
    split
    · rfl
    · exact Caps.get_cons_ne hn.symm _ _
  have hscheme : captured (if (splitScheme url).1 = [] then []
      else [(4, (splitScheme url).1)]) 4 = (splitScheme url).1 := by
    split
    · rename_i hnil
      rw [hnil]
      rfl
    · rfl
  refine ⟨_, rfl, ?_⟩
  rw [fullMatch_of_ends (urlPattern_ends url []), first_url]
  cases hs : hostStarts (splitScheme url).2 with
  | false =>
    rw [first_host_none hs]
    simp only [urlParts, hs, Bool.false_eq_true, if_false]
    exact ⟨rfl, rfl, rfl, rfl, rfl⟩
  | true =>
    obtain ⟨c', hfirst, h1, h2, h4, h5, h6⟩ :=
      first_hostStarts hs (hget 1 (by decide)) (hget 6 (by decide))
    rw [hfirst]
    simp only [urlParts, hs, if_true]
    exact ⟨h1, h2, h4.trans hscheme, h5, h6⟩

def behindAuthority (url : Str) : Str := (splitScheme url).2.dropWhile (· != '/')

def schemeText (scheme : Str) : Str := if scheme = [] then [] else scheme ++ lit "://"

theorem drop_scheme (s rest : Str) : (s ++ lit "://" ++ rest).drop (s.length+3) = rest := by
  have hlen : s.length+3 = (s ++ lit "://").length := by
    rw [List.length_append]
    rfl
  rw [hlen, List.drop_left]

/-- A scheme is taken off with a host behind it, or there is none with a host behind it. -/
theorem splitScheme_cases (url : Str) :
    (∃ s ∈ schemes, ∃ rest, url = s ++ lit "://" ++ rest ∧ hostStarts rest = true ∧
      splitScheme url = (s, rest)) ∨
    ((∀ s ∈ schemes, ∀ rest, url = s ++ lit "://" ++ rest → hostStarts rest = false) ∧
      splitScheme url = ([], url)) := by
  unfold splitScheme
  cases hfind : schemes.find? (fun s =>
      (s ++ lit "://").isPrefixOf url && hostStarts (url.drop (s.length+3))) with
  | none =>
    refine Or.inr ⟨?_, rfl⟩
    intro s hs rest hurl
    have hnone := List.find?_eq_none.mp hfind s hs
    rw [hurl, drop_scheme, List.isPrefixOf_iff_prefix.mpr (List.prefix_append _ _)] at hnone
    simpa using hnone
  | some s =>
    have hp := List.find?_some hfind
    simp only [Bool.and_eq_true, List.isPrefixOf_iff_prefix] at hp
    obtain ⟨⟨rest, rfl⟩, hhost⟩ := hp
    rw [drop_scheme] at hhost
    exact Or.inl ⟨s, List.mem_of_find?_eq_some hfind, rest, rfl, hhost, by simp only [drop_scheme]⟩

theorem splitScheme_append (url : Str) :
    schemeText (splitScheme url).1 ++ (splitScheme url).2 = url := by
  have hscheme : ∀ s ∈ schemes, s ≠ [] := by decide
  rcases splitScheme_cases url with ⟨s, hs, rest, hurl, -, hsplit⟩ | ⟨-, hsplit⟩
  · rw [hsplit, schemeText, if_neg (hscheme s hs), hurl]
  · rw [hsplit]
    rfl

theorem hostOf_portOf {a ds : Str} (h : portOf a = some ds) : a = hostOf a ++ ':' :: ds := by
  cases a with
  | nil => cases h
  | cons x xs =>
    rcases fromOn_isPort xs with hnil | ⟨ds', hfrom, -⟩
    · rw [portOf, hnil] at h
      cases h
    · rw [portOf, hfrom] at h
      obtain rfl : ds' = ds := by simpa using h
      rw [hostOf, List.cons_append, ← hfrom, upTo_append_fromOn]

/-- Where the digits of the port are read. -/
theorem drop_portOffset {url ds : Str} {caps : Caps Char}
    (h4 : captured caps 4 = (urlParts url).scheme) (h5 : captured caps 5 = (urlParts url).host)
    (hport : (urlParts url).port = some ds) :
    url.drop (URLParser.portOffset caps) = ds ++ behindAuthority url := by
  unfold urlParts at h4 h5 hport
  cases hs : hostStarts (splitScheme url).2 with
  | false => simp [hs] at hport
  | true =>
    simp only [hs, if_true] at h4 h5 hport
    have hrest : authorityOf (splitScheme url).2 ++ behindAuthority url = (splitScheme url).2 :=
      List.takeWhile_append_dropWhile
    have hoffset : URLParser.portOffset caps = (schemeText (splitScheme url).1 ++
        (hostOf (authorityOf (splitScheme url).2) ++ [':'])).length := by
      rw [URLParser.portOffset, h4, h5, schemeText]
      split
      · simp
      · simp only [List.length_append, List.length_cons, List.length_nil]
        have hmark : (lit "://").length = 3 := rfl
        omega
    have htext : url = schemeText (splitScheme url).1 ++
        (hostOf (authorityOf (splitScheme url).2) ++ [':']) ++ (ds ++ behindAuthority url) := by
      calc url = schemeText (splitScheme url).1 ++
            (authorityOf (splitScheme url).2 ++ behindAuthority url) := by
            rw [hrest, splitScheme_append]
        _ = schemeText (splitScheme url).1 ++
            ((hostOf (authorityOf (splitScheme url).2) ++ ':' :: ds) ++ behindAuthority url) := by
            rw [← hostOf_portOf hport]
        _ = _ := by simp only [List.append_assoc, List.cons_append, List.nil_append]
    rw [hoffset]
    exact (congrArg (List.drop _) htext).trans List.drop_left

def readPort (mem : Str) : BitVec 16 := (strtoul mem).setWidth 16

theorem parseAll_eq (behind : Str) (t : URLParser) : t.parseAll behind =
    { path := (urlParts t.url).path
      url := t.url
      pathParts := t.pathParts ++ segments ((urlParts t.url).path.dropWhile (· != '/'))
      queries := queriesOf ((urlParts t.url).query.drop 1)
      scheme := (urlParts t.url).scheme
      host := (urlParts t.url).host
      port := match (urlParts t.url).port with
        | some ds => readPort (ds ++ behindAuthority t.url ++ behind)
        | none => t.port } := by
  obtain ⟨caps, hcaps, h1, h2, h4, h5, h6⟩ := fullMatch_url t.url
  have hport : (match caps.get 6 with
      | some _ => (strtoul (t.url.drop (URLParser.portOffset caps) ++ behind)).setWidth 16
      | none => t.port) = match (urlParts t.url).port with
      | some ds => readPort (ds ++ behindAuthority t.url ++ behind)
      | none => t.port := by
    rw [h6]
    cases hds : (urlParts t.url).port with
    | none => rfl
    | some ds =>
      simp only [drop_portOffset h4 h5 hds]
      rfl
  unfold URLParser.parseAll
  simp only [hcaps, hport, parseQueries_eq, h1, h2, h4, h5]

theorem takeWhile_scheme {s : Str} (hs : ':' ∉ s) (rest : Str) :
    (s ++ lit "://" ++ rest).takeWhile (· != ':') = s := by
  have hmark : lit "://" ++ rest = ':' :: '/' :: '/' :: rest := rfl
  have hchars : ∀ c ∈ s, (c != ':') = true := by
    intro c hc
    simp only [bne_iff_ne, ne_eq]
    intro heq
    exact hs (heq ▸ hc)
  rw [List.append_assoc, hmark, List.takeWhile_append_of_pos hchars]
  simp

theorem scheme_inj {s s' rest rest' : Str} (hs : ':' ∉ s) (hs' : ':' ∉ s')
    (h : s ++ lit "://" ++ rest = s' ++ lit "://" ++ rest') : s = s' ∧ rest = rest' := by
  have heq : s = s' := by rw [← takeWhile_scheme hs rest, h, takeWhile_scheme hs']
  rw [heq] at h
  exact ⟨heq, List.append_cancel_left h⟩

theorem colon_not_mem_schemes : ∀ s ∈ schemes, ':' ∉ s := by decide

theorem scheme_not_slash : ∀ s ∈ schemes, ∀ c ∈ s ++ [':'], c ≠ '/' := by
  intro s hs c hc
  have hall : ∀ s ∈ schemes, '/' ∉ s ++ [':'] := by decide
  intro heq
  exact hall s hs (heq ▸ hc)

/-- The first slash is behind the colon of the scheme. -/
theorem scheme_slashes (s rest : Str) :
    s ++ lit "://" ++ rest = (s ++ [':']) ++ '/' :: '/' :: rest := by
  rw [List.append_assoc, List.append_assoc]
  rfl

/-- A scheme is only taken off if a host follows it. -/
theorem splitScheme_scheme {s : Str} (hs : ':' ∉ s) (rest : Str) :
    splitScheme (s ++ lit "://" ++ rest) =
      if s ∈ schemes ∧ hostStarts rest = true then (s, rest) else ([], s ++ lit "://" ++ rest) := by
  rcases splitScheme_cases (s ++ lit "://" ++ rest) with
    ⟨s', hs', rest', hurl, hhost, hsplit⟩ | ⟨hnone, hsplit⟩
  · obtain ⟨rfl, rfl⟩ := scheme_inj hs (colon_not_mem_schemes s' hs') hurl
    rw [if_pos ⟨hs', hhost⟩, hsplit]
  · have hnot : ¬(s ∈ schemes ∧ hostStarts rest = true) := by
      intro h
      have hfalse := hnone s h.1 rest rfl
      rw [h.2] at hfalse
      cases hfalse
    rw [if_neg hnot, hsplit]

theorem hostStarts_append {a : Str} (hne : a ≠ []) (ha : ∀ c ∈ a, c ≠ '/') (rest : Str) :
    hostStarts (a ++ rest) = true := by
  obtain ⟨x, a, rfl⟩ := List.exists_cons_of_ne_nil hne
  simpa [hostStarts] using ha x List.mem_cons_self

/-- The parts of a url by its authority and what is behind it. -/
theorem urlParts_of_split {url scheme a rest : Str} (hsplit : splitScheme url = (scheme, a ++ rest))
    (hne : a ≠ []) (ha : ∀ c ∈ a, c ≠ '/') (hrest : EndsAuthority rest) :
    urlParts url = ⟨scheme, hostOf a, portOf a, (rest.drop 1).takeWhile pathChar,
      beforeFragment ((rest.drop 1).dropWhile pathChar)⟩ ∧ behindAuthority url = rest := by
  obtain ⟨hauth, hbehind⟩ := authorityOf_append ha hrest
  rw [urlParts, behindAuthority, hsplit]
  simp only [hostStarts_append hne ha, if_true, hauth, pathTextOf, hbehind, and_self]

end Virthttp
