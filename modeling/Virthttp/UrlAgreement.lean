import Virthttp.AbsoluteUrl

/-! A target behind a scheme and an authority, parsed as a url and on its own. The pattern of a url
takes the slash in front of the path for itself, and so the first path part is not found. -/
namespace Virthttp

open Fields

def portText : Option Str → Str
  | none => []
  | some ds => ':' :: ds

structure Origin where
  scheme : Str
  known : scheme ∈ schemes
  host : Str
  hostChars : ∀ c ∈ host, c ≠ '/' ∧ c ≠ ':'
  port : Option Str
  portDigits : ∀ ds ∈ port, ds ≠ [] ∧ ∀ d ∈ ds, digitChar d = true

def Origin.authority (o : Origin) : Str := o.host ++ portText o.port

def Origin.text (o : Origin) : Str := o.scheme ++ lit "://" ++ o.authority

theorem Origin.not_slash (o : Origin) : ∀ c ∈ o.authority, c ≠ '/' := by
  intro c hc
  rcases List.mem_append.mp hc with hc | hc
  · exact (o.hostChars c hc).1
  · cases hport : o.port with
    | none =>
      rw [hport] at hc
      cases hc
    | some ds =>
      rw [hport] at hc
      rcases List.mem_cons.mp hc with rfl | hc
      · decide
      · exact (digitChar_ne ((o.portDigits ds hport).2 c hc)).1

/-- Without an authority the scheme is taken for it, and the path starts with its slashes. -/
theorem urlParts_origin (o : Origin) (r : Str) :
    (urlParts (o.text ++ '/' :: r)).path =
      (if o.authority = [] then lit "//" else []) ++ r.takeWhile pathChar ∧
    (urlParts (o.text ++ '/' :: r)).query = beforeFragment (r.dropWhile pathChar) := by
  have hcolon := colon_not_mem_schemes o.scheme o.known
  have htext : o.text ++ '/' :: r = o.scheme ++ lit "://" ++ (o.authority ++ '/' :: r) := by
    rw [Origin.text, List.append_assoc]
  have hends (xs : Str) : EndsAuthority ('/' :: xs) := by simp [EndsAuthority]
  by_cases hne : o.authority = []
  · have hstart : hostStarts (o.authority ++ '/' :: r) = false := by
      rw [hne]
      rfl
    have hslash := scheme_not_slash o.scheme o.known
    have hurl : o.scheme ++ lit "://" ++ (o.authority ++ '/' :: r) =
        (o.scheme ++ [':']) ++ '/' :: '/' :: '/' :: r := by
      rw [hne, List.nil_append, scheme_slashes]
    have hsplit : splitScheme (o.text ++ '/' :: r) =
        ([], (o.scheme ++ [':']) ++ '/' :: '/' :: '/' :: r) := by
      rw [htext, splitScheme_scheme hcolon, hstart, hurl]
      simp
    rw [(urlParts_of_split hsplit (by simp) hslash (hends _)).1, if_pos hne]
    exact ⟨rfl, rfl⟩
  · have hsplit : splitScheme (o.text ++ '/' :: r) = (o.scheme, o.authority ++ '/' :: r) := by
      rw [htext, splitScheme_scheme hcolon, hostStarts_append hne o.not_slash]
      simp [o.known]
    rw [(urlParts_of_split hsplit hne o.not_slash (hends r)).1, if_neg hne]
    exact ⟨rfl, rfl⟩

/-- The first part is what is in front of the first slash. -/
theorem segments_cut (p : Str) : segments p =
    (if p.takeWhile (· != '/') = [] then [] else [p.takeWhile (· != '/')]) ++
      segments (p.dropWhile (· != '/')) := by
  have hsplit : p.takeWhile (· != '/') ++ p.dropWhile (· != '/') = p :=
    List.takeWhile_append_dropWhile
  have hends := endsAuthority_dropWhile p
  have hpart : ∀ c ∈ p.takeWhile (· != '/'), c ≠ '/' := by
    intro c hc
    simpa using List.mem_takeWhile_imp hc
  by_cases hne : p.takeWhile (· != '/') = []
  · rw [hne, List.nil_append] at hsplit
    rw [if_pos hne, hsplit, List.nil_append]
  · rw [if_neg hne]
    cases hrest : p.dropWhile (· != '/') with
    | nil =>
      rw [hrest, List.append_nil] at hsplit
      nth_rewrite 1 [← hsplit]
      exact segments_part hne hpart
    | cons x rest =>
      rw [hrest] at hsplit hends
      obtain rfl := hends x rfl
      nth_rewrite 1 [← hsplit]
      rw [segments_append hne hpart, segments_cons_slash]
      rfl

theorem segments_dropWhile_iff {p : Str} :
    segments (p.dropWhile (· != '/')) = segments p ↔ ∀ x ∈ p.head?, x = '/' := by
  rw [segments_cut p, List.self_eq_append_left]
  cases p with
  | nil => simp
  | cons x p =>
    by_cases hx : x = '/'
    · simp [hx]
    · simp [hx, bne_iff_ne]

def firstOf (ps : List (Str × Str)) (name : Str) : Option Str :=
  (ps.find? (fun e => e.1 == name)).map Prod.snd

def SameFirst (q : Str) : Prop :=
  ∀ name, firstOf (queryPairs q) name = firstOf (queryPairs (q.drop 1)) name

theorem queriesOf_eq_iff (q q' : Str) : queriesOf q = queriesOf q' ↔
    ∀ name, firstOf (queryPairs q) name = firstOf (queryPairs q') name := by
  have hfind (q name : Str) : (queriesOf q).find name = firstOf (queryPairs q) name :=
    find_queries (queryPairs q) name
  constructor
  · intro h name
    rw [← hfind, ← hfind, h]
  · intro h
    apply Flatmap.eq_of_find
    intro name
    rw [hfind, hfind, h]

/-- A slash on its own is not taken for a path, so that nothing is stripped from the query. -/
theorem queryText_target (r : Str) : queryText ('/' :: r) =
    if r.takeWhile pathChar = [] then beforeFragment r
      else (beforeFragment (r.dropWhile pathChar)).drop 1 := by
  have hpath : pathOf ('/' :: r) = '/' :: r.takeWhile pathChar := rfl
  have hlen : 2 ≤ ('/' :: r.takeWhile pathChar).length ↔ r.takeWhile pathChar ≠ [] := by
    rw [List.length_cons, ← List.length_pos_iff]
    omega
  rw [queryText, behindPath, hpath]
  simp only [hlen]
  by_cases hne : r.takeWhile pathChar = []
  · rw [if_neg (not_not.mpr hne), if_pos hne]
    rfl
  · rw [if_pos hne, if_neg hne]
    rfl

/-- The url and the target have the same path parts and the same queries. -/
def Agrees (behind : Str) (o : Origin) (t : Str) : Prop :=
  (URLParser.ofUrl behind (o.text ++ t)).pathParts = (TargetParser.ofUrl t).pathParts ∧
    (URLParser.ofUrl behind (o.text ++ t)).queries = (TargetParser.ofUrl t).queries

/-- The first name of a query and the same name behind a character have the value of the first one
again. -/
def FirstTwice (x : Char) (q : Str) : Prop := ∃ name v ps, queryPairs q = (name, v) :: ps ∧
  firstOf ps name = some v ∧ firstOf ps (x :: name) = some v

theorem pathParts_agree_iff (behind : Str) (o : Origin) (r : Str) :
    (URLParser.ofUrl behind (o.text ++ '/' :: r)).pathParts =
        (TargetParser.ofUrl ('/' :: r)).pathParts ↔
      o.authority = [] ∨ ∀ x ∈ (r.takeWhile pathChar).head?, x = '/' := by
  have htarget : (TargetParser.ofUrl ('/' :: r)).pathParts = segments (r.takeWhile pathChar) := by
    rw [pathParts_ofUrl]
    exact segments_cons_slash (r.takeWhile pathChar)
  have hurl : (URLParser.ofUrl behind (o.text ++ '/' :: r)).pathParts = segments
      (((if o.authority = [] then lit "//" else []) ++ r.takeWhile pathChar).dropWhile
        (· != '/')) := by
    rw [URLParser.ofUrl, URLParser.setURL, parseAll_eq, ← (urlParts_origin o r).1]
    rfl
  rw [hurl, htarget]
  by_cases hne : o.authority = []
  · have hslashes : segments ((lit "//" ++ r.takeWhile pathChar).dropWhile (· != '/')) =
        segments (r.takeWhile pathChar) := by
      have hdrop : (lit "//" ++ r.takeWhile pathChar).dropWhile (· != '/') =
          '/' :: '/' :: r.takeWhile pathChar := rfl
      rw [hdrop, segments_cons_slash, segments_cons_slash]
    rw [if_pos hne]
    exact iff_of_true hslashes (Or.inl hne)
  · rw [if_neg hne, List.nil_append, segments_dropWhile_iff]
    exact (or_iff_right hne).symm

theorem queries_agree_iff (behind : Str) (o : Origin) (r : Str) :
    (URLParser.ofUrl behind (o.text ++ '/' :: r)).queries =
        (TargetParser.ofUrl ('/' :: r)).queries ↔
      r.takeWhile pathChar ≠ [] ∨ SameFirst (beforeFragment r) := by
  have htarget : (TargetParser.ofUrl ('/' :: r)).queries = queriesOf (queryText ('/' :: r)) := by
    rw [TargetParser.ofUrl, parse_eq]
  have hurl : (URLParser.ofUrl behind (o.text ++ '/' :: r)).queries =
      queriesOf ((beforeFragment (r.dropWhile pathChar)).drop 1) := by
    rw [URLParser.ofUrl, URLParser.setURL, parseAll_eq, ← (urlParts_origin o r).2]
  rw [hurl, htarget, queryText_target]
  by_cases hne : r.takeWhile pathChar = []
  · have hall : r.dropWhile pathChar = r := by
      have hsplit : r.takeWhile pathChar ++ r.dropWhile pathChar = r :=
        List.takeWhile_append_dropWhile
      rwa [hne, List.nil_append] at hsplit
    rw [if_pos hne, hall, eq_comm, queriesOf_eq_iff]
    exact (or_iff_right (not_not.mpr hne)).symm
  · rw [if_neg hne]
    exact iff_of_true rfl (Or.inl hne)

/-- A query by its first component and the first name in it. -/
theorem queryPairs_eq {q comp t : Str} {cs ts : List Str} (hq : components q = comp :: cs)
    (hcomp : comp.splitOn '=' = t :: ts) (ht : t ≠ []) : queryPairs q =
      (t, ts.headD []) :: (tokenPairs (ts.drop 1) ++ cs.flatMap componentPairs) := by
  have hpairs : tokenPairs (t :: ts) = (t, ts.headD []) :: tokenPairs (ts.drop 1) := by
    cases ts with
    | nil => simp [tokenPairs, ht]
    | cons v ts => exact tokenPairs_cons_cons ht v ts
  rw [queryPairs, hq, List.flatMap_cons, componentPairs, hcomp, hpairs, List.cons_append]

theorem components_cons {x : Char} (hx : queryChar x = true) {q comp t : Str} {cs ts : List Str}
    (hq : components q = comp :: cs) (hcomp : comp.splitOn '=' = t :: ts) :
    components (x :: q) = (x :: comp) :: cs ∧ (x :: comp).splitOn '=' = (x :: t) :: ts := by
  simp only [queryChar, Bool.and_eq_true, Bool.not_eq_true', bne_iff_ne, ne_eq] at hx
  obtain ⟨hequals, hsep⟩ := hx
  unfold components at hq ⊢
  rw [List.splitOnP_cons_eq_if_modifyHead, hq, hsep, List.splitOn_cons_eq_if_modifyHead, hcomp]
  simp [hequals]

/-- A character in front of a name is taken for a part of it. -/
theorem queryPairs_cons {x y : Char} (hx : queryChar x = true) (hy : queryChar y = true)
    (q : Str) : ∃ name v ps, queryPairs (y :: q) = (name, v) :: ps ∧
      queryPairs (x :: y :: q) = (x :: name, v) :: ps := by
  obtain ⟨comp, cs, hq⟩ := List.exists_cons_of_ne_nil (List.splitOnP_ne_nil sepChar q)
  obtain ⟨t, ts, hcomp⟩ := List.exists_cons_of_ne_nil (List.splitOn_ne_nil '=' comp)
  obtain ⟨hq₁, hcomp₁⟩ := components_cons hy hq hcomp
  obtain ⟨hq₂, hcomp₂⟩ := components_cons hx hq₁ hcomp₁
  exact ⟨y :: t, ts.headD [], _, queryPairs_eq hq₁ hcomp₁ (by simp),
    queryPairs_eq hq₂ hcomp₂ (by simp)⟩

theorem firstOf_cons (n v : Str) (ps : List (Str × Str)) (name : Str) :
    firstOf ((n, v) :: ps) name = if n = name then some v else firstOf ps name :=
  find_name_cons n v ps name

theorem sameFirst_cons_iff {x : Char} {q : Str} (hx : queryChar x = true)
    (hq : q.takeWhile queryChar ≠ []) : SameFirst (x :: q) ↔ FirstTwice x q := by
  cases q with
  | nil => exact absurd rfl hq
  | cons y q =>
    have hy : queryChar y = true := by
      by_contra hno
      exact hq (List.takeWhile_cons_of_neg hno)
    obtain ⟨name, v, ps, hpairs, hcons⟩ := queryPairs_cons hx hy q
    have hne : x :: name ≠ name := List.cons_ne_self x name
    unfold SameFirst FirstTwice
    rw [List.drop_succ_cons, List.drop_zero, hpairs, hcons]
    simp only [firstOf_cons]
    constructor
    · -- the two names that differ in their first character tell the lists apart
      intro h
      have h1 := h name
      have h2 := h (x :: name)
      rw [if_neg hne, if_pos rfl] at h1
      rw [if_pos rfl, if_neg hne.symm] at h2
      exact ⟨name, v, ps, rfl, h1, h2.symm⟩
    · intro h key
      obtain ⟨name', v', ps', heq, h1, h2⟩ := h
      cases heq
      by_cases hx : x :: name = key
      · rw [if_pos hx, ← hx, if_neg hne.symm, h2]
      · by_cases hname : name = key
        · rw [if_neg hx, if_pos hname, ← hname, h1]
        · rw [if_neg hx, if_neg hname]

/-- The path parts are the same where no text stands between the slash and the next one, or where
the path of the url still has its slashes. -/
def SamePath (o : Origin) (r : Str) : Prop :=
  o.authority = [] ∨ ∀ x ∈ (r.takeWhile pathChar).head?, x = '/'

/-- The queries are the same where the path has more than a slash, or where the first name occurs
again with and without the character in front of it. -/
def SameQueries (r : Str) : Prop :=
  r.takeWhile pathChar ≠ [] ∨ match beforeFragment r with
    | [] => True
    | x :: q => if q.takeWhile queryChar = [] then SameFirst (x :: q) else FirstTwice x q

/-- What ends a path is no separator of queries. -/
theorem queryChar_of_not_pathChar {x : Char} (hx : pathChar x = false) : queryChar x = true := by
  by_contra hno
  have hcases : x = '=' ∨ x = '&' ∨ x = ';' := by
    simpa [queryChar, sepChar, imp_iff_not_or] using hno
  rcases hcases with rfl | rfl | rfl <;> exact absurd hx (by decide)

theorem beforeFragment_head {r q : Str} {x : Char} (h : beforeFragment r = x :: q) :
    ∃ r', r = x :: r' := by
  have hsplit : beforeFragment r ++ fromOn isFragment r = r := upTo_append_fromOn r
  rw [h] at hsplit
  exact ⟨q ++ fromOn isFragment r, hsplit.symm⟩

theorem sameQueries_iff (r : Str) : SameQueries r ↔
    r.takeWhile pathChar ≠ [] ∨ SameFirst (beforeFragment r) := by
  unfold SameQueries
  by_cases hne : r.takeWhile pathChar = []
  · rw [or_iff_right (not_not.mpr hne), or_iff_right (not_not.mpr hne)]
    cases hq : beforeFragment r with
    | nil => exact iff_of_true trivial fun _ => rfl
    | cons x q =>
      obtain ⟨r', rfl⟩ := beforeFragment_head hq
      have hx : pathChar x = false := by
        by_contra hno
        rw [List.takeWhile_cons_of_pos (by simpa using hno)] at hne
        cases hne
      by_cases hname : q.takeWhile queryChar = []
      · simp only [if_pos hname]
      · simp only [if_neg hname]
        exact (sameFirst_cons_iff (queryChar_of_not_pathChar hx) hname).symm
  · exact iff_of_true (Or.inl hne) (Or.inl hne)

theorem url_agrees_iff (behind : Str) (o : Origin) (r : Str) :
    Agrees behind o ('/' :: r) ↔ SamePath o r ∧ SameQueries r := by
  rw [sameQueries_iff]
  exact and_congr (pathParts_agree_iff behind o r) (queries_agree_iff behind o r)

/-- `http://h/a/b` -/
theorem first_part_lost : ¬Agrees [] ⟨lit "http", by decide, ['h'], by simp, none, by simp⟩
    (lit "/a/b") := by
  intro h
  have hparts := (pathParts_agree_iff [] _ (lit "a/b")).mp h.1
  rcases hparts with hnil | hslash
  · exact absurd hnil (by decide)
  · exact absurd (hslash 'a' (by decide)) (by decide)

end Virthttp
