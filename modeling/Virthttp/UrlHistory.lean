import Virthttp.AbsoluteUrl

/-! `setURL` on a parser that has been used before. The path parts are appended to those of the
urls before, and a port is only written where the url has one. -/
namespace Virthttp

theorem segments_keptPath (url : Str) : segments (keptPath url) = segments (pathOf url) := by
  have hparts := pathParts_ofUrl url
  rw [TargetParser.ofUrl, parse_eq] at hparts
  exact hparts

theorem foldl_setURL_pathParts (us : List Str) (t : TargetParser) :
    (us.foldl TargetParser.setURL t).pathParts =
      t.pathParts ++ us.flatMap (fun u => segments (pathOf u)) := by
  induction us generalizing t with
  | nil => simp
  | cons u us ih =>
    have hstep : (t.setURL u).pathParts = t.pathParts ++ segments (pathOf u) := by
      rw [TargetParser.setURL, parse_eq, ← segments_keptPath]
    rw [List.foldl_cons, ih, hstep, List.flatMap_cons, List.append_assoc]

/-- Only the path parts depend on what a parser has been used for. -/
theorem setURL_eq_iff (t t' : TargetParser) (u : Str) :
    t.setURL u = t'.setURL u ↔ t.pathParts = t'.pathParts := by
  rw [TargetParser.setURL, TargetParser.setURL, parse_eq, parse_eq]
  constructor
  · intro h
    exact List.append_cancel_right (congrArg TargetParser.pathParts h)
  · intro h
    simp only [h]

def TargetHistoryFree (us : List Str) (u : Str) : Prop :=
  (us ++ [u]).foldl TargetParser.setURL TargetParser.init = TargetParser.ofUrl u

theorem targetHistoryFree_iff (us : List Str) (u : Str) :
    TargetHistoryFree us u ↔ ∀ v ∈ us, segments (pathOf v) = [] := by
  have hfresh : TargetParser.ofUrl u = TargetParser.init.setURL u := rfl
  rw [TargetHistoryFree, List.foldl_append, hfresh]
  simp only [List.foldl_cons, List.foldl_nil]
  rw [setURL_eq_iff, foldl_setURL_pathParts]
  exact List.flatMap_eq_nil_iff

/-- A url and what follows it in memory. -/
structure UrlView where
  url : Str
  behind : Str

def absoluteSegments (url : Str) : List Str :=
  segments ((urlParts url).path.dropWhile (· != '/'))

def portWritten (u : UrlView) : Option (BitVec 16) :=
  (urlParts u.url).port.map (fun ds => readPort (ds ++ behindAuthority u.url ++ u.behind))

def URLParser.set (t : URLParser) (u : UrlView) : URLParser := URLParser.setURL u.behind t u.url

theorem set_eq (t : URLParser) (u : UrlView) : t.set u =
    { path := (urlParts u.url).path
      url := u.url
      pathParts := t.pathParts ++ absoluteSegments u.url
      queries := queriesOf ((urlParts u.url).query.drop 1)
      scheme := (urlParts u.url).scheme
      host := (urlParts u.url).host
      port := (portWritten u).getD t.port } := by
  rw [URLParser.set, URLParser.setURL, parseAll_eq, portWritten, absoluteSegments]
  cases (urlParts u.url).port <;> rfl

theorem foldl_set_pathParts (us : List UrlView) (t : URLParser) :
    (us.foldl URLParser.set t).pathParts =
      t.pathParts ++ us.flatMap (fun u => absoluteSegments u.url) := by
  induction us generalizing t with
  | nil => simp
  | cons u us ih => rw [List.foldl_cons, ih, set_eq, List.flatMap_cons, List.append_assoc]

/-- The port is that of the last url that has one. -/
theorem foldl_set_port (us : List UrlView) (t : URLParser) :
    (us.foldl URLParser.set t).port = (us.reverse.findSome? portWritten).getD t.port := by
  induction us generalizing t with
  | nil => rfl
  | cons u us ih =>
    rw [List.foldl_cons, ih, set_eq, List.reverse_cons, List.findSome?_append,
      List.findSome?_singleton]
    cases us.reverse.findSome? portWritten <;> rfl

theorem set_eq_iff (t t' : URLParser) (u : UrlView) : t.set u = t'.set u ↔
    t.pathParts = t'.pathParts ∧ ((urlParts u.url).port = none → t.port = t'.port) := by
  have hport : (portWritten u).getD t.port = (portWritten u).getD t'.port ↔
      ((urlParts u.url).port = none → t.port = t'.port) := by
    rw [portWritten]
    cases (urlParts u.url).port <;> simp
  rw [set_eq, set_eq]
  constructor
  · intro h
    have hparts := congrArg (fun p => p.toTargetParser.pathParts) h
    exact ⟨List.append_cancel_right hparts, hport.mp (congrArg URLParser.port h)⟩
  · intro h
    obtain ⟨hparts, hp⟩ := h
    simp only [hparts, hport.mpr hp]

/-- Setting the urls in turn leaves what the constructor makes of the last one. -/
def UrlHistoryFree (us : List UrlView) (u : UrlView) : Prop :=
  (us ++ [u]).foldl URLParser.set URLParser.init = URLParser.ofUrl u.behind u.url

theorem urlHistoryFree_iff (us : List UrlView) (u : UrlView) : UrlHistoryFree us u ↔
    (∀ v ∈ us, absoluteSegments v.url = []) ∧ ((urlParts u.url).port = none →
      ∀ p, us.reverse.findSome? portWritten = some p → p = 0) := by
  have hfresh : URLParser.ofUrl u.behind u.url = URLParser.init.set u := rfl
  rw [UrlHistoryFree, List.foldl_append, hfresh]
  simp only [List.foldl_cons, List.foldl_nil]
  rw [set_eq_iff, foldl_set_pathParts, foldl_set_port]
  apply and_congr
  · exact List.flatMap_eq_nil_iff
  · apply imp_congr_right
    intro _
    cases us.reverse.findSome? portWritten with
    | none => simp
    | some p => simp [URLParser.init]

/-- What a parser has been used for shows in its path parts, and in the port of a url without
one. -/
theorem set_url_history_iff (us : List Str) (u : Str) (vs : List UrlView) (v : UrlView) :
    (TargetHistoryFree us u ↔ ∀ w ∈ us, segments (pathOf w) = []) ∧
    (UrlHistoryFree vs v ↔ (∀ w ∈ vs, absoluteSegments w.url = []) ∧
      ((urlParts v.url).port = none → ∀ p, vs.reverse.findSome? portWritten = some p → p = 0)) ∧
    (∀ t : TargetParser, (t.setURL u).setURL u = t.setURL u ↔ segments (pathOf u) = []) ∧
    ∀ t : URLParser, (t.set v).set v = t.set v ↔ absoluteSegments v.url = [] := by
  refine ⟨targetHistoryFree_iff us u, urlHistoryFree_iff vs v, ?_, ?_⟩
  · intro t
    have hparts : (t.setURL u).pathParts = t.pathParts ++ segments (pathOf u) := by
      simpa using foldl_setURL_pathParts [u] t
    rw [setURL_eq_iff, hparts]
    exact List.append_right_eq_self
  · intro t
    have hport : (urlParts v.url).port = none → (t.set v).port = t.port := by
      intro hnone
      rw [set_eq, portWritten, hnone]
      rfl
    have hparts : (t.set v).pathParts = t.pathParts ++ absoluteSegments v.url := by
      rw [set_eq]
    rw [set_eq_iff, hparts, List.append_right_eq_self]
    exact and_iff_left hport

/-- `/a` and then `/b`, and `http://h:80/` and then `http://h/` -/
theorem path_parts_and_port_stay :
    ¬TargetHistoryFree [lit "/a"] (lit "/b") ∧
      ¬UrlHistoryFree [⟨lit "http://h:80/", []⟩] ⟨lit "http://h/", []⟩ := by
  rw [targetHistoryFree_iff, urlHistoryFree_iff]
  constructor
  · decide
  · intro h
    have hport := h.2 (by decide) 80 (by decide)
    exact absurd hport (by decide)

end Virthttp
