import Virthttp.QueryKeys
import Virthttp.ServerResults

namespace Virthttp

def readKeys : List String :=
  ["active", "persistent", "managed_save", "autostart", "has_snapshot", "state", "options", "mac"]

/-- Two targets that the handlers cannot tell from each other. -/
structure SameReading (t t' : TargetParser) : Prop where
  pathParts : t'.pathParts = t.pathParts
  get : ∀ key ∈ readKeys, t'.get (lit key) = t.get (lit key)

section Reading

variable {t t' : TargetParser}

theorem SameReading.composableFlag (h : SameReading t t') (values : List String) {tag : String}
    (htag : tag ∈ readKeys) :
    targetGetComposableFlag values t' (lit tag) = targetGetComposableFlag values t (lit tag) := by
  rw [targetGetComposableFlag, h.get tag htag, targetGetComposableFlag]

theorem SameReading.boolFlags (h : SameReading t t')
    {flags : List (String × BitVec 32 × BitVec 32)} (hflags : ∀ f ∈ flags, f.1 ∈ readKeys) :
    boolFlags t' flags = boolFlags t flags := by
  unfold Virthttp.boolFlags
  apply List.foldl_ext
  intro acc f hf
  have hbool : t'.getBool (lit f.1) = t.getBool (lit f.1) := by
    rw [TargetParser.getBool, h.get f.1 (hflags f hf), TargetParser.getBool]
  rw [boolFlag, hbool, boolFlag]

theorem SameReading.resolver (h : SameReading t t') {key : Str} {sub : Subsystem}
    (hsub : namedCall subsystems key = some sub) (lv : Libvirt) (conn : Ptr) :
    sub.resolver.resolve lv conn t' = sub.resolver.resolve lv conn t := by
  have hflags : sub.resolver.searchAllFlags lv t' = sub.resolver.searchAllFlags lv t := by
    rcases subsystems_cases hsub with ⟨_, rfl⟩ | ⟨_, rfl⟩
    · change domainSearchAllFlags lv t' = domainSearchAllFlags lv t
      unfold domainSearchAllFlags
      rw [h.boolFlags (by decide), h.composableFlag _ (by decide)]
    · change networkSearchAllFlags t' = networkSearchAllFlags t
      rw [networkSearchAllFlags, h.boolFlags (by decide), networkSearchAllFlags]
  have hkey : sub.resolver.getSearchKey t' = sub.resolver.getSearchKey t := by
    simp only [Resolver.getSearchKey, h.pathParts]
  simp only [Resolver.resolve, hkey, hflags]

theorem SameReading.handlers (h : SameReading t t') {key : Str} {sub : Subsystem}
    (hsub : namedCall subsystems key = some sub) (lv : Libvirt) (conn : Ptr) :
    sub.handlers lv conn t' = sub.handlers lv conn t := by
  have hoptions (values : List String) : targetGetComposableFlag values t' (lit "options") =
      targetGetComposableFlag values t (lit "options") := h.composableFlag values (by decide)
  have hpart : t'.subqueryPart = t.subqueryPart := by
    rw [TargetParser.subqueryPart, h.pathParts, TargetParser.subqueryPart]
  rcases subsystems_cases hsub with ⟨_, rfl⟩ | ⟨_, rfl⟩
  · have hquery : DomainHandlers.query t' = DomainHandlers.query t := by
      funext jval
      simp only [DomainHandlers.query, DomainHandlers.subqueries, h.pathParts, hpart, hoptions]
    have hvacuum : DomainHandlers.vacuum t' = DomainHandlers.vacuum t := by
      funext jval
      rw [DomainHandlers.vacuum, hoptions, DomainHandlers.vacuum]
    change domainHandlers lv conn t' = domainHandlers lv conn t
    rw [domainHandlers, hquery, hvacuum, domainHandlers]
  · have hquery : NetworkHandlers.query t' = NetworkHandlers.query t := by
      funext jval
      simp only [NetworkHandlers.query, NetworkHandlers.queryInfo, NetworkHandlers.subqueries,
        h.pathParts, hpart, hoptions, h.get "mac" (by decide)]
    change networkHandlers lv conn t' = networkHandlers lv conn t
    rw [networkHandlers, hquery, networkHandlers]

/-- `handle_json` reads nothing of the query `async`. -/
theorem SameReading.handleJson (h : SameReading t t') (lib : Rapidjson) (lv : Libvirt)
    (config : IniConfig) (req : Request) :
    handleJson lib lv config req t' = handleJson lib lv config req t := by
  have hobject {key : Str} {sub : Subsystem} (hsub : namedCall subsystems key = some sub)
      (conn : Ptr) : object lib lv sub conn req t' = object lib lv sub conn req t := by
    have hexec (idx : Method) (jval : JVal) :
        execBody lv sub conn t' idx jval = execBody lv sub conn t idx jval := by
      simp only [execBody, h.handlers hsub lv conn]
    have hon (idx : Method) (jval : JVal) :
        execOn lv sub conn t' idx jval = execOn lv sub conn t idx jval := by
      funext v
      simp only [execOn, hexec]
    simp only [object, resolveFor, h.resolver hsub lv conn, hexec, hon]
  have hbody : handleJsonBody lib lv config req t' = handleJsonBody lib lv config req t := by
    unfold handleJsonBody
    rw [h.pathParts]
    split
    · rfl
    split
    · rfl
    · rfl
    · rename_i key _ _
      cases hsub : namedCall subsystems key with
      | none => rfl
      | some sub => simp only [hobject hsub]
  rw [Virthttp.handleJson, hbody, Virthttp.handleJson]

end Reading

def Request.asynchronous (req : Request) : Request :=
  { req with
    target := req.target ++ if '?' ∈ req.target then lit "&async=true" else lit "?async=true" }

/-- A target with nothing in it that HTTP excludes, which does not name `async` itself. -/
structure Request.Immediate (req : Request) : Prop where
  chars : ∀ c ∈ req.target, c ≠ '#' ∧ isSpace c = false
  unasked : (TargetParser.ofUrl req.target).get (lit "async") = none

theorem beforeFragment_of_no_hash {xs : Str} (h : '#' ∉ xs) : beforeFragment xs = xs := by
  apply Fields.upTo_eq_self
  intro y ys hsuf
  have hy : y ≠ '#' := by
    rintro rfl
    exact h (hsuf.subset List.mem_cons_self)
  simp [isFragment, hy]

theorem queryPairs_snoc (q : Str) : queryPairs (q ++ lit "&async=true") =
    queryPairs q ++ [(lit "async", lit "true")] := by
  have hsep : lit "&async=true" = '&' :: lit "async=true" := rfl
  rw [queryPairs, components, hsep, List.splitOnP_append_cons _ _ rfl, List.flatMap_append]
  rfl

section Target

variable {path q : Str}

/-- What is behind the question mark that ends the path -/
theorem queryText_placed (hhead : path.head? = some '/') (hpath : ∀ c ∈ path, pathChar c = true)
    (hlen : 2 ≤ path.length) (hq : '#' ∉ q) : queryText (path ++ '?' :: q) = q := by
  have hpathOf : pathOf (path ++ '?' :: q) = path := by
    rw [pathOf, List.head?_append, hhead, Option.some_or, if_pos rfl,
      List.takeWhile_append_of_pos hpath]
    simp [pathChar]
  have hdrop : (path ++ '?' :: q).dropWhile pathChar = '?' :: q := by
    rw [List.dropWhile_append_of_pos hpath]
    rfl
  have hhash : '#' ∉ '?' :: q := by simpa using hq
  rw [queryText, behindPath, hpathOf, if_pos hlen, hdrop, beforeFragment_of_no_hash hhash]
  rfl

/-- Nothing is behind a path alone. -/
theorem queryText_bare (hhead : path.head? = some '/') (hpath : ∀ c ∈ path, pathChar c = true)
    (hlen : 2 ≤ path.length) : queryText path = [] := by
  have hpathOf : pathOf path = path := by
    rw [pathOf, if_pos hhead, List.takeWhile_eq_self_iff.mpr hpath]
  rw [queryText, behindPath, hpathOf, if_pos hlen, List.dropWhile_eq_nil_iff.mpr hpath]
  rfl

end Target

namespace Request

variable {req : Request}

/-- Nothing is added to the path, behind a query or in front of one. -/
theorem asynchronous_path (hhead : req.target.head? = some '/') :
    pathOf req.asynchronous.target = pathOf req.target := by
  have hhead' : req.asynchronous.target.head? = some '/' := by
    rw [asynchronous, List.head?_append, hhead, Option.some_or]
  rw [pathOf, if_pos hhead', pathOf, if_pos hhead, asynchronous, List.takeWhile_append]
  split
  · rename_i hlen
    have hall : req.target.takeWhile pathChar = req.target :=
      (List.takeWhile_prefix pathChar).eq_of_length hlen
    have hmark : '?' ∉ req.target := fun h =>
      absurd (List.takeWhile_eq_self_iff.mp hall '?' h) (by decide)
    have hstop : (lit "?async=true").takeWhile pathChar = [] := by decide
    rw [if_neg hmark, hstop, List.append_nil, hall]
  · rfl

/-- Such a target is a path, and only a question mark ends it. -/
theorem target_cases (hhead : req.target.head? = some '/')
    (hchars : ∀ c ∈ req.target, c ≠ '#' ∧ isSpace c = false)
    (hlen : 2 ≤ (pathOf req.target).length) :
    ∃ path : Str, path.head? = some '/' ∧ (∀ c ∈ path, pathChar c = true) ∧ 2 ≤ path.length ∧
      (req.target = path ∨ ∃ q, '#' ∉ q ∧ req.target = path ++ '?' :: q) := by
  let path := req.target.takeWhile pathChar
  have hsplit : path ++ req.target.dropWhile pathChar = req.target :=
    List.takeWhile_append_dropWhile
  rw [pathOf, if_pos hhead] at hlen
  have hpathHead : path.head? = some '/' := by
    rw [← hsplit, List.head?_append] at hhead
    cases hp : path with
    | nil => simp [path, hp] at hlen
    | cons x xs =>
      rw [hp] at hhead
      simpa using hhead
  refine ⟨path, hpathHead, fun c hc => List.mem_takeWhile_imp hc, hlen, ?_⟩
  cases hrest : req.target.dropWhile pathChar with
  | nil =>
    rw [hrest, List.append_nil] at hsplit
    exact Or.inl hsplit.symm
  | cons x q =>
    rw [hrest] at hsplit
    have hmem {c : Char} (hc : c ∈ x :: q) : c ∈ req.target := by
      rw [← hsplit]
      exact List.mem_append_right path hc
    have hx : x = '?' := by
      have hstop := Fields.head_dropWhile pathChar req.target x (by rw [hrest]; rfl)
      obtain ⟨hhash, hspace⟩ := hchars x (hmem List.mem_cons_self)
      simpa [pathChar, hhash, hspace] using hstop
    subst hx
    exact Or.inr ⟨q, fun h => (hchars '#' (hmem (List.mem_cons_of_mem _ h))).1 rfl, hsplit.symm⟩

/-- The queries are followed by one more. -/
theorem asynchronous_queries (hhead : req.target.head? = some '/')
    (hchars : ∀ c ∈ req.target, c ≠ '#' ∧ isSpace c = false)
    (hlen : 2 ≤ (pathOf req.target).length) :
    queryPairs (queryText req.asynchronous.target) =
      queryPairs (queryText req.target) ++ [(lit "async", lit "true")] := by
  obtain ⟨path, hpathHead, hpath, hlen, htarget | ⟨q, hq, htarget⟩⟩ :=
    target_cases hhead hchars hlen
  · have hmark : '?' ∉ path := fun h => absurd (hpath '?' h) (by decide)
    have hq : '#' ∉ lit "async=true" := by decide
    have htext : path ++ lit "?async=true" = path ++ '?' :: lit "async=true" := rfl
    rw [asynchronous, htarget, if_neg hmark, htext, queryText_placed hpathHead hpath hlen hq,
      queryText_bare hpathHead hpath hlen]
    rfl
  · have hq' : '#' ∉ q ++ lit "&async=true" := by
      rw [List.mem_append, not_or]
      exact ⟨hq, by decide⟩
    rw [asynchronous, htarget, if_pos (by simp), List.append_assoc, List.cons_append,
      queryText_placed hpathHead hpath hlen hq, queryText_placed hpathHead hpath hlen hq',
      queryPairs_snoc]

/-- Handlers read the same, and `async` is heard. -/
theorem Immediate.reading (h : req.Immediate) (hhead : req.target.head? = some '/')
    (hlen : 2 ≤ (pathOf req.target).length) :
    let t := TargetParser.ofUrl req.target
    let t' := TargetParser.ofUrl req.asynchronous.target
    SameReading t t' ∧ t'.getBool (lit "async") = some true := by
  intro t t'
  have hget (name : Str) : t'.get name = (((queryPairs (queryText req.target)).find?
      (fun e => e.1 == name)).or ([(lit "async", lit "true")].find? (fun e => e.1 == name))).map
        Prod.snd := by
    rw [get_ofUrl, asynchronous_queries hhead h.chars hlen, List.find?_append]
  refine ⟨⟨?_, fun key hkey => ?_⟩, ?_⟩
  · rw [pathParts_ofUrl, asynchronous_path hhead, pathParts_ofUrl]
  · have hother : [(lit "async", lit "true")].find? (fun e => e.1 == lit key) = none := by
      simp only [readKeys, List.mem_cons, List.not_mem_nil, or_false] at hkey
      rcases hkey with rfl | rfl | rfl | rfl | rfl | rfl | rfl | rfl <;> rfl
    rw [hget, hother, Option.or_none, get_ofUrl]
  · have hunasked := h.unasked
    rw [get_ofUrl, Option.map_eq_none_iff] at hunasked
    have hvalue : t'.get (lit "async") = some (lit "true") := by
      rw [hget, hunasked]
      rfl
    rw [TargetParser.getBool, hvalue]
    rfl

end Request

theorem hasDoubleDot_of_no_dot {v : Str} (hv : '.' ∉ v) : hasDoubleDot v = false := by
  fun_induction hasDoubleDot v with
  | case1 xs => simp at hv
  | case2 x xs _ ih => exact ih fun h => hv (List.mem_cons_of_mem _ h)
  | case3 => rfl

theorem hasDoubleDot_append {v : Str} (hv : '.' ∉ v) (u : Str) :
    hasDoubleDot (u ++ v) = hasDoubleDot u := by
  fun_induction hasDoubleDot u with
  | case1 xs => rfl
  | case2 x xs hne ih =>
    rw [List.cons_append, hasDoubleDot, ih]
    intro tail hx htail
    cases xs with
    | nil => exact hv (by rw [← List.nil_append v, htail]; simp)
    | cons y ys =>
      obtain ⟨rfl, _⟩ := List.cons.inj htail
      exact hne ys hx rfl
  | case3 => exact hasDoubleDot_of_no_dot hv

theorem hasDoubleDot_asynchronous (req : Request) :
    hasDoubleDot req.asynchronous.target = hasDoubleDot req.target := by
  apply hasDoubleDot_append
  split <;> decide

structure Request.Legal (req : Request) : Prop where
  method : req.method ≠ .head
  supported : req.method ∈ supportedMethods
  absolute : req.target.head? = some '/'
  dots : hasDoubleDot req.target = false
  subsystem : ∃ front rest, (TargetParser.ofUrl req.target).pathParts = front :: rest ∧
    front ≠ lit "async"

theorem legal_of_route {req : Request} {target : TargetParser}
    (h : routeOf req = .launch target ∨ routeOf req = .json target) : req.Legal := by
  suffices hlegal : ∀ t, t = TargetParser.ofUrl req.target → req.method ≠ .head ∧
      req.method ∈ supportedMethods ∧ req.target.head? = some '/' ∧
        hasDoubleDot req.target = false ∧ ∃ front rest, t.pathParts = front :: rest ∧
          front ≠ lit "async" by
    obtain ⟨hmethod, hsupported, habsolute, hdots, hsubsystem⟩ := hlegal _ rfl
    exact ⟨hmethod, hsupported, habsolute, hdots, hsubsystem⟩
  intro t ht
  unfold routeOf at h
  rw [← ht] at h
  clear ht
  split at h
  · rcases h with h | h <;> cases h
  rename_i hhead
  split at h
  · rcases h with h | h <;> cases h
  rename_i hmethod
  split at h
  · rcases h with h | h <;> cases h
  rename_i hlegal
  rw [not_or, not_not, Bool.not_eq_true] at hlegal
  dsimp only at h
  split at h
  · rcases h with h | h <;> cases h
  rename_i front rest hparts
  split at h
  · split at h
    · split at h <;> rcases h with h | h <;> cases h
    · rcases h with h | h <;> cases h
  rename_i hfront
  exact ⟨hhead, not_not.mp hmethod, hlegal.1, hlegal.2, front, rest, hparts, hfront⟩

namespace Request

variable {req : Request}

theorem Legal.route (h : req.Legal) : routeOf req =
    let target := TargetParser.ofUrl req.target
    if target.getBool (lit "async") = some true then .launch target else .json target := by
  obtain ⟨front, rest, hparts, hfront⟩ := h.subsystem
  have hlegal : ¬(req.target.head? ≠ some '/' ∨ hasDoubleDot req.target = true) := by
    simp [h.absolute, h.dots]
  simp only [routeOf, if_neg h.method, not_not.mpr h.supported, if_neg hlegal, if_false, hparts,
    if_neg hfront]

/-- There is a path in front of the queries. -/
theorem Legal.path_length (h : req.Legal) : 2 ≤ (pathOf req.target).length := by
  obtain ⟨front, rest, hparts, _⟩ := h.subsystem
  have hhead := h.absolute
  rw [pathParts_ofUrl] at hparts
  cases htarget : req.target with
  | nil => simp [htarget] at hhead
  | cons x xs =>
    obtain rfl : x = '/' := by simpa [htarget] using hhead
    have hpath : pathOf ('/' :: xs) = '/' :: xs.takeWhile pathChar := rfl
    rw [htarget, hpath, segments_cons_slash] at hparts
    rw [hpath]
    cases hxs : xs.takeWhile pathChar with
    | nil => simp [hxs, segments] at hparts
    | cons y ys => simp

theorem absolute_asynchronous :
    req.asynchronous.target.head? = some '/' ↔ req.target.head? = some '/' := by
  rw [asynchronous]
  cases htarget : req.target with
  | nil => exact iff_of_false (fun h => absurd (Option.some.inj h) (by decide)) (by simp)
  | cons x xs => rfl

theorem legal_asynchronous : req.asynchronous.Legal ↔ req.Legal := by
  have hparts (habsolute : req.target.head? = some '/') :
      (TargetParser.ofUrl req.asynchronous.target).pathParts =
        (TargetParser.ofUrl req.target).pathParts := by
    rw [pathParts_ofUrl, asynchronous_path habsolute, pathParts_ofUrl]
  constructor
  · intro h
    have habsolute := absolute_asynchronous.mp h.absolute
    refine ⟨h.method, h.supported, habsolute, ?_, ?_⟩
    · rw [← hasDoubleDot_asynchronous]
      exact h.dots
    · rw [← hparts habsolute]
      exact h.subsystem
  · intro h
    refine ⟨h.method, h.supported, absolute_asynchronous.mpr h.absolute, ?_, ?_⟩
    · rw [hasDoubleDot_asynchronous]
      exact h.dots
    · rw [hparts h.absolute]
      exact h.subsystem

/-- `async` is all that makes the difference between the two exits. -/
theorem Immediate.route (h : req.Immediate) :
    (routeOf req.asynchronous = .launch (.ofUrl req.asynchronous.target) ↔
      routeOf req = .json (.ofUrl req.target)) ∧
    ∀ target, routeOf req.asynchronous = .launch target →
      routeOf req = .json (.ofUrl req.target) ∧ SameReading (.ofUrl req.target) target := by
  have hjson (hlegal : req.Legal) : routeOf req = .json (.ofUrl req.target) := by
    have hasync : (TargetParser.ofUrl req.target).getBool (lit "async") = none := by
      rw [TargetParser.getBool, h.unasked]
    rw [hlegal.route]
    simp only [hasync, reduceCtorEq, if_false]
  have hlaunch (hlegal : req.Legal) :
      routeOf req.asynchronous = .launch (.ofUrl req.asynchronous.target) := by
    rw [(legal_asynchronous.mpr hlegal).route]
    exact if_pos (h.reading hlegal.absolute hlegal.path_length).2
  refine ⟨⟨fun hroute => ?_, fun hroute => ?_⟩, fun target hroute => ?_⟩
  · exact hjson (legal_asynchronous.mp (legal_of_route (Or.inl hroute)))
  · exact hlaunch (legal_of_route (Or.inr hroute))
  · have hlegal := legal_asynchronous.mp (legal_of_route (Or.inl hroute))
    have htarget : target = .ofUrl req.asynchronous.target := by
      rw [hlaunch hlegal] at hroute
      cases hroute
      rfl
    rw [htarget]
    exact ⟨hjson hlegal, (h.reading hlegal.absolute hlegal.path_length).1⟩

end Request

def answeredAtOnce (libs : Libraries) (req : Request) (text : Str) : Response :=
  let res := handleCompression libs req.fields (jsonResponse libs req 200 (cstr text))
  { res with contentLength := res.body.length }

theorem Request.Immediate.served {req : Request} (h : req.Immediate) {target : TargetParser}
    (hroute : routeOf req.asynchronous = .launch target) (libs : Libraries) (config : IniConfig)
    (lv : Libvirt) (rt : Runtime 32 Job) {text : Str}
    (htext : workerResult libs lv config ⟨req.asynchronous, target⟩ = .ok text) :
    let served := handleRequest libs lv true ⟨config, rt⟩ req
    served.sent = [answeredAtOnce libs req text] ∧
      served.calls = workerCalls libs lv config ⟨req.asynchronous, target⟩ := by
  obtain ⟨hjson, hsame⟩ := h.route.2 target hroute
  have hworker : Virthttp.handleJson libs.rapidjson lv config req.asynchronous target =
      Virthttp.handleJson libs.rapidjson lv config req (.ofUrl req.target) :=
    hsame.handleJson libs.rapidjson lv config req
  rw [workerResult, hworker] at htext
  rw [workerCalls, hworker]
  simp only [handleRequest, hjson, serveJson]
  generalize Virthttp.handleJson libs.rapidjson lv config req (.ofUrl req.target) = run at htext ⊢
  obtain ⟨e | ⟨⟩, s⟩ := run
  · cases htext
  · cases htext
    exact ⟨rfl, rfl⟩

/-- A request that `handle_json` answers at once is answered by a worker when `async` is added to
it, and the text of every retrieval that is answered with 302 is the one that the request without
`async` would have been answered with, by the libvirt that the worker has asked, and for which it
would have asked the same. -/
theorem async_agrees_with_sync (libs : Libraries) (config : IniConfig) (as : List ServerAction)
    (es : List ServerEvent) (sv : Server) (h : serverRun libs config as = some (es, sv)) :
    (∀ now : Request, now.Immediate →
      (routeOf now.asynchronous = .launch (.ofUrl now.asynchronous.target) ↔
        routeOf now = .json (.ofUrl now.target))) ∧
    ∀ pre i req sent calls stored post res,
      es = pre ++ .received i req sent calls stored :: post → res ∈ sent → res.status = 302 →
      ∃ strId t j job before lv, routeOf req = .retrieve strId ∧
        .enqueued j job
          [jsonResponse libs job.req.movedFrom 200 (hexEncodeId (hexDecodeId strId))]
          (.launched t (hexDecodeId strId) before) ∈ pre ∧
        .computed t (workerCalls libs lv config job) [.computed t (.ok res.body)] ∈ pre ∧
        ∀ now : Request, now.Immediate → now.asynchronous = job.req → ∀ rt,
          let served := handleRequest libs lv true ⟨config, rt⟩ now
          served.sent = [answeredAtOnce libs now res.body] ∧
            served.calls = workerCalls libs lv config job := by
  refine ⟨fun now hnow => hnow.route.1, ?_⟩
  rintro pre i req sent calls stored post res rfl hmem hstatus
  obtain ⟨strId, t, j, job, before, lv, hroute, _, hpassed, henqueued, _, hresult, hcomputed⟩ :=
    retrieval_origin h hmem hstatus
  refine ⟨strId, t, j, job, before, lv, hroute, henqueued, hcomputed, ?_⟩
  rintro now hnow hreq rt
  obtain ⟨_, target⟩ := job
  obtain rfl := hreq
  exact hnow.served hpassed.1 libs config lv rt hresult

def undefineNow : Request := ⟨.delete, lit "/libvirt/domains/by-name/vm", 11, [], []⟩

theorem async_agrees_with_sync_one :
    ∃ es sv, launchAndTake = some (es, sv) ∧ undefineNow.Immediate ∧ ∃ lv,
      (handleRequest plainLibs lv true ⟨openConfig, Runtime.empty 32 Job⟩ undefineNow).sent =
        [answeredAtOnce plainLibs undefineNow (lit "done")] := by
  have hchars : undefineNow.target.all (fun c => c != '#' && !isSpace c) = true := by decide
  have himmediate : undefineNow.Immediate := ⟨by simpa using hchars, by rw [get_ofUrl]; decide⟩
  have hagrees := (async_agrees_with_sync plainLibs openConfig (startWorker ++ [.wrote 0 true,
      .compute 0 obliging, .housekeep 0 5, .publish 0,
      .read 0 (.request ⟨.get, lit "/async/0", 11, [], []⟩) obliging]) ?es ?sv ?hrun).2
    (List.take 7 ?es) ?i ?req ?sent ?calls ?stored [] ?res ?heq ?hmem ?hstatus
  case hrun => rfl
  case heq => rfl
  case hmem => exact List.mem_singleton_self _
  case hstatus => rfl
  obtain ⟨strId, t, j, job, before, lv, hroute, henqueued, _, hnow⟩ := hagrees
  have hjob : job.req = undefineNow.asynchronous := by
    simp only [List.take_succ_cons, List.take_zero, List.mem_cons, List.not_mem_nil, or_false,
      false_or, reduceCtorEq] at henqueued
    injection henqueued with _ hjob
    rw [hjob]
    rfl
  exact ⟨_, _, rfl, himmediate, lv, (hnow undefineNow himmediate hjob.symm _).1⟩

end Virthttp
