import Virthttp.ActionStops
import Virthttp.Authentication
import Virthttp.ReachedActions

namespace Virthttp

open Program Interaction

/-- One response has been sent, its status is a final one, and nothing was thrown. -/
structure Delivers (served : Served) : Prop where
  sent : ∃ res, served.sent = [res] ∧ 200 ≤ res.status
  ending : served.ending = .returned

def Exchange.Listing (e : Exchange) : Prop := e.listed? ≠ some none

/-- Libvirt answers each listing, its answers to a query can be turned into JSON, and none of the
actions that the handler is called with stops it, in the session in which it is called. -/
structure Unstopped (lib : Rapidjson) (lv : Libvirt) (config : IniConfig) (req : Request)
    (target : TargetParser) (s : Session) : Prop where
  listed : req.method ≠ .post → ∀ e ∈ s.calls, e.Listing
  presented : req.method = .get → ∀ e ∈ s.calls, e.presentable = true
  altered : req.method = .patch → ∀ key x s', AltersIn lib lv config req target key x s' →
    alterStops lv s'.calls s'.obj key x = false

theorem listing_of_asksLastError {e : Exchange} (h : AsksLastError e) :
    e.Listing ∧ e.presentable = true := by
  obtain ⟨c, a⟩ := e
  rcases h with rfl | rfl <;> exact ⟨by simp [Exchange.Listing, Exchange.listed?], rfl⟩

theorem listing_of_onObject {e : Exchange} (h : e.onObject = true) : e.Listing := by
  obtain ⟨c, a⟩ := e
  cases c <;> first | simp [Exchange.Listing, Exchange.listed?]; done | cases h

theorem listing_of_connectOpen {e : Exchange} {uri : Str} (h : e.call = .connectOpen uri) :
    e.Listing ∧ e.presentable = true := by
  obtain ⟨c, a⟩ := e
  subst h
  exact ⟨by simp [Exchange.Listing, Exchange.listed?], rfl⟩

theorem listing_of_lookup? {e : Exchange} {a : Option Ptr} (h : e.lookup? = some a) :
    e.Listing ∧ e.presentable = true := by
  obtain ⟨c, a⟩ := e
  cases c <;> first | (cases h; done) | exact ⟨by simp [Exchange.Listing, Exchange.listed?], rfl⟩

theorem presentable_of_listed? {e : Exchange} {a : Option (List Ptr)} (h : e.listed? = some a) :
    e.presentable = true := by
  obtain ⟨c, a⟩ := e
  cases c <;> first | rfl | cases h

/-- The calls of a handler are as good as its operations. -/
theorem Tracks.calls_good {s s' : Session} {h : Log HandlerOp.Ret} (ht : Tracks s h s') :
    ∃ l, s'.calls = s.calls ++ l ∧ (∀ e ∈ l, e.Listing) ∧
      ((∀ e ∈ l, e.presentable = true) ↔ Presentable h) := by
  obtain ⟨l, hl, hfilter, hl'⟩ := ht.calls
  refine ⟨l, hl, fun e he => ?_, ?_⟩
  · exact (hl' e he).elim listing_of_onObject fun hask => (listing_of_asksLastError hask).1
  · rw [← presentable_exchanges s.obj, ← hfilter]
    constructor
    · exact fun hall e he => hall e (List.mem_filter.mp he).1
    · intro hall e he
      rcases hl' e he with hon | hask
      · exact hall e (List.mem_filter.mpr ⟨he, hon⟩)
      · exact (listing_of_asksLastError hask).2

def GoodAnswers (method : Verb) (s : Session) : Prop :=
  (method ≠ .post → ∀ e ∈ s.calls, e.Listing) ∧
    (method = .get → ∀ e ∈ s.calls, e.presentable = true)

/-- Calls that are good are added. -/
theorem GoodAnswers.append {method : Verb} {s s' : Session} {l : List Exchange}
    (h : GoodAnswers method s) (hl : s'.calls = s.calls ++ l) (hlist : ∀ e ∈ l, e.Listing)
    (hpres : method = .get → ∀ e ∈ l, e.presentable = true) : GoodAnswers method s' := by
  refine ⟨fun hm e he => ?_, fun hm e he => ?_⟩
  · rw [hl] at he
    exact (List.mem_append.mp he).elim (h.1 hm e) (hlist e)
  · rw [hl] at he
    exact (List.mem_append.mp he).elim (h.2 hm e) (hpres hm e)

theorem GoodAnswers.errored {method : Verb} {code : ℤ} {s s' : Session}
    (h : GoodAnswers method s) (he : Errored code s s') : GoodAnswers method s' := by
  obtain ⟨l, hl, hask⟩ := he.calls
  exact h.append hl (fun e he => (listing_of_asksLastError (hask e he)).1)
    (fun _ e he => (listing_of_asksLastError (hask e he)).2)

theorem GoodAnswers.tracks {method : Verb} {s s' : Session} {h : Log HandlerOp.Ret}
    (hgood : GoodAnswers method s) (ht : Tracks s h s')
    (hpres : method = .get → Presentable h) : GoodAnswers method s' := by
  obtain ⟨l, hl, hlist, hiff⟩ := ht.calls_good
  exact hgood.append hl hlist fun hm => hiff.mpr (hpres hm)

/-- A handler that is not called with an action stops only for an answer to a query that cannot be
turned into JSON. -/
theorem methods_stop {key : Str} {sub : Subsystem} (hsub : namedCall subsystems key = some sub)
    (lv : Libvirt) (conn : Ptr) (target : TargetParser) {method : Verb} {idx : Method}
    (hidx : verbToIdx method = some idx) (x : JVal) {s : Session} (hgood : GoodAnswers method s) :
    Holds ((sub.handlers lv conn target).methods lv idx x) s
      (fun _ s' => GoodAnswers method s')
      (fun _ s' => ¬GoodAnswers method s' ∨ method = .patch) := by
  have hcreate {p : M DependsOutcome} (hp : Creates p) (hmethod : method = .post) :
      Holds p s (fun _ s' => GoodAnswers method s')
        (fun _ s' => ¬GoodAnswers method s' ∨ method = .patch) := by
    refine (hp s).mono (fun _ _ h => ⟨fun hne => absurd hmethod hne, ?_⟩)
      (fun _ _ hf => hf.elim)
    rintro rfl
    cases hmethod
  have hquery {p : Act DependsOutcome} {T : DependsOutcome → Log HandlerOp.Ret → Prop}
      (hp : Spec p [] (fun h o => Presentable h ∧ T o h) (fun h _ => ¬Presentable h))
      (hmethod : method = .get) :
      Holds (p.run lv) s (fun _ s' => GoodAnswers method s')
        (fun _ s' => ¬GoodAnswers method s' ∨ method = .patch) := by
    refine (Act.run_holds hp lv s).mono ?_ ?_
    · rintro o s' ⟨h, ht, hpres, _⟩
      exact hgood.tracks ht fun _ => hpres
    · rintro e s' ⟨rfl, h, ht, hpres⟩
      refine Or.inl fun hgood' => hpres ?_
      obtain ⟨l, hl, _, hiff⟩ := ht.calls_good
      refine hiff.mp fun e he => hgood'.2 hmethod e ?_
      rw [hl]
      exact List.mem_append_right _ he
  have hother {p : Act DependsOutcome} {P : Prop}
      (hp : Spec p [] (fun _ _ => True) (fun _ _ => P)) (hmethod : method ≠ .get)
      (hP : P → method = .patch) :
      Holds (p.run lv) s (fun _ s' => GoodAnswers method s')
        (fun _ s' => ¬GoodAnswers method s' ∨ method = .patch) := by
    refine (Act.run_holds hp lv s).mono ?_ ?_
    · rintro o s' ⟨h, ht, _⟩
      exact hgood.tracks ht fun hget => absurd hget hmethod
    · rintro e s' ⟨rfl, h, ht, hp⟩
      exact Or.inr (hP hp)
  have halter (p : Act DependsOutcome) (hmethod : method = .patch) :
      Holds (p.run lv) s (fun _ s' => GoodAnswers method s')
        (fun _ s' => ¬GoodAnswers method s' ∨ method = .patch) :=
    hother (spec_trivial p []) (by simp [hmethod]) fun _ => hmethod
  rcases subsystems_cases hsub with ⟨rfl, rfl⟩ | ⟨rfl, rfl⟩
  · cases method <;> cases hidx
    · exact hquery (DomainHandlers.query_spec target x) rfl
    · exact hcreate (DomainHandlers.create_creates lv conn x) rfl
    · exact halter _ rfl
    · exact hother ((DomainHandlers.vacuum_spec target x).mono (fun _ _ _ => trivial)
        (fun _ _ hE => hE)) (by simp) False.elim
  · cases method <;> cases hidx
    · exact hquery (NetworkHandlers.query_spec target x) rfl
    · exact hcreate (NetworkHandlers.create_creates lv conn x) rfl
    · exact halter _ rfl
    · exact hother ((NetworkHandlers.vacuum_spec x).mono (fun _ _ _ => trivial)
        (fun _ _ hE => hE)) (by simp) False.elim

/-- The body is dispatched to the end, unless a handler stops. -/
theorem execBody_stops {key : Str} {sub : Subsystem} (hsub : namedCall subsystems key = some sub)
    (lv : Libvirt) (conn : Ptr) (target : TargetParser) {method : Verb} {idx : Method}
    (hidx : verbToIdx method = some idx) (body : JVal) {s : Session}
    (hgood : GoodAnswers method s) :
    Holds (execBody lv sub conn target idx body) s (fun _ s' => GoodAnswers method s')
      (fun _ s' => ¬GoodAnswers method s' ∨ method = .patch) := by
  refine JDispatch.exec_holds (I := GoodAnswers method) (fun _ _ _ hs he => hs.errored he)
    (fun x _ s hs => ?_) s hgood
  have hgood' : GoodAnswers method { s with invoked := s.invoked ++ [(s.obj, x)] } := hs
  exact invoke_holds (methods_stop hsub lv conn target hidx x hgood')

/-- Nothing is wrong with the answers that come before the body is dispatched. -/
theorem GoodAnswers.opened (method : Verb) (config : IniConfig) (conn : Ptr) :
    GoodAnswers method (Session.opened config conn) := by
  refine ⟨fun _ e he => ?_, fun _ e he => ?_⟩
  · rw [List.mem_singleton.mp he]
    exact (listing_of_connectOpen rfl).1
  · rw [List.mem_singleton.mp he]
    exact (listing_of_connectOpen rfl).2

theorem GoodAnswers.asked {method : Verb} {s : Session} {e : Exchange}
    (hs : GoodAnswers method s) (hlist : e.Listing) (hpres : e.presentable = true) :
    GoodAnswers method (s.asked e) :=
  hs.append rfl (by simpa using hlist) (fun _ => by simpa using hpres)

/-- The objects are resolved, unless their listing fails. -/
theorem resolveFor_stops {req : Request} {key : Str} {sub : Subsystem}
    (hsub : namedCall subsystems key = some sub) (lv : Libvirt) (conn : Ptr)
    (target : TargetParser) {s : Session} (hs : GoodAnswers req.method s) :
    Holds (resolveFor lv sub conn req target) s (fun _ s' => GoodAnswers req.method s')
      (fun _ s' => ¬GoodAnswers req.method s') := by
  obtain ⟨byName, byUUID, hr⟩ := resolver_resolves hsub
  unfold resolveFor
  split
  · exact hs
  · rename_i hpost
    refine (resolve_holds hr lv conn target _).mono ?_ ?_
    · intro objs s' hres
      cases hres with
      | found e p hcall hp =>
        exact hs.asked (listing_of_lookup? hp).1 (listing_of_lookup? hp).2
      | listed e objs hlen hlist =>
        exact hs.asked (by simp [Exchange.Listing, hlist]) (presentable_of_listed? hlist)
      | refused s' hsame hfail hcalls =>
        obtain ⟨l, hl, hl'⟩ := hcalls
        have hgood (e : Exchange) (he : e ∈ l) : e.Listing ∧ e.presentable = true :=
          (hl' e he).elim listing_of_asksLastError fun h => listing_of_lookup? h.1
        exact hs.append hl (fun e he => (hgood e he).1) (fun _ e he => (hgood e he).2)
    · rintro err s' ⟨_, e, hlist, rfl, _⟩ hgood
      exact hgood.1 hpost e (by simp [Session.asked]) hlist

/-- A body is handled to the end, unless an answer or an action stops it. -/
theorem handleJsonBody_ends (lib : Rapidjson) (lv : Libvirt) (config : IniConfig) (req : Request)
    (target : TargetParser) :
    Holds (handleJsonBody lib lv config req target) Session.init
      (fun _ s' => GoodAnswers req.method s')
      (fun _ s' => ¬GoodAnswers req.method s' ∨ req.method = .patch) := by
  refine handleJsonBody_holds ?_ ?_
  · intro calls code s' hcalls he
    refine GoodAnswers.errored ⟨fun _ e h => ?_, fun _ e h => ?_⟩ he
    · obtain ⟨uri, hopen⟩ := hcalls e h
      exact (listing_of_connectOpen hopen).1
    · obtain ⟨uri, hopen⟩ := hcalls e h
      exact (listing_of_connectOpen hopen).2
  · intro front key rest conn sub hparts hsub
    unfold object
    rw [holds_bind]
    refine (resolveFor_stops hsub lv conn target (GoodAnswers.opened _ config conn)).mono ?_
      (fun _ _ h => Or.inl h)
    intro objs s hgood
    rw [holds_bind, holds_modify]
    have hgood' : GoodAnswers req.method { s with resolved := objs } := hgood
    split
    · exact (error_holds lv 3 _).mono (fun _ s' he => GoodAnswers.errored hgood' he)
        (fun _ _ hf => hf.elim)
    · rename_i idx hidx
      split
      · exact execBody_stops hsub lv conn target hidx _ hgood'
      · refine holds_forEach_mem (fun v _ s hs => ?_) hgood'
        unfold execOn
        rw [holds_bind, holds_modify]
        have hobj : GoodAnswers req.method { s with obj := some v } := hs
        exact execBody_stops hsub lv conn target hidx _ hobj

/-- The handler stops for an action that a PATCH request comes to. -/
theorem stops_of_altersIn {lib : Rapidjson} {lv : Libvirt} {config : IniConfig} {req : Request}
    {target : TargetParser} (hpatch : req.method = .patch) {key : Str} {x : JVal} {s : Session}
    (halters : AltersIn lib lv config req target key x s)
    (hstop : alterStops lv s.calls s.obj key x = true) :
    Stops (handleJsonBody lib lv config req target) Session.init := by
  obtain ⟨conn, sub, objs, s₀, hdispatched, hresolved, hcall⟩ := halters
  refine stops_handleJsonBody.mpr ⟨conn, key, sub, hdispatched, ?_⟩
  refine (stops_object hpatch).mpr (Or.inr ⟨objs, s₀, x, s, hresolved, hcall, ?_⟩)
  exact (methods_alter_stops hdispatched.subsystem lv conn target x _).mpr hstop

/-- A body is handled to the end exactly if nothing stops it. -/
theorem handleJson_ok_iff (lib : Rapidjson) (lv : Libvirt) (config : IniConfig) (req : Request)
    (target : TargetParser) : (handleJson lib lv config req target).1 = .ok () ↔
      Unstopped lib lv config req target (handleJson lib lv config req target).2 := by
  obtain ⟨hok, herr⟩ := holds_iff_run.mp (handleJsonBody_ends lib lv config req target)
  have hrun {outcome : Except Stop Unit} (h : (handleJson lib lv config req target).1 = outcome) :
      handleJsonBody lib lv config req target Session.init =
        (outcome, (handleJson lib lv config req target).2) := Prod.ext h rfl
  constructor
  · intro h
    have hend := hrun h
    have hgood := hok () _ hend
    refine ⟨hgood.1, hgood.2, fun hpatch key x s' halters => ?_⟩
    by_contra hstop
    obtain ⟨e, s'', herror⟩ := stops_of_altersIn hpatch halters (by simpa using hstop)
    rw [hend] at herror
    cases herror
  · intro hun
    cases hend : (handleJson lib lv config req target).1 with
    | ok _ => rfl
    | error e =>
      exfalso
      have herror := hrun hend
      have hgood : GoodAnswers req.method (handleJson lib lv config req target).2 :=
        ⟨hun.listed, hun.presented⟩
      have hpatch := (herr e _ herror).resolve_left (not_not.mpr hgood)
      obtain ⟨conn, key, sub, hdispatched, hstop⟩ := stops_handleJsonBody.mp ⟨e, _, herror⟩
      rcases (stops_object hpatch).mp hstop with ⟨e', s', hres⟩ |
        ⟨objs, s₀, x, s', hresolved, hcall, hx⟩
      · have hfail := (holds_iff_run.mp (resolveFor_stops hdispatched.subsystem lv conn target
          (GoodAnswers.opened _ config conn))).2 e' s' hres
        have hobject := @handleJsonBody_dispatched lib lv config req target conn key sub
          hdispatched
        rw [herror, object, bind_run_error hres] at hobject
        obtain ⟨-, hs⟩ := Prod.mk.inj hobject
        exact hfail (hs ▸ hgood)
      · have hfalse := hun.altered hpatch key x s' ⟨conn, sub, objs, s₀, hdispatched, hresolved,
          hcall⟩
        have htrue := (methods_alter_stops hdispatched.subsystem lv conn target x _).mp hx
        rw [hfalse] at htrue
        cases htrue

/-- What a request needs to be answered: the task that it asks for is done and has not thrown, an
id and a thread are there for the task that it launches, nothing stops the handling of its body. -/
structure Answered (libs : Libraries) (lv : Libvirt) (canSpawn : Bool) (gstore : GeneralStore)
    (req : Request) : Prop where
  retrieve : ∀ strId, routeOf req = .retrieve strId → numericIdMatch strId = true →
    ∀ e, gstore.asyncStore.store.elems.lookup (hexDecodeId strId) = some e →
      ∃ ret, gstore.asyncStore.futureResult e.fut = .ok (some (.ok ret))
  launch : ∀ target, routeOf req = .launch target →
    gstore.asyncStore.store.full = true ∨
      (canSpawn = true ∧ gstore.asyncStore.store.getFreeId ≠ none)
  json : ∀ target, routeOf req = .json target → Unstopped libs.rapidjson lv gstore.config req
    target (handleJson libs.rapidjson lv gstore.config req target).2

theorem delivers_send {res : Response} {rt : Runtime 32 Job} :
    Delivers (send res rt) ↔ 200 ≤ res.status := by
  refine ⟨fun h => ?_, fun h => ⟨⟨res, rfl, h⟩, rfl⟩⟩
  obtain ⟨res', hres, hstatus⟩ := h.sent
  obtain rfl : res = res' := List.singleton_injective hres
  exact hstatus

theorem serveRetrieve_delivers (libs : Libraries) (gstore : GeneralStore) (req : Request)
    (strId : Str) : Delivers (serveRetrieve libs gstore req strId) ↔
      (numericIdMatch strId = true →
        ∀ e, gstore.asyncStore.store.elems.lookup (hexDecodeId strId) = some e →
          ∃ ret, gstore.asyncStore.futureResult e.fut = .ok (some (.ok ret))) := by
  unfold serveRetrieve
  by_cases hid : numericIdMatch strId = true
  · have hretrieve : handleAsyncRetrieve gstore.asyncStore strId =
        ((gstore.asyncStore.valueIfReady (hexDecodeId strId)).1.map asyncResponse,
          (gstore.asyncStore.valueIfReady (hexDecodeId strId)).2) := if_pos hid
    rw [hretrieve]
    cases hl : gstore.asyncStore.store.elems.lookup (hexDecodeId strId) with
    | none =>
      simp only [Runtime.valueIfReady, hl]
      exact iff_of_true (delivers_send.mpr (by decide : 200 ≤ 404)) (by simp)
    | some e =>
      cases hf : gstore.asyncStore.futureResult e.fut with
      | error x =>
        simp only [Runtime.valueIfReady, hl, hf]
        exact iff_of_false (fun h => by simpa [Except.map] using h.ending) (by simp [hid, hf])
      | ok o =>
        rcases o with _ | x | ret
        · simp only [Runtime.valueIfReady, hl, hf]
          refine iff_of_false (fun h => ?_) (by simp [hid, hf])
          exact absurd (delivers_send.mp h) (by decide : ¬200 ≤ 102)
        · simp only [Runtime.valueIfReady, hl, hf]
          exact iff_of_false (fun h => by simpa [Except.map] using h.ending) (by simp [hid, hf])
        · simp only [Runtime.valueIfReady, hl, hf]
          exact iff_of_true (delivers_send.mpr (by decide : 200 ≤ 302)) (by simp [hf])
  · have hretrieve : handleAsyncRetrieve gstore.asyncStore strId =
        (.ok (404, []), gstore.asyncStore) := if_neg hid
    rw [hretrieve]
    exact iff_of_true (delivers_send.mpr (by decide : 200 ≤ 404)) fun h => absurd h hid

theorem serveLaunch_delivers (libs : Libraries) (canSpawn : Bool) (gstore : GeneralStore)
    (req : Request) (target : TargetParser) :
    Delivers (serveLaunch libs canSpawn gstore req target) ↔
      gstore.asyncStore.store.full = true ∨
        (canSpawn = true ∧ gstore.asyncStore.store.getFreeId ≠ none) := by
  unfold serveLaunch
  rcases launch_cases gstore.asyncStore ⟨req, target⟩ canSpawn with
    ⟨hfull, h⟩ | ⟨hfull, hnone, h⟩ | ⟨id, hfull, hfree, ⟨hspawn, h⟩ | ⟨hspawn, h⟩⟩
  · rw [h]
    exact iff_of_true (delivers_send.mpr (by simp [serverError, htmlResponse])) (Or.inl hfull)
  · rw [h]
    exact iff_of_false (fun h => by simpa using h.ending) (by simp [hfull, hnone])
  · rw [h]
    exact iff_of_true (delivers_send.mpr (by simp [jsonResponse])) (by simp [hspawn, hfree])
  · rw [h]
    exact iff_of_false (fun h => by simpa using h.ending) (by simp [hfull, hspawn])

/-- The response to a body that is handled to the end has the status of success. -/
theorem serveJson_delivers (libs : Libraries) (lv : Libvirt) (gstore : GeneralStore)
    (req : Request) (target : TargetParser) :
    Delivers (serveJson libs lv gstore req target) ↔
      (handleJson libs.rapidjson lv gstore.config req target).1 = .ok () := by
  unfold serveJson
  generalize handleJson libs.rapidjson lv gstore.config req target = run
  rcases run with ⟨(x | _) | ⟨⟩, s⟩
  · exact iff_of_false (fun h => by simpa using h.ending) (by simp)
  · exact iff_of_false (fun h => by simpa using h.ending) (by simp)
  · refine iff_of_true ⟨⟨_, rfl, ?_⟩, rfl⟩ rfl
    simp [handleCompression_status, jsonResponse]

/-- A request is answered with one final response exactly if it has what it needs. -/
theorem delivers_iff (libs : Libraries) (lv : Libvirt) (canSpawn : Bool) (gstore : GeneralStore)
    (req : Request) : Delivers (handleRequest libs lv canSpawn gstore req) ↔
      Answered libs lv canSpawn gstore req := by
  unfold handleRequest
  cases hroute : routeOf req with
  | head =>
    refine iff_of_true (delivers_send.mpr (by simp [headResponse])) ⟨?_, ?_, ?_⟩
    · simp [hroute]
    · simp [hroute]
    · simp [hroute]
  | refused why =>
    refine iff_of_true (delivers_send.mpr (by simp [badRequest, htmlResponse])) ⟨?_, ?_, ?_⟩
    · simp [hroute]
    · simp [hroute]
    · simp [hroute]
  | retrieve strId =>
    have hiff := serveRetrieve_delivers libs gstore req strId
    refine ⟨fun h => ⟨?_, ?_, ?_⟩, fun h => hiff.mpr (h.retrieve strId hroute)⟩
    · intro strId' hroute'
      obtain rfl : strId = strId' := by simpa [hroute] using hroute'
      exact hiff.mp h
    · simp [hroute]
    · simp [hroute]
  | launch target =>
    have hiff := serveLaunch_delivers libs canSpawn gstore req target
    refine ⟨fun h => ⟨?_, ?_, ?_⟩, fun h => hiff.mpr (h.launch target hroute)⟩
    · simp [hroute]
    · exact fun _ _ => hiff.mp h
    · simp [hroute]
  | json target =>
    have hiff := (serveJson_delivers libs lv gstore req target).trans
      (handleJson_ok_iff libs.rapidjson lv gstore.config req target)
    refine ⟨fun h => ⟨?_, ?_, ?_⟩, fun h => hiff.mpr (h.json target hroute)⟩
    · simp [hroute]
    · simp [hroute]
    · intro target' hroute'
      obtain rfl : target = target' := by simpa [hroute] using hroute'
      exact hiff.mp h

/-- The retrieval of a task that is not done is answered with an informational status, and that
of a task that has thrown not at all. -/
theorem retrieve_not_delivered :
    let libs : Libraries :=
      ⟨⟨fun _ => .null, fun _ => []⟩, [], fun _ _ => true, fun _ => false, some, some⟩
    let config : IniConfig := ⟨false, [], lit "test:///default"⟩
    let req : Request := ⟨.get, lit "/async/00000000", 11, [], []⟩
    let job : Job := ⟨req, .ofUrl req.target⟩
    (handleRequest libs obliging true ⟨config, storeOf 0 0 .running job⟩ req).sent.map
        Response.status = [102] ∧
      (handleRequest libs obliging true
        ⟨config, storeOf 0 0 (.ready (.error .systemError)) job⟩ req).sent = [] ∧
      (handleRequest libs obliging true
        ⟨config, storeOf 0 0 (.ready (.error .systemError)) job⟩ req).ending =
        .threw .systemError :=
  ⟨rfl, rfl, rfl⟩

end Virthttp
