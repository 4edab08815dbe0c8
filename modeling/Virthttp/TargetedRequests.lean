import Virthttp.HandlerRuns

namespace Virthttp

open Program

def keyedLookup (byName byUUID : Ptr → Str → LvCall) (conn : Ptr) : List Str → Option LvCall
  | key :: value :: _ =>
    if key = lit "by-name" then some (byName conn (cstr value))
    else if key = lit "by-uuid" then some (byUUID conn (cstr value))
    else none
  | _ => none

def selectedLookup (segs : List Str) (conn : Ptr) : Option LvCall :=
  match segs with
  | _ :: kind :: rest =>
    if kind = lit "domains" then
      keyedLookup (fun conn sv => .domainLookupByName conn sv)
        (fun conn sv => .domainLookupByUUIDString conn sv) conn rest
    else if kind = lit "networks" then
      keyedLookup (fun conn sv => .networkLookupByName conn sv)
        (fun conn sv => .networkLookupByUUIDString conn sv) conn rest
    else none
  | _ => none

def Exchange.On (obj : Option Ptr) (e : Exchange) : Prop :=
  (∃ c, e.call = .domain obj c) ∨ ∃ c, e.call = .network obj c

/-- How a request for a single object ends. -/
inductive Targeted (segs : List Str) (s : Session) : Prop
  /-- One lookup is made, and everything else is done to the object that it has returned. -/
  | served (uri : Str) (conn p : Ptr) (e : Exchange) (rest : List Exchange)
      (hselected : selectedLookup segs conn = some e.call) (hp : e.lookup? = some (some p))
      (hcalls : s.calls = ⟨.connectOpen uri, some conn⟩ :: e :: rest)
      (hrest : ∀ x ∈ rest, x.On (some p) ∨ AsksLastError x)
      (hinvoked : ∀ x ∈ s.invoked, x.1 = some p)
  /-- No handler is called, nothing is done to any object and an error is recorded. -/
  | refused (hinvoked : s.invoked = []) (herrors : s.res.success = false ∧ s.res.errors ≠ [])
      (hcalls : ∀ x ∈ s.calls, (∃ uri, x.call = .connectOpen uri) ∨ AsksLastError x ∨
        (x.lookup? = some none ∧ ∃ conn, selectedLookup segs conn = some x.call))

theorem on_of_mem_exchanges {obj : Option Ptr} {h : Interaction.Log HandlerOp.Ret} {e : Exchange}
    (he : e ∈ exchanges obj h) : e.On obj := by
  obtain ⟨⟨o, r⟩, _, hx⟩ := List.mem_filterMap.mp he
  cases o with
  | domain c =>
    obtain rfl := Option.some.inj hx
    exact Or.inl ⟨c, rfl⟩
  | network c =>
    obtain rfl := Option.some.inj hx
    exact Or.inr ⟨c, rfl⟩
  | _ => cases hx

theorem Tracks.calls_on {s s' : Session} {h : Interaction.Log HandlerOp.Ret} (ht : Tracks s h s') :
    ∃ l, s'.calls = s.calls ++ l ∧ ∀ e ∈ l, e.On s.obj ∨ AsksLastError e := by
  obtain ⟨l, hl, hfilter, hl'⟩ := ht.calls
  refine ⟨l, hl, fun e he => ?_⟩
  rcases hl' e he with hon | hask
  · refine Or.inl (on_of_mem_exchanges (h := h) ?_)
    rw [← hfilter]
    exact List.mem_filter.mpr ⟨he, hon⟩
  · exact Or.inr hask

theorem searchCall_eq {front key : Str} {rest : List Str} {target : TargetParser}
    (hparts : target.pathParts = front :: key :: rest) (byName byUUID : Ptr → Str → LvCall)
    (conn : Ptr) : searchCall byName byUUID target conn = keyedLookup byName byUUID conn rest := by
  unfold searchCall
  rw [hparts]
  rcases rest with _ | ⟨searchKey, _ | ⟨value, rest⟩⟩
  · rfl
  · rfl
  · rw [if_neg (by simp)]
    rfl

/-- What a subsystem looks up is what the segments ask for. -/
theorem resolver_selects {front key : Str} {rest : List Str} {sub : Subsystem}
    {target : TargetParser} (hparts : target.pathParts = front :: key :: rest)
    (hsub : namedCall subsystems key = some sub) :
    ∃ byName byUUID, Resolves sub.resolver byName byUUID ∧
      ∀ conn, searchCall byName byUUID target conn = selectedLookup target.pathParts conn := by
  rcases subsystems_cases hsub with ⟨rfl, rfl⟩ | ⟨rfl, rfl⟩
  · refine ⟨_, _, domainResolver_resolves, fun conn => ?_⟩
    rw [searchCall_eq hparts, hparts]
    rfl
  · refine ⟨_, _, networkResolver_resolves, fun conn => ?_⟩
    rw [searchCall_eq hparts, hparts]
    rfl

structure Serves (conn p : Ptr) (uri : Str) (e : Exchange) (s : Session) : Prop where
  obj : s.obj = some p
  invoked : ∀ x ∈ s.invoked, x.1 = some p
  calls : ∃ rest, s.calls = ⟨.connectOpen uri, some conn⟩ :: e :: rest ∧
    ∀ x ∈ rest, x.On (some p) ∨ AsksLastError x

theorem Serves.more {conn p : Ptr} {uri : Str} {e : Exchange} {s s' : Session}
    (h : Serves conn p uri e s) (hobj : s'.obj = s.obj)
    (hinvoked : ∀ x ∈ s'.invoked, x ∈ s.invoked ∨ x.1 = s.obj)
    (hcalls : ∃ l, s'.calls = s.calls ++ l ∧ ∀ x ∈ l, x.On s.obj ∨ AsksLastError x) :
    Serves conn p uri e s' := by
  obtain ⟨rest, hrest, hon⟩ := h.calls
  obtain ⟨l, hl, hl'⟩ := hcalls
  refine ⟨hobj.trans h.obj, fun x hx => ?_, rest ++ l, ?_, fun x hx => ?_⟩
  · exact (hinvoked x hx).elim (h.invoked x) (fun hx => hx.trans h.obj)
  · rw [hl, hrest]
    rfl
  · rw [h.obj] at hl'
    exact (List.mem_append.mp hx).elim (hon x) (hl' x)

/-- Whatever the verb and the body, the handlers are only called for the current object. -/
theorem execBody_serves {sub : Subsystem} {lv : Libvirt} {conn p : Ptr} {target : TargetParser}
    {idx : Method} (hidx : idx ≠ .create)
    {jsonReq : JVal} {uri : Str} {e : Exchange} {s : Session} (hs : Serves conn p uri e s) :
    Holds (execBody lv sub conn target idx jsonReq) s (fun _ => Serves conn p uri e)
      (fun _ => Serves conn p uri e) := by
  refine JDispatch.exec_holds (fun code s s' hs he => ?_) (fun x _ s hs => ?_) s hs
  · obtain ⟨l, hl, hask⟩ := he.calls
    refine hs.more he.same.obj (fun x hx => Or.inl ?_) ⟨l, hl, fun x hx => Or.inr (hask x hx)⟩
    rwa [← he.same.invoked]
  · have hcalled {s' : Session} (h : Interaction.Log HandlerOp.Ret)
        (ht : Tracks { s with invoked := s.invoked ++ [(s.obj, x)] } h s') :
        Serves conn p uri e s' := by
      refine hs.more ht.same.obj (fun y hy => ?_) ht.calls_on
      rw [ht.same.invoked] at hy
      refine (List.mem_append.mp hy).imp_right fun hy => ?_
      rw [List.mem_singleton.mp hy]
    refine invoke_holds ((methods_track sub lv conn target hidx x _).mono ?_ ?_)
    · rintro o s' ⟨h, ht⟩
      have hs' := hcalled h ht
      exact ⟨hs'.obj, hs'.invoked, hs'.calls⟩
    · rintro e s' ⟨h, ht⟩
      exact hcalled h ht

theorem handleJson_targeted (lib : Rapidjson) (lv : Libvirt) (config : IniConfig) (req : Request)
    (hverb : req.method = .get ∨ req.method = .patch ∨ req.method = .delete)
    (hsegs : 3 ≤ (segments (pathOf req.target)).length) :
    Targeted (segments (pathOf req.target))
      (handleJson lib lv config req (.ofUrl req.target)).2 := by
  have hpath := pathParts_ofUrl req.target
  rw [← hpath] at hsegs ⊢
  generalize TargetParser.ofUrl req.target = target at hsegs ⊢
  have hrefuse {s : Session} (hfail : s.res.success = false) (hinvoked : s.invoked = [])
      (hcalls : ∀ x ∈ s.calls, (∃ uri, x.call = .connectOpen uri) ∨ AsksLastError x ∨
        (x.lookup? = some none ∧ ∃ conn, selectedLookup target.pathParts conn = some x.call)) :
      Targeted target.pathParts s := by
    refine .refused hinvoked ⟨hfail, fun hnil => ?_⟩ hcalls
    have hsuccess := s.res.success_iff.mpr hnil
    simp [hfail] at hsuccess
  have hnotPost : ¬req.method = .post := by
    rcases hverb with h | h | h <;> simp [h]
  have hmethod : ∃ idx, verbToIdx req.method = some idx ∧ idx ≠ .create := by
    rcases hverb with h | h | h <;> simp [h, verbToIdx]
  obtain ⟨idx, hidx, hcreate⟩ := hmethod
  refine holds_final.mp (handleJsonBody_holds (Q := fun _ => Targeted target.pathParts)
    (E := fun _ => Targeted target.pathParts) ?_ ?_)
  · intro calls code s' hcalls he
    obtain ⟨l, hl, hask⟩ := he.calls
    refine hrefuse he.success he.same.invoked fun x hx => ?_
    rw [hl] at hx
    exact (List.mem_append.mp hx).imp (hcalls x) (fun hx => Or.inl (hask x hx))
  · intro front key rest conn sub hparts hsub
    obtain ⟨byName, byUUID, hr, hselect⟩ := resolver_selects hparts hsub
    unfold object resolveFor
    rw [if_neg hnotPost, holds_bind]
    refine (resolve_holds hr lv conn target _).mono ?_ ?_
    · intro objs s hres
      rw [holds_bind, holds_modify, hidx]
      simp only [if_neg hnotPost]
      cases hres with
      | found e p hcall hp =>
        let uri := cstr config.connURI
        have hstart (t : Session) (hobj : t.obj = some p) (hinvoked : t.invoked = [])
            (hcalls : t.calls = [⟨.connectOpen uri, some conn⟩, e]) : Serves conn p uri e t :=
          ⟨hobj, by simp [hinvoked], [], hcalls, by simp⟩
        rw [hselect] at hcall
        have hserved {t : Session} (ht : Serves conn p uri e t) : Targeted target.pathParts t := by
          obtain ⟨rest, hrest, hon⟩ := ht.calls
          exact .served uri conn p e rest hcall hp hrest hon ht.invoked
        rw [forEach, holds_bind]
        unfold execOn
        rw [holds_bind, holds_modify]
        exact (execBody_serves hcreate (hstart _ rfl rfl rfl)).mono
          (fun _ t ht => hserved ht) (fun _ t ht => hserved ht)
      | listed e objs hlen => omega
      | refused s' hsame hfail hcalls =>
        obtain ⟨l, hl, hl'⟩ := hcalls
        refine hrefuse hfail hsame.invoked fun x hx => ?_
        rcases List.mem_append.mp (hl ▸ hx : x ∈ (Session.opened config conn).calls ++ l) with
          hx | hx
        · rw [Session.opened, Session.asked, Session.init, List.nil_append] at hx
          exact Or.inl ⟨_, congrArg Exchange.call (List.mem_singleton.mp hx)⟩
        · rcases hl' x hx with hask | ⟨hnone, hcall⟩
          · exact Or.inr (Or.inl hask)
          · exact Or.inr (Or.inr ⟨hnone, conn, (hselect conn).symm.trans hcall⟩)
    · rintro err s' ⟨hlen, _⟩
      omega

theorem selectedLookup_some {segs : List Str} {conn : Ptr} {c : LvCall}
    (h : selectedLookup segs conn = some c) : 4 ≤ segs.length ∧
      (segs.getD 2 [] = lit "by-name" ∨ segs.getD 2 [] = lit "by-uuid") := by
  have hkeyed {byName byUUID : Ptr → Str → LvCall} {rest : List Str}
      (h : keyedLookup byName byUUID conn rest = some c) :
      2 ≤ rest.length ∧ (rest.getD 0 [] = lit "by-name" ∨ rest.getD 0 [] = lit "by-uuid") := by
    unfold keyedLookup at h
    split at h
    · refine ⟨by simp, ?_⟩
      split_ifs at h with hname huuid
      · exact Or.inl hname
      · exact Or.inr huuid
    · cases h
  unfold selectedLookup at h
  split at h
  · rename_i front kind rest
    have hrest : 2 ≤ rest.length ∧ (rest.getD 0 [] = lit "by-name" ∨
        rest.getD 0 [] = lit "by-uuid") := by
      split_ifs at h
      · exact hkeyed h
      · exact hkeyed h
    obtain ⟨hlen, hkey⟩ := hrest
    exact ⟨by simpa using hlen, hkey⟩
  · cases h

theorem listed?_of_lookup? {e : Exchange} {a : Option Ptr} (h : e.lookup? = some a) :
    e.listed? = none := by
  obtain ⟨c, a⟩ := e
  cases c <;> first | rfl | cases h

theorem listed?_of_asksLastError {e : Exchange} (h : AsksLastError e) : e.listed? = none := by
  obtain ⟨c, a⟩ := e
  rcases h with rfl | rfl <;> rfl

theorem listed?_of_on {e : Exchange} {obj : Option Ptr} (h : e.On obj) : e.listed? = none := by
  obtain ⟨c, a⟩ := e
  rcases h with ⟨c, rfl⟩ | ⟨c, rfl⟩ <;> rfl

theorem listed?_of_connectOpen {e : Exchange} {uri : Str} (h : e.call = .connectOpen uri) :
    e.listed? = none := by
  obtain ⟨c, a⟩ := e
  subst h
  rfl

theorem Targeted.not_listed {segs : List Str} {s : Session} (h : Targeted segs s) :
    ∀ e ∈ s.calls, e.listed? = none := by
  intro x hx
  cases h with
  | served uri conn p e rest hselected hp hcalls hrest hinvoked =>
    rw [hcalls] at hx
    rcases List.mem_cons.mp hx with rfl | hx
    · rfl
    · rcases List.mem_cons.mp hx with rfl | hx
      · exact listed?_of_lookup? hp
      · exact (hrest x hx).elim listed?_of_on listed?_of_asksLastError
  | refused hinvoked herrors hcalls =>
    rcases hcalls x hx with ⟨uri, hopen⟩ | hask | ⟨hnone, _⟩
    · exact listed?_of_connectOpen hopen
    · exact listed?_of_asksLastError hask
    · exact listed?_of_lookup? hnone

/-- A request other than for creation whose path has at least three segments works on the object
of the one lookup that the path selects. Where there is no such lookup or it finds nothing, no
handler is called and an error is recorded, and all objects are never listed. -/
theorem targeted_requests (lib : Rapidjson) (lv : Libvirt) (config : IniConfig) (req : Request)
    (hverb : req.method = .get ∨ req.method = .patch ∨ req.method = .delete)
    (hsegs : 3 ≤ (segments (pathOf req.target)).length) :
    let segs := segments (pathOf req.target)
    let s := (handleJson lib lv config req (.ofUrl req.target)).2
    Targeted segs s ∧
      ((segs.length < 4 ∨ (segs.getD 2 [] ≠ lit "by-name" ∧ segs.getD 2 [] ≠ lit "by-uuid") ∨
        ∀ e ∈ s.calls, ∀ p, e.lookup? ≠ some (some p)) →
        s.invoked = [] ∧ s.res.success = false ∧ s.res.errors ≠ []) ∧
      ∀ e ∈ s.calls, e.listed? = none := by
  intro segs s
  have htarget : Targeted segs s := handleJson_targeted lib lv config req hverb hsegs
  refine ⟨htarget, fun hnone => ?_, htarget.not_listed⟩
  cases htarget with
  | served uri conn p e rest hselected hp hcalls hrest hinvoked =>
    obtain ⟨hlen, hkey⟩ := selectedLookup_some hselected
    rcases hnone with hshort | ⟨hname, huuid⟩ | hlookup
    · omega
    · exact absurd hkey (not_or.mpr ⟨hname, huuid⟩)
    · exact absurd hp (hlookup e (by simp [hcalls]) p)
  | refused hinvoked herrors hcalls => exact ⟨hinvoked, herrors⟩

/-- A path with an empty segment and a query. -/
theorem targeted_requests_one :
    let req : Request := ⟨.delete, lit "/libvirt//domains/by-name/vm/?options=x", 11, [], []⟩
    let s := (handleJson ⟨fun _ => .null, fun _ => []⟩ obliging ⟨false, [], lit "test:///default"⟩
      req (.ofUrl req.target)).2
    3 ≤ (segments (pathOf req.target)).length ∧ Targeted (segments (pathOf req.target)) s :=
  ⟨by decide, (targeted_requests _ _ _ ⟨.delete, _, _, _, _⟩ (Or.inr (Or.inr rfl)) (by decide)).1⟩

end Virthttp
