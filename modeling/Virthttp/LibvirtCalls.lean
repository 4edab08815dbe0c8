import Virthttp.Capabilities
import Virthttp.HandlerEffects
import Virthttp.HandlerRules

namespace Virthttp

open Program Interaction Capabilities

inductive Handle where
  | connection (conn : Ptr)
  | domain (dom : Option Ptr)
  | network (nw : Option Ptr)

def LvCall.uses : LvCall → List Handle
  | .connectOpen _ | .getLastError | .resetLastError => []
  | .domainLookupByName conn _ | .domainLookupByUUIDString conn _ | .listAllDomains conn _
  | .domainCreateXML conn _ | .networkLookupByName conn _ | .networkLookupByUUIDString conn _
  | .listAllNetworks conn _ | .networkCreateXML conn _ => [.connection conn]
  | .domain dom _ => [.domain dom]
  | .network nw _ => [.network nw]

def Exchange.uses (e : Exchange) : List Handle := e.call.uses

def Exchange.gives : Exchange → List Handle
  | ⟨.connectOpen _, conn⟩ => conn.toList.map .connection
  | ⟨.domainLookupByName _ _, dom⟩ => dom.toList.map (Handle.domain ∘ some)
  | ⟨.domainLookupByUUIDString _ _, dom⟩ => dom.toList.map (Handle.domain ∘ some)
  | ⟨.domainCreateXML _ _, dom⟩ => dom.toList.map (Handle.domain ∘ some)
  | ⟨.listAllDomains _ _, doms⟩ => (doms.getD []).map (Handle.domain ∘ some)
  | ⟨.networkLookupByName _ _, nw⟩ => nw.toList.map (Handle.network ∘ some)
  | ⟨.networkLookupByUUIDString _ _, nw⟩ => nw.toList.map (Handle.network ∘ some)
  | ⟨.networkCreateXML _ _, nw⟩ => nw.toList.map (Handle.network ∘ some)
  | ⟨.listAllNetworks _ _, nws⟩ => (nws.getD []).map (Handle.network ∘ some)
  | _ => []

/-- What a method lets a request call once the connection is open. -/
def permits (idx : Option Method) : LvCall → Bool
  | .connectOpen _ => false
  | .getLastError | .resetLastError => true
  | .domainLookupByName _ _ | .domainLookupByUUIDString _ _ | .listAllDomains _ _
  | .networkLookupByName _ _ | .networkLookupByUUIDString _ _ | .listAllNetworks _ _ =>
    idx != some .create
  | .domainCreateXML _ _ | .networkCreateXML _ _ => idx == some .create
  | .domain _ c => idx.any (·.onDomain c)
  | .network _ c => idx.any (·.onNetwork c)

/-- The calls of one request -/
structure ProperCalls (config : IniConfig) (idx : Option Method) (calls : List Exchange) :
    Prop where
  opened : calls = [] ∨ ∃ conn rest, calls = ⟨.connectOpen (cstr config.connURI), conn⟩ :: rest ∧
    ∀ e ∈ rest, permits idx e.call = true
  held : Disciplined Exchange.uses Exchange.gives calls

structure Connected (config : IniConfig) (idx : Option Method) (conn : Ptr)
    (calls : List Exchange) : Prop where
  opened : ∃ rest, calls = ⟨.connectOpen (cstr config.connURI), some conn⟩ :: rest ∧
    ∀ e ∈ rest, permits idx e.call = true
  held : Disciplined Exchange.uses Exchange.gives calls

section Connected

variable {config : IniConfig} {idx : Option Method} {conn : Ptr} {calls : List Exchange}

theorem Connected.proper (h : Connected config idx conn calls) : ProperCalls config idx calls := by
  obtain ⟨rest, hcalls, hrest⟩ := h.opened
  exact ⟨Or.inr ⟨some conn, rest, hcalls, hrest⟩, h.held⟩

theorem Connected.init (config : IniConfig) (idx : Option Method) (conn : Ptr) :
    Connected config idx conn [⟨.connectOpen (cstr config.connURI), some conn⟩] :=
  ⟨⟨[], rfl, by simp⟩, .snoc [] _ .nil (by simp [Exchange.uses, LvCall.uses])⟩

theorem Connected.holdsConn (h : Connected config idx conn calls) :
    Held Exchange.gives calls (.connection conn) := by
  obtain ⟨rest, rfl, _⟩ := h.opened
  exact ⟨_, List.mem_cons_self, by simp [Exchange.gives]⟩

/-- More calls, with handles that are held already -/
theorem Connected.more (h : Connected config idx conn calls) {l : List Exchange}
    (hl : ∀ e ∈ l, permits idx e.call = true ∧ ∀ k ∈ e.uses, Held Exchange.gives calls k) :
    Connected config idx conn (calls ++ l) := by
  refine ⟨?_, h.held.append fun e he => (hl e he).2⟩
  obtain ⟨rest, hcalls, hrest⟩ := h.opened
  refine ⟨rest ++ l, by rw [hcalls, List.cons_append], fun e he => ?_⟩
  exact (List.mem_append.mp he).elim (hrest e) fun he => (hl e he).1

/-- A call on the connection -/
theorem Connected.ask (h : Connected config idx conn calls) {e : Exchange}
    (hpermits : permits idx e.call = true) (huses : e.uses = [.connection conn]) :
    Connected config idx conn (calls ++ [e]) := by
  refine h.more fun e' he' => ?_
  rw [List.mem_singleton.mp he', huses]
  exact ⟨hpermits, fun k hk => List.mem_singleton.mp hk ▸ h.holdsConn⟩

theorem Connected.errored (h : Connected config idx conn calls) {code : ℤ} {s s' : Session}
    (he : Errored code s s') (hs : s.calls = calls) : Connected config idx conn s'.calls := by
  obtain ⟨l, hl, hask⟩ := he.calls
  rw [hl, hs]
  refine h.more fun e hmem => ?_
  rcases hask e hmem with hcall | hcall <;> simp [permits, Exchange.uses, LvCall.uses, hcall]

end Connected

structure SameHandles (s s' : Session) : Prop where
  obj : s'.obj = s.obj
  calls : s.calls <+: s'.calls

theorem SameHandles.trans {s₁ s₂ s₃ : Session} (h : SameHandles s₁ s₂) (h' : SameHandles s₂ s₃) :
    SameHandles s₁ s₃ := ⟨h'.obj.trans h.obj, h.calls.trans h'.calls⟩

theorem SameHandles.held {s s' : Session} (h : SameHandles s s') {k : Handle}
    (hk : Held Exchange.gives s.calls k) : Held Exchange.gives s'.calls k := by
  obtain ⟨l, hl⟩ := h.calls
  rw [← hl]
  exact hk.append l

structure Works (sub : Subsystem) (kind : Option Ptr → Handle) : Prop where
  resolve : ∀ lv config idx conn target s, idx ≠ some .create →
    Connected config idx conn s.calls → Holds (sub.resolver.resolve lv conn target) s
      (fun objs s' => Connected config idx conn s'.calls ∧
        ∀ p ∈ objs, Held Exchange.gives s'.calls (kind (some p)))
      (fun _ s' => Connected config idx conn s'.calls)
  create : ∀ lv config conn target jval s, Connected config (some .create) conn s.calls →
    Holds ((sub.handlers lv conn target).create jval) s
      (fun _ s' => Connected config (some .create) conn s'.calls)
      (fun _ s' => Connected config (some .create) conn s'.calls)
  methods : ∀ lv config idx conn target jval s, idx ≠ .create →
    Connected config (some idx) conn s.calls → Held Exchange.gives s.calls (kind s.obj) →
      Holds ((sub.handlers lv conn target).methods lv idx jval) s
        (fun _ s' => Connected config (some idx) conn s'.calls ∧ SameHandles s s')
        (fun _ s' => Connected config (some idx) conn s'.calls)

section Works

variable {lv : Libvirt} {config : IniConfig} {idx : Option Method} {conn : Ptr}

/-- A lookup gives out the object that it finds. -/
theorem lookup_connected {c : LvCall} (hc : c.Ret = Option Ptr) {kind : Option Ptr → Handle}
    (hpermits : permits idx c = true) (huses : c.uses = [.connection conn])
    (hgives : ∀ (a : c.Ret), ∀ p ∈ (hc ▸ a : Option Ptr), kind (some p) ∈ Exchange.gives ⟨c, a⟩)
    {s : Session} (h : Connected config idx conn s.calls) : Holds (call lv c) s
      (fun a s' => Connected config idx conn s'.calls ∧
        ∀ p ∈ (hc ▸ a : Option Ptr), Held Exchange.gives s'.calls (kind (some p)))
      (fun _ s' => Connected config idx conn s'.calls) :=
  call_holds fun a => ⟨h.ask hpermits huses, fun p hp => held_snoc (hgives a p hp) s.calls⟩

/-- A handler that keeps to its kind of calls on the current object. -/
theorem Act.run_connected {α : Type} {p : Act α} {O : HandlerOp → Prop} (hp : p.Asks O)
    {s : Session} (hO : ∀ (x : Performed) e, O x.1 → x.exchange? s.obj = some e →
      permits idx e.call = true ∧ ∀ k ∈ e.uses, Held Exchange.gives s.calls k)
    (h : Connected config idx conn s.calls) : Holds (p.run lv) s
      (fun _ s' => Connected config idx conn s'.calls ∧ SameHandles s s')
      (fun _ s' => Connected config idx conn s'.calls) := by
  have htracks {log : Log HandlerOp.Ret} {s' : Session} (ht : Tracks s log s')
      (hlog : ∀ x ∈ log, O x.1) : Connected config idx conn s'.calls := by
    obtain ⟨l, hl, hfilter, hask⟩ := ht.calls
    rw [hl]
    refine h.more fun e he => ?_
    rcases hask e he with hobj | hlast
    · have hmem : e ∈ exchanges s.obj log := hfilter ▸ List.mem_filter.mpr ⟨he, hobj⟩
      obtain ⟨x, hx, hxe⟩ := List.mem_filterMap.mp hmem
      exact hO x e (hlog x hx) hxe
    · rcases hlast with hcall | hcall <;> simp [permits, Exchange.uses, LvCall.uses, hcall]
  refine (Act.run_holds (hp.spec (h := []) (by simp)) lv s).mono ?_ ?_
  · rintro _ s' ⟨log, ht, hlog⟩
    exact ⟨htracks ht hlog, ht.same.obj, ht.handled.calls⟩
  · rintro _ s' ⟨_, log, ht, hlog⟩
    exact htracks ht hlog

theorem onDomain_exchange {m : Method} {x : Performed} {e : Exchange} {s : Session}
    (hheld : Held Exchange.gives s.calls (.domain s.obj)) (hx : OnDomain m.onDomain x.1)
    (he : x.exchange? s.obj = some e) :
    permits (some m) e.call = true ∧ ∀ k ∈ e.uses, Held Exchange.gives s.calls k := by
  obtain ⟨o, r⟩ := x
  cases o with
  | domain c =>
    cases he
    exact ⟨hx, fun k hk => List.mem_singleton.mp hk ▸ hheld⟩
  | network c => exact hx.elim
  | _ => cases he

theorem onNetwork_exchange {m : Method} {x : Performed} {e : Exchange} {s : Session}
    (hheld : Held Exchange.gives s.calls (.network s.obj)) (hx : OnNetwork m.onNetwork x.1)
    (he : x.exchange? s.obj = some e) :
    permits (some m) e.call = true ∧ ∀ k ∈ e.uses, Held Exchange.gives s.calls k := by
  obtain ⟨o, r⟩ := x
  cases o with
  | network c =>
    cases he
    exact ⟨hx, fun k hk => List.mem_singleton.mp hk ▸ hheld⟩
  | domain c => exact hx.elim
  | _ => cases he

/-- A creation is one more call. -/
theorem Connected.madeBy (h : Connected config idx conn calls) {s : Session}
    (hs : s.calls = calls) {e : Exchange} (hpermits : permits idx e.call = true)
    (huses : e.uses = [.connection conn]) (obj : Option Ptr) :
    Connected config idx conn (s.madeBy e obj).calls := by
  have hasked := h.ask hpermits huses
  rw [← hs] at hasked
  cases obj <;> exact hasked

theorem permits_search (hidx : idx ≠ some .create) : (idx != some .create) = true := by
  simpa using hidx

theorem domains_works : Works domains .domain where
  resolve lv config idx conn target s hidx h := by
    have hpermits := permits_search hidx
    refine Resolver.resolve_keeps (I := fun s => Connected config idx conn s.calls)
      (G := fun s p => Held Exchange.gives s.calls (.domain (some p)))
      (errored_keeps (fun _ _ _ h he => h.errored he rfl) lv) ?_ ?_ ?_ target s h
    · intro f hf sv s h
      simp only [domains, domainResolver, List.mem_cons, List.not_mem_nil, or_false] at hf
      rcases hf with rfl | rfl
      · exact lookup_connected (c := .domainLookupByName conn (cstr sv)) rfl hpermits rfl
          (by simp [Exchange.gives]) h
      · exact lookup_connected (c := .domainLookupByUUIDString conn (cstr sv)) rfl hpermits rfl
          (by simp [Exchange.gives]) h
    · exact fun target s h =>
        domainSearchAllFlags_keeps (errored_keeps (fun _ _ _ h he => h.errored he rfl) lv) target h
    · intro flags s h
      change Holds (listAllDomains lv conn flags) s _ _
      unfold listAllDomains
      rw [holds_bind]
      refine call_holds fun a => ?_
      have hasked := h.ask (e := ⟨.listAllDomains conn flags, a⟩) hpermits rfl
      cases a with
      | none => exact hasked
      | some objs => exact ⟨hasked, fun p hp => held_snoc (by simpa [Exchange.gives] using hp) _⟩
  create lv config conn target jval s h := by
    have herr := errored_keeps (I := fun s => Connected config (some .create) conn s.calls)
      (fun _ _ _ h he => h.errored he rfl) lv
    exact DomainHandlers.create_keeps herr (fun _ dom s h => h.madeBy rfl rfl rfl dom) jval h
  methods lv config idx conn target jval s hidx h hheld := by
    cases idx with
    | create => exact absurd rfl hidx
    | query =>
      have hasks := DomainHandlers.query_allowed (onDomain_lenient Method.query.onDomain)
        (fun _ hc => hc) (fun _ => trivial) target jval
      exact Act.run_connected hasks (fun _ _ => onDomain_exchange hheld) h
    | alter =>
      exact Act.run_connected ((DomainHandlers.alter_allowed jval).mono fun _ ho => ho.1)
        (fun _ _ => onDomain_exchange hheld) h
    | vacuum =>
      exact Act.run_connected (DomainHandlers.vacuum_allowed target jval)
        (fun _ _ => onDomain_exchange hheld) h

theorem networks_works : Works networks .network where
  resolve lv config idx conn target s hidx h := by
    have hpermits := permits_search hidx
    refine Resolver.resolve_keeps (I := fun s => Connected config idx conn s.calls)
      (G := fun s p => Held Exchange.gives s.calls (.network (some p)))
      (errored_keeps (fun _ _ _ h he => h.errored he rfl) lv) ?_ ?_ ?_ target s h
    · intro f hf sv s h
      simp only [networks, networkResolver, List.mem_cons, List.not_mem_nil, or_false] at hf
      rcases hf with rfl | rfl
      · exact lookup_connected (c := .networkLookupByName conn (cstr sv)) rfl hpermits rfl
          (by simp [Exchange.gives]) h
      · exact lookup_connected (c := .networkLookupByUUIDString conn (cstr sv)) rfl hpermits rfl
          (by simp [Exchange.gives]) h
    · exact fun target s h => h
    · intro flags s h
      change Holds (extractAllNetworks lv conn flags) s _ _
      unfold extractAllNetworks
      rw [holds_bind]
      refine call_holds fun a => ?_
      have hasked := h.ask (e := ⟨.listAllNetworks conn flags, a⟩) hpermits rfl
      cases a with
      | none => exact hasked
      | some objs => exact ⟨hasked, fun p hp => held_snoc (by simpa [Exchange.gives] using hp) _⟩
  create lv config conn target jval s h := by
    have herr := errored_keeps (I := fun s => Connected config (some .create) conn s.calls)
      (fun _ _ _ h he => h.errored he rfl) lv
    exact NetworkHandlers.create_keeps herr (fun _ nw s h => h.madeBy rfl rfl rfl nw) jval h
  methods lv config idx conn target jval s hidx h hheld := by
    cases idx with
    | create => exact absurd rfl hidx
    | query =>
      have hasks := NetworkHandlers.query_allowed (onNetwork_lenient Method.query.onNetwork)
        (fun _ hc => hc) (fun _ => trivial) target jval
      exact Act.run_connected hasks (fun _ _ => onNetwork_exchange hheld) h
    | alter =>
      exact Act.run_connected (NetworkHandlers.alter_allowed (onNetwork_lenient _) jval)
        (fun _ _ => onNetwork_exchange hheld) h
    | vacuum =>
      exact Act.run_connected (NetworkHandlers.vacuum_allowed jval)
        (fun _ _ => onNetwork_exchange hheld) h

theorem subsystem_works {key : Str} {sub : Subsystem} (h : namedCall subsystems key = some sub) :
    ∃ kind, Works sub kind := by
  rcases subsystems_cases h with ⟨_, rfl⟩ | ⟨_, rfl⟩
  · exact ⟨_, domains_works⟩
  · exact ⟨_, networks_works⟩

end Works

section Request

variable {lv : Libvirt} {config : IniConfig} {conn : Ptr} {sub : Subsystem}
  {kind : Option Ptr → Handle}

theorem execBody_create (hsub : Works sub kind) (target : TargetParser) (jsonReq : JVal)
    {s : Session} (h : Connected config (some .create) conn s.calls) :
    Holds (execBody lv sub conn target .create jsonReq) s
      (fun _ s' => Connected config (some .create) conn s'.calls)
      (fun _ s' => Connected config (some .create) conn s'.calls) := by
  unfold execBody
  refine JDispatch.exec_holds (I := fun s => Connected config (some .create) conn s.calls)
    (fun _ _ _ h he => h.errored he rfl) ?_ s h
  intro x _ s h
  apply invoke_holds
  exact hsub.create lv config conn target x _ h

theorem execOn_connected (hsub : Works sub kind) (target : TargetParser) {idx : Method}
    (hidx : idx ≠ .create) (jsonReq : JVal) {v : Ptr} {s : Session}
    (h : Connected config (some idx) conn s.calls)
    (hheld : Held Exchange.gives s.calls (kind (some v))) :
    Holds (execOn lv sub conn target idx jsonReq v) s
      (fun _ s' => Connected config (some idx) conn s'.calls ∧ s.calls <+: s'.calls)
      (fun _ s' => Connected config (some idx) conn s'.calls) := by
  unfold execOn
  rw [holds_bind, holds_modify]
  let I : Session → Prop := fun s' =>
    Connected config (some idx) conn s'.calls ∧ SameHandles { s with obj := some v } s'
  unfold execBody
  have hI : I { s with obj := some v } := ⟨h, rfl, List.prefix_rfl⟩
  refine (JDispatch.exec_holds (I := I) ?_ ?_ _ hI).mono
    (fun _ s' hI => ⟨hI.1, hI.2.calls⟩) (fun _ _ h => h)
  · intro code s₁ s₂ hI he
    exact ⟨hI.1.errored he rfl, hI.2.trans ⟨he.same.obj, he.handled.calls⟩⟩
  · intro x _ s₁ hI
    apply invoke_holds
    have hobj : s₁.obj = some v := hI.2.obj
    have hheld₁ : Held Exchange.gives s₁.calls (kind s₁.obj) := by
      rw [hobj]
      exact hI.2.held hheld
    let s₂ : Session := { s₁ with invoked := s₁.invoked ++ [(s₁.obj, x)] }
    refine (hsub.methods lv config idx conn target x s₂ hidx hI.1 hheld₁).mono ?_ (fun _ _ h => h)
    intro o s₃ h₂
    exact ⟨h₂.1, hI.2.trans ⟨h₂.2.obj, h₂.2.calls⟩⟩

theorem object_connected (hsub : Works sub kind) (lib : Rapidjson) (req : Request)
    (target : TargetParser) {s : Session}
    (h : Connected config (verbToIdx req.method) conn s.calls) :
    Holds (object lib lv sub conn req target) s
      (fun _ s' => Connected config (verbToIdx req.method) conn s'.calls)
      (fun _ s' => Connected config (verbToIdx req.method) conn s'.calls) := by
  have hcreate : verbToIdx req.method = some .create ↔ req.method = .post := by
    cases req.method <;> simp [verbToIdx]
  unfold object resolveFor
  rw [holds_bind]
  by_cases hpost : req.method = .post
  · have hidx := hcreate.mpr hpost
    rw [if_pos hpost, holds_pure, holds_bind, holds_modify]
    rw [hidx] at h ⊢
    simp only [if_pos hpost]
    exact execBody_create hsub target _ h
  · rw [if_neg hpost]
    have hne : verbToIdx req.method ≠ some .create := mt hcreate.mp hpost
    refine (hsub.resolve lv config _ conn target s hne h).mono ?_ (fun _ _ h => h)
    rintro objs s₁ ⟨h₁, hobjs⟩
    rw [holds_bind, holds_modify]
    cases hidx : verbToIdx req.method with
    | none =>
      rw [hidx] at h₁
      exact (error_holds lv 3 _).mono (fun _ s' he => h₁.errored he rfl) (fun _ _ hf => hf.elim)
    | some idx =>
      rw [hidx] at h₁ hne
      simp only [if_neg hpost]
      let I : Session → Prop := fun s' => Connected config (some idx) conn s'.calls ∧
        ∀ p ∈ objs, Held Exchange.gives s'.calls (kind (some p))
      have hI : I { s₁ with resolved := objs } := ⟨h₁, hobjs⟩
      refine (holds_forEach_mem ?_ hI).mono (fun _ _ hI => hI.1) (fun _ _ h => h)
      intro v hv s₂ hI
      refine (execOn_connected hsub target (fun heq => hne (congrArg some heq)) _ hI.1
        (hI.2 v hv)).mono ?_ (fun _ _ h => h)
      rintro _ s₃ ⟨h₃, l, hl⟩
      exact ⟨h₃, fun p hp => hl ▸ (hI.2 p hp).append l⟩

end Request

theorem properCalls_nil (config : IniConfig) (idx : Option Method) : ProperCalls config idx [] :=
  ⟨Or.inl rfl, .nil⟩

/-- Whatever the request and whatever libvirt answers, a request opens one connection and that
first, to the address of the configuration; it only works on that connection and on objects that
libvirt has given out in this very request, never on a null pointer; and it only makes the calls
that its method permits. -/
theorem handleJson_proper (lib : Rapidjson) (lv : Libvirt) (config : IniConfig) (req : Request)
    (target : TargetParser) : ProperCalls config (verbToIdx req.method)
      (handleJson lib lv config req target).2.calls := by
  suffices h : Holds (handleJsonBody lib lv config req target) Session.init
      (fun _ s => ProperCalls config (verbToIdx req.method) s.calls)
      (fun _ s => ProperCalls config (verbToIdx req.method) s.calls) from
    (holds_final (I := fun s : Session => ProperCalls config (verbToIdx req.method) s.calls)).mp h
  have hfree (code : ℤ) (hcode : ¬(code > 100 ∨ code < 0)) {s : Session}
      (h : ProperCalls config (verbToIdx req.method) s.calls) : Holds (error lv code) s
        (fun _ s' => ProperCalls config (verbToIdx req.method) s'.calls)
        (fun _ s' => ProperCalls config (verbToIdx req.method) s'.calls) := by
    unfold error libvirtText
    rw [if_neg hcode]
    exact h
  have hnil := properCalls_nil config (verbToIdx req.method)
  unfold handleJsonBody
  split
  · exact hfree 1 (by decide) hnil
  · split
    · exact hfree 4 (by decide) hnil
    · split
      · exact hfree 5 (by decide) hnil
      · exact hfree 6 (by decide) hnil
    · split
      · exact hfree 5 (by decide) hnil
      · rw [holds_bind]
        refine call_holds fun conn => ?_
        cases conn with
        | none =>
          refine hfree 10 (by decide) ⟨Or.inr ⟨none, [], rfl, by simp⟩, ?_⟩
          exact .snoc [] _ .nil (by simp [Exchange.uses, LvCall.uses])
        | some conn =>
          have hopened := Connected.init config (verbToIdx req.method) conn
          dsimp only
          split
          · exact hfree 7 (by decide) hopened.proper
          · rename_i sub hsub
            obtain ⟨kind, hworks⟩ := subsystem_works hsub
            exact (object_connected hworks lib req target hopened).mono
              (fun _ _ h => h.proper) (fun _ _ h => h.proper)

end Virthttp
