import Virthttp.HandlerRuns

/-! The calls of a handler that a request comes to, each with the session in which it is made: the
objects and the actions in front of it are done, and what the action depends on has succeeded. -/
namespace Virthttp

open Program

/-- Dispatched from the session `s`, the handler is called with `x` in the session `s'`. -/
inductive JDispatch.Calls (lv : Libvirt) (d : JDispatch) (jval : JVal)
    (hdl : JVal → M DependsOutcome) (s : Session) : JVal → Session → Prop
  | single (h : d.singles.head? = some none ∨ some jval.getType ∈ d.singles) :
      Calls lv d jval hdl s jval s
  | dependent {done : List JVal} {x : JVal} {rest : List JVal} {outcomes : List DependsOutcome}
      {s' : Session} (hactions : d.dependent jval = done ++ x :: rest)
      (hdone : dependsLoop lv hdl done [] s = (.ok outcomes, s')) (hrun : Runnable outcomes x) :
      Calls lv d jval hdl s x s'

def CallsFor (lv : Libvirt) (sub : Subsystem) (conn : Ptr) (target : TargetParser) (idx : Method)
    (body : JVal) (objs : List Ptr) (s : Session) (x : JVal) (s' : Session) : Prop :=
  ∃ done v rest s₁, objs = done ++ v :: rest ∧
    forEach (execOn lv sub conn target idx body) done s = (.ok (), s₁) ∧
    (sub.jdispatchers idx).Calls lv body (invoke ((sub.handlers lv conn target).methods lv idx))
      { s₁ with obj := some v } x s'

structure Dispatched (lv : Libvirt) (config : IniConfig) (req : Request) (target : TargetParser)
    (conn : Ptr) (key : Str) (sub : Subsystem) : Prop where
  authorized : ¬(config.httpAuthKeyRequired ∧
    fieldOf req.fields (lit "X-Auth-Key") ≠ config.httpAuthKey)
  parts : ∃ rest, target.pathParts = lit "libvirt" :: key :: rest
  opened : (lv [] (.connectOpen (cstr config.connURI)) : Option Ptr) = some conn
  subsystem : namedCall subsystems key = some sub

/-- In the run of a PATCH request the handler of the subsystem `key` is called with the action `x`
in the session `s`. -/
def AltersIn (lib : Rapidjson) (lv : Libvirt) (config : IniConfig) (req : Request)
    (target : TargetParser) (key : Str) (x : JVal) (s : Session) : Prop :=
  ∃ conn sub objs s₀, Dispatched lv config req target conn key sub ∧
    resolveFor lv sub conn req target (Session.opened config conn) = (.ok objs, s₀) ∧
    CallsFor lv sub conn target .alter (lib.parse (cstr req.body)) objs
      { s₀ with resolved := objs } x s

section Loops

variable {lv : Libvirt} {hdl : JVal → M DependsOutcome} {s : Session}

theorem not_stops_error (code : ℤ) : ¬Stops (error lv code) s :=
  (error_holds lv code s).not_stops

/-- The action in front of the others is either left to the handler or left out. -/
theorem dependsLoop_cons (action : JVal) (outcomes : List DependsOutcome) :
    (Runnable outcomes action ∧ ∀ rest, dependsLoop lv hdl (action :: rest) outcomes s =
        (hdl action >>= fun o => dependsLoop lv hdl rest (outcomes ++ [o])) s) ∨
      (¬Runnable outcomes action ∧ ∃ outcomes₁ s₁, ∀ rest,
        dependsLoop lv hdl (action :: rest) outcomes s = dependsLoop lv hdl rest outcomes₁ s₁) := by
  have hout {outcomes₁ : List DependsOutcome} {s₁ : Session}
      (hc : checkDepends lv action outcomes s = (.ok (false, outcomes₁), s₁)) (rest : List JVal) :
      dependsLoop lv hdl (action :: rest) outcomes s = dependsLoop lv hdl rest outcomes₁ s₁ := by
    rw [dependsLoop, bind_run_ok hc]
    rfl
  rcases checkDepends_run lv action outcomes s with ⟨hyes, hc⟩ | ⟨hno, -, hc⟩ | ⟨hno, -, hc⟩
  · refine Or.inl ⟨hyes, fun rest => ?_⟩
    rw [dependsLoop, bind_run_ok hc]
    rfl
  · exact Or.inr ⟨hno, _, _, hout hc⟩
  · exact Or.inr ⟨hno, _, _, hout hc⟩

/-- The loop stops in the call for an action that may run. -/
theorem stops_dependsLoop {actions : List JVal} {outcomes : List DependsOutcome} :
    Stops (dependsLoop lv hdl actions outcomes) s ↔
      ∃ done x rest, actions = done ++ x :: rest ∧ ∃ outcomes' s',
        dependsLoop lv hdl done outcomes s = (.ok outcomes', s') ∧ Runnable outcomes' x ∧
          Stops (hdl x) s' := by
  induction actions generalizing outcomes s with
  | nil => exact iff_of_false (not_stops_pure _) not_exists_turn_nil
  | cons action actions ih =>
    have hfirst (outcomes' : List DependsOutcome) (s' : Session) :
        dependsLoop lv hdl [] outcomes s = (.ok outcomes', s') ↔
          outcomes = outcomes' ∧ s = s' := by
      change ((.ok outcomes, s) : Except Stop (List DependsOutcome) × Session) = _ ↔ _
      simp
    rw [exists_turn_cons]
    simp only [hfirst]
    rcases dependsLoop_cons action outcomes with
      ⟨hrun, hcons⟩ | ⟨hno, outcomes₁, s₁, hcons⟩
    · have hstops : Stops (dependsLoop lv hdl (action :: actions) outcomes) s ↔
          Stops (hdl action >>= fun o => dependsLoop lv hdl actions (outcomes ++ [o])) s := by
        rw [Stops, hcons, Stops]
      rw [hstops, stops_bind]
      simp only [hcons, bind_run_ok_iff, ih]
      constructor
      · rintro (hx | ⟨o, s₁, ho, done, x, rest, rfl, outcomes', s', hdone, hx⟩)
        · exact Or.inl ⟨outcomes, s, ⟨rfl, rfl⟩, hrun, hx⟩
        · exact Or.inr ⟨done, x, rest, rfl, outcomes', s', ⟨o, s₁, ho, hdone⟩, hx⟩
      · rintro (⟨_, _, ⟨rfl, rfl⟩, -, hx⟩ |
          ⟨done, x, rest, rfl, outcomes', s', ⟨o, s₁, ho, hdone⟩, hx⟩)
        · exact Or.inl hx
        · exact Or.inr ⟨o, s₁, ho, done, x, rest, rfl, outcomes', s', hdone, hx⟩
    · have hstops : Stops (dependsLoop lv hdl (action :: actions) outcomes) s ↔
          Stops (dependsLoop lv hdl actions outcomes₁) s₁ := by
        rw [Stops, hcons, Stops]
      rw [hstops, ih]
      simp only [hcons]
      refine (or_iff_right ?_).symm
      rintro ⟨_, _, ⟨rfl, rfl⟩, hyes, -⟩
      exact hno hyes

/-- What is not handed to the handler as a whole is an array for the loop, or an error. -/
theorem exec_cases {d : JDispatch} {jval : JVal}
    (hsingle : ¬(d.singles.head? = some none ∨ some jval.getType ∈ d.singles)) :
    (d.exec lv jval hdl = do
        let _ ← dependsLoop lv hdl (d.dependent jval) []
        return ()) ∨
      (d.dependent jval = [] ∧ ∃ code, d.exec lv jval hdl = error lv code) := by
  unfold JDispatch.exec JDispatch.dependent
  rw [if_neg hsingle, if_neg hsingle]
  split
  · cases jval with
    | array actions => exact Or.inl rfl
    | _ => exact Or.inr ⟨rfl, 298, rfl⟩
  · exact Or.inr ⟨rfl, 3, rfl⟩

/-- The dispatching stops in one of the calls of the handler. -/
theorem stops_exec {d : JDispatch} {jval : JVal} : Stops (d.exec lv jval hdl) s ↔
    ∃ x s', d.Calls lv jval hdl s x s' ∧ Stops (hdl x) s' := by
  by_cases hsingle : d.singles.head? = some none ∨ some jval.getType ∈ d.singles
  · have hnone : d.dependent jval = [] := if_pos hsingle
    rw [JDispatch.exec, if_pos hsingle, stops_bind]
    constructor
    · rintro (hstop | ⟨o, s', -, hpure⟩)
      · exact ⟨jval, s, .single hsingle, hstop⟩
      · exact absurd hpure (not_stops_pure _)
    · rintro ⟨x, s', hcall, hstop⟩
      cases hcall with
      | single => exact Or.inl hstop
      | dependent hactions =>
        rw [hnone] at hactions
        simp at hactions
  · have hcalls (x : JVal) (s' : Session) : d.Calls lv jval hdl s x s' ↔
        ∃ done rest outcomes, d.dependent jval = done ++ x :: rest ∧
          dependsLoop lv hdl done [] s = (.ok outcomes, s') ∧ Runnable outcomes x := by
      constructor
      · rintro (h | ⟨hactions, hdone, hrun⟩)
        · exact absurd h hsingle
        · exact ⟨_, _, _, hactions, hdone, hrun⟩
      · exact fun ⟨_, _, _, hactions, hdone, hrun⟩ => .dependent hactions hdone hrun
    simp only [hcalls]
    rcases exec_cases hsingle with hexec | ⟨hnil, code, hexec⟩
    · rw [hexec, stops_bind]
      constructor
      · rintro (hstop | ⟨o, s', -, hpure⟩)
        · obtain ⟨done, x, rest, hactions, outcomes, s', hdone, hrun, hx⟩ :=
            stops_dependsLoop.mp hstop
          exact ⟨x, s', ⟨done, rest, outcomes, hactions, hdone, hrun⟩, hx⟩
        · exact absurd hpure (not_stops_pure _)
      · rintro ⟨x, s', ⟨done, rest, outcomes, hactions, hdone, hrun⟩, hx⟩
        exact Or.inl (stops_dependsLoop.mpr
          ⟨done, x, rest, hactions, outcomes, s', hdone, hrun, hx⟩)
    · rw [hexec]
      refine iff_of_false (not_stops_error code) ?_
      rintro ⟨x, s', ⟨done, rest, outcomes, hactions, -⟩, -⟩
      rw [hnil] at hactions
      simp at hactions

theorem stops_invoke {x : JVal} : Stops (invoke hdl x) s ↔
    Stops (hdl x) { s with invoked := s.invoked ++ [(s.obj, x)] } := by
  have hrecorded : (Program.modify fun s : Session =>
      { s with invoked := s.invoked ++ [(s.obj, x)] } : M Unit) s =
      (.ok (), { s with invoked := s.invoked ++ [(s.obj, x)] }) := rfl
  unfold invoke
  rw [stops_bind_ok hrecorded, stops_bind]
  constructor
  · rintro (hstop | ⟨o, s', -, hrest⟩)
    · exact hstop
    · exact absurd hrest (not_stops_iff.mpr ⟨_, _, rfl⟩)
  · exact Or.inl

/-- The loop over the objects stops in one of the calls that are made for them. -/
theorem stops_objects {sub : Subsystem} {conn : Ptr} {target : TargetParser} {idx : Method}
    {body : JVal} {objs : List Ptr} :
    Stops (forEach (execOn lv sub conn target idx body) objs) s ↔
      ∃ x s', CallsFor lv sub conn target idx body objs s x s' ∧
        Stops ((sub.handlers lv conn target).methods lv idx x)
          { s' with invoked := s'.invoked ++ [(s'.obj, x)] } := by
  have hobject (v : Ptr) (s₁ : Session) : Stops (execOn lv sub conn target idx body v) s₁ ↔
      ∃ x s', (sub.jdispatchers idx).Calls lv body
          (invoke ((sub.handlers lv conn target).methods lv idx)) { s₁ with obj := some v } x s' ∧
        Stops ((sub.handlers lv conn target).methods lv idx x)
          { s' with invoked := s'.invoked ++ [(s'.obj, x)] } := by
    have hcurrent : (Program.modify fun s : Session => { s with obj := some v } : M Unit) s₁ =
        (.ok (), { s₁ with obj := some v }) := rfl
    unfold execOn execBody
    rw [stops_bind_ok hcurrent, stops_exec]
    simp only [stops_invoke]
  rw [stops_forEach]
  constructor
  · rintro ⟨done, v, rest, hobjs, s₁, hdone, hstop⟩
    obtain ⟨x, s', hcall, hx⟩ := (hobject v s₁).mp hstop
    exact ⟨x, s', ⟨done, v, rest, s₁, hobjs, hdone, hcall⟩, hx⟩
  · rintro ⟨x, s', ⟨done, v, rest, s₁, hobjs, hdone, hcall⟩, hx⟩
    exact ⟨done, v, rest, hobjs, s₁, hdone, (hobject v s₁).mpr ⟨x, s', hcall, hx⟩⟩

end Loops

section Requests

variable {lib : Rapidjson} {lv : Libvirt} {config : IniConfig} {req : Request}
  {target : TargetParser}

theorem opened_run {conn : Option Ptr}
    (h : (lv [] (.connectOpen (cstr config.connURI)) : Option Ptr) = conn) :
    call lv (.connectOpen (cstr config.connURI)) Session.init =
      (.ok conn, Session.init.asked ⟨.connectOpen (cstr config.connURI), conn⟩) := by
  subst h
  rfl

theorem handleJsonBody_dispatched {conn : Ptr} {key : Str} {sub : Subsystem}
    (h : Dispatched lv config req target conn key sub) :
    handleJsonBody lib lv config req target Session.init =
      object lib lv sub conn req target (Session.opened config conn) := by
  obtain ⟨rest, hparts⟩ := h.parts
  unfold handleJsonBody
  rw [if_neg h.authorized, hparts]
  dsimp only
  rw [if_neg (not_not.mpr rfl), bind_run_ok (opened_run h.opened)]
  dsimp only
  rw [h.subsystem]
  rfl

/-- A request that is not dispatched is answered with an error. -/
theorem stops_handleJsonBody : Stops (handleJsonBody lib lv config req target) Session.init ↔
    ∃ conn key sub, Dispatched lv config req target conn key sub ∧
      Stops (object lib lv sub conn req target) (Session.opened config conn) := by
  constructor
  · intro hstop
    unfold handleJsonBody at hstop
    split at hstop
    · exact absurd hstop (not_stops_error 1)
    · rename_i hauth
      split at hstop
      · exact absurd hstop (not_stops_error 4)
      · split at hstop
        · exact absurd hstop (not_stops_error 5)
        · exact absurd hstop (not_stops_error 6)
      · rename_i front key rest hparts
        split at hstop
        · exact absurd hstop (not_stops_error 5)
        · rename_i hfront
          obtain rfl : front = lit "libvirt" := not_not.mp hfront
          cases hanswer : (lv [] (.connectOpen (cstr config.connURI)) : Option Ptr) with
          | none =>
            rw [stops_bind_ok (opened_run hanswer)] at hstop
            exact absurd hstop (not_stops_error 10)
          | some conn =>
            rw [stops_bind_ok (opened_run hanswer)] at hstop
            dsimp only at hstop
            split at hstop
            · exact absurd hstop (not_stops_error 7)
            · rename_i sub hsub
              exact ⟨conn, key, sub, ⟨hauth, ⟨rest, hparts⟩, hanswer, hsub⟩, hstop⟩
  · rintro ⟨conn, key, sub, hdispatched, hstop⟩
    unfold Stops
    rwa [handleJsonBody_dispatched hdispatched]

/-- A PATCH request stops while its objects are listed, or in a call for one of them. -/
theorem stops_object (hpatch : req.method = .patch) {sub : Subsystem} {conn : Ptr} {s : Session} :
    Stops (object lib lv sub conn req target) s ↔ Stops (resolveFor lv sub conn req target) s ∨
      ∃ objs s₀ x s', resolveFor lv sub conn req target s = (.ok objs, s₀) ∧
        CallsFor lv sub conn target .alter (lib.parse (cstr req.body)) objs
          { s₀ with resolved := objs } x s' ∧
        Stops ((sub.handlers lv conn target).methods lv .alter x)
          { s' with invoked := s'.invoked ++ [(s'.obj, x)] } := by
  have hidx : verbToIdx req.method = some .alter := by rw [hpatch]; rfl
  have hpost : req.method ≠ .post := by simp [hpatch]
  have hresolved (objs : List Ptr) (s₀ : Session) :
      (Program.modify fun s : Session => { s with resolved := objs } : M Unit) s₀ =
        (.ok (), { s₀ with resolved := objs }) := rfl
  unfold object
  rw [stops_bind]
  refine or_congr_right ?_
  constructor
  · rintro ⟨objs, s₀, hobjs, hstop⟩
    rw [stops_bind_ok (hresolved objs s₀), hidx] at hstop
    dsimp only at hstop
    rw [if_neg hpost] at hstop
    obtain ⟨x, s', hcall, hx⟩ := stops_objects.mp hstop
    exact ⟨objs, s₀, x, s', hobjs, hcall, hx⟩
  · rintro ⟨objs, s₀, x, s', hobjs, hcall, hx⟩
    refine ⟨objs, s₀, hobjs, ?_⟩
    rw [stops_bind_ok (hresolved objs s₀), hidx]
    dsimp only
    rw [if_neg hpost]
    exact stops_objects.mpr ⟨x, s', hcall, hx⟩

end Requests

end Virthttp
