import Virthttp.ServerResults

namespace Virthttp

def ServerAction.concerns (quiet : ℕ → Bool) : ServerAction → Bool
  | .read i _ _ => quiet i
  | .launch i _ => quiet i
  | .wrote i _ => quiet i
  | _ => false

def ServerEvent.concerns (quiet : ℕ → Bool) : ServerEvent → Bool
  | .hungUp i => quiet i
  | .received i _ _ _ _ => quiet i
  | .enqueued i _ _ _ => quiet i
  | .wrote i _ _ => quiet i
  | _ => false

def ServerEvent.plain (quiet : ℕ → Bool) : ServerEvent → Bool
  | .received i req _ _ _ => !quiet i || (storeAction req).isNone
  | _ => true

/-- The server `bare` is `sv` but for the connections in `quiet`, none of which waits for the
store. -/
structure Unnoticed (quiet : ℕ → Bool) (sv bare : Server) : Prop where
  asyncStore : bare.asyncStore = sv.asyncStore
  terminated : sv.terminated = false → bare.terminated = false
  length : bare.sessions.length = sv.sessions.length
  others : ∀ i, quiet i = false → bare.sessions[i]? = sv.sessions[i]?
  waiting : ∀ i, quiet i = true → ∀ session ∈ sv.sessions[i]?, session.isLaunching = false

section Steps

variable {quiet : ℕ → Bool} {libs : Libraries} {config : IniConfig} {sv bare sv' : Server}
  {ev : ServerEvent}

theorem unnoticed_empty : Unnoticed quiet Server.empty Server.empty where
  asyncStore := rfl
  terminated := id
  length := rfl
  others _ _ := rfl
  waiting i _ session h := by simp [Server.empty] at h

/-- A connection that is not in the set goes on in both servers. -/
theorem Unnoticed.setShown (h : Unnoticed quiet sv bare) {i : ℕ} (hi : quiet i = false)
    (session : HttpSession) (rt : Runtime 32 Job) (terminated : Bool) :
    Unnoticed quiet ⟨sv.sessions.set i session, rt, terminated⟩
      ⟨bare.sessions.set i session, rt, terminated⟩ where
  asyncStore := rfl
  terminated := id
  length := by rw [List.length_set, List.length_set, h.length]
  others j hj := by rw [List.getElem?_set, List.getElem?_set, h.others j hj, h.length]
  waiting j hj session' hmem := by
    have hne : i ≠ j := by
      rintro rfl
      rw [hi] at hj
      contradiction
    rw [List.getElem?_set_ne hne] at hmem
    exact h.waiting j hj session' hmem

/-- A connection in the set goes on in one server only. -/
theorem Unnoticed.setHidden (h : Unnoticed quiet sv bare) (halive : sv.terminated = false) {i : ℕ}
    (hi : quiet i = true) {session : HttpSession} (hsession : session.isLaunching = false)
    (terminated : Bool) :
    Unnoticed quiet ⟨sv.sessions.set i session, sv.asyncStore, terminated⟩ bare where
  asyncStore := h.asyncStore
  terminated _ := h.terminated halive
  length := by rw [h.length, List.length_set]
  others j hj := by
    have hne : i ≠ j := by
      rintro rfl
      rw [hi] at hj
      contradiction
    rw [List.getElem?_set_ne hne, h.others j hj]
  waiting j hj session' hmem := by
    by_cases hij : i = j
    · subst hij
      rw [List.getElem?_set, if_pos rfl] at hmem
      split at hmem
      · rw [Option.mem_some_iff.mp hmem] at hsession
        exact hsession
      · cases hmem
    · rw [List.getElem?_set_ne hij] at hmem
      exact h.waiting j hj session' hmem

theorem afterHandling_not_launching (sent : List Response) :
    (Server.afterHandling sent).isLaunching = false := by
  unfold Server.afterHandling
  split <;> rfl

/-- A request that asks nothing of the store is answered at once, and leaves the store alone. -/
theorem handle_plain {req : Request} (hreq : storeAction req = none) (i : ℕ) (lv : Libvirt) :
    ∃ sent calls terminated, sv.handle libs config i req lv =
      (.received i req sent calls [],
        ⟨sv.sessions.set i (Server.afterHandling sent), sv.asyncStore, terminated⟩) := by
  have hroute : ∀ target, routeOf req ≠ .launch target := by
    intro target hroute
    rw [storeAction, hroute] at hreq
    cases hreq
  have hevents : storeEvents sv.asyncStore req = [] := by rw [storeEvents, hreq]
  have hstore := @handleRequest_store libs config req sv.asyncStore
    (fun target htarget => absurd htarget (hroute target)) lv
  rw [hreq, hevents] at hstore
  have hsame := (Prod.mk.inj (Option.some.inj hstore)).2
  unfold Server.handle
  cases hcase : routeOf req with
  | launch target => exact absurd hcase (hroute target)
  | _ =>
    let served := handleRequest libs lv true ⟨config, sv.asyncStore⟩ req
    refine ⟨served.sent, served.calls, decide (served.ending ≠ .returned), ?_⟩
    simp only [hevents, Server.serve, ← hsame, served]

theorem handle_label (libs : Libraries) (config : IniConfig) (sv : Server) (i : ℕ) (req : Request)
    (lv : Libvirt) : ∃ sent calls stored,
      (sv.handle libs config i req lv).1 = .received i req sent calls stored := by
  unfold Server.handle
  dsimp only
  split
  · split <;> exact ⟨_, _, _, rfl⟩
  · exact ⟨_, _, _, rfl⟩

/-- What a connection in the set does is not seen by the others. -/
theorem hidden_step (h : Unnoticed quiet sv bare) {a : ServerAction}
    (ha : a.concerns quiet = true) (hev : ev.plain quiet = true)
    (hstep : sv.step libs config a = some (ev, sv')) :
    ev.concerns quiet = true ∧ Unnoticed quiet sv' bare := by
  have halive := (turn_cases hstep).1
  unfold Server.step at hstep
  rw [halive, if_neg Bool.false_ne_true] at hstep
  cases a with
  | read i arrival lv =>
    simp only at hstep
    split at hstep
    · cases arrival with
      | request req =>
        cases hreq : storeAction req with
        | none =>
          obtain ⟨sent, calls, terminated, heq⟩ :=
            @handle_plain libs config sv req hreq i lv
          simp only [heq, Option.some.injEq, Prod.mk.injEq] at hstep
          obtain ⟨rfl, rfl⟩ := hstep
          exact ⟨ha, h.setHidden halive ha (afterHandling_not_launching sent) terminated⟩
        | some b =>
          simp only [Option.some.injEq] at hstep
          obtain ⟨sent, calls, stored, hlabel⟩ := handle_label libs config sv i req lv
          rw [hstep] at hlabel
          subst hlabel
          have hi : quiet i = true := ha
          simp [ServerEvent.plain, hi, hreq] at hev
      | endOfStream | failed =>
        cases hstep
        exact ⟨ha, h.setHidden halive ha rfl sv.terminated⟩
    · contradiction
  | launch i canSpawn =>
    simp only at hstep
    split at hstep
    · rename_i req target hi
      have hwaits := h.waiting i ha _ hi
      cases hwaits
    · contradiction
  | wrote i ok =>
    simp only at hstep
    split at hstep
    · cases hstep
      refine ⟨ha, h.setHidden halive ha ?_ sv.terminated⟩
      split <;> rfl
    · contradiction
  | _ => simp [ServerAction.concerns] at ha

theorem handle_shown {sessions sessions' : List HttpSession} {rt : Runtime 32 Job}
    (h : Unnoticed quiet ⟨sessions, rt, false⟩ ⟨sessions', rt, false⟩) {i : ℕ}
    (hi : quiet i = false) (req : Request) (lv : Libvirt) :
    (Server.handle libs config ⟨sessions', rt, false⟩ i req lv).1 =
        (Server.handle libs config ⟨sessions, rt, false⟩ i req lv).1 ∧
      Unnoticed quiet (Server.handle libs config ⟨sessions, rt, false⟩ i req lv).2
        (Server.handle libs config ⟨sessions', rt, false⟩ i req lv).2 := by
  unfold Server.handle
  dsimp only
  split
  · split
    · exact ⟨rfl, h.setShown hi _ _ _⟩
    · exact ⟨rfl, h.setShown hi _ _ _⟩
  · exact ⟨rfl, h.setShown hi _ _ _⟩

section Shown

variable {sessions sessions' : List HttpSession} {rt : Runtime 32 Job}

/-- Both servers accept a connection under the same number. -/
theorem Unnoticed.accept (h : Unnoticed quiet ⟨sessions, rt, false⟩ ⟨sessions', rt, false⟩) :
    Unnoticed quiet ⟨sessions ++ [.reading], rt, false⟩ ⟨sessions' ++ [.reading], rt, false⟩ where
  asyncStore := rfl
  terminated := id
  length := by
    have hlength := h.length
    dsimp only at hlength
    simp [hlength]
  others i hi := by
    have hsame := h.others i hi
    have hlength := h.length
    dsimp only at hsame hlength
    simp only [List.getElem?_append, hlength, hsame]
  waiting i hi session hmem := by
    simp only [List.getElem?_append] at hmem
    split at hmem
    · exact h.waiting i hi session hmem
    · rw [List.getElem?_singleton] at hmem
      split at hmem
      · rw [← Option.mem_some_iff.mp hmem]
        rfl
      · cases hmem

/-- A step of the store alone is the same in both. -/
theorem work_shown (h : Unnoticed quiet ⟨sessions, rt, false⟩ ⟨sessions', rt, false⟩)
    {b : Action 32 Job} {x : Event 32 × Server}
    (hx : Server.work ⟨sessions, rt, false⟩ b = some x) :
    ∃ bare', Server.work ⟨sessions', rt, false⟩ b = some (x.1, bare') ∧
      Unnoticed quiet x.2 bare' := by
  obtain ⟨ev', sv₁⟩ := x
  obtain ⟨rt', hrt, rfl⟩ := work_eq_some hx
  refine ⟨⟨sessions', rt', false⟩, ?_, ⟨rfl, id, h.length, h.others, h.waiting⟩⟩
  rw [Server.work, hrt]
  rfl

/-- A request on a connection outside of the set is read in both. -/
theorem read_shown (h : Unnoticed quiet ⟨sessions, rt, false⟩ ⟨sessions', rt, false⟩) {i : ℕ}
    (hi : quiet i = false) {req : Request} {lv : Libvirt} {ev : ServerEvent} {sv' : Server}
    (hread : Server.handle libs config ⟨sessions, rt, false⟩ i req lv = (ev, sv')) :
    ev.concerns quiet = false ∧ ∃ bare',
      Server.handle libs config ⟨sessions', rt, false⟩ i req lv = (ev, bare') ∧
        Unnoticed quiet sv' bare' := by
  obtain ⟨hlabel, hR⟩ := @handle_shown quiet libs config sessions sessions' rt h i hi req lv
  rw [hread] at hlabel hR
  obtain ⟨sent, calls, stored, hshape⟩ :=
    handle_label libs config ⟨sessions', rt, false⟩ i req lv
  rw [hlabel] at hshape
  dsimp only at hshape
  have hbare : Server.handle libs config ⟨sessions', rt, false⟩ i req lv =
      (ev, (Server.handle libs config ⟨sessions', rt, false⟩ i req lv).2) := Prod.ext hlabel rfl
  exact ⟨by rw [hshape]; exact hi, _, hbare, hR⟩

end Shown

/-- The others do the same in both servers. -/
theorem shown_step (h : Unnoticed quiet sv bare) {a : ServerAction}
    (ha : a.concerns quiet = false) (hstep : sv.step libs config a = some (ev, sv')) :
    ev.concerns quiet = false ∧
      ∃ bare', bare.step libs config a = some (ev, bare') ∧ Unnoticed quiet sv' bare' := by
  have halive := (turn_cases hstep).1
  have hbare := h.terminated halive
  have hstore := h.asyncStore
  obtain ⟨sessions, _, _⟩ := sv
  obtain ⟨sessions', rt, _⟩ := bare
  dsimp only at halive hbare hstore
  subst halive hbare hstore
  unfold Server.step at hstep ⊢
  simp only [Bool.false_eq_true, if_false] at hstep ⊢
  cases a with
  | accept ok =>
    cases ok with
    | true =>
      cases hstep
      exact ⟨rfl, _, rfl, h.accept⟩
    | false =>
      cases hstep
      exact ⟨rfl, _, rfl, h⟩
  | read i arrival lv =>
    have hi : quiet i = false := ha
    have hsame : sessions'[i]? = sessions[i]? := h.others i hi
    simp only [hsame]
    simp only at hstep
    split at hstep
    · cases arrival with
      | request req =>
        obtain ⟨hev, bare', hread, hR⟩ := read_shown h hi (Option.some.inj hstep)
        exact ⟨hev, bare', congrArg some hread, hR⟩
      | endOfStream | failed =>
        cases hstep
        exact ⟨hi, _, rfl, h.setShown hi .closed rt false⟩
    · contradiction
  | launch i canSpawn =>
    have hi : quiet i = false := ha
    have hsame : sessions'[i]? = sessions[i]? := h.others i hi
    simp only [hsame]
    simp only at hstep
    split at hstep
    · rename_i req target _
      unfold Server.launch at hstep ⊢
      dsimp only at hstep ⊢
      split at hstep
      · cases hstep
        exact ⟨hi, _, rfl, h.setShown hi _ _ _⟩
      · cases hstep
        exact ⟨hi, _, rfl, h.setShown hi _ _ _⟩
      · contradiction
    · contradiction
  | wrote i ok =>
    have hi : quiet i = false := ha
    have hsame : sessions'[i]? = sessions[i]? := h.others i hi
    simp only [hsame]
    simp only at hstep
    split at hstep
    · cases hstep
      exact ⟨hi, _, rfl, h.setShown hi _ _ _⟩
    · contradiction
  | compute t lv =>
    simp only at hstep ⊢
    split at hstep
    · rename_i task _
      unfold Server.compute at hstep ⊢
      dsimp only at hstep ⊢
      split at hstep
      · obtain ⟨x, hx, heq⟩ := Option.map_eq_some_iff.mp hstep
        obtain ⟨bare', hb, hR⟩ := work_shown h hx
        cases heq
        exact ⟨rfl, bare', by simp [hb], hR⟩
      · cases hstep
        exact ⟨rfl, _, rfl, ⟨rfl, id, h.length, h.others, h.waiting⟩⟩
      · contradiction
    · contradiction
  | housekeep t now =>
    obtain ⟨x, hx, heq⟩ := Option.map_eq_some_iff.mp hstep
    obtain ⟨bare', hb, hR⟩ := work_shown h hx
    cases heq
    exact ⟨rfl, bare', by simp [hb], hR⟩
  | publish t =>
    obtain ⟨x, hx, heq⟩ := Option.map_eq_some_iff.mp hstep
    obtain ⟨bare', hb, hR⟩ := work_shown h hx
    cases heq
    exact ⟨rfl, bare', by simp [hb], hR⟩

end Steps

/-- Connections that ask nothing of the asynchronous store are not noticed by the others: what is
left of any run of the server when all that they do is taken out is a run as well, in which
everybody else is sent the same, makes the same calls and starts the same workers. -/
theorem quiet_connections_unnoticed (libs : Libraries) (config : IniConfig) (quiet : ℕ → Bool)
    (as : List ServerAction) (es : List ServerEvent) (sv : Server)
    (h : serverRun libs config as = some (es, sv))
    (hquiet : ∀ i, quiet i = true → ∀ req ∈ requestsOf i es, storeAction req = none) :
    ∃ bare, serverRun libs config (as.filter fun a => !a.concerns quiet) =
        some (es.filter fun e => !e.concerns quiet, bare) ∧
      bare.asyncStore = sv.asyncStore ∧
        ∀ i, quiet i = false → bare.sessions[i]? = sv.sessions[i]? := by
  have hplain : ∀ e ∈ es, e.plain quiet = true := by
    intro e he
    cases e with
    | received i req sent calls stored =>
      cases hi : quiet i with
      | false => simp [ServerEvent.plain, hi]
      | true =>
        have hmem : req ∈ requestsOf i es :=
          List.mem_filterMap.mpr ⟨_, he, by simp [ServerEvent.request?]⟩
        simp [ServerEvent.plain, hquiet i hi req hmem]
    | _ => rfl
  have hhidden (sv bare : Server) (a : ServerAction) (ev : ServerEvent) (sv' : Server)
      (hR : Unnoticed quiet sv bare) (hev : ev.plain quiet = true)
      (hstep : sv.step libs config a = some (ev, sv')) (ha : a.concerns quiet = true) :
      ev.concerns quiet = true ∧ Unnoticed quiet sv' bare := hidden_step hR ha hev hstep
  have hshown (sv bare : Server) (a : ServerAction) (ev : ServerEvent) (sv' : Server)
      (hR : Unnoticed quiet sv bare) (hstep : sv.step libs config a = some (ev, sv'))
      (ha : a.concerns quiet = false) : ev.concerns quiet = false ∧
        ∃ bare', bare.step libs config a = some (ev, bare') ∧ Unnoticed quiet sv' bare' :=
    shown_step hR ha hstep
  obtain ⟨bare, hrun, hR⟩ := Runs.exec_erase hhidden hshown unnoticed_empty hplain h
  exact ⟨bare, hrun, hR.asyncStore, hR.others⟩

def workerAndOther : List ServerAction :=
  startWorker ++ [.accept true,
    .read 1 (.request ⟨.delete, lit "/libvirt/domains/by-name/vm", 11, [], []⟩) obliging,
    .wrote 0 true, .wrote 1 true]

theorem quiet_connections_unnoticed_one :
    ∃ es sv, serverRun plainLibs openConfig workerAndOther = some (es, sv) ∧
      (responsesOf 1 es).map Response.body = [lit "done"] ∧
      ∃ bare, serverRun plainLibs openConfig
          (workerAndOther.filter fun a => !a.concerns (· == 1)) =
            some (es.filter fun e => !e.concerns (· == 1), bare) ∧
        bare.asyncStore = sv.asyncStore ∧
          ∀ i, (i == 1) = false → bare.sessions[i]? = sv.sessions[i]? := by
  refine ⟨?es, ?sv, ?hrun, ?_, quiet_connections_unnoticed plainLibs openConfig (· == 1) _
    ?es ?sv ?hrun ?_⟩
  case hrun => rfl
  · rfl
  · intro i hi req hreq
    obtain rfl : i = 1 := by simpa using hi
    have hsame : (⟨.delete, lit "/libvirt/domains/by-name/vm", 11, [], []⟩ : Request) = req := by
      simpa [requestsOf, ServerEvent.request?] using hreq
    rw [← hsame]
    rfl

end Virthttp
