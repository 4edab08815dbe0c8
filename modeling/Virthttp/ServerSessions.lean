import Virthttp.Dialogue
import Virthttp.ServerResults

namespace Virthttp

open Dialogue (History Moves InTurns turn)

variable {libs : Libraries} {config : IniConfig} {sv sv' : Server} {ev : ServerEvent}

/-- What a step says on connection `i`. Reading is followed by nothing where the connection waits
for the mutex, and by its end where no response is sent. -/
def ServerEvent.moves (i : ℕ) : ServerEvent → List (Dialogue.Move Request Response)
  | .hungUp j => if j = i then [.leave] else []
  | .received j req sent _ stored =>
    if j = i then .ask req :: match sent, stored with
      | res :: _, _ => [.answer res]
      | [], [.admitted true] => []
      | [], _ => [.leave]
    else []
  | .enqueued j _ sent _ =>
    if j = i then match sent with
      | res :: _ => [.answer res]
      | [] => [.leave]
    else []
  | .wrote j res ok =>
    if j = i then [if ok && !res.needEof then .delivered res else .leave] else []
  | _ => []

inductive AnswersRequest (libs : Libraries) (config : IniConfig) (req : Request) : Response → Prop
  | atOnce (lv : Libvirt) (bs : List (Action 32 Job)) (es : List (Event 32)) (rt : Runtime 32 Job)
      (res : Response) (hrt : asyncRun 32 Job bs = some (es, rt))
      (hsent : (handleRequest libs lv true ⟨config, rt⟩ req).sent = [res]) :
      AnswersRequest libs config req res
  | enqueued (target : TargetParser) (id : BitVec 32) (hroute : routeOf req = .launch target) :
      AnswersRequest libs config req (jsonResponse libs req.movedFrom 200 (hexEncodeId id))

inductive AtPhase : Option HttpSession → Dialogue.Phase Request Response → Prop
  | absent : AtPhase none .idle
  | reading : AtPhase (some .reading) .idle
  | launching (req : Request) (target : TargetParser) (hroute : routeOf req = .launch target) :
      AtPhase (some (.launching req target)) (.asked req)
  | writing (req : Request) (res : Response) : AtPhase (some (.writing res)) (.answered req res)
  | closed : AtPhase (some .closed) .over

abbrev KeptOpen (res : Response) : Prop := res.keepAlive = true

/-- What has been said on connection `i` fits what it waits for. -/
def Converses (libs : Libraries) (config : IniConfig) (es : List ServerEvent) (sv : Server)
    (i : ℕ) : Prop :=
  ∃ p, History (AnswersRequest libs config) KeptOpen (es.flatMap (ServerEvent.moves i)) p ∧
    AtPhase sv.sessions[i]? p

section Step

variable {es : List ServerEvent} {i : ℕ}

/-- A step that neither says anything on a connection nor changes what it waits for. -/
theorem Converses.quiet (h : Converses libs config es sv i) (hmoves : ev.moves i = [])
    (hsession : sv'.sessions[i]? = sv.sessions[i]?) : Converses libs config (es ++ [ev]) sv' i := by
  obtain ⟨p, hhistory, hp⟩ := h
  refine ⟨p, ?_, by rwa [hsession]⟩
  rwa [List.flatMap_append, List.flatMap_singleton, hmoves, List.append_nil]

/-- A step that says one thing. -/
theorem Converses.one {m : Dialogue.Move Request Response} {p p' : Dialogue.Phase Request Response}
    (h : History (AnswersRequest libs config) KeptOpen (es.flatMap (ServerEvent.moves i)) p)
    (hmoves : ev.moves i = [m]) (hm : Moves (AnswersRequest libs config) KeptOpen p m p')
    (hp : AtPhase sv'.sessions[i]? p') : Converses libs config (es ++ [ev]) sv' i := by
  refine ⟨p', ?_, hp⟩
  rw [List.flatMap_append, List.flatMap_singleton, hmoves]
  exact h.move hm

/-- A step that says two things. -/
theorem Converses.two {m m' : Dialogue.Move Request Response}
    {p p' p'' : Dialogue.Phase Request Response}
    (h : History (AnswersRequest libs config) KeptOpen (es.flatMap (ServerEvent.moves i)) p)
    (hmoves : ev.moves i = [m, m']) (hm : Moves (AnswersRequest libs config) KeptOpen p m p')
    (hm' : Moves (AnswersRequest libs config) KeptOpen p' m' p'')
    (hp : AtPhase sv'.sessions[i]? p'') :
    Converses libs config (es ++ [ev]) sv' i := by
  refine ⟨p'', ?_, hp⟩
  rw [List.flatMap_append, List.flatMap_singleton, hmoves]
  have hboth := (h.move hm).move hm'
  rwa [List.append_assoc] at hboth

theorem getElem?_set_self {l : List HttpSession} {old : HttpSession} (h : l[i]? = some old)
    (new : HttpSession) : (l.set i new)[i]? = some new := by
  obtain ⟨hlt, _⟩ := List.getElem?_eq_some_iff.mp h
  rw [List.getElem?_set, if_pos rfl, if_pos hlt]

theorem getElem?_set_other {l : List HttpSession} {j : ℕ} (hj : j ≠ i) (new : HttpSession) :
    (l.set j new)[i]? = l[i]? := by
  rw [List.getElem?_set, if_neg hj]

/-- A connection that is accepted waits for a request, as it did before it was there. -/
theorem AtPhase.accept {l : List HttpSession} {p : Dialogue.Phase Request Response}
    (hp : AtPhase l[i]? p) : AtPhase (l ++ [.reading])[i]? p := by
  rcases Nat.lt_trichotomy i l.length with hlt | heq | hgt
  · rwa [List.getElem?_append_left hlt]
  · rw [List.getElem?_eq_none_iff.mpr (Nat.le_of_eq heq.symm)] at hp
    cases hp
    rw [List.getElem?_append_right (Nat.le_of_eq heq.symm), heq, Nat.sub_self]
    exact .reading
  · rw [List.getElem?_eq_none_iff.mpr (Nat.le_of_lt hgt)] at hp
    rwa [List.getElem?_eq_none_iff.mpr (by simpa using Nat.succ_le_of_lt hgt)]

/-- No more than one response is handed to `send`. -/
theorem handleRequest_sent (libs : Libraries) (lv : Libvirt) (canSpawn : Bool)
    (gstore : GeneralStore) (req : Request) :
    (handleRequest libs lv canSpawn gstore req).sent = [] ∨
      ∃ res, (handleRequest libs lv canSpawn gstore req).sent = [res] := by
  unfold handleRequest
  split
  · exact Or.inr ⟨_, rfl⟩
  · exact Or.inr ⟨_, rfl⟩
  · unfold serveRetrieve
    split
    · exact Or.inl rfl
    · exact Or.inr ⟨_, rfl⟩
  · unfold serveLaunch
    split
    · exact Or.inr ⟨_, rfl⟩
    · exact Or.inr ⟨_, rfl⟩
    · exact Or.inl rfl
    · exact Or.inl rfl
  · unfold serveJson
    split
    · exact Or.inl rfl
    · exact Or.inl rfl
    · exact Or.inr ⟨_, rfl⟩

theorem storeEvents_not_admitted {rt : Runtime 32 Job} {req : Request}
    (hexit : ∀ target, routeOf req = .launch target → rt.store.full = true) :
    storeEvents rt req ≠ [.admitted true] := by
  intro hmem
  cases hroute : routeOf req with
  | launch target =>
    have haction : storeAction req = some .arrive := by
      rw [storeAction, hroute]
    simp [storeEvents, haction, Runtime.step, hexit target hroute] at hmem
  | retrieve strId =>
    by_cases hid : numericIdMatch strId = true
    · have haction : storeAction req = some (.retrieve (hexDecodeId strId)) := by
        simp [storeAction, hroute, hid]
      simp [storeEvents, haction, Runtime.step] at hmem
    · have haction : storeAction req = none := by
        simp [storeAction, hroute, hid]
      simp [storeEvents, haction] at hmem
  | _ =>
    have haction : storeAction req = none := by
      rw [storeAction, hroute]
    simp [storeEvents, haction] at hmem

/-- What a connection is told in the step in which its request is handled up to the end. -/
theorem received_moves {req : Request} {rt : Runtime 32 Job}
    {sent : List Response} {calls : List Exchange} (hsent : sent = [] ∨ ∃ res, sent = [res])
    (hexit : ∀ target, routeOf req = .launch target → rt.store.full = true) :
    (∃ res, sent = [res] ∧ Server.afterHandling sent = .writing res ∧
      (ServerEvent.received i req sent calls (storeEvents rt req)).moves i =
        [.ask req, .answer res]) ∨
      (Server.afterHandling sent = .closed ∧
        (ServerEvent.received i req sent calls (storeEvents rt req)).moves i =
          [.ask req, .leave]) := by
  rcases hsent with rfl | ⟨res, rfl⟩
  · refine Or.inr ⟨rfl, ?_⟩
    simp [ServerEvent.moves, storeEvents_not_admitted hexit]
  · refine Or.inl ⟨res, rfl, rfl, ?_⟩
    simp only [ServerEvent.moves, if_true]

/-- A turn of the server says nothing wrong on any connection. -/
theorem Converses.turn {bs : List (Action 32 Job)} {stored : List (Event 32)}
    (hstore : asyncRun 32 Job bs = some (stored, sv.asyncStore))
    (h : Converses libs config es sv i) (hturn : ServerTurn libs config sv ev sv') :
    Converses libs config (es ++ [ev]) sv' i := by
  have hother {j : ℕ} {new : HttpSession} (hj : j ≠ i)
      (hsessions : sv'.sessions = sv.sessions.set j new) (hmoves : ev.moves i = []) :
      Converses libs config (es ++ [ev]) sv' i :=
    h.quiet hmoves (by rw [hsessions, getElem?_set_other hj])
  obtain ⟨p, hhistory, hp⟩ := id h
  cases hturn with
  | accepted => exact ⟨p, by simpa [ServerEvent.moves] using hhistory, hp.accept⟩
  | hungUp j hj =>
    by_cases hji : j = i
    · subst hji
      rw [hj] at hp
      cases hp
      refine .one hhistory (by simp [ServerEvent.moves]) (.leave _ (by simp)) ?_
      change AtPhase (sv.sessions.set j .closed)[j]? _
      rw [getElem?_set_self hj]
      exact .closed
    · exact hother hji rfl (by simp [ServerEvent.moves, hji])
  | admitted j req target hj hroute _ =>
    by_cases hji : j = i
    · subst hji
      rw [hj] at hp
      cases hp
      refine .one hhistory (by simp [ServerEvent.moves]) (.ask req) ?_
      change AtPhase (sv.sessions.set j (.launching req target))[j]? _
      rw [getElem?_set_self hj]
      exact .launching req target hroute
    · exact hother hji rfl (by simp [ServerEvent.moves, hji])
  | answered j req lv served hj hexit hserved =>
    by_cases hji : j = i
    · subst hji
      rw [hj] at hp
      cases hp
      have hsent := handleRequest_sent libs lv true ⟨config, sv.asyncStore⟩ req
      rw [← hserved] at hsent
      have hat : (sv.serve j served).sessions[j]? = some (Server.afterHandling served.sent) :=
        getElem?_set_self hj _
      rcases received_moves hsent hexit with ⟨res, hone, hafter, hmoves⟩ | ⟨hafter, hmoves⟩
      · refine .two hhistory hmoves (.ask req) (.answer req res ?_) ?_
        · exact .atOnce lv bs stored sv.asyncStore res hstore (by rw [← hserved, hone])
        · rw [hat, hafter]
          exact .writing req res
      · refine .two hhistory hmoves (.ask req) (.leave _ (by simp)) ?_
        rw [hat, hafter]
        exact .closed
    · exact hother hji rfl (by simp [ServerEvent.moves, hji])
  | launched j job t id before rt res hj hstep hres =>
    by_cases hji : j = i
    · subst hji
      rw [hj] at hp
      cases hp with
      | launching _ _ hroute =>
        refine .one hhistory (by simp [ServerEvent.moves]) (.answer job.req res ?_) ?_
        · rw [hres]
          exact .enqueued job.target id hroute
        · change AtPhase (sv.sessions.set j (.writing res))[j]? _
          rw [getElem?_set_self hj]
          exact .writing job.req res
    · exact hother hji rfl (by simp [ServerEvent.moves, hji])
  | launchFailed j job id before rt hj hstep =>
    by_cases hji : j = i
    · subst hji
      rw [hj] at hp
      cases hp
      refine .one hhistory (by simp [ServerEvent.moves]) (.leave _ (by simp)) ?_
      change AtPhase (sv.sessions.set j .closed)[j]? _
      rw [getElem?_set_self hj]
      exact .closed
    · exact hother hji rfl (by simp [ServerEvent.moves, hji])
  | wrote j ok res hj =>
    by_cases hji : j = i
    · subst hji
      rw [hj] at hp
      cases hp with
      | writing req _ =>
        have hat (new : HttpSession) : (sv.setSession j new).sessions[j]? = some new :=
          getElem?_set_self hj new
        by_cases hkeep : (ok && !res.needEof) = true
        · refine .one hhistory (by simp only [ServerEvent.moves, if_true, if_pos hkeep])
            (.delivered req res ?_) ?_
          · simpa [Response.needEof] using (Bool.and_eq_true_iff.mp hkeep).2
          · rw [if_pos hkeep, hat]
            exact .reading
        · refine .one hhistory (by simp only [ServerEvent.moves, if_true, if_neg hkeep])
            (.leave _ (by simp)) ?_
          rw [if_neg hkeep, hat]
          exact .closed
    · exact hother hji rfl (by simp [ServerEvent.moves, hji])
  | _ => exact h.quiet rfl rfl

end Step

/-- On every connection of every run the server takes turns: it reads a request, hands over one
response that the request can have, writes that response, and only reads on where the response
keeps the connection open. The last turn may be unfinished, and after its end nothing is said. -/
theorem connections_take_turns (libs : Libraries) (config : IniConfig) (as : List ServerAction)
    (es : List ServerEvent) (sv : Server) (h : serverRun libs config as = some (es, sv)) (i : ℕ) :
    ∃ p turns rest,
      AtPhase sv.sessions[i]? p ∧
        InTurns (AnswersRequest libs config) KeptOpen (es.flatMap (ServerEvent.moves i)) p
          turns rest := by
  have hconverses : (∃ bs, asyncRun 32 Job bs = some (es.flatMap ServerEvent.stored,
      sv.asyncStore)) ∧ Converses libs config es sv i := by
    refine Runs.exec_invariant_nil (I := fun es sv => (∃ bs, asyncRun 32 Job bs =
      some (es.flatMap ServerEvent.stored, sv.asyncStore)) ∧ Converses libs config es sv i)
      ?_ ?_ h
    · rintro es sv a ev sv' ⟨⟨bs, hbs⟩, hI⟩ hstep
      have hturn := (turn_cases hstep).2
      obtain ⟨cs, hcs⟩ := turn_store hturn
      refine ⟨⟨bs ++ cs, ?_⟩, hI.turn hbs hturn⟩
      rw [List.flatMap_append, List.flatMap_singleton]
      exact Runs.exec_append hbs hcs
    · exact ⟨⟨[], rfl⟩, .idle, .start, .absent⟩
  obtain ⟨p, hhistory, hp⟩ := hconverses.2
  obtain ⟨turns, rest, hturns⟩ := hhistory.inTurns
  exact ⟨p, turns, rest, hp, hturns⟩

theorem connections_take_turns_one :
    ∃ es sv, launchAndTake = some (es, sv) ∧ requestsOf 0 es ≠ [] ∧ ∃ p turns rest,
      AtPhase sv.sessions[0]? p ∧
        InTurns (AnswersRequest plainLibs openConfig) KeptOpen
          (es.flatMap (ServerEvent.moves 0)) p turns rest := by
  refine ⟨?es, ?sv, ?hrun, ?_, connections_take_turns plainLibs openConfig _ ?es ?sv ?hrun 0⟩
  case hrun => rfl
  simp [requestsOf, ServerEvent.request?]

end Virthttp
