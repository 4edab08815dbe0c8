import Virthttp.QueryKeys
import Virthttp.RequestHandler
import Virthttp.HandlerRuns

namespace Virthttp

def packetIdOf (req : Request) : Str := fieldOf req.fields (lit "X-Packet-ID")

/-- The response carries the packet id of the request, if there is one, and keeps the connection
exactly if the request does. -/
structure Carries (libs : Libraries) (req : Request) (res : Response) : Prop where
  packetId : packetIdOf req ≠ [] → res.packetId = some (packetIdOf req)
  keepAlive : res.keepAlive = libs.keepAlive req.version req.fields

def Launches (canSpawn : Bool) (gstore : GeneralStore) (req : Request) (target : TargetParser) :
    Prop :=
  routeOf req = .launch target ∧
    ∃ id, (gstore.asyncStore.launch ⟨req, target⟩ none canSpawn).1 = some (.id id)

def Succeeds (canSpawn : Bool) (gstore : GeneralStore) (req : Request) : Prop :=
  (∃ strId, routeOf req = .retrieve strId) ∨ (∃ target, Launches canSpawn gstore req target) ∨
    ∃ target, routeOf req = .json target

/-- Nothing gets lost where the request is moved from: there is no packet id, and the connection is
kept as it is without any fields. -/
def Plain (libs : Libraries) (req : Request) : Prop :=
  packetIdOf req = [] ∧ libs.keepAlive req.version [] = libs.keepAlive req.version req.fields

theorem forwardPackid_carries (req : Request) (h : packetIdOf req ≠ []) :
    forwardPackid req = some (packetIdOf req) := if_neg h

theorem jsonResponse_carries (libs : Libraries) (req : Request) (status : ℕ) (body : Str) :
    Carries libs req (jsonResponse libs req status body) :=
  ⟨forwardPackid_carries req, rfl⟩

theorem handleCompression_packetId (libs : Libraries) (inHead : List (Str × Str))
    (res : Response) : (handleCompression libs inHead res).packetId = res.packetId := by
  apply handleCompression_keeps (f := Response.packetId)
  intro compress encoding
  unfold compressWith
  split <;> rfl

theorem handleCompression_keepAlive (libs : Libraries) (inHead : List (Str × Str))
    (res : Response) : (handleCompression libs inHead res).keepAlive = res.keepAlive := by
  apply handleCompression_keeps (f := Response.keepAlive)
  intro compress encoding
  unfold compressWith
  split <;> rfl

theorem serveRetrieve_carries (libs : Libraries) (gstore : GeneralStore) (req : Request)
    (strId : Str) : ∀ res ∈ (serveRetrieve libs gstore req strId).sent, Carries libs req res := by
  intro res hres
  unfold serveRetrieve at hres
  split at hres
  · cases hres
  · rw [List.mem_singleton.mp hres]
    exact jsonResponse_carries libs req _ _

theorem serveJson_carries (libs : Libraries) (lv : Libvirt) (gstore : GeneralStore)
    (req : Request) (target : TargetParser) :
    ∀ res ∈ (serveJson libs lv gstore req target).sent, Carries libs req res := by
  intro res hres
  unfold serveJson at hres
  split at hres
  · cases hres
  · cases hres
  · rw [List.mem_singleton.mp hres]
    have hsent := jsonResponse_carries libs req 200 []
    constructor
    · intro hid
      rw [handleCompression_packetId]
      exact hsent.packetId hid
    · rw [handleCompression_keepAlive]
      exact hsent.keepAlive

theorem jsonResponse_movedFrom (libs : Libraries) (req : Request) (status : ℕ) (body : Str) :
    Carries libs req (jsonResponse libs req.movedFrom status body) ↔ Plain libs req := by
  have hforward : forwardPackid req.movedFrom = none := rfl
  constructor
  · intro h
    refine ⟨?_, h.keepAlive⟩
    by_contra hid
    have hpacket := h.packetId hid
    rw [jsonResponse, hforward] at hpacket
    cases hpacket
  · intro h
    exact ⟨fun hid => absurd h.1 hid, h.2⟩

theorem serveLaunch_started {libs : Libraries} {canSpawn : Bool} {gstore : GeneralStore}
    {req : Request} {target : TargetParser} {id : BitVec 32}
    (h : (gstore.asyncStore.launch ⟨req, target⟩ none canSpawn).1 = some (.id id)) :
    (serveLaunch libs canSpawn gstore req target).sent =
      [jsonResponse libs req.movedFrom 200 (hexEncodeId id)] := by
  unfold serveLaunch
  generalize gstore.asyncStore.launch ⟨req, target⟩ none canSpawn = launched at h
  obtain ⟨launchRes, store⟩ := launched
  obtain rfl : launchRes = some (.id id) := h
  rfl

/-- A task is started where the store has room and an id for it, and a thread can be started. -/
theorem launches_iff (canSpawn : Bool) (gstore : GeneralStore) (req : Request)
    (target : TargetParser) : Launches canSpawn gstore req target ↔
      routeOf req = .launch target ∧ gstore.asyncStore.store.full = false ∧
        gstore.asyncStore.store.getFreeId ≠ none ∧ canSpawn = true := by
  unfold Launches
  rcases launch_cases gstore.asyncStore ⟨req, target⟩ canSpawn with
    ⟨hfull, h⟩ | ⟨hfull, hnone, h⟩ | ⟨id, hfull, hfree, ⟨hspawn, h⟩ | ⟨hspawn, h⟩⟩
  · rw [h]
    simp [hfull]
  · rw [h]
    simp [hnone]
  · rw [h]
    simp [hfull, hfree, hspawn]
  · rw [h]
    simp [hspawn]

/-- Every response of the three paths takes over what its request has, except those to the launch
of a task: where one is started, the request must have nothing to lose. -/
theorem responses_carry_iff (libs : Libraries) (lv : Libvirt) (canSpawn : Bool)
    (gstore : GeneralStore) (req : Request) :
    (Succeeds canSpawn gstore req → ∀ res ∈ (handleRequest libs lv canSpawn gstore req).sent,
      Carries libs req res) ↔
      ((∃ target, routeOf req = .launch target) → gstore.asyncStore.store.full = false →
        gstore.asyncStore.store.getFreeId ≠ none → canSpawn = true → Plain libs req) := by
  unfold handleRequest
  cases hroute : routeOf req with
  | head =>
    refine iff_of_true (fun hsucceeds => ?_) (by simp)
    simp [Succeeds, Launches, hroute] at hsucceeds
  | refused why =>
    refine iff_of_true (fun hsucceeds => ?_) (by simp)
    simp [Succeeds, Launches, hroute] at hsucceeds
  | retrieve strId =>
    exact iff_of_true (fun _ => serveRetrieve_carries libs gstore req strId) (by simp)
  | json target =>
    exact iff_of_true (fun _ => serveJson_carries libs lv gstore req target) (by simp)
  | launch target =>
    have hlaunches := launches_iff canSpawn gstore req target
    constructor
    · intro hcarries _ hfull hfree hspawn
      -- the only response is made from the request that has been moved
      have hstarted := hlaunches.mpr ⟨hroute, hfull, hfree, hspawn⟩
      obtain ⟨id, hid⟩ := hstarted.2
      have hres := hcarries (Or.inr (Or.inl ⟨target, hstarted⟩))
        (jsonResponse libs req.movedFrom 200 (hexEncodeId id))
      simp only [serveLaunch_started hid, List.mem_singleton, forall_const] at hres
      exact (jsonResponse_movedFrom libs req 200 _).mp hres
    · intro hplain hsucceeds
      have hstarted : Launches canSpawn gstore req target := by
        rcases hsucceeds with ⟨strId, h⟩ | ⟨target', h⟩ | ⟨target', h⟩
        · simp [hroute] at h
        · obtain rfl : target = target' := by simpa [hroute] using h.1
          exact h
        · simp [hroute] at h
      obtain ⟨-, hfull, hfree, hspawn⟩ := hlaunches.mp hstarted
      obtain ⟨id, hid⟩ := hstarted.2
      intro res hres
      rw [serveLaunch_started hid, List.mem_singleton] at hres
      rw [hres]
      exact (jsonResponse_movedFrom libs req 200 _).mpr
        (hplain ⟨target, rfl⟩ hfull hfree hspawn)

theorem routeOf_launch {req : Request} {front : Str} {rest : List Str}
    (hmethod : req.method ∈ supportedMethods) (htarget : req.target.head? = some '/')
    (hdots : hasDoubleDot req.target = false)
    (hparts : (TargetParser.ofUrl req.target).pathParts = front :: rest)
    (hfront : front ≠ lit "async")
    (hasync : (TargetParser.ofUrl req.target).getBool (lit "async") = some true) :
    routeOf req = .launch (.ofUrl req.target) := by
  have hhead : req.method ≠ .head := by
    intro h
    rw [h] at hmethod
    exact absurd hmethod (by decide)
  have hlegal : ¬(req.target.head? ≠ some '/' ∨ hasDoubleDot req.target = true) := by
    simp [htarget, hdots]
  rw [routeOf, if_neg hhead, if_neg (not_not.mpr hmethod), if_neg hlegal]
  simp only [hparts, if_neg hfront, hasync, if_true]

/-- `GET /libvirt/domains?async=true` with a packet id -/
theorem packet_id_lost :
    let libs : Libraries :=
      ⟨⟨fun _ => .null, fun _ => []⟩, [], fun _ _ => true, fun _ => false, some, some⟩
    let req : Request := ⟨.get, lit "/libvirt/domains?async=true", 11,
      [(lit "X-Packet-ID", lit "7")], []⟩
    let gstore : GeneralStore := ⟨⟨false, [], lit "test:///default"⟩, .empty 32 Job⟩
    Succeeds true gstore req ∧ ¬∀ res ∈ (handleRequest libs obliging true gstore req).sent,
      Carries libs req res := by
  intro libs req gstore
  have hparts : (TargetParser.ofUrl req.target).pathParts = [lit "libvirt", lit "domains"] := by
    rw [pathParts_ofUrl]
    decide
  have hget : (TargetParser.ofUrl req.target).get (lit "async") = some (lit "true") := by
    rw [get_ofUrl]
    decide
  have hasync : (TargetParser.ofUrl req.target).getBool (lit "async") = some true := by
    rw [TargetParser.getBool, hget]
    rfl
  have hroute := routeOf_launch (by decide : req.method ∈ supportedMethods) rfl rfl hparts
    (by decide) hasync
  have hlaunches : Launches true gstore req (.ofUrl req.target) := by
    rw [launches_iff]
    exact ⟨hroute, by decide, by decide, rfl⟩
  refine ⟨Or.inr (Or.inl ⟨_, hlaunches⟩), fun hcarries => ?_⟩
  obtain ⟨id, hid⟩ := hlaunches.2
  have hsent : (handleRequest libs obliging true gstore req).sent =
      [jsonResponse libs req.movedFrom 200 (hexEncodeId id)] := by
    rw [handleRequest, hroute]
    exact serveLaunch_started hid
  rw [hsent] at hcarries
  have hplain := (jsonResponse_movedFrom libs req 200 _).mp (hcarries _ List.mem_cons_self)
  exact absurd hplain.1 (by decide)

end Virthttp
