import Virthttp.Json2Virt

namespace Virthttp

open Interaction

/-- `action_scope`: the first outcome that is not `SKIPPED`. -/
def actionScope : List (Act DependsOutcome) → Act DependsOutcome
  | [] => pure .skipped
  | action :: actions => do
    let ao ← action
    if ao ≠ .skipped then return ao
    else actionScope actions

namespace DomainActions

open Act

structure PmFlags where
  values : List String
  memFcn : BitVec 32 → Act Bool

def pmMessage (name value : String) : Act DependsOutcome := do
  message (.object [(lit name, .string (lit value))])
  return .success

/-- `PM_PREREQ(if (bad) return error(code);)` -/
def pmPrereq (bad : Act Bool) (code : ℤ) : Act DependsOutcome := do
  if ← bad then fail code
  else return .success

/-- `local_error` where the call has failed, the message where it has not. -/
def pmReply (reqTag : String) (errc : ℤ) (pmMsg : String) (memFcn : Act Bool) :
    Act DependsOutcome := do
  if ← memFcn then pmMessage reqTag pmMsg
  else fail errc

/-- `pm_hdl`; without flags of its own (`Empty`) a request takes none. -/
def pmHdl (pmReq : Str) (jsonFlag : Option JVal) (reqTag : String) (flags : Option PmFlags)
    (memFcn : Act Bool) (errc : ℤ) (pmMsg : String) (prereqs : Act DependsOutcome) :
    Act DependsOutcome :=
  if pmReq = lit reqTag then do
    let pre ← prereqs
    if pre = .failure then return .failure
    else
      match jsonFlag, flags with
      | some _, none => fail 301
      | some jsonFlag, some f => do
        let flagset ← getCombinedFlags f.values jsonFlag
        match flagset with
        | none => return .failure
        | some flagset => pmReply reqTag errc pmMsg (f.memFcn flagset)
      | none, _ => pmReply reqTag errc pmMsg memFcn
  else return .skipped

def pmRequest (pmReq : Str) (jsonFlag : Option JVal) : Act DependsOutcome := do
  let info ← Domain.getInfo
  let inactive : Act Bool := do return !(← Domain.isActive)
  actionScope [
    pmHdl pmReq jsonFlag "shutdown" (some ⟨ShutdownFlag.values, Domain.shutdownFlags⟩)
      Domain.shutdown 200 "Domain is being shutdown"
      (pmPrereq (pure (info.state != State.RUNNING)) 201),
    pmHdl pmReq jsonFlag "destroy" (some ⟨DestroyFlag.values, Domain.destroyFlags⟩)
      Domain.destroy 209 "Domain destroyed" (pmPrereq inactive 210),
    pmHdl pmReq jsonFlag "start" (some ⟨CreateFlag.values, Domain.createWithFlags⟩)
      Domain.create 202 "Domain started" (pmPrereq Domain.isActive 203),
    pmHdl pmReq jsonFlag "reboot" (some ⟨ShutdownFlag.values, Domain.reboot⟩)
      (Domain.reboot 0) 213 "Domain is being rebooted"
      (pmPrereq (pure (info.state != State.RUNNING)) 201),
    pmHdl pmReq jsonFlag "reset" none Domain.reset 214 "Domain was reset"
      (pmPrereq inactive 210),
    pmHdl pmReq jsonFlag "suspend" none Domain.suspend 215 "Domain suspended"
      (pmPrereq (pure (info.state != State.RUNNING)) 201),
    pmHdl pmReq jsonFlag "resume" none Domain.resume 212 "Domain resumed"
      (pmPrereq (pure (info.state != State.PAUSED)) 211),
    fail 300]

def powerMgt (val : JVal) : Act DependsOutcome :=
  match val with
  | .string s => pmRequest (cstr s) none
  | .object ms =>
    match JVal.findMember ms (lit "request") with
    | none => fail 300
    | some req => do
      let pmReq ← require req.asString
      pmRequest (cstr pmReq) (JVal.findMember ms (lit "type"))
  | _ => fail 300

def oneCall {α : Type} (get : JVal → Option α) (memFcn : α → Act Bool) (errc : ℤ) (val : JVal) :
    Act DependsOutcome :=
  match get val with
  | none => fail 0
  | some a => do
    if ← memFcn a then return .success
    else fail errc

def getBool : JVal → Option Bool
  | .bool b => some b
  | _ => none

def name : JVal → Act DependsOutcome := oneCall JVal.asString (fun s => Domain.rename (cstr s)) 205

def memory : JVal → Act DependsOutcome := oneCall JVal.int32 Domain.setMemory 206

def maxMemory : JVal → Act DependsOutcome := oneCall JVal.int32 Domain.setMaxMemory 207

def autostart : JVal → Act DependsOutcome := oneCall getBool Domain.setAutoStart 208

/-- The outcome tells whether the parameters were extracted, not what the call returned. -/
def sendSignal (val : JVal) : Act DependsOutcome := do
  let res ← wrapFcn val Domain.sendProcessSignal (extractParamVal JVal.int64) "pid"
    (extractEnum ProcessSignal.values) "signal"
  return if res.isSome then .success else .failure

def sendKeys (val : JVal) : Act DependsOutcome :=
  match val with
  | .object ms => do
    let keycodeset ← extractParam (extractEnum KeycodeSet.values) ms "keycode_set"
    match keycodeset with
    | none => fail 0
    | some keycodeset => do
      let holdtime ← extractParam (extractParamVal JVal.uint32) ms "hold_time"
      match holdtime with
      | none => fail 0
      | some holdtime => do
        let keys ← extractParam (extractArray (extractParamVal JVal.uint32)) ms "keys"
        match keys with
        | none => fail 0
        | some keys => do
          let sent ← Domain.sendKey keycodeset holdtime keys
          return if sent then .success else .failure
  | _ => fail 0

def table : List (String × (JVal → Act DependsOutcome)) :=
  [("power_mgt", powerMgt), ("name", name), ("memory", memory), ("max_memory", maxMemory),
    ("autostart", autostart), ("send_signal", sendSignal), ("send_keys", sendKeys)]

end DomainActions

def namedCall {α : Type} (table : List (String × α)) (sv : Str) : Option α :=
  (table.find? (fun e => lit e.1 == sv)).map Prod.snd

end Virthttp
