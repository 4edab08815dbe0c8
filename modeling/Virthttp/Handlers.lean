import Virthttp.DomainActions

namespace Virthttp

open Interaction Program

/-- `HandlerMethods`: creation has no object to start from; the other methods work on one. -/
structure HandlerMethods where
  create : JVal → M DependsOutcome
  query : JVal → Act DependsOutcome
  alter : JVal → Act DependsOutcome
  vacuum : JVal → Act DependsOutcome

def TargetParser.subqueryPart (target : TargetParser) : Str := target.pathParts.getD 4 []

def M.result (val : JVal) : M Unit := modify (fun s => { s with res := s.res.result val })

def M.fail (lv : Libvirt) (code : ℤ) : M DependsOutcome := do
  error lv code
  return .failure

def created : JVal := .object [(lit "created", .bool true)]

def deleted : JVal := .object [(lit "deleted", .bool true)]

/-- `vacuum` once it knows what to call. -/
def vacuumWith (undefine : Act Bool) (errc : ℤ) : Act DependsOutcome := do
  if ← undefine then
    Act.result deleted
    return .success
  else
    let libvirt ← Act.lastError
    Act.message (.object [(lit "libvirt", .string libvirt)])
    Act.fail errc

/-- `alter`: the first member of the action names an entry of the table. -/
def alterWith (find : Str → Option (JVal → Act DependsOutcome)) (action : JVal) :
    Act DependsOutcome :=
  match action with
  | .object ((actionName, actionVal) :: _) =>
    match find actionName with
    | some hdl => hdl actionVal
    | none => Act.fail 123
  | _ => Act.abort

def fsInfoToJson (fsInfo : FSInfo) : Option JVal := do
  let name ← fsInfo.name
  let sub ← JVal.null.addMember (lit "name") (.string name)
  let mountpoint ← fsInfo.mountpoint
  let sub ← sub.addMember (lit "mountpoint") (.string mountpoint)
  let fstype ← fsInfo.fstype
  let sub ← sub.addMember (lit "fs_type") (.string fstype)
  let devAliases ← fsInfo.devAlias.mapM id
  sub.addMember (lit "disk_dev_aliases") (.array (devAliases.map JVal.string))

def fsInfosToJson (fsInfos : List FSInfo) : Option JVal :=
  fsInfos.foldlM (fun jvres fsInfo => do
    let sub ← fsInfoToJson fsInfo
    jvres.pushBack sub) .null

/-- The truth value of a parameter is a `char`, which makes a number of it. -/
def typedParamToJson : TypedParamValue → Option JVal
  | .int i => some (.signed (i.signExtend 64))
  | .uint ui => some (.unsigned (ui.setWidth 64))
  | .llong l => some (.signed l)
  | .ullong ul => some (.unsigned ul)
  | .double d => some (.double d)
  | .boolean b => some (.signed (if b then 1 else 0))
  | .string s => s.map JVal.string

def typedParamsToJson (tp : List TypedParam) : Option JVal :=
  tp.foldlM (fun ret v => do
    let val ← typedParamToJson v.value
    ret.addMember v.name val) .null

def timeToJson (time : BitVec 64 × BitVec 32) : JVal :=
  .object [(lit "seconds", .signed time.1), (lit "nanosec", .unsigned (time.2.setWidth 64))]

def leaseToJson (lease : DHCPLease) : Option JVal := do
  let json ← JVal.null.addMember (lit "type") (.signed (lease.type.signExtend 64))
  let clientid ← lease.clientid
  let json ← json.addMember (lit "client-id") (.string clientid)
  let json ← json.addMember (lit "expiry-time") (.signed lease.expirytime)
  let hostname ← lease.hostname
  let json ← json.addMember (lit "hostname") (.string hostname)
  let iaid ← lease.iaid
  let json ← json.addMember (lit "iaid") (.string iaid)
  let iface ← lease.iface
  let json ← json.addMember (lit "interface") (.string iface)
  let ipaddr ← lease.ipaddr
  let json ← json.addMember (lit "ip-address") (.string ipaddr)
  let mac ← lease.mac
  let json ← json.addMember (lit "mac-address") (.string mac)
  json.addMember (lit "prefix") (.unsigned (lease.netPrefix.setWidth 64))

def leasesToJson (vec : List DHCPLease) : Option JVal := do
  let elements ← vec.mapM leaseToJson
  return .array elements

/-- `fwd_as_if_err` on a result that is null where the call has failed. -/
def fwdAsIfErr {α : Type} (code : ℤ) (arg : Option α) : Act Bool := fwdErr arg.isSome code

def serialize {α : Type} (toJson : α → Option JVal) (res : Option α) : Act JVal :=
  Act.require (res.bind toJson)

def zstring (s : Str) : Option JVal := some (.string s)

namespace DomainHandlers

open Act

/-- The member `dom` is assigned before it is tested. -/
def create (lv : Libvirt) (conn : Ptr) (obj : JVal) : M DependsOutcome :=
  match obj with
  | .string xml => do
    let dom : Option Ptr ← call lv (.domainCreateXML conn (cstr xml))
    modify (fun s => { s with obj := dom })
    if dom.isNone then M.fail lv 105
    else do
      M.result created
      return .success
  | .object _ => M.fail lv (-1)
  | _ => M.fail lv 0

def queryInfo : Act DependsOutcome := do
  let info ← Domain.getInfo
  let osType ← Domain.getOSType
  let name ← require (← Domain.getName)
  let uuid ← Domain.extractUUIDString
  let id ← Domain.getID
  let status ← require State.values[info.state.toNat]?
  let os ← require osType
  result (.object [(lit "name", .string name), (lit "uuid", .string uuid),
    (lit "id", .signed (id.signExtend 64)), (lit "status", .string (lit status)),
    (lit "os", .string os), (lit "ram", .unsigned info.memory),
    (lit "ram_max", .unsigned info.maxMem), (lit "cpu", .unsigned (info.nrVirtCpu.setWidth 64))])
  return .success

def schedulerToJson (sp : Option Str × ℤ) : Option JVal :=
  sp.1.map (fun type => .object [(lit "type", .string type),
    (lit "params_count", .signed (BitVec.ofInt 64 sp.2))])

def subqueries (target : TargetParser) : List Subquery :=
  let part := target.subqueryPart
  [flagSubquery "xml_desc" part (targetGetComposableFlag XMLFlags.values target (lit "options"))
      Domain.getXMLDesc (fwdAsIfErr (-2)) (serialize zstring),
    subquery "fs_info" part Domain.getFSInfo (fwdAsIfErr 201) (serialize fsInfosToJson),
    subquery "hostname" part Domain.getHostname (fwdAsIfErr (-2)) (serialize zstring),
    subquery "time" part Domain.getTime (fwdAsIfErr (-2)) (serialize (some ∘ timeToJson)),
    subquery "scheduler_type" part Domain.getSchedulerType (fun sp => fwdErr (sp.2 != 0) (-2))
      (fun sp => require (schedulerToJson sp)),
    subquery "launch_security_info" part Domain.getLaunchSecurityInfo (fwdAsIfErr (-2))
      (serialize typedParamsToJson)]

def query (target : TargetParser) (_ : JVal) : Act DependsOutcome :=
  if target.pathParts.length < 5 then queryInfo
  else answerWith (parameterizedDependsScope (subqueries target))

def alter : JVal → Act DependsOutcome := alterWith (namedCall DomainActions.table)

def vacuum (target : TargetParser) (_ : JVal) : Act DependsOutcome :=
  match targetGetComposableFlag UndefineFlag.values target (lit "options") with
  | none => fail 301
  | some flags => vacuumWith (Domain.undefine flags) 216

end DomainHandlers

def domainHandlers (lv : Libvirt) (conn : Ptr) (target : TargetParser) : HandlerMethods :=
  ⟨DomainHandlers.create lv conn, DomainHandlers.query target, DomainHandlers.alter,
    DomainHandlers.vacuum target⟩

namespace NetworkHandlers

open Act

def createNw (lv : Libvirt) (conn : Ptr) (xml : Str) : M DependsOutcome := do
  let nw : Option Ptr ← call lv (.networkCreateXML conn (cstr xml))
  modify (fun s => { s with obj := nw })
  if nw.isNone then M.fail lv (-999)
  else do
    M.result created
    return .success

def createAll (lv : Libvirt) (conn : Ptr) : List JVal → M DependsOutcome
  | [] => pure .success
  | .string xml :: items => do
    let o ← createNw lv conn xml
    if o = .failure then return .failure
    else createAll lv conn items
  | _ :: _ => M.fail lv (-999)

def create (lv : Libvirt) (conn : Ptr) (obj : JVal) : M DependsOutcome :=
  match obj with
  | .string xml => createNw lv conn xml
  | .array items => createAll lv conn items
  | _ => M.fail lv (-1)

def getTFE (get : Act TFE) (k : JVal → Act DependsOutcome) : Act DependsOutcome := do
  let tfe ← get
  if tfe.err then fail 500
  else k (.bool tfe.isTrue)

def queryInfo (target : TargetParser) : Act DependsOutcome :=
  getTFE Network.isActive fun active =>
  getTFE Network.getAutostart fun autostart =>
  getTFE Network.isPersistent fun persistent => do
    let name ← require (← Network.getName)
    let uuid ← Network.extractUUIDString
    let members := [(lit "name", JVal.string name), (lit "uuid", .string uuid),
      (lit "active", active), (lit "autostart", autostart), (lit "persistent", persistent)]
    if target.pathParts.length = 4 then
      let bridge ← require (← Network.getBridgeName)
      result (.object (members ++ [(lit "bridge", .string bridge)]))
      return .success
    else
      result (.object members)
      return .success

def subqueries (target : TargetParser) : List Subquery :=
  let part := target.subqueryPart
  [subquery "dhcp-leases" part
      (Network.extractDHCPLeases ((target.get (lit "mac")).getD [])) (fwdAsIfErr (-2))
      (serialize leasesToJson),
    flagSubquery "dumpxml" part (targetGetComposableFlag XMLFlags.values target (lit "options"))
      Network.getXMLDesc (fwdAsIfErr (-2)) (serialize zstring)]

def query (target : TargetParser) (_ : JVal) : Act DependsOutcome :=
  if target.pathParts.length < 5 then queryInfo target
  else answerWith (parameterizedDependsScope (subqueries target))

/-- `NetworkActionsTable`, whose functions are null pointers. -/
def table : List (String × Option (JVal → Act DependsOutcome)) := [("autostart", none)]

def alter : JVal → Act DependsOutcome := alterWith (fun sv => (namedCall table sv).join)

def vacuum (_ : JVal) : Act DependsOutcome := vacuumWith Network.undefine (-999)

end NetworkHandlers

def networkHandlers (lv : Libvirt) (conn : Ptr) (target : TargetParser) : HandlerMethods :=
  ⟨NetworkHandlers.create lv conn, NetworkHandlers.query target, NetworkHandlers.alter,
    NetworkHandlers.vacuum⟩

end Virthttp
