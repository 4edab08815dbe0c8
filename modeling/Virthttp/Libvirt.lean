import Virthttp.Common

/-! The libvirt calls that the wrappers make and what libvirt may answer to each. A null result
pointer is `none`; integer results are kept as they are, for the wrappers to interpret. -/
namespace Virthttp

/-- A libvirt handle that is not null. -/
abbrev Ptr := ℕ

structure DomainInfo where
  state : BitVec 8
  maxMem : BitVec 64
  memory : BitVec 64
  nrVirtCpu : BitVec 16
  cpuTime : BitVec 64
  deriving Inhabited

structure FSInfo where
  mountpoint : Option Str
  name : Option Str
  fstype : Option Str
  devAlias : List (Option Str)

structure DHCPLease where
  iface : Option Str
  expirytime : BitVec 64
  type : BitVec 32
  mac : Option Str
  iaid : Option Str
  ipaddr : Option Str
  netPrefix : BitVec 32
  hostname : Option Str
  clientid : Option Str

inductive TypedParamValue where
  | int (i : BitVec 32)
  | uint (ui : BitVec 32)
  | llong (l : BitVec 64)
  | ullong (ul : BitVec 64)
  | double (d : BitVec 64)
  | boolean (b : Bool)
  | string (s : Option Str)

structure TypedParam where
  name : Str
  value : TypedParamValue

inductive DomainCall where
  | getInfo
  | getOSType
  | getName
  | getUUIDString
  | getID
  | getXMLDesc (flags : BitVec 32)
  | getFSInfo
  | getHostname
  | getTime
  | getSchedulerType
  | getLaunchSecurityInfo
  | isActive
  | shutdown
  | shutdownFlags (flags : BitVec 32)
  | destroy
  | destroyFlags (flags : BitVec 32)
  | create
  | createWithFlags (flags : BitVec 32)
  | reboot (flags : BitVec 32)
  | reset
  | suspend
  | resume
  | rename (name : Str)
  | setMemory (memory : BitVec 64)
  | setMaxMemory (memory : BitVec 64)
  | setAutostart (autostart : ℤ)
  | sendProcessSignal (pid : BitVec 64) (signum : ℕ)
  | sendKey (codeset : ℕ) (holdtime : BitVec 32) (keycodes : List (BitVec 32))
  | undefineFlags (flags : BitVec 32)

inductive NetworkCall where
  | isActive
  | getAutostart
  | isPersistent
  | getName
  | getUUIDString
  | getBridgeName
  | getDHCPLeases (mac : Option Str)
  | getXMLDesc (flags : BitVec 32)
  | undefine

inductive LvCall where
  | connectOpen (uri : Str)
  | getLastError
  | resetLastError
  | domainLookupByName (conn : Ptr) (name : Str)
  | domainLookupByUUIDString (conn : Ptr) (uuid : Str)
  | listAllDomains (conn : Ptr) (flags : BitVec 32)
  | domainCreateXML (conn : Ptr) (xml : Str)
  | networkLookupByName (conn : Ptr) (name : Str)
  | networkLookupByUUIDString (conn : Ptr) (uuid : Str)
  | listAllNetworks (conn : Ptr) (flags : BitVec 32)
  | networkCreateXML (conn : Ptr) (xml : Str)
  | domain (dom : Option Ptr) (call : DomainCall)
  | network (nw : Option Ptr) (call : NetworkCall)

abbrev DomainCall.Ret : DomainCall → Type
  | .getInfo => DomainInfo
  | .getOSType => Option Str
  | .getName => Option Str
  | .getUUIDString => Str
  | .getID => BitVec 32
  | .getXMLDesc _ => Option Str
  | .getFSInfo => Option (List FSInfo)
  | .getHostname => Option Str
  | .getTime => Option (BitVec 64 × BitVec 32)
  | .getSchedulerType => Option Str × ℤ
  | .getLaunchSecurityInfo => Option (List TypedParam)
  | _ => ℤ

abbrev NetworkCall.Ret : NetworkCall → Type
  | .getAutostart => ℤ × ℤ
  | .getName => Option Str
  | .getUUIDString => Option Str
  | .getBridgeName => Option Str
  | .getDHCPLeases _ => Option (List DHCPLease)
  | .getXMLDesc _ => Option Str
  | _ => ℤ

/-- What a call returns; a failed listing is `none`, and so is the last error where there is
none. -/
abbrev LvCall.Ret : LvCall → Type
  | .connectOpen _ => Option Ptr
  | .getLastError => Option Str
  | .resetLastError => Unit
  | .listAllDomains _ _ => Option (List Ptr)
  | .listAllNetworks _ _ => Option (List Ptr)
  | .domain _ call => call.Ret
  | .network _ call => call.Ret
  | _ => Option Ptr

instance : ∀ c : DomainCall, Inhabited c.Ret
  | .getInfo => ⟨(default : DomainInfo)⟩
  | .getOSType => ⟨(none : Option Str)⟩
  | .getName => ⟨(none : Option Str)⟩
  | .getUUIDString => ⟨([] : Str)⟩
  | .getID => ⟨(0 : BitVec 32)⟩
  | .getXMLDesc _ => ⟨(none : Option Str)⟩
  | .getFSInfo => ⟨(none : Option (List FSInfo))⟩
  | .getHostname => ⟨(none : Option Str)⟩
  | .getTime => ⟨(none : Option (BitVec 64 × BitVec 32))⟩
  | .getSchedulerType => ⟨((none, 0) : Option Str × ℤ)⟩
  | .getLaunchSecurityInfo => ⟨(none : Option (List TypedParam))⟩
  | .isActive | .shutdown | .shutdownFlags _ | .destroy | .destroyFlags _ | .create
  | .createWithFlags _ | .reboot _ | .reset | .suspend | .resume | .rename _ | .setMemory _
  | .setMaxMemory _ | .setAutostart _ | .sendProcessSignal _ _ | .sendKey _ _ _
  | .undefineFlags _ => ⟨(0 : ℤ)⟩

instance : ∀ c : NetworkCall, Inhabited c.Ret
  | .getAutostart => ⟨((0, 0) : ℤ × ℤ)⟩
  | .getName => ⟨(none : Option Str)⟩
  | .getUUIDString => ⟨(none : Option Str)⟩
  | .getBridgeName => ⟨(none : Option Str)⟩
  | .getDHCPLeases _ => ⟨(none : Option (List DHCPLease))⟩
  | .getXMLDesc _ => ⟨(none : Option Str)⟩
  | .isActive | .isPersistent | .undefine => ⟨(0 : ℤ)⟩

instance : ∀ c : LvCall, Inhabited c.Ret
  | .listAllDomains _ _ | .listAllNetworks _ _ => ⟨(none : Option (List Ptr))⟩
  | .domain _ call => inferInstanceAs (Inhabited call.Ret)
  | .network _ call => inferInstanceAs (Inhabited call.Ret)
  | .getLastError => ⟨(none : Option Str)⟩
  | .resetLastError => ⟨()⟩
  | .connectOpen _ | .domainLookupByName _ _ | .domainLookupByUUIDString _ _
  | .domainCreateXML _ _ | .networkLookupByName _ _ | .networkLookupByUUIDString _ _
  | .networkCreateXML _ _ => ⟨(none : Option Ptr)⟩

structure Exchange where
  call : LvCall
  answer : call.Ret

/-- The behaviour of libvirt: its answer may depend on everything that was asked before. -/
abbrev Libvirt := List Exchange → (c : LvCall) → c.Ret

end Virthttp
