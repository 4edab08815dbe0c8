import Virthttp.HandlerContext

namespace Virthttp

/-- `TFE`: true, false or an error. -/
structure TFE where
  v : ℤ

namespace TFE

def ofInt (tfe : ℤ) : TFE := ⟨tfe+1⟩

def isTrue (t : TFE) : Bool := t.v == 2

def err (t : TFE) : Bool := t.v == 0

end TFE

/-- How a wrapper tells success from what libvirt returns. -/
def zeroCall (r : ℤ) : Bool := r == 0

def nonNegativeCall (r : ℤ) : Bool := r ≥ 0

namespace Domain

open Act

def getInfo : Act DomainInfo := domain .getInfo
def getOSType : Act (Option Str) := domain .getOSType
def getName : Act (Option Str) := domain .getName
def extractUUIDString : Act Str := domain .getUUIDString
def getID : Act (BitVec 32) := domain .getID
def getXMLDesc (flags : BitVec 32) : Act (Option Str) := domain (.getXMLDesc flags)
def getFSInfo : Act (Option (List FSInfo)) := domain .getFSInfo
def getHostname : Act (Option Str) := domain .getHostname
def getTime : Act (Option (BitVec 64 × BitVec 32)) := domain .getTime
def getSchedulerType : Act (Option Str × ℤ) := domain .getSchedulerType
def getLaunchSecurityInfo : Act (Option (List TypedParam)) := domain .getLaunchSecurityInfo

def isActive : Act Bool := do
  let r : ℤ ← domain .isActive
  return r != 0

def shutdown : Act Bool := do
  let r : ℤ ← domain .shutdown
  return zeroCall r

def shutdownFlags (flags : BitVec 32) : Act Bool := do
  let r : ℤ ← domain (.shutdownFlags flags)
  return zeroCall r

def destroy : Act Bool := do
  let r : ℤ ← domain .destroy
  return zeroCall r

def destroyFlags (flags : BitVec 32) : Act Bool := do
  let r : ℤ ← domain (.destroyFlags flags)
  return zeroCall r

def create : Act Bool := do
  let r : ℤ ← domain .create
  return zeroCall r

def createWithFlags (flags : BitVec 32) : Act Bool := do
  let r : ℤ ← domain (.createWithFlags flags)
  return zeroCall r

def reboot (flags : BitVec 32) : Act Bool := do
  let r : ℤ ← domain (.reboot flags)
  return zeroCall r

def reset : Act Bool := do
  let r : ℤ ← domain .reset
  return zeroCall r

def suspend : Act Bool := do
  let r : ℤ ← domain .suspend
  return zeroCall r

def resume : Act Bool := do
  let r : ℤ ← domain .resume
  return zeroCall r

def rename (name : Str) : Act Bool := do
  let r : ℤ ← domain (.rename name)
  return zeroCall r

/-- An `int` is converted to `unsigned long`. -/
def setMemory (mem : ℤ) : Act Bool := do
  let r : ℤ ← domain (.setMemory (BitVec.ofInt 64 mem))
  return zeroCall r

def setMaxMemory (mem : ℤ) : Act Bool := do
  let r : ℤ ← domain (.setMaxMemory (BitVec.ofInt 64 mem))
  return zeroCall r

def setAutoStart (as : Bool) : Act Bool := do
  let r : ℤ ← domain (.setAutostart (if as then 1 else 0))
  return zeroCall r

def sendProcessSignal (pidValue : ℤ) (signum : ℕ) : Act Bool := do
  let r : ℤ ← domain (.sendProcessSignal (BitVec.ofInt 64 pidValue) signum)
  return nonNegativeCall r

def sendKey (codeset : ℕ) (holdtime : ℤ) (keycodes : List ℤ) : Act Bool := do
  let r : ℤ ← domain (.sendKey codeset (BitVec.ofInt 32 holdtime)
    (keycodes.map (BitVec.ofInt 32)))
  return nonNegativeCall r

def undefine (flags : BitVec 32) : Act Bool := do
  let r : ℤ ← domain (.undefineFlags flags)
  return zeroCall r

end Domain

namespace Network

open Act

def isActive : Act TFE := do
  let r : ℤ ← network .isActive
  return TFE.ofInt r

def getAutostart : Act TFE := do
  let (res, v) : ℤ × ℤ ← network .getAutostart
  return TFE.ofInt (if res = 0 then v else -1)

def isPersistent : Act TFE := do
  let r : ℤ ← network .isPersistent
  return TFE.ofInt r

def getName : Act (Option Str) := network .getName

def extractUUIDString : Act Str := do
  let uuid : Option Str ← network .getUUIDString
  return uuid.getD []

def getBridgeName : Act (Option Str) := network .getBridgeName

def extractDHCPLeases (mac : Str) : Act (Option (List DHCPLease)) :=
  network (.getDHCPLeases (if mac = [] then none else some (cstr mac)))

def getXMLDesc (flags : BitVec 32) : Act (Option Str) := network (.getXMLDesc flags)

def undefine : Act Bool := do
  let r : ℤ ← network .undefine
  return zeroCall r

end Network

end Virthttp
