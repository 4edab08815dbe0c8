import Virthttp.Flagwork

namespace Virthttp

open Program

/-- `search_all_flags` reads a boolean of the query into one of two flags. -/
def boolFlag (target : TargetParser) (key : String) (yes no : BitVec 32) : BitVec 32 :=
  match target.getBool (lit key) with
  | none => 0
  | some true => yes
  | some false => no

def boolFlags (target : TargetParser) (flags : List (String × BitVec 32 × BitVec 32)) :
    BitVec 32 :=
  flags.foldl (fun acc f => acc ||| boolFlag target f.1 f.2.1 f.2.2) 0

/-- `DomainUnawareHandlers::search_all_flags`, with the bits that libvirt gives the flags. -/
def domainSearchAllFlags (lv : Libvirt) (target : TargetParser) : M (Option (BitVec 32)) :=
  let flags := boolFlags target [("active", 1#32 <<< 0, 1#32 <<< 1),
    ("persistent", 1#32 <<< 2, 1#32 <<< 3), ("managed_save", 1#32 <<< 8, 1#32 <<< 9),
    ("autostart", 1#32 <<< 10, 1#32 <<< 11), ("has_snapshot", 1#32 <<< 12, 1#32 <<< 13)]
  match targetGetComposableFlag ListDomainFlag.values target (lit "state") with
  | none => do
    error lv 301
    return none
  | some state => return some (flags ||| state)

def networkSearchAllFlags (target : TargetParser) : M (Option (BitVec 32)) :=
  return some (boolFlags target [("active", 1#32 <<< 1, 1#32 <<< 0),
    ("persistent", 1#32 <<< 2, 1#32 <<< 3), ("autostart", 1#32 <<< 4, 1#32 <<< 5)])

def listAllDomains (lv : Libvirt) (conn : Ptr) (flags : BitVec 32) : M (List Ptr) := do
  let domains : Option (List Ptr) ← call lv (.listAllDomains conn flags)
  match domains with
  | none => stop (.thrown (.runtimeError (lit "virConnectListAllDomains")))
  | some domains => return domains

def extractAllNetworks (lv : Libvirt) (conn : Ptr) (flags : BitVec 32) : M (List Ptr) := do
  let networks : Option (List Ptr) ← call lv (.listAllNetworks conn flags)
  match networks with
  | none => stop (.thrown (.runtimeError (lit "wrap_opram_owning_set_destroyable_arr")))
  | some networks => return networks

structure Resolver where
  skeys : List String
  sfcns : List (Libvirt → Ptr → Str → M (Option Ptr))
  searchAllFlags : Libvirt → TargetParser → M (Option (BitVec 32))
  listFcn : Libvirt → Ptr → BitVec 32 → M (List Ptr)

namespace Resolver

def intMin : ℤ := -2^31

/-- `getSearchKey`: the index of the search key with the value to look up, `-1` with an empty
text where all objects are meant, or a null view where the target is in error. -/
def getSearchKey (r : Resolver) (target : TargetParser) : ℤ × View :=
  let pathParts := target.pathParts
  if pathParts.length < 3 then (-1, some [])
  else if pathParts.length < 4 then (intMin, none)
  else
    match enumFromString r.skeys (pathParts.getD 2 []) with
    | none => (intMin, none)
    | some idx => (idx, some (pathParts.getD 3 []))

def resolve (lv : Libvirt) (r : Resolver) (conn : Ptr) (target : TargetParser) :
    M (List Ptr) :=
  match r.getSearchKey target with
  | (_, none) => do
    error lv 101
    return []
  | (idx, some searchValue) =>
    if idx ≥ 0 then
      match r.sfcns[idx.toNat]? with
      | none => stop .aborted
      | some sfcn => do
        let domRes ← sfcn lv conn searchValue
        match domRes with
        | some dom => return [dom]
        | none => do
          error lv 100
          return []
    else do
      let flagsOpt ← r.searchAllFlags lv target
      match flagsOpt with
      | none => do
        error lv 102
        return []
      | some flags => r.listFcn lv conn flags

end Resolver

def domainResolver : Resolver where
  skeys := ["by-name", "by-uuid"]
  sfcns := [fun lv conn sv => call lv (.domainLookupByName conn (cstr sv)),
    fun lv conn sv => call lv (.domainLookupByUUIDString conn (cstr sv))]
  searchAllFlags := domainSearchAllFlags
  listFcn := listAllDomains

def networkResolver : Resolver where
  skeys := ["by-name", "by-uuid"]
  sfcns := [fun lv conn sv => call lv (.networkLookupByName conn (cstr sv)),
    fun lv conn sv => call lv (.networkLookupByUUIDString conn (cstr sv))]
  searchAllFlags := fun _ target => networkSearchAllFlags target
  listFcn := extractAllNetworks

end Virthttp
