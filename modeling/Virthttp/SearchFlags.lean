import Virthttp.FlagClasses
import Virthttp.HandlerRuns
import Virthttp.QueryKeys

namespace Virthttp

open Program

structure SearchKey where
  name : String
  yes : ℕ
  no : ℕ
  deriving DecidableEq

def domainKeys : List SearchKey :=
  [⟨"active", 0, 1⟩, ⟨"persistent", 2, 3⟩, ⟨"managed_save", 8, 9⟩, ⟨"autostart", 10, 11⟩,
    ⟨"has_snapshot", 12, 13⟩]

def networkKeys : List SearchKey := [⟨"active", 1, 0⟩, ⟨"persistent", 2, 3⟩, ⟨"autostart", 4, 5⟩]

namespace SearchKey

def Filters (k : SearchKey) (flags : BitVec 32) : Prop :=
  flags.getLsbD k.yes = true ∨ flags.getLsbD k.no = true

def entry (k : SearchKey) : String × BitVec 32 × BitVec 32 :=
  (k.name, 1#32 <<< k.yes, 1#32 <<< k.no)

end SearchKey

def ListsWith (P : BitVec 32 → Prop) (s s' : Session) : Prop :=
  ∃ made, s'.calls = s.calls ++ made ∧ ∀ e ∈ made, ∀ conn flags,
    e.call = .listAllDomains conn flags ∨ e.call = .listAllNetworks conn flags → P flags

def FoundWith (r : Resolver) (k : SearchKey) (target : TargetParser) : Prop :=
  ∀ lv s, Holds (r.searchAllFlags lv target) s
    (fun found _ => ∀ flags, found = some flags → k.Filters flags) (fun _ _ => False)

/-- The key is not dropped, neither from the flags nor from what is listed with them. -/
structure FilterKept (r : Resolver) (k : SearchKey) (target : TargetParser) : Prop where
  flags : FoundWith r k target
  listed : ∀ lv conn s, Holds (r.resolve lv conn target) s
    (fun _ s' => ListsWith k.Filters s s') (fun _ s' => ListsWith k.Filters s s')

theorem domainSearchAllFlags_eq (lv : Libvirt) (target : TargetParser) :
    domainSearchAllFlags lv target =
      match targetGetComposableFlag ListDomainFlag.values target (lit "state") with
      | none => do
        error lv 301
        return none
      | some state =>
        return some (boolFlags target (domainKeys.map SearchKey.entry) ||| state) := by
  simp only [domainKeys, List.map_cons, List.map_nil, SearchKey.entry]
  rfl

theorem networkSearchAllFlags_eq (target : TargetParser) : networkSearchAllFlags target =
    return some (boolFlags target (networkKeys.map SearchKey.entry)) := by
  simp only [networkKeys, List.map_cons, List.map_nil, SearchKey.entry]
  rfl

def boolTexts : List String := ["", "1", "yes", "true", "0", "no", "false"]

def Understood (target : TargetParser) (key : String) : Prop :=
  ∃ text ∈ boolTexts, target.get (lit key) = some (lit text)

def stateFields (target : TargetParser) : List Str :=
  csvFields ((target.get (lit "state")).getD [])

/-- The states rule the request out, or they name one of the two flags of the key. -/
def StateDecides (k : SearchKey) (target : TargetParser) : Prop :=
  (∃ field ∈ stateFields target, enumFromString ListDomainFlag.values field = none) ∨
    ∃ field ∈ stateFields target, enumFromString ListDomainFlag.values field = some k.yes ∨
      enumFromString ListDomainFlag.values field = some k.no

theorem getBool_isSome_iff (target : TargetParser) (key : String) :
    (target.getBool (lit key)).isSome = true ↔ Understood target key := by
  unfold TargetParser.getBool Understood boolTexts
  cases hget : target.get (lit key) with
  | none => simp
  | some value =>
    simp only [Option.some.injEq, List.exists_mem_cons_iff, List.not_mem_nil, false_and,
      exists_false, or_false]
    have hempty : lit "" = [] := rfl
    rw [hempty]
    split
    · simp [*]
    · split
      · rename_i h1 h2
        rcases h2 with h2 | h2 | h2 <;> simp [h2]
      · split
        · rename_i h1 h2 h3
          rcases h3 with h3 | h3 | h3 <;> simp [h3]
        · rename_i h1 h2 h3
          push Not at h2 h3
          simp [h1, h2, h3]

theorem single_bit {i : ℕ} (hi : i < 32) (j : ℕ) : (1#32 <<< i).getLsbD j = decide (i = j) := by
  rw [BitVec.getLsbD_shiftLeft, BitVec.getLsbD_one]
  by_cases hij : i = j
  · subst hij
    simp [hi]
  · by_cases hlt : j < i
    · simp [hlt, hij]
    · have hne : ¬j-i = 0 := by omega
      simp [hne, hij]

theorem boolFlags_bit (target : TargetParser) (entries : List (String × BitVec 32 × BitVec 32))
    (i : ℕ) : (boolFlags target entries).getLsbD i = true ↔
      ∃ e ∈ entries, (boolFlag target e.1 e.2.1 e.2.2).getLsbD i = true := by
  have hfold (acc : BitVec 32) : (entries.foldl
      (fun acc f => acc ||| boolFlag target f.1 f.2.1 f.2.2) acc).getLsbD i = true ↔
        acc.getLsbD i = true ∨ ∃ e ∈ entries,
          (boolFlag target e.1 e.2.1 e.2.2).getLsbD i = true := by
    induction entries generalizing acc with
    | nil => simp
    | cons e entries ih =>
      rw [List.foldl_cons, ih, BitVec.getLsbD_or, Bool.or_eq_true, List.exists_mem_cons_iff,
        or_assoc]
  rw [boolFlags, hfold]
  simp

def Separate (keys : List SearchKey) : Prop :=
  ∀ k ∈ keys, k.yes < 32 ∧ k.no < 32 ∧ ∀ k' ∈ keys,
    (k'.yes = k.yes ∨ k'.yes = k.no ∨ k'.no = k.yes ∨ k'.no = k.no) → k' = k

theorem domainKeys_separate : Separate domainKeys := by unfold Separate; decide

theorem networkKeys_separate : Separate networkKeys := by unfold Separate; decide

/-- A bit of a key is set exactly where the value of that key is understood. -/
theorem filters_boolFlags {keys : List SearchKey} (hkeys : Separate keys) {k : SearchKey}
    (hk : k ∈ keys) (target : TargetParser) :
    k.Filters (boolFlags target (keys.map SearchKey.entry)) ↔ Understood target k.name := by
  obtain ⟨hyes, hno, -⟩ := hkeys k hk
  have hentry (k' : SearchKey) (hk' : k' ∈ keys) (i : ℕ) :
      (boolFlag target k'.name (1#32 <<< k'.yes) (1#32 <<< k'.no)).getLsbD i = true ↔
        (target.getBool (lit k'.name) = some true ∧ k'.yes = i) ∨
          (target.getBool (lit k'.name) = some false ∧ k'.no = i) := by
    obtain ⟨hyes', hno', -⟩ := hkeys k' hk'
    unfold boolFlag
    cases target.getBool (lit k'.name) with
    | none => simp
    | some b =>
      cases b with
      | true =>
        change (1#32 <<< k'.yes).getLsbD i = true ↔ _
        rw [single_bit hyes']
        simp
      | false =>
        change (1#32 <<< k'.no).getLsbD i = true ↔ _
        rw [single_bit hno']
        simp
  unfold SearchKey.Filters
  rw [boolFlags_bit, boolFlags_bit, ← getBool_isSome_iff, Option.isSome_iff_exists]
  simp only [List.mem_map, exists_exists_and_eq_and, SearchKey.entry]
  constructor
  · intro hbit
    have hown (i : ℕ) (hi : i = k.yes ∨ i = k.no) (h : ∃ k' ∈ keys, (boolFlag target k'.name
        (1#32 <<< k'.yes) (1#32 <<< k'.no)).getLsbD i = true) :
        ∃ b, target.getBool (lit k.name) = some b := by
      obtain ⟨k', hk', hset⟩ := h
      rcases (hentry k' hk' i).mp hset with ⟨hb, rfl⟩ | ⟨hb, rfl⟩
      · have hsame := (hkeys k hk).2.2 k' hk' (hi.elim Or.inl fun h => Or.inr (Or.inl h))
        exact ⟨true, hsame ▸ hb⟩
      · have hsame := (hkeys k hk).2.2 k' hk'
          (Or.inr (Or.inr (hi.elim Or.inl fun h => Or.inr h)))
        exact ⟨false, hsame ▸ hb⟩
    exact hbit.elim (hown k.yes (Or.inl rfl)) (hown k.no (Or.inr rfl))
  · intro hb
    obtain ⟨b, hb⟩ := hb
    cases b with
    | true => exact Or.inl ⟨k, hk, (hentry k hk k.yes).mpr (Or.inl ⟨hb, rfl⟩)⟩
    | false => exact Or.inr ⟨k, hk, (hentry k hk k.no).mpr (Or.inr ⟨hb, rfl⟩)⟩

theorem enumSetFromString_bit {values : List String} {field : Str} {n : ℕ}
    (hn : enumFromString values field = some n) (hlt : n < 32) (i : ℕ) :
    (∃ a, enumSetFromString values field = some a ∧ a.getLsbD i = true) ↔ n = i := by
  simp [enumSetFromString, hn, single_bit hlt]

/-- The states are none where they rule the request out, and otherwise set the bits that they
name. -/
theorem stateFlags_decide {k : SearchKey} (target : TargetParser) :
    (∀ flags, targetGetComposableFlag ListDomainFlag.values target (lit "state") =
      some flags → k.Filters flags) ↔ StateDecides k target := by
  have hvalues (field : Str) (n : ℕ) (hn : enumFromString ListDomainFlag.values field = some n) :
      n < 32 := by
    have hlt := List.findIdx?_eq_some_iff_findIdx_eq.mp hn
    have hlen : ListDomainFlag.values.length = 14 := rfl
    omega
  have hset (field : Str) (i : ℕ) : (∃ a, enumSetFromString ListDomainFlag.values field = some a ∧
      a.getLsbD i = true) ↔ enumFromString ListDomainFlag.values field = some i := by
    cases hn : enumFromString ListDomainFlag.values field with
    | none => simp [enumSetFromString, hn]
    | some n =>
      rw [enumSetFromString_bit hn (hvalues field n hn), Option.some.injEq]
  have hnone (field : Str) : enumSetFromString ListDomainFlag.values field = none ↔
      enumFromString ListDomainFlag.values field = none := Option.map_eq_none_iff
  have hflags : targetGetComposableFlag ListDomainFlag.values target (lit "state") =
      flagsNamed ListDomainFlag.values (stateFields target) := composeFlags_zero _ _
  rw [hflags]
  unfold StateDecides
  cases hstate : flagsNamed ListDomainFlag.values (stateFields target) with
  | none =>
    obtain ⟨field, hmem, hfield⟩ := orAll_eq_none_iff.mp hstate
    exact iff_of_true (by simp) (Or.inl ⟨field, hmem, (hnone field).mp hfield⟩)
  | some v =>
    have hall : ¬∃ field ∈ stateFields target, enumFromString ListDomainFlag.values field = none := by
      intro hex
      obtain ⟨field, hmem, hfield⟩ := hex
      have := orAll_eq_none_iff.mpr ⟨field, hmem, (hnone field).mpr hfield⟩
      rw [flagsNamed, this] at hstate
      cases hstate
    simp only [Option.some.injEq, forall_eq', SearchKey.Filters, orAll_bit hstate, hset, hall,
      false_or]
    rw [← exists_or]
    exact exists_congr fun field => and_or_left.symm

theorem filters_or {k : SearchKey} {a b : BitVec 32} :
    k.Filters (a ||| b) ↔ k.Filters a ∨ k.Filters b := by
  unfold SearchKey.Filters
  simp only [BitVec.getLsbD_or, Bool.or_eq_true]
  constructor
  · intro h
    rcases h with (h | h) | (h | h)
    · exact Or.inl (Or.inl h)
    · exact Or.inr (Or.inl h)
    · exact Or.inl (Or.inr h)
    · exact Or.inr (Or.inr h)
  · intro h
    rcases h with (h | h) | (h | h)
    · exact Or.inl (Or.inl h)
    · exact Or.inr (Or.inl h)
    · exact Or.inl (Or.inr h)
    · exact Or.inr (Or.inr h)

theorem domain_foundWith_iff {k : SearchKey} (hk : k ∈ domainKeys) (target : TargetParser) :
    FoundWith domainResolver k target ↔ Understood target k.name ∨ StateDecides k target := by
  have hbools := filters_boolFlags domainKeys_separate hk target
  rw [← stateFlags_decide, ← hbools]
  unfold FoundWith domainResolver
  simp only [domainSearchAllFlags_eq]
  cases targetGetComposableFlag ListDomainFlag.values target (lit "state") with
  | none =>
    refine iff_of_true (fun lv s => ?_) (Or.inr (by simp))
    rw [holds_bind]
    exact (error_holds lv 301 s).mono (fun _ _ _ => by simp [holds_pure]) (fun _ _ hf => hf)
  | some state =>
    simp only [holds_pure, Option.some.injEq, forall_eq', filters_or]
    exact ⟨fun h => h (fun _ _ => default) Session.init, fun h _ _ => h⟩

theorem network_foundWith_iff {k : SearchKey} (hk : k ∈ networkKeys) (target : TargetParser) :
    FoundWith networkResolver k target ↔ Understood target k.name := by
  have hbools := filters_boolFlags networkKeys_separate hk target
  rw [← hbools]
  unfold FoundWith networkResolver
  simp only [networkSearchAllFlags_eq, holds_pure, Option.some.injEq, forall_eq']
  exact ⟨fun h => h (fun _ _ => default) Session.init, fun h _ _ => h⟩

section Lists

variable {P : BitVec 32 → Prop} {s s' : Session}

theorem ListsWith.trans {s₁ s₂ s₃ : Session} (h : ListsWith P s₁ s₂) (h' : ListsWith P s₂ s₃) :
    ListsWith P s₁ s₃ := by
  obtain ⟨made, hmade, hlists⟩ := h
  obtain ⟨made', hmade', hlists'⟩ := h'
  refine ⟨made ++ made', by rw [hmade', hmade, List.append_assoc], fun e he => ?_⟩
  exact (List.mem_append.mp he).elim (hlists e) (hlists' e)

theorem Errored.listsWith {code : ℤ} (h : Errored code s s') : ListsWith P s s' := by
  obtain ⟨asked, hasked, hask⟩ := h.calls
  refine ⟨asked, hasked, fun e he conn flags hlist => ?_⟩
  rcases hask e he with hcall | hcall <;> simp [hcall] at hlist

theorem listsWith_asked {e : Exchange} (h : ∀ conn flags,
    e.call = .listAllDomains conn flags ∨ e.call = .listAllNetworks conn flags → P flags) :
    ListsWith P s (s.asked e) := by
  refine ⟨[e], rfl, fun e' he' => ?_⟩
  rw [List.mem_singleton.mp he']
  exact h

theorem lookup_listsWith {byName : Ptr → Str → LvCall}
    (hlookup : ∀ conn sv c flags, byName conn sv ≠ .listAllDomains c flags ∧
      byName conn sv ≠ .listAllNetworks c flags)
    {f : Libvirt → Ptr → Str → M (Option Ptr)} (hf : LooksUp f byName) (lv : Libvirt) (conn : Ptr)
    (value : Str) (s : Session) : Holds (do
      let domRes ← f lv conn value
      match domRes with
      | some dom => return [dom]
      | none => do
        error lv 100
        return []) s (fun _ s' => ListsWith P s s') (fun _ s' => ListsWith P s s') := by
  rw [holds_bind]
  refine (hf lv conn value s).mono ?_ (fun _ _ hf => hf.elim)
  intro domRes s' hfound
  obtain ⟨e, hcall, -, rfl⟩ := hfound
  have hasked : ListsWith P s (s.asked e) := by
    apply listsWith_asked
    intro c flags hlist
    rw [hcall] at hlist
    exact (hlist.elim (hlookup conn _ c flags).1 (hlookup conn _ c flags).2).elim
  cases domRes with
  | some dom => exact hasked
  | none =>
    rw [holds_bind]
    refine (error_holds lv 100 _).mono ?_ (fun _ _ hf => hf.elim)
    exact fun _ _ he => hasked.trans he.listsWith

/-- No list is asked for but with the flags that were found. -/
theorem resolve_listsWith {r : Resolver} {byName byUUID : Ptr → Str → LvCall}
    (hr : Resolves r byName byUUID)
    (hname : ∀ conn sv c flags, byName conn sv ≠ .listAllDomains c flags ∧
      byName conn sv ≠ .listAllNetworks c flags)
    (huuid : ∀ conn sv c flags, byUUID conn sv ≠ .listAllDomains c flags ∧
      byUUID conn sv ≠ .listAllNetworks c flags)
    (hlist : ∀ lv conn flags s, P flags → Holds (r.listFcn lv conn flags) s
      (fun _ s' => ListsWith P s s') (fun _ s' => ListsWith P s s'))
    {target : TargetParser} (hflags : ∀ lv s, Holds (r.searchAllFlags lv target) s
      (fun found _ => ∀ flags, found = some flags → P flags) (fun _ _ => False))
    (lv : Libvirt) (conn : Ptr) (s : Session) : Holds (r.resolve lv conn target) s
      (fun _ s' => ListsWith P s s') (fun _ s' => ListsWith P s s') := by
  have hrefuse (code : ℤ) : Holds (do
      error lv code
      return ([] : List Ptr)) s (fun _ s' => ListsWith P s s') (fun _ s' => ListsWith P s s') := by
    rw [holds_bind]
    exact (error_holds lv code s).mono (fun _ _ he => he.listsWith) (fun _ _ hf => hf.elim)
  unfold Resolver.resolve Resolver.getSearchKey
  by_cases h3 : target.pathParts.length < 3
  · simp only [if_pos h3]
    rw [if_neg (by decide), holds_bind]
    refine ((hr.flags lv target s).and (hflags lv s)).mono ?_ (fun _ _ hf => hf.1.elim)
    intro found s' hfound
    obtain ⟨⟨hsome, rfl⟩ | ⟨rfl, he⟩, hP⟩ := hfound
    · cases found with
      | none => exact absurd rfl hsome
      | some flags => exact hlist lv conn flags s' (hP flags rfl)
    · rw [holds_bind]
      refine (error_holds lv 102 s').mono ?_ (fun _ _ hf => hf.elim)
      exact fun _ _ he' => he.listsWith.trans he'.listsWith
  · by_cases h4 : target.pathParts.length < 4
    · simp only [if_neg h3, if_pos h4]
      exact hrefuse 101
    · obtain ⟨f, g, hfg, hf, hg⟩ := hr.sfcns
      simp only [if_neg h3, if_neg h4, hr.skeys, hfg, enumFromString_skeys]
      by_cases hkey : target.pathParts.getD 2 [] = lit "by-name"
      · rw [if_pos hkey]
        exact lookup_listsWith hname hf lv conn _ s
      · rw [if_neg hkey]
        by_cases hkey' : target.pathParts.getD 2 [] = lit "by-uuid"
        · rw [if_pos hkey']
          exact lookup_listsWith huuid hg lv conn _ s
        · rw [if_neg hkey']
          exact hrefuse 101

end Lists

theorem domain_filterKept_iff (k : SearchKey) (target : TargetParser) :
    FilterKept domainResolver k target ↔ FoundWith domainResolver k target := by
  refine ⟨FilterKept.flags, fun hfound => ⟨hfound, ?_⟩⟩
  refine resolve_listsWith domainResolver_resolves (by simp) (by simp) ?_ hfound
  intro lv conn flags s hP
  change Holds (listAllDomains lv conn flags) s _ _
  unfold listAllDomains
  rw [holds_bind]
  apply call_holds
  intro a
  have hasked : ListsWith k.Filters s (s.asked ⟨.listAllDomains conn flags, a⟩) := by
    apply listsWith_asked
    intro c flags' h
    rcases h with h | h
    · cases h
      exact hP
    · cases h
  cases a with
  | none => exact hasked
  | some objs => exact hasked

theorem network_filterKept_iff (k : SearchKey) (target : TargetParser) :
    FilterKept networkResolver k target ↔ FoundWith networkResolver k target := by
  refine ⟨FilterKept.flags, fun hfound => ⟨hfound, ?_⟩⟩
  refine resolve_listsWith networkResolver_resolves (by simp) (by simp) ?_ hfound
  intro lv conn flags s hP
  change Holds (extractAllNetworks lv conn flags) s _ _
  unfold extractAllNetworks
  rw [holds_bind]
  apply call_holds
  intro a
  have hasked : ListsWith k.Filters s (s.asked ⟨.listAllNetworks conn flags, a⟩) := by
    apply listsWith_asked
    intro c flags' h
    rcases h with h | h
    · cases h
    · cases h
      exact hP
  cases a with
  | none => exact hasked
  | some objs => exact hasked

/-- A key is kept exactly where its value is understood, or where the states of domains decide. -/
theorem filterKept_target_iff (target : TargetParser) :
    (∀ k ∈ domainKeys, FilterKept domainResolver k target ↔
      Understood target k.name ∨ StateDecides k target) ∧
    ∀ k ∈ networkKeys, FilterKept networkResolver k target ↔ Understood target k.name := by
  constructor
  · intro k hk
    rw [domain_filterKept_iff, domain_foundWith_iff hk]
  · intro k hk
    rw [network_filterKept_iff, network_foundWith_iff hk]

/-- The key is found where the query directly follows a path. -/
theorem get_of_named {url key : Str} (hplaced : WellPlaced url)
    (hnamed : NamedIn (clientQuery url) key) : ∃ value, (TargetParser.ofUrl url).get key = some value := by
  obtain ⟨hne, comp, hcomp, hname⟩ := hnamed
  rw [clientQuery_eq hplaced] at hcomp
  have hkey : key ∈ queryKeys url := mem_queryKeys_iff.mpr ⟨comp, hcomp, Or.inl ⟨hne, hname⟩⟩
  rw [mem_queryKeys, List.mem_map] at hkey
  obtain ⟨e, he, rfl⟩ := hkey
  rw [get_ofUrl]
  cases hfind : (queryPairs (queryText url)).find? (fun e' => e'.1 == e.1) with
  | none =>
    have hno := List.find?_eq_none.mp hfind e he
    simp at hno
  | some e' => exact ⟨e'.2, rfl⟩

/-- A key is kept exactly where its value is understood, or where the states of domains decide; it
is dropped where its value is not one of those that `getBool` knows. Where the query directly
follows the path, a key that the client has written has a value. -/
theorem search_filter_iff (url : Str) :
    (∀ k ∈ domainKeys, FilterKept domainResolver k (.ofUrl url) ↔
      Understood (.ofUrl url) k.name ∨ StateDecides k (.ofUrl url)) ∧
    (∀ k ∈ networkKeys, FilterKept networkResolver k (.ofUrl url) ↔
      Understood (.ofUrl url) k.name) ∧
    ∀ key, WellPlaced url → NamedIn (clientQuery url) key →
      ∃ value, (TargetParser.ofUrl url).get key = some value := by
  generalize htarget : TargetParser.ofUrl url = target
  have hkept := filterKept_target_iff target
  refine ⟨hkept.1, hkept.2, ?_⟩
  intro key hplaced hnamed
  rw [← htarget]
  exact get_of_named hplaced hnamed

/-- `/libvirt/domains?active=flase` -/
theorem misspelt_value_dropped :
    let url := lit "/libvirt/domains?active=flase"
    NamedIn (clientQuery url) (lit "active") ∧
      ¬FilterKept domainResolver ⟨"active", 0, 1⟩ (.ofUrl url) ∧
      ¬FilterKept networkResolver ⟨"active", 1, 0⟩ (.ofUrl url) := by
  intro url
  have hquery : queryText url = lit "active=flase" := by decide
  have hvalue : (TargetParser.ofUrl url).get (lit "active") = some (lit "flase") := by
    rw [get_ofUrl, hquery]
    decide
  have hstate : (TargetParser.ofUrl url).get (lit "state") = none := by
    rw [get_ofUrl, hquery]
    decide
  generalize TargetParser.ofUrl url = target at hvalue hstate
  have hunknown : ¬Understood target "active" := by
    intro h
    obtain ⟨text, htext, heq⟩ := h
    rw [hvalue, Option.some.injEq] at heq
    revert htext heq
    simp only [boolTexts, List.mem_cons, List.not_mem_nil, or_false]
    intro htext heq
    rcases htext with rfl | rfl | rfl | rfl | rfl | rfl | rfl <;> cases heq
  have hno : ¬StateDecides ⟨"active", 0, 1⟩ target := by
    simp [StateDecides, stateFields, hstate, csvFields, csvFieldsFuel]
  refine ⟨⟨by decide, lit "active=flase", by decide, by decide⟩, ?_, ?_⟩
  · rw [(filterKept_target_iff target).1 _ (by decide)]
    exact fun h => h.elim hunknown hno
  · rw [(filterKept_target_iff target).2 _ (by decide)]
    exact hunknown

end Virthttp
