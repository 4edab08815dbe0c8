import Virthttp.ActionOutcomes
import Virthttp.FlagClasses

namespace Virthttp

open Program Interaction

def DomainCall.refused : (c : DomainCall) → c.Ret → Bool
  | .shutdown, r => decide (r < 0)
  | .shutdownFlags _, r => decide (r < 0)
  | .destroy, r => decide (r < 0)
  | .destroyFlags _, r => decide (r < 0)
  | .create, r => decide (r < 0)
  | .createWithFlags _, r => decide (r < 0)
  | .reboot _, r => decide (r < 0)
  | .reset, r => decide (r < 0)
  | .suspend, r => decide (r < 0)
  | .resume, r => decide (r < 0)
  | .rename _, r => decide (r < 0)
  | .setMemory _, r => decide (r < 0)
  | .setMaxMemory _, r => decide (r < 0)
  | .setAutostart _, r => decide (r < 0)
  | .sendProcessSignal _ _, r => decide (r < 0)
  | .sendKey _ _ _, r => decide (r < 0)
  | .undefineFlags _, r => decide (r < 0)
  | _, _ => false

def flagsOf (values : List String) : JVal → Option (BitVec 32)
  | .array xs => do
    let names ← xs.mapM JVal.asString
    flagsNamed values names
  | .string name => enumSetFromString values name
  | _ => some 0

structure PmCalls where
  plain : DomainCall
  flagged : Option (List String × (BitVec 32 → DomainCall))

def PmCalls.call (calls : PmCalls) : Option JVal → Option DomainCall
  | none => some calls.plain
  | some type => do
    let (values, withFlags) ← calls.flagged
    let flags ← flagsOf values type
    return withFlags flags

def pmCalls : List (String × PmCalls) :=
  [("shutdown", ⟨.shutdown, some (ShutdownFlag.values, .shutdownFlags)⟩),
    ("destroy", ⟨.destroy, some (DestroyFlag.values, .destroyFlags)⟩),
    ("start", ⟨.create, some (CreateFlag.values, .createWithFlags)⟩),
    ("reboot", ⟨.reboot 0, some (ShutdownFlag.values, .reboot)⟩),
    ("reset", ⟨.reset, none⟩), ("suspend", ⟨.suspend, none⟩), ("resume", ⟨.resume, none⟩)]

def pmCall (request : Str) (type : Option JVal) : Option DomainCall := do
  let calls ← namedCall pmCalls request
  calls.call type

def powerCall : JVal → Option DomainCall
  | .string s => pmCall (cstr s) none
  | .object ms => do
    let req ← JVal.findMember ms (lit "request")
    let request ← req.asString
    pmCall (cstr request) (JVal.findMember ms (lit "type"))
  | _ => none

def memberValue {α : Type} (get : JVal → Option α) (ms : List (Str × JVal)) (name : String) :
    Option α := do
  let x ← JVal.findMember ms (lit name)
  get x

def enumValue (values : List String) (x : JVal) : Option ℕ := do
  let name ← x.asString
  enumFromString values name

def arrayValue {α : Type} (get : JVal → Option α) : JVal → Option (List α)
  | .array xs => xs.mapM get
  | _ => none

def signalCall : JVal → Option DomainCall
  | .object ms => do
    let pid ← memberValue JVal.int64 ms "pid"
    let signum ← memberValue (enumValue ProcessSignal.values) ms "signal"
    return .sendProcessSignal (BitVec.ofInt 64 pid) signum
  | _ => none

def keysCall : JVal → Option DomainCall
  | .object ms => do
    let keycodeset ← memberValue (enumValue KeycodeSet.values) ms "keycode_set"
    let holdtime ← memberValue JVal.uint32 ms "hold_time"
    let keys ← memberValue (arrayValue JVal.uint32) ms "keys"
    return .sendKey keycodeset (BitVec.ofInt 32 holdtime) (keys.map (BitVec.ofInt 32))
  | _ => none

def actionCalls : List (String × (JVal → Option DomainCall)) :=
  [("power_mgt", powerCall), ("name", fun val => val.asString.map fun s => .rename (cstr s)),
    ("memory", fun val => val.int32.map fun n => .setMemory (BitVec.ofInt 64 n)),
    ("max_memory", fun val => val.int32.map fun n => .setMaxMemory (BitVec.ofInt 64 n)),
    ("autostart", fun val => (DomainActions.getBool val).map fun b =>
      .setAutostart (if b then 1 else 0)),
    ("send_signal", signalCall), ("send_keys", keysCall)]

/-- The call that the action of that name stands for; none where its value is not understood. -/
def callOf (action : String) (val : JVal) : Option DomainCall :=
  (namedCall actionCalls (lit action)).bind (fun call => call val)

def Granted (c : DomainCall) (h : Log HandlerOp.Ret) : Prop :=
  ∃ r, (⟨.domain c, r⟩ : Performed) ∈ h ∧ c.refused r = false

theorem Granted.append {c : DomainCall} {h : Log HandlerOp.Ret} (hc : Granted c h)
    (x : Performed) : Granted c (h ++ [x]) := by
  obtain ⟨r, hmem, hr⟩ := hc
  exact ⟨r, List.mem_append_left _ hmem, hr⟩

def Earned (call : Option DomainCall) (h : Log HandlerOp.Ret) (o : DependsOutcome) : Prop :=
  o = .success → ∃ c, call = some c ∧ Granted c h

theorem earned_of_ne {call : Option DomainCall} {h : Log HandlerOp.Ret} {o : DependsOutcome}
    (ho : o ≠ .success) : Earned call h o := fun heq => absurd heq ho

def Does (p : Act Bool) (c : DomainCall) : Prop :=
  ∀ h, Spec p h (fun h' ok => ok = true → Granted c h') (fun _ _ => True)

theorem does_call (c : DomainCall) {f : c.Ret → Bool}
    (hf : ∀ r, f r = true → c.refused r = false) : Does (Act.domain c >>= fun r => pure (f r)) c := by
  intro h
  apply spec_bind.mpr
  apply spec_domain.mpr
  intro r hr
  exact ⟨r, by simp, hf r hr⟩

theorem not_refused_of_zeroCall (r : ℤ) (h : zeroCall r = true) : decide (r < 0) = false := by
  have hr : r = 0 := by simpa [zeroCall] using h
  simp [hr]

namespace DomainActions

theorem getFlag_names (values : List String) (x : JVal) (h : Log HandlerOp.Ret) :
    Spec (Act.getFlag values x) h (fun _ r => ∀ v, r = some v →
      ∃ name, x.asString = some name ∧ enumSetFromString values name = some v)
      (fun _ _ => True) := by
  unfold Act.getFlag
  rw [spec_bind, spec_require]
  refine ⟨fun name hname => ?_, fun _ => trivial⟩
  cases hv : enumSetFromString values name with
  | some v =>
    apply spec_pure.mpr
    intro v' heq
    cases heq
    exact ⟨name, hname, hv⟩
  | none =>
    apply spec_bind.mpr
    apply spec_error.mpr
    apply spec_pure.mpr
    intro v' heq
    cases heq

theorem getCombinedFlagsFrom_names (values : List String) (flagset : BitVec 32)
    (xs : List JVal) (h : Log HandlerOp.Ret) :
    Spec (Act.getCombinedFlagsFrom values flagset xs) h (fun _ r => ∀ v, r = some v →
      ∃ names, xs.mapM JVal.asString = some names ∧ composeFlags values flagset names = some v)
      (fun _ _ => True) := by
  induction xs generalizing flagset h with
  | nil =>
    apply spec_pure.mpr
    intro v heq
    exact ⟨[], rfl, heq⟩
  | cons x xs ih =>
    rw [Act.getCombinedFlagsFrom, spec_bind]
    refine (getFlag_names values x h).mono ?_ (fun _ _ hE => hE)
    intro h' r hr
    cases r with
    | none =>
      apply spec_pure.mpr
      intro v heq
      cases heq
    | some b =>
      obtain ⟨name, hname, hb⟩ := hr b rfl
      refine (ih (flagset ||| b) h').mono ?_ (fun _ _ hE => hE)
      intro _ _ hrest v heq
      obtain ⟨names, hnames, hv⟩ := hrest v heq
      have hall : (x :: xs).mapM JVal.asString = some (name :: names) := by
        simp [List.mapM_cons, hname, hnames]
      have hcompose : composeFlags values flagset (name :: names) = some v := by
        simpa only [composeFlags, hb] using hv
      exact ⟨name :: names, hall, hcompose⟩

theorem getCombinedFlags_names (values : List String) (type : JVal) (h : Log HandlerOp.Ret) :
    Spec (Act.getCombinedFlags values type) h (fun _ r => ∀ v, r = some v →
      flagsOf values type = some v) (fun _ _ => True) := by
  cases type with
  | array xs =>
    refine (getCombinedFlagsFrom_names values 0 xs h).mono ?_ (fun _ _ hE => hE)
    intro _ r hr v heq
    obtain ⟨names, hnames, hv⟩ := hr v heq
    rw [composeFlags_zero] at hv
    simp only [flagsOf, hnames]
    exact hv
  | string s =>
    refine (getFlag_names values (.string s) h).mono ?_ (fun _ _ hE => hE)
    intro _ r hr v heq
    obtain ⟨name, hname, hv⟩ := hr v heq
    cases hname
    exact hv
  | _ =>
    apply spec_pure.mpr
    intro v heq
    exact heq

theorem pmReply_earned {reqTag pmMsg : String} {errc : ℤ} {memFcn : Act Bool} {c : DomainCall}
    (hmem : Does memFcn c) (h : Log HandlerOp.Ret) :
    Spec (pmReply reqTag errc pmMsg memFcn) h (Earned (some c)) (fun _ _ => True) := by
  unfold pmReply
  rw [spec_bind]
  refine (hmem h).mono ?_ (fun _ _ hE => hE)
  intro h' ok hok
  split
  · rename_i htrue
    apply spec_bind.mpr
    apply spec_message.mpr
    intro _
    exact ⟨c, rfl, (hok htrue).append _⟩
  · exact spec_fail.mpr (earned_of_ne (by simp))

/-- A request succeeds only if it is the one that was asked for and its call was granted. -/
theorem pmHdl_earned {pmReq : Str} {jsonFlag : Option JVal} {reqTag : String}
    {flags : Option PmFlags} {memFcn : Act Bool} {errc : ℤ} {pmMsg : String}
    {prereqs : Act DependsOutcome} {calls : PmCalls}
    (hcalls : namedCall pmCalls (lit reqTag) = some calls) (hmem : Does memFcn calls.plain)
    (hflags : ∀ f ∈ flags, ∃ withFlags, calls.flagged = some (f.values, withFlags) ∧
      ∀ b, Does (f.memFcn b) (withFlags b)) (h : Log HandlerOp.Ret) :
    Spec (pmHdl pmReq jsonFlag reqTag flags memFcn errc pmMsg prereqs) h
      (Earned (pmCall pmReq jsonFlag)) (fun _ _ => True) := by
  unfold pmHdl
  split
  · rename_i hreq
    have hcall : pmCall pmReq jsonFlag = calls.call jsonFlag := by
      rw [hreq, pmCall, hcalls]
      rfl
    rw [hcall, spec_bind]
    -- whatever the state of the domain, only the call itself can make the outcome a success
    refine (spec_trivial prereqs h).mono ?_ (fun _ _ hE => hE)
    intro h' pre _
    split
    · exact spec_pure.mpr (earned_of_ne (by simp))
    · split
      · exact spec_fail.mpr (earned_of_ne (by simp))
      · rename_i type f
        obtain ⟨withFlags, hflagged, hdoes⟩ := hflags f rfl
        rw [spec_bind]
        refine (getCombinedFlags_names f.values type h').mono ?_ (fun _ _ hE => hE)
        intro h'' flagset hflagset
        cases flagset with
        | none => exact spec_pure.mpr (earned_of_ne (by simp))
        | some b =>
          have hthis : calls.call (some type) = some (withFlags b) := by
            simp [PmCalls.call, hflagged, hflagset b rfl]
          rw [hthis]
          exact pmReply_earned (hdoes b) h''
      · exact pmReply_earned hmem h'
  · exact spec_pure.mpr (earned_of_ne (by simp))

theorem actionScope_earned {call : Option DomainCall} {actions : List (Act DependsOutcome)}
    (hactions : ∀ a ∈ actions, ∀ h, Spec a h (Earned call) (fun _ _ => True))
    (h : Log HandlerOp.Ret) : Spec (actionScope actions) h (Earned call) (fun _ _ => True) := by
  induction actions generalizing h with
  | nil => exact spec_pure.mpr (earned_of_ne (by simp))
  | cons a actions ih =>
    rw [actionScope, spec_bind]
    refine (hactions a List.mem_cons_self h).mono ?_ (fun _ _ hE => hE)
    intro h' ao hao
    split
    · exact spec_pure.mpr hao
    · exact ih (fun b hb => hactions b (List.mem_cons_of_mem _ hb)) h'

theorem pmRequest_earned (pmReq : Str) (jsonFlag : Option JVal) (h : Log HandlerOp.Ret) :
    Spec (pmRequest pmReq jsonFlag) h (Earned (pmCall pmReq jsonFlag)) (fun _ _ => True) := by
  have hno (calls : PmCalls) : ∀ f ∈ (none : Option PmFlags), ∃ withFlags,
      calls.flagged = some (f.values, withFlags) ∧ ∀ b, Does (f.memFcn b) (withFlags b) := by
    simp
  have hyes {plain : DomainCall} {values : List String} {memFcn : BitVec 32 → Act Bool}
      {withFlags : BitVec 32 → DomainCall} (hdoes : ∀ b, Does (memFcn b) (withFlags b)) :
      ∀ f ∈ some (PmFlags.mk values memFcn), ∃ g,
        (PmCalls.mk plain (some (values, withFlags))).flagged = some (f.values, g) ∧
          ∀ b, Does (f.memFcn b) (g b) := by
    intro f hf
    cases hf
    exact ⟨withFlags, rfl, hdoes⟩
  unfold pmRequest
  apply spec_bind.mpr
  apply spec_domain.mpr
  intro info
  apply actionScope_earned
  simp only [List.forall_mem_cons, List.not_mem_nil, false_imp_iff, implies_true, and_true]
  refine ⟨?_, ?_, ?_, ?_, ?_, ?_, ?_, fun h => spec_fail.mpr (earned_of_ne (by simp))⟩
  · exact pmHdl_earned rfl (does_call .shutdown not_refused_of_zeroCall)
      (hyes fun b => does_call (.shutdownFlags b) not_refused_of_zeroCall)
  · exact pmHdl_earned rfl (does_call .destroy not_refused_of_zeroCall)
      (hyes fun b => does_call (.destroyFlags b) not_refused_of_zeroCall)
  · exact pmHdl_earned rfl (does_call .create not_refused_of_zeroCall)
      (hyes fun b => does_call (.createWithFlags b) not_refused_of_zeroCall)
  · exact pmHdl_earned rfl (does_call (.reboot 0) not_refused_of_zeroCall)
      (hyes fun b => does_call (.reboot b) not_refused_of_zeroCall)
  · exact pmHdl_earned rfl (does_call .reset not_refused_of_zeroCall) (hno _)
  · exact pmHdl_earned rfl (does_call .suspend not_refused_of_zeroCall) (hno _)
  · exact pmHdl_earned rfl (does_call .resume not_refused_of_zeroCall) (hno _)

theorem powerMgt_earned (val : JVal) (h : Log HandlerOp.Ret) :
    Spec (powerMgt val) h (Earned (powerCall val)) (fun _ _ => True) := by
  cases val with
  | string s => exact pmRequest_earned (cstr s) none h
  | object ms =>
    rw [powerMgt]
    cases hreq : JVal.findMember ms (lit "request") with
    | none => exact spec_fail.mpr (earned_of_ne (by simp))
    | some req =>
      apply spec_bind.mpr
      apply spec_require.mpr
      refine ⟨fun request hrequest => ?_, fun _ => trivial⟩
      have hcall : powerCall (.object ms) =
          pmCall (cstr request) (JVal.findMember ms (lit "type")) := by
        simp [powerCall, hreq, hrequest]
      rw [hcall]
      exact pmRequest_earned _ _ h
  | _ => exact spec_fail.mpr (earned_of_ne (by simp))

theorem oneCall_earned {α : Type} {get : JVal → Option α} {memFcn : α → Act Bool} {errc : ℤ}
    {toCall : α → DomainCall} (hmem : ∀ a, Does (memFcn a) (toCall a)) (val : JVal)
    (h : Log HandlerOp.Ret) :
    Spec (oneCall get memFcn errc val) h (Earned ((get val).map toCall)) (fun _ _ => True) := by
  unfold oneCall
  cases get val with
  | none => exact spec_fail.mpr (earned_of_ne (by simp))
  | some a =>
    rw [spec_bind]
    refine (hmem a h).mono ?_ (fun _ _ hE => hE)
    intro h' ok hok
    split
    · rename_i htrue
      apply spec_pure.mpr
      intro _
      exact ⟨toCall a, rfl, hok htrue⟩
    · exact spec_fail.mpr (earned_of_ne (by simp))

structure Reads {α : Type} (p : Act (Option α)) (value : Option α) : Prop where
  found : ∀ a, value = some a → p = pure (some a)
  missing : value = none → ∀ h, Spec p h (fun _ r => r = none) (fun _ _ => False)

theorem reads_pure {α : Type} (value : Option α) : Reads (pure value) value := by
  constructor
  · intro a ha
    rw [ha]
  · intro hnone h
    exact spec_pure.mpr hnone

theorem reads_error {α : Type} : Reads (do
    Act.error 0
    return (none : Option α)) none := by
  constructor
  · intro a ha
    cases ha
  · intro _ h
    apply spec_bind.mpr
    exact spec_error.mpr rfl

theorem extractParamVal_reads {α : Type} (get : JVal → Option α) (x : JVal) :
    Reads (Act.extractParamVal get x) (get x) := by
  unfold Act.extractParamVal
  cases get x with
  | none => exact reads_error
  | some val => exact reads_pure _

theorem extractEnum_reads (values : List String) (x : JVal) :
    Reads (Act.extractEnum values x) (enumValue values x) := by
  unfold Act.extractEnum enumValue
  cases x.asString with
  | none => exact reads_error
  | some name => exact reads_pure _

theorem Reads.bind_some {α β : Type} {p : Act (Option α)} {a : α} {k : Option α → Act β}
    (hp : Reads p (some a)) : (p >>= k) = k (some a) := by
  rw [hp.found a rfl, ret_bind]

/-- What follows an extraction goes on with the value, or fails where there is none. -/
theorem Reads.spec_bind {α β : Type} {p : Act (Option α)} {value : Option α}
    {k : Option α → Act β} {h : Log HandlerOp.Ret} {Q : Log HandlerOp.Ret → β → Prop}
    (hp : Reads p value) (hnone : value = none → ∀ h', Spec (k none) h' Q (fun _ _ => False))
    (hsome : ∀ a, value = some a → Spec (k (some a)) h Q (fun _ _ => False)) :
    Spec (p >>= k) h Q (fun _ _ => False) := by
  cases hvalue : value with
  | some a =>
    rw [hvalue] at hp
    rw [hp.bind_some]
    exact hsome a hvalue
  | none =>
    apply Interaction.spec_bind.mpr
    refine (hp.missing hvalue h).mono ?_ (fun _ _ hf => hf)
    intro h' r hr
    rw [hr]
    exact hnone hvalue h'

/-- One extraction after the other. -/
theorem Reads.bind {α β : Type} {p : Act (Option α)} {value : Option α}
    {k : Option α → Act (Option β)} {next : α → Option β} (hp : Reads p value)
    (hnone : k none = pure none) (hk : ∀ a, Reads (k (some a)) (next a)) :
    Reads (p >>= k) (value.bind next) := by
  cases value with
  | some a =>
    rw [hp.bind_some]
    exact hk a
  | none =>
    constructor
    · intro b hb
      cases hb
    · intro _ h
      apply hp.spec_bind
      · intro _ h'
        rw [hnone]
        exact spec_pure.mpr rfl
      · intro a ha
        cases ha

theorem extractElements_reads {α : Type} {sub : JVal → Act (Option α)} {get : JVal → Option α}
    (hsub : ∀ x, Reads (sub x) (get x)) (xs : List JVal) :
    Reads (Act.extractElements sub xs) (xs.mapM get) := by
  induction xs with
  | nil => exact reads_pure (some [])
  | cons x xs ih =>
    rw [List.mapM_cons]
    refine Reads.bind (hsub x) rfl fun val => ?_
    refine Reads.bind ih rfl fun vals => ?_
    exact reads_pure (some (val :: vals))

theorem extractArray_reads {α : Type} {sub : JVal → Act (Option α)} {get : JVal → Option α}
    (hsub : ∀ x, Reads (sub x) (get x)) (x : JVal) :
    Reads (Act.extractArray sub x) (arrayValue get x) := by
  cases x with
  | array xs => exact extractElements_reads hsub xs
  | _ => exact reads_error

theorem extractParam_reads {α : Type} {sub : JVal → Act (Option α)} {get : JVal → Option α}
    (hsub : ∀ x, Reads (sub x) (get x)) (ms : List (Str × JVal)) (name : String) :
    Reads (Act.extractParam sub ms name) (memberValue get ms name) := by
  unfold Act.extractParam memberValue
  cases JVal.findMember ms (lit name) with
  | none => exact reads_pure none
  | some x => exact hsub x

theorem pid_reads (ms : List (Str × JVal)) :
    Reads (Act.extractParam (Act.extractParamVal JVal.int64) ms "pid")
      (memberValue JVal.int64 ms "pid") :=
  extractParam_reads (extractParamVal_reads _) ms _

theorem signal_reads (ms : List (Str × JVal)) :
    Reads (Act.extractParam (Act.extractEnum ProcessSignal.values) ms "signal")
      (memberValue (enumValue ProcessSignal.values) ms "signal") :=
  extractParam_reads (extractEnum_reads _) ms _

/-- A signal that is understood is sent, and that is a success whatever libvirt says to it. -/
theorem sendSignal_sends {val : JVal} {c : DomainCall} (hc : signalCall val = some c) :
    sendSignal val = (Act.domain c >>= fun _ => pure .success) := by
  cases val with
  | object ms =>
    simp only [signalCall, Option.bind_eq_bind, Option.bind_eq_some_iff] at hc
    obtain ⟨pid, hpid, signum, hsignum, heq⟩ := hc
    cases heq
    have hfirst := pid_reads ms
    have hsecond := signal_reads ms
    rw [hpid] at hfirst
    rw [hsignum] at hsecond
    unfold sendSignal Act.wrapFcn
    simp only [hfirst.bind_some, hsecond.bind_some]
    rfl
  | _ => cases hc

theorem sendSignal_missing {val : JVal} (hc : signalCall val = none) (h : Log HandlerOp.Ret) :
    Spec (sendSignal val) h (fun _ o => o = .failure) (fun _ _ => False) := by
  unfold sendSignal Act.wrapFcn
  apply Interaction.spec_bind.mpr
  cases val with
  | object ms =>
    refine Reads.spec_bind (pid_reads ms) (fun _ h' => ?_) fun pid hpid => ?_
    · exact spec_pure.mpr (spec_pure.mpr rfl)
    refine Reads.spec_bind (signal_reads ms) (fun _ h' => ?_) fun signum hsignum => ?_
    · exact spec_pure.mpr (spec_pure.mpr rfl)
    simp [signalCall, hpid, hsignum] at hc
  | _ => exact Interaction.spec_bind.mpr (spec_error.mpr (spec_pure.mpr rfl))

theorem keycodeSet_reads (ms : List (Str × JVal)) :
    Reads (Act.extractParam (Act.extractEnum KeycodeSet.values) ms "keycode_set")
      (memberValue (enumValue KeycodeSet.values) ms "keycode_set") :=
  extractParam_reads (extractEnum_reads _) ms _

theorem holdTime_reads (ms : List (Str × JVal)) :
    Reads (Act.extractParam (Act.extractParamVal JVal.uint32) ms "hold_time")
      (memberValue JVal.uint32 ms "hold_time") :=
  extractParam_reads (extractParamVal_reads _) ms _

theorem keys_reads (ms : List (Str × JVal)) :
    Reads (Act.extractParam (Act.extractArray (Act.extractParamVal JVal.uint32)) ms "keys")
      (memberValue (arrayValue JVal.uint32) ms "keys") :=
  extractParam_reads (extractArray_reads (extractParamVal_reads _)) ms _

theorem outcome_of_nonNegativeCall (r : ℤ) :
    (if nonNegativeCall r = true then DependsOutcome.success else .failure) =
      if decide (r < 0) = true then .failure else .success := by
  by_cases hr : r < 0
  · have hneg : nonNegativeCall r = false := by simpa [nonNegativeCall] using hr
    simp [hneg, hr]
  · have hpos : nonNegativeCall r = true := by simpa [nonNegativeCall] using hr
    simp [hpos, hr]

/-- Keys that are understood are sent, and that is a success where libvirt sends them. -/
theorem sendKeys_sends {val : JVal} {c : DomainCall} (hc : keysCall val = some c) :
    sendKeys val = (Act.domain c >>= fun r =>
      pure (if c.refused r then .failure else .success)) := by
  cases val with
  | object ms =>
    simp only [keysCall, Option.bind_eq_bind, Option.bind_eq_some_iff] at hc
    obtain ⟨keycodeset, hset, holdtime, hhold, keys, hkeys, heq⟩ := hc
    cases heq
    have hfirst := keycodeSet_reads ms
    have hsecond := holdTime_reads ms
    have hthird := keys_reads ms
    rw [hset] at hfirst
    rw [hhold] at hsecond
    rw [hkeys] at hthird
    unfold sendKeys
    simp only [hfirst.bind_some, hsecond.bind_some, hthird.bind_some]
    apply congrArg (Script.ask _)
    funext r
    exact congrArg Script.ret (outcome_of_nonNegativeCall r)
  | _ => cases hc

theorem sendKeys_missing {val : JVal} (hc : keysCall val = none) (h : Log HandlerOp.Ret) :
    Spec (sendKeys val) h (fun h' o => o = .failure ∧ Loud h') (fun _ _ => False) := by
  have hfail (h : Log HandlerOp.Ret) : Spec (Act.fail 0) h (fun h' o => o = .failure ∧ Loud h')
      (fun _ _ => False) := spec_fail.mpr ⟨rfl, loud_error⟩
  cases val with
  | object ms =>
    unfold sendKeys
    apply (keycodeSet_reads ms).spec_bind (fun _ => hfail)
    intro keycodeset hset
    apply (holdTime_reads ms).spec_bind (fun _ => hfail)
    intro holdtime hhold
    apply (keys_reads ms).spec_bind (fun _ => hfail)
    intro keys hkeys
    simp [keysCall, hset, hhold, hkeys] at hc
  | _ => exact hfail h

end DomainActions

def Done (c : DomainCall) (s s' : Session) : Prop :=
  ∃ made r, s'.calls = s.calls ++ made ∧ (⟨.domain s.obj c, r⟩ : Exchange) ∈ made ∧
    c.refused r = false

def ErrorAdded (s s' : Session) : Prop :=
  ∃ errs, errs ≠ [] ∧ s'.res.errors = s.res.errors ++ errs

/-- A success means that the call was made and granted; a failure comes with an error. -/
structure Truthful (call : Option DomainCall) (s : Session) (o : DependsOutcome)
    (s' : Session) : Prop where
  success : o = .success → ∃ c, call = some c ∧ Done c s s'
  failure : o = .failure → ErrorAdded s s'

def ErrorsTracked (s₀ : Session) (h : Log HandlerOp.Ret) (s : Session) : Prop :=
  ∃ errs, s.res.errors = s₀.res.errors ++ errs ∧ errs.length = (loggedErrors h).length

theorem ErrorsTracked.init (s : Session) : ErrorsTracked s [] s := ⟨[], by simp, rfl⟩

theorem ErrorsTracked.quiet {s₀ s s' : Session} {h : Log HandlerOp.Ret} {x : Performed}
    (ht : ErrorsTracked s₀ h s) (hx : x.error? = none) (hs : s'.res.errors = s.res.errors) :
    ErrorsTracked s₀ (h ++ [x]) s' := by
  obtain ⟨errs, herrs, hlength⟩ := ht
  refine ⟨errs, hs.trans herrs, ?_⟩
  rw [hlength, loggedErrors, loggedErrors, List.filterMap_append]
  simp [hx]

theorem perform_errorsTracked (lv : Libvirt) (s₀ : Session) (h : Log HandlerOp.Ret) (s : Session)
    (o : HandlerOp) (ht : ErrorsTracked s₀ h s) :
    Holds (o.perform lv) s (fun r s' => ErrorsTracked s₀ (h ++ [⟨o, r⟩]) s')
      (fun _ _ => False) := by
  cases o with
  | domain c => exact ht.quiet rfl rfl
  | network c => exact ht.quiet rfl rfl
  | lastError =>
    refine (extractLastError_holds lv s).mono ?_ (fun _ _ hf => hf)
    intro libvirt s' hs'
    exact ht.quiet rfl (congrArg JsonRes.errors hs'.res)
  | error code =>
    refine (error_holds lv code s).mono ?_ (fun _ _ hf => hf)
    intro _ s' hs'
    obtain ⟨libvirt, hres⟩ := hs'.res
    obtain ⟨errs, herrs, hlength⟩ := ht
    refine ⟨errs ++ [JsonRes.errorEntry code libvirt], ?_, ?_⟩
    · rw [hres, ← List.append_assoc, ← herrs]
      rfl
    · rw [List.length_append, hlength, loggedErrors, loggedErrors, List.filterMap_append,
        List.length_append]
      rfl
  | result val => exact ht.quiet rfl rfl
  | message val => exact ht.quiet rfl rfl

/-- A run on a session, with its calls and its errors. -/
theorem Act.run_tracked {α : Type} {p : Act α} {Q : Log HandlerOp.Ret → α → Prop}
    {E : Log HandlerOp.Ret → Unit → Prop} (hp : Spec p [] Q E) (lv : Libvirt) (s : Session) :
    Holds (p.run lv) s (fun a s' => ∃ h, Tracks s h s' ∧ ErrorsTracked s h s' ∧ Q h a)
      (fun e _ => e = .aborted ∧ ∃ h, E h ()) := by
  have hstep (h : Log HandlerOp.Ret) (s' : Session) (o : HandlerOp)
      (hT : Tracks s h s' ∧ ErrorsTracked s h s') : Holds (o.perform lv) s'
        (fun r s'' => Tracks s (h ++ [⟨o, r⟩]) s'' ∧ ErrorsTracked s (h ++ [⟨o, r⟩]) s'')
        (fun _ _ => False) := by
    have hboth := (perform_tracks lv s h s' o hT.1).and (perform_errorsTracked lv s h s' o hT.2)
    exact hboth.mono (fun _ _ hT' => hT') (fun _ _ hf => hf.1)
  refine (play_spec hstep hp ⟨Tracks.init s, ErrorsTracked.init s⟩).mono ?_ ?_
  · intro a s' hrun
    obtain ⟨h, hT, hQ⟩ := hrun
    exact ⟨h, hT.1, hT.2, hQ⟩
  · intro e s' hstop
    obtain ⟨h, _, heq, _, hE⟩ := hstop
    exact ⟨heq, h, hE⟩

theorem Tracks.done {s s' : Session} {h : Log HandlerOp.Ret} {c : DomainCall}
    (ht : Tracks s h s') (hc : Granted c h) : Done c s s' := by
  obtain ⟨r, hmem, hr⟩ := hc
  obtain ⟨made, hmade, hfilter, _⟩ := ht.calls
  have hexchange : (⟨.domain s.obj c, r⟩ : Exchange) ∈ exchanges s.obj h :=
    List.mem_filterMap.mpr ⟨_, hmem, rfl⟩
  rw [← hfilter] at hexchange
  exact ⟨made, r, hmade, (List.mem_filter.mp hexchange).1, hr⟩

theorem ErrorsTracked.errorAdded_iff {s s' : Session} {h : Log HandlerOp.Ret}
    (ht : ErrorsTracked s h s') : ErrorAdded s s' ↔ Loud h := by
  obtain ⟨errs, herrs, hlength⟩ := ht
  have hloud : Loud h ↔ errs ≠ [] := by
    rw [Loud, ← List.length_pos_iff, ← List.length_pos_iff, hlength]
  rw [hloud]
  constructor
  · intro hadded
    obtain ⟨errs', hne, heq⟩ := hadded
    have hsame : errs = errs' := List.append_cancel_left (herrs.symm.trans heq)
    rw [hsame]
    exact hne
  · exact fun hne => ⟨errs, hne, herrs⟩

/-- A single call on the domain, and a value made of the answer. -/
theorem Act.run_call {α : Type} (lv : Libvirt) (c : DomainCall) (f : c.Ret → α) (s : Session) :
    (Act.domain c >>= fun r => pure (f r)).run lv s =
      (.ok (f (lv s.calls (.domain s.obj c))),
        { s with calls := s.calls ++ [⟨.domain s.obj c, lv s.calls (.domain s.obj c)⟩] }) := rfl

/-- A success that is earned and a failure that is told are truthful. -/
theorem truthful_of_spec {call : Option DomainCall} {p : Act DependsOutcome} {E : Prop}
    (htold : Spec p [] Told (fun _ _ => E)) (hearned : Spec p [] (Earned call) (fun _ _ => True))
    (lv : Libvirt) (s : Session) :
    Holds (p.run lv) s (fun o s' => Truthful call s o s') (fun e _ => e = .aborted ∧ E) := by
  refine (Act.run_tracked (htold.and hearned) lv s).mono ?_ ?_
  · intro o s' hrun
    obtain ⟨h, hcalls, herrors, htell, hearn⟩ := hrun
    constructor
    · intro ho
      obtain ⟨c, hc, hgranted⟩ := hearn ho
      exact ⟨c, hc, hcalls.done hgranted⟩
    · intro ho
      apply herrors.errorAdded_iff.mpr
      exact htell.resolve_left (by simp [ho])
  · intro e _ hstop
    obtain ⟨heq, _, hE, _⟩ := hstop
    exact ⟨heq, hE⟩

namespace DomainActions

theorem not_quietSignal_of_sends {val : JVal} {c : DomainCall} (hc : signalCall val = some c) :
    ¬QuietSignal val := by
  have hspec := sendSignal_spec val
  rw [sendSignal_sends hc] at hspec
  have hone := hspec default
  exact hone.mp (Or.inl rfl)

/-- A single call that was made is done if and only if libvirt did not refuse it. -/
theorem done_call_iff (lv : Libvirt) (s : Session) (c : DomainCall) :
    Done c s { s with calls := s.calls ++ [⟨.domain s.obj c, lv s.calls (.domain s.obj c)⟩] } ↔
      ¬c.refused (lv s.calls (.domain s.obj c)) = true := by
  rw [Bool.not_eq_true]
  constructor
  · intro hdone
    obtain ⟨made, r, hmade, hmem, hr⟩ := hdone
    rw [← List.append_cancel_left hmade, List.mem_singleton] at hmem
    cases hmem
    exact hr
  · exact fun hr => ⟨_, _, rfl, List.mem_singleton_self _, hr⟩

theorem not_errorAdded_of_same {s s' : Session} (hs : s'.res = s.res) : ¬ErrorAdded s s' := by
  intro hadded
  obtain ⟨errs, hne, heq⟩ := hadded
  have hnil : errs = [] := by simpa [hs] using heq
  exact hne hnil

/-- A signal is truthful where it is told what is missing and where libvirt sends it. -/
theorem sendSignal_truthful (val : JVal) (lv : Libvirt) (s : Session) :
    Holds ((sendSignal val).run lv) s
      (fun o s' => Truthful (signalCall val) s o s' ↔ ¬QuietSignal val ∧
        ¬∃ c, signalCall val = some c ∧ c.refused (lv s.calls (.domain s.obj c)) = true)
      (fun _ _ => False) := by
  cases hc : signalCall val with
  | some c =>
    rw [sendSignal_sends hc]
    have hquiet := not_quietSignal_of_sends hc
    have hdone := done_call_iff lv s c
    constructor
    · intro htruthful
      obtain ⟨c', hc', hc''⟩ := htruthful.success rfl
      cases hc'
      refine ⟨hquiet, ?_⟩
      intro hrefused
      obtain ⟨c', heq, hr⟩ := hrefused
      cases heq
      exact hdone.mp hc'' hr
    · intro hfine
      refine ⟨fun _ => ⟨c, rfl, hdone.mpr fun hr => hfine.2 ⟨c, rfl, hr⟩⟩, ?_⟩
      intro ho
      cases ho
  | none =>
    have hspec := (sendSignal_spec val).and (sendSignal_missing hc [])
    refine (Act.run_tracked hspec lv s).mono ?_ ?_
    · intro o s' hrun
      obtain ⟨h, _, herrors, htold, ho⟩ := hrun
      have hquiet : ErrorAdded s s' ↔ ¬QuietSignal val := by
        rw [herrors.errorAdded_iff, ← htold, ho]
        simp [Told]
      constructor
      · intro htruthful
        exact ⟨hquiet.mp (htruthful.failure ho), by simp⟩
      · intro hfine
        refine ⟨fun hsuccess => ?_, fun _ => hquiet.mpr hfine.1⟩
        rw [ho] at hsuccess
        cases hsuccess
    · intro _ _ hstop
      obtain ⟨_, _, hf, _⟩ := hstop
      exact hf

/-- Keys are truthful where libvirt sends them. -/
theorem sendKeys_truthful (val : JVal) (lv : Libvirt) (s : Session) :
    Holds ((sendKeys val).run lv) s
      (fun o s' => Truthful (keysCall val) s o s' ↔
        ¬∃ c, keysCall val = some c ∧ c.refused (lv s.calls (.domain s.obj c)) = true)
      (fun _ _ => False) := by
  cases hc : keysCall val with
  | some c =>
    rw [sendKeys_sends hc]
    have hdone := done_call_iff lv s c
    have hrefusal : (∃ c', some c = some c' ∧
        c'.refused (lv s.calls (.domain s.obj c')) = true) ↔
          c.refused (lv s.calls (.domain s.obj c)) = true := by
      simp
    rw [hrefusal]
    have hrun := Act.run_call lv c
      (fun r => if c.refused r then DependsOutcome.failure else .success) s
    rw [Holds, hrun]
    cases hr : c.refused (lv s.calls (.domain s.obj c)) with
    | true =>
      refine iff_of_false ?_ (by simp)
      intro htruthful
      exact not_errorAdded_of_same rfl (htruthful.failure rfl)
    | false =>
      refine iff_of_true ⟨fun _ => ⟨c, rfl, hdone.mpr (by simp [hr])⟩, ?_⟩ (by simp)
      intro ho
      cases ho
  | none =>
    refine (Act.run_tracked (sendKeys_missing hc []) lv s).mono ?_ ?_
    · intro o s' hrun
      obtain ⟨h, _, herrors, ho, hloud⟩ := hrun
      refine iff_of_true ⟨fun hsuccess => ?_, fun _ => herrors.errorAdded_iff.mpr hloud⟩ (by simp)
      rw [ho] at hsuccess
      cases hsuccess
    · intro _ _ hstop
      obtain ⟨_, _, hf⟩ := hstop
      exact hf

end DomainActions

def RefusedSend (lv : Libvirt) (s : Session) (action : String) (val : JVal) : Prop :=
  (action = "send_signal" ∨ action = "send_keys") ∧
    ∃ c, callOf action val = some c ∧ c.refused (lv s.calls (.domain s.obj c)) = true

theorem truthful_unless_sends {call : Option DomainCall} {action : String} {val : JVal}
    {p : Act DependsOutcome} {E : Prop} {lv : Libvirt} {s : Session}
    (hcall : callOf action val = call) (htold : Spec p [] Told (fun _ _ => E))
    (hearned : Spec p [] (Earned call) (fun _ _ => True))
    (hsignal : action ≠ "send_signal") (hkeys : action ≠ "send_keys") :
    Holds (p.run lv) s (fun o s' => Truthful (callOf action val) s o s' ↔
      ¬(action = "send_signal" ∧ DomainActions.QuietSignal val) ∧ ¬RefusedSend lv s action val)
      (fun e _ => e = .aborted ∧ E) := by
  refine (truthful_of_spec htold hearned lv s).mono ?_ (fun _ _ hE => hE)
  intro o s' htruthful
  rw [hcall]
  refine iff_of_true htruthful ⟨fun h => hsignal h.1, fun h => ?_⟩
  exact h.1.elim hsignal hkeys

/-- The outcome of every action is truthful, unless it sends a signal that it does not understand
or libvirt refuses what it sends. -/
theorem outcome_truthful_iff {action : String} {hdl : JVal → Act DependsOutcome}
    (haction : (action, hdl) ∈ DomainActions.table) (val : JVal) (lv : Libvirt) (s : Session) :
    Holds ((hdl val).run lv) s
      (fun o s' => Truthful (callOf action val) s o s' ↔
        ¬(action = "send_signal" ∧ DomainActions.QuietSignal val) ∧
          ¬RefusedSend lv s action val)
      (fun e _ => e = .aborted ∧ action = "power_mgt" ∧ ¬PmWellTyped val) := by
  simp only [DomainActions.table, List.mem_cons, Prod.mk.injEq, List.not_mem_nil,
    or_false] at haction
  rcases haction with ⟨rfl, rfl⟩ | ⟨rfl, rfl⟩ | ⟨rfl, rfl⟩ | ⟨rfl, rfl⟩ | ⟨rfl, rfl⟩ |
    ⟨rfl, rfl⟩ | ⟨rfl, rfl⟩
  · have hcall : callOf "power_mgt" val = powerCall val := rfl
    refine (truthful_unless_sends hcall (DomainActions.powerMgt_spec val [])
      (DomainActions.powerMgt_earned val []) (by decide) (by decide)).mono (fun _ _ h => h) ?_
    exact fun _ _ hstop => ⟨hstop.1, rfl, hstop.2⟩
  · refine (truthful_unless_sends rfl
      (DomainActions.oneCall_spec (fun a => returns_call (.rename (cstr a)) zeroCall) val [])
      (DomainActions.oneCall_earned (fun a => does_call (.rename (cstr a))
        not_refused_of_zeroCall) val []) (by decide) (by decide)).mono (fun _ _ h => h) ?_
    exact fun _ _ hstop => hstop.2.elim
  · refine (truthful_unless_sends rfl
      (DomainActions.oneCall_spec
        (fun a => returns_call (.setMemory (BitVec.ofInt 64 a)) zeroCall) val [])
      (DomainActions.oneCall_earned (fun a => does_call (.setMemory (BitVec.ofInt 64 a))
        not_refused_of_zeroCall) val []) (by decide) (by decide)).mono (fun _ _ h => h) ?_
    exact fun _ _ hstop => hstop.2.elim
  · refine (truthful_unless_sends rfl
      (DomainActions.oneCall_spec
        (fun a => returns_call (.setMaxMemory (BitVec.ofInt 64 a)) zeroCall) val [])
      (DomainActions.oneCall_earned (fun a => does_call (.setMaxMemory (BitVec.ofInt 64 a))
        not_refused_of_zeroCall) val []) (by decide) (by decide)).mono (fun _ _ h => h) ?_
    exact fun _ _ hstop => hstop.2.elim
  · refine (truthful_unless_sends rfl
      (DomainActions.oneCall_spec
        (fun b : Bool => returns_call (.setAutostart (if b then 1 else 0)) zeroCall) val [])
      (DomainActions.oneCall_earned (fun b : Bool => does_call (.setAutostart (if b then 1 else 0))
        not_refused_of_zeroCall) val []) (by decide) (by decide)).mono (fun _ _ h => h) ?_
    exact fun _ _ hstop => hstop.2.elim
  · have hcall : callOf "send_signal" val = signalCall val := rfl
    refine (DomainActions.sendSignal_truthful val lv s).mono ?_ (fun _ _ hf => hf.elim)
    intro o s' htruthful
    rw [hcall, htruthful, RefusedSend, hcall]
    simp
  · have hcall : callOf "send_keys" val = keysCall val := rfl
    refine (DomainActions.sendKeys_truthful val lv s).mono ?_ (fun _ _ hf => hf.elim)
    intro o s' htruthful
    rw [hcall, htruthful, RefusedSend, hcall]
    simp

/-- `{"name": "vm"}`, which libvirt does. -/
theorem outcome_truthful_rename : ("name", DomainActions.name) ∈ DomainActions.table ∧
    Truthful (some (.rename (lit "vm"))) Session.init .success
      ((DomainActions.name (.string (lit "vm"))).run (fun _ _ => default) Session.init).2 := by
  have hmem : ("name", DomainActions.name) ∈ DomainActions.table := by simp [DomainActions.table]
  refine ⟨hmem, ?_⟩
  have htruthful := outcome_truthful_iff hmem (.string (lit "vm")) (fun _ _ => default) Session.init
  exact htruthful.mpr ⟨by simp, fun h => by simp [RefusedSend] at h⟩

def noProcess : Libvirt := fun _ c =>
  match c with
  | .domain _ (.sendProcessSignal _ _) => (-1 : ℤ)
  | _ => default

/-- `{"send_signal": {"pid": 1, "signal": "kill"}}` succeeds although libvirt refuses it, and
`{"send_signal": {"pid": 1}}` fails without an error. -/
theorem refused_signal_succeeds :
    let pid : Str × JVal := (lit "pid", .int ⟨1, by decide⟩)
    let kill : JVal := .object [pid, (lit "signal", .string (lit "kill"))]
    let refused := (DomainActions.sendSignal kill).run noProcess Session.init
    let missing := (DomainActions.sendSignal (.object [pid])).run noProcess Session.init
    (refused.1 = .ok .success ∧
      ¬Truthful (callOf "send_signal" kill) Session.init .success refused.2) ∧
    (missing.1 = .ok .failure ∧
      ¬Truthful (callOf "send_signal" (.object [pid])) Session.init .failure missing.2) := by
  intro pid kill refused missing
  have hcall : callOf "send_signal" kill = some (.sendProcessSignal 1 9) := rfl
  have hrefused : refused =
      (.ok .success, { Session.init with calls := Session.init.calls ++
        [⟨.domain none (.sendProcessSignal 1 9), (-1 : ℤ)⟩] }) := rfl
  have hmissing : missing = (.ok .failure, Session.init) := rfl
  refine ⟨⟨congrArg Prod.fst hrefused, ?_⟩, congrArg Prod.fst hmissing, ?_⟩
  · intro htruthful
    obtain ⟨c, hc, hdone⟩ := htruthful.success rfl
    rw [hcall] at hc
    cases hc
    rw [hrefused] at hdone
    exact (DomainActions.done_call_iff noProcess Session.init _).mp hdone rfl
  · intro htruthful
    have hadded := htruthful.failure rfl
    rw [hmissing] at hadded
    exact DomainActions.not_errorAdded_of_same rfl hadded

end Virthttp
