import Virthttp.HandlerOutcomes

namespace Virthttp

open Interaction

def Returns {α : Type} (p : Act α) : Prop :=
  ∀ h, Spec p h (fun _ _ => True) (fun _ _ => False)

theorem returns_call {α : Type} (c : DomainCall) (f : c.Ret → α) :
    Returns (Act.domain c >>= fun r => pure (f r)) :=
  fun _ => spec_bind.mpr (spec_domain.mpr fun _ => trivial)

theorem loud_error {h : Log HandlerOp.Ret} {code : ℤ} : Loud (h ++ [⟨.error code, ()⟩]) :=
  (loud_append _ _).mpr (Or.inr rfl)

def FlagTexts (jsonFlag : Option JVal) : Prop :=
  ∀ xs, jsonFlag = some (.array xs) → ∀ x ∈ xs, x.asString ≠ none

/-- The request of a power management action is a text, and so are its flags. -/
def PmWellTyped (val : JVal) : Prop :=
  ∀ ms req, val = .object ms → JVal.findMember ms (lit "request") = some req →
    req.asString ≠ none ∧ FlagTexts (JVal.findMember ms (lit "type"))

theorem getFlag_spec (values : List String) (x : JVal) (h : Log HandlerOp.Ret) :
    Spec (Act.getFlag values x) h (fun h' r => r = none → Loud h')
      (fun _ _ => x.asString = none) := by
  unfold Act.getFlag
  rw [spec_bind, spec_require]
  refine ⟨fun name _ => ?_, id⟩
  split
  · exact spec_pure.mpr (by simp)
  · exact spec_bind.mpr (spec_error.mpr fun _ => loud_error)

theorem getCombinedFlagsFrom_spec (values : List String) (flagset : BitVec 32) (xs : List JVal)
    (h : Log HandlerOp.Ret) :
    Spec (Act.getCombinedFlagsFrom values flagset xs) h (fun h' r => r = none → Loud h')
      (fun _ _ => ∃ x ∈ xs, x.asString = none) := by
  induction xs generalizing flagset h with
  | nil => exact spec_pure.mpr (by simp)
  | cons x xs ih =>
    rw [Act.getCombinedFlagsFrom, spec_bind]
    refine (getFlag_spec values x h).mono ?_ (fun _ _ hx => ⟨x, List.mem_cons_self, hx⟩)
    intro h' v hv
    cases v with
    | none => exact spec_pure.mpr fun _ => hv rfl
    | some v =>
      refine (ih (flagset ||| v) h').mono (fun _ _ hq => hq) ?_
      rintro _ _ ⟨y, hy, hnone⟩
      exact ⟨y, List.mem_cons_of_mem _ hy, hnone⟩

theorem getCombinedFlags_spec (values : List String) (jsonFlag : JVal) (h : Log HandlerOp.Ret) :
    Spec (Act.getCombinedFlags values jsonFlag) h (fun h' r => r = none → Loud h')
      (fun _ _ => ¬FlagTexts (some jsonFlag)) := by
  cases jsonFlag with
  | array xs =>
    refine (getCombinedFlagsFrom_spec values 0 xs h).mono (fun _ _ hq => hq) ?_
    rintro _ _ ⟨x, hx, hnone⟩ htexts
    exact htexts xs rfl x hx hnone
  | string s => exact (getFlag_spec values _ h).mono (fun _ _ hq => hq) (by simp [JVal.asString])
  | _ => exact spec_pure.mpr (by simp)

namespace DomainActions

theorem pmReply_spec {reqTag pmMsg : String} {errc : ℤ} {memFcn : Act Bool} {E : Prop}
    (hmem : Returns memFcn) (h : Log HandlerOp.Ret) :
    Spec (pmReply reqTag errc pmMsg memFcn) h Told (fun _ _ => E) := by
  unfold pmReply
  rw [spec_bind]
  refine (hmem h).mono ?_ (fun _ _ hf => hf.elim)
  intro h' ok _
  split
  · exact spec_bind.mpr (spec_message.mpr (Or.inl rfl))
  · exact spec_fail.mpr told_error

def Warns (prereqs : Act DependsOutcome) : Prop :=
  ∀ h, Spec prereqs h (fun h' o => o = .failure → Loud h') (fun _ _ => False)

theorem pmPrereq_warns {bad : Act Bool} (hbad : Returns bad) (code : ℤ) :
    Warns (pmPrereq bad code) := by
  intro h
  unfold pmPrereq
  rw [spec_bind]
  refine (hbad h).mono ?_ (fun _ _ hf => hf)
  intro h' b _
  split
  · exact spec_fail.mpr fun _ => loud_error
  · exact spec_pure.mpr (by simp)

theorem pmHdl_spec {pmReq : Str} {jsonFlag : Option JVal} {reqTag : String}
    {flags : Option PmFlags} {memFcn : Act Bool} {errc : ℤ} {pmMsg : String}
    {prereqs : Act DependsOutcome} (hmem : Returns memFcn)
    (hflags : ∀ f ∈ flags, ∀ b, Returns (f.memFcn b)) (hpre : Warns prereqs)
    (h : Log HandlerOp.Ret) :
    Spec (pmHdl pmReq jsonFlag reqTag flags memFcn errc pmMsg prereqs) h
      (fun h' o => o = .skipped ∨ Told h' o) (fun _ _ => ¬FlagTexts jsonFlag) := by
  unfold pmHdl
  split
  · rw [spec_bind]
    refine (hpre h).mono ?_ (fun _ _ hf => hf.elim)
    intro h' pre hwarn
    split
    · rename_i hfail
      exact spec_pure.mpr (Or.inr (Or.inr (hwarn hfail)))
    · split
      · exact spec_fail.mpr (Or.inr told_error)
      · rename_i jsonFlag f
        rw [spec_bind]
        refine (getCombinedFlags_spec f.values jsonFlag h').mono ?_ (fun _ _ hE => hE)
        intro h'' flagset hnone
        cases flagset with
        | none => exact spec_pure.mpr (Or.inr (Or.inr (hnone rfl)))
        | some flagset =>
          exact (pmReply_spec (hflags f rfl flagset) h'').mono (fun _ _ ht => Or.inr ht)
            (fun _ _ hE => hE)
      · exact (pmReply_spec hmem h').mono (fun _ _ ht => Or.inr ht) (fun _ _ hE => hE)
  · exact spec_pure.mpr (Or.inl rfl)

/-- If the last action in a scope tells what it does, so does the scope. -/
theorem actionScope_spec {actions : List (Act DependsOutcome)} {last : Act DependsOutcome}
    {E : Prop} (hactions : ∀ a ∈ actions, ∀ h,
      Spec a h (fun h' o => o = .skipped ∨ Told h' o) (fun _ _ => E))
    (hlast : ∀ h, Spec last h Told (fun _ _ => E)) (h : Log HandlerOp.Ret) :
    Spec (actionScope (actions ++ [last])) h Told (fun _ _ => E) := by
  induction actions generalizing h with
  | nil =>
    rw [List.nil_append, actionScope, spec_bind]
    refine (hlast h).mono ?_ (fun _ _ hE => hE)
    intro h' ao ht
    split
    · exact spec_pure.mpr ht
    · rename_i hskip
      obtain rfl : ao = .skipped := not_not.mp hskip
      exact spec_pure.mpr ht
  | cons a actions ih =>
    rw [List.cons_append, actionScope, spec_bind]
    refine (hactions a List.mem_cons_self h).mono ?_ (fun _ _ hE => hE)
    intro h' ao ht
    split
    · rename_i hne
      exact spec_pure.mpr (ht.resolve_left hne)
    · exact ih (fun b hb => hactions b (List.mem_cons_of_mem _ hb)) h'

theorem pmRequest_spec (pmReq : Str) (jsonFlag : Option JVal) (h : Log HandlerOp.Ret) :
    Spec (pmRequest pmReq jsonFlag) h Told (fun _ _ => ¬FlagTexts jsonFlag) := by
  unfold pmRequest
  rw [spec_bind]
  refine spec_domain.mpr fun info => ?_
  have hstate (b : Bool) (code : ℤ) : Warns (pmPrereq (pure b) code) :=
    pmPrereq_warns (fun _ => spec_pure.mpr trivial) code
  have hactive (code : ℤ) : Warns (pmPrereq Domain.isActive code) :=
    pmPrereq_warns (returns_call .isActive _) code
  have hinactive (code : ℤ) :
      Warns (pmPrereq (do return !(← Domain.isActive)) code) :=
    pmPrereq_warns (fun h => spec_bind.mpr ((returns_call .isActive _ h).mono
      (fun _ _ _ => spec_pure.mpr trivial) (fun _ _ hf => hf))) code
  have hno : ∀ f ∈ (none : Option PmFlags), ∀ b, Returns (f.memFcn b) := by simp
  have hyes {values : List String} {memFcn : BitVec 32 → Act Bool}
      (hm : ∀ b, Returns (memFcn b)) :
      ∀ f ∈ some (PmFlags.mk values memFcn), ∀ b, Returns (f.memFcn b) := by
    rintro f ⟨⟩ b
    exact hm b
  refine @actionScope_spec [_, _, _, _, _, _, _] _ _ ?_ (fun h => spec_fail.mpr told_error) _
  simp only [List.forall_mem_cons, List.not_mem_nil, false_imp_iff, implies_true, and_true]
  refine ⟨?_, ?_, ?_, ?_, ?_, ?_, ?_⟩
  · exact pmHdl_spec (returns_call .shutdown _) (hyes fun b => returns_call (.shutdownFlags b) _)
      (hstate _ _)
  · exact pmHdl_spec (returns_call .destroy _) (hyes fun b => returns_call (.destroyFlags b) _)
      (hinactive _)
  · exact pmHdl_spec (returns_call .create _) (hyes fun b => returns_call (.createWithFlags b) _)
      (hactive _)
  · exact pmHdl_spec (returns_call (.reboot 0) _) (hyes fun b => returns_call (.reboot b) _)
      (hstate _ _)
  · exact pmHdl_spec (returns_call .reset _) hno (hinactive _)
  · exact pmHdl_spec (returns_call .suspend _) hno (hstate _ _)
  · exact pmHdl_spec (returns_call .resume _) hno (hstate _ _)

theorem powerMgt_spec (val : JVal) (h : Log HandlerOp.Ret) :
    Spec (powerMgt val) h Told (fun _ _ => ¬PmWellTyped val) := by
  cases val with
  | string s =>
    refine (pmRequest_spec (cstr s) none h).mono (fun _ _ ht => ht) ?_
    exact fun _ _ hno => absurd (fun xs hxs => by simp at hxs) hno
  | object ms =>
    rw [powerMgt]
    split
    · exact spec_fail.mpr told_error
    · rename_i req hreq
      rw [spec_bind, spec_require]
      refine ⟨fun pmReq _ => ?_, fun hnone hty => (hty ms req rfl hreq).1 hnone⟩
      refine (pmRequest_spec _ _ h).mono (fun _ _ ht => ht) ?_
      exact fun _ _ hno hty => hno (hty ms req rfl hreq).2
  | _ => exact spec_fail.mpr told_error

theorem oneCall_spec {α : Type} {get : JVal → Option α} {memFcn : α → Act Bool} {errc : ℤ}
    (hmem : ∀ a, Returns (memFcn a)) (val : JVal) (h : Log HandlerOp.Ret) :
    Spec (oneCall get memFcn errc val) h Told (fun _ _ => False) := by
  unfold oneCall
  split
  · exact spec_fail.mpr told_error
  · rename_i a _
    rw [spec_bind]
    refine (hmem a h).mono ?_ (fun _ _ hf => hf)
    intro h' ok _
    split
    · exact spec_pure.mpr (Or.inl rfl)
    · exact spec_fail.mpr told_error

/-- A parameter of a signal that is missing, or an unknown name of a signal: no error is
recorded for these. -/
def QuietSignal (val : JVal) : Prop :=
  ∃ ms, val = .object ms ∧ (JVal.findMember ms (lit "pid") = none ∨
    ∃ pid n, JVal.findMember ms (lit "pid") = some pid ∧ pid.int64 = some n ∧
      (JVal.findMember ms (lit "signal") = none ∨
        ∃ signal name, JVal.findMember ms (lit "signal") = some signal ∧
          signal.asString = some name ∧ enumFromString ProcessSignal.values name = none))

theorem sendSignal_spec (val : JVal) :
    Spec (sendSignal val) [] (fun h o => Told h o ↔ ¬QuietSignal val) (fun _ _ => False) := by
  have hquiet {h : Log HandlerOp.Ret} (hh : h = []) (hq : QuietSignal val) :
      Told h .failure ↔ ¬QuietSignal val := by
    subst hh
    exact iff_of_false (fun ht => ht.elim (by simp) not_loud_nil) (not_not.mpr hq)
  unfold sendSignal Act.wrapFcn
  cases val with
  | object ms =>
    rw [spec_bind, spec_bind]
    cases hpid : JVal.findMember ms (lit "pid") with
    | none =>
      simp only [Act.extractParam, hpid, spec_pure]
      exact hquiet rfl ⟨ms, rfl, Or.inl hpid⟩
    | some pid =>
      cases hn : pid.int64 with
      | none =>
        simp only [Act.extractParam, hpid, Act.extractParamVal, hn, spec_bind, spec_error,
          spec_pure]
        refine iff_of_true told_error ?_
        rintro ⟨_, ⟨⟩, hq⟩
        simp [hpid, hn] at hq
      | some n =>
        cases hsig : JVal.findMember ms (lit "signal") with
        | none =>
          simp only [Act.extractParam, hpid, Act.extractParamVal, hn, hsig, spec_bind, spec_pure]
          exact hquiet rfl ⟨ms, rfl, Or.inr ⟨pid, n, hpid, hn, Or.inl hsig⟩⟩
        | some signal =>
          cases hname : signal.asString with
          | none =>
            simp only [Act.extractParam, hpid, Act.extractParamVal, hn, hsig, Act.extractEnum,
              hname, spec_bind, spec_error, spec_pure]
            refine iff_of_true told_error ?_
            rintro ⟨_, ⟨⟩, hq⟩
            simp [hpid, hsig, hname] at hq
          | some name =>
            cases henum : enumFromString ProcessSignal.values name with
            | none =>
              -- `extract_enum` has a string that is no member, and leaves without an error
              simp only [Act.extractParam, hpid, Act.extractParamVal, hn, hsig, Act.extractEnum,
                hname, henum, spec_bind, spec_pure]
              exact hquiet rfl ⟨ms, rfl, Or.inr ⟨pid, n, hpid, hn, Or.inr
                ⟨signal, name, hsig, hname, henum⟩⟩⟩
            | some signum =>
              simp only [Act.extractParam, hpid, Act.extractParamVal, hn, hsig, Act.extractEnum,
                hname, henum, spec_bind, spec_pure, Domain.sendProcessSignal]
              refine spec_domain.mpr fun r => iff_of_true (Or.inl rfl) ?_
              rintro ⟨_, ⟨⟩, hq⟩
              simp [hpid, hsig, hname, henum] at hq
  | _ =>
    rw [spec_bind, spec_bind]
    refine spec_error.mpr (spec_pure.mpr (spec_pure.mpr (iff_of_true told_error ?_)))
    rintro ⟨_, ⟨⟩, _⟩

end DomainActions

/-- Libvirt has refused to send keys. -/
def DomainCall.refusesKeys : (c : DomainCall) → c.Ret → Bool
  | .sendKey _ _ _, r => decide (r < 0)
  | _, _ => false

def Performed.refusesKeys : Performed → Bool
  | ⟨.domain c, r⟩ => c.refusesKeys r
  | _ => false

def RefusesKeys (h : Log HandlerOp.Ret) : Prop := ∃ x ∈ h, Performed.refusesKeys x = true

namespace DomainActions

theorem not_refusesKeys_nil : ¬RefusesKeys [] := by
  simp [RefusesKeys]

theorem not_refusesKeys_error {h : Log HandlerOp.Ret} {code : ℤ} (hr : ¬RefusesKeys h) :
    ¬RefusesKeys (h ++ [⟨.error code, ()⟩]) := by
  rintro ⟨x, hx, hk⟩
  rcases List.mem_append.mp hx with hx | hx
  · exact hr ⟨x, hx, hk⟩
  · obtain rfl := List.mem_singleton.mp hx
    simp [Performed.refusesKeys] at hk

def Extracts {α : Type} (p : Act (Option α)) : Prop :=
  Spec p [] (fun h r => ¬RefusesKeys h ∧ (r ≠ none → h = [])) (fun _ _ => False)

theorem extracts_pure {α : Type} (r : Option α) : Extracts (pure r) :=
  spec_pure.mpr ⟨not_refusesKeys_nil, fun _ => rfl⟩

theorem extracts_error {α : Type} : Extracts (do
    Act.error 0
    return (none : Option α)) :=
  spec_bind.mpr (spec_error.mpr ⟨not_refusesKeys_error not_refusesKeys_nil, by simp⟩)

theorem extractParamVal_extracts {α : Type} (get : JVal → Option α) (x : JVal) :
    Extracts (Act.extractParamVal get x) := by
  unfold Act.extractParamVal
  split
  · exact extracts_error
  · exact extracts_pure _

theorem extractEnum_extracts (values : List String) (x : JVal) :
    Extracts (Act.extractEnum values x) := by
  unfold Act.extractEnum
  split
  · exact extracts_error
  · exact extracts_pure _

theorem extractElements_extracts {α : Type} {sub : JVal → Act (Option α)}
    (hsub : ∀ x, Extracts (sub x)) (xs : List JVal) : Extracts (Act.extractElements sub xs) := by
  induction xs with
  | nil => exact extracts_pure _
  | cons x xs ih =>
    refine spec_bind.mpr ((hsub x).mono ?_ (fun _ _ hf => hf))
    rintro h res ⟨hr, hnil⟩
    cases res with
    | none => exact spec_pure.mpr ⟨hr, by simp⟩
    | some val =>
      obtain rfl := hnil (by simp)
      refine spec_bind.mpr (Spec.mono ih ?_ (fun _ _ hf => hf))
      rintro h' vals ⟨hr', hnil'⟩
      refine spec_pure.mpr ⟨hr', fun hne => hnil' ?_⟩
      rintro rfl
      exact hne rfl

theorem extractArray_extracts {α : Type} {sub : JVal → Act (Option α)}
    (hsub : ∀ x, Extracts (sub x)) (x : JVal) : Extracts (Act.extractArray sub x) := by
  cases x with
  | array xs => exact extractElements_extracts hsub xs
  | _ => exact extracts_error

theorem extractParam_extracts {α : Type} {sub : JVal → Act (Option α)}
    (hsub : ∀ x, Extracts (sub x)) (ms : List (Str × JVal)) (name : String) :
    Extracts (Act.extractParam sub ms name) := by
  unfold Act.extractParam
  split
  · exact extracts_pure _
  · exact hsub _

/-- What follows an extraction whose failure is told. -/
theorem extracts_then {α : Type} {p : Act (Option α)} (hp : Extracts p)
    {k : Option α → Act DependsOutcome} (hnone : k none = Act.fail 0)
    (hk : ∀ a, Spec (k (some a)) [] (fun h o => Told h o ↔ ¬RefusesKeys h) (fun _ _ => False)) :
    Spec (p >>= k) [] (fun h o => Told h o ↔ ¬RefusesKeys h) (fun _ _ => False) := by
  refine spec_bind.mpr (Spec.mono hp ?_ (fun _ _ hf => hf))
  rintro h r ⟨hr, hnil⟩
  cases r with
  | none =>
    rw [hnone]
    exact spec_fail.mpr (iff_of_true told_error (not_refusesKeys_error hr))
  | some a =>
    obtain rfl := hnil (by simp)
    exact hk a

/-- The only silence is libvirt's refusal. -/
theorem sendKeys_spec (val : JVal) :
    Spec (sendKeys val) [] (fun h o => Told h o ↔ ¬RefusesKeys h) (fun _ _ => False) := by
  cases val with
  | object ms =>
    refine extracts_then (extractParam_extracts (extractEnum_extracts _) ms _) rfl
      fun keycodeset => ?_
    refine extracts_then (extractParam_extracts (extractParamVal_extracts _) ms _) rfl
      fun holdtime => ?_
    refine extracts_then (extractParam_extracts (extractArray_extracts
      (extractParamVal_extracts _)) ms _) rfl fun keys => ?_
    refine spec_bind.mpr (spec_bind.mpr (spec_domain.mpr fun r => ?_))
    refine spec_pure.mpr (spec_pure.mpr ?_)
    have hrefuses : RefusesKeys ([] ++ [⟨.domain (.sendKey keycodeset (BitVec.ofInt 32 holdtime)
        (keys.map (BitVec.ofInt 32))), r⟩]) ↔ r < 0 := by
      simp [RefusesKeys, Performed.refusesKeys, DomainCall.refusesKeys]
    have hloud : ¬Loud ([] ++ [⟨.domain (.sendKey keycodeset (BitVec.ofInt 32 holdtime)
        (keys.map (BitVec.ofInt 32))), r⟩]) := by
      simp [Loud, loggedErrors, Performed.error?]
    rw [hrefuses, Told]
    by_cases hr : r < 0
    · have hneg : nonNegativeCall r = false := by simpa [nonNegativeCall] using hr
      exact iff_of_false (fun ht => ht.elim (by simp [hneg]) hloud) (not_not.mpr hr)
    · have hpos : nonNegativeCall r = true := by simpa [nonNegativeCall] using hr
      simp [hpos, hr]
  | _ => exact spec_fail.mpr (iff_of_true told_error (not_refusesKeys_error not_refusesKeys_nil))

end DomainActions

def ActionWellTyped (action : JVal) : Prop :=
  ∃ name val ms, action = .object ((name, val) :: ms) ∧ (name = lit "power_mgt" → PmWellTyped val)

def QuietAction (action : JVal) : Prop :=
  ∃ val ms, action = .object ((lit "send_signal", val) :: ms) ∧ DomainActions.QuietSignal val

def SendsKeys (action : JVal) : Prop := ∃ val ms, action = .object ((lit "send_keys", val) :: ms)

theorem not_quietAction {name : Str} {val : JVal} {ms : List (Str × JVal)}
    (hname : name ≠ lit "send_signal") : ¬QuietAction (.object ((name, val) :: ms)) := by
  rintro ⟨_, _, ⟨⟩, _⟩
  exact hname rfl

theorem not_sendsKeys {name : Str} {val : JVal} {ms : List (Str × JVal)}
    (hname : name ≠ lit "send_keys") : ¬SendsKeys (.object ((name, val) :: ms)) := by
  rintro ⟨_, _, ⟨⟩⟩
  exact hname rfl

theorem namedCall_mem {α : Type} {table : List (String × α)} {sv : Str} {a : α}
    (h : namedCall table sv = some a) : ∃ n, (n, a) ∈ table ∧ sv = lit n := by
  obtain ⟨⟨n, b⟩, hfind, rfl⟩ := Option.map_eq_some_iff.mp h
  have hn := List.find?_some hfind
  rw [beq_iff_eq] at hn
  exact ⟨n, List.mem_of_find?_eq_some hfind, hn.symm⟩

/-- Two actions can fail in silence: a signal that is missing or unknown, and keys that libvirt
refuses. -/
theorem DomainHandlers.alter_spec (action : JVal) :
    Spec (alter action) [] (fun h o =>
        Told h o ↔ ¬QuietAction action ∧ ¬(SendsKeys action ∧ RefusesKeys h))
      (fun _ _ => ¬ActionWellTyped action) := by
  unfold alter alterWith
  split
  · rename_i name val ms
    have told {h : Log HandlerOp.Ret} {o : DependsOutcome} (ht : Told h o)
        (hsignal : name ≠ lit "send_signal") (hkeys : name ≠ lit "send_keys") :
        Told h o ↔ ¬QuietAction (.object ((name, val) :: ms)) ∧
          ¬(SendsKeys (.object ((name, val) :: ms)) ∧ RefusesKeys h) :=
      iff_of_true ht ⟨not_quietAction hsignal, fun hk => not_sendsKeys hkeys hk.1⟩
    split
    · rename_i hdl hhdl
      obtain ⟨n, hmem, rfl⟩ := namedCall_mem hhdl
      simp only [DomainActions.table, List.mem_cons, Prod.mk.injEq, List.not_mem_nil,
        or_false] at hmem
      rcases hmem with ⟨rfl, rfl⟩ | ⟨rfl, rfl⟩ | ⟨rfl, rfl⟩ | ⟨rfl, rfl⟩ | ⟨rfl, rfl⟩ |
        ⟨rfl, rfl⟩ | ⟨rfl, rfl⟩
      · refine (DomainActions.powerMgt_spec val []).mono
          (fun _ _ ht => told ht (by decide) (by decide)) ?_
        rintro _ _ hno ⟨_, _, _, ⟨⟩, hty⟩
        exact hno (hty rfl)
      · exact (DomainActions.oneCall_spec (fun a => returns_call (.rename (cstr a)) _) val
          []).mono (fun _ _ ht => told ht (by decide) (by decide)) (fun _ _ hf => hf.elim)
      · exact (DomainActions.oneCall_spec (fun a => returns_call (.setMemory _) _) val
          []).mono (fun _ _ ht => told ht (by decide) (by decide)) (fun _ _ hf => hf.elim)
      · exact (DomainActions.oneCall_spec (fun a => returns_call (.setMaxMemory _) _) val
          []).mono (fun _ _ ht => told ht (by decide) (by decide)) (fun _ _ hf => hf.elim)
      · exact (DomainActions.oneCall_spec (fun a => returns_call (.setAutostart _) _) val
          []).mono (fun _ _ ht => told ht (by decide) (by decide)) (fun _ _ hf => hf.elim)
      · refine (DomainActions.sendSignal_spec val).mono ?_ (fun _ _ hf => hf.elim)
        intro h o hiff
        have hkeys : ¬(SendsKeys (.object ((lit "send_signal", val) :: ms)) ∧ RefusesKeys h) :=
          fun hk => not_sendsKeys (by decide) hk.1
        rw [hiff, and_iff_left hkeys]
        refine not_congr ⟨fun hq => ⟨val, ms, rfl, hq⟩, ?_⟩
        rintro ⟨_, _, ⟨⟩, hq⟩
        exact hq
      · refine (DomainActions.sendKeys_spec val).mono ?_ (fun _ _ hf => hf.elim)
        intro h o hiff
        have hquiet : ¬QuietAction (.object ((lit "send_keys", val) :: ms)) :=
          not_quietAction (by decide)
        rw [hiff, and_iff_right hquiet]
        exact not_congr ⟨fun hr => ⟨⟨val, ms, rfl⟩, hr⟩, fun hr => hr.2⟩
    · rename_i hnone
      refine spec_fail.mpr (told told_error ?_ ?_)
      · rintro rfl
        cases hnone
      · rintro rfl
        cases hnone
  · rename_i hno
    refine spec_stop.mpr ?_
    rintro ⟨name, val, ms, rfl, _⟩
    exact hno _ _ _ rfl

theorem networks_find (name : Str) :
    (namedCall NetworkHandlers.table name).join = none := by
  cases h : namedCall NetworkHandlers.table name with
  | none => rfl
  | some hdl =>
    obtain ⟨n, hmem, -⟩ := namedCall_mem h
    simp only [NetworkHandlers.table, List.mem_singleton, Prod.mk.injEq] at hmem
    rw [hmem.2]
    rfl

/-- A network has no actions. -/
theorem NetworkHandlers.alter_spec (action : JVal) :
    Spec (alter action) [] Told (fun _ _ => action.nonEmptyObject = false) := by
  unfold alter alterWith
  split
  · rename_i name val ms
    split
    · rename_i hdl hhdl
      have hnone : (namedCall NetworkHandlers.table name).join = some hdl := hhdl
      rw [networks_find name] at hnone
      cases hnone
    · exact spec_fail.mpr told_error
  · rename_i hno
    refine spec_stop.mpr ?_
    cases action with
    | object ms =>
      cases ms with
      | nil => rfl
      | cons m ms => exact absurd rfl (hno m.1 m.2 ms)
    | _ => rfl

end Virthttp
