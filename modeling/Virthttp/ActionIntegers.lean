import Virthttp.ActionTruth

namespace Virthttp

open Program Interaction

def JVal.integer : JVal → Option ℤ
  | .int n => some n.1
  | _ => none

def DomainCall.integers : DomainCall → List ℤ
  | .setMemory memory => [memory.toNat]
  | .setMaxMemory memory => [memory.toNat]
  | .sendProcessSignal pidValue _ => [pidValue.toInt]
  | .sendKey _ holdtime keycodes => holdtime.toNat :: keycodes.map fun k => (k.toNat : ℤ)
  | _ => []

inductive IntegerAction where
  | memory
  | maxMemory
  | sendSignal
  | sendKeys

namespace IntegerAction

def hdl : IntegerAction → JVal → Act DependsOutcome
  | memory => DomainActions.memory
  | maxMemory => DomainActions.maxMemory
  | sendSignal => DomainActions.sendSignal
  | sendKeys => DomainActions.sendKeys

def meant : IntegerAction → JVal → Option (List ℤ)
  | memory, val => val.integer.map fun n => [n]
  | maxMemory, val => val.integer.map fun n => [n]
  | sendSignal, .object ms => do
    let pid ← memberValue JVal.integer ms "pid"
    return [pid]
  | sendKeys, .object ms => do
    let holdtime ← memberValue JVal.integer ms "hold_time"
    let keys ← memberValue (arrayValue JVal.integer) ms "keys"
    return holdtime :: keys
  | _, _ => none

/-- Libvirt was given the integers of the value with every call on a domain. -/
def CallsExact (a : IntegerAction) (val : JVal) (s s' : Session) : Prop :=
  ∀ made, s'.calls = s.calls ++ made → ∀ e ∈ made, ∀ dom c, e.call = .domain dom c →
    a.meant val = some c.integers

def NegativeSize (a : IntegerAction) (val : JVal) : Prop :=
  (a = memory ∨ a = maxMemory) ∧ ∃ n : JInt, val = .int n ∧ -2^31 ≤ n.1 ∧ n.1 < 0

end IntegerAction

theorem integer_of_int32 {x : JVal} {n : ℤ} (hx : x.int32 = some n) :
    ∃ k : JInt, x = .int k ∧ k.1 = n ∧ -2^31 ≤ n ∧ n < 2^31 := by
  cases x with
  | int k =>
    simp only [JVal.int32, Option.ite_none_right_eq_some, Option.some.injEq] at hx
    obtain ⟨hbounds, heq⟩ := hx
    rw [heq] at hbounds
    exact ⟨k, rfl, heq, hbounds⟩
  | _ => cases hx

theorem integer_of_uint32 {x : JVal} {n : ℤ} (hx : x.uint32 = some n) :
    x.integer = some ((BitVec.ofInt 32 n).toNat : ℤ) := by
  cases x with
  | int k =>
    simp only [JVal.uint32, Option.ite_none_right_eq_some, Option.some.injEq] at hx
    obtain ⟨⟨hlo, hhi⟩, rfl⟩ := hx
    rw [toNat_ofInt_of_bounds hlo hhi]
    rfl
  | _ => cases hx

theorem integer_of_int64 {x : JVal} {n : ℤ} (hx : x.int64 = some n) :
    x.integer = some (BitVec.ofInt 64 n).toInt := by
  cases x with
  | int k =>
    simp only [JVal.int64, Option.ite_none_right_eq_some, Option.some.injEq] at hx
    obtain ⟨hhi, rfl⟩ := hx
    have hlo := k.2.1
    have hround : (BitVec.ofInt 64 k.1).toInt = k.1 := by
      apply BitVec.toInt_ofInt_eq_self (by decide)
      · exact hlo
      · exact hhi
    rw [hround]
    rfl
  | _ => cases hx

section Values

variable {α β : Type} {get : JVal → Option α} {get' : JVal → Option β} {g : α → β}

theorem memberValue_map (hget : ∀ x a, get x = some a → get' x = some (g a))
    {ms : List (Str × JVal)} {name : String} {a : α} (ha : memberValue get ms name = some a) :
    memberValue get' ms name = some (g a) := by
  simp only [memberValue, Option.bind_eq_bind, Option.bind_eq_some_iff] at ha ⊢
  obtain ⟨x, hfound, hx⟩ := ha
  exact ⟨x, hfound, hget x a hx⟩

theorem mapM_values (hget : ∀ x a, get x = some a → get' x = some (g a)) {xs : List JVal}
    {as : List α} (has : xs.mapM get = some as) : xs.mapM get' = some (as.map g) := by
  induction xs generalizing as with
  | nil =>
    cases has
    rfl
  | cons x xs ih =>
    rw [List.mapM_cons] at has ⊢
    simp only [Option.bind_eq_bind, Option.bind_eq_some_iff] at has
    obtain ⟨a, ha, rest, hrest, heq⟩ := has
    cases heq
    rw [hget x a ha, ih hrest]
    rfl

theorem arrayValue_map (hget : ∀ x a, get x = some a → get' x = some (g a)) (x : JVal)
    (as : List α) (has : arrayValue get x = some as) : arrayValue get' x = some (as.map g) := by
  cases x with
  | array xs => exact mapM_values hget has
  | _ => cases has

end Values

theorem meant_of_signalCall {val : JVal} {c : DomainCall} (hc : signalCall val = some c) :
    IntegerAction.sendSignal.meant val = some c.integers := by
  cases val with
  | object ms =>
    simp only [signalCall, Option.bind_eq_bind, Option.bind_eq_some_iff] at hc
    obtain ⟨pid, hpid, signum, _, heq⟩ := hc
    cases heq
    have hmeant := memberValue_map (fun _ _ => integer_of_int64) hpid
    simp only [IntegerAction.meant, hmeant]
    rfl
  | _ => cases hc

theorem meant_of_keysCall {val : JVal} {c : DomainCall} (hc : keysCall val = some c) :
    IntegerAction.sendKeys.meant val = some c.integers := by
  cases val with
  | object ms =>
    simp only [keysCall, Option.bind_eq_bind, Option.bind_eq_some_iff] at hc
    obtain ⟨keycodeset, _, holdtime, hhold, keys, hkeys, heq⟩ := hc
    cases heq
    have htime := memberValue_map (fun _ _ => integer_of_uint32) hhold
    have hcodes := memberValue_map (arrayValue_map fun _ _ => integer_of_uint32) hkeys
    simp only [IntegerAction.meant, htime, hcodes, DomainCall.integers, List.map_map]
    rfl
  | _ => cases hc

def NoCall (o : HandlerOp) : Prop := ∀ c, o ≠ .domain c

theorem error_asks (code : ℤ) : (Act.error code).Asks NoCall := by
  apply asks_ask
  intro c h
  cases h

theorem fail_asks (code : ℤ) : (Act.fail code).Asks NoCall :=
  asks_bind_all (error_asks code) fun _ => asks_pure _

namespace DomainActions

theorem extractParamVal_asks {α : Type} (get : JVal → Option α) (x : JVal) :
    (Act.extractParamVal get x).Asks NoCall := by
  unfold Act.extractParamVal
  cases get x with
  | none => exact asks_bind_all (error_asks 0) fun _ => asks_pure _
  | some a => exact asks_pure _

theorem extractEnum_asks (values : List String) (x : JVal) :
    (Act.extractEnum values x).Asks NoCall := by
  unfold Act.extractEnum
  cases x.asString with
  | none => exact asks_bind_all (error_asks 0) fun _ => asks_pure _
  | some name => exact asks_pure _

theorem extractElements_asks {α : Type} {sub : JVal → Act (Option α)}
    (hsub : ∀ x, (sub x).Asks NoCall) (xs : List JVal) :
    (Act.extractElements sub xs).Asks NoCall := by
  induction xs with
  | nil => exact asks_pure _
  | cons x xs ih =>
    rw [Act.extractElements]
    apply asks_bind_all (hsub x)
    intro res
    cases res with
    | none => exact asks_pure _
    | some val => exact asks_bind_all ih fun _ => asks_pure _

theorem extractArray_asks {α : Type} {sub : JVal → Act (Option α)}
    (hsub : ∀ x, (sub x).Asks NoCall) (x : JVal) : (Act.extractArray sub x).Asks NoCall := by
  cases x with
  | array xs => exact extractElements_asks hsub xs
  | _ => exact asks_bind_all (error_asks 0) fun _ => asks_pure _

theorem extractParam_asks {α : Type} {sub : JVal → Act (Option α)}
    (hsub : ∀ x, (sub x).Asks NoCall) (ms : List (Str × JVal)) (name : String) :
    (Act.extractParam sub ms name).Asks NoCall := by
  unfold Act.extractParam
  cases JVal.findMember ms (lit name) with
  | none => exact asks_pure _
  | some x => exact hsub x

/-- What follows an extraction is asked for with the value, or where there is none. -/
theorem Reads.asks_bind {α β : Type} {p : Act (Option α)} {value : Option α}
    {k : Option α → Act β} (hp : Reads p value) (hasks : p.Asks NoCall)
    (hnone : value = none → (k none).Asks NoCall)
    (hsome : ∀ a, value = some a → (k (some a)).Asks NoCall) : (p >>= k).Asks NoCall := by
  cases hvalue : value with
  | some a =>
    rw [hvalue] at hp
    rw [hp.bind_some]
    exact hsome a hvalue
  | none =>
    apply Interaction.asks_bind hasks
    refine (hp.missing hvalue []).mono ?_ (fun _ _ _ => trivial)
    intro _ r hr
    rw [hr]
    exact hnone hvalue

theorem sendSignal_asks {val : JVal} (hc : signalCall val = none) :
    (sendSignal val).Asks NoCall := by
  unfold sendSignal Act.wrapFcn
  refine asks_bind_all ?_ fun _ => asks_pure _
  cases val with
  | object ms =>
    refine (pid_reads ms).asks_bind (extractParam_asks (extractParamVal_asks _) ms _)
      (fun _ => asks_pure _) ?_
    intro pid hpid
    refine (signal_reads ms).asks_bind (extractParam_asks (extractEnum_asks _) ms _)
      (fun _ => asks_pure _) ?_
    intro signum hsignum
    simp [signalCall, hpid, hsignum] at hc
  | _ => exact asks_bind_all (error_asks 0) fun _ => asks_pure _

theorem sendKeys_asks {val : JVal} (hc : keysCall val = none) : (sendKeys val).Asks NoCall := by
  cases val with
  | object ms =>
    unfold sendKeys
    refine (keycodeSet_reads ms).asks_bind (extractParam_asks (extractEnum_asks _) ms _)
      (fun _ => fail_asks 0) ?_
    intro keycodeset hset
    refine (holdTime_reads ms).asks_bind (extractParam_asks (extractParamVal_asks _) ms _)
      (fun _ => fail_asks 0) ?_
    intro holdtime hhold
    refine (keys_reads ms).asks_bind
      (extractParam_asks (extractArray_asks (extractParamVal_asks _)) ms _) (fun _ => fail_asks 0) ?_
    intro keys hkeys
    simp [keysCall, hset, hhold, hkeys] at hc
  | _ => exact fail_asks 0

end DomainActions

namespace IntegerAction

def Exact (a : IntegerAction) (val : JVal) (o : HandlerOp) : Prop :=
  ∀ c, o = .domain c → a.meant val = some c.integers

theorem exact_of_noCall {a : IntegerAction} {val : JVal} {o : HandlerOp} (ho : NoCall o) :
    a.Exact val o := fun c hc => absurd hc (ho c)

theorem exact_domain {a : IntegerAction} {val : JVal} {c : DomainCall}
    (hc : a.meant val = some c.integers) : a.Exact val (.domain c) := by
  intro c' heq
  cases heq
  exact hc

/-- A single call that follows a test of the value -/
theorem oneCall_asks {a : IntegerAction} {α : Type} {get : JVal → Option α}
    {memFcn : α → Act Bool} {errc : ℤ} {val : JVal}
    (hmem : ∀ x, get val = some x → (memFcn x).Asks (a.Exact val)) :
    (DomainActions.oneCall get memFcn errc val).Asks (a.Exact val) := by
  have hfail (code : ℤ) : (Act.fail code).Asks (a.Exact val) :=
    (fail_asks code).mono fun _ => exact_of_noCall
  unfold DomainActions.oneCall
  cases hget : get val with
  | none => exact hfail 0
  | some x =>
    apply asks_bind_all (hmem x hget)
    intro ok
    cases ok with
    | true => exact asks_pure _
    | false => exact hfail errc

theorem size_meant {val : JVal} {n : ℤ} (hn : val.int32 = some n)
    (hneg : ¬∃ k : JInt, val = .int k ∧ -2^31 ≤ k.1 ∧ k.1 < 0) :
    (val.integer.map fun n => [n]) = some [((BitVec.ofInt 64 n).toNat : ℤ)] := by
  obtain ⟨k, hval, hk, hlo, hhi⟩ := integer_of_int32 hn
  -- what is left of an `int` is not changed on the way to `unsigned long`
  have hnonneg : 0 ≤ n := by
    by_contra hlt
    exact hneg ⟨k, hval, by omega, by omega⟩
  rw [toNat_ofInt_of_bounds hnonneg (by omega), hval, ← hk]
  rfl

/-- A handler whose value is no negative size asks for calls with the integers of the value. -/
theorem hdl_asks {a : IntegerAction} {val : JVal} (hneg : ¬a.NegativeSize val) :
    (a.hdl val).Asks (a.Exact val) := by
  cases a with
  | memory =>
    apply oneCall_asks
    intro n hn
    have hmeant := size_meant hn fun hk => hneg ⟨Or.inl rfl, hk⟩
    exact ⟨exact_domain hmeant, fun _ => trivial⟩
  | maxMemory =>
    apply oneCall_asks
    intro n hn
    have hmeant := size_meant hn fun hk => hneg ⟨Or.inr rfl, hk⟩
    exact ⟨exact_domain hmeant, fun _ => trivial⟩
  | sendSignal =>
    cases hc : signalCall val with
    | some c =>
      rw [hdl, DomainActions.sendSignal_sends hc]
      exact ⟨exact_domain (meant_of_signalCall hc), fun _ => trivial⟩
    | none => exact (DomainActions.sendSignal_asks hc).mono fun _ => exact_of_noCall
  | sendKeys =>
    cases hc : keysCall val with
    | some c =>
      rw [hdl, DomainActions.sendKeys_sends hc]
      exact ⟨exact_domain (meant_of_keysCall hc), fun _ => trivial⟩
    | none => exact (DomainActions.sendKeys_asks hc).mono fun _ => exact_of_noCall

theorem callsExact_of_tracks {a : IntegerAction} {val : JVal} {s s' : Session}
    {h : Log HandlerOp.Ret} (ht : Tracks s h s') (hh : ∀ x ∈ h, a.Exact val x.1) :
    a.CallsExact val s s' := by
  intro made hmade e he dom c hcall
  obtain ⟨l, hl, hfilter, _⟩ := ht.calls
  have hsame : made = l := List.append_cancel_left (hmade.symm.trans hl)
  have hon : e.onObject = true := by rw [Exchange.onObject, hcall]
  have hmem : e ∈ exchanges s.obj h := by
    rw [← hfilter, ← hsame]
    exact List.mem_filter.mpr ⟨he, hon⟩
  obtain ⟨x, hx, hexchange⟩ := List.mem_filterMap.mp hmem
  obtain ⟨o, r⟩ := x
  cases o <;> simp only [Performed.exchange?, Option.some.injEq, reduceCtorEq] at hexchange
  · rename_i c'
    rw [← hexchange] at hcall
    cases hcall
    exact hh _ hx c rfl
  · rw [← hexchange] at hcall
    cases hcall

def Asked (c : DomainCall) (h : Log HandlerOp.Ret) : Prop := ∃ r, (⟨.domain c, r⟩ : Performed) ∈ h

theorem oneCall_asked {α : Type} {get : JVal → Option α} {toCall : α → DomainCall}
    {f : (x : α) → (toCall x).Ret → Bool} {errc : ℤ} {val : JVal} {x : α}
    (hx : get val = some x) :
    Spec (DomainActions.oneCall get (fun x => Act.domain (toCall x) >>= fun r => pure (f x r)) errc
      val) [] (fun h _ => Asked (toCall x) h) (fun _ _ => False) := by
  unfold DomainActions.oneCall
  rw [hx]
  apply spec_bind.mpr
  apply spec_bind.mpr
  apply spec_domain.mpr
  intro r
  apply spec_pure.mpr
  cases f x r with
  | true => exact spec_pure.mpr ⟨r, List.mem_singleton_self _⟩
  | false => exact spec_fail.mpr ⟨r, List.mem_append_left _ (List.mem_singleton_self _)⟩

theorem asked_exact {a : IntegerAction} {val : JVal} {s s' : Session} {h : Log HandlerOp.Ret}
    {c : DomainCall} (ht : Tracks s h s') (hc : Asked c h) (hexact : a.CallsExact val s s') :
    a.meant val = some c.integers := by
  obtain ⟨r, hmem⟩ := hc
  obtain ⟨made, hmade, hfilter, _⟩ := ht.calls
  have hexchange : (⟨.domain s.obj c, r⟩ : Exchange) ∈ exchanges s.obj h :=
    List.mem_filterMap.mpr ⟨_, hmem, rfl⟩
  rw [← hfilter] at hexchange
  exact hexact made hmade _ (List.mem_filter.mp hexchange).1 s.obj c rfl

/-- A size below zero is not the one that libvirt receives. -/
theorem size_not_meant {k : JInt} (hneg : k.1 < 0) (m : BitVec 64) :
    ((JVal.int k).integer.map fun n => [n]) ≠ some [(m.toNat : ℤ)] := by
  intro h
  simp only [JVal.integer, Option.map_some, Option.some.injEq, List.cons.injEq, and_true] at h
  omega

theorem int32_of_bounds {k : JInt} (hlo : -2^31 ≤ k.1) (hhi : k.1 < 0) :
    (JVal.int k).int32 = some k.1 := by
  have hbounds : -2^31 ≤ k.1 ∧ k.1 < 2^31 := ⟨hlo, by omega⟩
  rw [JVal.int32, if_pos hbounds]

/-- A property of the operations performed, however the handler ends, is one of the final state. -/
theorem final_of_spec {p : Act DependsOutcome} {I : Log HandlerOp.Ret → Prop} {J : Session → Prop}
    {lv : Libvirt} {s : Session} (hp : Spec p [] (fun h _ => I h) (fun h _ => I h))
    (hIJ : ∀ h s', Tracks s h s' → I h → J s') : J (p.run lv s).2 := by
  apply holds_final.mp
  refine (Act.run_holds hp lv s).mono ?_ ?_
  · intro _ s' hrun
    obtain ⟨h, ht, hI⟩ := hrun
    exact hIJ h s' ht hI
  · intro _ s' hstop
    obtain ⟨_, h, ht, hI⟩ := hstop
    exact hIJ h s' ht hI

theorem not_callsExact_of_asked {a : IntegerAction} {val : JVal} {c : DomainCall}
    (hspec : Spec (a.hdl val) [] (fun h _ => Asked c h) (fun _ _ => False))
    (hmeant : a.meant val ≠ some c.integers) (lv : Libvirt) (s : Session) :
    ¬a.CallsExact val s ((a.hdl val).run lv s).2 := by
  have hasked := hspec.mono (fun _ _ hq => hq) (fun h _ hf => (hf.elim : Asked c h))
  refine final_of_spec (J := fun s' => ¬a.CallsExact val s s') hasked ?_
  intro h s' ht hc hexact
  exact hmeant (asked_exact ht hc hexact)

theorem negativeSize_wraps {a : IntegerAction} {val : JVal} (hneg : a.NegativeSize val)
    (lv : Libvirt) (s : Session) : ¬a.CallsExact val s ((a.hdl val).run lv s).2 := by
  obtain ⟨haction, k, rfl, hlo, hhi⟩ := hneg
  have hget := int32_of_bounds hlo hhi
  rcases haction with rfl | rfl
  · have hspec : Spec (memory.hdl (.int k)) []
        (fun h _ => Asked (.setMemory (BitVec.ofInt 64 k.1)) h) (fun _ _ => False) :=
      oneCall_asked hget
    exact not_callsExact_of_asked hspec (size_not_meant hhi _) lv s
  · have hspec : Spec (maxMemory.hdl (.int k)) []
        (fun h _ => Asked (.setMaxMemory (BitVec.ofInt 64 k.1)) h) (fun _ _ => False) :=
      oneCall_asked hget
    exact not_callsExact_of_asked hspec (size_not_meant hhi _) lv s

/-- Libvirt receives the integers of the value, unless this is a negative size of the memory. -/
theorem calls_exact_iff (a : IntegerAction) (val : JVal) (lv : Libvirt) (s : Session) :
    a.CallsExact val s ((a.hdl val).run lv s).2 ↔ ¬a.NegativeSize val := by
  constructor
  · intro hexact hneg
    exact negativeSize_wraps hneg lv s hexact
  · intro hneg
    have hnil : ∀ x ∈ ([] : Log HandlerOp.Ret), a.Exact val x.1 := by simp
    refine final_of_spec (J := a.CallsExact val s) ((hdl_asks hneg).spec hnil) ?_
    exact fun _ _ ht hh => callsExact_of_tracks ht hh

/-- `{"memory": -1}`, which libvirt takes for the greatest size of all. -/
theorem memory_wraps :
    let val : JVal := .int ⟨-1, by decide⟩
    ¬memory.CallsExact val Session.init
      ((memory.hdl val).run (fun _ _ => default) Session.init).2 := by
  intro val
  exact negativeSize_wraps ⟨Or.inl rfl, _, rfl, by decide, by decide⟩ _ _

end IntegerAction

end Virthttp
