import Virthttp.HandlerContext
import Mathlib.Logic.Relation

namespace Virthttp

open Program

/-- `GetInt() >= curr_idx`, where the `int` is converted to `size_t`: a negative index becomes
larger than the size of any vector. -/
def notYetRun (n : ℤ) (currIdx : ℕ) : Bool := n < 0 || n ≥ currIdx

/-- `success_pred`; an index out of range would abort. -/
def successPred (currIdx : ℕ) (outcomes : List DependsOutcome) (dep : JVal) :
    M (Bool × List DependsOutcome) :=
  match dep.int32 with
  | none => pure (false, outcomes ++ [.skipped])
  | some n =>
    if notYetRun n currIdx then pure (false, outcomes ++ [.skipped])
    else match outcomes[n.toNat]? with
      | none => stop .aborted
      | some o =>
        if o ≠ .success then pure (false, outcomes ++ [.skipped]) else pure (true, outcomes)

def allSucceeded (currIdx : ℕ) (outcomes : List DependsOutcome) :
    List JVal → M (Bool × List DependsOutcome)
  | [] => pure (true, outcomes)
  | dep :: deps => do
    let (ok, outcomes) ← successPred currIdx outcomes dep
    if ok then allSucceeded currIdx outcomes deps else pure (false, outcomes)

/-- Whether the caller is to run the action; where it is not, its outcome has been appended. -/
def checkDepends (lv : Libvirt) (json : JVal) (outcomes : List DependsOutcome) :
    M (Bool × List DependsOutcome) :=
  match json with
  | .object ms =>
    match JVal.findMember ms (lit "depends") with
    | none => pure (true, outcomes)
    | some (.array deps) => allSucceeded outcomes.length outcomes deps
    | some dep =>
      if dep.int32.isSome then successPred outcomes.length outcomes dep
      else do
        error lv 0
        return (false, outcomes ++ [.failure])
  | _ => pure (true, outcomes)

def dependsLoop (lv : Libvirt) (hdl : JVal → M DependsOutcome) :
    List JVal → List DependsOutcome → M (List DependsOutcome)
  | [], outcomes => pure outcomes
  | action :: actions, outcomes => do
    let (run, outcomes) ← checkDepends lv action outcomes
    if run then do
      let o ← hdl action
      dependsLoop lv hdl actions (outcomes ++ [o])
    else dependsLoop lv hdl actions outcomes

def handleDepends (lv : Libvirt) (jsonReq : JVal) (hdl : JVal → M DependsOutcome) : M Unit :=
  match jsonReq with
  | .array actions => do
    let _ ← dependsLoop lv hdl actions []
    return ()
  | _ => error lv 298

def dependsOf : JVal → Option JVal
  | .object ms => JVal.findMember ms (lit "depends")
  | _ => none

def Met (outcomes : List DependsOutcome) (dep : JVal) : Prop :=
  ∃ n, dep.int32 = some n ∧ 0 ≤ n ∧ n < outcomes.length ∧ outcomes[n.toNat]? = some .success

/-- The action has no dependency, or a single one or an array of them that are all met. -/
def Runnable (outcomes : List DependsOutcome) (action : JVal) : Prop :=
  dependsOf action = none ∨ ∃ dep, dependsOf action = some dep ∧
    (Met outcomes dep ∨ ∃ deps, dep = .array deps ∧ ∀ d ∈ deps, Met outcomes d)

/-- The `depends` member is neither an int nor an array. -/
def Malformed (action : JVal) : Prop :=
  ∃ dep, dependsOf action = some dep ∧ dep.int32 = none ∧ ∀ deps, dep ≠ .array deps

theorem notYetRun_eq_true {n : ℤ} {k : ℕ} : notYetRun n k = true ↔ ¬(0 ≤ n ∧ n < k) := by
  simp only [notYetRun, Bool.or_eq_true, decide_eq_true_eq]
  omega

/-- The predicate says whether the dependency is met and never reads outside the outcomes. -/
theorem successPred_run (outcomes : List DependsOutcome) (dep : JVal) (s : Session) :
    (Met outcomes dep ∧ successPred outcomes.length outcomes dep s = (.ok (true, outcomes), s)) ∨
      (¬Met outcomes dep ∧ successPred outcomes.length outcomes dep s =
        (.ok (false, outcomes ++ [.skipped]), s)) := by
  unfold successPred Met
  cases hn : dep.int32 with
  | none => simp [pure_run]
  | some n =>
    by_cases hrun : notYetRun n outcomes.length = true
    · refine Or.inr ⟨?_, by simp [hrun, pure_run]⟩
      rintro ⟨m, hm, h0, hlt, _⟩
      cases hm
      exact notYetRun_eq_true.mp hrun ⟨h0, hlt⟩
    · obtain ⟨h0, hlt⟩ := not_not.mp (mt notYetRun_eq_true.mpr hrun)
      have hidx : n.toNat < outcomes.length := by omega
      simp only [hrun, Bool.false_eq_true, if_false, List.getElem?_eq_getElem hidx]
      by_cases ho : outcomes[n.toNat] = .success
      · refine Or.inl ⟨⟨n, rfl, h0, hlt, ?_⟩, by simp [ho, pure_run]⟩
        rw [List.getElem?_eq_getElem hidx, ho]
      · refine Or.inr ⟨?_, by simp [ho, pure_run]⟩
        rintro ⟨m, hm, _, _, hs⟩
        cases hm
        rw [List.getElem?_eq_getElem hidx] at hs
        exact ho (Option.some.inj hs)

theorem allSucceeded_run (outcomes : List DependsOutcome) (deps : List JVal) (s : Session) :
    ((∀ d ∈ deps, Met outcomes d) ∧
        allSucceeded outcomes.length outcomes deps s = (.ok (true, outcomes), s)) ∨
      (¬(∀ d ∈ deps, Met outcomes d) ∧ allSucceeded outcomes.length outcomes deps s =
        (.ok (false, outcomes ++ [.skipped]), s)) := by
  induction deps with
  | nil => exact Or.inl ⟨by simp, rfl⟩
  | cons dep deps ih =>
    simp only [allSucceeded, List.forall_mem_cons]
    rcases successPred_run outcomes dep s with ⟨hmet, hp⟩ | ⟨hmet, hp⟩
    · rw [bind_run_ok hp]
      rcases ih with ⟨hall, hr⟩ | ⟨hall, hr⟩
      · exact Or.inl ⟨⟨hmet, hall⟩, hr⟩
      · exact Or.inr ⟨fun h => hall h.2, hr⟩
    · rw [bind_run_ok hp]
      exact Or.inr ⟨fun h => hmet h.1, rfl⟩

theorem error_zero_run (lv : Libvirt) (s : Session) :
    error lv 0 s = (.ok (), { s with res := s.res.error 0 [] }) := rfl

/-- Exactly one outcome is appended, by this function or, where it says so, by its caller. -/
theorem checkDepends_run (lv : Libvirt) (action : JVal) (outcomes : List DependsOutcome)
    (s : Session) :
    (Runnable outcomes action ∧
        checkDepends lv action outcomes s = (.ok (true, outcomes), s)) ∨
      (¬Runnable outcomes action ∧ Malformed action ∧ checkDepends lv action outcomes s =
        (.ok (false, outcomes ++ [.failure]), { s with res := s.res.error 0 [] })) ∨
      (¬Runnable outcomes action ∧ ¬Malformed action ∧ checkDepends lv action outcomes s =
        (.ok (false, outcomes ++ [.skipped]), s)) := by
  cases action with
  | object ms =>
    cases hdep : JVal.findMember ms (lit "depends") with
    | none =>
      refine Or.inl ⟨Or.inl hdep, ?_⟩
      simp only [checkDepends, hdep]
      rfl
    | some dep =>
      -- what the action may need to run, said of the one value it depends on
      have hnot {p : Prop} (hp : p ↔ (Met outcomes dep ∨
          ∃ deps, dep = .array deps ∧ ∀ d ∈ deps, Met outcomes d)) :
          Runnable outcomes (.object ms) ↔ p := by
        simp [Runnable, dependsOf, hdep, hp]
      by_cases harr : ∃ deps, dep = .array deps
      · obtain ⟨deps, rfl⟩ := harr
        have hrun : Runnable outcomes (.object ms) ↔ ∀ d ∈ deps, Met outcomes d :=
          hnot (by simp [Met, JVal.int32])
        have hmal : ¬Malformed (.object ms) := by
          rintro ⟨d, hd, _, hno⟩
          exact hno deps (Option.some.inj (hd.symm.trans hdep))
        simp only [checkDepends, hdep]
        rcases allSucceeded_run outcomes deps s with ⟨hall, hr⟩ | ⟨hall, hr⟩
        · exact Or.inl ⟨hrun.mpr hall, hr⟩
        · exact Or.inr (Or.inr ⟨fun h => hall (hrun.mp h), hmal, hr⟩)
      · have hrun := hnot (p := Met outcomes dep)
          ⟨Or.inl, fun h => h.resolve_right (fun ⟨deps, hd, _⟩ => harr ⟨deps, hd⟩)⟩
        have hbody : checkDepends lv (.object ms) outcomes = if dep.int32.isSome
            then successPred outcomes.length outcomes dep else do
              error lv 0
              return (false, outcomes ++ [.failure]) := by
          cases dep with
          | array deps => exact absurd ⟨deps, rfl⟩ harr
          | _ => simp only [checkDepends, hdep]
        rw [hbody]
        cases hint : dep.int32 with
        | none =>
          refine Or.inr (Or.inl ⟨?_, ⟨dep, hdep, hint, fun deps hd => harr ⟨deps, hd⟩⟩, ?_⟩)
          · rintro h
            obtain ⟨n, hn, _⟩ := hrun.mp h
            rw [hint] at hn
            contradiction
          · simp only [Option.isSome_none, Bool.false_eq_true, if_false]
            rw [bind_run_ok (error_zero_run lv s)]
            rfl
        | some n =>
          have hmal : ¬Malformed (.object ms) := by
            rintro ⟨d, hd, hno, _⟩
            obtain rfl := Option.some.inj (hd.symm.trans hdep)
            rw [hint] at hno
            contradiction
          simp only [Option.isSome_some, if_true]
          rcases successPred_run outcomes dep s with ⟨hmet, hr⟩ | ⟨hmet, hr⟩
          · exact Or.inl ⟨hrun.mpr hmet, hr⟩
          · exact Or.inr (Or.inr ⟨fun h => hmet (hrun.mp h), hmal, hr⟩)
  | _ => exact Or.inl ⟨Or.inl rfl, rfl⟩

structure Examined (hdl : JVal → Session → DependsOutcome × Session)
    (outcomes : List DependsOutcome) (s : Session) (action : JVal) (o : DependsOutcome)
    (s' : Session) : Prop where
  run : Runnable outcomes action → (o, s') = hdl action s
  malformed : ¬Runnable outcomes action → Malformed action →
    o = .failure ∧ s' = { s with res := s.res.error 0 [] }
  skipped : ¬Runnable outcomes action → ¬Malformed action → o = .skipped ∧ s' = s

inductive Processed (hdl : JVal → Session → DependsOutcome × Session) :
    List DependsOutcome → Session → List JVal → List DependsOutcome → Session → Prop where
  | nil (outcomes : List DependsOutcome) (s : Session) : Processed hdl outcomes s [] outcomes s
  | cons {outcomes outcomes' : List DependsOutcome} {s s₁ s' : Session} {action : JVal}
      {actions : List JVal} {o : DependsOutcome} (hone : Examined hdl outcomes s action o s₁)
      (hrest : Processed hdl (outcomes ++ [o]) s₁ actions outcomes' s') :
      Processed hdl outcomes s (action :: actions) outcomes' s'

theorem checkDepends_examined (lv : Libvirt) (hdl : JVal → Session → DependsOutcome × Session)
    (action : JVal) (outcomes : List DependsOutcome) (s : Session) (actions : List JVal) :
    ∃ o s₁, Examined hdl outcomes s action o s₁ ∧
      dependsLoop lv (fun a => total (hdl a)) (action :: actions) outcomes s =
        dependsLoop lv (fun a => total (hdl a)) actions (outcomes ++ [o]) s₁ := by
  simp only [dependsLoop]
  rcases checkDepends_run lv action outcomes s with ⟨hrun, hc⟩ | ⟨hrun, hmal, hc⟩ |
    ⟨hrun, hmal, hc⟩
  · refine ⟨(hdl action s).1, (hdl action s).2, ⟨fun _ => rfl, ?_, ?_⟩, ?_⟩
    · exact fun hno => absurd hrun hno
    · exact fun hno => absurd hrun hno
    · rw [bind_run_ok hc]
      exact bind_run_ok rfl
  · refine ⟨.failure, { s with res := s.res.error 0 [] }, ⟨?_, ?_, ?_⟩, ?_⟩
    · exact fun hyes => absurd hyes hrun
    · exact fun _ _ => ⟨rfl, rfl⟩
    · exact fun _ hno => absurd hmal hno
    · rw [bind_run_ok hc]
      rfl
  · refine ⟨.skipped, s, ⟨?_, ?_, ?_⟩, ?_⟩
    · exact fun hyes => absurd hyes hrun
    · exact fun _ hyes => absurd hyes hmal
    · exact fun _ _ => ⟨rfl, rfl⟩
    · rw [bind_run_ok hc]
      rfl

theorem dependsLoop_processed (lv : Libvirt) (hdl : JVal → Session → DependsOutcome × Session)
    (actions : List JVal) (outcomes : List DependsOutcome) (s : Session) :
    ∃ outcomes' s', dependsLoop lv (fun a => total (hdl a)) actions outcomes s =
        (.ok outcomes', s') ∧ Processed hdl outcomes s actions outcomes' s' := by
  induction actions generalizing outcomes s with
  | nil => exact ⟨outcomes, s, rfl, .nil outcomes s⟩
  | cons action actions ih =>
    obtain ⟨o, s₁, hone, heq⟩ := checkDepends_examined lv hdl action outcomes s actions
    obtain ⟨outcomes', s', hrun, hrest⟩ := ih (outcomes ++ [o]) s₁
    exact ⟨outcomes', s', heq.trans hrun, .cons hone hrest⟩

variable {hdl : JVal → Session → DependsOutcome × Session}

theorem Processed.length {outcomes outcomes' : List DependsOutcome} {s s' : Session}
    {actions : List JVal} (h : Processed hdl outcomes s actions outcomes' s') :
    outcomes <+: outcomes' ∧ outcomes'.length = outcomes.length+actions.length := by
  induction h with
  | nil outcomes s => exact ⟨List.prefix_rfl, rfl⟩
  | cons hone hrest ih =>
    obtain ⟨hpre, hlen⟩ := ih
    refine ⟨(List.prefix_append _ _).trans hpre, ?_⟩
    simp only [List.length_append, List.length_cons, List.length_nil] at hlen ⊢
    omega

/-- When action `i` is examined, the outcomes are those of the `i` actions before it. -/
theorem Processed.examined {outcomes outcomes' : List DependsOutcome} {s s' : Session}
    {actions : List JVal} (h : Processed hdl outcomes s actions outcomes' s') {i : ℕ}
    {action : JVal} (hi : actions[i]? = some action) :
    ∃ o s₁ s₂, outcomes'[outcomes.length+i]? = some o ∧
      Examined hdl (outcomes'.take (outcomes.length+i)) s₁ action o s₂ := by
  induction h generalizing i with
  | nil outcomes s => simp at hi
  | @cons outcomes outcomes' s s₁ s' a actions o hone hrest ih =>
    cases i with
    | zero =>
      obtain rfl : a = action := by simpa using hi
      obtain ⟨⟨rest, rfl⟩, _⟩ := hrest.length
      refine ⟨o, s, s₁, by simp, ?_⟩
      simpa using hone
    | succ i =>
      have hlen : (outcomes ++ [o]).length+i = outcomes.length+(i+1) := by
        simp only [List.length_append, List.length_singleton]
        omega
      have := ih (i := i) (by simpa using hi)
      rwa [hlen] at this

def DependsOn (actions : List JVal) (i j : ℕ) : Prop :=
  ∃ action dep d, actions[i]? = some action ∧ dependsOf action = some dep ∧
    (d = dep ∨ ∃ deps, dep = .array deps ∧ d ∈ deps) ∧ d.int32 = some (j : ℤ)

theorem Runnable.met {outcomes : List DependsOutcome} {actions : List JVal} {i j : ℕ}
    {action : JVal} (hi : actions[i]? = some action) (hrun : Runnable outcomes action)
    (hdep : DependsOn actions i j) : j < outcomes.length ∧ outcomes[j]? = some .success := by
  obtain ⟨action', dep, d, hi', hd, hmem, hj⟩ := hdep
  obtain rfl : action = action' := Option.some.inj (hi.symm.trans hi')
  have hmet : Met outcomes d := by
    rcases hrun with hnone | ⟨dep', hd', hmet⟩
    · rw [hd] at hnone
      contradiction
    · obtain rfl : dep = dep' := Option.some.inj (hd.symm.trans hd')
      rcases hmem with rfl | ⟨deps, rfl, hmem⟩
      · rcases hmet with hmet | ⟨deps, rfl, _⟩
        · exact hmet
        · simp [JVal.int32] at hj
      · rcases hmet with ⟨n, hn, _⟩ | ⟨deps', heq, hall⟩
        · simp [JVal.int32] at hn
        · cases heq
          exact hall d hmem
  obtain ⟨n, hn, h0, hlt, hs⟩ := hmet
  rw [hj] at hn
  cases hn
  exact ⟨by omega, by simpa using hs⟩

/-- No action runs unless all it transitively depends on have succeeded. -/
theorem Processed.transitively_met {outcomes : List DependsOutcome} {s s' : Session}
    {actions : List JVal} (h : Processed hdl [] s actions outcomes s') {i j : ℕ}
    (hdep : Relation.TransGen (DependsOn actions) i j) {action : JVal}
    (hi : actions[i]? = some action) (hrun : Runnable (outcomes.take i) action) :
    outcomes[j]? = some .success := by
  have step {i j : ℕ} {action : JVal} (hdep : DependsOn actions i j)
      (hi : actions[i]? = some action) (hrun : Runnable (outcomes.take i) action) :
      outcomes[j]? = some .success := by
    obtain ⟨hlt, hj⟩ := hrun.met hi hdep
    rw [List.length_take] at hlt
    rwa [List.getElem?_take_of_lt (by omega)] at hj
  induction hdep using Relation.TransGen.head_induction_on generalizing action with
  | single hdep => exact step hdep hi hrun
  | head hdep _ ih =>
    rename_i k _
    have hk := step hdep hi hrun
    have hlt : k < actions.length := by
      have hlen := h.length.2
      have := (List.getElem?_eq_some_iff.mp hk).1
      simp only [List.length_nil] at hlen
      omega
    have hak := List.getElem?_eq_getElem hlt
    obtain ⟨o, s₁, s₂, ho, hex⟩ := h.examined hak
    simp only [List.length_nil, Nat.zero_add] at ho hex
    obtain rfl : o = .success := Option.some.inj (ho.symm.trans hk)
    refine ih hak ?_
    by_contra hno
    by_cases hmal : Malformed actions[k]
    · exact absurd (hex.malformed hno hmal).1 (by simp)
    · exact absurd (hex.skipped hno hmal).1 (by simp)

/-- The actions of an array are examined in order against the outcomes of those before them and
end with one outcome each; none runs unless all it transitively depends on have succeeded. -/
theorem handleDepends_in_order (lv : Libvirt) (actions : List JVal)
    (hdl : JVal → Session → DependsOutcome × Session) (s : Session) :
    ∃ outcomes s',
      dependsLoop lv (fun a => total (hdl a)) actions [] s = (.ok outcomes, s') ∧
      handleDepends lv (.array actions) (fun a => total (hdl a)) s = (.ok (), s') ∧
      outcomes.length = actions.length ∧ Processed hdl [] s actions outcomes s' ∧
      (∀ i action, actions[i]? = some action → ∃ o s₁ s₂, outcomes[i]? = some o ∧
        (outcomes.take i).length = i ∧ Examined hdl (outcomes.take i) s₁ action o s₂) ∧
      ∀ i j action, actions[i]? = some action → Runnable (outcomes.take i) action →
        Relation.TransGen (DependsOn actions) i j → outcomes[j]? = some .success := by
  obtain ⟨outcomes, s', hloop, hproc⟩ := dependsLoop_processed lv hdl actions [] s
  have hlen : outcomes.length = actions.length := by simpa using hproc.length.2
  refine ⟨outcomes, s', hloop, ?_, hlen, hproc, ?_, ?_⟩
  · rw [handleDepends, bind_run_ok hloop]
    rfl
  · intro i action hi
    obtain ⟨o, s₁, s₂, ho, hex⟩ := hproc.examined hi
    have hlt := (List.getElem?_eq_some_iff.mp hi).1
    simp only [List.length_nil, Nat.zero_add] at ho hex
    exact ⟨o, s₁, s₂, ho, by rw [List.length_take]; omega, hex⟩
  · intro i j action hi hrun hdep
    exact hproc.transitively_met hdep hi hrun

end Virthttp
