import Virthttp.Depends
import Virthttp.PowerManagement

/-! The order in which the members of an action are written: what it depends on is found by name,
what it does is taken from the member in front. -/
namespace Virthttp

open Program Interaction

structure OneAction where
  name : Str
  val : JVal
  depends : Option JVal
  named : name ≠ lit "depends"

namespace OneAction

def members (a : OneAction) : List (Str × JVal) :=
  (a.name, a.val) :: (a.depends.map (fun d => (lit "depends", d))).toList

def Written (a : OneAction) (action : JVal) : Prop :=
  ∃ ms, action = .object ms ∧ ms.Perm a.members

end OneAction

/-- In whatever order the members are written, `alter` does the same, and so does an array of
actions with the action anywhere in it. -/
def OrderFree (alter : JVal → Act DependsOutcome) (a : OneAction) : Prop :=
  ∀ x y, a.Written x → a.Written y → alter x = alter y ∧
    ∀ lv before after s,
      dependsLoop lv (fun action => (alter action).run lv) (before ++ x :: after) [] s =
          dependsLoop lv (fun action => (alter action).run lv) (before ++ y :: after) [] s ∧
        handleDepends lv (.array (before ++ x :: after)) (fun action => (alter action).run lv) s =
          handleDepends lv (.array (before ++ y :: after)) (fun action => (alter action).run lv) s

theorem perm_pair {α : Type} {l : List α} {x y : α} (h : l.Perm [x, y]) : l = [x, y] ∨ l = [y, x] := by
  have hlen := h.length_eq
  obtain ⟨u, v, rfl⟩ := List.length_eq_two.mp hlen
  have hu : u = x ∨ u = y := by simpa using h.subset List.mem_cons_self
  rcases hu with rfl | rfl
  · have hv := (List.perm_cons u).mp h
    rw [List.singleton_perm_singleton.mp hv]
    exact Or.inl rfl
  · have hv := (List.perm_cons u).mp (h.trans (List.Perm.swap u x []))
    rw [List.singleton_perm_singleton.mp hv]
    exact Or.inr rfl

namespace OneAction

variable {a : OneAction} {x y : JVal}

/-- Either the action stands in front, or what it depends on. -/
theorem Written.cases (hx : a.Written x) : x = .object a.members ∨
    ∃ d, a.depends = some d ∧ x = .object [(lit "depends", d), (a.name, a.val)] := by
  obtain ⟨ms, rfl, hperm⟩ := hx
  unfold members at hperm ⊢
  cases hd : a.depends with
  | none =>
    rw [hd] at hperm
    exact Or.inl (congrArg JVal.object (List.perm_singleton.mp hperm))
  | some d =>
    rw [hd] at hperm
    rcases perm_pair hperm with rfl | rfl
    · exact Or.inl rfl
    · exact Or.inr ⟨d, rfl, rfl⟩

theorem written_members (a : OneAction) : a.Written (.object a.members) :=
  ⟨a.members, rfl, List.Perm.refl _⟩

theorem written_depends {d : JVal} (hd : a.depends = some d) :
    a.Written (.object [(lit "depends", d), (a.name, a.val)]) := by
  refine ⟨_, rfl, ?_⟩
  unfold members
  rw [hd]
  exact List.Perm.swap _ _ []

/-- What the action depends on is found in either order. -/
theorem Written.dependsOf (hx : a.Written x) : dependsOf x = a.depends := by
  have hname : (a.name == lit "depends") = false := by simpa using a.named
  rcases hx.cases with rfl | ⟨d, hd, rfl⟩
  · cases hd : a.depends with
    | none => simp [Virthttp.dependsOf, JVal.findMember, members, hname, hd]
    | some d => simp [Virthttp.dependsOf, JVal.findMember, members, hname, hd]
  · rw [hd]
    simp [Virthttp.dependsOf, JVal.findMember]

theorem Written.checkDepends (hx : a.Written x) (hy : a.Written y) (lv : Libvirt)
    (outcomes : List DependsOutcome) :
    checkDepends lv x outcomes = checkDepends lv y outcomes := by
  have hsame := hx.dependsOf.trans hy.dependsOf.symm
  obtain ⟨ms, rfl, -⟩ := hx
  obtain ⟨ms', rfl, -⟩ := hy
  simp only [Virthttp.dependsOf] at hsame
  simp only [Virthttp.checkDepends, hsame]

theorem Written.runnable (hx : a.Written x) (outcomes : List DependsOutcome) :
    Runnable outcomes x ↔ Runnable outcomes (.object a.members) := by
  unfold Runnable
  rw [hx.dependsOf, (written_members a).dependsOf]

end OneAction

theorem handleDepends_of_loop {lv : Libvirt} {hdl : JVal → M DependsOutcome}
    {actions actions' : List JVal} {s : Session}
    (h : dependsLoop lv hdl actions [] s = dependsLoop lv hdl actions' [] s) :
    handleDepends lv (.array actions) hdl s = handleDepends lv (.array actions') hdl s := by
  unfold handleDepends
  change Prog.andThen _ _ s = Prog.andThen _ _ s
  unfold Prog.andThen
  rw [h]

/-- The loop goes the same way for two actions that are checked and handled the same way. -/
theorem dependsLoop_same {lv : Libvirt} {hdl : JVal → M DependsOutcome} {x y : JVal}
    (hcheck : ∀ outcomes, checkDepends lv x outcomes = checkDepends lv y outcomes)
    (hhdl : hdl x = hdl y) (before after : List JVal) (outcomes : List DependsOutcome) :
    dependsLoop lv hdl (before ++ x :: after) outcomes =
      dependsLoop lv hdl (before ++ y :: after) outcomes := by
  induction before generalizing outcomes with
  | nil => simp only [List.nil_append, dependsLoop, hcheck, hhdl]
  | cons b before ih => simp only [List.cons_append, dependsLoop, ih]

theorem orderFree_of_same {alter : JVal → Act DependsOutcome} {a : OneAction}
    (hsame : ∀ x y, a.Written x → a.Written y → alter x = alter y) : OrderFree alter a := by
  intro x y hx hy
  refine ⟨hsame x y hx hy, fun lv before after s => ?_⟩
  have hhdl : (alter x).run lv = (alter y).run lv := by rw [hsame x y hx hy]
  have hloop := congrFun (@dependsLoop_same lv (fun action => (alter action).run lv) x y
    (hx.checkDepends hy lv) hhdl before after []) s
  exact ⟨hloop, handleDepends_of_loop hloop⟩

def OpensOtherwise {α : Type} : Act α → Prop
  | .ask (.domain _) _ => True
  | .ask (.error code) _ => code = 0 ∨ code = 300
  | .ask _ _ => False
  | _ => True

theorem opens_bind {α β : Type} {p : Act α} {f : α → Act β} (hp : OpensOtherwise p)
    (hf : ∀ r, OpensOtherwise (f r)) : OpensOtherwise (p >>= f) := by
  cases p with
  | ret r => exact hf r
  | stop e => trivial
  | ask o k =>
    cases o with
    | domain c => trivial
    | error code => exact hp
    | _ => exact hp.elim

namespace DomainActions

theorem powerMgt_opens (val : JVal) : OpensOtherwise (powerMgt val) := by
  cases val with
  | string s => trivial
  | object ms =>
    rw [powerMgt]
    cases JVal.findMember ms (lit "request") with
    | none => exact Or.inr rfl
    | some req =>
      cases req with
      | string s => trivial
      | _ => trivial
  | _ => exact Or.inr rfl

theorem oneCall_opens {α : Type} {get : JVal → Option α} {memFcn : α → Act Bool} {errc : ℤ}
    (hmem : ∀ a (f : Bool → Act DependsOutcome), OpensOtherwise (memFcn a >>= f)) (val : JVal) :
    OpensOtherwise (oneCall get memFcn errc val) := by
  unfold oneCall
  cases get val with
  | none => exact Or.inl rfl
  | some a => exact hmem a _

theorem extractParamVal_opens {α : Type} (get : JVal → Option α) (x : JVal) :
    OpensOtherwise (Act.extractParamVal get x) := by
  unfold Act.extractParamVal
  cases get x with
  | none => exact Or.inl rfl
  | some r => trivial

theorem extractEnum_opens (values : List String) (x : JVal) :
    OpensOtherwise (Act.extractEnum values x) := by
  unfold Act.extractEnum
  cases x.asString with
  | none => exact Or.inl rfl
  | some r => trivial

theorem extractElements_opens {α : Type} {sub : JVal → Act (Option α)}
    (hsub : ∀ x, OpensOtherwise (sub x)) (xs : List JVal) :
    OpensOtherwise (Act.extractElements sub xs) := by
  induction xs with
  | nil => trivial
  | cons x xs ih =>
    rw [Act.extractElements]
    apply opens_bind (hsub x)
    intro res
    cases res with
    | none => trivial
    | some r => exact opens_bind ih fun _ => trivial

theorem extractArray_opens {α : Type} {sub : JVal → Act (Option α)}
    (hsub : ∀ x, OpensOtherwise (sub x)) (x : JVal) :
    OpensOtherwise (Act.extractArray sub x) := by
  cases x with
  | array xs => exact extractElements_opens hsub xs
  | _ => exact Or.inl rfl

theorem extractParam_opens {α : Type} {sub : JVal → Act (Option α)}
    (hsub : ∀ x, OpensOtherwise (sub x)) (ms : List (Str × JVal)) (name : String) :
    OpensOtherwise (Act.extractParam sub ms name) := by
  unfold Act.extractParam
  cases JVal.findMember ms (lit name) with
  | none => trivial
  | some x => exact hsub x

theorem sendSignal_opens (val : JVal) : OpensOtherwise (sendSignal val) := by
  refine opens_bind ?_ fun _ => trivial
  unfold Act.wrapFcn
  cases val with
  | object ms =>
    apply opens_bind (extractParam_opens (extractParamVal_opens _) ms _)
    intro pid
    cases pid with
    | none => trivial
    | some pid =>
      apply opens_bind (extractParam_opens (extractEnum_opens _) ms _)
      intro signum
      cases signum with
      | none => trivial
      | some signum => trivial
  | _ => exact Or.inl rfl

theorem sendKeys_opens (val : JVal) : OpensOtherwise (sendKeys val) := by
  cases val with
  | object ms =>
    apply opens_bind (extractParam_opens (extractEnum_opens _) ms _)
    intro keycodeset
    cases keycodeset with
    | none => exact Or.inl rfl
    | some keycodeset =>
      apply opens_bind (extractParam_opens (extractParamVal_opens _) ms _)
      intro holdtime
      cases holdtime with
      | none => exact Or.inl rfl
      | some holdtime =>
        apply opens_bind (extractParam_opens (extractArray_opens (extractParamVal_opens _)) ms _)
        intro keys
        cases keys with
        | none => exact Or.inl rfl
        | some keys => trivial
  | _ => exact Or.inl rfl

theorem table_opens {name : Str} {hdl : JVal → Act DependsOutcome}
    (h : namedCall table name = some hdl) (val : JVal) : OpensOtherwise (hdl val) := by
  obtain ⟨n, hmem, rfl⟩ := namedCall_mem h
  simp only [table, List.mem_cons, Prod.mk.injEq, List.not_mem_nil, or_false] at hmem
  rcases hmem with ⟨-, rfl⟩ | ⟨-, rfl⟩ | ⟨-, rfl⟩ | ⟨-, rfl⟩ | ⟨-, rfl⟩ | ⟨-, rfl⟩ | ⟨-, rfl⟩
  · exact powerMgt_opens val
  · refine oneCall_opens ?_ val
    exact fun _ _ => trivial
  · refine oneCall_opens ?_ val
    exact fun _ _ => trivial
  · refine oneCall_opens ?_ val
    exact fun _ _ => trivial
  · refine oneCall_opens ?_ val
    exact fun _ _ => trivial
  · exact sendSignal_opens val
  · exact sendKeys_opens val

end DomainActions

theorem calls_grow {α : Type} (p : Act α) {lv : Libvirt} {s s' : Session} {r : α}
    (hrun : p.run lv s = (.ok r, s')) :
    s.calls <+: s'.calls ∧ s.res.errors <+: s'.res.errors := by
  have hall := Act.run_reported (spec_trivial p []) lv s
  rw [Holds, hrun] at hall
  obtain ⟨h, htracks, ⟨errs, herrs, -⟩, -, -⟩ := hall
  obtain ⟨made, hmade, -⟩ := htracks.calls
  exact ⟨⟨made, hmade.symm⟩, ⟨errs, herrs.symm⟩⟩

/-- Such a program can be told from the error of an action that is not known. -/
theorem run_ne_fail {p : Act DependsOutcome} (hp : OpensOtherwise p) (lv : Libvirt)
    (s : Session) : p.run lv s ≠ (Act.fail 123).run lv s := by
  intro heq
  obtain ⟨s', hfail, herrored⟩ := fail_run lv 123 s
  obtain ⟨text, hres⟩ := herrored.res
  obtain ⟨asked, hasked, hask⟩ := herrored.calls
  rw [hfail] at heq
  cases p with
  | ret r =>
    have hsame : s = s' := congrArg Prod.snd heq
    have hlen := congrArg (fun r : JsonRes => r.errors.length) hres
    rw [← hsame] at hlen
    simp [JsonRes.error] at hlen
  | stop e => exact nomatch congrArg Prod.fst heq
  | ask o k =>
    cases o with
    | domain c =>
      have hrun : Act.run lv (k (lv s.calls (.domain s.obj c))) { s with
          calls := s.calls ++ [⟨.domain s.obj c, lv s.calls (.domain s.obj c)⟩] } =
            (.ok .failure, s') := heq
      have hgrown := (calls_grow _ hrun).1
      rw [hasked, List.prefix_append_right_inj] at hgrown
      rcases hask _ (hgrown.subset (List.mem_singleton_self _)) with hcall | hcall
      · cases hcall
      · cases hcall
    | error code =>
      obtain ⟨s₁, hfirst, herr⟩ := error_run lv code s
      obtain ⟨text₁, hres₁⟩ := herr.res
      have hrun : Act.run lv (k ()) s₁ = (.ok .failure, s') := by
        have hplay : Act.run lv (.ask (.error code) k) s =
            (error lv code >>= fun r => Act.run lv (k r)) s := rfl
        rw [← heq, hplay, bind_run_ok hfirst]
      have hgrown := (calls_grow _ hrun).2
      rw [hres, hres₁] at hgrown
      have hentry : JsonRes.errorEntry code text₁ = JsonRes.errorEntry 123 text := by
        have hlist := (List.prefix_append_right_inj _).mp hgrown
        exact List.singleton_inj.mp (hlist.eq_of_length rfl)
      have hcode : JsonRes.codeVal code = JsonRes.codeVal 123 := by
        simp only [JsonRes.errorEntry, JVal.object.injEq, List.cons_append, List.cons.injEq,
          Prod.mk.injEq, true_and] at hentry
        exact hentry.1
      rcases hp with rfl | rfl
      · exact absurd hcode (by simp [JsonRes.codeVal, JVal.signed])
      · exact absurd hcode (by simp [JsonRes.codeVal, JVal.signed])
    | _ => exact hp

section Orders

variable {find : Str → Option (JVal → Act DependsOutcome)} (a : OneAction)

theorem alterWith_members : alterWith find (.object a.members) =
    match find a.name with
    | some hdl => hdl a.val
    | none => Act.fail 123 := rfl

theorem alterWith_depends (hfind : find (lit "depends") = none) (d : JVal) :
    alterWith find (.object [(lit "depends", d), (a.name, a.val)]) = Act.fail 123 := by
  simp only [alterWith, hfind]

/-- The order does not matter where there is one member, or no such action. -/
theorem alterWith_same (hfind : find (lit "depends") = none)
    (ha : a.depends = none ∨ find a.name = none) {x y : JVal} (hx : a.Written x)
    (hy : a.Written y) : alterWith find x = alterWith find y := by
  have hall {z : JVal} (hz : a.Written z) : alterWith find z = alterWith find (.object a.members) := by
    rcases hz.cases with rfl | ⟨d, hd, rfl⟩
    · rfl
    · have hname : find a.name = none := ha.resolve_left (by simp [hd])
      rw [alterWith_depends a hfind, alterWith_members, hname]
  rw [hall hx, hall hy]

theorem dependsLoop_runnable {lv : Libvirt} {hdl : JVal → M DependsOutcome} {action : JVal}
    {outcomes : List DependsOutcome} (hrun : Runnable outcomes action) (after : List JVal)
    (s : Session) : dependsLoop lv hdl (action :: after) outcomes s =
      (hdl action >>= fun o => dependsLoop lv hdl after (outcomes ++ [o])) s := by
  rcases checkDepends_run lv action outcomes s with ⟨-, hc⟩ | ⟨hno, -⟩ | ⟨hno, -⟩
  · rw [dependsLoop, bind_run_ok hc]
    rfl
  · exact absurd hrun hno
  · exact absurd hrun hno

theorem dependsLoop_not_runnable {lv : Libvirt} {hdl : JVal → M DependsOutcome} {x y : JVal}
    (hx : a.Written x) (hy : a.Written y) {outcomes : List DependsOutcome}
    (hrun : ¬Runnable outcomes (.object a.members)) (after : List JVal) (s : Session) :
    dependsLoop lv hdl (x :: after) outcomes s = dependsLoop lv hdl (y :: after) outcomes s := by
  have hskip {z : JVal} (hz : a.Written z) : ∃ outcomes' s',
      checkDepends lv z outcomes s = (.ok (false, outcomes'), s') := by
    rcases checkDepends_run lv z outcomes s with ⟨hyes, -⟩ | ⟨-, -, hc⟩ | ⟨-, -, hc⟩
    · exact absurd ((hz.runnable outcomes).mp hyes) hrun
    · exact ⟨_, _, hc⟩
    · exact ⟨_, _, hc⟩
  obtain ⟨outcomes', s', hc⟩ := hskip hx
  have hc' : checkDepends lv y outcomes s = (.ok (false, outcomes'), s') := by
    rw [← hx.checkDepends hy lv outcomes, hc]
  rw [dependsLoop, dependsLoop, bind_run_ok hc, bind_run_ok hc']
  rfl

theorem map_run_injective {p p' : M DependsOutcome} {outcomes : List DependsOutcome} {s : Session}
    (h : (p >>= fun o => pure (outcomes ++ [o])) s = (p' >>= fun o => pure (outcomes ++ [o])) s) :
    p s = p' s := by
  change Prog.andThen p _ s = Prog.andThen p' _ s at h
  unfold Prog.andThen at h
  rcases hp : p s with ⟨e | o, s'⟩
  · rcases hp' : p' s with ⟨e' | o', s''⟩
    · simpa [hp, hp'] using h
    · simp [hp, hp', pure_run] at h
  · rcases hp' : p' s with ⟨e' | o', s''⟩
    · simp [hp, hp', pure_run] at h
    · simpa [hp, hp', pure_run] using h

/-- The order matters for an action that is known and says what it depends on. -/
theorem orderFree_alterWith (hfind : find (lit "depends") = none)
    (hopens : ∀ name hdl val, find name = some hdl → OpensOtherwise (hdl val)) :
    OrderFree (alterWith find) a ↔ a.depends = none ∨ find a.name = none := by
  constructor
  · intro hfree
    cases hd : a.depends with
    | none => exact Or.inl rfl
    | some d =>
      right
      have hsame := (hfree _ _ a.written_members (OneAction.written_depends hd)).1
      rw [alterWith_members, alterWith_depends a hfind] at hsame
      cases hname : find a.name with
      | none => rfl
      | some hdl =>
        rw [hname] at hsame
        have hne := run_ne_fail (hopens a.name hdl a.val hname) (fun _ _ => default) Session.init
        exact absurd (congrArg (fun p => Act.run (fun _ _ => default) p Session.init) hsame) hne
  · intro ha
    exact orderFree_of_same fun x y hx hy => alterWith_same a hfind ha hx hy

/-- At a given point of a run it matters where, besides, the action may run there. -/
theorem loop_order_iff (hfind : find (lit "depends") = none)
    (hopens : ∀ name hdl val, find name = some hdl → OpensOtherwise (hdl val)) (lv : Libvirt)
    (outcomes : List DependsOutcome) (s : Session) :
    (∀ x y after, a.Written x → a.Written y →
      dependsLoop lv (fun action => (alterWith find action).run lv) (x :: after) outcomes s =
        dependsLoop lv (fun action => (alterWith find action).run lv) (y :: after) outcomes s) ↔
      a.depends = none ∨ find a.name = none ∨ ¬Runnable outcomes (.object a.members) := by
  constructor
  · intro hsame
    by_contra hno
    push Not at hno
    obtain ⟨hdepends, hname, hrun⟩ := hno
    obtain ⟨d, hd⟩ := Option.ne_none_iff_exists'.mp hdepends
    obtain ⟨hdl, hname⟩ := Option.ne_none_iff_exists'.mp hname
    have hwritten := OneAction.written_depends hd
    have hloop := hsame _ _ [] a.written_members hwritten
    rw [dependsLoop_runnable hrun, dependsLoop_runnable ((hwritten.runnable outcomes).mpr hrun)]
      at hloop
    -- the one order runs the action, and the other one the error of an unknown action
    have hruns := map_run_injective hloop
    rw [alterWith_members, alterWith_depends a hfind, hname] at hruns
    exact run_ne_fail (hopens a.name hdl a.val hname) lv s hruns
  · intro ha x y after hx hy
    by_cases hrun : Runnable outcomes (.object a.members)
    · have hsame := alterWith_same a hfind (ha.imp id fun h => h.resolve_right (not_not.mpr hrun))
        hx hy
      have hloop := @dependsLoop_same lv (fun action => (alterWith find action).run lv) x y
        (hx.checkDepends hy lv) (congrArg (Act.run lv) hsame) [] after outcomes
      exact congrFun hloop s
    · exact dependsLoop_not_runnable a hx hy hrun after s

end Orders

/-- The order of the members does not matter on networks. On domains it does for the actions of the
table that say what they depend on, wherever such an action may run. -/
theorem member_order_iff (a : OneAction) :
    (OrderFree DomainHandlers.alter a ↔
      a.depends = none ∨ namedCall DomainActions.table a.name = none) ∧
    OrderFree NetworkHandlers.alter a ∧
    ∀ lv outcomes s, (∀ x y after, a.Written x → a.Written y →
        dependsLoop lv (fun action => (DomainHandlers.alter action).run lv) (x :: after)
            outcomes s =
          dependsLoop lv (fun action => (DomainHandlers.alter action).run lv) (y :: after)
            outcomes s) ↔
      a.depends = none ∨ namedCall DomainActions.table a.name = none ∨
        ¬Runnable outcomes (.object a.members) := by
  have hfind : namedCall DomainActions.table (lit "depends") = none := by decide
  have hopens (name : Str) (hdl : JVal → Act DependsOutcome) (val : JVal)
      (h : namedCall DomainActions.table name = some hdl) : OpensOtherwise (hdl val) :=
    DomainActions.table_opens h val
  refine ⟨orderFree_alterWith a hfind hopens, ?_, fun lv => loop_order_iff a hfind hopens lv⟩
  refine orderFree_of_same fun x y hx hy => ?_
  exact alterWith_same a (networks_find _) (Or.inr (networks_find _)) hx hy

/-- `{"memory": 5, "depends": []}` sets the memory, `{"depends": [], "memory": 5}` is an error. -/
theorem depends_in_front_fails :
    let memory : Str × JVal := (lit "memory", .int ⟨5, by decide⟩)
    let depends : Str × JVal := (lit "depends", .array [])
    let run (ms : List (Str × JVal)) := handleDepends (fun _ _ => default) (.array [.object ms])
      (fun action => (DomainHandlers.alter action).run (fun _ _ => default)) Session.init
    (run [memory, depends]).2.calls = [⟨.domain none (.setMemory 5), (0 : ℤ)⟩] ∧
      (run [memory, depends]).2.res.errors = [] ∧
      (run [depends, memory]).2.res.errors = [JsonRes.errorEntry 123 []] ∧
      ∃ a : OneAction, a.Written (.object [memory, depends]) ∧
        ¬OrderFree DomainHandlers.alter a := by
  intro memory depends run
  have hsame : [memory, depends].Perm [memory, depends] := List.Perm.refl _
  let a : OneAction := ⟨lit "memory", .int ⟨5, by decide⟩, some (.array []), by decide⟩
  have hfind : namedCall DomainActions.table (lit "depends") = none := by decide
  refine ⟨rfl, rfl, rfl, a, ⟨_, rfl, hsame⟩, fun hfree => ?_⟩
  have hcond := (orderFree_alterWith a hfind
    (fun _ _ val h => DomainActions.table_opens h val)).mp hfree
  rcases hcond with h | h
  · cases h
  · cases h

end Virthttp
