import Virthttp.Depends

namespace Virthttp

open Program

/-- `JDispatch`; `none` stands for the type `-1`, which accepts everything. -/
structure JDispatch where
  singles : List (Option JType)
  ranges : List (Option JType)

def jAll : List (Option JType) := [none]

namespace JDispatch

def exec (lv : Libvirt) (d : JDispatch) (jval : JVal) (hdl : JVal → M DependsOutcome) : M Unit :=
  if d.singles.head? = some none ∨ some jval.getType ∈ d.singles then do
    let _ ← hdl jval
    return ()
  else if some jval.getType ∈ d.ranges then handleDepends lv jval hdl
  else error lv 3

def asked (d : JDispatch) (jval : JVal) : List JVal :=
  if d.singles.head? = some none ∨ some jval.getType ∈ d.singles then [jval]
  else if some jval.getType ∈ d.ranges then
    match jval with
    | .array actions => actions
    | _ => []
  else []

/-- The values that the dispatching runs one after the other, by what they depend on. -/
def dependent (d : JDispatch) (jval : JVal) : List JVal :=
  if d.singles.head? = some none ∨ some jval.getType ∈ d.singles then []
  else if some jval.getType ∈ d.ranges then
    match jval with
    | .array actions => actions
    | _ => []
  else []

end JDispatch

def invoke (hdl : JVal → M DependsOutcome) (jval : JVal) : M DependsOutcome := do
  modify (fun s => { s with invoked := s.invoked ++ [(s.obj, jval)] })
  let o ← hdl jval
  modify (fun s => { s with outcomes := s.outcomes ++ [o] })
  return o

theorem errored_zero (s : Session) : Errored 0 s { s with res := s.res.error 0 [] } :=
  ⟨⟨[], rfl⟩, ⟨[], (List.append_nil _).symm, by simp⟩, ⟨rfl, rfl, rfl, rfl⟩⟩

/-- A relation between the actions done, their outcomes and the session that every action keeps
holds when all of them are done. -/
theorem dependsLoop_holds {lv : Libvirt} {hdl : JVal → M DependsOutcome} {actions : List JVal}
    {I : List JVal → List DependsOutcome → Session → Prop} {E : Stop → Session → Prop}
    (hrun : ∀ done action outcomes s, done ++ [action] <+: actions → I done outcomes s →
      Runnable outcomes action →
      Holds (hdl action) s (fun o s' => I (done ++ [action]) (outcomes ++ [o]) s') E)
    (hmal : ∀ done action outcomes s s', done ++ [action] <+: actions → I done outcomes s →
      ¬Runnable outcomes action → Malformed action → Errored 0 s s' →
      I (done ++ [action]) (outcomes ++ [.failure]) s')
    (hskip : ∀ done action outcomes s, done ++ [action] <+: actions → I done outcomes s →
      ¬Runnable outcomes action → ¬Malformed action →
      I (done ++ [action]) (outcomes ++ [.skipped]) s)
    (rest done : List JVal) (outcomes : List DependsOutcome) (s : Session)
    (hactions : done ++ rest = actions) (hI : I done outcomes s) :
    Holds (dependsLoop lv hdl rest outcomes) s (fun outcomes' s' => I actions outcomes' s') E := by
  induction rest generalizing done outcomes s with
  | nil =>
    rw [List.append_nil] at hactions
    subst hactions
    exact holds_pure.mpr hI
  | cons action rest ih =>
    have hpre : done ++ [action] <+: actions := ⟨rest, by rw [← hactions]; simp⟩
    have hnext : done ++ [action] ++ rest = actions := by rw [← hactions]; simp
    rw [dependsLoop, holds_bind]
    unfold Holds
    rcases checkDepends_run lv action outcomes s with ⟨hyes, hc⟩ | ⟨hno, hm, hc⟩ | ⟨hno, hm, hc⟩
    · rw [hc]
      change Holds (hdl action >>= fun o => dependsLoop lv hdl rest (outcomes ++ [o])) s _ E
      rw [holds_bind]
      refine (hrun done action outcomes s hpre hI hyes).mono ?_ (fun _ _ hE => hE)
      exact fun o s' hI' => ih _ _ s' hnext hI'
    · rw [hc]
      exact ih _ _ _ hnext (hmal done action outcomes s _ hpre hI hno hm (errored_zero s))
    · rw [hc]
      exact ih _ _ _ hnext (hskip done action outcomes s hpre hI hno hm)

/-- What an error and every run of the handler keep, the loop keeps. -/
theorem dependsLoop_keeps {lv : Libvirt} {hdl : JVal → M DependsOutcome} {I : Session → Prop}
    {E : Stop → Session → Prop} (herr : ∀ s, I s → I { s with res := s.res.error 0 [] })
    {actions : List JVal} (hhdl : ∀ x ∈ actions, ∀ s, I s → Holds (hdl x) s (fun _ => I) E)
    (outcomes : List DependsOutcome) {s : Session} (hI : I s) :
    Holds (dependsLoop lv hdl actions outcomes) s (fun _ => I) E := by
  induction actions generalizing outcomes s with
  | nil => exact hI
  | cons action rest ih =>
    obtain ⟨haction, hrest⟩ := List.forall_mem_cons.mp hhdl
    rw [dependsLoop, holds_bind]
    unfold Holds
    rcases checkDepends_run lv action outcomes s with ⟨_, hc⟩ | ⟨_, _, hc⟩ | ⟨_, _, hc⟩
    · rw [hc]
      change Holds (hdl action >>= fun o => dependsLoop lv hdl rest (outcomes ++ [o])) s _ E
      rw [holds_bind]
      exact (haction s hI).mono (fun _ _ hI' => ih hrest _ hI') (fun _ _ hE => hE)
    · rw [hc]
      exact ih hrest _ (herr s hI)
    · rw [hc]
      exact ih hrest _ hI

/-- What every error and every call of the handler keep, the dispatching keeps. -/
theorem JDispatch.exec_keeps {lv : Libvirt} {d : JDispatch} {jval : JVal}
    {hdl : JVal → M DependsOutcome} {I : Session → Prop} {E : Stop → Session → Prop}
    (herr : ∀ code s, I s → Holds (error lv code) s (fun _ => I) (fun _ _ => False))
    (hhdl : ∀ x ∈ d.asked jval, ∀ s, I s → Holds (hdl x) s (fun _ => I) E)
    (s : Session) (hI : I s) : Holds (d.exec lv jval hdl) s (fun _ => I) E := by
  have herror (code : ℤ) : Holds (error lv code) s (fun _ => I) E :=
    (herr code s hI).mono (fun _ _ h => h) (fun _ _ hf => hf.elim)
  unfold exec asked at *
  split
  · rename_i hsingle
    rw [if_pos hsingle] at hhdl
    rw [holds_bind]
    exact (hhdl jval List.mem_cons_self s hI).mono (fun _ _ hI' => hI') (fun _ _ hE => hE)
  · rename_i hsingle
    rw [if_neg hsingle] at hhdl
    split
    · rename_i hrange
      rw [if_pos hrange] at hhdl
      unfold handleDepends
      split
      · rename_i actions
        rw [holds_bind]
        -- the code 0 asks libvirt for nothing
        have hzero (s : Session) (hI : I s) : I { s with res := s.res.error 0 [] } := herr 0 s hI
        exact (dependsLoop_keeps hzero hhdl [] hI).mono (fun _ _ hI' => hI') (fun _ _ hE => hE)
      · exact herror 298
    · exact herror 3

theorem JDispatch.exec_holds {lv : Libvirt} {d : JDispatch} {jval : JVal}
    {hdl : JVal → M DependsOutcome} {I : Session → Prop} {E : Stop → Session → Prop}
    (herr : ∀ code s s', I s → Errored code s s' → I s')
    (hhdl : ∀ x ∈ d.asked jval, ∀ s, I s → Holds (hdl x) s (fun _ => I) E)
    (s : Session) (hI : I s) : Holds (d.exec lv jval hdl) s (fun _ => I) E :=
  JDispatch.exec_keeps (fun code s hI => (error_holds lv code s).mono
    (fun _ s' he => herr code s s' hI he) (fun _ _ hf => hf)) hhdl s hI

theorem invoke_holds {hdl : JVal → M DependsOutcome} {jval : JVal} {s : Session}
    {Q : DependsOutcome → Session → Prop} {E : Stop → Session → Prop}
    (h : Holds (hdl jval) { s with invoked := s.invoked ++ [(s.obj, jval)] }
      (fun o s' => Q o { s' with outcomes := s'.outcomes ++ [o] }) E) :
    Holds (invoke hdl jval) s Q E := by
  unfold invoke
  simp only [holds_bind, holds_modify]
  exact h

end Virthttp
