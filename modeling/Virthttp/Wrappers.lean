import Virthttp.Ownership
import Virthttp.Runs

namespace Virthttp

open Ownership

inductive WrapperClass where
  | connection
  | domain
  | network
  | stream
  deriving DecidableEq

structure Wrapper where
  cls : WrapperClass
  underlying : Option ℕ

/-- The objects, where a destroyed one leaves its place empty, and the count of every handle. -/
structure World where
  objects : List (Option Wrapper)
  refs : List ℕ

inductive HandleFn where
  | ref
  | free
  deriving DecidableEq

/-- A call of libvirt that takes or drops a reference, with the count that it found. -/
structure HandleCall where
  fn : HandleFn
  handle : ℕ
  found : ℕ
  deriving DecidableEq

namespace World

def empty : World := ⟨[], []⟩

def live (w : World) (i : ℕ) : Option Wrapper := w.objects[i]?.join

def underlying (w : World) (i : ℕ) : Option ℕ := (w.live i).bind Wrapper.underlying

def count (w : World) (h : ℕ) : ℕ := Ownership.count w.refs h

def holders (w : World) (h : ℕ) : ℕ := Ownership.holders Wrapper.underlying w.objects h

def setUnderlying (w : World) (i : ℕ) (p : Option ℕ) : World :=
  { w with objects := w.objects.modify i (Option.map fun o => { o with underlying := p }) }

def clear (w : World) (i : ℕ) : World := { w with objects := w.objects.set i none }

def push (w : World) (o : Wrapper) : World := { w with objects := w.objects ++ [some o] }

def ref (w : World) (h : ℕ) : List HandleCall × World :=
  ([⟨.ref, h, w.count h⟩], { w with refs := acquire w.refs h })

def free (w : World) (h : ℕ) : List HandleCall × World :=
  ([⟨.free, h, w.count h⟩], { w with refs := release w.refs h })

def construct (cls : WrapperClass) (opened : Bool) (w : World) : World :=
  if opened then { w.push ⟨cls, some w.refs.length⟩ with refs := w.refs ++ [1] }
  else w.push ⟨cls, none⟩

/-- The body of every destructor; the field keeps its value. -/
def destructor (this : ℕ) (w : World) : List HandleCall × World :=
  match w.underlying this with
  | some h => w.free h
  | none => ([], w)

def moveConstruct (cls : WrapperClass) (src : ℕ) (w : World) : World :=
  let w := w.push ⟨cls, w.underlying src⟩
  w.setUnderlying src none

/-- `this->~T()` first, then the pointer is taken over. -/
def releasingMoveAssign (this src : ℕ) (w : World) : List HandleCall × World :=
  let (calls, w) := w.destructor this
  let w := w.setUnderlying this (w.underlying src)
  (calls, w.setUnderlying src none)

end World

namespace SpecialMembers

open World

def Connection.copyConstruct (conn : ℕ) (w : World) : List HandleCall × World :=
  ([], w.push ⟨.connection, w.underlying conn⟩)

def Connection.moveAssign : ℕ → ℕ → World → List HandleCall × World := releasingMoveAssign

def Domain.moveAssign : ℕ → ℕ → World → List HandleCall × World := releasingMoveAssign

def Network.moveAssign : ℕ → ℕ → World → List HandleCall × World := releasingMoveAssign

def Stream.copyConstruct (oth : ℕ) (w : World) : List HandleCall × World :=
  let p := w.underlying oth
  let w := w.push ⟨.stream, p⟩
  match p with
  | some h => w.ref h
  | none => ([], w)

def Stream.copyAssign (this oth : ℕ) (w : World) : List HandleCall × World :=
  let (calls, w) := w.destructor this
  let p := w.underlying oth
  let w := w.setUnderlying this p
  match p with
  | some h =>
    let (more, w) := w.ref h
    (calls ++ more, w)
  | none => (calls, w)

/-- The handle that the object held is dropped without a call. -/
def Stream.moveAssign (this src : ℕ) (w : World) : List HandleCall × World :=
  let w := w.setUnderlying this (w.underlying src)
  ([], w.setUnderlying src none)

def copyConstruct : WrapperClass → Option (ℕ → World → List HandleCall × World)
  | .connection => some Connection.copyConstruct
  | .domain => none
  | .network => none
  | .stream => some Stream.copyConstruct

def copyAssign : WrapperClass → Option (ℕ → ℕ → World → List HandleCall × World)
  | .connection => none
  | .domain => none
  | .network => none
  | .stream => some Stream.copyAssign

def moveAssign : WrapperClass → ℕ → ℕ → World → List HandleCall × World
  | .connection => Connection.moveAssign
  | .domain => Domain.moveAssign
  | .network => Network.moveAssign
  | .stream => Stream.moveAssign

end SpecialMembers

inductive WrapperOp where
  | construct (cls : WrapperClass) (opened : Bool)
  | copyConstruct (src : ℕ)
  | moveConstruct (src : ℕ)
  | copyAssign (this src : ℕ)
  | moveAssign (this src : ℕ)
  | destroy (this : ℕ)

def World.step (w : World) : WrapperOp → Option (List HandleCall × World)
  | .construct cls opened => some ([], w.construct cls opened)
  | .copyConstruct src => do
    let o ← w.live src
    let member ← SpecialMembers.copyConstruct o.cls
    return member src w
  | .moveConstruct src => do
    let o ← w.live src
    return ([], w.moveConstruct o.cls src)
  | .copyAssign this src => do
    let o ← w.live this
    let o' ← w.live src
    let member ← SpecialMembers.copyAssign o.cls
    if o.cls = o'.cls then return member this src w
    else none
  | .moveAssign this src => do
    let o ← w.live this
    let o' ← w.live src
    if o.cls = o'.cls then return SpecialMembers.moveAssign o.cls this src w
    else none
  | .destroy this => do
    let _ ← w.live this
    let (calls, w) := w.destructor this
    return (calls, w.clear this)

namespace World

variable {w : World} {i : ℕ} {o : Wrapper}

theorem live_eq_some : w.live i = some o ↔ w.objects[i]? = some (some o) := by
  unfold live
  cases hget : w.objects[i]? with
  | none => simp
  | some s => simp

theorem underlying_of_live (ho : w.live i = some o) : w.underlying i = o.underlying := by
  rw [underlying, ho, Option.bind_some]

theorem holders_push (o : Wrapper) (h : ℕ) :
    (w.push o).holders h = w.holders h + owns o.underlying h := holders_append _ _ _

theorem holders_setUnderlying (ho : w.live i = some o) (p : Option ℕ) (h : ℕ) :
    (w.setUnderlying i p).holders h + owns o.underlying h = w.holders h + owns p h := by
  have hget := live_eq_some.mp ho
  have hset : w.objects.modify i (Option.map fun o => { o with underlying := p }) =
      w.objects.set i (some { o with underlying := p }) := by
    rw [List.modify_eq_set_getElem?, hget]
    rfl
  have hcount := holders_set Wrapper.underlying hget
    (some { o with underlying := p }) h
  rw [← hset] at hcount
  exact hcount

theorem live_setUnderlying (ho : w.live i = some o) (p : Option ℕ) (j : ℕ) :
    (w.setUnderlying i p).live j =
      if i = j then some { o with underlying := p } else w.live j := by
  have hget := live_eq_some.mp ho
  unfold live setUnderlying
  rw [List.getElem?_modify]
  by_cases hij : i = j
  · subst hij
    simp [hget]
  · simp [hij]

theorem owns_le_holders (ho : w.live i = some o) (h : ℕ) : owns o.underlying h ≤ w.holders h :=
  Ownership.owns_le_holders Wrapper.underlying (live_eq_some.mp ho) h

theorem owns_add_le_holders {j : ℕ} {o' : Wrapper} (hij : i ≠ j) (ho : w.live i = some o)
    (ho' : w.live j = some o') (h : ℕ) :
    owns o.underlying h + owns o'.underlying h ≤ w.holders h :=
  Ownership.owns_add_le_holders Wrapper.underlying hij (live_eq_some.mp ho)
    (live_eq_some.mp ho') h

theorem holders_clear (ho : w.live i = some o) (h : ℕ) :
    (w.clear i).holders h + owns o.underlying h = w.holders h :=
  holders_set Wrapper.underlying (live_eq_some.mp ho) none h

/-- The pointer is taken over from another object, or from the same one. -/
theorem holders_takeOver {this src : ℕ} {o o' : Wrapper} (ho : w.live this = some o)
    (ho' : w.live src = some o') (h : ℕ) :
    ((w.setUnderlying this (w.underlying src)).setUnderlying src none).holders h +
      owns o.underlying h = w.holders h := by
  have hfirst := holders_setUnderlying ho (w.underlying src) h
  have hsrc := underlying_of_live ho'
  by_cases hij : this = src
  · have hlive := live_setUnderlying ho (w.underlying src) src
    rw [if_pos hij] at hlive
    have hsecond := holders_setUnderlying hlive none h
    simp only [owns_none] at hsecond
    omega
  · have hlive := live_setUnderlying ho (w.underlying src) src
    rw [if_neg hij, ho'] at hlive
    have hsecond := holders_setUnderlying hlive none h
    rw [hsrc] at hfirst hsecond ⊢
    simp only [owns_none] at hsecond
    omega

/-- Every count is the number of live wrappers that hold the handle. -/
def Counted (w : World) : Prop := ∀ h, w.count h = w.holders h

def Sound (calls : List HandleCall) : Prop := ∀ c ∈ calls, c.found ≠ 0

theorem sound_nil : Sound [] := by
  intro c hc
  cases hc

theorem sound_append {calls more : List HandleCall} :
    Sound (calls ++ more) ↔ Sound calls ∧ Sound more := List.forall_mem_append

theorem sound_singleton {c : HandleCall} : Sound [c] ↔ c.found ≠ 0 := List.forall_mem_singleton

theorem Counted.pos (hw : w.Counted) (ho : w.live i = some o) {h : ℕ}
    (hheld : o.underlying = some h) : 0 < w.count h := by
  have hle := owns_le_holders ho h
  rw [hheld, owns_self, ← hw h] at hle
  exact hle

theorem count_setUnderlying (p : Option ℕ) (h : ℕ) : (w.setUnderlying i p).count h = w.count h :=
  rfl

structure Destructed (w : World) (o : Wrapper) (calls : List HandleCall) (w' : World) :
    Prop where
  sound : Sound calls
  objects : w'.objects = w.objects
  count : ∀ h, w'.count h + owns o.underlying h = w.count h

theorem Counted.destructor (hw : w.Counted) (ho : w.live i = some o) :
    Destructed w o (w.destructor i).1 (w.destructor i).2 := by
  unfold World.destructor
  rw [underlying_of_live ho]
  cases hheld : o.underlying with
  | none => exact ⟨sound_nil, rfl, fun h => by rw [hheld, owns_none, Nat.add_zero]⟩
  | some h =>
    have hpos := hw.pos ho hheld
    refine ⟨sound_singleton.mpr (Nat.ne_of_gt hpos), rfl, fun h' => ?_⟩
    rw [hheld]
    exact count_release hpos h'

theorem Destructed.live {w' : World} {calls : List HandleCall} (hd : Destructed w o calls w')
    (j : ℕ) : w'.live j = w.live j := congrArg (fun objects => objects[j]?.join) hd.objects

theorem Destructed.holders {w' : World} {calls : List HandleCall}
    (hd : Destructed w o calls w') (h : ℕ) : w'.holders h = w.holders h :=
  congrArg (fun objects => Ownership.holders Wrapper.underlying objects h) hd.objects

theorem live_push (ho : w.live i = some o) (o' : Wrapper) : (w.push o').live i = some o := by
  have hget := live_eq_some.mp ho
  obtain ⟨hlt, _⟩ := List.getElem?_eq_some_iff.mp hget
  apply live_eq_some.mpr
  rw [World.push, List.getElem?_append_left hlt]
  exact hget

theorem Counted.construct (hw : w.Counted) (cls : WrapperClass) (opened : Bool) :
    (w.construct cls opened).Counted := by
  intro h
  have hbefore := hw h
  cases opened with
  | true =>
    have hcount : (w.construct cls true).count h = w.count h + owns (some w.refs.length) h :=
      count_fresh h
    have hholders : (w.construct cls true).holders h =
        w.holders h + owns (some w.refs.length) h := holders_push _ h
    omega
  | false =>
    have hholders : (w.construct cls false).holders h = w.holders h + owns none h :=
      holders_push _ h
    rw [owns_none] at hholders
    have hcount : (w.construct cls false).count h = w.count h := rfl
    omega

theorem Counted.moveConstruct (hw : w.Counted) (ho : w.live i = some o) (cls : WrapperClass) :
    (w.moveConstruct cls i).Counted := by
  intro h
  have hpush := holders_push (w := w) ⟨cls, w.underlying i⟩ h
  have hclear : (w.moveConstruct cls i).holders h + owns o.underlying h =
      (w.push ⟨cls, w.underlying i⟩).holders h + owns none h :=
    holders_setUnderlying (live_push ho _) none h
  have hbefore := hw h
  have hcount : (w.moveConstruct cls i).count h = w.count h := rfl
  rw [underlying_of_live ho] at hpush hclear
  simp only [owns_none] at hpush hclear
  omega

theorem Counted.releasingMoveAssign {this src : ℕ} {o' : Wrapper} (hw : w.Counted)
    (ho : w.live this = some o) (ho' : w.live src = some o') :
    (w.releasingMoveAssign this src).2.Counted ∧ Sound (w.releasingMoveAssign this src).1 := by
  have hd := hw.destructor ho
  refine ⟨fun h => ?_, hd.sound⟩
  have htake := holders_takeOver ((hd.live this).trans ho) ((hd.live src).trans ho') h
  have hbefore := hw h
  have hcount := hd.count h
  have hholders := hd.holders h
  have hafter : (w.releasingMoveAssign this src).2.count h = (w.destructor this).2.count h := rfl
  unfold World.releasingMoveAssign at hafter ⊢
  simp only at hafter ⊢
  omega

/-- Where the count is only off by one reference, it is right if and only if there is none. -/
theorem counted_iff_none {w' : World} {p : Option ℕ}
    (hafter : ∀ h, w'.count h = w'.holders h ↔ owns p h = 0) : w'.Counted ↔ p = none := by
  constructor
  · intro hcounted
    apply owns_eq_zero_of_forall
    intro h
    exact (hafter h).mp (hcounted h)
  · intro hnone h
    rw [hafter, hnone, owns_none]

theorem Counted.streamMoveAssign_iff {this src : ℕ} {o' : Wrapper} (hw : w.Counted)
    (ho : w.live this = some o) (ho' : w.live src = some o') :
    (SpecialMembers.Stream.moveAssign this src w).2.Counted ↔ o.underlying = none := by
  have htake := holders_takeOver ho ho'
  have hafter (h : ℕ) : (SpecialMembers.Stream.moveAssign this src w).2.holders h +
      owns o.underlying h = (SpecialMembers.Stream.moveAssign this src w).2.count h := by
    calc (SpecialMembers.Stream.moveAssign this src w).2.holders h + owns o.underlying h
        = w.holders h := htake h
      _ = w.count h := (hw h).symm
      _ = (SpecialMembers.Stream.moveAssign this src w).2.count h := rfl
  apply counted_iff_none
  intro h
  have hone := hafter h
  omega

theorem Counted.connectionCopy_iff (hw : w.Counted) (ho : w.live i = some o) :
    (SpecialMembers.Connection.copyConstruct i w).2.Counted ↔ o.underlying = none := by
  have hafter (h : ℕ) : (SpecialMembers.Connection.copyConstruct i w).2.holders h =
      (SpecialMembers.Connection.copyConstruct i w).2.count h + owns o.underlying h := by
    calc (SpecialMembers.Connection.copyConstruct i w).2.holders h
        = w.holders h + owns (w.underlying i) h := holders_push _ h
      _ = w.count h + owns o.underlying h := by rw [hw h, underlying_of_live ho]
  apply counted_iff_none
  intro h
  have hone := hafter h
  omega

theorem Counted.streamCopy (hw : w.Counted) (ho : w.live i = some o) :
    (SpecialMembers.Stream.copyConstruct i w).2.Counted ∧
      Sound (SpecialMembers.Stream.copyConstruct i w).1 := by
  unfold SpecialMembers.Stream.copyConstruct
  rw [underlying_of_live ho]
  have hpush (p : Option ℕ) (h : ℕ) := holders_push (w := w) ⟨.stream, p⟩ h
  cases hheld : o.underlying with
  | none =>
    refine ⟨fun h => ?_, sound_nil⟩
    have hbefore := hw h
    have hholders := hpush none h
    rw [owns_none] at hholders
    exact (hholders.trans hbefore.symm).symm
  | some h =>
    have hpos := hw.pos ho hheld
    refine ⟨fun h' => ?_, sound_singleton.mpr (Nat.ne_of_gt hpos)⟩
    have hcount : Ownership.count (acquire w.refs h) h' = w.count h' + owns (some h) h' :=
      count_acquire hpos h'
    calc Ownership.count (acquire w.refs h) h'
        = w.holders h' + owns (some h) h' := by rw [hcount, hw h']
      _ = (w.push ⟨.stream, some h⟩).holders h' := (hpush (some h) h').symm

/-- The handle that the destructor leaves to be shared again. -/
theorem Counted.pos_after_destructor_iff {this src : ℕ} {o' : Wrapper} (hw : w.Counted)
    (ho : w.live this = some o) (ho' : w.live src = some o') {h : ℕ}
    (hheld : o'.underlying = some h) : 0 < (w.destructor this).2.count h ↔
      (this = src → ∀ h', o.underlying = some h' → w.count h' ≠ 1) := by
  have hcount := (hw.destructor ho).count h
  have hpos := hw.pos ho' hheld
  by_cases hself : this = src
  · subst hself
    have hsame : o = o' := Option.some.inj (ho.symm.trans ho')
    subst hsame
    rw [hheld, owns_self] at hcount
    constructor
    · intro hleft _ h' heq
      have hh : h = h' := Option.some.inj (hheld.symm.trans heq)
      rw [← hh]
      omega
    · intro hmany
      have hne := hmany rfl h hheld
      omega
  · have htwo := owns_add_le_holders hself ho ho' h
    rw [hheld, owns_self, ← hw h] at htwo
    refine iff_of_true (by omega) (fun heq => absurd heq hself)

theorem streamCopyAssign_none {this src : ℕ} (h : (w.destructor this).2.underlying src = none) :
    SpecialMembers.Stream.copyAssign this src w =
      ((w.destructor this).1, (w.destructor this).2.setUnderlying this none) := by
  unfold SpecialMembers.Stream.copyAssign
  simp only [h]

theorem streamCopyAssign_some {this src h : ℕ}
    (hsrc : (w.destructor this).2.underlying src = some h) :
    SpecialMembers.Stream.copyAssign this src w =
      ((w.destructor this).1 ++ [⟨.ref, h, (w.destructor this).2.count h⟩],
        { (w.destructor this).2.setUnderlying this (some h) with
          refs := acquire (w.destructor this).2.refs h }) := by
  unfold SpecialMembers.Stream.copyAssign
  simp only [hsrc]
  rfl

theorem Counted.streamCopyAssign_iff {this src : ℕ} {o' : Wrapper} (hw : w.Counted)
    (ho : w.live this = some o) (ho' : w.live src = some o') :
    ((SpecialMembers.Stream.copyAssign this src w).2.Counted ∧
      Sound (SpecialMembers.Stream.copyAssign this src w).1) ↔
        (this = src → ∀ h, o.underlying = some h → w.count h ≠ 1) := by
  have hd := hw.destructor ho
  have hsrc := underlying_of_live ((hd.live src).trans ho')
  have hset (p : Option ℕ) (h : ℕ) := holders_setUnderlying ((hd.live this).trans ho) p h
  cases hheld : o'.underlying with
  | none =>
    rw [streamCopyAssign_none (hsrc.trans hheld)]
    refine iff_of_true ⟨fun h => ?_, hd.sound⟩ ?_
    · have hbefore := hw h
      have hcount := hd.count h
      have hholders := hd.holders h
      have hnull := hset none h
      rw [owns_none] at hnull
      dsimp only
      rw [count_setUnderlying]
      omega
    · intro hself h heq
      subst hself
      have hsame : o = o' := Option.some.inj (ho.symm.trans ho')
      rw [hsame, hheld] at heq
      cases heq
  | some h =>
    have hpos := hw.pos_after_destructor_iff ho ho' hheld
    rw [streamCopyAssign_some (hsrc.trans hheld), ← hpos, sound_append, sound_singleton]
    constructor
    · intro hright
      exact Nat.pos_of_ne_zero hright.2.2
    · intro hleft
      refine ⟨fun h' => ?_, hd.sound, Nat.ne_of_gt hleft⟩
      have hbefore := hw h'
      have hcount := hd.count h'
      have hholders := hd.holders h'
      have hshared := hset (some h) h'
      have hacquire : Ownership.count (acquire (w.destructor this).2.refs h) h' =
          (w.destructor this).2.count h' + owns (some h) h' := count_acquire hleft h'
      calc Ownership.count (acquire (w.destructor this).2.refs h) h'
          = (w.destructor this).2.count h' + owns (some h) h' := hacquire
        _ = ((w.destructor this).2.setUnderlying this (some h)).holders h' := by omega

theorem Counted.destroy (hw : w.Counted) (ho : w.live i = some o) :
    ((w.destructor i).2.clear i).Counted ∧ Sound (w.destructor i).1 := by
  have hd := hw.destructor ho
  refine ⟨fun h => ?_, hd.sound⟩
  have hclear := holders_clear ((hd.live i).trans ho) h
  have hbefore := hw h
  have hcount := hd.count h
  have hholders := hd.holders h
  have hsame : ((w.destructor i).2.clear i).count h = (w.destructor i).2.count h := rfl
  omega

/-- No connection that holds a handle is copied, no stream that holds one is moved over, and no
stream that is the only one to hold its handle is assigned to itself. -/
def Clean (w : World) : WrapperOp → Prop
  | .copyConstruct src => ∀ o, w.live src = some o → o.cls = .connection → o.underlying = none
  | .copyAssign this src => this = src →
    ∀ o h, w.live this = some o → o.underlying = some h → w.count h ≠ 1
  | .moveAssign this _ => ∀ o, w.live this = some o → o.cls = .stream → o.underlying = none
  | _ => True

theorem step_copyConstruct {w' : World} {calls : List HandleCall} {src : ℕ}
    (h : w.step (.copyConstruct src) = some (calls, w')) : ∃ o, w.live src = some o ∧
      ((o.cls = .connection ∧ SpecialMembers.Connection.copyConstruct src w = (calls, w')) ∨
        (o.cls = .stream ∧ SpecialMembers.Stream.copyConstruct src w = (calls, w'))) := by
  simp only [step, Option.bind_eq_bind, Option.bind_eq_some_iff] at h
  obtain ⟨o, ho, member, hmember, heq⟩ := h
  refine ⟨o, ho, ?_⟩
  cases hcls : o.cls with
  | connection =>
    rw [hcls] at hmember
    cases hmember
    exact Or.inl ⟨rfl, Option.some.inj heq⟩
  | stream =>
    rw [hcls] at hmember
    cases hmember
    exact Or.inr ⟨rfl, Option.some.inj heq⟩
  | domain =>
    rw [hcls] at hmember
    cases hmember
  | network =>
    rw [hcls] at hmember
    cases hmember

theorem step_copyAssign {w' : World} {calls : List HandleCall} {this src : ℕ}
    (h : w.step (.copyAssign this src) = some (calls, w')) : ∃ o o', w.live this = some o ∧
      w.live src = some o' ∧ SpecialMembers.Stream.copyAssign this src w = (calls, w') := by
  simp only [step, Option.bind_eq_bind, Option.bind_eq_some_iff] at h
  obtain ⟨o, ho, o', ho', member, hmember, heq⟩ := h
  refine ⟨o, o', ho, ho', ?_⟩
  cases hcls : o.cls with
  | stream =>
    rw [hcls] at hmember heq
    cases hmember
    split at heq
    · exact Option.some.inj heq
    · cases heq
  | connection =>
    rw [hcls] at hmember
    cases hmember
  | domain =>
    rw [hcls] at hmember
    cases hmember
  | network =>
    rw [hcls] at hmember
    cases hmember

theorem step_moveAssign {w' : World} {calls : List HandleCall} {this src : ℕ}
    (h : w.step (.moveAssign this src) = some (calls, w')) : ∃ o o', w.live this = some o ∧
      w.live src = some o' ∧
      ((o.cls = .stream ∧ SpecialMembers.Stream.moveAssign this src w = (calls, w')) ∨
        (o.cls ≠ .stream ∧ w.releasingMoveAssign this src = (calls, w'))) := by
  simp only [step, Option.bind_eq_bind, Option.bind_eq_some_iff] at h
  obtain ⟨o, ho, o', ho', heq⟩ := h
  refine ⟨o, o', ho, ho', ?_⟩
  split at heq
  · have hpair := Option.some.inj heq
    cases hcls : o.cls with
    | stream =>
      rw [hcls] at hpair
      exact Or.inl ⟨rfl, hpair⟩
    | connection =>
      rw [hcls] at hpair
      exact Or.inr ⟨by simp, hpair⟩
    | domain =>
      rw [hcls] at hpair
      exact Or.inr ⟨by simp, hpair⟩
    | network =>
      rw [hcls] at hpair
      exact Or.inr ⟨by simp, hpair⟩
  · cases heq

/-- From counts that are right, an operation is clean if and only if it leaves them right and
uses no handle that is gone. -/
theorem clean_iff {w w' : World} {op : WrapperOp} {calls : List HandleCall} (hw : w.Counted)
    (h : w.step op = some (calls, w')) : w.Clean op ↔ w'.Counted ∧ Sound calls := by
  cases op with
  | construct cls opened =>
    cases h
    exact iff_of_true trivial ⟨hw.construct cls opened, sound_nil⟩
  | copyConstruct src =>
    obtain ⟨o, ho, hcopied⟩ := step_copyConstruct h
    have hclean : w.Clean (.copyConstruct src) ↔ (o.cls = .connection → o.underlying = none) := by
      simp [Clean, ho]
    rw [hclean]
    rcases hcopied with ⟨hcls, hpair⟩ | ⟨hcls, hpair⟩
    · -- the pointer is copied and the count is not
      have hcopy := hw.connectionCopy_iff ho
      cases hpair
      rw [hcls, forall_prop_of_true rfl, and_iff_left sound_nil]
      exact hcopy.symm
    · have hcopy := hw.streamCopy ho
      rw [hpair] at hcopy
      exact iff_of_true (by simp [hcls]) hcopy
  | moveConstruct src =>
    simp only [step, Option.bind_eq_bind, Option.bind_eq_some_iff] at h
    obtain ⟨o, ho, heq⟩ := h
    cases heq
    exact iff_of_true trivial ⟨hw.moveConstruct ho o.cls, sound_nil⟩
  | copyAssign this src =>
    obtain ⟨o, o', ho, ho', hpair⟩ := step_copyAssign h
    have hclean : w.Clean (.copyAssign this src) ↔
        (this = src → ∀ h, o.underlying = some h → w.count h ≠ 1) := by
      simp only [Clean, ho, Option.some.injEq]
      exact ⟨fun hall hself h => hall hself o h rfl, fun hall hself _ h heq => heq ▸ hall hself h⟩
    have hassign := hw.streamCopyAssign_iff ho ho'
    rw [hpair] at hassign
    exact hclean.trans hassign.symm
  | moveAssign this src =>
    obtain ⟨o, o', ho, ho', hmoved⟩ := step_moveAssign h
    have hclean : w.Clean (.moveAssign this src) ↔ (o.cls = .stream → o.underlying = none) := by
      simp [Clean, ho]
    rw [hclean]
    rcases hmoved with ⟨hcls, hpair⟩ | ⟨hcls, hpair⟩
    · -- what the stream held is not given back
      have hassign := hw.streamMoveAssign_iff ho ho'
      cases hpair
      rw [hcls, forall_prop_of_true rfl, and_iff_left sound_nil]
      exact hassign.symm
    · have hreleasing := hw.releasingMoveAssign ho ho'
      rw [hpair] at hreleasing
      exact iff_of_true (fun hstream => absurd hstream hcls) hreleasing
  | destroy this =>
    simp only [step, Option.bind_eq_bind, Option.bind_eq_some_iff] at h
    obtain ⟨o, ho, heq⟩ := h
    cases heq
    exact iff_of_true trivial (hw.destroy ho)

theorem Counted.empty : Counted World.empty := fun _ => rfl

structure Right (calls : List (List HandleCall)) (w : World) : Prop where
  counted : ∀ h, w.count h = w.holders h
  sound : ∀ cs ∈ calls, ∀ c ∈ cs, c.found ≠ 0
  usable : ∀ i h, w.underlying i = some h → w.count h ≠ 0
  closed : (∀ i, w.live i = none) → ∀ h, w.count h = 0

theorem right_iff {calls : List (List HandleCall)} {w : World} :
    Right calls w ↔ w.Counted ∧ ∀ cs ∈ calls, Sound cs := by
  constructor
  · exact fun hright => ⟨hright.counted, hright.sound⟩
  · intro hw
    refine ⟨hw.1, hw.2, fun i h hheld => ?_, fun hgone h => ?_⟩
    · obtain ⟨o, ho, hunderlying⟩ := Option.bind_eq_some_iff.mp hheld
      exact Nat.ne_of_gt (hw.1.pos ho hunderlying)
    · rw [hw.1 h]
      apply holders_eq_zero
      intro s hs
      obtain ⟨i, hi⟩ := List.mem_iff_getElem?.mp hs
      have hnone := hgone i
      rw [live, hi] at hnone
      exact hnone

/-- In a sequence of operations all counts are right on the way if and only if every operation is
clean. -/
theorem counts_right_iff {ops : List WrapperOp} {calls : List (List HandleCall)} {w : World}
    (h : Runs.exec step empty ops = some (calls, w)) :
    (∀ before after made w', ops = before ++ after →
      Runs.exec step empty before = some (made, w') → Right made w') ↔
        Runs.Meets step Clean empty ops := by
  have hprefixes := Runs.meets_iff_prefixes (fun _ _ _ _ hw hs => clean_iff hw hs)
    Counted.empty h
  rw [hprefixes]
  constructor
  · intro hright before after made w' hops hrun
    exact right_iff.mp (hright before after made w' hops hrun)
  · intro hcounted before after made w' hops hrun
    exact right_iff.mpr (hcounted before after made w' hops hrun)

/-- Two domains, one of which is moved over the other. -/
theorem counts_right_moved :
    let ops := [.construct .domain true, .construct .domain true, .moveAssign 0 1, .destroy 1,
      .destroy 0]
    let calls := [[], [], [⟨.free, 0, 1⟩], [], [⟨.free, 1, 1⟩]]
    Runs.exec step empty ops = some (calls, ⟨[none, none], [0, 0]⟩) ∧
      Right calls ⟨[none, none], [0, 0]⟩ := by
  intro ops calls
  have hrun : Runs.exec step empty ops = some (calls, ⟨[none, none], [0, 0]⟩) := rfl
  have hmeets : Runs.Meets step Clean empty ops := by
    refine ⟨trivial, fun _ _ h => ?_⟩
    cases h
    refine ⟨trivial, fun _ _ h => ?_⟩
    cases h
    refine ⟨fun o ho hcls => ?_, fun _ _ h => ?_⟩
    · cases ho
      cases hcls
    · cases h
      exact ⟨trivial, fun _ _ _ => ⟨trivial, fun _ _ _ => trivial⟩⟩
  exact ⟨hrun, (counts_right_iff hrun).mpr hmeets ops [] _ _ (List.append_nil _).symm hrun⟩

/-- A connection that was copied is closed twice, a stream that was moved over is never freed, and
a stream that was assigned to itself goes on with a handle that is gone. -/
theorem copied_connection_closed_twice :
    (∃ calls w, Runs.exec step empty
      [.construct .connection true, .copyConstruct 0, .destroy 0, .destroy 1] = some (calls, w) ∧
        ¬Right calls w) ∧
    (∃ calls w, Runs.exec step empty
      [.construct .stream true, .construct .stream true, .moveAssign 0 1, .destroy 0, .destroy 1] =
        some (calls, w) ∧ ¬Right calls w) ∧
    (∃ calls w, Runs.exec step empty
      [.construct .stream true, .copyAssign 0 0] = some (calls, w) ∧ ¬Right calls w) := by
  refine ⟨⟨_, _, rfl, ?_⟩, ⟨_, _, rfl, ?_⟩, ⟨_, _, rfl, ?_⟩⟩
  · intro hright
    exact hright.sound [⟨.free, 0, 0⟩] (by decide) ⟨.free, 0, 0⟩ (by simp) rfl
  · intro hright
    have hzero := hright.closed (fun i => by match i with | 0 => rfl | 1 => rfl | i+2 => rfl) 0
    cases hzero
  · intro hright
    exact hright.sound [⟨.free, 0, 1⟩, ⟨.ref, 0, 0⟩] (by decide) ⟨.ref, 0, 0⟩ (by simp) rfl

end World

end Virthttp
