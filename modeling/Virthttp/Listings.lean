import Virthttp.Common
import Virthttp.Program

namespace Virthttp

open Program

/-- The elements of an array; those that nothing has been written to are none. -/
abbrev Slots (α : Type) := List (Option α)

/-- The exceptions that a listing ends with; `undefined` where it uses memory that is not there. -/
inductive Thrown where
  | lengthError
  | badArrayNewLength
  | runtimeError (what : String)
  | logicError
  | undefined

section Wrappers

variable {σ α : Type}

/-- `resize` of a vector that is empty; a size beyond `max_size` is refused. -/
def resize (size : ℕ) : Prog σ Thrown (Slots α) :=
  if 2^60 ≤ size then stop .lengthError
  else pure (List.replicate size none)

def sizeOfInt (count : ℤ) : ℕ := (BitVec.ofInt 64 count).toNat

def narrowUnsigned (count : ℤ) : ℕ := (BitVec.ofInt 32 count).toNat

namespace Light

/-- The vector has the size that was counted; an empty one is not filled. -/
def countThenFill (failed : ℤ → Bool) (countFcn : Prog σ Thrown ℤ)
    (dataFcn : Slots α → Prog σ Thrown (ℤ × Slots α)) : Prog σ Thrown (Option (Slots α)) := do
  let count ← countFcn
  let ret ← resize (sizeOfInt count)
  if ret.isEmpty then return some ret
  else
    let (res, ret) ← dataFcn ret
    return if failed res then none else some ret

def wrapOparmOwningFillStaticArr (countFcn : Prog σ Thrown ℤ)
    (dataFcn : Slots α → Prog σ Thrown (ℤ × Slots α)) : Prog σ Thrown (Option (Slots α)) :=
  countThenFill (fun res => decide (res ≤ 0)) countFcn dataFcn

def wrapOparmOwningFillFreeableArr (countFcn : Prog σ Thrown ℤ)
    (dataFcn : Slots α → Prog σ Thrown (ℤ × Slots α)) : Prog σ Thrown (Option (Slots α)) :=
  countThenFill (fun res => decide (res ≠ 0)) countFcn dataFcn

def wrapOparmOwningFillAutodestroyableArr (countFcn : Prog σ Thrown ℤ)
    (dataFcn : Slots α → Prog σ Thrown (ℤ × Slots α)) : Prog σ Thrown (Option (Slots α)) :=
  countThenFill (fun res => decide (res ≠ 0)) countFcn dataFcn

end Light

inductive Conv where
  | same
  | string

def Conv.convert : Conv → Slots α → Prog σ Thrown (Slots α)
  | .same, ret => pure ret
  | .string, ret => if ret.all Option.isSome then pure ret else stop .logicError

namespace Heavy

/-- The vector is filled whatever its size, and a result other than zero is thrown. -/
def countThenFill (func : String) (conv : Conv) (countFcn : Prog σ Thrown ℤ)
    (dataFcn : Slots α → Prog σ Thrown (ℤ × Slots α)) : Prog σ Thrown (Slots α) := do
  let count ← countFcn
  let ret ← resize (sizeOfInt count)
  let (res, ret) ← dataFcn ret
  if res ≠ 0 then stop (.runtimeError func)
  else conv.convert ret

def wrapOparmOwningFillStaticArr (conv : Conv) (countFcn : Prog σ Thrown ℤ)
    (dataFcn : Slots α → Prog σ Thrown (ℤ × Slots α)) : Prog σ Thrown (Slots α) :=
  countThenFill "wrap_oparm_owning_fill_static_arr" conv countFcn dataFcn

def wrapOparmOwningFillFreeableArr (conv : Conv) (countFcn : Prog σ Thrown ℤ)
    (dataFcn : Slots α → Prog σ Thrown (ℤ × Slots α)) : Prog σ Thrown (Slots α) :=
  countThenFill "wrap_oparm_owning_fill_freeable_arr" conv countFcn dataFcn

def wrapOparmOwningFillAutodestroyableArr (conv : Conv) (countFcn : Prog σ Thrown ℤ)
    (dataFcn : Slots α → Prog σ Thrown (ℤ × Slots α)) : Prog σ Thrown (Slots α) :=
  countThenFill "wrap_oparm_owning_fill_autodestroyable_arr" conv countFcn dataFcn

end Heavy

namespace TPImpl

abbrev ParamsFcn (σ α : Type) := Option (Slots α) → ℤ → σ → (ℤ × Slots α × ℤ) × σ

/-- The arrays that `new[]` has made, in this order; an array that was deleted is none. -/
structure Memory (σ α : Type) where
  calls : σ
  arrays : List (Option (Slots α))

def Memory.array (m : Memory σ α) (ptr : ℕ) : Option (Slots α) := m.arrays[ptr]?.join

def newArray (size : ℤ) : Prog (Memory σ α) Thrown ℕ := fun m =>
  if size < 0 then stop .badArrayNewLength m
  else (.ok m.arrays.length,
    { m with arrays := m.arrays ++ [some (List.replicate size.toNat none)] })

/-- `delete[]`, which is undefined for an array that was deleted. -/
def deleteArray (ptr : ℕ) : Prog (Memory σ α) Thrown Unit := fun m =>
  match m.array ptr with
  | some _ => (.ok (), { m with arrays := m.arrays.set ptr none })
  | none => stop .undefined m

def readArray (ptr size : ℕ) : Prog (Memory σ α) Thrown (Slots α) := fun m =>
  if size = 0 then (.ok [], m)
  else
    match m.array ptr with
    | some slots => if size ≤ slots.length then (.ok (slots.take size), m) else stop .undefined m
    | none => stop .undefined m

def ParamsFcn.call (fcn : ParamsFcn σ α) (underlying : Option ℕ) (size : ℤ) :
    Prog (Memory σ α) Thrown (ℤ × ℤ) := fun m =>
  let ((res, slots, size), calls) := fcn (underlying.bind m.array) size m.calls
  match underlying with
  | some ptr => (.ok (res, size), ⟨calls, m.arrays.set ptr (some slots)⟩)
  | none => (.ok (res, size), { m with calls := calls })

structure TypedParams where
  underlying : Option ℕ := none
  size : ℤ := 0
  capacity : ℤ := 0
  needsFree : Bool := false
  needsDealloc : Bool := false

namespace TypedParams

/-- `TypedParams(TypedParams&&) = default` copies every member, the pointer too; the object that
is moved from stays as it was. -/
def moved (tp : TypedParams) : TypedParams :=
  { underlying := tp.underlying
    size := tp.size
    capacity := tp.capacity
    needsFree := tp.needsFree
    needsDealloc := tp.needsDealloc }

/-- `~TypedParams`; `virTypedParamsFree` frees the array as well. -/
def destroy (tp : TypedParams) : Prog (Memory σ α) Thrown Unit := do
  match tp.underlying with
  | none => return
  | some ptr =>
    if tp.needsFree then deleteArray ptr
    if tp.needsDealloc then deleteArray ptr

def elements (tp : TypedParams) : Prog (Memory σ α) Thrown (Slots α) :=
  match tp.underlying with
  | none => pure []
  | some ptr => readArray ptr tp.size.toNat

end TypedParams

/-- `return ok ? std::move(ret) : std::nullopt` where `ret` is a local variable that holds
`tp`: the result is made first, then `ret` is destroyed. -/
def returnMoved (ok : Bool) (tp : TypedParams) : Prog (Memory σ α) Thrown (Option TypedParams) := do
  let ret := if ok then some tp.moved else none
  tp.destroy
  return ret

/-- `wrap_oparm_fill_tp` with a data function alone -/
def wrapOparmFillTp (dataFcn : ParamsFcn σ α) :
    Prog (Memory σ α) Thrown (Option TypedParams) := do
  let (countRes, size) ← dataFcn.call none 0
  if countRes < 0 then returnMoved false { size := size }
  else
    let ptr ← newArray size
    let (res, filled) ← dataFcn.call (some ptr) size
    returnMoved (decide (0 ≤ res))
      { underlying := some ptr
        size := filled
        capacity := size
        needsDealloc := true }

/-- `wrap_oparm_fill_tp` with a count function of its own -/
def wrapOparmFillTpCounted (countFcn dataFcn : ParamsFcn σ α) :
    Prog (Memory σ α) Thrown (Option TypedParams) := do
  let (countRes, size) ← countFcn.call none 0
  if countRes = 0 then returnMoved false { size := size }
  else
    let ptr ← newArray size
    let (res, filled) ← dataFcn.call (some ptr) size
    returnMoved (decide (0 ≤ res))
      { underlying := some ptr
        size := filled
        capacity := size
        needsDealloc := true }

/-- What a caller does with the result: it goes through the elements, and the object is destroyed
at the end of its scope. -/
def listed (wrapper : Prog (Memory σ α) Thrown (Option TypedParams)) :
    Prog (Memory σ α) Thrown (Option (Slots α)) := do
  match ← wrapper with
  | none => return none
  | some tp =>
    let ret ← tp.elements
    tp.destroy
    return some ret

def withMemory (p : Prog (Memory σ α) Thrown (Option (Slots α))) :
    Prog σ Thrown (Option (Slots α)) := fun calls =>
  match p ⟨calls, []⟩ with
  | (r, m) => (r, m.calls)

/-- The data function of `getTotalCPUStats` and `getCPUStats`, around a call that returns the
number of parameters. -/
def cpuStatsFcn (getCPUStats : Option (Slots α) → ℤ → σ → (ℤ × Slots α) × σ) :
    ParamsFcn σ α := fun tpu size calls =>
  let ((res, slots), calls) := getCPUStats tpu size calls
  match tpu with
  | some _ => ((res, slots, size), calls)
  | none => ((res, slots, res), calls)

/-- The count function of `getSchedulerParameters`, where the type of the scheduler has come
with the number of its parameters. -/
def schedulerCountFcn (n : ℤ) : ParamsFcn σ α := fun _ _ calls => ((0, [], n), calls)

end TPImpl

namespace Connection

/-- `listDefinedDomains<gsl::zstring<>>`, which counts the domains that are active. -/
def listDefinedDomainsZ (numOfDomains : Prog σ Thrown ℤ)
    (listDefined : Slots α → Prog σ Thrown (ℤ × Slots α)) : Prog σ Thrown (Slots α) := do
  let maxSize ← numOfDomains
  let buf ← resize (narrowUnsigned maxSize)
  let (res, buf) ← listDefined buf
  if res < 0 then stop (.runtimeError "virConnectListDefinedDomains")
  else return buf

def listDefinedDomains (numOfDefinedDomains : Prog σ Thrown ℤ)
    (listDefined : Slots α → Prog σ Thrown (ℤ × Slots α)) : Prog σ Thrown (Slots α) := do
  let maxSize ← numOfDefinedDomains
  let buf ← resize (narrowUnsigned maxSize)
  let (res, buf) ← listDefined buf
  if res < 0 then stop (.runtimeError "virConnectListDefinedDomains")
  else Conv.string.convert buf

end Connection

end Wrappers

inductive FillAnswer (α : Type) (n : ℕ) where
  | failed (err : ℤ) (neg : err < 0)
  | filled (xs : List α) (fits : xs.length ≤ n)

namespace FillAnswer

variable {α : Type} {n : ℕ}

def res : FillAnswer α n → ℤ
  | failed err _ => err
  | filled xs _ => xs.length

def write : FillAnswer α n → Slots α → Slots α
  | failed _ _, slots => slots
  | filled xs _, slots => xs.map some ++ slots.drop xs.length

def entries : FillAnswer α n → Option (Slots α)
  | failed _ _ => none
  | filled xs _ => some (xs.map some)

end FillAnswer

structure ListingAnswers (α : Type) where
  n : ℕ
  small : n < 2^31
  fill : FillAnswer α n

namespace ListingAnswers

variable {α : Type}

def countFcn (l : ListingAnswers α) : Prog ℕ Thrown ℤ := pure l.n

/-- The state counts the calls that were made to fill an array. -/
def dataFcn (l : ListingAnswers α) (slots : Slots α) : Prog ℕ Thrown (ℤ × Slots α) := do
  modify (· + 1)
  return (l.fill.res, l.fill.write slots)

def paramsBySize (l : ListingAnswers α) : TPImpl.ParamsFcn ℕ α
  | none, _, fills => ((0, [], l.n), fills)
  | some slots, size, fills =>
    match l.fill with
    | .failed err _ => ((err, slots, size), fills + 1)
    | .filled xs _ => ((0, l.fill.write slots, xs.length), fills + 1)

def paramsByReturn (l : ListingAnswers α) : Option (Slots α) → ℤ → ℕ → (ℤ × Slots α) × ℕ
  | none, _, fills => ((l.n, []), fills)
  | some slots, _, fills => ((l.fill.res, l.fill.write slots), fills + 1)

end ListingAnswers

inductive ListingWrapper where
  | lightStatic
  | lightFreeable
  | lightAutodestroyable
  | heavyStatic (conv : Conv)
  | heavyFreeable (conv : Conv)
  | heavyAutodestroyable (conv : Conv)
  | fillTp
  | fillTpCPUStats
  | fillTpCounted
  | listDefinedDomainsZ
  | listDefinedDomains

namespace ListingWrapper

variable {α : Type}

def run (l : ListingAnswers α) : ListingWrapper → Prog ℕ Thrown (Option (Slots α))
  | lightStatic => Light.wrapOparmOwningFillStaticArr l.countFcn l.dataFcn
  | lightFreeable => Light.wrapOparmOwningFillFreeableArr l.countFcn l.dataFcn
  | lightAutodestroyable => Light.wrapOparmOwningFillAutodestroyableArr l.countFcn l.dataFcn
  | heavyStatic conv => do
    return some (← Heavy.wrapOparmOwningFillStaticArr conv l.countFcn l.dataFcn)
  | heavyFreeable conv => do
    return some (← Heavy.wrapOparmOwningFillFreeableArr conv l.countFcn l.dataFcn)
  | heavyAutodestroyable conv => do
    return some (← Heavy.wrapOparmOwningFillAutodestroyableArr conv l.countFcn l.dataFcn)
  | fillTp => TPImpl.withMemory (TPImpl.listed (TPImpl.wrapOparmFillTp l.paramsBySize))
  | fillTpCPUStats => TPImpl.withMemory
    (TPImpl.listed (TPImpl.wrapOparmFillTp (TPImpl.cpuStatsFcn l.paramsByReturn)))
  | fillTpCounted => TPImpl.withMemory (TPImpl.listed
    (TPImpl.wrapOparmFillTpCounted (TPImpl.schedulerCountFcn l.n) l.paramsBySize))
  | listDefinedDomainsZ => do
    return some (← Connection.listDefinedDomainsZ l.countFcn l.dataFcn)
  | listDefinedDomains => do
    return some (← Connection.listDefinedDomains l.countFcn l.dataFcn)

end ListingWrapper

section Results

variable {α : Type} {l : ListingAnswers α}

theorem sizeOfInt_natCast {n : ℕ} (hn : n < 2^31) : sizeOfInt n = n := by
  rw [sizeOfInt, BitVec.ofInt_natCast, BitVec.toNat_ofNat]
  exact Nat.mod_eq_of_lt (by omega)

theorem resize_small {σ : Type} {n : ℕ} (hn : n < 2^31) :
    (resize n : Prog σ Thrown (Slots α)) = pure (List.replicate n none) := by
  have hsize : ¬2^60 ≤ n := by omega
  rw [resize, if_neg hsize]

/-- After the counting an array of that size is filled, or there is nothing to fill. -/
theorem countThenFill_counted {σ : Type} {n : ℕ} (hn : n < 2^31) (failed : ℤ → Bool)
    (dataFcn : Slots α → Prog σ Thrown (ℤ × Slots α)) :
    Light.countThenFill failed (pure (n : ℤ)) dataFcn =
      if n = 0 then pure (some []) else do
        let (res, ret) ← dataFcn (List.replicate n none)
        return if failed res then none else some ret := by
  unfold Light.countThenFill
  rw [pure_andThen, sizeOfInt_natCast hn, resize_small hn, pure_andThen]
  by_cases hzero : n = 0
  · have hnil : (List.replicate n none : Slots α) = [] := by rw [hzero, List.replicate_zero]
    rw [if_pos hzero, hnil]
    rfl
  · have hne : ¬(List.replicate n none : Slots α).isEmpty = true := by simpa using hzero
    rw [if_neg hzero, if_neg hne]

namespace ListingWrapper

end ListingWrapper

end Results

end Virthttp
