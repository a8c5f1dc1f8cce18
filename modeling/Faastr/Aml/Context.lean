import Faastr.Aml.Value
import Mathlib.Logic.Function.Basic
import Mathlib.Order.Defs.Unbundled

/-!
The execution context of the AML interpreter and what it does to the namespace
(`acpi/aml/parser.rs`).

Code runs on a `Machine`: its own context and the one ACPI state that all
contexts share. An `AmlError` is a result and keeps what was changed before it;
`Stop` is not. The namespace's write lock is part of the state, since some
functions hold it while they call others that take it.
-/

namespace Faastr.Aml

inductive ExecutionState
  | EXECUTING
  | CONTINUE
  | BREAK
  | RETURN (value : AmlValue)

structure AmlExecutionContext where
  scope : Str
  localVars : Vector AmlValue 8
  argVars : Vector AmlValue 8
  state : ExecutionState
  namespaceDelta : List Str
  ctxId : UInt64
  syncLevel : UInt8

/-- The objects by their absolute names. -/
abbrev Namespace := Str → Option AmlValue

/-- What all contexts share: the part of `ACPI_TABLE` that the interpreter uses,
the order of the tables, and how often the clock was read. -/
structure Acpi where
  objects : Option Namespace
  locked : Bool
  nextCtx : UInt64
  sdtOrder : SdtOrder
  clockReads : Nat

structure Machine where
  ctx : AmlExecutionContext
  acpi : Acpi

/-- The first context, at the root of a namespace. -/
def Machine.new (objects : Option Namespace) : Machine where
  ctx :=
    { scope := ['\\'], localVars := .replicate 8 .Uninitialized,
      argVars := .replicate 8 .Uninitialized, state := .EXECUTING, namespaceDelta := [], ctxId := 0,
      syncLevel := 0 }
  acpi := { objects, locked := false, nextCtx := 1, sdtOrder := none, clockReads := 0 }

/-- Code of the interpreter. -/
abbrev Interp := ExceptT AmlError (StateT Machine (Except Stop))

/-- A conversion as a step of the interpreter. -/
def convert {α : Type} (c : SdtOrder → Conv α) : Interp α :=
  ExceptT.mk fun m => (c m.acpi.sdtOrder).run.map fun result => (result, m)

instance : MonadLift Conv Interp := ⟨fun c => convert fun _ => c⟩

/-- The code does not come back. -/
def halt {α : Type} (reason : Stop) : Interp α := ExceptT.mk fun _ => .error reason

/-- Code whose error is taken as a result. -/
def attempt {α : Type} (x : Interp α) : Interp (Except AmlError α) := ExceptT.lift x.run

namespace Interp

variable {α β : Type}

/-- What code does to a machine. -/
def exec (x : Interp α) (m : Machine) : Except Stop (Except AmlError α × Machine) := x.run.run m

variable {x : Interp α} {f : α → Interp β} {m m' : Machine}

@[simp] theorem exec_pure (a : α) : (pure a : Interp α).exec m = .ok (.ok a, m) := rfl

@[simp] theorem exec_throw (e : AmlError) : (throw e : Interp α).exec m = .ok (.error e, m) := rfl

@[simp] theorem exec_get : (get : Interp Machine).exec m = .ok (.ok m, m) := rfl

@[simp] theorem exec_modify (g : Machine → Machine) :
    (modify g : Interp PUnit).exec m = .ok (.ok ⟨⟩, g m) := rfl

@[simp] theorem exec_halt (reason : Stop) : (halt reason : Interp α).exec m = .error reason := rfl

@[simp] theorem exec_convert (c : SdtOrder → Conv α) :
    (convert c).exec m = (c m.acpi.sdtOrder).run.map fun result => (result, m) := rfl

@[simp] theorem exec_lift (c : Conv α) :
    (liftM c : Interp α).exec m = c.run.map fun result => (result, m) := rfl

theorem exec_attempt : (attempt x).exec m = (x.exec m).map fun result => (.ok result.1, result.2) := by
  simp only [exec, attempt, ExceptT.run_lift, StateT.run_map]
  cases x.run.run m <;> rfl

/-- Code goes on behind a result; an error is passed on. -/
theorem exec_bind : (x >>= f).exec m =
    match x.exec m with
    | .ok (.ok a, m') => (f a).exec m'
    | .ok (.error e, m') => .ok (.error e, m')
    | .error reason => .error reason := by
  simp only [exec, ExceptT.run_bind, StateT.run_bind]
  cases x.run.run m with
  | error reason => rfl
  | ok r =>
    obtain ⟨result, m'⟩ := r
    cases result <;> rfl

theorem exec_bind_ok {a : α} (h : x.exec m = .ok (.ok a, m')) :
    (x >>= f).exec m = (f a).exec m' := by
  rw [exec_bind, h]

theorem exec_bind_eq_ok {b : β} (h : (x >>= f).exec m = .ok (.ok b, m')) :
    ∃ a m₁, x.exec m = .ok (.ok a, m₁) ∧ (f a).exec m₁ = .ok (.ok b, m') := by
  rw [exec_bind] at h
  split at h
  · next a m₁ hx => exact ⟨a, m₁, hx, h⟩
  · cases h
  · cases h

/-- A conversion that gives a result leaves the machine. -/
theorem exec_convert_eq_ok {c : SdtOrder → Conv α} {a : α}
    (h : (convert c).exec m = .ok (.ok a, m')) : c m.acpi.sdtOrder = pure a ∧ m' = m := by
  rw [exec_convert] at h
  cases hc : (c m.acpi.sdtOrder).run with
  | error reason =>
    rw [hc] at h
    cases h
  | ok result =>
    rw [hc] at h
    cases h
    exact ⟨hc, rfl⟩

/-- Code that takes a machine to related ones only, whether it ends in a result or in an error. -/
def Moves (R : Machine → Machine → Prop) (x : Interp α) : Prop :=
  ∀ m r m', x.exec m = .ok (r, m') → R m m'

/-- Code that leaves a part of the machine, whether it ends in a result or in an error. -/
def Fixes {γ : Type} (part : Machine → γ) (x : Interp α) : Prop :=
  ∀ m r m', x.exec m = .ok (r, m') → part m' = part m

namespace Moves

variable {R : Machine → Machine → Prop}

theorem halt (reason : Stop) : Moves R (Aml.halt reason : Interp α) := by
  rintro m r m' ⟨⟩

theorem of_modify {g : Machine → Machine} (h : ∀ m, R m (g m)) :
    Moves R (modify g : Interp PUnit) := by
  rintro m r m' ⟨⟩
  exact h m

theorem attempt (hx : Moves R x) : Moves R (Aml.attempt x) := by
  intro m r m' h
  rw [exec_attempt] at h
  cases hrun : x.exec m with
  | error reason =>
    rw [hrun] at h
    cases h
  | ok result =>
    rw [hrun] at h
    cases h
    exact hx m _ _ hrun

variable [IsPreorder Machine R]

theorem of_convert (c : SdtOrder → Conv α) : Moves R (convert c) := by
  intro m r m' h
  rw [exec_convert] at h
  cases hc : (c m.acpi.sdtOrder).run with
  | error reason =>
    rw [hc] at h
    cases h
  | ok result =>
    rw [hc] at h
    cases h
    exact refl m

theorem of_lift (c : Conv α) : Moves R (liftM c : Interp α) := of_convert fun _ => c

theorem pure (a : α) : Moves R (Pure.pure a : Interp α) := by
  rintro m r m' ⟨⟩
  exact refl m

theorem throw (e : AmlError) : Moves R (MonadExcept.throw e : Interp α) := by
  rintro m r m' ⟨⟩
  exact refl m

theorem get : Moves R (MonadState.get : Interp Machine) := by
  rintro m r m' ⟨⟩
  exact refl m

theorem bind (hx : Moves R x) (hf : ∀ a, Moves R (f a)) : Moves R (x >>= f) := by
  intro m r m' h
  rw [exec_bind] at h
  split at h
  · next a m₁ hrun => exact Trans.trans (hx m _ m₁ hrun) (hf a m₁ r m' h)
  · next e m₁ hrun =>
    cases h
    exact hx m _ m' hrun
  · cases h

end Moves

end Interp

/-- Objects under a name replaced. -/
def Machine.insert (m : Machine) (objects : Namespace) (name : Str) (value : AmlValue) : Machine :=
  { m with acpi := { m.acpi with objects := some (Function.update objects name (some value)) } }

/-- The namespace's write lock taken or let go. -/
def Machine.lock (m : Machine) (locked : Bool) : Machine :=
  { m with acpi := { m.acpi with locked := locked } }

/-- The namespace behind its lock: a second lock is never got. -/
def lockedNamespace : Interp (Option Namespace) := do
  let m ← get
  if m.acpi.locked then halt .deadlock else return m.acpi.objects

/-- Code that runs while the write lock is held. -/
def withLock {α : Type} (body : Interp α) : Interp α := do
  let _ ← lockedNamespace
  modify fun m => m.lock true
  let result ← attempt body
  modify fun m => m.lock false
  ExceptT.mk (pure result)

namespace AmlExecutionContext

/-! ### Events and mutexes -/

/-- The name of the event or mutex that a value points to. -/
def pointedName : AmlValue → Conv Str
  | .String s => pure s
  | .ObjectReference (.Object s) => pure s
  | _ => throw .AmlValueError

/-- The object that a value points to, with the namespace and its name. -/
def pointed (ptr : AmlValue) : Interp (Namespace × Str × AmlValue) := do
  let some objects ← lockedNamespace | throw .AmlHardFatal
  let name ← pointedName ptr
  let some object := objects name | throw .AmlValueError
  return (objects, name, object)

def waitForEvent (eventPtr : AmlValue) : Interp Bool := do
  let (objects, name, object) ← pointed eventPtr
  match object with
  | .Event count =>
    if count > 0 then
      modify fun m => m.insert objects name (.Event (count - 1))
      return true
    else return false
  | _ => throw .AmlValueError

def releaseMutex (mutexPtr : AmlValue) : Interp Unit := do
  let id := (← get).ctx.ctxId
  let (objects, name, object) ← pointed mutexPtr
  match object with
  | .Mutex syncLevel owner =>
    match owner with
    | some o =>
      if o = id then
        if syncLevel = (← get).ctx.syncLevel then
          modify fun m => m.insert objects name (.Mutex syncLevel none)
        else throw .AmlValueError
      else throw .AmlHardFatal
    | none => return
  | .OperationRegion region =>
    match region.accessedBy with
    | some o =>
      if o = id then
        modify fun m => m.insert objects name (.OperationRegion { region with accessedBy := none })
      else throw .AmlHardFatal
    | none => return
  | _ => throw .AmlValueError

def acquireMutex (mutexPtr : AmlValue) : Interp Bool := do
  let id := (← get).ctx.ctxId
  let (objects, name, object) ← pointed mutexPtr
  match object with
  | .Mutex syncLevel owner =>
    if owner = none then
      if syncLevel < (← get).ctx.syncLevel then throw .AmlValueError
      modify fun m => m.insert objects name (.Mutex syncLevel (some id))
      modify fun m => { m with ctx := { m.ctx with syncLevel := syncLevel } }
      return true
    else return false
  | .OperationRegion region =>
    if region.accessedBy = none then
      modify fun m =>
        m.insert objects name (.OperationRegion { region with accessedBy := some id })
      return true
    else return false
  | _ => throw .AmlValueError

/-! ### Reading through references -/

/-- The element of a package, or the byte, at an index. -/
def indexed {α : Type} (l : List α) (i : UInt64) : Conv α := orPanic l[i.toNat]?

def getIndexCore (order : SdtOrder) (obj : AmlValue) : List UInt64 → Conv AmlValue
  | [] => throw .AmlValueError
  | i :: rest =>
    match obj with
    | .String string =>
      if rest ≠ [] then throw .AmlValueError
      else do return .Integer (← indexed (Str.bytes string) i).toUInt64
    | .Buffer b =>
      if rest ≠ [] then throw .AmlValueError
      else do return .Integer (← indexed b i).toUInt64
    | .BufferField b =>
      if rest ≠ [] then throw .AmlValueError
      else do
        let idx := i + (← b.index.getAsInteger order)
        return .Integer (← indexed (← b.sourceBuf.getAsBuffer order) idx).toUInt64
    | .Package p =>
      if rest = [] then indexed p i
      else do getIndexCore order (← indexed p i) rest
    | _ => throw .AmlValueError

def getIndexFinal (name : Str) (indices : List UInt64) : Interp AmlValue := do
  let some objects ← lockedNamespace | throw .AmlValueError
  let some obj := objects name | throw .AmlValueError
  convert fun order => getIndexCore order obj indices

/-- The references are unwound from the outermost in. -/
def getIndex : AmlValue → List UInt64 → Interp AmlValue
  | .ObjectReference (.Object s), indices => getIndexFinal s indices
  | .ObjectReference (.Index c v), indices => do
    getIndex c (indices ++ [← convert fun order => v.getAsInteger order])
  | .ObjectReference (.ArgObj _), _ => throw .AmlValueError
  | .ObjectReference (.LocalObj i), indices => do
    let v ← orPanic (← get).ctx.localVars[i.toNat]?
    convert fun order => getIndexCore order v indices
  | _, _ => throw .AmlValueError

/-- The object under a name, `None` if there is none. -/
def getObject (name : Str) : Interp AmlValue := do
  match ← lockedNamespace with
  | some objects => return (objects name).getD .None
  | none => return .None

/-- `get`. -/
def getValue : AmlValue → Interp AmlValue
  | .ObjectReference (.ArgObj i) => do orPanic (← get).ctx.argVars[i.toNat]?
  | .ObjectReference (.LocalObj i) => do orPanic (← get).ctx.localVars[i.toNat]?
  | .ObjectReference (.Object s) => getObject s
  | .ObjectReference (.Index c v) => do
    getIndex c [← convert fun order => v.getAsInteger order]
  | .String s => getObject s
  | _ => return .None

/-! ### Writing through references -/

def setLocalVar (i : Nat) (value : AmlValue) : Interp Unit :=
  modify fun m => { m with ctx := { m.ctx with localVars := m.ctx.localVars.setIfInBounds i value } }

def modifyLocalObj (i : Nat) (value : AmlValue) : Interp Unit := do
  let old ← orPanic (← get).ctx.localVars[i]?
  setLocalVar i (← convert fun order => value.getAsType order old)

def modifyObject (name : Str) (value : AmlValue) : Interp Unit := do
  let some objects ← lockedNamespace | throw .AmlHardFatal
  let coercionObj := (objects name).getD .Uninitialized
  let value ← convert fun order => value.getAsType order coercionObj
  modify fun m => m.insert objects name value

/-- A byte of a buffer or of a string's bytes replaced. -/
def replaceByte (bytes : List UInt8) (i : UInt64) (value : AmlValue) : Interp (List UInt8) := do
  let byte ← convert fun order => value.getAsInteger order
  if i.toNat < bytes.length then return bytes.set i.toNat byte.toUInt8
  else halt .panic

section Indices

-- `modify`, which an index into a buffer field comes back to
variable (redirect : AmlValue → AmlValue → Interp Unit)

def modifyIndexCore (obj value : AmlValue) : List UInt64 → Interp AmlValue
  | [] => throw .AmlValueError
  | i :: rest =>
    match obj with
    | .String string =>
      if rest ≠ [] then throw .AmlValueError
      else do
        let bytes ← replaceByte (Str.bytes string) i value
        return .String (← orPanic (Str.fromUtf8 bytes))
    | .Buffer b =>
      if rest ≠ [] then throw .AmlValueError
      else do return .Buffer (← replaceByte b i value)
    | .BufferField b =>
      if rest ≠ [] then throw .AmlValueError
      else do
        let idx := i + (← convert fun order => b.index.getAsInteger order)
        -- what the redirected write ends with is dropped
        let _ ← attempt (redirect (.ObjectReference (.Index b.sourceBuf (.Integer idx))) value)
        return .BufferField b
    | .Package p =>
      if rest = [] then do
        let _ ← indexed p i
        return .Package (p.set i.toNat value)
      else do
        let element ← modifyIndexCore (← indexed p i) value rest
        return .Package (p.set i.toNat element)
    | _ => throw .AmlValueError

/-- The lock is held until the changed object is back in the namespace. -/
def modifyIndexFinal (name : Str) (value : AmlValue) (indices : List UInt64) : Interp Unit :=
  withLock do
    let some objects := (← get).acpi.objects | throw .AmlValueError
    let some obj := objects name | throw .AmlValueError
    let obj ← modifyIndexCore redirect obj value indices
    modify fun m => m.insert objects name obj

def modifyIndex : AmlValue → AmlValue → List UInt64 → Interp Unit
  | .ObjectReference (.Object s), value, indices => modifyIndexFinal redirect s value indices
  | .ObjectReference (.Index c v), value, indices => do
    modifyIndex c value (indices ++ [← convert fun order => v.getAsInteger order])
  | .ObjectReference (.ArgObj _), _, _ => throw .AmlValueError
  | .ObjectReference (.LocalObj i), value, indices => do
    let v ← orPanic (← get).ctx.localVars[i.toNat]?
    setLocalVar i.toNat (← modifyIndexCore redirect v value indices)
  | _, _, _ => throw .AmlValueError

def modifyWith : AmlValue → AmlValue → Interp Unit
  | .ObjectReference (.ArgObj _), _ => throw .AmlValueError
  | .ObjectReference (.LocalObj i), value => modifyLocalObj i.toNat value
  | .ObjectReference (.Object s), value => modifyObject s value
  | .ObjectReference (.Index c v), value => do
    modifyIndex redirect c value [← convert fun order => v.getAsInteger order]
  | .String s, value => modifyObject s value
  | _, _ => throw .AmlValueError

end Indices

/-- `modify`, with fuel for buffer fields whose source is a reference to another one. -/
def modifyValue : Nat → AmlValue → AmlValue → Interp Unit
  | 0 => modifyWith fun _ _ => halt .fuel
  | fuel + 1 => modifyWith (modifyValue fuel)

def copyObject (name : Str) (value : AmlValue) : Interp Unit := do
  let some objects ← lockedNamespace | throw .AmlHardFatal
  modify fun m => m.insert objects name value

/-- `copy`, which stores a value as it is; through an index it is `modify`. -/
def copyValue (fuel : Nat) : AmlValue → AmlValue → Interp Unit
  | .ObjectReference (.ArgObj _), _ => throw .AmlValueError
  | .ObjectReference (.LocalObj i), value => do
    let _ ← orPanic (← get).ctx.localVars[i.toNat]?
    setLocalVar i.toNat value
  | .ObjectReference (.Object s), value => copyObject s value
  | .ObjectReference (.Index c v), value => do
    modifyIndex (modifyValue fuel) c value [← convert fun order => v.getAsInteger order]
  | .String s, value => copyObject s value
  | _, _ => throw .AmlValueError

end AmlExecutionContext

end Faastr.Aml
