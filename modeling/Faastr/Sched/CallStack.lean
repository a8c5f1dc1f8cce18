import Mathlib.Logic.Function.Basic

/-!
Call stacks: what fused calls are meant to be.

A thread is a stack of contexts. The one on top runs; each of the others waits for the
one above it. A call pushes the callee, and when the context on top exits, the one below
is resumed with what the callee returned, or without a value when it returned nothing.
`Threads.step` is the machine, one event at a time, and a trace of events is a trace of
call stacks when the machine can go through it (`Threads.replay`). So a caller is resumed
once for each of its calls, after every call that its callee made.
-/

namespace Faastr.Sched

/-- What the context on top of a stack is about to do. -/
inductive Mode where
  | active
  /-- It has returned a value, and exits. -/
  | returning (values : List UInt8)
  /-- It is given what its callee returned. -/
  | resuming (callee : Nat) (values : Option (List UInt8))
deriving DecidableEq, Repr

/-- A thread without its top: the callers are innermost first. -/
structure Thread where
  mode : Mode
  callers : List Nat
deriving DecidableEq, Repr

/-- The threads, each by the context on top of its stack. -/
abbrev Threads := Nat → Option Thread

inductive Event where
  | cast (id : Nat)
  | call (caller callee : Nat)
  | sysReturn (id : Nat) (values : List UInt8)
  | exit (id : Nat)
  /-- A caller gets the values that its callee returned, or an error. -/
  | resume (caller callee : Nat) (values : Option (List UInt8))
deriving DecidableEq, Repr

namespace Threads

/-- One thread, with the context on top. -/
def single (id : Nat) : Threads := fun k => if k = id then some ⟨.active, []⟩ else none

/-- A thread gets another top. -/
def retop (T : Threads) (id id' : Nat) (t : Thread) : Threads :=
  Function.update (Function.update T id none) id' (some t)

section Retop

variable {T : Threads} {id id' x : Nat} {t : Thread}

theorem retop_new : T.retop id id' t id' = some t := Function.update_self ..

theorem retop_old (h : id ≠ id') : T.retop id id' t id = none :=
  (Function.update_of_ne h ..).trans (Function.update_self ..)

theorem retop_of_ne (hx : x ≠ id) (hx' : x ≠ id') : T.retop id id' t x = T x :=
  (Function.update_of_ne hx' ..).trans (Function.update_of_ne hx ..)

end Retop

def step (T : Threads) : Event → Option Threads
  | .cast id =>
      match T id with
      | none => some (Function.update T id (some ⟨.active, []⟩))
      | some _ => none
  | .call caller callee =>
      match T caller, T callee with
      | some ⟨.active, callers⟩, none => some (T.retop caller callee ⟨.active, caller :: callers⟩)
      | _, _ => none
  | .sysReturn id values =>
      match T id with
      | some ⟨.active, callers⟩ => some (Function.update T id (some ⟨.returning values, callers⟩))
      | _ => none
  | .exit id =>
      match T id with
      | some ⟨.active, caller :: callers⟩ => some (T.retop id caller ⟨.resuming id none, callers⟩)
      | some ⟨.returning values, caller :: callers⟩ =>
          some (T.retop id caller ⟨.resuming id (some values), callers⟩)
      | some ⟨.active, []⟩ => some (Function.update T id none)
      | some ⟨.returning _, []⟩ => some (Function.update T id none)
      | _ => none
  | .resume caller callee values =>
      match T caller with
      | some ⟨mode, callers⟩ =>
          if mode = .resuming callee values then
            some (Function.update T caller (some ⟨.active, callers⟩))
          else none
      | none => none

/-- The threads after a trace, if it is one of call stacks. -/
def replay (T : Threads) (trace : List Event) : Option Threads := trace.foldlM step T

theorem replay_append {T T' T'' : Threads} {trace trace' : List Event}
    (h : T.replay trace = some T') (h' : T'.replay trace' = some T'') :
    T.replay (trace ++ trace') = some T'' := by
  rw [replay, List.foldlM_append]
  exact Option.bind_eq_some_iff.mpr ⟨T', h, h'⟩

end Threads

end Faastr.Sched
