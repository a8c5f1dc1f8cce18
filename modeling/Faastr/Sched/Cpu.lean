import Faastr.Lib.Transition
import Faastr.Sched.Switch
import Mathlib.Algebra.Ring.Int.Defs
import Mathlib.Logic.Function.Basic

/-!
The kernel on one CPU, with all the ways in which a context gives up control: the timer,
fused calls, calls to the host, `nanosleep` (`kernel/src/syscall/time.rs`), `WaitCondition`
(`kernel/src/sync/wait_condition.rs`), `sigreturn` and `exit`
(`kernel/src/syscall/process.rs`).

A call that sleeps blocks its context, and then calls `switch`. Between the two the timer
may switch contexts as well. The call goes on when its context runs again.

* `Cpu.perform`: what can happen next.
* `Cpu.moves_of_perform`: what a move does to the state, one constructor for each branch.
* `switch_get`: what `switch` does to one context.
-/

namespace Faastr.Sched

open Faastr.Lib

/-- A sleep, with what ends it. -/
inductive Sleep where
  /-- `nanosleep`, with the time to wake up at. -/
  | nanosleep (wake : Nat × Nat)
  /-- `WaitCondition::wait`, on a condition. -/
  | wait (condition : Nat)
  | sigreturn
deriving DecidableEq, Repr

namespace Sleep

/-- The wake time that the sleep sets. -/
def wake : Sleep → Option (Nat × Nat)
  | .nanosleep wake => some wake
  | .wait _ | .sigreturn => none

/-- `Context::block`, with the wake time of `nanosleep`. -/
def enter (c : Context) : Sleep → Context
  | .nanosleep wake => { c with wake := some wake }.block.2
  | .wait _ | .sigreturn => c.block.2

end Sleep

/-- A call that sleeps. A time is given in seconds and nanoseconds. -/
inductive SleepCall where
  | nanosleep (tvSec tvNsec : Int)
  | wait (condition : Nat)
  | sigreturn
deriving DecidableEq, Repr

/-- The sleep that a call starts. The casts to `u64` keep the sign. -/
def SleepCall.sleep (start : Nat × Nat) : SleepCall → Sleep
  | .nanosleep tvSec tvNsec =>
      let sum := (start.2 + (tvNsec % 2 ^ 64).toNat) % 2 ^ 64
      .nanosleep ((start.1 + (tvSec % 2 ^ 64).toNat + sum / 1000000000) % 2 ^ 64, sum % 1000000000)
  | .wait condition => .wait condition
  | .sigreturn => .sigreturn

/-- What a context is doing in the kernel. -/
inductive Doing where
  /-- It runs its function. -/
  | free
  /-- `fuse_inner` has inserted the callee. -/
  | calling (callee : Nat)
  /-- And switched to it. -/
  | fusing (callee : Nat)
  /-- `sys_return` has stored the result. -/
  | leaving
  /-- `exit` has given up control. -/
  | exiting
  /-- `ivshrpc_fuse` has registered the call. -/
  | asking (callid : Nat)
  /-- And is in its loop. -/
  | hosting (callid : Nat)
  /-- A call that sleeps has called `block`. -/
  | entering (sleep : Sleep)
  /-- `wait` has entered the context into the condition. -/
  | queued (condition : Nat)
  /-- A call that sleeps has called `switch`. -/
  | sleeping (sleep : Sleep)
deriving DecidableEq, Repr

/-- The sleep that a context is in. -/
def Doing.sleep : Doing → Option Sleep
  | .entering sleep | .sleeping sleep => some sleep
  | .queued condition => some (.wait condition)
  | _ => none

/-- What can be seen from outside. -/
inductive Happening where
  /-- A context goes to sleep, at a time. -/
  | sleep (id : Nat) (sleep : Sleep) (now : Nat × Nat)
  /-- `unblock` is called on a context, by another one or in an interrupt. -/
  | unblock (id : Nat)
  /-- The clock goes on. -/
  | clock (now : Nat × Nat)
  /-- A context is switched to. -/
  | select (id : Nat)
  /-- The call of a context that slept returns. -/
  | wakeUp (id : Nat)
deriving DecidableEq, Repr

structure Cpu where
  sched : Scheduler
  doing : Nat → Doing
  /-- `CALL_QUEUE`. -/
  queue : Nat → Option Nat
  /-- The contexts that wait on each condition. -/
  conditions : Nat → List Nat
  /-- `time::OFFSET`. -/
  clock : Nat × Nat
  /-- `PIT_TICKS`. -/
  pitTicks : Nat
  trace : List Happening

inductive CpuMove where
  /-- The timer interrupt. -/
  | pit
  /-- `switch`, from a loop that waits. -/
  | yield
  /-- `fuse_inner` inserts the callee. -/
  | call
  | fuseSwitch
  | resume
  | sysReturn (values : List UInt8)
  | exit
  /-- An exited context runs again. -/
  | fallOff
  /-- A context, or `isr`, inserts a new context. -/
  | cast
  /-- `ivshrpc_fuse` registers its call. `CALL_ID` counts the calls of all contexts and wraps,
  so the number is taken to be any. -/
  | ask (callid : Nat)
  /-- It blocks the context, unless the result is there. -/
  | check
  /-- It goes on after its loop. -/
  | leave
  /-- `isr` delivers an answer of the host. -/
  | deliver (callid : Nat) (values : List UInt8)
  /-- A call that sleeps calls `block`. -/
  | sleep (call : SleepCall)
  /-- `wait` enters the context into the condition. -/
  | push
  /-- The call calls `switch`. -/
  | sleepSwitch
  /-- The call goes on. -/
  | wakeUp
  | notify (condition : Nat)
deriving DecidableEq, Repr

/-- What `unreachable!()` ends in. -/
def unreachable : Halt := .panic "internal error: entered unreachable code"

/-- `notify`: the contexts are taken from the end. -/
def Scheduler.unblockAll (s : Scheduler) (ids : List Nat) : Scheduler :=
  ids.foldr (fun id s => s.modify id fun c => c.unblock.2) s

namespace Cpu

def current (s : Cpu) : Nat := s.sched.contextId

def boot (cpu : Nat) : Cpu where
  sched := .boot cpu
  doing _ := .free
  queue _ := none
  conditions _ := []
  clock := (0, 0)
  pitTicks := 0
  trace := []

/-- The context that runs does something else. -/
def nowDoing (s : Cpu) (d : Doing) : Nat → Doing := Function.update s.doing s.current d

/-- `context::switch`; whether there is a context to switch to. -/
def switch (cpu : Nat) (s : Cpu) : Except Halt (Bool × Cpu) :=
  (s.sched.switch cpu s.clock).map fun r => (r.1, { s with
    sched := r.2
    pitTicks := 0
    trace := s.trace ++ if r.1 then [.select r.2.contextId] else [] })

/-- The timer interrupt counts the time. -/
def tick (s : Cpu) : Cpu :=
  let sum := s.clock.2 + 2250286
  let now := ((s.clock.1 + sum / 1000000000) % 2 ^ 64, sum % 1000000000)
  { s with clock := now, pitTicks := s.pitTicks + 1, trace := s.trace ++ [.clock now] }

/-- What a move leads to, if it can be made. -/
def perform (cpu : Nat) (s : Cpu) : CpuMove → Option (Except Halt Cpu)
  | .pit => some (if 10 ≤ s.pitTicks then (s.tick.switch cpu).map Prod.snd else .ok s.tick)
  | .yield =>
      match s.doing s.current with
      | .free => some ((s.switch cpu).map Prod.snd)
      | .hosting _ =>
          if (s.sched.get? s.current).map Context.status = some .blocked then
            some ((s.switch cpu).map Prod.snd)
          else none
      | _ => none
  | .call =>
      match s.doing s.current with
      | .free =>
          match s.sched.contexts.insert s.sched.callee with
          | (.ok id, contexts) =>
              some (.ok { s with sched.contexts := contexts, doing := s.nowDoing (.calling id) })
          -- The error is handed to the function that made the call.
          | (.error _, contexts) => some (.ok { s with sched.contexts := contexts })
      | _ => none
  | .fuseSwitch =>
      match s.doing s.current with
      | .calling callee => some ((s.sched.fuseSwitch callee).map fun sched =>
          { s with
            doing := s.nowDoing (.fusing callee)
            sched
            pitTicks := 0
            trace := s.trace ++ [.select callee] })
      | _ => none
  | .resume =>
      match s.doing s.current with
      | .fusing callee =>
          match (s.sched.get? callee).bind Context.result with
          | none => some (.error (.panic "Callee did not return"))
          | some _ => some (.ok { s with
              doing := s.nowDoing .free
              sched := s.sched.modify callee fun c => { c with result := none } })
      | _ => none
  | .sysReturn values =>
      match s.doing s.current with
      | .free => some (.ok { s with
          doing := s.nowDoing .leaving
          sched := s.sched.modify s.current fun c => { c with result := some values } })
      | _ => none
  | .exit =>
      match s.doing s.current with
      | .free | .leaving => some ((s.sched.exit cpu s.clock).map fun sched =>
          { s with
            doing := s.nowDoing .exiting
            sched
            pitTicks := if ((s.sched.get? s.current).bind Context.retLink).isSome then s.pitTicks else 0
            trace := s.trace ++ [.select sched.contextId] })
      | _ => none
  | .fallOff =>
      match s.doing s.current with
      | .exiting => some (.error unreachable)
      | _ => none
  | .cast => some (.ok { s with sched.contexts :=
      (s.sched.contexts.insert { Context.new with status := .new }).2 })
  | .ask callid =>
      match s.doing s.current with
      | .free => some (.ok { s with
          doing := s.nowDoing (.asking callid)
          queue := Function.update s.queue callid (some s.current) })
      | _ => none
  | .check =>
      match s.doing s.current with
      | .asking callid => some (.ok { s with
          doing := s.nowDoing (.hosting callid)
          sched := s.sched.modify s.current fun c =>
            if c.result = none then { c with status := .blocked } else c })
      | _ => none
  | .leave =>
      match s.doing s.current, s.sched.get? s.current with
      | .hosting _, some c =>
          if c.status = .blocked then none
          else if c.result = none then some (.error (.panic "This shouldn't be empty."))
          else some (.ok { s with
            doing := s.nowDoing .free
            sched := s.sched.modify s.current fun c => { c with result := none } })
      | _, _ => none
  | .deliver callid values =>
      match s.queue callid with
      | none => some (.error (.panic ("Received result for unknown context id " ++ toString callid)))
      | some id => some (.ok { s with
          sched := s.sched.modify id fun c => { c with result := some values }.unblock.2
          queue := Function.update s.queue callid none
          trace := s.trace ++ [.unblock id] })
  | .sleep call =>
      match s.doing s.current, s.sched.get? s.current with
      | .free, some _ => some (.ok { s with
          doing := s.nowDoing (.entering (call.sleep s.clock))
          sched := s.sched.modify s.current fun c => (call.sleep s.clock).enter c
          trace := s.trace ++ [.sleep s.current (call.sleep s.clock) s.clock] })
      -- Without a context `wait` panics, and the others return an error.
      | .free, none =>
          match call with
          | .wait _ => some (.error (.panic "WaitCondition::wait: no context"))
          | .nanosleep .. | .sigreturn => some (.ok s)
      | _, _ => none
  | .push =>
      match s.doing s.current with
      | .entering (.wait condition) => some (.ok { s with
          doing := s.nowDoing (.queued condition)
          conditions := Function.update s.conditions condition (s.conditions condition ++ [s.current]) })
      | _ => none
  | .sleepSwitch =>
      match s.doing s.current with
      | .queued condition =>
          some (({ s with doing := s.nowDoing (.sleeping (.wait condition)) }.switch cpu).map Prod.snd)
      | .entering (.nanosleep wake) =>
          some (({ s with doing := s.nowDoing (.sleeping (.nanosleep wake)) }.switch cpu).map Prod.snd)
      | .entering .sigreturn =>
          some (({ s with doing := s.nowDoing (.sleeping .sigreturn) }.switch cpu).map Prod.snd)
      | _ => none
  | .wakeUp =>
      match s.doing s.current with
      | .sleeping .sigreturn => some (.error unreachable)
      | .sleeping (.nanosleep _) => some (.ok { s with
          doing := s.nowDoing .free
          trace := s.trace ++ [.wakeUp s.current] })
      | .sleeping (.wait condition) => some (.ok { s with
          doing := s.nowDoing .free
          conditions := Function.update s.conditions condition ((s.conditions condition).erase s.current)
          trace := s.trace ++ [.wakeUp s.current] })
      | _ => none
  | .notify condition => some (.ok { s with
      sched := s.sched.unblockAll (s.conditions condition)
      conditions := Function.update s.conditions condition []
      trace := s.trace ++ (s.conditions condition).reverse.map .unblock })

def Step (cpu : Nat) (s s' : Cpu) : Prop := ∃ a, s.perform cpu a = some (.ok s')

/-- Another context can be switched to. -/
def OtherRunnable (cpu : Nat) (s : Cpu) : Prop :=
  ∃ id c, id ≠ s.current ∧ s.sched.get? id = some c ∧ runnable cpu (update cpu s.clock c) = true

theorem otherRunnable_iff {cpu : Nat} {s : Cpu} : (s.sched.contexts.map.entries.any fun e =>
    e.1 ≠ s.current && runnable cpu (update cpu s.clock e.2)) = true ↔ s.OtherRunnable cpu := by
  simp only [List.any_eq_true, Bool.and_eq_true, decide_eq_true_eq]
  constructor
  · rintro ⟨⟨id, c⟩, hmem, hne, hrunnable⟩
    exact ⟨id, c, hne, OrdMap.mem_entries.mp hmem, hrunnable⟩
  · rintro ⟨id, c, hne, hc, hrunnable⟩
    exact ⟨(id, c), OrdMap.mem_entries.mpr hc, hne, hrunnable⟩

instance (cpu : Nat) (s : Cpu) : Decidable (s.OtherRunnable cpu) := decidable_of_iff _ otherRunnable_iff

/-- A run of moves, each of which passes a test. -/
def runMoves (cpu : Nat) (test : Cpu → CpuMove → Bool) (s : Cpu) (moves : List CpuMove) : Option Cpu :=
  moves.foldlM (fun s a => if test s a then (s.perform cpu a).bind Except.toOption else none) s

theorem reaches_of_runMoves {cpu : Nat} {test : Cpu → CpuMove → Bool} {R : Cpu → Cpu → Prop} {s s' : Cpu}
    {moves : List CpuMove}
    (sound : ∀ s a s', test s a = true → s.perform cpu a = some (.ok s') → R s s')
    (h : runMoves cpu test s moves = some s') : Relation.ReflTransGen R s s' := by
  refine reaches_of_foldlM (fun a _ x y hact => ?_) h
  split at hact
  · next htest =>
    obtain ⟨r, hperform, hok⟩ := Option.bind_eq_some_iff.mp hact
    cases r with
    | error halt => cases hok
    | ok z =>
      cases hok
      exact sound x a _ htest hperform
  · cases hact

/-- The moves by their premises, each with what it leads to. -/
inductive Moves (cpu : Nat) (s : Cpu) : CpuMove → Cpu → Prop where
  | tick : Moves cpu s .pit s.tick
  | pit {r : Bool} {s' : Cpu} : s.tick.switch cpu = .ok (r, s') → Moves cpu s .pit s'
  | yield {r : Bool} {s' : Cpu} :
      s.doing s.current = .free ∨ (∃ callid, s.doing s.current = .hosting callid) →
      s.switch cpu = .ok (r, s') → Moves cpu s .yield s'
  | call {id : Nat} {contexts : ContextList} : s.doing s.current = .free →
      s.sched.contexts.insert s.sched.callee = (.ok id, contexts) →
      Moves cpu s .call { s with sched.contexts := contexts, doing := s.nowDoing (.calling id) }
  | full {message : String} {contexts : ContextList} :
      s.sched.contexts.insert s.sched.callee = (.error message, contexts) →
      Moves cpu s .call { s with sched.contexts := contexts }
  | fuseSwitch {callee : Nat} {sched : Scheduler} : s.doing s.current = .calling callee →
      s.sched.fuseSwitch callee = .ok sched →
      Moves cpu s .fuseSwitch { s with
        doing := s.nowDoing (.fusing callee)
        sched, pitTicks := 0, trace := s.trace ++ [.select callee] }
  | resume {callee : Nat} {c : Context} : s.doing s.current = .fusing callee →
      s.sched.get? callee = some c → c.result ≠ none →
      Moves cpu s .resume { s with
        doing := s.nowDoing .free
        sched := s.sched.modify callee fun c => { c with result := none } }
  | sysReturn {values : List UInt8} : s.doing s.current = .free →
      Moves cpu s (.sysReturn values) { s with
        doing := s.nowDoing .leaving
        sched := s.sched.modify s.current fun c => { c with result := some values } }
  | exit {sched : Scheduler} {ticks : Nat} :
      s.doing s.current = .free ∨ s.doing s.current = .leaving →
      s.sched.exit cpu s.clock = .ok sched →
      Moves cpu s .exit { s with
        doing := s.nowDoing .exiting
        sched, pitTicks := ticks, trace := s.trace ++ [.select sched.contextId] }
  | cast : Moves cpu s .cast { s with sched.contexts :=
      (s.sched.contexts.insert { Context.new with status := .new }).2 }
  | ask {callid : Nat} : s.doing s.current = .free →
      Moves cpu s (.ask callid) { s with
        doing := s.nowDoing (.asking callid)
        queue := Function.update s.queue callid (some s.current) }
  | check {callid : Nat} : s.doing s.current = .asking callid →
      Moves cpu s .check { s with
        doing := s.nowDoing (.hosting callid)
        sched := s.sched.modify s.current fun c =>
          if c.result = none then { c with status := .blocked } else c }
  | leave {callid : Nat} {c : Context} : s.doing s.current = .hosting callid →
      s.sched.get? s.current = some c → c.status ≠ .blocked → c.result ≠ none →
      Moves cpu s .leave { s with
        doing := s.nowDoing .free
        sched := s.sched.modify s.current fun c => { c with result := none } }
  | deliver {callid id : Nat} {values : List UInt8} : s.queue callid = some id →
      Moves cpu s (.deliver callid values) { s with
        sched := s.sched.modify id fun c => { c with result := some values }.unblock.2
        queue := Function.update s.queue callid none
        trace := s.trace ++ [.unblock id] }
  | sleep {call : SleepCall} {c : Context} : s.doing s.current = .free →
      s.sched.get? s.current = some c →
      Moves cpu s (.sleep call) { s with
        doing := s.nowDoing (.entering (call.sleep s.clock))
        sched := s.sched.modify s.current fun c => (call.sleep s.clock).enter c
        trace := s.trace ++ [.sleep s.current (call.sleep s.clock) s.clock] }
  | sleepFailed {call : SleepCall} : s.sched.get? s.current = none → Moves cpu s (.sleep call) s
  | push {condition : Nat} : s.doing s.current = .entering (.wait condition) →
      Moves cpu s .push { s with
        doing := s.nowDoing (.queued condition)
        conditions := Function.update s.conditions condition (s.conditions condition ++ [s.current]) }
  | sleepSwitch {sleep : Sleep} {r : Bool} {s' : Cpu} :
      s.doing s.current = .entering sleep ∨
        (∃ condition, sleep = .wait condition ∧ s.doing s.current = .queued condition) →
      { s with doing := s.nowDoing (.sleeping sleep) }.switch cpu = .ok (r, s') →
      Moves cpu s .sleepSwitch s'
  | wakeUp {wake : Nat × Nat} : s.doing s.current = .sleeping (.nanosleep wake) →
      Moves cpu s .wakeUp { s with doing := s.nowDoing .free, trace := s.trace ++ [.wakeUp s.current] }
  | waited {condition : Nat} : s.doing s.current = .sleeping (.wait condition) →
      Moves cpu s .wakeUp { s with
        doing := s.nowDoing .free
        conditions := Function.update s.conditions condition ((s.conditions condition).erase s.current)
        trace := s.trace ++ [.wakeUp s.current] }
  | notify {condition : Nat} : Moves cpu s (.notify condition) { s with
      sched := s.sched.unblockAll (s.conditions condition)
      conditions := Function.update s.conditions condition []
      trace := s.trace ++ (s.conditions condition).reverse.map .unblock }

section Moves

@[simp] theorem nowDoing_self (s : Cpu) (d : Doing) : s.nowDoing d s.current = d := Function.update_self ..

/-- The timer changes nothing but the clock. -/
theorem tick_fields (s : Cpu) : s.tick.sched = s.sched ∧ s.tick.doing = s.doing ∧
    s.tick.queue = s.queue ∧ s.tick.conditions = s.conditions := by
  unfold tick
  exact ⟨rfl, rfl, rfl, rfl⟩

theorem nowDoing_of_ne {s : Cpu} {id : Nat} (h : id ≠ s.current) (d : Doing) :
    s.nowDoing d id = s.doing id := Function.update_of_ne h _ _

variable {cpu : Nat} {s s' : Cpu} {a : CpuMove} {α : Type} {x : Except Halt α}

theorem eq_ok_of_map {β : Type} {f : α → β} {y : β} (h : x.map f = .ok y) : ∃ z, x = .ok z ∧ f z = y := by
  cases x with
  | error halt => cases h
  | ok z =>
    cases h
    exact ⟨z, rfl, rfl⟩

theorem switched {t : Cpu} (h : (t.switch cpu).map Prod.snd = .ok s') :
    ∃ r, t.switch cpu = .ok (r, s') := by
  obtain ⟨⟨r, s''⟩, hswitch, hsnd⟩ := eq_ok_of_map h
  cases hsnd
  exact ⟨r, hswitch⟩

/-- The moves that end in a `switch`. -/
theorem moves_of_switch (ha : a = .pit ∨ a = .yield ∨ a = .sleepSwitch) (h : s.perform cpu a = some (.ok s')) :
    s.Moves cpu a s' := by
  rcases ha with rfl | rfl | rfl
  · have h := Option.some.inj h
    split at h
    · obtain ⟨r, hswitch⟩ := switched h
      exact .pit hswitch
    · cases h
      exact .tick
  · dsimp only [perform] at h
    split at h
    · next hfree =>
      obtain ⟨r, hswitch⟩ := switched (Option.some.inj h)
      exact .yield (.inl hfree) hswitch
    · next callid hhosting =>
      split at h
      · obtain ⟨r, hswitch⟩ := switched (Option.some.inj h)
        exact .yield (.inr ⟨callid, hhosting⟩) hswitch
      · cases h
    · cases h
  · dsimp only [perform] at h
    split at h
    · next condition hqueued =>
      obtain ⟨r, hswitch⟩ := switched (Option.some.inj h)
      exact .sleepSwitch (.inr ⟨condition, rfl, hqueued⟩) hswitch
    · next hentering =>
      obtain ⟨r, hswitch⟩ := switched (Option.some.inj h)
      exact .sleepSwitch (.inl hentering) hswitch
    · next hentering =>
      obtain ⟨r, hswitch⟩ := switched (Option.some.inj h)
      exact .sleepSwitch (.inl hentering) hswitch
    · cases h

/-- The moves of a fused call. -/
theorem moves_of_fused (ha : a = .call ∨ a = .fuseSwitch ∨ a = .resume ∨ a = .exit)
    (h : s.perform cpu a = some (.ok s')) : s.Moves cpu a s' := by
  rcases ha with rfl | rfl | rfl | rfl <;> dsimp only [perform] at h <;> split at h
  · next hfree =>
    split at h
    · next hinsert =>
      cases h
      exact .call hfree hinsert
    · next hinsert =>
      cases h
      exact .full hinsert
  · cases h
  · next hcalling =>
    obtain ⟨sched, hsched, rfl⟩ := eq_ok_of_map (Option.some.inj h)
    exact .fuseSwitch hcalling hsched
  · cases h
  · next hfusing =>
    split at h
    · cases h
    · next values hresult =>
      cases h
      obtain ⟨c, hc, hvalues⟩ := Option.bind_eq_some_iff.mp hresult
      exact .resume hfusing hc (by rw [hvalues]; simp)
  · cases h
  · next hfree =>
    obtain ⟨sched, hsched, rfl⟩ := eq_ok_of_map (Option.some.inj h)
    exact .exit (.inl hfree) hsched
  · next hleaving =>
    obtain ⟨sched, hsched, rfl⟩ := eq_ok_of_map (Option.some.inj h)
    exact .exit (.inr hleaving) hsched
  · cases h

/-- The moves of calls that wait, and of what they wait for. -/
theorem moves_of_wait (ha : a = .leave ∨ (∃ callid values, a = .deliver callid values) ∨
      (∃ call, a = .sleep call) ∨ a = .wakeUp)
    (h : s.perform cpu a = some (.ok s')) : s.Moves cpu a s' := by
  rcases ha with rfl | ⟨callid, values, rfl⟩ | ⟨call, rfl⟩ | rfl <;> dsimp only [perform] at h <;> split at h
  · next hhosting hc =>
    split at h
    · cases h
    · next hstatus =>
      split at h
      · cases h
      · next hresult =>
        cases h
        exact .leave hhosting hc hstatus hresult
  · cases h
  · cases h
  · next hqueue =>
    cases h
    exact .deliver hqueue
  · next hfree hc =>
    cases h
    exact .sleep hfree hc
  · next hnone =>
    split at h
    · cases h
    all_goals
      cases h
      exact .sleepFailed hnone
  · cases h
  · cases h
  · next hsleeping =>
    cases h
    exact .wakeUp hsleeping
  · next hsleeping =>
    cases h
    exact .waited hsleeping
  · cases h

theorem moves_of_perform (h : s.perform cpu a = some (.ok s')) : s.Moves cpu a s' := by
  cases a with
  | pit => exact moves_of_switch (.inl rfl) h
  | yield => exact moves_of_switch (.inr (.inl rfl)) h
  | sleepSwitch => exact moves_of_switch (.inr (.inr rfl)) h
  | call => exact moves_of_fused (.inl rfl) h
  | fuseSwitch => exact moves_of_fused (.inr (.inl rfl)) h
  | resume => exact moves_of_fused (.inr (.inr (.inl rfl))) h
  | exit => exact moves_of_fused (.inr (.inr (.inr rfl))) h
  | leave => exact moves_of_wait (.inl rfl) h
  | deliver callid values => exact moves_of_wait (.inr (.inl ⟨callid, values, rfl⟩)) h
  | sleep call => exact moves_of_wait (.inr (.inr (.inl ⟨call, rfl⟩))) h
  | wakeUp => exact moves_of_wait (.inr (.inr (.inr rfl))) h
  | fallOff =>
    dsimp only [perform] at h
    split at h <;> cases h
  | cast =>
    cases h
    exact .cast
  | notify condition =>
    cases h
    exact .notify
  -- What the context that runs does to itself.
  | sysReturn | ask | check | push =>
    dsimp only [perform] at h
    split at h
    · next hdoing =>
      cases h
      constructor
      exact hdoing
    · cases h

end Moves

end Cpu

/-! ### What a switch does to one context -/

namespace Scheduler

variable {cpu : Nat} {now : Nat × Nat} {s s' : Scheduler} {r : Bool} {id : Nat} {c c' : Context}

theorem get?_modify (s : Scheduler) (id k : Nat) (f : Context → Context) :
    (s.modify id f).get? k = if k = id then (s.get? k).map f else s.get? k := by
  split
  · next h =>
    subst h
    exact get?_modify_self
  · next h => exact get?_modify_of_ne h

/-- A context is left as it is, wakes up, loses control or gets it. -/
structure Switched (cpu : Nat) (now : Nat × Nat) (s s' : Scheduler) (id : Nat) (c c' : Context) : Prop where
  retLink : c'.retLink = c.retLink
  result : c'.result = c.result
  cpuId : c'.cpuId = c.cpuId.or (some cpu)
  /-- The one that is left does not keep the status `Running`. -/
  running : c'.status = .running → s'.contextId = id ∨ c.status = .running ∧ s.contextId ≠ id
  change :
    c'.status = c.status ∧ c'.wake = c.wake ∧ (s'.contextId = id → s.contextId = id) ∨
    c.status = .blocked ∧ (∃ wake, c.wake = some wake ∧ Due now wake) ∧ c'.wake = none ∧
      (c'.status = .runnable ∧ (s'.contextId = id → s.contextId = id) ∨
        c'.status = .running ∧ s'.contextId = id) ∨
    c.status = .running ∧ c'.status = .runnable ∧ c'.wake = c.wake ∧ s.contextId = id ∧
      s'.contextId ≠ id ∨
    (c.status = .runnable ∨ c.status = .new) ∧ c'.status = .running ∧ c'.wake = c.wake ∧
      s'.contextId = id

/-- What a context was like, of which it is known what it is like now. -/
theorem get_of_switch (h : s.switch cpu now = .ok (r, s')) (hc' : s'.get? id = some c') :
    ∃ c, s.get? id = some c ∧ Switched cpu now s s' id c c' := by
  obtain ⟨c, hc, hcases⟩ := of_switch h hc'
  refine ⟨c, hc, ?_⟩
  -- Nothing but the owner changes, or the context wakes up.
  rcases update_cases cpu now c with hsame | ⟨hblocked, hdue, hwoken⟩
  · rw [hsame] at hcases
    rcases hcases with ⟨rfl, hid⟩ | ⟨rfl, hrunnable, hid⟩ | ⟨rfl, hid, hnot⟩
    · refine ⟨rfl, rfl, rfl, fun hrunning => ?_, .inl ⟨rfl, rfl, hid.mp⟩⟩
      by_cases hleft : s.contextId = id
      · exact .inl (hid.mpr hleft)
      · exact .inr ⟨hrunning, hleft⟩
    · have hready := (Bool.and_eq_true_iff.mp hrunnable).1
      simp only [Bool.or_eq_true, decide_eq_true_eq] at hready
      exact ⟨rfl, rfl, rfl, fun _ => .inl hid, .inr (.inr (.inr ⟨hready, rfl, rfl, hid⟩))⟩
    · rw [preempt]
      split
      · next hrunning =>
        exact ⟨rfl, rfl, rfl, by simp, .inr (.inr (.inl ⟨hrunning, rfl, rfl, hid, hnot⟩))⟩
      · next hother =>
        exact ⟨rfl, rfl, rfl, fun hrunning => absurd hrunning hother,
          .inl ⟨rfl, rfl, fun h => absurd h hnot⟩⟩
  · rw [hwoken] at hcases
    rcases hcases with ⟨rfl, hid⟩ | ⟨rfl, -, hid⟩ | ⟨rfl, -, hnot⟩
    · exact ⟨rfl, rfl, rfl, by simp, .inr (.inl ⟨hblocked, hdue, rfl, .inl ⟨rfl, hid.mp⟩⟩)⟩
    · exact ⟨rfl, rfl, rfl, fun _ => .inl hid, .inr (.inl ⟨hblocked, hdue, rfl, .inr ⟨rfl, hid⟩⟩)⟩
    · exact ⟨rfl, rfl, rfl, by simp [preempt], .inr (.inl ⟨hblocked, hdue, rfl, .inl ⟨rfl, fun h => absurd h hnot⟩⟩)⟩

theorem switch_get (h : s.switch cpu now = .ok (r, s')) (hc : s.get? id = some c) :
    ∃ c', s'.get? id = some c' ∧ Switched cpu now s s' id c c' := by
  have hsome := isSome_switch h id
  rw [hc] at hsome
  obtain ⟨c', hc'⟩ := Option.isSome_iff_exists.mp hsome
  obtain ⟨c₀, hc₀, hswitched⟩ := get_of_switch h hc'
  cases hc.symm.trans hc₀
  exact ⟨c', hc', hswitched⟩

/-- A context that is blocked for good stays as it is. -/
theorem Switched.blocked {now : Nat × Nat} (h : Switched cpu now s s' id c c') (hstatus : c.status = .blocked)
    (hwake : ∀ wake, c.wake = some wake → ¬ Due now wake) :
    c'.status = .blocked ∧ c'.wake = c.wake ∧ (s'.contextId = id → s.contextId = id) := by
  rcases h.change with ⟨hsame, hwake', hid⟩ | ⟨-, ⟨wake, hsome, hdue⟩, -⟩ | ⟨hrunning, -⟩ | ⟨hready, -⟩
  · exact ⟨hsame.trans hstatus, hwake', hid⟩
  · exact absurd hdue (hwake wake hsome)
  · rw [hstatus] at hrunning
    cases hrunning
  · rw [hstatus] at hready
    rcases hready with hready | hready <;> cases hready

theorem Switched.exited {now : Nat × Nat} (h : Switched cpu now s s' id c c') (hstatus : c.status = .exited) :
    c'.status = .exited ∧ (s'.contextId = id → s.contextId = id) := by
  rcases h.change with ⟨hsame, -, hid⟩ | ⟨hblocked, -⟩ | ⟨hrunning, -⟩ | ⟨hready, -⟩
  · exact ⟨hsame.trans hstatus, hid⟩
  · rw [hstatus] at hblocked
    cases hblocked
  · rw [hstatus] at hrunning
    cases hrunning
  · rw [hstatus] at hready
    rcases hready with hready | hready <;> cases hready

/-- Whatever is switched to runs. -/
theorem switch_current (h : s.switch cpu now = .ok (true, s')) :
    s'.contextId ≠ s.contextId ∧ ∃ c, s'.get? s'.contextId = some c ∧ c.status = .running := by
  rcases switch_cases h with ⟨hfalse, -⟩ | ⟨-, toId, c, hne, -, -, hid, hto, -, -⟩
  · cases hfalse
  · subst hid
    exact ⟨hne, _, hto, rfl⟩

theorem get?_exited (s : Scheduler) (id : Nat) : s.exited.get? id =
    if id = s.contextId then (s.get? id).map fun c => { c with status := .exited, retLink := none }
    else s.get? id :=
  get?_modify ..

theorem unblock_eq (c : Context) :
    c.unblock.2 = { c with status := if c.status = .blocked then .runnable else c.status } := by
  rw [Context.unblock]
  split
  · rfl
  · rfl

theorem block_eq (c : Context) :
    c.block.2 = { c with status := if c.status = .runnable then .blocked else c.status } := by
  rw [Context.block]
  split
  · rfl
  · rfl

/-- `fuse_return` changes nothing but the status of the two. -/
theorem get?_fuseReturn (s : Scheduler) (fromId toId id : Nat) :
    (s.fuseReturn fromId toId).get? id = (s.get? id).map fun c => { c with
      status := if id = toId then .running
        else if id = fromId ∧ c.status = .blocked then .runnable else c.status } := by
  have hto := get?_modify (s.modify fromId fun c => c.unblock.2) toId id fun c => { c with status := .running }
  rw [get?_modify s] at hto
  refine hto.trans ?_
  cases s.get? id with
  | none => simp
  | some c =>
    by_cases hfrom : id = fromId
    · subst hfrom
      by_cases hto : id = toId
      · simp [hto, unblock_eq]
      · simp [hto, unblock_eq]
    · by_cases hto : id = toId
      · subst hto
        simp [hfrom]
      · simp [hto, hfrom]

/-- `notify` changes nothing but the status of the contexts. -/
theorem get?_unblockAll (s : Scheduler) (ids : List Nat) (id : Nat) :
    (s.unblockAll ids).get? id = (s.get? id).map fun c => { c with
      status := if id ∈ ids ∧ c.status = .blocked then .runnable else c.status } := by
  induction ids with
  | nil => simp [unblockAll]
  | cons k ids ih =>
    have hcons : s.unblockAll (k :: ids) = (s.unblockAll ids).modify k fun c => c.unblock.2 := rfl
    rw [hcons, get?_modify, ih]
    cases s.get? id with
    | none => simp
    | some c =>
      by_cases hid : id = k
      · subst hid
        by_cases hblocked : c.status = .blocked
        · by_cases hmem : id ∈ ids
          · simp [unblock_eq, hblocked, hmem]
          · simp [unblock_eq, hblocked, hmem]
        · simp [unblock_eq, hblocked]
      · simp [hid]

@[simp] theorem contextId_unblockAll (s : Scheduler) (ids : List Nat) :
    (s.unblockAll ids).contextId = s.contextId := by
  induction ids with
  | nil => rfl
  | cons k ids ih => exact ih

/-- `fuse_switch` changes nothing but the status of the two. -/
theorem get?_fuseSwitch (s : Scheduler) (callee caller id : Nat) :
    ((s.setStatus callee .running).modify caller fun c => c.block.2).get? id =
      (s.get? id).map fun c => { c with
        status := if id = callee then .running
          else if id = caller ∧ c.status = .runnable then .blocked else c.status } := by
  rw [get?_modify, setStatus, get?_modify]
  cases s.get? id with
  | none => simp
  | some c =>
    by_cases hcaller : id = caller
    · subst hcaller
      by_cases hcallee : id = callee
      · simp [hcallee, block_eq]
      · simp [hcallee, block_eq]
    · by_cases hcallee : id = callee
      · subst hcallee
        simp [hcaller]
      · simp [hcaller, hcallee]

end Scheduler

/-- Going to sleep changes the status and the wake time. -/
theorem Sleep.enter_eq (c : Context) (sleep : Sleep) :
    sleep.enter c = { c with
      wake := sleep.wake.or c.wake
      status := if c.status = .runnable then .blocked else c.status } := by
  cases sleep with
  | nanosleep wake => exact Scheduler.block_eq _
  | wait condition => exact Scheduler.block_eq _
  | sigreturn => exact Scheduler.block_eq _

end Faastr.Sched
