import Faastr.Lib.Transition
import Faastr.Sched.Switch

/-!
Who runs: the statuses of contexts against `CONTEXT_ID`.

The steps are the operations that change contexts or `CONTEXT_ID`, at any time and for any context:
`switch`, the two halves of a fused call, `exit`, `block` and `unblock`, the insertion of a
context by a cast, and the two ends of a call to the host. What the kernel does on one CPU, and
what calls to the host do, are runs of them (`Cpu.actions_of_moves`, `HostCalls.actions_of_step`).

* `one_running`: a context that has the status `Running` is the one that runs, as long
  as no context with that status makes a fused call.
* `fused_call_two_running`: the caller of a fused call keeps its status. `fuse_switch`
  calls `Context::block`, which blocks a context that is `Runnable` and no other.
-/

namespace Faastr.Sched

open Faastr.Lib Relation

inductive Action where
  | switch (now : Nat × Nat)
  /-- `fuse_inner` inserts the callee. -/
  | fuse
  /-- And switches to it. -/
  | fuseSwitch (callee : Nat)
  /-- `sys_return` stores the result, before it exits. -/
  | sysReturn (values : List UInt8)
  | exit (now : Nat × Nat)
  | block (id : Nat)
  | unblock (id : Nat)
  | cast
  /-- `nanosleep` sets the time to wake up, and blocks. -/
  | nanosleep (wake : Nat × Nat)
  /-- `ivshrpc_fuse` waits for the host. -/
  | ivshrpcFuse (id : Nat)
  /-- `isr` delivers an answer of the host. -/
  | isr (id : Nat) (values : List UInt8)
  /-- The result of a callee, or of a call to the host, is taken. -/
  | take (id : Nat)
deriving DecidableEq, Repr

namespace Action

variable (cpu : Nat)

def perform (s : Scheduler) : Action → Except Halt Scheduler
  | switch now => (s.switch cpu now).map Prod.snd
  | fuse => .ok { s with contexts := (s.contexts.insert s.callee).2 }
  | fuseSwitch callee => s.fuseSwitch callee
  | sysReturn values => .ok (s.modify s.contextId fun c => { c with result := some values })
  | exit now => s.exit cpu now
  | block id => .ok (s.modify id fun c => c.block.2)
  | unblock id => .ok (s.modify id fun c => c.unblock.2)
  | cast => .ok { s with contexts := (s.contexts.insert { Context.new with status := .new }).2 }
  | nanosleep wake => .ok (s.modify s.contextId fun c => { c with wake := some wake }.block.2)
  | ivshrpcFuse id => .ok (s.modify id fun c =>
      if c.result = none then { c with status := .blocked } else c)
  | isr id values => .ok (s.modify id fun c => { c with result := some values }.unblock.2)
  | take id => .ok (s.modify id fun c => { c with result := none })

/-- A context switches to its own callees. -/
def Allowed (s : Scheduler) : Action → Prop
  | fuseSwitch callee => (s.get? callee).bind Context.retLink = some s.contextId
  | _ => True

/-- A fused call is made by a context that does not have the status `Running`. -/
def Guarded (s : Scheduler) : Action → Prop
  | fuseSwitch _ => (s.get? s.contextId).map Context.status ≠ some .running
  | _ => True

instance (s : Scheduler) : (a : Action) → Decidable (Allowed s a)
  | fuseSwitch callee =>
      inferInstanceAs (Decidable ((s.get? callee).bind Context.retLink = some s.contextId))
  | switch _ | fuse | sysReturn _ | exit _ | block _ | unblock _ | cast | nanosleep _ | ivshrpcFuse _ | isr _ _
  | take _ => inferInstanceAs (Decidable True)

instance (s : Scheduler) : (a : Action) → Decidable (Guarded s a)
  | fuseSwitch _ => inferInstanceAs (Decidable ((s.get? s.contextId).map Context.status ≠ some .running))
  | switch _ | fuse | sysReturn _ | exit _ | block _ | unblock _ | cast | nanosleep _ | ivshrpcFuse _ | isr _ _
  | take _ => inferInstanceAs (Decidable True)

end Action

namespace Scheduler

/-- One step of the kernel. -/
def Step (cpu : Nat) (s s' : Scheduler) : Prop :=
  ∃ a : Action, a.Allowed s ∧ a.perform cpu s = .ok s'

def GuardedStep (cpu : Nat) (s s' : Scheduler) : Prop :=
  ∃ a : Action, a.Allowed s ∧ a.Guarded s ∧ a.perform cpu s = .ok s'

/-- At most one context has the status `Running`, and it is the one that runs. -/
def OneRunning (s : Scheduler) : Prop :=
  ∀ id c, s.get? id = some c → c.status = .running → id = s.contextId

section OneRunning

variable {cpu : Nat} {now : Nat × Nat} {s s' : Scheduler}

/-- Where nothing starts to run, nothing is lost. -/
theorem OneRunning.modify (h : s.OneRunning) (id : Nat) {f : Context → Context}
    (hf : ∀ c, (f c).status = .running → c.status = .running) : (s.modify id f).OneRunning := by
  intro id' c' hget hrunning
  by_cases hid : id' = id
  · subst hid
    rw [get?_modify_self] at hget
    obtain ⟨c, hc, rfl⟩ := Option.map_eq_some_iff.mp hget
    exact h id' c hc (hf c hrunning)
  · rw [get?_modify_of_ne hid] at hget
    exact h id' c' hget hrunning

theorem OneRunning.insert (h : s.OneRunning) {c : Context} (hc : c.status ≠ .running) :
    OneRunning { s with contexts := (s.contexts.insert c).2 } := by
  intro id' c' hget hrunning
  rcases ContextList.inserted_cases hget with ⟨-, rfl⟩ | hget
  · exact absurd hrunning hc
  · exact h id' c' hget hrunning

theorem update_running {c : Context} (h : (update cpu now c).status = .running) :
    c.status = .running := by
  rcases update_cases cpu now c with hsame | ⟨-, -, hwoken⟩
  · rwa [hsame] at h
  · rw [hwoken] at h
    cases h

theorem preempt_not_running (c : Context) : (preempt c).status ≠ .running := by
  rw [preempt]
  split
  · simp
  · next h => exact h

theorem OneRunning.switch {r : Bool} (h : s.OneRunning) (hs : s.switch cpu now = .ok (r, s')) :
    s'.OneRunning := by
  intro id c' hget hrunning
  by_contra hto
  obtain ⟨c, hc, hcases⟩ := of_switch hs hget
  rcases hcases with ⟨rfl, hid⟩ | ⟨-, -, hid⟩ | ⟨rfl, -⟩
  · exact hto (hid.mpr (h id c hc (update_running hrunning)).symm).symm
  · exact hto hid.symm
  · exact preempt_not_running _ hrunning

/-- When no context has the status, one can be given it. -/
theorem oneRunning_start {toId : Nat} (h : ∀ id c, s.get? id = some c → c.status ≠ .running) :
    OneRunning { s.setStatus toId .running with contextId := toId } := by
  intro id c' hget hrunning
  by_contra hid
  have hget : (s.setStatus toId .running).get? id = some c' := hget
  rw [setStatus, get?_modify_of_ne hid] at hget
  exact h id c' hget hrunning

theorem unblock_running {c : Context} (h : c.unblock.2.status = .running) : c.status = .running := by
  rw [Context.unblock_status] at h
  split at h
  · cases h
  · exact h

theorem block_running {c : Context} (h : c.block.2.status = .running) : c.status = .running := by
  rw [Context.block_status] at h
  split at h
  · cases h
  · exact h

/-- The context that runs is marked as exited, so that none is running. -/
theorem OneRunning.exited (h : s.OneRunning) {id : Nat} {c : Context}
    (hget : s.exited.get? id = some c) : c.status ≠ .running := by
  intro hrunning
  rw [Scheduler.exited] at hget
  by_cases hid : id = s.contextId
  · rw [hid, get?_modify_self] at hget
    obtain ⟨c₀, -, rfl⟩ := Option.map_eq_some_iff.mp hget
    cases hrunning
  · rw [get?_modify_of_ne hid] at hget
    exact hid (h id c hget hrunning)

theorem OneRunning.exit (h : s.OneRunning) (hs : s.exit cpu now = .ok s') : s'.OneRunning := by
  obtain ⟨c, -, ⟨parent, -, rfl⟩ | ⟨-, -, hswitch⟩⟩ := exit_cases hs
  · refine oneRunning_start fun id c hget hrunning => ?_
    by_cases hid : id = s.contextId
    · subst hid
      rw [get?_modify_self] at hget
      obtain ⟨c₀, hc₀, rfl⟩ := Option.map_eq_some_iff.mp hget
      exact h.exited hc₀ (unblock_running hrunning)
    · rw [get?_modify_of_ne hid] at hget
      exact h.exited hget hrunning
  · refine OneRunning.switch (fun id c hget hrunning => ?_) hswitch
    exact absurd hrunning (h.exited hget)

theorem OneRunning.fuseSwitch {toId : Nat} (h : s.OneRunning)
    (hguard : (s.get? s.contextId).map Context.status ≠ some .running)
    (hs : s.fuseSwitch toId = .ok s') : s'.OneRunning := by
  obtain ⟨caller, -, rfl⟩ := fuseSwitch_cases hs
  have hnone : ∀ id c, s.get? id = some c → c.status ≠ .running := by
    intro id c hget hrunning
    have hid := h id c hget hrunning
    rw [← hid, hget] at hguard
    exact hguard (congrArg some hrunning)
  exact (oneRunning_start hnone).modify caller fun _ => block_running

theorem oneRunning_boot (cpu : Nat) : (boot cpu).OneRunning := fun _ _ hget _ => (of_get?_boot hget).1

/-- Every guarded step keeps it. -/
theorem OneRunning.step (h : s.OneRunning) (hstep : GuardedStep cpu s s') : s'.OneRunning := by
  obtain ⟨a, -, hguard, hrun⟩ := hstep
  cases a with
  | switch now =>
    rw [Action.perform] at hrun
    cases hswitch : s.switch cpu now with
    | error halt =>
      rw [hswitch] at hrun
      cases hrun
    | ok r =>
      rw [hswitch] at hrun
      cases hrun
      exact h.switch hswitch
  | fuse =>
    cases hrun
    exact h.insert (by simp [callee, Context.new])
  | fuseSwitch toId => exact h.fuseSwitch hguard hrun
  | sysReturn values =>
    cases hrun
    exact h.modify _ fun _ hrunning => hrunning
  | exit now => exact h.exit hrun
  | block id =>
    cases hrun
    exact h.modify id fun _ => block_running
  | unblock id =>
    cases hrun
    exact h.modify id fun _ => unblock_running
  | cast =>
    cases hrun
    exact h.insert (by simp)
  | nanosleep wake =>
    cases hrun
    refine h.modify _ fun c hrunning => ?_
    have hbefore := block_running hrunning
    exact hbefore
  | take id =>
    cases hrun
    exact h.modify id fun _ hrunning => hrunning
  | ivshrpcFuse id =>
    cases hrun
    refine h.modify id fun c hrunning => ?_
    split at hrunning
    · cases hrunning
    · exact hrunning
  | isr id values =>
    cases hrun
    refine h.modify id fun c hrunning => ?_
    have hbefore := unblock_running hrunning
    exact hbefore

/-- **At most one context is running, and it is the one that runs**, in every run in
which no context that has the status `Running` makes a fused call. -/
theorem one_running (run : ReflTransGen (GuardedStep cpu) (boot cpu) s) : s.OneRunning :=
  invariant_of_step OneRunning run (oneRunning_boot cpu) fun _ _ h => h.step

end OneRunning

/-! ### Runs that can be evaluated -/

/-- A run of actions, each of which passes a test. -/
def runActions (cpu : Nat) (test : Scheduler → Action → Bool) (s : Scheduler)
    (actions : List Action) : Option Scheduler :=
  actions.foldlM (fun s a => if test s a then (a.perform cpu s).toOption else none) s

theorem reaches_of_runActions {cpu : Nat} {test : Scheduler → Action → Bool}
    {R : Scheduler → Scheduler → Prop} {s s' : Scheduler} {actions : List Action}
    (sound : ∀ s a s', test s a = true → a.perform cpu s = .ok s' → R s s')
    (h : runActions cpu test s actions = some s') : ReflTransGen R s s' := by
  refine reaches_of_foldlM (fun a _ x y hact => ?_) h
  split at hact
  · next htest =>
    cases hperform : a.perform cpu x with
    | error halt =>
      rw [hperform] at hact
      cases hact
    | ok z =>
      rw [hperform] at hact
      cases hact
      exact sound x a _ htest hperform
  · cases hact

/-- The main thread makes a fused call: both contexts have the status `Running`. -/
theorem fused_call_two_running : ∃ s, ReflTransGen (Step 0) (boot 0) s ∧
    (s.get? 1).map Context.status = some .running ∧
    (s.get? 2).map Context.status = some .running ∧ ¬ s.OneRunning := by
  have hrun : (runActions 0 (fun s a => decide (a.Allowed s)) (boot 0) [.fuse, .fuseSwitch 2]).map
      (fun s => ((s.get? 1).map Context.status, (s.get? 2).map Context.status)) =
        some (some .running, some .running) := by decide +kernel
  obtain ⟨s, hs, hstatus⟩ := Option.map_eq_some_iff.mp hrun
  obtain ⟨h₁, h₂⟩ := Prod.mk.injEq .. ▸ hstatus
  refine ⟨s, reaches_of_runActions (fun _ a _ h hperform => ⟨a, of_decide_eq_true h, hperform⟩) hs,
    h₁, h₂, fun hone => ?_⟩
  obtain ⟨c₁, hc₁, hs₁⟩ := Option.map_eq_some_iff.mp h₁
  obtain ⟨c₂, hc₂, hs₂⟩ := Option.map_eq_some_iff.mp h₂
  have hsame := (hone 1 c₁ hc₁ hs₁).trans (hone 2 c₂ hc₂ hs₂).symm
  cases hsame

/-- The main thread has an answer of the host while no other context runs, and so is `Runnable`. It
makes a fused call, and a context that was cast to is switched to meanwhile. -/
theorem cast_call_one_running : ∃ s : Scheduler, ReflTransGen (GuardedStep 0) (boot 0) s ∧
    (s.get? 1).map Context.status = some .blocked ∧ (s.get? 2).map Context.status = some .runnable ∧
    (s.get? 3).map Context.status = some .running ∧ s.OneRunning := by
  have hrun : (runActions 0 (fun s a => decide (a.Allowed s ∧ a.Guarded s)) (boot 0)
      [.ivshrpcFuse 1, .isr 1 [7], .take 1, .fuse, .fuseSwitch 2, .cast, .switch (0, 0)]).map
      (fun s => ((s.get? 1).map Context.status, (s.get? 2).map Context.status, (s.get? 3).map Context.status)) =
        some (some .blocked, some .runnable, some .running) := by decide +kernel
  obtain ⟨s, hs, hstatus⟩ := Option.map_eq_some_iff.mp hrun
  simp only [Prod.mk.injEq] at hstatus
  have hreach : ReflTransGen (GuardedStep 0) (boot 0) s := by
    refine reaches_of_runActions (fun s a s' h hperform => ?_) hs
    obtain ⟨hallowed, hguarded⟩ := of_decide_eq_true h
    exact ⟨a, hallowed, hguarded, hperform⟩
  exact ⟨s, hreach, hstatus.1, hstatus.2.1, hstatus.2.2, one_running hreach⟩

end Scheduler

end Faastr.Sched
