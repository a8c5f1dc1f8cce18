import Faastr.Sched.Books
import Faastr.Sched.HostCall
import Faastr.Sched.Running

/-!
The steps of the kernel on one CPU, and those of calls to the host, are runs of the actions on
contexts.

* `Cpu.actions_of_moves`, `HostCalls.actions_of_step`: the actions that a step is made of.
* `Cpu.oneRunning_of_run`, `HostCalls.oneRunning_of_run`: so at most one context is running, where no
  context with that status makes a fused call.
-/

namespace Faastr.Sched

open Faastr.Lib Relation

namespace Scheduler

variable {cpu : Nat} {s s' : Scheduler}

/-- An action other than `fuse_switch` is always possible. -/
theorem guardedStep_of_perform {a : Action} (ha : ∀ callee, a ≠ .fuseSwitch callee)
    (h : a.perform cpu s = .ok s') : ReflTransGen (GuardedStep cpu) s s' := by
  refine .single ⟨a, ?_, ?_, h⟩
  · cases a with
    | fuseSwitch callee => exact absurd rfl (ha callee)
    | _ => trivial
  · cases a with
    | fuseSwitch callee => exact absurd rfl (ha callee)
    | _ => trivial

theorem actions_unblockAll (s : Scheduler) (ids : List Nat) :
    ReflTransGen (GuardedStep cpu) s (s.unblockAll ids) := by
  induction ids with
  | nil => exact .refl
  | cons id ids ih => exact ih.trans (guardedStep_of_perform (a := .unblock id) (by simp) rfl)

end Scheduler

namespace Cpu

variable {cpu : Nat} {s s' : Cpu} {a : CpuMove}

theorem actions_of_switch {t : Cpu} {r : Bool} (h : t.switch cpu = .ok (r, s')) (hsched : t.sched = s.sched) :
    ReflTransGen (Scheduler.GuardedStep cpu) s.sched s'.sched := by
  obtain ⟨⟨r', sched⟩, hswitch, heq⟩ := eq_ok_of_map h
  cases heq
  rw [← hsched]
  exact Scheduler.guardedStep_of_perform (a := .switch t.clock) (by simp) (by rw [Action.perform, hswitch]; rfl)

/-- **A move on a CPU is made of actions.** -/
theorem actions_of_moves (h : s.Sound) (hmove : s.Moves cpu a s')
    (hguard : a = .fuseSwitch → (s.sched.get? s.current).map Context.status ≠ some .running) :
    ReflTransGen (Scheduler.GuardedStep cpu) s.sched s'.sched := by
  cases hmove with
  | tick =>
    rw [(tick_fields s).1]
  | pit hs => exact actions_of_switch hs (tick_fields s).1
  | yield _ hs => exact actions_of_switch hs rfl
  | sleepSwitch _ hs => exact actions_of_switch hs rfl
  | call _ hinsert =>
    exact Scheduler.guardedStep_of_perform (a := .fuse) (by simp) (by rw [Action.perform, hinsert])
  | full hinsert =>
    exact Scheduler.guardedStep_of_perform (a := .fuse) (by simp) (by rw [Action.perform, hinsert])
  | @fuseSwitch callee sched hcalling hsched =>
    obtain ⟨-, -, c, hc, -, -, hlink⟩ := h.calling _ _ hcalling
    exact .single ⟨.fuseSwitch callee, by rw [Action.Allowed, hc, Option.bind_some, hlink]; rfl, hguard rfl, hsched⟩
  | @resume callee => exact Scheduler.guardedStep_of_perform (a := .take callee) (by simp) rfl
  | @sysReturn values => exact Scheduler.guardedStep_of_perform (a := .sysReturn values) (by simp) rfl
  | exit _ hsched => exact Scheduler.guardedStep_of_perform (a := .exit s.clock) (by simp) hsched
  | cast => exact Scheduler.guardedStep_of_perform (a := .cast) (by simp) rfl
  | check => exact Scheduler.guardedStep_of_perform (a := .ivshrpcFuse s.current) (by simp) rfl
  | leave => exact Scheduler.guardedStep_of_perform (a := .take s.current) (by simp) rfl
  | @deliver callid id values => exact Scheduler.guardedStep_of_perform (a := .isr id values) (by simp) rfl
  | sleep =>
    cases SleepCall.sleep s.clock _ with
    | nanosleep wake => exact Scheduler.guardedStep_of_perform (a := .nanosleep wake) (by simp) rfl
    | wait condition => exact Scheduler.guardedStep_of_perform (a := .block s.current) (by simp) rfl
    | sigreturn => exact Scheduler.guardedStep_of_perform (a := .block s.current) (by simp) rfl
  | notify => exact Scheduler.actions_unblockAll ..
  | ask | sleepFailed | push | wakeUp | waited => exact .refl

/-- At most one context is running, in runs in which no context with that status makes a fused
call. -/
theorem oneRunning_of_run (run : ReflTransGen (fun s s' => ∃ a,
      (a = .fuseSwitch → (s.sched.get? s.current).map Context.status ≠ some .running) ∧
        s.perform cpu a = some (.ok s')) (boot cpu) s) : s.sched.OneRunning := by
  have hinv : s.Sound ∧ s.sched.OneRunning := by
    refine invariant_of_step (fun s => s.Sound ∧ s.sched.OneRunning) run
      ⟨sound_boot cpu, Scheduler.oneRunning_boot cpu⟩ ?_
    rintro s s' ⟨hsound, hone⟩ ⟨a, hguard, hperform⟩
    have hmove := moves_of_perform hperform
    exact ⟨hsound.step hmove, invariant_of_step Scheduler.OneRunning (actions_of_moves hsound hmove hguard) hone
      fun _ _ h => h.step⟩
  exact hinv.2

end Cpu

namespace HostCalls

variable {cpu : Nat} {s s' : HostCalls}

/-- **A move of a call to the host is made of actions.** -/
theorem actions_of_step (h : Step cpu s s') : ReflTransGen (Scheduler.GuardedStep cpu) s.sched s'.sched := by
  obtain ⟨a, hperform⟩ := h
  cases a with
  | switch now =>
    obtain ⟨⟨r, sched⟩, hswitch, rfl⟩ := Cpu.eq_ok_of_map (Option.some.inj hperform)
    exact Scheduler.guardedStep_of_perform (a := .switch now) (by simp) (by rw [Action.perform, hswitch]; rfl)
  | cast =>
    cases hperform
    exact Scheduler.guardedStep_of_perform (a := .cast) (by simp) rfl
  | check id =>
    dsimp only [perform] at hperform
    split at hperform <;> cases hperform
    exact Scheduler.guardedStep_of_perform (a := .ivshrpcFuse id) (by simp) rfl
  | leave id =>
    dsimp only [perform] at hperform
    split at hperform
    · split at hperform
      · cases hperform
      · split at hperform <;> cases hperform
        exact Scheduler.guardedStep_of_perform (a := .take id) (by simp) rfl
    · cases hperform
  | deliver =>
    dsimp only [perform] at hperform
    split at hperform <;> cases hperform
    next id values _ => exact Scheduler.guardedStep_of_perform (a := .isr id values) (by simp) rfl
  | receive =>
    dsimp only [perform] at hperform
    split at hperform
    · split at hperform <;> cases hperform
      exact .refl
    · cases hperform
  | call | register | send | answer =>
    dsimp only [perform] at hperform
    split at hperform <;> cases hperform
    exact .refl

/-- At most one context is running while contexts wait for the host. -/
theorem oneRunning_of_run (run : ReflTransGen (Step cpu) (boot cpu) s) : s.sched.OneRunning :=
  invariant_of_step (fun s => s.sched.OneRunning) run (Scheduler.oneRunning_boot cpu) fun _ _ hone hstep =>
    invariant_of_step Scheduler.OneRunning (actions_of_step hstep) hone fun _ _ h => h.step

end HostCalls

end Faastr.Sched
