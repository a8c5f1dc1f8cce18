import Faastr.Sched.Stacks

/-!
The end of a context (`exit` in `kernel/src/syscall/process.rs`).

`exit` hands control to the context that called, or else to any context that `switch`
finds, and ends in `unreachable!()`. It gets there when `switch` finds no context, and when
a context that has exited is switched to again.

* `exit_unreachable_iff`: when `exit` gets to its end at once.
* `Follows.otherRunnable`: what the main thread is doing can be switched to, unless it is blocked.
* `exit_not_unreachable`: in runs in which the main thread is not blocked when a context that was
  not called exits, no exit gets to its end.
* `cast_exit_unreachable`: the main thread waits for the host, and so the first context that
  exits gets there.
-/

namespace Faastr.Sched

open Faastr.Lib Relation

namespace Cpu

/-- The contexts that the main thread goes through: context 1, the callee that it waits for, and
so on. -/
inductive OnMain (s : Cpu) : Nat → Prop where
  | main : OnMain s 1
  | callee {id callee : Nat} : OnMain s id → s.doing id = .fusing callee → OnMain s callee

/-- The context at the end of the main thread's fused calls is not blocked. -/
def MainReady (s : Cpu) : Prop :=
  ∀ id c, s.OnMain id → (∀ callee, s.doing id ≠ .fusing callee) → s.sched.get? id = some c → c.status ≠ .blocked

/-- What is asked of an exit without a context to return to, and of a fused call. -/
def ExitGuard (s : Cpu) : CpuMove → Prop
  | .exit => s.link s.current = none → s.MainReady
  | .fuseSwitch => s.CallerAwake
  | _ => True

def ExitStep (cpu : Nat) (s s' : Cpu) : Prop := ∃ a, s.ExitGuard a ∧ s.perform cpu a = some (.ok s')

section Exit

variable {cpu : Nat} {s s' : Cpu} {a : CpuMove} {T : Threads}

/-- Outside of fused calls the main thread is context 1. -/
theorem mainReady_of_free (hfree : s.doing 1 = .free)
    (hstatus : (s.sched.get? 1).map Context.status ≠ some .blocked) : s.MainReady := by
  have hone : ∀ {id}, s.OnMain id → id = 1 := by
    intro id hmain
    induction hmain with
    | main => rfl
    | callee _ hfusing ih =>
      subst ih
      cases hfree.symm.trans hfusing
  intro id c hmain _ hc hblocked
  obtain rfl := hone hmain
  exact hstatus (by rw [hc, Option.map_some, hblocked])

/-- A context of the processor that waits for its turn can be switched to. -/
theorem runnable_of_ready {c : Context} (now : Nat × Nat) (hstatus : c.status = .runnable ∨ c.status = .new)
    (hcpu : c.cpuId = none ∨ c.cpuId = some cpu) : runnable cpu (update cpu now c) = true := by
  rcases update_cases cpu now c with hsame | ⟨hblocked, -⟩
  · rw [hsame]
    rcases hstatus with hstatus | hstatus <;> rcases hcpu with hcpu | hcpu <;> simp [runnable, hstatus, hcpu]
  · rcases hstatus with hstatus | hstatus <;> cases hblocked.symm.trans hstatus

section Main

variable (h : s.Follows cpu T)

include h

/-- The top of the stack with context 1 is on the main thread. -/
theorem Follows.onMain {id : Nat} {callers : List Nat} (hchain : s.Chain id callers)
    (hstarted : ∀ k, s.doing k ≠ .calling id) (hmem : 1 ∈ id :: callers) : s.OnMain id := by
  induction callers generalizing id with
  | nil =>
    rw [← List.mem_singleton.mp hmem]
    exact .main
  | cons caller callers ih =>
    rcases List.mem_cons.mp hmem with rfl | hmem
    · exact .main
    · obtain ⟨hlink, hchain⟩ := hchain
      obtain ⟨hfusing, -⟩ := h.parent_waits hlink hstarted
      exact .callee (ih hchain (h.started_of_fusing hfusing) hmem) hfusing

/-- A context on top of a stack that does not run and is not blocked waits to be switched to. -/
theorem Follows.ready {id : Nat} {t : Thread} {c : Context} (ht : T id = some t) (hid : id ≠ s.current)
    (hc : s.sched.get? id = some c) (hblocked : role s.doing id = .plain → c.status ≠ .blocked) :
    c.status = .runnable ∨ c.status = .new := by
  have hfits := h.fits id c hc
  rcases h.top_role ht with hplain | hreturned
  · rw [hplain] at hfits
    have hrunning : c.status ≠ .running := fun hrunning => hid (hfits.2.1 hrunning).symm
    cases hstatus : c.status with
    | runnable => exact .inl rfl
    | new => exact .inr rfl
    | running => exact absurd hstatus hrunning
    | blocked => exact absurd hstatus (hblocked hplain)
    | exited => exact absurd hstatus hfits.1
  · rw [hreturned] at hfits
    exact .inl (hfits.resolve_right fun hcurrent => hid hcurrent.2.symm)

/-- **There is a context to go on with** when one that was not called exits: the one at the end of
the main thread's fused calls. -/
theorem Follows.otherRunnable (hready : s.MainReady) (hlink : s.link s.current = none) (hne : s.current ≠ 1) :
    s.OtherRunnable cpu := by
  obtain ⟨id, t, ht, hmem⟩ := h.main
  obtain ⟨⟨c, hc⟩, hstarted, -, hchain⟩ := h.tops id t ht
  have hid : id ≠ s.current := by
    rintro rfl
    rw [hchain.nil_of_link hlink] at hmem
    exact hne (List.mem_singleton.mp hmem).symm
  have hstatus := h.ready ht hid hc fun hplain =>
    hready id c (h.onMain hchain hstarted hmem) (not_fusing_of_plain hplain) hc
  exact ⟨id, c, hid, hc, runnable_of_ready s.clock hstatus (h.owned id c hc)⟩

end Main

section Last

variable {c : Context} (hc : s.sched.get? s.current = some c)

include hc

theorem get?_exited_current : s.sched.exited.get? s.sched.exited.contextId =
    some { c with status := .exited, retLink := none } :=
  (Scheduler.get?_exited ..).trans ((if_pos rfl).trans (congrArg _ hc))

/-- The last `switch` of `exit` finds a context if there is another that can run. -/
theorem exited_switch_iff :
    (∃ sched, s.sched.exited.switch cpu s.clock = .ok (true, sched)) ↔ s.OtherRunnable cpu := by
  have hother : ∀ {id : Nat}, id ≠ s.current → s.sched.exited.get? id = s.sched.get? id := fun hid =>
    (Scheduler.get?_exited ..).trans (if_neg hid)
  constructor
  · rintro ⟨sched, hswitch⟩
    rcases Scheduler.switch_cases hswitch with ⟨hfalse, -⟩ | ⟨-, id, c', hne, hc', hrunnable, -⟩
    · cases hfalse
    · exact ⟨id, c', hne, (hother hne).symm.trans hc', hrunnable⟩
  · rintro ⟨id, c', hne, hc', hrunnable⟩
    exact Scheduler.switch_of_runnable (get?_exited_current hc) hne ((hother hne).trans hc') hrunnable

/-- `exit` gets to its end when it has neither a caller nor another context to go on with. -/
theorem exit_unreachable_iff :
    s.sched.exit cpu s.clock = .error unreachable ↔
      c.retLink = none ∧ s.current ≠ 1 ∧ ¬ s.OtherRunnable cpu := by
  have hget : s.sched.get? s.sched.contextId = some c := hc
  unfold Scheduler.exit
  rw [hget]
  cases hlink : c.retLink with
  | some parent => simp [hlink]
  | none =>
    by_cases hone : s.sched.contextId = 1
    · have hone' : s.current = 1 := hone
      simp [hlink, hone, hone', unreachable]
    · have hone' : s.current ≠ 1 := hone
      obtain ⟨r, sched, hswitch⟩ := @Scheduler.switch_ok cpu s.clock _ _ (get?_exited_current hc)
      rw [← exited_switch_iff hc, hswitch]
      cases r with
      | true => simp [hlink, hone]
      | false => simp [hlink, hone, hone', unreachable]

end Last

theorem perform_exit {r : Except Halt Cpu} (h : s.perform cpu .exit = some r) :
    ∃ f : Scheduler → Cpu, (∀ sched, (f sched).sched = sched) ∧ r = (s.sched.exit cpu s.clock).map f := by
  dsimp only [perform] at h
  split at h
  · cases h
    exact ⟨_, fun _ => rfl, rfl⟩
  · cases h
    exact ⟨_, fun _ => rfl, rfl⟩
  · cases h

/-- An exit with a context to go on with hands control to it. -/
theorem Follows.exits {r : Except Halt Cpu} (h : s.Follows cpu T) (hne : s.current ≠ 1)
    (hother : s.link s.current = none → s.OtherRunnable cpu) (hperform : s.perform cpu .exit = some r) :
    ∃ s', r = .ok s' ∧ s'.current ≠ s.current ∧
      ∀ parent, s.link s.current = some parent → s'.current = parent := by
  obtain ⟨f, hf, rfl⟩ := perform_exit hperform
  obtain ⟨c, hc⟩ := h.current
  have hget : s.sched.get? s.sched.contextId = some c := hc
  have hmain : ¬ s.sched.contextId = 1 := hne
  have hok : ∀ {sched : Scheduler}, s.sched.exit cpu s.clock = .ok sched →
      (s.sched.exit cpu s.clock).map f = .ok (f sched) ∧ (f sched).current = sched.contextId := by
    intro sched hsched
    rw [hsched, current, hf]
    exact ⟨rfl, rfl⟩
  rw [link_of_get hc] at hother ⊢
  cases hlink : c.retLink with
  | some parent =>
    have hexit : s.sched.exit cpu s.clock = .ok (s.sched.exited.fuseReturn s.current parent) := by
      simp only [Scheduler.exit, hget, hlink]
      rfl
    obtain ⟨hr, hnow⟩ := hok hexit
    refine ⟨_, hr, ?_, ?_⟩
    · rw [hnow]
      exact (h.linked _ c _ hc hlink).1
    · rintro _ ⟨⟩
      exact hnow
  | none =>
    obtain ⟨sched, hswitch⟩ := (exited_switch_iff hc).mpr (hother hlink)
    have hexit : s.sched.exit cpu s.clock = .ok sched := by
      simp only [Scheduler.exit, hget, hlink, hmain, if_false, hswitch]
    obtain ⟨hr, hnow⟩ := hok hexit
    refine ⟨_, hr, ?_, by simp⟩
    rw [hnow]
    exact (Scheduler.switch_current hswitch).1

section Runs

/-- In such runs there are call stacks that the contexts follow. -/
theorem exists_follows (run : ReflTransGen (ExitStep cpu) (boot cpu) s) : ∃ T, s.Follows cpu T := by
  refine invariant_of_step (fun s => ∃ T, s.Follows cpu T) run ⟨_, follows_boot cpu⟩ ?_
  rintro s s' ⟨T, hfollows⟩ ⟨a, hguard, hperform⟩
  obtain ⟨T', hfollows', -⟩ := hfollows.step (by rintro rfl; exact hguard) (moves_of_perform hperform)
  exact ⟨T', hfollows'⟩

/-- **No exit gets to its end**, in runs in which the main thread is not blocked when a context that
was not called exits: no context that has exited runs, and an exit hands control to the context
that called or to one that `switch` finds. -/
theorem exit_not_unreachable (run : ReflTransGen (ExitStep cpu) (boot cpu) s) :
    s.perform cpu .fallOff = none ∧
      ∀ r, s.current ≠ 1 → s.ExitGuard .exit → s.perform cpu .exit = some r →
        ∃ s', r = .ok s' ∧ s'.current ≠ s.current ∧ ∀ parent, s.link s.current = some parent → s'.current = parent := by
  obtain ⟨T, hfollows⟩ := exists_follows run
  refine ⟨?_, fun r hne hguard hperform => ?_⟩
  · dsimp only [perform]
    split
    · next hexiting => exact absurd hexiting hfollows.current_not_exiting
    · rfl
  · exact hfollows.exits hne (fun hlink => hfollows.otherRunnable (hguard hlink) hlink hne) hperform

end Runs

end Exit

/-- A context that was cast to exits while the main thread can run. -/
theorem cast_exit_goes_on : ∃ s s', ReflTransGen (ExitStep 0) (boot 0) s ∧ s.current = 2 ∧
    s.perform 0 .fallOff = none ∧ s.perform 0 .exit = some (.ok s') ∧ s'.current ≠ 2 := by
  have hrun : (runMoves 0 (fun _ a => a ≠ .exit ∧ a ≠ .fuseSwitch) (boot 0) [.cast, .yield]).map
      (fun s => (s.current, s.doing 2, s.doing 1, (s.sched.get? 1).map Context.status)) =
        some (2, .free, .free, some .runnable) := by decide +kernel
  obtain ⟨s, hs, heq⟩ := Option.map_eq_some_iff.mp hrun
  simp only [Prod.mk.injEq] at heq
  obtain ⟨hcurrent, hdoing, hfree, hstatus⟩ := heq
  have hreach : ReflTransGen (ExitStep 0) (boot 0) s := by
    refine reaches_of_runMoves (fun s a s' htest hperform => ⟨a, ?_, hperform⟩) hs
    obtain ⟨hexit, hswitch⟩ := of_decide_eq_true htest
    cases a with
    | exit => exact absurd rfl hexit
    | fuseSwitch => exact absurd rfl hswitch
    | _ => trivial
  obtain ⟨r, hexit⟩ : ∃ r, s.perform 0 .exit = some r := by
    dsimp only [perform]
    rw [hcurrent, hdoing]
    exact ⟨_, rfl⟩
  obtain ⟨hnone, hexits⟩ := exit_not_unreachable hreach
  obtain ⟨s', rfl, hne, -⟩ := hexits r (by simp [hcurrent])
    (fun _ => mainReady_of_free hfree (by simp [hstatus])) hexit
  exact ⟨s, s', hreach, hcurrent, hnone, hexit, hcurrent ▸ hne⟩

/-- **An exit that gets to its end**: while the main thread waits for the host, `isr` casts to a
function, which runs and exits. -/
theorem cast_exit_unreachable : ∃ s, ReflTransGen (Step 0) (boot 0) s ∧ s.current = 2 ∧
    s.doing 2 = .free ∧ s.perform 0 .exit = some (.error unreachable) := by
  have hrun : (runMoves 0 (fun _ _ => true) (boot 0) [.ask 0, .check, .cast, .yield]).map
      (fun s => (s.current, s.doing 2, (s.perform 0 .exit).map fun r => r.map fun _ => ())) =
        some (2, .free, some (.error unreachable)) := by decide +kernel
  obtain ⟨s, hs, heq⟩ := Option.map_eq_some_iff.mp hrun
  simp only [Prod.mk.injEq] at heq
  obtain ⟨hcurrent, hdoing, hexit⟩ := heq
  refine ⟨s, reaches_of_runMoves (fun _ a _ _ hperform => ⟨a, hperform⟩) hs, hcurrent, hdoing, ?_⟩
  cases hperform : s.perform 0 .exit with
  | none =>
    rw [hperform] at hexit
    cases hexit
  | some r =>
    rw [hperform] at hexit
    cases r with
    | ok s' => cases hexit
    | error halt =>
      cases hexit
      rfl

end Cpu

end Faastr.Sched
