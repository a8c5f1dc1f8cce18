import Faastr.Sched.Change
import Faastr.Sched.Exit

/-!
Fused calls return like a call stack.

* `fused_calls_return`: as long as a callee of a fused call does not exit before `sys_return`, and
  nothing outside of fused calls makes the kernel panic (`Guarded`), control goes through the
  call stacks, each caller gets what its callee returned, and the kernel does not panic.
* `callee_exits_panic`: a callee that is stopped by `ksignal` takes the kernel with it,
  for `fuse_inner` expects a result.
-/

namespace Faastr.Sched

open Faastr.Lib Relation

/-! ### The threads -/

/-- No thread is to be resumed without a value. -/
def Threads.Full (T : Threads) : Prop := ∀ id t callee, T id = some t → t.mode ≠ .resuming callee none

section Full

variable {T T' : Threads} {id : Nat} {t : Thread}

theorem Threads.Full.update {o : Option Thread} (h : T.Full)
    (ht : ∀ t callee, o = some t → t.mode ≠ .resuming callee none) :
    Threads.Full (Function.update T id o) := by
  intro x t' callee hx
  rcases update_eq_cases hx with ⟨-, ho⟩ | ⟨-, hx⟩
  · exact ht t' callee ho
  · exact h x t' callee hx

/-- No event leads there, but for the exit of a callee that has not returned. -/
theorem Threads.Full.step {e : Event} (h : T.Full) (hstep : T.step e = some T')
    (hexit : ∀ id caller callers, e = .exit id → T id ≠ some ⟨.active, caller :: callers⟩) : T'.Full := by
  have hretop : ∀ {x y : Nat} {t : Thread}, (∀ callee, t.mode ≠ .resuming callee none) → (T.retop x y t).Full := by
    intro x y t ht
    refine (h.update (o := none) nofun).update fun t' callee ho => ?_
    cases ho
    exact ht callee
  have hupdate : ∀ {x : Nat} {t : Thread}, (∀ callee, t.mode ≠ .resuming callee none) →
      Threads.Full (Function.update T x (some t)) := by
    intro x t ht
    refine h.update fun t' callee ho => ?_
    cases ho
    exact ht callee
  cases e with
  | cast id =>
    dsimp only [Threads.step] at hstep
    split at hstep
    · cases hstep
      exact hupdate nofun
    · cases hstep
  | call caller callee =>
    dsimp only [Threads.step] at hstep
    split at hstep
    · cases hstep
      exact hretop nofun
    · cases hstep
  | sysReturn id values =>
    dsimp only [Threads.step] at hstep
    split at hstep
    · cases hstep
      exact hupdate nofun
    · cases hstep
  | exit id =>
    dsimp only [Threads.step] at hstep
    split at hstep
    · next hid => exact absurd hid (hexit id _ _ rfl)
    · cases hstep
      exact hretop nofun
    · cases hstep
      exact h.update nofun
    · cases hstep
      exact h.update nofun
    · cases hstep
  | resume caller callee values =>
    dsimp only [Threads.step] at hstep
    split at hstep
    · split at hstep
      · cases hstep
        exact hupdate nofun
      · cases hstep
    · cases hstep

theorem Threads.single_full : (Threads.single id).Full := by
  intro x t callee hx
  rw [Threads.single] at hx
  split at hx
  · cases hx
    simp
  · cases hx

end Full

namespace Cpu

/-- What is asked of the moves: a context that was called exits after `sys_return`, and one that was
not called while the main thread is not blocked; no time to wake up is left in a context that
waits for a callee or for the host; the host answers calls that wait; and `sigreturn`, which
does not come back, is not called. -/
def Guarded (s : Cpu) : CpuMove → Prop
  | .exit => (s.link s.current ≠ none → s.doing s.current = .leaving) ∧ s.ExitGuard .exit
  | .fuseSwitch => s.CallerAwake
  | .check => ∀ c, s.sched.get? s.current = some c → c.wake = none
  | .deliver callid _ => s.queue callid ≠ none
  | .sleep call => call ≠ .sigreturn
  | _ => True

/-- A step of the kernel, which adds to the events of the call stacks. -/
def FusedStep (cpu : Nat) (m m' : Cpu × List Event) : Prop :=
  ∃ a, m.1.Guarded a ∧ m.1.perform cpu a = some (.ok m'.1) ∧ m'.2 = m.2 ++ (m.1.event a).toList

/-- A context that waits for the host is blocked until it has a result, and none is in
`sigreturn`. -/
def Calm (d : Doing) (c : Context) : Prop :=
  d.sleep ≠ some .sigreturn ∧
    ∀ callid, d = .hosting callid → c.result = none → c.status = .blocked ∧ c.wake = none

section Runs

variable {cpu : Nat} {s s' : Cpu} {a : CpuMove} {T T' : Threads} {trace : List Event}

theorem Calm.change {id : Nat} {d d' : Doing} {c c' : Context} (h : Calm d c) (hguard : s.Guarded a)
    (hc : s.sched.get? id = some c) (hchange : Change cpu s s' id a d c d' c') : Calm d' c' := by
  cases hchange with
  | same => exact h
  | switched hswitched =>
    refine ⟨h.1, fun callid hhosting hresult => ?_⟩
    obtain ⟨hblocked, hwake⟩ := h.2 callid hhosting (hswitched.result.symm.trans hresult)
    obtain ⟨hblocked', hwake', -⟩ := hswitched.blocked hblocked (by simp [hwake])
    exact ⟨hblocked', hwake'.trans hwake⟩
  | hosting hid =>
    refine ⟨nofun, fun _ _ hresult => ?_⟩
    have hwake := hguard c (hid ▸ hc)
    split at hresult
    · next hnone =>
      rw [if_pos hnone]
      exact ⟨rfl, hwake⟩
    · next hsome => exact absurd hresult hsome
  | delivered =>
    rw [Scheduler.unblock_eq]
    exact ⟨h.1, fun _ _ hresult => by cases hresult⟩
  | entering =>
    refine ⟨?_, nofun⟩
    rename_i call _
    cases call with
    | nanosleep tvSec tvNsec => exact nofun
    | wait condition => exact nofun
    | sigreturn => exact absurd rfl hguard
  | queued => exact ⟨nofun, nofun⟩
  | sleeping _ hsleep => exact ⟨fun hsig => h.1 (hsleep.trans hsig), nofun⟩
  | notified _ _ hd =>
    refine ⟨h.1, fun callid hhosting => ?_⟩
    rcases hd with rfl | rfl <;> cases hhosting
  | calling | fusing | called | returning | exited | returned | resumed | taken | asking | left | woken =>
    exact ⟨nofun, nofun⟩

/-- What such runs keep. -/
structure Returns (cpu : Nat) (s : Cpu) (T : Threads) : Prop extends s.Follows cpu T where
  full : T.Full
  calm : s.Everywhere Calm

theorem returns_boot (cpu : Nat) : (boot cpu).Returns cpu (Threads.single 1) where
  toFollows := follows_boot cpu
  full := Threads.single_full
  calm _ _ _ := ⟨nofun, nofun⟩

theorem Returns.step (h : s.Returns cpu T) (hguard : s.Guarded a) (hmove : s.Moves cpu a s') :
    ∃ T', s'.Returns cpu T' ∧ T.replay (s.event a).toList = some T' := by
  obtain ⟨T', hfollows, hreplay⟩ := h.toFollows.step (by rintro rfl; exact hguard) hmove
  have hcalm : s'.Everywhere Calm := h.calm.step h.toFollows hmove (fun _ _ _ => ⟨by decide, by simp⟩)
    fun hc hcalm hchange => hcalm.change hguard hc hchange
  refine ⟨T', ⟨hfollows, ?_, hcalm⟩, hreplay⟩
  cases hevent : s.event a with
  | none =>
    rw [hevent] at hreplay
    cases hreplay
    exact h.full
  | some e =>
    rw [hevent] at hreplay
    have hstep : T.step e = some T' := by simpa [Threads.replay] using hreplay
    refine h.full.step hstep fun id caller callers hexit hid => ?_
    -- The context was called, so that it exits after `sys_return`.
    obtain ⟨rfl, rfl⟩ : a = .exit ∧ id = s.current := by
      subst hexit
      unfold event at hevent
      cases a <;> simp at hevent
      case fuseSwitch | resume | cast => split at hevent <;> cases hevent
      case exit => exact ⟨rfl, hevent.symm⟩
    obtain ⟨-, -, hmode, hlink, -⟩ := h.tops _ _ hid
    exact hmode.2 (hguard.1 (by rw [hlink]; simp))

section Panics

variable {message : String} (h : s.Returns cpu T)

include h

theorem Returns.switch_not_panics {t : Cpu} (hpanic : some ((t.switch cpu).map Prod.snd) = some (.error (.panic message)))
    (hsched : t.sched = s.sched) : False := by
  obtain ⟨c, hc⟩ := h.current
  obtain ⟨r, sched, hswitch⟩ := @Scheduler.switch_ok cpu t.clock t.sched c (by rw [hsched]; exact hc)
  rw [Cpu.switch, hswitch] at hpanic
  cases hpanic

theorem Returns.fuseSwitch_ok {callee : Nat} (hcalling : s.doing s.current = .calling callee) :
    ∃ sched, s.sched.fuseSwitch callee = .ok sched := by
  obtain ⟨-, -, cc, hcc, -, -, hlink⟩ := h.calling _ _ hcalling
  have hget : (s.sched.setStatus callee .running).get? callee = some { cc with status := .running } :=
    Scheduler.get?_modify_self.trans (congrArg _ hcc)
  have hcaller : Option.bind (Scheduler.get? { s.sched.setStatus callee .running with contextId := callee } callee)
      Context.retLink = some s.current := (congrArg (Option.bind · Context.retLink) hget).trans hlink
  unfold Scheduler.fuseSwitch
  dsimp only
  rw [hcaller]
  exact ⟨_, rfl⟩

/-- The main thread stops the kernel, and another context hands control on. -/
theorem Returns.exit_not_panics (hguard : s.Guarded .exit) :
    s.perform cpu .exit ≠ some (.error (.panic message)) := by
  intro hpanic
  by_cases hmain : s.current = 1
  · obtain ⟨c, hc⟩ := h.current
    obtain ⟨f, -, hr⟩ := perform_exit hpanic
    have hlink : c.retLink = none := by
      rw [← link_of_get hc, hmain]
      exact h.mainLink
    have hstopped : s.sched.exit cpu s.clock = .error .stopped := by
      unfold Scheduler.exit
      rw [show s.sched.get? s.sched.contextId = some c from hc]
      dsimp only
      rw [hlink]
      exact if_pos hmain
    rw [hstopped] at hr
    cases hr
  · obtain ⟨s', hok, -⟩ := h.toFollows.exits hmain
      (fun hlink => h.otherRunnable (hguard.2 hlink) hlink hmain) hpanic
    cases hok

/-- A caller that is resumed finds a result. -/
theorem Returns.resume_not_panics : s.perform cpu .resume ≠ some (.error (.panic message)) := by
  intro hpanic
  dsimp only [perform] at hpanic
  split at hpanic
  · next callee hfusing =>
    obtain ⟨⟨mode, callers⟩, ht⟩ := h.top
    obtain rfl := h.mode_of_fusing ht hfusing
    split at hpanic
    · next hnone => exact h.full _ _ callee ht (congrArg _ hnone)
    · cases hpanic
  · cases hpanic

/-- A context that leaves the loop of `ivshrpc_fuse` has its result. -/
theorem Returns.leave_not_panics : s.perform cpu .leave ≠ some (.error (.panic message)) := by
  intro hpanic
  dsimp only [perform] at hpanic
  split at hpanic
  · next callid c hhosting hc =>
    split at hpanic
    · cases hpanic
    · next hstatus =>
      split at hpanic
      · next hnone => exact hstatus ((h.calm _ c hc).2 callid hhosting hnone).1
      · cases hpanic
  · cases hpanic

theorem Returns.not_panics (hguard : s.Guarded a) : s.perform cpu a ≠ some (.error (.panic message)) := by
  obtain ⟨c, hc⟩ := h.current
  intro hpanic
  cases a with
  | exit => exact h.exit_not_panics hguard hpanic
  | resume => exact h.resume_not_panics hpanic
  | leave => exact h.leave_not_panics hpanic
  | pit =>
    dsimp only [perform] at hpanic
    split at hpanic
    · exact h.switch_not_panics hpanic (tick_fields s).1
    · cases hpanic
  | yield =>
    dsimp only [perform] at hpanic
    split at hpanic
    · exact h.switch_not_panics hpanic rfl
    · split at hpanic
      · exact h.switch_not_panics hpanic rfl
      · cases hpanic
    · cases hpanic
  | sleepSwitch =>
    dsimp only [perform] at hpanic
    split at hpanic
    · exact h.switch_not_panics hpanic rfl
    · exact h.switch_not_panics hpanic rfl
    · exact h.switch_not_panics hpanic rfl
    · cases hpanic
  | fuseSwitch =>
    dsimp only [perform] at hpanic
    split at hpanic
    · next callee hcalling =>
      obtain ⟨sched, hsched⟩ := h.fuseSwitch_ok hcalling
      rw [hsched] at hpanic
      cases hpanic
    · cases hpanic
  | fallOff =>
    dsimp only [perform] at hpanic
    split at hpanic
    · next hexiting => exact h.current_not_exiting hexiting
    · cases hpanic
  | deliver callid values =>
    dsimp only [perform] at hpanic
    split at hpanic
    · next hnone => exact hguard hnone
    · cases hpanic
  | sleep call =>
    dsimp only [perform] at hpanic
    rw [hc] at hpanic
    split at hpanic
    · cases hpanic
    · next hnone => cases hnone
    · cases hpanic
  | wakeUp =>
    dsimp only [perform] at hpanic
    split at hpanic
    · next hsleeping => exact (h.calm _ c hc).1 (by rw [hsleeping]; rfl)
    · cases hpanic
    · cases hpanic
    · cases hpanic
  | call =>
    dsimp only [perform] at hpanic
    split at hpanic
    · split at hpanic <;> cases hpanic
    · cases hpanic
  | sysReturn | ask | check | push =>
    dsimp only [perform] at hpanic
    split at hpanic <;> cases hpanic
  | cast | notify => cases hpanic

end Panics

/-- The caller of a context that exits is resumed with what the context returned. -/
theorem Returns.exit_resume {parent : Nat} (h : s.Returns cpu T) (hguard : s.Guarded .exit)
    (hlink : s.link s.current = some parent) (hexit : s.perform cpu .exit = some (.ok s')) :
    s'.current = parent ∧ ∃ values s'', s.returned s.current = some values ∧
      s'.perform cpu .resume = some (.ok s'') ∧
      s'.event .resume = some (.resume parent s.current (some values)) := by
  have hmain : s.current ≠ 1 := by
    intro hmain
    rw [hmain, h.mainLink] at hlink
    cases hlink
  obtain ⟨s₁, hs₁, -, hparent⟩ := h.toFollows.exits hmain
    (fun hnone => by cases hnone.symm.trans hlink) hexit
  cases hs₁
  have hcurrent := hparent parent hlink
  obtain ⟨T', hreturns, hreplay⟩ := h.step hguard (moves_of_perform hexit)
  obtain ⟨⟨mode, callers⟩, ht⟩ := h.top
  obtain ⟨-, -, hmode, hchain⟩ := h.tops _ _ ht
  have hleaving := hguard.1 (by rw [hlink]; nofun)
  obtain ⟨rest, rfl, -⟩ := hchain.cons_of_link hlink
  obtain ⟨values, rfl, hvalues⟩ : ∃ values, mode = .returning values ∧ s.returned s.current = some values := by
    cases mode with
    | active => exact absurd hleaving hmode.2
    | returning values => exact ⟨values, rfl, hmode.2⟩
    | resuming callee values => cases hleaving.symm.trans hmode.1
  have hT' : T' = T.retop s.current parent ⟨.resuming s.current (some values), rest⟩ := by
    simpa [event, Threads.replay, Threads.step, ht, eq_comm] using hreplay
  subst hT'
  obtain ⟨hfusing, -, hresult⟩ := (hreturns.tops parent _ Threads.retop_new).mode
  have hdoing : s'.doing s'.current = .fusing s.current := hcurrent ▸ hfusing
  refine ⟨hcurrent, values, ?_⟩
  have hget : (s'.sched.get? s.current).bind Context.result = some values := hresult
  refine ⟨{ s' with
    doing := s'.nowDoing .free
    sched := s'.sched.modify s.current fun c => { c with result := none } }, hvalues, ?_, ?_⟩
  · dsimp only [perform]
    rw [hdoing]
    dsimp only
    rw [hget]
  · dsimp only [event]
    rw [hdoing, hcurrent]
    dsimp only
    rw [hresult]

/-- **Fused calls return like a call stack**, in every run in which a context that was
called exits after `sys_return` only, and nothing else makes the kernel panic: control goes through
the call stacks, the kernel does not panic, and the caller of a context that exits gets what it
returned. -/
theorem fused_calls_return (run : ReflTransGen (FusedStep cpu) (boot cpu, []) (s, trace)) :
    (∃ T, (Threads.single 1).replay trace = some T) ∧
    (∀ a message, s.Guarded a → s.perform cpu a ≠ some (.error (.panic message))) ∧
    ∀ parent s', s.Guarded .exit → s.link s.current = some parent → s.perform cpu .exit = some (.ok s') →
      s'.current = parent ∧ ∃ values s'', s.returned s.current = some values ∧
        s'.perform cpu .resume = some (.ok s'') ∧
        s'.event .resume = some (.resume parent s.current (some values)) := by
  obtain ⟨T, hreturns, hreplay⟩ : ∃ T, s.Returns cpu T ∧ (Threads.single 1).replay trace = some T := by
    refine invariant_of_step (fun m : Cpu × List Event =>
      ∃ T, m.1.Returns cpu T ∧ (Threads.single 1).replay m.2 = some T) run ⟨_, returns_boot cpu, rfl⟩ ?_
    rintro m m' ⟨T, hreturns, hreplay⟩ ⟨a, hguard, hperform, htrace⟩
    obtain ⟨T', hreturns', hreplay'⟩ := hreturns.step hguard (moves_of_perform hperform)
    refine ⟨T', hreturns', ?_⟩
    rw [htrace]
    exact Threads.replay_append hreplay hreplay'
  exact ⟨⟨T, hreplay⟩, fun a message hguard => hreturns.not_panics hguard, fun parent s' => hreturns.exit_resume⟩

end Runs

/-! ### Runs that can be evaluated -/

/-- Fused calls that return, and nothing else. -/
def onlyCalls (s : Cpu) : CpuMove → Bool
  | .exit => s.link s.current ≠ none ∧ s.doing s.current = .leaving
  | .fuseSwitch => (s.sched.get? s.current).bind Context.wake = none
  | .call | .resume | .sysReturn _ => true
  | _ => false

theorem guarded_of_onlyCalls {s : Cpu} {a : CpuMove} (h : s.onlyCalls a = true) : s.Guarded a := by
  cases a with
  | exit =>
    obtain ⟨hlink, hleaving⟩ := of_decide_eq_true h
    exact ⟨fun _ => hleaving, fun hnone => absurd hnone hlink⟩
  | fuseSwitch =>
    intro c hc
    have hwake := of_decide_eq_true h
    rw [hc] at hwake
    exact .inr hwake
  | call | resume | sysReturn => trivial
  | _ => cases h

/-- A run of moves with the events of the call stacks. -/
def runFused (cpu : Nat) (m : Cpu × List Event) (moves : List CpuMove) : Option (Cpu × List Event) :=
  moves.foldlM (fun m a =>
    if m.1.onlyCalls a then
      ((m.1.perform cpu a).bind Except.toOption).map fun s => (s, m.2 ++ (m.1.event a).toList)
    else none) m

theorem reaches_of_runFused {cpu : Nat} {m m' : Cpu × List Event} {moves : List CpuMove}
    (h : runFused cpu m moves = some m') : ReflTransGen (FusedStep cpu) m m' := by
  refine reaches_of_foldlM (fun a _ x y hact => ?_) h
  split at hact
  · next htest =>
    obtain ⟨s, hs, rfl⟩ := Option.map_eq_some_iff.mp hact
    obtain ⟨r, hperform, hok⟩ := Option.bind_eq_some_iff.mp hs
    cases r with
    | error halt => cases hok
    | ok s =>
      cases hok
      exact ⟨a, guarded_of_onlyCalls htest, hperform, rfl⟩
  · cases hact

/-- The main thread calls a context, which calls another; each returns to its caller. -/
theorem nested_calls_return : ∃ s trace, ReflTransGen (FusedStep 0) (boot 0, []) (s, trace) ∧
    trace = [.call 1 2, .call 2 3, .sysReturn 3 [7], .exit 3, .resume 2 3 (some [7]),
      .sysReturn 2 [8], .exit 2, .resume 1 2 (some [8])] ∧
    ∃ T, (Threads.single 1).replay trace = some T := by
  have hrun : (runFused 0 (boot 0, []) [.call, .fuseSwitch, .call, .fuseSwitch, .sysReturn [7], .exit, .resume,
      .sysReturn [8], .exit, .resume]).map Prod.snd =
        some [.call 1 2, .call 2 3, .sysReturn 3 [7], .exit 3, .resume 2 3 (some [7]),
          .sysReturn 2 [8], .exit 2, .resume 1 2 (some [8])] := by decide +kernel
  obtain ⟨⟨s, trace⟩, hs, htrace⟩ := Option.map_eq_some_iff.mp hrun
  have hreach := reaches_of_runFused hs
  exact ⟨s, trace, hreach, htrace, (fused_calls_return hreach).1⟩

/-- The main thread calls a context, which is stopped by `ksignal` before `sys_return`:
when the main thread goes on, the kernel panics. -/
theorem callee_exits_panic : ∃ s, ReflTransGen (Step 0) (boot 0) s ∧
    s.perform 0 .resume = some (.error (.panic "Callee did not return")) := by
  have hrun : (runMoves 0 (fun _ _ => true) (boot 0) [.call, .fuseSwitch, .exit]).map
      (fun s => (s.doing s.current, (s.sched.get? 2).bind Context.result)) = some (.fusing 2, none) := by
    decide +kernel
  obtain ⟨s, hs, hview⟩ := Option.map_eq_some_iff.mp hrun
  obtain ⟨hfusing, hresult⟩ := Prod.mk.inj hview
  refine ⟨s, reaches_of_runMoves (fun _ a _ _ hperform => ⟨a, hperform⟩) hs, ?_⟩
  dsimp only [perform]
  rw [hfusing]
  dsimp only
  rw [hresult]

end Cpu

end Faastr.Sched
