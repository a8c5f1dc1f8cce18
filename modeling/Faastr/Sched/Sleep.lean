import Faastr.Sched.Change

/-!
Sleeping (`nanosleep`, `WaitCondition::wait`, `sigreturn`): what a context that has gone to
sleep is woken by.

A call that sleeps calls `Context::block`, which blocks a context that is `Runnable` and no
other, and then `switch`, which returns at once when there is no context to switch to. A
context that runs has the status `Running`, so that it stays awake. It is `Runnable` when it
has just waited for the host without another context having run.

* `rests_until_woken`: in runs in which each context that goes to sleep is `Runnable`, and
  finds another context to switch to, it is not switched to, and its call does not return,
  before it is unblocked or its time has come.
* `nanosleep_not_blocked`: the main thread is switched to again before its time has come.
-/

namespace Faastr.Sched

open Faastr.Lib Relation

/-! ### Traces -/

/-- The time of a sleep has come. -/
def Sleep.Ends (now : Nat × Nat) : Sleep → Prop
  | .nanosleep wake => Due now wake
  | .wait _ | .sigreturn => False

instance (now : Nat × Nat) : (sleep : Sleep) → Decidable (sleep.Ends now)
  | .nanosleep wake => inferInstanceAs (Decidable (Due now wake))
  | .wait _ | .sigreturn => inferInstanceAs (Decidable False)

/-- What ends the sleep of a context. -/
def Happening.Wakes (id : Nat) (sleep : Sleep) : Happening → Prop
  | .unblock id' => id' = id
  | .clock now => sleep.Ends now
  | .sleep .. | .select _ | .wakeUp _ => False

instance (id : Nat) (sleep : Sleep) : (e : Happening) → Decidable (e.Wakes id sleep)
  | .unblock id' => inferInstanceAs (Decidable (id' = id))
  | .clock now => inferInstanceAs (Decidable (sleep.Ends now))
  | .sleep .. | .select _ | .wakeUp _ => inferInstanceAs (Decidable False)

/-- A context that has gone to sleep is not switched to, and its call does not return, before
something ends its sleep. -/
def Rests (trace : List Happening) : Prop :=
  ∀ before id sleep now between e after,
    trace = before ++ .sleep id sleep now :: (between ++ e :: after) →
    e = .select id ∨ e = .wakeUp id → sleep.Ends now ∨ ∃ w ∈ between, w.Wakes id sleep

/-- A context has gone to sleep, and nothing has ended its sleep. -/
def Asleep (trace : List Happening) (id : Nat) (sleep : Sleep) : Prop :=
  ∃ before now between, trace = before ++ .sleep id sleep now :: between ∧ ¬ sleep.Ends now ∧
    ∀ w ∈ between, ¬ w.Wakes id sleep

section Trace

variable {trace : List Happening} {e : Happening} {id : Nat} {sleep : Sleep}

theorem not_asleep_nil : ¬ Asleep [] id sleep := by
  rintro ⟨before, now, between, htrace, -⟩
  simp at htrace

/-- The last event puts the context to sleep, or leaves it asleep. -/
theorem Asleep.of_concat (h : Asleep (trace ++ [e]) id sleep) :
    (∃ now, e = .sleep id sleep now ∧ ¬ sleep.Ends now) ∨ Asleep trace id sleep ∧ ¬ e.Wakes id sleep := by
  obtain ⟨before, now, between, htrace, hnow, hbetween⟩ := h
  rcases List.eq_nil_or_concat between with rfl | ⟨between', e', rfl⟩
  · obtain ⟨-, he⟩ := List.append_inj' htrace rfl
    cases he
    exact .inl ⟨now, rfl, hnow⟩
  · rw [List.concat_eq_append, ← List.cons_append, ← List.append_assoc] at htrace
    obtain ⟨hfront, he⟩ := List.append_inj' htrace rfl
    cases he
    simp only [List.concat_eq_append, List.mem_append, List.mem_singleton] at hbetween
    exact .inr ⟨⟨before, now, between', hfront, hnow, fun w hw => hbetween w (.inl hw)⟩,
      hbetween e (.inr rfl)⟩

/-- The last event is another one, and leaves it asleep. -/
theorem Asleep.before (h : Asleep (trace ++ [e]) id sleep) (he : ∀ sleep now, e ≠ .sleep id sleep now) :
    Asleep trace id sleep ∧ ¬ e.Wakes id sleep :=
  h.of_concat.resolve_left fun ⟨now, hsleep, _⟩ => he sleep now hsleep

theorem Asleep.concat (h : Asleep trace id sleep) (he : ¬ e.Wakes id sleep) : Asleep (trace ++ [e]) id sleep := by
  obtain ⟨before, now, between, rfl, hnow, hbetween⟩ := h
  refine ⟨before, now, between ++ [e], by simp, hnow, fun w hw => ?_⟩
  rcases List.mem_append.mp hw with hw | hw
  · exact hbetween w hw
  · rw [List.mem_singleton.mp hw]
    exact he

/-- The last event disturbs no context that is asleep. -/
theorem Rests.concat (h : Rests trace)
    (he : ∀ id sleep, e = .select id ∨ e = .wakeUp id → ¬ Asleep trace id sleep) : Rests (trace ++ [e]) := by
  intro before id sleep now between e' after htrace he'
  rcases List.eq_nil_or_concat after with rfl | ⟨after', e'', rfl⟩
  · have hlast : trace ++ [e] = (before ++ .sleep id sleep now :: between) ++ [e'] := by
      rw [htrace, List.append_assoc, List.cons_append]
    obtain ⟨hfront, heq⟩ := List.append_inj' hlast rfl
    cases heq
    by_contra hnot
    simp only [not_or, not_exists, not_and] at hnot
    exact he id sleep he' ⟨before, now, between, hfront, hnot.1, fun w hw => hnot.2 w hw⟩
  · have hlast : trace ++ [e] =
        (before ++ .sleep id sleep now :: (between ++ e' :: after')) ++ [e''] := by
      rw [htrace, List.concat_eq_append]
      simp
    exact h before id sleep now between e' after' (List.append_inj' hlast rfl).1 he'

/-- `notify` ends the sleep of the contexts it unblocks. -/
theorem Asleep.of_unblock {ids : List Nat} (h : Asleep (trace ++ ids.map .unblock) id sleep) :
    Asleep trace id sleep ∧ id ∉ ids := by
  induction ids generalizing trace with
  | nil =>
    simp only [List.map_nil, List.append_nil] at h
    exact ⟨h, List.not_mem_nil⟩
  | cons k ids ih =>
    rw [List.map_cons, List.append_cons] at h
    obtain ⟨hasleep, hids⟩ := ih h
    obtain ⟨hasleep, hk⟩ := hasleep.before nofun
    refine ⟨hasleep, ?_⟩
    rw [List.mem_cons, not_or]
    exact ⟨fun heq => hk heq.symm, hids⟩

/-- The last event is about no context that is asleep. -/
theorem Rests.wake (h : Rests trace) (he : e = .select id ∨ e = .wakeUp id)
    (hid : ∀ sleep, ¬ Asleep trace id sleep) : Rests (trace ++ [e]) := by
  refine h.concat fun id' sleep he' => ?_
  rcases he with rfl | rfl <;> rcases he' with he' | he' <;> cases he' <;> exact hid sleep

theorem Rests.quiet (h : Rests trace) (he : ∀ id, e ≠ .select id ∧ e ≠ .wakeUp id) :
    Rests (trace ++ [e]) :=
  h.concat fun id _ he' => (he'.elim (he id).1 (he id).2).elim

theorem Rests.unblock {ids : List Nat} (h : Rests trace) : Rests (trace ++ ids.map .unblock) := by
  induction ids generalizing trace with
  | nil => simpa using h
  | cons k ids ih =>
    rw [List.map_cons, List.append_cons]
    exact ih (h.quiet (by simp))

end Trace

namespace Cpu

/-- A context that goes to sleep is `Runnable`, and its `switch` finds another one. -/
def Careful (cpu : Nat) (s : Cpu) : CpuMove → Prop
  | .sleep _ => (s.sched.get? s.current).map Context.status = some .runnable
  | .sleepSwitch => s.OtherRunnable cpu
  | _ => True

instance (cpu : Nat) (s : Cpu) (a : CpuMove) : Decidable (s.Careful cpu a) := by
  unfold Careful
  split
  · exact inferInstance
  · exact inferInstance
  · exact inferInstance

/-- A step of a run in which contexts go to sleep with care. -/
def CarefulStep (cpu : Nat) (s s' : Cpu) : Prop :=
  ∃ a, s.Careful cpu a ∧ s.perform cpu a = some (.ok s')

/-- A wake time belongs to a `nanosleep` that goes on. -/
def Timed (d : Doing) (c : Context) : Prop :=
  ∀ wake, c.wake = some wake → c.status = .blocked ∧ d.sleep = some (.nanosleep wake)

/-- What such runs keep. -/
structure Kept (s : Cpu) : Prop where
  timed : s.Everywhere Timed
  /-- A context that runs has been switched to, after its last call to sleep. -/
  resumed : ∀ sleep c, s.doing s.current = .sleeping sleep → s.sched.get? s.current = some c →
    c.status = .running
  asleep : ∀ id sleep, Asleep s.trace id sleep → (s.doing id).sleep = some sleep ∧
    ¬ sleep.Ends s.clock ∧ ∃ c, s.sched.get? id = some c ∧ c.status = .blocked ∧ c.wake = sleep.wake
  rests : Rests s.trace

section Kept

variable {cpu : Nat} {s s' : Cpu} {a : CpuMove} {id : Nat} {c c' : Context} {d d' : Doing} {T : Threads}

theorem Timed.no_wake (h : Timed d c) (hd : d.sleep = none) : c.wake = none := by
  cases hwake : c.wake with
  | none => rfl
  | some wake =>
    rw [(h wake hwake).2] at hd
    cases hd

theorem timed_of_no_wake (hwake : c.wake = none) : Timed d c := by
  intro wake hsome
  cases hwake.symm.trans hsome

/-- `switch` takes the wake time of a context that it wakes up. -/
theorem Timed.switched {sched sched' : Scheduler} {now : Nat × Nat} (h : Timed d c)
    (hswitched : Scheduler.Switched cpu now sched sched' id c c') (hd : d'.sleep = d.sleep) : Timed d' c' := by
  intro wake hwake
  rw [hd]
  rcases hswitched.change with ⟨hsame, hwake', -⟩ | ⟨-, -, hnone, -⟩ | ⟨hstatus, -, hwake', -⟩ |
    ⟨hstatus, -, hwake', -⟩
  · rw [hsame]
    exact h wake (hwake' ▸ hwake)
  · cases hnone.symm.trans hwake
  · cases hstatus.symm.trans (h wake (hwake' ▸ hwake)).1
  · have hblocked := (h wake (hwake' ▸ hwake)).1
    rcases hstatus with hstatus | hstatus <;> cases hstatus.symm.trans hblocked

theorem Kept.timed_change (h : s.Kept) (hcareful : s.Careful cpu a) (hc : s.sched.get? id = some c)
    (hd : s.doing id = d) (hchange : Change cpu s s' id a d c d' c') : Timed d' c' := by
  have hbefore : Timed d c := hd ▸ h.timed id c hc
  cases hchange with
  | same => exact hbefore
  | switched hswitched => exact hbefore.switched hswitched rfl
  | sleeping _ hsleep hswitched => exact hbefore.switched hswitched hsleep.symm
  | fusing _ hwake => exact timed_of_no_wake (hwake.trans (hbefore.no_wake rfl))
  | called hwake => exact timed_of_no_wake hwake
  | exited hwhere _ hwake =>
    exact timed_of_no_wake (hwake.trans (hbefore.no_wake (by rcases hwhere with rfl | rfl <;> rfl)))
  | hosting =>
    refine timed_of_no_wake ?_
    split <;> exact hbefore.no_wake rfl
  | delivered hwhere =>
    rw [Scheduler.unblock_eq]
    exact timed_of_no_wake (hbefore.no_wake (by rcases hwhere with rfl | rfl <;> rfl))
  | entering hid =>
    subst hid
    rw [Careful, hc] at hcareful
    rw [Sleep.enter_eq, hbefore.no_wake rfl, Option.or_none, Option.some.inj hcareful]
    intro wake hwake
    refine ⟨rfl, congrArg some ?_⟩
    cases hsleep : SleepCall.sleep _ _ <;> rw [hsleep] at hwake <;> cases hwake
    rfl
  | queued =>
    intro wake hwake
    cases (hbefore wake hwake).2
  | woken hid =>
    subst hid
    intro wake hwake
    cases (h.resumed _ c hd hc).symm.trans (hbefore wake hwake).1
  | notified _ _ hwhere =>
    rw [Scheduler.unblock_eq]
    intro wake hwake
    have hsleep := (hbefore wake hwake).2
    rcases hwhere with rfl | rfl <;> cases hsleep
  | calling | returning | returned | resumed | taken | asking | left =>
    exact timed_of_no_wake (hbefore.no_wake rfl)

/-- The context that goes to sleep is left. -/
theorem left_of_careful (hcareful : s.Careful cpu .sleepSwitch) (hmove : s.Moves cpu .sleepSwitch s')
    (hc : s.sched.get? s.current = some c) : s'.current ≠ s.current := by
  cases hmove with
  | sleepSwitch _ hs =>
    obtain ⟨id, c', hne, hc', hrunnable⟩ := hcareful
    obtain ⟨sched, htrue⟩ := Scheduler.switch_of_runnable hc hne hc' hrunnable
    obtain ⟨⟨r, sched'⟩, hsched, heq⟩ := eq_ok_of_map hs
    cases heq
    cases hsched.symm.trans htrue
    exact (Scheduler.switch_current htrue).1

theorem Kept.resumed_change {sleep : Sleep} (h : s.Kept) (hcareful : s.Careful cpu a) (hmove : s.Moves cpu a s')
    (hc : s.sched.get? id = some c) (hd : s.doing id = d) (hid : s'.current = id)
    (hchange : Change cpu s s' id a d c (.sleeping sleep) c') : c'.status = .running := by
  have hbefore : s.current = id → d = .sleeping sleep → c.status = .running := by
    rintro rfl rfl
    exact h.resumed sleep c hd hc
  cases hchange with
  | same hcurrent => exact hbefore (hcurrent hid) rfl
  | switched hswitched hcurrent =>
    rcases hswitched.change with ⟨hsame, -, hcurrent'⟩ | ⟨hblocked, -, -, ⟨-, hcurrent'⟩ | ⟨hrunning, -⟩⟩ |
      ⟨-, -, -, -, hne⟩ | ⟨-, hrunning, -⟩
    · exact hsame.trans (hbefore (hcurrent.symm.trans (hcurrent' hid)) rfl)
    · cases (hbefore (hcurrent.symm.trans (hcurrent' hid)) rfl).symm.trans hblocked
    · exact hrunning
    · exact absurd hid hne
    · exact hrunning
  | sleeping hcurrent =>
    subst hcurrent
    exact absurd hid (left_of_careful hcareful hmove hc)
  | delivered hwhere => rcases hwhere with hwhere | hwhere <;> cases hwhere
  | notified _ hcurrent =>
    have hrunning := hbefore (hcurrent.symm.trans hid) rfl
    simp [Scheduler.unblock_eq, hrunning]

/-- What is asleep after a move was asleep before it, or has gone to sleep. -/
theorem asleep_of_moves {sleep : Sleep} (hmove : s.Moves cpu a s') (hid : Asleep s'.trace id sleep) :
    Asleep s.trace id sleep ∧ (¬ sleep.Ends s.clock → ¬ sleep.Ends s'.clock) ∧
        (∀ condition, a = .notify condition → id ∉ s.conditions condition) ∨
      ∃ call, a = .sleep call ∧ id = s.current ∧ sleep = call.sleep s.clock ∧ ¬ sleep.Ends s'.clock := by
  have hswitch : ∀ {t : Cpu} {r : Bool}, t.switch cpu = .ok (r, s') → s'.clock = t.clock ∧ Asleep t.trace id sleep := by
    intro t r hs
    obtain ⟨⟨r', sched⟩, -, heq⟩ := eq_ok_of_map hs
    cases heq
    refine ⟨rfl, ?_⟩
    cases r' with
    | false => simpa using hid
    | true => exact (hid.before nofun).1
  have htick : Asleep s.tick.trace id sleep → Asleep s.trace id sleep ∧ ¬ sleep.Ends s.tick.clock := by
    intro hid
    have htrace : s.tick.trace = s.trace ++ [.clock s.tick.clock] := by
      unfold Cpu.tick
      rfl
    rw [htrace] at hid
    exact hid.before nofun
  cases hmove with
  | tick =>
    obtain ⟨hid, hends⟩ := htick hid
    exact .inl ⟨hid, fun _ => hends, nofun⟩
  | pit hs =>
    obtain ⟨hclock, hid⟩ := hswitch hs
    obtain ⟨hid, hends⟩ := htick hid
    exact .inl ⟨hid, fun _ => hclock ▸ hends, nofun⟩
  | yield _ hs =>
    obtain ⟨hclock, hid⟩ := hswitch hs
    exact .inl ⟨hid, fun h => hclock ▸ h, nofun⟩
  | sleepSwitch _ hs =>
    obtain ⟨hclock, hid⟩ := hswitch hs
    exact .inl ⟨hid, fun h => hclock ▸ h, nofun⟩
  | fuseSwitch | exit | deliver | wakeUp | waited => exact .inl ⟨(hid.before nofun).1, fun h => h, nofun⟩
  | sleep =>
    rcases hid.of_concat with ⟨now, heq, hends⟩ | ⟨hid, -⟩
    · cases heq
      exact .inr ⟨_, rfl, rfl, rfl, hends⟩
    · exact .inl ⟨hid, fun h => h, nofun⟩
  | notify =>
    obtain ⟨hid, hnot⟩ := hid.of_unblock
    rw [List.mem_reverse] at hnot
    refine .inl ⟨hid, fun h => h, ?_⟩
    rintro condition ⟨⟩
    exact hnot
  | call | full | resume | sysReturn | cast | ask | check | leave | sleepFailed | push =>
    exact .inl ⟨hid, fun h => h, nofun⟩

/-- A context that is asleep stays so. -/
theorem Kept.asleep_change {sleep : Sleep} (h : s.Kept) (hc : s.sched.get? id = some c) (hd : s.doing id = d)
    (hsleep : d.sleep = some sleep) (hblocked : c.status = .blocked) (hwake : c.wake = sleep.wake)
    (hends : ¬ sleep.Ends s'.clock) (hnotify : ∀ condition, a = .notify condition → id ∉ s.conditions condition)
    (hchange : Change cpu s s' id a d c d' c') :
    d'.sleep = some sleep ∧ c'.status = .blocked ∧ c'.wake = sleep.wake := by
  have hswitch : ∀ {sched sched' : Scheduler}, Scheduler.Switched cpu s'.clock sched sched' id c c' →
      c'.status = .blocked ∧ c'.wake = sleep.wake := by
    intro sched sched' hswitched
    obtain ⟨hblocked', hwake', -⟩ := hswitched.blocked hblocked fun wake hsome hdue => by
      rw [hwake] at hsome
      cases sleep <;> cases hsome
      exact hends hdue
    exact ⟨hblocked', hwake'.trans hwake⟩
  cases hchange with
  | same => exact ⟨hsleep, hblocked, hwake⟩
  | switched hswitched => exact ⟨hsleep, hswitch hswitched⟩
  | sleeping _ hd' hswitched => exact ⟨hd'.symm.trans hsleep, hswitch hswitched⟩
  | queued => exact ⟨hsleep, hblocked, hwake⟩
  | woken hid =>
    subst hid
    cases (h.resumed _ c hd hc).symm.trans hblocked
  | notified hmem => exact absurd hmem (hnotify _ rfl)
  | exited hwhere => rcases hwhere with rfl | rfl <;> cases hsleep
  | delivered hwhere => rcases hwhere with rfl | rfl <;> cases hsleep
  | calling | fusing | called | returning | returned | resumed | taken | asking | hosting | left | entering =>
    cases hsleep

/-- A context that is `Runnable` is blocked when it goes to sleep. -/
theorem Kept.sleep_blocks {call : SleepCall} (h : s.Kept) (hf : s.Follows cpu T)
    (hcareful : s.Careful cpu (.sleep call)) (hmove : s.Moves cpu (.sleep call) s') :
    (s'.doing s.current).sleep = some (call.sleep s.clock) ∧
      ∃ c, s'.sched.get? s.current = some c ∧ c.status = .blocked ∧ c.wake = (call.sleep s.clock).wake := by
  obtain ⟨c, hc⟩ := hf.current
  rw [Careful, hc] at hcareful
  cases hmove with
  | sleepFailed hnone => cases hnone.symm.trans hc
  | sleep hfree _ =>
    have hwake : c.wake = none := (h.timed _ c hc).no_wake (by rw [hfree]; rfl)
    refine ⟨congrArg Doing.sleep (nowDoing_self ..), _, Scheduler.get?_modify_self.trans (congrArg _ hc), ?_⟩
    dsimp only
    rw [Sleep.enter_eq, hwake, Option.or_none, Option.some.inj hcareful]
    exact ⟨rfl, rfl⟩

theorem Kept.asleep_step {sleep : Sleep} (h : s.Kept) (hf : s.Follows cpu T) (hcareful : s.Careful cpu a)
    (hmove : s.Moves cpu a s') (hid : Asleep s'.trace id sleep) : (s'.doing id).sleep = some sleep ∧
      ¬ sleep.Ends s'.clock ∧ ∃ c, s'.sched.get? id = some c ∧ c.status = .blocked ∧ c.wake = sleep.wake := by
  rcases asleep_of_moves hmove hid with ⟨hid, hclock, hnotify⟩ | ⟨call, rfl, rfl, rfl, hends⟩
  · obtain ⟨hsleep, hends, c, hc, hblocked, hwake⟩ := h.asleep id sleep hid
    obtain ⟨c', hc', hchange⟩ := hf.change hc hmove
    obtain ⟨hsleep', hblocked', hwake'⟩ :=
      h.asleep_change hc rfl hsleep hblocked hwake (hclock hends) hnotify hchange
    exact ⟨hsleep', hclock hends, c', hc', hblocked', hwake'⟩
  · obtain ⟨hsleep, hblocked⟩ := h.sleep_blocks hf hcareful hmove
    exact ⟨hsleep, hends, hblocked⟩

/-- The trace goes on with rest: a context that is switched to, or whose call returns, runs, and is not
asleep. -/
theorem Kept.rests_step (h : s.Kept) (hf : s.Follows cpu T) (hmove : s.Moves cpu a s')
    (hasleep : ∀ id sleep, Asleep s'.trace id sleep → ∃ c, s'.sched.get? id = some c ∧ c.status = .blocked) :
    Rests s'.trace := by
  have hselect : ∀ {trace : List Happening}, Rests trace → s'.trace = trace ++ [.select s'.current] →
      (∃ c, s'.sched.get? s'.current = some c ∧ c.status = .running) → Rests s'.trace := by
    rintro trace hrests htrace ⟨c, hc, hrunning⟩
    rw [htrace]
    refine hrests.wake (.inl rfl) fun sleep hid => ?_
    have hid' : Asleep (trace ++ [.select s'.current]) s'.current sleep := hid.concat fun hwakes => hwakes
    obtain ⟨c', hc', hblocked⟩ := hasleep _ sleep (htrace ▸ hid')
    cases hc.symm.trans hc'
    cases hrunning.symm.trans hblocked
  have hswitch : ∀ {t : Cpu} {r : Bool}, t.switch cpu = .ok (r, s') → Rests t.trace → Rests s'.trace := by
    intro t r hs hrests
    obtain ⟨⟨r', sched⟩, hsched, heq⟩ := eq_ok_of_map hs
    cases heq
    cases r' with
    | false => simpa using hrests
    | true => exact hselect hrests rfl (Scheduler.switch_current hsched).2
  have htick : Rests s.tick.trace := by
    unfold Cpu.tick
    exact h.rests.quiet (by simp)
  -- The context that runs is not asleep.
  have hawake : ∀ {sleep}, s.doing s.current = .sleeping sleep → ∀ sleep', ¬ Asleep s.trace s.current sleep' := by
    intro sleep hsleeping sleep' hid
    obtain ⟨-, -, c, hc, hblocked, -⟩ := h.asleep _ sleep' hid
    cases (h.resumed sleep c hsleeping hc).symm.trans hblocked
  cases hmove with
  | tick => exact htick
  | pit hs => exact hswitch hs htick
  | yield _ hs => exact hswitch hs h.rests
  | sleepSwitch _ hs => exact hswitch hs h.rests
  | fuseSwitch hcalling hsched =>
    obtain ⟨-, -, cc, hcc, -⟩ := hf.calling _ _ hcalling
    obtain ⟨caller, -, rfl⟩ := Scheduler.fuseSwitch_cases hsched
    exact hselect h.rests rfl ⟨_, (Scheduler.get?_fuseSwitch ..).trans (congrArg _ hcc), if_pos rfl⟩
  | exit _ hsched =>
    obtain ⟨c, hc, ⟨parent, hlink, rfl⟩ | ⟨-, -, hswitched⟩⟩ := Scheduler.exit_cases hsched
    · obtain ⟨hne, ⟨cp, hcp⟩, -⟩ := hf.linked _ c parent hc hlink
      have hcp : s.sched.exited.get? parent = some cp :=
        (Scheduler.get?_exited ..).trans ((if_neg hne).trans hcp)
      exact hselect h.rests rfl ⟨_, (Scheduler.get?_fuseReturn ..).trans (congrArg _ hcp), if_pos rfl⟩
    · exact hselect h.rests rfl (Scheduler.switch_current hswitched).2
  | wakeUp hsleeping => exact h.rests.wake (.inr rfl) (hawake hsleeping)
  | waited hsleeping => exact h.rests.wake (.inr rfl) (hawake hsleeping)
  | deliver | sleep => exact h.rests.quiet (by simp)
  | notify => exact h.rests.unblock
  | call | full | resume | sysReturn | cast | ask | check | leave | sleepFailed | push => exact h.rests

theorem Kept.step (h : s.Kept) (hf : s.Follows cpu T) (hcareful : s.Careful cpu a) (hmove : s.Moves cpu a s') :
    s'.Kept := by
  have hasleep : ∀ id sleep, Asleep s'.trace id sleep → _ := fun id sleep => h.asleep_step hf hcareful hmove
  refine ⟨?_, fun sleep c' hsleeping hc' => ?_, hasleep, h.rests_step hf hmove fun id sleep hid => ?_⟩
  · exact h.timed.step hf hmove (fun _ hwake _ => timed_of_no_wake hwake)
      fun hc _ hchange => h.timed_change hcareful hc rfl hchange
  · cases hc : s.sched.get? s'.current with
    | none => cases (hf.fresh hmove hc hc').1.symm.trans hsleeping
    | some c =>
      obtain ⟨c'', hc'', hchange⟩ := hf.change hc hmove
      cases hc'.symm.trans hc''
      rw [hsleeping] at hchange
      exact h.resumed_change hcareful hmove hc rfl rfl hchange
  · obtain ⟨-, -, c, hc, hblocked, -⟩ := hasleep id sleep hid
    exact ⟨c, hc, hblocked⟩

theorem kept_boot (cpu : Nat) : (boot cpu).Kept where
  timed id c hc := by
    obtain ⟨-, rfl⟩ := Scheduler.of_get?_boot hc
    exact timed_of_no_wake rfl
  resumed sleep c hsleeping := by cases hsleeping
  asleep id sleep hid := absurd hid not_asleep_nil
  rests before id sleep now between e after htrace := by cases before <;> cases htrace

/-- **A context that has gone to sleep rests until it is woken**: no switch chooses it, and its
call does not return, before it is unblocked or, in `nanosleep`, its time has come. This holds
in runs in which the context is `Runnable` when it goes to sleep, and its `switch` finds
another one. -/
theorem rests_until_woken (run : ReflTransGen (CarefulStep cpu) (boot cpu) s) : Rests s.trace := by
  have hinv : (∃ T, s.Follows cpu T) ∧ s.Kept :=
    invariant_of_step (fun s => (∃ T, s.Follows cpu T) ∧ Kept s) run ⟨⟨_, follows_boot cpu⟩, kept_boot cpu⟩ ?_
  · exact hinv.2.rests
  rintro s s' ⟨⟨T, hf⟩, hkept⟩ ⟨a, hcareful, hperform⟩
  have hmove := moves_of_perform hperform
  -- No time to wake up is left in a context that makes a fused call.
  have hawake : a = .fuseSwitch → s.CallerAwake := by
    rintro rfl c hc
    cases hmove with
    | fuseSwitch hcalling => exact .inr ((hkept.timed _ c hc).no_wake (by rw [hcalling]; rfl))
  obtain ⟨T', hf', -⟩ := hf.step hawake hmove
  exact ⟨⟨T', hf'⟩, hkept.step hf hcareful hmove⟩

end Kept

/-- The main thread gets an answer of the host while no other context runs, and then sleeps
for a nanosecond. -/
theorem nanosleep_rests : ∃ s, ReflTransGen (CarefulStep 0) (boot 0) s ∧
    s.trace = [.unblock 1, .sleep 1 (.nanosleep (0, 1)) (0, 0), .select 2, .clock (0, 2250286), .select 1,
      .wakeUp 1] ∧ Rests s.trace := by
  have hrun : (runMoves 0 (fun s a => decide (s.Careful 0 a)) (boot 0) [.ask 0, .check, .deliver 0 [1], .leave,
      .cast, .sleep (.nanosleep 0 1), .sleepSwitch, .pit, .yield, .wakeUp]).map Cpu.trace =
        some [.unblock 1, .sleep 1 (.nanosleep (0, 1)) (0, 0), .select 2, .clock (0, 2250286), .select 1,
          .wakeUp 1] := by decide +kernel
  obtain ⟨s, hs, htrace⟩ := Option.map_eq_some_iff.mp hrun
  have hreach : ReflTransGen (CarefulStep 0) (boot 0) s :=
    reaches_of_runMoves (fun _ a _ htest hperform => ⟨a, of_decide_eq_true htest, hperform⟩) hs
  exact ⟨s, hreach, htrace, rests_until_woken hreach⟩

/-- **A context that does not rest**: the main thread sleeps for ten seconds. It is switched to
again, and its call returns, before the clock has gone on at all. -/
theorem nanosleep_not_blocked : ∃ s, ReflTransGen (Step 0) (boot 0) s ∧
    s.trace = [.sleep 1 (.nanosleep (10, 0)) (0, 0), .select 2, .select 1, .wakeUp 1] ∧ ¬ Rests s.trace := by
  have hrun : (runMoves 0 (fun _ _ => true) (boot 0)
      [.cast, .sleep (.nanosleep 10 0), .sleepSwitch, .yield, .wakeUp]).map Cpu.trace =
        some [.sleep 1 (.nanosleep (10, 0)) (0, 0), .select 2, .select 1, .wakeUp 1] := by decide +kernel
  obtain ⟨s, hs, htrace⟩ := Option.map_eq_some_iff.mp hrun
  refine ⟨s, reaches_of_runMoves (fun _ a _ _ hperform => ⟨a, hperform⟩) hs, htrace, fun hrests => ?_⟩
  have hwoken := hrests [] 1 (.nanosleep (10, 0)) (0, 0) [.select 2] (.select 1) [.wakeUp 1] htrace (.inl rfl)
  revert hwoken
  decide

end Cpu

end Faastr.Sched
