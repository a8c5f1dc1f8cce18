import Faastr.Sched.Stacks

/-!
What a move does to one context.

Most of what is to be shown about the kernel is about one context, and about what it is doing. The
moves change a context in few ways (`Change`), and leave what is local to a context to be
checked for each of them.

* `Follows.change`: how a move changes the contexts that are there.
* `Follows.fresh`: what a context is like that a move inserts.
* `Everywhere.step`: how a local invariant is shown.
-/

namespace Faastr.Sched

open Faastr.Lib

namespace Cpu

/-- What a move does to the context `id`: what it was doing and was like, and is doing and is like
now. -/
inductive Change (cpu : Nat) (s s' : Cpu) (id : Nat) : CpuMove → Doing → Context → Doing → Context → Prop where
  | same {a : CpuMove} {d : Doing} {c : Context} : (s'.current = id → s.current = id) → Change cpu s s' id a d c d c
  | switched {a : CpuMove} {d : Doing} {c c' : Context} {sched : Scheduler} :
      Scheduler.Switched cpu s'.clock sched s'.sched id c c' → sched.contextId = s.current →
      Change cpu s s' id a d c d c'
  | calling {c : Context} {callee : Nat} : Change cpu s s' id .call .free c (.calling callee) c
  | fusing {c c' : Context} {callee : Nat} : s'.current ≠ id → c'.wake = c.wake →
      Change cpu s s' id .fuseSwitch (.calling callee) c (.fusing callee) c'
  | called {c : Context} : c.wake = none → Change cpu s s' id .fuseSwitch .free c .free { c with status := .running }
  | returning {c : Context} {values : List UInt8} :
      Change cpu s s' id (.sysReturn values) .free c .leaving { c with result := some values }
  | exited {d : Doing} {c c' : Context} : d = .free ∨ d = .leaving → c'.status = .exited → c'.wake = c.wake →
      Change cpu s s' id .exit d c .exiting c'
  | returned {callee : Nat} {c : Context} :
      Change cpu s s' id .exit (.fusing callee) c (.fusing callee) { c with status := .running }
  | resumed {callee : Nat} {c : Context} : Change cpu s s' id .resume (.fusing callee) c .free c
  | taken {c : Context} : Change cpu s s' id .resume .exiting c .exiting { c with result := none }
  | asking {callid : Nat} {c : Context} : Change cpu s s' id (.ask callid) .free c (.asking callid) c
  | hosting {callid : Nat} {c : Context} : s.current = id → Change cpu s s' id .check (.asking callid) c
      (.hosting callid) (if c.result = none then { c with status := .blocked } else c)
  | left {callid : Nat} {c : Context} :
      Change cpu s s' id .leave (.hosting callid) c .free { c with result := none }
  | delivered {callid : Nat} {values : List UInt8} {d : Doing} {c : Context} :
      d = .asking callid ∨ d = .hosting callid →
      Change cpu s s' id (.deliver callid values) d c d { c with result := some values }.unblock.2
  | entering {call : SleepCall} {c : Context} : s.current = id →
      Change cpu s s' id (.sleep call) .free c (.entering (call.sleep s.clock)) ((call.sleep s.clock).enter c)
  | queued {condition : Nat} {c : Context} :
      Change cpu s s' id .push (.entering (.wait condition)) c (.queued condition) c
  | sleeping {d : Doing} {sleep : Sleep} {c c' : Context} : s.current = id → d.sleep = some sleep →
      Scheduler.Switched cpu s'.clock s.sched s'.sched id c c' →
      Change cpu s s' id .sleepSwitch d c (.sleeping sleep) c'
  | woken {sleep : Sleep} {c : Context} : s.current = id →
      Change cpu s s' id .wakeUp (.sleeping sleep) c .free c
  | notified {condition : Nat} {d : Doing} {c : Context} : id ∈ s.conditions condition →
      s'.current = s.current → d = .queued condition ∨ d = .sleeping (.wait condition) →
      Change cpu s s' id (.notify condition) d c d c.unblock.2

section Change

variable {cpu : Nat} {s s' t : Cpu} {a : CpuMove} {id : Nat} {c c' : Context} {T : Threads}

/-- The context that runs does something else, and the others are left alone. -/
theorem Change.act {d : Doing} {f : Context → Context} (hc : s.sched.get? id = some c)
    (hcurrent : s'.current = s.current) (hdoing : s'.doing = s.nowDoing d)
    (hget : ∀ x, s'.sched.get? x = if x = s.current then (s.sched.get? x).map f else s.sched.get? x)
    (hself : id = s.current → Change cpu s s' id a (s.doing id) c d (f c)) :
    ∃ c', s'.sched.get? id = some c' ∧ Change cpu s s' id a (s.doing id) c (s'.doing id) c' := by
  rw [hget, hdoing, hc]
  by_cases hid : id = s.current
  · rw [if_pos hid]
    refine ⟨f c, rfl, ?_⟩
    have hnow : s.nowDoing d id = d := by rw [hid, nowDoing_self]
    rw [hnow]
    exact hself hid
  · rw [if_neg hid, nowDoing_of_ne hid]
    exact ⟨c, rfl, .same fun h => hcurrent ▸ h⟩

theorem Change.act_same {d : Doing} (hc : s.sched.get? id = some c) (hsched : s'.sched = s.sched)
    (hdoing : s'.doing = s.nowDoing d) (hself : id = s.current → Change cpu s s' id a (s.doing id) c d c) :
    ∃ c', s'.sched.get? id = some c' ∧ Change cpu s s' id a (s.doing id) c (s'.doing id) c' := by
  refine Change.act (f := fun c => c) hc (congrArg Scheduler.contextId hsched) hdoing (fun x => ?_) hself
  rw [hsched]
  split
  · simp
  · rfl

theorem Change.switch {r : Bool} (hc : s.sched.get? id = some c) (hsched : t.sched = s.sched)
    (hdoing : t.doing = s.doing) (hs : t.switch cpu = .ok (r, s')) :
    ∃ c', s'.sched.get? id = some c' ∧ Change cpu s s' id a (s.doing id) c (s'.doing id) c' := by
  obtain ⟨⟨r', sched⟩, hswitch, heq⟩ := eq_ok_of_map hs
  cases heq
  rw [hsched] at hswitch
  obtain ⟨c', hc', hswitched⟩ := Scheduler.switch_get hswitch hc
  exact ⟨c', hc', hdoing ▸ .switched hswitched rfl⟩

section Follows

variable (h : s.Follows cpu T) (hc : s.sched.get? id = some c)

include h hc

theorem Follows.change_fuseSwitch {callee ticks : Nat} {sched : Scheduler} {trace : List Happening}
    (hcalling : s.doing s.current = .calling callee) (hsched : s.sched.fuseSwitch callee = .ok sched)
    (hs' : s' = { s with doing := s.nowDoing (.fusing callee), sched, pitTicks := ticks, trace }) :
    ∃ c', s'.sched.get? id = some c' ∧ Change cpu s s' id .fuseSwitch (s.doing id) c (s'.doing id) c' := by
  obtain ⟨hfree, hne, cc, hcc, -, hwake, hlink⟩ := h.calling _ _ hcalling
  obtain ⟨caller, hcaller, rfl⟩ := Scheduler.fuseSwitch_cases hsched
  rw [hcc, Option.bind_some, hlink] at hcaller
  cases hcaller
  subst hs'
  refine ⟨_, (Scheduler.get?_fuseSwitch s.sched callee s.current id).trans (congrArg _ hc), ?_⟩
  by_cases hid : id = s.current
  · subst hid
    dsimp only
    rw [hcalling, nowDoing_self]
    exact .fusing hne rfl
  · dsimp only
    rw [nowDoing_of_ne hid]
    by_cases hid' : id = callee
    · subst hid'
      cases hc.symm.trans hcc
      rw [hfree]
      simpa using Change.called hwake
    · simpa [hid, hid'] using Change.same fun heq => absurd heq.symm hid'

theorem Follows.change_exit {sched : Scheduler} {ticks : Nat} {trace : List Happening}
    (hwhere : s.doing s.current = .free ∨ s.doing s.current = .leaving)
    (hsched : s.sched.exit cpu s.clock = .ok sched)
    (hs' : s' = { s with doing := s.nowDoing .exiting, sched, pitTicks := ticks, trace }) :
    ∃ c', s'.sched.get? id = some c' ∧ Change cpu s s' id .exit (s.doing id) c (s'.doing id) c' := by
  obtain ⟨cc, hcc, hcases⟩ := Scheduler.exit_cases hsched
  have hcc : s.sched.get? s.current = some cc := hcc
  subst hs'
  rcases hcases with ⟨parent, hlink, rfl⟩ | ⟨-, -, hswitch⟩
  · obtain ⟨hfusing, -, hne, -⟩ := h.parent_waits ((link_of_get hcc).trans hlink)
      fun k hk => (h.calling k _ hk).2.1 rfl
    have hget := Scheduler.get?_fuseReturn s.sched.exited s.current parent id
    rw [Scheduler.get?_exited] at hget
    by_cases hid : id = s.current
    · subst hid
      cases hc.symm.trans hcc
      rw [if_pos (show s.current = s.sched.contextId from rfl), hcc] at hget
      refine ⟨_, hget, ?_⟩
      dsimp only
      rw [nowDoing_self]
      exact .exited hwhere (by simp [hne]) rfl
    · rw [if_neg (show ¬ id = s.sched.contextId from hid), hc] at hget
      refine ⟨_, hget, ?_⟩
      dsimp only
      rw [nowDoing_of_ne hid]
      by_cases hid' : id = parent
      · subst hid'
        rw [hfusing]
        simpa using Change.returned
      · simpa [hid, hid'] using Change.same fun heq => absurd heq.symm hid'
  · have hget := Scheduler.get?_exited s.sched id
    by_cases hid : id = s.current
    · subst hid
      cases hc.symm.trans hcc
      rw [if_pos (show s.current = s.sched.contextId from rfl), hcc] at hget
      obtain ⟨c', hc', hswitched⟩ := Scheduler.switch_get hswitch hget
      refine ⟨c', hc', ?_⟩
      dsimp only
      rw [nowDoing_self]
      refine .exited hwhere (hswitched.exited rfl).1 ?_
      rcases hswitched.change with ⟨-, hwake, -⟩ | ⟨hno, -⟩ | ⟨hno, -⟩ | ⟨hno, -⟩
      · exact hwake
      all_goals simp at hno
    · rw [if_neg (show ¬ id = s.sched.contextId from hid), hc] at hget
      obtain ⟨c', hc', hswitched⟩ := Scheduler.switch_get hswitch hget
      refine ⟨c', hc', ?_⟩
      dsimp only
      rw [nowDoing_of_ne hid]
      exact .switched hswitched rfl

theorem Follows.change_resume {callee : Nat} (hfusing : s.doing s.current = .fusing callee)
    (hs' : s' = { s with
      doing := s.nowDoing .free
      sched := s.sched.modify callee fun c => { c with result := none } }) :
    ∃ c', s'.sched.get? id = some c' ∧ Change cpu s s' id .resume (s.doing id) c (s'.doing id) c' := by
  have hexiting : s.doing callee = .exiting := by
    have hrole := h.current_role
    rw [role_fusing hfusing] at hrole
    by_contra hnot
    simp [hnot] at hrole
  subst hs'
  have hget := Scheduler.get?_modify s.sched callee id fun c => { c with result := none }
  rw [hc] at hget
  by_cases hid : id = s.current
  · subst hid
    have hne : s.current ≠ callee := by
      rintro heq
      rw [← heq, hfusing] at hexiting
      cases hexiting
    refine ⟨c, hget.trans (if_neg hne), ?_⟩
    dsimp only
    rw [hfusing, nowDoing_self]
    exact .resumed
  · dsimp only
    rw [nowDoing_of_ne hid]
    by_cases hid' : id = callee
    · subst hid'
      rw [if_pos rfl] at hget
      rw [hexiting]
      exact ⟨_, hget, .taken⟩
    · exact ⟨c, hget.trans (if_neg hid'), .same fun heq => heq⟩

/-- **A move changes a context in one of a few ways.** -/
theorem Follows.change (hmove : s.Moves cpu a s') :
    ∃ c', s'.sched.get? id = some c' ∧ Change cpu s s' id a (s.doing id) c (s'.doing id) c' := by
  cases hmove with
  | tick =>
    obtain ⟨hsched, hdoing, -⟩ := tick_fields s
    rw [hsched, hdoing]
    exact ⟨c, hc, .same fun heq => (congrArg Scheduler.contextId hsched).symm.trans heq⟩
  | pit hs =>
    obtain ⟨hsched, hdoing, -⟩ := tick_fields s
    exact Change.switch hc hsched hdoing hs
  | yield _ hs => exact Change.switch hc rfl rfl hs
  | call hfree hinsert =>
    refine ⟨c, (ContextList.insert_old hinsert hc).2, ?_⟩
    by_cases hid : id = s.current
    · subst hid
      dsimp only
      rw [hfree, nowDoing_self]
      exact .calling
    · dsimp only
      rw [nowDoing_of_ne hid]
      exact .same fun heq => heq
  | full hinsert => exact ⟨c, (ContextList.get?_insert_error hinsert id).trans hc, .same fun heq => heq⟩
  | fuseSwitch hcalling hsched => exact h.change_fuseSwitch hc hcalling hsched rfl
  | resume hfusing _ _ => exact h.change_resume hc hfusing rfl
  | sysReturn hfree =>
    exact Change.act hc rfl rfl (fun x => Scheduler.get?_modify ..) fun hid => by rw [hid, hfree]; exact .returning
  | exit hwhere hsched => exact h.change_exit hc hwhere hsched rfl
  | cast => exact ⟨c, ContextList.inserted_old _ hc, .same fun heq => heq⟩
  | ask hfree => exact Change.act_same hc rfl rfl fun hid => by rw [hid, hfree]; exact .asking
  | check hasking =>
    refine Change.act hc rfl rfl (fun x => Scheduler.get?_modify ..) fun hid => ?_
    subst hid
    rw [hasking]
    exact .hosting rfl
  | leave hhosting _ _ _ =>
    exact Change.act hc rfl rfl (fun x => Scheduler.get?_modify ..) fun hid => by rw [hid, hhosting]; exact .left
  | @deliver callid id' values hqueue =>
    obtain ⟨hwaits, -⟩ := h.queue _ _ hqueue
    have hget := Scheduler.get?_modify s.sched id' id fun c => { c with result := some values }.unblock.2
    rw [hc] at hget
    by_cases hid : id = id'
    · subst hid
      exact ⟨_, hget.trans (if_pos rfl), .delivered hwaits⟩
    · exact ⟨c, hget.trans (if_neg hid), .same fun heq => heq⟩
  | sleep hfree _ =>
    refine Change.act hc rfl rfl (fun x => Scheduler.get?_modify ..) fun hid => ?_
    subst hid
    rw [hfree]
    exact .entering rfl
  | sleepFailed _ => exact ⟨c, hc, .same fun heq => heq⟩
  | push hentering => exact Change.act_same hc rfl rfl fun hid => by rw [hid, hentering]; exact .queued
  | sleepSwitch hdoing hs =>
    obtain ⟨⟨r', sched⟩, hswitch, heq⟩ := eq_ok_of_map hs
    cases heq
    obtain ⟨c', hc', hswitched⟩ := Scheduler.switch_get hswitch hc
    refine ⟨c', hc', ?_⟩
    by_cases hid : id = s.current
    · subst hid
      dsimp only
      rw [nowDoing_self]
      refine .sleeping rfl ?_ hswitched
      rcases hdoing with hdoing | ⟨condition, rfl, hdoing⟩ <;> rw [hdoing] <;> rfl
    · dsimp only
      rw [nowDoing_of_ne hid]
      exact .switched hswitched rfl
  | wakeUp hsleeping =>
    refine Change.act_same hc rfl rfl fun hid => ?_
    subst hid
    rw [hsleeping]
    exact .woken rfl
  | waited hsleeping =>
    refine Change.act_same hc rfl rfl fun hid => ?_
    subst hid
    rw [hsleeping]
    exact .woken rfl
  | @notify condition =>
    have hget := Scheduler.get?_unblockAll s.sched (s.conditions condition) id
    rw [hc] at hget
    have hcurrent : (s.sched.unblockAll (s.conditions condition)).contextId = s.current :=
      Scheduler.contextId_unblockAll ..
    by_cases hid : id ∈ s.conditions condition
    · refine ⟨c.unblock.2, hget.trans ?_, .notified hid hcurrent (h.conditions condition id hid)⟩
      simp [hid, Scheduler.unblock_eq]
    · refine ⟨c, hget.trans ?_, .same fun heq => hcurrent.symm.trans heq⟩
      simp [hid]

end Follows

/-- A context that a move inserts has done nothing. -/
theorem Follows.fresh (h : s.Follows cpu T) (hmove : s.Moves cpu a s') (hnone : s.sched.get? id = none)
    (hc' : s'.sched.get? id = some c') : s'.doing id = .free ∧ c'.wake = none ∧ c'.result = none := by
  have hfree := h.absent id hnone
  have hid : id ≠ s.current := by
    rintro rfl
    obtain ⟨c, hc⟩ := h.current
    cases hnone.symm.trans hc
  have hmodified : ∀ {k : Nat} {f : Context → Context}, (s.sched.modify k f).get? id = none := by
    intro k f
    rw [Scheduler.get?_modify, hnone]
    split
    · rfl
    · rfl
  have hswitched : ∀ {t : Cpu} {r : Bool}, t.switch cpu = .ok (r, s') → t.sched = s.sched → False := by
    intro t r hs hsched
    obtain ⟨⟨r', sched⟩, hswitch, heq⟩ := eq_ok_of_map hs
    cases heq
    have hsome := Scheduler.isSome_switch hswitch id
    rw [hsched, hnone, show sched.get? id = _ from hc'] at hsome
    cases hsome
  cases hmove with
  | tick =>
    rw [(tick_fields s).1] at hc'
    cases hnone.symm.trans hc'
  | pit hs => exact (hswitched hs (tick_fields s).1).elim
  | yield _ hs => exact (hswitched hs rfl).elim
  | sleepSwitch _ hs => exact (hswitched hs rfl).elim
  | call _ hinsert =>
    rcases ContextList.insert_cases hinsert hc' with ⟨-, rfl⟩ | hc
    · exact ⟨(nowDoing_of_ne hid _).trans hfree, rfl, rfl⟩
    · cases hnone.symm.trans hc
  | cast =>
    rcases ContextList.inserted_cases hc' with ⟨-, rfl⟩ | hc
    · exact ⟨hfree, rfl, rfl⟩
    · cases hnone.symm.trans hc
  | full hinsert => cases hnone.symm.trans ((ContextList.get?_insert_error hinsert id).symm.trans hc')
  | fuseSwitch _ hsched =>
    obtain ⟨caller, -, rfl⟩ := Scheduler.fuseSwitch_cases hsched
    cases (congrArg _ hnone).symm.trans ((Scheduler.get?_fuseSwitch ..).symm.trans hc')
  | exit _ hsched =>
    have hexited : s.sched.exited.get? id = none := hmodified
    obtain ⟨c, hc, ⟨parent, -, rfl⟩ | ⟨-, -, hswitch⟩⟩ := Scheduler.exit_cases hsched
    · cases (congrArg _ hexited).symm.trans ((Scheduler.get?_fuseReturn ..).symm.trans hc')
    · have hsome := Scheduler.isSome_switch hswitch id
      rw [hexited, hc'] at hsome
      cases hsome
  | notify => cases (congrArg _ hnone).symm.trans ((Scheduler.get?_unblockAll ..).symm.trans hc')
  | resume | sysReturn | check | leave | deliver | sleep => cases hmodified.symm.trans hc'
  | ask | sleepFailed | push | wakeUp | waited => cases hnone.symm.trans hc'

/-- Something holds of every context and of what it is doing. -/
def Everywhere (P : Doing → Context → Prop) (s : Cpu) : Prop :=
  ∀ id c, s.sched.get? id = some c → P (s.doing id) c

/-- **What is local to a context** is kept by a move if each change of a context keeps it. -/
theorem Everywhere.step {P : Doing → Context → Prop} (hP : s.Everywhere P) (h : s.Follows cpu T)
    (hmove : s.Moves cpu a s') (hfresh : ∀ c, c.wake = none → c.result = none → P .free c)
    (hchange : ∀ {id c d' c'}, s.sched.get? id = some c → P (s.doing id) c →
      Change cpu s s' id a (s.doing id) c d' c' → P d' c') :
    s'.Everywhere P := by
  intro id c' hc'
  cases hc : s.sched.get? id with
  | none =>
    obtain ⟨hfree, hwake, hresult⟩ := h.fresh hmove hc hc'
    rw [hfree]
    exact hfresh c' hwake hresult
  | some c =>
    obtain ⟨c'', hc'', hchanged⟩ := h.change hc hmove
    cases hc'.symm.trans hc''
    exact hchange hc (hP id c hc) hchanged

end Change

end Cpu

end Faastr.Sched
