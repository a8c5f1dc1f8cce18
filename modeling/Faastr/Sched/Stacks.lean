import Faastr.Sched.Books
import Faastr.Sched.CallStack

/-!
The call stacks of the kernel, in every run on one CPU.

A context that made a fused call waits inside of `fuse_inner` until its callee exits. It keeps
the status `Running`, or is `Blocked`, and is not switched to meanwhile; but a `Blocked` context
wakes up if it has a wake time, which `nanosleep` leaves behind (`CallerAwake`). As long as this
does not happen, each context is in the state that the call stacks say (`Follows`).

* `Follows.reschedule`, `Follows.act`, `Follows.unblock`: what leaves the call stacks as they are.
* `Follows.fuseSwitch`, `Follows.exitReturn`, `Follows.exitSwitch`: a call pushes the callee, and an
  exit pops it.
* `Follows.step`: every step is one of call stacks.
-/

namespace Faastr.Sched

open Faastr.Lib Relation

/-- What a context has to do with fused calls. -/
inductive Role where
  | plain
  /-- It waits for its callee. -/
  | waiting
  /-- Its callee has exited. -/
  | returned
  | gone
deriving DecidableEq

/-- What a context in a role is like: only the one that runs, and those that wait, have the status
`Running`. -/
def Role.Fits (current : Prop) (c : Context) : Role → Prop
  | .plain => c.status ≠ .exited ∧ (c.status = .running → current) ∧ (current → c.status ≠ .new)
  | .waiting => (c.status = .running ∨ c.status = .blocked ∧ c.wake = none) ∧ ¬ current
  | .returned => c.status = .runnable ∨ c.status = .running ∧ current
  | .gone => c.status = .exited ∧ c.retLink = none ∧ ¬ current

/-- `switch` changes no role. -/
theorem Role.Fits.switched {cpu : Nat} {now : Nat × Nat} {s s' : Scheduler} {id : Nat} {c c' : Context}
    {role : Role} (h : role.Fits (s.contextId = id) c) (hs : Scheduler.Switched cpu now s s' id c c') :
    role.Fits (s'.contextId = id) c' := by
  cases role with
  | plain =>
    obtain ⟨hexited, hrunning, hnew⟩ := h
    refine ⟨?_, fun hnow => ?_, ?_⟩
    · rcases hs.change with ⟨hsame, -⟩ | ⟨-, -, -, ⟨hnow, -⟩ | ⟨hnow, -⟩⟩ | ⟨-, hnow, -⟩ | ⟨-, hnow, -⟩
      · rwa [hsame]
      all_goals simp [hnow]
    · exact (hs.running hnow).resolve_right fun hbefore => hbefore.2 (hrunning hbefore.1)
    · rcases hs.change with ⟨hsame, -, hid⟩ | ⟨-, -, -, ⟨hnow, -⟩ | ⟨hnow, -⟩⟩ | ⟨-, hnow, -⟩ | ⟨-, hnow, -⟩
      · rw [hsame]
        exact fun hcurrent => hnew (hid hcurrent)
      all_goals simp [hnow]
  | waiting =>
    obtain ⟨hstatus, hid⟩ := h
    rcases hs.change with ⟨hsame, hwake, hid'⟩ | ⟨hblocked, ⟨wake, hsome, -⟩, -⟩ | ⟨-, -, -, hid', -⟩ | ⟨hready, -⟩
    · rw [Fits, hsame, hwake]
      exact ⟨hstatus, fun hcurrent => hid (hid' hcurrent)⟩
    · simp [hblocked, hsome] at hstatus
    · exact absurd hid' hid
    · rcases hready with hready | hready <;> simp [hready] at hstatus
  | returned =>
    rcases hs.change with ⟨hsame, -, hid⟩ | ⟨hblocked, -⟩ | ⟨-, hnow, -⟩ | ⟨-, hnow, -, hid⟩
    · refine h.imp hsame.trans fun hbefore => ?_
      have hnow := hsame.trans hbefore.1
      exact ⟨hnow, (hs.running hnow).resolve_right fun hleft => hleft.2 hbefore.2⟩
    · simp [Fits, hblocked] at h
    · exact .inl hnow
    · exact .inr ⟨hnow, hid⟩
  | gone =>
    obtain ⟨hexited, hlink, hid⟩ := h
    obtain ⟨hexited', hid'⟩ := hs.exited hexited
    exact ⟨hexited', hs.retLink.trans hlink, fun hcurrent => hid (hid' hcurrent)⟩

theorem Role.Fits.congr {current current' : Prop} {c c' : Context} {role : Role} (h : role.Fits current c)
    (hstatus : c'.status = c.status) (hwake : c'.wake = c.wake) (hlink : c'.retLink = c.retLink)
    (hcurrent : current' ↔ current) : role.Fits current' c' := by
  cases role with
  | plain => rwa [Fits, hstatus, hcurrent]
  | waiting => rwa [Fits, hstatus, hwake, hcurrent]
  | returned => rwa [Fits, hstatus, hcurrent]
  | gone => rwa [Fits, hstatus, hlink, hcurrent]

/-- A context is unblocked. -/
theorem Role.Fits.unblocked {current : Prop} {c c' : Context} (hfits : Role.plain.Fits current c)
    (hstatus : c'.status = if c.status = .blocked then .runnable else c.status) : Role.plain.Fits current c' := by
  by_cases hblocked : c.status = .blocked
  · rw [if_pos hblocked] at hstatus
    exact ⟨by simp [hstatus], by simp [hstatus], by simp [hstatus]⟩
  · rw [if_neg hblocked] at hstatus
    rwa [Fits, hstatus]

namespace Cpu

/-- The role of each context, from what they are doing. -/
def role (doing : Nat → Doing) (id : Nat) : Role :=
  match doing id with
  | .exiting => .gone
  | .fusing callee => if doing callee = .exiting then .returned else .waiting
  | _ => .plain

/-- The context to return to. -/
def link (s : Cpu) (id : Nat) : Option Nat := (s.sched.get? id).bind Context.retLink

/-- What a context has returned. -/
def returned (s : Cpu) (id : Nat) : Option (List UInt8) := (s.sched.get? id).bind Context.result

/-- The callers of a context, innermost first. -/
def Chain (s : Cpu) : Nat → List Nat → Prop
  | id, [] => s.link id = none
  | id, caller :: callers => s.link id = some caller ∧ s.Chain caller callers

/-- What a context on top of a stack is doing. -/
def ModeOk (s : Cpu) (id : Nat) : Mode → Prop
  | .active => role s.doing id = .plain ∧ s.doing id ≠ .leaving
  | .returning values => s.doing id = .leaving ∧ s.returned id = some values
  | .resuming callee values =>
      s.doing id = .fusing callee ∧ s.doing callee = .exiting ∧ s.returned callee = values

/-- The context is on top of the stack of a thread. -/
structure Stands (s : Cpu) (id : Nat) (t : Thread) : Prop where
  present : ∃ c, s.sched.get? id = some c
  /-- It is not a callee that has not been switched to. -/
  started : ∀ k, s.doing k ≠ .calling id
  mode : s.ModeOk id t.mode
  chain : s.Chain id t.callers

/-- The contexts are in the state that the call stacks say. -/
structure Follows (cpu : Nat) (s : Cpu) (T : Threads) : Prop extends s.Sound where
  fits : ∀ id c, s.sched.get? id = some c → (role s.doing id).Fits (s.current = id) c
  owned : ∀ id c, s.sched.get? id = some c → c.cpuId = none ∨ c.cpuId = some cpu
  /-- A context is linked to the one that waits for it. -/
  parent : ∀ id p, s.link id = some p → s.doing p = .calling id ∨ s.doing p = .fusing id
  fused : ∀ p id, s.doing p = .fusing id → s.doing id = .exiting ∨ s.link id = some p
  /-- No two contexts wait for one callee. -/
  unique : ∀ p p' id, s.doing p = .fusing id → s.doing p' = .fusing id → p = p'
  tops : ∀ id t, T id = some t → s.Stands id t
  /-- The contexts that do not wait for a callee are on top. -/
  covered : ∀ id c, s.sched.get? id = some c → role s.doing id = .plain ∨ role s.doing id = .returned →
    (∀ k, s.doing k ≠ .calling id) → (T id).isSome
  /-- The main thread does not end. -/
  main : ∃ id t, T id = some t ∧ 1 ∈ id :: t.callers
  mainLink : s.link 1 = none

/-- What a move does to the call stacks. -/
def event (s : Cpu) : CpuMove → Option Event
  | .fuseSwitch =>
      match s.doing s.current with
      | .calling callee => some (.call s.current callee)
      | _ => none
  | .resume =>
      match s.doing s.current with
      | .fusing callee => some (.resume s.current callee (s.returned callee))
      | _ => none
  | .sysReturn values => some (.sysReturn s.current values)
  | .exit => some (.exit s.current)
  | .cast =>
      match s.sched.contexts.insert { Context.new with status := .new } with
      | (.ok id, _) => some (.cast id)
      | (.error _, _) => none
  | _ => none

/-- The context that makes a fused call has the status `Running`, or no wake time is left in it. -/
def CallerAwake (s : Cpu) : Prop :=
  ∀ c, s.sched.get? s.current = some c → c.status = .running ∨ c.wake = none

section Role

variable {doing doing' : Nat → Doing} {id : Nat}

theorem role_fusing {callee : Nat} (h : doing id = .fusing callee) :
    role doing id = if doing callee = .exiting then .returned else .waiting := by
  rw [role, h]

theorem role_exiting (h : doing id = .exiting) : role doing id = .gone := by
  rw [role, h]

/-- What has nothing to do with fused calls, and is not the end of a context. -/
def Loose : Doing → Prop
  | .calling _ | .fusing _ | .leaving | .exiting => False
  | _ => True

theorem role_loose (h : Loose (doing id)) : role doing id = .plain := by
  unfold role
  cases hd : doing id <;> rw [hd] at h <;> first | rfl | exact h.elim

theorem role_calling {callee : Nat} (h : doing id = .calling callee) : role doing id = .plain := by
  rw [role, h]

theorem role_leaving (h : doing id = .leaving) : role doing id = .plain := by
  rw [role, h]

theorem not_fusing_of_plain (h : role doing id = .plain) (callee : Nat) : doing id ≠ .fusing callee := by
  intro hfusing
  rw [role_fusing hfusing] at h
  split at h
  · cases h
  · cases h

/-- The role of a context depends on what it does, and on whether its callee has exited. -/
theorem role_congr (hid : doing' id = doing id)
    (hcallee : ∀ callee, doing id = .fusing callee → (doing' callee = .exiting ↔ doing callee = .exiting)) :
    role doing' id = role doing id := by
  unfold role
  rw [hid]
  cases hd : doing id with
  | fusing callee => simp only [hcallee callee hd]
  | _ => rfl

end Role

section Follows

variable {cpu : Nat} {s s' : Cpu} {T T' : Threads} {id x : Nat} {c : Context} {t : Thread} {callers : List Nat}

theorem link_of_get (hc : s.sched.get? id = some c) : s.link id = c.retLink := by
  rw [link, hc]
  rfl

theorem returned_of_get (hc : s.sched.get? id = some c) : s.returned id = c.result := by
  rw [returned, hc]
  rfl

theorem link_congr (hnone : s.sched.get? id = none → s'.sched.get? id = none)
    (hsome : ∀ c, s.sched.get? id = some c → ∃ c', s'.sched.get? id = some c' ∧ c'.retLink = c.retLink) :
    s'.link id = s.link id := by
  cases hc : s.sched.get? id with
  | none => rw [link, link, hnone hc, hc]
  | some c =>
    obtain ⟨c', hc', hlink⟩ := hsome c hc
    rw [link_of_get hc', link_of_get hc, hlink]

/-- Who calls a context, if one context does something else. -/
theorem not_calling {doing doing' : Nat → Doing} {k₀ : Nat} (hother : ∀ k, k ≠ k₀ → doing' k = doing k)
    (hself : doing k₀ ≠ .calling id) (hstarted : ∀ k, doing' k ≠ .calling id) (k : Nat) :
    doing k ≠ .calling id := by
  by_cases hk : k = k₀
  · exact hk ▸ hself
  · exact hother k hk ▸ hstarted k

theorem Chain.congr (h : s.Chain id callers) (hsame : ∀ x ∈ id :: callers, s'.link x = s.link x) :
    s'.Chain id callers := by
  induction callers generalizing id with
  | nil => exact (hsame id List.mem_cons_self).trans h
  | cons caller callers ih =>
    exact ⟨(hsame id List.mem_cons_self).trans h.1, ih h.2 fun x hx => hsame x (List.mem_cons_of_mem id hx)⟩

theorem Chain.cons_of_link {p : Nat} (h : s.Chain id callers) (hlink : s.link id = some p) :
    ∃ rest, callers = p :: rest ∧ s.Chain p rest := by
  cases callers with
  | nil => cases (show s.link id = none from h).symm.trans hlink
  | cons caller callers =>
    cases h.1.symm.trans hlink
    exact ⟨callers, rfl, h.2⟩

theorem Chain.nil_of_link (h : s.Chain id callers) (hlink : s.link id = none) : callers = [] := by
  cases callers with
  | nil => rfl
  | cons caller callers => cases h.1.symm.trans hlink

section Frame

variable (h : s.Follows cpu T)

include h

/-- The context that runs has not exited, and does not wait. -/
theorem Follows.current_role : role s.doing s.current = .plain ∨ role s.doing s.current = .returned := by
  obtain ⟨c, hc⟩ := h.current
  have hfits := h.fits _ c hc
  cases hrole : role s.doing s.current with
  | plain => exact .inl rfl
  | returned => exact .inr rfl
  | waiting =>
    rw [hrole] at hfits
    exact absurd rfl hfits.2
  | gone =>
    rw [hrole] at hfits
    exact absurd rfl hfits.2.2

theorem Follows.current_not_exiting : s.doing s.current ≠ .exiting := by
  intro hexiting
  have hrole := h.current_role
  simp [role_exiting hexiting] at hrole

/-- The others keep their roles, but for the caller of a context that exits. -/
theorem Follows.role_other (hother : ∀ x, x ≠ s.current → s'.doing x = s.doing x) (hx : x ≠ s.current)
    (hexit : s'.doing s.current = .exiting → s.doing x ≠ .fusing s.current) :
    role s'.doing x = role s.doing x := by
  refine role_congr (hother x hx) fun callee hcallee => ?_
  by_cases hcurrent : callee = s.current
  · subst hcurrent
    exact iff_of_false (fun hnow => hexit hnow hcallee) h.current_not_exiting
  · rw [hother callee hcurrent]

theorem Follows.exiting_other (hother : ∀ x, x ≠ s.current → s'.doing x = s.doing x)
    (hx : s.doing x = .exiting) : s'.doing x = .exiting := by
  refine (hother x ?_).trans hx
  rintro rfl
  exact h.current_not_exiting hx

/-- The context that runs is on top of a stack. -/
theorem Follows.top : ∃ t, T s.current = some t := by
  obtain ⟨c, hc⟩ := h.current
  exact Option.isSome_iff_exists.mp
    (h.covered _ c hc h.current_role fun k hk => (h.calling k _ hk).2.1 rfl)

theorem Follows.link_exiting (hid : s.doing id = .exiting) : s.link id = none := by
  cases hc : s.sched.get? id with
  | none => rw [link, hc]; rfl
  | some c =>
    have hfits := h.fits id c hc
    rw [role_exiting hid] at hfits
    exact (link_of_get hc).trans hfits.2.1

/-- A context that is fusing has been switched to. -/
theorem Follows.started_of_fusing {callee : Nat} (hid : s.doing id = .fusing callee) (k : Nat) :
    s.doing k ≠ .calling id := by
  intro hk
  cases hid.symm.trans (h.calling k id hk).1

/-- The parent of a context that has been switched to waits for it. -/
theorem Follows.parent_waits {p : Nat} (hlink : s.link id = some p) (hstarted : ∀ k, s.doing k ≠ .calling id) :
    s.doing p = .fusing id ∧ role s.doing p = .waiting ∧ s.current ≠ p ∧ ∃ c, s.sched.get? p = some c := by
  have hfusing := (h.parent id p hlink).resolve_left (hstarted p)
  have hrole : role s.doing p = .waiting := by
    rw [role_fusing hfusing, if_neg]
    intro hexiting
    cases (h.link_exiting hexiting).symm.trans hlink
  obtain ⟨c, hc, hparent⟩ := Option.bind_eq_some_iff.mp hlink
  obtain ⟨-, ⟨cp, hcp⟩, -⟩ := h.linked id c p hc hparent
  have hfits := h.fits p cp hcp
  rw [hrole] at hfits
  exact ⟨hfusing, hrole, hfits.2, cp, hcp⟩

/-- The callers of a context wait, each for the one above it. -/
theorem Follows.chain_waits (hchain : s.Chain id callers) (hstarted : ∀ k, s.doing k ≠ .calling id)
    (hx : x ∈ callers) : role s.doing x = .waiting ∧ s.current ≠ x ∧ ∃ c, s.sched.get? x = some c := by
  induction callers generalizing id with
  | nil => cases hx
  | cons caller callers ih =>
    obtain ⟨hlink, hchain⟩ := hchain
    obtain ⟨hfusing, hwaits⟩ := h.parent_waits hlink hstarted
    rcases List.mem_cons.mp hx with rfl | hx
    · exact hwaits
    · exact ih hchain (h.started_of_fusing hfusing) hx

/-- A context on top of a stack does not wait, and has not exited. -/
theorem Follows.top_role (ht : T id = some t) : role s.doing id = .plain ∨ role s.doing id = .returned := by
  obtain ⟨mode, callers⟩ := t
  have hmode := (h.tops id _ ht).mode
  cases mode with
  | active => exact .inl hmode.1
  | returning values => exact .inl (role_leaving hmode.1)
  | resuming callee values => exact .inr ((role_fusing hmode.1).trans (if_pos hmode.2.1))

/-- The context that runs goes on, unless it is in a fused call or about to exit. -/
theorem Follows.mode_active {mode : Mode} (ht : T s.current = some ⟨mode, callers⟩)
    (hfusing : ∀ callee, s.doing s.current ≠ .fusing callee) (hleaving : s.doing s.current ≠ .leaving) :
    mode = .active := by
  have hmode := (h.tops _ _ ht).mode
  cases mode with
  | active => rfl
  | returning values => exact absurd hmode.1 hleaving
  | resuming callee values => exact absurd hmode.1 (hfusing callee)

theorem Follows.not_top (hwaits : role s.doing id = .waiting ∨ role s.doing id = .gone) : T id = none := by
  by_contra hsome
  obtain ⟨t, ht⟩ := Option.ne_none_iff_exists'.mp hsome
  rcases h.top_role ht with hrole | hrole <;> simp [hrole] at hwaits

theorem Follows.not_top_of_none (hid : s.sched.get? id = none) : T id = none := by
  by_contra hsome
  obtain ⟨t, ht⟩ := Option.ne_none_iff_exists'.mp hsome
  obtain ⟨c, hc⟩ := (h.tops id t ht).present
  cases hid.symm.trans hc

/-- **A thread that the running context is not on top of**, or that it leaves as it is, stays. -/
theorem Follows.stands (ht : T id = some t) (hself : s'.doing id = s.doing id)
    (hother : ∀ x, x ≠ s.current → s'.doing x = s.doing x)
    (hget : ∀ x c, (x = s.current → id = s.current) → s.sched.get? x = some c → ∃ c', s'.sched.get? x = some c' ∧
      c'.retLink = c.retLink ∧ (s.doing x = .leaving ∨
        s.doing x = .exiting ∧ (s.doing s.current = .fusing x → id = s.current) → c'.result = c.result))
    (hcalling : s'.doing s.current ≠ .calling id) : s'.Stands id t := by
  obtain ⟨⟨c, hc⟩, hstarted, hmode, hchain⟩ := h.tops id t ht
  obtain ⟨c', hc', -, hresult⟩ := hget id c (fun hx => hx) hc
  refine ⟨⟨c', hc'⟩, not_calling (fun k hk => (hother k hk).symm) hcalling hstarted, ?_,
    hchain.congr fun x hx => ?_⟩
  · obtain ⟨mode, callers⟩ := t
    cases mode with
    | active =>
      have hcongr : role s'.doing id = role s.doing id :=
        role_congr hself fun callee hfusing => absurd hfusing (not_fusing_of_plain hmode.1 callee)
      exact ⟨hcongr.trans hmode.1, hself ▸ hmode.2⟩
    | returning values =>
      refine ⟨hself.trans hmode.1, ?_⟩
      rw [returned_of_get hc', hresult (.inl hmode.1), ← returned_of_get hc]
      exact hmode.2
    | resuming callee values =>
      obtain ⟨hfusing, hexiting, hvalues⟩ := hmode
      have hne : callee ≠ s.current := by
        rintro rfl
        exact h.current_not_exiting hexiting
      refine ⟨hself.trans hfusing, (hother callee hne).trans hexiting, ?_⟩
      cases hcallee : s.sched.get? callee with
      | none => cases hexiting.symm.trans (h.absent callee hcallee)
      | some cc =>
        obtain ⟨cc', hcc', -, hkeep⟩ := hget callee cc (fun hx => absurd hx hne) hcallee
        rw [returned_of_get hcc', hkeep (.inr ⟨hexiting, h.unique _ _ _ hfusing⟩), ← returned_of_get hcallee]
        exact hvalues
  · have hpresent : (x = s.current → id = s.current) ∧ ∃ c, s.sched.get? x = some c := by
      rcases List.mem_cons.mp hx with rfl | hx
      · exact ⟨fun hx => hx, c, hc⟩
      · obtain ⟨-, hne, hsome⟩ := h.chain_waits hchain hstarted hx
        exact ⟨fun hx => absurd hx.symm hne, hsome⟩
    obtain ⟨hne, cx, hcx⟩ := hpresent
    obtain ⟨cx', hcx', hlink', -⟩ := hget x cx hne hcx
    rw [link_of_get hcx', hlink', link_of_get hcx]

/-- The context on top of the main thread's stack, and its callers, are there. -/
theorem Follows.main_present : ∃ c, s.sched.get? 1 = some c := by
  obtain ⟨id, t, ht, hmem⟩ := h.main
  have hstands := h.tops id t ht
  rcases List.mem_cons.mp hmem with rfl | hmem
  · exact hstands.present
  · exact (h.chain_waits hstands.chain hstands.started hmem).2.2

/-- Where links and exits are the same, a caller waits for the same callee. -/
theorem Follows.fused_congr (hdoing : ∀ p x, s'.doing p = .fusing x → s.doing p = .fusing x)
    (hexiting : ∀ x, s.doing x = .exiting → s'.doing x = .exiting)
    (hlink : ∀ x, s.link x ≠ none → s'.link x = s.link x) (p x : Nat) (hp : s'.doing p = .fusing x) :
    s'.doing x = .exiting ∨ s'.link x = some p := by
  refine (h.fused p x (hdoing p x hp)).imp (hexiting x) fun hparent => ?_
  rw [hlink x (by simp [hparent]), hparent]

/-! ### Moves that leave the call stacks as they are -/

/-- **Contexts are scheduled**, and keep their roles. -/
theorem Follows.reschedule (hsound : s'.Sound) (hdoing : s'.doing = s.doing)
    (hnone : ∀ x, s.sched.get? x = none → s'.sched.get? x = none)
    (hsome : ∀ x c, s.sched.get? x = some c → ∃ c', s'.sched.get? x = some c' ∧ c'.retLink = c.retLink ∧
      (s.doing x = .leaving ∨ s.doing x = .exiting → c'.result = c.result) ∧
      (c'.cpuId = c.cpuId ∨ c'.cpuId = some cpu) ∧
      ((role s.doing x).Fits (s.current = x) c → (role s.doing x).Fits (s'.current = x) c')) :
    s'.Follows cpu T := by
  have hlink : ∀ x, s'.link x = s.link x := fun x =>
    link_congr (hnone x) fun c hc => (hsome x c hc).imp fun _ hc' => ⟨hc'.1, hc'.2.1⟩
  refine ⟨hsound, ?_, ?_, ?_, ?_, ?_, ?_, ?_, h.main, (hlink 1).trans h.mainLink⟩
  · intro x c' hc'
    obtain ⟨c, hc, -, -, -, hfits⟩ := get_of_after (hnone x) (hsome x) hc'
    rw [hdoing]
    exact hfits (h.fits x c hc)
  · intro x c' hc'
    obtain ⟨c, hc, -, -, hcpu | hcpu, -⟩ := get_of_after (hnone x) (hsome x) hc'
    · rw [hcpu]
      exact h.owned x c hc
    · exact .inr hcpu
  · intro x p hx
    rw [hdoing]
    exact h.parent x p ((hlink x).symm.trans hx)
  · exact h.fused_congr (fun _ _ => hdoing ▸ id) (fun _ => hdoing ▸ id) fun x _ => hlink x
  · rw [hdoing]
    exact h.unique
  · intro x t ht
    refine h.stands ht (by rw [hdoing]) (fun y _ => by rw [hdoing]) (fun y c _ hc => ?_) ?_
    · obtain ⟨c', hc', hlink', hresult, -⟩ := hsome y c hc
      exact ⟨c', hc', hlink', fun hwhy => hresult (hwhy.imp_right And.left)⟩
    · rw [hdoing]
      exact (h.tops x t ht).started _
  · intro x c' hc' hrole hstarted
    obtain ⟨c, hc, -⟩ := get_of_after (hnone x) (hsome x) hc'
    exact h.covered x c hc (hdoing ▸ hrole) (hdoing ▸ hstarted)

/-- Nobody is to return to the context that runs, unless it is about to switch to a callee. -/
theorem Follows.link_ne_current (hbefore : ∀ x, s.doing s.current ≠ .calling x) (x : Nat) :
    s.link x ≠ some s.current := by
  intro hlink
  have hfusing := (h.parent x _ hlink).resolve_left (hbefore x)
  have hrole := h.current_role
  rw [role_fusing hfusing] at hrole
  split at hrole
  · next hexiting => cases (h.link_exiting hexiting).symm.trans hlink
  · simp at hrole

/-- **The context that runs does something else**, which is neither a fused call nor an exit. -/
theorem Follows.now {mode mode' : Mode} {d : Doing} (hsound : s'.Sound) (ht : T s.current = some ⟨mode, callers⟩)
    (hcurrent : s'.current = s.current) (hdoing : s'.doing = s.nowDoing d)
    (hbefore : ∀ x, s.doing s.current ≠ .calling x) (hd : Loose d ∨ d = .leaving)
    (hnone : ∀ x, s.sched.get? x = none → s'.sched.get? x = none)
    (hsome : ∀ x c, s.sched.get? x = some c → ∃ c', s'.sched.get? x = some c' ∧ c'.retLink = c.retLink ∧
      c'.cpuId = c.cpuId ∧ (x ≠ s.current → c'.status = c.status ∧ c'.wake = c.wake ∧
        (s.doing s.current ≠ .fusing x → c'.result = c.result)) ∧
      (x = s.current → c'.status ≠ .exited ∧ c'.status ≠ .new))
    (hmode : s'.ModeOk s.current mode') :
    s'.Follows cpu (Function.update T s.current (some ⟨mode', callers⟩)) := by
  have hself : s'.doing s.current = d := by rw [hdoing, nowDoing_self]
  have hother : ∀ x, x ≠ s.current → s'.doing x = s.doing x := fun x hx => by rw [hdoing, nowDoing_of_ne hx]
  have hplain : role s'.doing s.current = .plain := by
    rcases hd with hd | hd
    · exact role_loose (hself ▸ hd)
    · exact role_leaving (hself.trans hd)
  have hnever : d ≠ .exiting ∧ (∀ x, d ≠ .calling x) ∧ ∀ x, d ≠ .fusing x := by
    rcases hd with hd | rfl
    · refine ⟨?_, fun x => ?_, fun x => ?_⟩ <;> rintro rfl <;> exact hd
    · simp
  have hcalling : ∀ x, s'.doing s.current ≠ .calling x := hself ▸ hnever.2.1
  have hrole : ∀ {x}, x ≠ s.current → role s'.doing x = role s.doing x := fun hx =>
    h.role_other hother hx fun hexit => absurd (hself.symm.trans hexit) hnever.1
  have hlink : ∀ x, s'.link x = s.link x := fun x =>
    link_congr (hnone x) fun c hc => (hsome x c hc).imp fun _ hc' => ⟨hc'.1, hc'.2.1⟩
  have hfusing : ∀ p x, s'.doing p = .fusing x → s.doing p = .fusing x := by
    intro p x hp
    by_cases hne : p = s.current
    · exact absurd (hself.symm.trans (hne ▸ hp)) (hnever.2.2 x)
    · exact (hother p hne).symm.trans hp
  refine ⟨hsound, ?_, ?_, ?_, ?_, ?_, ?_, ?_, ?_, (hlink 1).trans h.mainLink⟩
  · intro x c' hc'
    obtain ⟨c, hc, hlink, -, hsame, hstatus⟩ := get_of_after (hnone x) (hsome x) hc'
    by_cases hx : x = s.current
    · rw [hx, hplain]
      exact ⟨(hstatus hx).1, fun _ => hcurrent, fun _ => (hstatus hx).2⟩
    · rw [hrole hx]
      exact (h.fits x c hc).congr (hsame hx).1 (hsame hx).2.1 hlink (by rw [hcurrent])
  · intro x c' hc'
    obtain ⟨c, hc, -, hcpu, -⟩ := get_of_after (hnone x) (hsome x) hc'
    rw [hcpu]
    exact h.owned x c hc
  · intro x p hx
    have hp : s.link x = some p := (hlink x).symm.trans hx
    have hne : p ≠ s.current := by
      rintro rfl
      exact h.link_ne_current hbefore x hp
    rw [hother p hne]
    exact h.parent x p hp
  · refine h.fused_congr hfusing (fun x hx => ?_) fun x _ => hlink x
    have hne : x ≠ s.current := by
      rintro rfl
      exact h.current_not_exiting hx
    exact (hother x hne).trans hx
  · exact fun p p' x hp hp' => h.unique p p' x (hfusing p x hp) (hfusing p' x hp')
  · intro x t hx
    by_cases hne : x = s.current
    · subst hne
      cases (Function.update_self ..).symm.trans hx
      obtain ⟨⟨c, hc⟩, hstarted, -, hchain⟩ := h.tops _ _ ht
      obtain ⟨c', hc', -⟩ := hsome _ c hc
      exact ⟨⟨c', hc'⟩, not_calling (fun k hk => (hother k hk).symm) (hcalling _) hstarted, hmode,
        hchain.congr fun x _ => hlink x⟩
    · rw [Function.update_of_ne hne] at hx
      refine h.stands hx (hother x hne) hother (fun y c hy hc => ?_) (hcalling x)
      obtain ⟨c', hc', hlink, -, hsame, -⟩ := hsome y c hc
      refine ⟨c', hc', hlink, fun hwhy => (hsame fun hcur => hne (hy hcur)).2.2 fun hcur => ?_⟩
      rcases hwhy with hleaving | ⟨-, hother⟩
      · have hstands := h.fused _ y hcur
        rw [hleaving] at hstands
        simp [h.link_ne_current hbefore y] at hstands
      · exact hne (hother hcur)
  · intro x c' hc' hx hstarted
    by_cases hne : x = s.current
    · rw [hne, Function.update_self]
      rfl
    · obtain ⟨c, hc, -⟩ := get_of_after (hnone x) (hsome x) hc'
      rw [Function.update_of_ne hne]
      exact h.covered x c hc (hrole hne ▸ hx) (not_calling hother (hbefore x) hstarted)
  · obtain ⟨x, t, hx, hmem⟩ := h.main
    by_cases hne : x = s.current
    · subst hne
      cases ht.symm.trans hx
      exact ⟨_, _, Function.update_self .., hmem⟩
    · exact ⟨x, t, (Function.update_of_ne hne ..).trans hx, hmem⟩

/-- **A context is inserted**: the callee of the context that runs, or one with a stack of its
own. -/
theorem Follows.insert {contexts : ContextList} (hsound : s'.Sound)
    (hinsert : s.sched.contexts.insert c = (.ok id, contexts)) (hsched : s'.sched = { s.sched with contexts })
    (hstatus : c.status ≠ .exited ∧ c.status ≠ .running) (hcpu : c.cpuId = none ∨ c.cpuId = some cpu)
    (hother : ∀ x, x ≠ s.current → s'.doing x = s.doing x)
    (hwhy : s'.doing s.current = s.doing s.current ∧ c.retLink = none ∧
        T' = Function.update T id (some ⟨.active, []⟩) ∨
      s.doing s.current = .free ∧ s'.doing s.current = .calling id ∧ c.retLink = some s.current ∧ T' = T) :
    s'.Follows cpu T' := by
  obtain ⟨hnone, hnew, hold⟩ := ContextList.get?_insert hinsert
  have hfree := h.absent id hnone
  have hself : s'.sched.get? id = some c := by rw [hsched]; exact hnew
  have hget : ∀ {x}, x ≠ id → s'.sched.get? x = s.sched.get? x := fun hx => by rw [hsched]; exact hold _ hx
  have hcurrent : s'.current = s.current := by rw [current, hsched]; rfl
  have hpresent : ∀ {x c}, s.sched.get? x = some c → x ≠ id := by
    rintro x c hc rfl
    cases hnone.symm.trans hc
  have hne : id ≠ s.current := by
    obtain ⟨c, hc⟩ := h.current
    exact Ne.symm (hpresent hc)
  have hlink : ∀ {x}, x ≠ id → s'.link x = s.link x := fun hx => by rw [link, hget hx, link]
  have hT : ∀ {x}, x ≠ id → T' x = T x := by
    intro x hx
    rcases hwhy with ⟨-, -, rfl⟩ | ⟨-, -, -, rfl⟩
    · exact Function.update_of_ne hx ..
    · rfl
  -- All contexts do what they did, but for a call of the one that runs.
  have hdoing : ∀ x, s'.doing x = s.doing x ∨
      x = s.current ∧ s.doing x = .free ∧ s'.doing x = .calling id := by
    intro x
    by_cases hx : x = s.current
    · subst hx
      rcases hwhy with ⟨hsame, -⟩ | ⟨hbefore, hnow, -⟩
      · exact .inl hsame
      · exact .inr ⟨rfl, hbefore, hnow⟩
    · exact .inl (hother x hx)
  have hiff : ∀ {x d}, d ≠ .free → d ≠ .calling id → (s'.doing x = d ↔ s.doing x = d) := by
    intro x d hd hd'
    rcases hdoing x with hsame | ⟨-, hbefore, hnow⟩
    · rw [hsame]
    · rw [hbefore, hnow]
      exact iff_of_false hd'.symm hd.symm
  have hrole : ∀ x, role s'.doing x = role s.doing x := by
    intro x
    rcases hdoing x with hsame | ⟨-, hbefore, hnow⟩
    · exact role_congr hsame fun callee _ => hiff (by simp) (by simp)
    · rw [role_calling hnow, role_loose (by rw [hbefore]; trivial)]
  have hfusing : ∀ {p x}, s'.doing p = .fusing x ↔ s.doing p = .fusing x := hiff (by simp) (by simp)
  have hcalling : ∀ {k x}, x ≠ id → (s'.doing k = .calling x ↔ s.doing k = .calling x) := fun hx =>
    hiff (by simp) (by simp [hx])
  refine ⟨hsound, ?_, ?_, ?_, ?_, ?_, ?_, ?_, ?_, ?_⟩
  · intro x cx hcx
    rw [hrole, hcurrent]
    by_cases hx : x = id
    · subst hx
      cases hself.symm.trans hcx
      rw [role_loose (by rw [hfree]; trivial)]
      exact ⟨hstatus.1, fun hrunning => absurd hrunning hstatus.2, fun hcur => absurd hcur.symm hne⟩
    · exact h.fits x cx ((hget hx).symm.trans hcx)
  · intro x cx hcx
    by_cases hx : x = id
    · subst hx
      cases hself.symm.trans hcx
      exact hcpu
    · exact h.owned x cx ((hget hx).symm.trans hcx)
  · intro x p hp
    by_cases hx : x = id
    · subst hx
      rw [link_of_get hself] at hp
      rcases hwhy with ⟨-, hlinkNone, -⟩ | ⟨-, hnow, hlinkSome, -⟩
      · cases hlinkNone.symm.trans hp
      · cases hlinkSome.symm.trans hp
        exact .inl hnow
    · exact (h.parent x p ((hlink hx).symm.trans hp)).imp (hcalling hx).mpr hfusing.mpr
  · refine h.fused_congr (fun p x => hfusing.mp) (fun x => (hiff (by simp) (by simp)).mpr) fun x hx => hlink ?_
    rintro rfl
    rw [link, show s.sched.get? x = none from hnone] at hx
    exact hx rfl
  · exact fun p p' x hp hp' => h.unique p p' x (hfusing.mp hp) (hfusing.mp hp')
  · intro x t ht
    by_cases hx : x = id
    · subst hx
      rcases hwhy with ⟨hcur, hlinkNone, rfl⟩ | ⟨-, -, -, rfl⟩
      · cases (Function.update_self ..).symm.trans ht
        have hsame := (hother x hne).trans hfree
        have hnever : ∀ k, s.doing k ≠ .calling x := by
          intro k hk
          obtain ⟨-, -, cx, hcx, -⟩ := h.calling k x hk
          cases hnone.symm.trans hcx
        exact ⟨⟨c, hself⟩, not_calling (fun k hk => (hother k hk).symm) (hcur ▸ hnever _) hnever,
          ⟨role_loose (by rw [hsame]; trivial), by simp [hsame]⟩, (link_of_get hself).trans hlinkNone⟩
      · cases (h.not_top_of_none hnone).symm.trans ht
    · rw [hT hx] at ht
      rcases hdoing x with hsame | ⟨rfl, hbefore, hnow⟩
      · refine h.stands ht hsame hother (fun y cy _ hcy => ?_) fun hk => ?_
        · exact ⟨cy, (hget (hpresent hcy)).trans hcy, rfl, fun _ => rfl⟩
        · exact (h.tops x t ht).started _ ((hcalling hx).mp hk)
      · obtain ⟨mode, callers⟩ := t
        obtain rfl := h.mode_active ht (by simp [hbefore]) (by simp [hbefore])
        obtain ⟨⟨cx, hcx⟩, hstarted, -, hchain⟩ := h.tops _ _ ht
        refine ⟨⟨cx, (hget hx).trans hcx⟩, fun k hk => hstarted k ((hcalling hx).mp hk),
          ⟨role_calling hnow, by simp [hnow]⟩, hchain.congr fun y hy => hlink ?_⟩
        rcases List.mem_cons.mp hy with rfl | hy
        · exact hx
        · obtain ⟨-, -, cy, hcy⟩ := h.chain_waits hchain hstarted hy
          exact hpresent hcy
  · intro x cx hcx hx hstarted
    by_cases hid : x = id
    · subst hid
      rcases hwhy with ⟨-, -, rfl⟩ | ⟨-, hnow, -⟩
      · rw [Function.update_self]
        rfl
      · exact absurd hnow (hstarted s.current)
    · rw [hT hid]
      exact h.covered x cx ((hget hid).symm.trans hcx) (hrole x ▸ hx) fun k hk => hstarted k ((hcalling hid).mpr hk)
  · obtain ⟨x, t, ht, hmem⟩ := h.main
    obtain ⟨cx, hcx⟩ := (h.tops x t ht).present
    exact ⟨x, t, (hT (hpresent hcx)).trans ht, hmem⟩
  · obtain ⟨c₁, hc₁⟩ := h.main_present
    exact (hlink (hpresent hc₁)).trans h.mainLink

/-! ### Fused calls -/

/-- **A call pushes the callee**, and its caller is not switched to before the callee exits. -/
theorem Follows.fuseSwitch {callee : Nat} {mode : Mode} (hsound : s'.Sound)
    (hcalling : s.doing s.current = .calling callee) (hawake : s.CallerAwake)
    (ht : T s.current = some ⟨mode, callers⟩)
    (hsched : s'.sched =
      { (s.sched.setStatus callee .running).modify s.current (fun c => c.block.2) with contextId := callee })
    (hdoing : s'.doing = s.nowDoing (.fusing callee)) :
    mode = .active ∧ T callee = none ∧
      s'.Follows cpu (T.retop s.current callee ⟨.active, s.current :: callers⟩) := by
  obtain ⟨hfree, hne, cc, hcc, -, -, hparent⟩ := h.calling _ _ hcalling
  have hget : ∀ x, s'.sched.get? x = (s.sched.get? x).map fun c => { c with
      status := if x = callee then .running
        else if x = s.current ∧ c.status = .runnable then .blocked else c.status } := by
    intro x
    rw [hsched]
    exact Scheduler.get?_fuseSwitch s.sched callee s.current x
  have hcurrent : s'.current = callee := by rw [current, hsched]
  have hself : s'.doing s.current = .fusing callee := by rw [hdoing, nowDoing_self]
  have hother : ∀ x, x ≠ s.current → s'.doing x = s.doing x := fun x hx => by rw [hdoing, nowDoing_of_ne hx]
  have hnow : s'.doing callee = .free := (hother callee hne).trans hfree
  have hlink : ∀ x, s'.link x = s.link x := fun x =>
    link_congr (fun hx => (hget x).trans (congrArg _ hx)) fun c hc => ⟨_, (hget x).trans (congrArg _ hc), rfl⟩
  have hrole : ∀ {x}, x ≠ s.current → role s'.doing x = role s.doing x := fun hx =>
    h.role_other hother hx (by simp [hself])
  have hwaiting : role s'.doing s.current = .waiting := by
    rw [role_fusing hself, hnow]
    rfl
  -- The callee was called by nobody else.
  have hfirst : ∀ p, s.doing p ≠ .fusing callee := by
    intro p hp
    rcases h.fused p callee hp with hexited | hlinked
    · cases hfree.symm.trans hexited
    · cases (link_of_get hcc).symm.trans hlinked |>.symm.trans hparent
      cases hcalling.symm.trans hp
  have hTcallee : T callee = none := by
    by_contra hsome
    obtain ⟨t, htop⟩ := Option.ne_none_iff_exists'.mp hsome
    exact (h.tops callee t htop).started _ hcalling
  refine ⟨h.mode_active ht (by simp [hcalling]) (by simp [hcalling]), hTcallee, hsound, ?_, ?_, ?_, ?_, ?_, ?_,
    ?_, ?_, (hlink 1).trans h.mainLink⟩
  · intro x c' hc'
    obtain ⟨c, hc, rfl⟩ := Option.map_eq_some_iff.mp ((hget x).symm.trans hc')
    have hfits := h.fits x c hc
    by_cases hx : x = callee
    · subst hx
      rw [role_loose (by rw [hnow]; trivial)]
      simp [Role.Fits, hcurrent]
    · by_cases hx' : x = s.current
      · subst hx'
        rw [role_calling hcalling] at hfits
        rw [hwaiting, hcurrent]
        refine ⟨?_, Ne.symm hx⟩
        have hawake := hawake c hc
        obtain ⟨hexited, -, hnew⟩ := hfits
        cases hstatus : c.status with
        | running => simp [hx]
        | runnable => simpa [hx, hstatus] using hawake
        | blocked => simpa [hx, hstatus] using hawake
        | new => exact absurd hstatus (hnew rfl)
        | exited => exact absurd hstatus hexited
      · rw [hrole hx', hcurrent]
        refine hfits.congr (by simp [hx, hx']) rfl rfl (iff_of_false (Ne.symm hx) (Ne.symm hx'))
  · intro x c' hc'
    obtain ⟨c, hc, rfl⟩ := Option.map_eq_some_iff.mp ((hget x).symm.trans hc')
    exact h.owned x c hc
  · intro x p hx
    have hbefore := h.parent x p ((hlink x).symm.trans hx)
    by_cases hp : p = s.current
    · rw [hp, hcalling] at hbefore
      rcases hbefore with hbefore | hbefore <;> cases hbefore
      exact .inr (hp ▸ hself)
    · rw [hother p hp]
      exact hbefore
  · intro p x hp
    by_cases hp' : p = s.current
    · rw [hp', hself] at hp
      cases hp
      exact .inr ((hlink _).trans ((link_of_get hcc).trans (hp' ▸ hparent)))
    · rw [hother p hp'] at hp
      exact (h.fused p x hp).imp (h.exiting_other hother) (hlink x).trans
  · intro p p' x hp hp'
    by_cases hc : p = s.current <;> by_cases hc' : p' = s.current
    · exact hc.trans hc'.symm
    · rw [hc, hself] at hp
      cases hp
      exact absurd ((hother p' hc').symm.trans hp') (hfirst p')
    · rw [hc', hself] at hp'
      cases hp'
      exact absurd ((hother p hc).symm.trans hp) (hfirst p)
    · exact h.unique p p' x ((hother p hc).symm.trans hp) ((hother p' hc').symm.trans hp')
  · intro x t hx
    by_cases hx₁ : x = callee
    · subst hx₁
      cases Threads.retop_new.symm.trans hx
      refine ⟨⟨_, (hget x).trans (congrArg _ hcc)⟩, fun k hk => ?_,
        ⟨role_loose (by rw [hnow]; trivial), by simp [hnow]⟩,
        (hlink x).trans ((link_of_get hcc).trans hparent), (h.tops _ _ ht).chain.congr fun y _ => hlink y⟩
      by_cases hk' : k = s.current
      · cases hself.symm.trans (hk' ▸ hk)
      · obtain ⟨-, -, c₀, hc₀, -, -, hparent'⟩ := h.calling k x ((hother k hk').symm.trans hk)
        cases hcc.symm.trans hc₀
        exact hk' (Option.some.inj (hparent'.symm.trans hparent))
    · by_cases hx₂ : x = s.current
      · subst hx₂
        cases (Threads.retop_old hx₁).symm.trans hx
      · rw [Threads.retop_of_ne hx₂ hx₁] at hx
        refine h.stands hx (hother x hx₂) hother (fun y cy _ hcy => ?_) (by simp [hself])
        exact ⟨_, (hget y).trans (congrArg _ hcy), rfl, fun _ => rfl⟩
  · intro x c' hc' hx hstarted
    obtain ⟨c, hc, -⟩ := Option.map_eq_some_iff.mp ((hget x).symm.trans hc')
    by_cases hx₁ : x = callee
    · rw [hx₁, Threads.retop_new]
      rfl
    · have hx₂ : x ≠ s.current := by
        rintro rfl
        simp [hwaiting] at hx
      rw [Threads.retop_of_ne hx₂ hx₁]
      exact h.covered x c hc (hrole hx₂ ▸ hx) (not_calling hother (by simp [hcalling, Ne.symm hx₁]) hstarted)
  · obtain ⟨x, t, hx, hmem⟩ := h.main
    by_cases hx₂ : x = s.current
    · subst hx₂
      cases ht.symm.trans hx
      exact ⟨callee, _, Threads.retop_new, List.mem_cons_of_mem callee hmem⟩
    · have hx₁ : x ≠ callee := by
        rintro rfl
        cases hTcallee.symm.trans hx
      exact ⟨x, t, (Threads.retop_of_ne hx₂ hx₁).trans hx, hmem⟩

/-- **The context that runs exits.** Its thread ends, or its caller is on top again. -/
theorem Follows.exited (hsound : s'.Sound) (hwhere : s.doing s.current = .free ∨ s.doing s.current = .leaving)
    (hone : s.current ≠ 1) (hdoing : s'.doing = s.nowDoing .exiting)
    (hself : ∃ c', s'.sched.get? s.current = some c' ∧ c'.retLink = none)
    (hnone : ∀ x, s.sched.get? x = none → s'.sched.get? x = none)
    (hsome : ∀ x c, x ≠ s.current → s.sched.get? x = some c → ∃ c', s'.sched.get? x = some c' ∧
      c'.retLink = c.retLink ∧ c'.result = c.result)
    (hfits : ∀ x c', s'.sched.get? x = some c' → (role s'.doing x).Fits (s'.current = x) c')
    (howned : ∀ x c', s'.sched.get? x = some c' → c'.cpuId = none ∨ c'.cpuId = some cpu)
    (hT : ∀ x, x ≠ s.current → s.link s.current ≠ some x → T' x = T x) (hTself : T' s.current = none)
    (hTparent : ∀ p, s.link s.current = some p → ∃ t, T' p = some t ∧ s'.Stands p t)
    (hmain : ∃ id t, T' id = some t ∧ 1 ∈ id :: t.callers) : s'.Follows cpu T' := by
  have hnow : s'.doing s.current = .exiting := by rw [hdoing, nowDoing_self]
  have hother : ∀ x, x ≠ s.current → s'.doing x = s.doing x := fun x hx => by rw [hdoing, nowDoing_of_ne hx]
  have hbefore : ∀ x, s.doing s.current ≠ .calling x := by
    rcases hwhere with hwhere | hwhere <;> simp [hwhere]
  have hlink : ∀ {x}, x ≠ s.current → s'.link x = s.link x := fun {x} hx =>
    link_congr (hnone x) fun c hc => (hsome x c hx hc).imp fun _ hc' => ⟨hc'.1, hc'.2.1⟩
  have hfusing : ∀ {p x}, s'.doing p = .fusing x → s.doing p = .fusing x := by
    intro p x hp
    refine (hother p ?_).symm.trans hp
    rintro rfl
    cases hnow.symm.trans hp
  refine ⟨hsound, hfits, howned, ?_, ?_, ?_, ?_, ?_, hmain, (hlink (Ne.symm hone)).trans h.mainLink⟩
  · intro x p hp
    have hx : x ≠ s.current := by
      rintro rfl
      obtain ⟨c', hc', hlink⟩ := hself
      cases (link_of_get hc').symm.trans hp |>.symm.trans hlink
    rw [hlink hx] at hp
    have hne : p ≠ s.current := by
      rintro rfl
      exact h.link_ne_current hbefore x hp
    rw [hother p hne]
    exact h.parent x p hp
  · intro p x hp
    by_cases hx : x = s.current
    · exact .inl (hx ▸ hnow)
    · exact (h.fused p x (hfusing hp)).imp (hother x hx).trans (hlink hx).trans
  · exact fun p p' x hp hp' => h.unique p p' x (hfusing hp) (hfusing hp')
  · intro x t ht
    have hx : x ≠ s.current := by
      rintro rfl
      cases hTself.symm.trans ht
    by_cases hparent : s.link s.current = some x
    · obtain ⟨t', ht', hstands⟩ := hTparent x hparent
      cases ht'.symm.trans ht
      exact hstands
    · rw [hT x hx hparent] at ht
      refine h.stands ht (hother x hx) hother (fun y cy hy hcy => ?_) (by simp [hnow])
      obtain ⟨c', hc', hlink', hresult⟩ := hsome y cy (fun hcur => hx (hy hcur)) hcy
      exact ⟨c', hc', hlink', fun _ => hresult⟩
  · intro x c' hc' hx hstarted
    have hne : x ≠ s.current := by
      rintro rfl
      simp [role_exiting hnow] at hx
    by_cases hparent : s.link s.current = some x
    · obtain ⟨t', ht', -⟩ := hTparent x hparent
      rw [ht']
      rfl
    · obtain ⟨c, hc, -⟩ := get_of_after (hnone x) (fun c => hsome x c hne) hc'
      have hrole := h.role_other hother hne fun _ hcallee =>
        (h.fused x _ hcallee).elim h.current_not_exiting hparent
      rw [hT x hne hparent]
      exact h.covered x c hc (hrole ▸ hx) (not_calling hother (hbefore x) hstarted)

/-- The caller of a context that exits is on top again, with what the context returned. -/
theorem Follows.exitReturn {p : Nat} {mode : Mode} (hsound : s'.Sound)
    (hwhere : s.doing s.current = .free ∨ s.doing s.current = .leaving) (ht : T s.current = some ⟨mode, callers⟩)
    (hlink : s.link s.current = some p) (hsched : s'.sched = s.sched.exited.fuseReturn s.current p)
    (hdoing : s'.doing = s.nowDoing .exiting) : ∃ rest, callers = p :: rest ∧
      s'.Follows cpu (T.retop s.current p ⟨.resuming s.current (s.returned s.current), rest⟩) := by
  obtain ⟨⟨c, hc⟩, hstarted, -, hchain⟩ := h.tops _ _ ht
  obtain ⟨rest, rfl, hrest⟩ := hchain.cons_of_link hlink
  obtain ⟨hfusing, hwaiting, hne, cp, hcp⟩ := h.parent_waits hlink hstarted
  have hgone : s'.sched.get? s.current = some { c with status := .exited, retLink := none } := by
    rw [hsched, Scheduler.get?_fuseReturn, Scheduler.get?_exited]
    have hc : s.sched.get? s.current = some c := hc
    simp [hne, hc, show s.sched.contextId = s.current from rfl]
  have hget : ∀ {x}, x ≠ s.current → s'.sched.get? x =
      (s.sched.get? x).map fun c => { c with status := if x = p then .running else c.status } := by
    intro x hx
    have hx' : x ≠ s.sched.contextId := hx
    rw [hsched, Scheduler.get?_fuseReturn, Scheduler.get?_exited, if_neg hx']
    simp [hx]
  have hcurrent : s'.current = p := by rw [current, hsched]; rfl
  have hself : s'.doing s.current = .exiting := by rw [hdoing, nowDoing_self]
  have hother : ∀ x, x ≠ s.current → s'.doing x = s.doing x := fun x hx => by rw [hdoing, nowDoing_of_ne hx]
  have hone : s.current ≠ 1 := by
    intro hone
    cases (hone ▸ h.mainLink).symm.trans hlink
  refine ⟨rest, rfl, h.exited hsound hwhere hone hdoing ⟨_, hgone, rfl⟩ (fun x hx => ?_) (fun x cx hx hcx => ?_)
    (fun x c' hc' => ?_) (fun x c' hc' => ?_) (fun x hx hxp => ?_) (Threads.retop_old hne)
    (fun q hq => ?_) ?_⟩
  · have hne' : x ≠ s.current := by
      rintro rfl
      cases hc.symm.trans hx
    rw [hget hne', hx]
    rfl
  · exact ⟨_, (hget hx).trans (congrArg _ hcx), rfl, rfl⟩
  · by_cases hx : x = s.current
    · subst hx
      cases hgone.symm.trans hc'
      rw [role_exiting hself]
      exact ⟨rfl, rfl, fun heq => hne (heq.symm.trans hcurrent)⟩
    · obtain ⟨cx, hcx, rfl⟩ := Option.map_eq_some_iff.mp ((hget hx).symm.trans hc')
      by_cases hxp : x = p
      · subst hxp
        rw [role_fusing ((hother x hx).trans hfusing), if_pos hself]
        exact .inr ⟨if_pos rfl, hcurrent⟩
      · rw [h.role_other hother hx fun _ hcallee => hxp (h.unique _ _ _ hcallee hfusing), hcurrent]
        exact (h.fits x cx hcx).congr (by simp [hxp]) rfl rfl (iff_of_false (Ne.symm hxp) (Ne.symm hx))
  · by_cases hx : x = s.current
    · subst hx
      cases hgone.symm.trans hc'
      exact h.owned _ c hc
    · obtain ⟨cx, hcx, rfl⟩ := Option.map_eq_some_iff.mp ((hget hx).symm.trans hc')
      exact h.owned x cx hcx
  · refine Threads.retop_of_ne hx ?_
    rintro rfl
    exact hxp hlink
  · cases hlink.symm.trans hq
    refine ⟨_, Threads.retop_new, ⟨_, (hget (Ne.symm hne)).trans (congrArg _ hcp)⟩,
      not_calling (fun k hk => (hother k hk).symm) (by simp [hself]) (h.started_of_fusing hfusing),
      ⟨(hother p (Ne.symm hne)).trans hfusing, hself, by rw [returned_of_get hgone, returned_of_get hc]⟩,
      hrest.congr fun y hy => ?_⟩
    have hy' : y ≠ s.current := by
      rcases List.mem_cons.mp hy with rfl | hy
      · exact Ne.symm hne
      · exact Ne.symm (h.chain_waits hrest (h.started_of_fusing hfusing) hy).2.1
    exact link_congr (fun hy => (hget hy').trans (congrArg _ hy)) fun cy hcy =>
      ⟨_, (hget hy').trans (congrArg _ hcy), rfl⟩
  · obtain ⟨x, t, hx, hmem⟩ := h.main
    by_cases hx' : x = s.current
    · subst hx'
      cases ht.symm.trans hx
      exact ⟨p, _, Threads.retop_new, (List.mem_cons.mp hmem).resolve_left (Ne.symm hone)⟩
    · have hxp : x ≠ p := by
        rintro rfl
        cases (h.not_top (.inl hwaiting)).symm.trans hx
      exact ⟨x, t, (Threads.retop_of_ne hx' hxp).trans hx, hmem⟩

/-- A context without a caller exits, and another one is switched to. -/
theorem Follows.exitSwitch {now : Nat × Nat} {mode : Mode} (hsound : s'.Sound)
    (hwhere : s.doing s.current = .free ∨ s.doing s.current = .leaving) (ht : T s.current = some ⟨mode, callers⟩)
    (hlink : s.link s.current = none) (hone : s.current ≠ 1)
    (hs : s.sched.exited.switch cpu now = .ok (true, s'.sched)) (hdoing : s'.doing = s.nowDoing .exiting) :
    callers = [] ∧ s'.Follows cpu (Function.update T s.current none) := by
  obtain ⟨⟨c, hc⟩, -, -, hchain⟩ := h.tops _ _ ht
  have hnil := hchain.nil_of_link hlink
  have hleft : s'.current ≠ s.current := (Scheduler.switch_current hs).1
  have hself : s'.doing s.current = .exiting := by rw [hdoing, nowDoing_self]
  have hmarked : ∀ {x}, x ≠ s.current → s.sched.exited.get? x = s.sched.get? x := fun hx =>
    (Scheduler.get?_exited ..).trans (if_neg hx)
  have hgone : s.sched.exited.get? s.current = some { c with status := .exited, retLink := none } :=
    (Scheduler.get?_exited ..).trans ((if_pos rfl).trans (congrArg _ hc))
  have hrole : ∀ {x}, x ≠ s.current → role s'.doing x = role s.doing x := by
    intro x hx
    refine h.role_other (fun y hy => by rw [hdoing, nowDoing_of_ne hy]) hx fun _ hcallee => ?_
    exact (h.fused x _ hcallee).elim h.current_not_exiting (by simp [hlink])
  refine ⟨hnil, h.exited hsound hwhere hone hdoing ?_ (fun x hx => ?_) (fun x cx hx hcx => ?_) (fun x c' hc' => ?_)
    (fun x c' hc' => ?_) (fun x hx _ => Function.update_of_ne hx ..) (Function.update_self ..)
    (fun p hp => by cases hlink.symm.trans hp) ?_⟩
  · obtain ⟨c', hc', hswitched⟩ := Scheduler.switch_get hs hgone
    exact ⟨c', hc', hswitched.retLink⟩
  · have hne : x ≠ s.current := by
      rintro rfl
      cases hc.symm.trans hx
    have hsame := Scheduler.isSome_switch hs x
    rwa [hmarked hne, hx, Option.isSome_none, Option.isSome_eq_false_iff, Option.isNone_iff_eq_none] at hsame
  · obtain ⟨c', hc', hswitched⟩ := Scheduler.switch_get hs ((hmarked hx).trans hcx)
    exact ⟨c', hc', hswitched.retLink, hswitched.result⟩
  · obtain ⟨cx, hcx, hswitched⟩ := Scheduler.get_of_switch hs hc'
    by_cases hx : x = s.current
    · subst hx
      cases hgone.symm.trans hcx
      rw [role_exiting hself]
      exact ⟨(hswitched.exited rfl).1, hswitched.retLink, hleft⟩
    · rw [hrole hx]
      exact Role.Fits.switched (s := s.sched.exited) (h.fits x cx ((hmarked hx).symm.trans hcx)) hswitched
  · obtain ⟨cx, hcx, hswitched⟩ := Scheduler.get_of_switch hs hc'
    have howner : cx.cpuId = none ∨ cx.cpuId = some cpu := by
      by_cases hx : x = s.current
      · subst hx
        cases hgone.symm.trans hcx
        exact h.owned _ c hc
      · exact h.owned x cx ((hmarked hx).symm.trans hcx)
    rw [hswitched.cpuId]
    rcases howner with howner | howner <;> simp [howner]
  · obtain ⟨x, t, hx, hmem⟩ := h.main
    have hx' : x ≠ s.current := by
      rintro rfl
      cases ht.symm.trans hx
      rw [hnil, List.mem_singleton] at hmem
      exact hone hmem.symm
    exact ⟨x, t, (Function.update_of_ne hx' ..).trans hx, hmem⟩

/-! ### Every step -/

/-- `switch` leaves the call stacks alone. -/
theorem Follows.switch {r : Bool} (hs : s.switch cpu = .ok (r, s')) : s'.Follows cpu T := by
  have hsound := h.toSound.switch hs
  obtain ⟨⟨r', sched⟩, hsched, heq⟩ := eq_ok_of_map hs
  cases heq
  refine h.reschedule hsound rfl (fun x hx => ?_) fun x c hc => ?_
  · have hsame := Scheduler.isSome_switch hsched x
    rwa [hx, Option.isSome_none, Option.isSome_eq_false_iff, Option.isNone_iff_eq_none] at hsame
  · obtain ⟨c', hc', hswitched⟩ := Scheduler.switch_get hsched hc
    refine ⟨c', hc', hswitched.retLink, fun _ => hswitched.result, ?_, fun hfits => hfits.switched hswitched⟩
    rw [hswitched.cpuId]
    rcases h.owned x c hc with hcpu | hcpu <;> simp [hcpu]

theorem Follows.tick : s.tick.Follows cpu T := by
  obtain ⟨hsched, hdoing, -⟩ := tick_fields s
  have hsound := h.toSound.tick
  generalize s.tick = t at hsched hdoing hsound ⊢
  refine h.reschedule hsound hdoing (fun x hx => by rwa [hsched]) fun x c hc => ?_
  refine ⟨c, by rwa [hsched], rfl, fun _ => rfl, .inl rfl, fun hfits => ?_⟩
  rwa [current, hsched]

/-- The context that runs goes on, outside of fused calls. -/
theorem Follows.act {d : Doing} {f : Context → Context} (hsound : s'.Sound) (hbefore : Loose (s.doing s.current))
    (hd : Loose d) (hcurrent : s'.current = s.current) (hdoing : s'.doing = s.nowDoing d)
    (hget : ∀ x, s'.sched.get? x = if x = s.current then (s.sched.get? x).map f else s.sched.get? x)
    (hf : ∀ c, (f c).retLink = c.retLink ∧ (f c).cpuId = c.cpuId ∧
      ((f c).status = c.status ∨ (f c).status = .blocked)) : s'.Follows cpu T := by
  obtain ⟨⟨mode, callers⟩, ht⟩ := h.top
  have hnever : (∀ x, s.doing s.current ≠ .calling x) ∧ (∀ x, s.doing s.current ≠ .fusing x) ∧
      s.doing s.current ≠ .leaving := by
    refine ⟨fun x hx => ?_, fun x hx => ?_, fun hx => ?_⟩ <;> rw [hx] at hbefore <;> exact hbefore
  obtain rfl := h.mode_active ht hnever.2.1 hnever.2.2
  have hself : s'.doing s.current = d := by rw [hdoing, nowDoing_self]
  have hsame : Function.update T s.current (some ⟨.active, callers⟩) = T :=
    Function.update_eq_self_iff.mpr ht.symm
  rw [← hsame]
  refine h.now hsound ht hcurrent hdoing hnever.1 (.inl hd) (fun x hx => ?_) (fun x c hc => ?_) ⟨?_, ?_⟩
  · rw [hget, hx]
    split
    · rfl
    · rfl
  · obtain ⟨hlink, hcpu, hstatus⟩ := hf c
    by_cases hx : x = s.current
    · refine ⟨f c, by rw [hget, if_pos hx, hc]; rfl, hlink, hcpu, fun hne => absurd hx hne, fun _ => ?_⟩
      have hfits := h.fits x c hc
      rw [hx, role_loose hbefore] at hfits
      rcases hstatus with hstatus | hstatus
      · rw [hstatus]
        exact ⟨hfits.1, hfits.2.2 rfl⟩
      · simp [hstatus]
    · exact ⟨c, by rw [hget, if_neg hx, hc], rfl, rfl, fun _ => ⟨rfl, rfl, fun _ => rfl⟩, fun heq => absurd heq hx⟩
  · exact role_loose (hself ▸ hd)
  · rw [hself]
    rintro rfl
    exact hd

/-- It goes on, and no context is changed. -/
theorem Follows.act_same {d : Doing} (hsound : s'.Sound) (hbefore : Loose (s.doing s.current)) (hd : Loose d)
    (hsched : s'.sched = s.sched) (hdoing : s'.doing = s.nowDoing d) : s'.Follows cpu T := by
  refine h.act hsound hbefore hd (congrArg Scheduler.contextId hsched) hdoing (f := fun c => c) (fun x => ?_)
    fun c => ⟨rfl, rfl, .inl rfl⟩
  rw [hsched]
  split
  · simp
  · rfl

/-- Some contexts that wait outside of fused calls are unblocked. -/
theorem Follows.unblock {f : Nat → Context → Context} (hsound : s'.Sound) (hcurrent : s'.current = s.current)
    (hdoing : s'.doing = s.doing) (hget : ∀ x, s'.sched.get? x = (s.sched.get? x).map (f x))
    (hf : ∀ x c, (f x c).retLink = c.retLink ∧ (f x c).cpuId = c.cpuId)
    (hloose : ∀ x c, f x c = c ∨ Loose (s.doing x) ∧
      (f x c).status = if c.status = .blocked then .runnable else c.status) : s'.Follows cpu T := by
  refine h.reschedule hsound hdoing (fun x hx => by rw [hget, hx]; rfl) fun x c hc => ?_
  refine ⟨f x c, by rw [hget, hc]; rfl, (hf x c).1, fun hwhy => ?_, .inl (hf x c).2, fun hfits => ?_⟩
  · rcases hloose x c with hsame | ⟨hloose, -⟩
    · rw [hsame]
    · rcases hwhy with hwhy | hwhy <;> rw [hwhy] at hloose <;> exact hloose.elim
  · rw [hcurrent]
    rcases hloose x c with hsame | ⟨hloose, hstatus⟩
    · rwa [hsame]
    · rw [role_loose hloose] at hfits ⊢
      exact hfits.unblocked hstatus

/-- There are too many contexts to insert one. -/
theorem Follows.full {message : String} {contexts : ContextList} (hsound : s'.Sound)
    (hinsert : s.sched.contexts.insert c = (.error message, contexts))
    (hsched : s'.sched = { s.sched with contexts }) (hdoing : s'.doing = s.doing) : s'.Follows cpu T := by
  refine h.unblock hsound (by rw [current, hsched]; rfl) hdoing (f := fun _ c => c) (fun x => ?_)
    (fun _ _ => ⟨rfl, rfl⟩) fun _ _ => .inl rfl
  rw [hsched]
  exact (ContextList.get?_insert_error hinsert x).trans Option.map_id'.symm

/-- A fused call begins. -/
theorem Follows.call {contexts : ContextList} (hfree : s.doing s.current = .free)
    (hinsert : s.sched.contexts.insert s.sched.callee = (.ok id, contexts)) :
    Follows cpu { s with sched.contexts := contexts, doing := s.nowDoing (.calling id) } T := by
  obtain ⟨c, hc⟩ := h.current
  have hcpu : s.sched.callee.cpuId = c.cpuId := by
    rw [Scheduler.callee, show s.sched.get? s.sched.contextId = some c from hc]
    rfl
  refine h.insert (h.toSound.call hfree hinsert) hinsert rfl (by simp [Scheduler.callee, Context.new]) ?_
    (fun _ hx => nowDoing_of_ne hx _) (.inr ⟨hfree, nowDoing_self .., rfl, rfl⟩)
  rw [hcpu]
  exact h.owned _ c hc

/-- A context is cast to. -/
theorem Follows.cast : ∃ T', Follows cpu
      { s with sched.contexts := (s.sched.contexts.insert { Context.new with status := .new }).2 } T' ∧
    T.replay (s.event .cast).toList = some T' := by
  have hsound := h.toSound.insert (c := { Context.new with status := .new }) rfl nofun
  rw [event]
  rcases hinsert : s.sched.contexts.insert { Context.new with status := .new } with ⟨message | id, contexts⟩
  · rw [hinsert] at hsound
    exact ⟨T, h.full hsound hinsert rfl rfl, rfl⟩
  · rw [hinsert] at hsound
    have hnone := h.not_top_of_none (ContextList.get?_insert hinsert).1
    refine ⟨_, h.insert hsound hinsert rfl (by simp) (.inl rfl) (fun _ _ => rfl) (.inl ⟨rfl, rfl, rfl⟩), ?_⟩
    simp [Threads.replay, Threads.step, hnone]

/-- A context that runs inside of a fused call is given what its callee returned. -/
theorem Follows.mode_of_fusing {callee : Nat} {mode : Mode} (ht : T s.current = some ⟨mode, callers⟩)
    (hfusing : s.doing s.current = .fusing callee) : mode = .resuming callee (s.returned callee) := by
  have hmode := (h.tops _ _ ht).mode
  cases mode with
  | active => exact absurd hfusing (not_fusing_of_plain hmode.1 callee)
  | returning values => cases hfusing.symm.trans hmode.1
  | resuming callee' values =>
    obtain ⟨hfusing', -, rfl⟩ := hmode
    cases hfusing.symm.trans hfusing'
    rfl

/-- The result of the callee is taken. -/
theorem Follows.resume {callee : Nat} {mode : Mode} (ht : T s.current = some ⟨mode, callers⟩)
    (hfusing : s.doing s.current = .fusing callee) (hsound : Sound { s with
      doing := s.nowDoing .free
      sched := s.sched.modify callee fun c => { c with result := none } }) :
    mode = .resuming callee (s.returned callee) ∧ Follows cpu { s with
        doing := s.nowDoing .free
        sched := s.sched.modify callee fun c => { c with result := none } }
      (Function.update T s.current (some ⟨.active, callers⟩)) := by
  obtain rfl := h.mode_of_fusing ht hfusing
  have hmode := (h.tops _ _ ht).mode
  have hget : ∀ x, (s.sched.modify callee fun c => { c with result := none }).get? x =
      (s.sched.get? x).map fun c => { c with result := if x = callee then none else c.result } := by
    intro x
    rw [Scheduler.get?_modify]
    split
    · rfl
    · simp
  refine ⟨rfl, h.now (d := .free) hsound ht rfl rfl (by simp [hfusing]) (.inl trivial)
    (fun x hx => (hget x).trans (congrArg _ hx)) (fun x c hc => ?_) ⟨role_loose ?_, ?_⟩⟩
  · refine ⟨_, (hget x).trans (congrArg _ hc), rfl, rfl, fun _ => ⟨rfl, rfl, fun hother => if_neg ?_⟩, ?_⟩
    · rintro rfl
      exact hother hfusing
    · rintro rfl
      have hfits := h.fits _ c hc
      rw [role_fusing hfusing, if_pos hmode.2.1] at hfits
      rcases hfits with hstatus | ⟨hstatus, -⟩ <;> simp [hstatus]
  · dsimp only
    rw [nowDoing_self]
    trivial
  · simp

/-- The context that runs has a result, and is about to exit. -/
theorem Follows.sysReturn {values : List UInt8} {mode : Mode} (ht : T s.current = some ⟨mode, callers⟩)
    (hfree : s.doing s.current = .free) :
    mode = .active ∧ Follows cpu { s with
        doing := s.nowDoing .leaving
        sched := s.sched.modify s.current fun c => { c with result := some values } }
      (Function.update T s.current (some ⟨.returning values, callers⟩)) := by
  obtain rfl := h.mode_active ht (by simp [hfree]) (by simp [hfree])
  obtain ⟨c₀, hc₀⟩ := h.current
  refine ⟨rfl, h.now (d := .leaving) (h.toSound.sysReturn hfree) ht rfl rfl (by simp [hfree]) (.inr rfl)
    (fun x hx => ?_) (fun x c hc => ?_) ⟨nowDoing_self .., ?_⟩⟩
  · have hne : x ≠ s.current := by
      rintro rfl
      cases hx.symm.trans hc₀
    exact (Scheduler.get?_modify_of_ne hne).trans hx
  · by_cases hx : x = s.current
    · subst hx
      refine ⟨_, Scheduler.get?_modify_self.trans (congrArg _ hc), rfl, rfl, fun hne => absurd rfl hne, fun _ => ?_⟩
      have hfits := h.fits _ c hc
      rw [role_loose (by rw [hfree]; trivial)] at hfits
      exact ⟨hfits.1, hfits.2.2 rfl⟩
    · exact ⟨c, (Scheduler.get?_modify_of_ne hx).trans hc, rfl, rfl, fun _ => ⟨rfl, rfl, fun _ => rfl⟩,
        fun heq => absurd heq hx⟩
  · simp [returned, hc₀]

/-- An exit pops the context. -/
theorem Follows.exit {sched : Scheduler} {ticks : Nat} {trace : List Happening}
    (hwhere : s.doing s.current = .free ∨ s.doing s.current = .leaving)
    (hsched : s.sched.exit cpu s.clock = .ok sched) :
    ∃ T', Follows cpu { s with doing := s.nowDoing .exiting, sched, pitTicks := ticks, trace } T' ∧
      T.step (.exit s.current) = some T' := by
  have hsound : Sound { s with doing := s.nowDoing .exiting, sched, pitTicks := ticks, trace } :=
    h.toSound.exit hwhere hsched
  obtain ⟨⟨mode, callers⟩, ht⟩ := h.top
  have hmode := (h.tops _ _ ht).mode
  obtain ⟨c, hc, hcases⟩ := Scheduler.exit_cases hsched
  have hc : s.sched.get? s.current = some c := hc
  rcases hcases with ⟨parent, hlink, rfl⟩ | ⟨hlink, hmain, hswitch⟩
  · obtain ⟨rest, rfl, hfollows⟩ := h.exitReturn hsound hwhere ht ((link_of_get hc).trans hlink) rfl rfl
    refine ⟨_, hfollows, ?_⟩
    cases mode with
    | active =>
      have hfree := hwhere.resolve_right hmode.2
      have hnone : s.returned s.current = none := by
        rw [returned_of_get hc]
        by_contra hsome
        have hwhy := h.result _ c hc hsome
        simp [hfree] at hwhy
      simp only [Threads.step, ht, hnone]
    | returning values => simp only [Threads.step, ht, hmode.2]
    | resuming callee values => rcases hwhere with hwhere | hwhere <;> cases hwhere.symm.trans hmode.1
  · obtain ⟨rfl, hfollows⟩ := h.exitSwitch hsound hwhere ht ((link_of_get hc).trans hlink) hmain hswitch rfl
    refine ⟨_, hfollows, ?_⟩
    cases mode with
    | active => simp only [Threads.step, ht]
    | returning values => simp only [Threads.step, ht]
    | resuming callee values => rcases hwhere with hwhere | hwhere <;> cases hwhere.symm.trans hmode.1

/-- `isr` unblocks a context that waits for the host. -/
theorem Follows.deliver {callid : Nat} {values : List UInt8} {trace : List Happening}
    (hqueue : s.queue callid = some id) : Follows cpu { s with
      sched := s.sched.modify id fun c => { c with result := some values }.unblock.2
      queue := Function.update s.queue callid none
      trace } T := by
  obtain ⟨hwaits, -⟩ := h.queue _ _ hqueue
  refine h.unblock (h.toSound.deliver hqueue) rfl rfl
    (f := fun x c => if x = id then { c with result := some values }.unblock.2 else c)
    (fun x => ?_) (fun x c => ?_) fun x c => ?_
  · refine (Scheduler.get?_modify ..).trans ?_
    split
    · rfl
    · simp
  · split
    · rw [Scheduler.unblock_eq]
      exact ⟨rfl, rfl⟩
    · exact ⟨rfl, rfl⟩
  · by_cases hx : x = id
    · subst hx
      refine .inr ⟨by rcases hwaits with hwaits | hwaits <;> rw [hwaits] <;> trivial, ?_⟩
      rw [if_pos rfl, Scheduler.unblock_eq]
    · exact .inl (if_neg hx)

/-- `notify` unblocks the contexts of a condition. -/
theorem Follows.notify {condition : Nat} {trace : List Happening} : Follows cpu { s with
      sched := s.sched.unblockAll (s.conditions condition)
      conditions := Function.update s.conditions condition []
      trace } T := by
  refine h.unblock h.toSound.notify (Scheduler.contextId_unblockAll ..) rfl
    (fun x => Scheduler.get?_unblockAll ..) (fun _ _ => ⟨rfl, rfl⟩) fun x c => ?_
  by_cases hx : x ∈ s.conditions condition
  · refine .inr ⟨?_, by simp [hx]⟩
    rcases h.conditions condition x hx with hwaits | hwaits <;> rw [hwaits] <;> trivial
  · exact .inl (by simp [hx])

/-- **Every step is one of call stacks**, as long as no context makes a fused call that may be woken
up during it. -/
theorem Follows.step {a : CpuMove} (hawake : a = .fuseSwitch → s.CallerAwake) (hmove : s.Moves cpu a s') :
    ∃ T', s'.Follows cpu T' ∧ T.replay (s.event a).toList = some T' := by
  have hsound := h.toSound.step hmove
  obtain ⟨⟨mode, callers⟩, ht⟩ := h.top
  cases hmove with
  | tick => exact ⟨T, h.tick, rfl⟩
  | pit hs => exact ⟨T, h.tick.switch hs, rfl⟩
  | yield _ hs => exact ⟨T, h.switch hs, rfl⟩
  | call hfree hinsert => exact ⟨T, h.call hfree hinsert, rfl⟩
  | full hinsert => exact ⟨T, h.full hsound hinsert rfl rfl, rfl⟩
  | fuseSwitch hcalling hsched =>
    obtain ⟨-, -, cc, hcc, -, -, hparent⟩ := h.calling _ _ hcalling
    obtain ⟨caller, hcaller, rfl⟩ := Scheduler.fuseSwitch_cases hsched
    rw [hcc, Option.bind_some, hparent] at hcaller
    cases hcaller
    obtain ⟨rfl, hnone, hfollows⟩ := h.fuseSwitch hsound hcalling (hawake rfl) ht rfl rfl
    exact ⟨_, hfollows, by simp [event, hcalling, Threads.replay, Threads.step, ht, hnone]⟩
  | resume hfusing hc hresult =>
    obtain ⟨rfl, hfollows⟩ := h.resume ht hfusing hsound
    exact ⟨_, hfollows, by simp [event, hfusing, Threads.replay, Threads.step, ht]⟩
  | sysReturn hfree =>
    obtain ⟨rfl, hfollows⟩ := h.sysReturn ht hfree
    exact ⟨_, hfollows, by simp [event, Threads.replay, Threads.step, ht]⟩
  | exit hwhere hsched =>
    obtain ⟨T', hfollows, hstep⟩ := h.exit hwhere hsched
    exact ⟨T', hfollows, by simp [event, Threads.replay, hstep]⟩
  | cast => exact h.cast
  | ask hfree => exact ⟨T, h.act_same hsound (by rw [hfree]; trivial) (by trivial) rfl rfl, rfl⟩
  | check hasking =>
    refine ⟨T, h.act hsound (by rw [hasking]; trivial) (by trivial) rfl rfl (fun x => Scheduler.get?_modify ..)
      fun c => ?_, rfl⟩
    split
    · exact ⟨rfl, rfl, .inr rfl⟩
    · exact ⟨rfl, rfl, .inl rfl⟩
  | leave hhosting hc _ hresult =>
    exact ⟨T, h.act hsound (by rw [hhosting]; trivial) (by trivial) rfl rfl (fun x => Scheduler.get?_modify ..)
      fun c => ⟨rfl, rfl, .inl rfl⟩, rfl⟩
  | deliver hqueue => exact ⟨T, h.deliver hqueue, rfl⟩
  | sleep hfree hc =>
    refine ⟨T, h.act hsound (by rw [hfree]; trivial) (by trivial) rfl rfl (fun x => Scheduler.get?_modify ..)
      fun c => ?_, rfl⟩
    rw [Sleep.enter_eq]
    refine ⟨rfl, rfl, ?_⟩
    dsimp only
    split
    · exact .inr rfl
    · exact .inl rfl
  | sleepFailed _ => exact ⟨T, h, rfl⟩
  | push hentering => exact ⟨T, h.act_same hsound (by rw [hentering]; trivial) (by trivial) rfl rfl, rfl⟩
  | @sleepSwitch sleep r s' hdoing hs =>
    have hsleeping : Follows cpu { s with doing := s.nowDoing (.sleeping sleep) } T := by
      refine h.act_same (h.toSound.sleeping hdoing) ?_ (by trivial) rfl rfl
      rcases hdoing with hdoing | ⟨condition, rfl, hdoing⟩ <;> rw [hdoing] <;> trivial
    exact ⟨T, hsleeping.switch hs, rfl⟩
  | wakeUp hsleeping => exact ⟨T, h.act_same hsound (by rw [hsleeping]; trivial) (by trivial) rfl rfl, rfl⟩
  | waited hsleeping => exact ⟨T, h.act_same hsound (by rw [hsleeping]; trivial) (by trivial) rfl rfl, rfl⟩
  | notify => exact ⟨T, h.notify, rfl⟩

end Frame

theorem follows_boot (cpu : Nat) : (boot cpu).Follows cpu (Threads.single 1) := by
  have hlink : ∀ id, (boot cpu).link id = none := by
    intro id
    cases hc : (boot cpu).sched.get? id with
    | none => rw [link, hc, Option.bind_none]
    | some c =>
      obtain ⟨-, rfl⟩ := Scheduler.of_get?_boot hc
      exact congrArg (·.bind Context.retLink) hc
  have hfree : ∀ id, role (boot cpu).doing id = .plain := fun _ => rfl
  refine ⟨sound_boot cpu, fun id c hc => ?_, fun id c hc => ?_, fun id p hp => ?_, fun p id hp => ?_,
    fun p p' id hp => ?_, fun id t ht => ?_, fun id c hc _ _ => ?_, ⟨1, _, if_pos rfl, List.mem_singleton_self 1⟩,
    hlink 1⟩
  · obtain ⟨rfl, rfl⟩ := Scheduler.of_get?_boot hc
    exact ⟨by simp, fun _ => rfl, fun _ => by simp⟩
  · obtain ⟨-, rfl⟩ := Scheduler.of_get?_boot hc
    exact .inr rfl
  · cases (hlink id).symm.trans hp
  · cases hp
  · cases hp
  · rw [Threads.single] at ht
    split at ht
    · next hid =>
      cases ht
      subst hid
      exact ⟨⟨_, rfl⟩, nofun, ⟨hfree 1, nofun⟩, hlink 1⟩
    · cases ht
  · simp [Threads.single, (Scheduler.of_get?_boot hc).1]

end Follows

end Cpu

end Faastr.Sched
