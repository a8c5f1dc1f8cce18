import Faastr.Sched.Context

/-!
Switching between contexts (`kernel/src/context/switch.rs`) and leaving one
(`kernel/src/syscall/process.rs`), on one CPU.

What the operations do to registers and stacks is below this model: the context that
runs is the one whose number is in `CONTEXT_ID`. Each operation takes the lock of the
scheduler and the locks of the contexts it changes, with interrupts off, so it is one
step.

* `switch_cases`: all that `switch` can do.
* `exit_cases`: all that `exit` can do.
-/

namespace Faastr.Sched

open Faastr.Lib

/-- The contexts, and the number of the one that runs. -/
structure Scheduler where
  contexts : ContextList
  contextId : Nat

/-- How the kernel ends: by a panic, or because the main thread exited. -/
inductive Halt where
  | panic (message : String)
  | stopped
deriving DecidableEq, Repr

namespace Scheduler

def get? (s : Scheduler) (id : Nat) : Option Context := s.contexts.map.get? id

def modify (s : Scheduler) (id : Nat) (f : Context → Context) : Scheduler :=
  { s with contexts := { s.contexts with map := s.contexts.map.modify id f } }

/-- `context.status = status`. -/
def setStatus (s : Scheduler) (id : Nat) (status : Status) : Scheduler :=
  s.modify id fun c => { c with status }

section Modify

variable {s : Scheduler} {id id' : Nat} {f : Context → Context}

@[simp] theorem contextId_modify : (s.modify id f).contextId = s.contextId := rfl

@[simp] theorem get?_modify_self : (s.modify id f).get? id = (s.get? id).map f :=
  OrdMap.get?_modify_self f

theorem get?_modify_of_ne (h : id' ≠ id) : (s.modify id f).get? id' = s.get? id' :=
  OrdMap.get?_modify_of_ne f h

end Modify

end Scheduler

/-! ### Choosing a context -/

/-- Take ownership, and wake from sleep. -/
def update (cpu : Nat) (now : Nat × Nat) (c : Context) : Context :=
  let c := if c.cpuId = none then { c with cpuId := some cpu } else c
  match c.wake with
  | some wake =>
      if c.status = .blocked ∧ (now.1 > wake.1 ∨ now.1 = wake.1 ∧ now.2 ≥ wake.2) then
        ({ c with wake := none }).unblock.2
      else c
  | none => c

/-- Whether a context needs to run and is owned by the CPU. -/
def runnable (cpu : Nat) (c : Context) : Bool :=
  (c.status = .runnable || c.status = .new) && c.cpuId = some cpu

/-- The two scans: the contexts after `from`, then those before it. -/
def choose (map : OrdMap Nat Context) (cpu fromId : Nat) : Option Nat :=
  let after := map.entries.find? fun e => fromId < e.1 && runnable cpu e.2
  let before := map.entries.find? fun e => e.1 < fromId && runnable cpu e.2
  (after.or before).map Prod.fst

/-- What a context that is switched from becomes. -/
def preempt (c : Context) : Context :=
  if c.status = .running then { c with status := .runnable } else c

namespace Scheduler

variable (cpu : Nat) (now : Nat × Nat)

/-- `update` for each context. -/
def updateAll (s : Scheduler) : Scheduler :=
  { s with contexts := { s.contexts with map := s.contexts.map.mapVal fun _ => update cpu now } }

/-- Switch to the next context; whether there is one. -/
def switch (s : Scheduler) : Except Halt (Bool × Scheduler) :=
  match s.get? s.contextId with
  | none => .error (.panic "context::switch: not inside of context")
  | some _ =>
      let s := s.updateAll cpu now
      match choose s.contexts.map cpu s.contextId with
      | none => .ok (false, s)
      | some toId =>
          .ok (true, { (s.modify s.contextId preempt).setStatus toId .running with contextId := toId })

/-- Run a fused context. The caller is blocked by `Context::block`. -/
def fuseSwitch (s : Scheduler) (toId : Nat) : Except Halt Scheduler :=
  let s := { s.setStatus toId .running with contextId := toId }
  match (s.get? toId).bind Context.retLink with
  | none => .error (.panic "Attempting to fuse without parent")
  | some caller => .ok (s.modify caller fun c => c.block.2)

/-- Return from a fused context. -/
def fuseReturn (s : Scheduler) (fromId toId : Nat) : Scheduler :=
  { (s.modify fromId fun c => c.unblock.2).setStatus toId .running with contextId := toId }

/-- `exit` marks the context, and takes its link. -/
def exited (s : Scheduler) : Scheduler :=
  s.modify s.contextId fun c => { c with status := .exited, retLink := none }

/-- The running context exits, and is not come back to. -/
def exit (s : Scheduler) : Except Halt Scheduler :=
  match s.get? s.contextId with
  | none => .error (.panic "No current context")
  | some context =>
      match context.retLink with
      | some parent => .ok (s.exited.fuseReturn s.contextId parent)
      | none =>
          if s.contextId = 1 then .error .stopped
          else
            match s.exited.switch cpu now with
            | .ok (true, s) => .ok s
            | .ok (false, _) => .error (.panic "internal error: entered unreachable code")
            | .error halt => .error halt

/-- `context::init`: the main thread of the kernel. -/
def boot : Scheduler where
  contexts := (ContextList.new.insert { Context.new with status := .running, cpuId := some cpu }).2
  contextId := 1

theorem of_get?_boot {cpu id : Nat} {c : Context} (h : (boot cpu).get? id = some c) :
    id = 1 ∧ c = { Context.new with status := .running, cpuId := some cpu } := by
  have hmem := OrdMap.mem_entries.mpr h
  have hentries : (boot cpu).contexts.map.entries =
      [(1, { Context.new with status := .running, cpuId := some cpu })] := rfl
  rw [hentries, List.mem_singleton] at hmem
  exact Prod.mk.inj hmem

/-- The context that a fused call makes. -/
def callee (s : Scheduler) : Context :=
  { Context.new with
    retLink := some s.contextId
    cpuId := (s.get? s.contextId).bind Context.cpuId }

end Scheduler

/-! ### All that can happen -/

section Update

variable {cpu : Nat} {now : Nat × Nat} {c : Context}

/-- The time has come to wake up. -/
def Due (now wake : Nat × Nat) : Prop := now.1 > wake.1 ∨ now.1 = wake.1 ∧ now.2 ≥ wake.2

instance (now wake : Nat × Nat) : Decidable (Due now wake) :=
  inferInstanceAs (Decidable (_ ∨ _))

/-- A context that is updated is as it was but for its owner, or it wakes up. -/
theorem update_cases (cpu : Nat) (now : Nat × Nat) (c : Context) :
    update cpu now c = { c with cpuId := c.cpuId.or (some cpu) } ∨
    c.status = .blocked ∧ (∃ wake, c.wake = some wake ∧ Due now wake) ∧
      update cpu now c = { c with cpuId := c.cpuId.or (some cpu), wake := none, status := .runnable } := by
  have howner : (if c.cpuId = none then { c with cpuId := some cpu } else c) =
      { c with cpuId := c.cpuId.or (some cpu) } := by
    obtain ⟨status, retLink, cpuId, wake, result⟩ := c
    cases cpuId with
    | none => rfl
    | some id => rfl
  rw [update, howner]
  dsimp only
  cases hwake : c.wake with
  | none => exact .inl rfl
  | some wake =>
    dsimp only
    split
    · next hawake =>
      exact .inr ⟨hawake.1, ⟨wake, rfl, hawake.2⟩, by rw [Context.unblock, if_pos hawake.1]⟩
    · exact .inl rfl

/-- A context that does not sleep is as it was but for its owner. -/
theorem update_awake (cpu : Nat) (now : Nat × Nat) (h : c.wake = none) :
    update cpu now c = { c with cpuId := c.cpuId.or (some cpu) } := by
  rcases update_cases cpu now c with hsame | ⟨-, ⟨wake, hwake, -⟩, -⟩
  · exact hsame
  · rw [h] at hwake
    cases hwake

end Update

namespace Scheduler

variable {cpu : Nat} {now : Nat × Nat} {s s' : Scheduler} {r : Bool}

theorem get?_updateAll (id : Nat) :
    (s.updateAll cpu now).get? id = (s.get? id).map (update cpu now) :=
  OrdMap.get?_mapVal _

/-- A scan finds a context other than the one that is left, and one that can run. -/
theorem choose_spec {map : OrdMap Nat Context} {fromId toId : Nat}
    (h : choose map cpu fromId = some toId) :
    toId ≠ fromId ∧ ∃ c, map.get? toId = some c ∧ runnable cpu c = true := by
  obtain ⟨⟨toId, c⟩, hfind, rfl⟩ := Option.map_eq_some_iff.mp h
  rw [Option.or_eq_some_iff] at hfind
  have hscan : ∀ p : Nat → Bool, (map.entries.find? fun e => p e.1 && runnable cpu e.2) =
      some (toId, c) → p toId = true ∧ map.get? toId = some c ∧ runnable cpu c = true := by
    intro p hp
    have hfound := List.find?_some hp
    have htest := Bool.and_eq_true_iff.mp hfound
    exact ⟨htest.1, OrdMap.mem_entries.mp (List.mem_of_find?_eq_some hp), htest.2⟩
  rcases hfind with hafter | ⟨-, hbefore⟩
  · obtain ⟨hlt, hc⟩ := hscan (fun id => fromId < id) hafter
    exact ⟨(of_decide_eq_true hlt).ne', c, hc⟩
  · obtain ⟨hlt, hc⟩ := hscan (fun id => id < fromId) hbefore
    exact ⟨(of_decide_eq_true hlt).ne, c, hc⟩

/-- A scan finds one if there is one. -/
theorem exists_choose {map : OrdMap Nat Context} {fromId id : Nat} {c : Context} (hid : id ≠ fromId)
    (hc : map.get? id = some c) (hrunnable : runnable cpu c = true) :
    ∃ toId, choose map cpu fromId = some toId := by
  have hmem := OrdMap.mem_entries.mpr hc
  have hscan : ((map.entries.find? fun e => fromId < e.1 && runnable cpu e.2).or
      (map.entries.find? fun e => e.1 < fromId && runnable cpu e.2)).isSome := by
    rw [Option.isSome_or, Bool.or_eq_true_iff, List.find?_isSome, List.find?_isSome]
    rcases Nat.lt_or_gt_of_ne hid with hlt | hlt
    · exact .inr ⟨(id, c), hmem, by simp [hlt, hrunnable]⟩
    · exact .inl ⟨(id, c), hmem, by simp [hlt, hrunnable]⟩
  obtain ⟨e, he⟩ := Option.isSome_iff_exists.mp hscan
  exact ⟨e.1, congrArg (Option.map Prod.fst) he⟩

/-- `switch` does not fail in a context. -/
theorem switch_ok {c : Context} (hc : s.get? s.contextId = some c) :
    ∃ r s', s.switch cpu now = .ok (r, s') := by
  unfold switch
  rw [hc]
  dsimp only
  split
  · exact ⟨_, _, rfl⟩
  · exact ⟨_, _, rfl⟩

theorem switch_of_runnable {id : Nat} {c c₀ : Context} (hc₀ : s.get? s.contextId = some c₀)
    (hid : id ≠ s.contextId) (hc : s.get? id = some c)
    (hrunnable : runnable cpu (update cpu now c) = true) :
    ∃ s', s.switch cpu now = .ok (true, s') := by
  have hget : (s.updateAll cpu now).get? id = some (update cpu now c) := by
    rw [get?_updateAll, hc]
    rfl
  obtain ⟨toId, hchoose⟩ := exists_choose hid hget hrunnable
  have hchoose : choose (s.updateAll cpu now).contexts.map cpu (s.updateAll cpu now).contextId =
    some toId := hchoose
  unfold switch
  rw [hc₀]
  dsimp only
  rw [hchoose]
  exact ⟨_, rfl⟩

theorem switch_cases (h : s.switch cpu now = .ok (r, s')) :
    r = false ∧ s' = s.updateAll cpu now ∨
    r = true ∧ ∃ toId c, toId ≠ s.contextId ∧ s.get? toId = some c ∧
      runnable cpu (update cpu now c) = true ∧ s'.contextId = toId ∧
      s'.get? toId = some { update cpu now c with status := .running } ∧
      s'.get? s.contextId = (s.get? s.contextId).map (fun c => preempt (update cpu now c)) ∧
      ∀ id, id ≠ toId → id ≠ s.contextId → s'.get? id = (s.get? id).map (update cpu now) := by
  unfold switch at h
  split at h
  · cases h
  · dsimp only at h
    split at h
    · cases h
      exact .inl ⟨rfl, rfl⟩
    · next toId hchoose =>
      cases h
      obtain ⟨hne, c', hc', hrunnable⟩ := choose_spec hchoose
      have hc'' : (s.get? toId).map (update cpu now) = some c' := by
        rw [← get?_updateAll]
        exact hc'
      obtain ⟨c, hc, rfl⟩ := Option.map_eq_some_iff.mp hc''
      refine .inr ⟨rfl, toId, c, hne, hc, hrunnable, rfl, ?_, ?_, ?_⟩
      · exact (get?_modify_self).trans (by rw [get?_modify_of_ne hne, get?_updateAll, hc]; rfl)
      · refine (get?_modify_of_ne (Ne.symm hne)).trans ?_
        refine get?_modify_self.trans ?_
        rw [get?_updateAll, Option.map_map]
        rfl
      · intro id hid hid'
        refine (get?_modify_of_ne hid).trans ((get?_modify_of_ne hid').trans ?_)
        exact get?_updateAll id

/-- What a context was like before a switch. It is updated, and may be switched to or from. -/
theorem of_switch {id : Nat} {c' : Context} (h : s.switch cpu now = .ok (r, s'))
    (hc' : s'.get? id = some c') : ∃ c, s.get? id = some c ∧
      (c' = update cpu now c ∧ (s'.contextId = id ↔ s.contextId = id) ∨
        c' = { update cpu now c with status := .running } ∧ runnable cpu (update cpu now c) = true ∧
          s'.contextId = id ∨
        c' = preempt (update cpu now c) ∧ s.contextId = id ∧ s'.contextId ≠ id) := by
  rcases switch_cases h with ⟨-, rfl⟩ | ⟨-, toId, cTo, hne, hcTo, hrunnable, hid, hto, hfrom, hrest⟩
  · obtain ⟨c, hc, rfl⟩ := Option.map_eq_some_iff.mp ((get?_updateAll id).symm.trans hc')
    exact ⟨c, hc, .inl ⟨rfl, Iff.rfl⟩⟩
  by_cases hidTo : id = toId
  · subst hidTo
    cases hto.symm.trans hc'
    exact ⟨cTo, hcTo, .inr (.inl ⟨rfl, hrunnable, hid⟩)⟩
  have hnot : s'.contextId ≠ id := fun h => hidTo (h.symm.trans hid)
  by_cases hidFrom : id = s.contextId
  · subst hidFrom
    obtain ⟨c, hc, rfl⟩ := Option.map_eq_some_iff.mp (hfrom.symm.trans hc')
    exact ⟨c, hc, .inr (.inr ⟨rfl, rfl, hnot⟩)⟩
  · obtain ⟨c, hc, rfl⟩ := Option.map_eq_some_iff.mp ((hrest id hidTo hidFrom).symm.trans hc')
    exact ⟨c, hc, .inl ⟨rfl, iff_of_false hnot (Ne.symm hidFrom)⟩⟩

/-- `switch` neither adds a context nor takes one away. -/
theorem isSome_switch (h : s.switch cpu now = .ok (r, s')) (id : Nat) :
    (s'.get? id).isSome = (s.get? id).isSome := by
  rcases switch_cases h with ⟨-, rfl⟩ | ⟨-, toId, cTo, -, hcTo, -, -, hto, hfrom, hrest⟩
  · rw [get?_updateAll, Option.isSome_map]
  by_cases hidTo : id = toId
  · rw [hidTo, hto, hcTo]
    rfl
  by_cases hidFrom : id = s.contextId
  · rw [hidFrom, hfrom, Option.isSome_map]
  · rw [hrest id hidTo hidFrom, Option.isSome_map]

theorem current_switch {c : Context} (h : s.switch cpu now = .ok (r, s'))
    (hc : s.get? s.contextId = some c) : ∃ c', s'.get? s'.contextId = some c' := by
  rcases switch_cases h with ⟨-, rfl⟩ | ⟨-, toId, cTo, -, -, -, hid, hto, -, -⟩
  · exact ⟨_, (get?_updateAll _).trans (congrArg (Option.map _) hc)⟩
  · exact ⟨_, hid ▸ hto⟩

/-- A context returns to its caller, or another one is switched to. -/
theorem exit_cases (h : s.exit cpu now = .ok s') : ∃ c, s.get? s.contextId = some c ∧
    ((∃ parent, c.retLink = some parent ∧ s' = s.exited.fuseReturn s.contextId parent) ∨
      c.retLink = none ∧ s.contextId ≠ 1 ∧ s.exited.switch cpu now = .ok (true, s')) := by
  unfold exit at h
  split at h
  · cases h
  · next c hc =>
    refine ⟨c, hc, ?_⟩
    split at h
    · next parent hlink =>
      cases h
      exact .inl ⟨parent, hlink, rfl⟩
    · next hlink =>
      split at h
      · cases h
      · next hne =>
        split at h
        · next s₂ hswitch =>
          cases h
          exact .inr ⟨hlink, hne, hswitch⟩
        · cases h
        · cases h

theorem fuseSwitch_cases {toId : Nat} (h : s.fuseSwitch toId = .ok s') : ∃ caller,
    (s.get? toId).bind Context.retLink = some caller ∧
      s' = { (s.setStatus toId .running).modify caller (fun c => c.block.2) with contextId := toId } := by
  unfold fuseSwitch at h
  have hlink : ((({ s.setStatus toId .running with contextId := toId } : Scheduler).get? toId).bind
      Context.retLink) = (s.get? toId).bind Context.retLink := by
    have hget : ({ s.setStatus toId .running with contextId := toId } : Scheduler).get? toId =
        (s.get? toId).map fun c => { c with status := .running } := get?_modify_self
    rw [hget]
    cases s.get? toId with
    | none => rfl
    | some c => rfl
  dsimp only at h
  rw [hlink] at h
  split at h
  · cases h
  · next caller hcaller =>
    cases h
    exact ⟨caller, hcaller, rfl⟩

end Scheduler

end Faastr.Sched
