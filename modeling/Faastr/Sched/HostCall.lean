import Faastr.Lib.Transition
import Faastr.Sched.Switch
import Mathlib.Data.List.Nodup
import Mathlib.Logic.Function.Basic

/-!
Waiting for the host: `ivshrpc_fuse` and the part of `isr` that delivers results
(`kernel/src/devices/ivshmem.rs`), under the scheduler.

A context registers its call, sends the request, and then, under its lock, sets its status
to `Blocked` if there is no result yet. It waits until the status is another. `isr` takes
the context out of the queue, and then, under the context's lock, stores the result and
unblocks the context. A context may take its next step at any time, whichever context the
scheduler has chosen, so every order of the steps is covered.

* `Stage`: how far a call has come, as one sequence of stages.
* `Tracks`: the queue, the messages under way and the contexts are what the stages say.
* `no_lost_wakeup`: no context is blocked while its result is there, and a context that
  leaves the loop has the answer to its own call.
-/

namespace Faastr.Sched

open Faastr.Lib Relation

/-- Where a context is in `ivshrpc_fuse`. -/
inductive Pc where
  | idle
  /-- It has a number for its call. -/
  | called (callid : Nat)
  | registered (callid : Nat)
  | sent (callid : Nat)
  /-- In the loop. -/
  | waiting (callid : Nat)
deriving DecidableEq, Repr

/-- The call that a context makes. -/
def Pc.callid : Pc → Option Nat
  | .idle => none
  | .called callid | .registered callid | .sent callid | .waiting callid => some callid

structure HostCalls where
  sched : Scheduler
  /-- `CALL_ID`. -/
  callId : Nat
  /-- `CALL_QUEUE`. -/
  queue : Nat → Option Nat
  pc : Nat → Pc
  /-- The requests that the host has not answered. -/
  requests : List Nat
  /-- The answers that are not received. -/
  replies : List (Nat × List UInt8)
  /-- The context, and the result, that `isr` is about to deliver. -/
  delivering : Option (Nat × List UInt8)
  /-- The context that made each call. -/
  calls : Nat → Option Nat
  /-- What the host answered to each call. -/
  answers : Nat → Option (List UInt8)

inductive HostMove where
  | switch (now : Nat × Nat)
  /-- A new context. -/
  | cast
  | call (id : Nat)
  | register (id : Nat)
  | send (id : Nat)
  | check (id : Nat)
  | leave (id : Nat)
  | answer (callid : Nat) (values : List UInt8)
  | receive
  | deliver
deriving DecidableEq, Repr

namespace HostCalls

def boot (cpu : Nat) : HostCalls where
  sched := .boot cpu
  callId := 0
  queue _ := none
  pc _ := .idle
  requests := []
  replies := []
  delivering := none
  calls _ := none
  answers _ := none

/-- What a move leads to, if it can be made. -/
def perform (cpu : Nat) (s : HostCalls) : HostMove → Option (Except Halt HostCalls)
  | .switch now => some ((s.sched.switch cpu now).map fun r => { s with sched := r.2 })
  | .cast => some (.ok { s with sched.contexts :=
      (s.sched.contexts.insert { Context.new with status := .new }).2 })
  | .call id =>
      -- The calls that are made have distinct numbers.
      if s.pc id = .idle ∧ (s.sched.get? id).isSome ∧ s.calls s.callId = none then some (.ok { s with
        callId := (s.callId + 1) % 2 ^ 64
        pc := Function.update s.pc id (.called s.callId)
        calls := Function.update s.calls s.callId (some id) })
      else none
  | .register id =>
      match s.pc id with
      | .called callid => some (.ok { s with
          queue := Function.update s.queue callid (some id)
          pc := Function.update s.pc id (.registered callid) })
      | _ => none
  | .send id =>
      match s.pc id with
      | .registered callid => some (.ok { s with
          requests := s.requests ++ [callid]
          pc := Function.update s.pc id (.sent callid) })
      | _ => none
  | .check id =>
      match s.pc id with
      | .sent callid => some (.ok { s with
          sched := s.sched.modify id fun c =>
            if c.result = none then { c with status := .blocked } else c
          pc := Function.update s.pc id (.waiting callid) })
      | _ => none
  | .leave id =>
      match s.pc id, s.sched.get? id with
      | .waiting _, some c =>
          if c.status = .blocked then none
          else if c.result = none then some (.error (.panic "This shouldn't be empty."))
          else some (.ok { s with
            sched := s.sched.modify id fun c => { c with result := none }
            pc := Function.update s.pc id .idle })
      | _, _ => none
  | .answer callid values =>
      if callid ∈ s.requests then some (.ok { s with
        requests := s.requests.erase callid
        replies := s.replies ++ [(callid, values)]
        answers := Function.update s.answers callid (some values) })
      else none
  | .receive =>
      match s.delivering, s.replies with
      | none, (callid, values) :: replies =>
          match s.queue callid with
          | none => some (.error
              (.panic ("Received result for unknown context id " ++ toString callid)))
          | some id => some (.ok { s with
              queue := Function.update s.queue callid none
              replies
              delivering := some (id, values) })
      | _, _ => none
  | .deliver =>
      match s.delivering with
      | some (id, values) => some (.ok { s with
          sched := s.sched.modify id fun c => { c with result := some values }.unblock.2
          delivering := none })
      | none => none

def Step (cpu : Nat) (s s' : HostCalls) : Prop := ∃ a, s.perform cpu a = some (.ok s')

end HostCalls

/-! ### The stages of a call -/

/-- How far a call has come. -/
inductive Stage where
  | unused
  | called
  | registered
  | asked
  | answered (values : List UInt8)
  /-- Taken out of the queue. -/
  | taken (values : List UInt8)
  | delivered (values : List UInt8)
  | finished
deriving DecidableEq, Repr

namespace Stage

/-- The call is in the queue. -/
def queued : Stage → Bool
  | .registered | .asked | .answered _ => true
  | _ => false

/-- Where the context is that made the call. -/
def PcOk (callid : Nat) (pc : Pc) : Stage → Prop
  | .unused | .finished => False
  | .called => pc = .called callid
  | .registered => pc = .registered callid
  | .asked | .answered _ | .taken _ | .delivered _ => pc = .sent callid ∨ pc = .waiting callid

/-- What the host has answered. -/
def answer : Stage → Option (List UInt8)
  | .answered values | .taken values | .delivered values => some values
  | _ => none

/-- What the context is like that made the call. -/
def ContextOk (pc : Pc) (c : Context) : Stage → Prop
  | .delivered values => c.result = some values ∧ c.status ≠ .blocked
  | _ => c.result = none ∧ ((∃ callid, pc = .waiting callid) → c.status = .blocked)

theorem PcOk.callid {callid : Nat} {pc : Pc} {stage : Stage} (h : stage.PcOk callid pc) :
    pc.callid = some callid := by
  cases stage with
  | unused => exact h.elim
  | finished => exact h.elim
  | called => rw [show pc = _ from h]; rfl
  | registered => rw [show pc = _ from h]; rfl
  | asked | answered | taken | delivered =>
    rcases h with rfl | rfl
    · rfl
    · rfl

end Stage

namespace HostCalls

/-- The queue, the messages under way and the contexts are what the stages say. -/
structure Tracks (s : HostCalls) (stage : Nat → Stage) : Prop where
  used : ∀ callid, s.calls callid = none ↔ stage callid = .unused
  /-- A call that has not ended is made by the context that is at it. -/
  caller : ∀ callid id, s.calls callid = some id → stage callid ≠ .finished →
    (stage callid).PcOk callid (s.pc id)
  owner : ∀ id callid, (s.pc id).callid = some callid →
    s.calls callid = some id ∧ stage callid ≠ .finished
  queue : ∀ callid, s.queue callid = if (stage callid).queued then s.calls callid else none
  requests : ∀ callid, callid ∈ s.requests ↔ stage callid = .asked
  requestsNodup : s.requests.Nodup
  replies : ∀ callid values, (callid, values) ∈ s.replies ↔ stage callid = .answered values
  repliesNodup : s.replies.Nodup
  delivering : ∀ id values, s.delivering = some (id, values) ↔
    ∃ callid, s.calls callid = some id ∧ stage callid = .taken values
  answers : ∀ callid values, (stage callid).answer = some values → s.answers callid = some values
  idle : ∀ id c, s.sched.get? id = some c → s.pc id = .idle → c.result = none
  busy : ∀ id c callid, s.sched.get? id = some c → (s.pc id).callid = some callid →
    (stage callid).ContextOk (s.pc id) c
  /-- Nobody sleeps: the calls that would set a time to wake up are not there. -/
  awake : ∀ id c, s.sched.get? id = some c → c.wake = none
  current : ∃ c, s.sched.get? s.sched.contextId = some c
  present : ∀ id, s.pc id ≠ .idle → (s.sched.get? id).isSome

section Advance

variable {s s' : HostCalls} {stage : Nat → Stage} {id callid : Nat} {st : Stage} {pc : Pc}

/-- The call `callid` that the context `id` makes goes on to the stage `st`. -/
structure Advance (s s' : HostCalls) (stage : Nat → Stage) (id callid : Nat) (st : Stage) (pc : Pc) : Prop where
  before : s.Tracks stage
  only : ∀ callid', (s.pc id).callid = some callid' → callid' = callid
  call : s.calls callid = none ∨ s.calls callid = some id
  next : st = .finished ∧ pc = .idle ∨ st.PcOk callid pc
  place : s'.pc = Function.update s.pc id pc
  calls : s'.calls = Function.update s.calls callid (some id)
  queue : s'.queue = Function.update s.queue callid (if st.queued then some id else none)
  requests : s'.requests.Nodup ∧ ∀ callid', callid' ∈ s'.requests ↔
    if callid' = callid then st = .asked else callid' ∈ s.requests
  replies : s'.replies.Nodup ∧ ∀ callid' values, (callid', values) ∈ s'.replies ↔
    if callid' = callid then st = .answered values else (callid', values) ∈ s.replies
  delivering : ∀ id' values, s'.delivering = some (id', values) ↔
    if id' = id then st = .taken values else s.delivering = some (id', values)
  answers : (∀ callid', callid' ≠ callid → s'.answers callid' = s.answers callid') ∧
    ∀ values, st.answer = some values → s'.answers callid = some values
  others : ∀ id', id' ≠ id → s'.sched.get? id' = s.sched.get? id'
  self : ∀ c, s'.sched.get? id = some c → c.wake = none ∧ (pc = .idle → c.result = none) ∧
    (pc ≠ .idle → st.ContextOk pc c)
  current : ∃ c, s'.sched.get? s'.sched.contextId = some c
  present : pc ≠ .idle → (s'.sched.get? id).isSome

section Fields

variable (h : Advance s s' stage id callid st pc)

include h

/-- Another context makes another call. -/
theorem Advance.other_call {id' callid' : Nat} (hid : id' ≠ id) (hat : (s.pc id').callid = some callid') :
    callid' ≠ callid := by
  rintro rfl
  have hmine := (h.before.owner id' callid' hat).1
  rcases h.call with hnone | hsome
  · cases hnone.symm.trans hmine
  · exact hid (Option.some.inj (hmine.symm.trans hsome))

/-- Another call is made by another context. -/
theorem Advance.other_context {id' callid' : Nat} (hc : callid' ≠ callid) (hcall : s.calls callid' = some id')
    (hfin : stage callid' ≠ .finished) : id' ≠ id := by
  rintro rfl
  exact hc (h.only callid' (h.before.caller callid' id' hcall hfin).callid)

theorem Advance.live (hpc : pc ≠ .idle) : st.PcOk callid pc := h.next.resolve_left fun hfin => hpc hfin.2

theorem Advance.calls_of_ne {callid' : Nat} (hc : callid' ≠ callid) : s'.calls callid' = s.calls callid' := by
  rw [h.calls, Function.update_of_ne hc]

theorem Advance.calls_self : s'.calls callid = some id := by
  rw [h.calls, Function.update_self]

theorem Advance.pc_of_ne {id' : Nat} (hid : id' ≠ id) : s'.pc id' = s.pc id' := by
  rw [h.place, Function.update_of_ne hid]

theorem Advance.pc_self : s'.pc id = pc := by
  rw [h.place, Function.update_self]

theorem Advance.caller {id' callid' : Nat} (hcall : s'.calls callid' = some id')
    (hfin : Function.update stage callid st callid' ≠ .finished) :
    (Function.update stage callid st callid').PcOk callid' (s'.pc id') := by
  by_cases hc : callid' = callid
  · subst hc
    cases h.calls_self.symm.trans hcall
    rw [Function.update_self] at hfin ⊢
    rw [h.pc_self]
    exact h.next.resolve_left fun hno => hfin hno.1
  · rw [h.calls_of_ne hc] at hcall
    rw [Function.update_of_ne hc] at hfin ⊢
    rw [h.pc_of_ne (h.other_context hc hcall hfin)]
    exact h.before.caller callid' id' hcall hfin

theorem Advance.owner {id' callid' : Nat} (hat : (s'.pc id').callid = some callid') :
    s'.calls callid' = some id' ∧ Function.update stage callid st callid' ≠ .finished := by
  by_cases hid : id' = id
  · subst hid
    rw [h.pc_self] at hat
    have hok := h.live (by rintro rfl; cases hat)
    cases hok.callid.symm.trans hat
    rw [Function.update_self]
    refine ⟨h.calls_self, ?_⟩
    rintro rfl
    exact hok
  · rw [h.pc_of_ne hid] at hat
    have hc := h.other_call hid hat
    rw [h.calls_of_ne hc, Function.update_of_ne hc]
    exact h.before.owner id' callid' hat

theorem Advance.taken (id' : Nat) (values : List UInt8) : s'.delivering = some (id', values) ↔
    ∃ callid', s'.calls callid' = some id' ∧ Function.update stage callid st callid' = .taken values := by
  rw [h.delivering]
  by_cases hid : id' = id
  · subst hid
    rw [if_pos rfl]
    refine ⟨fun hst => ⟨callid, h.calls_self, (Function.update_self ..).trans hst⟩, ?_⟩
    rintro ⟨callid', hcall, htaken⟩
    by_cases hc : callid' = callid
    · rwa [hc, Function.update_self] at htaken
    · rw [h.calls_of_ne hc] at hcall
      rw [Function.update_of_ne hc] at htaken
      exact absurd rfl (h.other_context hc hcall (by rw [htaken]; simp))
  · rw [if_neg hid, h.before.delivering]
    constructor
    · rintro ⟨callid', hcall, htaken⟩
      have hc := h.other_call hid (h.before.caller callid' id' hcall (by rw [htaken]; simp)).callid
      exact ⟨callid', by rw [h.calls_of_ne hc, hcall], by rw [Function.update_of_ne hc, htaken]⟩
    · rintro ⟨callid', hcall, htaken⟩
      have hc : callid' ≠ callid := by
        rintro rfl
        exact hid (Option.some.inj (h.calls_self.symm.trans hcall)).symm
      rw [h.calls_of_ne hc] at hcall
      rw [Function.update_of_ne hc] at htaken
      exact ⟨callid', hcall, htaken⟩

theorem Advance.busy {id' callid' : Nat} {c : Context} (hget : s'.sched.get? id' = some c)
    (hat : (s'.pc id').callid = some callid') :
    (Function.update stage callid st callid').ContextOk (s'.pc id') c := by
  by_cases hid : id' = id
  · subst hid
    rw [h.pc_self] at hat ⊢
    have hne : pc ≠ .idle := by
      rintro rfl
      cases hat
    cases (h.live hne).callid.symm.trans hat
    rw [Function.update_self]
    exact (h.self c hget).2.2 hne
  · rw [h.pc_of_ne hid] at hat ⊢
    rw [Function.update_of_ne (h.other_call hid hat)]
    exact h.before.busy id' c callid' ((h.others id' hid).symm.trans hget) hat

theorem Advance.tracks : s'.Tracks (Function.update stage callid st) := by
  constructor
  case caller => exact fun callid' id' hcall hfin => h.caller hcall hfin
  case owner => exact fun id' callid' hat => h.owner hat
  case delivering => exact h.taken
  case busy => exact fun id' c callid' hget hat => h.busy hget hat
  case requestsNodup => exact h.requests.1
  case repliesNodup => exact h.replies.1
  case current => exact h.current
  case used =>
    intro callid'
    by_cases hc : callid' = callid
    · subst hc
      rw [h.calls_self, Function.update_self]
      refine iff_of_false (by simp) ?_
      rintro rfl
      rcases h.next with ⟨hno, -⟩ | hno
      · cases hno
      · exact hno
    · rw [h.calls_of_ne hc, Function.update_of_ne hc]
      exact h.before.used callid'
  case queue =>
    intro callid'
    by_cases hc : callid' = callid
    · subst hc
      rw [h.queue, h.calls_self, Function.update_self, Function.update_self]
    · rw [h.queue, h.calls_of_ne hc, Function.update_of_ne hc, Function.update_of_ne hc]
      exact h.before.queue callid'
  case requests =>
    intro callid'
    rw [h.requests.2]
    by_cases hc : callid' = callid
    · rw [if_pos hc, hc, Function.update_self]
    · rw [if_neg hc, Function.update_of_ne hc]
      exact h.before.requests callid'
  case replies =>
    intro callid' values
    rw [h.replies.2]
    by_cases hc : callid' = callid
    · rw [if_pos hc, hc, Function.update_self]
    · rw [if_neg hc, Function.update_of_ne hc]
      exact h.before.replies callid' values
  case answers =>
    intro callid' values hanswer
    by_cases hc : callid' = callid
    · subst hc
      rw [Function.update_self] at hanswer
      exact h.answers.2 values hanswer
    · rw [Function.update_of_ne hc] at hanswer
      rw [h.answers.1 callid' hc]
      exact h.before.answers callid' values hanswer
  case idle =>
    intro id' c hget hidle
    by_cases hid : id' = id
    · subst hid
      exact (h.self c hget).2.1 (h.pc_self.symm.trans hidle)
    · rw [h.pc_of_ne hid] at hidle
      exact h.before.idle id' c ((h.others id' hid).symm.trans hget) hidle
  case awake =>
    intro id' c hget
    by_cases hid : id' = id
    · subst hid
      exact (h.self c hget).1
    · exact h.before.awake id' c ((h.others id' hid).symm.trans hget)
  case present =>
    intro id' hne
    by_cases hid : id' = id
    · subst hid
      exact h.present (h.pc_self ▸ hne)
    · rw [h.pc_of_ne hid] at hne
      rw [h.others id' hid]
      exact h.before.present id' hne

end Fields

/-! ### What a move leaves alone -/

section Same

variable (h : s.Tracks stage)

include h

theorem Tracks.stage_of_pc (hat : (s.pc id).callid = some callid) :
    s.calls callid = some id ∧ (stage callid).PcOk callid (s.pc id) := by
  obtain ⟨hcall, hfin⟩ := h.owner id callid hat
  exact ⟨hcall, h.caller callid id hcall hfin⟩

theorem Tracks.requests_same (hold : stage callid ≠ .asked) (hst : st ≠ .asked) :
    s.requests.Nodup ∧ ∀ callid', callid' ∈ s.requests ↔
      if callid' = callid then st = .asked else callid' ∈ s.requests := by
  refine ⟨h.requestsNodup, fun callid' => ?_⟩
  split
  · next hc => exact iff_of_false (fun hmem => hold ((h.requests callid).mp (hc ▸ hmem))) hst
  · rfl

theorem Tracks.replies_same (hold : ∀ values, stage callid ≠ .answered values)
    (hst : ∀ values, st ≠ .answered values) :
    s.replies.Nodup ∧ ∀ callid' values, (callid', values) ∈ s.replies ↔
      if callid' = callid then st = .answered values else (callid', values) ∈ s.replies := by
  refine ⟨h.repliesNodup, fun callid' values => ?_⟩
  split
  · next hc =>
    exact iff_of_false (fun hmem => hold values ((h.replies callid values).mp (hc ▸ hmem))) (hst values)
  · rfl

theorem Tracks.delivering_same (hat : ∀ callid', (s.pc id).callid = some callid' → callid' = callid)
    (hold : ∀ values, stage callid ≠ .taken values) (hst : ∀ values, st ≠ .taken values)
    (id' : Nat) (values : List UInt8) : s.delivering = some (id', values) ↔
      if id' = id then st = .taken values else s.delivering = some (id', values) := by
  split
  · next hid =>
    refine iff_of_false (fun hdel => ?_) (hst values)
    obtain ⟨callid', hcall, htaken⟩ := (h.delivering id' values).mp hdel
    have hpc := (h.caller callid' id' hcall (by rw [htaken]; simp)).callid
    exact hold values (hat callid' (hid ▸ hpc) ▸ htaken)
  · rfl

theorem Tracks.queue_of_not_queued (hst : (stage callid).queued = false) : s.queue callid = none := by
  rw [h.queue, hst]
  rfl

end Same

end Advance

/-! ### The moves -/

section Moves

variable {cpu : Nat} {s s' : HostCalls} {stage : Nat → Stage} {id callid : Nat}

theorem eq_update {α : Type} {f : Nat → α} {n : Nat} {a : α} (h : f n = a) : f = Function.update f n a :=
  (Function.update_eq_self_iff.mpr h.symm).symm

theorem current_modify {s : Scheduler} {f : Context → Context}
    (h : ∃ c, s.get? s.contextId = some c) :
    ∃ c, (s.modify id f).get? (s.modify id f).contextId = some c := by
  obtain ⟨c, hc⟩ := h
  rw [Scheduler.contextId_modify]
  by_cases hid : s.contextId = id
  · subst hid
    exact ⟨f c, by rw [Scheduler.get?_modify_self, hc]; rfl⟩
  · exact ⟨c, (Scheduler.get?_modify_of_ne hid).trans hc⟩

theorem Tracks.call (h : s.Tracks stage) (hidle : s.pc id = .idle) (hid : (s.sched.get? id).isSome)
    (hnew : s.calls s.callId = none) : Tracks { s with
        callId := (s.callId + 1) % 2 ^ 64
        pc := Function.update s.pc id (.called s.callId)
        calls := Function.update s.calls s.callId (some id) }
      (Function.update stage s.callId .called) := by
  have hunused := (h.used _).mp hnew
  have hat : ∀ callid', (s.pc id).callid = some callid' → callid' = s.callId := by
    simp [hidle, Pc.callid]
  refine Advance.tracks (.mk h hat (.inl hnew) (.inr rfl) rfl rfl (eq_update ?_) (h.requests_same ?_ ?_)
    (h.replies_same ?_ ?_) (h.delivering_same hat ?_ ?_) ⟨fun _ _ => rfl, nofun⟩ (fun _ _ => rfl)
    (fun c hget => ⟨h.awake id c hget, nofun, fun _ => ⟨h.idle id c hget hidle, nofun⟩⟩) h.current
    fun _ => hid)
  · exact h.queue_of_not_queued (by rw [hunused]; rfl)
  all_goals simp [hunused]

section Caller

variable (h : s.Tracks stage)

include h

/-- What is known of the call that a context is at. -/
theorem Tracks.own (hat : (s.pc id).callid = some callid) : s.calls callid = some id ∧
    (stage callid).PcOk callid (s.pc id) ∧
    (∀ callid', (s.pc id).callid = some callid' → callid' = callid) ∧
    (s.sched.get? id).isSome := by
  obtain ⟨hcall, hok⟩ := h.stage_of_pc hat
  refine ⟨hcall, hok, fun callid' hat' => Option.some.inj (hat'.symm.trans hat), h.present id ?_⟩
  intro hidle
  rw [hidle] at hat
  cases hat

theorem Tracks.register (hpc : s.pc id = .called callid) : Tracks { s with
        queue := Function.update s.queue callid (some id)
        pc := Function.update s.pc id (.registered callid) }
      (Function.update stage callid .registered) := by
  have hat : (s.pc id).callid = some callid := by rw [hpc]; rfl
  obtain ⟨hcall, hok, hat', hpresent⟩ := h.own hat
  have hstage : stage callid = .called := by
    rw [hpc] at hok
    cases hst : stage callid <;> simp [hst, Stage.PcOk] at hok
    rfl
  refine Advance.tracks (.mk h hat' (.inr hcall) (.inr rfl) rfl (eq_update hcall) rfl (h.requests_same ?_ ?_)
    (h.replies_same ?_ ?_) (h.delivering_same hat' ?_ ?_) ⟨fun _ _ => rfl, nofun⟩ (fun _ _ => rfl)
    (fun c hget => ⟨h.awake id c hget, nofun, fun _ => ?_⟩) h.current fun _ => hpresent)
  case refine_7 =>
    have hbusy := h.busy id c callid hget hat
    rw [hstage] at hbusy
    exact ⟨hbusy.1, nofun⟩
  all_goals simp [hstage]

theorem Tracks.send (hpc : s.pc id = .registered callid) : Tracks { s with
        requests := s.requests ++ [callid]
        pc := Function.update s.pc id (.sent callid) }
      (Function.update stage callid .asked) := by
  have hat : (s.pc id).callid = some callid := by rw [hpc]; rfl
  obtain ⟨hcall, hok, hat', hpresent⟩ := h.own hat
  have hstage : stage callid = .registered := by
    rw [hpc] at hok
    cases hst : stage callid <;> simp [hst, Stage.PcOk] at hok
    rfl
  have hnot : callid ∉ s.requests := by
    rw [h.requests, hstage]
    simp
  refine Advance.tracks (.mk h hat' (.inr hcall) (.inr (.inl rfl)) rfl (eq_update hcall) (eq_update ?_) ⟨?_, ?_⟩
    (h.replies_same ?_ ?_) (h.delivering_same hat' ?_ ?_) ⟨fun _ _ => rfl, nofun⟩ (fun _ _ => rfl)
    (fun c hget => ⟨h.awake id c hget, nofun, fun _ => ?_⟩) h.current fun _ => hpresent)
  case refine_1 =>
    rw [h.queue, hstage, hcall]
    rfl
  case refine_2 => exact List.nodup_append.mpr ⟨h.requestsNodup, List.nodup_singleton _, by
    rintro a ha b hb rfl
    exact hnot (List.mem_singleton.mp hb ▸ ha)⟩
  case refine_3 =>
    intro callid'
    split
    · next hc => simp [hc]
    · next hc => simp [hc]
  case refine_8 =>
    have hbusy := h.busy id c callid hget hat
    rw [hstage] at hbusy
    exact ⟨hbusy.1, nofun⟩
  all_goals simp [hstage]

/-- The context blocks unless its result is there. -/
theorem Tracks.check (hpc : s.pc id = .sent callid) : Tracks { s with
        sched := s.sched.modify id fun c =>
          if c.result = none then { c with status := .blocked } else c
        pc := Function.update s.pc id (.waiting callid) } stage := by
  have hat : (s.pc id).callid = some callid := by rw [hpc]; rfl
  obtain ⟨hcall, hok, hat', hpresent⟩ := h.own hat
  have hsame : Function.update stage callid (stage callid) = stage := Function.update_eq_self ..
  rw [← hsame]
  refine Advance.tracks (.mk h hat' (.inr hcall) (.inr ?_) rfl (eq_update hcall) (eq_update ?_)
    ⟨h.requestsNodup, ?_⟩ ⟨h.repliesNodup, ?_⟩ ?_ ⟨fun _ _ => rfl, h.answers callid⟩
    (fun _ hid => Scheduler.get?_modify_of_ne hid) (fun c hget => ?_) ?_ fun _ => ?_)
  · rw [hpc] at hok
    cases hst : stage callid <;> simp [hst, Stage.PcOk] at hok ⊢
  · rw [h.queue, hcall]
  · intro callid'
    split
    · next hc => rw [hc, h.requests]
    · rfl
  · intro callid' values
    split
    · next hc => rw [hc, h.replies]
    · rfl
  · intro id' values
    split
    · next hid =>
      rw [hid, h.delivering]
      constructor
      · rintro ⟨callid', hcall', htaken⟩
        have hpc' := (h.caller callid' id hcall' (by rw [htaken]; simp)).callid
        rwa [hat' callid' hpc'] at htaken
      · exact fun htaken => ⟨callid, hcall, htaken⟩
    · rfl
  · rw [Scheduler.get?_modify_self] at hget
    obtain ⟨c₀, hc₀, rfl⟩ := Option.map_eq_some_iff.mp hget
    have hbusy := h.busy id c₀ callid hc₀ hat
    have hawake := h.awake id c₀ hc₀
    split
    · next hnone =>
      refine ⟨hawake, nofun, fun _ => ?_⟩
      cases hst : stage callid with
      | delivered values =>
        rw [hst] at hbusy
        cases hnone.symm.trans hbusy.1
      | _ => exact ⟨hnone, fun _ => rfl⟩
    · next hsome =>
      refine ⟨hawake, nofun, fun _ => ?_⟩
      cases hst : stage callid with
      | delivered values =>
        rw [hst] at hbusy
        exact hbusy
      | _ =>
        rw [hst] at hbusy
        exact absurd hbusy.1 hsome
  · exact current_modify h.current
  · rw [Scheduler.get?_modify_self, Option.isSome_map]
    exact hpresent

/-- A context that leaves the loop has its result. -/
theorem Tracks.result (hpc : s.pc id = .waiting callid) {c : Context}
    (hget : s.sched.get? id = some c) (hleave : c.status ≠ .blocked) :
    ∃ values, stage callid = .delivered values ∧ c.result = some values := by
  have hbusy := h.busy id c callid hget (by rw [hpc]; rfl)
  rw [hpc] at hbusy
  cases hst : stage callid with
  | delivered values =>
    rw [hst] at hbusy
    exact ⟨values, rfl, hbusy.1⟩
  | _ =>
    rw [hst] at hbusy
    exact absurd (hbusy.2 ⟨callid, rfl⟩) hleave

theorem Tracks.leave {values : List UInt8} (hpc : s.pc id = .waiting callid)
    (hstage : stage callid = .delivered values) : Tracks { s with
        sched := s.sched.modify id fun c => { c with result := none }
        pc := Function.update s.pc id .idle }
      (Function.update stage callid .finished) := by
  have hat : (s.pc id).callid = some callid := by rw [hpc]; rfl
  obtain ⟨hcall, -, hat', -⟩ := h.own hat
  refine Advance.tracks (.mk h hat' (.inr hcall) (.inl ⟨rfl, rfl⟩) rfl (eq_update hcall) (eq_update ?_)
    (h.requests_same ?_ ?_) (h.replies_same ?_ ?_) (h.delivering_same hat' ?_ ?_)
    ⟨fun _ _ => rfl, nofun⟩ (fun _ hid => Scheduler.get?_modify_of_ne hid) (fun c hget => ?_)
    (current_modify h.current) nofun)
  case refine_1 => exact h.queue_of_not_queued (by rw [hstage]; rfl)
  case refine_8 =>
    rw [Scheduler.get?_modify_self] at hget
    obtain ⟨c₀, hc₀, rfl⟩ := Option.map_eq_some_iff.mp hget
    exact ⟨h.awake id c₀ hc₀, fun _ => rfl, nofun⟩
  all_goals simp [hstage]

/-- A call that has begun has a context. -/
theorem Tracks.of_stage (hused : stage callid ≠ .unused) (hfin : stage callid ≠ .finished) :
    ∃ id, s.calls callid = some id ∧ (stage callid).PcOk callid (s.pc id) ∧
      (s.pc id).callid = some callid := by
  obtain ⟨id, hcall⟩ := Option.ne_none_iff_exists'.mp fun hnone => hused ((h.used callid).mp hnone)
  have hok := h.caller callid id hcall hfin
  exact ⟨id, hcall, hok, hok.callid⟩

theorem Tracks.answer (hmem : callid ∈ s.requests) (values : List UInt8) : Tracks { s with
        requests := s.requests.erase callid
        replies := s.replies ++ [(callid, values)]
        answers := Function.update s.answers callid (some values) }
      (Function.update stage callid (.answered values)) := by
  have hstage := (h.requests callid).mp hmem
  obtain ⟨id, hcall, hok, hat⟩ := h.of_stage (by rw [hstage]; simp) (by rw [hstage]; simp)
  obtain ⟨-, -, hat', hpresent⟩ := h.own hat
  rw [hstage] at hok
  have hnot : ∀ values', (callid, values') ∉ s.replies := by
    intro values'
    rw [h.replies, hstage]
    simp
  refine Advance.tracks (.mk h hat' (.inr hcall) (.inr hok) (eq_update rfl) (eq_update hcall) (eq_update ?_)
    ⟨h.requestsNodup.erase callid, ?_⟩ ⟨?_, ?_⟩ (h.delivering_same hat' ?_ ?_)
    ⟨fun _ hc => Function.update_of_ne hc _ _, ?_⟩ (fun _ _ => rfl)
    (fun c hget => ⟨h.awake id c hget, h.idle id c hget, fun _ => ?_⟩) h.current fun _ => hpresent)
  case refine_1 =>
    rw [h.queue, hstage, hcall]
    rfl
  case refine_2 =>
    intro callid'
    rw [h.requestsNodup.mem_erase_iff]
    split
    · next hc => simp [hc]
    · next hc => simp [hc]
  case refine_3 => exact List.nodup_append.mpr ⟨h.repliesNodup, List.nodup_singleton _, by
    rintro a ha b hb rfl
    exact hnot values (List.mem_singleton.mp hb ▸ ha)⟩
  case refine_4 =>
    intro callid' values'
    rw [List.mem_append, List.mem_singleton]
    split
    · next hc => simp [hc, hnot, eq_comm]
    · next hc => simp [hc]
  case refine_7 =>
    intro values' hvalues
    cases hvalues
    exact Function.update_self ..
  case refine_8 =>
    have hbusy := h.busy id c callid hget hat
    rw [hstage] at hbusy
    exact hbusy
  all_goals simp [hstage]

/-- The context of an answer is in the queue. -/
theorem Tracks.received {values : List UInt8} (hmem : (callid, values) ∈ s.replies) :
    ∃ id, s.queue callid = some id ∧ s.calls callid = some id := by
  have hstage := (h.replies callid values).mp hmem
  obtain ⟨id, hcall, -⟩ := h.of_stage (by rw [hstage]; simp) (by rw [hstage]; simp)
  refine ⟨id, ?_, hcall⟩
  rw [h.queue, hstage, hcall]
  rfl

theorem Tracks.receive {values : List UInt8} {replies : List (Nat × List UInt8)}
    (hdel : s.delivering = none) (hreplies : s.replies = (callid, values) :: replies)
    (hcall : s.calls callid = some id) : Tracks { s with
        queue := Function.update s.queue callid none
        replies
        delivering := some (id, values) }
      (Function.update stage callid (.taken values)) := by
  have hmem : (callid, values) ∈ s.replies := hreplies ▸ List.mem_cons_self
  have hstage := (h.replies callid values).mp hmem
  have hok := h.caller callid id hcall (by rw [hstage]; simp)
  have hat := hok.callid
  obtain ⟨-, -, hat', hpresent⟩ := h.own hat
  rw [hstage] at hok
  obtain ⟨hfresh, hnodup⟩ := List.nodup_cons.mp (hreplies ▸ h.repliesNodup)
  refine Advance.tracks (.mk h hat' (.inr hcall) (.inr hok) (eq_update rfl) (eq_update hcall) rfl
    (h.requests_same ?_ ?_) ⟨hnodup, ?_⟩ ?_ ⟨fun _ _ => rfl, ?_⟩ (fun _ _ => rfl)
    (fun c hget => ⟨h.awake id c hget, h.idle id c hget, fun _ => ?_⟩) h.current fun _ => hpresent)
  case refine_3 =>
    intro callid' values'
    rw [hreplies, List.mem_cons]
    split
    · next hc =>
      subst hc
      refine iff_of_false (fun hin => ?_) (by simp)
      have hstage' := (h.replies callid' values').mp (hreplies ▸ List.mem_cons_of_mem _ hin)
      cases hstage.symm.trans hstage'
      exact hfresh hin
    · next hc => simp [hc]
  case refine_4 =>
    intro id' values'
    rw [hdel]
    split
    · next hid => simp [hid]
    · next hid => simp [Ne.symm hid]
  case refine_5 =>
    intro values' hvalues
    cases hvalues
    exact h.answers callid values (by rw [hstage]; rfl)
  case refine_6 =>
    have hbusy := h.busy id c callid hget hat
    rw [hstage] at hbusy
    exact hbusy
  all_goals simp [hstage]

/-- The result is stored, and the context is not blocked any longer. -/
theorem Tracks.deliver {values : List UInt8} (hdel : s.delivering = some (id, values)) :
    ∃ callid, Tracks { s with
        sched := s.sched.modify id fun c => { c with result := some values }.unblock.2
        delivering := none }
      (Function.update stage callid (.delivered values)) := by
  obtain ⟨callid, hcall, hstage⟩ := (h.delivering id values).mp hdel
  have hok := h.caller callid id hcall (by rw [hstage]; simp)
  have hat := hok.callid
  obtain ⟨-, -, hat', hpresent⟩ := h.own hat
  rw [hstage] at hok
  refine ⟨callid, Advance.tracks (.mk h hat' (.inr hcall) (.inr hok) (eq_update rfl) (eq_update hcall)
    (eq_update ?_) (h.requests_same ?_ ?_) (h.replies_same ?_ ?_) ?_ ⟨fun _ _ => rfl, ?_⟩
    (fun _ hid => Scheduler.get?_modify_of_ne hid) (fun c hget => ?_) (current_modify h.current)
    fun _ => ?_)⟩
  case refine_1 => exact h.queue_of_not_queued (by rw [hstage]; rfl)
  case refine_6 =>
    intro id' values'
    rw [hdel]
    split
    · simp
    · next hid => simp [Ne.symm hid]
  case refine_7 =>
    intro values' hvalues
    cases hvalues
    exact h.answers callid values (by rw [hstage]; rfl)
  case refine_8 =>
    rw [Scheduler.get?_modify_self] at hget
    obtain ⟨c₀, hc₀, rfl⟩ := Option.map_eq_some_iff.mp hget
    refine ⟨?_, fun hidle => ?_, fun _ => ⟨?_, ?_⟩⟩
    · rw [Context.unblock]
      split
      · exact h.awake id c₀ hc₀
      · exact h.awake id c₀ hc₀
    · rw [hidle] at hat
      cases hat
    · rw [Context.unblock]
      split
      · rfl
      · rfl
    · rw [Context.unblock_status]
      split
      · simp
      · next hne => exact hne
  case refine_9 =>
    rw [Scheduler.get?_modify_self, Option.isSome_map]
    exact hpresent
  all_goals simp [hstage]

end Caller

/-- The contexts may change as long as who is blocked and the results do not. -/
theorem Tracks.contexts {sched : Scheduler} (h : s.Tracks stage)
    (hsame : ∀ id c', sched.get? id = some c' → c'.wake = none ∧
      ((∃ c, s.sched.get? id = some c ∧ c'.result = c.result ∧ (c'.status = .blocked ↔ c.status = .blocked)) ∨
        s.sched.get? id = none ∧ c'.result = none))
    (hkeep : ∀ id, (s.sched.get? id).isSome → (sched.get? id).isSome)
    (hcurrent : ∃ c, sched.get? sched.contextId = some c) : Tracks { s with sched } stage where
  used := h.used
  caller := h.caller
  owner := h.owner
  queue := h.queue
  requests := h.requests
  requestsNodup := h.requestsNodup
  replies := h.replies
  repliesNodup := h.repliesNodup
  delivering := h.delivering
  answers := h.answers
  idle := by
    intro id c' hget hidle
    rcases (hsame id c' hget).2 with ⟨c, hc, hresult, -⟩ | ⟨-, hresult⟩
    · rw [hresult]
      exact h.idle id c hc hidle
    · exact hresult
  busy := by
    intro id c' callid hget hat
    rcases (hsame id c' hget).2 with ⟨c, hc, hresult, hblocked⟩ | ⟨hnone, -⟩
    · have hbusy := h.busy id c callid hc hat
      show (stage callid).ContextOk (s.pc id) c'
      cases hst : stage callid with
      | delivered values =>
        rw [hst] at hbusy
        exact ⟨hresult.trans hbusy.1, fun hno => hbusy.2 (hblocked.mp hno)⟩
      | _ =>
        rw [hst] at hbusy
        exact ⟨hresult.trans hbusy.1, fun hwaiting => hblocked.mpr (hbusy.2 hwaiting)⟩
    · have hpresent := h.present id fun hidle => by
        rw [show s.pc id = .idle from hidle] at hat
        cases hat
      rw [hnone] at hpresent
      cases hpresent
  awake := fun id c' hget => (hsame id c' hget).1
  current := hcurrent
  present := fun id hne => hkeep id (h.present id hne)

theorem Tracks.switch {now : Nat × Nat} {r : Bool} {sched : Scheduler} (h : s.Tracks stage)
    (hs : s.sched.switch cpu now = .ok (r, sched)) : Tracks { s with sched } stage := by
  obtain ⟨c₀, hc₀⟩ := h.current
  refine h.contexts (fun id c' hget => ?_) (fun id hsome => Scheduler.isSome_switch hs id ▸ hsome)
    (Scheduler.current_switch hs hc₀)
  obtain ⟨c, hc, hcases⟩ := Scheduler.of_switch hs hget
  have hawake := h.awake id c hc
  rw [update_awake cpu now hawake] at hcases
  rcases hcases with ⟨rfl, -⟩ | ⟨rfl, hrunnable, -⟩ | ⟨rfl, -⟩
  · exact ⟨hawake, .inl ⟨c, hc, rfl, Iff.rfl⟩⟩
  · have hready := (Bool.and_eq_true_iff.mp hrunnable).1
    refine ⟨hawake, .inl ⟨c, hc, rfl, iff_of_false (by simp) fun hblocked => ?_⟩⟩
    simp [hblocked] at hready
  · rw [preempt]
    split
    · next hrunning =>
      refine ⟨hawake, .inl ⟨c, hc, rfl, iff_of_false (by simp) fun hblocked => ?_⟩⟩
      cases hblocked.symm.trans hrunning
    · exact ⟨hawake, .inl ⟨c, hc, rfl, Iff.rfl⟩⟩

theorem Tracks.cast (h : s.Tracks stage) : Tracks { s with sched.contexts :=
      (s.sched.contexts.insert { Context.new with status := .new }).2 } stage := by
  obtain ⟨c₀, hc₀⟩ := h.current
  refine h.contexts (fun id c' hc' => ?_) (fun id hsome => ?_) ⟨c₀, ContextList.inserted_old _ hc₀⟩
  · rcases ContextList.inserted_cases hc' with ⟨hnone, rfl⟩ | hc
    · exact ⟨rfl, .inr ⟨hnone, rfl⟩⟩
    · exact ⟨h.awake id c' hc, .inl ⟨c', hc, rfl, Iff.rfl⟩⟩
  · obtain ⟨c, hc⟩ := Option.isSome_iff_exists.mp hsome
    exact Option.isSome_iff_exists.mpr ⟨c, ContextList.inserted_old _ hc⟩

end Moves

/-! ### Steps and runs -/

section Runs

variable {cpu : Nat} {s s' : HostCalls} {stage : Nat → Stage}

/-- **A move takes a call to its next stage**, and the kernel does not panic. -/
theorem Tracks.step (h : s.Tracks stage) (a : HostMove) : s.perform cpu a = none ∨
    ∃ s' stage', s.perform cpu a = some (.ok s') ∧ s'.Tracks stage' := by
  cases a with
  | switch now =>
    obtain ⟨c, hc⟩ := h.current
    obtain ⟨r, sched, hs⟩ := @Scheduler.switch_ok cpu now _ c hc
    exact .inr ⟨_, _, by rw [perform, hs]; rfl, h.switch hs⟩
  | cast => exact .inr ⟨_, _, rfl, h.cast⟩
  | call id =>
    rw [perform]
    split
    · next hguard => exact .inr ⟨_, _, rfl, h.call hguard.1 hguard.2.1 hguard.2.2⟩
    · exact .inl rfl
  | register id =>
    rw [perform]
    split
    · next callid hpc => exact .inr ⟨_, _, rfl, h.register hpc⟩
    · exact .inl rfl
  | send id =>
    rw [perform]
    split
    · next callid hpc => exact .inr ⟨_, _, rfl, h.send hpc⟩
    · exact .inl rfl
  | check id =>
    rw [perform]
    split
    · next callid hpc => exact .inr ⟨_, _, rfl, h.check hpc⟩
    · exact .inl rfl
  | leave id =>
    rw [perform]
    split
    · next callid c hpc hget =>
      split
      · exact .inl rfl
      · next hleave =>
        obtain ⟨values, hstage, hresult⟩ := h.result hpc hget hleave
        rw [if_neg (by rw [hresult]; simp)]
        exact .inr ⟨_, _, rfl, h.leave hpc hstage⟩
    · exact .inl rfl
  | answer callid values =>
    rw [perform]
    split
    · next hmem => exact .inr ⟨_, _, rfl, h.answer hmem values⟩
    · exact .inl rfl
  | receive =>
    rw [perform]
    split
    · next callid values replies hdel hreplies =>
      obtain ⟨id, hqueue, hcall⟩ := h.received (hreplies ▸ List.mem_cons_self)
      rw [hqueue]
      exact .inr ⟨_, _, rfl, h.receive hdel hreplies hcall⟩
    · exact .inl rfl
  | deliver =>
    rw [perform]
    split
    · next id values hdel =>
      obtain ⟨callid, h'⟩ := h.deliver hdel
      exact .inr ⟨_, _, rfl, h'⟩
    · exact .inl rfl

theorem tracks_boot (cpu : Nat) : (boot cpu).Tracks fun _ => .unused := by
  constructor
  case used => exact fun _ => iff_of_true rfl rfl
  case caller => nofun
  case owner => nofun
  case queue => exact fun _ => rfl
  case requests => simp [boot]
  case requestsNodup => exact .nil
  case replies => simp [boot]
  case repliesNodup => exact .nil
  case delivering => simp [boot]
  case answers => nofun
  case idle =>
    intro id c hc _
    rw [(Scheduler.of_get?_boot hc).2]
    rfl
  case busy => nofun
  case awake =>
    intro id c hc
    rw [(Scheduler.of_get?_boot hc).2]
    rfl
  case current => exact ⟨_, rfl⟩
  case present => exact fun _ hne => absurd rfl hne

/-- **No wake-up is lost.** In every state of every run no context that makes a call is
blocked while its result is there, a context that leaves the loop has the answer to its
own call, and the kernel does not panic. -/
theorem no_lost_wakeup (run : ReflTransGen (Step cpu) (boot cpu) s) :
    (∀ id callid c, (s.pc id).callid = some callid → s.sched.get? id = some c →
      c.status = .blocked → c.result = none) ∧
    (∀ id callid c, s.pc id = .waiting callid → s.sched.get? id = some c → c.status ≠ .blocked →
      ∃ values, c.result = some values ∧ s.calls callid = some id ∧
        s.answers callid = some values) ∧
    ∀ a halt, s.perform cpu a ≠ some (.error halt) := by
  obtain ⟨stage, h⟩ := invariant_of_step (fun s => ∃ stage, s.Tracks stage) run ⟨_, tracks_boot cpu⟩ (by
    rintro s s' ⟨stage, h⟩ ⟨a, hperform⟩
    rcases @Tracks.step cpu _ _ h a with hnone | ⟨s'', stage', hok, h'⟩
    · cases hnone.symm.trans hperform
    · cases hok.symm.trans hperform
      exact ⟨stage', h'⟩)
  refine ⟨fun id callid c hat hget hblocked => ?_, fun id callid c hpc hget hleave => ?_,
    fun a halt herror => ?_⟩
  · have hbusy := h.busy id c callid hget hat
    cases hst : stage callid with
    | delivered values =>
      rw [hst] at hbusy
      exact absurd hblocked hbusy.2
    | _ =>
      rw [hst] at hbusy
      exact hbusy.1
  · obtain ⟨values, hstage, hresult⟩ := h.result hpc hget hleave
    obtain ⟨hcall, -⟩ := h.owner id callid (by rw [hpc]; rfl)
    exact ⟨values, hresult, hcall, h.answers callid values (by rw [hstage]; rfl)⟩
  · rcases @Tracks.step cpu _ _ h a with hnone | ⟨s', stage', hok, -⟩
    · cases hnone.symm.trans herror
    · cases hok.symm.trans herror

end Runs

/-- A run of moves. -/
def runMoves (cpu : Nat) (s : HostCalls) (moves : List HostMove) : Option HostCalls :=
  moves.foldlM (fun s a => (s.perform cpu a).bind Except.toOption) s

theorem reaches_of_runMoves {cpu : Nat} {s s' : HostCalls} {moves : List HostMove}
    (h : runMoves cpu s moves = some s') : ReflTransGen (Step cpu) s s' := by
  refine reaches_of_foldlM (fun a _ x y hact => ?_) h
  obtain ⟨r, hr, hy⟩ := Option.bind_eq_some_iff.mp hact
  cases r with
  | error halt => cases hy
  | ok z =>
    cases hy
    exact ⟨a, hr⟩

/-- Two contexts call, and the answers come in the other order: the first caller has
blocked by then, and leaves the loop with its own. -/
theorem two_calls_answered : ∃ s, ReflTransGen (Step 0) (boot 0) s ∧ s.pc 1 = .waiting 0 ∧
    ∃ c, s.sched.get? 1 = some c ∧ c.status = .runnable ∧ ∃ values, c.result = some values ∧
      s.calls 0 = some 1 ∧ s.answers 0 = some values := by
  have hrun : (runMoves 0 (boot 0) [.cast, .call 1, .register 1, .send 1, .check 1, .switch (0, 0),
      .call 2, .register 2, .send 2, .answer 1 [8], .receive, .deliver, .check 2, .answer 0 [7],
      .receive, .deliver]).map (fun s => (s.pc 1, (s.sched.get? 1).map Context.status)) =
      some (.waiting 0, some .runnable) := by decide +kernel
  obtain ⟨s, hs, hview⟩ := Option.map_eq_some_iff.mp hrun
  obtain ⟨hpc, hstatus⟩ := Prod.mk.inj hview
  obtain ⟨c, hc, hrunnable⟩ := Option.map_eq_some_iff.mp hstatus
  have hreach := reaches_of_runMoves hs
  exact ⟨s, hreach, hpc, c, hc, hrunnable,
    (no_lost_wakeup hreach).2.1 1 0 c hpc hc (by rw [hrunnable]; simp)⟩

end HostCalls

end Faastr.Sched
