import Faastr.Ivshrpc.Rpc
import Mathlib.Data.List.Nodup
import Mathlib.Data.List.Perm.Basic

/-!
One direction of the RPC, as it is meant to go: the calls of one party, with their
requests and replies under way.

Here a fuse is answered once, with the outcome of its own request and under its own
number, and only when its call is waiting; a cast is not answered. Every step of
`Exchange.Step` keeps `Exchange.Inv`: what is under way for a call is one message
or one job, and a reply finds its call in the queue.
-/

namespace Faastr.Ivshrpc.Rpc

open Faastr.Lib

/-- The calls of one party, with the requests and replies under way for them. -/
structure Exchange where
  calls : List Call
  queue : List (UInt64 × Nat)
  requests : List Packet
  jobs : List Job
  replies : List Packet

/-- A fresh call. -/
def Call.begin (fuse : Bool) (args : List UInt8) : Call :=
  { fuse, args, stage := .begun, outcome := none }

/-- The call is in the queue. -/
def Call.Queued (c : Call) : Prop := c.stage = .registered ∨ c.stage = .waiting

/-- The request of the call is under way, or may be. -/
def Call.Open (c : Call) : Prop := c.fuse = true ∧ (c.stage = .sent ∨ c.stage = .waiting)

def Packet.IsFuse (packet : Packet) : Prop := packet.msg.msgtype = .fuse

instance : DecidablePred Packet.IsFuse := fun _ => inferInstanceAs (Decidable (_ = _))

def Packet.job (packet : Packet) : Job :=
  { fuse := decide packet.IsFuse, callid := packet.msg.callid, args := packet.msg.payload
    origin := packet.origin }

/-- The reply to the call with this number. -/
def replyPacket (i : Nat) (o : Outcome) : Packet :=
  { msg := { msgtype := replyType o, callid := callid i, payload := replyValues o }, origin := i }

namespace Exchange

/-- The steps of the exchange whose calls `side` makes. -/
inductive Step (side : Side) (d : Exchange) : Exchange → Prop
  | call (fuse : Bool) (args : List UInt8) (hroom : d.calls.length < 2 ^ 64) :
      Step side d { d with calls := d.calls ++ [.begin fuse args] }
  | send (i : Nat) (c : Call) (stage : CallStage) (hc : d.calls[i]? = some c)
      (hstage : sendStage side c = some stage) :
      Step side d { d with
        calls := d.calls.set i { c with stage }
        requests := d.requests ++ [{ msg := requestMsg i c, origin := i }] }
  | register (i : Nat) (c : Call) (stage : CallStage) (hc : d.calls[i]? = some c)
      (hstage : registerStage side c = some stage) :
      Step side d { d with
        calls := d.calls.set i { c with stage }, queue := (callid i, i) :: d.queue }
  | take (packet : Packet) (rest : List Packet) (hnext : d.requests = packet :: rest) :
      Step side d { d with requests := rest, jobs := d.jobs ++ [packet.job] }
  /-- A cast is served at once. -/
  | drop (packet : Packet) (rest : List Packet) (hnext : d.requests = packet :: rest) :
      Step side d { d with requests := rest }
  /-- A job is finished without a reply. -/
  | finish (j : Nat) : Step side d { d with jobs := d.jobs.eraseIdx j }
  | answer (j : Nat) (job : Job) (c : Call) (o : Outcome) (hjob : d.jobs[j]? = some job)
      (hfuse : job.fuse = true) (hc : d.calls[job.origin]? = some c) (hwait : c.stage = .waiting) :
      Step side d { d with
        jobs := d.jobs.eraseIdx j
        calls := d.calls.set job.origin { c with outcome := some o }
        replies := d.replies ++ [replyPacket job.origin o] }
  | deliver (packet : Packet) (rest : List Packet) (i : Nat) (c : Call)
      (hnext : d.replies = packet :: rest) (hi : d.queue.lookup packet.msg.callid = some i)
      (hc : d.calls[i]? = some c) :
      Step side d { d with
        replies := rest
        queue := d.queue.filter fun entry => entry.1 != packet.msg.callid
        calls := d.calls.set i { c with stage := .done packet.msg.msgtype packet.msg.payload } }

/-! ### The invariant -/

/-- The calls for which something is under way. -/
def inFlight (d : Exchange) : List Nat :=
  (d.requests.filter fun p => decide p.IsFuse).map Packet.origin ++
    ((d.jobs.filter Job.fuse).map Job.origin ++ d.replies.map Packet.origin)

/-- The call `i` has these arguments. -/
def ArgsAt (calls : List Call) (i : Nat) (args : List UInt8) : Prop :=
  ∃ c, calls[i]? = some c ∧ c.args = args

/-- What is under way is under way once, for calls that are open; requests and jobs
are those of their calls; replies and queued calls find each other. -/
structure Inv (d : Exchange) : Prop where
  bound : d.calls.length ≤ 2 ^ 64
  nodup : d.inFlight.Nodup
  opened : ∀ i ∈ d.inFlight, ∃ c, d.calls[i]? = some c ∧ c.Open
  requests : ∀ p ∈ d.requests, p.msg.callid = callid p.origin ∧
    ArgsAt d.calls p.origin p.msg.payload
  jobs : ∀ j ∈ d.jobs, j.callid = callid j.origin ∧ ArgsAt d.calls j.origin j.args
  replies : ∀ p ∈ d.replies, ∃ o, p = replyPacket p.origin o ∧
    ∃ c, d.calls[p.origin]? = some c ∧ c.stage = .waiting ∧ c.outcome = some o
  queued : ∀ k i, d.queue.lookup k = some i → k = callid i ∧ ∃ c, d.calls[i]? = some c ∧ c.Queued
  known : ∀ i c, d.calls[i]? = some c → c.Queued → d.queue.lookup (callid i) = some i
  answered : ∀ c ∈ d.calls, c.Answered

variable {side : Side} {d d' : Exchange} {i : Nat} {c : Call}

theorem inv_empty : Inv ⟨[], [], [], [], []⟩ where
  bound := Nat.zero_le _
  nodup := List.nodup_nil
  opened := nofun
  requests := nofun
  jobs := nofun
  replies := nofun
  queued := nofun
  known := nofun
  answered := nofun

theorem callid_inj {i j : Nat} (hi : i < 2 ^ 64) (hj : j < 2 ^ 64) (h : callid i = callid j) :
    i = j := by
  have h' := congrArg UInt64.toNat h
  rwa [callid, callid, UInt64.toNat_ofNat', UInt64.toNat_ofNat', Nat.mod_eq_of_lt hi,
    Nat.mod_eq_of_lt hj] at h'

theorem Inv.lt_bound (h : d.Inv) (hc : d.calls[i]? = some c) : i < 2 ^ 64 :=
  Nat.lt_of_lt_of_le (List.getElem?_eq_some_iff.mp hc).1 h.bound

/-- Another entry than the one that was set. -/
theorem getElem?_set_other {calls : List Call} {c' : Call} {j : Nat} (hne : j ≠ i)
    (hc : calls[j]? = some c) : (calls.set i c')[j]? = some c := by
  rw [List.getElem?_set_ne (Ne.symm hne), hc]

theorem getElem?_set_here {calls : List Call} (hc : calls[i]? = some c) (c' : Call) :
    (calls.set i c')[i]? = some c' :=
  List.getElem?_set_self (List.getElem?_eq_some_iff.mp hc).1

/-- An entry of a list in which one was set. -/
theorem of_getElem?_set {calls : List Call} {c' x : Call} {j : Nat} (hc : calls[i]? = some c)
    (h : (calls.set i c')[j]? = some x) : j = i ∧ x = c' ∨ j ≠ i ∧ calls[j]? = some x := by
  by_cases hj : j = i
  · subst hj
    rw [getElem?_set_here hc] at h
    cases h
    exact .inl ⟨rfl, rfl⟩
  · rw [List.getElem?_set_ne (Ne.symm hj)] at h
    exact .inr ⟨hj, h⟩

theorem ArgsAt.set {calls : List Call} {c' : Call} {j : Nat} {args : List UInt8}
    (h : ArgsAt calls j args) (hc : calls[i]? = some c) (hargs : c'.args = c.args) :
    ArgsAt (calls.set i c') j args := by
  obtain ⟨x, hx, rfl⟩ := h
  by_cases hj : j = i
  · subst hj
    rw [hc] at hx
    cases hx
    exact ⟨c', getElem?_set_here hc c', hargs⟩
  · exact ⟨x, getElem?_set_other hj hx, rfl⟩

theorem ArgsAt.append {calls more : List Call} {j : Nat} {args : List UInt8}
    (h : ArgsAt calls j args) : ArgsAt (calls ++ more) j args := by
  obtain ⟨x, hx, hargs⟩ := h
  exact ⟨x, List.getElem?_append_left (List.getElem?_eq_some_iff.mp hx).1 ▸ hx, hargs⟩

/-- The queue without a number finds the other numbers. -/
theorem lookup_filter (k k' : UInt64) : ∀ queue : List (UInt64 × Nat),
    (queue.filter fun entry => entry.1 != k').lookup k = if k = k' then none else queue.lookup k
  | [] => by simp
  | (key, i) :: queue => by
      have ih := lookup_filter k k' queue
      by_cases hkey : key = k'
      · subst hkey
        rw [List.filter_cons_of_neg (by simp), ih, List.lookup_cons]
        split
        · rfl
        · next hne => rw [beq_false_of_ne hne]
      · rw [List.filter_cons_of_pos (by simpa using hkey), List.lookup_cons, List.lookup_cons, ih]
        split
        · next hk => rw [if_neg (eq_of_beq hk ▸ hkey)]
        · rfl

/-! ### Calling -/

theorem inv_call (h : d.Inv) (fuse : Bool) (args : List UInt8) (hroom : d.calls.length < 2 ^ 64) :
    Inv { d with calls := d.calls ++ [.begin fuse args] } := by
  have hkeep : ∀ {j : Nat} {x : Call}, d.calls[j]? = some x →
      (d.calls ++ [.begin fuse args])[j]? = some x := fun hx =>
    (List.getElem?_append_left (List.getElem?_eq_some_iff.mp hx).1).trans hx
  have hsplit : ∀ {j : Nat} {x : Call}, (d.calls ++ [.begin fuse args])[j]? = some x →
      d.calls[j]? = some x ∨ x = .begin fuse args := by
    intro j x hx
    rcases Nat.lt_or_ge j d.calls.length with hlt | hge
    · rw [List.getElem?_append_left hlt] at hx
      exact .inl hx
    · rw [List.getElem?_append_right hge] at hx
      exact .inr (List.mem_singleton.mp (List.mem_of_getElem? hx))
  exact {
    bound := by rw [List.length_append]; exact hroom
    nodup := h.nodup
    opened := by
      intro i hi
      obtain ⟨c, hc, hopen⟩ := h.opened i hi
      exact ⟨c, hkeep hc, hopen⟩
    requests := fun p hp => ⟨(h.requests p hp).1, (h.requests p hp).2.append⟩
    jobs := fun j hj => ⟨(h.jobs j hj).1, (h.jobs j hj).2.append⟩
    replies := by
      intro p hp
      obtain ⟨o, hpkt, c, hc, hrest⟩ := h.replies p hp
      exact ⟨o, hpkt, c, hkeep hc, hrest⟩
    queued := by
      intro k i hk
      obtain ⟨hid, c, hc, hq⟩ := h.queued k i hk
      exact ⟨hid, c, hkeep hc, hq⟩
    known := by
      intro i c hc hq
      rcases hsplit hc with hold | rfl
      · exact h.known i c hold hq
      · rcases hq with hq | hq <;> cases hq
    answered := by
      intro c hc
      rcases List.mem_append.mp hc with hold | hnew
      · exact h.answered c hold
      · rw [List.mem_singleton.mp hnew]
        intro t v hdone
        cases hdone }

theorem not_open (hsent : c.stage ≠ .sent) (hwait : c.stage ≠ .waiting) : ¬ c.Open :=
  fun h => h.2.elim hsent hwait

theorem not_queued (hreg : c.stage ≠ .registered) (hwait : c.stage ≠ .waiting) : ¬ c.Queued :=
  fun h => h.elim hreg hwait

theorem answered_of_ne (h : ∀ t v, c.stage ≠ .done t v) : c.Answered :=
  fun t v hdone => absurd hdone (h t v)

/-- Sending opens a fuse call, and leaves the queue as it is. -/
theorem sendStage_spec {stage : CallStage} (h : sendStage side c = some stage) :
    ¬ c.Open ∧ (c.fuse = true → { c with stage }.Open) ∧
      ({ c with stage }.Queued ↔ c.Queued) ∧ { c with stage }.Answered := by
  obtain ⟨fuse, args, before, outcome⟩ := c
  cases fuse with
  | false =>
    cases before with
    | begun =>
      cases h
      exact ⟨not_open nofun nofun, nofun,
        iff_of_false (not_queued nofun nofun) (not_queued nofun nofun), answered_of_ne nofun⟩
    | _ => cases h
  | true =>
    cases side with
    | host =>
      cases before with
      | begun =>
        cases h
        exact ⟨not_open nofun nofun, fun _ => ⟨rfl, .inl rfl⟩,
          iff_of_false (not_queued nofun nofun) (not_queued nofun nofun), answered_of_ne nofun⟩
      | _ => cases h
    | kernel =>
      cases before with
      | registered =>
        cases h
        exact ⟨not_open nofun nofun, fun _ => ⟨rfl, .inr rfl⟩,
          iff_of_true (.inr rfl) (.inl rfl), answered_of_ne nofun⟩
      | _ => cases h

/-- Registering puts a call into the queue, and does not close it. -/
theorem registerStage_spec {stage : CallStage} (h : registerStage side c = some stage) :
    ¬ c.Queued ∧ { c with stage }.Queued ∧ (c.Open → { c with stage }.Open) ∧
      { c with stage }.Answered := by
  obtain ⟨fuse, args, before, outcome⟩ := c
  cases fuse with
  | false => cases h
  | true =>
    cases side with
    | host =>
      cases before with
      | sent =>
        cases h
        exact ⟨not_queued nofun nofun, .inr rfl, fun _ => ⟨rfl, .inr rfl⟩, answered_of_ne nofun⟩
      | _ => cases h
    | kernel =>
      cases before with
      | begun =>
        cases h
        exact ⟨not_queued nofun nofun, .inl rfl,
          fun hopen => absurd hopen (not_open nofun nofun), answered_of_ne nofun⟩
      | _ => cases h

/-- A call for which something is under way is open. -/
theorem Inv.open_of_mem (h : d.Inv) (hc : d.calls[i]? = some c) (hi : i ∈ d.inFlight) :
    c.Open := by
  obtain ⟨x, hx, hopen⟩ := h.opened i hi
  rw [hc] at hx
  cases hx
  exact hopen

/-- Its number finds a call in the queue when the call is there, and no other call. -/
theorem Inv.lookup_iff (h : d.Inv) (hc : d.calls[i]? = some c) (j : Nat) :
    d.queue.lookup (callid i) = some j ↔ j = i ∧ c.Queued := by
  constructor
  · intro hj
    obtain ⟨hid, x, hx, hq⟩ := h.queued _ j hj
    cases callid_inj (h.lt_bound hc) (h.lt_bound hx) hid
    rw [hc] at hx
    cases hx
    exact ⟨rfl, hq⟩
  · rintro ⟨rfl, hq⟩
    exact h.known j c hc hq

/-- **Setting one call** asks about that call only: what is under way for it, and
whether the queue finds it. -/
theorem Inv.set_call (h : d.Inv) (hc : d.calls[i]? = some c) {c' : Call} (hargs : c'.args = c.args)
    (hans : c'.Answered) {queue : List (UInt64 × Nat)} {requests : List Packet} {jobs : List Job}
    {replies : List Packet} (hnodup : (inFlight ⟨d.calls, queue, requests, jobs, replies⟩).Nodup)
    (hflight : ∀ j ∈ inFlight ⟨d.calls, queue, requests, jobs, replies⟩,
      j = i ∧ c'.Open ∨ j ≠ i ∧ j ∈ d.inFlight)
    (hrequests : ∀ p ∈ requests, p ∈ d.requests ∨ p = ⟨requestMsg i c, i⟩)
    (hjobs : ∀ j ∈ jobs, j ∈ d.jobs)
    (hreplies : ∀ p ∈ replies, p.origin ≠ i ∧ p ∈ d.replies ∨
      ∃ o, p = replyPacket i o ∧ c'.stage = .waiting ∧ c'.outcome = some o)
    (hqueue : ∀ k, k ≠ callid i → queue.lookup k = d.queue.lookup k)
    (hself : ∀ j, queue.lookup (callid i) = some j ↔ j = i ∧ c'.Queued) :
    Inv ⟨d.calls.set i c', queue, requests, jobs, replies⟩ where
  bound := by rw [List.length_set]; exact h.bound
  nodup := hnodup
  opened := by
    intro j hj
    rcases hflight j hj with ⟨rfl, hopen⟩ | ⟨hne, hj⟩
    · exact ⟨c', getElem?_set_here hc c', hopen⟩
    · obtain ⟨x, hx, hopen⟩ := h.opened j hj
      exact ⟨x, getElem?_set_other hne hx, hopen⟩
  requests := by
    intro p hp
    rcases hrequests p hp with hp | rfl
    · exact ⟨(h.requests p hp).1, (h.requests p hp).2.set hc hargs⟩
    · exact ⟨rfl, c', getElem?_set_here hc c', hargs⟩
  jobs := fun j hj => ⟨(h.jobs j (hjobs j hj)).1, (h.jobs j (hjobs j hj)).2.set hc hargs⟩
  replies := by
    intro p hp
    rcases hreplies p hp with ⟨hne, hp⟩ | ⟨o, rfl, hwait, hout⟩
    · obtain ⟨o, hpkt, x, hx, hrest⟩ := h.replies p hp
      exact ⟨o, hpkt, x, getElem?_set_other hne hx, hrest⟩
    · exact ⟨o, rfl, c', getElem?_set_here hc c', hwait, hout⟩
  queued := by
    intro k j hk
    by_cases hki : k = callid i
    · subst hki
      obtain ⟨rfl, hq⟩ := (hself j).mp hk
      exact ⟨rfl, c', getElem?_set_here hc c', hq⟩
    · obtain ⟨hid, x, hx, hq⟩ := h.queued k j (hqueue k hki ▸ hk)
      exact ⟨hid, x, getElem?_set_other (fun hj => hki (hj ▸ hid)) hx, hq⟩
  known := by
    intro j x hx hq
    rcases of_getElem?_set hc hx with ⟨rfl, rfl⟩ | ⟨hj, hx⟩
    · exact (hself j).mpr ⟨rfl, hq⟩
    · rw [hqueue _ fun heq => hj (callid_inj (h.lt_bound hx) (h.lt_bound hc) heq)]
      exact h.known j x hx hq
  answered := by
    intro x hx
    rcases List.mem_or_eq_of_mem_set hx with hx | rfl
    · exact h.answered x hx
    · exact hans

theorem mem_inFlight_of_reply {p : Packet} (hp : p ∈ d.replies) : p.origin ∈ d.inFlight :=
  List.mem_append_right _ (List.mem_append_right _ (List.mem_map_of_mem hp))

theorem inFlight_send (d : Exchange) (i : Nat) (c : Call) (calls : List Call) :
    (inFlight { d with calls, requests := d.requests ++ [⟨requestMsg i c, i⟩] }).Perm
      (if c.fuse then i :: d.inFlight else d.inFlight) := by
  unfold inFlight
  cases hfuse : c.fuse with
  | true =>
    have hone : ([⟨requestMsg i c, i⟩] : List Packet).filter (fun p => decide p.IsFuse) =
        [⟨requestMsg i c, i⟩] := by simp [Packet.IsFuse, requestMsg, hfuse]
    simp only [List.filter_append, hone, List.map_append, List.map_cons, List.map_nil,
      List.append_assoc, List.singleton_append, if_true]
    exact List.perm_middle
  | false =>
    have hno : ¬ Packet.IsFuse ⟨requestMsg i c, i⟩ := by simp [Packet.IsFuse, requestMsg, hfuse]
    simp [List.filter_append, hno]

theorem inv_send (h : d.Inv) {stage : CallStage} (hc : d.calls[i]? = some c)
    (hstage : sendStage side c = some stage) :
    Inv { d with
      calls := d.calls.set i { c with stage }
      requests := d.requests ++ [{ msg := requestMsg i c, origin := i }] } := by
  obtain ⟨hclosed, hopens, hqueue, hans⟩ := sendStage_spec hstage
  have hout : i ∉ d.inFlight := fun hi => hclosed (h.open_of_mem hc hi)
  have hperm := inFlight_send d i c d.calls
  have hold : ∀ j ∈ d.inFlight, j ≠ i ∧ j ∈ d.inFlight := fun j hj => ⟨fun heq => hout (heq ▸ hj), hj⟩
  refine h.set_call hc (by rfl) hans ?_ ?_ ?_ (fun _ hj => hj) ?_ (fun _ _ => rfl) fun j => ?_
  · refine hperm.nodup_iff.mpr ?_
    split
    · exact List.nodup_cons.mpr ⟨hout, h.nodup⟩
    · exact h.nodup
  · intro j hj
    have hj' := hperm.mem_iff.mp hj
    split at hj'
    next hfuse =>
      rcases List.mem_cons.mp hj' with rfl | hj'
      · exact .inl ⟨rfl, hopens hfuse⟩
      · exact .inr (hold j hj')
    next => exact .inr (hold j hj')
  · intro p hp
    exact (List.mem_append.mp hp).imp_right List.mem_singleton.mp
  · intro p hp
    exact .inl ⟨(hold _ (mem_inFlight_of_reply hp)).1, hp⟩
  · rw [hqueue]
    exact h.lookup_iff hc j

theorem inv_register (h : d.Inv) {stage : CallStage} (hc : d.calls[i]? = some c)
    (hstage : registerStage side c = some stage) :
    Inv { d with
      calls := d.calls.set i { c with stage }, queue := (callid i, i) :: d.queue } := by
  obtain ⟨hfresh, hqueued, hopens, hans⟩ := registerStage_spec hstage
  refine h.set_call hc (by rfl) hans h.nodup ?_ (fun _ => .inl) (fun _ hj => hj) ?_ ?_ ?_
  · intro j hj
    by_cases hji : j = i
    · subst hji
      exact .inl ⟨rfl, hopens (h.open_of_mem hc hj)⟩
    · exact .inr ⟨hji, hj⟩
  · intro p hp
    refine .inl ⟨?_, hp⟩
    rintro rfl
    obtain ⟨-, -, x, hx, hwait, -⟩ := h.replies p hp
    rw [hc] at hx
    cases hx
    exact hfresh (.inr hwait)
  · intro k hk
    rw [List.lookup_cons, beq_false_of_ne hk]
  · intro j
    rw [List.lookup_cons, beq_self_eq_true]
    exact ⟨fun hj => ⟨(Option.some.inj hj).symm, hqueued⟩, fun hj => congrArg some hj.1.symm⟩

/-! ### Serving -/

/-- Requests become jobs, or go. -/
theorem Inv.serving (h : d.Inv) {requests : List Packet} {jobs : List Job}
    (hnodup : (inFlight { d with requests, jobs }).Nodup)
    (hsub : ∀ i ∈ inFlight { d with requests, jobs }, i ∈ d.inFlight)
    (hreq : ∀ p ∈ requests, p ∈ d.requests)
    (hjobs : ∀ j ∈ jobs, j ∈ d.jobs ∨ ∃ p ∈ d.requests, j = p.job) :
    Inv { d with requests, jobs } where
  bound := h.bound
  nodup := hnodup
  opened := fun i hi => h.opened i (hsub i hi)
  requests := fun p hp => h.requests p (hreq p hp)
  jobs := by
    intro j hj
    rcases hjobs j hj with hj | ⟨p, hp, rfl⟩
    · exact h.jobs j hj
    · exact h.requests p hp
  replies := h.replies
  queued := h.queued
  known := h.known
  answered := h.answered

theorem inv_take (h : d.Inv) {packet : Packet} {rest : List Packet}
    (hnext : d.requests = packet :: rest) :
    Inv { d with requests := rest, jobs := d.jobs ++ [packet.job] } := by
  have hperm : (inFlight { d with requests := rest, jobs := d.jobs ++ [packet.job] }).Perm
      d.inFlight := by
    unfold inFlight
    by_cases hfuse : packet.IsFuse
    · have hone : [packet.job].filter Job.fuse = [packet.job] := by simp [Packet.job, hfuse]
      have hhead : (packet :: rest).filter (fun p => decide p.IsFuse) =
          packet :: rest.filter fun p => decide p.IsFuse := by simp [hfuse]
      simp only [hnext, List.filter_append, hone, hhead, List.map_append, List.map_cons,
        List.map_nil, List.append_assoc, List.cons_append, List.nil_append]
      rw [← List.append_assoc, ← List.append_assoc (List.map Packet.origin _)]
      exact List.perm_middle
    · have hnone : [packet.job].filter Job.fuse = [] := by simp [Packet.job, hfuse]
      have hhead : (packet :: rest).filter (fun p => decide p.IsFuse) =
          rest.filter fun p => decide p.IsFuse := by simp [hfuse]
      simp only [hnext, List.filter_append, hnone, hhead, List.append_nil]
      exact List.Perm.refl _
  refine h.serving (hperm.nodup_iff.mpr h.nodup) (fun i hi => hperm.mem_iff.mp hi) ?_ ?_
  · intro p hp
    rw [hnext]
    exact List.mem_cons_of_mem _ hp
  · intro j hj
    rcases List.mem_append.mp hj with hj | hj
    · exact .inl hj
    · rw [hnext]
      exact .inr ⟨packet, List.mem_cons_self .., List.mem_singleton.mp hj⟩

theorem inv_drop (h : d.Inv) {packet : Packet} {rest : List Packet}
    (hnext : d.requests = packet :: rest) : Inv { d with requests := rest } := by
  have hsub : (inFlight { d with requests := rest }).Sublist d.inFlight := by
    unfold inFlight
    rw [hnext]
    exact (((List.sublist_cons_self _ _).filter _).map _).append_right _
  refine h.serving (h.nodup.sublist hsub) (fun i hi => hsub.subset hi) ?_ fun j hj => .inl hj
  intro p hp
  rw [hnext]
  exact List.mem_cons_of_mem _ hp

theorem inv_finish (h : d.Inv) (j : Nat) : Inv { d with jobs := d.jobs.eraseIdx j } := by
  have herase : (d.jobs.eraseIdx j).Sublist d.jobs := List.eraseIdx_sublist _ _
  have hsub : (inFlight { d with jobs := d.jobs.eraseIdx j }).Sublist d.inFlight :=
    (((herase.filter _).map _).append_right _).append_left _
  exact h.serving (h.nodup.sublist hsub) (fun i hi => hsub.subset hi) (fun p hp => hp)
    fun x hx => .inl (herase.subset hx)

/-- A job that is answered becomes a reply. -/
theorem inFlight_answer {j : Nat} {job : Job} (hjob : d.jobs[j]? = some job)
    (hfuse : job.fuse = true) (calls : List Call) (o : Outcome) :
    (inFlight { d with
      jobs := d.jobs.eraseIdx j, calls, replies := d.replies ++ [replyPacket job.origin o] }).Perm
      d.inFlight := by
  obtain ⟨hlt, hget⟩ := List.getElem?_eq_some_iff.mp hjob
  have hjobs : (job :: d.jobs.eraseIdx j).Perm d.jobs := hget ▸ List.getElem_cons_eraseIdx_perm hlt
  have horigins := (hjobs.filter Job.fuse).map Job.origin
  rw [List.filter_cons_of_pos hfuse, List.map_cons] at horigins
  unfold inFlight
  refine List.Perm.append_left _ ?_
  rw [List.map_append, ← List.append_assoc]
  exact (List.perm_append_singleton _ _).trans (List.Perm.append_right _ horigins)

theorem inv_answer (h : d.Inv) {j : Nat} {job : Job} {o : Outcome} (hjob : d.jobs[j]? = some job)
    (hfuse : job.fuse = true) (hc : d.calls[job.origin]? = some c) (hwait : c.stage = .waiting) :
    Inv { d with
      jobs := d.jobs.eraseIdx j
      calls := d.calls.set job.origin { c with outcome := some o }
      replies := d.replies ++ [replyPacket job.origin o] } := by
  have hperm := inFlight_answer hjob hfuse d.calls o
  have hnodup := hperm.nodup_iff.mpr h.nodup
  have hqueue := h.lookup_iff hc
  refine h.set_call hc (by rfl) ?_ hnodup ?_ (fun _ => .inl)
    (fun _ hx => (List.eraseIdx_sublist d.jobs j).subset hx) ?_ (fun _ _ => rfl) hqueue
  · refine answered_of_ne fun t v hdone => ?_
    rw [show c.stage = .done t v from hdone] at hwait
    cases hwait
  · intro i hi
    have hi' := hperm.mem_iff.mp hi
    by_cases heq : i = job.origin
    · subst heq
      have hopen := h.open_of_mem hc hi'
      exact .inl ⟨rfl, hopen⟩
    · exact .inr ⟨heq, hi'⟩
  · intro p hp
    rcases List.mem_append.mp hp with hp | hp
    · -- Nothing else is under way for the call, so no reply counts on its outcome.
      refine .inl ⟨fun heq => ?_, hp⟩
      unfold inFlight at hnodup
      rw [List.map_append] at hnodup
      have hdis := List.nodup_append.mp (List.nodup_append.mp (List.nodup_append.mp hnodup).2.1).2.1
      exact hdis.2.2 p.origin (List.mem_map_of_mem hp) job.origin (List.mem_singleton_self _) heq
    · exact .inr ⟨o, List.mem_singleton.mp hp, hwait, rfl⟩

/-! ### Delivering -/

/-- **A reply finds its own call in the queue.** -/
theorem Inv.lookup_reply (h : d.Inv) {p : Packet} (hp : p ∈ d.replies) :
    d.queue.lookup p.msg.callid = some p.origin := by
  obtain ⟨o, hpkt, c, hc, hwait, -⟩ := h.replies p hp
  rw [hpkt]
  exact h.known p.origin c hc (.inr hwait)

theorem inv_deliver (h : d.Inv) {packet : Packet} {rest : List Packet}
    (hnext : d.replies = packet :: rest) (hi : d.queue.lookup packet.msg.callid = some i)
    (hc : d.calls[i]? = some c) :
    Inv { d with
      replies := rest
      queue := d.queue.filter fun entry => entry.1 != packet.msg.callid
      calls := d.calls.set i { c with stage := .done packet.msg.msgtype packet.msg.payload } } := by
  have hmem : packet ∈ d.replies := hnext ▸ List.mem_cons_self ..
  have hfound := h.lookup_reply hmem
  rw [hi] at hfound
  cases hfound
  obtain ⟨o, hpkt, x, hx, hwait, hout⟩ := h.replies packet hmem
  rw [hc] at hx
  cases hx
  have hid : packet.msg.callid = callid packet.origin := by rw [hpkt]; rfl
  have hflight : d.inFlight.Perm (packet.origin :: inFlight { d with replies := rest }) := by
    unfold inFlight
    rw [hnext, List.map_cons, ← List.append_assoc, ← List.append_assoc]
    exact List.perm_middle
  obtain ⟨hgone, hnodup'⟩ := List.nodup_cons.mp (hflight.nodup_iff.mp h.nodup)
  have hold : ∀ j ∈ inFlight { d with replies := rest }, j ≠ packet.origin ∧ j ∈ d.inFlight :=
    fun j hj => ⟨fun heq => hgone (heq ▸ hj), hflight.mem_iff.mpr (List.mem_cons_of_mem _ hj)⟩
  refine h.set_call hc (by rfl) ?_ hnodup' (fun j hj => .inr (hold j hj)) (fun _ => .inl)
    (fun _ hj => hj) ?_ ?_ ?_
  · intro t v hdone
    cases hdone
    exact ⟨o, hout, by rw [hpkt]; rfl, by rw [hpkt]; rfl⟩
  · intro p hp
    have hp' : p ∈ (Exchange.mk d.calls d.queue d.requests d.jobs rest).replies := hp
    exact .inl ⟨(hold _ (mem_inFlight_of_reply hp')).1, hnext ▸ List.mem_cons_of_mem _ hp⟩
  · intro k hk
    exact (lookup_filter ..).trans (if_neg (hid ▸ hk))
  · intro j
    rw [← hid, lookup_filter, if_pos rfl]
    exact ⟨nofun, fun hj => absurd hj.2 (not_queued nofun nofun)⟩

/-- **Every step keeps the invariant.** -/
theorem inv_step (h : d.Inv) (hstep : Step side d d') : d'.Inv := by
  cases hstep with
  | call fuse args hroom => exact inv_call h fuse args hroom
  | send i c stage hc hstage => exact inv_send h hc hstage
  | register i c stage hc hstage => exact inv_register h hc hstage
  | take packet rest hnext => exact inv_take h hnext
  | drop packet rest hnext => exact inv_drop h hnext
  | finish j => exact inv_finish h j
  | answer j job c o hjob hfuse hc hwait => exact inv_answer h hjob hfuse hc hwait
  | deliver packet rest i c hnext hi hc => exact inv_deliver h hnext hi hc

end Exchange

end Faastr.Ivshrpc.Rpc
