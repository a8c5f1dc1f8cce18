import Faastr.Ivshrpc.Exchange
import Faastr.Lib.Transition

/-!
Which runs of the RPC match calls with their own replies.

A step of the system is a step of each of its two directions, or leaves it alone,
as long as the step is careful (`System.Careful`): it avoids what the code gets
wrong. Then calls are matched in every state of the run, because each direction
keeps the invariant of `Exchange`.

* `matched_of_carefulReaches`: careful runs match calls with their replies.
* `second_fuse_panics`: the reply to the host's second call is taken for a reply to
  its first.
-/

namespace Faastr.Ivshrpc.Rpc

open Faastr.Lib

namespace System

/-- What the code does right: numbers are not used up, and the first call of the
host is its only fuse, with arguments the proxy sees in full; casts succeed; a fuse
of the kernel fails; and the host has registered its call by the time it is
answered. -/
def Careful (s : System) : Action → Prop
  | .call side fuse args => (s.get side).calls.length < 2 ^ 64 ∧
      (side = .host → fuse = true → s.host.calls = [] ∧ Whole args)
  | .send _ _ | .register _ _ | .receive .host _ => True
  | .receive .kernel callee => ∀ packet ∈ s.kernel.inbox.head?, packet.msg.msgtype = .cast →
      sysCast callee.castName packet.msg.payload = .ok (.ok ())
  | .serve .host j callee => ∀ job, s.host.jobs[j]? = some job →
      (job.fuse = true → ∃ e, dispatch callee.value job.args true = .ok (.error e)) ∧
      (job.fuse = false → ∃ val, dispatch callee.value job.args false = .ok (.ok val))
  | .serve .kernel j _ => ∀ job, s.kernel.jobs[j]? = some job →
      (s.host.queue.lookup job.callid).isSome

def CarefulStep (s s' : System) : Prop := ∃ a, s.Careful a ∧ s.step a = some s'

abbrev CarefulReaches : System → System → Prop := Relation.ReflTransGen CarefulStep

/-! ### The two directions -/

/-- The direction in which a party calls. -/
def exchange (s : System) (side : Side) : Exchange :=
  { calls := (s.get side).calls
    queue := (s.get side).queue
    requests := (s.get side.peer).inbox.filter fun p => !decide p.IsReply
    jobs := (s.get side.peer).jobs
    replies := (s.get side).inbox.filter fun p => decide p.IsReply }

variable {s s' : System} {side : Side} {packet : Packet} {rest : List Packet}

theorem forall_side {motive : Side → Prop} (side : Side) (here : motive side)
    (there : motive side.peer) : ∀ x, motive x := by
  intro x
  cases x <;> cases side
  · exact here
  · exact there
  · exact there
  · exact here

theorem exchange_calls (s : System) (side : Side) (calls : List Call)
    (queue : List (UInt64 × Nat)) :
    (s.set side { s.get side with calls, queue }).exchange side =
      { s.exchange side with calls, queue } := by
  cases side <;> rfl

theorem exchange_calls_peer (s : System) (side : Side) (calls : List Call)
    (queue : List (UInt64 × Nat)) :
    (s.set side { s.get side with calls, queue }).exchange side.peer = s.exchange side.peer := by
  cases side <;> rfl

theorem exchange_jobs (s : System) (side : Side) (jobs : List Job) :
    (s.set side { s.get side with jobs }).exchange side = s.exchange side := by
  cases side <;> rfl

theorem exchange_jobs_peer (s : System) (side : Side) (jobs : List Job) :
    (s.set side { s.get side with jobs }).exchange side.peer =
      { s.exchange side.peer with jobs } := by
  cases side <;> rfl

/-- A reply goes to the direction of the party that it is sent to. -/
theorem exchange_post_reply (s : System) (side : Side) {packet : Packet}
    (hreply : packet.IsReply) :
    (s.post side packet).exchange side =
        { s.exchange side with replies := (s.exchange side).replies ++ [packet] } ∧
      (s.post side packet).exchange side.peer = s.exchange side.peer := by
  cases side <;> simp [exchange, post, get, set, Side.peer, List.filter_append, hreply]

/-- A request goes to the direction of the party that sends it. -/
theorem exchange_post_request (s : System) (side : Side) {packet : Packet}
    (hreply : ¬ packet.IsReply) :
    (s.post side.peer packet).exchange side =
        { s.exchange side with requests := (s.exchange side).requests ++ [packet] } ∧
      (s.post side.peer packet).exchange side.peer = s.exchange side.peer := by
  cases side <;> simp [exchange, post, get, set, Side.peer, List.filter_append, hreply]

/-- A reply is taken off the channel. -/
theorem exchange_pop_reply (hnext : (s.get side).inbox = packet :: rest)
    (hreply : packet.IsReply) :
    (s.exchange side).replies = packet :: rest.filter (fun p => decide p.IsReply) ∧
      (s.set side { s.get side with inbox := rest }).exchange side =
        { s.exchange side with replies := rest.filter fun p => decide p.IsReply } ∧
      (s.set side { s.get side with inbox := rest }).exchange side.peer = s.exchange side.peer := by
  cases side <;> simp_all [exchange, get, set, Side.peer]

/-- A request is taken off the channel. -/
theorem exchange_pop_request (hnext : (s.get side).inbox = packet :: rest)
    (hreply : ¬ packet.IsReply) :
    (s.exchange side.peer).requests = packet :: rest.filter (fun p => !decide p.IsReply) ∧
      (s.set side { s.get side with inbox := rest }).exchange side.peer =
        { s.exchange side.peer with requests := rest.filter fun p => !decide p.IsReply } ∧
      (s.set side { s.get side with inbox := rest }).exchange side = s.exchange side := by
  cases side <;> simp_all [exchange, get, set, Side.peer]

/-! ### The invariant -/

/-- Only the first call of the host is a fuse, and only a fuse is served by a
context of its own; the kernel registers before it sends. -/
def Shape : Side → Exchange → Prop
  | .host, d => (∀ i c, d.calls[i]? = some c → c.fuse = true → i = 0 ∧ Whole c.args) ∧
      ∀ job ∈ d.jobs, job.fuse = true
  | .kernel, d => ∀ c ∈ d.calls, c.stage ≠ .sent

structure Inv (s : System) : Prop where
  exchange : ∀ side, (s.exchange side).Inv
  shape : ∀ side, Shape side (s.exchange side)
  calm : s.host.panicked = false ∧ s.kernel.panicked = false

/-- Both directions go on as they should. -/
def Advances (s s' : System) : Prop :=
  ∀ side, s'.exchange side = s.exchange side ∨
    Exchange.Step side (s.exchange side) (s'.exchange side) ∧ Shape side (s'.exchange side)

theorem Inv.advance (h : s.Inv) (hadvance : s.Advances s')
    (hcalm : s'.host.panicked = false ∧ s'.kernel.panicked = false) : s'.Inv := by
  refine ⟨?_, ?_, hcalm⟩
  · intro side
    rcases hadvance side with hsame | ⟨hstep, -⟩
    · rw [hsame]
      exact h.exchange side
    · exact Exchange.inv_step (h.exchange side) hstep
  · intro side
    rcases hadvance side with hsame | ⟨-, hshape⟩
    · rw [hsame]
      exact h.shape side
    · exact hshape

theorem inv_start : start.Inv where
  exchange := fun side => by cases side <;> exact Exchange.inv_empty
  shape := fun side => by
    cases side
    · exact ⟨nofun, nofun⟩
    · exact nofun
  calm := ⟨rfl, rfl⟩

/-- The shape is kept when a call goes on. -/
theorem Shape.set {d d' : Exchange} {i : Nat} {c c' : Call} (h : Shape side d)
    (hc : d.calls[i]? = some c) (hcalls : d'.calls = d.calls.set i c')
    (hjobs : ∀ job ∈ d'.jobs, job ∈ d.jobs) (hfuse : c'.fuse = c.fuse) (hargs : c'.args = c.args)
    (hstage : side = .kernel → c'.stage ≠ .sent) : Shape side d' := by
  cases side with
  | host =>
    refine ⟨?_, fun job hjob => h.2 job (hjobs job hjob)⟩
    intro j x hx hxfuse
    rw [hcalls] at hx
    rcases Exchange.of_getElem?_set hc hx with ⟨rfl, rfl⟩ | ⟨-, hx⟩
    · rw [hargs]
      exact h.1 j c hc (hfuse.symm.trans hxfuse)
    · exact h.1 j x hx hxfuse
  | kernel =>
    intro x hx
    rw [hcalls] at hx
    rcases List.mem_or_eq_of_mem_set hx with hx | rfl
    · exact h x hx
    · exact hstage rfl

/-! ### Calling -/

theorem shape_call {d : Exchange} (h : Shape side d) {fuse : Bool} {args : List UInt8}
    (hfirst : side = .host → fuse = true → d.calls = [] ∧ Whole args) :
    Shape side { d with calls := d.calls ++ [.begin fuse args] } := by
  cases side with
  | host =>
    refine ⟨?_, h.2⟩
    intro i c hc hfuse
    rcases Nat.lt_or_ge i d.calls.length with hlt | hge
    · rw [List.getElem?_append_left hlt] at hc
      exact h.1 i c hc hfuse
    · rw [List.getElem?_append_right hge] at hc
      obtain ⟨hlt, hget⟩ := List.getElem?_eq_some_iff.mp hc
      have hzero : i - d.calls.length = 0 := Nat.lt_one_iff.mp hlt
      simp only [hzero, List.getElem_cons_zero] at hget
      subst hget
      obtain ⟨hnil, hwhole⟩ := hfirst rfl hfuse
      rw [hnil, List.length_nil] at hzero
      exact ⟨hzero, hwhole⟩
  | kernel =>
    intro c hc
    rcases List.mem_append.mp hc with hc | hc
    · exact h c hc
    · rw [List.mem_singleton.mp hc]
      exact nofun

theorem inv_call (h : s.Inv) {fuse : Bool} {args : List UInt8}
    (hcareful : s.Careful (.call side fuse args)) : (s.call side fuse args).Inv := by
  obtain ⟨hroom, hfirst⟩ := hcareful
  have hhere : (s.call side fuse args).exchange side =
      { s.exchange side with calls := (s.exchange side).calls ++ [.begin fuse args] } :=
    exchange_calls s side _ (s.get side).queue
  refine h.advance (forall_side side (.inr ?_) (.inl ?_)) (by cases side <;> exact h.calm)
  · rw [hhere]
    refine ⟨.call fuse args hroom, shape_call (h.shape side) ?_⟩
    rintro rfl
    exact hfirst rfl
  · exact exchange_calls_peer s side _ (s.get side).queue

theorem sendStage_ne_sent {c : Call} {stage : CallStage}
    (h : sendStage .kernel c = some stage) : stage ≠ .sent := by
  rintro rfl
  unfold sendStage at h
  split at h
  · cases h
  · rename_i hside _
    cases hside
  · cases h
  · cases h

theorem registerStage_ne_sent {c : Call} {stage : CallStage}
    (h : registerStage side c = some stage) : stage ≠ .sent := by
  rintro rfl
  unfold registerStage at h
  split at h <;> cases h

theorem inv_send (h : s.Inv) {i : Nat} (hstep : s.send side i = some s') : s'.Inv := by
  obtain ⟨c, hc, hstep⟩ := Option.bind_eq_some_iff.mp hstep
  obtain ⟨stage, hstage, hstep⟩ := Option.bind_eq_some_iff.mp hstep
  cases hstep
  have hrequest : ¬ Packet.IsReply { msg := requestMsg i c, origin := i } := by
    cases hfuse : c.fuse <;> simp [Packet.IsReply, requestMsg, hfuse]
  obtain ⟨hhere, hthere⟩ := exchange_post_request
    (s.set side { s.get side with calls := (s.get side).calls.set i { c with stage } }) side hrequest
  refine h.advance (forall_side side (.inr ?_) (.inl ?_)) (by cases side <;> exact h.calm)
  · rw [hhere, exchange_calls s side _ (s.get side).queue]
    refine ⟨.send i c stage hc hstage,
      (h.shape side).set hc rfl (fun _ hjob => hjob) rfl rfl ?_⟩
    rintro rfl
    exact sendStage_ne_sent hstage
  · rw [hthere, exchange_calls_peer s side _ (s.get side).queue]

/-- A call that registers itself is not in the queue yet. -/
theorem Inv.enqueue_eq (h : s.Inv) {i : Nat} {c : Call} {stage : CallStage}
    (hc : (s.get side).calls[i]? = some c) (hstage : registerStage side c = some stage) :
    enqueue side (s.get side).queue i = (callid i, i) :: (s.get side).queue := by
  have hnone : (s.get side).queue.lookup (callid i) = none := by
    cases hlookup : (s.get side).queue.lookup (callid i) with
    | none => rfl
    | some j =>
      have hq := (((h.exchange side).lookup_iff hc j).mp hlookup).2
      exact absurd hq (Exchange.registerStage_spec hstage).1
  unfold enqueue
  rw [hnone]
  cases side <;> rfl

theorem inv_register (h : s.Inv) {i : Nat} (hstep : s.register side i = some s') : s'.Inv := by
  obtain ⟨c, hc, hstep⟩ := Option.bind_eq_some_iff.mp hstep
  obtain ⟨stage, hstage, hstep⟩ := Option.bind_eq_some_iff.mp hstep
  cases hstep
  rw [h.enqueue_eq hc hstage]
  refine h.advance (forall_side side (.inr ?_) (.inl ?_)) (by cases side <;> exact h.calm)
  · rw [exchange_calls]
    exact ⟨.register i c stage hc hstage, (h.shape side).set hc rfl (fun _ hjob => hjob) rfl rfl
      fun _ => registerStage_ne_sent hstage⟩
  · rw [exchange_calls_peer]

/-! ### Receiving -/

theorem modify_eq_set {calls : List Call} {i : Nat} {c : Call} (hc : calls[i]? = some c)
    (f : Call → Call) : calls.modify i f = calls.set i (f c) := by
  rw [List.modify_eq_set_getElem?, hc]
  rfl

/-- A reply reaches the call it belongs to. -/
theorem inv_deliver (h : s.Inv) {packet : Packet} {rest : List Packet}
    (hnext : (s.get side).inbox = packet :: rest) (hreply : packet.IsReply) :
    ((s.set side { s.get side with inbox := rest }).deliver side packet.msg).Inv := by
  obtain ⟨hreplies, hhere, hthere⟩ := exchange_pop_reply hnext hreply
  have hmem : packet ∈ (s.exchange side).replies := hreplies ▸ List.mem_cons_self ..
  have hlookup := (h.exchange side).lookup_reply hmem
  obtain ⟨o, -, c, hc, -⟩ := (h.exchange side).replies packet hmem
  have hparty : (s.set side { s.get side with inbox := rest }).get side =
      { s.get side with inbox := rest } := by cases side <;> rfl
  have hdeliver : (s.set side { s.get side with inbox := rest }).deliver side packet.msg =
      (s.set side { s.get side with inbox := rest }).set side
        { (s.set side { s.get side with inbox := rest }).get side with
          queue := (s.get side).queue.filter fun entry => entry.1 != packet.msg.callid
          calls := (s.get side).calls.set packet.origin
            { c with stage := .done packet.msg.msgtype packet.msg.payload } } := by
    unfold deliver
    rw [hparty, show (s.get side).queue.lookup packet.msg.callid = some packet.origin from hlookup]
    simp only [modify_eq_set (show (s.get side).calls[packet.origin]? = some c from hc)]
  rw [hdeliver]
  refine h.advance (forall_side side (.inr ?_) (.inl ?_)) (by cases side <;> exact h.calm)
  · rw [exchange_calls, hhere]
    refine ⟨.deliver packet _ packet.origin c hreplies hlookup hc,
      (h.shape side).set hc rfl (fun _ hjob => hjob) rfl rfl fun _ => nofun⟩
  · rw [exchange_calls_peer, hthere]

/-- A request becomes a job. -/
theorem inv_accept (h : s.Inv) {packet : Packet} {rest : List Packet}
    (hnext : (s.get side).inbox = packet :: rest) (hreply : ¬ packet.IsReply)
    (hfuse : side = .kernel → packet.IsFuse) :
    ((s.set side { s.get side with inbox := rest }).accept side
      (decide packet.IsFuse) packet).Inv := by
  obtain ⟨hrequests, hthere, hhere⟩ := exchange_pop_request hnext hreply
  unfold accept
  refine h.advance (forall_side side (.inl ?_) (.inr ?_)) (by cases side <;> exact h.calm)
  · rw [exchange_jobs, hhere]
  · rw [exchange_jobs_peer, hthere]
    cases side with
    | host => exact ⟨.take packet _ hrequests, h.shape .kernel⟩
    | kernel =>
      refine ⟨.take packet _ hrequests, (h.shape .host).1, ?_⟩
      intro job hjob
      rcases List.mem_append.mp hjob with hjob | hjob
      · exact (h.shape .host).2 job hjob
      · rw [List.mem_singleton.mp hjob]
        exact decide_eq_true (hfuse rfl)

theorem inv_receive (h : s.Inv) {callee : Callee} (hcareful : s.Careful (.receive side callee))
    (hstep : s.receive side callee = some s') : s'.Inv := by
  unfold receive at hstep
  cases hnext : (s.get side).inbox with
  | nil =>
    rw [hnext] at hstep
    cases hstep
  | cons packet rest =>
    rw [hnext] at hstep
    cases hstep
    unfold handle
    cases htype : packet.msg.msgtype with
    | ret => exact inv_deliver h hnext (.inl htype)
    | error => exact inv_deliver h hnext (.inr htype)
    | fuse =>
      have hfuse : packet.IsFuse := htype
      have hreply : ¬ packet.IsReply := by simp [Packet.IsReply, htype]
      have haccept := inv_accept h hnext hreply fun _ => hfuse
      rw [decide_eq_true hfuse] at haccept
      exact haccept
    | cast =>
      have hfuse : ¬ packet.IsFuse := by simp [Packet.IsFuse, htype]
      have hreply : ¬ packet.IsReply := by simp [Packet.IsReply, htype]
      cases side with
      | host =>
        have haccept := inv_accept h hnext hreply fun hside => by cases hside
        rw [decide_eq_false hfuse] at haccept
        exact haccept
      | kernel =>
        -- A cast that succeeds is not answered.
        have hcast := hcareful packet (by rw [show s.kernel.inbox = _ from hnext]; rfl) htype
        simp only [hcast]
        obtain ⟨hrequests, hthere, hhere⟩ := exchange_pop_request hnext hreply
        refine h.advance (forall_side .kernel (.inl hhere) (.inr ?_)) h.calm
        rw [hthere]
        exact ⟨.drop packet _ hrequests, h.shape .host⟩

/-! ### Serving -/

/-- A fuse that is being served belongs to an open call, under its number. -/
theorem Inv.job_call (h : s.Inv) (side : Side) {j : Nat} {job : Job}
    (hjob : (s.exchange side).jobs[j]? = some job) (hfuse : job.fuse = true) :
    job.callid = callid job.origin ∧
      ∃ c, (s.exchange side).calls[job.origin]? = some c ∧ c.args = job.args ∧ c.Open := by
  have hmem := List.mem_of_getElem? hjob
  obtain ⟨hid, c, hc, hargs⟩ := (h.exchange side).jobs job hmem
  have hflight : job.origin ∈ (s.exchange side).inFlight := by
    refine List.mem_append_right _ (List.mem_append_left _ ?_)
    exact List.mem_map_of_mem (List.mem_filter.mpr ⟨hmem, hfuse⟩)
  exact ⟨hid, c, hc, hargs, (h.exchange side).open_of_mem hc hflight⟩

/-- **A fuse is answered as it should be**: with the outcome of its request, under
the number of its call. -/
theorem inv_answer (side : Side) (o : Outcome) (h : s.Inv) {j : Nat} {job : Job} {c : Call}
    (hjob : (s.get side.peer).jobs[j]? = some job) (hfuse : job.fuse = true)
    (hc : (s.get side).calls[job.origin]? = some c) (hwait : c.stage = .waiting) :
    (((s.set side.peer { s.get side.peer with jobs := (s.get side.peer).jobs.eraseIdx j }).record
      side job.origin (.ok o)).post side (replyPacket job.origin o)).Inv := by
  have hreply : (replyPacket job.origin o).IsReply := by
    cases o with
    | ok values => exact .inl rfl
    | error values => exact .inr rfl
  obtain ⟨hpost, hpost'⟩ := exchange_post_reply
    ((s.set side.peer { s.get side.peer with
      jobs := (s.get side.peer).jobs.eraseIdx j }).record side job.origin (.ok o)) side hreply
  have hset := modify_eq_set hc fun c => { c with outcome := some o }
  refine h.advance (forall_side side (.inr ?_) (.inl ?_)) (by cases side <;> exact h.calm)
  · have hhere : ((s.set side.peer { s.get side.peer with
        jobs := (s.get side.peer).jobs.eraseIdx j }).record side job.origin (.ok o)).exchange side =
        { s.exchange side with
          jobs := (s.get side.peer).jobs.eraseIdx j
          calls := (s.get side).calls.set job.origin { c with outcome := some o } } := by
      rw [← hset]
      cases side <;> rfl
    rw [hpost, hhere]
    refine ⟨.answer j job c o hjob hfuse hc hwait, (h.shape side).set hc rfl ?_ rfl rfl ?_⟩
    · exact fun x hx => (List.eraseIdx_sublist _ _).subset hx
    · rintro -
      show c.stage ≠ .sent
      rw [hwait]
      exact nofun
  · rw [hpost']
    cases side <;> rfl

theorem inv_serveHost (h : s.Inv) {j : Nat} {job : Job} {callee : Callee}
    (hcareful : s.Careful (.serve .host j callee)) (hjob : s.host.jobs[j]? = some job) :
    ((s.set .host { s.host with jobs := s.host.jobs.eraseIdx j }).serveHost callee job).Inv := by
  obtain ⟨hfails, hsucceeds⟩ := hcareful job hjob
  cases hfuse : job.fuse with
  | false =>
    obtain ⟨val, hval⟩ := hsucceeds hfuse
    simp only [serveHost, hfuse, hval]
    refine h.advance (forall_side .host (.inl ?_) (.inr ?_)) h.calm
    · exact exchange_jobs s .host _
    · exact ⟨.finish j, h.shape .kernel⟩
  | true =>
    obtain ⟨e, he⟩ := hfails hfuse
    obtain ⟨hid, c, hc, -, hopen⟩ := h.job_call .kernel hjob hfuse
    have hwait : c.stage = .waiting :=
      hopen.2.resolve_left (h.shape .kernel c (List.mem_of_getElem? hc))
    simp only [serveHost, hfuse, he, if_true, hid]
    exact inv_answer .kernel (.error e) h hjob hfuse hc hwait

theorem inv_serveKernel (h : s.Inv) {j : Nat} {job : Job} {callee : Callee}
    (hcareful : s.Careful (.serve .kernel j callee)) (hjob : s.kernel.jobs[j]? = some job) :
    ((s.set .kernel { s.kernel with jobs := s.kernel.jobs.eraseIdx j }).serveKernel
      callee job).Inv := by
  have hfuse := (h.shape .host).2 job (List.mem_of_getElem? hjob)
  obtain ⟨hid, c, hc, hargs, hopen⟩ := h.job_call .host hjob hfuse
  obtain ⟨hfirst, hwhole⟩ := (h.shape .host).1 job.origin c hc hopen.1
  -- The call has registered itself, so it is waiting.
  have hwait : c.stage = .waiting := by
    obtain ⟨i, hi⟩ := Option.isSome_iff_exists.mp (hcareful job hjob)
    rw [hid] at hi
    rcases (((h.exchange .host).lookup_iff hc i).mp hi).2 with hq | hq
    · exact hopen.2.resolve_left (by rw [hq]; exact nofun)
    · exact hq
  obtain ⟨o, ho⟩ := sysFuse_succeeds callee.fuseName job.args
  have hproxy : sysFuse callee.fuseName (proxyArgs job.args) = .ok o := by
    rw [← hargs] at ho ⊢
    rw [sysFuse_proxyArgs hwhole, ho]
  have hanswer := inv_answer .host o h hjob hfuse hc hwait
  simp only [serveKernel, hproxy, ho]
  have hreply : ∀ {t : MsgType} {v : List UInt8}, t = replyType o → v = replyValues o →
      ({ msg := { msgtype := t, callid := callid 0, payload := v }, origin := job.origin } :
        Packet) = replyPacket job.origin o := by
    rintro t v rfl rfl
    rw [hfirst]
    rfl
  cases o with
  | ok vals =>
    rw [← hreply rfl rfl] at hanswer
    exact hanswer
  | error vals =>
    rw [← hreply rfl rfl] at hanswer
    exact hanswer

theorem inv_serve (h : s.Inv) {j : Nat} {callee : Callee}
    (hcareful : s.Careful (.serve side j callee)) (hstep : s.serve side j callee = some s') :
    s'.Inv := by
  obtain ⟨job, hjob, hstep⟩ := Option.bind_eq_some_iff.mp hstep
  cases side with
  | host =>
    cases hstep
    exact inv_serveHost h hcareful hjob
  | kernel =>
    cases hstep
    exact inv_serveKernel h hcareful hjob

/-! ### Whole runs -/

/-- **Every careful step keeps the invariant.** -/
theorem inv_step (h : s.Inv) {a : Action} (hcareful : s.Careful a) (hstep : s.step a = some s') :
    s'.Inv := by
  have hcalm : (s.get a.side).panicked = false := by
    cases a.side
    · exact h.calm.1
    · exact h.calm.2
  unfold step at hstep
  rw [if_neg (by rw [hcalm]; decide)] at hstep
  cases a with
  | call side fuse args =>
    cases hstep
    exact inv_call h hcareful
  | send side i => exact inv_send h hstep
  | register side i => exact inv_register h hstep
  | receive side callee => exact inv_receive h hcareful hstep
  | serve side j callee => exact inv_serve h hcareful hstep

theorem inv_of_carefulReaches (hrun : start.CarefulReaches s) : s.Inv :=
  invariant_of_step Inv hrun inv_start fun _ _ h ⟨_, hcareful, hstep⟩ => inv_step h hcareful hstep

theorem Inv.matched (h : s.Inv) : s.Matched := by
  intro side
  refine ⟨?_, ?_, (h.exchange side).answered⟩
  · cases side
    · exact h.calm.1
    · exact h.calm.2
  · intro packet hhead hreply
    have hmem : packet ∈ (s.exchange side).replies :=
      List.mem_filter.mpr ⟨List.mem_of_mem_head? hhead, decide_eq_true hreply⟩
    have hlookup : (s.get side).queue.lookup packet.msg.callid = some packet.origin :=
      (h.exchange side).lookup_reply hmem
    rw [hlookup]
    rfl

/-- **Careful runs match calls with their replies.** In every state of a run whose
steps all avoid what the code gets wrong, no party has panicked, a reply that is
next to be taken has its call in the queue, and a call that has its reply has what
its own request came to. -/
theorem matched_of_carefulReaches (s : System) (hrun : start.CarefulReaches s) : s.Matched :=
  (inv_of_carefulReaches hrun).matched

/-- Functions that return nothing. -/
def idleCallee : Callee :=
  { value := fun _ _ => [], fuseName := fun _ _ => .ok [], castName := fun _ _ => .ok () }

/-- What comes of a request without arguments. -/
def sampleError : List UInt8 := justError "Could not decode argumenta"

/-- The kernel's first call, a fuse without arguments, on its way. -/
def sampleFuse (stage : CallStage) (outcome : Option Outcome) (queue : List (UInt64 × Nat))
    (requests : List Packet) (jobs : List Job) (replies : List Packet) : System :=
  { host := { Party.fresh with inbox := requests, jobs }
    kernel := { Party.fresh with
      calls := [{ fuse := true, args := [], stage, outcome }], queue, inbox := replies } }

/-- The call is refused by the host, and is told so. -/
theorem sampleFuse_matched :
    (sampleFuse (.done .error sampleError) (some (.error sampleError)) [] [] [] []).Matched := by
  apply matched_of_carefulReaches
  have hcall : start.CarefulStep (sampleFuse .begun none [] [] [] []) :=
    ⟨.call .kernel true [], ⟨by decide, nofun⟩, rfl⟩
  have hregister : (sampleFuse .begun none [] [] [] []).CarefulStep
      (sampleFuse .registered none [(0, 0)] [] [] []) :=
    ⟨.register .kernel 0, trivial, rfl⟩
  have hsend : (sampleFuse .registered none [(0, 0)] [] [] []).CarefulStep
      (sampleFuse .waiting none [(0, 0)] [⟨⟨.fuse, 0, []⟩, 0⟩] [] []) :=
    ⟨.send .kernel 0, trivial, rfl⟩
  have hreceive : (sampleFuse .waiting none [(0, 0)] [⟨⟨.fuse, 0, []⟩, 0⟩] [] []).CarefulStep
      (sampleFuse .waiting none [(0, 0)] [] [⟨true, 0, [], 0⟩] []) :=
    ⟨.receive .host idleCallee, trivial, rfl⟩
  have hserve : (sampleFuse .waiting none [(0, 0)] [] [⟨true, 0, [], 0⟩] []).CarefulStep
      (sampleFuse .waiting (some (.error sampleError)) [(0, 0)] [] []
        [⟨⟨.error, 0, sampleError⟩, 0⟩]) := by
    refine ⟨.serve .host 0 idleCallee, ?_, rfl⟩
    intro job hjob
    cases hjob
    exact ⟨fun _ => ⟨sampleError, rfl⟩, nofun⟩
  have hdeliver : (sampleFuse .waiting (some (.error sampleError)) [(0, 0)] [] []
      [⟨⟨.error, 0, sampleError⟩, 0⟩]).CarefulStep
      (sampleFuse (.done .error sampleError) (some (.error sampleError)) [] [] [] []) := by
    refine ⟨.receive .kernel idleCallee, ?_, rfl⟩
    intro packet hpacket hcast
    cases hpacket
    cases hcast
  exact (((((Relation.ReflTransGen.single hcall).tail hregister).tail hsend).tail hreceive).tail
    hserve).tail hdeliver

/-- Two fuse calls of the host, both served and answered. -/
def twoFuses : List Action :=
  [.call .host true [], .call .host true [], .send .host 0, .send .host 1, .register .host 0,
    .register .host 1, .receive .kernel idleCallee, .receive .kernel idleCallee,
    .serve .kernel 0 idleCallee, .serve .kernel 0 idleCallee, .receive .host idleCallee,
    .receive .host idleCallee]

/-- Both replies have call number 0: the second finds nobody, and the host panics. -/
theorem second_fuse_panics :
    ∃ s, start.Reaches s ∧ s.host.panicked = true ∧ ¬ s.Matched := by
  have hrun : (twoFuses.foldlM step start).map (fun s => s.host.panicked) = some true := by
    decide +kernel
  obtain ⟨s, hs, hpanicked⟩ := Option.map_eq_some_iff.mp hrun
  refine ⟨s, reaches_of_foldlM (fun a _ _ _ hstep => ⟨a, hstep⟩) hs, hpanicked, ?_⟩
  intro hmatched
  have hcalm : s.host.panicked = false := (hmatched .host).1
  rw [hpanicked] at hcalm
  cases hcalm

end System

end Faastr.Ivshrpc.Rpc
