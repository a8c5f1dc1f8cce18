import Faastr.Ivshrpc.Dispatch
import Faastr.Ivshrpc.Header
import Mathlib.Logic.Relation

/-!
The two parties of the shared-memory RPC: the host daemon
(`ivshrpcd/src/bin/main.rs`) and the kernel (`kernel/src/devices/ivshmem.rs`),
with a reliable FIFO channel in each direction.

A party numbers its calls by `CALL_ID`; a fuse call is registered in `CALL_QUEUE`
under its number, and waits there for its reply. The two sides are not mirror
images of each other:

* the kernel registers a fuse call before it sends it, the host after;
* the host serves requests in the threads of a pool and answers a fuse with
  `Error`, whatever came out of it; the kernel serves a cast in `isr` and a fuse in
  a context of its own, which answers with call number 0;
* both answer a cast that fails, though nobody waits for it.

Calls, requests and replies carry the number of the call they belong to, and a
call carries what its request came to at the callee. The code has neither: they
say which reply is whose.
-/

namespace Faastr.Ivshrpc.Rpc

open Faastr.Lib

inductive Side where
  | host
  | kernel
deriving DecidableEq, Repr

def Side.peer : Side → Side
  | .host => .kernel
  | .kernel => .host

/-- How far a call has come. -/
inductive CallStage where
  | begun
  /-- Sent, and not registered yet: on the host. -/
  | sent
  /-- Registered, and not sent yet: in the kernel. -/
  | registered
  | waiting
  /-- A cast that is sent. -/
  | finished
  | done (msgtype : MsgType) (values : List UInt8)
deriving DecidableEq, Repr

/-- A call of `ivshrpc_fuse` or `ivshrpc_cast`. -/
structure Call where
  fuse : Bool
  args : List UInt8
  stage : CallStage
  /-- What the request came to at the callee. -/
  outcome : Option Outcome

/-- A message, with the call it belongs to. -/
structure Packet where
  msg : Msg
  origin : Nat

/-- A request that is being served, with the call it belongs to. -/
structure Job where
  fuse : Bool
  callid : UInt64
  args : List UInt8
  origin : Nat

structure Party where
  /-- The calls made so far; `CALL_ID` is their number. -/
  calls : List Call
  /-- `CALL_QUEUE`: the call registered under a number. -/
  queue : List (UInt64 × Nat)
  jobs : List Job
  inbox : List Packet
  panicked : Bool

structure System where
  host : Party
  kernel : Party

def Party.fresh : Party := { calls := [], queue := [], jobs := [], inbox := [], panicked := false }

namespace System

def start : System := { host := .fresh, kernel := .fresh }

def get (s : System) : Side → Party
  | .host => s.host
  | .kernel => s.kernel

def set (s : System) (side : Side) (p : Party) : System :=
  match side with
  | .host => { s with host := p }
  | .kernel => { s with kernel := p }

/-- A message arrives in the channel towards a party. -/
def post (s : System) (side : Side) (packet : Packet) : System :=
  s.set side { s.get side with inbox := (s.get side).inbox ++ [packet] }

end System

/-- `callid as u64` of the call with this number. -/
def callid (i : Nat) : UInt64 := UInt64.ofNat i

/-! ### Calling -/

def requestMsg (i : Nat) (c : Call) : Msg :=
  { msgtype := if c.fuse then .fuse else .cast, callid := callid i, payload := c.args }

/-- Where a call goes by sending its message, if that is its next step. -/
def sendStage (side : Side) (c : Call) : Option CallStage :=
  match c.fuse, side, c.stage with
  | false, _, .begun => some .finished
  | true, .host, .begun => some .sent
  | true, .kernel, .registered => some .waiting
  | _, _, _ => none

/-- Where a call goes by registering itself, if that is its next step. -/
def registerStage (side : Side) (c : Call) : Option CallStage :=
  match c.fuse, side, c.stage with
  | true, .host, .sent => some .waiting
  | true, .kernel, .begun => some .registered
  | _, _, _ => none

/-- `CALL_QUEUE` with one more call: `or_insert` on the host, `insert` in the
kernel. -/
def enqueue (side : Side) (queue : List (UInt64 × Nat)) (i : Nat) : List (UInt64 × Nat) :=
  match side, queue.lookup (callid i) with
  | .host, some _ => queue
  | _, _ => (callid i, i) :: queue

namespace System

/-- The first step of a call: it takes its number. -/
def call (s : System) (side : Side) (fuse : Bool) (args : List UInt8) : System :=
  s.set side { s.get side with
    calls := (s.get side).calls ++ [{ fuse, args, stage := .begun, outcome := none }] }

/-- A call writes its message. -/
def send (s : System) (side : Side) (i : Nat) : Option System := do
  let c ← (s.get side).calls[i]?
  let stage ← sendStage side c
  let sent := s.set side { s.get side with calls := (s.get side).calls.set i { c with stage } }
  return sent.post side.peer { msg := requestMsg i c, origin := i }

/-- A call registers itself. -/
def register (s : System) (side : Side) (i : Nat) : Option System := do
  let c ← (s.get side).calls[i]?
  let stage ← registerStage side c
  return s.set side { s.get side with
    calls := (s.get side).calls.set i { c with stage }
    queue := enqueue side (s.get side).queue i }

/-! ### Receiving -/

def panic (s : System) (side : Side) : System := s.set side { s.get side with panicked := true }

/-- A result is handed to the call registered under its number. -/
def deliver (s : System) (side : Side) (msg : Msg) : System :=
  match (s.get side).queue.lookup msg.callid with
  | none => s.panic side
  | some i =>
      s.set side { s.get side with
        queue := (s.get side).queue.filter fun entry => entry.1 != msg.callid
        calls := (s.get side).calls.modify i fun c =>
          { c with stage := .done msg.msgtype msg.payload } }

/-- A request is handed to a thread or context of its own. -/
def accept (s : System) (side : Side) (fuse : Bool) (packet : Packet) : System :=
  s.set side { s.get side with
    jobs := (s.get side).jobs ++
      [{ fuse, callid := packet.msg.callid, args := packet.msg.payload, origin := packet.origin }] }

/-- What the receive loop does with a message. -/
def handle (s : System) (side : Side) (callee : Callee) (packet : Packet) : System :=
  match packet.msg.msgtype, side with
  | .ret, _ | .error, _ => s.deliver side packet.msg
  | .fuse, _ => s.accept side true packet
  | .cast, .host => s.accept side false packet
  | .cast, .kernel =>
      match sysCast callee.castName packet.msg.payload with
      | .ok (.ok ()) => s
      | .ok (.error e) =>
          s.post .host
            { msg := { msgtype := .error, callid := packet.msg.callid, payload := e }
              origin := packet.origin }
      | .error _ => s.panic side

/-- The next message is taken off the channel. -/
def receive (s : System) (side : Side) (callee : Callee) : Option System :=
  match (s.get side).inbox with
  | [] => none
  | packet :: rest =>
      some ((s.set side { s.get side with inbox := rest }).handle side callee packet)

/-! ### Serving -/

/-- A request has come to something at the callee. -/
def record (s : System) (side : Side) (origin : Nat) (outcome : Checked Outcome) : System :=
  s.set side { s.get side with
    calls := (s.get side).calls.modify origin fun c => { c with outcome := outcome.toOption } }

/-- The closure that `listener` gives to the thread pool. -/
def serveHost (s : System) (callee : Callee) (job : Job) : System :=
  let reply (values : List UInt8) : Packet :=
    { msg := { msgtype := .error, callid := job.callid, payload := values }, origin := job.origin }
  let result := dispatch callee.value job.args job.fuse
  let s := if job.fuse then s.record .kernel job.origin result else s
  match result with
  | .ok (.ok val) => if job.fuse then s.post .kernel (reply val) else s
  | .ok (.error err) => s.post .kernel (reply err)
  -- The thread panics, and nothing is sent.
  | .error _ => s

/-- `fuse_proxy`. -/
def serveKernel (s : System) (callee : Callee) (job : Job) : System :=
  let reply (msgtype : MsgType) (values : List UInt8) : Packet :=
    { msg := { msgtype, callid := callid 0, payload := values }, origin := job.origin }
  match sysFuse callee.fuseName (proxyArgs job.args) with
  | .error _ => s.panic .kernel
  | .ok result =>
      let s := s.record .host job.origin (sysFuse callee.fuseName job.args)
      match result with
      | .ok vals => s.post .host (reply .ret vals)
      | .error vals => s.post .host (reply .error vals)

/-- One of the requests being served is finished. -/
def serve (s : System) (side : Side) (j : Nat) (callee : Callee) : Option System := do
  let job ← (s.get side).jobs[j]?
  let s := s.set side { s.get side with jobs := (s.get side).jobs.eraseIdx j }
  match side with
  | .host => return s.serveHost callee job
  | .kernel => return s.serveKernel callee job

end System

/-! ### Runs -/

inductive Action where
  | call (side : Side) (fuse : Bool) (args : List UInt8)
  | send (side : Side) (i : Nat)
  | register (side : Side) (i : Nat)
  | receive (side : Side) (callee : Callee)
  | serve (side : Side) (j : Nat) (callee : Callee)

def Action.side : Action → Side
  | .call side .. | .send side .. | .register side .. | .receive side .. | .serve side .. => side

namespace System

/-- One step of one party, unless it has panicked. -/
def step (s : System) (a : Action) : Option System :=
  if (s.get a.side).panicked then none
  else
    match a with
    | .call side fuse args => some (s.call side fuse args)
    | .send side i => s.send side i
    | .register side i => s.register side i
    | .receive side callee => s.receive side callee
    | .serve side j callee => s.serve side j callee

def Step (s s' : System) : Prop := ∃ a, s.step a = some s'

abbrev Reaches : System → System → Prop := Relation.ReflTransGen Step

end System

/-! ### Matching -/

def Packet.IsReply (packet : Packet) : Prop :=
  packet.msg.msgtype = .ret ∨ packet.msg.msgtype = .error

instance : DecidablePred Packet.IsReply := fun _ => inferInstanceAs (Decidable (_ ∨ _))

/-- The message that reports an outcome. -/
def replyType : Outcome → MsgType
  | .ok _ => .ret
  | .error _ => .error

def replyValues : Outcome → List UInt8
  | .ok values => values
  | .error values => values

/-- The call was answered with what its own request came to. -/
def Call.Answered (c : Call) : Prop :=
  ∀ msgtype values, c.stage = .done msgtype values →
    ∃ o, c.outcome = some o ∧ msgtype = replyType o ∧ values = replyValues o

/-- Calls are matched with their replies: no party has panicked, a reply that is
next in its channel has its call registered, and a call that has its reply has the
outcome of its own request. -/
def System.Matched (s : System) : Prop :=
  ∀ side, (s.get side).panicked = false ∧
    (∀ packet ∈ (s.get side).inbox.head?, packet.IsReply →
      ((s.get side).queue.lookup packet.msg.callid).isSome) ∧
    ∀ c ∈ (s.get side).calls, c.Answered

end Faastr.Ivshrpc.Rpc
