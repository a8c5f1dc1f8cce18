import Faastr.Ivshrpc.Stream

/-!
Waking the receiver: the interrupt of `write_msg`, and the receive loop that runs
once for each interrupt taken.

`write_msg` raises the interrupt while the handle of its message is still open:
the tail is published when the handle goes out of scope, at the end of the
function. A receiver that takes the interrupt between the two finds nothing and
returns. The interrupt is a flag, as the status register of the device and the
counter of the event descriptor are: raised twice before it is taken, it is taken
once.

* `no_message_stranded`: if no interrupt is taken between raising and publishing,
  nor while the receiver runs, no message is ever left behind.
* `message_stranded`: otherwise one can be.
-/

namespace Faastr.Ivshrpc

open Faastr.Lib Faastr.Ringbuf

/-- A stream with its interrupt. -/
structure Channel where
  stream : Stream
  /-- An interrupt is raised and not yet taken. -/
  interrupt : Bool
  /-- `write_msg` has raised the interrupt, and has not yet dropped its handle. -/
  notified : Bool
deriving DecidableEq, Repr

namespace Channel

def start (data : List UInt8) (msgs : List Msg) : Channel :=
  { stream := Stream.start data msgs, interrupt := false, notified := false }

/-- The message is in its handle, and `send_interrupt` is next. -/
def ready (w : Channel) : Bool :=
  match w.stream.ring.producer with
  | .handle n _ => n ≤ w.stream.filled && !w.notified
  | _ => false

/-- The next step of `write_msg`. -/
def send (w : Channel) : Option Channel :=
  if w.ready then some { w with interrupt := true, notified := true }
  else w.stream.send.map fun stream => { w with stream, notified := false }

/-- The next step of the receive loop. -/
def receive (w : Channel) : Option Channel :=
  w.stream.receive.map fun stream => { w with stream }

/-- The receiver takes the interrupt and enters its loop. If it is in it already,
`isr` fails to lock the consumer and returns. -/
def take (w : Channel) : Option Channel :=
  if w.interrupt then
    some { w with stream := w.stream.enter.getD w.stream, interrupt := false }
  else none

inductive Move where
  | send
  | receive
  | take
deriving DecidableEq, Repr

def move (w : Channel) : Move → Option Channel
  | .send => w.send
  | .receive => w.receive
  | .take => w.take

def Step (w w' : Channel) : Prop := ∃ a, w.move a = some w'

abbrev Reaches : Channel → Channel → Prop := Relation.ReflTransGen Step

/-- A step at which an interrupt, if one is taken, finds its message published and
the receiver outside its loop. -/
def CarefulStep (w w' : Channel) : Prop :=
  ∃ a, (a = .take → w.notified = false ∧ w.stream.stage = .returned) ∧ w.move a = some w'

abbrev CarefulReaches : Channel → Channel → Prop := Relation.ReflTransGen CarefulStep

/-- The ring holds a complete message at its head. -/
def Unread (w : Channel) (m : Msg) : Prop :=
  w.stream.ring.head + m.frame.length ≤ w.stream.ring.tail ∧
    window w.stream.ring.data w.stream.ring.head m.frame.length = m.frame

instance (w : Channel) : DecidablePred w.Unread := fun _ => inferInstanceAs (Decidable (_ ∧ _))

/-- A message is in the ring, and nothing is under way that would have it received:
no `write_msg` in progress, no interrupt pending, the receiver not running. -/
def Stranded (w : Channel) : Prop :=
  w.stream.ring.producer = .idle ∧ w.interrupt = false ∧ w.stream.stage = .returned ∧
    ∃ m, w.Unread m

/-! ### The receiver will look -/

end Channel

namespace Stream

variable {cap : Nat} {msgs done pending : List Msg} {s s' : Stream}

/-- The receiver will see a message that is in the ring by now before it returns. -/
def WillLook (s : Stream) : Prop :=
  match s.stage, s.ring.consumer with
  | .returned, _ | .panicked, _ | .second, .idle => False
  -- The last reload of a `try_read` is not looked at.
  | .second, .check (.tryRead k) n _ => 0 < k ∨ s.ring.head + n ≤ s.ring.shadowTail
  | .second, .reload (.tryRead k) _ _ => 0 < k
  | _, _ => True

theorem willLook_first (hs : s.stage = .first) : s.WillLook := by
  unfold WillLook
  rw [hs]
  trivial

theorem willLook_body {h : MsgHeader} (hs : s.stage = .body h) : s.WillLook := by
  unfold WillLook
  rw [hs]
  trivial

/-- Outside its last `try_read` the receiver will look again. -/
theorem willLook_receive (h : s.Inv cap msgs done pending) (hs : s.stage ≠ .second)
    (hstep : s.receive = some s') : s'.WillLook := by
  have hok := h.receiverOk
  unfold ReceiverOk at hok
  cases hstage : s.stage with
  | returned =>
    rw [hstage] at hok
    simp [receive, hok.1, hstage] at hstep
  | top =>
    rw [hstage] at hok
    rw [receive_top hok.1 hstage] at hstep
    cases hstep
    exact willLook_first rfl
  | first =>
    rw [hstage] at hok
    cases hpc : s.ring.consumer with
    | idle =>
      rw [receive_first hpc hstage] at hstep
      cases hstep
      exact .inl Nat.one_pos
    | check call n c =>
      rw [receive_check hpc] at hstep
      cases hstep
      exact willLook_first hstage
    | reload call n c =>
      rw [receive_reload hpc] at hstep
      cases hstep
      exact willLook_first hstage
    | handle n c =>
      rw [hpc] at hok
      obtain ⟨rfl, hhead⟩ := hok
      obtain ⟨m, rest, -, hread⟩ := h.readHeader_eq hpc hhead
      rw [receive_header hpc (.inl hstage) hread] at hstep
      cases hstep
      trivial
    | _ =>
      rw [hpc] at hok
      exact hok.1.elim
  | second => exact absurd hstage hs
  | header hdr =>
    rw [hstage] at hok
    obtain ⟨⟨c, hpc⟩, -⟩ := hok
    rw [receive_dropHeader hpc hstage] at hstep
    cases hstep
    trivial
  | bodyCall hdr =>
    rw [hstage] at hok
    rw [receive_bodyCall hok.1 hstage] at hstep
    cases hstep
    trivial
  | body hdr =>
    rw [hstage] at hok
    obtain ⟨hwaits, hhead, m, rest, hpending, rfl⟩ := hok
    cases hpc : s.ring.consumer with
    | check call n c =>
      rw [receive_check hpc] at hstep
      cases hstep
      exact willLook_body hstage
    | reload call n c =>
      rw [receive_reload hpc] at hstep
      cases hstep
      exact willLook_body hstage
    | handle n c =>
      rw [hpc] at hwaits
      cases hwaits
      rw [receive_body hpc hstage (h.readBody_eq hpending hpc hhead)] at hstep
      cases hstep
      trivial
    | _ =>
      rw [hpc] at hwaits
      exact hwaits.elim
  | deliver m =>
    rw [hstage] at hok
    obtain ⟨⟨c, hpc⟩, -⟩ := hok
    rw [receive_deliver hpc hstage] at hstep
    cases hstep
    trivial
  | panicked =>
    rw [hstage] at hok
    exact hok.elim

/-- In its last `try_read` the receiver sees a message that it was to see. -/
theorem inv_look_second (h : s.Inv cap msgs done pending) (hs : s.stage = .second)
    (hlook : s.WillLook ∨ pending = []) (hstep : s.receive = some s') :
    s'.Inv cap msgs done pending ∧ (s'.WillLook ∨ pending = []) := by
  have hok := h.receiverOk
  unfold ReceiverOk at hok
  rw [hs] at hok
  obtain ⟨hpolls, hhead⟩ := hok
  unfold WillLook at hlook
  rw [hs] at hlook
  cases hpc : s.ring.consumer with
  | idle =>
    rw [hpc] at hlook
    rw [receive_second hpc hs] at hstep
    have h' := inv_receive_same h (receive_second hpc hs) rfl
    cases hstep
    exact ⟨h', .inr (hlook.resolve_left id)⟩
  | check call n c =>
    rw [hpc] at hpolls hlook
    cases call with
    | read => exact hpolls.elim
    | tryRead k =>
      have hsame := receive_check hpc
      by_cases hshort : s.ring.short c n = true
      · rw [if_pos hshort] at hsame
        have h' := inv_receive_same h hsame rfl
        rw [hsame] at hstep
        cases hstep
        refine ⟨h', ?_⟩
        unfold WillLook
        simp only [hs]
        rcases hlook with (hk | hthere) | hnil
        · exact .inl hk
        · exact absurd (h.not_short hpc hthere) (by rw [hshort]; decide)
        · exact .inr hnil
      · rw [if_neg hshort] at hsame
        have h' := inv_receive_same h hsame rfl
        rw [hsame] at hstep
        cases hstep
        refine ⟨h', .inl ?_⟩
        unfold WillLook
        simp only [hs]
  | reload call n c =>
    rw [hpc] at hpolls hlook
    have hsame := receive_reload hpc
    rw [hsame] at hstep
    have h' := inv_receive_same h hsame rfl
    cases hstep
    refine ⟨h', ?_⟩
    cases call with
    | read => exact hpolls.elim
    | tryRead k =>
      subst hpolls
      cases k with
      | zero => exact .inr (hlook.resolve_left (Nat.lt_irrefl 0))
      | succ k =>
        cases pending with
        | nil => exact .inr rfl
        | cons m rest =>
          have hthere := h.there (Nat.zero_le _) hhead
          have hsize : headerSize ≤ m.frameSize := Nat.le_add_right _ _
          unfold WillLook
          simp only [hs, ReadCall.afterReload]
          have hroom : s.ring.head + headerSize ≤ s.ring.tail := by omega
          exact .inl (.inr hroom)
  | handle n c =>
    rw [hpc] at hpolls
    cases hpolls
    obtain ⟨m, rest, -, hread⟩ := h.readHeader_eq hpc hhead
    have hsame := receive_header hpc (.inr hs) hread
    rw [hsame] at hstep
    have h' := inv_receive_same h hsame rfl
    cases hstep
    exact ⟨h', .inl trivial⟩
  | _ =>
    rw [hpc] at hpolls
    exact hpolls.elim

/-- **What the receiver was to see it still will, or has received.** -/
theorem inv_look (h : s.Inv cap msgs done pending) (hlook : s.WillLook ∨ pending = [])
    (hstep : s.receive = some s') :
    ∃ pending', s'.Inv cap msgs done pending' ∧ (s'.WillLook ∨ pending' = []) := by
  by_cases hs : s.stage = .second
  · exact ⟨pending, inv_look_second h hs hlook hstep⟩
  · obtain ⟨pending', h'⟩ := inv_receive h hstep
    exact ⟨pending', h', .inl (willLook_receive h hs hstep)⟩

/-- The sender takes no part in it. -/
theorem WillLook.frame (h : s.WillLook) (hstage : s'.stage = s.stage)
    (hconsumer : s'.ring.consumer = s.ring.consumer) (hhead : s'.ring.head = s.ring.head)
    (htail : s'.ring.shadowTail = s.ring.shadowTail) : s'.WillLook := by
  unfold WillLook at h ⊢
  rw [hstage, hconsumer, hhead, htail]
  exact h

/-- What a step of the sender does not touch; unless its handle is full, it also
leaves the messages to send. -/
theorem send_frame (hstep : s.send = some s') :
    s'.stage = s.stage ∧ s'.received = s.received ∧ s'.ring.consumer = s.ring.consumer ∧
      s'.ring.head = s.ring.head ∧ s'.ring.shadowTail = s.ring.shadowTail ∧
      ((∀ n t, s.ring.producer = .handle n t → s.filled < n) → s'.todo = s.todo) := by
  cases htodo : s.todo with
  | nil => simp [send, htodo] at hstep
  | cons m rest =>
    cases hpc : s.ring.producer with
    | idle =>
      rw [send_idle htodo hpc] at hstep
      cases hstep
      exact ⟨rfl, rfl, rfl, rfl, rfl, fun _ => htodo⟩
    | check c n t =>
      rw [send_check htodo hpc] at hstep
      cases hstep
      exact ⟨rfl, rfl, rfl, rfl, rfl, fun _ => htodo⟩
    | reload c n t =>
      rw [send_reload htodo hpc] at hstep
      cases hstep
      exact ⟨rfl, rfl, rfl, rfl, rfl, fun _ => htodo⟩
    | handle n t =>
      by_cases hlen : m.frame.length = n
      · by_cases hlt : s.filled < n
        · rw [send_fill htodo hpc hlen hlt] at hstep
          cases hstep
          dsimp only
          split <;> exact ⟨rfl, rfl, rfl, rfl, rfl, fun _ => htodo⟩
        · rw [send_publish htodo hpc hlen (Nat.not_lt.mp hlt)] at hstep
          cases hstep
          exact ⟨rfl, rfl, rfl, rfl, rfl, fun hfilled => absurd (hfilled n t rfl) hlt⟩
      · rw [send_cut htodo hpc hlen] at hstep
        cases hstep
        exact ⟨rfl, rfl, rfl, rfl, rfl, fun _ => htodo⟩
    | panicked n t => simp [send, htodo, hpc] at hstep
    | dead => simp [send, htodo, hpc] at hstep

end Stream

/-! ### The invariant -/

namespace Channel

variable {cap : Nat} {msgs done pending : List Msg} {w w' : Channel}

/-- A message in the ring will be seen, or an interrupt is pending that will have
it seen. -/
structure Inv (cap : Nat) (msgs done pending : List Msg) (w : Channel) : Prop where
  stream : w.stream.Inv cap msgs done pending
  notified : w.notified = true → w.interrupt = true
  seen : w.interrupt = true ∨ w.stream.WillLook ∨ pending = []

theorem ready_eq_false (hready : w.ready = false) (hnotified : w.notified = false) :
    ∀ n t, w.stream.ring.producer = .handle n t → w.stream.filled < n := by
  intro n t hpc
  rw [ready, hpc, hnotified] at hready
  simpa using hready

theorem inv_send (h : w.Inv cap msgs done pending) (hstep : w.send = some w') :
    ∃ done' pending', w'.Inv cap msgs done' pending' := by
  unfold send at hstep
  by_cases hready : w.ready = true
  · rw [if_pos hready] at hstep
    cases hstep
    exact ⟨done, pending, h.stream, fun _ => rfl, .inl rfl⟩
  · rw [if_neg hready] at hstep
    obtain ⟨s, hsend, rfl⟩ := Option.map_eq_some_iff.mp hstep
    obtain ⟨hstage, hreceived, hconsumer, hhead, htail, htodo⟩ := Stream.send_frame hsend
    by_cases hnotified : w.notified = true
    · obtain ⟨done', pending', h'⟩ := Stream.inv_send h.stream hsend
      exact ⟨done', pending', h', nofun, .inl (h.notified hnotified)⟩
    · -- Nothing is published without an interrupt.
      have hsame := htodo (ready_eq_false (by simpa using hready) (by simpa using hnotified))
      refine ⟨done, pending, Stream.inv_send_same h.stream hsend hsame hreceived, nofun, ?_⟩
      exact h.seen.imp_right (Or.imp_left fun hlook => hlook.frame hstage hconsumer hhead htail)

theorem inv_receive (h : w.Inv cap msgs done pending) (hstep : w.receive = some w') :
    ∃ pending', w'.Inv cap msgs done pending' := by
  obtain ⟨s, hreceive, rfl⟩ := Option.map_eq_some_iff.mp hstep
  rcases h.seen with hinterrupt | hlook
  · obtain ⟨pending', h'⟩ := Stream.inv_receive h.stream hreceive
    exact ⟨pending', h', h.notified, .inl hinterrupt⟩
  · obtain ⟨pending', h', hlook'⟩ := Stream.inv_look h.stream hlook hreceive
    exact ⟨pending', h', h.notified, .inr hlook'⟩

/-- An interrupt taken by a receiver that is outside its loop makes it look. -/
theorem inv_take (h : w.Inv cap msgs done pending) (hnotified : w.notified = false)
    (hstage : w.stream.stage = .returned) (hstep : w.take = some w') :
    w'.Inv cap msgs done pending := by
  have henter : w.stream.enter = some { w.stream with stage := .top } := if_pos hstage
  unfold take at hstep
  split at hstep
  · cases hstep
    refine ⟨?_, ?_, ?_⟩
    · rw [henter]
      exact Stream.inv_enter h.stream henter
    · intro hno
      rw [hnotified] at hno
      cases hno
    · rw [henter]
      exact .inr (.inl trivial)
  · cases hstep

/-- **Every careful run keeps the invariant.** -/
theorem inv_of_carefulReaches (h : w.Inv cap msgs done pending) (hrun : w.CarefulReaches w') :
    ∃ done' pending', w'.Inv cap msgs done' pending' := by
  refine invariant_of_step (fun x => ∃ done' pending', x.Inv cap msgs done' pending') hrun
    ⟨done, pending, h⟩ ?_
  rintro a b ⟨done', pending', ha⟩ ⟨act, hcareful, hstep⟩
  cases act with
  | send => exact inv_send ha hstep
  | receive => exact ⟨done', inv_receive ha hstep⟩
  | take =>
    obtain ⟨hnotified, hstage⟩ := hcareful rfl
    exact ⟨done', pending', inv_take ha hnotified hstage hstep⟩

/-- If all that is in the ring will be seen, nothing is stranded. -/
theorem Inv.not_stranded (h : w.Inv cap msgs done pending) : ¬ w.Stranded := by
  rintro ⟨-, hinterrupt, hstage, m, hfits, -⟩
  have hnil : pending = [] := by
    rcases h.seen with hyes | hlook | hnil
    · rw [hinterrupt] at hyes
      cases hyes
    · unfold Stream.WillLook at hlook
      rw [hstage] at hlook
      exact hlook.elim
    · exact hnil
  subst hnil
  have hempty := h.stream.empty (.inr hstage)
  have hpos : 0 < m.frame.length := by
    rw [Msg.frame, List.length_append, MsgHeader.toSlice_length, headerSize]
    omega
  omega

/-- **No message is stranded if interrupts are taken with care.** Whatever the
messages and the interleaving: if every interrupt is taken when its message has
been published and the receiver is outside its loop, then in every state of the
run a message in the ring is one that somebody will still see to. -/
theorem no_message_stranded (data : List UInt8) (msgs : List Msg)
    (hpow : ∃ k, data.length = 2 ^ k) (hcap : data.length < 2 ^ 62)
    (total : (frames msgs).length < 2 ^ 63) {w : Channel}
    (hrun : (start data msgs).CarefulReaches w) : ¬ w.Stranded := by
  have hstart : (start data msgs).Inv data.length msgs [] [] :=
    ⟨Stream.inv_start hpow hcap total, nofun, .inr (.inr rfl)⟩
  obtain ⟨done, pending, h⟩ := inv_of_carefulReaches hstart hrun
  exact h.not_stranded

/-! ### A run that strands a message -/

theorem CarefulReaches.reaches (hrun : w.CarefulReaches w') : w.Reaches w' :=
  Relation.ReflTransGen.mono (fun _ _ ⟨a, _, hstep⟩ => ⟨a, hstep⟩) _ _ hrun

theorem reaches_of_moves (as : List Move) (run : as.foldlM move w = some w') : w.Reaches w' :=
  reaches_of_foldlM (fun a _ _ _ hstep => ⟨a, hstep⟩) run

theorem carefulReaches_of_moves (as : List Move) (hno : .take ∉ as)
    (run : as.foldlM move w = some w') : w.CarefulReaches w' :=
  reaches_of_foldlM (fun a ha _ _ hstep => ⟨a, fun htake => absurd (htake ▸ ha) hno, hstep⟩) run

theorem carefulReaches_receive {s : Stream} (hstep : w.stream.receive = some s) :
    w.CarefulReaches { w with stream := s } :=
  .single ⟨.receive, nofun, by simp only [move, receive, hstep, Option.map_some]⟩

/-- The channel with its receiver elsewhere, and up to date with the tail. -/
def withReceiver (w : Channel) (pc : ConsumerPc) (stage : Stage) : Channel :=
  { w with
    stream := { w.stream with
      ring := { w.stream.ring with consumer := pc, shadowTail := w.stream.ring.tail }
      stage } }

/-- A `try_read` that has to wait uses up its reloads and gives up. -/
theorem polls_out {n c : Nat} (hshort : wsub w.stream.ring.tail c < n) (stage : Stage) :
    ∀ k, (w.withReceiver (.check (.tryRead k) n c) stage).CarefulReaches
      (w.withReceiver .idle stage) := by
  intro k
  have hcheck : ∀ k, (w.withReceiver (.check (.tryRead k) n c) stage).CarefulReaches
      (w.withReceiver (.reload (.tryRead k) n c) stage) := by
    intro k
    have hstep := Stream.receive_check
      (s := (w.withReceiver (.check (.tryRead k) n c) stage).stream) rfl
    have hno : (w.withReceiver (.check (.tryRead k) n c) stage).stream.ring.short c n = true :=
      decide_eq_true hshort
    rw [if_pos hno] at hstep
    exact carefulReaches_receive hstep
  have hreload : ∀ k, (w.withReceiver (.reload (.tryRead k) n c) stage).CarefulReaches
      (w.withReceiver ((ReadCall.tryRead k).afterReload n c) stage) := by
    intro k
    exact carefulReaches_receive (Stream.receive_reload
      (s := (w.withReceiver (.reload (.tryRead k) n c) stage).stream) rfl)
  induction k with
  | zero => exact (hcheck 0).trans (hreload 0)
  | succ k ih => exact ((hcheck (k + 1)).trans (hreload (k + 1))).trans ih

/-- On an empty ring the receiver goes through its loop once and returns. -/
theorem returns_empty (hempty : w.stream.ring.head = w.stream.ring.tail)
    (hlt : w.stream.ring.tail < 2 ^ 64) :
    (w.withReceiver .idle .top).CarefulReaches (w.withReceiver .idle .returned) := by
  have hshort : wsub w.stream.ring.tail w.stream.ring.head < headerSize := by
    rw [hempty, wsub_eq (Nat.le_refl _) hlt, Nat.sub_self]
    decide
  have htop := carefulReaches_receive (w := w.withReceiver .idle .top)
    (Stream.receive_top rfl rfl)
  have hfirst := carefulReaches_receive (w := w.withReceiver .idle .first)
    (Stream.receive_first rfl rfl)
  have hsecond := carefulReaches_receive (w := w.withReceiver .idle .second)
    (Stream.receive_second rfl rfl)
  exact (htop.trans (polls_out hshort .first 1000)).trans
    ((hfirst.trans (polls_out hshort .second 1)).trans hsecond)

/-- A cast without arguments, on a ring of 16 bytes. -/
def sampleCast : Msg := ⟨.cast, 0, []⟩

/-- The cast is in its handle and the interrupt raised; the receiver has just
entered its loop. -/
def sampleRaised : Channel :=
  { stream :=
      { ring := { Ring.fresh (sampleCast.frame ++ [0, 0, 0]) with producer := .handle 13 0 }
        todo := [sampleCast], filled := 13, stage := .top, received := [] }
    interrupt := false, notified := true }

/-- The cast is published, and the receiver has returned. -/
def sampleStranded : Channel :=
  { stream :=
      { ring := { Ring.fresh (sampleCast.frame ++ [0, 0, 0]) with
          tail := 13, sent := sampleCast.frame }
        todo := [], filled := 0, stage := .returned, received := [] }
    interrupt := false, notified := false }

/-- A message is stranded: the receiver takes the interrupt, finds nothing and
returns before the message is published. -/
theorem message_stranded :
    (start (List.replicate 16 0) [sampleCast]).Reaches sampleStranded ∧
      sampleStranded.Stranded := by
  have hraise : (start (List.replicate 16 0) [sampleCast]).Reaches sampleRaised :=
    reaches_of_moves (List.replicate 16 .send ++ [.take]) (by decide)
  have hreturn : sampleRaised.Reaches (sampleRaised.withReceiver .idle .returned) :=
    (returns_empty (w := sampleRaised) rfl (by decide)).reaches
  have hpublish : (sampleRaised.withReceiver .idle .returned).Step sampleStranded :=
    ⟨.send, by decide⟩
  exact ⟨(hraise.trans hreturn).tail hpublish, rfl, rfl, rfl, sampleCast, by decide⟩

/-- The cast is published and received; the receiver is at the top of its loop. -/
def sampleReceived : Channel :=
  { stream :=
      { ring := { Ring.fresh (sampleCast.frame ++ [0, 0, 0]) with
          head := 13, tail := 13, shadowTail := 13, sent := sampleCast.frame
          taken := sampleCast.frame }
        todo := [], filled := 0, stage := .top, received := [sampleCast] }
    interrupt := false, notified := false }

/-- The interrupt is taken after publishing: the receiver returns with the cast. -/
theorem sampleCast_not_stranded :
    ¬ (sampleReceived.withReceiver .idle .returned).Stranded := by
  have hsend : (start (List.replicate 16 0) [sampleCast]).CarefulReaches
      { sampleStranded with interrupt := true } :=
    carefulReaches_of_moves (List.replicate 17 .send) (by decide) (by decide)
  have htake : { sampleStranded with interrupt := true }.CarefulStep
      { sampleStranded with stream := { sampleStranded.stream with stage := .top } } :=
    ⟨.take, fun _ => ⟨rfl, rfl⟩, by decide⟩
  have hreceive : { sampleStranded with
      stream := { sampleStranded.stream with stage := .top } }.CarefulReaches sampleReceived :=
    carefulReaches_of_moves (List.replicate 10 .receive) (by decide) (by decide)
  have hreturn := returns_empty (w := sampleReceived) rfl (by decide)
  exact no_message_stranded (List.replicate 16 0) [sampleCast] ⟨4, rfl⟩ (by decide) (by decide)
    (((hsend.tail htake).trans hreceive).trans hreturn)

end Channel

end Faastr.Ivshrpc
