import Faastr.Ivshrpc.Header
import Faastr.Ringbuf.Safety

/-!
The message stream over one ring: `write_msg` on one side, the receive loop of
`isr` and `listener` on the other (`kernel/src/devices/ivshmem.rs`,
`ivshrpcd/src/bin/main.rs`).

The senders of a side are serialised by the lock of its producer, so they are one
sender with a list of messages to send. Both sides go through the steps of the
ring's own operations; between these a sender fills its handle byte by byte, and
the receiver reads a header, then as many bytes as the header says. Sender and
receiver are deterministic, and a run is any interleaving of the two.

A handle whose slice runs over the end of the data area panics when it is used.
`Stream.Inv` holds in every run: the receiver never panics, and what it has
received is always a prefix of what was sent; the sender panics at a message that
does not fit before the end.
-/

namespace Faastr.Ivshrpc

open Faastr.Lib Faastr.Ringbuf

/-- Where the receiver is in its loop. -/
inductive Stage where
  /-- Outside the loop. -/
  | returned
  | top
  /-- In the first `try_read` of a header, with 1000 reloads. -/
  | first
  /-- In the last `try_read` of a header, with one reload. -/
  | second
  /-- The header is read, its handle still open. -/
  | header (h : MsgHeader)
  | bodyCall (h : MsgHeader)
  /-- In the `read` of the payload. -/
  | body (h : MsgHeader)
  /-- The message is handled, the handle of its payload still open. -/
  | deliver (m : Msg)
  | panicked
deriving DecidableEq, Repr

structure Stream where
  ring : Ring
  /-- The messages not sent yet, the first of them perhaps in progress. -/
  todo : List Msg
  /-- How much of the open handle is filled. -/
  filled : Nat
  stage : Stage
  received : List Msg
deriving DecidableEq, Repr

/-- Nothing sent yet on a fresh ring. -/
def Stream.start (data : List UInt8) (msgs : List Msg) : Stream :=
  { ring := Ring.fresh data, todo := msgs, filled := 0, stage := .returned, received := [] }

/-! ### The two sides -/

/-- The next step of `write_msg`, if there is something to send. -/
def Stream.send (s : Stream) : Option Stream :=
  match s.todo with
  | [] => none
  | m :: rest =>
      match s.ring.producer with
      | .idle => (s.ring.produce (.write m.frameSize)).map fun ring => { s with ring }
      | .check _ _ _ => (s.ring.produce .check).map fun ring => { s with ring }
      | .reload _ _ _ => (s.ring.produce .reloadHead).map fun ring => { s with ring }
      | .handle n t =>
          if m.frame.length ≠ n then
            -- The encoder panics: the length was cut, and its slice is too short for it.
            some { s with ring := { s.ring with producer := .panicked n t } }
          else if s.filled < n then
            (s.ring.produce (.fill s.filled (m.frame.getD s.filled 0))).map fun ring =>
              { s with ring, filled := s.filled + 1 }
          else
            -- The handle goes out of scope.
            (s.ring.produce .publishTail).map fun ring =>
              { s with ring, todo := rest, filled := 0 }
      | .panicked _ _ | .dead => none

/-- The header in an open handle. -/
def Stream.readHeader (s : Stream) (n c : Nat) : Checked MsgHeader := do
  MsgHeader.fromSlice (← s.ring.handleSlice c n)

/-- The message of a header and an open handle. -/
def Stream.readBody (s : Stream) (h : MsgHeader) (n c : Nat) : Checked Msg := do
  let payload ← s.ring.handleSlice c n
  match MsgType.fromU8 h.msgtype with
  | some msgtype => return { msgtype, callid := h.callid, payload }
  | none => .error .unwrap

/-- The next step of the receive loop. -/
def Stream.receive (s : Stream) : Option Stream :=
  match s.ring.consumer, s.stage with
  | .check _ _ _, _ => (s.ring.consume .check).map fun ring => { s with ring }
  | .reload _ _ _, _ => (s.ring.consume .reloadTail).map fun ring => { s with ring }
  | .idle, .top =>
      (s.ring.consume (.tryRead headerSize 1000)).map fun ring => { s with ring, stage := .first }
  | .idle, .first =>
      (s.ring.consume (.tryRead headerSize 1)).map fun ring => { s with ring, stage := .second }
  | .idle, .second => some { s with stage := .returned }
  | .handle n c, .first | .handle n c, .second =>
      match s.readHeader n c with
      | .ok h => some { s with stage := .header h }
      | .error _ => some { s with stage := .panicked }
  | .handle _ _, .header h =>
      (s.ring.consume .publishHead).map fun ring => { s with ring, stage := .bodyCall h }
  | .idle, .bodyCall h =>
      (s.ring.consume (.read h.length.toNat)).map fun ring => { s with ring, stage := .body h }
  | .handle n c, .body h =>
      match s.readBody h n c with
      | .ok m => some { s with stage := .deliver m }
      | .error _ => some { s with stage := .panicked }
  | .handle _ _, .deliver m =>
      (s.ring.consume .publishHead).map fun ring =>
        { s with ring, stage := .top, received := s.received ++ [m] }
  | _, _ => none

/-- The receive loop is entered again. -/
def Stream.enter (s : Stream) : Option Stream :=
  if s.stage = .returned then some { s with stage := .top } else none

inductive Move where
  | send
  | receive
  | enter
deriving DecidableEq, Repr

def Stream.move (s : Stream) : Move → Option Stream
  | .send => s.send
  | .receive => s.receive
  | .enter => s.enter

def Stream.Step (s s' : Stream) : Prop := ∃ a, s.move a = some s'

abbrev Stream.Reaches : Stream → Stream → Prop := Relation.ReflTransGen Stream.Step

/-- One of the two sides has panicked. -/
def Stream.Panicked (s : Stream) : Prop :=
  (∃ n t, s.ring.producer = .panicked n t) ∨ s.stage = .panicked

/-! ### Which messages fit -/

/-- The length of each message can be sent, and put at the place where the ones
before it end, it ends before the end of the data area. -/
def FitsFrom (capacity : Nat) : Nat → List Msg → Prop
  | _, [] => True
  | pos, m :: ms => (m.Short ∧ pos % capacity + m.frameSize ≤ capacity) ∧
      FitsFrom capacity (pos + m.frameSize) ms

instance decFitsFrom (capacity : Nat) : ∀ (pos : Nat) (ms : List Msg),
    Decidable (FitsFrom capacity pos ms)
  | _, [] => isTrue trivial
  | pos, m :: ms =>
      have := decFitsFrom capacity (pos + m.frameSize) ms
      inferInstanceAs (Decidable (_ ∧ _))

theorem fitsFrom_append (capacity : Nat) (bs : List Msg) : ∀ (as : List Msg) (pos : Nat),
    FitsFrom capacity pos (as ++ bs) ↔
      FitsFrom capacity pos as ∧ FitsFrom capacity (pos + (frames as).length) bs
  | [], pos => by simp [FitsFrom, frames]
  | m :: as, pos => by
      have ih := fitsFrom_append capacity bs as (pos + m.frameSize)
      simp only [List.cons_append, FitsFrom, ih, and_assoc]
      refine and_congr_right fun hshort => ?_
      have hpos : pos + (frames (m :: as)).length = pos + m.frameSize + (frames as).length := by
        rw [frames_cons, List.length_append, Msg.frame_length hshort]
        omega
      rw [hpos]

theorem short_of_fitsFrom {capacity : Nat} : ∀ {ms : List Msg} {pos : Nat},
    FitsFrom capacity pos ms → ∀ m ∈ ms, m.Short
  | [], _, _, _, hm => absurd hm (List.not_mem_nil)
  | m' :: ms, _, h, m, hm => by
      rcases List.mem_cons.mp hm with rfl | hm
      · exact h.1.1
      · exact short_of_fitsFrom h.2 m hm

/-! ### The invariant -/

/-- What the sender knows where it stands. -/
def Stream.SenderOk (s : Stream) : Prop :=
  match s.ring.producer with
  | .idle => s.filled = 0
  | .check c n _ | .reload c n _ =>
      s.filled = 0 ∧ c = .write ∧ ∃ m rest, s.todo = m :: rest ∧ n = m.frameSize
  | .handle n t => s.filled ≤ n ∧ ∃ m rest, s.todo = m :: rest ∧ n = m.frameSize ∧
      window s.ring.data t s.filled = m.frame.take s.filled ∧
      (0 < s.filled → m.Short ∧ t % s.ring.capacity + n ≤ s.ring.capacity)
  | .panicked n t => ∃ m rest, s.todo = m :: rest ∧ n = m.frameSize ∧
      ¬ (m.Short ∧ t % s.ring.capacity + n ≤ s.ring.capacity)
  | .dead => False

/-- The consumer is inside a call for `n` bytes that may give up. -/
def Polls (pc : ConsumerPc) (n : Nat) : Prop :=
  match pc with
  | .idle => True
  | .check (.tryRead _) n' _ | .reload (.tryRead _) n' _ | .handle n' _ => n' = n
  | _ => False

/-- The consumer is inside a call for `n` bytes that does not give up. -/
def Waits (pc : ConsumerPc) (n : Nat) : Prop :=
  match pc with
  | .check .read n' _ | .reload .read n' _ | .handle n' _ => n' = n
  | _ => False

/-- What the receiver knows where it stands, with the messages it has not received. -/
def Stream.ReceiverOk (pending : List Msg) (s : Stream) : Prop :=
  let pos := (frames s.received).length
  match s.stage with
  | .returned | .top => s.ring.consumer = .idle ∧ s.ring.head = pos
  | .first | .second => Polls s.ring.consumer headerSize ∧ s.ring.head = pos
  | .header h => (∃ c, s.ring.consumer = .handle headerSize c) ∧ s.ring.head = pos ∧
      ∃ m rest, pending = m :: rest ∧ h = m.header
  | .bodyCall h => s.ring.consumer = .idle ∧ s.ring.head = pos + headerSize ∧
      ∃ m rest, pending = m :: rest ∧ h = m.header
  | .body h => Waits s.ring.consumer h.length.toNat ∧ s.ring.head = pos + headerSize ∧
      ∃ m rest, pending = m :: rest ∧ h = m.header
  | .deliver m => (∃ c, s.ring.consumer = .handle m.header.length.toNat c) ∧
      s.ring.head = pos + headerSize ∧ ∃ rest, pending = m :: rest
  | .panicked => False

/-- The invariant on a ring of `cap` bytes, with the messages sent and those of
them not received. -/
structure Stream.Inv (cap : Nat) (msgs done pending : List Msg) (s : Stream) : Prop where
  total : (frames msgs).length < 2 ^ 63
  capacity : s.ring.capacity = cap
  safe : s.ring.Safe
  splits : msgs = done ++ s.todo
  splits' : done = s.received ++ pending
  sent : s.ring.sent = frames done
  fits : FitsFrom cap 0 done
  senderOk : s.SenderOk
  receiverOk : s.ReceiverOk pending

namespace Stream

variable {cap : Nat} {msgs done pending : List Msg} {s s' : Stream}

theorem Inv.frames_done_le (h : s.Inv cap msgs done pending) :
    (frames done).length < 2 ^ 63 := by
  have htotal := h.total
  rw [h.splits, frames_append, List.length_append] at htotal
  omega

theorem Inv.short (h : s.Inv cap msgs done pending) : ∀ m ∈ done, m.Short :=
  short_of_fitsFrom h.fits

/-- The receiver's part of the invariant depends on the receiver's part of the
state, and more messages may be pending. -/
theorem ReceiverOk.frame (more : List Msg) (h : s.ReceiverOk pending)
    (hconsumer : s'.ring.consumer = s.ring.consumer) (hhead : s'.ring.head = s.ring.head)
    (hstage : s'.stage = s.stage) (hreceived : s'.received = s.received) :
    s'.ReceiverOk (pending ++ more) := by
  unfold ReceiverOk at h ⊢
  rw [hconsumer, hhead, hstage, hreceived]
  split at h
  · exact h
  · exact h
  · exact h
  · exact h
  · obtain ⟨hpc, hpos, m, rest, rfl, hm⟩ := h
    exact ⟨hpc, hpos, m, rest ++ more, rfl, hm⟩
  · obtain ⟨hpc, hpos, m, rest, rfl, hm⟩ := h
    exact ⟨hpc, hpos, m, rest ++ more, rfl, hm⟩
  · obtain ⟨hpc, hpos, m, rest, rfl, hm⟩ := h
    exact ⟨hpc, hpos, m, rest ++ more, rfl, hm⟩
  · obtain ⟨hpc, hpos, rest, rfl⟩ := h
    exact ⟨hpc, hpos, rest ++ more, rfl⟩
  · exact h.elim

/-- The sender's part of the invariant depends on the sender's part of the state. -/
theorem SenderOk.frame (h : s.SenderOk) (hcapacity : s'.ring.capacity = s.ring.capacity)
    (hproducer : s'.ring.producer = s.ring.producer) (hdata : s'.ring.data = s.ring.data)
    (htodo : s'.todo = s.todo) (hfilled : s'.filled = s.filled) : s'.SenderOk := by
  unfold SenderOk at h ⊢
  rw [hcapacity, hproducer, hdata, htodo, hfilled]
  exact h

/-! ### The sender's steps -/

section Equations

variable {m : Msg} {rest : List Msg} {n t : Nat}

theorem send_idle (htodo : s.todo = m :: rest) (pc : s.ring.producer = .idle) :
    s.send = some { s with
      ring := { s.ring with producer := .check .write m.frameSize s.ring.tail } } := by
  simp only [send, htodo, pc, Ring.produce_write pc, Option.map_some]

theorem send_check (htodo : s.todo = m :: rest) {c : WriteCall}
    (pc : s.ring.producer = .check c n t) :
    s.send = some { s with
      ring := { s.ring with
        producer := if s.ring.full t n then c.onFull n t else .handle n t } } := by
  simp only [send, htodo, pc, Ring.produce_check pc, Option.map_some]

theorem send_reload (htodo : s.todo = m :: rest) {c : WriteCall}
    (pc : s.ring.producer = .reload c n t) :
    s.send = some { s with
      ring := { s.ring with
        shadowHead := s.ring.head, producer := .check c.afterReload n t } } := by
  simp only [send, htodo, pc, Ring.produce_reloadHead pc, Option.map_some]

theorem send_cut (htodo : s.todo = m :: rest) (pc : s.ring.producer = .handle n t)
    (hcut : m.frame.length ≠ n) :
    s.send = some { s with ring := { s.ring with producer := .panicked n t } } := by
  simp only [send, htodo, pc, if_pos hcut]

theorem send_fill (htodo : s.todo = m :: rest) (pc : s.ring.producer = .handle n t)
    (hlen : m.frame.length = n) (hlt : s.filled < n) :
    s.send = some { s with
      ring :=
        if s.ring.offset t + n ≤ s.ring.data.length then
          { s.ring with
            data := s.ring.data.set (s.ring.offset t + s.filled) (m.frame.getD s.filled 0) }
        else { s.ring with producer := .panicked n t }
      filled := s.filled + 1 } := by
  simp only [send, htodo, pc, if_neg (not_not.mpr hlen), if_pos hlt, Ring.produce_fill pc hlt]
  split <;> rfl

theorem send_publish (htodo : s.todo = m :: rest) (pc : s.ring.producer = .handle n t)
    (hlen : m.frame.length = n) (hfull : n ≤ s.filled) :
    s.send = some { s with ring := s.ring.publishTail n t .idle, todo := rest, filled := 0 } := by
  simp only [send, htodo, pc, if_neg (not_not.mpr hlen), if_neg (Nat.not_lt.mpr hfull),
    Ring.produce_publishTail pc, Option.map_some]

end Equations

/-- A step of the sender that publishes nothing. -/
theorem Inv.produces (h : s.Inv cap msgs done pending) {ring : Ring} {filled : Nat}
    (hstep : s.ring.Produces ring)
    (hsent : ring.sent = s.ring.sent) (ok : SenderOk { s with ring, filled }) :
    Inv cap msgs done pending { s with ring, filled } := by
  obtain ⟨hcap, hconsumer, hhead⟩ := hstep.frame
  have hlt := h.frames_done_le
  have hok : ReceiverOk (pending ++ []) { s with ring, filled } :=
    h.receiverOk.frame [] hconsumer hhead rfl rfl
  exact {
    total := h.total
    capacity := hcap.trans h.capacity
    safe := safe_of_produces h.safe hstep (by rw [hsent, h.sent]; exact hlt)
    splits := h.splits
    splits' := h.splits'
    sent := hsent.trans h.sent
    fits := h.fits
    senderOk := ok
    receiverOk := by rw [List.append_nil] at hok; exact hok }

/-- One more byte of the frame is in the handle. -/
theorem Inv.window_fill (h : s.Inv cap msgs done pending) {n t : Nat} {m : Msg} (hn : n = m.frameSize)
    (hm : m.Short) (hlt : s.filled < n) (fits : s.ring.offset t + n ≤ s.ring.data.length)
    (hwin : window s.ring.data t s.filled = m.frame.take s.filled) :
    window (s.ring.data.set (s.ring.offset t + s.filled) (m.frame.getD s.filled 0)) t
      (s.filled + 1) = m.frame.take (s.filled + 1) := by
  have hframe := Msg.frame_length hm
  rw [h.safe.offset_eq] at fits ⊢
  have hbyte : m.frame[s.filled]? = some (m.frame.getD s.filled 0) := by
    rw [List.getD_eq_getElem?_getD, List.getElem?_eq_getElem (by omega)]
    rfl
  rw [← add_mod_of_fits hlt fits, window_set_snoc (by omega), hwin, List.take_add_one, hbyte]
  rfl

/-- The handle is full and is published: one more message is sent. -/
theorem Inv.publish (h : s.Inv cap msgs done pending)
    {m : Msg} {rest : List Msg} {t : Nat} (htodo : s.todo = m :: rest)
    (hm : m.Short) (pc : s.ring.producer = .handle m.frameSize t)
    (hwin : window s.ring.data t m.frameSize = m.frame)
    (fits : t % s.ring.capacity + m.frameSize ≤ s.ring.capacity) :
    Inv cap msgs (done ++ [m]) (pending ++ [m])
      { s with ring := s.ring.publishTail m.frameSize t .idle, todo := rest, filled := 0 } := by
  obtain ⟨rfl, -⟩ := h.safe.handle_bounds (.inl pc)
  have hsent : (s.ring.publishTail m.frameSize s.ring.tail .idle).sent = frames (done ++ [m]) := by
    show s.ring.sent ++ window s.ring.data s.ring.tail m.frameSize = frames (done ++ [m])
    rw [hwin, h.sent, frames_append, frames_cons]
    simp [frames]
  have hsplits : msgs = done ++ [m] ++ rest := by rw [h.splits, htodo]; simp
  have hlt : (frames (done ++ [m])).length < 2 ^ 63 := by
    have htotal := h.total
    rw [hsplits, frames_append (done ++ [m]), List.length_append] at htotal
    omega
  have htail : s.ring.tail = (frames done).length := by rw [← h.sent, h.safe.sentLength]
  exact {
    total := h.total
    capacity := h.capacity
    safe := safe_of_publishTail h.safe (.inl pc) (.inl rfl) (by rw [hsent]; exact hlt)
    splits := hsplits
    splits' := by rw [h.splits', List.append_assoc]
    sent := hsent
    fits := by
      rw [h.capacity] at fits
      rw [fitsFrom_append, Nat.zero_add, ← htail]
      exact ⟨h.fits, ⟨hm, fits⟩, trivial⟩
    senderOk := rfl
    receiverOk := h.receiverOk.frame [m] rfl rfl rfl rfl }

/-- **A step of the sender keeps the invariant.** -/
theorem inv_send (h : s.Inv cap msgs done pending) (hstep : s.send = some s') :
    ∃ done' pending', s'.Inv cap msgs done' pending' := by
  have hok := h.senderOk
  unfold SenderOk at hok
  cases htodo : s.todo with
  | nil => simp [send, htodo] at hstep
  | cons m rest =>
    rw [htodo] at hok
    cases hpc : s.ring.producer with
    | idle =>
      rw [hpc] at hok
      rw [send_idle htodo hpc] at hstep
      cases hstep
      exact ⟨done, pending, h.produces (.call .write _ m.frameSize_lt hpc) rfl
        ⟨hok, rfl, m, rest, htodo, rfl⟩⟩
    | check c n t =>
      rw [hpc] at hok
      obtain ⟨hzero, rfl, m', rest', heq, rfl⟩ := hok
      cases heq
      rw [send_check htodo hpc] at hstep
      cases hstep
      refine ⟨done, pending, ?_⟩
      split
      · exact h.produces (.toReload _ _ t hpc) rfl ⟨hzero, rfl, m, rest, htodo, rfl⟩
      · rename_i hroom
        refine h.produces (.grant _ _ t hpc (by simpa using hroom)) rfl ?_
        refine ⟨by simp only [hzero]; omega, m, rest, htodo, rfl, ?_, ?_⟩
        · simp only [hzero]
          rfl
        · simp only [hzero]
          omega
    | reload c n t =>
      rw [hpc] at hok
      obtain ⟨hzero, rfl, m', rest', heq, rfl⟩ := hok
      cases heq
      rw [send_reload htodo hpc] at hstep
      cases hstep
      exact ⟨done, pending, h.produces (.reload _ _ _ t hpc) rfl
        ⟨hzero, rfl, m, rest, htodo, rfl⟩⟩
    | handle n t =>
      rw [hpc] at hok
      obtain ⟨hle, m', rest', heq, rfl, hwin, hfits⟩ := hok
      cases heq
      by_cases hm : m.Short
      · have hlen := Msg.frame_length hm
        by_cases hlt : s.filled < m.frameSize
        · rw [send_fill htodo hpc hlen hlt] at hstep
          cases hstep
          refine ⟨done, pending, ?_⟩
          split
          · rename_i fits
            refine h.produces (.fill _ t _ _ hpc fits hlt) rfl ?_
            have hwin' := h.window_fill rfl hm hlt fits hwin
            rw [h.safe.offset_eq, h.safe.dataLength] at fits
            unfold SenderOk
            simp only [hpc]
            exact ⟨hlt, m, rest, htodo, rfl, hwin', fun _ => ⟨hm, fits⟩⟩
          · rename_i hover
            rw [h.safe.offset_eq, h.safe.dataLength] at hover
            exact h.produces (.panic _ t hpc) rfl ⟨m, rest, htodo, rfl, fun hno => hover hno.2⟩
        · rw [send_publish htodo hpc hlen (Nat.not_lt.mp hlt)] at hstep
          cases hstep
          have hfilled : s.filled = m.frameSize := by omega
          have hpos := m.frameSize_pos
          rw [hfilled, List.take_of_length_le (Nat.le_of_eq hlen)] at hwin
          exact ⟨done ++ [m], pending ++ [m],
            h.publish htodo hm hpc hwin (hfits (by omega)).2⟩
      · rw [send_cut htodo hpc (fun hlen => hm ((Msg.frame_length_iff m).mp hlen))] at hstep
        cases hstep
        exact ⟨done, pending, h.produces (.panic _ t hpc) rfl
          ⟨m, rest, htodo, rfl, fun hno => hm hno.1⟩⟩
    | panicked n t => simp [send, htodo, hpc] at hstep
    | dead => simp [send, htodo, hpc] at hstep

/-! ### What the receiver reads -/

/-- The unread bytes are the frames of the pending messages, from the head on. -/
theorem Inv.unread (h : s.Inv cap msgs done pending) (k : Nat)
    (hhead : s.ring.head = (frames s.received).length + k) :
    s.ring.sent.drop s.ring.head = (frames pending).drop k := by
  rw [h.sent, h.splits', frames_append, hhead, ← List.drop_drop, List.drop_left]

/-- The place of the first pending message fits. -/
theorem Inv.fits_pending (h : s.Inv cap msgs done pending) {m : Msg}
    {rest : List Msg} (hpending : pending = m :: rest) :
    (frames s.received).length % s.ring.capacity + m.frameSize ≤ s.ring.capacity := by
  have hfits := h.fits
  rw [h.splits', fitsFrom_append, hpending, Nat.zero_add] at hfits
  rw [h.capacity]
  exact hfits.2.1.2

/-- **A header is read as it was sent.** -/
theorem Inv.readHeader_eq (h : s.Inv cap msgs done pending) {c : Nat}
    (pc : s.ring.consumer = .handle headerSize c)
    (hhead : s.ring.head = (frames s.received).length) :
    ∃ m rest, pending = m :: rest ∧ s.readHeader headerSize c = .ok m.header := by
  obtain ⟨rfl, hle⟩ := h.safe.readHandle_bounds (.inl pc)
  have htail := h.safe.shadowTail_le
  have hlen := h.safe.sentLength
  have hunread := h.unread 0 (by omega)
  cases hpending : pending with
  | nil =>
    have hnil := congrArg List.length hunread
    rw [List.length_drop, hpending] at hnil
    simp only [frames, List.flatMap_nil, List.drop_nil, List.length_nil, headerSize] at hnil hle
    omega
  | cons m rest =>
    refine ⟨m, rest, rfl, ?_⟩
    have hfits := h.fits_pending hpending
    have hoff : s.ring.offset s.ring.head + headerSize ≤ s.ring.capacity := by
      rw [h.safe.offset_eq, h.safe.dataLength, hhead]
      unfold Msg.frameSize at hfits
      omega
    have hslice := h.safe.fifo.2.1 _ _ pc hoff
    rw [hunread, hpending, frames_cons, List.drop_zero, Msg.frame, List.append_assoc,
      List.take_left' m.header.toSlice_length] at hslice
    simp only [readHeader, hslice, bind, Except.bind]
    exact m.header.fromSlice_toSlice

/-- **A message is read as it was sent.** -/
theorem Inv.readBody_eq (h : s.Inv cap msgs done pending) {m : Msg}
    {rest : List Msg} {c : Nat} (hpending : pending = m :: rest)
    (pc : s.ring.consumer = .handle m.header.length.toNat c)
    (hhead : s.ring.head = (frames s.received).length + headerSize) :
    s.readBody m.header m.header.length.toNat c = .ok m := by
  obtain ⟨rfl, hle⟩ := h.safe.readHandle_bounds (.inl pc)
  have hm : m.Short := h.short m (by rw [h.splits', hpending]; simp)
  have hfits := h.fits_pending hpending
  have hlen := Msg.length_eq hm
  have hoff : s.ring.offset s.ring.head + m.header.length.toNat ≤ s.ring.capacity := by
    rw [h.safe.offset_eq, h.safe.dataLength, hhead]
    rcases Nat.eq_zero_or_pos m.header.length.toNat with hzero | hpos
    · have hmod := Nat.mod_lt ((frames s.received).length + headerSize)
        (show 0 < s.ring.capacity by have := m.frameSize_pos; omega)
      omega
    · have hadd := add_mod_of_fits (show headerSize < m.frameSize by unfold Msg.frameSize; omega)
        hfits
      unfold Msg.frameSize at hfits
      omega
  have hslice := h.safe.fifo.2.1 _ _ pc hoff
  rw [h.unread headerSize hhead, hpending, frames_cons, Msg.frame, List.append_assoc,
    List.drop_left' m.header.toSlice_length, hlen, List.take_left] at hslice
  simp only [readBody, hlen, hslice, bind, Except.bind]
  show (match MsgType.fromU8 m.msgtype.toU8 with
    | some msgtype => Except.ok ⟨msgtype, m.callid, m.payload⟩
    | none => Except.error Fault.unwrap) = Except.ok m
  rw [MsgType.fromU8_toU8]

/-! ### The receiver's steps -/

section Equations

variable {h : MsgHeader} {m : Msg} {n c : Nat}

theorem receive_check {call : ReadCall} (pc : s.ring.consumer = .check call n c) :
    s.receive = some { s with
      ring := { s.ring with
        consumer := if s.ring.short c n then .reload call n c else .handle n c } } := by
  simp only [receive, pc, Ring.consume_check pc, Option.map_some]

theorem receive_reload {call : ReadCall} (pc : s.ring.consumer = .reload call n c) :
    s.receive = some { s with
      ring := { s.ring with
        shadowTail := s.ring.tail, consumer := call.afterReload n c } } := by
  simp only [receive, pc, Ring.consume_reloadTail pc, Option.map_some]

theorem receive_top (pc : s.ring.consumer = .idle) (hs : s.stage = .top) :
    s.receive = some { s with
      ring := { s.ring with consumer := .check (.tryRead 1000) headerSize s.ring.head }
      stage := .first } := by
  simp only [receive, pc, hs, Ring.consume_tryRead pc, Option.map_some]

theorem receive_first (pc : s.ring.consumer = .idle) (hs : s.stage = .first) :
    s.receive = some { s with
      ring := { s.ring with consumer := .check (.tryRead 1) headerSize s.ring.head }
      stage := .second } := by
  simp only [receive, pc, hs, Ring.consume_tryRead pc, Option.map_some]

theorem receive_second (pc : s.ring.consumer = .idle) (hs : s.stage = .second) :
    s.receive = some { s with stage := .returned } := by
  simp only [receive, pc, hs]

theorem receive_header (pc : s.ring.consumer = .handle n c)
    (hs : s.stage = .first ∨ s.stage = .second) (hread : s.readHeader n c = .ok h) :
    s.receive = some { s with stage := .header h } := by
  rcases hs with hs | hs <;> simp only [receive, pc, hs, hread]

theorem receive_dropHeader (pc : s.ring.consumer = .handle n c) (hs : s.stage = .header h) :
    s.receive = some { s with ring := s.ring.publishHead n c .idle, stage := .bodyCall h } := by
  simp only [receive, pc, hs, Ring.consume_publishHead pc, Option.map_some]

theorem receive_bodyCall (pc : s.ring.consumer = .idle) (hs : s.stage = .bodyCall h) :
    s.receive = some { s with
      ring := { s.ring with consumer := .check .read h.length.toNat s.ring.head }
      stage := .body h } := by
  simp only [receive, pc, hs, Ring.consume_read pc, Option.map_some]

theorem receive_body (pc : s.ring.consumer = .handle n c) (hs : s.stage = .body h)
    (hread : s.readBody h n c = .ok m) : s.receive = some { s with stage := .deliver m } := by
  simp only [receive, pc, hs, hread]

theorem receive_deliver (pc : s.ring.consumer = .handle n c) (hs : s.stage = .deliver m) :
    s.receive = some { s with
      ring := s.ring.publishHead n c .idle, stage := .top, received := s.received ++ [m] } := by
  simp only [receive, pc, hs, Ring.consume_publishHead pc, Option.map_some]

end Equations

/-- A step of the receiver that goes on with the same message. -/
theorem Inv.consumes (h : s.Inv cap msgs done pending)
    {ring : Ring} {stage : Stage} {received pending' : List Msg} (hstep : s.ring.Consumes ring)
    (hsplits : done = received ++ pending')
    (ok : ReceiverOk pending' { s with ring, stage, received }) :
    Inv cap msgs done pending' { s with ring, stage, received } := by
  obtain ⟨hcap, hproducer, hdata, hsent, -⟩ := hstep.frame
  have hlt := h.frames_done_le
  exact {
    total := h.total
    capacity := hcap.trans h.capacity
    safe := safe_of_consumes h.safe (by rw [h.sent]; exact hlt) hstep
    splits := h.splits
    splits' := hsplits
    sent := hsent.trans h.sent
    fits := h.fits
    senderOk := h.senderOk.frame hcap hproducer hdata rfl rfl
    receiverOk := ok }

/-- The invariant while the receiver polls for a header. -/
theorem inv_poll (h : s.Inv cap msgs done pending)
    (hs : s.stage = .first ∨ s.stage = .second)
    (hstep : s.receive = some s') : ∃ pending', s'.Inv cap msgs done pending' := by
  have hok : Polls s.ring.consumer headerSize ∧ s.ring.head = (frames s.received).length := by
    have hok := h.receiverOk
    unfold ReceiverOk at hok
    rcases hs with hs | hs <;> rw [hs] at hok <;> exact hok
  have keep : ∀ {ring : Ring}, Polls ring.consumer headerSize → ring.head = s.ring.head →
      ReceiverOk pending { s with ring } := by
    intro ring hpolls hhead
    unfold ReceiverOk
    rcases hs with hs | hs <;> simp only [hs, hhead] <;> exact ⟨hpolls, hok.2⟩
  obtain ⟨hpolls, hhead⟩ := hok
  unfold Polls at hpolls
  cases hpc : s.ring.consumer with
  | idle =>
    rcases hs with hs | hs
    · rw [receive_first hpc hs] at hstep
      cases hstep
      exact ⟨pending, h.consumes (.call _ _ (by decide) hpc) h.splits' ⟨rfl, hhead⟩⟩
    · rw [receive_second hpc hs] at hstep
      cases hstep
      exact ⟨pending, h.consumes .look h.splits' ⟨hpc, hhead⟩⟩
  | check call n c =>
    rw [hpc] at hpolls
    cases call with
    | read => exact hpolls.elim
    | tryRead times =>
      rw [receive_check hpc] at hstep
      cases hstep
      refine ⟨pending, ?_⟩
      split
      · exact h.consumes (.toReload _ n c hpc) h.splits' (keep hpolls rfl)
      · rename_i hthere
        exact h.consumes (.grant _ n c hpc (by simpa using hthere)) h.splits'
          (keep hpolls rfl)
  | reload call n c =>
    rw [hpc] at hpolls
    cases call with
    | read => exact hpolls.elim
    | tryRead times =>
      rw [receive_reload hpc] at hstep
      cases hstep
      cases times with
      | zero =>
        exact ⟨pending, h.consumes (.giveUp _ n c hpc) h.splits' (keep trivial rfl)⟩
      | succ times =>
        exact ⟨pending, h.consumes (.reload _ _ n c hpc) h.splits' (keep hpolls rfl)⟩
  | handle n c =>
    rw [hpc] at hpolls
    cases hpolls
    obtain ⟨m, rest, hpending, hread⟩ := h.readHeader_eq hpc hhead
    rw [receive_header hpc hs hread] at hstep
    cases hstep
    exact ⟨pending, h.consumes .look h.splits'
      ⟨⟨c, hpc⟩, hhead, m, rest, hpending, rfl⟩⟩
  | _ =>
    rw [hpc] at hpolls
    exact hpolls.elim

/-- The invariant while the receiver waits for a payload. -/
theorem inv_wait (h : s.Inv cap msgs done pending)
    {hdr : MsgHeader} (hs : s.stage = .body hdr)
    (hstep : s.receive = some s') : ∃ pending', s'.Inv cap msgs done pending' := by
  have hok := h.receiverOk
  unfold ReceiverOk at hok
  rw [hs] at hok
  obtain ⟨hwaits, hhead, m, rest, hpending, rfl⟩ := hok
  have keep : ∀ {ring : Ring}, Waits ring.consumer m.header.length.toNat →
      ring.head = s.ring.head → ReceiverOk pending { s with ring } := by
    intro ring hwaits hhead'
    unfold ReceiverOk
    simp only [hs, hhead']
    exact ⟨hwaits, hhead, m, rest, hpending, rfl⟩
  unfold Waits at hwaits
  cases hpc : s.ring.consumer with
  | check call n c =>
    rw [hpc] at hwaits
    cases call with
    | tryRead times => exact hwaits.elim
    | read =>
      rw [receive_check hpc] at hstep
      cases hstep
      refine ⟨pending, ?_⟩
      split
      · exact h.consumes (.toReload _ n c hpc) h.splits' (keep hwaits rfl)
      · rename_i hthere
        exact h.consumes (.grant _ n c hpc (by simpa using hthere)) h.splits'
          (keep hwaits rfl)
  | reload call n c =>
    rw [hpc] at hwaits
    cases call with
    | tryRead times => exact hwaits.elim
    | read =>
      rw [receive_reload hpc] at hstep
      cases hstep
      exact ⟨pending, h.consumes (.reload _ _ n c hpc) h.splits' (keep hwaits rfl)⟩
  | handle n c =>
    rw [hpc] at hwaits
    cases hwaits
    have hread := h.readBody_eq hpending hpc hhead
    rw [receive_body hpc hs hread] at hstep
    cases hstep
    exact ⟨pending, h.consumes .look h.splits' ⟨⟨c, hpc⟩, hhead, rest, hpending⟩⟩
  | _ =>
    rw [hpc] at hwaits
    exact hwaits.elim

/-- The head after a read handle of `n` bytes is dropped. -/
theorem Inv.publishHead_head (h : s.Inv cap msgs done pending)
    {n c : Nat} (pc : s.ring.consumer = .handle n c) :
    (s.ring.publishHead n c .idle).head = s.ring.head + n := by
  obtain ⟨rfl, hle⟩ := h.safe.readHandle_bounds (.inl pc)
  have htail := h.safe.shadowTail_le
  have hlen := h.safe.sentLength
  have hlt := h.frames_done_le
  rw [h.sent] at hlen
  exact wadd_eq (by omega)

/-- **A step of the receiver keeps the invariant.** -/
theorem inv_receive (h : s.Inv cap msgs done pending)
    (hstep : s.receive = some s') :
    ∃ pending', s'.Inv cap msgs done pending' := by
  have hok := h.receiverOk
  unfold ReceiverOk at hok
  cases hs : s.stage with
  | returned =>
    rw [hs] at hok
    simp [receive, hok.1, hs] at hstep
  | top =>
    rw [hs] at hok
    rw [receive_top hok.1 hs] at hstep
    cases hstep
    exact ⟨pending, h.consumes (.call _ _ (by decide) hok.1) h.splits' ⟨rfl, hok.2⟩⟩
  | first => exact inv_poll h (.inl hs) hstep
  | second => exact inv_poll h (.inr hs) hstep
  | header hdr =>
    rw [hs] at hok
    obtain ⟨⟨c, hpc⟩, hhead, m, rest, hpending, rfl⟩ := hok
    rw [receive_dropHeader hpc hs] at hstep
    cases hstep
    have hhead' := h.publishHead_head hpc
    exact ⟨pending, h.consumes (.publish _ c (.inl hpc) .idle (.inl rfl)) h.splits'
      ⟨rfl, by rw [hhead', hhead], m, rest, hpending, rfl⟩⟩
  | bodyCall hdr =>
    rw [hs] at hok
    obtain ⟨hpc, hhead, m, rest, hpending, rfl⟩ := hok
    rw [receive_bodyCall hpc hs] at hstep
    cases hstep
    have hsmall : m.header.length.toNat < 2 ^ 62 :=
      Nat.lt_trans m.header.length.toNat_lt (by decide)
    exact ⟨pending, h.consumes (.call _ _ hsmall hpc) h.splits'
      ⟨rfl, hhead, m, rest, hpending, rfl⟩⟩
  | body hdr => exact inv_wait h hs hstep
  | deliver m =>
    rw [hs] at hok
    obtain ⟨⟨c, hpc⟩, hhead, rest, hpending⟩ := hok
    rw [receive_deliver hpc hs] at hstep
    cases hstep
    have hhead' := h.publishHead_head hpc
    have hm := Msg.frame_length (h.short m (by rw [h.splits', hpending]; simp))
    refine ⟨rest, h.consumes (.publish _ c (.inl hpc) .idle (.inl rfl)) ?_ ⟨rfl, ?_⟩⟩
    · rw [h.splits', hpending]
      simp
    · rw [hhead', hhead, frames_append, List.length_append]
      unfold Msg.frameSize at hm
      simp only [frames, List.flatMap_cons, List.flatMap_nil, List.append_nil, hm]
      omega
  | panicked =>
    rw [hs] at hok
    exact hok.elim

/-! ### Steps between messages -/

/-- A step of the receiver that receives nothing leaves the same messages pending. -/
theorem inv_receive_same (h : s.Inv cap msgs done pending) (hstep : s.receive = some s')
    (hreceived : s'.received = s.received) : s'.Inv cap msgs done pending := by
  obtain ⟨pending', h'⟩ := inv_receive h hstep
  have heq : s.received ++ pending' = s.received ++ pending := by
    rw [← h.splits', ← hreceived, ← h'.splits']
  rw [List.append_cancel_left heq] at h'
  exact h'

/-- Enough bytes are known to be there, so the read is granted. -/
theorem Inv.not_short (h : s.Inv cap msgs done pending) {call : ReadCall} {n c : Nat}
    (pc : s.ring.consumer = .check call n c) (hthere : s.ring.head + n ≤ s.ring.shadowTail) :
    s.ring.short c n = false := by
  have hok := h.safe.consumerOk
  unfold Ring.ConsumerOk at hok
  rw [pc] at hok
  have hlt := h.frames_done_le
  have hlen := h.safe.sentLength
  have htail := h.safe.shadowTail_le
  rw [h.sent] at hlen
  subst hok
  rw [Header.short_eq, wsub_eq h.safe.head_le (by omega), decide_eq_false_iff_not]
  omega

/-- The bytes of the message at the head are in the ring. -/
theorem Inv.there {m : Msg} {rest : List Msg} (h : s.Inv cap msgs done (m :: rest)) {k : Nat} (hk : k ≤ m.frameSize)
    (hhead : s.ring.head = (frames s.received).length + k) :
    s.ring.head + (m.frameSize - k) ≤ s.ring.tail := by
  have hm := Msg.frame_length (h.short m (by rw [h.splits']; simp))
  have hlen := h.safe.sentLength
  rw [h.sent, h.splits', frames_append, frames_cons, List.length_append, List.length_append] at hlen
  omega

/-- Between messages, with nothing pending, the ring is empty. -/
theorem Inv.empty (h : s.Inv cap msgs done []) (hs : s.stage = .top ∨ s.stage = .returned) :
    s.ring.head = s.ring.tail := by
  have hhead : s.ring.head = (frames s.received).length := by
    have hok := h.receiverOk
    unfold ReceiverOk at hok
    rcases hs with hs | hs <;> rw [hs] at hok <;> exact hok.2
  have hlen := h.safe.sentLength
  rw [h.sent, h.splits', List.append_nil] at hlen
  exact hhead.trans hlen

/-- A step of the sender that publishes nothing leaves the same messages sent. -/
theorem inv_send_same (h : s.Inv cap msgs done pending) (hstep : s.send = some s')
    (htodo : s'.todo = s.todo) (hreceived : s'.received = s.received) :
    s'.Inv cap msgs done pending := by
  obtain ⟨done', pending', h'⟩ := inv_send h hstep
  have hdone : done' ++ s.todo = done ++ s.todo := by rw [← h.splits, ← htodo, ← h'.splits]
  have hpending : s.received ++ pending' = s.received ++ pending := by
    rw [← h.splits', ← List.append_cancel_right hdone, h'.splits', hreceived]
  rw [List.append_cancel_right hdone, List.append_cancel_left hpending] at h'
  exact h'

/-! ### Whole runs -/

/-- Entering the loop keeps the invariant. -/
theorem inv_enter (h : s.Inv cap msgs done pending) (hstep : s.enter = some s') :
    s'.Inv cap msgs done pending := by
  unfold enter at hstep
  split at hstep
  · rename_i hs
    cases hstep
    have hok := h.receiverOk
    unfold ReceiverOk at hok
    rw [hs] at hok
    exact h.consumes .look h.splits' hok
  · cases hstep

/-- **Every run keeps the invariant.** -/
theorem inv_of_reaches (h : s.Inv cap msgs done pending) (hrun : s.Reaches s') :
    ∃ done' pending', s'.Inv cap msgs done' pending' := by
  refine invariant_of_step (fun x => ∃ done' pending', x.Inv cap msgs done' pending') hrun
    ⟨done, pending, h⟩ ?_
  rintro a b ⟨done', pending', ha⟩ ⟨act, hstep⟩
  cases act with
  | send => exact inv_send ha hstep
  | receive => exact ⟨done', inv_receive ha hstep⟩
  | enter => exact ⟨done', pending', inv_enter ha hstep⟩

theorem inv_start {data : List UInt8} (hpow : ∃ k, data.length = 2 ^ k)
    (hcap : data.length < 2 ^ 62) (total : (frames msgs).length < 2 ^ 63) :
    (start data msgs).Inv data.length msgs [] [] where
  total := total
  capacity := rfl
  safe := safe_of_fresh hpow hcap
  splits := rfl
  splits' := rfl
  sent := rfl
  fits := trivial
  senderOk := rfl
  receiverOk := ⟨rfl, rfl⟩

end Stream

end Faastr.Ivshrpc
