import Faastr.Ivshrpc.Stream

/-!
Delivery: which sequences of messages get through.

A stream delivers its messages if, whatever the interleaving, nobody panics, what
was received is a prefix of what was sent, and from every state everything can
still be received. The last part needs progress: the receiver alone can always
empty the ring (`takes_all`), and on an empty ring the sender alone gets its next
message out, or panics if the message does not fit (`outcome`).

* `delivers_iff_fits`: messages get through exactly if none of them runs over the
  end of the data area.
-/

namespace Faastr.Ivshrpc.Stream

open Faastr.Lib Faastr.Ringbuf

variable {cap : Nat} {msgs done pending rest : List Msg} {s s' s₁ : Stream} {m : Msg}

/-! ### The receiver alone -/

/-- The receiver alone can get to the top of its loop, with `rest` left to receive. -/
def Takes (cap : Nat) (msgs done rest : List Msg) (s : Stream) : Prop :=
  ∃ s', s.Reaches s' ∧ s'.Inv cap msgs done rest ∧ s'.todo = s.todo ∧ s'.stage = .top

theorem Takes.of_receive (hstep : s.receive = some s₁) (htodo : s₁.todo = s.todo)
    (h : Takes cap msgs done rest s₁) : Takes cap msgs done rest s := by
  obtain ⟨s', hrun, hinv, htodo', hstage⟩ := h
  exact ⟨s', .head ⟨.receive, hstep⟩ hrun, hinv, htodo'.trans htodo, hstage⟩

theorem takes_deliver (h : s.Inv cap msgs done (m :: rest)) (hs : s.stage = .deliver m) :
    Takes cap msgs done rest s := by
  have hok := h.receiverOk
  unfold ReceiverOk at hok
  rw [hs] at hok
  obtain ⟨⟨c, hpc⟩, -⟩ := hok
  have hstep := receive_deliver hpc hs
  obtain ⟨pending', h'⟩ := inv_receive h hstep
  have heq : s.received ++ m :: rest = s.received ++ m :: pending' := by
    have hsplits := h'.splits'
    rw [h.splits'] at hsplits
    simpa using hsplits
  have hrest : rest = pending' := (List.cons.inj (List.append_cancel_left heq)).2
  subst hrest
  exact ⟨_, .single ⟨.receive, hstep⟩, h', rfl, rfl⟩

section Body

variable (h : s.Inv cap msgs done (m :: rest)) (hs : s.stage = .body m.header)

include h hs

theorem body_facts : Waits s.ring.consumer m.header.length.toNat ∧
    s.ring.head = (frames s.received).length + headerSize := by
  have hok := h.receiverOk
  unfold ReceiverOk at hok
  rw [hs] at hok
  exact ⟨hok.1, hok.2.1⟩

theorem takes_body_handle {n c : Nat} (pc : s.ring.consumer = .handle n c) :
    Takes cap msgs done rest s := by
  obtain ⟨hwaits, hhead⟩ := body_facts h hs
  rw [pc] at hwaits
  cases hwaits
  have hstep := receive_body pc hs (h.readBody_eq rfl pc hhead)
  exact .of_receive hstep rfl (takes_deliver (inv_receive_same h hstep rfl) rfl)

theorem takes_body_check {n c : Nat} (pc : s.ring.consumer = .check .read n c)
    (hthere : s.ring.head + n ≤ s.ring.shadowTail) : Takes cap msgs done rest s := by
  have hstep := receive_check pc
  rw [if_neg (by rw [h.not_short pc hthere]; decide)] at hstep
  exact .of_receive hstep rfl
    (takes_body_handle (inv_receive_same h hstep rfl) hs (n := n) (c := c) rfl)

theorem takes_body_reload {n c : Nat} (pc : s.ring.consumer = .reload .read n c) :
    Takes cap msgs done rest s := by
  obtain ⟨hwaits, hhead⟩ := body_facts h hs
  rw [pc] at hwaits
  cases hwaits
  have hthere := h.there (Nat.le_add_right _ _) hhead
  have hstep := receive_reload pc
  refine .of_receive hstep rfl
    (takes_body_check (inv_receive_same h hstep rfl) hs (c := c) rfl ?_)
  show s.ring.head + m.header.length.toNat ≤ s.ring.tail
  unfold Msg.frameSize at hthere
  omega

/-- Once its header is read, a message is received. -/
theorem takes_body : Takes cap msgs done rest s := by
  obtain ⟨hwaits, -⟩ := body_facts h hs
  unfold Waits at hwaits
  cases hpc : s.ring.consumer with
  | check call n c =>
    rw [hpc] at hwaits
    cases call with
    | tryRead times => exact hwaits.elim
    | read =>
      have hstep := receive_check hpc
      by_cases hshort : s.ring.short c n = true
      · rw [if_pos hshort] at hstep
        exact .of_receive hstep rfl
          (takes_body_reload (inv_receive_same h hstep rfl) hs (n := n) (c := c) rfl)
      · rw [if_neg hshort] at hstep
        exact .of_receive hstep rfl
          (takes_body_handle (inv_receive_same h hstep rfl) hs (n := n) (c := c) rfl)
  | reload call n c =>
    rw [hpc] at hwaits
    cases call with
    | tryRead times => exact hwaits.elim
    | read => exact takes_body_reload h hs hpc
  | handle n c => exact takes_body_handle h hs hpc
  | _ =>
    rw [hpc] at hwaits
    exact hwaits.elim

end Body

theorem takes_bodyCall (h : s.Inv cap msgs done (m :: rest)) (hs : s.stage = .bodyCall m.header) :
    Takes cap msgs done rest s := by
  have hok := h.receiverOk
  unfold ReceiverOk at hok
  rw [hs] at hok
  have hstep := receive_bodyCall hok.1 hs
  exact .of_receive hstep rfl (takes_body (inv_receive_same h hstep rfl) rfl)

theorem takes_header (h : s.Inv cap msgs done (m :: rest)) (hs : s.stage = .header m.header) :
    Takes cap msgs done rest s := by
  have hok := h.receiverOk
  unfold ReceiverOk at hok
  rw [hs] at hok
  obtain ⟨⟨c, hpc⟩, -⟩ := hok
  have hstep := receive_dropHeader hpc hs
  exact .of_receive hstep rfl (takes_bodyCall (inv_receive_same h hstep rfl) rfl)

/-- The receiver alone can get to the top of its loop. -/
def Settles (cap : Nat) (msgs done : List Msg) (s : Stream) : Prop :=
  ∃ rest, Takes cap msgs done rest s

theorem Settles.of_receive (hstep : s.receive = some s₁) (htodo : s₁.todo = s.todo)
    (h : Settles cap msgs done s₁) : Settles cap msgs done s := by
  obtain ⟨rest, h⟩ := h
  exact ⟨rest, h.of_receive hstep htodo⟩

theorem settles_top (h : s.Inv cap msgs done pending) (hs : s.stage = .top) :
    Settles cap msgs done s := ⟨pending, s, .refl, h, rfl, hs⟩

theorem settles_returned (h : s.Inv cap msgs done pending) (hs : s.stage = .returned) :
    Settles cap msgs done s := by
  have hstep : s.enter = some { s with stage := .top } := if_pos hs
  exact ⟨pending, _, .single ⟨.enter, hstep⟩, inv_enter h hstep, rfl, rfl⟩

/-- A granted header is followed by the rest of its message. -/
theorem takes_poll_handle (h : s.Inv cap msgs done pending) {n c : Nat}
    (hs : s.stage = .first ∨ s.stage = .second) (pc : s.ring.consumer = .handle n c) :
    ∃ m rest, pending = m :: rest ∧ Takes cap msgs done rest s := by
  have hok : Polls s.ring.consumer headerSize ∧ s.ring.head = (frames s.received).length := by
    have hok := h.receiverOk
    unfold ReceiverOk at hok
    rcases hs with hs | hs <;> rw [hs] at hok <;> exact hok
  obtain ⟨hpolls, hhead⟩ := hok
  rw [pc] at hpolls
  cases hpolls
  obtain ⟨m, rest, rfl, hread⟩ := h.readHeader_eq pc hhead
  have hstep := receive_header pc hs hread
  exact ⟨m, rest, rfl, .of_receive hstep rfl (takes_header (inv_receive_same h hstep rfl) rfl)⟩

section Poll

variable {st : Stage} (hst : st = .first ∨ st = .second)
  (hidle : ∀ {s : Stream}, s.Inv cap msgs done pending → s.stage = st → s.ring.consumer = .idle →
    Settles cap msgs done s)

include hst

theorem settles_poll_check (h : s.Inv cap msgs done pending) (hs : s.stage = st) {k n c : Nat}
    (pc : s.ring.consumer = .check (.tryRead k) n c)
    (hreload : ∀ {s : Stream}, s.Inv cap msgs done pending → s.stage = st →
      s.ring.consumer = .reload (.tryRead k) n c → Settles cap msgs done s) :
    Settles cap msgs done s := by
  have hstep := receive_check pc
  by_cases hshort : s.ring.short c n = true
  · rw [if_pos hshort] at hstep
    exact .of_receive hstep rfl (hreload (inv_receive_same h hstep rfl) hs rfl)
  · rw [if_neg hshort] at hstep
    obtain ⟨m, rest, -, htakes⟩ := takes_poll_handle (n := n) (c := c)
      (inv_receive_same h hstep rfl) (hs ▸ hst) rfl
    exact .of_receive hstep rfl ⟨rest, htakes⟩

include hidle

/-- Polling ends, with a message or without: the reloads are counted. -/
theorem settles_poll_reload {n c : Nat} : ∀ (k : Nat) {s : Stream}, s.Inv cap msgs done pending →
    s.stage = st → s.ring.consumer = .reload (.tryRead k) n c → Settles cap msgs done s
  | 0, s, h, hs, pc => by
      have hstep := receive_reload pc
      exact .of_receive hstep rfl (hidle (inv_receive_same h hstep rfl) hs rfl)
  | k + 1, s, h, hs, pc => by
      have hstep := receive_reload pc
      exact .of_receive hstep rfl (settles_poll_check hst (inv_receive_same h hstep rfl) hs
        (k := k) (n := n) (c := c) rfl (settles_poll_reload k))

theorem settles_poll (h : s.Inv cap msgs done pending) (hs : s.stage = st)
    (hpolls : Polls s.ring.consumer headerSize) : Settles cap msgs done s := by
  unfold Polls at hpolls
  cases hpc : s.ring.consumer with
  | idle => exact hidle h hs hpc
  | check call n c =>
    rw [hpc] at hpolls
    cases call with
    | read => exact hpolls.elim
    | tryRead k => exact settles_poll_check hst h hs hpc (settles_poll_reload hst hidle k)
  | reload call n c =>
    rw [hpc] at hpolls
    cases call with
    | read => exact hpolls.elim
    | tryRead k => exact settles_poll_reload hst hidle k h hs hpc
  | handle n c =>
    obtain ⟨m, rest, -, htakes⟩ := takes_poll_handle h (hs ▸ hst) hpc
    exact ⟨rest, htakes⟩
  | _ =>
    rw [hpc] at hpolls
    exact hpolls.elim

end Poll

theorem settles_second (h : s.Inv cap msgs done pending) (hs : s.stage = .second)
    (hpolls : Polls s.ring.consumer headerSize) : Settles cap msgs done s := by
  refine settles_poll (.inr rfl) ?_ h hs hpolls
  intro s h hs pc
  have hstep := receive_second pc hs
  exact .of_receive hstep rfl (settles_returned (inv_receive_same h hstep rfl) rfl)

theorem settles_first (h : s.Inv cap msgs done pending) (hs : s.stage = .first)
    (hpolls : Polls s.ring.consumer headerSize) : Settles cap msgs done s := by
  refine settles_poll (.inl rfl) ?_ h hs hpolls
  intro s h hs pc
  have hstep := receive_first pc hs
  exact .of_receive hstep rfl (settles_second (inv_receive_same h hstep rfl) rfl rfl)

theorem settles (h : s.Inv cap msgs done pending) : Settles cap msgs done s := by
  have hok := h.receiverOk
  unfold ReceiverOk at hok
  cases hs : s.stage with
  | returned => exact settles_returned h hs
  | top => exact settles_top h hs
  | first =>
    rw [hs] at hok
    exact settles_first h hs hok.1
  | second =>
    rw [hs] at hok
    exact settles_second h hs hok.1
  | header hdr =>
    rw [hs] at hok
    obtain ⟨-, -, m, rest, rfl, rfl⟩ := hok
    exact ⟨rest, takes_header h hs⟩
  | bodyCall hdr =>
    rw [hs] at hok
    obtain ⟨-, -, m, rest, rfl, rfl⟩ := hok
    exact ⟨rest, takes_bodyCall h hs⟩
  | body hdr =>
    rw [hs] at hok
    obtain ⟨-, -, m, rest, rfl, rfl⟩ := hok
    exact ⟨rest, takes_body h hs⟩
  | deliver m =>
    rw [hs] at hok
    obtain ⟨-, -, rest, rfl⟩ := hok
    exact ⟨rest, takes_deliver h hs⟩
  | panicked =>
    rw [hs] at hok
    exact hok.elim

section First

variable (h : s.Inv cap msgs done (m :: rest)) (hs : s.stage = .first)

include h hs

theorem takes_first_handle {n c : Nat} (pc : s.ring.consumer = .handle n c) :
    Takes cap msgs done rest s := by
  obtain ⟨m', rest', heq, htakes⟩ := takes_poll_handle h (.inl hs) pc
  cases heq
  exact htakes

theorem takes_first_ready {k n c : Nat} (pc : s.ring.consumer = .check (.tryRead k) n c)
    (hthere : s.ring.head + n ≤ s.ring.shadowTail) : Takes cap msgs done rest s := by
  have hstep := receive_check pc
  rw [if_neg (by rw [h.not_short pc hthere]; decide)] at hstep
  exact .of_receive hstep rfl
    (takes_first_handle (inv_receive_same h hstep rfl) hs (n := n) (c := c) rfl)

/-- A reload that is looked at again finds the message. -/
theorem takes_first_check {k n c : Nat} (pc : s.ring.consumer = .check (.tryRead (k + 1)) n c) :
    Takes cap msgs done rest s := by
  have hstep := receive_check pc
  by_cases hshort : s.ring.short c n = true
  · rw [if_pos hshort] at hstep
    have h₁ := inv_receive_same h hstep rfl
    refine .of_receive hstep rfl ?_
    have hok := h₁.receiverOk
    unfold ReceiverOk at hok
    simp only [hs] at hok
    obtain ⟨hn, hhead⟩ := hok
    cases hn
    have hthere := h₁.there (Nat.zero_le _) hhead
    have hreload := receive_reload (s := { s with
      ring := { s.ring with consumer := .reload (.tryRead (k + 1)) headerSize c } }) rfl
    refine .of_receive hreload rfl
      (takes_first_ready (inv_receive_same h₁ hreload rfl) hs (k := k) (c := c) rfl ?_)
    unfold Msg.frameSize at hthere
    show s.ring.head + headerSize ≤ s.ring.tail
    simp only at hthere
    omega
  · rw [if_neg hshort] at hstep
    exact .of_receive hstep rfl
      (takes_first_handle (inv_receive_same h hstep rfl) hs (n := n) (c := c) rfl)

end First

/-- From the top of the loop a pending message is received. -/
theorem takes_one (h : s.Inv cap msgs done (m :: rest)) (hs : s.stage = .top) :
    Takes cap msgs done rest s := by
  have hok := h.receiverOk
  unfold ReceiverOk at hok
  rw [hs] at hok
  have hstep := receive_top hok.1 hs
  exact .of_receive hstep rfl
    (takes_first_check (inv_receive_same h hstep rfl) rfl (k := 999) rfl)

/-- **The receiver alone can empty the ring.** -/
theorem takes_all (h : s.Inv cap msgs done pending) : Takes cap msgs done [] s := by
  obtain ⟨rest, htakes⟩ := settles h
  induction rest with
  | nil => exact htakes
  | cons m rest ih =>
    obtain ⟨s', hrun, hinv, htodo, hs⟩ := htakes
    obtain ⟨s'', hrun', hinv', htodo', hs'⟩ := takes_one hinv hs
    exact ih ⟨s'', hrun.trans hrun', hinv', htodo'.trans htodo, hs'⟩

/-! ### The sender alone, on an empty ring -/

/-- The length of the message can be sent, and at its place it ends before the end
of the data area. -/
def FitsHere (cap : Nat) (done : List Msg) (m : Msg) : Prop :=
  m.Short ∧ (frames done).length % cap + m.frameSize ≤ cap

theorem FitsHere.next (h : FitsHere cap done m) :
    (frames (done ++ [m])).length = (frames done).length + m.frameSize := by
  rw [frames_append, List.length_append, frames_cons]
  simp only [frames, List.flatMap_nil, List.append_nil, Msg.frame_length h.1]

/-- What becomes of the next message: it is sent if it fits, and the sender
panics if it does not. -/
structure Outcome (cap : Nat) (msgs done : List Msg) (m : Msg) (rest : List Msg) (s : Stream) :
    Prop where
  sends : FitsHere cap done m →
    ∃ s', s.Reaches s' ∧ s'.Inv cap msgs (done ++ [m]) [m] ∧ s'.todo = rest
  panics : ¬ FitsHere cap done m → ∃ s', s.Reaches s' ∧ s'.Panicked

theorem Outcome.of_send (hstep : s.send = some s₁) (h : Outcome cap msgs done m rest s₁) :
    Outcome cap msgs done m rest s where
  sends := by
    intro hfits
    obtain ⟨s', hrun, hs'⟩ := h.sends hfits
    exact ⟨s', .head ⟨.send, hstep⟩ hrun, hs'⟩
  panics := by
    intro hfits
    obtain ⟨s', hrun, hs'⟩ := h.panics hfits
    exact ⟨s', .head ⟨.send, hstep⟩ hrun, hs'⟩

section Sender

variable (h : s.Inv cap msgs done []) (hs : s.stage = .top) (htodo : s.todo = m :: rest)

include h htodo

theorem handle_facts {n t : Nat} (pc : s.ring.producer = .handle n t) :
    s.filled ≤ n ∧ n = m.frameSize ∧ t = (frames done).length ∧
      window s.ring.data t s.filled = m.frame.take s.filled ∧
      (0 < s.filled → FitsHere cap done m) := by
  obtain ⟨htail, -⟩ := h.safe.handle_bounds (.inl pc)
  have hlen := h.safe.sentLength
  rw [h.sent] at hlen
  have hok := h.senderOk
  unfold SenderOk at hok
  rw [pc, htodo, h.capacity] at hok
  obtain ⟨hle, m', rest', heq, rfl, hwin, hfits⟩ := hok
  cases heq
  refine ⟨hle, rfl, htail.trans hlen.symm, hwin, ?_⟩
  intro hpos
  unfold FitsHere
  rw [hlen, ← htail]
  exact hfits hpos

/-- An open handle is filled and published, or panics at its first byte. -/
theorem outcome_handle {n t : Nat} (pc : s.ring.producer = .handle n t) :
    Outcome cap msgs done m rest s := by
  obtain ⟨hle, rfl, rfl, hwin, hfits⟩ := handle_facts h htodo pc
  by_cases hm : m.Short
  · have hlen := Msg.frame_length hm
    -- Downward on the bytes left to fill.
    generalize hleft : m.frameSize - s.filled = left
    induction left generalizing s with
    | zero =>
      have hfull : m.frameSize ≤ s.filled := by omega
      have hpos := m.frameSize_pos
      have hfilled : s.filled = m.frameSize := by omega
      have hhere := hfits (by omega)
      rw [hfilled, List.take_of_length_le (Nat.le_of_eq hlen)] at hwin
      have h' := h.publish htodo hm pc hwin (by rw [h.capacity]; exact hhere.2)
      exact ⟨fun _ => ⟨_, .single ⟨.send, send_publish htodo pc hlen hfull⟩, h', rfl⟩,
        fun hno => absurd hhere hno⟩
    | succ left ih =>
      have hlt : s.filled < m.frameSize := by omega
      have hstep := send_fill htodo pc hlen hlt
      have hiff : s.ring.offset (frames done).length + m.frameSize ≤ s.ring.data.length ↔
          FitsHere cap done m := by
        rw [h.safe.offset_eq, h.safe.dataLength, h.capacity]
        exact (and_iff_right hm).symm
      by_cases hhere : FitsHere cap done m
      · rw [if_pos (hiff.mpr hhere)] at hstep
        have h' := inv_send_same h hstep rfl rfl
        obtain ⟨hle', -, -, hwin', hfits'⟩ := handle_facts h' htodo pc
        exact .of_send hstep (ih h' htodo hle' pc hwin' hfits' (by simp only; omega))
      · rw [if_neg (fun hno => hhere (hiff.mp hno))] at hstep
        exact ⟨fun hfits => absurd hfits hhere,
          fun _ => ⟨_, .single ⟨.send, hstep⟩, .inl ⟨_, _, rfl⟩⟩⟩
  · have hstep := send_cut htodo pc fun hlen => hm ((Msg.frame_length_iff m).mp hlen)
    exact ⟨fun hhere => absurd hhere.1 hm,
      fun _ => ⟨_, .single ⟨.send, hstep⟩, .inl ⟨_, _, rfl⟩⟩⟩

variable (hsize : m.frameSize < cap)

include hs hsize

/-- On an empty ring, a fresh copy of the head leaves room for the message. -/
theorem not_full {n t : Nat} (pc : s.ring.producer = .check .write n t)
    (hfresh : s.ring.shadowHead = s.ring.head) : s.ring.full t n = false := by
  have hempty := h.empty (.inl hs)
  have hlt := h.frames_done_le
  have hlen := h.safe.sentLength
  have hcap := h.safe.small
  have hok := h.senderOk
  have hok' := h.safe.producerOk
  unfold SenderOk at hok
  unfold Ring.ProducerOk at hok'
  rw [pc, htodo] at hok
  rw [pc] at hok'
  obtain ⟨-, -, m', rest', heq, rfl⟩ := hok
  cases heq
  obtain ⟨rfl, -⟩ := hok'
  rw [h.sent] at hlen
  rw [h.capacity] at hcap
  rw [Header.full_eq, hfresh, hempty, h.capacity, wadd_eq (by omega), wadd_eq (by omega),
    decide_eq_false_iff_not]
  omega

theorem outcome_fresh {n t : Nat} (pc : s.ring.producer = .check .write n t)
    (hfresh : s.ring.shadowHead = s.ring.head) : Outcome cap msgs done m rest s := by
  have hstep := send_check htodo pc
  rw [if_neg (by rw [not_full h hs htodo hsize pc hfresh]; decide)] at hstep
  exact .of_send hstep (outcome_handle (inv_send_same h hstep rfl rfl) htodo (n := n) (t := t) rfl)

theorem outcome_reload {n t : Nat} (pc : s.ring.producer = .reload .write n t) :
    Outcome cap msgs done m rest s := by
  have hstep := send_reload htodo pc
  exact .of_send hstep (outcome_fresh (inv_send_same h hstep rfl rfl) hs htodo hsize
    (n := n) (t := t) rfl rfl)

theorem outcome_check {n t : Nat} (pc : s.ring.producer = .check .write n t) :
    Outcome cap msgs done m rest s := by
  have hstep := send_check htodo pc
  by_cases hfull : s.ring.full t n = true
  · rw [if_pos hfull] at hstep
    exact .of_send hstep (outcome_reload (inv_send_same h hstep rfl rfl) hs htodo hsize
      (n := n) (t := t) rfl)
  · rw [if_neg hfull] at hstep
    exact .of_send hstep (outcome_handle (inv_send_same h hstep rfl rfl) htodo
      (n := n) (t := t) rfl)

/-- **On an empty ring the next message is sent, or the sender panics.** -/
theorem outcome : Outcome cap msgs done m rest s := by
  have hok := h.senderOk
  unfold SenderOk at hok
  cases hpc : s.ring.producer with
  | idle =>
    have hstep := send_idle htodo hpc
    exact .of_send hstep (outcome_check (inv_send_same h hstep rfl rfl) hs htodo hsize
      (n := m.frameSize) (t := s.ring.tail) rfl)
  | check c n t =>
    rw [hpc] at hok
    obtain ⟨-, rfl, -⟩ := hok
    exact outcome_check h hs htodo hsize hpc
  | reload c n t =>
    rw [hpc] at hok
    obtain ⟨-, rfl, -⟩ := hok
    exact outcome_reload h hs htodo hsize hpc
  | handle n t => exact outcome_handle h htodo hpc
  | panicked n t =>
    obtain ⟨htail, -⟩ := h.safe.handle_bounds (.inr hpc)
    have hlen := h.safe.sentLength
    rw [h.sent] at hlen
    rw [hpc, htodo, h.capacity, htail, ← hlen] at hok
    obtain ⟨m', rest', heq, rfl, hover⟩ := hok
    cases heq
    exact ⟨fun hfits => absurd hfits hover, fun _ => ⟨s, .refl, .inl ⟨_, _, hpc⟩⟩⟩
  | dead =>
    rw [hpc] at hok
    exact hok.elim

end Sender

/-! ### Which messages get through -/

/-- The messages get through from here: nobody has panicked, those received are
the first of them, and all can still be received. -/
def OnTrack (msgs : List Msg) (s : Stream) : Prop :=
  ¬ s.Panicked ∧ s.received <+: msgs ∧ ∃ s', s.Reaches s' ∧ s'.received = msgs

/-- Message stream integrity: in every state of every run. -/
def Delivers (data : List UInt8) (msgs : List Msg) : Prop :=
  ∀ s, (start data msgs).Reaches s → OnTrack msgs s

/-- If what is left to send fits, all can be received. -/
theorem completes : ∀ (todo : List Msg) {done pending : List Msg} {s : Stream},
    s.Inv cap msgs done pending → s.todo = todo → (∀ m ∈ todo, m.frameSize < cap) →
    FitsFrom cap (frames done).length todo →
    ∃ s', s.Reaches s' ∧ s'.received = msgs
  | [], done, pending, s, h, htodo, _, _ => by
      obtain ⟨s', hrun, hinv, htodo', -⟩ := takes_all h
      refine ⟨s', hrun, ?_⟩
      rw [hinv.splits, htodo', htodo, hinv.splits']
      simp
  | m :: rest, done, pending, s, h, htodo, hsize, hfits => by
      have hsize' := List.forall_mem_cons.mp hsize
      obtain ⟨s₁, hrun₁, h₁, htodo₁, hs₁⟩ := takes_all h
      obtain ⟨s₂, hrun₂, h₂, htodo₂⟩ := (outcome h₁ hs₁ (htodo₁.trans htodo) hsize'.1).sends hfits.1
      obtain ⟨s', hrun', hs'⟩ := completes rest h₂ htodo₂ hsize'.2
        (FitsHere.next hfits.1 ▸ hfits.2)
      exact ⟨s', (hrun₁.trans hrun₂).trans hrun', hs'⟩

/-- If something left to send does not fit, the sender can be made to panic. -/
theorem panics : ∀ (todo : List Msg) {done pending : List Msg} {s : Stream},
    s.Inv cap msgs done pending → s.todo = todo → (∀ m ∈ todo, m.frameSize < cap) →
    ¬ FitsFrom cap (frames done).length todo →
    ∃ s', s.Reaches s' ∧ s'.Panicked
  | [], _, _, _, _, _, _, hfits => absurd trivial hfits
  | m :: rest, done, pending, s, h, htodo, hsize, hfits => by
      have hsize' := List.forall_mem_cons.mp hsize
      obtain ⟨s₁, hrun₁, h₁, htodo₁, hs₁⟩ := takes_all h
      have hout := outcome h₁ hs₁ (htodo₁.trans htodo) hsize'.1
      by_cases hhere : FitsHere cap done m
      · obtain ⟨s₂, hrun₂, h₂, htodo₂⟩ := hout.sends hhere
        obtain ⟨s', hrun', hs'⟩ := panics rest h₂ htodo₂ hsize'.2
          fun hrest => hfits ⟨hhere, hhere.next ▸ hrest⟩
        exact ⟨s', (hrun₁.trans hrun₂).trans hrun', hs'⟩
      · obtain ⟨s', hrun', hs'⟩ := hout.panics hhere
        exact ⟨s', hrun₁.trans hrun', hs'⟩

/-- If all messages fit, nobody panics. -/
theorem Inv.not_panicked (h : s.Inv cap msgs done pending) (hfits : FitsFrom cap 0 msgs) :
    ¬ s.Panicked := by
  rintro (⟨n, t, hpc⟩ | hs)
  · obtain ⟨htail, -⟩ := h.safe.handle_bounds (.inr hpc)
    have hlen := h.safe.sentLength
    rw [h.sent] at hlen
    have hok := h.senderOk
    unfold SenderOk at hok
    rw [hpc, h.capacity, htail, ← hlen] at hok
    obtain ⟨m, rest, htodo, rfl, hover⟩ := hok
    rw [h.splits, htodo, fitsFrom_append, Nat.zero_add] at hfits
    exact hover hfits.2.1
  · have hok := h.receiverOk
    unfold ReceiverOk at hok
    rw [hs] at hok
    exact hok

section Delivery

variable {data : List UInt8} (hpow : ∃ k, data.length = 2 ^ k) (hcap : data.length < 2 ^ 62)
  (total : (frames msgs).length < 2 ^ 63)

include hpow hcap total

theorem delivers_of_fits (hsize : ∀ m ∈ msgs, m.frameSize < data.length)
    (hfits : FitsFrom data.length 0 msgs) : Delivers data msgs := by
  intro s hrun
  obtain ⟨done, pending, h⟩ := inv_of_reaches (inv_start hpow hcap total) hrun
  refine ⟨h.not_panicked hfits, ?_, ?_⟩
  · rw [h.splits, h.splits', List.append_assoc]
    exact List.prefix_append _ _
  · rw [h.splits, fitsFrom_append, Nat.zero_add] at hfits
    refine completes s.todo h rfl ?_ hfits.2
    intro m hm
    exact hsize m (by rw [h.splits]; exact List.mem_append_right _ hm)

theorem not_delivers (hsize : ∀ m ∈ msgs, m.frameSize < data.length)
    (hfits : ¬ FitsFrom data.length 0 msgs) : ¬ Delivers data msgs := by
  intro hdelivers
  obtain ⟨s, hrun, hpanicked⟩ := panics msgs (inv_start hpow hcap total) rfl hsize hfits
  exact (hdelivers s hrun).1 hpanicked

end Delivery

/-- **Messages get through exactly if none runs over the end.** On a ring whose
capacity is a power of two, for messages smaller than it and `2^63` bytes in all:
whatever the interleaving, nobody panics and the messages are received as they
were sent, if and only if the length of each message fits its header and each
message, put where the ones before it end, ends before the end of the data area. -/
theorem delivers_iff_fits (data : List UInt8) (msgs : List Msg)
    (hpow : ∃ k, data.length = 2 ^ k) (hcap : data.length < 2 ^ 62)
    (hmsgs : ∀ m ∈ msgs, headerSize + m.payload.length < data.length)
    (total : (frames msgs).length < 2 ^ 63) :
    Delivers data msgs ↔ FitsFrom data.length 0 msgs := by
  have hsize : ∀ m ∈ msgs, m.frameSize < data.length := by
    intro m hm
    exact Nat.lt_of_le_of_lt m.frameSize_le (hmsgs m hm)
  constructor
  · intro hdelivers
    by_contra hfits
    exact not_delivers hpow hcap total hsize hfits hdelivers
  · intro hfits
    exact delivers_of_fits hpow hcap total hsize hfits

/-- Two messages that fit into a ring of 64 bytes one after the other. -/
theorem two_messages_delivered :
    Delivers (List.replicate 64 0) [⟨.cast, 7, [1, 2, 3]⟩, ⟨.ret, 7, []⟩] :=
  (delivers_iff_fits _ _ ⟨6, rfl⟩ (by decide) (by decide) (by decide)).mpr (by decide)

/-- A cast of 600000 bytes. -/
def largeCast (callid : UInt64) : Msg := ⟨.cast, callid, List.replicate 600000 0⟩

theorem largeCast_length (callid : UInt64) : (largeCast callid).payload.length = 600000 :=
  List.length_replicate

theorem largeCast_short (callid : UInt64) : (largeCast callid).Short := by
  rw [Msg.Short, largeCast_length]
  decide

theorem largeCast_frameSize (callid : UInt64) : (largeCast callid).frameSize = 600013 := by
  rw [Msg.frameSize, Msg.length_eq (largeCast_short callid), largeCast_length, headerSize]

/-- The second of two casts of 600000 bytes runs over the end of the ring. -/
theorem two_large_casts_not_delivered :
    ¬ Delivers (List.replicate (2 ^ 20) 0) [largeCast 0, largeCast 1] := by
  have hlen : (List.replicate (2 ^ 20) (0 : UInt8)).length = 2 ^ 20 := List.length_replicate
  have hframe : ∀ c, (largeCast c).frame.length = 600013 := fun c => by
    rw [Msg.frame_length (largeCast_short c), largeCast_frameSize]
  apply not_delivers
  · exact ⟨20, hlen⟩
  · rw [hlen]
    decide
  · rw [frames_cons, frames_cons, List.length_append, List.length_append, hframe, hframe]
    decide
  · intro m hm
    rw [hlen]
    rcases List.mem_cons.mp hm with rfl | hm
    · rw [largeCast_frameSize]
      decide
    · rw [List.mem_singleton.mp hm, largeCast_frameSize]
      decide
  · rw [hlen]
    rintro ⟨-, ⟨-, hover⟩, -⟩
    rw [largeCast_frameSize, largeCast_frameSize] at hover
    exact absurd hover (by decide)

end Faastr.Ivshrpc.Stream
