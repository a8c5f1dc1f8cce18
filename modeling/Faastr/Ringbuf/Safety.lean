import Faastr.Ringbuf.Ring

/-!
Safety and order of the ring, over every interleaving.

`Ring.Safe` is the invariant. Both sides work with an old copy of the other's
counter, so it bounds each counter by its copy and each open handle by the copy
it was granted on: a copy of `head` is never ahead of `head`, and a copy of
`tail` never ahead of `tail`. The bytes between `head` and `tail` are the stream
from `head` on, because an open write handle addresses other slots.

* `Ring.Produces`, `Ring.Consumes`: everything a step of either side can do.
* `safe_of_produces`, `safe_of_consumes`: each step keeps the invariant.
* `ring_safe_and_fifo`: the bounds, the disjointness and the order, in every
  state of every run.
-/

namespace Faastr.Ringbuf

open Faastr.Lib

/-! ### What a step does -/

/-- Everything a step of the producer can do. -/
inductive Ring.Produces (r : Ring) : Ring → Prop where
  | call (c : WriteCall) (n : Nat) (small : n < 2 ^ 62) (idle : r.producer = .idle) :
      Produces r { r with producer := .check c n r.tail }
  | giveUp (c : WriteCall) (n t : Nat) (pc : r.producer = .check c n t) :
      Produces r { r with producer := .idle }
  | toReload (c : WriteCall) (n t : Nat) (pc : r.producer = .check c n t) :
      Produces r { r with producer := .reload c n t }
  | grant (c : WriteCall) (n t : Nat) (pc : r.producer = .check c n t)
      (room : r.full t n = false) : Produces r { r with producer := .handle n t }
  | reload (c c' : WriteCall) (n t : Nat) (pc : r.producer = .reload c n t) :
      Produces r { r with shadowHead := r.head, producer := .check c' n t }
  | fill (n t i : Nat) (b : UInt8) (pc : r.producer = .handle n t)
      (fits : r.offset t + n ≤ r.data.length) (hi : i < n) :
      Produces r { r with data := r.data.set (r.offset t + i) b }
  | panic (n t : Nat) (pc : r.producer = .handle n t) :
      Produces r { r with producer := .panicked n t }
  | publish (n t : Nat) (pc : r.producer = .handle n t ∨ r.producer = .panicked n t)
      (pc' : ProducerPc) (done : pc' = .idle ∨ pc' = .dead) : Produces r (r.publishTail n t pc')

/-- Everything a step of the consumer can do. -/
inductive Ring.Consumes (r : Ring) : Ring → Prop where
  | call (c : ReadCall) (n : Nat) (small : n < 2 ^ 62) (idle : r.consumer = .idle) :
      Consumes r { r with consumer := .check c n r.head }
  | skip (n : Nat) (idle : r.consumer = .idle) :
      Consumes r { r with consumer := .skipReload n r.head }
  | toReload (c : ReadCall) (n h : Nat) (pc : r.consumer = .check c n h) :
      Consumes r { r with consumer := .reload c n h }
  | grant (c : ReadCall) (n h : Nat) (pc : r.consumer = .check c n h)
      (there : r.short h n = false) : Consumes r { r with consumer := .handle n h }
  | giveUp (c : ReadCall) (n h : Nat) (pc : r.consumer = .reload c n h) :
      Consumes r { r with shadowTail := r.tail, consumer := .idle }
  | reload (c c' : ReadCall) (n h : Nat) (pc : r.consumer = .reload c n h) :
      Consumes r { r with shadowTail := r.tail, consumer := .check c' n h }
  | look : Consumes r r
  | panic (n h : Nat) (pc : r.consumer = .handle n h) :
      Consumes r { r with consumer := .panicked n h }
  | skipNone (n h : Nat) (pc : r.consumer = .skipReload n h) :
      Consumes r { r with shadowTail := r.tail, consumer := .idle }
  | skipSome (n h diff : Nat) (pc : r.consumer = .skipReload n h) (hdiff : diff ≤ wsub r.tail h) :
      Consumes r { r with shadowTail := r.tail, consumer := .skipStore diff h }
  | publish (n h : Nat) (pc : r.consumer = .handle n h ∨ r.consumer = .panicked n h ∨
        r.consumer = .skipStore n h)
      (pc' : ConsumerPc) (done : pc' = .idle ∨ pc' = .dead) : Consumes r (r.publishHead n h pc')

theorem Ring.produces_of_produce {r r' : Ring} {a : ProducerAction} (small : a.request < 2 ^ 62)
    (h : r.produce a = some r') : r.Produces r' := by
  unfold Ring.produce Ring.produceBy at h
  split at h
  · rename_i n hpc
    cases h
    exact .call .tryWrite n small hpc
  · rename_i n hpc
    cases h
    exact .call .write n small hpc
  · rename_i c n t hpc
    cases h
    split
    · cases c with
      | tryWriteAgain => exact .giveUp _ n t hpc
      | _ => exact .toReload _ n t hpc
    · rename_i hroom
      exact .grant c n t hpc (by simpa using hroom)
  · rename_i c n t hpc
    cases h
    exact .reload c _ n t hpc
  · rename_i n t i b hpc
    split at h
    · rename_i hfits
      split at h
      · rename_i hi
        cases h
        exact .fill n t i b hpc hfits hi
      · cases h
    · cases h
      exact .panic n t hpc
  · rename_i n t hpc
    cases h
    exact .publish n t (.inl hpc) .idle (.inl rfl)
  · rename_i n t hpc
    cases h
    exact .publish n t (.inr hpc) .dead (.inr rfl)
  · cases h

theorem Ring.consumes_of_consume {r r' : Ring} {a : ConsumerAction} (small : a.request < 2 ^ 62)
    (h : r.consume a = some r') : r.Consumes r' := by
  unfold Ring.consume Ring.consumeBy at h
  split at h
  · rename_i n times hpc
    cases h
    exact .call (.tryRead times) n small hpc
  · rename_i n hpc
    cases h
    exact .call .read n small hpc
  · rename_i n hpc
    cases h
    exact .skip n hpc
  · rename_i c n t hpc
    cases h
    split
    · exact .toReload c n t hpc
    · rename_i hthere
      exact .grant c n t hpc (by simpa using hthere)
  · rename_i c n t hpc
    cases h
    unfold ReadCall.afterReload
    split
    · exact .giveUp _ n t hpc
    · exact .reload _ _ n t hpc
    · exact .reload _ _ n t hpc
  · rename_i n t hpc
    split at h
    · cases h
      exact .look
    · cases h
      exact .panic n t hpc
  · rename_i n t hpc
    cases h
    exact .publish n t (.inl hpc) .idle (.inl rfl)
  · rename_i n t hpc
    cases h
    exact .publish n t (.inr (.inl hpc)) .dead (.inr rfl)
  · rename_i n t hpc
    split at h
    · cases h
      exact .skipNone n t hpc
    · cases h
      refine .skipSome n t _ hpc ?_
      rw [Counting.wrapping_sub]
      split <;> omega
  · rename_i diff t hpc
    cases h
    exact .publish diff t (.inr (.inr hpc)) .idle (.inl rfl)
  · cases h

/-- A step of the producer leaves the consumer's part alone. -/
theorem Ring.Produces.frame {r r' : Ring} (h : r.Produces r') :
    r'.capacity = r.capacity ∧ r'.consumer = r.consumer ∧ r'.head = r.head := by
  cases h <;> exact ⟨rfl, rfl, rfl⟩

/-- A step of the consumer leaves the producer's part, the data and the stream alone. -/
theorem Ring.Consumes.frame {r r' : Ring} (h : r.Consumes r') :
    r'.capacity = r.capacity ∧ r'.producer = r.producer ∧ r'.data = r.data ∧ r'.sent = r.sent ∧
      r'.tail = r.tail := by
  cases h <;> exact ⟨rfl, rfl, rfl, rfl, rfl⟩

/-! ### The invariant -/

/-- What the producer knows where it stands: the tail is its own, and a handle was
granted on its copy of the head. -/
def Ring.ProducerOk (r : Ring) : Prop :=
  match r.producer with
  | .idle | .dead => True
  | .check _ n t | .reload _ n t => t = r.tail ∧ n < 2 ^ 62
  | .handle n t | .panicked n t => t = r.tail ∧ n < 2 ^ 62 ∧ t + n < r.shadowHead + r.capacity

/-- What the consumer knows where it stands. -/
def Ring.ConsumerOk (r : Ring) : Prop :=
  match r.consumer with
  | .idle | .dead => True
  | .check _ _ h | .reload _ _ h | .skipReload _ h => h = r.head
  | .handle n h | .panicked n h | .skipStore n h => h = r.head ∧ h + n ≤ r.shadowTail

/-- The invariant of the ring. -/
structure Ring.Safe (r : Ring) : Prop where
  isPow : ∃ k, r.capacity = 2 ^ k
  allocated : r.allocatedSize = r.capacity
  small : r.capacity < 2 ^ 62
  dataLength : r.data.length = r.capacity
  shadowHead_le : r.shadowHead ≤ r.head
  head_le : r.head ≤ r.shadowTail
  shadowTail_le : r.shadowTail ≤ r.tail
  tail_lt : r.tail < r.head + r.capacity
  sentLength : r.sent.length = r.tail
  takenEq : r.taken = r.sent.take r.head
  unread : window r.data r.head (r.tail - r.head) = r.sent.drop r.head
  producerOk : r.ProducerOk
  consumerOk : r.ConsumerOk

namespace Ring.Safe

variable {r : Ring}

theorem head_le_tail (h : r.Safe) : r.head ≤ r.tail := Nat.le_trans h.head_le h.shadowTail_le

/-- The mask is the remainder. -/
theorem offset_eq (h : r.Safe) (c : Nat) : r.offset c = c % r.data.length := by
  obtain ⟨k, hk⟩ := h.isPow
  rw [Header.offset, h.allocated, h.dataLength, hk, Nat.and_two_pow_sub_one_eq_mod]

theorem handle_bounds (h : r.Safe) {n t : Nat}
    (pc : r.producer = .handle n t ∨ r.producer = .panicked n t) :
    t = r.tail ∧ n < 2 ^ 62 ∧ r.tail + n < r.shadowHead + r.capacity := by
  have hok := h.producerOk
  unfold ProducerOk at hok
  rcases pc with pc | pc
  · rw [pc] at hok
    exact ⟨hok.1, hok.2.1, hok.1 ▸ hok.2.2⟩
  · rw [pc] at hok
    exact ⟨hok.1, hok.2.1, hok.1 ▸ hok.2.2⟩

theorem readHandle_bounds (h : r.Safe) {n t : Nat}
    (pc : r.consumer = .handle n t ∨ r.consumer = .panicked n t ∨ r.consumer = .skipStore n t) :
    t = r.head ∧ r.head + n ≤ r.shadowTail := by
  have hok := h.consumerOk
  unfold ConsumerOk at hok
  rcases pc with pc | pc | pc
  · rw [pc] at hok
    exact ⟨hok.1, hok.1 ▸ hok.2⟩
  · rw [pc] at hok
    exact ⟨hok.1, hok.1 ▸ hok.2⟩
  · rw [pc] at hok
    exact ⟨hok.1, hok.1 ▸ hok.2⟩

/-- The unread bytes from `head` on are a window of the data area. -/
theorem window_head (h : r.Safe) {n : Nat} (hn : r.head + n ≤ r.tail) :
    window r.data r.head n = (r.sent.drop r.head).take n := by
  have hcut : r.tail - r.head = n + (r.tail - r.head - n) := by omega
  have hall := h.unread
  rw [hcut, window_add] at hall
  rw [← hall, List.take_left' (window_length _ _ _)]

end Ring.Safe

/-! ### Each step keeps it -/

/-- A step of the producer that moves no shared word and no data. -/
theorem safe_of_producer_pc {r : Ring} (h : r.Safe) {pc : ProducerPc}
    (ok : Ring.ProducerOk { r with producer := pc }) : Ring.Safe { r with producer := pc } :=
  { h with producerOk := ok, consumerOk := h.consumerOk }

theorem safe_of_consumer_pc {r : Ring} (h : r.Safe) {pc : ConsumerPc}
    (ok : Ring.ConsumerOk { r with consumer := pc }) : Ring.Safe { r with consumer := pc } :=
  { h with consumerOk := ok, producerOk := h.producerOk }

/-- Filling a handle leaves the unread bytes as they are. -/
theorem safe_of_fill {r : Ring} (h : r.Safe) {n t i : Nat} (b : UInt8)
    (pc : r.producer = .handle n t) (fits : r.offset t + n ≤ r.data.length) (hi : i < n) :
    Ring.Safe { r with data := r.data.set (r.offset t + i) b } := by
  obtain ⟨rfl, -, hroom⟩ := h.handle_bounds (.inl pc)
  have hhead := h.shadowHead_le
  have hle := h.head_le_tail
  rw [h.offset_eq] at fits ⊢
  have hslot : r.tail % r.data.length + i = (r.tail + i) % r.data.length :=
    (add_mod_of_fits hi fits).symm
  have hkeep : window (r.data.set (r.tail % r.data.length + i) b) r.head (r.tail - r.head) =
      window r.data r.head (r.tail - r.head) := by
    rw [hslot]
    apply window_set
    · omega
    · rw [h.dataLength]
      omega
  exact { h with
    dataLength := by rw [List.length_set]; exact h.dataLength
    unread := hkeep.trans h.unread
    producerOk := h.producerOk
    consumerOk := h.consumerOk }

/-- Publishing a handle appends its slots to the stream. -/
theorem safe_of_publishTail {r : Ring} (h : r.Safe) {n t : Nat}
    (pc : r.producer = .handle n t ∨ r.producer = .panicked n t) {pc' : ProducerPc}
    (done : pc' = .idle ∨ pc' = .dead) (total : (r.publishTail n t pc').sent.length < 2 ^ 63) :
    (r.publishTail n t pc').Safe := by
  obtain ⟨rfl, hn, hroom⟩ := h.handle_bounds pc
  have hhead := h.shadowHead_le
  have hle := h.head_le_tail
  have htail := h.shadowTail_le
  have hlen := h.sentLength
  have hsent : (r.publishTail n r.tail pc').sent.length = r.tail + n := by
    simp [Ring.publishTailBy, hlen]
  have hword : wadd r.tail n = r.tail + n := wadd_eq (by omega)
  exact {
    isPow := h.isPow
    allocated := h.allocated
    small := h.small
    dataLength := h.dataLength
    shadowHead_le := hhead
    head_le := h.head_le
    shadowTail_le := by
      show r.shadowTail ≤ wadd r.tail n
      omega
    tail_lt := by
      show wadd r.tail n < r.head + r.capacity
      omega
    sentLength := by
      rw [hsent]
      exact hword.symm
    takenEq := by
      show r.taken = (r.sent ++ window r.data r.tail n).take r.head
      rw [List.take_append_of_le_length (by omega)]
      exact h.takenEq
    unread := by
      show window r.data r.head (wadd r.tail n - r.head) =
        (r.sent ++ window r.data r.tail n).drop r.head
      have hcut : wadd r.tail n - r.head = r.tail - r.head + n := by omega
      have hend : r.head + (r.tail - r.head) = r.tail := by omega
      rw [hcut, window_add, h.unread, hend, List.drop_append_of_le_length (by omega)]
    producerOk := by rcases done with rfl | rfl <;> trivial
    consumerOk := h.consumerOk }

/-- Publishing a read handle gives up the bytes it showed. -/
theorem safe_of_publishHead {r : Ring} (h : r.Safe) (total : r.sent.length < 2 ^ 63) {n t : Nat}
    (pc : r.consumer = .handle n t ∨ r.consumer = .panicked n t ∨ r.consumer = .skipStore n t)
    {pc' : ConsumerPc} (done : pc' = .idle ∨ pc' = .dead) : (r.publishHead n t pc').Safe := by
  obtain ⟨rfl, hn⟩ := h.readHandle_bounds pc
  have hhead := h.shadowHead_le
  have htail := h.shadowTail_le
  have hlt := h.tail_lt
  have hlen := h.sentLength
  have hword : wadd r.head n = r.head + n := wadd_eq (by omega)
  exact {
    isPow := h.isPow
    allocated := h.allocated
    small := h.small
    dataLength := h.dataLength
    shadowHead_le := by
      show r.shadowHead ≤ wadd r.head n
      omega
    head_le := by
      show wadd r.head n ≤ r.shadowTail
      omega
    shadowTail_le := htail
    tail_lt := by
      show r.tail < wadd r.head n + r.capacity
      omega
    sentLength := hlen
    takenEq := by
      show r.taken ++ window r.data r.head n = r.sent.take (wadd r.head n)
      rw [hword, h.window_head (by omega), h.takenEq, List.take_add]
    unread := by
      show window r.data (wadd r.head n) (r.tail - wadd r.head n) = r.sent.drop (wadd r.head n)
      have hcut : r.tail - r.head = n + (r.tail - (r.head + n)) := by omega
      have hall := h.unread
      rw [hcut, window_add] at hall
      rw [hword, ← List.drop_drop, ← hall, List.drop_left' (window_length _ _ _)]
    producerOk := h.producerOk
    consumerOk := by rcases done with rfl | rfl <;> trivial }

/-- **A step of the producer keeps the invariant.** -/
theorem safe_of_produces {r r' : Ring} (h : r.Safe) (step : r.Produces r')
    (total : r'.sent.length < 2 ^ 63) : r'.Safe := by
  have hok := h.producerOk
  unfold Ring.ProducerOk at hok
  cases step with
  | call c n small idle => exact safe_of_producer_pc h ⟨rfl, small⟩
  | giveUp c n t pc => exact safe_of_producer_pc h trivial
  | toReload c n t pc =>
    rw [pc] at hok
    exact safe_of_producer_pc h hok
  | grant c n t pc room =>
    rw [pc] at hok
    obtain ⟨rfl, hn⟩ := hok
    refine safe_of_producer_pc h ⟨rfl, hn, ?_⟩
    -- No word of the comparison wraps.
    have hlen := h.sentLength
    have hhead := h.shadowHead_le
    have hle := h.head_le_tail
    have hcap := h.small
    have hleft : wadd r.shadowHead r.capacity = r.shadowHead + r.capacity :=
      wadd_eq (by simp only at total; omega)
    have hright : wadd r.tail n = r.tail + n := wadd_eq (by simp only at total; omega)
    simp only [Header.fullBy, Counting.wrapping_add, hleft, hright, decide_eq_false_iff_not, Nat.not_le] at room
    exact room
  | reload c c' n t pc =>
    rw [pc] at hok
    exact { h with
      shadowHead_le := Nat.le_refl _
      producerOk := hok
      consumerOk := h.consumerOk }
  | fill n t i b pc fits hi => exact safe_of_fill h b pc fits hi
  | panic n t pc =>
    rw [pc] at hok
    exact safe_of_producer_pc h hok
  | publish n t pc pc' done => exact safe_of_publishTail h pc done total

/-- **A step of the consumer keeps the invariant.** -/
theorem safe_of_consumes {r r' : Ring} (h : r.Safe) (total : r.sent.length < 2 ^ 63)
    (step : r.Consumes r') : r'.Safe := by
  have hok := h.consumerOk
  unfold Ring.ConsumerOk at hok
  have hword : ∀ {x}, x ≤ r.tail → x < 2 ^ 64 := fun {x} hx => by
    have hlen := h.sentLength
    omega
  cases step with
  | call c n small idle => exact safe_of_consumer_pc h rfl
  | skip n idle => exact safe_of_consumer_pc h rfl
  | toReload c n t pc =>
    rw [pc] at hok
    exact safe_of_consumer_pc h hok
  | grant c n t pc there =>
    rw [pc] at hok
    subst hok
    refine safe_of_consumer_pc h ⟨rfl, ?_⟩
    have hle := h.head_le
    simp only [Header.shortBy, Counting.wrapping_sub, wsub_eq hle (hword h.shadowTail_le), decide_eq_false_iff_not,
      Nat.not_lt] at there
    show r.head + n ≤ r.shadowTail
    omega
  | giveUp c n t pc =>
    exact { h with
      head_le := h.head_le_tail
      shadowTail_le := Nat.le_refl _
      producerOk := h.producerOk
      consumerOk := trivial }
  | reload c c' n t pc =>
    rw [pc] at hok
    exact { h with
      head_le := h.head_le_tail
      shadowTail_le := Nat.le_refl _
      producerOk := h.producerOk
      consumerOk := hok }
  | look => exact h
  | panic n t pc =>
    rw [pc] at hok
    exact safe_of_consumer_pc h hok
  | skipNone n t pc =>
    exact { h with
      head_le := h.head_le_tail
      shadowTail_le := Nat.le_refl _
      producerOk := h.producerOk
      consumerOk := trivial }
  | skipSome n t diff pc hdiff =>
    rw [pc] at hok
    subst hok
    have hle := h.head_le_tail
    rw [wsub_eq hle (hword (Nat.le_refl _))] at hdiff
    exact { h with
      head_le := hle
      shadowTail_le := Nat.le_refl _
      producerOk := h.producerOk
      consumerOk := ⟨rfl, show r.head + diff ≤ r.tail by omega⟩ }
  | publish n t pc pc' done => exact safe_of_publishHead h total pc done

/-- The stream only grows. -/
theorem sent_length_le_of_produces {r r' : Ring} (step : r.Produces r') :
    r.sent.length ≤ r'.sent.length := by
  cases step with
  | publish n t pc pc' done => simp [Ring.publishTailBy]
  | _ => exact Nat.le_refl _

theorem safe_of_step {r r' : Ring} (h : r.Safe) (step : r.Step r')
    (total : r'.sent.length < 2 ^ 63) : r'.Safe := by
  cases step with
  | produce a small hstep =>
    exact safe_of_produces h (Ring.produces_of_produce small hstep) total
  | consume a small hstep =>
    have hc := Ring.consumes_of_consume small hstep
    exact safe_of_consumes h (by rw [← hc.frame.2.2.2.1]; exact total) hc

/-! ### Whole runs -/

/-- A fresh ring is safe. -/
theorem safe_of_fresh {data : List UInt8} (hpow : ∃ k, data.length = 2 ^ k)
    (hcap : data.length < 2 ^ 62) : (Ring.fresh data).Safe where
  isPow := hpow
  allocated := rfl
  small := hcap
  dataLength := rfl
  shadowHead_le := Nat.le_refl _
  head_le := Nat.le_refl _
  shadowTail_le := Nat.le_refl _
  tail_lt := by
    obtain ⟨k, hk⟩ := hpow
    have hpos := Nat.two_pow_pos k
    show 0 < 0 + data.length
    omega
  sentLength := rfl
  takenEq := rfl
  unread := rfl
  producerOk := trivial
  consumerOk := trivial

theorem safe_of_new {buff : List UInt8} {r : Ring} (hnew : Ring.new buff = .ok r)
    (hpow : ∃ k, r.capacity = 2 ^ k) (hcap : r.capacity < 2 ^ 62) : r.Safe := by
  have hfresh := Ring.eq_fresh_of_new hnew
  rw [hfresh] at hpow hcap ⊢
  exact safe_of_fresh hpow hcap

/-- **Every run keeps the invariant**, as long as fewer than `2^63` bytes were sent. -/
theorem safe_of_reaches {r₀ r : Ring} (h₀ : r₀.Safe) (hrun : r₀.Reaches r)
    (total : r.sent.length < 2 ^ 63) : r.Safe := by
  refine invariant_of_step (fun s => s.sent.length < 2 ^ 63 → s.Safe) hrun (fun _ => h₀) ?_ total
  intro a b ih step hb
  have hle : a.sent.length ≤ b.sent.length := by
    cases step with
    | produce act small hstep =>
      exact sent_length_le_of_produces (Ring.produces_of_produce small hstep)
    | consume act small hstep =>
      exact Nat.le_of_eq (by rw [(Ring.consumes_of_consume small hstep).frame.2.2.2.1])
  exact safe_of_step (ih (Nat.lt_of_le_of_lt hle hb)) step hb

/-- The four counters in order, and never a full ring. -/
def Ring.Ordered (r : Ring) : Prop :=
  r.shadowHead ≤ r.head ∧ r.head ≤ r.tail ∧ r.shadowTail ≤ r.tail ∧
    r.tail - r.head ≤ r.capacity - 1

/-- Open handles stay inside their part of the ring: a write handle ends before
the head comes round and shares no slot with an unread byte, and a read handle
ends before the tail. -/
def Ring.Separated (r : Ring) : Prop :=
  (∀ n t, r.producer = .handle n t →
    t = r.tail ∧ r.tail + n < r.head + r.capacity ∧
      ∀ i < n, ∀ p, r.head ≤ p → p < r.tail → (r.tail + i) % r.capacity ≠ p % r.capacity) ∧
  ∀ n h, r.consumer = .handle n h → h = r.head ∧ r.head + n ≤ r.tail

/-- First in, first out: where the slice of an open handle does not run over the
end of the data area, a write handle exposes what publishing it will append to
the stream, a read handle exposes the stream from the head on, and what was taken
is the stream up to the head. -/
def Ring.Fifo (r : Ring) : Prop :=
  (∀ n t, r.producer = .handle n t → r.offset t + n ≤ r.capacity →
    ∃ bytes, r.handleSlice t n = .ok bytes ∧
      (r.publishTail n t .idle).sent = r.sent ++ bytes) ∧
  (∀ n h, r.consumer = .handle n h → r.offset h + n ≤ r.capacity →
    r.handleSlice h n = .ok ((r.sent.drop r.head).take n)) ∧
  r.taken = r.sent.take r.head

theorem Ring.Safe.handleSlice_eq {r : Ring} (h : r.Safe) {c n : Nat}
    (fits : r.offset c + n ≤ r.capacity) : r.handleSlice c n = .ok (window r.data c n) := by
  rw [h.offset_eq, ← h.dataLength] at fits
  rw [Ring.handleSlice, h.offset_eq]
  exact slice_eq_window fits

theorem Ring.Safe.ordered {r : Ring} (h : r.Safe) : r.Ordered := by
  have hlt := h.tail_lt
  exact ⟨h.shadowHead_le, h.head_le_tail, h.shadowTail_le, by omega⟩

theorem Ring.Safe.separated {r : Ring} (h : r.Safe) : r.Separated := by
  constructor
  · intro n t pc
    obtain ⟨rfl, -, hroom⟩ := h.handle_bounds (.inl pc)
    have hhead := h.shadowHead_le
    refine ⟨rfl, by omega, ?_⟩
    intro i hi p hp hpt
    exact (mod_ne_mod_of_lt (by omega) (by omega)).symm
  · intro n t pc
    obtain ⟨rfl, hn⟩ := h.readHandle_bounds (.inl pc)
    have htail := h.shadowTail_le
    exact ⟨rfl, by omega⟩

theorem Ring.Safe.fifo {r : Ring} (h : r.Safe) : r.Fifo := by
  refine ⟨?_, ?_, h.takenEq⟩
  · intro n t _ fits
    exact ⟨_, h.handleSlice_eq fits, rfl⟩
  · intro n t pc fits
    obtain ⟨rfl, hn⟩ := h.readHandle_bounds (.inl pc)
    have htail := h.shadowTail_le
    rw [h.handleSlice_eq fits, h.window_head (by omega)]

/-- **The ring is safe and keeps the order.** From a fresh ring whose capacity is
a power of two below `2^62`, in every state of every interleaving in which fewer
than `2^62` bytes were sent: the counters are in order, the open handles keep
apart, and bytes come out as they went in. -/
theorem ring_safe_and_fifo (buff : List UInt8) (r₀ r : Ring) (hnew : Ring.new buff = .ok r₀)
    (hpow : ∃ k, r₀.capacity = 2 ^ k) (hcap : r₀.capacity < 2 ^ 62) (hrun : r₀.Reaches r)
    (total : r.sent.length < 2 ^ 62) : r.Ordered ∧ r.Separated ∧ r.Fifo := by
  have h := safe_of_reaches (safe_of_new hnew hpow hcap) hrun (by omega)
  exact ⟨h.ordered, h.separated, h.fifo⟩

/-- Three bytes written and two of them about to be read. -/
def sampleRun : List Action :=
  [.inl (.write 3), .inl .check, .inr (.tryRead 2 1), .inl (.fill 0 7), .inr .check,
    .inl (.fill 1 8), .inl (.fill 2 9), .inl .publishTail, .inr .reloadTail, .inr .check]

/-- Where it ends. -/
def sampleRing : Ring :=
  { capacity := 8, allocatedSize := 8, head := 0, shadowTail := 3, tail := 3, shadowHead := 0,
    data := [7, 8, 9, 0, 0, 0, 0, 0], producer := .idle, consumer := .handle 2 0,
    sent := [7, 8, 9], taken := [] }

theorem sampleRun_reaches : (Ring.fresh (List.replicate 8 0)).Reaches sampleRing :=
  Ring.reaches_of_act sampleRun (by decide) (by decide)

theorem sampleRing_safe_and_fifo :
    sampleRing.Ordered ∧ sampleRing.Separated ∧ sampleRing.Fifo := by
  have hnew : Ring.new (List.replicate 200 0) = .ok (Ring.fresh (List.replicate 8 0)) := by
    have hlen : (List.replicate 200 (0 : UInt8)).length = 200 := List.length_replicate
    have hcap : prevPowerOfTwo ((List.replicate 200 (0 : UInt8)).length - sizeofHeader) = 8 := by
      rw [hlen]
      decide
    rw [Ring.new_eq (by rw [hlen]; decide) hcap (by rw [hlen]; decide)]
    simp [sizeofHeader]
  exact ring_safe_and_fifo (List.replicate 200 0) _ _ hnew ⟨3, rfl⟩ (by decide)
    sampleRun_reaches (by decide)

end Faastr.Ringbuf
