import Faastr.Ringbuf.Ring

/-!
The ring with unbounded counters, and what is left of it in 64-bit words.

The arithmetic of the counters is a parameter of the two sides: the code's wrapping words,
or plain numbers. The ring with plain numbers keeps its counters in order whatever is asked of it
(`Ring.InOrder.act`). `Ring.words` is such a ring with every counter cut to its
low 64 bits.

- The consumer cannot tell the two apart (`consume_words`), since it only
  subtracts counters.
- The producer compares two sums of counters, and the words compare as the numbers
  do exactly when both sums are in the same lap of `2 ^ 64` (`full_words_iff`).
- So the code's ring runs as the one with plain numbers does as long as no comparison
  of the producer straddles a multiple of `2 ^ 64` (`wrapping_ring_tracks`).
-/

namespace Faastr.Ringbuf

open Faastr.Lib

/-! ### The two sides -/

theorem Header.fullBy_unbounded (h : Header) (t n : Nat) :
    h.fullBy .unbounded t n = decide (h.shadowHead + h.capacity ≤ t + n) := rfl

theorem Header.shortBy_unbounded (h : Header) (t n : Nat) :
    h.shortBy .unbounded t n = decide (h.shadowTail - t < n) := rfl

def Ring.actBy (k : Counting) (r : Ring) : Action → Option Ring
  | .inl a => r.produceBy k a
  | .inr a => r.consumeBy k a

section Equations

variable {k : Counting} {r : Ring} {n t : Nat}

theorem Ring.actBy_check_full {call : WriteCall} (pc : r.producer = .check call n t)
    (hfull : r.fullBy k t n = true) :
    r.actBy k (.inl .check) = some { r with producer := call.onFull n t } := by
  unfold Ring.actBy Ring.produceBy
  simp only [pc, hfull, if_true]

theorem Ring.actBy_check_room {call : WriteCall} (pc : r.producer = .check call n t)
    (hroom : r.fullBy k t n = false) :
    r.actBy k (.inl .check) = some { r with producer := .handle n t } := by
  unfold Ring.actBy Ring.produceBy
  simp only [pc, hroom, Bool.false_eq_true, if_false]

theorem Ring.actBy_check_short {call : ReadCall} (pc : r.consumer = .check call n t)
    (hshort : r.shortBy k t n = true) :
    r.actBy k (.inr .check) = some { r with consumer := .reload call n t } := by
  unfold Ring.actBy Ring.consumeBy
  simp only [pc, hshort, if_true]

theorem Ring.actBy_check_there {call : ReadCall} (pc : r.consumer = .check call n t)
    (hthere : r.shortBy k t n = false) :
    r.actBy k (.inr .check) = some { r with consumer := .handle n t } := by
  unfold Ring.actBy Ring.consumeBy
  simp only [pc, hthere, Bool.false_eq_true, if_false]

end Equations

/-! ### Plain numbers stay in order -/

/-- Where the producer stands. -/
def Ring.ProducerAt (u : Ring) : Prop :=
  match u.producer with
  | .idle | .dead => True
  | .check _ n t | .reload _ n t => t = u.tail ∧ n < 2 ^ 64
  | .handle n t | .panicked n t => t = u.tail ∧ t + n < u.shadowHead + u.capacity

/-- Where the consumer stands. -/
def Ring.ConsumerAt (u : Ring) : Prop :=
  match u.consumer with
  | .idle | .dead => True
  | .check _ _ h | .reload _ _ h | .skipReload _ h => h = u.head
  | .handle n h | .panicked n h | .skipStore n h => h = u.head ∧ h + n ≤ u.shadowTail

/-- The invariant of the ring with plain numbers: each side's copy of the other's
counter is behind it, and the tail is less than a turn ahead of the copy of the
head that the producer goes by. -/
structure Ring.InOrder (u : Ring) : Prop where
  isPow : ∃ k, k ≤ 62 ∧ u.capacity = 2 ^ k
  allocated : u.allocatedSize = u.capacity
  dataLength : u.data.length = u.capacity
  shadowHead_le : u.shadowHead ≤ u.head
  head_le : u.head ≤ u.shadowTail
  shadowTail_le : u.shadowTail ≤ u.tail
  tail_lt : u.tail < u.shadowHead + u.capacity
  sentLength : u.sent.length = u.tail
  takenLength : u.taken.length = u.head
  producerAt : u.ProducerAt
  consumerAt : u.ConsumerAt

namespace Ring.InOrder

variable {u u' : Ring}

theorem head_le_tail (h : u.InOrder) : u.head ≤ u.tail := Nat.le_trans h.head_le h.shadowTail_le

theorem capacity_le (h : u.InOrder) : u.capacity ≤ 2 ^ 62 := by
  obtain ⟨k, hk, hcap⟩ := h.isPow
  rw [hcap]
  exact Nat.pow_le_pow_right (by decide) hk

theorem of_fresh {data : List UInt8} (hpow : ∃ k, k ≤ 62 ∧ data.length = 2 ^ k) :
    (Ring.fresh data).InOrder where
  isPow := hpow
  allocated := rfl
  dataLength := rfl
  shadowHead_le := Nat.le_refl _
  head_le := Nat.le_refl _
  shadowTail_le := Nat.le_refl _
  tail_lt := by
    obtain ⟨k, -, hk⟩ := hpow
    have hpos := Nat.two_pow_pos k
    show 0 < 0 + data.length
    omega
  sentLength := rfl
  takenLength := rfl
  producerAt := trivial
  consumerAt := trivial

/-- Only where the producer stands changes. -/
theorem set_producer (h : u.InOrder) {pc : ProducerPc}
    (hat : Ring.ProducerAt { u with producer := pc }) : Ring.InOrder { u with producer := pc } :=
  { h with producerAt := hat, consumerAt := h.consumerAt }

theorem set_consumer (h : u.InOrder) {pc : ConsumerPc}
    (hat : Ring.ConsumerAt { u with consumer := pc }) : Ring.InOrder { u with consumer := pc } :=
  { h with consumerAt := hat, producerAt := h.producerAt }

/-- The consumer looks at the tail. -/
theorem set_shadowTail (h : u.InOrder) {pc : ConsumerPc}
    (hat : Ring.ConsumerAt { u with shadowTail := u.tail, consumer := pc }) :
    Ring.InOrder { u with shadowTail := u.tail, consumer := pc } :=
  { h with
    head_le := h.head_le_tail
    shadowTail_le := Nat.le_refl _
    producerAt := h.producerAt
    consumerAt := hat }

theorem publishTail (h : u.InOrder) {n t : Nat}
    (hat : t = u.tail ∧ t + n < u.shadowHead + u.capacity) {pc : ProducerPc}
    (done : pc = .idle ∨ pc = .dead) : (u.publishTailBy .unbounded n t pc).InOrder := by
  obtain ⟨rfl, hroom⟩ := hat
  exact { h with
    shadowTail_le := Nat.le_add_right_of_le h.shadowTail_le
    tail_lt := hroom
    sentLength := by
      show (u.sent ++ window u.data u.tail n).length = u.tail + n
      rw [List.length_append, window_length, h.sentLength]
    producerAt := by rcases done with rfl | rfl <;> trivial
    consumerAt := h.consumerAt }

theorem publishHead (h : u.InOrder) {n t : Nat} (hat : t = u.head ∧ t + n ≤ u.shadowTail)
    {pc : ConsumerPc} (done : pc = .idle ∨ pc = .dead) :
    (u.publishHeadBy .unbounded n t pc).InOrder := by
  obtain ⟨rfl, hthere⟩ := hat
  exact { h with
    shadowHead_le := Nat.le_add_right_of_le h.shadowHead_le
    head_le := hthere
    takenLength := by
      show (u.taken ++ window u.data u.head n).length = u.head + n
      rw [List.length_append, window_length, h.takenLength]
    producerAt := h.producerAt
    consumerAt := by rcases done with rfl | rfl <;> trivial }

/-- **A step of the producer keeps the order.** -/
theorem produce (h : u.InOrder) {a : ProducerAction} (hn : a.request < 2 ^ 64)
    (hstep : u.produceBy .unbounded a = some u') : u'.InOrder := by
  have hat := h.producerAt
  unfold ProducerAt at hat
  unfold produceBy at hstep
  split at hstep
  · cases hstep
    exact h.set_producer ⟨rfl, hn⟩
  · cases hstep
    exact h.set_producer ⟨rfl, hn⟩
  · rename_i call n t hpc
    rw [hpc] at hat
    cases hfull : u.fullBy .unbounded t n with
    | true =>
      rw [hfull] at hstep
      cases hstep
      cases call with
      | tryWriteAgain => exact h.set_producer trivial
      | tryWrite => exact h.set_producer hat
      | write => exact h.set_producer hat
    | false =>
      rw [hfull] at hstep
      cases hstep
      have hroom : t + n < u.shadowHead + u.capacity := by
        simpa [Header.fullBy_unbounded] using hfull
      exact h.set_producer ⟨hat.1, hroom⟩
  · rename_i call n t hpc
    rw [hpc] at hat
    cases hstep
    exact { h with
      shadowHead_le := Nat.le_refl _
      tail_lt := Nat.lt_of_lt_of_le h.tail_lt (Nat.add_le_add_right h.shadowHead_le _)
      producerAt := hat
      consumerAt := h.consumerAt }
  · split at hstep
    · split at hstep
      · cases hstep
        exact { h with
          dataLength := by rw [List.length_set]; exact h.dataLength
          producerAt := h.producerAt
          consumerAt := h.consumerAt }
      · cases hstep
    · rename_i hpc _
      rw [hpc] at hat
      cases hstep
      exact h.set_producer hat
  · rename_i hpc
    rw [hpc] at hat
    cases hstep
    exact h.publishTail hat (.inl rfl)
  · rename_i hpc
    rw [hpc] at hat
    cases hstep
    exact h.publishTail hat (.inr rfl)
  · cases hstep

/-- **A step of the consumer keeps the order.** -/
theorem consume (h : u.InOrder) {a : ConsumerAction}
    (hstep : u.consumeBy .unbounded a = some u') : u'.InOrder := by
  have hat := h.consumerAt
  unfold ConsumerAt at hat
  unfold consumeBy at hstep
  split at hstep
  · cases hstep
    exact h.set_consumer rfl
  · cases hstep
    exact h.set_consumer rfl
  · cases hstep
    exact h.set_consumer rfl
  · rename_i call n t hpc
    rw [hpc] at hat
    subst hat
    cases hshort : u.shortBy .unbounded u.head n with
    | true =>
      rw [hshort] at hstep
      cases hstep
      exact h.set_consumer rfl
    | false =>
      rw [hshort] at hstep
      cases hstep
      have hle : n ≤ u.shadowTail - u.head := by
        simpa [Header.shortBy_unbounded] using hshort
      have hbound := h.head_le
      exact h.set_consumer ⟨rfl, show u.head + n ≤ u.shadowTail by omega⟩
  · rename_i call n t hpc
    rw [hpc] at hat
    cases hstep
    cases call with
    | read => exact h.set_shadowTail hat
    | tryRead times =>
      cases times with
      | zero => exact h.set_shadowTail trivial
      | succ times => exact h.set_shadowTail hat
  · rename_i hpc
    rw [hpc] at hat
    split at hstep
    · cases hstep
      exact h
    · cases hstep
      exact h.set_consumer hat
  · rename_i hpc
    rw [hpc] at hat
    cases hstep
    exact h.publishHead hat (.inl rfl)
  · rename_i hpc
    rw [hpc] at hat
    cases hstep
    exact h.publishHead hat (.inr rfl)
  · rename_i n t hpc
    rw [hpc] at hat
    subst hat
    split at hstep
    · cases hstep
      exact h.set_shadowTail trivial
    · cases hstep
      have hle := h.head_le_tail
      refine h.set_shadowTail ⟨rfl, ?_⟩
      show u.head + (if u.tail - u.head > n then n else u.tail - u.head) ≤ u.tail
      split <;> omega
  · rename_i hpc
    rw [hpc] at hat
    cases hstep
    exact h.publishHead hat (.inl rfl)
  · cases hstep

theorem act (h : u.InOrder) {a : Action} (hn : a.request < 2 ^ 64)
    (hstep : u.actBy .unbounded a = some u') : u'.InOrder := by
  cases a with
  | inl a => exact h.produce hn hstep
  | inr a => exact h.consume hstep

end Ring.InOrder

/-! ### The low 64 bits -/

def ProducerPc.words : ProducerPc → ProducerPc
  | .check call n t => .check call n (t % 2 ^ 64)
  | .reload call n t => .reload call n (t % 2 ^ 64)
  | .handle n t => .handle n (t % 2 ^ 64)
  | .panicked n t => .panicked n (t % 2 ^ 64)
  | .idle => .idle
  | .dead => .dead

def ConsumerPc.words : ConsumerPc → ConsumerPc
  | .check call n h => .check call n (h % 2 ^ 64)
  | .reload call n h => .reload call n (h % 2 ^ 64)
  | .handle n h => .handle n (h % 2 ^ 64)
  | .skipReload n h => .skipReload n (h % 2 ^ 64)
  | .skipStore diff h => .skipStore diff (h % 2 ^ 64)
  | .panicked n h => .panicked n (h % 2 ^ 64)
  | .idle => .idle
  | .dead => .dead

/-- A ring with every counter cut to a word. -/
def Ring.words (u : Ring) : Ring :=
  { u with
    head := u.head % 2 ^ 64
    shadowTail := u.shadowTail % 2 ^ 64
    tail := u.tail % 2 ^ 64
    shadowHead := u.shadowHead % 2 ^ 64
    producer := u.producer.words
    consumer := u.consumer.words }

theorem wadd_words (a b : Nat) : wadd (a % 2 ^ 64) b = (a + b) % 2 ^ 64 := Nat.mod_add_mod a _ b

/-- Words that are less than a lap apart subtract as the numbers do. -/
theorem wsub_words {a b : Nat} (hle : b ≤ a) (hlt : a < b + 2 ^ 64) :
    wsub (a % 2 ^ 64) (b % 2 ^ 64) = a - b := by
  unfold wsub
  omega

section Words

variable {u : Ring}

theorem Ring.InOrder.length_dvd (h : u.InOrder) : u.data.length ∣ 2 ^ 64 := by
  obtain ⟨k, hk, hcap⟩ := h.isPow
  rw [h.dataLength, hcap]
  exact Nat.pow_dvd_pow 2 (by omega)

theorem Ring.InOrder.offset_words (h : u.InOrder) (c : Nat) :
    u.offset (c % 2 ^ 64) = u.offset c := by
  obtain ⟨k, hk, hcap⟩ := h.isPow
  rw [Header.offset, Header.offset, h.allocated, hcap, Nat.and_two_pow_sub_one_eq_mod,
    Nat.and_two_pow_sub_one_eq_mod, Nat.mod_mod_of_dvd c (Nat.pow_dvd_pow 2 (by omega))]

/-- The two sums that the producer compares are in the same lap of `2 ^ 64`. -/
def Ring.SameLap (u : Ring) (n : Nat) : Prop :=
  (u.shadowHead + u.capacity) / 2 ^ 64 = (u.tail + n) / 2 ^ 64

/-- **The words compare as the numbers do exactly in the same lap.** -/
theorem full_words_iff (h : u.InOrder) {n : Nat} (hn : n < 2 ^ 64) :
    u.words.full (u.tail % 2 ^ 64) n = u.fullBy .unbounded u.tail n ↔ u.SameLap n := by
  have hcap := h.capacity_le
  have htail := h.tail_lt
  have hhead := h.shadowHead_le
  have hle := h.head_le_tail
  rw [Ring.SameLap, ← mod_le_mod_iff_lap (by omega) (by omega), Bool.eq_iff_iff, Header.fullBy_unbounded]
  simp only [Header.fullBy, Counting.wrapping_add, Ring.words, wadd_words, decide_eq_true_eq]

theorem short_words (h : u.InOrder) (n : Nat) :
    u.words.short (u.head % 2 ^ 64) n = u.shortBy .unbounded u.head n := by
  have hcap := h.capacity_le
  have htail := h.tail_lt
  have hshadow := h.shadowTail_le
  have hhead := h.shadowHead_le
  have hle := h.head_le
  rw [Header.shortBy_unbounded]
  simp only [Header.shortBy, Counting.wrapping_sub, Ring.words,
    wsub_words hle (show u.shadowTail < u.head + 2 ^ 64 by omega)]

theorem publishTail_words (h : u.InOrder) (n t : Nat) (pc : ProducerPc) :
    u.words.publishTail n (t % 2 ^ 64) pc.words = (u.publishTailBy .unbounded n t pc).words := by
  simp only [Ring.publishTailBy, Counting.wrapping_add, Counting.unbounded, Ring.words, wadd_words,
    window_mod h.length_dvd]

theorem publishHead_words (h : u.InOrder) (n t : Nat) (pc : ConsumerPc) :
    u.words.publishHead n (t % 2 ^ 64) pc.words = (u.publishHeadBy .unbounded n t pc).words := by
  simp only [Ring.publishHeadBy, Counting.wrapping_add, Counting.unbounded, Ring.words, wadd_words,
    window_mod h.length_dvd]

/-- **`size()` is the number of unread bytes**, whatever the counters have come to. -/
theorem size_words (h : u.InOrder) : u.words.size = u.sent.length - u.taken.length := by
  have hcap := h.capacity_le
  have htail := h.tail_lt
  have hhead := h.shadowHead_le
  rw [h.sentLength, h.takenLength]
  exact wsub_words h.head_le_tail (by omega)

end Words

/-! ### In step -/

/-- An action that does not compare across a lap: every one but a comparison of the
producer whose two sums straddle a multiple of `2 ^ 64`. -/
def Ring.Aligned (u : Ring) (a : Action) : Prop :=
  ∀ call n t, u.producer = .check call n t → a = .inl .check → u.SameLap n

section InStep

variable {u : Ring}

@[simp] theorem words_producer : u.words.producer = u.producer.words := rfl

@[simp] theorem words_consumer : u.words.consumer = u.consumer.words := rfl

@[simp] theorem words_tail : u.words.tail = u.tail % 2 ^ 64 := rfl

@[simp] theorem words_head : u.words.head = u.head % 2 ^ 64 := rfl

@[simp] theorem words_data : u.words.data = u.data := rfl

@[simp] theorem words_offset (c : Nat) : u.words.offset c = u.offset c := rfl

/-- **The consumer cannot tell words from numbers.** -/
theorem consume_words (h : u.InOrder) (a : ConsumerAction) :
    u.words.consume a = (u.consumeBy .unbounded a).map Ring.words := by
  have hat := h.consumerAt
  unfold Ring.ConsumerAt at hat
  unfold Ring.consume Ring.consumeBy
  rw [words_consumer]
  cases hpc : u.consumer with
  | idle => cases a <;> rfl
  | dead => cases a <;> rfl
  | check call n t =>
    rw [hpc] at hat
    subst hat
    cases a with
    | check =>
      simp only [ConsumerPc.words, short_words h, Option.map_some]
      cases u.shortBy .unbounded u.head n <;> rfl
    | _ => rfl
  | reload call n t =>
    cases a with
    | reloadTail =>
      simp only [ConsumerPc.words, Option.map_some]
      cases call with
      | read => rfl
      | tryRead times => cases times <;> rfl
    | _ => rfl
  | handle n t =>
    cases a with
    | look =>
      simp only [ConsumerPc.words, words_offset, h.offset_words, words_data]
      split <;> rfl
    | publishHead => exact congrArg some (publishHead_words h n t .idle)
    | _ => rfl
  | panicked n t =>
    cases a with
    | publishHead => exact congrArg some (publishHead_words h n t .dead)
    | _ => rfl
  | skipReload n t =>
    rw [hpc] at hat
    subst hat
    cases a with
    | reloadTail =>
      have hcap := h.capacity_le
      have htail := h.tail_lt
      have hhead := h.shadowHead_le
      have hle := h.head_le_tail
      have hsame : u.head % 2 ^ 64 = u.tail % 2 ^ 64 ↔ u.head = u.tail := by omega
      have hdiff : wsub (u.tail % 2 ^ 64) (u.head % 2 ^ 64) = u.tail - u.head :=
        wsub_words hle (by omega)
      simp only [ConsumerPc.words, words_tail, hsame, Counting.wrapping_sub, hdiff, Counting.unbounded]
      split <;> rfl
    | _ => rfl
  | skipStore diff t =>
    cases a with
    | publishHead => exact congrArg some (publishHead_words h diff t .idle)
    | _ => rfl

/-- The producer cannot tell them apart unless it compares across a lap. -/
theorem produce_words (h : u.InOrder) (a : ProducerAction) (haligned : u.Aligned (.inl a)) :
    u.words.produce a = (u.produceBy .unbounded a).map Ring.words := by
  have hat := h.producerAt
  unfold Ring.ProducerAt at hat
  unfold Ring.produce Ring.produceBy
  rw [words_producer]
  cases hpc : u.producer with
  | idle => cases a <;> rfl
  | dead => cases a <;> rfl
  | check call n t =>
    rw [hpc] at hat
    obtain ⟨rfl, hn⟩ := hat
    cases a with
    | check =>
      have hlap := haligned call n u.tail hpc rfl
      simp only [ProducerPc.words, (full_words_iff h hn).mpr hlap, Option.map_some]
      cases u.fullBy .unbounded u.tail n with
      | true => cases call <;> rfl
      | false => rfl
    | _ => rfl
  | reload call n t => cases a <;> rfl
  | handle n t =>
    cases a with
    | fill i b =>
      simp only [ProducerPc.words, words_offset, h.offset_words, words_data]
      split
      · split <;> rfl
      · rfl
    | publishTail => exact congrArg some (publishTail_words h n t .idle)
    | _ => rfl
  | panicked n t =>
    cases a with
    | publishTail => exact congrArg some (publishTail_words h n t .dead)
    | _ => rfl

theorem act_words (h : u.InOrder) {a : Action} (haligned : u.Aligned a) :
    u.words.act a = (u.actBy .unbounded a).map Ring.words := by
  cases a with
  | inl a => exact produce_words h a haligned
  | inr a => exact consume_words h a

end InStep

/-- The ring with plain numbers and the code's ring take the same action, with a request
that fits a word and without comparing across a lap. -/
inductive Ring.TwinStep (p p' : Ring × Ring) : Prop where
  | act (a : Action) (fits : a.request < 2 ^ 64) (aligned : p.1.Aligned a)
      (plain : p.1.actBy .unbounded a = some p'.1) (code : p.2.act a = some p'.2)

/-- A run of both from a fresh ring. -/
def Ring.TwinRun (data : List UInt8) (u w : Ring) : Prop :=
  Relation.ReflTransGen Ring.TwinStep (Ring.fresh data, Ring.fresh data) (u, w)

theorem Ring.TwinRun.inOrder {data : List UInt8} {u w : Ring} (hrun : Ring.TwinRun data u w)
    (hpow : ∃ k, k ≤ 62 ∧ data.length = 2 ^ k) : u.InOrder ∧ w = u.words := by
  refine invariant_of_step (fun p : Ring × Ring => p.1.InOrder ∧ p.2 = p.1.words) hrun
    ⟨.of_fresh hpow, rfl⟩ ?_
  rintro p p' ⟨horder, hwords⟩ ⟨a, fits, aligned, plain, code⟩
  refine ⟨horder.act fits plain, ?_⟩
  rw [hwords, act_words horder aligned, plain] at code
  exact (Option.some.inj code).symm

/-- **The code's ring runs as the one with plain numbers** as long as no comparison of
the producer straddles a multiple of `2 ^ 64`. In every state of such a run the
code's counters are the low words, the next aligned action does the same to both,
whatever the consumer does it does to both, `size()` is the number of unread
bytes, and a comparison goes the same way exactly when it is aligned. -/
theorem wrapping_ring_tracks (data : List UInt8) (hpow : ∃ k, k ≤ 62 ∧ data.length = 2 ^ k)
    (u w : Ring) (hrun : Ring.TwinRun data u w) :
    w = u.words ∧
      (∀ a, u.Aligned a → w.act a = (u.actBy .unbounded a).map Ring.words) ∧
      (∀ a, w.consume a = (u.consumeBy .unbounded a).map Ring.words) ∧
      w.size = w.sent.length - w.taken.length ∧
      (∀ call n t, u.producer = .check call n t →
        (w.full (t % 2 ^ 64) n = u.fullBy .unbounded t n ↔ u.SameLap n)) := by
  obtain ⟨horder, rfl⟩ := hrun.inOrder hpow
  refine ⟨rfl, fun a => act_words horder, consume_words horder, size_words horder, ?_⟩
  intro call n t hpc
  have hat := horder.producerAt
  unfold Ring.ProducerAt at hat
  rw [hpc] at hat
  obtain ⟨rfl, hn⟩ := hat
  exact full_words_iff horder hn

/-! ### A run up to the wrap -/

/-- An aligned action of the ring with plain numbers is one of both. -/
theorem Ring.TwinRun.plain {data : List UInt8} {u u' : Ring} (hrun : Ring.TwinRun data u u.words)
    (hpow : ∃ k, k ≤ 62 ∧ data.length = 2 ^ k) (a : Action) (fits : a.request < 2 ^ 64)
    (aligned : u.Aligned a) (plain : u.actBy .unbounded a = some u') :
    Ring.TwinRun data u' u'.words := by
  refine hrun.tail ⟨a, fits, aligned, plain, ?_⟩
  rw [act_words (hrun.inOrder hpow).1 aligned, plain]
  rfl

/-- An action that is no comparison of the producer is aligned. -/
theorem Ring.aligned_of_ne {u : Ring} {a : Action} (h : a ≠ .inl .check) : u.Aligned a :=
  fun _ _ _ _ ha => absurd ha h

/-- Eight bytes, all zero. -/
def zeros : List UInt8 := List.replicate 8 0

theorem zeros_pow : ∃ k, k ≤ 62 ∧ zeros.length = 2 ^ k := ⟨3, by decide, rfl⟩

theorem append_zeros (c t n : Nat) :
    List.replicate t 0 ++ window zeros c n = List.replicate (t + n) 0 := by
  rw [zeros, window_replicate (by decide), List.replicate_append_replicate]

/-- A ring of eight bytes through which `h` zero bytes have gone and `t - h` more are to
go, with the copies of the counters at `s` and `d`. -/
def zeroRing (s h d t : Nat) (producer : ProducerPc) (consumer : ConsumerPc) : Ring :=
  { capacity := 8, allocatedSize := 8, head := h, shadowTail := d, tail := t, shadowHead := s,
    data := zeros, producer, consumer, sent := List.replicate t 0, taken := List.replicate h 0 }

/-- Such a ring with nothing in it and nothing going on. -/
def drained (s t : Nat) : Ring := zeroRing s t t t .idle .idle

/-- The four bytes of an open handle are sent and read. -/
theorem handle_drained {s t : Nat}
    (hrun : Ring.TwinRun zeros (zeroRing s t t t (.handle 4 t) .idle)
      (zeroRing s t t t (.handle 4 t) .idle).words) :
    Ring.TwinRun zeros (drained s (t + 4)) (drained s (t + 4)).words := by
  have hsent := hrun.plain zeros_pow (.inl .publishTail) (by decide)
    (Ring.aligned_of_ne (by decide))
    (show _ = some (zeroRing s t t (t + 4) .idle .idle) from by
      show some (Ring.publishTailBy _ _ _ _ _) = _
      rw [Ring.publishTailBy]
      simp only [zeroRing, append_zeros]
      rfl)
  have hread := hsent.plain zeros_pow (.inr (.tryRead 4 1)) (by decide)
    (Ring.aligned_of_ne (by decide))
    (show _ = some (zeroRing s t t (t + 4) .idle (.check (.tryRead 1) 4 t)) from rfl)
  have hshort := hread.plain zeros_pow (.inr .check) (by decide) (Ring.aligned_of_ne (by decide))
    (Ring.actBy_check_short rfl (decide_eq_true (show t - t < 4 by omega)))
  have hload := hshort.plain zeros_pow (.inr .reloadTail) (by decide)
    (Ring.aligned_of_ne (by decide))
    (show _ = some (zeroRing s t (t + 4) (t + 4) .idle (.check (.tryRead 0) 4 t)) from rfl)
  have hthere := hload.plain zeros_pow (.inr .check) (by decide) (Ring.aligned_of_ne (by decide))
    (Ring.actBy_check_there rfl (decide_eq_false (show ¬ t + 4 - t < 4 by omega)))
  refine hthere.plain zeros_pow (.inr .publishHead) (by decide) (Ring.aligned_of_ne (by decide)) ?_
  show some (Ring.publishHeadBy _ _ _ _ _) = _
  rw [Ring.publishHeadBy]
  simp only [zeroRing, append_zeros]
  rfl

theorem drained_first : Ring.TwinRun zeros (drained 0 4) (drained 0 4).words := by
  have hfresh : Ring.TwinRun zeros (drained 0 0) (drained 0 0).words := .refl
  have hcall := hfresh.plain zeros_pow (.inl (.write 4)) (by decide)
    (Ring.aligned_of_ne (by decide))
    (show _ = some (zeroRing 0 0 0 0 (.check .write 4 0) .idle) from rfl)
  have hgrant := hcall.plain zeros_pow (.inl .check) (by decide)
    (by rintro call n tail ⟨⟩ -; rfl) (Ring.actBy_check_room rfl rfl)
  exact handle_drained hgrant

/-- Four more bytes are sent and read. -/
theorem drained_next {t : Nat} (ht : t + 12 < 2 ^ 64)
    (hrun : Ring.TwinRun zeros (drained t (t + 4)) (drained t (t + 4)).words) :
    Ring.TwinRun zeros (drained (t + 4) (t + 8)) (drained (t + 4) (t + 8)).words := by
  have hcall := hrun.plain zeros_pow (.inl (.write 4)) (by decide)
    (Ring.aligned_of_ne (by decide))
    (show _ = some (zeroRing t (t + 4) (t + 4) (t + 4) (.check .write 4 (t + 4)) .idle) from rfl)
  -- By its old copy of the head the producer has no room, by a new one it has.
  have hfull := hcall.plain zeros_pow (.inl .check) (by decide)
    (by rintro call n tail ⟨⟩ -; rfl)
    (Ring.actBy_check_full rfl (decide_eq_true (show t + 8 ≤ t + 4 + 4 by omega)))
  have hreload := hfull.plain zeros_pow (.inl .reloadHead) (by decide)
    (Ring.aligned_of_ne (by decide))
    (show _ = some (zeroRing (t + 4) (t + 4) (t + 4) (t + 4) (.check .write 4 (t + 4)) .idle)
      from rfl)
  have hgrant := hreload.plain zeros_pow (.inl .check) (by decide)
    (by
      rintro call n tail ⟨⟩ -
      show (t + 4 + 8) / 2 ^ 64 = (t + 4 + 4) / 2 ^ 64
      omega)
    (Ring.actBy_check_room rfl (decide_eq_false (show ¬ t + 4 + 8 ≤ t + 4 + 4 by omega)))
  exact handle_drained hgrant

/-- Four bytes at a time, every multiple of four is reached before the counters wrap. -/
theorem drained_reached (i : Nat) (hi : 4 * i + 8 < 2 ^ 64) :
    Ring.TwinRun zeros (drained (4 * i) (4 * i + 4)) (drained (4 * i) (4 * i + 4)).words := by
  induction i with
  | zero => exact drained_first
  | succ i ih => exact drained_next (t := 4 * i) (by omega) (ih (by omega))

/-- The ring is empty, eight bytes before its counters wrap. -/
def beforeWrap : Ring := drained (2 ^ 64 - 12) (2 ^ 64 - 8)

theorem beforeWrap_reached : Ring.TwinRun zeros beforeWrap beforeWrap.words := by
  have hreached := drained_reached (2 ^ 62 - 3) (by decide)
  rw [show 4 * (2 ^ 62 - 3) + 4 = 2 ^ 64 - 8 by decide,
    show 4 * (2 ^ 62 - 3) = 2 ^ 64 - 12 by decide] at hreached
  exact hreached

/-- Up to there the two rings are in step. -/
theorem beforeWrap_tracks : beforeWrap.words.size = 0 := by
  have htracks := wrapping_ring_tracks zeros zeros_pow _ _ beforeWrap_reached
  have hsent : beforeWrap.words.sent.length = beforeWrap.words.taken.length := rfl
  rw [htracks.2.2.2.1, hsent, Nat.sub_self]

/-- There the code refuses five bytes of the eight that are free, and plain numbers
grant them. -/
theorem empty_ring_refuses :
    Ring.TwinRun zeros beforeWrap beforeWrap.words ∧
      (∃ u, [.inl (.tryWrite 5), .inl .check, .inl .reloadHead, .inl .check].foldlM
          (Ring.actBy .unbounded) beforeWrap = some u ∧ u.producer = .handle 5 (2 ^ 64 - 8)) ∧
      ∃ w, [.inl (.tryWrite 5), .inl .check, .inl .reloadHead, .inl .check].foldlM
          Ring.act beforeWrap.words = some w ∧ w.producer = .idle :=
  ⟨beforeWrap_reached, ⟨_, rfl, rfl⟩, ⟨_, rfl, rfl⟩⟩

end Faastr.Ringbuf
