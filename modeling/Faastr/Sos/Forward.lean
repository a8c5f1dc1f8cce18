import Faastr.Sos.RoundTrip

/-!
Forwarding arguments: re-encoding a partly consumed decoder.

A call's first value names the function and the rest are its arguments. The
kernel takes the first value off the decoder and passes the decoder on, which
has an encoder of its own (`impl SOS for DecodeIter`). That encoder writes a
length word of zero where `encode_sos` writes the length of the message, and
the decoder refuses a length below eight. So nothing that is forwarded this way
can be decoded again (`decodeSos_forwarded`), whatever the arguments are.

* `forwarding_loses_arguments`: for every list that survives the round trip and
  every split point with arguments left, the decoder is there to be forwarded
  and what it is encoded to does not decode to the arguments.
-/

namespace Faastr.Sos

open Faastr.Lib

/-- The decoder after `k` calls of `next` on the encoding of the values in `buf`. -/
def HeldAfter (vals : List OwnedValue) (buf : List UInt8) (lazy : Bool) (k : Nat)
    (it : DecodeIter) : Prop :=
  ∃ b n it₀, encodeSos buf (vals.map OwnedValue.borrow) = .ok (b, n) ∧
    decodeSos b lazy = .ok (some it₀) ∧ it₀.nextTimes k = .ok it

/-- Encoded into a buffer of the length it announces and decoded again, the
decoder held after `k` calls yields the values from the `k`-th on. -/
def ForwardsRest (vals : List OwnedValue) (buf : List UInt8) (lazy : Bool) (k : Nat) : Prop :=
  ∃ it, HeldAfter vals buf lazy k it ∧
    ∀ fwd : List UInt8, fwd.length = it.encodedLen →
      ∃ b n it', it.encode fwd = .ok (b, n) ∧ decodeSos b false = .ok (some it') ∧
        collect it' = .ok ((vals.drop k).map OwnedValue.borrow)

/-! ### The decoder to be forwarded -/

/-- A payload of a transmissible value spells a value in both modes. -/
theorem decodeValue_isSome {v : OwnedValue} (ht : v.Transmissible)
    (hlen : v.borrow.payload.length < 2 ^ 32) (lazy : Bool) :
    ∃ val, decodeValue collect lazy v.borrow.ctype v.borrow.payload.length v.borrow.payload =
      .ok (some val) := by
  have heager := decodeValue_borrow v hlen
  rw [(readBack_eq_iff v).mpr ht] at heager
  cases lazy with
  | false => exact ⟨_, heager⟩
  | true =>
    cases v with
    | embedded vs =>
      have hmsg : (OwnedValue.embedded vs).borrow.payload = message (borrowAll vs) := rfl
      rw [hmsg, message_length] at hlen
      have hne : borrowAll vs ≠ [] := by simpa using ht.1
      have hdec := decodeSos_message hlen true
      rw [if_neg hne] at hdec
      refine ⟨.embeddedOut ⟨(borrowAll vs).length, wires (borrowAll vs), true⟩, ?_⟩
      rw [hmsg]
      simp only [OwnedValue.borrow, Value.ctype, decodeValue, hdec]
      rfl
    | _ => exact ⟨_, heager⟩

/-- Each call of `next` on the wires of transmissible values takes one wire. -/
theorem nextTimes_wires (lazy : Bool) : ∀ (vs : List OwnedValue) (k : Nat), AllTransmissible vs →
    encodedLen (borrowAll vs) < 2 ^ 32 → k ≤ vs.length →
    (DecodeIter.mk vs.length (wires (borrowAll vs)) lazy).nextTimes k =
      .ok ⟨(vs.drop k).length, wires (borrowAll (vs.drop k)), lazy⟩
  | _, 0, _, _, _ => rfl
  | [], k + 1, _, _, hk => absurd hk (Nat.not_succ_le_zero k)
  | v :: vs, k + 1, ht, hlen, hk => by
      have hsize := encodedSize_eq v.borrow
      rw [borrowAll, encodedLen_cons] at hlen
      have hplen : v.borrow.payload.length < 2 ^ 32 := by omega
      obtain ⟨val, hval⟩ := decodeValue_isSome ht.1 hplen lazy
      have hnext : (DecodeIter.mk (v :: vs).length (wires (borrowAll (v :: vs))) lazy).next =
          .ok (some val, ⟨vs.length, wires (borrowAll vs), lazy⟩) := by
        rw [DecodeIter.next, borrowAll, wires_cons, List.length_cons,
          nextWith_wire collect hplen, hval]
        rfl
      have ih := nextTimes_wires lazy vs k ht.2 (by omega) (Nat.le_of_succ_le_succ hk)
      rw [DecodeIter.nextTimes, hnext]
      exact ih

/-- After any number of calls up to the number of values there is a decoder. -/
theorem heldAfter_exists {vals : List OwnedValue} {buf : List UInt8}
    (hlen : encodedLen (vals.map OwnedValue.borrow) < 2 ^ 32)
    (hbuf : buf.length = encodedLen (vals.map OwnedValue.borrow)) (hne : vals ≠ [])
    (ht : AllTransmissible vals) (lazy : Bool) {k : Nat} (hk : k ≤ vals.length) :
    ∃ it, HeldAfter vals buf lazy k it := by
  have hdec := decodeSos_owned hlen hne lazy
  rw [← borrowAll_eq_map] at hlen
  exact ⟨_, _, _, _, encodeSos_owned hbuf, hdec, nextTimes_wires lazy vals k ht hlen hk⟩

/-! ### What it is encoded to -/

/-- The forwarding encoder fills a buffer of the length it announces with the
count, a length word of zero and the bytes left. -/
theorem DecodeIter.encode_exact (it : DecodeIter) {fwd : List UInt8}
    (hfwd : fwd.length = it.encodedLen) :
    it.encode fwd = .ok (leBytes 4 it.count ++ (leBytes 4 0 ++ it.buff), it.encodedLen) := by
  unfold DecodeIter.encodedLen at hfwd
  obtain ⟨w₀, rest, hw₀, rfl⟩ := exists_split fwd 4 (by omega)
  rw [List.length_append] at hfwd
  obtain ⟨w₁, body, hw₁, rfl⟩ := exists_split rest 4 (by omega)
  rw [List.length_append] at hfwd
  have hbody : body.length = it.buff.length := by omega
  have hcount : onSlice (w₀ ++ (w₁ ++ body)) 0 4 (fun w => writeLe 4 w it.count) =
      .ok (leBytes 4 it.count ++ (w₁ ++ body)) :=
    onSlice_front w₀ (w₁ ++ body) rfl hw₀.symm (writeLe_exact hw₀ it.count)
  have hsize : onSlice (leBytes 4 it.count ++ (w₁ ++ body)) 4 8 (fun w => writeLe 4 w 0) =
      .ok (leBytes 4 it.count ++ (leBytes 4 0 ++ body)) :=
    onSlice_split (leBytes 4 it.count) w₁ body rfl (by simp) (by simp [hw₁]) (writeLe_exact hw₁ 0)
  have hcopy : onSlice (leBytes 4 it.count ++ (leBytes 4 0 ++ body)) 8
      (leBytes 4 it.count ++ (leBytes 4 0 ++ body)).length (fun w => copyFromSlice w it.buff) =
      .ok ((leBytes 4 it.count ++ leBytes 4 0) ++ (it.buff ++ [])) :=
    onSlice_split (leBytes 4 it.count ++ leBytes 4 0) body [] (by simp) (by simp) (by simp; omega)
      (copyFromSlice_of_length_eq hbody)
  simp only [DecodeIter.encode, hcount, hsize, hcopy, bind, Except.bind, pure, Except.pure]
  simp

/-- **A forwarded message is refused.** Its length word is zero. -/
theorem decodeSos_forwarded (it : DecodeIter) {fwd b : List UInt8} {n : Nat}
    (hfwd : fwd.length = it.encodedLen) (henc : it.encode fwd = .ok (b, n)) (lazy : Bool) :
    decodeSos b lazy = .ok none := by
  rw [it.encode_exact hfwd] at henc
  cases henc
  set b := leBytes 4 it.count ++ (leBytes 4 0 ++ it.buff) with hb
  unfold decodeSos
  split
  · rfl
  · have hcount : slice b 0 4 = .ok (leBytes 4 it.count) :=
      slice_split [] (leBytes 4 it.count) (leBytes 4 0 ++ it.buff) rfl rfl (by simp)
    have hsize : slice b 4 8 = .ok (leBytes 4 0) :=
      slice_split (leBytes 4 it.count) (leBytes 4 0) it.buff rfl (by simp) (by simp)
    have hread := readLe_of_length (leBytes_length 4 it.count)
    have hzero : readLe 4 (leBytes 4 0) = .ok 0 := readLe_leBytes (by decide)
    simp only [hcount, hsize, hread, hzero, bind, Except.bind]
    rw [if_pos (Or.inr (by decide))]
    rfl

theorem not_forwardsRest (vals : List OwnedValue) (buf : List UInt8) (lazy : Bool) (k : Nat) :
    ¬ ForwardsRest vals buf lazy k := by
  rintro ⟨it, -, h⟩
  obtain ⟨b, n, it', henc, hdec, -⟩ := h (List.replicate it.encodedLen 0) (by simp)
  rw [decodeSos_forwarded it (by simp) henc] at hdec
  cases hdec

/-- **Forwarding loses the arguments, always.** For every list that survives the
round trip, in both modes and after every number of calls of `next` that leaves
a value, there is a decoder to forward, and what it is encoded to does not
decode to the values left. -/
theorem forwarding_loses_arguments (vals : List OwnedValue) (buf : List UInt8) (lazy : Bool)
    (k : Nat) (hlen : encodedLen (vals.map OwnedValue.borrow) < 2 ^ 32)
    (hbuf : buf.length = encodedLen (vals.map OwnedValue.borrow)) (hround : RoundTrips vals buf)
    (hk : k < vals.length) :
    (∃ it, HeldAfter vals buf lazy k it) ∧ ¬ ForwardsRest vals buf lazy k := by
  obtain ⟨hne, ht⟩ := transmissible_of_roundTrips hlen hbuf hround
  exact ⟨heldAfter_exists hlen hbuf hne ht lazy (Nat.le_of_lt hk), not_forwardsRest vals buf lazy k⟩

/-- The arguments of a call, after its function was taken, are lost. -/
theorem sampleCall_arguments_lost :
    RoundTrips sampleCall (List.replicate 49 0) ∧
      (∃ it, HeldAfter sampleCall (List.replicate 49 0) true 1 it) ∧
      ¬ ForwardsRest sampleCall (List.replicate 49 0) true 1 :=
  ⟨roundTrips_of_transmissible sampleCall_short sampleCall_buf sampleCall_ne_nil (by decide),
    heldAfter_exists sampleCall_short sampleCall_buf sampleCall_ne_nil (by decide) true (by decide),
    not_forwardsRest _ _ _ _⟩

theorem sampleCall_last_argument_lost :
    (∃ it, HeldAfter sampleCall (List.replicate 49 0) false 2 it) ∧
      ¬ ForwardsRest sampleCall (List.replicate 49 0) false 2 :=
  forwarding_loses_arguments sampleCall _ false 2 sampleCall_short sampleCall_buf
    (roundTrips_of_transmissible sampleCall_short sampleCall_buf sampleCall_ne_nil (by decide))
    (by decide)

end Faastr.Sos
