import Faastr.Sos.Decode

/-!
What the decoder reads off what the encoder wrote.

`readBack` and `readBackAll` say it value by value: which value the decoder
hands out for the wire of a value, and where it stops. `collect_wires` proves
that the decoder does that, on every list whose message fits the 32-bit length
words. The round trip is then a statement about `readBackAll` alone: it returns
the list unless an embedded list is empty (a message of eight bytes is refused)
or a module name holds a NUL (the name is cut at the first one).

* `sos_round_trip_iff`: the values that survive the round trip, exactly.
-/

namespace Faastr.Sos

open Faastr.Lib

/-! ### One wire at the front of the bytes -/

theorem four_le_encodedSize (v : Value) : 4 ≤ v.encodedSize := by
  cases v <;> simp only [Value.encodedSize] <;> omega

theorem payload_length_of_width {v : Value} {w : Nat} (h : v.ctype.width = some w) :
    v.payload.length = w := by
  cases v <;> simp_all [Value.ctype, CType.width, Value.payload]

/-- The span of a payload is read off its tag and length word. -/
theorem payloadSpan_wire {v : Value} (hlen : v.payload.length < 2 ^ 32) (rest : List UInt8) :
    payloadSpan v.ctype (v.ctype.toU8 :: (v.lengthWord ++ (v.payload ++ rest))) =
      .ok (1 + v.lengthWord.length, v.payload.length) := by
  unfold payloadSpan
  cases hw : v.ctype.width with
  | some w =>
    have hnil : v.lengthWord = [] := by rw [Value.lengthWord, if_pos (by simp [hw])]
    rw [payload_length_of_width hw, hnil]
    rfl
  | none =>
    have hword : v.lengthWord = leBytes 4 v.payload.length := by
      rw [Value.lengthWord, if_neg (by simp [hw])]
    have hslice : slice (v.ctype.toU8 :: (v.lengthWord ++ (v.payload ++ rest))) 1 5 =
        .ok v.lengthWord :=
      slice_split [v.ctype.toU8] v.lengthWord (v.payload ++ rest) rfl rfl (by simp [hword])
    simp only [hslice, bind, Except.bind, pure, Except.pure]
    rw [hword, readLe_leBytes (by simpa using hlen), leBytes_length]

/-- `next` on bytes that start with a wire decodes its payload, and goes on
after it if the payload spells a value. -/
theorem nextWith_wire (c : DecodeIter → Checked (List Value)) {v : Value}
    (hlen : v.payload.length < 2 ^ 32) (n : Nat) (rest : List UInt8) (lazy : Bool) :
    nextWith c ⟨n + 1, v.ctype.toU8 :: (v.lengthWord ++ (v.payload ++ rest)), lazy⟩ = (do
      match ← decodeValue c lazy v.ctype v.payload.length v.payload with
      | none => return (none, ⟨n + 1, v.ctype.toU8 :: (v.lengthWord ++ (v.payload ++ rest)), lazy⟩)
      | some val => return (some val, ⟨n, rest, lazy⟩)) := by
  have hsize := encodedSize_eq v
  have hfour := four_le_encodedSize v
  have hbuff : (v.ctype.toU8 :: (v.lengthWord ++ (v.payload ++ rest))).length =
      1 + v.encodedSize + rest.length := by
    simp only [List.length_cons, List.length_append]; omega
  have hdata : slice (v.ctype.toU8 :: (v.lengthWord ++ (v.payload ++ rest)))
      (1 + v.lengthWord.length) (1 + v.lengthWord.length + v.payload.length) = .ok v.payload :=
    slice_split (v.ctype.toU8 :: v.lengthWord) v.payload rest (by simp)
      (by simp [Nat.add_comm]) (by simp [Nat.add_comm])
  have hrest : slice (v.ctype.toU8 :: (v.lengthWord ++ (v.payload ++ rest)))
      (v.payload.length + (1 + v.lengthWord.length))
      (v.ctype.toU8 :: (v.lengthWord ++ (v.payload ++ rest))).length = .ok rest :=
    slice_split (v.ctype.toU8 :: (v.lengthWord ++ v.payload)) rest [] (by simp)
      (by simp; omega) (by simp; omega)
  have hgo : ¬((v.ctype.toU8 :: (v.lengthWord ++ (v.payload ++ rest))).length < 5 ∨ n + 1 = 0) := by
    omega
  have hroom : ¬((v.ctype.toU8 :: (v.lengthWord ++ (v.payload ++ rest))).length <
      v.payload.length + (1 + v.lengthWord.length)) := by
    omega
  generalize hdecode : decodeValue c lazy v.ctype v.payload.length v.payload = decoded
  rw [nextWith, if_neg hgo]
  rcases decoded with e | _ | val <;>
    simp only [getAt, List.getElem?_cons_zero, CType.fromU8_toU8, payloadSpan_wire hlen, hdata, hrest,
      if_neg hroom, hdecode, bind, Except.bind, Nat.add_sub_cancel]

/-! ### One message -/

/-- The decoder accepts a message exactly when it has a value in it. -/
theorem decodeSos_message {vs : List Value} (hlen : encodedLen vs < 2 ^ 32) (lazy : Bool) :
    decodeSos (message vs) lazy =
      .ok (if vs = [] then none else some ⟨vs.length, wires vs, lazy⟩) := by
  have hmlen := message_length vs
  have hwires := encodedLen_eq vs
  have hcount : slice (message vs) 0 4 = .ok (leBytes 4 vs.length) :=
    slice_split [] (leBytes 4 vs.length) (leBytes 4 (encodedLen vs) ++ wires vs) rfl rfl (by simp)
  have hsize : slice (message vs) 4 8 = .ok (leBytes 4 (encodedLen vs)) :=
    slice_split (leBytes 4 vs.length) (leBytes 4 (encodedLen vs)) (wires vs) rfl (by simp) (by simp)
  have hbody : slice (message vs) 8 (encodedLen vs) = .ok (wires vs) :=
    slice_split (leBytes 4 vs.length ++ leBytes 4 (encodedLen vs)) (wires vs) [] (by simp [message])
      (by simp) (by simp [hwires])
  unfold decodeSos
  cases vs with
  | nil => rfl
  | cons v vs =>
    have hlong := length_le_encodedLen (v :: vs)
    simp only [List.length_cons] at hlong
    rw [if_neg (by omega), hcount, hsize]
    simp only [bind, Except.bind]
    rw [readLe_leBytes (by simp only [List.length_cons]; omega), readLe_leBytes (by omega)]
    simp only [hmlen]
    rw [if_neg (by omega), hbody]
    simp [pure, Except.pure]

/-! ### One function -/

/-- `decodeFunction` never faults: the cut is inside the bytes. -/
theorem decodeFunction_eq (vec : List UInt8) :
    decodeFunction vec = .ok ((vec.findIdx? (· == 0)).bind fun pos =>
      (fromUtf8 (vec.take pos)).bind fun module =>
        (fromUtf8 (vec.drop (pos + 1))).map fun name => .function { module, name }) := by
  unfold decodeFunction
  cases hpos : vec.findIdx? (· == 0) with
  | none => rfl
  | some pos =>
    have hlt : pos < vec.length := (List.findIdx?_eq_some_iff_getElem.mp hpos).1
    have hmodule : slice vec 0 pos = .ok (vec.take pos) := by
      rw [slice, if_pos ⟨Nat.zero_le _, Nat.le_of_lt hlt⟩, List.drop_zero, Nat.sub_zero]
    have hname : slice vec (pos + 1) vec.length = .ok (vec.drop (pos + 1)) := by
      rw [slice, if_pos ⟨hlt, Nat.le_refl _⟩]
      simp [List.take_of_length_le]
    simp only [hmodule, hname, bind, Except.bind, Option.bind_some]
    cases fromUtf8 (vec.take pos) with
    | none => rfl
    | some module => cases fromUtf8 (vec.drop (pos + 1)) <;> rfl

/-- The function the decoder reads off two names with a NUL between them. -/
def splitFunction (vec : List UInt8) : Option Value :=
  (vec.findIdx? (· == 0)).bind fun pos =>
    (fromUtf8 (vec.take pos)).bind fun module =>
      (fromUtf8 (vec.drop (pos + 1))).map fun name => .function { module, name }

theorem findIdx?_zero_of_notMem {m : List UInt8} (h : 0 ∉ m) (rest : List UInt8) :
    (m ++ 0 :: rest).findIdx? (· == 0) = some m.length := by
  rw [List.findIdx?_eq_some_iff_getElem]
  refine ⟨by simp, by simp, fun j hj => ?_⟩
  rw [List.getElem_append_left hj]
  simp only [beq_iff_eq]
  intro hz
  exact h (hz ▸ List.getElem_mem hj)

theorem findIdx?_zero_lt_of_mem {m : List UInt8} (h : 0 ∈ m) (rest : List UInt8) :
    ∃ pos, (m ++ rest).findIdx? (· == 0) = some pos ∧ pos < m.length := by
  cases hpos : m.findIdx? (· == 0) with
  | none => exact absurd (List.findIdx?_eq_none_iff.mp hpos 0 h) (by simp)
  | some pos =>
    refine ⟨pos, ?_, (List.findIdx?_eq_some_iff_getElem.mp hpos).1⟩
    rw [List.findIdx?_append, hpos]
    rfl

/-- **A function is read back exactly when its module holds no NUL.** Otherwise
the module read back, if any, is a proper prefix of the one written. -/
theorem splitFunction_eq_iff (f : Function) :
    splitFunction (utf8 f.module ++ 0 :: utf8 f.name) = some (.function f) ↔
      0 ∉ utf8 f.module := by
  unfold splitFunction
  constructor
  · intro h hmem
    obtain ⟨pos, hpos, hlt⟩ := findIdx?_zero_lt_of_mem hmem (0 :: utf8 f.name)
    rw [hpos] at h
    simp only [Option.bind_some, Option.bind_eq_some_iff, Option.map_eq_some_iff] at h
    obtain ⟨module, hmodule, name, -, heq⟩ := h
    cases heq
    have hbytes := utf8_of_fromUtf8 hmodule
    have hlen := congrArg List.length hbytes
    rw [List.take_append_of_le_length (Nat.le_of_lt hlt), List.length_take] at hlen
    simp only at hlen hlt
    omega
  · intro h
    rw [findIdx?_zero_of_notMem h]
    have htake : (utf8 f.module ++ 0 :: utf8 f.name).take (utf8 f.module).length = utf8 f.module :=
      List.take_left
    have hdrop : (utf8 f.module ++ 0 :: utf8 f.name).drop ((utf8 f.module).length + 1) =
        utf8 f.name := by
      rw [← List.drop_drop, List.drop_left]
      rfl
    simp only [Option.bind_some, htake, hdrop, fromUtf8_utf8, Option.map_some]

/-! ### What is read back -/

mutual
/-- The value the decoder hands out for the wire of a value; none if it stops
there. -/
def OwnedValue.readBack : OwnedValue → Option Value
  | .function f => splitFunction (utf8 f.module ++ 0 :: utf8 f.name)
  | .embedded vs => if vs.isEmpty then none else some (.embeddedVec (readBackAll vs))
  | .int32 i => some (.int32 i)
  | .uint32 i => some (.uint32 i)
  | .int64 i => some (.int64 i)
  | .uint64 i => some (.uint64 i)
  | .float i => some (.float i)
  | .double i => some (.double i)
  | .error i => some (.error i)
  | .string i => some (.string i)
  | .opaqueBytes i => some (.opaqueBytes i)

/-- The values handed out for the wires of a list, up to the first stop. -/
def readBackAll : List OwnedValue → List Value
  | [] => []
  | v :: vs =>
      match v.readBack with
      | none => []
      | some r => r :: readBackAll vs
end

/-- A NUL-terminated payload loses its terminator. -/
theorem unterminated_append (bytes : List UInt8) :
    unterminated (bytes ++ [0]).length (bytes ++ [0]) = .ok bytes := by
  unfold unterminated
  rw [if_neg (by simp)]
  exact slice_split [] bytes [0] rfl rfl (by simp)

theorem readLe_uint32 (i : UInt32) : readLe 4 (leBytes 4 i.toNat) = .ok i.toNat :=
  readLe_leBytes (by simpa using i.toNat_lt)

theorem readLe_uint64 (i : UInt64) : readLe 8 (leBytes 8 i.toNat) = .ok i.toNat :=
  readLe_leBytes (by simpa using i.toNat_lt)

mutual
theorem borrow_encodable : ∀ v : OwnedValue, v.borrow.Encodable
  | .embedded vs => borrowAll_encodable vs
  | .int32 _ | .uint32 _ | .int64 _ | .uint64 _ | .float _ | .double _ | .error _ | .string _
  | .opaqueBytes _ | .function _ => trivial

/-- Borrowed owned values hold no undecoded iterator. -/
theorem borrowAll_encodable : ∀ vs : List OwnedValue, AllEncodable (borrowAll vs)
  | [] => trivial
  | v :: vs => ⟨borrow_encodable v, borrowAll_encodable vs⟩
end

mutual
/-- A payload spells the value `readBack` says. -/
theorem decodeValue_borrow : ∀ v : OwnedValue, v.borrow.payload.length < 2 ^ 32 →
    decodeValue collect false v.borrow.ctype v.borrow.payload.length v.borrow.payload =
      .ok v.readBack
  | .int32 i, _ => by
      simp [OwnedValue.borrow, Value.ctype, Value.payload, decodeValue, readLe_uint32, bind,
        Except.bind, pure, Except.pure, OwnedValue.readBack]
  | .uint32 i, _ | .float i, _ => by
      simp [OwnedValue.borrow, Value.ctype, Value.payload, decodeValue, readLe_uint32, bind,
        Except.bind, pure, Except.pure, OwnedValue.readBack]
  | .int64 i, _ => by
      simp [OwnedValue.borrow, Value.ctype, Value.payload, decodeValue, readLe_uint64, bind,
        Except.bind, pure, Except.pure, OwnedValue.readBack]
  | .uint64 i, _ | .double i, _ => by
      simp [OwnedValue.borrow, Value.ctype, Value.payload, decodeValue, readLe_uint64, bind,
        Except.bind, pure, Except.pure, OwnedValue.readBack]
  | .string i, _ | .error i, _ => by
      simp only [OwnedValue.borrow, Value.ctype, Value.payload, decodeValue, unterminated_append,
        bind, Except.bind, pure, Except.pure, fromUtf8_utf8, Option.map_some, OwnedValue.readBack]
  | .opaqueBytes i, _ => by
      have hall : slice i 0 i.length = .ok i := slice_split [] i [] (by simp) rfl (by simp)
      simp only [OwnedValue.borrow, Value.ctype, Value.payload, decodeValue, hall, bind,
        Except.bind, pure, Except.pure, OwnedValue.readBack]
  | .function f, _ => by
      have hvec : (Value.function f).payload = (utf8 f.module ++ 0 :: utf8 f.name) ++ [0] := by
        simp [Value.payload]
      simp only [OwnedValue.borrow, Value.ctype, decodeValue, OwnedValue.readBack]
      rw [hvec, unterminated_append]
      exact decodeFunction_eq _
  | .embedded vs, hlen => by
      have hmsg : (OwnedValue.embedded vs).borrow.payload = message (borrowAll vs) := rfl
      rw [hmsg, message_length] at hlen
      have hdec := decodeSos_message hlen false
      have hall := collect_wires vs hlen
      rw [hmsg]
      simp only [OwnedValue.borrow, Value.ctype, decodeValue, hdec, OwnedValue.readBack]
      cases vs with
      | nil => rfl
      | cons v vs =>
        have hne : borrowAll (v :: vs) ≠ [] := by simp [borrowAll]
        have hblen : (borrowAll (v :: vs)).length = (v :: vs).length := by simp
        rw [if_neg hne, hblen]
        simp only [bind, Except.bind, hall]
        rfl

/-- **The decoder reads the wires of a list back up to the first stop.** -/
theorem collect_wires : ∀ vs : List OwnedValue, encodedLen (borrowAll vs) < 2 ^ 32 →
    collect ⟨vs.length, wires (borrowAll vs), false⟩ = .ok (readBackAll vs)
  | [], _ => rfl
  | v :: vs, hlen => by
      have hsize := encodedSize_eq v.borrow
      rw [borrowAll, encodedLen_cons] at hlen
      have hv := decodeValue_borrow v (by omega)
      have hvs := collect_wires vs (by omega)
      rw [collect_eq, DecodeIter.next, borrowAll, wires_cons, List.length_cons,
        nextWith_wire collect (by omega), hv]
      simp only [bind, Except.bind, readBackAll]
      cases v.readBack with
      | none => rfl
      | some r => simp only [pure, Except.pure, hvs]
end

/-! ### What survives the round trip -/

mutual
/-- No embedded list is empty and no module holds a NUL, at any depth. -/
def OwnedValue.Transmissible : OwnedValue → Prop
  | .function f => 0 ∉ utf8 f.module
  | .embedded vs => vs ≠ [] ∧ AllTransmissible vs
  | _ => True

def AllTransmissible : List OwnedValue → Prop
  | [] => True
  | v :: vs => v.Transmissible ∧ AllTransmissible vs
end

mutual
def OwnedValue.decTransmissible : (v : OwnedValue) → Decidable v.Transmissible
  | .function f => inferInstanceAs (Decidable (0 ∉ utf8 f.module))
  | .embedded [] => isFalse fun h => h.1 rfl
  | .embedded (v :: vs) =>
      match decAllTransmissible (v :: vs) with
      | isTrue h => isTrue ⟨List.cons_ne_nil v vs, h⟩
      | isFalse h => isFalse fun h' => h h'.2
  | .int32 _ | .uint32 _ | .int64 _ | .uint64 _ | .float _ | .double _ | .error _ | .string _
  | .opaqueBytes _ => isTrue trivial

def decAllTransmissible : (vs : List OwnedValue) → Decidable (AllTransmissible vs)
  | [] => isTrue trivial
  | v :: vs =>
      match v.decTransmissible, decAllTransmissible vs with
      | isTrue h, isTrue hs => isTrue ⟨h, hs⟩
      | isFalse h, _ => isFalse fun h' => h h'.1
      | _, isFalse hs => isFalse fun h' => hs h'.2
end

instance (vs : List OwnedValue) : Decidable (AllTransmissible vs) := decAllTransmissible vs

mutual
theorem readBack_eq_iff : ∀ v : OwnedValue, v.readBack = some v.borrow ↔ v.Transmissible
  | .function f => splitFunction_eq_iff f
  | .embedded vs => by
      have hall := readBackAll_eq_iff vs
      simp only [OwnedValue.readBack, OwnedValue.borrow, OwnedValue.Transmissible, ← hall]
      cases vs with
      | nil => simp
      | cons v vs => simp
  | .int32 _ | .uint32 _ | .int64 _ | .uint64 _ | .float _ | .double _ | .error _ | .string _
  | .opaqueBytes _ => by
      simp [OwnedValue.readBack, OwnedValue.borrow, OwnedValue.Transmissible]

theorem readBackAll_eq_iff : ∀ vs : List OwnedValue,
    readBackAll vs = borrowAll vs ↔ AllTransmissible vs
  | [] => by simp [readBackAll, AllTransmissible]
  | v :: vs => by
      have hv := readBack_eq_iff v
      have hvs := readBackAll_eq_iff vs
      simp only [AllTransmissible, ← hv, ← hvs, readBackAll, borrowAll]
      cases v.readBack with
      | none => simp
      | some r => simp
end

/-- The values come back: encoded into `buf`, decoded eagerly and iterated to
the end, they are the values that were encoded. -/
def RoundTrips (vals : List OwnedValue) (buf : List UInt8) : Prop :=
  ∃ b n it, encodeSos buf (vals.map OwnedValue.borrow) = .ok (b, n) ∧
    decodeSos b false = .ok (some it) ∧ collect it = .ok (vals.map OwnedValue.borrow)

section

variable {vals : List OwnedValue} {buf : List UInt8}
  (hlen : encodedLen (vals.map OwnedValue.borrow) < 2 ^ 32)
  (hbuf : buf.length = encodedLen (vals.map OwnedValue.borrow))

include hbuf in
/-- Encoding owned values into a buffer of the announced length never fails. -/
theorem encodeSos_owned : encodeSos buf (vals.map OwnedValue.borrow) =
    .ok (message (borrowAll vals), encodedLen (borrowAll vals)) := by
  rw [← borrowAll_eq_map] at hbuf ⊢
  exact encodeSos_exact (borrowAll_encodable vals) hbuf

include hlen in
/-- The message of a non-empty list decodes to an iterator over its wires. -/
theorem decodeSos_owned (hne : vals ≠ []) (lazy : Bool) :
    decodeSos (message (borrowAll vals)) lazy =
      .ok (some ⟨vals.length, wires (borrowAll vals), lazy⟩) := by
  rw [← borrowAll_eq_map] at hlen
  have hbne : borrowAll vals ≠ [] := by simpa using hne
  have hblen : (borrowAll vals).length = vals.length := by simp
  rw [decodeSos_message hlen lazy, if_neg hbne, hblen]

include hlen hbuf in
theorem transmissible_of_roundTrips (h : RoundTrips vals buf) :
    vals ≠ [] ∧ AllTransmissible vals := by
  obtain ⟨b, n, it, hb, hit, hall⟩ := h
  rw [encodeSos_owned hbuf] at hb
  cases hb
  have hne : vals ≠ [] := by
    rintro rfl
    rw [← borrowAll_eq_map] at hlen
    rw [decodeSos_message hlen false] at hit
    cases hit
  rw [decodeSos_owned hlen hne] at hit
  cases hit
  rw [← borrowAll_eq_map] at hlen hall
  rw [collect_wires vals hlen] at hall
  exact ⟨hne, (readBackAll_eq_iff vals).mp (Except.ok.inj hall)⟩

include hlen hbuf in
theorem roundTrips_of_transmissible (hne : vals ≠ []) (ht : AllTransmissible vals) :
    RoundTrips vals buf := by
  refine ⟨_, _, _, encodeSos_owned hbuf, decodeSos_owned hlen hne false, ?_⟩
  rw [← borrowAll_eq_map] at hlen ⊢
  rw [collect_wires vals hlen, (readBackAll_eq_iff vals).mpr ht]

end

/-- **The round trip, exactly.** On every list whose message is shorter than
2^32 bytes, encoding into a buffer of the announced length and decoding again
returns the list if and only if the list is not empty, no embedded list is
empty and no module holds a NUL. -/
theorem sos_round_trip_iff (vals : List OwnedValue) (buf : List UInt8)
    (hlen : encodedLen (vals.map OwnedValue.borrow) < 2 ^ 32)
    (hbuf : buf.length = encodedLen (vals.map OwnedValue.borrow)) :
    RoundTrips vals buf ↔ vals ≠ [] ∧ AllTransmissible vals :=
  ⟨transmissible_of_roundTrips hlen hbuf,
    fun ⟨hne, ht⟩ => roundTrips_of_transmissible hlen hbuf hne ht⟩

/-- A function, a scalar and a nested list in one message of 49 bytes. -/
def sampleCall : List OwnedValue :=
  [.function ⟨"call", "print"⟩, .int32 (-7), .embedded [.string "x"]]

theorem sampleCall_ne_nil : sampleCall ≠ [] := List.cons_ne_nil _ _

theorem sampleCall_encodedLen : encodedLen (sampleCall.map OwnedValue.borrow) = 49 := by decide

theorem sampleCall_short : encodedLen (sampleCall.map OwnedValue.borrow) < 2 ^ 32 := by
  rw [sampleCall_encodedLen]
  decide

theorem sampleCall_buf : (List.replicate 49 (0 : UInt8)).length =
    encodedLen (sampleCall.map OwnedValue.borrow) := by
  rw [sampleCall_encodedLen]
  rfl

theorem sampleCall_round_trips :
    encodedLen (sampleCall.map OwnedValue.borrow) < 2 ^ 32 ∧
      RoundTrips sampleCall (List.replicate 49 0) :=
  ⟨sampleCall_short, (sos_round_trip_iff sampleCall _ sampleCall_short sampleCall_buf).mpr
    ⟨sampleCall_ne_nil, by decide⟩⟩

end Faastr.Sos
