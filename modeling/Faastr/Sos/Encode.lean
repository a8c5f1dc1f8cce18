import Faastr.Sos.Value

/-!
The SOS encoder (`encode_sos` and the `SOS` implementations of
`sos-rs/src/lib.rs`), and the wire format it produces.

The encoder writes into a buffer the caller supplies, sized by `encodedLen`.
`encodeLoop` is its loop over the values, with the buffer and the offset
`coffset` as loop state, and `Value.fill` writes one payload into the sub-slice
reserved for it. Every slice, index and copy is checked, so a buffer too short
for what is written to it is a fault, not a wrong result.

`message` is the format itself, with no buffer: a count word, a length word and
the values one after another, each a tag byte followed by its payload, with a
length word between where the type has no fixed width.

* `encodeLoop_eq_wires`: on values that hold no undecoded iterator, the loop
  writes exactly the wires of the values after what is already written.
* `encodeSos_eq_message`: so the encoder fills the front of any buffer that is
  long enough with the message, keeps the rest, and returns the length.
-/

namespace Faastr.Sos

open Faastr.Lib

/-! ### The encoder -/

/-- `impl SOS for DecodeIter`: `encoded_len`. -/
def DecodeIter.encodedLen (it : DecodeIter) : Nat := it.buff.length + 8

/-- `impl SOS for DecodeIter`: `encode`. The length word is written as zero. -/
def DecodeIter.encode (it : DecodeIter) (buf : List UInt8) : Checked (List UInt8 × Nat) := do
  let buf ← onSlice buf 0 4 (fun w => writeLe 4 w it.count)
  let buf ← onSlice buf 4 8 (fun w => writeLe 4 w 0)
  let buf ← onSlice buf 8 buf.length (fun w => copyFromSlice w it.buff)
  return (buf, it.encodedLen)

/-- The frame of `encode_sos`: the assertion on the buffer's length, the two
header words, and the loop over the values started at offset eight. -/
def encodeFrame (buf : List UInt8) (count len : Nat)
    (loop : List UInt8 → Nat → Checked (List UInt8 × Nat)) : Checked (List UInt8 × Nat) := do
  require (decide (len ≤ buf.length))
  let sub ← slice buf 0 len
  let sub ← onSlice sub 0 4 (fun w => writeLe 4 w count)
  let sub ← onSlice sub 4 8 (fun w => writeLe 4 w len)
  let (sub, coffset) ← loop sub 8
  return (sub ++ buf.drop len, coffset)

/-- One iteration of the loop of `encode_sos`; `fill` writes the payload. -/
def encodeValue (fill : Nat → List UInt8 → Checked (List UInt8)) (buf : List UInt8)
    (coffset : Nat) (value : Value) : Checked (List UInt8 × Nat) := do
  let length := value.encodedSize
  let buf ← setAt buf coffset value.ctype.toU8
  if value.ctype.width.isSome then
    let coffset := coffset + 1
    let buf ← onSlice buf coffset (coffset + length) (fill length)
    return (buf, coffset + length)
  else
    let length := length - 4
    let buf ← onSlice buf (coffset + 1) (coffset + 4 + 1) (fun w => writeLe 4 w length)
    let coffset := coffset + 5
    let buf ← onSlice buf coffset (coffset + length) (fill length)
    return (buf, coffset + length)

mutual
/-- The payload of a value, written into the sub-slice reserved for it. -/
def Value.fill : Value → Nat → List UInt8 → Checked (List UInt8)
  | .int32 i, _, wbuf => writeLe 4 wbuf i.toUInt32.toNat
  | .uint32 i, _, wbuf => writeLe 4 wbuf i.toNat
  | .int64 i, _, wbuf => writeLe 8 wbuf i.toUInt64.toNat
  | .uint64 i, _, wbuf => writeLe 8 wbuf i.toNat
  | .float i, _, wbuf => writeLe 4 wbuf i.toNat
  | .double i, _, wbuf => writeLe 8 wbuf i.toNat
  | .string i, length, wbuf => do
      let wbuf ← onSlice wbuf 0 (length - 1) (fun w => copyFromSlice w (utf8 i))
      setAt wbuf (length - 1) 0
  | .error i, length, wbuf => do
      let wbuf ← onSlice wbuf 0 (length - 1) (fun w => copyFromSlice w (utf8 i))
      setAt wbuf (length - 1) 0
  | .opaqueBytes i, _, wbuf => copyFromSlice wbuf i
  | .embeddedIn i, _, wbuf => do
      let (wbuf, _) ← encodeFrame wbuf i.length (encodedLen i) (fun b o => encodeLoop b o i)
      return wbuf
  | .embeddedOut f, _, wbuf => do
      let (wbuf, _) ← f.encode wbuf
      return wbuf
  | .embeddedVec i, _, wbuf => do
      let (wbuf, _) ← encodeFrame wbuf i.length (encodedLen i) (fun b o => encodeLoop b o i)
      return wbuf
  | .function f, length, wbuf => do
      let modlen := (utf8 f.module).length
      let wbuf ← onSlice wbuf 0 modlen (fun w => copyFromSlice w (utf8 f.module))
      let wbuf ← setAt wbuf modlen 0
      let wbuf ← onSlice wbuf (1 + modlen) (length - 1) (fun w => copyFromSlice w (utf8 f.name))
      setAt wbuf (length - 1) 0

/-- The loop of `encode_sos`. -/
def encodeLoop : List UInt8 → Nat → List Value → Checked (List UInt8 × Nat)
  | buf, coffset, [] => .ok (buf, coffset)
  | buf, coffset, v :: vs => do
      let (buf, coffset) ← encodeValue (fun l w => v.fill l w) buf coffset v
      encodeLoop buf coffset vs
end

/-- `encode_sos`, which is also `ReferencedValues::encode`. -/
def encodeSos (buf : List UInt8) (values : List Value) : Checked (List UInt8 × Nat) :=
  encodeFrame buf values.length (encodedLen values) (fun b o => encodeLoop b o values)

/-! ### The wire format -/

mutual
/-- The bytes of a value after its tag and length word. -/
def Value.payload : Value → List UInt8
  | .int32 i => leBytes 4 i.toUInt32.toNat
  | .uint32 i => leBytes 4 i.toNat
  | .int64 i => leBytes 8 i.toUInt64.toNat
  | .uint64 i => leBytes 8 i.toNat
  | .float i => leBytes 4 i.toNat
  | .double i => leBytes 8 i.toNat
  | .string i => utf8 i ++ [0]
  | .error i => utf8 i ++ [0]
  | .opaqueBytes i => i
  | .function f => utf8 f.module ++ 0 :: (utf8 f.name ++ [0])
  | .embeddedOut f => f.buff
  | .embeddedIn i => leBytes 4 i.length ++ (leBytes 4 (encodedLen i) ++ wires i)
  | .embeddedVec i => leBytes 4 i.length ++ (leBytes 4 (encodedLen i) ++ wires i)

/-- The values of a list one after another, each with its tag and, where the
type has no fixed width, its length word. -/
def wires : List Value → List UInt8
  | [] => []
  | v :: vs =>
      v.ctype.toU8 ::
        ((if v.ctype.width.isSome then [] else leBytes 4 v.payload.length) ++
          (v.payload ++ wires vs))
end

/-- The length word of a value, absent where the type has a fixed width. -/
def Value.lengthWord (v : Value) : List UInt8 :=
  if v.ctype.width.isSome then [] else leBytes 4 v.payload.length

/-- A whole message. -/
def message (vs : List Value) : List UInt8 :=
  leBytes 4 vs.length ++ (leBytes 4 (encodedLen vs) ++ wires vs)

theorem wires_cons (v : Value) (vs : List Value) :
    wires (v :: vs) = v.ctype.toU8 :: (v.lengthWord ++ (v.payload ++ wires vs)) := rfl

theorem lengthWord_length (v : Value) :
    v.lengthWord.length = if v.ctype.width.isSome then 0 else 4 := by
  unfold Value.lengthWord
  split <;> simp

mutual
/-- `encoded_size` counts the payload and the length word. -/
theorem encodedSize_eq : ∀ v : Value, v.encodedSize = v.payload.length + v.lengthWord.length
  | .int32 _ | .uint32 _ | .int64 _ | .uint64 _ | .float _ | .double _ => by
      simp [Value.encodedSize, Value.payload, Value.lengthWord, Value.ctype, CType.width]
  | .string i | .error i | .opaqueBytes i | .embeddedOut i => by
      simp [Value.encodedSize, Value.payload, Value.lengthWord, Value.ctype, CType.width]
  | .function f => by
      simp only [Value.encodedSize, Value.payload, lengthWord_length, Value.ctype, CType.width,
        List.length_append, List.length_cons, List.length_nil, Option.isSome_none,
        Bool.false_eq_true, if_false]
      omega
  | .embeddedIn i | .embeddedVec i => by
      have hwires := encodedSizes_eq i
      simp only [Value.encodedSize, Value.payload, lengthWord_length, Value.ctype, CType.width,
        List.length_append, leBytes_length, Option.isSome_none, Bool.false_eq_true, if_false]
      omega

/-- The loop of `encoded_len` counts the wires but for the tags. -/
theorem encodedSizes_eq : ∀ vs : List Value, vs.length + encodedSizes vs = (wires vs).length
  | [] => rfl
  | v :: vs => by
      have hv := encodedSize_eq v
      have hvs := encodedSizes_eq vs
      rw [wires_cons]
      simp only [encodedSizes, List.length_cons, List.length_append]
      omega
end

theorem encodedLen_eq (vs : List Value) : encodedLen vs = 8 + (wires vs).length := by
  have h := encodedSizes_eq vs
  unfold encodedLen
  omega

/-- **A message has the announced length.** -/
theorem message_length (vs : List Value) : (message vs).length = encodedLen vs := by
  rw [encodedLen_eq]
  simp only [message, List.length_append, leBytes_length]
  omega


/-! ### The encoder writes the wire format -/

mutual
/-- No undecoded iterator occurs in the value, at any depth. -/
def Value.Encodable : Value → Prop
  | .embeddedOut _ => False
  | .embeddedIn i | .embeddedVec i => AllEncodable i
  | _ => True

def AllEncodable : List Value → Prop
  | [] => True
  | v :: vs => v.Encodable ∧ AllEncodable vs
end

/-- The frame writes the header and hands the rest of the buffer to the loop. -/
theorem encodeFrame_eq {buf header body : List UInt8} {count len coffset : Nat}
    {loop : List UInt8 → Nat → Checked (List UInt8 × Nat)}
    (hlen : 8 ≤ len) (hbuf : len ≤ buf.length)
    (hheader : header = leBytes 4 count ++ leBytes 4 len)
    (hloop : ∀ rest : List UInt8, rest.length = len - 8 →
      loop (header ++ rest) 8 = .ok (header ++ body, coffset)) :
    encodeFrame buf count len loop = .ok (header ++ body ++ buf.drop len, coffset) := by
  -- The reserved buffer, cut at the two header words.
  have htake : (buf.take len).length = len := List.length_take_of_le hbuf
  obtain ⟨w₀, sub₁, hw₀, hsub⟩ := exists_split (buf.take len) (4) (by omega)
  rw [hsub, List.length_append] at htake
  obtain ⟨w₁, rest, hw₁, rfl⟩ := exists_split (sub₁) (4) (by omega)
  have hrest : rest.length = len - 8 := by rw [List.length_append] at htake; omega
  have hslice : slice buf 0 len = .ok (w₀ ++ (w₁ ++ rest)) := by
    rw [slice, if_pos ⟨Nat.zero_le _, hbuf⟩, List.drop_zero, Nat.sub_zero, hsub]
  have hcount : onSlice (w₀ ++ (w₁ ++ rest)) 0 4 (fun w => writeLe 4 w count) =
      .ok (leBytes 4 count ++ (w₁ ++ rest)) :=
    onSlice_front w₀ (w₁ ++ rest) rfl hw₀.symm (writeLe_exact hw₀ count)
  have hsize : onSlice (leBytes 4 count ++ (w₁ ++ rest)) 4 8 (fun w => writeLe 4 w len) =
      .ok (leBytes 4 count ++ (leBytes 4 len ++ rest)) :=
    onSlice_split (leBytes 4 count) w₁ rest rfl (by simp) (by simp [hw₁]) (writeLe_exact hw₁ len)
  have hbody : loop (leBytes 4 count ++ (leBytes 4 len ++ rest)) 8 = .ok (header ++ body, coffset) := by
    rw [← List.append_assoc, ← hheader]
    exact hloop rest hrest
  simp only [encodeFrame, require, hbuf, decide_true, if_true, hslice, hcount, hsize, hbody,
    bind, Except.bind, pure, Except.pure]

/-- One iteration of the loop writes one wire. -/
theorem encodeValue_eq {fill : Nat → List UInt8 → Checked (List UInt8)} {v : Value}
    (hfill : ∀ wbuf : List UInt8, wbuf.length = v.payload.length →
      fill v.payload.length wbuf = .ok v.payload)
    {rest : List UInt8} (hrest : 1 + v.encodedSize ≤ rest.length) (front : List UInt8) :
    encodeValue fill (front ++ rest) front.length v =
      .ok (front ++ v.ctype.toU8 :: (v.lengthWord ++ (v.payload ++ rest.drop (1 + v.encodedSize))),
        front.length + (1 + v.encodedSize)) := by
  have hsize := encodedSize_eq v
  -- The rest of the buffer, cut at the tag, the length word and the payload.
  obtain ⟨t, rest₁, rfl⟩ : ∃ t rest₁, rest = t :: rest₁ := by
    cases rest with
    | nil => simp at hrest
    | cons t rest₁ => exact ⟨t, rest₁, rfl⟩
  rw [List.length_cons] at hrest
  obtain ⟨lw, rest₂, hlw, rfl⟩ := exists_split (rest₁) (v.lengthWord.length) (by omega)
  rw [List.length_append] at hrest
  obtain ⟨pl, tail, hpl, rfl⟩ := exists_split (rest₂) (v.payload.length) (by omega)
  have hdrop : (t :: (lw ++ (pl ++ tail))).drop (1 + v.encodedSize) = tail := by
    rw [Nat.add_comm 1, List.drop_succ_cons, ← List.append_assoc]
    exact List.drop_left' (by rw [List.length_append]; omega)
  rw [hdrop]
  have htag : setAt (front ++ t :: (lw ++ (pl ++ tail))) front.length v.ctype.toU8 =
      .ok (front ++ v.ctype.toU8 :: (lw ++ (pl ++ tail))) := setAt_split front t _ rfl rfl
  unfold encodeValue
  rw [htag]
  cases hw : v.ctype.width.isSome with
  | true =>
    have hnil : v.lengthWord = [] := by rw [Value.lengthWord, if_pos hw]
    have hlw0 : lw = [] := List.length_eq_zero_iff.mp (by rw [hlw, hnil]; rfl)
    subst hlw0
    have hsize' : v.encodedSize = v.payload.length := by rw [hsize, hnil]; rfl
    have hput : onSlice (front ++ v.ctype.toU8 :: (pl ++ tail)) (front.length + 1)
        (front.length + 1 + v.payload.length) (fill v.payload.length) =
        .ok ((front ++ [v.ctype.toU8]) ++ (v.payload ++ tail)) :=
      onSlice_split (front ++ [v.ctype.toU8]) pl tail (by simp) (by simp) (by simp [hpl])
        (hfill pl hpl)
    simp only [bind, Except.bind, pure, Except.pure, List.nil_append, if_true, hsize', hput, hnil]
    simp [Nat.add_assoc]
  | false =>
    have hword : v.lengthWord = leBytes 4 v.payload.length := by
      rw [Value.lengthWord, if_neg (by simp [hw])]
    have hlw4 : lw.length = 4 := by rw [hlw, hword, leBytes_length]
    have hsize' : v.encodedSize = v.payload.length + 4 := by rw [hsize, hword, leBytes_length]
    have hlen : onSlice (front ++ v.ctype.toU8 :: (lw ++ (pl ++ tail))) (front.length + 1)
        (front.length + 4 + 1) (fun w => writeLe 4 w v.payload.length) =
        .ok ((front ++ [v.ctype.toU8]) ++ (leBytes 4 v.payload.length ++ (pl ++ tail))) :=
      onSlice_split (front ++ [v.ctype.toU8]) lw (pl ++ tail) (by simp) (by simp)
        (by simp [hlw4]) (writeLe_exact hlw4 _)
    have hput : onSlice ((front ++ [v.ctype.toU8]) ++ (leBytes 4 v.payload.length ++ (pl ++ tail)))
        (front.length + 5) (front.length + 5 + v.payload.length) (fill v.payload.length) =
        .ok ((front ++ [v.ctype.toU8] ++ leBytes 4 v.payload.length) ++ (v.payload ++ tail)) :=
      onSlice_split (front ++ [v.ctype.toU8] ++ leBytes 4 v.payload.length) pl tail
        (by simp) (by simp) (by simp [hpl]) (hfill pl hpl)
    simp only [bind, Except.bind, pure, Except.pure, Bool.false_eq_true, if_false, hsize',
      Nat.add_sub_cancel, hlen, hput, hword]
    simp [Nat.add_assoc, Nat.add_comm]
    omega

/-- A NUL-terminated string fills the sub-slice reserved for it. -/
theorem fill_terminated (bytes : List UInt8) {wbuf : List UInt8}
    (hwbuf : wbuf.length = bytes.length + 1) :
    (do let wbuf ← onSlice wbuf 0 (bytes.length + 1 - 1) (fun w => copyFromSlice w bytes)
        setAt wbuf (bytes.length + 1 - 1) 0 : Checked (List UInt8)) = .ok (bytes ++ [0]) := by
  obtain ⟨w, z, hw, hsplit⟩ : ∃ w z, w.length = bytes.length ∧ wbuf = w ++ [z] := by
    refine ⟨wbuf.dropLast, wbuf.getLast (by rintro rfl; simp at hwbuf), ?_,
      (List.dropLast_append_getLast _).symm⟩
    rw [List.length_dropLast]; omega
  have hcopy : onSlice wbuf 0 (bytes.length + 1 - 1) (fun w => copyFromSlice w bytes) =
      .ok (bytes ++ [z]) :=
    onSlice_front w [z] hsplit hw.symm
      (copyFromSlice_of_length_eq hw)
  rw [hcopy]
  exact setAt_split bytes z [] rfl (by simp)

mutual
/-- A payload fills the sub-slice reserved for it. -/
theorem fill_eq_payload : ∀ v : Value, v.Encodable → ∀ wbuf : List UInt8,
    wbuf.length = v.payload.length → v.fill v.payload.length wbuf = .ok v.payload
  | .int32 _, _, wbuf, h | .uint32 _, _, wbuf, h | .float _, _, wbuf, h => by
      simp only [Value.payload, leBytes_length] at h
      exact writeLe_exact h _
  | .int64 _, _, wbuf, h | .uint64 _, _, wbuf, h | .double _, _, wbuf, h => by
      simp only [Value.payload, leBytes_length] at h
      exact writeLe_exact h _
  | .string i, _, wbuf, h | .error i, _, wbuf, h => by
      simp only [Value.payload, List.length_append, List.length_cons, List.length_nil] at h ⊢
      exact fill_terminated (utf8 i) h
  | .opaqueBytes i, _, wbuf, h => copyFromSlice_of_length_eq h
  | .function f, _, wbuf, h => by
      simp only [Value.payload, List.length_append, List.length_cons, List.length_nil] at h
      -- The sub-slice, cut at the two names and their terminators.
      obtain ⟨wm, rest, hwm, rfl⟩ := exists_split (wbuf) ((utf8 f.module).length) (by omega)
      rw [List.length_append] at h
      obtain ⟨z, rest, rfl⟩ := List.exists_cons_of_length_pos (show 0 < rest.length by omega)
      rw [List.length_cons] at h
      obtain ⟨wn, rest, hwn, rfl⟩ := exists_split (rest) ((utf8 f.name).length) (by omega)
      rw [List.length_append] at h
      obtain ⟨z', rfl⟩ := List.length_eq_one_iff.mp (show rest.length = 1 by omega)
      have hlen : (Value.function f).payload.length - 1 =
          (utf8 f.module).length + 1 + (utf8 f.name).length := by
        simp only [Value.payload, List.length_append, List.length_cons, List.length_nil]
        omega
      have hmod : onSlice (wm ++ z :: (wn ++ [z'])) 0 (utf8 f.module).length
          (fun w => copyFromSlice w (utf8 f.module)) = .ok (utf8 f.module ++ z :: (wn ++ [z'])) :=
        onSlice_front wm _ rfl hwm.symm (copyFromSlice_of_length_eq hwm)
      have hsep : setAt (utf8 f.module ++ z :: (wn ++ [z'])) (utf8 f.module).length 0 =
          .ok (utf8 f.module ++ 0 :: (wn ++ [z'])) := setAt_split _ z _ rfl rfl
      have hname : onSlice (utf8 f.module ++ 0 :: (wn ++ [z'])) (1 + (utf8 f.module).length)
          ((utf8 f.module).length + 1 + (utf8 f.name).length)
          (fun w => copyFromSlice w (utf8 f.name)) =
          .ok ((utf8 f.module ++ [0]) ++ (utf8 f.name ++ [z'])) :=
        onSlice_split (utf8 f.module ++ [0]) wn [z'] (by simp)
          (by simp [Nat.add_comm]) (by simp [hwn]) (copyFromSlice_of_length_eq hwn)
      have hend : setAt ((utf8 f.module ++ [0]) ++ (utf8 f.name ++ [z']))
          ((utf8 f.module).length + 1 + (utf8 f.name).length) 0 =
          .ok ((utf8 f.module ++ [0] ++ utf8 f.name) ++ [0]) :=
        setAt_split (utf8 f.module ++ [0] ++ utf8 f.name) z' [] (by simp) (by simp; omega)
      simp only [Value.fill, hlen, hmod, hsep, hname, hend, bind, Except.bind]
      simp [Value.payload]
  | .embeddedIn i, he, wbuf, h | .embeddedVec i, he, wbuf, h => by
      have hwires := encodedLen_eq i
      have hlen : wbuf.length = encodedLen i := by
        rw [h, hwires]
        simp only [Value.payload, List.length_append, leBytes_length]
        omega
      have hframe : encodeFrame wbuf i.length (encodedLen i) (fun b o => encodeLoop b o i) =
          .ok (leBytes 4 i.length ++ leBytes 4 (encodedLen i) ++ wires i ++
            wbuf.drop (encodedLen i), 8 + (wires i).length) := by
        refine encodeFrame_eq (by omega) (by omega) rfl fun rest hrest => ?_
        have hloop := encodeLoop_eq_wires i he (leBytes 4 i.length ++ leBytes 4 (encodedLen i)) rest
          (by omega)
        rw [show (leBytes 4 i.length ++ leBytes 4 (encodedLen i)).length = 8 by simp] at hloop
        rw [hloop, List.drop_eq_nil_of_le (by omega), List.append_nil]
      simp only [Value.fill, hframe, bind, Except.bind, pure, Except.pure]
      rw [List.drop_eq_nil_of_le (by omega)]
      simp [Value.payload]

/-- **The loop writes the wires.** After `front`, which is finished, come the
wires of the remaining values; the buffer beyond them is as it was. -/
theorem encodeLoop_eq_wires : ∀ vs : List Value, AllEncodable vs → ∀ front rest : List UInt8,
    (wires vs).length ≤ rest.length →
    encodeLoop (front ++ rest) front.length vs =
      .ok (front ++ (wires vs ++ rest.drop (wires vs).length), front.length + (wires vs).length)
  | [], _, front, rest, _ => by simp [encodeLoop, wires]
  | v :: vs, he, front, rest, h => by
      have hsize := encodedSize_eq v
      have hcons : (wires (v :: vs)).length = 1 + v.encodedSize + (wires vs).length := by
        rw [wires_cons, hsize]
        simp only [List.length_cons, List.length_append]
        omega
      rw [hcons] at h
      have hstep := encodeValue_eq (fun wbuf hw => fill_eq_payload v he.1 wbuf hw)
        (show 1 + v.encodedSize ≤ rest.length by omega) front
      set wire : List UInt8 := v.ctype.toU8 :: (v.lengthWord ++ v.payload) with hwire
      have hwlen : wire.length = 1 + v.encodedSize := by
        simp only [hwire, hsize, List.length_cons, List.length_append]
        omega
      have hloop := encodeLoop_eq_wires vs he.2 (front ++ wire) (rest.drop (1 + v.encodedSize))
        (by rw [List.length_drop]; omega)
      rw [List.length_append, hwlen] at hloop
      have hfront : front ++ v.ctype.toU8 :: (v.lengthWord ++ (v.payload ++
          rest.drop (1 + v.encodedSize))) = front ++ wire ++ rest.drop (1 + v.encodedSize) := by
        simp [hwire]
      simp only [encodeLoop, hstep, bind, Except.bind]
      rw [hfront, hloop, hcons, List.drop_drop, wires_cons]
      simp [hwire, Nat.add_assoc]
end

/-- **The encoder writes the message.** Into any buffer that is long enough it
writes the message, leaves the rest of the buffer as it was, and returns the
announced length. -/
theorem encodeSos_eq_message {vs : List Value} (he : AllEncodable vs) {buf : List UInt8}
    (hbuf : encodedLen vs ≤ buf.length) :
    encodeSos buf vs = .ok (message vs ++ buf.drop (encodedLen vs), encodedLen vs) := by
  have hwires := encodedLen_eq vs
  have hframe : encodeSos buf vs =
      .ok (leBytes 4 vs.length ++ leBytes 4 (encodedLen vs) ++ wires vs ++
        buf.drop (encodedLen vs), 8 + (wires vs).length) := by
    refine encodeFrame_eq (by omega) hbuf rfl fun rest hrest => ?_
    have hloop := encodeLoop_eq_wires vs he (leBytes 4 vs.length ++ leBytes 4 (encodedLen vs)) rest
      (by omega)
    rw [show (leBytes 4 vs.length ++ leBytes 4 (encodedLen vs)).length = 8 by simp] at hloop
    rw [hloop, List.drop_eq_nil_of_le (by omega), List.append_nil]
  rw [hframe, message, hwires, List.append_assoc (leBytes 4 vs.length)]

/-- Into a buffer of exactly the announced length. -/
theorem encodeSos_exact {vs : List Value} (he : AllEncodable vs) {buf : List UInt8}
    (hbuf : buf.length = encodedLen vs) : encodeSos buf vs = .ok (message vs, encodedLen vs) := by
  rw [encodeSos_eq_message he (Nat.le_of_eq hbuf.symm),
    List.drop_eq_nil_of_le (Nat.le_of_eq hbuf), List.append_nil]

end Faastr.Sos
