import Faastr.Sos.Forward

/-!
The announced and the written size (`encoded_len` and `encode` of the `SOS` implementations of
`sos-rs/src/lib.rs`).

Callers size a buffer by `encoded_len` and fill it by `encode`. The two agree for values that
hold no undecoded iterator. `Value::EmbeddedOut` announces the bytes of its iterator without the
header that the iterator then writes, so it has no room; and the encoders of `EncodedValues` and
`DecodeIter` copy into the whole buffer that is left, so they only fill one of exactly the
announced size.

* `encodable_of_encodeSos`: the encoder does not get past an undecoded iterator.
* `writes_announced_iff`: when the announced bytes are written.
-/

namespace Faastr.Sos

open Faastr.Lib

/-- What can be encoded: the implementations of `SOS`. -/
inductive Encodes where
  | justError (error : String)
  | referencedValues (values : List Value)
  | encodedValues (bytes : List UInt8)
  | decodeIter (it : DecodeIter)

namespace Encodes

def encodedLen : Encodes → Nat
  | .justError error => Sos.encodedLen [.error error]
  | .referencedValues values => Sos.encodedLen values
  | .encodedValues bytes => bytes.length
  | .decodeIter it => it.encodedLen

/-- The buffer after the call, and the number that is returned. -/
def encode (x : Encodes) (buf : List UInt8) : Checked (List UInt8 × Nat) :=
  match x with
  | .justError error => encodeSos buf [.error error]
  | .referencedValues values => encodeSos buf values
  | .encodedValues bytes => do
      let buf ← copyFromSlice buf bytes
      return (buf, bytes.length)
  | .decodeIter it => it.encode buf

/-- The encoder does not panic, writes the announced bytes at the front of the buffer, keeps
the rest, and returns the announced size. -/
def WritesAnnounced (x : Encodes) (buf : List UInt8) : Prop :=
  ∃ written : List UInt8, written.length = x.encodedLen ∧
    x.encode buf = .ok (written ++ buf.drop x.encodedLen, x.encodedLen)

/-- No value holds an undecoded iterator, and what is only copied fills the buffer. -/
def Fills (x : Encodes) (buf : List UInt8) : Prop :=
  match x with
  | .justError _ => True
  | .referencedValues values => AllEncodable values
  | .encodedValues bytes => buf.length = bytes.length
  | .decodeIter it => buf.length = it.encodedLen

end Encodes

/-! ### What a success tells -/

/-- The encoder of an iterator fills the buffer, or panics. -/
theorem DecodeIter.length_of_encode {it : DecodeIter} {buf : List UInt8} {r : List UInt8 × Nat}
    (h : it.encode buf = .ok r) : buf.length = it.encodedLen := by
  obtain ⟨b₁, hb₁, h⟩ := bind_eq_ok.mp h
  obtain ⟨b₂, hb₂, h⟩ := bind_eq_ok.mp h
  obtain ⟨b₃, hb₃, -⟩ := bind_eq_ok.mp h
  have hlen₁ := length_of_onSlice_writeLe (w := 4) (by omega) hb₁
  have hlen₂ := length_of_onSlice_writeLe (w := 4) (by omega) hb₂
  obtain ⟨mid, part, hmid, hpart, -⟩ := onSlice_eq_ok hb₃
  have hlength := length_of_slice hmid
  obtain ⟨hle, -, -⟩ := slice_eq_ok_iff.mp hmid
  have hcopy : mid.length = it.buff.length := by
    by_contra hne
    rw [copyFromSlice_of_length_ne hne] at hpart
    cases hpart
  unfold DecodeIter.encodedLen
  omega

/-- One iteration of the loop fills a payload of the right length. -/
theorem fill_of_encodeValue {fill : Nat → List UInt8 → Checked (List UInt8)} {buf : List UInt8}
    {coffset : Nat} {v : Value} {r : List UInt8 × Nat} (h : encodeValue fill buf coffset v = .ok r) :
    ∃ w out, w.length = v.payload.length ∧ fill v.payload.length w = .ok out := by
  have hsize := encodedSize_eq v
  have hword := lengthWord_length v
  obtain ⟨b, -, h⟩ := bind_eq_ok.mp h
  split at h
  · next hw =>
    rw [if_pos hw] at hword
    have hlength : v.encodedSize = v.payload.length := by omega
    obtain ⟨b', hput, -⟩ := bind_eq_ok.mp h
    obtain ⟨mid, part, hmid, hpart, -⟩ := onSlice_eq_ok hput
    have hmidlen := length_of_slice hmid
    rw [hlength] at hpart
    exact ⟨mid, part, by omega, hpart⟩
  · next hw =>
    rw [if_neg hw] at hword
    have hlength : v.encodedSize - 4 = v.payload.length := by omega
    obtain ⟨b', -, h⟩ := bind_eq_ok.mp h
    obtain ⟨b'', hput, -⟩ := bind_eq_ok.mp h
    obtain ⟨mid, part, hmid, hpart, -⟩ := onSlice_eq_ok hput
    have hmidlen := length_of_slice hmid
    rw [hlength] at hpart
    exact ⟨mid, part, by omega, hpart⟩

theorem loop_of_encodeFrame {buf : List UInt8} {count len : Nat}
    {loop : List UInt8 → Nat → Checked (List UInt8 × Nat)} {r : List UInt8 × Nat}
    (h : encodeFrame buf count len loop = .ok r) : ∃ b r', loop b 8 = .ok r' := by
  obtain ⟨_, -, h⟩ := bind_eq_ok.mp h
  obtain ⟨b₀, -, h⟩ := bind_eq_ok.mp h
  obtain ⟨b₁, -, h⟩ := bind_eq_ok.mp h
  obtain ⟨b₂, -, h⟩ := bind_eq_ok.mp h
  obtain ⟨r', hloop, -⟩ := bind_eq_ok.mp h
  exact ⟨b₂, r', hloop⟩

mutual
/-- An undecoded iterator has no room for its header. -/
theorem encodable_of_fill : ∀ (v : Value) {w out : List UInt8}, w.length = v.payload.length →
    v.fill v.payload.length w = .ok out → v.Encodable
  | .int32 _, _, _, _, _ | .uint32 _, _, _, _, _ | .int64 _, _, _, _, _ | .uint64 _, _, _, _, _
  | .float _, _, _, _, _ | .double _, _, _, _, _ | .string _, _, _, _, _ | .error _, _, _, _, _
  | .opaqueBytes _, _, _, _, _ | .function _, _, _, _, _ => trivial
  | .embeddedOut f, w, out, hw, h => by
      obtain ⟨r, hencode, -⟩ := bind_eq_ok.mp h
      have hlength := DecodeIter.length_of_encode hencode
      rw [hw] at hlength
      exact absurd hlength (by simp [Value.payload, DecodeIter.encodedLen])
  | .embeddedIn i, w, out, _, h => by
      obtain ⟨r, hframe, -⟩ := bind_eq_ok.mp h
      obtain ⟨b, r', hloop⟩ := loop_of_encodeFrame hframe
      exact allEncodable_of_loop i hloop
  | .embeddedVec i, w, out, _, h => by
      obtain ⟨r, hframe, -⟩ := bind_eq_ok.mp h
      obtain ⟨b, r', hloop⟩ := loop_of_encodeFrame hframe
      exact allEncodable_of_loop i hloop

theorem allEncodable_of_loop : ∀ (vs : List Value) {buf : List UInt8} {coffset : Nat}
    {r : List UInt8 × Nat}, encodeLoop buf coffset vs = .ok r → AllEncodable vs
  | [], _, _, _, _ => trivial
  | v :: vs, buf, coffset, r, h => by
      obtain ⟨r', hvalue, hloop⟩ := bind_eq_ok.mp h
      obtain ⟨w, out, hw, hfill⟩ := fill_of_encodeValue hvalue
      exact ⟨encodable_of_fill v hw hfill, allEncodable_of_loop vs hloop⟩
end

/-- **The encoder does not get past an undecoded iterator.** -/
theorem encodable_of_encodeSos {vs : List Value} {buf : List UInt8} {r : List UInt8 × Nat}
    (h : encodeSos buf vs = .ok r) : AllEncodable vs := by
  obtain ⟨b, r', hloop⟩ := loop_of_encodeFrame h
  exact allEncodable_of_loop vs hloop

/-! ### When the announced bytes are written -/

namespace Encodes

variable {buf : List UInt8}

theorem writes_of_allEncodable {vs : List Value} (hbuf : Sos.encodedLen vs ≤ buf.length)
    (he : AllEncodable vs) : WritesAnnounced (.referencedValues vs) buf :=
  ⟨message vs, message_length vs, encodeSos_eq_message he hbuf⟩

/-- **When the announced size is the written size.** For everything that can be encoded and
every buffer of at least the announced size. -/
theorem writes_announced_iff (x : Encodes) (hbuf : x.encodedLen ≤ buf.length) :
    x.WritesAnnounced buf ↔ x.Fills buf := by
  cases x with
  | justError error => exact iff_of_true (writes_of_allEncodable hbuf ⟨trivial, trivial⟩) trivial
  | referencedValues vs =>
    constructor
    · rintro ⟨written, -, h⟩
      exact encodable_of_encodeSos h
    · exact writes_of_allEncodable hbuf
  | encodedValues bytes =>
    constructor
    · rintro ⟨written, -, h⟩
      obtain ⟨b, hcopy, -⟩ := bind_eq_ok.mp h
      by_contra hne
      rw [copyFromSlice_of_length_ne hne] at hcopy
      cases hcopy
    · intro hlength
      refine ⟨bytes, rfl, bind_eq_ok.mpr ⟨bytes, copyFromSlice_of_length_eq hlength, ?_⟩⟩
      rw [encodedLen, List.drop_eq_nil_of_le (Nat.le_of_eq hlength), List.append_nil]
      rfl
  | decodeIter it =>
    constructor
    · rintro ⟨written, -, h⟩
      exact DecodeIter.length_of_encode h
    · intro hlength
      refine ⟨leBytes 4 it.count ++ (leBytes 4 0 ++ it.buff), ?_, ?_⟩
      · simp only [encodedLen, DecodeIter.encodedLen, List.length_append, leBytes_length]
        omega
      · rw [encodedLen, List.drop_eq_nil_of_le (Nat.le_of_eq hlength), List.append_nil]
        exact it.encode_exact hlength

/-- Nested values in a buffer that is longer than needed. -/
theorem nested_values_written :
    WritesAnnounced (.referencedValues [.embeddedIn [.string "a", .int32 5], .opaqueBytes [1, 2]])
      (List.replicate 64 7) :=
  (writes_announced_iff _ (by decide)).mpr ⟨⟨trivial, trivial, trivial⟩, trivial, trivial⟩

/-- **An undecoded iterator**: what `decode` returns for an embedded message is put into
another one. -/
theorem embedded_out_panics :
    encodedLen (.referencedValues [.embeddedOut ⟨1, [1, 5, 0, 0, 0], true⟩]) ≤ (List.replicate 18 0).length ∧
      encode (.referencedValues [.embeddedOut ⟨1, [1, 5, 0, 0, 0], true⟩]) (List.replicate 18 0) =
        .error .index := by
  decide

end Encodes

end Faastr.Sos
