import Faastr.Lib.LittleEndian

/-!
The SOS data model (`sos-rs/src/lib.rs`): values, their type tags and their
encoded sizes.

`Value` is the borrowed form the codec works on. It has three embedded
variants: `embeddedIn` and `embeddedVec` hold a list of values to encode, and
`embeddedOut` holds a decoder that has not been run. `OwnedValue` is the owned
form and has one. Strings are Unicode strings with their UTF-8 bytes; floats
are their bit patterns, since the codec moves bits only.

The size functions count bytes without bound: every buffer the program builds
is sized by them first, so a size that does not fit a word cannot be reached.
-/

namespace Faastr.Sos

open Faastr.Lib

/-! ### Strings as bytes -/

/-- `str::as_bytes`. -/
def utf8 (s : String) : List UInt8 := s.toByteArray.data.toList

/-- `core::str::from_utf8(..).ok()`. -/
def fromUtf8 (bs : List UInt8) : Option String := String.fromUTF8? ⟨bs.toArray⟩

@[simp] theorem fromUtf8_utf8 (s : String) : fromUtf8 (utf8 s) = some s := by
  have hbytes : (⟨(utf8 s).toArray⟩ : ByteArray) = s.toByteArray := by simp [utf8]
  rw [fromUtf8, hbytes, String.fromUTF8?, dif_pos s.isValidUTF8]
  rfl

theorem utf8_of_fromUtf8 {bs : List UInt8} {s : String} (h : fromUtf8 bs = some s) :
    utf8 s = bs := by
  unfold fromUtf8 String.fromUTF8? at h
  split at h
  · cases h
    rfl
  · cases h

/-! ### Values -/

/-- A function name, qualified by its module. -/
structure Function where
  module : String
  name : String
deriving DecidableEq, Repr

/-- A decoder: how many values are left, the bytes they are in, and whether an
embedded message is handed out undecoded. -/
structure DecodeIter where
  count : Nat
  buff : List UInt8
  lazy : Bool
deriving DecidableEq, Repr

inductive Value where
  | int32 (i : Int32)
  | uint32 (i : UInt32)
  | int64 (i : Int64)
  | uint64 (i : UInt64)
  | float (bits : UInt32)
  | double (bits : UInt64)
  | error (s : String)
  | string (s : String)
  | opaqueBytes (b : List UInt8)
  | function (f : Function)
  | embeddedOut (it : DecodeIter)
  | embeddedIn (vs : List Value)
  | embeddedVec (vs : List Value)

inductive OwnedValue where
  | int32 (i : Int32)
  | uint32 (i : UInt32)
  | int64 (i : Int64)
  | uint64 (i : UInt64)
  | float (bits : UInt32)
  | double (bits : UInt64)
  | error (s : String)
  | string (s : String)
  | opaqueBytes (b : List UInt8)
  | function (f : Function)
  | embedded (vs : List OwnedValue)

mutual
def OwnedValue.borrow : OwnedValue → Value
  | .int32 i => .int32 i
  | .uint32 i => .uint32 i
  | .int64 i => .int64 i
  | .uint64 i => .uint64 i
  | .float i => .float i
  | .double i => .double i
  | .error i => .error i
  | .string i => .string i
  | .opaqueBytes i => .opaqueBytes i
  | .function i => .function i
  | .embedded i => .embeddedVec (borrowAll i)

/-- `i.iter().map(|v| v.borrow()).collect()`. -/
def borrowAll : List OwnedValue → List Value
  | [] => []
  | v :: vs => v.borrow :: borrowAll vs
end

@[simp] theorem borrowAll_eq_map (vs : List OwnedValue) :
    borrowAll vs = vs.map OwnedValue.borrow := by
  induction vs with
  | nil => rfl
  | cons v vs ih => simp [borrowAll, ih]

/-! ### Type tags -/

inductive CType where
  | invalid
  | int32
  | uint32
  | int64
  | uint64
  | float
  | double
  | error
  | string
  | opaqueBytes
  | function
  | embedded
deriving DecidableEq, Repr

/-- `val_type as u8`: the discriminant. -/
def CType.toU8 : CType → UInt8
  | .invalid => 0
  | .int32 => 1
  | .uint32 => 2
  | .int64 => 3
  | .uint64 => 4
  | .float => 5
  | .double => 6
  | .error => 7
  | .string => 8
  | .opaqueBytes => 9
  | .function => 10
  | .embedded => 11

def CType.fromU8 (i : UInt8) : Option CType :=
  match i.toNat with
  | 0 => some .invalid
  | 1 => some .int32
  | 2 => some .uint32
  | 3 => some .int64
  | 4 => some .uint64
  | 5 => some .float
  | 6 => some .double
  | 7 => some .error
  | 8 => some .string
  | 9 => some .opaqueBytes
  | 10 => some .function
  | 11 => some .embedded
  | _ => none

@[simp] theorem CType.fromU8_toU8 (t : CType) : CType.fromU8 t.toU8 = some t := by
  cases t <;> rfl

/-- The payload width of a type that carries no length word. -/
def CType.width : CType → Option Nat
  | .int32 | .uint32 | .float => some 4
  | .int64 | .uint64 | .double => some 8
  | _ => none

def Value.ctype : Value → CType
  | .int32 _ => .int32
  | .uint32 _ => .uint32
  | .int64 _ => .int64
  | .uint64 _ => .uint64
  | .float _ => .float
  | .double _ => .double
  | .string _ => .string
  | .error _ => .error
  | .opaqueBytes _ => .opaqueBytes
  | .function _ => .function
  | .embeddedOut _ | .embeddedIn _ | .embeddedVec _ => .embedded

/-! ### Encoded sizes -/

mutual
/-- `Value::encoded_size`: payload bytes, and four more where a length word
precedes the payload. -/
def Value.encodedSize : Value → Nat
  | .int32 _ | .uint32 _ | .float _ => 4
  | .int64 _ | .uint64 _ | .double _ => 8
  | .string i => (utf8 i).length + 1 + 4
  | .error i => (utf8 i).length + 1 + 4
  | .opaqueBytes i => i.length + 4
  | .embeddedIn i => i.length + 8 + encodedSizes i + 4
  | .embeddedOut f => f.buff.length + 4
  | .embeddedVec i => i.length + 8 + encodedSizes i + 4
  | .function f => (utf8 f.module).length + (utf8 f.name).length + 2 + 4

/-- The sum the loop of `encoded_len` accumulates. -/
def encodedSizes : List Value → Nat
  | [] => 0
  | v :: vs => v.encodedSize + encodedSizes vs
end

/-- `encoded_len`: a tag byte for each value, the eight bytes of header, and the
values. -/
def encodedLen (values : List Value) : Nat := values.length + 8 + encodedSizes values

theorem encodedLen_cons (v : Value) (vs : List Value) :
    encodedLen (v :: vs) = 1 + v.encodedSize + encodedLen vs := by
  simp only [encodedLen, encodedSizes, List.length_cons]
  omega

theorem length_le_encodedLen (vs : List Value) : vs.length + 8 ≤ encodedLen vs :=
  Nat.le_add_right _ _

end Faastr.Sos
