import Faastr.Lib.Utf8

/-!
The values of the AML interpreter and the conversions between them
(`acpi/aml/namespace.rs`, `acpi/aml/mod.rs`).

A conversion ends in a value, in an `AmlError` that its caller may catch, or it
does not come back at all (`Stop`): it indexes past an end, cuts a string inside
a character or unwraps a failure. A Rust string is the list of its characters;
`bytes` is its UTF-8 form and `fromUtf8` reads one back.
-/

namespace Faastr.Aml

open Faastr.Lib

/-- A Rust string. -/
abbrev Str := List Char

/-- Why a call does not come back. -/
inductive Stop
  | panic
  | deadlock
  | fuel
  deriving DecidableEq, Repr

/-! ### Strings -/

namespace Str

/-- `into_bytes`. -/
def bytes (s : Str) : List UInt8 := Utf8.encode s

/-- `String::from_utf8`. -/
def fromUtf8 (b : List UInt8) : Option Str := Utf8.decode b

/-- The string cut at a byte, if a character starts or the string ends there. -/
def splitAtByte : Str → Nat → Option (Str × Str)
  | s, 0 => some ([], s)
  | [], _ + 1 => none
  | c :: s, n + 1 =>
    if c.utf8Size ≤ n + 1 then
      (splitAtByte s (n + 1 - c.utf8Size)).map fun cut => (c :: cut.1, cut.2)
    else none

/-- `to_uppercase` of one character, as far as hexadecimal digits come out: no
other character has an upper case that starts with one. -/
def toUppercase (c : Char) : Str :=
  if c = Char.ofNat 0xFB00 then ['F', 'F']
  else if c = Char.ofNat 0xFB01 then ['F', 'I']
  else if c = Char.ofNat 0xFB02 then ['F', 'L']
  else if c = Char.ofNat 0xFB03 then ['F', 'F', 'I']
  else if c = Char.ofNat 0xFB04 then ['F', 'F', 'L']
  else if c = Char.ofNat 0x1E9A then ['A', Char.ofNat 0x02BE]
  else [c.toUpper]

/-- `to_digit(16)`. -/
def toDigit (c : Char) : Option UInt64 :=
  if '0' ≤ c ∧ c ≤ '9' then some (UInt64.ofNat (c.toNat - '0'.toNat))
  else if 'a' ≤ c ∧ c ≤ 'f' then some (UInt64.ofNat (c.toNat - 'a'.toNat + 10))
  else if 'A' ≤ c ∧ c ≤ 'F' then some (UInt64.ofNat (c.toNat - 'A'.toNat + 10))
  else none

/-- `{:X}`. -/
def upperHex (i : UInt64) : Str := (Nat.toDigits 16 i.toNat).map Char.toUpper

/-- `{}` of a number. -/
def decimal (i : Nat) : Str := Nat.toDigits 10 i

end Str

/-! ### Values -/

inductive RegionSpace
  | SystemMemory
  | SystemIO
  | PCIConfig
  | EmbeddedControl
  | SMBus
  | SystemCMOS
  | PciBarTarget
  | IPMI
  | GeneralPurposeIO
  | GenericSerialBus
  | UserDefined (space : UInt8)
  deriving DecidableEq, Repr

inductive AccessAttrib
  | AttribBytes (n : UInt8)
  | AttribRawBytes (n : UInt8)
  | AttribRawProcessBytes (n : UInt8)
  | AttribQuick
  | AttribSendReceive
  | AttribByte
  | AttribWord
  | AttribBlock
  | AttribProcessCall
  | AttribBlockProcessCall
  deriving DecidableEq, Repr

inductive AccessType
  | AnyAcc
  | ByteAcc
  | WordAcc
  | DWordAcc
  | QWordAcc
  | BufferAcc (attrib : AccessAttrib)
  deriving DecidableEq, Repr

inductive UpdateRule
  | Preserve
  | WriteAsOnes
  | WriteAsZeros
  deriving DecidableEq, Repr

structure FieldFlags where
  accessType : AccessType
  lockRule : Bool
  updateRule : UpdateRule
  deriving DecidableEq, Repr

structure SdtSignature where
  signature : Str
  oemId : List UInt8
  oemTableId : List UInt8
  deriving DecidableEq, Repr

inductive FieldSelector (Value : Type)
  | Region (region : Str)
  | Bank (region bankRegister : Str) (bankSelector : Value)
  | Index (indexSelector dataSelector : Str)

inductive ObjectReference (Value : Type)
  | ArgObj (i : UInt8)
  | LocalObj (i : UInt8)
  | Object (name : Str)
  | Index (object index : Value)

structure Method where
  argCount : UInt8
  serialized : Bool
  syncLevel : UInt8
  termList : List UInt8
  deriving DecidableEq, Repr

structure BufferField (Value : Type) where
  sourceBuf : Value
  index : Value
  length : Value

structure FieldUnit (Value : Type) where
  selector : FieldSelector Value
  connection : Value
  flags : FieldFlags
  offset : Nat
  length : Nat

/-- A device or a thermal zone: the names below it. -/
structure Device where
  objList : List Str
  deriving DecidableEq, Repr

structure Processor where
  procId : UInt8
  pBlk : Option UInt32
  objList : List Str
  deriving DecidableEq, Repr

structure OperationRegion (Value : Type) where
  region : RegionSpace
  offset : Value
  len : Value
  accessedBy : Option UInt64

structure PowerResource where
  systemLevel : UInt8
  resourceOrder : UInt16
  objList : List Str
  deriving DecidableEq, Repr

inductive AmlValue
  | None
  | Uninitialized
  | Alias (name : Str)
  | Buffer (b : List UInt8)
  | BufferField (b : BufferField AmlValue)
  | DDBHandle (delta : List Str) (signature : SdtSignature)
  | DebugObject
  | Device (d : Device)
  | Event (count : UInt64)
  | FieldUnit (f : FieldUnit AmlValue)
  | Integer (i : UInt64)
  | IntegerConstant (i : UInt64)
  | Method (m : Method)
  | Mutex (syncLevel : UInt8) (owner : Option UInt64)
  | ObjectReference (r : ObjectReference AmlValue)
  | OperationRegion (r : OperationRegion AmlValue)
  | Package (p : List AmlValue)
  | String (s : Str)
  | PowerResource (p : PowerResource)
  | Processor (p : Processor)
  | RawDataBuffer (b : List UInt8)
  | ThermalZone (z : Device)

inductive AmlError
  | AmlParseError (text : String)
  | AmlInvalidOpCode
  | AmlValueError
  | AmlDeferredLoad
  | AmlFatalError (kind : UInt8) (code : UInt16) (arg : AmlValue)
  | AmlHardFatal

/-! ### Conversions -/

/-- A conversion: a result or an error, unless it does not come back. -/
abbrev Conv := ExceptT AmlError (Except Stop)

/-- The conversion does not come back. -/
def stop {α : Type} (reason : Stop) : Conv α := ExceptT.mk (.error reason)

/-- The value that an `unwrap`, an `expect` or an index takes. -/
def orPanic {α : Type} : Option α → Conv α
  | some a => pure a
  | none => stop .panic

/-- `SDT_ORDER`: the signatures of the tables in the order they were loaded. -/
abbrev SdtOrder := Option (List SdtSignature)

def getSignatureFromIndex (order : SdtOrder) (index : Nat) : Option SdtSignature :=
  order.bind fun signatures => signatures[index]?

/-- The last table with this signature. -/
def getIndexFromSignature (order : SdtOrder) (signature : SdtSignature) : Option Nat :=
  order.bind fun signatures =>
    (signatures.reverse.idxOf? signature).map fun i => signatures.length - 1 - i

namespace AmlValue

def getTypeString : AmlValue → Str
  | .Uninitialized => "[Uninitialized Object]".toList
  | .Integer _ => "[Integer]".toList
  | .String _ => "[String]".toList
  | .Buffer _ => "[Buffer]".toList
  | .Package _ => "[Package]".toList
  | .FieldUnit _ => "[Field]".toList
  | .Device _ => "[Device]".toList
  | .Event _ => "[Event]".toList
  | .Method _ => "[Control Method]".toList
  | .Mutex _ _ => "[Mutex]".toList
  | .OperationRegion _ => "[Operation Region]".toList
  | .PowerResource _ => "[Power Resource]".toList
  | .Processor _ => "[Processor]".toList
  | .ThermalZone _ => "[Thermal Zone]".toList
  | .BufferField _ => "[Buffer Field]".toList
  | .DDBHandle _ _ => "[DDB Handle]".toList
  | .DebugObject => "[Debug Object]".toList
  | .None | .Alias _ | .IntegerConstant _ | .ObjectReference _ | .RawDataBuffer _ => []

/-- The bytes of an integer up to its last non-zero one; eight rounds empty a `u64`. -/
def pushBytes : Nat → UInt64 → List UInt8
  | 0, _ => []
  | rounds + 1, i => if i = 0 then [] else i.toUInt8 :: pushBytes rounds (i >>> 8)

/-- An integer as a buffer: its bytes, filled up to eight. -/
def integerBuffer (i : UInt64) : List UInt8 :=
  (pushBytes 8 i).rightpad 8 0

/-- A buffer as an integer: its bytes are popped off its end. -/
def bufferInteger (b : List UInt8) : Conv UInt64 :=
  if b.length > 8 then throw .AmlValueError
  else pure (b.foldr (fun byte i => (i <<< 8) + byte.toUInt64) 0)

/-- Digits are taken in until one is none. -/
def hexDigits : Str → UInt64 → UInt64
  | [], i => i
  | c :: s, i =>
    match Str.toDigit c with
    | none => i
    | some digit => hexDigits s ((i <<< 8) + digit)

/-- A string as an integer: its first eight bytes, which have to be there. -/
def stringInteger (s : Str) : Conv UInt64 := do
  let (start, _) ← orPanic (Str.splitAtByte s 8)
  pure (hexDigits (start.flatMap Str.toUppercase) 0)

/-- `get_as_buffer` and `get_as_integer`, which call each other on the parts of a
buffer field. -/
def getAsBufferAndInteger (order : SdtOrder) : AmlValue → Conv (List UInt8) × Conv UInt64
  | .Buffer b => (pure b, bufferInteger b)
  | .Integer i => (pure (integerBuffer i), pure i)
  | .IntegerConstant i => (throw .AmlValueError, pure i)
  | .String s => (pure (Str.bytes s), stringInteger s)
  | .DDBHandle _ signature =>
    (throw .AmlValueError,
      match getIndexFromSignature order signature with
      | some i => pure (UInt64.ofNat i)
      | none => throw .AmlValueError)
  | .BufferField ⟨sourceBuf, index, length⟩ =>
    let buffer : Conv (List UInt8) := do
      let buf ← (getAsBufferAndInteger order sourceBuf).1
      let idx ← (getAsBufferAndInteger order index).2
      let len ← (getAsBufferAndInteger order length).2
      -- the sum wraps, and a start behind the end is a panic
      let last := (idx + len).toNat
      if last > buf.length then throw .AmlValueError
      else if idx.toNat > last then stop .panic
      else pure ((buf.take last).drop idx.toNat)
    (buffer, buffer >>= bufferInteger)
  | .None | .Uninitialized | .Alias _ | .DebugObject | .Device _ | .Event _ | .FieldUnit _
  | .Method _ | .Mutex _ _ | .ObjectReference _ | .OperationRegion _ | .Package _
  | .PowerResource _ | .Processor _ | .RawDataBuffer _ | .ThermalZone _ =>
    (throw .AmlValueError, throw .AmlValueError)

def getAsBuffer (order : SdtOrder) (v : AmlValue) : Conv (List UInt8) :=
  (getAsBufferAndInteger order v).1

def getAsInteger (order : SdtOrder) (v : AmlValue) : Conv UInt64 :=
  (getAsBufferAndInteger order v).2

def getAsBufferField (order : SdtOrder) : AmlValue → Conv (Aml.BufferField AmlValue)
  | .BufferField b => pure b
  | v => do
    let rawBuf ← v.getAsBuffer order
    pure ⟨.Buffer rawBuf, .IntegerConstant 0, .Integer (UInt64.ofNat rawBuf.length)⟩

def getAsDdbHandle (order : SdtOrder) : AmlValue → Conv (List Str × SdtSignature)
  | .DDBHandle delta signature => pure (delta, signature)
  | .Integer i =>
    match getSignatureFromIndex order i.toNat with
    | some signature => pure ([], signature)
    | none => throw .AmlValueError
  | _ => throw .AmlValueError

def getAsMethod : AmlValue → Conv Aml.Method
  | .Method m => pure m
  | _ => throw .AmlValueError

def getAsPackage : AmlValue → Conv (List AmlValue)
  | .Package p => pure p
  | _ => throw .AmlValueError

def getAsString (order : SdtOrder) : AmlValue → Conv Str
  | .String s => pure s
  | .Integer i | .IntegerConstant i => pure (Str.upperHex i)
  | .Buffer b => orPanic (Str.fromUtf8 b)
  | .BufferField b => do orPanic (Str.fromUtf8 (← getAsBuffer order (.BufferField b)))
  | _ => throw .AmlValueError

/-- The value as the kind of thing that `t` is. -/
def getAsType (order : SdtOrder) (v t : AmlValue) : Conv AmlValue :=
  match t with
  | .None => pure .None
  | .Uninitialized => pure v
  | .Buffer _ => .Buffer <$> v.getAsBuffer order
  | .BufferField _ => .BufferField <$> v.getAsBufferField order
  | .DDBHandle _ _ => do
    let (delta, signature) ← v.getAsDdbHandle order
    pure (.DDBHandle delta signature)
  | .Integer _ => .Integer <$> v.getAsInteger order
  | .String _ => .String <$> v.getAsString order
  -- the other kinds take a value of their own only
  | .Alias _ => match v with | .Alias _ => pure v | _ => throw .AmlValueError
  | .DebugObject => match v with | .DebugObject => pure v | _ => throw .AmlValueError
  | .Device _ => match v with | .Device _ => pure v | _ => throw .AmlValueError
  | .Event _ => match v with | .Event _ => pure v | _ => throw .AmlValueError
  | .FieldUnit _ => match v with | .FieldUnit _ => pure v | _ => throw .AmlValueError
  | .IntegerConstant _ => match v with | .IntegerConstant _ => pure v | _ => throw .AmlValueError
  | .Method _ => match v with | .Method _ => pure v | _ => throw .AmlValueError
  | .Mutex _ _ => match v with | .Mutex _ _ => pure v | _ => throw .AmlValueError
  | .ObjectReference _ => match v with | .ObjectReference _ => pure v | _ => throw .AmlValueError
  | .OperationRegion _ => match v with | .OperationRegion _ => pure v | _ => throw .AmlValueError
  | .Package _ => match v with | .Package _ => pure v | _ => throw .AmlValueError
  | .PowerResource _ => match v with | .PowerResource _ => pure v | _ => throw .AmlValueError
  | .Processor _ => match v with | .Processor _ => pure v | _ => throw .AmlValueError
  | .RawDataBuffer _ => match v with | .RawDataBuffer _ => pure v | _ => throw .AmlValueError
  | .ThermalZone _ => match v with | .ThermalZone _ => pure v | _ => throw .AmlValueError

end AmlValue

end Faastr.Aml
