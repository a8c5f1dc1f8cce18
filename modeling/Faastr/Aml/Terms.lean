import Faastr.Aml.Parser
import Faastr.Aml.Scope
import Faastr.Lib.LittleEndian

/-!
Term arguments of AML (`acpi/aml/termlist.rs`, `dataobj.rs`, `type2opcode.rs`
and the rest of `namestring.rs`).

The parsers call each other without end, on data that gets shorter; `Parsers`
are the ones that others call back, and `parsers env fuel` ties the knot `fuel`
calls deep. What runs outside of a term is in `Env`: the clock, the bodies of
methods and the tables.

Near-identical opcodes are one definition each: `parseBinary` (two operands and
a target), `parseUnary` (an operand and a target), `parseLogical` (two operands).
-/

namespace Faastr.Aml

open Faastr.Lib AmlExecutionContext

/-! ### The surroundings -/

/-- What a term may call on. `execute` runs a method's body in a context of its
own and `parseAmlWithScope` a table; both may change the shared state. -/
structure Env where
  monotonic : Nat → UInt64 × UInt64
  execute : Method → Str → List AmlValue → Acpi → Except Stop (AmlValue × Acpi)
  sdtPointers : Option (SdtSignature → Option (List UInt8))
  parseAmlWithScope :
    List UInt8 → Str → Acpi → Except Stop (Except AmlError (List Str) × Acpi)

/-- The parsers that are called back, and the fuel for loops. -/
structure Parsers where
  fuel : Nat
  termArg : AmlParser
  superName : AmlParser
  dataRefObj : AmlParser

variable (env : Env) (inner : Parsers)

/-- `monotonic`, in nanoseconds. -/
def monotonicNs : Interp UInt64 := do
  let (seconds, nanoseconds) := env.monotonic (← get).acpi.clockReads
  modify fun m => { m with acpi := { m.acpi with clockReads := m.acpi.clockReads + 1 } }
  return nanoseconds + seconds * 1000000000

def executeMethod (method : Method) (scope : Str) (params : List AmlValue) : Interp AmlValue := do
  let m ← get
  match env.execute method scope params m.acpi with
  | .ok (value, acpi) =>
    set { m with acpi := acpi }
    return value
  | .error reason => halt reason

def parseTable (table : List UInt8) (scope : Str) : Interp (List Str) := do
  let m ← get
  match env.parseAmlWithScope table scope m.acpi with
  | .ok (result, acpi) =>
    set { m with acpi := acpi }
    match result with
    | .ok delta => return delta
    | .error e => throw e
  | .error reason => halt reason

def integerOf (v : AmlValue) : Interp UInt64 := convert fun order => v.getAsInteger order
def bufferOf (v : AmlValue) : Interp (List UInt8) := convert fun order => v.getAsBuffer order
def stringOf (v : AmlValue) : Interp Str := convert fun order => v.getAsString order

/-- A result is stored in the target; that it cannot be is no error. -/
def store (target value : AmlValue) : Interp Unit := do
  let _ ← attempt (modifyValue inner.fuel target value)

/-! ### Names and targets -/

def parseTarget : AmlParser := executing fun data => do
  if (← byteAt data 0) = 0x00 then return ⟨.None, 1⟩ else inner.superName data

/-- The arguments of a method, from an offset on. -/
def parseParams (data : List UInt8) : Nat → Nat → Interp (List AmlValue × Nat)
  | offset, 0 => pure ([], offset)
  | offset, count + 1 => do
    let res ← parseAt inner.termArg data offset
    let (params, offset) ← parseParams data (offset + res.len) count
    return (res.val :: params, offset)

def parseMethodInvocation : AmlParser := executing fun data => do
  let name ← parseNameString data
  let method ← getValue name.val
  match method with
  | .None => throw .AmlDeferredLoad
  | _ => do
    let method ← method.getAsMethod
    let (params, len) ← parseParams inner data name.len method.argCount.toNat
    let current := (← get).ctx.scope
    let scope ← convert fun order => getNamespaceString order current name.val
    return ⟨← executeMethod env method scope params, len⟩

/-- The object that a reference is made to. -/
def referenceTo (v : AmlValue) : Interp (Option (ObjectReference AmlValue)) := do
  match v with
  | .String s =>
    match ← getValue (.String s) with
    | .None => return none
    | _ => return some (.Object s)
  | .ObjectReference o => return some o
  | _ => throw .AmlValueError

def parseDefRefOf : AmlParser := opcode 0x71 fun data => do
  let obj ← parseAt inner.superName data 1
  match ← referenceTo obj.val with
  | some reference => return ⟨.ObjectReference reference, 1 + obj.len⟩
  | none => throw .AmlValueError

def parseDefDerefOf : AmlParser := opcode 0x83 fun data => do
  let obj ← parseAt inner.termArg data 1
  match ← getValue obj.val with
  | .None => throw .AmlValueError
  | res => return ⟨res, 1 + obj.len⟩

def parseDefIndex : AmlParser := opcode 0x88 fun data => do
  let obj ← parseAt inner.termArg data 1
  let idx ← parseAt inner.termArg data (1 + obj.len)
  let target ← parseAt (parseTarget inner) data (1 + obj.len + idx.len)
  let reference := .ObjectReference (.Index obj.val idx.val)
  store inner target.val reference
  return ⟨reference, 1 + obj.len + idx.len + target.len⟩

def parseType6Opcode : AmlParser := executing (selector
  [parseDefDerefOf inner, parseDefRefOf inner, parseDefIndex inner, parseMethodInvocation env inner])

def parseSuperName : AmlParser := executing (selector
  [parseSimpleName, parseType6Opcode env inner, parseDebugObj])

/-- The bytes handed on still start with the opcode. -/
def parseDefObjectType : AmlParser := opcode 0x8E (selector
  [inner.superName, parseDefRefOf inner, parseDefDerefOf inner, parseDefIndex inner])

/-! ### Data objects -/

/-- An element of a package; what is no object is a name. -/
def packageElement : AmlParser := fun data => do
  match ← attempt (inner.dataRefObj data) with
  | .ok e => return e
  | .error _ => do
    let d ← parseNameString data
    return ⟨.ObjectReference (.Object (← stringOf d.val)), d.len⟩

/-- The loop of `parse_package_elements_list`. -/
def packageElements : Nat → List UInt8 → Interp (List AmlValue)
  | _, [] => return []
  | 0, _ => halt .fuel
  | fuel + 1, data => do
    let dro ← packageElement inner data
    return dro.val :: (← packageElements fuel (data.drop dro.len))

def parsePackageElementsList : AmlParser := executing fun data => do
  return ⟨.Package (← packageElements inner inner.fuel data), data.length⟩

/-- Elements cut or filled up to a number. -/
def resized (elements : List AmlValue) (numelements : Nat) : List AmlValue :=
  (elements.take numelements).rightpad numelements .Uninitialized

def parseDefPackage : AmlParser := opcode 0x12 fun data => do
  let (pkgLength, pkgLengthLen) ← pkgLengthAt data
  let numelements ← byteAt data (1 + pkgLengthLen)
  let list ← parsePackageElementsList inner (← slice data (2 + pkgLengthLen) (1 + pkgLength))
  let elements ← list.val.getAsPackage
  return ⟨.Package (resized elements numelements.toNat), 1 + pkgLength⟩

def parseDefVarPackage : AmlParser := opcode 0x13 fun data => do
  let (pkgLength, pkgLengthLen) ← pkgLengthAt data
  let numElements ← inner.termArg (← slice data (1 + pkgLengthLen) (1 + pkgLength))
  let list ← parsePackageElementsList inner
    (← slice data (1 + pkgLengthLen + numElements.len) (1 + pkgLength))
  let elements ← list.val.getAsPackage
  let numelements ← integerOf numElements.val
  return ⟨.Package (resized elements numelements.toNat), 1 + pkgLength⟩

def parseDefBuffer : AmlParser := opcode 0x11 fun data => do
  let (pkgLength, pkgLengthLen) ← pkgLengthAt data
  let bufferSize ← parseAt inner.termArg data (1 + pkgLengthLen)
  let byteList ← slice data (1 + pkgLengthLen + bufferSize.len) (1 + pkgLength)
  let size ← integerOf bufferSize.val
  return ⟨.Buffer (byteList.take size.toNat), 1 + pkgLength⟩

/-- An integer of some bytes behind the opcode. -/
def integerAt (data : List UInt8) (width : Nat) : Interp AmlParseType := do
  let bytes ← slice data 1 (1 + width)
  return ⟨.Integer (UInt64.ofNat (leNat bytes)), 1 + width⟩

/-- The characters up to a zero byte. -/
def parseStringData (data : List UInt8) : Interp AmlParseType := do
  let curString := (data.drop 1).takeWhile (· != 0x00)
  let _ ← byteAt data (1 + curString.length)
  match Str.fromUtf8 curString with
  | some s => return ⟨.String s, curString.length + 2⟩
  | none => throw (.AmlParseError "String data - invalid string")

/-- By the first byte. -/
def computationalData (data : List UInt8) : UInt8 → Interp AmlParseType
  | 0x0A => integerAt data 1
  | 0x0B => integerAt data 2
  | 0x0C => integerAt data 4
  | 0x0D => parseStringData data
  | 0x0E => integerAt data 8
  | 0x00 => return ⟨.IntegerConstant 0, 1⟩
  | 0x01 => return ⟨.IntegerConstant 1, 1⟩
  | 0x5B => do
    if (← byteAt data 1) = 0x30 then return ⟨.IntegerConstant 20170630, 2⟩
    else throw .AmlInvalidOpCode
  | 0xFF => return ⟨.IntegerConstant 0xFFFFFFFFFFFFFFFF, 1⟩
  | _ => parseDefBuffer inner data

def parseComputationalData : AmlParser := executing fun data => do
  computationalData inner data (← byteAt data 0)

def parseDataObj : AmlParser := executing (selector
  [parseComputationalData inner, parseDefPackage inner, parseDefVarPackage inner])

/-- A name as an element or as the value of a name. -/
def parseNamedRef : AmlParser := fun data => do
  let res ← inner.superName data
  match res.val with
  | .String s => return ⟨.ObjectReference (.Object s), res.len⟩
  | _ => return res

def parseDataRefObj : AmlParser := executing (selector
  [parseDataObj inner, inner.termArg, parseNamedRef inner])

/-! ### Waiting -/

/-- `acquire_mutex` or `wait_for_event` until it succeeds or the time is over. -/
def waitUntil (attemptOnce : Interp Bool) (forever : Bool) (limit start : UInt64) (len : Nat) :
    Nat → Interp AmlParseType
  | 0 => halt .fuel
  | tries + 1 => do
    if ← attemptOnce then return ⟨.Integer 0, len⟩
    else if forever then waitUntil attemptOnce forever limit start len tries
    else do
      let now ← monotonicNs env
      if now - start > limit * 1000000 then return ⟨.Integer 1, len⟩
      else waitUntil attemptOnce forever limit start len tries

/-- The mutex is read from the byte behind the extension byte, the opcode's own. -/
def parseDefAcquire : AmlParser := opcodeExtended 0x23 fun data => do
  let obj ← parseAt inner.superName data 1
  let low ← byteAt data (2 + obj.len)
  let high ← byteAt data (3 + obj.len)
  let timeout := low.toUInt16 + (high.toUInt16 <<< 8)
  let start ← monotonicNs env
  waitUntil env (acquireMutex obj.val) (timeout == 0xFFFF) timeout.toUInt64 start (4 + obj.len)
    inner.fuel

def parseDefWait : AmlParser := opcodeExtended 0x25 fun data => do
  let obj ← parseAt inner.superName data 2
  let timeoutObj ← parseAt inner.termArg data (2 + obj.len)
  let timeout ← integerOf timeoutObj.val
  let start ← monotonicNs env
  waitUntil env (waitForEvent obj.val) (timeout ≥ 0xFFFF) timeout start
    (2 + obj.len + timeoutObj.len) inner.fuel

def parseDefTimer : AmlParser := opcodeExtended 0x33 fun _ => do
  return ⟨.Integer (← monotonicNs env), 2⟩

/-! ### Counting and comparing -/

/-- The namespace's lock is held over the read and the write. -/
def parseStep (op : UInt8) (step : UInt64 → UInt64) : AmlParser := opcode op fun data => do
  let obj ← parseAt inner.superName data 1
  let value ← withLock do
    let value := .Integer (step (← integerOf (← getValue obj.val)))
    store inner obj.val value
    return value
  return ⟨value, 1 + obj.len⟩

def parseDefIncrement : AmlParser := parseStep inner 0x75 (· + 1)
def parseDefDecrement : AmlParser := parseStep inner 0x76 (· - 1)

def parseLogical (op : UInt8) (test : AmlValue → AmlValue → Interp Bool) : AmlParser :=
  opcode op fun data => do
    let lhs ← parseAt inner.termArg data 1
    let rhs ← parseAt inner.termArg data (1 + lhs.len)
    let result ← test lhs.val rhs.val
    return ⟨.IntegerConstant (if result then 1 else 0), 1 + lhs.len + rhs.len⟩

/-- A comparison of the two integers. -/
def compareIntegers (holds : UInt64 → UInt64 → Bool) (lhs rhs : AmlValue) : Interp Bool := do
  return holds (← integerOf lhs) (← integerOf rhs)

-- the second operand is looked at only if the first does not decide
def parseDefLand : AmlParser := parseLogical inner 0x90 fun lhs rhs => do
  if (← integerOf lhs) > 0 then return (← integerOf rhs) > 0 else return false

def parseDefLor : AmlParser := parseLogical inner 0x91 fun lhs rhs => do
  if (← integerOf lhs) > 0 then return true else return (← integerOf rhs) > 0

def parseDefLequal : AmlParser := parseLogical inner 0x93 (compareIntegers (· == ·))
def parseDefLgreater : AmlParser := parseLogical inner 0x94 (compareIntegers (· > ·))
def parseDefLless : AmlParser := parseLogical inner 0x95 (compareIntegers (· < ·))

def parseDefLnot : AmlParser := opcode 0x92 fun data => do
  let operand ← parseAt inner.termArg data 1
  let result ← integerOf operand.val
  return ⟨.IntegerConstant (if result = 0 then 1 else 0), 1 + operand.len⟩

/-! ### Arithmetic -/

/-- Two operands and a target. -/
def parseBinary (op : UInt8) (compute : AmlValue → AmlValue → Interp AmlValue) : AmlParser :=
  opcode op fun data => do
    let lhs ← parseAt inner.termArg data 1
    let rhs ← parseAt inner.termArg data (1 + lhs.len)
    let target ← parseAt (parseTarget inner) data (1 + lhs.len + rhs.len)
    let result ← compute lhs.val rhs.val
    store inner target.val result
    return ⟨result, 1 + lhs.len + rhs.len + target.len⟩

/-- An operation on the two integers. -/
def onIntegers (f : UInt64 → UInt64 → UInt64) (lhs rhs : AmlValue) : Interp AmlValue := do
  return .Integer (f (← integerOf lhs) (← integerOf rhs))

def parseDefAdd : AmlParser := parseBinary inner 0x72 (onIntegers (· + ·))
def parseDefSubtract : AmlParser := parseBinary inner 0x74 (onIntegers (· - ·))
def parseDefMultiply : AmlParser := parseBinary inner 0x77 (onIntegers (· * ·))
def parseDefShiftLeft : AmlParser := parseBinary inner 0x79 (onIntegers (· >>> ·))
def parseDefShiftRight : AmlParser := parseBinary inner 0x7A (onIntegers (· <<< ·))
def parseDefAnd : AmlParser := parseBinary inner 0x7B (onIntegers (· &&& ·))
def parseDefNand : AmlParser := parseBinary inner 0x7C (onIntegers fun x y => ~~~(x &&& y))
def parseDefOr : AmlParser := parseBinary inner 0x7D (onIntegers (· ||| ·))
def parseDefNor : AmlParser := parseBinary inner 0x7E (onIntegers fun x y => ~~~(x ||| y))
def parseDefXor : AmlParser := parseBinary inner 0x7F (onIntegers (· ^^^ ·))

def parseDefMod : AmlParser := parseBinary inner 0x85 fun lhs rhs => do
  if (← integerOf rhs) = 0 then throw .AmlValueError
  else onIntegers (· % ·) lhs rhs

def parseDefDivide : AmlParser := opcode 0x78 fun data => do
  let lhs ← parseAt inner.termArg data 1
  let rhs ← parseAt inner.termArg data (1 + lhs.len)
  let targetRemainder ← parseAt (parseTarget inner) data (1 + lhs.len + rhs.len)
  let targetQuotient ←
    parseAt (parseTarget inner) data (1 + lhs.len + rhs.len + targetRemainder.len)
  let numerator ← integerOf lhs.val
  let denominator ← integerOf rhs.val
  if denominator = 0 then halt .panic
  else do
    let remainder := numerator % denominator
    let quotient := (numerator - remainder) / denominator
    store inner targetRemainder.val (.Integer remainder)
    store inner targetQuotient.val (.Integer quotient)
    return ⟨.Integer quotient,
      1 + lhs.len + rhs.len + targetRemainder.len + targetQuotient.len⟩

/-! ### Conversions -/

/-- An operand at some offset and a target; the length counts from another. -/
def parseUnary (start base : Nat) (compute : AmlValue → Interp AmlValue) : AmlParser := fun data => do
  let operand ← parseAt inner.termArg data start
  let target ← parseAt (parseTarget inner) data (start + operand.len)
  let res ← compute operand.val
  store inner target.val res
  return ⟨res, base + operand.len + target.len⟩

/-- A number for an integer, a string as it is, the numbers of a buffer's bytes one after the
other. -/
def toText (number : UInt64 → Str) : AmlValue → Interp AmlValue
  | .Integer i => return .String (number i)
  | .String s => return .String s
  | .Buffer b => return .String (b.flatMap fun x => number x.toUInt64)
  | _ => throw .AmlValueError

/-- Digits are taken from the low end and shifted up; twenty rounds empty a `u64`. -/
def toBcd : Nat → UInt64 → UInt64 → UInt64
  | 0, _, result => result
  | rounds + 1, i, result =>
    if i = 0 then result else toBcd rounds (i / 10) ((result <<< 4) + i % 10)

/-- Nibbles are taken from the low end; sixteen rounds empty a `u64`. -/
def fromBcd : Nat → UInt64 → UInt64 → Option UInt64
  | 0, _, result => some result
  | rounds + 1, i, result =>
    if i = 0 then some result
    else if i &&& 0x0F > 10 then none
    else fromBcd rounds (i >>> 4) (result * 10 + (i &&& 0x0F))

/-- The loop of `parse_def_find_set_left_bit`, from `first_bit` on. -/
def findSetLeftBit : Nat → UInt64 → Nat
  | 0, _ => 0
  | firstBit + 1, test =>
    if test &&& 0x8000000000000000 > 0 then firstBit + 1 else findSetLeftBit firstBit (test <<< 1)

/-- The loop of `parse_def_find_set_right_bit`, for a number of bits still to see. -/
def findSetRightBit : Nat → UInt64 → Nat
  | 0, _ => 0
  | left + 1, test => if test &&& 1 > 0 then 33 - (left + 1) else findSetRightBit left (test >>> 1)

-- all but `Not`, `ToString` and the extended ones read their operand one byte too late
def parseDefToBuffer : AmlParser := opcode 0x96 (parseUnary inner 2 1 fun v => do
  return .Buffer (← bufferOf v))

def parseDefToDecimalString : AmlParser :=
  opcode 0x97 (parseUnary inner 2 1 (toText fun i => Str.decimal i.toNat))

def parseDefToHexString : AmlParser := opcode 0x98 (parseUnary inner 2 1 (toText Str.upperHex))

def parseDefToInteger : AmlParser := opcode 0x99 (parseUnary inner 2 1 fun v => do
  return .Integer (← integerOf v))

def parseDefFindSetLeftBit : AmlParser := opcode 0x81 (parseUnary inner 2 1 fun v => do
  return .Integer (UInt64.ofNat (findSetLeftBit 32 (← integerOf v))))

def parseDefFindSetRightBit : AmlParser := opcode 0x82 (parseUnary inner 2 1 fun v => do
  return .Integer (UInt64.ofNat (findSetRightBit 32 (← integerOf v))))

def parseDefNot : AmlParser := opcode 0x80 (parseUnary inner 1 1 fun v => do
  return .Integer (~~~(← integerOf v)))

def parseDefToBcd : AmlParser := opcodeExtended 0x29 (parseUnary inner 2 1 fun v => do
  return .Integer (toBcd 20 (← integerOf v) 0))

def parseDefFromBcd : AmlParser := opcodeExtended 0x28 (parseUnary inner 2 2 fun v => do
  match fromBcd 16 (← integerOf v) 0 with
  | some result => return .Integer result
  | none => throw .AmlValueError)

/-- `String::truncate`. -/
def truncate (s : Str) (n : Nat) : Interp Str :=
  if n ≤ (Str.bytes s).length then
    match Str.splitAtByte s n with
    | some (start, _) => pure start
    | none => halt .panic
  else pure s

def parseDefToString : AmlParser := opcode 0x9C fun data => do
  let operand ← parseAt inner.termArg data 1
  let length ← parseAt inner.termArg data (1 + operand.len)
  let target ← parseAt (parseTarget inner) data (1 + operand.len + length.len)
  match Str.fromUtf8 (← bufferOf operand.val) with
  | some string => do
    let res := .String (← truncate string (← integerOf length.val).toNat)
    store inner target.val res
    return ⟨res, 1 + operand.len + length.len + target.len⟩
  | none => throw .AmlValueError

/-! ### Objects -/

/-- The number of bytes or of elements. -/
def objectSize : AmlValue → Interp Nat
  | .Buffer v => return v.length
  | .String s => return (Str.bytes s).length
  | .Package p => return p.length
  | _ => throw .AmlValueError

def parseDefSizeOf : AmlParser := opcode 0x87 fun data => do
  let name ← parseAt inner.superName data 1
  let res ← objectSize (← getValue name.val)
  return ⟨.Integer (UInt64.ofNat res), 1 + name.len⟩

def parseDefStore : AmlParser := opcode 0x70 fun data => do
  let operand ← parseAt inner.termArg data 1
  let target ← parseAt inner.superName data (1 + operand.len)
  store inner target.val operand.val
  return ⟨target.val, 1 + operand.len + target.len⟩

def parseDefCopyObject : AmlParser := opcode 0x9D fun data => do
  let source ← parseAt inner.termArg data 1
  let destination ← parseAt parseSimpleName data (1 + source.len)
  copyValue inner.fuel destination.val source.val
  return ⟨source.val, 1 + source.len + destination.len⟩

def parseDefCondRefOf : AmlParser := opcodeExtended 0x12 fun data => do
  let obj ← parseAt inner.superName data 2
  let target ← parseAt (parseTarget inner) data (2 + obj.len)
  match ← referenceTo obj.val with
  | none => return ⟨.Integer 0, 1 + obj.len + target.len⟩
  | some reference => do
    store inner target.val (.ObjectReference reference)
    return ⟨.Integer 1, 1 + obj.len + target.len⟩

/-- A buffer without an end tag, its last but one byte. -/
def untagged (buf : List UInt8) : List UInt8 :=
  if buf.length ≥ 2 ∧ buf[buf.length - 2]? = some 0x79 then buf.take (buf.length - 2) else buf

/-- Two resource buffers with one end tag and a checksum behind them. -/
def concatRes (lhs rhs : AmlValue) : Interp AmlValue := do
  let buf1 ← bufferOf lhs
  let buf2 ← bufferOf rhs
  if buf1.length = 1 ∨ buf2.length = 1 then throw .AmlValueError
  else do
    let buf := untagged buf1 ++ untagged buf2 ++ [0x79]
    return .Buffer (buf ++ [~~~(buf.foldl (· + ·) 0) + 1])

/-- The text of a value, or of its type. -/
def textOf (v : AmlValue) : Interp Str := do
  match ← attempt (stringOf v) with
  | .ok t => return t
  | .error _ => return v.getTypeString

def concat (lhs rhs : AmlValue) : Interp AmlValue := do
  match lhs with
  | .Integer _ => do
    let j := .Integer (← integerOf rhs)
    return .Buffer ((← bufferOf lhs) ++ (← bufferOf j))
  | .String s => return .String (s ++ (← textOf rhs))
  | .Buffer b => do
    match ← attempt (bufferOf rhs) with
    | .ok c => return .Buffer (b ++ c)
    | .error _ => return .Buffer (b ++ (← bufferOf (.String rhs.getTypeString)))
  | _ => return .String (lhs.getTypeString ++ (← textOf rhs))

/-- Two operands and a target that has to take the result. -/
def parseConcat (op : UInt8) (compute : AmlValue → AmlValue → Interp AmlValue) : AmlParser :=
  opcode op fun data => do
    let lhs ← parseAt inner.termArg data 1
    let rhs ← parseAt inner.termArg data (1 + lhs.len)
    let target ← parseAt (parseTarget inner) data (1 + lhs.len + rhs.len)
    let result ← compute lhs.val rhs.val
    modifyValue inner.fuel target.val result
    return ⟨result, 1 + lhs.len + rhs.len + target.len⟩

def parseDefConcat : AmlParser := parseConcat inner 0x73 concat
def parseDefConcatRes : AmlParser := parseConcat inner 0x84 concatRes

/-- The middle of a string or of a buffer. -/
def mid (source : AmlValue) (idx len : UInt64) : Interp AmlValue := do
  match source with
  | .String s =>
    if idx.toNat > (Str.bytes s).length then return .String []
    else do
      let (_, res) ← orPanic (Str.splitAtByte s idx.toNat)
      if len.toNat < (Str.bytes res).length then do
        let (start, _) ← orPanic (Str.splitAtByte res len.toNat)
        return .String start
      else return .String res
  | _ => do
    let b ← bufferOf source
    if idx.toNat > b.length then return .Buffer []
    else if (idx + len).toNat > b.length then return .Buffer (b.drop idx.toNat)
    else return .Buffer (← slice b idx.toNat (idx + len).toNat)

def parseDefMid : AmlParser := opcode 0x9E fun data => do
  let source ← parseAt inner.termArg data 1
  let index ← parseAt inner.termArg data (1 + source.len)
  let length ← parseAt inner.termArg data (1 + source.len + index.len)
  let target ← parseAt (parseTarget inner) data (1 + source.len + index.len + length.len)
  let idx ← integerOf index.val
  let len ← integerOf length.val
  let result ← mid source.val idx len
  store inner target.val result
  return ⟨result, 1 + source.len + index.len + length.len + target.len⟩

/-! ### Match -/

inductive MatchOpcode
  | MTR
  | MEQ
  | MLE
  | MLT
  | MGE
  | MGT
  deriving DecidableEq, Repr

def MatchOpcode.read : UInt8 → Interp MatchOpcode
  | 0 => return .MTR
  | 1 => return .MEQ
  | 2 => return .MLE
  | 3 => return .MLT
  | 4 => return .MGE
  | 5 => return .MGT
  | _ => throw (.AmlParseError "DefMatch - Invalid Opcode")

section Match

variable {α : Type} [LT α] [DecidableLT α] [DecidableEq α]

/-- An element goes on to the next test, or `continue`s. -/
def MatchOpcode.holds (op : MatchOpcode) (val operand : α) : Bool :=
  match op with
  | .MTR => true
  | .MEQ => val = operand
  | .MLE => ¬ operand < val
  | .MLT => val < operand
  | .MGE => ¬ val < operand
  | .MGT => operand < val

/-- The index behind the first element that passes both tests. -/
def matchFrom (convertOne : AmlValue → Interp α) (first second : MatchOpcode) (i j : α) :
    List AmlValue → Nat → Interp (Option Nat)
  | [], _ => return none
  | v :: rest, idx => do
    match ← attempt (convertOne v) with
    | .ok val =>
      if first.holds val i ∧ second.holds val j then return some (idx + 1)
      else matchFrom convertOne first second i j rest (idx + 1)
    | .error _ => matchFrom convertOne first second i j rest (idx + 1)

end Match

/-- The elements are compared as what the first operand is. -/
def findMatch (pkg : List AmlValue) (first second : MatchOpcode)
    (firstOperand secondOperand : AmlValue) (start : Nat) : Interp (Option Nat) := do
  match firstOperand with
  | .Integer i => do
    let j ← integerOf secondOperand
    matchFrom integerOf first second i j (pkg.drop start) start
  | .String i => do
    let j ← stringOf secondOperand
    -- strings are ordered by their bytes
    matchFrom (fun v => do return Str.bytes (← stringOf v)) first second (Str.bytes i)
      (Str.bytes j) (pkg.drop start) start
  | _ => do
    let i ← bufferOf firstOperand
    let j ← bufferOf secondOperand
    matchFrom bufferOf first second i j (pkg.drop start) start

def parseDefMatch : AmlParser := opcode 0x28 fun data => do
  let searchPkg ← parseAt inner.termArg data 1
  let firstOperation ← MatchOpcode.read (← byteAt data (1 + searchPkg.len))
  let firstOperand ← parseAt inner.termArg data (2 + searchPkg.len)
  let secondOperation ← MatchOpcode.read (← byteAt data (2 + searchPkg.len + firstOperand.len))
  let secondOperand ← parseAt inner.termArg data (3 + searchPkg.len + firstOperand.len)
  let startIndex ←
    parseAt inner.termArg data (3 + searchPkg.len + firstOperand.len + secondOperand.len)
  let len := 3 + searchPkg.len + firstOperand.len + secondOperand.len + startIndex.len
  let pkg ← searchPkg.val.getAsPackage
  let idx ← integerOf startIndex.val
  match ← findMatch pkg firstOperation secondOperation firstOperand.val secondOperand.val
      idx.toNat with
  | some found => return ⟨.Integer (UInt64.ofNat found), len⟩
  | none => return ⟨.IntegerConstant 0xFFFFFFFFFFFFFFFF, len⟩

/-! ### Tables -/

/-- The first bytes of a string. The source reads on behind the end of a shorter one; here that
stops. -/
def firstBytes (s : Str) (n : Nat) : Interp (List UInt8) := slice (Str.bytes s) 0 n

/-- The table with a signature parsed, if there is one. -/
def loadTable (signature oemId oemTableId rootPath : AmlValue) :
    Interp (Option (List Str × SdtSignature)) := do
  match env.sdtPointers with
  | none => return none
  | some ptrs => do
    let sig ← firstBytes (← stringOf signature) 4
    let sigStr ← orPanic (Str.fromUtf8 sig)
    let oemStr ← firstBytes (← stringOf oemId) 6
    let oemTableStr ← firstBytes (← stringOf oemTableId) 8
    let sdtSignature : SdtSignature := ⟨sigStr, oemStr, oemTableStr⟩
    match ptrs sdtSignature with
    | none => return none
    | some sdt => do
      let hdl ← parseTable env sdt (← stringOf rootPath)
      return some (hdl, sdtSignature)

def parseDefLoadTable : AmlParser := opcodeExtended 0x1F fun data => do
  let signature ← parseAt inner.termArg data 2
  let oemId ← parseAt inner.termArg data (2 + signature.len)
  let oemTableId ← parseAt inner.termArg data (2 + signature.len + oemId.len)
  let rootPath ← parseAt inner.termArg data (2 + signature.len + oemId.len + oemTableId.len)
  let parameterPath ←
    parseAt inner.termArg data (2 + signature.len + oemId.len + oemTableId.len + rootPath.len)
  let parameterData ← parseAt inner.termArg data
    (2 + signature.len + oemId.len + oemTableId.len + rootPath.len + parameterPath.len)
  let len := 2 + signature.len + oemId.len + oemTableId.len + rootPath.len + parameterPath.len +
    parameterData.len
  match ← loadTable env signature.val oemId.val oemTableId.val rootPath.val with
  | some (hdl, sdtSignature) => do
    store inner parameterPath.val parameterData.val
    return ⟨.DDBHandle hdl sdtSignature, len⟩
  | none => return ⟨.IntegerConstant 0, len⟩

/-! ### All of them -/

/-- The opcodes in the order in which they are tried. -/
def type2Defs : List AmlParser :=
  [parseDefIncrement inner, parseDefAcquire env inner, parseDefWait env inner, parseDefLand inner,
    parseDefLequal inner, parseDefLgreater inner, parseDefLless inner, parseDefLnot inner,
    parseDefLor inner, parseDefSizeOf inner, parseDefStore inner, parseDefSubtract inner,
    parseDefToBuffer inner, parseDefToHexString inner, parseDefToBcd inner,
    parseDefToDecimalString inner, parseDefToInteger inner, parseDefToString inner, parseDefAdd inner,
    parseDefXor inner, parseDefShiftLeft inner, parseDefShiftRight inner, parseDefMod inner,
    parseDefAnd inner, parseDefOr inner, parseDefConcatRes inner, parseDefConcat inner,
    parseDefCondRefOf inner, parseDefCopyObject inner, parseDefDecrement inner, parseDefDivide inner,
    parseDefFindSetLeftBit inner, parseDefFindSetRightBit inner, parseDefFromBcd inner,
    parseDefLoadTable env inner, parseDefMatch inner, parseDefMid inner, parseDefMultiply inner,
    parseDefNand inner, parseDefNor inner, parseDefNot inner, parseDefTimer env, parseDefBuffer inner,
    parseDefPackage inner, parseDefVarPackage inner, parseDefObjectType inner, parseDefDerefOf inner,
    parseDefRefOf inner, parseDefIndex inner]

def parseType2Opcode : AmlParser :=
  executing (selector (type2Defs env inner ++ [parseMethodInvocation env inner]))

def parseTermArg : AmlParser := executing (selector
  [parseLocalObj, parseDataObj inner, parseArgObj, parseType2Opcode env inner])

/-- The parsers, `fuel` calls deep. -/
def parsers (env : Env) : Nat → Parsers
  | 0 => ⟨0, fun _ => halt .fuel, fun _ => halt .fuel, fun _ => halt .fuel⟩
  | fuel + 1 =>
    ⟨fuel + 1, parseTermArg env (parsers env fuel), parseSuperName env (parsers env fuel),
      parseDataRefObj (parsers env fuel)⟩

@[simp] theorem parsers_succ_termArg (env : Env) (fuel : Nat) :
    (parsers env (fuel + 1)).termArg = parseTermArg env (parsers env fuel) := rfl

end Faastr.Aml
