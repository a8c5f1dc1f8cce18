import Faastr.Sos.RoundTrip

/-!
The C library's codec (`libc/sos.c`, `libc/include/sos.h`) against the Rust one.

A `Values` buffer is a byte list whose first two words are the number of values
and a cursor, an offset from the end of these two words. Both the writers and
the readers move the cursor; a value is a four-byte type, a four-byte length and
the data. Memory accesses outside the buffer are faults. The Rust codec has the
length of the whole message in place of the cursor, a one-byte tag, and a
length word only where the type has no fixed width.

* `cBuffer`, `setValues_eq`: the bytes the C writers leave, for every list.
* `collect_cWires_ne`: the Rust decoder does not read any of these back.
* `sosGetData_message`: the first C read of a Rust message is outside of it.
* `libc_and_sos_disagree`: both directions fail on every list of values.
-/

namespace Faastr.Libc

open Faastr.Lib Faastr.Sos

/-! ### The C library -/

/-- `enum Type`. -/
inductive SosType where
  | invalid
  | int32
  | uint32
  | int64
  | uint64
  | float
  | double
  | error
  | string
  | opaqueBytes
  | function
deriving DecidableEq, Repr

/-- The value of an enumerator. -/
def SosType.toNat : SosType → Nat
  | .invalid => 0
  | .int32 => 1
  | .uint32 => 2
  | .int64 => 3
  | .uint64 => 4
  | .float => 5
  | .double => 6
  | .error => 7
  | .string => 8
  | .opaqueBytes => 9
  | .function => 10

def strlen (str : List UInt8) : Checked Nat :=
  match str.findIdx? (· == 0) with
  | some n => .ok n
  | none => .error .index

/-- `memcpy` of `n` bytes into the buffer at `pos`. -/
def memcpy (vals : List UInt8) (pos : Nat) (data : List UInt8) (n : Nat) :
    Checked (List UInt8) := do
  let src ← slice data 0 n
  onSlice vals pos (pos + n) fun dst => copyFromSlice dst src

/-- `sizeof(Value)`: the type and the length. -/
def sizeofValue : Nat := 8

/-- `_Get_At_Offset_`: where the value under the cursor starts. -/
def getAtOffset (vals : List UInt8) : Checked Nat := do
  return 8 + (← readLe 4 (← slice vals 4 8))

/-- `*val = (Value){type, size}`. -/
def setHeader (vals : List UInt8) (val : Nat) (type : SosType) (size : Nat) :
    Checked (List UInt8) := do
  let vals ← onSlice vals val (val + 4) fun w => writeLe 4 w type.toNat
  onSlice vals (val + 4) (val + 8) fun w => writeLe 4 w size

/-- `vals->count++`. -/
def bumpCount (vals : List UInt8) : Checked (List UInt8) := do
  let count ← readLe 4 (← slice vals 0 4)
  onSlice vals 0 4 fun w => writeLe 4 w (count + 1)

/-- `vals->current_offset += size + sizeof(Value)`. -/
def advance (vals : List UInt8) (size : Nat) : Checked (List UInt8) := do
  let current ← readLe 4 (← slice vals 4 8)
  onSlice vals 4 8 fun w => writeLe 4 w (current + (size + sizeofValue))

/-- A value's data, as a pointer into the buffer, its length, and the buffer. -/
def sosGetData (vals : List UInt8) : Checked (Nat × Nat × List UInt8) := do
  let val ← getAtOffset vals
  let length ← readLe 4 (← slice vals (val + 4) (val + 8))
  let vals ← advance vals length
  return (val + 8, length, vals)

def sosSetData (vals : List UInt8) (type : SosType) (size : Nat) (data : List UInt8) :
    Checked (List UInt8) := do
  let val ← getAtOffset vals
  let vals ← setHeader vals val type size
  let vals ← memcpy vals (val + 8) data size
  let vals ← bumpCount vals
  advance vals size

def setFunction (vals module func : List UInt8) : Checked (List UInt8) := do
  let lenModule ← strlen module
  let lenFunc ← strlen func
  -- An `unsigned int` takes the sum of two `long`s.
  let strSize := (lenModule + lenFunc + 2) % 2 ^ 32
  let val ← getAtOffset vals
  let vals ← setHeader vals val .function strSize
  let vals ← memcpy vals (val + 8) module (lenModule + 1)
  let vals ← memcpy vals (val + 8 + lenModule + 1) func (lenFunc + 1)
  let vals ← bumpCount vals
  advance vals strSize

/-- The two C strings, as pointers into the buffer, and the buffer. -/
def getFunction (vals : List UInt8) : Checked (Nat × Nat × List UInt8) := do
  let (data, _, vals) ← sosGetData vals
  let len ← strlen (vals.drop data)
  return (data, data + len + 1, vals)

/-- `AddValue` of a value with the given object representation. -/
def addValue (vals : List UInt8) (type : SosType) (tmp : List UInt8) : Checked (List UInt8) :=
  sosSetData vals type tmp.length tmp

def setOpaque (vals data : List UInt8) (size : Nat) : Checked (List UInt8) :=
  sosSetData vals .opaqueBytes (size % 2 ^ 32) data

def setString (vals str : List UInt8) : Checked (List UInt8) := do
  sosSetData vals .string (((← strlen str) + 1) % 2 ^ 32) str

def setError (vals str : List UInt8) : Checked (List UInt8) := do
  sosSetData vals .error (((← strlen str) + 1) % 2 ^ 32) str

/-- The C string of a string. -/
def cString (s : String) : List UInt8 := utf8 s ++ [0]

/-- The writer for a value. There is none for an embedded list. -/
def setValue (vals : List UInt8) : OwnedValue → Checked (List UInt8)
  | .int32 i => addValue vals .int32 (leBytes 4 i.toUInt32.toNat)
  | .uint32 i => addValue vals .uint32 (leBytes 4 i.toNat)
  | .int64 i => addValue vals .int64 (leBytes 8 i.toUInt64.toNat)
  | .uint64 i => addValue vals .uint64 (leBytes 8 i.toNat)
  | .float i => addValue vals .float (leBytes 4 i.toNat)
  | .double i => addValue vals .double (leBytes 8 i.toNat)
  | .error i => setError vals (cString i)
  | .string i => setString vals (cString i)
  | .opaqueBytes i => setOpaque vals i i.length
  | .function f => setFunction vals (cString f.module) (cString f.name)
  | .embedded _ => .error .unwrap

def setValues : List UInt8 → List OwnedValue → Checked (List UInt8)
  | vals, [] => return vals
  | vals, v :: vs => do setValues (← setValue vals v) vs

/-- What a reader is asked to return for a value: its data and their length, or
the two names of a function. -/
inductive Read where
  | data (data : List UInt8) (length : Nat)
  | function (module func : List UInt8)
deriving DecidableEq, Repr

/-- The string at a pointer, without its NUL. -/
def stringAt (vals : List UInt8) (pos : Nat) : Checked (List UInt8) := do
  let len ← strlen (vals.drop pos)
  slice vals pos (pos + len)

/-- Read the value under the cursor as a value of the given one's type. -/
def getValue (vals : List UInt8) : OwnedValue → Checked (Read × List UInt8)
  | .function _ => do
      let (module, func, vals) ← getFunction vals
      return (.function (← stringAt vals module) (← stringAt vals func), vals)
  | _ => do
      let (data, length, vals) ← sosGetData vals
      return (.data (← slice vals data (data + length)) length, vals)

def getValues : List UInt8 → List OwnedValue → Checked (List Read)
  | _, [] => return []
  | vals, v :: vs => do
      let (r, vals) ← getValue vals v
      return r :: (← getValues vals vs)

/-- The data of a value, or the names of a function. -/
def expected : OwnedValue → Read
  | .function f => .function (utf8 f.module) (utf8 f.name)
  | v => .data v.borrow.payload v.borrow.payload.length

/-- A value both libraries have, with strings that C can hold. -/
def Shared : OwnedValue → Prop
  | .string i | .error i => 0 ∉ utf8 i
  | .function f => 0 ∉ utf8 f.module ∧ 0 ∉ utf8 f.name
  | .embedded _ => False
  | _ => True

instance : DecidablePred Shared := fun v => by
  cases v <;> unfold Shared <;> infer_instance

/-- What the C writers leave in a zeroed buffer of `n` bytes decodes to the values. -/
def RustReadsC (n : Nat) (vs : List OwnedValue) : Prop :=
  ∃ b it, setValues (List.replicate n 0) vs = .ok b ∧ decodeSos b false = .ok (some it) ∧
    collect it = .ok (vs.map OwnedValue.borrow)

/-- The C readers return the values the Rust encoder put into `buf`. -/
def CReadsRust (buf : List UInt8) (vs : List OwnedValue) : Prop :=
  ∃ b n, encodeSos buf (vs.map OwnedValue.borrow) = .ok (b, n) ∧
    getValues b vs = .ok (vs.map expected)

/-! ### What the C writers leave -/

/-- A `Values` buffer: the count, the cursor and the rest. -/
def cBuffer (count current : Nat) (body : List UInt8) : List UInt8 :=
  leBytes 4 count ++ (leBytes 4 current ++ body)

/-- The bytes of one value. -/
def cWire (v : OwnedValue) : List UInt8 :=
  leBytes 4 v.borrow.ctype.toU8.toNat ++
    (leBytes 4 v.borrow.payload.length ++ v.borrow.payload)

def cWires (vs : List OwnedValue) : List UInt8 := vs.flatMap cWire

theorem cWire_length (v : OwnedValue) : (cWire v).length = 8 + v.borrow.payload.length := by
  simp only [cWire, List.length_append, leBytes_length]
  omega

theorem cWires_cons (v : OwnedValue) (vs : List OwnedValue) :
    cWires (v :: vs) = cWire v ++ cWires vs := rfl

theorem length_le_cWires_length (vs : List OwnedValue) : vs.length ≤ (cWires vs).length := by
  induction vs with
  | nil => exact Nat.le_refl _
  | cons v vs ih =>
    rw [cWires_cons, List.length_append, cWire_length, List.length_cons]
    omega

section Buffer

variable {count current : Nat}

theorem slice_cursor (body : List UInt8) :
    slice (cBuffer count current body) 4 8 = .ok (leBytes 4 current) :=
  slice_split (leBytes 4 count) (leBytes 4 current) body rfl (by simp) (by simp)

theorem getAtOffset_cBuffer (h : current < 2 ^ 32) (body : List UInt8) :
    getAtOffset (cBuffer count current body) = .ok (8 + current) := by
  simp only [getAtOffset, slice_cursor, bind, Except.bind]
  rw [readLe_leBytes (by omega)]
  rfl

theorem bumpCount_cBuffer (h : count < 2 ^ 32) (body : List UInt8) :
    bumpCount (cBuffer count current body) = .ok (cBuffer (count + 1) current body) := by
  have hslice : slice (cBuffer count current body) 0 4 = .ok (leBytes 4 count) :=
    slice_split [] (leBytes 4 count) (leBytes 4 current ++ body) rfl rfl (by simp)
  simp only [bumpCount, hslice, bind, Except.bind]
  rw [readLe_leBytes (by omega)]
  exact onSlice_front (leBytes 4 count) (leBytes 4 current ++ body) rfl (by simp)
    (writeLe_exact (by simp) _)

theorem advance_cBuffer (h : current < 2 ^ 32) (body : List UInt8) (size : Nat) :
    advance (cBuffer count current body) size =
      .ok (cBuffer count (current + (size + 8)) body) := by
  simp only [advance, slice_cursor, bind, Except.bind]
  rw [readLe_leBytes (by omega)]
  exact onSlice_split (leBytes 4 count) (leBytes 4 current) body rfl (by simp) (by simp)
    (writeLe_exact (by simp) _)

/-- Running `f` on a part of the body touches that part alone. -/
theorem onSlice_body (front mid back : List UInt8) {mid' : List UInt8} {lo hi : Nat}
    {f : List UInt8 → Checked (List UInt8)} (hlo : lo = 8 + front.length)
    (hhi : hi = lo + mid.length) (hf : f mid = .ok mid') :
    onSlice (cBuffer count current (front ++ (mid ++ back))) lo hi f =
      .ok (cBuffer count current (front ++ (mid' ++ back))) := by
  have hxs : cBuffer count current (front ++ (mid ++ back)) =
      (leBytes 4 count ++ (leBytes 4 current ++ front)) ++ (mid ++ back) := by simp [cBuffer]
  have hlen : (leBytes 4 count ++ (leBytes 4 current ++ front)).length = 8 + front.length := by
    simp only [List.length_append, leBytes_length]
    omega
  rw [onSlice_split _ mid back hxs (by omega) (by omega) hf]
  simp [cBuffer]

theorem memcpy_body (front mid back : List UInt8) {pos n : Nat} {data : List UInt8}
    (hpos : pos = 8 + front.length) (hmid : mid.length = n) (hn : n ≤ data.length) :
    memcpy (cBuffer count current (front ++ (mid ++ back))) pos data n =
      .ok (cBuffer count current (front ++ (data.take n ++ back))) := by
  have hsrc : slice data 0 n = .ok (data.take n) := by
    rw [slice, if_pos ⟨Nat.zero_le _, hn⟩, List.drop_zero, Nat.sub_zero]
  simp only [memcpy, hsrc, bind, Except.bind]
  exact onSlice_body front mid back hpos (by omega)
    (copyFromSlice_of_length_eq (by rw [List.length_take]; omega))

/-- The header of a value takes eight bytes at the cursor. -/
theorem setHeader_body (front room back : List UInt8) (hfront : front.length = current)
    (hroom : room.length = 8) (type : SosType) (size : Nat) :
    setHeader (cBuffer count current (front ++ (room ++ back))) (8 + current) type size =
      .ok (cBuffer count current
        (front ++ ((leBytes 4 type.toNat ++ leBytes 4 size) ++ back))) := by
  obtain ⟨w₀, w₁, hw₀, rfl⟩ := exists_split room 4 (by omega)
  rw [List.length_append] at hroom
  have htype : onSlice (cBuffer count current (front ++ (w₀ ++ (w₁ ++ back)))) (8 + current)
      (8 + current + 4) (fun w => writeLe 4 w type.toNat) =
      .ok (cBuffer count current (front ++ (leBytes 4 type.toNat ++ (w₁ ++ back)))) :=
    onSlice_body front w₀ (w₁ ++ back) (by omega) (by omega) (writeLe_exact hw₀ _)
  have hsize : onSlice (cBuffer count current
      ((front ++ leBytes 4 type.toNat) ++ (w₁ ++ back))) (8 + current + 4) (8 + current + 8)
      (fun w => writeLe 4 w size) =
      .ok (cBuffer count current ((front ++ leBytes 4 type.toNat) ++ (leBytes 4 size ++ back))) :=
    onSlice_body (front ++ leBytes 4 type.toNat) w₁ back (by simp; omega) (by omega)
      (writeLe_exact (by omega) _)
  rw [List.append_assoc] at hsize
  simp only [setHeader, List.append_assoc, htype, hsize, bind, Except.bind]

/-- `sos_set_data` puts a header and the data at the cursor. -/
theorem sosSetData_body (front room back : List UInt8) {type : SosType} {size : Nat}
    {data : List UInt8} (hcount : count < 2 ^ 32) (hcurrent : current < 2 ^ 32)
    (hfront : front.length = current) (hroom : room.length = 8 + size)
    (hdata : data.length = size) :
    sosSetData (cBuffer count current (front ++ (room ++ back))) type size data =
      .ok (cBuffer (count + 1) (current + (size + 8))
        (front ++ ((leBytes 4 type.toNat ++ (leBytes 4 size ++ data)) ++ back))) := by
  obtain ⟨hdr, body, hhdr, rfl⟩ := exists_split room 8 (by omega)
  rw [List.length_append] at hroom
  have hheader : setHeader (cBuffer count current (front ++ (hdr ++ (body ++ back)))) _ _ _ = _ :=
    setHeader_body front hdr (body ++ back) hfront hhdr type size
  have hcopy : memcpy (cBuffer count current
      ((front ++ (leBytes 4 type.toNat ++ leBytes 4 size)) ++ (body ++ back))) (8 + current + 8)
      data size = .ok (cBuffer count current
      ((front ++ (leBytes 4 type.toNat ++ leBytes 4 size)) ++ (data.take size ++ back))) :=
    memcpy_body _ body back (by simp; omega) (by omega) (by omega)
  rw [List.take_of_length_le (by omega)] at hcopy
  simp only [List.append_assoc] at hheader hcopy ⊢
  simp only [sosSetData, getAtOffset_cBuffer hcurrent, hheader, hcopy, bumpCount_cBuffer hcount,
    advance_cBuffer hcurrent, bind, Except.bind]

theorem strlen_cString {s : String} (h : 0 ∉ utf8 s) :
    strlen (cString s) = .ok (utf8 s).length := by
  rw [strlen, cString, findIdx?_zero_of_notMem h]

/-- `SetFunction` puts a header and the two C strings at the cursor. -/
theorem setFunction_body (front room back : List UInt8) {f : Function} {size : Nat}
    (hmodule : 0 ∉ utf8 f.module) (hname : 0 ∉ utf8 f.name) (hcount : count < 2 ^ 32)
    (hcurrent : current < 2 ^ 32) (hfront : front.length = current)
    (hsize : size = (utf8 f.module).length + (utf8 f.name).length + 2) (hlt : size < 2 ^ 32)
    (hroom : room.length = 8 + size) :
    setFunction (cBuffer count current (front ++ (room ++ back))) (cString f.module)
        (cString f.name) =
      .ok (cBuffer (count + 1) (current + (size + 8))
        (front ++ ((leBytes 4 SosType.function.toNat ++
          (leBytes 4 size ++ (cString f.module ++ cString f.name))) ++ back))) := by
  have hm : (cString f.module).length = (utf8 f.module).length + 1 := by simp [cString]
  have hn : (cString f.name).length = (utf8 f.name).length + 1 := by simp [cString]
  obtain ⟨hdr, body, hhdr, rfl⟩ := exists_split room 8 (by omega)
  rw [List.length_append] at hroom
  obtain ⟨b₀, b₁, hb₀, rfl⟩ := exists_split body ((utf8 f.module).length + 1) (by omega)
  rw [List.length_append] at hroom
  have hmod : ((utf8 f.module).length + (utf8 f.name).length + 2) % 2 ^ 32 = size := by
    rw [← hsize, Nat.mod_eq_of_lt hlt]
  have hheader : setHeader (cBuffer count current (front ++ (hdr ++ (b₀ ++ (b₁ ++ back))))) _ _ _ =
      _ := setHeader_body front hdr (b₀ ++ (b₁ ++ back)) hfront hhdr .function size
  have hcopy₀ : memcpy (cBuffer count current
      ((front ++ (leBytes 4 SosType.function.toNat ++ leBytes 4 size)) ++ (b₀ ++ (b₁ ++ back))))
      (8 + current + 8) (cString f.module) ((utf8 f.module).length + 1) =
      .ok (cBuffer count current ((front ++ (leBytes 4 SosType.function.toNat ++
        leBytes 4 size)) ++ ((cString f.module).take ((utf8 f.module).length + 1) ++
          (b₁ ++ back)))) :=
    memcpy_body _ b₀ (b₁ ++ back) (by simp; omega) hb₀ (by omega)
  rw [List.take_of_length_le (by omega)] at hcopy₀
  have hcopy₁ : memcpy (cBuffer count current
      ((front ++ (leBytes 4 SosType.function.toNat ++ (leBytes 4 size ++ cString f.module))) ++
        (b₁ ++ back)))
      (8 + current + 8 + (utf8 f.module).length + 1) (cString f.name)
      ((utf8 f.name).length + 1) =
      .ok (cBuffer count current ((front ++ (leBytes 4 SosType.function.toNat ++
        (leBytes 4 size ++ cString f.module))) ++
          ((cString f.name).take ((utf8 f.name).length + 1) ++ back))) :=
    memcpy_body _ b₁ back (by simp; omega) (by omega) (by omega)
  rw [List.take_of_length_le (by omega)] at hcopy₁
  simp only [List.append_assoc] at hheader hcopy₀ hcopy₁ ⊢
  simp only [setFunction, strlen_cString hmodule, strlen_cString hname, hmod,
    getAtOffset_cBuffer hcurrent, hheader, hcopy₀, hcopy₁, bumpCount_cBuffer hcount,
    advance_cBuffer hcurrent, bind, Except.bind]

/-- **One C writer.** It puts the wire of its value at the cursor, counts it and
moves the cursor behind it. -/
theorem setValue_eq (front room back : List UInt8) {v : OwnedValue} (hv : Shared v)
    (hcount : count < 2 ^ 32) (hcurrent : current < 2 ^ 32) (hfront : front.length = current)
    (hlt : v.borrow.payload.length < 2 ^ 32) (hroom : room.length = (cWire v).length) :
    setValue (cBuffer count current (front ++ (room ++ back))) v =
      .ok (cBuffer (count + 1) (current + (cWire v).length) (front ++ (cWire v ++ back))) := by
  rw [cWire_length] at hroom ⊢
  rw [Nat.add_comm 8 v.borrow.payload.length]
  cases v with
  | embedded vs => exact hv.elim
  | function f =>
    have hsize : (OwnedValue.function f).borrow.payload.length =
        (utf8 f.module).length + (utf8 f.name).length + 2 := by
      simp [OwnedValue.borrow, Value.payload]
      omega
    have h := setFunction_body front room back hv.1 hv.2 hcount hcurrent hfront hsize hlt hroom
    have hdata : cString f.module ++ cString f.name =
        (OwnedValue.function f).borrow.payload := by
      simp [cString, OwnedValue.borrow, Value.payload]
    rw [hdata] at h
    exact h
  | string i | error i =>
    have hsize : ((utf8 i).length + 1) % 2 ^ 32 = (cString i).length := by
      have hlen : (cString i).length = (utf8 i).length + 1 := by simp [cString]
      rw [← hlen]
      exact Nat.mod_eq_of_lt hlt
    simp only [setValue, setString, setError, strlen_cString hv, bind, Except.bind, hsize]
    exact sosSetData_body front room back hcount hcurrent hfront hroom rfl
  | opaqueBytes i =>
    have hsize : i.length % 2 ^ 32 = i.length := Nat.mod_eq_of_lt hlt
    simp only [setValue, setOpaque, hsize]
    exact sosSetData_body front room back hcount hcurrent hfront hroom rfl
  | _ => exact sosSetData_body front room back hcount hcurrent hfront hroom rfl

end Buffer

/-- **The C writers.** A list of values is left as its wires, the number of
values and their total length. -/
theorem setValues_body (vs : List OwnedValue) : ∀ (count current : Nat) (front room back : List UInt8),
    (∀ v ∈ vs, Shared v) → front.length = current → room.length = (cWires vs).length →
    count + vs.length < 2 ^ 32 → current + (cWires vs).length < 2 ^ 32 →
    setValues (cBuffer count current (front ++ (room ++ back))) vs =
      .ok (cBuffer (count + vs.length) (current + (cWires vs).length)
        (front ++ (cWires vs ++ back))) := by
  induction vs with
  | nil =>
    intro count current front room back _ _ hroom _ _
    rw [List.eq_nil_of_length_eq_zero hroom]
    rfl
  | cons v vs ih =>
    intro count current front room back hall hfront hroom hcount hcurrent
    rw [cWires_cons, List.length_append] at hroom hcurrent
    rw [List.length_cons] at hcount
    have hwire := cWire_length v
    obtain ⟨r₀, r₁, hr₀, rfl⟩ := exists_split room (cWire v).length (by omega)
    rw [List.length_append] at hroom
    have hone : setValue (cBuffer count current (front ++ (r₀ ++ (r₁ ++ back)))) v = _ :=
      setValue_eq front r₀ (r₁ ++ back) (hall v (List.mem_cons_self ..)) (by omega) (by omega)
        hfront (by omega) hr₀
    have hrest := ih (count + 1) (current + (cWire v).length) (front ++ cWire v) r₁ back
      (fun w hw => hall w (List.mem_cons_of_mem _ hw)) (by rw [List.length_append]; omega)
      (by omega) (by omega) (by omega)
    simp only [List.append_assoc] at hone hrest ⊢
    rw [setValues, hone]
    simp only [bind, Except.bind, hrest, cWires_cons, List.length_append, List.length_cons,
      List.append_assoc]
    congr 2 <;> omega

theorem setValues_eq {vs : List OwnedValue} {n : Nat} (hall : ∀ v ∈ vs, Shared v)
    (hroom : 8 + (cWires vs).length ≤ n) (hn : n < 2 ^ 32) :
    setValues (List.replicate n 0) vs =
      .ok (cBuffer vs.length (cWires vs).length
        (cWires vs ++ List.replicate (n - 8 - (cWires vs).length) 0)) := by
  have hcount := length_le_cWires_length vs
  have hsplit : List.replicate n (0 : UInt8) = cBuffer 0 0 ([] ++
      (List.replicate (cWires vs).length 0 ++
        List.replicate (n - 8 - (cWires vs).length) 0)) := by
    have hzero : leBytes 4 0 = List.replicate 4 0 := rfl
    rw [cBuffer, hzero, List.nil_append, List.replicate_append_replicate,
      List.replicate_append_replicate, List.replicate_append_replicate]
    congr 1
    omega
  rw [hsplit, setValues_body vs 0 0 [] _ _ hall rfl (by simp) (by omega) (by omega)]
  simp

/-! ### What the Rust decoder makes of it -/

/-- The decoder takes the cursor for the length of the message, so it leaves the
last eight bytes of the values out. -/
theorem decodeSos_cBuffer {count size : Nat} {body : List UInt8} (hcount : count < 2 ^ 32)
    (hlow : 8 ≤ size) (hhigh : size ≤ body.length) (hlt : size < 2 ^ 32) (lazy : Bool) :
    decodeSos (cBuffer count size body) lazy =
      .ok (some ⟨count, body.take (size - 8), lazy⟩) := by
  have hlen : (cBuffer count size body).length = 8 + body.length := by
    simp only [cBuffer, List.length_append, leBytes_length]
    omega
  have hslice₀ : slice (cBuffer count size body) 0 4 = .ok (leBytes 4 count) :=
    slice_split [] (leBytes 4 count) (leBytes 4 size ++ body) rfl rfl (by simp)
  have hbody : slice (cBuffer count size body) 8 size = .ok (body.take (size - 8)) := by
    refine slice_split (leBytes 4 count ++ leBytes 4 size) _ (body.drop (size - 8)) ?_ (by simp) ?_
    · rw [List.take_append_drop, List.append_assoc]
      rfl
    · rw [List.length_append, leBytes_length, leBytes_length, List.length_take]
      omega
  rw [decodeSos, if_neg (by omega), hslice₀, slice_cursor]
  simp only [bind, Except.bind]
  rw [readLe_leBytes (by omega), readLe_leBytes (by omega)]
  simp only [hlen]
  rw [if_neg (by omega), hbody]
  rfl

/-- The decoder hands out nothing where the next byte is zero. -/
theorem tag_ne_zero_of_collect {it : DecodeIter} {v : Value} {vs : List Value}
    (h : collect it = .ok (v :: vs)) : ∃ tag rest, it.buff = tag :: rest ∧ tag ≠ 0 := by
  obtain ⟨it', hnext, -⟩ := collect_eq_cons h
  obtain ⟨hlong, -, tag, valType, _, _, _, htag, hty, -, -, hval, -⟩ := nextWith_inv hnext
  obtain ⟨b, bs, hbuff⟩ : ∃ b bs, it.buff = b :: bs := List.exists_cons_of_length_pos (by omega)
  refine ⟨b, bs, hbuff, ?_⟩
  rintro rfl
  rw [hbuff] at htag
  cases htag
  cases hty
  cases hval

/-- A payload of fixed width is the bytes it was decoded from. -/
theorem payload_of_decodeValue {c : DecodeIter → Checked (List Value)} {lazy : Bool} {v : Value}
    {w : Nat} {data : List UInt8} (hw : v.ctype.width = some w) (hdata : data.length = w)
    (h : decodeValue c lazy v.ctype w data = .ok (some v)) : v.payload = data := by
  have hlt := leNat_lt data
  have hread := readLe_of_length hdata
  have hback := leBytes_leNat data
  cases v <;> cases hw <;>
    simp only [Value.ctype, decodeValue, hread, bind, Except.bind, pure, Except.pure,
      Except.ok.injEq, Option.some.injEq, Value.int32.injEq, Value.uint32.injEq,
      Value.int64.injEq, Value.uint64.injEq, Value.float.injEq, Value.double.injEq] at h <;>
    subst h <;> rw [hdata] at hlt hback <;>
    simp only [Value.payload, UInt32.toUInt32_toInt32, UInt64.toUInt64_toInt64,
      UInt32.toNat_ofNat', UInt64.toNat_ofNat'] <;>
    rw [Nat.mod_eq_of_lt (by omega), hback]

/-- A payload with a length word is as long as the word says, but for an empty
string, which has a terminator to be read from no bytes. -/
theorem payload_length_of_decodeValue {c : DecodeIter → Checked (List Value)} {lazy : Bool}
    {v : OwnedValue} {n : Nat} {data : List UInt8} (hv : Shared v)
    (hw : v.borrow.ctype.width = none) (hdata : data.length = n)
    (h : decodeValue c lazy v.borrow.ctype n data = .ok (some v.borrow)) :
    v.borrow.payload.length = n ∨ n = 0 ∧ v.borrow.payload.length = 1 := by
  have hcut : ∀ {bs}, unterminated n data = .ok bs → bs.length = if n = 0 then 0 else n - 1 :=
    fun hbs => by simpa using length_of_slice hbs
  cases v with
  | embedded vs => exact hv.elim
  | string s | error s =>
    obtain ⟨bs, hbs, h⟩ := bind_eq_ok.mp h
    have hlen := hcut hbs
    simp only [pure, Except.pure, Except.ok.injEq, Option.map_eq_some_iff] at h
    obtain ⟨s', hs', heq⟩ := h
    cases heq
    rw [← utf8_of_fromUtf8 hs'] at hlen
    simp only [OwnedValue.borrow, Value.payload, List.length_append, List.length_cons,
      List.length_nil]
    split at hlen <;> omega
  | opaqueBytes b =>
    obtain ⟨bs, hbs, h⟩ := bind_eq_ok.mp h
    cases h
    have hlen := length_of_slice hbs
    simp only [OwnedValue.borrow, Value.payload]
    omega
  | function f =>
    obtain ⟨vec, hvec, h⟩ := bind_eq_ok.mp h
    have hlen := hcut hvec
    rw [decodeFunction_eq] at h
    simp only [Except.ok.injEq, Option.bind_eq_some_iff, Option.map_eq_some_iff] at h
    obtain ⟨pos, hpos, module, hmodule, name, hname, heq⟩ := h
    cases heq
    have hlt : pos < vec.length := (List.findIdx?_eq_some_iff_getElem.mp hpos).1
    have hm := congrArg List.length (utf8_of_fromUtf8 hmodule)
    have hn := congrArg List.length (utf8_of_fromUtf8 hname)
    rw [List.length_take] at hm
    rw [List.length_drop] at hn
    simp only [OwnedValue.borrow, Value.payload, List.length_append, List.length_cons,
      List.length_nil]
    split at hlen <;> omega
  | _ => cases hw

theorem leBytes_tag (t : CType) : leBytes 4 t.toU8.toNat = [t.toU8, 0, 0, 0] := by
  cases t <;> rfl

theorem width_eq {t : CType} {w : Nat} (h : t.width = some w) : w = 4 ∨ w = 8 := by
  cases t <;> simp [CType.width] at h <;> omega

/-- Of the C length, the decoder reads the low byte, as the high byte of its own. -/
theorem payloadSpan_cWire {t : CType} (hw : t.width = none) (lo : UInt8) (rest : List UInt8) :
    payloadSpan t (t.toU8 :: 0 :: 0 :: 0 :: lo :: rest) = .ok (5, 2 ^ 24 * lo.toNat) := by
  have hslice : slice (t.toU8 :: 0 :: 0 :: 0 :: lo :: rest) 1 5 = .ok [0, 0, 0, lo] :=
    slice_split [t.toU8] [0, 0, 0, lo] rest rfl rfl rfl
  have hword : leNat [0, 0, 0, lo] = 2 ^ 24 * lo.toNat := by
    simp only [leNat, UInt8.toNat_zero]
    omega
  have hread : readLe 4 [0, 0, 0, lo] = .ok (2 ^ 24 * lo.toNat) :=
    hword ▸ readLe_of_length rfl
  rw [payloadSpan, hw]
  simp only [hslice, hread, bind, Except.bind, pure, Except.pure]

theorem head_of_take {x b : UInt8} {xs bs : List UInt8} {k : Nat}
    (h : (x :: xs).take k = b :: bs) : b = x := by
  cases k with
  | zero => cases h
  | succ k =>
    cases h
    rfl

/-- **The Rust decoder reads no C message back.** The three bytes after the tag
are the rest of the C type, and the byte after these is the low byte of the C
length. So the first value is read at the wrong place, and where it still comes
out right the decoder is left at a byte that is zero. -/
theorem collect_cWires_ne {v : OwnedValue} (hv : Shared v) (vs : List OwnedValue) (n : Nat) :
    collect ⟨n, (cWires (v :: vs)).take ((cWires (v :: vs)).length - 8), false⟩ ≠
      .ok ((v :: vs).map OwnedValue.borrow) := by
  intro h
  have hlen : (cWires (v :: vs)).length - 8 = v.borrow.payload.length + (cWires vs).length := by
    rw [cWires_cons, List.length_append, cWire_length]
    omega
  rw [hlen] at h
  obtain ⟨it', hnext, hrest⟩ := collect_eq_cons h
  obtain ⟨hlong, -, tag, valType, offset, valLength, valData, htag, hty, hspan, hdata, hval, rfl⟩ :=
    nextWith_inv hnext
  simp only [List.length_take] at hlong
  -- The bytes the decoder sees, as far as the low byte of the C length.
  obtain ⟨k, hk⟩ := Nat.exists_eq_add_of_le' (Nat.le_trans hlong (Nat.min_le_left ..))
  have hbytes : (cWires (v :: vs)).take (v.borrow.payload.length + (cWires vs).length) =
      v.borrow.ctype.toU8 :: 0 :: 0 :: 0 :: UInt8.ofNat v.borrow.payload.length ::
        (UInt8.ofNat (v.borrow.payload.length / 256) ::
          (UInt8.ofNat (v.borrow.payload.length / 256 / 256) ::
            UInt8.ofNat (v.borrow.payload.length / 256 / 256 / 256) ::
              (v.borrow.payload ++ cWires vs))).take k := by
    rw [hk, cWires_cons, cWire, leBytes_tag]
    rfl
  simp only [hbytes] at htag hspan hdata hrest
  cases htag
  rw [CType.fromU8_toU8] at hty
  cases hty
  have hstop : ∀ {left : List UInt8}, collect ⟨n - 1, left, false⟩ = .ok (vs.map OwnedValue.borrow) →
      (∀ b bs, left = b :: bs → b = 0) → cWires vs = [] := by
    intro left hleft hzero
    cases vs with
    | nil => rfl
    | cons w ws =>
      obtain ⟨b, bs, hb, hne⟩ := tag_ne_zero_of_collect hleft
      exact absurd (hzero b bs hb) hne
  have hvalLen := length_of_slice hdata
  cases hw : v.borrow.ctype.width with
  | none =>
    rw [payloadSpan_cWire hw] at hspan
    cases hspan
    rw [UInt8.toNat_ofNat'] at hval hvalLen hrest
    have hcases := payload_length_of_decodeValue hv hw (by omega) hval
    have hzero : v.borrow.payload.length = 0 := by omega
    rw [hzero] at hk hrest
    have hnil := hstop hrest fun b bs hb => head_of_take hb
    rw [hnil] at hk
    cases hk
  | some w =>
    have hplen := payload_length_of_width hw
    rw [payloadSpan, hw] at hspan
    cases hspan
    have hpay := payload_of_decodeValue hw (by omega) hval
    rw [hplen] at hk hrest hdata
    obtain rfl | rfl := width_eq hw
    · have hnil := hstop hrest fun b bs hb => head_of_take hb
      rw [hnil] at hk
      cases hk
    · -- Eight bytes read: the low byte of the length and the first byte of the data are in
      -- them, so the second byte of the data, where the decoder goes on, is the second byte read.
      obtain ⟨-, hroom, hvalData⟩ := slice_eq_ok_iff.mp hdata
      obtain ⟨d₀, ds', hds⟩ := List.exists_cons_of_length_eq_add_one hplen
      have hlen' : ds'.length = 7 := Nat.succ_inj.mp ((congrArg List.length hds).symm.trans hplen)
      obtain ⟨d₁, ds, rfl⟩ := List.exists_cons_of_length_eq_add_one hlen'
      simp only [List.length_cons, List.length_take] at hroom
      obtain ⟨j, rfl⟩ : ∃ j, k = j + 4 := ⟨k - 4, by omega⟩
      rw [hds] at hvalData hrest hpay
      rw [← hpay] at hvalData
      have hd₁ : d₁ = 0 := (List.cons.inj (List.cons.inj hvalData).2).1
      have hnil := hstop hrest fun b bs hb => by rw [hd₁] at hb; exact head_of_take hb
      rw [hnil, List.length_nil] at hk
      omega

theorem cWires_length_pos (v : OwnedValue) (vs : List OwnedValue) :
    8 ≤ (cWires (v :: vs)).length := by
  rw [cWires_cons, List.length_append, cWire_length]
  omega

theorem not_rustReadsC {n : Nat} {vs : List OwnedValue} (hne : vs ≠ [])
    (hall : ∀ v ∈ vs, Shared v) (hroom : 8 + (cWires vs).length ≤ n) (hn : n < 2 ^ 32) :
    ¬ RustReadsC n vs := by
  rintro ⟨b, it, hset, hdec, hcol⟩
  obtain ⟨v, vs, rfl⟩ := List.exists_cons_of_ne_nil hne
  have hpos := cWires_length_pos v vs
  have hcount := length_le_cWires_length (v :: vs)
  rw [setValues_eq hall hroom hn] at hset
  cases hset
  rw [decodeSos_cBuffer (by omega) hpos (by simp) (by omega)] at hdec
  cases hdec
  rw [List.take_append_of_le_length (by omega)] at hcol
  exact collect_cWires_ne (hall v (List.mem_cons_self ..)) vs _ hcol

/-! ### What the C readers make of a Rust message -/

/-- **The first C read of a Rust message is outside of it.** The cursor it finds
is the length of the message. -/
theorem sosGetData_message {vs : List Value} (hlen : encodedLen vs < 2 ^ 32) :
    sosGetData (message vs) = .error .index := by
  have hmsg : message vs = cBuffer vs.length (encodedLen vs) (wires vs) := rfl
  have hoff : getAtOffset (cBuffer vs.length (encodedLen vs) (wires vs)) = _ :=
    getAtOffset_cBuffer hlen (wires vs)
  have hout : slice (message vs) (8 + encodedLen vs + 4) (8 + encodedLen vs + 8) =
      .error .index := by
    rw [slice, if_neg]
    rw [message_length]
    omega
  rw [← hmsg] at hoff
  simp only [sosGetData, hoff, hout, bind, Except.bind]

theorem getValue_error {vals : List UInt8} {e : Fault} (v : OwnedValue)
    (h : sosGetData vals = .error e) : getValue vals v = .error e := by
  cases v <;> simp only [getValue, getFunction, h, bind, Except.bind]

theorem not_cReadsRust {buf : List UInt8} {vs : List OwnedValue} (hne : vs ≠ [])
    (hlen : encodedLen (vs.map OwnedValue.borrow) < 2 ^ 32)
    (hbuf : buf.length = encodedLen (vs.map OwnedValue.borrow)) : ¬ CReadsRust buf vs := by
  rintro ⟨b, n, henc, hget⟩
  obtain ⟨v, vs, rfl⟩ := List.exists_cons_of_ne_nil hne
  rw [encodeSos_owned hbuf] at henc
  cases henc
  rw [← borrowAll_eq_map] at hlen
  obtain ⟨⟨r, vals⟩, hone, -⟩ := bind_eq_ok.mp hget
  rw [getValue_error v (sosGetData_message hlen)] at hone
  cases hone

/-- **The two libraries disagree on every list of values.** What the C writers
leave in a zeroed buffer does not decode to the values in Rust, and what the Rust
encoder writes is not read back by the C readers, for any list that both can
write. -/
theorem libc_and_sos_disagree (vs : List OwnedValue) (hne : vs ≠ []) (hall : ∀ v ∈ vs, Shared v)
    (n : Nat) (hroom : 8 + (cWires vs).length ≤ n) (hn : n < 2 ^ 32) (buf : List UInt8)
    (hlen : encodedLen (vs.map OwnedValue.borrow) < 2 ^ 32)
    (hbuf : buf.length = encodedLen (vs.map OwnedValue.borrow)) :
    (∃ b, setValues (List.replicate n 0) vs = .ok b) ∧ ¬ RustReadsC n vs ∧
      (∃ b m, encodeSos buf (vs.map OwnedValue.borrow) = .ok (b, m)) ∧ ¬ CReadsRust buf vs :=
  ⟨⟨_, setValues_eq hall hroom hn⟩, not_rustReadsC hne hall hroom hn,
    ⟨_, _, encodeSos_owned hbuf⟩, not_cReadsRust hne hlen hbuf⟩

/-- The call of `test/call.c`: a function and a string. -/
def sharedCall : List OwnedValue := [.function ⟨"call", "passthrough"⟩, .string "calling"]

theorem sharedCall_ne_nil : sharedCall ≠ [] := List.cons_ne_nil _ _

theorem sharedCall_shared : ∀ v ∈ sharedCall, Shared v := by decide

theorem sharedCall_encodedLen : encodedLen (sharedCall.map OwnedValue.borrow) = 43 := by decide

theorem sharedCall_cWires_length : (cWires sharedCall).length = 41 := by decide

/-- The message `test/call.c` builds in a buffer of 4096 bytes is not read back,
in either direction. -/
theorem sharedCall_not_read_back :
    ¬ RustReadsC 4096 sharedCall ∧ ¬ CReadsRust (List.replicate 43 0) sharedCall :=
  ⟨not_rustReadsC sharedCall_ne_nil sharedCall_shared
      (by rw [sharedCall_cWires_length]; decide) (by decide),
    not_cReadsRust sharedCall_ne_nil (by rw [sharedCall_encodedLen]; decide)
      (by rw [sharedCall_encodedLen]; rfl)⟩

theorem sharedCall_disagreement :
    (∃ b, setValues (List.replicate 4096 0) sharedCall = .ok b) ∧ ¬ RustReadsC 4096 sharedCall ∧
      (∃ b m, encodeSos (List.replicate 43 0) (sharedCall.map OwnedValue.borrow) = .ok (b, m)) ∧
        ¬ CReadsRust (List.replicate 43 0) sharedCall :=
  libc_and_sos_disagree sharedCall sharedCall_ne_nil sharedCall_shared 4096
    (by rw [sharedCall_cWires_length]; decide) (by decide) _
    (by rw [sharedCall_encodedLen]; decide) (by rw [sharedCall_encodedLen]; rfl)

end Faastr.Libc
