import Faastr.Lib.LittleEndian

/-!
Messages of the shared-memory RPC (`ivshrpcd/ivshrpc/src/lib.rs`): the packed
header and the frame it makes with a payload.

A payload is the byte string its encoder writes; a frame is the header, with the
length of the payload in it, followed by the payload.
-/

namespace Faastr.Ivshrpc

open Faastr.Lib

inductive MsgType where
  | cast
  | fuse
  | ret
  | error
deriving DecidableEq, Repr

/-- `msgtype as u8`. -/
def MsgType.toU8 : MsgType → UInt8
  | .cast => 0
  | .fuse => 1
  | .ret => 2
  | .error => 3

def MsgType.fromU8 (v : UInt8) : Option MsgType :=
  match v.toNat with
  | 0 => some .cast
  | 1 => some .fuse
  | 2 => some .ret
  | 3 => some .error
  | _ => none

@[simp] theorem MsgType.fromU8_toU8 (t : MsgType) : MsgType.fromU8 t.toU8 = some t := by
  cases t <;> rfl

structure MsgHeader where
  msgtype : UInt8
  length : UInt32
  callid : UInt64
deriving DecidableEq, Repr

/-- `IVSHRPC_HEADER_SIZE`: the packed fields. -/
def headerSize : Nat := 13

def MsgHeader.new (msgtype : MsgType) (callid : UInt64) : MsgHeader :=
  { msgtype := msgtype.toU8, length := 0, callid }

/-- The packed header in memory, fields in the order of declaration. -/
def MsgHeader.toSlice (h : MsgHeader) : List UInt8 :=
  h.msgtype :: (leBytes 4 h.length.toNat ++ leBytes 8 h.callid.toNat)

def MsgHeader.fromSlice (h : List UInt8) : Checked MsgHeader := do
  require (h.length == headerSize)
  return { msgtype := ← getAt h 0
           length := UInt32.ofNat (← readLe 4 (← slice h 1 5))
           callid := UInt64.ofNat (← readLe 8 (← slice h 5 13)) }

@[simp] theorem MsgHeader.toSlice_length (h : MsgHeader) : h.toSlice.length = headerSize := by
  simp [MsgHeader.toSlice, headerSize]

/-- **A header is read back.** -/
theorem MsgHeader.fromSlice_toSlice (h : MsgHeader) :
    MsgHeader.fromSlice h.toSlice = .ok h := by
  have hlength : slice h.toSlice 1 5 = .ok (leBytes 4 h.length.toNat) :=
    slice_split [h.msgtype] _ (leBytes 8 h.callid.toNat) rfl rfl (by simp)
  have hcallid : slice h.toSlice 5 13 = .ok (leBytes 8 h.callid.toNat) :=
    slice_split (h.msgtype :: leBytes 4 h.length.toNat) _ [] (by simp [MsgHeader.toSlice])
      (by simp) (by simp)
  have hfits : h.length.toNat < 256 ^ 4 := h.length.toNat_lt
  have hfits' : h.callid.toNat < 256 ^ 8 := h.callid.toNat_lt
  have htype : getAt h.toSlice 0 = .ok h.msgtype := rfl
  simp only [MsgHeader.fromSlice, toSlice_length, require, beq_self_eq_true, if_true, htype,
    hlength, hcallid, readLe_leBytes hfits, readLe_leBytes hfits', bind, Except.bind, pure,
    Except.pure, UInt32.ofNat_toNat, UInt64.ofNat_toNat]

/-- A message: its type, its call and what its encoder writes. -/
structure Msg where
  msgtype : MsgType
  callid : UInt64
  payload : List UInt8
deriving DecidableEq, Repr

/-- The header `write_msg` sends, with the length cut to 32 bits. -/
def Msg.header (m : Msg) : MsgHeader :=
  { MsgHeader.new m.msgtype m.callid with length := UInt32.ofNat m.payload.length }

/-- The bytes `write_msg` asks the ring for. -/
def Msg.frameSize (m : Msg) : Nat := headerSize + m.header.length.toNat

/-- The bytes `write_msg` puts into its handle. -/
def Msg.frame (m : Msg) : List UInt8 := m.header.toSlice ++ m.payload

/-- The frames of a list of messages, one after another. -/
def frames (ms : List Msg) : List UInt8 := ms.flatMap Msg.frame

theorem frames_cons (m : Msg) (ms : List Msg) : frames (m :: ms) = m.frame ++ frames ms := rfl

theorem frames_append (as bs : List Msg) : frames (as ++ bs) = frames as ++ frames bs :=
  List.flatMap_append

theorem Msg.frameSize_pos (m : Msg) : 0 < m.frameSize := by
  unfold Msg.frameSize headerSize
  omega

/-- A payload whose length the header can hold. -/
def Msg.Short (m : Msg) : Prop := m.payload.length < 2 ^ 32

instance : DecidablePred Msg.Short := fun m => inferInstanceAs (Decidable (_ < _))

theorem Msg.length_eq_mod (m : Msg) : m.header.length.toNat = m.payload.length % 2 ^ 32 :=
  UInt32.toNat_ofNat'

theorem Msg.length_eq {m : Msg} (h : m.Short) : m.header.length.toNat = m.payload.length := by
  rw [Msg.length_eq_mod, Nat.mod_eq_of_lt h]

/-- The frame has the size that is asked for exactly if its length was not cut. -/
theorem Msg.frame_length_iff (m : Msg) : m.frame.length = m.frameSize ↔ m.Short := by
  rw [Msg.frame, List.length_append, MsgHeader.toSlice_length, Msg.frameSize, Msg.length_eq_mod]
  unfold Msg.Short
  omega

theorem Msg.frame_length {m : Msg} (h : m.Short) : m.frame.length = m.frameSize :=
  (Msg.frame_length_iff m).mpr h

theorem Msg.frameSize_le (m : Msg) : m.frameSize ≤ headerSize + m.payload.length := by
  rw [Msg.frameSize, Msg.length_eq_mod]
  exact Nat.add_le_add_left (Nat.mod_le _ _) _

theorem Msg.frameSize_lt (m : Msg) : m.frameSize < 2 ^ 62 := by
  have hlt := m.header.length.toNat_lt
  unfold Msg.frameSize headerSize
  omega

end Faastr.Ivshrpc
