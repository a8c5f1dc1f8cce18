import Faastr.Lib.Circular
import Faastr.Lib.Transition
import Mathlib.Algebra.Ring.Nat

/-!
The ring buffer (`ringbuf/src/lib.rs`): one producer and one consumer on a shared
header and data area.

Every operation is cut at its atomic loads and stores. A state holds the shared
words, the data area and a program counter for each side; an action is one load,
one store, one comparison or one byte written through an open handle, and
`Ring.step` says what it does. The counters are 64-bit words that wrap.

Two ghost fields carry the meaning of the counters: `sent` is every byte
published so far and `taken` every byte given up by the consumer, in order.
-/

namespace Faastr.Ringbuf

open Faastr.Lib

/-! ### Words -/

/-- `a.wrapping_add(b)`, which is also what `a + b` does in a release build. -/
def wadd (a b : Nat) : Nat := (a + b) % 2 ^ 64

/-- `a.wrapping_sub(b)`. -/
def wsub (a b : Nat) : Nat := (a + 2 ^ 64 - b) % 2 ^ 64

theorem wadd_eq {a b : Nat} (h : a + b < 2 ^ 64) : wadd a b = a + b := Nat.mod_eq_of_lt h

theorem wsub_eq {a b : Nat} (h : b ≤ a) (ha : a < 2 ^ 64) : wsub a b = a - b := by
  unfold wsub
  omega

def prevPowerOfTwo (x : Nat) : Nat :=
  let x := x ||| (x >>> 1)
  let x := x ||| (x >>> 2)
  let x := x ||| (x >>> 4)
  let x := x ||| (x >>> 8)
  let x := x ||| (x >>> 16)
  x - (x >>> 1)

/-! ### The shared header -/

/-- Three cache lines of 64 bytes. -/
def sizeofHeader : Nat := 192

structure Header where
  capacity : Nat
  allocatedSize : Nat
  head : Nat
  shadowTail : Nat
  tail : Nat
  shadowHead : Nat
deriving DecidableEq, Repr

def Header.newInlineAt (buff : List UInt8) : Checked Header := do
  require (buff.length > sizeofHeader)
  let capacity := prevPowerOfTwo (buff.length - sizeofHeader)
  return { capacity, allocatedSize := capacity, head := 0, shadowTail := 0, tail := 0,
           shadowHead := 0 }

def Header.size (h : Header) : Nat := wsub h.tail h.head

def Header.freeSpace (h : Header) : Nat := wsub h.capacity h.size

/-- The data area behind a header, as `Producer::from_slice` and
`Consumer::from_slice` take it. -/
def fromSlice (h : Header) (buff : List UInt8) : Checked (List UInt8) := do
  let capacity := prevPowerOfTwo (buff.length - sizeofHeader)
  require (capacity == h.capacity)
  slice buff sizeofHeader (sizeofHeader + capacity)

/-! ### The two sides -/

/-- Which call of the producer is at its comparison: `try_write` before or after
its one reload, or `write`. -/
inductive WriteCall where
  | tryWrite
  | tryWriteAgain
  | write
deriving DecidableEq, Repr

inductive ProducerPc where
  | idle
  | check (call : WriteCall) (n currentTail : Nat)
  | reload (call : WriteCall) (n currentTail : Nat)
  /-- A `WriteHandle` is open. -/
  | handle (n currentTail : Nat)
  /-- A handle's slice was out of range; unwinding may still drop the handle. -/
  | panicked (n currentTail : Nat)
  | dead
deriving DecidableEq, Repr

/-- `try_read` with the reloads it has left, or `read`. -/
inductive ReadCall where
  | tryRead (times : Nat)
  | read
deriving DecidableEq, Repr

inductive ConsumerPc where
  | idle
  | check (call : ReadCall) (n currentHead : Nat)
  | reload (call : ReadCall) (n currentHead : Nat)
  /-- A `ReadHandle` is open. -/
  | handle (n currentHead : Nat)
  | skipReload (n currentHead : Nat)
  | skipStore (diff currentHead : Nat)
  | panicked (n currentHead : Nat)
  | dead
deriving DecidableEq, Repr

/-- A ring: the header, the data area, where the two sides are, and the two
ghost streams. -/
structure Ring extends Header where
  data : List UInt8
  producer : ProducerPc
  consumer : ConsumerPc
  sent : List UInt8
  taken : List UInt8
deriving DecidableEq, Repr

/-- A ring nobody has used, over a data area. -/
def Ring.fresh (data : List UInt8) : Ring :=
  { capacity := data.length, allocatedSize := data.length, head := 0, shadowTail := 0, tail := 0,
    shadowHead := 0, data, producer := .idle, consumer := .idle, sent := [], taken := [] }

/-- A new ring in a buffer, with a producer and a consumer. -/
def Ring.new (buff : List UInt8) : Checked Ring := do
  let h ← Header.newInlineAt buff
  let data ← fromSlice h buff
  return { h with data, producer := .idle, consumer := .idle, sent := [], taken := [] }

/-- A new ring is fresh, over the bytes behind the header. -/
theorem Ring.eq_fresh_of_new {buff : List UInt8} {r : Ring} (hnew : Ring.new buff = .ok r) :
    r = Ring.fresh r.data := by
  obtain ⟨hdr, hhdr, h⟩ := bind_eq_ok.mp hnew
  obtain ⟨data, hdata, h⟩ := bind_eq_ok.mp h
  cases h
  obtain ⟨_, -, hhdr⟩ := bind_eq_ok.mp hhdr
  cases hhdr
  obtain ⟨_, -, hslice⟩ := bind_eq_ok.mp hdata
  have hlen := length_of_slice hslice
  rw [Nat.add_sub_cancel_left] at hlen
  simp only [Ring.fresh, hlen]

/-- A buffer with room for the header and the data area holds a new ring. -/
theorem Ring.new_eq {buff : List UInt8} {capacity : Nat} (hlen : sizeofHeader < buff.length)
    (hcap : prevPowerOfTwo (buff.length - sizeofHeader) = capacity)
    (hfits : sizeofHeader + capacity ≤ buff.length) :
    Ring.new buff = .ok (Ring.fresh ((buff.drop sizeofHeader).take capacity)) := by
  have hdata : ((buff.drop sizeofHeader).take capacity).length = capacity := by
    rw [List.length_take, List.length_drop]
    omega
  have hslice : slice buff sizeofHeader (sizeofHeader + capacity) =
      .ok ((buff.drop sizeofHeader).take capacity) := by
    rw [slice_eq_ok_iff]
    exact ⟨Nat.le_add_right _ _, hfits, by rw [Nat.add_sub_cancel_left]⟩
  simp [Ring.new, Header.newInlineAt, fromSlice, require, hlen, hcap, hslice, Ring.fresh, hdata,
    bind, Except.bind, pure, Except.pure]

/-- The data index of a counter. -/
def Header.offset (h : Header) (counter : Nat) : Nat := counter &&& (h.allocatedSize - 1)

/-- The slice a handle of `n` bytes at `counter` exposes. -/
def Ring.handleSlice (r : Ring) (counter n : Nat) : Checked (List UInt8) :=
  slice r.data (r.offset counter) (r.offset counter + n)

/-! ### Steps -/

/-- What the producer does next. -/
inductive ProducerAction where
  /-- Call `try_write(n)`: load `tail`. -/
  | tryWrite (n : Nat)
  /-- Call `write(n)`: load `tail`. -/
  | write (n : Nat)
  | check
  | reloadHead
  /-- Store a byte at an index of the open handle's slice. -/
  | fill (i : Nat) (b : UInt8)
  /-- Drop the handle: store `tail`. -/
  | publishTail
deriving DecidableEq, Repr

/-- What the consumer does next. -/
inductive ConsumerAction where
  | tryRead (n times : Nat)
  | read (n : Nat)
  | skipN (n : Nat)
  | check
  | reloadTail
  /-- Look at the open handle's slice. -/
  | look
  | publishHead
deriving DecidableEq, Repr

/-- How counters are added and subtracted. -/
structure Counting where
  add : Nat → Nat → Nat
  sub : Nat → Nat → Nat

/-- The code's 64-bit words. -/
def Counting.wrapping : Counting := ⟨wadd, wsub⟩

def Counting.unbounded : Counting := ⟨(· + ·), (· - ·)⟩

@[simp] theorem Counting.wrapping_add : Counting.wrapping.add = wadd := rfl

@[simp] theorem Counting.wrapping_sub : Counting.wrapping.sub = wsub := rfl

/-- The store of `tail`: the slots of the handle become part of the stream. -/
def Ring.publishTailBy (k : Counting) (r : Ring) (n currentTail : Nat) (pc : ProducerPc) : Ring :=
  { r with tail := k.add currentTail n, producer := pc,
           sent := r.sent ++ window r.data currentTail n }

/-- The store of `head`: the slots of the handle are given up. -/
def Ring.publishHeadBy (k : Counting) (r : Ring) (n currentHead : Nat) (pc : ConsumerPc) : Ring :=
  { r with head := k.add currentHead n, consumer := pc,
           taken := r.taken ++ window r.data currentHead n }

/-- The comparison of `try_write` and `write`: the ring is too full for `n` bytes. -/
def Header.fullBy (k : Counting) (h : Header) (currentTail n : Nat) : Bool :=
  k.add h.shadowHead h.capacity ≤ k.add currentTail n

/-- The comparison of `try_read` and `read`: fewer than `n` bytes are known to be there. -/
def Header.shortBy (k : Counting) (h : Header) (currentHead n : Nat) : Bool :=
  k.sub h.shadowTail currentHead < n

/-- Where a call goes when the ring is too full: `try_write` reloads once. -/
def WriteCall.onFull (call : WriteCall) (n currentTail : Nat) : ProducerPc :=
  match call with
  | .tryWriteAgain => .idle
  | call => .reload call n currentTail

def WriteCall.afterReload : WriteCall → WriteCall
  | .write => .write
  | _ => .tryWriteAgain

/-- Where a call goes after a reload. The last reload of `try_read` is not looked
at again. -/
def ReadCall.afterReload (call : ReadCall) (n currentHead : Nat) : ConsumerPc :=
  match call with
  | .tryRead 0 => .idle
  | .tryRead (times + 1) => .check (.tryRead times) n currentHead
  | .read => .check .read n currentHead

/-- A step of the producer, with the arithmetic of the counters as a parameter. -/
def Ring.produceBy (k : Counting) (r : Ring) (a : ProducerAction) : Option Ring :=
  match r.producer, a with
  | .idle, .tryWrite n => some { r with producer := .check .tryWrite n r.tail }
  | .idle, .write n => some { r with producer := .check .write n r.tail }
  | .check call n t, .check =>
      some { r with producer := if r.fullBy k t n then call.onFull n t else .handle n t }
  | .reload call n t, .reloadHead =>
      some { r with shadowHead := r.head, producer := .check call.afterReload n t }
  | .handle n t, .fill i b =>
      if r.offset t + n ≤ r.data.length then
        if i < n then some { r with data := r.data.set (r.offset t + i) b } else none
      else some { r with producer := .panicked n t }
  | .handle n t, .publishTail => some (r.publishTailBy k n t .idle)
  | .panicked n t, .publishTail => some (r.publishTailBy k n t .dead)
  | _, _ => none

/-- A step of the consumer. -/
def Ring.consumeBy (k : Counting) (r : Ring) (a : ConsumerAction) : Option Ring :=
  match r.consumer, a with
  | .idle, .tryRead n times => some { r with consumer := .check (.tryRead times) n r.head }
  | .idle, .read n => some { r with consumer := .check .read n r.head }
  | .idle, .skipN n => some { r with consumer := .skipReload n r.head }
  | .check call n h, .check =>
      some { r with consumer := if r.shortBy k h n then .reload call n h else .handle n h }
  | .reload call n h, .reloadTail =>
      some { r with shadowTail := r.tail, consumer := call.afterReload n h }
  | .handle n h, .look =>
      if r.offset h + n ≤ r.data.length then some r
      else some { r with consumer := .panicked n h }
  | .handle n h, .publishHead => some (r.publishHeadBy k n h .idle)
  | .panicked n h, .publishHead => some (r.publishHeadBy k n h .dead)
  | .skipReload n h, .reloadTail =>
      if h = r.tail then some { r with shadowTail := r.tail, consumer := .idle }
      else
        let diff := k.sub r.tail h
        some { r with shadowTail := r.tail,
                      consumer := .skipStore (if diff > n then n else diff) h }
  | .skipStore diff h, .publishHead => some (r.publishHeadBy k diff h .idle)
  | _, _ => none

/-! The code counts in 64-bit words. -/

abbrev Ring.publishTail (r : Ring) (n currentTail : Nat) (pc : ProducerPc) : Ring :=
  r.publishTailBy .wrapping n currentTail pc

abbrev Ring.publishHead (r : Ring) (n currentHead : Nat) (pc : ConsumerPc) : Ring :=
  r.publishHeadBy .wrapping n currentHead pc

abbrev Header.full (h : Header) (currentTail n : Nat) : Bool := h.fullBy .wrapping currentTail n

abbrev Header.short (h : Header) (currentHead n : Nat) : Bool := h.shortBy .wrapping currentHead n

theorem Header.full_eq (h : Header) (t n : Nat) :
    h.full t n = decide (wadd h.shadowHead h.capacity ≤ wadd t n) := rfl

theorem Header.short_eq (h : Header) (t n : Nat) : h.short t n = decide (wsub h.shadowTail t < n) := rfl

def Ring.produce (r : Ring) (a : ProducerAction) : Option Ring := r.produceBy .wrapping a

def Ring.consume (r : Ring) (a : ConsumerAction) : Option Ring := r.consumeBy .wrapping a

section Equations

variable {r : Ring} {n t : Nat}

theorem Ring.produce_write (pc : r.producer = .idle) (n : Nat) :
    r.produce (.write n) = some { r with producer := .check .write n r.tail } := by
  unfold Ring.produce Ring.produceBy
  rw [pc]

theorem Ring.produce_check {call : WriteCall} (pc : r.producer = .check call n t) :
    r.produce .check =
      some { r with producer := if r.full t n then call.onFull n t else .handle n t } := by
  unfold Ring.produce Ring.produceBy
  rw [pc]

theorem Ring.produce_reloadHead {call : WriteCall} (pc : r.producer = .reload call n t) :
    r.produce .reloadHead =
      some { r with shadowHead := r.head, producer := .check call.afterReload n t } := by
  unfold Ring.produce Ring.produceBy
  rw [pc]

theorem Ring.produce_fill (pc : r.producer = .handle n t) {i : Nat} (hi : i < n) (b : UInt8) :
    r.produce (.fill i b) =
      if r.offset t + n ≤ r.data.length then some { r with data := r.data.set (r.offset t + i) b }
      else some { r with producer := .panicked n t } := by
  unfold Ring.produce Ring.produceBy
  rw [pc]
  simp only [if_pos hi]

theorem Ring.produce_publishTail (pc : r.producer = .handle n t) :
    r.produce .publishTail = some (r.publishTail n t .idle) := by
  unfold Ring.produce Ring.produceBy
  rw [pc]

theorem Ring.consume_tryRead (pc : r.consumer = .idle) (n times : Nat) :
    r.consume (.tryRead n times) =
      some { r with consumer := .check (.tryRead times) n r.head } := by
  unfold Ring.consume Ring.consumeBy
  rw [pc]

theorem Ring.consume_read (pc : r.consumer = .idle) (n : Nat) :
    r.consume (.read n) = some { r with consumer := .check .read n r.head } := by
  unfold Ring.consume Ring.consumeBy
  rw [pc]

theorem Ring.consume_check {call : ReadCall} (pc : r.consumer = .check call n t) :
    r.consume .check =
      some { r with consumer := if r.short t n then .reload call n t else .handle n t } := by
  unfold Ring.consume Ring.consumeBy
  rw [pc]

theorem Ring.consume_reloadTail {call : ReadCall} (pc : r.consumer = .reload call n t) :
    r.consume .reloadTail =
      some { r with shadowTail := r.tail, consumer := call.afterReload n t } := by
  unfold Ring.consume Ring.consumeBy
  rw [pc]

theorem Ring.consume_publishHead (pc : r.consumer = .handle n t) :
    r.consume .publishHead = some (r.publishHead n t .idle) := by
  unfold Ring.consume Ring.consumeBy
  rw [pc]

end Equations

/-- The bytes an action asks for. -/
def ProducerAction.request : ProducerAction → Nat
  | .tryWrite n | .write n => n
  | _ => 0

def ConsumerAction.request : ConsumerAction → Nat
  | .tryRead n _ | .read n | .skipN n => n
  | _ => 0

/-- One step of either side, with every request below `2^62`. -/
inductive Ring.Step (r r' : Ring) : Prop where
  | produce (a : ProducerAction) (small : a.request < 2 ^ 62) (h : r.produce a = some r')
  | consume (a : ConsumerAction) (small : a.request < 2 ^ 62) (h : r.consume a = some r')

/-- Any interleaving of steps. -/
abbrev Ring.Reaches : Ring → Ring → Prop := Relation.ReflTransGen Ring.Step

/-- An action of either side. -/
abbrev Action := ProducerAction ⊕ ConsumerAction

def Ring.act (r : Ring) : Action → Option Ring
  | .inl a => r.produce a
  | .inr a => r.consume a

def Action.request : Action → Nat
  | .inl a => a.request
  | .inr a => a.request

/-- A list of actions with small requests that goes through is a run. -/
theorem Ring.reaches_of_act (as : List Action) {r r' : Ring}
    (small : ∀ a ∈ as, Action.request a < 2 ^ 62) (run : as.foldlM Ring.act r = some r') :
    r.Reaches r' := by
  refine reaches_of_foldlM ?_ run
  intro a ha x y h
  cases a with
  | inl a => exact .produce a (small _ ha) h
  | inr a => exact .consume a (small _ ha) h

end Faastr.Ringbuf
