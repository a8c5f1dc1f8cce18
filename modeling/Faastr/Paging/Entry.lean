import Faastr.Memory.FreeList
import Mathlib.Data.Nat.Bitwise

/-!
Page table entries (`kernel/src/arch/x86_64/paging/entry.rs`).

An entry is a word that packs three things: the address of a frame, the flags, and in
bits 52 to 61 a counter that belongs to the table and not to the entry. `body` is
the word without the counter; what an entry says about a page is read off its body,
and no operation on the one changes the other.

* `body_set`, `body_setUnused`, `body_setCounterBits`: what each operation does to the
  body; `counterBits_set`, `counterBits_setUnused`, `counterBits_setCounterBits`: and to
  the counter.
* `flags_set`, `pointedFrame_set`: an entry gives back the flags and the frame it was
  set to, for every frame below `2 ^ 40`.
-/

namespace Faastr.Paging

open Faastr.Memory

/-! ### Flags -/

/-- Every bit that is a flag: bits 0 to 8 and 63. -/
def allFlags : BitVec 64 := 0x80000000000001ff

/-- `EntryFlags`: no bit is set that is not a flag. -/
@[ext]
structure EntryFlags where
  bits : BitVec 64
  known : bits &&& allFlags = bits
deriving DecidableEq

namespace EntryFlags

def present : EntryFlags := ⟨1 <<< 0, by decide⟩

def writable : EntryFlags := ⟨1 <<< 1, by decide⟩

def userAccessible : EntryFlags := ⟨1 <<< 2, by decide⟩

def hugePage : EntryFlags := ⟨1 <<< 7, by decide⟩

def global : EntryFlags := ⟨1 <<< 8, by decide⟩

def noExecute : EntryFlags := ⟨1 <<< 63, by decide⟩

/-- No flag is set. -/
def empty : EntryFlags := ⟨0, by decide⟩

def fromBitsTruncate (bits : BitVec 64) : EntryFlags :=
  ⟨bits &&& allFlags, by rw [BitVec.and_assoc, BitVec.and_self]⟩

def union (a b : EntryFlags) : EntryFlags :=
  ⟨a.bits ||| b.bits, by
    ext i hi
    have ha := congrArg (·[i]) a.known
    have hb := congrArg (·[i]) b.known
    simp only [BitVec.getElem_and, BitVec.getElem_or] at ha hb ⊢
    rw [Bool.and_or_distrib_right, ha, hb]⟩

def remove (a b : EntryFlags) : EntryFlags :=
  ⟨a.bits &&& ~~~b.bits, by
    rw [BitVec.and_assoc, BitVec.and_comm (~~~b.bits), ← BitVec.and_assoc, a.known]⟩

def contains (a b : EntryFlags) : Bool := a.bits &&& b.bits == b.bits

theorem contains_union_right (a b : EntryFlags) : (a.union b).contains b = true := by
  rw [contains, union, beq_iff_eq]
  ext i hi
  simp only [BitVec.getElem_and, BitVec.getElem_or]
  cases b.bits[i] <;> simp

end EntryFlags

/-! ### Entries -/

def addressMask : BitVec 64 := 0x000ffffffffff000

def counterMask : BitVec 64 := 0x3ff0000000000000

structure Entry where
  word : BitVec 64
deriving DecidableEq

namespace Entry

def zero : Entry := ⟨0⟩

def isUnused (e : Entry) : Bool := e.word == e.word &&& counterMask

def setUnused (e : Entry) : Entry := ⟨e.word &&& counterMask⟩

def address (e : Entry) : Nat := (e.word &&& addressMask).toNat

def flags (e : Entry) : EntryFlags := .fromBitsTruncate e.word

def pointedFrame (e : Entry) : Option Nat :=
  if e.flags.contains .present then some (e.address / pageSize) else none

def set (e : Entry) (frame : Nat) (flags : EntryFlags) : Entry :=
  ⟨BitVec.ofNat 64 (frame * pageSize) ||| flags.bits ||| (e.word &&& counterMask)⟩

/-- Bits 52 to 61, the counter of the page table. -/
def counterBits (e : Entry) : BitVec 64 := (e.word &&& counterMask) >>> 52

def setCounterBits (e : Entry) (count : BitVec 64) : Entry :=
  ⟨(e.word &&& ~~~counterMask) ||| count <<< 52⟩

/-! ### The entry without its counter -/

/-- The word without the counter. -/
def body (e : Entry) : BitVec 64 := e.word &&& ~~~counterMask

/-- The body of an entry that is set to a frame. -/
def filled (frame : Nat) (flags : EntryFlags) : BitVec 64 :=
  BitVec.ofNat 64 (frame * pageSize) ||| flags.bits

theorem counterMask_getElem : ∀ (i : Nat) (hi : i < 64),
    counterMask[i] = decide (52 ≤ i ∧ i < 62) := by decide

theorem addressMask_getElem : ∀ (i : Nat) (hi : i < 64),
    addressMask[i] = decide (12 ≤ i ∧ i < 52) := by decide

theorem allFlags_getElem : ∀ (i : Nat) (hi : i < 64),
    allFlags[i] = decide (i < 9 ∨ i = 63) := by decide

variable {e e' : Entry} {frame : Nat} {fl : EntryFlags} {count : BitVec 64}

theorem flags_getElem (fl : EntryFlags) {i : Nat} (hi : i < 64) (h : fl.bits[i] = true) :
    i < 9 ∨ i = 63 := by
  have hknown := congrArg (·[i]) fl.known
  simp only [BitVec.getElem_and, h, Bool.true_and, allFlags_getElem i hi] at hknown
  exact of_decide_eq_true hknown

/-- The bits of a frame's address. -/
theorem frame_getElem (hframe : frame < 2 ^ 40) {i : Nat} (hi : i < 64)
    (h : (BitVec.ofNat 64 (frame * pageSize))[i] = true) : 12 ≤ i ∧ i < 52 := by
  rw [← BitVec.getLsbD_eq_getElem, BitVec.getLsbD_ofNat, pageSize, show 4096 = 2 ^ 12 from rfl,
    Nat.testBit_mul_two_pow] at h
  obtain ⟨-, h⟩ := Bool.and_eq_true_iff.mp h
  obtain ⟨hlow, hbit⟩ := Bool.and_eq_true_iff.mp h
  refine ⟨of_decide_eq_true hlow, ?_⟩
  by_contra hhigh
  have hfalse := Nat.testBit_lt_two_pow (i := i - 12) (hframe.trans_le
    (Nat.pow_le_pow_right (by decide) (show 40 ≤ i - 12 by omega)))
  rw [hfalse] at hbit
  cases hbit

theorem filled_getElem_counter (fl : EntryFlags) (hframe : frame < 2 ^ 40) {i : Nat} (hi : i < 64)
    (h : 52 ≤ i ∧ i < 62) : (filled frame fl)[i] = false := by
  rw [filled, BitVec.getElem_or, Bool.or_eq_false_iff]
  constructor
  · by_contra hbit
    have := frame_getElem hframe hi (Bool.not_eq_false _ ▸ hbit)
    omega
  · by_contra hbit
    have := flags_getElem fl hi (Bool.not_eq_false _ ▸ hbit)
    omega

theorem isUnused_iff : e.isUnused = true ↔ e.body = 0 := by
  rw [isUnused, beq_iff_eq, body]
  constructor
  · intro h
    rw [h, BitVec.and_assoc]
    ext i hi
    simp
  · intro h
    ext i hi
    have hbit := congrArg (·[i]) h
    simp only [BitVec.getElem_and, BitVec.getElem_not, BitVec.ofNat_eq_ofNat,
      BitVec.getElem_zero] at hbit ⊢
    grind

@[simp] theorem body_zero : zero.body = 0 := by decide

@[simp] theorem counterBits_zero : zero.counterBits = 0 := by decide

@[simp] theorem body_setUnused : e.setUnused.body = 0 := by
  rw [body, setUnused, BitVec.and_assoc]
  ext i hi
  simp

@[simp] theorem counterBits_setUnused : e.setUnused.counterBits = e.counterBits := by
  rw [counterBits, setUnused, BitVec.and_assoc, BitVec.and_self, counterBits]

/-- Setting an entry decides its body. -/
theorem body_set (hframe : frame < 2 ^ 40) : (e.set frame fl).body = filled frame fl := by
  ext i hi
  have hmask := counterMask_getElem i hi
  have hfilled := filled_getElem_counter fl hframe hi
  rw [filled] at hfilled ⊢
  simp only [body, set, BitVec.getElem_and, BitVec.getElem_or, BitVec.getElem_not] at hfilled ⊢
  grind

/-- Setting an entry keeps the counter. -/
theorem counterBits_set (hframe : frame < 2 ^ 40) :
    (e.set frame fl).counterBits = e.counterBits := by
  rw [counterBits, counterBits]
  congr 1
  ext i hi
  have hmask := counterMask_getElem i hi
  have hfilled := filled_getElem_counter fl hframe hi
  rw [filled] at hfilled
  simp only [set, BitVec.getElem_and, BitVec.getElem_or] at hfilled ⊢
  grind

/-- A counter of ten bits has no other bit. -/
theorem count_getLsbD (hcount : count.toNat < 1024) {i : Nat} (hi : 10 ≤ i) :
    count.getLsbD i = false := by
  have hle : 2 ^ 10 ≤ 2 ^ i := Nat.pow_le_pow_right (by decide) hi
  exact Nat.testBit_lt_two_pow (hcount.trans_le hle)

/-- Setting the counter keeps the body. -/
theorem body_setCounterBits (hcount : count.toNat < 1024) :
    (e.setCounterBits count).body = e.body := by
  apply BitVec.eq_of_getLsbD_eq
  intro i hi
  have hmask := counterMask_getElem i hi
  rw [← BitVec.getLsbD_eq_getElem] at hmask
  have hcut : 62 ≤ i → count.getLsbD (i - 52) = false := fun h => count_getLsbD hcount (by omega)
  simp only [body, setCounterBits, BitVec.getLsbD_and, BitVec.getLsbD_or, BitVec.getLsbD_not,
    BitVec.getLsbD_shiftLeft]
  grind

theorem counterBits_setCounterBits (hcount : count.toNat < 1024) :
    (e.setCounterBits count).counterBits = count := by
  apply BitVec.eq_of_getLsbD_eq
  intro i hi
  simp only [counterBits, setCounterBits, BitVec.getLsbD_ushiftRight, BitVec.getLsbD_and,
    BitVec.getLsbD_or, BitVec.getLsbD_not, BitVec.getLsbD_shiftLeft, Nat.add_sub_cancel_left]
  by_cases hlow : i < 10
  · have hmask := counterMask_getElem (52 + i) (by omega)
    rw [← BitVec.getLsbD_eq_getElem] at hmask
    rw [hmask]
    grind
  · have hmask : counterMask.getLsbD (52 + i) = false := by
      by_cases hin : 52 + i < 64
      · rw [BitVec.getLsbD_eq_getElem hin, counterMask_getElem (52 + i) hin]
        exact decide_eq_false (by omega)
      · exact BitVec.getLsbD_of_ge _ _ (by omega)
    rw [hmask, count_getLsbD hcount (by omega), Bool.and_false]

/-! ### What is read off the body -/

theorem flags_eq : e.flags = .fromBitsTruncate e.body := by
  have hmask : ~~~counterMask &&& allFlags = allFlags := by decide
  apply EntryFlags.ext
  show e.word &&& allFlags = e.word &&& ~~~counterMask &&& allFlags
  rw [BitVec.and_assoc, hmask]

theorem address_eq : e.address = (e.body &&& addressMask).toNat := by
  have hmask : ~~~counterMask &&& addressMask = addressMask := by decide
  rw [address, body, BitVec.and_assoc, hmask]

theorem flags_congr (h : e.body = e'.body) : e.flags = e'.flags := by
  rw [flags_eq, flags_eq, h]

theorem pointedFrame_congr (h : e.body = e'.body) : e.pointedFrame = e'.pointedFrame := by
  rw [pointedFrame, pointedFrame, flags_congr h, address_eq, address_eq, h]

theorem flags_set (hframe : frame < 2 ^ 40) : (e.set frame fl).flags = fl := by
  rw [flags_eq, body_set hframe]
  ext i hi
  have hflag := flags_getElem fl hi
  have haddr := frame_getElem hframe hi
  have hmask := allFlags_getElem i hi
  simp only [EntryFlags.fromBitsTruncate, filled, BitVec.getElem_and, BitVec.getElem_or]
  grind

theorem address_set (hframe : frame < 2 ^ 40) : (e.set frame fl).address = frame * pageSize := by
  have hword : filled frame fl &&& addressMask = BitVec.ofNat 64 (frame * pageSize) := by
    ext i hi
    have hflag := flags_getElem fl hi
    have haddr := frame_getElem hframe hi
    have hmask := addressMask_getElem i hi
    simp only [filled, BitVec.getElem_and, BitVec.getElem_or]
    grind
  rw [address_eq, body_set hframe, hword, BitVec.toNat_ofNat]
  apply Nat.mod_eq_of_lt
  rw [pageSize]
  omega

theorem pointedFrame_set (hframe : frame < 2 ^ 40) (hpresent : fl.contains .present = true) :
    (e.set frame fl).pointedFrame = some frame := by
  rw [pointedFrame, flags_set hframe, if_pos hpresent, address_set hframe,
    Nat.mul_div_cancel _ (by decide)]

theorem pointedFrame_of_unused (h : e.body = 0) : e.pointedFrame = none := by
  rw [pointedFrame, flags_eq, h]
  exact if_neg (by decide)

/-- An entry that leads to a frame is in use. -/
theorem body_ne_zero (h : e.pointedFrame = some frame) : e.body ≠ 0 := by
  intro hbody
  rw [pointedFrame_of_unused hbody] at h
  cases h

/-- Every frame that an entry leads to is addressable. -/
theorem pointedFrame_lt (h : e.pointedFrame = some frame) : frame < 2 ^ 40 := by
  rw [pointedFrame] at h
  split at h
  · cases h
    have hand : e.address ≤ addressMask.toNat := Nat.and_le_right
    have hmask : addressMask.toNat < 2 ^ 40 * pageSize := by decide
    exact Nat.div_lt_of_lt_mul (Nat.mul_comm (2 ^ 40) pageSize ▸ hand.trans_lt hmask)
  · cases h

theorem filled_ne_zero (hframe : frame < 2 ^ 40) (hpresent : fl.contains .present = true) :
    filled frame fl ≠ 0 := by
  rw [← body_set (e := zero) hframe]
  exact body_ne_zero (pointedFrame_set hframe hpresent)

/-- The body decides what the entry gives back. -/
theorem pointedFrame_of_filled (h : e.body = filled frame fl) (hframe : frame < 2 ^ 40)
    (hpresent : fl.contains .present = true) : e.pointedFrame = some frame := by
  rw [← body_set (e := zero) hframe] at h
  rw [pointedFrame_congr h, pointedFrame_set hframe hpresent]

theorem flags_of_filled (h : e.body = filled frame fl) (hframe : frame < 2 ^ 40) :
    e.flags = fl := by
  rw [← body_set (e := zero) hframe] at h
  rw [flags_congr h, flags_set hframe]

end Entry

end Faastr.Paging
