import Faastr.Ringbuf.Ring
import Mathlib.Data.Nat.Bitwise
import Mathlib.Order.Bounds.Basic

/-!
How `prev_power_of_two` rounds, and with it the capacity of a ring.

Each line of the cascade doubles how far the bits of `x` are smeared down (`Smeared.step`), and
five lines smear them over 32 places. A word has 64: the result is right exactly if below the highest
bit of `x` there are no 32 places in a row without one (`Dense`), as in every word below `2^32`.

* `prevPowerOfTwo_rounds_iff`: the condition, for the number and for a ring in a buffer.
-/

namespace Faastr.Ringbuf

open Faastr.Lib

/-- The bits of `y` are those of `x` and the `w - 1` places below each. -/
def Smeared (w x y : Nat) : Prop :=
  ∀ t, y.testBit t = true ↔ ∃ s, t ≤ s ∧ s < t + w ∧ x.testBit s = true

/-- Of any 32 places that start up to the highest bit, one is set. -/
def Dense (x : Nat) : Prop := ∀ t ≤ x.log2, ∃ s, t ≤ s ∧ s < t + 32 ∧ x.testBit s = true

/-- The result is the greatest power of two up to `x`. -/
def RoundsDown (x : Nat) : Prop := IsGreatest {p | p ≤ x ∧ ∃ k, p = 2 ^ k} (prevPowerOfTwo x)

/-- A new ring in the buffer has a power of two as its capacity, and its mask takes remainders. -/
def Masked (buff : List UInt8) : Prop :=
  ∃ r k, Ring.new buff = .ok r ∧ r.capacity = 2 ^ k ∧
    ∀ i, i &&& (r.allocatedSize - 1) = i % r.allocatedSize

variable {w x y b : Nat}

theorem smeared_one (x : Nat) : Smeared 1 x x := by
  intro t
  constructor
  · exact fun h => ⟨t, Nat.le_refl t, Nat.lt_succ_self t, h⟩
  · rintro ⟨s, hle, hlt, h⟩
    rwa [Nat.le_antisymm hle (Nat.le_of_lt_succ hlt)]

/-- One line of the cascade. -/
theorem Smeared.step (h : Smeared w x y) : Smeared (2 * w) x (y ||| (y >>> w)) := by
  intro t
  rw [Nat.testBit_or, Nat.testBit_shiftRight, Bool.or_eq_true, h t, h (w + t)]
  constructor
  · rintro (⟨s, hle, hlt, hs⟩ | ⟨s, hle, hlt, hs⟩)
    · exact ⟨s, hle, by omega, hs⟩
    · exact ⟨s, by omega, by omega, hs⟩
  · rintro ⟨s, hle, hlt, hs⟩
    by_cases hs' : s < t + w
    · exact .inl ⟨s, hle, hs', hs⟩
    · exact .inr ⟨s, by omega, by omega, hs⟩

/-- What the cascade subtracts from has the bits of `x` smeared over 32 places. -/
theorem prevPowerOfTwo_eq (x : Nat) : ∃ y, Smeared 32 x y ∧ prevPowerOfTwo x = y - y / 2 :=
  ⟨_, (((((smeared_one x).step).step).step).step).step, rfl⟩

section Highest

variable (hx : x ≠ 0) (hy : Smeared 32 x y)

include hx hy

theorem Smeared.bounds : 2 ^ x.log2 ≤ y ∧ y < 2 * 2 ^ x.log2 := by
  constructor
  · refine Nat.ge_two_pow_of_testBit ((hy _).mpr ⟨x.log2, Nat.le_refl _, by omega, ?_⟩)
    exact Nat.testBit_log2 hx
  · rw [Nat.mul_comm, ← Nat.pow_succ]
    refine Nat.lt_pow_two_of_testBit y fun t ht => ?_
    rw [← Bool.not_eq_true, hy t]
    rintro ⟨s, hle, -, hs⟩
    have hlog : s ≤ x.log2 := (Nat.le_log2 hx).mpr (Nat.ge_two_pow_of_testBit hs)
    omega

/-- Smeared over 32 places, a dense number is all ones. -/
theorem Smeared.eq_iff_dense : y = 2 * 2 ^ x.log2 - 1 ↔ Dense x := by
  rw [Nat.mul_comm, ← Nat.pow_succ]
  constructor
  · rintro rfl t ht
    exact (hy t).mp (by rw [Nat.testBit_two_pow_sub_one]; exact decide_eq_true (by omega))
  · intro hdense
    refine Nat.eq_of_testBit_eq fun t => ?_
    rw [Nat.testBit_two_pow_sub_one]
    by_cases ht : t ≤ x.log2
    · rw [decide_eq_true (by omega)]
      exact (hy t).mpr (hdense t ht)
    · rw [decide_eq_false (by omega)]
      refine Nat.testBit_lt_two_pow (Nat.lt_of_lt_of_le (hy.bounds hx).2 ?_)
      rw [Nat.mul_comm, ← Nat.pow_succ]
      exact Nat.pow_le_pow_right (by decide) (by omega)

/-- The result is a power of two only if it is the right one. -/
theorem Smeared.eq_of_pow {k : Nat} (h : y - y / 2 = 2 ^ k) : y - y / 2 = 2 ^ x.log2 := by
  obtain ⟨hle, hlt⟩ := hy.bounds hx
  rcases Nat.lt_or_ge k x.log2 with hk | hk
  · -- The number would be one bit, but the bit below its highest is set too.
    have hpow : 2 * 2 ^ k ≤ 2 ^ x.log2 := by
      rw [Nat.mul_comm, ← Nat.pow_succ]
      exact Nat.pow_le_pow_right (by decide) hk
    have hone : y = 2 ^ x.log2 := by omega
    have hbelow := (hy (x.log2 - 1)).mpr ⟨x.log2, by omega, by omega, Nat.testBit_log2 hx⟩
    rw [hone, Nat.testBit_two_pow] at hbelow
    have := of_decide_eq_true hbelow
    omega
  · have hpow : 2 ^ x.log2 ≤ 2 ^ k := Nat.pow_le_pow_right (by decide) hk
    omega

end Highest

theorem isGreatest_log2 (hx : x ≠ 0) : IsGreatest {p | p ≤ x ∧ ∃ k, p = 2 ^ k} (2 ^ x.log2) := by
  refine ⟨⟨Nat.log2_self_le hx, x.log2, rfl⟩, ?_⟩
  rintro p ⟨hp, k, rfl⟩
  exact Nat.pow_le_pow_right (by decide) ((Nat.le_log2 hx).mpr hp)

theorem prevPowerOfTwo_eq_iff (hx : x ≠ 0) : prevPowerOfTwo x = 2 ^ x.log2 ↔ Dense x := by
  obtain ⟨y, hy, heq⟩ := prevPowerOfTwo_eq x
  have hbounds := hy.bounds hx
  rw [heq, ← hy.eq_iff_dense hx]
  omega

theorem masked_iff {buff : List UInt8} (hx : x ≠ 0) (hlen : buff.length = sizeofHeader + x) :
    Masked buff ↔ Dense x := by
  obtain ⟨y, hy, heq⟩ := prevPowerOfTwo_eq x
  have hbounds := hy.bounds hx
  have hsize : buff.length - sizeofHeader = x := by omega
  have hle : prevPowerOfTwo x ≤ x := by
    have := Nat.log2_self_le hx
    omega
  have hnew := Ring.new_eq (by omega) (congrArg prevPowerOfTwo hsize) (by omega)
  have hcap : ((buff.drop sizeofHeader).take (prevPowerOfTwo x)).length = prevPowerOfTwo x := by
    rw [List.length_take, List.length_drop]
    omega
  rw [← prevPowerOfTwo_eq_iff hx]
  constructor
  · rintro ⟨r, k, hr, hk, -⟩
    cases hnew.symm.trans hr
    rw [heq]
    exact hy.eq_of_pow hx (heq.symm.trans (hcap.symm.trans hk))
  · intro hpow
    refine ⟨_, x.log2, hnew, hcap.trans hpow, fun i => ?_⟩
    show i &&& (((buff.drop sizeofHeader).take (prevPowerOfTwo x)).length - 1) =
      i % ((buff.drop sizeofHeader).take (prevPowerOfTwo x)).length
    rw [hcap, hpow]
    exact Nat.and_two_pow_sub_one_eq_mod i _

/-- **Which numbers are rounded down to a power of two**: those whose set bits are nowhere 32 places
apart. A buffer behind its header holds a ring with a valid mask in the same cases. -/
theorem prevPowerOfTwo_rounds_iff (x : Nat) (hpos : 1 ≤ x) :
    (RoundsDown x ↔ Dense x) ∧
      ∀ buff : List UInt8, buff.length = sizeofHeader + x → (Masked buff ↔ Dense x) := by
  have hx : x ≠ 0 := by omega
  refine ⟨?_, fun buff hlen => masked_iff hx hlen⟩
  rw [← prevPowerOfTwo_eq_iff hx]
  constructor
  · exact fun h => h.unique (isGreatest_log2 hx)
  · intro h
    rw [RoundsDown, h]
    exact isGreatest_log2 hx

/-- A kilobyte is rounded down right. -/
theorem kilobyte_rounds_down : RoundsDown 1000 := by
  have hlog : Nat.log2 1000 = 9 := by decide
  refine (prevPowerOfTwo_rounds_iff 1000 (by decide)).1.mpr fun t ht => ?_
  exact ⟨9, by omega, by omega, rfl⟩

/-- Four gigabytes are rounded down to one byte less. -/
theorem four_gigabytes_wrong : prevPowerOfTwo (2 ^ 32) = 2 ^ 32 - 1 ∧ ¬ RoundsDown (2 ^ 32) := by
  have heq : prevPowerOfTwo (2 ^ 32) = 2 ^ 32 - 1 := by decide
  refine ⟨heq, fun h => ?_⟩
  have hge := h.2 ⟨Nat.le_refl (2 ^ 32), 32, rfl⟩
  rw [heq] at hge
  omega

end Faastr.Ringbuf
