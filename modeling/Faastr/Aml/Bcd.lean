import Faastr.Aml.Terms
import Faastr.Lib.Digits
import Mathlib.Data.List.GetD

/-!
`ToBCD` and `FromBCD` against packed decimal numbers.

Both loops take digits from the low end and shift what they have up, so that each of them reverses
the digits: `toBcd_eq` and `fromBcd_eq` say so. A round trip restores their order, but zeros at the
low end have become leading ones and are lost.

* `bcd_right_iff`: which numbers are converted right, come back, and are refused.
-/

namespace Faastr.Aml

open Faastr.Lib

/-- The digit of `ToBCD(n)` at every place is that of `n`. -/
def DigitsRight (n : UInt64) : Prop :=
  ∀ k, (toBcd 20 n 0).toNat / 16 ^ k % 16 = n.toNat / 10 ^ k % 10

/-- `FromBCD(ToBCD(n))` is `n`. -/
def ComesBack (n : UInt64) : Prop := fromBcd 16 (toBcd 20 n 0) 0 = some n

/-- `FromBCD(v)` is an error if and only if some nibble is no decimal digit. -/
def ErrorRight (v : UInt64) : Prop := fromBcd 16 v 0 = none ↔ ∃ k, 9 < v.toNat / 16 ^ k % 16

/-! ### What the loops compute -/

section Loops

variable {rounds n : Nat} (a : Nat) (hn : n < 2 ^ 64)

include hn

theorem ofNat_ne_zero (h : n ≠ 0) : UInt64.ofNat n ≠ 0 := by
  rw [Ne, ← UInt64.toNat_inj, UInt64.toNat_ofNat_of_lt' hn]
  exact h

theorem toBcd_eq (hrounds : (Nat.digits 10 n).length ≤ rounds) :
    toBcd rounds (UInt64.ofNat n) (UInt64.ofNat a) =
      UInt64.ofNat ((Nat.digits 10 n).foldl (fun r d => r * 16 + d) a) := by
  induction rounds generalizing n a with
  | zero =>
    rw [List.length_eq_zero_iff.mp (Nat.le_zero.mp hrounds)]
    rfl
  | succ rounds ih =>
    by_cases hzero : n = 0
    · subst hzero
      rw [Nat.digits_zero]
      rfl
    · have hlt : n / 10 < 2 ^ 64 ∧ n % 10 < 2 ^ 64 := by omega
      have hdiv : UInt64.ofNat n / 10 = UInt64.ofNat (n / 10) := by
        rw [← UInt64.toNat_inj, UInt64.toNat_div, UInt64.toNat_ofNat_of_lt' hn,
          UInt64.toNat_ofNat_of_lt' hlt.1]
        rfl
      have hmod : UInt64.ofNat n % 10 = UInt64.ofNat (n % 10) := by
        rw [← UInt64.toNat_inj, UInt64.toNat_mod, UInt64.toNat_ofNat_of_lt' hn,
          UInt64.toNat_ofNat_of_lt' hlt.2]
        rfl
      have hstep := ofNat_shift_add a (n % 10) (k := 4) (by decide)
      rw [Nat.digits_def' (by decide) (Nat.pos_of_ne_zero hzero)] at hrounds ⊢
      rw [toBcd, if_neg (ofNat_ne_zero hn hzero), hdiv, hmod, List.foldl_cons,
        ← ih (a * 16 + n % 10) hlt.1 (Nat.le_of_succ_le_succ hrounds)]
      exact congrArg _ hstep

theorem fromBcd_eq (hrounds : (Nat.digits 16 n).length ≤ rounds) :
    fromBcd rounds (UInt64.ofNat n) (UInt64.ofNat a) =
      if ∀ d ∈ Nat.digits 16 n, d ≤ 10 then
        some (UInt64.ofNat ((Nat.digits 16 n).foldl (fun r d => r * 10 + d) a))
      else none := by
  induction rounds generalizing n a with
  | zero =>
    rw [List.length_eq_zero_iff.mp (Nat.le_zero.mp hrounds)]
    rfl
  | succ rounds ih =>
    by_cases hzero : n = 0
    · subst hzero
      rw [Nat.digits_zero]
      rfl
    · have hlt : n / 16 < 2 ^ 64 ∧ n % 16 < 2 ^ 64 := by omega
      have hnibble : UInt64.ofNat n &&& 0x0F = UInt64.ofNat (n % 16) := by
        rw [← UInt64.toNat_inj, UInt64.toNat_and, UInt64.toNat_ofNat_of_lt' hn,
          UInt64.toNat_ofNat_of_lt' hlt.2]
        exact Nat.and_two_pow_sub_one_eq_mod n 4
      have hshift : UInt64.ofNat n >>> 4 = UInt64.ofNat (n / 16) :=
        ofNat_shiftRight hn (k := 4) (by decide)
      have hstep : UInt64.ofNat a * 10 + UInt64.ofNat (n % 16) = UInt64.ofNat (a * 10 + n % 16) := by
        rw [UInt64.ofNat_add, UInt64.ofNat_mul]
        rfl
      have hgt : UInt64.ofNat (n % 16) > 10 ↔ 10 < n % 16 := by
        rw [gt_iff_lt, UInt64.lt_iff_toNat_lt, UInt64.toNat_ofNat_of_lt' hlt.2]
        rfl
      rw [Nat.digits_def' (by decide) (Nat.pos_of_ne_zero hzero)] at hrounds ⊢
      rw [fromBcd, if_neg (ofNat_ne_zero hn hzero), hnibble, hshift, hstep, List.foldl_cons,
        ih (a * 10 + n % 16) hlt.1 (Nat.le_of_succ_le_succ hrounds)]
      simp only [List.forall_mem_cons, hgt]
      by_cases hle : n % 16 ≤ 10
      · rw [if_neg (by omega)]
        simp only [hle, true_and]
      · rw [if_pos (by omega), if_neg fun h => hle h.1]

end Loops

/-! ### What is refused -/

theorem exists_nibble_iff (c v : Nat) :
    (∃ d ∈ Nat.digits 16 v, c < d) ↔ ∃ k, c < v / 16 ^ k % 16 := by
  simp only [← Nat.getD_digits v _ (by decide : 2 ≤ 16)]
  constructor
  · rintro ⟨d, hd, hlt⟩
    obtain ⟨k, hk, rfl⟩ := List.mem_iff_getElem.mp hd
    exact ⟨k, by rwa [List.getD_eq_getElem _ _ hk]⟩
  · rintro ⟨k, hlt⟩
    by_cases hk : k < (Nat.digits 16 v).length
    · rw [List.getD_eq_getElem _ _ hk] at hlt
      exact ⟨_, List.getElem_mem hk, hlt⟩
    · rw [List.getD_eq_default _ _ (Nat.le_of_not_lt hk)] at hlt
      omega

theorem fromBcd_word (v : UInt64) : fromBcd 16 v 0 =
    if ∀ d ∈ Nat.digits 16 v.toNat, d ≤ 10 then
      some (UInt64.ofNat (number 10 (Nat.digits 16 v.toNat)))
    else none := by
  have hlen := (Nat.digits_length_le_iff (b := 16) (k := 16) (by decide) _).mpr v.toNat_lt
  have heq := fromBcd_eq 0 v.toNat_lt hlen
  rwa [UInt64.ofNat_toNat] at heq

theorem errorRight_iff (v : UInt64) : ErrorRight v ↔
    ((∃ k, v.toNat / 16 ^ k % 16 = 10) → ∃ k, 10 < v.toNat / 16 ^ k % 16) := by
  have hnone : fromBcd 16 v 0 = none ↔ ∃ k, 10 < v.toNat / 16 ^ k % 16 := by
    rw [fromBcd_word, ← exists_nibble_iff]
    simp
  rw [ErrorRight, hnone]
  constructor
  · rintro h ⟨k, hk⟩
    exact h.mpr ⟨k, by omega⟩
  · intro h
    refine ⟨fun ⟨k, hk⟩ => ⟨k, by omega⟩, fun ⟨k, hk⟩ => ?_⟩
    by_cases heq : v.toNat / 16 ^ k % 16 = 10
    · exact h ⟨k, heq⟩
    · exact ⟨k, by omega⟩

/-! ### Numbers of sixteen digits -/

theorem digits_lt_ten (n : Nat) : ∀ d ∈ (Nat.digits 10 n).reverse, d < 10 :=
  fun _ hd => Nat.digits_lt_base (by decide) (List.mem_reverse.mp hd)

section Sixteen

variable {n : UInt64} (hn : n.toNat < 10 ^ 16)

include hn

/-- **`ToBCD` reverses the digits.** -/
theorem toNat_toBcd : (toBcd 20 n 0).toNat = Nat.ofDigits 16 (Nat.digits 10 n.toNat).reverse := by
  have hlen : (Nat.digits 10 n.toNat).length ≤ 16 := (Nat.digits_length_le_iff (by decide) _).mpr hn
  have heq := toBcd_eq 0 n.toNat_lt (Nat.le_trans hlen (by decide : 16 ≤ 20))
  rw [UInt64.ofNat_toNat] at heq
  have hlt : number 16 (Nat.digits 10 n.toNat) < 2 ^ 64 := by
    refine Nat.lt_of_lt_of_le (number_lt (by decide) fun d hd => ?_)
      (Nat.pow_le_pow_right (by decide) hlen : 16 ^ _ ≤ 16 ^ 16)
    exact Nat.lt_trans (Nat.digits_lt_base (by decide) hd) (by decide : 10 < 16)
  rw [← number_eq_ofDigits]
  exact (congrArg UInt64.toNat heq).trans (UInt64.toNat_ofNat_of_lt' hlt)

/-- A nibble of the result is a digit from the other end. -/
theorem toBcd_nibble (k : Nat) :
    (toBcd 20 n 0).toNat / 16 ^ k % 16 = (Nat.digits 10 n.toNat).reverse.getD k 0 := by
  rw [toNat_toBcd hn]
  exact ofDigits_div_mod (by decide) (fun d hd => Nat.lt_trans (digits_lt_ten _ d hd) (by decide)) k

theorem digitsRight_iff : DigitsRight n ↔
    (Nat.digits 10 n.toNat).reverse = Nat.digits 10 n.toNat := by
  have hright : DigitsRight n ↔
      ∀ k, (Nat.digits 10 n.toNat).reverse.getD k 0 = (Nat.digits 10 n.toNat).getD k 0 := by
    refine forall_congr' fun k => ?_
    rw [toBcd_nibble hn, Nat.getD_digits _ _ (by decide)]
  rw [hright]
  constructor
  · intro h
    refine List.ext_getElem (List.length_reverse ..) fun k hk hk' => ?_
    have hget := h k
    rwa [List.getD_eq_getElem _ _ hk, List.getD_eq_getElem _ _ hk'] at hget
  · intro h k
    rw [h]

theorem toBcd_digits_lt : ∀ d ∈ Nat.digits 16 (toBcd 20 n 0).toNat, d < 10 := by
  intro d hd
  by_contra hge
  obtain ⟨k, hk⟩ := (exists_nibble_iff 9 _).mp ⟨d, hd, by omega⟩
  rw [toBcd_nibble hn] at hk
  have hlt := getD_lt (by decide) (digits_lt_ten n.toNat) k
  omega

theorem comesBack_iff : ComesBack n ↔ n = 0 ∨ n.toNat % 10 ≠ 0 := by
  rw [ComesBack, fromBcd_word, if_pos fun d hd => Nat.le_of_lt (toBcd_digits_lt hn d hd),
    Option.some_inj]
  by_cases hzero : n = 0
  · subst hzero
    exact iff_of_true rfl (.inl rfl)
  rw [or_iff_right hzero]
  have hpos : 0 < n.toNat := Nat.pos_of_ne_zero fun h => hzero (UInt64.toNat_inj.mp h)
  have hsplit : (Nat.digits 10 n.toNat).reverse =
      (Nat.digits 10 (n.toNat / 10)).reverse ++ [n.toNat % 10] := by
    rw [Nat.digits_def' (by decide) hpos, List.reverse_cons]
  constructor
  · -- A zero at the low end leaves a number that is one digit shorter.
    intro hback hlow
    have hlen : (Nat.digits 16 (toBcd 20 n 0).toNat).length ≤ (Nat.digits 10 (n.toNat / 10)).length := by
      rw [Nat.digits_length_le_iff (by decide), toNat_toBcd hn, hsplit, hlow,
        Nat.ofDigits_append_zero, ← List.length_reverse]
      exact Nat.ofDigits_lt_base_pow_length (by decide) fun d hd =>
        Nat.lt_trans (digits_lt_ten _ d hd) (by decide)
    have hsmall := Nat.lt_of_lt_of_le (number_lt (by decide) (toBcd_digits_lt hn))
      (Nat.pow_le_pow_right (by decide) hlen)
    have hlarge : 10 ^ (Nat.digits 10 (n.toNat / 10)).length ≤ n.toNat := by
      rw [← Nat.lt_digits_length_iff (by decide), Nat.digits_def' (by decide) hpos]
      exact Nat.lt_succ_self _
    have hword := Nat.lt_trans (Nat.lt_of_lt_of_le hsmall hlarge) n.toNat_lt
    have hnat := congrArg UInt64.toNat hback
    rw [UInt64.toNat_ofNat_of_lt' hword] at hnat
    omega
  · intro hlow
    have hdigits : Nat.digits 16 (toBcd 20 n 0).toNat = (Nat.digits 10 n.toNat).reverse := by
      rw [toNat_toBcd hn]
      refine Nat.digits_ofDigits 16 (by decide) _
        (fun d hd => Nat.lt_trans (digits_lt_ten _ d hd) (by decide)) fun hne => ?_
      simpa only [hsplit, List.getLast_append_singleton] using hlow
    rw [hdigits, number_eq_ofDigits, List.reverse_reverse, Nat.ofDigits_digits,
      UInt64.ofNat_toNat]

end Sixteen

/-- **When decimal numbers are converted right.** -/
theorem bcd_right_iff (n v : UInt64) (hn : n.toNat < 10 ^ 16) :
    (DigitsRight n ↔ (Nat.digits 10 n.toNat).reverse = Nat.digits 10 n.toNat) ∧
    (ComesBack n ↔ n = 0 ∨ n.toNat % 10 ≠ 0) ∧
    (ErrorRight v ↔
      ((∃ k, v.toNat / 16 ^ k % 16 = 10) → ∃ k, 10 < v.toNat / 16 ^ k % 16)) :=
  ⟨digitsRight_iff hn, comesBack_iff hn, errorRight_iff v⟩

theorem eleven_converted_right : DigitsRight 11 ∧ ComesBack 11 ∧ ErrorRight 0x0F := by
  obtain ⟨hdigits, hback, herror⟩ := bcd_right_iff 11 0x0F (by decide)
  refine ⟨hdigits.mpr ?_, hback.mpr (.inr (by decide)), herror.mpr fun _ => ⟨0, by decide⟩⟩
  simp

/-- **Twelve becomes `0x21`, ten becomes `1` and comes back as one, and a nibble of ten is read as a
digit.** -/
theorem twelve_and_ten_wrong :
    (toBcd 20 12 0 = 0x21 ∧ ¬ DigitsRight 12) ∧
    (toBcd 20 10 0 = 1 ∧ fromBcd 16 1 0 = some 1 ∧ ¬ ComesBack 10) ∧
    (fromBcd 16 0x0A 0 = some 10 ∧ ¬ ErrorRight 0x0A) := by
  refine ⟨⟨by decide, fun h => ?_⟩, ⟨by decide, by decide, fun h => ?_⟩, ⟨by decide, fun h => ?_⟩⟩
  · exact absurd (h 0) (by decide)
  · exact absurd (show fromBcd 16 (toBcd 20 10 0) 0 = some 10 from h) (by decide)
  · exact absurd (h.mpr ⟨0, by decide⟩) (by decide)

end Faastr.Aml
