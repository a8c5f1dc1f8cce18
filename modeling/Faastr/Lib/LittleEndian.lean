import Faastr.Lib.Slice
import Mathlib.Tactic.Ring

/-!
Fixed-width little-endian words.

`leBytes w n` is the `w` bytes of `n`, least significant first, and `leNat`
reads a byte list back. They are inverse to each other on words that fit
(`leNat_leBytes`, `leBytes_leNat`); a word that does not fit is cut to its low
`w` bytes (`leNat_leBytes_mod`), which is what a narrowing cast does.
-/

namespace Faastr.Lib

/-- The `w` low bytes of `n`, least significant first. -/
def leBytes : Nat → Nat → List UInt8
  | 0, _ => []
  | w + 1, n => UInt8.ofNat n :: leBytes w (n / 256)

/-- The number a byte list spells, least significant byte first. -/
def leNat : List UInt8 → Nat
  | [] => 0
  | b :: bs => b.toNat + 256 * leNat bs

@[simp] theorem leBytes_length (w n : Nat) : (leBytes w n).length = w := by
  induction w generalizing n with
  | zero => rfl
  | succ w ih => simp [leBytes, ih]

theorem leNat_leBytes_mod (w n : Nat) : leNat (leBytes w n) = n % 256 ^ w := by
  induction w generalizing n with
  | zero => simp [leBytes, leNat, Nat.mod_one]
  | succ w ih =>
    have hbyte : (UInt8.ofNat n).toNat = n % 256 := by simp
    rw [leBytes, leNat, ih, hbyte, Nat.pow_succ, Nat.mul_comm (256 ^ w) 256, Nat.mod_mul]

/-- A word that fits is read back. -/
theorem leNat_leBytes {w n : Nat} (h : n < 256 ^ w) : leNat (leBytes w n) = n := by
  rw [leNat_leBytes_mod, Nat.mod_eq_of_lt h]

theorem leNat_lt (bs : List UInt8) : leNat bs < 256 ^ bs.length := by
  induction bs with
  | nil => simp [leNat]
  | cons b bs ih =>
    have hb : b.toNat < 256 := b.toNat_lt
    simp only [leNat, List.length_cons, Nat.pow_succ]
    omega

theorem leBytes_leNat (bs : List UInt8) : leBytes bs.length (leNat bs) = bs := by
  induction bs with
  | nil => rfl
  | cons b bs ih =>
    have hb : b.toNat < 256 := b.toNat_lt
    have hdiv : (b.toNat + 256 * leNat bs) / 256 = leNat bs := by omega
    have hmod : UInt8.ofNat (b.toNat + 256 * leNat bs) = b := by
      apply UInt8.toNat_inj.mp
      rw [UInt8.toNat_ofNat']
      omega
    simp only [leNat, List.length_cons, leBytes, hdiv, hmod, ih]

/-- Write a `w`-byte word at the front of a buffer. -/
def writeLe (w : Nat) (buf : List UInt8) (n : Nat) : Checked (List UInt8) :=
  if w ≤ buf.length then .ok (leBytes w n ++ buf.drop w) else .error .index

/-- Read a `w`-byte word from the front of a buffer. -/
def readLe (w : Nat) (buf : List UInt8) : Checked Nat :=
  if w ≤ buf.length then .ok (leNat (buf.take w)) else .error .index

theorem readLe_succeeds {w : Nat} {buf : List UInt8} (h : w ≤ buf.length) : Succeeds (readLe w buf) :=
  ⟨_, if_pos h⟩
/-- Writing a word into a buffer of its own width replaces the buffer. -/
theorem writeLe_exact {w : Nat} {buf : List UInt8} (h : buf.length = w) (n : Nat) :
    writeLe w buf n = .ok (leBytes w n) := by
  rw [writeLe, if_pos (Nat.le_of_eq h.symm), List.drop_eq_nil_of_le (Nat.le_of_eq h),
    List.append_nil]

/-- A word written into its place keeps the length of the buffer. -/
theorem length_of_onSlice_writeLe {w n lo hi : Nat} {xs ys : List UInt8} (hle : lo + w = hi)
    (h : onSlice xs lo hi (fun part => writeLe w part n) = .ok ys) : ys.length = xs.length := by
  obtain ⟨mid, part, hmid, hpart, rfl⟩ := onSlice_eq_ok h
  have hlength := length_of_slice hmid
  obtain ⟨-, hhi, -⟩ := slice_eq_ok_iff.mp hmid
  rw [writeLe_exact (by omega)] at hpart
  cases hpart
  simp only [List.length_append, List.length_take, List.length_drop, leBytes_length]
  omega

theorem readLe_of_length {w : Nat} {buf : List UInt8} (h : buf.length = w) :
    readLe w buf = .ok (leNat buf) := by
  rw [readLe, if_pos (Nat.le_of_eq h.symm), List.take_of_length_le (Nat.le_of_eq h)]

theorem readLe_leBytes_append {w n : Nat} (h : n < 256 ^ w) (rest : List UInt8) :
    readLe w (leBytes w n ++ rest) = .ok n := by
  have hlen : w ≤ (leBytes w n ++ rest).length := by simp
  rw [readLe, if_pos hlen, List.take_left' (leBytes_length w n), leNat_leBytes h]

theorem readLe_leBytes {w n : Nat} (h : n < 256 ^ w) : readLe w (leBytes w n) = .ok n := by
  simpa using readLe_leBytes_append h []

end Faastr.Lib
