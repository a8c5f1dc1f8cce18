import Mathlib.Data.Nat.Digits.Lemmas

/-!
Numbers as lists of digits, the most significant digit first.

A loop that takes digits in one after the other, multiplying what it has by the base, computes
`number`; `ofNat_shift_add` is one round of such a loop on a word that shifts.
-/

namespace Faastr.Lib

/-- The number with these digits, the most significant one first. -/
def number (b : Nat) (ds : List Nat) : Nat := ds.foldl (fun n d => n * b + d) 0

variable {b d : Nat} {ds : List Nat}

theorem foldl_eq_number (b a : Nat) (ds : List Nat) :
    ds.foldl (fun n d => n * b + d) a = a * b ^ ds.length + number b ds := by
  induction ds generalizing a with
  | nil => simp [number]
  | cons d ds ih =>
    rw [number, List.foldl_cons, List.foldl_cons, ih, ih (0 * b + d), List.length_cons, Nat.pow_succ]
    ring

theorem number_cons (b d : Nat) (ds : List Nat) :
    number b (d :: ds) = d * b ^ ds.length + number b ds := by
  rw [number, List.foldl_cons, foldl_eq_number, Nat.zero_mul, Nat.zero_add]

theorem number_append (b : Nat) (ds es : List Nat) :
    number b (ds ++ es) = number b ds * b ^ es.length + number b es := by
  rw [number, List.foldl_append, foldl_eq_number]
  rfl

theorem number_concat (b : Nat) (ds : List Nat) (d : Nat) :
    number b (ds ++ [d]) = number b ds * b + d := by
  rw [number, List.foldl_append]
  rfl

theorem number_mono {b b' : Nat} (hb : b ≤ b') (ds : List Nat) : number b ds ≤ number b' ds := by
  induction ds with
  | nil => exact Nat.le_refl _
  | cons d ds ih =>
    rw [number_cons, number_cons]
    exact Nat.add_le_add (Nat.mul_le_mul_left _ (Nat.pow_le_pow_left hb _)) ih

theorem number_eq_ofDigits (b : Nat) (ds : List Nat) : number b ds = Nat.ofDigits b ds.reverse := by
  induction ds using List.reverseRecOn with
  | nil => rfl
  | append_singleton ds d ih =>
    rw [number_concat, ih, List.reverse_append, List.reverse_singleton, List.singleton_append,
      Nat.ofDigits_cons]
    simp [Nat.add_comm, Nat.mul_comm]

theorem number_lt (hb : 1 < b) (h : ∀ d ∈ ds, d < b) : number b ds < b ^ ds.length := by
  rw [number_eq_ofDigits, ← List.length_reverse]
  exact Nat.ofDigits_lt_base_pow_length hb fun d hd => h d (List.mem_reverse.mp hd)

theorem number_eq_zero {b : Nat} (hb : 0 < b) {ds : List Nat} :
    number b ds = 0 ↔ ∀ d ∈ ds, d = 0 := by
  induction ds with
  | nil => simp [number]
  | cons d ds ih =>
    rw [number_cons, Nat.add_eq_zero_iff, ih, List.forall_mem_cons, Nat.mul_eq_zero,
      or_iff_left (Nat.pow_pos hb).ne']

theorem getD_lt (hb : 0 < b) (h : ∀ d ∈ ds, d < b) (k : Nat) : ds.getD k 0 < b := by
  rw [List.getD_eq_getElem?_getD]
  cases hk : ds[k]? with
  | none => exact hb
  | some d => exact h d (List.mem_of_getElem? hk)

/-- A digit of a number. -/
theorem ofDigits_div_mod (hb : 1 < b) (h : ∀ d ∈ ds, d < b) (k : Nat) :
    Nat.ofDigits b ds / b ^ k % b = ds.getD k 0 := by
  have hget : ds.getD k 0 = (ds.drop k).head?.getD 0 := by
    rw [List.head?_drop, List.getD_eq_getElem?_getD]
  rw [Nat.ofDigits_div_pow_eq_ofDigits_drop k (by omega) ds h, hget]
  cases hdrop : ds.drop k with
  | nil => simp
  | cons d rest =>
    have hd : d < b := h d (List.mem_of_mem_drop (hdrop ▸ List.mem_cons_self))
    simp [Nat.ofDigits_cons, Nat.mod_eq_of_lt hd]

/-- One round of a loop that shifts a word and adds a digit. -/
theorem ofNat_shift_add (a d : Nat) {k : Nat} (hk : k < 64) :
    (UInt64.ofNat a <<< UInt64.ofNat k) + UInt64.ofNat d = UInt64.ofNat (a * 2 ^ k + d) := by
  have hmod : k % 2 ^ 64 % 64 = k := by omega
  rw [← UInt64.toNat_inj, UInt64.toNat_add, UInt64.toNat_shiftLeft]
  simp only [UInt64.toNat_ofNat', hmod, Nat.shiftLeft_eq]
  rw [Nat.mod_mul_mod, ← Nat.add_mod]

theorem ofNat_shiftRight {n k : Nat} (hn : n < 2 ^ 64) (hk : k < 64) :
    UInt64.ofNat n >>> UInt64.ofNat k = UInt64.ofNat (n / 2 ^ k) := by
  have hmod : k % 2 ^ 64 % 64 = k := by omega
  have hlt : n / 2 ^ k < 2 ^ 64 := Nat.lt_of_le_of_lt (Nat.div_le_self n _) hn
  rw [← UInt64.toNat_inj, UInt64.toNat_shiftRight]
  simp only [UInt64.toNat_ofNat', hmod, Nat.mod_eq_of_lt hn, Nat.mod_eq_of_lt hlt,
    Nat.shiftRight_eq_div_pow]

end Faastr.Lib
