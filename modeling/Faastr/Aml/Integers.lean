import Faastr.Aml.Value
import Faastr.Lib.Digits

/-!
Integers as buffers and as strings, and back.

A string's digits are taken in eight bits apart, from its first eight bytes only, which have to be
there; so what is read is seldom the number that was written.

* `number_take_iff`: when digits taken eight bits apart make the number that they make four bits
  apart.
* `integers_back_iff`: what comes back, and what is read of a string.
-/

namespace Faastr.Aml

open Faastr.Lib

/-! ### Digits apart -/

/-- A leading digit other than zero is above all that may follow it. -/
theorem leading_lt {d k l M N : Nat} (hd : 0 < d ∧ d < 16) (hN : N < 16 ^ l) (hlt : l < k) :
    d * 16 ^ l + N < d * 16 ^ k + M :=
  calc d * 16 ^ l + N < 16 ^ l * 16 := by
        have := Nat.mul_le_mul_right (16 ^ l) (Nat.succ_le_of_lt hd.2)
        rw [Nat.succ_mul] at this
        omega
    _ ≤ 16 ^ k := (Nat.pow_le_pow_right (by decide) hlt : 16 ^ (l + 1) ≤ 16 ^ k)
    _ ≤ d * 16 ^ k + M := Nat.le_trans (Nat.le_mul_of_pos_left _ hd.1) (Nat.le_add_right _ _)

theorem leading_eq_iff {d k l M N : Nat} (hd : d < 16) (hM : M < 256 ^ k) (hN : N < 16 ^ l) :
    d * 256 ^ k + M = d * 16 ^ l + N ↔ (d ≠ 0 → l = 2 * k) ∧ M = N := by
  have hpow : 256 ^ k = 16 ^ (2 * k) := by rw [Nat.pow_mul]
  rw [hpow] at hM ⊢
  by_cases hzero : d = 0
  · simp [hzero]
  rw [imp_iff_right hzero]
  constructor
  · intro heq
    rcases Nat.lt_trichotomy l (2 * k) with hlt | rfl | hgt
    · have := leading_lt ⟨Nat.pos_of_ne_zero hzero, hd⟩ hN hlt (M := M)
      omega
    · exact ⟨rfl, by omega⟩
    · have := leading_lt ⟨Nat.pos_of_ne_zero hzero, hd⟩ hM hgt (M := N)
      omega
  · rintro ⟨rfl, rfl⟩
    rfl

/-- **The first digits, taken in eight bits apart, are the number if and only if no digit but one in
the right place is other than zero.** -/
theorem number_take_iff {ds : List Nat} (hds : ∀ d ∈ ds, d < 16) {k : Nat} (hk : k ≤ ds.length) :
    number 256 (ds.take k) = number 16 ds ↔
      ∀ j d, ds[j]? = some d → d ≠ 0 → j + 1 + ds.length = 2 * k := by
  induction ds generalizing k with
  | nil => simp [number]
  | cons d ds ih =>
    obtain ⟨hd, hds⟩ := List.forall_mem_cons.mp hds
    cases k with
    | zero =>
      rw [List.take_zero, eq_comm]
      refine (number_eq_zero (by decide)).trans ⟨fun h j x hx hne => ?_, fun h x hx => ?_⟩
      · exact absurd (h x (List.mem_of_getElem? hx)) hne
      · by_contra hne
        obtain ⟨j, hj⟩ := List.mem_iff_getElem?.mp hx
        exact absurd (h j x hj hne) (by omega)
    | succ k =>
      have hk := Nat.le_of_succ_le_succ hk
      have hlen : (ds.take k).length = k := List.length_take_of_le hk
      have hM : number 256 (ds.take k) < 256 ^ k := by
        have hlt : ∀ x ∈ ds.take k, x < 256 := fun x hx =>
          Nat.lt_trans (hds x (List.mem_of_mem_take hx)) (by decide)
        have hbound := number_lt (by decide) hlt
        rwa [hlen] at hbound
      rw [List.take_succ_cons, number_cons, number_cons, hlen,
        leading_eq_iff hd hM (number_lt (by decide) hds), ih hds hk, List.length_cons]
      constructor
      · rintro ⟨hfirst, hrest⟩ (_ | j) x hx hne
        · cases hx
          have := hfirst hne
          omega
        · have := hrest j x hx hne
          omega
      · intro h
        refine ⟨fun hne => ?_, fun j x hx hne => ?_⟩
        · have := h 0 d rfl hne
          omega
        · have := h (j + 1) x hx hne
          omega

/-! ### The digits of a string -/

/-- The digits at the front of a string. -/
def hexRun : Str → List Nat
  | [] => []
  | c :: s =>
    match Str.toDigit c with
    | none => []
    | some d => d.toNat :: hexRun s

/-- The number that the longest prefix of at most 16 digits is. -/
def prefixValue (s : Str) : UInt64 := UInt64.ofNat (number 16 ((hexRun s).take 16))

/-- The characters that are no digits and whose upper case starts with one. -/
def ligatures : List Char := [0xFB00, 0xFB01, 0xFB02, 0xFB03, 0xFB04, 0x1E9A].map Char.ofNat

theorem hexDigits_eq (s : Str) (a : Nat) : AmlValue.hexDigits s (UInt64.ofNat a) =
    UInt64.ofNat ((hexRun s).foldl (fun n d => n * 256 + d) a) := by
  induction s generalizing a with
  | nil => rfl
  | cons c s ih =>
    rw [AmlValue.hexDigits, hexRun]
    cases Str.toDigit c with
    | none => rfl
    | some d =>
      have hstep := ofNat_shift_add a d.toNat (k := 8) (by decide)
      rw [UInt64.ofNat_toNat] at hstep
      rw [List.foldl_cons, ← ih]
      exact congrArg _ hstep

theorem forall_ascii {P : Char → Prop} (h : ∀ n : Fin 128, P (Char.ofNat n)) {c : Char}
    (hc : c.toNat < 128) : P c := by
  have hofNat := h ⟨c.toNat, hc⟩
  rwa [Char.ofNat_toNat] at hofNat

theorem ascii_of_toDigit {c : Char} {d : UInt64} (h : Str.toDigit c = some d) : c.toNat < 128 := by
  have hbelow {x : Char} (hx : x.toNat < 128) (hle : c ≤ x) : c.toNat < 128 :=
    Nat.lt_of_le_of_lt (UInt32.le_iff_toNat_le.mp hle) hx
  unfold Str.toDigit at h
  split at h
  · next hdigit => exact hbelow (by decide) hdigit.2
  · split at h
    · next hlower => exact hbelow (by decide) hlower.2
    · split at h
      · next hupper => exact hbelow (by decide) hupper.2
      · cases h

theorem toDigit_toUpper (c : Char) : Str.toDigit c.toUpper = Str.toDigit c := by
  by_cases hc : c.toNat < 128
  · exact forall_ascii (P := fun c => Str.toDigit c.toUpper = Str.toDigit c) (by decide) hc
  · have hsame : c.toUpper = c := by
      refine dif_neg fun h => hc ?_
      exact Nat.lt_of_le_of_lt (UInt32.le_iff_toNat_le.mp h.2) (by decide)
    rw [hsame]

theorem toDigit_spec {c : Char} {d : UInt64} (h : Str.toDigit c = some d) :
    c.utf8Size = 1 ∧ c ∉ ligatures ∧ d.toNat < 16 := by
  have hall := forall_ascii (P := fun c => (Str.toDigit c).isSome →
    c.utf8Size = 1 ∧ c ∉ ligatures ∧ ((Str.toDigit c).getD 0).toNat < 16) (by decide)
    (ascii_of_toDigit h)
  rw [h] at hall
  exact hall rfl

theorem toUppercase_of_notMem {c : Char} (h : c ∉ ligatures) : Str.toUppercase c = [c.toUpper] := by
  simp only [ligatures, List.map_cons, List.map_nil, List.mem_cons, List.not_mem_nil, or_false,
    not_or] at h
  obtain ⟨hff, hfi, hfl, hffi, hffl, ha⟩ := h
  rw [Str.toUppercase, if_neg hff, if_neg hfi, if_neg hfl, if_neg hffi, if_neg hffl, if_neg ha]

theorem ligature_cases {c : Char} (h : c ∈ ligatures) :
    c = Char.ofNat 0xFB00 ∨ c = Char.ofNat 0xFB01 ∨ c = Char.ofNat 0xFB02 ∨ c = Char.ofNat 0xFB03 ∨
      c = Char.ofNat 0xFB04 ∨ c = Char.ofNat 0x1E9A := by
  simpa [ligatures] using h

theorem hexRun_ligature {c : Char} (h : c ∈ ligatures) (s : Str) :
    ∃ d ds, hexRun (Str.toUppercase c ++ s) = d :: ds ∧ d ≠ 0 := by
  rcases ligature_cases h with rfl | rfl | rfl | rfl | rfl | rfl
  all_goals exact ⟨_, _, rfl, by decide⟩

theorem hexRun_lt {s : Str} : ∀ d ∈ hexRun s, d < 16 := by
  induction s with
  | nil => exact List.forall_mem_nil _
  | cons c s ih =>
    rw [hexRun]
    cases hc : Str.toDigit c with
    | none => exact List.forall_mem_nil _
    | some d => exact List.forall_mem_cons.mpr ⟨(toDigit_spec hc).2.2, ih⟩

/-- The character behind the digits is not one that is taken for a digit. -/
def Plain (s : Str) : Prop := ∀ c, s[(hexRun s).length]? = some c → c ∉ ligatures

section Cons

variable {c : Char} (s : Str)

theorem hexRun_cons {d : UInt64} (hc : Str.toDigit c = some d) :
    hexRun (c :: s) = d.toNat :: hexRun s := by
  rw [hexRun, hc]

theorem hexRun_cons_none (hc : Str.toDigit c = none) : hexRun (c :: s) = [] := by
  rw [hexRun, hc]

theorem plain_cons {d : UInt64} (hc : Str.toDigit c = some d) : Plain (c :: s) ↔ Plain s := by
  rw [Plain, hexRun_cons s hc]
  rfl

theorem plain_cons_none (hc : Str.toDigit c = none) : Plain (c :: s) ↔ c ∉ ligatures := by
  rw [Plain, hexRun_cons_none s hc]
  simp

end Cons

/-- **What is read of a string's first bytes**: as many of its digits, unless a ligature adds to
them. -/
theorem hexRun_upper {s start rest : Str} {n : Nat} (h : Str.splitAtByte s n = some (start, rest)) :
    (((hexRun s).length < n → Plain s) ∧
      hexRun (start.flatMap Str.toUppercase) = (hexRun s).take n) ∨
    ((hexRun s).length < n ∧ ¬ Plain s ∧
      ∃ d ds, hexRun (start.flatMap Str.toUppercase) = hexRun s ++ d :: ds ∧ d ≠ 0) := by
  induction s generalizing n start with
  | nil =>
    cases n with
    | zero =>
      cases h
      exact .inl ⟨nofun, rfl⟩
    | succ n => cases h
  | cons c s ih =>
    cases n with
    | zero =>
      cases h
      exact .inl ⟨nofun, rfl⟩
    | succ n =>
      rw [Str.splitAtByte] at h
      split at h
      · obtain ⟨⟨cut, rest'⟩, hcut, hstart⟩ := Option.map_eq_some_iff.mp h
        cases hstart
        rw [List.flatMap_cons]
        cases hc : Str.toDigit c with
        | some d =>
          obtain ⟨hsize, hplain, -⟩ := toDigit_spec hc
          rw [hsize, Nat.add_sub_cancel] at hcut
          have hupper := hexRun_cons (cut.flatMap Str.toUppercase) ((toDigit_toUpper c).trans hc)
          rw [toUppercase_of_notMem hplain, List.singleton_append, hupper, hexRun_cons s hc,
            plain_cons s hc, List.take_succ_cons, List.length_cons, Nat.succ_lt_succ_iff]
          rcases ih hcut with ⟨hp, heq⟩ | ⟨hlt, hp, d', ds, heq, hne⟩
          · exact .inl ⟨hp, congrArg _ heq⟩
          · exact .inr ⟨hlt, hp, d', ds, congrArg _ heq, hne⟩
        | none =>
          rw [hexRun_cons_none s hc, plain_cons_none s hc]
          by_cases hlig : c ∈ ligatures
          · exact .inr ⟨Nat.succ_pos n, not_not_intro hlig, hexRun_ligature hlig _⟩
          · refine .inl ⟨fun _ => hlig, ?_⟩
            rw [toUppercase_of_notMem hlig]
            exact hexRun_cons_none _ ((toDigit_toUpper c).trans hc)
      · cases h

theorem length_hexRun_append_le (s t : Str) :
    (hexRun (s ++ t)).length ≤ s.length + (hexRun t).length := by
  induction s with
  | nil => exact Nat.le_of_eq (Nat.zero_add _).symm
  | cons c s ih =>
    rw [List.cons_append, List.length_cons]
    cases hc : Str.toDigit c with
    | none =>
      rw [hexRun_cons_none _ hc]
      exact Nat.zero_le _
    | some d =>
      rw [hexRun_cons _ hc, List.length_cons]
      omega

theorem length_toUppercase_le (c : Char) : (Str.toUppercase c).length ≤ c.utf8Size := by
  by_cases h : c ∈ ligatures
  · rcases ligature_cases h with rfl | rfl | rfl | rfl | rfl | rfl
    all_goals decide
  · rw [toUppercase_of_notMem h]
    exact c.utf8Size_pos

/-- No more digits are taken in than there are bytes. -/
theorem length_hexRun_upper_le {s start rest : Str} {n : Nat}
    (h : Str.splitAtByte s n = some (start, rest)) :
    (hexRun (start.flatMap Str.toUppercase)).length ≤ n := by
  induction s generalizing n start with
  | nil =>
    cases n with
    | zero =>
      cases h
      exact Nat.le_refl _
    | succ n => cases h
  | cons c s ih =>
    cases n with
    | zero =>
      cases h
      exact Nat.le_refl _
    | succ n =>
      rw [Str.splitAtByte] at h
      split at h
      · obtain ⟨⟨cut, rest'⟩, hcut, hstart⟩ := Option.map_eq_some_iff.mp h
        cases hstart
        rw [List.flatMap_cons]
        have hlen := length_hexRun_append_le (Str.toUppercase c) (cut.flatMap Str.toUppercase)
        have hcut := ih hcut
        have hchar := length_toUppercase_le c
        dsimp only
        omega
      · cases h

/-! ### What is read of a string -/

/-- `get_as_integer` of a string yields the value of its longest prefix of digits. -/
def PrefixRead (order : SdtOrder) (s : Str) : Prop :=
  (AmlValue.String s).getAsInteger order = pure (prefixValue s)

/-- No digit of the prefix is other than zero but in the place where both weights agree. -/
def InPlace (ds : List Nat) : Prop :=
  ∀ j d, ds[j]? = some d → d ≠ 0 → j + 1 + ds.length = 2 * min ds.length 8

theorem stringInteger_eq {s start rest : Str} (h : Str.splitAtByte s 8 = some (start, rest)) :
    AmlValue.stringInteger s =
      pure (UInt64.ofNat (number 256 (hexRun (start.flatMap Str.toUppercase)))) := by
  rw [AmlValue.stringInteger, h]
  exact congrArg (pure : UInt64 → Conv UInt64) (hexDigits_eq _ 0)

theorem pure_inj {i j : UInt64} : (pure i : Conv UInt64) = pure j ↔ i = j := by
  constructor
  · intro h
    cases h
    rfl
  · rintro rfl
    rfl

theorem ofNat_inj {a b : Nat} (ha : a < 2 ^ 64) (hb : b < 2 ^ 64) :
    UInt64.ofNat a = UInt64.ofNat b ↔ a = b := by
  rw [← UInt64.toNat_inj, UInt64.toNat_ofNat_of_lt' ha, UInt64.toNat_ofNat_of_lt' hb]

/-- Digits below 16, in either base, are a word if they are few enough. -/
theorem number_word {b n : Nat} (hb : 16 ≤ b) (hn : b ^ n = 2 ^ 64) {ds : List Nat}
    (hds : ∀ d ∈ ds, d < 16) (hlen : ds.length ≤ n) : number b ds < 2 ^ 64 := by
  have hlt := number_lt (b := b) (by omega) fun d hd => Nat.lt_of_lt_of_le (hds d hd) hb
  exact Nat.lt_of_lt_of_le hlt (hn ▸ Nat.pow_le_pow_right (by omega) hlen)

theorem prefixRead_iff (order : SdtOrder) (s : Str) : PrefixRead order s ↔
    (Str.splitAtByte s 8).isSome ∧ ((hexRun s).length < 8 → Plain s) ∧
      InPlace ((hexRun s).take 16) := by
  show AmlValue.stringInteger s = pure (prefixValue s) ↔ _
  cases hcut : Str.splitAtByte s 8 with
  | none =>
    rw [AmlValue.stringInteger, hcut]
    exact iff_of_false nofun nofun
  | some cut =>
    have htake : ∀ d ∈ (hexRun s).take 16, d < 16 := fun d hd => hexRun_lt d (List.mem_of_mem_take hd)
    rw [stringInteger_eq hcut, pure_inj, prefixValue,
      ofNat_inj (number_word (n := 8) (by decide) (by decide) hexRun_lt (length_hexRun_upper_le hcut))
        (number_word (n := 16) (by decide) (by decide) htake (List.length_take_le _ _)),
      Option.isSome_some, eq_self, true_and]
    rcases hexRun_upper hcut with ⟨hplain, heq⟩ | ⟨hlt, hplain, d, ds, heq, hne⟩
    · have hfirst : (hexRun s).take 8 =
          ((hexRun s).take 16).take (min ((hexRun s).take 16).length 8) := by
        rw [List.take_take, List.take_eq_take_iff, List.length_take]
        omega
      rw [heq, hfirst, number_take_iff htake (Nat.min_le_left _ _), and_iff_right hplain]
      rfl
    · refine iff_of_false (fun h => ?_) fun h => hplain (h.1 hlt)
      rw [heq, List.take_of_length_le (by omega), number_append, number_cons] at h
      have hmono := number_mono (by decide : 16 ≤ 256) (hexRun s)
      have hpos : 0 < 256 ^ (d :: ds).length := Nat.pow_pos (by decide)
      have hle := Nat.le_mul_of_pos_right (number 256 (hexRun s)) hpos
      have hd : 0 < d * 256 ^ ds.length := Nat.mul_pos (Nat.pos_of_ne_zero hne) (Nat.pow_pos (by decide))
      omega

/-! ### Integers as strings -/

/-- An integer as a string and back. -/
def StringBack (order : SdtOrder) (i : UInt64) : Prop :=
  (do
    let s ← (AmlValue.Integer i).getAsString order
    (AmlValue.String s).getAsInteger order) = pure i

def upperDigit (d : Nat) : Char := d.digitChar.toUpper

theorem toDigits_eq {n : Nat} (hn : 0 < n) :
    (Nat.toDigits 16 n).map Char.toUpper = (Nat.digits 16 n).reverse.map upperDigit := by
  induction n using Nat.strongRecOn with
  | ind n ih =>
    rw [Nat.toDigits_eq_if (by decide), Nat.digits_def' (by decide) hn, List.reverse_cons]
    split
    · next hlt =>
      rw [Nat.div_eq_of_lt hlt, Nat.mod_eq_of_lt hlt]
      rfl
    · next hge =>
      rw [List.map_append, List.map_append, ih (n / 16) (by omega) (by omega)]
      rfl

theorem digits_lt (n : Nat) : ∀ d ∈ (Nat.digits 16 n).reverse, d < 16 :=
  fun _ hd => Nat.digits_lt_base (by decide) (List.mem_reverse.mp hd)

theorem upperDigit_spec {d : Nat} (hd : d < 16) :
    Str.toDigit (upperDigit d) = some (UInt64.ofNat d) ∧ (upperDigit d).utf8Size = 1 := by
  have hall : ∀ d : Fin 16, Str.toDigit (upperDigit d) = some (UInt64.ofNat d) ∧
    (upperDigit d).utf8Size = 1 := by decide
  exact hall ⟨d, hd⟩

section Digits

variable {ds : List Nat} (hds : ∀ d ∈ ds, d < 16)

include hds

theorem hexRun_map_upperDigit : hexRun (ds.map upperDigit) = ds := by
  induction ds with
  | nil => rfl
  | cons d ds ih =>
    obtain ⟨hd, hds⟩ := List.forall_mem_cons.mp hds
    rw [List.map_cons, hexRun_cons _ (upperDigit_spec hd).1, ih hds,
      UInt64.toNat_ofNat_of_lt' (by exact Nat.lt_trans hd (by decide))]

theorem splitAtByte_map_upperDigit (n : Nat) :
    (Str.splitAtByte (ds.map upperDigit) n).isSome ↔ n ≤ ds.length := by
  induction ds generalizing n with
  | nil => cases n <;> simp [Str.splitAtByte]
  | cons d ds ih =>
    obtain ⟨hd, hds⟩ := List.forall_mem_cons.mp hds
    cases n with
    | zero => simp [Str.splitAtByte]
    | succ n =>
      rw [List.map_cons, Str.splitAtByte, (upperDigit_spec hd).2, if_pos (by omega),
        Option.isSome_map, Nat.add_sub_cancel, ih hds, List.length_cons, Nat.succ_le_succ_iff]

end Digits

theorem length_digits_le (i : UInt64) : (Nat.digits 16 i.toNat).reverse.length ≤ 16 := by
  rw [List.length_reverse]
  exact (Nat.digits_length_le_iff (by decide) _).mpr i.toNat_lt

theorem number_digits (n : Nat) : number 16 (Nat.digits 16 n).reverse = n := by
  rw [number_eq_ofDigits, List.reverse_reverse, Nat.ofDigits_digits]

/-- A number comes back as what is read of its digits. -/
theorem stringBack_iff_prefixRead (order : SdtOrder) {i : UInt64} (hpos : 0 < i.toNat) :
    StringBack order i ↔ PrefixRead order ((Nat.digits 16 i.toNat).reverse.map upperDigit) := by
  have hstring : Str.upperHex i = (Nat.digits 16 i.toNat).reverse.map upperDigit := toDigits_eq hpos
  have hvalue : prefixValue ((Nat.digits 16 i.toNat).reverse.map upperDigit) = i := by
    rw [prefixValue, hexRun_map_upperDigit (digits_lt i.toNat),
      List.take_of_length_le (length_digits_le i), number_digits, UInt64.ofNat_toNat]
  rw [PrefixRead, hvalue, ← hstring]
  rfl

theorem stringBack_iff (order : SdtOrder) (i : UInt64) :
    StringBack order i ↔ ∃ d, 0 < d ∧ d < 16 ∧ i.toNat = d * 2 ^ 56 := by
  by_cases hzero : i = 0
  · subst hzero
    refine iff_of_false (by nofun) ?_
    rintro ⟨d, hd, -, h⟩
    exact absurd h (Nat.mul_pos hd (by decide)).ne
  have hpos : 0 < i.toNat := Nat.pos_of_ne_zero fun h => hzero (UInt64.toNat_inj.mp h)
  have hds := digits_lt i.toNat
  rw [stringBack_iff_prefixRead order hpos, prefixRead_iff, hexRun_map_upperDigit hds,
    splitAtByte_map_upperDigit hds, List.take_of_length_le (length_digits_le i)]
  constructor
  · rintro ⟨hlen, -, hplace⟩
    have hne : Nat.digits 16 i.toNat ≠ [] := Nat.digits_ne_nil_iff_ne_zero.mpr hpos.ne'
    have hfirst := Nat.getLast_digit_ne_zero 16 hpos.ne'
    have hcons : (Nat.digits 16 i.toNat).reverse =
        (Nat.digits 16 i.toNat).getLast hne :: (Nat.digits 16 i.toNat).dropLast.reverse := by
      rw [← List.reverse_concat, List.dropLast_concat_getLast]
    have hnumber := number_digits i.toNat
    generalize (Nat.digits 16 i.toNat).getLast hne = d at hcons hfirst
    rw [hcons] at hlen hplace hds hnumber
    -- The first digit is other than zero, which leaves room for no other.
    have hlength := hplace 0 d rfl hfirst
    have hzeros : number 16 (Nat.digits 16 i.toNat).dropLast.reverse = 0 := by
      refine (number_eq_zero (by decide)).mpr fun x hx => ?_
      by_contra hx0
      obtain ⟨j, hj⟩ := List.mem_iff_getElem?.mp hx
      have hother := hplace (j + 1) x hj hx0
      omega
    refine ⟨d, Nat.pos_of_ne_zero hfirst, hds d List.mem_cons_self, ?_⟩
    rw [List.length_cons] at hlen hlength
    rw [← hnumber, number_cons, hzeros, Nat.add_zero,
      show (Nat.digits 16 i.toNat).dropLast.reverse.length = 14 by omega]
    rfl
  · rintro ⟨d, hd, hlt, hi⟩
    have hdigits : (Nat.digits 16 i.toNat).reverse = d :: List.replicate 14 0 := by
      rw [hi, Nat.mul_comm, show 2 ^ 56 = 16 ^ 14 from rfl, Nat.digits_base_pow_mul (by decide) hd,
        Nat.digits_of_lt 16 d hd.ne' hlt]
      simp
    rw [hdigits]
    refine ⟨by simp, by simp, ?_⟩
    rintro (_ | j) x hx hne
    · rfl
    · rw [List.getElem?_cons_succ] at hx
      exact absurd (List.eq_of_mem_replicate (List.mem_of_getElem? hx)) hne

/-! ### Integers as buffers -/

/-- An integer as a buffer and back. -/
def BufferBack (order : SdtOrder) (i : UInt64) : Prop :=
  (do
    let b ← (AmlValue.Integer i).getAsBuffer order
    (AmlValue.Buffer b).getAsInteger order) = pure i

theorem foldr_pushBytes {rounds n : Nat} (hn : n < 256 ^ rounds) (hword : n < 2 ^ 64) :
    (AmlValue.pushBytes rounds (UInt64.ofNat n)).foldr
      (fun byte (i : UInt64) => (i <<< 8) + byte.toUInt64) 0 = UInt64.ofNat n := by
  induction rounds generalizing n with
  | zero =>
    rw [Nat.lt_one_iff.mp hn]
    rfl
  | succ rounds ih =>
    rw [AmlValue.pushBytes]
    split
    · next hzero => exact hzero.symm
    · have hshift : UInt64.ofNat n >>> 8 = UInt64.ofNat (n / 256) :=
        ofNat_shiftRight hword (k := 8) (by decide)
      have hbyte : (UInt64.ofNat n).toUInt8.toUInt64 = UInt64.ofNat (n % 256) := by
        rw [← UInt64.toNat_inj]
        simp
        omega
      have hstep := ofNat_shift_add (n / 256) (n % 256) (k := 8) (by decide)
      rw [show n / 256 * 2 ^ 8 + n % 256 = n by omega] at hstep
      rw [List.foldr_cons, hshift, hbyte,
        ih (Nat.div_lt_of_lt_mul (Nat.mul_comm .. ▸ hn)) (by omega)]
      exact hstep

theorem length_pushBytes_le (rounds : Nat) (i : UInt64) :
    (AmlValue.pushBytes rounds i).length ≤ rounds := by
  induction rounds generalizing i with
  | zero => exact Nat.le_refl _
  | succ rounds ih =>
    rw [AmlValue.pushBytes]
    split
    · exact Nat.zero_le _
    · exact Nat.succ_le_succ (ih _)

theorem bufferBack (order : SdtOrder) (i : UInt64) : BufferBack order i := by
  have hlen : (AmlValue.integerBuffer i).length ≤ 8 := by
    rw [AmlValue.integerBuffer, List.length_rightpad]
    exact Nat.max_le.mpr ⟨Nat.le_refl _, length_pushBytes_le 8 i⟩
  have hzeros (k : Nat) : (List.replicate k (0 : UInt8)).foldr
      (fun byte (i : UInt64) => (i <<< 8) + byte.toUInt64) 0 = 0 := by
    induction k with
    | zero => rfl
    | succ k ih =>
      rw [List.replicate_succ, List.foldr_cons, ih]
      rfl
  show AmlValue.bufferInteger (AmlValue.integerBuffer i) = pure i
  rw [AmlValue.bufferInteger, if_neg (by omega), pure_inj, AmlValue.integerBuffer, List.rightpad,
    List.foldr_append, hzeros]
  have hlt : i.toNat < 256 ^ 8 := i.toNat_lt
  have hback := foldr_pushBytes hlt i.toNat_lt
  rwa [UInt64.ofNat_toNat] at hback

/-- **What comes back of an integer, and what is read of a string.** -/
theorem integers_back_iff (order : SdtOrder) (i : UInt64) (s : Str) :
    BufferBack order i ∧
    (StringBack order i ↔ ∃ d, 0 < d ∧ d < 16 ∧ i.toNat = d * 2 ^ 56) ∧
    (PrefixRead order s ↔ (Str.splitAtByte s 8).isSome ∧ ((hexRun s).length < 8 → Plain s) ∧
      InPlace ((hexRun s).take 16)) :=
  ⟨bufferBack order i, stringBack_iff order i, prefixRead_iff order s⟩

/-- **One is written as a string that cannot be read, and the digits of another number are read
eight bits apart.** -/
theorem one_not_read_back :
    (do
      let s ← (AmlValue.Integer 1).getAsString none
      (AmlValue.String s).getAsInteger none) = (stop .panic : Conv UInt64) ∧
    ¬ StringBack none 1 ∧
    (AmlValue.String "12345678".toList).getAsInteger none = pure 0x0102030405060708 ∧
    ¬ PrefixRead none "12345678".toList := by
  refine ⟨rfl, by nofun, rfl, fun h => ?_⟩
  exact absurd (pure_inj.mp h) (by decide)

end Faastr.Aml
