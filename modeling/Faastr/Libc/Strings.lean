import Mathlib.Algebra.Ring.Nat
import Mathlib.Data.List.Basic
import Mathlib.Logic.Function.Basic

/-!
`memmove`, `reverse` and `itoa` of the C library (`libc/string.c`).

A pointer is an integer and memory gives every one of them a byte; pointers of C do not wrap around.
`int` is `Int32`, whose arithmetic is that of two's complement. A loop whose end depends on memory
or on a division counts fuel.

Both loops of `memmove` go down, and only one of them starts at the ends of the two regions.

* `memmove_moves_iff`: `memmove` moves the bytes exactly if the destination begins inside the source,
  or if what it copies instead changes nothing and nothing had to be moved.
* `reverse_put`: `reverse` reverses a string.
* `itoa_prints_iff`: `itoa` prints every number but the smallest, which it does not make positive.
-/

namespace Faastr.Strings

/-- A byte for every address. -/
abbrev Memory := Int → UInt8

/-! ### `memmove` -/

/-- `for (; 0 < len; --len) *--sc1 = *--sc2;` -/
def copyBack (m : Memory) (sc1 sc2 : Int) : Nat → Memory
  | 0 => m
  | len + 1 => copyBack (Function.update m (sc1 - 1) (m (sc2 - 1))) (sc1 - 1) (sc2 - 1) len

def memmove (m : Memory) (dstpp srcpp : Int) (len : Nat) : Int × Memory :=
  if srcpp < dstpp ∧ dstpp < srcpp + len then
    (dstpp, copyBack m (dstpp + len) (srcpp + len) len)
  else (dstpp, copyBack m dstpp srcpp len)

/-- The bytes of the source, as they were, are those of the destination, and no other byte is
different. -/
structure Moves (m : Memory) (dst src : Int) (len : Nat) (m' : Memory) : Prop where
  moved : ∀ i : Nat, i < len → m' (dst + i) = m (src + i)
  others : ∀ a, a < dst ∨ dst + len ≤ a → m' a = m a

section Memmove

variable {m : Memory} {sc1 sc2 dst src a : Int} {len : Nat}

/-- The loop writes below the pointer. -/
theorem copyBack_above (h : sc1 ≤ a) : copyBack m sc1 sc2 len a = m a := by
  induction len generalizing m sc1 sc2 with
  | zero => rfl
  | succ len ih =>
    rw [copyBack, ih (by omega), Function.update_of_ne (by omega)]

theorem copyBack_first : copyBack m sc1 sc2 (len + 1) (sc1 - 1) = m (sc2 - 1) := by
  rw [copyBack, copyBack_above (Int.le_refl _), Function.update_self]

/-- Going down is right when the destination is above the source: what is still to be read has not
been written. -/
theorem copyBack_of_lt (h : sc2 < sc1) (a : Int) :
    copyBack m sc1 sc2 len a = if sc1 - len ≤ a ∧ a < sc1 then m (a - sc1 + sc2) else m a := by
  induction len generalizing m sc1 sc2 with
  | zero =>
    rw [copyBack, if_neg (by omega)]
  | succ len ih =>
    rw [copyBack, ih (by omega)]
    by_cases hfirst : a = sc1 - 1
    · subst hfirst
      rw [if_neg (by omega), Function.update_self, if_pos (by omega)]
      congr 1
      omega
    · by_cases hin : sc1 - 1 - len ≤ a ∧ a < sc1 - 1
      · rw [if_pos hin, if_pos (by omega), Function.update_of_ne (by omega)]
        congr 1
        omega
      · rw [if_neg hin, if_neg (by omega), Function.update_of_ne hfirst]

/-- The loop changes nothing exactly if the bytes below the two pointers are the same. -/
theorem copyBack_eq_self_iff : (∀ a, a < sc1 → copyBack m sc1 sc2 len a = m a) ↔
    ∀ i : Nat, i < len → m (sc1 - 1 - i) = m (sc2 - 1 - i) := by
  induction len generalizing sc1 sc2 with
  | zero => exact iff_of_true (fun _ _ => rfl) nofun
  | succ len ih =>
    have hsame : m (sc1 - 1) = m (sc2 - 1) →
        copyBack m sc1 sc2 (len + 1) = copyBack m (sc1 - 1) (sc2 - 1) len := by
      intro heq
      rw [copyBack, ← heq, Function.update_eq_self]
    have hstep : ∀ i : Nat, m (sc1 - 1 - (i + 1 : Nat)) = m (sc2 - 1 - (i + 1 : Nat)) ↔
        m (sc1 - 1 - 1 - i) = m (sc2 - 1 - 1 - i) := by
      intro i
      rw [show sc1 - 1 - ((i + 1 : Nat) : Int) = sc1 - 1 - 1 - i by omega,
        show sc2 - 1 - ((i + 1 : Nat) : Int) = sc2 - 1 - 1 - i by omega]
    constructor
    · intro hself i hi
      have hfirst : m (sc1 - 1) = m (sc2 - 1) := by
        rw [← hself (sc1 - 1) (by omega), copyBack_first]
      rw [hsame hfirst] at hself
      cases i with
      | zero => simpa using hfirst
      | succ i => exact (hstep i).mpr (ih.mp (fun a ha => hself a (by omega)) i (by omega))
    · intro hall a ha
      have hfirst : m (sc1 - 1) = m (sc2 - 1) := by simpa using hall 0 (by omega)
      rw [hsame hfirst]
      by_cases htop : sc1 - 1 ≤ a
      · exact copyBack_above htop
      · exact ih.mpr (fun i hi => (hstep i).mp (hall (i + 1) (by omega))) a (by omega)

/-- **When `memmove` moves the bytes.** The first branch always does. The second copies the bytes
below the two regions instead: it is right only if these were the same, and the regions as well. -/
theorem memmove_moves_iff (m : Memory) (dst src : Int) (len : Nat) :
    Moves m dst src len (memmove m dst src len).2 ↔ (src < dst ∧ dst < src + len) ∨
      ∀ i : Nat, i < len → m (dst + i) = m (src + i) ∧ m (dst - 1 - i) = m (src - 1 - i) := by
  by_cases hinside : src < dst ∧ dst < src + len
  · refine iff_of_true ?_ (.inl hinside)
    have hlt : src + len < dst + len := by omega
    have hcopied : ∀ a, copyBack m (dst + len) (src + len) len a = _ := copyBack_of_lt hlt
    rw [memmove, if_pos hinside]
    dsimp only
    refine ⟨fun i hi => ?_, fun a ha => ?_⟩
    · rw [hcopied, if_pos (by omega)]
      congr 1
      omega
    · rw [hcopied, if_neg (by omega)]
  · rw [or_iff_right hinside, memmove, if_neg hinside]
    dsimp only
    constructor
    · rintro ⟨hmoved, hothers⟩ i hi
      refine ⟨?_, copyBack_eq_self_iff.mp (fun a ha => hothers a (.inl ha)) i hi⟩
      rw [← hmoved i hi]
      exact (copyBack_above (by omega)).symm
    · intro hall
      have hself := copyBack_eq_self_iff.mpr fun i hi => (hall i hi).2
      refine ⟨fun i hi => ?_, fun a ha => ?_⟩
      · rw [copyBack_above (by omega)]
        exact (hall i hi).1
      · by_cases hlt : a < dst
        · exact hself a hlt
        · exact copyBack_above (Int.not_lt.mp hlt)

end Memmove

/-- One byte at address 0 is to be moved to address 10. -/
theorem memmove_apart : ¬ Moves (fun a => if a = 0 then 1 else 0) 10 0 1
    (memmove (fun a => if a = 0 then 1 else 0) 10 0 1).2 := by
  rintro ⟨hmoved, -⟩
  exact absurd (hmoved 0 (by decide)) (by decide)

/-- Regions that overlap, with the destination behind the source. -/
theorem memmove_overlapping : (0 : Int) < 1 ∧ (1 : Int) < 0 + (2 : Nat) ∧
    Moves (fun a => if a = 0 then 1 else 0) 1 0 2 (memmove (fun a => if a = 0 then 1 else 0) 1 0 2).2 :=
  ⟨by decide, by decide, (memmove_moves_iff _ 1 0 2).mpr (.inl (by decide))⟩

/-! ### Bytes in memory -/

/-- Bytes that were written from an address on. -/
def put (m : Memory) (s : Int) (l : List UInt8) : Memory :=
  fun a => if s ≤ a ∧ a < s + l.length then l.getD (a - s).toNat 0 else m a

section Put

variable {m : Memory} {s : Int} {l r : List UInt8} {x y : UInt8}

@[simp] theorem put_nil : put m s [] = m := by
  funext a
  rw [put, List.length_nil, if_neg (by omega)]

theorem put_append_cons : put m s (l ++ x :: r) (s + l.length) = x := by
  have hin : s ≤ s + l.length ∧ s + l.length < s + (l ++ x :: r).length := by
    rw [List.length_append, List.length_cons]
    omega
  rw [put, if_pos hin, show (s + l.length - s).toNat = l.length by omega]
  simp

theorem put_getElem {i : Nat} (h : i < l.length) : put m s l (s + i) = l[i] := by
  rw [put, if_pos (by omega), show (s + i - s).toNat = i by omega, List.getD_eq_getElem?_getD,
    List.getElem?_eq_getElem h]
  rfl

/-- One of the bytes is written again. -/
theorem update_put : Function.update (put m s (l ++ x :: r)) (s + l.length) y =
    put m s (l ++ y :: r) := by
  funext a
  by_cases ha : a = s + l.length
  · subst ha
    rw [Function.update_self, put_append_cons]
  · rw [Function.update_of_ne ha, put, put]
    have hlength : (l ++ x :: r).length = (l ++ y :: r).length := by simp
    rw [hlength]
    split
    · next hin =>
      have hne : (a - s).toNat ≠ l.length := by omega
      rw [List.getD_eq_getElem?_getD, List.getD_eq_getElem?_getD, List.getElem?_append,
        List.getElem?_append]
      split
      · rfl
      · rw [List.getElem?_cons, List.getElem?_cons, if_neg (by omega), if_neg (by omega)]
    · rfl

/-- The bytes go on by one. -/
theorem update_put_end : Function.update (put m s l) (s + l.length) y = put m s (l ++ [y]) := by
  funext a
  by_cases ha : a = s + l.length
  · subst ha
    rw [Function.update_self, put_append_cons]
  · rw [Function.update_of_ne ha, put, put, List.length_append, List.length_singleton]
    by_cases hin : s ≤ a ∧ a < s + l.length
    · rw [if_pos hin, if_pos (by omega), List.getD_eq_getElem?_getD, List.getD_eq_getElem?_getD,
        List.getElem?_append_left (by omega)]
    · rw [if_neg hin, if_neg (by omega)]

end Put

/-! ### `reverse` -/

/-- `strlen`: how far it is to the next zero. -/
def strlen : Nat → Memory → Int → Option Nat
  | 0, _, _ => none
  | fuel + 1, m, s => if m s = 0 then some 0 else (strlen fuel m (s + 1)).map (· + 1)

/-- The loop of `reverse`. -/
def swapLoop : Nat → Memory → Int → Int → Int → Option Memory
  | 0, _, _, _, _ => none
  | fuel + 1, m, s, i, j =>
      if i < j then
        let c := m (s + i)
        let m := Function.update m (s + i) (m (s + j))
        let m := Function.update m (s + j) c
        swapLoop fuel m s (i + 1) (j - 1)
      else some m

def reverse (fuel : Nat) (m : Memory) (s : Int) : Option Memory := do
  let length ← strlen fuel m s
  swapLoop fuel m s 0 (length - 1)

section Reverse

variable {m : Memory} {s : Int}

theorem strlen_put {l r : List UInt8} (hl : ∀ b ∈ l, b ≠ 0) {fuel : Nat} (hfuel : l.length < fuel) :
    strlen fuel (put m s (r ++ l ++ [0])) (s + r.length) = some l.length := by
  induction l generalizing r fuel with
  | nil =>
    obtain ⟨fuel, rfl⟩ := Nat.exists_eq_add_of_lt hfuel
    rw [List.append_nil, strlen, if_pos put_append_cons]
    rfl
  | cons x l ih =>
    obtain ⟨hx, hl⟩ := List.forall_mem_cons.mp hl
    cases fuel with
    | zero => cases hfuel
    | succ fuel =>
      have hnext : s + (r.length : Int) + 1 = s + ((r ++ [x]).length : Nat) := by
        rw [List.length_append, List.length_singleton]
        omega
      have hlist : r ++ x :: l ++ [0] = r ++ [x] ++ l ++ [0] := by simp
      have hbyte : put m s (r ++ x :: l ++ [0]) (s + r.length) = x := by
        rw [List.append_assoc, List.cons_append, put_append_cons]
      rw [strlen, hbyte, if_neg hx, hnext, hlist, ih hl (Nat.lt_of_succ_lt_succ hfuel)]
      rfl

/-- The bytes between the two indices are reversed, from the outside in. -/
theorem swapLoop_put {fuel : Nat} {l mid r : List UInt8} (hfuel : mid.length < fuel) :
    swapLoop fuel (put m s (l ++ mid ++ r)) s l.length (l.length + mid.length - 1) =
      some (put m s (l ++ mid.reverse ++ r)) := by
  induction fuel generalizing l mid r with
  | zero => cases hfuel
  | succ fuel ih =>
    cases mid with
    | nil =>
      rw [swapLoop, if_neg (by simp only [List.length_nil]; omega)]
      rfl
    | cons x mid =>
      rcases List.eq_nil_or_concat' mid with rfl | ⟨mid, y, rfl⟩
      · rw [swapLoop, if_neg (by simp)]
        rfl
      · have hlast : (l.length : Int) + ((x :: (mid ++ [y])).length : Nat) - 1 =
            ((l ++ x :: mid).length : Nat) := by
          simp only [List.length_cons, List.length_append, List.length_nil]
          omega
        have hlast' : ((l ++ x :: mid).length : Int) = ((l ++ y :: mid).length : Nat) := by simp
        have hi : put m s (l ++ x :: (mid ++ [y]) ++ r) (s + l.length) = x := by
          rw [List.append_assoc, List.cons_append, put_append_cons]
        have hj : put m s (l ++ x :: (mid ++ [y]) ++ r) (s + (l ++ x :: mid).length) = y := by
          rw [show l ++ x :: (mid ++ [y]) ++ r = l ++ x :: mid ++ y :: r by simp, put_append_cons]
        have hfirst : Function.update (put m s (l ++ x :: (mid ++ [y]) ++ r)) (s + l.length) y =
            put m s (l ++ y :: mid ++ y :: r) := by
          rw [show l ++ x :: (mid ++ [y]) ++ r = l ++ x :: (mid ++ y :: r) by simp, update_put]
          simp
        have hinner : ((l ++ x :: mid).length : Int) - 1 = ((l ++ [y]).length : Nat) + mid.length - 1 := by
          simp only [List.length_append, List.length_cons, List.length_nil]
          omega
        have hnext : (l.length : Int) + 1 = ((l ++ [y]).length : Nat) := by simp
        have hfuel' : mid.length < fuel := by
          simp only [List.length_cons, List.length_append, List.length_nil] at hfuel
          omega
        have hlt : (l.length : Int) < (l ++ x :: mid).length := by
          rw [List.length_append, List.length_cons]
          omega
        rw [swapLoop, hlast, if_pos hlt]
        dsimp only
        rw [hi, hj, hfirst, hinner, hlast', update_put, hnext,
          show l ++ y :: mid ++ x :: r = l ++ [y] ++ mid ++ x :: r by simp, ih hfuel']
        simp

/-- `reverse` reverses a string. -/
theorem reverse_put {l : List UInt8} (hl : ∀ b ∈ l, b ≠ 0) {fuel : Nat} (hfuel : l.length < fuel) :
    reverse fuel (put m s (l ++ [0])) s = some (put m s (l.reverse ++ [0])) := by
  have hlength : strlen fuel (put m s (l ++ [0])) (s + 0) = some l.length := strlen_put (r := []) hl hfuel
  have hswap : swapLoop fuel (put m s (l ++ [0])) s 0 (0 + l.length - 1) =
      some (put m s (l.reverse ++ [0])) := swapLoop_put (l := []) hfuel
  rw [Int.add_zero] at hlength
  rw [Int.zero_add] at hswap
  rw [reverse, hlength]
  exact hswap

end Reverse

/-! ### `itoa` -/

/-- `int` to `char`. -/
def toChar (n : Int32) : UInt8 := n.toUInt32.toUInt8

/-- `do { s[i++] = n % 10 + '0'; } while ((n /= 10) > 0);` -/
def digitLoop : Nat → Memory → Int → Nat → Int32 → Option (Memory × Nat)
  | 0, _, _, _, _ => none
  | fuel + 1, m, s, i, n =>
      let m := Function.update m (s + i) (toChar (n % 10 + 48))
      if 0 < n / 10 then digitLoop fuel m s (i + 1) (n / 10) else some (m, i + 1)

def itoa (fuel : Nat) (m : Memory) (n : Int32) (s : Int) : Option (Nat × Memory) := do
  let sign := n
  let (m, i) ← digitLoop fuel m s 0 (if sign < 0 then -n else n)
  let (m, i) := if sign < 0 then (Function.update m (s + i) 45, i + 1) else (m, i)
  let m := Function.update m (s + i) 0
  let m ← reverse fuel m s
  return (i, m)

/-- The number that digits stand for. -/
def readDigits (ds : List UInt8) : Nat := ds.foldl (fun k d => 10 * k + (d.toNat - 48)) 0

/-- The number that a numeral stands for. -/
def readNumeral : List UInt8 → Int
  | [] => 0
  | c :: cs => if c = 45 then -readDigits cs else readDigits (c :: cs)

/-- The decimal digits of a number, without zeros at the front. -/
structure IsDecimal (k : Nat) (ds : List UInt8) : Prop where
  ne_nil : ds ≠ []
  digit : ∀ d ∈ ds, 48 ≤ d ∧ d ≤ 57
  canonical : ds.head? = some 48 → ds = [48]
  value : readDigits ds = k

/-- The numeral of a number: digits, behind a sign if it is negative. -/
def IsNumeral (z : Int) (text : List UInt8) : Prop :=
  ∃ ds, IsDecimal z.natAbs ds ∧ text = (if z < 0 then [45] else []) ++ ds

/-- What is asked of `itoa`: it returns the length of the numeral, which stands at `s` with a zero
behind it and reads back as the number. -/
def Prints (fuel : Nat) (m : Memory) (n : Int32) (s : Int) : Prop :=
  ∃ text m', itoa fuel m n s = some (text.length, m') ∧ IsNumeral n.toInt text ∧
    (∀ i (h : i < text.length), m' (s + i) = text[i]) ∧ m' (s + text.length) = 0 ∧
    readNumeral text = n.toInt

section Itoa

variable {m : Memory} {s : Int} {k : Nat} {ds : List UInt8}

theorem readDigits_concat (d : UInt8) : readDigits (ds ++ [d]) = 10 * readDigits ds + (d.toNat - 48) := by
  rw [readDigits, readDigits, List.foldl_append]
  rfl

/-- The byte of a digit. -/
def digitByte (r : Nat) : UInt8 := UInt8.ofNat (48 + r)

theorem digitByte_spec : ∀ r < 10, 48 ≤ digitByte r ∧ digitByte r ≤ 57 ∧ (digitByte r).toNat - 48 = r ∧
    (digitByte r = 48 → r = 0) ∧ toChar (Int32.ofNat r + 48) = digitByte r := by
  decide

theorem isDecimal_digitByte {r : Nat} (h : r < 10) : IsDecimal r [digitByte r] := by
  obtain ⟨hlo, hhi, hvalue, -, -⟩ := digitByte_spec r h
  refine ⟨List.cons_ne_nil _ _, ?_, ?_, ?_⟩
  · intro d hd
    cases List.mem_singleton.mp hd
    exact ⟨hlo, hhi⟩
  · intro hhead
    rw [Option.some.inj hhead]
  · rw [← List.nil_append [digitByte r], readDigits_concat, hvalue]
    exact Nat.zero_add r

theorem IsDecimal.concat (h : IsDecimal (k / 10) ds) (hk : 0 < k / 10) :
    IsDecimal k (ds ++ [digitByte (k % 10)]) := by
  obtain ⟨hlo, hhi, hvalue, -, -⟩ := digitByte_spec (k % 10) (Nat.mod_lt k (by decide))
  refine ⟨by simp, ?_, ?_, ?_⟩
  · intro d hd
    rcases List.mem_append.mp hd with hd | hd
    · exact h.digit d hd
    · cases List.mem_singleton.mp hd
      exact ⟨hlo, hhi⟩
  · intro hhead
    rw [List.head?_append_of_ne_nil _ h.ne_nil] at hhead
    have hzero := h.value
    rw [h.canonical hhead] at hzero
    exact absurd hzero (by simp [readDigits]; omega)
  · rw [readDigits_concat, h.value, hvalue]
    exact Nat.div_add_mod k 10

theorem ofNat_div (h : k < 2 ^ 31) : Int32.ofNat k / 10 = Int32.ofNat (k / 10) := by
  rw [← Int32.toInt_inj, Int32.toInt_div_of_ne_right _ _ (by decide), Int32.toInt_ofNat_of_lt h,
    Int32.toInt_ofNat_of_lt (by omega)]
  rfl

theorem ofNat_mod (h : k < 2 ^ 31) : Int32.ofNat k % 10 = Int32.ofNat (k % 10) := by
  rw [← Int32.toInt_inj, Int32.toInt_mod, Int32.toInt_ofNat_of_lt h,
    Int32.toInt_ofNat_of_lt (by omega)]
  rfl

theorem ofNat_pos (h : k < 2 ^ 31) : 0 < Int32.ofNat k ↔ 0 < k := by
  rw [Int32.lt_iff_toInt_lt, Int32.toInt_ofNat_of_lt h]
  exact Int.natCast_pos

/-- The digits come out last one first. -/
theorem digitLoop_put {fuel : Nat} {l : List UInt8} (h : k < 2 ^ 31) (hfuel : k < 10 ^ fuel)
    (hpos : 0 < fuel) : ∃ ds, IsDecimal k ds ∧ (∀ d, 0 < d → k < 10 ^ d → ds.length ≤ d) ∧
      digitLoop fuel (put m s l) s l.length (Int32.ofNat k) =
        some (put m s (l ++ ds.reverse), (l ++ ds.reverse).length) := by
  induction fuel generalizing k l with
  | zero => cases hpos
  | succ fuel ih =>
    have hmod := Nat.mod_lt k (by decide : 0 < 10)
    obtain ⟨-, -, -, -, hchar⟩ := digitByte_spec (k % 10) hmod
    have hbyte : toChar (Int32.ofNat k % 10 + 48) = digitByte (k % 10) := by rw [ofNat_mod h, hchar]
    have hdiv : k / 10 < 2 ^ 31 := Nat.lt_of_le_of_lt (Nat.div_le_self k 10) h
    rw [digitLoop, hbyte, update_put_end, ofNat_div h]
    by_cases hk : 0 < k / 10
    · have hfuel' : k / 10 < 10 ^ fuel := by
        rw [Nat.pow_succ] at hfuel
        omega
      have hpos' : 0 < fuel := by
        cases fuel with
        | zero => omega
        | succ fuel => exact Nat.succ_pos fuel
      obtain ⟨ds, hds, hlength, hrun⟩ := ih (l := l ++ [digitByte (k % 10)]) hdiv hfuel' hpos'
      refine ⟨ds ++ [digitByte (k % 10)], hds.concat hk, fun d hd hkd => ?_, ?_⟩
      · obtain ⟨d, rfl⟩ := Nat.exists_eq_succ_of_ne_zero (Nat.ne_of_gt hd)
        rw [Nat.pow_succ] at hkd
        have hd' : 0 < d := by
          cases d with
          | zero => omega
          | succ d => exact Nat.succ_pos d
        rw [List.length_append, List.length_singleton]
        exact Nat.succ_le_succ (hlength d hd' (by omega))
      rw [if_pos ((ofNat_pos hdiv).mpr hk)]
      rw [List.length_append, List.length_singleton] at hrun
      rw [hrun, List.reverse_append, List.reverse_singleton, List.append_assoc]
    · refine ⟨[digitByte (k % 10)], ?_, fun d hd _ => hd, ?_⟩
      · have hsmall : k % 10 = k := by omega
        have hone := isDecimal_digitByte hmod
        rwa [hsmall] at hone ⊢
      · rw [if_neg (fun hp => hk ((ofNat_pos hdiv).mp hp)), List.reverse_singleton,
          List.length_append, List.length_singleton]

/-- What `itoa` does once the digits are there: the sign goes behind them, and all is reversed. -/
theorem itoa_of_digitLoop {fuel : Nat} {n : Int32} {l : List UInt8} (hl : ∀ b ∈ l, b ≠ 0)
    (hfuel : l.length + 1 < fuel)
    (hloop : digitLoop fuel m s 0 (if n < 0 then -n else n) = some (put m s l, l.length)) :
    itoa fuel m n s = some (((if n < 0 then [45] else []) ++ l.reverse).length,
      put m s ((if n < 0 then [45] else []) ++ l.reverse ++ [0])) := by
  rw [itoa, hloop]
  by_cases hn : n < 0
  · have hall : ∀ b ∈ l ++ [45], b ≠ 0 := by
      intro b hb
      rcases List.mem_append.mp hb with hb | hb
      · exact hl b hb
      · cases List.mem_singleton.mp hb
        decide
    have hlength : (l ++ [45]).length = l.length + 1 := by simp
    have hrev : reverse fuel (put m s (l ++ [45] ++ [0])) s = _ := reverse_put hall (hlength ▸ hfuel)
    have hend : Function.update (put m s (l ++ [45])) (s + (l.length + 1 : Nat)) 0 =
        put m s (l ++ [45] ++ [0]) := hlength ▸ update_put_end
    simp only [if_pos hn, Option.bind_eq_bind, Option.bind_some, update_put_end, hend, hrev]
    simp
  · have hrev : reverse fuel (put m s (l ++ [0])) s = _ := reverse_put hl (by omega)
    simp only [if_neg hn, Option.bind_eq_bind, Option.bind_some, update_put_end, hrev]
    simp

/-- Every number but the smallest can be made positive. -/
theorem magnitude_eq {n : Int32} (h : n ≠ Int32.minValue) :
    n.toInt.natAbs < 2 ^ 31 ∧ (if n < 0 then -n else n) = Int32.ofNat n.toInt.natAbs := by
  have hlo := n.le_toInt
  have hhi := n.toInt_lt
  have hne : n.toInt ≠ -2 ^ 31 := fun heq => h (Int32.toInt_inj.mp heq)
  have hlt : n.toInt.natAbs < 2 ^ 31 := by omega
  refine ⟨hlt, ?_⟩
  rw [← Int32.toInt_inj, Int32.toInt_ofNat_of_lt hlt]
  split
  · next hneg =>
    have hneg : n.toInt < 0 := Int32.lt_iff_toInt_lt.mp hneg
    rw [Int32.toInt_neg, Int.bmod_eq_of_le (by omega) (by omega)]
    omega
  · next hpos =>
    have hpos : ¬ n.toInt < 0 := fun hneg => hpos (Int32.lt_iff_toInt_lt.mpr hneg)
    omega

/-- What `itoa` leaves, and nothing else is written. -/
theorem itoa_eq {n : Int32} (h : n ≠ Int32.minValue) {fuel : Nat} (hfuel : 12 ≤ fuel) :
    ∃ text, IsNumeral n.toInt text ∧ text.length ≤ 11 ∧
      itoa fuel m n s = some (text.length, put m s (text ++ [0])) := by
  obtain ⟨hlt, hmagnitude⟩ := magnitude_eq h
  have hten : n.toInt.natAbs < 10 ^ 10 := Nat.lt_trans hlt (by decide)
  have hpow : n.toInt.natAbs < 10 ^ fuel :=
    Nat.lt_of_lt_of_le hten (Nat.pow_le_pow_right (by decide) (by omega))
  obtain ⟨ds, hds, hlength, hloop⟩ := digitLoop_put (m := m) (s := s) (l := []) hlt hpow (by omega)
  have hdigits := hlength 10 (by decide) hten
  rw [put_nil, List.nil_append, ← hmagnitude] at hloop
  have hne : ∀ b ∈ ds.reverse, b ≠ 0 := by
    rintro b hb rfl
    exact absurd (hds.digit 0 (List.mem_reverse.mp hb)).1 (by decide)
  have hrun := itoa_of_digitLoop hne (by rw [List.length_reverse]; omega) hloop
  rw [List.reverse_reverse] at hrun
  have hsign : n < 0 ↔ n.toInt < 0 := Int32.lt_iff_toInt_lt
  simp only [hsign] at hrun
  refine ⟨_, ⟨ds, hds, rfl⟩, ?_, hrun⟩
  split
  · rw [List.length_append, List.length_singleton]
    omega
  · rw [List.length_append, List.length_nil]
    omega

/-- A numeral reads back as its number. -/
theorem IsNumeral.read {z : Int} {text : List UInt8} (h : IsNumeral z text) : readNumeral text = z := by
  obtain ⟨ds, hds, rfl⟩ := h
  split
  · next hneg =>
    rw [List.singleton_append, readNumeral, if_pos rfl, hds.value]
    omega
  · next hpos =>
    rw [List.nil_append]
    cases ds with
    | nil => exact absurd rfl hds.ne_nil
    | cons d ds =>
      have hd : d ≠ 45 := by
        rintro rfl
        exact absurd (hds.digit 45 List.mem_cons_self).1 (by decide)
      rw [readNumeral, if_neg hd, hds.value]
      omega

/-- The smallest number is its own negative: its last digit is taken from a negative number, and
there the loop ends. -/
theorem itoa_minValue {fuel : Nat} (hfuel : 12 ≤ fuel) :
    itoa fuel m Int32.minValue s = some (2, put m s [45, 40, 0]) := by
  obtain ⟨fuel, rfl⟩ := Nat.exists_eq_add_of_le' (Nat.le_trans (by decide : 1 ≤ 12) hfuel)
  have hloop : digitLoop (fuel + 1) m s 0 (if Int32.minValue < 0 then -Int32.minValue else Int32.minValue) =
      some (put m s [40], 1) := by
    have hfirst : Function.update m (s + (0 : Nat)) 40 = put m s [40] := by
      have hput := update_put_end (m := m) (s := s) (l := []) (y := 40)
      rwa [put_nil] at hput
    rw [digitLoop, if_neg (by decide), show toChar (_ % 10 + 48) = 40 by decide, hfirst]
  exact itoa_of_digitLoop (l := [40]) (by simp) (Nat.lt_of_lt_of_le (by decide) hfuel) hloop

theorem not_prints_minValue {fuel : Nat} (hfuel : 12 ≤ fuel) : ¬ Prints fuel m Int32.minValue s := by
  rintro ⟨text, m', hrun, ⟨ds, hds, htext⟩, hbytes, -, -⟩
  rw [itoa_minValue hfuel] at hrun
  obtain ⟨-, rfl⟩ := Prod.mk.inj (Option.some.inj hrun)
  rw [if_pos (by decide)] at htext
  subst htext
  have hbyte : put m s [45, 40, 0] (s + (1 : Nat)) = 40 := put_getElem (by decide)
  cases ds with
  | nil => exact hds.ne_nil rfl
  | cons d ds =>
    have hd : put m s [45, 40, 0] (s + (1 : Nat)) = d := hbytes 1 (by simp)
    obtain rfl : 40 = d := hbyte.symm.trans hd
    exact absurd (hds.digit 40 List.mem_cons_self).1 (by decide)

/-- **When `itoa` prints the number.** -/
theorem itoa_prints_iff (m : Memory) (n : Int32) (s : Int) {fuel : Nat} (hfuel : 12 ≤ fuel) :
    Prints fuel m n s ↔ n ≠ Int32.minValue := by
  constructor
  · rintro hprints rfl
    exact not_prints_minValue hfuel hprints
  · intro h
    obtain ⟨text, htext, -, hrun⟩ := itoa_eq (m := m) (s := s) h hfuel
    refine ⟨text, _, hrun, htext, fun i hi => ?_, put_append_cons, htext.read⟩
    rw [put_getElem (by simp; omega), List.getElem_append_left hi]

end Itoa

/-- The smallest number comes out as a sign and a parenthesis. -/
theorem itoa_smallest : ¬ Prints 12 (fun _ => 0) Int32.minValue 0 := not_prints_minValue (by decide)

theorem itoa_prints_negative : Prints 12 (fun _ => 0) (-120) 0 :=
  (itoa_prints_iff _ _ _ (by decide)).mpr (by decide)

end Faastr.Strings
