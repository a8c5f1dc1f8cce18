import Faastr.Lib.ByteMemory

/-!
The memory primitives the compiler calls.

`memcpy`, `memmove`, `memset` and `memcmp` of `externs.rs` work on a word at a
time and finish with single bytes. A pointer is its address, pointer arithmetic
is modulo `2 ^ 64`, and a loop keeps the index `i` the code keeps.

- The upward copy loop is right when the destination does not lie above a source
  it overlaps (`copyUp_apply`), the downward one when it does not lie below
  (`copyDown_apply`).
- `memcpy`, `memset` and `memcmp` mean what they mean byte by byte
  (`word_primitives_bytewise`).
- `memmove` to a higher address copies its last bytes after the words, so it
  loses those that the words were copied over (`memmove_copies_iff`).
-/

namespace Faastr.Externs

open Faastr.Lib Faastr.Lib.ByteMemory

/-! ### Accesses -/

/-- What a pointer points to: `u8` or `usize`. -/
inductive Width where
  | byte
  | word
deriving DecidableEq, Repr

/-- `WORD_SIZE`, the size of `usize`. -/
def wordSize : Nat := 8

/-- The bytes one access moves, and what the loops add to `i`. -/
def Width.size : Width → Nat
  | .byte => 1
  | .word => wordSize

theorem Width.size_pos (w : Width) : 0 < w.size := by cases w <;> decide

/-- A loop that has a whole number of accesses left makes one and has a whole number
left. -/
theorem Width.step_fits (w : Width) {hi i : Nat} (hwidth : w.size ∣ hi - i) (hlt : i < hi) :
    i + w.size ≤ hi ∧ w.size ∣ hi - (i + w.size) := by
  have hstep : w.size ≤ hi - i := Nat.le_of_dvd (by omega) hwidth
  refine ⟨by omega, ?_⟩
  rw [Nat.sub_add_eq]
  exact Nat.dvd_sub hwidth (Nat.dvd_refl _)

/-- `p as usize + i`. -/
def offset (p i : Nat) : Nat := (p + i) % 2 ^ 64

theorem offset_eq {p n i : Nat} (hp : p + n ≤ 2 ^ 64) (hi : i < n) : offset p i = p + i :=
  Nat.mod_eq_of_lt (by omega)

/-- `*((dest as usize + i) as *mut T) = *((src as usize + i) as *const T)`. -/
def copyAt (w : Width) (dest src i : Nat) (m : ByteMemory) : ByteMemory :=
  storeLe w.size m (offset dest i) (loadLe w.size m (offset src i))

/-- `while i < hi` of a copy: one access, then `i += w.size`. -/
def copyUp (w : Width) (dest src hi i : Nat) (m : ByteMemory) : ByteMemory :=
  if i < hi then copyUp w dest src hi (i + w.size) (copyAt w dest src i m) else m
termination_by hi - i
decreasing_by
  have := w.size_pos
  omega

/-- `while i != lo` of a copy, from `i = lo + count * w.size` on: `i -= w.size`,
then one access. -/
def copyDown (w : Width) (dest src lo : Nat) : Nat → ByteMemory → ByteMemory
  | 0, m => m
  | count + 1, m => copyDown w dest src lo count (copyAt w dest src (lo + count * w.size) m)

/-- `while i < hi` of a fill. -/
def fillUp (w : Width) (dest value hi i : Nat) (m : ByteMemory) : ByteMemory :=
  if i < hi then fillUp w dest value hi (i + w.size) (storeLe w.size m (offset dest i) value)
  else m
termination_by hi - i
decreasing_by
  have := w.size_pos
  omega

/-! ### The primitives -/

/-- `memcpy`: the pointer returned and the memory left. -/
def memcpy (dest src n : Nat) (m : ByteMemory) : Nat × ByteMemory :=
  let nFast := n / wordSize * wordSize
  (dest, copyUp .byte dest src n nFast (copyUp .word dest src nFast 0 m))

/-- `memmove`. -/
def memmove (dest src n : Nat) (m : ByteMemory) : Nat × ByteMemory :=
  if src < dest then
    let nUsize := n / wordSize
    (dest, copyDown .byte dest src (nUsize * wordSize) (n - nUsize * wordSize)
      (copyDown .word dest src 0 nUsize m))
  else
    let nFast := n / wordSize * wordSize
    (dest, copyUp .byte dest src n nFast (copyUp .word dest src nFast 0 m))

/-- `memset`. -/
def memset (dest : Nat) (c : Int32) (n : Nat) (m : ByteMemory) : Nat × ByteMemory :=
  -- `mem::transmute([c as u8; WORD_SIZE])`
  let c := leNat (List.replicate wordSize c.toUInt32.toUInt8)
  let nFast := n / wordSize * wordSize
  let m := fillUp .word dest c nFast 0 m
  let c := UInt8.ofNat c
  (dest, fillUp .byte dest c.toNat n nFast m)

/-- `a as i32 - b as i32`. -/
def byteDifference (a b : UInt8) : Int := (a.toNat : Int) - b.toNat

/-- `while i < hi` of the byte comparison: the value returned, if the loop returns. -/
def memcmpBytes (s1 s2 : Nat) (m : ByteMemory) (hi i : Nat) : Option Int :=
  if i < hi then
    let a := m (offset s1 i)
    let b := m (offset s2 i)
    if a ≠ b then some (byteDifference a b) else memcmpBytes s1 s2 m hi (i + 1)
  else none
termination_by hi - i

/-- `while i < n_fast` of the word comparison: the value returned, or `i` after the
loop. -/
def memcmpWords (s1 s2 : Nat) (m : ByteMemory) (nFast i : Nat) : Except Int Nat :=
  if i < nFast then
    let a := loadLe wordSize m (offset s1 i)
    let b := loadLe wordSize m (offset s2 i)
    if a ≠ b then
      match memcmpBytes s1 s2 m (i + wordSize) i with
      | some difference => .error difference
      -- The search shares `i` with the loop around it and leaves it behind the word.
      | none => memcmpWords s1 s2 m nFast (i + wordSize + wordSize)
    else memcmpWords s1 s2 m nFast (i + wordSize)
  else .ok i
termination_by nFast - i
decreasing_by all_goals simp only [wordSize]; omega

/-- `memcmp`. -/
def memcmp (s1 s2 n : Nat) (m : ByteMemory) : Int :=
  match memcmpWords s1 s2 m (n / wordSize * wordSize) 0 with
  | .error difference => difference
  | .ok i => (memcmpBytes s1 s2 m n i).getD 0

/-! ### The loops, byte by byte -/

theorem copyAt_apply {w : Width} {dest src n i : Nat} {m : ByteMemory} (hdest : dest + n ≤ 2 ^ 64)
    (hsrc : src + n ≤ 2 ^ 64) (hi : i < n) (x : Nat) :
    copyAt w dest src i m x =
      if dest + i ≤ x ∧ x < dest + i + w.size then m (src + (x - dest)) else m x := by
  rw [copyAt, storeLe_loadLe, offset_eq hdest hi, offset_eq hsrc hi]
  split
  · rename_i hx
    congr 1
    omega
  · rfl

/-- **A copy that runs upward** reads every source byte before it writes over it,
if the destination does not lie above a source it overlaps. -/
theorem copyUp_apply {w : Width} {dest src n hi i : Nat} {m : ByteMemory}
    (hdest : dest + n ≤ 2 ^ 64) (hsrc : src + n ≤ 2 ^ 64) (hn : hi ≤ n)
    (hapart : dest ≤ src ∨ src + hi ≤ dest) (hwidth : w.size ∣ hi - i) (hle : i ≤ hi) (x : Nat) :
    copyUp w dest src hi i m x =
      if dest + i ≤ x ∧ x < dest + hi then m (src + (x - dest)) else m x := by
  have hpos := w.size_pos
  induction i, m using copyUp.induct w dest src hi with
  | case1 i m hlt ih =>
    obtain ⟨hstep, hrest⟩ := w.step_fits hwidth hlt
    rw [copyUp, if_pos hlt, ih hrest hstep]
    simp only [copyAt_apply hdest hsrc (Nat.lt_of_lt_of_le hlt hn)]
    -- The access at `i` touches no source byte that is still to be read.
    split_ifs <;> first | rfl | omega
  | case2 i m hge =>
    rw [copyUp, if_neg hge, if_neg (by omega)]

/-- **A copy that runs downward** reads every source byte before it writes over it,
if the destination does not lie below the source. -/
theorem copyDown_apply {w : Width} {dest src n lo count : Nat} {m : ByteMemory}
    (hdest : dest + n ≤ 2 ^ 64) (hsrc : src + n ≤ 2 ^ 64) (hn : lo + count * w.size ≤ n)
    (hle : src ≤ dest) (x : Nat) :
    copyDown w dest src lo count m x =
      if dest + lo ≤ x ∧ x < dest + (lo + count * w.size) then m (src + (x - dest)) else m x := by
  have hpos := w.size_pos
  induction count generalizing m with
  | zero => rw [copyDown, if_neg (by omega)]
  | succ count ih =>
    rw [Nat.succ_mul] at hn ⊢
    rw [copyDown, ih (by omega)]
    simp only [copyAt_apply hdest hsrc (show lo + count * w.size < n by omega)]
    split_ifs <;> first | rfl | omega

/-- **A fill** with a number that is one byte repeated. -/
theorem fillUp_apply {w : Width} {dest n hi i : Nat} {b : UInt8} {m : ByteMemory}
    (hdest : dest + n ≤ 2 ^ 64) (hn : hi ≤ n) (hwidth : w.size ∣ hi - i) (hle : i ≤ hi)
    (x : Nat) :
    fillUp w dest (leNat (List.replicate w.size b)) hi i m x =
      if dest + i ≤ x ∧ x < dest + hi then b else m x := by
  have hpos := w.size_pos
  induction i, m using fillUp.induct w dest (leNat (List.replicate w.size b)) hi with
  | case1 i m hlt ih =>
    obtain ⟨hstep, hrest⟩ := w.step_fits hwidth hlt
    rw [fillUp, if_pos hlt, ih hrest hstep]
    rw [offset_eq hdest (Nat.lt_of_lt_of_le hlt hn), storeLe_replicate]
    split_ifs <;> first | rfl | omega
  | case2 i m hge =>
    rw [fillUp, if_neg hge, if_neg (by omega)]

/-- The words make up a whole number of accesses and end at or below `n`. -/
theorem words_le (n : Nat) : n / wordSize * wordSize ≤ n := Nat.div_mul_le_self n wordSize

theorem words_dvd (n : Nat) : Width.word.size ∣ n / wordSize * wordSize - 0 :=
  Nat.dvd_mul_left wordSize (n / wordSize)

theorem byte_dvd (n : Nat) : Width.byte.size ∣ n := Nat.one_dvd n

/-! ### Copy and fill -/

/-- The `n` bytes from `src` on have been copied to `dest`, and nothing else has
changed. -/
structure Copied (m m' : ByteMemory) (dest src n : Nat) : Prop where
  bytes : ∀ i, i < n → m' (dest + i) = m (src + i)
  elsewhere : ∀ x, x < dest ∨ dest + n ≤ x → m' x = m x

/-- The `n` bytes from `dest` on are `b`, and nothing else has changed. -/
structure Filled (m m' : ByteMemory) (dest : Nat) (b : UInt8) (n : Nat) : Prop where
  bytes : ∀ i, i < n → m' (dest + i) = b
  elsewhere : ∀ x, x < dest ∨ dest + n ≤ x → m' x = m x

theorem copied_of_apply {m m' : ByteMemory} {dest src n : Nat}
    (h : ∀ x, m' x = if dest ≤ x ∧ x < dest + n then m (src + (x - dest)) else m x) :
    Copied m m' dest src n where
  bytes := by
    intro i hi
    rw [h, if_pos (by omega), Nat.add_sub_cancel_left]
  elsewhere := by
    intro x hx
    rw [h, if_neg (by omega)]

/-- The two upward loops, words and then bytes, copy when the destination does not
lie above a source it overlaps. -/
theorem copyUp_copied {dest src n : Nat} {m : ByteMemory} (hdest : dest + n ≤ 2 ^ 64)
    (hsrc : src + n ≤ 2 ^ 64) (hapart : dest ≤ src ∨ src + n ≤ dest) :
    Copied m (copyUp .byte dest src n (n / wordSize * wordSize)
      (copyUp .word dest src (n / wordSize * wordSize) 0 m)) dest src n := by
  have hwords := words_le n
  apply copied_of_apply
  intro x
  rw [copyUp_apply hdest hsrc (Nat.le_refl n) hapart (byte_dvd _) hwords]
  simp only [copyUp_apply hdest hsrc hwords
    (show dest ≤ src ∨ src + n / wordSize * wordSize ≤ dest by omega) (words_dvd n)
    (Nat.zero_le _)]
  split_ifs <;> first | rfl | omega

theorem memcpy_copied {dest src n : Nat} {m : ByteMemory} (hdest : dest + n ≤ 2 ^ 64)
    (hsrc : src + n ≤ 2 ^ 64) (hapart : dest + n ≤ src ∨ src + n ≤ dest) :
    Copied m (memcpy dest src n m).2 dest src n :=
  copyUp_copied hdest hsrc (by omega)

/-- The low byte of `c` repeated is a word whose low byte is the low byte of `c`. -/
theorem ofNat_leNat_replicate (b : UInt8) :
    UInt8.ofNat (leNat (List.replicate wordSize b)) = b := by
  have hb : b.toNat < 256 := b.toNat_lt
  apply UInt8.toNat_inj.mp
  rw [UInt8.toNat_ofNat']
  simp only [wordSize, List.replicate, leNat]
  omega

theorem memset_filled {dest n : Nat} {m : ByteMemory} (c : Int32) (hdest : dest + n ≤ 2 ^ 64) :
    Filled m (memset dest c n m).2 dest c.toUInt32.toUInt8 n := by
  have hwords := words_le n
  have happly : ∀ x, (memset dest c n m).2 x =
      if dest ≤ x ∧ x < dest + n then c.toUInt32.toUInt8 else m x := by
    intro x
    have hbyte : (c.toUInt32.toUInt8).toNat
        = leNat (List.replicate Width.byte.size c.toUInt32.toUInt8) := rfl
    have hfast : ∀ y, fillUp .word dest (leNat (List.replicate wordSize c.toUInt32.toUInt8))
        (n / wordSize * wordSize) 0 m y = _ :=
      fillUp_apply (w := .word) hdest hwords (words_dvd n) (Nat.zero_le _)
    simp only [memset, ofNat_leNat_replicate]
    rw [hbyte, fillUp_apply hdest (Nat.le_refl n) (byte_dvd _) hwords, hfast]
    split_ifs <;> first | rfl | omega
  constructor
  · intro i hi
    rw [happly, if_pos (by omega)]
  · intro x hx
    rw [happly, if_neg (by omega)]

/-! ### Comparison -/

section Comparison

variable {s1 s2 n lo hi : Nat} {m : ByteMemory}

/-- The bytes of the two blocks agree from `lo` to `hi`. -/
def Agree (m : ByteMemory) (s1 s2 lo hi : Nat) : Prop :=
  ∀ j, lo ≤ j → j < hi → m (s1 + j) = m (s2 + j)

/-- The first pair that differs from `lo` to `hi` differs by `d`. -/
def FirstDiffers (m : ByteMemory) (s1 s2 lo hi : Nat) (d : Int) : Prop :=
  ∃ j, lo ≤ j ∧ j < hi ∧ Agree m s1 s2 lo j ∧ m (s1 + j) ≠ m (s2 + j) ∧
    d = byteDifference (m (s1 + j)) (m (s2 + j))

theorem Agree.append {mid : Nat} (h : Agree m s1 s2 lo mid) (h' : Agree m s1 s2 mid hi) :
    Agree m s1 s2 lo hi := by
  intro j hlo hhi
  by_cases hj : j < mid
  · exact h j hlo hj
  · exact h' j (by omega) hhi

theorem FirstDiffers.after {mid : Nat} {d : Int} (hle : lo ≤ mid) (h : Agree m s1 s2 lo mid)
    (h' : FirstDiffers m s1 s2 mid hi d) : FirstDiffers m s1 s2 lo hi d := by
  obtain ⟨j, hlo, hhi, hagree, hne, hd⟩ := h'
  exact ⟨j, by omega, hhi, h.append hagree, hne, hd⟩

theorem FirstDiffers.mono {hi' : Nat} {d : Int} (hle : hi ≤ hi')
    (h : FirstDiffers m s1 s2 lo hi d) : FirstDiffers m s1 s2 lo hi' d := by
  obtain ⟨j, hlo, hhi, hrest⟩ := h
  exact ⟨j, hlo, by omega, hrest⟩

/-- What a loop that returns at the first difference has found. -/
def Searched (m : ByteMemory) (s1 s2 lo hi : Nat) : Option Int → Prop
  | some d => FirstDiffers m s1 s2 lo hi d
  | none => Agree m s1 s2 lo hi

/-- Searching on behind bytes that agree. -/
theorem Searched.after {mid : Nat} {r : Option Int} (hle : lo ≤ mid) (h : Agree m s1 s2 lo mid)
    (h' : Searched m s1 s2 mid hi r) : Searched m s1 s2 lo hi r := by
  cases r with
  | some d => exact FirstDiffers.after hle h h'
  | none => exact Agree.append h h'

theorem memcmpBytes_searched (hs1 : s1 + n ≤ 2 ^ 64) (hs2 : s2 + n ≤ 2 ^ 64) (hn : hi ≤ n) :
    Searched m s1 s2 lo hi (memcmpBytes s1 s2 m hi lo) := by
  induction lo using memcmpBytes.induct s1 s2 m hi with
  | case1 i hlt a b hne =>
    have ha : a = m (s1 + i) := by rw [← offset_eq hs1 (Nat.lt_of_lt_of_le hlt hn)]
    have hb : b = m (s2 + i) := by rw [← offset_eq hs2 (Nat.lt_of_lt_of_le hlt hn)]
    rw [memcmpBytes, if_pos hlt, if_pos hne]
    refine ⟨i, Nat.le_refl i, hlt, fun j hlo hhi => by omega, ?_, ?_⟩
    · rw [← ha, ← hb]
      exact hne
    · rw [← ha, ← hb]
  | case2 i hlt a b heq ih =>
    have hagree : Agree m s1 s2 i (i + 1) := by
      intro j hlo hhi
      obtain rfl : j = i := by omega
      rw [← offset_eq hs1 (Nat.lt_of_lt_of_le hlt hn), ← offset_eq hs2 (Nat.lt_of_lt_of_le hlt hn)]
      exact not_not.mp heq
    rw [memcmpBytes, if_pos hlt, if_neg heq]
    exact ih.after (Nat.le_succ i) hagree
  | case3 i hge =>
    rw [memcmpBytes, if_neg hge]
    intro j hlo hhi
    omega

/-- What the word loop has found: it returns at the first difference and otherwise
leaves `i` behind the last word. -/
def Scanned (m : ByteMemory) (s1 s2 lo hi : Nat) : Except Int Nat → Prop
  | .error d => FirstDiffers m s1 s2 lo hi d
  | .ok i => i = hi ∧ Agree m s1 s2 lo hi

theorem loadLe_offset_eq_iff {i : Nat} (hs1 : s1 + n ≤ 2 ^ 64) (hs2 : s2 + n ≤ 2 ^ 64)
    (hi : i + wordSize ≤ n) :
    loadLe wordSize m (offset s1 i) = loadLe wordSize m (offset s2 i) ↔
      Agree m s1 s2 i (i + wordSize) := by
  have hlt : i < n := by
    simp only [wordSize] at hi
    omega
  rw [offset_eq hs1 hlt, offset_eq hs2 hlt, loadLe_eq_iff]
  constructor
  · intro h j hlo hhi
    have := h (j - i) (by omega)
    rwa [Nat.add_assoc, Nat.add_assoc, Nat.add_sub_cancel' hlo] at this
  · intro h k hk
    have := h (i + k) (by omega) (by omega)
    rwa [← Nat.add_assoc, ← Nat.add_assoc] at this

theorem memcmpWords_scanned (hs1 : s1 + n ≤ 2 ^ 64) (hs2 : s2 + n ≤ 2 ^ 64) (hn : hi ≤ n)
    (hwidth : Width.word.size ∣ hi - lo) (hle : lo ≤ hi) :
    Scanned m s1 s2 lo hi (memcmpWords s1 s2 m hi lo) := by
  induction lo using memcmpWords.induct s1 s2 m hi with
  | case1 i hlt a b hne d hbytes =>
    obtain ⟨hstep, -⟩ := Width.word.step_fits hwidth hlt
    have hsearch : Searched m s1 s2 i (i + wordSize) _ :=
      memcmpBytes_searched hs1 hs2 (Nat.le_trans hstep hn)
    rw [hbytes] at hsearch
    rw [memcmpWords, if_pos hlt, if_pos hne, hbytes]
    exact FirstDiffers.mono hstep hsearch
  | case2 i hlt a b hne hbytes ih =>
    -- Two words that differ have two bytes that differ.
    obtain ⟨hstep, -⟩ := Width.word.step_fits hwidth hlt
    have hfits : i + wordSize ≤ n := Nat.le_trans hstep hn
    have hsearch : Searched m s1 s2 i (i + wordSize) _ := memcmpBytes_searched hs1 hs2 hfits
    rw [hbytes] at hsearch
    exact absurd ((loadLe_offset_eq_iff hs1 hs2 hfits).mpr hsearch) hne
  | case3 i hlt a b heq ih =>
    obtain ⟨hstep, hrest⟩ := Width.word.step_fits hwidth hlt
    have hagree : Agree m s1 s2 i (i + wordSize) :=
      (loadLe_offset_eq_iff hs1 hs2 (Nat.le_trans hstep hn)).mp (not_not.mp heq)
    rw [memcmpWords, if_pos hlt, if_neg heq]
    have hscan := ih hrest hstep
    cases hresult : memcmpWords s1 s2 m hi (i + wordSize) with
    | error d =>
      rw [hresult] at hscan
      exact FirstDiffers.after (Nat.le_add_right i wordSize) hagree hscan
    | ok j =>
      rw [hresult] at hscan
      exact ⟨hscan.1, hagree.append hscan.2⟩
  | case4 i hge =>
    rw [memcmpWords, if_neg hge]
    exact ⟨by omega, fun j hlo hhi => by omega⟩

/-- **`memcmp` searches the blocks byte by byte.** -/
theorem memcmp_searched (hs1 : s1 + n ≤ 2 ^ 64) (hs2 : s2 + n ≤ 2 ^ 64) :
    ∃ r, Searched m s1 s2 0 n r ∧ memcmp s1 s2 n m = r.getD 0 := by
  have hscan := memcmpWords_scanned (m := m) hs1 hs2 (words_le n) (words_dvd n) (Nat.zero_le _)
  rw [memcmp]
  cases hwords : memcmpWords s1 s2 m (n / wordSize * wordSize) 0 with
  | error d =>
    rw [hwords] at hscan
    exact ⟨some d, FirstDiffers.mono (words_le n) hscan, rfl⟩
  | ok i =>
    rw [hwords] at hscan
    obtain ⟨rfl, hagree⟩ := hscan
    exact ⟨_, (memcmpBytes_searched hs1 hs2 (Nat.le_refl n)).after (Nat.zero_le _) hagree, rfl⟩

theorem byteDifference_eq_zero_iff {a b : UInt8} : byteDifference a b = 0 ↔ a = b := by
  rw [byteDifference, ← UInt8.toNat_inj]
  omega

/-- Two positions at which blocks differ first are the same. -/
theorem FirstDiffers.unique {d d' : Int} (h : FirstDiffers m s1 s2 lo hi d)
    (h' : FirstDiffers m s1 s2 lo hi d') : d = d' := by
  obtain ⟨j, hlo, -, hagree, hne, rfl⟩ := h
  obtain ⟨k, hlo', -, hagree', hne', rfl⟩ := h'
  obtain hlt | rfl | hgt := Nat.lt_trichotomy j k
  · exact absurd (hagree' j hlo hlt) hne
  · rfl
  · exact absurd (hagree k hlo' hgt) hne'

theorem memcmp_eq_zero_iff (hs1 : s1 + n ≤ 2 ^ 64) (hs2 : s2 + n ≤ 2 ^ 64) :
    memcmp s1 s2 n m = 0 ↔ Agree m s1 s2 0 n := by
  obtain ⟨r, hsearch, hresult⟩ := memcmp_searched (m := m) hs1 hs2
  rw [hresult]
  cases r with
  | none => exact ⟨fun _ => hsearch, fun _ => rfl⟩
  | some d =>
    obtain ⟨j, hlo, hhi, -, hne, rfl⟩ := hsearch
    constructor
    · intro hzero
      exact absurd (byteDifference_eq_zero_iff.mp hzero) hne
    · intro hagree
      exact absurd (hagree j hlo hhi) hne

theorem memcmp_eq_of_differs {d : Int} (hs1 : s1 + n ≤ 2 ^ 64) (hs2 : s2 + n ≤ 2 ^ 64)
    (h : FirstDiffers m s1 s2 0 n d) : memcmp s1 s2 n m = d := by
  obtain ⟨r, hsearch, hresult⟩ := memcmp_searched (m := m) hs1 hs2
  rw [hresult]
  cases r with
  | none =>
    obtain ⟨j, hlo, hhi, -, hne, -⟩ := h
    exact absurd (hsearch j hlo hhi) hne
  | some d' => exact FirstDiffers.unique hsearch h

end Comparison

/-- **The word-wise primitives mean what they mean byte by byte.** For ranges that do
not wrap, `memcpy` on ranges that do not overlap copies `n` bytes and nothing
else, `memset` writes the low byte of `c` to `n` bytes and nothing else, and
`memcmp` returns zero exactly for equal blocks and otherwise the difference of
the first pair of bytes that differ. -/
theorem word_primitives_bytewise (m : ByteMemory) (n : Nat) :
    (∀ dest src, dest + n ≤ 2 ^ 64 → src + n ≤ 2 ^ 64 → dest + n ≤ src ∨ src + n ≤ dest →
      (memcpy dest src n m).1 = dest ∧ Copied m (memcpy dest src n m).2 dest src n) ∧
    (∀ dest (c : Int32), dest + n ≤ 2 ^ 64 →
      (memset dest c n m).1 = dest ∧
        Filled m (memset dest c n m).2 dest c.toUInt32.toUInt8 n) ∧
    (∀ s1 s2, s1 + n ≤ 2 ^ 64 → s2 + n ≤ 2 ^ 64 →
      (memcmp s1 s2 n m = 0 ↔ ∀ i, i < n → m (s1 + i) = m (s2 + i)) ∧
        ∀ i, i < n → (∀ j, j < i → m (s1 + j) = m (s2 + j)) → m (s1 + i) ≠ m (s2 + i) →
          memcmp s1 s2 n m = ((m (s1 + i)).toNat : Int) - (m (s2 + i)).toNat) := by
  refine ⟨?_, ?_, ?_⟩
  · intro dest src hdest hsrc hapart
    exact ⟨rfl, memcpy_copied hdest hsrc hapart⟩
  · intro dest c hdest
    exact ⟨rfl, memset_filled c hdest⟩
  · intro s1 s2 hs1 hs2
    constructor
    · rw [memcmp_eq_zero_iff hs1 hs2]
      exact ⟨fun h i hi => h i (Nat.zero_le i) hi, fun h i _ hi => h i hi⟩
    · intro i hi hbefore hne
      exact memcmp_eq_of_differs hs1 hs2
        ⟨i, Nat.zero_le i, hi, fun j _ hj => hbefore j hj, hne, rfl⟩

/-- A memory in which every byte is the low byte of its address. -/
def ownAddresses : ByteMemory := fun x => UInt8.ofNat x

/-- Eleven bytes, one word and three more, copied, set and compared. -/
theorem eleven_bytes_bytewise :
    (memcpy 100 0 11 ownAddresses).2 110 = 10 ∧ (memset 100 (-1) 11 ownAddresses).2 110 = 255 ∧
      memcmp 0 256 11 ownAddresses = 0 ∧ memcmp 5 4 11 ownAddresses = 1 := by
  obtain ⟨hcopy, hset, hcompare⟩ := word_primitives_bytewise ownAddresses 11
  refine ⟨?_, ?_, ?_, ?_⟩
  · exact (hcopy 100 0 (by decide) (by decide) (by decide)).2.bytes 10 (by decide)
  · exact (hset 100 (-1) (by decide)).2.bytes 10 (by decide)
  · refine (hcompare 0 256 (by decide) (by decide)).1.mpr ?_
    decide
  · exact (hcompare 5 4 (by decide) (by decide)).2 0 (by decide) (by decide) (by decide)

/-! ### Overlapping copies -/

/-- When `memmove` copies upward in memory, the bytes behind the last whole word are
read after the words have been written. `TailKept` says that what they read is
still right: a byte of that tail that lies in the destination of the words holds
the byte that has been copied over it. -/
def TailKept (m : ByteMemory) (dest src n : Nat) : Prop :=
  src < dest → ∀ j, n / wordSize * wordSize ≤ j → j < n →
    dest ≤ src + j → src + j < dest + n / wordSize * wordSize →
      m (src + (src + j - dest)) = m (src + j)

/-- The downward branch of `memmove`, byte by byte: the words are right, and the tail
is copied from the memory that the words have left. -/
theorem memmove_down_apply {dest src n : Nat} {m : ByteMemory} (hdest : dest + n ≤ 2 ^ 64)
    (hsrc : src + n ≤ 2 ^ 64) (hlt : src < dest) (x : Nat) :
    (memmove dest src n m).2 x =
      if dest ≤ x ∧ x < dest + n then
        if dest + n / wordSize * wordSize ≤ x ∧ dest ≤ src + (x - dest) ∧
            src + (x - dest) < dest + n / wordSize * wordSize then
          m (src + (src + (x - dest) - dest))
        else m (src + (x - dest))
      else m x := by
  have hwords := words_le n
  have hlength : n / wordSize * wordSize + (n - n / wordSize * wordSize) * Width.byte.size = n := by
    rw [Width.size, Nat.mul_one]
    omega
  have hfast : 0 + n / wordSize * Width.word.size ≤ n := by
    rw [Nat.zero_add]
    exact hwords
  simp only [memmove, if_pos hlt]
  rw [copyDown_apply hdest hsrc (Nat.le_of_eq hlength) (Nat.le_of_lt hlt), hlength]
  simp only [copyDown_apply hdest hsrc hfast (Nat.le_of_lt hlt)]
  simp only [Width.size, Nat.zero_add, Nat.add_zero]
  split_ifs <;> first | rfl | omega

/-- **`memmove` is a simultaneous copy exactly when the tail is kept.** -/
theorem memmove_copies_iff {dest src n : Nat} (m : ByteMemory) (hdest : dest + n ≤ 2 ^ 64)
    (hsrc : src + n ≤ 2 ^ 64) :
    Copied m (memmove dest src n m).2 dest src n ↔ TailKept m dest src n := by
  by_cases hlt : src < dest
  · constructor
    · intro hcopied _ j hwords hj hover hover'
      have hbyte := hcopied.bytes j hj
      rw [memmove_down_apply hdest hsrc hlt, if_pos (by omega),
        Nat.add_sub_cancel_left, if_pos (by omega)] at hbyte
      exact hbyte
    · intro hkept
      apply copied_of_apply
      intro x
      rw [memmove_down_apply hdest hsrc hlt]
      split_ifs with hin hover
      · exact hkept hlt (x - dest) (by omega) (by omega) hover.2.1 hover.2.2
      · rfl
      · rfl
  · have hup : Copied m (memmove dest src n m).2 dest src n := by
      rw [memmove, if_neg hlt]
      exact copyUp_copied hdest hsrc (by omega)
    exact ⟨fun _ habove => absurd habove hlt, fun _ => hup⟩

/-- A block moved up by one byte is right while it has no bytes behind its words. -/
theorem one_word_moves_up : Copied ownAddresses (memmove 1 0 8 ownAddresses).2 1 0 8 := by
  refine (memmove_copies_iff ownAddresses (by decide) (by decide)).mpr ?_
  intro _ j hwords hj
  have hfast : 8 / wordSize * wordSize = 8 := rfl
  omega

/-- Nine bytes moved up by one: the last one is read where the word has just been
written. -/
theorem nine_bytes_lose_last :
    (memmove 1 0 9 ownAddresses).2 9 = 7 ∧ ownAddresses 8 = 8 ∧
      ¬ Copied ownAddresses (memmove 1 0 9 ownAddresses).2 1 0 9 := by
  have hlast : (memmove 1 0 9 ownAddresses).2 9 = 7 := by decide +kernel
  refine ⟨hlast, rfl, ?_⟩
  intro hcopied
  have hbyte : (memmove 1 0 9 ownAddresses).2 9 = 8 := hcopied.bytes 8 (by decide)
  rw [hlast] at hbyte
  exact absurd hbyte (by decide)

end Faastr.Externs
