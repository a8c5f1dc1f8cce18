import Faastr.Lib.Slice

/-!
Circular buffers over unbounded counters.

Counter `c` addresses position `c` modulo the length of the buffer. `window data
c n` reads the `n` positions from `c` on, around the end if need be. Windows
compose like intervals (`window_add`), a write outside a window leaves it as it
is (`window_set`), and a window that does not run over the end is a plain
sub-slice (`slice_eq_window`).
-/

namespace Faastr.Lib

variable {α : Type} [Inhabited α]

/-- The elements at the `n` counters from `c` on. -/
def window (data : List α) (c n : Nat) : List α :=
  (List.range n).map fun i => data.getD ((c + i) % data.length) default

@[simp] theorem window_length (data : List α) (c n : Nat) : (window data c n).length = n := by
  simp [window]

/-- A window of a buffer that holds one element throughout. -/
theorem window_replicate {len : Nat} (hlen : 0 < len) (a : α) (c n : Nat) :
    window (List.replicate len a) c n = List.replicate n a := by
  rw [List.eq_replicate_iff]
  refine ⟨window_length _ _ _, ?_⟩
  intro b hb
  simp only [window, List.mem_map, List.length_replicate] at hb
  obtain ⟨i, -, rfl⟩ := hb
  have hlt := Nat.mod_lt (c + i) hlen
  simp [List.getElem?_replicate, hlt]

/-- A window is cut at any counter inside it. -/
theorem window_add (data : List α) (c m n : Nat) :
    window data c (m + n) = window data c m ++ window data (c + m) n := by
  simp only [window, List.range_add, List.map_append, List.map_map, List.append_cancel_left_eq,
    List.map_inj_left, Function.comp_apply]
  intro i _
  rw [Nat.add_assoc]

/-- Two counters less than a turn apart address different positions. -/
theorem mod_ne_mod_of_lt {p q len : Nat} (hlt : p < q) (hturn : q < p + len) :
    p % len ≠ q % len := by
  intro h
  have hzero : (q - p) % len = 0 := Nat.sub_mod_eq_zero_of_mod_eq h.symm
  rw [Nat.mod_eq_of_lt (by omega)] at hzero
  omega

/-- A write at a counter less than a turn ahead of a window leaves the window. -/
theorem window_set {data : List α} {c n q : Nat} (hafter : c + n ≤ q)
    (hturn : q < c + data.length) (a : α) :
    window (data.set (q % data.length) a) c n = window data c n := by
  simp only [window, List.length_set, List.map_inj_left, List.mem_range]
  intro i hi
  have hne := mod_ne_mod_of_lt (show c + i < q by omega) (show q < c + i + data.length by omega)
  rw [List.getD_eq_getElem?_getD, List.getElem?_set_ne hne.symm, List.getD_eq_getElem?_getD]

/-- Writing right behind a window extends it. -/
theorem window_set_snoc {data : List α} {c k : Nat} (hk : k < data.length) (a : α) :
    window (data.set ((c + k) % data.length) a) c (k + 1) = window data c k ++ [a] := by
  have hpos : (c + k) % data.length < data.length := Nat.mod_lt _ (by omega)
  rw [window_add, window_set (Nat.le_refl _) (by omega)]
  simp [window, hpos]

/-- Before the end, positions follow each other as counters do. -/
theorem add_mod_of_fits {c i n len : Nat} (hi : i < n) (hfits : c % len + n ≤ len) :
    (c + i) % len = c % len + i := by
  rw [Nat.add_mod, Nat.mod_eq_of_lt (show i < len by omega), Nat.mod_eq_of_lt (by omega)]

/-- **A window that does not run over the end is a sub-slice.** -/
theorem slice_eq_window {data : List α} {c n : Nat} (hfits : c % data.length + n ≤ data.length) :
    slice data (c % data.length) (c % data.length + n) = .ok (window data c n) := by
  rw [slice_eq_ok_iff]
  refine ⟨Nat.le_add_right _ _, hfits, ?_⟩
  rw [Nat.add_sub_cancel_left]
  apply List.ext_getElem
  · rw [window_length, List.length_take, List.length_drop]
    omega
  · intro i hi _
    rw [window_length] at hi
    have hpos := add_mod_of_fits hi hfits
    have hlt : c % data.length + i < data.length := by omega
    simp [window, hpos, List.getElem?_eq_getElem hlt]

/-! ### Counters kept modulo `M` -/

/-- A counter kept modulo a multiple of the length addresses the same positions. -/
theorem window_mod {data : List α} {M : Nat} (hdvd : data.length ∣ M) (c n : Nat) :
    window data (c % M) n = window data c n := by
  simp only [window, List.map_inj_left, List.mem_range]
  intro i _
  rw [Nat.add_mod, Nat.mod_mod_of_dvd c hdvd, ← Nat.add_mod]

/-- **Comparing what is left of two counters compares the counters** exactly when both
are in the same lap, if they are less than a lap apart. -/
theorem mod_le_mod_iff_lap {M a b : Nat} (ha : a < b + M) (hb : b < a + M) :
    (a % M ≤ b % M ↔ a ≤ b) ↔ a / M = b / M := by
  have hdiva := Nat.div_add_mod a M
  have hdivb := Nat.div_add_mod b M
  have hmoda := Nat.mod_lt a (show M > 0 by omega)
  have hmodb := Nat.mod_lt b (show M > 0 by omega)
  obtain hlt | heq | hgt := Nat.lt_trichotomy (a / M) (b / M)
  · have hlap := Nat.mul_le_mul_left M (Nat.succ_le_of_lt hlt)
    rw [Nat.mul_succ] at hlap
    have hdisagree : ¬ a % M ≤ b % M := by omega
    have hle : a ≤ b := by omega
    simp [hdisagree, hle, Nat.ne_of_lt hlt]
  · rw [heq] at hdiva
    have hagree : a % M ≤ b % M ↔ a ≤ b := by omega
    simp [hagree, heq]
  · have hlap := Nat.mul_le_mul_left M (Nat.succ_le_of_lt hgt)
    rw [Nat.mul_succ] at hlap
    have hagree : a % M ≤ b % M := by omega
    have hdisagree : ¬ a ≤ b := by omega
    simp [hagree, hdisagree, Nat.ne_of_gt hgt]

end Faastr.Lib
