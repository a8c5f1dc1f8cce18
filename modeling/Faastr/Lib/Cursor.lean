import Mathlib.Algebra.Ring.Nat
import Mathlib.Logic.Relation

/-!
Iterators that walk a buffer by lengths the buffer itself holds.

`next i` is the item at position `i` and the position behind it. `Yields` is a
finished run and `Reached` the positions a run gets to. For a walk that never
moves back and never past its end (`Forward`):

* it finishes exactly when no item it reaches is empty (`exists_yields_iff`);
* when every item it reaches takes `unit` at least, the room bounds the number of
  its items (`exists_yields_count`).
-/

namespace Faastr.Lib.Cursor

open Relation (ReflTransGen)

variable {ε : Type} {next : Nat → Option (ε × Nat)} {total : Nat}

/-- The items of a run from a position up to the first `none`. -/
inductive Yields (next : Nat → Option (ε × Nat)) : Nat → List ε → Prop
  | stop {i : Nat} (none_next : next i = none) : Yields next i []
  | step {i j : Nat} {e : ε} {es : List ε} (some_next : next i = some (e, j))
      (rest : Yields next j es) : Yields next i (e :: es)

/-- The positions a run gets to. -/
def Reached (next : Nat → Option (ε × Nat)) : Nat → Nat → Prop :=
  ReflTransGen fun i j => ∃ e, next i = some (e, j)

/-- Every item that a run gets to moves it by `n` at least. -/
def AtLeast (next : Nat → Option (ε × Nat)) (start n : Nat) : Prop :=
  ∀ i e j, Reached next start i → next i = some (e, j) → i + n ≤ j

/-- The walk moves forward and stays within `total`. -/
structure Forward (next : Nat → Option (ε × Nat)) (total : Nat) : Prop where
  le : ∀ {i e j}, next i = some (e, j) → i ≤ j
  bound : ∀ {i e j}, next i = some (e, j) → j ≤ total

theorem AtLeast.tail {start n i : Nat} {e : ε} (h : AtLeast next start n)
    (hnext : next start = some (e, i)) : AtLeast next i n := by
  intro j e' k hreached
  exact h j e' k (.head ⟨e, hnext⟩ hreached)

/-! ### Finishing -/

/-- A finished run is finished from every position it gets to. -/
theorem Yields.of_reached {i j : Nat} {es : List ε} (h : Yields next i es)
    (reached : Reached next i j) : ∃ es', Yields next j es' := by
  induction reached with
  | refl => exact ⟨es, h⟩
  | tail _ hstep ih =>
    obtain ⟨es', h'⟩ := ih
    obtain ⟨e, he⟩ := hstep
    cases h' with
    | stop hnone => simp [hnone] at he
    | step hsome rest =>
      rw [hsome] at he
      cases he
      exact ⟨_, rest⟩

/-- An item that does not move the walk is yielded for ever. -/
theorem not_yields_of_stuck {i : Nat} {e : ε} (h : next i = some (e, i)) (es : List ε) :
    ¬ Yields next i es := by
  intro hrun
  induction es with
  | nil =>
    cases hrun with
    | stop hnone => simp [hnone] at h
  | cons e' es ih =>
    cases hrun with
    | step hsome rest =>
      rw [hsome] at h
      cases h
      exact ih rest

/-- **A forward walk finishes exactly when every item it reaches moves it.** -/
theorem exists_yields_iff (forward : Forward next total) (start : Nat) :
    (∃ es, Yields next start es) ↔ AtLeast next start 1 := by
  constructor
  · rintro ⟨es, hrun⟩ i e j hreached hnext
    rcases Nat.lt_or_eq_of_le (forward.le hnext) with hlt | rfl
    · exact hlt
    · obtain ⟨es', hrun'⟩ := hrun.of_reached hreached
      exact absurd hrun' (not_yields_of_stuck hnext es')
  · intro hmoves
    -- the room that is left bounds the items still to come
    induction hroom : total - start using Nat.strongRecOn generalizing start with
    | _ room ih =>
      cases hnext : next start with
      | none => exact ⟨[], .stop hnext⟩
      | some item =>
        obtain ⟨e, j⟩ := item
        have hlt : start + 1 ≤ j := hmoves start e j .refl hnext
        have hbound : j ≤ total := forward.bound hnext
        obtain ⟨es, hrun⟩ := ih (total - j) (by omega) j (hmoves.tail hnext) rfl
        exact ⟨e :: es, .step hnext hrun⟩

/-! ### Counting -/

/-- Items of `unit` at least lie one behind the other in the room that is left. -/
theorem Yields.count_le (forward : Forward next total) {unit i : Nat} {es : List ε}
    (h : Yields next i es) (hleast : AtLeast next i unit) :
    es = [] ∨ i + unit * es.length ≤ total := by
  induction h with
  | stop => exact .inl rfl
  | @step i j e es hnext _ ih =>
    right
    have hstep : i + unit ≤ j := hleast i e j .refl hnext
    have hbound : j ≤ total := forward.bound hnext
    rw [List.length_cons, Nat.mul_succ]
    rcases ih (hleast.tail hnext) with rfl | hrest
    · rw [List.length_nil, Nat.mul_zero]
      omega
    · omega

/-- **A walk whose items take `unit` at least finishes, with no more items than the room has
units.** -/
theorem exists_yields_count (forward : Forward next total) {start unit : Nat} (hunit : 0 < unit)
    (hleast : AtLeast next start unit) :
    ∃ es, Yields next start es ∧ unit * es.length ≤ total := by
  have hmoves : AtLeast next start 1 := fun i e j hreached hnext =>
    le_trans (by omega) (hleast i e j hreached hnext)
  obtain ⟨es, hrun⟩ := (exists_yields_iff forward start).mpr hmoves
  refine ⟨es, hrun, ?_⟩
  rcases hrun.count_le forward hleast with rfl | hcount
  · exact Nat.zero_le _
  · omega

end Faastr.Lib.Cursor
