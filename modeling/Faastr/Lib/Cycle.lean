import Mathlib.Order.Lattice

/-!
Going round a sorted list.

From an element, the next one is the first that is greater, and when there is none the
first that is smaller. `Cycle l a c` says that `c` is what lies ahead of `a`, once round:
the elements after it and then those before it. The next element is the head of `c`
(`Cycle.next`), and moving on to it puts `a` at the end (`Cycle.rotate`).
-/

namespace Faastr.Lib

variable {α : Type} {l c : List α} {a b : α}

/-- What lies ahead of `a` in `l`, once round. -/
def Cycle (l : List α) (a : α) (c : List α) : Prop :=
  ∃ before after, l = before ++ a :: after ∧ c = after ++ before

theorem Cycle.rotate (h : Cycle l a (b :: c)) : Cycle l b (c ++ [a]) := by
  obtain ⟨before, after, rfl, hc⟩ := h
  cases after with
  | cons b' after =>
    obtain ⟨rfl, rfl⟩ := List.cons.inj hc
    exact ⟨before ++ [a], after, by simp, by simp⟩
  | nil =>
    rw [List.nil_append] at hc
    subst hc
    exact ⟨[], c ++ [a], by simp, by simp⟩

theorem Cycle.length (h : Cycle l a c) : l.length = c.length + 1 := by
  obtain ⟨before, after, rfl, rfl⟩ := h
  simp only [List.length_append, List.length_cons]
  omega

variable [LinearOrder α]

/-- The two scans find the head of what lies ahead. -/
theorem Cycle.next (hsorted : l.Pairwise (· < ·)) (h : Cycle l a c) :
    ((l.find? fun x => a < x).or (l.find? fun x => x < a)) = c.head? := by
  obtain ⟨before, after, rfl, rfl⟩ := h
  obtain ⟨-, hafter, hbefore⟩ := List.pairwise_append.mp hsorted
  have hgt : ∀ x ∈ after, a < x := fun x hx => (List.pairwise_cons.mp hafter).1 x hx
  have hlt : ∀ x ∈ before, x < a := fun x hx => hbefore x hx a List.mem_cons_self
  have hscan : ((before ++ a :: after).find? fun x => a < x) = after.head? := by
    have hnone : (before.find? fun x => decide (a < x)) = none := by
      rw [List.find?_eq_none]
      exact fun x hx => by simpa using le_of_lt (hlt x hx)
    rw [List.find?_append, hnone, Option.none_or, List.find?_cons_of_neg (by simp)]
    cases after with
    | nil => rfl
    | cons b after => rw [List.find?_cons_of_pos (by simpa using hgt b List.mem_cons_self)]; rfl
  rw [hscan]
  cases after with
  | cons b after => rfl
  | nil =>
    rw [List.head?_nil, Option.none_or, List.nil_append]
    cases before with
    | nil => simp
    | cons b before =>
      rw [List.cons_append, List.find?_cons_of_pos (by simpa using hlt b List.mem_cons_self)]
      rfl

end Faastr.Lib
