import Faastr.Sched.Context

/-!
The numbers that contexts get (`ContextList::insert` and `remove`), under any limit on
their number.

`insert` looks for a free number from the cursor `next_id` on, which it sets back to 1
only when the cursor has reached the limit before the search begins.

- A number that `insert` gives is in range and was free, in every list that calls make
  (`insertUpTo_fresh`).
- It fails exactly when no number from the cursor on is free
  (`insertUpTo_error_iff`), so that a free number below the cursor is missed
  (`insertsFresh_iff`).
-/

namespace Faastr.Sched

open Faastr.Lib

namespace ContextList

/-- `remove`. -/
def remove (l : ContextList) (id : Nat) : Option Context × ContextList :=
  (l.map.get? id, { l with map := l.map.erase id })

/-- A call of a method that changes the list. -/
inductive Call where
  | insert (c : Context)
  | remove (id : Nat)

def Call.apply (limit : Nat) (l : ContextList) : Call → ContextList
  | .insert c => (l.insertUpTo limit c).2
  | .remove id => (l.remove id).2

/-- The list after calls, from the empty list on. -/
def afterCalls (limit : Nat) (calls : List Call) : ContextList :=
  calls.foldl (Call.apply limit) .new

/-! ### The number found -/

section Search

variable {limit : Nat} {l l' : ContextList} {c : Context}

theorem cursor_le_freeIdUpTo (limit : Nat) (l : ContextList) :
    l.cursor limit ≤ l.freeIdUpTo limit := le_skipTaken _ _ _

theorem freeIdUpTo_free : l.map.get? (l.freeIdUpTo limit) = none := skipTaken_free _ _

/-- The cursor never stands below 1. -/
theorem cursor_pos (h : 1 ≤ l.nextId) : 1 ≤ l.cursor limit := by
  rw [cursor]
  split
  · exact le_rfl
  · exact h

theorem Call.apply_nextId_pos (call : Call) (h : 1 ≤ l.nextId) :
    1 ≤ (Call.apply limit l call).nextId := by
  cases call with
  | insert c =>
    have hpos := le_trans (cursor_pos h) (cursor_le_freeIdUpTo limit l)
    rw [Call.apply, insertUpTo]
    split
    · exact hpos
    · exact Nat.le_succ_of_le hpos
  | remove id => exact h

theorem afterCalls_nextId_pos (limit : Nat) (calls : List Call) : 1 ≤ (afterCalls limit calls).nextId := by
  induction calls using List.reverseRecOn with
  | nil => exact le_rfl
  | append_singleton calls call ih =>
    rw [afterCalls, List.foldl_append]
    exact Call.apply_nextId_pos call ih

/-- **A number that `insert` gives is in range and was free**, and no other entry
changes. -/
theorem insertUpTo_fresh {id : Nat} (hpos : 1 ≤ l.nextId)
    (h : l.insertUpTo limit c = (.ok id, l')) :
    (1 ≤ id ∧ id < limit) ∧ l.map.get? id = none ∧ l'.map.get? id = some c ∧
      ∀ k, k ≠ id → l'.map.get? k = l.map.get? k := by
  rw [insertUpTo] at h
  split at h
  · cases h
  · next hlt =>
    cases h
    exact ⟨⟨le_trans (cursor_pos hpos) (cursor_le_freeIdUpTo limit l), Nat.lt_of_not_le hlt⟩,
      freeIdUpTo_free, OrdMap.get?_insert_self, fun k => OrdMap.get?_insert_of_ne⟩

/-- **`insert` fails exactly when every number from the cursor on is taken.** -/
theorem insertUpTo_error_iff :
    (∃ message l', l.insertUpTo limit c = (.error message, l')) ↔
      ∀ id, l.cursor limit ≤ id → id < limit → (l.map.get? id).isSome := by
  rw [insertUpTo]
  split
  · next hle =>
    refine ⟨fun _ id hid hlt => ?_, fun _ => ⟨_, _, rfl⟩⟩
    exact taken_of_lt_skipTaken hid (lt_of_lt_of_le hlt hle)
  · next hlt =>
    constructor
    · rintro ⟨message, l', h⟩
      cases h
    · intro htaken
      have hsome := htaken _ (cursor_le_freeIdUpTo limit l) (Nat.lt_of_not_le hlt)
      rw [freeIdUpTo_free] at hsome
      cases hsome

end Search

/-! ### Free numbers that are missed -/

/-- `insert` gives a free number in range and touches no other entry, and it fails only
when all numbers in range are taken. -/
structure InsertsFresh (limit : Nat) (l : ContextList) (c : Context) : Prop where
  fresh : ∀ id l', l.insertUpTo limit c = (.ok id, l') →
    (1 ≤ id ∧ id < limit) ∧ l.map.get? id = none ∧ l'.map.get? id = some c ∧
      ∀ k, k ≠ id → l'.map.get? k = l.map.get? k
  full : (∃ message l', l.insertUpTo limit c = (.error message, l')) →
    ∀ id, 1 ≤ id → id < limit → (l.map.get? id).isSome

/-- When a number is free at all, one from the cursor on is, or the cursor has reached
the limit and goes back to 1. -/
def FreeAhead (limit : Nat) (l : ContextList) : Prop :=
  (∃ id, 1 ≤ id ∧ id < limit ∧ l.map.get? id = none) →
    limit ≤ l.nextId ∨ ∃ id, l.nextId ≤ id ∧ id < limit ∧ l.map.get? id = none

/-- **No number is wasted exactly when a free one lies ahead of the cursor**, in every
list that calls of `insert` and `remove` make. -/
theorem insertsFresh_iff (limit : Nat) (calls : List Call) (c : Context) :
    InsertsFresh limit (afterCalls limit calls) c ↔ FreeAhead limit (afterCalls limit calls) := by
  have hpos := afterCalls_nextId_pos limit calls
  generalize afterCalls limit calls = l at hpos ⊢
  constructor
  · rintro ⟨-, hfull⟩ ⟨id, hid, hlt, hfree⟩
    by_contra hnone
    obtain ⟨hcursor, hahead⟩ := not_or.mp hnone
    have htaken : ∀ k, l.cursor limit ≤ k → k < limit → (l.map.get? k).isSome := by
      intro k hk hklt
      rw [cursor, if_neg hcursor] at hk
      by_contra hk'
      exact hahead ⟨k, hk, hklt, Option.not_isSome_iff_eq_none.mp hk'⟩
    have hsome := hfull (insertUpTo_error_iff.mpr htaken) id hid hlt
    rw [hfree] at hsome
    cases hsome
  · intro hahead
    refine ⟨fun id l' h => insertUpTo_fresh hpos h, ?_⟩
    intro herror id hid hlt
    have htaken := insertUpTo_error_iff.mp herror
    by_contra hnot
    -- A free number lies ahead of the cursor, where the search would have found it.
    obtain hlimit | ⟨k, hk, hklt, hkfree⟩ :=
      hahead ⟨id, hid, hlt, Option.not_isSome_iff_eq_none.mp hnot⟩
    · rw [cursor, if_pos hlimit] at htaken
      exact hnot (htaken id hid hlt)
    · have hcursor : l.cursor limit ≤ k := by
        rw [cursor]
        split <;> omega
      have hsome := htaken k hcursor hklt
      rw [hkfree] at hsome
      cases hsome

/-- Three contexts under a limit of 4; the first one is removed, inserted and removed
again. -/
def churn : List Call :=
  [.insert .new, .insert .new, .insert .new, .remove 1, .insert .new, .remove 1]

/-- The number 1 is free, but the cursor has passed it: the next `insert` fails. -/
theorem free_id_missed :
    (afterCalls 4 churn).map.get? 1 = none ∧
      ∃ l', (afterCalls 4 churn).insertUpTo 4 .new =
        (.error "Reached maximum number of contexts", l') :=
  ⟨by decide +kernel, _, rfl⟩

end ContextList

end Faastr.Sched
