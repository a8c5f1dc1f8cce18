import Faastr.Lib.OrdMap
import Mathlib.Algebra.Ring.Nat
import Mathlib.Data.List.Perm.Subperm
import Mathlib.Data.List.Range
import Mathlib.Order.Nat

/-!
Contexts and the list of contexts (`kernel/src/context/context.rs`, `list.rs`), as far as
scheduling goes.

A context is known by its number, the key it has in the list: `insert` gives it one, and
nothing takes a context out of the list again. A link to a context is its number.

* `ContextList.get?_insert`: a context that is inserted takes the place of none.
-/

namespace Faastr.Sched

open Faastr.Lib

inductive Status where
  | running
  | runnable
  | blocked
  | new
  | exited
deriving DecidableEq, Repr

structure Context where
  status : Status
  /-- The context to return to. -/
  retLink : Option Nat
  cpuId : Option Nat
  /-- Seconds and nanoseconds at which the context should wake up. -/
  wake : Option (Nat × Nat)
  /-- The encoded values that the function returned. -/
  result : Option (List UInt8)
deriving DecidableEq, Repr

namespace Context

def new : Context where
  status := .blocked
  retLink := none
  cpuId := none
  wake := none
  result := none

/-- Block the context; whether it was runnable. -/
def block (c : Context) : Bool × Context :=
  if c.status = .runnable then (true, { c with status := .blocked }) else (false, c)

/-- Unblock the context; whether it was blocked. -/
def unblock (c : Context) : Bool × Context :=
  if c.status = .blocked then (true, { c with status := .runnable }) else (false, c)

theorem block_status (c : Context) :
    c.block.2.status = if c.status = .runnable then .blocked else c.status := by
  rw [block]
  split
  · rfl
  · rfl

theorem unblock_status (c : Context) :
    c.unblock.2.status = if c.status = .blocked then .runnable else c.status := by
  rw [unblock]
  split
  · rfl
  · rfl

end Context

/-- `CONTEXT_MAX_CONTEXTS`: `isize::max_value() as usize - 1`. -/
def contextMaxContexts : Nat := 2 ^ 63 - 2

structure ContextList where
  map : OrdMap Nat Context
  nextId : Nat

namespace ContextList

def new : ContextList := { map := .empty, nextId := 1 }

/-- The loop over numbers that are taken. There are at most as many as there are
contexts. -/
def skipTaken (map : OrdMap Nat Context) : Nat → Nat → Nat
  | 0, n => n
  | fuel + 1, n => if (map.get? n).isSome then skipTaken map fuel (n + 1) else n

/-- Where the search for a free number begins, with `CONTEXT_MAX_CONTEXTS` as a parameter. -/
def cursor (limit : Nat) (l : ContextList) : Nat := if limit ≤ l.nextId then 1 else l.nextId

/-- The first free number from there on. -/
def freeIdUpTo (limit : Nat) (l : ContextList) : Nat :=
  skipTaken l.map l.map.entries.length (l.cursor limit)

/-- Enqueue a context: its number, or an error. -/
def insertUpTo (limit : Nat) (l : ContextList) (c : Context) : Except String Nat × ContextList :=
  if limit ≤ l.freeIdUpTo limit then
    (.error "Reached maximum number of contexts", { l with nextId := l.freeIdUpTo limit })
  else
    (.ok (l.freeIdUpTo limit),
      { map := l.map.insert (l.freeIdUpTo limit) c, nextId := l.freeIdUpTo limit + 1 })

def insert (l : ContextList) (c : Context) : Except String Nat × ContextList :=
  l.insertUpTo contextMaxContexts c

/-! ### A number that is not taken -/

theorem le_skipTaken (map : OrdMap Nat Context) (fuel n : Nat) : n ≤ skipTaken map fuel n := by
  induction fuel generalizing n with
  | zero => exact le_rfl
  | succ fuel ih =>
    rw [skipTaken]
    split
    · exact Nat.le_of_succ_le (ih (n + 1))
    · exact le_rfl

/-- The loop passes over taken numbers only. -/
theorem taken_of_lt_skipTaken {map : OrdMap Nat Context} {fuel n k : Nat} (hk : n ≤ k)
    (hlt : k < skipTaken map fuel n) : (map.get? k).isSome := by
  induction fuel generalizing n with
  | zero =>
    rw [skipTaken] at hlt
    omega
  | succ fuel ih =>
    rw [skipTaken] at hlt
    split at hlt
    · next htaken =>
      rcases Nat.eq_or_lt_of_le hk with rfl | hk
      · exact htaken
      · exact ih hk hlt
    · omega

/-- When it ends on a taken number it went all the way. -/
theorem skipTaken_eq_add {map : OrdMap Nat Context} {fuel n : Nat}
    (h : (map.get? (skipTaken map fuel n)).isSome) : skipTaken map fuel n = n + fuel := by
  induction fuel generalizing n with
  | zero => rfl
  | succ fuel ih =>
    rw [skipTaken] at h ⊢
    split at h
    · next htaken =>
      rw [if_pos htaken, ih h]
      omega
    · next hfree => exact absurd h hfree

/-- More numbers than there are contexts cannot all be taken. -/
theorem skipTaken_free (map : OrdMap Nat Context) (n : Nat) :
    map.get? (skipTaken map map.entries.length n) = none := by
  by_contra hne
  have hsome := Option.isSome_iff_ne_none.mpr hne
  have hend := skipTaken_eq_add hsome
  have hsub : List.range' n (map.entries.length + 1) ⊆ map.keys := by
    intro k hk
    rw [List.mem_range'_1] at hk
    rw [OrdMap.mem_keys]
    rcases Nat.lt_or_ge k (n + map.entries.length) with hlt | hge
    · exact taken_of_lt_skipTaken hk.1 (hend.symm ▸ hlt)
    · rwa [show k = skipTaken map map.entries.length n by omega]
  have hlength := (List.subperm_of_subset List.nodup_range' hsub).length_le
  rw [List.length_range', OrdMap.keys, List.length_map] at hlength
  omega

/-- A context that is inserted takes the place of none. -/
theorem get?_insert {l l' : ContextList} {c : Context} {id : Nat} (h : l.insert c = (.ok id, l')) :
    l.map.get? id = none ∧ l'.map.get? id = some c ∧
      ∀ k, k ≠ id → l'.map.get? k = l.map.get? k := by
  rw [insert, insertUpTo] at h
  split at h
  · cases h
  · cases h
    exact ⟨skipTaken_free l.map _, OrdMap.get?_insert_self, fun k => OrdMap.get?_insert_of_ne⟩

theorem insert_error {l l' : ContextList} {c : Context} {message : String}
    (h : l.insert c = (.error message, l')) : l'.map = l.map := by
  rw [insert, insertUpTo] at h
  split at h
  · cases h
    rfl
  · cases h

section Insert

variable {l l' : ContextList} {c ck : Context} {id k : Nat}

/-- A context that was in the list stays there. -/
theorem insert_old (h : l.insert c = (.ok id, l')) (hk : l.map.get? k = some ck) :
    k ≠ id ∧ l'.map.get? k = some ck := by
  obtain ⟨hnone, -, hold⟩ := get?_insert h
  have hne : k ≠ id := by
    rintro rfl
    cases hnone.symm.trans hk
  exact ⟨hne, (hold k hne).trans hk⟩

/-- A context in the list is the new one, or was there before. -/
theorem insert_cases (h : l.insert c = (.ok id, l')) (hk : l'.map.get? k = some ck) :
    k = id ∧ ck = c ∨ l.map.get? k = some ck := by
  obtain ⟨-, hnew, hold⟩ := get?_insert h
  by_cases hne : k = id
  · subst hne
    cases hnew.symm.trans hk
    exact .inl ⟨rfl, rfl⟩
  · exact .inr ((hold k hne).symm.trans hk)

theorem get?_insert_error {message : String} (h : l.insert c = (.error message, l')) (k : Nat) :
    l'.map.get? k = l.map.get? k := by
  rw [insert_error h]

/-- Whether there is room for a new context or not, the others stay. -/
theorem inserted_old (c : Context) (hk : l.map.get? k = some ck) :
    (l.insert c).2.map.get? k = some ck := by
  rcases hinsert : l.insert c with ⟨message | id, l'⟩
  · exact (get?_insert_error hinsert k).trans hk
  · exact (insert_old hinsert hk).2

theorem inserted_cases (hk : (l.insert c).2.map.get? k = some ck) :
    l.map.get? k = none ∧ ck = c ∨ l.map.get? k = some ck := by
  rcases hinsert : l.insert c with ⟨message | id, l'⟩
  · rw [hinsert] at hk
    exact .inr ((get?_insert_error hinsert k).symm.trans hk)
  · rw [hinsert] at hk
    rcases insert_cases hinsert hk with ⟨rfl, rfl⟩ | hk
    · exact .inl ⟨(get?_insert hinsert).1, rfl⟩
    · exact .inr hk

end Insert

end ContextList

end Faastr.Sched
