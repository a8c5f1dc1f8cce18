import Mathlib.Order.Lattice

/-!
Maps whose entries are kept in the order of their keys.

The entries are a list with increasing keys, so that a scan in list order is a scan in
the order of the keys. `get?` is the view that proofs go by: `mem_entries` turns an entry
met in a scan into a value found at its key.
-/

namespace Faastr.Lib

/-- Entries in increasing order of their keys. -/
structure OrdMap (κ : Type) [LinearOrder κ] (α : Type) where
  entries : List (κ × α)
  sorted : entries.Pairwise (·.1 < ·.1)

namespace OrdMap

variable {κ α : Type} [LinearOrder κ]

def empty : OrdMap κ α := ⟨[], .nil⟩

def get? (m : OrdMap κ α) (k : κ) : Option α := m.entries.lookup k

def keys (m : OrdMap κ α) : List κ := m.entries.map Prod.fst

/-- All values changed, each in its place. -/
def mapVal (m : OrdMap κ α) (f : κ → α → α) : OrdMap κ α where
  entries := m.entries.map fun e => (e.1, f e.1 e.2)
  sorted := List.pairwise_map.mpr m.sorted

/-- The value at one key changed. -/
def modify (m : OrdMap κ α) (k : κ) (f : α → α) : OrdMap κ α :=
  m.mapVal fun k' a => if k' = k then f a else a

def insert (m : OrdMap κ α) (k : κ) (a : α) : OrdMap κ α where
  entries := m.entries.filter (·.1 < k) ++ (k, a) :: m.entries.filter (k < ·.1)
  sorted := by
    refine List.pairwise_append.mpr ⟨m.sorted.filter _, List.pairwise_cons.mpr ⟨?_, m.sorted.filter _⟩, ?_⟩
    · intro e he
      simpa using (List.mem_filter.mp he).2
    · intro e he e' he'
      have hlt : e.1 < k := by simpa using (List.mem_filter.mp he).2
      rcases List.mem_cons.mp he' with rfl | he'
      · exact hlt
      · exact lt_trans hlt (by simpa using (List.mem_filter.mp he').2)

/-- The entry at a key taken out, if there is one. -/
def erase (m : OrdMap κ α) (k : κ) : OrdMap κ α where
  entries := m.entries.filter (·.1 ≠ k)
  sorted := m.sorted.filter _

/-! ### The view by key -/

variable {m : OrdMap κ α} {k k' : κ} {a : α}

theorem mem_entries : (k, a) ∈ m.entries ↔ m.get? k = some a := by
  obtain ⟨entries, hsorted⟩ := m
  simp only [get?]
  induction entries with
  | nil => simp
  | cons e l ih =>
    obtain ⟨hhead, htail⟩ := List.pairwise_cons.mp hsorted
    rw [List.lookup_cons, List.mem_cons]
    by_cases hk : k = e.1
    · subst hk
      have hnot : (e.1, a) ∉ l := fun h => lt_irrefl e.1 (hhead (e.1, a) h)
      simp [hnot, Prod.ext_iff, eq_comm]
    · have hne : (k, a) ≠ e := fun h => hk (by rw [← h])
      have hbeq : (k == e.1) = false := beq_false_of_ne hk
      simp [hbeq, hne, ih htail]

theorem get?_mapVal (f : κ → α → α) : (m.mapVal f).get? k = (m.get? k).map (f k) := by
  ext b
  rw [← mem_entries, Option.map_eq_some_iff]
  simp only [mapVal, List.mem_map, Prod.mk.injEq, Prod.exists]
  constructor
  · rintro ⟨k', a, hmem, rfl, rfl⟩
    exact ⟨a, mem_entries.mp hmem, rfl⟩
  · rintro ⟨a, ha, rfl⟩
    exact ⟨k, a, mem_entries.mpr ha, rfl, rfl⟩

@[simp] theorem get?_modify_self (f : α → α) : (m.modify k f).get? k = (m.get? k).map f := by
  rw [modify, get?_mapVal]
  simp

theorem get?_modify_of_ne (f : α → α) (h : k' ≠ k) : (m.modify k f).get? k' = m.get? k' := by
  rw [modify, get?_mapVal]
  simp [h]

@[simp] theorem get?_insert_self : (m.insert k a).get? k = some a := by
  rw [← mem_entries]
  exact List.mem_append_right _ List.mem_cons_self

theorem get?_insert_of_ne (h : k' ≠ k) : (m.insert k a).get? k' = m.get? k' := by
  ext b
  rw [← mem_entries, ← mem_entries]
  simp only [insert, List.mem_append, List.mem_filter, List.mem_cons, Prod.mk.injEq, h, false_and,
    false_or, decide_eq_true_eq]
  constructor
  · rintro (⟨hmem, -⟩ | ⟨hmem, -⟩)
    · exact hmem
    · exact hmem
  · intro hmem
    rcases lt_or_gt_of_ne h with hlt | hgt
    · exact .inl ⟨hmem, hlt⟩
    · exact .inr ⟨hmem, hgt⟩

theorem mem_keys : k ∈ m.keys ↔ (m.get? k).isSome := by
  rw [Option.isSome_iff_exists, keys, List.mem_map]
  constructor
  · rintro ⟨⟨k', a⟩, hmem, rfl⟩
    exact ⟨a, mem_entries.mp hmem⟩
  · rintro ⟨a, ha⟩
    exact ⟨(k, a), mem_entries.mpr ha, rfl⟩

end OrdMap

end Faastr.Lib
