import Mathlib.Data.List.Basic

/-!
Checked slices.

A fallible computation over byte buffers: every index, sub-slice and copy is
checked against the length of the list it is applied to, and a failed check
aborts the computation with a `Fault`. Mutation through a borrowed sub-slice is
`onSlice`: the computation sees the sub-slice alone, and what it returns is put
back in place.

The lemmas are stated for a buffer already split at the borrowed positions
(`front ++ mid ++ back`), the form in which an encoder that walks a buffer from
left to right meets it: `front` is finished and `mid ++ back` is still to be
written.
-/

namespace Faastr.Lib

/-- Why a checked computation aborted. -/
inductive Fault where
  | index
  | copyLength
  | assertion
  | unwrap
deriving DecidableEq, Repr

/-- A computation that returns a value or aborts. -/
abbrev Checked (α : Type) := Except Fault α

theorem bind_eq_ok {α β : Type} {x : Checked α} {f : α → Checked β} {b : β} :
    (x >>= f) = .ok b ↔ ∃ a, x = .ok a ∧ f a = .ok b := by
  cases x with
  | error e => simp [bind, Except.bind]
  | ok a => simp [bind, Except.bind]

/-- The code does not panic. -/
def Succeeds {α : Type} (x : Checked α) : Prop := ∃ a, x = .ok a

theorem Succeeds.pure {α : Type} (a : α) : Succeeds (Pure.pure a : Checked α) := ⟨a, rfl⟩

theorem Succeeds.bind {α β : Type} {x : Checked α} {f : α → Checked β} (h : Succeeds x)
    (hf : ∀ a, x = .ok a → Succeeds (f a)) : Succeeds (x >>= f) := by
  obtain ⟨a, ha⟩ := h
  obtain ⟨b, hb⟩ := hf a ha
  exact ⟨b, bind_eq_ok.mpr ⟨a, ha, hb⟩⟩

/-- Abort unless the condition holds. -/
def require (c : Bool) : Checked Unit :=
  if c then .ok () else .error .assertion

section Slices

variable {α : Type}

/-- `xs[lo..hi]`. -/
def slice (xs : List α) (lo hi : Nat) : Checked (List α) :=
  if lo ≤ hi ∧ hi ≤ xs.length then .ok ((xs.drop lo).take (hi - lo)) else .error .index

/-- `xs[i]`. -/
def getAt (xs : List α) (i : Nat) : Checked α :=
  match xs[i]? with
  | some a => .ok a
  | none => .error .index

/-- `xs[i] = a`. -/
def setAt (xs : List α) (i : Nat) (a : α) : Checked (List α) :=
  if i < xs.length then .ok (xs.set i a) else .error .index

/-- Run `f` on the mutable sub-slice `xs[lo..hi]` and put the result back. -/
def onSlice (xs : List α) (lo hi : Nat) (f : List α → Checked (List α)) : Checked (List α) := do
  let part ← f (← slice xs lo hi)
  return xs.take lo ++ part ++ xs.drop hi

/-- `dst.copy_from_slice(src)`: the lengths must agree. -/
def copyFromSlice (dst src : List α) : Checked (List α) :=
  if dst.length = src.length then .ok src else .error .copyLength

theorem slice_eq_ok_iff {xs ys : List α} {lo hi : Nat} :
    slice xs lo hi = .ok ys ↔ lo ≤ hi ∧ hi ≤ xs.length ∧ ys = (xs.drop lo).take (hi - lo) := by
  unfold slice
  split
  · rename_i h
    simp [h, eq_comm]
  · rename_i h
    simp only [reduceCtorEq, false_iff]
    exact fun h' => h ⟨h'.1, h'.2.1⟩

/-- The elements between two positions. -/
def cut (xs : List α) (lo hi : Nat) : List α := (xs.drop lo).take (hi - lo)

theorem length_cut {xs : List α} {lo hi : Nat} (h : hi ≤ xs.length) : (cut xs lo hi).length = hi - lo := by
  rw [cut, List.length_take, List.length_drop]
  omega

/-- A part of a part is a part. -/
theorem cut_cut {xs : List α} {lo hi i j : Nat} (h : lo + j ≤ hi) :
    cut (cut xs lo hi) i j = cut xs (lo + i) (lo + j) := by
  rw [cut, cut, cut, List.drop_take, List.take_take, List.drop_drop,
    show min (j - i) (hi - lo - i) = lo + j - (lo + i) by omega]

theorem drop_cut (xs : List α) (lo hi i : Nat) : (cut xs lo hi).drop i = cut xs (lo + i) hi := by
  rw [cut, cut, List.drop_take, List.drop_drop, show hi - lo - i = hi - (lo + i) by omega]

theorem getElem?_cut {xs : List α} {lo hi i : Nat} (h : lo + i < hi) :
    (cut xs lo hi)[i]? = xs[lo + i]? := by
  rw [cut, List.getElem?_take_of_lt (by omega), List.getElem?_drop]

theorem slice_eq_cut {xs : List α} {lo hi : Nat} (hle : lo ≤ hi) (hhi : hi ≤ xs.length) :
    slice xs lo hi = .ok (cut xs lo hi) := if_pos ⟨hle, hhi⟩

theorem slice_succeeds {xs : List α} {lo hi : Nat} (hle : lo ≤ hi) (hhi : hi ≤ xs.length) :
    Succeeds (slice xs lo hi) := ⟨_, if_pos ⟨hle, hhi⟩⟩

theorem getAt_succeeds {xs : List α} {i : Nat} (h : i < xs.length) : Succeeds (getAt xs i) := by
  refine ⟨xs[i], ?_⟩
  rw [getAt, List.getElem?_eq_getElem h]

theorem length_of_slice {xs ys : List α} {lo hi : Nat} (h : slice xs lo hi = .ok ys) :
    ys.length = hi - lo := by
  obtain ⟨-, hhi, rfl⟩ := slice_eq_ok_iff.mp h
  rw [List.length_take, List.length_drop]
  omega

/-- A list is cut at any position inside it. -/
theorem exists_split (xs : List α) (n : Nat) (h : n ≤ xs.length) :
    ∃ front back, front.length = n ∧ xs = front ++ back :=
  ⟨xs.take n, xs.drop n, List.length_take_of_le h, (List.take_append_drop n xs).symm⟩

/-- The middle of a split buffer is the sub-slice between the two positions. -/
theorem slice_split (front mid back : List α) {xs : List α} {lo hi : Nat}
    (hxs : xs = front ++ (mid ++ back)) (hlo : lo = front.length)
    (hhi : hi = front.length + mid.length) : slice xs lo hi = .ok mid := by
  subst hxs hlo hhi
  have hbound : front.length ≤ front.length + mid.length ∧
      front.length + mid.length ≤ (front ++ (mid ++ back)).length := by
    simp only [List.length_append]; omega
  rw [slice, if_pos hbound, List.drop_left, Nat.add_sub_cancel_left, List.take_left]

theorem setAt_split (front : List α) (a : α) (back : List α) {xs : List α} {b : α} {i : Nat}
    (hxs : xs = front ++ a :: back) (hi : i = front.length) :
    setAt xs i b = .ok (front ++ b :: back) := by
  subst hxs hi
  have hlt : front.length < (front ++ a :: back).length := by simp
  rw [setAt, if_pos hlt, List.set_append_right _ _ (Nat.le_refl _), Nat.sub_self, List.set_cons_zero]

theorem onSlice_of_slice {xs mid : List α} {lo hi : Nat} {f : List α → Checked (List α)}
    (h : slice xs lo hi = .ok mid) :
    onSlice xs lo hi f = (f mid).map (fun part => xs.take lo ++ part ++ xs.drop hi) := by
  rw [onSlice, h]
  change (f mid >>= fun part => pure (xs.take lo ++ part ++ xs.drop hi)) = _
  cases f mid <;> rfl

/-- What a change of a sub-slice that succeeds has done. -/
theorem onSlice_eq_ok {xs ys : List α} {lo hi : Nat} {f : List α → Checked (List α)}
    (h : onSlice xs lo hi f = .ok ys) : ∃ mid part, slice xs lo hi = .ok mid ∧ f mid = .ok part ∧
      ys = xs.take lo ++ part ++ xs.drop hi := by
  obtain ⟨mid, hmid, h⟩ := bind_eq_ok.mp h
  obtain ⟨part, hpart, h⟩ := bind_eq_ok.mp h
  cases h
  exact ⟨mid, part, hmid, hpart, rfl⟩

/-- Running `f` on the middle of a split buffer touches the middle alone. -/
theorem onSlice_split (front mid back : List α) {xs mid' : List α} {lo hi : Nat}
    {f : List α → Checked (List α)} (hxs : xs = front ++ (mid ++ back)) (hlo : lo = front.length)
    (hhi : hi = front.length + mid.length) (hf : f mid = .ok mid') :
    onSlice xs lo hi f = .ok (front ++ (mid' ++ back)) := by
  have hdrop : xs.drop hi = back := by
    rw [hxs, hhi, ← List.append_assoc, ← List.length_append, List.drop_left]
  rw [onSlice_of_slice (slice_split front mid back hxs hlo hhi), hf, hdrop, hxs, hlo, List.take_left]
  simp [Except.map]

/-- Running `f` on the front of a buffer touches the front alone. -/
theorem onSlice_front (mid back : List α) {xs mid' : List α} {hi : Nat}
    {f : List α → Checked (List α)} (hxs : xs = mid ++ back) (hhi : hi = mid.length)
    (hf : f mid = .ok mid') : onSlice xs 0 hi f = .ok (mid' ++ back) := by
  have h := onSlice_split [] mid back hxs rfl (by simpa using hhi) hf
  exact h

theorem copyFromSlice_of_length_eq {dst src : List α} (h : dst.length = src.length) :
    copyFromSlice dst src = .ok src := if_pos h

theorem copyFromSlice_of_length_ne {dst src : List α} (h : dst.length ≠ src.length) :
    copyFromSlice dst src = .error .copyLength := if_neg h

end Slices

end Faastr.Lib
