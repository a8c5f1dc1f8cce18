import Faastr.Lib.Blocks

/-!
The free list that the frame allocator and the page allocator share
(`kernel/src/memory/recycle.rs`, `kernel/src/memory/valloc.rs`): entries of an
address and a count of pages, and `merge`, which both have in the same words.

`merge` changes an entry in place, calls itself on the whole list with that entry
still in it, and then removes the entry by its index. That is right because it
goes no deeper than two entries: on a separated list the block that is freed
touches at most one entry on each side (`giveBack_spec`).

An entry stands for a block of pages: `entries` spells a list of blocks as the code
stores it. Addresses are below `2^52`, so no sum of the code wraps.
-/

namespace Faastr.Memory

open Faastr.Lib

/-- `PAGE_SIZE`. -/
def pageSize : Nat := 4096

/-- The entry with a freed block joined to it, if the block touches it. -/
def touch (address count : Nat) (free : Nat × Nat) : Option (Nat × Nat) :=
  if address + count * pageSize = free.1 then some (address, free.2 + count)
  else if free.1 + free.2 * pageSize = address then some (free.1, free.2 + count)
  else none

/-- The first entry that is touched: its index, and what becomes of it. -/
def firstTouched (touch : Nat × Nat → Option (Nat × Nat)) :
    List (Nat × Nat) → Option (Nat × Nat × Nat)
  | [] => none
  | free :: rest =>
      match touch free with
      | some entry => some (0, entry)
      | none => (firstTouched touch rest).map fun (i, entry) => (i + 1, entry)

/-- `merge`, for a test of what a block touches, and on fuel: nothing is returned if the
recursion is deeper. -/
def mergeWith (touch : Nat → Nat → Nat × Nat → Option (Nat × Nat)) :
    Nat → List (Nat × Nat) → Nat → Nat → Option (Bool × List (Nat × Nat))
  | 0, _, _, _ => none
  | fuel + 1, free, address, count =>
      match firstTouched (touch address count) free with
      | none => some (false, free)
      | some (i, entry) =>
          (mergeWith touch fuel (free.set i entry) entry.1 entry.2).map fun (merged, free) =>
            (true, if merged then free.eraseIdx i else free)

def merge : Nat → List (Nat × Nat) → Nat → Nat → Option (Bool × List (Nat × Nat)) :=
  mergeWith touch

/-- A block is freed: it is merged, or becomes an entry of its own. -/
def giveBack (fuel : Nat) (free : List (Nat × Nat)) (address count : Nat) :
    Option (List (Nat × Nat)) :=
  (merge fuel free address count).map fun (merged, free) =>
    if merged then free else free ++ [(address, count)]

/-- More fuel changes nothing. -/
theorem merge_fuel_mono : ∀ {fuel : Nat} {free : List (Nat × Nat)} {address count : Nat}
    {r : Bool × List (Nat × Nat)}, merge fuel free address count = some r →
    ∀ {more : Nat}, fuel ≤ more → merge more free address count = some r
  | 0, _, _, _, _, h, _, _ => by cases h
  | fuel + 1, free, address, count, r, h, 0, hle => absurd hle (Nat.not_succ_le_zero _)
  | fuel + 1, free, address, count, r, h, more + 1, hle => by
      unfold merge mergeWith at h ⊢
      cases hfirst : firstTouched (touch address count) free with
      | none =>
        rw [hfirst] at h
        exact h
      | some found =>
        rw [hfirst] at h
        obtain ⟨r', hr', hr⟩ := Option.map_eq_some_iff.mp h
        have hmore := merge_fuel_mono hr' (Nat.le_of_succ_le_succ hle)
        unfold merge at hmore
        simp only [hmore, Option.map_some, hr]

theorem giveBack_deterministic {fuel fuel' address count : Nat} {free r r' : List (Nat × Nat)}
    (h : giveBack fuel free address count = some r)
    (h' : giveBack fuel' free address count = some r') : r = r' := by
  obtain ⟨m, hm, rfl⟩ := Option.map_eq_some_iff.mp h
  obtain ⟨m', hm', rfl⟩ := Option.map_eq_some_iff.mp h'
  have hsame := (merge_fuel_mono hm (Nat.le_max_left fuel fuel')).symm.trans
    (merge_fuel_mono hm' (Nat.le_max_right fuel fuel'))
  cases hsame
  rfl

section Congr

variable {touch touch' : Nat → Nat → Nat × Nat → Option (Nat × Nat)} {P : Nat × Nat → Prop}
  {free : List (Nat × Nat)} {address count : Nat}

theorem firstTouched_congr {touch touch' : Nat × Nat → Option (Nat × Nat)}
    (h : ∀ e ∈ free, touch e = touch' e) : firstTouched touch free = firstTouched touch' free := by
  induction free with
  | nil => rfl
  | cons x free ih =>
    obtain ⟨hx, hfree⟩ := List.forall_mem_cons.mp h
    rw [firstTouched, firstTouched, hx, ih hfree]

theorem mem_of_firstTouched {touch : Nat × Nat → Option (Nat × Nat)} {i : Nat} {entry : Nat × Nat}
    (h : firstTouched touch free = some (i, entry)) : ∃ e ∈ free, touch e = some entry := by
  induction free generalizing i with
  | nil => cases h
  | cons x free ih =>
    unfold firstTouched at h
    split at h
    · next htouch =>
      cases h
      exact ⟨x, List.mem_cons_self, htouch⟩
    · obtain ⟨⟨j, e⟩, hj, heq⟩ := Option.map_eq_some_iff.mp h
      cases heq
      obtain ⟨e', he', htouch⟩ := ih hj
      exact ⟨e', List.mem_cons_of_mem x he', htouch⟩

/-- Two tests that agree on certain entries, and do not lead away from them. -/
theorem mergeWith_congr (hsame : ∀ {a c e}, P (a, c) → P e → touch a c e = touch' a c e)
    (hkeep : ∀ {a c e e'}, P (a, c) → P e → touch' a c e = some e' → P e') (fuel : Nat)
    (hb : P (address, count)) (hfree : ∀ e ∈ free, P e) :
    mergeWith touch fuel free address count = mergeWith touch' fuel free address count := by
  induction fuel generalizing free address count with
  | zero => rfl
  | succ fuel ih =>
    rw [mergeWith, mergeWith, firstTouched_congr fun e he => hsame hb (hfree e he)]
    cases hfound : firstTouched (touch' address count) free with
    | none => rfl
    | some found =>
      obtain ⟨e, he, htouch⟩ := mem_of_firstTouched hfound
      have hentry := hkeep hb (hfree e he) htouch
      have hset : ∀ e ∈ free.set found.1 found.2, P e := by
        intro e he
        rcases List.mem_or_eq_of_mem_set he with he | rfl
        · exact hfree e he
        · exact hentry
      dsimp only
      rw [ih hentry hset]

end Congr

/-! ### Entries and blocks -/

/-- The entry of a block. -/
def entry (b : Block) : Nat × Nat := (b.start * pageSize, b.count)

def entries (bs : List Block) : List (Nat × Nat) := bs.map entry

theorem touch_entry (b e : Block) :
    touch (b.start * pageSize) b.count (entry e) = (b.extend e).map entry := by
  unfold touch Block.extend entry Block.stop
  simp only [← Nat.add_mul, Nat.mul_left_inj (show pageSize ≠ 0 by decide)]
  split
  · rfl
  · split <;> rfl

/-- A list of blocks is split at an entry. -/
theorem entries_split {bs : List Block} {i : Nat} {e : Nat × Nat} (h : (entries bs)[i]? = some e) :
    ∃ xs b ys, bs = xs ++ b :: ys ∧ i = xs.length ∧ e = entry b := by
  rw [entries, List.getElem?_map] at h
  obtain ⟨b, hb, rfl⟩ := Option.map_eq_some_iff.mp h
  obtain ⟨hlt, hget⟩ := List.getElem?_eq_some_iff.mp hb
  refine ⟨bs.take i, b, bs.drop (i + 1), ?_, ?_, rfl⟩
  · rw [← hget, List.getElem_cons_drop, List.take_append_drop]
  · rw [List.length_take, Nat.min_eq_left (Nat.le_of_lt hlt)]

variable {b e e' : Block} {bs xs ys : List Block}

theorem firstTouched_none (h : ∀ x ∈ bs, b.extend x = none) :
    firstTouched (touch (b.start * pageSize) b.count) (entries bs) = none := by
  induction bs with
  | nil => rfl
  | cons x bs ih =>
    obtain ⟨hx, hbs⟩ := List.forall_mem_cons.mp h
    rw [entries, List.map_cons, firstTouched, touch_entry, hx]
    rw [show firstTouched _ (bs.map entry) = none from ih hbs]
    rfl

theorem firstTouched_at (hxs : ∀ x ∈ xs, b.extend x = none) (he : b.extend e = some e') :
    firstTouched (touch (b.start * pageSize) b.count) (entries (xs ++ e :: ys)) =
      some (xs.length, entry e') := by
  induction xs with
  | nil =>
    rw [List.nil_append, entries, List.map_cons, firstTouched, touch_entry, he]
    rfl
  | cons x xs ih =>
    obtain ⟨hx, hxs⟩ := List.forall_mem_cons.mp hxs
    rw [List.cons_append, entries, List.map_cons, firstTouched, touch_entry, hx]
    rw [show firstTouched _ ((xs ++ e :: ys).map entry) = _ from ih hxs]
    rfl

/-- A block that touches no entry is not merged. -/
theorem merge_none (fuel : Nat) (h : ∀ x ∈ bs, b.extend x = none) :
    merge (fuel + 1) (entries bs) (b.start * pageSize) b.count = some (false, entries bs) := by
  rw [merge, mergeWith, firstTouched_none h]

/-- The first entry that a block touches is changed in place, and merged itself. -/
theorem merge_at (ys : List Block) (fuel : Nat) (hxs : ∀ x ∈ xs, b.extend x = none)
    (he : b.extend e = some e') :
    merge (fuel + 1) (entries (xs ++ e :: ys)) (b.start * pageSize) b.count =
      (merge fuel (entries (xs ++ e' :: ys)) (e'.start * pageSize) e'.count).map fun r =>
        (true, if r.1 then r.2.eraseIdx xs.length else r.2) := by
  have hset : (entries (xs ++ e :: ys)).set xs.length (entry e') = entries (xs ++ e' :: ys) := by
    simp [entries, List.set_append_right]
  rw [merge, mergeWith, firstTouched_at hxs he]
  simp only [hset]
  rfl

/-- The first block of a list that another touches, if there is one. -/
theorem split_first (b : Block) : ∀ bs : List Block, (∀ x ∈ bs, b.extend x = none) ∨
    ∃ xs e e' ys, bs = xs ++ e :: ys ∧ (∀ x ∈ xs, b.extend x = none) ∧ b.extend e = some e'
  | [] => .inl nofun
  | x :: bs => by
      cases hx : b.extend x with
      | some e' => exact .inr ⟨[], x, e', bs, rfl, nofun, hx⟩
      | none =>
        rcases split_first b bs with hnone | ⟨xs, e, e', ys, rfl, hxs, he⟩
        · exact .inl (List.forall_mem_cons.mpr ⟨hx, hnone⟩)
        · exact .inr ⟨x :: xs, e, e', ys, rfl, List.forall_mem_cons.mpr ⟨hx, hxs⟩, he⟩

/-! ### Freeing a block -/

/-- What freeing a block must come to. -/
def Merged (b : Block) (bs : List Block) (free : List (Nat × Nat)) : Prop :=
  ∃ bs', free = entries bs' ∧ Separated bs' ∧ covered bs' = covered bs ∪ b.cells

/-- A block joins a list whose blocks it does not touch. -/
theorem separated_append (hbs : Separated bs) (hb : 0 < b.count) (hclear : ∀ x ∈ bs, b.Clear x)
    (hnone : ∀ x ∈ bs, b.extend x = none) : Separated (b :: bs) :=
  Separated.cons_iff.mpr ⟨hb, fun x hx => Block.apart_of_clear (hclear x hx) (hnone x hx), hbs⟩

/-- The block touches no entry: it becomes one. -/
theorem giveBack_none (hbs : Separated bs) (hb : 0 < b.count) (hclear : ∀ x ∈ bs, b.Clear x)
    (hnone : ∀ x ∈ bs, b.extend x = none) :
    ∃ free, giveBack 3 (entries bs) (b.start * pageSize) b.count = some free ∧
      Merged b bs free := by
  have hperm := List.perm_append_singleton b bs
  refine ⟨entries (bs ++ [b]), ?_, bs ++ [b], rfl, ?_, ?_⟩
  · rw [giveBack, merge_none 2 hnone]
    simp [entries, entry]
  · exact (separated_append hbs hb hclear hnone).perm hperm.symm
  · rw [covered_perm hperm, covered_cons, Set.union_comm]

section Joining

variable {k k' : Block} (he : b.extend e = some e') (hb : 0 < b.count)

include he hb

/-- The block touches one entry, which then touches no other. -/
theorem giveBack_one (hbs : Separated (xs ++ e :: ys)) (hclear : ∀ x ∈ xs ++ e :: ys, b.Clear x)
    (hxs : ∀ x ∈ xs, b.extend x = none) (hxs' : ∀ x ∈ xs, e'.extend x = none)
    (hys : ∀ y ∈ ys, e'.extend y = none) :
    ∃ free, giveBack 3 (entries (xs ++ e :: ys)) (b.start * pageSize) b.count = some free ∧
      Merged b (xs ++ e :: ys) free := by
  obtain ⟨hpos, hapart, hrest⟩ := Separated.cons_iff.mp (hbs.perm List.perm_middle)
  have hpos' : 0 < e'.count := by
    rw [Block.count_of_extend he]
    exact Nat.add_pos_left hpos _
  have hothers : ∀ x ∈ xs ++ ys, e'.extend x = none := by
    intro x hx
    rcases List.mem_append.mp hx with hx | hx
    · exact hxs' x hx
    · exact hys x hx
  have hnone : ∀ x ∈ xs ++ e' :: ys, e'.extend x = none := by
    intro x hx
    rcases List.mem_cons.mp (List.perm_middle.mem_iff.mp hx) with rfl | hx
    · exact Block.extend_self hpos'
    · exact hothers x hx
  have hclear' : ∀ x ∈ xs ++ ys, e'.Clear x := by
    intro x hx
    exact Block.Clear.of_extend he hpos hb (hrest.pos x hx) (hapart x hx).clear
      (hclear x (List.perm_middle.mem_iff.mpr (List.mem_cons_of_mem _ hx)))
  refine ⟨entries (xs ++ e' :: ys), ?_, xs ++ e' :: ys, rfl, ?_, ?_⟩
  · rw [giveBack, merge_at _ 2 hxs he, merge_none 1 hnone]
    rfl
  · exact (separated_append hrest hpos' hclear' hothers).perm List.perm_middle.symm
  · rw [covered_perm List.perm_middle, covered_perm List.perm_middle, covered_cons, covered_cons,
      Block.cells_of_extend he, Set.union_right_comm]

/-- The block touches two entries: the first is joined to the second and removed. -/
theorem giveBack_two (hbs : Separated (xs ++ e :: (ys ++ k :: bs)))
    (hclear : ∀ x ∈ xs ++ e :: (ys ++ k :: bs), b.Clear x) (hxs : ∀ x ∈ xs, b.extend x = none)
    (hxs' : ∀ x ∈ xs, e'.extend x = none) (hys : ∀ y ∈ ys, e'.extend y = none)
    (hk : e'.extend k = some k') :
    ∃ free, giveBack 3 (entries (xs ++ e :: (ys ++ k :: bs))) (b.start * pageSize) b.count =
        some free ∧ Merged b (xs ++ e :: (ys ++ k :: bs)) free := by
  have hperm : (xs ++ e :: (ys ++ k :: bs)).Perm (e :: k :: (xs ++ (ys ++ bs))) := by
    refine List.perm_middle.trans (List.Perm.cons e ?_)
    rw [← List.append_assoc, ← List.append_assoc]
    exact List.perm_middle
  obtain ⟨hpos, hapart, hrest⟩ := Separated.cons_iff.mp (hbs.perm hperm)
  obtain ⟨hkpos, hkapart, hothers⟩ := Separated.cons_iff.mp hrest
  have hpos' : 0 < e'.count := by
    rw [Block.count_of_extend he]
    exact Nat.add_pos_left hpos _
  have hkpos' : 0 < k'.count := by
    rw [Block.count_of_extend hk]
    exact Nat.add_pos_left hkpos _
  have hfar : ∀ x ∈ xs ++ (ys ++ bs), k'.Apart x := by
    intro x hx
    exact Block.Apart.of_extend_twice he hk hpos hb hkpos (hothers.pos x hx)
      (hapart k (List.mem_cons_self ..)) (hapart x (List.mem_cons_of_mem _ hx)) (hkapart x hx)
      (hclear x (hperm.mem_iff.mpr (List.mem_cons_of_mem _ (List.mem_cons_of_mem _ hx))))
  have hfirst : ∀ x ∈ xs ++ e' :: ys, e'.extend x = none := by
    intro x hx
    rcases List.mem_append.mp hx with hx | hx
    · exact hxs' x hx
    · rcases List.mem_cons.mp hx with rfl | hx
      · exact Block.extend_self hpos'
      · exact hys x hx
  have hlast : ∀ x ∈ (xs ++ e' :: ys) ++ k' :: bs, k'.extend x = none := by
    intro x hx
    simp only [List.append_assoc, List.cons_append, List.mem_append, List.mem_cons] at hx
    rcases hx with hx | rfl | hx | rfl | hx
    · exact (hfar x (by simp [hx])).extend_none
    · exact Block.extend_inside he hk hpos
    · exact (hfar x (by simp [hx])).extend_none
    · exact Block.extend_self hkpos'
    · exact (hfar x (by simp [hx])).extend_none
  have herase : (entries ((xs ++ e' :: ys) ++ k' :: bs)).eraseIdx xs.length =
      entries (xs ++ (ys ++ k' :: bs)) := by
    simp [entries, List.eraseIdx_append_of_length_le]
  have hperm' : (xs ++ (ys ++ k' :: bs)).Perm (k' :: (xs ++ (ys ++ bs))) := by
    rw [← List.append_assoc, ← List.append_assoc]
    exact List.perm_middle
  refine ⟨entries (xs ++ (ys ++ k' :: bs)), ?_, xs ++ (ys ++ k' :: bs), rfl, ?_, ?_⟩
  · have hmerge := merge_at bs 1 hfirst hk
    rw [merge_none 0 hlast] at hmerge
    rw [List.append_assoc, List.cons_append] at hmerge
    rw [giveBack, merge_at _ 2 hxs he, hmerge]
    simp only [Option.map_some, if_true, if_false, Bool.false_eq_true, herase]
  · exact (Separated.cons_iff.mpr ⟨hkpos', hfar, hothers⟩).perm hperm'.symm
  · rw [covered_perm hperm', covered_perm hperm, covered_cons, covered_cons, covered_cons,
      Block.cells_of_extend hk, Block.cells_of_extend he]
    ext x
    simp only [Set.mem_union]
    tauto

end Joining

/-- **Freeing a block keeps the list separated, and adds the block's pages.** For
every separated list and every block that overlaps none of its entries the
recursion is at most three calls deep. -/
theorem giveBack_spec (hbs : Separated bs) (hb : 0 < b.count) (hclear : ∀ x ∈ bs, b.Clear x) :
    ∃ free, giveBack 3 (entries bs) (b.start * pageSize) b.count = some free ∧
      Merged b bs free := by
  rcases split_first b bs with hnone | ⟨xs, e, e', ys, rfl, hxs, he⟩
  · exact giveBack_none hbs hb hclear hnone
  · obtain ⟨hpos, hapart, hrest⟩ := Separated.cons_iff.mp (hbs.perm List.perm_middle)
    -- What the changed entry touches the block touched already, so it is behind it.
    have hxs' : ∀ x ∈ xs, e'.extend x = none := by
      intro x hx
      have hmem : x ∈ xs ++ ys := List.mem_append_left _ hx
      exact Block.extend_none_of_extend he (hrest.pos x hmem) hb (hapart x hmem) (hxs x hx)
    rcases split_first e' ys with hys | ⟨zs, k, k', ws, rfl, hzs, hk⟩
    · exact giveBack_one he hb hbs hclear hxs hxs' hys
    · exact giveBack_two he hb hbs hclear hxs hxs' hzs hk

end Faastr.Memory
