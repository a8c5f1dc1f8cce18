import Faastr.Lib.Transition
import Faastr.Memory.FreeList

/-!
The frame recycler (`kernel/src/memory/recycle.rs`): freed frames are kept in a
free list and handed out again before the inner allocator is asked.

The inner allocator is a parameter; all that is asked of it is that it hands out no
frame twice (`NeverTwice`). A run is any sequence of allocations and of
deallocations of live frames; along it the set of live frames and the set of frames
that were freed and not handed out again are kept beside the allocator.

* `recycler_correct`: in every state of every run the free list is the list of
  maximal runs of exactly the frames freed and not handed out again, what is
  handed out is not live, a deallocation returns, and a request is served from the
  free list whenever it can be.
-/

namespace Faastr.Memory

open Faastr.Lib

/-- The operations of an inner allocator that the recycler uses. -/
structure FrameAllocator (τ : Type) where
  allocateFrames : τ → Nat → Option Nat × τ
  deallocateFrames : τ → Nat → Nat → τ

structure RecycleAllocator (τ : Type) where
  inner : τ
  noncore : Bool
  free : List (Nat × Nat)

/-- The loop of `allocate_frames`: the last of the smallest entries with enough
frames, with its index. -/
def findSmall (count : Nat) : List (Nat × Nat) → Nat → Option (Nat × Nat × Nat) →
    Option (Nat × Nat × Nat)
  | [], _, small => small
  | free :: rest, i, small =>
      findSmall count rest (i + 1) <|
        if count ≤ free.2 then
          match small with
          | none => some (i, free)
          | some (j, best) => if free.2 ≤ best.2 then some (i, free) else some (j, best)
        else small

namespace RecycleAllocator

variable {τ : Type}

def new (inner : τ) : RecycleAllocator τ := { inner, noncore := false, free := [] }

def setNoncore (a : RecycleAllocator τ) (noncore : Bool) : RecycleAllocator τ := { a with noncore }

/-- Frames are taken from the end of the smallest entry that has enough of them. -/
def allocateFrames (A : FrameAllocator τ) (a : RecycleAllocator τ) (count : Nat) :
    Option Nat × RecycleAllocator τ :=
  match findSmall count a.free 0 none with
  | some (i, address, size) =>
      let left := size - count
      let free := a.free.set i (address, left)
      (some ((address + left * pageSize) / pageSize),
        { a with free := if left = 0 then free.eraseIdx i else free })
  | none =>
      let (frame, inner) := A.allocateFrames a.inner count
      (frame, { a with inner })

/-- On fuel for `merge`. -/
def deallocateFrames (A : FrameAllocator τ) (fuel : Nat) (a : RecycleAllocator τ)
    (frame count : Nat) : Option (RecycleAllocator τ) :=
  if a.noncore then
    (giveBack fuel a.free (frame * pageSize) count).map fun free => { a with free }
  else some { a with inner := A.deallocateFrames a.inner frame count }

end RecycleAllocator

/-! ### The smallest entry -/

/-- The loop returns what it has found so far, or an entry with enough frames. -/
theorem findSmall_mem (count : Nat) : ∀ (free : List (Nat × Nat)) (i : Nat)
    (small : Option (Nat × Nat × Nat)) {j : Nat} {e : Nat × Nat},
    findSmall count free i small = some (j, e) →
    small = some (j, e) ∨ ∃ k, j = i + k ∧ free[k]? = some e ∧ count ≤ e.2
  | [], _, _, _, _, h => .inl h
  | x :: free, i, small, j, e, h => by
      unfold findSmall at h
      rcases findSmall_mem count free (i + 1) _ h with hnow | ⟨k, rfl, hk, hle⟩
      · split at hnow
        · rename_i hle
          split at hnow
          · cases hnow
            exact .inr ⟨0, rfl, rfl, hle⟩
          · split at hnow
            · cases hnow
              exact .inr ⟨0, rfl, rfl, hle⟩
            · exact .inl hnow
        · exact .inl hnow
      · exact .inr ⟨k + 1, by omega, hk, hle⟩

/-- The loop finds something if it had, or if there is something to find. -/
theorem findSmall_isSome (count : Nat) : ∀ (free : List (Nat × Nat)) (i : Nat)
    (small : Option (Nat × Nat × Nat)), small.isSome ∨ (∃ e ∈ free, count ≤ e.2) →
    (findSmall count free i small).isSome
  | [], _, small, h => by
      rcases h with h | ⟨e, he, -⟩
      · exact h
      · cases he
  | x :: free, i, small, h => by
      unfold findSmall
      apply findSmall_isSome count free (i + 1)
      by_cases hx : count ≤ x.2
      · rw [if_pos hx]
        left
        split
        · rfl
        · split <;> rfl
      · rw [if_neg hx]
        refine h.imp_right ?_
        rintro ⟨e, he, hle⟩
        rcases List.mem_cons.mp he with rfl | he
        · exact absurd hle hx
        · exact ⟨e, he, hle⟩

/-! ### Allocating from the free list -/

variable {bs : List Block} {count i : Nat} {e : Nat × Nat}

/-- The entry that is found is that of a block with enough frames. -/
theorem findSmall_split (h : findSmall count (entries bs) 0 none = some (i, e)) :
    ∃ xs b ys, bs = xs ++ b :: ys ∧ i = xs.length ∧ e = entry b ∧ count ≤ b.count := by
  rcases findSmall_mem count _ _ _ h with hno | ⟨k, hik, hk, hle⟩
  · cases hno
  · rw [Nat.zero_add] at hik
    obtain ⟨xs, b, ys, hbs, hi, rfl⟩ := entries_split (hik ▸ hk)
    exact ⟨xs, b, ys, hbs, hi, rfl, hle⟩

/-- What allocating from the free list comes to: the frames it hands out, and the
list without them. -/
def Taken (count : Nat) (bs : List Block) (frame : Nat) (free : List (Nat × Nat)) : Prop :=
  (⟨frame, count⟩ : Block).cells ⊆ covered bs ∧
    ∃ bs', free = entries bs' ∧ Separated bs' ∧
      covered bs' = covered bs \ (⟨frame, count⟩ : Block).cells

/-- Frames taken from the end of an entry. -/
theorem taken_of_split {xs ys : List Block} {b : Block} (hbs : Separated (xs ++ b :: ys))
    (hle : count ≤ b.count) :
    Taken count (xs ++ b :: ys) (b.start + (b.count - count))
      (if b.count - count = 0 then
        ((entries (xs ++ b :: ys)).set xs.length (b.start * pageSize, b.count - count)).eraseIdx
          xs.length
      else (entries (xs ++ b :: ys)).set xs.length (b.start * pageSize, b.count - count)) := by
  have hsep := hbs.perm List.perm_middle
  have hlast := Block.lastCells_subset hle
  have hrest := Block.cells_without_last hle
  have hdiff := hsep.covered_diff hlast
  rw [← hrest] at hdiff
  have hset : (entries (xs ++ b :: ys)).set xs.length (b.start * pageSize, b.count - count) =
      entries (xs ++ ⟨b.start, b.count - count⟩ :: ys) := by
    simp [entries, entry, List.set_append_right]
  refine ⟨?_, ?_⟩
  · rw [covered_perm List.perm_middle, covered_cons]
    exact fun x hx => .inl (hlast hx)
  · rw [hset]
    by_cases hzero : b.count - count = 0
    · rw [if_pos hzero]
      refine ⟨xs ++ ys, ?_, (Separated.cons_iff.mp hsep).2.2, ?_⟩
      · simp [entries, List.eraseIdx_append_of_length_le]
      · have hempty : (⟨b.start, b.count - count⟩ : Block).cells = ∅ := by
          ext x
          rw [Block.mem_cells]
          simp only [Set.mem_empty_iff_false, iff_false]
          omega
        rw [covered_perm List.perm_middle]
        rw [hempty, Set.empty_union] at hdiff
        exact hdiff.symm
    · rw [if_neg hzero]
      refine ⟨xs ++ ⟨b.start, b.count - count⟩ :: ys, rfl, ?_, ?_⟩
      · exact (hsep.shorten (by omega)).perm List.perm_middle.symm
      · rw [covered_perm List.perm_middle, covered_perm List.perm_middle, covered_cons]
        exact hdiff.symm

namespace RecycleAllocator

variable {τ : Type} {A : FrameAllocator τ} {a : RecycleAllocator τ}

/-- Some entry has enough frames exactly if there are enough in a row. -/
theorem findSmall_isSome_iff (hbs : Separated bs) (hcount : 0 < count) :
    (findSmall count (entries bs) 0 none).isSome ↔
      ∃ frame, (⟨frame, count⟩ : Block).cells ⊆ covered bs := by
  constructor
  · intro h
    obtain ⟨⟨i, e⟩, hfound⟩ := Option.isSome_iff_exists.mp h
    obtain ⟨xs, b, ys, rfl, -, -, hle⟩ := findSmall_split hfound
    exact ⟨b.start + (b.count - count), (taken_of_split hbs hle).1⟩
  · rintro ⟨frame, hsub⟩
    obtain ⟨b, hb, hstart, hstop⟩ := hbs.run_within hcount fun x hx hx' => hsub ⟨hx, hx'⟩
    refine findSmall_isSome count _ 0 none (.inr ⟨entry b, List.mem_map_of_mem hb, ?_⟩)
    unfold Block.stop at hstop
    show count ≤ b.count
    omega

/-- A request that the free list can serve is served from it. -/
theorem allocateFrames_served (hfree : a.free = entries bs) (hbs : Separated bs)
    (hcount : 0 < count) (hrun : ∃ frame, (⟨frame, count⟩ : Block).cells ⊆ covered bs) :
    ∃ frame free, a.allocateFrames A count = (some frame, { a with free }) ∧
      Taken count bs frame free := by
  obtain ⟨⟨i, e⟩, hfound⟩ := Option.isSome_iff_exists.mp
    ((findSmall_isSome_iff hbs hcount).mpr hrun)
  obtain ⟨xs, b, ys, rfl, rfl, rfl, hle⟩ := findSmall_split hfound
  have hframe : (b.start * pageSize + (b.count - count) * pageSize) / pageSize =
      b.start + (b.count - count) := by
    rw [← Nat.add_mul, Nat.mul_div_cancel _ (by decide)]
  refine ⟨_, _, ?_, taken_of_split hbs hle⟩
  unfold allocateFrames
  rw [hfree, hfound]
  simp only [entry, hframe]
  rfl

/-- A request that the free list cannot serve goes to the inner allocator. -/
theorem allocateFrames_asked (hfree : a.free = entries bs) (hbs : Separated bs)
    (hcount : 0 < count) (hrun : ¬ ∃ frame, (⟨frame, count⟩ : Block).cells ⊆ covered bs) :
    a.allocateFrames A count = ((A.allocateFrames a.inner count).1,
      { a with inner := (A.allocateFrames a.inner count).2 }) := by
  have hnone : findSmall count a.free 0 none = none := by
    rw [hfree, ← Option.not_isSome_iff_eq_none]
    exact fun h => hrun ((findSmall_isSome_iff hbs hcount).mp h)
  unfold allocateFrames
  rw [hnone]

end RecycleAllocator

/-! ### Runs -/

section Runs

variable {τ : Type}

/-- The inner allocator after a sequence of requests. -/
def FrameAllocator.after (A : FrameAllocator τ) (inner : τ) (counts : List Nat) : τ :=
  counts.foldl (fun t count => (A.allocateFrames t count).2) inner

/-- The frames that a request hands out. -/
def handedOut (frame : Option Nat) (count : Nat) : Set Nat :=
  match frame with
  | some frame => (⟨frame, count⟩ : Block).cells
  | none => ∅

/-- The frames that the inner allocator hands out for a sequence of requests. -/
def FrameAllocator.issued (A : FrameAllocator τ) : τ → List Nat → Set Nat
  | _, [] => ∅
  | t, count :: counts =>
      handedOut (A.allocateFrames t count).1 count ∪ A.issued (A.allocateFrames t count).2 counts

/-- The inner allocator hands out no frame twice, and none that is live. -/
def FrameAllocator.NeverTwice (A : FrameAllocator τ) (inner : τ) (live : Set Nat) : Prop :=
  ∀ counts count, Disjoint (handedOut (A.allocateFrames (A.after inner counts) count).1 count)
    (live ∪ A.issued inner counts)

/-- An allocator in use: the frames that are live, and those that were freed and
not handed out again. -/
structure Usage (τ : Type) where
  alloc : RecycleAllocator τ
  live : Set Nat
  freed : Set Nat

/-- From `set_noncore(true)` on. -/
def Usage.start (inner : τ) (live : Set Nat) : Usage τ :=
  { alloc := (RecycleAllocator.new inner).setNoncore true, live, freed := ∅ }

inductive Usage.Step (A : FrameAllocator τ) (u : Usage τ) : Usage τ → Prop
  | allocate (count : Nat) (hcount : 0 < count) (frame : Option Nat) (alloc : RecycleAllocator τ)
      (h : u.alloc.allocateFrames A count = (frame, alloc)) :
      Step A u
        { alloc, live := u.live ∪ handedOut frame count, freed := u.freed \ handedOut frame count }
  | deallocate (frame count : Nat) (hcount : 0 < count)
      (hlive : (⟨frame, count⟩ : Block).cells ⊆ u.live) (fuel : Nat) (alloc : RecycleAllocator τ)
      (h : u.alloc.deallocateFrames A fuel frame count = some alloc) :
      Step A u
        { alloc
          live := u.live \ (⟨frame, count⟩ : Block).cells
          freed := u.freed ∪ (⟨frame, count⟩ : Block).cells }

abbrev Usage.Reaches (A : FrameAllocator τ) : Usage τ → Usage τ → Prop :=
  Relation.ReflTransGen (Usage.Step A)

/-- What the free list has to do with the freed frames. -/
structure Usage.Listed (bs : List Block) (u : Usage τ) : Prop where
  free : u.alloc.free = entries bs
  separated : Separated bs
  covers : covered bs = u.freed
  apart : Disjoint u.freed u.live

/-- The free list is separated and covers the freed frames, which are not live; all
frames around were live from the start or come from the inner allocator. -/
structure Usage.Inv (A : FrameAllocator τ) (inner : τ) (live : Set Nat) (bs : List Block)
    (counts : List Nat) (u : Usage τ) : Prop where
  noncore : u.alloc.noncore = true
  free : u.alloc.free = entries bs
  asked : u.alloc.inner = A.after inner counts
  separated : Separated bs
  covers : covered bs = u.freed
  apart : Disjoint u.freed u.live
  known : u.freed ∪ u.live ⊆ live ∪ A.issued inner counts

variable {A : FrameAllocator τ} {inner : τ} {live : Set Nat} {bs : List Block}
  {counts : List Nat} {u u' : Usage τ}

theorem FrameAllocator.issued_append (A : FrameAllocator τ) (count : Nat) :
    ∀ (counts : List Nat) (t : τ), A.issued t (counts ++ [count]) =
      A.issued t counts ∪ handedOut (A.allocateFrames (A.after t counts) count).1 count
  | [], t => by
      show handedOut _ _ ∪ ∅ = ∅ ∪ handedOut _ _
      rw [Set.union_empty, Set.empty_union]
      rfl
  | c :: counts, t => by
      show handedOut _ _ ∪ A.issued _ (counts ++ [count]) = handedOut _ _ ∪ A.issued _ counts ∪ _
      rw [A.issued_append count counts, Set.union_assoc]
      rfl

theorem FrameAllocator.after_append (A : FrameAllocator τ) (t : τ) (counts : List Nat)
    (count : Nat) :
    A.after t (counts ++ [count]) = (A.allocateFrames (A.after t counts) count).2 :=
  List.foldl_append

theorem Usage.inv_start : (Usage.start inner live).Inv A inner live [] [] where
  noncore := rfl
  free := rfl
  asked := rfl
  separated := .nil
  covers := covered_nil
  apart := Set.empty_disjoint _
  known := by
    show ∅ ∪ live ⊆ live ∪ ∅
    rw [Set.empty_union, Set.union_empty]

theorem Usage.Inv.listed (h : u.Inv A inner live bs counts) : u.Listed bs :=
  ⟨h.free, h.separated, h.covers, h.apart⟩

/-- Frames from the free list were freed, and so are not live. -/
theorem Usage.Listed.served (h : u.Listed bs) {count frame : Nat} {free : List (Nat × Nat)}
    (htaken : Taken count bs frame free) :
    (⟨frame, count⟩ : Block).cells ⊆ u.freed ∧ ∃ bs', Usage.Listed bs'
      { alloc := { u.alloc with free }
        live := u.live ∪ (⟨frame, count⟩ : Block).cells
        freed := u.freed \ (⟨frame, count⟩ : Block).cells } := by
  obtain ⟨hsub, bs', hfree, hsep, hcov⟩ := htaken
  rw [h.covers] at hsub hcov
  refine ⟨hsub, bs', hfree, hsep, hcov, ?_⟩
  rw [Set.disjoint_union_right]
  exact ⟨Set.disjoint_of_subset_left Set.sdiff_subset h.apart, Set.disjoint_sdiff_left⟩

/-- A block of live frames is freed: the recursion returns, and the list covers
the block as well. -/
theorem Usage.Listed.freed (h : u.Listed bs) {frame count : Nat} (hcount : 0 < count)
    (hlive : (⟨frame, count⟩ : Block).cells ⊆ u.live) :
    ∃ free, giveBack 3 u.alloc.free (frame * pageSize) count = some free ∧
      ∃ bs', Usage.Listed bs'
        { alloc := { u.alloc with free }
          live := u.live \ (⟨frame, count⟩ : Block).cells
          freed := u.freed ∪ (⟨frame, count⟩ : Block).cells } := by
  have hclear : ∀ x ∈ bs, (⟨frame, count⟩ : Block).Clear x := by
    intro x hx
    refine Block.clear_of_disjoint hcount (h.separated.pos x hx) ?_
    refine Set.disjoint_of_subset hlive ?_ h.apart.symm
    rw [← h.covers]
    exact fun y hy => ⟨x, hx, hy⟩
  obtain ⟨free, hfree, bs', rfl, hsep, hcov⟩ :=
    giveBack_spec (b := ⟨frame, count⟩) h.separated hcount hclear
  refine ⟨entries bs', by rw [h.free]; exact hfree, bs', rfl, hsep, ?_, ?_⟩
  · rw [hcov, h.covers]
  · rw [Set.disjoint_union_left]
    exact ⟨Set.disjoint_of_subset_right Set.sdiff_subset h.apart, Set.disjoint_sdiff_right⟩

theorem Usage.inv_served (h : u.Inv A inner live bs counts) {count frame : Nat}
    {free : List (Nat × Nat)} (htaken : Taken count bs frame free) :
    ∃ bs', Usage.Inv A inner live bs' counts
      { alloc := { u.alloc with free }
        live := u.live ∪ (⟨frame, count⟩ : Block).cells
        freed := u.freed \ (⟨frame, count⟩ : Block).cells } := by
  obtain ⟨hsub, bs', h'⟩ := h.listed.served htaken
  refine ⟨bs', h.noncore, h'.free, h.asked, h'.separated, h'.covers, h'.apart, ?_⟩
  rintro x (⟨hx, -⟩ | hx | hx)
  · exact h.known (.inl hx)
  · exact h.known (.inr hx)
  · exact h.known (.inl (hsub hx))

/-- Frames from the inner allocator are new. -/
theorem Usage.inv_asked (hinner : A.NeverTwice inner live) (h : u.Inv A inner live bs counts)
    (count : Nat) :
    Disjoint (handedOut (A.allocateFrames u.alloc.inner count).1 count) (u.freed ∪ u.live) ∧
      Usage.Inv A inner live bs (counts ++ [count])
        { alloc := { u.alloc with inner := (A.allocateFrames u.alloc.inner count).2 }
          live := u.live ∪ handedOut (A.allocateFrames u.alloc.inner count).1 count
          freed := u.freed \ handedOut (A.allocateFrames u.alloc.inner count).1 count } := by
  have hnew : Disjoint (handedOut (A.allocateFrames u.alloc.inner count).1 count)
      (u.freed ∪ u.live) := by
    rw [h.asked]
    exact Set.disjoint_of_subset_right h.known (hinner counts count)
  have hfreed := (Set.disjoint_union_right.mp hnew).1
  have hsame : u.freed \ handedOut (A.allocateFrames u.alloc.inner count).1 count = u.freed :=
    hfreed.symm.sdiff_eq_left
  refine ⟨hnew, h.noncore, h.free, ?_, h.separated, ?_, ?_, ?_⟩
  · rw [A.after_append, ← h.asked]
  · exact h.covers.trans hsame.symm
  · show Disjoint (u.freed \ _) (u.live ∪ _)
    rw [hsame, Set.disjoint_union_right]
    exact ⟨h.apart, hfreed.symm⟩
  · show u.freed \ _ ∪ (u.live ∪ _) ⊆ _
    rw [hsame, A.issued_append, ← h.asked]
    rintro x (hx | hx | hx)
    · exact (h.known (.inl hx)).imp_right .inl
    · exact (h.known (.inr hx)).imp_right .inl
    · exact .inr (.inr hx)

theorem Usage.inv_freed (h : u.Inv A inner live bs counts) {frame count : Nat} (hcount : 0 < count)
    (hlive : (⟨frame, count⟩ : Block).cells ⊆ u.live) :
    ∃ free, giveBack 3 u.alloc.free (frame * pageSize) count = some free ∧
      ∃ bs', Usage.Inv A inner live bs' counts
        { alloc := { u.alloc with free }
          live := u.live \ (⟨frame, count⟩ : Block).cells
          freed := u.freed ∪ (⟨frame, count⟩ : Block).cells } := by
  obtain ⟨free, hfree, bs', h'⟩ := h.listed.freed hcount hlive
  refine ⟨free, hfree, bs', h.noncore, h'.free, h.asked, h'.separated, h'.covers, h'.apart, ?_⟩
  rintro x ((hx | hx) | ⟨hx, -⟩)
  · exact h.known (.inl hx)
  · exact h.known (.inr (hlive hx))
  · exact h.known (.inr hx)

theorem Usage.inv_step (hinner : A.NeverTwice inner live) (h : u.Inv A inner live bs counts)
    (hstep : Usage.Step A u u') : ∃ bs' counts', u'.Inv A inner live bs' counts' := by
  cases hstep with
  | allocate count hcount frame alloc hresult =>
    by_cases hrun : ∃ frame, (⟨frame, count⟩ : Block).cells ⊆ covered bs
    · obtain ⟨frame', free, hserved, htaken⟩ :=
        RecycleAllocator.allocateFrames_served (A := A) h.free h.separated hcount hrun
      rw [hserved] at hresult
      cases hresult
      obtain ⟨bs', h'⟩ := Usage.inv_served h htaken
      exact ⟨bs', counts, h'⟩
    · rw [RecycleAllocator.allocateFrames_asked h.free h.separated hcount hrun] at hresult
      cases hresult
      exact ⟨bs, counts ++ [count], (Usage.inv_asked hinner h count).2⟩
  | deallocate frame count hcount hlive fuel alloc hresult =>
    obtain ⟨free, hfree, bs', h'⟩ := Usage.inv_freed h hcount hlive
    unfold RecycleAllocator.deallocateFrames at hresult
    rw [if_pos h.noncore] at hresult
    obtain ⟨free', hfree', rfl⟩ := Option.map_eq_some_iff.mp hresult
    rw [giveBack_deterministic hfree' hfree]
    exact ⟨bs', counts, h'⟩

theorem Usage.inv_of_reaches (hinner : A.NeverTwice inner live)
    (hrun : (Usage.start inner live).Reaches A u) :
    ∃ bs counts, u.Inv A inner live bs counts := by
  refine invariant_of_step (fun u => ∃ bs counts, u.Inv A inner live bs counts) hrun
    ⟨[], [], Usage.inv_start⟩ ?_
  rintro a b ⟨bs, counts, ha⟩ hstep
  exact Usage.inv_step hinner ha hstep

/-! ### Correctness -/

/-- The frames of an entry. -/
def framesOf (e : Nat × Nat) : Set Nat := (⟨e.1 / pageSize, e.2⟩ : Block).cells

theorem framesOf_entry (b : Block) : framesOf (entry b) = b.cells := by
  unfold framesOf entry
  rw [Nat.mul_div_cancel _ (by decide)]

/-- The entries of a list have the frames of its blocks. -/
theorem framesOf_entries (bs : List Block) :
    {f | ∃ e ∈ entries bs, f ∈ framesOf e} = covered bs := by
  ext x
  constructor
  · rintro ⟨e, he, hx⟩
    obtain ⟨b, hb, rfl⟩ := List.mem_map.mp he
    exact ⟨b, hb, framesOf_entry b ▸ hx⟩
  · rintro ⟨b, hb, hx⟩
    exact ⟨entry b, List.mem_map_of_mem hb, (framesOf_entry b).symm ▸ hx⟩

theorem entries_pos (h : Separated bs) : ∀ e ∈ entries bs, 0 < e.2 := by
  intro e he
  obtain ⟨b, hb, rfl⟩ := List.mem_map.mp he
  exact h.pos b hb

theorem framesOf_disjoint (h : Separated bs) :
    (entries bs).Pairwise fun e e' => Disjoint (framesOf e) (framesOf e') := by
  rw [entries, List.pairwise_map]
  refine h.apart.imp ?_
  intro b c hbc
  rw [framesOf_entry, framesOf_entry]
  exact hbc.clear.disjoint

theorem entries_not_adjacent (h : Separated bs) : (entries bs).Pairwise fun e e' =>
    e.1 + e.2 * pageSize ≠ e'.1 ∧ e'.1 + e'.2 * pageSize ≠ e.1 := by
  rw [entries, List.pairwise_map]
  refine h.apart.imp ?_
  intro b c hbc
  unfold Block.Apart Block.stop at hbc
  unfold entry pageSize
  simp only
  omega

/-- What is asked of a recycler in use. -/
structure Usage.Recycles (A : FrameAllocator τ) (u : Usage τ) : Prop where
  pos : ∀ e ∈ u.alloc.free, 0 < e.2
  disjoint : u.alloc.free.Pairwise fun e e' => Disjoint (framesOf e) (framesOf e')
  /-- No entry ends where another begins. -/
  notAdjacent : u.alloc.free.Pairwise fun e e' =>
    e.1 + e.2 * pageSize ≠ e'.1 ∧ e'.1 + e'.2 * pageSize ≠ e.1
  /-- The list covers the frames freed and not handed out again, and no others. -/
  covers : {f | ∃ e ∈ u.alloc.free, f ∈ framesOf e} = u.freed
  /-- What is handed out is not live. -/
  fresh : ∀ count, 0 < count → Disjoint (handedOut (u.alloc.allocateFrames A count).1 count) u.live
  /-- Freeing live frames returns. -/
  returns : ∀ frame count, 0 < count → (⟨frame, count⟩ : Block).cells ⊆ u.live →
    ∃ fuel alloc, u.alloc.deallocateFrames A fuel frame count = some alloc
  /-- A request is served from the free list if enough frames in a row are free. -/
  served : ∀ count, 0 < count → (∃ frame, (⟨frame, count⟩ : Block).cells ⊆ u.freed) →
    ∃ frame free, u.alloc.allocateFrames A count = (some frame, { u.alloc with free }) ∧
      (⟨frame, count⟩ : Block).cells ⊆ u.freed
  /-- Otherwise the inner allocator is asked. -/
  asked : ∀ count, 0 < count → (¬ ∃ frame, (⟨frame, count⟩ : Block).cells ⊆ u.freed) →
    u.alloc.allocateFrames A count = ((A.allocateFrames u.alloc.inner count).1,
      { u.alloc with inner := (A.allocateFrames u.alloc.inner count).2 })

theorem Usage.Inv.recycles (hinner : A.NeverTwice inner live)
    (h : u.Inv A inner live bs counts) : u.Recycles A where
  pos := by
    rw [h.free]
    exact entries_pos h.separated
  disjoint := by
    rw [h.free]
    exact framesOf_disjoint h.separated
  notAdjacent := by
    rw [h.free]
    exact entries_not_adjacent h.separated
  covers := by
    rw [h.free, ← h.covers]
    exact framesOf_entries bs
  fresh := by
    intro count hcount
    by_cases hrun : ∃ frame, (⟨frame, count⟩ : Block).cells ⊆ covered bs
    · obtain ⟨frame, free, hserved, htaken, -⟩ :=
        RecycleAllocator.allocateFrames_served (A := A) h.free h.separated hcount hrun
      rw [hserved]
      rw [h.covers] at htaken
      exact Set.disjoint_of_subset_left htaken h.apart
    · rw [RecycleAllocator.allocateFrames_asked h.free h.separated hcount hrun]
      exact (Set.disjoint_union_right.mp (Usage.inv_asked hinner h count).1).2
  returns := by
    intro frame count hcount hlive
    obtain ⟨free, hfree, -⟩ := Usage.inv_freed h hcount hlive
    refine ⟨3, { u.alloc with free }, ?_⟩
    unfold RecycleAllocator.deallocateFrames
    rw [if_pos h.noncore, hfree]
    rfl
  served := by
    intro count hcount hrun
    rw [← h.covers] at hrun ⊢
    obtain ⟨frame, free, hserved, htaken, -⟩ :=
      RecycleAllocator.allocateFrames_served (A := A) h.free h.separated hcount hrun
    exact ⟨frame, free, hserved, htaken⟩
  asked := by
    intro count hcount hrun
    rw [← h.covers] at hrun
    exact RecycleAllocator.allocateFrames_asked h.free h.separated hcount hrun

/-- **The recycler is correct in every state of every run.** For every inner
allocator that hands out no frame twice, from `set_noncore(true)` on. -/
theorem recycler_correct (A : FrameAllocator τ) (inner : τ) (live : Set Nat)
    (hinner : A.NeverTwice inner live) (u : Usage τ)
    (hrun : (Usage.start inner live).Reaches A u) : u.Recycles A := by
  obtain ⟨bs, counts, h⟩ := Usage.inv_of_reaches hinner hrun
  exact h.recycles hinner

end Runs

/-! ### A bump allocator below -/

/-- The frames from a number on, one after another. -/
def bump : FrameAllocator Nat where
  allocateFrames next count := (some next, next + count)
  deallocateFrames next _ _ := next

theorem bump_issued_lt : ∀ (counts : List Nat) (next : Nat), next ≤ bump.after next counts ∧
    ∀ x ∈ bump.issued next counts, x < bump.after next counts
  | [], next => ⟨Nat.le_refl _, fun _ hx => hx.elim⟩
  | count :: counts, next => by
      obtain ⟨hle, hlt⟩ := bump_issued_lt counts (next + count)
      refine ⟨Nat.le_trans (Nat.le_add_right _ _) hle, ?_⟩
      rintro x (hx | hx)
      · exact Nat.lt_of_lt_of_le hx.2 hle
      · exact hlt x hx

theorem bump_neverTwice (next : Nat) : bump.NeverTwice next ∅ := by
  intro counts count
  rw [Set.empty_union, Set.disjoint_left]
  intro x hx hissued
  have hlt := (bump_issued_lt counts next).2 x hissued
  exact absurd hx.1 (Nat.not_le.mpr hlt)

/-- Three frames are allocated together and freed one by one, the middle one last. -/
theorem three_frames_recycled :
    ∃ u, (Usage.start 10 ∅).Reaches bump u ∧ u.alloc.free = [(10 * pageSize, 3)] ∧
      u.Recycles bump := by
  have hrun : ∃ u, (Usage.start 10 ∅).Reaches bump u ∧ u.alloc.free = [(10 * pageSize, 3)] := by
    refine ⟨_, .head (.allocate 3 (by decide) (some 10) _ rfl) (.head
      (.deallocate 10 1 (by decide) ?_ 3 _ rfl) (.head (.deallocate 12 1 (by decide) ?_ 3 _ rfl)
      (.single (.deallocate 11 1 (by decide) ?_ 3 _ rfl)))), rfl⟩
    all_goals
      intro x hx
      simp only [Usage.start, handedOut, Block.mem_cells, Set.mem_sdiff, Set.mem_union,
        Set.mem_empty_iff_false] at hx ⊢
      omega
  obtain ⟨u, hreaches, hfree⟩ := hrun
  exact ⟨u, hreaches, hfree, recycler_correct bump 10 ∅ (bump_neverTwice 10) u hreaches⟩

end Faastr.Memory
