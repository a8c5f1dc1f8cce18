import Faastr.Memory.Frames

/-!
`physalloc` and `physfree` (`kernel/src/syscall/driver.rs`) over the frame allocator of the
kernel, for any sizes.

Both round a size up to frames in 64-bit words, so that the size 0, and sizes within a
frame of `2 ^ 64`, are no frames at all. Nothing below them treats that count apart.

- As long as every call is for some frames, no entry of the free list is empty, `physfree`
  returns, `physalloc` returns if the free list or the bump allocator can serve it, and what
  it returns it has handed out (`physcalls_harmless`).
- Two calls of `physfree` for no frames at one address are enough for an empty entry
  that touches itself, on which `merge` calls itself without end
  (`second_empty_free_hangs`).
-/

namespace Faastr.Memory

open Faastr.Lib

/-! ### The calls -/

inductive PhysError where
  | enomem
deriving DecidableEq, Repr

/-- `(size + 4095) / 4096`. -/
def framesFor (size : Nat) : Nat := (size + 4095) % 2 ^ 64 / 4096

/-- On fuel for the bump allocator. -/
def physalloc (fuel : Nat) (a : RecycleAllocator BumpAllocator) (size : Nat) :
    Option (Except PhysError Nat × RecycleAllocator BumpAllocator) :=
  (a.allocate fuel (framesFor size)).map fun r =>
    (match r.1 with
      | some frame => .ok (frame * pageSize)
      | none => .error .enomem, r.2)

/-- On fuel for `merge`. -/
def physfree (fuel : Nat) (a : RecycleAllocator BumpAllocator) (physicalAddress size : Nat) :
    Option (Except PhysError Nat × RecycleAllocator BumpAllocator) :=
  (a.deallocate fuel (physicalAddress / pageSize) (framesFor size)).map fun a => (.ok 0, a)

/-- The frames of `size` bytes. -/
def blockFor (address size : Nat) : Block := ⟨address / pageSize, (size + 4095) / 4096⟩

/-- A size that makes some frames is not cut by the sum. -/
theorem framesFor_eq {size : Nat} (hword : size < 2 ^ 64) (h : framesFor size ≠ 0) :
    framesFor size = (size + 4095) / 4096 := by
  unfold framesFor at h ⊢
  omega

theorem framesFor_askable {size : Nat} (h : framesFor size ≠ 0) : BumpAllocator.Askable (framesFor size) := by
  unfold BumpAllocator.Askable
  unfold framesFor at h ⊢
  omega

/-! ### Runs -/

/-- One call with its size. A block that is freed is live, unless its size is 0. -/
inductive Usage.PhysCall (u : Usage BumpAllocator) : Nat → Usage BumpAllocator → Prop
  | physalloc (size : Nat) (word : size < 2 ^ 64) (fuel : Nat) (frame : Option Nat)
      (alloc : RecycleAllocator BumpAllocator)
      (h : u.alloc.allocate fuel (framesFor size) = some (frame, alloc)) :
      PhysCall u size (u.allocated frame (framesFor size) alloc)
  | physfree (address size : Nat) (word : size < 2 ^ 64)
      (live : size ≠ 0 → (blockFor address size).cells ⊆ u.live) (fuel : Nat)
      (result : Except PhysError Nat) (alloc : RecycleAllocator BumpAllocator)
      (h : physfree fuel u.alloc address size = some (result, alloc)) :
      PhysCall u size (u.freedBlock ⟨address / pageSize, framesFor size⟩ alloc)

/-- A call for some frames. -/
def Usage.FramesCall (u u' : Usage BumpAllocator) : Prop :=
  ∃ size, framesFor size ≠ 0 ∧ u.PhysCall size u'

section Runs

variable {u u' : Usage BumpAllocator} {bs : List Block} {size : Nat}

/-- A live block is freed. -/
theorem Usage.Sound.physfree (h : u.Sound bs) (word : size < 2 ^ 64) (hframes : framesFor size ≠ 0) {address : Nat}
    (hlive : size ≠ 0 → (blockFor address size).cells ⊆ u.live) :
    ∃ alloc, u.alloc.deallocate 3 (address / pageSize) (framesFor size) = some alloc ∧
      ∃ bs', (u.freedBlock ⟨address / pageSize, framesFor size⟩ alloc).Sound bs' := by
  have hsize : size ≠ 0 := by
    rintro rfl
    exact hframes rfl
  have hblock : (⟨address / pageSize, framesFor size⟩ : Block) = blockFor address size := by
    rw [blockFor, framesFor_eq word hframes]
  obtain ⟨free, hreturns, hsound⟩ := h.freed (b := ⟨address / pageSize, framesFor size⟩)
    (Nat.pos_of_ne_zero hframes) (hblock ▸ hlive hsize)
  exact ⟨_, hreturns, hsound⟩

theorem Usage.Sound.call (h : u.Sound bs) (hstep : u.FramesCall u') : ∃ bs', u'.Sound bs' := by
  obtain ⟨size, hframes, hcall⟩ := hstep
  cases hcall with
  | physalloc _ word fuel frame alloc hresult => exact (h.allocated (framesFor_askable hframes) hresult).2
  | physfree address _ word live fuel result alloc hfree =>
    obtain ⟨alloc', hreturns, hsound⟩ := h.physfree word hframes live
    obtain ⟨alloc'', halloc, heq⟩ := Option.map_eq_some_iff.mp hfree
    cases heq
    rw [RecycleAllocator.deallocate_deterministic halloc hreturns]
    exact hsound

end Runs

/-- The frames of the entries of a free list. -/
def framesOnList (free : List (Nat × Nat)) : Set Nat := {f | ∃ e ∈ free, f ∈ framesOf e}

/-- What is asked of the calls for `size` bytes. -/
structure Usage.Harmless (u : Usage BumpAllocator) (size : Nat) : Prop where
  /-- Freeing a live block returns. -/
  freeReturns : ∀ address, (size ≠ 0 → (blockFor address size).cells ⊆ u.live) →
    ∃ fuel result, physfree fuel u.alloc address size = some result
  /-- A request returns if and only if an entry of the free list has enough frames, or the
  bump allocator comes to an end with it. -/
  allocReturns : (∃ fuel result, physalloc fuel u.alloc size = some result) ↔
    (∃ e ∈ u.alloc.free, framesFor size ≤ e.2) ∨ u.alloc.inner.Ends (framesFor size)
  /-- An address that is returned is that of frames that belonged to nobody, enough for
  the size, and at least one; they are off the free list. -/
  hands : ∀ fuel address alloc, physalloc fuel u.alloc size = some (.ok address, alloc) →
    0 < (blockFor address size).count ∧ Disjoint (blockFor address size).cells u.live ∧
      Disjoint (blockFor address size).cells (framesOnList alloc.free)

theorem Usage.Sound.allocReturns {u : Usage BumpAllocator} {bs : List Block} (h : u.Sound bs) {size : Nat}
    (hframes : framesFor size ≠ 0) :
    (∃ fuel result, physalloc fuel u.alloc size = some result) ↔
      (∃ e ∈ u.alloc.free, framesFor size ≤ e.2) ∨ u.alloc.inner.Ends (framesFor size) := by
  have hphys : (∃ fuel result, physalloc fuel u.alloc size = some result) ↔
      ∃ fuel r, u.alloc.allocate fuel (framesFor size) = some r := by
    constructor
    · rintro ⟨fuel, result, hresult⟩
      obtain ⟨r, hr, -⟩ := Option.map_eq_some_iff.mp hresult
      exact ⟨fuel, r, hr⟩
    · rintro ⟨fuel, r, hr⟩
      exact ⟨fuel, _, congrArg (Option.map _) hr⟩
  rw [hphys, RecycleAllocator.exists_allocates_iff h.chosen (framesFor_askable hframes)]

/-- **Calls for some frames are harmless.** From every state with a separated free list,
in every run of `physalloc` and `physfree` with sizes that make some frames: no
entry is empty, and a further such call hands out what it returns. It does return, if it is
not a request that neither the free list nor the bump allocator can serve. -/
theorem physcalls_harmless (u₀ u : Usage BumpAllocator) (hstart : ∃ bs, u₀.Sound bs)
    (hrun : Relation.ReflTransGen Usage.FramesCall u₀ u) :
    (∀ e ∈ u.alloc.free, e.2 ≠ 0) ∧ ∀ size, size < 2 ^ 64 → framesFor size ≠ 0 → u.Harmless size := by
  have hsound : ∃ bs, u.Sound bs := by
    refine invariant_of_step (fun u => ∃ bs, u.Sound bs) hrun hstart ?_
    rintro _ _ ⟨bs, h⟩ hstep
    exact h.call hstep
  obtain ⟨bs, hsound⟩ := hsound
  refine ⟨?_, fun size word hframes => ⟨fun address hlive => ?_, hsound.allocReturns hframes, ?_⟩⟩
  · rw [hsound.listed.free]
    exact fun e he => Nat.ne_of_gt (entries_pos hsound.listed.separated e he)
  · obtain ⟨alloc, hreturns, -⟩ := hsound.physfree word hframes hlive
    exact ⟨3, (.ok 0, alloc), congrArg (Option.map _) hreturns⟩
  · intro fuel address alloc hresult
    obtain ⟨⟨found, after⟩, hfound, heq⟩ := Option.map_eq_some_iff.mp hresult
    obtain ⟨hnew, bs', hafter⟩ := hsound.allocated (framesFor_askable hframes) hfound
    cases found with
    | none => cases heq
    | some frame =>
      cases heq
      have hblock : blockFor (frame * pageSize) size = ⟨frame, framesFor size⟩ := by
        rw [blockFor, Nat.mul_div_cancel _ (by decide), framesFor_eq word hframes]
      rw [hblock]
      refine ⟨Nat.pos_of_ne_zero hframes, hnew, ?_⟩
      have hfree : after.free = entries bs' := hafter.listed.free
      rw [framesOnList, hfree, framesOf_entries, hafter.listed.covers]
      exact Set.disjoint_sdiff_right

/-- A frame of four is allocated and freed, and the next calls for one are harmless. -/
theorem one_frame_harmless :
    ∃ u, Relation.ReflTransGen Usage.FramesCall
        (.start (.new 0 0xff000 (memoryAreaIter memoryAreaFree [⟨0x100000, 0x4000, memoryAreaFree⟩])) ∅) u ∧
      u.alloc.free = [(0x100000, 1)] ∧ u.Harmless 4096 := by
  have hrun : ∃ u, Relation.ReflTransGen Usage.FramesCall
      (.start (.new 0 0xff000 (memoryAreaIter memoryAreaFree [⟨0x100000, 0x4000, memoryAreaFree⟩])) ∅) u ∧
      u.alloc.free = [(0x100000, 1)] := by
    refine ⟨_, .head ⟨4096, by decide, .physalloc 4096 (by decide) 1 (some 0x100) _ rfl⟩
      (.single ⟨4096, by decide, .physfree 0x100000 4096 (by decide) (fun _ => ?_) 3 _ _ rfl⟩), rfl⟩
    exact fun x hx => .inr hx
  obtain ⟨u, hreaches, hfree⟩ := hrun
  refine ⟨u, hreaches, hfree, (physcalls_harmless _ u ⟨[], ?_⟩ hreaches).2 4096 (by decide) (by decide)⟩
  have hchosen := BumpAllocator.chosen_new 0 0xff000
    (memoryAreaIter memoryAreaFree [⟨0x100000, 0x4000, memoryAreaFree⟩])
  exact Usage.sound_empty hchosen rfl

/-! ### Calls for no frames -/

/-- A recycler with the entries `free`, over a bump allocator that has nothing. -/
def recyclerOf (free : List (Nat × Nat)) : RecycleAllocator BumpAllocator :=
  { inner := .new 0 0 [], noncore := true, free }

/-- An empty entry touches itself, and `merge` is back where it was. -/
theorem merge_empty_entry (address fuel : Nat) :
    merge fuel [(address, 0)] address 0 = none := by
  induction fuel with
  | zero => rfl
  | succ fuel ih =>
    have htouched : firstTouched (touch address 0) [(address, 0)] = some (0, address, 0) := by
      simp [firstTouched, touch]
    rw [merge, mergeWith, htouched]
    exact congrArg (Option.map _) ih

/-- **The second free of nothing does not return.** The first one leaves an empty entry.
And `physalloc` of nothing returns the address behind a free block. -/
theorem second_empty_free_hangs :
    physfree 1 (recyclerOf []) 0x1000 0 = some (.ok 0, recyclerOf [(0x1000, 0)]) ∧
      (∀ fuel, physfree fuel (recyclerOf [(0x1000, 0)]) 0x1000 0 = none) ∧
      physalloc 0 (recyclerOf [(0x1000, 1)]) 0 = some (.ok 0x2000, recyclerOf [(0x1000, 1)]) := by
  refine ⟨rfl, ?_, rfl⟩
  intro fuel
  show Option.map _ (Option.map _ (Option.map _ (merge fuel [(0x1000, 0)] 0x1000 0))) = none
  rw [merge_empty_entry]
  rfl

end Faastr.Memory
