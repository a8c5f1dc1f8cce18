import Faastr.Memory.Bump
import Faastr.Memory.Recycle

/-!
The frame allocator of the kernel (`ALLOCATOR` of `kernel/src/memory/mod.rs`): the recycler over
the bump allocator.

A request that the free list cannot serve goes to the bump allocator, which may not return. What
the bump allocator hands out is behind all that it has handed out before, so that frames in use
and frames on the free list are before its next free frame (`Usage.Sound`).

* `Usage.Sound.allocated`, `Usage.Sound.freed`: what a request and a free do to frames in use.
* `RecycleAllocator.exists_allocates_iff`: when a request returns.
-/

namespace Faastr.Memory

open Faastr.Lib

/-- The bump allocator below the recycler: frames that it is given back are lost. Only answers of
the bump allocator are asked for. -/
def bumpFrames (fuel : Nat) : FrameAllocator BumpAllocator where
  allocateFrames s count := (s.allocateFrames fuel count).getD (none, s)
  deallocateFrames s _ _ := s

namespace RecycleAllocator

/-- `allocate_frames`, on fuel for the bump allocator: nothing is returned if it does not
return. -/
def allocate (fuel : Nat) (a : RecycleAllocator BumpAllocator) (count : Nat) :
    Option (Option Nat × RecycleAllocator BumpAllocator) :=
  match findSmall count a.free 0 none with
  | some _ => some (a.allocateFrames (bumpFrames fuel) count)
  | none => (a.inner.allocateFrames fuel count).map fun r => (r.1, { a with inner := r.2 })

/-- `deallocate_frames`, on fuel for `merge`. -/
def deallocate (fuel : Nat) (a : RecycleAllocator BumpAllocator) (frame count : Nat) :
    Option (RecycleAllocator BumpAllocator) :=
  a.deallocateFrames (bumpFrames 0) fuel frame count

variable {a : RecycleAllocator BumpAllocator} {count : Nat}

/-- **A request returns** exactly if an entry of the free list or the bump allocator can serve
it. -/
theorem exists_allocates_iff (hs : a.inner.Chosen) (hcount : BumpAllocator.Askable count) :
    (∃ fuel r, a.allocate fuel count = some r) ↔
      (∃ e ∈ a.free, count ≤ e.2) ∨ a.inner.Ends count := by
  cases hfound : findSmall count a.free 0 none with
  | some found =>
    refine iff_of_true ⟨0, a.allocateFrames (bumpFrames 0) count, ?_⟩ (.inl ?_)
    · rw [allocate, hfound]
    · rcases findSmall_mem count _ _ _ hfound with hno | ⟨k, -, hget, hle⟩
      · cases hno
      · exact ⟨found.2, List.mem_of_getElem? hget, hle⟩
  | none =>
    have hentry : ¬ ∃ e ∈ a.free, count ≤ e.2 := by
      intro hentry
      have hsome := findSmall_isSome count a.free 0 none (.inr hentry)
      rw [hfound] at hsome
      cases hsome
    have hallocate : ∀ fuel, a.allocate fuel count =
        (a.inner.allocateFrames fuel count).map fun r => (r.1, { a with inner := r.2 }) := by
      intro fuel
      rw [allocate, hfound]
    simp only [hallocate, Option.map_eq_some_iff, hentry, false_or]
    constructor
    · rintro ⟨fuel, -, r, hr, -⟩
      exact (BumpAllocator.allocateFrames_outcome hs hcount hr).1
    · intro hends
      obtain ⟨-, fuel, frame, s', hr, -⟩ :=
        (BumpAllocator.allocateFrames_cases hs hcount).resolve_left fun hno => hno.1 hends
      exact ⟨fuel, _, _, hr, rfl⟩

end RecycleAllocator

/-! ### Answers of the bump allocator -/

namespace BumpAllocator.Outcome

variable {s s' : BumpAllocator} {count : Nat} {frame : Option Nat}

/-- The map stays, and the next free frame moves up. -/
theorem keeps (h : s.Outcome count frame s') :
    s'.areas = s.areas ∧ s'.kernelStart = s.kernelStart ∧ s.nextFreeFrame ≤ s'.nextFreeFrame := by
  cases h with
  | none m hle => exact ⟨rfl, rfl, hle⟩
  | found n area hn hle hfirst hlast hhits =>
    refine ⟨rfl, rfl, ?_⟩
    show s.nextFreeFrame ≤ max n area.startFrame + count
    omega

/-- Frames that are handed out are frames of the map, and were not handed out before. -/
theorem new (h : s.Outcome count frame s') : ∀ x ∈ handedOut frame count,
    s.nextFreeFrame ≤ x ∧ x < s'.nextFreeFrame ∧ x ∈ s.areas.flatMap MemoryArea.frames := by
  intro x hx
  cases h with
  | none => exact hx.elim
  | found n area hn hle hfirst hlast hhits =>
    have hcell := Block.mem_cells.mp hx
    dsimp only at hcell
    refine ⟨by omega, hcell.2, ?_⟩
    refine List.mem_flatMap.mpr ⟨area, (firstArea_some hfirst).1, MemoryArea.mem_frames.mpr ?_⟩
    omega

end BumpAllocator.Outcome

/-! ### Frames in use -/

namespace Usage

/-- The free list covers the freed frames, and every frame that is freed or in use was handed out
by the bump allocator. -/
structure Sound (bs : List Block) (u : Usage BumpAllocator) : Prop where
  chosen : u.alloc.inner.Chosen
  listed : u.Listed bs
  before : ∀ x ∈ u.freed ∪ u.live, x < u.alloc.inner.nextFreeFrame

/-- The usage after a request. -/
def allocated (u : Usage BumpAllocator) (frame : Option Nat) (count : Nat)
    (alloc : RecycleAllocator BumpAllocator) : Usage BumpAllocator :=
  { alloc, live := u.live ∪ handedOut frame count, freed := u.freed \ handedOut frame count }

/-- The usage after a free. What is freed before `set_noncore(true)` is lost. -/
def freedBlock (u : Usage BumpAllocator) (b : Block) (alloc : RecycleAllocator BumpAllocator) :
    Usage BumpAllocator :=
  { alloc
    live := u.live \ b.cells
    freed := if u.alloc.noncore then u.freed ∪ b.cells else u.freed }

variable {bs : List Block} {u : Usage BumpAllocator} {count : Nat}

/-- Before any call. -/
theorem sound_empty {a : RecycleAllocator BumpAllocator} (h : a.inner.Chosen) (hfree : a.free = []) :
    Sound [] { alloc := a, live := ∅, freed := ∅ } := by
  refine ⟨h, ⟨hfree, .nil, covered_nil, Set.empty_disjoint _⟩, ?_⟩
  rintro x (hx | hx)
  · exact hx.elim
  · exact hx.elim

/-- No frames appear from nowhere. -/
theorem mem_allocated {frame : Option Nat} {alloc : RecycleAllocator BumpAllocator} {x : Nat}
    (h : x ∈ (u.allocated frame count alloc).freed ∪ (u.allocated frame count alloc).live) :
    x ∈ u.freed ∪ u.live ∨ x ∈ handedOut frame count := by
  obtain ⟨hx, -⟩ | hx | hx := h
  · exact .inl (.inl hx)
  · exact .inl (.inr hx)
  · exact .inr hx

theorem mem_freedBlock {b : Block} {alloc : RecycleAllocator BumpAllocator} {x : Nat}
    (hlive : b.cells ⊆ u.live) (h : x ∈ (u.freedBlock b alloc).freed ∪ (u.freedBlock b alloc).live) :
    x ∈ u.freed ∪ u.live := by
  unfold freedBlock at h
  obtain hx | ⟨hx, -⟩ := h
  · dsimp only at hx
    split at hx
    · exact hx.imp_right fun hx => hlive hx
    · exact .inl hx
  · exact .inr hx

/-- What a request comes to: frames of the free list, or an answer of the bump allocator. -/
theorem Sound.allocate_cases (h : u.Sound bs) {fuel : Nat} (hcount : BumpAllocator.Askable count)
    {frame : Option Nat} {alloc : RecycleAllocator BumpAllocator}
    (hresult : u.alloc.allocate fuel count = some (frame, alloc)) :
    (∃ frame' free, frame = some frame' ∧ alloc = { u.alloc with free } ∧ Taken count bs frame' free ∧
        findSmall count u.alloc.free 0 none ≠ none) ∨
      ∃ inner, alloc = { u.alloc with inner } ∧ inner.Chosen ∧ u.alloc.inner.Outcome count frame inner ∧
        findSmall count u.alloc.free 0 none = none := by
  unfold RecycleAllocator.allocate at hresult
  cases hfound : findSmall count u.alloc.free 0 none with
  | some found =>
    rw [hfound] at hresult
    rw [h.listed.free] at hfound
    have hrun := (RecycleAllocator.findSmall_isSome_iff h.listed.separated hcount.1).mp
      (Option.isSome_iff_exists.mpr ⟨found, hfound⟩)
    obtain ⟨frame', free, hserved, htaken⟩ := RecycleAllocator.allocateFrames_served
      (A := bumpFrames fuel) h.listed.free h.listed.separated hcount.1 hrun
    cases hserved.symm.trans (Option.some.inj hresult)
    exact .inl ⟨frame', free, rfl, rfl, htaken, nofun⟩
  | none =>
    rw [hfound] at hresult
    obtain ⟨⟨frame', inner⟩, hinner, heq⟩ := Option.map_eq_some_iff.mp hresult
    cases heq
    obtain ⟨-, hchosen, houtcome⟩ := BumpAllocator.allocateFrames_outcome h.chosen hcount hinner
    exact .inr ⟨inner, rfl, hchosen, houtcome, rfl⟩

/-- **Allocating frames** hands out frames that are not in use, and takes them off the free
list. -/
theorem Sound.allocated (h : u.Sound bs) {fuel : Nat} (hcount : BumpAllocator.Askable count)
    {frame : Option Nat} {alloc : RecycleAllocator BumpAllocator}
    (hresult : u.alloc.allocate fuel count = some (frame, alloc)) :
    Disjoint (handedOut frame count) u.live ∧ ∃ bs', (u.allocated frame count alloc).Sound bs' := by
  rcases h.allocate_cases hcount hresult with
    ⟨frame', free, rfl, rfl, htaken, -⟩ | ⟨inner, rfl, hchosen, houtcome, -⟩
  · obtain ⟨hsub, bs', hlisted⟩ := h.listed.served htaken
    refine ⟨Set.disjoint_of_subset_left hsub h.listed.apart, bs', h.chosen, hlisted, fun x hx => ?_⟩
    rcases mem_allocated hx with hx | hx
    · exact h.before x hx
    · exact h.before x (.inl (hsub hx))
  · have hnew : ∀ x ∈ handedOut frame count, x ∉ u.freed ∪ u.live := fun x hx hold =>
      absurd (h.before x hold) (Nat.not_lt.mpr (houtcome.new x hx).1)
    have hfreed : Disjoint u.freed (handedOut frame count) :=
      Set.disjoint_left.mpr fun x hx hx' => hnew x hx' (.inl hx)
    have hsame : u.freed \ handedOut frame count = u.freed := hfreed.sdiff_eq_left
    refine ⟨Set.disjoint_left.mpr fun x hx hx' => hnew x hx (.inr hx'), bs, hchosen, ?_, fun x hx => ?_⟩
    · refine ⟨h.listed.free, h.listed.separated, h.listed.covers.trans hsame.symm, ?_⟩
      show Disjoint (u.freed \ handedOut frame count) (u.live ∪ handedOut frame count)
      rw [hsame, Set.disjoint_union_right]
      exact ⟨h.listed.apart, hfreed⟩
    · rcases mem_allocated hx with hx | hx
      · exact Nat.lt_of_lt_of_le (h.before x hx) houtcome.keeps.2.2
      · exact (houtcome.new x hx).2.1

/-- **Freeing a block in use** returns. -/
theorem Sound.freed (h : u.Sound bs) {b : Block} (hpos : 0 < b.count) (hlive : b.cells ⊆ u.live) :
    ∃ free, u.alloc.deallocate 3 b.start b.count = some { u.alloc with free } ∧
      ∃ bs', (u.freedBlock b { u.alloc with free }).Sound bs' := by
  unfold RecycleAllocator.deallocate RecycleAllocator.deallocateFrames
  have hbefore : ∀ free x, x ∈ (u.freedBlock b { u.alloc with free }).freed ∪
      (u.freedBlock b { u.alloc with free }).live → _ :=
    fun free x hx => h.before x (mem_freedBlock hlive hx)
  by_cases hnoncore : u.alloc.noncore = true
  · obtain ⟨free, hfree, bs', hlisted⟩ := h.listed.freed hpos hlive
    rw [if_pos hnoncore, hfree]
    refine ⟨free, rfl, bs', h.chosen, ?_, hbefore free⟩
    unfold freedBlock
    rw [if_pos hnoncore]
    exact hlisted
  · rw [if_neg hnoncore]
    refine ⟨u.alloc.free, rfl, bs, h.chosen, ?_, hbefore _⟩
    unfold freedBlock
    rw [if_neg hnoncore]
    exact ⟨h.listed.free, h.listed.separated, h.listed.covers,
      Set.disjoint_of_subset_right Set.sdiff_subset h.listed.apart⟩

end Usage

/-- The result of a free does not depend on the fuel. -/
theorem RecycleAllocator.deallocate_deterministic {a r r' : RecycleAllocator BumpAllocator}
    {fuel fuel' frame count : Nat} (h : a.deallocate fuel frame count = some r)
    (h' : a.deallocate fuel' frame count = some r') : r = r' := by
  unfold deallocate deallocateFrames at h h'
  split at h
  · next hnoncore =>
    rw [if_pos hnoncore] at h'
    obtain ⟨free, hfree, rfl⟩ := Option.map_eq_some_iff.mp h
    obtain ⟨free', hfree', rfl⟩ := Option.map_eq_some_iff.mp h'
    rw [giveBack_deterministic hfree hfree']
  · next hcore =>
    rw [if_neg hcore, h] at h'
    exact Option.some.inj h'

end Faastr.Memory
