import Faastr.Memory.Frames
import Mathlib.Data.Set.Card

/-!
The counts of free and of used frames (`free_frames` and `used_frames` of
`kernel/src/memory/bump.rs` and `kernel/src/memory/recycle.rs`).

The two layers count on their own: the bump allocator goes through all frames of the memory
map and compares them with the next free one, and the recycler adds and subtracts what is on
its free list. The subtraction is right because every frame on the list is one that the bump
allocator has handed out, and so counts as used (`Usage.Books`).

* `frames_accounted`: the counts in every state of every run, and what each call moves between
  them.
-/

namespace Faastr.Memory

open Faastr.Lib

namespace BumpAllocator

/-- A loop over the frames of all areas that counts some of them. -/
def countFrames (s : BumpAllocator) (counted : Nat → Bool) : Nat :=
  (s.areas.flatMap MemoryArea.frames).countP counted

def freeFrames (s : BumpAllocator) : Nat :=
  s.countFrames fun frame => if s.InKernel frame then false else s.nextFreeFrame ≤ frame

def usedFrames (s : BumpAllocator) : Nat :=
  s.countFrames fun frame => if s.InKernel frame then true else !(s.nextFreeFrame ≤ frame)

end BumpAllocator

namespace RecycleAllocator

def freeCount {τ : Type} (a : RecycleAllocator τ) : Nat := (a.free.map Prod.snd).sum

def freeFrames (a : RecycleAllocator BumpAllocator) : Nat := a.inner.freeFrames + a.freeCount

/-- Nothing if the subtraction underflows. -/
def usedFrames (a : RecycleAllocator BumpAllocator) : Option Nat :=
  if a.freeCount ≤ a.inner.usedFrames then some (a.inner.usedFrames - a.freeCount) else none

end RecycleAllocator

/-- The frame allocator as `memory::init` makes it. -/
def Usage.boot (kernelEnd : UInt64) (memoryAreas : List MemoryArea) : Usage BumpAllocator :=
  { alloc := .new (.new 0 kernelEnd memoryAreas), live := ∅, freed := ∅ }

/-- Calls that return, for at least one frame and fewer than `2^63`, and that free live frames
only. -/
inductive Usage.Call (u : Usage BumpAllocator) : Usage BumpAllocator → Prop
  | setNoncore (noncore : Bool) : Call u { u with alloc := u.alloc.setNoncore noncore }
  | allocate (fuel count : Nat) (hcount : BumpAllocator.Askable count) (frame : Option Nat)
      (alloc : RecycleAllocator BumpAllocator) (h : u.alloc.allocate fuel count = some (frame, alloc)) :
      Call u (u.allocated frame count alloc)
  | deallocate (b : Block) (hpos : 0 < b.count) (hlive : b.cells ⊆ u.live) (fuel : Nat)
      (alloc : RecycleAllocator BumpAllocator)
      (h : u.alloc.deallocate fuel b.start b.count = some alloc) :
      Call u (u.freedBlock b alloc)

/-! ### Counting -/

/-- The frames of a finite set that are counted in a list, each at least once. -/
theorem ncard_le_countP {l : List Nat} {p : Nat → Bool} {cells : Set Nat}
    (h : ∀ x ∈ cells, x ∈ l ∧ p x) : cells.ncard ≤ l.countP p := by
  have hsub : cells ⊆ ((l.filter p).toFinset : Set Nat) := by
    intro x hx
    rw [List.coe_toFinset]
    exact List.mem_filter.mpr (h x hx)
  calc cells.ncard ≤ ((l.filter p).toFinset : Set Nat).ncard := Set.ncard_le_ncard hsub (Finset.finite_toSet _)
    _ = (l.filter p).toFinset.card := Set.ncard_coe_finset _
    _ ≤ (l.filter p).length := List.toFinset_card_le _
    _ = l.countP p := List.countP_eq_length_filter.symm

/-- More is counted, by the frames that are new. -/
theorem countP_add_ncard_le {l : List Nat} {p q : Nat → Bool} {cells : Set Nat}
    (hpq : ∀ x, p x → q x) (h : ∀ x ∈ cells, x ∈ l ∧ q x ∧ ¬ p x) :
    l.countP p + cells.ncard ≤ l.countP q := by
  have hsplit : ∀ l : List Nat, l.countP q = l.countP p + l.countP fun x => q x && !p x := by
    intro l
    induction l with
    | nil => rfl
    | cons x l ih =>
      have hx := hpq x
      rw [List.countP_cons, List.countP_cons, List.countP_cons, ih]
      cases hp : p x <;> cases hq : q x <;> simp_all <;> omega
  rw [hsplit]
  refine Nat.add_le_add_left (ncard_le_countP fun x hx => ?_) _
  obtain ⟨hmem, hqx, hpx⟩ := h x hx
  exact ⟨hmem, by simp [hqx, hpx]⟩

theorem BumpAllocator.free_add_used (s : BumpAllocator) :
    s.freeFrames + s.usedFrames = (s.areas.flatMap MemoryArea.frames).length := by
  unfold freeFrames usedFrames countFrames
  rw [List.length_eq_countP_add_countP fun frame => if s.InKernel frame then false else s.nextFreeFrame ≤ frame]
  congr 2
  funext frame
  by_cases hkernel : s.InKernel frame
  · simp [hkernel]
  · simp only [hkernel, if_false, Bool.not_eq_true, decide_eq_false_iff_not, decide_not]

theorem BumpAllocator.counts_iff (s : BumpAllocator) (x : Nat) :
    (if s.InKernel x then true else !(s.nextFreeFrame ≤ x)) = true ↔ s.InKernel x ∨ x < s.nextFreeFrame := by
  by_cases hkernel : s.InKernel x
  · simp [hkernel]
  · simp [hkernel]

/-- Frames of the map before the next free one count as used. -/
theorem BumpAllocator.ncard_le_usedFrames {s : BumpAllocator} {cells : Set Nat}
    (h : ∀ x ∈ cells, x ∈ s.areas.flatMap MemoryArea.frames ∧ x < s.nextFreeFrame) :
    cells.ncard ≤ s.usedFrames := by
  refine ncard_le_countP fun x hx => ⟨(h x hx).1, ?_⟩
  exact (s.counts_iff x).mpr (.inr (h x hx).2)

/-- **Frames of the bump allocator are new**: at least as many more are used. -/
theorem BumpAllocator.outcome_found {s s' : BumpAllocator} {count frame : Nat} (hcount : 0 < count)
    (hkernel : s.kernelStart = 0) (h : s.Outcome count (some frame) s') :
    s.usedFrames + count ≤ s'.usedFrames := by
  have hnew := h.new
  cases h with
  | found n area hn hle hfirst hlast hhits =>
    have hnext : s.nextFreeFrame ≤ max n area.startFrame + count := by omega
    have hmore : s.usedFrames + (⟨max n area.startFrame, count⟩ : Block).cells.ncard ≤ usedFrames
        { s with currentArea := some area, nextFreeFrame := max n area.startFrame + count } := by
      refine countP_add_ncard_le (fun x hx => ?_) fun x hx => ⟨(hnew x hx).2.2, ?_, fun hused => ?_⟩
      · refine (counts_iff _ x).mpr (((counts_iff _ x).mp hx).imp_right fun hlt => ?_)
        exact Nat.lt_of_lt_of_le hlt hnext
      · exact (counts_iff _ x).mpr (.inr hx.2)
      · -- The kernel begins at frame 0, and the block is behind it.
        rw [Block.mem_cells] at hx
        have hold := (counts_iff _ x).mp hused
        unfold Hits InKernel at hhits
        unfold InKernel at hold
        dsimp only at hx
        omega
    rwa [Block.ncard_cells] at hmore

namespace Usage

/-- The books: in addition, all frames are those of the memory map, and the kernel begins at
frame 0. -/
structure Books (memoryAreas : List MemoryArea) (bs : List Block) (u : Usage BumpAllocator) : Prop
    extends u.Sound bs where
  areas : u.alloc.inner.areas = memoryAreas
  kernel : u.alloc.inner.kernelStart = 0
  inMap : ∀ x ∈ u.freed ∪ u.live, x ∈ memoryAreas.flatMap MemoryArea.frames

variable {memoryAreas : List MemoryArea} {bs : List Block} {u u' : Usage BumpAllocator}

/-- The count of the free list is the number of the frames on it. -/
theorem Listed.freeCount {τ : Type} {u : Usage τ} (h : u.Listed bs) : u.alloc.freeCount = u.freed.ncard := by
  rw [RecycleAllocator.freeCount, h.free, ← h.covers, h.separated.ncard_covered, entries, List.map_map]
  rfl

theorem Listed.freed_finite {τ : Type} {u : Usage τ} (h : u.Listed bs) : u.freed.Finite :=
  h.covers ▸ covered_finite bs

/-- The subtraction does not underflow. -/
theorem Books.freeCount_le (h : u.Books memoryAreas bs) : u.alloc.freeCount ≤ u.alloc.inner.usedFrames := by
  rw [h.listed.freeCount]
  refine BumpAllocator.ncard_le_usedFrames fun x hx => ⟨?_, h.before x (.inl hx)⟩
  rw [h.areas]
  exact h.inMap x (.inl hx)

theorem books_boot (kernelEnd : UInt64) : (boot kernelEnd memoryAreas).Books memoryAreas [] := by
  refine ⟨sound_empty (BumpAllocator.chosen_new _ _ _) rfl, rfl, Nat.zero_div _, ?_⟩
  rintro x (hx | hx)
  · exact hx.elim
  · exact hx.elim

theorem Books.allocated (h : u.Books memoryAreas bs) {fuel count : Nat} (hcount : BumpAllocator.Askable count)
    {frame : Option Nat} {alloc : RecycleAllocator BumpAllocator}
    (hresult : u.alloc.allocate fuel count = some (frame, alloc)) :
    ∃ bs', (u.allocated frame count alloc).Books memoryAreas bs' := by
  obtain ⟨-, bs', hsound⟩ := h.toSound.allocated hcount hresult
  rcases h.allocate_cases hcount hresult with
    ⟨frame', free, rfl, rfl, htaken, -⟩ | ⟨inner, rfl, -, houtcome, -⟩
  · refine ⟨bs', hsound, h.areas, h.kernel, fun x hx => ?_⟩
    rcases mem_allocated hx with hx | hx
    · exact h.inMap x hx
    · exact h.inMap x (.inl ((h.listed.served htaken).1 hx))
  · obtain ⟨hareas, hkernel, -⟩ := houtcome.keeps
    refine ⟨bs', hsound, hareas.trans h.areas, hkernel.trans h.kernel, fun x hx => ?_⟩
    rcases mem_allocated hx with hx | hx
    · exact h.inMap x hx
    · exact h.areas ▸ (houtcome.new x hx).2.2

theorem Books.freed (h : u.Books memoryAreas bs) {b : Block} (hpos : 0 < b.count) (hlive : b.cells ⊆ u.live) :
    ∃ free, u.alloc.deallocate 3 b.start b.count = some { u.alloc with free } ∧
      ∃ bs', (u.freedBlock b { u.alloc with free }).Books memoryAreas bs' := by
  obtain ⟨free, hfree, bs', hsound⟩ := h.toSound.freed hpos hlive
  exact ⟨free, hfree, bs', hsound, h.areas, h.kernel, fun x hx => h.inMap x (mem_freedBlock hlive hx)⟩

theorem books_step (h : u.Books memoryAreas bs) (hcall : Call u u') : ∃ bs', u'.Books memoryAreas bs' := by
  cases hcall with
  | setNoncore noncore =>
    exact ⟨bs, ⟨h.chosen, ⟨h.listed.free, h.listed.separated, h.listed.covers, h.listed.apart⟩, h.before⟩,
      h.areas, h.kernel, h.inMap⟩
  | allocate fuel count hcount frame alloc hresult => exact h.allocated hcount hresult
  | deallocate b hpos hlive fuel alloc hresult =>
    obtain ⟨free, hfree, hbooks⟩ := h.freed hpos hlive
    rw [RecycleAllocator.deallocate_deterministic hresult hfree]
    exact hbooks

/-! ### The counts -/

/-- `count` frames are moved from the free to the used ones. -/
def Moved (a a' : RecycleAllocator BumpAllocator) (count : Nat) : Prop :=
  ∃ used, a.usedFrames = some used ∧ a'.usedFrames = some (used + count) ∧
    a'.freeFrames + count = a.freeFrames

/-- What is asked of the counts: they add up to the same number, a call that returns moves as
many frames as it is for, and one that the bump allocator serves at least as many. -/
structure Accounted (total : Nat) (u : Usage BumpAllocator) : Prop where
  balance : ∃ used, u.alloc.usedFrames = some used ∧ u.alloc.freeFrames + used = total
  deallocate : ∀ b : Block, ∀ fuel alloc, u.alloc.noncore = true → 0 < b.count → b.cells ⊆ u.live →
    u.alloc.deallocate fuel b.start b.count = some alloc → Moved alloc u.alloc b.count
  served : ∀ count fuel frame alloc, BumpAllocator.Askable count → findSmall count u.alloc.free 0 none ≠ none →
    u.alloc.allocate fuel count = some (some frame, alloc) → Moved u.alloc alloc count
  bumped : ∀ count fuel frame alloc, BumpAllocator.Askable count → findSmall count u.alloc.free 0 none = none →
    u.alloc.allocate fuel count = some (some frame, alloc) → ∃ moved, count ≤ moved ∧ Moved u.alloc alloc moved

/-- The count of the free list changes, and nothing else. -/
theorem moved_of_free {a : RecycleAllocator BumpAllocator} {free : List (Nat × Nat)} {count : Nat}
    (hle : a.freeCount ≤ a.inner.usedFrames)
    (hcount : RecycleAllocator.freeCount { a with free } + count = a.freeCount) :
    Moved a { a with free } count := by
  refine ⟨a.inner.usedFrames - a.freeCount, if_pos hle, ?_, ?_⟩
  · have hle' : RecycleAllocator.freeCount { a with free } ≤ a.inner.usedFrames := by omega
    refine (if_pos hle').trans ?_
    rw [Option.some.injEq]
    show a.inner.usedFrames - RecycleAllocator.freeCount { a with free } = _
    omega
  · show a.inner.freeFrames + RecycleAllocator.freeCount { a with free } + count =
      a.inner.freeFrames + a.freeCount
    omega

theorem Books.accounted (h : u.Books memoryAreas bs) :
    u.Accounted (memoryAreas.flatMap MemoryArea.frames).length := by
  have hle := h.freeCount_le
  have htotal := h.areas ▸ u.alloc.inner.free_add_used
  refine ⟨⟨_, if_pos hle, ?_⟩, ?_, ?_, ?_⟩
  · rw [RecycleAllocator.freeFrames, ← htotal]
    omega
  · intro b fuel alloc hnoncore hpos hlive hresult
    obtain ⟨free, hfree, bs', h'⟩ := h.freed hpos hlive
    rw [RecycleAllocator.deallocate_deterministic hresult hfree]
    show Moved { u.alloc with free } { { u.alloc with free } with free := u.alloc.free } b.count
    refine moved_of_free h'.freeCount_le ?_
    have hapart := Set.disjoint_of_subset_right hlive h.listed.apart
    have hnow := h'.listed.freeCount
    unfold freedBlock at hnow
    rw [if_pos hnoncore, Set.ncard_union_eq hapart h.listed.freed_finite (Block.cells_finite _),
      Block.ncard_cells] at hnow
    exact (congrArg (· + b.count) h.listed.freeCount).trans hnow.symm
  · intro count fuel frame alloc hcount hfound hresult
    obtain ⟨bs', h'⟩ := h.allocated hcount hresult
    rcases h.allocate_cases hcount hresult with
      ⟨frame', free, hframe, rfl, htaken, -⟩ | ⟨inner, -, -, -, hnone⟩
    · cases hframe
      obtain ⟨hsub, -⟩ := h.listed.served htaken
      refine moved_of_free hle ?_
      have hnow : RecycleAllocator.freeCount { u.alloc with free } =
          (u.freed \ (⟨frame, count⟩ : Block).cells).ncard := h'.listed.freeCount
      have hcard := Set.ncard_le_ncard hsub h.listed.freed_finite
      rw [Set.ncard_sdiff hsub (Block.cells_finite _), Block.ncard_cells] at hnow
      rw [Block.ncard_cells] at hcard
      have hbefore := h.listed.freeCount
      dsimp only at hnow hcard
      omega
    · exact absurd hnone hfound
  · intro count fuel frame alloc hcount hfound hresult
    rcases h.allocate_cases hcount hresult with
      ⟨frame', free, hframe, rfl, htaken, hsome⟩ | ⟨inner, rfl, hchosen, houtcome, -⟩
    · exact absurd hfound hsome
    · have hmore := BumpAllocator.outcome_found hcount.1 h.kernel houtcome
      have hsame := inner.free_add_used
      rw [houtcome.keeps.1, h.areas] at hsame
      refine ⟨inner.usedFrames - u.alloc.inner.usedFrames, by omega, _, if_pos hle, ?_, ?_⟩
      · have hle' : u.alloc.freeCount ≤ inner.usedFrames := by omega
        refine (if_pos hle').trans ?_
        rw [Option.some.injEq]
        show inner.usedFrames - u.alloc.freeCount = _
        omega
      · show inner.freeFrames + u.alloc.freeCount + _ = u.alloc.inner.freeFrames + u.alloc.freeCount
        omega

/-- **The frames are accounted for in every state of every run.** For every memory map, in any
order, and a kernel from address 0 on. -/
theorem frames_accounted {memoryMap : List MemoryArea} {kernelEnd : UInt64}
    (run : Relation.ReflTransGen Call (boot kernelEnd (memoryAreaIter memoryAreaFree memoryMap)) u) :
    u.Accounted ((memoryAreaIter memoryAreaFree memoryMap).flatMap MemoryArea.frames).length := by
  have hbooks : ∃ bs, u.Books (memoryAreaIter memoryAreaFree memoryMap) bs := by
    refine invariant_of_step (fun u => ∃ bs, u.Books (memoryAreaIter memoryAreaFree memoryMap) bs) run
      ⟨[], books_boot kernelEnd⟩ ?_
    rintro a b ⟨bs, h⟩ hcall
    exact books_step h hcall
  obtain ⟨bs, h⟩ := hbooks
  exact h.accounted

/-- Two of four frames are allocated, and one of them is freed. -/
theorem four_frames_accounted :
    ∃ u, Relation.ReflTransGen Call
        (boot 0xff000 (memoryAreaIter memoryAreaFree [⟨0x100000, 0x4000, memoryAreaFree⟩])) u ∧
      u.alloc.free = [(0x101 * pageSize, 1)] ∧ u.Accounted 4 := by
  have hrun : ∃ u, Relation.ReflTransGen Call
      (boot 0xff000 (memoryAreaIter memoryAreaFree [⟨0x100000, 0x4000, memoryAreaFree⟩])) u ∧
      u.alloc.free = [(0x101 * pageSize, 1)] := by
    refine ⟨_, .head (.setNoncore true) (.head (.allocate 1 2 ⟨by decide, by decide⟩ (some 0x100) _ rfl)
      (.single (.deallocate ⟨0x101, 1⟩ (by decide) ?_ 3 _ rfl))), rfl⟩
    intro x hx
    rw [Block.mem_cells] at hx
    simp only [boot, allocated, handedOut, Block.mem_cells, Set.mem_union, Set.mem_empty_iff_false] at hx ⊢
    omega
  obtain ⟨u, hreaches, hfree⟩ := hrun
  exact ⟨u, hreaches, hfree, frames_accounted hreaches⟩

/-- **A request for `2^64 - 1` frames** after one for two: the sums wrap, frames are handed out,
and one frame less is used. -/
theorem wrapped_request_unaccounted :
    ∃ u alloc, Relation.ReflTransGen Call
        (boot 0xff000 (memoryAreaIter memoryAreaFree [⟨0x100000, 0x4000, memoryAreaFree⟩])) u ∧
      u.alloc.allocate 1 (2 ^ 64 - 1) = some (some 0x102, alloc) ∧
      u.alloc.usedFrames = some 2 ∧ alloc.usedFrames = some 1 :=
  ⟨_, _, .single (.allocate 1 2 ⟨by decide, by decide⟩ (some 0x100) _ rfl), rfl, by decide +kernel,
    by decide +kernel⟩

end Usage

end Faastr.Memory
