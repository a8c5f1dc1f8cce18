import Faastr.Memory.Bump
import Mathlib.Data.Set.Lattice

/-!
What the bump allocator hands out (`kernel/src/memory/bump.rs`), byte for byte.

Frames are found by rounding the ends of an area down to a frame, and a block is compared with
the kernel at its first and at its last frame only. So the blocks are free memory as long as
the areas they come from are made of whole pages, none of them reaches over the kernel, and no
count is so large that a sum wraps.

* `only_free_memory`: what is handed out in every run.
-/

namespace Faastr.Memory

open Faastr.Lib

namespace MemoryArea

def bytes (area : MemoryArea) : Set Nat :=
  Set.Ico area.baseAddr.toNat (area.baseAddr.toNat + area.length.toNat)

/-- The area has bytes, and begins and ends at a page boundary. -/
def WholePages (area : MemoryArea) : Prop :=
  area.length ≠ 0 ∧ area.baseAddr.toNat % pageSize = 0 ∧ area.length.toNat % pageSize = 0

instance (area : MemoryArea) : Decidable area.WholePages := inferInstanceAs (Decidable (_ ∧ _))

theorem WholePages.start {area : MemoryArea} (h : area.WholePages) :
    area.startFrame * pageSize = area.baseAddr.toNat :=
  Nat.div_mul_cancel (Nat.dvd_of_mod_eq_zero h.2.1)

/-- The last frame of such an area ends where the area does. -/
theorem WholePages.last {area : MemoryArea} (h : area.WholePages) (hproper : area.startFrame ≤ area.lastFrame) :
    (area.lastFrame + 1) * pageSize = area.baseAddr.toNat + area.length.toNat := by
  obtain ⟨hlength, hbase, hpages⟩ := h
  have hpos : area.length.toNat ≠ 0 := fun hzero => hlength (UInt64.toNat_inj.mp hzero)
  have hb := area.baseAddr.toNat_lt
  have hl := area.length.toNat_lt
  unfold startFrame lastFrame at hproper
  unfold lastFrame
  rw [UInt64.toNat_sub, UInt64.toNat_add, UInt64.toNat_one] at hproper ⊢
  unfold pageSize at *
  omega

end MemoryArea

/-- The bytes of a block of frames. -/
def bytesOf (b : Block) : Set Nat := Set.Ico (b.start * pageSize) (b.stop * pageSize)

theorem mem_bytesOf {b : Block} {x : Nat} : x ∈ bytesOf b ↔ x / pageSize ∈ b.cells := by
  rw [Block.mem_cells, bytesOf, Set.mem_Ico, Block.stop, Nat.le_div_iff_mul_le (by decide),
    Nat.div_lt_iff_lt_mul (by decide)]

/-- An allocator in use, with the blocks that it handed out. -/
structure Handout where
  alloc : BumpAllocator
  blocks : List Block

namespace Handout

def start (kernelStart kernelEnd : UInt64) (memoryAreas : List MemoryArea) : Handout :=
  { alloc := .new kernelStart kernelEnd memoryAreas, blocks := [] }

/-- A request that returned. -/
def returned (h : Handout) (count : Nat) (frame : Option Nat) (alloc : BumpAllocator) : Handout where
  alloc
  blocks :=
    match frame with
    | some frame => h.blocks ++ [⟨frame, count⟩]
    | none => h.blocks

/-- The areas that the request comes to first, from the next free frame and from the end of the
kernel on, are made of whole pages, and the block does not reach over the kernel. The count is
below `2^63`. -/
structure Clean (s : BumpAllocator) (count : Nat) : Prop where
  word : count < 2 ^ 63
  first : ∀ area, s.firstArea s.nextFreeFrame = some area →
    area.WholePages ∧ ¬ s.Spans (max s.nextFreeFrame area.startFrame) count
  behind : s.Jumps count → ∀ area, s.firstArea (s.kernelEnd + 1) = some area → area.WholePages

inductive Step (h : Handout) : Handout → Prop
  | allocate (fuel count : Nat) (frame : Option Nat) (alloc : BumpAllocator)
      (hresult : h.alloc.allocateFrames fuel count = some (frame, alloc)) : Step h (h.returned count frame alloc)

/-- A request to an allocator that is clean for it. -/
inductive CleanStep (h : Handout) : Handout → Prop
  | allocate (fuel count : Nat) (frame : Option Nat) (alloc : BumpAllocator) (hclean : Clean h.alloc count)
      (hresult : h.alloc.allocateFrames fuel count = some (frame, alloc)) :
      CleanStep h (h.returned count frame alloc)

/-- The blocks are free memory, and no two of them overlap. -/
structure OnlyFree (kernelStart kernelEnd : UInt64) (memoryAreas : List MemoryArea) (blocks : List Block) :
    Prop where
  inside : ∀ b ∈ blocks, ∃ area ∈ memoryAreas, bytesOf b ⊆ area.bytes
  noKernel : ∀ b ∈ blocks, Disjoint (bytesOf b) (Set.Icc kernelStart.toNat kernelEnd.toNat)
  disjoint : blocks.Pairwise fun b c => Disjoint (bytesOf b) (bytesOf c)

/-- What is kept along a run: the blocks are before the next free frame. -/
structure Inv (kernelStart kernelEnd : UInt64) (memoryAreas : List MemoryArea) (h : Handout) : Prop where
  chosen : h.alloc.Chosen
  areas : h.alloc.areas = memoryAreas
  kernelFirst : h.alloc.kernelStart = kernelStart.toNat / pageSize
  kernelLast : h.alloc.kernelEnd = kernelEnd.toNat / pageSize
  before : ∀ b ∈ h.blocks, b.stop ≤ h.alloc.nextFreeFrame
  free : OnlyFree kernelStart kernelEnd memoryAreas h.blocks

variable {kernelStart kernelEnd : UInt64} {memoryAreas : List MemoryArea} {h h' : Handout}

theorem inv_start : (start kernelStart kernelEnd memoryAreas).Inv kernelStart kernelEnd memoryAreas := by
  have hmap : ∀ s : BumpAllocator, s.chooseNextArea.areas = s.areas ∧
      s.chooseNextArea.kernelStart = s.kernelStart ∧ s.chooseNextArea.kernelEnd = s.kernelEnd :=
    fun _ => ⟨rfl, rfl, rfl⟩
  refine ⟨BumpAllocator.chosen_new _ _ _, (hmap _).1, (hmap _).2.1, (hmap _).2.2, nofun, ?_⟩
  exact ⟨nofun, nofun, .nil⟩

/-- A block in an area of whole pages is inside of it, byte for byte. -/
theorem bytesOf_subset {area : MemoryArea} {frame count : Nat} (hpages : area.WholePages)
    (hstart : area.startFrame ≤ frame) (hlast : frame + (count - 1) ≤ area.lastFrame) :
    bytesOf ⟨frame, count⟩ ⊆ area.bytes := by
  have hbase := hpages.start
  have hend := hpages.last (by omega)
  intro x hx
  rw [mem_bytesOf, Block.mem_cells] at hx
  rw [MemoryArea.bytes, Set.mem_Ico, ← hend, ← hbase]
  dsimp only at hx
  unfold pageSize at *
  omega

/-- A block that neither hits the kernel nor reaches over it has none of its bytes. -/
theorem bytesOf_disjoint_kernel (hinv : h.Inv kernelStart kernelEnd memoryAreas) {frame count : Nat}
    (hhits : ¬ h.alloc.Hits frame count) (hspans : ¬ h.alloc.Spans frame count) :
    Disjoint (bytesOf ⟨frame, count⟩) (Set.Icc kernelStart.toNat kernelEnd.toNat) := by
  rw [Set.disjoint_left]
  intro x hx hkernel
  rw [mem_bytesOf, Block.mem_cells] at hx
  have hle := Nat.div_le_div_right (c := pageSize) hkernel.1
  have hge := Nat.div_le_div_right (c := pageSize) hkernel.2
  rw [← hinv.kernelFirst] at hle
  rw [← hinv.kernelLast] at hge
  unfold BumpAllocator.Hits BumpAllocator.InKernel at hhits
  unfold BumpAllocator.Spans at hspans
  dsimp only at hx
  omega

/-- A block behind the next free frame does not overlap the earlier ones. -/
theorem bytesOf_disjoint_earlier {b : Block} {n frame count : Nat} (hb : b.stop ≤ n) (hn : n ≤ frame) :
    Disjoint (bytesOf b) (bytesOf ⟨frame, count⟩) := by
  rw [Set.disjoint_left]
  intro x hx hx'
  rw [mem_bytesOf, Block.mem_cells] at hx hx'
  unfold Block.stop at hb
  dsimp only at hx'
  omega

theorem inv_step (hinv : h.Inv kernelStart kernelEnd memoryAreas) (hstep : CleanStep h h') :
    h'.Inv kernelStart kernelEnd memoryAreas := by
  obtain ⟨fuel, count, frame, alloc, hclean, hresult⟩ := hstep
  rcases Nat.eq_zero_or_pos count with rfl | hcount
  · cases fuel with
    | zero => cases hresult
    | succ fuel =>
      cases (BumpAllocator.allocateFrames_zero h.alloc fuel).symm.trans hresult
      exact hinv
  · obtain ⟨-, hchosen, houtcome⟩ := BumpAllocator.allocateFrames_outcome hinv.chosen ⟨hcount, hclean.word⟩ hresult
    cases houtcome with
    | none m hle =>
      exact ⟨hchosen, hinv.areas, hinv.kernelFirst, hinv.kernelLast,
        fun b hb => Nat.le_trans (hinv.before b hb) hle, hinv.free⟩
    | found n area hn hle hfirst hlast hhits =>
      obtain ⟨hmem, -, -, -⟩ := BumpAllocator.firstArea_some hfirst
      have hpages : area.WholePages := by
        rcases hn with rfl | ⟨rfl, hjumps⟩
        · exact (hclean.first area hfirst).1
        · exact hclean.behind hjumps area hfirst
      have hspans : ¬ h.alloc.Spans (max n area.startFrame) count := by
        rcases hn with rfl | ⟨rfl, -⟩
        · exact (hclean.first area hfirst).2
        · unfold BumpAllocator.Spans
          omega
      have hsplit : ∀ b ∈ h.blocks ++ [⟨max n area.startFrame, count⟩],
          b ∈ h.blocks ∨ b = ⟨max n area.startFrame, count⟩ := by
        intro b hb
        rcases List.mem_append.mp hb with hb | hb
        · exact .inl hb
        · exact .inr (List.mem_singleton.mp hb)
      refine ⟨hchosen, hinv.areas, hinv.kernelFirst, hinv.kernelLast, fun b hb => ?_, fun b hb => ?_,
        fun b hb => ?_, ?_⟩
      · rcases hsplit b hb with hb | rfl
        · exact Nat.le_trans (hinv.before b hb) (show h.alloc.nextFreeFrame ≤ max n area.startFrame + count by omega)
        · exact Nat.le_refl _
      · rcases hsplit b hb with hb | rfl
        · exact hinv.free.inside b hb
        · exact ⟨area, hinv.areas ▸ hmem, bytesOf_subset hpages (Nat.le_max_right _ _) hlast⟩
      · rcases hsplit b hb with hb | rfl
        · exact hinv.free.noKernel b hb
        · exact bytesOf_disjoint_kernel hinv hhits hspans
      · refine List.pairwise_append.mpr ⟨hinv.free.disjoint, List.pairwise_singleton _ _, ?_⟩
        intro b hb c hc
        cases List.mem_singleton.mp hc
        exact bytesOf_disjoint_earlier (hinv.before b hb) (by omega)

/-- **The bump allocator only hands out free memory.** In every run of requests to allocators
that are clean for them, each block is inside of one free area, byte for byte, has no byte of
the kernel, and overlaps no block handed out before. -/
theorem only_free_memory {memoryMap : List MemoryArea}
    (run : Relation.ReflTransGen CleanStep
      (start kernelStart kernelEnd (memoryAreaIter memoryAreaFree memoryMap)) h) :
    OnlyFree kernelStart kernelEnd (memoryAreaIter memoryAreaFree memoryMap) h.blocks :=
  (invariant_of_step (Inv kernelStart kernelEnd (memoryAreaIter memoryAreaFree memoryMap)) run inv_start
    fun _ _ hinv hstep => inv_step hinv hstep).free

/-- Two frames from behind a kernel of one. -/
theorem frames_behind_kernel_free : ∃ h, Relation.ReflTransGen CleanStep
      (start 0x100000 0x100000 (memoryAreaIter memoryAreaFree [⟨0x100000, 0x4000, 1⟩])) h ∧
    h.blocks = [⟨0x101, 2⟩] ∧
    OnlyFree 0x100000 0x100000 (memoryAreaIter memoryAreaFree [⟨0x100000, 0x4000, 1⟩]) h.blocks := by
  have hrun : ((BumpAllocator.new 0x100000 0x100000
      (memoryAreaIter memoryAreaFree [⟨0x100000, 0x4000, 1⟩])).allocateFrames 2 2).map Prod.fst =
        some (some 0x101) := by decide +kernel
  obtain ⟨⟨frame, alloc⟩, hresult, hframe⟩ := Option.map_eq_some_iff.mp hrun
  cases hframe
  have hfirst : ∀ n ≤ 0x103, (BumpAllocator.new 0x100000 0x100000
      (memoryAreaIter memoryAreaFree [⟨0x100000, 0x4000, 1⟩])).firstArea n = some ⟨0x100000, 0x4000, 1⟩ := by
    decide +kernel
  have hclean : Clean (BumpAllocator.new 0x100000 0x100000
      (memoryAreaIter memoryAreaFree [⟨0x100000, 0x4000, 1⟩])) 2 := by
    refine ⟨by decide, fun area heq => ?_, fun _ area heq => ?_⟩
    · cases (hfirst _ (by decide +kernel)).symm.trans heq
      refine ⟨by decide +kernel, fun hspans => ?_⟩
      exact absurd hspans.1 (by decide +kernel)
    · cases (hfirst _ (by decide +kernel)).symm.trans heq
      decide +kernel
  have hreach := Relation.ReflTransGen.single (CleanStep.allocate (h := start 0x100000 0x100000
    (memoryAreaIter memoryAreaFree [⟨0x100000, 0x4000, 1⟩])) 2 2 (some 0x101) alloc hclean hresult)
  exact ⟨_, hreach, rfl, only_free_memory hreach⟩

/-- **A block that is not free**: both frames of an area of one page and a quarter. -/
theorem last_frame_not_free : ∃ h, Relation.ReflTransGen Step
      (start 0 0xff000 (memoryAreaIter memoryAreaFree [⟨0x100000, 0x1400, 1⟩])) h ∧
    h.blocks = [⟨0x100, 2⟩] ∧
    ¬ OnlyFree 0 0xff000 (memoryAreaIter memoryAreaFree [⟨0x100000, 0x1400, 1⟩]) h.blocks := by
  have hrun : ((BumpAllocator.new 0 0xff000
      (memoryAreaIter memoryAreaFree [⟨0x100000, 0x1400, 1⟩])).allocateFrames 1 2).map Prod.fst =
        some (some 0x100) := by decide +kernel
  obtain ⟨⟨frame, alloc⟩, hresult, hframe⟩ := Option.map_eq_some_iff.mp hrun
  cases hframe
  have hreach := Relation.ReflTransGen.single (Step.allocate (h := start 0 0xff000
    (memoryAreaIter memoryAreaFree [⟨0x100000, 0x1400, 1⟩])) 1 2 (some 0x100) alloc hresult)
  refine ⟨_, hreach, rfl, fun hfree => ?_⟩
  -- The last byte of the second frame.
  obtain ⟨area, hmem, hsub⟩ := hfree.inside ⟨0x100, 2⟩ (List.mem_singleton.mpr rfl)
  have harea : area = ⟨0x100000, 0x1400, 1⟩ := List.mem_singleton.mp hmem
  have hbyte : (0x101fff : Nat) ∈ area.bytes := hsub ⟨by decide, by decide⟩
  rw [harea] at hbyte
  exact absurd hbyte.2 (by decide)

end Handout

end Faastr.Memory
