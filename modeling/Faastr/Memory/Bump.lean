import Faastr.Lib.Transition
import Faastr.Memory.FreeList
import Mathlib.Data.List.MinMax
import Mathlib.Order.Nat

/-!
The bump allocator (`kernel/src/memory/bump.rs`) over the memory map of the boot loader
(`kernel/src/memory/mod.rs`): frames are handed out upwards, from one area after another,
around the kernel.

Areas are given in bytes, and are neither sorted nor aligned; the end of an area is computed
with machine arithmetic. A frame is its number. Frame numbers are below `2^52`, but a count is
any word, so that the frame behind a block may wrap. It does not for counts below `2^63`
(`Askable`).

`allocate_frames` calls itself until it has found a place. It is modelled on fuel: nothing is
returned when the calls do not end. Where they lead depends on the next free frame only:

* `arrive`: the calls get to the first area that has frames left (`firstArea`).
* `stuck`: they do not end there if it has some, but not enough.
* `allocateFrames_returns_iff`: when a request is answered as it should be.
-/

namespace Faastr.Memory

open Faastr.Lib

/-- An area of the memory map. -/
structure MemoryArea where
  baseAddr : UInt64
  length : UInt64
  type : UInt32
deriving DecidableEq, Repr

/-- `MEMORY_AREA_FREE`. -/
def memoryAreaFree : UInt32 := 1

/-- `MemoryAreaIter`: the areas of one type. -/
def memoryAreaIter (type : UInt32) (memoryMap : List MemoryArea) : List MemoryArea :=
  memoryMap.filter fun area => area.type = type

namespace MemoryArea

def startFrame (area : MemoryArea) : Nat := area.baseAddr.toNat / pageSize

/-- The frame of the last byte. The sum wraps, and so does the difference for an area without
any byte. -/
def lastFrame (area : MemoryArea) : Nat := (area.baseAddr + area.length - 1).toNat / pageSize

/-- `Frame::range_inclusive`. -/
def frames (area : MemoryArea) : List Nat :=
  List.range' area.startFrame (area.lastFrame + 1 - area.startFrame)

theorem mem_frames {area : MemoryArea} {frame : Nat} :
    frame ∈ area.frames ↔ area.startFrame ≤ frame ∧ frame ≤ area.lastFrame := by
  rw [frames, List.mem_range'_1]
  omega

theorem lastFrame_lt (area : MemoryArea) : area.lastFrame < 2 ^ 52 := by
  have := (area.baseAddr + area.length - 1).toNat_lt
  unfold lastFrame pageSize
  omega

theorem startFrame_lt (area : MemoryArea) : area.startFrame < 2 ^ 52 := by
  have := area.baseAddr.toNat_lt
  unfold startFrame pageSize
  omega

end MemoryArea

structure BumpAllocator where
  nextFreeFrame : Nat
  currentArea : Option MemoryArea
  areas : List MemoryArea
  kernelStart : Nat
  kernelEnd : Nat
deriving DecidableEq, Repr

namespace BumpAllocator

/-- The area with the lowest base address of those that end at or behind a frame. -/
def areaFrom (s : BumpAllocator) (frame : Nat) : Option MemoryArea :=
  (s.areas.filter fun area => frame ≤ area.lastFrame).argmin fun area => area.baseAddr.toNat

def chooseNextArea (s : BumpAllocator) : BumpAllocator :=
  let currentArea := s.areaFrom s.nextFreeFrame
  { s with
    currentArea
    nextFreeFrame :=
      match currentArea with
      | some area => if s.nextFreeFrame < area.startFrame then area.startFrame else s.nextFreeFrame
      | none => s.nextFreeFrame }

/-- The kernel range is given in bytes. -/
def new (kernelStart kernelEnd : UInt64) (memoryAreas : List MemoryArea) : BumpAllocator :=
  chooseNextArea
    { nextFreeFrame := 0
      currentArea := none
      areas := memoryAreas
      kernelStart := kernelStart.toNat / pageSize
      kernelEnd := kernelEnd.toNat / pageSize }

/-- The frame is in the kernel range. -/
def InKernel (s : BumpAllocator) (frame : Nat) : Prop := s.kernelStart ≤ frame ∧ frame ≤ s.kernelEnd

instance (s : BumpAllocator) (frame : Nat) : Decidable (s.InKernel frame) :=
  inferInstanceAs (Decidable (_ ∧ _))

/-- On fuel: nothing is returned if there are more calls. Sums with the count wrap. -/
def allocateFrames : Nat → BumpAllocator → Nat → Option (Option Nat × BumpAllocator)
  | 0, _, _ => none
  | fuel + 1, s, count =>
      if count = 0 then some (none, s)
      else
        match s.currentArea with
        | some area =>
            let startFrame := s.nextFreeFrame
            let endFrame := (s.nextFreeFrame + (count - 1)) % 2 ^ 64
            if area.lastFrame < endFrame then
              -- All frames of the area are taken to be used.
              allocateFrames fuel s.chooseNextArea count
            else if s.InKernel startFrame ∨ s.InKernel endFrame then
              allocateFrames fuel { s with nextFreeFrame := s.kernelEnd + 1 } count
            else some (some startFrame, { s with nextFreeFrame := (s.nextFreeFrame + count) % 2 ^ 64 })
        | none => some (none, s)

/-- A request that returns, for a count below `2^63`. -/
def Step (s s' : BumpAllocator) : Prop :=
  ∃ fuel count frame, count < 2 ^ 63 ∧ s.allocateFrames fuel count = some (frame, s')

/-- A count of frames with which no sum wraps. -/
def Askable (count : Nat) : Prop := 0 < count ∧ count < 2 ^ 63

/-! ### Choosing an area -/

section Choosing

variable {s : BumpAllocator} {n m : Nat} {area : MemoryArea}

/-- A minimum is that of every part of the list it is in. -/
theorem argmin_filter {α : Type} (f : α → Nat) {p q : α → Bool} (hpq : ∀ x, q x → p x) {a : α}
    (hq : q a) : ∀ {l : List α}, (l.filter p).argmin f = some a → (l.filter q).argmin f = some a
  | [], h => by cases h
  | x :: l, h => by
      have ih := argmin_filter f hpq hq (l := l)
      by_cases hx : p x
      · rw [List.filter_cons_of_pos hx, List.argmin_cons] at h
        cases hrest : (l.filter p).argmin f with
        | none =>
          rw [hrest] at h
          cases h
          have hnone : l.filter q = [] := by
            rw [List.argmin_eq_none] at hrest
            rw [List.filter_eq_nil_iff] at hrest ⊢
            exact fun y hy hqy => hrest y hy (hpq y hqy)
          rw [List.filter_cons_of_pos hq, hnone]
          rfl
        | some c =>
          rw [hrest] at h
          by_cases hlt : f c < f x
          · simp only [if_pos hlt] at h
            cases h
            by_cases hqx : q x
            · rw [List.filter_cons_of_pos hqx, List.argmin_cons, ih hrest]
              simp only [if_pos hlt]
            · rw [List.filter_cons_of_neg hqx]
              exact ih hrest
          · simp only [if_neg hlt] at h
            cases h
            rw [List.filter_cons_of_pos hq, List.argmin_cons]
            cases hrest' : (l.filter q).argmin f with
            | none => rfl
            | some c' =>
              have hmem := List.mem_filter.mp (List.argmin_mem hrest')
              have hle := List.le_of_mem_argmin (List.mem_filter.mpr ⟨hmem.1, hpq c' hmem.2⟩) hrest
              have hnlt : ¬ f c' < f a := by omega
              simp only [if_neg hnlt]
      · have hqx : ¬ q x := fun hqx => hx (hpq x hqx)
        rw [List.filter_cons_of_neg hx] at h
        rw [List.filter_cons_of_neg hqx]
        exact ih h

/-- The first area, by its base address, that has frames from `n` on. -/
def firstArea (s : BumpAllocator) (n : Nat) : Option MemoryArea :=
  (s.areas.filter fun area => area.startFrame ≤ area.lastFrame ∧ n ≤ area.lastFrame).argmin
    fun area => area.baseAddr.toNat

/-- The lowest of certain areas, by their base addresses. -/
theorem lowest_some {areas : List MemoryArea} {p : MemoryArea → Bool}
    (h : (areas.filter p).argmin (fun area => area.baseAddr.toNat) = some area) :
    area ∈ areas ∧ p area ∧ ∀ b ∈ areas, p b → area.startFrame ≤ b.startFrame := by
  have hmem := List.mem_filter.mp (List.argmin_mem h)
  refine ⟨hmem.1, hmem.2, fun b hb hp => ?_⟩
  have hle := List.le_of_mem_argmin (List.mem_filter.mpr ⟨hb, hp⟩) h
  exact Nat.div_le_div_right hle

theorem areaFrom_some (h : s.areaFrom n = some area) : area ∈ s.areas ∧ n ≤ area.lastFrame ∧
    ∀ b ∈ s.areas, n ≤ b.lastFrame → area.startFrame ≤ b.startFrame := by
  obtain ⟨hmem, hlast, hmin⟩ := lowest_some h
  exact ⟨hmem, of_decide_eq_true hlast, fun b hb hle => hmin b hb (decide_eq_true hle)⟩

theorem areaFrom_none (h : s.areaFrom n = none) : ∀ b ∈ s.areas, b.lastFrame < n := by
  rw [areaFrom, List.argmin_eq_none, List.filter_eq_nil_iff] at h
  intro b hb
  have := h b hb
  rw [decide_eq_true_eq] at this
  omega

theorem firstArea_some (h : s.firstArea n = some area) :
    area ∈ s.areas ∧ area.startFrame ≤ area.lastFrame ∧ n ≤ area.lastFrame ∧
      ∀ b ∈ s.areas, b.startFrame ≤ b.lastFrame → n ≤ b.lastFrame → area.startFrame ≤ b.startFrame := by
  obtain ⟨hmem, hproper, hmin⟩ := lowest_some h
  obtain ⟨hstart, hlast⟩ := of_decide_eq_true hproper
  exact ⟨hmem, hstart, hlast, fun b hb hstart hle => hmin b hb (decide_eq_true ⟨hstart, hle⟩)⟩

theorem firstArea_none_iff : s.firstArea n = none ↔
    ∀ b ∈ s.areas, b.startFrame ≤ b.lastFrame → b.lastFrame < n := by
  simp only [firstArea, List.argmin_eq_none, List.filter_eq_nil_iff, decide_eq_true_eq, not_and, Nat.not_le]

/-- An area that was chosen is chosen again as long as it has frames left. -/
theorem areaFrom_again (h : s.areaFrom n = some area) (hnm : n ≤ m) (hm : m ≤ area.lastFrame) :
    s.areaFrom m = some area := by
  unfold areaFrom at h ⊢
  refine argmin_filter (q := fun b => m ≤ b.lastFrame) _ (fun b hb => ?_) (decide_eq_true hm) h
  exact decide_eq_true (Nat.le_trans hnm (of_decide_eq_true hb))

theorem firstArea_of_areaFrom (h : s.areaFrom n = some area) (hstart : area.startFrame ≤ area.lastFrame) :
    s.firstArea n = some area := by
  have hlast := (areaFrom_some h).2.1
  unfold areaFrom at h
  unfold firstArea
  refine argmin_filter (q := fun b => b.startFrame ≤ b.lastFrame ∧ n ≤ b.lastFrame) _ (fun b hb => ?_)
    (decide_eq_true ⟨hstart, hlast⟩) h
  exact decide_eq_true (of_decide_eq_true hb).2

end Choosing

/-! ### The calls -/

section Calls

variable {s : BumpAllocator} {count : Nat} {area : MemoryArea}

/-- The current area was the first when it was chosen, and the next free frame is not before
it. Frames are those of 64-bit addresses. -/
structure Chosen (s : BumpAllocator) : Prop where
  bound : s.nextFreeFrame ≤ 2 ^ 52
  kernel : s.kernelEnd < 2 ^ 52
  area : ∃ n, n ≤ s.nextFreeFrame ∧ s.areaFrom n = s.currentArea
  start : ∀ area, s.currentArea = some area → area.startFrame ≤ s.nextFreeFrame

theorem chooseNextArea_some (h : s.areaFrom s.nextFreeFrame = some area) :
    s.chooseNextArea =
      { s with currentArea := some area, nextFreeFrame := max s.nextFreeFrame area.startFrame } := by
  unfold chooseNextArea
  rw [h]
  dsimp only
  congr 1
  split
  · omega
  · omega

theorem chooseNextArea_none (h : s.areaFrom s.nextFreeFrame = none) :
    s.chooseNextArea = { s with currentArea := none } := by
  unfold chooseNextArea
  rw [h]

theorem chosen_chooseNextArea (hbound : s.nextFreeFrame ≤ 2 ^ 52) (hkernel : s.kernelEnd < 2 ^ 52) :
    s.chooseNextArea.Chosen := by
  cases h : s.areaFrom s.nextFreeFrame with
  | none =>
    rw [chooseNextArea_none h]
    exact ⟨hbound, hkernel, ⟨_, Nat.le_refl _, h⟩, nofun⟩
  | some area =>
    rw [chooseNextArea_some h]
    have hstart := area.startFrame_lt
    refine ⟨Nat.max_le.mpr ⟨hbound, Nat.le_of_lt hstart⟩, hkernel, ⟨_, Nat.le_max_left _ _, h⟩, ?_⟩
    intro area' heq
    cases heq
    exact Nat.le_max_right _ _

theorem chosen_new (kernelStart kernelEnd : UInt64) (memoryAreas : List MemoryArea) :
    (new kernelStart kernelEnd memoryAreas).Chosen := by
  have hword := kernelEnd.toNat_lt
  refine chosen_chooseNextArea (Nat.zero_le _) ?_
  show kernelEnd.toNat / pageSize < 2 ^ 52
  unfold pageSize
  omega

/-- A later frame may become the next free one. -/
theorem Chosen.advance (h : s.Chosen) {m : Nat} (hm : s.nextFreeFrame ≤ m) (hbound : m ≤ 2 ^ 52) :
    Chosen { s with nextFreeFrame := m } := by
  obtain ⟨n, hn, harea⟩ := h.area
  exact ⟨hbound, h.kernel, ⟨n, Nat.le_trans hn hm, harea⟩,
    fun area heq => Nat.le_trans (h.start area heq) hm⟩

/-- The current area is chosen again as long as it has frames left. -/
theorem Chosen.again (h : s.Chosen) (harea : s.currentArea = some area)
    (hlast : s.nextFreeFrame ≤ area.lastFrame) : s.areaFrom s.nextFreeFrame = some area := by
  obtain ⟨n, hn, hfrom⟩ := h.area
  exact areaFrom_again (hfrom.trans harea) hn hlast

theorem allocateFrames_zero (s : BumpAllocator) (fuel : Nat) :
    s.allocateFrames (fuel + 1) 0 = some (none, s) := by
  rw [allocateFrames, if_pos rfl]

/-- The frame behind a block, for a count that can be asked for. -/
theorem Chosen.sum_lt (h : s.Chosen) (hcount : Askable count) :
    s.nextFreeFrame + count < 2 ^ 64 := by
  have hbound := h.bound
  unfold Askable at hcount
  omega

theorem allocateFrames_none (hcount : 0 < count) (harea : s.currentArea = none) (fuel : Nat) :
    s.allocateFrames (fuel + 1) count = some (none, s) := by
  rw [allocateFrames, if_neg (Nat.ne_of_gt hcount), harea]

/-- A block with a frame of the kernel at one of its ends. -/
def Hits (s : BumpAllocator) (frame count : Nat) : Prop :=
  s.InKernel frame ∨ s.InKernel (frame + (count - 1))

section Call

variable (hs : s.Chosen) (hcount : Askable count) (harea : s.currentArea = some area) (fuel : Nat)

include hs hcount harea

/-- One call, in terms of frames that do not wrap. -/
theorem allocateFrames_succ : s.allocateFrames (fuel + 1) count =
    if area.lastFrame < s.nextFreeFrame + (count - 1) then s.chooseNextArea.allocateFrames fuel count
    else if s.InKernel s.nextFreeFrame ∨ s.InKernel (s.nextFreeFrame + (count - 1)) then
      allocateFrames fuel { s with nextFreeFrame := s.kernelEnd + 1 } count
    else some (some s.nextFreeFrame, { s with nextFreeFrame := s.nextFreeFrame + count }) := by
  have hsum := hs.sum_lt hcount
  have hpos := hcount.1
  have hend : (s.nextFreeFrame + (count - 1)) % 2 ^ 64 = s.nextFreeFrame + (count - 1) :=
    Nat.mod_eq_of_lt (by omega)
  rw [allocateFrames, if_neg (Nat.ne_of_gt hpos), harea]
  dsimp only
  rw [hend, Nat.mod_eq_of_lt hsum]

theorem allocateFrames_choose (hlast : area.lastFrame < s.nextFreeFrame + (count - 1)) :
    s.allocateFrames (fuel + 1) count = s.chooseNextArea.allocateFrames fuel count := by
  rw [allocateFrames_succ hs hcount harea, if_pos hlast]

theorem allocateFrames_jump (hlast : s.nextFreeFrame + (count - 1) ≤ area.lastFrame)
    (hhits : s.Hits s.nextFreeFrame count) : s.allocateFrames (fuel + 1) count =
      allocateFrames fuel { s with nextFreeFrame := s.kernelEnd + 1 } count := by
  rw [allocateFrames_succ hs hcount harea, if_neg (Nat.not_lt.mpr hlast)]
  exact if_pos hhits

theorem allocateFrames_found (hlast : s.nextFreeFrame + (count - 1) ≤ area.lastFrame)
    (hhits : ¬ s.Hits s.nextFreeFrame count) : s.allocateFrames (fuel + 1) count =
      some (some s.nextFreeFrame, { s with nextFreeFrame := s.nextFreeFrame + count }) := by
  rw [allocateFrames_succ hs hcount harea, if_neg (Nat.not_lt.mpr hlast)]
  exact if_neg hhits

end Call

/-- `t` is `s` with the first area that has frames from the next free one on. -/
structure Arrived (s t : BumpAllocator) : Prop where
  chosen : t.Chosen
  area : t = { s with currentArea := s.firstArea s.nextFreeFrame, nextFreeFrame := t.nextFreeFrame }
  le : s.nextFreeFrame ≤ t.nextFreeFrame
  start : ∀ area, s.firstArea s.nextFreeFrame = some area → t.nextFreeFrame = max s.nextFreeFrame area.startFrame

/-- An allocator whose area has frames left is there already. -/
theorem Chosen.arrived (hs : s.Chosen)
    (hleft : ∀ area, s.currentArea = some area → s.nextFreeFrame ≤ area.lastFrame) : s.Arrived s := by
  have hfirst : s.firstArea s.nextFreeFrame = s.currentArea := by
    cases harea : s.currentArea with
    | none =>
      obtain ⟨n, hn, hfrom⟩ := hs.area
      exact firstArea_none_iff.mpr fun b hb _ => Nat.lt_of_lt_of_le (areaFrom_none (hfrom.trans harea) b hb) hn
    | some area =>
      have hlast := hleft area harea
      exact firstArea_of_areaFrom (hs.again harea hlast) (Nat.le_trans (hs.start area harea) hlast)
  refine ⟨hs, ?_, Nat.le_refl _, fun area heq => ?_⟩
  · rw [hfirst]
  · exact (Nat.max_eq_left (hs.start area (hfirst.symm.trans heq))).symm

/-- Choosing an area passes over no frame of another. -/
theorem firstArea_chooseNextArea (s : BumpAllocator) :
    s.firstArea s.chooseNextArea.nextFreeFrame = s.firstArea s.nextFreeFrame := by
  cases hfrom : s.areaFrom s.nextFreeFrame with
  | none => rw [chooseNextArea_none hfrom]
  | some area =>
    obtain ⟨-, -, hmin⟩ := areaFrom_some hfrom
    rw [chooseNextArea_some hfrom]
    unfold firstArea
    congr 1
    refine List.filter_congr fun b hb => ?_
    rw [decide_eq_decide]
    constructor
    · rintro ⟨hproper, hb'⟩
      exact ⟨hproper, Nat.le_trans (Nat.le_max_left _ _) hb'⟩
    · rintro ⟨hproper, hb'⟩
      exact ⟨hproper, Nat.max_le.mpr ⟨hb', Nat.le_trans (hmin b hb hb') hproper⟩⟩

theorem le_chooseNextArea (s : BumpAllocator) : s.nextFreeFrame ≤ s.chooseNextArea.nextFreeFrame := by
  cases hfrom : s.areaFrom s.nextFreeFrame with
  | none => rw [chooseNextArea_none hfrom]
  | some area =>
    rw [chooseNextArea_some hfrom]
    exact Nat.le_max_left _ _

/-- It stays within the first area that has frames. -/
theorem max_chooseNextArea (h : s.firstArea s.nextFreeFrame = some area) :
    max s.chooseNextArea.nextFreeFrame area.startFrame = max s.nextFreeFrame area.startFrame := by
  cases hfrom : s.areaFrom s.nextFreeFrame with
  | none => rw [chooseNextArea_none hfrom]
  | some b =>
    obtain ⟨hmem, -, hlast, -⟩ := firstArea_some h
    have hstart := (areaFrom_some hfrom).2.2 area hmem hlast
    rw [chooseNextArea_some hfrom]
    dsimp only
    omega

theorem Arrived.of_choose {t : BumpAllocator} (h : s.chooseNextArea.Arrived t) : s.Arrived t := by
  have hfirst := firstArea_chooseNextArea s
  refine ⟨h.chosen, ?_, Nat.le_trans (le_chooseNextArea s) h.le, fun area heq => ?_⟩
  · rw [← hfirst]
    exact h.area
  · rw [h.start area (hfirst.trans heq), max_chooseNextArea heq]

/-- **The calls get to the first area that has frames left.** -/
theorem arrive (hs : s.Chosen) (hcount : Askable count) : ∃ calls t, s.Arrived t ∧
    ∀ fuel, s.allocateFrames (fuel + calls) count = t.allocateFrames fuel count := by
  -- The next free frame grows, and stays below the end of an area.
  induction hleft : 2 ^ 52 - s.nextFreeFrame using Nat.strong_induction_on generalizing s with
  | _ left ih =>
    by_cases hhere : ∀ area, s.currentArea = some area → s.nextFreeFrame ≤ area.lastFrame
    · exact ⟨0, s, hs.arrived hhere, fun fuel => rfl⟩
    · simp only [not_forall, Nat.not_le] at hhere
      obtain ⟨area, harea, hlast⟩ := hhere
      have hnext : ∀ fuel, s.allocateFrames (fuel + 1) count = s.chooseNextArea.allocateFrames fuel count :=
        fun fuel => allocateFrames_choose hs hcount harea fuel (by omega)
      have hchosen := chosen_chooseNextArea hs.bound hs.kernel
      by_cases hthere : ∀ b, s.chooseNextArea.currentArea = some b → s.chooseNextArea.nextFreeFrame ≤ b.lastFrame
      · exact ⟨1, s.chooseNextArea, (hchosen.arrived hthere).of_choose, hnext⟩
      · -- The area that was chosen ends before it starts, and is left at once.
        simp only [not_forall, Nat.not_le] at hthere
        obtain ⟨b, hb, hlt⟩ := hthere
        obtain ⟨-, hle, -⟩ := areaFrom_some (s := s) (n := s.nextFreeFrame) hb
        have hbound := b.lastFrame_lt
        obtain ⟨calls, t, ht, hcalls⟩ := ih _ (by omega) hchosen rfl
        refine ⟨calls + 1, t, ht.of_choose, fun fuel => ?_⟩
        rw [← Nat.add_assoc, hnext, hcalls]

/-- More fuel changes nothing. -/
theorem allocateFrames_fuel_mono {fuel more : Nat} {r : Option Nat × BumpAllocator}
    (h : s.allocateFrames fuel count = some r) (hle : fuel ≤ more) :
    s.allocateFrames more count = some r := by
  induction fuel generalizing s more with
  | zero => cases h
  | succ fuel ih =>
    cases more with
    | zero => cases hle
    | succ more =>
      have hle := Nat.le_of_succ_le_succ hle
      rw [allocateFrames] at h ⊢
      by_cases hcount : count = 0
      · rw [if_pos hcount] at h ⊢
        exact h
      · rw [if_neg hcount] at h ⊢
        cases harea : s.currentArea with
        | none =>
          rw [harea] at h
          exact h
        | some area =>
          rw [harea] at h
          dsimp only at h ⊢
          split at h
          · next hlast =>
            rw [if_pos hlast]
            exact ih h hle
          · next hlast =>
            rw [if_neg hlast]
            split at h
            · next hhits =>
              rw [if_pos hhits]
              exact ih h hle
            · next hhits =>
              rw [if_neg hhits]
              exact h

theorem allocateFrames_unique {fuel fuel' : Nat} {r r' : Option Nat × BumpAllocator}
    (h : s.allocateFrames fuel count = some r) (h' : s.allocateFrames fuel' count = some r') : r = r' := by
  have hsame := (allocateFrames_fuel_mono h (Nat.le_max_left fuel fuel')).symm.trans
    (allocateFrames_fuel_mono h' (Nat.le_max_right fuel fuel'))
  exact Option.some.inj hsame

/-- **The calls do not end** at an area that has frames left, but not enough. -/
theorem stuck (hs : s.Chosen) (hcount : Askable count) (harea : s.currentArea = some area)
    (hleft : s.nextFreeFrame ≤ area.lastFrame) (hlast : area.lastFrame < s.nextFreeFrame + (count - 1))
    (fuel : Nat) : s.allocateFrames fuel count = none := by
  -- Choosing an area changes nothing.
  have hsame : s.chooseNextArea = s := by
    rw [chooseNextArea_some (hs.again harea hleft), Nat.max_eq_left (hs.start area harea), ← harea]
  induction fuel with
  | zero => rfl
  | succ fuel ih => rw [allocateFrames_choose hs hcount harea fuel hlast, hsame, ih]

/-- The first area with frames from `n` on has `count` of them. -/
def Fits (s : BumpAllocator) (n count : Nat) : Prop :=
  ∀ area, s.firstArea n = some area → max n area.startFrame + (count - 1) ≤ area.lastFrame

theorem allocateFrames_of_none (hs : s.Chosen) (hcount : Askable count)
    (hfirst : s.firstArea s.nextFreeFrame = none) :
    ∃ fuel m, s.nextFreeFrame ≤ m ∧ Chosen { s with currentArea := none, nextFreeFrame := m } ∧
      s.allocateFrames fuel count = some (none, { s with currentArea := none, nextFreeFrame := m }) := by
  obtain ⟨calls, t, ht, hcalls⟩ := arrive hs hcount
  have harea := ht.area
  rw [hfirst] at harea
  have hchosen := ht.chosen
  rw [harea] at hchosen hcalls
  refine ⟨1 + calls, t.nextFreeFrame, ht.le, hchosen, ?_⟩
  rw [hcalls]
  exact allocateFrames_none hcount.1 rfl 0

section First

variable (hs : s.Chosen) (hcount : Askable count) (hfirst : s.firstArea s.nextFreeFrame = some area)

include hs hcount hfirst

theorem arrive_first : ∃ calls,
    Chosen { s with currentArea := some area, nextFreeFrame := max s.nextFreeFrame area.startFrame } ∧
    ∀ fuel, s.allocateFrames (fuel + calls) count = allocateFrames fuel
      { s with currentArea := some area, nextFreeFrame := max s.nextFreeFrame area.startFrame } count := by
  obtain ⟨calls, t, ht, hcalls⟩ := arrive hs hcount
  have harea := ht.area
  rw [hfirst, ht.start area hfirst] at harea
  have hchosen := ht.chosen
  rw [harea] at hchosen hcalls
  exact ⟨calls, hchosen, hcalls⟩

theorem allocateFrames_of_not_fits (hfits : ¬ s.Fits s.nextFreeFrame count) (fuel : Nat) :
    s.allocateFrames fuel count = none := by
  obtain ⟨calls, hchosen, hcalls⟩ := arrive_first hs hcount hfirst
  obtain ⟨-, hproper, hlast, -⟩ := firstArea_some hfirst
  have hshort : area.lastFrame < max s.nextFreeFrame area.startFrame + (count - 1) := by
    by_contra hno
    refine hfits fun area' heq => ?_
    cases hfirst.symm.trans heq
    exact Nat.not_lt.mp hno
  have hstuck := stuck hchosen hcount rfl (Nat.max_le.mpr ⟨hlast, hproper⟩) hshort fuel
  cases h : s.allocateFrames fuel count with
  | none => rfl
  | some r =>
    have hmore := allocateFrames_fuel_mono h (Nat.le_add_right fuel calls)
    rw [hcalls, hstuck] at hmore
    cases hmore

theorem allocateFrames_of_fits (hfits : s.Fits s.nextFreeFrame count)
    (hhits : ¬ s.Hits (max s.nextFreeFrame area.startFrame) count) :
    ∃ fuel, Chosen { s with
        currentArea := some area, nextFreeFrame := max s.nextFreeFrame area.startFrame + count } ∧
      s.allocateFrames fuel count = some (some (max s.nextFreeFrame area.startFrame),
        { s with
          currentArea := some area, nextFreeFrame := max s.nextFreeFrame area.startFrame + count }) := by
  obtain ⟨calls, hchosen, hcalls⟩ := arrive_first hs hcount hfirst
  have hlast := hfits area hfirst
  have hbound := area.lastFrame_lt
  have hpos := hcount.1
  refine ⟨1 + calls, hchosen.advance (Nat.le_add_right _ _) (by omega), ?_⟩
  rw [hcalls]
  exact allocateFrames_found hchosen hcount rfl 0 hlast hhits

theorem allocateFrames_of_hits (hfits : s.Fits s.nextFreeFrame count)
    (hhits : s.Hits (max s.nextFreeFrame area.startFrame) count) :
    ∃ calls, Chosen { s with currentArea := some area, nextFreeFrame := s.kernelEnd + 1 } ∧
    ∀ fuel, s.allocateFrames (fuel + calls) count = allocateFrames fuel
      { s with currentArea := some area, nextFreeFrame := s.kernelEnd + 1 } count := by
  obtain ⟨calls, hchosen, hcalls⟩ := arrive_first hs hcount hfirst
  refine ⟨1 + calls, hchosen.advance ?_ hs.kernel, fun fuel => ?_⟩
  · unfold Hits InKernel at hhits
    dsimp only
    omega
  · rw [← Nat.add_assoc, hcalls]
    exact allocateFrames_jump hchosen hcount rfl fuel (hfits area hfirst) hhits

end First

/-- The block would begin or end in the kernel range. -/
def Jumps (s : BumpAllocator) (count : Nat) : Prop :=
  ∃ area, s.firstArea s.nextFreeFrame = some area ∧ s.Hits (max s.nextFreeFrame area.startFrame) count

/-- What a request returns: nothing, or frames from the first area that has any, from the next
free frame or from the end of the kernel on. -/
inductive Outcome (s : BumpAllocator) (count : Nat) : Option Nat → BumpAllocator → Prop
  | none (m : Nat) (hle : s.nextFreeFrame ≤ m)
      (hnone : s.firstArea s.nextFreeFrame = none ∨ s.Jumps count ∧ s.firstArea (s.kernelEnd + 1) = none) :
      Outcome s count none { s with currentArea := none, nextFreeFrame := m }
  | found (n : Nat) (area : MemoryArea) (hn : n = s.nextFreeFrame ∨ n = s.kernelEnd + 1 ∧ s.Jumps count)
      (hle : s.nextFreeFrame ≤ n) (hfirst : s.firstArea n = some area)
      (hlast : max n area.startFrame + (count - 1) ≤ area.lastFrame)
      (hhits : ¬ s.Hits (max n area.startFrame) count) :
      Outcome s count (some (max n area.startFrame))
        { s with currentArea := some area, nextFreeFrame := max n area.startFrame + count }

/-- A block behind the kernel does not hit it. -/
theorem not_hits_of_lt {frame : Nat} (h : s.kernelEnd < frame) (count : Nat) : ¬ s.Hits frame count := by
  unfold Hits InKernel
  omega

/-- The kernel is jumped over forwards. -/
theorem Jumps.le (h : s.Jumps count) : s.nextFreeFrame ≤ s.kernelEnd + 1 := by
  obtain ⟨area, -, hhits⟩ := h
  unfold Hits InKernel at hhits
  omega

/-- The first area with frames left has enough of them, and again from the end of the kernel on
if the block would begin or end in it. -/
structure Ends (s : BumpAllocator) (count : Nat) : Prop where
  fits : s.Fits s.nextFreeFrame count
  behind : s.Jumps count → s.Fits (s.kernelEnd + 1) count

/-- **What a request comes to.** -/
theorem allocateFrames_cases (hs : s.Chosen) (hcount : Askable count) :
    (¬ s.Ends count ∧ ∀ fuel, s.allocateFrames fuel count = none) ∨
    s.Ends count ∧ ∃ fuel frame s', s.allocateFrames fuel count = some (frame, s') ∧ s'.Chosen ∧
      s.Outcome count frame s' := by
  cases hfirst : s.firstArea s.nextFreeFrame with
  | none =>
    obtain ⟨fuel, m, hle, hchosen, hnone⟩ := allocateFrames_of_none hs hcount hfirst
    refine .inr ⟨⟨fun area heq => ?_, fun ⟨area, heq, _⟩ => ?_⟩, fuel, _, _, hnone, hchosen,
      .none m hle (.inl hfirst)⟩ <;> cases hfirst.symm.trans heq
  | some area =>
    by_cases hfits : s.Fits s.nextFreeFrame count
    · by_cases hhits : s.Hits (max s.nextFreeFrame area.startFrame) count
      · obtain ⟨calls, hjump, hcalls⟩ := allocateFrames_of_hits hs hcount hfirst hfits hhits
        have hjumps : s.Jumps count := ⟨area, hfirst, hhits⟩
        -- From the end of the kernel on, the same again, without the kernel.
        cases hsecond : s.firstArea (s.kernelEnd + 1) with
        | none =>
          obtain ⟨fuel, m, hle, hchosen, hnone⟩ := allocateFrames_of_none hjump hcount hsecond
          refine .inr ⟨⟨hfits, fun _ b heq => ?_⟩, fuel + calls, _, _, (hcalls fuel).trans hnone, hchosen,
            .none m (Nat.le_trans hjumps.le hle) (.inr ⟨hjumps, hsecond⟩)⟩
          cases hsecond.symm.trans heq
        | some b =>
          by_cases hfits' : s.Fits (s.kernelEnd + 1) count
          · have hclear : ¬ s.Hits (max (s.kernelEnd + 1) b.startFrame) count := not_hits_of_lt (by omega) count
            obtain ⟨fuel, hchosen, hfound⟩ := allocateFrames_of_fits hjump hcount hsecond hfits' hclear
            exact .inr ⟨⟨hfits, fun _ => hfits'⟩, fuel + calls, _, _, (hcalls fuel).trans hfound, hchosen,
              .found (s.kernelEnd + 1) b (.inr ⟨rfl, hjumps⟩) hjumps.le hsecond (hfits' b hsecond) hclear⟩
          · refine .inl ⟨fun hends => hfits' (hends.behind hjumps), fun fuel => ?_⟩
            by_contra hsome
            obtain ⟨r, hr⟩ := Option.ne_none_iff_exists'.mp hsome
            have hmore := allocateFrames_fuel_mono hr (Nat.le_add_right fuel calls)
            rw [hcalls, allocateFrames_of_not_fits hjump hcount hsecond hfits'] at hmore
            cases hmore
      · obtain ⟨fuel, hchosen, hfound⟩ := allocateFrames_of_fits hs hcount hfirst hfits hhits
        refine .inr ⟨⟨hfits, fun ⟨area', heq, hhits'⟩ => ?_⟩, fuel, _, _, hfound, hchosen,
          .found s.nextFreeFrame area (.inl rfl) (Nat.le_refl _) hfirst (hfits area hfirst) hhits⟩
        cases hfirst.symm.trans heq
        exact absurd hhits' hhits
    · exact .inl ⟨fun hends => hfits hends.fits, allocateFrames_of_not_fits hs hcount hfirst hfits⟩

/-- What a request that returns comes to. -/
theorem allocateFrames_outcome (hs : s.Chosen) (hcount : Askable count) {fuel : Nat} {frame : Option Nat}
    {s' : BumpAllocator} (h : s.allocateFrames fuel count = some (frame, s')) :
    s.Ends count ∧ s'.Chosen ∧ s.Outcome count frame s' := by
  rcases allocateFrames_cases hs hcount with ⟨-, hnone⟩ | ⟨hends, fuel', frame', s'', hsome, houtcome⟩
  · cases (hnone fuel).symm.trans h
  · cases allocateFrames_unique h hsome
    exact ⟨hends, houtcome⟩

theorem chosen_of_step {s' : BumpAllocator} (hs : s.Chosen) (h : Step s s') : s'.Chosen := by
  obtain ⟨fuel, count, frame, hword, h⟩ := h
  rcases Nat.eq_zero_or_pos count with rfl | hpos
  · cases fuel with
    | zero => cases h
    | succ fuel =>
      cases (allocateFrames_zero s fuel).symm.trans h
      exact hs
  · exact (allocateFrames_outcome hs ⟨hpos, hword⟩ h).2.1

end Calls

/-! ### Termination -/

section Termination

variable {s : BumpAllocator} {count : Nat}

/-- Some area has `count` frames in a row, at or behind the next free one and outside of the
kernel range. -/
def HasRoom (s : BumpAllocator) (count : Nat) : Prop :=
  0 < count ∧ ∃ area ∈ s.areas, ∃ frame, s.nextFreeFrame ≤ frame ∧
    ∀ x, frame ≤ x → x < frame + count → x ∈ area.frames ∧ ¬ s.InKernel x

/-- The block reaches over the whole kernel. -/
def Spans (s : BumpAllocator) (frame count : Nat) : Prop :=
  frame < s.kernelStart ∧ s.kernelStart ≤ s.kernelEnd ∧ s.kernelEnd < frame + (count - 1)

/-- What is asked of an allocator for a request: the first area with frames left has enough of
them, and again from the end of the kernel on if the block would begin or end in it; and if
the block reaches over the kernel there is another place for it. -/
structure Answers (s : BumpAllocator) (count : Nat) : Prop extends Ends s count where
  spans : ∀ area, s.firstArea s.nextFreeFrame = some area →
    s.Spans (max s.nextFreeFrame area.startFrame) count → s.HasRoom count

/-- An area with room is behind the first one. -/
theorem HasRoom.elim (h : s.HasRoom count) : ∃ area ∈ s.areas, ∃ frame, s.nextFreeFrame ≤ frame ∧
    area.startFrame ≤ frame ∧ frame + (count - 1) ≤ area.lastFrame ∧
    ∀ x, frame ≤ x → x ≤ frame + (count - 1) → ¬ s.InKernel x := by
  obtain ⟨hcount, area, hmem, frame, hle, hall⟩ := h
  have hfirst := MemoryArea.mem_frames.mp (hall frame (Nat.le_refl _) (by omega)).1
  have hlast := MemoryArea.mem_frames.mp (hall (frame + (count - 1)) (by omega) (by omega)).1
  exact ⟨area, hmem, frame, hle, hfirst.1, hlast.2, fun x hx hx' => (hall x hx (by omega)).2⟩

/-- A place that neither hits the kernel nor reaches over it. -/
theorem hasRoom_of_first (hcount : 0 < count) {n : Nat} {area : MemoryArea} (hn : s.nextFreeFrame ≤ n)
    (hfirst : s.firstArea n = some area) (hlast : max n area.startFrame + (count - 1) ≤ area.lastFrame)
    (hhits : ¬ s.Hits (max n area.startFrame) count) (hspans : ¬ s.Spans (max n area.startFrame) count) :
    s.HasRoom count := by
  refine ⟨hcount, area, (firstArea_some hfirst).1, max n area.startFrame, by omega, fun x hx hx' => ?_⟩
  rw [MemoryArea.mem_frames]
  unfold Hits InKernel at hhits
  unfold Spans at hspans
  unfold InKernel
  omega

/-- There is no room where no area has frames left. -/
theorem not_hasRoom_of_none (h : s.firstArea s.nextFreeFrame = none) : ¬ s.HasRoom count := by
  intro hroom
  obtain ⟨area, hmem, frame, hle, hstart, hlast, -⟩ := hroom.elim
  have := firstArea_none_iff.mp h area hmem (by omega)
  omega

/-- There is no room if the first place is in the kernel, and nothing is behind it. -/
theorem not_hasRoom_of_jumps (hjumps : s.Jumps count) (h : s.firstArea (s.kernelEnd + 1) = none) :
    ¬ s.HasRoom count := by
  intro hroom
  obtain ⟨first, hfirst, hhits⟩ := hjumps
  obtain ⟨area, hmem, frame, hle, hstart, hlast, hclear⟩ := hroom.elim
  have hbefore := firstArea_none_iff.mp h area hmem (by omega)
  have hmin := (firstArea_some hfirst).2.2.2 area hmem (by omega) (by omega)
  have hbegin := hclear frame (Nat.le_refl _) (by omega)
  have hend := hclear (frame + (count - 1)) (by omega) (Nat.le_refl _)
  unfold Hits InKernel at hhits
  unfold InKernel at hbegin hend
  omega

/-- The request returns, and returns nothing exactly if there is no room. -/
def Answered (s : BumpAllocator) (count : Nat) : Prop :=
  ∃ fuel frame s', s.allocateFrames fuel count = some (frame, s') ∧ (frame = none ↔ ¬ s.HasRoom count)

theorem Answers.answered (hs : s.Chosen) (hcount : Askable count) (h : s.Answers count) : s.Answered count := by
  obtain ⟨-, fuel, frame, s', hresult, -, houtcome⟩ :=
    (allocateFrames_cases hs hcount).resolve_left fun hno => hno.1 h.toEnds
  refine ⟨fuel, frame, s', hresult, ?_⟩
  cases houtcome with
  | none m hle hnone =>
    refine iff_of_true rfl ?_
    rcases hnone with hfirst | ⟨hjumps, hsecond⟩
    · exact not_hasRoom_of_none hfirst
    · exact not_hasRoom_of_jumps hjumps hsecond
  | found n area hn hle hfirst hlast hhits =>
    refine iff_of_false (by simp) (not_not.mpr ?_)
    by_cases hspans : s.Spans (max n area.startFrame) count
    · rcases hn with rfl | ⟨rfl, -⟩
      · exact h.spans area hfirst hspans
      · unfold Spans at hspans
        omega
    · exact hasRoom_of_first hcount.1 hle hfirst hlast hhits hspans

theorem Answered.answers (hs : s.Chosen) (hcount : Askable count) (h : s.Answered count) : s.Answers count := by
  obtain ⟨fuel, frame, s', hresult, hanswer⟩ := h
  have hends := (allocateFrames_outcome hs hcount hresult).1
  refine ⟨hends, ?_⟩
  intro area hfirst hspans
  have hclear : ¬ s.Hits (max s.nextFreeFrame area.startFrame) count := by
    unfold Spans at hspans
    unfold Hits InKernel
    omega
  obtain ⟨fuel', -, hfound⟩ := allocateFrames_of_fits hs hcount hfirst hends.fits hclear
  cases allocateFrames_unique hresult hfound
  by_contra hno
  exact absurd (hanswer.mpr hno) (by simp)

/-- **When a request is answered.** In every state that requests lead to, for every count below
`2^63`: `allocate_frames` returns, and returns nothing exactly if there is no room, if and only
if nothing is asked for or the allocator answers. -/
theorem allocateFrames_returns_iff {kernelStart kernelEnd : UInt64} {memoryMap : List MemoryArea}
    (run : Relation.ReflTransGen Step
      (new kernelStart kernelEnd (memoryAreaIter memoryAreaFree memoryMap)) s)
    (hword : count < 2 ^ 63) : s.Answered count ↔ (0 < count → s.Answers count) := by
  have hs : s.Chosen :=
    invariant_of_step Chosen run (chosen_new _ _ _) fun _ _ h hstep => chosen_of_step h hstep
  rcases Nat.eq_zero_or_pos count with rfl | hpos
  · refine iff_of_true ⟨1, none, s, allocateFrames_zero s 0, iff_of_true rfl ?_⟩ nofun
    exact fun hroom => Nat.lt_irrefl 0 hroom.1
  · exact ⟨fun h _ => h.answers hs ⟨hpos, hword⟩, fun h => (h hpos).answered hs ⟨hpos, hword⟩⟩

/-- Sixteen frames from 1 MiB on, two of which the kernel has. -/
theorem frames_behind_kernel :
    (new 0x100000 0x101000 (memoryAreaIter memoryAreaFree [⟨0x100000, 0x10000, 1⟩])).Answered 3 := by
  have hfirst : (new 0x100000 0x101000 (memoryAreaIter memoryAreaFree [⟨0x100000, 0x10000, 1⟩])).firstArea 0x100 =
      some ⟨0x100000, 0x10000, 1⟩ := by decide +kernel
  have hsecond : (new 0x100000 0x101000 (memoryAreaIter memoryAreaFree [⟨0x100000, 0x10000, 1⟩])).firstArea 0x102 =
      some ⟨0x100000, 0x10000, 1⟩ := by decide +kernel
  refine (allocateFrames_returns_iff .refl (by decide)).mpr fun _ => ⟨⟨?_, fun _ => ?_⟩, ?_⟩
  · intro area heq
    cases hfirst.symm.trans heq
    decide +kernel
  · intro area heq
    cases hsecond.symm.trans heq
    decide +kernel
  · intro area heq hspans
    have hstart : (0x100 : Nat) < 0x100 := lt_of_le_of_lt (Nat.le_max_left _ _) hspans.1
    exact absurd hstart (by decide)

/-- **A request that never returns**: two frames from an area of one. -/
theorem short_area_never_returns :
    (new 0 0x1000 (memoryAreaIter memoryAreaFree [⟨0x100000, 0x1000, 1⟩])).currentArea =
        some ⟨0x100000, 0x1000, 1⟩ ∧
      ∀ fuel, (new 0 0x1000 (memoryAreaIter memoryAreaFree [⟨0x100000, 0x1000, 1⟩])).allocateFrames fuel 2 =
        none := by
  have harea : (new 0 0x1000 (memoryAreaIter memoryAreaFree [⟨0x100000, 0x1000, 1⟩])).currentArea =
      some ⟨0x100000, 0x1000, 1⟩ := by decide +kernel
  exact ⟨harea, stuck (chosen_new _ _ _) ⟨by decide, by decide⟩ harea (by decide +kernel) (by decide +kernel)⟩

end Termination

end BumpAllocator

end Faastr.Memory
