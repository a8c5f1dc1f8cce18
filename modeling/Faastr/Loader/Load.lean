import Faastr.Loader.Elf
import Faastr.Spaces.Arena

/-!
Loading a module from the bytes of a file (`kernel/src/context/load.rs`).

`load` reads the file as `Faastr.Loader.Elf` does, and fills the memory of each loadable segment
as `Faastr.Spaces.Load` does. It trusts what the file says: only the start of a segment is
compared with the end of the space for images.

* `loadSegment_run`: what comes of a segment that has all its bytes in the file (`Fills`).
* `loadSegment_fills`: no other segment is loaded.
* `load_safe_iff`: the bytes that `load` is safe for.
-/

namespace Faastr.Loader

open Faastr.Lib Faastr.Memory Faastr.Spaces
open Faastr.Paging (EntryFlags)

/-! ### The code -/

/-- A loadable segment that begins behind the space for images. -/
def above (segment : ProgramHeader) : Bool :=
  decide (segment.pType = ptLoad ∧ userArgOffset ≤ segment.vaddr.toNat)

/-- The first loop of `load`: whether it returns an error. -/
def segmentsAbove (data : List UInt8) (header : Header) : List Nat → Code Bool
  | [] => return false
  | i :: is => do
      let segment ← segmentAt data header i
      if above segment then return true else segmentsAbove data header is

/-- `load_manifest`; `decode` is `from_slice`. -/
def loadManifest (decode : List UInt8 → Option Manifest) (elf : ElfFile) :
    Code (Except String Manifest) := do
  let some bytes ← elf.sectionDataByName elf.header.sections
    | return .error "Manifest section not found"
  match decode bytes with
  | some manifest => return .ok manifest
  | none => return .error "Failed to decode manifest"

/-- The file, with everything that it says. -/
def ElfFile.toElf (elf : ElfFile) (manifest : Except String Manifest) : Elf where
  data := elf.data
  segments := elf.header.segments.map (programHeader elf.data elf.header)
  manifest

/-- The sums for a segment: its size, the size that is rounded, and where its bytes end. -/
def noteSizes (segment : ProgramHeader) : Code Unit := do
  note (segment.pMemsz.toNat + segment.voff.toNat)
  note (segment.size.toNat + 4095)
  note (segment.pOffset.toNat + segment.pFilesz.toNat)

/-- The second loop of `load`. -/
def loadSegments (elf : ElfFile) (manifest : Manifest) : List Nat → Code (List ContextMemory)
  | [] => return []
  | i :: is => do
      let segment ← segmentAt elf.data elf.header i
      if segment.pType ≠ ptLoad then loadSegments elf manifest is
      else
        noteSizes segment
        let memory ← ofKernel (loadSegment (elf.toElf (.ok manifest)) segment)
        return memory :: (← loadSegments elf manifest is)

/-- `load`, when the file is parsed. -/
def loadFile (decode : List UInt8 → Option Manifest) (elf : ElfFile) :
    Code (Except String LoadedModule) := do
  if ← segmentsAbove elf.data elf.header elf.header.segments then
    return .error "Binary requested to load code above permitted vaddr"
  match ← loadManifest decode elf with
  | .error e => return .error e
  | .ok manifest =>
      let image ← loadSegments elf manifest elf.header.segments
      return .ok { name := manifest.moduleName, funcTable := manifest.funcTable, image }

def load (decode : List UInt8 → Option Manifest) (data : List UInt8) :
    Code (Except String LoadedModule) := do
  match ← ElfFile.ofBytes data with
  | .error _ => return .error "Failed to parse elf"
  | .ok elf => loadFile decode elf

/-! ### One segment -/

/-- The segment has some bytes of memory, and all of them are in the file. -/
@[mk_iff]
structure Fills (data : List UInt8) (segment : ProgramHeader) : Prop where
  some : 0 < segment.pVaddr.toNat % pageSize + segment.pMemsz.toNat
  whole : segment.pFilesz = segment.pMemsz
  inFile : segment.pOffset.toNat + segment.pFilesz.toNat ≤ data.length

instance (data : List UInt8) (segment : ProgramHeader) : Decidable (Fills data segment) :=
  decidable_of_iff' _ (fills_iff data segment)

/-- The pages that cover a segment. -/
def pagesOver (segment : ProgramHeader) : Nat :=
  (segment.pVaddr.toNat % pageSize + segment.pMemsz.toNat + (pageSize - 1)) / pageSize

/-- The bytes of a segment, from the start of its first page on. -/
def imageByte (data : List UInt8) (segment : ProgramHeader) (i : Nat) : UInt8 :=
  let voff := segment.pVaddr.toNat % pageSize
  if i < voff then 0
  else if i - voff < segment.pFilesz.toNat then data.getD (segment.pOffset.toNat + (i - voff)) 0
  else 0

section Sizes

variable {segment : ProgramHeader}

theorem voff_eq (segment : ProgramHeader) :
    segment.voff.toNat = segment.pVaddr.toNat % pageSize := UInt64.toNat_mod ..

theorem size_eq (segment : ProgramHeader) : segment.size.toNat =
    (segment.pMemsz.toNat + segment.pVaddr.toNat % pageSize) % 2 ^ 64 := by
  rw [ProgramHeader.size, UInt64.toNat_add, voff_eq]

theorem numPages_eq (segment : ProgramHeader) :
    segment.numPages.toNat = (segment.size.toNat + 4095) % 2 ^ 64 / pageSize := by
  have hmask : (~~~(4095 : UInt64)).toNat = 2 ^ 64 - pageSize := by decide
  rw [ProgramHeader.numPages, UInt64.toNat_div, UInt64.toNat_and, hmask, UInt64.toNat_add]
  show ((segment.size.toNat + 4095) % 2 ^ 64 &&& _) / pageSize = _
  rw [and_pages (Nat.mod_lt _ (by decide)), Nat.mul_div_cancel _ (by decide)]

variable {data : List UInt8}

theorem Fills.size (h : Fills data segment) (hlen : data.length < 2 ^ 63) : segment.size.toNat =
    segment.pVaddr.toNat % pageSize + segment.pMemsz.toNat := by
  have hle := h.inFile
  rw [h.whole] at hle
  have hmod : segment.pVaddr.toNat % pageSize < pageSize := Nat.mod_lt _ (by decide)
  rw [size_eq, Nat.add_comm, Nat.mod_eq_of_lt]
  simp only [pageSize] at hmod ⊢
  omega

theorem Fills.numPages (h : Fills data segment) (hlen : data.length < 2 ^ 63) :
    segment.numPages.toNat = pagesOver segment := by
  have hle := h.inFile
  rw [h.whole] at hle
  have hmod : segment.pVaddr.toNat % pageSize < pageSize := Nat.mod_lt _ (by decide)
  rw [numPages_eq, h.size hlen, pagesOver]
  simp only [pageSize] at hmod ⊢
  rw [Nat.mod_eq_of_lt (by omega)]

/-- There are no more pages than it takes to cover the segment. -/
theorem pagesOver_le_iff {n : Nat} : pagesOver segment ≤ n ↔
    segment.pVaddr.toNat % pageSize + segment.pMemsz.toNat ≤ n * pageSize := by
  rw [pagesOver]
  simp only [pageSize]
  omega

theorem Fills.pagesOver_pos (h : Fills data segment) : 0 < pagesOver segment := by
  have hsome := h.some
  by_contra hzero
  have hle := pagesOver_le_iff.mp (Nat.le_of_not_lt hzero)
  omega

end Sizes

/-- How a segment is mapped in the kernel while it is filled. -/
def fillFlags : EntryFlags := EntryFlags.writable.union .noExecute

/-- The memory of a segment. -/
def segmentMemory (segment : ProgramHeader) (frame start : Nat) : ContextMemory where
  vallocMapping := some ⟨⟨start, pagesOver segment⟩, fillFlags, ⟨frame, pagesOver segment⟩⟩
  contextAddress := segment.vaddr.toNat
  contextMapped := false
  frames := ⟨frame, pagesOver segment⟩
  flags := segmentFlags segment.pFlags
  shared := false

/-- Physical memory with a segment in its frames. -/
def withSegment (data : List UInt8) (segment : ProgramHeader) (frame : Nat) (memory : Nat → UInt8) :
    Nat → UInt8 := fun a =>
  if frame * pageSize ≤ a ∧ a < frame * pageSize + pagesOver segment * pageSize then
    imageByte data segment (a - frame * pageSize)
  else memory a

/-- Where a block goes that is mapped in the kernel: its frames, its pages, and what is left when
the tables on the way to the pages have their frames. -/
def Places (table : Nat) (p : Pool) (a : Allocator) (n frame start : Nat) (pages : Allocator)
    (pool : Pool) : Prop :=
  ∃ frames, p.frames.allocate n = some (frame, frames) ∧ a.allocate n = some (start, pages) ∧
    Pool.createAll { p with frames } (paths table start n) = some pool

/-- Where a segment goes. -/
def PlacesSegment (s : System) (segment : ProgramHeader) : Nat → Nat → Allocator → Pool → Prop :=
  Places s.recursive s.toPool s.pages (pagesOver segment)

/-- The kernel with a segment loaded. -/
def loaded (s : System) (data : List UInt8) (segment : ProgramHeader) (frame start : Nat)
    (pages : Allocator) (pool : Pool) : System :=
  { s with
    toPool := pool
    pages
    kernel := block start frame (pagesOver segment) fillFlags s.kernel
    memory := withSegment data segment frame s.memory }

section Segment

variable {s : System} {elf : Elf} {segment : ProgramHeader}

/-- The three loops that fill the memory. -/
theorem filled_eq (v : VallocMapping) (hv : v.frames.count = pagesOver segment)
    (h : Fills elf.data segment) (memory : Nat → UInt8) {bytes : List UInt8}
    (hbytes : bytes = cut elf.data segment.pOffset.toNat (segment.pOffset.toNat + segment.pFilesz.toNat)) :
    v.filled (v.filled (v.filled memory 0 (segment.pVaddr.toNat % pageSize) fun _ => 0)
        (segment.pVaddr.toNat % pageSize) bytes.length (fun i => bytes.getD i 0))
      (segment.pVaddr.toNat % pageSize + segment.pMemsz.toNat)
      (v.len - (segment.pVaddr.toNat % pageSize + segment.pMemsz.toNat)) (fun _ => 0) =
    withSegment elf.data segment v.frames.start memory := by
  have hlength : bytes.length = segment.pMemsz.toNat := by
    rw [hbytes, length_cut h.inFile, h.whole]
    omega
  have hcovers := pagesOver_le_iff.mp (Nat.le_refl (pagesOver segment))
  funext a
  rw [VallocMapping.len, hv]
  simp only [VallocMapping.filled, withSegment, imageByte, hlength, h.whole, Nat.add_zero]
  set voff := segment.pVaddr.toNat % pageSize
  set base := v.frames.start * pageSize
  set total := pagesOver segment * pageSize
  by_cases hin : base ≤ a ∧ a < base + total
  · obtain ⟨i, rfl⟩ := Nat.exists_eq_add_of_le hin.1
    rw [if_pos hin, Nat.add_sub_cancel_left]
    by_cases hhead : i < voff
    · rw [if_neg (by omega), if_neg (by omega), if_pos (by omega), if_pos hhead]
    · by_cases hbody : i - voff < segment.pMemsz.toNat
      · rw [if_neg (by omega), if_pos (by omega), if_neg hhead, if_pos hbody, hbytes]
        rw [List.getD_eq_getElem?_getD, List.getD_eq_getElem?_getD, getElem?_cut (by rw [h.whole]; omega)]
        congr 2
        omega
      · rw [if_pos (by omega), if_neg hhead, if_neg hbody]
  · rw [if_neg hin, if_neg (by omega), if_neg (by omega), if_neg (by omega)]

theorem check_run {c : Bool} {panic : Panic} (h : c = true) : (check c panic).run s = .ok ((), s) := by
  rw [h]
  rfl

theorem fill_run {v : VallocMapping} {lo len : Nat} {byte : Nat → UInt8} : (v.fill lo len byte).run s =
    .ok ((), { s with memory := v.filled s.memory lo len byte }) := rfl

theorem asSliceMut_run {frame start : Nat} : (segmentMemory segment frame start).asSliceMut.run s =
    .ok (⟨⟨start, pagesOver segment⟩, fillFlags, ⟨frame, pagesOver segment⟩⟩, s) := by
  have hwritable : fillFlags.contains .writable = true := by decide
  rw [ContextMemory.asSliceMut]
  refine (run_bind rfl).trans ((run_bind (check_run rfl)).trans ?_)
  exact run_bind (check_run hwritable)

/-- The memory of a segment, before it is mapped in the kernel. -/
def unmappedMemory (segment : ProgramHeader) (frame : Nat) : ContextMemory where
  vallocMapping := none
  contextAddress := segment.vaddr.toNat
  contextMapped := false
  frames := ⟨frame, pagesOver segment⟩
  flags := segmentFlags segment.pFlags
  shared := false

theorem new_run (h : Fills elf.data segment) (hlen : elf.data.length < 2 ^ 63) {frame : Nat}
    {frames : Allocator} (hframes : s.frames.allocate (pagesOver segment) = some (frame, frames)) :
    (ContextMemory.new segment.numPages.toNat segment.vaddr.toNat (segmentFlags segment.pFlags)).run s =
      .ok (some (unmappedMemory segment frame), { s with frames }) := by
  have hcount : (pagesOver segment != 0) = true := bne_iff_ne.mpr h.pagesOver_pos.ne'
  have hrun := @Frames.new_run s (pagesOver segment)
  rw [hframes] at hrun
  rw [h.numPages hlen, ContextMemory.new, run_bind (check_run hcount), run_bind hrun]
  rfl

/-- **A segment with all its bytes in the file is loaded**, when there is memory for it. -/
theorem loadSegment_run (hvacant : Vacant s) (hlen : elf.data.length < 2 ^ 63)
    (h : Fills elf.data segment) {frame start : Nat} {pages : Allocator} {pool : Pool}
    (hplaces : PlacesSegment s segment frame start pages pool) :
    (loadSegment elf segment).run s = .ok (segmentMemory segment frame start,
      loaded s elf.data segment frame start pages pool) := by
  obtain ⟨frames, hframes, hpages, htables⟩ := hplaces
  have hpos := h.pagesOver_pos
  have hfile := h.inFile
  have hcovers := pagesOver_le_iff.mp (Nat.le_refl (pagesOver segment))
  have hnew := new_run h hlen hframes
  have hmapping := @VallocMapping.new_run { s with frames } fillFlags ⟨frame, pagesOver segment⟩ hvacant hpos
  dsimp only at hmapping
  rw [hpages] at hmapping
  dsimp only at hmapping
  rw [htables] at hmapping
  have hmap : ((unmappedMemory segment frame).mapToKernel fillFlags).run { s with frames } =
      .ok ((segmentMemory segment frame start, some (start * pageSize)), { s with
          toPool := pool
          pages
          kernel := block start frame (pagesOver segment) fillFlags s.kernel }) := run_bind hmapping
  have hvoff := voff_eq segment
  have hsize := h.size hlen
  have hwhole := congrArg UInt64.toNat h.whole
  have hoffset : (segment.pOffset + segment.pFilesz).toNat =
      segment.pOffset.toNat + segment.pFilesz.toNat := by
    rw [UInt64.toNat_add, Nat.mod_eq_of_lt (by omega)]
  have hle : segment.voff ≤ segment.size := by
    rw [UInt64.le_iff_toNat_le, hvoff, hsize]
    exact Nat.le_add_right ..
  rw [loadSegment, run_bind hnew]
  refine (run_bind (show (expect _ _).run _ = .ok (_, _) from rfl)).trans ?_
  refine (run_bind hmap).trans ?_
  refine (run_bind asSliceMut_run).trans ?_
  refine (run_bind fill_run).trans ?_
  have hroom : (decide (segment.voff ≤ segment.size) &&
      decide (segment.size.toNat ≤ pagesOver segment * pageSize)) = true := by
    rw [decide_eq_true hle, decide_eq_true (by omega)]
    rfl
  refine (run_bind (check_run hroom)).trans ?_
  have hslice : ∀ s₁, (elf.slice segment.pOffset.toNat (segment.pOffset + segment.pFilesz).toNat).run s₁ =
      .ok (cut elf.data segment.pOffset.toNat (segment.pOffset.toNat + segment.pFilesz.toNat), s₁) := by
    intro s₁
    have hin : (decide (segment.pOffset.toNat ≤ (segment.pOffset + segment.pFilesz).toNat) &&
        decide ((segment.pOffset + segment.pFilesz).toNat ≤ elf.data.length)) = true := by
      rw [decide_eq_true (by omega), decide_eq_true (by omega)]
      rfl
    rw [Elf.slice, run_bind (check_run hin), hoffset]
    rfl
  refine (run_bind (hslice _)).trans ?_
  have hcopy : ((segment.size - segment.voff).toNat == (cut elf.data segment.pOffset.toNat
      (segment.pOffset.toNat + segment.pFilesz.toNat)).length) = true := by
    rw [beq_iff_eq, UInt64.toNat_sub_of_le _ _ hle, length_cut h.inFile]
    omega
  refine (run_bind (check_run hcopy)).trans ?_
  refine (run_bind fill_run).trans ((run_bind fill_run).trans ?_)
  have hfilled := filled_eq ⟨⟨start, pagesOver segment⟩, fillFlags, ⟨frame, pagesOver segment⟩⟩ rfl h s.memory
    rfl
  rw [← hsize, ← hvoff] at hfilled
  exact congrArg (fun memory => Except.ok (segmentMemory segment frame start,
    { loaded s elf.data segment frame start pages pool with memory })) hfilled

theorem new_positive {count address : Nat} {flags : EntryFlags} :
    Ensures (ContextMemory.new count address flags) s fun _ _ => count ≠ 0 := by
  refine .bind (ensures_check fun hcount => Ensures.mono .any fun _ _ _ => ?_)
  exact bne_iff_ne.mp hcount

/-- **No other segment is loaded.** -/
theorem loadSegment_fills : Ensures (loadSegment elf segment) s fun _ _ => Fills elf.data segment := by
  refine .seq new_positive fun o s₁ hcount => .bind (ensures_orPanic fun m _ => ?_)
  refine .seq .any fun r s₂ _ => .seq .any fun pagesMem s₃ _ => .seq .any fun _ s₄ _ => ?_
  refine .bind (ensures_check fun hroom => .bind (.bind (ensures_check fun hslice => .pure ?_)))
  refine .bind (ensures_check fun hcopy => Ensures.mono .any fun _ _ _ => ?_)
  obtain ⟨hle, -⟩ := Bool.and_eq_true_iff.mp hroom
  obtain ⟨hstart, hend⟩ := Bool.and_eq_true_iff.mp hslice
  have hle := of_decide_eq_true hle
  have hstart := of_decide_eq_true hstart
  have hend := of_decide_eq_true hend
  have hcopy := beq_iff_eq.mp hcopy
  have hvoff := voff_eq segment
  have hsize := size_eq segment
  have hpages := numPages_eq segment
  rw [UInt64.toNat_sub_of_le _ _ hle, List.length_take, List.length_drop] at hcopy
  rw [UInt64.le_iff_toNat_le, hvoff] at hle
  rw [UInt64.toNat_add] at hstart hend hcopy
  have hmemsz := segment.pMemsz.toNat_lt
  have hfilesz := segment.pFilesz.toNat_lt
  have hoffset := segment.pOffset.toNat_lt
  have hmod : segment.pVaddr.toNat % pageSize < pageSize := Nat.mod_lt _ (by decide)
  -- A sum that wraps is smaller than what is added to.
  simp only [pageSize] at *
  refine ⟨?_, ?_, ?_⟩
  · simp only [pageSize]
    by_contra hzero
    apply hcount
    rw [hpages, hsize]
    omega
  · apply UInt64.toNat_inj.mp
    omega
  · omega

/-- A segment is not loaded without frames and kernel pages for it, and frames for its tables. -/
theorem loadSegment_affords (hvacant : Vacant s) (hlen : elf.data.length < 2 ^ 63) :
    Ensures (loadSegment elf segment) s fun _ _ =>
      ∃ frame start pages pool, PlacesSegment s segment frame start pages pool := by
  intro m s' hrun
  have h : Fills elf.data segment := loadSegment_fills m s' hrun
  cases hframes : s.frames.allocate (pagesOver segment) with
  | none =>
    have hcount : (pagesOver segment != 0) = true := bne_iff_ne.mpr h.pagesOver_pos.ne'
    have hnone := @Frames.new_run s (pagesOver segment)
    rw [hframes] at hnone
    have hnew : (ContextMemory.new segment.numPages.toNat segment.vaddr.toNat
        (segmentFlags segment.pFlags)).run s = .ok (none, s) := by
      rw [h.numPages hlen, ContextMemory.new, run_bind (check_run hcount), run_bind hnone]
      rfl
    rw [loadSegment, run_bind hnew] at hrun
    cases hrun
  | some p =>
    rw [loadSegment, run_bind (new_run h hlen hframes)] at hrun
    have hrest := (run_bind (show (expect _ _).run _ = .ok (_, _) from rfl)).symm.trans hrun
    have hmapping := @VallocMapping.new_run { s with frames := p.2 } fillFlags
      ⟨p.1, pagesOver segment⟩ hvacant h.pagesOver_pos
    dsimp only at hmapping
    cases hpages : s.pages.allocate (pagesOver segment) with
    | none =>
      rw [hpages] at hmapping
      have hmap : ((unmappedMemory segment p.1).mapToKernel fillFlags).run { s with frames := p.2 } =
          .ok ((unmappedMemory segment p.1, none), { s with frames := p.2 }) := run_bind hmapping
      have hslice := (run_bind hmap).symm.trans hrest
      cases hslice
    | some q =>
      rw [hpages] at hmapping
      dsimp only at hmapping
      cases htables : Pool.createAll { s.toPool with frames := p.2 }
          (paths s.recursive q.1 (pagesOver segment)) with
      | none =>
        rw [htables] at hmapping
        have hmap : ((unmappedMemory segment p.1).mapToKernel fillFlags).run { s with frames := p.2 } =
            .error noFrames := run_bind_error hmapping
        cases (run_bind_error hmap).symm.trans hrest
      | some pool => exact ⟨p.1, q.1, q.2, pool, p.2, hframes, hpages, htables⟩

/-- Whether a segment is loaded. -/
theorem loadSegment_decided (hvacant : Vacant s) (hlen : elf.data.length < 2 ^ 63) :
    Decided (fun _ => True) (loadSegment elf segment) s
      (Fills elf.data segment ∧ ∃ frame start pages pool, PlacesSegment s segment frame start pages pool)
      (fun m s' => ∃ frame start pages pool, PlacesSegment s segment frame start pages pool ∧
        m = segmentMemory segment frame start ∧ s' = loaded s elf.data segment frame start pages pool) := by
  refine ⟨fun ⟨hfills, frame, start, pages, pool, hplaces⟩ => ?_, fun hnot m s' hrun _ => hnot ?_⟩
  · exact ⟨_, _, loadSegment_run hvacant hlen hfills hplaces, trivial, frame, start, pages, pool, hplaces,
      rfl, rfl⟩
  · exact ⟨loadSegment_fills m s' hrun, loadSegment_affords hvacant hlen m s' hrun⟩

end Segment

/-! ### All segments -/

/-- The loadable ones of the segments with these numbers. -/
def loadable (data : List UInt8) (header : Header) (is : List Nat) : List ProgramHeader :=
  (is.map (programHeader data header)).filter fun segment => segment.pType = ptLoad

/-- The allocator has a block of each size, one after another. -/
def Serves (a : Allocator) : List Nat → Prop
  | [] => True
  | n :: ns => ∃ start b, a.allocate n = some (start, b) ∧ Serves b ns

/-- There are frames and kernel pages for blocks of these sizes, and frames for the tables on the
way to the pages, one after another. -/
def Affords (table : Nat) (p : Pool) (a : Allocator) : List Nat → Prop
  | [] => True
  | n :: ns => ∃ frame start pages pool, Places table p a n frame start pages pool ∧
      Affords table pool pages ns

theorem Affords.pages {table : Nat} {p : Pool} {a : Allocator} {sizes : List Nat}
    (h : Affords table p a sizes) : Serves a sizes := by
  induction sizes generalizing p a with
  | nil => trivial
  | cons n sizes ih =>
    obtain ⟨_, start, pages, pool, ⟨_, -, hpages, -⟩, hrest⟩ := h
    exact ⟨start, pages, hpages, ih hrest⟩

/-- There is memory for the segments. -/
def AffordsSegments (s : System) (segments : List ProgramHeader) : Prop :=
  Affords s.recursive s.toPool s.pages (segments.map pagesOver)

/-- The memory is at the page of the segment, has the pages that cover it, and holds its bytes. -/
structure HoldsSegment (data : List UInt8) (s : System) (segment : ProgramHeader) (m : ContextMemory) :
    Prop where
  address : m.contextAddress = segment.pVaddr.toNat / pageSize * pageSize
  count : m.frames.count = pagesOver segment
  bytes : ∀ i, i < m.lenBytes →
    s.memory (m.frames.start * pageSize + i) = imageByte data segment i

section Loop

variable {elf : ElfFile} {manifest : Manifest} {is : List Nat} {r r' : Run}
  {image : List ContextMemory}

theorem later_noteSizes {segment : ProgramHeader} : Keeps (Later Run.Fit) (noteSizes segment) :=
  later_note.bind fun _ => later_note.bind fun _ => later_note

theorem later_loadSegments : Keeps (Later Run.Fit) (loadSegments elf manifest is) := by
  induction is with
  | nil => exact .pure _
  | cons i is ih =>
    refine later_segmentAt.bind fun segment => ?_
    split
    · exact ih
    · exact later_noteSizes.bind fun _ => (later_ofKernel _).bind fun _ => ih.bind fun _ => .pure _

theorem loadable_cons (data : List UInt8) (header : Header) (i : Nat) (is : List Nat) :
    loadable data header (i :: is) =
      if (programHeader data header i).pType = ptLoad then
        programHeader data header i :: loadable data header is
      else loadable data header is := by
  rw [loadable, List.map_cons, List.filter_cons]
  by_cases h : (programHeader data header i).pType = ptLoad
  · simp [h, loadable]
  · simp [h, loadable]

/-- The sums for a segment do not wrap. -/
def SumsFit (segment : ProgramHeader) : Prop :=
  segment.pMemsz.toNat + segment.voff.toNat < 2 ^ 64 ∧ segment.size.toNat + 4095 < 2 ^ 64 ∧
    segment.pOffset.toNat + segment.pFilesz.toNat < 2 ^ 64

theorem noteSizes_decided (hr : r.Fit) (segment : ProgramHeader) :
    Reads (noteSizes segment) r (SumsFit segment) () :=
  (note_decided hr _).bind (fun _ hr₁ _ => (note_decided hr₁ _).bind (fun _ hr₂ _ => note_decided hr₂ _)
    fun _ => later_note) fun _ => later_note.bind fun _ => later_note

theorem Fills.sums {data : List UInt8} {segment : ProgramHeader} (h : Fills data segment)
    (hlen : data.length < 2 ^ 63) : SumsFit segment := by
  have hsize := h.size hlen
  have hfile := h.inFile
  have hwhole := congrArg UInt64.toNat h.whole
  have hvoff := voff_eq segment
  have hmod : segment.pVaddr.toNat % pageSize < pageSize := Nat.mod_lt _ (by decide)
  simp only [pageSize] at hmod hsize hvoff
  exact ⟨by omega, by omega, by omega⟩

/-- **The loop does what the one of `Faastr.Spaces.Load` does**, when the headers are in the file and
no sum wraps. -/
theorem loadSegments_acts (hr : r.Fit) (hlen : elf.data.length < 2 ^ 64) (is : List Nat) :
    Acts (loadSegments elf manifest is) r ((∀ i ∈ is, SegmentIn elf.data elf.header i) ∧
        ∀ segment ∈ loadable elf.data elf.header is, SumsFit segment)
      ((loadable elf.data elf.header is).mapM (loadSegment (elf.toElf (.ok manifest)))) := by
  induction is generalizing r with
  | nil => exact (Acts.pure hr).congr (by simp [loadable])
  | cons i is ih =>
    rw [List.forall_mem_cons, and_assoc]
    refine .after (segmentAt_decided hr hlen elf.header i) (fun r₁ hr₁ _ => ?_) fun segment => ?_
    · rw [loadable_cons]
      by_cases hload : (programHeader elf.data elf.header i).pType = ptLoad
      · rw [if_pos hload, if_neg (not_not.mpr hload), List.forall_mem_cons, List.mapM_cons, and_left_comm]
        refine .after (noteSizes_decided hr₁ _) (fun r₂ hr₂ _ => ?_) fun _ =>
          (later_ofKernel _).bind fun _ => later_loadSegments.bind fun _ => .pure _
        exact .seq hr₂ fun m s₁ => (@ih ⟨s₁, r₂.sums⟩ hr₂).bind_pure (m :: ·)
      · rw [if_neg hload, if_pos hload]
        exact ih hr₁
    · split
      · exact later_loadSegments
      · exact later_noteSizes.bind fun _ => (later_ofKernel _).bind fun _ =>
          later_loadSegments.bind fun _ => .pure _

/-- The loop leaves alone what is in frames that are not free. -/
structure Undisturbed (s s' : System) : Prop where
  memory : ∀ a, s.frames.free (a / pageSize) = false → s'.memory a = s.memory a
  free : ∀ f, s'.frames.free f = true → s.frames.free f = true

theorem Undisturbed.trans {s₁ s₂ s₃ : System} (h : Undisturbed s₁ s₂) (h' : Undisturbed s₂ s₃) :
    Undisturbed s₁ s₃ := by
  refine ⟨fun a hfree => ?_, fun f hf => h.free f (h'.free f hf)⟩
  have hfree₂ : s₂.frames.free (a / pageSize) = false := by
    by_contra hfree'
    exact Bool.eq_false_iff.mp hfree (h.free _ (Bool.not_eq_false _ ▸ hfree'))
  rw [h'.memory a hfree₂, h.memory a hfree]

section Loaded

variable {s s' : System} {data : List UInt8} {segment : ProgramHeader} {frame start : Nat}
  {pages : Allocator} {pool : Pool}

theorem vacant_loaded (hvacant : Vacant s) (hplaces : PlacesSegment s segment frame start pages pool) :
    Vacant (loaded s data segment frame start pages pool) := by
  obtain ⟨_, -, hpages, -⟩ := hplaces
  intro page hfree
  obtain ⟨hfree', hout⟩ := (Allocator.free_allocate_iff hpages).mp hfree
  exact ⟨(hvacant page hfree').1, (block_outside hout).trans (hvacant page hfree').2⟩

theorem affordsSegments_cons {segments : List ProgramHeader}
    (hplaces : PlacesSegment s segment frame start pages pool) : AffordsSegments s (segment :: segments) ↔
      AffordsSegments (loaded s data segment frame start pages pool) segments := by
  refine ⟨?_, fun h => ⟨frame, start, pages, pool, hplaces, h⟩⟩
  rintro ⟨_, _, _, _, ⟨_, hframes', hpages', htables'⟩, hrest⟩
  obtain ⟨_, hframes, hpages, htables⟩ := hplaces
  cases hframes.symm.trans hframes'
  cases hpages.symm.trans hpages'
  cases htables.symm.trans htables'
  exact hrest

/-- The frames that are free now were free, and are not those of the segment. -/
theorem free_of_places (hplaces : PlacesSegment s segment frame start pages pool) {f : Nat}
    (hfree : pool.frames.free f = true) :
    s.frames.free f = true ∧ (f < frame ∨ frame + pagesOver segment ≤ f) := by
  obtain ⟨_, hframes, -, htables⟩ := hplaces
  exact (Allocator.free_allocate_iff hframes).mp (Pool.free_of_createAll htables hfree)

theorem undisturbed_loaded (hplaces : PlacesSegment s segment frame start pages pool) :
    Undisturbed s (loaded s data segment frame start pages pool) := by
  refine ⟨fun a hfree => if_neg fun hin => ?_, fun f hf => (free_of_places hplaces hf).1⟩
  obtain ⟨_, hframes, -⟩ := hplaces
  have hmem := Allocator.free_of_allocate hframes (k := a / pageSize - frame) (by
    simp only [pageSize] at *
    omega)
  rw [show frame + (a / pageSize - frame) = a / pageSize by simp only [pageSize] at *; omega, hfree] at hmem
  cases hmem

/-- The segment is there, and stays as long as its frames do. -/
theorem holdsSegment_loaded (hplaces : PlacesSegment s segment frame start pages pool)
    (h : Undisturbed (loaded s data segment frame start pages pool) s') :
    HoldsSegment data s' segment (segmentMemory segment frame start) := by
  refine ⟨segment.vaddr_aligned, rfl, fun i hi => ?_⟩
  have hi : i < pagesOver segment * pageSize := hi
  have htaken : pool.frames.free ((frame * pageSize + i) / pageSize) = false := by
    by_contra hfree
    have hout := (free_of_places hplaces (Bool.not_eq_false _ ▸ hfree)).2
    simp only [pageSize] at hi hout
    omega
  rw [show (segmentMemory segment frame start).frames.start = frame from rfl, h.memory _ htaken]
  refine (if_pos ⟨Nat.le_add_right .., Nat.add_lt_add_left hi _⟩).trans ?_
  rw [Nat.add_sub_cancel_left]

end Loaded

/-- Whether the segments are loaded: all their bytes are in the file, and there is memory for them. -/
theorem loadAll_decided {s : System} {elf : Elf} (hlen : elf.data.length < 2 ^ 63) (hvacant : Vacant s)
    (segments : List ProgramHeader) : Decided (fun _ => True) (segments.mapM (loadSegment elf)) s
      ((∀ segment ∈ segments, Fills elf.data segment) ∧ AffordsSegments s segments)
      (fun image s' => Undisturbed s s' ∧ List.Forall₂ (HoldsSegment elf.data s') segments image) := by
  induction segments generalizing s with
  | nil =>
    refine (Decided.pure trivial ⟨⟨fun _ _ => rfl, fun _ h => h⟩, .nil⟩).congr ?_
    simp [AffordsSegments, Affords]
  | cons segment segments ih =>
    rw [List.mapM_cons, List.forall_mem_cons]
    refine ((loadSegment_decided hvacant hlen).bind (d := (∀ segment ∈ segments, Fills elf.data segment) ∧
      AffordsSegments s (segment :: segments)) ?_ fun _ _ _ _ _ => id).congr ?_
    · rintro _ _ - ⟨frame, start, pages, pool, hplaces, rfl, rfl⟩
      have hrest := @ih (loaded s elf.data segment frame start pages pool) (vacant_loaded hvacant hplaces)
      refine ((hrest.bind (d := True) (fun image s' _ ⟨hundisturbed, himage⟩ => ?_) fun _ => .pure _).congr ?_)
      · exact Decided.pure trivial ⟨(undisturbed_loaded hplaces).trans hundisturbed,
          .cons (holdsSegment_loaded hplaces hundisturbed) himage⟩
      · rw [and_true, affordsSegments_cons hplaces]
    · constructor
      · rintro ⟨⟨hfirst, -⟩, hrest, hafford⟩
        exact ⟨⟨hfirst, hrest⟩, hafford⟩
      · rintro ⟨⟨hfirst, hrest⟩, hafford⟩
        have ⟨frame, start, pages, pool, hplaces, _⟩ := hafford
        exact ⟨⟨hfirst, frame, start, pages, pool, hplaces⟩, hrest, hafford⟩

end Loop

/-! ### What comes of a file -/

namespace ElfFile

variable (elf : ElfFile)

/-- Segment `i` begins behind the space for images. -/
def isAbove (i : Nat) : Bool := above (programHeader elf.data elf.header i)

/-- The loadable segments. -/
def loadable : List ProgramHeader := Loader.loadable elf.data elf.header elf.header.segments

/-- The section headers up to the manifest are in the file, and so is the manifest. -/
@[mk_iff]
structure ManifestIn : Prop where
  headers : ∀ i ∈ upTo elf.searchEnds elf.header.sections, SectionIn elf.data elf.header i
  bytes : ∀ h ∈ elf.manifestSection elf.header.sections, h.InFile elf.data

variable (decode : List UInt8 → Option Manifest)

/-- What comes of the manifest. -/
def manifestOf : Except String Manifest :=
  match elf.manifestSection elf.header.sections with
  | none => .error "Manifest section not found"
  | some h =>
      match decode (h.bytes elf.data) with
      | some manifest => .ok manifest
      | none => .error "Failed to decode manifest"

/-- What comes of the checks, before a segment is loaded. -/
def checked : Except String Manifest :=
  if elf.header.segments.any elf.isAbove then
    .error "Binary requested to load code above permitted vaddr"
  else elf.manifestOf decode

/-- What comes of the file: the error of the checks, or the module with its segments. -/
def Outcome (result : Except String LoadedModule) (s : System) : Prop :=
  match elf.checked decode with
  | .error e => result = .error e
  | .ok manifest => ∃ image, result = .ok ⟨manifest.moduleName, manifest.funcTable, image⟩ ∧
      List.Forall₂ (HoldsSegment elf.data s) elf.loadable image

end ElfFile

section Stages

variable {decode : List UInt8 → Option Manifest} {data : List UInt8} {header : Header}
  {elf : ElfFile} {r : Run}

theorem later_segmentsAbove {is : List Nat} :
    Keeps (Later Run.Fit) (segmentsAbove data header is) := by
  induction is with
  | nil => exact .pure _
  | cons i is ih =>
    refine later_segmentAt.bind fun segment => ?_
    split
    · exact .pure _
    · exact ih

theorem segmentsAbove_decided (hr : r.Fit) (hlen : data.length < 2 ^ 64) (header : Header)
    (is : List Nat) : Reads (segmentsAbove data header is) r
      (∀ i ∈ upTo (fun i => above (programHeader data header i)) is, SegmentIn data header i)
      (is.any fun i => above (programHeader data header i)) := by
  induction is generalizing r with
  | nil => exact (Reads.pure hr).congr (by simp [upTo])
  | cons i is ih =>
    rw [upTo, List.forall_mem_cons, List.any_cons]
    refine (segmentAt_decided hr hlen header i).bind (fun r₁ hr₁ _ => ?_) fun segment => ?_
    · cases above (programHeader data header i) with
      | true => exact (Reads.pure hr₁).congr (by simp)
      | false => exact ih hr₁
    · split
      · exact .pure _
      · exact later_segmentsAbove

theorem later_loadManifest : Keeps (Later Run.Fit) (loadManifest decode elf) := by
  refine later_sectionDataByName.bind fun o => ?_
  split
  · split
    · exact .pure _
    · exact .pure _
  · exact .pure _

theorem loadManifest_decided (hr : r.Fit) (hlen : elf.data.length < 2 ^ 64) :
    Reads (loadManifest decode elf) r
      elf.ManifestIn (elf.manifestOf decode) := by
  refine Reads.congr ?_ ((and_iff_left trivial).trans elf.manifestIn_iff.symm)
  refine (sectionDataByName_decided hr hlen elf.header.sections).bind (fun r₁ hr₁ _ => ?_) fun o => ?_
  · rw [ElfFile.manifestOf]
    cases elf.manifestSection elf.header.sections with
    | none => exact .pure hr₁
    | some h =>
      simp only [Option.map_some]
      cases decode (h.bytes elf.data) with
      | some manifest => exact .pure hr₁
      | none => exact .pure hr₁
  · split
    · split
      · exact .pure _
      · exact .pure _
    · exact .pure _

theorem later_loadFile : Keeps (Later Run.Fit) (loadFile decode elf) := by
  refine later_segmentsAbove.bind fun b => ?_
  split
  · exact .pure _
  · refine later_loadManifest.bind fun o => ?_
    split
    · exact .pure _
    · exact later_loadSegments.bind fun _ => .pure _

theorem any_loadable (elf : ElfFile) : (elf.loadable.any fun segment =>
    userArgOffset ≤ segment.vaddr.toNat) = elf.header.segments.any elf.isAbove := by
  rw [ElfFile.loadable, loadable, List.any_filter, List.any_map]
  congr 1
  funext i
  simp [ElfFile.isAbove, above]

/-- **A parsed file is loaded as what it says is**, when the headers and the manifest are in the file
and no sum wraps. -/
theorem loadFile_acts (hr : r.Fit) (hlen : elf.data.length < 2 ^ 64) : Acts (loadFile decode elf) r
    ((∀ i ∈ upTo elf.isAbove elf.header.segments, SegmentIn elf.data elf.header i) ∧
      (elf.header.segments.any elf.isAbove = false → elf.ManifestIn) ∧
      ∀ manifest, elf.checked decode = .ok manifest →
        (∀ i ∈ elf.header.segments, SegmentIn elf.data elf.header i) ∧
          ∀ segment ∈ elf.loadable, SumsFit segment)
    (Spaces.load (some (elf.toElf (elf.manifestOf decode)))) := by
  refine .after (segmentsAbove_decided hr hlen elf.header elf.header.segments) (fun r₁ hr₁ _ => ?_)
    fun b => ?_
  · show Acts (if elf.header.segments.any elf.isAbove then _ else _) r₁ _ (if elf.loadable.any _ then _ else _)
    rw [any_loadable, ElfFile.checked]
    cases habove : elf.header.segments.any elf.isAbove with
    | true => exact (Acts.pure hr₁).congr (by simp)
    | false =>
      rw [forall_prop_of_true rfl]
      refine .after (loadManifest_decided hr₁ hlen) (fun r₂ hr₂ _ => ?_) fun o => ?_
      · cases hmanifest : elf.manifestOf decode with
        | error e => exact (Acts.pure hr₂).congr (by simp)
        | ok manifest => exact ((loadSegments_acts hr₂ hlen _).bind_pure _).congr (by simp [ElfFile.loadable])
      · split
        · exact .pure _
        · exact later_loadSegments.bind fun _ => .pure _
  · split
    · exact .pure _
    · refine later_loadManifest.bind fun o => ?_
      split
      · exact .pure _
      · exact later_loadSegments.bind fun _ => .pure _

/-- What the checks let through is loaded when all its bytes are in the file, and there is memory. -/
theorem spacesLoad_decided {s : System} (hlen : elf.data.length < 2 ^ 63) (hvacant : Vacant s) :
    Decided (fun _ => True) (Spaces.load (some (elf.toElf (elf.manifestOf decode)))) s
      (∀ manifest, elf.checked decode = .ok manifest →
        (∀ segment ∈ elf.loadable, Fills elf.data segment) ∧ AffordsSegments s elf.loadable)
      (elf.Outcome decode) := by
  show Decided _ (if elf.loadable.any _ then _ else _) s _ _
  unfold ElfFile.Outcome
  rw [any_loadable, ElfFile.checked]
  cases elf.header.segments.any elf.isAbove with
  | true => exact Decided.congr (c := True) (.pure trivial rfl) (by simp)
  | false =>
    cases hmanifest : elf.manifestOf decode with
    | error e => exact Decided.congr (c := True) (.pure trivial rfl) (by simp)
    | ok manifest =>
      have hall := @loadAll_decided s (elf.toElf (.ok manifest)) hlen hvacant elf.loadable
      refine (hall.bind (d := True) (fun image s' _ himage => ?_) fun _ => .pure _).congr (by simp [ElfFile.toElf])
      exact Decided.pure trivial ⟨image, rfl, himage.2⟩

/-- What a file says to the loader of `Faastr.Spaces.Load`. -/
def parse (decode : List UInt8 → Option Manifest) (data : List UInt8) : Option Elf :=
  if IsElf data then some ((elfFile data).toElf ((elfFile data).manifestOf decode)) else none

theorem upTo_of_any_false {ν : Type} {p : ν → Bool} {l : List ν} (h : l.any p = false) : upTo p l = l := by
  induction l with
  | nil => rfl
  | cons a l ih =>
    obtain ⟨ha, hl⟩ := Bool.or_eq_false_iff.mp h
    rw [upTo, ha, ih hl]
    rfl

theorem mem_of_mem_upTo {ν : Type} {p : ν → Bool} {l : List ν} {a : ν} (h : a ∈ upTo p l) : a ∈ l := by
  induction l with
  | nil => cases h
  | cons b l ih =>
    rcases List.mem_cons.mp h with rfl | h
    · exact List.mem_cons_self
    · split at h
      · cases h
      · exact List.mem_cons_of_mem b (ih h)

theorem any_isAbove_of_checked {manifest : Manifest} (h : elf.checked decode = .ok manifest) :
    elf.header.segments.any elf.isAbove = false := by
  rw [ElfFile.checked] at h
  split at h
  · cases h
  · next habove => exact Bool.not_eq_true _ ▸ habove

/-- What the code reads is in the file: the string tables and the headers, and the section of the
manifest when no segment begins too high. -/
structure Readable (data : List UInt8) : Prop where
  tables : TablesIn data
  segmentHeaders : ∀ i ∈ upTo (elfFile data).isAbove (fileHeader data).segments,
    SegmentIn data (fileHeader data) i
  manifest : (fileHeader data).segments.any (elfFile data).isAbove = false → (elfFile data).ManifestIn

theorem fit_start {s : System} : Run.Fit ⟨s, []⟩ := fun _ hn => absurd hn List.not_mem_nil

/-- **A file is loaded as what it says is.** -/
theorem load_acts {s : System} (hlen : data.length < 2 ^ 64) : Acts (load decode data) ⟨s, []⟩
    (IsElf data → Readable data ∧ ∀ manifest, (elfFile data).checked decode = .ok manifest →
      ∀ segment ∈ (elfFile data).loadable, SumsFit segment)
    (Spaces.load (parse decode data)) := by
  by_cases helf : IsElf data
  · rw [parse, if_pos helf, forall_prop_of_true helf]
    refine (Acts.after (ofBytes_decided fit_start hlen helf) (fun r₁ hr₁ _ => loadFile_acts hr₁ hlen)
      fun o => ?_).congr ⟨?_, ?_⟩
    · split
      · exact .pure _
      · exact later_loadFile
    · rintro ⟨htables, hheaders, hmanifest, hrest⟩
      exact ⟨⟨htables, hheaders, hmanifest⟩, fun manifest hchecked => (hrest manifest hchecked).2⟩
    · rintro ⟨⟨htables, hheaders, hmanifest⟩, hsums⟩
      refine ⟨htables, hheaders, hmanifest, fun manifest hchecked => ⟨?_, hsums manifest hchecked⟩⟩
      have hall := upTo_of_any_false (any_isAbove_of_checked hchecked)
      exact fun i hi => hheaders i (hall.symm ▸ hi)
  · obtain ⟨e, hparse⟩ := @ofBytes_not_elf data ⟨s, []⟩ helf
    rw [parse, if_neg helf]
    exact ⟨fun _ => ⟨[], fit_start, run_bind hparse⟩, fun hnot => absurd (fun h => absurd h helf) hnot⟩

/-- Whether an ELF file is loaded, and what comes of it. -/
theorem load_decided {s : System} (hlen : data.length < 2 ^ 63) (hvacant : Vacant s)
    (helf : IsElf data) : Decided Run.Fit (load decode data) ⟨s, []⟩
      (Readable data ∧ ∀ manifest, (elfFile data).checked decode = .ok manifest →
        (∀ segment ∈ (elfFile data).loadable, Fills data segment) ∧ AffordsSegments s (elfFile data).loadable)
      (fun result r => (elfFile data).Outcome decode result r.system) := by
  have hacts := @load_acts decode data s (by omega)
  rw [parse, if_pos helf, forall_prop_of_true helf] at hacts
  refine (hacts.decided (spacesLoad_decided hlen hvacant)).congr ⟨fun h => ⟨h.1.1, h.2⟩, fun h => ⟨⟨h.1, ?_⟩, h.2⟩⟩
  exact fun manifest hchecked segment hmem => ((h.2 manifest hchecked).1 segment hmem).sums hlen

end Stages

/-! ### When loading is safe -/

section Safe

variable (decode : List UInt8 → Option Manifest) (data : List UInt8)

/-- The pages of the segment are in the space for images. -/
def Below (segment : ProgramHeader) : Prop :=
  segment.pVaddr.toNat / pageSize * pageSize + pagesOver segment * pageSize ≤ userArgOffset

instance (segment : ProgramHeader) : Decidable (Below segment) := inferInstanceAs (Decidable (_ ≤ _))

/-- What the code trusts the file with. What it reads is in the file; and when there is a manifest,
each loadable segment has all its bytes in the file, and its pages in the space for images, and
the kernel has pages to map them. -/
structure Trustworthy (s : System) : Prop extends Readable data where
  segments : ∀ manifest, (elfFile data).checked decode = .ok manifest →
    ∀ segment ∈ (elfFile data).loadable, Fills data segment ∧ Below segment
  pages : ∀ manifest, (elfFile data).checked decode = .ok manifest →
    Serves s.pages ((elfFile data).loadable.map pagesOver)

/-- The call returns, all that it read was in the file, no sum wrapped, and the pages of the image
are in the space for images. -/
def LoadsSafely (s : System) : Prop :=
  ∃ result r, (load decode data).run ⟨s, []⟩ = .ok (result, r) ∧ r.Fit ∧
    ∀ module, result = .ok module → ∀ m ∈ module.image,
      m.contextAddress + m.lenBytes ≤ userArgOffset

end Safe

section SafeIff

variable {decode : List UInt8 → Option Manifest} {data : List UInt8} {s : System} {elf : ElfFile}

/-- Memories are in the space for images when the segments that they hold are. -/
theorem below_iff {segments : List ProgramHeader} {image : List ContextMemory}
    (h : List.Forall₂ (HoldsSegment data s) segments image) :
    (∀ m ∈ image, m.contextAddress + m.lenBytes ≤ userArgOffset) ↔
      ∀ segment ∈ segments, Below segment := by
  induction h with
  | nil => simp
  | @cons segment m segments image hfirst _ ih =>
    rw [List.forall_mem_cons, List.forall_mem_cons, ih, Below, hfirst.address, ContextMemory.lenBytes,
      hfirst.count]

theorem outcome_below_iff {result : Except String LoadedModule} (h : elf.Outcome decode result s) :
    (∀ module, result = .ok module → ∀ m ∈ module.image,
      m.contextAddress + m.lenBytes ≤ userArgOffset) ↔
    ∀ manifest, elf.checked decode = .ok manifest → ∀ segment ∈ elf.loadable, Below segment := by
  rw [ElfFile.Outcome] at h
  cases hchecked : elf.checked decode with
  | error e =>
    rw [hchecked] at h
    simp [h]
  | ok manifest =>
    rw [hchecked] at h
    obtain ⟨image, rfl, himage⟩ := h
    simp [below_iff himage]

theorem trustworthy_of_loadsSafely (hlen : data.length < 2 ^ 63) (hvacant : Vacant s)
    (helf : IsElf data) (h : LoadsSafely decode data s) : Trustworthy decode data s := by
  obtain ⟨⟨hreadable, hsegments⟩, hbelow⟩ :=
    ((load_decided hlen hvacant helf).exists_iff fun _ _ _ h => outcome_below_iff h).mp h
  refine ⟨hreadable, fun manifest hchecked segment hmem => ?_,
    fun manifest hchecked => (hsegments manifest hchecked).2.pages⟩
  exact ⟨(hsegments manifest hchecked).1 segment hmem, hbelow manifest hchecked segment hmem⟩

/-- **The bytes that are safe to load**, when there are frames for the segments and the tables that
map them: those of no ELF file, and those that can be trusted. -/
theorem load_safe_iff (decode : List UInt8 → Option Manifest) (data : List UInt8) (s : System)
    (hlen : data.length < 2 ^ 63) (hvacant : Vacant s)
    (hframes : (∀ segment ∈ (elfFile data).loadable, Fills data segment) →
      Serves s.pages ((elfFile data).loadable.map pagesOver) → AffordsSegments s (elfFile data).loadable) :
    LoadsSafely decode data s ↔ (IsElf data → Trustworthy decode data s) := by
  by_cases helf : IsElf data
  · rw [forall_prop_of_true helf]
    refine ⟨trustworthy_of_loadsSafely hlen hvacant helf, fun h => ?_⟩
    refine ((load_decided hlen hvacant helf).exists_iff fun _ _ _ h => outcome_below_iff h).mpr ?_
    refine ⟨⟨h.toReadable, fun manifest hchecked => ?_⟩,
      fun manifest hchecked segment hmem => (h.segments manifest hchecked segment hmem).2⟩
    have hfills : ∀ segment ∈ (elfFile data).loadable, Fills data segment :=
      fun segment hmem => (h.segments manifest hchecked segment hmem).1
    exact ⟨hfills, hframes hfills (h.pages manifest hchecked)⟩
  · obtain ⟨e, hparse⟩ := @ofBytes_not_elf data ⟨s, []⟩ helf
    refine ⟨fun _ h => absurd h helf, fun _ => ⟨.error "Failed to parse elf", ⟨s, []⟩, ?_, fit_start, ?_⟩⟩
    · exact run_bind hparse
    · intro module hmodule
      cases hmodule

/-- A file with one segment and one section, both of them the ten bytes at its end. The section is
the table of strings, with its own name in it. -/
def smallFile (shoff vaddr memsz : Nat) : List UInt8 :=
  elfMag ++ [elfClass] ++ List.replicate 27 0 ++ leBytes 8 sizeofEhdr ++ leBytes 8 shoff ++
    List.replicate 6 0 ++ leBytes 2 sizeofPhdr ++ leBytes 2 1 ++ leBytes 2 sizeofShdr ++ leBytes 2 1 ++
    leBytes 2 0 ++
  -- The program header.
  leBytes 4 1 ++ leBytes 4 4 ++ leBytes 8 184 ++ leBytes 8 vaddr ++ List.replicate 8 0 ++
    leBytes 8 10 ++ leBytes 8 memsz ++ List.replicate 8 0 ++
  -- The section header.
  leBytes 4 0 ++ leBytes 4 shtStrtab ++ List.replicate 16 0 ++ leBytes 8 184 ++ leBytes 8 10 ++
    List.replicate 24 0 ++
  ElfFile.manifestName ++ [0]

/-- A decoder that is content with anything. -/
def contentDecode (_ : List UInt8) : Option Manifest := some ⟨"", []⟩

theorem arenaSystem_vacant : Vacant arenaSystem := by
  intro page hfree
  have hle : userPages + 1 ≤ page := of_decide_eq_true hfree
  exact ⟨Nat.le_of_lt hle, if_neg (Nat.ne_of_gt hle)⟩

theorem arenaSystem_affords :
    Affords arenaSystem.recursive arenaSystem.toPool arenaSystem.pages [1] :=
  ⟨_, _, _, _, ⟨_, rfl, rfl, rfl⟩, trivial⟩

theorem load_safe_small : LoadsSafely contentDecode (smallFile 120 4096 10) arenaSystem := by
  have hlength : (smallFile 120 4096 10).length < 2 ^ 63 := by decide +kernel
  have hone : (elfFile (smallFile 120 4096 10)).loadable.map pagesOver = [1] := by decide +kernel
  have hafford : AffordsSegments arenaSystem (elfFile (smallFile 120 4096 10)).loadable := by
    rw [AffordsSegments, hone]
    exact arenaSystem_affords
  refine (load_safe_iff contentDecode _ _ hlength arenaSystem_vacant fun _ _ => hafford).mpr fun _ => ?_
  refine ⟨⟨⟨?_, ?_, ?_, ?_⟩, ?_, fun _ => ⟨?_, ?_⟩⟩, fun _ _ => ?_, fun _ _ => hafford.pages⟩
  all_goals decide +kernel

theorem checked_content (habove : elf.header.segments.any elf.isAbove = false)
    (h : (elf.manifestSection elf.header.sections).isSome) :
    elf.checked contentDecode = .ok ⟨"", []⟩ := by
  obtain ⟨section', hsection⟩ := Option.isSome_iff_exists.mp h
  rw [ElfFile.checked, habove, ElfFile.manifestOf, hsection]
  rfl

/-- A section header far behind the end of the file; a segment with more memory than bytes; and one
that begins on the last page for images and ends behind it. -/
theorem load_unsafe : ¬ LoadsSafely contentDecode (smallFile (2 ^ 40) 4096 10) arenaSystem ∧
    ¬ LoadsSafely contentDecode (smallFile 120 4096 20) arenaSystem ∧
    ¬ LoadsSafely contentDecode (smallFile 120 (userArgOffset - 1) 10) arenaSystem := by
  have helf : ∀ file ∈ [smallFile (2 ^ 40) 4096 10, smallFile 120 4096 20,
      smallFile 120 (userArgOffset - 1) 10], file.length < 2 ^ 63 ∧ IsElf file := by
    intro file hfile
    simp only [List.mem_cons, List.not_mem_nil, or_false] at hfile
    rcases hfile with rfl | rfl | rfl
    all_goals exact ⟨by decide +kernel, by decide +kernel, by decide +kernel, by decide +kernel⟩
  simp only [List.forall_mem_cons] at helf
  obtain ⟨⟨hlen₁, helf₁⟩, ⟨hlen₂, helf₂⟩, ⟨hlen₃, helf₃⟩, -⟩ := helf
  refine ⟨fun h => ?_, fun h => ?_, fun h => ?_⟩
  · have htrust := trustworthy_of_loadsSafely hlen₁ arenaSystem_vacant helf₁ h
    exact absurd htrust.tables.strtabHeaders (by decide +kernel)
  · have htrust := trustworthy_of_loadsSafely hlen₂ arenaSystem_vacant helf₂ h
    exact absurd (htrust.segments _ (checked_content (by decide +kernel) (by decide +kernel)))
      (by decide +kernel)
  · have htrust := trustworthy_of_loadsSafely hlen₃ arenaSystem_vacant helf₃ h
    exact absurd (htrust.segments _ (checked_content (by decide +kernel) (by decide +kernel)))
      (by decide +kernel)

end SafeIff

end Faastr.Loader
