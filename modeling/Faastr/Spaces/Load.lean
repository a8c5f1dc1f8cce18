import Faastr.Spaces.Spawn

/-!
Loading a module (`kernel/src/context/load.rs`): each loadable segment of an ELF file gets
memory of its own, filled through the kernel, and is mapped when a context is spawned.

The headers of the file and the manifest are taken as they are parsed.

* `segmentFlags`: a segment that can be executed is not writable, even when it asks for it.
* `load_image`: the segments of a module are made of frames that could be taken.
-/

namespace Faastr.Spaces

open Faastr.Lib Faastr.Memory Faastr.Paging

/-! ### The file -/

structure ProgramHeader where
  pType : UInt32
  pFlags : UInt32
  pOffset : UInt64
  pVaddr : UInt64
  pFilesz : UInt64
  pMemsz : UInt64
deriving DecidableEq

/-- `PT_LOAD`. -/
def ptLoad : UInt32 := 1

/-- `PF_X`. -/
def pfX : UInt32 := 1

/-- `PF_W`. -/
def pfW : UInt32 := 2

/-- `PF_R`. -/
def pfR : UInt32 := 4

structure SymbolTableEntry where
  name : String
  offset : Nat

structure Manifest where
  moduleName : String
  symbolTable : List SymbolTableEntry

/-- A file whose header is one of an ELF file. -/
structure Elf where
  data : List UInt8
  segments : List ProgramHeader
  /-- `load_manifest`. -/
  manifest : Except String Manifest

structure LoadedModule where
  name : String
  funcTable : String → Option Nat
  image : List ContextMemory

namespace ProgramHeader

def voff (segment : ProgramHeader) : UInt64 := segment.pVaddr % 4096

def vaddr (segment : ProgramHeader) : UInt64 := segment.pVaddr - segment.voff

def size (segment : ProgramHeader) : UInt64 := segment.pMemsz + segment.voff

def numPages (segment : ProgramHeader) : UInt64 := ((segment.size + 4095) &&& ~~~4095) / 4096

end ProgramHeader

/-- The flags of a segment: W ^ X, and X first. -/
def segmentFlags (pFlags : UInt32) : EntryFlags :=
  let flags := EntryFlags.noExecute.union .userAccessible
  let flags := if pFlags &&& pfR = pfR then flags.union .present else flags
  if pFlags &&& pfX = pfX then flags.remove .noExecute
  else if pFlags &&& pfW = pfW then flags.union .writable
  else flags

/-- The bytes of the file from `lo` to `hi`. -/
def Elf.slice (elf : Elf) (lo hi : Nat) : Kernel (List UInt8) := do
  check (lo ≤ hi && hi ≤ elf.data.length) .index
  return (elf.data.drop lo).take (hi - lo)

/-- The memory of a segment: the bytes of the file, between zeros. -/
def loadSegment (elf : Elf) (segment : ProgramHeader) : Kernel ContextMemory := do
  let memory ← expect
    (← ContextMemory.new segment.numPages.toNat segment.vaddr.toNat (segmentFlags segment.pFlags))
    "Failed to allocte context memory"
  -- It is not checked that the memory was mapped; without a mapping there is no slice.
  let (memory, _) ← memory.mapToKernel (EntryFlags.writable.union .noExecute)
  let pagesMem ← memory.asSliceMut
  pagesMem.fill 0 segment.voff.toNat fun _ => 0
  check (segment.voff ≤ segment.size && segment.size.toNat ≤ pagesMem.len) .index
  let bytes ← elf.slice segment.pOffset.toNat (segment.pOffset + segment.pFilesz).toNat
  -- `copy_from_slice`: the file has as many bytes as the memory.
  check ((segment.size - segment.voff).toNat == bytes.length) .index
  pagesMem.fill segment.voff.toNat bytes.length fun i => bytes.getD i 0
  pagesMem.fill segment.size.toNat (pagesMem.len - segment.size.toNat) fun _ => 0
  return memory

/-- The functions by name; of two with one name it is the second. -/
def Manifest.funcTable (manifest : Manifest) : String → Option Nat :=
  manifest.symbolTable.foldl (fun table func => Function.update table func.name (some func.offset))
    fun _ => none

/-- `load`; nothing comes of a file that is not an ELF file. -/
def load (parsed : Option Elf) : Kernel (Except String LoadedModule) := do
  let some elf := parsed | return .error "Failed to parse elf"
  let loadable := elf.segments.filter fun segment => segment.pType = ptLoad
  if loadable.any fun segment => userArgOffset ≤ segment.vaddr.toNat then
    return .error "Binary requested to load code above permitted vaddr"
  match elf.manifest with
  | .error e => return .error e
  | .ok manifest =>
      let image ← loadable.mapM (loadSegment elf)
      return .ok { name := manifest.moduleName, funcTable := manifest.funcTable, image }

/-! ### What a module is made of -/

/-- Entries that can be written to cannot be executed. -/
def WriteXorExecute (flags : EntryFlags) : Prop :=
  flags.contains .writable = true → flags.contains .noExecute = true

theorem segmentFlags_wx (pFlags : UInt32) : WriteXorExecute (segmentFlags pFlags) := by
  by_cases hr : pFlags &&& pfR = pfR <;> by_cases hx : pFlags &&& pfX = pfX <;>
    by_cases hw : pFlags &&& pfW = pfW <;>
    simp only [segmentFlags, WriteXorExecute, hr, hx, hw, if_true, if_false] <;> decide

theorem ProgramHeader.vaddr_aligned (segment : ProgramHeader) :
    segment.vaddr.toNat = segment.pVaddr.toNat / pageSize * pageSize := by
  have hvoff : segment.voff.toNat = segment.pVaddr.toNat % pageSize := UInt64.toNat_mod ..
  have hle : segment.voff ≤ segment.pVaddr := by
    rw [UInt64.le_iff_toNat_le, hvoff]
    exact Nat.mod_le ..
  rw [vaddr, UInt64.toNat_sub_of_le _ _ hle, hvoff]
  have hdiv := Nat.div_add_mod segment.pVaddr.toNat pageSize
  rw [Nat.mul_comm] at hdiv
  omega

/-- A part of an image, which is mapped at a page of the user half. -/
structure Segment (m : ContextMemory) : Prop where
  positive : 0 < m.frames.count
  aligned : ∃ page, m.contextAddress = page * pageSize
  wx : WriteXorExecute m.flags

section Load

variable {s : System} {elf : Elf} {parsed : Option Elf}

theorem loadSegment_spec (hs : s.Sound) (segment : ProgramHeader) :
    Ensures (loadSegment elf segment) s fun m s' => KernelOnly True s s' ∧ Taken m s s' ∧ Segment m := by
  refine .seq (ContextMemory.new_spec hs) fun o s₁ ⟨hkernel₁, hnew⟩ => ?_
  refine .bind (ensures_orPanic fun m hm => ?_)
  obtain ⟨htaken, -, hm⟩ := hnew m hm
  refine .seq (ContextMemory.mapToKernel_spec (hkernel₁.sound hs) htaken (by rw [hm]))
    fun r s₂ ⟨hkernel₂, mapping, hr, htaken₂, _⟩ => ?_
  refine .seq ContextMemory.asSliceMut_spec fun pagesMem s₃ ⟨hs₃, _⟩ => ?_
  refine .seq VallocMapping.fill_spec fun _ s₄ hhead => .bind (ensures_check fun _ => ?_)
  refine .bind (.bind (ensures_check fun _ => .pure (.bind (ensures_check fun _ => ?_))))
  refine .seq VallocMapping.fill_spec fun _ s₅ hbytes => ?_
  refine .seq VallocMapping.fill_spec fun _ s₆ htail => .pure ?_
  subst hs₃
  have hwrites : KernelOnly True _ s₆ := trans_of (KernelOnly True) hhead.kernelOnly
    (trans_of (KernelOnly True) hbytes.kernelOnly htail.kernelOnly)
  refine ⟨trans_of (KernelOnly True) hkernel₁ (trans_of (KernelOnly True) hkernel₂ hwrites),
    htaken₂.extend (refl_of Remaps s) hwrites.toRemaps, htaken₂.positive,
    ⟨segment.pVaddr.toNat / pageSize, ?_⟩, ?_⟩
  · rw [hr, hm]
    exact segment.vaddr_aligned
  · rw [hr, hm]
    exact segmentFlags_wx segment.pFlags

/-- **The image of a module is made of frames that could be taken**, and of pages that are not both
writable and executable. -/
theorem load_image (hs : s.Sound) : Ensures (load parsed) s fun r s' => KernelOnly True s s' ∧
    ∀ module, r = .ok module → ∀ m ∈ module.image, Taken m s s' ∧ Segment m := by
  have herror : ∀ e : String, Ensures (pure (.error e) : Kernel (Except String LoadedModule)) s
      fun r s' => KernelOnly True s s' ∧ ∀ module, r = .ok module → ∀ m ∈ module.image,
        Taken m s s' ∧ Segment m := fun e => .pure ⟨refl_of (KernelOnly True) s, by simp⟩
  cases parsed with
  | none => exact herror _
  | some elf =>
    rw [load]
    split
    · exact herror _
    · split
      · exact herror _
      · refine .seq (.mapM (fun _ _ h h' => h'.sound h)
          (fun _ _ _ _ _ _ h₀ h h₁ => ⟨h.1.extend h₀.toRemaps h₁.toRemaps, h.2⟩)
          (fun segment _ s h => loadSegment_spec h segment) hs)
          fun image s' ⟨hkernel, hall⟩ => .pure ⟨hkernel, ?_⟩
        rintro _ ⟨⟩ m hm
        obtain ⟨-, -, h⟩ := hall m hm
        exact h

end Load

end Faastr.Spaces
