import Faastr.Spaces.Tables

/-!
Memory of contexts (`kernel/src/context/memory.rs`).

A `ContextMemory` owns a block of frames. It may be mapped into the kernel, where its
bytes are read and written, and at an address of its context. `resize` replaces it by
a larger or smaller one with the same contents, in the active page table;
`append_encode` puts values behind each other into one, and resizes it when they do not
fit.

Reference counts are not modelled: what a memory holds is dropped with it unless the
memory is shared (`ref_clone`).

* `Taken`: memory that is made of frames that could be taken.
* `CopyOf`: a copy of a memory, in frames of its own.
* `resize_spec`: a memory that is resized stays in its place, with new frames.
* `appendEncode_run`: values are encoded in place once there is room for them.
-/

namespace Faastr.Spaces

open Faastr.Lib Faastr.Memory Faastr.Paging

/-- `Page::range_inclusive`, from the page of an address to that of the last of `size` bytes. -/
def pagesOf (address size : Nat) : List Nat :=
  let first := address / pageSize
  List.range' first ((address + size - 1) / pageSize + 1 - first)

/-- The pages of `count` pages from an address on. -/
def pagesFrom (address count : Nat) : List Nat := pagesOf address (count * pageSize)

structure Frames where
  start : Nat
  count : Nat
deriving DecidableEq

namespace Frames

def new (count : Nat) : Kernel (Option Frames) := do
  let some start ← allocateFrames count | return none
  return some { start, count }

def iter (f : Frames) : List Nat := pagesFrom (f.start * pageSize) f.count

def drop (f : Frames) : Kernel Unit := deallocateFrames f.start f.count

end Frames

structure VallocPages where
  start : Nat
  count : Nat
deriving DecidableEq

namespace VallocPages

/-- `allocate_unmapped_pages`. -/
def new (count : Nat) : Kernel (Option VallocPages) := do
  let s ← get
  match s.pages.allocate count with
  | some (start, pages) =>
      set { s with pages }
      return some { start, count }
  | none => return none

def iter (p : VallocPages) : List Nat := pagesFrom (p.start * pageSize) p.count

def drop (p : VallocPages) : Kernel Unit :=
  modify fun s => { s with pages := s.pages.deallocate p.start p.count }

end VallocPages

/-! ### Mappings in the kernel -/

structure VallocMapping where
  pages : VallocPages
  flags : EntryFlags
  frames : Frames
deriving DecidableEq

namespace VallocMapping

def new (flags : EntryFlags) (frames : Frames) : Kernel (Option VallocMapping) := do
  let some pages ← VallocPages.new frames.count | return none
  mapAll (pages.iter.zip frames.iter) flags
  return some { pages, flags, frames }

/-- The frames belong to the memory that the mapping is of. -/
def drop (v : VallocMapping) : Kernel Unit := do
  unmapAll v.pages.iter
  v.pages.drop

/-- The length of the slice. -/
def len (v : VallocMapping) : Nat := v.frames.count * pageSize

/-- The slice `[lo..hi]`. The pages of the mapping lead to its frames. -/
def read (v : VallocMapping) (lo hi : Nat) : Kernel (List UInt8) := do
  check (lo ≤ hi && hi ≤ v.len) .index
  let s ← get
  return (List.range (hi - lo)).map fun i => s.memory (v.frames.start * pageSize + lo + i)

/-- Memory after `len` bytes of the slice, from `lo` on, are set. -/
def filled (v : VallocMapping) (memory : Nat → UInt8) (lo len : Nat) (byte : Nat → UInt8) :
    Nat → UInt8 := fun a =>
  let base := v.frames.start * pageSize + lo
  if base ≤ a ∧ a < base + len then byte (a - base) else memory a

def fill (v : VallocMapping) (lo len : Nat) (byte : Nat → UInt8) : Kernel Unit :=
  modify fun s => { s with memory := v.filled s.memory lo len byte }

end VallocMapping

/-! ### Memory of a context -/

structure ContextMemory where
  vallocMapping : Option VallocMapping
  contextAddress : Nat
  contextMapped : Bool
  frames : Frames
  flags : EntryFlags
  /-- The frames and the mapping belong to another memory as well. -/
  shared : Bool
deriving DecidableEq

namespace ContextMemory

/-- The mapping goes with its last owner. -/
def dropMapping (m : ContextMemory) : Kernel Unit :=
  match m.vallocMapping with
  | some mapping => if m.shared then return () else mapping.drop
  | none => return ()

/-- And so do the frames. -/
def drop (m : ContextMemory) : Kernel Unit := do
  m.dropMapping
  if m.shared then return () else m.frames.drop

def new (count contextAddress : Nat) (flags : EntryFlags) : Kernel (Option ContextMemory) := do
  check (count != 0) (.expected "assertion failed: count != 0")
  let some frames ← Frames.new count | return none
  return some { vallocMapping := none, contextAddress, contextMapped := false, frames, flags,
                shared := false }

/-- The memory, with the address at which the kernel finds it. -/
def mapToKernel (m : ContextMemory) (flags : EntryFlags) :
    Kernel (ContextMemory × Option Nat) := do
  match m.vallocMapping with
  | some mapping => return (m, some (mapping.pages.start * pageSize))
  | none =>
      let some mapping ← VallocMapping.new flags m.frames | return (m, none)
      return ({ m with vallocMapping := some mapping }, some (mapping.pages.start * pageSize))

def newKernel (count : Nat) (flags : EntryFlags) : Kernel (Option (ContextMemory × Nat)) := do
  let some memory ← new count 0 flags | return none
  match ← memory.mapToKernel flags with
  | (memory, some address) => return some ({ memory with contextAddress := address }, address)
  | (memory, none) =>
      memory.drop
      return none

def lenBytes (m : ContextMemory) : Nat := m.frames.count * pageSize

/-- `as_slice_mut`, with the check of `VallocMapping::deref_mut`. -/
def asSliceMut (m : ContextMemory) : Kernel VallocMapping := do
  let mapping ← expect m.vallocMapping
    "Map the memory to kernel first, before attempting to access it"
  check (!m.shared) (.expected "Cannot mutate ref_cloned ContextMemory")
  check (mapping.flags.contains .writable)
    (.expected "Attemped to mutable dereference non-writable mapping")
  return mapping

def zero (m : ContextMemory) : Kernel Unit := do
  let mapping ← m.asSliceMut
  mapping.fill 0 mapping.len fun _ => 0

def mapContext (m : ContextMemory) : Kernel ContextMemory := do
  if m.contextMapped then return m
  mapAll ((pagesFrom m.contextAddress m.frames.count).zip m.frames.iter) m.flags
  return { m with contextMapped := true }

def unmapContext (m : ContextMemory) : Kernel ContextMemory := do
  if !m.contextMapped then return m
  unmapAll (pagesFrom m.contextAddress m.frames.count)
  return { m with contextMapped := false }

def refClone (m : ContextMemory) : ContextMemory :=
  { m with contextMapped := false, shared := true }

/-- New frames, mapped into the kernel, for a memory at the same address. -/
def cloneInternal (m : ContextMemory) (newCount : Option Nat) : Kernel (Option ContextMemory) := do
  let some frames ← Frames.new (newCount.getD m.frames.count) | return none
  match ← VallocMapping.new (EntryFlags.writable.union .noExecute) frames with
  | some mapping => return some { vallocMapping := some mapping, contextAddress := m.contextAddress,
                                  contextMapped := false, flags := m.flags, frames, shared := false }
  | none =>
      frames.drop
      return none

/-- The mapping to copy from. A new one is made even when there is one already, and
dropped again: `unwrap_or` takes its argument by value. -/
def oldMapping (m : ContextMemory) : Kernel (Option VallocMapping) := do
  let some mapping ← VallocMapping.new .noExecute m.frames | return none
  match m.vallocMapping with
  | some old =>
      mapping.drop
      return some old
  | none => return some mapping

/-- The mapping that was copied from goes, unless it is the one of the memory. -/
def dropOldMapping (m : ContextMemory) (old : VallocMapping) : Kernel Unit :=
  if m.vallocMapping.isNone then old.drop else return ()

def copyClone (m : ContextMemory) : Kernel (Option ContextMemory) := do
  let some old ← m.oldMapping | return none
  let some memory ← m.cloneInternal none
    | m.dropOldMapping old
      return none
  let dst ← memory.asSliceMut
  let src ← old.read 0 old.len
  check (dst.len == src.length) .index
  dst.fill 0 dst.len fun i => src.getD i 0
  m.dropOldMapping old
  return some memory

def dropKernelMapping (m : ContextMemory) : Kernel ContextMemory := do
  m.dropMapping
  return { m with vallocMapping := none }

/-- `resize`: the context's pages are unmapped and mapped in the active table. -/
def resize (m : ContextMemory) (newCount : Nat) : Kernel (Option ContextMemory) := do
  let some old ← m.oldMapping
    | m.drop
      return none
  let some memory ← m.cloneInternal (some newCount)
    | m.dropOldMapping old
      m.drop
      return none
  let dst ← memory.asSliceMut
  let src ← old.read 0 old.len
  -- What the old memory had is copied, and the rest is zero.
  dst.fill 0 dst.len fun i => src.getD i 0
  let m ← m.unmapContext
  let memory ← memory.mapContext
  m.dropOldMapping old
  m.drop
  return some memory

end ContextMemory

/-! ### Values of a context -/

/-- The trait `SOS`: a value that encodes itself into a slice of `encoded_len` bytes. -/
structure Sos where
  encodedLen : Nat
  encode : List UInt8 → Checked (List UInt8 × Nat)
  exact : ∀ buf, buf.length = encodedLen → ∃ out n, encode buf = .ok (out, n)

structure ContextValues where
  memory : Option ContextMemory
  offset : Nat

/-- `align_up!` on `usize`. -/
def alignUp (val align : Nat) : Nat := (val + (align - 1)) % 2 ^ 64 &&& (2 ^ 64 - align)

namespace ContextValues

/-- The memory with room for `need` more bytes. -/
def grow (v : ContextValues) (memory : ContextMemory) (need : Nat) : Kernel ContextMemory := do
  let length := memory.lenBytes
  if (length + 2 ^ 64 - v.offset) % 2 ^ 64 < need then
    expect (← memory.resize (alignUp ((length + need) % 2 ^ 64) pageSize / pageSize))
      "Resize failed"
  else return memory

/-- The address of the values, and what is left behind. -/
def appendEncode (v : ContextValues) (values : Sos) : Kernel (Nat × ContextValues) := do
  let memory ← expect v.memory "No argument memory mapped!"
  let need := values.encodedLen
  let memory ← v.grow memory need
  let vaddr := memory.contextAddress + v.offset
  let mapping ← memory.asSliceMut
  let slice ← mapping.read v.offset (v.offset + need)
  match values.encode slice with
  | .ok (out, _) =>
      mapping.fill v.offset need fun i => out.getD i 0
      return (vaddr, { memory := some memory, offset := v.offset + need })
  | .error fault => throw (.encode fault)

end ContextValues

/-! ### Mappings -/

theorem pagesFrom_pages {n count : Nat} (hcount : 0 < count) :
    pagesFrom (n * pageSize) count = List.range' n count := by
  have hlast : (n * pageSize + count * pageSize - 1) / pageSize = n + count - 1 := by
    simp only [pageSize]
    omega
  have hfirst : n * pageSize / pageSize = n := Nat.mul_div_cancel n (by decide)
  rw [pagesFrom, pagesOf, hlast, hfirst]
  congr 1
  omega

/-- The mapping is in the kernel half. -/
def VallocMapping.InKernel (v : VallocMapping) : Prop :=
  ∀ k, k < v.pages.count → userPages ≤ v.pages.start + k

theorem VallocMapping.InKernel.of_mem {v : VallocMapping} (h : v.InKernel) (hpos : 0 < v.pages.count)
    {page : Nat} (hpage : page ∈ v.pages.iter) : userPages ≤ page := by
  rw [VallocPages.iter, pagesFrom_pages hpos] at hpage
  exact (h 0 hpos).trans (List.mem_range'_1.mp hpage).1

/-- The pages of a new mapping were not mapped, and lead to the frames. -/
structure VallocMapping.Made (v : VallocMapping) (wanted : EntryFlags) (block : Frames)
    (s s' : System) : Prop where
  frames : v.frames = block
  flags : v.flags = wanted
  count : v.pages.count = block.count
  inKernel : v.InKernel
  entries : ∀ x ∈ v.pages.iter.zip block.iter, s.lookup s.recursive x.1 = none ∧
    s'.lookup s.recursive x.1 = some (x.2, wanted)

section Mappings

variable {s : System} {count : Nat} {flags : EntryFlags}

theorem Frames.new_spec : Ensures (Frames.new count) s fun o s' => Extends s s' ∧
    KernelOnly True s s' ∧ ∀ f, o = some f → f.count = count ∧ ∀ k, k < count →
      s.Loose (f.start + k) ∧ (s.toPool.Tabled → ¬ s'.Loose (f.start + k)) := by
  refine .seq allocateFrames_spec fun o s₁ ⟨hext, hkernel, hfree⟩ => ?_
  cases o with
  | none => exact .pure ⟨hext, hkernel, by simp⟩
  | some start =>
    refine .pure ⟨hext, hkernel, ?_⟩
    rintro _ ⟨⟩
    exact ⟨rfl, hfree start rfl⟩

theorem VallocPages.new_spec : Ensures (VallocPages.new count) s fun o s' =>
    Extends s s' ∧ KernelOnly True s s' ∧ ∀ p, o = some p → p.count = count ∧
      ∀ k, k < count → s.pages.free (p.start + k) = true := by
  refine .bind (.get ?_)
  cases h : s.pages.allocate count with
  | none => exact .pure ⟨refl_of Extends s, refl_of (KernelOnly True) s, by simp⟩
  | some r =>
    obtain ⟨start, pages⟩ := r
    have hremaps : Remaps s { s with pages } := ⟨⟨rfl, rfl, fun _ _ => rfl⟩, refl_of Pool.Within _⟩
    refine .bind (.set (.pure ⟨⟨hremaps, fun _ _ _ he => he, fun _ _ he => he⟩,
      ⟨hremaps, fun _ => rfl, fun p hp => .inl ((Allocator.free_allocate_iff h).mp hp).1⟩, ?_⟩))
    rintro _ ⟨⟩
    exact ⟨rfl, fun k hk => Allocator.free_of_allocate h hk⟩

theorem mem_zip_iter {pages : VallocPages} {frames : Frames} {page : Nat}
    (hcount : pages.count = frames.count) (hpos : 0 < frames.count) (hpage : page ∈ pages.iter) :
    ∃ frame, (page, frame) ∈ pages.iter.zip frames.iter := by
  have hlength : pages.iter.length = frames.iter.length := by
    rw [VallocPages.iter, Frames.iter, hcount, pagesFrom_pages hpos, pagesFrom_pages hpos]
    simp
  rw [← List.map_fst_zip hlength.le] at hpage
  obtain ⟨⟨_, frame⟩, hzip, rfl⟩ := List.mem_map.mp hpage
  exact ⟨frame, hzip⟩

namespace VallocMapping

theorem new_spec {frames : Frames} (hs : s.Sound) :
    Ensures (VallocMapping.new flags frames) s fun o s' => Extends s s' ∧
      KernelOnly (0 < frames.count) s s' ∧ ∀ v, o = some v → v.Made flags frames s s' := by
  refine .seq VallocPages.new_spec fun o s₁ ⟨hext, hkernel, hpages⟩ => ?_
  cases o with
  | none => exact .pure ⟨hext, hkernel.always, by simp⟩
  | some pages =>
    obtain ⟨hcount, hfree⟩ := hpages pages rfl
    have hin : InKernel ⟨pages, flags, frames⟩ := fun k hk => hs.pages _ (hfree k (hcount ▸ hk))
    refine .seq (mapAll_spec _ s₁) fun _ s₂ hmaps => .pure
      ⟨trans_of Extends hext hmaps.toExtends, trans_of (KernelOnly _) hkernel.always ⟨hmaps.toRemaps, ?_, ?_⟩, ?_⟩
    · intro hpos
      exact hmaps.high fun x hx => hin.of_mem (hcount.symm ▸ hpos) (List.of_mem_zip hx).1
    · exact fun page hp => .inl (hmaps.pages ▸ hp)
    · rintro _ ⟨⟩
      refine ⟨rfl, rfl, hcount, hin, fun x hx => ?_⟩
      obtain ⟨hnone, hsome⟩ := hmaps.entries x hx
      rw [hext.recursive] at hnone hsome
      exact ⟨hext.lookup_none hnone, hsome⟩

/-- Dropping a mapping unmaps its pages and no others. -/
theorem drop_spec {v : VallocMapping} : Ensures v.drop s fun _ s' => Remaps s s' ∧
    (∀ page, page ∉ v.pages.iter → s'.kernel page = s.kernel page) ∧
    (v.InKernel → KernelOnly (0 < v.pages.count) s s') := by
  refine .seq (unmapAll_spec v.pages.iter s) fun _ s₁ hunmaps => .of_modify ?_
  have hremaps : Remaps s { s₁ with pages := s₁.pages.deallocate v.pages.start v.pages.count } :=
    ⟨⟨hunmaps.cr3, hunmaps.recursive, hunmaps.others⟩, hunmaps.within⟩
  refine ⟨hremaps, hunmaps.kernel, fun hv => ⟨hremaps, ?_, fun page hp => ?_⟩⟩
  · exact fun hpos => hunmaps.high fun page hpage => hv.of_mem hpos hpage
  · rcases Allocator.free_deallocate_iff.mp hp with hp | hp
    · exact .inl (hunmaps.pages ▸ hp)
    · have hhigh := hv (page - v.pages.start) (by omega)
      exact .inr (by omega)

end VallocMapping

end Mappings

/-! ### Bytes -/

/-- All but the bytes stays. -/
def Writes (s s' : System) : Prop := ∃ memory, s' = { s with memory }

section Bytes

variable {s s' : System} {v : VallocMapping} {lo hi : Nat}

theorem Writes.extends (h : Writes s s') : Extends s s' := by
  obtain ⟨memory, rfl⟩ := h
  exact ⟨⟨⟨rfl, rfl, fun _ _ => rfl⟩, refl_of Pool.Within _⟩, fun _ _ _ he => he, fun _ _ he => he⟩

theorem Writes.kernelOnly {safe : Prop} (h : Writes s s') : KernelOnly safe s s' := by
  obtain ⟨memory, rfl⟩ := h
  exact ⟨⟨⟨rfl, rfl, fun _ _ => rfl⟩, refl_of Pool.Within _⟩, fun _ => rfl, fun _ hp => .inl hp⟩

namespace VallocMapping

theorem fill_spec {len : Nat} {byte : Nat → UInt8} :
    Ensures (v.fill lo len byte) s fun _ s' => Writes s s' :=
  .of_modify ⟨_, rfl⟩

theorem read_spec : Ensures (v.read lo hi) s fun _ s' => s' = s ∧ lo ≤ hi ∧ hi ≤ v.len := by
  refine .bind (ensures_check fun h => .bind (.get (.pure ⟨rfl, ?_⟩)))
  simpa using h

theorem read_run (hlo : lo ≤ hi) (hhi : hi ≤ v.len) :
    (v.read lo hi).run s = .ok ((List.range (hi - lo)).map fun i =>
      s.memory (v.frames.start * pageSize + lo + i), s) := by
  simp only [read, hlo, hhi, decide_true, Bool.and_self]
  rfl

end VallocMapping

namespace ContextMemory

variable {m : ContextMemory}

theorem asSliceMut_spec : Ensures m.asSliceMut s fun v s' => s' = s ∧ m.vallocMapping = some v :=
  .bind (ensures_orPanic fun _ hv => .bind (ensures_check fun _ => .bind (ensures_check fun _ =>
    .pure ⟨rfl, hv⟩)))

theorem asSliceMut_run (hv : m.vallocMapping = some v) (hshared : m.shared = false)
    (hwritable : v.flags.contains .writable = true) : m.asSliceMut.run s = .ok (v, s) := by
  simp only [asSliceMut, hv, hshared, Bool.not_false]
  refine (run_bind rfl).trans ?_
  rw [hwritable]
  rfl

theorem zero_spec : Ensures m.zero s fun _ s' => Writes s s' :=
  .seq asSliceMut_spec fun _ _ ⟨hs, _⟩ => hs ▸ VallocMapping.fill_spec

end ContextMemory

end Bytes

/-! ### Memory made of frames that could be taken -/

/-- A mapping of the memory is in the kernel half. -/
def ContextMemory.KernelMapped (m : ContextMemory) : Prop :=
  ∀ v, m.vallocMapping = some v → v.InKernel ∧ v.pages.count = m.frames.count

/-- The frames could be taken, and are taken. -/
structure Taken (m : ContextMemory) (s s' : System) : Prop where
  positive : 0 < m.frames.count
  loose : ∀ k, k < m.frames.count → s.Loose (m.frames.start + k)
  taken : ∀ k, k < m.frames.count → ¬ s'.Loose (m.frames.start + k)
  unmapped : m.contextMapped = false
  unshared : m.shared = false
  mapping : m.KernelMapped

theorem Taken.extend {m : ContextMemory} {s₀ s s' s₁ : System} (h₀ : Remaps s₀ s)
    (h : Taken m s s') (h₁ : Remaps s' s₁) : Taken m s₀ s₁ :=
  { h with
    loose := fun k hk => h₀.within.loose _ (h.loose k hk)
    taken := fun k hk hloose => h.taken k hk (h₁.within.loose _ hloose) }

namespace ContextMemory

variable {s : System} {m : ContextMemory}

theorem dropMapping_spec : Ensures m.dropMapping s fun _ s' => Remaps s s' ∧
    (m.KernelMapped → KernelOnly (0 < m.frames.count) s s') := by
  rw [dropMapping]
  split
  · next v hv =>
    split
    · exact .pure ⟨refl_of Remaps s, fun _ => refl_of (KernelOnly _) s⟩
    · refine VallocMapping.drop_spec.mono fun _ s' ⟨hremaps, _, hkernel⟩ => ⟨hremaps, fun h => ?_⟩
      exact (h v hv).2 ▸ hkernel (h v hv).1
  · exact .pure ⟨refl_of Remaps s, fun _ => refl_of (KernelOnly _) s⟩

theorem local_drop : Keeps Local m.drop := by
  refine Keeps.bind (fun s => dropMapping_spec.mono fun _ _ h => h.1.toLocal) fun _ => ?_
  split
  · exact .pure _
  · exact local_deallocateFrames

end ContextMemory

theorem Taken.dropMapping {m : ContextMemory} {s s₀ s₁ : System} (hm : Taken m s₀ s₁) :
    Ensures m.dropMapping s fun _ s' => KernelOnly True s s' :=
  ContextMemory.dropMapping_spec.mono fun _ _ h => (h.2 hm.mapping).mono fun _ => hm.positive

/-- Memory that was made since is dropped. -/
theorem Taken.drop {m : ContextMemory} {s s₀ : System} {safe : Prop} (h : KernelOnly safe s₀ s)
    (hm : Taken m s₀ s) : Ensures m.drop s fun _ s' => KernelOnly safe s₀ s' := by
  refine .seq hm.dropMapping fun _ s₁ h₁ => ?_
  rw [hm.unshared]
  have hm := hm.extend (refl_of Remaps s₀) h₁.toRemaps
  exact deallocateFrames_spec (trans_of (KernelOnly safe) h h₁.always) hm.loose hm.taken

/-- A copy of a memory, to be mapped at the same address. -/
structure CopyOf (m mc : ContextMemory) (s s' : System) : Prop extends Taken mc s s' where
  address : mc.contextAddress = m.contextAddress
  flags : mc.flags = m.flags

theorem CopyOf.extend {m mc : ContextMemory} {s₀ s s' s₁ : System} (h₀ : Remaps s₀ s)
    (h : CopyOf m mc s s') (h₁ : Remaps s' s₁) : CopyOf m mc s₀ s₁ :=
  ⟨h.toTaken.extend h₀ h₁, h.address, h.flags⟩

namespace ContextMemory

variable {s s₀ : System} {m : ContextMemory} {count address : Nat} {flags : EntryFlags}

theorem new_spec (hs : s.Sound) : Ensures (ContextMemory.new count address flags) s fun o s' =>
    KernelOnly True s s' ∧ ∀ m, o = some m → Taken m s s' ∧ m.frames.count = count ∧
      m = ⟨none, address, false, m.frames, flags, false⟩ := by
  refine .bind (ensures_check fun hpos => .seq Frames.new_spec fun o s₁ ⟨_, hkernel, hframes⟩ => ?_)
  cases o with
  | none => exact .pure ⟨hkernel, by simp⟩
  | some frames =>
    obtain ⟨hcount, hfree⟩ := hframes frames rfl
    refine .pure ⟨hkernel, ?_⟩
    rintro _ ⟨⟩
    refine ⟨⟨?_, fun k hk => (hfree k (hcount ▸ hk)).1, fun k hk => (hfree k (hcount ▸ hk)).2 hs.tabled,
      rfl, rfl, by simp [KernelMapped]⟩, hcount, rfl⟩
    rw [hcount]
    exact Nat.pos_of_ne_zero (by simpa using hpos)

theorem mem_zip_first {page : Nat} {frames : Frames} (hpos : 0 < frames.count) :
    (page, frames.start) ∈ (pagesFrom (page * pageSize) frames.count).zip frames.iter := by
  obtain ⟨n, hn⟩ := Nat.exists_eq_succ_of_ne_zero hpos.ne'
  rw [Frames.iter, pagesFrom_pages hpos, pagesFrom_pages hpos, hn]
  exact List.mem_cons_self

/-- Memory that was made since is mapped into the kernel. -/
theorem mapToKernel_spec (hs : s.Sound) (hm : Taken m s₀ s) (hnone : m.vallocMapping = none) :
    Ensures (m.mapToKernel flags) s fun r s' => KernelOnly True s s' ∧ ∃ mapping,
      r.1 = { m with vallocMapping := mapping } ∧ Taken r.1 s₀ s' ∧ ∀ a, r.2 = some a → ∃ v,
        mapping = some v ∧ v.frames = m.frames ∧ v.flags = flags ∧ a = v.pages.start * pageSize ∧
        userPages ≤ v.pages.start ∧
        s'.lookup s.recursive v.pages.start = some (m.frames.start, flags) := by
  rw [mapToKernel, hnone]
  refine .seq (VallocMapping.new_spec hs) fun o s₁ ⟨_, hkernel, hnew⟩ => ?_
  have htaken := hm.extend (refl_of Remaps s₀) hkernel.toRemaps
  have hkernel : KernelOnly True s s₁ := hkernel.mono fun _ => hm.positive
  cases o with
  | none => exact .pure ⟨hkernel, m.vallocMapping, rfl, htaken, by simp⟩
  | some v =>
    have hmade := hnew v rfl
    refine .pure ⟨hkernel, some v, rfl, { htaken with mapping := ?_ }, ?_⟩
    · rintro _ ⟨⟩
      exact ⟨hmade.inKernel, hmade.count⟩
    · rintro _ ⟨⟩
      refine ⟨v, rfl, hmade.frames, hmade.flags, rfl, ?_, (hmade.entries (_, _) ?_).2⟩
      · exact hmade.inKernel 0 (hmade.count ▸ hm.positive)
      · rw [VallocPages.iter, hmade.count]
        exact mem_zip_first hm.positive

theorem mapContext_spec : Ensures m.mapContext s fun m' s' => Extends s s' ∧ s'.pages = s.pages ∧
    m' = { m with contextMapped := true } ∧ (m.contextMapped = false →
      MapsAll ((pagesFrom m.contextAddress m.frames.count).zip m.frames.iter) m.flags s s') := by
  rw [mapContext]
  split
  · next h => exact .pure ⟨refl_of Extends s, rfl, by rw [← h], by simp [h]⟩
  · exact .seq (mapAll_spec _ s) fun _ s₁ hmaps => .pure
      ⟨hmaps.toExtends, hmaps.pages, rfl, fun _ => hmaps⟩

theorem unmapContext_spec : Ensures m.unmapContext s fun _ s' => Remaps s s' ∧
    (m.contextMapped = false → s' = s) := by
  rw [unmapContext]
  split
  · exact .pure ⟨refl_of Remaps s, fun _ => rfl⟩
  · next h =>
    exact .seq (unmapAll_spec _ s) fun _ s₁ hunmaps => .pure
      ⟨hunmaps.toRemaps, fun h' => by simp [h'] at h⟩

/-! ### Copies -/

theorem cloneInternal_spec {newCount : Option Nat} (hs : s.Sound) :
    Ensures (m.cloneInternal newCount) s fun o s' =>
      KernelOnly (0 < newCount.getD m.frames.count) s s' ∧ ∀ mc, o = some mc → Extends s s' ∧
        mc.contextMapped = false ∧ mc.frames.count = newCount.getD m.frames.count ∧
        mc.contextAddress = m.contextAddress ∧ mc.KernelMapped ∧
        (0 < mc.frames.count → CopyOf m mc s s') := by
  refine .seq Frames.new_spec fun o s₁ ⟨hext, hkernel, hframes⟩ => ?_
  cases o with
  | none => exact .pure ⟨hkernel.always, by simp⟩
  | some frames =>
    obtain ⟨hcount, hfree⟩ := hframes frames rfl
    refine .seq (VallocMapping.new_spec (hkernel.sound hs)) fun o s₂ ⟨hext₂, hkernel₂, hnew⟩ => ?_
    have hkernel₂ := trans_of (KernelOnly _) hkernel.always (hcount ▸ hkernel₂)
    have hnot : ∀ k, k < frames.count → ¬ s₂.Loose (frames.start + k) := fun k hk hloose =>
      (hfree k (hcount ▸ hk)).2 hs.tabled (hext₂.within.loose _ hloose)
    cases o with
    | none =>
      refine .seq (deallocateFrames_spec hkernel₂ ?_ hnot) fun _ s₃ h => .pure ⟨h, by simp⟩
      exact fun k hk => (hfree k (hcount ▸ hk)).1
    | some v =>
      refine .pure ⟨hkernel₂, ?_⟩
      rintro _ ⟨⟩
      have hmapped : KernelMapped ⟨some v, m.contextAddress, false, frames, m.flags, false⟩ := by
        rintro _ ⟨⟩
        exact ⟨(hnew v rfl).inKernel, (hnew v rfl).count⟩
      refine ⟨trans_of Extends hext hext₂, rfl, hcount, rfl, hmapped, fun hpos =>
        ⟨⟨hpos, fun k hk => (hfree k (hcount ▸ hk)).1, hnot, rfl, rfl, hmapped⟩, rfl, rfl⟩⟩

/-- The mapping that is made and dropped again leaves no trace. -/
theorem oldMapping_spec (hs : s.Sound) : Ensures m.oldMapping s fun o s' =>
    KernelOnly (0 < m.frames.count) s s' ∧
    (m.vallocMapping = none → ∀ v, o = some v → v.InKernel ∧ v.pages.count = m.frames.count) ∧
    (0 < m.frames.count → ∀ page e, userPages ≤ page → s.kernel page = some e →
      s'.kernel page = some e) := by
  refine .seq (VallocMapping.new_spec hs) fun o s₁ ⟨hext, hkernel, hnew⟩ => ?_
  cases o with
  | none => exact .pure ⟨hkernel, by simp, fun _ page e _ he => hext.kernel page e he⟩
  | some v =>
    have hmade := hnew v rfl
    dsimp only
    split
    · next old hold =>
      refine .seq VallocMapping.drop_spec fun _ s₂ ⟨_, hothers, hkernel₂⟩ => .pure
        ⟨trans_of (KernelOnly _) hkernel (hmade.count ▸ hkernel₂ hmade.inKernel), ?_,
          fun hpos page e huser he => ?_⟩
      · intro hnone
        cases hnone.symm.trans hold
      · rw [hothers page, hext.kernel page e he]
        -- A page of the mapping was not mapped when it was made.
        intro hpage
        obtain ⟨frame, hzip⟩ := mem_zip_iter hmade.count hpos hpage
        have hnone := (hmade.entries _ hzip).1
        rw [System.lookup, if_neg (by omega), he] at hnone
        cases hnone
    · refine .pure ⟨hkernel, ?_, fun _ page e _ he => hext.kernel page e he⟩
      rintro - _ ⟨⟩
      exact ⟨hmade.inKernel, hmade.count⟩

theorem dropOldMapping_spec {old : VallocMapping} : Ensures (m.dropOldMapping old) s fun _ s' =>
    Remaps s s' ∧ ((m.vallocMapping = none → old.InKernel ∧ old.pages.count = m.frames.count) →
      KernelOnly (0 < m.frames.count) s s') := by
  rw [dropOldMapping]
  split
  · next hnone =>
    refine VallocMapping.drop_spec.mono fun _ s' ⟨hremaps, _, hkernel⟩ => ⟨hremaps, fun h => ?_⟩
    obtain ⟨hin, hcount⟩ := h (Option.isNone_iff_eq_none.mp hnone)
    exact hcount ▸ hkernel hin
  · exact .pure ⟨refl_of Remaps s, fun _ => refl_of (KernelOnly _) s⟩

theorem copyClone_spec (hs : s.Sound) : Ensures m.copyClone s fun o s' => ∀ mc, o = some mc →
    KernelOnly (0 < m.frames.count) s s' ∧ mc.frames.count = m.frames.count ∧ mc.KernelMapped ∧
    (0 < m.frames.count → CopyOf m mc s s') := by
  refine .seq (oldMapping_spec hs) fun o s₁ ⟨hkernel₁, hold, _⟩ => ?_
  cases o with
  | none => exact .pure (by simp)
  | some old =>
    refine .seq (cloneInternal_spec (hkernel₁.sound hs)) fun o s₂ ⟨hkernel₂, hnew⟩ => ?_
    cases o with
    | none => exact .seq .any fun _ _ _ => .pure (by simp)
    | some mc =>
      obtain ⟨-, -, hcount, -, hmapped, hcopy⟩ := hnew mc rfl
      refine .seq asSliceMut_spec fun dst s₃ ⟨hs₃, _⟩ => ?_
      refine .seq VallocMapping.read_spec fun src s₄ ⟨hs₄, _⟩ => ?_
      refine .bind (ensures_check fun _ => .seq VallocMapping.fill_spec fun _ s₅ hwrites => ?_)
      refine .seq dropOldMapping_spec fun _ s₆ ⟨_, hkernel₆⟩ => .pure ?_
      subst hs₃ hs₄
      rintro _ ⟨⟩
      have hkernel := trans_of (KernelOnly _) hwrites.kernelOnly (hkernel₆ fun h => hold h old rfl)
      refine ⟨trans_of (KernelOnly _) hkernel₁ (trans_of (KernelOnly _) hkernel₂ hkernel), hcount, hmapped,
        fun hpos => ?_⟩
      exact (hcopy (hcount.symm ▸ hpos)).extend hkernel₁.toRemaps hkernel.toRemaps

/-! ### Other sizes -/

/-- Memory in the place of another, made of frames that could be taken. -/
structure Replaces (m m' : ContextMemory) (s : System) : Prop where
  address : m'.contextAddress = m.contextAddress
  loose : 0 < m'.frames.count → s.Loose m'.frames.start

/-- A memory that is resized stays in its place, with new frames. When it is in the
kernel half, where its pages are not unmapped, there is no room for it in its place. -/
theorem resize_spec {newCount : Nat} (hs : s.Sound) : Ensures (m.resize newCount) s fun o s' =>
    Local s s' ∧ ∀ m', o = some m' → Replaces m m' s ∧
      ∀ page e, 0 < m.frames.count → m.contextMapped = false → userPages ≤ page →
        m.contextAddress = page * pageSize → s.kernel page = some e → m'.frames.count = 0 := by
  refine .seq (oldMapping_spec hs) fun o s₁ ⟨hrem₁, _, hkernel₁⟩ => ?_
  cases o with
  | none =>
    refine .seq (local_drop s₁) fun _ s₂ h => .pure ⟨?_, by simp⟩
    exact trans_of Local hrem₁.toLocal h
  | some old =>
    refine .seq (cloneInternal_spec (hrem₁.sound hs)) fun o s₂ ⟨hrem₂, hnew⟩ => ?_
    have hloc₂ := trans_of Local hrem₁.toLocal hrem₂.toLocal
    cases o with
    | none =>
      refine .seq dropOldMapping_spec fun _ s₃ ⟨hrem₃, _⟩ => .seq (local_drop s₃)
        fun _ s₄ hloc₄ => .pure ⟨?_, by simp⟩
      exact trans_of Local hloc₂ (trans_of Local hrem₃.toLocal hloc₄)
    | some memory =>
      obtain ⟨hext₂, hmapped, -, haddress, -, hcopy⟩ := hnew memory rfl
      refine .seq asSliceMut_spec fun dst s₃ ⟨hs₃, _⟩ => ?_
      refine .seq VallocMapping.read_spec fun src s₄ ⟨hs₄, _⟩ => ?_
      refine .seq VallocMapping.fill_spec fun _ s₅ hwrites => ?_
      refine .seq unmapContext_spec fun _ s₆ ⟨hrem₆, hm₆⟩ => ?_
      refine .seq mapContext_spec fun memory₇ s₇ ⟨hext₇, _, hmemory₇, hmap⟩ => ?_
      refine .seq dropOldMapping_spec fun _ s₈ ⟨hrem₈, _⟩ => .seq (local_drop s₈)
        fun _ s₉ hloc₉ => .pure ?_
      subst hs₃ hs₄
      have hloc₆ := trans_of Local hwrites.extends.toLocal hrem₆.toLocal
      have hloc₉ := trans_of Local hext₇.toLocal (trans_of Local hrem₈.toLocal hloc₉)
      refine ⟨trans_of Local hloc₂ (trans_of Local hloc₆ hloc₉), ?_⟩
      rintro _ ⟨⟩
      rw [hmemory₇]
      refine ⟨⟨haddress, fun hpos => hrem₁.within.loose _ ((hcopy hpos).loose 0 hpos)⟩, ?_⟩
      intro page e hpos hunmapped huser hpage he
      by_contra hcount
      have he₅ := hwrites.extends.kernel page e (hext₂.kernel page e (hkernel₁ hpos page e huser he))
      have hzip := @mem_zip_first page memory.frames (Nat.pos_of_ne_zero hcount)
      rw [← haddress.trans hpage] at hzip
      have hnone := ((hmap hmapped).entries _ hzip).1
      rw [hm₆ hunmapped, System.lookup, if_neg (by omega), he₅] at hnone
      cases hnone

/-- The size that was asked for, and a mapping of all of it. -/
theorem resize_shape {n : Nat} : Ensures (m.resize n) s fun o _ => ∀ m', o = some m' →
    m'.frames.count = n ∧ ∀ v, m'.vallocMapping = some v → v.frames = m'.frames := by
  have hclone : ∀ s, Ensures (m.cloneInternal (some n)) s fun o _ => ∀ m', o = some m' →
      m'.frames.count = n ∧ ∀ v, m'.vallocMapping = some v → v.frames = m'.frames := by
    refine fun s => .seq Frames.new_spec fun o s₁ ⟨_, _, hframes⟩ => ?_
    cases o with
    | none => exact .pure (by simp)
    | some frames =>
      refine .bind (.seq .any fun o s₂ _ => ?_)
      cases o with
      | none => exact .pure (.seq .any fun _ _ _ => .pure (by simp))
      | some pages =>
        refine .seq .any fun _ s₃ _ => .pure (.pure ?_)
        rintro _ ⟨⟩
        refine ⟨(hframes frames rfl).1, ?_⟩
        rintro _ ⟨⟩
        rfl
  refine .seq .any fun o s₁ _ => ?_
  cases o with
  | none => exact .seq .any fun _ _ _ => .pure (by simp)
  | some old =>
    refine .seq (hclone s₁) fun o s₂ hshape => ?_
    cases o with
    | none => exact .seq .any fun _ _ _ => .seq .any fun _ _ _ => .pure (by simp)
    | some memory =>
      refine .seq .any fun dst _ _ => .seq .any fun src _ _ => .seq .any fun _ _ _ => ?_
      refine .seq .any fun m' _ _ => ?_
      refine .seq mapContext_spec fun memory' _ ⟨_, _, hmemory, _⟩ => ?_
      refine .seq .any fun _ _ _ => .seq .any fun _ _ _ => .pure ?_
      rintro _ ⟨⟩
      rw [hmemory]
      exact hshape memory rfl

end ContextMemory

/-! ### Values -/

namespace ContextValues

variable {v : ContextValues} {m m' : ContextMemory} {args : Sos} {s s' : System}

theorem grow_run_of_room (hroom : args.encodedLen ≤ (m.lenBytes + 2 ^ 64 - v.offset) % 2 ^ 64) :
    (v.grow m args.encodedLen).run s = .ok (m, s) := by
  rw [grow, if_neg (by omega)]
  rfl

/-- Once there is room, the values are encoded in place. -/
theorem appendEncode_run {mapping : VallocMapping} (hm : v.memory = some m)
    (hgrow : (v.grow m args.encodedLen).run s = .ok (m', s')) (hmapping : m'.vallocMapping = some mapping)
    (hshared : m'.shared = false) (hwritable : mapping.flags.contains .writable = true)
    (hlen : v.offset + args.encodedLen ≤ mapping.len) :
    ∃ out n, args.encode ((List.range args.encodedLen).map fun i =>
        s'.memory (mapping.frames.start * pageSize + v.offset + i)) = .ok (out, n) ∧
      (v.appendEncode args).run s = .ok ((m'.contextAddress + v.offset,
          { memory := some m', offset := v.offset + args.encodedLen }),
        { s' with memory := mapping.filled s'.memory v.offset args.encodedLen fun i => out.getD i 0 }) := by
  have hread := @VallocMapping.read_run s' mapping _ _ (Nat.le_add_right v.offset args.encodedLen) hlen
  rw [Nat.add_sub_cancel_left] at hread
  obtain ⟨out, n, hencode⟩ := args.exact ((List.range args.encodedLen).map fun i =>
    s'.memory (mapping.frames.start * pageSize + v.offset + i)) (by simp)
  refine ⟨out, n, hencode, ?_⟩
  have hexpect : (expect v.memory "No argument memory mapped!").run s = .ok (m, s) := by
    rw [hm]
    rfl
  rw [appendEncode, run_bind hexpect, run_bind hgrow,
    run_bind (ContextMemory.asSliceMut_run hmapping hshared hwritable), run_bind hread, hencode]
  rfl

end ContextValues

end Faastr.Spaces
