import Faastr.Spaces.Memory

/-!
Making contexts (`kernel/src/context/call.rs`): `spawn`, as far as memory goes.

A context of a module gets a page table of its own, with the module's image, one page
of arguments, a stack and a heap; a context of the kernel shares the page table of
the running one, and its arguments are in the kernel half.

* `newKernel_spec`, `freshMemory_spec`, `cloneWritable_spec`: the memory that `spawn` makes is
  made of frames that could be taken, and no page table of a context changes.
-/

namespace Faastr.Spaces

open Faastr.Lib Faastr.Memory Faastr.Paging

/-- `USER_ARG_OFFSET`. -/
def userArgOffset : Nat := 0x4000000000

/-- `USER_HEAP_OFFSET`. -/
def userHeapOffset : Nat := 0x8000000000

/-- `USER_STACK_OFFSET`. -/
def userStackOffset : Nat := 0x18000000000

/-- `USER_STACK_SIZE`. -/
def userStackSize : Nat := 1024 * 1024

/-- A module: the kernel, or an image that was loaded. -/
inductive Module where
  | kernel
  | image (segments : List ContextMemory)

/-- The memory of a context, and the frame of its P4. -/
structure Context where
  pageTable : Nat
  args : ContextValues
  kstack : Option ContextMemory
  stack : Option ContextMemory
  heap : Option ContextMemory
  image : List ContextMemory

/-- The flags of kernel stacks and of the arguments of kernel contexts. -/
def kernelFlags : EntryFlags := (EntryFlags.global.union .writable).union .noExecute

/-- The flags of the arguments, the stack and the heap. -/
def userFlags : EntryFlags := (EntryFlags.noExecute.union .writable).union .userAccessible

def spawnKernel : Kernel (Except String Context) := do
  let some (stack, _) ← ContextMemory.newKernel (65536 / pageSize) kernelFlags
    | return .error "Failed to allocate kernel stack"
  let some (args, _) ← ContextMemory.newKernel 1 kernelFlags
    | stack.drop
      return .error "Failed to allocate kernel args"
  return .ok { pageTable := (← get).cr3, args := { memory := some args, offset := 0 },
               kstack := some stack, stack := none, heap := none, image := [] }

/-- A part of the image that is written to is copied. -/
def cloneWritable (m : ContextMemory) : Kernel ContextMemory := do
  let memory ← expect (← m.copyClone) "Failed to allocate writable memory during spawn"
  memory.dropKernelMapping

/-- Memory of a new context: allocated, mapped into the kernel and zeroed. -/
def freshMemory (count address : Nat) (what : String) : Kernel ContextMemory := do
  let memory ← expect (← ContextMemory.new count address userFlags) what
  let (memory, mapped) ← memory.mapToKernel (EntryFlags.writable.union .noExecute)
  let _ ← expect mapped "Map failed"
  memory.zero
  return memory

def spawnImage (segments : List ContextMemory) : Kernel (Except String Context) := do
  let some (kstack, _) ← ContextMemory.newKernel (65536 / pageSize) kernelFlags
    | return .error "Failed to allocate kernel stack"
  let frame ← expect (← allocateFrames 1) "no more frames in syscall::clone new_table"
  newTable frame
  -- The kernel areas are entered into the new P4; all tables share that half.
  withTable frame (return ())
  let readonly := (segments.filter fun m => !m.flags.contains .writable).map (·.refClone)
  let writable ← (segments.filter fun m => m.flags.contains .writable).mapM cloneWritable
  let args ← freshMemory 1 userArgOffset "Failed to allocate args"
  let stack ← freshMemory (userStackSize / pageSize) userStackOffset "Failed to allocate stack"
  let heap ← freshMemory 1 userHeapOffset "Failed to allocate heap"
  withTable frame do
    let image ← (readonly ++ writable).mapM (·.mapContext)
    let args ← args.mapContext
    let stack ← stack.mapContext
    let heap ← heap.mapContext
    return .ok { pageTable := frame, args := { memory := some args, offset := 0 },
                 kstack := some kstack, stack := some stack, heap := some heap, image }

def spawn (m : Module) : Kernel (Except String Context) :=
  match m with
  | .kernel => spawnKernel
  | .image segments => spawnImage segments

/-! ### What a new context has -/

/-- The memory is mapped into the kernel, where it can be written. -/
def ContextMemory.KernelWritable (m : ContextMemory) : Prop :=
  ∃ v, m.vallocMapping = some v ∧ v.frames = m.frames ∧ v.flags.contains .writable = true

section Specs

variable {s : System} {count address : Nat} {flags : EntryFlags} {m : ContextMemory}

/-- Kernel memory is at the page that the kernel maps it to. -/
theorem ContextMemory.newKernel_spec (hs : s.Sound) (hwritable : flags.contains .writable = true) :
    Ensures (ContextMemory.newKernel count flags) s fun o s' => KernelOnly True s s' ∧
      ∀ r, o = some r → Taken r.1 s s' ∧ r.1.KernelWritable ∧ r.1.frames.count = count ∧ ∃ page,
        r.1.contextAddress = page * pageSize ∧ userPages ≤ page ∧
        s'.lookup s.recursive page = some (r.1.frames.start, flags) := by
  refine .seq (new_spec hs) fun o s₁ ⟨hkernel₁, hnew⟩ => ?_
  cases o with
  | none => exact .pure ⟨hkernel₁, by simp⟩
  | some m =>
    obtain ⟨htaken, hcount, hm⟩ := hnew m rfl
    refine .seq (mapToKernel_spec (hkernel₁.sound hs) htaken (by rw [hm]))
      fun r s₂ ⟨hkernel₂, mapping, hr, htaken₂, hmap⟩ => ?_
    have hkernel := trans_of (KernelOnly True) hkernel₁ hkernel₂
    obtain ⟨m₂, _ | a⟩ := r
    · exact .seq (htaken₂.drop hkernel) fun _ s₃ h => .pure ⟨h, by simp⟩
    · obtain ⟨v, rfl, hframes, hflags, rfl, hhigh, hlookup⟩ := hmap a rfl
      refine .pure ⟨hkernel, ?_⟩
      rintro _ ⟨⟩
      subst hr
      rw [hkernel₁.recursive] at hlookup
      exact ⟨{ htaken₂ with }, ⟨v, rfl, hframes, hflags ▸ hwritable⟩, hcount, v.pages.start, rfl, hhigh,
        hlookup⟩

/-- The arguments, the stack and the heap of a context. -/
theorem freshMemory_spec {what : String} (hs : s.Sound) :
    Ensures (freshMemory count address what) s fun m s' => KernelOnly True s s' ∧ Taken m s s' ∧
      m.KernelWritable ∧ m.frames.count = count ∧ m.contextAddress = address ∧ m.flags = userFlags := by
  refine .seq (ContextMemory.new_spec hs) fun o s₁ ⟨hkernel₁, hnew⟩ => ?_
  refine .bind (ensures_orPanic fun m hm => ?_)
  obtain ⟨htaken, hcount, hm⟩ := hnew m hm
  refine .seq (ContextMemory.mapToKernel_spec (hkernel₁.sound hs) htaken (by rw [hm]))
    fun r s₂ ⟨hkernel₂, mapping, hr, htaken₂, hmap⟩ => .bind (ensures_orPanic fun a ha => ?_)
  obtain ⟨v, hv, hframes, hflags, -⟩ := hmap a ha
  refine .seq ContextMemory.zero_spec fun _ s₃ hwrites => .pure ?_
  refine ⟨trans_of (KernelOnly True) hkernel₁ (trans_of (KernelOnly True) hkernel₂ hwrites.kernelOnly),
    htaken₂.extend (refl_of Remaps s) hwrites.extends.toRemaps, ?_, ?_⟩
  · rw [hr]
    exact ⟨v, hv, hframes, by rw [hflags]; decide⟩
  · rw [hr, hm]
    exact ⟨hcount, rfl, rfl⟩

/-- A part of the image that is written to. -/
theorem cloneWritable_spec (hs : s.Sound) : Ensures (cloneWritable m) s fun mc s' =>
    KernelOnly (0 < m.frames.count) s s' ∧ (0 < m.frames.count → CopyOf m mc s s') := by
  refine .seq (ContextMemory.copyClone_spec hs) fun o s₁ hclone => ?_
  refine .bind (ensures_orPanic fun mc hmc => ?_)
  obtain ⟨hkernel, hcount, hmapped, hcopy⟩ := hclone mc hmc
  refine .seq ContextMemory.dropMapping_spec fun _ s₂ ⟨_, hkernel₂⟩ => .pure ?_
  have hkernel₂ := hcount ▸ hkernel₂ hmapped
  refine ⟨trans_of (KernelOnly _) hkernel hkernel₂, fun hpos => ?_⟩
  have hcopy := (hcopy hpos).extend (refl_of Remaps s) hkernel₂.toRemaps
  exact { hcopy with mapping := by simp [ContextMemory.KernelMapped] }

theorem cloneAll_spec {segments : List ContextMemory} (hs : s.Sound) :
    Ensures (segments.mapM cloneWritable) s fun copies s' =>
      KernelOnly (∀ m ∈ segments, 0 < m.frames.count) s s' ∧
      ∀ mc ∈ copies, ∃ m ∈ segments, 0 < m.frames.count → CopyOf m mc s s' :=
  .mapM (R := KernelOnly (∀ m ∈ segments, 0 < m.frames.count))
    (P := fun m mc s s' => 0 < m.frames.count → CopyOf m mc s s') (fun _ _ h h' => h'.sound h)
    (fun _ _ _ _ _ _ h₀ h h₁ hpos => (h hpos).extend h₀.toRemaps h₁.toRemaps)
    (fun m hm _ h => (cloneWritable_spec h).mono fun _ _ ⟨hkernel, hcopy⟩ =>
      ⟨hkernel.mono fun hpos => hpos m hm, hcopy⟩) hs

end Specs

end Faastr.Spaces
