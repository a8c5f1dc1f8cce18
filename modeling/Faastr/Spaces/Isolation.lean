import Faastr.Lib.Transition
import Faastr.Spaces.NewSpace

/-!
Isolation of contexts, over runs of `load` and `spawn` (`kernel/src/context/load.rs`,
`kernel/src/context/call.rs`).

Between these calls any context may be made the active one, and the rest of the kernel may
do what it likes in the kernel half, as long as no frame that is in use is given to the
allocator (`Elsewhere`).

* `World.Inv`: what every step keeps. A frame in use is neither free nor a table of a lower
  level, and so it is not given out a second time.
* `isolated_of_run`: in every state of a run, what one page table can write is in no other
  page table and in no image, no page can be both written and executed, and the read-only
  part of an image is shared.
* `kernel_shares_table`: a context of the kernel has no page table of its own.
-/

namespace Faastr.Spaces

open Faastr.Lib Faastr.Memory Faastr.Paging Relation

/-! ### Runs -/

structure Spawned where
  module : Module
  context : Context

/-- The modules that were loaded, and the contexts that were spawned. -/
structure World where
  system : System
  modules : List LoadedModule
  contexts : List Spawned

inductive Action where
  | load (elf : Option Elf)
  | spawnKernel
  /-- A context of one of the modules. -/
  | spawn (module : Nat)
  /-- A switch to one of the contexts. -/
  | activate (context : Nat)

/-- The frame is one of the memory. -/
def ContextMemory.HasFrame (m : ContextMemory) (f : Nat) : Prop :=
  ∃ k, k < m.frames.count ∧ f = m.frames.start + k

namespace Spawned

/-- The frame of the P4. -/
def table (c : Spawned) : Nat := c.context.pageTable

end Spawned

namespace World

def spawnModule (w : World) (module : Module) : Option World :=
  match (Spaces.spawn module).run w.system with
  | .ok (.ok context, system) => some { w with system, contexts := w.contexts ++ [⟨module, context⟩] }
  | .ok (.error _, system) => some { w with system }
  | .error _ => none

/-- A call, unless the kernel panics. -/
def act (w : World) : Action → Option World
  | .load elf =>
      match (Spaces.load elf).run w.system with
      | .ok (.ok module, system) => some { w with system, modules := w.modules ++ [module] }
      | .ok (.error _, system) => some { w with system }
      | .error _ => none
  | .spawnKernel => w.spawnModule .kernel
  | .spawn module => do
      let module ← w.modules[module]?
      w.spawnModule (.image module.image)
  | .activate context => do
      let c ← w.contexts[context]?
      return { w with system := { w.system with cr3 := c.table, recursive := c.table } }

/-- The frames in use: the page tables of contexts, what they lead to, and the images. -/
inductive Owns (w : World) (f : Nat) : Prop where
  | table {c : Spawned} (hc : c ∈ w.contexts) (hf : c.table = f)
  | mapped {c : Spawned} (hc : c ∈ w.contexts) {page : Nat} {flags : EntryFlags}
      (hf : w.system.user c.table page = some (f, flags))
  | image {module : LoadedModule} (hmodule : module ∈ w.modules) {m : ContextMemory}
      (hm : m ∈ module.image) (hf : m.HasFrame f)

/-- What the rest of the kernel may do, and the contexts themselves. -/
structure Elsewhere (w : World) (s : System) : Prop extends s.Sound where
  cr3 : s.cr3 = w.system.cr3
  recursive : s.recursive = w.system.recursive
  user : s.user = w.system.user
  owned : ∀ f, w.Owns f → ¬ s.Loose f

inductive Step (w : World) : World → Prop where
  | act {a : Action} {w' : World} (h : w.act a = some w') : Step w w'
  | elsewhere {s : System} (h : w.Elsewhere s) : Step w { w with system := s }

/-- One context of the kernel, in a page table without user pages. -/
structure Booted (w : World) : Prop where
  running : w.system.Running
  modules : w.modules = []
  contexts : ∃ c, w.contexts = [⟨.kernel, c⟩] ∧ c.pageTable = w.system.cr3
  user : w.system.user w.system.cr3 = fun _ => none

/-! ### Isolation -/

/-- What can be written through one table is not in the other. -/
def Separate (s : System) (table table' : Nat) : Prop :=
  ∀ page page' f flags flags', s.user table page = some (f, flags) →
    flags.contains .writable = true → s.user table' page' ≠ some (f, flags')

structure Isolated (w : World) : Prop where
  /-- A context of a module that was loaded has a page table of its own. -/
  tables : w.contexts.Pairwise fun c c' => c'.module ≠ .kernel → c'.table ≠ c.table
  separate : ∀ c ∈ w.contexts, ∀ c' ∈ w.contexts, c.table ≠ c'.table →
    Separate w.system c.table c'.table
  image : ∀ c ∈ w.contexts, ∀ page f flags, w.system.user c.table page = some (f, flags) →
    flags.contains .writable = true → ∀ module ∈ w.modules, ∀ m ∈ module.image, ¬ m.HasFrame f
  wx : ∀ c ∈ w.contexts, ∀ page e, w.system.user c.table page = some e → WriteXorExecute e.2
  loaded : ∀ c ∈ w.contexts, ∀ segments, c.module = .image segments →
    ∃ module ∈ w.modules, module.image = segments
  /-- A page of an image that is read only leads to the frame of the module. -/
  readOnly : ∀ c ∈ w.contexts, ∀ segments, c.module = .image segments → ∀ m ∈ segments,
    m.flags.contains .writable = false → ∀ page e, page < userPages → m.Maps page e →
      w.system.user c.table page = some e

structure Inv (w : World) : Prop extends Isolated w where
  recursive : w.system.recursive = w.system.cr3
  active : ∃ c ∈ w.contexts, c.table = w.system.cr3
  sound : w.system.Sound
  owned : ∀ f, w.Owns f → ¬ w.system.Loose f
  segments : ∀ module ∈ w.modules, ∀ m ∈ module.image, Segment m

namespace Inv

variable {w : World} {s : System}

theorem running (h : w.Inv) : w.system.Running := by
  obtain ⟨c, hc, htable⟩ := h.active
  exact ⟨h.sound, h.recursive, htable ▸ h.owned _ (.table hc rfl)⟩

theorem of_booted (h : w.Booted) : w.Inv := by
  obtain ⟨c, hcontexts, htable⟩ := h.contexts
  have hmem : ∀ c' ∈ w.contexts, c'.module = .kernel ∧ c'.table = w.system.cr3 := by
    rw [hcontexts]
    intro c' hc'
    rw [List.mem_singleton.mp hc']
    exact ⟨rfl, htable⟩
  have huser : ∀ c' ∈ w.contexts, ∀ page e, w.system.user c'.table page ≠ some e := by
    intro c' hc' page e he
    rw [(hmem c' hc').2, h.user] at he
    cases he
  have himage : ∀ c' ∈ w.contexts, ∀ segments, c'.module ≠ .image segments := by
    intro c' hc' segments hmodule
    cases (hmem c' hc').1.symm.trans hmodule
  have hmodules : ∀ module, module ∉ w.modules := by
    rw [h.modules]
    exact fun _ => List.not_mem_nil
  refine ⟨⟨?_, ?_, ?_, ?_, ?_, ?_⟩, h.running.recursive, ?_, h.running.toSound, ?_,
    fun module hmodule => absurd hmodule (hmodules module)⟩
  · rw [hcontexts]
    exact List.pairwise_singleton ..
  · exact fun c hc c' _ _ page _ _ _ _ he => absurd he (huser c hc page _)
  · exact fun c hc page _ _ he => absurd he (huser c hc page _)
  · exact fun c hc page e he => absurd he (huser c hc page e)
  · exact fun c hc segments hmodule => absurd hmodule (himage c hc segments)
  · exact fun c hc segments hmodule => absurd hmodule (himage c hc segments)
  · exact ⟨⟨.kernel, c⟩, hcontexts ▸ List.mem_singleton_self _, htable⟩
  · intro f hf
    cases hf with
    | table hc hf =>
      rw [← hf, (hmem _ hc).2]
      exact h.running.cr3
    | mapped hc hf => exact absurd hf (huser _ hc _ _)
    | image hmodule => exact absurd hmodule (hmodules _)

/-- What happens elsewhere. -/
theorem elsewhere (h : w.Inv) (hs : w.Elsewhere s) : Inv { w with system := s } := by
  have huser := hs.user
  refine ⟨⟨h.tables, ?_, ?_, ?_, h.loaded, ?_⟩, ?_, ?_, hs.toSound, ?_, h.segments⟩
  · intro c hc c' hc' hne page page' f flags flags' he
    rw [huser] at he ⊢
    exact h.separate c hc c' hc' hne page page' f flags flags' he
  · intro c hc page f flags he
    rw [huser] at he
    exact h.image c hc page f flags he
  · intro c hc page e he
    rw [huser] at he
    exact h.wx c hc page e he
  · intro c hc segments hmodule m hm hreadOnly page e hpage hmaps
    rw [huser]
    exact h.readOnly c hc segments hmodule m hm hreadOnly page e hpage hmaps
  · exact hs.recursive.trans (h.recursive.trans hs.cr3.symm)
  · obtain ⟨c, hc, htable⟩ := h.active
    exact ⟨c, hc, htable.trans hs.cr3.symm⟩
  · intro f hf
    refine hs.owned f ?_
    cases hf with
    | table hc hf => exact .table hc hf
    | mapped hc hf => exact .mapped hc (huser ▸ hf)
    | image hmodule hm hf => exact .image hmodule hm hf

/-- A frame that could not be taken is not given out. -/
theorem not_loose {f : Nat} (h : w.Inv) (hwithin : Pool.Within w.system.toPool s.toPool)
    (hf : w.Owns f) : ¬ s.Loose f :=
  fun hloose => h.owned f hf (hwithin.loose f hloose)

/-- Code that works in the kernel half. -/
theorem kernelOnly (h : w.Inv) (hkernel : KernelOnly True w.system s) : Inv { w with system := s } :=
  h.elsewhere ⟨hkernel.sound h.sound, hkernel.cr3, hkernel.recursive, hkernel.user trivial,
    fun _ => h.not_loose hkernel.within⟩

theorem activate (h : w.Inv) {c : Spawned} (hc : c ∈ w.contexts) :
    Inv { w with system := { w.system with cr3 := c.table, recursive := c.table } } where
  tables := h.tables
  separate := h.separate
  image := h.image
  wx := h.wx
  loaded := h.loaded
  readOnly := h.readOnly
  recursive := rfl
  active := ⟨c, hc, rfl⟩
  sound := ⟨h.sound.pages, h.sound.tabled⟩
  owned f hf := by
    refine h.owned f ?_
    cases hf with
    | table hc hf => exact .table hc hf
    | mapped hc hf => exact .mapped hc hf
    | image hmodule hm hf => exact .image hmodule hm hf
  segments := h.segments

/-- A module of frames that no context has. -/
theorem addModule (h : w.Inv) {module : LoadedModule} (hsegments : ∀ m ∈ module.image, Segment m)
    (hnew : ∀ m ∈ module.image, ∀ f, m.HasFrame f → ¬ w.Owns f)
    (htaken : ∀ m ∈ module.image, ∀ f, m.HasFrame f → ¬ w.system.Loose f) :
    Inv { w with modules := w.modules ++ [module] } := by
  have hmem : ∀ module', module' ∈ w.modules ++ [module] → module' ∈ w.modules ∨ module' = module := by
    intro module' hmodule
    exact (List.mem_append.mp hmodule).imp_right List.mem_singleton.mp
  refine ⟨⟨h.tables, h.separate, ?_, h.wx, ?_, h.readOnly⟩, h.recursive, h.active, h.sound, ?_, ?_⟩
  · intro c hc page f flags he hwritable module' hmodule m hm hframe
    rcases hmem module' hmodule with hmodule | rfl
    · exact h.image c hc page f flags he hwritable module' hmodule m hm hframe
    · exact hnew m hm f hframe (.mapped hc he)
  · intro c hc segments hmodule
    obtain ⟨module', hmodule', rfl⟩ := h.loaded c hc segments hmodule
    exact ⟨module', List.mem_append_left _ hmodule', rfl⟩
  · intro f hf
    cases hf with
    | table hc hf => exact h.owned f (.table hc hf)
    | mapped hc hf => exact h.owned f (.mapped hc hf)
    | image hmodule hm hf =>
      rcases hmem _ hmodule with hmodule | rfl
      · exact h.owned f (.image hmodule hm hf)
      · exact htaken _ hm f hf
  · intro module' hmodule
    rcases hmem module' hmodule with hmodule | rfl
    · exact h.segments module' hmodule
    · exact hsegments

theorem mem_concat {c c' : Spawned} (hc : c' ∈ w.contexts ++ [c]) : c' ∈ w.contexts ∨ c' = c :=
  (List.mem_append.mp hc).imp_right List.mem_singleton.mp

/-- A context of the kernel, in the table that is active. -/
theorem addKernel (h : w.Inv) {c : Context} (hc : c.pageTable = w.system.cr3) :
    Inv { w with contexts := w.contexts ++ [⟨.kernel, c⟩] } := by
  obtain ⟨active, hactive, htable⟩ := h.active
  -- The table of each context is one of the contexts there were.
  have hold : ∀ c' ∈ w.contexts ++ [⟨.kernel, c⟩], ∃ old ∈ w.contexts, c'.table = old.table := by
    intro c' hc'
    rcases mem_concat hc' with hc' | rfl
    · exact ⟨c', hc', rfl⟩
    · exact ⟨active, hactive, hc.trans htable.symm⟩
  have himage : ∀ c' ∈ w.contexts ++ [⟨.kernel, c⟩], ∀ segments, c'.module = .image segments →
      c' ∈ w.contexts := by
    intro c' hc' segments hmodule
    rcases mem_concat hc' with hc' | rfl
    · exact hc'
    · cases hmodule
  refine ⟨⟨?_, ?_, ?_, ?_, ?_, ?_⟩, h.recursive, ?_, h.sound, ?_, h.segments⟩
  · refine List.pairwise_append.mpr ⟨h.tables, List.pairwise_singleton .., fun a _ b hb hb' => ?_⟩
    rw [List.mem_singleton.mp hb] at hb'
    exact absurd rfl hb'
  · intro c₁ hc₁ c₂ hc₂ hne
    obtain ⟨old₁, hold₁, htable₁⟩ := hold c₁ hc₁
    obtain ⟨old₂, hold₂, htable₂⟩ := hold c₂ hc₂
    rw [htable₁, htable₂] at hne ⊢
    exact h.separate old₁ hold₁ old₂ hold₂ hne
  · intro c' hc' page f flags he
    obtain ⟨old, hold, htable⟩ := hold c' hc'
    exact h.image old hold page f flags (htable ▸ he)
  · intro c' hc' page e he
    obtain ⟨old, hold, htable⟩ := hold c' hc'
    exact h.wx old hold page e (htable ▸ he)
  · exact fun c' hc' segments hmodule => h.loaded c' (himage c' hc' segments hmodule) segments hmodule
  · exact fun c' hc' segments hmodule => h.readOnly c' (himage c' hc' segments hmodule) segments hmodule
  · exact ⟨active, List.mem_append_left _ hactive, htable⟩
  · intro f hf
    cases hf with
    | table hc' hf =>
      obtain ⟨old, hold, htable⟩ := hold _ hc'
      exact h.owned f (.table hold (htable ▸ hf))
    | mapped hc' hf =>
      obtain ⟨old, hold, htable⟩ := hold _ hc'
      exact h.owned f (.mapped hold (htable ▸ hf))
    | image hmodule hm hf => exact h.owned f (.image hmodule hm hf)

/-- What can be written in a new space could be taken. -/
theorem loose_of_writable {segments : List ContextMemory} {c : Context} {s' : System}
    (hnew : NewSpace segments c s s') {page f : Nat} {flags : EntryFlags}
    (he : s'.user c.pageTable page = some (f, flags)) (hwritable : flags.contains .writable = true) :
    s.Loose f := by
  rcases hnew.entries page _ he with ⟨m, -, hreadOnly, k, -, -, hentry⟩ | ⟨hloose, -, -⟩
  · cases hentry
    cases hreadOnly.symm.trans hwritable
  · exact hloose

/-- A context of a module, in a table of its own. -/
theorem addImage (h : w.Inv) {module : LoadedModule} (hmodule : module ∈ w.modules) {c : Context}
    (hnew : NewSpace module.image c w.system s) :
    Inv { w with system := s, contexts := w.contexts ++ [⟨.image module.image, c⟩] } := by
  have hunowned : ∀ {f}, w.system.Loose f → ¬ w.Owns f := fun hloose hf => h.owned _ hf hloose
  -- The frame of the new table could be taken, so the other tables are what they were.
  have hne : ∀ c' ∈ w.contexts, c'.table ≠ c.pageTable := fun c' hc' htable =>
    hunowned hnew.tableLoose (.table hc' htable)
  have hold : ∀ c' ∈ w.contexts, s.user c'.table = w.system.user c'.table := fun c' hc' =>
    hnew.others _ (hne c' hc')
  refine ⟨⟨?_, ?_, ?_, ?_, ?_, ?_⟩, ?_, ?_, hnew.toSound, ?_, h.segments⟩
  · refine List.pairwise_append.mpr ⟨h.tables, List.pairwise_singleton .., fun a ha b hb _ => ?_⟩
    rw [List.mem_singleton.mp hb]
    exact (hne a ha).symm
  · intro c₁ hc₁ c₂ hc₂ htables page page' f flags flags' he hwritable he'
    rcases mem_concat hc₁ with hc₁ | rfl
    · rw [hold c₁ hc₁] at he
      rcases mem_concat hc₂ with hc₂ | rfl
      · rw [hold c₂ hc₂] at he'
        exact h.separate c₁ hc₁ c₂ hc₂ htables page page' f flags flags' he hwritable he'
      · -- The new table leads to images and to frames that could be taken.
        rcases hnew.entries page' _ he' with ⟨m, hm, -, k, hk, -, hentry⟩ | ⟨hloose, -, -⟩
        · exact h.image c₁ hc₁ page f flags he hwritable module hmodule m hm
            ⟨k, hk, congrArg Prod.fst hentry⟩
        · exact hunowned hloose (.mapped hc₁ he)
    · rcases mem_concat hc₂ with hc₂ | rfl
      · rw [hold c₂ hc₂] at he'
        exact hunowned (loose_of_writable hnew he hwritable) (.mapped hc₂ he')
      · exact htables rfl
  · intro c' hc' page f flags he hwritable module' hmodule' m hm hframe
    rcases mem_concat hc' with hc' | rfl
    · rw [hold c' hc'] at he
      exact h.image c' hc' page f flags he hwritable module' hmodule' m hm hframe
    · exact hunowned (loose_of_writable hnew he hwritable) (.image hmodule' hm hframe)
  · intro c' hc' page e he
    rcases mem_concat hc' with hc' | rfl
    · rw [hold c' hc'] at he
      exact h.wx c' hc' page e he
    · rcases hnew.entries page e he with ⟨m, hm, -, k, -, -, rfl⟩ | ⟨-, -, hwx⟩
      · exact (h.segments module hmodule m hm).wx
      · exact hwx
  · intro c' hc' segments hsegments
    rcases mem_concat hc' with hc' | rfl
    · exact h.loaded c' hc' segments hsegments
    · cases hsegments
      exact ⟨module, hmodule, rfl⟩
  · intro c' hc' segments hsegments m hm hreadOnly page e hpage hmaps
    rcases mem_concat hc' with hc' | rfl
    · rw [hold c' hc']
      exact h.readOnly c' hc' segments hsegments m hm hreadOnly page e hpage hmaps
    · cases hsegments
      exact hnew.readOnly m hm hreadOnly page e hpage hmaps
  · exact hnew.recursive.trans (h.recursive.trans hnew.cr3.symm)
  · obtain ⟨active, hactive, htable⟩ := h.active
    exact ⟨active, List.mem_append_left _ hactive, htable.trans hnew.cr3.symm⟩
  · intro f hf
    cases hf with
    | table hc' hf =>
      rcases mem_concat hc' with hc' | rfl
      · exact h.not_loose hnew.within (.table hc' hf)
      · exact hf ▸ hnew.tableTaken
    | mapped hc' hf =>
      rcases mem_concat hc' with hc' | rfl
      · rw [hold _ hc'] at hf
        exact h.not_loose hnew.within (.mapped hc' hf)
      · rcases hnew.entries _ _ hf with ⟨m, hm, -, k, hk, -, hentry⟩ | ⟨-, htaken, -⟩
        · exact h.not_loose hnew.within (.image hmodule hm ⟨k, hk, congrArg Prod.fst hentry⟩)
        · exact htaken
    | image hmodule' hm hf => exact h.not_loose hnew.within (.image hmodule' hm hf)

/-! ### Steps -/

theorem load (h : w.Inv) {elf : Option Elf} {w' : World} (hact : w.act (.load elf) = some w') :
    w'.Inv := by
  have hload := @load_image w.system elf h.sound
  rw [act] at hact
  split at hact
  · next module s hrun =>
    obtain ⟨hkernel, himage⟩ := hload _ _ hrun
    have himage := himage module rfl
    cases hact
    refine (h.kernelOnly hkernel).addModule (fun m hm => (himage m hm).2) ?_ ?_
    · rintro m hm f ⟨k, hk, rfl⟩ hf
      have hf : w.Owns (m.frames.start + k) := by
        cases hf with
        | table hc hf => exact .table hc hf
        | mapped hc hf => exact .mapped hc (hkernel.user trivial ▸ hf)
        | image hmodule hm hf => exact .image hmodule hm hf
      exact h.owned _ hf ((himage m hm).1.loose k hk)
    · rintro m hm f ⟨k, hk, rfl⟩
      exact (himage m hm).1.taken k hk
  · next e s hrun =>
    cases hact
    exact h.kernelOnly (hload _ _ hrun).1
  · cases hact

theorem spawnKernel (h : w.Inv) {w' : World} (hact : w.act .spawnKernel = some w') : w'.Inv := by
  have hspawn := @spawnKernel_spec w.system h.running
  rw [act, spawnModule] at hact
  split at hact
  · next c s hrun =>
    obtain ⟨hkernel, htable⟩ := hspawn _ _ hrun
    cases hact
    exact (h.kernelOnly hkernel).addKernel ((htable c rfl).1.trans hkernel.cr3.symm)
  · next e s hrun =>
    cases hact
    exact h.kernelOnly (hspawn _ _ hrun).1
  · cases hact

theorem spawn (h : w.Inv) {i : Nat} {w' : World} (hact : w.act (.spawn i) = some w') : w'.Inv := by
  obtain ⟨module, hmodule, hact⟩ := Option.bind_eq_some_iff.mp hact
  have hmodule := List.mem_of_getElem? hmodule
  have hspawn := @spawnImage_spec w.system module.image h.running
  rw [spawnModule] at hact
  split at hact
  · next c s hrun =>
    cases hact
    exact h.addImage hmodule (((hspawn _ _ hrun).2 c rfl).2 (h.segments module hmodule))
  · next e s hrun =>
    cases hact
    exact h.kernelOnly ((hspawn _ _ hrun).1 e rfl)
  · cases hact

theorem step (h : w.Inv) {w' : World} (hstep : w.Step w') : w'.Inv := by
  cases hstep with
  | @act a _ hact =>
    cases a with
    | load elf => exact h.load hact
    | spawnKernel => exact h.spawnKernel hact
    | spawn i => exact h.spawn hact
    | activate i =>
      obtain ⟨c, hc, hact⟩ := Option.bind_eq_some_iff.mp hact
      cases hact
      exact h.activate (List.mem_of_getElem? hc)
  | elsewhere hs => exact h.elsewhere hs

end Inv

/-- **Contexts of modules are isolated**, in every state of a run. Contexts that share a page table
are contexts of the kernel. -/
theorem isolated_of_run {w₀ w : World} (hboot : w₀.Booted) (hrun : ReflTransGen Step w₀ w) :
    w.Isolated :=
  (invariant_of_step Inv hrun (.of_booted hboot) fun _ _ h hstep => h.step hstep).toIsolated

/-! ### A run -/

/-- The argument page of one context can be written, and is in the table of the other. -/
def sharesArguments (i j : Nat) (w : World) : Bool :=
  match w.contexts[i]?, w.contexts[j]? with
  | some c, some c' =>
      match w.system.user c.table (userArgOffset / pageSize),
        w.system.user c'.table (userArgOffset / pageSize) with
      | some (f, flags), some (f', _) => f == f' && flags.contains .writable
      | _, _ => false
  | _, _ => false

theorem not_separate_of_sharesArguments {i j : Nat} {w : World} (h : sharesArguments i j w = true) :
    ∃ c c', w.contexts[i]? = some c ∧ w.contexts[j]? = some c' ∧
      ¬ Separate w.system c.table c'.table := by
  unfold sharesArguments at h
  split at h
  · next c c' hc hc' =>
    split at h
    · next f flags f' flags' he he' =>
      obtain ⟨hf, hwritable⟩ := Bool.and_eq_true_iff.mp h
      rw [← eq_of_beq hf] at he'
      exact ⟨c, c', hc, hc', fun hseparate => hseparate _ _ f flags flags' he hwritable he'⟩
    · cases h
  · cases h

def bootContext : Context := ⟨1, ⟨none, 0⟩, none, none, none, []⟩

def bootWorld : World where
  system :=
    { user := fun _ _ => none, kernel := fun _ => none, cr3 := 1, recursive := 1,
      frames := .firstFit 1024 256 96, tables := fun _ => none, deallocated := [],
      pages := .firstFit userPages 256 16, memory := fun _ => 0 }
  modules := []
  contexts := [⟨.kernel, bootContext⟩]

theorem bootWorld_booted : bootWorld.Booted where
  running := ⟨⟨fun _ hpage => of_decide_eq_true hpage, by simp [bootWorld], by simp [bootWorld]⟩, rfl,
    by simp [Pool.Loose, bootWorld, Allocator.firstFit]⟩
  modules := rfl
  contexts := ⟨bootContext, rfl, rfl⟩
  user := rfl

/-- A page of code and a page of data. -/
def twoSegments : Elf where
  data := [0x90, 0xc3, 1, 2]
  segments := [⟨ptLoad, pfR ||| pfX, 0, 0x1000, 2, 2⟩, ⟨ptLoad, pfR ||| pfW, 2, 0x2000, 2, 2⟩]
  manifest := .ok ⟨"m", [⟨"f", 0x1000⟩]⟩

/-- The module is loaded, a context of it is spawned and made the active one, the kernel spawns a
context of its own, and then there is a second context of the module. -/
theorem exists_two_spawned : ∃ w, ReflTransGen Step bootWorld w ∧
    sharesArguments 1 2 w = true ∧ ∃ c c', w.contexts[1]? = some c ∧ w.contexts[3]? = some c' ∧
      c.table ≠ c'.table := by
  have heval : ([.load (some twoSegments), .spawn 0, .activate 1, .spawnKernel, .spawn 0].foldlM act
      bootWorld).any (fun w => sharesArguments 1 2 w &&
        match w.contexts[1]?, w.contexts[3]? with
        | some c, some c' => c.table != c'.table
        | _, _ => false) = true := by decide +kernel
  obtain ⟨w, hrun, htest⟩ := (Option.any_eq_true ..).mp heval
  obtain ⟨hshares, htables⟩ := Bool.and_eq_true_iff.mp htest
  refine ⟨w, reaches_of_foldlM (fun a _ _ _ hact => .act hact) hrun, hshares, ?_⟩
  split at htables
  · next c c' hc hc' => exact ⟨c, c', hc, hc', by simpa using htables⟩
  · cases htables

theorem bootWorld_run_isolated : ∃ w, ReflTransGen Step bootWorld w ∧ w.Isolated ∧
    ∃ c c', w.contexts[1]? = some c ∧ w.contexts[3]? = some c' ∧ c.table ≠ c'.table ∧
      Separate w.system c.table c'.table := by
  obtain ⟨w, hrun, -, c, c', hc, hc', hne⟩ := exists_two_spawned
  have hisolated := isolated_of_run bootWorld_booted hrun
  exact ⟨w, hrun, hisolated, c, c', hc, hc', hne, hisolated.separate c (List.mem_of_getElem? hc) c'
    (List.mem_of_getElem? hc') hne⟩

/-- The context of the kernel has the page table of the one that was active, and with it its
argument page. -/
theorem kernel_shares_table : ∃ w, bootWorld.Booted ∧ ReflTransGen Step bootWorld w ∧
    ∃ c c', w.contexts[1]? = some c ∧ w.contexts[2]? = some c' ∧
      ¬ Separate w.system c.table c'.table := by
  obtain ⟨w, hrun, hshares, -⟩ := exists_two_spawned
  exact ⟨w, bootWorld_booted, hrun, not_separate_of_sharesArguments hshares⟩

end World

end Faastr.Spaces
