import Faastr.Spaces.Memory

/-!
`ContextMemory::resize`, step by step (`kernel/src/context/memory.rs`).

Here the runs themselves are given, for a memory that is in its place: mapped into the
kernel, where it can be written, and at the address of its context.

* `block`, `unblock`: what the loops over a block of pages do to a map.
* `InPlace`: a memory in its place.
* `Affordable`: what `resize` allocates can be allocated, with frames for the tables of every
  mapping that it makes.
* `resize_replaces`: a memory with room around it is replaced by one with the same bytes,
  or an allocation fails.
* `resize_needs_room`: a memory that was resized had room.
-/

namespace Faastr.Spaces

open Faastr.Lib Faastr.Memory Faastr.Paging

/-! ### Blocks of pages -/

/-- The map with a block of pages that leads to a block of frames. -/
def block (start frame count : Nat) (flags : EntryFlags) (A : PageMap) : PageMap := fun page =>
  if start ≤ page ∧ page < start + count then some (frame + (page - start), flags) else A page

/-- The map without a block of pages. -/
def unblock (start count : Nat) (A : PageMap) : PageMap := fun page =>
  if start ≤ page ∧ page < start + count then none else A page

section Block

variable {start frame count page k : Nat} {flags : EntryFlags} {A : PageMap}

theorem block_inside (hk : k < count) :
    block start frame count flags A (start + k) = some (frame + k, flags) := by
  rw [block, if_pos (by omega), Nat.add_sub_cancel_left]

theorem block_outside (h : page < start ∨ start + count ≤ page) :
    block start frame count flags A page = A page := by
  rw [block, if_neg (by omega)]

theorem unblock_inside (hk : k < count) : unblock start count A (start + k) = none := by
  rw [unblock, if_pos (by omega)]

theorem unblock_outside (h : page < start ∨ start + count ≤ page) :
    unblock start count A page = A page := by
  rw [unblock, if_neg (by omega)]

theorem unblock_block (h : ∀ k, k < count → A (start + k) = none) :
    unblock start count (block start frame count flags A) = A := by
  funext page
  by_cases hin : start ≤ page ∧ page < start + count
  · obtain ⟨k, rfl⟩ := Nat.exists_eq_add_of_le hin.1
    rw [unblock_inside (by omega), h k (by omega)]
  · rw [unblock_outside (by omega), block_outside (by omega)]

theorem block_zero : block start frame 0 flags A = A :=
  funext fun page => block_outside (by omega)

theorem unblock_zero : unblock start 0 A = A := funext fun page => unblock_outside (by omega)

/-- One page more. -/
theorem block_succ : Function.update (block start frame count flags A) (start + count)
    (some (frame + count, flags)) = block start frame (count + 1) flags A := by
  funext page
  by_cases hlast : page = start + count
  · subst hlast
    rw [Function.update_self, block_inside (Nat.lt_succ_self count)]
  · rw [Function.update_of_ne hlast]
    simp only [block]
    congr 1
    exact propext ⟨fun h => by omega, fun h => by omega⟩

theorem unblock_succ : Function.update (unblock start count A) (start + count) none =
    unblock start (count + 1) A := by
  funext page
  by_cases hlast : page = start + count
  · subst hlast
    rw [Function.update_self, unblock_inside (Nat.lt_succ_self count)]
  · rw [Function.update_of_ne hlast]
    simp only [unblock]
    congr 1
    exact propext ⟨fun h => by omega, fun h => by omega⟩

end Block

/-! ### Loops over a block -/

namespace System

variable {s : System} {start page : Nat} {f g : PageMap → PageMap} {pool : Pool}

/-- The map of the half that a page lies in, as the mapper sees it. -/
def half (s : System) (page : Nat) : PageMap :=
  if page < userPages then s.user s.recursive else s.kernel

theorem change_self (h : ∀ A, f A = A) : s.change start f = s := by
  simp only [change, h, Function.update_eq_self, ite_self]

theorem change_change (hhalf : start < userPages ↔ page < userPages) :
    ((s.change start f).withPool pool).change page g = (s.change start (g ∘ f)).withPool pool := by
  by_cases h : start < userPages
  · rw [change_user h, change_user (hhalf.mp h), change_user h]
    simp [withPool]
  · rw [change_kernel (by omega), change_kernel (by omega), change_kernel (by omega)]
    rfl

theorem lookup_change (hhalf : start < userPages ↔ page < userPages) :
    ((s.change start f).withPool pool).lookup s.recursive page = f (s.half start) page := by
  by_cases h : start < userPages
  · rw [change_user h, lookup, if_pos (hhalf.mp h), half, if_pos h]
    exact congrFun (Function.update_self ..) page
  · rw [change_kernel (by omega), lookup, if_neg (by omega), half, if_neg h]
    rfl

end System

section Loops

variable {s : System} {start frame : Nat} {flags : EntryFlags}

/-- A block that is not mapped can be mapped, if there are frames for the tables. -/
theorem mapAll_run {count : Nat} (hhalf : OneHalf start count)
    (h : ∀ k, k < count → s.half start (start + k) = none) :
    (mapAll ((List.range' start count).zip (List.range' frame count)) flags).run s =
      match s.toPool.createAll (paths s.recursive start count) with
      | some pool => .ok ((), (s.change start (block start frame count flags)).withPool pool)
      | none => .error noFrames := by
  induction count with
  | zero =>
    rw [System.change_self fun A => block_zero]
    rfl
  | succ n ih =>
    have hsame : start < userPages ↔ start + n < userPages := by
      rcases hhalf with h | h <;> omega
    have hrun := ih (hhalf.imp (by omega) id) fun k hk => h k (by omega)
    have hpaths : paths s.recursive start (n + 1) =
        paths s.recursive start n ++ path s.recursive (start + n) := by
      simp [paths, List.range'_1_concat]
    rw [mapAll, List.range'_1_concat, List.range'_1_concat, List.zip_append (by simp), hpaths,
      Pool.createAll_append]
    refine (congrArg (StateT.run · s) forM_concat).trans ?_
    cases hcreate : s.toPool.createAll (paths s.recursive start n) with
    | none =>
      rw [hcreate] at hrun
      exact run_bind_error hrun
    | some pool =>
      rw [hcreate] at hrun
      refine (run_bind hrun).trans (mapTo_run.trans ?_)
      have hnone := @System.lookup_change s start (start + n) (block start frame n flags) pool hsame
      rw [block_outside (by omega), h n (Nat.lt_succ_self n)] at hnone
      have hblock : (Call.mapTo (start + n) (frame + n) flags).apply ∘ block start frame n flags =
          block start frame (n + 1) flags := funext fun A => block_succ
      rw [System.change_change hsame, hblock]
      show (match pool.createAll (path s.recursive (start + n)) with
        | some pool' => if (System.lookup _ s.recursive (start + n)).isNone then _ else _
        | none => _) = _
      rw [hnone]
      rfl

theorem mapAll_cases {count : Nat} (hhalf : OneHalf start count)
    (h : ∀ k, k < count → s.half start (start + k) = none) :
    (¬ s.frames.Spares 1 (tableFrames count) ∧
      (mapAll ((List.range' start count).zip (List.range' frame count)) flags).run s = .error noFrames) ∨
    ∃ pool, Allocator.Draws (tableFrames count) s.frames pool.frames ∧
      (mapAll ((List.range' start count).zip (List.range' frame count)) flags).run s =
        .ok ((), (s.change start (block start frame count flags)).withPool pool) := by
  rw [mapAll_run hhalf h]
  rcases @createPaths_cases s.toPool start count s.recursive hhalf with
    ⟨hnot, hnone⟩ | ⟨pool, hcreate, hdraws⟩
  · exact .inl ⟨hnot, by rw [hnone]⟩
  · exact .inr ⟨pool, hdraws, by rw [hcreate]⟩

/-- A block that is mapped can be unmapped. -/
theorem unmapAll_run {count : Nat} (hhalf : OneHalf start count)
    (h : ∀ k, k < count → (s.half start (start + k)).isSome) : ∃ pool, Pool.Frees s.toPool pool ∧
      (unmapAll (List.range' start count)).run s =
        .ok ((), (s.change start (unblock start count)).withPool pool) := by
  induction count with
  | zero =>
    refine ⟨s.toPool, refl_of Pool.Frees _, ?_⟩
    rw [System.change_self fun A => unblock_zero]
    rfl
  | succ n ih =>
    have hsame : start < userPages ↔ start + n < userPages := by
      rcases hhalf with h | h <;> omega
    obtain ⟨pool, hfrees, hrun⟩ := ih (hhalf.imp (by omega) id) fun k hk => h k (by omega)
    obtain ⟨e, he⟩ := Option.isSome_iff_exists.mp (h n (Nat.lt_succ_self n))
    obtain ⟨pool', hfrees', -, hlast⟩ := @unmapReturn_run
      ((s.change start (unblock start n)).withPool pool) (start + n) false e
      ((System.lookup_change hsame).trans (by rw [unblock_outside (by omega), he]))
    rw [System.change_change hsame] at hlast
    refine ⟨pool', trans_of Pool.Frees hfrees hfrees', ?_⟩
    rw [unmapAll, List.range'_1_concat]
    refine (congrArg (StateT.run · s) forM_concat).trans ((run_bind hrun).trans ((run_bind hlast).trans ?_))
    have hblock : (Call.unmapReturn (start + n) false).apply ∘ unblock start n =
        unblock start (n + 1) := funext fun A => unblock_succ
    rw [hblock]
    rfl

end Loops

/-! ### Mappings -/

/-- The pages that can be allocated are in the kernel half, and not mapped. -/
def Vacant (s : System) : Prop :=
  ∀ page, s.pages.free page = true → userPages ≤ page ∧ s.kernel page = none

/-- The mapping is in the kernel half, and leads to its frames. -/
structure Mapped (v : VallocMapping) (A : PageMap) : Prop where
  count : v.pages.count = v.frames.count
  positive : 0 < v.frames.count
  high : userPages ≤ v.pages.start
  kernel : ∀ k, k < v.frames.count → A (v.pages.start + k) = some (v.frames.start + k, v.flags)

/-- There are pages for a mapping, and frames for its tables. -/
structure Mappable (n : Nat) (s : System) : Prop where
  pages : (s.pages.allocate n).isSome
  tables : s.frames.Spares 1 (tableFrames n)

/-- The system without a mapping. -/
def System.dropped (s : System) (v : VallocMapping) : System :=
  { s with
    kernel := unblock v.pages.start v.frames.count s.kernel
    pages := s.pages.deallocate v.pages.start v.frames.count }

/-- Nothing comes out, or there is no frame for a table. -/
def Fails {α : Type} (x : Kernel (Option α)) (P : System → Prop) (s : System) : Prop :=
  x.run s = .error noFrames ∨ ∃ s', P s' ∧ x.run s = .ok (none, s')

theorem Fails.bind {α β : Type} {x : Kernel (Option α)} {f : Option α → Kernel (Option β)}
    {P P' : System → Prop} {s : System} (h : Fails x P s) (hf : ∀ s', P s' → Fails (f none) P' s') :
    Fails (x >>= f) P' s := by
  rcases h with herror | ⟨s₁, hs₁, hnone⟩
  · exact .inl (run_bind_error herror)
  · rcases hf s₁ hs₁ with herror | ⟨s₂, hs₂, hnone₂⟩
    · exact .inl ((run_bind hnone).trans herror)
    · exact .inr ⟨s₂, hs₂, (run_bind hnone).trans hnone₂⟩

section Mappings

variable {s : System} {flags : EntryFlags} {frames : Frames}

theorem Frames.iter_eq (hpos : 0 < frames.count) :
    frames.iter = List.range' frames.start frames.count := pagesFrom_pages hpos

theorem Frames.new_run {count : Nat} : (Frames.new count).run s =
    match s.frames.allocate count with
    | some (start, frames) => .ok (some ⟨start, count⟩, { s with frames })
    | none => .ok (none, s) := by
  have halloc := @allocateFrames_run s count
  cases h : s.frames.allocate count with
  | none =>
    rw [h] at halloc
    exact run_bind halloc
  | some r =>
    rw [h] at halloc
    exact run_bind halloc

/-- A new mapping takes pages, and frames for its tables. -/
theorem VallocMapping.new_run (hs : Vacant s) (hpos : 0 < frames.count) :
    (VallocMapping.new flags frames).run s =
      match s.pages.allocate frames.count with
      | none => .ok (none, s)
      | some (start, pages) =>
          match s.toPool.createAll (paths s.recursive start frames.count) with
          | none => .error noFrames
          | some pool => .ok (some ⟨⟨start, frames.count⟩, flags, frames⟩, System.withPool
              { s with pages, kernel := block start frames.start frames.count flags s.kernel } pool) := by
  cases halloc : s.pages.allocate frames.count with
  | none =>
    have hpages : (VallocPages.new frames.count).run s = .ok (none, s) := by
      refine (run_bind rfl).trans ?_
      rw [halloc]
      rfl
    exact run_bind hpages
  | some r =>
    obtain ⟨start, pages⟩ := r
    have hvacant : ∀ k, k < frames.count → userPages ≤ start + k ∧ s.kernel (start + k) = none :=
      fun k hk => hs _ (Allocator.free_of_allocate halloc hk)
    have hhigh : userPages ≤ start := (hvacant 0 hpos).1
    have hpages : (VallocPages.new frames.count).run s =
        .ok (some ⟨start, frames.count⟩, { s with pages }) := by
      refine (run_bind rfl).trans ?_
      rw [halloc]
      rfl
    have hmap := @mapAll_run { s with pages } start frames.start flags frames.count (.inr hhigh)
      fun k hk => by
        rw [System.half, if_neg (by omega)]
        exact (hvacant k hk).2
    rw [System.change_kernel hhigh] at hmap
    refine (run_bind hpages).trans ?_
    dsimp only at hmap ⊢
    rw [Frames.iter_eq hpos, VallocPages.iter, pagesFrom_pages hpos]
    cases hcreate : s.toPool.createAll (paths s.recursive start frames.count) with
    | none =>
      rw [hcreate] at hmap
      exact run_bind_error hmap
    | some pool =>
      rw [hcreate] at hmap
      exact run_bind hmap

theorem VallocMapping.new_cases (hs : Vacant s) (hpos : 0 < frames.count) :
    (¬ Mappable frames.count s ∧ Fails (VallocMapping.new flags frames) (· = s) s) ∨
    ∃ start pages pool, s.pages.allocate frames.count = some (start, pages) ∧
      Allocator.Draws (tableFrames frames.count) s.frames pool.frames ∧
      (VallocMapping.new flags frames).run s = .ok (some ⟨⟨start, frames.count⟩, flags, frames⟩,
        System.withPool
          { s with pages, kernel := block start frames.start frames.count flags s.kernel } pool) := by
  have hrun := @new_run s flags frames hs hpos
  cases halloc : s.pages.allocate frames.count with
  | none =>
    rw [halloc] at hrun
    refine .inl ⟨fun h => ?_, .inr ⟨s, rfl, hrun⟩⟩
    cases halloc ▸ h.pages
  | some r =>
    obtain ⟨start, pages⟩ := r
    have hhigh := (hs _ (Allocator.free_of_allocate halloc hpos)).1
    rw [halloc] at hrun
    rcases @createPaths_cases s.toPool start frames.count s.recursive (.inr hhigh) with
      ⟨hnot, hnone⟩ | ⟨pool, hcreate, hdraws⟩
    · dsimp only at hrun
      rw [hnone] at hrun
      exact .inl ⟨fun h => hnot h.tables, .inl hrun⟩
    · dsimp only at hrun
      rw [hcreate] at hrun
      exact .inr ⟨start, pages, pool, rfl, hdraws, hrun⟩

theorem VallocMapping.drop_run {v : VallocMapping} (h : Mapped v s.kernel) :
    ∃ pool, Pool.Frees s.toPool pool ∧ v.drop.run s = .ok ((), (s.dropped v).withPool pool) := by
  obtain ⟨pool, hfrees, hunmap⟩ := @unmapAll_run s v.pages.start v.frames.count (.inr h.high)
    fun k hk => by
      rw [System.half, if_neg (by have := h.high; omega), h.kernel k hk]
      rfl
  rw [System.change_kernel h.high] at hunmap
  refine ⟨pool, hfrees, ?_⟩
  rw [VallocMapping.drop, VallocPages.iter, h.count, pagesFrom_pages h.positive, run_bind hunmap,
    VallocPages.drop, h.count]
  rfl

theorem ContextMemory.drop_run {m : ContextMemory} {v : VallocMapping}
    (hmapping : m.vallocMapping = some v) (hunshared : m.shared = false) (hmapped : Mapped v s.kernel) :
    ∃ pool, m.drop.run s = .ok ((), (s.dropped v).withPool pool) := by
  obtain ⟨pool, -, hrun⟩ := VallocMapping.drop_run hmapped
  have hdrop : m.dropMapping.run s = v.drop.run s := by
    rw [dropMapping, hmapping]
    simp only [hunshared]
    rfl
  rw [hrun] at hdrop
  refine ⟨pool.deallocate m.frames.start m.frames.count, ?_⟩
  rw [drop, run_bind hdrop, hunshared]
  rfl

end Mappings

/-! ### A memory in its place -/

/-- A memory that the kernel can write, at the address of its context: its context finds
it there in the active table, below something else, or it is a memory of the kernel and
its address is the one of the mapping. -/
structure InPlace (m : ContextMemory) (v : VallocMapping) (page : Nat) (s : System) : Prop where
  mapping : m.vallocMapping = some v
  frames : v.frames = m.frames
  mapped : Mapped v s.kernel
  writable : v.flags.contains .writable = true
  unshared : m.shared = false
  recursive : s.recursive = s.cr3
  vacant : Vacant s
  address : m.contextAddress = page * pageSize
  context : m.contextMapped = true → ∀ k, k < m.frames.count →
    s.user s.cr3 (page + k) = some (m.frames.start + k, m.flags)
  below : m.contextMapped = true → ∃ top, page + m.frames.count ≤ top ∧ top < userPages ∧
    (s.user s.cr3 top).isSome
  kernel : m.contextMapped = false → page = v.pages.start

/-- No page of the user half that a larger memory would grow onto is mapped. -/
def RoomFor (m : ContextMemory) (page n : Nat) (s : System) : Prop :=
  ∀ k, m.frames.count ≤ k → k < n → page + k < userPages → s.user s.cr3 (page + k) = none

/-- The flags of the mapping of a clone. -/
def cloneFlags : EntryFlags := EntryFlags.writable.union .noExecute

theorem cloneFlags_writable : cloneFlags.contains .writable = true := by decide

/-- What `clone_internal` makes. -/
def ContextMemory.clone (m : ContextMemory) (frame start n : Nat) : ContextMemory where
  vallocMapping := some ⟨⟨start, n⟩, cloneFlags, ⟨frame, n⟩⟩
  contextAddress := m.contextAddress
  contextMapped := false
  frames := ⟨frame, n⟩
  flags := m.flags
  shared := false

/-- The system with the clone: its pages are taken, and mapped. -/
def System.cloned (s : System) (frame start n : Nat) (pages : Allocator) (memory : Nat → UInt8) :
    System :=
  { s with pages, memory, kernel := block start frame n cloneFlags s.kernel }

/-- There are frames for a clone, and it can be mapped. -/
structure Clonable (n : Nat) (s : System) : Prop where
  frames : (s.frames.allocate n).isSome
  pages : (s.pages.allocate n).isSome
  tables : s.frames.Spares 1 (n + tableFrames n)

namespace InPlace

variable {m : ContextMemory} {v : VallocMapping} {page n : Nat} {s s' : System}

theorem positive (h : InPlace m v page s) : 0 < m.frames.count := h.frames ▸ h.mapped.positive

/-- Frames and bytes do not matter. -/
theorem congr (h : InPlace m v page s) (huser : s'.user = s.user) (hkernel : s'.kernel = s.kernel)
    (hcr3 : s'.cr3 = s.cr3) (hrecursive : s'.recursive = s.recursive) (hpages : s'.pages = s.pages) :
    InPlace m v page s' where
  mapping := h.mapping
  frames := h.frames
  mapped := hkernel ▸ h.mapped
  writable := h.writable
  unshared := h.unshared
  recursive := by rw [hrecursive, hcr3, h.recursive]
  vacant := by
    rw [Vacant, hpages, hkernel]
    exact h.vacant
  address := h.address
  context := by
    rw [huser, hcr3]
    exact h.context
  below := by
    rw [huser, hcr3]
    exact h.below
  kernel := h.kernel

theorem drop_fails {α : Type} (h : InPlace m v page s) : Fails (do
    m.drop
    return (none : Option α)) (fun _ => True) s := by
  obtain ⟨pool, hdrop⟩ := ContextMemory.drop_run h.mapping h.unshared h.mapped
  exact .inr ⟨_, trivial, run_bind hdrop⟩

/-- The mapping that is made and dropped again leaves no trace. -/
theorem oldMapping_cases (h : InPlace m v page s) :
    (¬ Mappable m.frames.count s ∧ Fails m.oldMapping (· = s) s) ∨
    ∃ pool, Allocator.Draws (tableFrames m.frames.count) s.frames pool.frames ∧
      m.oldMapping.run s = .ok (some v, s.withPool pool) := by
  rcases @VallocMapping.new_cases s .noExecute m.frames h.vacant h.positive with
    ⟨hnot, hfails⟩ | ⟨start, pages, pool, halloc, hdraws, hnew⟩
  · exact .inl ⟨hnot, hfails.bind fun s' hs' => .inr ⟨s', hs', rfl⟩⟩
  · have hvacant : ∀ k, k < m.frames.count → userPages ≤ start + k ∧ s.kernel (start + k) = none :=
      fun k hk => h.vacant _ (Allocator.free_of_allocate halloc hk)
    obtain ⟨pool', hfrees, hdrop⟩ := @VallocMapping.drop_run (System.withPool
      { s with pages, kernel := block start m.frames.start m.frames.count .noExecute s.kernel } pool)
      ⟨⟨start, m.frames.count⟩, .noExecute, m.frames⟩
      ⟨rfl, h.positive, (hvacant 0 h.positive).1, fun k hk => block_inside hk⟩
    have hback : ((System.withPool { s with
        pages, kernel := block start m.frames.start m.frames.count .noExecute s.kernel } pool).dropped
          ⟨⟨start, m.frames.count⟩, .noExecute, m.frames⟩).withPool pool' = s.withPool pool' := by
      simp only [System.dropped, System.withPool, unblock_block fun k hk => (hvacant k hk).2,
        Allocator.deallocate_allocate halloc]
    rw [hback] at hdrop
    refine .inr ⟨pool', (hdraws.trans hfrees.draws).mono (Nat.add_zero _).le, ?_⟩
    rw [ContextMemory.oldMapping, run_bind hnew, h.mapping]
    exact run_bind hdrop

theorem cloneInternal_cases (h : InPlace m v page s) (hn : 0 < n) :
    (¬ Clonable n s ∧ Fails (m.cloneInternal (some n)) (InPlace m v page) s) ∨
    ∃ frame start pages pool, s.pages.allocate n = some (start, pages) ∧
      Allocator.Draws (n + tableFrames n) s.frames pool.frames ∧
      (m.cloneInternal (some n)).run s =
        .ok (some (m.clone frame start n), (s.cloned frame start n pages s.memory).withPool pool) := by
  have hframes := @Frames.new_run s n
  cases halloc : s.frames.allocate n with
  | none =>
    rw [halloc] at hframes
    refine .inl ⟨fun hclone => ?_, .inr ⟨s, h, run_bind hframes⟩⟩
    cases halloc ▸ hclone.frames
  | some r =>
    obtain ⟨frame, frames⟩ := r
    rw [halloc] at hframes
    have hdraws := Allocator.draws_allocate halloc
    have hvacant : Vacant { s with frames } := h.vacant
    have hrun : (m.cloneInternal (some n)).run s = _ := run_bind hframes
    rcases @VallocMapping.new_cases { s with frames } cloneFlags ⟨frame, n⟩ hvacant hn with
      ⟨hnot, hfails⟩ | ⟨start, pages, pool, hpages, hdraws', hnew⟩
    · refine .inl ⟨fun hclone => hnot ⟨hclone.pages, hclone.tables.draws hdraws⟩, ?_⟩
      rw [Fails, hrun]
      refine hfails.bind ?_
      rintro _ rfl
      refine .inr ⟨_, ?_, run_bind rfl⟩
      exact h.congr rfl rfl rfl rfl rfl
    · exact .inr ⟨frame, start, pages, pool, hpages, hdraws.trans hdraws', hrun.trans (run_bind hnew)⟩

/-- The pages of the context are unmapped in the active table. -/
theorem unmapContext_run (h : InPlace m v page s) : ∃ pool, Pool.Frees s.toPool pool ∧
    m.unmapContext.run s = .ok ({ m with contextMapped := false }, System.withPool
      (if m.contextMapped then s.change page (unblock page m.frames.count) else s) pool) := by
  cases hmapped : m.contextMapped with
  | false =>
    have hsame : { m with contextMapped := false } = m := by rw [← hmapped]
    refine ⟨s.toPool, refl_of Pool.Frees _, ?_⟩
    rw [ContextMemory.unmapContext, if_pos (by rw [hmapped]; rfl), hsame]
    rfl
  | true =>
    obtain ⟨top, htop, huser, -⟩ := h.below hmapped
    have hpos := h.positive
    obtain ⟨pool, hfrees, hunmap⟩ := @unmapAll_run s page m.frames.count (.inl (by omega))
      fun k hk => by
        rw [System.half, if_pos (by omega), h.recursive, h.context hmapped k hk]
        rfl
    refine ⟨pool, hfrees, ?_⟩
    rw [ContextMemory.unmapContext, if_neg (by rw [hmapped]; decide), h.address, pagesFrom_pages hpos]
    exact run_bind hunmap

/-- The clone changes nothing for the memory. -/
theorem cloned (h : InPlace m v page s) {start : Nat} {pages : Allocator}
    (halloc : s.pages.allocate n = some (start, pages)) (frame : Nat) (memory : Nat → UInt8) :
    InPlace m v page (s.cloned frame start n pages memory) := by
  have hvacant : ∀ k, k < n → s.kernel (start + k) = none :=
    fun k hk => (h.vacant _ (Allocator.free_of_allocate halloc hk)).2
  refine ⟨h.mapping, h.frames, ⟨h.mapped.count, h.mapped.positive, h.mapped.high, fun k hk => ?_⟩,
    h.writable, h.unshared, h.recursive, fun p hp => ?_, h.address, h.context, h.below, h.kernel⟩
  · have hsome := h.mapped.kernel k hk
    by_cases hin : start ≤ v.pages.start + k ∧ v.pages.start + k < start + n
    · have hnone := hvacant (v.pages.start + k - start) (by omega)
      rw [show start + (v.pages.start + k - start) = v.pages.start + k by omega, hsome] at hnone
      cases hnone
    · exact (block_outside (by omega)).trans hsome
  · obtain ⟨hfree, hout⟩ := (Allocator.free_allocate_iff halloc).mp hp
    exact ⟨(h.vacant p hfree).1, (block_outside hout).trans (h.vacant p hfree).2⟩

end InPlace

/-- The bytes of a memory, copied to other frames; what is left there is zero. -/
def copied (m : ContextMemory) (frame n : Nat) (memory : Nat → UInt8) : Nat → UInt8 := fun a =>
  if frame * pageSize ≤ a ∧ a < frame * pageSize + n * pageSize then
    if a - frame * pageSize < m.lenBytes then
      memory (m.frames.start * pageSize + (a - frame * pageSize))
    else 0
  else memory a

theorem filled_copy {m : ContextMemory} {v : VallocMapping} {frame start n : Nat}
    {memory : Nat → UInt8} (hframes : v.frames = m.frames) :
    VallocMapping.filled ⟨⟨start, n⟩, cloneFlags, ⟨frame, n⟩⟩ memory 0 (n * pageSize) (fun i =>
      ((List.range (v.len - 0)).map fun i => memory (v.frames.start * pageSize + 0 + i)).getD i 0) =
    copied m frame n memory := by
  funext a
  simp only [VallocMapping.filled, copied, Nat.add_zero, Nat.sub_zero, VallocMapping.len,
    ContextMemory.lenBytes, hframes]
  congr 1
  by_cases hlt : a - frame * pageSize < m.frames.count * pageSize
  · simp [hlt]
  · simp [hlt]

/-- The system in which the clone is about to take its place. -/
def prepared (m : ContextMemory) (page frame start n : Nat) (pages : Allocator) (s : System) : System :=
  let s := s.cloned frame start n pages (copied m frame n s.memory)
  if m.contextMapped then s.change page (unblock page m.frames.count) else s

/-- What `resize` allocates can be allocated: pages to map the old memory once more, frames and
pages for the new one, and frames for the tables on the way to all of them. -/
structure Affordable (m : ContextMemory) (n : Nat) (s : System) : Prop where
  oldPages : (s.pages.allocate m.frames.count).isSome
  pages : (s.pages.allocate n).isSome
  frames : s.frames.Spares n (tableFrames m.frames.count)
  tables : s.frames.Spares 1 (tableFrames m.frames.count + (n + tableFrames n + tableFrames n))

/-- Once the clone is made there are still frames for its tables. -/
theorem Affordable.cloned {m : ContextMemory} {n : Nat} {s : System} {pool : Pool} (h : Affordable m n s)
    (hdraws : Allocator.Draws (tableFrames m.frames.count) s.frames pool.frames) :
    Clonable n (s.withPool pool) ∧ ∀ frames, Allocator.Draws (n + tableFrames n) pool.frames frames →
      frames.Spares 1 (tableFrames n) := by
  have htables := h.tables.draws hdraws
  obtain ⟨frame, frames, halloc⟩ := Allocator.Spares.allocate
    (Allocator.Spares.draws (h.frames.mono (Nat.add_zero _).le) hdraws)
  exact ⟨⟨Option.isSome_iff_exists.mpr ⟨_, halloc⟩, h.pages, htables.mono (Nat.le_add_right _ _)⟩,
    fun _ hdraws' => htables.draws hdraws'⟩

namespace InPlace

variable {m : ContextMemory} {v : VallocMapping} {page n : Nat} {s : System}

/-- Up to the point where the new memory takes its place. -/
theorem resize_prepares (h : InPlace m v page s) (hn : 0 < n) :
    (¬ Affordable m n s ∧ Fails (m.resize n) (fun _ => True) s) ∨
    ∃ frame start pages pool, s.pages.allocate n = some (start, pages) ∧
      (Affordable m n s → pool.frames.Spares 1 (tableFrames n)) ∧
      (m.resize n).run s = (do
        let memory ← (m.clone frame start n).mapContext
        ContextMemory.dropOldMapping { m with contextMapped := false } v
        ContextMemory.drop { m with contextMapped := false }
        return some memory).run ((prepared m page frame start n pages s).withPool pool) := by
  have hold : ∀ s', (m.dropOldMapping v).run s' = .ok ((), s') := by
    intro s'
    rw [ContextMemory.dropOldMapping, h.mapping]
    rfl
  rcases h.oldMapping_cases with ⟨hnot, hfails⟩ | ⟨pool₁, hdraws₁, hsome⟩
  · refine .inl ⟨fun hafford => hnot ⟨hafford.oldPages, hafford.tables.mono (Nat.le_add_right _ _)⟩, ?_⟩
    refine hfails.bind ?_
    rintro _ rfl
    exact h.drop_fails
  have h₁ : InPlace m v page (s.withPool pool₁) := h.congr rfl rfl rfl rfl rfl
  have hrun : (m.resize n).run s = _ := run_bind hsome
  rcases h₁.cloneInternal_cases hn with ⟨hnot, hfails⟩ |
    ⟨frame, start, pages, pool₂, hpages, hdraws₂, hclone⟩
  · refine .inl ⟨fun hafford => hnot (hafford.cloned hdraws₁).1, ?_⟩
    rw [Fails, hrun]
    refine hfails.bind fun s₂ h₂ => ?_
    rw [Fails, run_bind (hold s₂)]
    exact h₂.drop_fails
  have hcloned : InPlace m v page
      ((s.cloned frame start n pages (copied m frame n s.memory)).withPool pool₂) :=
    (h.cloned hpages frame (copied m frame n s.memory)).congr rfl rfl rfl rfl rfl
  obtain ⟨pool₃, hfrees, hunmap⟩ := hcloned.unmapContext_run
  refine .inr ⟨frame, start, pages, pool₃, hpages, fun hafford => ?_, ?_⟩
  · refine Allocator.Spares.draws (Allocator.Spares.mono ?_ (Nat.zero_add _).le) hfrees.draws
    exact (hafford.cloned hdraws₁).2 _ hdraws₂
  · have hslice := @ContextMemory.asSliceMut_run
      (((s.withPool pool₁).cloned frame start n pages s.memory).withPool pool₂) _
      (m.clone frame start n) rfl rfl cloneFlags_writable
    have hread := @VallocMapping.read_run
      (((s.withPool pool₁).cloned frame start n pages s.memory).withPool pool₂) v 0 v.len
      (Nat.zero_le _) (Nat.le_refl _)
    rw [← filled_copy h.frames] at hunmap
    refine hrun.trans ((run_bind hclone).trans ((run_bind hslice).trans
      ((run_bind hread).trans ((run_bind rfl).trans ((run_bind hunmap).trans ?_)))))
    rw [filled_copy h.frames, prepared]
    cases m.contextMapped with
    | false => rfl
    | true => rfl

theorem mem_zip_clone (haddress : m.contextAddress = page * pageSize) {frame start k : Nat}
    (hk : k < n) : (page + k, frame + k) ∈ (pagesFrom (m.clone frame start n).contextAddress
      (m.clone frame start n).frames.count).zip (m.clone frame start n).frames.iter := by
  have hpos : 0 < n := Nat.zero_lt_of_lt hk
  rw [Frames.iter_eq hpos]
  show _ ∈ (pagesFrom m.contextAddress n).zip (List.range' frame n)
  rw [haddress, pagesFrom_pages hpos]
  exact List.mem_iff_getElem.mpr ⟨k, by simpa using hk, by simp⟩

/-- **A memory that was resized had room**, and is one of a context's. -/
theorem resize_needs_room (h : InPlace m v page s) (hn : 0 < n) {m' : ContextMemory} {s' : System}
    (hrun : (m.resize n).run s = .ok (some m', s')) : m.contextMapped = true ∧ RoomFor m page n s := by
  rcases h.resize_prepares hn with ⟨-, herror | ⟨s₁, -, hnone⟩⟩ | ⟨frame, start, pages, pool, hpages, -, hprep⟩
  · cases herror.symm.trans hrun
  · cases hnone.symm.trans hrun
  · rw [hprep] at hrun
    obtain ⟨memory, s₁, hmap, -⟩ := run_bind_eq_ok hrun
    obtain ⟨-, -, -, hmaps⟩ := ContextMemory.mapContext_spec _ _ hmap
    have hnone := fun k hk => ((hmaps rfl).entries _ (@mem_zip_clone m page n h.address frame start k hk)).1
    have hcloned := h.cloned hpages frame (copied m frame n s.memory)
    cases hmapped : m.contextMapped with
    | false =>
      -- The page is the first one of the mapping, which is still there.
      have hpage := hnone 0 hn
      have hlookup := hcloned.mapped.kernel 0 hcloned.mapped.positive
      rw [prepared, hmapped, h.kernel hmapped, System.lookup, if_neg (by have := h.mapped.high; omega)]
        at hpage
      cases hpage.symm.trans hlookup
    | true =>
      refine ⟨rfl, fun k hcount hk huser => ?_⟩
      have hpage := hnone k hk
      rw [prepared, hmapped, if_pos rfl] at hpage
      have hpage := (System.lookup_change (by omega)).symm.trans hpage
      rw [unblock_outside (by omega), System.half, if_pos (by omega)] at hpage
      rw [← h.recursive]
      exact hpage

/-- Below something else there is no room for more. -/
theorem room_below (h : InPlace m v page s) (hmapped : m.contextMapped = true)
    (hroom : RoomFor m page n s) : ∃ top, page + m.frames.count ≤ top ∧ page + n ≤ top ∧
      top < userPages ∧ (s.user s.cr3 top).isSome := by
  obtain ⟨top, hcount, huser, hsome⟩ := h.below hmapped
  refine ⟨top, hcount, ?_, huser, hsome⟩
  by_contra hlt
  have hnone := hroom (top - page) (by omega) (by omega) (by omega)
  rw [show page + (top - page) = top by omega] at hnone
  rw [hnone] at hsome
  cases hsome

end InPlace

/-- The system in which the clone is in its place. -/
def System.placed (s : System) (m : ContextMemory) (page frame start n : Nat) (pages : Allocator) :
    System :=
  (s.cloned frame start n pages (copied m frame n s.memory)).change page
    (block page frame n m.flags ∘ unblock page m.frames.count)

/-- A memory that took the place of another, larger or smaller: it has the bytes of the
other, and zeros behind them. -/
structure Replaced (m : ContextMemory) (page n : Nat) (s : System) (m' : ContextMemory)
    (v' : VallocMapping) (s' : System) : Prop where
  place : InPlace m' v' page s'
  mapped : m'.contextMapped = true
  count : m'.frames.count = n
  bytes : ∀ i, i < n * pageSize → s'.memory (m'.frames.start * pageSize + i) =
    if i < m.lenBytes then s.memory (m.frames.start * pageSize + i) else 0
  cr3 : s'.cr3 = s.cr3
  above : ∀ k, n ≤ k → s'.user s.cr3 (page + k) =
    if k < m.frames.count then none else s.user s.cr3 (page + k)

namespace InPlace

variable {m : ContextMemory} {v : VallocMapping} {page n frame start : Nat} {s : System}
  {pages : Allocator}

theorem mapContext_cases {pool : Pool} (h : InPlace m v page s) (hmapped : m.contextMapped = true)
    (hn : 0 < n) (hroom : RoomFor m page n s) :
    (¬ pool.frames.Spares 1 (tableFrames n) ∧ (m.clone frame start n).mapContext.run
      ((prepared m page frame start n pages s).withPool pool) = .error noFrames) ∨
    ∃ pool', (m.clone frame start n).mapContext.run
      ((prepared m page frame start n pages s).withPool pool) =
        .ok ({ m.clone frame start n with contextMapped := true },
          (s.placed m page frame start n pages).withPool pool') := by
  obtain ⟨top, hcount, hbelow, huser, -⟩ := h.room_below hmapped hroom
  have hpos := h.positive
  have hprep : prepared m page frame start n pages s =
      (s.cloned frame start n pages (copied m frame n s.memory)).change page
        (unblock page m.frames.count) := by
    rw [prepared, hmapped, if_pos rfl]
  have hmap := @mapAll_cases (((s.cloned frame start n pages (copied m frame n s.memory)).change page
    (unblock page m.frames.count)).withPool pool) page frame m.flags n (.inl (by omega)) fun k hk => by
      have hhalf := @System.lookup_change (s.cloned frame start n pages (copied m frame n s.memory))
        page (page + k) (unblock page m.frames.count) pool (by omega)
      rw [System.half, if_pos (by omega)]
      rw [System.lookup, if_pos (by omega)] at hhalf
      refine hhalf.trans ?_
      rw [System.half, if_pos (by omega)]
      by_cases hlt : k < m.frames.count
      · exact unblock_inside hlt
      · rw [unblock_outside (by omega)]
        exact h.recursive ▸ hroom k (by omega) hk (by omega)
  rw [System.change_change Iff.rfl] at hmap
  have hrun : (m.clone frame start n).mapContext = (do
      mapAll ((List.range' page n).zip (List.range' frame n)) m.flags
      return { m.clone frame start n with contextMapped := true }) := by
    have hunmapped : (m.clone frame start n).contextMapped = false := rfl
    rw [ContextMemory.mapContext, hunmapped, if_neg (by decide), Frames.iter_eq hn]
    show (mapAll ((pagesFrom m.contextAddress n).zip (List.range' frame n)) m.flags >>= _) = _
    rw [h.address, pagesFrom_pages hn]
  rw [hrun, hprep]
  rcases hmap with ⟨hnot, herror⟩ | ⟨pool', -, hok⟩
  · exact .inl ⟨hnot, run_bind_error herror⟩
  · exact .inr ⟨pool', run_bind hok⟩

/-- The active table after a resize. -/
theorem placed_user (h : InPlace m v page s) (hpage : page < userPages) :
    (s.placed m page frame start n pages).user s.cr3 =
      block page frame n m.flags (unblock page m.frames.count (s.user s.cr3)) := by
  rw [System.placed, System.change_user hpage, ← h.recursive]
  exact Function.update_self ..

theorem placed_kernel (hpage : page < userPages) :
    (s.placed m page frame start n pages).kernel = block start frame n cloneFlags s.kernel := by
  rw [System.placed, System.change_user hpage]
  rfl

/-- The new mapping leads to the clone, and the old one is gone. -/
theorem mapped_dropped (h : InPlace m v page s) (hpage : page < userPages) (hn : 0 < n)
    (halloc : s.pages.allocate n = some (start, pages)) :
    Mapped ⟨⟨start, n⟩, cloneFlags, ⟨frame, n⟩⟩
      ((s.placed m page frame start n pages).dropped v).kernel := by
  have hvacant : ∀ k, k < n → userPages ≤ start + k ∧ s.kernel (start + k) = none :=
    fun k hk => h.vacant _ (Allocator.free_of_allocate halloc hk)
  refine ⟨rfl, hn, (hvacant 0 hn).1, fun k hk => ?_⟩
  have hout : start + k < v.pages.start ∨ v.pages.start + v.frames.count ≤ start + k := by
    by_contra hin
    have hsome := h.mapped.kernel (start + k - v.pages.start) (by omega)
    rw [show v.pages.start + (start + k - v.pages.start) = start + k by omega, (hvacant k hk).2] at hsome
    cases hsome
  show unblock v.pages.start v.frames.count (s.placed ..).kernel (start + k) = _
  rw [placed_kernel hpage, unblock_outside hout]
  exact block_inside hk

theorem vacant_dropped (h : InPlace m v page s) (hpage : page < userPages)
    (halloc : s.pages.allocate n = some (start, pages)) :
    Vacant ((s.placed m page frame start n pages).dropped v) := by
  intro p hp
  have hkernel : ((s.placed m page frame start n pages).dropped v).kernel p =
      unblock v.pages.start v.frames.count (block start frame n cloneFlags s.kernel) p := by
    rw [← placed_kernel hpage]
    rfl
  have hcases : pages.free p = true ∨ v.pages.start ≤ p ∧ p < v.pages.start + v.frames.count := by
    rw [System.placed, System.change_user hpage] at hp
    simpa [System.dropped, System.cloned, Allocator.deallocate] using hp
  rw [hkernel]
  by_cases hin : v.pages.start ≤ p ∧ p < v.pages.start + v.frames.count
  · exact ⟨Nat.le_trans h.mapped.high hin.1, if_pos hin⟩
  · obtain ⟨hfree, hout⟩ := (Allocator.free_allocate_iff halloc).mp (hcases.resolve_right hin)
    refine ⟨(h.vacant p hfree).1, ?_⟩
    rw [unblock_outside (by omega), block_outside hout, (h.vacant p hfree).2]

theorem replaced_placed {pool : Pool} (h : InPlace m v page s) (hmapped : m.contextMapped = true)
    (hn : 0 < n) (hroom : RoomFor m page n s) (halloc : s.pages.allocate n = some (start, pages)) :
    Replaced m page n s { m.clone frame start n with contextMapped := true }
      ⟨⟨start, n⟩, cloneFlags, ⟨frame, n⟩⟩
      (((s.placed m page frame start n pages).dropped v).withPool pool) := by
  obtain ⟨top, hcount, hbelow, huser, hsome⟩ := h.room_below hmapped hroom
  have hpos := h.positive
  have hpage : page < userPages := by omega
  have htable : (((s.placed m page frame start n pages).dropped v).withPool pool).user s.cr3 =
      block page frame n m.flags (unblock page m.frames.count (s.user s.cr3)) := h.placed_user hpage
  refine ⟨⟨rfl, rfl, h.mapped_dropped hpage hn halloc, cloneFlags_writable, rfl, h.recursive,
    h.vacant_dropped hpage halloc, h.address, fun _ k hk => ?_, fun _ => ?_, ?_⟩, rfl, rfl, ?_, rfl, ?_⟩
  · exact (congrFun htable _).trans (block_inside hk)
  · refine ⟨top, hbelow, huser, ?_⟩
    show (System.user _ s.cr3 top).isSome
    rw [htable, block_outside (by omega), unblock_outside (by omega)]
    exact hsome
  · exact fun hfalse => Bool.noConfusion hfalse
  · intro i hi
    show copied m frame n s.memory (frame * pageSize + i) = _
    rw [copied, if_pos (by omega), Nat.add_sub_cancel_left]
  · intro k hk
    rw [htable, block_outside (by omega)]
    by_cases hlt : k < m.frames.count
    · rw [if_pos hlt, unblock_inside hlt]
    · rw [if_neg hlt, unblock_outside (by omega)]

/-- **A memory with room around it is replaced by one of another size**, unless an
allocation fails. -/
theorem resize_replaces (h : InPlace m v page s) (hmapped : m.contextMapped = true) (hn : 0 < n)
    (hroom : RoomFor m page n s) :
    (¬ Affordable m n s ∧ Fails (m.resize n) (fun _ => True) s) ∨
    ∃ m' v' s', (m.resize n).run s = .ok (some m', s') ∧ Replaced m page n s m' v' s' := by
  rcases h.resize_prepares hn with hfails | ⟨frame, start, pages, pool, hpages, hspares, hprep⟩
  · exact .inl hfails
  rcases @mapContext_cases m v page n frame start s pages pool h hmapped hn hroom with
    ⟨hnot, herror⟩ | ⟨pool₁, hmap⟩
  · exact .inl ⟨fun hafford => hnot (hspares hafford), .inl (hprep.trans (run_bind_error herror))⟩
  obtain ⟨top, hcount, -, huser, -⟩ := h.room_below hmapped hroom
  have hpos := h.positive
  have holdMapped : Mapped v ((s.placed m page frame start n pages).withPool pool₁).kernel := by
    show Mapped v (s.placed m page frame start n pages).kernel
    rw [placed_kernel (by omega)]
    exact (h.cloned hpages frame (copied m frame n s.memory)).mapped
  have hold : (ContextMemory.dropOldMapping { m with contextMapped := false } v).run
      ((s.placed m page frame start n pages).withPool pool₁) =
      .ok ((), (s.placed m page frame start n pages).withPool pool₁) := by
    rw [ContextMemory.dropOldMapping]
    show StateT.run (if m.vallocMapping.isNone = true then _ else _) _ = _
    rw [h.mapping]
    rfl
  obtain ⟨pool₂, hdrop⟩ := @ContextMemory.drop_run _ { m with contextMapped := false } v h.mapping
    h.unshared holdMapped
  refine .inr ⟨_, _, _, hprep.trans ?_, @replaced_placed m v page n frame start s pages pool₂ h hmapped
    hn hroom hpages⟩
  exact (run_bind hmap).trans ((run_bind hold).trans (run_bind hdrop))

end InPlace

end Faastr.Spaces
