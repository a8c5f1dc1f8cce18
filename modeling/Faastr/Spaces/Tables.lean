import Faastr.Lib.Ensures
import Faastr.Lib.Slice
import Faastr.Paging.Refinement
import Faastr.Spaces.Pool

/-!
Address spaces.

Each page table is the map that it refines: a user half of its own, named by the frame
of its P4, and the kernel half, which all page tables share. The mapper works on the
table in the recursive slot of the active one, which is the active one itself but
inside `ActivePageTable::with` (`kernel/src/arch/x86_64/paging/mod.rs`). Of the tables of
lower levels there is which frames they are.

* `mapTo_run`, `unmapReturn_run`: what the mapper does, and when it finds no frame for a table.
* `Local`, `Remaps`, `Extends`, `KernelOnly`: what code leaves alone.
* `mapAll_spec`, `unmapAll_spec`: what a loop of `map_to` or of `unmap_return` leaves behind.
-/

namespace Faastr.Spaces

open Faastr.Lib Faastr.Memory Faastr.Paging

/-- The page tables, the frames, the allocator of virtual pages, and physical memory. -/
structure System extends Pool where
  user : Nat → PageMap
  kernel : PageMap
  cr3 : Nat
  /-- The table in the recursive slot of the active one. -/
  recursive : Nat
  pages : Allocator
  memory : Nat → UInt8

def System.withPool (s : System) (pool : Pool) : System := { s with toPool := pool }

inductive Panic where
  | expected (message : String)
  | alreadySet (page : Nat)
  | notMapped (page : Nat)
  | index
  | encode (fault : Fault)
deriving DecidableEq

abbrev Kernel := StateT System (Except Panic)

section Results

variable {α : Type}

def check (c : Bool) (panic : Panic) : Kernel Unit := if c then return () else throw panic

def orPanic (o : Option α) (panic : Panic) : Kernel α :=
  match o with
  | some a => return a
  | none => throw panic

def expect (o : Option α) (message : String) : Kernel α := orPanic o (.expected message)

end Results

/-! ### Frames -/

/-- `allocate_frames`. -/
def allocateFrames (count : Nat) : Kernel (Option Nat) := do
  let s ← get
  match s.frames.allocate count with
  | some (start, frames) =>
      set { s with frames }
      return some start
  | none => return none

/-- `deallocate_frames`. -/
def deallocateFrames (start count : Nat) : Kernel Unit :=
  modify fun s => s.withPool (s.toPool.deallocate start count)

/-! ### Page tables -/

namespace System

/-- What a page table says about a page. -/
def lookup (s : System) (table page : Nat) : Option (Nat × EntryFlags) :=
  if page < userPages then s.user table page else s.kernel page

/-- A change to the half that a page lies in. -/
def change (s : System) (page : Nat) (f : PageMap → PageMap) : System :=
  { s with
    user := if page < userPages then Function.update s.user s.recursive (f (s.user s.recursive))
      else s.user
    kernel := if page < userPages then s.kernel else f s.kernel }

/-- `Table::is_unused`, for the table of a level on the way to a page. -/
def isUnused (s : System) (page level : Nat) : Bool :=
  let id := tableId s.recursive page level
  (List.range 512).all fun i =>
    if level = 1 then (s.lookup s.recursive (id.index * 512 + i)).isNone
    else (s.tables { id with level := level - 1, index := id.index * 512 + i }).isNone

/-- The end of `unmap_inner`: tables without an entry are given back, from the lowest level on. A
page that was mapped has its tables. -/
def freeTables (s : System) (page : Nat) : List Nat → System
  | [] => s
  | level :: levels =>
      if s.isUnused page level then
        freeTables (s.withPool (s.toPool.release (tableId s.recursive page level))) page levels
      else s

end System

/-- There is no frame for a table. -/
abbrev noFrames : Panic := .expected "no frames available"

/-- `Table::next_table_create`, on the way to a page. -/
def nextTableCreate (page level : Nat) : Kernel Unit := do
  let s ← get
  let id := tableId s.recursive page level
  if (s.tables id).isNone then
    let frame ← expect (← allocateFrames 1) "no frames available"
    modify fun s => { s with tables := Function.update s.tables id (some frame) }

/-- An entry is written, in the half that the page lies in. -/
def writeEntry (page : Nat) (f : PageMap → PageMap) : Kernel Unit :=
  if page < userPages then
    modify fun s => { s with user := Function.update s.user s.recursive (f (s.user s.recursive)) }
  else modify fun s => { s with kernel := f s.kernel }

/-- `Mapper::map_to`. -/
def mapTo (page frame : Nat) (flags : EntryFlags) : Kernel Unit := do
  -- The P3, the P2 and the P1.
  [3, 2, 1].forM (nextTableCreate page)
  let s ← get
  check (s.lookup s.recursive page).isNone (.alreadySet page)
  writeEntry page (Function.update · page (some (frame, flags)))

/-- The loops over `pages.zip(frames)`. -/
def mapAll (l : List (Nat × Nat)) (flags : EntryFlags) : Kernel Unit :=
  l.forM fun (page, frame) => mapTo page frame flags

/-- `Mapper::unmap_return`. -/
def unmapReturn (page : Nat) (keepParents : Bool) : Kernel Nat := do
  let s ← get
  let e ← orPanic (s.lookup s.recursive page) (.notMapped page)
  writeEntry page (Function.update · page none)
  if !keepParents then modify (·.freeTables page [1, 2, 3])
  return e.1

/-- The loops that unmap pages and keep their frames. -/
def unmapAll (l : List Nat) : Kernel Unit :=
  l.forM fun page => do
    let _ ← unmapReturn page false

/-- `USER_TMP_MISC_OFFSET`, the temporary page of `spawn`. -/
def temporaryPage : Nat := 0x40000000000 / pageSize

/-- `TemporaryPage::map_table_frame`. -/
def mapTemporary (frame : Nat) : Kernel Unit := do
  let s ← get
  check (s.lookup s.recursive temporaryPage).isNone (.expected "temporary page is already mapped")
  mapTo temporaryPage frame ((EntryFlags.present.union .writable).union .noExecute)

/-- `TemporaryPage::unmap`. -/
def unmapTemporary : Kernel Unit := do
  let _ ← unmapReturn temporaryPage true

/-- `ActivePageTable::with`: the code maps in another table. -/
def withTable {α : Type} (table : Nat) (code : Kernel α) : Kernel α := do
  let backup := (← get).cr3
  mapTemporary backup
  modify fun s => { s with recursive := table }
  let a ← code
  modify fun s => { s with recursive := backup }
  unmapTemporary
  return a

/-- The frame becomes a P4 that is zero. -/
def System.zeroed (s : System) (frame : Nat) : System :=
  { s with
    user := Function.update s.user frame fun _ => none
    tables := fun id => if id.root = some frame then none else s.tables id }

/-- `InactivePageTable::new`: the table in a frame maps nothing. -/
def newTable (frame : Nat) : Kernel Unit := do
  mapTemporary frame
  modify (·.zeroed frame)
  unmapTemporary

/-! ### The mapper -/

section Mapper

variable {s : System} {page frame : Nat} {flags : EntryFlags}

theorem allocateFrames_run {count : Nat} : (allocateFrames count).run s =
    match s.frames.allocate count with
    | some (start, frames) => .ok (some start, { s with frames })
    | none => .ok (none, s) := by
  refine (run_bind rfl).trans ?_
  cases s.frames.allocate count with
  | none => rfl
  | some r => rfl

theorem createTables_run {levels : List Nat} : (levels.forM (nextTableCreate page)).run s =
    match s.toPool.createAll (levels.map (tableId s.recursive page)) with
    | some pool => .ok ((), s.withPool pool)
    | none => .error noFrames := by
  induction levels generalizing s with
  | nil => rfl
  | cons level levels ih =>
    have hfirst : (nextTableCreate page level).run s =
        match s.toPool.create (tableId s.recursive page level) with
        | some pool => .ok ((), s.withPool pool)
        | none => .error noFrames := by
      refine (run_bind rfl).trans ?_
      dsimp only [Pool.create]
      cases s.tables (tableId s.recursive page level) with
      | some table => rfl
      | none =>
        have halloc := @allocateFrames_run s 1
        cases h : s.frames.allocate 1 with
        | none =>
          rw [h] at halloc
          exact run_bind halloc
        | some r =>
          rw [h] at halloc
          exact run_bind halloc
    rw [Pool.createAll, List.map_cons, List.foldlM_cons]
    cases hcreate : s.toPool.create (tableId s.recursive page level) with
    | some pool =>
      rw [hcreate] at hfirst
      exact (run_bind hfirst).trans (@ih (s.withPool pool))
    | none =>
      rw [hcreate] at hfirst
      exact run_bind_error hfirst

theorem writeEntry_run {f : PageMap → PageMap} : (writeEntry page f).run s = .ok ((), s.change page f) := by
  rw [writeEntry, System.change]
  split
  · rfl
  · rfl

/-- A page is mapped once there is a frame for each table on the way to it, if it was not
mapped. -/
theorem mapTo_run : (mapTo page frame flags).run s =
    match s.toPool.createAll (path s.recursive page) with
    | some pool =>
        if (s.lookup s.recursive page).isNone then
          .ok ((), (s.change page (Call.mapTo page frame flags).apply).withPool pool)
        else .error (.alreadySet page)
    | none => .error noFrames := by
  have htables := @createTables_run s page [3, 2, 1]
  rw [path]
  cases hcreate : s.toPool.createAll ([3, 2, 1].map (tableId s.recursive page)) with
  | none =>
    rw [hcreate] at htables
    exact run_bind_error htables
  | some pool =>
    rw [hcreate] at htables
    rw [mapTo, run_bind htables]
    refine (run_bind rfl).trans ?_
    show ((check (s.lookup s.recursive page).isNone (.alreadySet page)) >>= _ : Kernel Unit).run _ = _
    cases (s.lookup s.recursive page).isNone with
    | false => rfl
    | true => exact (run_bind rfl).trans writeEntry_run

/-- Tables are given back, and nothing else happens. -/
theorem freeTables_eq {levels : List Nat} : ∃ pool, Pool.Frees s.toPool pool ∧
    s.freeTables page levels = s.withPool pool := by
  induction levels generalizing s with
  | nil => exact ⟨s.toPool, refl_of Pool.Frees _, rfl⟩
  | cons level levels ih =>
    rw [System.freeTables]
    split
    · obtain ⟨pool, hfrees, heq⟩ := @ih
        (s.withPool (s.toPool.release (tableId s.recursive page level)))
      exact ⟨pool, trans_of Pool.Frees Pool.frees_release hfrees, heq⟩
    · exact ⟨s.toPool, refl_of Pool.Frees _, rfl⟩

theorem unmapReturn_run {keepParents : Bool} {e : Nat × EntryFlags}
    (h : s.lookup s.recursive page = some e) : ∃ pool, Pool.Frees s.toPool pool ∧
      (keepParents = true → pool = s.toPool) ∧ (unmapReturn page keepParents).run s =
        .ok (e.1, (s.change page (Call.unmapReturn page keepParents).apply).withPool pool) := by
  have hsome : (orPanic (s.lookup s.recursive page) (.notMapped page)).run s = .ok (e, s) := by
    rw [h]
    rfl
  cases keepParents with
  | true =>
    refine ⟨s.toPool, refl_of Pool.Frees _, fun _ => rfl, ?_⟩
    exact (run_bind rfl).trans ((run_bind hsome).trans (run_bind writeEntry_run))
  | false =>
    obtain ⟨pool, hfrees, heq⟩ :=
      @freeTables_eq (s.change page (Call.unmapReturn page false).apply) page [1, 2, 3]
    refine ⟨pool, hfrees, fun h => Bool.noConfusion h, ?_⟩
    rw [← heq]
    exact (run_bind rfl).trans ((run_bind hsome).trans (run_bind writeEntry_run))

end Mapper

/-! ### What code leaves alone -/

/-- Only the user half of the table that the mapper works on changes. -/
structure Local (s s' : System) : Prop where
  cr3 : s'.cr3 = s.cr3
  recursive : s'.recursive = s.recursive
  others : ∀ table, table ≠ s.recursive → s'.user table = s.user table

instance : IsPreorder System Local where
  refl _ := ⟨rfl, rfl, fun _ _ => rfl⟩
  trans _ _ _ h h' := ⟨h'.cr3.trans h.cr3, h'.recursive.trans h.recursive, fun table hne =>
    (h'.others table (h.recursive ▸ hne)).trans (h.others table hne)⟩

/-- Pages are mapped and unmapped, but no frame is given back that was not taken on the way. -/
structure Remaps (s s' : System) : Prop extends Local s s' where
  within : Pool.Within s.toPool s'.toPool

instance : IsPreorder System Remaps where
  refl s := ⟨refl_of Local s, refl_of Pool.Within _⟩
  trans _ _ _ h h' := ⟨trans_of Local h.toLocal h'.toLocal, trans_of Pool.Within h.within h'.within⟩

/-- No page is unmapped, and nothing becomes free. -/
structure Extends (s s' : System) : Prop extends Remaps s s' where
  user : ∀ table page e, s.user table page = some e → s'.user table page = some e
  kernel : ∀ page e, s.kernel page = some e → s'.kernel page = some e

instance : IsPreorder System Extends where
  refl s := ⟨refl_of Remaps s, fun _ _ _ h => h, fun _ _ h => h⟩
  trans _ _ _ h h' := ⟨trans_of Remaps h.toRemaps h'.toRemaps,
    fun t p e he => h'.user t p e (h.user t p e he), fun p e he => h'.kernel p e (h.kernel p e he)⟩

/-- The user halves stay, when it is `safe`, and the virtual pages that are given back are in the
kernel half. -/
structure KernelOnly (safe : Prop) (s s' : System) : Prop extends Remaps s s' where
  user : safe → s'.user = s.user
  pages : ∀ page, s'.pages.free page = true → s.pages.free page = true ∨ userPages ≤ page

instance (safe : Prop) : IsPreorder System (KernelOnly safe) where
  refl s := ⟨refl_of Remaps s, fun _ => rfl, fun _ h => .inl h⟩
  trans _ _ _ h h' := ⟨trans_of Remaps h.toRemaps h'.toRemaps, fun hs => (h'.user hs).trans (h.user hs),
    fun page hp => (h'.pages page hp).elim (h.pages page) .inr⟩

theorem KernelOnly.mono {P Q : Prop} {s s' : System} (h : KernelOnly P s s') (hPQ : Q → P) :
    KernelOnly Q s s' :=
  ⟨h.toRemaps, fun hq => h.user (hPQ hq), h.pages⟩

theorem KernelOnly.always {P : Prop} {s s' : System} (h : KernelOnly True s s') : KernelOnly P s s' :=
  h.mono fun _ => trivial

/-- Virtual pages are allocated in the kernel half, and the frames of tables are taken. -/
structure System.Sound (s : System) : Prop where
  pages : ∀ page, s.pages.free page = true → userPages ≤ page
  tabled : s.toPool.Tabled

theorem KernelOnly.sound {safe : Prop} {s s' : System} (h : KernelOnly safe s s') (hs : s.Sound) :
    s'.Sound :=
  ⟨fun page hp => (h.pages page hp).elim (hs.pages page) id, h.within.tabled hs.tabled⟩

theorem Extends.lookup {s s' : System} (h : Extends s s') {table page : Nat}
    {e : Nat × EntryFlags} (he : s.lookup table page = some e) :
    s'.lookup table page = some e := by
  rw [System.lookup] at he ⊢
  split
  · next huser => exact h.user _ _ _ (by rwa [if_pos huser] at he)
  · next hkernel => exact h.kernel _ _ (by rwa [if_neg hkernel] at he)

theorem Extends.lookup_none {s s' : System} (h : Extends s s') {table page : Nat}
    (hnone : s'.lookup table page = none) : s.lookup table page = none := by
  cases he : s.lookup table page with
  | none => rfl
  | some e => exact absurd (h.lookup he) (by simp [hnone])

section Change

variable {s : System} {page : Nat} {f : PageMap → PageMap} {pool : Pool}

theorem System.change_user (h : page < userPages) : s.change page f =
    { s with user := Function.update s.user s.recursive (f (s.user s.recursive)) } := by
  simp only [change, if_pos h]

theorem System.change_kernel (h : userPages ≤ page) :
    s.change page f = { s with kernel := f s.kernel } := by
  simp only [change, if_neg (Nat.not_lt.mpr h)]

theorem remaps_change (hwithin : Pool.Within s.toPool pool) :
    Remaps s ((s.change page f).withPool pool) := by
  refine ⟨⟨rfl, rfl, fun table hne => ?_⟩, hwithin⟩
  show (if page < userPages then Function.update s.user s.recursive (f (s.user s.recursive))
    else s.user) table = s.user table
  split
  · exact Function.update_of_ne hne ..
  · rfl

end Change

section Primitives

variable {α : Type} {s : System} {page frame count : Nat} {flags : EntryFlags}

theorem ensures_check {c : Bool} {panic : Panic} {Q : Unit → System → Prop}
    (h : c = true → Q () s) : Ensures (check c panic) s Q := by
  cases c with
  | true => exact .pure (h rfl)
  | false => exact .throw _

theorem ensures_orPanic {o : Option α} {panic : Panic} {Q : α → System → Prop}
    (h : ∀ a, o = some a → Q a s) : Ensures (orPanic o panic) s Q := by
  cases o with
  | some a => exact .pure (h a rfl)
  | none => exact .throw _

theorem mapTo_spec : Ensures (mapTo page frame flags) s fun _ s' =>
    s.lookup s.recursive page = none ∧ ∃ pool, Pool.Within s.toPool pool ∧
      s' = (s.change page (Call.mapTo page frame flags).apply).withPool pool := by
  intro _ s' hrun
  rw [mapTo_run] at hrun
  split at hrun
  · next pool hcreate =>
    split at hrun
    · next hnone =>
      cases hrun
      exact ⟨Option.isNone_iff_eq_none.mp hnone, pool, Pool.within_createAll hcreate, rfl⟩
    · cases hrun
  · cases hrun

theorem unmapReturn_spec {keepParents : Bool} :
    Ensures (unmapReturn page keepParents) s fun _ s' => ∃ pool, Pool.Within s.toPool pool ∧
      (keepParents = true → pool = s.toPool) ∧
      s' = (s.change page (Call.unmapReturn page keepParents).apply).withPool pool := by
  cases h : s.lookup s.recursive page with
  | none =>
    refine .bind (.get (.bind (ensures_orPanic fun e he => ?_)))
    cases h.symm.trans he
  | some e =>
    obtain ⟨pool, hfrees, hkeep, hrun⟩ := @unmapReturn_run s page keepParents e h
    intro _ s' hrun'
    cases hrun.symm.trans hrun'
    exact ⟨pool, hfrees.toWithin, hkeep, rfl⟩

/-- The frames of a block that is allocated could be taken, and are taken. -/
theorem allocateFrames_spec : Ensures (allocateFrames count) s fun o s' =>
    Extends s s' ∧ KernelOnly True s s' ∧ ∀ start, o = some start → ∀ k, k < count →
      s.Loose (start + k) ∧ (s.toPool.Tabled → ¬ s'.Loose (start + k)) := by
  refine .bind (.get ?_)
  cases h : s.frames.allocate count with
  | none => exact .pure ⟨refl_of Extends s, refl_of (KernelOnly True) s, by simp⟩
  | some r =>
    obtain ⟨start, frames⟩ := r
    have hremaps : Remaps s { s with frames } :=
      ⟨⟨rfl, rfl, fun _ _ => rfl⟩, Pool.within_allocate h⟩
    refine .bind (.set (.pure ⟨⟨hremaps, fun _ _ _ he => he, fun _ _ he => he⟩,
      ⟨hremaps, fun _ => rfl, fun _ hp => .inl hp⟩, ?_⟩))
    rintro _ ⟨⟩ k hk
    exact ⟨Pool.loose_of_allocate h hk, fun hp => Pool.not_loose_of_allocate hp h hk⟩

theorem local_deallocateFrames {start : Nat} : Keeps Local (deallocateFrames start count) :=
  .of_modify fun _ => ⟨rfl, rfl, fun _ _ => rfl⟩

/-- Frames that were taken since are given back. -/
theorem deallocateFrames_spec {safe : Prop} {start : Nat} {s₀ : System} (h : KernelOnly safe s₀ s)
    (hloose : ∀ k, k < count → s₀.Loose (start + k))
    (htaken : ∀ k, k < count → ¬ s.Loose (start + k)) :
    Ensures (deallocateFrames start count) s fun _ s' => KernelOnly safe s₀ s' :=
  .of_modify ⟨⟨⟨h.cr3, h.recursive, h.others⟩,
    Pool.within_deallocate h.within hloose fun _ => htaken⟩, h.user, h.pages⟩

end Primitives

/-! ### Loops -/

/-- The pages were not mapped, now lead to their frames, and no others were mapped. -/
structure MapsAll (l : List (Nat × Nat)) (flags : EntryFlags) (s s' : System) : Prop
    extends Extends s s' where
  pages : s'.pages = s.pages
  entries : ∀ x ∈ l, s.lookup s.recursive x.1 = none ∧ s'.lookup s.recursive x.1 = some (x.2, flags)
  only : ∀ page e, s'.user s.recursive page = some e →
    s.user s.recursive page = some e ∨ ∃ x ∈ l, page = x.1 ∧ e = (x.2, flags)
  high : (∀ x ∈ l, userPages ≤ x.1) → s'.user = s.user

section Loops

variable {s : System} {flags : EntryFlags}

theorem mapsAll_change {page frame : Nat} {pool : Pool} (hnone : s.lookup s.recursive page = none)
    (hwithin : Pool.Within s.toPool pool) : MapsAll [(page, frame)] flags s
      ((s.change page (Call.mapTo page frame flags).apply).withPool pool) := by
  have hremaps := @remaps_change s page (Call.mapTo page frame flags).apply pool hwithin
  by_cases huser : page < userPages
  · rw [System.lookup, if_pos huser] at hnone
    rw [System.change_user huser] at hremaps ⊢
    refine ⟨⟨hremaps, fun table p e he => ?_, fun _ _ he => he⟩, rfl, ?_, fun p e he => ?_, fun hhigh => ?_⟩
    · by_cases htable : table = s.recursive
      · subst htable
        have hne : p ≠ page := fun h => by simp [h ▸ he] at hnone
        simpa [System.withPool, Call.apply, Function.update_of_ne hne] using he
      · simpa [System.withPool, Function.update_of_ne htable] using he
    · simp [System.lookup, System.withPool, huser, hnone, Call.apply]
    · have he := (congrFun (Function.update_self ..) p).symm.trans he
      by_cases hp : p = page
      · subst hp
        rw [Call.apply, Function.update_self] at he
        exact .inr ⟨_, List.mem_singleton_self _, rfl, (Option.some.inj he).symm⟩
      · exact .inl ((Function.update_of_ne hp ..).symm.trans he)
    · exact absurd (hhigh _ (List.mem_singleton_self _)) (Nat.not_le.mpr huser)
  · rw [System.lookup, if_neg huser] at hnone
    rw [System.change_kernel (Nat.le_of_not_lt huser)] at hremaps ⊢
    refine ⟨⟨hremaps, fun _ _ _ he => he, fun p e he => ?_⟩, rfl, ?_, fun _ _ he => .inl he, fun _ => rfl⟩
    · have hne : p ≠ page := fun h => by simp [h ▸ he] at hnone
      simpa [System.withPool, Call.apply, Function.update_of_ne hne] using he
    · simp [System.lookup, System.withPool, huser, hnone, Call.apply]

theorem MapsAll.append {l l' : List (Nat × Nat)} {s₁ s' : System} (h : MapsAll l flags s s₁)
    (h' : MapsAll l' flags s₁ s') : MapsAll (l ++ l') flags s s' where
  toExtends := trans_of Extends h.toExtends h'.toExtends
  pages := h'.pages.trans h.pages
  entries x hx := by
    rcases List.mem_append.mp hx with hx | hx
    · exact ⟨(h.entries x hx).1, h'.lookup (h.entries x hx).2⟩
    · have hentry := h'.entries x hx
      rw [h.recursive] at hentry
      exact ⟨h.lookup_none hentry.1, hentry.2⟩
  only page e he := by
    rcases h'.only page e (h.recursive ▸ he) with he | ⟨x, hx, hmaps⟩
    · rcases h.only page e (h.recursive ▸ he) with he | ⟨x, hx, hmaps⟩
      · exact .inl he
      · exact .inr ⟨x, List.mem_append_left l' hx, hmaps⟩
    · exact .inr ⟨x, List.mem_append_right l hx, hmaps⟩
  high hhigh := (h'.high fun x hx => hhigh x (List.mem_append_right l hx)).trans
    (h.high fun x hx => hhigh x (List.mem_append_left l' hx))

theorem mapAll_spec (l : List (Nat × Nat)) (s : System) :
    Ensures (mapAll l flags) s fun _ s' => MapsAll l flags s s' := by
  induction l generalizing s with
  | nil => exact .pure ⟨refl_of Extends s, rfl, by simp, fun _ _ he => .inl he, fun _ => rfl⟩
  | cons x l ih =>
    refine .seq mapTo_spec fun _ s₁ ⟨hnone, pool, hwithin, hs₁⟩ => (ih s₁).mono fun _ s' hrest => ?_
    subst hs₁
    exact (mapsAll_change hnone hwithin).append hrest

/-- Pages are unmapped, and no others. -/
structure UnmapsAll (l : List Nat) (s s' : System) : Prop extends Remaps s s' where
  pages : s'.pages = s.pages
  kernel : ∀ page, page ∉ l → s'.kernel page = s.kernel page
  high : (∀ page ∈ l, userPages ≤ page) → s'.user = s.user

theorem unmapAll_spec (l : List Nat) (s : System) :
    Ensures (unmapAll l) s fun _ s' => UnmapsAll l s s' := by
  induction l generalizing s with
  | nil => exact .pure ⟨refl_of Remaps s, rfl, fun _ _ => rfl, fun _ => rfl⟩
  | cons p l ih =>
    refine .bind (.bind (unmapReturn_spec.mono fun _ s₁ ⟨pool, hwithin, _, hs₁⟩ => .pure ?_))
    refine (ih s₁).mono fun _ s' hrest => ?_
    subst hs₁
    refine ⟨trans_of Remaps (remaps_change hwithin) hrest.toRemaps, hrest.pages, fun page hpage => ?_,
      fun hhigh => ?_⟩
    · obtain ⟨hne, hpage⟩ := not_or.mp (List.mem_cons.not.mp hpage)
      rw [hrest.kernel page hpage]
      show (if p < userPages then s.kernel else Function.update s.kernel p none) page = _
      split
      · rfl
      · exact Function.update_of_ne hne ..
    · rw [hrest.high fun page hpage => hhigh page (List.mem_cons_of_mem p hpage)]
      exact if_neg (Nat.not_lt.mpr (hhigh p List.mem_cons_self))

end Loops

end Faastr.Spaces
