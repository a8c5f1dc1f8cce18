import Faastr.Spaces.Load

/-!
The address space of a new context: what `spawn` (`kernel/src/context/call.rs`) enters into
the page table that it makes.

* `Enters`: the pages of some memories, and no others, were mapped.
* `newTable_spec`, `ensures_withTable`: the active table is as it was, once the temporary page
  is unmapped again.
* `Ready`: a new context finds a page for its arguments.
* `NewSpace`: an entry of its table leads to a read-only part of the image, or to a frame that
  could be taken.
-/

namespace Faastr.Spaces

open Faastr.Lib Faastr.Memory Faastr.Paging

/-! ### Entering memories into a table -/

/-- A page of the memory, and the entry for it. -/
def ContextMemory.Maps (m : ContextMemory) (page : Nat) (e : Nat × EntryFlags) : Prop :=
  ∃ k, k < m.frames.count ∧ page = m.contextAddress / pageSize + k ∧
    e = (m.frames.start + k, m.flags)

/-- A memory that is at a page of its own. -/
structure Placeable (m : ContextMemory) : Prop where
  unmapped : m.contextMapped = false
  positive : 0 < m.frames.count
  aligned : ∃ page, m.contextAddress = page * pageSize

/-- The pages of the memories, and no others, are entered into the table that the mapper
works on. -/
structure Enters (l : List ContextMemory) (s s' : System) : Prop extends Remaps s s' where
  pages : s'.pages = s.pages
  kept : ∀ page e, s.user s.recursive page = some e → s'.user s.recursive page = some e
  only : (∀ m ∈ l, Placeable m) → ∀ page e, s'.user s.recursive page = some e →
    s.user s.recursive page = some e ∨ ∃ m ∈ l, m.Maps page e
  entered : ∀ m ∈ l, Placeable m → ∀ page e, page < userPages → m.Maps page e →
    s'.user s.recursive page = some e

theorem Enters.append {l l' : List ContextMemory} {s s' s'' : System} (h : Enters l s s')
    (h' : Enters l' s' s'') : Enters (l ++ l') s s'' where
  toRemaps := trans_of Remaps h.toRemaps h'.toRemaps
  pages := h'.pages.trans h.pages
  kept page e he := h.recursive ▸ h'.kept page e (h.recursive ▸ h.kept page e he)
  only hall page e he := by
    obtain ⟨hl, hl'⟩ := List.forall_mem_append.mp hall
    rcases h'.only hl' page e (h.recursive ▸ he) with he | ⟨m, hm, hmaps⟩
    · rcases h.only hl page e (h.recursive ▸ he) with he | ⟨m, hm, hmaps⟩
      · exact .inl he
      · exact .inr ⟨m, List.mem_append_left l' hm, hmaps⟩
    · exact .inr ⟨m, List.mem_append_right l hm, hmaps⟩
  entered m hm hplace page e hpage hmaps := by
    rw [← h.recursive]
    rcases List.mem_append.mp hm with hm | hm
    · exact h'.kept page e (h.recursive ▸ h.entered m hm hplace page e hpage hmaps)
    · exact h'.entered m hm hplace page e hpage hmaps

section Enter

variable {s : System} {m : ContextMemory}

theorem mem_zip_range' {a b n : Nat} {x : Nat × Nat} :
    x ∈ (List.range' a n).zip (List.range' b n) ↔ ∃ k, k < n ∧ x = (a + k, b + k) := by
  rw [List.mem_iff_getElem]
  constructor
  · rintro ⟨k, hk, rfl⟩
    exact ⟨k, by simpa using hk, by simp⟩
  · rintro ⟨k, hk, rfl⟩
    exact ⟨k, by simpa using hk, by simp⟩

theorem Placeable.mem_zip (hm : Placeable m) {x : Nat × Nat} :
    x ∈ (pagesFrom m.contextAddress m.frames.count).zip m.frames.iter ↔ m.Maps x.1 (x.2, m.flags) := by
  obtain ⟨page, hpage⟩ := hm.aligned
  rw [hpage, Frames.iter, pagesFrom_pages hm.positive, pagesFrom_pages hm.positive, mem_zip_range',
    ContextMemory.Maps, hpage, Nat.mul_div_cancel page (by decide)]
  constructor
  · rintro ⟨k, hk, rfl⟩
    exact ⟨k, hk, rfl, rfl⟩
  · rintro ⟨k, hk, hpage, hframe⟩
    exact ⟨k, hk, Prod.ext hpage (congrArg Prod.fst hframe)⟩

theorem mapContext_enters : Ensures m.mapContext s fun m' s' => Enters [m] s s' ∧
    m' = { m with contextMapped := true } := by
  refine ContextMemory.mapContext_spec.mono fun _ s' ⟨hext, hpages, hm', hmaps⟩ =>
    ⟨⟨hext.toRemaps, hpages, hext.user _, fun hplace page e he => ?_, ?_⟩, hm'⟩
  · have hm := hplace m (List.mem_singleton_self m)
    rcases (hmaps hm.unmapped).only page e he with he | ⟨x, hx, rfl, rfl⟩
    · exact .inl he
    · exact .inr ⟨m, List.mem_singleton_self m, hm.mem_zip.mp hx⟩
  · intro m' hmem hm page e hpage hentry
    obtain rfl := List.mem_singleton.mp hmem
    obtain ⟨k, hk, rfl, rfl⟩ := hentry
    have hlookup := ((hmaps hm.unmapped).entries (_, m'.frames.start + k)
      (hm.mem_zip.mpr ⟨k, hk, rfl, rfl⟩)).2
    rwa [System.lookup, if_pos hpage] at hlookup

theorem mapContexts_enters {l : List ContextMemory} :
    Ensures (l.mapM (·.mapContext)) s fun _ s' => Enters l s s' := by
  induction l generalizing s with
  | nil => exact .pure ⟨refl_of Remaps s, rfl, fun _ _ he => he, fun _ _ _ he => .inl he, by simp⟩
  | cons m l ih =>
    rw [List.mapM_cons]
    refine .seq mapContext_enters fun _ s₁ ⟨h₁, _⟩ => .seq ih fun _ s₂ h₂ => .pure ?_
    exact h₁.append h₂

end Enter

/-! ### Working on another table -/

section Tables

variable {α : Type} {s : System} {frame table : Nat}

theorem temporaryPage_user : temporaryPage < userPages := by decide

theorem mapTemporary_spec : Ensures (mapTemporary frame) s fun _ s' =>
    s.user s.recursive temporaryPage = none ∧ ∃ pool e, Pool.Within s.toPool pool ∧
      s' = { s with
        toPool := pool
        user := Function.update s.user s.recursive
          (Function.update (s.user s.recursive) temporaryPage (some e)) } := by
  refine .bind (.get (.bind (ensures_check fun _ =>
    mapTo_spec.mono fun _ s' ⟨hnone, pool, hwithin, hs'⟩ => ?_)))
  rw [System.lookup, if_pos temporaryPage_user] at hnone
  rw [System.change_user temporaryPage_user] at hs'
  exact ⟨hnone, pool, _, hwithin, hs'⟩

theorem unmapTemporary_spec : Ensures unmapTemporary s fun _ s' => s' = { s with
    user := Function.update s.user s.recursive
      (Function.update (s.user s.recursive) temporaryPage none) } := by
  refine .seq unmapReturn_spec fun _ s' ⟨pool, _, hkeep, hs'⟩ => .pure ?_
  rw [hkeep rfl, System.change_user temporaryPage_user] at hs'
  exact hs'

/-- Once the temporary page is unmapped again, the table is as it was. -/
theorem update_temporaryPage {user user' : Nat → PageMap} {r : Nat} {e : Nat × EntryFlags}
    (hnone : user r temporaryPage = none)
    (hr : user' r = Function.update (user r) temporaryPage (some e)) :
    Function.update user' r (Function.update (user' r) temporaryPage none) =
      Function.update user' r (user r) := by
  rw [hr, Function.update_idem, ← hnone, Function.update_eq_self]

/-- The new table maps nothing, and the others are as they were. -/
theorem newTable_spec (hne : frame ≠ s.recursive) : Ensures (newTable frame) s fun _ s' =>
    ∃ pool, Pool.Within s.toPool pool ∧
      s' = { s with toPool := pool, user := Function.update s.user frame fun _ => none } := by
  refine .seq mapTemporary_spec fun _ s₁ ⟨hnone, pool, e, hwithin, hs₁⟩ => .bind (.of_modify ?_)
  refine unmapTemporary_spec.mono fun _ s' hs' => ?_
  subst hs₁ hs'
  have hactive := (Function.update_of_ne hne.symm (fun _ => none) _).trans
    (Function.update_self s.recursive (Function.update (s.user s.recursive) temporaryPage (some e)) s.user)
  refine ⟨{ pool with tables := fun id => if id.root = some frame then none else pool.tables id },
    trans_of Pool.Within hwithin (Pool.within_fewer fun id f h => ?_), ?_⟩
  · exact (Option.ite_none_left_eq_some.mp h).2
  · refine congrArg (fun user => { s with
      toPool := { pool with tables := fun id => if id.root = some frame then none else pool.tables id }
      user }) ((update_temporaryPage hnone hactive).trans ?_)
    rw [Function.update_comm hne, Function.update_idem, Function.update_eq_self]

/-- Code that works on another table than the active one, and on that one only. -/
theorem ensures_withTable {code : Kernel α} {Q : α → System → Prop}
    (hactive : s.recursive = s.cr3) (hne : table ≠ s.cr3)
    (h : ∀ user pool, user table = s.user table → Pool.Within s.toPool pool →
      Ensures code { s with toPool := pool, user, recursive := table } fun a s₁ =>
        Local { s with toPool := pool, user, recursive := table } s₁ ∧
        Q a { s₁ with user := Function.update s.user table (s₁.user table), recursive := s.cr3 }) :
    Ensures (withTable table code) s Q := by
  refine .bind (.get (.seq mapTemporary_spec fun _ s₁ ⟨hnone, pool, e, hwithin, hs₁⟩ =>
    .bind (.of_modify ?_)))
  subst hs₁
  rw [hactive] at hnone ⊢
  refine .seq (h _ pool (Function.update_of_ne hne ..) hwithin) fun a s₂ ⟨hlocal, hQ⟩ =>
    .bind (.of_modify ?_)
  refine .seq unmapTemporary_spec fun _ s₃ hs₃ => .pure ?_
  subst hs₃
  have hothers := hlocal.others
  have hactive := (hothers s.cr3 hne.symm).trans (Function.update_self ..)
  have huser : Function.update s₂.user s.cr3 (s.user s.cr3) =
      Function.update s.user table (s₂.user table) := by
    funext t
    by_cases htable : t = table
    · subst htable
      rw [Function.update_self, Function.update_of_ne hne]
    · rw [Function.update_of_ne htable]
      by_cases ht : t = s.cr3
      · rw [ht, Function.update_self]
      · rw [Function.update_of_ne ht, hothers t htable]
        exact Function.update_of_ne ht ..
  dsimp only
  rw [update_temporaryPage hnone hactive, huser]
  exact hQ

/-- Entering the kernel areas, which all tables share, changes nothing but what tables there
are. -/
theorem withTable_pure_spec (hactive : s.recursive = s.cr3) (hne : table ≠ s.cr3) :
    Ensures (withTable table (return ())) s fun _ s' => ∃ pool, Pool.Within s.toPool pool ∧
      s' = s.withPool pool := by
  refine ensures_withTable hactive hne fun user pool huser hwithin => .pure
    ⟨refl_of Local _, pool, hwithin, ?_⟩
  dsimp only
  rw [huser, Function.update_eq_self]
  exact congrArg (fun recursive => { s with toPool := pool, recursive }) hactive.symm

end Tables

/-! ### Spawning -/

/-- What holds when the kernel runs: the mapper works on the active table, whose frame is
taken. -/
structure System.Running (s : System) : Prop extends s.Sound where
  recursive : s.recursive = s.cr3
  cr3 : ¬ s.Loose s.cr3

/-- Memory of its own, mapped into the kernel, where it can be written. -/
structure Fresh (n : Nat) (m : ContextMemory) (s : System) : Prop where
  mapped : m.KernelWritable
  count : m.frames.count = n
  owned : ∀ k, k < n → ¬ s.Loose (m.frames.start + k)
  unshared : m.shared = false

/-- A context that was just made: it has one page for its arguments, which its page
table maps. The page is in the kernel half, or the context has a page table of its own. -/
structure Ready (c : Context) (s : System) : Prop extends s.Sound where
  recursive : s.recursive = s.cr3
  args : ∃ m page, c.args = { memory := some m, offset := 0 } ∧ Fresh 1 m s ∧
    m.contextAddress = page * pageSize ∧
    (∃ flags, s.lookup c.pageTable page = some (m.frames.start, flags)) ∧
    (page < userPages ∧ c.pageTable ≠ s.cr3 ∨ userPages ≤ page ∧ m.contextMapped = false)

/-- The address space of a context that was spawned from an image. -/
structure NewSpace (segments : List ContextMemory) (c : Context) (s s' : System) : Prop
    extends s'.Sound where
  cr3 : s'.cr3 = s.cr3
  recursive : s'.recursive = s.recursive
  within : Pool.Within s.toPool s'.toPool
  tableLoose : s.Loose c.pageTable
  tableTaken : ¬ s'.Loose c.pageTable
  others : ∀ table, table ≠ c.pageTable → s'.user table = s.user table
  /-- An entry is for a part of the image that is read only, or for a frame that could be taken. -/
  entries : ∀ page e, s'.user c.pageTable page = some e →
    (∃ m ∈ segments, m.flags.contains .writable = false ∧ m.Maps page e) ∨
      (s.Loose e.1 ∧ ¬ s'.Loose e.1 ∧ WriteXorExecute e.2)
  readOnly : ∀ m ∈ segments, m.flags.contains .writable = false → ∀ page e, page < userPages →
    m.Maps page e → s'.user c.pageTable page = some e

/-- Memory for a new context: its frames could be taken, and it can be put into a page table. -/
structure Fitting (m : ContextMemory) (s s' : System) : Prop extends Taken m s s' where
  aligned : ∃ page, m.contextAddress = page * pageSize
  wx : WriteXorExecute m.flags

theorem Fitting.extend {m : ContextMemory} {s₀ s s' s₁ : System} (h₀ : Remaps s₀ s)
    (h : Fitting m s s') (h₁ : Remaps s' s₁) : Fitting m s₀ s₁ :=
  ⟨h.toTaken.extend h₀ h₁, h.aligned, h.wx⟩

theorem Fitting.placeable {m : ContextMemory} {s s' : System} (h : Fitting m s s') : Placeable m :=
  ⟨h.unmapped, h.positive, h.aligned⟩

theorem CopyOf.fitting {m mc : ContextMemory} {s s' : System} (h : CopyOf m mc s s')
    (hm : Segment m) : Fitting mc s s' :=
  ⟨h.toTaken, h.address ▸ hm.aligned, h.flags ▸ hm.wx⟩

theorem Segment.refClone_placeable {m : ContextMemory} (h : Segment m) : Placeable m.refClone :=
  ⟨rfl, h.positive, h.aligned⟩

/-- The arguments, the stack and the heap of a context that is made. -/
structure Furnished (args stack heap : ContextMemory) (s s' : System) : Prop where
  fitting : ∀ m ∈ [args, stack, heap], Fitting m s s'
  writable : args.KernelWritable
  count : args.frames.count = 1
  address : args.contextAddress = userArgOffset

section Spawn

variable {s : System} {segments : List ContextMemory}

theorem freshMemory_fitting {count address : Nat} {what : String} (haligned : pageSize ∣ address)
    (hs : s.Sound) : Ensures (freshMemory count address what) s fun m s' =>
      KernelOnly True s s' ∧ Fitting m s s' ∧ m.KernelWritable ∧ m.frames.count = count ∧
        m.contextAddress = address := by
  refine (freshMemory_spec hs).mono fun m s' ⟨hkernel, htaken, hwritable, hcount, haddress, hflags⟩ =>
    ⟨hkernel, ⟨htaken, ⟨address / pageSize, ?_⟩, fun _ => ?_⟩, hwritable, hcount, haddress⟩
  · rw [haddress, Nat.div_mul_cancel haligned]
  · rw [hflags]
    decide

/-- What `spawn` allocates for the user half: copies of what can be written in the image, the
arguments, the stack and the heap. -/
theorem ensures_freshMemories {α : Type} {writable : List ContextMemory}
    {next : List ContextMemory → ContextMemory → ContextMemory → ContextMemory → Kernel α}
    {Q : α → System → Prop} (hs : s.Sound)
    (h : ∀ copies args stack heap s', KernelOnly (∀ m ∈ writable, 0 < m.frames.count) s s' →
      ((∀ m ∈ writable, Segment m) → ∀ m ∈ copies, Fitting m s s') → Furnished args stack heap s s' →
        Ensures (next copies args stack heap) s' Q) :
    Ensures (do
      let copies ← writable.mapM cloneWritable
      let args ← freshMemory 1 userArgOffset "Failed to allocate args"
      let stack ← freshMemory (userStackSize / pageSize) userStackOffset "Failed to allocate stack"
      let heap ← freshMemory 1 userHeapOffset "Failed to allocate heap"
      next copies args stack heap) s Q := by
  refine .seq (cloneAll_spec hs) fun copies s₁ ⟨hkernel₁, hcopies⟩ => ?_
  have hs₁ := hkernel₁.sound hs
  refine .seq (freshMemory_fitting (by decide) hs₁)
    fun args s₂ ⟨hkernel₂, hargs, hwritable, hcount, haddress⟩ => ?_
  have hs₂ := hkernel₂.sound hs₁
  refine .seq (freshMemory_fitting (by decide) hs₂) fun stack s₃ ⟨hkernel₃, hstack, _⟩ => ?_
  refine .seq (freshMemory_fitting (by decide) (hkernel₃.sound hs₂)) fun heap s₄ ⟨hkernel₄, hheap, _⟩ => ?_
  have hkernel₂₄ := trans_of (KernelOnly True) hkernel₃ hkernel₄
  have hkernel₁₄ := trans_of (KernelOnly True) hkernel₂ hkernel₂₄
  have hrem₂ := trans_of Remaps hkernel₁.toRemaps hkernel₂.toRemaps
  refine h copies args stack heap s₄ (trans_of (KernelOnly _) hkernel₁ hkernel₁₄.always) ?_
    ⟨?_, hwritable, hcount, haddress⟩
  · intro hsegments m hm
    obtain ⟨segment, hsegment, hcopy⟩ := hcopies m hm
    have hsegment := hsegments segment hsegment
    exact ((hcopy hsegment.positive).fitting hsegment).extend (refl_of Remaps s) hkernel₁₄.toRemaps
  · simp only [List.mem_cons, List.not_mem_nil, or_false]
    rintro m (rfl | rfl | rfl)
    · exact hargs.extend hkernel₁.toRemaps hkernel₂₄.toRemaps
    · exact hstack.extend hrem₂ hkernel₄.toRemaps
    · exact hheap.extend (trans_of Remaps hrem₂ hkernel₃.toRemaps) (refl_of Remaps s₄)

/-- And what it enters into the new table. -/
theorem ensures_enterAll {α : Type} {l : List ContextMemory} {args stack heap : ContextMemory}
    {result : List ContextMemory → ContextMemory → ContextMemory → ContextMemory → α} :
    Ensures (do
      let image ← l.mapM (·.mapContext)
      let args ← args.mapContext
      let stack ← stack.mapContext
      let heap ← heap.mapContext
      return result image args stack heap) s fun r s' => Enters (l ++ [args, stack, heap]) s s' ∧
        ∃ image stack heap, r = result image { args with contextMapped := true } stack heap := by
  refine .seq mapContexts_enters fun image s₁ h₁ => ?_
  refine .seq mapContext_enters fun args' s₂ ⟨h₂, hargs⟩ => ?_
  refine .seq mapContext_enters fun stack' s₃ ⟨h₃, _⟩ => ?_
  refine .seq mapContext_enters fun heap' s₄ ⟨h₄, _⟩ => .pure ?_
  exact ⟨h₁.append (h₂.append (h₃.append h₄)), image, stack', heap', by rw [hargs]⟩

/-! ### The table of a context -/

/-- A table for a new context, which maps nothing yet. -/
structure NewTable (table : Nat) (s s' : System) : Prop extends s'.Sound where
  cr3 : s'.cr3 = s.cr3
  recursive : s'.recursive = s'.cr3
  within : Pool.Within s.toPool s'.toPool
  loose : s.Loose table
  taken : ¬ s'.Loose table
  inactive : table ≠ s'.cr3
  user : s'.user = Function.update s.user table fun _ => none

theorem ensures_newTable {α : Type} {next : Nat → Kernel α} {Q : α → System → Prop} {s₀ : System}
    (hs : s₀.Running) (hkernel : KernelOnly True s₀ s)
    (h : ∀ table s', NewTable table s₀ s' → Ensures (next table) s' Q) :
    Ensures (do
      let frame ← expect (← allocateFrames 1) "no more frames in syscall::clone new_table"
      newTable frame
      withTable frame (return ())
      next frame) s Q := by
  refine .seq allocateFrames_spec fun o s₁ ⟨_, hkernel₁, hframe⟩ => ?_
  refine .bind (ensures_orPanic fun frame ho => ?_)
  obtain ⟨hloose, htaken⟩ := hframe frame ho 0 Nat.one_pos
  have hloose := hkernel.within.loose _ hloose
  have htaken := htaken (hkernel.sound hs.toSound).tabled
  have hkernel₁ := trans_of (KernelOnly True) hkernel hkernel₁
  -- The frame could be taken, so it is not the frame of the active table.
  have hne : frame ≠ s₁.cr3 := by
    rintro rfl
    rw [Nat.add_zero, hkernel₁.cr3] at hloose
    exact hs.cr3 hloose
  have hactive : s₁.recursive = s₁.cr3 := by rw [hkernel₁.recursive, hkernel₁.cr3, hs.recursive]
  refine .seq (newTable_spec (hactive ▸ hne)) fun _ s₂ ⟨pool₂, hwithin₂, hs₂⟩ => ?_
  refine .seq (withTable_pure_spec (hs₂ ▸ hactive) (hs₂ ▸ hne)) fun _ s₃ ⟨pool₃, hwithin₃, hs₃⟩ => ?_
  subst hs₂ hs₃
  have hwithin := trans_of Pool.Within hwithin₂ hwithin₃
  have hsound := hkernel₁.sound hs.toSound
  refine h frame _ ⟨⟨hsound.pages, hwithin.tabled hsound.tabled⟩, hkernel₁.cr3, hactive,
    trans_of Pool.Within hkernel₁.within hwithin, hloose, fun hfree => htaken (hwithin.loose _ hfree),
    hne, ?_⟩
  rw [← hkernel₁.user trivial]
  rfl

section Entered

variable {s₁ s₂ s₃ : System} {safe : Prop} {c : Context} {l copies : List ContextMemory}
  {args stack heap : ContextMemory} {user : Nat → PageMap} {pool : Pool}

/-- A context whose arguments are entered into its table can be called. -/
theorem ready_of_enters (hnew : NewTable c.pageTable s s₁) (hkernel : KernelOnly safe s₁ s₂)
    (hfurnished : Furnished args stack heap s₁ s₂) (hpool : Pool.Within s₂.toPool pool)
    (henters : Enters (l ++ [args, stack, heap])
      { s₂ with toPool := pool, user, recursive := c.pageTable } s₃)
    (hargs : c.args = { memory := some { args with contextMapped := true }, offset := 0 }) :
    Ready c { s₃ with
      user := Function.update s₂.user c.pageTable (s₃.user c.pageTable), recursive := s₂.cr3 } := by
  have hwithin := trans_of Pool.Within hpool henters.within
  have hsound := hkernel.sound hnew.toSound
  have hfit := hfurnished.fitting args List.mem_cons_self
  have hpage : args.contextAddress = userArgOffset / pageSize * pageSize := hfurnished.address
  have hentry := henters.entered args (List.mem_append_right l List.mem_cons_self) hfit.placeable
    (userArgOffset / pageSize) (args.frames.start, args.flags) (by decide)
    ⟨0, hfit.positive, by rw [hfurnished.address]; rfl, rfl⟩
  refine ⟨⟨fun page hp => hsound.pages page (henters.pages ▸ hp), hwithin.tabled hsound.tabled⟩,
    henters.cr3.symm, { args with contextMapped := true }, userArgOffset / pageSize, hargs,
    ⟨hfurnished.writable, hfurnished.count, fun k hk hloose => ?_, hfit.unshared⟩, hpage,
    ⟨args.flags, ?_⟩, .inl ⟨by decide, ?_⟩⟩
  · exact hfit.taken k (hfurnished.count.symm ▸ hk) (hwithin.loose _ hloose)
  · rw [System.lookup, if_pos (by decide)]
    exact (congrFun (Function.update_self ..) _).trans hentry
  · rw [henters.cr3]
    exact hkernel.cr3 ▸ hnew.inactive

/-- A table into which the image and other memory of the context were entered. -/
theorem newSpace_of_enters (hs : s.Running) (hnew : NewTable c.pageTable s s₁)
    (hkernel : KernelOnly True s₁ s₂) (hfitting : ∀ m ∈ copies, Fitting m s₁ s₂)
    (hpool : Pool.Within s₂.toPool pool) (huser : user c.pageTable = s₂.user c.pageTable)
    (hsegments : ∀ m ∈ segments, Segment m)
    (henters : Enters ((segments.filter fun m => !m.flags.contains .writable).map (·.refClone) ++
      copies) { s₂ with toPool := pool, user, recursive := c.pageTable } s₃) :
    NewSpace segments c s { s₃ with
      user := Function.update s₂.user c.pageTable (s₃.user c.pageTable), recursive := s₂.cr3 } := by
  have hwithin := trans_of Pool.Within hpool henters.within
  have hsound := hkernel.sound hnew.toSound
  have huser₂ := (hkernel.user trivial).trans hnew.user
  have hempty : user c.pageTable = fun _ => none := by
    rw [huser, huser₂, Function.update_self]
  have hself : Function.update s₂.user c.pageTable (s₃.user c.pageTable) c.pageTable =
      s₃.user c.pageTable := Function.update_self ..
  have hplaceable : ∀ m ∈ (segments.filter fun m => !m.flags.contains .writable).map (·.refClone) ++
      copies, Placeable m := by
    refine List.forall_mem_append.mpr ⟨fun m hm => ?_, fun m hm => (hfitting m hm).placeable⟩
    obtain ⟨segment, hsegment, rfl⟩ := List.mem_map.mp hm
    exact (hsegments segment (List.mem_filter.mp hsegment).1).refClone_placeable
  refine ⟨⟨fun page hp => hsound.pages page (henters.pages ▸ hp), hwithin.tabled hsound.tabled⟩,
    henters.cr3.trans (hkernel.cr3.trans hnew.cr3), ?_, ?_, hnew.loose, fun hloose => ?_, ?_, ?_, ?_⟩
  · exact (hkernel.cr3.trans hnew.cr3).trans hs.recursive.symm
  · exact trans_of Pool.Within hnew.within (trans_of Pool.Within hkernel.within hwithin)
  · exact hnew.taken (hkernel.within.loose _ (hwithin.loose _ hloose))
  · intro table hne
    refine (Function.update_of_ne hne ..).trans ?_
    rw [huser₂, Function.update_of_ne hne]
  · intro page e he
    have he := (congrFun hself page).symm.trans he
    rcases henters.only hplaceable page e he with he | ⟨m, hm, hmaps⟩
    · cases (congrFun hempty page).symm.trans he
    · rcases List.mem_append.mp hm with hm | hm
      · obtain ⟨m', hm', rfl⟩ := List.mem_map.mp hm
        obtain ⟨hm', hreadOnly⟩ := List.mem_filter.mp hm'
        exact .inl ⟨m', hm', by simpa using hreadOnly, hmaps⟩
      · obtain ⟨k, hk, -, rfl⟩ := hmaps
        have hfit := hfitting m hm
        exact .inr ⟨hnew.within.loose _ (hfit.loose k hk),
          fun hloose => hfit.taken k hk (hwithin.loose _ hloose), hfit.wx⟩
  · intro m hm hreadOnly page e hpage hmaps
    have hmem : m.refClone ∈ (segments.filter fun m => !m.flags.contains .writable).map (·.refClone) :=
      List.mem_map_of_mem (List.mem_filter.mpr ⟨hm, by simpa using hreadOnly⟩)
    exact (congrFun hself page).trans (henters.entered m.refClone (List.mem_append_left _ hmem)
      (hsegments m hm).refClone_placeable page e hpage hmaps)

end Entered

/-- **A context of an image can be called**, and its table leads to the image and to memory of its
own. -/
theorem spawnImage_spec (hs : s.Running) : Ensures (spawnImage segments) s fun r s' =>
    (∀ e, r = .error e → KernelOnly True s s') ∧ ∀ c, r = .ok c → Ready c s' ∧
      ((∀ m ∈ segments, Segment m) → NewSpace segments c s s') := by
  refine .seq (ContextMemory.newKernel_spec hs.toSound (by decide)) fun o s₁ ⟨hkernel₁, _⟩ => ?_
  cases o with
  | none => exact .pure ⟨fun _ _ => hkernel₁, by simp⟩
  | some kstack =>
    refine ensures_newTable hs hkernel₁ fun table s₂ hnew => ?_
    refine ensures_freshMemories hnew.toSound
      fun copies args stack heap s₃ hkernel₃ hcopies hfurnished => ?_
    refine ensures_withTable (by rw [hkernel₃.recursive, hkernel₃.cr3, hnew.recursive])
      (hkernel₃.cr3 ▸ hnew.inactive) fun user pool huser hpool => ?_
    refine ensures_enterAll.mono fun r s₄ ⟨henters, image, stack', heap', hr⟩ => ⟨henters.toLocal, ?_⟩
    subst hr
    refine ⟨by simp, ?_⟩
    rintro _ ⟨⟩
    refine ⟨ready_of_enters hnew hkernel₃ hfurnished hpool henters rfl, fun hsegments => ?_⟩
    have hwritable : ∀ m ∈ segments.filter fun m => m.flags.contains .writable, Segment m :=
      fun m hm => hsegments m (List.mem_filter.mp hm).1
    rw [List.append_assoc] at henters
    exact newSpace_of_enters hs hnew (hkernel₃.mono fun _ m hm => (hwritable m hm).positive)
      (List.forall_mem_append.mpr ⟨hcopies hwritable, hfurnished.fitting⟩) hpool huser hsegments henters

/-- A context of the kernel runs in the table that is active when it is spawned. -/
theorem spawnKernel_spec (hs : s.Running) : Ensures spawnKernel s fun r s' =>
    KernelOnly True s s' ∧ ∀ c, r = .ok c → c.pageTable = s.cr3 ∧ Ready c s' := by
  refine .seq (ContextMemory.newKernel_spec hs.toSound (by decide)) fun o s₁ ⟨hkernel₁, hstack⟩ => ?_
  cases o with
  | none => exact .pure ⟨hkernel₁, by simp⟩
  | some stack =>
    have hs₁ := hkernel₁.sound hs.toSound
    refine .seq (ContextMemory.newKernel_spec hs₁ (by decide)) fun o s₂ ⟨hkernel₂, hargs⟩ => ?_
    have hkernel := trans_of (KernelOnly True) hkernel₁ hkernel₂
    cases o with
    | none =>
      have htaken := (hstack stack rfl).1.extend (refl_of Remaps s) hkernel₂.toRemaps
      exact .seq (htaken.drop hkernel) fun _ s₃ h => .pure ⟨h, by simp⟩
    | some args =>
      obtain ⟨htaken, hwritable, hcount, page, haddress, hhigh, hlookup⟩ := hargs args rfl
      refine .bind (.get (.pure ⟨hkernel, ?_⟩))
      rintro _ ⟨⟩
      have hrecursive : s₂.recursive = s₂.cr3 := by rw [hkernel.recursive, hkernel.cr3, hs.recursive]
      refine ⟨hkernel.cr3, hkernel.sound hs.toSound, hrecursive, args.1, page, rfl,
        ⟨hwritable, hcount, fun k hk => htaken.taken k (hcount.symm ▸ hk), htaken.unshared⟩, haddress,
        ⟨kernelFlags, ?_⟩, .inr ⟨hhigh, htaken.unmapped⟩⟩
      rw [← hkernel₂.recursive, hrecursive] at hlookup
      exact hlookup

theorem spawn_ready (hs : s.Running) (m : Module) :
    Ensures (spawn m) s fun r s' => ∀ c, r = .ok c → Ready c s' := by
  cases m with
  | kernel => exact (spawnKernel_spec hs).mono fun _ _ h c hc => (h.2 c hc).2
  | image segments => exact (spawnImage_spec hs).mono fun _ _ h c hc => (h.2 c hc).1

end Spawn

end Faastr.Spaces
