import Faastr.Lib.Radix
import Faastr.Paging.Table

/-!
The mapper (`kernel/src/arch/x86_64/paging/mapper.rs`): mapping, remapping and
unmapping pages, and looking them up.

What the mapper's accesses come to in memory is settled here. The tables form a tree
under P4, whose nodes are frames and whose paths are lists of indices (`Machine.node`);
the table at the end of a path is mapped at `tableAddress`.

* `resolve_tableAddress`: through the recursive slot of P4 the processor's walk from
  that address ends in the frame of the table.
* `table_run`, `modifyTable_run`, `nextTable_run`: what an access does to a table of the
  tree.
-/

namespace Faastr.Paging

open Faastr.Lib Faastr.Memory Kernel

/-- `table::P4`. -/
def p4Address : Nat := 0xfffffffffffff000

def mapTo (page frame : Nat) (flags : EntryFlags) : Kernel Unit := do
  let p3 ← nextTableCreate p4Address (p4Index page)
  let p2 ← nextTableCreate p3 (p3Index page)
  let p1 ← nextTableCreate p2 (p2Index page)
  let entry := (← table p1) (p1Index page)
  check entry.isUnused (.alreadySet page entry frame flags)
  modifyTable p1 (·.incrementEntryCount)
  modifyTable p1 (·.setEntry (p1Index page) frame (flags.union .present))

def remap (page : Nat) (flags : EntryFlags) : Kernel Unit := do
  let p3 ← expect (← nextTable p4Address (p4Index page)) "failed to remap: no p3"
  let p2 ← expect (← nextTable p3 (p3Index page)) "failed to remap: no p2"
  let p1 ← expect (← nextTable p2 (p2Index page)) "failed to remap: no p1"
  let frame ← expect ((← table p1) (p1Index page)).pointedFrame "failed to remap: not mapped"
  modifyTable p1 (·.setEntry (p1Index page) frame (flags.union .present))

/-- `unmap_inner` frees the table that an entry leads to. -/
def freeTable (page address : Nat) (i : Index) (message : String) : Kernel Unit := do
  let frame ← orPanic ((← table address) i).pointedFrame (.unmapInner page message)
  modifyTable address (·.decrementEntryCount)
  modifyTable address (·.setUnused i)
  deallocateFrame frame

def unmapInner (page : Nat) (keepParents : Bool) : Kernel Nat := do
  let p3 ← orPanic (← nextTable p4Address (p4Index page)) (.unmapInner page "p3 not found")
  let p2 ← orPanic (← nextTable p3 (p3Index page)) (.unmapInner page "p2 not found")
  let p1 ← orPanic (← nextTable p2 (p2Index page)) (.unmapInner page "p1 not found")
  let frame ← orPanic ((← table p1) (p1Index page)).pointedFrame
    (.unmapInner page "frame not found")
  modifyTable p1 (·.decrementEntryCount)
  modifyTable p1 (·.setUnused (p1Index page))
  if keepParents || !(← table p1).isUnused then
    return frame
  freeTable page p2 (p2Index page) "p1_frame not found"
  if !(← table p2).isUnused then
    return frame
  freeTable page p3 (p3Index page) "p2_frame not found"
  if !(← table p3).isUnused then
    return frame
  freeTable page p4Address (p4Index page) "p3_frame not found"
  return frame

def unmapReturn (page : Nat) (keepParents : Bool) : Kernel Nat := unmapInner page keepParents

/-- The entry of a page in its P1, if there is a P1. -/
def leafEntry (page : Nat) : Kernel (Option Entry) := do
  let some p3 ← nextTable p4Address (p4Index page) | return none
  let some p2 ← nextTable p3 (p3Index page) | return none
  let some p1 ← nextTable p2 (p2Index page) | return none
  return some ((← table p1) (p1Index page))

def translatePage (page : Nat) : Kernel (Option Nat) :=
  return (← leafEntry page).bind (·.pointedFrame)

def translatePageFlags (page : Nat) : Kernel (Option EntryFlags) :=
  return (← leafEntry page).map (·.flags)

/-! ### The tree of tables -/

/-- The frame of the table that an entry leads to. -/
def Entry.next (e : Entry) : Option Nat :=
  if e.flags.contains .hugePage then none else e.pointedFrame

/-- `RECURSIVE_PAGE_PML4`. -/
def recursivePagePml4 : Index := ⟨511, by decide⟩

namespace Machine

/-- The entries of a table that map no page: of P4, the recursive slot. -/
def reserved (m : Machine) (frame : Nat) : Finset Index :=
  if frame = m.cr3 then {recursivePagePml4} else ∅

/-- The table below another. -/
def next (m : Machine) (frame : Nat) (i : Index) : Option Nat :=
  if i ∈ m.reserved frame then none else (m.memory frame i).next

/-- The table at the end of a path from P4. -/
def node (m : Machine) (p : List Index) : Option Nat := Radix.node m.next m.cr3 p

/-- The table that an entry leads to, be it reserved or not. -/
def link (m : Machine) (frame : Nat) (i : Index) : Option Nat := (m.memory frame i).next

/-- P4 is mapped in its own recursive slot. -/
def Recursive (m : Machine) : Prop := (m.memory m.cr3 recursivePagePml4).next = some m.cr3

/-- The table in frame `p4` is the one that the mapper works on: the recursive slot of the active
table leads to it, and so does its own. -/
def Viewed (m : Machine) (p4 : Nat) : Prop :=
  (m.memory m.cr3 recursivePagePml4).next = some p4 ∧ (m.memory p4 recursivePagePml4).next = some p4

theorem Recursive.viewed {m : Machine} (h : m.Recursive) : m.Viewed m.cr3 := ⟨h, h⟩

/-- The contents of one frame are replaced. -/
def write (m : Machine) (frame : Nat) (t : Table) : Machine :=
  { m with memory := Function.update m.memory frame t }

end Machine

theorem Table.nextTableAddress_eq (t : Table) (address : Nat) (i : Index) :
    t.nextTableAddress address i = (t i).next.map fun _ => below address i := by
  rw [nextTableAddress, Entry.next, Entry.pointedFrame]
  cases (t i).flags.contains .present <;> cases (t i).flags.contains .hugePage <;> rfl

/-! ### The recursive mapping -/

/-- Where the table at the end of a path is mapped. -/
def tableAddress (p : List Index) : Nat := p.foldl Table.below p4Address

theorem tableAddress_concat (p : List Index) (i : Index) :
    tableAddress (p ++ [i]) = Table.below (tableAddress p) i := by
  rw [tableAddress, List.foldl_append]
  rfl

theorem index_eq (n : Nat) : (index n).val = n % 512 := Nat.and_two_pow_sub_one_eq_mod n 9

/-- The page below another in the recursive mapping. -/
def pageBelow (page : Nat) (i : Index) : Nat := page * 512 % 2 ^ 52 + i.val

theorem below_page (page : Nat) (i : Index) :
    Table.below (page * pageSize) i = pageBelow page i * pageSize := by
  have hshift : (page * 4096 * 512) % 2 ^ 64 = 2 ^ 21 * (page % 2 ^ 43) := by omega
  have hlow : i.val * 4096 < 2 ^ 21 := by omega
  rw [Table.below, pageSize, pageBelow, Nat.shiftLeft_eq, Nat.shiftLeft_eq]
  rw [show (2 : Nat) ^ 9 = 512 from rfl, show (2 : Nat) ^ 12 = 4096 from rfl, hshift,
    ← Nat.two_pow_add_eq_or_of_lt hlow]
  omega

section Indices

variable (page : Nat) (i : Index)

theorem p4Index_below : p4Index (pageBelow page i) = p3Index page := by
  apply Fin.ext
  rw [p4Index, p3Index, index_eq, index_eq, Nat.shiftRight_eq_div_pow, Nat.shiftRight_eq_div_pow,
    pageBelow]
  omega

theorem p3Index_below : p3Index (pageBelow page i) = p2Index page := by
  apply Fin.ext
  rw [p3Index, p2Index, index_eq, index_eq, Nat.shiftRight_eq_div_pow, Nat.shiftRight_eq_div_pow,
    pageBelow]
  omega

theorem p2Index_below : p2Index (pageBelow page i) = p1Index page := by
  apply Fin.ext
  rw [p2Index, p1Index, index_eq, index_eq, Nat.shiftRight_eq_div_pow, pageBelow]
  omega

theorem p1Index_below : p1Index (pageBelow page i) = i := by
  apply Fin.ext
  rw [p1Index, index_eq, pageBelow]
  omega

end Indices

/-- The page that the table at the end of a path is mapped to. -/
def tablePage (p : List Index) : Nat := p.foldl pageBelow (2 ^ 52 - 1)

theorem tablePage_concat (p : List Index) (i : Index) :
    tablePage (p ++ [i]) = pageBelow (tablePage p) i := by
  rw [tablePage, List.foldl_append]
  rfl

theorem tableAddress_eq (p : List Index) : tableAddress p = tablePage p * pageSize := by
  induction p using List.reverseRecOn with
  | nil => rfl
  | append_singleton p i ih => rw [tableAddress_concat, ih, below_page, tablePage_concat]

/-- The tables above P1 are reached through the recursive slot. -/
theorem p4Index_tablePage {p : List Index} (hp : p.length < 3) :
    p4Index (tablePage p) = recursivePagePml4 := by
  match p with
  | [] => rfl
  | [a] => exact p4Index_below _ a
  | [a, b] => exact (p4Index_below _ b).trans (p3Index_below _ a)

theorem p3Index_tablePage {p : List Index} (hp : p.length < 3) :
    p3Index (tablePage p) = recursivePagePml4 := by
  match p with
  | [] => rfl
  | [a] => exact p3Index_below _ a
  | [a, b] => exact (p3Index_below _ b).trans (p2Index_below _ a)

theorem Entry.next_eq_some {e : Entry} {frame : Nat} (h : e.next = some frame) :
    e.pointedFrame = some frame ∧ e.flags.contains .hugePage = false := by
  rw [next] at h
  split at h
  · cases h
  · next hhuge => exact ⟨h, Bool.not_eq_true _ ▸ hhuge⟩

namespace Machine

variable {m : Machine} {p : List Index} {p4 n k : Nat} {i : Index}

/-- The walk from a page leads to a frame, through tables at every level. -/
def Walk (m : Machine) (page n : Nat) : Prop :=
  ∃ p3 p2 p1, (m.memory m.cr3 (p4Index page)).next = some p3 ∧
    (m.memory p3 (p3Index page)).next = some p2 ∧
    (m.memory p2 (p2Index page)).next = some p1 ∧
    (m.memory p1 (p1Index page)).next = some n

theorem resolve_of_walk {page : Nat} (h : m.Walk page n) : m.resolve (page * pageSize) = some n := by
  obtain ⟨p3, p2, p1, h4, h3, h2, h1⟩ := h
  obtain ⟨h3, hhuge3⟩ := Entry.next_eq_some h3
  obtain ⟨h2, hhuge2⟩ := Entry.next_eq_some h2
  rw [resolve, Nat.mul_div_cancel _ (by decide)]
  simp only [(Entry.next_eq_some h4).1, h3, h2, (Entry.next_eq_some h1).1, hhuge3, hhuge2,
    Option.bind_eq_bind, Option.bind_some, Bool.false_eq_true, if_false]

/-- One table further down. -/
theorem walk_below {page : Nat} (hview : m.Viewed p4) (hp4 : p4Index page = recursivePagePml4)
    (hp3 : p3Index page = recursivePagePml4) (h : m.Walk page n)
    (hk : (m.memory n i).next = some k) : m.Walk (pageBelow page i) k := by
  obtain ⟨q3, q2, q1, h4, h3, h2, h1⟩ := h
  rw [hp4, hview.1] at h4
  cases h4
  rw [hp3, hview.2] at h3
  cases h3
  refine ⟨p4, q1, n, ?_, ?_, ?_, ?_⟩
  · rw [p4Index_below, hp3, hview.1]
  · rw [p3Index_below, h2]
  · rw [p2Index_below, h1]
  · rw [p1Index_below, hk]

theorem next_eq_some (h : m.next n i = some k) : (m.memory n i).next = some k := by
  rw [next] at h
  split at h
  · cases h
  · exact h

theorem node_concat (hn : m.node p = some n) : m.node (p ++ [i]) = m.next n i :=
  Radix.node_concat_of hn

theorem walk_of_link (hview : m.Viewed p4) (hp : p.length ≤ 3)
    (hn : Radix.node m.link p4 p = some n) : m.Walk (tablePage p) n := by
  induction p using List.reverseRecOn generalizing n with
  | nil =>
    cases hn
    exact ⟨_, _, _, hview.1, hview.2, hview.2, hview.2⟩
  | append_singleton p i ih =>
    rw [List.length_append, List.length_singleton] at hp
    rw [Radix.node_concat] at hn
    obtain ⟨parent, hparent, hnext⟩ := Option.bind_eq_some_iff.mp hn
    rw [tablePage_concat]
    exact walk_below hview (p4Index_tablePage hp) (p3Index_tablePage hp) (ih (by omega) hparent) hnext

theorem link_of_node (hn : m.node p = some n) : Radix.node m.link m.cr3 p = some n := by
  induction p using List.reverseRecOn generalizing n with
  | nil => exact hn
  | append_singleton p i ih =>
    rw [node, Radix.node_concat] at hn
    obtain ⟨parent, hparent, hnext⟩ := Option.bind_eq_some_iff.mp hn
    rw [Radix.node_concat_of (ih hparent)]
    exact next_eq_some hnext

/-- **The recursive mapping**: the table at the end of a path is found at the address
of the path. -/
theorem resolve_tableAddress (hview : m.Viewed p4) (hp : p.length ≤ 3)
    (hn : Radix.node m.link p4 p = some n) : m.resolve (tableAddress p) = some n := by
  rw [tableAddress_eq]
  exact resolve_of_walk (walk_of_link hview hp hn)

end Machine

/-! ### Accesses to the tables of the tree -/

section Access

variable {m : Machine} {p : List Index} {p4 n : Nat} {i : Index}

/-- The mapper works on the table in frame `p4`, and the entries on a path from there lead to the
table in frame `n`. -/
structure Linked (m : Machine) (p4 : Nat) (p : List Index) (n : Nat) : Prop where
  viewed : m.Viewed p4
  length : p.length ≤ 3
  node : Radix.node m.link p4 p = some n

namespace Linked

theorem table_run (h : Linked m p4 p n) :
    (table (tableAddress p)).run m = .ok (m.memory n, m) := by
  have hres := Machine.resolve_tableAddress h.viewed h.length h.node
  rw [table, run_bind (show (get : Kernel Machine).run m = .ok (m, m) from rfl), hres]
  rfl

theorem below (h : Linked m p4 p n) (hp : p.length < 3) {k : Nat} (hk : m.link n i = some k) :
    Linked m p4 (p ++ [i]) k :=
  ⟨h.viewed, by simpa using hp, (Radix.node_concat_of h.node).trans hk⟩

theorem nextTable_run (h : Linked m p4 p n) : (nextTable (tableAddress p) i).run m =
    .ok ((m.link n i).map fun _ => tableAddress (p ++ [i]), m) := by
  rw [nextTable, run_bind h.table_run, Table.nextTableAddress_eq, tableAddress_concat]
  rfl

theorem modifyTable_run (h : Linked m p4 p n) (f : Table → Table) :
    (modifyTable (tableAddress p) f).run m = .ok ((), m.write n (f (m.memory n))) := by
  have hres := Machine.resolve_tableAddress h.viewed h.length h.node
  rw [modifyTable, run_bind (show (get : Kernel Machine).run m = .ok (m, m) from rfl), hres]
  rfl

/-- A table is still at the end of its path when no entry of it but its counter has changed. -/
theorem write (h : Linked m p4 p n) {t : Table} (hbody : ∀ j, (t j).next = (m.memory n j).next) :
    Linked (m.write n t) p4 p n := by
  have hnext : ∀ k j, ((m.write n t).memory k j).next = (m.memory k j).next := by
    intro k j
    by_cases hk : k = n
    · subst hk
      show (Function.update m.memory k t k j).next = _
      rw [Function.update_self, hbody j]
    · show (Function.update m.memory n t k j).next = _
      rw [Function.update_of_ne hk]
  refine ⟨⟨(hnext _ _).trans h.viewed.1, (hnext _ _).trans h.viewed.2⟩, h.length, ?_⟩
  rw [← h.node]
  exact Radix.node_congr fun q j k _ _ => hnext k j

end Linked

theorem write_write (t t' : Table) : (m.write n t).write n t' = m.write n t' := by
  rw [Machine.write, Machine.write, Machine.write, Function.update_idem]

/-- The table at the end of a path is in frame `n`. -/
structure At (m : Machine) (p : List Index) (n : Nat) : Prop where
  recursive : m.Recursive
  length : p.length ≤ 3
  node : m.node p = some n

theorem At.linked (h : At m p n) : Linked m m.cr3 p n :=
  ⟨h.recursive.viewed, h.length, Machine.link_of_node h.node⟩

theorem table_run (h : At m p n) : (table (tableAddress p)).run m = .ok (m.memory n, m) :=
  h.linked.table_run

theorem modifyTable_run (h : At m p n) (f : Table → Table) :
    (modifyTable (tableAddress p) f).run m = .ok ((), m.write n (f (m.memory n))) :=
  h.linked.modifyTable_run f

theorem nextTable_run (h : At m p n) : (nextTable (tableAddress p) i).run m =
    .ok ((m.memory n i).next.map fun _ => tableAddress (p ++ [i]), m) :=
  h.linked.nextTable_run

end Access

end Faastr.Paging
