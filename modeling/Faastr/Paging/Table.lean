import Faastr.Lib.Ensures
import Faastr.Paging.Entry
import Mathlib.Data.Fintype.Card
import Mathlib.Data.Finset.Card
import Mathlib.Logic.Function.Basic

/-!
Page tables in memory (`kernel/src/arch/x86_64/paging/table.rs`).

Physical memory is a function from frames to tables. The kernel never uses a physical
address: a table is reached at a virtual address, through the slot of P4 that leads
back to P4, and every access goes through the processor's own walk (`resolve`). Entries
are read from memory at each access; there is no translation cache in the model.

* `nextTableCreate` is the descent of `map_to`: it takes a frame from the allocator
  for a table that is missing.
* `Table.counted_occupy`, `Table.counted_vacate`: the counter of a table still counts when an
  entry is put to use, or out of use.
-/

namespace Faastr.Paging

open Faastr.Lib Faastr.Memory

/-- An index into a page table. -/
abbrev Index := Fin 512

/-! ### The indices of a page -/

/-- The low nine bits of a number. -/
def index (n : Nat) : Index := ⟨n &&& 0o777, Nat.lt_of_le_of_lt Nat.and_le_right (by decide)⟩

def p4Index (page : Nat) : Index := index (page >>> 27)

def p3Index (page : Nat) : Index := index (page >>> 18)

def p2Index (page : Nat) : Index := index (page >>> 9)

def p1Index (page : Nat) : Index := index page

/-! ### Tables -/

/-- The entries of a page table. -/
abbrev Table := Index → Entry

namespace Table

def entryCount (t : Table) : BitVec 64 := (t 0).counterBits

/-- The count is kept in the first entry. -/
def setEntryCount (t : Table) (count : BitVec 64) : Table :=
  Function.update t 0 ((t 0).setCounterBits count)

def isUnused (t : Table) : Bool := !decide (t.entryCount > 0)

def zero (_ : Table) : Table := fun _ => .zero

def incrementEntryCount (t : Table) : Table := t.setEntryCount (t.entryCount + 1)

def decrementEntryCount (t : Table) : Table := t.setEntryCount (t.entryCount - 1)

def setEntry (t : Table) (i : Index) (frame : Nat) (flags : EntryFlags) : Table :=
  Function.update t i ((t i).set frame flags)

def setUnused (t : Table) (i : Index) : Table := Function.update t i (t i).setUnused

/-- Where the table that entry `i` of the table at `address` leads to is mapped. -/
def below (address : Nat) (i : Index) : Nat := (address <<< 9) % 2 ^ 64 ||| i.val <<< 12

def nextTableAddress (t : Table) (address : Nat) (i : Index) : Option Nat :=
  let flags := (t i).flags
  if flags.contains .present && !flags.contains .hugePage then some (below address i) else none

end Table

/-! ### The machine -/

/-- Memory, the register that holds the frame of P4, and the frame allocator: the frames
that it hands out next, and those it has handed out and taken back so far. -/
structure Machine where
  memory : Nat → Table
  cr3 : Nat
  frames : List Nat
  allocated : List Nat
  deallocated : List Nat

/-- The processor's walk: the frame that an address lies in. -/
def Machine.resolve (m : Machine) (address : Nat) : Option Nat := do
  let page := address / pageSize
  let p3 ← (m.memory m.cr3 (p4Index page)).pointedFrame
  let e3 := m.memory p3 (p3Index page)
  let p2 ← e3.pointedFrame
  if e3.flags.contains .hugePage then return p2 + page % 2 ^ 18
  let e2 := m.memory p2 (p2Index page)
  let p1 ← e2.pointedFrame
  if e2.flags.contains .hugePage then return p1 + page % 2 ^ 9
  (m.memory p1 (p1Index page)).pointedFrame

/-- Why the kernel stops. -/
inductive Panic where
  | pageFault (address : Nat)
  | expected (message : String)
  /-- The assertion of `map_to`, with what it prints. -/
  | alreadySet (page : Nat) (entry : Entry) (frame : Nat) (flags : EntryFlags)
  /-- The panics of `unmap_inner`, with the page they print. -/
  | unmapInner (page : Nat) (message : String)
deriving DecidableEq

/-- Code of the kernel: it changes the machine, and may panic. -/
abbrev Kernel := StateT Machine (Except Panic)

namespace Kernel

variable {α : Type} {a : α} {m : Machine}

/-- The table that a reference leads to. -/
def table (address : Nat) : Kernel Table := do
  let m ← get
  match m.resolve address with
  | some frame => return m.memory frame
  | none => throw (.pageFault address)

/-- A change to the table that a mutable reference leads to. -/
def modifyTable (address : Nat) (f : Table → Table) : Kernel Unit := do
  let m ← get
  match m.resolve address with
  | some frame => set { m with memory := Function.update m.memory frame (f (m.memory frame)) }
  | none => throw (.pageFault address)

/-- `allocate_frames(1)`. -/
def allocateFrame : Kernel (Option Nat) := do
  let m ← get
  match m.frames with
  | [] => return none
  | frame :: frames =>
      set { m with frames, allocated := m.allocated ++ [frame] }
      return some frame

/-- `deallocate_frames(frame, 1)`. -/
def deallocateFrame (frame : Nat) : Kernel Unit :=
  modify fun m => { m with deallocated := m.deallocated ++ [frame] }

/-- `assert!`. -/
def check (c : Bool) (panic : Panic) : Kernel Unit := if c then return () else throw panic

/-- The value of an option, or a panic. -/
def orPanic (o : Option α) (panic : Panic) : Kernel α :=
  match o with
  | some a => return a
  | none => throw panic

def expect (o : Option α) (message : String) : Kernel α := orPanic o (.expected message)

def unwrap (o : Option α) : Kernel α :=
  expect o "called `Option::unwrap()` on a `None` value"

theorem check_run (panic : Panic) : (check true panic).run m = .ok ((), m) := rfl

theorem orPanic_run (a : α) (panic : Panic) : (orPanic (some a) panic).run m = .ok (a, m) := rfl

theorem expect_run (a : α) (message : String) :
    (expect (some a) message).run m = .ok (a, m) := rfl

theorem unwrap_run (a : α) : (unwrap (some a)).run m = .ok (a, m) := rfl

theorem allocateFrame_run {frame : Nat} {frames : List Nat} (h : m.frames = frame :: frames) :
    allocateFrame.run m =
      .ok (some frame, { m with frames, allocated := m.allocated ++ [frame] }) := by
  rw [allocateFrame, run_bind (show (get : Kernel Machine).run m = .ok (m, m) from rfl), h]
  rfl

end Kernel

open Kernel

/-- `next_table` and `next_table_mut`. -/
def nextTable (address : Nat) (i : Index) : Kernel (Option Nat) :=
  return (← table address).nextTableAddress address i

/-- The flags of an entry that leads to a table. -/
def tableFlags : EntryFlags := (EntryFlags.present.union .writable).union .userAccessible

/-- `next_table_create` makes a table that is missing. -/
def createTable (address : Nat) (i : Index) : Kernel Unit := do
  let entry := (← table address) i
  check (!entry.flags.contains .hugePage)
    (.expected "next_table_create does not support huge pages")
  let frame ← expect (← allocateFrame) "no frames available"
  modifyTable address (·.incrementEntryCount)
  modifyTable address (·.setEntry i frame tableFlags)
  modifyTable (← unwrap (← nextTable address i)) (·.zero)

def nextTableCreate (address : Nat) (i : Index) : Kernel Nat := do
  if (← nextTable address i).isNone then
    createTable address i
  unwrap (← nextTable address i)

/-! ### The counter of a table -/

namespace Table

variable {t : Table} {i j : Index} {frame : Nat} {fl : EntryFlags} {count : BitVec 64}

/-- The entries of a table, except for some, that are in use. -/
def occupied (t : Table) (S : Finset Index) : Nat :=
  (Finset.univ.filter fun i => i ∉ S ∧ (t i).isUnused = false).card

/-- An entry is put to use. -/
def occupy (t : Table) (i : Index) (frame : Nat) (flags : EntryFlags) : Table :=
  t.incrementEntryCount.setEntry i frame flags

/-- An entry is put out of use. -/
def vacate (t : Table) (i : Index) : Table := t.decrementEntryCount.setUnused i

theorem body_setEntryCount (hcount : count.toNat < 1024) :
    (t.setEntryCount count j).body = (t j).body := by
  by_cases hj : j = 0
  · rw [hj, setEntryCount, Function.update_self, Entry.body_setCounterBits hcount]
  · rw [setEntryCount, Function.update_of_ne hj]

theorem entryCount_setEntryCount (hcount : count.toNat < 1024) :
    (t.setEntryCount count).entryCount = count := by
  rw [entryCount, setEntryCount, Function.update_self, Entry.counterBits_setCounterBits hcount]

theorem body_setEntry (hframe : frame < 2 ^ 40) :
    (t.setEntry i frame fl j).body = if j = i then Entry.filled frame fl else (t j).body := by
  by_cases hj : j = i
  · rw [if_pos hj, hj, setEntry, Function.update_self, Entry.body_set hframe]
  · rw [if_neg hj, setEntry, Function.update_of_ne hj]

theorem entryCount_setEntry (hframe : frame < 2 ^ 40) :
    (t.setEntry i frame fl).entryCount = t.entryCount := by
  by_cases hi : 0 = i
  · rw [entryCount, setEntry, hi, Function.update_self, Entry.counterBits_set hframe, ← hi]
    rfl
  · rw [entryCount, setEntry, Function.update_of_ne hi]
    rfl

theorem body_setUnused : (t.setUnused i j).body = if j = i then 0 else (t j).body := by
  by_cases hj : j = i
  · rw [if_pos hj, hj, setUnused, Function.update_self, Entry.body_setUnused]
  · rw [if_neg hj, setUnused, Function.update_of_ne hj]

theorem entryCount_setUnused : (t.setUnused i).entryCount = t.entryCount := by
  by_cases hi : 0 = i
  · rw [entryCount, setUnused, hi, Function.update_self, Entry.counterBits_setUnused, ← hi]
    rfl
  · rw [entryCount, setUnused, Function.update_of_ne hi]
    rfl

/-- No table has more entries in use than it has entries. -/
theorem occupied_le (S : Finset Index) : t.occupied S ≤ 512 := by
  have hcard := Finset.card_filter_le Finset.univ fun i => i ∉ S ∧ (t i).isUnused = false
  rw [Finset.card_univ, Fintype.card_fin] at hcard
  exact hcard

theorem isUnused_eq_false : (t i).isUnused = false ↔ (t i).body ≠ 0 := by
  rw [← Bool.not_eq_true, Entry.isUnused_iff]

/-- One more entry is in use. -/
theorem occupied_succ {t' : Table} {S : Finset Index} (hi : i ∉ S) (hunused : (t i).body = 0)
    (hused : (t' i).body ≠ 0) (helse : ∀ j, j ≠ i → (t' j).body = (t j).body) :
    t'.occupied S = t.occupied S + 1 := by
  have hset : (Finset.univ.filter fun j => j ∉ S ∧ (t' j).isUnused = false) =
      insert i (Finset.univ.filter fun j => j ∉ S ∧ (t j).isUnused = false) := by
    ext j
    simp only [Finset.mem_filter, Finset.mem_univ, true_and, Finset.mem_insert, isUnused_eq_false]
    by_cases hj : j = i
    · subst hj
      exact ⟨fun _ => .inl rfl, fun _ => ⟨hi, hused⟩⟩
    · rw [helse j hj]
      exact ⟨.inr, fun h => h.resolve_left hj⟩
  rw [occupied, hset, Finset.card_insert_of_notMem, occupied]
  simp only [Finset.mem_filter, isUnused_eq_false]
  exact fun h => h.2.2 hunused

theorem occupied_congr {t' : Table} {S : Finset Index}
    (h : ∀ j, j ∉ S → ((t' j).body = 0 ↔ (t j).body = 0)) : t'.occupied S = t.occupied S := by
  refine congrArg Finset.card (Finset.filter_congr fun j _ => and_congr_right fun hj => ?_)
  rw [isUnused_eq_false, isUnused_eq_false, ne_eq, h j hj]

/-! ### Entries put to use and out of use -/

/-- The counter of a table is the number of its entries in use. -/
def Counted (t : Table) (S : Finset Index) : Prop := t.entryCount.toNat = t.occupied S

theorem counted_zero (S : Finset Index) : t.zero.Counted S := by
  have hset : (Finset.univ.filter fun i => i ∉ S ∧ (t.zero i).isUnused = false) = ∅ :=
    Finset.filter_false_of_mem fun i _ h => isUnused_eq_false.mp h.2 Entry.body_zero
  rw [Counted, occupied, hset, Finset.card_empty]
  show Entry.zero.counterBits.toNat = 0
  rw [Entry.counterBits_zero]
  rfl

section Change

variable {S : Finset Index}

theorem Counted.toNat_succ (h : t.Counted S) :
    (t.entryCount + 1).toNat = t.entryCount.toNat + 1 := by
  have hle := t.occupied_le S
  rw [← h] at hle
  rw [BitVec.toNat_add]
  apply Nat.mod_eq_of_lt
  show _ + 1 < _
  omega

theorem Counted.succ_lt (h : t.Counted S) : (t.entryCount + 1).toNat < 1024 := by
  have hle := t.occupied_le S
  rw [← h] at hle
  rw [h.toNat_succ]
  omega

theorem body_occupy (h : t.Counted S) (hframe : frame < 2 ^ 40) (j : Index) :
    (t.occupy i frame fl j).body = if j = i then Entry.filled frame fl else (t j).body := by
  rw [occupy, body_setEntry hframe, incrementEntryCount, body_setEntryCount h.succ_lt]

theorem counted_occupy (h : t.Counted S) (hi : i ∉ S) (hunused : (t i).body = 0)
    (hframe : frame < 2 ^ 40) (hpresent : fl.contains .present = true) :
    (t.occupy i frame fl).Counted S ∧
      (t.occupy i frame fl).occupied S = t.occupied S + 1 := by
  have hsucc : (t.occupy i frame fl).occupied S = t.occupied S + 1 := by
    refine occupied_succ hi hunused ?_ fun j hj => ?_
    · rw [body_occupy h hframe, if_pos rfl]
      exact Entry.filled_ne_zero hframe hpresent
    · rw [body_occupy h hframe, if_neg hj]
  refine ⟨?_, hsucc⟩
  rw [Counted, hsucc, occupy, entryCount_setEntry hframe, incrementEntryCount,
    entryCount_setEntryCount h.succ_lt, h.toNat_succ, h]

theorem Counted.toNat_pred (h : t.Counted S) (hpos : 0 < t.occupied S) :
    (t.entryCount - 1).toNat + 1 = t.entryCount.toNat := by
  rw [← h] at hpos
  have hone : (1 : BitVec 64) ≤ t.entryCount := BitVec.le_def.mpr hpos
  rw [BitVec.toNat_sub_of_le hone]
  exact Nat.sub_add_cancel hpos

theorem Counted.pred_lt (h : t.Counted S) (hpos : 0 < t.occupied S) :
    (t.entryCount - 1).toNat < 1024 := by
  have hle := t.occupied_le S
  have hpred := h.toNat_pred hpos
  rw [← h] at hle
  omega

/-- A table with an entry in use is not empty. -/
theorem occupied_pos (hi : i ∉ S) (hused : (t i).body ≠ 0) : 0 < t.occupied S := by
  refine Finset.card_pos.mpr ⟨i, ?_⟩
  simp only [Finset.mem_filter, Finset.mem_univ, true_and, isUnused_eq_false]
  exact ⟨hi, hused⟩

theorem body_vacate (h : t.Counted S) (hi : i ∉ S) (hused : (t i).body ≠ 0) (j : Index) :
    (t.vacate i j).body = if j = i then 0 else (t j).body := by
  rw [vacate, body_setUnused, decrementEntryCount,
    body_setEntryCount (h.pred_lt (occupied_pos hi hused))]

theorem counted_vacate (h : t.Counted S) (hi : i ∉ S) (hused : (t i).body ≠ 0) :
    (t.vacate i).Counted S ∧ t.occupied S = (t.vacate i).occupied S + 1 := by
  have hpos := occupied_pos hi hused
  have hsucc : t.occupied S = (t.vacate i).occupied S + 1 := by
    refine occupied_succ hi ?_ hused fun j hj => ?_
    · rw [body_vacate h hi hused, if_pos rfl]
    · rw [body_vacate h hi hused, if_neg hj]
  refine ⟨?_, hsucc⟩
  have hpred := h.toNat_pred hpos
  rw [h, hsucc] at hpred
  rw [Counted, vacate, entryCount_setUnused, decrementEntryCount,
    entryCount_setEntryCount (h.pred_lt hpos)]
  exact Nat.succ.inj hpred

/-- Setting an entry that is in use changes no count. -/
theorem counted_setEntry (h : t.Counted S) (hused : (t i).body ≠ 0) (hframe : frame < 2 ^ 40)
    (hpresent : fl.contains .present = true) :
    (t.setEntry i frame fl).Counted S ∧ (t.setEntry i frame fl).occupied S = t.occupied S := by
  have hsame : (t.setEntry i frame fl).occupied S = t.occupied S := by
    refine occupied_congr fun j _ => ?_
    rw [body_setEntry hframe]
    by_cases hj : j = i
    · rw [if_pos hj, hj]
      exact iff_of_false (Entry.filled_ne_zero hframe hpresent) hused
    · rw [if_neg hj]
  exact ⟨by rw [Counted, entryCount_setEntry hframe, hsame, h], hsame⟩

/-- The counter tells whether the table is empty. -/
theorem Counted.isUnused_iff (h : t.Counted S) : t.isUnused = true ↔ t.occupied S = 0 := by
  rw [← h, isUnused, Bool.not_eq_true', decide_eq_false_iff_not, gt_iff_lt, BitVec.lt_def]
  show ¬ 0 < t.entryCount.toNat ↔ _
  rw [Nat.pos_iff_ne_zero, not_not]

/-- In an empty table no entry is in use. -/
theorem body_of_empty (h : t.occupied S = 0) (hi : i ∉ S) : (t i).body = 0 := by
  by_contra hused
  exact absurd h (occupied_pos hi hused).ne'

end Change

end Table

end Faastr.Paging
