import Faastr.Paging.Mapper

/-!
Pointers from user code (`kernel/src/syscall/validate.rs`).

Before the kernel reads or writes a slice of a program, it looks at the flags of every page
that the slice touches. The size of the slice is a product that wraps, the upper bits of an
address are not looked at, and a huge page has no entry where the check looks for one.

* `Machine.leaf`: the entry that the processor uses for a page; `Machine.smallLeaf`: the one
  that the check reads.
* `ValidRange`: what it takes for a range of addresses to be accessible.
* `validateSlice_exact_iff`: the check is exact but for slices whose size wraps
  (`WrapsAround`), for addresses that are not canonical (`NotCanonical`) and for huge pages
  (`OnHugePage`).
-/

namespace Faastr.Paging

open Faastr.Lib Faastr.Memory Kernel

/-! ### The check -/

/-- The message of the error. -/
def invalidMemoryAddress : String := "Invalid memory address"

section Check

variable {M : Type → Type} [Monad M] (translatePageFlags : Nat → M (Option EntryFlags))

/-- The loop of `validate`, for any way to look up the flags of a page. -/
def validatePages (flags : EntryFlags) : List Nat → M (Except String Unit)
  | [] => return .ok ()
  | page :: pages => do
      match ← translatePageFlags page with
      | some pageFlags =>
          if pageFlags.contains flags then validatePages flags pages
          else return .error invalidMemoryAddress
      | none => return .error invalidMemoryAddress

def validate (address size : Nat) (flags : EntryFlags) : M (Except String Unit) := do
  if size = 0 then return .error invalidMemoryAddress
  let endAddress := address + (size - 1)
  if 2 ^ 64 ≤ endAddress then return .error invalidMemoryAddress
  let first := address / pageSize
  validatePages translatePageFlags flags (List.range' first (endAddress / pageSize + 1 - first))

/-- The two functions differ in the flags. They give the slice at `ptr` with this many
elements, each of `size` bytes. -/
def validateWith (flags : EntryFlags) (size ptr len : Nat) : M (Except String Nat) := do
  if len = 0 then return .ok 0
  match ← validate translatePageFlags ptr (len * size % 2 ^ 64) flags with
  | .ok () => return .ok len
  | .error e => return .error e

end Check

def readFlags : EntryFlags := EntryFlags.present.union .userAccessible

def writeFlags : EntryFlags := (EntryFlags.present.union .writable).union .userAccessible

def validateSlice (size ptr len : Nat) : Kernel (Except String Nat) :=
  validateWith translatePageFlags readFlags size ptr len

def validateSliceMut (size ptr len : Nat) : Kernel (Except String Nat) :=
  validateWith translatePageFlags writeFlags size ptr len

/-! ### The entry of a page -/

namespace Machine

/-- The entry that the processor uses for a page: in P1, or above it for a huge page. -/
def leaf (m : Machine) (page : Nat) : Option Entry := do
  let p3 ← m.link m.cr3 (p4Index page)
  let e3 := m.memory p3 (p3Index page)
  let p2 ← e3.pointedFrame
  if e3.flags.contains .hugePage then return e3
  let e2 := m.memory p2 (p2Index page)
  let p1 ← e2.pointedFrame
  if e2.flags.contains .hugePage then return e2
  return m.memory p1 (p1Index page)

/-- The entry in P1. -/
def smallLeaf (m : Machine) (page : Nat) : Option Entry := do
  let p3 ← m.link m.cr3 (p4Index page)
  let p2 ← m.link p3 (p3Index page)
  let p1 ← m.link p2 (p2Index page)
  return m.memory p1 (p1Index page)

variable {m : Machine} {page : Nat} {e : Entry}

/-- A page that has an entry in P1 has no other. -/
theorem leaf_of_small (h : m.smallLeaf page = some e) : m.leaf page = some e := by
  simp only [smallLeaf, Option.bind_eq_bind, Option.bind_eq_some_iff, Option.pure_def] at h
  obtain ⟨p3, h3, p2, h2, p1, h1, hentry⟩ := h
  obtain ⟨h2, hhuge3⟩ := Entry.next_eq_some h2
  obtain ⟨h1, hhuge2⟩ := Entry.next_eq_some h1
  simp only [leaf, h3, h2, h1, hhuge3, hhuge2, Option.bind_eq_bind, Option.bind_some,
    Bool.false_eq_true, if_false]
  exact hentry

end Machine

section Lookup

variable {m : Machine} {page : Nat} {flags : EntryFlags}

/-- The lookup reads the entry in P1, for every page number. -/
theorem leafEntry_small (hrec : m.Recursive) :
    (leafEntry page).run m = .ok (m.smallLeaf page, m) := by
  have hp4 : Linked m m.cr3 [] m.cr3 := ⟨hrec.viewed, by simp, rfl⟩
  rw [leafEntry, Machine.smallLeaf]
  refine (run_bind hp4.nextTable_run).trans ?_
  cases h3 : m.link m.cr3 (p4Index page) with
  | none => rfl
  | some p3 =>
    have hp3 := hp4.below (by simp) h3
    refine (run_bind hp3.nextTable_run).trans ?_
    simp only [Option.bind_eq_bind, Option.bind_some]
    cases h2 : m.link p3 (p3Index page) with
    | none => rfl
    | some p2 =>
      have hp2 := hp3.below (by simp) h2
      refine (run_bind hp2.nextTable_run).trans ?_
      simp only [Option.bind_some]
      cases h1 : m.link p2 (p2Index page) with
      | none => rfl
      | some p1 => exact run_bind (hp2.below (by simp) h1).table_run

theorem translatePageFlags_small (hrec : m.Recursive) (page : Nat) :
    (translatePageFlags page).run m = .ok ((m.smallLeaf page).map (·.flags), m) := by
  rw [translatePageFlags, run_bind (leafEntry_small hrec)]
  rfl

end Lookup

/-! ### Accessible addresses -/

def Canonical (address : Nat) : Prop := address < 2 ^ 47 ∨ 2 ^ 64 - 2 ^ 47 ≤ address

namespace Machine

/-- The page may be accessed. -/
def Allows (m : Machine) (flags : EntryFlags) (page : Nat) : Prop :=
  ∃ e, m.leaf page = some e ∧ e.flags.contains flags = true

/-- The page is not a huge page, and may be accessed. -/
def AllowsSmall (m : Machine) (flags : EntryFlags) (page : Nat) : Prop :=
  ∃ e, m.smallLeaf page = some e ∧ e.flags.contains flags = true

/-- The range is one of addresses, all of which are canonical and may be accessed. -/
structure ValidRange (m : Machine) (flags : EntryFlags) (start size : Nat) : Prop where
  fits : start + size ≤ 2 ^ 64
  canonical : ∀ a, start ≤ a → a < start + size → Canonical a
  allowed : ∀ a, start ≤ a → a < start + size → m.Allows flags (a / pageSize)

/-- The range is one of words, and its pages, whatever the upper bits of their numbers are,
are not huge and may be accessed. -/
structure SmallRange (m : Machine) (flags : EntryFlags) (start size : Nat) : Prop where
  fits : start + size ≤ 2 ^ 64
  allowed : ∀ a, start ≤ a → a < start + size → m.AllowsSmall flags (a / pageSize)

end Machine

/-! ### When the check is wrong -/

section Wrong

variable (m : Machine) (flags : EntryFlags) (size ptr len : Nat)

/-- The size of the slice is not a word, and what is left of it looks valid. -/
def WrapsAround : Prop :=
  2 ^ 64 ≤ len * size ∧ 0 < len * size % 2 ^ 64 ∧ m.SmallRange flags ptr (len * size % 2 ^ 64)

/-- Some address of the slice is not canonical, and it looks valid without its upper bits. -/
def NotCanonical : Prop :=
  len * size < 2 ^ 64 ∧ m.SmallRange flags ptr (len * size) ∧
    ∃ a, ptr ≤ a ∧ a < ptr + len * size ∧ ¬ Canonical a

/-- The slice is valid, and a part of it is on a huge page. -/
def OnHugePage : Prop :=
  m.ValidRange flags ptr (len * size) ∧
    ∃ a, ptr ≤ a ∧ a < ptr + len * size ∧ m.smallLeaf (a / pageSize) = none

/-- The check accepts the slices that are empty or valid, and no others. -/
def Exact (call : Kernel (Except String Nat)) : Prop :=
  ∃ r, call.run m = .ok (r, m) ∧
    (r = .ok len ↔ len = 0 ∨ m.ValidRange flags ptr (len * size))

end Wrong

/-! ### What the check does -/

section Check

variable {m : Machine} {start n : Nat}

theorem validatePages_run (hrec : m.Recursive) (flags : EntryFlags) (pages : List Nat) :
    ∃ r, (validatePages translatePageFlags flags pages).run m = .ok (r, m) ∧
      (r = .ok () ↔ ∀ page ∈ pages, m.AllowsSmall flags page) := by
  induction pages with
  | nil => exact ⟨.ok (), rfl, by simp⟩
  | cons page pages ih =>
    obtain ⟨r, hrun, hr⟩ := ih
    have hlookup := translatePageFlags_small hrec page
    rw [validatePages, List.forall_mem_cons]
    cases he : m.smallLeaf page with
    | none =>
      rw [he] at hlookup
      refine ⟨.error invalidMemoryAddress, run_bind hlookup, fun h => ?_, fun h => ?_⟩
      · cases h
      · obtain ⟨e, he', -⟩ := h.1
        rw [he] at he'
        cases he'
    | some e =>
      rw [he] at hlookup
      by_cases hallowed : e.flags.contains flags = true
      · refine ⟨r, (run_bind hlookup).trans ((congrArg (StateT.run · m) (if_pos hallowed)).trans hrun),
          fun h => ⟨⟨e, he, hallowed⟩, hr.mp h⟩, fun h => hr.mpr h.2⟩
      · refine ⟨.error invalidMemoryAddress,
          (run_bind hlookup).trans (congrArg (StateT.run · m) (if_neg hallowed)),
          fun h => ?_, fun h => ?_⟩
        · cases h
        · obtain ⟨e', he', hallowed'⟩ := h.1
          cases he.symm.trans he'
          exact absurd hallowed' hallowed

/-- The pages of a range are the pages of its addresses. -/
theorem forall_pages_iff {P : Nat → Prop} (hn : 0 < n) :
    (∀ page ∈ List.range' (start / pageSize)
      ((start + (n - 1)) / pageSize + 1 - start / pageSize), P page) ↔
    ∀ a, start ≤ a → a < start + n → P (a / pageSize) := by
  simp only [List.mem_range'_1]
  constructor
  · intro h a hlow hhigh
    have hle : start / pageSize ≤ a / pageSize := Nat.div_le_div_right hlow
    have hge : a / pageSize ≤ (start + (n - 1)) / pageSize := Nat.div_le_div_right (by omega)
    exact h _ ⟨hle, by omega⟩
  · rintro h page ⟨hlow, hhigh⟩
    -- The page has its first address in the range, or the range begins on it.
    have haddress : max start (page * pageSize) / pageSize = page := by
      simp only [pageSize] at *
      omega
    rw [← haddress]
    refine h _ (le_max_left ..) ?_
    simp only [pageSize] at *
    omega

theorem validate_run (hrec : m.Recursive) (start n : Nat) (flags : EntryFlags) :
    ∃ r, (validate translatePageFlags start n flags).run m = .ok (r, m) ∧
      (r = .ok () ↔ 0 < n ∧ m.SmallRange flags start n) := by
  rw [validate]
  by_cases hzero : n = 0
  · refine ⟨.error invalidMemoryAddress, congrArg (StateT.run · m) (if_pos hzero), fun h => ?_,
      fun h => absurd hzero h.1.ne'⟩
    cases h
  by_cases hend : 2 ^ 64 ≤ start + (n - 1)
  · refine ⟨.error invalidMemoryAddress, ?_, fun h => ?_, fun h => ?_⟩
    · rw [if_neg hzero]
      exact congrArg (StateT.run · m) (if_pos hend)
    · cases h
    · have := h.2.fits
      omega
  · obtain ⟨r, hrun, hr⟩ := validatePages_run hrec flags
      (List.range' (start / pageSize) ((start + (n - 1)) / pageSize + 1 - start / pageSize))
    rw [forall_pages_iff (by omega)] at hr
    refine ⟨r, ?_, fun h => ⟨by omega, by omega, hr.mp h⟩, fun h => hr.mpr h.2.allowed⟩
    rw [if_neg hzero]
    exact (congrArg (StateT.run · m) (if_neg hend)).trans hrun

theorem validateWith_run (hrec : m.Recursive) (flags : EntryFlags) (size ptr len : Nat) :
    ∃ r, (validateWith translatePageFlags flags size ptr len).run m = .ok (r, m) ∧ (r = .ok len ↔
      len = 0 ∨ 0 < len * size % 2 ^ 64 ∧ m.SmallRange flags ptr (len * size % 2 ^ 64)) := by
  rw [validateWith]
  by_cases hlen : len = 0
  · exact ⟨.ok 0, congrArg (StateT.run · m) (if_pos hlen), fun _ => .inl hlen, fun _ => by rw [hlen]⟩
  · obtain ⟨r, hrun, hr⟩ := validate_run hrec ptr (len * size % 2 ^ 64) flags
    rw [if_neg hlen]
    cases r with
    | ok u =>
      exact ⟨.ok len, run_bind hrun, fun _ => .inr (hr.mp rfl), fun _ => rfl⟩
    | error e =>
      refine ⟨.error e, run_bind hrun, fun h => ?_, fun h => ?_⟩
      · cases h
      · cases hr.mpr (h.resolve_left hlen)

end Check

/-! ### When it is right -/

section Right

variable {m : Machine} {flags : EntryFlags} {size ptr len start n : Nat}

/-- No range of addresses is all there are: some of them are not canonical. -/
theorem Machine.ValidRange.lt (h : m.ValidRange flags start n) : n < 2 ^ 64 := by
  have hfits := h.fits
  by_contra hlarge
  have := h.canonical (2 ^ 47) (by omega) (by omega)
  rw [Canonical] at this
  omega

theorem Machine.SmallRange.valid (h : m.SmallRange flags start n)
    (hcanonical : ∀ a, start ≤ a → a < start + n → Canonical a) : m.ValidRange flags start n := by
  refine ⟨h.fits, hcanonical, fun a hlow hhigh => ?_⟩
  obtain ⟨e, he, hallowed⟩ := h.allowed a hlow hhigh
  exact ⟨e, leaf_of_small he, hallowed⟩

theorem Machine.ValidRange.small (h : m.ValidRange flags start n)
    (hsmall : ∀ a, start ≤ a → a < start + n → m.smallLeaf (a / pageSize) ≠ none) :
    m.SmallRange flags start n := by
  refine ⟨h.fits, fun a hlow hhigh => ?_⟩
  obtain ⟨e, he, hallowed⟩ := h.allowed a hlow hhigh
  obtain ⟨e', he'⟩ := Option.ne_none_iff_exists'.mp (hsmall a hlow hhigh)
  cases he.symm.trans (leaf_of_small he')
  exact ⟨e, he', hallowed⟩

/-- What the check accepts is what is valid, but for the three kinds of slices. -/
theorem accepted_iff_valid (hpos : 0 < len * size) :
    ((0 < len * size % 2 ^ 64 ∧ m.SmallRange flags ptr (len * size % 2 ^ 64)) ↔
      m.ValidRange flags ptr (len * size)) ↔
    ¬ WrapsAround m flags size ptr len ∧ ¬ NotCanonical m flags size ptr len ∧
      ¬ OnHugePage m flags size ptr len := by
  constructor
  · intro h
    refine ⟨fun ⟨hwraps, haccepted⟩ => ?_, fun ⟨hlt, hsmall, a, hlow, hhigh, hnot⟩ => ?_,
      fun ⟨hvalid, a, hlow, hhigh, hnone⟩ => ?_⟩
    · exact absurd (h.mp haccepted).lt (Nat.not_lt.mpr hwraps)
    · rw [Nat.mod_eq_of_lt hlt] at h
      exact hnot ((h.mp ⟨hpos, hsmall⟩).canonical a hlow hhigh)
    · rw [Nat.mod_eq_of_lt hvalid.lt] at h
      obtain ⟨e, he, -⟩ := (h.mpr hvalid).2.allowed a hlow hhigh
      rw [hnone] at he
      cases he
  · rintro ⟨hwraps, hcanonical, hhuge⟩
    constructor
    · rintro ⟨hrest, hsmall⟩
      have hlt : len * size < 2 ^ 64 := by
        by_contra hge
        exact hwraps ⟨Nat.le_of_not_lt hge, hrest, hsmall⟩
      rw [Nat.mod_eq_of_lt hlt] at hsmall
      refine hsmall.valid fun a hlow hhigh => ?_
      by_contra hnot
      exact hcanonical ⟨hlt, hsmall, a, hlow, hhigh, hnot⟩
    · intro hvalid
      rw [Nat.mod_eq_of_lt hvalid.lt]
      refine ⟨hpos, hvalid.small fun a hlow hhigh hnone => ?_⟩
      exact hhuge ⟨hvalid, a, hlow, hhigh, hnone⟩

theorem validateWith_exact_iff (hrec : m.Recursive) (hsize : 1 ≤ size) :
    Exact m flags size ptr len (validateWith translatePageFlags flags size ptr len) ↔
      len = 0 ∨ ¬ WrapsAround m flags size ptr len ∧ ¬ NotCanonical m flags size ptr len ∧
        ¬ OnHugePage m flags size ptr len := by
  obtain ⟨r, hrun, hr⟩ := validateWith_run hrec flags size ptr len
  have hexact : Exact m flags size ptr len (validateWith translatePageFlags flags size ptr len) ↔
      (r = .ok len ↔ len = 0 ∨ m.ValidRange flags ptr (len * size)) := by
    constructor
    · rintro ⟨r', hrun', hr'⟩
      cases hrun.symm.trans hrun'
      exact hr'
    · exact fun h => ⟨r, hrun, h⟩
  rw [hexact, hr]
  by_cases hlen : len = 0
  · exact ⟨fun _ => .inl hlen, fun _ => ⟨fun _ => .inl hlen, fun _ => .inl hlen⟩⟩
  · simp only [hlen, false_or]
    exact accepted_iff_valid (Nat.mul_pos (Nat.pos_of_ne_zero hlen) hsize)

end Right

/-- **The checks are exact but for three kinds of slices**: those whose size wraps around, those
with an address that is not canonical, and those on a huge page. -/
theorem validateSlice_exact_iff {m : Machine} {size ptr len : Nat} (hrec : m.Recursive)
    (hsize : 1 ≤ size) :
    (Exact m readFlags size ptr len (validateSlice size ptr len) ↔
      len = 0 ∨ ¬ WrapsAround m readFlags size ptr len ∧ ¬ NotCanonical m readFlags size ptr len ∧
        ¬ OnHugePage m readFlags size ptr len) ∧
    (Exact m writeFlags size ptr len (validateSliceMut size ptr len) ↔
      len = 0 ∨ ¬ WrapsAround m writeFlags size ptr len ∧
        ¬ NotCanonical m writeFlags size ptr len ∧ ¬ OnHugePage m writeFlags size ptr len) :=
  ⟨validateWith_exact_iff hrec hsize, validateWith_exact_iff hrec hsize⟩

/-! ### One page -/

/-- Page 1 leads to frame 9, and may be written by the user. -/
def userMachine : Machine where
  memory frame i :=
    if frame = 1 then
      if i.val = 511 then ⟨0x1003⟩ else if i.val = 0 then ⟨0x2007⟩ else .zero
    else if frame = 2 ∧ i.val = 0 then ⟨0x3007⟩
    else if frame = 3 ∧ i.val = 0 then ⟨0x4007⟩
    else if frame = 4 ∧ i.val = 1 then ⟨0x9007⟩
    else .zero
  cr3 := 1
  frames := []
  allocated := []
  deallocated := []

theorem userMachine_recursive : userMachine.Recursive := by
  rw [Machine.Recursive]
  decide

/-- The last four bytes of the page. -/
theorem four_bytes_exact : userMachine.Recursive ∧
    Exact userMachine readFlags 1 0x1ffc 4 (validateSlice 1 0x1ffc 4) := by
  refine ⟨userMachine_recursive, (validateSlice_exact_iff userMachine_recursive le_rfl).1.mpr
    (.inr ⟨fun h => ?_, fun ⟨_, _, a, _, hhigh, hnot⟩ => ?_, fun ⟨_, a, hlow, hhigh, hnone⟩ => ?_⟩)⟩
  · exact absurd h.1 (by decide)
  · rw [Canonical] at hnot
    omega
  · have hpage : a / pageSize = 1 := by
      rw [pageSize]
      omega
    rw [hpage] at hnone
    exact absurd hnone (by decide)

/-- The page is reached by an address that is not canonical, and by a slice of more bytes than
there are. -/
theorem invalid_slices_accepted : userMachine.Recursive ∧
    ((validateSlice 1 0x1000000001000 1).run userMachine = .ok (.ok 1, userMachine) ∧
      ¬ userMachine.ValidRange readFlags 0x1000000001000 1) ∧
    (validateSlice 8 0x1000 0x2000000000000001).run userMachine =
        .ok (.ok 0x2000000000000001, userMachine) ∧
      ¬ userMachine.ValidRange readFlags 0x1000 (0x2000000000000001 * 8) := by
  refine ⟨userMachine_recursive, ⟨rfl, fun h => ?_⟩, rfl, fun h => ?_⟩
  · have := h.canonical 0x1000000001000 le_rfl (by decide)
    rw [Canonical] at this
    omega
  · exact absurd h.fits (by decide)

end Faastr.Paging
