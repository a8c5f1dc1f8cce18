import Faastr.Lib.Cursor
import Faastr.Lib.LittleEndian

/-!
The iterators over the entries of the MADT and DMAR tables (`acpi/madt.rs`,
`acpi/dmar/mod.rs`).

Both walk the table's data by the length each entry gives for itself. The data
is `data_len` bytes at `data_address`; a returned reference is its offset there,
and `span` is the bytes the structure behind it takes.

* An entry that is returned lies inside the data, whatever the bytes
  (`MadtIter.item_span`, `DmarIter.item_span`).
* A length of zero is accepted and returns the same entry for ever; without one an
  iteration ends (`iterations_bounded`, `zero_length_repeats`).
* A length below the header's size lets entries overlap. When every length is that of
  a header at least, there are no more entries than headers fit (`iterations_bounded`).
-/

namespace Faastr.Acpi

open Faastr.Lib
open Faastr.Lib.Cursor (Yields Reached Forward AtLeast)

/-- The byte at offset `i` of the table's data. -/
def byteAt (data : List UInt8) (i : Nat) : UInt8 :=
  data.getD i 0

/-- The little-endian `u16` at offset `i`. -/
def wordAt (data : List UInt8) (i : Nat) : Nat :=
  leNat [byteAt data i, byteAt data (i + 1)]

/-! ### MADT -/

abbrev sizeMadtLocalApic : Nat := 1 + 1 + 4
abbrev sizeMadtIoApic : Nat := 1 + 1 + 4 + 4
abbrev sizeMadtIntSrcOverride : Nat := 1 + 1 + 4 + 2

inductive MadtEntry
  | LocalApic (at_ : Nat)
  | InvalidLocalApic (len : Nat)
  | IoApic (at_ : Nat)
  | InvalidIoApic (len : Nat)
  | IntSrcOverride (at_ : Nat)
  | InvalidIntSrcOverride (len : Nat)
  | Unknown (kind : UInt8)
  deriving DecidableEq, Repr

namespace MadtIter

/-- The first entry stands behind the local controller's address and flags. -/
def start : Nat := 8

def item (entryType : UInt8) (entryLen i : Nat) : MadtEntry :=
  match entryType with
  | 0 =>
    if entryLen = sizeMadtLocalApic + 2 then .LocalApic (i + 2) else .InvalidLocalApic entryLen
  | 1 =>
    if entryLen = sizeMadtIoApic + 2 then .IoApic (i + 2) else .InvalidIoApic entryLen
  | 2 =>
    if entryLen = sizeMadtIntSrcOverride + 2 then .IntSrcOverride (i + 2)
    else .InvalidIntSrcOverride entryLen
  | _ => .Unknown entryType

def next (data : List UInt8) (i : Nat) : Option (MadtEntry × Nat) :=
  if i + 1 < data.length then
    let entryType := byteAt data i
    let entryLen := (byteAt data (i + 1)).toNat
    if i + entryLen ≤ data.length then some (item entryType entryLen i, i + entryLen) else none
  else none

end MadtIter

/-- The bytes of the structure an entry refers to: their offset and number. -/
def MadtEntry.span : MadtEntry → Option (Nat × Nat)
  | .LocalApic a => some (a, sizeMadtLocalApic)
  | .IoApic a => some (a, sizeMadtIoApic)
  | .IntSrcOverride a => some (a, sizeMadtIntSrcOverride)
  | .InvalidLocalApic _ | .InvalidIoApic _ | .InvalidIntSrcOverride _ | .Unknown _ => none

/-! ### DMAR -/

abbrev sizeDmarDrhd : Nat := 2 + 2 + 1 + 1 + 2 + 8
abbrev sizeDmarRmrr : Nat := 2 + 2 + 2 + 2 + 8 + 8
abbrev sizeDmarAtsr : Nat := 2 + 2 + 1 + 1 + 2
abbrev sizeDmarRhsa : Nat := 2 + 2 + 4 + 8 + 4
abbrev sizeDmarAndd : Nat := 2 + 2 + 3 + 1

inductive DmarEntry
  | Drhd (at_ : Nat)
  | InvalidDrhd (len : Nat)
  | Rmrr (at_ : Nat)
  | InvalidRmrr (len : Nat)
  | Atsr (at_ : Nat)
  | InvalidAtsr (len : Nat)
  | Rhsa (at_ : Nat)
  | InvalidRhsa (len : Nat)
  | Andd (at_ : Nat)
  | InvalidAndd (len : Nat)
  | Unknown (kind : Nat)
  deriving DecidableEq, Repr

namespace DmarIter

/-- The first entry stands behind the address width, the flags and ten reserved bytes. -/
def start : Nat := 12

def item (entryType entryLen i : Nat) : DmarEntry :=
  match entryType with
  | 0 => if entryLen ≥ sizeDmarDrhd then .Drhd i else .InvalidDrhd entryLen
  | 1 => if entryLen ≥ sizeDmarRmrr then .Rmrr i else .InvalidRmrr entryLen
  | 2 => if entryLen ≥ sizeDmarAtsr then .Atsr i else .InvalidAtsr entryLen
  -- the only kind whose length has to be the structure's own
  | 3 => if entryLen = sizeDmarRhsa then .Rhsa i else .InvalidRhsa entryLen
  | 4 => if entryLen ≥ sizeDmarAndd then .Andd i else .InvalidAndd entryLen
  | _ => .Unknown entryType

def next (data : List UInt8) (i : Nat) : Option (DmarEntry × Nat) :=
  if i + 4 ≤ data.length then
    let entryType := wordAt data i
    let entryLen := wordAt data (i + 2)
    if i + entryLen ≤ data.length then some (item entryType entryLen i, i + entryLen) else none
  else none

end DmarIter

/-- The bytes of the structure an entry refers to: their offset and number. -/
def DmarEntry.span : DmarEntry → Option (Nat × Nat)
  | .Drhd a => some (a, sizeDmarDrhd)
  | .Rmrr a => some (a, sizeDmarRmrr)
  | .Atsr a => some (a, sizeDmarAtsr)
  | .Rhsa a => some (a, sizeDmarRhsa)
  | .Andd a => some (a, sizeDmarAndd)
  | .InvalidDrhd _ | .InvalidRmrr _ | .InvalidAtsr _ | .InvalidRhsa _ | .InvalidAndd _
  | .Unknown _ => none

/-! ### One step -/

/-- What a call of `next` that returns an entry does. -/
theorem MadtIter.next_eq_some {data : List UInt8} {i j : Nat} {e : MadtEntry}
    (h : MadtIter.next data i = some (e, j)) :
    j = i + (byteAt data (i + 1)).toNat ∧ j ≤ data.length ∧
      e = item (byteAt data i) (byteAt data (i + 1)).toNat i := by
  unfold MadtIter.next at h
  dsimp only at h
  split at h
  · split at h
    · rename_i hfits
      cases h
      exact ⟨rfl, hfits, rfl⟩
    · cases h
  · cases h

theorem DmarIter.next_eq_some {data : List UInt8} {i j : Nat} {e : DmarEntry}
    (h : DmarIter.next data i = some (e, j)) :
    j = i + wordAt data (i + 2) ∧ j ≤ data.length ∧
      e = item (wordAt data i) (wordAt data (i + 2)) i := by
  unfold DmarIter.next at h
  dsimp only at h
  split at h
  · split at h
    · rename_i hfits
      cases h
      exact ⟨rfl, hfits, rfl⟩
    · cases h
  · cases h

theorem MadtIter.forward (data : List UInt8) : Forward (MadtIter.next data) data.length where
  le h := by
    have := (next_eq_some h).1
    omega
  bound h := (next_eq_some h).2.1

theorem DmarIter.forward (data : List UInt8) : Forward (DmarIter.next data) data.length where
  le h := by
    have := (next_eq_some h).1
    omega
  bound h := (next_eq_some h).2.1

/-- A structure is referred to only if the entry's length holds it. -/
theorem MadtIter.item_span {entryType : UInt8} {entryLen i a n : Nat}
    (h : (item entryType entryLen i).span = some (a, n)) : i ≤ a ∧ a + n ≤ i + entryLen := by
  unfold item at h
  split at h
  case h_4 => cases h
  all_goals
    split at h
    · cases h
      omega
    · cases h

theorem DmarIter.item_span {entryType entryLen i a n : Nat}
    (h : (item entryType entryLen i).span = some (a, n)) : i ≤ a ∧ a + n ≤ i + entryLen := by
  unfold item at h
  split at h
  case h_6 => cases h
  all_goals
    split at h
    · cases h
      omega
    · cases h

/-! ### Whole iterations -/

/-- An entry that `next` returns, and the structure that it refers to, lie in the data. -/
def Inside {ε : Type} (next : Nat → Option (ε × Nat)) (span : ε → Option (Nat × Nat))
    (total : Nat) : Prop :=
  ∀ i e j, next i = some (e, j) → j ≤ total ∧ ∀ a n, span e = some (a, n) → i ≤ a ∧ a + n ≤ j

/-- The length field of every entry that the iteration comes to is `n` at least. -/
def LengthsAtLeast {ε : Type} (next : Nat → Option (ε × Nat)) (lengthAt : Nat → Nat)
    (start n : Nat) : Prop :=
  ∀ i e j, Reached next start i → next i = some (e, j) → n ≤ lengthAt i

/-- What is said of an iteration whose entries begin with a header of `unit` bytes: its entries
lie in the data, it ends exactly if no length field that it comes to is zero, and it returns no
more than one entry for each `unit` bytes if these are `unit` at least. -/
structure Bounded {ε : Type} (next : Nat → Option (ε × Nat)) (span : ε → Option (Nat × Nat))
    (lengthAt : Nat → Nat) (start unit total : Nat) : Prop where
  inside : Inside next span total
  finite_iff : (∃ es, Yields next start es) ↔ LengthsAtLeast next lengthAt start 1
  count : LengthsAtLeast next lengthAt start unit →
    ∃ es, Yields next start es ∧ unit * es.length ≤ total

section Bounded

variable {ε : Type} {next : Nat → Option (ε × Nat)} {lengthAt : Nat → Nat} {start n : Nat}

theorem lengthsAtLeast_iff (hlength : ∀ i e j, next i = some (e, j) → j = i + lengthAt i) :
    LengthsAtLeast next lengthAt start n ↔ AtLeast next start n := by
  refine forall_congr' fun i => forall_congr' fun e => forall_congr' fun j =>
    forall_congr' fun _ => forall_congr' fun hnext => ?_
  have hj := hlength i e j hnext
  omega

theorem bounded {span : ε → Option (Nat × Nat)} {unit total : Nat}
    (forward : Forward next total) (hunit : 0 < unit)
    (hlength : ∀ i e j, next i = some (e, j) → j = i + lengthAt i)
    (hspan : ∀ i e j, next i = some (e, j) → ∀ a n, span e = some (a, n) → i ≤ a ∧ a + n ≤ j) :
    Bounded next span lengthAt start unit total where
  inside i e j hnext := ⟨forward.bound hnext, hspan i e j hnext⟩
  finite_iff := by
    rw [lengthsAtLeast_iff hlength]
    exact Cursor.exists_yields_iff forward start
  count hlengths := by
    rw [lengthsAtLeast_iff hlength] at hlengths
    exact Cursor.exists_yields_count forward hunit hlengths

end Bounded

/-- **The iterators over the entries of both tables**, on any bytes: what is returned lies in the
data, an iteration ends exactly if no length field that it comes to is zero, and lengths of a
header at least keep the number of entries down. -/
theorem iterations_bounded (data : List UInt8) :
    Bounded (MadtIter.next data) MadtEntry.span (fun i => (byteAt data (i + 1)).toNat)
      MadtIter.start 2 data.length ∧
    Bounded (DmarIter.next data) DmarEntry.span (fun i => wordAt data (i + 2))
      DmarIter.start 4 data.length := by
  constructor
  · apply bounded (MadtIter.forward data) (by decide)
    · intro i e j hnext
      exact (MadtIter.next_eq_some hnext).1
    · intro i e j hnext a n hspan
      obtain ⟨rfl, -, rfl⟩ := MadtIter.next_eq_some hnext
      exact MadtIter.item_span hspan
  · apply bounded (DmarIter.forward data) (by decide)
    · intro i e j hnext
      exact (DmarIter.next_eq_some hnext).1
    · intro i e j hnext a n hspan
      obtain ⟨rfl, -, rfl⟩ := DmarIter.next_eq_some hnext
      exact DmarIter.item_span hspan

/-- A MADT of one local APIC: its length suffices, so that there is one entry in 16 bytes. -/
theorem one_local_apic :
    ∃ es, Yields (MadtIter.next (List.replicate 9 0 ++ [8, 1, 2, 3, 4, 5, 6])) MadtIter.start es ∧
      2 * es.length ≤ 16 := by
  refine (iterations_bounded (List.replicate 9 0 ++ [8, 1, 2, 3, 4, 5, 6])).1.count ?_
  intro i e j hreached hnext
  -- The iteration comes to the entry and to the end of the data, where there is no other.
  have hplace : i = 8 ∨ i = 16 := by
    clear hnext
    induction hreached with
    | refl => exact .inl rfl
    | tail _ hstep ih =>
      obtain ⟨e', hstep⟩ := hstep
      rcases ih with rfl | rfl
      · cases hstep
        exact .inr rfl
      · cases hstep
  rcases hplace with rfl | rfl
  · decide
  · cases hnext

/-- A table whose first entry gives its length as zero: `next` returns the entry
and stays at it. -/
theorem zero_length_repeats :
    MadtIter.next (List.replicate 10 0) MadtIter.start =
      some (.InvalidLocalApic 0, MadtIter.start) ∧
    (∀ es, ¬ Yields (MadtIter.next (List.replicate 10 0)) MadtIter.start es) ∧
    DmarIter.next (List.replicate 16 0) DmarIter.start =
      some (.InvalidDrhd 0, DmarIter.start) ∧
    ∀ es, ¬ Yields (DmarIter.next (List.replicate 16 0)) DmarIter.start es := by
  have hmadt : MadtIter.next (List.replicate 10 0) MadtIter.start =
      some (.InvalidLocalApic 0, MadtIter.start) := by decide
  have hdmar : DmarIter.next (List.replicate 16 0) DmarIter.start =
      some (.InvalidDrhd 0, DmarIter.start) := by decide
  exact ⟨hmadt, Cursor.not_yields_of_stuck hmadt, hdmar, Cursor.not_yields_of_stuck hdmar⟩

end Faastr.Acpi
