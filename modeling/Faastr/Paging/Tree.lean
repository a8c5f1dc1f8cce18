import Faastr.Paging.Mapper

/-!
The tree of page tables, and the three ways the mapper changes it: an entry of a P1 is
changed, a table is put into a slot, an empty table is taken out of its slot.

* `Inv`: P4 is mapped in itself, the tables form a tree, every counter counts the
  entries in use, an entry that leads nowhere is unused, and a table was taken from the
  allocator once more than it was given back.
* `inv_leaf`, `inv_linked`, `inv_unlinked`: the three changes keep it. The first changes no
  table, the other two change no page.
-/

namespace Faastr.Paging

open Faastr.Lib Faastr.Memory

/-- What an entry of a P1 says about its page: the frame and the flags. -/
def Entry.mapping (e : Entry) : Option (Nat × EntryFlags) :=
  e.pointedFrame.map fun frame => (frame, e.flags)

theorem Entry.mapping_of_unused {e : Entry} (h : e.body = 0) : e.mapping = none := by
  rw [mapping, pointedFrame_of_unused h]
  rfl

theorem Entry.mapping_congr {e e' : Entry} (h : e.body = e'.body) : e.mapping = e'.mapping := by
  rw [mapping, mapping, pointedFrame_congr h, flags_congr h]

theorem Entry.mapping_of_filled {e : Entry} {frame : Nat} {fl : EntryFlags}
    (h : e.body = filled frame fl) (hframe : frame < 2 ^ 40)
    (hpresent : fl.contains .present = true) : e.mapping = some (frame, fl) := by
  rw [mapping, pointedFrame_of_filled h hframe hpresent, flags_of_filled h hframe]
  rfl

theorem Entry.next_congr {e e' : Entry} (h : e.body = e'.body) : e.next = e'.next := by
  rw [next, next, pointedFrame_congr h, flags_congr h]

theorem Entry.next_of_unused {e : Entry} (h : e.body = 0) : e.next = none := by
  rw [next, pointedFrame_of_unused h, ite_self]

namespace Machine

variable {m m' : Machine} {p q : List Index} {n k g : Nat} {i j : Index}

/-- A table that the mapper took from the allocator: any but P4. -/
def IsTable (m : Machine) (frame : Nat) : Prop :=
  ∃ p, p ≠ [] ∧ p.length ≤ 3 ∧ m.node p = some frame

/-- A frame was taken from the allocator once more than it was given back if it is a
table, and as often as it was given back if it is not. -/
def Ledger (m : Machine) : Prop := ∀ frame,
  (m.IsTable frame → m.allocated.count frame = m.deallocated.count frame + 1) ∧
  (¬ m.IsTable frame → m.allocated.count frame = m.deallocated.count frame)

structure Inv (m : Machine) : Prop where
  recursive : m.Recursive
  tree : Radix.Tree m.next m.cr3 3
  counted : ∀ p n, p.length ≤ 3 → m.node p = some n → (m.memory n).Counted (m.reserved n)
  inner : ∀ p n i, p.length < 3 → m.node p = some n → i ∉ m.reserved n → m.next n i = none →
    (m.memory n i).body = 0
  leaf : ∀ p n i, p.length = 3 → m.node p = some n → (m.memory n i).pointedFrame = none →
    (m.memory n i).body = 0
  ledger : m.Ledger

theorem Inv.at (h : m.Inv) (hp : p.length ≤ 3) (hn : m.node p = some n) : At m p n :=
  ⟨h.recursive, hp, hn⟩

/-- What the tables say about a page, given by its path to P1 and its index there. -/
def mapping (m : Machine) (p : List Index) (i : Index) : Option (Nat × EntryFlags) :=
  (m.node p).bind fun n => (m.memory n i).mapping

theorem next_of (hi : i ∉ m.reserved n) : m.next n i = (m.memory n i).next := if_neg hi

theorem reserved_of_ne (hn : n ≠ m.cr3) : m.reserved n = ∅ := if_neg hn

theorem ne_of_notMem_reserved (hi : i ∉ m.reserved m.cr3) : recursivePagePml4 ≠ i := by
  rintro rfl
  rw [reserved, if_pos rfl] at hi
  exact hi (Finset.mem_singleton_self _)

theorem Recursive.of_body (h : m.Recursive) (hcr3 : m'.cr3 = m.cr3)
    (hbody : (m'.memory m.cr3 recursivePagePml4).body =
      (m.memory m.cr3 recursivePagePml4).body) : m'.Recursive := by
  rw [Recursive, hcr3, Entry.next_congr hbody]
  exact h

/-- Only P4 is reached by the empty path. -/
theorem Inv.ne_cr3 (h : m.Inv) (hp : p.length ≤ 3) (hne : p ≠ []) (hn : m.node p = some n) :
    n ≠ m.cr3 := by
  rintro rfl
  exact hne (h.tree hp (Nat.zero_le 3) hn rfl)

theorem Inv.notMem_reserved (h : m.Inv) (hp : p.length ≤ 3) (hne : p ≠ []) (hn : m.node p = some n)
    (i : Index) : i ∉ m.reserved n := by
  rw [reserved_of_ne (h.ne_cr3 hp hne hn)]
  exact Finset.notMem_empty i

/-- Tables of different levels are in different frames. -/
theorem Inv.ne_of_lt (h : m.Inv) (hlt : p.length < q.length) (hq : q.length ≤ 3)
    (hn : m.node p = some n) (hk : m.node q = some k) : k ≠ n := by
  rintro rfl
  rw [h.tree (hlt.le.trans hq) hq hn hk] at hlt
  exact absurd hlt (lt_irrefl _)

theorem isTable_congr (h : ∀ q, q.length ≤ 3 → m'.node q = m.node q) (frame : Nat) :
    m'.IsTable frame ↔ m.IsTable frame := by
  constructor
  · rintro ⟨p, hne, hp, hn⟩
    exact ⟨p, hne, hp, (h p hp).symm.trans hn⟩
  · rintro ⟨p, hne, hp, hn⟩
    exact ⟨p, hne, hp, (h p hp).trans hn⟩

/-! ### A change in a P1 -/

/-- Replacing the contents of a P1 leaves every table where it is. -/
theorem node_write (h : m.Inv) (hp : p.length = 3) (hn : m.node p = some n) (t : Table)
    (hq : q.length ≤ 3) : (m.write n t).node q = m.node q := by
  refine Radix.node_of_inner (fun q' k hq' hk j => ?_) hq
  have hne : k ≠ n := (h.ne_of_lt (hp ▸ hq') hp.le hk hn).symm
  show (if j ∈ m.reserved k then none else (Function.update m.memory n t k j).next) = m.next k j
  rw [Function.update_of_ne hne]
  rfl

theorem inv_leaf (h : m.Inv) (hp : p.length = 3) (hn : m.node p = some n) {t : Table}
    (hcounted : t.Counted (m.reserved n))
    (hleaf : ∀ i, (t i).pointedFrame = none → (t i).body = 0) : (m.write n t).Inv := by
  have hnode : ∀ q, q.length ≤ 3 → (m.write n t).node q = m.node q :=
    fun q hq => node_write h hp hn t hq
  have hcr3 : m.cr3 ≠ n := (h.ne_cr3 hp.le (by rintro rfl; cases hp) hn).symm
  have hself : (m.write n t).memory n = t := Function.update_self ..
  have hother : ∀ k, k ≠ n → (m.write n t).memory k = m.memory k :=
    fun k hk => Function.update_of_ne hk ..
  refine ⟨?_, ?_, ?_, ?_, ?_, ?_⟩
  · show ((m.write n t).memory m.cr3 _).next = _
    rw [hother _ hcr3]
    exact h.recursive
  · intro q q' k hq hq' hk hk'
    exact h.tree hq hq' ((hnode q hq).symm.trans hk) ((hnode q' hq').symm.trans hk')
  · intro q k hq hk
    rw [hnode q hq] at hk
    by_cases hkn : k = n
    · subst hkn
      rw [hself]
      exact hcounted
    · rw [hother k hkn]
      exact h.counted q k hq hk
  · intro q k j hq hk hj hnone
    rw [hnode q hq.le] at hk
    have hkn : k ≠ n := (h.ne_of_lt (hp ▸ hq) hp.le hk hn).symm
    rw [hother k hkn]
    rw [next_of hj, hother k hkn] at hnone
    exact h.inner q k j hq hk hj ((next_of (m := m) hj).trans hnone)
  · intro q k j hq hk hnone
    rw [hnode q hq.le] at hk
    by_cases hkn : k = n
    · subst hkn
      rw [hself] at hnone ⊢
      exact hleaf j hnone
    · rw [hother k hkn] at hnone ⊢
      exact h.leaf q k j hq hk hnone
  · intro frame
    rw [isTable_congr hnode]
    exact h.ledger frame

/-- Changing one entry of a P1 changes one page. -/
theorem mapping_write (h : m.Inv) (hp : p.length = 3) (hn : m.node p = some n) {t : Table}
    (hother : ∀ j, j ≠ i → (t j).body = (m.memory n j).body) (hq : q.length = 3) (j : Index) :
    (m.write n t).mapping q j = if q = p ∧ j = i then (t i).mapping else m.mapping q j := by
  rw [mapping, mapping, node_write h hp hn t hq.le]
  by_cases hqp : q = p
  · subst hqp
    rw [hn, Option.bind_some, Option.bind_some]
    show (Function.update m.memory n t n j).mapping = _
    rw [Function.update_self]
    by_cases hj : j = i
    · rw [if_pos ⟨rfl, hj⟩, hj]
    · rw [if_neg fun hboth => hj hboth.2, Entry.mapping_congr (hother j hj)]
  · rw [if_neg fun hboth => hqp hboth.1]
    cases hk : m.node q with
    | none => rfl
    | some k =>
      have hkn : k ≠ n := fun heq => hqp (h.tree hq.le hp.le hk (heq ▸ hn))
      show (Function.update m.memory n t k j).mapping = _
      rw [Function.update_of_ne hkn]
      rfl

/-! ### A table is put into a slot or taken out of it -/

/-- Slot `i` of the table in frame `n` is all that changes, and the tables it leads to,
before and after, are empty. -/
structure Regraft (m m' : Machine) (n : Nat) (i : Index) : Prop where
  cr3 : m'.cr3 = m.cr3
  elsewhere : ∀ q k, q.length ≤ 3 → m.node q = some k → k ≠ n → m'.memory k = m.memory k
  here : ∀ j, j ≠ i → (m'.memory n j).body = (m.memory n j).body
  slot : (m'.memory n i).next = none → (m'.memory n i).body = 0
  counted : (m'.memory n).Counted (m.reserved n)
  old : ∀ g, m.next n i = some g → ∀ j, (m.memory g j).body = 0
  new : ∀ g, (m'.memory n i).next = some g → (∀ j, (m'.memory g j).body = 0) ∧
    (m'.memory g).Counted (m.reserved g) ∧ ∀ q, q.length ≤ 3 → m.node q ≠ some g

theorem next_of_empty {g : Nat} (h : ∀ j, (m.memory g j).body = 0) (j : Index) : m.next g j = none := by
  rw [Machine.next, Entry.next_of_unused (h j), ite_self]

namespace Regraft

variable (hr : Regraft m m' n i) (h : m.Inv) (hn : m.node p = some n) (hp : p.length < 3)
  (hi : i ∉ m.reserved n)

include hr

theorem reserved (k : Nat) : m'.reserved k = m.reserved k := by
  rw [Machine.reserved, hr.cr3]
  rfl

include hi

theorem next_slot : m'.next n i = (m'.memory n i).next := by
  rw [← hr.reserved] at hi
  exact next_of hi

theorem replaced : Radix.Replaced m.next m'.next m.cr3 3 n i where
  elsewhere := by
    intro q k j hq hk haway
    rw [Machine.next, Machine.next, hr.reserved]
    by_cases hkn : k = n
    · subst hkn
      rw [Entry.next_congr (hr.here j (haway.resolve_left (not_not.mpr rfl)))]
    · rw [hr.elsewhere q k hq.le hk hkn]
  old g hg := next_of_empty (hr.old g hg)
  new := by
    intro g hg
    rw [hr.next_slot hi] at hg
    exact next_of_empty (hr.new g hg).1

include h hn hp

theorem node (hq : q.length ≤ 3) :
    m'.node q = if q = p ++ [i] then (m'.memory n i).next else m.node q := by
  rw [← hr.next_slot hi, Machine.node, hr.cr3]
  exact Radix.node_replaced h.tree (hr.replaced hi) hn hp hq

/-- A table after the change is the one in the slot, or a table from before that is
elsewhere. -/
theorem of_node (hq : q.length ≤ 3) (hk : m'.node q = some k) :
    q = p ++ [i] ∧ (m'.memory n i).next = some k ∨ q ≠ p ++ [i] ∧ m.node q = some k := by
  rw [hr.node h hn hp hi hq] at hk
  split at hk
  · next heq => exact .inl ⟨heq, hk⟩
  · next hne => exact .inr ⟨hne, hk⟩

omit hp in
theorem recursive : m'.Recursive := by
  refine h.recursive.of_body hr.cr3 ?_
  by_cases hroot : m.cr3 = n
  · subst hroot
    exact hr.here _ (ne_of_notMem_reserved hi)
  · rw [hr.elsewhere [] m.cr3 (Nat.zero_le 3) rfl hroot]

/-- The table in the slot is another one. -/
theorem isTable (frame : Nat) : m'.IsTable frame ↔
    (m'.memory n i).next = some frame ∨ m.IsTable frame ∧ m.next n i ≠ some frame := by
  have hslot : m.node (p ++ [i]) = m.next n i := node_concat hn
  have hlen : (p ++ [i]).length ≤ 3 := by simpa using hp
  constructor
  · rintro ⟨q, hne, hq, hk⟩
    rcases hr.of_node h hn hp hi hq hk with ⟨-, hnew⟩ | ⟨hqp, hold⟩
    · exact .inl hnew
    · exact .inr ⟨⟨q, hne, hq, hold⟩, fun hg => hqp (h.tree hq hlen hold (hslot.trans hg))⟩
  · rintro (hnew | ⟨⟨q, hne, hq, hk⟩, hg⟩)
    · exact ⟨p ++ [i], List.concat_ne_nil i p, hlen, by rw [hr.node h hn hp hi hlen, if_pos rfl, hnew]⟩
    · refine ⟨q, hne, hq, ?_⟩
      rw [hr.node h hn hp hi hq, if_neg, hk]
      rintro rfl
      exact hg (hslot.symm.trans hk)

/-- The table that comes into the slot is taken from the allocator, the one that was there is given
back. -/
theorem ledger (hallocated : m'.allocated = m.allocated ++ (m'.memory n i).next.toList)
    (hdeallocated : m'.deallocated = m.deallocated ++ (m.next n i).toList) : m'.Ledger := by
  intro frame
  have hold := h.ledger frame
  have htable : m.next n i = some frame → m.IsTable frame := fun hg =>
    ⟨p ++ [i], List.concat_ne_nil i p, by simpa using hp, (node_concat hn).trans hg⟩
  have hcount : ∀ o : Option Nat, o.toList.count frame = if o = some frame then 1 else 0 := by
    rintro (_ | g)
    · rfl
    · simp [List.count_singleton]
  rw [hr.isTable h hn hp hi, hallocated, hdeallocated, List.count_append, List.count_append, hcount,
    hcount]
  by_cases hnew : (m'.memory n i).next = some frame
  · have hfresh : ¬ m.IsTable frame := fun ⟨q, _, hq, hk⟩ => (hr.new frame hnew).2.2 q hq hk
    have hslot := mt htable hfresh
    rw [hold.2 hfresh]
    simp [hnew, hslot]
  · by_cases hslot : m.next n i = some frame
    · rw [hold.1 (htable hslot)]
      simp [hnew, hslot]
    · simpa [hnew, hslot] using hold

theorem inv (hledger : m'.Ledger) : m'.Inv where
  recursive := hr.recursive h hn hi
  tree := by
    rw [hr.cr3]
    refine h.tree.replaced (hr.replaced hi) hn hp fun g hg => ?_
    rw [hr.next_slot hi] at hg
    exact (hr.new g hg).2.2
  counted := by
    intro q k hq hk
    rw [hr.reserved]
    rcases hr.of_node h hn hp hi hq hk with ⟨-, hnew⟩ | ⟨-, hold⟩
    · exact (hr.new k hnew).2.1
    · by_cases hkn : k = n
      · subst hkn
        exact hr.counted
      · rw [hr.elsewhere q k hq hold hkn]
        exact h.counted q k hq hold
  inner := by
    intro q k j hq hk hj hnone
    rw [next_of hj] at hnone
    rw [hr.reserved] at hj
    rcases hr.of_node h hn hp hi hq.le hk with ⟨-, hnew⟩ | ⟨-, hold⟩
    · exact (hr.new k hnew).1 j
    · by_cases hkn : k = n
      · subst hkn
        by_cases hji : j = i
        · subst hji
          exact hr.slot hnone
        · rw [hr.here j hji]
          rw [Entry.next_congr (hr.here j hji)] at hnone
          exact h.inner q k j hq hold hj ((next_of hj).trans hnone)
      · rw [hr.elsewhere q k hq.le hold hkn] at hnone ⊢
        exact h.inner q k j hq hold hj ((next_of hj).trans hnone)
  leaf := by
    intro q k j hq hk hnone
    rcases hr.of_node h hn hp hi hq.le hk with ⟨-, hnew⟩ | ⟨-, hold⟩
    · exact (hr.new k hnew).1 j
    · have hkn : k ≠ n := h.ne_of_lt (hq ▸ hp) hq.le hn hold
      rw [hr.elsewhere q k hq.le hold hkn] at hnone ⊢
      exact h.leaf q k j hq hold hnone
  ledger := hledger

/-- No page changes. -/
theorem mapping (hq : q.length = 3) (j : Index) : m'.mapping q j = m.mapping q j := by
  rw [Machine.mapping, Machine.mapping, hr.node h hn hp hi hq.le]
  by_cases hqp : q = p ++ [i]
  · have hnew : ((m'.memory n i).next.bind fun g => (m'.memory g j).mapping) = none := by
      cases hg : (m'.memory n i).next with
      | none => rfl
      | some g => exact Entry.mapping_of_unused ((hr.new g hg).1 j)
    have hold : ((m.next n i).bind fun g => (m.memory g j).mapping) = none := by
      cases hg : m.next n i with
      | none => rfl
      | some g => exact Entry.mapping_of_unused (hr.old g hg j)
    rw [if_pos hqp, hnew, hqp, node_concat hn, hold]
  · rw [if_neg hqp]
    cases hk : m.node q with
    | none => rfl
    | some k =>
      have hkn : k ≠ n := h.ne_of_lt (hq ▸ hp) hq.le hn hk
      rw [Option.bind_some, Option.bind_some, hr.elsewhere q k hq.le hk hkn]

end Regraft

/-! ### The two changes -/

/-- The frames that the allocator hands out next: distinct, addressable, and none of
them a table. -/
structure Supplied (m : Machine) : Prop where
  nodup : m.frames.Nodup
  small : ∀ g ∈ m.frames, g < 2 ^ 40
  fresh : ∀ g ∈ m.frames, ∀ q, q.length ≤ 3 → m.node q ≠ some g

/-- An empty table, in the frame that the allocator hands out next, is put into a slot. -/
def linked (m : Machine) (n : Nat) (i : Index) (g : Nat) : Machine :=
  { (m.write n ((m.memory n).occupy i g tableFlags)).write g (m.memory g).zero with
    frames := m.frames.tail, allocated := m.allocated ++ [g] }

/-- The table in frame `g` is taken out of its slot and given back. -/
def unlinked (m : Machine) (n : Nat) (i : Index) (g : Nat) : Machine :=
  { m.write n ((m.memory n).vacate i) with deallocated := m.deallocated ++ [g] }

/-- The slot leads to the new table. -/
theorem next_occupy {t : Table} {S : Finset Index} (hcounted : t.Counted S) (hsmall : g < 2 ^ 40) :
    (t.occupy i g tableFlags i).next = some g := by
  have hfilled : (t.occupy i g tableFlags i).body = Entry.filled g tableFlags := by
    rw [Table.body_occupy hcounted hsmall, if_pos rfl]
  rw [Entry.next, Entry.flags_of_filled hfilled hsmall,
    Entry.pointedFrame_of_filled hfilled hsmall (by decide)]
  rfl

theorem linked_self (hng : n ≠ g) : (m.linked n i g).memory n = (m.memory n).occupy i g tableFlags := by
  show Function.update (Function.update m.memory n _) g _ n = _
  rw [Function.update_of_ne hng, Function.update_self]

theorem linked_new : (m.linked n i g).memory g = (m.memory g).zero := Function.update_self ..

theorem linked_elsewhere (hkn : k ≠ n) (hkg : k ≠ g) : (m.linked n i g).memory k = m.memory k := by
  show Function.update (Function.update m.memory n _) g _ k = _
  rw [Function.update_of_ne hkg, Function.update_of_ne hkn]

section Link

variable (h : m.Inv) (hn : m.node p = some n) (hp : p.length < 3) (hi : i ∉ m.reserved n)

include h hn hp hi

section Supply

variable {rest : List Nat} (hs : m.Supplied) (hg : m.frames = g :: rest)
  (hnone : m.next n i = none)

include hs hg hnone

omit h hi hnone in
theorem ne_fresh : n ≠ g := fun heq => hs.fresh g (hg ▸ List.mem_cons_self) p hp.le (heq ▸ hn)

omit hi hnone in
theorem next_linked : ((m.linked n i g).memory n i).next = some g := by
  rw [linked_self (ne_fresh hn hp hs hg)]
  exact next_occupy (h.counted p n hp.le hn) (hs.small g (hg ▸ List.mem_cons_self))

theorem regraft_linked : Regraft m (m.linked n i g) n i := by
  have hmem : g ∈ m.frames := hg ▸ List.mem_cons_self
  have hsmall := hs.small g hmem
  have hfresh := hs.fresh g hmem
  have hcounted := h.counted p n hp.le hn
  have hunused := h.inner p n i hp hn hi hnone
  have hself := linked_self (m := m) (i := i) (ne_fresh hn hp hs hg)
  have hnext := next_linked (i := i) h hn hp hs hg
  refine ⟨rfl, ?_, ?_, ?_, ?_, ?_, ?_⟩
  · exact fun q k hq hk hkn => linked_elsewhere hkn fun heq => hfresh q hq (heq ▸ hk)
  · intro j hj
    rw [hself, Table.body_occupy hcounted hsmall, if_neg hj]
  · intro hslot
    rw [hnext] at hslot
    cases hslot
  · rw [hself]
    exact (Table.counted_occupy hcounted hi hunused hsmall (by decide)).1
  · intro k hk
    rw [hnone] at hk
    cases hk
  · intro k hk
    rw [hnext] at hk
    cases hk
    rw [linked_new]
    exact ⟨fun j => Entry.body_zero, Table.counted_zero _, hfresh⟩

theorem node_linked (hq : q.length ≤ 3) :
    (m.linked n i g).node q = if q = p ++ [i] then some g else m.node q := by
  rw [← next_linked (i := i) h hn hp hs hg]
  exact (regraft_linked h hn hp hi hs hg hnone).node h hn hp hi hq

theorem inv_linked : (m.linked n i g).Inv := by
  have hr := regraft_linked h hn hp hi hs hg hnone
  refine hr.inv h hn hp hi (hr.ledger h hn hp hi ?_ ?_)
  · rw [next_linked h hn hp hs hg]
    rfl
  · rw [hnone, Option.toList_none, List.append_nil]
    rfl

/-- What is left of the supply is as good as it was. -/
theorem supplied_linked : (m.linked n i g).Supplied := by
  have hrest : (m.linked n i g).frames = rest := congrArg List.tail hg
  have hnodup := hs.nodup
  rw [hg, List.nodup_cons] at hnodup
  refine ⟨hrest ▸ hnodup.2, fun f hf => hs.small f ?_, fun f hf q hq => ?_⟩
  · rw [hrest] at hf
    exact hg ▸ List.mem_cons_of_mem g hf
  · rw [hrest] at hf
    rw [node_linked h hn hp hi hs hg hnone hq]
    split
    · intro heq
      cases heq
      exact hnodup.1 hf
    · exact hs.fresh f (hg ▸ List.mem_cons_of_mem g hf) q hq

end Supply

section Empty

variable (hg : m.node (p ++ [i]) = some g) (hempty : (m.memory g).occupied ∅ = 0)

include hg

omit h hp hi in
/-- The slot of a table is in use. -/
theorem slot_used : m.next n i = some g ∧ (m.memory n i).body ≠ 0 := by
  have hnext : m.next n i = some g := (node_concat hn).symm.trans hg
  exact ⟨hnext, Entry.body_ne_zero (Entry.next_eq_some (next_eq_some hnext)).1⟩

theorem next_unlinked : ((m.unlinked n i g).memory n i).next = none := by
  obtain ⟨-, hused⟩ := slot_used hn hg
  apply Entry.next_of_unused
  show (Function.update m.memory n _ n i).body = 0
  rw [Function.update_self, Table.body_vacate (h.counted p n hp.le hn) hi hused, if_pos rfl]

include hempty

theorem regraft_unlinked : Regraft m (m.unlinked n i g) n i := by
  obtain ⟨hnext, hused⟩ := slot_used hn hg
  have hcounted := h.counted p n hp.le hn
  have hself : (m.unlinked n i g).memory n = (m.memory n).vacate i := Function.update_self ..
  have hbody := Table.body_vacate hcounted hi hused
  refine ⟨rfl, ?_, ?_, ?_, ?_, ?_, ?_⟩
  · intro q k hq hk hkn
    exact Function.update_of_ne hkn ..
  · intro j hj
    rw [hself, hbody, if_neg hj]
  · intro hslot
    rw [hself, hbody, if_pos rfl]
  · rw [hself]
    exact (Table.counted_vacate hcounted hi hused).1
  · intro k hk j
    rw [hnext] at hk
    cases hk
    exact Table.body_of_empty hempty (Finset.notMem_empty j)
  · intro k hk
    rw [next_unlinked h hn hp hi hg] at hk
    cases hk

theorem node_unlinked (hq : q.length ≤ 3) :
    (m.unlinked n i g).node q = if q = p ++ [i] then none else m.node q := by
  rw [← next_unlinked h hn hp hi hg]
  exact (regraft_unlinked h hn hp hi hg hempty).node h hn hp hi hq

theorem isTable_unlinked (frame : Nat) :
    (m.unlinked n i g).IsTable frame ↔ m.IsTable frame ∧ frame ≠ g := by
  rw [(regraft_unlinked h hn hp hi hg hempty).isTable h hn hp hi, next_unlinked h hn hp hi hg,
    (slot_used hn hg).1]
  simp [eq_comm]

theorem inv_unlinked : (m.unlinked n i g).Inv := by
  have hr := regraft_unlinked h hn hp hi hg hempty
  refine hr.inv h hn hp hi (hr.ledger h hn hp hi ?_ ?_)
  · rw [next_unlinked h hn hp hi hg, Option.toList_none, List.append_nil]
    rfl
  · rw [(slot_used hn hg).1]
    rfl

end Empty

end Link

end Machine

end Faastr.Paging
