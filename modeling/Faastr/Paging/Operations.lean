import Faastr.Paging.Tree

/-!
What the operations of the mapper do to the tree of tables.

* `mapTo_run`, `remap_run`, `unmapReturn_run`: on a tree with the invariant each
  operation returns, keeps the invariant, and changes the mapping of its own page only.
* `translatePage_run`, `translatePageFlags_run`: what is looked up is the mapping.
-/

namespace Faastr.Paging

open Faastr.Lib Faastr.Memory Kernel Machine

variable {m m' : Machine} {p q : List Index} {n k g : Nat} {i j : Index}

/-- One table down. -/
theorem nextTable_at (h : At m p n) (hk : m.node (p ++ [i]) = some k) :
    (nextTable (tableAddress p) i).run m = .ok (some (tableAddress (p ++ [i])), m) := by
  rw [nextTable_run h, next_eq_some ((node_concat h.node).symm.trans hk)]
  rfl

/-- There is no table down there. -/
theorem nextTable_none (h : At m p n) (hi : i ∉ m.reserved n) (hk : m.node (p ++ [i]) = none) :
    (nextTable (tableAddress p) i).run m = .ok (none, m) := by
  rw [nextTable_run h, ← next_of hi, ← node_concat h.node, hk]
  rfl

/-! ### Two writes to one table -/

/-- The counter of a table is changed, and then an entry. -/
theorem modifyTable_twice {p4 : Nat} (h : Linked m p4 p n) {f : Table → Table}
    (hbody : ∀ j, (f (m.memory n) j).body = (m.memory n j).body) (f' : Table → Table) :
    (do modifyTable (tableAddress p) f; modifyTable (tableAddress p) f').run m =
      .ok ((), m.write n (f' (f (m.memory n)))) := by
  have hwrite := h.write fun j => Entry.next_congr (hbody j)
  rw [run_bind (h.modifyTable_run f), hwrite.modifyTable_run, write_write]
  show Except.ok ((), m.write n (f' (Function.update m.memory n _ n))) = _
  rw [Function.update_self]

theorem run_modifyTable_twice {α : Type} {p4 : Nat} (h : Linked m p4 p n) {f : Table → Table}
    (hbody : ∀ j, (f (m.memory n) j).body = (m.memory n j).body) (f' : Table → Table)
    (rest : Kernel α) :
    (do modifyTable (tableAddress p) f; modifyTable (tableAddress p) f'; rest).run m =
      rest.run (m.write n (f' (f (m.memory n)))) := by
  have htwice := modifyTable_twice h hbody f'
  rw [← bind_assoc, run_bind htwice]

/-! ### A table is made or freed -/

namespace Linked

variable {p4 : Nat} {S : Finset Index} (h : Linked m p4 p n)

include h

/-- When a slot of a table changes that is on the way to none, the table is still at the end of
its path. -/
theorem of_slot (hcr3 : m'.cr3 = m.cr3)
    (hnext : ∀ k j, k ≠ n ∨ j ≠ i → (m'.memory k j).next = (m.memory k j).next)
    (hslot : m.cr3 = n ∨ p4 = n → recursivePagePml4 ≠ i)
    (hpath : ∀ q j k, q ++ [j] <+: p → Radix.node m.link p4 q = some k → k ≠ n) :
    Linked m' p4 p n := by
  have hview : ∀ t, (t = n → recursivePagePml4 ≠ i) →
      (m'.memory t recursivePagePml4).next = (m.memory t recursivePagePml4).next := fun t ht =>
    hnext t _ (not_or_of_imp ht)
  refine ⟨⟨?_, ?_⟩, h.length, ?_⟩
  · rw [hcr3, hview _ fun heq => hslot (.inl heq)]
    exact h.viewed.1
  · rw [hview _ fun heq => hslot (.inr heq)]
    exact h.viewed.2
  · rw [← h.node]
    exact Radix.node_congr fun q j k hq hk => hnext k j (.inl (hpath q j k hq hk))

/-- A table that is missing is made. -/
theorem createTable_run {rest : List Nat} (hp : p.length < 3)
    (hslot : m.cr3 = n ∨ p4 = n → recursivePagePml4 ≠ i)
    (hpath : ∀ q j k, q ++ [j] <+: p → Radix.node m.link p4 q = some k → k ≠ n)
    (hcounted : (m.memory n).Counted S) (hunused : (m.memory n i).body = 0)
    (hg : m.frames = g :: rest) (hsmall : g < 2 ^ 40) :
    (createTable (tableAddress p) i).run m = .ok ((), m.linked n i g) := by
  have hhuge : (!(m.memory n i).flags.contains .hugePage) = true := by
    rw [Entry.flags_eq, hunused]
    rfl
  let taken : Machine := { m with frames := rest, allocated := m.allocated ++ [g] }
  let unzeroed : Machine := taken.write n ((m.memory n).occupy i g tableFlags)
  have hself : unzeroed.memory n = (m.memory n).occupy i g tableFlags := Function.update_self ..
  -- The entry is set before the table it leads to is zeroed.
  have hparent : Linked unzeroed p4 p n := by
    refine h.of_slot rfl (fun k j hkj => ?_) hslot hpath
    by_cases hkn : k = n
    · subst hkn
      refine Entry.next_congr ?_
      rw [hself, Table.body_occupy hcounted hsmall, if_neg (hkj.resolve_left fun hne => hne rfl)]
    · show (Function.update m.memory n _ k j).next = _
      rw [Function.update_of_ne hkn]
  have hlink : unzeroed.link n i = some g := by
    rw [Machine.link, hself]
    exact next_occupy hcounted hsmall
  have hlinked : Linked taken p4 p n := ⟨h.viewed, h.length, h.node⟩
  rw [createTable, run_bind h.table_run]
  simp only [hhuge]
  rw [run_bind (check_run _), run_bind (allocateFrame_run hg), run_bind (expect_run g _)]
  rw [run_modifyTable_twice hlinked fun j => Table.body_setEntryCount hcounted.succ_lt]
  have hnext := hparent.nextTable_run (i := i)
  rw [hlink, Option.map_some] at hnext
  refine (run_bind hnext).trans ((run_bind (unwrap_run _)).trans ?_)
  rw [(hparent.below hp hlink).modifyTable_run]
  have hzero : unzeroed.write g (unzeroed.memory g).zero = m.linked n i g := by
    rw [Machine.linked, hg]
    rfl
  exact congrArg (fun m' => Except.ok ((), m')) hzero

/-- An empty table is freed. -/
theorem freeTable_run {page : Nat} (hcounted : (m.memory n).Counted S) (hi : i ∉ S)
    (hnext : (m.memory n i).next = some g) (message : String) :
    (freeTable page (tableAddress p) i message).run m = .ok ((), m.unlinked n i g) := by
  have hframe := (Entry.next_eq_some hnext).1
  have hpred := hcounted.pred_lt (Table.occupied_pos hi (Entry.body_ne_zero hframe))
  rw [freeTable, run_bind h.table_run, hframe]
  refine (run_bind (orPanic_run g _)).trans ?_
  rw [run_modifyTable_twice h fun j => Table.body_setEntryCount hpred]
  rfl

end Linked

/-! ### The descent of `map_to` -/

/-- Tables were put into the tree, and nothing else has changed. -/
structure Created (m m' : Machine) : Prop where
  inv : m'.Inv
  supplied : m'.Supplied
  cr3 : m'.cr3 = m.cr3
  kept : ∀ q k, q.length ≤ 3 → m.node q = some k → m'.node q = some k
  mapping : ∀ q j, q.length = 3 → m'.mapping q j = m.mapping q j
  deallocated : m'.deallocated = m.deallocated

theorem Created.trans {m₁ m₂ : Machine} (h : Created m m₁) (h' : Created m₁ m₂) :
    Created m m₂ where
  inv := h'.inv
  supplied := h'.supplied
  cr3 := h'.cr3.trans h.cr3
  kept := fun q k hq hk => h'.kept q k hq (h.kept q k hq hk)
  mapping := fun q j hq => (h'.mapping q j hq).trans (h.mapping q j hq)
  deallocated := h'.deallocated.trans h.deallocated

section Create

variable (h : m.Inv) (hs : m.Supplied) (hn : m.node p = some n) (hp : p.length < 3)
  (hi : i ∉ m.reserved n)

include h hs hn hp hi

theorem created_linked {rest : List Nat} (hg : m.frames = g :: rest) (hnone : m.next n i = none) :
    Created m (m.linked n i g) where
  inv := inv_linked h hn hp hi hs hg hnone
  supplied := supplied_linked h hn hp hi hs hg hnone
  cr3 := rfl
  kept := by
    intro q k hq hk
    rw [node_linked h hn hp hi hs hg hnone hq, if_neg, hk]
    rintro rfl
    rw [node_concat hn, hnone] at hk
    cases hk
  mapping := fun q j hq => (regraft_linked h hn hp hi hs hg hnone).mapping h hn hp hi hq j
  deallocated := rfl

theorem createTable_run {rest : List Nat} (hg : m.frames = g :: rest) (hnone : m.next n i = none) :
    (createTable (tableAddress p) i).run m = .ok ((), m.linked n i g) := by
  refine (h.at hp.le hn).linked.createTable_run hp ?_ (fun q j k hq hk => ?_) (h.counted p n hp.le hn)
    (h.inner p n i hp hn hi hnone) hg (hs.small g (hg ▸ List.mem_cons_self))
  · rintro (rfl | rfl) <;> exact ne_of_notMem_reserved hi
  · obtain ⟨k', hk'⟩ := Radix.node_of_prefix hn ((List.prefix_append q [j]).trans hq)
    cases (link_of_node hk').symm.trans hk
    exact (h.ne_of_lt (Radix.length_lt_of_concat hq) hp.le hk' hn).symm

theorem nextTableCreate_run (hframes : 0 < m.frames.length) :
    ∃ m' g, (nextTableCreate (tableAddress p) i).run m = .ok (tableAddress (p ++ [i]), m') ∧
      Created m m' ∧ m.frames.length ≤ m'.frames.length + 1 ∧ m'.node (p ++ [i]) = some g := by
  have hat := h.at hp.le hn
  cases hnext : m.next n i with
  | some g =>
    have hnode : m.node (p ++ [i]) = some g := (node_concat hn).trans hnext
    refine ⟨m, g, ?_, ⟨h, hs, rfl, fun _ _ _ hk => hk, fun _ _ _ => rfl, rfl⟩, Nat.le_succ _,
      hnode⟩
    rw [nextTableCreate, run_bind (nextTable_at hat hnode)]
    exact (run_bind (nextTable_at hat hnode)).trans (unwrap_run _)
  | none =>
    have hnextTable := nextTable_run (i := i) hat
    rw [← next_of hi, hnext] at hnextTable
    obtain ⟨g, rest, hg⟩ := List.exists_cons_of_length_pos hframes
    have hcreated := created_linked h hs hn hp hi hg hnext
    have hnode : (m.linked n i g).node (p ++ [i]) = some g := by
      rw [node_linked h hn hp hi hs hg hnext, if_pos rfl]
      rw [List.length_append, List.length_singleton]
      exact hp
    have hlength : m.frames.length ≤ (m.linked n i g).frames.length + 1 := by
      show m.frames.length ≤ m.frames.tail.length + 1
      rw [hg]
      exact le_rfl
    refine ⟨m.linked n i g, g, ?_, hcreated, hlength, hnode⟩
    rw [nextTableCreate, run_bind hnextTable]
    refine (run_bind (createTable_run h hs hn hp hi hg hnext)).trans ?_
    have hat' := hcreated.inv.at hp.le (hcreated.kept p n hp.le hn)
    exact (run_bind (nextTable_at hat' hnode)).trans (unwrap_run _)

end Create

/-! ### Mapping a page -/

/-- The path from P4 to the P1 of a page. -/
def path (page : Nat) : List Index := [p4Index page, p3Index page, p2Index page]

/-- What the tables say about one page has changed. -/
structure Remapped (m m' : Machine) (page : Nat) (e : Option (Nat × EntryFlags)) : Prop where
  inv : m'.Inv
  cr3 : m'.cr3 = m.cr3
  mapping : ∀ q j, q.length = 3 →
    m'.mapping q j = if q = path page ∧ j = p1Index page then e else m.mapping q j

theorem remapped_leaf {page : Nat} (h : m.Inv) (hn : m.node (path page) = some n) {t : Table}
    (hcounted : t.Counted (m.reserved n))
    (hother : ∀ j, j ≠ p1Index page → (t j).body = (m.memory n j).body)
    (hself : (t (p1Index page)).pointedFrame = none → (t (p1Index page)).body = 0) :
    Remapped m (m.write n t) page (t (p1Index page)).mapping where
  inv := by
    refine inv_leaf h rfl hn hcounted fun j hj => ?_
    by_cases hpage : j = p1Index page
    · subst hpage
      exact hself hj
    · rw [hother j hpage]
      rw [Entry.pointedFrame_congr (hother j hpage)] at hj
      exact h.leaf _ n j rfl hn hj
  cr3 := rfl
  mapping := fun q j hq => mapping_write h rfl hn hother hq j

section Page

variable {page frame : Nat} {flags : EntryFlags}

theorem notMem_reserved_cr3 (hpage : p4Index page ≠ recursivePagePml4) :
    p4Index page ∉ m.reserved m.cr3 := by
  rw [Machine.reserved, if_pos rfl, Finset.mem_singleton]
  exact hpage

/-- The tables of a page are there, or are made. -/
theorem descend_run {α : Type} (h : m.Inv) (hs : m.Supplied) (hframes : 3 ≤ m.frames.length)
    (hpage : p4Index page ≠ recursivePagePml4) (rest : Nat → Kernel α) :
    ∃ m' n, Created m m' ∧ m'.node (path page) = some n ∧
      (do
        let p3 ← nextTableCreate p4Address (p4Index page)
        let p2 ← nextTableCreate p3 (p3Index page)
        let p1 ← nextTableCreate p2 (p2Index page)
        rest p1).run m = (rest (tableAddress (path page))).run m' := by
  obtain ⟨m₃, n₃, hrun₃, hc₃, hf₃, hn₃⟩ := nextTableCreate_run (p := []) h hs rfl (by simp)
    (notMem_reserved_cr3 hpage) (by omega)
  obtain ⟨m₂, n₂, hrun₂, hc₂, hf₂, hn₂⟩ := nextTableCreate_run (p := [p4Index page]) hc₃.inv
    hc₃.supplied hn₃ (by simp)
    (hc₃.inv.notMem_reserved (by simp) (List.cons_ne_nil _ _) hn₃ (p3Index page)) (by omega)
  obtain ⟨m₁, n₁, hrun₁, hc₁, -, hn₁⟩ := nextTableCreate_run (p := [p4Index page, p3Index page])
    hc₂.inv hc₂.supplied hn₂ (by simp)
    (hc₂.inv.notMem_reserved (by simp) (List.cons_ne_nil _ _) hn₂ (p2Index page)) (by omega)
  refine ⟨m₁, n₁, (hc₃.trans hc₂).trans hc₁, hn₁, ?_⟩
  exact (run_bind hrun₃).trans ((run_bind hrun₂).trans (run_bind hrun₁))

/-- The entry of a page that is not mapped is unused. -/
theorem unused_of_mapping (h : m.Inv) (hn : m.node (path page) = some n)
    (hfree : m.mapping (path page) (p1Index page) = none) :
    (m.memory n (p1Index page)).body = 0 := by
  rw [mapping, hn, Option.bind_some, Entry.mapping, Option.map_eq_none_iff] at hfree
  exact h.leaf _ n _ rfl hn hfree

theorem remapped_occupy (h : m.Inv) (hn : m.node (path page) = some n) (hframe : frame < 2 ^ 40)
    (hunused : (m.memory n (p1Index page)).body = 0)
    (hpresent : flags.contains .present = true) :
    Remapped m (m.write n ((m.memory n).occupy (p1Index page) frame flags)) page
      (some (frame, flags)) := by
  have hcounted := h.counted _ n le_rfl hn
  have hreserved := h.notMem_reserved le_rfl (List.cons_ne_nil _ _) hn (p1Index page)
  have hbody : ∀ j, ((m.memory n).occupy (p1Index page) frame flags j).body =
      if j = p1Index page then Entry.filled frame flags else (m.memory n j).body :=
    Table.body_occupy hcounted hframe
  have hfilled := (hbody (p1Index page)).trans (if_pos rfl)
  rw [← Entry.mapping_of_filled hfilled hframe hpresent]
  refine remapped_leaf h hn (Table.counted_occupy hcounted hreserved hunused hframe hpresent).1
    (fun j hj => ?_) ?_
  · rw [hbody, if_neg hj]
  · rw [Entry.pointedFrame_of_filled hfilled hframe hpresent]
    exact nofun

/-- **Mapping a page**: the missing tables are made, and one entry is set. -/
theorem mapTo_run (flags : EntryFlags) (h : m.Inv) (hs : m.Supplied) (hframes : 3 ≤ m.frames.length)
    (hpage : p4Index page ≠ recursivePagePml4) (hframe : frame < 2 ^ 40)
    (hfree : m.mapping (path page) (p1Index page) = none) :
    ∃ m', (mapTo page frame flags).run m = .ok ((), m') ∧ m'.deallocated = m.deallocated ∧
      Remapped m m' page (some (frame, flags.union .present)) := by
  obtain ⟨m₁, n₁, hc, hn₁, hrun⟩ := descend_run h hs hframes hpage fun p1 => do
    let entry := (← table p1) (p1Index page)
    check entry.isUnused (.alreadySet page entry frame flags)
    modifyTable p1 (·.incrementEntryCount)
    modifyTable p1 (·.setEntry (p1Index page) frame (flags.union .present))
  have hunused := unused_of_mapping hc.inv hn₁ ((hc.mapping _ _ rfl).trans hfree)
  have hleaf := remapped_occupy hc.inv hn₁ hframe hunused (flags.contains_union_right .present)
  refine ⟨m₁.write n₁ ((m₁.memory n₁).occupy (p1Index page) frame (flags.union .present)), ?_,
    hc.deallocated, hleaf.inv, hc.cr3, fun q j hq => ?_⟩
  · have hat : At m₁ (path page) n₁ := hc.inv.at le_rfl hn₁
    have hcounted := hc.inv.counted _ n₁ le_rfl hn₁
    refine hrun.trans ((run_bind (table_run hat)).trans ?_)
    simp only [Entry.isUnused_iff.mpr hunused]
    refine (run_bind (check_run _)).trans ?_
    exact modifyTable_twice hat.linked (fun j => Table.body_setEntryCount hcounted.succ_lt) _
  · rw [hleaf.mapping q j hq, hc.mapping q j hq]

/-! ### Looking up and remapping a page -/

/-- A table on a path has the tables above it. -/
theorem node_parent (h : m.node (p ++ [i]) = some k) : ∃ n, m.node p = some n ∧ m.next n i = some k := by
  rw [Machine.node, Radix.node_concat] at h
  exact Option.bind_eq_some_iff.mp h

/-- The tables of a page. -/
structure Located (m : Machine) (page n₃ n₂ n₁ : Nat) : Prop where
  p3 : m.node [p4Index page] = some n₃
  p2 : m.node [p4Index page, p3Index page] = some n₂
  p1 : m.node (path page) = some n₁

theorem located (hn : m.node (path page) = some n) : ∃ n₃ n₂, Located m page n₃ n₂ n := by
  obtain ⟨n₂, hn₂, -⟩ := node_parent (p := [p4Index page, p3Index page]) hn
  obtain ⟨n₃, hn₃, -⟩ := node_parent (p := [p4Index page]) hn₂
  exact ⟨n₃, n₂, hn₃, hn₂, hn⟩

section Located

variable {n₃ n₂ n₁ : Nat} (h : m.Inv) (hl : Located m page n₃ n₂ n₁)

include h hl

theorem Located.at_p2 : At m [p4Index page, p3Index page] n₂ := h.at (by simp) hl.p2

theorem Located.at_p1 : At m (path page) n₁ := h.at le_rfl hl.p1

theorem Located.run_p4 : (nextTable p4Address (p4Index page)).run m =
    .ok (some (tableAddress [p4Index page]), m) :=
  nextTable_at (p := []) (h.at (by simp) rfl) hl.p3

theorem Located.run_p3 : (nextTable (tableAddress [p4Index page]) (p3Index page)).run m =
    .ok (some (tableAddress [p4Index page, p3Index page]), m) :=
  nextTable_at (p := [p4Index page]) (h.at (by simp) hl.p3) hl.p2

theorem Located.run_p2 : (nextTable (tableAddress [p4Index page, p3Index page])
    (p2Index page)).run m = .ok (some (tableAddress (path page)), m) :=
  nextTable_at (hl.at_p2 h) hl.p1

end Located

/-- A page that is mapped has its tables, and an entry in the last of them. -/
theorem located_of_mapping {e : Nat × EntryFlags}
    (he : m.mapping (path page) (p1Index page) = some e) : ∃ n₃ n₂ n₁, Located m page n₃ n₂ n₁ ∧
      (m.memory n₁ (p1Index page)).pointedFrame = some e.1 ∧
      (m.memory n₁ (p1Index page)).flags = e.2 := by
  obtain ⟨n₁, hn₁, hentry⟩ := Option.bind_eq_some_iff.mp he
  obtain ⟨n₃, n₂, hl⟩ := located hn₁
  obtain ⟨f, hf, rfl⟩ := Option.map_eq_some_iff.mp hentry
  exact ⟨n₃, n₂, n₁, hl, hf, rfl⟩

/-- **Remapping a page** changes its flags. -/
theorem remap_run (flags : EntryFlags) (h : m.Inv) {fl : EntryFlags}
    (hmapped : m.mapping (path page) (p1Index page) = some (frame, fl)) :
    ∃ m', (remap page flags).run m = .ok ((), m') ∧ m'.deallocated = m.deallocated ∧
      Remapped m m' page (some (frame, flags.union .present)) := by
  obtain ⟨n₃, n₂, n₁, hl, hframe, -⟩ := located_of_mapping hmapped
  have hsmall := Entry.pointedFrame_lt hframe
  have hcounted := h.counted _ n₁ le_rfl hl.p1
  have hpresent := flags.contains_union_right .present
  have hbody : ∀ j, ((m.memory n₁).setEntry (p1Index page) frame (flags.union .present) j).body =
      if j = p1Index page then Entry.filled frame (flags.union .present)
      else (m.memory n₁ j).body := fun j => Table.body_setEntry hsmall
  have hfilled := (hbody (p1Index page)).trans (if_pos rfl)
  refine ⟨m.write n₁ ((m.memory n₁).setEntry (p1Index page) frame (flags.union .present)), ?_,
    rfl, ?_⟩
  · rw [remap]
    refine (run_bind (hl.run_p4 h)).trans ((run_bind (expect_run _ _)).trans ?_)
    refine (run_bind (hl.run_p3 h)).trans ((run_bind (expect_run _ _)).trans ?_)
    refine (run_bind (hl.run_p2 h)).trans ((run_bind (expect_run _ _)).trans ?_)
    refine (run_bind (table_run (hl.at_p1 h))).trans ?_
    rw [hframe]
    exact (run_bind (expect_run _ _)).trans (modifyTable_run (hl.at_p1 h) _)
  · rw [← Entry.mapping_of_filled hfilled hsmall hpresent]
    refine remapped_leaf h hl.p1
      (Table.counted_setEntry hcounted (Entry.body_ne_zero hframe) hsmall hpresent).1
      (fun j hj => ?_) ?_
    · rw [hbody, if_neg hj]
    · rw [Entry.pointedFrame_of_filled hfilled hsmall hpresent]
      exact nofun

/-- A path with no table on it leads nowhere. -/
theorem node_none (h : m.node p = none) : m.node (p ++ [i]) = none := by
  rw [Machine.node, Radix.node_concat]
  rw [Machine.node] at h
  rw [h]
  rfl

theorem leafEntry_run (h : m.Inv) (hpage : p4Index page ≠ recursivePagePml4) :
    (leafEntry page).run m =
      .ok ((m.node (path page)).map fun n => m.memory n (p1Index page), m) := by
  have hat : At m [] m.cr3 := h.at (by simp) rfl
  rw [leafEntry]
  cases hn₃ : m.node [p4Index page] with
  | none =>
    have hnone : m.node (path page) = none :=
      node_none (p := [p4Index page, p3Index page]) (node_none (p := [p4Index page]) hn₃)
    rw [hnone]
    exact (run_bind (nextTable_none hat (notMem_reserved_cr3 hpage) hn₃))
  | some n₃ =>
    have hat₃ : At m [p4Index page] n₃ := h.at (by simp) hn₃
    refine (run_bind (nextTable_at hat hn₃)).trans ?_
    cases hn₂ : m.node [p4Index page, p3Index page] with
    | none =>
      have hnone : m.node (path page) = none := node_none (p := [p4Index page, p3Index page]) hn₂
      have hres := h.notMem_reserved (by simp) (List.cons_ne_nil _ _) hn₃ (p3Index page)
      rw [hnone]
      exact (run_bind (nextTable_none hat₃ hres hn₂))
    | some n₂ =>
      have hat₂ : At m [p4Index page, p3Index page] n₂ := h.at (by simp) hn₂
      refine (run_bind (nextTable_at hat₃ hn₂)).trans ?_
      cases hn₁ : m.node (path page) with
      | none =>
        have hres := h.notMem_reserved (by simp) (List.cons_ne_nil _ _) hn₂ (p2Index page)
        exact (run_bind (nextTable_none hat₂ hres hn₁))
      | some n₁ =>
        refine (run_bind (nextTable_at hat₂ hn₁)).trans ?_
        exact (run_bind (table_run (h.at le_rfl hn₁)))

theorem translatePage_run (h : m.Inv) (hpage : p4Index page ≠ recursivePagePml4) :
    (translatePage page).run m =
      .ok ((m.mapping (path page) (p1Index page)).map Prod.fst, m) := by
  rw [translatePage, run_bind (leafEntry_run h hpage), mapping]
  cases m.node (path page) with
  | none => rfl
  | some n =>
    rw [Option.bind_some, Entry.mapping, Option.map_map]
    exact congrArg (fun o => Except.ok (o, m)) Option.map_id'.symm

/-- What `translate_page_flags` returns for a page: the flags of a page that is mapped;
of any other, nothing or no flag. -/
def FlagsOf (e : Option (Nat × EntryFlags)) (o : Option EntryFlags) : Prop :=
  match e with
  | some e => o = some e.2
  | none => o = none ∨ o = some .empty

theorem translatePageFlags_run (h : m.Inv) (hpage : p4Index page ≠ recursivePagePml4) :
    ∃ o, (translatePageFlags page).run m = .ok (o, m) ∧
      FlagsOf (m.mapping (path page) (p1Index page)) o := by
  refine ⟨_, run_bind (leafEntry_run h hpage), ?_⟩
  rw [mapping]
  cases hn : m.node (path page) with
  | none => exact .inl rfl
  | some n =>
    rw [Option.bind_some, Entry.mapping]
    cases hf : (m.memory n (p1Index page)).pointedFrame with
    | some f => exact rfl
    | none =>
      refine .inr ?_
      rw [Option.map_some, Option.map_some, Entry.flags_eq, h.leaf _ n _ rfl hn hf]
      rfl

end Page

/-! ### Freeing empty tables -/

/-- The entries of a table that are in use. -/
def Machine.used (m : Machine) (frame : Nat) : Nat := (m.memory frame).occupied (m.reserved frame)

/-- `Prune m p m' freed`: an entry of the table at the end of `p` was put out of use,
and from there upwards every table is freed that was left empty. -/
inductive Prune : Machine → List Index → Machine → List Nat → Prop where
  | stop {m : Machine} {p : List Index} {n : Nat} (hn : m.node p = some n)
      (hused : p = [] ∨ m.used n ≠ 0) : Prune m p m []
  | free {m m' : Machine} {p : List Index} {i : Index} {n g : Nat} {freed : List Nat}
      (hn : m.node p = some n) (hi : i ∉ m.reserved n) (hg : m.node (p ++ [i]) = some g)
      (hempty : m.used g = 0) (hrest : Prune (m.unlinked n i g) p m' freed) :
      Prune m (p ++ [i]) m' (g :: freed)

/-- What pruning does, from a table in frame `n` at the end of `p` upwards. -/
structure Pruned (m : Machine) (p : List Index) (n : Nat) (m' : Machine) (freed : List Nat) :
    Prop where
  inv : m'.Inv
  cr3 : m'.cr3 = m.cr3
  mapping : ∀ q j, q.length = 3 → m'.mapping q j = m.mapping q j
  deallocated : m'.deallocated = m.deallocated ++ freed
  memory : ∀ f, (∀ q, q.length < p.length → m.node q ≠ some f) → m'.memory f = m.memory f
  nodup : freed.Nodup
  freed : ∀ f, f ∈ freed ↔ f = n ∧ p ≠ [] ∧ m.used n = 0 ∨
    f ≠ n ∧ m.IsTable f ∧ m.used f ≠ 0 ∧ m'.used f = 0

/-- Taking a table out of its slot puts one entry of its parent out of use. -/
theorem used_unlinked (h : m.Inv) (hn : m.node p = some n) (hp : p.length < 3)
    (hi : i ∉ m.reserved n) (hg : m.node (p ++ [i]) = some g) :
    m.used n = (m.unlinked n i g).used n + 1 ∧
      ∀ f, f ≠ n → (m.unlinked n i g).memory f = m.memory f := by
  refine ⟨?_, fun f hf => Function.update_of_ne hf ..⟩
  have hself : (m.unlinked n i g).memory n = (m.memory n).vacate i := Function.update_self ..
  show _ = ((m.unlinked n i g).memory n).occupied (m.reserved n) + 1
  rw [hself]
  exact (Table.counted_vacate (h.counted p n hp.le hn) hi (slot_used hn hg).2).2

theorem used_eq_occupied (hn : n ≠ m.cr3) : m.used n = (m.memory n).occupied ∅ := by
  rw [Machine.used, reserved_of_ne hn]

/-- P4 is not a table that was taken from the allocator; every other table is. -/
theorem isTable_iff (h : m.Inv) (hp : p.length ≤ 3) (hn : m.node p = some n) :
    m.IsTable n ↔ p ≠ [] := by
  refine ⟨?_, fun hne => ⟨p, hne, hp, hn⟩⟩
  rintro ⟨q, hne, hq, hk⟩
  rwa [h.tree hp hq hn hk]

theorem used_congr {f : Nat} (hcr3 : m'.cr3 = m.cr3) (hmem : m'.memory f = m.memory f) :
    m'.used f = m.used f := by
  rw [Machine.used, Machine.used, Machine.reserved, Machine.reserved, hcr3, hmem]

section Free

variable {freed : List Nat} (h : m.Inv) (hn : m.node p = some n) (hp : p.length < 3)
  (hi : i ∉ m.reserved n) (hg : m.node (p ++ [i]) = some g) (hempty : m.used g = 0)

include h hn hp hi hg hempty

omit hn hi in
theorem occupied_of_used : (m.memory g).occupied ∅ = 0 := by
  rw [← used_eq_occupied, hempty]
  refine h.ne_cr3 ?_ (List.concat_ne_nil i p) hg
  rw [List.length_append, List.length_singleton]
  exact hp

/-- The tables that are freed are those left empty, one level up. -/
theorem mem_freed (hrest : Pruned (m.unlinked n i g) p n m' freed) (f : Nat) :
    f ∈ g :: freed ↔ f = g ∧ p ++ [i] ≠ [] ∧ m.used g = 0 ∨
      f ≠ g ∧ m.IsTable f ∧ m.used f ≠ 0 ∧ m'.used f = 0 := by
  have hempty' := occupied_of_used h hp hg hempty
  obtain ⟨hlower, hother⟩ := used_unlinked h hn hp hi hg
  rw [List.mem_cons, hrest.freed f, isTable_unlinked h hn hp hi hg hempty']
  by_cases hfg : f = g
  · exact iff_of_true (.inl hfg) (.inl ⟨hfg, List.concat_ne_nil i p, hempty⟩)
  · by_cases hfn : f = n
    · subst hfn
      have hsame : m'.used f = (m.unlinked f i g).used f := by
        refine used_congr hrest.cr3 (hrest.memory f fun q hq hk => ?_)
        rw [node_unlinked h hn hp hi hg hempty' (by omega)] at hk
        split at hk
        · cases hk
        · exact h.ne_of_lt hq hp.le hk hn rfl
      rw [isTable_iff h hp.le hn, hsame]
      constructor
      · rintro (heq | ⟨-, hne, hzero⟩ | ⟨hne, -⟩)
        · exact absurd heq hfg
        · exact .inr ⟨hfg, hne, by omega, hzero⟩
        · exact absurd rfl hne
      · rintro (⟨heq, -⟩ | ⟨-, hne, -, hzero⟩)
        · exact absurd heq hfg
        · exact .inr (.inl ⟨rfl, hne, hzero⟩)
    · have hsame : (m.unlinked n i g).used f = m.used f := used_congr rfl (hother f hfn)
      rw [hsame]
      constructor
      · rintro (heq | ⟨heq, -⟩ | ⟨-, ⟨htable, -⟩, hne, hzero⟩)
        · exact absurd heq hfg
        · exact absurd heq hfn
        · exact .inr ⟨hfg, htable, hne, hzero⟩
      · rintro (⟨heq, -⟩ | ⟨-, htable, hne, hzero⟩)
        · exact absurd heq hfg
        · exact .inr (.inr ⟨hfn, ⟨htable, hfg⟩, hne, hzero⟩)

theorem Pruned.free (hrest : Pruned (m.unlinked n i g) p n m' freed) :
    Pruned m (p ++ [i]) g m' (g :: freed) where
  inv := hrest.inv
  cr3 := hrest.cr3
  mapping := by
    intro q j hq
    rw [hrest.mapping q j hq]
    exact (regraft_unlinked h hn hp hi hg (occupied_of_used h hp hg hempty)).mapping
      h hn hp hi hq j
  deallocated := by
    rw [hrest.deallocated, List.append_cons]
    rfl
  memory := by
    intro f hf
    have hfn : f ≠ n := fun heq => hf p (by simp) (heq ▸ hn)
    rw [hrest.memory f, (used_unlinked h hn hp hi hg).2 f hfn]
    intro q hq hk
    rw [node_unlinked h hn hp hi hg (occupied_of_used h hp hg hempty) (by omega)] at hk
    split at hk
    · cases hk
    · exact hf q (by rw [List.length_append, List.length_singleton]; omega) hk
  nodup := by
    refine List.nodup_cons.mpr ⟨fun hmem => ?_, hrest.nodup⟩
    rcases (hrest.freed g).mp hmem with ⟨heq, -⟩ | ⟨-, hin, -⟩
    · refine h.ne_of_lt (by simp) ?_ hn hg heq
      rw [List.length_append, List.length_singleton]
      exact hp
    · have hempty' := occupied_of_used h hp hg hempty
      exact ((isTable_unlinked h hn hp hi hg hempty' g).mp hin).2 rfl
  freed := mem_freed h hn hp hi hg hempty hrest

end Free

theorem pruned_of_prune {freed : List Nat} (hprune : Prune m p m' freed) (h : m.Inv)
    (hp : p.length ≤ 3) (hn : m.node p = some n) : Pruned m p n m' freed := by
  induction hprune generalizing n with
  | stop hn' hused =>
    rw [hn] at hn'
    cases hn'
    refine ⟨h, rfl, fun _ _ _ => rfl, (List.append_nil _).symm, fun _ _ => rfl, List.nodup_nil,
      fun f => iff_of_false List.not_mem_nil ?_⟩
    rintro (⟨rfl, hne, hzero⟩ | ⟨-, -, hne, hzero⟩)
    · exact hused.elim hne fun hpos => hpos hzero
    · exact hne hzero
  | free hk hi hg hempty hrest ih =>
    rw [hg] at hn
    cases hn
    rw [List.length_append, List.length_singleton] at hp
    have hempty' := occupied_of_used h hp hg hempty
    refine (ih (inv_unlinked h hk hp hi hg hempty') (by omega) ?_).free h hk hp hi hg hempty
    rw [node_unlinked h hk hp hi hg hempty' (by omega), if_neg (by simp), hk]

/-! ### Unmapping a page -/

section Unmap

variable {page frame : Nat} {flags : EntryFlags}

/-- The test whether a table is empty. -/
theorem isUnused_eq (h : m.Inv) (hp : p.length ≤ 3) (hn : m.node p = some n) :
    (m.memory n).isUnused = decide (m.used n = 0) := by
  rw [eq_comm, Bool.eq_iff_iff, decide_eq_true_iff]
  exact (h.counted p n hp hn).isUnused_iff.symm

/-- The code returns `frame` and has pruned the tree. -/
def Prunes (code : Kernel Nat) (frame : Nat) (m : Machine) (p : List Index) : Prop :=
  ∃ m' freed, code.run m = .ok (frame, m') ∧ Prune m p m' freed

/-- The code stops at a table that is not empty. -/
theorem prunes_test {code : Kernel Nat} (h : m.Inv) (hp : p.length ≤ 3) (hn : m.node p = some n)
    (hcode : m.used n = 0 → Prunes code frame m p) :
    Prunes (do if !(← table (tableAddress p)).isUnused then return frame else code) frame m p := by
  by_cases hzero : m.used n = 0
  · obtain ⟨m', freed, hrun, hprune⟩ := hcode hzero
    refine ⟨m', freed, ?_, hprune⟩
    rw [run_bind (table_run (h.at hp hn)), isUnused_eq h hp hn, decide_eq_true hzero]
    exact hrun
  · refine ⟨m, [], ?_, .stop hn (.inr hzero)⟩
    rw [run_bind (table_run (h.at hp hn)), isUnused_eq h hp hn, decide_eq_false hzero]
    rfl

/-- The code frees an empty table, and goes on with the table above it. -/
theorem prunes_free {code : Kernel Nat} (h : m.Inv) (hn : m.node p = some n) (hp : p.length < 3)
    (hi : i ∉ m.reserved n) (hg : m.node (p ++ [i]) = some g) (hempty : m.used g = 0)
    (message : String)
    (hcode : ∀ m₂ : Machine, m₂.Inv → m₂.cr3 = m.cr3 →
      (∀ q, q.length ≤ p.length → m₂.node q = m.node q) → Prunes code frame m₂ p) :
    Prunes (do freeTable page (tableAddress p) i message; code) frame m (p ++ [i]) := by
  have hempty' := occupied_of_used h hp hg hempty
  obtain ⟨m', freed, hrun, hprune⟩ := hcode (m.unlinked n i g)
    (inv_unlinked h hn hp hi hg hempty') rfl fun q hq => by
      rw [node_unlinked h hn hp hi hg hempty' (by omega), if_neg]
      rintro rfl
      rw [List.length_append, List.length_singleton] at hq
      omega
  refine ⟨m', g :: freed, ?_, .free hn hi hg hempty hprune⟩
  have hfree : (freeTable page (tableAddress p) i message).run m = .ok ((), m.unlinked n i g) :=
    (h.at hp.le hn).linked.freeTable_run (h.counted p n hp.le hn) hi
      (next_eq_some (slot_used hn hg).1) message
  rw [run_bind hfree, hrun]

/-- The end of `unmap_inner`, after the entry of the page was cleared. -/
def pruneUp (page frame : Nat) : Kernel Nat := do
  if !(← table (tableAddress (path page))).isUnused then
    return frame
  freeTable page (tableAddress [p4Index page, p3Index page]) (p2Index page) "p1_frame not found"
  if !(← table (tableAddress [p4Index page, p3Index page])).isUnused then
    return frame
  freeTable page (tableAddress [p4Index page]) (p3Index page) "p2_frame not found"
  if !(← table (tableAddress [p4Index page])).isUnused then
    return frame
  freeTable page p4Address (p4Index page) "p3_frame not found"
  return frame

theorem prunes_pruneUp {n₃ n₂ n₁ : Nat} (frame : Nat) (h : m.Inv) (hpage : p4Index page ≠ recursivePagePml4)
    (hl : Located m page n₃ n₂ n₁) : Prunes (pruneUp page frame) frame m (path page) := by
  have hlen₂ : [p4Index page, p3Index page].length ≤ 3 := by simp
  have hlen₃ : [p4Index page].length ≤ 3 := by simp
  refine prunes_test h le_rfl hl.p1 fun hzero₁ => ?_
  refine prunes_free (p := [p4Index page, p3Index page]) h hl.p2 (by simp)
    (h.notMem_reserved hlen₂ (List.cons_ne_nil _ _) hl.p2 _) hl.p1 hzero₁ _
    fun m₂ h₂ hcr₂ hnode₂ => ?_
  have hp2 := (hnode₂ _ le_rfl).trans hl.p2
  have hp3 := (hnode₂ [p4Index page] (by simp)).trans hl.p3
  refine prunes_test h₂ hlen₂ hp2 fun hzero₂ => ?_
  refine prunes_free (p := [p4Index page]) h₂ hp3 (by simp)
    (h₂.notMem_reserved hlen₃ (List.cons_ne_nil _ _) hp3 _) hp2 hzero₂ _
    fun m₃ h₃ hcr₃ hnode₃ => ?_
  have hp3' := (hnode₃ _ le_rfl).trans hp3
  refine prunes_test h₃ hlen₃ hp3' fun hzero₃ => ?_
  refine prunes_free (p := []) h₃ rfl (by simp) (notMem_reserved_cr3 hpage) hp3' hzero₃ _
    fun m₄ h₄ hcr₄ hnode₄ => ?_
  exact ⟨m₄, [], rfl, .stop rfl (.inl rfl)⟩

/-- The entry of a page is cleared. -/
theorem remapped_vacate (h : m.Inv) (hn : m.node (path page) = some n)
    (hframe : (m.memory n (p1Index page)).pointedFrame = some frame) :
    Remapped m (m.write n ((m.memory n).vacate (p1Index page))) page none := by
  have hcounted := h.counted _ n le_rfl hn
  have hreserved := h.notMem_reserved le_rfl (List.cons_ne_nil _ _) hn (p1Index page)
  have hused := Entry.body_ne_zero hframe
  have hbody := Table.body_vacate hcounted hreserved hused
  have hzero := (hbody (p1Index page)).trans (if_pos rfl)
  rw [← Entry.mapping_of_unused hzero]
  refine remapped_leaf h hn (Table.counted_vacate hcounted hreserved hused).1 (fun j hj => ?_) ?_
  · rw [hbody, if_neg hj]
  · exact fun _ => hzero

theorem unmapInner_eq (h : m.Inv) (keep : Bool) {n₃ n₂ n₁ : Nat} (hl : Located m page n₃ n₂ n₁)
    (hframe : (m.memory n₁ (p1Index page)).pointedFrame = some frame) :
    (unmapInner page keep).run m =
      (if keep then pure frame else pruneUp page frame).run
        (m.write n₁ ((m.memory n₁).vacate (p1Index page))) := by
  have hcounted := h.counted _ n₁ le_rfl hl.p1
  have hres := h.notMem_reserved le_rfl (List.cons_ne_nil _ _) hl.p1 (p1Index page)
  have hpred := hcounted.pred_lt (Table.occupied_pos hres (Entry.body_ne_zero hframe))
  rw [unmapInner]
  refine (run_bind (hl.run_p4 h)).trans ((run_bind (orPanic_run _ _)).trans ?_)
  refine (run_bind (hl.run_p3 h)).trans ((run_bind (orPanic_run _ _)).trans ?_)
  refine (run_bind (hl.run_p2 h)).trans ((run_bind (orPanic_run _ _)).trans ?_)
  refine (run_bind (table_run (hl.at_p1 h))).trans ?_
  rw [hframe]
  refine (run_bind (orPanic_run _ _)).trans ?_
  rw [run_modifyTable_twice (hl.at_p1 h).linked fun j => Table.body_setEntryCount hpred]
  cases keep with
  | true => exact run_bind (table_run ((remapped_vacate h hl.p1 hframe).inv.at le_rfl
      ((node_write h rfl hl.p1 _ le_rfl).trans hl.p1)))
  | false => rfl

/-- The tables that are freed are those left without an entry in use. -/
theorem mem_freed_of_pruned {freed : List Nat} (h : m.Inv) (hn : m.node (path page) = some n)
    (hframe : (m.memory n (p1Index page)).pointedFrame = some frame)
    (hpruned : Pruned (m.write n ((m.memory n).vacate (p1Index page))) (path page) n m' freed)
    (f : Nat) : f ∈ freed ↔ m.IsTable f ∧ m.used f ≠ 0 ∧ m'.used f = 0 := by
  have hcounted := h.counted _ n le_rfl hn
  have hreserved := h.notMem_reserved le_rfl (List.cons_ne_nil _ _) hn (p1Index page)
  have hnode := fun q hq => node_write h rfl hn ((m.memory n).vacate (p1Index page)) (q := q) hq
  rw [hpruned.freed f, isTable_congr hnode]
  by_cases hfn : f = n
  · subst hfn
    have hlower : m.used f = (m.write f ((m.memory f).vacate (p1Index page))).used f + 1 := by
      show _ = (Function.update m.memory f _ f).occupied (m.reserved f) + 1
      rw [Function.update_self]
      exact (Table.counted_vacate hcounted hreserved (Entry.body_ne_zero hframe)).2
    have hsame : m'.used f = (m.write f ((m.memory f).vacate (p1Index page))).used f := by
      refine used_congr hpruned.cr3 (hpruned.memory f fun q hq hk => ?_)
      rw [hnode q (by simpa [path] using hq.le)] at hk
      exact h.ne_of_lt hq le_rfl hk hn rfl
    rw [hsame]
    constructor
    · rintro (⟨-, hne, hzero⟩ | ⟨hne, -⟩)
      · exact ⟨⟨path page, hne, le_rfl, hn⟩, by omega, hzero⟩
      · exact absurd rfl hne
    · rintro ⟨-, -, hzero⟩
      exact .inl ⟨rfl, List.cons_ne_nil _ _, hzero⟩
  · have hsame : (m.write n ((m.memory n).vacate (p1Index page))).used f = m.used f :=
      used_congr rfl (Function.update_of_ne hfn ..)
    rw [hsame]
    exact ⟨fun hor => (hor.resolve_left fun hand => hfn hand.1).2, fun hand => .inr ⟨hfn, hand⟩⟩

/-- **Unmapping a page** clears its entry, and frees the tables that this leaves empty
unless the parents are kept. -/
theorem unmapReturn_run (h : m.Inv) (hpage : p4Index page ≠ recursivePagePml4) (keep : Bool)
    (hmapped : m.mapping (path page) (p1Index page) = some (frame, flags)) :
    ∃ m' freed, (unmapReturn page keep).run m = .ok (frame, m') ∧ Remapped m m' page none ∧
      m'.deallocated = m.deallocated ++ freed ∧ freed.Nodup ∧
      ∀ f, f ∈ freed ↔ keep = false ∧ m.IsTable f ∧ m.used f ≠ 0 ∧ m'.used f = 0 := by
  obtain ⟨n₃, n₂, n₁, hl, hframe, -⟩ := located_of_mapping hmapped
  have hleaf := remapped_vacate h hl.p1 hframe
  have hnode := fun q hq => node_write h rfl hl.p1 ((m.memory n₁).vacate (p1Index page)) (q := q) hq
  have hrun := unmapInner_eq h keep hl hframe
  cases keep with
  | true =>
    refine ⟨_, [], hrun, hleaf, (List.append_nil _).symm, List.nodup_nil, fun f => ?_⟩
    exact iff_of_false List.not_mem_nil fun hand => Bool.noConfusion hand.1
  | false =>
    have hl₁ : Located _ page n₃ n₂ n₁ := ⟨(hnode _ (by simp)).trans hl.p3,
      (hnode _ (by simp)).trans hl.p2, (hnode _ le_rfl).trans hl.p1⟩
    obtain ⟨m', freed, hprunes, hprune⟩ := prunes_pruneUp frame hleaf.inv hpage hl₁
    have hpruned := pruned_of_prune hprune hleaf.inv le_rfl hl₁.p1
    refine ⟨m', freed, hrun.trans hprunes, ⟨hpruned.inv, hpruned.cr3, fun q j hq => ?_⟩,
      hpruned.deallocated, hpruned.nodup, fun f => ?_⟩
    · rw [hpruned.mapping q j hq, hleaf.mapping q j hq]
    · rw [mem_freed_of_pruned h hl.p1 hframe hpruned f]
      exact ⟨fun hand => ⟨rfl, hand⟩, fun hand => hand.2⟩

end Unmap

end Faastr.Paging
