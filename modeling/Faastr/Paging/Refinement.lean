import Faastr.Lib.Transition
import Faastr.Paging.Operations

/-!
The page table refines a map from pages to frames and flags.

A session is a machine beside the map that its calls should have made. It starts with
a P4 that is zero but for its recursive slot; a call maps a page that is not mapped,
or changes the flags of, or unmaps, a page that is; for each call the frame allocator
supplies frames that are not page tables.

* `page_table_refines_map`: in every state of every session the tables say what the map
  says, each counter is the number of entries in use, and a frame that is a table was
  taken from the allocator once more than it was given back. Every call returns, changes
  no other page, and gives back exactly the tables that an unmapping without
  `keep_parents` leaves without an entry in use.
-/

namespace Faastr.Paging

open Faastr.Lib Faastr.Memory Kernel Machine Relation

/-- A page outside of the recursive slot. -/
def ValidPage (page : Nat) : Prop := page < 2 ^ 36 ∧ p4Index page ≠ recursivePagePml4

/-- What a page is mapped to: its frame, and the flags that were asked for. -/
abbrev PageMap := Nat → Option (Nat × EntryFlags)

inductive Call where
  | mapTo (page frame : Nat) (flags : EntryFlags)
  | remap (page : Nat) (flags : EntryFlags)
  | unmapReturn (page : Nat) (keepParents : Bool)

namespace Call

def page : Call → Nat
  | mapTo page _ _ => page
  | remap page _ => page
  | unmapReturn page _ => page

/-- The code of the call, with the frame that it returns, if any. -/
def code : Call → Kernel (Option Nat)
  | mapTo page frame flags => do
      Paging.mapTo page frame flags
      return none
  | remap page flags => do
      Paging.remap page flags
      return none
  | unmapReturn page keepParents => return some (← Paging.unmapReturn page keepParents)

/-- What the call does to the map. -/
def apply (A : PageMap) : Call → PageMap
  | mapTo page frame flags => Function.update A page (some (frame, flags))
  | remap page flags => Function.update A page ((A page).map fun e => (e.1, flags))
  | unmapReturn page _ => Function.update A page none

/-- What the call returns. -/
def result (A : PageMap) : Call → Option Nat
  | unmapReturn page _ => (A page).map Prod.fst
  | _ => none

/-- Pages are mapped when they are not, and remapped or unmapped when they are. -/
def Allowed (A : PageMap) : Call → Prop
  | mapTo page frame _ => ValidPage page ∧ frame < 2 ^ 40 ∧ A page = none
  | remap page _ => ValidPage page ∧ A page ≠ none
  | unmapReturn page _ => ValidPage page ∧ A page ≠ none

/-- The calls that free tables. -/
def Frees : Call → Prop
  | unmapReturn _ keepParents => keepParents = false
  | _ => False

end Call

structure Session where
  machine : Machine
  map : PageMap

/-- The flags of the recursive slot. -/
def recursiveFlags : EntryFlags := (EntryFlags.present.union .writable).union .noExecute

/-- `InactivePageTable::new`: a P4 that is zero but for its recursive slot. -/
def Machine.new (memory : Nat → Table) (frame : Nat) : Machine where
  memory := Function.update memory frame
    ((memory frame).zero.setEntry recursivePagePml4 frame recursiveFlags)
  cr3 := frame
  frames := []
  allocated := []
  deallocated := []

namespace Session

def start (memory : Nat → Table) (frame : Nat) : Session := ⟨.new memory frame, fun _ => none⟩

/-- The machine with frames that the allocator hands out next. -/
def supply (s : Session) (frames : List Nat) : Machine := { s.machine with frames }

/-- Enough frames for the tables of one page, fit for use. -/
def Supplies (s : Session) (frames : List Nat) : Prop :=
  3 ≤ frames.length ∧ (s.supply frames).Supplied

inductive Step : Session → Session → Prop where
  | call {s : Session} {c : Call} {frames : List Nat} {r : Option Nat} {m' : Machine}
      (hallowed : c.Allowed s.map) (hsupply : s.Supplies frames)
      (hrun : c.code.run (s.supply frames) = .ok (r, m')) : Step s ⟨m', c.apply s.map⟩

/-- The tables say what the map says. -/
structure Refines (s : Session) : Prop where
  translate : ∀ page, ValidPage page →
    (translatePage page).run s.machine = .ok ((s.map page).map Prod.fst, s.machine)
  flags : ∀ page frame flags, ValidPage page → s.map page = some (frame, flags) →
    (translatePageFlags page).run s.machine = .ok (some (flags.union .present), s.machine)
  /-- The counter of each table; the recursive slot of P4 is not counted. -/
  counted : ∀ frame, s.machine.IsTable frame ∨ frame = s.machine.cr3 →
    (s.machine.memory frame).entryCount.toNat = s.machine.used frame
  ledger : s.machine.Ledger

/-- What a call does. -/
structure Performs (s : Session) (c : Call) (frames : List Nat) (r : Option Nat) (m' : Machine) :
    Prop where
  run : c.code.run (s.supply frames) = .ok (r, m')
  result : r = c.result s.map
  refines : Refines ⟨m', c.apply s.map⟩
  /-- Other pages keep their translations and flags; a page without an entry has none. -/
  others : ∀ page, ValidPage page → page ≠ c.page → ∃ o f f',
    (translatePage page).run s.machine = .ok (o, s.machine) ∧
    (translatePage page).run m' = .ok (o, m') ∧
    (translatePageFlags page).run s.machine = .ok (f, s.machine) ∧
    (translatePageFlags page).run m' = .ok (f', m') ∧ f'.getD .empty = f.getD .empty
  /-- The tables that are given back. -/
  freed : ∃ freed, m'.deallocated = s.machine.deallocated ++ freed ∧ freed.Nodup ∧
    ∀ frame, frame ∈ freed ↔
      c.Frees ∧ s.machine.IsTable frame ∧ s.machine.used frame ≠ 0 ∧ m'.used frame = 0

/-! ### The invariant -/

/-- The tables form a tree, and it maps the pages of the map. -/
structure Inv (s : Session) : Prop where
  machine : s.machine.Inv
  mapping : ∀ page, ValidPage page → s.machine.mapping (path page) (p1Index page) =
    (s.map page).map fun e => (e.1, e.2.union .present)

end Session

/-- The indices of a page determine its bits below those that are the same in every address. -/
theorem page_mod_ext {page page' : Nat} (hpath : path page = path page')
    (hindex : p1Index page = p1Index page') : page % 2 ^ 36 = page' % 2 ^ 36 := by
  rw [path, path, List.cons.injEq, List.cons.injEq, List.cons.injEq] at hpath
  obtain ⟨h4, h3, h2, -⟩ := hpath
  have h4 := congrArg Fin.val h4
  have h3 := congrArg Fin.val h3
  have h2 := congrArg Fin.val h2
  have h1 := congrArg Fin.val hindex
  rw [p4Index, p4Index, index_eq, index_eq, Nat.shiftRight_eq_div_pow,
    Nat.shiftRight_eq_div_pow] at h4
  rw [p3Index, p3Index, index_eq, index_eq, Nat.shiftRight_eq_div_pow,
    Nat.shiftRight_eq_div_pow] at h3
  rw [p2Index, p2Index, index_eq, index_eq, Nat.shiftRight_eq_div_pow,
    Nat.shiftRight_eq_div_pow] at h2
  rw [p1Index, p1Index, index_eq, index_eq] at h1
  omega

/-- The indices of a page determine it. -/
theorem page_ext {page page' : Nat} (h : page < 2 ^ 36) (h' : page' < 2 ^ 36)
    (hpath : path page = path page') (hindex : p1Index page = p1Index page') : page = page' := by
  have hmod := page_mod_ext hpath hindex
  rwa [Nat.mod_eq_of_lt h, Nat.mod_eq_of_lt h'] at hmod

namespace Session

variable {s s' : Session} {m' : Machine}

theorem Inv.refines (h : s.Inv) : s.Refines where
  translate := by
    intro page hpage
    rw [translatePage_run h.machine hpage.2, h.mapping page hpage, Option.map_map]
    rfl
  flags := by
    intro page frame flags hpage hmap
    obtain ⟨o, hrun, hflags⟩ := translatePageFlags_run h.machine hpage.2
    rw [h.mapping page hpage, hmap] at hflags
    rw [hrun, hflags]
  counted := by
    rintro frame (⟨p, -, hp, hn⟩ | rfl)
    · exact h.machine.counted p frame hp hn
    · exact h.machine.counted [] _ (Nat.zero_le 3) rfl
  ledger := h.machine.ledger

/-- The frames that the allocator holds do not matter to the tables. -/
theorem Inv.supply (h : s.Inv) (frames : List Nat) : (s.supply frames).Inv :=
  ⟨h.machine.recursive, h.machine.tree, h.machine.counted, h.machine.inner, h.machine.leaf,
    h.machine.ledger⟩

/-- One page is changed, in the tables and in the map. -/
theorem inv_remapped (h : s.Inv) {page : Nat} {frames : List Nat} {e : Option (Nat × EntryFlags)}
    (hpage : ValidPage page)
    (hm : Remapped (s.supply frames) m' page (e.map fun e => (e.1, e.2.union .present))) :
    Inv ⟨m', Function.update s.map page e⟩ where
  machine := hm.inv
  mapping := by
    intro page' hpage'
    show m'.mapping _ _ = (Function.update s.map page e page').map _
    rw [hm.mapping _ _ rfl]
    by_cases heq : page' = page
    · subst heq
      rw [if_pos ⟨rfl, rfl⟩, Function.update_self]
    · rw [if_neg fun hand => heq (page_ext hpage'.1 hpage.1 hand.1 hand.2),
        Function.update_of_ne heq]
      exact h.mapping page' hpage'

/-- Two states that map a page alike look it up alike. -/
theorem others_of_inv (h : s.Inv) (h' : s'.Inv) {page : Nat} (hpage : ValidPage page)
    (hsame : s'.map page = s.map page) : ∃ o f f',
      (translatePage page).run s.machine = .ok (o, s.machine) ∧
      (translatePage page).run s'.machine = .ok (o, s'.machine) ∧
      (translatePageFlags page).run s.machine = .ok (f, s.machine) ∧
      (translatePageFlags page).run s'.machine = .ok (f', s'.machine) ∧
      f'.getD .empty = f.getD .empty := by
  obtain ⟨f, hrun, hf⟩ := translatePageFlags_run h.machine hpage.2
  obtain ⟨f', hrun', hf'⟩ := translatePageFlags_run h'.machine hpage.2
  rw [h.mapping page hpage] at hf
  rw [h'.mapping page hpage, hsame] at hf'
  refine ⟨_, f, f', h.refines.translate page hpage, ?_, hrun, hrun', ?_⟩
  · rw [h'.refines.translate page hpage, hsame]
  · cases hmap : s.map page with
    | some e =>
      rw [hmap] at hf hf'
      rw [show f = _ from hf, show f' = _ from hf']
    | none =>
      rw [hmap] at hf hf'
      rcases hf with rfl | rfl <;> rcases hf' with rfl | rfl <;> rfl

theorem apply_of_ne (A : PageMap) (c : Call) {page : Nat} (hne : page ≠ c.page) :
    c.apply A page = A page := by
  cases c with
  | mapTo => exact Function.update_of_ne hne ..
  | remap => exact Function.update_of_ne hne ..
  | unmapReturn => exact Function.update_of_ne hne ..

theorem Performs.of_inv {c : Call} {frames : List Nat} {r : Option Nat} (h : s.Inv)
    (hrun : c.code.run (s.supply frames) = .ok (r, m')) (hresult : r = c.result s.map)
    (h' : Inv ⟨m', c.apply s.map⟩)
    (hfreed : ∃ freed, m'.deallocated = s.machine.deallocated ++ freed ∧ freed.Nodup ∧
      ∀ frame, frame ∈ freed ↔
        c.Frees ∧ s.machine.IsTable frame ∧ s.machine.used frame ≠ 0 ∧ m'.used frame = 0) :
    Performs s c frames r m' where
  run := hrun
  result := hresult
  refines := h'.refines
  others := fun page hpage hne => others_of_inv h h' hpage (apply_of_ne s.map c hne)
  freed := hfreed

/-- A call that frees nothing. -/
theorem frees_nothing {c : Call} (hfrees : ¬ c.Frees)
    (hdeallocated : m'.deallocated = s.machine.deallocated) :
    ∃ freed, m'.deallocated = s.machine.deallocated ++ freed ∧ freed.Nodup ∧
      ∀ frame, frame ∈ freed ↔
        c.Frees ∧ s.machine.IsTable frame ∧ s.machine.used frame ≠ 0 ∧ m'.used frame = 0 :=
  ⟨[], by rw [hdeallocated, List.append_nil], List.nodup_nil,
    fun _ => iff_of_false List.not_mem_nil fun hand => hfrees hand.1⟩

/-- Every call that is allowed returns, and does what it should. -/
theorem performs (h : s.Inv) (c : Call) {frames : List Nat} (hallowed : c.Allowed s.map)
    (hsupply : s.Supplies frames) :
    ∃ r m', Performs s c frames r m' ∧ Inv ⟨m', c.apply s.map⟩ := by
  have hm := h.supply frames
  cases c with
  | mapTo page frame flags =>
    obtain ⟨hpage, hframe, hfree⟩ := hallowed
    have hmapping : (s.supply frames).mapping (path page) (p1Index page) = none :=
      (h.mapping page hpage).trans (by rw [hfree]; rfl)
    obtain ⟨m', hrun, hdeallocated, hremapped⟩ :=
      mapTo_run flags hm hsupply.2 hsupply.1 hpage.2 hframe hmapping
    have h' : Inv ⟨m', Function.update s.map page (some (frame, flags))⟩ :=
      inv_remapped h hpage hremapped
    exact ⟨none, m', .of_inv h (run_bind hrun) rfl h' (frees_nothing nofun hdeallocated), h'⟩
  | remap page flags =>
    obtain ⟨hpage, hmapped⟩ := hallowed
    obtain ⟨⟨frame, old⟩, he⟩ := Option.ne_none_iff_exists'.mp hmapped
    have hmapping : (s.supply frames).mapping (path page) (p1Index page) =
        some (frame, old.union .present) := (h.mapping page hpage).trans (by rw [he]; rfl)
    obtain ⟨m', hrun, hdeallocated, hremapped⟩ := remap_run flags hm hmapping
    have h' : Inv ⟨m', Function.update s.map page ((s.map page).map fun e => (e.1, flags))⟩ := by
      rw [he]
      exact inv_remapped h hpage hremapped
    exact ⟨none, m', .of_inv h (run_bind hrun) rfl h' (frees_nothing nofun hdeallocated), h'⟩
  | unmapReturn page keepParents =>
    obtain ⟨hpage, hmapped⟩ := hallowed
    obtain ⟨⟨frame, old⟩, he⟩ := Option.ne_none_iff_exists'.mp hmapped
    have hmapping : (s.supply frames).mapping (path page) (p1Index page) =
        some (frame, old.union .present) := (h.mapping page hpage).trans (by rw [he]; rfl)
    obtain ⟨m', freed, hrun, hremapped, hfreed⟩ :=
      unmapReturn_run hm hpage.2 keepParents hmapping
    have h' : Inv ⟨m', Function.update s.map page none⟩ := inv_remapped h hpage hremapped
    refine ⟨some frame, m', .of_inv h (run_bind hrun) ?_ h' ⟨freed, hfreed⟩, h'⟩
    rw [Call.result, he]
    rfl

theorem inv_step (h : s.Inv) (hstep : Step s s') : s'.Inv := by
  cases hstep with
  | @call c frames r m' hallowed hsupply hrun =>
    obtain ⟨r', m'', hperforms, h'⟩ := performs h c hallowed hsupply
    have hsame := hperforms.run.symm.trans hrun
    cases hsame
    exact h'

end Session

namespace Machine

variable {memory : Nat → Table} {frame n : Nat} {p : List Index}

section New

variable (hframe : frame < 2 ^ 40)

include hframe

theorem body_new {i : Index} (hi : i ≠ recursivePagePml4) :
    ((new memory frame).memory frame i).body = 0 := by
  show (Function.update memory frame _ frame i).body = 0
  rw [Function.update_self, Table.body_setEntry hframe, if_neg hi]
  exact Entry.body_zero

/-- P4 is the only table. -/
theorem node_new (hn : (new memory frame).node p = some n) : p = [] ∧ n = frame := by
  cases p with
  | nil =>
    cases hn
    exact ⟨rfl, rfl⟩
  | cons i p =>
    have hnext : (new memory frame).next frame i = none := by
      rw [next]
      split
      · rfl
      · next hi =>
        refine Entry.next_of_unused (body_new hframe ?_)
        exact (ne_of_notMem_reserved hi).symm
    rw [node, Radix.node, List.foldlM_cons] at hn
    obtain ⟨k, hk, -⟩ := Option.bind_eq_some_iff.mp hn
    rw [show (new memory frame).cr3 = frame from rfl, hnext] at hk
    cases hk

theorem mapping_new (hp : p ≠ []) (i : Index) : (new memory frame).mapping p i = none := by
  rw [mapping]
  cases hn : (new memory frame).node p with
  | none => rfl
  | some n => exact absurd (node_new hframe hn).1 hp

theorem inv_new : (new memory frame).Inv where
  recursive := by
    have hbody : ((new memory frame).memory frame recursivePagePml4).body =
        Entry.filled frame recursiveFlags := by
      show (Function.update memory frame _ frame _).body = _
      rw [Function.update_self, Table.body_setEntry hframe, if_pos rfl]
    rw [Recursive, show (new memory frame).cr3 = frame from rfl, Entry.next,
      Entry.flags_of_filled hbody hframe, Entry.pointedFrame_of_filled hbody hframe (by decide)]
    rfl
  tree := fun p q n _ _ hp hq => (node_new hframe hp).1.trans (node_new hframe hq).1.symm
  counted := by
    intro p n _ hn
    obtain ⟨rfl, rfl⟩ := node_new hframe hn
    have hmem : (new memory n).memory n =
        (memory n).zero.setEntry recursivePagePml4 n recursiveFlags := Function.update_self ..
    have hzero := (memory n).counted_zero ((new memory n).reserved n)
    rw [hmem, Table.Counted, Table.entryCount_setEntry hframe, hzero]
    refine (Table.occupied_congr fun j hj => ?_).symm
    rw [Table.body_setEntry hframe, if_neg (ne_of_notMem_reserved hj).symm]
  inner := by
    intro p n i _ hn hi _
    obtain ⟨rfl, rfl⟩ := node_new hframe hn
    exact body_new hframe (ne_of_notMem_reserved hi).symm
  leaf := by
    intro p n i hp hn
    obtain ⟨rfl, -⟩ := node_new hframe hn
    cases hp
  ledger := by
    refine fun f => ⟨?_, fun _ => rfl⟩
    rintro ⟨p, hne, -, hn⟩
    exact absurd (node_new hframe hn).1 hne

end New

end Machine

/-- **The four-level page table refines a map.** In every state of every session the
tables say what the map says, and every call that is allowed, whatever fresh frames the
allocator supplies, returns and does to the tables what it should. -/
theorem page_table_refines_map {memory : Nat → Table} {p4 : Nat} (hp4 : p4 < 2 ^ 40)
    {s : Session} (hrun : ReflTransGen Session.Step (.start memory p4) s) :
    s.Refines ∧ ∀ (c : Call) (frames : List Nat), c.Allowed s.map → s.Supplies frames →
      ∃ r m', s.Performs c frames r m' := by
  have hstart : (Session.start memory p4).Inv :=
    ⟨inv_new hp4, fun page _ => mapping_new hp4 (List.cons_ne_nil _ _) _⟩
  have h := invariant_of_step Session.Inv hrun hstart fun _ _ => Session.inv_step
  refine ⟨h.refines, fun c frames hallowed hsupply => ?_⟩
  obtain ⟨r, m', hperforms, -⟩ := Session.performs h c hallowed hsupply
  exact ⟨r, m', hperforms⟩

/-- A page is mapped in a new P4, and its tables with it; and then it is unmapped. -/
theorem sample_page_refines : ∃ s : Session,
    ReflTransGen Session.Step (.start (fun _ _ => .zero) 1) s ∧ s.map 5 = some (9, .writable) ∧
      s.Refines ∧ ∃ m', s.Performs (.unmapReturn 5 false) [5, 6, 7] (some 9) m' := by
  have hp4 : 1 < 2 ^ 40 := by decide
  have hpage : ValidPage 5 := ⟨by decide, by decide⟩
  have hsupply : (Session.start (fun _ _ => .zero) 1).Supplies [2, 3, 4] := by
    refine ⟨le_rfl, by decide, by decide, fun g hg q _ hn => ?_⟩
    obtain ⟨-, rfl⟩ := node_new hp4 (show (Machine.new (fun _ _ => .zero) 1).node q = _ from hn)
    exact absurd hg (by decide)
  have heval : finds (Call.mapTo 5 9 .writable).code ((Session.start (fun _ _ => .zero) 1).supply [2, 3, 4])
      (fun _ m => 1 = m.cr3 ∧ ∀ g ∈ m.allocated, g < 5) = true := by decide +kernel
  obtain ⟨_, m, hcode, htest⟩ := exists_of_finds heval
  obtain ⟨hcr3, hsmall⟩ := of_decide_eq_true htest
  have hallowed : (Call.mapTo 5 9 .writable).Allowed fun _ => none := ⟨hpage, by decide, rfl⟩
  have hrun := ReflTransGen.single (Session.Step.call hallowed hsupply hcode)
  obtain ⟨hrefines, hperforms⟩ := page_table_refines_map hp4 hrun
  have hsupply' : Session.Supplies ⟨m, Call.apply (fun _ => none) (.mapTo 5 9 .writable)⟩ [5, 6, 7] := by
    have hlarge : ∀ g ∈ [5, 6, 7], 5 ≤ g ∧ g < 2 ^ 40 := by decide
    refine ⟨le_rfl, (by decide : [5, 6, 7].Nodup), fun g hg => (hlarge g hg).2, fun g hg q hq hn => ?_⟩
    have hge := (hlarge g hg).1
    by_cases hroot : q = []
    · subst hroot
      have hone : 1 = g := hcr3.trans (Option.some.inj hn)
      omega
    · have hcount : m.allocated.count g = _ + 1 := (hrefines.ledger g).1 ⟨q, hroot, hq, hn⟩
      have hlt := hsmall g (List.count_pos_iff.mp (hcount ▸ Nat.succ_pos _))
      omega
  obtain ⟨r, m', hunmaps⟩ := hperforms (.unmapReturn 5 false) [5, 6, 7] ⟨hpage, by simp [Call.apply]⟩ hsupply'
  cases hunmaps.result
  exact ⟨_, hrun, rfl, hrefines, m', hunmaps⟩

end Faastr.Paging
