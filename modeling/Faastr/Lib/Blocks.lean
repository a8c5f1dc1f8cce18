import Mathlib.Algebra.Ring.Nat
import Mathlib.Data.Set.Card
import Mathlib.Data.Set.Lattice
import Mathlib.Order.CompletePartialOrder
import Mathlib.Order.Interval.Finset.Nat
import Mathlib.Order.Interval.Set.Disjoint
import Mathlib.Data.List.Pairwise
import Mathlib.Data.List.Perm.Basic

/-!
Blocks of consecutive cells.

A block is a start and a count; a list of blocks is separated if the blocks are
not empty, do not overlap and do not touch. Then it is the list of the maximal
runs of the cells it covers: a run of covered cells lies in one block
(`Separated.run_within`). `Block.extend` is one step of keeping a list separated
when a block is added: a block that touches another is joined to it.
-/

namespace Faastr.Lib

structure Block where
  start : Nat
  count : Nat
deriving DecidableEq, Repr

namespace Block

variable {b c e k m : Block}

/-- The first cell behind the block. -/
def stop (b : Block) : Nat := b.start + b.count

def cells (b : Block) : Set Nat := Set.Ico b.start b.stop

theorem mem_cells {x : Nat} : x ∈ b.cells ↔ b.start ≤ x ∧ x < b.start + b.count := Iff.rfl

theorem cells_finite (b : Block) : b.cells.Finite := Set.finite_Ico _ _

theorem ncard_cells (b : Block) : b.cells.ncard = b.count := by
  rw [cells, ← Finset.coe_Ico, Set.ncard_coe_finset, Nat.card_Ico, stop]
  omega

/-- The blocks do not overlap. -/
def Clear (b c : Block) : Prop := b.stop ≤ c.start ∨ c.stop ≤ b.start

/-- The blocks neither overlap nor touch. -/
def Apart (b c : Block) : Prop := b.stop < c.start ∨ c.stop < b.start

theorem Apart.symm (h : b.Apart c) : c.Apart b := Or.symm h

instance : Std.Symm Apart := ⟨fun _ _ h => h.symm⟩

theorem Apart.clear (h : b.Apart c) : b.Clear c := h.imp Nat.le_of_lt Nat.le_of_lt

theorem Clear.disjoint (h : b.Clear c) : Disjoint b.cells c.cells := by
  rw [Set.disjoint_left]
  intro x hb hc
  rw [mem_cells] at hb hc
  unfold Clear stop at h
  omega

/-- Blocks that share no cell do not overlap, if they have any. -/
theorem clear_of_disjoint (hb : 0 < b.count) (hc : 0 < c.count)
    (h : Disjoint b.cells c.cells) : b.Clear c := by
  rw [Set.disjoint_left] at h
  by_contra hno
  unfold Clear stop at hno
  rcases Nat.le_total b.start c.start with hle | hle
  · exact h (a := c.start) (mem_cells.mpr (by omega)) (mem_cells.mpr (by omega))
  · exact h (a := b.start) (mem_cells.mpr (by omega)) (mem_cells.mpr (by omega))

/-- The block `e` with `b` joined to it, if `b` touches it. -/
def extend (b e : Block) : Option Block :=
  if b.stop = e.start then some ⟨b.start, e.count + b.count⟩
  else if e.stop = b.start then some ⟨e.start, e.count + b.count⟩
  else none

theorem extend_eq_none : b.extend e = none ↔ b.stop ≠ e.start ∧ e.stop ≠ b.start := by
  unfold extend
  split
  · simp_all
  · split <;> simp_all

theorem extend_eq_some {e' : Block} (h : b.extend e = some e') :
    b.stop = e.start ∧ e' = ⟨b.start, e.count + b.count⟩ ∨
      e.stop = b.start ∧ e' = ⟨e.start, e.count + b.count⟩ := by
  unfold extend at h
  split at h
  · cases h
    exact .inl ⟨‹_›, rfl⟩
  · split at h
    · cases h
      exact .inr ⟨‹_›, rfl⟩
    · cases h

theorem count_of_extend {e' : Block} (h : b.extend e = some e') :
    e'.count = e.count + b.count := by
  rcases extend_eq_some h with ⟨-, rfl⟩ | ⟨-, rfl⟩ <;> rfl

theorem cells_of_extend {e' : Block} (h : b.extend e = some e') :
    e'.cells = e.cells ∪ b.cells := by
  ext x
  rw [Set.mem_union, mem_cells, mem_cells, mem_cells]
  rcases extend_eq_some h with ⟨htouch, rfl⟩ | ⟨htouch, rfl⟩
  · unfold stop at htouch
    simp only
    omega
  · unfold stop at htouch
    simp only
    omega

/-- The last `n` cells of a block. -/
def lastCells (b : Block) (n : Nat) : Block := ⟨b.start + (b.count - n), n⟩

theorem lastCells_subset {n : Nat} (hle : n ≤ b.count) : (b.lastCells n).cells ⊆ b.cells := by
  intro x hx
  rw [mem_cells] at hx ⊢
  unfold lastCells at hx
  simp only at hx
  omega

/-- What is left of a block without its last cells. -/
theorem cells_without_last {n : Nat} (hle : n ≤ b.count) :
    (⟨b.start, b.count - n⟩ : Block).cells = b.cells \ (b.lastCells n).cells := by
  ext x
  rw [Set.mem_sdiff, mem_cells, mem_cells, mem_cells]
  unfold lastCells
  simp only
  omega

theorem apart_of_clear (h : b.Clear e) (hno : b.extend e = none) : b.Apart e := by
  obtain ⟨hbefore, hbehind⟩ := extend_eq_none.mp hno
  unfold Clear at h
  unfold Apart
  omega

theorem Apart.extend_none (h : b.Apart e) : b.extend e = none := by
  unfold Apart stop at h
  rw [extend_eq_none]
  unfold stop
  omega

/-- A block does not touch itself. -/
theorem extend_self (hb : 0 < b.count) : b.extend b = none := by
  rw [extend_eq_none]
  unfold stop
  omega

/-- Joining `b` to `e` brings nothing new near `k` that `b` was not near. -/
theorem extend_none_of_extend {e' : Block} (h : b.extend e = some e') (hk : 0 < k.count)
    (hb : 0 < b.count) (hek : e.Apart k) (hbk : b.extend k = none) : e'.extend k = none := by
  obtain ⟨hbefore, hbehind⟩ := extend_eq_none.mp hbk
  unfold Apart stop at hek
  unfold stop at hbefore hbehind
  rw [extend_eq_none]
  rcases extend_eq_some h with ⟨htouch, rfl⟩ | ⟨htouch, rfl⟩
  · unfold stop at htouch ⊢
    simp only
    omega
  · unfold stop at htouch ⊢
    simp only
    omega

theorem Clear.of_extend {e' : Block} (h : b.extend e = some e') (he : 0 < e.count)
    (hb : 0 < b.count) (hk : 0 < k.count) (hek : e.Clear k) (hbk : b.Clear k) : e'.Clear k := by
  refine clear_of_disjoint ?_ hk ?_
  · rw [count_of_extend h]
    omega
  · rw [cells_of_extend h, Set.disjoint_union_left]
    exact ⟨hek.disjoint, hbk.disjoint⟩

/-- A block that `b` joins to another on its far side is joined to all three: what
was left behind is inside, and touches neither end. -/
theorem extend_inside {e' k' : Block} (h : b.extend e = some e') (h' : e'.extend k = some k')
    (he : 0 < e.count) : k'.extend e' = none := by
  have hcount := count_of_extend h
  rw [extend_eq_none]
  rcases extend_eq_some h' with ⟨htouch, rfl⟩ | ⟨htouch, rfl⟩
  · unfold stop at htouch ⊢
    simp only
    omega
  · unfold stop at htouch ⊢
    simp only
    omega

/-- The union of three blocks, the middle of which is `b`, is apart from what the
outer two are apart from. -/
theorem Apart.of_extend_twice {e' k' : Block} (h : b.extend e = some e')
    (h' : e'.extend k = some k') (he : 0 < e.count) (hb : 0 < b.count) (hk : 0 < k.count)
    (hm : 0 < m.count) (hek : e.Apart k) (hem : e.Apart m) (hkm : k.Apart m) (hbm : b.Clear m) :
    k'.Apart m := by
  unfold Apart stop at hek hem hkm ⊢
  unfold Clear stop at hbm
  rcases extend_eq_some h with ⟨htouch, rfl⟩ | ⟨htouch, rfl⟩ <;>
    rcases extend_eq_some h' with ⟨htouch', rfl⟩ | ⟨htouch', rfl⟩ <;>
    · unfold stop at htouch htouch'
      simp only at htouch htouch' ⊢
      omega

end Block

/-! ### Lists of blocks -/

/-- The cells of a list of blocks. -/
def covered (bs : List Block) : Set Nat := {x | ∃ b ∈ bs, x ∈ b.cells}

theorem cells_subset_covered {b : Block} {bs : List Block} (hb : b ∈ bs) : b.cells ⊆ covered bs :=
  fun _ hx => ⟨b, hb, hx⟩

theorem covered_nil : covered [] = ∅ := by
  ext x
  simp [covered]

theorem covered_cons (b : Block) (bs : List Block) : covered (b :: bs) = b.cells ∪ covered bs := by
  ext x
  simp [covered]

theorem covered_finite (bs : List Block) : (covered bs).Finite := by
  induction bs with
  | nil =>
    rw [covered_nil]
    exact Set.finite_empty
  | cons b bs ih =>
    rw [covered_cons]
    exact b.cells_finite.union ih

theorem covered_perm {bs cs : List Block} (h : bs.Perm cs) : covered bs = covered cs := by
  ext x
  simp only [covered, Set.mem_ofPred_eq, h.mem_iff]

/-- The blocks are not empty, and neither overlap nor touch. -/
structure Separated (bs : List Block) : Prop where
  pos : ∀ b ∈ bs, 0 < b.count
  apart : bs.Pairwise Block.Apart

namespace Separated

variable {b : Block} {bs cs : List Block}

theorem nil : Separated [] := ⟨nofun, .nil⟩

theorem perm (h : Separated bs) (hperm : bs.Perm cs) : Separated cs where
  pos := fun b hb => h.pos b (hperm.mem_iff.mpr hb)
  apart := (hperm.pairwise_iff Block.Apart.symm).mp h.apart

theorem cons_iff : Separated (b :: bs) ↔ 0 < b.count ∧ (∀ c ∈ bs, b.Apart c) ∧ Separated bs := by
  constructor
  · intro h
    obtain ⟨hb, hbs⟩ := List.pairwise_cons.mp h.apart
    exact ⟨h.pos b (List.mem_cons_self ..), hb,
      fun c hc => h.pos c (List.mem_cons_of_mem _ hc), hbs⟩
  · rintro ⟨hpos, hb, hbs⟩
    exact ⟨List.forall_mem_cons.mpr ⟨hpos, hbs.pos⟩, List.pairwise_cons.mpr ⟨hb, hbs.apart⟩⟩

theorem apart_of_mem (h : Separated bs) {c : Block} (hb : b ∈ bs) (hc : c ∈ bs) (hne : b ≠ c) :
    b.Apart c := h.apart.forall hb hc hne

theorem disjoint_covered (h : Separated (b :: bs)) : Disjoint b.cells (covered bs) := by
  rw [Set.disjoint_left]
  rintro x hx ⟨c, hc, hx'⟩
  exact Set.disjoint_left.mp ((cons_iff.mp h).2.1 c hc).clear.disjoint hx hx'

/-- No cell is counted twice. -/
theorem ncard_covered (h : Separated bs) : (covered bs).ncard = (bs.map Block.count).sum := by
  induction bs with
  | nil =>
    rw [covered_nil, Set.ncard_empty]
    rfl
  | cons b bs ih =>
    rw [covered_cons, Set.ncard_union_eq h.disjoint_covered b.cells_finite (covered_finite bs),
      b.ncard_cells, ih (cons_iff.mp h).2.2]
    rfl

/-- Cells taken from the first block are taken from no other. -/
theorem covered_diff (h : Separated (b :: bs)) {cells : Set Nat} (hsub : cells ⊆ b.cells) :
    covered (b :: bs) \ cells = (b.cells \ cells) ∪ covered bs := by
  rw [covered_cons, Set.union_sdiff_distrib]
  congr 1
  exact (Set.disjoint_of_subset_left hsub h.disjoint_covered).symm.sdiff_eq_left

/-- A block may lose cells at its end. -/
theorem shorten (h : Separated (b :: bs)) {n : Nat} (hn : n < b.count) :
    Separated (⟨b.start, b.count - n⟩ :: bs) := by
  obtain ⟨-, hapart, hbs⟩ := cons_iff.mp h
  refine cons_iff.mpr ⟨Nat.sub_pos_of_lt hn, ?_, hbs⟩
  intro c hc
  have hbc := hapart c hc
  unfold Block.Apart Block.stop at hbc ⊢
  simp only
  omega

/-- **A run of covered cells lies in one block.** -/
theorem run_within (h : Separated bs) {f : Nat} : ∀ {n : Nat}, 0 < n →
    (∀ x, f ≤ x → x < f + n → x ∈ covered bs) → ∃ b ∈ bs, b.start ≤ f ∧ f + n ≤ b.stop
  | 0, hn, _ => absurd hn (Nat.lt_irrefl 0)
  | 1, _, hrun => by
      obtain ⟨b, hb, hmem⟩ := hrun f (Nat.le_refl f) (Nat.lt_succ_self f)
      exact ⟨b, hb, hmem.1, hmem.2⟩
  | n + 2, _, hrun => by
      -- The run without its last cell is in `b`, its last cell in `c`; they touch.
      obtain ⟨b, hb, hstart, hstop⟩ := run_within h (n := n + 1) (Nat.succ_pos n)
        fun x hx hx' => hrun x hx (by omega)
      obtain ⟨c, hc, hmem⟩ := hrun (f + n + 1) (by omega) (by omega)
      by_cases hbc : b = c
      · subst hbc
        exact ⟨b, hb, hstart, hmem.2⟩
      · have hapart := h.apart_of_mem hb hc hbc
        unfold Block.Apart at hapart
        have hlast := Block.mem_cells.mp hmem
        unfold Block.stop at hapart hstop
        omega

end Separated

end Faastr.Lib
