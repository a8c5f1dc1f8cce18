import Mathlib.Data.List.Induction
import Mathlib.Data.List.Infix

/-!
Radix trees in a store.

A store holds nodes with slots; a slot leads to at most one other node. The node at
the end of a path from the root is `node`, and the store is a tree down to a depth
when no node is at the end of two paths of at most that length (`Tree`).

* `node_congr`: a path sees only the slots it goes through.
* `node_of_inner`: what changes in the nodes of the last level changes no path.
* `node_replaced`, `Tree.replaced`: a slot that leads to a node without children, or
  nowhere, may be made to lead to another such node, or nowhere. One path changes,
  and the store stays a tree.
-/

namespace Faastr.Lib.Radix

variable {ν ι : Type} {next next' : ν → ι → Option ν} {r n : ν} {p q : List ι} {i : ι} {d : Nat}

/-- The node that a path leads to from the root. -/
def node (next : ν → ι → Option ν) (r : ν) (p : List ι) : Option ν := p.foldlM next r

theorem node_concat : node next r (p ++ [i]) = (node next r p).bind (next · i) := by
  simp [node, List.foldlM_append]

theorem node_concat_of (h : node next r p = some n) : node next r (p ++ [i]) = next n i := by
  rw [node_concat, h, Option.bind_some]

/-- A path with a node at its end has nodes on the way. -/
theorem node_of_prefix (h : node next r p = some n) (hq : q <+: p) : ∃ k, node next r q = some k := by
  obtain ⟨rest, rfl⟩ := hq
  rw [node, List.foldlM_append] at h
  obtain ⟨k, hk, -⟩ := Option.bind_eq_some_iff.mp h
  exact ⟨k, hk⟩

/-- A path sees only the slots it goes through. -/
theorem node_congr (h : ∀ q i n, q ++ [i] <+: p → node next r q = some n → next' n i = next n i) :
    node next' r p = node next r p := by
  induction p using List.reverseRecOn with
  | nil => rfl
  | append_singleton p i ih =>
    have hp := ih fun q j n hq hn => h q j n (hq.trans (List.prefix_append p [i])) hn
    rw [node_concat, node_concat, hp]
    cases hn : node next r p with
    | none => rfl
    | some n => exact h p i n List.prefix_rfl hn

/-- No node is at the end of two paths of length at most `d`. -/
def Tree (next : ν → ι → Option ν) (r : ν) (d : Nat) : Prop :=
  ∀ ⦃p q n⦄, p.length ≤ d → q.length ≤ d → node next r p = some n → node next r q = some n → p = q

theorem length_lt_of_concat (h : q ++ [i] <+: p) : q.length < p.length := by
  have hle := h.length_le
  rw [List.length_append, List.length_singleton] at hle
  exact hle

/-- What changes in the nodes of the last level changes no path. -/
theorem node_of_inner
    (h : ∀ q n, q.length < d → node next r q = some n → ∀ i, next' n i = next n i)
    (hp : p.length ≤ d) : node next' r p = node next r p :=
  node_congr fun q i n hq hn => h q n ((length_lt_of_concat hq).trans_le hp) hn i

/-- Slot `i` of node `n` is all that changes in the nodes of the tree, and it leads
to nodes without children only. -/
structure Replaced (next next' : ν → ι → Option ν) (r : ν) (d : Nat) (n : ν) (i : ι) : Prop where
  elsewhere : ∀ q m j, q.length < d → node next r q = some m → m ≠ n ∨ j ≠ i →
    next' m j = next m j
  old : ∀ g, next n i = some g → ∀ j, next g j = none
  new : ∀ g, next' n i = some g → ∀ j, next' g j = none

/-- Below a node without children there is nothing. -/
theorem node_below (h : ∀ g, next n i = some g → ∀ j, next g j = none)
    (hn : node next r p = some n) {rest : List ι} (hrest : rest ≠ []) :
    node next r (p ++ [i] ++ rest) = none := by
  cases rest with
  | nil => exact absurd rfl hrest
  | cons j rest =>
    have hcut : node next r (p ++ [i] ++ [j]) = none := by
      rw [node_concat, node_concat_of hn]
      cases hg : next n i with
      | none => rfl
      | some g => exact h g hg j
    rw [node, List.append_cons, List.foldlM_append]
    rw [node] at hcut
    rw [hcut]
    rfl

/-- A path that does not go through the slot leads where it did. -/
theorem node_elsewhere (tree : Tree next r d) (h : Replaced next next' r d n i)
    (hn : node next r p = some n) (hp : p.length < d) (hq : q.length ≤ d)
    (haway : ¬ p ++ [i] <+: q) : node next' r q = node next r q := by
  refine node_congr fun q' j m hq' hm => ?_
  have hlt := (length_lt_of_concat hq').trans_le hq
  refine h.elsewhere q' m j hlt hm ?_
  by_contra hsame
  obtain ⟨rfl, rfl⟩ := not_or.mp hsame |>.imp not_not.mp not_not.mp
  exact haway (tree hp.le hlt.le hn hm ▸ hq')

/-- One path changes. -/
theorem node_replaced [DecidableEq ι] (tree : Tree next r d) (h : Replaced next next' r d n i)
    (hn : node next r p = some n) (hp : p.length < d) (hq : q.length ≤ d) :
    node next' r q = if q = p ++ [i] then next' n i else node next r q := by
  have haway : ¬ p ++ [i] <+: p := fun hpre =>
    absurd (length_lt_of_concat hpre) (lt_irrefl _)
  have hn' : node next' r p = some n := (node_elsewhere tree h hn hp hp.le haway).trans hn
  by_cases hpre : p ++ [i] <+: q
  · obtain ⟨rest, rfl⟩ := hpre
    cases rest with
    | nil => rw [List.append_nil, if_pos rfl, node_concat_of hn']
    | cons j rest =>
      rw [if_neg (by simp), node_below h.new hn' (List.cons_ne_nil j rest),
        node_below h.old hn (List.cons_ne_nil j rest)]
  · have hne : q ≠ p ++ [i] := fun heq => hpre (heq ▸ List.prefix_rfl)
    rw [if_neg hne, node_elsewhere tree h hn hp hq hpre]

/-- The store stays a tree. -/
theorem Tree.replaced [DecidableEq ι] (tree : Tree next r d) (h : Replaced next next' r d n i)
    (hn : node next r p = some n) (hp : p.length < d)
    (hfresh : ∀ g, next' n i = some g → ∀ q, q.length ≤ d → node next r q ≠ some g) :
    Tree next' r d := by
  intro q q' m hq hq' hm hm'
  rw [node_replaced tree h hn hp hq] at hm
  rw [node_replaced tree h hn hp hq'] at hm'
  split at hm
  · next heq =>
    split at hm'
    · next heq' => rw [heq, heq']
    · exact absurd hm' (hfresh m hm q' hq')
  · split at hm'
    · exact absurd hm (hfresh m hm' q hq)
    · exact tree hq hq' hm hm'

end Faastr.Lib.Radix
