import Faastr.Memory.Recycle

/-!
The allocator of virtual pages (`kernel/src/memory/valloc.rs`).

It has the free list and the `merge` of the frame recycler, but takes a block by pushing
what is left of an entry and removing the entry with `swap_remove`, and chooses the entry
in a loop that stops early. Addresses go up to the end of the address space, so the
arithmetic is that of `usize`; within a region that ends below `2^64` no sum wraps
(`Valloc.merge_eq`).

A run is any sequence of allocations and of deallocations of blocks that were handed
out; along it the live blocks are kept beside the allocator.

* `Valloc.bestFit_spec`: the loop finds an entry of minimal length.
* `valloc_partition`: in every state of every run the free entries are maximal runs, they
  and the live blocks partition the pages of the region, and a request is served from a
  run of minimal length whenever there is one.
-/

namespace Faastr.Memory

open Faastr.Lib

/-- `usize`. -/
def wrap (n : Nat) : Nat := n % 2 ^ 64

theorem wrap_of_lt {n : Nat} (h : n < 2 ^ 64) : wrap n = n := Nat.mod_eq_of_lt h

/-- `Vec::swap_remove`: the last element takes the place of the one that is removed. -/
def swapRemove {α : Type} (l : List α) (i : Nat) : List α :=
  match l.getLast? with
  | some x => (l.set i x).dropLast
  | none => l

/-- What is removed is the element at the index; the others change places. -/
theorem swapRemove_perm {α : Type} (xs : List α) (x : α) (ys : List α) :
    (swapRemove (xs ++ x :: ys) xs.length).Perm (xs ++ ys) := by
  rw [swapRemove]
  rcases List.eq_nil_or_concat' ys with rfl | ⟨zs, z, rfl⟩
  · simp
  · have hlast : (xs ++ x :: (zs ++ [z])).getLast? = some z := by
      rw [← List.cons_append, ← List.append_assoc, List.getLast?_concat]
    have hset : (xs ++ x :: (zs ++ [z])).set xs.length z = xs ++ z :: zs ++ [z] := by
      simp [List.set_append_right]
    rw [hlast]
    dsimp only
    rw [hset, List.dropLast_concat, ← List.append_assoc]
    exact List.perm_middle.trans (List.perm_append_singleton z (xs ++ zs)).symm

/-- The order of the entries does not matter. -/
theorem Taken.perm {count page : Nat} {bs : List Block} {free free' : List (Nat × Nat)}
    (h : Taken count bs page free) (hperm : free.Perm free') : Taken count bs page free' := by
  obtain ⟨hsub, bs', rfl, hsep, hcov⟩ := h
  have hback : ∀ b, (⟨(entry b).1 / pageSize, (entry b).2⟩ : Block) = b := by
    intro b
    rw [entry, Nat.mul_div_cancel _ (by decide)]
  have hperm' : bs'.Perm (free'.map fun e => ⟨e.1 / pageSize, e.2⟩) := by
    have hmap := hperm.map fun e : Nat × Nat => (⟨e.1 / pageSize, e.2⟩ : Block)
    rw [entries, List.map_map] at hmap
    have hid : bs'.map ((fun e : Nat × Nat => (⟨e.1 / pageSize, e.2⟩ : Block)) ∘ entry) = bs' :=
      (List.map_congr_left fun b _ => hback b).trans (List.map_id bs')
    rwa [hid] at hmap
  refine ⟨hsub, _, ?_, hsep.perm hperm', (covered_perm hperm').symm.trans hcov⟩
  rw [entries, List.map_map]
  refine ((List.map_congr_left fun e he => ?_).trans (List.map_id free')).symm
  obtain ⟨b, -, rfl⟩ := List.mem_map.mp (hperm.mem_iff.mpr he)
  rw [Function.comp_apply, hback]
  rfl

/-- Pages taken from the end of an entry, which is removed and comes back shorter. -/
theorem taken_swapRemove {count : Nat} {xs ys : List Block} {b : Block}
    (hbs : Separated (xs ++ b :: ys)) (hle : count ≤ b.count) :
    Taken count (xs ++ b :: ys) (b.start + (b.count - count))
      (swapRemove (if b.count > count then
          entries (xs ++ b :: ys) ++ [(b.start * pageSize, b.count - count)]
        else entries (xs ++ b :: ys)) xs.length) := by
  have hentries : entries (xs ++ b :: ys) = entries xs ++ entry b :: entries ys := by simp [entries]
  have hlength : xs.length = (entries xs).length := by simp [entries]
  have htaken := taken_of_split hbs hle
  rw [hentries, hlength] at htaken ⊢
  refine htaken.perm ?_
  by_cases hmore : b.count > count
  · rw [if_neg (by omega), if_pos hmore, List.append_assoc, List.cons_append]
    refine List.Perm.trans ?_ (swapRemove_perm ..).symm
    rw [List.set_append_right _ _ (Nat.le_refl _), Nat.sub_self, List.set_cons_zero]
    exact List.perm_middle.trans
      ((List.perm_append_singleton _ _).symm.trans (by rw [List.append_assoc]))
  · rw [if_pos (by omega), if_neg hmore]
    refine List.Perm.trans ?_ (swapRemove_perm ..).symm
    rw [List.set_append_right _ _ (Nat.le_refl _), Nat.sub_self, List.set_cons_zero,
      List.eraseIdx_append_of_length_le (Nat.le_refl _), Nat.sub_self, List.eraseIdx_cons_zero]

structure Valloc where
  free : List (Nat × Nat)
deriving DecidableEq, Repr

namespace Valloc

def new (start size : Nat) : Valloc := ⟨[(start, size / pageSize)]⟩

/-- The entry with a freed block joined to it, if the block touches it. -/
def touch (address count : Nat) (free : Nat × Nat) : Option (Nat × Nat) :=
  if wrap (address + wrap (count * pageSize)) = free.1 then some (address, wrap (free.2 + count))
  else if wrap (free.1 + wrap (free.2 * pageSize)) = address then
    some (free.1, wrap (free.2 + count))
  else none

def merge : Nat → List (Nat × Nat) → Nat → Nat → Option (Bool × List (Nat × Nat)) :=
  mergeWith touch

/-- The best fit so far, with an entry that has enough pages. -/
def better (i : Nat) (block : Nat × Nat) : Option (Nat × Nat × Nat) → Nat × Nat × Nat
  | none => (i, block)
  | some (j, fit) => if block.2 < fit.2 then (i, block) else (j, fit)

/-- The loop of `allocate_pages`: the first of the smallest entries with enough pages,
with its index. An entry of the very size ends the loop. -/
def bestFit (count : Nat) : List (Nat × Nat) → Nat → Option (Nat × Nat × Nat) →
    Option (Nat × Nat × Nat)
  | [], _, best => best
  | block :: rest, i, best =>
      if block.2 < count then bestFit count rest (i + 1) best
      else if (better i block best).2.2 = count then some (better i block best)
      else bestFit count rest (i + 1) (some (better i block best))

/-- Pages are taken from the end of the best fit: the number of the first. -/
def allocatePages (v : Valloc) (count : Nat) : Option Nat × Valloc :=
  match bestFit count v.free 0 none with
  | some (i, address, size) =>
      let free := if size > count then v.free ++ [(address, size - count)] else v.free
      (some (wrap (address + wrap ((size - count) * pageSize)) / pageSize), ⟨swapRemove free i⟩)
  | none => (none, v)

def deallocatePages (fuel : Nat) (v : Valloc) (page count : Nat) : Option Valloc :=
  (merge fuel v.free (wrap (page * pageSize)) count).map fun (merged, free) =>
    ⟨if merged then free else free ++ [(wrap (page * pageSize), count)]⟩

/-! ### No sum wraps -/

/-- The entry ends below the end of the address space. -/
def Fits (e : Nat × Nat) : Prop := e.1 + e.2 * pageSize < 2 ^ 64

section Fits

variable {address count : Nat} {e e' : Nat × Nat} {free : List (Nat × Nat)}

theorem touch_eq (hb : Fits (address, count)) (he : Fits e) :
    touch address count e = Memory.touch address count e := by
  unfold Fits pageSize at hb he
  dsimp only at hb
  have hsum : wrap (e.2 + count) = e.2 + count := wrap_of_lt (by omega)
  have hbsize : wrap (count * 4096) = count * 4096 := wrap_of_lt (by omega)
  have hesize : wrap (e.2 * 4096) = e.2 * 4096 := wrap_of_lt (by omega)
  rw [touch, Memory.touch, pageSize, hsum, hbsize, hesize, wrap_of_lt hb, wrap_of_lt he]

theorem Fits.touch (hb : Fits (address, count)) (he : Fits e)
    (h : Memory.touch address count e = some e') : Fits e' := by
  unfold Fits at hb he ⊢
  dsimp only at hb
  unfold Memory.touch at h
  split at h
  · cases h
    rw [Nat.add_mul]
    omega
  · split at h
    · cases h
      rw [Nat.add_mul]
      omega
    · cases h

/-- Below the end of the address space `merge` is that of the recycler. -/
theorem merge_eq (fuel : Nat) (hb : Fits (address, count)) (hfree : ∀ e ∈ free, Fits e) :
    merge fuel free address count = Memory.merge fuel free address count :=
  mergeWith_congr touch_eq Fits.touch fuel hb hfree

end Fits

/-! ### The best fit -/

section BestFit

variable {count i j : Nat} {e : Nat × Nat} {free : List (Nat × Nat)} {best : Option (Nat × Nat × Nat)}

theorem better_spec {x : Nat × Nat} : (better i x best = (i, x) ∨ best = some (better i x best)) ∧
    (better i x best).2.2 ≤ x.2 ∧ ∀ b, best = some b → (better i x best).2.2 ≤ b.2.2 := by
  cases best with
  | none => exact ⟨.inl rfl, Nat.le_refl _, nofun⟩
  | some b =>
    obtain ⟨k, fit⟩ := b
    rw [better]
    split
    · next hlt => exact ⟨.inl rfl, Nat.le_refl _, fun b hb => by cases hb; exact Nat.le_of_lt hlt⟩
    · next hge =>
      exact ⟨.inr rfl, Nat.le_of_not_lt hge, fun b hb => by cases hb; exact Nat.le_refl _⟩

/-- The loop finds what it had or an entry; it has enough pages, and no more than any
other that has. -/
theorem bestFit_spec (hbest : ∀ b, best = some b → count ≤ b.2.2)
    (h : bestFit count free i best = some (j, e)) :
    (best = some (j, e) ∨ ∃ k, j = i + k ∧ free[k]? = some e) ∧ count ≤ e.2 ∧
      (∀ e' ∈ free, count ≤ e'.2 → e.2 ≤ e'.2) ∧ ∀ b, best = some b → e.2 ≤ b.2.2 := by
  induction free generalizing i best with
  | nil =>
    rw [bestFit] at h
    subst h
    exact ⟨.inl rfl, hbest _ rfl, nofun, fun b hb => by cases hb; exact Nat.le_refl _⟩
  | cons x free ih =>
    rw [bestFit] at h
    by_cases hx : x.2 < count
    · rw [if_pos hx] at h
      obtain ⟨hfound, hcount, hmin, hle⟩ := ih hbest h
      refine ⟨hfound.imp_right ?_, hcount, List.forall_mem_cons.mpr ⟨fun hx' => ?_, hmin⟩, hle⟩
      · rintro ⟨k, rfl, hk⟩
        exact ⟨k + 1, by omega, hk⟩
      · exact absurd hx (Nat.not_lt.mpr hx')
    · rw [if_neg hx] at h
      obtain ⟨hor, hfx, hfb⟩ := @better_spec i best x
      generalize better i x best = found at h hor hfx hfb
      have hcountFound : count ≤ found.2.2 := by
        rcases hor with rfl | hb
        · exact Nat.le_of_not_lt hx
        · exact hbest _ hb
      have hmem : ∀ k e, found = (k, e) → best = some (k, e) ∨
          ∃ l, k = i + l ∧ (x :: free)[l]? = some e := by
        rintro k e rfl
        rcases hor with heq | hb
        · cases heq
          exact .inr ⟨0, rfl, rfl⟩
        · exact .inl hb
      split at h
      · next hexact =>
        cases h
        refine ⟨hmem j e rfl, hcountFound, fun e' _ he' => ?_, hfb⟩
        dsimp only at hexact
        omega
      · obtain ⟨hfound, hcount, hmin, hle⟩ := ih (fun b hb => by cases hb; exact hcountFound) h
        have hlast := hle found rfl
        refine ⟨?_, hcount, List.forall_mem_cons.mpr ⟨fun _ => hlast.trans hfx, hmin⟩,
          fun b hb => hlast.trans (hfb b hb)⟩
        rcases hfound with heq | ⟨k, rfl, hk⟩
        · exact hmem j e (Option.some.inj heq)
        · exact .inr ⟨k + 1, by omega, hk⟩

/-- The loop finds an entry if there is one with enough pages. -/
theorem bestFit_isSome (h : best.isSome ∨ ∃ e ∈ free, count ≤ e.2) :
    (bestFit count free i best).isSome := by
  induction free generalizing i best with
  | nil =>
    rcases h with h | ⟨e, he, -⟩
    · exact h
    · cases he
  | cons x free ih =>
    rw [bestFit]
    by_cases hx : x.2 < count
    · rw [if_pos hx]
      refine ih (h.imp_right ?_)
      rintro ⟨e, he, hle⟩
      rcases List.mem_cons.mp he with rfl | he
      · omega
      · exact ⟨e, he, hle⟩
    · rw [if_neg hx]
      split
      · rfl
      · exact ih (.inl rfl)

end BestFit

/-! ### Taking a block -/

variable {v : Valloc} {bs : List Block} {count : Nat}

/-- Every block ends below the end of the address space. -/
theorem fits_entry {b : Block} (h : b.stop * pageSize < 2 ^ 64) : Fits (entry b) := by
  unfold Fits entry
  rwa [← Nat.add_mul]

/-- A request is served from a run of minimal length. -/
theorem allocatePages_served (hfree : v.free = entries bs) (hbs : Separated bs)
    (hfits : ∀ b ∈ bs, b.stop * pageSize < 2 ^ 64) (hcount : 0 < count)
    (hrun : ∃ page, (⟨page, count⟩ : Block).cells ⊆ covered bs) :
    ∃ page v', v.allocatePages count = (some page, v') ∧ Taken count bs page v'.free ∧
      ∃ b ∈ bs, (⟨page, count⟩ : Block).cells ⊆ b.cells ∧
        ∀ b' ∈ bs, count ≤ b'.count → b.count ≤ b'.count := by
  obtain ⟨⟨i, e⟩, hfound⟩ : ∃ r, bestFit count (entries bs) 0 none = some r := by
    refine Option.isSome_iff_exists.mp (bestFit_isSome (.inr ?_))
    obtain ⟨page, hsub⟩ := hrun
    obtain ⟨b, hb, hstart, hstop⟩ := hbs.run_within hcount fun x hx hx' => hsub ⟨hx, hx'⟩
    refine ⟨entry b, List.mem_map_of_mem hb, ?_⟩
    unfold Block.stop at hstop
    show count ≤ b.count
    omega
  obtain ⟨hmem, hle, hmin, -⟩ := bestFit_spec (fun _ hb => by cases hb) hfound
  obtain ⟨xs, b, ys, rfl, rfl, rfl⟩ : ∃ xs b ys, bs = xs ++ b :: ys ∧ i = xs.length ∧ e = entry b := by
    rcases hmem with hno | ⟨k, hik, hk⟩
    · cases hno
    · rw [Nat.zero_add] at hik
      exact entries_split (hik ▸ hk)
  have hb : b ∈ xs ++ b :: ys := List.mem_append_right xs List.mem_cons_self
  have hle : count ≤ b.count := hle
  have hpage : wrap (b.start * pageSize + wrap ((b.count - count) * pageSize)) / pageSize =
      b.start + (b.count - count) := by
    have hstop := hfits b hb
    have hin : (b.start + (b.count - count)) * pageSize ≤ b.stop * pageSize :=
      Nat.mul_le_mul_right _ (Nat.add_le_add_left (Nat.sub_le _ _) _)
    rw [Nat.add_mul] at hin
    rw [wrap_of_lt (show (b.count - count) * pageSize < 2 ^ 64 by omega), wrap_of_lt (by omega),
      ← Nat.add_mul, Nat.mul_div_cancel _ (by decide)]
  refine ⟨_, _, ?_, taken_swapRemove hbs hle, b, hb, Block.lastCells_subset hle,
    fun b' hb' hle' => hmin _ (List.mem_map_of_mem hb') hle'⟩
  rw [allocatePages, hfree, hfound]
  simp only [entry, hpage]
  rfl

/-- A request that no run can serve is refused. -/
theorem allocatePages_refused (hfree : v.free = entries bs)
    (hrun : ¬ ∃ page, (⟨page, count⟩ : Block).cells ⊆ covered bs) :
    v.allocatePages count = (none, v) := by
  have hnone : bestFit count v.free 0 none = none := by
    rw [hfree, ← Option.not_isSome_iff_eq_none]
    intro hsome
    obtain ⟨⟨i, e⟩, hfound⟩ := Option.isSome_iff_exists.mp hsome
    obtain ⟨hmem, hle, -⟩ := bestFit_spec (fun _ hb => by cases hb) hfound
    rcases hmem with hno | ⟨k, -, hk⟩
    · cases hno
    · obtain ⟨b, hb, rfl⟩ := List.mem_map.mp (List.mem_of_getElem? hk)
      exact hrun ⟨_, fun x hx => ⟨b, hb, Block.lastCells_subset hle hx⟩⟩
  rw [allocatePages, hnone]

end Valloc

/-! ### Runs -/

/-- An allocator in use, and the blocks that are live. -/
structure VallocUsage where
  alloc : Valloc
  live : List Block

namespace VallocUsage

def start (address size : Nat) : VallocUsage := ⟨.new address size, []⟩

/-- Blocks are freed as they were handed out. -/
inductive Step (u : VallocUsage) : VallocUsage → Prop
  | allocate (count : Nat) (hcount : 0 < count) (page : Option Nat) (alloc : Valloc)
      (h : u.alloc.allocatePages count = (page, alloc)) :
      Step u ⟨alloc, (page.map fun page => ⟨page, count⟩).toList ++ u.live⟩
  | deallocate (b : Block) (hlive : b ∈ u.live) (fuel : Nat) (alloc : Valloc)
      (h : u.alloc.deallocatePages fuel b.start b.count = some alloc) :
      Step u ⟨alloc, u.live.erase b⟩

/-- The free list is separated; with the live blocks it covers the region, and nothing
is covered twice. -/
structure Inv (region : Block) (bs : List Block) (u : VallocUsage) : Prop where
  free : u.alloc.free = entries bs
  separated : Separated bs
  pos : ∀ b ∈ u.live, 0 < b.count
  live : u.live.Pairwise fun b c => Disjoint b.cells c.cells
  apart : Disjoint (covered bs) (covered u.live)
  covers : covered bs ∪ covered u.live = region.cells

section Inv

variable {region : Block} {bs : List Block} {u u' : VallocUsage}

/-- What is covered is inside the region. -/
theorem stop_le {b : Block} (hpos : 0 < b.count) (hsub : b.cells ⊆ region.cells) :
    b.stop ≤ region.stop := by
  have hlast : b.stop - 1 ∈ b.cells := by
    rw [Block.mem_cells, Block.stop]
    omega
  have hin := Block.mem_cells.mp (hsub hlast)
  unfold Block.stop at hin ⊢
  omega

theorem Inv.free_stop (h : u.Inv region bs) {b : Block} (hb : b ∈ bs) : b.stop ≤ region.stop := by
  refine stop_le (h.separated.pos b hb) fun x hx => ?_
  rw [← h.covers]
  exact .inl ⟨b, hb, hx⟩

theorem Inv.live_stop (h : u.Inv region bs) {b : Block} (hb : b ∈ u.live) : b.stop ≤ region.stop := by
  refine stop_le (h.pos b hb) fun x hx => ?_
  rw [← h.covers]
  exact .inr ⟨b, hb, hx⟩

theorem inv_start {address size : Nat} (haligned : pageSize ∣ address) (hsize : pageSize ≤ size) :
    (start address size).Inv ⟨address / pageSize, size / pageSize⟩
      [⟨address / pageSize, size / pageSize⟩] where
  free := by
    have haddress : address / pageSize * pageSize = address := Nat.div_mul_cancel haligned
    simp [start, Valloc.new, entries, entry, haddress]
  separated := Separated.cons_iff.mpr
    ⟨Nat.div_pos hsize (by decide), (List.forall_mem_nil _), Separated.nil⟩
  pos := fun _ hb => by cases hb
  live := .nil
  apart := by
    show Disjoint _ (covered [])
    rw [covered_nil]
    exact Set.disjoint_empty _
  covers := by
    show _ ∪ covered [] = _
    rw [covered_cons, covered_nil, Set.union_empty, Set.union_empty]

theorem Inv.allocate (h : u.Inv region bs) (hregion : region.stop * pageSize < 2 ^ 64)
    {count : Nat} (hcount : 0 < count) {page : Option Nat} {alloc : Valloc}
    (halloc : u.alloc.allocatePages count = (page, alloc)) :
    ∃ bs', Inv region bs' ⟨alloc, (page.map fun page => ⟨page, count⟩).toList ++ u.live⟩ := by
  by_cases hrun : ∃ page, (⟨page, count⟩ : Block).cells ⊆ covered bs
  · have hfits : ∀ b ∈ bs, b.stop * pageSize < 2 ^ 64 := fun b hb =>
      Nat.lt_of_le_of_lt (Nat.mul_le_mul_right _ (h.free_stop hb)) hregion
    obtain ⟨page', v', hserved, ⟨hsub, bs', hfree, hsep, hcov⟩, -⟩ :=
      Valloc.allocatePages_served h.free h.separated hfits hcount hrun
    cases hserved.symm.trans halloc
    have hnew : Disjoint (⟨page', count⟩ : Block).cells (covered u.live) :=
      Set.disjoint_of_subset_left hsub h.apart
    refine ⟨bs', hfree, hsep, List.forall_mem_cons.mpr ⟨hcount, h.pos⟩,
      List.pairwise_cons.mpr ⟨fun c hc => ?_, h.live⟩, ?_, ?_⟩
    · exact Set.disjoint_of_subset_right (cells_subset_covered hc) hnew
    · show Disjoint _ (covered (_ :: u.live))
      rw [hcov, covered_cons, Set.disjoint_union_right]
      exact ⟨Set.disjoint_sdiff_left, Set.disjoint_of_subset_left Set.sdiff_subset h.apart⟩
    · show _ ∪ covered (_ :: u.live) = _
      rw [hcov, covered_cons, ← Set.union_assoc, Set.sdiff_union_of_subset hsub, h.covers]
  · cases (Valloc.allocatePages_refused h.free hrun).symm.trans halloc
    exact ⟨bs, h⟩

/-- A live block is freed: the recursion returns, and the list covers the block as well. -/
theorem Inv.deallocate (h : u.Inv region bs) (hregion : region.stop * pageSize < 2 ^ 64) {b : Block}
    (hb : b ∈ u.live) : ∃ alloc, u.alloc.deallocatePages 3 b.start b.count = some alloc ∧
      (∀ fuel alloc', u.alloc.deallocatePages fuel b.start b.count = some alloc' → alloc' = alloc) ∧
      ∃ bs', Inv region bs' ⟨alloc, u.live.erase b⟩ := by
  have hfits : ∀ e ∈ u.alloc.free, Valloc.Fits e := by
    rw [h.free]
    intro e he
    obtain ⟨c, hc, rfl⟩ := List.mem_map.mp he
    exact Valloc.fits_entry (Nat.lt_of_le_of_lt (Nat.mul_le_mul_right _ (h.free_stop hc)) hregion)
  have hbfits : Valloc.Fits (b.start * pageSize, b.count) :=
    Valloc.fits_entry (Nat.lt_of_le_of_lt (Nat.mul_le_mul_right _ (h.live_stop hb)) hregion)
  have haddress : wrap (b.start * pageSize) = b.start * pageSize :=
    wrap_of_lt (Nat.lt_of_le_of_lt (Nat.le_add_right _ _) hbfits)
  have hdealloc : ∀ fuel, u.alloc.deallocatePages fuel b.start b.count =
      (giveBack fuel u.alloc.free (b.start * pageSize) b.count).map Valloc.mk := by
    intro fuel
    rw [Valloc.deallocatePages, haddress, Valloc.merge_eq fuel hbfits hfits, giveBack, Option.map_map]
    rfl
  have hclear : ∀ x ∈ bs, b.Clear x := by
    intro x hx
    refine Block.clear_of_disjoint (h.pos b hb) (h.separated.pos x hx) ?_
    exact Set.disjoint_of_subset (cells_subset_covered hb) (cells_subset_covered hx) h.apart.symm
  obtain ⟨free, hfree, bs', rfl, hsep, hcov⟩ := giveBack_spec h.separated (h.pos b hb) hclear
  rw [← h.free] at hfree
  have hperm := List.perm_cons_erase hb
  have hlive := (hperm.pairwise_iff fun h => Disjoint.symm h).mp h.live
  obtain ⟨hothers, hrest⟩ := List.pairwise_cons.mp hlive
  have hcovLive : covered u.live = b.cells ∪ covered (u.live.erase b) := by
    rw [covered_perm hperm, covered_cons]
  have hdisj : Disjoint b.cells (covered (u.live.erase b)) := by
    rw [Set.disjoint_left]
    rintro x hx ⟨c, hc, hx'⟩
    exact Set.disjoint_left.mp (hothers c hc) hx hx'
  refine ⟨⟨entries bs'⟩, by rw [hdealloc, hfree]; rfl, fun fuel alloc' hfuel => ?_, bs', rfl, hsep,
    fun c hc => h.pos c (List.mem_of_mem_erase hc), hrest, ?_, ?_⟩
  · rw [hdealloc] at hfuel
    obtain ⟨free', hfree', rfl⟩ := Option.map_eq_some_iff.mp hfuel
    rw [giveBack_deterministic hfree' hfree]
  · have hapart := h.apart
    rw [hcovLive, Set.disjoint_union_right] at hapart
    rw [hcov, Set.disjoint_union_left]
    exact ⟨hapart.2, hdisj⟩
  · have hcovers := h.covers
    rw [hcovLive] at hcovers
    rw [hcov, Set.union_assoc]
    exact hcovers

theorem Inv.step (h : u.Inv region bs) (hregion : region.stop * pageSize < 2 ^ 64)
    (hstep : Step u u') : ∃ bs', u'.Inv region bs' := by
  cases hstep with
  | allocate count hcount page alloc halloc => exact h.allocate hregion hcount halloc
  | deallocate b hb fuel alloc hresult =>
    obtain ⟨alloc', -, hunique, h'⟩ := h.deallocate hregion hb
    rw [hunique fuel alloc hresult]
    exact h'

end Inv

/-- A page is free. -/
def Free (u : VallocUsage) (x : Nat) : Prop := ∃ e ∈ u.alloc.free, x ∈ framesOf e

/-- What is asked of an allocator of the pages from `address` on that is in use. -/
structure Partitions (address size : Nat) (u : VallocUsage) : Prop where
  pos : ∀ e ∈ u.alloc.free, 1 ≤ e.2
  disjoint : u.alloc.free.Pairwise fun e e' => Disjoint (framesOf e) (framesOf e')
  /-- No entry ends where another begins. -/
  notAdjacent : u.alloc.free.Pairwise fun e e' =>
    e.1 + e.2 * pageSize ≠ e'.1 ∧ e'.1 + e'.2 * pageSize ≠ e.1
  /-- No two live blocks share a page, and no live block has a free one. -/
  live : u.live.Pairwise fun b c => Disjoint b.cells c.cells
  apart : ∀ b ∈ u.live, ∀ x ∈ b.cells, ¬ u.Free x
  /-- All together are the pages of the region. -/
  covers : ∀ x, u.Free x ∨ (∃ b ∈ u.live, x ∈ b.cells) ↔
    address / pageSize ≤ x ∧ x < address / pageSize + size / pageSize
  /-- A request is refused exactly if there are not enough free pages in a row. -/
  refused : ∀ count, 1 ≤ count → ((u.alloc.allocatePages count).1 = none ↔
    ¬ ∃ page, ∀ x, page ≤ x → x < page + count → u.Free x)
  /-- A block is taken from an entry of minimal length. -/
  best : ∀ count page, 1 ≤ count → (u.alloc.allocatePages count).1 = some page →
    ∃ e ∈ u.alloc.free, (⟨page, count⟩ : Block).cells ⊆ framesOf e ∧
      ∀ e' ∈ u.alloc.free, count ≤ e'.2 → e.2 ≤ e'.2
  /-- Freeing a live block returns. -/
  returns : ∀ b ∈ u.live, ∃ fuel alloc, u.alloc.deallocatePages fuel b.start b.count = some alloc

section Correct

variable {region : Block} {bs : List Block} {u : VallocUsage} {address size : Nat}

theorem Inv.free_iff (h : u.Inv region bs) {x : Nat} : u.Free x ↔ x ∈ covered bs := by
  rw [Free, h.free, ← framesOf_entries]
  rfl

theorem Inv.run_iff (h : u.Inv region bs) {count : Nat} :
    (∃ page, ∀ x, page ≤ x → x < page + count → u.Free x) ↔
      ∃ page, (⟨page, count⟩ : Block).cells ⊆ covered bs := by
  simp only [h.free_iff]
  exact exists_congr fun page => ⟨fun hall x hx => hall x hx.1 hx.2, fun hsub x hx hx' => hsub ⟨hx, hx'⟩⟩

/-- The pages of the region end below the end of the address space. -/
theorem region_below (h : address + size < 2 ^ 64) :
    (⟨address / pageSize, size / pageSize⟩ : Block).stop * pageSize < 2 ^ 64 := by
  unfold Block.stop pageSize
  dsimp only
  omega

theorem Inv.partitions (h : u.Inv ⟨address / pageSize, size / pageSize⟩ bs)
    (hfits : address + size < 2 ^ 64) : u.Partitions address size := by
  have hregion := region_below hfits
  have hbelow : ∀ b ∈ bs, b.stop * pageSize < 2 ^ 64 := fun b hb =>
    Nat.lt_of_le_of_lt (Nat.mul_le_mul_right _ (h.free_stop hb)) hregion
  refine ⟨?_, ?_, ?_, h.live, ?_, ?_, ?_, ?_, ?_⟩
  · rw [h.free]
    exact entries_pos h.separated
  · rw [h.free]
    exact framesOf_disjoint h.separated
  · rw [h.free]
    exact entries_not_adjacent h.separated
  · intro b hb x hx hfree
    exact Set.disjoint_left.mp h.apart (h.free_iff.mp hfree) ⟨b, hb, hx⟩
  · intro x
    rw [h.free_iff]
    exact Set.ext_iff.mp h.covers x
  · intro count hcount
    rw [h.run_iff]
    constructor
    · intro hnone hrun
      obtain ⟨page, v', hserved, -⟩ :=
        Valloc.allocatePages_served h.free h.separated hbelow hcount hrun
      rw [hserved] at hnone
      cases hnone
    · intro hrun
      rw [Valloc.allocatePages_refused h.free hrun]
  · intro count page hcount hsome
    by_cases hrun : ∃ page, (⟨page, count⟩ : Block).cells ⊆ covered bs
    · obtain ⟨page', v', hserved, -, b, hb, hsub, hmin⟩ :=
        Valloc.allocatePages_served h.free h.separated hbelow hcount hrun
      rw [hserved] at hsome
      cases hsome
      rw [h.free]
      refine ⟨entry b, List.mem_map_of_mem hb, framesOf_entry b ▸ hsub, fun e' he' hle => ?_⟩
      obtain ⟨b', hb', rfl⟩ := List.mem_map.mp he'
      exact hmin b' hb' hle
    · rw [Valloc.allocatePages_refused h.free hrun] at hsome
      cases hsome
  · intro b hb
    obtain ⟨alloc, halloc, -⟩ := h.deallocate hregion hb
    exact ⟨3, alloc, halloc⟩

/-- **Free entries and live blocks partition the region in every state of every run.** For
every region that begins at a page, has one at least, and does not wrap around. -/
theorem valloc_partition (haligned : pageSize ∣ address) (hsize : pageSize ≤ size)
    (hfits : address + size < 2 ^ 64) (run : Relation.ReflTransGen Step (start address size) u) :
    u.Partitions address size := by
  have hregion := region_below hfits
  obtain ⟨bs, h⟩ := invariant_of_step
    (fun u => ∃ bs, u.Inv ⟨address / pageSize, size / pageSize⟩ bs) run
    ⟨_, inv_start haligned hsize⟩ fun _ _ ⟨_, h⟩ hstep => h.step hregion hstep
  exact h.partitions hfits

end Correct

/-- Three of eight pages are allocated one by one, and the middle one freed: it is an
entry of its own, and the next page is taken from it. -/
theorem three_pages_partition : ∃ u, Relation.ReflTransGen Step (start (64 * pageSize) (8 * pageSize)) u ∧
    u.alloc.free = [(64 * pageSize, 5), (70 * pageSize, 1)] ∧
    u.Partitions (64 * pageSize) (8 * pageSize) := by
  have hrun : ∃ u, Relation.ReflTransGen Step (start (64 * pageSize) (8 * pageSize)) u ∧
      u.alloc.free = [(64 * pageSize, 5), (70 * pageSize, 1)] := by
    refine ⟨_, .head (.allocate 1 (by decide) (some 71) _ rfl) (.head
      (.allocate 1 (by decide) (some 70) _ rfl) (.head (.allocate 1 (by decide) (some 69) _ rfl)
      (.single (.deallocate ⟨70, 1⟩ (by decide) 3 _ rfl)))), rfl⟩
  obtain ⟨u, hreaches, hfree⟩ := hrun
  exact ⟨u, hreaches, hfree, valloc_partition (by decide) (by decide) (by decide) hreaches⟩

end VallocUsage

end Faastr.Memory
