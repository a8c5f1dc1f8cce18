import Faastr.Lib.Allocator
import Mathlib.Data.Finset.Filter
import Mathlib.Order.Defs.Unbundled

/-!
The frames of page tables.

A page is found through three tables below the P4 of its page table, which are made when it is
mapped (`Table::next_table_create`, `kernel/src/arch/x86_64/paging/table.rs`) and given back when
nothing is left in them. Their frames come from the allocator that all other frames come from.

* `create`, `release`: a table is made, and given back.
* `Loose`: a frame that is free, or a table.
* `Within`: no other frame becomes loose.
* `Frees`: and no frame is taken.
* `createAll_cases`: tables can be made if enough frames are free.
-/

namespace Faastr.Spaces

open Faastr.Lib

/-- The pages of the user half. -/
def userPages : Nat := 0x800000000

/-- A table of a lower level: the P4 that it is below, unless it is in the kernel half, which all
page tables share. -/
structure TableId where
  root : Option Nat
  level : Nat
  index : Nat
deriving DecidableEq

/-- The table of a level on the way to a page. -/
def tableId (table page level : Nat) : TableId where
  root := if page < userPages then some table else none
  level
  index := page / 512 ^ level

/-- The tables on the way to a page. -/
def path (table page : Nat) : List TableId := [3, 2, 1].map (tableId table page)

/-- The tables on the way to a block of pages. -/
def paths (table start count : Nat) : List TableId := (List.range' start count).flatMap (path table)

/-- The frames that are free, the frames of the tables, and the frames given back so far. -/
structure Pool where
  frames : Allocator
  tables : TableId → Option Nat
  deallocated : List Nat

namespace Pool

/-- A table is made, unless it is there or there is no frame. -/
def create (p : Pool) (id : TableId) : Option Pool :=
  match p.tables id with
  | some _ => some p
  | none => (p.frames.allocate 1).map fun r =>
      { p with frames := r.2, tables := Function.update p.tables id (some r.1) }

def createAll (p : Pool) (ids : List TableId) : Option Pool := ids.foldlM create p

def deallocate (p : Pool) (start count : Nat) : Pool :=
  { p with
    frames := p.frames.deallocate start count
    deallocated := p.deallocated ++ List.range' start count }

/-- A table is given back. -/
def release (p : Pool) (id : TableId) : Pool :=
  match p.tables id with
  | some frame => { p with tables := Function.update p.tables id none }.deallocate frame 1
  | none => p

theorem createAll_append (p : Pool) (ids ids' : List TableId) :
    p.createAll (ids ++ ids') = (p.createAll ids).bind (·.createAll ids') :=
  List.foldlM_append

/-! ### Frames that may be taken -/

/-- The frame is free, or it is a table, which may become free. -/
def Loose (p : Pool) (f : Nat) : Prop := p.frames.free f = true ∨ ∃ id, p.tables id = some f

/-- A frame is one table at most, and not free then. -/
structure Tabled (p : Pool) : Prop where
  taken : ∀ id f, p.tables id = some f → p.frames.free f = false
  once : ∀ id id' f, p.tables id = some f → p.tables id' = some f → id = id'

/-- Frames that are neither free nor tables stay so. -/
structure Within (p p' : Pool) : Prop where
  loose : ∀ f, p'.Loose f → p.Loose f
  tabled : p.Tabled → p'.Tabled

instance : IsPreorder Pool Within where
  refl _ := ⟨fun _ h => h, id⟩
  trans _ _ _ h h' := ⟨fun f hf => h.loose f (h'.loose f hf), fun hp => h'.tabled (h.tabled hp)⟩

section Within

variable {p p' : Pool} {id : TableId} {start count : Nat} {frames : Allocator}

/-- Frames are taken. -/
theorem within_allocate (h : p.frames.allocate count = some (start, frames)) :
    Within p { p with frames } where
  loose _ hf := hf.imp_left fun hf => ((Allocator.free_allocate_iff h).mp hf).1
  tabled hp := by
    refine ⟨fun id f hid => ?_, hp.once⟩
    rw [← Bool.not_eq_true, Allocator.free_allocate_iff h, hp.taken id f hid]
    simp

theorem loose_of_allocate (h : p.frames.allocate count = some (start, frames)) {k : Nat}
    (hk : k < count) : p.Loose (start + k) :=
  .inl (Allocator.free_of_allocate h hk)

/-- Frames that were taken are neither free nor tables. -/
theorem not_loose_of_allocate (hp : p.Tabled) (h : p.frames.allocate count = some (start, frames))
    {k : Nat} (hk : k < count) : ¬ Loose { p with frames } (start + k) := by
  rintro (hfree | ⟨id, hid⟩)
  · have := ((Allocator.free_allocate_iff h).mp hfree).2
    omega
  · cases (hp.taken id _ hid).symm.trans (Allocator.free_of_allocate h hk)

theorem within_create (h : p.create id = some p') : Within p p' := by
  rw [create] at h
  split at h
  · cases h
    exact refl_of Within p
  · next hid =>
    obtain ⟨⟨frame, frames⟩, halloc, rfl⟩ := Option.map_eq_some_iff.mp h
    have hfree : p.frames.free frame = true := Allocator.free_of_allocate halloc Nat.one_pos
    have hwithin := within_allocate halloc
    -- The new frame was free, so it is no other table.
    have htables : ∀ id' f, Function.update p.tables id (some frame) id' = some f →
        id' = id ∧ f = frame ∨ p.tables id' = some f ∧ (p.Tabled → f ≠ frame) := by
      intro id' f hid'
      by_cases heq : id' = id
      · rw [heq, Function.update_self] at hid'
        exact .inl ⟨heq, (Option.some.inj hid').symm⟩
      · rw [Function.update_of_ne heq] at hid'
        refine .inr ⟨hid', fun hp hf => ?_⟩
        cases (hp.taken id' f hid').symm.trans (hf ▸ hfree)
    refine ⟨fun f hf => ?_, fun hp => ⟨fun id' f hid' => ?_, fun id₁ id₂ f h₁ h₂ => ?_⟩⟩
    · rcases hf with hf | ⟨id', hid'⟩
      · exact hwithin.loose f (.inl hf)
      · rcases htables id' f hid' with ⟨-, rfl⟩ | ⟨hid', -⟩
        · exact .inl hfree
        · exact .inr ⟨id', hid'⟩
    · rcases htables id' f hid' with ⟨-, rfl⟩ | ⟨hid', -⟩
      · exact Bool.eq_false_iff.mpr fun hf => not_loose_of_allocate hp halloc Nat.one_pos (.inl hf)
      · exact (hwithin.tabled hp).taken id' f hid'
    · rcases htables id₁ f h₁ with ⟨rfl, hf⟩ | ⟨h₁, hne₁⟩
      · rcases htables id₂ f h₂ with ⟨rfl, -⟩ | ⟨-, hne₂⟩
        · rfl
        · exact absurd hf (hne₂ hp)
      · rcases htables id₂ f h₂ with ⟨-, hf⟩ | ⟨h₂, -⟩
        · exact absurd hf (hne₁ hp)
        · exact hp.once id₁ id₂ f h₁ h₂

theorem within_createAll {ids : List TableId} (h : p.createAll ids = some p') : Within p p' := by
  induction ids generalizing p with
  | nil => exact Option.some.inj h ▸ refl_of Within p
  | cons id ids ih =>
    obtain ⟨p₁, hcreate, h⟩ := Option.bind_eq_some_iff.mp h
    exact trans_of Within (within_create hcreate) (ih h)

/-- Making tables makes no frame free. -/
theorem free_of_createAll {ids : List TableId} {f : Nat} (h : p.createAll ids = some p')
    (hf : p'.frames.free f = true) : p.frames.free f = true := by
  induction ids generalizing p with
  | nil => exact Option.some.inj h ▸ hf
  | cons id ids ih =>
    obtain ⟨p₁, hcreate, h⟩ := Option.bind_eq_some_iff.mp h
    have hf₁ := ih h
    rw [create] at hcreate
    split at hcreate
    · cases hcreate
      exact hf₁
    · obtain ⟨r, halloc, rfl⟩ := Option.map_eq_some_iff.mp hcreate
      exact ((Allocator.free_allocate_iff halloc).mp hf₁).1

/-- Frames that were taken are given back. -/
theorem within_deallocate (h : Within p p') (hloose : ∀ k, k < count → p.Loose (start + k))
    (hnot : p.Tabled → ∀ k, k < count → ¬ p'.Loose (start + k)) :
    Within p (p'.deallocate start count) := by
  have hblock : ∀ f, start ≤ f ∧ f < start + count → ∃ k, k < count ∧ f = start + k :=
    fun f hf => ⟨f - start, by omega, by omega⟩
  refine ⟨fun f hf => ?_, fun hp => ⟨fun id f hid => ?_, (h.tabled hp).once⟩⟩
  · rcases hf with hf | hf
    · rcases Allocator.free_deallocate_iff.mp hf with hf | hf
      · exact h.loose f (.inl hf)
      · obtain ⟨k, hk, rfl⟩ := hblock f hf
        exact hloose k hk
    · exact h.loose f (.inr hf)
  · refine Bool.eq_false_iff.mpr fun hf => ?_
    rcases Allocator.free_deallocate_iff.mp hf with hf | hf
    · cases ((h.tabled hp).taken id f hid).symm.trans hf
    · obtain ⟨k, hk, rfl⟩ := hblock f hf
      exact hnot hp k hk (.inr ⟨id, hid⟩)

/-- Tables are forgotten. -/
theorem within_fewer {tables : TableId → Option Nat}
    (h : ∀ id f, tables id = some f → p.tables id = some f) : Within p { p with tables } where
  loose _ hf := hf.imp_right fun ⟨id, hid⟩ => ⟨id, h id _ hid⟩
  tabled hp := ⟨fun id f hid => hp.taken id f (h id f hid),
    fun id₁ id₂ f h₁ h₂ => hp.once id₁ id₂ f (h id₁ f h₁) (h id₂ f h₂)⟩

theorem within_release : Within p (p.release id) := by
  rw [release]
  split
  · next frame hid =>
    have hold : ∀ id' f, Function.update p.tables id none id' = some f →
        p.tables id' = some f ∧ id' ≠ id := by
      intro id' f hid'
      have hne : id' ≠ id := by
        rintro rfl
        simp at hid'
      exact ⟨(Function.update_of_ne hne ..).symm.trans hid', hne⟩
    refine within_deallocate (within_fewer fun id' f h => (hold id' f h).1) (fun k hk => ?_) fun hp k hk => ?_
    · rw [Nat.lt_one_iff.mp hk]
      exact .inr ⟨id, hid⟩
    · rw [Nat.lt_one_iff.mp hk]
      rintro (hfree | ⟨id', hid'⟩)
      · cases (hp.taken id frame hid).symm.trans hfree
      · exact (hold id' frame hid').2 (hp.once id' id frame (hold id' frame hid').1 hid)
  · exact refl_of Within p

end Within

/-! ### Frames that are needed -/

/-- Tables are given back, and no frame is taken. -/
structure Frees (p p' : Pool) : Prop extends Within p p' where
  draws : Allocator.Draws 0 p.frames p'.frames

instance : IsPreorder Pool Frees where
  refl p := ⟨refl_of Within p, .refl _⟩
  trans _ _ _ h h' := ⟨trans_of Within h.toWithin h'.toWithin, h.draws.trans h'.draws⟩

theorem frees_release {p : Pool} {id : TableId} : Frees p (p.release id) := by
  refine ⟨within_release, ?_⟩
  rw [release]
  split
  · exact Allocator.draws_deallocate
  · exact .refl _

/-- Tables can be made if a frame can be spared for each that is missing. -/
theorem createAll_cases {p : Pool} {ids : List TableId} {k : Nat}
    (hk : (ids.toFinset.filter fun id => p.tables id = none).card ≤ k) :
    (¬ p.frames.Spares 1 k ∧ p.createAll ids = none) ∨
    ∃ p', p.createAll ids = some p' ∧ Allocator.Draws k p.frames p'.frames := by
  induction ids generalizing p k with
  | nil => exact .inr ⟨p, rfl, (Allocator.Draws.refl _).mono (Nat.zero_le k)⟩
  | cons id ids ih =>
    rw [createAll, List.foldlM_cons]
    cases hid : p.tables id with
    | some frame =>
      have hcreate : p.create id = some p := by rw [create, hid]
      rw [hcreate]
      refine ih ((Finset.card_le_card fun id' hid' => ?_).trans hk)
      simp only [Finset.mem_filter, List.mem_toFinset, List.mem_cons] at hid' ⊢
      exact ⟨.inr hid'.1, hid'.2⟩
    | none =>
      have hmem : id ∈ (id :: ids).toFinset.filter fun id => p.tables id = none := by simp [hid]
      obtain ⟨k, rfl⟩ := Nat.exists_eq_succ_of_ne_zero
        (Nat.lt_of_lt_of_le (Finset.card_pos.mpr ⟨id, hmem⟩) hk).ne'
      cases halloc : p.frames.allocate 1 with
      | none =>
        have hcreate : p.create id = none := by
          rw [create, hid, halloc]
          rfl
        rw [hcreate]
        refine .inl ⟨fun hspares => ?_, rfl⟩
        obtain ⟨frame, frames, hsome⟩ := hspares.allocate
        cases halloc.symm.trans hsome
      | some r =>
        have hcreate : p.create id =
            some { p with frames := r.2, tables := Function.update p.tables id (some r.1) } := by
          rw [create, hid, halloc]
          rfl
        rw [hcreate]
        have hdraws := Allocator.draws_allocate halloc
        -- The table that was made is not missing any more.
        have hfewer : (ids.toFinset.filter fun id' =>
            Function.update p.tables id (some r.1) id' = none).card ≤ k := by
          refine Nat.le_of_lt_succ ((Finset.card_lt_card ?_).trans_le hk)
          refine Finset.ssubset_iff_of_subset (fun id' hid' => ?_) |>.mpr ⟨id, hmem, by simp⟩
          simp only [Finset.mem_filter, List.mem_toFinset, List.mem_cons] at hid' ⊢
          have hne : id' ≠ id := by
            rintro rfl
            simp at hid'
          exact ⟨.inr hid'.1, (Function.update_of_ne hne ..).symm.trans hid'.2⟩
        rcases @ih { p with frames := r.2, tables := Function.update p.tables id (some r.1) } k hfewer with
          ⟨hnot, hnone⟩ | ⟨p', hall, hdraws'⟩
        · exact .inl ⟨fun hspares => hnot (Allocator.Spares.draws (hspares.mono (by omega)) hdraws), hnone⟩
        · exact .inr ⟨p', hall, (hdraws.trans hdraws').mono (by omega)⟩

end Pool

/-- The block is in one half. -/
def OneHalf (start count : Nat) : Prop := start + count ≤ userPages ∨ userPages ≤ start

/-- The most tables that a block of pages can be spread over. -/
def tableFrames (count : Nat) : Nat :=
  ([1, 2, 3].map fun level => (count + 512 ^ level - 2) / 512 ^ level + 1).sum

theorem mem_path {table page : Nat} {id : TableId} :
    id ∈ path table page ↔ ∃ level ∈ [1, 2, 3], id = tableId table page level := by
  simp only [path, List.map_cons, List.map_nil, List.mem_cons, List.not_mem_nil, or_false,
    exists_eq_or_imp, exists_eq_left]
  tauto

/-- Pages of a block are in few blocks of `c` pages. -/
theorem div_mem_range' {start page count c : Nat} (hc : 0 < c)
    (hpage : start ≤ page ∧ page < start + count) :
    page / c ∈ List.range' (start / c) ((count + c - 2) / c + 1) := by
  have hmod := Nat.mod_lt start hc
  have hlast : (start + (count - 1)) / c ≤ start / c + (count + c - 2) / c := by
    calc (start + (count - 1)) / c = (c * (start / c) + (start % c + (count - 1))) / c := by
          rw [← Nat.add_assoc, Nat.div_add_mod]
      _ = start / c + (start % c + (count - 1)) / c := Nat.mul_add_div hc ..
      _ ≤ start / c + (count + c - 2) / c :=
          Nat.add_le_add_left (Nat.div_le_div_right (by omega)) _
  have hle : page / c ≤ (start + (count - 1)) / c := Nat.div_le_div_right (by omega)
  exact List.mem_range'_1.mpr ⟨Nat.div_le_div_right hpage.1, by omega⟩

theorem card_paths_le {table start count : Nat} (hhalf : OneHalf start count)
    (missing : TableId → Prop) [DecidablePred missing] :
    ((paths table start count).toFinset.filter missing).card ≤ tableFrames count := by
  have hsubset : (paths table start count).toFinset ⊆ ([1, 2, 3].flatMap fun level =>
      (List.range' (start / 512 ^ level) ((count + 512 ^ level - 2) / 512 ^ level + 1)).map
        fun index => TableId.mk (tableId table start level).root level index).toFinset := by
    intro id hid
    obtain ⟨page, hpage, hid⟩ := List.mem_flatMap.mp (List.mem_toFinset.mp hid)
    obtain ⟨level, hlevel, rfl⟩ := mem_path.mp hid
    have hpage := List.mem_range'_1.mp hpage
    have hroot : (tableId table page level).root = (tableId table start level).root := by
      have hsame : page < userPages ↔ start < userPages := by
        rcases hhalf with h | h <;> omega
      simp only [tableId, hsame]
    refine List.mem_toFinset.mpr (List.mem_flatMap.mpr ⟨level, hlevel, List.mem_map.mpr
      ⟨page / 512 ^ level, div_mem_range' (Nat.pow_pos (by decide)) hpage, ?_⟩⟩)
    rw [← hroot]
    rfl
  calc ((paths table start count).toFinset.filter missing).card
      ≤ (paths table start count).toFinset.card := Finset.card_filter_le ..
    _ ≤ _ := Finset.card_le_card hsubset
    _ ≤ _ := List.toFinset_card_le _
    _ = tableFrames count := by
        rw [List.length_flatMap, tableFrames]
        simp only [List.length_map, List.length_range']

/-- The tables on the way to a block of pages. -/
theorem createPaths_cases {p : Pool} {start count : Nat} (table : Nat) (hhalf : OneHalf start count) :
    (¬ p.frames.Spares 1 (tableFrames count) ∧ p.createAll (paths table start count) = none) ∨
    ∃ p', p.createAll (paths table start count) = some p' ∧
      Allocator.Draws (tableFrames count) p.frames p'.frames :=
  Pool.createAll_cases (card_paths_le hhalf _)

end Faastr.Spaces
