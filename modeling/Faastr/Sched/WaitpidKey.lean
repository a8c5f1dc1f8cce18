import Mathlib.Data.ENat.Lattice

/-!
The keys of a `WaitMap` for `waitpid` (`context/context.rs`).

Two keys are compared by their pids if both have one and else by their groups, where a missing group
counts as the last one beside a pid and as the first one without (`rank`). The comparison is total
and agrees with `eq`, but two keys with a pid and one without are compared by both, and the three may
go round in a circle.

* `lawful_iff`: the keys of a set are ordered exactly if none of them do.
-/

namespace Faastr.Sched

structure WaitpidKey where
  pid : Option Nat
  pgid : Option Nat
deriving DecidableEq, Repr

namespace WaitpidKey

/-- `cmp`. -/
def cmp (self other : WaitpidKey) : Ordering :=
  match self.pid, other.pid with
  | some sPid, some oPid => compare sPid oPid
  | _, _ =>
    match self.pgid, other.pgid with
    | some sPgid, some oPgid => compare sPgid oPgid
    | _, _ =>
      if self.pid.isSome then .gt
      else if other.pid.isSome then .lt
      else if self.pgid.isSome then .gt
      else if other.pgid.isSome then .lt
      else .eq

/-- `eq`. -/
def eq (self other : WaitpidKey) : Bool := self.cmp other == .eq

/-! ### The laws of a map key -/

/-- The comparison is a total preorder on these keys, and agrees with `eq`. -/
structure Lawful (K : Set WaitpidKey) : Prop where
  refl : ∀ a ∈ K, a.cmp a = .eq
  swap : ∀ a ∈ K, ∀ b ∈ K, a.cmp b = (b.cmp a).swap
  eq_iff : ∀ a ∈ K, ∀ b ∈ K, a.eq b = true ↔ a.cmp b = .eq
  lt_trans : ∀ a ∈ K, ∀ b ∈ K, ∀ c ∈ K, a.cmp b = .lt → b.cmp c = .lt → a.cmp c = .lt
  eq_trans : ∀ a ∈ K, ∀ b ∈ K, ∀ c ∈ K, a.cmp b = .eq → b.cmp c = .eq → a.cmp c = .eq

/-- The group of a key, with a place for none. -/
def rank (k : WaitpidKey) : WithBot (WithTop Nat) :=
  match k.pgid, k.pid with
  | some pgid, _ => ((pgid : WithTop Nat) : WithBot (WithTop Nat))
  | none, some _ => ((⊤ : WithTop Nat) : WithBot (WithTop Nat))
  | none, none => ⊥

/-- Pids go up from `a` to `b` while groups go up from `b` over a key without a pid to `a`, and the
three are not all the same. -/
def Circle (a b c : WaitpidKey) : Prop :=
  ∃ p q, a.pid = some p ∧ b.pid = some q ∧ c.pid = none ∧ p ≤ q ∧ b.rank ≤ c.rank ∧
    c.rank ≤ a.rank ∧ ¬ (p = q ∧ b.rank = c.rank ∧ c.rank = a.rank)

variable {a b c : WaitpidKey} {p q : Nat} {K : Set WaitpidKey}

theorem cmp_of_pids (ha : a.pid = some p) (hb : b.pid = some q) : a.cmp b = compare p q := by
  rw [cmp, ha, hb]

/-- Groups keep their order as ranks. -/
theorem compare_coe (g h : Nat) :
    compare ((g : WithTop Nat) : WithBot (WithTop Nat)) ((h : WithTop Nat) : WithBot (WithTop Nat)) =
      compare g h := by
  rw [compare_iff]
  cases hcmp : compare g h with
  | lt => exact WithBot.coe_lt_coe.mpr (WithTop.coe_lt_coe.mpr (compare_lt_iff_lt.mp hcmp))
  | eq => rw [compare_eq_iff_eq.mp hcmp]; rfl
  | gt => exact WithBot.coe_lt_coe.mpr (WithTop.coe_lt_coe.mpr (compare_gt_iff_gt.mp hcmp))

/-- Without two pids, the groups decide. -/
theorem cmp_of_rank (h : a.pid = none ∨ b.pid = none) : a.cmp b = compare a.rank b.rank := by
  have hlt : ∀ {x y : WithBot (WithTop Nat)}, x < y → compare x y = .lt ∧ compare y x = .gt :=
    fun h => ⟨compare_lt_iff_lt.mpr h, compare_gt_iff_gt.mpr h⟩
  have htop : ∀ g : Nat, ((g : WithTop Nat) : WithBot (WithTop Nat)) < ⊤ :=
    fun g => WithBot.coe_lt_coe.mpr (WithTop.coe_lt_top g)
  obtain ⟨_ | p, _ | g⟩ := a <;> obtain ⟨_ | q, _ | k⟩ := b <;>
    simp_all [cmp, rank, compare_coe, hlt (htop _)]

theorem cmp_refl (a : WaitpidKey) : a.cmp a = .eq := by
  cases hp : a.pid with
  | some p => rw [cmp_of_pids hp hp, compare_eq_iff_eq]
  | none => rw [cmp_of_rank (.inl hp), compare_eq_iff_eq]

theorem cmp_swap (a b : WaitpidKey) : a.cmp b = (b.cmp a).swap := by
  by_cases h : a.pid = none ∨ b.pid = none
  · rw [cmp_of_rank h, cmp_of_rank h.symm]
    exact Std.OrientedCmp.eq_swap
  · rw [not_or] at h
    obtain ⟨p, hp⟩ := Option.ne_none_iff_exists'.mp h.1
    obtain ⟨q, hq⟩ := Option.ne_none_iff_exists'.mp h.2
    rw [cmp_of_pids hp hq, cmp_of_pids hq hp]
    exact Std.OrientedCmp.eq_swap

/-! ### Circles -/

/-- Three keys that go up in a circle are all equal. -/
def Acyclic (K : Set WaitpidKey) : Prop :=
  ∀ a ∈ K, ∀ b ∈ K, ∀ c ∈ K, a.cmp b ≠ .gt → b.cmp c ≠ .gt → c.cmp a ≠ .gt →
    a.cmp b = .eq ∧ b.cmp c = .eq ∧ c.cmp a = .eq

theorem Lawful.acyclic (h : Lawful K) : Acyclic K := by
  -- Two steps up are one, and a step up both ways is none.
  have htrans : ∀ a ∈ K, ∀ b ∈ K, ∀ c ∈ K, a.cmp b ≠ .gt → b.cmp c ≠ .gt → a.cmp c ≠ .gt := by
    intro a ha b hb c hc hab hbc hac
    have hca : c.cmp a = .lt := by rw [cmp_swap, hac]; rfl
    cases hab' : a.cmp b with
    | gt => exact hab hab'
    | lt =>
      have hcb := h.lt_trans c hc a ha b hb hca hab'
      rw [cmp_swap, hcb] at hbc
      exact hbc rfl
    | eq =>
      cases hbc' : b.cmp c with
      | gt => exact hbc hbc'
      | lt =>
        have hba := h.lt_trans b hb c hc a ha hbc' hca
        rw [cmp_swap, hba] at hab'
        cases hab'
      | eq =>
        rw [h.eq_trans a ha b hb c hc hab' hbc'] at hac
        cases hac
  have heq : ∀ a b : WaitpidKey, a.cmp b ≠ .gt → b.cmp a ≠ .gt → a.cmp b = .eq := by
    intro a b hab hba
    cases hcmp : a.cmp b with
    | eq => rfl
    | gt => exact absurd hcmp hab
    | lt => exact absurd (by rw [cmp_swap, hcmp]; rfl) hba
  intro a ha b hb c hc hab hbc hca
  exact ⟨heq a b hab (htrans b hb c hc a ha hbc hca), heq b c hbc (htrans c hc a ha b hb hca hab),
    heq c a hca (htrans a ha b hb c hc hab hbc)⟩

theorem Acyclic.lawful (h : Acyclic K) : Lawful K where
  refl a _ := cmp_refl a
  swap a _ b _ := cmp_swap a b
  eq_iff a _ b _ := beq_iff_eq
  lt_trans a ha b hb c hc hab hbc := by
    by_contra hac
    have hca : c.cmp a ≠ .gt := by
      intro hgt
      rw [cmp_swap, hgt] at hac
      exact hac rfl
    have heq := (h a ha b hb c hc (by simp [hab]) (by simp [hbc]) hca).1
    cases hab.symm.trans heq
  eq_trans a ha b hb c hc hab hbc := by
    have hba : b.cmp a = .eq := by rw [cmp_swap, hab]; rfl
    have hcb : c.cmp b = .eq := by rw [cmp_swap, hbc]; rfl
    by_cases hca : c.cmp a = .gt
    · have hac : a.cmp c ≠ .gt := by rw [cmp_swap, hca]; decide
      exact (h a ha c hc b hb hac (by simp [hcb]) (by simp [hba])).1
    · have heq := (h a ha b hb c hc (by simp [hab]) (by simp [hbc]) hca).2.2
      rw [cmp_swap, heq]
      rfl

/-- With two pids, keys that go up in a circle and are not all equal are a circle. -/
theorem eq_of_not_circle (ha : a.pid = some p) (hb : b.pid = some q) (hc : c.pid = none)
    (hno : ¬ Circle a b c) (hab : a.cmp b ≠ .gt) (hbc : b.cmp c ≠ .gt) (hca : c.cmp a ≠ .gt) :
    a.cmp b = .eq ∧ b.cmp c = .eq ∧ c.cmp a = .eq := by
  rw [cmp_of_pids ha hb] at hab ⊢
  rw [cmp_of_rank (.inr hc)] at hbc ⊢
  rw [cmp_of_rank (.inl hc)] at hca ⊢
  rw [compare_le_iff_le] at hab hbc hca
  rw [compare_eq_iff_eq, compare_eq_iff_eq, compare_eq_iff_eq]
  by_contra hne
  exact hno ⟨p, q, ha, hb, hc, hab, hbc, hca, hne⟩

/-- With one pid at most, only the groups count. -/
theorem eq_of_ranks (hab : a.pid = none ∨ b.pid = none) (hbc : b.pid = none ∨ c.pid = none)
    (hca : c.pid = none ∨ a.pid = none) (h₁ : a.cmp b ≠ .gt) (h₂ : b.cmp c ≠ .gt)
    (h₃ : c.cmp a ≠ .gt) : a.cmp b = .eq ∧ b.cmp c = .eq ∧ c.cmp a = .eq := by
  rw [cmp_of_rank hab] at h₁ ⊢
  rw [cmp_of_rank hbc] at h₂ ⊢
  rw [cmp_of_rank hca] at h₃ ⊢
  rw [compare_le_iff_le] at h₁ h₂ h₃
  rw [compare_eq_iff_eq, compare_eq_iff_eq, compare_eq_iff_eq]
  exact ⟨le_antisymm h₁ (h₂.trans h₃), le_antisymm h₂ (h₃.trans h₁), le_antisymm h₃ (h₁.trans h₂)⟩

theorem acyclic_of_no_circle (h : ∀ a ∈ K, ∀ b ∈ K, ∀ c ∈ K, ¬ Circle a b c) : Acyclic K := by
  intro a ha b hb c hc hab hbc hca
  cases hpa : a.pid with
  | some p =>
    cases hpb : b.pid with
    | some q =>
      cases hpc : c.pid with
      | some r =>
        rw [cmp_of_pids hpa hpb] at hab ⊢
        rw [cmp_of_pids hpb hpc] at hbc ⊢
        rw [cmp_of_pids hpc hpa] at hca ⊢
        rw [compare_le_iff_le] at hab hbc hca
        rw [compare_eq_iff_eq, compare_eq_iff_eq, compare_eq_iff_eq]
        omega
      | none => exact eq_of_not_circle hpa hpb hpc (h a ha b hb c hc) hab hbc hca
    | none =>
      cases hpc : c.pid with
      | some r =>
        obtain ⟨h₁, h₂, h₃⟩ := eq_of_not_circle hpc hpa hpb (h c hc a ha b hb) hca hab hbc
        exact ⟨h₂, h₃, h₁⟩
      | none => exact eq_of_ranks (.inr hpb) (.inl hpb) (.inl hpc) hab hbc hca
  | none =>
    cases hpb : b.pid with
    | some q =>
      cases hpc : c.pid with
      | some r =>
        obtain ⟨h₁, h₂, h₃⟩ := eq_of_not_circle hpb hpc hpa (h b hb c hc a ha) hbc hca hab
        exact ⟨h₃, h₁, h₂⟩
      | none => exact eq_of_ranks (.inl hpa) (.inr hpc) (.inl hpc) hab hbc hca
    | none => exact eq_of_ranks (.inl hpa) (.inl hpb) (.inr hpa) hab hbc hca

/-- **Which keys are ordered.** The comparison is lawful on a set of keys exactly if no three of
them go round in a circle. -/
theorem lawful_iff (K : Set WaitpidKey) :
    Lawful K ↔ ∀ a ∈ K, ∀ b ∈ K, ∀ c ∈ K, ¬ Circle a b c := by
  constructor
  · rintro h a ha b hb c hc ⟨p, q, hpa, hpb, hpc, hpq, hbc, hca, hne⟩
    obtain ⟨h₁, h₂, h₃⟩ := h.acyclic a ha b hb c hc
      (by rw [cmp_of_pids hpa hpb]; exact compare_le_iff_le.mpr hpq)
      (by rw [cmp_of_rank (.inr hpc)]; exact compare_le_iff_le.mpr hbc)
      (by rw [cmp_of_rank (.inl hpc)]; exact compare_le_iff_le.mpr hca)
    rw [cmp_of_pids hpa hpb, compare_eq_iff_eq] at h₁
    rw [cmp_of_rank (.inr hpc), compare_eq_iff_eq] at h₂
    rw [cmp_of_rank (.inl hpc), compare_eq_iff_eq] at h₃
    exact hne ⟨h₁, h₂, h₃⟩
  · exact fun h => (acyclic_of_no_circle h).lawful

/-- Pid 1 is before pid 2 of group 1, which is before group 5; but group 5 is before pid 1. -/
theorem pid_and_group_circle :
    cmp ⟨some 1, none⟩ ⟨some 2, some 1⟩ = .lt ∧ cmp ⟨some 2, some 1⟩ ⟨none, some 5⟩ = .lt ∧
      cmp ⟨some 1, none⟩ ⟨none, some 5⟩ = .gt ∧ ¬ Lawful Set.univ := by
  refine ⟨rfl, rfl, rfl, fun h => ?_⟩
  have hlt := h.lt_trans ⟨some 1, none⟩ trivial ⟨some 2, some 1⟩ trivial ⟨none, some 5⟩ trivial rfl rfl
  cases hlt

end WaitpidKey

end Faastr.Sched
