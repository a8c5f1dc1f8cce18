import Faastr.Lib.Ensures

/-!
Code whose outcome a condition decides.

`Decided Good x s c Q` says of code that changes a state and may fail: under the condition `c`
it returns, in a good state and with a result for which `Q` holds; and otherwise it does not end
in a good state, be it that it fails or that the state is spoilt. What is spoilt stays spoilt
(`Later`), so the conditions of a sequence add up (`Decided.bind`).
-/

namespace Faastr.Lib

variable {σ ε α β : Type} {Good : σ → Prop} {x : StateT σ (Except ε) α}
  {f : α → StateT σ (Except ε) β} {s : σ} {c d : Prop} {a : α}
  {Q : α → σ → Prop} {Q₂ : β → σ → Prop}

/-- A good state comes after good states only. -/
def Later (Good : σ → Prop) (s s' : σ) : Prop := Good s' → Good s

instance : IsPreorder σ (Later Good) where
  refl _ := id
  trans _ _ _ h h' := h ∘ h'

theorem Keeps.guard {R : σ → σ → Prop} [IsPreorder σ R] [Decidable c] {e : ε} :
    Keeps R (if c then Pure.pure a else MonadExcept.throw e : StateT σ (Except ε) α) := by
  split
  · exact .pure a
  · exact .throw e

/-- The condition decides whether the code returns in a good state. -/
structure Decided (Good : σ → Prop) (x : StateT σ (Except ε) α) (s : σ) (c : Prop)
    (Q : α → σ → Prop) : Prop where
  returns : c → ∃ a s', x.run s = .ok (a, s') ∧ Good s' ∧ Q a s'
  fails : ¬ c → ∀ a s', x.run s = .ok (a, s') → ¬ Good s'

namespace Decided

theorem pure (hs : Good s) (hQ : Q a s) :
    Decided Good (Pure.pure a : StateT σ (Except ε) α) s True Q :=
  ⟨fun _ => ⟨a, s, rfl, hs, hQ⟩, fun h => absurd trivial h⟩

/-- A check decides. -/
theorem guard [Decidable c] {e : ε} (hs : Good s) (hQ : Q a s) :
    Decided Good (if c then Pure.pure a else MonadExcept.throw e : StateT σ (Except ε) α) s c Q := by
  split
  · next h => exact ⟨fun _ => ⟨a, s, rfl, hs, hQ⟩, fun hnot => absurd h hnot⟩
  · next h =>
    refine ⟨fun hc => absurd hc h, fun _ b s' hrun => ?_⟩
    cases hrun

theorem congr (h : Decided Good x s c Q) (hiff : c ↔ d) : Decided Good x s d Q :=
  propext hiff ▸ h

theorem mono {Q' : α → σ → Prop} (h : Decided Good x s c Q)
    (hQ : c → ∀ a s', Q a s' → Q' a s') : Decided Good x s c Q' := by
  refine ⟨fun hc => ?_, h.fails⟩
  obtain ⟨a, s', hrun, hgood, hres⟩ := h.returns hc
  exact ⟨a, s', hrun, hgood, hQ hc a s' hres⟩

theorem ensures (h : Decided Good x s c Q) (hc : c) : Ensures x s fun a s' => Good s' ∧ Q a s' := by
  intro a s' hrun
  obtain ⟨a', s'', hrun', hgood, hQ⟩ := h.returns hc
  cases hrun.symm.trans hrun'
  exact ⟨hgood, hQ⟩

/-- The conditions of a sequence add up. -/
theorem bind (hx : Decided Good x s c Q)
    (hf : ∀ a s₁, Good s₁ → Q a s₁ → Decided Good (f a) s₁ d Q₂)
    (hlater : ∀ a, Keeps (Later Good) (f a)) : Decided Good (x >>= f) s (c ∧ d) Q₂ := by
  constructor
  · rintro ⟨hc, hd⟩
    obtain ⟨a, s₁, hrun, hgood, hQ⟩ := hx.returns hc
    obtain ⟨b, s₂, hrun₂, hgood₂, hQ₂⟩ := (hf a s₁ hgood hQ).returns hd
    exact ⟨b, s₂, (run_bind hrun).trans hrun₂, hgood₂, hQ₂⟩
  · intro hnot b s₂ hrun hgood₂
    obtain ⟨a, s₁, hrun₁, hrun₂⟩ := run_bind_eq_ok hrun
    have hgood₁ : Good s₁ := hlater a s₁ b s₂ hrun₂ hgood₂
    by_cases hc : c
    · obtain ⟨-, hQ⟩ := hx.ensures hc a s₁ hrun₁
      exact (hf a s₁ hgood₁ hQ).fails (fun hd => hnot ⟨hc, hd⟩) b s₂ hrun₂ hgood₂
    · exact hx.fails hc a s₁ hrun₁ hgood₁

/-- A step that returns anyway decides nothing. -/
theorem after {s₁ : σ} (hrun : x.run s = .ok (a, s₁)) (h : Decided Good (f a) s₁ d Q₂) :
    Decided Good (x >>= f) s d Q₂ := by
  refine ⟨fun hd => ?_, fun hd b' s' hrun' => h.fails hd b' s' ((run_bind hrun).symm.trans hrun')⟩
  obtain ⟨b, s₂, hrun₂, hgood, hQ⟩ := h.returns hd
  exact ⟨b, s₂, (run_bind hrun).trans hrun₂, hgood, hQ⟩

/-- Whether the code returns in a good state with an outcome of some kind, when `Q` decides that. -/
theorem exists_iff (h : Decided Good x s c Q) {P : α → σ → Prop} {e : Prop}
    (hP : c → ∀ a s', Q a s' → (P a s' ↔ e)) :
    (∃ a s', x.run s = .ok (a, s') ∧ Good s' ∧ P a s') ↔ c ∧ e := by
  constructor
  · rintro ⟨a, s', hrun, hgood, hPa⟩
    have hc : c := Classical.byContradiction fun hc => h.fails hc a s' hrun hgood
    exact ⟨hc, (hP hc a s' (h.ensures hc a s' hrun).2).mp hPa⟩
  · rintro ⟨hc, he⟩
    obtain ⟨a, s', hrun, hgood, hQ⟩ := h.returns hc
    exact ⟨a, s', hrun, hgood, (hP hc a s' hQ).mpr he⟩

end Decided

end Faastr.Lib
