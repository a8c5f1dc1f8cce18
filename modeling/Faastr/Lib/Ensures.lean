import Mathlib.Order.Defs.Unbundled

/-!
Partial correctness of code that changes a state and may fail.

`Ensures x s Q` says that `Q` holds of the result and the state whenever `x`, started in
`s`, returns. `Keeps R x` says the same of a relation between the state before and the
state after; when `R` is a preorder it is kept by every sequence of code that keeps it.
-/

namespace Faastr.Lib

variable {σ ε α β : Type} {x : StateT σ (Except ε) α} {f : α → StateT σ (Except ε) β} {s : σ}

theorem run_bind {a : α} {s' : σ} (h : x.run s = .ok (a, s')) :
    (x >>= f).run s = (f a).run s' := by
  rw [StateT.run_bind, h]
  rfl

theorem run_bind_error {e : ε} (h : x.run s = .error e) : (x >>= f).run s = .error e := by
  rw [StateT.run_bind, h]
  rfl

theorem run_bind_eq_ok {b : β} {s₂ : σ} (h : (x >>= f).run s = .ok (b, s₂)) :
    ∃ a s₁, x.run s = .ok (a, s₁) ∧ (f a).run s₁ = .ok (b, s₂) := by
  rw [StateT.run_bind] at h
  cases hx : x.run s with
  | error e =>
    rw [hx] at h
    cases h
  | ok r =>
    rw [hx] at h
    exact ⟨r.1, r.2, rfl, h⟩

/-- A loop with one round more. -/
theorem forM_concat {l : List β} {b : β} {body : β → StateT σ (Except ε) PUnit} :
    (l ++ [b]).forM body = (do
      l.forM body
      body b) := by
  rw [List.forM_eq_forM, List.forM_append, ← List.forM_eq_forM]
  exact bind_congr fun _ => bind_pure _

/-- When the code returns, `Q` holds. -/
def Ensures (x : StateT σ (Except ε) α) (s : σ) (Q : α → σ → Prop) : Prop :=
  ∀ a s', x.run s = .ok (a, s') → Q a s'

namespace Ensures

variable {Q Q' : α → σ → Prop} {Q₂ : β → σ → Prop}

theorem pure {a : α} (h : Q a s) : Ensures (Pure.pure a : StateT σ (Except ε) α) s Q := by
  intro a' s' hrun
  cases hrun
  exact h

theorem throw (e : ε) : Ensures (MonadExcept.throw e : StateT σ (Except ε) α) s Q := by
  intro a s' hrun
  cases hrun

theorem any : Ensures x s fun _ _ => True := fun _ _ _ => trivial

theorem get {Q : σ → σ → Prop} (h : Q s s) :
    Ensures (MonadState.get : StateT σ (Except ε) σ) s Q := by
  intro a s' hrun
  cases hrun
  exact h

theorem set {s' : σ} {Q : PUnit → σ → Prop} (h : Q ⟨⟩ s') :
    Ensures (MonadStateOf.set s' : StateT σ (Except ε) PUnit) s Q := by
  intro a s'' hrun
  cases hrun
  exact h

theorem of_modify {g : σ → σ} {Q : PUnit → σ → Prop} (h : Q ⟨⟩ (g s)) :
    Ensures (modify g : StateT σ (Except ε) PUnit) s Q := by
  intro a s' hrun
  cases hrun
  exact h

theorem bind (h : Ensures x s fun a s' => Ensures (f a) s' Q₂) : Ensures (x >>= f) s Q₂ := by
  intro b s' hrun
  obtain ⟨a, s₁, hx, hf⟩ := run_bind_eq_ok hrun
  exact h a s₁ hx b s' hf

/-- What the first part ensures is all that the second may assume. -/
theorem seq (h : Ensures x s Q) (hf : ∀ a s', Q a s' → Ensures (f a) s' Q₂) :
    Ensures (x >>= f) s Q₂ :=
  .bind fun a s' hrun => hf a s' (h a s' hrun)

theorem mono (h : Ensures x s Q) (hQ : ∀ a s', Q a s' → Q' a s') : Ensures x s Q' :=
  fun a s' hrun => hQ a s' (h a s' hrun)

theorem map {g : α → β} (h : Ensures x s fun a s' => Q₂ (g a) s') : Ensures (g <$> x) s Q₂ := by
  rw [← bind_pure_comp]
  exact bind (h.mono fun a s' ha => pure ha)

theorem and (h : Ensures x s Q) (h' : Ensures x s Q') : Ensures x s fun a s' => Q a s' ∧ Q' a s' :=
  fun a s' hrun => ⟨h a s' hrun, h' a s' hrun⟩

/-- A loop with a result for each element. What a round ensures of the states before and after
it is taken to hold of states further apart. -/
theorem mapM {R : σ → σ → Prop} [IsPreorder σ R] {I : σ → Prop} {P : β → α → σ → σ → Prop}
    {l : List β} {body : β → StateT σ (Except ε) α} (hI : ∀ s s', I s → R s s' → I s')
    (hP : ∀ b a s₀ s s' s₁, R s₀ s → P b a s s' → R s' s₁ → P b a s₀ s₁)
    (h : ∀ b ∈ l, ∀ s, I s → Ensures (body b) s fun a s' => R s s' ∧ P b a s s') (hs : I s) :
    Ensures (l.mapM body) s fun as s' => R s s' ∧ ∀ a ∈ as, ∃ b ∈ l, P b a s s' := by
  induction l generalizing s with
  | nil => exact .pure ⟨refl_of R s, by simp⟩
  | cons b l ih =>
    rw [List.mapM_cons]
    refine .seq (h b List.mem_cons_self s hs) fun a s₁ ⟨hR₁, hP₁⟩ => ?_
    have hrest := ih (fun c hc => h c (List.mem_cons_of_mem b hc)) (hI s s₁ hs hR₁)
    refine .seq hrest fun as s' ⟨hR, hall⟩ => .pure ⟨trans_of R hR₁ hR, fun a' ha' => ?_⟩
    cases ha' with
    | head => exact ⟨b, List.mem_cons_self, hP b a s s s₁ s' (refl_of R s) hP₁ hR⟩
    | tail _ ha' =>
      obtain ⟨c, hc, hc'⟩ := hall a' ha'
      exact ⟨c, List.mem_cons_of_mem b hc, hP c a' s s₁ s' s' hR₁ hc' (refl_of R s')⟩

end Ensures

/-- The code returns, and what it leaves passes a test. -/
def finds (x : StateT σ (Except ε) α) (s : σ) (test : α → σ → Bool) : Bool :=
  match x.run s with
  | .ok (a, s') => test a s'
  | .error _ => false

theorem exists_of_finds {test : α → σ → Bool} (h : finds x s test = true) :
    ∃ a s', x.run s = .ok (a, s') ∧ test a s' = true := by
  unfold finds at h
  split at h
  · next a s' hrun => exact ⟨a, s', hrun, h⟩
  · cases h

/-- The code fails with this error. -/
def throws [DecidableEq ε] (x : StateT σ (Except ε) α) (s : σ) (e : ε) : Bool :=
  match x.run s with
  | .ok _ => false
  | .error e' => e' = e

theorem run_of_throws [DecidableEq ε] {e : ε} (h : throws x s e = true) : x.run s = .error e := by
  unfold throws at h
  split at h
  · cases h
  · next hrun => rw [hrun, of_decide_eq_true h]

/-- Every run of the code relates the state before to the state after. -/
def Keeps (R : σ → σ → Prop) (x : StateT σ (Except ε) α) : Prop :=
  ∀ s, Ensures x s fun _ s' => R s s'

namespace Keeps

variable {R : σ → σ → Prop}

theorem throw (e : ε) : Keeps R (MonadExcept.throw e : StateT σ (Except ε) α) :=
  fun _ => .throw e

theorem of_modify {g : σ → σ} (h : ∀ s, R s (g s)) :
    Keeps R (modify g : StateT σ (Except ε) PUnit) :=
  fun s => .of_modify (h s)

variable [IsPreorder σ R]

theorem pure (a : α) : Keeps R (Pure.pure a : StateT σ (Except ε) α) :=
  fun s => .pure (refl_of R s)

theorem bind (hx : Keeps R x) (hf : ∀ a, Keeps R (f a)) : Keeps R (x >>= f) :=
  fun s => .bind fun a s₁ hrun b s₂ hrun₂ => trans_of R (hx s a s₁ hrun) (hf a s₁ b s₂ hrun₂)

end Keeps

end Faastr.Lib
