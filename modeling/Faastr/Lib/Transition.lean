import Mathlib.Logic.Function.Basic
import Mathlib.Logic.Relation

/-!
Runs of a transition system.

A system is a step relation; a run is its reflexive transitive closure. What
holds at the start and is kept by every step holds at the end of every run
(`invariant_of_step`). A run given by a list of actions of an executable step
function is a run of any relation that contains the function's steps
(`reaches_of_foldlM`), so a concrete run can be evaluated. A step that changes a
function at one point is looked at there and elsewhere (`update_eq_cases`).
-/

namespace Faastr.Lib

open Relation

variable {σ Act : Type} {Step : σ → σ → Prop} {s s' : σ}

/-- What every step keeps, every run keeps. -/
theorem invariant_of_step (Inv : σ → Prop) (run : ReflTransGen Step s s') (start : Inv s)
    (step : ∀ ⦃a b⦄, Inv a → Step a b → Inv b) : Inv s' := by
  induction run with
  | refl => exact start
  | tail _ hstep ih => exact step ih hstep

/-- A list of actions that goes through is a run. -/
theorem reaches_of_foldlM {act : σ → Act → Option σ} {as : List Act}
    (sound : ∀ a ∈ as, ∀ ⦃x y⦄, act x a = some y → Step x y)
    (run : as.foldlM act s = some s') : ReflTransGen Step s s' := by
  induction as generalizing s with
  | nil =>
    cases run
    exact .refl
  | cons a as ih =>
    rw [List.foldlM_cons] at run
    obtain ⟨m, hm, hrest⟩ := Option.bind_eq_some_iff.mp run
    exact .head (sound a (List.mem_cons_self ..) hm)
      (ih (fun b hb => sound b (List.mem_cons_of_mem a hb)) hrest)

theorem update_eq_cases {α β : Type} [DecidableEq α] {f : α → β} {a x : α} {b y : β}
    (h : Function.update f a b x = y) : x = a ∧ b = y ∨ x ≠ a ∧ f x = y := by
  rw [Function.update_apply] at h
  split at h
  · next hx => exact .inl ⟨hx, h⟩
  · next hx => exact .inr ⟨hx, h⟩

end Faastr.Lib
