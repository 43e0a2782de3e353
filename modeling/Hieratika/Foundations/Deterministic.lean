import Hieratika.Foundations.Runs
import Mathlib.Order.Defs.PartialOrder

/-!
# Deterministic systems

A system is deterministic when every state has at most one step. Its runs from a state are then
parts of one run: of two states on them one comes behind the other, and all of them lead to the
same final state, if there is one. What every step makes larger is smaller in the state that comes first.
-/

namespace Hieratika.Foundations

open Relation

variable {σ α : Type*} {step : σ → σ → Prop} {s t u : σ}

/-- Every state has at most one step. -/
def Deterministic (step : σ → σ → Prop) : Prop := ∀ ⦃s t u⦄, step s t → step s u → t = u

/-- No step is left. -/
def Final (step : σ → σ → Prop) (s : σ) : Prop := ∀ t, ¬ step s t

theorem Reachable.head (hs : step s t) (h : Reachable step t u) : Reachable step s u :=
  ReflTransGen.head hs h

/-- A run makes a first step, unless it ends where it starts. -/
theorem Reachable.cases_head (h : Reachable step s t) : s = t ∨ ∃ u, step s u ∧ Reachable step u t :=
  ReflTransGen.cases_head h

theorem Reachable.eq_of_final (h : Reachable step s t) (hs : Final step s) : t = s := by
  rcases h.cases_head with rfl | ⟨u, hu, -⟩
  · rfl
  · exact absurd hu (hs u)

/-- **One run**: of two states that are reached, one comes behind the other. -/
theorem Reachable.total (hd : Deterministic step) (ht : Reachable step s t) (hu : Reachable step s u) :
    Reachable step t u ∨ Reachable step u t :=
  ReflTransGen.total_of_right_unique (fun _ _ _ h h' => hd h h') ht hu

/-- A final state comes behind every other state of the run. -/
theorem Reachable.to_final (hd : Deterministic step) (ht : Reachable step s t) (hf : Final step t)
    (hu : Reachable step s u) : Reachable step u t := by
  rcases ht.total hd hu with h | h
  · rw [h.eq_of_final hf]
    exact .refl
  · exact h

theorem Reachable.final_unique (hd : Deterministic step) (ht : Reachable step s t) (hf : Final step t)
    (hu : Reachable step s u) (hf' : Final step u) : t = u :=
  (ht.to_final hd hf hu).eq_of_final hf'

/-- What every step makes larger, a run makes larger. -/
theorem Reachable.le_of_step [Preorder α] {f : σ → α} (hf : ∀ a b, step a b → f a ≤ f b)
    (h : Reachable step s t) : f s ≤ f t :=
  h.invariant (I := fun a => f s ≤ f a) le_rfl fun a b hi hs => le_trans hi (hf a b hs)

/-- Steps that a map takes to steps make runs that it takes to runs. -/
theorem Reachable.map {τ : Type*} {step' : τ → τ → Prop} {f : σ → τ}
    (hf : ∀ a b, step a b → step' (f a) (f b)) (h : Reachable step s t) : Reachable step' (f s) (f t) :=
  h.invariant (I := fun a => Reachable step' (f s) (f a)) .refl fun a b hi hs => hi.next (hf a b hs)

end Hieratika.Foundations
