import Mathlib.Data.Nat.Basic
import Mathlib.Logic.Relation

/-!
# Runs of a transition system, and loops

A system is a step relation on a type of states; `Reachable step s₀ s` says that some
run from `s₀` ends in `s`. `Reachable.invariant` is the induction every safety proof
uses: what holds at the start and is kept by a step holds of every reachable state.
`Guarded step g` keeps the steps that meet a condition `g`.

A `while` loop is a function that makes one turn: it goes round again with a new
state, or leaves with a result. `Ends body s r` says that the loop started in `s`
ends with `r`; it is a relation because a loop need not end.
-/

namespace Hieratika.Foundations

open Relation

variable {σ ρ : Type*}

/-! ### Runs -/

/-- Some run from `s₀` ends in `s`. -/
def Reachable (step : σ → σ → Prop) (s₀ s : σ) : Prop := ReflTransGen step s₀ s

/-- The steps that meet the condition `g`. -/
def Guarded (step g : σ → σ → Prop) (s s' : σ) : Prop := step s s' ∧ g s s'

variable {step g : σ → σ → Prop} {s₀ s t : σ}

theorem Reachable.refl : Reachable step s s := ReflTransGen.refl

theorem Reachable.next (h : Reachable step s₀ s) (hs : step s t) : Reachable step s₀ t :=
  ReflTransGen.tail h hs

theorem Reachable.trans (h : Reachable step s₀ s) (h' : Reachable step s t) : Reachable step s₀ t :=
  ReflTransGen.trans h h'

/-- **The invariant rule**: what holds at the start and is kept by every step holds of
every reachable state. -/
theorem Reachable.invariant {I : σ → Prop} (h : Reachable step s₀ s) (h₀ : I s₀)
    (hstep : ∀ a b, I a → step a b → I b) : I s := by
  induction h with
  | refl => exact h₀
  | tail _ hs ih => exact hstep _ _ ih hs

/-- A run of one system is a run of any system that has its steps. -/
theorem Reachable.mono {step' : σ → σ → Prop} (hstep : ∀ a b, step a b → step' a b)
    (h : Reachable step s₀ s) : Reachable step' s₀ s := by
  induction h with
  | refl => exact .refl
  | tail _ hs ih => exact ih.next (hstep _ _ hs)

/-! ### Loops -/

/-- One turn of a loop. -/
inductive Turn (σ ρ : Type*) where
  /-- Go round again, in a new state. -/
  | again (s : σ)
  /-- Leave with a result. -/
  | leave (r : ρ)

/-- The loop started in `s` ends with `r`. -/
inductive Ends (body : σ → Turn σ ρ) : σ → ρ → Prop where
  /-- The turn leaves. -/
  | leave {s : σ} {r : ρ} : body s = .leave r → Ends body s r
  /-- The turn goes round, and the loop ends from there. -/
  | again {s s' : σ} {r : ρ} : body s = .again s' → Ends body s' r → Ends body s r

variable {body : σ → Turn σ ρ} {r r' : ρ}

/-- A loop ends with one result. -/
theorem Ends.unique (h : Ends body s r) (h' : Ends body s r') : r = r' := by
  induction h with
  | leave hb =>
    cases h' with
    | leave hb' => rw [hb] at hb'; cases hb'; rfl
    | again hb' _ => rw [hb] at hb'; cases hb'
  | again hb _ ih =>
    cases h' with
    | leave hb' => rw [hb] at hb'; cases hb'
    | again hb' h' => rw [hb] at hb'; cases hb'; exact ih h'

/-- What holds at the start and is kept by every turn that goes round gives what holds of the result. -/
theorem Ends.post {I : σ → Prop} {Q : ρ → Prop} (h : Ends body s r) (hs : I s)
    (hagain : ∀ a b, I a → body a = .again b → I b) (hleave : ∀ a e, I a → body a = .leave e → Q e) :
    Q r := by
  induction h with
  | leave hb => exact hleave _ _ hs hb
  | again hb _ ih => exact ih (hagain _ _ hs hb)

/-- A loop that ends ends from every state that it comes through. -/
theorem Ends.along (h : Reachable (fun a b => body a = .again b) s t) (he : Ends body s r) :
    Ends body t r := by
  induction h with
  | refl => exact he
  | tail _ hb ih =>
    cases ih with
    | leave hb' => rw [hb] at hb'; cases hb'
    | again hb' h' => rw [hb] at hb'; cases hb'; exact h'

/-- **The loop rule**: a loop ends if every turn that goes round keeps the invariant and makes the measure
smaller. -/
theorem exists_ends {I : σ → Prop} (μ : σ → ℕ) (hagain : ∀ a b, I a → body a = .again b → I b ∧ μ b < μ a)
    (hs : I s) : ∃ e, Ends body s e := by
  generalize hn : μ s = n
  induction n using Nat.strong_induction_on generalizing s with
  | _ n ih =>
    cases hb : body s with
    | leave e => exact ⟨e, .leave hb⟩
    | again t =>
      obtain ⟨ht, hlt⟩ := hagain s t hs hb
      obtain ⟨e, he⟩ := ih (μ t) (hn ▸ hlt) ht rfl
      exact ⟨e, .again hb he⟩

end Hieratika.Foundations
