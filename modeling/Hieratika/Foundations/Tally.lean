import Mathlib.Data.Fintype.Card
import Mathlib.Data.Fintype.EquivFin
import Mathlib.Logic.Function.Basic

/-!
# Counting the parties in a state

A counter that every party increments once, when it enters some states that it does not leave, is the number
of parties in them (`tally`); it is full exactly when all of them are. As many distinct numbers
below a bound as there are parties are all the numbers (`exists_number`).
-/

namespace Hieratika.Foundations

variable {ι σ : Type*} [Fintype ι] [DecidableEq ι] {P : σ → Prop} [DecidablePred P] {f : ι → σ}
  {k : ι} {x : σ}

/-- How many parties are in a state with `P`. -/
def tally {ι σ : Type*} [Fintype ι] (P : σ → Prop) [DecidablePred P] (f : ι → σ) : ℕ :=
  (Finset.univ.filter fun k => P (f k)).card

/-- A party that stays in the states, or outside. -/
theorem tally_update_congr (h : P x ↔ P (f k)) : tally P (Function.update f k x) = tally P f := by
  unfold tally
  congr 1
  ext j
  by_cases hj : j = k
  · subst hj
    simp [h]
  · simp [hj]

/-- A party that enters. -/
theorem tally_update_enter (hk : ¬ P (f k)) (hx : P x) : tally P (Function.update f k x) = tally P f + 1 := by
  have hinsert : (Finset.univ.filter fun j => P (Function.update f k x j)) =
      insert k (Finset.univ.filter fun j => P (f j)) := by
    ext j
    by_cases hj : j = k
    · subst hj
      simp [hx]
    · simp [hj]
  rw [tally, hinsert, Finset.card_insert_of_notMem (by simpa using hk), tally]

omit [DecidableEq ι] in
theorem tally_le : tally P f ≤ Fintype.card ι := Finset.card_le_univ _

omit [DecidableEq ι] in
/-- Less than all, as long as one is outside. -/
theorem tally_lt (hk : ¬ P (f k)) : tally P f < Fintype.card ι :=
  Finset.card_lt_univ_of_notMem (x := k) (by simpa using hk)

omit [DecidableEq ι] in
theorem tally_eq_card_iff : tally P f = Fintype.card ι ↔ ∀ k, P (f k) := by
  constructor
  · intro h k
    by_contra hk
    exact (tally_lt hk).ne h
  · intro h
    rw [tally, Finset.filter_true_of_mem fun k _ => h k]
    rfl

omit [DecidableEq ι] in
theorem tally_eq_zero (h : ∀ k, ¬ P (f k)) : tally P f = 0 := by
  rw [tally, Finset.filter_false_of_mem fun k _ => h k]
  rfl

/-- **Distinct numbers** of `T` parties below `T` are all of them. -/
theorem exists_number {T : ℕ} {number : Fin T → ℕ} (hlt : ∀ k, number k < T)
    (hdistinct : Function.Injective number) {t : ℕ} (ht : t < T) : ∃! k, number k = t := by
  have hinj : Function.Injective fun k => (⟨number k, hlt k⟩ : Fin T) :=
    fun _ _ heq => hdistinct (Fin.mk.inj heq)
  obtain ⟨k, hk⟩ := Finite.injective_iff_surjective.mp hinj ⟨t, ht⟩
  exact ⟨k, Fin.mk.inj hk, fun j hj => hdistinct (hj.trans (Fin.mk.inj hk).symm)⟩

end Hieratika.Foundations
