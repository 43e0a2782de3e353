import Mathlib.Data.List.Range
import Mathlib.Data.Nat.Basic
import Mathlib.Logic.Function.Basic
import Mathlib.Tactic.SplitIfs

/-!
# Scans

`scan body beg stop` is the loop `for (i = beg; i < stop; i++)` whose turn rewrites entry `i` of
a table and an accumulator. When `A i` is the accumulator before turn `i`, every turn sees the
entry as it was before the loop, and the loop is known from its turns (`scan_eq`).
-/

namespace Hieratika.Foundations

variable {α β : Type*}

/-- One turn. -/
def scanTurn (body : ℕ → α → β → α × β) (x : (ℕ → α) × β) (i : ℕ) : (ℕ → α) × β :=
  let y := body i (x.1 i) x.2
  (Function.update x.1 i y.1, y.2)

/-- All the turns. -/
def scan (body : ℕ → α → β → α × β) (beg stop : ℕ) (x : (ℕ → α) × β) : (ℕ → α) × β :=
  (List.range' beg (stop - beg)).foldl (scanTurn body) x

/-- The table after the turns up to `stop`. -/
def scanned (body : ℕ → α → β → α × β) (A : ℕ → β) (v : ℕ → α) (beg stop j : ℕ) : α :=
  if beg ≤ j ∧ j < stop then (body j (v j) (A j)).1 else v j

variable {body : ℕ → α → β → α × β} {A : ℕ → β} {v : ℕ → α} {beg stop j : ℕ}

theorem scanned_of_mem (h : beg ≤ j) (h' : j < stop) : scanned body A v beg stop j = (body j (v j) (A j)).1 :=
  if_pos ⟨h, h'⟩

theorem scanned_of_notMem (h : j < beg ∨ stop ≤ j) : scanned body A v beg stop j = v j := if_neg (by omega)

theorem scanned_self : scanned body A v beg beg = v := funext fun _ => scanned_of_notMem (by omega)

theorem scanned_succ (h : beg ≤ stop) :
    Function.update (scanned body A v beg stop) stop (body stop (v stop) (A stop)).1 =
      scanned body A v beg (stop + 1) := by
  funext j
  by_cases hj : j = stop
  · subst hj
    rw [Function.update_self, scanned_of_mem h (Nat.lt_succ_self _)]
  · rw [Function.update_of_ne hj]
    unfold scanned
    split_ifs
    any_goals rfl
    all_goals omega

/-- **The loop from its turns.** -/
theorem scan_eq (body : ℕ → α → β → α × β) (v : ℕ → α) (A : ℕ → β) (hle : beg ≤ stop)
    (hA : ∀ i, beg ≤ i → i < stop → (body i (v i) (A i)).2 = A (i + 1)) :
    scan body beg stop (v, A beg) = (scanned body A v beg stop, A stop) := by
  obtain ⟨n, rfl⟩ := Nat.exists_eq_add_of_le hle
  unfold scan
  rw [Nat.add_sub_cancel_left]
  induction n with
  | zero => exact Prod.ext scanned_self.symm rfl
  | succ n ih =>
    rw [List.range'_1_concat, List.foldl_append, ih (by omega) fun i hi hi' => hA i hi (by omega)]
    have hv : scanned body A v beg (beg + n) (beg + n) = v (beg + n) := scanned_of_notMem (.inr le_rfl)
    refine Prod.ext ?_ ?_
    · simp only [List.foldl_cons, List.foldl_nil, scanTurn, hv]
      exact scanned_succ (by omega)
    · simp only [List.foldl_cons, List.foldl_nil, scanTurn, hv]
      exact hA _ (by omega) (by omega)

end Hieratika.Foundations
