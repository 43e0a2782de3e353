import Hieratika.Foundations.Ring

/-!
# Going round a ring

A cursor goes round a ring of `n` places, `k` places in a turn, and each place remembers the turn in
which it was visited last. Behind `t` turns the places that are more than `n - t * k` steps ahead of the
cursor have been visited in one of them (`Visited`): a turn makes it one turn more (`visited_turn`), so
`n / k` turns, rounded up, visit every place (`visited_all`). The places may be visited in between as well.
-/

namespace Hieratika.Foundations

variable {n k cur turn t : ℕ} {last last' : ℕ → ℕ}

/-- The places that the last `t` turns of `k` have passed were visited in one of them. -/
def Visited (n k cur turn : ℕ) (last : ℕ → ℕ) (t : ℕ) : Prop :=
  ∀ d < n, d + t * k < n ∨ turn < last (ringPos n cur d) + t

theorem visited_zero : Visited n k cur turn last 0 := fun d hd => .inl (by simpa using hd)

/-- **One turn more** visits the next `k` places. -/
theorem visited_turn (h : Visited n k cur turn last t)
    (hkept : ∀ d < n, last (ringPos n cur d) ≤ last' (ringPos n cur d))
    (hnew : ∀ d < k, last' (ringPos n cur d) = turn + 1) :
    Visited n k (ringPos n cur k) (turn + 1) last' (t + 1) := by
  intro d hd
  rw [ringPos_ringPos]
  rcases Nat.lt_or_ge (k + d) n with hlt | hge
  · rcases h (k + d) hlt with hahead | hvisited
    · left
      rw [Nat.succ_mul]
      omega
    · have hle := hkept (k + d) hlt
      omega
  · have hback : ringPos n cur (k + d) = ringPos n cur (k + d - n) := by
      rw [← ringPos_mod (d := k + d), Nat.mod_eq_sub_mod hge, ringPos_mod]
    rw [hback, hnew _ (by omega)]
    omega

/-- Enough turns visit every place. -/
theorem visited_all (hcur : cur < n) (hall : n ≤ t * k) (h : Visited n k cur turn last t) {x : ℕ}
    (hx : x < n) :
    turn < last x + t := by
  obtain ⟨d, hd, rfl⟩ := exists_ringPos hcur hx
  rcases h d hd with hahead | hvisited
  · omega
  · exact hvisited

end Hieratika.Foundations
