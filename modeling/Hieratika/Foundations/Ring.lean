import Mathlib.Algebra.Group.End
import Mathlib.Data.Nat.ModEq
import Mathlib.Data.Set.Function

/-!
# Circular queues

A circular queue of `n` entries is a function on the positions below `n` together with
a start `cur`. `ringPos n cur d` is the position `d` steps after the start.

A program that sorts such a queue in place exchanges entries. `Rearranged S f f'` says
that `f'` is `f` with the entries at the positions of `S` permuted and all others left
where they were; exchanges compose (`Rearranged.trans`), keep the entries found in `S`
(`Rearranged.mem_iff`) and keep a queue a permutation (`Rearranged.bijOn`).
-/

namespace Hieratika.Foundations

/-! ### Positions on a ring -/

/-- The position `d` steps after `cur` on a ring of `n`. -/
def ringPos (n cur d : ℕ) : ℕ := (cur + d) % n

variable {n cur d e q : ℕ}

theorem ringPos_lt (hn : 0 < n) : ringPos n cur d < n := Nat.mod_lt _ hn

theorem ringPos_zero (h : cur < n) : ringPos n cur 0 = cur := Nat.mod_eq_of_lt h

/-- Steps add up. -/
theorem ringPos_ringPos : ringPos n (ringPos n cur d) e = ringPos n cur (d + e) := by
  simp [ringPos, Nat.add_assoc]

/-- A full turn comes back. -/
theorem ringPos_mod : ringPos n cur (d % n) = ringPos n cur d := by simp [ringPos]

/-- Every position is within one turn of the start. -/
theorem exists_ringPos (hc : cur < n) (hq : q < n) : ∃ d < n, ringPos n cur d = q := by
  by_cases h : cur ≤ q
  · exact ⟨q - cur, by omega, by rw [ringPos, show cur + (q - cur) = q by omega, Nat.mod_eq_of_lt hq]⟩
  · refine ⟨q + n - cur, by omega, ?_⟩
    rw [ringPos, show cur + (q + n - cur) = q + n by omega, Nat.add_mod_right, Nat.mod_eq_of_lt hq]

/-- Within one turn a position is met once. -/
theorem ringPos_inj (hd : d < n) (he : e < n) (h : ringPos n cur d = ringPos n cur e) : d = e := by
  have h' : d ≡ e [MOD n] := Nat.ModEq.add_left_cancel' cur h
  rwa [Nat.ModEq, Nat.mod_eq_of_lt hd, Nat.mod_eq_of_lt he] at h'

/-- The position before the one `d + 1` steps after the start. -/
theorem ringPos_pred (hn : 0 < n) :
    (if ringPos n cur (d + 1) = 0 then n - 1 else ringPos n cur (d + 1) - 1) = ringPos n cur d := by
  have hlt : (cur + d) % n < n := Nat.mod_lt _ hn
  have hstep : ringPos n cur (d + 1) = ((cur + d) % n + 1) % n := by
    simp [ringPos, ← Nat.add_assoc]
  rw [hstep]
  unfold ringPos
  by_cases hlast : (cur + d) % n + 1 = n
  · rw [hlast, Nat.mod_self, if_pos rfl]
    omega
  · rw [Nat.mod_eq_of_lt (show (cur + d) % n + 1 < n by omega), if_neg (by omega)]
    omega

/-! ### Rearranging entries -/

variable {α β : Type*}

/-- `f` with the entries at `a` and `b` exchanged. -/
def exchange [DecidableEq α] (f : α → β) (a b : α) : α → β :=
  fun x => if x = a then f b else if x = b then f a else f x

theorem exchange_eq [DecidableEq α] (f : α → β) (a b : α) :
    exchange f a b = fun x => f (Equiv.swap a b x) := by
  funext x
  unfold exchange
  by_cases ha : x = a
  · simp [ha]
  · by_cases hb : x = b
    · subst hb; simp [ha]
    · simp [ha, hb, Equiv.swap_apply_of_ne_of_ne ha hb]

/-- `f'` is `f` with the entries at the positions of `S` permuted. -/
def Rearranged (S : Set α) (f f' : α → β) : Prop :=
  ∃ σ : Equiv.Perm α, (∀ x, x ∉ S → σ x = x) ∧ ∀ x, f' x = f (σ x)

variable {S T : Set α} {f f' f'' : α → β}

theorem Rearranged.refl : Rearranged S f f := ⟨1, fun _ _ => rfl, fun _ => rfl⟩

theorem Rearranged.mono (h : Rearranged S f f') (hST : S ⊆ T) : Rearranged T f f' := by
  obtain ⟨σ, hfix, heq⟩ := h
  exact ⟨σ, fun x hx => hfix x fun hS => hx (hST hS), heq⟩

theorem Rearranged.trans (h : Rearranged S f f') (h' : Rearranged S f' f'') : Rearranged S f f'' := by
  obtain ⟨σ, hfix, heq⟩ := h
  obtain ⟨τ, hfix', heq'⟩ := h'
  refine ⟨σ * τ, fun x hx => ?_, fun x => ?_⟩
  · rw [Equiv.Perm.mul_apply, hfix' x hx, hfix x hx]
  · rw [heq', heq, Equiv.Perm.mul_apply]

/-- An exchange of two entries of `S`. -/
theorem Rearranged.exchange [DecidableEq α] {a b : α} (ha : a ∈ S) (hb : b ∈ S) :
    Rearranged S f (exchange f a b) := by
  refine ⟨Equiv.swap a b, fun x hx => ?_, fun x => by rw [exchange_eq]⟩
  exact Equiv.swap_apply_of_ne_of_ne (fun h => hx (h ▸ ha)) fun h => hx (h ▸ hb)

/-- Outside `S` nothing changes. -/
theorem Rearranged.of_notMem (h : Rearranged S f f') {x : α} (hx : x ∉ S) : f' x = f x := by
  obtain ⟨σ, hfix, heq⟩ := h
  rw [heq, hfix x hx]

/-- A permutation that fixes everything outside `S` keeps `S`. -/
theorem perm_mem {σ : Equiv.Perm α} (hfix : ∀ x, x ∉ S → σ x = x) {x : α} (hx : x ∈ S) : σ x ∈ S := by
  by_contra hc
  have := σ.injective (hfix _ hc)
  exact hc (this.symm ▸ hx)

/-- The entries found in `S` are the same. -/
theorem Rearranged.mem_iff (h : Rearranged S f f') (y : β) :
    (∃ x ∈ S, f' x = y) ↔ ∃ x ∈ S, f x = y := by
  obtain ⟨σ, hfix, heq⟩ := h
  constructor
  · rintro ⟨x, hx, rfl⟩
    exact ⟨σ x, perm_mem hfix hx, (heq x).symm⟩
  · rintro ⟨x, hx, rfl⟩
    refine ⟨σ.symm x, ?_, by rw [heq, Equiv.apply_symm_apply]⟩
    by_contra hc
    have hfx := hfix _ hc
    rw [Equiv.apply_symm_apply] at hfx
    exact hc (hfx ▸ hx)

/-- A queue stays a permutation. -/
theorem Rearranged.bijOn {U : Set β} (h : Rearranged S f f') (hST : S ⊆ T) (hb : Set.BijOn f T U) :
    Set.BijOn f' T U := by
  obtain ⟨σ, hfix, heq⟩ := h.mono hST
  have hσ : Set.BijOn σ T T := by
    refine ⟨fun x hx => perm_mem hfix hx, σ.injective.injOn, fun x hx => ⟨σ.symm x, ?_, by simp⟩⟩
    by_contra hc
    have hfx := hfix _ hc
    rw [Equiv.apply_symm_apply] at hfx
    exact hc (hfx ▸ hx)
  exact (hb.comp hσ).congr fun x _ => (heq x).symm

end Hieratika.Foundations
