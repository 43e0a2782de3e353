import Mathlib.Data.Finset.Insert
import Mathlib.Data.Finset.Erase
import Mathlib.Logic.Function.Basic

/-!
# Objects and their owners

Objects that are created and deleted by hand. Each owner holds one pointer at most. As long as an owner
creates only when it holds nothing, and uses or deletes only what it holds, no deleted object is used, no
object has two owners, and none is lost (`Heap.Owned`).
-/

namespace Hieratika.Foundations

/-- The objects, named in the order of their creation. -/
structure Heap where
  created : ℕ
  live : Finset ℕ
  /-- A pointer to no object, or to a deleted one, was used. -/
  misused : Bool

namespace Heap

/-- No object was created. -/
def empty : Heap := ⟨0, ∅, false⟩

/-- `new`; the pointer is `created`. -/
def new (h : Heap) : Heap := { h with created := h.created + 1, live := insert h.created h.live }

/-- An operation on the object behind a pointer; `none` is `NULL`. -/
def use (h : Heap) (p : Option ℕ) : Heap :=
  { h with misused := h.misused || !p.any fun a => a ∈ h.live }

/-- `delete`. -/
def delete (h : Heap) (p : Option ℕ) : Heap :=
  { h.use p with live := match p with | none => h.live | some a => h.live.erase a }

variable {ι : Type*} [DecidableEq ι] {h : Heap} {holder : ι → Option ℕ} {k : ι} {a : ℕ}

/-- Every object has one owner, and every owner's pointer is good. -/
structure Owned {ι : Type*} (h : Heap) (holder : ι → Option ℕ) : Prop where
  unmisused : h.misused = false
  live_iff : ∀ a, a ∈ h.live ↔ ∃ k, holder k = some a
  alone : ∀ k j a, holder k = some a → holder j = some a → k = j
  fresh : ∀ a ∈ h.live, a < h.created

omit [DecidableEq ι] in
theorem owned_empty : Heap.empty.Owned fun _ : ι => none where
  unmisused := rfl
  live_iff := by simp [empty]
  alone := by simp
  fresh := by simp [empty]

omit [DecidableEq ι] in
/-- Every object has exactly one owner. -/
theorem Owned.existsUnique (hh : h.Owned holder) (ha : a ∈ h.live) : ∃! k, holder k = some a := by
  obtain ⟨k, hk⟩ := (hh.live_iff a).mp ha
  exact ⟨k, hk, fun j hj => hh.alone j k a hj hk⟩

omit [DecidableEq ι] in
/-- What nobody holds is not there. -/
theorem Owned.live_eq_empty (hh : h.Owned holder) (hnone : ∀ k, holder k = none) : h.live = ∅ := by
  refine Finset.eq_empty_of_forall_notMem fun a ha => ?_
  obtain ⟨k, hk⟩ := (hh.live_iff a).mp ha
  rw [hnone k] at hk
  cases hk

omit [DecidableEq ι] in
/-- An owner may use what it holds. -/
theorem Owned.use_eq (hh : h.Owned holder) (hk : holder k = some a) : h.use (some a) = h := by
  have hlive : a ∈ h.live := (hh.live_iff a).mpr ⟨k, hk⟩
  simp [use, hlive]

/-- **An owner without an object** may create one. -/
theorem Owned.new (hh : h.Owned holder) (hk : holder k = none) :
    h.new.Owned (Function.update holder k (some h.created)) where
  unmisused := hh.unmisused
  live_iff := by
    intro a
    rw [Heap.new, Finset.mem_insert, hh.live_iff]
    constructor
    · rintro (rfl | ⟨j, hj⟩)
      · exact ⟨k, Function.update_self _ _ _⟩
      · have hne : j ≠ k := by
          rintro rfl
          rw [hk] at hj
          cases hj
        exact ⟨j, by rw [Function.update_of_ne hne, hj]⟩
    · rintro ⟨j, hj⟩
      by_cases hjk : j = k
      · rw [hjk, Function.update_self] at hj
        cases hj
        exact Or.inl rfl
      · rw [Function.update_of_ne hjk] at hj
        exact Or.inr ⟨j, hj⟩
  alone := by
    intro i j a hi hj
    have hold : ∀ i, i ≠ k → Function.update holder k (some h.created) i = some a → a < h.created := by
      intro i hik hi
      rw [Function.update_of_ne hik] at hi
      exact hh.fresh a ((hh.live_iff a).mpr ⟨i, hi⟩)
    by_cases hik : i = k
    · by_cases hjk : j = k
      · rw [hik, hjk]
      · have hlt := hold j hjk hj
        rw [hik, Function.update_self, Option.some.injEq] at hi
        exact absurd hi hlt.ne'
    · by_cases hjk : j = k
      · have hlt := hold i hik hi
        rw [hjk, Function.update_self, Option.some.injEq] at hj
        exact absurd hj hlt.ne'
      · rw [Function.update_of_ne hik] at hi
        rw [Function.update_of_ne hjk] at hj
        exact hh.alone i j a hi hj
  fresh := by
    intro a ha
    rcases Finset.mem_insert.mp ha with rfl | ha
    · exact Nat.lt_succ_self _
    · exact (hh.fresh a ha).trans (Nat.lt_succ_self _)

/-- **An owner** may delete what it holds, and then holds nothing. -/
theorem Owned.delete (hh : h.Owned holder) (hk : holder k = some a) :
    (h.delete (some a)).Owned (Function.update holder k none) where
  unmisused := by
    rw [Heap.delete, hh.use_eq hk]
    exact hh.unmisused
  live_iff := by
    intro b
    show b ∈ h.live.erase a ↔ _
    rw [Finset.mem_erase, hh.live_iff]
    constructor
    · rintro ⟨hne, j, hj⟩
      have hjk : j ≠ k := by
        rintro rfl
        exact hne (Option.some.inj (hj.symm.trans hk))
      exact ⟨j, by rw [Function.update_of_ne hjk, hj]⟩
    · rintro ⟨j, hj⟩
      by_cases hjk : j = k
      · rw [hjk, Function.update_self] at hj
        cases hj
      · rw [Function.update_of_ne hjk] at hj
        refine ⟨?_, j, hj⟩
        rintro rfl
        exact hjk (hh.alone j k b hj hk)
  alone := by
    intro i j b hi hj
    have hold : ∀ i, Function.update holder k none i = some b → holder i = some b := by
      intro i hi
      by_cases hik : i = k
      · rw [hik, Function.update_self] at hi
        cases hi
      · rwa [Function.update_of_ne hik] at hi
    exact hh.alone i j b (hold i hi) (hold j hj)
  fresh := fun b hb => hh.fresh b (Finset.mem_of_mem_erase hb)

end Heap

end Hieratika.Foundations
