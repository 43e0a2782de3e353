import Mathlib.Data.List.Pairwise
import Mathlib.Logic.Function.Basic

/-!
# Merged streams

Several sources write to one sink, each through a queue of its own; the sink takes from the
queues in any order. `Merge` has the queues and the log of what was taken, the last item first.

What a source has written in all (`written`) changes only when it writes: taking an item moves it
from the queue to the log. So a log that nothing is missing from has of each source what it wrote,
in its order, and the last item of a kind that was taken is the last one of its source
(`rank_le_of_find`). Between the sources nothing is said.
-/

namespace Hieratika.Foundations

variable {ι α : Type*}

/-- The queues of the sources, and what was taken from them, the last item first. -/
structure Merge (ι α : Type*) where
  queue : ι → List α
  log : List (ι × α)

/-- Nothing written, nothing taken. -/
def Merge.empty : Merge ι α := ⟨fun _ => [], []⟩

/-- Every queue is empty. -/
def Merge.Drained (s : Merge ι α) : Prop := ∀ k, s.queue k = []

variable [DecidableEq ι]

/-- The source `k` writes. -/
def Merge.write (s : Merge ι α) (k : ι) (as : List α) : Merge ι α :=
  { s with queue := Function.update s.queue k (s.queue k ++ as) }

/-- The sink takes `a` from the queue of `k` and leaves `rest`. -/
def Merge.take (s : Merge ι α) (k : ι) (a : α) (rest : List α) : Merge ι α :=
  ⟨Function.update s.queue k rest, (k, a) :: s.log⟩

/-- Of the queue of `k` only `rest` is left; what was behind it is lost. -/
def Merge.cut (s : Merge ι α) (k : ι) (rest : List α) : Merge ι α :=
  { s with queue := Function.update s.queue k rest }

/-- What was taken from the source `k`, in order. -/
def Merge.taken (s : Merge ι α) (k : ι) : List α := ((s.log.filter fun x => x.1 = k).map Prod.snd).reverse

/-- What the source `k` has written, in order. -/
def Merge.written (s : Merge ι α) (k : ι) : List α := s.taken k ++ s.queue k

variable {s : Merge ι α} {k j : ι} {a b : α} {as rest : List α}

@[simp] theorem written_empty : (Merge.empty : Merge ι α).written k = [] := rfl

@[simp] theorem written_write_self : (s.write k as).written k = s.written k ++ as := by
  simp [Merge.written, Merge.write, Merge.taken]

theorem written_write_of_ne (h : j ≠ k) : (s.write k as).written j = s.written j := by
  simp [Merge.written, Merge.write, Merge.taken, h]

theorem written_cut_self (rest : List α) : (s.cut k rest).written k = s.taken k ++ rest := by
  simp [Merge.written, Merge.cut, Merge.taken]

theorem written_cut_of_ne (rest : List α) (h : j ≠ k) : (s.cut k rest).written j = s.written j := by
  simp [Merge.written, Merge.cut, Merge.taken, h]

/-- **Taking an item changes nothing** of what was written. -/
theorem written_take (h : s.queue k = a :: rest) : (s.take k a rest).written j = s.written j := by
  by_cases hj : j = k
  · subst hj
    simp [Merge.written, Merge.taken, Merge.take, h]
  · simp [Merge.written, Merge.taken, Merge.take, hj, Ne.symm hj]

theorem mem_taken : a ∈ s.taken k ↔ (k, a) ∈ s.log := by
  simp [Merge.taken]

/-- With the queues empty, everything written is in the log. -/
theorem Merge.Drained.mem_written (h : s.Drained) : a ∈ s.written k ↔ (k, a) ∈ s.log := by
  rw [Merge.written, h k, List.append_nil, mem_taken]

/-! ### The last item of a kind -/

/-- An item of a kind is the first one found, or stands behind it. -/
theorem eq_or_rel_of_find {β : Type*} {log : List β} {p : β → Bool} {x y : β} {rel : β → β → Prop}
    (hrel : log.Pairwise rel)
    (hfirst : log.find? p = some x) (hy : y ∈ log) (hp : p y = true) : y = x ∨ rel x y := by
  obtain ⟨-, before, behind, rfl, hbefore⟩ := List.find?_eq_some_iff_append.mp hfirst
  rw [List.mem_append, List.mem_cons] at hy
  rcases hy with hy | hy | hy
  · have hnot := hbefore y hy
    rw [hp] at hnot
    cases hnot
  · exact .inl hy
  · exact .inr ((List.pairwise_cons.mp (List.pairwise_append.mp hrel).2.1).1 y hy)

variable {rank : α → ℕ} {p : α → Bool}

/-- **The last item of a kind** in the log is the last one of its source, if the source writes in the
order of the ranks. -/
theorem rank_le_of_find (hsort : (s.written k).Pairwise fun a b => rank a ≤ rank b)
    (hlast : s.log.find? (fun x => p x.2) = some (k, a)) (hb : (k, b) ∈ s.log) (hp : p b = true) :
    rank b ≤ rank a := by
  have hlog : s.log.Pairwise fun later earlier =>
      decide (later.1 = k) = true → decide (earlier.1 = k) = true → rank earlier.2 ≤ rank later.2 := by
    have htaken : (s.taken k).Pairwise fun a b => rank a ≤ rank b := (List.pairwise_append.mp hsort).1
    rwa [Merge.taken, List.pairwise_reverse, List.pairwise_map, List.pairwise_filter] at htaken
  rcases eq_or_rel_of_find hlog hlast hb hp with heq | hle
  · cases heq
    exact Nat.le_refl _
  · exact hle (by simp) (by simp)

end Hieratika.Foundations
