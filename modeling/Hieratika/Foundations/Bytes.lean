import Mathlib.Data.List.GetD
import Mathlib.Data.List.Range
import Mathlib.Data.Nat.Basic

/-!
# Byte memories

A memory is a function from addresses to bytes. `readAt m a n` is the list of the `n`
bytes from address `a`, `writeAt m a bs` the memory after the bytes `bs` are copied to
address `a`. What is written is read back (`readAt_writeAt`), and bytes away from the
written ones are unchanged (`writeAt_of_notMem`, `readAt_writeAt_of_disjoint`).
-/

namespace Hieratika.Foundations

/-- A memory of bytes. -/
abbrev Memory := ℕ → UInt8

/-- The `n` bytes from address `a`. -/
def readAt (m : Memory) (a n : ℕ) : List UInt8 := (List.range n).map fun k => m (a + k)

/-- The bytes `bs` copied to address `a`. -/
def writeAt (m : Memory) (a : ℕ) (bs : List UInt8) : Memory := fun x =>
  if a ≤ x ∧ x < a + bs.length then bs.getD (x - a) 0 else m x

variable {m m' : Memory} {a b k n x : ℕ} {bs : List UInt8}

@[simp] theorem length_readAt : (readAt m a n).length = n := by simp [readAt]

@[simp] theorem readAt_zero : readAt m a 0 = [] := rfl

theorem readAt_congr (h : ∀ k < n, m (a + k) = m' (b + k)) : readAt m a n = readAt m' b n :=
  List.map_congr_left fun k hk => h k (List.mem_range.mp hk)

/-- A longer read is two shorter ones. -/
theorem readAt_add (k : ℕ) : readAt m a (n + k) = readAt m a n ++ readAt m (a + n) k := by
  simp [readAt, List.range_add, Nat.add_assoc]

@[simp] theorem writeAt_nil : writeAt m a [] = m := by
  funext x
  exact if_neg (by simp only [List.length_nil]; omega)

/-- Away from the written bytes nothing changes. -/
theorem writeAt_of_notMem (h : x < a ∨ a + bs.length ≤ x) : writeAt m a bs x = m x :=
  if_neg (by omega)

theorem writeAt_of_mem (h : a ≤ x) (h' : x < a + bs.length) : writeAt m a bs x = bs.getD (x - a) 0 :=
  if_pos ⟨h, h'⟩

/-- What is written is read back. -/
@[simp] theorem readAt_writeAt : readAt (writeAt m a bs) a bs.length = bs := by
  refine List.ext_getElem (by simp) fun k hk hk' => ?_
  simp only [readAt, List.getElem_map, List.getElem_range]
  rw [writeAt_of_mem (by omega) (by omega), Nat.add_sub_cancel_left, List.getD_eq_getElem _ _ hk']

theorem readAt_writeAt_readAt : readAt (writeAt m a (readAt m' b n)) a n = readAt m' b n := by
  have h := @readAt_writeAt m a (readAt m' b n)
  rwa [length_readAt] at h

/-- A read away from the written bytes is as before. -/
theorem readAt_writeAt_of_disjoint (h : b + n ≤ a ∨ a + bs.length ≤ b) :
    readAt (writeAt m a bs) b n = readAt m b n :=
  readAt_congr fun _ _ => writeAt_of_notMem (by omega)

/-- What is copied from `b` to `a` is read there as it was. -/
theorem readAt_moved {d : ℕ} (h : d + n ≤ k) :
    readAt (writeAt m a (readAt m' b k)) (a + d) n = readAt m' (b + d) n := by
  refine readAt_congr fun j hj => ?_
  rw [writeAt_of_mem (by omega) (by rw [length_readAt]; omega),
    List.getD_eq_getElem _ _ (by rw [length_readAt]; omega)]
  simp only [readAt, List.getElem_map, List.getElem_range]
  congr 1
  omega

/-- A copied range is the same in both memories. -/
theorem readAt_copy (h : a ≤ b) (h' : b + n ≤ a + k) :
    readAt (writeAt m a (readAt m' a k)) b n = readAt m' b n := by
  obtain ⟨d, rfl⟩ := Nat.exists_eq_add_of_le h
  exact readAt_moved (by omega)

end Hieratika.Foundations
