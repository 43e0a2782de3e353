import Hieratika.Subscriber.Startup
import Mathlib.Algebra.Order.BigOperators.Group.Finset
import Mathlib.Tactic.Linarith

/-!
# Where the subscriber places the PVs

Each thread lays its PVs out in a block, and `Synchronise` puts the blocks one behind the other.
A PV without elements takes no room, but one that is not connected is still counted in the size of
the block. When the ranges of `Execute` are disjoint, they are the blocks that the remapping finds
from the index, `i / nVarsPerChunk` or the last one (`Setup.range_eq`, `Setup.owner_eq`).

`Setup.place` is the place of a PV in the memory put together: the places of PVs with elements are
apart (`Setup.place_add_le_place`). `fillMemorySizes_eq` says what `FillMemorySizes` does.
-/

namespace Hieratika.Subscriber

open Foundations Workers

/-! ### The sizes -/

/-- The elements of a PV that is connected. -/
def Setup.count (c : Setup) (i : ℕ) : ℕ := if (c.channel i).connected then (c.channel i).elementCount else 0

/-- The elements that are kept. -/
def Setup.elements (c : Setup) (i : ℕ) : ℕ := if c.maxArraySize < c.count i then 0 else c.count i

/-- The bytes of the value. -/
def Setup.size (c : Setup) (i : ℕ) : ℕ := c.elements i * (c.channel i).fieldType.info.1

/-- What a PV adds to the size of its block. -/
def Setup.counted (c : Setup) (i : ℕ) : ℕ := if c.maxArraySize < c.count i then 0 else c.size i + 8

/-- What a PV takes of its block. -/
def Setup.slot (c : Setup) (i : ℕ) : ℕ := if 0 < c.elements i then c.size i + 8 else 0

/-- The total size. -/
def Setup.total (c : Setup) : ℕ := ∑ i ∈ Finset.range c.numberOfVariables, c.counted i

/-- The assumptions on the configuration. -/
structure Setup.Sound (c : Setup) : Prop where
  variables_pos : 0 < c.numberOfVariables
  variables_lt : c.numberOfVariables < 2 ^ 32
  threads_pos : 0 < c.numberOfPoolThreads
  threads_lt : c.numberOfPoolThreads < 2 ^ 32
  /-- The ranges of `Execute` are pairwise disjoint. -/
  disjoint : ∀ s < c.numberOfPoolThreads, ∀ t < c.numberOfPoolThreads, s ≠ t →
    ∀ i, (c.range s).Has i → ¬ (c.range t).Has i
  chunk_pos : 0 < c.nVarsPerChunk
  total_lt : c.total < 2 ^ 32

variable {c : Setup} {i j k t : ℕ}

theorem Setup.slot_of_pos (hi : 0 < c.elements i) : c.slot i = c.size i + 8 := if_pos hi

theorem Setup.slot_le_counted : c.slot i ≤ c.counted i := by
  unfold Setup.slot Setup.counted Setup.elements
  split_ifs <;> omega

theorem Setup.size_add_le (hc : c.Sound) (hi : i < c.numberOfVariables)
    (hmax : ¬ c.maxArraySize < c.count i) :
    c.size i + 8 < 2 ^ 32 := by
  have hle : c.counted i ≤ c.total :=
    Finset.single_le_sum (fun _ _ => Nat.zero_le _) (Finset.mem_range.mpr hi)
  rw [Setup.counted, if_neg hmax] at hle
  exact hle.trans_lt hc.total_lt

/-! ### The blocks -/

/-- Where the PVs of thread `t` begin, and where the last ones end. -/
def Setup.bound (c : Setup) (t : ℕ) : ℕ :=
  if t < c.numberOfPoolThreads then t * c.nVarsPerChunk else c.numberOfVariables

/-- The thread of a PV, as the remapping finds it. -/
def Setup.owner (c : Setup) (i : ℕ) : ℕ := min (i / c.nVarsPerChunk) (c.numberOfPoolThreads - 1)

/-- The size of a block. -/
def Setup.block (c : Setup) (t : ℕ) : ℕ := ∑ j ∈ Finset.Ico (c.bound t) (c.bound (t + 1)), c.counted j

/-- The sizes of the blocks before. -/
def Setup.base (c : Setup) (t : ℕ) : ℕ := ∑ j ∈ Finset.range (c.bound t), c.counted j

/-- The place of a PV in its block. -/
def Setup.pos (c : Setup) (i : ℕ) : ℕ := ∑ j ∈ Finset.Ico (c.bound (c.owner i)) i, c.slot j

theorem Setup.bound_mono_succ (ht : t < c.numberOfPoolThreads) : c.bound t ≤ c.bound (t + 1) := by
  unfold Setup.bound
  rw [if_pos ht]
  split_ifs with h
  · exact Nat.mul_le_mul_right _ (Nat.le_succ t)
  · exact mul_chunk_le ht.le

theorem Setup.bound_zero (hc : c.Sound) : c.bound 0 = 0 := by
  rw [Setup.bound, if_pos hc.threads_pos, Nat.zero_mul]

theorem Setup.bound_last : c.bound c.numberOfPoolThreads = c.numberOfVariables := if_neg (lt_irrefl _)

theorem Setup.bound_le (ht : t ≤ c.numberOfPoolThreads) : c.bound t ≤ c.numberOfVariables := by
  unfold Setup.bound
  split_ifs
  · exact mul_chunk_le ht
  · exact le_rfl

/-- Disjoint ranges are the blocks. -/
theorem Setup.range_eq (hc : c.Sound) (ht : t < c.numberOfPoolThreads) :
    c.range t = ⟨c.bound t, c.bound (t + 1)⟩ := by
  have hbal : c.numberOfPoolThreads = 1 ∨
      c.numberOfPoolThreads ≤ c.numberOfVariables / c.numberOfPoolThreads + c.numberOfVariables %
        c.numberOfPoolThreads := by
    by_contra hcon
    push Not at hcon
    have hone := hc.threads_pos
    obtain ⟨ha, hb⟩ := overlap_of_unbalanced hc.variables_lt hc.threads_lt (by omega) hc.variables_pos hcon.2
    exact hc.disjoint _ (by omega) _ (by omega) (by omega) _ ha hb
  by_cases hlast : t + 1 = c.numberOfPoolThreads
  · have hl := last_stop hc.variables_lt hc.threads_lt hc.threads_pos
    rw [← hlast, Nat.add_sub_cancel, hlast] at hl
    rw [Setup.bound, if_pos ht, hlast, Setup.bound_last]
    exact hl
  · rw [Setup.bound, if_pos ht, Setup.bound, if_pos (by omega)]
    exact inner_stop hc.variables_lt hc.threads_lt (by omega) (by omega)

theorem Setup.owner_lt (hc : c.Sound) : c.owner i < c.numberOfPoolThreads := by
  have := hc.threads_pos
  unfold Setup.owner
  omega

theorem Setup.bound_owner_le (hc : c.Sound) : c.bound (c.owner i) ≤ i := by
  rw [Setup.bound, if_pos (Setup.owner_lt hc)]
  exact (Nat.mul_le_mul_right _ (Nat.min_le_left _ _)).trans (Nat.div_mul_le_self _ _)

theorem Setup.lt_bound_owner (hc : c.Sound) (hi : i < c.numberOfVariables) : i < c.bound (c.owner i + 1) := by
  have hlt := Setup.owner_lt (i := i) hc
  unfold Setup.bound
  split_ifs with h
  · have howner : c.owner i = i / c.nVarsPerChunk := by
      unfold Setup.owner at h ⊢
      omega
    rw [howner]
    exact Nat.lt_mul_of_div_lt (Nat.lt_succ_self _) hc.chunk_pos
  · exact hi

/-- The PVs of a block have its thread. -/
theorem Setup.owner_eq (hc : c.Sound) (ht : t < c.numberOfPoolThreads) (h : c.bound t ≤ i)
    (h' : i < c.bound (t + 1)) :
    c.owner i = t := by
  rw [Setup.bound, if_pos ht] at h
  have hge : t ≤ i / c.nVarsPerChunk := (Nat.le_div_iff_mul_le hc.chunk_pos).mpr h
  unfold Setup.owner
  by_cases hlast : t + 1 < c.numberOfPoolThreads
  · rw [Setup.bound, if_pos hlast] at h'
    have hlt : i / c.nVarsPerChunk < t + 1 := Nat.div_lt_of_lt_mul (by rwa [Nat.mul_comm])
    omega
  · omega

theorem Setup.base_succ (ht : t < c.numberOfPoolThreads) : c.base t + c.block t = c.base (t + 1) :=
  Finset.sum_range_add_sum_Ico _ (Setup.bound_mono_succ ht)

theorem Setup.base_zero (hc : c.Sound) : c.base 0 = 0 := by
  rw [Setup.base, Setup.bound_zero hc, Finset.sum_range_zero]

theorem Setup.base_last : c.base c.numberOfPoolThreads = c.total := by
  rw [Setup.base, Setup.bound_last]
  rfl

/-- The sizes of the first blocks. -/
theorem Setup.sum_block (hc : c.Sound) (ht : t ≤ c.numberOfPoolThreads) :
    ∑ k ∈ Finset.range t, c.block k = c.base t := by
  induction t with
  | zero => rw [Finset.sum_range_zero, Setup.base_zero hc]
  | succ t ih => rw [Finset.sum_range_succ, ih (by omega), Setup.base_succ (by omega)]

theorem Setup.base_mono (hst : j ≤ k) (hk : k ≤ c.numberOfPoolThreads) : c.base j ≤ c.base k := by
  induction k, hst using Nat.le_induction with
  | base => exact le_rfl
  | succ k hjk ih =>
    have := Setup.base_succ (c := c) (t := k) (by omega)
    have := ih (by omega)
    omega

/-! ### The places -/

/-- A PV with elements fits in its block. -/
theorem Setup.pos_add_le (hc : c.Sound) (hi : i < c.numberOfVariables) (hpos : 0 < c.elements i) :
    c.pos i + (c.size i + 8) ≤ c.block (c.owner i) := by
  have hb := Setup.bound_owner_le (i := i) hc
  calc c.pos i + (c.size i + 8)
      = ∑ j ∈ Finset.Ico (c.bound (c.owner i)) (i + 1), c.slot j := by
        rw [Finset.sum_Ico_succ_top hb, Setup.slot_of_pos hpos]
        rfl
    _ ≤ ∑ j ∈ Finset.Ico (c.bound (c.owner i)) (i + 1), c.counted j :=
        Finset.sum_le_sum fun _ _ => Setup.slot_le_counted
    _ ≤ c.block (c.owner i) :=
        Finset.sum_le_sum_of_subset (Finset.Ico_subset_Ico le_rfl (Setup.lt_bound_owner hc hi))

/-- Two PVs of one block follow each other. -/
theorem Setup.pos_add_le_pos (hc : c.Sound) (hij : i < j) (howner : c.owner i = c.owner j)
    (hpos : 0 < c.elements i) :
    c.pos i + (c.size i + 8) ≤ c.pos j := by
  calc c.pos i + (c.size i + 8)
      = ∑ k ∈ Finset.Ico (c.bound (c.owner j)) (i + 1), c.slot k := by
        rw [← howner, Finset.sum_Ico_succ_top (Setup.bound_owner_le hc), Setup.slot_of_pos hpos]
        rfl
    _ ≤ c.pos j := Finset.sum_le_sum_of_subset (Finset.Ico_subset_Ico le_rfl hij)

theorem Setup.owner_mono (hij : i ≤ j) : c.owner i ≤ c.owner j := by
  have := Nat.div_le_div_right (c := c.nVarsPerChunk) hij
  unfold Setup.owner
  omega

/-- Two PVs of one block have places apart. -/
theorem Setup.pos_apart (hc : c.Sound) (hij : i ≠ j) (howner : c.owner i = c.owner j) (hi : 0 < c.elements i)
    (hj : 0 < c.elements j) : c.pos i + (c.size i + 8) ≤ c.pos j ∨ c.pos j + (c.size j + 8) ≤ c.pos i := by
  rcases Nat.lt_or_gt_of_ne hij with h | h
  · exact .inl (Setup.pos_add_le_pos hc h howner hi)
  · exact .inr (Setup.pos_add_le_pos hc h howner.symm hj)

/-- The place of a PV in the memory put together. -/
def Setup.place (c : Setup) (i : ℕ) : ℕ := c.base (c.owner i) + c.pos i

theorem Setup.place_add_le (hc : c.Sound) (hi : i < c.numberOfVariables) (hpos : 0 < c.elements i) :
    c.place i + (c.size i + 8) ≤ c.base (c.owner i + 1) := by
  have hfit := Setup.pos_add_le hc hi hpos
  have hsucc := Setup.base_succ (Setup.owner_lt (i := i) hc)
  unfold Setup.place
  omega

/-- A PV before another one ends before it. -/
theorem Setup.place_add_le_place (hc : c.Sound) (hij : i < j) (hj : j < c.numberOfVariables)
    (hpos : 0 < c.elements i) :
    c.place i + (c.size i + 8) ≤ c.place j := by
  rcases (Setup.owner_mono (c := c) hij.le).eq_or_lt with howner | howner
  · have := Setup.pos_add_le_pos hc hij howner hpos
    unfold Setup.place
    rw [howner] at *
    omega
  · have hle := Setup.place_add_le hc (hij.trans hj) hpos
    have hmono : c.base (c.owner i + 1) ≤ c.base (c.owner j) :=
      Setup.base_mono howner (Setup.owner_lt hc).le
    have : c.place j = c.base (c.owner j) + c.pos j := rfl
    omega

/-! ### `FillMemorySizes` -/

/-- What a descriptor holds once its PV is placed, the offset apart. -/
structure Placed (c : Setup) (i : ℕ) (pv : Pv) : Prop where
  numberOfElements : pv.numberOfElements = c.elements i
  totalSize : pv.totalSize = c.size i
  memory : pv.memory = ⟨c.owner i, c.pos i⟩
  timeStamp : pv.timeStamp = ⟨c.owner i, c.pos i + c.size i⟩

/-- The descriptor after the first loop. -/
def counted (c : Setup) (i : ℕ) (pv : Pv) : Pv := (countPv c i pv 0).1

theorem countPv_long (h : c.maxArraySize < c.count i) (pv : Pv) (m : ℕ) :
    countPv c i pv m = ({ cainfo (c.channel i) pv with numberOfElements := 0 }, m) := if_pos h

theorem countPv_kept (h : ¬ c.maxArraySize < c.count i) (pv : Pv) (m : ℕ) :
    countPv c i pv m = (cainfo (c.channel i) pv, m + ((cainfo (c.channel i) pv).totalSize + 8)) := if_neg h

theorem countPv_fst (i : ℕ) (pv : Pv) (m : ℕ) : (countPv c i pv m).1 = counted c i pv := by
  unfold counted
  by_cases h : c.maxArraySize < c.count i
  · rw [countPv_long h, countPv_long h]
  · rw [countPv_kept h, countPv_kept h]

theorem counted_numberOfElements (i : ℕ) (pv : Pv) : (counted c i pv).numberOfElements = c.elements i := by
  unfold counted Setup.elements
  by_cases h : c.maxArraySize < c.count i
  · rw [countPv_long h, if_pos h]
  · rw [countPv_kept h, if_neg h]
    rfl

theorem counted_memorySize (i : ℕ) (pv : Pv) :
    (counted c i pv).memorySize = (c.channel i).fieldType.info.1 := by
  unfold counted
  by_cases h : c.maxArraySize < c.count i
  · rw [countPv_long h]
    rfl
  · rw [countPv_kept h]
    rfl

theorem counted_totalSize (hc : c.Sound) (hi : i < c.numberOfVariables) (pv : Pv) :
    (counted c i pv).totalSize = c.size i := by
  have hlt : c.size i < 2 ^ 32 := by
    by_cases hmax : c.maxArraySize < c.count i
    · rw [Setup.size, Setup.elements, if_pos hmax, Nat.zero_mul]
      norm_num
    · have := Setup.size_add_le hc hi hmax
      omega
  rw [PvDescriptor.totalSize, counted_numberOfElements, counted_memorySize]
  exact u32_of_lt hlt

theorem countPv_snd (hc : c.Sound) (hi : i < c.numberOfVariables) (pv : Pv) (m : ℕ) :
    (countPv c i pv m).2 = m + c.counted i := by
  have hsize := counted_totalSize hc hi pv
  unfold counted at hsize
  unfold Setup.counted
  by_cases h : c.maxArraySize < c.count i
  · rw [countPv_long h, if_pos h, Nat.add_zero]
  · rw [countPv_kept h] at hsize ⊢
    rw [if_neg h, ← hsize]

variable {s s' : Startup}

/-- **What `FillMemorySizes` does** for thread `t`, which it finds with `memorySize[t]` at 0. -/
theorem fillMemorySizes_eq (hc : c.Sound) (ht : t < c.numberOfPoolThreads) (hzero : s.memorySize t = 0) :
    s.fillMemorySizes c (c.bound t) (c.bound (t + 1)) t =
      { s with
        pvDescriptor := scanned (placePv t) (fun i => ∑ j ∈ Finset.Ico (c.bound t) i, c.slot j)
          (scanned (countPv c) (fun i => ∑ j ∈ Finset.Ico (c.bound t) i, c.counted j) s.pvDescriptor
            (c.bound t) (c.bound (t + 1))) (c.bound t) (c.bound (t + 1))
        memorySize := Function.update s.memorySize t (c.block t)
        memory := Function.update s.memory t fun _ => 0 } := by
  have hle := Setup.bound_mono_succ ht
  have hN := Setup.bound_le (c := c) (t := t + 1) ht
  have h₁ := scan_eq (countPv c) s.pvDescriptor (fun i => ∑ j ∈ Finset.Ico (c.bound t) i, c.counted j)
      hle fun i hi hi' => by
      rw [countPv_snd hc (by omega), Finset.sum_Ico_succ_top hi]
  have h₂ := scan_eq (placePv t)
    (scanned (countPv c) (fun i => ∑ j ∈ Finset.Ico (c.bound t) i, c.counted j) s.pvDescriptor
      (c.bound t) (c.bound (t + 1)))
    (fun i => ∑ j ∈ Finset.Ico (c.bound t) i, c.slot j) hle fun i hi hi' => by
      have hiN : i < c.numberOfVariables := by omega
      rw [scanned_of_mem hi hi', countPv_fst]
      simp only [placePv, counted_numberOfElements, counted_totalSize hc hiN]
      rw [Finset.sum_Ico_succ_top hi]
      by_cases hpos : 0 < c.elements i
      · rw [if_pos hpos, Setup.slot_of_pos hpos]
        have howner := Setup.owner_eq hc ht hi hi'
        have hfit := Setup.pos_add_le hc hiN hpos
        have hblock := Setup.base_succ (c := c) (Setup.owner_lt (i := i) hc)
        have hmono := Setup.base_mono (c := c) (j := c.owner i + 1) (Setup.owner_lt (i := i) hc) le_rfl
        have htotal := hc.total_lt
        rw [Setup.base_last] at hmono
        have hpos_eq : c.pos i = ∑ j ∈ Finset.Ico (c.bound t) i, c.slot j := by rw [Setup.pos, howner]
        rw [hpos_eq] at hfit
        exact u32_of_lt (by omega)
      · rw [if_neg hpos, Setup.slot, if_neg hpos, Nat.add_zero]
  simp only [Finset.Ico_self, Finset.sum_empty] at h₁ h₂
  simp only [Startup.fillMemorySizes, hzero, h₁, h₂]
  rfl

/-- The PVs of the thread are placed. -/
theorem fillMemorySizes_placed (hc : c.Sound) (ht : t < c.numberOfPoolThreads) (hzero : s.memorySize t = 0)
    (hi : i < c.numberOfVariables) (howner : c.owner i = t) :
    Placed c i ((s.fillMemorySizes c (c.bound t) (c.bound (t + 1)) t).pvDescriptor i) ∧
      ((s.fillMemorySizes c (c.bound t) (c.bound (t + 1)) t).pvDescriptor i).offset = c.pos i := by
  subst howner
  have hb := Setup.bound_owner_le (i := i) hc
  have hlt := Setup.lt_bound_owner hc hi
  rw [fillMemorySizes_eq hc ht hzero]
  simp only [scanned_of_mem hb hlt, countPv_fst, placePv]
  refine ⟨⟨counted_numberOfElements i _, counted_totalSize hc hi _, rfl, ?_⟩, rfl⟩
  rw [counted_totalSize hc hi]
  rfl

/-- Those of other threads are left alone. -/
theorem fillMemorySizes_other (hc : c.Sound) (ht : t < c.numberOfPoolThreads) (hzero : s.memorySize t = 0)
    (howner : c.owner i ≠ t) :
    (s.fillMemorySizes c (c.bound t) (c.bound (t + 1)) t).pvDescriptor i = s.pvDescriptor i := by
  have hnot : i < c.bound t ∨ c.bound (t + 1) ≤ i := by
    by_contra hcon
    push Not at hcon
    exact howner (Setup.owner_eq hc ht hcon.1 hcon.2)
  rw [fillMemorySizes_eq hc ht hzero]
  simp only [scanned_of_notMem hnot]

end Hieratika.Subscriber
