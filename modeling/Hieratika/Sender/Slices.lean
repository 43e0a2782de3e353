import Hieratika.Sender.SendVariables
import Mathlib.Data.List.Pairwise
import Mathlib.Data.List.Nodup

/-!
# The slices of a round

At the start of `SendVariables` each pool thread takes, under the lock, its slice of the queue: the
slices follow one another in the order in which the threads arrive. Thread `T - 1` takes the
remainder, whenever it comes.

## What is proved

`currentIdxThreads += nVarsPerThread` is a 32-bit sum, taken modulo the number of PVs only after it
may have wrapped, so a slice behind a wrap starts at a wrong position. The slices of a round split its
positions in every order of arrival exactly when no sum can wrap while a slice is still to come
(`slices_split_iff`); up to `2 ^ 31` PVs none can (`roundFits_of_le`).
-/

namespace Hieratika.Sender

open Foundations

variable {μ : Type*}

/-- What a thread takes of a round. -/
structure Slice where
  threadId : ℕ
  /-- Where it starts in the queue. -/
  listIndex : ℕ
  nVarsPerThread : ℕ

/-- `n` positions of the queue, as `listIndex` goes through them. -/
def positionsFrom (c : Config) : ℕ → ℕ → List ℕ
  | _, 0 => []
  | listIndex, n + 1 => listIndex :: positionsFrom c (u32 (listIndex + 1) % c.numberOfVariables) n

/-- The positions of a slice. -/
def Slice.positions (c : Config) (s : Slice) : List ℕ := positionsFrom c s.listIndex s.nVarsPerThread

/-- The slices of a round whose threads arrive in the given order. -/
def takeSlices (c : Config) : Main μ → List ℕ → List Slice
  | _, [] => []
  | m, t :: order => ⟨t, m.currentIdxThreads, m.nVarsPerThread c t⟩ :: takeSlices c (m.takeSlice c t) order

/-- The slices are disjoint, and together the positions of the round. -/
structure SplitsRound (c : Config) (m : Main μ) (order : List ℕ) : Prop where
  disjoint : (takeSlices c m order).Pairwise fun s t => ∀ p ∈ s.positions c, p ∉ t.positions c
  exact : ∀ p, (∃ s ∈ takeSlices c m order, p ∈ s.positions c) ↔
    ∃ d < m.numberOfChangedVariables, p = ringPos c.numberOfVariables m.currentIdxThreads d

/-- No sum wraps while a slice is to come: thread `T - 1` arrives behind `j` others. -/
def RoundFits (c : Config) (m : Main μ) : Prop :=
  let q := m.numberOfChangedVariables / c.numberOfPoolThreads
  let rest := m.numberOfChangedVariables % c.numberOfPoolThreads
  q = 0 ∨ ∀ j, j + 2 ≤ c.numberOfPoolThreads → m.currentIdxThreads + j * q < c.numberOfVariables →
    m.currentIdxThreads + (j + 1) * q + rest < 2 ^ 32

/-- A round as the main loop starts it. -/
structure IsRound (c : Config) (m : Main μ) : Prop where
  variables_lt : c.numberOfVariables < 2 ^ 32
  threads_pos : 0 < c.numberOfPoolThreads
  threads_lt : c.numberOfPoolThreads < 2 ^ 32
  /-- At most the whole queue is sent. -/
  changed_le : m.numberOfChangedVariables ≤ c.numberOfVariables
  start_lt : m.currentIdxThreads < c.numberOfVariables

variable {c : Config} {m : Main μ} {t : ℕ} {order pre post : List ℕ}

/-! ### Positions -/

theorem positionsFrom_eq (hN : c.numberOfVariables < 2 ^ 32) :
    ∀ (n listIndex : ℕ), listIndex < c.numberOfVariables →
    positionsFrom c listIndex n = (List.range n).map (ringPos c.numberOfVariables listIndex)
  | 0, _, _ => rfl
  | n + 1, listIndex, h => by
    have hnext : u32 (listIndex + 1) % c.numberOfVariables = ringPos c.numberOfVariables listIndex 1 := by
      rw [u32_of_lt (by omega), ringPos]
    rw [positionsFrom, positionsFrom_eq hN n _ (Nat.mod_lt _ (by omega)), hnext, List.range_succ_eq_map,
      List.map_cons, List.map_map, ringPos_zero h]
    congr 1
    refine List.map_congr_left fun d _ => ?_
    rw [ringPos_ringPos, Nat.add_comm]
    rfl

theorem mem_positions (hN : c.numberOfVariables < 2 ^ 32) {s : Slice}
    (h : s.listIndex < c.numberOfVariables) {p : ℕ} :
    p ∈ s.positions c ↔ ∃ d < s.nVarsPerThread, ringPos c.numberOfVariables s.listIndex d = p := by
  simp [Slice.positions, positionsFrom_eq hN _ _ h]

/-! ### The sizes of the slices -/

/-- What thread `t` takes, without the words. -/
theorem IsRound.nVarsPerThread_eq (h : IsRound c m) (t : ℕ) : m.nVarsPerThread c t =
    m.numberOfChangedVariables / c.numberOfPoolThreads +
      if t = c.numberOfPoolThreads - 1 then m.numberOfChangedVariables % c.numberOfPoolThreads else 0 := by
  have hle : m.numberOfChangedVariables / c.numberOfPoolThreads +
      m.numberOfChangedVariables % c.numberOfPoolThreads ≤ m.numberOfChangedVariables := by
    have hdiv := Nat.div_add_mod m.numberOfChangedVariables c.numberOfPoolThreads
    have hmul := Nat.le_mul_of_pos_left (m.numberOfChangedVariables / c.numberOfPoolThreads) h.threads_pos
    omega
  have hN := h.variables_lt
  have hn := h.changed_le
  unfold Main.nVarsPerThread
  rw [sub32_of_le h.threads_lt h.threads_pos]
  split_ifs
  · exact u32_of_lt (by omega)
  · rfl

/-- What the threads of a list take together. -/
def taken (c : Config) (m : Main μ) (order : List ℕ) : ℕ := (order.map (m.nVarsPerThread c)).sum

@[simp] theorem taken_nil : taken c m [] = 0 := rfl

@[simp] theorem taken_cons : taken c m (t :: order) = m.nVarsPerThread c t + taken c m order := rfl

@[simp] theorem taken_append : taken c m (pre ++ post) = taken c m pre + taken c m post := by
  simp [taken]

/-- Threads that arrive once take their share each, and the remainder once. -/
theorem IsRound.taken_eq (h : IsRound c m) : ∀ {order : List ℕ}, order.Nodup → taken c m order =
    order.length * (m.numberOfChangedVariables / c.numberOfPoolThreads) +
      if c.numberOfPoolThreads - 1 ∈ order then m.numberOfChangedVariables % c.numberOfPoolThreads else 0
  | [], _ => by simp
  | t :: order, hnd => by
    obtain ⟨hnot, hnd⟩ := List.nodup_cons.mp hnd
    rw [taken_cons, h.nVarsPerThread_eq, h.taken_eq hnd, List.length_cons, Nat.succ_mul]
    by_cases ht : t = c.numberOfPoolThreads - 1
    · subst ht
      rw [if_pos rfl, if_neg hnot, if_pos List.mem_cons_self]
      omega
    · rw [if_neg ht]
      by_cases hmem : c.numberOfPoolThreads - 1 ∈ order
      · rw [if_pos hmem, if_pos (List.mem_cons_of_mem t hmem)]
        omega
      · rw [if_neg hmem, if_neg (by rw [List.mem_cons, not_or]; exact ⟨fun he => ht he.symm, hmem⟩)]
        omega

/-- All the threads take the round. -/
theorem IsRound.taken_all (h : IsRound c m) (hperm : order.Perm (List.range c.numberOfPoolThreads)) :
    taken c m order = m.numberOfChangedVariables := by
  have hpos := h.threads_pos
  have hmem : c.numberOfPoolThreads - 1 ∈ order := hperm.mem_iff.mpr (List.mem_range.mpr (by omega))
  rw [h.taken_eq (hperm.nodup_iff.mpr List.nodup_range), if_pos hmem, hperm.length_eq, List.length_range]
  exact Nat.div_add_mod _ _

/-! ### The slices in order -/

@[simp] theorem nVarsPerThread_takeSlice (u : ℕ) :
    (m.takeSlice c t).nVarsPerThread c u = m.nVarsPerThread c u := rfl

@[simp] theorem taken_takeSlice : taken c (m.takeSlice c t) order = taken c m order := rfl

/-- Threads that take nothing have no positions, wherever they start. -/
theorem positions_nil : ∀ {order : List ℕ} {m : Main μ}, taken c m order = 0 →
    (takeSlices c m order).flatMap (Slice.positions c) = []
  | [], _, _ => rfl
  | t :: order, m, h => by
    obtain ⟨ht, horder⟩ := Nat.add_eq_zero_iff.mp (taken_cons.symm.trans h)
    rw [takeSlices, List.flatMap_cons, positions_nil (by rw [taken_takeSlice]; exact horder),
      Slice.positions, ht]
    rfl

/-- **The slices are consecutive** as long as no sum wraps while something is still to be taken. -/
theorem flatMap_takeSlices (hN : c.numberOfVariables < 2 ^ 32) (start : ℕ) (hpos : 0 < c.numberOfVariables) :
    ∀ {order : List ℕ} {m : Main μ} {d : ℕ}, m.currentIdxThreads = ringPos c.numberOfVariables start d →
    (∀ pre t post, order = pre ++ t :: post → taken c m post = 0 ∨
      ringPos c.numberOfVariables start (d + taken c m pre) + m.nVarsPerThread c t < 2 ^ 32) →
    (takeSlices c m order).flatMap (Slice.positions c) =
      (List.range' d (taken c m order)).map (ringPos c.numberOfVariables start)
  | [], _, _, _, _ => rfl
  | t :: order, m, d, hcur, hfits => by
    have hlt : m.currentIdxThreads < c.numberOfVariables := by
      rw [hcur]
      exact ringPos_lt hpos
    have hfirst : (⟨t, m.currentIdxThreads, m.nVarsPerThread c t⟩ : Slice).positions c =
        (List.range' d (m.nVarsPerThread c t)).map (ringPos c.numberOfVariables start) := by
      rw [Slice.positions, positionsFrom_eq hN _ _ hlt, List.range'_eq_map_range, List.map_map, hcur]
      exact List.map_congr_left fun e _ => ringPos_ringPos
    rw [takeSlices, List.flatMap_cons, hfirst, taken_cons]
    rcases hfits [] t order rfl with hzero | hsum
    · rw [positions_nil (by rw [taken_takeSlice]; exact hzero), hzero, List.append_nil, Nat.add_zero]
    · have hnext : (m.takeSlice c t).currentIdxThreads =
          ringPos c.numberOfVariables start (d + m.nVarsPerThread c t) := by
        rw [taken_nil, Nat.add_zero, ← hcur] at hsum
        show u32 (m.currentIdxThreads + m.nVarsPerThread c t) % c.numberOfVariables = _
        rw [u32_of_lt hsum, hcur]
        exact ringPos_ringPos
      rw [flatMap_takeSlices hN start hpos hnext fun pre u post h => ?_, taken_takeSlice, ← List.map_append,
        List.range'_append_1]
      have := hfits (t :: pre) u post (by rw [h]; rfl)
      rwa [taken_cons, ← Nat.add_assoc] at this

/-- Slices that are consecutive split the round. -/
theorem splitsRound_of_flatMap (hn : m.numberOfChangedVariables ≤ c.numberOfVariables)
    (h : (takeSlices c m order).flatMap (Slice.positions c) =
      (List.range m.numberOfChangedVariables).map (ringPos c.numberOfVariables m.currentIdxThreads)) :
    SplitsRound c m order := by
  have hnd : ((takeSlices c m order).flatMap (Slice.positions c)).Nodup := by
    rw [h]
    refine List.nodup_range.map_on fun d hd e he heq => ?_
    exact ringPos_inj ((List.mem_range.mp hd).trans_le hn) ((List.mem_range.mp he).trans_le hn) heq
  refine ⟨(List.nodup_flatMap.mp hnd).2.imp fun hdis p hp hp' => hdis hp hp', fun p => ?_⟩
  rw [← List.mem_flatMap, h, List.mem_map]
  constructor
  · rintro ⟨d, hd, rfl⟩
    exact ⟨d, List.mem_range.mp hd, rfl⟩
  · rintro ⟨d, hd, rfl⟩
    exact ⟨d, List.mem_range.mpr hd, rfl⟩

/-- What a thread takes while others are still to come stays below `2 ^ 32`. -/
theorem RoundFits.sum_lt (h : IsRound c m) (hfits : RoundFits c m)
    (hperm : (pre ++ t :: post).Perm (List.range c.numberOfPoolThreads)) : taken c m post = 0 ∨
      ringPos c.numberOfVariables m.currentIdxThreads (taken c m pre) + m.nVarsPerThread c t < 2 ^ 32 := by
  set q := m.numberOfChangedVariables / c.numberOfPoolThreads with hq
  set rest := m.numberOfChangedVariables % c.numberOfPoolThreads with hrest
  have hnd := hperm.nodup_iff.mpr List.nodup_range
  have hlen := hperm.length_eq
  rw [List.length_range, List.length_append, List.length_cons] at hlen
  have hall := h.taken_all hperm
  rw [taken_append, taken_cons] at hall
  have hpre := h.taken_eq (List.nodup_append.mp hnd).1
  have hpost := h.taken_eq (List.nodup_cons.mp (List.nodup_append.mp hnd).2.1).2
  have ht := h.nVarsPerThread_eq t
  have hN := h.variables_lt
  have hn := h.changed_le
  have hstart := h.start_lt
  rw [← hq, ← hrest] at hpre hpost ht
  by_cases hzero : taken c m post = 0
  · exact .inl hzero
  refine .inr ?_
  by_cases hturn : m.currentIdxThreads + taken c m pre < c.numberOfVariables
  · rw [ringPos, Nat.mod_eq_of_lt hturn]
    rcases hfits with hq0 | hfits
    · rw [← hq] at hq0
      have : m.nVarsPerThread c t + taken c m post ≤ m.numberOfChangedVariables := by omega
      have hmem : c.numberOfPoolThreads - 1 ∈ post := by
        by_contra hnot
        rw [if_neg hnot, hq0] at hpost
        omega
      have hne : t ≠ c.numberOfPoolThreads - 1 := fun he =>
        (List.nodup_cons.mp (List.nodup_append.mp hnd).2.1).1 (he ▸ hmem)
      rw [if_neg hne, hq0] at ht
      omega
    · by_cases hlast : post = []
      · exact absurd (by rw [hlast]; rfl) hzero
      have hpos : 0 < post.length := List.length_pos_of_ne_nil hlast
      have hj := hfits pre.length (by omega)
      rw [← hq, ← hrest, Nat.succ_mul] at hj
      have hle : taken c m pre + m.nVarsPerThread c t ≤ pre.length * q + q + rest := by
        have hone : ¬ (c.numberOfPoolThreads - 1 ∈ pre ∧ t = c.numberOfPoolThreads - 1) := by
          rintro ⟨hmem, rfl⟩
          exact (List.nodup_append.mp hnd).2.2 _ hmem _ List.mem_cons_self rfl
        split_ifs at hpre ht <;> first | omega | exact absurd ⟨‹_›, ‹_›⟩ hone
      have := hj (by split_ifs at hpre <;> omega)
      omega
  · rw [ringPos, Nat.mod_eq_sub_mod (by omega), Nat.mod_eq_of_lt (by omega)]
    omega

/-- A round that fits is split by every order of arrival. -/
theorem RoundFits.splits (h : IsRound c m) (hfits : RoundFits c m)
    (hperm : order.Perm (List.range c.numberOfPoolThreads)) : SplitsRound c m order := by
  apply splitsRound_of_flatMap h.changed_le
  have hstart := h.start_lt
  have hconsecutive : (takeSlices c m order).flatMap (Slice.positions c) = _ :=
    flatMap_takeSlices h.variables_lt m.currentIdxThreads (by omega) (ringPos_zero hstart).symm
      fun pre t post horder => by
        rw [Nat.zero_add]
        exact RoundFits.sum_lt h hfits (horder ▸ hperm)
  rw [hconsecutive, h.taken_all hperm, List.range_eq_range']

/-! ### Behind a wrap -/

theorem takeSlices_append : ∀ {pre : List ℕ} {m : Main μ}, takeSlices c m (pre ++ post) =
    takeSlices c m pre ++ takeSlices c (pre.foldl (Main.takeSlice c) m) post
  | [], _ => rfl
  | t :: pre, m => by
    rw [List.cons_append, takeSlices, takeSlices, takeSlices_append]
    rfl

/-- Where the queue stands after the first `j` threads. -/
theorem IsRound.after_range (h : IsRound c m) : ∀ j : ℕ, j < c.numberOfPoolThreads →
    m.currentIdxThreads + j * (m.numberOfChangedVariables / c.numberOfPoolThreads) < c.numberOfVariables →
    ((List.range j).foldl (Main.takeSlice c) m).currentIdxThreads =
        m.currentIdxThreads + j * (m.numberOfChangedVariables / c.numberOfPoolThreads) ∧
      ((List.range j).foldl (Main.takeSlice c) m).numberOfChangedVariables = m.numberOfChangedVariables
  | 0, _, _ => by simp
  | j + 1, hj, hlt => by
    rw [Nat.succ_mul] at hlt ⊢
    obtain ⟨hcur, hn⟩ :=
      h.after_range j (by omega) ((Nat.add_le_add_left (Nat.le_add_right _ _) _).trans_lt hlt)
    have hN := h.variables_lt
    have hsize := h.nVarsPerThread_eq j
    rw [if_neg (by omega), Nat.add_zero] at hsize
    rw [List.range_succ, List.foldl_append, List.foldl_cons, List.foldl_nil]
    refine ⟨?_, hn⟩
    simp only [Main.takeSlice]
    have hsame : ((List.range j).foldl (Main.takeSlice c) m).nVarsPerThread c j = m.nVarsPerThread c j := by
      simp only [Main.nVarsPerThread, hn]
    rw [hsame, hsize, hcur, u32_of_lt (by omega), Nat.mod_eq_of_lt (by omega)]
    omega

/-- The order in which thread `T - 1` arrives behind `j` others. -/
def lastBehind (T j : ℕ) : List ℕ := List.range j ++ (T - 1) :: List.range' j (T - 1 - j)

theorem lastBehind_perm {T j : ℕ} (h : j + 1 ≤ T) : (lastBehind T j).Perm (List.range T) := by
  have hrange : List.range T = List.range j ++ List.range' j (T - 1 - j) ++ [T - 1] := by
    obtain ⟨k, rfl⟩ : ∃ k, T = j + k + 1 := ⟨T - (j + 1), by omega⟩
    rw [List.range_succ, show j + k + 1 - 1 = j + k by omega, Nat.add_sub_cancel_left, List.range_add,
      List.range'_eq_map_range]
  rw [hrange, List.append_assoc]
  exact List.Perm.append_left _ (List.perm_append_singleton _ _).symm

/-- **A wrap makes slices overlap**: behind it the next thread starts in the slice before. -/
theorem IsRound.not_splits (h : IsRound c m) {j : ℕ} (hj : j + 2 ≤ c.numberOfPoolThreads)
    (hq : 0 < m.numberOfChangedVariables / c.numberOfPoolThreads)
    (hlt : m.currentIdxThreads + j * (m.numberOfChangedVariables / c.numberOfPoolThreads) <
      c.numberOfVariables)
    (hwrap : 2 ^ 32 ≤ m.currentIdxThreads + (j + 1) * (m.numberOfChangedVariables / c.numberOfPoolThreads) +
      m.numberOfChangedVariables % c.numberOfPoolThreads) :
    ¬ SplitsRound c m (lastBehind c.numberOfPoolThreads j) := by
  intro hsplit
  obtain ⟨hcur, hn⟩ := h.after_range j (by omega) hlt
  have hN := h.variables_lt
  have hle := h.changed_le
  have hdiv := Nat.div_add_mod m.numberOfChangedVariables c.numberOfPoolThreads
  have hmul := Nat.le_mul_of_pos_left (m.numberOfChangedVariables / c.numberOfPoolThreads) h.threads_pos
  have hlast := h.nVarsPerThread_eq (c.numberOfPoolThreads - 1)
  have hnext := h.nVarsPerThread_eq j
  rw [if_pos rfl] at hlast
  rw [if_neg (by omega), Nat.add_zero] at hnext
  rw [Nat.succ_mul] at hwrap
  have hdis := hsplit.disjoint
  rw [lastBehind, show c.numberOfPoolThreads - 1 - j = (c.numberOfPoolThreads - 2 - j) +
    1 by omega, List.range'_succ,
    takeSlices_append, takeSlices, takeSlices] at hdis
  set m' := (List.range j).foldl (Main.takeSlice c) m
  have hsame : ∀ u, m'.nVarsPerThread c u = m.nVarsPerThread c u := fun u => by
    simp only [Main.nVarsPerThread, hn]
  have hwrapped : (m'.takeSlice c (c.numberOfPoolThreads - 1)).currentIdxThreads =
      m'.currentIdxThreads + m.nVarsPerThread c (c.numberOfPoolThreads - 1) - 2 ^ 32 := by
    simp only [Main.takeSlice]
    rw [hsame, u32_add_of_ge (by omega) (by omega) (by omega), Nat.mod_eq_of_lt (by omega)]
  refine (List.pairwise_cons.mp (List.pairwise_append.mp hdis).2.1).1 _ List.mem_cons_self
    (m'.takeSlice c (c.numberOfPoolThreads - 1)).currentIdxThreads ?_ ?_
  · refine (mem_positions hN (by simp only; omega)).mpr
      ⟨c.numberOfVariables + m.nVarsPerThread c (c.numberOfPoolThreads - 1) - 2 ^ 32, ?_, ?_⟩
    · simp only [hsame]
      omega
    · simp only [hwrapped, ringPos]
      rw [show m'.currentIdxThreads +
        (c.numberOfVariables + m.nVarsPerThread c (c.numberOfPoolThreads - 1) - 2 ^ 32) =
        (m'.currentIdxThreads + m.nVarsPerThread c (c.numberOfPoolThreads - 1) - 2 ^ 32) +
          c.numberOfVariables by omega,
        Nat.add_mod_right, Nat.mod_eq_of_lt (by omega)]
  · refine (mem_positions hN (by simp only; omega)).mpr ⟨0, ?_, ringPos_zero (by simp only; omega)⟩
    simp only [nVarsPerThread_takeSlice, hsame, hnext]
    exact hq

/-- Up to `2 ^ 31` PVs every round fits. -/
theorem roundFits_of_le (h : IsRound c m) (hN : c.numberOfVariables ≤ 2 ^ 31) : RoundFits c m := by
  refine .inr fun j hj hlt => ?_
  have hdiv := Nat.div_add_mod m.numberOfChangedVariables c.numberOfPoolThreads
  have hmul : (j + 1) * (m.numberOfChangedVariables / c.numberOfPoolThreads) ≤
      c.numberOfPoolThreads * (m.numberOfChangedVariables / c.numberOfPoolThreads) :=
        Nat.mul_le_mul_right _ (by omega)
  have := h.start_lt
  have := h.changed_le
  omega

/-- **Round slices** split their round in every order of arrival exactly when no sum wraps while a
slice is still to come. -/
theorem slices_split_iff (c : Config) (m : Main μ) (h : IsRound c m) :
    (∀ order : List ℕ, order.Perm (List.range c.numberOfPoolThreads) → SplitsRound c m order) ↔
      RoundFits c m := by
  refine ⟨fun hall => ?_, fun hfits order hperm => hfits.splits h hperm⟩
  by_contra hcon
  obtain ⟨hq, hcon⟩ := not_or.mp hcon
  push Not at hcon
  obtain ⟨j, hj, hlt, hwrap⟩ := hcon
  exact h.not_splits hj (Nat.pos_of_ne_zero hq) hlt hwrap (hall _ (lastBehind_perm (by omega)))

/-- A round of `n` of `N` PVs from `start`, for `T` threads. -/
def roundOf (N T start n : ℕ) : Config × Main Unit :=
  (⟨N, 1, T, 0xFFFFFFFF, 0xFFFFFFFF, 0, false, fun _ => ⟨[], 0, 0, 0, 0⟩⟩,
    { Main.start () () fun _ => false with currentIdxThreads := start, numberOfChangedVariables := n })

/-- Five of seven PVs from the sixth one, for two threads; thread 1 comes first. -/
theorem slices_split_seven : SplitsRound (roundOf 7 2 5 5).1 (roundOf 7 2 5 5).2 [1, 0] :=
  have h : IsRound (roundOf 7 2 5 5).1 (roundOf 7 2 5 5).2 :=
    ⟨by decide, by decide, by decide, by decide, by decide⟩
  (slices_split_iff _ _ h).mpr (roundFits_of_le h (by decide)) [1, 0] (by decide)

/-- With `2 ^ 32 - 1` PVs, a round of all of them from the middle on: thread 1 arrives first. -/
theorem slices_overlap_wrap : ¬ ∀ (c : Config) (m : Main Unit), IsRound c m →
    ∀ order : List ℕ, order.Perm (List.range c.numberOfPoolThreads) → SplitsRound c m order := by
  intro h
  have hround :
      IsRound (roundOf (2 ^ 32 - 1) 2 (2 ^ 31) (2 ^ 32 - 1)).1
      (roundOf (2 ^ 32 - 1) 2 (2 ^ 31) (2 ^ 32 - 1)).2 :=
    ⟨by decide, by decide, by decide, by decide, by decide⟩
  exact hround.not_splits (j := 0) (by decide) (by decide) (by decide) (by decide)
    (h _ _ hround _ (lastBehind_perm (by decide)))

end Hieratika.Sender
