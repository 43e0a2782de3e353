import Hieratika.Foundations.Word

/-!
# Worker ranges

Three places of the source share the PVs out over their threads with the same few
lines: `EpicsParserAndSubscriber::Execute` (which PVs a subscriber thread
initialises and subscribes to), `EpicsParserAndSubscriber::CleanContext`, and
`DiodeReceiverCycleLoop` (which PVs a receiver thread initialises and puts).
Thread `t` of `T` takes `[t * q, (t + 1) * q)` with `q = N / T`, and

    if ((numberOfVariables - end) < nThreads) end = numberOfVariables;

is to give the remainder to the last thread.

## What is proved

The test compares what is left with the number of threads, so it also fires for a
thread that is not the last when fewer than `T` PVs are left after it. The ranges
always cover the PVs and stay inside them; they are disjoint exactly when there is
one thread, or no PV, or `T ≤ N / T + N % T` (`ranges_partition_iff`).
`SendVariables` gives its remainder to thread `T - 1` and has no such case.
-/

namespace Hieratika.Workers

open Foundations

/-- A range of indices `[beg, stop)`; `stop` is the source's `end`. -/
structure Range where
  /-- The first index. -/
  beg : ℕ
  /-- One past the last index. -/
  stop : ℕ
  deriving DecidableEq, Repr

/-- `i` is one of the indices. -/
def Range.Has (r : Range) (i : ℕ) : Prop := r.beg ≤ i ∧ i < r.stop

instance (r : Range) (i : ℕ) : Decidable (r.Has i) := inferInstanceAs (Decidable (_ ∧ _))

/-- `nVarsPerChunk = numberOfVariables / nThreads`. -/
def nVarsPerChunk (numberOfVariables nThreads : ℕ) : ℕ := numberOfVariables / nThreads

/-- The lines the three places share, for chunks of `chunk` PVs. -/
def chunkRange (numberOfVariables nThreads chunk threadId : ℕ) : Range :=
  let beg := u32 (threadId * chunk)
  let stop := u32 (u32 (threadId + 1) * chunk)
  if sub32 numberOfVariables stop < nThreads then ⟨beg, numberOfVariables⟩ else ⟨beg, stop⟩

/-- The range in `EpicsParserAndSubscriber::Execute`. -/
def executeRange (numberOfVariables numberOfPoolThreads threadId : ℕ) : Range :=
  chunkRange numberOfVariables numberOfPoolThreads
    (nVarsPerChunk numberOfVariables numberOfPoolThreads) threadId

/-- The range in `EpicsParserAndSubscriber::CleanContext`. -/
def cleanContextRange (numberOfVariables numberOfPoolThreads threadId : ℕ) : Range :=
  chunkRange numberOfVariables numberOfPoolThreads
    (nVarsPerChunk numberOfVariables numberOfPoolThreads) threadId

/-- The range in `DiodeReceiverCycleLoop`. -/
def cycleLoopRange (numberOfVariables numberOfInitThreads threadId : ℕ) : Range :=
  chunkRange numberOfVariables numberOfInitThreads
    (numberOfVariables / numberOfInitThreads) threadId

/-- The ranges of threads `0..nThreads-1` partition `0..n-1`. -/
structure Partitions (r : ℕ → Range) (nThreads n : ℕ) : Prop where
  /-- No index has two threads. -/
  disjoint : ∀ s < nThreads, ∀ t < nThreads, s ≠ t → ∀ i, (r s).Has i → ¬ (r t).Has i
  /-- Every index has a thread. -/
  cover : ∀ i < n, ∃ t < nThreads, (r t).Has i
  /-- No thread goes past the end. -/
  inside : ∀ t < nThreads, ∀ i, (r t).Has i → i < n

/-! ### The bounds without the words -/

variable {n T t : ℕ}

/-- A whole number of chunks, one for each of the first threads, is at most `n`. -/
theorem mul_chunk_le (ht : t ≤ T) : t * (n / T) ≤ n :=
  (Nat.mul_le_mul_right _ ht).trans (Nat.mul_div_le n T)

/-- Nothing wraps: thread `t` takes `[t * q, (t + 1) * q)`, or up to `n` when fewer
than `T` indices are left. -/
theorem chunkRange_eq (hn : n < 2 ^ 32) (hT : T < 2 ^ 32) (ht : t < T) :
    chunkRange n T (n / T) t =
      if n - (t + 1) * (n / T) < T then ⟨t * (n / T), n⟩ else ⟨t * (n / T), (t + 1) * (n / T)⟩ := by
  have h₁ : t * (n / T) ≤ n := mul_chunk_le ht.le
  have h₂ : (t + 1) * (n / T) ≤ n := mul_chunk_le ht
  simp only [chunkRange]
  rw [u32_of_lt (show t + 1 < 2 ^ 32 by omega), u32_of_lt (h₁.trans_lt hn), u32_of_lt (h₂.trans_lt hn),
    sub32_of_le hn h₂]

/-- After thread `t` there remain the chunks of the threads behind it and the remainder. -/
theorem left_after (ht : t < T) : n - (t + 1) * (n / T) = (T - 1 - t) * (n / T) + n % T := by
  obtain ⟨k, rfl⟩ : ∃ k, T = t + 1 + k := ⟨T - (t + 1), by omega⟩
  have h := Nat.div_add_mod n (t + 1 + k)
  rw [Nat.add_mul] at h
  rw [show t + 1 + k - 1 - t = k by omega]
  omega

/-- The last thread always goes to the end. -/
theorem last_stop (hn : n < 2 ^ 32) (hT : T < 2 ^ 32) (hpos : 0 < T) :
    chunkRange n T (n / T) (T - 1) = ⟨(T - 1) * (n / T), n⟩ := by
  rw [chunkRange_eq hn hT (by omega), if_pos]
  rw [left_after (by omega), Nat.sub_self, Nat.zero_mul, Nat.zero_add]
  exact Nat.mod_lt _ hpos

/-- Any other thread keeps to its chunk when at least `T` indices are left behind it. -/
theorem inner_stop (hn : n < 2 ^ 32) (hT : T < 2 ^ 32) (ht : t + 1 < T) (h : T ≤ n / T + n % T) :
    chunkRange n T (n / T) t = ⟨t * (n / T), (t + 1) * (n / T)⟩ := by
  rw [chunkRange_eq hn hT (by omega), if_neg]
  rw [left_after (by omega)]
  have : n / T ≤ (T - 1 - t) * (n / T) := Nat.le_mul_of_pos_left _ (by omega)
  omega

/-! ### Cover, and when the ranges are disjoint -/

theorem chunkRange_inside (hn : n < 2 ^ 32) (hT : T < 2 ^ 32) (ht : t < T) {i : ℕ}
    (h : (chunkRange n T (n / T) t).Has i) : i < n := by
  have h₂ : (t + 1) * (n / T) ≤ n := mul_chunk_le ht
  rw [chunkRange_eq hn hT ht] at h
  split_ifs at h <;> simp only [Range.Has] at h <;> omega

/-- Index `i` belongs to thread `i / q`, or to the last one when `i` is past all the chunks. -/
theorem chunkRange_cover (hn : n < 2 ^ 32) (hT : T < 2 ^ 32) (hpos : 0 < T) {i : ℕ} (hi : i < n) :
    ∃ t < T, (chunkRange n T (n / T) t).Has i := by
  by_cases hlast : (T - 1) * (n / T) ≤ i
  · refine ⟨T - 1, by omega, ?_⟩
    rw [last_stop hn hT hpos]
    exact ⟨hlast, hi⟩
  · have hlt : i / (n / T) < T - 1 := Nat.div_lt_of_lt_mul (by rw [Nat.mul_comm]; omega)
    have hq : 0 < n / T := Nat.pos_of_ne_zero fun h => by simp [h] at hlast
    have hb : i / (n / T) * (n / T) ≤ i := Nat.div_mul_le_self i (n / T)
    have he : i < (i / (n / T) + 1) * (n / T) := Nat.lt_mul_of_div_lt (Nat.lt_succ_self _) hq
    refine ⟨i / (n / T), by omega, ?_⟩
    rw [chunkRange_eq hn hT (by omega)]
    split_ifs
    · exact ⟨hb, hi⟩
    · exact ⟨hb, he⟩

theorem partitions_of_balanced (hn : n < 2 ^ 32) (hT : T < 2 ^ 32) (hpos : 0 < T)
    (h : T = 1 ∨ n = 0 ∨ T ≤ n / T + n % T) : Partitions (chunkRange n T (n / T)) T n := by
  refine ⟨fun s hs t ht hne i hi hi' => ?_, fun i hi => chunkRange_cover hn hT hpos hi,
    fun t ht i hi => chunkRange_inside hn hT ht hi⟩
  have key : ∀ a b, a < b → b < T → (chunkRange n T (n / T) a).Has i →
      (chunkRange n T (n / T) b).Has i → False := by
    intro a b hab hb ha hb'
    have hi0 : i < n := chunkRange_inside hn hT hb hb'
    have hlt : (chunkRange n T (n / T) a).stop ≤ (a + 1) * (n / T) := by
      rcases h with h | h | h
      · omega
      · omega
      · rw [inner_stop hn hT (by omega) h]
    have hge : b * (n / T) ≤ (chunkRange n T (n / T) b).beg := by
      rw [chunkRange_eq hn hT hb]
      split_ifs <;> exact le_rfl
    have : (a + 1) * (n / T) ≤ b * (n / T) := Nat.mul_le_mul_right _ hab
    have := ha.2
    have := hb'.1
    omega
  rcases Nat.lt_or_gt_of_ne hne with hlt | hlt
  · exact key s t hlt ht hi hi'
  · exact key t s hlt hs hi' hi

/-- With fewer than `T` indices behind thread `T - 2`, it and the last thread both take
the last index. -/
theorem overlap_of_unbalanced (hn : n < 2 ^ 32) (hT : T < 2 ^ 32) (h1 : 1 < T) (h0 : 0 < n)
    (h : n / T + n % T < T) : (chunkRange n T (n / T) (T - 2)).Has (n - 1) ∧
      (chunkRange n T (n / T) (T - 1)).Has (n - 1) := by
  have hbeg : (T - 1) * (n / T) ≤ n - 1 := by
    have hle : (T - 1) * (n / T) + n / T = T * (n / T) := by
      rw [← Nat.succ_mul]
      congr 1
      omega
    have hdiv := Nat.div_add_mod n T
    have hpos : 0 < n / T + n % T := by
      refine Nat.pos_of_ne_zero fun hz => ?_
      obtain ⟨hq, hr⟩ := Nat.add_eq_zero_iff.mp hz
      rw [hq, hr] at hdiv
      omega
    omega
  have hbeg' : (T - 2) * (n / T) ≤ (T - 1) * (n / T) := Nat.mul_le_mul_right _ (by omega)
  constructor
  · rw [chunkRange_eq hn hT (by omega), if_pos]
    · exact ⟨hbeg'.trans hbeg, by simp only; omega⟩
    · rw [left_after (by omega), show T - 1 - (T - 2) = 1 by omega, Nat.one_mul]
      exact h
  · rw [last_stop hn hT (by omega)]
    exact ⟨hbeg, by simp only; omega⟩

/-- The shared lines partition the PVs exactly when at least `T` PVs are left behind thread
`T - 2`, or there is nothing to share. -/
theorem chunkRange_partitions_iff (hn : n < 2 ^ 32) (hT : T < 2 ^ 32) (hpos : 0 < T) :
    Partitions (chunkRange n T (n / T)) T n ↔ T = 1 ∨ n = 0 ∨ T ≤ n / T + n % T := by
  refine ⟨fun hp => ?_, partitions_of_balanced hn hT hpos⟩
  by_contra hc
  push Not at hc
  obtain ⟨h1, h0, h⟩ := hc
  obtain ⟨ha, hb⟩ := overlap_of_unbalanced hn hT (by omega) (by omega) h
  exact hp.disjoint (T - 2) (by omega) (T - 1) (by omega) (by omega) (n - 1) ha hb

/-- **Worker ranges**: for `N` PVs and `T` threads, the ranges of the subscriber threads
(`Execute`, `CleanContext`) and those of the receiver's threads (`DiodeReceiverCycleLoop`)
partition the PVs exactly when `T = 1`, or `N = 0`, or `T ≤ N / T + N % T`. -/
theorem ranges_partition_iff (N T : ℕ) (hN : N < 2 ^ 32) (hT : T < 2 ^ 32) (hpos : 0 < T) :
    (Partitions (executeRange N T) T N ↔ T = 1 ∨ N = 0 ∨ T ≤ N / T + N % T) ∧
      (Partitions (cleanContextRange N T) T N ↔ T = 1 ∨ N = 0 ∨ T ≤ N / T + N % T) ∧
      (Partitions (cycleLoopRange N T) T N ↔ T = 1 ∨ N = 0 ∨ T ≤ N / T + N % T) := by
  have h := chunkRange_partitions_iff hN hT hpos
  exact ⟨h, h, h⟩

/-- Seven PVs over three threads: `2 + 2 + 3`. -/
theorem ranges_partition_seven_three : Partitions (executeRange 7 3) 3 7 :=
  (ranges_partition_iff 7 3 (by decide) (by decide) (by decide)).1.mpr (by decide)

/-- Four PVs over three threads: threads 1 and 2 both take PV 2. -/
theorem ranges_overlap_four_three :
    ¬ ∀ N T : ℕ, N < 2 ^ 32 → T < 2 ^ 32 → 0 < T → Partitions (executeRange N T) T N ∧
      Partitions (cleanContextRange N T) T N ∧ Partitions (cycleLoopRange N T) T N := by
  intro h
  have hp := (h 4 3 (by decide) (by decide) (by decide)).1
  exact hp.disjoint 1 (by decide) 2 (by decide) (by decide) 2 (by decide) (by decide)

end Hieratika.Workers
