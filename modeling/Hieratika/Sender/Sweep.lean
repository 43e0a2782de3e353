import Hieratika.Sender.Scheduler

/-!
# The priority sweep

What one sweep of `PrioritySenderCycleLoop` does to the queue. The sweep scans the
positions from `currentIdx` once around and moves every flagged PV to the end of the
pending front, which is then sorted by an insertion loop; a flagged PV that is already in
the front is moved ahead and met again, and the front may grow past a whole turn.

The invariant of the scan (`Scanned`) has no need to know where exactly a PV ends up: the
front never loses a PV, and a flagged PV is in the front or still to be scanned. Hence
after the sweep the front holds every flagged PV and every PV that was pending before
(`priority_flagged`, `priority_pending`), and the queue is still a permutation.

Positions do not wrap in 32 bits as long as there are fewer than `2 ^ 30` PVs.
-/

namespace Hieratika.Sender

open Foundations Subscriber

variable {μ : Type*} {c : Config}

/-- The parameters a run is made with: a cycle sends at least one PV and at most all of them,
and the queue of 4-byte entries is addressed in 32 bits. -/
structure Config.Fits (c : Config) : Prop where
  pos : 0 < c.numberOfSignalToBeSent * c.numberOfPoolThreads
  le : c.numberOfSignalToBeSent * c.numberOfPoolThreads ≤ c.numberOfVariables
  small : c.numberOfVariables < 2 ^ 30

theorem Config.Fits.max_eq (h : c.Fits) :
    c.maxSignalPerThread = c.numberOfSignalToBeSent * c.numberOfPoolThreads :=
  u32_of_lt (by have := h.le; have := h.small; omega)

theorem Config.Fits.vars_lt (h : c.Fits) : c.numberOfVariables < 2 ^ 32 := h.small.trans (by omega)

theorem Config.Fits.max_pos (h : c.Fits) : 0 < c.maxSignalPerThread := h.max_eq ▸ h.pos

theorem Config.Fits.max_le (h : c.Fits) : c.maxSignalPerThread ≤ c.numberOfVariables :=
  h.max_eq ▸ h.le

theorem Config.Fits.vars_pos (h : c.Fits) : 0 < c.numberOfVariables := h.max_pos.trans_le h.max_le

/-- The number of chunks covers the queue. -/
theorem Config.chunks_cover (hK : 0 < c.maxSignalPerThread)
    (hle : c.maxSignalPerThread ≤ c.numberOfVariables) :
    0 < c.numberOfChunks ∧ c.numberOfChunks ≤ c.numberOfVariables ∧
      c.numberOfVariables ≤ c.numberOfChunks * c.maxSignalPerThread := by
  have heq : u32 (c.numberOfPoolThreads * c.numberOfSignalToBeSent) = c.maxSignalPerThread := by
    rw [Nat.mul_comm]; rfl
  unfold Config.numberOfChunks
  rw [heq]
  generalize c.maxSignalPerThread = K at *
  generalize c.numberOfVariables = N at *
  have hdiv := Nat.div_add_mod N K
  have hmod := Nat.mod_lt N hK
  have hq : 0 < N / K := Nat.div_pos hle hK
  have hmul : K * (N / K) = N / K * K := Nat.mul_comm _ _
  have hone : N / K ≤ N / K * K := Nat.le_mul_of_pos_right _ hK
  dsimp only
  split_ifs with hr
  · rw [Nat.add_mul]; omega
  · rw [Nat.add_zero]; omega

theorem Config.Fits.chunks (h : c.Fits) : 0 < c.numberOfChunks ∧ c.numberOfChunks ≤ c.numberOfVariables ∧
    c.numberOfVariables ≤ c.numberOfChunks * c.maxSignalPerThread := Config.chunks_cover h.max_pos h.max_le

/-- The first `k` positions of the queue. -/
def front (n cur k : ℕ) : Set ℕ := {x | ∃ d < k, ringPos n cur d = x}

theorem front_mono {n cur k l : ℕ} (h : k ≤ l) : front n cur k ⊆ front n cur l :=
  fun _ ⟨d, hd, hx⟩ => ⟨d, by omega, hx⟩

theorem front_subset {n cur k : ℕ} (hn : 0 < n) : front n cur k ⊆ Set.Iio n := by
  rintro _ ⟨d, -, rfl⟩
  exact ringPos_lt hn

/-- A whole turn is the whole queue. -/
theorem mem_front_of_le {n cur k q : ℕ} (hc : cur < n) (hk : n ≤ k) (hq : q < n) : q ∈ front n cur k := by
  obtain ⟨d, hd, hx⟩ := exists_ringPos hc hq
  exact ⟨d, by omega, hx⟩

theorem queueIndex_eq {cur x : ℕ} (h : cur + x < 2 ^ 32) :
    c.queueIndex cur x = ringPos c.numberOfVariables cur x := by
  unfold Config.queueIndex ringPos
  rw [u32_of_lt h]

/-- PV `p` is pending: it is in the first `currentChangePos` positions. -/
def Main.InFront (c : Config) (m : Main μ) (p : ℕ) : Prop :=
  ∃ x ∈ front c.numberOfVariables m.currentIdx m.currentChangePos, m.indexList x = p

/-- The queue is a permutation of the PVs and starts inside. -/
structure Main.Queued (c : Config) (m : Main μ) : Prop where
  bij : Set.BijOn m.indexList (Set.Iio c.numberOfVariables) (Set.Iio c.numberOfVariables)
  cur : m.currentIdx < c.numberOfVariables

/-- No position of a sweep from here wraps, and no count. -/
def Main.Room (c : Config) (m : Main μ) : Prop :=
  m.currentIdx + m.currentChangePos + c.numberOfVariables < 2 ^ 32

theorem Main.Queued.room (hc : c.Fits) {m : Main μ} (h : m.Queued c)
    (hp : m.currentChangePos ≤ c.numberOfVariables) :
    m.Room c := by
  have hcur := h.cur
  have hsmall := hc.small
  unfold Main.Room
  omega

/-- Every PV is somewhere in the queue. -/
theorem Main.Queued.exists_pos {m : Main μ} (h : m.Queued c) {p : ℕ} (hp : p < c.numberOfVariables) :
    ∃ d < c.numberOfVariables, m.indexList (ringPos c.numberOfVariables m.currentIdx d) = p := by
  obtain ⟨q, hq, rfl⟩ := h.bij.surjOn hp
  obtain ⟨d, hd, rfl⟩ := exists_ringPos h.cur hq
  exact ⟨d, hd, rfl⟩

/-! ### One turn of the scan -/

/-- The insertion loop permutes the entries of the front. -/
theorem pushForward_rearranged (hn : 0 < c.numberOfVariables) {cur k : ℕ} (hk : cur + k < 2 ^ 32)
    (pvSize : ℕ) : ∀ (j : ℕ) (list : ℕ → ℕ), j ≤ k →
      Rearranged (front c.numberOfVariables cur (k + 1)) list (c.pushForward cur pvSize j list) := by
  intro j
  induction j with
  | zero => intro list _; exact Rearranged.refl
  | succ j ih =>
    intro list hj
    simp only [Config.pushForward]
    rw [queueIndex_eq (by omega), ringPos_pred hn]
    split_ifs
    · have hmem : ∀ d ≤ j + 1, ringPos c.numberOfVariables cur d ∈ front c.numberOfVariables cur (k + 1) :=
        fun d hd => ⟨d, by omega, rfl⟩
      exact (Rearranged.exchange (hmem j (by omega)) (hmem (j + 1) le_rfl)).trans (ih _ (by omega))
    · exact Rearranged.refl

/-- A scan leaves everything but the queue, the count and the front alone. -/
theorem sweepAt_frame (m : Main μ) (i : ℕ) : c.sweepAt m i =
    { m with indexList := (c.sweepAt m i).indexList, nVariables := (c.sweepAt m i).nVariables,
             currentChangePos := (c.sweepAt m i).currentChangePos } := by
  unfold Config.sweepAt
  dsimp only
  split_ifs <;> rfl

/-- What a turn does when the PV at position `i` is flagged: the front grows by one position,
the entry is exchanged with the one there, and the new front is permuted. -/
theorem sweepAt_flagged (hn : 0 < c.numberOfVariables) {m : Main μ} {i : ℕ}
    (hi : m.currentIdx + i < 2 ^ 32) (hk : m.currentIdx + m.currentChangePos < 2 ^ 32)
    (hv : m.nVariables + 1 < 2 ^ 32) (hk' : m.currentChangePos + 1 < 2 ^ 32)
    (hf : m.changeFlag (m.indexList (ringPos c.numberOfVariables m.currentIdx i)) = true) :
    Rearranged (front c.numberOfVariables m.currentIdx (m.currentChangePos + 1))
        (exchange m.indexList (ringPos c.numberOfVariables m.currentIdx m.currentChangePos)
          (ringPos c.numberOfVariables m.currentIdx i)) (c.sweepAt m i).indexList ∧
      (c.sweepAt m i).currentChangePos = m.currentChangePos + 1 ∧
      (c.sweepAt m i).nVariables = m.nVariables + 1 := by
  simp only [Config.sweepAt]
  rw [queueIndex_eq hi, queueIndex_eq hk, if_pos hf, u32_of_lt hv, u32_of_lt hk']
  exact ⟨pushForward_rearranged hn hk _ _ _ le_rfl, rfl, rfl⟩

theorem sweepAt_unflagged {m : Main μ} {i : ℕ} (hi : m.currentIdx + i < 2 ^ 32)
    (hf : m.changeFlag (m.indexList (ringPos c.numberOfVariables m.currentIdx i)) = false) :
    c.sweepAt m i = m := by
  simp only [Config.sweepAt]
  rw [queueIndex_eq hi, hf]
  rfl

/-! ### The invariant of the scan -/

/-- After `k` turns of the sweep that started in `m₀`. -/
structure Scanned (c : Config) (m₀ : Main μ) (k : ℕ) (m : Main μ) : Prop where
  /-- The rest of the state is untouched. -/
  frame : m = { m₀ with indexList := m.indexList, nVariables := m.nVariables,
                        currentChangePos := m.currentChangePos }
  queued : m.Queued c
  /-- The front and the count grow together, by at most one a turn. -/
  grown : m₀.currentChangePos ≤ m.currentChangePos ∧ m.currentChangePos ≤ m₀.currentChangePos + k ∧
    m.nVariables + m₀.currentChangePos = m.currentChangePos + m₀.nVariables
  /-- The front loses no PV. -/
  kept : ∀ p, m₀.InFront c p → m.InFront c p
  /-- A flagged PV is in the front or still to be scanned. -/
  flagged : ∀ p < c.numberOfVariables, m₀.changeFlag p = true → m.InFront c p ∨
    ∃ d, k ≤ d ∧ d < c.numberOfVariables ∧
      m.indexList (ringPos c.numberOfVariables m.currentIdx d) = p

theorem scanned_zero {m₀ : Main μ} (h : m₀.Queued c) : Scanned c m₀ 0 m₀ where
  frame := rfl
  queued := h
  grown := ⟨le_rfl, le_rfl, Nat.add_comm _ _⟩
  kept := fun _ hp => hp
  flagged := fun _ hp _ => Or.inr <| by
    obtain ⟨d, hd, hx⟩ := h.exists_pos hp
    exact ⟨d, Nat.zero_le _, hd, hx⟩

/-- The entry at position `x` of the old queue is in the new front, if it was in the old front
or is the one that was moved. -/
theorem mem_front_exchange {n cur k i x : ℕ} (hc : cur < n) {list : ℕ → ℕ}
    (hx : x ∈ front n cur k ∨ x = ringPos n cur i) :
    ∃ y ∈ front n cur (k + 1), exchange list (ringPos n cur k) (ringPos n cur i) y = list x := by
  have hn : 0 < n := by omega
  have hend : ringPos n cur k ∈ front n cur (k + 1) := ⟨k, by omega, rfl⟩
  by_cases hxi : x = ringPos n cur i
  · exact ⟨_, hend, by simp [exchange, hxi]⟩
  · have hxk : x ∈ front n cur k := hx.resolve_right hxi
    by_cases hxe : x = ringPos n cur k
    · obtain ⟨d, hd, hdx⟩ := hxk
      have hle : n ≤ k := by
        by_contra hlt
        exact absurd (ringPos_inj (by omega) (by omega) (hdx.trans hxe)) (by omega)
      refine ⟨ringPos n cur i, mem_front_of_le hc (by omega) (ringPos_lt hn), ?_⟩
      subst hxe
      simp [exchange, Ne.symm hxi]
    · exact ⟨x, front_mono (Nat.le_succ k) hxk, by simp [exchange, hxe, hxi]⟩

theorem Scanned.next {m₀ m : Main μ} {k : ℕ} (hk : k < c.numberOfVariables) (hroom : m₀.Room c)
    (hv₀ : m₀.nVariables = m₀.currentChangePos) (h : Scanned c m₀ k m) :
    Scanned c m₀ (k + 1) (c.sweepAt m k) := by
  have hn : 0 < c.numberOfVariables := by omega
  have hcur := h.queued.cur
  have hcur₀ : m.currentIdx = m₀.currentIdx := by rw [h.frame]
  unfold Main.Room at hroom
  obtain ⟨hg₁, hg₂, hg₃⟩ := h.grown
  have hflag : m.changeFlag = m₀.changeFlag := by rw [h.frame]
  cases hf : m.changeFlag (m.indexList (ringPos c.numberOfVariables m.currentIdx k)) with
  | false =>
    rw [sweepAt_unflagged (by omega) hf]
    refine ⟨h.frame, h.queued, ⟨hg₁, by omega, hg₃⟩, h.kept, fun p hp hpf => ?_⟩
    rcases h.flagged p hp hpf with hin | ⟨d, hd, hd', hx⟩
    · exact Or.inl hin
    · have hne : d ≠ k := by
        rintro rfl
        rw [hx, hflag, hpf] at hf
        cases hf
      exact Or.inr ⟨d, by omega, hd', hx⟩
  | true =>
    obtain ⟨hre, hpos, hnv⟩ := sweepAt_flagged hn (by omega) (by omega) (by omega) (by omega) hf
    have hfr := sweepAt_frame (c := c) m k
    have hcur' : (c.sweepAt m k).currentIdx = m.currentIdx := by rw [hfr]
    have hin : ∀ x, x ∈ front c.numberOfVariables m.currentIdx m.currentChangePos ∨
        x = ringPos c.numberOfVariables m.currentIdx k → (c.sweepAt m k).InFront c (m.indexList x) := by
      intro x hx
      rw [Main.InFront, hcur', hpos]
      exact (hre.mem_iff _).mpr (mem_front_exchange hcur hx)
    refine ⟨?_, ⟨?_, hcur'.trans_lt hcur⟩, ⟨by omega, by omega, by omega⟩, fun p hp => ?_, fun p hp hpf => ?_⟩
    · rw [hfr, h.frame]
    · have hex : Rearranged (Set.Iio c.numberOfVariables) m.indexList
          (exchange m.indexList (ringPos c.numberOfVariables m.currentIdx m.currentChangePos)
            (ringPos c.numberOfVariables m.currentIdx k)) :=
        Rearranged.exchange (ringPos_lt hn) (ringPos_lt hn)
      exact (hex.trans (hre.mono (front_subset hn))).bijOn le_rfl h.queued.bij
    · obtain ⟨x, hx, rfl⟩ := h.kept p hp
      exact hin x (Or.inl hx)
    · rcases h.flagged p hp hpf with ⟨x, hx, rfl⟩ | ⟨d, hd, hd', rfl⟩
      · exact Or.inl (hin x (Or.inl hx))
      · by_cases hdk : d = k
        · subst hdk
          exact Or.inl (hin _ (Or.inr rfl))
        by_cases hdf : d < m.currentChangePos
        · exact Or.inl (hin _ (Or.inl ⟨d, hdf, rfl⟩))
        by_cases hde : d = m.currentChangePos
        · left
          rw [Main.InFront, hcur', hpos]
          refine (hre.mem_iff _).mpr ⟨ringPos c.numberOfVariables m.currentIdx k, ⟨k, by omega, rfl⟩, ?_⟩
          have hne : ringPos c.numberOfVariables m.currentIdx k ≠
              ringPos c.numberOfVariables m.currentIdx m.currentChangePos := fun he =>
            hdk (hde.trans (ringPos_inj hk (by omega) he).symm)
          simp [exchange, hne, hde]
        · right
          refine ⟨d, by omega, hd', ?_⟩
          have hout : ringPos c.numberOfVariables m.currentIdx d ∉
              front c.numberOfVariables m.currentIdx (m.currentChangePos + 1) := by
            rintro ⟨e, he, hee⟩
            exact absurd (ringPos_inj (by omega) hd' hee) (by omega)
          rw [hcur', hre.of_notMem hout]
          have h₁ : ringPos c.numberOfVariables m.currentIdx d ≠ ringPos c.numberOfVariables m.currentIdx k :=
            fun he => hdk (ringPos_inj hd' hk he)
          have h₂ : ringPos c.numberOfVariables m.currentIdx d ≠
              ringPos c.numberOfVariables m.currentIdx m.currentChangePos :=
            fun he => hde (ringPos_inj hd' (by omega) he)
          simp [exchange, h₁, h₂]

/-! ### The whole sweep -/

theorem sweep_succ (m : Main μ) (k : ℕ) : c.sweep m (k + 1) = c.sweepAt (c.sweep m k) k := by
  rw [Config.sweep, List.range_succ, List.foldl_append]
  rfl

theorem scanned_sweep {m₀ : Main μ} (h : m₀.Queued c) (hroom : m₀.Room c)
    (hv₀ : m₀.nVariables = m₀.currentChangePos) :
    ∀ k ≤ c.numberOfVariables, Scanned c m₀ k (c.sweep m₀ k) := by
  intro k
  induction k with
  | zero => intro _; exact scanned_zero h
  | succ k ih =>
    intro hk
    rw [sweep_succ]
    exact (ih (by omega)).next (by omega) hroom hv₀

variable {m : Main μ}

theorem priority_scanned (h : m.Queued c) (hroom : m.Room c) :
    Scanned c { m with nVariables := m.currentChangePos } c.numberOfVariables (m.priority c) :=
  have hq : Main.Queued c { m with nVariables := m.currentChangePos } := ⟨h.bij, h.cur⟩
  scanned_sweep hq hroom rfl _ le_rfl

/-- **After the sweep every flagged PV is in the front.** -/
theorem priority_flagged (h : m.Queued c) (hroom : m.Room c) {p : ℕ} (hpn : p < c.numberOfVariables)
    (hf : m.changeFlag p = true) : (m.priority c).InFront c p := by
  rcases (priority_scanned h hroom).flagged p hpn hf with hin | ⟨d, hd, hd', -⟩
  · exact hin
  · omega

/-- **The sweep keeps every pending PV in the front.** -/
theorem priority_pending (h : m.Queued c) (hroom : m.Room c) {p : ℕ} (hin : m.InFront c p) :
    (m.priority c).InFront c p :=
  (priority_scanned h hroom).kept p hin

/-! ### Behind the sweep -/

theorem clamp_le (m : Main μ) : (m.clamp c).nVariables ≤ c.maxSignalPerThread := by
  unfold Main.clamp
  dsimp only
  split_ifs <;> omega

/-- What the end of the preparation changes. -/
theorem settle_eq (m : Main μ) : m.settle c = { m with
    currentChangePos := if m.restarts c then 0 else m.pending
    chunckCounter := if m.restarts c then 0 else m.chunckCounter
    changed := true } := by
  unfold Main.settle
  split_ifs <;> rfl

/-- Without a new trip the pending PVs leave room for a cycle. -/
theorem pending_le (hN : c.numberOfVariables < 2 ^ 32) (hle : c.maxSignalPerThread ≤ c.numberOfVariables)
    (h : m.restarts c = false) : m.pending ≤ c.numberOfVariables - c.maxSignalPerThread := by
  simp only [Main.restarts, sub32_of_le hN hle, Bool.or_eq_false_iff, decide_eq_false_iff_not] at h
  omega

end Hieratika.Sender
