import Hieratika.Foundations.Insertion
import Hieratika.Sender.Sweep
import Mathlib.Data.List.Nodup

/-!
# What the sweep collects

The sweep goes through the queue once and takes every flagged PV to the front. With nothing pending
before, what it does is a sequence of insertions: in turn `k` the PV at position `k` of the queue, if
it is flagged, is put in among those taken before it (`front_eq_inserted`). The place is chosen by the
descriptors at the positions that the entry passes.

## What is proved

The front has every flagged PV and every PV that was pending; with nothing pending it has the flagged
ones only, each once (`sweep_collects`). The positions are 32-bit sums, so this needs room for them; a
queue of `2 ^ 32 - 1` PVs has positions that no turn looks at (`sweep_misses`).
-/

namespace Hieratika.Sender

open Foundations Subscriber

variable {μ : Type*} {c : Config} {m m₀ : Main μ} {k : ℕ}

/-- The PV `d` positions behind the start of the queue. -/
def Main.queuedAt (c : Config) (m : Main μ) (d : ℕ) : ℕ :=
  m.indexList (ringPos c.numberOfVariables m.currentIdx d)

/-- It is flagged. -/
def Main.flaggedAt (c : Config) (m : Main μ) (d : ℕ) : Bool := m.changeFlag (m.queuedAt c d)

/-- The pending PVs, in the order of the queue. -/
def Main.frontList (c : Config) (m : Main μ) : List ℕ :=
  entries (ringPos c.numberOfVariables m.currentIdx) m.indexList m.currentChangePos

/-- The size that the code reads for position `d`: that of the descriptor with the number of the
position. -/
def Config.sizeAt (c : Config) (currentIdx d : ℕ) : ℕ :=
  (c.pvDes (ringPos c.numberOfVariables currentIdx d)).totalSize

/-- The place that turn `k` chooses. -/
def Main.placeAt (c : Config) (m : Main μ) (k : ℕ) : ℕ :=
  slot (fun j => decide (c.sizeAt m.currentIdx k < c.sizeAt m.currentIdx j))
    (earlier (m.flaggedAt c) (m.queuedAt c) k).length

/-! ### The sweep as a sequence of insertions -/

theorem pushForward_eq_sink (hn : 0 < c.numberOfVariables) {cur : ℕ} (pvSize : ℕ) : ∀ {j : ℕ} {list : ℕ → ℕ},
    cur + j < 2 ^ 32 → c.pushForward cur pvSize j list =
      sink (ringPos c.numberOfVariables cur) (fun j => decide (pvSize < c.sizeAt cur j)) j list
  | 0, _, _ => rfl
  | j + 1, list, h => by
    simp only [Config.pushForward, sink]
    rw [queueIndex_eq h, ringPos_pred hn, pushForward_eq_sink hn pvSize (by omega)]
    simp only [decide_eq_true_eq]
    rfl

/-- After `k` turns of the sweep that started in `m₀` with nothing pending. -/
structure Collected (c : Config) (m₀ : Main μ) (k : ℕ) (m : Main μ) : Prop where
  cur : m.currentIdx = m₀.currentIdx
  flags : m.changeFlag = m₀.changeFlag
  front : m.frontList c = inserted (m₀.flaggedAt c) (m₀.placeAt c) (m₀.queuedAt c) k
  /-- What is still to be scanned is where it was. -/
  rest : ∀ d, k ≤ d → d < c.numberOfVariables → m.queuedAt c d = m₀.queuedAt c d

/-- The front has one entry for each flagged PV met. -/
theorem Collected.count (h : Collected c m₀ k m) :
    m.currentChangePos = (earlier (m₀.flaggedAt c) (m₀.queuedAt c) k).length := by
  have hlen : (inserted (m₀.flaggedAt c) (m₀.placeAt c) (m₀.queuedAt c) k).length =
      (earlier (m₀.flaggedAt c) (m₀.queuedAt c) k).length := (inserted_perm k).length_eq
  rw [← h.front] at hlen
  exact (length_entries _ _).symm.trans hlen

theorem earlier_length_le {keep : ℕ → Bool} {y : ℕ → ℕ} : (earlier keep y k).length ≤ k := by
  rw [earlier, List.length_map]
  exact (List.length_filter_le _ _).trans List.length_range.le

theorem Collected.next (hk : k < c.numberOfVariables) (hroom : m₀.currentIdx + c.numberOfVariables < 2 ^ 32)
    (h : Collected c m₀ k m) : Collected c m₀ (k + 1) (c.sweepAt m k) := by
  have hn : 0 < c.numberOfVariables := by omega
  have hcur := h.cur
  have hcount := h.count
  have hle : m.currentChangePos ≤ k := hcount ▸ earlier_length_le
  have hsame : m.queuedAt c k = m₀.queuedAt c k := h.rest k le_rfl hk
  have hflag : m.changeFlag (m.queuedAt c k) = m₀.flaggedAt c k := by rw [h.flags, hsame]; rfl
  cases hf : m₀.flaggedAt c k with
  | false =>
    rw [sweepAt_unflagged (by omega) (hflag.trans hf)]
    refine ⟨hcur, h.flags, ?_, fun d hd hd' => h.rest d (by omega) hd'⟩
    rw [inserted, if_neg (by rw [hf]; exact Bool.false_ne_true)]
    exact h.front
  | true =>
    have hinj : ∀ d ≤ k, ∀ e ≤ k, ringPos c.numberOfVariables m.currentIdx d =
      ringPos c.numberOfVariables m.currentIdx e →
        d = e := fun d hd e he => ringPos_inj (by omega) (by omega)
    have hf' : m.changeFlag (m.indexList (ringPos c.numberOfVariables m.currentIdx k)) = true :=
      hflag.trans hf
    have hturn : (c.sweepAt m k).currentIdx = m.currentIdx ∧ (c.sweepAt m k).changeFlag = m.changeFlag ∧
        (c.sweepAt m k).currentChangePos = m.currentChangePos + 1 ∧ (c.sweepAt m k).indexList =
          sink (ringPos c.numberOfVariables m.currentIdx)
            (fun j => decide (c.sizeAt m.currentIdx k < c.sizeAt m.currentIdx j)) m.currentChangePos
            (exchange m.indexList (ringPos c.numberOfVariables m.currentIdx m.currentChangePos)
              (ringPos c.numberOfVariables m.currentIdx k)) := by
      simp only [Config.sweepAt]
      rw [queueIndex_eq (by omega), queueIndex_eq (by omega), if_pos hf', pushForward_eq_sink hn _ (by omega)]
      exact ⟨rfl, rfl, u32_of_lt (by omega), rfl⟩
    obtain ⟨hcur', hflags', hpos', hlist'⟩ := hturn
    refine ⟨hcur'.trans hcur, hflags'.trans h.flags, ?_, fun d hd hd' => ?_⟩
    · have hold : entries (ringPos c.numberOfVariables m.currentIdx) (exchange m.indexList
          (ringPos c.numberOfVariables m.currentIdx m.currentChangePos)
          (ringPos c.numberOfVariables m.currentIdx k))
          m.currentChangePos = m.frontList c := by
        refine entries_congr fun d hd => ?_
        have hend : ringPos c.numberOfVariables m.currentIdx d ≠
            ringPos c.numberOfVariables m.currentIdx m.currentChangePos :=
          fun he => absurd (hinj d (by omega) _ hle he) (by omega)
        have hturn : ringPos c.numberOfVariables m.currentIdx d ≠
            ringPos c.numberOfVariables m.currentIdx k :=
          fun he => absurd (hinj d (by omega) _ le_rfl he) (by omega)
        simp [exchange, hend, hturn]
      have hnew : exchange m.indexList (ringPos c.numberOfVariables m.currentIdx m.currentChangePos)
          (ringPos c.numberOfVariables m.currentIdx k)
          (ringPos c.numberOfVariables m.currentIdx m.currentChangePos) =
            m₀.queuedAt c k := by
        rw [← hsame]
        simp [exchange, Main.queuedAt]
      rw [Main.frontList, hcur', hpos', hlist', entries_sink fun d hd e he =>
        hinj d (by omega) e (by omega), hold, hnew,
        h.front, inserted, if_pos hf, Main.placeAt, hcount, hcur]
    · rw [← h.rest d (by omega) hd', Main.queuedAt, hcur', hlist']
      have hout : ∀ e ≤ k, ringPos c.numberOfVariables m.currentIdx e ≠
          ringPos c.numberOfVariables m.currentIdx d :=
        fun e he heq => absurd (ringPos_inj (by omega) hd' heq) (by omega)
      rw [sink_of_ne fun e he => hout e (by omega)]
      simp [exchange, (hout _ hle).symm, (hout k le_rfl).symm, Main.queuedAt]

/-- **The sweep is a sequence of insertions**, with nothing pending before. -/
theorem collected_sweep (hpos : m.currentChangePos = 0)
    (hroom : m.currentIdx + c.numberOfVariables < 2 ^ 32) :
    ∀ k ≤ c.numberOfVariables, Collected c m k (c.sweep m k) := by
  intro k
  induction k with
  | zero =>
    intro _
    refine ⟨rfl, rfl, ?_, fun _ _ _ => rfl⟩
    rw [Main.frontList, show (c.sweep m 0).currentChangePos = 0 from hpos]
    rfl
  | succ k ih =>
    intro hk
    rw [sweep_succ]
    exact (ih (by omega)).next hk hroom

theorem collected_priority (hpos : m.currentChangePos = 0) (hroom : m.Room c) :
    Collected c { m with nVariables := m.currentChangePos } c.numberOfVariables (m.priority c) := by
  have hroom' : m.currentIdx + c.numberOfVariables < 2 ^ 32 := by
    unfold Main.Room at hroom
    omega
  exact collected_sweep (m := { m with nVariables := m.currentChangePos }) hpos hroom' _ le_rfl

/-! ### What the front holds -/

/-- The PV `p` is in the first `min currentChangePos numberOfVariables` positions of the queue. -/
def Main.Leads (c : Config) (m : Main μ) (p : ℕ) : Prop :=
  ∃ d < min m.currentChangePos c.numberOfVariables, m.queuedAt c d = p

theorem leads_iff_inFront (hcur : m.currentIdx < c.numberOfVariables) {p : ℕ} :
    m.Leads c p ↔ m.InFront c p := by
  constructor
  · rintro ⟨d, hd, hp⟩
    exact ⟨_, ⟨d, by omega, rfl⟩, hp⟩
  · rintro ⟨_, ⟨d, hd, rfl⟩, hp⟩
    have hn : 0 < c.numberOfVariables := by omega
    have hmod := Nat.mod_lt d hn
    have hle := Nat.mod_le d c.numberOfVariables
    exact ⟨d % c.numberOfVariables, by omega, by rw [Main.queuedAt, ringPos_mod]; exact hp⟩

/-- With nothing pending the front has flagged PVs only. -/
theorem priority_only_flagged (hpos : m.currentChangePos = 0) (hroom : m.Room c) {p : ℕ}
    (h : (m.priority c).InFront c p) :
    m.changeFlag p = true := by
  obtain ⟨_, ⟨d, hd, rfl⟩, rfl⟩ := h
  have hcol := collected_priority hpos hroom
  have hmem : (m.priority c).queuedAt c d ∈ (m.priority c).frontList c :=
    List.mem_map.mpr ⟨d, List.mem_range.mpr hd, rfl⟩
  rw [hcol.front, (inserted_perm _).mem_iff, earlier, List.mem_map] at hmem
  obtain ⟨e, he, heq⟩ := hmem
  have hflag : m.changeFlag (m.queuedAt c e) = true := (List.mem_filter.mp he).2
  show m.changeFlag ((m.priority c).queuedAt c d) = true
  rw [← heq]
  exact hflag

/-- The queue has each PV once. -/
theorem Main.Queued.perm_range (hq : m.Queued c) :
    ((List.range c.numberOfVariables).map (m.queuedAt c)).Perm (List.range c.numberOfVariables) := by
  have hn : 0 < c.numberOfVariables := by have := hq.cur; omega
  refine (List.perm_ext_iff_of_nodup ?_ List.nodup_range).mpr fun p => ?_
  · refine List.Nodup.map_on (fun d hd e he heq => ?_) List.nodup_range
    have hpos := hq.bij.injOn (ringPos_lt hn) (ringPos_lt hn) heq
    exact ringPos_inj (List.mem_range.mp hd) (List.mem_range.mp he) hpos
  · rw [List.mem_map, List.mem_range]
    constructor
    · rintro ⟨d, -, rfl⟩
      exact hq.bij.mapsTo (ringPos_lt hn)
    · intro hp
      obtain ⟨d, hd, hx⟩ := hq.exists_pos hp
      exact ⟨d, List.mem_range.mpr hd, hx⟩

/-- With nothing pending it has as many as there are flagged ones. -/
theorem priority_count (hq : m.Queued c) (hpos : m.currentChangePos = 0) (hroom : m.Room c) :
    (m.priority c).currentChangePos = (List.range c.numberOfVariables).countP m.changeFlag := by
  rw [(collected_priority hpos hroom).count, ← hq.perm_range.countP_eq, List.countP_map,
    List.countP_eq_length_filter,
    earlier, List.length_map]
  rfl

/-- What is asked of a sweep: no changed PV is missed, no pending one is lost, and with nothing pending
nothing else is collected. -/
structure Main.Collects (c : Config) (m : Main μ) : Prop where
  flagged : ∀ p < c.numberOfVariables, m.changeFlag p = true → (m.priority c).Leads c p
  kept : ∀ p, m.Leads c p → (m.priority c).Leads c p
  exact : m.currentChangePos = 0 →
    (∀ p, (m.priority c).Leads c p ↔ p < c.numberOfVariables ∧ m.changeFlag p = true) ∧
    (m.priority c).currentChangePos = (List.range c.numberOfVariables).countP m.changeFlag

/-- **The priority sweep collects every changed PV**, from any queue whose positions do not wrap. -/
theorem sweep_collects (c : Config) (m : Main μ) (hq : m.Queued c) (hroom : m.Room c) : m.Collects c := by
  have hscan := priority_scanned hq hroom
  have hlead : ∀ {p}, (m.priority c).Leads c p ↔ (m.priority c).InFront c p :=
    leads_iff_inFront hscan.queued.cur
  refine ⟨fun p hp hf => hlead.mpr (priority_flagged hq hroom hp hf),
    fun p hp => hlead.mpr (priority_pending hq hroom ((leads_iff_inFront hq.cur).mp hp)), fun hpos =>
      ⟨fun p => ?_, ?_⟩⟩
  · rw [hlead]
    constructor
    · intro hp
      refine ⟨?_, priority_only_flagged hpos hroom hp⟩
      obtain ⟨x, hx, rfl⟩ := hp
      have hn : 0 < c.numberOfVariables := by have := hq.cur; omega
      exact hscan.queued.bij.mapsTo (front_subset hn hx)
    · intro hp
      exact priority_flagged hq hroom hp.1 hp.2
  · exact priority_count hq hpos hroom

/-- The queue as it is at the start, from the given position. -/
def Main.queueFrom (currentIdx : ℕ) (flags : ℕ → Bool) : Main Unit :=
  { Main.start () () flags with currentIdx := currentIdx }

theorem queueFrom_queued {currentIdx : ℕ} {flags : ℕ → Bool} (h : currentIdx < c.numberOfVariables) :
    (Main.queueFrom currentIdx flags).Queued c := ⟨Set.bijOn_id _, h⟩

/-- As many PVs as there can be, one in a cycle. -/
def manyPvs (numberOfVariables : ℕ) : Config :=
  ⟨numberOfVariables, 1, 1, 0xFFFFFFFF, 0xFFFFFFFF, 120, false, fun _ => ⟨[65], 1, 8, 0, 9⟩⟩

theorem sweep_collects_three : (Main.queueFrom 2 fun p => p = 1).Collects (manyPvs 3) :=
  sweep_collects (manyPvs 3) _ (queueFrom_queued (by decide)) (by unfold Main.Room; decide)

/-- A sweep that meets no flagged PV changes nothing. -/
theorem sweep_eq_self :
    ∀ {k : ℕ}, (∀ i < k, m.changeFlag (m.indexList (c.queueIndex m.currentIdx i)) = false) → c.sweep m k = m
  | 0, _ => rfl
  | k + 1, h => by
    rw [sweep_succ, sweep_eq_self fun i hi => h i (by omega)]
    unfold Config.sweepAt
    dsimp only
    exact if_neg (by rw [h k (by omega)]; exact Bool.false_ne_true)

/-- With `2 ^ 32 - 1` PVs the positions wrap before the queue does, and the PV before the one the sweep
starts at is not looked at. -/
theorem sweep_misses : ¬ ∀ (c : Config) (m : Main Unit), c.numberOfVariables < 2 ^ 32 → m.Queued c →
    m.currentChangePos ≤ c.numberOfVariables → m.Collects c := by
  intro h
  have hcol := h (manyPvs (2 ^ 32 - 1)) (.queueFrom (2 ^ 32 - 2) fun p => decide (p = 2 ^ 32 - 3))
    (show 2 ^ 32 - 1 < 2 ^ 32 by omega) (queueFrom_queued (show 2 ^ 32 - 2 < 2 ^ 32 - 1 by omega))
    (Nat.zero_le _)
  obtain ⟨d, hd, -⟩ := hcol.flagged (2 ^ 32 - 3) (show 2 ^ 32 - 3 < 2 ^ 32 - 1 by omega)
    (show decide (2 ^ 32 - 3 = 2 ^ 32 - 3) = true from decide_eq_true rfl)
  rw [Main.priority, sweep_eq_self] at hd
  · exact absurd (lt_min_iff.mp hd).1 (Nat.not_lt_zero d)
  · intro i hi
    have hi : i < 2 ^ 32 - 1 := hi
    apply decide_eq_false
    show (2 ^ 32 - 2 + i) % 2 ^ 32 % (2 ^ 32 - 1) ≠ 2 ^ 32 - 3
    omega

end Hieratika.Sender
