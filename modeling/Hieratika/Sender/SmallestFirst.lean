import Hieratika.Sender.Collect

/-!
# Smallest first

The sweep means to queue the changed PVs by size: a PV is taken forward past those that are larger. But
both sizes it compares are read from the descriptors with the numbers of the queue positions, not from
those of the PVs queued there, and the entry moves on while its position's descriptor stays.

## What is proved

With nothing pending before, the front is in the order of the PVs' own sizes exactly when the
descriptors at the positions rank every flagged PV among the earlier ones as its own size does
(`smallest_first_iff`). Two PVs that have changed places in the queue are sorted the wrong way round
(`larger_first`).
-/

namespace Hieratika.Sender

open Foundations Subscriber

variable {μ : Type*} {c : Config} {m : Main μ}

/-- The bytes of the PV's own value. -/
def Config.ownSize (c : Config) (p : ℕ) : ℕ := (c.pvDes p).numberOfElements * (c.pvDes p).memorySize

/-- The pending PVs are queued smallest first. -/
def Main.SmallestFirst (c : Config) (m : Main μ) : Prop :=
  (m.frontList c).Pairwise fun p q => c.ownSize p ≤ c.ownSize q

/-- The place that the descriptors at the positions give to a flagged PV is behind the smaller ones of the
flagged PVs before it in the queue, and before the larger ones. -/
def Main.RanksRight (c : Config) (m : Main μ) : Prop := ∀ k < c.numberOfVariables, m.flaggedAt c k = true →
  ((earlier (m.flaggedAt c) (m.queuedAt c) k).countP fun p => c.ownSize p <
    c.ownSize (m.queuedAt c k)) ≤ m.placeAt c k ∧
    m.placeAt c k ≤ (earlier (m.flaggedAt c) (m.queuedAt c) k).countP fun p =>
      c.ownSize p ≤ c.ownSize (m.queuedAt c k)

/-- **The changed PVs are queued smallest first** exactly when the descriptors at the positions rank them
as their own sizes do. -/
theorem smallest_first_iff (c : Config) (m : Main μ) (hpos : m.currentChangePos = 0) (hroom : m.Room c) :
    (m.priority c).SmallestFirst c ↔ m.RanksRight c := by
  rw [Main.SmallestFirst, (collected_priority hpos hroom).front]
  exact pairwise_inserted_iff c.ownSize fun _ _ _ => slot_le _

/-- PVs of the given sizes in bytes, `sent` of them in a cycle. -/
def sizedPvs (sizes : List ℕ) (sent maxBytesPerCycle : ℕ) : Config :=
  ⟨sizes.length, 1, sent, maxBytesPerCycle, 0xFFFFFFFF, 120, false, fun p => ⟨[65], 1, sizes.getD p 0, 0, 9⟩⟩

/-- Three changed PVs in their first order, the largest first. -/
theorem smallest_first_three :
    ((Main.queueFrom 0 fun _ => true).priority (sizedPvs [4, 3, 2] 1 0xFFFFFFFF)).SmallestFirst
    (sizedPvs [4, 3, 2] 1 0xFFFFFFFF) :=
  (smallest_first_iff (sizedPvs [4, 3, 2] 1 0xFFFFFFFF) (.queueFrom 0 fun _ => true) rfl
    (by unfold Main.Room; decide)).mpr
    (by unfold Main.RanksRight; decide)

/-- Two PVs that have changed places. -/
def swappedTwo : Main Unit := { Main.queueFrom 0 fun _ => true with indexList := exchange id 0 1 }

theorem swappedTwo_queued (sizes : List ℕ) (sent maxBytesPerCycle : ℕ) (h : sizes.length = 2) :
    swappedTwo.Queued (sizedPvs sizes sent maxBytesPerCycle) := by
  have hn : (sizedPvs sizes sent maxBytesPerCycle).numberOfVariables = 2 := h
  refine ⟨?_, by rw [hn]; exact Nat.two_pos⟩
  rw [hn]
  exact (Rearranged.exchange (Set.mem_Iio.mpr (by omega)) (Set.mem_Iio.mpr (by omega))).bijOn le_rfl
    (Set.bijOn_id _)

theorem larger_first : ¬ ∀ (c : Config) (m : Main Unit), m.Queued c → m.currentChangePos = 0 →
    (m.priority c).SmallestFirst c := by
  intro h
  have hsmall := h (sizedPvs [2, 1] 1 0xFFFFFFFF) swappedTwo (swappedTwo_queued _ _ _ rfl) rfl
  revert hsmall
  unfold Main.SmallestFirst
  decide

end Hieratika.Sender
