import Hieratika.Foundations.Runs
import Mathlib.Data.Nat.Basic
import Mathlib.Logic.Function.Basic
import Mathlib.Tactic.SplitIfs

/-!
# The subscriber's callbacks

`CreateSubscriptions` subscribes twice to every PV: `GetValueCallback` stores the value of an
event and raises the change flag, `GetTimeoutCallback` stores its time stamp. Each is a section
of its own under `fmutex`, as is `Synchronise`.

## The model

The events of a PV are numbered, and a stored value or time stamp is named by the number of its
event. An event happens, then its two callbacks run, in any order and at any time; the callbacks
of one kind run in the order of the events.

## What is proved

A snapshot taken between the two callbacks of an event pairs its value with the time stamp of
another event, or the other way round. A snapshot is right exactly when it is taken while, for
every PV that is flagged, as many value as time stamp callbacks have run (`snapshots_paired_iff`).
-/

namespace Hieratika.Subscriber

open Foundations

/-- What `Synchronise` copies out. -/
structure Snapshot where
  value : ℕ → Option ℕ
  timeStamp : ℕ → Option ℕ
  changedFlags : ℕ → Bool

/-- The storage of the PVs, and how far their events have come. -/
structure Feed where
  /-- The event whose value is at `pv->memory`; `none` before the first. -/
  memory : ℕ → Option ℕ
  /-- The event whose time stamp is at `pv->timeStamp`. -/
  timeStamp : ℕ → Option ℕ
  changedFlagMem : ℕ → Bool
  /-- How many events of a PV have happened. -/
  events : ℕ → ℕ
  /-- For how many of them `GetValueCallback` has run. -/
  values : ℕ → ℕ
  /-- For how many of them `GetTimeoutCallback` has run. -/
  timeStamps : ℕ → ℕ
  /-- The snapshots taken, the last one first. -/
  snapshots : List Snapshot

/-- Nothing has happened. -/
def Feed.start : Feed :=
  ⟨fun _ => none, fun _ => none, fun _ => false, fun _ => 0, fun _ => 0, fun _ => 0, []⟩

/-- `GetValueCallback` for the next event of the PV `p`. -/
def Feed.getValueCallback (s : Feed) (p : ℕ) : Feed :=
  { s with memory := Function.update s.memory p (some (s.values p))
           changedFlagMem := Function.update s.changedFlagMem p true
           values := Function.update s.values p (s.values p + 1) }

/-- `GetTimeoutCallback` for the next event of the PV `p`. -/
def Feed.getTimeoutCallback (s : Feed) (p : ℕ) : Feed :=
  { s with timeStamp := Function.update s.timeStamp p (some (s.timeStamps p))
           timeStamps := Function.update s.timeStamps p (s.timeStamps p + 1) }

/-- What a `Synchronise` would copy now. -/
def Feed.snapshot (s : Feed) : Snapshot := ⟨s.memory, s.timeStamp, s.changedFlagMem⟩

/-- `Synchronise`. -/
def Feed.synchronise (s : Feed) : Feed :=
  { s with changedFlagMem := fun _ => false, snapshots := s.snapshot :: s.snapshots }

/-- The steps of EPICS, the callbacks and the reader. -/
inductive Feed.Step : Feed → Feed → Prop
  /-- An event of the PV `p`. -/
  | event {s : Feed} (p : ℕ) : Feed.Step s { s with events := Function.update s.events p (s.events p + 1) }
  | value {s : Feed} (p : ℕ) : s.values p < s.events p → Feed.Step s (s.getValueCallback p)
  | timeStamp {s : Feed} (p : ℕ) : s.timeStamps p < s.events p → Feed.Step s (s.getTimeoutCallback p)
  | synchronise {s : Feed} : Feed.Step s s.synchronise

/-- The value and the time stamp of every PV reported as changed belong to one event. -/
def Snapshot.Paired (x : Snapshot) : Prop :=
  ∀ p, x.changedFlags p = true → ∃ k, x.value p = some k ∧ x.timeStamp p = some k

/-- For every flagged PV as many callbacks of the two kinds have run: no event is half delivered. -/
def Feed.Level (s : Feed) : Prop := ∀ p, s.changedFlagMem p = true → s.values p = s.timeStamps p

/-- The condition on a step: a `Synchronise` finds no event half delivered. -/
def Feed.Waits (s s' : Feed) : Prop := s'.snapshots ≠ s.snapshots → s.Level

variable {s s' : Feed} {p : ℕ}

/-- The event stored after `n` callbacks of a kind. -/
def lastEvent (n : ℕ) : Option ℕ := if n = 0 then none else some (n - 1)

theorem lastEvent_succ (n : ℕ) : lastEvent (n + 1) = some n := by simp [lastEvent]

/-- What is stored is what the callbacks have brought. -/
structure Feed.Inv (s : Feed) : Prop where
  memory : ∀ p, s.memory p = lastEvent (s.values p)
  timeStamp : ∀ p, s.timeStamp p = lastEvent (s.timeStamps p)
  /-- A PV is flagged by a value callback only. -/
  flagged : ∀ p, s.changedFlagMem p = true → 0 < s.values p

theorem Feed.inv_start : Feed.start.Inv := ⟨fun _ => rfl, fun _ => rfl, fun _ h => by cases h⟩

theorem Feed.Inv.getValueCallback (hs : s.Inv) (p : ℕ) : (s.getValueCallback p).Inv := by
  refine ⟨fun q => ?_, hs.timeStamp, fun q hq => ?_⟩
  · by_cases hqp : q = p
    · subst hqp
      simp [Feed.getValueCallback, lastEvent_succ]
    · simpa only [Feed.getValueCallback, Function.update_of_ne hqp] using hs.memory q
  · by_cases hqp : q = p
    · subst hqp
      simp [Feed.getValueCallback]
    · simp only [Feed.getValueCallback, Function.update_of_ne hqp] at hq ⊢
      exact hs.flagged q hq

theorem Feed.Inv.getTimeoutCallback (hs : s.Inv) (p : ℕ) : (s.getTimeoutCallback p).Inv := by
  refine ⟨hs.memory, fun q => ?_, hs.flagged⟩
  by_cases hqp : q = p
  · subst hqp
    simp [Feed.getTimeoutCallback, lastEvent_succ]
  · simpa only [Feed.getTimeoutCallback, Function.update_of_ne hqp] using hs.timeStamp q

theorem Feed.Inv.step (hs : s.Inv) (hstep : Feed.Step s s') : s'.Inv := by
  cases hstep with
  | event p => exact ⟨hs.memory, hs.timeStamp, hs.flagged⟩
  | value p _ => exact hs.getValueCallback p
  | timeStamp p _ => exact hs.getTimeoutCallback p
  | synchronise => exact ⟨hs.memory, hs.timeStamp, fun _ h => by cases h⟩

/-- A snapshot is paired exactly when no event is half delivered. -/
theorem Feed.Inv.paired_iff (hs : s.Inv) : s.snapshot.Paired ↔ s.Level := by
  refine forall₂_congr fun p hp => ?_
  have hpos : 0 < s.values p := hs.flagged p hp
  show (∃ k, s.memory p = some k ∧ s.timeStamp p = some k) ↔ _
  rw [hs.memory, hs.timeStamp]
  unfold lastEvent
  constructor
  · rintro ⟨k, hv, ht⟩
    split_ifs at hv ht
    have h₁ := Option.some.inj hv
    have h₂ := Option.some.inj ht
    omega
  · intro heq
    exact ⟨s.values p - 1, by rw [if_neg (by omega)], by rw [if_neg (by omega), heq]⟩

/-- **Snapshots pair a value with its time stamp** in every run in which `Synchronise` finds no event
half delivered; in every reachable state, the snapshot taken there does exactly if none is. -/
theorem snapshots_paired_iff (s : Feed) :
    (Reachable (Guarded Feed.Step Feed.Waits) .start s → ∀ x ∈ s.snapshots, x.Paired) ∧
      (Reachable Feed.Step .start s → (s.snapshot.Paired ↔ s.Level)) := by
  have hinv : Reachable Feed.Step .start s → s.Inv := fun hs =>
    hs.invariant Feed.inv_start fun _ _ hi hstep => hi.step hstep
  refine ⟨fun hs => ?_, fun hs => (hinv hs).paired_iff⟩
  have hall : s.Inv ∧ ∀ x ∈ s.snapshots, x.Paired := by
    refine hs.invariant (I := fun s => s.Inv ∧ ∀ x ∈ s.snapshots, x.Paired)
      ⟨Feed.inv_start, by simp [Feed.start]⟩ ?_
    rintro a b ⟨hi, hpaired⟩ ⟨hstep, hg⟩
    refine ⟨hi.step hstep, ?_⟩
    cases hstep with
    | event | value | timeStamp => exact hpaired
    | synchronise =>
      have hlevel : a.Level := hg (List.cons_ne_self _ _)
      intro x hx
      rcases List.mem_cons.mp hx with rfl | hx
      · exact hi.paired_iff.mpr hlevel
      · exact hpaired x hx
  exact hall.2

/-- A step that takes no snapshot. -/
theorem Feed.Step.guarded (h : Feed.Step s s') (hsame : s'.snapshots = s.snapshots) :
    Guarded Feed.Step Feed.Waits s s' := ⟨h, fun hne => absurd hsame hne⟩

/-- Two events of PV 0 and one of PV 1, each delivered before the next snapshot. -/
theorem snapshots_paired_delivered : ∃ s, Reachable (Guarded Feed.Step Feed.Waits) .start s ∧
    (s.snapshots.map fun x => (x.value 0, x.timeStamp 0)) = [(some 1, some 1), (some 0, some 0)] ∧
    (s.snapshots.map fun x => x.changedFlags 1) = [false, true] ∧ ∀ x ∈ s.snapshots, x.Paired := by
  have hevents := (Reachable.refl.next (Feed.Step.guarded (.event (s := .start) 0) rfl)).next
    (Feed.Step.guarded (.event 1) rfl)
  have hcalled := (((hevents.next (Feed.Step.guarded (.value 0 (by decide)) rfl)).next
    (Feed.Step.guarded (.timeStamp 1 (by decide)) rfl)).next
    (Feed.Step.guarded (.timeStamp 0 (by decide)) rfl)).next (Feed.Step.guarded (.value 1 (by decide)) rfl)
  have hfirst := hcalled.next ⟨.synchronise, fun _ p hp => by
    match p with
    | 0 | 1 => rfl
    | p + 2 => cases hp⟩
  have hagain := ((hfirst.next (Feed.Step.guarded (.event 0) rfl)).next
    (Feed.Step.guarded (.value 0 (by decide)) rfl)).next (Feed.Step.guarded (.timeStamp 0 (by decide)) rfl)
  have hrun := hagain.next ⟨.synchronise, fun _ p hp => by
    match p with
    | 0 => rfl
    | p + 1 => cases hp⟩
  exact ⟨_, hrun, rfl, rfl, (snapshots_paired_iff _).1 hrun⟩

/-- The value callback of the first event of PV 0 has run, its time stamp callback has not. -/
def halfDelivered : Feed := { Feed.start with events := Function.update (fun _ => 0) 0 1 }.getValueCallback 0

/-- A snapshot between the two callbacks. -/
theorem snapshot_unpaired :
    ¬ ∀ s, Reachable Feed.Step .start s → ∀ x ∈ s.snapshots, x.Paired := by
  intro hall
  have h₁ : Feed.Step .start { Feed.start with events := Function.update (fun _ => 0) 0 1 } := .event 0
  have h₂ : Feed.Step _ halfDelivered := .value 0 (by decide)
  have hreach := ((Reachable.refl.next h₁).next h₂).next .synchronise
  obtain ⟨k, -, ht⟩ := hall _ hreach halfDelivered.snapshot (by simp [Feed.synchronise]) 0 (by decide)
  cases ht

end Hieratika.Subscriber
