import Hieratika.Foundations.Runs
import Mathlib.Data.Fintype.Card
import Mathlib.Data.Finset.Card
import Mathlib.Tactic.SplitIfs

/-!
# The sender's round barrier

`PrioritySenderCycleLoop` starts a round by posting `eventSem`, a manual-reset event:
`Wait` passes as long as the event is posted. A pool thread (`ThreadCycle`) that comes
back from a round takes `syncSem`, resets the event and counts itself in
`nThreadsFinished`, then waits for the next post; the main loop posts again when it
reads `nThreadsFinished == numberOfPoolThreads`.

## The model

`Step T` interleaves the main loop and `T` pool threads. Its steps are the sections
under `syncSem` and the `Post` and `Wait` operations of the event, as in the source;
connecting always succeeds and `quit` stays `0`. A thread whose send fails goes
through the termination stage, where it resets and counts itself, and back to the
startup stage, where it waits again.

## What is proved

A post is lost when a thread that has passed it comes back and resets the event
before another thread has passed: that thread then waits for a post that needs its own
count. This can happen at the initial post already (`stuck_reachable`), for every
`T ≥ 2`. The barrier is free of deadlock exactly for one thread, and for more threads
in the runs in which a posted event is reset only after every thread has passed it
(`barrier_live_iff`).
-/

namespace Hieratika.Sender.Barrier

open Foundations

/-- Where the main loop is. -/
inductive MainPc where
  /-- Before the initial `Post`. -/
  | start
  /-- At the top of the `while`. -/
  | top
  /-- `nThreadsFinishedTmp` read, not yet compared. -/
  | read (nThreadsFinishedTmp : ℕ)
  /-- `nThreadsFinished` set to `0`, the event not yet posted. -/
  | posting
  deriving DecidableEq

/-- Where a pool thread is. -/
inductive ThreadPc where
  /-- Startup stage, at `eventSem.Wait`. -/
  | startupWait
  /-- Startup stage, past the wait: connecting to the receiver. -/
  | connecting
  /-- Main stage, before the section that resets the event. -/
  | mainLock
  /-- Main stage, at `eventSem.Wait`. -/
  | mainWait
  /-- Main stage, in `SendVariables`. -/
  | sending
  /-- Termination stage, before the section that resets the event. -/
  | terminationLock
  deriving DecidableEq

/-- The thread is at a `Wait`. -/
def ThreadPc.Waits (p : ThreadPc) : Prop := p = .startupWait ∨ p = .mainWait

instance (p : ThreadPc) : Decidable p.Waits := inferInstanceAs (Decidable (_ ∨ _))

/-- The state of the barrier with `T` pool threads. -/
structure State (T : ℕ) where
  /-- The main loop. -/
  main : MainPc
  /-- The pool threads. -/
  threads : Fin T → ThreadPc
  /-- `eventSem` is posted. -/
  posted : Bool
  /-- `nThreadsFinished`. -/
  nThreadsFinished : ℕ

/-- The constructor creates and resets the event; the pool starts before the main loop. -/
def init (T : ℕ) : State T := ⟨.start, fun _ => .startupWait, false, 0⟩

variable {T : ℕ}

/-- Thread `k` moves to `p`. -/
def State.move (s : State T) (k : Fin T) (p : ThreadPc) : State T :=
  { s with threads := Function.update s.threads k p }

/-- The section `eventSem.Reset(); nThreadsFinished++`, after which thread `k` is at `p`. -/
def State.comeBack (s : State T) (k : Fin T) (p : ThreadPc) : State T :=
  { s.move k p with posted := false, nThreadsFinished := s.nThreadsFinished + 1 }

/-- The steps of the main loop and of the threads. -/
inductive Step (T : ℕ) : State T → State T → Prop
  /-- The initial `Post`. -/
  | firstPost {s : State T} : s.main = .start → Step T s { s with main := .top, posted := true }
  /-- The section that reads `nThreadsFinished`. -/
  | readFinished {s : State T} : s.main = .top → Step T s { s with main := .read s.nThreadsFinished }
  /-- Not all the threads are back. -/
  | notYet {s : State T} {n : ℕ} : s.main = .read n → n ≠ T → Step T s { s with main := .top }
  /-- All the threads are back: `nThreadsFinished = 0`. -/
  | clear {s : State T} {n : ℕ} : s.main = .read n → n = T →
      Step T s { s with main := .posting, nThreadsFinished := 0 }
  /-- The `Post` of a new round. -/
  | post {s : State T} : s.main = .posting → Step T s { s with main := .top, posted := true }
  /-- The startup `Wait` passes. -/
  | startupPass {s : State T} {k : Fin T} : s.threads k = .startupWait → s.posted = true →
      Step T s (s.move k .connecting)
  /-- The connection is made; the startup stage ends. -/
  | connect {s : State T} {k : Fin T} : s.threads k = .connecting → Step T s (s.move k .mainLock)
  /-- Main stage: reset and count. -/
  | mainReset {s : State T} {k : Fin T} : s.threads k = .mainLock → Step T s (s.comeBack k .mainWait)
  /-- The `Wait` of the main stage passes. -/
  | mainPass {s : State T} {k : Fin T} : s.threads k = .mainWait → s.posted = true →
      Step T s (s.move k .sending)
  /-- `SendVariables` succeeds; the main stage starts over. -/
  | sent {s : State T} {k : Fin T} : s.threads k = .sending → Step T s (s.move k .mainLock)
  /-- `SendVariables` fails; the termination stage follows. -/
  | sendFailed {s : State T} {k : Fin T} : s.threads k = .sending →
      Step T s (s.move k .terminationLock)
  /-- Termination stage: reset and count, and back to the startup stage. -/
  | terminationReset {s : State T} {k : Fin T} : s.threads k = .terminationLock →
      Step T s (s.comeBack k .startupWait)

/-- Every pool thread waits on an event that is not posted, the count is short of `T`, and
the main loop is past the initial post and not about to post: nobody can move the barrier
again. -/
structure Deadlock (s : State T) : Prop where
  /-- The initial post has been made. -/
  started : s.main ≠ .start
  /-- The main loop is not between the reset of the count and its post. -/
  notPosting : s.main ≠ .posting
  /-- The event is not posted. -/
  unposted : s.posted = false
  /-- The count is short. -/
  short : s.nThreadsFinished < T
  /-- Every thread waits. -/
  blocked : ∀ k, (s.threads k).Waits

/-- The condition on a step: if it resets a posted event, every thread has passed the event. -/
def ResetsAfterPass (s s' : State T) : Prop :=
  s.posted = true → s'.posted = false → ∀ k, ¬ (s.threads k).Waits

/-! ### Counting the threads that wait -/

/-- How many threads are at a `Wait`. -/
def State.waiters (s : State T) : ℕ := (Finset.univ.filter fun k => (s.threads k).Waits).card

theorem waiters_eq_iff (s : State T) : s.waiters = T ↔ ∀ k, (s.threads k).Waits := by
  have h := Finset.card_filter_eq_iff (s := (Finset.univ : Finset (Fin T)))
    (p := fun k => (s.threads k).Waits)
  simpa [State.waiters] using h

/-- A thread that starts to wait is one more. -/
theorem waiters_move_of_waits (s : State T) {k : Fin T} {p : ThreadPc} (hk : ¬ (s.threads k).Waits)
    (hp : p.Waits) : (s.move k p).waiters = s.waiters + 1 := by
  have : (Finset.univ.filter fun j => ((s.move k p).threads j).Waits) =
      insert k (Finset.univ.filter fun j => (s.threads j).Waits) := by
    ext j
    simp only [Finset.mem_filter, Finset.mem_univ, true_and, Finset.mem_insert]
    by_cases hj : j = k
    · subst hj; simp [State.move, hp]
    · simp [State.move, hj]
  rw [State.waiters, this, Finset.card_insert_of_notMem (by simpa using hk), State.waiters]

/-- A thread that moves between places outside the waits changes nothing. -/
theorem waiters_move_of_not (s : State T) {k : Fin T} {p : ThreadPc} (hk : ¬ (s.threads k).Waits)
    (hp : ¬ p.Waits) : (s.move k p).waiters = s.waiters := by
  unfold State.waiters
  congr 1
  ext j
  simp only [Finset.mem_filter, Finset.mem_univ, true_and]
  by_cases hj : j = k
  · subst hj; simp [State.move, hp, hk]
  · simp [State.move, hj]

theorem waiters_comeBack (s : State T) {k : Fin T} {p : ThreadPc} (hk : ¬ (s.threads k).Waits)
    (hp : p.Waits) : (s.comeBack k p).waiters = s.waiters + 1 := waiters_move_of_waits s hk hp

/-! ### The invariant of the runs that reset after everybody has passed -/

/-- While the event is posted nobody is counted; while it is not, the threads that wait are
those counted, and before a post every thread waits. -/
structure Inv (s : State T) : Prop where
  /-- Posted: nobody is counted, and the main loop has read no other count. -/
  posted : s.posted = true → s.nThreadsFinished = 0 ∧ (s.main = .top ∨ s.main = .read 0)
  /-- Not posted, before a post: all the threads wait, none is counted. -/
  prePost : s.posted = false → s.main = .start ∨ s.main = .posting →
    s.nThreadsFinished = 0 ∧ s.waiters = T
  /-- Not posted, within a round: those that wait are those counted. -/
  inRound : s.posted = false → s.main ≠ .start → s.main ≠ .posting → s.nThreadsFinished = s.waiters
  /-- A full count that was read is still full. -/
  full : s.posted = false → s.main = .read T → s.nThreadsFinished = T

theorem inv_init : Inv (init T) := by
  refine ⟨by simp [init], fun _ _ => ⟨rfl, ?_⟩, by simp [init], by simp [init]⟩
  rw [waiters_eq_iff]
  exact fun _ => Or.inl rfl

/-- A move outside the waits keeps the invariant. -/
theorem Inv.move {s : State T} (h : Inv s) {k : Fin T} {p : ThreadPc} (hk : ¬ (s.threads k).Waits)
    (hp : ¬ p.Waits) : Inv (s.move k p) := by
  have hw := waiters_move_of_not s hk hp
  refine ⟨h.posted, fun h1 h2 => ?_, fun h1 h2 h3 => ?_, h.full⟩
  · rw [hw]; exact h.prePost h1 h2
  · rw [hw]; exact h.inRound h1 h2 h3

/-- Passing a posted event keeps the invariant. -/
theorem Inv.pass {s : State T} (h : Inv s) (hpost : s.posted = true) (k : Fin T) (p : ThreadPc) :
    Inv (s.move k p) := by
  have hf : (s.move k p).posted ≠ false := by simp [State.move, hpost]
  exact ⟨h.posted, fun h1 => absurd h1 hf, fun h1 => absurd h1 hf, fun h1 => absurd h1 hf⟩

/-- Coming back keeps the invariant, when a posted event is reset only after everybody has
passed it. -/
theorem Inv.comeBack (hT : 0 < T) {s : State T} (h : Inv s) {k : Fin T} {p : ThreadPc}
    (hk : ¬ (s.threads k).Waits) (hp : p.Waits) (hg : ResetsAfterPass s (s.comeBack k p)) :
    Inv (s.comeBack k p) := by
  have hw := waiters_comeBack s hk hp
  have hlt : s.waiters ≠ T := fun he => hk ((waiters_eq_iff s).mp he k)
  cases hpost : s.posted with
  | true =>
    obtain ⟨hn, hm⟩ := h.posted hpost
    have h0 : s.waiters = 0 := by
      rw [State.waiters, Finset.card_eq_zero, Finset.filter_eq_empty_iff]
      exact fun j _ => hg hpost rfl j
    refine ⟨by simp [State.comeBack], fun _ h2 => ?_, fun _ _ _ => ?_, fun _ h2 => ?_⟩
    · rcases hm with hm | hm <;> simp [State.comeBack, State.move, hm] at h2
    · rw [hw, h0]; simp [State.comeBack, hn]
    · rcases hm with hm | hm <;> simp [State.comeBack, State.move, hm] at h2
      omega
  | false =>
    have hstart : s.main ≠ .start := fun hm => hlt (h.prePost hpost (Or.inl hm)).2
    have hposting : s.main ≠ .posting := fun hm => hlt (h.prePost hpost (Or.inr hm)).2
    have hn := h.inRound hpost hstart hposting
    refine ⟨by simp [State.comeBack], fun _ h2 => ?_, fun _ _ _ => ?_, fun _ h2 => ?_⟩
    · exact absurd h2 (by simp [State.comeBack, State.move, hstart, hposting])
    · rw [hw]; simp [State.comeBack, hn]
    · exact absurd (hn.symm.trans (h.full hpost h2)) hlt

theorem Inv.step (hT : 0 < T) {s s' : State T} (h : Inv s) (hs : Step T s s')
    (hg : ResetsAfterPass s s') : Inv s' := by
  have hnw : ∀ {k : Fin T} {p : ThreadPc}, s.threads k = p → ¬ p.Waits → ¬ (s.threads k).Waits :=
    fun h1 h2 => h1 ▸ h2
  cases hs with
  | firstPost hm =>
    refine ⟨fun _ => ⟨?_, Or.inl rfl⟩, by simp, by simp, by simp⟩
    cases hp : s.posted with
    | true => exact (h.posted hp).1
    | false => exact (h.prePost hp (Or.inl hm)).1
  | readFinished hm =>
    refine ⟨fun hp => ⟨(h.posted hp).1, Or.inr (by simp [(h.posted hp).1])⟩, fun _ h2 => by simp at h2,
      fun hp _ _ => h.inRound hp (by simp [hm]) (by simp [hm]), fun _ h2 => by simpa using h2⟩
  | notYet hm _ =>
    exact ⟨fun hp => ⟨(h.posted hp).1, Or.inl rfl⟩, fun _ h2 => by simp at h2,
      fun hp _ _ => h.inRound hp (by simp [hm]) (by simp [hm]), fun _ h2 => by simp at h2⟩
  | clear hm hn =>
    subst hn
    refine ⟨fun hp => ?_, fun hp _ => ⟨rfl, ?_⟩, fun _ _ h3 => absurd rfl h3, fun _ h2 => by simp at h2⟩
    · rcases (h.posted hp).2 with h1 | h1 <;> rw [hm] at h1 <;> simp at h1
      omega
    · exact (h.inRound hp (by simp [hm]) (by simp [hm])).symm.trans (h.full hp hm)
  | post hm =>
    refine ⟨fun _ => ⟨?_, Or.inl rfl⟩, by simp, by simp, by simp⟩
    cases hp : s.posted with
    | true => exact (h.posted hp).1
    | false => exact (h.prePost hp (Or.inr hm)).1
  | startupPass _ hp => exact h.pass hp _ _
  | connect hk => exact h.move (hnw hk (by decide)) (by decide)
  | mainReset hk => exact h.comeBack hT (hnw hk (by decide)) (by decide) hg
  | mainPass _ hp => exact h.pass hp _ _
  | sent hk => exact h.move (hnw hk (by decide)) (by decide)
  | sendFailed hk => exact h.move (hnw hk (by decide)) (by decide)
  | terminationReset hk => exact h.comeBack hT (hnw hk (by decide)) (by decide) hg

/-- Under the invariant the threads do not all wait with a short count. -/
theorem Inv.not_deadlock {s : State T} (h : Inv s) : ¬ Deadlock s := by
  intro hd
  have hn := h.inRound hd.unposted hd.started hd.notPosting
  have hw := (waiters_eq_iff s).mpr hd.blocked
  have := hd.short
  omega

/-! ### The lost post -/

/-- The state in which thread `k` has taken the initial post and reset the event, and every
other thread still waits for it. -/
def stuck (k : Fin T) : State T :=
  ⟨.top, Function.update (fun _ => .startupWait) k .mainWait, false, 1⟩

/-- Thread `k` connects and comes back before any other thread has passed the startup wait. -/
theorem stuck_reachable (k : Fin T) : Reachable (Step T) (init T) (stuck k) := by
  let s₁ : State T := { init T with main := .top, posted := true }
  have h₁ : Step T (init T) s₁ := .firstPost rfl
  have h₂ : Step T s₁ (s₁.move k .connecting) := .startupPass rfl rfl
  have h₃ : Step T (s₁.move k .connecting) ((s₁.move k .connecting).move k .mainLock) :=
    .connect (by simp [State.move])
  have h₄ : Step T ((s₁.move k .connecting).move k .mainLock)
      (((s₁.move k .connecting).move k .mainLock).comeBack k .mainWait) :=
    .mainReset (by simp [State.move])
  have h := (((Reachable.refl.next h₁).next h₂).next h₃).next h₄
  simpa [s₁, stuck, init, State.comeBack, State.move] using h

theorem stuck_deadlock (hT : 2 ≤ T) (k : Fin T) : Deadlock (stuck k) := by
  refine ⟨by simp [stuck], by simp [stuck], rfl, by simp only [stuck]; omega, fun j => ?_⟩
  by_cases hj : j = k
  · subst hj; simp [stuck, ThreadPc.Waits]
  · simp [stuck, hj, ThreadPc.Waits]

/-- With one thread, a thread that resets the event is the only one and has passed it. -/
theorem resetsAfterPass_one {s s' : State 1} (hs : Step 1 s s') : ResetsAfterPass s s' := by
  have key : ∀ {k : Fin 1} {p : ThreadPc}, s.threads k = p → ¬ p.Waits →
      ∀ j, ¬ (s.threads j).Waits := fun {k p} h1 h2 j => by
    rw [Subsingleton.elim j k, h1]; exact h2
  intro hp hp'
  cases hs with
  | mainReset hk => exact key hk (by decide)
  | terminationReset hk => exact key hk (by decide)
  | _ => simp_all [State.move]

/-- **The round barrier**: no reachable state is a deadlock in the runs in which a posted event
is reset only after every thread has passed it; over all runs, exactly for one thread. -/
theorem barrier_live_iff (T : ℕ) (hT : 0 < T) :
    (∀ s, Reachable (Guarded (Step T) ResetsAfterPass) (init T) s → ¬ Deadlock s) ∧
      ((∀ s, Reachable (Step T) (init T) s → ¬ Deadlock s) ↔ T = 1) := by
  have hsafe : ∀ s, Reachable (Guarded (Step T) ResetsAfterPass) (init T) s → ¬ Deadlock s :=
    fun s hs => (hs.invariant inv_init fun _ _ hi h => hi.step hT h.1 h.2).not_deadlock
  refine ⟨hsafe, fun h => ?_, fun h1 s hs => hsafe s ?_⟩
  · by_contra hne
    exact h _ (stuck_reachable ⟨0, hT⟩) (stuck_deadlock (by omega) _)
  · subst h1
    exact hs.mono fun _ _ h => ⟨h, resetsAfterPass_one h⟩

/-- A step that leaves the event as it is. -/
theorem Step.guarded {s s' : State T} (h : Step T s s') (hp : s'.posted = true ∨ s.posted = false) :
    Guarded (Step T) ResetsAfterPass s s' := by
  refine ⟨h, fun hposted hreset => ?_⟩
  rcases hp with hp | hp
  · rw [hp] at hreset
    cases hreset
  · rw [hp] at hposted
    cases hposted

/-- A pool of two threads that both pass the first post, come back, and pass the next. -/
theorem barrier_live_two : ∃ s, Reachable (Guarded (Step 2) ResetsAfterPass) (init 2) s ∧
    (∀ k, s.threads k = .sending) ∧ s.nThreadsFinished = 0 ∧ ¬ Deadlock s := by
  have hposted := Reachable.refl.next (Step.firstPost (T := 2) (s := init 2) rfl |>.guarded (.inl rfl))
  have hpassed := (hposted.next
    (Step.startupPass (k := 0) rfl rfl |>.guarded (.inl rfl))).next
    (Step.startupPass (k := 1) rfl rfl |>.guarded (.inl rfl))
  have hconnected := (hpassed.next (Step.connect (k := 0) rfl |>.guarded (.inl rfl))).next
    (Step.connect (k := 1) rfl |>.guarded (.inl rfl))
  have hback := (hconnected.next ⟨Step.mainReset (k := 0) rfl, fun _ _ => by decide⟩).next
    (Step.mainReset (k := 1) rfl |>.guarded (.inr rfl))
  have hround := ((hback.next (Step.readFinished rfl |>.guarded (.inr rfl))).next
    (Step.clear rfl rfl |>.guarded (.inr rfl))).next (Step.post rfl |>.guarded (.inl rfl))
  have hrun := (hround.next (Step.mainPass (k := 0) rfl rfl |>.guarded (.inl rfl))).next
    (Step.mainPass (k := 1) rfl rfl |>.guarded (.inl rfl))
  exact ⟨_, hrun, by decide, rfl, (barrier_live_iff 2 (by decide)).1 _ hrun⟩

/-- A pool of two threads: thread 0 resets the initial post before thread 1 has passed it. -/
theorem barrier_deadlock_two :
    ¬ ∀ T : ℕ, 0 < T → ∀ s, Reachable (Step T) (init T) s → ¬ Deadlock s := fun h =>
  h 2 (by decide) _ (stuck_reachable 0) (stuck_deadlock (by decide) 0)

end Hieratika.Sender.Barrier
