import Hieratika.Foundations.Runs
import Hieratika.Foundations.Tally
import Hieratika.Receiver.Startup

/-!
# The handshake at the start

`Start` waits until `threadSetContext` says that every initialisation thread has sized the PVs of its
range, places the PVs, allocates the memory, starts the server and posts `eventSem`. Each thread numbers
itself under the lock, sizes its PVs, resets `eventSem`, counts itself and waits; then it puts until
`quit` is set. `Stop` sets `quit` and posts `eventSem`.

## The model

The threads, `Start` and calls of `Stop` take their steps in any order. A thread that has not been begun is
one that has taken no step. `Wait` passes while the event is posted. `contexts` says in which threads
`ca_context_create` is `ECA_NORMAL`; the others size nothing.

A turn of the loop over a range makes many writes to one descriptor. For a PV that one thread has in its range
(`Alone`) it is a step. Several threads can have a PV in their ranges, and take no lock: what is in its
descriptor, during a turn and behind it, is then left open.

`quit` is an `int32`: the calls of `Stop` are fewer than `2 ^ 32`, so that it does not come round to 0.

## What is proved

`Start` places the PVs only when every thread is through its range. The PVs of one thread are then sized, no
descriptor is touched again, and every number below `numberOfInitThreads` belongs to one thread
(`layout_after_sizing`); no thread puts before everything is allocated, even if `Stop` comes in between
(`cycle_after_start`); and if `Stop` comes after `Start`, no post is lost: nobody waits behind it
(`no_thread_left_waiting`).
-/

namespace Hieratika.Receiver

open Foundations Workers

/-- Where `Start` is. -/
inductive StartPc where
  /-- Before `while ((uint32) threadSetContext < numberOfInitThreads)` ends. -/
  | polling
  /-- Before the PVs are placed and the memory is allocated. -/
  | layout
  /-- Before `Listen` and the start of the server. -/
  | server
  /-- Before `lastTickCounter` is allocated. -/
  | ticks
  | posting
  /-- Behind `eventSem.Post`, or the error: only `return err` is left. -/
  | returned (ok : Bool)
  deriving DecidableEq

/-- Where a thread is in `DiodeReceiverCycleLoop`, with its `threadId`. -/
inductive InitPc where
  | begun
  | numbered (threadId : ℕ)
  /-- Before the turn for the PV `n`. -/
  | sizing (threadId n : ℕ)
  | sized (threadId : ℕ)
  /-- Behind `eventSem.Reset`. -/
  | reset (threadId : ℕ)
  /-- At `eventSem.Wait`, counted in `threadSetContext`. -/
  | waiting (threadId : ℕ)
  /-- Before `while (arg.quit == 0)`. -/
  | looping (threadId : ℕ)
  /-- In the body of this loop. -/
  | cycle (threadId : ℕ)
  | leaving (threadId : ℕ)
  deriving DecidableEq

/-- `threadId`, when the thread has one. -/
def InitPc.threadId : InitPc → Option ℕ
  | .begun => none
  | .numbered t | .sizing t _ | .sized t | .reset t | .waiting t | .looping t
  | .cycle t | .leaving t => some t

/-- The thread has counted itself. -/
def InitPc.counted : InitPc → Bool
  | .waiting _ | .looping _ | .cycle _ | .leaving _ => true
  | _ => false

/-- The thread is behind `Wait`. -/
def InitPc.passed : InitPc → Bool
  | .looping _ | .cycle _ | .leaving _ => true
  | _ => false

variable {c : RecSetup} {contexts : Fin c.numberOfInitThreads → Bool} {k : Fin c.numberOfInitThreads}

/-- The receiver while it starts. -/
structure Handshake (c : RecSetup) where
  main : StartPc
  threads : Fin c.numberOfInitThreads → InitPc
  threadCnt : ℕ
  threadSetContext : ℕ
  quit : ℕ
  /-- `eventSem` is posted. -/
  posted : Bool
  /-- The calls of `Stop` that have set `quit` and have not posted yet. -/
  stopping : ℕ
  pvs : ℕ → PvRecDescriptor
  totalMemorySize : ℕ

/-- `Start` begins the threads. -/
def Handshake.start (c : RecSetup) : Handshake c := ⟨.polling, fun _ => .begun, 0, 0, 0, false, 0, c.pvs, 0⟩

/-- Thread `k` goes on. -/
def Handshake.move (s : Handshake c) (k : Fin c.numberOfInitThreads) (pc : InitPc) : Handshake c :=
  { s with threads := Function.update s.threads k pc }

/-- The range of a thread. -/
def RecSetup.range (c : RecSetup) (t : ℕ) : Range :=
  cycleLoopRange c.numberOfVariables c.numberOfInitThreads t

/-- One thread has the PV `n` in its range. -/
def RecSetup.Alone (c : RecSetup) (n : ℕ) : Prop := ∃! t, t < c.numberOfInitThreads ∧ (c.range t).Has n

/-- The steps of the threads, of `Start` and of `Stop`. -/
inductive Handshake.Step (c : RecSetup) (contexts : Fin c.numberOfInitThreads → Bool) :
    Handshake c → Handshake c → Prop
  | number {s : Handshake c} {k} : s.threads k = .begun →
      Handshake.Step c contexts s { s.move k (.numbered s.threadCnt) with threadCnt := s.threadCnt + 1 }
  | context {s : Handshake c} {k} {t : ℕ} : s.threads k = .numbered t → contexts k = true →
      Handshake.Step c contexts s { s.move k (.sizing t (c.range t).beg) with totalMemorySize := 0 }
  | noContext {s : Handshake c} {k} {t : ℕ} : s.threads k = .numbered t → contexts k = false →
      Handshake.Step c contexts s (s.move k (.sized t))
  /-- In a turn for a PV that other threads may come to as well. -/
  | write {s : Handshake c} {k} {t n : ℕ} (pv : PvRecDescriptor) : s.threads k = .sizing t n →
      n < (c.range t).stop → ¬ c.Alone n →
      Handshake.Step c contexts s { s with pvs := Function.update s.pvs n pv }
  /-- The end of a turn. -/
  | size {s : Handshake c} {k} {t n : ℕ} (pv : PvRecDescriptor) : s.threads k = .sizing t n →
      n < (c.range t).stop → (c.Alone n → pv = c.initPv n (s.pvs n)) →
      Handshake.Step c contexts s
        { s.move k (.sizing t (n + 1)) with pvs := Function.update s.pvs n pv }
  | sized {s : Handshake c} {k} {t n : ℕ} : s.threads k = .sizing t n → (c.range t).stop ≤ n →
      Handshake.Step c contexts s (s.move k (.sized t))
  | reset {s : Handshake c} {k} {t : ℕ} : s.threads k = .sized t →
      Handshake.Step c contexts s { s.move k (.reset t) with posted := false }
  | count {s : Handshake c} {k} {t : ℕ} : s.threads k = .reset t →
      Handshake.Step c contexts s { s.move k (.waiting t) with threadSetContext := s.threadSetContext + 1 }
  | pass {s : Handshake c} {k} {t : ℕ} : s.threads k = .waiting t → s.posted = true →
      Handshake.Step c contexts s (s.move k (.looping t))
  | enter {s : Handshake c} {k} {t : ℕ} : s.threads k = .looping t → s.quit = 0 →
      Handshake.Step c contexts s (s.move k (.cycle t))
  | again {s : Handshake c} {k} {t : ℕ} : s.threads k = .cycle t →
      Handshake.Step c contexts s (s.move k (.looping t))
  | leave {s : Handshake c} {k} {t : ℕ} : s.threads k = .looping t → s.quit ≠ 0 →
      Handshake.Step c contexts s (s.move k (.leaving t))
  | poll {s : Handshake c} : s.main = .polling → c.numberOfInitThreads ≤ s.threadSetContext →
      Handshake.Step c contexts s { s with main := .layout }
  | layout {s : Handshake c} : s.main = .layout →
      Handshake.Step c contexts s
        { s with main := .server, totalMemorySize := startOffset s.pvs c.numberOfVariables }
  | listen {s : Handshake c} (ok : Bool) : s.main = .server →
      Handshake.Step c contexts s { s with main := if ok then .ticks else .returned false }
  | ticks {s : Handshake c} : s.main = .ticks → Handshake.Step c contexts s { s with main := .posting }
  | post {s : Handshake c} : s.main = .posting →
      Handshake.Step c contexts s { s with main := .returned true, posted := true }
  | stop {s : Handshake c} : s.quit + 1 < 2 ^ 32 →
      Handshake.Step c contexts s { s with quit := s.quit + 1, stopping := s.stopping + 1 }
  | stopPost {s : Handshake c} : 0 < s.stopping →
      Handshake.Step c contexts s { s with stopping := s.stopping - 1, posted := true }

/-- `Stop` is called when `Start` is behind its post or its error. -/
def StopsLater (s s' : Handshake c) : Prop := s'.quit ≠ s.quit → ∃ ok, s.main = .returned ok

/-! ### A run of two threads -/

/-- Two PVs of one double, and two threads: thread 0 has both PVs in its range, thread 1 the second one. -/
def sharedSetup : RecSetup where
  numberOfVariables := 2
  numberOfInitThreads := 2
  maxArraySize := 20000
  pvs _ := ⟨[], 0, 0, 0⟩
  channel _ := ⟨true, true, 1, dbfDouble⟩
  dbfTypeToText _ := .double
  variables_lt := by decide
  threads_pos := by decide
  threads_lt := by decide
  size_lt _ := by decide

theorem sharedSetup_range : sharedSetup.range 0 = ⟨0, 2⟩ ∧ sharedSetup.range 1 = ⟨1, 2⟩ := by decide

theorem sharedSetup_alone : sharedSetup.Alone 0 := by
  refine ⟨0, by decide, fun t ⟨ht, hhas⟩ => ?_⟩
  obtain rfl | rfl : t = 0 ∨ t = 1 := by
    have hlt : t < 2 := ht
    omega
  · rfl
  · exact absurd hhas (by decide)

theorem sharedSetup_shared : ¬ sharedSetup.Alone 1 := by
  intro h
  have hfirst : 0 < sharedSetup.numberOfInitThreads ∧ (sharedSetup.range 0).Has 1 := by decide
  have hsecond : 1 < sharedSetup.numberOfInitThreads ∧ (sharedSetup.range 1).Has 1 := by decide
  exact absurd (h.unique hfirst hsecond) Nat.zero_ne_one

/-- The threads of the run. -/
def sharedSetup.first : Fin sharedSetup.numberOfInitThreads := ⟨0, Nat.two_pos⟩

def sharedSetup.second : Fin sharedSetup.numberOfInitThreads := ⟨1, Nat.one_lt_two⟩

/-- Steps that leave `quit` alone. -/
theorem stopsLater_of_eq {s s' : Handshake c} (h : s'.quit = s.quit) : StopsLater s s' :=
  fun hne => absurd h hne

/-- Both threads come to the PV 1, size it at the same time and wait; `Start` goes on. -/
theorem exists_layout : ∃ s, Reachable (Guarded (Handshake.Step sharedSetup fun _ => true) StopsLater)
    (.start sharedSetup) s ∧ s.main = .layout ∧ s.threads sharedSetup.first = .waiting 0 ∧
    s.threads sharedSetup.second = .waiting 1 ∧ s.quit = 0 := by
  obtain ⟨hfirst, hsecond⟩ := sharedSetup_range
  have hstart : Reachable (Guarded (Handshake.Step sharedSetup fun _ => true) StopsLater) (.start sharedSetup)
    (.start sharedSetup) := .refl
  have hnumber := hstart.next ⟨.number (k := sharedSetup.first) rfl, stopsLater_of_eq rfl⟩
  have hnumbers := hnumber.next ⟨.number (k := sharedSetup.second) rfl, stopsLater_of_eq rfl⟩
  have hcontext := hnumbers.next ⟨.context (k := sharedSetup.first) (t := 0) rfl rfl, stopsLater_of_eq rfl⟩
  have hcontexts := hcontext.next ⟨.context (k := sharedSetup.second) (t := 1) rfl rfl, stopsLater_of_eq rfl⟩
  have hsize := hcontexts.next ⟨.size (k := sharedSetup.first) (t := 0) (n := 0) _ (by rw [hfirst]; rfl)
    (by rw [hfirst]; exact Nat.two_pos) fun _ => rfl, stopsLater_of_eq rfl⟩
  have hwrite := hsize.next ⟨.write (k := sharedSetup.second) (t := 1) (n := 1) ⟨[], dbfDouble, 1, 0⟩
    (by rw [hsecond]; rfl) (by rw [hsecond]; exact Nat.one_lt_two) sharedSetup_shared, stopsLater_of_eq rfl⟩
  have hshared := hwrite.next ⟨.size (k := sharedSetup.first) (t := 0) (n := 1) ⟨[], dbfDouble, 1, 0⟩ rfl
    (by rw [hfirst]; exact Nat.one_lt_two) fun h => absurd h sharedSetup_shared, stopsLater_of_eq rfl⟩
  have hsizes := hshared.next ⟨.size (k := sharedSetup.second) (t := 1) (n := 1) ⟨[], dbfDouble, 1, 0⟩
    (by rw [hsecond]; rfl) (by rw [hsecond]; exact Nat.one_lt_two) fun h => absurd h sharedSetup_shared,
    stopsLater_of_eq rfl⟩
  have hsized := hsizes.next ⟨.sized (k := sharedSetup.first) (t := 0) (n := 2) rfl (by rw [hfirst]),
    stopsLater_of_eq rfl⟩
  have hall := hsized.next ⟨.sized (k := sharedSetup.second) (t := 1) (n := 2) rfl (by rw [hsecond]),
    stopsLater_of_eq rfl⟩
  have hreset := hall.next ⟨.reset (k := sharedSetup.first) (t := 0) rfl, stopsLater_of_eq rfl⟩
  have hresets := hreset.next ⟨.reset (k := sharedSetup.second) (t := 1) rfl, stopsLater_of_eq rfl⟩
  have hcount := hresets.next ⟨.count (k := sharedSetup.first) (t := 0) rfl, stopsLater_of_eq rfl⟩
  have hcounts := hcount.next ⟨.count (k := sharedSetup.second) (t := 1) rfl, stopsLater_of_eq rfl⟩
  exact ⟨_, hcounts.next ⟨.poll rfl le_rfl, stopsLater_of_eq rfl⟩, rfl, rfl, rfl, rfl⟩

/-- `Start` posts and returns. -/
theorem exists_returned : ∃ s, Reachable (Guarded (Handshake.Step sharedSetup fun _ => true) StopsLater)
    (.start sharedSetup) s ∧ s.main = .returned true ∧ s.threads sharedSetup.first = .waiting 0 ∧
    s.threads sharedSetup.second = .waiting 1 ∧ s.posted = true ∧ s.quit = 0 := by
  obtain ⟨s, hs, hmain, hfirst, hsecond, hquit⟩ := exists_layout
  have hlayout := hs.next ⟨.layout hmain, stopsLater_of_eq rfl⟩
  have hlisten := hlayout.next ⟨.listen true rfl, stopsLater_of_eq rfl⟩
  have hticks := hlisten.next ⟨.ticks rfl, stopsLater_of_eq rfl⟩
  exact ⟨_, hticks.next ⟨.post rfl, stopsLater_of_eq rfl⟩, rfl, hfirst, hsecond, rfl, hquit⟩

/-! ### The numbers and the count -/

/-- The counters count the threads, and the numbers are given in order. -/
structure Handshake.Numbers (s : Handshake c) : Prop where
  threadCnt : s.threadCnt = tally (fun pc : InitPc => pc.threadId ≠ none) s.threads
  lt : ∀ k t, (s.threads k).threadId = some t → t < s.threadCnt
  distinct : ∀ k j t, (s.threads k).threadId = some t → (s.threads j).threadId = some t → k = j
  threadSetContext : s.threadSetContext = tally (fun pc : InitPc => pc.counted = true) s.threads
  /-- `Start` goes on when all are counted. -/
  counted : s.main ≠ .polling → ∀ k, (s.threads k).counted = true

variable {s s' : Handshake c} {pc : InitPc}

theorem Handshake.numbers_start (c : RecSetup) : (Handshake.start c).Numbers where
  threadCnt := (tally_eq_zero fun _ h => h rfl).symm
  lt := fun _ _ h => by cases h
  distinct := fun _ _ _ h => by cases h
  threadSetContext := (tally_eq_zero fun _ h => by cases h).symm
  counted := fun h => absurd rfl h

theorem threadId_move (h : pc.threadId = (s.threads k).threadId) (j : Fin c.numberOfInitThreads) :
    ((s.move k pc).threads j).threadId = (s.threads j).threadId := by
  by_cases hj : j = k
  · subst hj
    simpa [Handshake.move] using h
  · simp [Handshake.move, hj]

/-- A thread that goes on with its number. -/
theorem Handshake.Numbers.move (hs : s.Numbers) (hid : pc.threadId = (s.threads k).threadId)
    (hcounted : pc.counted = (s.threads k).counted) : (s.move k pc).Numbers where
  threadCnt := hs.threadCnt.trans (tally_update_congr (by rw [hid])).symm
  lt := fun j t h => hs.lt j t ((threadId_move hid j).symm.trans h)
  distinct := fun i j t hi hj =>
    hs.distinct i j t ((threadId_move hid i).symm.trans hi) ((threadId_move hid j).symm.trans hj)
  threadSetContext := hs.threadSetContext.trans (tally_update_congr (by rw [hcounted])).symm
  counted := by
    intro hmain j
    by_cases hj : j = k
    · subst hj
      simpa [Handshake.move, hcounted] using hs.counted hmain j
    · simpa [Handshake.move, hj] using hs.counted hmain j

/-- A thread numbers itself under the lock. -/
theorem Handshake.Numbers.number (hs : s.Numbers) (hk : s.threads k = .begun) :
    Handshake.Numbers { s.move k (.numbered s.threadCnt) with threadCnt := s.threadCnt + 1 } where
  threadCnt := by
    have henter := tally_update_enter (P := fun pc : InitPc => pc.threadId ≠ none) (f := s.threads) (k := k)
      (x := .numbered s.threadCnt) (by rw [hk]; exact not_not.mpr rfl) (Option.some_ne_none _)
    exact (congrArg (· + 1) hs.threadCnt).trans henter.symm
  lt := by
    intro j t h
    by_cases hj : j = k
    · subst hj
      simp only [Handshake.move, Function.update_self, InitPc.threadId, Option.some.injEq] at h
      exact h ▸ Nat.lt_succ_self _
    · simp only [Handshake.move, Function.update_of_ne hj] at h
      exact (hs.lt j t h).trans (Nat.lt_succ_self _)
  distinct := by
    have hold : ∀ j, j ≠ k → ∀ t, ((s.move k (.numbered s.threadCnt)).threads j).threadId = some t →
        (s.threads j).threadId = some t ∧ t ≠ s.threadCnt := by
      intro j hj t h
      simp only [Handshake.move, Function.update_of_ne hj] at h
      exact ⟨h, (hs.lt j t h).ne⟩
    have hnew : ∀ t, ((s.move k (.numbered s.threadCnt)).threads k).threadId = some t → t = s.threadCnt := by
      intro t h
      simp only [Handshake.move, Function.update_self, InitPc.threadId, Option.some.injEq] at h
      exact h.symm
    intro i j t hi hj
    by_cases hik : i = k
    · by_cases hjk : j = k
      · rw [hik, hjk]
      · subst hik
        exact absurd (hnew t hi) (hold j hjk t hj).2
    · by_cases hjk : j = k
      · subst hjk
        exact absurd (hnew t hj) (hold i hik t hi).2
      · exact hs.distinct i j t (hold i hik t hi).1 (hold j hjk t hj).1
  threadSetContext := hs.threadSetContext.trans (tally_update_congr (by rw [hk]; rfl)).symm
  counted := by
    intro hmain
    have hcounted := hs.counted hmain k
    rw [hk] at hcounted
    cases hcounted

/-- A thread counts itself. -/
theorem Handshake.Numbers.count (hs : s.Numbers) {t : ℕ} (hk : s.threads k = .reset t) :
    Handshake.Numbers { s.move k (.waiting t) with threadSetContext := s.threadSetContext + 1 } where
  threadCnt := hs.threadCnt.trans (tally_update_congr (by rw [hk]; rfl)).symm
  lt := fun j t' h => hs.lt j t' ((threadId_move (by rw [hk]; rfl) j).symm.trans h)
  distinct := fun i j t' hi hj => hs.distinct i j t' ((threadId_move (by rw [hk]; rfl) i).symm.trans hi)
    ((threadId_move (by rw [hk]; rfl) j).symm.trans hj)
  threadSetContext := by
    have henter := tally_update_enter (P := fun pc : InitPc => pc.counted = true) (f := s.threads) (k := k)
      (x := .waiting t) (by rw [hk]; exact Bool.false_ne_true) rfl
    exact (congrArg (· + 1) hs.threadSetContext).trans henter.symm
  counted := by
    intro hmain
    have hcounted := hs.counted hmain k
    rw [hk] at hcounted
    cases hcounted

/-- `Start` and `Stop` leave the threads alone. -/
theorem Handshake.Numbers.congr (hs : s.Numbers) (hthreads : s'.threads = s.threads)
    (hcnt : s'.threadCnt = s.threadCnt) (hset : s'.threadSetContext = s.threadSetContext)
    (hmain : s'.main ≠ .polling → ∀ k, (s.threads k).counted = true) : s'.Numbers where
  threadCnt := by rw [hcnt, hthreads, hs.threadCnt]
  lt := by
    rw [hthreads, hcnt]
    exact hs.lt
  distinct := by
    rw [hthreads]
    exact hs.distinct
  threadSetContext := by rw [hset, hthreads, hs.threadSetContext]
  counted := by
    rw [hthreads]
    exact hmain

theorem Handshake.Numbers.step (hs : s.Numbers) (h : Handshake.Step c contexts s s') : s'.Numbers := by
  cases h with
  | number hk => exact hs.number hk
  | count hk => exact hs.count hk
  | context hk _ | size _ hk _ _ | reset hk =>
    exact (hs.move (by rw [hk]; rfl) (by rw [hk]; rfl)).congr rfl rfl rfl
      (hs.move (by rw [hk]; rfl) (by rw [hk]; rfl)).counted
  | noContext hk _ | sized hk _ | pass hk _ | enter hk _ | again hk | leave hk _ =>
    exact hs.move (by rw [hk]; rfl) (by rw [hk]; rfl)
  | poll _ hfull =>
    refine hs.congr rfl rfl rfl fun _ => ?_
    rw [hs.threadSetContext] at hfull
    refine (tally_eq_card_iff (P := fun pc : InitPc => pc.counted = true)).mp (le_antisymm tally_le ?_)
    rwa [Fintype.card_fin]
  | layout hmain | listen _ hmain | ticks hmain | post hmain =>
    exact hs.congr rfl rfl rfl fun _ => hs.counted (by rw [hmain]; exact StartPc.noConfusion)
  | write _ _ _ _ | stop _ | stopPost _ => exact hs.congr rfl rfl rfl hs.counted

/-! ### The PVs -/

/-- What a thread has sized, where its context was created. -/
def InitPc.Done (c : RecSetup) (pvs : ℕ → PvRecDescriptor) (context : Bool) : InitPc → Prop
  | .begun | .numbered _ => True
  | .sizing t n => (c.range t).beg ≤ n ∧
      ∀ m, (c.range t).beg ≤ m → m < n → c.Alone m → pvs m = c.initPv m (c.pvs m)
  | .sized t | .reset t | .waiting t | .looping t | .cycle t | .leaving t =>
      context = true → ∀ m, (c.range t).Has m → c.Alone m → pvs m = c.initPv m (c.pvs m)

/-- What is sized stays so. -/
theorem InitPc.Done.mono {pvs pvs' : ℕ → PvRecDescriptor} {context : Bool} (h : pc.Done c pvs context)
    (hle : ∀ m, c.Alone m → pvs m = c.initPv m (c.pvs m) → pvs' m = c.initPv m (c.pvs m)) :
    pc.Done c pvs' context := by
  cases pc with
  | begun | numbered => trivial
  | sizing t n => exact ⟨h.1, fun m hbeg hlt hone => hle m hone (h.2 m hbeg hlt hone)⟩
  | sized t | reset t | waiting t | looping t | cycle t | leaving t =>
    exact fun hcontext m hm hone => hle m hone (h hcontext m hm hone)

/-- The PVs of one thread are sized or not, each thread is through its range as far as it says, and the
total size stands when it is computed. -/
structure Handshake.Sizes (contexts : Fin c.numberOfInitThreads → Bool) (s : Handshake c) : Prop where
  pvs : ∀ n, c.Alone n → s.pvs n = c.pvs n ∨ s.pvs n = c.initPv n (c.pvs n)
  done : ∀ k, (s.threads k).Done c s.pvs (contexts k)
  total : s.main ≠ .polling → s.main ≠ .layout → s.totalMemorySize = startOffset s.pvs c.numberOfVariables

theorem Handshake.sizes_start (c : RecSetup) (contexts : Fin c.numberOfInitThreads → Bool) :
    (Handshake.start c).Sizes contexts :=
  ⟨fun _ _ => Or.inl rfl, fun _ => trivial, fun h => absurd rfl h⟩

theorem Handshake.Sizes.move (hs : s.Sizes contexts) {p : InitPc} (hpc : p.Done c s.pvs (contexts k)) :
    (s.move k p).Sizes contexts := by
  refine ⟨hs.pvs, fun j => ?_, hs.total⟩
  by_cases hj : j = k
  · subst hj
    simpa [Handshake.move] using hpc
  · simpa [Handshake.move, hj] using hs.done j

/-- `Start` goes on behind all threads that size. -/
theorem Handshake.Numbers.polling (hs : s.Numbers) (hk : (s.threads k).counted = false) :
    s.main = .polling := by
  by_contra hmain
  have hcounted := hs.counted hmain k
  rw [hk] at hcounted
  cases hcounted

/-- **A write** to the descriptor of `n`, by a thread that sizes. -/
theorem Handshake.Sizes.write (hn : s.Numbers) (hs : s.Sizes contexts) (hk : (s.threads k).counted = false)
    {n : ℕ} {pv : PvRecDescriptor} (hpv : c.Alone n → pv = c.initPv n (s.pvs n)) :
    Handshake.Sizes contexts { s with pvs := Function.update s.pvs n pv } := by
  have hsized : c.Alone n → pv = c.initPv n (c.pvs n) := by
    intro hone
    rw [hpv hone]
    rcases hs.pvs n hone with h | h
    · rw [h]
    · rw [h, initPv_initPv]
  refine ⟨fun m hone => ?_, fun j => (hs.done j).mono fun m hone hm => ?_, fun hmain => ?_⟩
  · by_cases hm : m = n
    · subst hm
      exact Or.inr ((Function.update_self _ _ _).trans (hsized hone))
    · simpa [hm] using hs.pvs m hone
  · by_cases hmn : m = n
    · subst hmn
      exact (Function.update_self _ _ _).trans (hsized hone)
    · simpa [hmn] using hm
  · exact absurd (hn.polling hk) hmain

/-- **A turn** of a thread over its range. -/
theorem Handshake.Sizes.size (hn : s.Numbers) (hs : s.Sizes contexts) {t n : ℕ} {pv : PvRecDescriptor}
    (hk : s.threads k = .sizing t n) (hpv : c.Alone n → pv = c.initPv n (s.pvs n)) :
    Handshake.Sizes contexts
      { s.move k (.sizing t (n + 1)) with pvs := Function.update s.pvs n pv } := by
  have hwrite := hs.write hn (k := k) (by rw [hk]; rfl) hpv
  have hdone := hwrite.done k
  have hk' : Handshake.threads { s with pvs := Function.update s.pvs n pv } k = .sizing t n := hk
  rw [hk'] at hdone
  refine hwrite.move (p := .sizing t (n + 1)) ⟨hdone.1.trans (Nat.le_succ n), fun m hbeg hm hone => ?_⟩
  rcases Nat.lt_succ_iff_lt_or_eq.mp hm with hm | rfl
  · exact hdone.2 m hbeg hm hone
  · refine (Function.update_self _ _ _).trans ((hpv hone).trans ?_)
    rcases hs.pvs m hone with h | h
    · rw [h]
    · rw [h, initPv_initPv]

theorem Handshake.Sizes.step (hn : s.Numbers) (hs : s.Sizes contexts) (h : Handshake.Step c contexts s s') :
    s'.Sizes contexts := by
  cases h with
  | @number k hk =>
    have hmove := hs.move (show InitPc.Done c s.pvs (contexts k) (.numbered s.threadCnt) from trivial)
    exact ⟨hs.pvs, hmove.done, hmove.total⟩
  | @context k t hk _ =>
    have hmove := hs.move (show InitPc.Done c s.pvs (contexts k) (.sizing t (c.range t).beg) from
      ⟨le_rfl, fun m hbeg hlt => absurd hlt hbeg.not_gt⟩)
    exact ⟨hs.pvs, hmove.done, fun hmain => absurd (hn.polling (by rw [hk]; rfl)) hmain⟩
  | noContext hk hno => exact hs.move fun hyes => by rw [hno] at hyes; cases hyes
  | write pv hk _ hshared => exact hs.write hn (by rw [hk]; rfl) fun hone => absurd hone hshared
  | size pv hk _ hpv => exact hs.size hn hk hpv
  | @sized k t n hk hle =>
    have hdone := hs.done k
    rw [hk] at hdone
    exact hs.move fun _ m hm => hdone.2 m hm.1 (hm.2.trans_le hle)
  | @reset k t hk =>
    have hdone := hs.done k
    rw [hk] at hdone
    have hmove := hs.move (show InitPc.Done c s.pvs (contexts k) (.reset t) from hdone)
    exact ⟨hs.pvs, hmove.done, hs.total⟩
  | @count k t hk =>
    have hdone := hs.done k
    rw [hk] at hdone
    have hmove := hs.move (show InitPc.Done c s.pvs (contexts k) (.waiting t) from hdone)
    exact ⟨hs.pvs, hmove.done, hs.total⟩
  | @pass k t hk _ | @enter k t hk _ | @again k t hk | @leave k t hk _ =>
    have hdone := hs.done k
    rw [hk] at hdone
    exact hs.move hdone
  | poll _ _ => exact ⟨hs.pvs, hs.done, fun _ hlayout => absurd rfl hlayout⟩
  | layout _ => exact ⟨hs.pvs, hs.done, fun _ _ => rfl⟩
  | listen _ hmain | ticks hmain | post hmain =>
    exact ⟨hs.pvs, hs.done, fun _ _ =>
      hs.total (by rw [hmain]; exact StartPc.noConfusion) (by rw [hmain]; exact StartPc.noConfusion)⟩
  | stop _ | stopPost _ => exact ⟨hs.pvs, hs.done, hs.total⟩

theorem Handshake.reachable_sizes (h : Reachable (Handshake.Step c contexts) (.start c) s) :
    s.Numbers ∧ s.Sizes contexts :=
  h.invariant (I := fun s => s.Numbers ∧ s.Sizes contexts)
    ⟨Handshake.numbers_start c, Handshake.sizes_start c contexts⟩
    fun _ _ ha hstep => ⟨ha.1.step hstep, ha.2.step ha.1 hstep⟩

/-- Behind the polling loop of `Start` no thread sizes. -/
theorem Handshake.Numbers.pvs_eq (hs : s.Numbers) (hmain : s.main ≠ .polling)
    (h : Handshake.Step c contexts s s') : s'.main ≠ .polling ∧ s'.pvs = s.pvs := by
  cases h with
  | write _ hk _ _ | size _ hk _ _ => exact absurd (hs.polling (by rw [hk]; rfl)) hmain
  | listen ok _ => cases ok <;> exact ⟨StartPc.noConfusion, rfl⟩
  | poll _ _ | layout _ | ticks _ | post _ => exact ⟨StartPc.noConfusion, rfl⟩
  | number _ | context _ _ | noContext _ _ | sized _ _ | reset _ | count _ | pass _ _ | enter _ _ | again _
  | leave _ _ | stop _ | stopPost _ => exact ⟨hmain, rfl⟩

/-- When all threads are counted, every number belongs to one. -/
theorem Handshake.Numbers.exists_thread (hs : s.Numbers) (hall : ∀ k, (s.threads k).counted = true) {t : ℕ}
    (ht : t < c.numberOfInitThreads) : ∃! k, (s.threads k).threadId = some t := by
  have hsome : ∀ k, ∃ t, (s.threads k).threadId = some t := by
    intro k
    have hcounted := hall k
    cases hk : s.threads k <;> rw [hk] at hcounted <;> first | exact ⟨_, rfl⟩ | cases hcounted
  choose number hnumber using hsome
  have hle : s.threadCnt ≤ c.numberOfInitThreads := by
    rw [hs.threadCnt]
    exact tally_le.trans_eq (Fintype.card_fin _)
  obtain ⟨k, hk, hone⟩ := exists_number (fun k => (hs.lt k _ (hnumber k)).trans_le hle)
    (fun i j heq => hs.distinct i j (number i) (hnumber i) (by rw [heq]; exact hnumber j)) ht
  refine ⟨k, (hnumber k).trans (congrArg some hk), fun j hj => hone j ?_⟩
  exact Option.some.inj ((hnumber j).symm.trans hj)

/-- **The PVs are placed behind the last turn**: when `Start` goes on, every thread is through its range, in
whatever order; the PVs of one thread are sized, no descriptor and no total size changes in anything that
follows, and every number below `numberOfInitThreads` belongs to one thread. -/
theorem layout_after_sizing (c : RecSetup) (contexts : Fin c.numberOfInitThreads → Bool) (s : Handshake c)
    (hcontexts : ∀ k, contexts k = true) (h : Reachable (Handshake.Step c contexts) (.start c) s)
    (hmain : s.main ≠ .polling) :
    (∀ n, c.Alone n → s.pvs n = c.initPv n (c.pvs n)) ∧
      (∀ s', Reachable (Handshake.Step c contexts) s s' → s'.pvs = s.pvs ∧
        (s'.main ≠ .layout → s'.totalMemorySize = startOffset s.pvs c.numberOfVariables)) ∧
      ∀ t < c.numberOfInitThreads, ∃! k, (s.threads k).threadId = some t := by
  obtain ⟨hn, hs⟩ := Handshake.reachable_sizes h
  have hall := hn.counted hmain
  refine ⟨fun n hone => ?_, fun s' hlater => ?_, fun t ht => hn.exists_thread hall ht⟩
  · obtain ⟨t, ht, hm⟩ := hone.exists
    obtain ⟨k, hk, -⟩ := hn.exists_thread hall ht
    have hdone := hs.done k
    have hcounted := hall k
    cases hpc : s.threads k <;> rw [hpc] at hk hdone hcounted <;> cases hk <;>
      first | exact hdone (hcontexts k) n hm hone | cases hcounted
  · have hinv := hlater.invariant (I := fun a => a.Numbers ∧ a.main ≠ .polling ∧ a.pvs = s.pvs)
      ⟨hn, hmain, rfl⟩ fun a b ha hstep =>
        have hkeep := ha.1.pvs_eq ha.2.1 hstep
        ⟨ha.1.step hstep, hkeep.1, hkeep.2.trans ha.2.2⟩
    exact ⟨hinv.2.2, hinv.2.2 ▸ (Handshake.reachable_sizes (h.trans hlater)).2.total hinv.2.1⟩

/-- Two threads: the PV of one of them is sized, though both have been in the turn for the other PV. -/
theorem layout_after_sizing_two : ∃ s : Handshake sharedSetup, s.main = .layout ∧
    s.pvs 0 = ⟨[], dbfDouble, 1, 8⟩ ∧ ∃! k, (s.threads k).threadId = some 1 := by
  obtain ⟨s, hs, hmain, -⟩ := exists_layout
  obtain ⟨hsized, -, hnumbers⟩ := layout_after_sizing sharedSetup (fun _ => true) s (fun _ => rfl)
    (hs.mono fun _ _ h => h.1) (by rw [hmain]; exact StartPc.noConfusion)
  exact ⟨s, hmain, (hsized 0 sharedSetup_alone).trans rfl, hnumbers 1 Nat.one_lt_two⟩

/-! ### The posts -/

/-- Something was posted: by `Start`, at its end, or by `Stop`, behind `quit`. -/
def Handshake.Released (s : Handshake c) : Prop := s.main = .returned true ∨ 0 < s.quit

/-- Who is behind `Wait` was let through by `Start` or by `Stop`, and who puts by `Start`. -/
structure Handshake.Posts (s : Handshake c) : Prop where
  posted : s.posted = true → s.Released
  passed : ∀ k, (s.threads k).passed = true → s.Released
  cycle : ∀ k t, s.threads k = .cycle t → s.main = .returned true
  stopping : s.stopping ≤ s.quit

theorem Handshake.posts_start (c : RecSetup) : (Handshake.start c).Posts where
  posted := fun h => by cases h
  passed := fun _ h => by cases h
  cycle := fun _ _ h => by cases h
  stopping := le_rfl

/-- A thread that does not pass. -/
theorem Handshake.Posts.move (hs : s.Posts) (hpc : pc.passed = true → s.Released)
    (hcycle : ∀ t, pc = .cycle t → s.main = .returned true) : (s.move k pc).Posts := by
  refine ⟨hs.posted, fun j (h : (Function.update s.threads k pc j).passed = true) => ?_, fun j t => ?_,
    hs.stopping⟩
  · by_cases hj : j = k
    · subst hj
      rw [Function.update_self] at h
      exact hpc h
    · rw [Function.update_of_ne hj] at h
      exact hs.passed j h
  · by_cases hj : j = k
    · subst hj
      simpa [Handshake.move] using hcycle t
    · simpa [Handshake.move, hj] using hs.cycle j t

/-- A thread that is not yet at `Wait`. -/
theorem Handshake.Posts.before (hs : s.Posts) (hpc : pc.passed = false) : (s.move k pc).Posts :=
  hs.move (fun h => by rw [hpc] at h; cases h) fun t h => by rw [h] at hpc; cases hpc

/-- `Start` goes on before its end. -/
theorem Handshake.Posts.congr (hs : s.Posts) (hno : ∀ ok, s.main ≠ .returned ok) (main : StartPc)
    (size : ℕ) : Handshake.Posts { s with main := main, totalMemorySize := size } := by
  have hquit : ∀ {s' : Handshake c}, s'.quit = s.quit → s.Released → s'.Released := fun heq h =>
    Or.inr (heq ▸ h.resolve_left (hno true))
  exact ⟨fun h => hquit rfl (hs.posted h), fun k h => hquit rfl (hs.passed k h),
    fun k t h => absurd (hs.cycle k t h) (hno true), hs.stopping⟩

theorem Handshake.Posts.step (hs : s.Posts) (h : Handshake.Step c contexts s s') : s'.Posts := by
  cases h with
  | @number k _ =>
    have hmove : (s.move k (.numbered s.threadCnt)).Posts := hs.before rfl
    exact ⟨hmove.posted, hmove.passed, hmove.cycle, hmove.stopping⟩
  | @context k t _ _ =>
    have hmove : (s.move k (.sizing t (c.range t).beg)).Posts := hs.before rfl
    exact ⟨hmove.posted, hmove.passed, hmove.cycle, hmove.stopping⟩
  | write _ _ _ _ => exact ⟨hs.posted, hs.passed, hs.cycle, hs.stopping⟩
  | @size k t n _ _ _ _ =>
    have hmove : (s.move k (.sizing t (n + 1))).Posts := hs.before rfl
    exact ⟨hmove.posted, hmove.passed, hmove.cycle, hmove.stopping⟩
  | @reset k t _ =>
    have hmove : (s.move k (.reset t)).Posts := hs.before rfl
    exact ⟨fun h => Bool.noConfusion h, hmove.passed, hmove.cycle, hmove.stopping⟩
  | @count k t _ =>
    have hmove : (s.move k (.waiting t)).Posts := hs.before rfl
    exact ⟨hmove.posted, hmove.passed, hmove.cycle, hmove.stopping⟩
  | noContext _ _ | sized _ _ => exact hs.before rfl
  | pass _ hposted => exact hs.move (fun _ => hs.posted hposted) fun _ h => by cases h
  | @enter k t hk hquit =>
    have hmain : s.main = .returned true :=
      (hs.passed k (by rw [hk]; rfl)).resolve_right (by rw [hquit]; exact Nat.lt_irrefl 0)
    exact hs.move (fun _ => Or.inl hmain) fun _ _ => hmain
  | @again k t hk | @leave k t hk _ =>
    exact hs.move (fun _ => hs.passed k (by rw [hk]; rfl)) fun _ h => by cases h
  | poll hmain _ | layout hmain | listen _ hmain | ticks hmain =>
    exact hs.congr (fun ok h => by rw [hmain] at h; cases h) _ _
  | post _ =>
    exact ⟨fun _ => Or.inl rfl, fun _ _ => Or.inl rfl, fun _ _ _ => rfl, hs.stopping⟩
  | stop _ =>
    exact ⟨fun _ => Or.inr (Nat.succ_pos _), fun _ _ => Or.inr (Nat.succ_pos _), hs.cycle,
      Nat.succ_le_succ hs.stopping⟩
  | stopPost hpos =>
    exact ⟨fun _ => Or.inr (hpos.trans_le hs.stopping), hs.passed, hs.cycle,
      (Nat.sub_le _ _).trans hs.stopping⟩

/-- **No thread puts too early**: a thread is in the body of its loop only after `Start` has allocated the
memories and `lastTickCounter` and is behind its post, whenever `Stop` is called. -/
theorem cycle_after_start (c : RecSetup) (contexts : Fin c.numberOfInitThreads → Bool) (s : Handshake c)
    (h : Reachable (Handshake.Step c contexts) (.start c) s) (k : Fin c.numberOfInitThreads) (t : ℕ)
    (hk : s.threads k = .cycle t) : s.main = .returned true := by
  have hposts : s.Posts := h.invariant (Handshake.posts_start c) fun _ _ ha hstep => ha.step hstep
  exact hposts.cycle k t hk

/-- Thread 0 puts, and `Stop` is called; thread 1 leaves its loop at once. -/
theorem cycle_after_start_two : ∃ s : Handshake sharedSetup, s.threads sharedSetup.first = .cycle 0 ∧
    s.threads sharedSetup.second = .leaving 1 ∧ s.quit = 1 ∧ s.main = .returned true := by
  obtain ⟨s, hs, -, hfirst, hsecond, hposted, hquit⟩ := exists_returned
  have hloop := (hs.mono fun _ _ h => h.1).next (.pass hfirst hposted)
  have hcycle := hloop.next (.enter (k := sharedSetup.first) (t := 0) rfl hquit)
  have hstop := hcycle.next (.stop (show s.quit + 1 < 2 ^ 32 by rw [hquit]; decide))
  have hpass := hstop.next (.pass (k := sharedSetup.second) hsecond hposted)
  have hleave := hpass.next (.leave (k := sharedSetup.second) (t := 1) rfl (Nat.succ_ne_zero s.quit))
  refine ⟨_, rfl, rfl, ?_, cycle_after_start sharedSetup (fun _ => true) _ hleave sharedSetup.first 0 rfl⟩
  exact congrArg (· + 1) hquit

/-! ### `Stop` after `Start` -/

/-- What is posted stays posted. -/
structure Handshake.Kept (s : Handshake c) : Prop where
  early : 0 < s.quit → ∃ ok, s.main = .returned ok
  posted : s.main = .returned true ∨ s.stopping < s.quit → s.posted = true

theorem Handshake.kept_start (c : RecSetup) : (Handshake.start c).Kept where
  early := fun h => by cases h
  posted := fun h => by rcases h with h | h <;> cases h

theorem Handshake.Kept.step (hn : s.Numbers) (hs : s.Kept)
    (h : Guarded (Handshake.Step c contexts) StopsLater s s') : s'.Kept := by
  obtain ⟨h, hlater⟩ := h
  have hlt : s.stopping < s.quit → 0 < s.quit := fun h => (Nat.zero_le _).trans_lt h
  have hearly : (∀ ok, s.main ≠ .returned ok) → ¬ (s.main = .returned true ∨ s.stopping < s.quit) := by
    rintro hno (h | h)
    · exact hno true h
    · obtain ⟨ok, hmain⟩ := hs.early (hlt h)
      exact hno ok hmain
  cases h with
  | number _ | context _ _ | noContext _ _ | write _ _ _ _ | size _ _ _ _ | sized _ _ | count _ | pass _ _
  | enter _ _ | again _ | leave _ _ => exact ⟨hs.early, hs.posted⟩
  | @reset k t hk =>
    have hmain := hn.polling (k := k) (by rw [hk]; rfl)
    refine ⟨hs.early, fun h => absurd h (hearly fun ok => ?_)⟩
    rw [hmain]
    exact StartPc.noConfusion
  | poll hmain _ | layout hmain | ticks hmain =>
    have hno : ∀ ok, s.main ≠ .returned ok := fun ok => by rw [hmain]; exact StartPc.noConfusion
    refine ⟨fun h => ?_, fun h => ?_⟩
    · obtain ⟨ok, hreturned⟩ := hs.early h
      exact absurd hreturned (hno ok)
    · exact absurd (h.resolve_left StartPc.noConfusion) fun hlt => hearly hno (Or.inr hlt)
  | listen ok hmain =>
    have hno : ∀ ok, s.main ≠ .returned ok := fun ok => by rw [hmain]; exact StartPc.noConfusion
    refine ⟨fun h => ?_, fun h => ?_⟩
    · obtain ⟨ok, hreturned⟩ := hs.early h
      exact absurd hreturned (hno ok)
    · cases ok <;> exact absurd (h.resolve_left (by simp)) fun hlt => hearly hno (Or.inr hlt)
  | post _ => exact ⟨fun _ => ⟨true, rfl⟩, fun _ => rfl⟩
  | stop _ =>
    obtain ⟨ok, hmain⟩ := hlater (Nat.succ_ne_self _)
    refine ⟨fun _ => ⟨ok, hmain⟩, fun h => hs.posted (h.imp_right fun h => ?_)⟩
    exact Nat.lt_of_succ_lt_succ h
  | stopPost hpos => exact ⟨hs.early, fun _ => rfl⟩

/-- **No post is lost**: if `Stop` is called only when `Start` is behind its post or its error, then from the
post of `Start` on, or from the first post of a `Stop` on, the event stays posted in all that follows, and a
thread at `Wait` can pass. -/
theorem no_thread_left_waiting (c : RecSetup) (contexts : Fin c.numberOfInitThreads → Bool)
    (s s' : Handshake c)
    (h : Reachable (Guarded (Handshake.Step c contexts) StopsLater) (.start c) s)
    (hreleased : s.main = .returned true ∨ s.stopping < s.quit)
    (hlater : Reachable (Guarded (Handshake.Step c contexts) StopsLater) s s') :
    s'.posted = true ∧ ∀ k t, s'.threads k = .waiting t →
      Handshake.Step c contexts s' (s'.move k (.looping t)) := by
  have hinv : s'.Numbers ∧ s'.Kept := (h.trans hlater).invariant (I := fun s => s.Numbers ∧ s.Kept)
    ⟨Handshake.numbers_start c, Handshake.kept_start c⟩
    fun _ _ ha hstep => ⟨ha.1.step hstep.1, ha.2.step ha.1 hstep⟩
  have hstays : s'.main = .returned true ∨ s'.stopping < s'.quit := by
    refine hlater.invariant (I := fun s => s.main = .returned true ∨ s.stopping < s.quit) hreleased ?_
    rintro a b ha ⟨hstep, -⟩
    cases hstep with
    | number _ | context _ _ | noContext _ _ | write _ _ _ _ | size _ _ _ _ | sized _ _ | reset _ | count _
    | pass _ _ | enter _ _ | again _ | leave _ _ => exact ha
    | poll hmain _ | layout hmain | ticks hmain | listen _ hmain =>
      exact Or.inr (ha.resolve_left (by rw [hmain]; exact StartPc.noConfusion))
    | post _ => exact Or.inl rfl
    | stop _ => exact ha.imp_right Nat.succ_lt_succ
    | stopPost _ => exact ha.imp_right fun hlt => (Nat.sub_le _ _).trans_lt hlt
  have hposted := hinv.2.posted hstays
  exact ⟨hposted, fun k t hk => .pass hk hposted⟩

/-- Behind `Stop`, both threads can pass. -/
theorem no_thread_left_waiting_two : ∃ s : Handshake sharedSetup, s.posted = true ∧ s.quit = 1 ∧
    s.threads sharedSetup.first = .waiting 0 ∧ s.threads sharedSetup.second = .waiting 1 := by
  obtain ⟨s, hs, hmain, hfirst, hsecond, -, hquit⟩ := exists_returned
  have hstop : Guarded (Handshake.Step sharedSetup fun _ => true) StopsLater s _ :=
    ⟨.stop (show s.quit + 1 < 2 ^ 32 by rw [hquit]; decide), fun _ => ⟨true, hmain⟩⟩
  have hpost := (Reachable.refl.next hstop).next ⟨.stopPost (Nat.succ_pos _), stopsLater_of_eq rfl⟩
  have hposted := (no_thread_left_waiting sharedSetup (fun _ => true) s _ hs (Or.inl hmain) hpost).1
  exact ⟨_, hposted, congrArg (· + 1) hquit, hfirst, hsecond⟩

end Hieratika.Receiver
