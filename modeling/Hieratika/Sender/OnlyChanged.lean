import Hieratika.Sender.Collect
import Hieratika.Sender.Initialise
import Hieratika.Sender.Queue
import Hieratika.Sender.Trip

/-!
# Sending only what has changed

With `SendOnlyChanged` a cycle behind a sweep is to send the pending PVs and no others. `Initialise`
sets the member to 0 when the parameter is given, so such a cycle is filled up to its full number of
PVs; and a sweep that finds a flagged PV among the pending ones takes the PV behind the front in
its place.

## What is proved

`Tally` remembers which PVs have been flagged and not dispatched since. A cycle behind a sweep sends
such PVs only, in every run in which a cycle behind a sweep finds enough of them pending, and a sweep
takes no other PV into the front (`only_changed`). With the parameter at 1 the loop sends PVs that have
never changed (`unchanged_sent`).
-/

namespace Hieratika.Sender

open Foundations Subscriber

variable {μ : Type*} {c : Config}

/-- The loop, with a history of the changes. -/
structure Tally (μ : Type*) where
  loop : Loop μ
  /-- The PVs flagged in some `Synchronise` of the run and not dispatched since. -/
  owed : Set ℕ
  /-- The cycle that is prepared ran the sweep. -/
  swept : Bool

/-- Before the first `Synchronise` of the run. -/
def Tally.start (memory memoryThreads : μ) (flags : ℕ → Bool) : Tally μ :=
  ⟨.start memory memoryThreads flags, ∅, false⟩

/-- The PVs owed behind a step from `s` to `l`: a `Synchronise` adds those it finds flagged, a
dispatch takes away those it sends. -/
def Tally.owedBehind (c : Config) (s : Tally μ) (l : Loop μ) : Set ℕ :=
  match s.loop.pc, l.pc with
  | .read _ _, .chosen _ _ => s.owed ∪ {p | l.main.changeFlag p = true}
  | .read _ _, .sweep _ _ => s.owed ∪ {p | l.main.changeFlag p = true}
  | .ready true, .top => s.owed \ {p | s.loop.main.InRound c p}
  | _, _ => s.owed

/-- Whether the cycle runs the sweep is known once the branch is chosen. -/
def Tally.sweptBehind (s : Tally μ) (l : Loop μ) : Bool :=
  match s.loop.pc, l.pc with
  | .read _ _, .chosen _ _ => false
  | .read _ _, .sweep _ _ => true
  | _, _ => s.swept

/-- The steps of the loop, remembered. -/
inductive Tally.Step (c : Config) : Tally μ → Tally μ → Prop
  | mk {s : Tally μ} {l : Loop μ} :
      Loop.Step c s.loop l → Tally.Step c s ⟨l, s.owedBehind c l, s.sweptBehind l⟩

/-- A cycle behind a sweep that is about to be dispatched has PVs with a pending change only. -/
def Tally.Honoured (c : Config) (s : Tally μ) : Prop := s.loop.pc = .ready true → s.swept = true →
  ∀ p, s.loop.main.InRound c p → p ∈ s.owed

/-- The condition on a step. In a sweep, a flagged PV inside the front leaves its place to one that
is owed, too; and behind a sweep there are enough pending PVs for the cycle. -/
def Tally.Kept (c : Config) (s _s' : Tally μ) : Prop :=
  s.loop.NoWrap c ∧ match s.loop.pc with
    | .sweep i _ => i < c.numberOfVariables → s.loop.main.flaggedAt c i = true →
        i < s.loop.main.currentChangePos →
        s.loop.main.queuedAt c s.loop.main.currentChangePos ∈ s.owed
    | .chosen false _ => c.maxSignalPerThread ≤ s.loop.main.currentChangePos
    | _ => True

/-! ### The invariant -/

/-- The pending PVs are owed. -/
def Main.FrontIn (c : Config) (m : Main μ) (owed : Set ℕ) : Prop :=
  ∀ d < m.currentChangePos, m.queuedAt c d ∈ owed

/-- A cycle is prepared: what stays pending stands behind it and is owed, and so is the cycle if it
ran the sweep. -/
structure Main.PreparedIn (c : Config) (m : Main μ) (owed : Set ℕ) (swept : Bool) : Prop where
  room : m.nVariables + m.currentChangePos ≤ c.numberOfVariables
  behind : ∀ d < m.currentChangePos, m.queuedAt c (m.nVariables + d) ∈ owed
  cycle : swept = true → ∀ d < m.nVariables, m.queuedAt c d ∈ owed

/-- Between two cycles, or with one that is prepared. -/
def Tally.Waiting (c : Config) (s : Tally μ) : Prop :=
  if s.loop.main.changed then s.loop.main.PreparedIn c s.owed s.swept else s.loop.main.FrontIn c s.owed

/-- What holds at a point of the turn. -/
def Tally.Phase (c : Config) (s : Tally μ) : Prop :=
  match s.loop.pc with
  | .top => s.Waiting c
  | .read _ _ => s.Waiting c
  | .sweep _ _ => s.loop.main.FrontIn c s.owed ∧ {p | s.loop.main.changeFlag p = true} ⊆ s.owed
  | .chosen fifo _ => s.loop.main.FrontIn c s.owed ∧ (s.swept = true → fifo = false)
  | .ready _ => s.loop.main.changed = true ∧ s.loop.main.PreparedIn c s.owed s.swept

/-- The invariant of the tally. -/
structure Tally.Owing (c : Config) (s : Tally μ) : Prop where
  bij : Set.BijOn s.loop.main.indexList (Set.Iio c.numberOfVariables) (Set.Iio c.numberOfVariables)
  cur : s.loop.main.currentIdx < c.numberOfVariables
  phase : s.Phase c

theorem Tally.owing_start (hn : 0 < c.numberOfVariables) (memory memoryThreads : μ) (flags : ℕ → Bool) :
    (Tally.start memory memoryThreads flags).Owing c :=
  ⟨Set.bijOn_id _, hn, fun d hd => absurd hd (Nat.not_lt_zero d)⟩

/-! ### A turn of the sweep -/

/-- The front behind a turn has what it had, the flagged PV, and the one from behind the front if the
flagged PV was inside. -/
theorem sweepAt_frontIn {m : Main μ} {i : ℕ} {owed : Set ℕ} (hi : i < c.numberOfVariables)
    (hwi : m.currentIdx + i < 2 ^ 32) (hwp : m.currentIdx + m.currentChangePos < 2 ^ 32)
    (hpos : m.currentChangePos + 1 < 2 ^ 32) (hv : m.nVariables + 1 < 2 ^ 32) (hfront : m.FrontIn c owed)
    (hflags : {p | m.changeFlag p = true} ⊆ owed)
    (hpulled : m.flaggedAt c i = true → i < m.currentChangePos → m.queuedAt c m.currentChangePos ∈ owed) :
    (c.sweepAt m i).FrontIn c owed := by
  have hn : 0 < c.numberOfVariables := by omega
  cases hf : m.flaggedAt c i with
  | false =>
    rw [sweepAt_unflagged hwi hf]
    exact hfront
  | true =>
    obtain ⟨hre, hcount, -⟩ := sweepAt_flagged hn hwi hwp hv hpos hf
    have hidx : (c.sweepAt m i).currentIdx = m.currentIdx := by rw [sweepAt_frame]
    intro d hd
    rw [hcount] at hd
    obtain ⟨x, ⟨e, he, rfl⟩, hx⟩ := (hre.mem_iff ((c.sweepAt m i).queuedAt c d)).mp
      ⟨_, ⟨d, hd, rfl⟩, by rw [Main.queuedAt, hidx]⟩
    rw [← hx]
    unfold exchange
    split_ifs with hend hturn
    · exact hflags hf
    · rw [Main.queuedAt] at hpulled
      apply hpulled hf
      by_contra hout
      have hlt : e < m.currentChangePos := by
        rcases Nat.lt_succ_iff_lt_or_eq.mp he with hlt | rfl
        · exact hlt
        · exact absurd rfl hend
      exact absurd (ringPos_inj (by omega) hi hturn) (by omega)
    · rcases Nat.lt_succ_iff_lt_or_eq.mp he with hlt | rfl
      · exact hfront e hlt
      · exact absurd rfl hend

/-! ### The end of a preparation, and the dispatch -/

variable {m : Main μ} {owed : Set ℕ} {swept : Bool}

theorem settle_preparedIn (hc : c.Accepted) (hfront : m.FrontIn c owed)
    (hswept : swept = true → c.maxSignalPerThread ≤ m.currentChangePos) :
    ((m.finishPlan c).settle c).PreparedIn c owed swept := by
  have hn : (m.finishPlan c).nVariables ≤ c.maxSignalPerThread := finishPlan_le c m
  have hK := hc.max_le
  have hpend : (m.finishPlan c).pending = m.currentChangePos - (m.finishPlan c).nVariables := by
    unfold Main.pending
    rw [show (m.finishPlan c).currentChangePos = m.currentChangePos from rfl]
    split_ifs <;> omega
  rw [settle_eq]
  cases hr : (m.finishPlan c).restarts c with
  | true =>
    refine ⟨?_, fun d hd => absurd hd (Nat.not_lt_zero d), fun hsw d hd => hfront d ?_⟩
    · show (m.finishPlan c).nVariables + 0 ≤ _
      omega
    · exact hd.trans_le (hn.trans (hswept hsw))
  | false =>
    have hle := pending_le hc.variables_lt hK hr
    refine ⟨?_, fun d hd => hfront _ ?_, fun hsw d hd => hfront d (hd.trans_le (hn.trans (hswept hsw)))⟩
    · show (m.finishPlan c).nVariables + (m.finishPlan c).pending ≤ _
      omega
    · have hd : d < (m.finishPlan c).pending := hd
      show (m.finishPlan c).nVariables + d < m.currentChangePos
      omega

/-- Whether or not a new trip begins, the cycle is prepared. -/
theorem settle_phase (hc : c.Accepted) {fifo finished : Bool} {d : Set ℕ} {fresh : Bool}
    (h : m.FrontIn c owed ∧ (swept = true → fifo = false))
    (hkept : fifo = false → c.maxSignalPerThread ≤ m.currentChangePos) :
    Tally.Phase c ⟨⟨(m.finishPlan c).settle c, .ready finished, d, fresh⟩, owed, swept⟩ := by
  have hchanged : ((m.finishPlan c).settle c).changed = true := by rw [settle_eq]
  exact ⟨hchanged, settle_preparedIn hc h.1 fun hsw => hkept (h.2 hsw)⟩

/-- What stays pending is not in the cycle that is sent. -/
theorem dispatch_frontIn
    (hbij : Set.BijOn m.indexList (Set.Iio c.numberOfVariables) (Set.Iio c.numberOfVariables))
    (hwrap : m.currentIdx + m.nVariables < 2 ^ 32) (h : m.PreparedIn c owed swept) :
    (m.dispatch c).FrontIn c (owed \ {p | m.InRound c p}) := by
  have hroom := h.room
  have hcur : (m.dispatch c).currentIdx = ringPos c.numberOfVariables m.currentIdx m.nVariables := by
    show u32 (m.currentIdx + m.nVariables) % c.numberOfVariables = _
    rw [u32_of_lt hwrap, ringPos]
  intro d hd
  have hd : d < m.currentChangePos := hd
  have hqueued : (m.dispatch c).queuedAt c d = m.queuedAt c (m.nVariables + d) := by
    rw [Main.queuedAt, hcur, ringPos_ringPos]
    rfl
  rw [hqueued]
  refine ⟨h.behind d hd, ?_⟩
  rintro ⟨e, he, heq⟩
  have hn : 0 < c.numberOfVariables := by omega
  have hpos := hbij.injOn (ringPos_lt hn) (ringPos_lt hn) heq
  exact absurd (ringPos_inj (by omega) (by omega) hpos) (by omega)

/-! ### The steps -/

/-- A pool thread that connects changes nothing here. -/
theorem Main.PreparedIn.reset (h : m.PreparedIn c owed swept) :
    Main.PreparedIn c { m with chunckCounter := 0 } owed swept := ⟨h.room, h.behind, h.cycle⟩

theorem Tally.Waiting.prepared {s : Tally μ} (h : s.Waiting c) (hch : s.loop.main.changed = true) :
    s.loop.main.PreparedIn c s.owed s.swept := by
  unfold Tally.Waiting at h
  rwa [if_pos hch] at h

theorem Tally.Waiting.front {s : Tally μ} (h : s.Waiting c) (hch : s.loop.main.changed = false) :
    s.loop.main.FrontIn c s.owed := by
  unfold Tally.Waiting at h
  rwa [if_neg (by rw [hch]; exact Bool.false_ne_true)] at h

theorem Tally.Waiting.reset {s : Tally μ} (h : s.Waiting c) {pc : Pc} {d : Set ℕ} {b : Bool} :
    Tally.Waiting c ⟨⟨{ s.loop.main with chunckCounter := 0 }, pc, d, b⟩, s.owed, s.swept⟩ := by
  unfold Tally.Waiting at h ⊢
  by_cases hch : s.loop.main.changed = true
  · rw [if_pos hch] at h ⊢
    exact h.reset
  · rw [if_neg hch] at h ⊢
    exact h

/-- **One step** keeps the invariant. -/
theorem Tally.Owing.step {s s' : Tally μ} (hc : c.Accepted) (hs : s.Owing c) (h : Tally.Step c s s')
    (hg : s.Kept c s') :
    s'.Owing c := by
  have hphase := hs.phase
  have hn := hc.vars_pos
  obtain ⟨hwrap, hkept⟩ := hg
  unfold Tally.Phase at hphase
  unfold Loop.NoWrap at hwrap
  cases h with
  | @mk l h =>
    have hqueue := h.queued hn ⟨hs.bij, hs.cur⟩
    refine ⟨hqueue.bij, hqueue.cur, ?_⟩
    cases h with
    | read finished hpc =>
      rw [hpc] at hphase
      simp only [Tally.owedBehind, Tally.sweptBehind, hpc]
      exact hphase
    | waiting r finished hpc hch =>
      rw [hpc] at hphase
      simp only [Tally.owedBehind, Tally.sweptBehind, hpc]
      exact ⟨hch, Tally.Waiting.prepared hphase hch⟩
    | fifo r finished snapshot flags hpc hch hr =>
      rw [hpc] at hphase
      simp only [Tally.owedBehind, Tally.sweptBehind, hpc]
      exact ⟨fun d hd => .inl (Tally.Waiting.front hphase hch d hd), fun hsw => absurd hsw Bool.false_ne_true⟩
    | priority r finished snapshot flags hpc hch hr =>
      rw [hpc] at hphase
      simp only [Tally.owedBehind, Tally.sweptBehind, hpc]
      exact ⟨fun d hd => .inl (Tally.Waiting.front hphase hch d hd), fun p hp => .inr hp⟩
    | sweepTurn i finished hpc hi =>
      rw [hpc] at hphase hwrap hkept
      obtain ⟨hwi, hwp, hpos, hv⟩ := hwrap hi
      simp only [Tally.owedBehind, Tally.sweptBehind, hpc]
      refine ⟨sweepAt_frontIn hi hwi hwp hpos hv hphase.1 hphase.2 (hkept hi), ?_⟩
      show {p | (c.sweepAt s.loop.main i).changeFlag p = true} ⊆ s.owed
      rw [sweepAt_frame]
      exact hphase.2
    | swept i finished hpc hi =>
      rw [hpc] at hphase
      simp only [Tally.owedBehind, Tally.sweptBehind, hpc]
      exact ⟨hphase.1, fun _ => rfl⟩
    | settle fifo finished hpc hr =>
      rw [hpc] at hphase hkept
      simp only [Tally.owedBehind, Tally.sweptBehind, hpc]
      exact settle_phase hc hphase fun hfifo => by
        cases hfifo
        exact hkept
    | settleRestart fifo finished hpc hr =>
      rw [hpc] at hphase hkept
      simp only [Tally.owedBehind, Tally.sweptBehind, hpc]
      exact settle_phase hc hphase fun hfifo => by
        cases hfifo
        exact hkept
    | dispatch hpc =>
      rw [hpc] at hphase hwrap
      simp only [Tally.owedBehind, Tally.sweptBehind, hpc]
      exact dispatch_frontIn hs.bij hwrap hphase.2
    | idle hpc =>
      rw [hpc] at hphase
      simp only [Tally.owedBehind, Tally.sweptBehind, hpc]
      show Tally.Waiting c _
      unfold Tally.Waiting
      rw [if_pos hphase.1]
      exact hphase.2
    | reconnect =>
      obtain ⟨⟨main, pc, dispatched, fresh⟩, owed, swept⟩ := s
      cases pc with
      | top => exact Tally.Waiting.reset hphase
      | read r b => exact Tally.Waiting.reset hphase
      | sweep i b => exact hphase
      | chosen fifo b => exact hphase
      | ready b => cases b <;> exact ⟨hphase.1, hphase.2.reset⟩

/-- **`SendOnlyChanged` is honoured** in every run whose sweeps take nothing else into the front and find
enough PVs for the cycle. -/
theorem only_changed (p : Parameters) (st : Settings) (h : p.initialise = .ok st) (threads n : ℕ)
    (pvDes : ℕ → PvDescriptor)
    (hn : n < 2 ^ 32) (hK : 0 < (st.config threads n pvDes).maxSignalPerThread)
    (hset : (st.config threads n pvDes).setDataSource = true) (memory memoryThreads : μ)
    (flags : ℕ → Bool) (s : Tally μ)
    (hs : Reachable
      (Guarded (Tally.Step (st.config threads n pvDes)) (Tally.Kept (st.config threads n pvDes)))
      (.start memory memoryThreads flags) s) : s.Honoured (st.config threads n pvDes) := by
  have hc : (st.config threads n pvDes).Accepted := ⟨hn, hK, hset, config_sendOnlyChanged h threads n pvDes⟩
  have hinv : s.Owing (st.config threads n pvDes) :=
    hs.invariant (Tally.owing_start hc.vars_pos memory memoryThreads flags)
    fun _ _ hinv hstep => hinv.step hc hstep.1 hstep.2
  intro hpc hswept q hq
  have hphase := hinv.phase
  unfold Tally.Phase at hphase
  rw [hpc] at hphase
  obtain ⟨d, hd, rfl⟩ := hq
  exact hphase.2.cycle hswept d hd

/-- `SendOnlyChanged = 1`, one PV in a cycle. -/
def onlyChanged : Parameters := ⟨some 1, some [], some 0, some 1, some 1, none, none, none, some 1⟩

/-- What `Initialise` makes of it. -/
def onlyChangedSettings : Settings := ⟨1, 0xFFFFFFFF, 0xFFFFFFFF, 120, 0⟩

theorem onlyChanged_ok : onlyChanged.initialise = .ok onlyChangedSettings := rfl

/-- The loop of one PV with these parameters. -/
def onlyOne : Config := onlyChangedSettings.config 1 1 fun _ => ⟨[65], 1, 8, 0, 9⟩

/-- A state of that loop: what is prepared, how far the pending PVs and the trip are, and the queue. -/
def oneMain (changed : Bool) (nVariables sendCounter : ℕ) (flags : ℕ → Bool) (list : ℕ → ℕ)
    (currentChangePos chunckCounter sent : ℕ) :
    Main Unit := ⟨changed, nVariables, sendCounter, (), flags, list, 0, currentChangePos, chunckCounter,
      (), id, 0, sent⟩

/-- A run of that loop that meets the condition. -/
def OneRun (s : Tally Unit) : Prop :=
  Reachable (Guarded (Tally.Step onlyOne) (Tally.Kept onlyOne)) (.start () () fun _ => false) s

theorem OneRun.next {s t : Tally Unit} (h : OneRun s) (hstep : Tally.Step onlyOne s t)
    (hkept : s.Kept onlyOne t) :
    OneRun t := Reachable.next h ⟨hstep, hkept⟩

theorem settle_of_stays (h : (m.finishPlan c).restarts c = false) : (m.finishPlan c).settle c =
    { m with
      nVariables := (m.finishPlan c).nVariables
      currentChangePos := (m.finishPlan c).pending
      changed := true } := by
  rw [settle_eq, h]
  rfl

/-- The first trip of that loop, one FIFO cycle. -/
theorem one_trip : OneRun ⟨⟨oneMain false 1 1 (fun _ => false) id 0 1 1, .top,
    {p | (oneMain true 1 0 (fun _ => false) id 0 1 0).InRound onlyOne p}, true⟩, ∅, false⟩ := by
  have h₀ : OneRun (.start () () fun _ => false) := Reachable.refl
  have h₁ : OneRun ⟨⟨oneMain false 0 0 (fun _ => false) id 0 0 0, .read 0 true, ∅, true⟩, ∅, false⟩ :=
    h₀.next (.mk (.read true rfl)) ⟨trivial, trivial⟩
  have h₂ : OneRun ⟨⟨oneMain false 1 0 (fun _ => false) id 0 1 0, .chosen true true, ∅, true⟩,
      ∅ ∪ {_p | false = true}, false⟩ :=
    h₁.next (.mk (.fifo 0 true () (fun _ => false) rfl rfl (by decide))) ⟨trivial, trivial⟩
  have hsettle : ((oneMain false 1 0 (fun _ => false) id 0 1 0).finishPlan onlyOne).settle onlyOne =
      oneMain true 1 0 (fun _ => false) id 0 1 0 := by
    rw [settle_of_stays (by decide),
      show ((oneMain false 1 0 (fun _ => false) id 0 1 0).finishPlan onlyOne).nVariables = 1 by decide,
      show ((oneMain false 1 0 (fun _ => false) id 0 1 0).finishPlan onlyOne).pending = 0 by decide]
    rfl
  have h₃ := h₂.next (.mk (.settle true true rfl (by decide))) ⟨by unfold Loop.NoWrap; decide, trivial⟩
  simp only [Tally.owedBehind, Tally.sweptBehind, hsettle, Set.empty_union, Bool.false_eq_true,
    Set.ofPred_false] at h₃
  have hsent : (oneMain true 1 0 (fun _ => false) id 0 1 0).dispatch onlyOne =
      oneMain false 1 1 (fun _ => false) id 0 1 1 := by
    simp [Main.dispatch, oneMain, onlyOne, Settings.config, u32]
  have h₄ := h₃.next (.mk (.dispatch rfl)) ⟨by unfold Loop.NoWrap; decide, trivial⟩
  simp only [Tally.owedBehind, Tally.sweptBehind, hsent, Set.empty_sdiff, Set.empty_union] at h₄
  exact h₄

/-- Behind the first trip the PV changes and is sent. -/
theorem only_changed_one :
    ∃ s : Tally Unit, s.loop.pc = .ready true ∧ s.swept = true ∧ s.loop.main.InRound onlyOne 0 ∧
    s.Honoured onlyOne := by
  have h₁ := one_trip.next (.mk (.read true rfl)) ⟨trivial, trivial⟩
  have h₂ := h₁.next (.mk (.priority 1 true () (fun _ => true) rfl rfl (by decide))) ⟨trivial, trivial⟩
  have hturn : onlyOne.sweepAt (oneMain false 0 1 (fun _ => true) id 0 1 1) 0 =
      oneMain false 1 1 (fun _ => true) (exchange id 0 0) 1 1 1 := by
    simp [Config.sweepAt, oneMain, onlyOne, Settings.config, Config.queueIndex, Config.pushForward, u32]
  have h₃ : OneRun ⟨⟨onlyOne.sweepAt (oneMain false 0 1 (fun _ => true) id 0 1 1) 0, .sweep 1 true, _,
      true⟩, _, true⟩ :=
    h₂.next (.mk (.sweepTurn 0 true rfl (by decide)))
      ⟨by unfold Loop.NoWrap; decide, fun _ _ h => absurd h (by decide)⟩
  rw [hturn] at h₃
  have h₄ := h₃.next (.mk (.swept 1 true rfl (by decide)))
    ⟨by unfold Loop.NoWrap; decide, fun h => absurd h (by decide)⟩
  have h₅ := h₄.next (.mk (.settle false true rfl (by decide))) ⟨by unfold Loop.NoWrap; decide, by decide⟩
  exact ⟨_, rfl, rfl, ⟨0, by decide, by decide⟩,
    only_changed onlyChanged onlyChangedSettings onlyChanged_ok 1 1
    (fun _ => ⟨[65], 1, 8, 0, 9⟩) (by decide) (by decide) (by decide) () () (fun _ => false) _ h₅⟩

/-- When nothing changes, the PV is sent all the same. -/
theorem unchanged_sent : ¬ ∀ (p : Parameters) (st : Settings) (threads n : ℕ) (pvDes : ℕ → PvDescriptor),
    p.initialise = .ok st → p.sendOnlyChanged = some 1 → (st.config threads n pvDes).Accepted →
      ∀ s : Tally Unit,
      Reachable (Tally.Step (st.config threads n pvDes)) (.start () () fun _ => false) s →
        s.Honoured (st.config threads n pvDes) := by
  intro h
  have h₁ := (one_trip.mono fun _ _ h => h.1).next (.mk (.read true rfl))
  have h₂ := h₁.next (.mk (.priority 1 true () (fun _ => false) rfl rfl (by decide)))
  have h₃ : Reachable (Tally.Step onlyOne) (.start () () fun _ => false)
      ⟨⟨oneMain false 0 1 (fun _ => false) id 0 1 1, .sweep 1 true, _, true⟩, ∅ ∪ {_p | false = true},
        true⟩ :=
    h₂.next (.mk (.sweepTurn 0 true rfl (by decide)))
  have h₄ := h₃.next (.mk (.swept 1 true rfl (by decide)))
  have h₅ := h₄.next (.mk (.settle false true rfl (by decide)))
  have howed := h onlyChanged onlyChangedSettings 1 1 (fun _ => ⟨[65], 1, 8, 0, 9⟩) onlyChanged_ok rfl
    ⟨by decide, by decide, by decide, rfl⟩ _ h₅ rfl rfl 0 ⟨0, by decide, by decide⟩
  rcases howed with hnone | hflag
  · exact hnone
  · cases hflag

end Hieratika.Sender
