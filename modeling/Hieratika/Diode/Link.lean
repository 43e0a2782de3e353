import Hieratika.Foundations.Merge
import Hieratika.Receiver.OneFrame
import Hieratika.Sender.Queue
import Hieratika.Sender.Whole

/-!
# The link

Sender, connections and receiver as one system. The main loop of the sender makes its own steps
(`Loop.Step`); a round starts when it dispatches, which it does only after it has read that every
pool thread has finished writing. A thread takes its slice of the round and writes it frame by frame
on its own connection. The receiver processes the frames of each connection in order, one turn of the
consuming loop at a time; between the connections any order is possible, and nothing that the sender
does waits for the receiver.

There are no send errors. The link remembers which PVs each thread took in each round, and the
snapshot that was sent in it.
-/

namespace Hieratika.Diode

open Foundations Sender Receiver

/-- A frame, with the round it was sent in. -/
structure Message where
  round : ℕ
  frame : Frame

/-- The two ends and what is between them. -/
structure Link where
  loop : Loop Memory
  /-- How many rounds were dispatched. -/
  round : ℕ
  /-- `memoryThreads` in each round. -/
  snapshots : ℕ → Memory
  /-- The PVs that a thread took in a round. -/
  slices : ℕ → ℕ → List ℕ
  /-- The threads that have taken their slice of the round. -/
  taken : ℕ → Bool
  /-- What a thread has still to write. -/
  toWrite : ℕ → List Message
  /-- The connections, and the frames processed so far. -/
  wires : Merge ℕ Message
  /-- The receiver's buffers. -/
  store : Store

/-- The threads have connected, and no round was dispatched. -/
def Link.start (memory memoryThreads : Memory) (flags : ℕ → Bool) : Link where
  loop := .start memory memoryThreads flags
  round := 0
  snapshots := fun _ => memoryThreads
  slices := fun _ _ => []
  taken := fun _ => true
  toWrite := fun _ => []
  wires := .empty
  store := .start

/-- `nThreadsFinished == numberOfPoolThreads`. -/
def Link.Finished (c : Config) (s : Link) : Prop :=
  ∀ k < c.numberOfPoolThreads, s.taken k = true ∧ s.toWrite k = []

/-- The step of the main loop that dispatches. -/
def StartsRound (a b : Loop Memory) : Prop := a.pc = .ready true ∧ b.pc = .top

/-- The main loop has dispatched a round. -/
def Link.newRound (s : Link) (l : Loop Memory) : Link :=
  { s with
    loop := l
    round := s.round + 1
    snapshots := Function.update s.snapshots (s.round + 1) l.main.memoryThreads
    taken := fun _ => false }

/-- Thread `k` enters `SendVariables`: its slice, and the frames it will write. -/
def Link.takeSlice (c : Config) (s : Link) (k : ℕ) : Link :=
  let m := s.loop.main
  let n := m.nVarsPerThread c k
  let frames := (sendVariables c .good m.memoryThreads m.indexListThreads n m.currentIdxThreads).out.flatten
  { s with
    loop := { s.loop with main := m.takeSlice c k }
    slices := Function.update s.slices k
      (Function.update (s.slices k) s.round (slice c m.indexListThreads m.currentIdxThreads n))
    taken := Function.update s.taken k true
    toWrite := Function.update s.toWrite k (s.toWrite k ++ frames.map (Message.mk s.round)) }

/-- The steps of the main loop, the pool threads and the threads of the receiver. -/
inductive Link.Step (c : Config) (r : DiodeReceiver) (env : Env) : Link → Link → Prop
  | turn {s : Link} {l : Loop Memory} : Loop.Step c s.loop l → ¬ StartsRound s.loop l →
      (∀ n, l.pc = .read n true → s.Finished c) → Link.Step c r env s { s with loop := l }
  | dispatch {s : Link} {l : Loop Memory} : Loop.Step c s.loop l → StartsRound s.loop l →
      Link.Step c r env s (s.newRound l)
  | takeSlice {s : Link} {k : ℕ} : k < c.numberOfPoolThreads → s.taken k = false →
      Link.Step c r env s (s.takeSlice c k)
  | write {s : Link} {k : ℕ} {m : Message} {rest : List Message} : s.toWrite k = m :: rest →
      Link.Step c r env s
        { s with toWrite := Function.update s.toWrite k rest, wires := s.wires.write k [m] }
  /-- `more` is what the payload has behind the frame. -/
  | process {s : Link} {k : ℕ} {m : Message} {rest : List Message} {more : List UInt8} {st : Service} :
      s.wires.queue k = m :: rest → (m.frame.encode ++ more).length < 2 ^ 32 →
      Service.Stores r env k ⟨m.frame.encode ++ more, s.store, []⟩ st →
      Link.Step c r env s { s with wires := s.wires.take k m rest, store := st.store }

/-! ### What is assumed of the two ends -/

/-- A sender whose PVs fit into one frame each, with names that are C strings without quotes. -/
structure SendsWhole (c : Config) : Prop where
  fits : c.Fits
  whole : ∀ sig < c.numberOfVariables, (c.pvDes sig).totalSize ≤ c.maxVarSize
  name_quote : ∀ sig < c.numberOfVariables, quote ∉ (c.pvDes sig).pvName
  name_nul : ∀ sig < c.numberOfVariables, 0 ∉ (c.pvDes sig).pvName

/-- The receiver has a slot `i` of the right size for the PV `sig`, and for no other one. -/
structure Mirrored (c : Config) (r : DiodeReceiver) (env : Env) (sig i : ℕ) : Prop where
  sig_lt : sig < c.numberOfVariables
  slot_lt : i < r.numberOfVariables
  lookup : r.lookup env (searchName (c.pvDes sig).pvName) = i
  size : (r.pvs i).totalSize = (c.pvDes sig).totalSize
  size_pos : 0 < (c.pvDes sig).totalSize
  alone : ∀ sig' < c.numberOfVariables, sig' ≠ sig → r.lookup env (searchName (c.pvDes sig').pvName) ≠ i

/-- The slot `i` holds the value and the time stamp of the PV `sig` in a round. -/
def Link.Holds (c : Config) (r : DiodeReceiver) (s : Link) (sig i round : ℕ) : Prop :=
  r.slotAt s.store.memory i = readAt (s.snapshots round) (c.pvDes sig).offset ((c.pvDes sig).totalSize + 8)

/-! ### The frames -/

variable {c : Config} {r : DiodeReceiver} {env : Env} {s s' : Link} {sig i k R : ℕ} {m : Message}

theorem frameAt_formed (hc : SendsWhole c) (hsig : sig < c.numberOfVariables) (memory : Memory) :
    Formed (frameAt c memory sig 0) where
  name_quote := hc.name_quote sig hsig
  name_nul := hc.name_nul sig hsig
  value_length := by simp [frameAt]
  timeStamp_length := by simp [frameAt]
  index_lt := by
    have hN := hc.fits.small
    simp only [frameAt]
    omega
  size_lt := by
    rw [frameAt_size]
    exact (min_le_left _ _).trans_lt ((Nat.sub_le _ _).trans_lt (u32_lt _))
  offset_lt := by simp [frameAt]

/-- A whole frame has the bytes of the PV in its snapshot. -/
theorem frameAt_bytes (hc : SendsWhole c) (hsig : sig < c.numberOfVariables) (memory : Memory) :
    (frameAt c memory sig 0).size = (c.pvDes sig).totalSize ∧
      (frameAt c memory sig 0).value ++ (frameAt c memory sig 0).timeStamp =
        readAt memory (c.pvDes sig).offset ((c.pvDes sig).totalSize + 8) := by
  have hsize : (frameAt c memory sig 0).size = (c.pvDes sig).totalSize := by
    rw [frameAt_size, Nat.sub_zero, min_eq_left (hc.whole sig hsig)]
  have hvalue :
    (frameAt c memory sig 0).value = readAt memory (c.pvDes sig).offset (frameAt c memory sig 0).size := rfl
  refine ⟨hsize, ?_⟩
  rw [hvalue, hsize, readAt_add]
  rfl

/-! ### The invariant of the sender's end -/

/-- What thread `k` writes in a round. -/
def Link.messages (c : Config) (s : Link) (k round : ℕ) : List Message :=
  ((s.slices k round).flatMap (wholeFrames c (s.snapshots round))).map (Message.mk round)

/-- Everything a thread has written, and has still to write, is what its slices say, round by round. -/
structure Link.Inv (c : Config) (r : DiodeReceiver) (env : Env) (s : Link) : Prop where
  queued : s.loop.Queued c
  start_lt : s.loop.main.currentIdxThreads < c.numberOfVariables
  snapshot : s.snapshots s.round = s.loop.main.memoryThreads
  later : ∀ k R, s.round < R → s.slices k R = []
  untaken : ∀ k, s.taken k = false → s.slices k s.round = []
  bounded : ∀ k R, ∀ sig ∈ s.slices k R, sig < c.numberOfVariables
  written : ∀ k, s.wires.written k ++ s.toWrite k = (List.range (s.round + 1)).flatMap (s.messages c k)
  resolved : s.store.Resolved r env fun sig => (c.pvDes sig).pvName

theorem Link.inv_start (hc : c.Fits) (memory memoryThreads : Memory) (flags : ℕ → Bool) :
    (Link.start memory memoryThreads flags).Inv c r env where
  queued := Loop.queued_start hc memory memoryThreads flags
  start_lt := hc.vars_pos
  snapshot := rfl
  later := fun _ _ _ => rfl
  untaken := fun _ _ => rfl
  bounded := fun _ _ _ hsig => absurd hsig List.not_mem_nil
  written := fun _ => rfl
  resolved := Store.resolved_start

/-- What is sent in a round is one of the frames of its slices. -/
theorem mem_messages :
    m ∈ s.messages c k R ↔ m.round = R ∧ ∃ sig ∈ s.slices k R, 0 < (c.pvDes sig).totalSize ∧
    m.frame = frameAt c (s.snapshots R) sig 0 := by
  obtain ⟨round, frame⟩ := m
  simp only [Link.messages, List.mem_map, List.mem_flatMap, wholeFrames, Message.mk.injEq]
  constructor
  · rintro ⟨f, ⟨sig, hsig, hf⟩, rfl, rfl⟩
    split_ifs at hf with hpos
    · exact ⟨rfl, sig, hsig, hpos, List.mem_singleton.mp hf⟩
    · cases hf
  · rintro ⟨rfl, sig, hsig, hpos, rfl⟩
    exact ⟨_, ⟨sig, hsig, by rw [if_pos hpos]; exact List.mem_singleton_self _⟩, rfl, rfl⟩

/-- A message on its way is a whole PV of the slice of its round. -/
theorem Link.Inv.message (hs : s.Inv c r env) (hm : m ∈ s.wires.written k) : m.round ≤ s.round ∧
    ∃ sig ∈ s.slices k m.round, 0 < (c.pvDes sig).totalSize ∧
      m.frame = frameAt c (s.snapshots m.round) sig 0 := by
  have hmem : m ∈ s.wires.written k ++ s.toWrite k := List.mem_append_left _ hm
  rw [hs.written, List.mem_flatMap] at hmem
  obtain ⟨R, hR, hmem⟩ := hmem
  obtain ⟨rfl, hsig⟩ := mem_messages.mp hmem
  exact ⟨Nat.lt_succ_iff.mp (List.mem_range.mp hR), hsig⟩

/-- The steps of the main loop that start no round leave the pool's data alone. -/
theorem pool_of_not_startsRound {a b : Loop Memory} (h : Loop.Step c a b) (hno : ¬ StartsRound a b) :
    b.main.memoryThreads = a.main.memoryThreads ∧ b.main.currentIdxThreads = a.main.currentIdxThreads := by
  rcases h.round with ⟨hready, htop, -⟩ | ⟨-, hcur, -, hmem⟩
  · exact absurd ⟨hready, htop⟩ hno
  · exact ⟨hmem, hcur⟩

theorem main_of_startsRound {a b : Loop Memory} (h : Loop.Step c a b) (hstart : StartsRound a b) :
    b.main = a.main.dispatch c := by
  obtain ⟨hready, htop⟩ := hstart
  cases h with
  | dispatch _ => rfl
  | read _ hpc | waiting _ _ hpc _ | fifo _ _ _ _ hpc _ _ | priority _ _ _ _ hpc _ _ | sweepTurn _ _ hpc _
  | swept _ _ hpc _ | settle _ _ hpc _ | settleRestart _ _ hpc _ | idle hpc =>
      rw [hpc] at hready; cases hready
  | reconnect => rw [show a.pc = Pc.top from htop] at hready; cases hready

/-! ### One step of the link -/

theorem messages_congr (hslices : s'.slices k R = s.slices k R) (hsnap : s'.snapshots R = s.snapshots R) :
    s'.messages c k R = s.messages c k R := by
  rw [Link.messages, Link.messages, hslices, hsnap]

/-- The rounds before are as they were. -/
theorem flatMap_messages_congr {n : ℕ}
    (h : ∀ R < n, s'.slices k R = s.slices k R ∧ s'.snapshots R = s.snapshots R) :
    (List.range n).flatMap (s'.messages c k) = (List.range n).flatMap (s.messages c k) :=
  List.flatMap_congr fun R hR => messages_congr (h R (List.mem_range.mp hR)).1 (h R (List.mem_range.mp hR)).2

theorem Link.Inv.slice_lt (hs : s.Inv c r env) {n : ℕ} :
    ∀ sig ∈ slice c s.loop.main.indexListThreads s.loop.main.currentIdxThreads n,
      sig < c.numberOfVariables := by
  intro sig hsig
  obtain ⟨d, -, rfl⟩ := List.mem_map.mp hsig
  exact hs.queued.bijThreads.mapsTo (Set.mem_Iio.mpr (ringPos_lt ((Nat.zero_le _).trans_lt hs.start_lt)))

theorem Link.Inv.turn (hc : c.Fits) (hs : s.Inv c r env) {l : Loop Memory} (h : Loop.Step c s.loop l)
    (hno : ¬ StartsRound s.loop l) : Link.Inv c r env { s with loop := l } := by
  obtain ⟨hmem, hidx⟩ := pool_of_not_startsRound h hno
  exact { hs with
    queued := hs.queued.step hc h
    start_lt := hidx ▸ hs.start_lt
    snapshot := hs.snapshot.trans hmem.symm
    written := hs.written }

theorem Link.Inv.dispatch (hc : c.Fits) (hs : s.Inv c r env) {l : Loop Memory} (h : Loop.Step c s.loop l)
    (hstart : StartsRound s.loop l) : (s.newRound l).Inv c r env where
  queued := hs.queued.step hc h
  start_lt := by
    show l.main.currentIdxThreads < _
    rw [main_of_startsRound h hstart]
    exact hs.queued.cur
  snapshot := Function.update_self _ _ _
  later := fun k R hR => hs.later k R (Nat.lt_of_succ_lt hR)
  untaken := fun k _ => hs.later k _ (Nat.lt_succ_self _)
  bounded := hs.bounded
  written := by
    intro k
    have hnew : (s.newRound l).messages c k (s.round + 1) = [] := by
      simp [Link.messages, Link.newRound, hs.later k _ (Nat.lt_succ_self _)]
    have hold : (List.range (s.round + 1)).flatMap ((s.newRound l).messages c k) =
        (List.range (s.round + 1)).flatMap (s.messages c k) :=
      flatMap_messages_congr fun R hR => ⟨rfl, Function.update_of_ne (by omega) _ _⟩
    show s.wires.written k ++ s.toWrite k = (List.range (s.round + 1 + 1)).flatMap _
    rw [List.range_succ, List.flatMap_append, List.flatMap_singleton, hnew, hold, List.append_nil]
    exact hs.written k
  resolved := hs.resolved

theorem takeSlice_slices_self : (s.takeSlice c k).slices k s.round = slice c s.loop.main.indexListThreads
    s.loop.main.currentIdxThreads (s.loop.main.nVarsPerThread c k) := by
  simp [Link.takeSlice]

/-- The other slices are as they were. -/
theorem takeSlice_slices_of_ne {j : ℕ} (h : j = k → R ≠ s.round) :
    (s.takeSlice c k).slices j R = s.slices j R := by
  by_cases hj : j = k
  · subst hj
    simp [Link.takeSlice, h rfl]
  · simp [Link.takeSlice, hj]

/-- What a thread writes behind what it has written is the new round's. -/
theorem Link.Inv.takeSlice_written (hc : SendsWhole c) (hs : s.Inv c r env) (hk : s.taken k = false) :
    s.wires.written k ++ (s.takeSlice c k).toWrite k =
      (List.range (s.round + 1)).flatMap ((s.takeSlice c k).messages c k) := by
  have hN := hc.fits.small
  have hbefore := hs.written k
  have hnone : s.messages c k s.round = [] := by simp [Link.messages, hs.untaken k hk]
  have hold : (List.range s.round).flatMap ((s.takeSlice c k).messages c k) =
      (List.range s.round).flatMap (s.messages c k) :=
    flatMap_messages_congr fun R hR => ⟨takeSlice_slices_of_ne fun _ => hR.ne, rfl⟩
  have hnew : (s.takeSlice c k).messages c k s.round = ((sendVariables c .good s.loop.main.memoryThreads
      s.loop.main.indexListThreads (s.loop.main.nVarsPerThread c k)
        s.loop.main.currentIdxThreads).out.flatten).map
      (Message.mk s.round) := by
    rw [sendVariables_whole (by omega) hs.start_lt fun sig hsig => hc.whole sig (hs.slice_lt sig hsig),
      ← List.flatMap_def,
      ← hs.snapshot, Link.messages, takeSlice_slices_self]
    rfl
  rw [List.range_succ, List.flatMap_append, List.flatMap_singleton, hnone, List.append_nil] at hbefore
  rw [List.range_succ, List.flatMap_append, List.flatMap_singleton, hold, ← hbefore, hnew, List.append_assoc]
  simp [Link.takeSlice]

theorem Link.Inv.takeSlice (hc : SendsWhole c) (hs : s.Inv c r env) (hk : s.taken k = false) :
    (s.takeSlice c k).Inv c r env where
  queued := ⟨hs.queued.bij, hs.queued.bijThreads, hs.queued.cur, hs.queued.counts⟩
  start_lt := Nat.mod_lt _ ((Nat.zero_le _).trans_lt hs.start_lt)
  snapshot := hs.snapshot
  later := fun j R (hR : s.round < R) => (takeSlice_slices_of_ne fun _ => hR.ne').trans (hs.later j R hR)
  untaken := by
    intro j hj
    have hne : j ≠ k := by
      rintro rfl
      simp [Link.takeSlice] at hj
    simp only [Link.takeSlice, Function.update_of_ne hne] at hj
    exact (takeSlice_slices_of_ne fun h => absurd h hne).trans (hs.untaken j hj)
  bounded := by
    intro j R sig hsig
    by_cases hnew : j = k ∧ R = s.round
    · obtain ⟨rfl, rfl⟩ := hnew
      rw [takeSlice_slices_self] at hsig
      exact hs.slice_lt sig hsig
    · rw [takeSlice_slices_of_ne (not_and.mp hnew)] at hsig
      exact hs.bounded j R sig hsig
  written := by
    intro j
    by_cases hj : j = k
    · subst hj
      exact hs.takeSlice_written hc hk
    · have hold : (List.range (s.round + 1)).flatMap ((s.takeSlice c k).messages c j) =
          (List.range (s.round + 1)).flatMap (s.messages c j) :=
        flatMap_messages_congr fun R _ => ⟨takeSlice_slices_of_ne fun h => absurd h hj, rfl⟩
      show s.wires.written j ++ (s.takeSlice c k).toWrite j = (List.range (s.round + 1)).flatMap _
      rw [hold, ← hs.written j]
      simp [Link.takeSlice, hj]
  resolved := hs.resolved

theorem Link.Inv.write (hs : s.Inv c r env) {rest : List Message} (h : s.toWrite k = m :: rest) :
    Link.Inv c r env { s with toWrite := Function.update s.toWrite k rest, wires := s.wires.write k [m] } :=
  { hs with
    written := by
      intro j
      show (s.wires.write k [m]).written j ++ Function.update s.toWrite k rest j =
        (List.range (s.round + 1)).flatMap
        (s.messages c j)
      rw [← hs.written j]
      by_cases hj : j = k
      · subst hj
        simp [h]
      · simp [written_write_of_ne hj, hj] }

/-- A message at the head of a connection. -/
theorem Link.Inv.message_head (hs : s.Inv c r env) {rest : List Message} (h : s.wires.queue k = m :: rest) :
    m.round ≤ s.round ∧ ∃ sig < c.numberOfVariables, 0 < (c.pvDes sig).totalSize ∧
      m.frame = frameAt c (s.snapshots m.round) sig 0 := by
  have hmem : m ∈ s.wires.written k := by
    rw [Merge.written, h]
    exact List.mem_append_right _ List.mem_cons_self
  obtain ⟨hle, sig, hsig, hpos, hframe⟩ := hs.message hmem
  exact ⟨hle, sig, hs.bounded k _ sig hsig, hpos, hframe⟩

theorem Link.Inv.process (hc : SendsWhole c) (hs : s.Inv c r env) {rest : List Message}
    {more : List UInt8} {st : Service}
    (h : s.wires.queue k = m :: rest) (hlen : (m.frame.encode ++ more).length < 2 ^ 32)
    (hst : Service.Stores r env k ⟨m.frame.encode ++ more, s.store, []⟩ st) :
    Link.Inv c r env { s with wires := s.wires.take k m rest, store := st.store } := by
  obtain ⟨-, sig, hsig, -, hframe⟩ := hs.message_head h
  have hformed : Formed m.frame := hframe ▸ frameAt_formed hc hsig _
  have hname : m.frame.name = (c.pvDes m.frame.index).pvName := by
    rw [hframe]
    rfl
  exact { hs with
    written := fun j => by
      rw [written_take h]
      exact hs.written j
    resolved := hst.resolved hformed hlen hs.resolved hname }

/-- **One step** keeps the invariant. -/
theorem Link.Inv.step (hc : SendsWhole c) (hs : s.Inv c r env) (h : Link.Step c r env s s') :
    s'.Inv c r env := by
  cases h with
  | turn hstep hno _ => exact hs.turn hc.fits hstep hno
  | dispatch hstep hstart => exact hs.dispatch hc.fits hstep hstart
  | takeSlice _ hk => exact hs.takeSlice hc hk
  | write hw => exact hs.write hw
  | process hq hlen hst => exact hs.process hc hq hlen hst

end Hieratika.Diode
