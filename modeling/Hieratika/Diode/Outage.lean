import Hieratika.Diode.Latest
import Hieratika.Foundations.Deterministic

/-!
# Outages

A connection of the sender breaks, or the receiver is started again. The thread gives up what it had still
to write of its slice and connects again; of what was on the way the receiver may still process a
beginning, beside the frames of the new connection. A receiver that starts again has empty buffers and no
connections.

## The model

`Net` is the link of `Link` with connections of their own: those of thread `k` have the numbers
`k`, `k + numberOfPoolThreads` and so on, and `conn` has the last one of each thread. The streams of
the link (`slices`, `toWrite`, `wires`) are those of connections. Nothing is asked of the round barrier, so
a thread may miss rounds. The `log` begins again with the receiver.

## What is proved

Whatever breaks and whenever, a slot holds a whole snapshot of the PV, that of the frame processed last
since the receiver was started; when everything on the way has been processed, it is not older than
what was dispatched on the connections that are left, if the frame came on such a connection or the
frames were processed in the order of their rounds (`slots_recover`).
-/

namespace Hieratika.Diode

open Foundations Sender Receiver

variable {c : Config} {r : DiodeReceiver} {env : Env} {sig i j k R : ℕ} {m : Message}

/-- The link, and the connection of each thread. -/
structure Net where
  link : Link
  conn : ℕ → ℕ

/-- The threads have connected, and no round was dispatched. -/
def Net.start (memory memoryThreads : Memory) (flags : ℕ → Bool) : Net :=
  ⟨.start memory memoryThreads flags, id⟩

/-- Thread `k` enters `SendVariables`; its frames go to its connection. -/
def Net.takeSlice (c : Config) (x : Net) (k : ℕ) : Net :=
  let s := x.link
  let m := s.loop.main
  let n := m.nVarsPerThread c k
  let frames := (sendVariables c .good m.memoryThreads m.indexListThreads n m.currentIdxThreads).out.flatten
  { x with
    link := { s with
      loop := { s.loop with main := m.takeSlice c k }
      slices := Function.update s.slices (x.conn k) (Function.update (s.slices (x.conn k)) s.round
        (slice c m.indexListThreads m.currentIdxThreads n))
      taken := Function.update s.taken k true
      toWrite := Function.update s.toWrite (x.conn k)
        (s.toWrite (x.conn k) ++ frames.map (Message.mk s.round)) } }

/-- An operation of thread `k` fails: `rest` is what still arrives, and the thread connects again. -/
def Net.fail (c : Config) (x : Net) (k : ℕ) (rest : List Message) : Net where
  link := { x.link with
    toWrite := Function.update x.link.toWrite (x.conn k) []
    wires := x.link.wires.cut (x.conn k) rest }
  conn := Function.update x.conn k (x.conn k + c.numberOfPoolThreads)

/-- The receiver is started again, and all threads connect again. -/
def Net.restart (c : Config) (x : Net) : Net where
  link := { x.link with toWrite := fun _ => [], wires := .empty, store := .start }
  conn := fun k => x.conn k + c.numberOfPoolThreads

/-- The steps of the link, and connections that break. -/
inductive Net.Move (c : Config) (r : DiodeReceiver) (env : Env) : Net → Net → Prop
  | turn {x : Net} {l : Loop Memory} : Loop.Step c x.link.loop l → ¬ StartsRound x.link.loop l →
      Net.Move c r env x { x with link := { x.link with loop := l } }
  | dispatch {x : Net} {l : Loop Memory} : Loop.Step c x.link.loop l → StartsRound x.link.loop l →
      Net.Move c r env x { x with link := x.link.newRound l }
  | takeSlice {x : Net} {k : ℕ} : k < c.numberOfPoolThreads → x.link.taken k = false →
      Net.Move c r env x (x.takeSlice c k)
  | write {x : Net} {j : ℕ} {m : Message} {rest : List Message} : x.link.toWrite j = m :: rest →
      Net.Move c r env x { x with link := { x.link with
        toWrite := Function.update x.link.toWrite j rest, wires := x.link.wires.write j [m] } }
  | process {x : Net} {j : ℕ} {m : Message} {rest : List Message} {more : List UInt8} {st : Service} :
      x.link.wires.queue j = m :: rest → (m.frame.encode ++ more).length < 2 ^ 32 →
      Service.Stores r env j ⟨m.frame.encode ++ more, x.link.store, []⟩ st →
      Net.Move c r env x { x with link := { x.link with
        wires := x.link.wires.take j m rest, store := st.store } }
  | fail {x : Net} {k : ℕ} {rest lost : List Message} : k < c.numberOfPoolThreads →
      x.link.wires.queue (x.conn k) = rest ++ lost → Net.Move c r env x (x.fail c k rest)

/-- The moves, and a restart of the receiver. -/
inductive Net.Step (c : Config) (r : DiodeReceiver) (env : Env) : Net → Net → Prop
  | move {x y : Net} : Net.Move c r env x y → Net.Step c r env x y
  | restart {x : Net} : Net.Step c r env x (x.restart c)

variable {s s' : Link} {x y : Net}

/-- **Without outages** the net is the link. -/
theorem Link.Step.net (h : Link.Step c r env s s') : Net.Move c r env ⟨s, id⟩ ⟨s', id⟩ := by
  cases h with
  | turn hstep hno _ => exact .turn hstep hno
  | dispatch hstep hstart => exact .dispatch hstep hstart
  | takeSlice hk htaken => exact .takeSlice (x := ⟨s, id⟩) hk htaken
  | write hw => exact .write (x := ⟨s, id⟩) hw
  | process hq hlen hst => exact .process (x := ⟨s, id⟩) hq hlen hst

/-! ### The invariant -/

/-- Nothing was ever sent on the connection. -/
structure Link.Unused (s : Link) (j : ℕ) : Prop where
  slices : ∀ R, s.slices j R = []
  written : s.wires.written j = []
  toWrite : s.toWrite j = []

/-- What a connection has carried and still carries are frames of its slices, in order; on the
connections that are left, all of them. -/
structure Net.Inv (c : Config) (r : DiodeReceiver) (env : Env) (x : Net) : Prop where
  queued : x.link.loop.Queued c
  start_lt : x.link.loop.main.currentIdxThreads < c.numberOfVariables
  snapshot : x.link.snapshots x.link.round = x.link.loop.main.memoryThreads
  later : ∀ j R, x.link.round < R → x.link.slices j R = []
  bounded : ∀ j R, ∀ sig ∈ x.link.slices j R, sig < c.numberOfVariables
  resolved : x.link.store.Resolved r env fun sig => (c.pvDes sig).pvName
  conn : ∀ k < c.numberOfPoolThreads, x.conn k % c.numberOfPoolThreads = k
  unused : ∀ k < c.numberOfPoolThreads, ∀ j, x.conn k < j → j % c.numberOfPoolThreads = k → x.link.Unused j
  untaken : ∀ k < c.numberOfPoolThreads, x.link.taken k = false → x.link.slices (x.conn k) x.link.round = []
  carried : ∀ j, List.Sublist (x.link.wires.written j ++ x.link.toWrite j)
    ((List.range (x.link.round + 1)).flatMap (x.link.messages c j))
  live : ∀ k < c.numberOfPoolThreads, x.link.wires.written (x.conn k) ++ x.link.toWrite (x.conn k) =
    (List.range (x.link.round + 1)).flatMap (x.link.messages c (x.conn k))

theorem Net.inv_start (hc : c.Fits) (memory memoryThreads : Memory) (flags : ℕ → Bool) :
    (Net.start memory memoryThreads flags).Inv c r env where
  queued := Loop.queued_start hc memory memoryThreads flags
  start_lt := hc.vars_pos
  snapshot := rfl
  later := fun _ _ _ => rfl
  bounded := fun _ _ _ hsig => absurd hsig List.not_mem_nil
  resolved := Store.resolved_start
  conn := fun _ hk => Nat.mod_eq_of_lt hk
  unused := fun _ _ _ _ _ => ⟨fun _ => rfl, rfl, rfl⟩
  untaken := fun _ _ _ => rfl
  carried := fun _ => List.nil_sublist _
  live := fun _ _ => rfl

/-- A message on its way is a whole PV of the slice of its round. -/
theorem Net.Inv.message (hx : x.Inv c r env) (hm : m ∈ x.link.wires.written j) : m.round ≤ x.link.round ∧
    ∃ sig ∈ x.link.slices j m.round, 0 < (c.pvDes sig).totalSize ∧
      m.frame = frameAt c (x.link.snapshots m.round) sig 0 := by
  have hmem := (hx.carried j).subset (List.mem_append_left _ hm)
  rw [List.mem_flatMap] at hmem
  obtain ⟨R, hR, hmem⟩ := hmem
  obtain ⟨rfl, hsig⟩ := mem_messages.mp hmem
  exact ⟨Nat.lt_succ_iff.mp (List.mem_range.mp hR), hsig⟩

/-- Two threads have two connections. -/
theorem Net.Inv.conn_ne (hx : x.Inv c r env) {k' : ℕ} (hk : k < c.numberOfPoolThreads)
    (hk' : k' < c.numberOfPoolThreads) (hne : k' ≠ k) : x.conn k' ≠ x.conn k := by
  intro heq
  have hmod := hx.conn k' hk'
  rw [heq, hx.conn k hk] at hmod
  exact hne hmod.symm

/-- A connection that was never used is not that of a thread. -/
theorem Net.Inv.ne_conn (hx : x.Inv c r env) {k' : ℕ} (hk : k < c.numberOfPoolThreads) (hlt : x.conn k' < j)
    (hj : j % c.numberOfPoolThreads = k') : j ≠ x.conn k := by
  rintro rfl
  rw [hx.conn k hk] at hj
  subst hj
  exact lt_irrefl _ hlt

theorem Net.Inv.slice_lt (hx : x.Inv c r env) {n : ℕ} :
    ∀ sig ∈ slice c x.link.loop.main.indexListThreads x.link.loop.main.currentIdxThreads n,
      sig < c.numberOfVariables := by
  intro sig hsig
  obtain ⟨d, -, rfl⟩ := List.mem_map.mp hsig
  exact hx.queued.bijThreads.mapsTo (Set.mem_Iio.mpr (ringPos_lt ((Nat.zero_le _).trans_lt hx.start_lt)))

/-! ### The main loop -/

theorem Net.Inv.turn (hc : c.Fits) (hx : x.Inv c r env) {l : Loop Memory} (h : Loop.Step c x.link.loop l)
    (hno : ¬ StartsRound x.link.loop l) : Net.Inv c r env { x with link := { x.link with loop := l } } := by
  obtain ⟨hmem, hidx⟩ := pool_of_not_startsRound h hno
  exact { hx with
    queued := hx.queued.step hc h
    start_lt := hidx ▸ hx.start_lt
    snapshot := hx.snapshot.trans hmem.symm
    unused := fun k hk j hlt hj =>
      ⟨(hx.unused k hk j hlt hj).slices, (hx.unused k hk j hlt hj).written,
        (hx.unused k hk j hlt hj).toWrite⟩ }

/-- A new round has no messages yet, and those before are as they were. -/
theorem newRound_messages (hlater : ∀ j R, s.round < R → s.slices j R = []) (l : Loop Memory) (j : ℕ) :
    (List.range (s.round + 1 + 1)).flatMap ((s.newRound l).messages c j) =
      (List.range (s.round + 1)).flatMap (s.messages c j) := by
  have hnew : (s.newRound l).messages c j (s.round + 1) = [] := by
    simp [Link.messages, Link.newRound, hlater j _ (Nat.lt_succ_self _)]
  rw [List.range_succ, List.flatMap_append, List.flatMap_singleton, hnew, List.append_nil]
  exact flatMap_messages_congr fun R hR => ⟨rfl, Function.update_of_ne (by omega) _ _⟩

theorem Net.Inv.dispatch (hc : c.Fits) (hx : x.Inv c r env) {l : Loop Memory} (h : Loop.Step c x.link.loop l)
    (hstart : StartsRound x.link.loop l) : Net.Inv c r env { x with link := x.link.newRound l } where
  queued := hx.queued.step hc h
  start_lt := by
    show l.main.currentIdxThreads < _
    rw [main_of_startsRound h hstart]
    exact hx.queued.cur
  snapshot := Function.update_self _ _ _
  later := fun j R hR => hx.later j R (Nat.lt_of_succ_lt hR)
  bounded := hx.bounded
  resolved := hx.resolved
  conn := hx.conn
  unused := fun k hk j hlt hj =>
    ⟨(hx.unused k hk j hlt hj).slices, (hx.unused k hk j hlt hj).written, (hx.unused k hk j hlt hj).toWrite⟩
  untaken := fun k _ _ => hx.later _ _ (Nat.lt_succ_self _)
  carried := fun j => (newRound_messages hx.later l j).symm ▸ hx.carried j
  live := fun k hk => (hx.live k hk).trans (newRound_messages hx.later l _).symm

/-! ### A slice -/

theorem Net.takeSlice_slices_self : (x.takeSlice c k).link.slices (x.conn k) x.link.round =
    slice c x.link.loop.main.indexListThreads x.link.loop.main.currentIdxThreads
      (x.link.loop.main.nVarsPerThread c k) := by
  simp [Net.takeSlice]

/-- The other slices are as they were. -/
theorem Net.takeSlice_slices_of_ne (h : j = x.conn k → R ≠ x.link.round) :
    (x.takeSlice c k).link.slices j R = x.link.slices j R := by
  by_cases hj : j = x.conn k
  · subst hj
    simp [Net.takeSlice, h rfl]
  · simp [Net.takeSlice, hj]

theorem Net.takeSlice_toWrite_of_ne (h : j ≠ x.conn k) :
    (x.takeSlice c k).link.toWrite j = x.link.toWrite j :=
  Function.update_of_ne h _ _

/-- The messages of the other connections are as they were. -/
theorem Net.takeSlice_messages_of_ne (h : j ≠ x.conn k) {n : ℕ} :
    (List.range n).flatMap ((x.takeSlice c k).link.messages c j) =
      (List.range n).flatMap (x.link.messages c j) :=
  flatMap_messages_congr fun _ _ => ⟨Net.takeSlice_slices_of_ne fun heq => absurd heq h, rfl⟩

/-- What a thread writes behind what it has written is the new round's. -/
theorem Net.Inv.takeSlice_live (hc : SendsWhole c) (hx : x.Inv c r env) (hk : k < c.numberOfPoolThreads)
    (htaken : x.link.taken k = false) :
    x.link.wires.written (x.conn k) ++ (x.takeSlice c k).link.toWrite (x.conn k) =
      (List.range (x.link.round + 1)).flatMap ((x.takeSlice c k).link.messages c (x.conn k)) := by
  have hN := hc.fits.small
  have hbefore := hx.live k hk
  have hnone : x.link.messages c (x.conn k) x.link.round = [] := by
    simp [Link.messages, hx.untaken k hk htaken]
  have hold : (List.range x.link.round).flatMap ((x.takeSlice c k).link.messages c (x.conn k)) =
      (List.range x.link.round).flatMap (x.link.messages c (x.conn k)) :=
    flatMap_messages_congr fun R hR => ⟨Net.takeSlice_slices_of_ne fun _ => hR.ne, rfl⟩
  have hnew : (x.takeSlice c k).link.messages c (x.conn k) x.link.round =
      ((sendVariables c .good x.link.loop.main.memoryThreads x.link.loop.main.indexListThreads
        (x.link.loop.main.nVarsPerThread c k) x.link.loop.main.currentIdxThreads).out.flatten).map
          (Message.mk x.link.round) := by
    rw [sendVariables_whole (by omega) hx.start_lt fun sig hsig => hc.whole sig (hx.slice_lt sig hsig),
      ← List.flatMap_def, ← hx.snapshot, Link.messages, Net.takeSlice_slices_self]
    rfl
  rw [List.range_succ, List.flatMap_append, List.flatMap_singleton, hnone, List.append_nil] at hbefore
  rw [List.range_succ, List.flatMap_append, List.flatMap_singleton, hold, ← hbefore, hnew, List.append_assoc]
  simp [Net.takeSlice]

theorem Net.Inv.takeSlice (hc : SendsWhole c) (hx : x.Inv c r env) (hk : k < c.numberOfPoolThreads)
    (htaken : x.link.taken k = false) : (x.takeSlice c k).Inv c r env where
  queued := ⟨hx.queued.bij, hx.queued.bijThreads, hx.queued.cur, hx.queued.counts⟩
  start_lt := Nat.mod_lt _ ((Nat.zero_le _).trans_lt hx.start_lt)
  snapshot := hx.snapshot
  later := fun j R (hR : x.link.round < R) =>
    (Net.takeSlice_slices_of_ne fun _ => hR.ne').trans (hx.later j R hR)
  bounded := by
    intro j R sig hsig
    by_cases hnew : j = x.conn k ∧ R = x.link.round
    · obtain ⟨rfl, rfl⟩ := hnew
      rw [Net.takeSlice_slices_self] at hsig
      exact hx.slice_lt sig hsig
    · rw [Net.takeSlice_slices_of_ne (not_and.mp hnew)] at hsig
      exact hx.bounded j R sig hsig
  resolved := hx.resolved
  conn := hx.conn
  unused := by
    intro k' hk' j hlt hj
    have hne := hx.ne_conn hk hlt hj
    have hun := hx.unused k' hk' j hlt hj
    exact ⟨fun R => (Net.takeSlice_slices_of_ne fun heq => absurd heq hne).trans (hun.slices R), hun.written,
      (Net.takeSlice_toWrite_of_ne hne).trans hun.toWrite⟩
  untaken := by
    intro k' hk' hfalse
    have hne : k' ≠ k := by
      rintro rfl
      simp [Net.takeSlice] at hfalse
    have hfalse' : x.link.taken k' = false := by
      rw [← hfalse]
      exact (Function.update_of_ne hne _ _).symm
    exact (Net.takeSlice_slices_of_ne fun heq => absurd heq (hx.conn_ne hk hk' hne)).trans
      (hx.untaken k' hk' hfalse')
  carried := by
    intro j
    by_cases hj : j = x.conn k
    · subst hj
      exact (hx.takeSlice_live hc hk htaken).symm ▸ List.Sublist.refl _
    · show List.Sublist (x.link.wires.written j ++ (x.takeSlice c k).link.toWrite j) _
      rw [Net.takeSlice_toWrite_of_ne hj]
      exact (Net.takeSlice_messages_of_ne hj).symm ▸ hx.carried j
  live := by
    intro k' hk'
    by_cases hkk : k' = k
    · subst hkk
      exact hx.takeSlice_live hc hk htaken
    · have hj := hx.conn_ne hk hk' hkk
      show x.link.wires.written (x.conn k') ++ (x.takeSlice c k).link.toWrite (x.conn k') = _
      rw [Net.takeSlice_toWrite_of_ne hj]
      exact (hx.live k' hk').trans (Net.takeSlice_messages_of_ne hj).symm

/-! ### Messages on their way -/

/-- A step that moves messages on their way, and changes the buffers. -/
theorem Net.Inv.moved (hx : x.Inv c r env) {toWrite : ℕ → List Message} {wires : Merge ℕ Message}
    {store : Store}
    (hall : ∀ j, wires.written j ++ toWrite j = x.link.wires.written j ++ x.link.toWrite j)
    (hstore : store.Resolved r env fun sig => (c.pvDes sig).pvName) :
    Net.Inv c r env { x with link := { x.link with toWrite := toWrite, wires := wires, store := store } } :=
  { hx with
    resolved := hstore
    unused := fun k hk j hlt hj => by
      have hun := hx.unused k hk j hlt hj
      have hnil := hall j
      rw [hun.written, hun.toWrite, List.append_nil, List.append_eq_nil_iff] at hnil
      exact ⟨hun.slices, hnil.1, hnil.2⟩
    carried := fun j => by
      show List.Sublist (wires.written j ++ toWrite j) _
      rw [hall j]
      exact hx.carried j
    live := fun k hk => (hall _).trans (hx.live k hk) }

theorem Net.Inv.write (hx : x.Inv c r env) {rest : List Message} (h : x.link.toWrite j = m :: rest) :
    Net.Inv c r env { x with link := { x.link with
      toWrite := Function.update x.link.toWrite j rest, wires := x.link.wires.write j [m] } } := by
  refine hx.moved (fun i => ?_) hx.resolved
  by_cases hi : i = j
  · subst hi
    simp [h]
  · simp [written_write_of_ne hi, hi]

/-- A message at the head of a connection. -/
theorem Net.Inv.message_head (hx : x.Inv c r env) {rest : List Message}
    (h : x.link.wires.queue j = m :: rest) :
    m.round ≤ x.link.round ∧ ∃ sig < c.numberOfVariables, 0 < (c.pvDes sig).totalSize ∧
      m.frame = frameAt c (x.link.snapshots m.round) sig 0 := by
  have hmem : m ∈ x.link.wires.written j := by
    rw [Merge.written, h]
    exact List.mem_append_right _ List.mem_cons_self
  obtain ⟨hle, sig, hsig, hpos, hframe⟩ := hx.message hmem
  exact ⟨hle, sig, hx.bounded j _ sig hsig, hpos, hframe⟩

theorem Net.Inv.process (hc : SendsWhole c) (hx : x.Inv c r env) {rest : List Message}
    {more : List UInt8} {st : Service} (h : x.link.wires.queue j = m :: rest)
    (hlen : (m.frame.encode ++ more).length < 2 ^ 32)
    (hst : Service.Stores r env j ⟨m.frame.encode ++ more, x.link.store, []⟩ st) :
    Net.Inv c r env
      { x with link := { x.link with wires := x.link.wires.take j m rest, store := st.store } } := by
  obtain ⟨-, sig, hsig, -, hframe⟩ := hx.message_head h
  have hformed : Formed m.frame := hframe ▸ frameAt_formed hc hsig _
  have hname : m.frame.name = (c.pvDes m.frame.index).pvName := by
    rw [hframe]
    rfl
  exact hx.moved (fun i => by rw [written_take h]) (hst.resolved hformed hlen hx.resolved hname)

/-! ### The outages -/

theorem Net.fail_conn_self {rest : List Message} :
    (x.fail c k rest).conn k = x.conn k + c.numberOfPoolThreads :=
  Function.update_self _ _ _

theorem Net.fail_conn_of_ne {k' : ℕ} {rest : List Message} (h : k' ≠ k) :
    (x.fail c k rest).conn k' = x.conn k' := Function.update_of_ne h _ _

/-- The other connections carry what they carried. -/
theorem Net.fail_of_ne (x : Net) (c : Config) (rest : List Message) (h : j ≠ x.conn k) :
    (x.fail c k rest).link.wires.written j = x.link.wires.written j ∧
      (x.fail c k rest).link.toWrite j = x.link.toWrite j :=
  ⟨written_cut_of_ne rest h, Function.update_of_ne h _ _⟩

/-- The next connection of a thread. -/
theorem Net.Inv.next_unused (hx : x.Inv c r env) (hk : k < c.numberOfPoolThreads) :
    x.link.Unused (x.conn k + c.numberOfPoolThreads) := by
  refine hx.unused k hk _ (Nat.lt_add_of_pos_right ((Nat.zero_le k).trans_lt hk)) ?_
  rw [Nat.add_mod_right]
  exact hx.conn k hk

theorem Net.Inv.fail (hx : x.Inv c r env) (hk : k < c.numberOfPoolThreads) {rest lost : List Message}
    (h : x.link.wires.queue (x.conn k) = rest ++ lost) : (x.fail c k rest).Inv c r env := by
  have hnext := hx.next_unused hk
  have hpos : 0 < c.numberOfPoolThreads := (Nat.zero_le k).trans_lt hk
  have hne : x.conn k + c.numberOfPoolThreads ≠ x.conn k := by omega
  exact {
    queued := hx.queued
    start_lt := hx.start_lt
    snapshot := hx.snapshot
    later := hx.later
    bounded := hx.bounded
    resolved := hx.resolved
    conn := fun k' hk' => by
      by_cases hkk : k' = k
      · subst hkk
        rw [Net.fail_conn_self, Nat.add_mod_right]
        exact hx.conn k' hk'
      · rw [Net.fail_conn_of_ne hkk]
        exact hx.conn k' hk'
    unused := fun k' hk' j hlt hj => by
      have hlt' : x.conn k' < j := by
        by_cases hkk : k' = k
        · subst hkk
          rw [Net.fail_conn_self] at hlt
          omega
        · rwa [Net.fail_conn_of_ne hkk] at hlt
      have hun := hx.unused k' hk' j hlt' hj
      obtain ⟨hwritten, htoWrite⟩ := x.fail_of_ne c rest (hx.ne_conn hk hlt' hj)
      exact ⟨hun.slices, hwritten.trans hun.written, htoWrite.trans hun.toWrite⟩
    untaken := fun k' hk' htaken => by
      by_cases hkk : k' = k
      · subst hkk
        rw [Net.fail_conn_self]
        exact hnext.slices _
      · rw [Net.fail_conn_of_ne hkk]
        exact hx.untaken k' hk' htaken
    carried := fun j => by
      by_cases hj : j = x.conn k
      · subst hj
        have hbefore := hx.carried (x.conn k)
        rw [Merge.written, h] at hbefore
        have hwritten : (x.fail c k rest).link.wires.written (x.conn k) =
            x.link.wires.taken (x.conn k) ++ rest :=
          written_cut_self rest
        have htoWrite : (x.fail c k rest).link.toWrite (x.conn k) = [] := Function.update_self _ _ _
        rw [hwritten, htoWrite, List.append_nil]
        refine List.Sublist.trans ?_ hbefore
        rw [List.append_assoc, List.append_assoc]
        exact (List.Sublist.refl _).append (List.sublist_append_left _ _)
      · obtain ⟨hwritten, htoWrite⟩ := x.fail_of_ne c rest hj
        rw [hwritten, htoWrite]
        exact hx.carried j
    live := fun k' hk' => by
      by_cases hkk : k' = k
      · subst hkk
        obtain ⟨hwritten, htoWrite⟩ := x.fail_of_ne c rest hne
        rw [Net.fail_conn_self, hwritten, htoWrite, hnext.written, hnext.toWrite]
        have hnone : ∀ R, (x.fail c k' rest).link.messages c (x.conn k' + c.numberOfPoolThreads) R = [] :=
          fun R => by
            simp [Link.messages, show (x.fail c k' rest).link.slices = x.link.slices from rfl, hnext.slices R]
        exact (List.flatMap_eq_nil_iff.mpr fun R _ => hnone R).symm
      · have hj := hx.conn_ne hk hk' hkk
        obtain ⟨hwritten, htoWrite⟩ := x.fail_of_ne c rest hj
        rw [Net.fail_conn_of_ne hkk, hwritten, htoWrite]
        exact hx.live k' hk' }

theorem Net.Inv.restart (hx : x.Inv c r env) : (x.restart c).Inv c r env where
  queued := hx.queued
  start_lt := hx.start_lt
  snapshot := hx.snapshot
  later := hx.later
  bounded := hx.bounded
  resolved := Store.resolved_start
  conn := fun k hk => (Nat.add_mod_right _ _).trans (hx.conn k hk)
  unused := fun k hk j hlt hj =>
    ⟨(hx.unused k hk j ((Nat.le_add_right _ _).trans_lt hlt) hj).slices, rfl, rfl⟩
  untaken := fun k hk _ => (hx.next_unused hk).slices _
  carried := fun _ => List.nil_sublist _
  live := fun k hk => by
    have hnone : ∀ R, (x.restart c).link.messages c ((x.restart c).conn k) R = [] := fun R => by
      have hslices : (x.restart c).link.slices ((x.restart c).conn k) R = [] := (hx.next_unused hk).slices R
      simp [Link.messages, hslices]
    exact (List.flatMap_eq_nil_iff.mpr fun R _ => hnone R).symm

theorem Net.Inv.move (hc : SendsWhole c) (hx : x.Inv c r env) (h : Net.Move c r env x y) : y.Inv c r env := by
  cases h with
  | turn hstep hno => exact hx.turn hc.fits hstep hno
  | dispatch hstep hstart => exact hx.dispatch hc.fits hstep hstart
  | takeSlice hk htaken => exact hx.takeSlice hc hk htaken
  | write hw => exact hx.write hw
  | process hq hlen hst => exact hx.process hc hq hlen hst
  | fail hk hq => exact hx.fail hk hq

/-- **One step** keeps the invariant. -/
theorem Net.Inv.step (hc : SendsWhole c) (hx : x.Inv c r env) (h : Net.Step c r env x y) : y.Inv c r env := by
  cases h with
  | move h => exact hx.move hc h
  | restart => exact hx.restart

/-! ### The slot -/

/-- The rounds of what was processed have their snapshots. -/
theorem Net.Inv.log_le (hx : x.Inv c r env) (h : (j, m) ∈ x.link.wires.log) : m.round ≤ x.link.round :=
  (hx.message (List.mem_append_left _ (mem_taken.mpr h))).1

theorem Net.tracks_move (hc : SendsWhole c) (hfit : r.LayoutFits) (hconv : env.Converts r)
    (hmir : Mirrored c r env sig i) (hx : x.Inv c r env) (ht : x.link.Tracks c r sig i)
    (h : Net.Move c r env x y) : y.link.Tracks c r sig i := by
  cases h with
  | turn _ _ => exact ht
  | @dispatch l _ _ =>
    rintro j R ⟨m, hm, rfl⟩
    have hle := hx.log_le (List.mem_of_find?_eq_some hm)
    have hsnap : (x.link.newRound l).snapshots m.round = x.link.snapshots m.round :=
      Function.update_of_ne (by omega) _ _
    exact (ht j _ ⟨m, hm, rfl⟩).trans (by rw [hsnap])
  | takeSlice _ _ => exact ht
  | write _ => exact ht
  | process hq hlen hst =>
    obtain ⟨-, sig', hsig', -, hframe⟩ := hx.message_head hq
    exact ht.stored hc hfit hconv hmir hx.resolved hsig' hframe hlen hst
  | fail _ _ => exact ht

/-- **One step** keeps the slot right. -/
theorem Net.tracks_step (hc : SendsWhole c) (hfit : r.LayoutFits) (hconv : env.Converts r)
    (hmir : Mirrored c r env sig i) (hx : x.Inv c r env) (ht : x.link.Tracks c r sig i)
    (h : Net.Step c r env x y) : y.link.Tracks c r sig i := by
  cases h with
  | move h => exact Net.tracks_move hc hfit hconv hmir hx ht h
  | restart =>
    rintro j R ⟨m, hm, -⟩
    cases hm

/-- In every reachable state a slot holds the round processed last since the receiver was started. -/
theorem net_holds_processed (hc : SendsWhole c) (hfit : r.LayoutFits) (hconv : env.Converts r)
    (hmir : Mirrored c r env sig i) {memory memoryThreads : Memory} {flags : ℕ → Bool}
    (hx : Reachable (Net.Step c r env) (.start memory memoryThreads flags) x) :
    x.Inv c r env ∧ x.link.Tracks c r sig i :=
  hx.invariant (I := fun x => x.Inv c r env ∧ x.link.Tracks c r sig i)
    ⟨Net.inv_start hc.fits memory memoryThreads flags, Link.tracks_start memory memoryThreads flags⟩
    fun _ _ hi hstep => ⟨hi.1.step hc hstep, Net.tracks_step hc hfit hconv hmir hi.1 hi.2 hstep⟩

/-! ### The rounds -/

/-- A connection carries its rounds in order, whatever is lost of it. -/
theorem Net.Inv.written_sorted (hx : x.Inv c r env) (j : ℕ) :
    (x.link.wires.written j).Pairwise fun a b => a.round ≤ b.round :=
  (messages_sorted x.link j).sublist ((List.sublist_append_left _ _).trans (hx.carried j))

/-- When everything is processed, every dispatch on a connection that is left is in the log. -/
theorem Net.Inv.exists_log (hx : x.Inv c r env) (hd : x.link.Done) (hpos : 0 < (c.pvDes sig).totalSize)
    (hk : k < c.numberOfPoolThreads) (hsig : sig ∈ x.link.slices (x.conn k) R) :
    ∃ m, (x.conn k, m) ∈ x.link.wires.log ∧ m.isFor sig = true ∧ m.round = R := by
  have hle : R ≤ x.link.round := by
    by_contra hgt
    rw [hx.later _ R (Nat.lt_of_not_le hgt)] at hsig
    cases hsig
  have hmem : (⟨R, frameAt c (x.link.snapshots R) sig 0⟩ : Message) ∈
      (List.range (x.link.round + 1)).flatMap (x.link.messages c (x.conn k)) :=
    List.mem_flatMap.mpr
      ⟨R, List.mem_range.mpr (Nat.lt_succ_of_le hle), mem_messages.mpr ⟨rfl, sig, hsig, hpos, rfl⟩⟩
  rw [← hx.live k hk, hd.1, List.append_nil, hd.2.mem_written] at hmem
  exact ⟨_, hmem, decide_eq_true rfl, rfl⟩

/-- **Outages do not stick**: whatever breaks, a slot holds the snapshot of the frame of its PV that was
processed last since the receiver was started; once everything is processed, no dispatch of the PV
on a connection that is left is newer, if the frame came on that connection or the frames of the PV
were processed in the order of their rounds. -/
theorem slots_recover (c : Config) (r : DiodeReceiver) (env : Env) (hc : SendsWhole c) (hfit : r.LayoutFits)
    (hconv : env.Converts r) (memory memoryThreads : Memory) (flags : ℕ → Bool) (x : Net)
    (hx : Reachable (Net.Step c r env) (.start memory memoryThreads flags) x) (sig i : ℕ)
    (hmir : Mirrored c r env sig i) :
    (∀ j R, x.link.ProcessedLast sig j R → x.link.Holds c r sig i R) ∧
      (x.link.Done → ∀ k < c.numberOfPoolThreads, ∀ R, sig ∈ x.link.slices (x.conn k) R →
        ∃ j R', x.link.ProcessedLast sig j R' ∧ x.link.Holds c r sig i R' ∧
          (j = x.conn k ∨ x.link.InOrder sig → R ≤ R')) := by
  obtain ⟨hinv, htracks⟩ := net_holds_processed hc hfit hconv hmir hx
  refine ⟨htracks, fun hd k hk R hsig => ?_⟩
  obtain ⟨m, hm, hfor, rfl⟩ := hinv.exists_log hd hmir.size_pos hk hsig
  have hsome : (x.link.wires.log.find? fun x => x.2.isFor sig).isSome = true :=
    List.find?_isSome.mpr ⟨_, hm, hfor⟩
  obtain ⟨⟨j, m'⟩, hm'⟩ := Option.isSome_iff_exists.mp hsome
  have hlast : x.link.ProcessedLast sig j m'.round := ⟨m', hm', rfl⟩
  refine ⟨j, m'.round, hlast, htracks j _ hlast, ?_⟩
  rintro (rfl | hord)
  · exact rank_le_of_find (hinv.written_sorted _) hm' hm hfor
  · rcases eq_or_rel_of_find hord hm' hm hfor with heq | hle
    · cases heq
      exact le_rfl
    · have hself := List.find?_some hm'
      exact hle hself hfor

/-- In the run of two rounds, connection 1 breaks after both: the first round is still in the slot, and no
newer one came on connection 0. -/
theorem slots_recover_crossing : ∃ x : Net, x.conn 1 = 3 ∧ x.link.Holds crossing twoNames 0 0 1 ∧
    ∀ R, 0 ∈ x.link.slices 0 R → R ≤ 1 := by
  obtain ⟨s, hs, hd, -, hproc, -⟩ := crossing_run
  have hrun : Reachable (Net.Step crossing twoNames orderedEnv)
      (.start (fun _ => 0) (fun _ => 0) fun _ => false) ⟨s, id⟩ :=
    Reachable.map (f := fun s => (⟨s, id⟩ : Net)) (fun _ _ h => .move h.net) hs
  have hnone : s.wires.queue 1 = [] ++ [] := hd.2 1
  have hfail := hrun.next (.move (.fail (by decide) hnone))
  have hd' : (Net.fail crossing ⟨s, id⟩ 1 []).link.Done := by
    refine ⟨fun j => ?_, fun j => ?_⟩
    · by_cases hj : j = 1 <;> simp [Net.fail, hj, hd.1]
    · by_cases hj : j = 1
      · simp [Net.fail, Merge.cut, hj]
      · exact (Function.update_of_ne hj _ _).trans (hd.2 j)
  obtain ⟨hholds, hlast⟩ := slots_recover crossing twoNames orderedEnv crossing_sends twoNames_fits
    orderedEnv_converts _ _ _ _ hfail 0 0 crossing_mirrored
  refine ⟨_, rfl, hholds 0 1 hproc, fun R hR => ?_⟩
  obtain ⟨j, R', ⟨m, hm, rfl⟩, -, hle⟩ := hlast hd' 0 (by decide) R hR
  obtain ⟨m', hm', hround⟩ := hproc
  rw [show (Net.fail crossing ⟨s, id⟩ 1 []).link.wires.log = s.wires.log from rfl, hm', Option.some.injEq,
    Prod.mk.injEq] at hm
  obtain ⟨rfl, rfl⟩ := hm
  exact hround ▸ hle (.inl rfl)

end Hieratika.Diode
