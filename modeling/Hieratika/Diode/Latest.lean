import Hieratika.Diode.Link

/-!
# Which round a slot ends with

When every frame of a run has been processed, a PV's slot holds the round whose frame was processed
last (`slot_holds_processed`).

## What is proved

On one connection an older round never overwrites a newer one: the round in the slot is the last one
in which the PV was dispatched on the connection that brought it. It is the last round of all when
the frames of the PV were processed in the order of their rounds, or all came on one connection
(`slot_holds_last`). Otherwise it need not be: nothing orders the connections, neither at the
sender, which waits for its writes only, nor at the receiver (`slot_holds_older`).
-/

namespace Hieratika.Diode

open Foundations Sender Receiver

variable {c : Config} {r : DiodeReceiver} {env : Env} {s s' : Link} {sig i k R : ℕ} {m : Message}

/-- The frame is one of the PV `sig`. -/
def Message.isFor (sig : ℕ) (m : Message) : Bool := m.frame.index = sig

/-- Every frame has been written and processed. -/
def Link.Done (s : Link) : Prop := (∀ k, s.toWrite k = []) ∧ s.wires.Drained

/-- The last frame processed for a PV came on connection `k`, in round `R`. -/
def Link.ProcessedLast (s : Link) (sig k R : ℕ) : Prop :=
  ∃ m, s.wires.log.find? (fun x => x.2.isFor sig) = some (k, m) ∧ m.round = R

/-- The last round in which the PV was dispatched on connection `k`. -/
def Link.LastOn (s : Link) (sig k R : ℕ) : Prop := sig ∈ s.slices k R ∧ ∀ R', sig ∈ s.slices k R' → R' ≤ R

/-- The last round in which the PV was dispatched. -/
def Link.Last (s : Link) (sig R : ℕ) : Prop :=
  (∃ k, sig ∈ s.slices k R) ∧ ∀ k R', sig ∈ s.slices k R' → R' ≤ R

/-- The frames of the PV were processed in the order of their rounds. -/
def Link.InOrder (s : Link) (sig : ℕ) : Prop :=
  s.wires.log.Pairwise fun later earlier => later.2.isFor sig = true → earlier.2.isFor sig = true →
    earlier.2.round ≤ later.2.round

/-- The PV was dispatched on one connection only. -/
def Link.OneConnection (s : Link) (sig : ℕ) : Prop :=
  ∀ k k' R R', sig ∈ s.slices k R → sig ∈ s.slices k' R' → k = k'

/-! ### The slot -/

/-- The slot of a PV holds the round of its frame that was processed last. -/
def Link.Tracks (c : Config) (r : DiodeReceiver) (s : Link) (sig i : ℕ) : Prop :=
  ∀ k R, s.ProcessedLast sig k R → s.Holds c r sig i R

theorem Link.tracks_start (memory memoryThreads : Memory) (flags : ℕ → Bool) :
    (Link.start memory memoryThreads flags).Tracks c r sig i := by
  rintro k R ⟨m, hm, -⟩
  cases hm

/-- What was processed last was sent in one of the rounds. -/
theorem Link.Inv.processedLast_le (hs : s.Inv c r env) (h : s.ProcessedLast sig k R) : R ≤ s.round := by
  obtain ⟨m, hm, rfl⟩ := h
  exact (hs.message (List.mem_append_left _ (mem_taken.mpr (List.mem_of_find?_eq_some hm)))).1

/-- A frame of a PV that is stored keeps the slot right, whether it is the slot's PV or not. -/
theorem Link.Tracks.stored (hc : SendsWhole c) (hfit : r.LayoutFits) (hconv : env.Converts r)
    (hmir : Mirrored c r env sig i) (hres : s.store.Resolved r env fun sig => (c.pvDes sig).pvName)
    (ht : s.Tracks c r sig i) {sig' : ℕ} (hsig' : sig' < c.numberOfVariables)
    (hframe : m.frame = frameAt c (s.snapshots m.round) sig' 0) {rest : List Message}
    {more : List UInt8} {st : Service} (hlen : (m.frame.encode ++ more).length < 2 ^ 32)
    (hst : Service.Stores r env k ⟨m.frame.encode ++ more, s.store, []⟩ st) :
    Link.Tracks c r { s with wires := s.wires.take k m rest, store := st.store } sig i := by
  have hindex : m.frame.index = sig' := by rw [hframe]; rfl
  have hoff : m.frame.offset = 0 := by rw [hframe]; rfl
  have hname : m.frame.name = (c.pvDes m.frame.index).pvName := by rw [hframe]; rfl
  have hformed : Formed m.frame := hframe ▸ frameAt_formed hc hsig' _
  rintro k' R ⟨m', hm', rfl⟩
  replace hm' : ((k, m) :: s.wires.log).find? (fun x => x.2.isFor sig) = some (k', m') := hm'
  by_cases hself : sig' = sig
  · subst hself
    have hfirst : m.isFor sig' = true := decide_eq_true hindex
    rw [List.find?_cons_of_pos (by exact hfirst), Option.some.injEq, Prod.mk.injEq] at hm'
    obtain ⟨rfl, rfl⟩ := hm'
    obtain ⟨hsize, hbytes⟩ := frameAt_bytes hc hsig' (s.snapshots m.round)
    rw [← hframe] at hsize hbytes
    have hslot :=
      hst.slot_self hformed hlen hres hname (by rw [hname, hindex]; exact hmir.lookup) hmir.slot_lt
      (hsize.trans hmir.size.symm) (hmir.size ▸ hmir.size_pos) hoff
    exact hslot.trans hbytes
  · have hother : ¬ m.isFor sig = true := by
      rw [Message.isFor, hindex]
      simpa using hself
    rw [List.find?_cons_of_neg (by exact hother)] at hm'
    have hslot := hst.slot_other hformed hlen hres hname hfit hconv
      (by rw [hname, hindex]; exact hmir.alone sig' hsig' hself) hmir.slot_lt hoff
    exact hslot.trans (ht k' m'.round ⟨m', hm', rfl⟩)

/-- Processing a frame keeps the slot right. -/
theorem Link.Tracks.process (hc : SendsWhole c) (hfit : r.LayoutFits) (hconv : env.Converts r)
    (hmir : Mirrored c r env sig i) (hs : s.Inv c r env) (ht : s.Tracks c r sig i) {rest : List Message}
    {more : List UInt8} {st : Service} (h : s.wires.queue k = m :: rest)
    (hlen : (m.frame.encode ++ more).length < 2 ^ 32)
    (hst : Service.Stores r env k ⟨m.frame.encode ++ more, s.store, []⟩ st) :
    Link.Tracks c r { s with wires := s.wires.take k m rest, store := st.store } sig i := by
  obtain ⟨-, sig', hsig', -, hframe⟩ := hs.message_head h
  exact ht.stored hc hfit hconv hmir hs.resolved hsig' hframe hlen hst

/-- **One step** keeps the slot right. -/
theorem Link.Tracks.step (hc : SendsWhole c) (hfit : r.LayoutFits) (hconv : env.Converts r)
    (hmir : Mirrored c r env sig i)
    (hs : s.Inv c r env) (ht : s.Tracks c r sig i) (h : Link.Step c r env s s') : s'.Tracks c r sig i := by
  cases h with
  | turn _ _ _ => exact ht
  | @dispatch l _ _ =>
    intro k R hlast
    have hle : R ≤ s.round := hs.processedLast_le hlast
    have hsnap : (s.newRound l).snapshots R = s.snapshots R := Function.update_of_ne (by omega) _ _
    exact (ht k R hlast).trans (by rw [hsnap])
  | takeSlice _ _ => exact ht
  | write _ => exact ht
  | process hq hlen hst => exact ht.process hc hfit hconv hmir hs hq hlen hst

/-- **A slot holds the round processed last**, in every reachable state. -/
theorem slot_holds_processed (hc : SendsWhole c) (hfit : r.LayoutFits) (hconv : env.Converts r)
    (hmir : Mirrored c r env sig i) {memory memoryThreads : Memory} {flags : ℕ → Bool}
    (hs : Reachable (Link.Step c r env) (.start memory memoryThreads flags) s) :
    s.Inv c r env ∧ s.Tracks c r sig i :=
  hs.invariant (I := fun s => s.Inv c r env ∧ s.Tracks c r sig i)
    ⟨Link.inv_start hc.fits memory memoryThreads flags, Link.tracks_start memory memoryThreads flags⟩
    fun _ _ hi hstep => ⟨hi.1.step hc hstep, hi.2.step hc hfit hconv hmir hi.1 hstep⟩

/-! ### The rounds -/

/-- The slices of a connection are in the order of their rounds. -/
theorem messages_sorted (s : Link) (k : ℕ) :
    ((List.range (s.round + 1)).flatMap (s.messages c k)).Pairwise fun a b => a.round ≤ b.round := by
  rw [List.pairwise_flatMap]
  refine ⟨fun R _ => ?_, List.pairwise_lt_range.imp fun hlt a ha b hb => ?_⟩
  · refine List.pairwise_iff_forall_sublist.mpr fun {a b} hsub => ?_
    have ha := (mem_messages.mp (hsub.subset List.mem_cons_self)).1
    have hb := (mem_messages.mp (hsub.subset (List.mem_cons_of_mem _ List.mem_cons_self))).1
    rw [ha, hb]
  · rw [(mem_messages.mp ha).1, (mem_messages.mp hb).1]
    exact hlt.le

/-- A connection carries its rounds in order. -/
theorem Link.Inv.written_sorted (hs : s.Inv c r env) (k : ℕ) :
    (s.wires.written k).Pairwise fun a b => a.round ≤ b.round := by
  have hall := messages_sorted (c := c) s k
  rw [← hs.written k] at hall
  exact (List.pairwise_append.mp hall).1

/-- When everything is processed, every dispatch of the PV is in the log. -/
theorem Link.Inv.exists_log (hs : s.Inv c r env) (hd : s.Done) (hpos : 0 < (c.pvDes sig).totalSize)
    (hsig : sig ∈ s.slices k R) : ∃ m, (k, m) ∈ s.wires.log ∧ m.isFor sig = true ∧ m.round = R := by
  have hle : R ≤ s.round := by
    by_contra hgt
    rw [hs.later k R (by omega)] at hsig
    cases hsig
  have hmem : (⟨R, frameAt c (s.snapshots R) sig 0⟩ : Message) ∈ (List.range (s.round + 1)).flatMap
      (s.messages c k) :=
    List.mem_flatMap.mpr ⟨R, List.mem_range.mpr (by omega), mem_messages.mpr ⟨rfl, sig, hsig, hpos, rfl⟩⟩
  rw [← hs.written k, hd.1 k, List.append_nil, hd.2.mem_written] at hmem
  exact ⟨_, hmem, decide_eq_true rfl, rfl⟩

/-- What was processed for the PV was dispatched. -/
theorem Link.Inv.dispatched (hs : s.Inv c r env) (hm : (k, m) ∈ s.wires.log) (hfor : m.isFor sig = true) :
    sig ∈ s.slices k m.round := by
  obtain ⟨-, sig', hsig', -, hframe⟩ := hs.message (List.mem_append_left _ (mem_taken.mpr hm))
  have hindex : m.frame.index = sig' := by rw [hframe]; rfl
  rw [Message.isFor, decide_eq_true_eq] at hfor
  rwa [← hfor, hindex]

/-- The round processed last is the last one of its connection. -/
theorem Link.Inv.lastOn (hs : s.Inv c r env) (hd : s.Done) (hpos : 0 < (c.pvDes sig).totalSize)
    (h : s.ProcessedLast sig k R) : s.LastOn sig k R := by
  obtain ⟨m, hm, rfl⟩ := h
  have hself := List.find?_some hm
  refine ⟨hs.dispatched (List.mem_of_find?_eq_some hm) hself, fun R' hR' => ?_⟩
  obtain ⟨m', hm', hfor, rfl⟩ := hs.exists_log hd hpos hR'
  exact rank_le_of_find (hs.written_sorted k) hm hm' hfor

/-- In the order of the rounds, the last frame processed is of the last round. -/
theorem Link.Inv.last_of_inOrder (hs : s.Inv c r env) (hd : s.Done) (hpos : 0 < (c.pvDes sig).totalSize)
    (h : s.ProcessedLast sig k R) (hord : s.InOrder sig) : s.Last sig R := by
  refine ⟨⟨k, (hs.lastOn hd hpos h).1⟩, fun k' R' hR' => ?_⟩
  obtain ⟨m, hm, rfl⟩ := h
  obtain ⟨m', hm', hfor, rfl⟩ := hs.exists_log hd hpos hR'
  have hself := List.find?_some hm
  rcases eq_or_rel_of_find hord hm hm' hfor with heq | hle
  · cases heq
    exact le_rfl
  · exact hle hself hfor

/-- **Which round wins**: once every frame is processed, the slot of a PV that was dispatched holds the
round processed last for it, the last one of its connection; it is the last round of all if the
frames of the PV were processed in the order of the rounds, or came on one connection. -/
theorem slot_holds_last (c : Config) (r : DiodeReceiver) (env : Env) (hc : SendsWhole c) (hfit : r.LayoutFits)
    (hconv : env.Converts r) (memory memoryThreads : Memory) (flags : ℕ → Bool) (s : Link)
    (hs : Reachable (Link.Step c r env) (.start memory memoryThreads flags) s) (hd : s.Done) (sig i : ℕ)
    (hmir : Mirrored c r env sig i) (hsent : ∃ k R, sig ∈ s.slices k R) :
    ∃ k R, s.ProcessedLast sig k R ∧ s.LastOn sig k R ∧ s.Holds c r sig i R ∧
      (s.InOrder sig ∨ s.OneConnection sig → s.Last sig R) := by
  obtain ⟨hinv, htracks⟩ := slot_holds_processed hc hfit hconv hmir hs
  obtain ⟨k₀, R₀, hR₀⟩ := hsent
  obtain ⟨m₀, hm₀, hfor₀, -⟩ := hinv.exists_log hd hmir.size_pos hR₀
  have hsome : (s.wires.log.find? fun x => x.2.isFor sig).isSome = true :=
    List.find?_isSome.mpr ⟨_, hm₀, hfor₀⟩
  obtain ⟨⟨k, m⟩, hm⟩ := Option.isSome_iff_exists.mp hsome
  have hlast : s.ProcessedLast sig k m.round := ⟨m, hm, rfl⟩
  have hon := hinv.lastOn hd hmir.size_pos hlast
  refine ⟨k, m.round, hlast, hon, htracks k _ hlast, ?_⟩
  rintro (hord | hone)
  · exact hinv.last_of_inOrder hd hmir.size_pos hlast hord
  · refine ⟨⟨k, hon.1⟩, fun k' R' hR' => ?_⟩
    obtain rfl : k = k' := hone k k' _ R' hon.1 hR'
    exact hon.2 R' hR'

/-! ### Two connections -/

/-- A frame that passes the checks can be processed. -/
theorem Link.Inv.can_process (hc : SendsWhole c) (hs : s.Inv c r env) {rest : List Message}
    (h : s.wires.queue k = m :: rest)
    (hpass : Passes r m.frame) (hlen : m.frame.encode.length < 2 ^ 32) :
    ∃ st, Link.Step c r env s { s with wires := s.wires.take k m rest, store := st } := by
  obtain ⟨-, sig, hsig, -, hframe⟩ := hs.message_head h
  have hformed : Formed m.frame := hframe ▸ frameAt_formed hc hsig _
  have hlen' : (m.frame.encode ++ []).length < 2 ^ 32 := by rwa [List.append_nil]
  let st₀ : Service := ⟨m.frame.encode ++ [], s.store, []⟩
  have hp : st₀.payload <+: m.frame.encode ++ [] := List.prefix_rfl
  obtain ⟨st, hst⟩ := stores_complete env k hpass.2.2 (hformed.accepts hpass) hlen hp hlen' (by simp [st₀])
  exact ⟨st, .process h hlen' hst⟩

/-- The PVs `A` and `B`, one for each of two threads, and a new trip in every round. -/
def crossing : Config :=
  ⟨2, 1, 2, 0xFFFFFFFF, 0xFFFFFFFF, 0, false, fun sig => ⟨if sig = 0 then [65] else [66], 1, 2, 10 * sig, 0⟩⟩

theorem crossing_sends : SendsWhole crossing where
  fits := ⟨by decide, by decide, by decide⟩
  whole := fun _ _ => show 2 ≤ 0xFFFFFFFF by decide
  name_quote := by decide
  name_nul := by decide

theorem twoNames_fits : twoNames.LayoutFits := show twoNames.slotsEnd 2 < 2 ^ 32 by decide

theorem orderedEnv_converts : orderedEnv.Converts twoNames := fun _ _ _ _ => Nat.zero_le _

theorem crossing_lookup : twoNames.lookup orderedEnv (searchName [65]) = 0 ∧
    twoNames.lookup orderedEnv (searchName [66]) = 1 :=
  ⟨lookup_of_found twoNames_find.1, lookup_of_found twoNames_find.2⟩

theorem crossing_mirrored : Mirrored crossing twoNames orderedEnv 0 0 where
  sig_lt := by decide
  slot_lt := by decide
  lookup := crossing_lookup.1
  size := rfl
  size_pos := by decide
  alone := by
    intro sig hsig hne
    have hname : (crossing.pvDes sig).pvName = [66] := if_neg hne
    rw [hname, crossing_lookup.2]
    decide

/-- Between two rounds. -/
structure Link.Ready (s : Link) : Prop where
  pc : s.loop.pc = .top
  changed : s.loop.main.changed = false
  chunckCounter : s.loop.main.chunckCounter = 0
  currentIdx : s.loop.main.currentIdx = 0
  indexList : s.loop.main.indexList = id
  taken : ∀ k < 2, s.taken k = true
  toWrite : s.toWrite = fun _ => []

theorem newRound_step {l l' : Loop Memory} (h : Loop.Step c l l') (hstart : StartsRound l l') :
    Link.Step c r env { s with loop := l } (s.newRound l') :=
  .dispatch (s := { s with loop := l }) h hstart

/-- The preparation of a round: two PVs and a new trip. -/
theorem crossing_plan (m : Main Memory) (hidx : m.currentIdx = 0) :
    (m.finishPlan crossing).restarts crossing = true ∧
    (m.finishPlan crossing).settle crossing =
      { m with nVariables := 2, currentChangePos := 0, chunckCounter := 0, changed := true } := by
  have hmax : crossing.maxSignalPerThread = 2 := by decide
  have hall : crossing.sendOnlyChanged = false := rfl
  have hclamp : m.clamp crossing = { m with nVariables := 2 } := by
    simp [Main.clamp, hmax, hall]
  have hplan : m.finishPlan crossing = { m with nVariables := 2 } := by
    have hfit : crossing.fitBudget 0 2 0 0 = 2 := by decide
    rw [Main.finishPlan, hclamp, Main.budget]
    simp only [hidx, hfit]
  have hrestarts : (m.finishPlan crossing).restarts crossing = true :=
    Bool.or_eq_true_iff.mpr (.inr (decide_eq_true (Nat.zero_le _)))
  refine ⟨hrestarts, ?_⟩
  rw [Main.settle, if_pos hrestarts, hplan]

/-- A round is dispatched. -/
theorem crossing_dispatch (r : DiodeReceiver) (env : Env) (hs : s.Ready) (snapshot : Memory) :
    ∃ l : Loop Memory,
    Reachable (Link.Step crossing r env) s (s.newRound l) ∧ l.pc = .top ∧ l.main.changed = false ∧
      l.main.chunckCounter = 0 ∧
      l.main.currentIdx = 0 ∧ l.main.indexList = id ∧ l.main.memoryThreads = snapshot ∧
        l.main.indexListThreads = id ∧
      l.main.currentIdxThreads = 0 ∧ l.main.numberOfChangedVariables = 2 := by
  have hfin : s.Finished crossing := fun k hk => ⟨hs.taken k hk, by rw [hs.toWrite]⟩
  obtain ⟨m, hm⟩ : ∃ m, m = (s.loop.main.synchronise snapshot fun _ => false).fifo crossing := ⟨_, rfl⟩
  have hidx : m.currentIdx = 0 := by rw [hm]; exact hs.currentIdx
  have hlist : m.indexList = id := by rw [hm]; exact hs.indexList
  have hmem : m.memory = snapshot := by rw [hm]; rfl
  obtain ⟨hrestarts, hsettle⟩ := crossing_plan m hidx
  let l₁ : Loop Memory := { s.loop with pc := .read s.loop.main.chunckCounter true, fresh := true }
  let l₂ : Loop Memory := { l₁ with main := m, pc := .chosen true true }
  let l₃ : Loop Memory :=
    { l₂.restart with main := (m.finishPlan crossing).settle crossing, pc := .ready true }
  have h₁ : Link.Step crossing r env s { s with loop := l₁ } :=
    .turn (.read true hs.pc) (by rintro ⟨-, h⟩; cases h) fun _ _ => hfin
  have h₂ : Link.Step crossing r env { s with loop := l₁ } { s with loop := l₂ } := by
    have hfifo : Loop.Step crossing l₁ { l₁ with
        main := (l₁.main.synchronise snapshot fun _ => false).fifo crossing, pc := .chosen true true } :=
      .fifo _ true snapshot (fun _ => false) rfl hs.changed (by rw [hs.chunckCounter]; decide)
    have hl₂ : l₂ = { l₁ with
        main := (l₁.main.synchronise snapshot fun _ => false).fifo crossing, pc := .chosen true true } := by
      simp only [l₂, hm, l₁]
    rw [hl₂]
    exact .turn hfifo (by rintro ⟨h, -⟩; cases h) fun _ h => by cases h
  have h₃ : Link.Step crossing r env { s with loop := l₂ } { s with loop := l₃ } :=
    .turn (.settleRestart true true rfl hrestarts) (by rintro ⟨h, -⟩; cases h) fun _ h => by cases h
  have hdisp : Loop.Step crossing l₃ _ := .dispatch rfl
  have hrun := (((Reachable.refl.next h₁).next h₂).next h₃).next (newRound_step hdisp ⟨rfl, rfl⟩)
  refine ⟨_, hrun, rfl, rfl, ?_⟩
  simp only [l₃, hsettle, Main.dispatch, hidx, hlist, hmem]
  exact ⟨trivial, by decide, trivial, trivial, trivial, trivial, trivial⟩

/-- A slice of one PV. -/
theorem crossing_sent (snapshot : Memory) {p : ℕ} (hp : p < 2) : slice crossing id p 1 = [p] ∧
    (sendVariables crossing .good snapshot id 1 p).out.flatten = [frameAt crossing snapshot p 0] := by
  have hslice : slice crossing id p 1 = [p] := by
    rw [slice_succ (by decide) hp]
    rfl
  refine ⟨hslice, ?_⟩
  have hwhole : ∀ sig, (crossing.pvDes sig).totalSize ≤ crossing.maxVarSize :=
    fun _ => show 2 ≤ 0xFFFFFFFF by decide
  rw [sendVariables_whole (by decide) hp fun sig _ => hwhole sig, hslice]
  rfl

/-- A thread takes the slice at position `p` of a round of both PVs. -/
theorem crossing_take (snapshot : Memory) {p : ℕ} (hp : p < 2) (hk : k < 2)
    (hmem : s.loop.main.memoryThreads = snapshot)
    (hlist : s.loop.main.indexListThreads = id) (hstart : s.loop.main.currentIdxThreads = p)
    (hn : s.loop.main.numberOfChangedVariables = 2) : s.takeSlice crossing k =
    { s with
      loop := { s.loop with main := { s.loop.main with currentIdxThreads := (p + 1) % 2 } }
      slices := Function.update s.slices k (Function.update (s.slices k) s.round [p])
      taken := Function.update s.taken k true
      toWrite := Function.update s.toWrite k (s.toWrite k ++ [⟨s.round, frameAt crossing snapshot p 0⟩])
        } := by
  obtain ⟨hslice, hframes⟩ := crossing_sent snapshot hp
  have hvars : s.loop.main.nVarsPerThread crossing k = 1 := by
    rw [Main.nVarsPerThread, hn]
    rcases (show k = 0 ∨ k = 1 by omega) with rfl | rfl <;> decide
  have hmain : s.loop.main.takeSlice crossing k = { s.loop.main with currentIdxThreads := (p + 1) % 2 } := by
    have hnext : u32 (p + 1) % crossing.numberOfVariables = (p + 1) % 2 := by
      rcases (show p = 0 ∨ p = 1 by omega) with rfl | rfl <;> decide
    rw [Main.takeSlice, hvars, hstart]
    simp only [hnext]
  rw [Link.takeSlice, hvars, hmem, hlist, hstart, hslice, hframes, hmain]
  rfl

/-- **A round of both PVs**: thread `a` comes first and takes `A`, thread `b` takes `B`. -/
theorem crossing_round (r : DiodeReceiver) (env : Env) (hs : s.Ready) (snapshot : Memory) {a b : ℕ}
    (ha : a < 2) (hb : b < 2) (hab : a ≠ b) :
    ∃ s', Reachable (Link.Step crossing r env) s s' ∧ s'.Ready ∧ s'.round = s.round + 1 ∧
      s'.snapshots = Function.update s.snapshots (s.round + 1) snapshot ∧ 0 ∈ s'.slices a (s.round + 1) ∧
      s'.wires = (s.wires.write a [⟨s.round + 1, frameAt crossing snapshot 0 0⟩]).write b
        [⟨s.round + 1, frameAt crossing snapshot 1 0⟩] := by
  obtain ⟨l, hrun, hpc, hch, hchunk, hidx, hlist, hmem, hthreads, hstart, hn⟩ :=
    crossing_dispatch r env hs snapshot
  have htake₁ := crossing_take (s := s.newRound l) snapshot (p := 0) (by decide) ha hmem hthreads hstart hn
  obtain ⟨s₁, hs₁⟩ : ∃ s₁, s₁ = (s.newRound l).takeSlice crossing a := ⟨_, rfl⟩
  have h₁ : Link.Step crossing r env (s.newRound l) s₁ := hs₁ ▸ .takeSlice ha rfl
  rw [htake₁] at hs₁
  have htake₂ := crossing_take (s := s₁) snapshot (p := 1) (by decide) hb (by rw [hs₁]; exact hmem)
    (by rw [hs₁]; exact hthreads) (by rw [hs₁]) (by rw [hs₁]; exact hn)
  obtain ⟨s₂, hs₂⟩ : ∃ s₂, s₂ = s₁.takeSlice crossing b := ⟨_, rfl⟩
  have htaken : s₁.taken b = false := by simp [hs₁, Link.newRound, Ne.symm hab]
  have h₂ : Link.Step crossing r env s₁ s₂ := hs₂ ▸ .takeSlice hb htaken
  rw [htake₂] at hs₂
  have hwrite₁ : s₂.toWrite a = [⟨s.round + 1, frameAt crossing snapshot 0 0⟩] := by
    simp [hs₂, hs₁, Link.newRound, hab, hs.toWrite]
  let s₃ : Link := { s₂ with
    toWrite := Function.update s₂.toWrite a []
    wires := s₂.wires.write a [⟨s.round + 1, frameAt crossing snapshot 0 0⟩] }
  have h₃ : Link.Step crossing r env s₂ s₃ := .write hwrite₁
  have hwrite₂ : s₃.toWrite b = [⟨s.round + 1, frameAt crossing snapshot 1 0⟩] := by
    simp [s₃, hs₂, hs₁, Link.newRound, Ne.symm hab, hs.toWrite]
  let s₄ : Link := { s₃ with
    toWrite := Function.update s₃.toWrite b []
    wires := s₃.wires.write b [⟨s.round + 1, frameAt crossing snapshot 1 0⟩] }
  have h₄ : Link.Step crossing r env s₃ s₄ := .write hwrite₂
  have hdone : s₄.toWrite = fun _ => [] := by
    funext k
    by_cases hkb : k = b
    · simp [s₄, hkb]
    · by_cases hka : k = a <;> simp [s₄, s₃, hs₂, hs₁, Link.newRound, hka, hkb, hs.toWrite, hab]
  have hall : ∀ k < 2, s₄.taken k = true := by
    intro k hk
    have hk' : k = a ∨ k = b := by omega
    rcases hk' with rfl | rfl <;> simp [s₄, s₃, hs₂, hs₁, hab]
  refine ⟨s₄, (((hrun.next h₁).next h₂).next h₃).next h₄, ⟨?_, ?_, ?_, ?_, ?_, hall, hdone⟩, ?_, ?_, ?_, ?_⟩
  all_goals simp only [s₄, s₃, hs₂, hs₁]
  · exact hpc
  · exact hch
  · exact hchunk
  · exact hidx
  · exact hlist
  · rfl
  · simp [Link.newRound, hmem]
  · simp [Link.newRound, hab]
  · rfl

/-- A frame of `crossing` can be processed. -/
theorem crossing_process (hs : s.Inv crossing twoNames orderedEnv) {rest : List Message}
    (h : s.wires.queue k = m :: rest) :
    ∃ st, Link.Step crossing twoNames orderedEnv s
      { s with wires := s.wires.take k m rest, store := st } := by
  obtain ⟨-, sig, hsig, -, hframe⟩ := hs.message_head h
  have hname : m.frame.name.length = 1 := by
    rw [hframe]
    rcases (show sig = 0 ∨ sig = 1 by simp only [crossing] at hsig; omega) with rfl | rfl <;> rfl
  have hsize : m.frame.size = 2 := by
    rw [hframe]
    exact (frameAt_bytes crossing_sends hsig _).1
  have hindex : m.frame.index = sig := by rw [hframe]; rfl
  have hformed : Formed m.frame := hframe ▸ frameAt_formed crossing_sends hsig _
  apply hs.can_process crossing_sends h ⟨by rw [hname]; decide, hindex ▸ hsig, by rw [hsize]; decide⟩
  rw [length_encode hformed.toShaped, hname, hsize]
  decide

/-- A connection of `crossing` is processed to its end. -/
theorem crossing_drain (k : ℕ) : ∀ (ms : List Message) (s : Link), s.Inv crossing twoNames orderedEnv →
    s.wires.queue k = ms → ∃ st, Reachable (Link.Step crossing twoNames orderedEnv) s { s with
      wires := ⟨Function.update s.wires.queue k [], (ms.map (Prod.mk k)).reverse ++ s.wires.log⟩
      store := st } := by
  intro ms
  induction ms with
  | nil =>
    intro s _ hq
    refine ⟨s.store, ?_⟩
    rw [← hq, Function.update_eq_self, hq]
    exact .refl
  | cons m ms ih =>
    intro s hs hq
    obtain ⟨st, hstep⟩ := crossing_process hs hq
    obtain ⟨st', hrun⟩ := ih _ (hs.step crossing_sends hstep) (Function.update_self _ _ _)
    refine ⟨st', Reachable.trans (Reachable.next .refl hstep) ?_⟩
    simpa [Merge.take] using hrun

/-- **A run of two rounds**: `A` goes over connection 0 in the first and over connection 1 in the second,
and connection 1 is processed first. -/
theorem crossing_run : ∃ s, Reachable (Link.Step crossing twoNames orderedEnv)
      (.start (fun _ => 0) (fun _ => 0) fun _ => false) s ∧ s.Done ∧ s.Last 0 2 ∧ s.ProcessedLast 0 0 1 ∧
      s.snapshots 1 = (fun _ => 1) ∧ s.snapshots 2 = fun _ => 2 := by
  have hready : (Link.start (fun _ => 0) (fun _ => 0) fun _ => false).Ready :=
    ⟨rfl, rfl, rfl, rfl, rfl, fun _ _ => rfl, rfl⟩
  obtain ⟨s₁, h₁, hready₁, hround₁, hsnap₁, -, hwires₁⟩ :=
    crossing_round twoNames orderedEnv hready (fun _ => 1) (a := 0) (b := 1) (by decide) (by decide)
      (by decide)
  obtain ⟨s₂, h₂, hready₂, hround₂, hsnap₂, hslice, hwires₂⟩ :=
    crossing_round twoNames orderedEnv hready₁ (fun _ => 2) (a := 1) (b := 0) (by decide) (by decide)
      (by decide)
  have hone : s₁.round = 1 := hround₁
  rw [hone] at hround₂ hsnap₂ hslice hwires₂
  have hqueue₀ :
      s₂.wires.queue 0 = [⟨1, frameAt crossing (fun _ => 1) 0 0⟩,
      ⟨2, frameAt crossing (fun _ => 2) 1 0⟩] := by
    rw [hwires₂, hwires₁]
    rfl
  have hqueue₁ :
      s₂.wires.queue 1 = [⟨1, frameAt crossing (fun _ => 1) 1 0⟩,
      ⟨2, frameAt crossing (fun _ => 2) 0 0⟩] := by
    rw [hwires₂, hwires₁]
    rfl
  have hrun := h₁.trans h₂
  have hinv := (slot_holds_processed crossing_sends twoNames_fits orderedEnv_converts crossing_mirrored
    hrun).1
  obtain ⟨st, h₃⟩ := crossing_drain 1 _ s₂ hinv hqueue₁
  have hinv₃ :=
    (slot_holds_processed crossing_sends twoNames_fits orderedEnv_converts crossing_mirrored
    (hrun.trans h₃)).1
  obtain ⟨st', h₄⟩ := crossing_drain 0 _ _ hinv₃ hqueue₀
  refine ⟨_, (hrun.trans h₃).trans h₄, ⟨fun k => ?_, fun k => ?_⟩, ⟨⟨1, hslice⟩, fun k R hR => ?_⟩, ?_,
    ?_, ?_⟩
  · exact congrFun hready₂.toWrite k
  · by_cases h0 : k = 0
    · simp [h0]
    · by_cases h1 : k = 1 <;> simp [h0, h1, hwires₂, hwires₁, Merge.write, Link.start, Merge.empty]
  · by_contra hgt
    have hnone : s₂.slices k R = [] := hinv.later k R (by omega)
    rw [show s₂.slices k R = [] from hnone] at hR
    cases hR
  · exact ⟨⟨1, frameAt crossing (fun _ => 1) 0 0⟩, rfl, rfl⟩
  · simp [hsnap₂, hsnap₁, Link.start]
  · simp [hsnap₂]

/-- The last round of `A` is the second one, and its slot ends with the first. -/
theorem slot_holds_older :
    ¬ ∀ (c : Config) (r : DiodeReceiver) (env : Env), SendsWhole c → 2 ≤ c.numberOfPoolThreads →
    r.LayoutFits → env.Converts r → ∀ (memory memoryThreads : Memory) (flags : ℕ → Bool) (s : Link),
    Reachable (Link.Step c r env) (.start memory memoryThreads flags) s → s.Done →
      ∀ sig i R, Mirrored c r env sig i →
    s.Last sig R → s.Holds c r sig i R := by
  intro hall
  obtain ⟨s, hs, hd, hlast, hproc, hsnap₁, hsnap₂⟩ := crossing_run
  have hsecond :=
    hall crossing twoNames orderedEnv crossing_sends (by decide) twoNames_fits orderedEnv_converts _ _ _
    s hs hd
    0 0 2 crossing_mirrored hlast
  have hfirst :=
    (slot_holds_processed crossing_sends twoNames_fits orderedEnv_converts crossing_mirrored hs).2 0 1 hproc
  rw [Link.Holds, hsnap₁] at hfirst
  rw [Link.Holds, hsnap₂, hfirst] at hsecond
  exact absurd hsecond (by decide)

/-- In the run of two rounds the slot of `A` holds the last round of one connection. -/
theorem slot_holds_last_crossing : ∃ (s : Link) (k R : ℕ), s.ProcessedLast 0 k R ∧ s.LastOn 0 k R ∧
    s.Holds crossing twoNames 0 0 R := by
  obtain ⟨s, hs, hd, hlast, -⟩ := crossing_run
  obtain ⟨k, R, hproc, hon, hholds, -⟩ :=
    slot_holds_last crossing twoNames orderedEnv crossing_sends twoNames_fits
    orderedEnv_converts _ _ _ s hs hd 0 0 crossing_mirrored ⟨_, _, hlast.1.choose_spec⟩
  exact ⟨s, k, R, hproc, hon, hholds⟩

end Hieratika.Diode
