import Hieratika.Foundations.Ownership
import Hieratika.Foundations.Runs
import Hieratika.Foundations.Word

/-!
# The threads of the server

`ServerCycle` waits for a connection, serves its requests and closes it. The socket is a raw pointer in
the `ThreadSpecificContext` of the thread: whoever replies without `KeepAlive` deletes it, and whoever called
sets the context back.

## The model

The framework calls `ServerCycle` for every thread: once to start, then with `WaitRequest`, with
`ServiceRequest` as long as the call before it returned no error, and once to terminate; it may start
a thread again that has terminated. Threads that the framework kills are left out. Between any two calls,
and between the two places that read `quit`, the other threads go on, and `Stop` may be called.

## What is proved

Whatever the peers do and whenever the threads are stopped, no deleted socket is used, every socket is held
by exactly one thread and is deleted before the thread ends (`sockets_have_one_owner`), and as long as
`threadIndex` does not come round to 0, the numbers that the threads give themselves are distinct
(`threadNumbers_distinct`).
-/

namespace Hieratika.Receiver

open Foundations

/-- `ErrorManagement::ErrorType`, as far as it is told apart. -/
inductive ErrorType where
  | noError | timeout | completed | fatalError
  deriving DecidableEq

/-- `ErrorsCleared`. -/
def ErrorType.errorsCleared (err : ErrorType) : Bool := err = .noError

/-- What the peer and the network do in a call. -/
structure Peer where
  /-- `WaitConnection` returns the client. -/
  connected : Bool
  /-- The header, the body and the line behind it are read. -/
  served : Bool
  /-- `KeepAlive` of the request. -/
  keepAlive : Bool
  /-- `Close` succeeds. -/
  closed : Bool

/-- `ExecutionInfo`; the context is a socket or `NULL`. -/
structure ExecutionInfo where
  threadNumber : ℕ
  threadSpecificContext : Option ℕ

/-! ### The functions -/

/-- `SendOkReplyMessage`. -/
def sendOkReplyMessage (keepAlive closed : Bool) (commClient : Option ℕ) (h : Heap) : ErrorType × Heap :=
  let h := h.use commClient
  if keepAlive then (.noError, h)
  else
    let err := if closed then .completed else .fatalError
    (err, (h.use commClient).delete commClient)

/-- `SendErrorReplyMessage`. -/
def sendErrorReplyMessage (commClient : Option ℕ) (h : Heap) : Heap :=
  ((h.use commClient).use commClient).delete commClient

/-- `ClientService`, as far as the socket goes. -/
def clientService (quit : ℕ) (o : Peer) (commClient : Option ℕ) (h : Heap) : ErrorType × Heap :=
  if quit = 0 then
    let h := h.use commClient
    if o.served then sendOkReplyMessage o.keepAlive o.closed commClient h
    else (.fatalError, sendErrorReplyMessage commClient h)
  else (.noError, h)

/-- The last reply of a thread: in `MainStage` after `Stop`, and in the stages behind it. -/
def lastReply (closed : Bool) (information : ExecutionInfo) (h : Heap) : ExecutionInfo × Heap :=
  if information.threadSpecificContext ≠ none then
    ({ information with threadSpecificContext := none },
      (sendOkReplyMessage false closed information.threadSpecificContext h).2)
  else (information, h)

/-- `StartupStage`: a thread that still has its `Threads::Id` gets the next number. -/
def startup (assigned threadIndex : ℕ) (information : ExecutionInfo) : ExecutionInfo × ℕ :=
  if information.threadNumber = assigned then
    ({ information with threadNumber := threadIndex }, u32 (threadIndex + 1))
  else (information, threadIndex)

/-- `WaitRequest`, behind `WaitConnection`. -/
def accept (o : Peer) (newClient : ℕ) (information : ExecutionInfo) (h : Heap) :
    ErrorType × ExecutionInfo × Heap :=
  if o.connected then
    (.noError, { information with threadSpecificContext := some newClient }, h.use (some newClient))
  else (.timeout, information, h.delete (some newClient))

/-- `ServiceRequest`. -/
def serviceRequest (quit : ℕ) (o : Peer) (information : ExecutionInfo) (h : Heap) :
    ErrorType × ExecutionInfo × Heap :=
  let (err, h) := clientService quit o information.threadSpecificContext h
  (err, if err.errorsCleared then information else { information with threadSpecificContext := none }, h)

/-! ### The server -/

/-- Where a thread is. -/
inductive Stage where
  | created
  /-- Between two calls; the next one waits for a connection. -/
  | waiting
  /-- In `WaitConnection`. -/
  | accepting (newClient : ℕ)
  /-- Between two calls; the last one returned no error. -/
  | connected
  /-- Before `ClientService` reads `quit`. -/
  | serving
  | ended
  deriving DecidableEq

/-- The process. -/
structure Server where
  quit : ℕ
  threadIndex : ℕ
  sockets : Heap
  stage : ℕ → Stage
  information : ℕ → ExecutionInfo

/-- Nothing has started; the threads have the numbers that the system gave them. -/
def Server.start (ids : ℕ → ℕ) : Server := ⟨0, 0, .empty, fun _ => .created, fun k => ⟨ids k, none⟩⟩

/-- Thread `k` has come to a stage. -/
def Server.set (s : Server) (k : ℕ) (stage : Stage) (information : ExecutionInfo) (sockets : Heap) : Server :=
  { s with
    sockets := sockets
    stage := Function.update s.stage k stage
    information := Function.update s.information k information }

/-- The stage behind a main call. -/
def Stage.after (err : ErrorType) : Stage := if err.errorsCleared then .connected else .waiting

/-- A thread between two calls in `MainStage`. -/
def Stage.Between (stage : Stage) : Prop := stage = .waiting ∨ stage = .connected

/-- The steps of the threads, and `Stop`; `ids` are the `Threads::Id`. -/
inductive Server.Step (ids : ℕ → ℕ) : Server → Server → Prop
  /-- A new thread, or one that starts again, with its number or that of the system. -/
  | startup {s : Server} {k number : ℕ} : s.stage k = .created ∨ s.stage k = .ended →
      number = (s.information k).threadNumber ∨ number = ids k →
      Server.Step ids s
        { s.set k .waiting (Receiver.startup (ids k) s.threadIndex
            { s.information k with threadNumber := number }).1 s.sockets with
          threadIndex := (Receiver.startup (ids k) s.threadIndex
            { s.information k with threadNumber := number }).2 }
  | waitRequest {s : Server} {k : ℕ} : s.stage k = .waiting → s.quit = 0 →
      Server.Step ids s (s.set k (.accepting s.sockets.created) (s.information k) s.sockets.new)
  | accept {s : Server} {k newClient : ℕ} (o : Peer) : s.stage k = .accepting newClient →
      Server.Step ids s (s.set k (.after (Receiver.accept o newClient (s.information k) s.sockets).1)
        (Receiver.accept o newClient (s.information k) s.sockets).2.1
        (Receiver.accept o newClient (s.information k) s.sockets).2.2)
  | enter {s : Server} {k : ℕ} : s.stage k = .connected → s.quit = 0 →
      Server.Step ids s (s.set k .serving (s.information k) s.sockets)
  | serviceRequest {s : Server} {k : ℕ} (o : Peer) : s.stage k = .serving →
      Server.Step ids s (s.set k (.after (Receiver.serviceRequest s.quit o (s.information k) s.sockets).1)
        (Receiver.serviceRequest s.quit o (s.information k) s.sockets).2.1
        (Receiver.serviceRequest s.quit o (s.information k) s.sockets).2.2)
  /-- `MainStage` with `quit`; it returns `Completed`. -/
  | quitting {s : Server} {k : ℕ} (closed : Bool) : (s.stage k).Between → s.quit ≠ 0 →
      Server.Step ids s (s.set k (.after .completed) (lastReply closed (s.information k) s.sockets).1
        (lastReply closed (s.information k) s.sockets).2)
  /-- The stages behind `MainStage`. -/
  | terminate {s : Server} {k : ℕ} (closed : Bool) : (s.stage k).Between →
      Server.Step ids s (s.set k .ended (lastReply closed (s.information k) s.sockets).1
        (lastReply closed (s.information k) s.sockets).2)
  /-- `Atomic::Increment(&quit)`, in 32 bits. -/
  | stop {s : Server} : Server.Step ids s { s with quit := u32 (s.quit + 1) }

/-! ### Who holds which socket -/

/-- The socket of a thread in a stage, with its context. -/
def Stage.socket : Stage → Option ℕ → Option ℕ
  | .accepting newClient, _ => some newClient
  | _, context => context

/-- The context is a socket exactly between a connection and its end. -/
def Stage.Fits : Stage → Option ℕ → Prop
  | .connected, context | .serving, context => context ≠ none
  | _, context => context = none

/-- The socket that thread `k` holds. -/
def Server.holds (s : Server) (k : ℕ) : Option ℕ :=
  (s.stage k).socket (s.information k).threadSpecificContext

/-- Every socket has its thread, and every context fits its stage. -/
structure Server.Owned (s : Server) : Prop where
  sockets : s.sockets.Owned s.holds
  fits : ∀ k, (s.stage k).Fits (s.information k).threadSpecificContext

/-- What a call of thread `k` has to leave. -/
structure Leaves (holder : ℕ → Option ℕ) (k : ℕ) (stage : Stage) (information : ExecutionInfo) (h : Heap) :
    Prop where
  owned : h.Owned (Function.update holder k (stage.socket information.threadSpecificContext))
  fits : stage.Fits information.threadSpecificContext

variable {ids : ℕ → ℕ} {s s' : Server} {k j p : ℕ} {h : Heap} {holder : ℕ → Option ℕ} {stage : Stage}
  {information : ExecutionInfo}

theorem holds_set : (s.set k stage information h).holds =
    Function.update s.holds k (stage.socket information.threadSpecificContext) := by
  funext j
  by_cases hj : j = k
  · subst hj
    simp [Server.holds, Server.set]
  · simp [Server.holds, Server.set, hj]

theorem Server.Owned.set (hs : s.Owned) (hleaves : Leaves s.holds k stage information h) :
    (s.set k stage information h).Owned where
  sockets := by
    rw [holds_set]
    exact hleaves.owned
  fits := by
    intro j
    by_cases hj : j = k
    · subst hj
      simpa [Server.set] using hleaves.fits
    · simpa [Server.set, hj] using hs.fits j

/-- A thread that goes on with the socket it has. -/
theorem Leaves.same (hh : h.Owned holder) (hk : stage.socket information.threadSpecificContext = holder k)
    (hfits : stage.Fits information.threadSpecificContext) : Leaves holder k stage information h where
  owned := by rwa [hk, Function.update_eq_self]
  fits := hfits

/-- A thread that has deleted its socket. -/
theorem Leaves.closed (hh : h.Owned holder) (hk : holder k = some p)
    (hsocket : stage.socket information.threadSpecificContext = none)
    (hfits : stage.Fits information.threadSpecificContext) :
    Leaves holder k stage information (h.delete (some p)) where
  owned := by
    rw [hsocket]
    exact hh.delete hk
  fits := hfits

/-! ### What the functions do with the socket -/

/-- The socket is deleted if and only if there is an error. -/
theorem sendOkReplyMessage_eq (hh : h.Owned holder) (hk : holder k = some p) (keepAlive closed : Bool) :
    (sendOkReplyMessage keepAlive closed (some p) h).2 =
      if (sendOkReplyMessage keepAlive closed (some p) h).1.errorsCleared then h else h.delete (some p) := by
  simp only [sendOkReplyMessage, hh.use_eq hk]
  cases keepAlive <;> cases closed <;> rfl

theorem sendErrorReplyMessage_eq (hh : h.Owned holder) (hk : holder k = some p) :
    sendErrorReplyMessage (some p) h = h.delete (some p) := by
  rw [sendErrorReplyMessage, hh.use_eq hk, hh.use_eq hk]

theorem clientService_eq (hh : h.Owned holder) (hk : holder k = some p) (quit : ℕ) (o : Peer) :
    (clientService quit o (some p) h).2 =
      if (clientService quit o (some p) h).1.errorsCleared then h else h.delete (some p) := by
  simp only [clientService, hh.use_eq hk, sendErrorReplyMessage_eq hh hk]
  by_cases hquit : quit = 0
  · rw [if_pos hquit]
    cases o.served
    · rfl
    · exact sendOkReplyMessage_eq hh hk o.keepAlive o.closed
  · rw [if_neg hquit]
    rfl

theorem serviceRequest_leaves (hh : h.Owned holder) (hk : holder k = some p)
    (hcontext : information.threadSpecificContext = some p) (quit : ℕ) (o : Peer) :
    Leaves holder k (.after (serviceRequest quit o information h).1)
      (serviceRequest quit o information h).2.1 (serviceRequest quit o information h).2.2 := by
  have hheap := clientService_eq hh hk quit o
  unfold serviceRequest
  rw [hcontext]
  dsimp only
  rw [hheap]
  unfold Stage.after
  split_ifs
  · exact .same hh (hcontext.trans hk.symm) (by rw [hcontext]; exact Option.some_ne_none p)
  · exact .closed hh hk rfl rfl

theorem accept_leaves (hh : h.Owned holder) (hk : holder k = some p)
    (hcontext : information.threadSpecificContext = none) (o : Peer) :
    Leaves holder k (.after (accept o p information h).1) (accept o p information h).2.1
      (accept o p information h).2.2 := by
  unfold accept
  cases o.connected
  · exact .closed hh hk hcontext hcontext
  · rw [if_pos rfl, hh.use_eq hk]
    exact .same hh hk.symm (Option.some_ne_none p)

/-- Whatever a thread had, it has nothing behind its last reply. -/
theorem lastReply_leaves (hh : h.Owned holder) (hk : holder k = information.threadSpecificContext)
    (closed : Bool) (hsocket : ∀ context, stage.socket context = context)
    (hfits : stage.Fits none) :
    Leaves holder k stage (lastReply closed information h).1 (lastReply closed information h).2 := by
  unfold lastReply
  cases hcontext : information.threadSpecificContext with
  | none =>
    rw [if_neg (by simp)]
    exact .same hh ((hsocket _).trans hk.symm) (by rw [hcontext]; exact hfits)
  | some p =>
    rw [hcontext] at hk
    have hheap := sendOkReplyMessage_eq hh hk false closed
    have hdeletes : (sendOkReplyMessage false closed (some p) h).1.errorsCleared = false := by
      cases closed <;> rfl
    rw [hdeletes, if_neg Bool.false_ne_true] at hheap
    rw [if_pos (Option.some_ne_none p), hheap]
    exact .closed hh hk (hsocket none) hfits

/-! ### Any interleaving -/

theorem Server.owned_start (ids : ℕ → ℕ) : (Server.start ids).Owned := ⟨Heap.owned_empty, fun _ => rfl⟩

/-- The socket of a thread between two calls is its context. -/
theorem holds_between (hstage : (s.stage k).Between) :
    s.holds k = (s.information k).threadSpecificContext := by
  rw [Server.holds]
  rcases hstage with h | h <;> rw [h] <;> rfl

/-- **One step** of any thread keeps every socket with its owner. -/
theorem Server.Owned.step (hs : s.Owned) (h : Server.Step ids s s') : s'.Owned := by
  cases h with
  | @startup k number hstage hnumber =>
    have hnone : (s.information k).threadSpecificContext = none := by
      have hfits := hs.fits k
      rcases hstage with h | h <;> rwa [h] at hfits
    have hk : s.holds k = none := by
      rw [Server.holds]
      rcases hstage with h | h <;> rw [h] <;> exact hnone
    have hcontext : (Receiver.startup (ids k) s.threadIndex
        { s.information k with threadNumber := number }).1.threadSpecificContext = none := by
      unfold Receiver.startup
      split_ifs <;> exact hnone
    have hleaves : Leaves s.holds k .waiting (Receiver.startup (ids k) s.threadIndex
        { s.information k with threadNumber := number }).1 s.sockets :=
      .same hs.sockets (hcontext.trans hk.symm) hcontext
    exact ⟨(hs.set hleaves).sockets, (hs.set hleaves).fits⟩
  | @waitRequest k hstage hquit =>
    have hfits := hs.fits k
    rw [hstage] at hfits
    have hk : s.holds k = none := (holds_between (Or.inl hstage)).trans hfits
    exact hs.set ⟨hs.sockets.new hk, hfits⟩
  | @accept k newClient o hstage =>
    have hfits := hs.fits k
    rw [hstage] at hfits
    have hk : s.holds k = some newClient := by rw [Server.holds, hstage]; rfl
    exact hs.set (accept_leaves hs.sockets hk hfits o)
  | @enter k hstage hquit =>
    have hfits := hs.fits k
    rw [hstage] at hfits
    exact hs.set (.same hs.sockets (holds_between (Or.inr hstage)).symm hfits)
  | @serviceRequest k o hstage =>
    have hfits := hs.fits k
    rw [hstage] at hfits
    obtain ⟨p, hp⟩ := Option.ne_none_iff_exists'.mp hfits
    have hk : s.holds k = some p := by rw [Server.holds, hstage]; exact hp
    exact hs.set (serviceRequest_leaves hs.sockets hk hp s.quit o)
  | @quitting k closed hstage hquit =>
    exact hs.set (lastReply_leaves hs.sockets (holds_between hstage) closed (fun _ => rfl) rfl)
  | @terminate k closed hstage =>
    exact hs.set (lastReply_leaves hs.sockets (holds_between hstage) closed (fun _ => rfl) rfl)
  | stop => exact ⟨hs.sockets, hs.fits⟩

/-- **Every socket has one owner**: in every interleaving of the threads, with any peers and a `Stop` at any
time, no thread uses or deletes a socket that is deleted, or none; every socket that is not deleted is held by
exactly one thread; and a thread that waits or has ended holds none, so that nothing is left when all
have. -/
theorem sockets_have_one_owner (ids : ℕ → ℕ) (s : Server)
    (h : Reachable (Server.Step ids) (Server.start ids) s) :
    s.sockets.misused = false ∧ (∀ p ∈ s.sockets.live, ∃! k, s.holds k = some p) ∧
      (∀ k, s.stage k = .waiting ∨ s.stage k = .ended → s.holds k = none) ∧
      ((∀ k, s.stage k = .created ∨ s.stage k = .waiting ∨ s.stage k = .ended) → s.sockets.live = ∅) := by
  have howned : s.Owned := h.invariant (Server.owned_start ids) fun _ _ ha hstep => ha.step hstep
  have hnone : ∀ k, s.stage k = .created ∨ s.stage k = .waiting ∨ s.stage k = .ended → s.holds k = none := by
    intro k hstage
    have hfits := howned.fits k
    rw [Server.holds]
    rcases hstage with h | h | h <;> rw [h] at hfits ⊢ <;> exact hfits
  exact ⟨howned.sockets.unmisused, fun p hp => howned.sockets.existsUnique hp,
    fun k hk => hnone k (Or.inr hk),
    fun hall => howned.sockets.live_eq_empty fun k => hnone k (hall k)⟩

/-- Thread 0 waits for a connection. -/
def waitingServer : Server :=
  { (Server.start id).set 0 .waiting ⟨0, none⟩ .empty with threadIndex := 1 }

theorem waitingServer_reachable : Reachable (Server.Step id) (Server.start id) waitingServer :=
  Reachable.refl.next (.startup (Or.inl rfl) (Or.inl rfl))

/-- It has one, and serves it. -/
theorem sockets_have_one_owner_connected : ∃ s, Reachable (Server.Step id) (Server.start id) s ∧
    0 ∈ s.sockets.live ∧ ∃! k, s.holds k = some 0 := by
  have hwait : Server.Step id waitingServer _ := .waitRequest (k := 0) rfl rfl
  have haccept := @Server.Step.accept id (waitingServer.set 0 (.accepting 0) ⟨0, none⟩ Heap.empty.new) 0 0
    ⟨true, true, true, true⟩ rfl
  have hrun := (waitingServer_reachable.next hwait).next haccept
  have hlive : 0 ∈ Heap.empty.new.live := Finset.mem_insert_self _ _
  exact ⟨_, hrun, hlive, (sockets_have_one_owner id _ hrun).2.1 0 hlive⟩

/-! ### The numbers of the threads -/

/-- The numbers given so far are below `threadIndex`, each to one thread; a thread that was never started
has the number of the system. -/
structure Server.Numbered (ids : ℕ → ℕ) (s : Server) : Prop where
  created : ∀ k, s.stage k = .created → (s.information k).threadNumber = ids k
  lt : ∀ k, s.stage k ≠ .created → (s.information k).threadNumber < s.threadIndex
  distinct : ∀ k j, s.stage k ≠ .created → s.stage j ≠ .created →
    (s.information k).threadNumber = (s.information j).threadNumber → k = j

/-- Steps that leave the number of their thread alone. -/
theorem Server.Numbered.set (hs : s.Numbered ids) (hstage : s.stage k ≠ .created) (hnew : stage ≠ .created)
    (hnumber : information.threadNumber = (s.information k).threadNumber) :
    (s.set k stage information h).Numbered ids := by
  have hnumbers : ∀ j, ((s.set k stage information h).information j).threadNumber =
      (s.information j).threadNumber := by
    intro j
    by_cases hj : j = k
    · subst hj
      simpa [Server.set] using hnumber
    · simp [Server.set, hj]
  have hstages : ∀ j, (s.set k stage information h).stage j = .created ↔ s.stage j = .created := by
    intro j
    by_cases hj : j = k
    · subst hj
      simp [Server.set, hstage, hnew]
    · simp [Server.set, hj]
  refine ⟨fun j hj => ?_, fun j hj => ?_, fun i j hi hj heq => ?_⟩
  · rw [hnumbers]
    exact hs.created j ((hstages j).mp hj)
  · rw [hnumbers]
    exact hs.lt j (mt (hstages j).mpr hj)
  · rw [hnumbers, hnumbers] at heq
    exact hs.distinct i j (mt (hstages i).mpr hi) (mt (hstages j).mpr hj) heq

theorem accept_threadNumber (o : Peer) (newClient : ℕ) :
    (accept o newClient information h).2.1.threadNumber = information.threadNumber := by
  unfold accept
  split_ifs <;> rfl

theorem serviceRequest_threadNumber (quit : ℕ) (o : Peer) :
    (serviceRequest quit o information h).2.1.threadNumber = information.threadNumber := by
  unfold serviceRequest
  dsimp only
  split_ifs <;> rfl

theorem lastReply_threadNumber (closed : Bool) :
    (lastReply closed information h).1.threadNumber = information.threadNumber := by
  unfold lastReply
  split_ifs <;> rfl

theorem Stage.after_ne_created (err : ErrorType) : Stage.after err ≠ .created := by
  unfold Stage.after
  split_ifs <;> exact Stage.noConfusion

theorem Stage.Between.ne_created (h : stage.Between) : stage ≠ .created := by
  rcases h with rfl | rfl <;> exact Stage.noConfusion

/-- `threadIndex` can count one more thread. -/
def Server.Counts (s _ : Server) : Prop := s.threadIndex + 1 < 2 ^ 32

/-- **Starting a thread** gives it a new number, unless it has one. -/
theorem Server.Numbered.startup (hs : s.Numbered ids) (hcounts : s.threadIndex + 1 < 2 ^ 32) {number : ℕ}
    (hstage : s.stage k = .created ∨ s.stage k = .ended)
    (hnumber : number = (s.information k).threadNumber ∨ number = ids k) :
    Server.Numbered ids { s.set k .waiting (Receiver.startup (ids k) s.threadIndex
        { s.information k with threadNumber := number }).1 s.sockets with
      threadIndex := (Receiver.startup (ids k) s.threadIndex
        { s.information k with threadNumber := number }).2 } := by
  unfold Receiver.startup
  by_cases hid : number = ids k
  · rw [if_pos hid, u32_of_lt hcounts]
    refine ⟨fun j hj => ?_, fun j hj => ?_, fun i j hi hj heq => ?_⟩
    · have hne : j ≠ k := by
        rintro rfl
        simp [Server.set] at hj
      simp only [Server.set, Function.update_of_ne hne] at hj ⊢
      exact hs.created j hj
    · by_cases hne : j = k
      · subst hne
        simp [Server.set]
      · simp only [Server.set, Function.update_of_ne hne] at hj ⊢
        exact (hs.lt j hj).trans (Nat.lt_succ_self _)
    · by_cases hik : i = k
      · by_cases hjk : j = k
        · rw [hik, hjk]
        · subst hik
          simp only [Server.set, Function.update_self, Function.update_of_ne hjk] at hj heq
          exact absurd heq (hs.lt j hj).ne'
      · by_cases hjk : j = k
        · subst hjk
          simp only [Server.set, Function.update_self, Function.update_of_ne hik] at hi heq
          exact absurd heq (hs.lt i hi).ne
        · simp only [Server.set, Function.update_of_ne hik, Function.update_of_ne hjk] at hi hj heq
          exact hs.distinct i j hi hj heq
  · rw [if_neg hid]
    have hold : number = (s.information k).threadNumber := hnumber.resolve_right hid
    have hended : s.stage k ≠ .created := by
      intro hcreated
      exact hid (hold.trans (hs.created k hcreated))
    have hset : (s.set k .waiting { s.information k with threadNumber := number } s.sockets).Numbered ids :=
      hs.set hended Stage.noConfusion hold
    exact ⟨hset.created, hset.lt, hset.distinct⟩

theorem Server.Numbered.step (hs : s.Numbered ids) (h : Guarded (Server.Step ids) Server.Counts s s') :
    s'.Numbered ids := by
  obtain ⟨h, hcounts⟩ := h
  cases h with
  | startup hstage hnumber => exact hs.startup hcounts hstage hnumber
  | waitRequest hstage _ => exact hs.set (by rw [hstage]; exact Stage.noConfusion) Stage.noConfusion rfl
  | accept o hstage =>
    exact hs.set (by rw [hstage]; exact Stage.noConfusion) (Stage.after_ne_created _)
      (accept_threadNumber o _)
  | enter hstage _ => exact hs.set (by rw [hstage]; exact Stage.noConfusion) Stage.noConfusion rfl
  | serviceRequest o hstage =>
    exact hs.set (by rw [hstage]; exact Stage.noConfusion) (Stage.after_ne_created _)
      (serviceRequest_threadNumber _ o)
  | quitting closed hstage _ =>
    exact hs.set hstage.ne_created (Stage.after_ne_created _) (lastReply_threadNumber closed)
  | terminate closed hstage =>
    exact hs.set hstage.ne_created Stage.noConfusion (lastReply_threadNumber closed)
  | stop => exact ⟨hs.created, hs.lt, hs.distinct⟩

/-- **The numbers are distinct**: as long as `threadIndex` does not come round to 0, threads that have been
started, in any order and again after they have terminated, have different numbers below `threadIndex`. -/
theorem threadNumbers_distinct (ids : ℕ → ℕ) (s : Server)
    (h : Reachable (Guarded (Server.Step ids) Server.Counts) (Server.start ids) s) :
    (∀ k, s.stage k ≠ .created → (s.information k).threadNumber < s.threadIndex) ∧
      ∀ k j, s.stage k ≠ .created → s.stage j ≠ .created →
        (s.information k).threadNumber = (s.information j).threadNumber → k = j := by
  have hnumbered : s.Numbered ids := h.invariant (I := fun s => s.Numbered ids)
    ⟨fun _ _ => rfl, fun _ hk => absurd rfl hk, fun _ _ hk => absurd rfl hk⟩ fun _ _ ha hstep => ha.step hstep
  exact ⟨hnumbered.lt, hnumbered.distinct⟩

/-- Thread 1 starts before thread 0, terminates and starts again with the number of the system. -/
theorem threadNumbers_distinct_two : ∃ s,
    Reachable (Guarded (Server.Step id) Server.Counts) (Server.start id) s ∧
    s.stage 0 = .waiting ∧ s.stage 1 = .waiting ∧ s.threadIndex = 3 ∧ (s.information 1).threadNumber = 2 ∧
      (s.information 0).threadNumber ≠ (s.information 1).threadNumber := by
  have hone : Reachable (Guarded (Server.Step id) Server.Counts) (Server.start id) _ := Reachable.refl.next
    ⟨.startup (k := 1) (Or.inl rfl) (Or.inr rfl), show 0 + 1 < 2 ^ 32 by decide⟩
  have hzero := hone.next ⟨.startup (k := 0) (Or.inl rfl) (Or.inr rfl), show 1 + 1 < 2 ^ 32 by decide⟩
  have hended := hzero.next ⟨.terminate (k := 1) true (Or.inl rfl), show 2 + 1 < 2 ^ 32 by decide⟩
  have hagain := hended.next ⟨.startup (k := 1) (Or.inr rfl) (Or.inr rfl), show 2 + 1 < 2 ^ 32 by decide⟩
  exact ⟨_, hagain, rfl, rfl, rfl, rfl,
    fun heq => absurd ((threadNumbers_distinct id _ hagain).2 0 1 (by decide) (by decide) heq)
      Nat.zero_ne_one⟩

end Hieratika.Receiver
