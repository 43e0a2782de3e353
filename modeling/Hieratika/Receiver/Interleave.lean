import Hieratika.Foundations.Commute
import Hieratika.Foundations.Runs
import Hieratika.Receiver.Commute

/-!
# Connections side by side

The connections take a frame through three sections under `syncSem`: its index is read from
`pvMapping`, is kept there if it had to be searched, and the value is stored. Between the sections
of one connection the others may run theirs. `Intake` has the connections with the frames they are
still to receive; a step is one section of one connection.

## What is proved

Frames of different PVs commute, and connections that carry disjoint sets of PVs leave the same
buffers in every interleaving of their sections (`frames_commute`). The order between the values of
different connections does not matter (`Merge.foldr_log_eq`), and the cache ends with one entry for
each sender index, whoever kept it.
-/

namespace Hieratika.Receiver

open Foundations

/-! ### The connections -/

/-- Where a connection is with its frame. -/
inductive Lookup where
  | idle
  /-- The entry of the cache is read. -/
  | read (index : ℕ)
  /-- The index is known, and kept. -/
  | known (index : ℕ)

/-- The receiver and its connections; a connection is named by `κ`. -/
structure Intake (κ : Type*) where
  store : Store
  /-- The frames to come, and those that are stored. -/
  wires : Merge κ Arrival
  lookup : κ → Lookup

/-- The connections with the frames they carry. -/
def Intake.start {κ : Type*} (s : Store) (frames : κ → List Arrival) : Intake κ :=
  ⟨s, ⟨frames, []⟩, fun _ => .idle⟩

/-- Every frame is stored. -/
def Intake.Done {κ : Type*} (x : Intake κ) : Prop := x.wires.Drained

variable {κ : Type*} [DecidableEq κ]

/-- The connection goes on to the next section. -/
def Intake.setLookup (x : Intake κ) (k : κ) (l : Lookup) : Intake κ :=
  { x with lookup := Function.update x.lookup k l }

/-- The index of a frame is kept. -/
def Intake.keep (x : Intake κ) (a : Arrival) (index : ℕ) : Intake κ :=
  { x with store := x.store.remap (Function.update x.store.pvMapping a.header.receivedIndex index) }

/-- The value of a frame is stored. -/
def Intake.put (r : DiodeReceiver) (env : Env) (threadId : κ → ℕ) (x : Intake κ) (k : κ) (index : ℕ)
    (a : Arrival) (rest : List Arrival) : Intake κ :=
  { x with store := r.storeValue env (threadId k) index a x.store, wires := x.wires.take k a rest }

/-- The sections; `threadId k` is the thread of the connection. -/
inductive Intake.Step (r : DiodeReceiver) (env : Env) (threadId : κ → ℕ) : Intake κ → Intake κ → Prop
  /-- The first section of `GetLocalIndex`. -/
  | read {x : Intake κ} {k : κ} {a : Arrival} {rest : List Arrival} :
      x.wires.queue k = a :: rest → x.lookup k = .idle →
      Intake.Step r env threadId x (x.setLookup k (.read (x.store.pvMapping a.header.receivedIndex)))
  /-- There is an entry. -/
  | cached {x : Intake κ} {k : κ} {a : Arrival} {rest : List Arrival} {index : ℕ} :
      x.wires.queue k = a :: rest →
      x.lookup k = .read index → index ≠ indexInitId →
        Intake.Step r env threadId x (x.setLookup k (.known index))
  /-- The second section: the index found is kept. -/
  | keep {x : Intake κ} {k : κ} {a : Arrival} {rest : List Arrival} {index : ℕ} :
      x.wires.queue k = a :: rest →
      x.lookup k = .read indexInitId → r.getLocalVariableIndex env a.header.varName = (true, index) →
      Intake.Step r env threadId x ((x.keep a index).setLookup k (.known index))
  | notFound {x : Intake κ} {k : κ} {a : Arrival} {rest : List Arrival} : x.wires.queue k = a :: rest →
      x.lookup k = .read indexInitId → (r.getLocalVariableIndex env a.header.varName).1 = false →
      Intake.Step r env threadId x (x.setLookup k (.known indexNotFoundId))
  /-- The section of `ReadVarValueAndSkip`. -/
  | put {x : Intake κ} {k : κ} {a : Arrival} {rest : List Arrival} {index : ℕ} : x.wires.queue k = a :: rest →
      x.lookup k = .known index →
        Intake.Step r env threadId x ((x.put r env threadId k index a rest).setLookup k .idle)

/-- What the connections carry: frames for local PVs that fit, one name for each sender index, and
no PV on two connections. -/
structure DiodeReceiver.Carries {κ : Type*} (r : DiodeReceiver) (env : Env) (s : Store)
    (frames : κ → List Arrival) : Prop where
  fits : ∀ k, ∀ a ∈ frames k, r.Fits (r.resolve env s a.header) a
  oneToOne : ∀ j, ∀ a ∈ frames j, ∀ k, ∀ b ∈ frames k,
    a.header.receivedIndex = b.header.receivedIndex ↔ a.header.varName = b.header.varName
  disjoint : ∀ j k, j ≠ k → ∀ a ∈ frames j, ∀ b ∈ frames k, r.resolve env s a.header ≠
    r.resolve env s b.header

variable {r : DiodeReceiver} {env : Env} {threadId : κ → ℕ} {s : Store} {frames : κ → List Arrival}
  {x x' e e' : Intake κ}
  {j k : κ} {a b : Arrival} {rest : List Arrival} {m : ℕ → ℕ} {index : ℕ} {l : Lookup}

/-! ### The index of a frame -/

/-- A frame that has an index and no entry had it from the search. -/
theorem found_of_missing (hinit : s.pvMapping a.header.receivedIndex = indexInitId)
    (hlt : r.resolve env s a.header < r.numberOfVariables) :
    r.getLocalVariableIndex env a.header.varName = (true, r.resolve env s a.header) := by
  have hvars := r.vars_lt
  unfold DiodeReceiver.resolve at hlt ⊢
  rw [if_pos hinit] at hlt ⊢
  rcases hsearch : r.getLocalVariableIndex env a.header.varName with ⟨found, i⟩
  rw [hsearch] at hlt
  cases found with
  | true => rfl
  | false =>
    simp only [Bool.false_eq_true, if_false, indexNotFoundId] at hlt
    omega

section

variable (hc : r.Carries env s frames)
include hc

omit [DecidableEq κ]

/-- One sender index, one PV. -/
theorem DiodeReceiver.Carries.resolve_eq (ha : a ∈ frames j) (hb : b ∈ frames k)
    (hindex : a.header.receivedIndex = b.header.receivedIndex) :
    r.resolve env s a.header = r.resolve env s b.header :=
  resolve_congr (congrArg s.pvMapping hindex) ((hc.oneToOne j a ha k b hb).mp hindex)

theorem DiodeReceiver.Carries.resolve_ne_init (ha : a ∈ frames k) :
    r.resolve env s a.header ≠ indexInitId := by
  have hlt := (hc.fits k a ha).local_lt
  have hvars := r.vars_lt
  unfold indexInitId
  omega

/-- Without an entry the search finds it. -/
theorem DiodeReceiver.Carries.found (ha : a ∈ frames k)
    (hinit : s.pvMapping a.header.receivedIndex = indexInitId) :
    r.getLocalVariableIndex env a.header.varName = (true, r.resolve env s a.header) :=
  found_of_missing hinit (hc.fits k a ha).local_lt

end

/-! ### The invariant -/

/-- What a connection knows of the index of its frame is right. -/
def Lookup.Right (r : DiodeReceiver) (env : Env) (s : Store) (pvMapping : ℕ → ℕ) (a : Arrival) : Lookup → Prop
  | .idle => True
  | .read index => (index = r.resolve env s a.header ∧ pvMapping a.header.receivedIndex = index) ∨
      (index = indexInitId ∧ s.pvMapping a.header.receivedIndex = indexInitId)
  | .known index => index = r.resolve env s a.header ∧ pvMapping a.header.receivedIndex = index

/-- A value in the order in which the values are stored. -/
def storing (r : DiodeReceiver) (env : Env) (threadId : κ → ℕ) (s : Store) (y : κ × Arrival)
    (t : Store) : Store :=
  r.storeValue env (threadId y.1) (r.resolve env s y.2.header) y.2 t

/-- The buffers are those of the values stored, and the cache has the right entries. -/
structure Intake.Inv (r : DiodeReceiver) (env : Env) (threadId : κ → ℕ) (s : Store)
    (frames : κ → List Arrival) (x : Intake κ) :
    Prop where
  written : ∀ k, x.wires.written k = frames k
  buffers : x.store.remap s.pvMapping = x.wires.log.foldr (storing r env threadId s) s
  /-- An entry is the first one, or that of a frame. -/
  entry : ∀ p, x.store.pvMapping p = s.pvMapping p ∨
    ∃ k, ∃ a ∈ frames k, a.header.receivedIndex = p ∧ x.store.pvMapping p = r.resolve env s a.header
  settled : ∀ k a, (k, a) ∈ x.wires.log → x.store.pvMapping a.header.receivedIndex = r.resolve env s a.header
  lookup : ∀ k a rest, x.wires.queue k = a :: rest → (x.lookup k).Right r env s x.store.pvMapping a

theorem Intake.inv_start (s : Store) (frames : κ → List Arrival) :
    (Intake.start s frames).Inv r env threadId s frames where
  written _ := rfl
  buffers := rfl
  entry _ := .inl rfl
  settled _ _ h := absurd h List.not_mem_nil
  lookup _ _ _ _ := trivial

theorem Intake.Inv.mem_of_queue (hx : x.Inv r env threadId s frames)
    (hq : x.wires.queue k = a :: rest) : a ∈ frames k := by
  rw [← hx.written k, Merge.written, hq]
  exact List.mem_append_right _ List.mem_cons_self

theorem Intake.Inv.mem_of_log (hx : x.Inv r env threadId s frames) (hlog : (k, a) ∈ x.wires.log) :
    a ∈ frames k := by
  rw [← hx.written k, Merge.written]
  exact List.mem_append_left _ (mem_taken.mpr hlog)

/-- The entry for a frame is missing still, or it is right. -/
theorem Intake.Inv.entry_cases (hc : r.Carries env s frames) (hx : x.Inv r env threadId s frames)
    (ha : a ∈ frames k) :
    x.store.pvMapping a.header.receivedIndex = r.resolve env s a.header ∨
      (x.store.pvMapping a.header.receivedIndex = indexInitId ∧ s.pvMapping a.header.receivedIndex =
        indexInitId) := by
  rcases hx.entry a.header.receivedIndex with hfirst | ⟨j, b, hb, hindex, hentry⟩
  · by_cases hinit : s.pvMapping a.header.receivedIndex = indexInitId
    · exact .inr ⟨hfirst.trans hinit, hinit⟩
    · refine .inl (hfirst.trans ?_)
      unfold DiodeReceiver.resolve
      rw [if_neg hinit]
  · exact .inl (hentry.trans (hc.resolve_eq hb ha hindex))

theorem Intake.Inv.right (hx : x.Inv r env threadId s frames) (hq : x.wires.queue k = a :: rest)
    (hl : x.lookup k = l) :
    l.Right r env s x.store.pvMapping a := by
  rw [← hl]
  exact hx.lookup k a rest hq

/-- Where no entry was read there was none at the start, and the search finds the index. -/
theorem Intake.Inv.found (hc : r.Carries env s frames) (hx : x.Inv r env threadId s frames)
    (hq : x.wires.queue k = a :: rest) (hl : x.lookup k = .read indexInitId) :
    r.getLocalVariableIndex env a.header.varName = (true, r.resolve env s a.header) := by
  have ha := hx.mem_of_queue hq
  have hinit := (hx.right hq hl).resolve_left fun h => hc.resolve_ne_init ha h.1.symm
  exact hc.found ha hinit.2

/-- A connection goes on to a section for which its index is right. -/
theorem Intake.Inv.setLookup (hx : x.Inv r env threadId s frames)
    (hl : ∀ a rest, x.wires.queue k = a :: rest → l.Right r env s x.store.pvMapping a) :
    (x.setLookup k l).Inv r env threadId s frames where
  written := hx.written
  buffers := hx.buffers
  entry := hx.entry
  settled := hx.settled
  lookup j a rest hq := by
    by_cases hj : j = k
    · subst hj
      simp only [Intake.setLookup, Function.update_self]
      exact hl a rest hq
    · simp only [Intake.setLookup, Function.update_of_ne hj]
      exact hx.lookup j a rest hq

omit [DecidableEq κ] in
/-- What is right stays right when the entry of a frame is kept. -/
theorem Lookup.Right.keep (hc : r.Carries env s frames) (ha : a ∈ frames j) (hb : b ∈ frames k)
    (h : l.Right r env s m b) :
    l.Right r env s (Function.update m a.header.receivedIndex (r.resolve env s a.header)) b := by
  have hstays : ∀ index, index = r.resolve env s b.header → m b.header.receivedIndex = index →
      Function.update m a.header.receivedIndex (r.resolve env s a.header) b.header.receivedIndex = index := by
    intro index hright hentry
    by_cases hindex : b.header.receivedIndex = a.header.receivedIndex
    · rw [hindex, Function.update_self, hright]
      exact (hc.resolve_eq hb ha hindex).symm
    · rw [Function.update_of_ne hindex, hentry]
  cases l with
  | idle => trivial
  | read index => exact h.imp_left fun ⟨hright, hentry⟩ => ⟨hright, hstays index hright hentry⟩
  | known index => exact ⟨h.1, hstays index h.1 h.2⟩

theorem Intake.Inv.keep (hc : r.Carries env s frames) (hx : x.Inv r env threadId s frames) (ha : a ∈ frames k)
    (hindex : index = r.resolve env s a.header) : (x.keep a index).Inv r env threadId s frames where
  written := hx.written
  buffers := hx.buffers
  entry p := by
    by_cases hp : p = a.header.receivedIndex
    · refine .inr ⟨k, a, ha, hp.symm, ?_⟩
      rw [hp, ← hindex]
      exact Function.update_self _ _ _
    · have hsame : (x.keep a index).store.pvMapping p = x.store.pvMapping p := Function.update_of_ne hp _ _
      rw [hsame]
      exact hx.entry p
  settled j b hlog := by
    have hright : (Lookup.known (r.resolve env s b.header)).Right r env s x.store.pvMapping b :=
      ⟨rfl, hx.settled j b hlog⟩
    rw [hindex]
    exact (hright.keep hc ha (hx.mem_of_log hlog)).2
  lookup j b rest hq := by
    rw [hindex]
    exact (hx.lookup j b rest hq).keep hc ha (hx.mem_of_queue hq)

theorem Intake.Inv.put (hc : r.Carries env s frames) (hx : x.Inv r env threadId s frames)
    (hq : x.wires.queue k = a :: rest)
    (hl : x.lookup k = .known index) :
    ((x.put r env threadId k index a rest).setLookup k .idle).Inv r env threadId s frames := by
  have ha := hx.mem_of_queue hq
  have hfits := hc.fits k a ha
  obtain ⟨hindex, hentry⟩ := hx.right hq hl
  rw [hindex] at hentry ⊢
  have hmapping :
      (x.put r env threadId k (r.resolve env s a.header) a rest).store.pvMapping = x.store.pvMapping :=
    storeValue_pvMapping hfits.local_lt
  constructor
  · exact fun j => (written_take hq).trans (hx.written j)
  · show (r.storeValue env (threadId k) (r.resolve env s a.header) a x.store).remap s.pvMapping =
      storing r env threadId s (k, a) (x.wires.log.foldr (storing r env threadId s) s)
    rw [← storeValue_remap hfits.local_lt, hx.buffers]
    rfl
  · intro p
    simp only [Intake.setLookup, hmapping]
    exact hx.entry p
  · intro j b hlog
    simp only [Intake.setLookup, hmapping]
    rcases List.mem_cons.mp hlog with heq | hlog
    · cases heq
      exact hentry
    · exact hx.settled j b hlog
  · intro j b rest' hq'
    by_cases hj : j = k
    · subst hj
      simp only [Intake.setLookup, Function.update_self]
      trivial
    · simp only [Intake.setLookup, Function.update_of_ne hj, hmapping]
      simp only [Intake.setLookup, Intake.put, Merge.take, Function.update_of_ne hj] at hq'
      exact hx.lookup j b rest' hq'

/-- **The step lemma.** -/
theorem Intake.Inv.step (hc : r.Carries env s frames) (hx : x.Inv r env threadId s frames)
    (hstep : Intake.Step r env threadId x x') : x'.Inv r env threadId s frames := by
  cases hstep with
  | @read k a rest hq hl =>
    refine hx.setLookup fun b rest' hq' => ?_
    rw [hq] at hq'
    cases hq'
    exact (hx.entry_cases hc (hx.mem_of_queue hq)).imp (fun h => ⟨h, rfl⟩) id
  | @cached k a rest index hq hl hne =>
    refine hx.setLookup fun b rest' hq' => ?_
    rw [hq] at hq'
    cases hq'
    exact (hx.right hq hl).resolve_right fun h => hne h.1
  | @keep k a rest index hq hl hfound =>
    have hindex : index = r.resolve env s a.header :=
      congrArg Prod.snd (hfound.symm.trans (hx.found hc hq hl))
    refine (hx.keep hc (hx.mem_of_queue hq) hindex).setLookup fun b rest' hq' => ?_
    cases hq.symm.trans hq'
    exact ⟨hindex, Function.update_self _ _ _⟩
  | @notFound k a rest hq hl hnot =>
    rw [hx.found hc hq hl] at hnot
    cases hnot
  | put hq hl => exact hx.put hc hq hl

/-! ### Runs -/

theorem Intake.inv_of_reachable (hc : r.Carries env s frames)
    (h : Reachable (Intake.Step r env threadId) (.start s frames) x) : x.Inv r env threadId s frames :=
  h.invariant (Intake.inv_start s frames) fun _ _ hx hstep => hx.step hc hstep

/-- **While there are frames to come** some connection has a section to run. -/
theorem Intake.Inv.progress (hc : r.Carries env s frames) (hx : x.Inv r env threadId s frames)
    (hdone : ¬ x.Done) :
    ∃ z, Intake.Step r env threadId x z := by
  obtain ⟨k, hk⟩ := not_forall.mp hdone
  obtain ⟨a, rest, hq⟩ := List.exists_cons_of_ne_nil hk
  cases hl : x.lookup k with
  | idle => exact ⟨_, .read hq hl⟩
  | known index => exact ⟨_, .put hq hl⟩
  | read index =>
    by_cases hindex : index = indexInitId
    · subst hindex
      exact ⟨_, .keep hq hl (hx.found hc hq hl)⟩
    · exact ⟨_, .cached hq hl hindex⟩

theorem Intake.Done.no_step (hdone : x.Done) (hstep : Intake.Step r env threadId x x') : False := by
  have hempty : ∀ {k a rest}, x.wires.queue k = a :: rest → False := fun {k a rest} hq =>
    List.cons_ne_nil a rest (hq.symm.trans (hdone k))
  cases hstep with
  | read hq => exact hempty hq
  | cached hq => exact hempty hq
  | keep hq => exact hempty hq
  | notFound hq => exact hempty hq
  | put hq => exact hempty hq

/-- A run that comes to its end has stored every frame. -/
theorem Intake.Inv.mem_log (hx : x.Inv r env threadId s frames) (hdone : x.Done) (ha : a ∈ frames k) :
    (k, a) ∈ x.wires.log := by
  rw [← hdone.mem_written, hx.written k]
  exact ha

/-- **Two ends have the same buffers.** -/
theorem Intake.Inv.store_eq (hfit : r.LayoutFits) (hconv : env.Converts r) (hc : r.Carries env s frames)
    (he : e.Inv r env threadId s frames) (he' : e'.Inv r env threadId s frames) (hdone : e.Done)
    (hdone' : e'.Done) :
    e.store = e'.store := by
  have hmapping : e.store.pvMapping = e'.store.pvMapping := by
    funext p
    by_cases hp : ∃ k, ∃ a ∈ frames k, a.header.receivedIndex = p
    · obtain ⟨k, a, ha, rfl⟩ := hp
      rw [he.settled k a (he.mem_log hdone ha), he'.settled k a (he'.mem_log hdone' ha)]
    · have hfirst :
          ∀ {y : Intake κ}, y.Inv r env threadId s frames → y.store.pvMapping p = s.pvMapping p := fun hy =>
        (hy.entry p).resolve_right fun ⟨k, a, ha, hindex, _⟩ => hp ⟨k, a, ha, hindex⟩
      rw [hfirst he, hfirst he']
  have hact : Apart Prod.fst (storing r env threadId s) fun y => y.2 ∈ frames y.1 := fun y z hy hz hne t =>
    storeValue_comm hfit hconv (hc.fits _ _ hy) (hc.fits _ _ hz) (hc.disjoint _ _ hne _ hy _ hz) _ _ t
  have htaken : ∀ k, e.wires.taken k = e'.wires.taken k := fun k => by
    have hall : ∀ {y : Intake κ}, y.Inv r env threadId s frames → y.Done → y.wires.taken k = frames k :=
        fun hy hd => by
      rw [← hy.written k, Merge.written, hd k, List.append_nil]
    rw [hall he hdone, hall he' hdone']
  have hbuffers : e.store.remap s.pvMapping = e'.store.remap s.pvMapping := by
    rw [he.buffers, he'.buffers]
    exact Merge.foldr_log_eq hact (fun y hy => he.mem_of_log hy) htaken
  calc e.store = (e.store.remap s.pvMapping).remap e.store.pvMapping := rfl
    _ = (e'.store.remap s.pvMapping).remap e'.store.pvMapping := by rw [hbuffers, hmapping]
    _ = e'.store := rfl

/-- The two sections of `GetLocalIndex`, one after the other. -/
theorem Intake.lookup_run (r : DiodeReceiver) (env : Env) (threadId : κ → ℕ)
    (hq : x.wires.queue k = a :: rest)
    (hidle : x.lookup k = .idle) (hlt : r.resolve env x.store a.header < r.numberOfVariables) :
    ∃ y, Reachable (Intake.Step r env threadId) x y ∧ y.store = r.remember env x.store a.header ∧
      y.wires = x.wires ∧
      y.lookup = Function.update x.lookup k (.known (r.resolve env x.store a.header)) := by
  have hread : Intake.Step r env threadId x
    (x.setLookup k (.read (x.store.pvMapping a.header.receivedIndex))) := .read hq hidle
  have hlookup : (x.setLookup k (.read (x.store.pvMapping a.header.receivedIndex))).lookup k =
      .read (x.store.pvMapping a.header.receivedIndex) := Function.update_self _ _ _
  by_cases hinit : x.store.pvMapping a.header.receivedIndex = indexInitId
  · have hfound := found_of_missing hinit hlt
    rw [hinit] at hlookup hread
    refine ⟨_, (Reachable.refl.next hread).next (.keep hq hlookup hfound), ?_, rfl,
      Function.update_idem _ _ _⟩
    rw [DiodeReceiver.remember, hfound, if_pos ⟨hinit, rfl⟩]
    rfl
  · have hentry : r.resolve env x.store a.header = x.store.pvMapping a.header.receivedIndex := if_neg hinit
    refine ⟨_, (Reachable.refl.next hread).next (.cached hq hlookup hinit), ?_, rfl, ?_⟩
    · rw [DiodeReceiver.remember, if_neg fun h => hinit h.1]
      rfl
    · rw [hentry]
      exact Function.update_idem _ _ _

/-- **The sections of one frame**, one after the other, are the frame. -/
theorem Intake.receive_run (r : DiodeReceiver) (env : Env) (threadId : κ → ℕ)
    (hq : x.wires.queue k = a :: rest)
    (hidle : x.lookup k = .idle) (hlt : r.resolve env x.store a.header < r.numberOfVariables) :
    ∃ y, Reachable (Intake.Step r env threadId) x y ∧ y.store = r.receive env (threadId k) x.store a ∧
      y.wires = x.wires.take k a rest ∧ y.lookup = x.lookup := by
  obtain ⟨y, hreach, hstore, hwires, hlookup⟩ := Intake.lookup_run r env threadId hq hidle hlt
  have hknown : y.lookup k = .known (r.resolve env x.store a.header) := by
    rw [hlookup]
    exact Function.update_self _ _ _
  refine ⟨_, hreach.next (.put (hwires ▸ hq) hknown), ?_, ?_, ?_⟩
  · show r.storeValue env (threadId k) _ a y.store = _
    rw [hstore]
    rfl
  · show y.wires.take k a rest = _
    rw [hwires]
  · show Function.update y.lookup k .idle = _
    rw [hlookup, Function.update_idem, ← hidle, Function.update_eq_self]

/-! ### The order of the frames -/

/-- **Frames of different PVs commute**, on one connection or on two, and connections with disjoint
sets of PVs leave the same buffers in every interleaving of their sections. -/
theorem frames_commute {κ : Type*} [DecidableEq κ] (r : DiodeReceiver) (env : Env) (hfit : r.LayoutFits)
    (hconv : env.Converts r) :
    (∀ (s : Store) (threadId threadId' : ℕ) (a b : Arrival), r.Fits (r.resolve env s a.header) a →
        r.Fits (r.resolve env s b.header) b →
        (a.header.receivedIndex = b.header.receivedIndex ↔ a.header.varName = b.header.varName) →
        r.resolve env s a.header ≠ r.resolve env s b.header →
        r.receive env threadId' (r.receive env threadId s a) b =
          r.receive env threadId (r.receive env threadId' s b) a) ∧
      ∀ (s : Store) (threadId : κ → ℕ) (frames : κ → List Arrival), r.Carries env s frames →
        ∀ x y : Intake κ, Reachable (Intake.Step r env threadId) (.start s frames) x →
          Reachable (Intake.Step r env threadId) (.start s frames) y →
            (∀ z, ¬ Intake.Step r env threadId x z) →
          (∀ z, ¬ Intake.Step r env threadId y z) → x.Done ∧ y.Done ∧ x.store = y.store := by
  constructor
  · intro s threadId threadId' a b ha hb hone hne
    exact receive_comm hfit hconv ha hb (receivedIndex_ne hone.mp hne) hne threadId threadId'
  · intro s threadId frames hc x y hx hy hendx hendy
    have hdone : ∀ {e : Intake κ}, e.Inv r env threadId s frames →
        (∀ z, ¬ Intake.Step r env threadId e z) → e.Done :=
      fun he hend => by_contra fun hnot => (he.progress hc hnot).elim hend
    have hinvx := Intake.inv_of_reachable hc hx
    have hinvy := Intake.inv_of_reachable hc hy
    exact ⟨hdone hinvx hendx, hdone hinvy hendy,
      hinvx.store_eq hfit hconv hc hinvy (hdone hinvx hendx) (hdone hinvy hendy)⟩

/-- A frame for `A` on one connection, and one for `B` on the other one. -/
def frameFor : Bool → Arrival
  | true => ⟨namedFrame [65], fun _ => 1⟩
  | false => ⟨{ namedFrame [66] with receivedIndex := 1 }, fun _ => 2⟩

theorem resolve_frameFor (k : Bool) :
    twoNames.resolve orderedEnv .start (frameFor k).header = (!k).toNat := by
  cases k with
  | true => simp [DiodeReceiver.resolve, frameFor, namedFrame, twoNames_find.1, Store.start]
  | false => simp [DiodeReceiver.resolve, frameFor, namedFrame, twoNames_find.2, Store.start]

theorem fits_frameFor (k : Bool) :
    twoNames.Fits (twoNames.resolve orderedEnv .start (frameFor k).header) (frameFor k) := by
  rw [resolve_frameFor]
  cases k with
  | true => exact ⟨Nat.two_pos, Nat.le_refl 2⟩
  | false => exact ⟨Nat.one_lt_two, Nat.le_refl 2⟩

theorem carries_frameFor : twoNames.Carries orderedEnv .start fun k => [frameFor k] where
  fits k a ha := by
    cases List.mem_singleton.mp ha
    exact fits_frameFor k
  oneToOne j a ha k b hb := by
    cases List.mem_singleton.mp ha
    cases List.mem_singleton.mp hb
    cases j <;> cases k <;> decide
  disjoint j k hne a ha b hb := by
    cases List.mem_singleton.mp ha
    cases List.mem_singleton.mp hb
    rw [resolve_frameFor, resolve_frameFor]
    cases j <;> cases k <;> simp at hne ⊢

/-- The frame of `k` first. -/
theorem run_frameFor (k : Bool) : ∃ x, Reachable (Intake.Step twoNames orderedEnv Bool.toNat)
    (.start .start fun k => [frameFor k]) x ∧ x.Done ∧ x.wires.log.map Prod.fst = [!k, k] := by
  have hindex : (frameFor k).header.receivedIndex ≠ (frameFor !k).header.receivedIndex := by
    cases k <;> decide
  obtain ⟨y, hy, hstore, hwires, hlookup⟩ := Intake.receive_run twoNames orderedEnv Bool.toNat
    (x := Intake.start .start fun k => [frameFor k]) (k := k)
    (a := frameFor k) rfl rfl (fits_frameFor k).local_lt
  have hresolve : twoNames.resolve orderedEnv y.store (frameFor !k).header =
      twoNames.resolve orderedEnv .start (frameFor !k).header := by
    rw [hstore]
    exact resolve_receive (fits_frameFor k).local_lt hindex
  have hqueue : y.wires.queue (!k) = [frameFor !k] := by
    rw [hwires]
    exact Function.update_of_ne (Bool.not_ne_self k) _ _
  obtain ⟨x, hx, -, hwires', -⟩ := Intake.receive_run twoNames orderedEnv Bool.toNat (x := y) (k := !k) hqueue
    (by rw [hlookup]; rfl) (by rw [hresolve]; exact (fits_frameFor !k).local_lt)
  refine ⟨x, hy.trans hx, ?_, ?_⟩
  · intro j
    rw [hwires', hwires]
    cases j <;> cases k <;> rfl
  · rw [hwires', hwires]
    rfl

/-- The two frames in either order. -/
theorem frames_commute_two :
    twoNames.receive orderedEnv 0 (twoNames.receive orderedEnv 1 .start (frameFor true)) (frameFor false) =
        twoNames.receive orderedEnv 1 (twoNames.receive orderedEnv 0 .start (frameFor false))
          (frameFor true) ∧
      ∃ x y, Reachable (Intake.Step twoNames orderedEnv Bool.toNat) (.start .start fun k => [frameFor k]) x ∧
        Reachable (Intake.Step twoNames orderedEnv Bool.toNat) (.start .start fun k => [frameFor k]) y ∧
        x.wires.log.map Prod.fst = [false, true] ∧ y.wires.log.map Prod.fst = [true, false] ∧
          x.store = y.store := by
  have h := frames_commute (κ := Bool) twoNames orderedEnv (show twoNames.slotsEnd 2 < 2 ^ 32 by decide)
    fun _ _ _ _ => Nat.zero_le _
  obtain ⟨x, hx, hdonex, hlogx⟩ := run_frameFor true
  obtain ⟨y, hy, hdoney, hlogy⟩ := run_frameFor false
  constructor
  · refine h.1 .start 1 0 (frameFor true) (frameFor false) (fits_frameFor true) (fits_frameFor false)
      (by decide) ?_
    rw [resolve_frameFor, resolve_frameFor]
    decide
  · exact ⟨x, y, hx, hy, hlogx, hlogy,
      (h.2 .start Bool.toNat _ carries_frameFor x y hx hy (fun _ => hdonex.no_step)
      fun _ => hdoney.no_step).2.2⟩

end Hieratika.Receiver
