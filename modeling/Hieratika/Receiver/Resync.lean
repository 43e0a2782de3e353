import Hieratika.Receiver.RoundTrip

/-!
# Finding the next frame again

A body that begins with the end `g` of a frame: the connection was cut, and its first bytes
are lost. `ReadVarNameAndIndex` has two ways to the next frame. If the payload begins with
another byte than a quote, the first loop looks for a quote that is not the pattern behind a
name; if it begins with the quote behind the cut name, the second loop takes the pattern and
the data for a name, until it finds a quote that is no pattern.

`Cut g` says what such an end looks like if there is no quote in the data: at most one pattern,
and no other quote. `lost_turn` is what one call makes of a payload that begins with it: either
it keeps or drops a part of `g` and asks for more, or it reads what it would read from the next
frame on.
-/

namespace Hieratika.Receiver

open Foundations Diode

variable {r : DiodeReceiver} {env : Env} {threadId : ℕ} {f : Frame} {fs frames : List Frame} {st : Service}
variable {a b g p q rest : List UInt8} {res : List UInt8 × Option Header}

/-! ### The loops, by what is in the payload -/

theorem getD_append_middle {x c : List UInt8} {j : ℕ} (ha : quote ∉ a) (h₁ : x.length ≤ j)
    (h₂ : j < x.length + a.length) : (x ++ (a ++ c)).getD j 0 ≠ quote := by
  rw [List.getD_append_right _ _ _ _ h₁, List.getD_append _ _ _ _ (by omega),
    List.getD_eq_getElem _ _ (by omega)]
  exact fun he => ha (he ▸ List.getElem_mem _)

theorem getD_append_length (x c : List UInt8) (b : UInt8) : (x ++ b :: c).getD x.length 0 = b := by
  rw [List.getD_append_right _ _ _ _ le_rfl, Nat.sub_self]
  rfl

theorem shift_append {x c : List UInt8} (h : c.length < 2 ^ 32) : shift (x ++ c) x.length = c := by
  unfold shift
  rw [List.drop_left, List.length_append, Nat.add_sub_cancel_left, u32_of_lt h, List.take_length]

variable {x c : List UInt8}

theorem patternTurn_pass {e : List UInt8 × Option ℕ} (hlen : (x ++ a ++ c).length < 2 ^ 32) (ha : quote ∉ a)
    (he : Ends patternTurn (x ++ a ++ c, (x ++ a).length) e) :
    Ends patternTurn (x ++ a ++ c, x.length) e := by
  rw [List.length_append] at he
  refine patternTurn_skip hlen a.length (fun j h₁ h₂ => ⟨by simp; omega, ?_⟩) he
  rw [List.append_assoc]
  exact getD_append_middle ha h₁ h₂

theorem resyncTurn_pass {e : List UInt8 × Bool × Bool} (hlen : (x ++ a ++ c).length < 2 ^ 32) (ha : quote ∉ a)
    (he : Ends resyncTurn (x ++ a ++ c, (x ++ a).length) e) : Ends resyncTurn (x ++ a ++ c, x.length) e := by
  induction a generalizing x with
  | nil => simpa using he
  | cons b a ih =>
    have hne : (x ++ b :: a ++ c).getD x.length 0 ≠ quote := by
      rw [List.append_assoc]
      exact getD_append_middle ha le_rfl (by simp)
    have hturn : resyncTurn (x ++ b :: a ++ c, x.length) = .again (x ++ b :: a ++ c, (x ++ [b]).length) := by
      simp only [resyncTurn]
      rw [if_pos (by simp), if_neg hne, u32_of_lt (by simp at hlen; omega), List.length_append]
      rfl
    refine .again hturn ?_
    rw [List.append_cons x b a] at hlen he ⊢
    exact ih hlen (fun h => ha (by simp [h])) he

/-- Bytes that are no quotes, to the end of the payload. -/
theorem patternTurn_end (hlen : (x ++ a).length < 2 ^ 32) (ha : quote ∉ a) :
    Ends patternTurn (x ++ a, x.length) (x ++ a, none) := by
  have hend : Ends patternTurn (x ++ a ++ [], (x ++ a).length) (x ++ a ++ [], none) := by
    refine .leave ?_
    simp only [patternTurn]
    rw [if_neg (by simp)]
  simpa using patternTurn_pass (by simpa using hlen) ha hend

theorem resyncTurn_end (hlen : (x ++ a).length < 2 ^ 32) (ha : quote ∉ a) :
    Ends resyncTurn (x ++ a, x.length) (x ++ a, false, true) := by
  have hend : Ends resyncTurn (x ++ a ++ [], (x ++ a).length) (x ++ a ++ [], false, true) := by
    refine .leave ?_
    simp only [resyncTurn]
    rw [if_neg (by simp)]
  simpa using resyncTurn_pass (by simpa using hlen) ha hend

/-- A quote that is not the beginning of the pattern: the place to start at. -/
structure Opens (q : List UInt8) : Prop where
  head : q.head? = some quote
  not_pattern : ¬ namePattern <+: q

theorem Opens.of_part {w : List UInt8} (h : Opens w) (hq : q <+: w) (hne : q ≠ []) : Opens q := by
  obtain ⟨s, rfl⟩ := hq
  refine ⟨?_, fun hpat => h.not_pattern (hpat.trans (List.prefix_append q s))⟩
  rw [← h.head, List.head?_append_of_ne_nil _ hne]

theorem take_ne_pattern (hq : Opens q) : q.take 3 ≠ namePattern := fun h =>
  hq.not_pattern (h ▸ List.take_prefix 3 q)

/-- At a quote that opens a name the pattern loop starts again. -/
theorem patternTurn_opens {e : List UInt8 × Option ℕ} (hlen : (x ++ q).length < 2 ^ 32) (hq : Opens q)
    (hlong : 3 ≤ q.length) (he : Ends patternTurn (q, 1) e) : Ends patternTurn (x ++ q, x.length) e := by
  have hlt : q.length < 2 ^ 32 := by simp at hlen; omega
  refine .again ?_ he
  have hget : (x ++ q).getD x.length 0 = quote := by
    obtain ⟨q', rfl⟩ := List.head?_eq_some_iff.mp hq.head
    exact getD_append_length x q' quote
  simp only [patternTurn]
  rw [if_pos (by simp; omega), if_pos hget, List.drop_left, List.length_append, Nat.add_sub_cancel_left,
    u32_of_lt hlt, if_pos hlong, if_neg (take_ne_pattern hq), shift_append hlt]

/-- With fewer than three bytes from the quote on, it asks for more. -/
theorem patternTurn_few (hlen : (x ++ q).length < 2 ^ 32) (hq : q.head? = some quote)
    (hshort : q.length < 3) :
    Ends patternTurn (x ++ q, x.length) (x ++ q, none) := by
  obtain ⟨q', rfl⟩ := List.head?_eq_some_iff.mp hq
  refine .leave ?_
  simp only [patternTurn]
  rw [if_pos (by simp), if_pos (getD_append_length x q' quote), List.length_append, Nat.add_sub_cancel_left,
    u32_of_lt (by omega), if_neg (by omega)]

theorem resyncTurn_opens (hlen : (x ++ q).length < 2 ^ 32) (hq : Opens q) :
    Ends resyncTurn (x ++ q, x.length) (q, true, decide (3 ≤ q.length)) := by
  have hlt : q.length < 2 ^ 32 := by simp at hlen; omega
  have hget : (x ++ q).getD x.length 0 = quote ∧ 0 < q.length := by
    obtain ⟨q', rfl⟩ := List.head?_eq_some_iff.mp hq.head
    exact ⟨getD_append_length x q' quote, by simp⟩
  refine .leave ?_
  simp only [resyncTurn]
  rw [if_pos (by simp; omega), if_pos hget.1, shift_append hlt]
  by_cases hlong : 3 ≤ q.length
  · rw [if_pos hlong, if_pos (take_ne_pattern hq), decide_eq_true hlong]
  · rw [if_neg hlong, decide_eq_false hlong]

/-- The pattern is passed over. -/
theorem resyncTurn_pattern {e : List UInt8 × Bool × Bool} (hlen : (x ++ (namePattern ++ c)).length < 2 ^ 32)
    (he : Ends resyncTurn (namePattern ++ c, 1) e) :
    Ends resyncTurn (x ++ (namePattern ++ c), x.length) e := by
  refine .again ?_ he
  have hget : (x ++ (namePattern ++ c)).getD x.length 0 = quote := getD_append_length x _ quote
  simp only [resyncTurn]
  rw [if_pos (by simp [namePattern]), if_pos hget, shift_append (by simp at hlen ⊢; omega),
    if_pos (by simp [namePattern]),
    if_neg (by simp [namePattern])]

/-- Of an incomplete pattern, the first loop keeps what there is. -/
theorem resyncTurn_few (hlen : (x ++ q).length < 2 ^ 32) (hq : q.head? = some quote) (hshort : q.length < 3) :
    Ends resyncTurn (x ++ q, x.length) (q, true, false) := by
  obtain ⟨q', rfl⟩ := List.head?_eq_some_iff.mp hq
  refine .leave ?_
  simp only [resyncTurn]
  rw [if_pos (by simp), if_pos (getD_append_length x q' quote), shift_append (by simp at hlen ⊢; omega),
    if_neg (by omega)]

/-! ### The function -/

theorem readVarNameAndIndex_nil : ReadVarNameAndIndex r env [] ([], none) :=
  ⟨[], false, by simp [Resynced], rfl⟩

theorem head_ne_quote (ha : quote ∉ a) (hne : a ≠ []) (c : List UInt8) : (a ++ c).head? ≠ some quote := by
  cases a with
  | nil => exact absurd rfl hne
  | cons b a => exact fun h => ha (by rw [Option.some.inj h]; simp)

theorem resynced_of_ends {ok found : Bool} (hne : p ≠ []) (hhead : p.head? ≠ some quote)
    (he : Ends resyncTurn (p, 0) (q, found, ok)) :
    Resynced p (if ok && !found then [] else q, ok && found) := by
  rw [Resynced, if_neg hne, if_neg hhead]
  exact ⟨q, found, ok, he, rfl⟩

/-- Without a place to start at, the payload is dropped. -/
theorem readVarNameAndIndex_drop (hne : p ≠ []) (hhead : p.head? ≠ some quote)
    (he : Ends resyncTurn (p, 0) (q, false, true)) : ReadVarNameAndIndex r env p ([], none) :=
  ⟨[], false, resynced_of_ends hne hhead he, rfl⟩

theorem readVarNameAndIndex_keep (hne : p ≠ []) (hhead : p.head? ≠ some quote)
    (he : Ends resyncTurn (p, 0) (q, true, false)) : ReadVarNameAndIndex r env p (q, none) :=
  ⟨q, false, resynced_of_ends hne hhead he, rfl⟩

/-- From a quote on, what the pattern loop finds. -/
theorem readVarNameAndIndex_none (hhead : p.head? = some quote) (he : Ends patternTurn (p, 1) (q, none)) :
    ReadVarNameAndIndex r env p (q, none) := by
  have hne : p ≠ [] := by
    rintro rfl
    cases hhead
  exact ⟨p, true, by rw [Resynced, if_neg hne, if_pos hhead], q, none, he, rfl⟩

/-- A quote with at most one byte behind it is kept. -/
theorem readVarNameAndIndex_few (hhead : q.head? = some quote) (hshort : q.length < 3) :
    ReadVarNameAndIndex r env q (q, none) := by
  apply readVarNameAndIndex_none hhead
  obtain ⟨q', rfl⟩ := List.head?_eq_some_iff.mp hhead
  match q' with
  | [] => exact patternTurn_end (x := [quote]) (a := []) (by simp) (by simp)
  | [b] =>
    by_cases hb : b = quote
    · subst hb
      exact patternTurn_few (x := [quote]) (q := [quote]) (by simp) rfl (by simp)
    · exact patternTurn_end (x := [quote]) (a := [b]) (by simp) (by simpa using Ne.symm hb)
  | _ :: _ :: _ =>
    simp only [List.length_cons] at hshort
    omega

/-- The first loop leads to what is read from the quote on. -/
theorem readVarNameAndIndex_resync (hne : p ≠ []) (hhead : p.head? ≠ some quote) (hq : Opens q)
    (he : Ends resyncTurn (p, 0) (q, true, decide (3 ≤ q.length))) (h : ReadVarNameAndIndex r env q res) :
    ReadVarNameAndIndex r env p res := by
  by_cases hlong : 3 ≤ q.length
  · have hres : Resynced q (q, true) := by
      have hq0 : q ≠ [] := List.ne_nil_of_length_pos (by omega)
      rw [Resynced, if_neg hq0, if_pos hq.head]
    obtain ⟨q', ok, hq', h⟩ := h
    cases hq'.unique hres
    rw [decide_eq_true hlong] at he
    exact ⟨q, true, resynced_of_ends hne hhead he, h⟩
  · rw [decide_eq_false hlong] at he
    rw [h.unique (readVarNameAndIndex_few hq.head (by omega))]
    exact readVarNameAndIndex_keep hne hhead he

/-- So does the second. -/
theorem readVarNameAndIndex_pattern (hhead : p.head? = some quote) (hq : Opens q)
    (he : ∀ e, Ends patternTurn (q, 1) e → Ends patternTurn (p, 1) e) (h : ReadVarNameAndIndex r env q res) :
    ReadVarNameAndIndex r env p res := by
  have hres : ∀ {w : List UInt8}, w.head? = some quote → Resynced w (w, true) := fun {w} hw => by
    rw [Resynced, if_neg (by rintro rfl; cases hw), if_pos hw]
  obtain ⟨q', ok, hq', h⟩ := h
  cases hq'.unique (hres hq.head)
  obtain ⟨q'', found, he', h⟩ := h
  exact ⟨p, true, hres hhead, q'', found, he _ he', h⟩

/-! ### The end of a frame -/

/-- The end of a frame: its data, or a part of its name with the pattern and the data. -/
inductive Cut : List UInt8 → Prop where
  | data {a : List UInt8} : quote ∉ a → Cut a
  | name {a b : List UInt8} : quote ∉ a → quote ∉ b → Cut (a ++ (namePattern ++ b))

theorem notMem_pattern_tail (hb : quote ∉ b) : quote ∉ [58, 32] ++ b := by
  simpa [quote] using hb

/-- An end of such an end. -/
theorem Cut.drop (h : Cut g) (k : ℕ) : Cut (g.drop k) := by
  cases h with
  | data ha => exact .data fun h => ha (List.mem_of_mem_drop h)
  | @name a b ha hb =>
    rcases Nat.lt_or_ge a.length k with hlt | hge
    · obtain ⟨j, rfl⟩ : ∃ j, k = a.length + (1 + j) := ⟨k - a.length - 1, by omega⟩
      rw [List.drop_append, Nat.add_sub_cancel_left, List.drop_of_length_le (by omega), List.nil_append,
        ← List.drop_drop]
      exact .data fun h => notMem_pattern_tail hb (List.mem_of_mem_drop h)
    · rw [List.drop_append_of_le_length hge]
      exact .name (fun h => ha (List.mem_of_mem_drop h)) hb

/-- The whole payload is data or a part of a name. -/
theorem readVarNameAndIndex_data (hlen : a.length < 2 ^ 32) (ha : quote ∉ a) :
    ReadVarNameAndIndex r env a ([], none) := by
  by_cases hne : a = []
  · rw [hne]
    exact readVarNameAndIndex_nil
  · have hhead : a.head? ≠ some quote := by simpa using head_ne_quote ha hne []
    exact readVarNameAndIndex_drop hne hhead (resyncTurn_end (x := []) hlen ha)

/-- A payload within the end of a frame: of it a part is kept. -/
theorem Cut.keeps (h : Cut g) (hp : p <+: g) (hlen : p.length < 2 ^ 32) :
    ∃ k ≤ p.length, ReadVarNameAndIndex r env p (p.drop k, none) := by
  have hdrop : ReadVarNameAndIndex r env p ([], none) → ∃ k ≤ p.length,
      ReadVarNameAndIndex r env p (p.drop k, none) :=
    fun h => ⟨p.length, le_rfl, by rwa [List.drop_length]⟩
  cases h with
  | data ha => exact hdrop (readVarNameAndIndex_data hlen fun h => ha (hp.subset h))
  | @name a b ha hb =>
    rcases Nat.lt_or_ge a.length p.length with hlt | hge
    · obtain ⟨q, rfl⟩ := List.prefix_of_prefix_length_le (List.prefix_append a _) hp (by omega)
      have hq : q <+: namePattern ++ b := (List.prefix_append_right_inj a).mp hp
      have hhead : q.head? = some quote := by
        obtain ⟨s, hs⟩ := hq
        cases q with
        | nil => simp at hlt
        | cons c q => rw [(List.cons.inj hs).1]; rfl
      obtain ⟨q', rfl⟩ := List.head?_eq_some_iff.mp hhead
      have hq' : quote ∉ q' := by
        have hsub : q' <+: [58, 32] ++ b := (List.cons_prefix_cons.mp hq).2
        exact fun h => notMem_pattern_tail hb (hsub.subset h)
      by_cases hne : a = []
      · subst hne
        exact ⟨0, Nat.zero_le _, readVarNameAndIndex_none rfl (patternTurn_end (x := [quote]) hlen hq')⟩
      · have hhead := head_ne_quote ha hne (quote :: q')
        have hp0 : a ++ quote :: q' ≠ [] := by simp
        rcases Nat.lt_or_ge (quote :: q').length 3 with hshort | hlong
        · refine ⟨a.length, by simp, ?_⟩
          rw [List.drop_left]
          exact readVarNameAndIndex_keep hp0 hhead
            (resyncTurn_pass (x := []) hlen ha (resyncTurn_few hlen rfl hshort))
        · obtain ⟨b', hb'⟩ : namePattern <+: quote :: q' :=
            List.prefix_of_prefix_length_le (List.prefix_append _ _) hq hlong
          have hend : Ends resyncTurn (namePattern ++ b', 1) (namePattern ++ b', false, true) :=
            hb' ▸ resyncTurn_end (x := [quote]) (by simp at hlen ⊢; omega) hq'
          refine hdrop (readVarNameAndIndex_drop (q := namePattern ++ b') hp0 hhead ?_)
          rw [← hb'] at hlen ⊢
          exact resyncTurn_pass (x := []) hlen ha (resyncTurn_pattern hlen hend)
    · have hpa : p <+: a := List.prefix_of_prefix_length_le hp (List.prefix_append _ _) hge
      exact hdrop (readVarNameAndIndex_data hlen fun h => ha (hpa.subset h))

/-- A payload that goes on behind the end of a frame: it is read from there on, or kept until there
is more. -/
theorem Cut.reads (h : Cut g) (hq : Opens q) (hlen : (g ++ q).length < 2 ^ 32) :
    (q.length < 3 ∧ ReadVarNameAndIndex r env (g ++ q) (g ++ q, none)) ∨
      ∀ res, ReadVarNameAndIndex r env q res → ReadVarNameAndIndex r env (g ++ q) res := by
  cases h with
  | data ha =>
    right
    intro res h
    by_cases hne : g = []
    · rwa [hne]
    · have hhead := head_ne_quote ha hne q
      exact readVarNameAndIndex_resync (by simp [hne]) hhead hq
        (resyncTurn_pass (x := []) hlen ha (resyncTurn_opens hlen hq)) h
  | @name a b ha hb =>
    have hb' := notMem_pattern_tail hb
    by_cases hne : a = []
    · subst hne
      have hsplit : [] ++ (namePattern ++ b) ++ q = [quote] ++ ([58, 32] ++ b) ++ q := rfl
      rw [hsplit] at hlen ⊢
      have hpass := fun e => patternTurn_pass (e := e) (x := [quote]) hlen hb'
      rcases Nat.lt_or_ge q.length 3 with hshort | hlong
      · refine Or.inl ⟨hshort, readVarNameAndIndex_none rfl (hpass _ ?_)⟩
        exact patternTurn_few (x := [quote] ++ ([58, 32] ++ b)) hlen hq.head hshort
      · refine Or.inr fun res h => readVarNameAndIndex_pattern rfl hq (fun e he => hpass e ?_) h
        exact patternTurn_opens (x := [quote] ++ ([58, 32] ++ b)) hlen hq hlong he
    · right
      intro res h
      have hhead := head_ne_quote ha hne ((namePattern ++ b) ++ q)
      have hlen' : ([quote] ++ ([58, 32] ++ b) ++ q).length < 2 ^ 32 := by simp [namePattern] at hlen ⊢; omega
      have hrest : Ends resyncTurn (namePattern ++ (b ++ q), 1) (q, true, decide (3 ≤ q.length)) :=
        resyncTurn_pass (x := [quote]) (a := [58, 32] ++ b) hlen' hb' (resyncTurn_opens hlen' hq)
      rw [List.append_assoc, List.append_assoc] at hlen ⊢
      rw [List.append_assoc] at hhead
      exact readVarNameAndIndex_resync (by simp [hne]) hhead hq
        (resyncTurn_pass (x := []) hlen ha (resyncTurn_pattern hlen hrest)) h

/-- **One call** on a payload that begins with the end of a frame. -/
theorem Cut.turn (r : DiodeReceiver) (env : Env) {w : List UInt8} (h : Cut g)
    (hbytes : p ++ rest = g ++ w) (hw : w ≠ [] → Opens w) (hlen : p.length < 2 ^ 32) :
    (p.length < g.length + 3 ∧ ∃ k ≤ p.length, k ≤ g.length ∧ ReadVarNameAndIndex r env p (p.drop k, none)) ∨
      ∃ q, p = g ++ q ∧ q ++ rest = w ∧ ∀ res, ReadVarNameAndIndex r env q res →
        ReadVarNameAndIndex r env p res := by
  rcases Nat.lt_or_ge g.length p.length with hlt | hge
  · obtain ⟨q, rfl⟩ : g <+: p :=
      List.prefix_of_prefix_length_le (List.prefix_append g w) (hbytes ▸ List.prefix_append p rest) (by omega)
    have hq : q ++ rest = w := by simpa using hbytes
    have hopens : Opens q := by
      have hne : q ≠ [] := List.ne_nil_of_length_pos (by simp at hlt; omega)
      exact (hw (by rw [← hq]; simp [hne])).of_part ⟨rest, hq⟩ hne
    rcases h.reads hopens hlen with ⟨hshort, hkeep⟩ | hreads
    · exact Or.inl ⟨by simp; omega, 0, Nat.zero_le _, Nat.zero_le _, hkeep⟩
    · exact Or.inr ⟨q, rfl, hq, hreads⟩
  · have hp : p <+: g :=
      List.prefix_of_prefix_length_le (hbytes ▸ List.prefix_append p rest) (List.prefix_append g w) hge
    obtain ⟨k, hk, hkeep⟩ : ∃ k ≤ p.length, ReadVarNameAndIndex r env p (p.drop k, none) := h.keeps hp hlen
    exact Or.inl ⟨by omega, k, hk, by omega, hkeep⟩

/-! ### Up to the next frame -/

/-- The loop depends on the payload by what is read from it. -/
theorem Service.Consumes.of_reads {st' : Service}
    (hreads : ∀ res, ReadVarNameAndIndex r env q res → ReadVarNameAndIndex r env p res)
    (h : Service.Consumes r env threadId { st with payload := q } st') :
    Service.Consumes r env threadId { st with payload := p } st' := by
  have hleave : ∀ {t : Service}, Service.Leaves r env { st with payload := q } t →
      Service.Leaves r env { st with payload := p } t := fun hl => by
    cases hl with
    | noHeader h => exact .noHeader (hreads _ h)
    | incomplete h hlt => exact .incomplete (hreads _ h) hlt
  obtain ⟨t, ht, hl⟩ := h
  cases Relation.ReflTransGen.cases_head ht with
  | inl heq => exact ⟨_, .refl, hleave (heq ▸ hl)⟩
  | inr hstep =>
    obtain ⟨t', ⟨p', h, hrv, hle, rfl⟩, ht'⟩ := hstep
    exact ⟨t, .head ⟨p', h, hreads _ hrv, hle, rfl⟩ ht', hl⟩

/-- A frame whose name does not look like the pattern behind a name. -/
theorem opens_wire (hname : ∀ f, fs.head? = some f → ¬ [58, 32] <+: f.name) (hne : wire fs ≠ []) :
    Opens (wire fs) := by
  cases fs with
  | nil => exact absurd rfl hne
  | cons f fs =>
    refine ⟨rfl, fun h => hname f rfl ?_⟩
    have hpre : [58, 32] <+: f.name ++
        (namePattern ++ (header f ++ (f.value ++ (f.timeStamp ++ (terminator ++ wire fs))))) := by
      rw [wire_cons, encode_header] at h
      simpa [opening, namePattern, quote] using (List.cons_prefix_cons.mp h).2
    rcases hn : f.name with _ | ⟨a, _ | ⟨b, name⟩⟩
    · rw [hn] at hpre
      simp [namePattern] at hpre
    · rw [hn] at hpre
      simp [namePattern] at hpre
    · rw [hn] at hpre
      simpa using hpre

/-- The end of a frame is still in the way: nothing has been handed over. -/
def Missed (n : ℕ) (frames : List Frame) (st : Service) (rest : List UInt8) : Prop :=
  st.calls = [] ∧ ∃ g, Cut g ∧ g.length ≤ n ∧ st.payload.length < g.length + 3 ∧
    st.payload ++ rest = g ++ wire frames

/-- A frame without quotes in its name and its data. -/
structure Unquoted (f : Frame) : Prop where
  name : quote ∉ f.name
  header : quote ∉ header f
  value : quote ∉ f.value
  timeStamp : quote ∉ f.timeStamp

/-- A proper end of the frame. -/
theorem Unquoted.cut (h : Unquoted f) (hg : g <:+ f.encode) (hne : g ≠ f.encode) : Cut g := by
  have hdata : quote ∉ Receiver.header f ++ (f.value ++ (f.timeStamp ++ terminator)) := by
    simpa [h.header, h.value, h.timeStamp] using by decide
  have hw : f.encode = quote :: (f.name ++ (namePattern ++
      (Receiver.header f ++ (f.value ++ (f.timeStamp ++ terminator))))) := by
    simpa [opening] using encode_header f []
  rw [hw] at hg hne
  rw [List.suffix_iff_eq_drop.mp ((List.suffix_cons_iff.mp hg).resolve_left hne)]
  exact (Cut.name h.name hdata).drop _

/-- A piece of the body while the end of a frame is still in the way. -/
theorem Missed.deliver (env : Env) (threadId : ℕ) {n : ℕ} (hM : 8 * r.maxArraySize < 2 ^ 32)
    (hgood : ∀ f ∈ frames, Accepts r f ∧ f.encode.length < 2 ^ 32) (hname : ∀ f ∈ frames, 32 ∉ f.name)
    {data : List UInt8} (h : Missed n frames st (data ++ rest))
    (hlen : st.payload.length + data.length < 2 ^ 32) :
    ∃ st', Service.Consumes r env threadId { st with payload := st.payload ++ data } st' ∧
      (Missed n frames st' rest ∨ Delivered frames st' rest) := by
  obtain ⟨hcalls, g, hcut, hle, hshort, hbytes⟩ := h
  have hopens : wire frames ≠ [] → Opens (wire frames) := opens_wire fun f hf hpre =>
    hname f (List.mem_of_mem_head? hf) (hpre.subset (by simp))
  have hbytes' : (st.payload ++ data) ++ rest = g ++ wire frames := by rw [List.append_assoc, hbytes]
  rcases hcut.turn r env hbytes' hopens (by simpa using hlen) with ⟨hfew, k, hk, hkg, hkeep⟩ | ⟨q, hq,
    hqw, hreads⟩
  · refine ⟨_, ⟨_, .refl, .noHeader hkeep⟩, Or.inl ⟨hcalls, g.drop k, hcut.drop k, ?_, ?_, ?_⟩⟩
    · rw [List.length_drop]
      omega
    · simp only [List.length_drop]
      omega
    · dsimp only
      rw [← List.drop_append_of_le_length hk, hbytes', List.drop_append_of_le_length hkg]
  · have hqlen : q.length < 2 ^ 32 := by
      have := congrArg List.length hq
      simp only [List.length_append] at this
      omega
    obtain ⟨fs₁, fs₂, st', hsplit, hcons, hcalls', hpend⟩ :=
      @consumes_complete r env threadId hM frames hgood { st with payload := q } rest hqw hqlen
    refine ⟨st', Service.Consumes.of_reads hreads hcons, Or.inr ⟨fs₁, fs₂, hsplit, ?_, hpend⟩⟩
    rw [hcalls', hcalls, List.nil_append]

theorem Missed.length_le {n : ℕ} (h : Missed n frames st rest) :
    st.payload.length < n + 3 ∧ st.payload.length + rest.length ≤ n + (wire frames).length := by
  obtain ⟨-, g, -, hle, hshort, hbytes⟩ := h
  have := congrArg List.length hbytes
  simp only [List.length_append] at this
  omega

/-- At the end of the body no frame is missing. -/
theorem Missed.finished {n : ℕ} (hacc : ∀ f ∈ frames, Shaped f) (h : Missed n frames st []) :
    st.calls = frames.map callOf := by
  obtain ⟨hcalls, g, -, -, hshort, hbytes⟩ := h
  have hlen := congrArg List.length hbytes
  simp only [List.length_append, List.length_nil] at hlen
  cases frames with
  | nil => exact hcalls
  | cons f fs =>
    have hf := length_encode (hacc f (by simp))
    rw [wire_cons, List.length_append] at hlen
    omega

/-- The request `socket` is answered after exactly the calls for `frames`, in order. -/
def Calls (r : DiodeReceiver) (env : Env) (threadId : ℕ) (toSize : List UInt8 → ℕ) (isChunked : Bool)
    (contentLength : ℕ) (socket : List UInt8) (s : Store) (frames : List Frame) : Prop :=
  ∃ st : Service, (∀ res, ClientService r env threadId toSize isChunked contentLength socket s res ↔
    res = some st) ∧ st.calls = frames.map callOf

theorem calls_of_readsBody {toSize : List UInt8 → ℕ} {isChunked : Bool} {contentLength : ℕ}
    {socket : List UInt8}
    {s : Store} (h : ∃ st, ClientService r env threadId toSize isChunked contentLength socket s (some st) ∧
      st.calls = frames.map callOf) :
        Calls r env threadId toSize isChunked contentLength socket s frames := by
  obtain ⟨st, hst, hcalls⟩ := h
  refine ⟨st, fun res => ⟨fun hres => hres.unique hst, ?_⟩, hcalls⟩
  rintro rfl
  exact hst

/-- **The parser finds the next frame again**: behind any proper end `g` of a frame without quotes in its
name and data, exactly the frames that follow are handed over, from any partition into non-empty
chunks in which a frame and a chunk, and `g` with two more bytes and a chunk, fit in 32 bits, and from a
body with a content length. -/
theorem resync (r : DiodeReceiver) (env : Env) (threadId : ℕ) (toSize : List UInt8 → ℕ) (s : Store)
    (f : Frame)
    (g : List UInt8) (frames : List Frame) (tail : List UInt8) (hM : 8 * r.maxArraySize < 2 ^ 32)
    (hf : Unquoted f) (hg : g <:+ f.encode) (hne : g ≠ f.encode) (hacc : ∀ f ∈ frames, Accepts r f)
    (hname : ∀ f ∈ frames, 32 ∉ f.name) :
    (∀ (chunks : List Chunk) (lastLine : List UInt8), chunks.flatMap Chunk.data = g ++ wire frames →
        (∀ ch ∈ chunks, ch.data ≠ [] ∧ SizeLine toSize ch.line ch.data.length) → SizeLine toSize lastLine 0 →
        (∀ f ∈ frames, ∀ ch ∈ chunks, f.encode.length + ch.data.length ≤ 2 ^ 32) →
        (∀ ch ∈ chunks, g.length + 2 + ch.data.length < 2 ^ 32) →
        Calls r env threadId toSize true 0 (chunked chunks lastLine ++ tail) s frames) ∧
      ((g ++ wire frames).length < 2 ^ 32 →
        Calls r env threadId toSize false (g ++ wire frames).length (g ++ wire frames ++ tail) s frames) := by
  have hcut := hf.cut hg hne
  have hinit : Missed g.length frames ⟨[], s, []⟩ (g ++ wire frames) :=
    ⟨rfl, g, hcut, le_rfl, by simp, rfl⟩
  have hend : ∀ {st : Service}, Missed g.length frames st [] ∨ Delivered frames st [] →
      st.calls = frames.map callOf := by
    rintro st (h | h)
    · exact h.finished fun f hf => (hacc f hf).shaped
    · exact h.finished.2
  refine ⟨fun chunks lastLine hdata hch hlast hfit hroom => ?_, fun hlen => ?_⟩
  · obtain ⟨st, hread, hI, -⟩ := readsBody_of_chunks r env threadId
      (I := fun st chs => (Missed g.length frames st (chs.flatMap Chunk.data) ∨
        Delivered frames st (chs.flatMap Chunk.data)) ∧ ∀ ch ∈ chs, ch ∈ chunks) tail hlast
      (fun ch chs st hne ⟨hI, hsub⟩ => by
        rw [List.flatMap_cons] at hI
        have hmem := hsub ch (by simp)
        have hpos := List.length_pos_of_ne_nil hne
        have hroom := hroom ch hmem
        have hgood : ∀ f ∈ frames, Accepts r f ∧ f.encode.length < 2 ^ 32 := fun f hf =>
          ⟨hacc f hf, by have := hfit f hf ch hmem; omega⟩
        refine ⟨by omega, ?_⟩
        rcases hI with hmiss | hdel
        · have hle := hmiss.length_le.1
          obtain ⟨st', hcons, hI'⟩ := hmiss.deliver env threadId hM hgood hname (by omega)
          exact ⟨st', hcons, hI', fun c hc => hsub c (by simp [hc])⟩
        · obtain ⟨f, hf, hlt⟩ := hdel.length_lt (by simp [hne])
          have hfit := hfit f hf ch hmem
          obtain ⟨st', hcons, hdel'⟩ := hdel.deliver env threadId hM hgood (by omega)
          exact ⟨st', hcons, Or.inr hdel', fun c hc => hsub c (by simp [hc])⟩)
      chunks ⟨[], s, []⟩ 0 ⟨Or.inl (hdata ▸ hinit), fun _ h => h⟩ hch
    refine calls_of_readsBody ⟨st, ?_, hend hI⟩
    simpa [ClientService, chunked] using hread
  · rw [List.length_append] at hlen
    obtain ⟨st, hread, hI⟩ := readsBody_of_pieces r env threadId toSize tail
      (I := fun st rest => Missed g.length frames st rest ∨ Delivered frames st rest)
      (fun data rest st hne hI => by
        have hgood : ∀ f ∈ frames, Accepts r f ∧ f.encode.length < 2 ^ 32 := fun f hf =>
          ⟨hacc f hf, by have := length_encode_le hf; omega⟩
        rcases hI with hmiss | hdel
        · have hle := hmiss.length_le.2
          rw [List.length_append] at hle
          exact hmiss.deliver env threadId hM hgood hname (by omega)
        · have hle := hdel.length_le
          rw [List.length_append] at hle
          obtain ⟨st', hcons, hdel'⟩ := hdel.deliver env threadId hM hgood (by omega)
          exact ⟨st', hcons, Or.inr hdel'⟩)
      _ (g ++ wire frames) rfl ⟨[], s, []⟩ 32 (Or.inl rfl) (Or.inl hinit)
    exact calls_of_readsBody ⟨st, hread, hend hI⟩

/-- The end of a frame from the quote behind its name on, and a whole frame, in chunks of 1, 28 and 29. -/
theorem resync_small : Calls (onePv 4) plainEnv 0 hexSize true 0
    (chunked [⟨[49], [34]⟩,
      ⟨[49, 99], ((smallFrame.encode.drop 2 ++ smallFrame.encode).drop 1).take 28⟩,
      ⟨[49, 100], (smallFrame.encode.drop 2 ++ smallFrame.encode).drop 29⟩] [48] ++ [])
    Store.start [smallFrame] := by
  refine (resync (onePv 4) plainEnv 0 hexSize Store.start smallFrame (smallFrame.encode.drop 2)
    [smallFrame] [] (by decide)
    ⟨by decide, by decide, by decide, by decide⟩ (List.drop_suffix _ _) (by decide)
      (by simpa using smallFrame_accepts)
    (by decide)).1 _ _ (by decide) ?_ ⟨by decide, by decide, by decide, by decide⟩ (by decide) (by decide)
  rintro ch hch
  simp only [List.mem_cons, List.not_mem_nil, or_false] at hch
  rcases hch with rfl | rfl | rfl
  · exact ⟨by decide, ⟨by decide, by decide, by decide, by decide⟩⟩
  · exact ⟨by decide, ⟨by decide, by decide, by decide, by decide⟩⟩
  · exact ⟨by decide, ⟨by decide, by decide, by decide, by decide⟩⟩

theorem Calls.unique {toSize : List UInt8 → ℕ} {isChunked : Bool} {contentLength : ℕ}
    {socket : List UInt8} {s : Store}
    {frames' : List Frame} (h : Calls r env threadId toSize isChunked contentLength socket s frames)
    (h' : Calls r env threadId toSize isChunked contentLength socket s frames') :
    frames.map callOf = frames'.map callOf := by
  obtain ⟨st, hst, hcalls⟩ := h
  obtain ⟨st', hst', hcalls'⟩ := h'
  cases (hst' _).mp ((hst _).mpr rfl)
  rw [← hcalls, hcalls']

/-- The PV `"A`: behind its first quote, its frame is one of `A`. -/
def quotedFrame : Frame := { smallFrame with name := [34, 65] }

/-- Neither a quote in the cut name is harmless, nor do the 32 bit counters reach for every partition. -/
theorem resync_limits :
    (¬ ∀ (r : DiodeReceiver) (env : Env) (threadId : ℕ) (toSize : List UInt8 → ℕ) (s : Store) (f : Frame)
        (g : List UInt8) (frames : List Frame) (tail : List UInt8), 8 * r.maxArraySize < 2 ^ 32 →
        quote ∉ header f ++ f.value ++ f.timeStamp → g <:+ f.encode → g ≠ f.encode →
        (∀ f ∈ frames, Accepts r f) → (∀ f ∈ frames, f.name ≠ [] ∧ 32 ∉ f.name) →
        ∀ (chunks : List Chunk) (lastLine : List UInt8), chunks.flatMap Chunk.data = g ++ wire frames →
          (∀ ch ∈ chunks, ch.data ≠ [] ∧ SizeLine toSize ch.line ch.data.length) →
            SizeLine toSize lastLine 0 →
          (∀ f ∈ frames, ∀ ch ∈ chunks, f.encode.length + ch.data.length ≤ 2 ^ 32) →
          (∀ ch ∈ chunks, g.length + 2 + ch.data.length < 2 ^ 32) →
          Calls r env threadId toSize true 0 (chunked chunks lastLine ++ tail) s frames) ∧
      ¬ ∀ (r : DiodeReceiver) (env : Env) (threadId : ℕ) (toSize : List UInt8 → ℕ) (s : Store) (f : Frame)
        (g : List UInt8) (frames : List Frame) (tail : List UInt8), 8 * r.maxArraySize < 2 ^ 32 →
        Unquoted f → g <:+ f.encode → g ≠ f.encode → (∀ f ∈ frames, Accepts r f) →
        (∀ f ∈ frames, f.name ≠ [] ∧ 32 ∉ f.name) →
        ∀ (chunks : List Chunk) (lastLine : List UInt8), chunks.flatMap Chunk.data = g ++ wire frames →
          (∀ ch ∈ chunks, ch.data ≠ [] ∧ SizeLine toSize ch.line ch.data.length) →
            SizeLine toSize lastLine 0 →
          Calls r env threadId toSize true 0 (chunked chunks lastLine ++ tail) s frames := by
  constructor
  · intro hall
    have hdata : [Chunk.mk [49, 101] smallFrame.encode].flatMap Chunk.data = wire [smallFrame] := by decide
    have hsizes : ∀ ch ∈ [Chunk.mk [49, 101] smallFrame.encode],
        ch.data ≠ [] ∧ SizeLine hexSize ch.line ch.data.length := by
      rintro ch hch
      simp only [List.mem_cons, List.not_mem_nil, or_false] at hch
      subst hch
      exact ⟨by decide, ⟨by decide, by decide, by decide, by decide⟩⟩
    have hlast : SizeLine hexSize [48] 0 := ⟨by decide, by decide, by decide, by decide⟩
    have hnone :=
      hall (onePv 4) plainEnv 0 hexSize Store.start quotedFrame smallFrame.encode [] [] (by decide)
      (by decide) ⟨[quote], rfl⟩ (by decide) (by simp) (by simp) _ _ hdata hsizes hlast (by simp) (by decide)
    obtain ⟨st, hst, -, hcalls⟩ := decodes_chunks (r := onePv 4) plainEnv 0 Store.start [] (by decide)
      (by simpa using smallFrame_accepts) hdata hsizes hlast (by decide)
    cases hnone.unique ⟨st, hst, hcalls⟩
  · intro hall
    obtain ⟨n, hn⟩ := exists_wide
    obtain ⟨st, hst, hcalls⟩ :=
      hall (onePv (2 ^ 29 - 1)) plainEnv 0 hexSize Store.start smallFrame [] [wideFrame n] []
      (by simp [onePv]) ⟨by decide, by decide, by decide, by decide⟩ (List.nil_suffix) (by decide)
      (by simpa using wideFrame_accepted hn) (by simp [wideFrame]) (wideChunks n) [48] (wideChunks_data n)
      (wideChunks_sizes hn) ⟨by decide, by decide, by decide, by decide⟩
    exact wideChunks_calls hn ((hst _).mpr rfl) hcalls

end Hieratika.Receiver
