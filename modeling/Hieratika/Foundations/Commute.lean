import Hieratika.Foundations.Merge
import Mathlib.Data.List.Basic

/-!
# Actions that commute

Items of several sources act on one state. When the actions of different sources commute, only the
order of the items of each source matters: two logs that have of each source the same items in the
same order act alike (`foldr_eq_of_filter`). The first item of one log can be brought to the front
of the other one, past items of other sources only.

In a log, as in `Merge`, the last item stands first, so its actions are a `foldr`.
-/

namespace Hieratika.Foundations

variable {ι α σ : Type*} {key : α → ι} {act : α → σ → σ} {P : α → Prop} {x : α} {s : σ}

/-- Actions of different sources commute, for the items that satisfy `P`. -/
def Apart (key : α → ι) (act : α → σ → σ) (P : α → Prop) : Prop :=
  ∀ x y, P x → P y → key x ≠ key y → ∀ s, act x (act y s) = act y (act x s)

/-- An item goes past items that it commutes with. -/
theorem foldr_front : ∀ (before after : List α), (∀ y ∈ before, ∀ s, act x (act y s) = act y (act x s)) →
    (before ++ x :: after).foldr act s = act x ((before ++ after).foldr act s)
  | [], _, _ => rfl
  | y :: before, after, h => by
    rw [List.cons_append, List.foldr_cons, foldr_front before after fun z hz =>
      h z (List.mem_cons_of_mem y hz),
      ← h y List.mem_cons_self]
    rfl

variable [DecidableEq ι]

/-- The items of a source. -/
def ofSource (key : α → ι) (k : ι) (log : List α) : List α := log.filter fun x => key x = k

theorem mem_of_ofSource_eq {l l' : List α} (h : ∀ k, ofSource key k l = ofSource key k l')
    (hx : x ∈ l') : x ∈ l := by
  have hmem : x ∈ ofSource key (key x) l' := List.mem_filter.mpr ⟨hx, decide_eq_true rfl⟩
  rw [← h] at hmem
  exact List.mem_of_mem_filter hmem

/-- **The order between the sources does not matter.** -/
theorem foldr_eq_of_filter (hact : Apart key act P) : ∀ {l l' : List α}, (∀ x ∈ l, P x) →
    (∀ k, ofSource key k l = ofSource key k l') → l.foldr act s = l'.foldr act s
  | [], l', _, h => by
    have hnil : l' = [] :=
      List.eq_nil_iff_forall_not_mem.mpr fun x hx => List.not_mem_nil (mem_of_ofSource_eq h hx)
    rw [hnil]
  | x :: l, l', hP, h => by
    have hhead : ofSource key (key x) l' = x :: ofSource key (key x) l := by
      rw [← h]
      exact List.filter_cons_of_pos (decide_eq_true rfl)
    obtain ⟨before, after, rfl, hbefore, -, hafter⟩ := List.filter_eq_cons_iff.mp hhead
    have hother : ∀ y ∈ before, key y ≠ key x := fun y hy heq => hbefore y hy (decide_eq_true heq)
    have hall : ∀ y ∈ before ++ x :: after, P y := fun y hy => hP y (mem_of_ofSource_eq h hy)
    have hmove : ∀ y ∈ before, ∀ s, act x (act y s) = act y (act x s) := fun y hy =>
      hact x y (hP x List.mem_cons_self) (hall y (List.mem_append_left _ hy)) (hother y hy).symm
    have hrest : ∀ k, ofSource key k l = ofSource key k (before ++ after) := fun k => by
      by_cases hk : key x = k
      · subst hk
        have hnone : before.filter (fun y => decide (key y = key x)) = [] :=
          List.filter_eq_nil_iff.mpr fun y hy heq => hother y hy (of_decide_eq_true heq)
        rw [ofSource, ofSource, List.filter_append, hnone, hafter]
        rfl
      · have hk' := h k
        simpa [ofSource, List.filter_append, List.filter_cons, hk] using hk'
    rw [foldr_front before after hmove, List.foldr_cons,
      foldr_eq_of_filter hact (fun y hy => hP y (List.mem_cons_of_mem x hy)) hrest]

/-! ### Merged streams -/

/-- What was taken from a source, with its source. -/
theorem ofSource_log (m : Merge ι α) (k : ι) :
    ofSource Prod.fst k m.log = ((m.taken k).map (Prod.mk k)).reverse := by
  rw [Merge.taken, List.map_reverse, List.reverse_reverse, List.map_map, ofSource]
  refine (List.map_id _).symm.trans (List.map_congr_left fun x hx => ?_)
  have hk : x.1 = k := of_decide_eq_true (List.mem_filter.mp hx).2
  exact Prod.ext hk rfl

/-- **Merging the same streams** in another order acts alike. -/
theorem Merge.foldr_log_eq {act : ι × α → σ → σ} {P : ι × α → Prop} (hact : Apart Prod.fst act P)
    {m m' : Merge ι α}
    (hP : ∀ x ∈ m.log, P x) (h : ∀ k, m.taken k = m'.taken k) : m.log.foldr act s = m'.log.foldr act s :=
  foldr_eq_of_filter hact hP fun k => by rw [ofSource_log, ofSource_log, h k]

end Hieratika.Foundations
