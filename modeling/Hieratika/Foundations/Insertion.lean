import Hieratika.Foundations.Ring
import Mathlib.Data.List.Perm.Basic
import Mathlib.Data.List.Range
import Mathlib.Order.Basic

/-!
# Insertion by exchanges

A program that sorts a table in place exchanges its newest entry with the one before it, as long as
a test says so (`sink`). Seen as a list, the entry is put in at the place where the exchanges stop
(`entries_sink`), so the program is a sequence of insertions at places that its tests choose
(`inserted`), whatever the tests look at.

The result is in order exactly when every entry is put in where it belongs among the earlier ones:
behind those that are smaller and before those that are larger (`pairwise_inserted_iff`).
-/

namespace Hieratika.Foundations

variable {α β : Type*}

/-! ### Putting in an entry -/

/-- `x` put in at place `s`. -/
def insertAt (l : List α) (s : ℕ) (x : α) : List α := l.take s ++ x :: l.drop s

variable {l : List α} {s : ℕ} {x : α}

theorem insertAt_perm : (insertAt l s x).Perm (x :: l) := by
  have h : (l.take s ++ x :: l.drop s).Perm (x :: (l.take s ++ l.drop s)) := List.perm_middle
  rwa [List.take_append_drop] at h

@[simp] theorem length_insertAt : (insertAt l s x).length = l.length + 1 := insertAt_perm.length_eq

theorem insertAt_length : insertAt l l.length x = l ++ [x] := by
  simp [insertAt]

theorem insertAt_append (h : s ≤ l.length) (y : α) : insertAt (l ++ [y]) s x = insertAt l s x ++ [y] := by
  simp [insertAt, List.take_append_of_le_length h, List.drop_append_of_le_length h]

theorem pairwise_insertAt {r : α → α → Prop} : (insertAt l s x).Pairwise r ↔
    l.Pairwise r ∧ (∀ y ∈ l.take s, r y x) ∧ ∀ y ∈ l.drop s, r x y := by
  rw [insertAt, List.pairwise_append, List.pairwise_cons]
  have hsplit : (l.take s ++ l.drop s).Pairwise r ↔ (l.take s).Pairwise r ∧ (l.drop s).Pairwise r ∧
      ∀ a ∈ l.take s, ∀ b ∈ l.drop s, r a b := List.pairwise_append
  rw [List.take_append_drop] at hsplit
  rw [hsplit]
  constructor
  · rintro ⟨htake, ⟨hx, hdrop⟩, hcross⟩
    exact ⟨⟨htake, hdrop, fun a ha b hb => hcross a ha b (List.mem_cons_of_mem _ hb)⟩,
      fun y hy => hcross y hy x List.mem_cons_self, hx⟩
  · rintro ⟨⟨htake, hdrop, hcross⟩, hbefore, hx⟩
    refine ⟨htake, ⟨hx, hdrop⟩, fun a ha b hb => ?_⟩
    rcases List.mem_cons.mp hb with rfl | hb
    · exact hbefore a ha
    · exact hcross a ha b hb

/-! ### The place that belongs to an entry -/

section

variable {κ : Type*} [LinearOrder κ] {key : α → κ}

/-- In an ordered list nothing small stands behind an entry that is not small. -/
theorem countP_cons_eq_zero {a : α} {p : α → Bool} (ha : ∀ y ∈ l, key a ≤ key y)
    (hp : ∀ y, key a ≤ key y → p y = true → p a = true) (hnot : ¬ p a = true) : (a :: l).countP p = 0 := by
  rw [List.countP_eq_zero]
  intro y hy hyx
  rcases List.mem_cons.mp hy with rfl | hy
  · exact hnot hyx
  · exact hnot (hp y (ha y hy) hyx)

theorem take_le_iff : ∀ {l : List α} {s : ℕ}, l.Pairwise (fun a b => key a ≤ key b) → s ≤ l.length →
    ((∀ y ∈ l.take s, key y ≤ key x) ↔ s ≤ l.countP fun y => key y ≤ key x)
  | [], s, _, hs => by
    have hs : s = 0 := Nat.le_zero.mp hs
    simp [hs]
  | _ :: _, 0, _, _ => by simp
  | a :: l, s + 1, hl, hs => by
    obtain ⟨ha, hl⟩ := List.pairwise_cons.mp hl
    have ih := take_le_iff hl (Nat.le_of_succ_le_succ hs)
    by_cases hax : key a ≤ key x
    · simp only [List.take_succ_cons, List.mem_cons, forall_eq_or_imp, hax, true_and, ih, List.countP_cons,
        decide_true, if_true, Nat.add_le_add_iff_right]
    · have hzero : (a :: l).countP (fun y => key y ≤ key x) = 0 := by
        refine countP_cons_eq_zero ha (fun y hay hyx => ?_) fun h => hax (of_decide_eq_true h)
        exact decide_eq_true (hay.trans (of_decide_eq_true hyx))
      rw [hzero]
      constructor
      · intro h
        exact absurd (h a (by simp)) hax
      · intro h
        omega

theorem le_drop_iff : ∀ {l : List α} {s : ℕ}, l.Pairwise (fun a b => key a ≤ key b) →
    ((∀ y ∈ l.drop s, key x ≤ key y) ↔ (l.countP fun y => key y < key x) ≤ s)
  | [], s, _ => by simp
  | a :: l, 0, hl => by
    rw [List.drop_zero, Nat.le_zero, List.countP_eq_zero]
    exact forall₂_congr fun y _ => by simp
  | a :: l, s + 1, hl => by
    obtain ⟨ha, hl⟩ := List.pairwise_cons.mp hl
    have ih := le_drop_iff (s := s) hl
    by_cases hax : key a < key x
    · simp only [List.drop_succ_cons, ih, List.countP_cons, hax, decide_true, if_true,
        Nat.add_le_add_iff_right]
    · have hzero : (a :: l).countP (fun y => key y < key x) = 0 := by
        refine countP_cons_eq_zero ha (fun y hay hyx => ?_) fun h => hax (of_decide_eq_true h)
        exact decide_eq_true (hay.trans_lt (of_decide_eq_true hyx))
      rw [hzero]
      refine ⟨fun _ => Nat.zero_le _, fun _ y hy => ?_⟩
      exact (not_lt.mp hax).trans (ha y (List.mem_of_mem_drop hy))

/-- **An entry put in keeps the order** exactly when its place is behind the smaller ones and before the
larger ones. -/
theorem pairwise_insertAt_iff (hs : s ≤ l.length) : (insertAt l s x).Pairwise (fun a b => key a ≤ key b) ↔
    l.Pairwise (fun a b => key a ≤ key b) ∧
      (l.countP fun y => key y < key x) ≤ s ∧ s ≤ l.countP fun y => key y ≤ key x := by
  rw [pairwise_insertAt]
  refine and_congr_right fun hl => ?_
  rw [take_le_iff hl hs, le_drop_iff hl]
  exact And.comm

/-! ### A sequence of insertions -/

/-- Those of `x 0, x 1, ..` that are kept, each put in at its place when its turn comes. -/
def inserted (keep : ℕ → Bool) (place : ℕ → ℕ) (x : ℕ → α) : ℕ → List α
  | 0 => []
  | k + 1 => if keep k then insertAt (inserted keep place x k) (place k) (x k) else inserted keep place x k

/-- The entries kept before turn `k`. -/
def earlier (keep : ℕ → Bool) (x : ℕ → α) (k : ℕ) : List α := ((List.range k).filter keep).map x

variable {keep : ℕ → Bool} {place : ℕ → ℕ} {y : ℕ → α} {k n : ℕ}

theorem earlier_succ : earlier keep y (k + 1) = earlier keep y k ++ if keep k then [y k] else [] := by
  rw [earlier, List.range_succ, List.filter_append, List.map_append]
  cases hk : keep k <;> simp [earlier, hk]

theorem inserted_perm : ∀ k, (inserted keep place y k).Perm (earlier keep y k)
  | 0 => List.Perm.refl _
  | k + 1 => by
    rw [earlier_succ, inserted]
    split_ifs
    · exact insertAt_perm.trans (((inserted_perm k).cons _).trans (List.perm_append_singleton _ _).symm)
    · rw [List.append_nil]
      exact inserted_perm k

/-- **Insertions in order**: each entry is put in where it belongs among the earlier ones. -/
theorem pairwise_inserted_iff (key : α → κ)
    (hplace : ∀ k < n, keep k = true → place k ≤ (earlier keep y k).length) :
    (inserted keep place y n).Pairwise (fun a b => key a ≤ key b) ↔ ∀ k < n, keep k = true →
      ((earlier keep y k).countP fun z => key z < key (y k)) ≤ place k ∧
        place k ≤ (earlier keep y k).countP fun z => key z ≤ key (y k) := by
  induction n with
  | zero => simp [inserted]
  | succ n ih =>
    have ih := ih fun k hk => hplace k (by omega)
    have hperm : (inserted keep place y n).Perm (earlier keep y n) := inserted_perm n
    rw [inserted, Nat.forall_lt_succ_right, ← ih]
    split_ifs with hn
    · rw [pairwise_insertAt_iff (hperm.length_eq ▸ hplace n (by omega) hn), hperm.countP_eq, hperm.countP_eq]
      exact and_congr_right fun _ => ⟨fun h _ => h, fun h => h hn⟩
    · exact ⟨fun h => ⟨h, fun h' => absurd h' hn⟩, fun h => h.1⟩

end

/-! ### Exchanges -/

/-- Where an entry at `j` stops that goes back past the entries `j - 1, j - 2, ..` as long as `back` says
so. -/
def slot (back : ℕ → Bool) : ℕ → ℕ
  | 0 => 0
  | j + 1 => if back j then slot back j else j + 1

/-- The exchanges that take it there; entry `j` is kept at `pos j`. -/
def sink (pos : ℕ → ℕ) (back : ℕ → Bool) : ℕ → (ℕ → α) → ℕ → α
  | 0, f => f
  | j + 1, f => if back j then sink pos back j (exchange f (pos j) (pos (j + 1))) else f

/-- The first `n` entries of a table. -/
def entries (pos : ℕ → ℕ) (f : ℕ → α) (n : ℕ) : List α := (List.range n).map fun d => f (pos d)

variable {pos : ℕ → ℕ} {back : ℕ → Bool}

@[simp] theorem length_entries (f : ℕ → α) (n : ℕ) : (entries pos f n).length = n := by simp [entries]

theorem entries_succ (f : ℕ → α) (n : ℕ) : entries pos f (n + 1) = entries pos f n ++ [f (pos n)] := by
  simp [entries, List.range_succ]

theorem entries_congr {f g : ℕ → α} {n : ℕ} (h : ∀ d < n, f (pos d) = g (pos d)) :
    entries pos f n = entries pos g n :=
  List.map_congr_left fun d hd => h d (List.mem_range.mp hd)

theorem mem_take_entries {f : ℕ → α} {n s : ℕ} {y : α} :
    y ∈ (entries pos f n).take s ↔ ∃ d < min s n, f (pos d) = y := by
  rw [entries, ← List.map_take, List.take_range, List.mem_map]
  simp only [List.mem_range]

theorem mem_drop_entries {f : ℕ → α} {n s : ℕ} {y : α} : y ∈ (entries pos f n).drop s ↔
    ∃ d, s ≤ d ∧ d < n ∧ f (pos d) = y := by
  rw [entries, ← List.map_drop, List.mem_map]
  refine exists_congr fun d => ?_
  rw [List.mem_iff_getElem]
  constructor
  · rintro ⟨⟨i, hi, rfl⟩, hy⟩
    rw [List.length_drop, List.length_range] at hi
    rw [List.getElem_drop, List.getElem_range] at hy ⊢
    exact ⟨by omega, by omega, hy⟩
  · rintro ⟨hs, hn, hy⟩
    refine ⟨⟨d - s, ?_, ?_⟩, hy⟩
    · rw [List.length_drop, List.length_range]
      omega
    · rw [List.getElem_drop, List.getElem_range]
      omega

theorem slot_le : ∀ j, slot back j ≤ j
  | 0 => le_rfl
  | j + 1 => by
    have := slot_le j
    unfold slot
    split_ifs <;> omega

/-- It has gone past everything behind the place where it stops. -/
theorem back_of_slot_le : ∀ {j d : ℕ}, slot back j ≤ d → d < j → back d = true
  | j + 1, d, hd, hj => by
    unfold slot at hd
    split_ifs at hd with hb
    · rcases Nat.lt_succ_iff_lt_or_eq.mp hj with hlt | rfl
      · exact back_of_slot_le hd hlt
      · exact hb
    · omega

/-- It has not gone past the entry before that place. -/
theorem back_slot : ∀ {j d : ℕ}, slot back j = d + 1 → back d = false
  | j + 1, d, h => by
    unfold slot at h
    split_ifs at h with hb
    · exact back_slot h
    · obtain rfl : j = d := by omega
      exact Bool.eq_false_iff.mpr hb

/-- Entries behind the newest one stay. -/
theorem sink_of_ne : ∀ {j : ℕ} {f : ℕ → α} {q : ℕ}, (∀ d ≤ j, pos d ≠ q) → sink pos back j f q = f q
  | 0, _, _, _ => rfl
  | j + 1, f, q, h => by
    rw [sink]
    split_ifs
    · rw [sink_of_ne fun d hd => h d (by omega)]
      simp [exchange, (h j (by omega)).symm, (h (j + 1) le_rfl).symm]
    · rfl

/-- **The exchanges put the newest entry in** at the place where they stop. -/
theorem entries_sink : ∀ {j : ℕ} {f : ℕ → α}, (∀ d ≤ j, ∀ e ≤ j, pos d = pos e → d = e) →
    entries pos (sink pos back j f) (j + 1) = insertAt (entries pos f j) (slot back j) (f (pos j))
  | 0, f, _ => rfl
  | j + 1, f, hinj => by
    have hne : ∀ d < j, pos d ≠ pos j ∧ pos d ≠ pos (j + 1) := fun d hd =>
      ⟨fun h => absurd (hinj d (by omega) j (by omega) h) (by omega),
        fun h => absurd (hinj d (by omega) (j + 1) le_rfl h) (by omega)⟩
    have hlast : pos (j + 1) ≠ pos j := fun h => absurd (hinj (j + 1) le_rfl j (by omega) h) (by omega)
    rw [sink, slot]
    split_ifs
    · have hstay : sink pos back j (exchange f (pos j) (pos (j + 1))) (pos (j + 1)) = f (pos j) := by
        rw [sink_of_ne fun d hd h => absurd (hinj d (by omega) (j + 1) le_rfl h) (by omega)]
        simp [exchange, hlast]
      have hold : entries pos (exchange f (pos j) (pos (j + 1))) j = entries pos f j :=
        entries_congr fun d hd => by simp [exchange, (hne d hd).1, (hne d hd).2]
      have hnew : exchange f (pos j) (pos (j + 1)) (pos j) = f (pos (j + 1)) := by simp [exchange]
      rw [entries_succ, entries_sink fun d hd e he => hinj d (by omega) e (by omega), hstay, hold, hnew,
        entries_succ,
        insertAt_append (by rw [length_entries]; exact slot_le j)]
    · rw [entries_succ, ← insertAt_length, length_entries]

end Hieratika.Foundations
