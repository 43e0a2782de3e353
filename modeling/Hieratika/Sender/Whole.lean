import Hieratika.Sender.Tiling

/-!
# Slices of PVs that fit into one frame

When no PV of a slice is larger than `maxVarSize`, `varOffset` is `0` before every entry and each
PV with bytes is sent in one frame, whole, however the entries fall into messages
(`sendVariables_whole`).
-/

namespace Hieratika.Sender

open Foundations Subscriber Diode

variable {c : Config} {m : Memory} {list : ℕ → ℕ} {n left : ℕ} {st : Send}

/-- The frames of a PV that fits into one. -/
def wholeFrames (c : Config) (m : Memory) (sig : ℕ) : List Frame :=
  if 0 < (c.pvDes sig).totalSize then [frameAt c m sig 0] else []

/-- An entry that fits into one frame leaves the offset at `0`. -/
theorem sendEntry_whole (c : Config) (m : Memory) (list : ℕ → ℕ) (hv : st.varOffset = 0)
    (herr : st.err = false) (hi : st.i < n)
    (hw : (c.pvDes (list st.listIndex)).totalSize ≤ c.maxVarSize) :
    ∃ i ≤ n, sendEntry c .good m list n st = st.advance c i 0 (wholeFrames c m (list st.listIndex)) := by
  rcases Nat.eq_zero_or_pos (c.pvDes (list st.listIndex)).totalSize with ht | ht
  · rw [wholeFrames, if_neg (by omega)]
    by_cases hel : HasElements (c.pvDes (list st.listIndex))
    · exact ⟨st.i, hi.le, sendEntry_end hel (by omega)⟩
    · exact ⟨st.i + 1, hi, by rw [sendEntry_skip hel, hv]⟩
  · have hone := frameCount_of_le ht hw
    obtain ⟨v, hentry, hv'⟩ := sendEntry_fits (m := m) (ht.trans_le hw) (hasElements_of_pos ht) hv ht herr hi
      (by rw [hone]; exact hi)
    obtain ⟨k, hk⟩ : ∃ k, n - st.i = k + 1 := ⟨n - st.i - 1, by omega⟩
    have hsize : (frameAt c m (list st.listIndex) 0).size = (c.pvDes (list st.listIndex)).totalSize := by
      rw [frameAt_size, Nat.sub_zero, min_eq_left hw]
    have hcut : cut c m (list st.listIndex) (n - st.i) 0 = wholeFrames c m (list st.listIndex) := by
      rw [hk, cut, if_pos ht, wholeFrames, if_pos ht, hsize, Nat.zero_add]
      cases k with
      | zero => rfl
      | succ k => rw [cut, if_neg (by omega)]
    rw [hone] at hentry hv'
    have hv0 : v = 0 := by
      by_contra hne
      exact absurd (hv'.mp hne).2 (by decide)
    rw [hcut, hv0] at hentry
    exact ⟨st.i + 1, hi, hentry⟩

/-- From within a message the rest of the slice is sent whole. -/
theorem resume_whole (hN : c.numberOfVariables < 2 ^ 32) :
    ∀ (sigs : List ℕ) (left : ℕ) (st : Send), st.err = false →
    st.varOffset = 0 → st.i ≤ n → st.cntVariables + sigs.length = n → st.listIndex < c.numberOfVariables →
    sigs = slice c list st.listIndex sigs.length → sigs.length ≤ left + (if st.i < n then 1 else 0) →
    (∀ sig ∈ sigs, (c.pvDes sig).totalSize ≤ c.maxVarSize) →
    (resume c m list n left st).out = st.out ++ sigs.map (wholeFrames c m) := by
  intro sigs
  induction sigs with
  | nil =>
    intro left st _ _ _ hcnt _ _ _ _
    rw [resume_done (by simpa using hcnt)]
    simp
  | cons sig sigs ih =>
    intro left st herr hv hi hcnt hidx hsl hleft hw
    rw [List.length_cons] at hcnt hsl hleft
    obtain ⟨left', hres, hi', hleft'⟩ := resume_ready c m list herr hi (by omega) hleft
    rw [slice_succ hN hidx, List.cons.injEq] at hsl
    obtain ⟨rfl, hsl⟩ := hsl
    obtain ⟨st', hst⟩ : ∃ st', st' = { st with i := st.i % n } := ⟨_, rfl⟩
    have herr' : st'.err = false := by rw [hst]; exact herr
    have hv' : st'.varOffset = 0 := by rw [hst]; exact hv
    have hcnt' : st'.cntVariables + (sigs.length + 1) = n := by rw [hst]; exact hcnt
    have hlist : st'.listIndex = st.listIndex := by rw [hst]
    have hout : st'.out = st.out := by rw [hst]
    rw [← hst] at hres
    replace hi' : st'.i < n := by rw [hst]; exact hi'
    obtain ⟨i, hin, hentry⟩ := sendEntry_whole c m list hv' herr' hi'
      (by rw [hlist]; exact hw _ List.mem_cons_self)
    have hrest := ih left' (st'.advance c i 0 (wholeFrames c m (list st'.listIndex))) herr' rfl hin
      (by simp only [Send.advance]; omega) (Nat.mod_lt _ (by omega))
      (by simp only [Send.advance, hlist]; exact hsl)
      (by omega) fun sig hsig => hw sig (List.mem_cons_of_mem _ hsig)
    rw [hres, resume_entry herr' hi' (by omega) hentry, hrest, ← hout, ← hlist]
    simp [Send.advance]

/-- **Every PV of the slice in one frame**, in order, on a connection without errors. -/
theorem sendVariables_whole (hN : c.numberOfVariables < 2 ^ 32) {listIndex : ℕ}
    (hidx : listIndex < c.numberOfVariables)
    (hw : ∀ sig ∈ slice c list listIndex n, (c.pvDes sig).totalSize ≤ c.maxVarSize) :
    (sendVariables c .good m list n listIndex).out = (slice c list listIndex n).map (wholeFrames c m) := by
  have hlen : (slice c list listIndex n).length = n := by simp [slice]
  cases n with
  | zero => rfl
  | succ n =>
    rw [sendVariables_resume,
      resume_whole hN (slice c list listIndex (n + 1)) n ⟨0, listIndex, 0, 0, false, []⟩ rfl rfl
      (Nat.zero_le _) (by rw [hlen]; exact Nat.zero_add _) hidx (by rw [hlen]) (by rw [hlen]; simp) hw]
    rfl

end Hieratika.Sender
