import Hieratika.Sender.Tiling

/-!
# Send errors

What a thread has written when an operation on its connection fails: a header, a write of a frame, or
the end of a message. With chunks `SendVariables` then leaves all its loops, whatever the three of them
share. Without (`ChunkSize = 0`) the write of a message is not checked, and the loops may go on.

## What is proved

With chunks, the frames written before an error are the first frames of the slice, as they would have
been written without it: an error leaves no gap and changes no frame. Without chunks, the frames on the
connection are those of the slice in their order, but ends of messages may be missing in between; where
every such write succeeds, they are again the first frames of the slice (`frames_before_error`).
-/

namespace Hieratika.Sender

open Foundations Subscriber Diode

variable {c : Config} {w : Wire} {m : Memory} {list : ℕ → ℕ} {n left sig : ℕ} {st st' : Send}
  {fs : List Frame}

/-- The frames written so far. -/
def Send.frames (st : Send) : List Frame := st.out.flatten

/-! ### Frames are only added -/

theorem sendFrame_out : (sendFrame c w m n sig st).out = st.out := by
  unfold sendFrame
  dsimp only
  split_ifs <;> rfl

theorem sendFrame_err : (sendFrame c w m n sig st).err = !w.frame st.cntVariables st.varOffset := by
  unfold sendFrame
  dsimp only
  split_ifs <;> rfl

theorem sendPv_next (w : Wire) (fs : List Frame)
    (h : st.varOffset < (c.pvDes sig).totalSize ∧ st.condition n = true) :
    sendPv c w m n sig st fs = sendPv c w m n sig (sendFrame c w m n sig st)
      (if w.frame st.cntVariables st.varOffset then fs ++ [frameAt c m sig st.varOffset] else fs) := by
  rw [sendPv, dif_pos h]

theorem sendPv_end (w : Wire) (fs : List Frame)
    (h : ¬ (st.varOffset < (c.pvDes sig).totalSize ∧ st.condition n = true)) :
    sendPv c w m n sig st fs = (st, fs) := by
  rw [sendPv, dif_neg h]

theorem sendPv_grows : (sendPv c w m n sig st fs).1.out = st.out ∧ fs <+: (sendPv c w m n sig st fs).2 := by
  induction st, fs using sendPv.induct c w m n sig with
  | case1 st fs h frame ih =>
    rw [sendPv_next w fs h]
    refine ⟨ih.1.trans sendFrame_out, List.IsPrefix.trans ?_ ih.2⟩
    split_ifs
    · exact List.prefix_append _ _
    · exact List.prefix_rfl
  | case2 st fs h =>
    rw [sendPv_end w fs h]
    exact ⟨rfl, List.prefix_rfl⟩

/-- What an entry makes of the frames of its PV. -/
def Send.entry (c : Config) (sig : ℕ) (r : Send × List Frame) : Send :=
  { r.1 with
    varOffset := if (c.pvDes sig).totalSize ≤ r.1.varOffset then 0 else r.1.varOffset
    listIndex := u32 (r.1.listIndex + 1) % c.numberOfVariables
    cntVariables := r.1.cntVariables + 1
    out := r.1.out ++ [r.2] }

theorem sendEntry_frames (w : Wire) (h : HasElements (c.pvDes (list st.listIndex))) :
    sendEntry c w m list n st =
      Send.entry c (list st.listIndex) (sendPv c w m n (list st.listIndex) st []) := by
  unfold sendEntry
  dsimp only
  simp only [HasElements] at h
  rw [if_pos h]
  dsimp only
  split_ifs with hv
  · simp [Send.entry, hv]
  · simp [Send.entry, hv]

theorem sendEntry_none (w : Wire) (h : ¬ HasElements (c.pvDes (list st.listIndex))) :
    sendEntry c w m list n st = st.advance c (st.i + 1) st.varOffset [] := by
  unfold sendEntry
  dsimp only
  simp only [HasElements] at h
  rw [if_neg h]
  rfl

/-- An entry adds a list of frames. -/
theorem sendEntry_grows : st.out <+: (sendEntry c w m list n st).out := by
  by_cases h : HasElements (c.pvDes (list st.listIndex))
  · rw [sendEntry_frames w h]
    exact ⟨_, by rw [← (@sendPv_grows c w m n (list st.listIndex) st []).1]; rfl⟩
  · rw [sendEntry_none w h]
    exact ⟨_, rfl⟩

theorem sendMessage_grows : ∀ (left : ℕ) (st : Send), st.out <+: (sendMessage c w m list n left st).out
  | 0, _ => List.prefix_rfl
  | left + 1, st => by
    rw [sendMessage]
    split_ifs
    · exact sendEntry_grows.trans (sendMessage_grows left _)
    · exact List.prefix_rfl

/-- A message whose header goes through, and its end. -/
def Send.message (c : Config) (w : Wire) (m : Memory) (list : ℕ → ℕ) (n : ℕ) (st : Send) : Send :=
  let st' := sendMessage c w m list n (n - st.cntVariables) { st with i := 0 }
  { st' with err := st'.err || !w.finish st.cntVariables }

theorem message_grows : st.out <+: (st.message c w m list n).out :=
  sendMessage_grows (n - st.cntVariables) { st with i := 0 }

theorem sendMessages_header (h : st.cntVariables < n ∧ st.err = false)
    (hw : w.header st.cntVariables = true) :
    sendMessages c w m list n (left + 1) st = sendMessages c w m list n left (st.message c w m list n) := by
  rw [sendMessages, if_pos h, if_pos hw]
  rfl

theorem sendMessages_refused (h : st.cntVariables < n ∧ st.err = false)
    (hw : w.header st.cntVariables = false) :
    sendMessages c w m list n (left + 1) st = { st with err := true } := by
  rw [sendMessages, if_pos h, if_neg (by rw [hw]; exact Bool.false_ne_true)]

/-- After an error, and after the slice, no further message begins. -/
theorem sendMessages_end (h : ¬ (st.cntVariables < n ∧ st.err = false)) :
    sendMessages c w m list n left st = st := by
  cases left with
  | zero => rfl
  | succ left => rw [sendMessages, if_neg h]

theorem sendMessages_grows : ∀ (left : ℕ) (st : Send), st.out <+: (sendMessages c w m list n left st).out
  | 0, _ => List.prefix_rfl
  | left + 1, st => by
    by_cases h : st.cntVariables < n ∧ st.err = false
    · cases hw : w.header st.cntVariables with
      | true => rw [sendMessages_header h hw]; exact message_grows.trans (sendMessages_grows left _)
      | false => exact ⟨[], by rw [sendMessages_refused h hw, List.append_nil]⟩
    · exact ⟨[], by rw [sendMessages_end h, List.append_nil]⟩

theorem frames_le_of_out (h : st.out <+: st'.out) : st.frames <+: st'.frames := by
  obtain ⟨more, hmore⟩ := h
  exact ⟨more.flatten, by rw [Send.frames, Send.frames, ← hmore, List.flatten_append]⟩

/-! ### In step until an error -/

/-- A thread is where it would be on a connection without errors, or an error has stopped it, and what it
has written is the beginning of what it would have written. -/
inductive Send.Behind (st good : Send) : Prop
  | same : st.err = false → st = good → Send.Behind st good
  | stopped : st.err = true → st.frames <+: good.frames → Send.Behind st good

theorem Send.Behind.le {good : Send} (h : st.Behind good) : st.frames <+: good.frames := by
  cases h with
  | same _ heq => exact ⟨[], by rw [heq, List.append_nil]⟩
  | stopped _ hle => exact hle

/-- A frame that is written is the same step on every connection. -/
theorem sendFrame_good (h : w.frame st.cntVariables st.varOffset = true) :
    sendFrame c w m n sig st = sendFrame c .good m n sig st := by
  unfold sendFrame
  rw [h]
  rfl

/-- The frames of a PV: the same as without errors, or its first ones and then the error. -/
theorem sendPv_behind (herr : st.err = false) :
    ((sendPv c w m n sig st fs).1.err = false ∧ sendPv c w m n sig st fs = sendPv c .good m n sig st fs) ∨
      ((sendPv c w m n sig st fs).1.err = true ∧
        (sendPv c w m n sig st fs).2 <+: (sendPv c .good m n sig st fs).2) := by
  induction st, fs using sendPv.induct c w m n sig with
  | case1 st fs h frame ih =>
    have hgood := sendPv_next (m := m) .good fs h
    cases hw : w.frame st.cntVariables st.varOffset with
    | true =>
      have hnext : (sendFrame c w m n sig st).err = false := by rw [sendFrame_err, hw]; rfl
      have hrest := ih hnext
      rw [hw] at hrest
      rw [sendPv_next w fs h, hgood, hw, ← sendFrame_good hw]
      exact hrest
    | false =>
      have hnext : (sendFrame c w m n sig st).err = true := by rw [sendFrame_err, hw]; rfl
      have hend : ¬ ((sendFrame c w m n sig st).varOffset < (c.pvDes sig).totalSize ∧
          (sendFrame c w m n sig st).condition n = true) := by
        simp [Send.condition, hnext]
      rw [sendPv_next w fs h, hw, if_neg Bool.false_ne_true, sendPv_end w fs hend]
      exact Or.inr ⟨hnext, hgood ▸ (List.prefix_append fs _).trans sendPv_grows.2⟩
  | case2 st fs h =>
    rw [sendPv_end w fs h, sendPv_end .good fs h]
    exact Or.inl ⟨herr, rfl⟩

theorem sendEntry_behind (herr : st.err = false) :
    (sendEntry c w m list n st).Behind (sendEntry c .good m list n st) := by
  by_cases h : HasElements (c.pvDes (list st.listIndex))
  · have hpv := @sendPv_behind c w m n (list st.listIndex) st [] herr
    rw [sendEntry_frames w h, sendEntry_frames .good h]
    rcases hpv with ⟨hfine, heq⟩ | ⟨hstop, hle⟩
    · exact .same hfine (by rw [heq])
    · refine .stopped hstop ?_
      have hframes : ∀ v : Wire, (Send.entry c (list st.listIndex)
          (sendPv c v m n (list st.listIndex) st [])).frames =
          st.frames ++ (sendPv c v m n (list st.listIndex) st []).2 := by
        intro v
        rw [Send.frames, Send.entry, sendPv_grows.1, List.flatten_append, List.flatten_singleton]
        rfl
      rw [hframes w, hframes .good]
      exact (List.prefix_append_right_inj _).mpr hle
  · rw [sendEntry_none w h, sendEntry_none .good h]
    exact .same herr rfl

theorem sendMessage_behind : ∀ (left : ℕ) (st : Send), st.err = false →
    (sendMessage c w m list n left st).Behind (sendMessage c .good m list n left st)
  | 0, _, herr => .same herr rfl
  | left + 1, st, herr => by
    rw [sendMessage, sendMessage]
    by_cases hcond : st.condition n = true
    · rw [if_pos hcond, if_pos hcond]
      cases @sendEntry_behind c w m list n st herr with
      | same hfine heq =>
        rw [← heq]
        exact sendMessage_behind left _ hfine
      | stopped hstop hle =>
        have hend : sendMessage c w m list n left (sendEntry c w m list n st) =
            sendEntry c w m list n st := by
          cases left with
          | zero => rfl
          | succ left => rw [sendMessage, if_neg (by simp [Send.condition, hstop])]
        rw [hend]
        exact .stopped hstop (hle.trans (frames_le_of_out (sendMessage_grows left _)))
    · rw [if_neg hcond, if_neg hcond]
      exact .same herr rfl

theorem message_behind (herr : st.err = false) :
    (st.message c w m list n).Behind (st.message c .good m list n) := by
  cases @sendMessage_behind c w m list n (n - st.cntVariables) { st with i := 0 } herr with
  | same hfine heq =>
    cases hfinish : w.finish st.cntVariables with
    | true =>
      refine .same (by rw [Send.message, hfine, hfinish]; rfl) ?_
      rw [Send.message, Send.message, heq, hfinish]
      rfl
    | false =>
      refine .stopped (by rw [Send.message, hfinish]; exact Bool.or_true _) ?_
      exact @frames_le_of_out (st.message c w m list n) (st.message c .good m list n)
        ⟨[], by rw [Send.message, Send.message, heq, List.append_nil]⟩
  | stopped hstop hle => exact .stopped (by rw [Send.message, hstop]; rfl) hle

theorem sendMessages_behind : ∀ (left : ℕ) (st : Send), st.err = false →
    (sendMessages c w m list n left st).Behind (sendMessages c .good m list n left st)
  | 0, _, herr => .same herr rfl
  | left + 1, st, herr => by
    by_cases h : st.cntVariables < n ∧ st.err = false
    · rw [sendMessages_header (w := .good) h rfl]
      cases hw : w.header st.cntVariables with
      | true =>
        rw [sendMessages_header h hw]
        cases @message_behind c w m list n st herr with
        | same hfine heq =>
          rw [← heq]
          exact sendMessages_behind left _ hfine
        | stopped hstop hle =>
          rw [sendMessages_end (w := w) (fun hnot => by rw [hstop] at hnot; exact Bool.noConfusion hnot.2)]
          exact .stopped hstop (hle.trans (frames_le_of_out (sendMessages_grows left _)))
      | false =>
        have hle : st.out <+: (sendMessages c .good m list n left (st.message c .good m list n)).out :=
          message_grows.trans (sendMessages_grows left _)
        rw [sendMessages_refused h hw]
        exact .stopped rfl (frames_le_of_out hle)
    · rw [sendMessages_end h, sendMessages_end h]
      exact .same herr rfl

/-! ### Without chunks -/

theorem throughWrite_sublist (written : Option ℕ) (fs : List Frame) :
    (throughWrite written fs).Sublist fs := by
  cases written with
  | none => exact List.Sublist.refl fs
  | some k => exact List.take_sublist k fs

/-- The frames of a message, behind those before it. -/
theorem message_frames (left : ℕ) (st : Send) :
    (sendMessage c w m list n left { st with i := 0 }).frames = st.frames ++
      ((sendMessage c w m list n left { st with i := 0 }).out.drop st.out.length).flatten := by
  obtain ⟨more, hmore⟩ := @sendMessage_grows c w m list n left { st with i := 0 }
  rw [Send.frames, Send.frames, ← hmore, List.drop_left, List.flatten_append]

/-- A message whose frames all get into the buffer is the one of a connection without errors. -/
theorem sendPv_fine (hw : ∀ k o, w.frame k o = true) (herr : st.err = false) :
    (sendPv c w m n sig st fs).1.err = false := by
  induction st, fs using sendPv.induct c w m n sig with
  | case1 st fs h frame ih =>
    rw [sendPv_next w fs h]
    exact ih (by rw [sendFrame_err, hw]; rfl)
  | case2 st fs h =>
    rw [sendPv_end w fs h]
    exact herr

theorem sendEntry_fine (hw : ∀ k o, w.frame k o = true) (herr : st.err = false) :
    (sendEntry c w m list n st).err = false := by
  by_cases h : HasElements (c.pvDes (list st.listIndex))
  · rw [sendEntry_frames w h]
    exact sendPv_fine hw herr
  · rw [sendEntry_none w h]
    exact herr

theorem sendMessage_fine (hw : ∀ k o, w.frame k o = true) : ∀ (left : ℕ) (st : Send), st.err = false →
    (sendMessage c w m list n left st).err = false
  | 0, _, herr => herr
  | left + 1, st, herr => by
    rw [sendMessage]
    split_ifs
    · exact sendMessage_fine hw left _ (sendEntry_fine hw herr)
    · exact herr

theorem sendMessage_same (hw : ∀ k o, w.frame k o = true) (left : ℕ) (herr : st.err = false) :
    sendMessage c w m list n left st = sendMessage c .good m list n left st := by
  cases @sendMessage_behind c w m list n left st herr with
  | same _ heq => exact heq
  | stopped hstop _ =>
    rw [sendMessage_fine hw left st herr] at hstop
    exact Bool.noConfusion hstop

variable {written : ℕ → Option ℕ} {sent : List Frame}

theorem sendBuffered_next (written : ℕ → Option ℕ) (sent : List Frame)
    (h : st.cntVariables < n ∧ st.err = false) :
    sendBuffered c w m list n written (left + 1) st sent =
      sendBuffered c w m list n written left
        { sendMessage c w m list n (n - st.cntVariables) { st with i := 0 } with
          err := !w.header st.cntVariables || !w.finish st.cntVariables }
        (sent ++ throughWrite (written st.cntVariables)
          ((sendMessage c w m list n (n - st.cntVariables) { st with i := 0 }).out.drop
            st.out.length).flatten) := by
  rw [sendBuffered, if_pos h]

theorem sendBuffered_end (written : ℕ → Option ℕ) (sent : List Frame)
    (h : ¬ (st.cntVariables < n ∧ st.err = false)) :
    sendBuffered c w m list n written left st sent = (st, sent) := by
  cases left with
  | zero => rfl
  | succ left => rw [sendBuffered, if_neg h]

/-- What is on the connection was in the buffers, in this order. -/
theorem sendBuffered_sublist : ∀ (left : ℕ) (st : Send) (sent : List Frame),
    sent.Sublist st.frames → (sendBuffered c w m list n written left st sent).2.Sublist
      (sendBuffered c w m list n written left st sent).1.frames
  | 0, _, _, hsent => hsent
  | left + 1, st, sent, hsent => by
    by_cases h : st.cntVariables < n ∧ st.err = false
    · rw [sendBuffered_next written sent h]
      refine sendBuffered_sublist left _ _ ?_
      have hframes := @message_frames c w m list n (n - st.cntVariables) st
      rw [Send.frames] at hframes ⊢
      exact hframes ▸ hsent.append (throughWrite_sublist _ _)
    · rw [sendBuffered_end written sent h]
      exact hsent

/-- Where every write of a message succeeds, the buffers are on the connection. -/
theorem sendBuffered_whole (hwritten : ∀ k, written k = none) : ∀ (left : ℕ) (st : Send) (sent : List Frame),
    sent = st.frames → (sendBuffered c w m list n written left st sent).2 =
      (sendBuffered c w m list n written left st sent).1.frames
  | 0, _, _, hsent => hsent
  | left + 1, st, sent, hsent => by
    by_cases h : st.cntVariables < n ∧ st.err = false
    · rw [sendBuffered_next written sent h]
      refine sendBuffered_whole hwritten left _ _ ?_
      have hframes := @message_frames c w m list n (n - st.cntVariables) st
      rw [Send.frames] at hframes ⊢
      rw [hwritten, hsent]
      exact hframes.symm
    · rw [sendBuffered_end written sent h]
      exact hsent

/-- The buffers are filled as on a connection without errors, until a header or the end of a message
fails. -/
theorem sendBuffered_behind (hw : ∀ k o, w.frame k o = true) : ∀ (left : ℕ) (st : Send) (sent : List Frame),
    st.err = false → (sendBuffered c w m list n written left st sent).1.frames <+:
      (sendMessages c .good m list n left st).frames
  | 0, _, _, _ => List.prefix_rfl
  | left + 1, st, sent, herr => by
    by_cases h : st.cntVariables < n ∧ st.err = false
    · rw [sendBuffered_next written sent h, sendMessages_header (w := .good) h rfl]
      have hsame := @sendMessage_same c w m list n { st with i := 0 } hw (n - st.cntVariables) herr
      have hfine := @sendMessage_fine c .good m list n (fun _ _ => rfl) (n - st.cntVariables)
        { st with i := 0 } herr
      have hgood : st.message c .good m list n =
          { sendMessage c .good m list n (n - st.cntVariables) { st with i := 0 } with err := false } := by
        rw [Send.message, hfine]
        rfl
      rw [hsame, hgood]
      cases hend : !w.header st.cntVariables || !w.finish st.cntVariables with
      | false => exact sendBuffered_behind hw left _ _ rfl
      | true =>
        rw [sendBuffered_end written _ (fun hnot => Bool.noConfusion hnot.2)]
        exact frames_le_of_out (sendMessages_grows left
          { sendMessage c .good m list n (n - st.cntVariables) { st with i := 0 } with err := false })
    · exact ⟨[], by rw [sendBuffered_end written sent h, sendMessages_end h, List.append_nil]⟩

/-- **Errors change no frame**: with chunks, whatever the connection does, the frames that are written are
the first of those that are written when everything succeeds. Without chunks they are some of those, in
order, and again the first of them where every `client.Write` of a message succeeds. -/
theorem frames_before_error (c : Config) (w : Wire) (m : Memory) (list : ℕ → ℕ) (n listIndex : ℕ)
    (written : ℕ → Option ℕ) :
    (sendVariables c w m list n listIndex).out.flatten <+:
        (sendVariables c .good m list n listIndex).out.flatten ∧
      ((∀ k o, w.frame k o = true) →
        (sendVariablesBuffered c w m list n written listIndex).2.Sublist
          (sendVariables c .good m list n listIndex).out.flatten ∧
        ((∀ k, written k = none) → (sendVariablesBuffered c w m list n written listIndex).2 <+:
          (sendVariables c .good m list n listIndex).out.flatten)) := by
  refine ⟨(sendMessages_behind n _ rfl).le, fun hw => ?_⟩
  have hbehind : (sendVariablesBuffered c w m list n written listIndex).1.frames <+:
      (sendVariables c .good m list n listIndex).frames :=
    sendBuffered_behind hw n _ [] rfl
  refine ⟨(sendBuffered_sublist n _ [] (List.Sublist.refl [])).trans hbehind.sublist, fun hwritten => ?_⟩
  rw [sendVariablesBuffered, sendBuffered_whole hwritten n _ [] rfl]
  exact hbehind

/-- Two PVs of two frames each, without chunks: the write of the first message fails behind its first
frame, the second message is sent all the same. -/
theorem frames_before_error_buffered :
    let c := threePvs fun _ => 8
    let written := fun k => if k = 0 then some 1 else none
    (sendVariablesBuffered c .good (fun _ => 0) id 2 written 0).2.Sublist
        (sendVariables c .good (fun _ => 0) id 2 0).out.flatten ∧
      (sendVariablesBuffered c .good (fun _ => 0) id 2 written 0).2.map (fun f => (f.index, f.offset)) =
        [(0, 0), (1, 4)] ∧
      (sendVariables c .good (fun _ => 0) id 2 0).out.flatten.map (fun f => (f.index, f.offset)) =
        [(0, 0), (0, 4), (1, 4)] :=
  ⟨((frames_before_error _ _ _ _ _ _ _).2 fun _ _ => rfl).1,
    by simp [sendVariablesBuffered, sendBuffered, sendMessage, sendEntry, sendPv, sendFrame, threePvs,
      PvDescriptor.totalSize, Send.condition, Wire.good, throughWrite, frameAt, u32],
    by simp [sendVariables, sendMessages, sendMessage, sendEntry, sendPv, sendFrame, threePvs,
      PvDescriptor.totalSize, Send.condition, Wire.good, frameAt, u32]⟩

end Hieratika.Sender
