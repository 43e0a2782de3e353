import Hieratika.Foundations.Deterministic

/-!
# Streams that arrive in segments

A reader takes what it understands from the front of a stream, and waits when there is too little. It
does not look behind what it takes: with more on the stream, its step is the same (`Streams`). So it
does not matter where the stream is cut: whatever arrives in segments is read as one piece
(`Reads.segment`), and the end is the same for all ways to cut it (`Reads.end_unique`).
-/

namespace Hieratika.Foundations

/-- A step of a reader: its new state and what is left of the stream, or `none` when it waits. -/
abbrev Reader (σ α : Type*) := σ → List α → Option (σ × List α)

namespace Reader

variable {σ α : Type*} {step : Reader σ α} {a b c : σ × List α} {tail : List α}

/-- More on the stream leaves the step as it is. -/
def Streams (step : Reader σ α) : Prop :=
  ∀ s l s' l', step s l = some (s', l') → ∀ tail, step s (l ++ tail) = some (s', l' ++ tail)

/-- The steps, on the reader and the stream. -/
def Reads (step : Reader σ α) (a b : σ × List α) : Prop := step a.1 a.2 = some b

/-- There is too little on the stream. -/
def Waits (step : Reader σ α) (a : σ × List α) : Prop := step a.1 a.2 = none

/-- The reader with more behind what is on the stream. -/
def more (a : σ × List α) (tail : List α) : σ × List α := (a.1, a.2 ++ tail)

theorem reads_deterministic : Deterministic (Reads step) :=
  fun _ _ _ h h' => Option.some.inj (h.symm.trans h')

theorem Waits.final (h : Waits step a) : Final (Reads step) a := fun _ hread => by
  rw [Reads, h] at hread
  cases hread

theorem Streams.reads_more (hstep : Streams step) (h : Reads step a b) (tail : List α) :
    Reads step (more a tail) (more b tail) := hstep _ _ _ _ h tail

/-- A run is the same run with more behind. -/
theorem Streams.run_more (hstep : Streams step) (h : Reachable (Reads step) a b) (tail : List α) :
    Reachable (Reads step) (more a tail) (more b tail) :=
  h.map (f := fun a => more a tail) fun _ _ h => hstep.reads_more h tail

/-- **A segment**: what is read of it behind the rest is read as if all had been there. -/
theorem Streams.run_segment (hstep : Streams step) {s : σ} {rest segment : List α}
    (h : Reachable (Reads step) a (s, rest ++ (segment ++ tail)))
    (hnext : Reachable (Reads step) (s, rest ++ segment) c) :
    Reachable (Reads step) a (c.1, c.2 ++ tail) := by
  have hrun := hstep.run_more hnext tail
  rw [more, List.append_assoc] at hrun
  exact h.trans hrun

/-- **One end**: two ways to the end of a stream lead to the same state. -/
theorem end_unique (h : Reachable (Reads step) a b) (hb : Waits step b) (h' : Reachable (Reads step) a c)
    (hc : Waits step c) : b = c := h.final_unique reads_deterministic hb.final h' hc.final

end Reader

end Hieratika.Foundations
