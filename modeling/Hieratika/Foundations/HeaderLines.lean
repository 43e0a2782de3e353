import Mathlib.Data.List.Basic

/-!
# Headers of lines

A header of text: lines that end with CR LF, up to an empty one. A field is a line with its name in front.

Reading a header takes bytes from the front of a stream (`headerLines_length`), and does not look behind the
empty line (`headerLines_more`).
-/

namespace Hieratika.Foundations

/-- The bytes of a text. -/
def ascii (text : String) : List UInt8 := text.toList.map fun c => UInt8.ofNat c.toNat

/-- The lines up to an empty one, and what is behind it; `line` is what has been read of the first, from its
end. -/
def headerLines : List UInt8 → List UInt8 → Option (List (List UInt8) × List UInt8)
  | _, [] => none
  | line, b :: bs =>
    if b = 10 ∧ line.head? = some 13 then
      if line = [13] then some ([], bs)
      else (headerLines [] bs).map fun x => (line.tail.reverse :: x.1, x.2)
    else headerLines (b :: line) bs

/-- The value of a field. -/
def fieldValue (name : List UInt8) (lines : List (List UInt8)) : Option (List UInt8) :=
  lines.findSome? fun line => if name <+: line then some (line.drop name.length) else none

/-- A decimal number. -/
def decimal (digits : List UInt8) : ℕ := digits.foldl (fun n d => 10 * n + (d.toNat - 48)) 0

variable {bs line : List UInt8} {x : List (List UInt8) × List UInt8}

theorem headerLines_length (h : headerLines line bs = some x) : x.2.length < bs.length := by
  induction bs generalizing line x with
  | nil => cases h
  | cons b bs ih =>
    unfold headerLines at h
    split_ifs at h
    · cases h
      exact Nat.lt_succ_self _
    · obtain ⟨y, hy, rfl⟩ := Option.map_eq_some_iff.mp h
      have hlt : y.2.length < bs.length := ih hy
      exact Nat.lt_succ_of_lt hlt
    · exact Nat.lt_succ_of_lt (ih h)

/-- With more behind it a header is the same. -/
theorem headerLines_more (h : headerLines line bs = some x) (tail : List UInt8) :
    headerLines line (bs ++ tail) = some (x.1, x.2 ++ tail) := by
  induction bs generalizing line x with
  | nil => cases h
  | cons b bs ih =>
    unfold headerLines at h
    rw [List.cons_append, headerLines]
    split_ifs at h ⊢
    · cases h
      rfl
    · obtain ⟨y, hy, rfl⟩ := Option.map_eq_some_iff.mp h
      rw [ih hy]
      rfl
    · exact ih h

end Hieratika.Foundations
