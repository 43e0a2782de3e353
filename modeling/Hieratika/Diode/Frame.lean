import Hieratika.Foundations.Bytes
import Hieratika.Foundations.Word

/-!
# The frames on the wire

What `SendVariables` writes for one PV, or for one piece of a large one, and what the
receiver takes apart again.
-/

namespace Hieratika.Diode

open Foundations

/-- One frame: a piece of the value of a PV. -/
structure Frame where
  name : List UInt8
  /-- The index of the PV in the sender's list. -/
  index : ℕ
  typeId : UInt8
  /-- How many value bytes the frame carries. -/
  size : ℕ
  /-- Where they belong in the value. -/
  offset : ℕ
  value : List UInt8
  timeStamp : List UInt8
  deriving DecidableEq

/-- `"`. -/
def quote : UInt8 := 34

/-- `": `, what follows the name. -/
def namePattern : List UInt8 := [34, 58, 32]

/-- The terminator, newline and carriage return. -/
def terminator : List UInt8 := [10, 13]

/-- The frame as `SendVariables` writes it. -/
def Frame.encode (f : Frame) : List UInt8 :=
  quote :: f.name ++ namePattern ++ le32 f.index ++ [f.typeId] ++ le32 f.size ++ le32 f.offset ++
    f.value ++ f.timeStamp ++ terminator

end Hieratika.Diode
