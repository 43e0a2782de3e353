import Hieratika.Foundations.Word

/-!
# The PV descriptors of the subscriber

`PvDescriptor` of `EpicsParserAndSubscriber.h`, with the fields that the sender reads:
what `cainfo` and `FillMemorySizes` found out about a PV before `InitialisationDone`.
The EPICS handles, the pointers into the subscriber's memory and the mutex are left out.
-/

namespace Hieratika.Subscriber

open Foundations

/-- A PV as the sender sees it. -/
structure PvDescriptor where
  /-- `pvName`, up to its terminator. -/
  pvName : List UInt8
  /-- `numberOfElements`; `0` for a PV that is not connected or too long. -/
  numberOfElements : ℕ
  /-- `memorySize`: the bytes of one element. -/
  memorySize : ℕ
  /-- `offset`: where the PV starts in the copied memory. -/
  offset : ℕ
  /-- `typeId`: what the receiver is told about the type. -/
  typeId : UInt8

/-- `numberOfElements * memorySize`, a `uint32`. -/
def PvDescriptor.totalSize (pv : PvDescriptor) : ℕ := u32 (pv.numberOfElements * pv.memorySize)

end Hieratika.Subscriber
