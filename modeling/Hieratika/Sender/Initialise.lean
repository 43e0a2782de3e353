import Hieratika.Sender.Scheduler

/-!
# The parameters of the sender

`PrioritySender::Initialise`: the parameters that must be given, and those with a default. Of the
members only those are kept that the loop and the pool threads read; `MultiThreadService::Initialise`,
which comes first and gives `numberOfPoolThreads`, is left out.
-/

namespace Hieratika.Sender

open Subscriber

/-- The parameters as they are given; `none` where one is missing. -/
structure Parameters where
  numberOfSignalPerThread : Option ℕ
  serverIp : Option (List UInt8)
  serverPort : Option ℕ
  numberOfCpus : Option ℕ
  msecPeriod : Option ℕ
  maxBytesPerCycle : Option ℕ
  maxVarSize : Option ℕ
  resetCounter : Option ℕ
  sendOnlyChanged : Option ℕ

/-- The members set from them. -/
structure Settings where
  numberOfSignalToBeSent : ℕ
  maxBytesPerCycle : ℕ
  maxVarSize : ℕ
  resetCounter : ℕ
  sendOnlyChanged : ℕ

/-- The members as the constructor leaves them. -/
def Settings.constructed : Settings := ⟨0, 0xFFFFFFFF, 0xFFFFFFFF, 120, 0⟩

/-- `data.Read(name, member)`: whether the parameter is there, and the member behind the call. -/
def readMember (given : Option ℕ) (member : ℕ) : Bool × ℕ :=
  match given with
  | some value => (true, value)
  | none => (false, member)

/-- `if (!data.Read(name, member)) member = byDefault`. -/
def readOr (given : Option ℕ) (member byDefault : ℕ) : ℕ :=
  let (ok, value) := readMember given member
  if !ok then byDefault else value

/-- A parameter that must be given, and the error if it is not. -/
def require {α : Type*} (given : Option α) (name : String) : Except String α :=
  match given with
  | some value => .ok value
  | none => .error ("Please define " ++ name)

/-- `Initialise`. -/
def Parameters.initialise (p : Parameters) : Except String Settings := do
  let numberOfSignalToBeSent ← require p.numberOfSignalPerThread "NumberOfSignalPerThread"
  let _ ← require p.serverIp "ServerIp"
  let _ ← require p.serverPort "ServerPort"
  let _ ← require p.numberOfCpus "NumberOfCpus"
  let _ ← require p.msecPeriod "MsecPeriod"
  let old := Settings.constructed
  -- here, and only here, the member is set when the parameter was read
  let (ok, value) := readMember p.sendOnlyChanged old.sendOnlyChanged
  return {
    numberOfSignalToBeSent
    maxBytesPerCycle := readOr p.maxBytesPerCycle old.maxBytesPerCycle 0xFFFFFFFF
    maxVarSize := readOr p.maxVarSize old.maxVarSize 0xFFFFFFFF
    resetCounter := readOr p.resetCounter old.resetCounter 120
    sendOnlyChanged := if ok then 0 else value }

/-- The parameters of the loop, with what comes from `MultiThreadService` and the data source. -/
def Settings.config (s : Settings) (numberOfPoolThreads numberOfVariables : ℕ)
    (pvDes : ℕ → PvDescriptor) : Config where
  numberOfVariables := numberOfVariables
  numberOfSignalToBeSent := s.numberOfSignalToBeSent
  numberOfPoolThreads := numberOfPoolThreads
  maxBytesPerCycle := s.maxBytesPerCycle
  maxVarSize := s.maxVarSize
  resetCounter := s.resetCounter
  sendOnlyChanged := s.sendOnlyChanged != 0
  pvDes := pvDes

/-- A parameter that is read without an error was given. -/
theorem require_ok {α : Type*} {given : Option α} {name : String} {value : α}
    (h : require given name = .ok value) :
    given = some value := by
  unfold require at h
  split at h
  · cases h
    rfl
  · cases h

theorem bind_ok {ε α β : Type} {x : Except ε α} {f : α → Except ε β} {b : β} (h : x >>= f = .ok b) :
    ∃ a, x = .ok a ∧ f a = .ok b := by
  cases x with
  | error e => cases h
  | ok a => exact ⟨a, rfl, h⟩

/-- What `Initialise` returns: the parameters that must be given are there, and the members have their
values, or their defaults. -/
theorem initialise_ok {p : Parameters} {s : Settings} (h : p.initialise = .ok s) :
    p.numberOfSignalPerThread = some s.numberOfSignalToBeSent ∧ p.serverIp.isSome ∧ p.serverPort.isSome ∧
      p.numberOfCpus.isSome ∧ p.msecPeriod.isSome ∧ s.maxBytesPerCycle = p.maxBytesPerCycle.getD 0xFFFFFFFF ∧
      s.maxVarSize = p.maxVarSize.getD 0xFFFFFFFF ∧ s.resetCounter = p.resetCounter.getD 120 ∧
        s.sendOnlyChanged = 0 := by
  obtain ⟨n, hn, h⟩ := bind_ok h
  obtain ⟨ip, hip, h⟩ := bind_ok h
  obtain ⟨port, hport, h⟩ := bind_ok h
  obtain ⟨cpus, hcpus, h⟩ := bind_ok h
  obtain ⟨period, hperiod, h⟩ := bind_ok h
  have hor : ∀ given member byDefault, readOr given member byDefault = given.getD byDefault := by
    intro given member byDefault
    cases given <;> rfl
  cases h
  refine ⟨require_ok hn, ?_, ?_, ?_, ?_, hor _ _ _, hor _ _ _, hor _ _ _, ?_⟩
  · rw [require_ok hip]; rfl
  · rw [require_ok hport]; rfl
  · rw [require_ok hcpus]; rfl
  · rw [require_ok hperiod]; rfl
  · cases p.sendOnlyChanged <;> rfl

/-- **`SendOnlyChanged` is 0 behind `Initialise`**, whatever is given. -/
theorem config_sendOnlyChanged {p : Parameters} {s : Settings} (h : p.initialise = .ok s) (threads n : ℕ)
    (pvDes : ℕ → PvDescriptor) : (s.config threads n pvDes).sendOnlyChanged = false := by
  obtain ⟨-, -, -, -, -, -, -, -, hsend⟩ := initialise_ok h
  show (s.sendOnlyChanged != 0) = false
  rw [hsend]
  rfl

end Hieratika.Sender
