import Mathlib.Logic.Function.Basic
import L4.Library.Transition

namespace L4
set_option autoImplicit true
open Transition

/-- `EndPointInfo`. The maps compare the uuids alone. -/
structure EndPointInfo where
  pid : UInt32
  uuid : BitVec 128
deriving DecidableEq

namespace ConnectionMonitor

/-- The handles that a monitor waits for. -/
inductive HandleKind where
  | event
  | process
deriving DecidableEq

/-- A wait and its callback: before `isCalled` is exchanged, in the callback that the user has
given, and in `UnRegister` of the end point. -/
inductive Waiter where
  | armed
  | started
  | calling
  | unRegistering
  | finished
deriving DecidableEq

/-- `HandleMonitor`, with the end point it is registered for and the flag of its callback. -/
structure HandleMonitor where
  id : Nat
  endPoint : EndPointInfo
  isCalled : Bool := false
  waiters : HandleKind → Waiter := fun _ => .armed

/-- The calls that go through `UnRegister()` first. -/
inductive Call where
  | getRemoteConnectionsCount
  | register (endPoint : EndPointInfo)
deriving DecidableEq

/-- Where a thread is: before the block of `UnRegister(endPoint)`, before the two blocks
of `UnRegister()`, or after them. -/
inductive Thread where
  | idle
  | unRegistering (endPoint : EndPointInfo)
  | swapping (call : Call)
  | erasing (unregisteredEndPoints : List EndPointInfo) (call : Call)
  | finishing (call : Call)
deriving DecidableEq

/-- The steps of the threads, by their number, and of the callbacks, by their monitor. -/
inductive Act where
  | callUnRegister (t : Nat) (endPoint : EndPointInfo)
  | unRegister (t : Nat) (endPoint : EndPointInfo)
  | call (t : Nat) (call : Call)
  | swap (t : Nat)
  | erase (t : Nat)
  | count (t : Nat) (size : Nat)
  | emplace (t : Nat) (endPoint : EndPointInfo) (id : Nat)
  | throwDuplicate (t : Nat) (endPoint : EndPointInfo) (isCalled : Bool)
  | throwInvalidHandle (t : Nat) (endPoint : EndPointInfo) (isCalled : Bool)
  | start (id : Nat) (kind : HandleKind)
  | exchange (id : Nat) (kind : HandleKind)
  | callback (id : Nat) (kind : HandleKind)
  | callbackUnRegister (id : Nat) (kind : HandleKind)
deriving DecidableEq

/-- The end points that a thread has swapped out and not erased yet. -/
def Thread.endPoints : Thread → List EndPointInfo
  | .erasing unregisteredEndPoints _ => unregisteredEndPoints
  | _ => []

/-- No callback of the monitor is running, so that its destructor does not wait. -/
def HandleMonitor.Quiet (monitor : HandleMonitor) : Prop :=
  ∀ kind, monitor.waiters kind = .armed ∨ monitor.waiters kind = .finished

def HandleMonitor.setWaiter (kind : HandleKind) (waiter : Waiter) (monitor : HandleMonitor) :
    HandleMonitor :=
  { monitor with waiters := Function.update monitor.waiters kind waiter }

/-- The exchange of `isCalled`: the second callback of a monitor returns. -/
def HandleMonitor.exchange (kind : HandleKind) (monitor : HandleMonitor) : HandleMonitor :=
  { monitor.setWaiter kind (if monitor.isCalled then .finished else .calling) with
    isCalled := true }

end ConnectionMonitor

open ConnectionMonitor

structure ConnectionMonitor where
  threads : Nat → Thread := fun _ => .idle
  remoteMonitors : List HandleMonitor := []
  unregisteredEndPoints : List EndPointInfo := []
  nextId : Nat := 0

namespace ConnectionMonitor

section
variable (m : ConnectionMonitor)

def setThread (t : Nat) (thread : Thread) : ConnectionMonitor :=
  { m with threads := Function.update m.threads t thread }

/-- The block of `UnRegister(endPoint)`. -/
def unRegister (endPoint : EndPointInfo) : ConnectionMonitor :=
  { m with unregisteredEndPoints := m.unregisteredEndPoints ++ [endPoint] }

/-- The first block of `UnRegister()`, without the end points that it takes. -/
def clear : ConnectionMonitor := { m with unregisteredEndPoints := [] }

/-- The second block of `UnRegister()`. -/
def erase (endPoints : List EndPointInfo) : ConnectionMonitor :=
  { m with
    remoteMonitors := m.remoteMonitors.filter fun monitor =>
      endPoints.all fun endPoint => endPoint.uuid ≠ monitor.endPoint.uuid }

/-- The insertion in the block of `Register`. -/
def emplace (endPoint : EndPointInfo) : ConnectionMonitor :=
  { m with
    remoteMonitors := m.remoteMonitors ++ [{ id := m.nextId, endPoint }]
    nextId := m.nextId + 1 }

/-- A change of the monitor one of whose waits is in the given place. -/
def onWaiter (id : Nat) (kind : HandleKind) (waiter : Waiter)
    (f : HandleMonitor → HandleMonitor) : ConnectionMonitor :=
  { m with
    remoteMonitors := m.remoteMonitors.map fun monitor =>
      if monitor.id = id ∧ monitor.waiters kind = waiter then f monitor else monitor }

end

/-- The steps of the calls and of the callbacks, with each block under a mutex as one step. A
monitor that `Register` does not insert is destroyed in the block, as is the wait for the event
where the process cannot be opened, and the callback may have run before. -/
inductive Step : ConnectionMonitor → Act → ConnectionMonitor → Prop
  | callUnRegister (h : m.threads t = .idle) :
      Step m (.callUnRegister t endPoint) (m.setThread t (.unRegistering endPoint))
  | unRegister (h : m.threads t = .unRegistering endPoint) :
      Step m (.unRegister t endPoint) ((m.unRegister endPoint).setThread t .idle)
  | call (h : m.threads t = .idle) : Step m (.call t c) (m.setThread t (.swapping c))
  | swap (h : m.threads t = .swapping c) :
      Step m (.swap t) (m.clear.setThread t (.erasing m.unregisteredEndPoints c))
  | erase (h : m.threads t = .erasing endPoints c)
      (hquiet : ∀ monitor ∈ m.remoteMonitors,
        (∃ endPoint ∈ endPoints, endPoint.uuid = monitor.endPoint.uuid) → monitor.Quiet) :
      Step m (.erase t) ((m.erase endPoints).setThread t (.finishing c))
  | count (h : m.threads t = .finishing .getRemoteConnectionsCount) :
      Step m (.count t m.remoteMonitors.length) (m.setThread t .idle)
  | emplace (h : m.threads t = .finishing (.register endPoint))
      (hnew : ∀ monitor ∈ m.remoteMonitors, monitor.endPoint.uuid ≠ endPoint.uuid) :
      Step m (.emplace t endPoint m.nextId) ((m.emplace endPoint).setThread t .idle)
  | throwDuplicate {isCalled : Bool} (h : m.threads t = .finishing (.register endPoint))
      (hdup : ∃ monitor ∈ m.remoteMonitors, monitor.endPoint.uuid = endPoint.uuid) :
      Step m (.throwDuplicate t endPoint isCalled)
        ((if isCalled then m.unRegister endPoint else m).setThread t .idle)
  | throwInvalidHandle {isCalled : Bool} (h : m.threads t = .finishing (.register endPoint)) :
      Step m (.throwInvalidHandle t endPoint isCalled)
        ((if isCalled then m.unRegister endPoint else m).setThread t .idle)
  | start (h : monitor ∈ m.remoteMonitors) (hwaiter : monitor.waiters kind = .armed) :
      Step m (.start monitor.id kind)
        (m.onWaiter monitor.id kind .armed (HandleMonitor.setWaiter kind .started))
  | exchange (h : monitor ∈ m.remoteMonitors) (hwaiter : monitor.waiters kind = .started) :
      Step m (.exchange monitor.id kind)
        (m.onWaiter monitor.id kind .started (HandleMonitor.exchange kind))
  | callback (h : monitor ∈ m.remoteMonitors) (hwaiter : monitor.waiters kind = .calling) :
      Step m (.callback monitor.id kind)
        (m.onWaiter monitor.id kind .calling (HandleMonitor.setWaiter kind .unRegistering))
  | callbackUnRegister (h : monitor ∈ m.remoteMonitors)
      (hwaiter : monitor.waiters kind = .unRegistering) :
      Step m (.callbackUnRegister monitor.id kind)
        ((m.onWaiter monitor.id kind .unRegistering
          (HandleMonitor.setWaiter kind .finished)).unRegister monitor.endPoint)

/-- The step registers an end point. -/
def Act.Registers (endPoint : EndPointInfo) : Act → Prop
  | .emplace _ endPoint' _ => endPoint'.uuid = endPoint.uuid
  | _ => False

/-- The step is the start of a call that removes the registration of an end point, or of a
disconnect of the end point. -/
def Act.Removes (endPoint : EndPointInfo) (id : Nat) : Act → Prop
  | .callUnRegister _ endPoint' => endPoint'.uuid = endPoint.uuid
  | .throwDuplicate _ endPoint' isCalled | .throwInvalidHandle _ endPoint' isCalled =>
    endPoint'.uuid = endPoint.uuid ∧ isCalled = true
  | .start id' _ => id' = id
  | _ => False

/-- What a thread can expect of the block of its `Register`: it does not find the end point, and
the registration stays until something removes it that starts after the block. -/
structure Reliable (t : Nat) (endPoint : EndPointInfo) (m : ConnectionMonitor) : Prop where
  accepted : ∀ isCalled m', ¬ Step m (.throwDuplicate t endPoint isCalled) m'
  stays : ∀ id m', Step m (.emplace t endPoint id) m' → ∀ acts m'', Run Step m' acts m'' →
    (∀ act ∈ acts, ¬ act.Removes endPoint id) →
      ∃ monitor ∈ m''.remoteMonitors, monitor.id = id ∧ monitor.endPoint = endPoint

/-- No removal of the end point is under way: it is not queued, no thread has it swapped out, and
no call of `UnRegister` stands before its block. -/
structure NoRemoval (endPoint : EndPointInfo) (m : ConnectionMonitor) : Prop where
  queued : ∀ endPoint' ∈ m.unregisteredEndPoints, endPoint'.uuid ≠ endPoint.uuid
  swapped : ∀ t, ∀ endPoint' ∈ (m.threads t).endPoints, endPoint'.uuid ≠ endPoint.uuid
  called : ∀ t endPoint', m.threads t = .unRegistering endPoint' → endPoint'.uuid ≠ endPoint.uuid

end ConnectionMonitor

end L4
