import Mathlib.Logic.Function.Basic
import L4.EpochReferences
import L4.EpochActionManager
import L4.Library.Transition

namespace L4
set_option autoImplicit true

/-- The data members of `EpochManager` that decide when an action is performed. -/
structure EpochManager (Action : Type) where
  currentEpochCounter : Nat
  epochQueue : EpochQueue
  epochActionManager : EpochActionManager Action

namespace EpochManager

/-- A live reference together with the record pointers loaded while holding it. -/
structure Reader (Record : Type) where
  epochCounter : Nat
  loaded : List Record

/-- A writer on its way from unlinking a record to registering the release action. -/
inductive Release (Record : Type) where
  | unlinked (record : Record)
  | counterRead (record : Record) (epochCounter : Nat)

/-- Where the processing thread stands in `Remove(); Add();`. -/
inductive Processing where
  | removing
  | performing (oldestEpochCounter : Nat)
  | incrementing
  | enqueuing

/-- The epoch manager with its readers, its writers and the processing thread. The release
action of a record is named by the record. `published` and `released` are history. -/
structure System (Record : Type) where
  manager : EpochManager Record
  slots : Nat → Option Record
  readers : List (Reader Record)
  releases : List (Release Record)
  processing : Processing
  published : List Record
  released : List Record

inductive Event (Record : Type) where
  | addRef
  | load (slot : Nat)
  | removeRef (epochCounter : Nat)
  | updateRecord (slot : Nat) (newRecord : Option Record)
  | readCounter (record : Record)
  | registerAction (record : Record)
  | removeUnreferenced
  | performActions (performed : List Record)
  | incrementCounter
  | addNewEpoch

variable {Record : Type}

namespace System

abbrev queue (s : System Record) : EpochQueue := s.manager.epochQueue

def setQueue (s : System Record) (q : EpochQueue) : System Record :=
  { s with manager := { s.manager with epochQueue := q } }

abbrev pending (s : System Record) : List (Nat × Record) := s.manager.epochActionManager.pending

/-- The constructor: both counters start at zero and every action queue is empty. -/
def initial (epochQueue : EpochQueue) (numActionQueues : Nat) : System Record where
  manager := ⟨0, epochQueue, ⟨List.replicate numActionQueues .empty, 0⟩⟩
  slots := fun _ => none
  readers := []
  releases := []
  processing := .removing
  published := []
  released := []

/-- The atomic steps of readers, writers and the processing thread. -/
inductive Step : System Record → Event Record → System Record → Prop
  | addRef : Step s .addRef
      { s.setQueue s.queue.addRef.2 with readers := ⟨s.queue.addRef.1, []⟩ :: s.readers }
  | load (i : Nat) (reader : Reader Record) (hreaders : s.readers = before ++ reader :: after)
      (hslot : s.slots i = some record) :
      Step s (.load i)
        { s with
          readers := before ++ { reader with loaded := record :: reader.loaded } :: after }
  | removeRef (hreaders : s.readers = before ++ reader :: after)
      (hq : s.queue.removeRef reader.epochCounter = .ok q) :
      Step s (.removeRef reader.epochCounter)
        { s.setQueue q with readers := before ++ after }
  | updateRecord (i : Nat) (newRecord : Option Record)
      (hnew : ∀ record ∈ newRecord, record ∉ s.published) :
      Step s (.updateRecord i newRecord)
        { s with
          slots := Function.update s.slots i newRecord
          published := newRecord.toList ++ s.published
          releases := (s.slots i).toList.map .unlinked ++ s.releases }
  | readCounter (hreleases : s.releases = before ++ .unlinked record :: after) :
      Step s (.readCounter record)
        { s with
          releases := before ++ .counterRead record s.manager.currentEpochCounter :: after }
  | registerAction (hreleases : s.releases = before ++ .counterRead record epoch :: after) :
      Step s (.registerAction record)
        { s with
          manager := { s.manager with
            epochActionManager := s.manager.epochActionManager.registerAction epoch record }
          releases := before ++ after }
  | removeUnreferenced (hp : s.processing = .removing)
      (hq : s.queue.removeUnreferencedFront = some q) :
      Step s .removeUnreferenced (s.setQueue q)
  | returnFront (hp : s.processing = .removing) (hq : s.queue.removeUnreferencedFront = none) :
      Step s .removeUnreferenced { s with processing := .performing s.queue.frontIndex }
  | performActions (hp : s.processing = .performing oldest) :
      Step s (.performActions (s.manager.epochActionManager.performActions oldest).1)
        { s with
          manager := { s.manager with
            epochActionManager := (s.manager.epochActionManager.performActions oldest).2 }
          processing := .incrementing
          released := s.released ++ (s.manager.epochActionManager.performActions oldest).1 }
  | incrementCounter (hp : s.processing = .incrementing) :
      Step s .incrementCounter
        { s with
          manager := { s.manager with
            currentEpochCounter := (s.manager.currentEpochCounter + 1) % 2 ^ 64 }
          processing := .enqueuing }
  | addNewEpoch (hp : s.processing = .enqueuing) :
      Step s .addNewEpoch { s.setQueue s.queue.addNewEpoch with processing := .removing }

/-- Fewer than `2 ^ 32` live references, and the 64-bit epoch counters do not wrap. -/
def Fits (s : System Record) : Event Record → Prop
  | .addRef => s.readers.length + 1 < 2 ^ 32
  | .incrementCounter => s.manager.currentEpochCounter + 1 < 2 ^ 64
  | _ => True

end System

end EpochManager

end L4
