import L4.EpochSafety
import L4.HashTableService
import L4.TableLinearizability

namespace L4
set_option autoImplicit true
open EpochManager (Processing)
open ReadWrite (unlinked_of_load)
open RecordOwnership (Linear registerActions)
open TableThreads (Act Label Thread addresses)
open ThreadPool (NumberedStep)
open Transition (Run Guarded)

/-! Users that read records through their contexts while others release records. -/

namespace TableThreads

/-- The record that a step of `Get` has read. No two records of a table have one key. -/
def readBy {config : HashTableConfig} (t : Table config) (th th' : Thread config.setting) :
    List RecordBuffer :=
  match th.phase, th'.phase with
  | .getting key, .got (some _) | .getting key, .found _ _ =>
    t.hashTable.records.filter fun r => config.recordSerializer.keyOf r = key
  | _, _ => []

/-- What the thread with the given number has read between two states. -/
def readIn {config : HashTableConfig} (p p' : System config) (user : Nat) : List RecordBuffer :=
  match p.threads[user]?, p'.threads[user]? with
  | some th, some th' => readBy p.shared th th'
  | _, _ => []

end TableThreads

/-- A context with the number of its user, the epoch that it references, and the records that have
been read through it. A record is named by the number of its table and its address. -/
structure Context where
  user : Nat
  epochCounter : Nat
  read : List (Nat × Nat)

/-- A service and its users. Each user has a thread of its number in every table. `unlinkedAt` is
history: the current epoch when a record has left its slot. -/
structure ServiceUsers where
  service : HashTableService
  contexts : List Context
  unlinkedAt : Nat × Nat → Nat

namespace ServiceUsers

/-- An act of a user is on a table, and shows that the user calls it or returns from it. -/
inductive Event where
  | addHashTable
  | act (user table : Nat)
      (shown : Option (Linearizability.Event TableThreads.Call (Except Failure Cache.Response)))
  | getContext
  | destroyContext
  | processing (event : HashTableService.Event)

def isProcessing : HashTableService.Event → Bool
  | .removeUnreferenced | .performActions _ | .incrementCounter | .addNewEpoch => true
  | _ => false

abbrev currentEpochCounter (s : ServiceUsers) : Nat := s.service.epochManager.currentEpochCounter

abbrev epochQueue (s : ServiceUsers) : EpochQueue := s.service.epochManager.epochQueue

/-- The user has no operation in flight. -/
def IdleUser (s : ServiceUsers) (user : Nat) : Prop :=
  ∀ table ∈ s.service.hashTables, ∀ th, table.system.threads[user]? = some th → th = ⟨[], .idle⟩

/-- After a step of the tables. -/
def setTables (s : ServiceUsers) (tables : RecordOwnership.System) : ServiceUsers :=
  { s with
    service := s.service.setTables tables
    unlinkedAt := fun x => if x ∈ s.service.tables.linked ∧ x ∉ tables.linked then
      s.currentEpochCounter else s.unlinkedAt x }

/-- The steps of the users and of the processing thread. A user calls the tables while it has a
context, and returns from its calls before it destroys one. `RegisterAction` is given a value that
`m_currentEpochCounter` has had since the record has left its slot. -/
inductive Step [Platform] : ServiceUsers → Event → ServiceUsers → Prop
  | addHashTable (config : HashTableConfig) (allocator : Allocator) (numThreads : Nat) :
      Step s .addHashTable (s.setTables { s.service.tables with
        hashTables := s.service.hashTables ++ [.create config allocator numThreads] })
  | act (hcontexts : s.contexts = before ++ context :: after)
      (htables : s.service.hashTables = tables ++ table :: tables')
      (hstep : NumberedStep (Act table.config) table.system (context.user, label) system)
      (hepoch : ∀ record ∈ label.registered,
        s.unlinkedAt (tables.length, record.address) ≤ epochCounter)
      (hcurrent : epochCounter ≤ s.currentEpochCounter) :
      Step s (.act context.user tables.length label.event?)
        { s.setTables { s.service.tables with
            hashTables := tables ++ table.after label system :: tables'
            epochActionManager := registerActions epochCounter
              (label.registered.map (Prod.mk tables.length)) s.service.tables.epochActionManager }
          with
          contexts := before ++ { context with
            read := (addresses (TableThreads.readIn table.system system context.user)).map
              (Prod.mk tables.length) ++ context.read } :: after }
  | getContext (user : Nat) : Step s .getContext
      { s with
        service := { s.service.setQueue s.epochQueue.addRef.2 with
          contexts := s.epochQueue.addRef.1 :: s.service.contexts }
        contexts := ⟨user, s.epochQueue.addRef.1, []⟩ :: s.contexts }
  | destroyContext (hcontexts : s.contexts = before ++ context :: after)
      (hidle : s.IdleUser context.user)
      (hq : s.epochQueue.removeRef context.epochCounter = .ok q) :
      Step s .destroyContext
        { s with
          service := { s.service.setQueue q with
            contexts := (before ++ after).map Context.epochCounter }
          contexts := before ++ after }
  | processing (hstep : HashTableService.Step s.service event service')
      (hevent : isProcessing event) : Step s (.processing event) { s with service := service' }

/-- A new service without users. -/
def create (epochQueueSize : Nat) (numActionQueues : UInt16) : Except Failure ServiceUsers :=
  (HashTableService.create epochQueueSize numActionQueues).map fun service =>
    ⟨service, [], fun _ => 0⟩

/-- Fewer than `2 ^ 32` contexts, and the 64-bit epoch counters do not wrap. -/
def Fits (s : ServiceUsers) : Event → Prop
  | .getContext => s.contexts.length + 1 < 2 ^ 32
  | .processing .incrementCounter => s.currentEpochCounter + 1 < 2 ^ 64
  | _ => True

end ServiceUsers

end L4
