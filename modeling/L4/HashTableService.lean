import L4.RecordOwnership

namespace L4
set_option autoImplicit true
open EpochManager (Processing)
open RecordOwnership (Linear)
open TableThreads (Label Quiescent addresses)
open Transition (Run)

/-- The members of `HashTableService`: the tables of `m_hashTableManager` and `m_epochManager`,
with the epochs that the contexts reference and where the processing thread stands. `released` is
history. -/
structure HashTableService where
  hashTables : List HashTable
  epochManager : EpochManager (Nat × RecordBuffer)
  contexts : List Nat
  processing : Processing
  released : List (Nat × RecordBuffer)

namespace HashTableService

/-- The tables and the action manager that they share. -/
def tables (s : HashTableService) : RecordOwnership.System :=
  ⟨s.hashTables, s.epochManager.epochActionManager, s.released⟩

def setTables (s : HashTableService) (tables : RecordOwnership.System) : HashTableService :=
  { s with
    hashTables := tables.hashTables
    epochManager := { s.epochManager with epochActionManager := tables.epochActionManager }
    released := tables.released }

def setQueue (s : HashTableService) (epochQueue : EpochQueue) : HashTableService :=
  { s with epochManager := { s.epochManager with epochQueue } }

/-- The constructor. -/
def create (epochQueueSize : Nat) (numActionQueues : UInt16) :
    Except Failure HashTableService := do
  let epochQueue ← EpochQueue.create 0 epochQueueSize
  let tables := RecordOwnership.initial numActionQueues
  return ⟨[], ⟨0, epochQueue, tables.epochActionManager⟩, [], .removing, []⟩

inductive Event where
  | tables (event : RecordOwnership.Event)
  | getContext
  | destroyContext (epochCounter : Nat)
  | removeUnreferenced
  | performActions (performed : List (Nat × RecordBuffer))
  | incrementCounter
  | addNewEpoch

/-- What the users of the service do to the tables. The epoch of an action is the current one or,
if the counter has been read earlier, one before it. -/
def Admits (s : HashTableService) : RecordOwnership.Event → Prop
  | .addHashTable => True
  | .step _ epochCounter => epochCounter ≤ s.epochManager.currentEpochCounter
  | .performActions _ => False

/-- The steps of the users and of the processing thread. -/
inductive Step [Platform] : HashTableService → Event → HashTableService → Prop
  | tables (hstep : RecordOwnership.Step s.tables event tables') (hevent : s.Admits event) :
      Step s (.tables event) (s.setTables tables')
  | getContext : Step s .getContext
      { s.setQueue s.epochManager.epochQueue.addRef.2 with
        contexts := s.epochManager.epochQueue.addRef.1 :: s.contexts }
  | destroyContext (hcontexts : s.contexts = before ++ epochCounter :: after)
      (hq : s.epochManager.epochQueue.removeRef epochCounter = .ok q) :
      Step s (.destroyContext epochCounter) { s.setQueue q with contexts := before ++ after }
  | removeUnreferenced (hp : s.processing = .removing)
      (hq : s.epochManager.epochQueue.removeUnreferencedFront = some q) :
      Step s .removeUnreferenced (s.setQueue q)
  | returnFront (hp : s.processing = .removing)
      (hq : s.epochManager.epochQueue.removeUnreferencedFront = none) :
      Step s .removeUnreferenced
        { s with processing := .performing s.epochManager.epochQueue.frontIndex }
  | performActions (hp : s.processing = .performing oldest) :
      Step s (.performActions (s.epochManager.epochActionManager.performActions oldest).1)
        { s with
          epochManager := { s.epochManager with
            epochActionManager := (s.epochManager.epochActionManager.performActions oldest).2 }
          processing := .incrementing
          released := s.released ++
            (s.epochManager.epochActionManager.performActions oldest).1 }
  | incrementCounter (hp : s.processing = .incrementing) :
      Step s .incrementCounter
        { s with
          epochManager := { s.epochManager with
            currentEpochCounter := (s.epochManager.currentEpochCounter + 1) % 2 ^ 64 }
          processing := .enqueuing }
  | addNewEpoch (hp : s.processing = .enqueuing) :
      Step s .addNewEpoch
        { s.setQueue s.epochManager.epochQueue.addNewEpoch with processing := .removing }

/-- The service can be destroyed: there are no contexts and no operations in flight, and the
processing thread is between two rounds. -/
structure Idle (s : HashTableService) : Prop where
  contexts : s.contexts = []
  quiescent : ∀ table ∈ s.hashTables, Quiescent table.system
  joined : s.processing = .removing

/-- What the destructor deallocates. `~EpochManager` runs first: it joins the thread and drops the
actions that are pending. Then `~HashTableManager` destroys the tables. -/
def destructor (s : HashTableService) : List (Nat × Block) :=
  s.hashTables.zipIdx.flatMap fun x => x.1.system.shared.hashTable.destroy.map (Prod.mk x.2)

/-- What has been deallocated after the destructor. -/
def deallocated (s : HashTableService) : List (Nat × Block) :=
  s.released.map (fun x => (x.1, .record x.2.address)) ++ s.destructor

/-- The block of a record. -/
def block (x : Nat × Nat) : Nat × Block := (x.1, .record x.2)

theorem block_injective : Function.Injective block := by
  rintro ⟨k, a⟩ ⟨k', a'⟩ h
  obtain ⟨hk, ha⟩ := Prod.mk.inj h
  exact Prod.ext hk (Block.record.inj ha)

theorem destructor_perm (s : HashTableService) :
    s.destructor.Perm (s.tables.linked.map block ++ s.hashTables.zipIdx.flatMap fun x =>
      x.1.system.shared.hashTable.chained.map (Prod.mk x.2)) := by
  rw [RecordOwnership.System.linked, HashTable.named, List.map_flatMap]
  refine .trans ?_ (List.flatMap_append_perm _ _ _).symm
  refine List.Perm.flatMap_left _ fun x _ => ?_
  have hdestroy := (SharedHashTable.destroy_perm x.1.system.shared.hashTable).map (Prod.mk x.2)
  rw [List.map_append, List.map_map] at hdestroy
  rw [TableThreads.linked, addresses, List.map_map, List.map_map]
  exact hdestroy

theorem count_destructor (s : HashTableService) (x : Nat × Nat) :
    s.destructor.count (block x) = s.tables.linked.count x := by
  have hchained : (s.hashTables.zipIdx.flatMap fun x =>
      x.1.system.shared.hashTable.chained.map (Prod.mk x.2)).count (block x) = 0 := by
    refine List.count_eq_zero.mpr fun hmem => ?_
    obtain ⟨y, -, hmem⟩ := List.mem_flatMap.mp hmem
    obtain ⟨entry, hentry, heq⟩ := List.mem_map.mp hmem
    obtain ⟨i, place, -, -, rfl⟩ := SharedHashTable.mem_chained.mp hentry
    cases (Prod.mk.inj heq).2
  rw [s.destructor_perm.count_eq, List.count_append, hchained,
    List.count_map_of_injective _ _ block_injective, Nat.add_zero]

theorem count_deallocated (s : HashTableService) (x : Nat × Nat) :
    s.deallocated.count (block x) = s.tables.releasedRecords.count x + s.tables.linked.count x := by
  have hreleased : s.released.map (fun x => (x.1, .record x.2.address)) =
      s.tables.releasedRecords.map block := by
    rw [RecordOwnership.System.releasedRecords, List.map_map]
    rfl
  rw [deallocated, List.count_append, count_destructor, hreleased,
    List.count_map_of_injective _ _ block_injective]

section Run
variable [Platform] {s s' : HashTableService}

/-- A step of the service is one of the tables and the action manager, or it leaves them alone. -/
theorem Step.refines (h : Step s event s') :
    s'.tables = s.tables ∨ ∃ event', RecordOwnership.Step s.tables event' s'.tables := by
  cases h with
  | tables hstep hevent => exact .inr ⟨_, hstep⟩
  | performActions hp => exact .inr ⟨_, .performActions _⟩
  | _ => exact .inl rfl

theorem tables_linear (hqueues : numActionQueues ≠ 0)
    (hcreate : create epochQueueSize numActionQueues = .ok s) (hrun : Run Step s events s') :
    Linear s'.tables := by
  have hinitial : s.tables = RecordOwnership.initial numActionQueues := by
    rw [create] at hcreate
    cases hq : EpochQueue.create 0 epochQueueSize with
    | error e =>
      rw [hq] at hcreate
      cases hcreate
    | ok q =>
      rw [hq] at hcreate
      obtain rfl := Except.ok.inj hcreate
      rfl
  refine hrun.invariant (I := fun s => Linear s.tables) (fun s _ s' h hstep => ?_) ?_
  · rcases hstep.refines with heq | ⟨event, hstep⟩
    · exact heq ▸ h
    · exact h.step hstep
  · rw [hinitial]
    exact RecordOwnership.initial_linear hqueues

theorem deallocated_once (h : Linear s.tables) (hidle : s.Idle) :
    (∀ x ∈ s.tables.published, s.deallocated.count (block x) = 1) ↔
      s.epochManager.epochActionManager.pending = [] := by
  have hcount (x : Nat × Nat) : s.deallocated.count (block x) + s.tables.pending.count x =
      s.tables.published.count x := by
    have hplaces := h.places.count_eq x
    rw [RecordOwnership.System.held_eq_nil hidle.quiescent] at hplaces
    simp only [List.count_append, List.count_nil] at hplaces
    rw [s.count_deallocated]
    omega
  have hpending : s.epochManager.epochActionManager.pending = [] ↔ s.tables.pending = [] := by
    rw [RecordOwnership.System.pending, List.map_eq_nil_iff, List.map_eq_nil_iff, tables]
  rw [hpending, List.eq_nil_iff_forall_not_mem]
  constructor
  · intro honce x hx
    have hpos := List.count_pos_iff.mpr hx
    have hle := List.nodup_iff_count_le_one.mp h.nodup x
    have hsum := hcount x
    have hone := honce x (List.count_pos_iff.mp (by omega))
    omega
  · intro hnone x hx
    have hzero := List.count_eq_zero.mpr (hnone x)
    have hone := List.count_eq_one_of_mem h.nodup hx
    have hsum := hcount x
    omega

/-- When the service is destroyed, every published record has been deallocated once if and only if
no release action was pending when the processing thread was joined. -/
theorem deallocated_once_iff (epochQueueSize : Nat) (numActionQueues : UInt16)
    (hqueues : numActionQueues ≠ 0) (s₀ : HashTableService)
    (hcreate : create epochQueueSize numActionQueues = .ok s₀) (events : List Event)
    (s : HashTableService) (hrun : Run Step s₀ events s) (hidle : s.Idle) :
    (∀ x ∈ s.tables.published, s.deallocated.count (block x) = 1) ↔
      s.epochManager.epochActionManager.pending = [] :=
  deallocated_once (tables_linear hqueues hcreate hrun) hidle

theorem run_tables {tables' : RecordOwnership.System}
    (hrun : Run RecordOwnership.Step s.tables events tables')
    (hevents : ∀ event ∈ events, event = .addHashTable ∨ event = .step 0 0) :
    Run Step s (events.map .tables) (s.setTables tables') := by
  induction events generalizing s with
  | nil =>
    cases hrun
    exact .nil
  | cons event events ih =>
    obtain ⟨hevent, hevents⟩ := List.forall_mem_cons.mp hevents
    cases hrun with
    | cons hstep hrest =>
      have hadmits : s.Admits event := by
        rcases hevent with rfl | rfl
        · trivial
        · exact Nat.zero_le _
      exact .cons (.tables hstep hadmits) (ih (s := s.setTables _) hrest hevents)

theorem run_overwritten : ∃ s₀ events s record, create 1 1 = .ok s₀ ∧ Run Step s₀ events s ∧
    s.Idle ∧ s.tables.published ≠ [] ∧ s.epochManager = ⟨0, ⟨0, 0, [0], by simp⟩,
      (RecordOwnership.initial 1).epochActionManager.registerAction 0 (0, record)⟩ := by
  obtain ⟨events, tables', record, hrun, hevents, hquiescent, hpublished, hmanager⟩ :=
    RecordOwnership.run_overwritten
  let q : EpochQueue := ⟨0, 0, [0], by simp⟩
  let s₀ : HashTableService :=
    ⟨[], ⟨0, q, (RecordOwnership.initial 1).epochActionManager⟩, [], .removing, []⟩
  let s₁ : HashTableService := { s₀.setQueue q.addRef.2 with contexts := [0] }
  have hget : Step s₀ .getContext s₁ := .getContext
  have htables : Run Step s₁ _ (s₁.setTables tables') := run_tables hrun hevents
  have hq : q.addRef.2.removeRef 0 = .ok q := rfl
  have hdestroy : Step (s₁.setTables tables') (.destroyContext 0) _ :=
    .destroyContext (rfl : _ = [] ++ 0 :: []) hq
  exact ⟨s₀, _, _, record, rfl, .cons hget (htables.append (.single hdestroy)),
    ⟨rfl, hquiescent, rfl⟩, hpublished, congrArg (EpochManager.mk 0 q) hmanager⟩

omit [Platform] in
theorem pending_overwritten (record : RecordBuffer) :
    ((RecordOwnership.initial 1).epochActionManager.registerAction 0 (0, record)).pending =
      [(0, 0, record)] :=
  List.perm_singleton.mp (EpochActionManager.pending_registerAction (by decide) 0 (0, record))

omit [Platform] in
/-- A record is overwritten and the service is destroyed after two rounds of the processing
thread. -/
theorem deallocated_once_iff_of_rounds :
    let _ : Platform := ⟨fun _ => (7, 0), 8, 64⟩
    ∃ s₀ events s, create 1 1 = .ok s₀ ∧ Run Step s₀ events s ∧ s.tables.published ≠ [] ∧
      ∀ x ∈ s.tables.published, s.deallocated.count (block x) = 1 := by
  intro _
  obtain ⟨s₀, events, ⟨hashTables, m, contexts, processing, released⟩, record, hcreate, hrun, hidle,
    hpublished, hm⟩ := run_overwritten
  obtain rfl : processing = .removing := hidle.joined
  obtain rfl : m = _ := hm
  have hrounds := hrun.append (.cons (.returnFront rfl rfl) (.cons (.performActions rfl)
    (.cons (.incrementCounter rfl) (.cons (.addNewEpoch rfl) (.cons (.removeUnreferenced rfl rfl)
      (.cons (.returnFront rfl rfl) (.cons (.performActions rfl) (.cons (.incrementCounter rfl)
        (.single (.addNewEpoch rfl))))))))))
  refine ⟨s₀, _, _, hcreate, hrounds, hpublished,
    (deallocated_once_iff 1 1 (by decide) s₀ hcreate _ _ hrounds
      ⟨hidle.contexts, hidle.quiescent, rfl⟩).mpr ?_⟩
  refine List.eq_nil_iff_forall_not_mem.mpr fun action hmem => ?_
  obtain ⟨hmem, hle⟩ := EpochActionManager.mem_pending_performActions.mp hmem
  have hpending := (EpochActionManager.mem_pending_performActions.mp hmem).1
  rw [pending_overwritten, List.mem_singleton] at hpending
  obtain rfl := hpending
  exact absurd (show 1 ≤ 0 from hle) (by decide)

omit [Platform] in
/-- A record is overwritten and the service is destroyed before the processing thread has performed
the release. -/
theorem not_deallocated :
    let _ : Platform := ⟨fun _ => (7, 0), 8, 64⟩
    ¬ ∀ s₀ events s, create 1 1 = .ok s₀ → Run Step s₀ events s → s.Idle →
      ∀ x ∈ s.tables.published, s.deallocated.count (block x) = 1 := by
  intro _ h
  obtain ⟨s₀, events, s, record, hcreate, hrun, hidle, -, hm⟩ := run_overwritten
  have hnil := (deallocated_once (tables_linear (by decide) hcreate hrun) hidle).mp
    (h s₀ events s hcreate hrun hidle)
  rw [hm, pending_overwritten] at hnil
  cases hnil

end Run

end HashTableService

end L4
