import L4.TableDestructor
import L4.TableThreadOwnership
import L4.TableThreadRuns

namespace L4
set_option autoImplicit true
open TableThreads (Label Owned Quiescent linked held addresses)
open Transition (Run)

/-- A table with the threads that work on it and the addresses that its `Add`s have published. -/
structure HashTable where
  config : HashTableConfig
  system : TableThreads.System config
  published : List Nat

namespace HashTable

def create [Platform] (config : HashTableConfig) (allocator : Allocator) (numThreads : Nat) :
    HashTable :=
  ⟨config, TableThreads.initial config allocator numThreads, []⟩

/-- The table after a step with the given label. -/
def after (table : HashTable) (label : Label table.config.setting)
    (system : TableThreads.System table.config) : HashTable :=
  ⟨table.config, system, table.published ++ addresses label.published⟩

/-- What the tables with the numbers from `n` on have, each under the number of its table. -/
def named (f : HashTable → List Nat) (n : Nat) (tables : List HashTable) : List (Nat × Nat) :=
  (tables.zipIdx n).flatMap fun x => (f x.1).map (Prod.mk x.2)

theorem named_append (f : HashTable → List Nat) (n : Nat) (before after : List HashTable) :
    named f n (before ++ after) = named f n before ++ named f (n + before.length) after := by
  rw [named, List.zipIdx_append, List.flatMap_append, named, named]

theorem named_cons (f : HashTable → List Nat) (n : Nat) (table : HashTable)
    (tables : List HashTable) :
    named f n (table :: tables) = (f table).map (Prod.mk n) ++ named f (n + 1) tables := by
  rw [named, List.zipIdx_cons, List.flatMap_cons, named]

theorem count_named (f : HashTable → List Nat) (before after : List HashTable)
    (table : HashTable) (x : Nat × Nat) :
    (named f 0 (before ++ table :: after)).count x = (named f 0 before).count x +
      ((f table).map (Prod.mk before.length)).count x +
      (named f (before.length + 1) after).count x := by
  rw [named_append, named_cons, List.count_append, List.count_append, Nat.zero_add, Nat.add_assoc]

theorem le_of_mem_named (h : x ∈ named f n tables) : n ≤ x.1 := by
  obtain ⟨⟨table, k⟩, hk, hx⟩ := List.mem_flatMap.mp h
  obtain ⟨a, -, rfl⟩ := List.mem_map.mp hx
  exact (List.mem_zipIdx hk).1

theorem nodup_named (h : ∀ table ∈ tables, (f table).Nodup) : (named f n tables).Nodup := by
  induction tables generalizing n with
  | nil => exact List.nodup_nil
  | cons table tables ih =>
    obtain ⟨htable, htables⟩ := List.forall_mem_cons.mp h
    rw [named_cons]
    refine List.nodup_append.mpr ⟨?_, ih htables, ?_⟩
    · exact (List.nodup_map_iff fun a b hab => (Prod.mk.inj hab).2).mpr htable
    · rintro x hx y hy rfl
      obtain ⟨a, -, rfl⟩ := List.mem_map.mp hx
      exact Nat.lt_irrefl n (le_of_mem_named hy)

end HashTable

namespace RecordOwnership
open HashTable (named)

/-- Tables that share an action manager. A release action is named by the number of its table and
its record. `released` is history. -/
structure System where
  hashTables : List HashTable
  epochActionManager : EpochActionManager (Nat × RecordBuffer)
  released : List (Nat × RecordBuffer)

inductive Event where
  | addHashTable
  | step (table epochCounter : Nat)
  | performActions (performed : List (Nat × RecordBuffer))

/-- The actions are registered one after the other. -/
def registerActions (epochCounter : Nat) (actions : List (Nat × RecordBuffer))
    (m : EpochActionManager (Nat × RecordBuffer)) : EpochActionManager (Nat × RecordBuffer) :=
  actions.foldl (·.registerAction epochCounter ·) m

/-- The steps of the threads on their tables and of the action manager. A table that is loaded
from a stream is a new one to which the records are added. -/
inductive Step [Platform] : System → Event → System → Prop
  | addHashTable (config : HashTableConfig) (allocator : Allocator) (numThreads : Nat) :
      Step s .addHashTable
        { s with hashTables := s.hashTables ++ [.create config allocator numThreads] }
  | step (epochCounter : Nat) (label : Label table.config.setting)
      (htables : s.hashTables = before ++ table :: after)
      (hstep : TableThreads.Step table.config table.system label system) :
      Step s (.step before.length epochCounter)
        { s with
          hashTables := before ++ table.after label system :: after
          epochActionManager := registerActions epochCounter
            (label.registered.map (Prod.mk before.length)) s.epochActionManager }
  | performActions (epochCounter : Nat) :
      Step s (.performActions (s.epochActionManager.performActions epochCounter).1)
        { s with
          epochActionManager := (s.epochActionManager.performActions epochCounter).2
          released := s.released ++ (s.epochActionManager.performActions epochCounter).1 }

/-- The constructor of the action manager has asserted that there is a queue. -/
def initial (numActionQueues : UInt16) : System :=
  ⟨[], ⟨List.replicate numActionQueues.toNat .empty, 0⟩, []⟩

namespace System
variable (s : System)

/-- The records by the number of their table and their address: those that are stored, those in
the hands of a thread, those with a pending release action, those released, and those that have
been published. -/
def linked : List (Nat × Nat) :=
  named (fun table => TableThreads.linked table.system) 0 s.hashTables

def held : List (Nat × Nat) := named (fun table => TableThreads.held table.system) 0 s.hashTables

def name (x : Nat × RecordBuffer) : Nat × Nat := (x.1, x.2.address)

def pending : List (Nat × Nat) := (s.epochActionManager.pending.map Prod.snd).map name

def releasedRecords : List (Nat × Nat) := s.released.map name

def published : List (Nat × Nat) := named HashTable.published 0 s.hashTables

end System

section Actions
variable {m : EpochActionManager (Nat × RecordBuffer)}

/-- The number of the queues, which is below the greatest `size_t`. -/
def Queues (m : EpochActionManager (Nat × RecordBuffer)) : Prop :=
  0 < m.epochToActionsList.length ∧ m.epochToActionsList.length ≤ 2 ^ 64

theorem Queues.registerActions (h : Queues m) (epochCounter : Nat)
    (actions : List (Nat × RecordBuffer)) :
    Queues (RecordOwnership.registerActions epochCounter actions m) := by
  induction actions generalizing m with
  | nil => exact h
  | cons action actions ih =>
    refine ih (m := m.registerAction epochCounter action) ?_
    rwa [Queues, EpochActionManager.length_registerAction]

theorem Queues.pending_registerActions (h : Queues m) (epochCounter : Nat)
    (actions : List (Nat × RecordBuffer)) :
    ((RecordOwnership.registerActions epochCounter actions m).pending.map Prod.snd).Perm
      (actions ++ m.pending.map Prod.snd) := by
  induction actions generalizing m with
  | nil => exact .refl _
  | cons action actions ih =>
    have hindex := EpochActionManager.nextIndex_lt h.1 h.2
    have hone := EpochActionManager.pending_registerAction hindex epochCounter action
    have hrest := ih (h.registerActions epochCounter [action])
    exact hrest.trans (((hone.map Prod.snd).append_left actions).trans List.perm_middle)

end Actions

section Run
variable [Platform] {s s' : System}

/-- Every record has one place. -/
structure Linear (s : System) : Prop where
  places : (s.linked ++ s.held ++ s.pending ++ s.releasedRecords).Perm s.published
  hashTables : ∀ table ∈ s.hashTables, Owned table.published table.system
  queues : Queues s.epochActionManager

theorem initial_linear (hqueues : numActionQueues ≠ 0) : Linear (initial numActionQueues) := by
  have hlength : (initial numActionQueues).epochActionManager.epochToActionsList.length =
      numActionQueues.toNat := List.length_replicate
  have hpending : (initial numActionQueues).epochActionManager.pending = [] :=
    List.flatMap_eq_nil_iff.mpr fun q hq => by
      rw [List.eq_of_mem_replicate hq]
      rfl
  refine ⟨?_, fun table htable => absurd htable List.not_mem_nil, ?_, ?_⟩
  · rw [System.pending, hpending]
    exact .refl _
  · rw [hlength]
    exact Nat.pos_of_ne_zero fun h0 => hqueues (UInt16.toNat_inj.mp h0)
  · rw [hlength]
    exact Nat.le_trans (Nat.le_of_lt numActionQueues.toNat_lt) (by decide)

omit [Platform] in
theorem named_add {f : HashTable → List Nat} (hf : f table = []) (tables : List HashTable) :
    named f 0 (tables ++ [table]) = named f 0 tables := by
  rw [HashTable.named_append, HashTable.named_cons, hf]
  exact List.append_nil _

theorem Linear.step (h : Linear s) (hstep : Step s event s') : Linear s' := by
  cases hstep with
  | addHashTable config allocator numThreads =>
    have hquiescent := TableThreads.quiescent_initial config allocator numThreads
    refine ⟨?_, ?_, h.queues⟩
    · simp only [System.linked, System.held, System.published]
      rw [named_add (TableThreads.linked_initial config allocator numThreads),
        named_add (hquiescent.flatMap_eq_nil rfl), named_add rfl]
      exact h.places
    · intro table htable
      rcases List.mem_append.mp htable with htable | htable
      · exact h.hashTables table htable
      · obtain rfl := List.mem_singleton.mp htable
        exact TableThreads.initial_owned config allocator numThreads
  | @step before table after system _ epochCounter label htables hstep =>
    have howned : Owned table.published table.system := h.hashTables table (by simp [htables])
    refine ⟨?_, ?_, h.queues.registerActions _ _⟩
    · rw [List.perm_iff_count]
      intro x
      have htable := ((howned.passesOn hstep).map (Prod.mk before.length)).count_eq x
      have hpending := ((h.queues.pending_registerActions epochCounter
        (label.registered.map (Prod.mk before.length))).map System.name).count_eq x
      have hplaces := h.places.count_eq x
      have hname : System.name ∘ Prod.mk before.length = Prod.mk before.length ∘ (·.address) := rfl
      simp only [List.map_append, List.count_append, List.map_map, hname] at htable hpending
      simp only [System.linked, System.held, System.published, System.pending,
        System.releasedRecords, htables, HashTable.count_named, List.count_append, List.map_map,
        HashTable.after, List.map_append] at hplaces ⊢
      omega
    · intro table' htable'
      rcases List.mem_append.mp htable' with hmem | hmem
      · exact h.hashTables table' (htables ▸ List.mem_append_left _ hmem)
      · rcases List.mem_cons.mp hmem with rfl | hmem
        · exact howned.step hstep
        · exact h.hashTables table'
            (htables ▸ List.mem_append_right _ (List.mem_cons_of_mem _ hmem))
  | performActions epochCounter =>
    refine ⟨?_, h.hashTables, ?_⟩
    · rw [List.perm_iff_count]
      intro x
      have hperformed :=
        ((s.epochActionManager.pending_performActions epochCounter).map System.name).count_eq x
      have hplaces := h.places.count_eq x
      simp only [System.linked, System.held, System.published, System.pending,
        System.releasedRecords, List.map_append, List.count_append] at hperformed hplaces ⊢
      omega
    · have hqueues := h.queues
      rwa [Queues, ← EpochActionManager.length_performActions _ epochCounter] at hqueues

theorem Linear.nodup (h : Linear s) : s.published.Nodup :=
  HashTable.nodup_named fun table htable => (h.hashTables table htable).nodup

theorem Linear.count_of_held (h : Linear s) (hx : x ∈ s.held) :
    (s.linked ++ s.pending ++ s.releasedRecords).count x = 0 := by
  have hheld := List.count_pos_iff.mpr hx
  have hplaces := h.places.count_eq x
  have hnodup := List.nodup_iff_count_le_one.mp h.nodup x
  simp only [List.count_append] at hplaces ⊢
  omega

theorem Linear.nodup_linked (h : Linear s) (htable : table ∈ s.hashTables) :
    (TableThreads.linked table.system).Nodup := by
  obtain ⟨before, after, htables⟩ := List.append_of_mem htable
  have hnodup : s.linked.Nodup := by
    have hplaces := h.places.nodup_iff.mpr h.nodup
    simp only [List.append_assoc] at hplaces
    exact (List.nodup_append.mp hplaces).1
  rw [System.linked, htables, HashTable.named_append, HashTable.named_cons] at hnodup
  exact .of_map _ (List.nodup_append.mp (List.nodup_append.mp hnodup).2.1).1

omit [Platform] in
theorem System.held_eq_nil (h : ∀ table ∈ s.hashTables, Quiescent table.system) : s.held = [] := by
  refine List.flatMap_eq_nil_iff.mpr fun x hx => ?_
  obtain ⟨table, k⟩ := x
  have htable := List.fst_mem_of_mem_zipIdx hx
  exact List.map_eq_nil_iff.mpr ((h table htable).flatMap_eq_nil rfl)

/-- Every published record has one place: a slot, the hands of a thread, a pending release action
or the released ones. Outside critical sections only an `Add` after its own holds a record. The
release actions that are performed are no longer pending, and the destructor of a table releases
what is left in it. -/
theorem linear_of_run (numActionQueues : UInt16) (hqueues : numActionQueues ≠ 0)
    (events : List Event) (s : System)
    (hrun : Run Step (initial numActionQueues) events s) :
    (s.linked ++ s.held ++ s.pending ++ s.releasedRecords).Perm s.published ∧
    s.published.Nodup ∧
    (∀ table ∈ s.hashTables, ∀ th ∈ table.system.threads, th.HoldsInside) ∧
    ((∀ table ∈ s.hashTables, Quiescent table.system) → s.held = []) ∧
    (∀ performed s', Step s (.performActions performed) s' → s'.hashTables = s.hashTables ∧
      (performed.map System.name ++ s'.pending).Perm s.pending ∧
      s'.releasedRecords = s.releasedRecords ++ performed.map System.name) ∧
    ∀ table ∈ s.hashTables, table.system.shared.hashTable.destroy.Nodup ∧
      ∀ block, block ∈ table.system.shared.hashTable.destroy ↔
        (∃ slot record, table.system.shared.hashTable.load slot = some record ∧
          block = .record record.address) ∨
        ∃ (i : table.config.setting.BucketIndex) (place : Nat), 0 < place ∧
          place < table.system.shared.hashTable.buckets[i].chainLength ∧
          block = .entry i place := by
  have h : Linear s := hrun.invariant (fun _ _ _ h hstep => h.step hstep) (initial_linear hqueues)
  refine ⟨h.places, h.nodup, fun table htable => (h.hashTables table htable).holdsInside,
    System.held_eq_nil, fun performed s' hstep => ?_, fun table htable => ?_⟩
  · cases hstep with
    | performActions epochCounter =>
      have hperformed := (s.epochActionManager.pending_performActions epochCounter).map System.name
      rw [List.map_append] at hperformed
      exact ⟨rfl, hperformed, List.map_append⟩
  · exact ⟨SharedHashTable.nodup_destroy (h.nodup_linked htable),
      fun block => SharedHashTable.mem_destroy⟩

theorem run_steps (epochCounter : Nat) (before after : List HashTable)
    (released : List (Nat × RecordBuffer)) (hrun : Run (TableThreads.Step config) p labels p')
    (published : List Nat) (m : EpochActionManager (Nat × RecordBuffer)) :
    Run Step ⟨before ++ ⟨config, p, published⟩ :: after, m, released⟩
      (labels.map fun _ => .step before.length epochCounter)
      ⟨before ++ ⟨config, p', published ++ addresses (labels.flatMap Label.published)⟩ :: after,
        registerActions epochCounter
          ((labels.flatMap Label.registered).map (Prod.mk before.length)) m, released⟩ := by
  induction hrun generalizing published m with
  | nil =>
    simp only [List.flatMap_nil, addresses, List.map_nil, List.append_nil]
    exact .nil
  | @cons p label p₁ labels p' hstep hrest ih =>
    have hone : Step ⟨before ++ ⟨config, p, published⟩ :: after, m, released⟩ _ _ :=
      .step epochCounter label rfl hstep
    have hrun := Run.cons hone (ih _ _)
    simpa only [HashTable.after, List.flatMap_cons, List.map_cons, addresses, List.map_append,
      List.append_assoc, registerActions, List.foldl_append] using hrun

theorem run_overwrite (setting : Setting) (hb : setting.numBuckets ≠ 0) (record : Record)
    (hv : setting.recordSerializer.Validates record.key record.value) :
    ∃ r₀ r₁ labels₀ labels₁ labels₂ p₀ p₁ p₂,
      Run (TableThreads.Step ⟨setting, none⟩)
        (TableThreads.initial ⟨setting, none⟩ ⟨0, []⟩ 1) labels₀ p₀ ∧ Quiescent p₀ ∧
      Run (TableThreads.Step ⟨setting, none⟩) p₀ labels₁ p₁ ∧
        (TableThreads.held p₁ = [r₀.address] ∧ ∀ th ∈ p₁.threads, th.phase.lock = none) ∧
      Run (TableThreads.Step ⟨setting, none⟩) p₁ labels₂ p₂ ∧ Quiescent p₂ ∧
      (labels₀.flatMap Label.published = [r₀] ∧ labels₁.flatMap Label.published = [r₁] ∧
        labels₂.flatMap Label.published = []) ∧
      labels₀.flatMap Label.registered = [] ∧ labels₁.flatMap Label.registered = [] ∧
        labels₂.flatMap Label.registered = [r₀] := by
  let t : Table ⟨setting, none⟩ := (TableThreads.initial ⟨setting, none⟩ ⟨0, []⟩ 1).shared
  have ht : t.hashTable.Consistent setting.recordSerializer :=
    SharedHashTable.consistent_create _ _
  have hlock (i : setting.BucketIndex) : TableThreads.Unlocked ([] ++ []) i :=
    fun th hth => absurd hth List.not_mem_nil
  have hquiescent (t : Table ⟨setting, none⟩) :
      Quiescent (⟨t, [] ++ [⟨[], .idle⟩]⟩ : TableThreads.System ⟨setting, none⟩) :=
    fun th hth => List.mem_singleton.mp hth
  obtain ⟨r₀, allocator₀, s₀, stat₀, old₀, hashTable₀, hrecord₀, hp₀, hrun₀⟩ :=
    TableThreads.run_store _ _ _ ht hb hv hlock
  obtain rfl : old₀ = none := hp₀.replaced.trans (congrFun (SharedHashTable.load_create _ _) s₀)
  have hcount₀ := hrun₀.append (TableThreads.run_count _ [] _ _ _)
  have hload₀ : hashTable₀.load s₀ = some r₀ := by
    rw [hp₀.stored.load, Function.update_self]
  have ht₀ := hp₀.consistent (ht.congr rfl rfl)
  let t₀ : Table ⟨setting, none⟩ := t.setHashTable (hashTable₀.updatePerfData
    (ReadWrite.updatePerfDataForAdd setting.recordSerializer stat₀))
  obtain ⟨r₁, allocator₁, s₁, stat₁, old₁, hashTable₁, hrecord₁, hp₁, hrun₁⟩ :=
    TableThreads.run_store (t := t₀) _ _ _ (ht₀.congr rfl rfl) hb hv hlock
  -- The slot of the key is the one that the first record is in.
  have hkey : setting.recordSerializer.keyOf r₀ = setting.recordSerializer.keyOf r₁ := by
    rw [RecordSerializer.keyOf, RecordSerializer.keyOf, hrecord₀, hrecord₁]
  obtain rfl : s₀ = s₁ := hp₁.admits.2 s₀ r₀ hload₀ hkey
  obtain rfl : old₁ = some r₀ := hp₁.replaced.trans hload₀
  refine ⟨r₀, r₁, _, _, _, _, _, _, hcount₀, hquiescent _, hrun₁, ?_,
    TableThreads.run_count _ [r₀] _ _ _, hquiescent _, ?_, ?_⟩
  · exact ⟨by simp [TableThreads.held, TableThreads.Thread.held],
      fun th hth => List.mem_singleton.mp hth ▸ rfl⟩
  · simp [Label.published]
  · simp [Label.registered]

theorem run_overwritten : ∃ events s record, Run Step (initial 1) events s ∧
    (∀ event ∈ events, event = .addHashTable ∨ event = .step 0 0) ∧
    (∀ table ∈ s.hashTables, Quiescent table.system) ∧ s.published ≠ [] ∧
    s.epochActionManager = (initial 1).epochActionManager.registerAction 0 (0, record) := by
  let record : Record := ⟨⟨[1], by decide⟩, ⟨[2], by decide⟩⟩
  obtain ⟨r₀, r₁, labels₀, labels₁, labels₂, p₀, p₁, p₂, hrun₀, -, hrun₁, -, hrun₂, hquiescent,
    ⟨hpublished, -⟩, hregistered₀, hregistered₁, hregistered₂⟩ :=
    run_overwrite {} (by decide) record (by decide)
  have hadd : Step (initial 1) .addHashTable _ := .addHashTable ⟨{}, none⟩ ⟨0, []⟩ 1
  have hrun := Run.cons hadd
    (run_steps 0 [] [] [] ((hrun₀.append hrun₁).append hrun₂) [] _)
  have hregistered : (labels₀ ++ labels₁ ++ labels₂).flatMap Label.registered = [r₀] := by
    simp [hregistered₀, hregistered₁, hregistered₂]
  rw [hregistered] at hrun
  exact ⟨_, _, r₀, hrun, by simp, by simpa using hquiescent,
    by simp [System.published, HashTable.named, hpublished], rfl⟩

omit [Platform] in
/-- A record is overwritten. Its release is registered, and a late epoch performs it. -/
theorem linear_of_run_of_overwrite :
    let _ : Platform := ⟨fun _ => (7, 0), 8, 64⟩
    ∃ events s, Run Step (initial 1) events s ∧ s.releasedRecords ≠ [] ∧
      (s.linked ++ s.held ++ s.pending ++ s.releasedRecords).Perm s.published := by
  intro _
  obtain ⟨events, s, record, hrun, -, -, -, hmanager⟩ := run_overwritten
  have hperform := hrun.append (.single (.performActions 1))
  refine ⟨_, _, hperform, ?_, (linear_of_run 1 (by decide) _ _ hperform).1⟩
  have hpending := EpochActionManager.pending_registerAction (m := (initial 1).epochActionManager)
    (by decide) 0 (0, record)
  rw [← hmanager] at hpending
  have hperformed := EpochActionManager.mem_performed.mpr
    ⟨0, Nat.one_pos, hpending.mem_iff.mpr List.mem_cons_self⟩
  exact List.ne_nil_of_mem (List.mem_map_of_mem (List.mem_append_right _ hperformed))

omit [Platform] in
/-- An `Add` has replaced a record and not yet registered its release: no slot holds the record,
no action will release it, and nobody has released it. -/
theorem not_three_places :
    let _ : Platform := ⟨fun _ => (7, 0), 8, 64⟩
    ¬ ∀ events₀ s₀ events₁ s₁, Run Step (initial 1) events₀ s₀ →
      (∀ table ∈ s₀.hashTables, Quiescent table.system) → Run Step s₀ events₁ s₁ →
      (∀ table ∈ s₁.hashTables, ∀ th ∈ table.system.threads, th.phase.lock = none) →
      ∀ x ∈ s₀.published, (s₁.linked ++ s₁.pending ++ s₁.releasedRecords).count x = 1 := by
  intro _ h
  let record : Record := ⟨⟨[1], by decide⟩, ⟨[2], by decide⟩⟩
  obtain ⟨r₀, r₁, labels₀, labels₁, -, p₀, p₁, -, hrun₀, hquiescent, hrun₁, ⟨hheld, hlock⟩, -, -,
    ⟨hpublished, -⟩, -⟩ := run_overwrite {} (by decide) record (by decide)
  have hadd : Step (initial 1) .addHashTable _ := .addHashTable ⟨{}, none⟩ ⟨0, []⟩ 1
  have hsteps₀ := Run.cons hadd (run_steps 0 [] [] [] hrun₀ [] _)
  have hsteps₁ := run_steps 0 [] [] [] hrun₁ ([] ++ addresses (labels₀.flatMap Label.published))
    (registerActions 0 ((labels₀.flatMap Label.registered).map (Prod.mk 0))
      (initial 1).epochActionManager)
  have hone := h _ _ _ _ hsteps₀ (by simpa using hquiescent) hsteps₁ (by simpa using hlock)
    (0, r₀.address) (by simp [System.published, HashTable.named, hpublished])
  have hlinear : Linear _ := (hsteps₀.append hsteps₁).invariant
    (fun _ _ _ h hstep => Linear.step h hstep) (initial_linear (by decide))
  rw [hlinear.count_of_held (by simp [System.held, HashTable.named, hheld])] at hone
  cases hone

end Run

end RecordOwnership

end L4
