import L4.ServiceUsers

namespace L4.ServiceUsers
set_option autoImplicit true
open EpochManager (Processing)
open RecordOwnership (Linear registerActions)
open TableThreads (Act Label Owned Thread addresses)
open ThreadPool (NumberedStep)
open Transition (Run Guarded)
variable [Platform] {s s' : ServiceUsers}

/-- The contexts of the users are those of the service. -/
def Agrees (s : ServiceUsers) : Prop := s.service.contexts = s.contexts.map Context.epochCounter

/-- The steps of the users are steps of the service. -/
theorem Step.refines (h : Step s event s') (hagrees : s.Agrees) :
    s'.Agrees ∧ ∃ event', HashTableService.Step s.service event' s'.service := by
  cases h with
  | addHashTable config allocator numThreads =>
    exact ⟨hagrees, _, .tables (.addHashTable config allocator numThreads) trivial⟩
  | act hcontexts htables hstep hepoch hcurrent =>
    refine ⟨?_, _, .tables (.step _ _ htables hstep.step) hcurrent⟩
    show s.service.contexts = _
    rw [hagrees, hcontexts]
    simp
  | getContext user => exact ⟨congrArg _ hagrees, _, .getContext⟩
  | destroyContext hcontexts hidle hq =>
    rw [Agrees, hcontexts, List.map_append, List.map_cons] at hagrees
    have hdestroy := HashTableService.Step.destroyContext hagrees hq
    rw [← List.map_append] at hdestroy
    exact ⟨rfl, _, hdestroy⟩
  | processing hstep hevent =>
    refine ⟨?_, _, hstep⟩
    cases hstep with
    | tables | getContext | destroyContext => cases hevent
    | _ => exact hagrees

/-- The reference of a context. -/
def reference (context : Context) : EpochManager.Reader Unit := ⟨context.epochCounter, []⟩

/-- The epoch manager and the contexts, without the tables and their actions. -/
def core (s : ServiceUsers) : EpochManager.System Unit where
  manager := ⟨s.currentEpochCounter, s.epochQueue, ⟨[], 0⟩⟩
  slots := fun _ => none
  readers := s.contexts.map reference
  releases := []
  processing := s.service.processing
  published := []
  released := []

omit [Platform] in
theorem map_reference (hcontexts : s.contexts = before ++ context :: after)
    (read : List (Nat × Nat)) :
    (before ++ { context with read } :: after).map reference = s.contexts.map reference := by
  rw [hcontexts, List.map_append, List.map_append]
  rfl

theorem Step.core (h : Guarded Fits Step s event s') (hinv : s.core.QueueInvariant) :
    s'.core.QueueInvariant := by
  obtain ⟨hfits, h⟩ := h
  have hstep (event : EpochManager.Event Unit) (hfits : s.core.Fits event)
      (hstep : EpochManager.System.Step s.core event s'.core) : s'.core.QueueInvariant :=
    hinv.step ⟨hfits, hstep⟩
  cases h with
  | addHashTable => exact hinv
  | act hcontexts =>
    change EpochManager.System.QueueInvariant { s.core with readers := List.map reference _ }
    rw [map_reference hcontexts]
    exact hinv
  | getContext user =>
    have hlength : s.core.readers.length + 1 < 2 ^ 32 := by
      rw [ServiceUsers.core, List.length_map]
      exact hfits
    exact hstep .addRef hlength .addRef
  | destroyContext hcontexts hidle hq =>
    have hreaders : s.core.readers = _ := congrArg (List.map reference) hcontexts
    rw [List.map_append, List.map_cons] at hreaders
    have hremove := EpochManager.System.Step.removeRef hreaders hq
    rw [← List.map_append] at hremove
    exact hstep (.removeRef _) trivial hremove
  | processing h hevent =>
    cases h with
    | tables | getContext | destroyContext => cases hevent
    | removeUnreferenced hp hq =>
      exact hstep .removeUnreferenced trivial (.removeUnreferenced hp hq)
    | returnFront hp hq =>
      exact hstep .removeUnreferenced trivial (.returnFront hp hq)
    | performActions hp => exact hstep (.performActions []) trivial (.performActions hp)
    | incrementCounter hp =>
      exact hstep .incrementCounter hfits (.incrementCounter hp)
    | addNewEpoch hp => exact hstep .addNewEpoch trivial (.addNewEpoch hp)

/-- A record that a context of the epoch may still use: it is in its slot, or it has been unlinked
in the epoch of the context or later. -/
def Located (s : ServiceUsers) (epochCounter : Nat) (x : Nat × Nat) : Prop :=
  x ∈ s.service.tables.linked ∨ (x ∈ s.service.tables.held ∧ epochCounter ≤ s.unlinkedAt x) ∨
    ∃ e action, (e, action) ∈ s.service.epochManager.epochActionManager.pending ∧
      RecordOwnership.System.name action = x ∧ epochCounter ≤ e

omit [Platform] in
theorem mem_registerActions {m : EpochActionManager (Nat × RecordBuffer)}
    (h : RecordOwnership.Queues m)
    (hx : (∃ action ∈ actions, x = (epochCounter, action)) ∨ x ∈ m.pending) :
    x ∈ (registerActions epochCounter actions m).pending := by
  induction actions generalizing m with
  | nil => exact hx.resolve_left fun ⟨action, hmem, _⟩ => List.not_mem_nil hmem
  | cons action actions ih =>
    refine ih (h.registerActions epochCounter [action]) ?_
    have hindex := EpochActionManager.nextIndex_lt h.1 h.2
    have hpending := EpochActionManager.pending_registerAction hindex epochCounter action
    rcases hx with ⟨action', hmem, rfl⟩ | hx
    · rcases List.mem_cons.mp hmem with rfl | hmem
      · exact .inr (hpending.mem_iff.mpr List.mem_cons_self)
      · exact .inl ⟨action', hmem, rfl⟩
    · exact .inr (EpochActionManager.mem_pending_registerAction_of_mem hx epochCounter action)

section Act
variable {table : HashTable} {label : Label table.config.setting}
  {system : TableThreads.System table.config} {tables tables' : List HashTable}

theorem count_act (h : Linear s.service.tables)
    (htables : s.service.hashTables = tables ++ table :: tables')
    (hstep : TableThreads.Step table.config table.system label system)
    (hafter : after = { s.service.tables with
      hashTables := tables ++ table.after label system :: tables'
      epochActionManager := m }) (x : Nat × Nat) :
    after.linked.count x + after.held.count x +
        ((addresses label.registered).map (Prod.mk tables.length)).count x =
      s.service.tables.linked.count x + s.service.tables.held.count x +
        ((addresses label.published).map (Prod.mk tables.length)).count x := by
  have howned : Owned table.published table.system :=
    h.hashTables table (by simp [HashTableService.tables, htables])
  have htable := ((howned.passesOn hstep).map (Prod.mk tables.length)).count_eq x
  have htables : s.service.tables.hashTables = tables ++ table :: tables' := htables
  simp only [List.map_append, List.count_append] at htable
  simp only [hafter, RecordOwnership.System.linked, RecordOwnership.System.held, htables,
    HashTable.count_named, HashTable.after]
  omega

theorem linked_of_registered {config : HashTableConfig} {label : Label config.setting}
    {p p' : TableThreads.System config} (hstep : TableThreads.Step config p label p')
    (hrecord : record ∈ label.registered) : TableThreads.linked p' = TableThreads.linked p := by
  cases hstep with
  | intro before after hact =>
    cases hact with
    | release => rfl
    | _ => cases hrecord

theorem Located.act (h : s.Located epochCounter x) (hlinear : Linear s.service.tables)
    (hle : epochCounter ≤ s.currentEpochCounter)
    (htables : s.service.hashTables = tables ++ table :: tables')
    (hstep : TableThreads.Step table.config table.system label system)
    (hepoch : ∀ record ∈ label.registered, s.unlinkedAt (tables.length, record.address) ≤ e) :
    (s.setTables { s.service.tables with
      hashTables := tables ++ table.after label system :: tables'
      epochActionManager := registerActions e (label.registered.map (Prod.mk tables.length))
        s.service.tables.epochActionManager }).Located epochCounter x := by
  generalize hafter : ({ s.service.tables with
    hashTables := tables ++ table.after label system :: tables'
    epochActionManager := registerActions e (label.registered.map (Prod.mk tables.length))
      s.service.tables.epochActionManager } : RecordOwnership.System) = after
  have hcount := count_act hlinear htables hstep hafter.symm x
  have hpending {y : Nat × Nat × RecordBuffer} (hy : (∃ action ∈
      label.registered.map (Prod.mk tables.length), y = (e, action)) ∨
        y ∈ s.service.tables.epochActionManager.pending) :
      y ∈ after.epochActionManager.pending :=
    hafter ▸ mem_registerActions hlinear.queues hy
  by_cases hlinked : x ∈ after.linked
  · exact .inl hlinked
  have hcurrent : x ∈ s.service.tables.linked → epochCounter ≤
      if x ∈ s.service.tables.linked ∧ x ∉ after.linked then s.currentEpochCounter
      else s.unlinkedAt x := fun h => by
    rw [if_pos ⟨h, hlinked⟩]
    exact hle
  rw [List.count_eq_zero.mpr hlinked] at hcount
  rcases h with h | ⟨h, hunlinked⟩ | ⟨e', action, h, hname, hle'⟩
  · have hpos := List.count_pos_iff.mpr h
    by_cases hheld : x ∈ after.held
    · exact .inr (.inl ⟨hheld, hcurrent h⟩)
    · -- who registers an action does not unlink a record
      rw [List.count_eq_zero.mpr hheld] at hcount
      have hregistered : x ∈ (addresses label.registered).map (Prod.mk tables.length) :=
        List.count_pos_iff.mp (by omega)
      obtain ⟨a, ha, rfl⟩ := List.mem_map.mp hregistered
      obtain ⟨record, hrecord, rfl⟩ := List.mem_map.mp ha
      have htables : s.service.tables.hashTables = tables ++ table :: tables' := htables
      have hsame : after.linked = s.service.tables.linked := by
        rw [← hafter]
        simp only [RecordOwnership.System.linked, htables, HashTable.named_append,
          HashTable.named_cons, HashTable.after, linked_of_registered hstep hrecord]
      exact absurd h (hsame ▸ hlinked)
  · have hpos := List.count_pos_iff.mpr h
    by_cases hheld : x ∈ after.held
    · refine .inr (.inl ⟨hheld, ?_⟩)
      by_cases hold : x ∈ s.service.tables.linked
      · exact hcurrent hold
      · show epochCounter ≤ if _ then _ else _
        rw [if_neg fun hx => hold hx.1]
        exact hunlinked
    · rw [List.count_eq_zero.mpr hheld] at hcount
      have hregistered : x ∈ (addresses label.registered).map (Prod.mk tables.length) :=
        List.count_pos_iff.mp (by omega)
      obtain ⟨a, ha, rfl⟩ := List.mem_map.mp hregistered
      obtain ⟨record, hrecord, rfl⟩ := List.mem_map.mp ha
      exact .inr (.inr ⟨e, (tables.length, record),
        hpending (.inl ⟨_, List.mem_map_of_mem hrecord, rfl⟩), rfl,
        Nat.le_trans hunlinked (hepoch record hrecord)⟩)
  · exact .inr (.inr ⟨e', action, hpending (.inr h), hname, hle'⟩)

end Act

omit [Platform] in
theorem mem_linked_of_readIn {config : HashTableConfig} {p p' : TableThreads.System config}
    (h : record ∈ TableThreads.readIn p p' user) :
    record.address ∈ TableThreads.linked p := by
  rw [TableThreads.readIn] at h
  split at h
  · rw [TableThreads.readBy] at h
    split at h
    · exact List.mem_map_of_mem (List.mem_of_mem_filter h)
    · exact List.mem_map_of_mem (List.mem_of_mem_filter h)
    · cases h
  · cases h

omit [Platform] in
theorem mem_linked_of_act (htables : s.service.hashTables = tables ++ table :: tables')
    (h : a ∈ TableThreads.linked table.system) :
    (tables.length, a) ∈ s.service.tables.linked := by
  have htables : s.service.tables.hashTables = tables ++ table :: tables' := htables
  rw [RecordOwnership.System.linked, htables, HashTable.named_append, HashTable.named_cons,
    Nat.zero_add]
  exact List.mem_append_right _ (List.mem_append_left _ (List.mem_map_of_mem h))

theorem Located.addHashTable (h : s.Located epochCounter x) (config : HashTableConfig)
    (allocator : Allocator) (numThreads : Nat) :
    (s.setTables { s.service.tables with
      hashTables := s.service.hashTables ++ [.create config allocator numThreads] }).Located
        epochCounter x := by
  have hquiescent := TableThreads.quiescent_initial config allocator numThreads
  generalize hafter : ({ s.service.tables with
    hashTables := s.service.hashTables ++ [.create config allocator numThreads] } :
      RecordOwnership.System) = after
  have hlinked : after.linked = s.service.tables.linked := hafter ▸
    RecordOwnership.named_add (TableThreads.linked_initial config allocator numThreads) _
  have hheld : after.held = s.service.tables.held := hafter ▸
    RecordOwnership.named_add (hquiescent.flatMap_eq_nil rfl) _
  rcases h with h | ⟨h, hunlinked⟩ | h
  · exact .inl (hlinked ▸ h)
  · refine .inr (.inl ⟨hheld ▸ h, ?_⟩)
    show epochCounter ≤ if _ then _ else _
    rw [hlinked, if_neg fun hx => hx.2 hx.1]
    exact hunlinked
  · exact .inr (.inr (hafter ▸ h))

/-- What a context has read may be used through it. -/
def Covered (s : ServiceUsers) : Prop :=
  ∀ context ∈ s.contexts, ∀ x ∈ context.read, s.Located context.epochCounter x

omit [Platform] in
theorem epoch_le_current (hinv : s.core.QueueInvariant) (hmem : context ∈ s.contexts) :
    context.epochCounter ≤ s.currentEpochCounter :=
  hinv.epoch_le_current (List.mem_map_of_mem (f := reference) hmem)

theorem Covered.step (h : s.Covered) (hinv : s.core.QueueInvariant)
    (hlinear : Linear s.service.tables) (hstep : Step s event s') : s'.Covered := by
  cases hstep with
  | addHashTable config allocator numThreads =>
    exact fun context hcontext x hx => (h context hcontext x hx).addHashTable _ _ _
  | act hcontexts htables hstep hepoch hcurrent =>
    have hold {context : Context} (hcontext : context ∈ s.contexts) {x : Nat × Nat}
        (hx : x ∈ context.read) :=
      (h context hcontext x hx).act hlinear (epoch_le_current hinv hcontext) htables hstep.step
        hepoch
    intro context' hcontext' x hx
    rcases List.mem_append.mp hcontext' with hmem | hmem
    · exact hold (hcontexts ▸ List.mem_append_left _ hmem) hx
    rcases List.mem_cons.mp hmem with rfl | hmem
    · have hcontext : _ ∈ s.contexts := hcontexts ▸ List.mem_append_right _ List.mem_cons_self
      rcases List.mem_append.mp hx with hx | hx
      · obtain ⟨a, ha, rfl⟩ := List.mem_map.mp hx
        obtain ⟨record, hrecord, rfl⟩ := List.mem_map.mp ha
        have hlinked := mem_linked_of_act htables (mem_linked_of_readIn hrecord)
        have hle := epoch_le_current hinv hcontext
        exact Located.act (.inl hlinked) hlinear hle htables hstep.step hepoch
      · exact hold hcontext hx
    · exact hold (hcontexts ▸ List.mem_append_right _ (List.mem_cons_of_mem _ hmem)) hx
  | getContext user =>
    intro context hcontext x hx
    rcases List.mem_cons.mp hcontext with rfl | hcontext
    · cases hx
    · exact h context hcontext x hx
  | destroyContext hcontexts hidle hq =>
    intro context hcontext x hx
    refine h context ?_ x hx
    rw [hcontexts]
    exact ThreadPool.mem_of_others hcontext _
  | processing hstep hevent =>
    cases hstep with
    | tables | getContext | destroyContext => cases hevent
    | performActions hp =>
      intro context hcontext x hx
      rcases h context hcontext x hx with hlinked | hheld | ⟨e, action, hpending, hname, hle⟩
      · exact .inl hlinked
      · exact .inr (.inl hheld)
      · have hfront := hinv.front_le_epoch (List.mem_map_of_mem (f := reference) hcontext)
        have holdest : _ = s.core.queue.frontIndex := hinv.performing _ hp
        exact .inr (.inr ⟨e, action, EpochActionManager.mem_pending_performActions.mpr
          ⟨hpending, holdest ▸ Nat.le_trans hfront hle⟩, hname, hle⟩)
    | _ => exact h

/-- The record that a thread is about to write to has been read through a context of its user. -/
def Touches (s : ServiceUsers) : Prop :=
  ∀ k (table : HashTable), s.service.hashTables[k]? = some table → ∀ user th,
    table.system.threads[user]? = some th → ∀ slot record, th.phase = .found slot record →
      ∃ context ∈ s.contexts, context.user = user ∧ (k, record.address) ∈ context.read

theorem found_of_act {config : HashTableConfig} {others : List (Thread config.setting)}
    {slot : config.setting.Slot}
    {t t' : Table config} {th th' : Thread config.setting} {label : Label config.setting}
    (h : Act config others t th label t' th') (hfound : th'.phase = .found slot record) :
    th.phase = .found slot record ∨ record ∈ TableThreads.readBy t th th' := by
  cases h with
  | update u tasks => exact .inl hfound
  | release record tasks => exact .inl hfound
  | getFinds hcache curEpochTime hload hkey hfresh =>
    obtain ⟨rfl, rfl⟩ := TableThreads.Phase.found.inj hfound
    refine .inr (List.mem_filter.mpr ⟨SharedHashTable.mem_records.mpr ⟨_, hload⟩, ?_⟩)
    exact decide_eq_true hkey
  | callAdd record' =>
    simp only [TableThreads.startAdd, TableThreads.calculate] at hfound
    split at hfound
    · cases hfound
    · split_ifs at hfound
  | endSweep record' sweep => cases sweep <;> cases hfound
  | calculate hcache curEpochTime =>
    simp only [TableThreads.afterCalculate] at hfound
    split_ifs at hfound
  | _ => cases hfound

theorem found_of_step {config : HashTableConfig} {p p' : TableThreads.System config}
    {th' : Thread config.setting} {label : Label config.setting} {slot : config.setting.Slot}
    (hstep : NumberedStep (Act config) p (actor, label) p')
    (hth : p'.threads[user]? = some th') (hfound : th'.phase = .found slot record) :
    (∃ th, p.threads[user]? = some th ∧ th.phase = .found slot record) ∨
      user = actor ∧ record ∈ TableThreads.readIn p p' user := by
  cases hstep with
  | @intro t th _ t' acted before after hact =>
    by_cases huser : user = before.length
    · subst huser
      obtain rfl : acted = th' := by simpa using hth
      rcases found_of_act hact hfound with hfound | hread
      · exact .inl ⟨th, by simp, hfound⟩
      · refine .inr ⟨rfl, ?_⟩
        simpa [TableThreads.readIn] using hread
    · exact .inl ⟨th', (ThreadPool.getElem?_middle_of_ne huser th acted) ▸ hth, hfound⟩

omit [Platform] in
theorem exists_context_of_act (hcontexts : s.contexts = before ++ context :: after)
    (hmem : c ∈ s.contexts) (read : List (Nat × Nat)) :
    ∃ c' ∈ before ++ { context with read := read ++ context.read } :: after,
      c'.user = c.user ∧ c.read ⊆ c'.read := by
  rw [hcontexts] at hmem
  rcases List.mem_append.mp hmem with hmem | hmem
  · exact ⟨c, List.mem_append_left _ hmem, rfl, List.Subset.refl _⟩
  rcases List.mem_cons.mp hmem with rfl | hmem
  · exact ⟨_, List.mem_append_right _ List.mem_cons_self, rfl, List.subset_append_right _ _⟩
  · exact ⟨c, List.mem_append_right _ (List.mem_cons_of_mem _ hmem), rfl, List.Subset.refl _⟩

theorem Touches.step (h : s.Touches) (hstep : Step s event s') : s'.Touches := by
  intro k table' htable' user th' hth' slot record hfound
  cases hstep with
  | addHashTable config allocator numThreads =>
    have htable : (s.service.hashTables ++ [.create config allocator numThreads])[k]? =
        some table' := htable'
    rw [List.getElem?_append] at htable
    split_ifs at htable with hk
    · exact h k table' htable user th' hth' slot record hfound
    · obtain rfl := List.mem_singleton.mp (List.mem_of_getElem? htable)
      rw [List.eq_of_mem_replicate (List.mem_of_getElem? hth')] at hfound
      cases hfound
  | act hcontexts htables hstep hepoch hcurrent =>
    rename_i before context after tables table tables' label system epochCounter
    have htable : (tables ++ table.after label system :: tables')[k]? = some table' := htable'
    by_cases hk : k = tables.length
    · subst hk
      obtain rfl : table.after label system = table' := by simpa using htable
      rcases found_of_step hstep hth' hfound with ⟨th, hth, hfound⟩ | ⟨rfl, hread⟩
      · obtain ⟨c, hc, huser, hread⟩ :=
          h tables.length table (by simp [htables]) user th hth slot record hfound
        obtain ⟨c', hc', huser', hsub⟩ := exists_context_of_act hcontexts hc _
        exact ⟨c', hc', huser'.trans huser, hsub hread⟩
      · refine ⟨_, List.mem_append_right _ List.mem_cons_self, rfl, List.mem_append_left _ ?_⟩
        exact List.mem_map_of_mem (List.mem_map_of_mem hread)
    · rw [ThreadPool.getElem?_middle_of_ne hk table, ← htables] at htable
      obtain ⟨c, hc, huser, hread⟩ := h k table' htable user th' hth' slot record hfound
      obtain ⟨c', hc', huser', hsub⟩ := exists_context_of_act hcontexts hc _
      exact ⟨c', hc', huser'.trans huser, hsub hread⟩
  | getContext user' =>
    obtain ⟨context, hcontext, huser, hread⟩ := h k table' htable' user th' hth' slot record hfound
    exact ⟨context, List.mem_cons_of_mem _ hcontext, huser, hread⟩
  | destroyContext hcontexts hidle hq =>
    obtain ⟨c, hc, huser, hread⟩ := h k table' htable' user th' hth' slot record hfound
    refine ⟨c, ?_, huser, hread⟩
    rw [hcontexts] at hc
    rcases List.mem_append.mp hc with hc | hc
    · exact List.mem_append_left _ hc
    rcases List.mem_cons.mp hc with rfl | hc
    · rw [hidle table' (List.mem_of_getElem? htable') th' (huser ▸ hth')] at hfound
      cases hfound
    · exact List.mem_append_right _ hc
  | processing hstep hevent =>
    cases hstep with
    | tables | getContext | destroyContext => cases hevent
    | _ => exact h k table' htable' user th' hth' slot record hfound

/-- What holds while users and the processing thread work. -/
structure Safe (s : ServiceUsers) : Prop where
  agrees : s.Agrees
  queue : s.core.QueueInvariant
  linear : Linear s.service.tables
  covered : s.Covered
  touches : s.Touches

theorem Safe.step (h : s.Safe) (hstep : Guarded Fits Step s event s') : s'.Safe := by
  obtain ⟨hagrees, event', hservice⟩ := hstep.2.refines h.agrees
  refine ⟨hagrees, Step.core hstep h.queue, ?_, h.covered.step h.queue h.linear hstep.2,
    h.touches.step hstep.2⟩
  rcases hservice.refines with heq | ⟨event', hstep'⟩
  · exact heq ▸ h.linear
  · exact h.linear.step hstep'

theorem create_safe (hcreate : create epochQueueSize numActionQueues = .ok s)
    (hqueues : numActionQueues ≠ 0) : s.Safe := by
  rw [create, HashTableService.create] at hcreate
  cases hq : EpochQueue.create 0 epochQueueSize with
  | error e =>
    rw [hq] at hcreate
    cases hcreate
  | ok q =>
    rw [hq] at hcreate
    obtain rfl := Except.ok.inj hcreate
    refine ⟨rfl, ?_, RecordOwnership.initial_linear hqueues, ?_, ?_⟩
    · have hinv : (EpochManager.System.initial q 0 : EpochManager.System Unit).Invariant :=
        EpochManager.System.initial_invariant hq 0
      exact hinv.queue
    · intro context hcontext
      cases hcontext
    · intro k table htable
      cases htable

theorem Safe.not_released (h : s.Safe) (hx : s.Located epochCounter x) :
    x ∉ s.service.tables.releasedRecords := by
  have hplaces := h.linear.places.count_eq x
  have hnodup := List.nodup_iff_count_le_one.mp h.linear.nodup x
  simp only [List.count_append] at hplaces
  rw [← List.count_eq_zero]
  rcases hx with hx | ⟨hx, -⟩ | ⟨e, action, hx, rfl, -⟩
  · have hpos := List.count_pos_iff.mpr hx
    omega
  · have hpos := List.count_pos_iff.mpr hx
    omega
  · have hmem : RecordOwnership.System.name action ∈ s.service.tables.pending :=
      List.mem_map_of_mem (List.mem_map_of_mem hx)
    have hpos := List.count_pos_iff.mpr hmem
    omega

/-- No record is used after it has been released. What has been read through a context, and what a
`Get` is about to write to, has not been released, and the processing thread does not release it as
long as the context exists. -/
theorem read_not_released (epochQueueSize : Nat) (numActionQueues : UInt16)
    (hqueues : numActionQueues ≠ 0) (s₀ : ServiceUsers)
    (hcreate : create epochQueueSize numActionQueues = .ok s₀) (events : List Event)
    (s : ServiceUsers) (hrun : Run (Guarded Fits Step) s₀ events s) :
    (∀ context ∈ s.contexts, ∀ x ∈ context.read, x ∉ s.service.tables.releasedRecords ∧
      ∀ performed s', Step s (.processing (.performActions performed)) s' →
        x ∉ performed.map RecordOwnership.System.name) ∧
    ∀ k (table : HashTable), s.service.hashTables[k]? = some table →
      ∀ th ∈ table.system.threads, ∀ slot record, th.phase = .found slot record →
        (k, record.address) ∉ s.service.tables.releasedRecords := by
  have h : s.Safe := hrun.invariant (fun _ _ _ => Safe.step) (create_safe hcreate hqueues)
  refine ⟨fun context hcontext x hx => ⟨?_, fun performed s' hstep hmem => ?_⟩, ?_⟩
  · exact h.not_released (h.covered context hcontext x hx)
  · have hfits : s.Fits (.processing (.performActions performed)) := trivial
    have h' : s'.Safe := h.step ⟨hfits, hstep⟩
    cases hstep with
    | processing hstep hevent =>
      cases hstep with
      | performActions hp =>
        refine h'.not_released (h'.covered context hcontext x hx) ?_
        rw [RecordOwnership.System.releasedRecords, HashTableService.tables, List.map_append]
        exact List.mem_append_right _ hmem
  · intro k table htable th hth slot record hfound
    obtain ⟨user, huser⟩ := List.mem_iff_getElem?.mp hth
    obtain ⟨context, hcontext, -, hread⟩ :=
      h.touches k table htable user th huser slot record hfound
    exact h.not_released (h.covered context hcontext _ hread)

/-- The service has one table and one user, and no epoch is to come for a record that has left its
slot. -/
structure OneUser (config : HashTableConfig) (p : TableThreads.System config) (context : Context)
    (s : ServiceUsers) : Prop where
  tables : ∃ published, s.service.hashTables = [⟨config, p, published⟩]
  contexts : s.contexts = [context]
  user : context.user = 0
  unlinkedAt : ∀ x, s.unlinkedAt x ≤ s.currentEpochCounter

section OneUser
variable {config : HashTableConfig} {p p' : TableThreads.System config} {context : Context}

theorem OneUser.act (h : OneUser config p context s) {label : Label config.setting}
    (hstep : NumberedStep (Act config) p (0, label) p') :
    ∃ s' context', Guarded Fits Step s (.act 0 0 label.event?) s' ∧
      OneUser config p' context' s' ∧
      context'.read =
        (addresses (TableThreads.readIn p p' 0)).map (Prod.mk 0) ++ context.read ∧
      (RecordOwnership.Queues s.service.tables.epochActionManager →
        ∀ record ∈ label.registered, (0, record.address) ∈ s'.service.tables.pending) := by
  obtain ⟨published, htables⟩ := h.tables
  have hcontexts := h.contexts
  obtain ⟨user, epochCounter, read⟩ := context
  obtain rfl : user = 0 := h.user
  have hcontexts : s.contexts = [] ++ ⟨0, epochCounter, read⟩ :: [] := hcontexts
  have htables : s.service.hashTables = [] ++ ⟨config, p, published⟩ :: [] := htables
  have hact := Step.act hcontexts htables hstep (fun record _ => h.unlinkedAt _) (Nat.le_refl _)
  refine ⟨_, _, ⟨trivial, hact⟩, ⟨⟨_, rfl⟩, rfl, rfl, fun x => ?_⟩, rfl,
    fun hqueues record hrecord => ?_⟩
  · change (if _ then s.currentEpochCounter else s.unlinkedAt x) ≤ s.currentEpochCounter
    split_ifs
    · exact Nat.le_refl _
    · exact h.unlinkedAt x
  · have hmem := mem_registerActions hqueues (x := (s.currentEpochCounter, (0, record)))
      (.inl ⟨(0, record), List.mem_map_of_mem hrecord, rfl⟩)
    exact List.mem_map_of_mem (List.mem_map_of_mem hmem)

theorem OneUser.run {labels : List (Label config.setting)} (h : OneUser config p context s)
    (hrun : Run (TableThreads.Step config) p labels p') (hone : p.threads.length = 1) :
    ∃ s' context', Run (Guarded Fits Step) s (labels.map fun label => .act 0 0 label.event?) s' ∧
      OneUser config p' context' s' ∧ context.read ⊆ context'.read := by
  induction hrun generalizing s context with
  | nil => exact ⟨s, context, .nil, h, List.Subset.refl _⟩
  | cons hstep hrest ih =>
    cases hstep with
    | intro before after hact =>
      obtain ⟨rfl, rfl⟩ : before = [] ∧ after = [] := by
        have hlength := hone
        simp only [List.length_append, List.length_cons] at hlength
        exact ⟨List.eq_nil_of_length_eq_zero (by omega), List.eq_nil_of_length_eq_zero (by omega)⟩
      obtain ⟨s₁, context₁, hstep, h₁, hread, -⟩ := h.act (.intro [] [] hact)
      obtain ⟨s', context', hrun, h', hsubset⟩ := ih h₁ rfl
      exact ⟨s', context', .cons hstep hrun, h',
        fun x hx => hsubset (hread ▸ List.mem_append_right _ hx)⟩

end OneUser

/-- An `Add` to a new table with one thread, a `Get` of its key, and another `Add` of the key, up to
the release of the record that has been read. -/
theorem run_add_get_add (setting : Setting) (hb : setting.numBuckets ≠ 0) (record record' : Record)
    (hkey : record'.key = record.key)
    (hv : setting.recordSerializer.Validates record.key record.value)
    (hv' : setting.recordSerializer.Validates record'.key record'.value) :
    ∃ r labels p p' labels' q q', Run (TableThreads.Step ⟨setting, none⟩)
        (TableThreads.initial ⟨setting, none⟩ ⟨0, []⟩ 1) labels p ∧
      .call (.add record) ∈ labels ∧
      NumberedStep (Act ⟨setting, none⟩) p (0, .silent) p' ∧
      r ∈ TableThreads.readIn p p' 0 ∧ p'.threads.length = 1 ∧
      Run (TableThreads.Step ⟨setting, none⟩) p' labels' q ∧
      NumberedStep (Act ⟨setting, none⟩) q (0, .registerAction r) q' := by
  let rs := setting.recordSerializer
  let t : Table ⟨setting, none⟩ := (TableThreads.initial ⟨setting, none⟩ ⟨0, []⟩ 1).shared
  have ht : t.hashTable.Consistent rs := SharedHashTable.consistent_create _ _
  have hlock (i : setting.BucketIndex) : TableThreads.Unlocked ([] ++ []) i :=
    fun th hth => absurd hth List.not_mem_nil
  obtain ⟨r, allocator, slot, stat, old, hashTable, hrecord, hp, hrun⟩ :=
    TableThreads.run_store _ _ _ ht hb hv hlock
  have hcount := hrun.append (TableThreads.run_count _ _ _ _ _)
  have hload : hashTable.load slot = some r := by
    rw [hp.stored.load, Function.update_self]
  have hcall := hcount.append (.single (.intro [] [] (.callGet (rs.keyOf r))))
  let t' : Table ⟨setting, none⟩ :=
    t.setHashTable (hashTable.updatePerfData (ReadWrite.updatePerfDataForAdd rs stat))
  have ht' : t'.hashTable.Consistent rs := (hp.consistent (ht.congr rfl rfl)).congr rfl rfl
  have hsame : rs.keyOf r = record'.key := (congrArg Record.key hrecord).trans hkey.symm
  obtain ⟨r', allocator', stat', hashTable', -, -, hoverwrite⟩ :=
    TableThreads.run_overwrite [] [] record' ht' hload hsame hv' hlock
  have hreturn : Run (TableThreads.Step ⟨setting, none⟩)
      ⟨t', [⟨[], .got (some (rs.valueOf r))⟩]⟩ _ ⟨t', [⟨[], .idle⟩]⟩ :=
    .single (.intro [] [] .returnGet)
  have hupdated := (hreturn.append hoverwrite).append
    (TableThreads.run_updates [] [] _ _ [.release r] _)
  refine ⟨r, _, _, _, _, _, _, hcall, by simp, .intro [] [] (.getReads rfl hload rfl), ?_, rfl,
    hupdated, .intro [] [] (.release r [])⟩
  exact List.mem_filter.mpr
    ⟨SharedHashTable.mem_records.mpr ⟨slot, hload⟩, decide_eq_true rfl⟩

theorem exists_oneUser (config : HashTableConfig)
    (hcreate : create epochQueueSize numActionQueues = .ok s) :
    ∃ events s' context, Run (Guarded Fits Step) s events s' ∧
      OneUser config (TableThreads.initial config ⟨0, []⟩ 1) context s' := by
  rw [create, HashTableService.create] at hcreate
  cases hq : EpochQueue.create 0 epochQueueSize with
  | error e =>
    rw [hq] at hcreate
    cases hcreate
  | ok q =>
    rw [hq] at hcreate
    obtain rfl := Except.ok.inj hcreate
    refine ⟨[.addHashTable, .getContext], _, _, .cons ⟨?_, .addHashTable config ⟨0, []⟩ 1⟩
      (.single ⟨?_, .getContext 0⟩), ⟨_, rfl⟩, rfl, rfl, fun x => ?_⟩
    · trivial
    · exact show 0 + 1 < 2 ^ 32 by decide
    · simp only [setTables]
      split_ifs <;> exact Nat.le_refl _

omit [Platform] in
/-- A user reads a record and overwrites it, so that its release is pending. -/
theorem read_not_released_of_get :
    let _ : Platform := ⟨fun _ => (7, 0), 8, 64⟩
    ∃ events s, (∃ s₀, create 1 1 = .ok s₀ ∧ Run (Guarded Fits Step) s₀ events s) ∧
      ∃ context ∈ s.contexts, ∃ x ∈ context.read, x ∈ s.service.tables.pending ∧
        x ∉ s.service.tables.releasedRecords := by
  intro _
  obtain ⟨s₀, hcreate⟩ : ∃ s₀, create 1 1 = .ok s₀ := ⟨_, rfl⟩
  obtain ⟨r, labels, p, p', labels', q, q', hadd, -, hget, hread, hone, hoverwrite, hrelease⟩ :=
    run_add_get_add {} (by decide) ⟨⟨[1], by decide⟩, ⟨[2], by decide⟩⟩
      ⟨⟨[1], by decide⟩, ⟨[3], by decide⟩⟩ rfl (by decide) (by decide)
  obtain ⟨events₁, s₁, context₁, hrun₁, h₁⟩ := exists_oneUser ⟨{}, none⟩ hcreate
  obtain ⟨s₂, context₂, hrun₂, h₂, -⟩ := h₁.run hadd rfl
  obtain ⟨s₃, context₃, hact₃, h₃, hread₃, -⟩ := h₂.act hget
  obtain ⟨s₄, context₄, hrun₄, h₄, hread₄⟩ := h₃.run hoverwrite hone
  obtain ⟨s₅, context₅, hact₅, h₅, hread₅, hpending⟩ := h₄.act hrelease
  have hrun := (hrun₁.append (hrun₂.append (.single hact₃))).append hrun₄
  have hqueues := (hrun.invariant (fun _ _ _ => Safe.step)
    (create_safe hcreate (by decide))).linear.queues
  have hmem : (0, r.address) ∈ context₅.read := by
    refine hread₅ ▸ List.mem_append_right _ (hread₄ (hread₃ ▸ List.mem_append_left _ ?_))
    exact List.mem_map_of_mem (List.mem_map_of_mem hread)
  have hrun' := hrun.append (.single hact₅)
  have hcontext : context₅ ∈ s₅.contexts := h₅.contexts ▸ List.mem_singleton_self _
  exact ⟨_, s₅, ⟨s₀, hcreate, hrun'⟩, context₅, hcontext, _, hmem,
    hpending hqueues r (List.mem_singleton_self r),
    ((read_not_released 1 1 (by decide) s₀ hcreate _ s₅ hrun').1 context₅ hcontext _ hmem).1⟩

end L4.ServiceUsers
