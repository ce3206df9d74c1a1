import L4.ServiceSafety

namespace L4.ServiceUsers
set_option autoImplicit true
open Linearizability (Object Turn Legal Covers linearizable_of_follows)
open ReadWrite (Mapping)
open TableThreads (Act Call Label Stores mapObject)
open ThreadPool (NumberedStep)
open Transition (Run Guarded)

/-! The operations of the users on all tables of a service, as the operations on a map for each
table one after the other. -/

/-- What a user calls on which table, and what is returned to it. -/
def Event.shown? : Event → Option ((Nat × Nat) ×
    Linearizability.Event (Nat × Call) (Except Failure Cache.Response))
  | .act user k (some e) => some ((user, k), e.map (Prod.mk k) id)
  | _ => none

def configs (s : ServiceUsers) : List HashTableConfig := s.service.hashTables.map HashTable.config

/-- The map of a table. Nothing can be done to a table that is not there. -/
def tableObject (configs : List HashTableConfig) (k : Nat) :
    Object Mapping Call (Except Failure Cache.Response) :=
  match configs[k]? with
  | some config => mapObject config
  | none => ⟨fun _ _ _ _ => False, fun _ _ => False⟩

/-- The maps of all tables. -/
def tablesObject (configs : List HashTableConfig) :
    Object (Nat → Mapping) (Nat × Call) (Except Failure Cache.Response) :=
  .family (tableObject configs)

/-- A record that is added to a cache has room for the metadata. -/
def Event.CallFits (configs : List HashTableConfig) : Event → Prop
  | .act _ k (some (.call (.add record))) =>
    ∀ config ∈ configs[k]?, config.cache.isSome → TableThreads.Fits record
  | _ => True

section Steps
variable [Platform] {s s' : ServiceUsers}

theorem Step.keeps_configs (h : Step s event s') : s.configs <+: s'.configs := by
  cases h with
  | addHashTable config allocator numThreads =>
    show s.configs <+: (s.service.hashTables ++ [_]).map HashTable.config
    rw [List.map_append]
    exact List.prefix_append _ _
  | act hcontexts htables hstep hepoch hcurrent =>
    rename_i before context after tables table tables' label system epochCounter
    show s.service.hashTables.map HashTable.config <+:
      (tables ++ table.after label system :: tables').map HashTable.config
    rw [htables, List.map_append, List.map_append]
    exact List.prefix_refl _
  | getContext | destroyContext => exact List.prefix_refl _
  | processing hstep hevent =>
    cases hstep with
    | tables | getContext | destroyContext => cases hevent
    | _ => exact List.prefix_refl _

theorem turn_of_step {config : HashTableConfig} {p p' : TableThreads.System config}
    {label : Label config.setting}
    (hstep : NumberedStep (Act config) p (user, label) p')
    (hfits : config.cache.isSome → label.Fits) (hstores : Stores config p.shared.hashTable m) :
    ∃ th th', p.threads[user]? = some th ∧ p'.threads[user]? = some th' ∧
      (∀ n ≠ user, p'.threads[n]? = p.threads[n]?) ∧
      ∀ status, th.phase.Stands status → ∃ m' status',
        Turn (mapObject config) m status label.event?.toList m' status' ∧
          Stores config p'.shared.hashTable m' ∧ th'.phase.Stands status' := by
  cases hstep with
  | @intro t th a t' th' before after h =>
    refine ⟨th, th', by simp, by simp, fun n hn => ?_, fun status hstands => ?_⟩
    · exact ThreadPool.getElem?_middle_of_ne hn th th'
    · exact h.turn hfits hstores hstands

/-- The maps and their operations stand for the tables and the threads of the users. -/
structure Follows (s : ServiceUsers) (a : Linearizability.System (Nat × Nat) (Nat → Mapping)
    (Nat × Call) (Except Failure Cache.Response)) : Prop where
  stores : ∀ k table, s.service.hashTables[k]? = some table →
    Stores table.config table.system.shared.hashTable (a.state k)
  stands : ∀ k table, s.service.hashTables[k]? = some table → ∀ (user : Nat) th,
    table.system.threads[user]? = some th → ∃ status, th.phase.Stands status ∧
      a.threads (user, k) = status.map (Prod.mk k) id
  untouched : ∀ k, s.service.hashTables.length ≤ k → a.state k = (fun _ => none) ∧
    ∀ user, a.threads (user, k) = .idle

theorem Follows.addHashTable (h : Follows s a) (config : HashTableConfig) (allocator : Allocator)
    (numThreads : Nat) : Follows (s.setTables { s.service.tables with
      hashTables := s.service.hashTables ++ [.create config allocator numThreads] }) a := by
  have hnew (k : Nat) (table : HashTable)
      (htable : (s.service.hashTables ++ [.create config allocator numThreads])[k]? = some table) :
      s.service.hashTables[k]? = some table ∨ s.service.hashTables.length ≤ k ∧
        table = HashTable.create config allocator numThreads := by
    rw [List.getElem?_append] at htable
    split_ifs at htable with hk
    · exact .inl htable
    · exact .inr ⟨Nat.le_of_not_lt hk, List.mem_singleton.mp (List.mem_of_getElem? htable)⟩
  refine ⟨fun k table htable => ?_, fun k table htable user th hth => ?_, fun k hk => ?_⟩
  · rcases hnew k table htable with htable | ⟨hk, rfl⟩
    · exact h.stores k table htable
    · rw [(h.untouched k hk).1]
      exact TableThreads.stores_create config allocator
  · rcases hnew k table htable with htable | ⟨hk, rfl⟩
    · exact h.stands k table htable user th hth
    · rw [List.eq_of_mem_replicate (List.mem_of_getElem? hth)]
      exact ⟨.idle, rfl, (h.untouched k hk).2 user⟩
  · have hlength := (List.length_append ..).symm.trans_le hk
    exact h.untouched k (Nat.le_of_add_right_le hlength)

omit [Platform] in
theorem fits_of_callFits {config : HashTableConfig} {label : Label config.setting}
    (h : (Event.act user k label.event?).CallFits configs') (hconfig : configs'[k]? = some config)
    (hcache : config.cache.isSome) : label.Fits := by
  cases label with
  | call c =>
    cases c with
    | add record => exact h config hconfig hcache
    | _ => trivial
  | _ => trivial

theorem Follows.act {configs' : List HashTableConfig} {label : Label table.config.setting}
    (h : Follows s a) (htables : s.service.hashTables = tables ++ table :: tables')
    (hstep : NumberedStep (Act table.config) table.system (user, label) system)
    (hconfig : configs'[tables.length]? = some table.config)
    (hfits : (Event.act user tables.length label.event?).CallFits configs')
    (htables' : s'.service.hashTables = tables ++ table.after label system :: tables') :
    ∃ labels a', Run (Linearizability.Step (tablesObject configs')) a labels a' ∧
      Linearizability.history labels =
        (Event.act user tables.length label.event?).shown?.toList ∧ Follows s' a' := by
  have htable : s.service.hashTables[tables.length]? = some table := by simp [htables]
  have hother {k : Nat} (hk : k ≠ tables.length) :
      s'.service.hashTables[k]? = s.service.hashTables[k]? := by
    rw [htables, htables', ThreadPool.getElem?_middle_of_ne hk _ table]
  obtain ⟨th, th', hth, hth', hothers, hturn⟩ :=
    turn_of_step hstep (fits_of_callFits hfits hconfig) (h.stores tables.length table htable)
  obtain ⟨status, hstands, hstatus⟩ := h.stands tables.length table htable user th hth
  obtain ⟨m', status', hturn, hstores, hstands'⟩ := hturn status hstands
  have hobject : tableObject configs' tables.length = mapObject table.config := by
    rw [tableObject, hconfig]
  rw [← hobject] at hturn
  have hfamily := hturn.family a.state
  rw [Function.update_eq_self, ← hstatus] at hfamily
  obtain ⟨labels, hrun, hlabels⟩ := hfamily.run_of_threads
  refine ⟨labels, _, hrun, ?_, fun k table₁ htable₁ => ?_, fun k table₁ htable₁ n th₁ hth₁ => ?_,
    fun k hk => ?_⟩
  · rw [hlabels]
    cases label.event? <;> rfl
  · by_cases hk : k = tables.length
    · subst hk
      obtain rfl : table.after label system = table₁ := by simpa [htables'] using htable₁
      show Stores _ _ (Function.update a.state tables.length m' tables.length)
      rw [Function.update_self]
      exact hstores
    · show Stores _ _ (Function.update a.state tables.length m' k)
      rw [Function.update_of_ne hk]
      exact h.stores k table₁ (hother hk ▸ htable₁)
  · rw [Linearizability.System.threads_setThread]
    by_cases hk : k = tables.length
    · subst hk
      obtain rfl : table.after label system = table₁ := by simpa [htables'] using htable₁
      by_cases hn : n = user
      · subst hn
        obtain rfl : th' = th₁ := Option.some.inj (hth'.symm.trans hth₁)
        exact ⟨status', hstands', if_pos rfl⟩
      · obtain ⟨status₁, hstands₁, hstatus₁⟩ :=
          h.stands tables.length table htable n th₁ ((hothers n hn).symm.trans hth₁)
        refine ⟨status₁, hstands₁, ?_⟩
        rw [if_neg fun heq => hn (congrArg Prod.fst heq)]
        exact hstatus₁
    · obtain ⟨status₁, hstands₁, hstatus₁⟩ := h.stands k table₁ (hother hk ▸ htable₁) n th₁ hth₁
      refine ⟨status₁, hstands₁, ?_⟩
      rw [if_neg fun heq => hk (congrArg Prod.snd heq)]
      exact hstatus₁
  · have hlength : s'.service.hashTables.length = s.service.hashTables.length := by
      simp [htables, htables']
    have hlt : tables.length < k := by
      rw [htables', List.length_append, List.length_cons] at hk
      omega
    obtain ⟨hstate, hthreads⟩ := h.untouched k (hlength ▸ hk)
    refine ⟨(Function.update_of_ne hlt.ne' _ _).trans hstate, fun n => ?_⟩
    rw [Linearizability.System.threads_setThread,
      if_neg fun heq => hlt.ne' (congrArg Prod.snd heq)]
    exact hthreads n

theorem Follows.step (h : Follows s a) (hstep : Step s event s') (hconfigs : s.configs <+: configs')
    (hfits : event.CallFits configs') :
    ∃ labels a', Run (Linearizability.Step (tablesObject configs')) a labels a' ∧
      Linearizability.history labels = event.shown?.toList ∧ Follows s' a' := by
  cases hstep with
  | addHashTable config allocator numThreads =>
    exact ⟨[], a, .nil, rfl, h.addHashTable config allocator numThreads⟩
  | act hcontexts htables hstep hepoch hcurrent =>
    rename_i before context after tables table tables' label system epochCounter
    have hconfig : configs'[tables.length]? = some table.config := by
      obtain ⟨rest, rfl⟩ := hconfigs
      simp [configs, htables]
    exact h.act htables hstep hconfig hfits rfl
  | getContext | destroyContext => exact ⟨[], a, .nil, rfl, h.stores, h.stands, h.untouched⟩
  | processing hstep hevent =>
    cases hstep with
    | tables | getContext | destroyContext => cases hevent
    | _ => exact ⟨[], a, .nil, rfl, h.stores, h.stands, h.untouched⟩

theorem create_follows (hcreate : create epochQueueSize numActionQueues = .ok s) :
    Follows s ⟨fun _ _ => none, fun _ => .idle⟩ := by
  have htables : s.service.hashTables = [] := by
    rw [create, HashTableService.create] at hcreate
    cases hq : EpochQueue.create 0 epochQueueSize with
    | error e =>
      rw [hq] at hcreate
      cases hcreate
    | ok q =>
      rw [hq] at hcreate
      obtain rfl := Except.ok.inj hcreate
      rfl
  have hnone {k : Nat} {table : HashTable} (htable : s.service.hashTables[k]? = some table) :
      False := by
    rw [htables] at htable
    cases htable
  exact ⟨fun k table htable => (hnone htable).elim,
    fun k table htable => (hnone htable).elim, fun k _ => ⟨rfl, fun _ => rfl⟩⟩

/-- The operations of all users on all tables of a service can be put in one order, whatever the
epochs and the processing thread do meanwhile. In this order they do to a map for each table, one
after the other, what they have done to the tables, and return what they have returned. An operation
that has returned stands before those that have been called later, on any table. -/
theorem operations_linearizable (epochQueueSize : Nat) (numActionQueues : UInt16)
    (s₀ : ServiceUsers) (hcreate : create epochQueueSize numActionQueues = .ok s₀)
    (events : List Event) (s : ServiceUsers) (hrun : Run Step s₀ events s)
    (hfits : ∀ event ∈ events, event.CallFits s.configs) :
    ∃ maps order, Legal (tablesObject s.configs) (fun _ _ => none) (order.map Prod.snd) maps ∧
      (∀ k table, s.service.hashTables[k]? = some table →
        Stores table.config table.system.shared.hashTable (maps k)) ∧
      ∀ before after, events.filterMap Event.shown? = before ++ after →
        ∃ first second, order = first ++ second ∧ Covers before first := by
  -- the configurations of the tables are those after the run all the time
  obtain ⟨hguarded, -⟩ := (hrun.guarded hfits).guarded_of_last
    (I := fun s' => s'.configs <+: s.configs)
    (fun _ _ _ h hconfigs => h.2.keeps_configs.trans hconfigs) (List.prefix_refl _)
  obtain ⟨a, hlinearizable, hfollows⟩ := linearizable_of_follows
    (fun _ _ _ _ h hfollows => hfollows.step h.2.2 h.1 h.2.1) hguarded (create_follows hcreate)
  obtain ⟨order, hlegal, hsplit⟩ := hlinearizable.exists_order
  exact ⟨a.state, order, hlegal, hfollows.stores, hsplit⟩

omit [Platform] in
/-- A user of a service with one table adds a record to it. -/
theorem operations_linearizable_of_add :
    let _ : Platform := ⟨fun _ => (7, 0), 8, 64⟩
    let record : Record := ⟨⟨[1], by decide⟩, ⟨[2], by decide⟩⟩
    ∃ events s, (∃ s₀, create 1 1 = .ok s₀ ∧ Run Step s₀ events s) ∧
      ((0, 0), .call (0, .add record)) ∈ events.filterMap Event.shown? ∧
      ∃ maps, ∃ order : List ((Nat × Nat) × (Nat × Call) × Except Failure Cache.Response),
        Legal (tablesObject s.configs) (fun _ _ => none) (order.map Prod.snd) maps := by
  intro _ record
  obtain ⟨s₀, hcreate⟩ : ∃ s₀, create 1 1 = .ok s₀ := ⟨_, rfl⟩
  obtain ⟨r, labels, p, p', labels', q, q', hrun, hadd, -⟩ :=
    run_add_get_add {} (by decide) record record rfl (by decide) (by decide)
  obtain ⟨events₁, s₁, _, hrun₁, h₁⟩ := exists_oneUser ⟨{}, none⟩ hcreate
  obtain ⟨s₂, context, hrun₂, h₂, -⟩ := h₁.run hrun rfl
  obtain ⟨published, htables⟩ := h₂.tables
  have hrun := (hrun₁.append hrun₂).mono fun _ _ _ h => h.2
  have hconfigs : s₂.configs = [⟨{}, none⟩] := by rw [configs, htables]; rfl
  have hfits : ∀ event ∈ events₁ ++ labels.map fun label => .act 0 0 label.event?,
      event.CallFits s₂.configs := by
    intro event _
    unfold Event.CallFits
    split
    · intro config hconfig hcache
      rw [hconfigs] at hconfig
      obtain rfl := List.mem_singleton.mp (List.mem_of_getElem? hconfig)
      cases hcache
    · trivial
  obtain ⟨maps, order, hlegal, -⟩ := operations_linearizable 1 1 s₀ hcreate _ s₂ hrun hfits
  refine ⟨_, s₂, ⟨s₀, hcreate, hrun⟩, ?_, maps, order, hlegal⟩
  refine List.mem_filterMap.mpr ⟨.act 0 0 (some (.call (.add record))), ?_, rfl⟩
  exact List.mem_append_right _ (List.mem_map.mpr ⟨_, hadd, rfl⟩)

end Steps

end L4.ServiceUsers
