import L4.Library.Linearizability
import L4.ReadWriteRefinement
import L4.TableThreadCounters

namespace L4.TableThreads
set_option autoImplicit true
open SharedHashTable (getBucketInfo)
open ReadWrite (Mapping Published Unlinked)
open Cache (Sound CacheRecord Touched touched_setBucket)
open Linearizability (Object Event Status Turn Legal Covers Linearizable visible)
open ThreadPool (NumberedStep)
open Transition (Run)

/-! The operations of several threads on a table, as the operations on a map one after the other. -/

section Map
variable (config : HashTableConfig)

/-- The calls that throw. -/
def Throws : Call → Prop
  | .add record => config.setting.numBuckets = 0 ∨
      ¬ config.recordSerializer.Validates record.key record.value
  | .remove _ => config.setting.numBuckets = 0
  | .get _ => False

/-- What an operation does to the map that the table is for. `Get` waits for no other thread and may
miss a key, but it returns no other value. -/
inductive Effect (m : Mapping) : Call → Except Failure Cache.Response → Mapping → Prop
  | threw (e : Failure) (h : Throws config c) : Effect m c (.error e) m
  | added (h : ¬ Throws config (.add record)) :
      Effect m (.add record) (.ok .added) (Function.update m record.key (some record.value))
  | removed (h : ¬ Throws config (.remove key)) :
      Effect m (.remove key) (.ok (.removed (m key).isSome)) (Function.update m key none)
  | got (h : m key = some value) : Effect m (.get key) (.ok (.got (some value))) m
  | missed : Effect m (.get key) (.ok (.got none)) m

/-- The map as an object. A cache may evict a key at any time. -/
def mapObject : Object Mapping Call (Except Failure Cache.Response) where
  effect := Effect config
  internal m m' := config.cache.isSome ∧ ∃ key, m' = Function.update m key none

/-- The buffer is laid out as the table expects. -/
def IsRecord (record : RecordBuffer) : Prop :=
  match config.cache with
  | none => True
  | some _ => CacheRecord config.setting record

/-- The value that `Get` returns for a record. -/
def userValue (record : RecordBuffer) : Value :=
  match config.cache with
  | none => config.recordSerializer.valueOf record
  | some _ => Cache.withoutMetadata (config.recordSerializer.valueOf record)

/-- The table stores the map. -/
structure Stores [Platform] (t : SharedHashTable config.setting) (m : Mapping) : Prop where
  sound : Sound config.recordSerializer (IsRecord config) t
  represents : ∃ records, KeyedSlots.Represents config.recordSerializer.keyOf t.load records ∧
    ∀ key, m key = (records key).map (userValue config)

end Map

section Stores
variable [Platform] {config : HashTableConfig} {t t' : SharedHashTable config.setting}
  {m : Mapping}

theorem stores_create (config : HashTableConfig) (allocator : Allocator) :
    Stores config (.create config.setting allocator) fun _ => none := by
  refine ⟨Cache.sound_create _ _ allocator, fun _ => none, ?_, fun _ => rfl⟩
  rw [SharedHashTable.load_create]
  exact KeyedSlots.represents_empty

theorem Stores.congr (h : Stores config t m) (hload : t'.load = t.load) (htag : t'.tag = t.tag) :
    Stores config t' m :=
  ⟨h.sound.congr hload htag, hload ▸ h.represents⟩

theorem Stores.published (h : Stores config t m)
    (hp : Published config.recordSerializer t record s stat old t')
    (hrecord : IsRecord config record) :
    Stores config t' (Function.update m (config.recordSerializer.keyOf record)
      (some (userValue config record))) := by
  obtain ⟨records, hm, hvalues⟩ := h.represents
  refine ⟨h.sound.published hp hrecord,
    Function.update records (config.recordSerializer.keyOf record) (some record), ?_,
    fun key => ?_⟩
  · rw [hp.stored.load]
    exact hm.update_some hp.admits
  · simp only [Function.update_apply, hvalues key]
    split_ifs <;> rfl

theorem Stores.unlinked (h : Stores config t m) (hload : t.load s = some record)
    (hu : Unlinked t s old t') :
    Stores config t' (Function.update m (config.recordSerializer.keyOf record) none) := by
  obtain ⟨records, hm, hvalues⟩ := h.represents
  refine ⟨h.sound.unlinked hu,
    Function.update records (config.recordSerializer.keyOf record) none, ?_, fun key => ?_⟩
  · rw [hu.stored.load]
    exact hm.update_none h.sound.consistent.unique hload
  · simp only [Function.update_apply, hvalues key]
    split_ifs <;> rfl

theorem Stores.of_load (h : Stores config t m) (hload : t.load s = some record) :
    m (config.recordSerializer.keyOf record) = some (userValue config record) := by
  obtain ⟨records, hm, hvalues⟩ := h.represents
  rw [hvalues, (hm _ record).mpr ⟨s, hload, rfl⟩]
  rfl

theorem Stores.eq_none_of_find? (h : Stores config t m)
    (hinfo : getBucketInfo config.setting key = .ok (i, tag))
    (hfind : t.buckets[i].find? config.recordSerializer key tag = none) : m key = none := by
  obtain ⟨records, hm, hvalues⟩ := h.represents
  rw [hvalues key, Option.map_eq_none_iff, hm.eq_none]
  intro s record hload hkey
  obtain ⟨hinfo', hfound⟩ := h.sound.consistent.find?_of_load hload hkey
  obtain ⟨rfl, rfl⟩ := Prod.mk.inj (Except.ok.inj (hinfo.symm.trans hinfo'))
  rw [hfind] at hfound
  cases hfound

omit [Platform] in
theorem keeps_access (hcache : config.cache.isSome) (h : IsRecord config record) (set : Bool) :
    let record' := Cache.storeMetadata config.recordSerializer record
      (Cache.Metadata.updateAccessStatus set
        (Cache.metadataOf config.recordSerializer record)).2
    IsRecord config record' ∧
      config.recordSerializer.keyOf record' = config.recordSerializer.keyOf record ∧
      userValue config record' = userValue config record ∧
      (config.recordSerializer.valueOf record').size =
        (config.recordSerializer.valueOf record).size := by
  obtain ⟨setting, _ | options⟩ := config
  · cases hcache
  · obtain ⟨key, value, time, hcached, -⟩ := h
    have hcached' := (hcached.updateAccessStatus set).1
    refine ⟨⟨key, value, time, hcached', trivial⟩, ?_, ?_, ?_⟩
    · exact (hcached'.deserialize rfl).1.trans (hcached.deserialize rfl).1.symm
    · exact Blob.ext ((hcached'.drop_valueOf rfl).trans (hcached.drop_valueOf rfl).symm)
    · exact (hcached'.size_valueOf rfl).trans (hcached.size_valueOf rfl).symm

theorem Stores.touched (h : Stores config t m) (hload : t.load s = some record)
    (hrecord : IsRecord config record')
    (hkey : config.recordSerializer.keyOf record' = config.recordSerializer.keyOf record)
    (hvalue : userValue config record' = userValue config record)
    (hsize : (config.recordSerializer.valueOf record').size =
      (config.recordSerializer.valueOf record).size)
    (htouch : Touched t s record' t') : Stores config t' m := by
  have hm := h.of_load hload
  have hadmits := h.sound.consistent.unique.admits hload
  obtain ⟨records, hrecords, hvalues⟩ := h.represents
  refine ⟨h.sound.touched hload (fun _ => ⟨hrecord, hkey, hsize⟩) htouch,
    Function.update records (config.recordSerializer.keyOf record') (some record'), ?_,
    fun key => ?_⟩
  · rw [htouch.stored.load]
    exact hrecords.update_some (hkey ▸ hadmits)
  · rw [Function.update_apply, hkey]
    split_ifs with heq
    · rw [heq, hm, Option.map_some, hvalue]
    · exact hvalues key

theorem Stores.access (h : Stores config t m) (hcache : config.cache.isSome)
    (hload : t.load (i, p) = some record) (set : Bool) :
    Stores config (t.setBucket i (t.buckets[i].storeData p
      (some (Cache.storeMetadata config.recordSerializer record
        (Cache.Metadata.updateAccessStatus set
          (Cache.metadataOf config.recordSerializer record)).2)))) m := by
  obtain ⟨hrecord, hkey, hvalue, hsize⟩ :=
    keeps_access hcache (h.sound.holds _ _ hload) set
  exact h.touched hload hrecord hkey hvalue hsize (touched_setBucket hload _)

end Stores

section Acts
variable {config : HashTableConfig}

/-- Where a thread in a phase stands with its operation. -/
def Phase.Stands : Phase config.setting → Status Call (Except Failure Cache.Response) → Prop
  | .idle, status => status = .idle
  | .evictingBasedOnTime record, status | .calculating record .., status | .waiting record, status
  | .evicting record .., status | .sweeping record .., status | .creating record, status =>
    status = .called (.add record) ∧ (config.cache.isSome → Fits record)
  | .adding recordToAdd, status => ∃ record, status = .called (.add record) ∧
      config.recordSerializer.Validates record.key record.value ∧ IsRecord config recordToAdd ∧
      config.recordSerializer.keyOf recordToAdd = record.key ∧
      userValue config recordToAdd = record.value
  | .counting .., status => ∃ record, status = .done (.add record) (.ok .added)
  | .removing key, status => status = .called (.remove key)
  | .removed _, status => ∃ key, status = .done (.remove key) (.ok (.removed true))
  | .getting key, status => status = .called (.get key)
  | .found _ record, status => config.cache.isSome ∧ ∃ key, status =
      .done (.get key) (.ok (.got (some (Cache.withoutMetadata
        (config.recordSerializer.valueOf record)))))
  | .got value, status => ∃ key, status = .done (.get key) (.ok (.got value))

def Label.event? : Label setting → Option (Event Call (Except Failure Cache.Response))
  | .call c => some (.call c)
  | .respond result => some (.respond result)
  | _ => none

theorem createRecordBuffer_eq_ok {t t' : SharedHashTable config.setting}
    (h : createRecordBuffer config t record time = (t', .ok recordToAdd))
    (hfits : config.cache.isSome → Fits record) :
    config.recordSerializer.Validates record.key record.value ∧ IsRecord config recordToAdd ∧
      config.recordSerializer.keyOf recordToAdd = record.key ∧
      userValue config recordToAdd = record.value := by
  obtain ⟨setting, _ | options⟩ := config
  · have heq : ReadWrite.createRecordBuffer setting.recordSerializer t record.key record.value =
        (t', .ok recordToAdd) := h
    by_cases hv : setting.recordSerializer.Validates record.key record.value
    · obtain ⟨created, allocator, hrecord, hcreate⟩ := ReadWrite.createRecordBuffer_eq t rfl hv
      rw [hcreate] at heq
      obtain rfl := Except.ok.inj (congrArg Prod.snd heq)
      exact ⟨hv, trivial, congrArg Record.key hrecord, congrArg Record.value hrecord⟩
    · rw [ReadWrite.createRecordBuffer_of_rejected t hv] at heq
      cases congrArg Prod.snd heq
  · have heq : Cache.createRecordBuffer setting.cacheRecordSerializer t record.key record.value
        time = (t', .ok recordToAdd) := h
    by_cases hv : setting.cacheRecordSerializer.Validates record.key record.value
    · obtain ⟨created, allocator, hcached, hcreate⟩ :=
        Cache.WritableHashTable.createRecordBuffer_eq t time hv (hfits rfl)
      rw [hcreate] at heq
      obtain rfl := Except.ok.inj (congrArg Prod.snd heq)
      exact ⟨hv, hcached.cacheRecord, (hcached.deserialize rfl).1,
        Blob.ext (hcached.drop_valueOf rfl)⟩
    · rw [Cache.WritableHashTable.createRecordBuffer_of_rejected t time hv] at heq
      cases congrArg Prod.snd heq

theorem createRecordBuffer_eq_error {t t' : SharedHashTable config.setting}
    (h : createRecordBuffer config t record time = (t', .error e))
    (hfits : config.cache.isSome → Fits record) :
    ¬ config.recordSerializer.Validates record.key record.value := by
  intro hv
  obtain ⟨setting, _ | options⟩ := config
  · obtain ⟨created, allocator, -, hcreate⟩ := ReadWrite.createRecordBuffer_eq t rfl hv
    cases congrArg Prod.snd (hcreate.symm.trans h)
  · obtain ⟨created, allocator, -, hcreate⟩ :=
      Cache.WritableHashTable.createRecordBuffer_eq t time hv (hfits rfl)
    cases congrArg Prod.snd (hcreate.symm.trans h)

variable [Platform] {others : List (Thread config.setting)} {t t' : Table config}
  {th th' : Thread config.setting} {label : Label config.setting}

omit [Platform] in
theorem stands_startAdd (record : Record) (hfits : config.cache.isSome → Fits record) :
    (startAdd config record).Stands (.called (.add record)) := by
  rw [startAdd]
  split
  · exact ⟨rfl, hfits⟩
  · split_ifs
    · exact ⟨rfl, hfits⟩
    · exact ⟨rfl, hfits⟩

omit [Platform] in
theorem stands_afterCalculate (options : Cache.Options) (locked : Bool)
    (totalDataSize curEpochTime : Int) (hfits : config.cache.isSome → Fits record) :
    (afterCalculate config options record locked totalDataSize curEpochTime).Stands
      (.called (.add record)) := by
  rw [afterCalculate]
  split_ifs
  · exact ⟨rfl, hfits⟩
  · exact ⟨rfl, hfits⟩
  · exact ⟨rfl, hfits⟩

theorem numBuckets_eq_zero_of_error (h : getBucketInfo config.setting key = .error e) :
    config.setting.numBuckets = 0 := by
  rw [getBucketInfo] at h
  split_ifs at h with hb
  exact UInt32.toNat_inj.mp hb

/-- Every step of a thread is a turn on the map. -/
theorem Act.turn (h : Act config others t th label t' th')
    (hfits : config.cache.isSome → label.Fits) (hstores : Stores config t.hashTable m)
    (hstands : th.phase.Stands status) :
    ∃ m' status', Turn (mapObject config) m status label.event?.toList m' status' ∧
      Stores config t'.hashTable m' ∧ th'.phase.Stands status' := by
  cases h with
  | update u tasks => exact ⟨m, status, .done, hstores.congr rfl rfl, hstands⟩
  | callAdd record =>
    obtain rfl : status = .idle := hstands
    exact ⟨m, _, .call _ .done, hstores, stands_startAdd record hfits⟩
  | evictBasedOnTimeThrows hinfo =>
    obtain ⟨rfl, -⟩ := hstands
    have hthrows := numBuckets_eq_zero_of_error hinfo
    exact ⟨m, .idle, .effect (.threw _ (.inl hthrows)) (.respond _ .done), hstores, rfl⟩
  | visitStays hcache hload hvisit =>
    refine ⟨m, status, .done, ?_, hstands⟩
    rcases Sweep.visit_cases hvisit with rfl | rfl
    · exact hstores.touched hload (hstores.sound.holds _ _ hload) rfl rfl rfl
        (touched_setBucket hload _)
    · exact hstores.access (by rw [hcache]; rfl) hload false
  | visitRemoves hcache hload hvisit =>
    refine ⟨_, status, .internal ⟨by rw [hcache]; rfl, _, rfl⟩ .done,
      hstores.unlinked hload (ReadWrite.unlinked_of_load hload), hstands⟩
  | endSweep record sweep =>
    refine ⟨m, status, .done, hstores, ?_⟩
    cases sweep with
    | basedOnTime => exact hstands
    | clock => exact hstands
  | calculate hcache curEpochTime =>
    obtain ⟨rfl, hfits⟩ := hstands
    exact ⟨m, _, .done, hstores, stands_afterCalculate _ _ _ _ hfits⟩
  | createRecordBuffer curEpochTime hcreate =>
    obtain ⟨rfl, hfits⟩ := hstands
    obtain ⟨allocator, rfl, -⟩ := createRecordBuffer_allocates hcreate
    exact ⟨m, _, .done, hstores.congr rfl rfl, _, rfl, createRecordBuffer_eq_ok hcreate hfits⟩
  | createRecordBufferThrows curEpochTime hcreate =>
    obtain ⟨rfl, hfits⟩ := hstands
    obtain ⟨allocator, rfl, -⟩ := createRecordBuffer_allocates hcreate
    have hthrows := createRecordBuffer_eq_error hcreate hfits
    exact ⟨m, .idle, .effect (.threw _ (.inr hthrows)) (.respond _ .done),
      hstores.congr rfl rfl, rfl⟩
  | addThrows hinfo =>
    obtain ⟨record, rfl, -⟩ := hstands
    have hthrows := numBuckets_eq_zero_of_error hinfo
    exact ⟨m, .idle, .effect (.threw _ (.inl hthrows)) (.respond _ .done), hstores, rfl⟩
  | @add _ i tag p _ _ _ _ hinfo hlock hslot hpublish =>
    obtain ⟨record, rfl, hv, hrecord, hkey, hvalue⟩ := hstands
    have hp := published_of_scan hstores.sound.consistent hinfo hslot hpublish
    have hthrows : ¬ Throws config (.add record) :=
      not_or.mpr ⟨Setting.numBuckets_ne_zero i, not_not.mpr hv⟩
    have hstores' := hstores.published hp hrecord
    rw [hkey, hvalue] at hstores'
    exact ⟨_, _, .effect (.added hthrows) .done, hstores', record, rfl⟩
  | returnAdd =>
    obtain ⟨record, rfl⟩ := hstands
    exact ⟨m, .idle, .respond _ .done, hstores, rfl⟩
  | callRemove key =>
    obtain rfl : status = .idle := hstands
    exact ⟨m, _, .call _ .done, hstores, rfl⟩
  | removeThrows hinfo =>
    obtain rfl : status = .called _ := hstands
    have hthrows := numBuckets_eq_zero_of_error hinfo
    exact ⟨m, .idle, .effect (.threw _ hthrows) (.respond _ .done), hstores, rfl⟩
  | @removeMisses key i tag _ hinfo hlock hfind =>
    obtain rfl : status = .called _ := hstands
    have hm := hstores.eq_none_of_find? hinfo hfind
    have hremoved : Effect config m (.remove key) _ _ := .removed (Setting.numBuckets_ne_zero i)
    rw [hm, ← hm, Function.update_eq_self, hm] at hremoved
    exact ⟨m, .idle, .effect hremoved (.respond _ .done), hstores, rfl⟩
  | @remove key i _ _ _ _ hinfo hlock hfind =>
    obtain rfl : status = .called _ := hstands
    obtain ⟨hslot, -, hfound⟩ := Bucket.find?_some hfind
    have hload : t.hashTable.load (i, _) = some _ := hslot
    have hkey : config.recordSerializer.keyOf _ = key := hfound
    have hm : m key = some (userValue config _) := hkey ▸ hstores.of_load hload
    have hremoved : Effect config m (.remove key) _ _ := .removed (Setting.numBuckets_ne_zero i)
    have hstores' : Stores config _ (Function.update m key none) :=
      hkey ▸ hstores.unlinked hload (ReadWrite.unlinked_of_load hload)
    rw [hm] at hremoved
    exact ⟨_, _, .effect hremoved .done, hstores', key, rfl⟩
  | returnRemove =>
    obtain ⟨key, rfl⟩ := hstands
    exact ⟨m, .idle, .respond _ .done, hstores, rfl⟩
  | callGet key =>
    obtain rfl : status = .idle := hstands
    exact ⟨m, _, .call _ .done, hstores, rfl⟩
  | getReads hcache hload hkey =>
    obtain rfl : status = .called _ := hstands
    have hm := hstores.of_load hload
    rw [hkey, userValue, hcache] at hm
    exact ⟨m, _, .effect (.got hm) .done, hstores, _, rfl⟩
  | getFinds hcache curEpochTime hload hkey hfresh =>
    obtain rfl : status = .called _ := hstands
    have hm := hstores.of_load hload
    rw [hkey, userValue, hcache] at hm
    exact ⟨m, _, .effect (.got hm) .done, hstores, by rw [hcache]; rfl, _, rfl⟩
  | touch s r =>
    obtain ⟨hcache, key, rfl⟩ := hstands
    refine ⟨m, _, .done, ?_, key, rfl⟩
    change Stores config (TableThreads.touch t.hashTable config.recordSerializer s r.address) m
    rcases touch_cases t.hashTable config.recordSerializer s r.address with
      heq | ⟨record, hload, heq⟩
    · rw [heq]
      exact hstores
    · rw [heq]
      exact hstores.access hcache hload true
  | getMisses =>
    obtain rfl : status = .called _ := hstands
    exact ⟨m, _, .effect .missed .done, hstores, _, rfl⟩
  | returnGet =>
    obtain ⟨key, rfl⟩ := hstands
    exact ⟨m, .idle, .respond _ .done, hstores, rfl⟩
  | _ => exact ⟨m, status, .done, hstores, hstands⟩

theorem exists_linearizable {labels : List (Nat × Label config.setting)} {p : System config}
    (hrun : Run (NumberedStep (Act config)) (initial config allocator numThreads) labels p)
    (hfits : config.cache.isSome → ∀ x ∈ labels, x.2.Fits) :
    ∃ m, Linearizable (mapObject config) (fun _ => none) (visible Label.event? labels) m ∧
      Stores config p.shared.hashTable m := by
  have hidle : ∀ th ∈ (initial config allocator numThreads).threads,
      th.phase.Stands (.idle : Status Call (Except Failure Cache.Response)) := by
    intro th hth
    rw [List.eq_of_mem_replicate hth]
    exact rfl
  exact Linearizability.linearizable_of_turns
    (fun label => config.cache.isSome → label.Fits) (fun t m => Stores config t.hashTable m)
    (fun th => th.phase.Stands)
    (fun others t th label t' th' m status hact hfits hstores hstands =>
      hact.turn hfits hstores hstands)
    hrun (fun x hx hcache => hfits hcache x hx) (stores_create config allocator) hidle

/-- The operations of any threads on a table can be put in one order. In this order they do to a
map, one after the other, what they have done to the table, and return what they have returned. An
operation that has returned stands before those that have been called later. -/
theorem run_linearizable (config : HashTableConfig) (allocator : Allocator) (numThreads : Nat)
    (labels : List (Nat × Label config.setting)) (p : System config)
    (hrun : Run (NumberedStep (Act config)) (initial config allocator numThreads) labels p)
    (hfits : config.cache.isSome → ∀ x ∈ labels, x.2.Fits) :
    ∃ m order, Legal (mapObject config) (fun _ => none) (order.map Prod.snd) m ∧
      Stores config p.shared.hashTable m ∧
      ∀ before after, visible Label.event? labels = before ++ after →
        ∃ first second, order = first ++ second ∧ Covers before first := by
  obtain ⟨m, hlinearizable, hstores⟩ := exists_linearizable hrun hfits
  obtain ⟨order, hlegal, hsplit⟩ := hlinearizable.exists_order
  exact ⟨m, order, hlegal, hstores, hsplit⟩

omit [Platform] in
/-- An `Add` of one of two threads, up to the end of its critical section. -/
theorem run_linearizable_of_add :
    let _ : Platform := ⟨fun _ => (7, 0), 8, 64⟩
    let config := CacheConfig {} ⟨1000, 100, false⟩
    let record : Record := ⟨⟨[1], by decide⟩, ⟨[2], by decide⟩⟩
    ∃ labels p m, ∃ order : List (Nat × Call × Except Failure Cache.Response),
      .call (.add record) ∈ labels.map Prod.snd ∧
      Run (NumberedStep (Act config)) (initial config ⟨0, []⟩ 2) labels p ∧
      Legal (mapObject config) (fun _ => none) (order.map Prod.snd) m ∧
      Stores config p.shared.hashTable m := by
  intro _ config record
  let t : Table config := (initial config ⟨0, []⟩ 2).shared
  have hsound : Sound config.setting.cacheRecordSerializer (CacheRecord config.setting)
      t.hashTable := Cache.sound_create _ _ _
  let other : Thread config.setting := ⟨[], .idle⟩
  have hlock (i : config.setting.BucketIndex) : Unlocked ([] ++ [other]) i := by
    simp [Unlocked, Phase.lock, other]
  have hroom : numBytesToFree ⟨1000, 100, false⟩ (Cache.totalDataSize t.hashTable.perfData)
      record = 0 := by decide +kernel
  obtain ⟨recordToAdd, _, s, stat, recordToDelete, hashTable, -, -, hpublish⟩ :=
    run_publish _ _ hsound.consistent (by decide) rfl hroom (by decide) (by decide) hlock
  obtain ⟨labels, hrun, hlabels⟩ := ThreadPool.exists_numbered hpublish
  have hfits : config.cache.isSome → ∀ x ∈ labels, x.2.Fits := by
    intro _ x hx
    have hx : x.2 ∈ labels.map Prod.snd := List.mem_map_of_mem hx
    simp only [hlabels, List.mem_cons, List.not_mem_nil, or_false] at hx
    rcases hx with hx | hx | hx | hx | hx | hx | hx <;> rw [hx]
    · exact show 1 + 4 < 2 ^ 32 by decide
    all_goals trivial
  obtain ⟨m, order, hlegal, hstores, -⟩ := run_linearizable config ⟨0, []⟩ 2 labels _ hrun hfits
  have hcall : .call (.add record) ∈ labels.map Prod.snd := by
    rw [hlabels]
    exact List.mem_cons_self
  exact ⟨labels, _, m, order, hcall, hrun, hlegal, hstores⟩

end Acts

end L4.TableThreads
