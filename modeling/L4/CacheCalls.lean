import L4.CacheOperations

namespace L4.Cache
set_option autoImplicit true
open SharedHashTable (getBucketInfo_ok getBucketInfo_error tagOf)
open ReadWrite (Published Unlinked updatePerfDataForAdd perfUpdatesForRemoved)
open Metadata
variable {setting : Setting}

theorem createRecordBuffer_ok {t hashTable : SharedHashTable setting} {key : Key}
    {value : Value}
    (h : createRecordBuffer setting.cacheRecordSerializer t key value curEpochTime =
      (hashTable, .ok record)) :
    hashTable.allocator.allocated =
        (record.address, setting.cacheRecordSerializer.calculateBufferSize key value) ::
          t.allocator.allocated ∧
      setting.cacheRecordSerializer.serializeWithMeta key value
        ⟨Metadata.create curEpochTime, length_create_lt curEpochTime⟩ = .ok record.bytes := by
  simp only [createRecordBuffer, Prod.mk.injEq] at h
  obtain ⟨rfl, hrecord⟩ := h
  generalize setting.cacheRecordSerializer.serializeWithMeta key value _ = serialized at hrecord ⊢
  cases serialized with
  | error e => cases hrecord
  | ok bytes =>
    obtain rfl := Except.ok.inj hrecord
    exact ⟨rfl, rfl⟩

namespace WritableHashTable
variable [Platform] {t : WritableHashTable setting} {options : Options} {key : Key}
  {value : Value} {times : AddTimes} {P : RecordBuffer → Prop}

/-- The metadata of a new record, as `CreateRecordBuffer` hands it to the serializer. -/
def newMetadata (time : Int) : Value :=
  ⟨Metadata.create time, length_create_lt time⟩

omit [Platform] in
theorem createRecordBuffer_accepted (t : SharedHashTable setting) (time : Int)
    (hv : setting.cacheRecordSerializer.Validates key value) :
    ∃ record allocator,
      setting.cacheRecordSerializer.serializeWithMeta key value (newMetadata time) =
        .ok record.bytes ∧
      createRecordBuffer setting.cacheRecordSerializer t key value time =
        (t.setAllocator allocator, .ok record) := by
  have hserialize : setting.cacheRecordSerializer.serializeWithMeta key value
      (newMetadata time) = .ok _ := (if_pos hv).trans (if_pos (length_create time).symm)
  refine ⟨⟨t.allocator.next, _⟩,
    (t.allocator.allocate (setting.cacheRecordSerializer.calculateBufferSize key value)).2,
    hserialize, ?_⟩
  rw [newMetadata] at hserialize
  simp only [createRecordBuffer, hserialize]
  rfl

omit [Platform] in
theorem createRecordBuffer_eq (t : SharedHashTable setting) (time : Int)
    (hv : setting.cacheRecordSerializer.Validates key value) (hlt : value.size + 4 < 2 ^ 32) :
    ∃ record allocator, Cached setting.cacheRecordSerializer record key value time ∧
      createRecordBuffer setting.cacheRecordSerializer t key value time =
        (t.setAllocator allocator, .ok record) := by
  obtain ⟨record, allocator, hserialize, hcreate⟩ := createRecordBuffer_accepted t time hv
  have hmeta : (newMetadata time).data = Metadata.create time := rfl
  obtain ⟨bytes, hbytes, hcached⟩ := cached_of_serializeWithMeta hmeta rfl hv hlt record.address
  obtain rfl := Except.ok.inj (hserialize.symm.trans hbytes)
  exact ⟨record, allocator, hcached, hcreate⟩

omit [Platform] in
theorem createRecordBuffer_of_rejected (t : SharedHashTable setting) (time : Int)
    (hv : ¬ setting.cacheRecordSerializer.Validates key value) :
    createRecordBuffer setting.cacheRecordSerializer t key value time =
      (t.setAllocator (t.allocator.allocate
          (setting.cacheRecordSerializer.calculateBufferSize key value)).2,
        .error (.runtimeException "Invalid key or value sizes are given.")) := by
  have hserialize (metaValue : Value) :
      setting.cacheRecordSerializer.serializeWithMeta key value metaValue =
        .error (.runtimeException "Invalid key or value sizes are given.") := if_neg hv
  simp only [createRecordBuffer, hserialize]
  rfl

/-- What `Add` does to the table after `makeRoom`: it throws and leaves the slots as they are, or
it publishes the record. -/
inductive AddEffect (key : Key) (value : Value) (time : Int) (t : SharedHashTable setting) :
    Except Failure Unit → SharedHashTable setting → Prop
  | threw (e : Failure) (allocator : Allocator) :
      AddEffect key value time t (.error e) (t.setAllocator allocator)
  | added (record : RecordBuffer) (allocator : Allocator) (s : setting.Slot)
      (stat : ReadWrite.Stat) (t' : SharedHashTable setting)
      (hcached : Cached setting.cacheRecordSerializer record key value time)
      (hp : Published setting.cacheRecordSerializer (t.setAllocator allocator) record s stat
        (t.load s) t') :
      AddEffect key value time t (.ok ())
        (t'.updatePerfData (updatePerfDataForAdd setting.cacheRecordSerializer stat))

theorem add_of_created {t₁ : WritableHashTable setting}
    (hroom : makeRoom options t key value times = (t₁, .ok ()))
    (h : t₁.base.hashTable.Consistent setting.cacheRecordSerializer)
    (hcreate : createRecordBuffer setting.cacheRecordSerializer t₁.base.hashTable key value
      times.create = (t₁.base.hashTable.setAllocator allocator, .ok record)) :
    setting.numBuckets = 0 ∧ (∃ base, base.hashTable = t₁.base.hashTable.setAllocator allocator ∧
        add options t key value times = ({ t₁ with base }, .error .divisionByZero)) ∨
      ∃ s stat hashTable base,
        Published setting.cacheRecordSerializer (t₁.base.hashTable.setAllocator allocator) record s
          stat (t₁.base.hashTable.load s) hashTable ∧
        base.hashTable = hashTable.updatePerfData
          (updatePerfDataForAdd setting.cacheRecordSerializer stat) ∧
        add options t key value times = ({ t₁ with base }, .ok ()) := by
  by_cases hb : setting.numBuckets = 0
  · left
    have hinfo := getBucketInfo_error hb (setting.cacheRecordSerializer.keyOf record)
    simp only [add, hroom, hcreate, ReadWrite.WritableHashTable.addRecordBuffer, hinfo]
    exact ⟨hb, _, rfl, rfl⟩
  · right
    obtain ⟨s, stat, hashTable, hp, hadd⟩ := ReadWrite.WritableHashTable.addRecordBuffer_eq
      (t := { t₁.base with hashTable := t₁.base.hashTable.setAllocator allocator })
      (h.congr rfl rfl) hb record
    obtain ⟨epochManager, hrelease⟩ := ReadWrite.WritableHashTable.releaseRecord_ok
      { t₁.base with
        hashTable := hashTable.updatePerfData
          (updatePerfDataForAdd setting.cacheRecordSerializer stat) }
      (t₁.base.hashTable.load s)
    have hresult := hadd.trans hrelease
    refine ⟨s, stat, hashTable, ⟨hashTable.updatePerfData
      (updatePerfDataForAdd setting.cacheRecordSerializer stat), epochManager⟩, hp, rfl, ?_⟩
    simp only [add, hroom, hcreate, hresult]

theorem add_effect (h : Sound setting.cacheRecordSerializer P
      (makeRoom options t key value times).1.base.hashTable)
    (hlt : setting.cacheRecordSerializer.Validates key value → value.size + 4 < 2 ^ 32) :
    AddEffect key value times.create (makeRoom options t key value times).1.base.hashTable
        (add options t key value times).2 (add options t key value times).1.base.hashTable ∧
      (add options t key value times).1.currentEvictBucketIndex =
        (makeRoom options t key value times).1.currentEvictBucketIndex := by
  cases hroom : makeRoom options t key value times with
  | mk t₁ result =>
    rw [hroom] at h
    cases result with
    | error e =>
      simp only [add, hroom]
      exact ⟨.threw e t₁.base.hashTable.allocator, trivial⟩
    | ok _ =>
      by_cases hv : setting.cacheRecordSerializer.Validates key value
      · obtain ⟨record, allocator, hcached, hcreate⟩ :=
          createRecordBuffer_eq t₁.base.hashTable times.create hv (hlt hv)
        rcases add_of_created hroom h.consistent hcreate with
          ⟨-, base, hbase, hadd⟩ | ⟨s, stat, hashTable, base, hp, hbase, hadd⟩
        · simp only [hadd, hbase]
          exact ⟨.threw .divisionByZero allocator, trivial⟩
        · simp only [hadd, hbase]
          exact ⟨.added record allocator s stat hashTable hcached hp, trivial⟩
      · have hcreate := createRecordBuffer_of_rejected t₁.base.hashTable times.create hv
        simp only [add, hroom, hcreate]
        exact ⟨.threw _ _, trivial⟩

inductive RemoveEffect (key : Key) (t : SharedHashTable setting) :
    Except Failure Bool → SharedHashTable setting → Prop
  | threw (e : Failure) (hb : setting.numBuckets = 0) : RemoveEffect key t (.error e) t
  | missed (hnone : ∀ s record, t.load s = some record →
      setting.cacheRecordSerializer.keyOf record ≠ key) : RemoveEffect key t (.ok false) t
  | removed (record : RecordBuffer) (s : setting.Slot) (t' : SharedHashTable setting)
      (hload : t.load s = some record) (hkey : setting.cacheRecordSerializer.keyOf record = key)
      (hu : Unlinked t s (some record) t') :
      RemoveEffect key t (.ok true)
        (t'.updatePerfData (perfUpdatesForRemoved setting.cacheRecordSerializer record))

theorem remove_effect (h : Sound setting.cacheRecordSerializer P t.base.hashTable) (key : Key) :
    RemoveEffect key t.base.hashTable (remove t key).2 (remove t key).1.base.hashTable ∧
      (remove t key).1.currentEvictBucketIndex = t.currentEvictBucketIndex := by
  refine ⟨?_, rfl⟩
  by_cases hb : setting.numBuckets = 0
  · have hinfo := getBucketInfo_error hb key
    simp only [remove, ReadWrite.WritableHashTable.remove, hinfo]
    exact .threw .divisionByZero hb
  · rcases ReadWrite.WritableHashTable.remove_eq h.consistent hb key with
      ⟨hnone, hremove⟩ | ⟨s, record, hload, hkey, hremove⟩
    · simp only [remove, hremove]
      exact .missed hnone
    · obtain ⟨hashTable, hu, hremoveAt⟩ :=
        ReadWrite.WritableHashTable.removeAt_eq setting.cacheRecordSerializer hload
      obtain ⟨epochManager, hrelease⟩ := ReadWrite.WritableHashTable.releaseRecord_ok
        { t.base with
          hashTable := hashTable.updatePerfData
            (perfUpdatesForRemoved setting.cacheRecordSerializer record) } (some record)
      rw [hremoveAt, hrelease] at hremove
      simp only [remove, hremove]
      exact .removed record s hashTable hload hkey hu

/-- `Get` misses, or it finds a record that is not expired and sets its access bit. -/
inductive GetEffect (options : Options) (key : Key) (curEpochTime : Int)
    (t : SharedHashTable setting) :
    Except Failure (Option Value) → SharedHashTable setting → Prop
  | threw (e : Failure) : GetEffect options key curEpochTime t (.error e) t
  | missed : GetEffect options key curEpochTime t (.ok none)
      (t.updatePerfData [.increment .cacheMissCount])
  | hit (record : RecordBuffer) (s : setting.Slot) (t' : SharedHashTable setting)
      (hload : t.load s = some record) (hkey : setting.cacheRecordSerializer.keyOf record = key)
      (hfresh : isExpired (metadataOf setting.cacheRecordSerializer record) curEpochTime
        options.recordTimeToLive = false)
      (htouch : Touched t s (storeMetadata setting.cacheRecordSerializer record
        (updateAccessStatus true (metadataOf setting.cacheRecordSerializer record)).2) t') :
      GetEffect options key curEpochTime t
        (.ok (some (withoutMetadata (setting.cacheRecordSerializer.valueOf record))))
        (t'.updatePerfData [.increment .cacheHitCount])

theorem get_effect (options : Options)
    (h : Sound setting.cacheRecordSerializer P t.base.hashTable) (key : Key) (curEpochTime : Int) :
    GetEffect options key curEpochTime t.base.hashTable (get options t key curEpochTime).2
        (get options t key curEpochTime).1.base.hashTable ∧
      (get options t key curEpochTime).1.currentEvictBucketIndex = t.currentEvictBucketIndex := by
  by_cases hb : setting.numBuckets = 0
  · have hinfo := getBucketInfo_error hb key
    simp only [get, getInternal, hinfo]
    exact ⟨.threw .divisionByZero, trivial⟩
  · obtain ⟨i, hi, hinfo⟩ := getBucketInfo_ok hb key
    cases hfind : t.base.hashTable.buckets[i].find? setting.cacheRecordSerializer key
        (tagOf key) with
    | none =>
      simp only [get, getInternal, hinfo, hfind]
      exact ⟨.missed, trivial⟩
    | some found =>
      obtain ⟨p, record⟩ := found
      obtain ⟨hload, hkey⟩ := (h.consistent.bucket i).find?_eq_some.mp hfind
      cases hexpired : isExpired (metadataOf setting.cacheRecordSerializer record) curEpochTime
          options.recordTimeToLive with
      | true =>
        simp only [get, getInternal, hinfo, hfind, hexpired, ↓reduceIte]
        exact ⟨.missed, trivial⟩
      | false =>
        simp only [get, getInternal, hinfo, hfind, hexpired, Bool.false_eq_true, ↓reduceIte]
        exact ⟨.hit record (i, p) _ hload hkey hexpired (touched_setBucket hload _), trivial⟩

theorem get_of_load (h : t.base.hashTable.Consistent setting.cacheRecordSerializer)
    (hload : t.base.hashTable.load slot = some record)
    (hkey : setting.cacheRecordSerializer.keyOf record = key)
    (hexpired : isExpired (metadataOf setting.cacheRecordSerializer record) now
      options.recordTimeToLive = false) :
    (get options t key now).2 =
      .ok (some (withoutMetadata (setting.cacheRecordSerializer.valueOf record))) := by
  obtain ⟨hinfo, hfind⟩ := h.find?_of_load hload hkey
  simp only [get, getInternal, hinfo, hfind, hexpired, Bool.false_eq_true, ↓reduceIte]

theorem get_eq_some_iff (options : Options)
    (h : t.base.hashTable.Consistent setting.cacheRecordSerializer) (key : Key) (now : Int)
    (value : Value) :
    (get options t key now).2 = .ok (some value) ↔
      ∃ s record, t.base.hashTable.load s = some record ∧
        setting.cacheRecordSerializer.keyOf record = key ∧
        isExpired (metadataOf setting.cacheRecordSerializer record) now
          options.recordTimeToLive = false ∧
        withoutMetadata (setting.cacheRecordSerializer.valueOf record) = value := by
  constructor
  · intro hget
    have he := (get_effect options (P := fun _ => True) ⟨h, fun _ _ _ => trivial⟩ key now).1
    rw [hget] at he
    generalize (get options t key now).1.base.hashTable = t' at he
    cases he with
    | hit record s t' hload hkey hfresh htouch => exact ⟨s, record, hload, hkey, hfresh, rfl⟩
  · rintro ⟨s, record, hload, hkey, hfresh, rfl⟩
    exact get_of_load h hload hkey hfresh

end WritableHashTable

/-- The calls of the interface of the cache, with the readings of the clock. -/
inductive Call where
  | add (key : Key) (value : Value) (times : AddTimes)
  | remove (key : Key)
  | get (key : Key) (curEpochTime : Int)
  | getIterator (curEpochTime : Int)
  | moveNext (iterator : Nat)

inductive Response where
  | added
  | removed (found : Bool)
  | got (value : Option Value)
  | iteratorCreated
  | moved (more : Bool)
deriving DecidableEq

/-- A cache and the iterators that have been created. -/
structure Session (setting : Setting) where
  table : WritableHashTable setting
  iterators : List (CacheIterator setting)

namespace Session
variable [Platform]

omit [Platform] in
def moveNext (options : Options) (s : Session setting) (iterator : Nat) :
    Session setting × Except Failure Response :=
  match s.iterators[iterator]? with
  | none => (s, .ok (.moved false))
  | some it =>
    match it.moveNext options s.table.base.hashTable with
    | .error e => (s, .error e)
    | .ok (more, it) => ({ s with iterators := s.iterators.set iterator it }, .ok (.moved more))

omit [Platform] in
theorem table_moveNext (options : Options) (s : Session setting) (iterator : Nat) :
    (s.moveNext options iterator).1.table = s.table := by
  rw [moveNext]
  split
  · rfl
  · split <;> rfl

def call (options : Options) (s : Session setting) : Call →
    Session setting × Except Failure Response
  | .add key value times =>
    let (table, result) := s.table.add options key value times
    ({ s with table }, result.map fun _ => .added)
  | .remove key =>
    let (table, result) := s.table.remove key
    ({ s with table }, result.map .removed)
  | .get key curEpochTime =>
    let (table, result) := s.table.get options key curEpochTime
    ({ s with table }, result.map .got)
  | .getIterator curEpochTime =>
    ({ s with iterators := s.iterators ++ [.create curEpochTime] }, .ok .iteratorCreated)
  | .moveNext iterator => s.moveNext options iterator

/-- The steps of a run of calls. -/
def Step (options : Options) (s : Session setting) (c : Call) (s' : Session setting) : Prop :=
  (s.call options c).1 = s'

/-- A run of calls, with their responses. -/
def run (options : Options) (s : Session setting) : List Call →
    Session setting × List (Call × Except Failure Response)
  | [] => (s, [])
  | c :: cs =>
    let (s, response) := s.call options c
    let (s, history) := run options s cs
    (s, (c, response) :: history)

def create (setting : Setting) (allocator : Allocator)
    (epochManager : EpochManager RecordBuffer) : Session setting :=
  ⟨.create setting allocator epochManager, []⟩

end Session

section Sound
variable [Platform] {Q : Key → Value → Int → Prop} {t t' : SharedHashTable setting}
  {options : Options} {key : Key} {value : Value}

theorem sound_add
    (h : Sound setting.cacheRecordSerializer (CachedWith setting.cacheRecordSerializer Q) t)
    (hadd : setting.cacheRecordSerializer.Validates key value → Q key value time)
    (he : WritableHashTable.AddEffect key value time t result t') :
    Sound setting.cacheRecordSerializer (CachedWith setting.cacheRecordSerializer Q) t' := by
  cases he with
  | threw e allocator => exact h.congr rfl rfl
  | added record allocator s stat t' hcached hp =>
    have hallocated : Sound setting.cacheRecordSerializer
        (CachedWith setting.cacheRecordSerializer Q) (t.setAllocator allocator) :=
      h.congr rfl rfl
    exact (hallocated.published hp ⟨key, value, time, hcached, hadd hcached.validates⟩).congr
      rfl rfl

theorem sound_remove
    (h : Sound setting.cacheRecordSerializer (CachedWith setting.cacheRecordSerializer Q) t)
    (he : WritableHashTable.RemoveEffect key t result t') :
    Sound setting.cacheRecordSerializer (CachedWith setting.cacheRecordSerializer Q) t' := by
  cases he with
  | threw e hb => exact h
  | missed hnone => exact h
  | removed record s t' hload hkey hu => exact (h.unlinked hu).congr rfl rfl

theorem sound_get
    (h : Sound setting.cacheRecordSerializer (CachedWith setting.cacheRecordSerializer Q) t)
    (he : WritableHashTable.GetEffect options key curEpochTime t result t') :
    Sound setting.cacheRecordSerializer (CachedWith setting.cacheRecordSerializer Q) t' := by
  cases he with
  | threw e => exact h
  | missed => exact h.congr rfl rfl
  | hit record s t' hload hkey hfresh htouch =>
    have hkeeps := keeps_updateAccessStatus setting Q record true
    exact (h.touched hload hkeeps htouch).congr rfl rfl

/-- The calls keep whatever relates the keys, values and times that are added. -/
theorem sound_call (options : Options) {s : Session setting}
    (h : Sound setting.cacheRecordSerializer (CachedWith setting.cacheRecordSerializer Q)
      s.table.base.hashTable) (c : Call)
    (hadd : ∀ key value times, c = .add key value times →
      setting.cacheRecordSerializer.Validates key value →
        value.size + 4 < 2 ^ 32 ∧ Q key value times.create) :
    Sound setting.cacheRecordSerializer (CachedWith setting.cacheRecordSerializer Q)
      (s.call options c).1.table.base.hashTable := by
  cases c with
  | add key value times =>
    have hroom := WritableHashTable.sound_makeRoom options h key value times
    have hvalid := hadd key value times rfl
    have he := (WritableHashTable.add_effect hroom fun hv => (hvalid hv).1).1
    exact sound_add hroom (fun hv => (hvalid hv).2) he
  | remove key => exact sound_remove h (WritableHashTable.remove_effect h key).1
  | get key curEpochTime =>
    exact sound_get h (WritableHashTable.get_effect options h key curEpochTime).1
  | getIterator curEpochTime => exact h
  | moveNext iterator =>
    simp only [Session.call]
    rw [s.table_moveNext]
    exact h

end Sound

end L4.Cache
