import L4.CacheHashTable
import L4.Contents

namespace L4
set_option autoImplicit true

namespace SharedHashTable
variable {setting : Setting}

theorem setBucket_setBucket (t : SharedHashTable setting) (i : setting.BucketIndex)
    (b b' : Bucket RecordBuffer) : (t.setBucket i b).setBucket i b' = t.setBucket i b' := by
  simp [setBucket]

theorem setBucket_self (t : SharedHashTable setting) (i : setting.BucketIndex) :
    t.setBucket i t.buckets[i] = t := by
  simp [setBucket]

theorem updatePerfData_append (t : SharedHashTable setting) (us us' : List PerfUpdate) :
    t.updatePerfData (us ++ us') = (t.updatePerfData us).updatePerfData us' := by
  simp [updatePerfData, PerfUpdate.applyAll]

end SharedHashTable

namespace Cache
open ReadWrite (Unlinked)
variable {setting : Setting}

/-- The buffer of a record is written to. -/
structure Touched (t : SharedHashTable setting) (s : setting.Slot) (record : RecordBuffer)
    (t' : SharedHashTable setting) : Prop where
  stored : t.Stored s (some record) (t.tag s) t'
  chainLength : t'.buckets[s.1].chainLength = t.buckets[s.1].chainLength

/-- What a sweep does to a table: one slot after the other, a record stays or is removed. -/
inductive Swept (visit : RecordBuffer → Option RecordBuffer) :
    SharedHashTable setting → List RecordBuffer → SharedHashTable setting → Prop
  | done (t : SharedHashTable setting) : Swept visit t [] t
  | stays (s : setting.Slot) (record record' : RecordBuffer) (hload : t.load s = some record)
      (hvisit : visit record = some record') (htouch : Touched t s record' t₁)
      (hrest : Swept visit t₁ removed t') : Swept visit t removed t'
  | leaves (s : setting.Slot) (record : RecordBuffer) (hload : t.load s = some record)
      (hvisit : visit record = none) (hunlink : Unlinked t s (some record) t₁)
      (hrest : Swept visit t₁ removed t') : Swept visit t (record :: removed) t'

theorem touched_setBucket {t : SharedHashTable setting} {i : setting.BucketIndex} {p : SlotIndex}
    (hload : t.load (i, p) = some record) (record' : RecordBuffer) :
    Touched t (i, p) record' (t.setBucket i (t.buckets[i].storeData p (some record'))) := by
  have hp : p.entry < t.buckets[i].chainLength := Cursor.inside_of_load (s := (i, p)) hload
  have hlen : (t.buckets[i].storeData p (some record')).chainLength =
      t.buckets[i].chainLength := Bucket.chainLength_storeData _ _ _
  refine ⟨SharedHashTable.stored_setBucket ?_ ?_ (hlen ▸ hp) (Nat.le_of_eq hlen.symm), ?_⟩
  · funext q
    simp only [Bucket.load_storeData, Function.update_apply, hp, and_true]
  · funext q
    rw [Bucket.tag_storeData, SharedHashTable.tag, Function.update_eq_self]
  · exact (congrArg Bucket.chainLength ((SharedHashTable.getElem_setBucket _ _ _ _).trans
      (if_pos rfl))).trans hlen

theorem swept_sweepSlots (visit : RecordBuffer → Option RecordBuffer) (ps : List SlotIndex)
    (t : SharedHashTable setting) (i : setting.BucketIndex) :
    Swept visit t (Bucket.sweepSlots visit ps t.buckets[i]).2
      (t.setBucket i (Bucket.sweepSlots visit ps t.buckets[i]).1) := by
  induction ps generalizing t with
  | nil =>
    rw [Bucket.sweepSlots, t.setBucket_self]
    exact .done t
  | cons p ps ih =>
    rw [Bucket.sweepSlots]
    cases hload : t.buckets[i].load p with
    | none => exact ih t
    | some record =>
      simp only
      cases hvisit : visit record with
      | some record' =>
        have hrest := ih (t.setBucket i (t.buckets[i].storeData p (some record')))
        rw [SharedHashTable.getElem_setBucket, if_pos rfl,
          SharedHashTable.setBucket_setBucket] at hrest
        exact .stays (i, p) record record' hload hvisit (touched_setBucket hload record') hrest
      | none =>
        have hrest := ih (t.setBucket i (t.buckets[i].updateRecord p none 0).2)
        rw [SharedHashTable.getElem_setBucket, if_pos rfl,
          SharedHashTable.setBucket_setBucket] at hrest
        have hunlink := ReadWrite.unlinked (t := t) (s := (i, p)) hload
        rw [hunlink.removed.trans hload] at hunlink
        exact .leaves (i, p) record hload hvisit hunlink hrest

section Invariant
variable [Platform] {rs : RecordSerializer} {P : RecordBuffer → Prop}
  {t t' : SharedHashTable setting}

/-- The table is consistent, and its records have a property. -/
structure Sound (rs : RecordSerializer) (P : RecordBuffer → Prop) (t : SharedHashTable setting) :
    Prop where
  consistent : t.Consistent rs
  holds : ∀ s record, t.load s = some record → P record

omit [Platform] in
/-- A record that is written to keeps the property, its key and the size of its value. -/
def Keeps (rs : RecordSerializer) (P : RecordBuffer → Prop) (record record' : RecordBuffer) :
    Prop :=
  P record → P record' ∧ rs.keyOf record' = rs.keyOf record ∧
    (rs.valueOf record').size = (rs.valueOf record).size

theorem sound_create (rs : RecordSerializer) (P : RecordBuffer → Prop) (allocator : Allocator) :
    Sound rs P (.create setting allocator) where
  consistent := SharedHashTable.consistent_create rs allocator
  holds s record hload := by
    rw [SharedHashTable.load_create] at hload
    cases hload

theorem Sound.congr (h : Sound rs P t) (hload : t'.load = t.load) (htag : t'.tag = t.tag) :
    Sound rs P t' :=
  ⟨h.consistent.congr hload htag, hload ▸ h.holds⟩

theorem Sound.mono {Q : RecordBuffer → Prop} (h : Sound rs P t)
    (hsub : ∀ s record, t.load s = some record → P record → Q record) : Sound rs Q t :=
  ⟨h.consistent, fun s record hload => hsub s record hload (h.holds s record hload)⟩

theorem Sound.touched (h : Sound rs P t) (hload : t.load s = some record)
    (hkeeps : Keeps rs P record record') (htouch : Touched t s record' t') : Sound rs P t' := by
  obtain ⟨hholds, hkey, -⟩ := hkeeps (h.holds s record hload)
  have hstored := htouch.stored
  rw [h.consistent.tags s record hload, ← hkey] at hstored
  have hadmits := h.consistent.unique.admits hload
  rw [← hkey] at hadmits
  refine ⟨h.consistent.store hadmits (hkey ▸ h.consistent.home s record hload) hstored, ?_⟩
  intro s' r hr
  rw [htouch.stored.load, Function.update_apply] at hr
  split_ifs at hr
  · obtain rfl := Option.some.inj hr
    exact hholds
  · exact h.holds s' r hr

theorem Sound.unlinked (h : Sound rs P t) (hu : Unlinked t s old t') : Sound rs P t' := by
  refine ⟨hu.consistent h.consistent, fun s' r hr => ?_⟩
  rw [hu.stored.load, Function.update_apply] at hr
  split_ifs at hr
  exact h.holds s' r hr

theorem Sound.published (h : Sound rs P t)
    (hp : ReadWrite.Published rs t record s stat old t') (hrecord : P record) : Sound rs P t' := by
  refine ⟨hp.consistent h.consistent, fun s' r hr => ?_⟩
  rw [hp.stored.load, Function.update_apply] at hr
  split_ifs at hr
  · obtain rfl := Option.some.inj hr
    exact hrecord
  · exact h.holds s' r hr

theorem Swept.sound {visit : RecordBuffer → Option RecordBuffer} (hs : Swept visit t removed t')
    (hvisit : ∀ record record', visit record = some record' → Keeps rs P record record')
    (h : Sound rs P t) : Sound rs P t' := by
  induction hs with
  | done t => exact h
  | stays s record record' hload hstays htouch hrest ih =>
    exact ih (h.touched hload (hvisit record record' hstays) htouch)
  | leaves s record hload hleaves hunlink hrest ih => exact ih (h.unlinked hunlink)

theorem Touched.contents (htouch : Touched t s record' t') (hload : t.load s = some record)
    (hkey : rs.keyOf record' = rs.keyOf record)
    (hvalue : (rs.valueOf record').size = (rs.valueOf record).size)
    (counter : HashTablePerfCounter) :
    SharedHashTable.contents rs t' counter = SharedHashTable.contents rs t counter := by
  have htotal := htouch.stored.total (SharedHashTable.recordWeight rs · counter)
  have hchain := htouch.stored.chainingEntries
  have hweight : SharedHashTable.recordWeight rs record' counter =
      SharedHashTable.recordWeight rs record counter := by
    cases counter <;> simp only [SharedHashTable.recordWeight, hkey, hvalue]
  rw [htouch.chainLength] at hchain
  simp only [SharedHashTable.contents, htotal, hchain, hload, Option.elim_some, hweight]
  ring

theorem Swept.contents {visit : RecordBuffer → Option RecordBuffer}
    (hs : Swept visit t removed t')
    (hvisit : ∀ record record', visit record = some record' → Keeps rs P record record')
    (h : Sound rs P t) (counter : HashTablePerfCounter) :
    SharedHashTable.contents rs t' counter = SharedHashTable.contents rs t counter -
      (removed.map fun record => SharedHashTable.recordWeight rs record counter).sum := by
  induction hs with
  | done t => simp
  | stays s record record' hload hstays htouch hrest ih =>
    obtain ⟨-, hkey, hvalue⟩ := hvisit record record' hstays (h.holds s record hload)
    rw [ih (h.touched hload (hvisit record record' hstays) htouch),
      htouch.contents hload hkey hvalue]
  | leaves s record hload hleaves hunlink hrest ih =>
    rw [ih (h.unlinked hunlink), hunlink.contents, List.map_cons, List.sum_cons]
    ring

end Invariant

/-- The buffer of a cached record whose key, value and time are related. -/
def CachedWith (rs : RecordSerializer) (Q : Key → Value → Int → Prop) (record : RecordBuffer) :
    Prop :=
  ∃ key value time, Cached rs record key value time ∧ Q key value time

section Visit
variable {Q : Key → Value → Int → Prop} {options : Options} {curEpochTime : Int}
  {record record' : RecordBuffer}

theorem keeps_updateAccessStatus (setting : Setting) (Q : Key → Value → Int → Prop)
    (record : RecordBuffer) (set : Bool) :
    Keeps setting.cacheRecordSerializer (CachedWith setting.cacheRecordSerializer Q) record
      (storeMetadata setting.cacheRecordSerializer record (Metadata.updateAccessStatus set
        (metadataOf setting.cacheRecordSerializer record)).2) := by
  intro h
  obtain ⟨key, value, time, hcached, hq⟩ := h
  have hcached' := (hcached.updateAccessStatus set).1
  refine ⟨⟨key, value, time, hcached', hq⟩, ?_, ?_⟩
  · rw [(hcached.deserialize rfl).1, (hcached'.deserialize rfl).1]
  · rw [hcached.size_valueOf rfl, hcached'.size_valueOf rfl]

theorem keeps_of_updateAccessStatus (rs : RecordSerializer) (record : RecordBuffer) (set : Bool) :
    Keeps rs (fun _ => True) record
      (storeMetadata rs record (Metadata.updateAccessStatus set (metadataOf rs record)).2) := by
  obtain ⟨hkey, hsize, -⟩ := keyOf_storeMetadata rs (Metadata.length_updateAccessStatus set _)
  exact fun _ => ⟨trivial, hkey, hsize⟩

theorem keeps_visitBasedOnTime (h : visitBasedOnTime setting.cacheRecordSerializer options
    curEpochTime record = some record') :
    Keeps setting.cacheRecordSerializer (CachedWith setting.cacheRecordSerializer Q) record
      record' := by
  rw [visitBasedOnTime] at h
  split_ifs at h
  obtain rfl := Option.some.inj h
  exact fun hrecord => ⟨hrecord, rfl, rfl⟩

theorem keeps_visitClock (h : visitClock setting.cacheRecordSerializer options curEpochTime
    record = some record') :
    Keeps setting.cacheRecordSerializer (CachedWith setting.cacheRecordSerializer Q) record
      record' := by
  simp only [visitClock] at h
  split_ifs at h
  obtain rfl := Option.some.inj h
  exact keeps_updateAccessStatus setting Q record false

end Visit

namespace WritableHashTable
open SharedHashTable (getBucketInfo)
variable {t : WritableHashTable setting} {options : Options}

/-- The counter updates for a record that a sweep has removed. -/
def evictUpdates (rs : RecordSerializer) (record : RecordBuffer) : List PerfUpdate :=
  ReadWrite.perfUpdatesForRemoved rs record ++ [.increment .evictedRecordsCount]

theorem retire_eq (rs : RecordSerializer) (t : WritableHashTable setting) (record : RecordBuffer) :
    ∃ epochManager, retire rs t record = { t with base :=
      ⟨t.base.hashTable.updatePerfData (evictUpdates rs record), epochManager⟩ } := by
  obtain ⟨epochManager, hrelease⟩ := ReadWrite.WritableHashTable.releaseRecord_ok { t.base with
    hashTable := t.base.hashTable.updatePerfData (ReadWrite.perfUpdatesForRemoved rs record) }
    (some record)
  refine ⟨epochManager, ?_⟩
  rw [retire, hrelease, evictUpdates, SharedHashTable.updatePerfData_append]

theorem foldl_retire (rs : RecordSerializer) (records : List RecordBuffer)
    (t : WritableHashTable setting) :
    ∃ epochManager, records.foldl (retire rs) t = { t with base :=
      ⟨t.base.hashTable.updatePerfData (records.flatMap (evictUpdates rs)), epochManager⟩ } := by
  induction records generalizing t with
  | nil => exact ⟨t.base.epochManager, rfl⟩
  | cons record records ih =>
    obtain ⟨epochManager, hretire⟩ := retire_eq rs t record
    obtain ⟨epochManager', hrest⟩ := ih (retire rs t record)
    refine ⟨epochManager', ?_⟩
    rw [List.foldl_cons, hrest, hretire, List.flatMap_cons, SharedHashTable.updatePerfData_append]

/-- A sweep of a bucket is the sweep of its slots and the updates for the removed records. -/
theorem sweepBucket_eq (rs : RecordSerializer) (visit : RecordBuffer → Option RecordBuffer)
    (t : WritableHashTable setting) (i : setting.BucketIndex) :
    ∃ epochManager,
      Swept visit t.base.hashTable (sweepBucket rs visit t i).2
        (t.base.hashTable.setBucket i (t.base.hashTable.buckets[i].sweep visit).1) ∧
      (sweepBucket rs visit t i).1 = { t with base :=
        ⟨(t.base.hashTable.setBucket i (t.base.hashTable.buckets[i].sweep visit).1).updatePerfData
          ((sweepBucket rs visit t i).2.flatMap (evictUpdates rs)), epochManager⟩ } := by
  obtain ⟨epochManager, hretire⟩ := foldl_retire rs (t.base.hashTable.buckets[i].sweep visit).2
    { t with base := { t.base with
      hashTable := t.base.hashTable.setBucket i (t.base.hashTable.buckets[i].sweep visit).1 } }
  exact ⟨epochManager, swept_sweepSlots visit _ t.base.hashTable i, hretire⟩

section Rule
variable {I : SharedHashTable setting → Prop}

theorem evictLoop_invariant {rs : RecordSerializer} {visit : RecordBuffer → Option RecordBuffer}
    (hsweep : ∀ (t : WritableHashTable setting) i, I t.base.hashTable →
      I (sweepBucket rs visit t i).1.base.hashTable)
    (h : I t.base.hashTable) (n numBytesToFree : Nat) :
    I (evictLoop rs visit n numBytesToFree t).base.hashTable := by
  induction n generalizing numBytesToFree t with
  | zero => exact h
  | succ n ih =>
    rw [evictLoop]
    split_ifs
    · exact h
    · exact h
    · exact ih (hsweep { t with currentEvictBucketIndex := t.currentEvictBucketIndex + 1 } _ h) _

theorem makeRoom_invariant [Platform] {times : AddTimes}
    (htime : ∀ (t : WritableHashTable setting) i, I t.base.hashTable →
      I (sweepBucket setting.cacheRecordSerializer (visitBasedOnTime setting.cacheRecordSerializer
        options times.evictBasedOnTime) t i).1.base.hashTable)
    (hclock : ∀ (t : WritableHashTable setting) i, I t.base.hashTable →
      I (sweepBucket setting.cacheRecordSerializer (visitClock setting.cacheRecordSerializer
        options times.evict) t i).1.base.hashTable)
    (h : I t.base.hashTable) (key : Key) (value : Value) :
    I (makeRoom options t key value times).1.base.hashTable := by
  have hevict {t : WritableHashTable setting} (ht : I t.base.hashTable) (bytesNeeded : Nat) :
      I (evict options t bytesNeeded times.evict).base.hashTable := by
    simp only [evict]
    split_ifs
    · exact ht
    · exact evictLoop_invariant hclock ht _ _
  have htimeBased : I (evictBasedOnTime options t key
      times.evictBasedOnTime).1.base.hashTable := by
    simp only [evictBasedOnTime]
    cases getBucketInfo setting key with
    | error e => exact h
    | ok info => exact htime t info.1 h
  rw [makeRoom]
  split_ifs
  · cases hresult : evictBasedOnTime options t key times.evictBasedOnTime with
    | mk t₁ result =>
      rw [hresult] at htimeBased
      cases result with
      | error e => exact htimeBased
      | ok _ => exact hevict htimeBased _
  · exact hevict h _

end Rule

section Sound
variable [Platform] {rs : RecordSerializer} {P : RecordBuffer → Prop}
  {visit : RecordBuffer → Option RecordBuffer} {Q : Key → Value → Int → Prop}

theorem sound_sweepBucket (h : Sound rs P t.base.hashTable)
    (hvisit : ∀ record record', visit record = some record' → Keeps rs P record record')
    (i : setting.BucketIndex) : Sound rs P (sweepBucket rs visit t i).1.base.hashTable := by
  obtain ⟨epochManager, hswept, heq⟩ := sweepBucket_eq rs visit t i
  rw [heq]
  exact (hswept.sound hvisit h).congr rfl rfl

theorem sound_makeRoom (options : Options)
    (h : Sound setting.cacheRecordSerializer (CachedWith setting.cacheRecordSerializer Q)
      t.base.hashTable) (key : Key) (value : Value) (times : AddTimes) :
    Sound setting.cacheRecordSerializer (CachedWith setting.cacheRecordSerializer Q)
      (makeRoom options t key value times).1.base.hashTable :=
  makeRoom_invariant (fun _ i ht => sound_sweepBucket ht (fun _ _ => keeps_visitBasedOnTime) i)
    (fun _ i ht => sound_sweepBucket ht (fun _ _ => keeps_visitClock) i) h key value

end Sound

end WritableHashTable

end Cache

end L4
