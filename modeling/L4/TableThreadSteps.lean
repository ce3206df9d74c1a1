import L4.TableThreads

namespace L4.TableThreads
set_option autoImplicit true
open SharedHashTable (getBucketInfo bucketOf tagOf)
open ReadWrite (Published publish)
open Cache (Sound CacheRecord Keeps Options touched_setBucket)
variable {setting : Setting} {config : HashTableConfig}

/-- A property of the record that is being added, and one of its buffer. -/
def Phase.Carries (P : Record → Prop) (Q : RecordBuffer → Prop) : Phase setting → Prop
  | .evictingBasedOnTime record | .calculating record .. | .waiting record | .evicting record ..
  | .sweeping record .. | .creating record => P record
  | .adding recordToAdd => Q recordToAdd
  | _ => True

theorem carries_true (phase : Phase setting) :
    phase.Carries (fun _ => True) (fun _ => True) := by
  cases phase <;> trivial

section Table
variable [Platform] {rs : RecordSerializer} {t t' : SharedHashTable setting}

theorem getBucketInfo_eq_ok (h : getBucketInfo setting key = .ok (i, tag)) :
    i.val = bucketOf setting key ∧ tag = tagOf key := by
  rw [getBucketInfo] at h
  split_ifs at h
  obtain ⟨rfl, rfl⟩ := Prod.mk.inj (Except.ok.inj h)
  exact ⟨rfl, rfl⟩

theorem published_of_scan (h : t.Consistent rs)
    (hinfo : getBucketInfo setting (rs.keyOf record) = .ok (i, tag))
    (hslot : (t.buckets[i].scan rs (rs.keyOf record) tag).entryToUpdate = some p)
    (hpublish : publish rs t i tag record = (stat, old, t')) :
    Published rs t record (i, p) stat old t' := by
  obtain ⟨hi, rfl⟩ := getBucketInfo_eq_ok hinfo
  obtain ⟨q, hchosen, hp⟩ := ReadWrite.published h hi
  obtain rfl := Option.some.inj (hslot.symm.trans hchosen)
  rw [hpublish] at hp
  exact hp

omit [Platform] in
theorem createRecordBuffer_allocates {t t' : SharedHashTable config.setting} {record : Record}
    (h : createRecordBuffer config t record time = (t', result)) :
    ∃ allocator, t' = t.setAllocator allocator ∧ allocator.next = t.allocator.next + 1 ∧
      ∀ recordToAdd, result = .ok recordToAdd → recordToAdd.address = t.allocator.next := by
  have haddress {bytes : Except Failure (List UInt8)} {recordToAdd : RecordBuffer}
      (heq : bytes.map (RecordBuffer.mk t.allocator.next) = .ok recordToAdd) :
      recordToAdd.address = t.allocator.next := by
    cases bytes with
    | error e => cases heq
    | ok bytes => exact (congrArg RecordBuffer.address (Except.ok.inj heq)).symm
  rw [createRecordBuffer] at h
  split at h
  · obtain ⟨rfl, rfl⟩ := Prod.mk.inj h
    exact ⟨_, rfl, rfl, fun _ heq => haddress heq⟩
  · obtain ⟨rfl, rfl⟩ := Prod.mk.inj h
    exact ⟨_, rfl, rfl, fun _ heq => haddress heq⟩

omit [Platform] in
theorem touch_cases (t : SharedHashTable setting) (rs : RecordSerializer) (s : setting.Slot)
    (address : Nat) :
    touch t rs s address = t ∨ ∃ record, t.load s = some record ∧
      touch t rs s address = t.setBucket s.1 (t.buckets[s.1].storeData s.2
        (some (Cache.storeMetadata rs record
          (Cache.Metadata.updateAccessStatus true (Cache.metadataOf rs record)).2))) := by
  rw [touch]
  cases hload : t.load s with
  | none => exact .inl rfl
  | some record =>
    simp only
    split_ifs with haddress
    · exact .inr ⟨record, rfl, rfl⟩
    · exact .inl rfl

omit [Platform] in
theorem touch_perfData (t : SharedHashTable setting) (rs : RecordSerializer) (s : setting.Slot)
    (address : Nat) : (touch t rs s address).perfData = t.perfData := by
  unfold touch
  split
  · rfl
  · split <;> rfl

end Table

/-- Storing the access bit keeps a property of the records. -/
def KeptByAccess (rs : RecordSerializer) (P : RecordBuffer → Prop) : Prop :=
  ∀ record set, Keeps rs P record (Cache.storeMetadata rs record
    (Cache.Metadata.updateAccessStatus set (Cache.metadataOf rs record)).2)

theorem keptByAccess_cacheRecord (setting : Setting) :
    KeptByAccess setting.cacheRecordSerializer (CacheRecord setting) :=
  Cache.keeps_updateAccessStatus setting fun _ _ _ => True

theorem Sweep.visit_cases {sweep : Sweep} (h : sweep.visit rs options record = some record') :
    record' = record ∨ record' = Cache.storeMetadata rs record
      (Cache.Metadata.updateAccessStatus false (Cache.metadataOf rs record)).2 := by
  cases sweep with
  | basedOnTime curEpochTime =>
    simp only [Sweep.visit, Cache.visitBasedOnTime] at h
    split_ifs at h
    exact .inl (Option.some.inj h).symm
  | clock curEpochTime numIterationsRemaining numBytesToFree =>
    simp only [Sweep.visit, Cache.visitClock] at h
    split_ifs at h
    exact .inr (Option.some.inj h).symm

theorem KeptByAccess.visit (hP : KeptByAccess rs P) {sweep : Sweep}
    (h : sweep.visit rs options record = some record') : Keeps rs P record record' := by
  rcases Sweep.visit_cases h with rfl | rfl
  · exact fun hrecord => ⟨hrecord, rfl, rfl⟩
  · exact hP record false

section Acts
variable [Platform] {others : List (Thread config.setting)} {t t' : Table config}
  {th th' : Thread config.setting} {label : Label config.setting}

theorem Act.sound (h : Act config others t th label t' th')
    (hP : KeptByAccess config.recordSerializer P)
    (hs : Sound config.recordSerializer P t.hashTable) (hth : th.phase.Carries Q P) :
    Sound config.recordSerializer P t'.hashTable := by
  cases h with
  | update u tasks => exact hs.congr rfl rfl
  | visitStays hcache hload hvisit =>
    exact hs.touched hload (hP.visit hvisit) (touched_setBucket hload _)
  | visitRemoves hcache hload hvisit => exact hs.unlinked (ReadWrite.unlinked_of_load hload)
  | createRecordBuffer curEpochTime hcreate =>
    obtain ⟨allocator, rfl, -⟩ := createRecordBuffer_allocates hcreate
    exact hs.congr rfl rfl
  | createRecordBufferThrows curEpochTime hcreate =>
    obtain ⟨allocator, rfl, -⟩ := createRecordBuffer_allocates hcreate
    exact hs.congr rfl rfl
  | add hinfo hlock hslot hpublish =>
    exact hs.published (published_of_scan hs.consistent hinfo hslot hpublish) hth
  | remove hinfo hlock hfind =>
    have hload : t.hashTable.load (_, _) = some _ := (Bucket.find?_some hfind).1
    exact hs.unlinked (ReadWrite.unlinked_of_load hload)
  | touch s r =>
    change Sound _ _ (TableThreads.touch t.hashTable config.recordSerializer s r.address)
    rcases touch_cases t.hashTable config.recordSerializer s r.address with
      heq | ⟨record, hload, heq⟩
    · rw [heq]
      exact hs
    · rw [heq]
      exact hs.touched hload (hP record true) (touched_setBucket hload _)
  | _ => exact hs

theorem Step.consistent {p p' : System config} (h : Step config p label p')
    (hs : p.shared.hashTable.Consistent config.recordSerializer) :
    p'.shared.hashTable.Consistent config.recordSerializer := by
  cases h with
  | intro before after hact =>
    exact (hact.sound (P := fun _ => True) (Q := fun _ => True)
      (Cache.keeps_of_updateAccessStatus _) ⟨hs, fun _ _ _ => trivial⟩ (carries_true _)).consistent

/-- No operation is in flight. -/
def Quiescent (p : System config) : Prop := ∀ th ∈ p.threads, th = ⟨[], .idle⟩

theorem quiescent_initial (config : HashTableConfig) (allocator : Allocator) (numThreads : Nat) :
    Quiescent (initial config allocator numThreads) := fun _ hth => List.eq_of_mem_replicate hth

omit [Platform] in
theorem Quiescent.sum_eq_zero {p : System config} (h : Quiescent p)
    {f : Thread config.setting → Int} (hf : f ⟨[], .idle⟩ = 0) : (p.threads.map f).sum = 0 := by
  refine List.sum_eq_zero fun x hx => ?_
  obtain ⟨th, hth, rfl⟩ := List.mem_map.mp hx
  rw [h th hth, hf]

omit [Platform] in
theorem Quiescent.flatMap_eq_nil {p : System config} (h : Quiescent p)
    {f : Thread config.setting → List β} (hf : f ⟨[], .idle⟩ = []) : p.threads.flatMap f = [] :=
  List.flatMap_eq_nil_iff.mpr fun th hth => by rw [h th hth, hf]

end Acts

end L4.TableThreads
