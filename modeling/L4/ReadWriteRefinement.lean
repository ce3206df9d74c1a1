import L4.ReadWriteOperations

namespace L4
set_option autoImplicit true

/-- The serializer that `ReadOnlyHashTable` sets up when it is given none. -/
def Setting.recordSerializer (setting : Setting) : RecordSerializer :=
  ⟨setting.fixedKeySize, setting.fixedValueSize, 0⟩

namespace ReadWrite
open SharedHashTable (tagOf bucketOf)
variable {setting : Setting}

/-- A call of the interface of the writable table. -/
inductive Call where
  | add (key : Key) (value : Value)
  | remove (key : Key)
  | get (key : Key)

inductive Response where
  | added
  | removed (found : Bool)
  | got (value : Option Value)
deriving DecidableEq

/-- What the table is for: a map from keys to values. -/
abbrev Mapping := Key → Option Value

namespace Call

def Accepted (setting : Setting) : Call → Prop
  | .add key value => setting.recordSerializer.Validates key value
  | _ => True

instance (setting : Setting) : DecidablePred (Accepted setting)
  | .add key value => inferInstanceAs (Decidable (setting.recordSerializer.Validates key value))
  | .remove _ => isTrue trivial
  | .get _ => isTrue trivial

/-- The effect of a call on the map and its response. -/
def apply (m : Mapping) : Call → Mapping × Response
  | .add key value => (Function.update m key (some value), .added)
  | .remove key => (Function.update m key none, .removed (m key).isSome)
  | .get key => (m, .got (m key))

def applyAll (m : Mapping) : List Call → Mapping × List Response
  | [] => (m, [])
  | c :: cs => ((applyAll (c.apply m).1 cs).1, (c.apply m).2 :: (applyAll (c.apply m).1 cs).2)

end Call

namespace WritableHashTable
variable [Platform]

/-- A new table with its setting, and an epoch manager that other tables may use as well. -/
def create (setting : Setting) (allocator : Allocator) (epochManager : EpochManager RecordBuffer) :
    WritableHashTable setting (EpochManager RecordBuffer) :=
  ⟨.create setting allocator, epochManager⟩

def call (t : WritableHashTable setting (EpochManager RecordBuffer)) : Call →
    WritableHashTable setting (EpochManager RecordBuffer) × Except Failure Response
  | .add key value =>
    let (t, result) := t.add setting.recordSerializer key value
    (t, result.map fun _ => .added)
  | .remove key =>
    let (t, result) := t.remove setting.recordSerializer key
    (t, result.map .removed)
  | .get key => (t, (ReadWrite.get setting.recordSerializer t.hashTable key).map .got)

def run (t : WritableHashTable setting (EpochManager RecordBuffer)) : List Call →
    WritableHashTable setting (EpochManager RecordBuffer) × List (Except Failure Response)
  | [] => (t, [])
  | c :: cs => ((run (t.call c).1 cs).1, (t.call c).2 :: (run (t.call c).1 cs).2)

end WritableHashTable

/-- The table is consistent and stores the map. -/
structure Refines [Platform] (rs : RecordSerializer) (t : SharedHashTable setting) (m : Mapping) :
    Prop where
  consistent : t.Consistent rs
  represents : ∃ records, KeyedSlots.Represents rs.keyOf t.load records ∧
    ∀ key, m key = (records key).map rs.valueOf

namespace Refines
variable [Platform] {rs : RecordSerializer} {t : SharedHashTable setting}

theorem create (rs : RecordSerializer) (allocator : Allocator) :
    Refines rs (.create setting allocator) fun _ => none := by
  refine ⟨SharedHashTable.consistent_create rs allocator, fun _ => none, ?_, fun _ => rfl⟩
  rw [SharedHashTable.load_create]
  exact KeyedSlots.represents_empty

theorem congr {t' : SharedHashTable setting} (h : Refines rs t m) (hload : t'.load = t.load)
    (htag : t'.tag = t.tag) : Refines rs t' m :=
  ⟨h.consistent.congr hload htag, hload ▸ h.represents⟩

theorem published (h : Refines rs t m) (hp : Published rs t record s stat old t') :
    Refines rs t' (Function.update m (rs.keyOf record) (some (rs.valueOf record))) := by
  obtain ⟨records, hm, hvalues⟩ := h.represents
  refine ⟨hp.consistent h.consistent, Function.update records (rs.keyOf record) (some record),
    ?_, fun key => ?_⟩
  · rw [hp.stored.load]
    exact hm.update_some hp.admits
  · simp only [Function.update_apply, hvalues key]
    split_ifs <;> rfl

theorem unlinked (h : Refines rs t m) (hs : t.load s = some record) (hu : Unlinked t s old t') :
    Refines rs t' (Function.update m (rs.keyOf record) none) := by
  obtain ⟨records, hm, hvalues⟩ := h.represents
  refine ⟨hu.consistent h.consistent, Function.update records (rs.keyOf record) none,
    ?_, fun key => ?_⟩
  · rw [hu.stored.load]
    exact hm.update_none h.consistent.unique hs
  · simp only [Function.update_apply, hvalues key]
    split_ifs <;> rfl

theorem map_eq_some (h : Refines rs t m) :
    m key = some value ↔ ∃ s r, t.load s = some r ∧ rs.keyOf r = key ∧ rs.valueOf r = value := by
  obtain ⟨records, hm, hvalues⟩ := h.represents
  rw [hvalues key, Option.map_eq_some_iff]
  constructor
  · rintro ⟨r, hr, hv⟩
    obtain ⟨s, hs, hk⟩ := (hm key r).mp hr
    exact ⟨s, r, hs, hk, hv⟩
  · rintro ⟨s, r, hs, hk, hv⟩
    exact ⟨r, (hm key r).mpr ⟨s, hs, hk⟩, hv⟩

theorem map_eq_none (h : Refines rs t m) :
    m key = none ↔ ∀ s r, t.load s = some r → rs.keyOf r ≠ key := by
  obtain ⟨records, hm, hvalues⟩ := h.represents
  rw [hvalues key, Option.map_eq_none_iff, hm.eq_none]

theorem get_eq (h : Refines rs t m) (hb : setting.numBuckets ≠ 0) (key : Key) :
    get rs t key = .ok (m key) := by
  obtain ⟨records, hm, hvalues⟩ := h.represents
  rw [ReadWrite.get_eq h.consistent hb hm, hvalues key]

theorem find?_records (h : Refines rs t m) (key : Key) :
    m key = (t.records.find? fun r => decide (rs.keyOf r = key)).map rs.valueOf := by
  cases hf : t.records.find? fun r => decide (rs.keyOf r = key) with
  | none =>
    rw [List.find?_eq_none] at hf
    refine h.map_eq_none.mpr fun s r hs hk => ?_
    exact hf r (SharedHashTable.mem_records.mpr ⟨s, hs⟩) (decide_eq_true hk)
  | some r =>
    obtain ⟨s, hs⟩ := SharedHashTable.mem_records.mp (List.mem_of_find?_eq_some hf)
    exact h.map_eq_some.mpr ⟨s, r, hs, by simpa using List.find?_some hf, rfl⟩

end Refines

/-- What an accepted call does to a consistent table, and its response. -/
inductive Effect [Platform] (rs : RecordSerializer) (t : SharedHashTable setting) :
    Call → Response → SharedHashTable setting → Prop
  | added (key : Key) (value : Value) (allocator : Allocator) (record : RecordBuffer)
      (s : setting.Slot) (stat : Stat) (t' : SharedHashTable setting)
      (hrecord : rs.deserialize record.bytes = ⟨key, value⟩)
      (hp : Published rs (t.setAllocator allocator) record s stat (t.load s) t') :
      Effect rs t (.add key value) .added (t'.updatePerfData (updatePerfDataForAdd rs stat))
  | removed (record : RecordBuffer) (s : setting.Slot) (t' : SharedHashTable setting)
      (hs : t.load s = some record) (hu : Unlinked t s (some record) t') :
      Effect rs t (.remove (rs.keyOf record)) (.removed true)
        (t'.updatePerfData (perfUpdatesForRemoved rs record))
  | missed (key : Key) (hnone : ∀ s r, t.load s = some r → rs.keyOf r ≠ key) :
      Effect rs t (.remove key) (.removed false) t
  | got (key : Key) (value : Option Value) (hget : get rs t key = .ok value) :
      Effect rs t (.get key) (.got value) t

theorem Effect.refines [Platform] {rs : RecordSerializer} {t t' : SharedHashTable setting}
    (he : Effect rs t c response t') (h : Refines rs t m) (hb : setting.numBuckets ≠ 0) :
    Refines rs t' (c.apply m).1 ∧ response = (c.apply m).2 := by
  cases he with
  | added key value allocator record s stat t' hrecord hp =>
    have ht : Refines rs (t.setAllocator allocator) m := h.congr rfl rfl
    have hr := ht.published hp
    simp only [RecordSerializer.keyOf, RecordSerializer.valueOf, hrecord] at hr
    exact ⟨hr.congr rfl rfl, rfl⟩
  | removed record s t' hs hu =>
    refine ⟨(h.unlinked hs hu).congr rfl rfl, ?_⟩
    rw [Call.apply, h.map_eq_some.mpr ⟨s, record, hs, rfl, rfl⟩]
    rfl
  | missed key hnone =>
    have hm := h.map_eq_none.mpr hnone
    have hupdate : Function.update m key none = m := by rw [← hm, Function.update_eq_self]
    rw [Call.apply, hupdate, hm]
    exact ⟨h, rfl⟩
  | got key value hget =>
    rw [h.get_eq hb] at hget
    obtain rfl := Except.ok.inj hget
    exact ⟨h, rfl⟩

theorem Effect.consistent [Platform] {rs : RecordSerializer} {t t' : SharedHashTable setting}
    (he : Effect rs t c response t') (h : t.Consistent rs) : t'.Consistent rs := by
  cases he with
  | added key value allocator record s stat t' hrecord hp =>
    exact (hp.consistent (h.congr rfl rfl)).congr rfl rfl
  | removed record s t' hs hu => exact (hu.consistent h).congr rfl rfl
  | missed key hnone => exact h
  | got key value hget => exact h

theorem Effect.chainLength_le [Platform] {rs : RecordSerializer} {t t' : SharedHashTable setting}
    (he : Effect rs t c response t') (i : setting.BucketIndex) :
    t.buckets[i].chainLength ≤ t'.buckets[i].chainLength := by
  cases he with
  | added key value allocator record s stat t' hrecord hp => exact hp.stored.chainLength_mono i
  | removed record s t' hs hu => exact hu.stored.chainLength_mono i
  | missed key hnone => exact Nat.le_refl _
  | got key value hget => exact Nat.le_refl _

namespace WritableHashTable
variable [Platform] {t : WritableHashTable setting (EpochManager RecordBuffer)}

omit [Platform] in
theorem releaseRecord_ok (t : WritableHashTable setting (EpochManager RecordBuffer))
    (record : Option RecordBuffer) :
    ∃ epochManager, releaseRecord t record = ({ t with epochManager }, .ok ()) := by
  cases record with
  | none => exact ⟨t.epochManager, rfl⟩
  | some record => exact ⟨_, rfl⟩

theorem call_effect (h : t.hashTable.Consistent setting.recordSerializer)
    (hb : setting.numBuckets ≠ 0) {c : Call} (hc : c.Accepted setting) :
    ∃ response, (t.call c).2 = .ok response ∧
      Effect setting.recordSerializer t.hashTable c response (t.call c).1.hashTable := by
  cases c with
  | add key value =>
    obtain ⟨record, allocator, s, stat, hashTable, hrecord, hp, hadd⟩ := add_eq h hb rfl hc
    obtain ⟨epochManager, hrelease⟩ := releaseRecord_ok { t with
      hashTable := hashTable.updatePerfData (updatePerfDataForAdd setting.recordSerializer stat) }
      (t.hashTable.load s)
    rw [hrelease] at hadd
    simp only [call, hadd]
    exact ⟨.added, rfl, .added key value allocator record s stat hashTable hrecord hp⟩
  | remove key =>
    rcases remove_eq h hb key with ⟨hnone, hremove⟩ | ⟨s, record, hs, rfl, hremove⟩
    · simp only [call, hremove]
      exact ⟨.removed false, rfl, .missed key hnone⟩
    · obtain ⟨hashTable, hu, hremoveAt⟩ := removeAt_eq setting.recordSerializer hs
      obtain ⟨epochManager, hrelease⟩ := releaseRecord_ok { t with
        hashTable := hashTable.updatePerfData
          (perfUpdatesForRemoved setting.recordSerializer record) } (some record)
      rw [hremoveAt, hrelease] at hremove
      simp only [call, hremove]
      exact ⟨.removed true, rfl, .removed record s hashTable hs hu⟩
  | get key =>
    obtain ⟨i, -, hinfo⟩ := SharedHashTable.getBucketInfo_ok hb key
    have hget : get setting.recordSerializer t.hashTable key =
      .ok ((t.hashTable.buckets[i].find? setting.recordSerializer key (tagOf key)).map
        fun found => setting.recordSerializer.valueOf found.2) := by
      rw [get, hinfo]
      rfl
    simp only [call, hget]
    exact ⟨.got _, rfl, .got key _ hget⟩

theorem call_cases (h : t.hashTable.Consistent setting.recordSerializer) (c : Call) :
    (c.Accepted setting ∧
      ∃ response, Effect setting.recordSerializer t.hashTable c response (t.call c).1.hashTable) ∨
    (t.call c).1.hashTable.buckets = t.hashTable.buckets := by
  by_cases hb : setting.numBuckets = 0
  · refine .inr (Vector.ext fun i hi => ?_)
    rw [hb] at hi
    exact absurd hi (Nat.not_lt_zero i)
  · by_cases hc : c.Accepted setting
    · obtain ⟨response, -, he⟩ := call_effect h hb hc
      exact .inl ⟨hc, response, he⟩
    · cases c with
      | add key value =>
        have hadd := add_of_rejected t hc
        refine .inr ?_
        simp only [call, hadd]
        rfl
      | remove key => exact absurd trivial hc
      | get key => exact absurd trivial hc

/-- One call does to the table what it does to the map, and gives the same response. -/
theorem call_refines (h : Refines setting.recordSerializer t.hashTable m)
    (hb : setting.numBuckets ≠ 0) {c : Call} (hc : c.Accepted setting) :
    Refines setting.recordSerializer (t.call c).1.hashTable (c.apply m).1 ∧
      (t.call c).2 = .ok (c.apply m).2 := by
  obtain ⟨response, hresponse, he⟩ := call_effect h.consistent hb hc
  obtain ⟨hr, rfl⟩ := he.refines h hb
  exact ⟨hr, hresponse⟩

theorem run_refines (h : Refines setting.recordSerializer t.hashTable m)
    (hb : setting.numBuckets ≠ 0) {calls : List Call} (hcalls : ∀ c ∈ calls, c.Accepted setting) :
    Refines setting.recordSerializer (t.run calls).1.hashTable (Call.applyAll m calls).1 ∧
      (t.run calls).2 = (Call.applyAll m calls).2.map .ok := by
  induction calls generalizing t m with
  | nil => exact ⟨h, rfl⟩
  | cons c cs ih =>
    obtain ⟨hr, hresult⟩ := call_refines h hb (hcalls c (by simp))
    obtain ⟨hrs, hresults⟩ := ih hr fun c' hc' => hcalls c' (List.mem_cons_of_mem _ hc')
    exact ⟨hrs, by simp only [run, Call.applyAll, hresult, hresults, List.map_cons]⟩

/-- The table refines a finite map. Every run of accepted calls gives the responses of the map,
and leaves a table in which every key has at most one slot, in its own bucket, every occupied
slot has the tag of its key, and the look up agrees with a scan of all records. -/
theorem run_refines_finite_map (hb : setting.numBuckets ≠ 0) (allocator : Allocator)
    (epochManager : EpochManager RecordBuffer) (calls : List Call)
    (hcalls : ∀ c ∈ calls, c.Accepted setting) :
    let rs := setting.recordSerializer
    let t := ((create setting allocator epochManager).run calls).1.hashTable
    ((create setting allocator epochManager).run calls).2 =
        (Call.applyAll (fun _ => none) calls).2.map .ok ∧
      (∀ s s' r r', t.load s = some r → t.load s' = some r' → rs.keyOf r = rs.keyOf r' → s = s') ∧
      (∀ s r, t.load s = some r →
        s.1.val = bucketOf setting (rs.keyOf r) ∧ t.tag s = tagOf (rs.keyOf r)) ∧
      ∀ key, get rs t key = .ok ((Call.applyAll (fun _ => none) calls).1 key) ∧
        get rs t key =
          .ok ((t.records.find? fun r => decide (rs.keyOf r = key)).map rs.valueOf) := by
  obtain ⟨h, hresponses⟩ := run_refines
    (t := create setting allocator epochManager) (Refines.create _ allocator) hb hcalls
  refine ⟨hresponses, h.consistent.unique,
    fun s r hs => ⟨h.consistent.home s r hs, h.consistent.tags s r hs⟩, fun key => ?_⟩
  rw [h.get_eq hb key]
  exact ⟨rfl, congrArg _ (h.find?_records key)⟩

omit [Platform] in
/-- An empty key with an empty value, which is then overwritten, read and removed. -/
theorem run_refines_finite_map_of_empty :
    let platform : Platform := ⟨fun _ => (7, 0), 8, 64⟩
    let empty : Key := ⟨[], by decide⟩
    let calls := [.add empty ⟨[], by decide⟩, .get empty, .add empty ⟨[1], by decide⟩, .get empty,
      .remove empty, .get empty]
    ((create {} ⟨0, []⟩ ⟨0, ⟨0, 0, [0], by decide⟩, ⟨[.empty], 0⟩⟩).run calls).2 =
      [.ok .added, .ok (.got (some ⟨[], by decide⟩)), .ok .added,
        .ok (.got (some ⟨[1], by decide⟩)), .ok (.removed true), .ok (.got none)] := by
  intro platform empty calls
  exact (@run_refines_finite_map {} platform (by decide) ⟨0, []⟩ _ calls (by decide)).1

end WritableHashTable

end ReadWrite

end L4
