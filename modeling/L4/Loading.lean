import L4.Deserializer

namespace L4
set_option autoImplicit true
open PrefixCode

/-- Every slot before an occupied one is occupied. -/
def Bucket.Compact (b : Bucket Data) : Prop :=
  ∀ p q, p.Before q → b.load p = none → b.load q = none

theorem Bucket.compact_empty : (Bucket.empty : Bucket Data).Compact := by
  intro p q _ _
  exact load_empty q

theorem Bucket.Compact.append {b b' : Bucket Data} (h : b.Compact) (hp : b.load p = none)
    (hfirst : ∀ q, q.Before p → ∃ d, b.load q = some d)
    (hload : b'.load = Function.update b.load p (some d)) (hlt : p.entry < b'.chainLength)
    (hle : b.chainLength ≤ b'.chainLength) :
    b'.Compact ∧ b'.records = b.records ++ [d] := by
  constructor
  · intro q r hbefore hq
    rw [hload, Function.update_apply] at hq ⊢
    split_ifs at hq with hqp
    have hpq : p.Before q := by
      rcases SlotIndex.before_trichotomy p q with hpq | rfl | hpq
      · exact hpq
      · exact absurd rfl hqp
      · obtain ⟨d', hd'⟩ := hfirst q hpq
        rw [hq] at hd'
        cases hd'
    have hrp : r ≠ p := by
      rintro rfl
      exact r.before_irrefl (hpq.trans hbefore)
    rw [if_neg hrp]
    exact h q r hbefore hq
  · obtain ⟨before, after, -, hafter, hrecords, hrecords'⟩ := records_update hlt hle hload
    have hnone : after.filterMap b.load = [] :=
      List.filterMap_eq_nil_iff.mpr fun q hq => h p q (hafter q hq) hp
    rw [hrecords', hrecords, hnone, hp]
    simp

namespace SharedHashTable
variable {setting : Setting} {rs : RecordSerializer} {t t' : SharedHashTable setting}

/-- The stored keys and values, in the order of the slots. -/
def keyValues (rs : RecordSerializer) (t : SharedHashTable setting) : List Record :=
  t.records.map fun record => rs.deserialize record.bytes

theorem mem_keyValues : r ∈ keyValues rs t ↔
    ∃ s record, t.load s = some record ∧ rs.deserialize record.bytes = r := by
  simp only [keyValues, List.mem_map, mem_records]
  constructor
  · intro h
    obtain ⟨record, ⟨s, hs⟩, hr⟩ := h
    exact ⟨s, record, hs, hr⟩
  · intro h
    obtain ⟨s, record, hs, hr⟩ := h
    exact ⟨record, ⟨s, hs⟩, hr⟩

theorem keyValues_congr (h : t'.buckets = t.buckets) : keyValues rs t' = keyValues rs t := by
  simp only [keyValues, records, h]

variable [Platform]

theorem Consistent.pairwise_keys (h : t.Consistent rs) :
    (keyValues rs t).Pairwise fun r r' => r.key ≠ r'.key := by
  rw [keyValues, List.pairwise_map, records_eq, List.pairwise_filterMap]
  apply t.slots_pairwise.imp
  intro s s' hbefore r hr r' hr' hkey
  obtain rfl := h.unique s s' r r' hr hr' hkey
  exact slotBefore_irrefl s hbefore

/-- The table has been filled with the given records, one after the other. -/
structure Filled (rs : RecordSerializer) (t : SharedHashTable setting) (added : List Record) :
    Prop where
  consistent : t.Consistent rs
  compact : ∀ i : setting.BucketIndex, t.buckets[i].Compact
  inOrder : ∀ i : setting.BucketIndex,
    (t.buckets[i].records.map fun record => rs.deserialize record.bytes) =
      added.filter fun r => decide (bucketOf setting r.key = i.val)
  perm : (keyValues rs t).Perm added

theorem filled_create (rs : RecordSerializer) (allocator : Allocator) :
    Filled rs (create setting allocator) [] where
  consistent := consistent_create rs allocator
  compact i := by
    simp only [create, getElem_fin, Vector.getElem_replicate]
    exact Bucket.compact_empty
  inOrder i := by simp [create, Bucket.records]
  perm := by simp [keyValues, records, create, Bucket.records]

theorem Filled.published (h : Filled rs t added)
    (hp : ReadWrite.Published rs t record s stat none t') :
    Filled rs t' (added ++ [rs.deserialize record.bytes]) := by
  obtain ⟨i, p⟩ := s
  have hnone : t.load (i, p) = none := hp.replaced.symm
  have hload : t'.buckets[i].load = Function.update t.buckets[i].load p (some record) := by
    funext q
    have hq := congrFun hp.stored.load (i, q)
    simp only [Function.update_apply, Prod.mk.injEq, true_and] at hq ⊢
    exact hq
  have happend := (h.compact i).append hnone (hp.first hnone) hload hp.stored.entry_lt
    hp.stored.chainLength_le
  refine ⟨hp.consistent h.consistent, fun j => ?_, fun j => ?_, ?_⟩
  · by_cases hj : j = i
    · rw [hj]
      exact happend.1
    · rw [hp.stored.other j hj]
      exact h.compact j
  · rw [List.filter_append, ← h.inOrder j]
    by_cases hj : j = i
    · have hhome : bucketOf setting (rs.deserialize record.bytes).key = i.val := hp.home.symm
      rw [hj, happend.2, List.map_append, List.filter_cons, if_pos (decide_eq_true hhome)]
      rfl
    · have hhome : ¬ bucketOf setting (rs.deserialize record.bytes).key = j.val := by
        intro hhome
        exact hj (Fin.ext (hhome.symm.trans hp.home.symm))
      rw [hp.stored.other j hj, List.filter_cons, decide_eq_false hhome]
      simp
  · obtain ⟨before, after, hrecords, hrecords'⟩ := hp.stored.records
    rw [hnone] at hrecords
    have hperm : (keyValues rs t').Perm (keyValues rs t ++ [rs.deserialize record.bytes]) := by
      simp only [keyValues, hrecords, hrecords', Option.toList_none, Option.toList_some,
        List.map_append, List.map_cons, List.map_nil, List.append_nil, List.append_assoc]
      exact List.perm_append_comm.append_left _
    exact hperm.trans (h.perm.append_right _)

theorem Filled.congr (h : Filled rs t added) (hbuckets : t'.buckets = t.buckets) :
    Filled rs t' added where
  consistent := h.consistent.congr (load_congr hbuckets) (tag_congr hbuckets)
  compact i := by
    rw [hbuckets]
    exact h.compact i
  inOrder i := by
    rw [hbuckets]
    exact h.inOrder i
  perm := by
    rw [keyValues_congr hbuckets]
    exact h.perm

theorem Filled.absent_iff (h : Filled rs t added) :
    (∀ r ∈ added, r.key ≠ key) ↔ ∀ s record, t.load s = some record → rs.keyOf record ≠ key := by
  constructor
  · intro hn s record hs
    exact hn _ (h.perm.mem_iff.mp (mem_keyValues.mpr ⟨s, record, hs, rfl⟩))
  · intro hn r hr
    obtain ⟨s, record, hs, rfl⟩ := mem_keyValues.mp (h.perm.mem_iff.mpr hr)
    exact hn s record hs

theorem Consistent.filter_keyValues (h : t.Consistent rs) (i : setting.BucketIndex) :
    (keyValues rs t).filter (fun r => decide (bucketOf setting r.key = i.val)) =
      t.buckets[i].records.map fun record => rs.deserialize record.bytes := by
  have hhome (j : setting.BucketIndex) (r : Record)
      (hr : r ∈ t.buckets[j].records.map fun record => rs.deserialize record.bytes) :
      bucketOf setting r.key = j.val := by
    obtain ⟨record, hrecord, rfl⟩ := List.mem_map.mp hr
    obtain ⟨p, hp⟩ := Bucket.mem_records.mp hrecord
    exact (h.home (j, p) record hp).symm
  have hother (j : setting.BucketIndex) (hj : j ≠ i) :
      (t.buckets[j].records.map fun record => rs.deserialize record.bytes).filter
        (fun r => decide (bucketOf setting r.key = i.val)) = [] := by
    rw [List.filter_eq_nil_iff]
    intro r hr hi
    exact hj (Fin.ext ((hhome j r hr).symm.trans (of_decide_eq_true hi)))
  have hsame : (t.buckets[i].records.map fun record => rs.deserialize record.bytes).filter
        (fun r => decide (bucketOf setting r.key = i.val)) =
      t.buckets[i].records.map fun record => rs.deserialize record.bytes :=
    List.filter_eq_self.mpr fun r hr => decide_eq_true (hhome i r hr)
  obtain ⟨before, after, hsplit⟩ := List.append_of_mem (List.mem_finRange i)
  have hnodup := List.nodup_finRange setting.numBuckets.toNat
  rw [hsplit, List.nodup_append, List.nodup_cons] at hnodup
  have hbefore := List.flatMap_eq_nil_iff.mpr fun j hj =>
    hother j (hnodup.2.2 j hj i (by simp))
  have hafter := List.flatMap_eq_nil_iff.mpr fun j hj => hother j fun hji =>
    hnodup.2.1.1 (hji ▸ hj)
  rw [keyValues, records, List.map_flatMap, List.filter_flatMap, hsplit, List.flatMap_append,
    List.flatMap_cons, hsame, hbefore, hafter, List.nil_append, List.append_nil]

/-- A table that has been filled with the records of another one stores them in the same order. -/
theorem Filled.keyValues_eq (h : Filled rs t' (keyValues rs t)) (ht : t.Consistent rs) :
    keyValues rs t' = keyValues rs t := by
  simp only [keyValues, records, List.map_flatMap]
  apply List.flatMap_congr
  intro i _
  rw [h.inOrder i, ht.filter_keyValues i]

end SharedHashTable

namespace ReadWrite
namespace Deserializer
open SharedHashTable (Filled getBucketInfo_error)
variable {setting : Setting}

/-- The records that the deserializer can add to those added before. -/
def Loadable (setting : Setting) (added : List Record) (r : Record) : Prop :=
  setting.numBuckets ≠ 0 ∧ setting.recordSerializer.Validates r.key r.value ∧
    ∀ r' ∈ added, r'.key ≠ r.key

variable [Platform] {t : WritableHashTable setting EpochActionManager}

theorem add_of_loadable (h : Filled setting.recordSerializer t.hashTable added)
    (hr : Loadable setting added ⟨key, value⟩) :
    ∃ table, t.add setting.recordSerializer key value = (table, .ok ()) ∧
      Filled setting.recordSerializer table.hashTable (added ++ [⟨key, value⟩]) := by
  obtain ⟨hb, hv, habsent⟩ := hr
  obtain ⟨record, allocator, s, stat, hashTable, hrecord, hp, hadd⟩ :=
    WritableHashTable.add_eq h.consistent hb rfl hv
  have hkey : setting.recordSerializer.keyOf record = key := by
    rw [RecordSerializer.keyOf, hrecord]
  have hnone : t.hashTable.load s = none := by
    cases hs : t.hashTable.load s with
    | none => rfl
    | some old => exact absurd ((hp.admits.1 old hs).trans hkey) (h.absent_iff.mp habsent s old hs)
  rw [hnone] at hp hadd
  refine ⟨_, hadd, ?_⟩
  have hroom : Filled setting.recordSerializer (t.hashTable.setAllocator allocator) added :=
    h.congr rfl
  have hfilled := hroom.published hp
  rw [hrecord] at hfilled
  exact hfilled.congr rfl

theorem add_of_not_loadable (h : Filled setting.recordSerializer t.hashTable added)
    (hr : ¬ Loadable setting added ⟨key, value⟩) :
    ∃ table e, t.add setting.recordSerializer key value = (table, .error e) := by
  by_cases hv : setting.recordSerializer.Validates key value
  · by_cases hb : setting.numBuckets = 0
    · have hmeta : setting.recordSerializer.metadataSize = 0 := rfl
      obtain ⟨record, allocator, -, hcreate⟩ :=
        createRecordBuffer_eq t.hashTable hmeta hv
      have hinfo := getBucketInfo_error hb (setting.recordSerializer.keyOf record)
      refine ⟨{ t with hashTable := t.hashTable.setAllocator allocator }, .divisionByZero, ?_⟩
      simp only [WritableHashTable.add, hcreate, WritableHashTable.addRecordBuffer, hinfo]
    · obtain ⟨record, allocator, s, stat, hashTable, hrecord, hp, hadd⟩ :=
        WritableHashTable.add_eq h.consistent hb rfl hv
      have hpresent : ∃ old, t.hashTable.load s = some old := by
        by_contra hs
        refine hr ⟨hb, hv, h.absent_iff.mpr fun s' old hs' hkey => hs ?_⟩
        have hkey' : setting.recordSerializer.keyOf record = key := by
          rw [RecordSerializer.keyOf, hrecord]
        obtain rfl := hp.admits.2 s' old hs' (hkey.trans hkey'.symm)
        exact ⟨old, hs'⟩
      obtain ⟨old, hs⟩ := hpresent
      rw [hs] at hadd
      exact ⟨_, _, hadd⟩
  · exact ⟨_, _, WritableHashTable.add_of_rejected t hv⟩

namespace Loading
variable {l l' : Loading setting} {added : List Record}

/-- The record that the next turn of the loop reads, and the stream after it. -/
def nextRecord (l : Loading setting) : Record × IStream :=
  let key := readKey l.stream l.keyBuffer
  let value := readValue key.stream l.valueBuffer
  (⟨key.blob, value.blob⟩, value.stream)

omit [Platform] in
theorem nextRecord_append (r : Record) (h : l.stream = ⟨r.serialize ++ rest, false⟩) :
    l.nextRecord = (r, ⟨rest, false⟩) := by
  rw [Record.serialize, List.append_assoc] at h
  have hkey : readKey l.stream l.keyBuffer = _ := readBlob_append _ _ r.key h
  have hvalue : readValue ⟨r.value.serialize RecordSerializer.sizeofValueSize ++ rest, false⟩
      l.valueBuffer = _ := readBlob_append _ _ r.value rfl
  simp only [nextRecord, hkey, hvalue]

omit [Platform] in
theorem of_nextRecord (h : l.nextRecord.2.failed = false) :
    l.stream.failed = false ∧
      l.stream.bytes = l.nextRecord.1.serialize ++ l.nextRecord.2.bytes := by
  obtain ⟨hkey, hvalue⟩ := of_readValue h
  obtain ⟨hgood, hbytes⟩ := of_readKey hkey
  refine ⟨hgood, ?_⟩
  rw [hbytes, hvalue, ← List.append_assoc]
  rfl

omit [Platform] in
theorem nextRecord_of_failed (h : l.stream.failed = true) :
    l.nextRecord.1.key.data = [] ∧ l.nextRecord.2 = l.stream := by
  obtain ⟨hkey, hstream⟩ : (readKey l.stream l.keyBuffer).blob.data = [] ∧
      (readKey l.stream l.keyBuffer).stream = l.stream := readBlob_of_failed _ _ h
  refine ⟨hkey, ?_⟩
  simp only [nextRecord, hstream]
  exact (readBlob_of_failed _ _ h).2

theorem addRecord_of_loadable (h : Filled setting.recordSerializer l.table.hashTable added)
    (hr : Loadable setting added l.nextRecord.1) :
    ∃ l', l.addRecord = .ok l' ∧ l'.stream = l.nextRecord.2 ∧ l'.hasMoreData = l.hasMoreData ∧
      Filled setting.recordSerializer l'.table.hashTable (added ++ [l.nextRecord.1]) := by
  obtain ⟨table, hadd, hfilled⟩ := add_of_loadable h hr
  refine ⟨⟨l.nextRecord.2, table, l.nextRecord.1.key.data, l.nextRecord.1.value.data,
    l.hasMoreData⟩, ?_, rfl, rfl, hfilled⟩
  have hturn : l.table.add setting.recordSerializer (readKey l.stream l.keyBuffer).blob
      (readValue (readKey l.stream l.keyBuffer).stream l.valueBuffer).blob = _ := hadd
  simp only [addRecord, hturn]
  rfl

theorem addRecord_of_not_loadable (h : Filled setting.recordSerializer l.table.hashTable added)
    (hr : ¬ Loadable setting added l.nextRecord.1) : ∃ e, l.addRecord = .error e := by
  obtain ⟨table, e, hadd⟩ := add_of_not_loadable h hr
  refine ⟨e, ?_⟩
  have hturn : l.table.add setting.recordSerializer (readKey l.stream l.keyBuffer).blob
      (readValue (readKey l.stream l.keyBuffer).stream l.valueBuffer).blob = _ := hadd
  simp only [addRecord, hturn]

omit [Platform] in
theorem readFlag_cons (h : l.stream = ⟨flag :: rest, false⟩) :
    l.readFlag.stream = ⟨rest, false⟩ ∧ l.readFlag.hasMoreData = decide (flag ≠ 0) := by
  have hread : l.stream.read [if l.hasMoreData then 1 else 0] = ([flag], ⟨rest, false⟩) := by
    rw [h]
    exact IStream.read_append (b := [flag]) rfl rest
  simp [readFlag, hread]

omit [Platform] in
theorem of_readFlag (h : l.readFlag.stream.failed = false) :
    l.stream.failed = false ∧ ∃ flag, l.stream.bytes = flag :: l.readFlag.stream.bytes ∧
      l.readFlag.hasMoreData = decide (flag ≠ 0) := by
  obtain ⟨hgood, hbytes⟩ := IStream.of_read h
  obtain ⟨flag, hflag⟩ := List.length_eq_one_iff.mp
    (IStream.length_read l.stream [if l.hasMoreData then 1 else 0])
  rw [hflag] at hbytes
  exact ⟨hgood, flag, hbytes, by simp [readFlag, hflag]⟩

omit [Platform] in
theorem readFlag_of_failed (h : l.readFlag.stream.failed = true) :
    l.readFlag.hasMoreData = l.hasMoreData := by
  have hread : (l.stream.read [if l.hasMoreData then 1 else 0]).1 =
      [if l.hasMoreData then 1 else 0] := by
    by_cases hf : l.stream.failed = true
    · rw [IStream.read_of_failed hf]
    · have hshort : l.stream.bytes = [] := by simpa [readFlag, IStream.read, hf] using h
      simp [IStream.read, hf, hshort]
  cases hm : l.hasMoreData <;> simp [readFlag, hm] at hread ⊢ <;> simp [hread]

theorem loop_of_marked {items : List (UInt8 × Record)}
    (h : Filled setting.recordSerializer l.table.hashTable added)
    (hstream : l.stream = ⟨marked Record.serialize 0 items ++ rest, false⟩)
    (hmarks : ∀ item ∈ items, item.1 ≠ 0)
    (hvalid : ∀ item ∈ items, setting.numBuckets ≠ 0 ∧
      setting.recordSerializer.Validates item.2.key item.2.value)
    (hkeys : (added ++ items.map Prod.snd).Pairwise fun r r' => r.key ≠ r'.key)
    (hturns : items.length < turns) :
    ∃ l', loop turns l.readFlag = some (.ok l') ∧ l'.stream = ⟨rest, false⟩ ∧
      Filled setting.recordSerializer l'.table.hashTable (added ++ items.map Prod.snd) := by
  induction items generalizing l added turns with
  | nil =>
    obtain ⟨turns, rfl⟩ := Nat.exists_eq_succ_of_ne_zero (Nat.ne_of_gt hturns)
    obtain ⟨hrest, hmore⟩ := readFlag_cons hstream
    refine ⟨l.readFlag, ?_, hrest, ?_⟩
    · simp [loop, hmore]
    · rw [List.map_nil, List.append_nil]
      exact h
  | cons item items ih =>
    obtain ⟨turns, rfl⟩ := Nat.exists_eq_succ_of_ne_zero (Nat.ne_of_gt (Nat.zero_lt_of_lt hturns))
    simp only [marked_cons, List.cons_append, List.append_assoc] at hstream
    obtain ⟨hbytes, hmore⟩ := readFlag_cons hstream
    have hnext := nextRecord_append item.2 hbytes
    rw [List.map_cons, List.append_cons] at hkeys
    have hloadable : Loadable setting added l.readFlag.nextRecord.1 := by
      rw [hnext]
      have hitem := hvalid item (by simp)
      refine ⟨hitem.1, hitem.2, fun r hr => ?_⟩
      rw [List.append_assoc, List.pairwise_append] at hkeys
      exact hkeys.2.2 r hr item.2 (by simp)
    obtain ⟨l₁, hturn, hstream₁, -, hfilled⟩ := addRecord_of_loadable (l := l.readFlag) h hloadable
    rw [hnext] at hstream₁ hfilled
    obtain ⟨l', hloop, hend, hall⟩ := ih (l := l₁.countLoaded) (hfilled.congr rfl) hstream₁
      (fun i hi => hmarks i (List.mem_cons_of_mem _ hi))
      (fun i hi => hvalid i (List.mem_cons_of_mem _ hi)) hkeys (Nat.lt_of_succ_lt_succ hturns)
    refine ⟨l', ?_, hend, ?_⟩
    · have hflag : item.1 ≠ 0 := hmarks item (by simp)
      simp only [loop, hmore, hflag, hturn, ne_eq, not_false_eq_true, decide_true, ↓reduceIte]
      exact hloop
    · rw [List.map_cons, List.append_cons]
      exact hall

end Loading

end Deserializer
end ReadWrite

end L4
