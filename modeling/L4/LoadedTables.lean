import L4.DeserializerTermination
import L4.HashTableManager
import L4.ReadWriteCounters
import L4.SerializerRoundTrip

namespace L4
set_option autoImplicit true
open SharedHashTable (Filled keyValues)

/-! What a table that has been loaded from a stream is worth. -/

namespace ReadWrite
variable [Platform] {setting : Setting}

namespace WritableHashTable
variable {t t' : WritableHashTable setting (EpochManager RecordBuffer)}

/-- Tables that store one map answer a call alike, also one that they reject, and store one map
after it. -/
theorem call_agrees (h : Refines setting.recordSerializer t.hashTable m)
    (h' : Refines setting.recordSerializer t'.hashTable m) (hb : setting.numBuckets ≠ 0)
    (c : Call) : (t.call c).2 = (t'.call c).2 ∧
      ∃ m', Refines setting.recordSerializer (t.call c).1.hashTable m' ∧
        Refines setting.recordSerializer (t'.call c).1.hashTable m' := by
  by_cases hc : c.Accepted setting
  · obtain ⟨hr, hresult⟩ := call_refines h hb hc
    obtain ⟨hr', hresult'⟩ := call_refines h' hb hc
    exact ⟨hresult.trans hresult'.symm, _, hr, hr'⟩
  · cases c with
    | add key value =>
      have hadd := add_of_rejected t hc
      have hadd' := add_of_rejected t' hc
      simp only [call, hadd, hadd']
      exact ⟨trivial, m, h.congr rfl rfl, h'.congr rfl rfl⟩
    | remove key => exact absurd trivial hc
    | get key => exact absurd trivial hc

theorem run_agrees (h : Refines setting.recordSerializer t.hashTable m)
    (h' : Refines setting.recordSerializer t'.hashTable m) (hb : setting.numBuckets ≠ 0)
    (calls : List Call) : (t.run calls).2 = (t'.run calls).2 := by
  induction calls generalizing t t' m with
  | nil => rfl
  | cons c cs ih =>
    obtain ⟨hresult, m', hr, hr'⟩ := call_agrees h h' hb c
    rw [run, run, hresult, ih hr hr']

end WritableHashTable

theorem exists_loaded {t : SharedHashTable setting} (h : Valid t) (hb : setting.numBuckets ≠ 0)
    (allocator : Allocator) (padding : UInt8 × UInt8) (rest : List UInt8) :
    ∃ t₁ s t', serialize padding t = .ok (t₁, s) ∧
      Deserializer.deserialize allocator ⟨s.stream ++ rest, false⟩ =
        .ok (⟨setting, t'⟩, ⟨rest, false⟩) ∧
      Filled setting.recordSerializer t' (keyValues setting.recordSerializer t) := by
  let items := (keyValues setting.recordSerializer t).map fun r => ((1 : UInt8), r)
  have hrecords : items.map Prod.snd = keyValues setting.recordSerializer t := by
    rw [List.map_map]
    exact List.map_id _
  have hmarks : ∀ item ∈ items, item.1 ≠ 0 := by
    intro item hitem
    obtain ⟨r, -, rfl⟩ := List.mem_map.mp hitem
    exact (by decide : (1 : UInt8) ≠ 0)
  have hvalid : ∀ item ∈ items, setting.numBuckets ≠ 0 ∧
      setting.recordSerializer.Validates item.2.key item.2.value := by
    intro item hitem
    obtain ⟨r, hr, rfl⟩ := List.mem_map.mp hitem
    obtain ⟨s, record, hs, rfl⟩ := SharedHashTable.mem_keyValues.mp hr
    exact ⟨hb, h.validates s record hs⟩
  obtain ⟨t', hload, hfilled⟩ := Deserializer.deserialize_format padding allocator rest hmarks
    hvalid (hrecords.symm ▸ h.consistent.pairwise_keys)
  obtain ⟨updates, iterator, written, hserialize⟩ := serialize_eq padding t
  rw [← keyValues_marked] at hserialize
  exact ⟨_, _, t', hserialize, hload, hrecords ▸ hfilled⟩

namespace Deserializer
open SharedHashTable (contents)

/-- The counters describe the records that have been loaded. -/
structure Tallied (t : SharedHashTable setting) (added : List Record) : Prop where
  filled : Filled setting.recordSerializer t added
  counted : ∀ counter, Counted counter →
    t.perfData counter = contents setting.recordSerializer t counter
  minKeySize : t.perfData .minKeySize =
    added.foldl (fun (size : Int) r => min size r.key.size) (2 ^ 63 - 1)
  maxKeySize : t.perfData .maxKeySize = added.foldl (fun (size : Int) r => max size r.key.size) 0
  minValueSize : t.perfData .minValueSize =
    added.foldl (fun (size : Int) r => min size r.value.size) (2 ^ 63 - 1)
  maxValueSize : t.perfData .maxValueSize =
    added.foldl (fun (size : Int) r => max size r.value.size) 0

theorem tallied_create (allocator : Allocator) :
    Tallied (.create setting allocator : SharedHashTable setting) [] where
  filled := SharedHashTable.filled_create _ allocator
  counted counter hc := by
    rw [perfData_create allocator hc, SharedHashTable.contents_create]
  minKeySize := rfl
  maxKeySize := rfl
  minValueSize := rfl
  maxValueSize := rfl

omit [Platform] in
theorem updatePerfDataForAdd_extremes (rs : RecordSerializer) (perfData : HashTablePerfData)
    {stat : Stat} (hnew : stat.oldValueSize = 0) :
    let perfData' := PerfUpdate.applyAll perfData (updatePerfDataForAdd rs stat)
    perfData' .minKeySize = min (perfData .minKeySize) stat.keySize ∧
      perfData' .maxKeySize = max (perfData .maxKeySize) stat.keySize ∧
      perfData' .minValueSize = min (perfData .minValueSize) stat.valueSize ∧
      perfData' .maxValueSize = max (perfData .maxValueSize) stat.valueSize ∧
      perfData' .recordsCountLoadedFromSerializer =
        perfData .recordsCountLoadedFromSerializer := by
  simp only [updatePerfDataForAdd, hnew, ne_eq, not_true_eq_false, ↓reduceIte]
  split_ifs <;> simp [PerfUpdate.applyAll, PerfUpdate.apply, PerfUpdate.increment]

theorem Tallied.published {t t' : SharedHashTable setting} (h : Tallied t added)
    (hp : Published setting.recordSerializer t record s stat none t') :
    Tallied (t'.updatePerfData (updatePerfDataForAdd setting.recordSerializer stat))
        (added ++ [setting.recordSerializer.deserialize record.bytes]) ∧
      (t'.updatePerfData (updatePerfDataForAdd setting.recordSerializer stat)).perfData
          .recordsCountLoadedFromSerializer =
        t.perfData .recordsCountLoadedFromSerializer := by
  have hnone : t.load s = none := hp.replaced.symm
  have hnew : stat.oldValueSize = 0 := by rw [hp.oldValueSize, hnone, Option.elim_none]
  obtain ⟨hminKey, hmaxKey, hminValue, hmaxValue, hloaded⟩ :=
    updatePerfDataForAdd_extremes setting.recordSerializer t.perfData hnew
  rw [hp.keySize] at hminKey hmaxKey
  rw [hp.valueSize] at hminValue hmaxValue
  have hperf : (t'.updatePerfData (updatePerfDataForAdd setting.recordSerializer stat)).perfData =
      PerfUpdate.applyAll t.perfData (updatePerfDataForAdd setting.recordSerializer stat) := by
    rw [← hp.stored.perfData]
    rfl
  refine ⟨⟨(h.filled.published hp).congr rfl, fun counter hc => ?_, ?_, ?_, ?_, ?_⟩, ?_⟩
  · have hold : ¬ ReplacesEmpty setting.recordSerializer (t.load s) := by
      rintro ⟨r, hr, -⟩
      cases hnone.symm.trans hr
    have hcontents := hp.contents counter
    rw [hperf, PerfUpdate.applyAll_of_adds _ (updatePerfDataForAdd_adds _ hc stat),
      hp.delta hc hold, h.counted counter hc]
    change _ = contents setting.recordSerializer t' counter
    omega
  · rw [hperf, hminKey, h.minKeySize, List.foldl_append]
    rfl
  · rw [hperf, hmaxKey, h.maxKeySize, List.foldl_append]
    rfl
  · rw [hperf, hminValue, h.minValueSize, List.foldl_append]
    rfl
  · rw [hperf, hmaxValue, h.maxValueSize, List.foldl_append]
    rfl
  · rw [hperf, hloaded]

theorem loadable_of_add {t : WritableHashTable setting EpochActionManager}
    (h : Filled setting.recordSerializer t.hashTable added)
    (hadd : t.add setting.recordSerializer key value = (table, .ok ())) :
    Loadable setting added ⟨key, value⟩ := by
  by_contra hr
  obtain ⟨table', e, herror⟩ := add_of_not_loadable h hr
  rw [herror] at hadd
  cases (Prod.mk.inj hadd).2

theorem Tallied.add {t : WritableHashTable setting EpochActionManager}
    (h : Tallied t.hashTable added)
    (hadd : t.add setting.recordSerializer key value = (table, .ok ())) :
    Tallied table.hashTable (added ++ [⟨key, value⟩]) ∧
      table.hashTable.perfData .recordsCountLoadedFromSerializer =
        t.hashTable.perfData .recordsCountLoadedFromSerializer := by
  obtain ⟨hb, hv, habsent⟩ := loadable_of_add h.filled hadd
  obtain ⟨record, allocator, s, stat, hashTable, hrecord, hp, heq⟩ :=
    WritableHashTable.add_eq h.filled.consistent hb rfl hv
  have hkey : setting.recordSerializer.keyOf record = key := by rw [RecordSerializer.keyOf, hrecord]
  have hnone : t.hashTable.load s = none := by
    cases hs : t.hashTable.load s with
    | none => rfl
    | some old =>
      exact absurd ((hp.admits.1 old hs).trans hkey) (h.filled.absent_iff.mp habsent s old hs)
  rw [hnone] at hp heq
  obtain rfl := (Prod.mk.inj (hadd.symm.trans heq)).1
  have hroom : Tallied (t.hashTable.setAllocator allocator) added :=
    ⟨h.filled.congr rfl, h.counted, h.minKeySize, h.maxKeySize, h.minValueSize, h.maxValueSize⟩
  exact hrecord ▸ hroom.published hp

namespace Loading

/-- What has been loaded before a turn of the loop. -/
structure Counts (l : Loading setting) (added : List Record) : Prop where
  tallied : Tallied l.table.hashTable added
  loaded : l.table.hashTable.perfData .recordsCountLoadedFromSerializer = added.length

theorem Counts.turn {l l₁ : Loading setting} (h : l.Counts added) (hadd : l.addRecord = .ok l₁) :
    l₁.readFlag.countLoaded.Counts (added ++ [l.nextRecord.1]) := by
  simp only [addRecord] at hadd
  split at hadd
  · cases hadd
  · next table hturn =>
    obtain rfl := Except.ok.inj hadd
    obtain ⟨htallied, hloaded⟩ := h.tallied.add hturn
    have hother : ∀ counter, counter ≠ .recordsCountLoadedFromSerializer →
        (table.hashTable.updatePerfData [.increment .recordsCountLoadedFromSerializer]).perfData
          counter = table.hashTable.perfData counter := fun counter hne =>
      Function.update_of_ne hne _ _
    refine ⟨⟨htallied.filled.congr rfl, fun counter hc => ?_, ?_, ?_, ?_, ?_⟩, ?_⟩
    · have hne : counter ≠ .recordsCountLoadedFromSerializer := by
        rintro rfl
        simp [Counted] at hc
      exact (hother counter hne).trans (htallied.counted counter hc)
    · exact (hother _ (by simp)).trans htallied.minKeySize
    · exact (hother _ (by simp)).trans htallied.maxKeySize
    · exact (hother _ (by simp)).trans htallied.minValueSize
    · exact (hother _ (by simp)).trans htallied.maxValueSize
    · have hcount : (table.hashTable.updatePerfData
          [.increment .recordsCountLoadedFromSerializer]).perfData
            .recordsCountLoadedFromSerializer =
          table.hashTable.perfData .recordsCountLoadedFromSerializer + 1 := rfl
      refine hcount.trans ?_
      rw [hloaded, h.loaded, List.length_append, List.length_singleton]
      rfl

theorem Leaves.counts {l l' : Loading setting} (hleaves : Leaves n l result)
    (hresult : result = .ok l') (h : l.Counts added) :
    ∃ added', l'.Counts (added ++ added') ∧ added'.length = n := by
  induction hleaves generalizing added with
  | ended hmore =>
    obtain rfl := Except.ok.inj hresult
    exact ⟨[], by simpa using h, rfl⟩
  | threw hmore hadd => cases hresult
  | turned hmore hadd hrest ih =>
    obtain ⟨added', hcounts, hlength⟩ := ih hresult (h.turn hadd)
    exact ⟨_ :: added', by simpa using hcounts, by simp [hlength]⟩

end Loading

theorem counts_of_deserializeRecords
    (h : deserializeRecords setting allocator stream = .ok (t, stream')) :
    ∃ added, Tallied t added ∧ t.perfData .recordsCountLoadedFromSerializer = added.length := by
  obtain ⟨n, result, -, hleaves, hresult⟩ := deserializeRecords_leaves setting allocator stream
  rw [h] at hresult
  cases result with
  | error e => cases hresult
  | ok l =>
    obtain ⟨rfl, -⟩ := Prod.mk.inj (Except.ok.inj hresult)
    have hstart : (Loading.start setting allocator stream).Counts [] :=
      ⟨tallied_create allocator, rfl⟩
    obtain ⟨added, hcounts, -⟩ := hleaves.counts rfl hstart
    exact ⟨added, hcounts.tallied, hcounts.loaded⟩

/-- Whatever the bytes are, a table that `Deserialize` returns has no key twice and every key in its
own bucket, and its counters describe its records. -/
theorem deserialize_counts (allocator : Allocator) (stream stream' : IStream)
    (t : SharedHashTable setting)
    (hload : deserialize allocator stream = .ok (⟨setting, t⟩, stream')) :
    let rs := setting.recordSerializer
    t.Consistent rs ∧
      (∀ counter, Counted counter → t.perfData counter = contents rs t counter) ∧
      t.perfData .recordsCountLoadedFromSerializer = t.records.length ∧
      t.perfData .minKeySize =
        (keyValues rs t).foldl (fun (size : Int) r => min size r.key.size) (2 ^ 63 - 1) ∧
      t.perfData .maxKeySize =
        (keyValues rs t).foldl (fun (size : Int) r => max size r.key.size) 0 ∧
      t.perfData .minValueSize =
        (keyValues rs t).foldl (fun (size : Int) r => min size r.value.size) (2 ^ 63 - 1) ∧
      t.perfData .maxValueSize =
        (keyValues rs t).foldl (fun (size : Int) r => max size r.value.size) 0 := by
  simp only [deserialize] at hload
  split_ifs at hload
  simp only [deserializeCurrent] at hload
  cases hrecords : deserializeRecords
      (Setting.ofObject ((stream.read [0]).2.read (Setting.toObject (0, 0) {})).1) allocator
      ((stream.read [0]).2.read (Setting.toObject (0, 0) {})).2 with
  | error e =>
    rw [hrecords] at hload
    cases hload
  | ok loaded =>
    rw [hrecords] at hload
    obtain ⟨htable, -⟩ := Prod.mk.inj (Except.ok.inj hload)
    obtain ⟨hsetting, ht⟩ := Sigma.mk.inj htable
    subst hsetting
    obtain rfl := eq_of_heq ht
    obtain ⟨added, htallied, hloaded⟩ := counts_of_deserializeRecords hrecords
    have hperm := htallied.filled.perm
    refine ⟨htallied.filled.consistent, htallied.counted, ?_, ?_, ?_, ?_, ?_⟩
    · rw [hloaded, ← hperm.length_eq, SharedHashTable.keyValues, List.length_map]
    · rw [htallied.minKeySize]
      apply hperm.symm.foldl_eq'
      exact fun _ _ _ _ size => min_right_comm size _ _
    · rw [htallied.maxKeySize]
      apply hperm.symm.foldl_eq'
      exact fun _ _ _ _ size => max_right_comm size _ _
    · rw [htallied.minValueSize]
      apply hperm.symm.foldl_eq'
      exact fun _ _ _ _ size => min_right_comm size _ _
    · rw [htallied.maxValueSize]
      apply hperm.symm.foldl_eq'
      exact fun _ _ _ _ size => max_right_comm size _ _

omit [Platform] in
/-- A stream with one record. -/
theorem deserialize_counts_of_record :
    let _ : Platform := ⟨fun _ => (7, 0), 8, 64⟩
    let bytes := [1, 1, 0, 0, 0, 1, 0, 0, 0, 0, 0, 3, 4, 0, 0, 0, 0,
      1, 1, 0, 5, 2, 0, 0, 0, 6, 7, 0]
    ∃ t, deserialize ⟨0, []⟩ ⟨bytes, false⟩ = .ok (⟨{}, t⟩, ⟨[], false⟩) ∧
      t.perfData .recordsCountLoadedFromSerializer = 1 ∧ t.perfData .maxValueSize = 2 := by
  intro platform bytes
  let items : List (UInt8 × Record) := [(1, ⟨⟨[5], by decide⟩, ⟨[6, 7], by decide⟩⟩)]
  have hbytes : bytes = format (3, 4) {} items ++ [] := by decide
  obtain ⟨t, hload, hfilled⟩ := @deserialize_format platform {} items (3, 4) ⟨0, []⟩ [] (by decide)
    (by decide) (by decide)
  rw [← hbytes] at hload
  obtain ⟨-, -, hloaded, -, -, -, hmax⟩ :=
    @deserialize_counts platform {} ⟨0, []⟩ ⟨bytes, false⟩ ⟨[], false⟩ t hload
  refine ⟨t, hload, ?_, ?_⟩
  · have hlength := hfilled.perm.length_eq
    rw [SharedHashTable.keyValues, List.length_map] at hlength
    rw [hloaded, hlength]
    rfl
  · have hkeyValues := List.perm_singleton.mp hfilled.perm
    rw [hmax, hkeyValues]
    rfl

end Deserializer

end ReadWrite

namespace LocalMemory.HashTableManager
open ReadWrite (Call serialize)
open ReadWrite.WritableHashTable (create)
variable [Platform] [StdStringKeyMap] {setting : Setting}

/-- A table that is added from the stream of another one answers every sequence of calls as that
one would have done. -/
theorem add_serialized_agrees (hb : setting.numBuckets ≠ 0) (allocator allocator' : Allocator)
    (epochManager epochManager' : EpochManager RecordBuffer) (calls later : List Call)
    (padding : UInt8 × UInt8) (rest : List UInt8) (m : HashTableManager) (name : List UInt8)
    (hashTableSetting : HashTableSetting) (hname : m.find name = none) :
    let t := ((create setting allocator epochManager).run calls).1
    ∃ t₁ s m' index t', serialize padding t.hashTable = .ok (t₁, s) ∧
      m.add ⟨name, hashTableSetting, none, some ⟨some ⟨s.stream ++ rest, false⟩⟩, .inr rfl⟩
        allocator' = (m', .ok index) ∧
      m'.internalHashTable index = some ⟨setting, t'⟩ ∧
      ((⟨t', epochManager'⟩ : ReadWrite.WritableHashTable _ _).run later).2 = (t.run later).2 := by
  intro t
  have hvalid : ReadWrite.Valid t.hashTable :=
    ReadWrite.WritableHashTable.valid_run (ReadWrite.valid_create allocator) calls
  obtain ⟨t₁, s, t', hserialize, hload, hfilled⟩ :=
    ReadWrite.exists_loaded hvalid hb allocator' padding rest
  have hcreate : createHashTable
      ⟨name, hashTableSetting, none, some ⟨some ⟨s.stream ++ rest, false⟩⟩, .inr rfl⟩ allocator' =
        .ok ⟨setting, t'⟩ := by
    simp only [createHashTable, Option.bind_some, hload, Except.map]
  obtain ⟨m', hadd, hinternal⟩ := m.add_ok hname (by simp) hcreate
  refine ⟨t₁, s, m', _, t', hserialize, hadd, hinternal, ?_⟩
  have hrefines := ReadWrite.Refines.of_consistent hvalid.consistent
  have hrefines' := ReadWrite.Refines.of_consistent hfilled.consistent
  rw [hfilled.keyValues_eq hvalid.consistent] at hrefines'
  exact ReadWrite.WritableHashTable.run_agrees (t := ⟨t', epochManager'⟩) hrefines' hrefines hb
    later

omit [Platform] [StdStringKeyMap] in
/-- A table with one record is added from its stream, read, emptied and filled again. -/
theorem add_serialized_agrees_of_add :
    let platform : Platform := ⟨fun _ => (7, 0), 8, 64⟩
    let names : StdStringKeyMap := ⟨fun seed c => 31 * seed + UInt64.ofInt c, fun _ => 11⟩
    let key : Key := ⟨[5], by decide⟩
    let epochManager : EpochManager RecordBuffer := ⟨0, ⟨0, 0, [0], by decide⟩, ⟨[.empty], 0⟩⟩
    let t := ((create {} ⟨0, []⟩ epochManager).run [.add key ⟨[6, 7], by decide⟩]).1
    let later : List Call := [.get key, .remove key, .get key, .add key ⟨[], by decide⟩]
    ∃ t₁ s m' index t', serialize (3, 4) t.hashTable = .ok (t₁, s) ∧
      add {} ⟨[97], ⟨1, none, none, none⟩, none, some ⟨some ⟨s.stream ++ [], false⟩⟩, .inr rfl⟩
        ⟨0, []⟩ = (m', .ok index) ∧
      m'.internalHashTable index = some ⟨{}, t'⟩ ∧
      ((⟨t', epochManager⟩ : ReadWrite.WritableHashTable _ _).run later).2 = (t.run later).2 := by
  intro platform names key epochManager t later
  exact @add_serialized_agrees platform names {} (by decide) ⟨0, []⟩ ⟨0, []⟩ epochManager
    epochManager [.add key ⟨[6, 7], by decide⟩] later (3, 4) [] {} [97] ⟨1, none, none, none⟩ rfl

end LocalMemory.HashTableManager

end L4
