import L4.Loading

namespace L4
set_option autoImplicit true
open PrefixCode

namespace ReadWrite
open SharedHashTable (Filled keyValues mem_keyValues)
variable [Platform] {setting : Setting}

theorem Refines.of_consistent {rs : RecordSerializer} {t : SharedHashTable setting}
    (h : t.Consistent rs) : Refines rs t fun key =>
      ((keyValues rs t).find? fun r => decide (r.key = key)).map Record.value := by
  refine ⟨h, fun key => t.records.find? fun record => decide (rs.keyOf record = key), ?_, ?_⟩
  · intro key record
    constructor
    · intro hfind
      obtain ⟨s, hs⟩ := SharedHashTable.mem_records.mp (List.mem_of_find?_eq_some hfind)
      exact ⟨s, hs, by simpa using List.find?_some hfind⟩
    · intro hex
      obtain ⟨s, hs, hkey⟩ := hex
      cases hfind : t.records.find? fun record => decide (rs.keyOf record = key) with
      | none =>
        rw [List.find?_eq_none] at hfind
        exact absurd (decide_eq_true hkey) (hfind record (SharedHashTable.mem_records.mpr ⟨s, hs⟩))
      | some found =>
        obtain ⟨s', hs'⟩ := SharedHashTable.mem_records.mp (List.mem_of_find?_eq_some hfind)
        have hkey' : rs.keyOf found = key := by simpa using List.find?_some hfind
        obtain rfl := h.unique s s' record found hs hs' (hkey.trans hkey'.symm)
        exact hfind.trans (hs'.symm.trans hs)
  · intro key
    rw [keyValues, List.find?_map, Option.map_map]
    rfl

omit [Platform] in
theorem keyValues_marked (rs : RecordSerializer) (t : SharedHashTable setting) :
    (keyValues rs t).map (fun r => ((1 : UInt8), r)) =
      t.records.map fun record => (1, rs.deserialize record.bytes) := by
  rw [keyValues, List.map_map]
  rfl

/-- Every stored record has the sizes that the setting fixes. -/
structure Valid (t : SharedHashTable setting) : Prop where
  consistent : t.Consistent setting.recordSerializer
  validates : ∀ s record, t.load s = some record → setting.recordSerializer.Validates
    (setting.recordSerializer.keyOf record) (setting.recordSerializer.valueOf record)

theorem valid_create (allocator : Allocator) :
    Valid (.create setting allocator : SharedHashTable setting) where
  consistent := SharedHashTable.consistent_create _ allocator
  validates s record hs := by
    rw [SharedHashTable.load_create] at hs
    cases hs

theorem Valid.congr {t t' : SharedHashTable setting} (h : Valid t)
    (hbuckets : t'.buckets = t.buckets) : Valid t' where
  consistent := h.consistent.congr (SharedHashTable.load_congr hbuckets)
    (SharedHashTable.tag_congr hbuckets)
  validates s record hs := by
    rw [SharedHashTable.load_congr hbuckets] at hs
    exact h.validates s record hs

theorem Effect.valid {t t' : SharedHashTable setting}
    (he : Effect setting.recordSerializer t c response t') (h : Valid t)
    (hc : c.Accepted setting) : Valid t' := by
  refine ⟨he.consistent h.consistent, ?_⟩
  intro s' r hr
  cases he with
  | added key value allocator record s stat t' hrecord hp =>
    rw [SharedHashTable.load_updatePerfData, hp.stored.load, Function.update_apply] at hr
    split_ifs at hr
    · obtain rfl := Option.some.inj hr
      simp only [RecordSerializer.keyOf, RecordSerializer.valueOf, hrecord]
      exact hc
    · exact h.validates s' r hr
  | removed record s t' hs hu =>
    rw [SharedHashTable.load_updatePerfData, hu.stored.load, Function.update_apply] at hr
    split_ifs at hr
    exact h.validates s' r hr
  | missed key hnone => exact h.validates s' r hr
  | got key value hget => exact h.validates s' r hr

namespace WritableHashTable
variable {t : WritableHashTable setting (EpochManager RecordBuffer)}

theorem valid_call (h : Valid t.hashTable) (c : Call) : Valid (t.call c).1.hashTable := by
  rcases call_cases h.consistent c with ⟨hc, response, he⟩ | hbuckets
  · exact he.valid h hc
  · exact h.congr hbuckets

theorem valid_run (h : Valid t.hashTable) (calls : List Call) :
    Valid (t.run calls).1.hashTable := by
  induction calls generalizing t with
  | nil => exact h
  | cons c cs ih => exact ih (valid_call h c)

end WritableHashTable

namespace Deserializer

theorem deserializeRecords_marked {items : List (UInt8 × Record)} (allocator : Allocator)
    (rest : List UInt8) (hmarks : ∀ item ∈ items, item.1 ≠ 0)
    (hvalid : ∀ item ∈ items, setting.numBuckets ≠ 0 ∧
      setting.recordSerializer.Validates item.2.key item.2.value)
    (hkeys : (items.map Prod.snd).Pairwise fun r r' => r.key ≠ r'.key) :
    ∃ t, deserializeRecords setting allocator ⟨marked Record.serialize 0 items ++ rest, false⟩ =
        .ok (t, ⟨rest, false⟩) ∧
      Filled setting.recordSerializer t (items.map Prod.snd) := by
  have hlen : items.length < (marked Record.serialize 0 items ++ rest).length - 1 + 3 := by
    have hlt := length_lt_marked Record.serialize 0 items
    rw [List.length_append]
    omega
  let start : Loading setting :=
    ⟨⟨marked Record.serialize 0 items ++ rest, false⟩, ⟨.create setting allocator, {}⟩, [], [],
      false⟩
  have hstart : start.stream = ⟨marked Record.serialize 0 items ++ rest, false⟩ := rfl
  obtain ⟨l, hloop, hstream, hfilled⟩ := Loading.loop_of_marked (l := start)
    (SharedHashTable.filled_create _ allocator) hstart hmarks hvalid hkeys hlen
  refine ⟨l.table.hashTable, ?_, hfilled⟩
  have hbound : start.readFlag.stream.bytes.length =
      (marked Record.serialize 0 items ++ rest).length - 1 := by
    simp [start, Loading.readFlag, IStream.read]
  simp only [start] at hbound hloop
  simp only [deserializeRecords, hbound, hloop, Option.getD_some, hstream]

/-- A stream in the documented format is loaded up to its end mark. -/
theorem deserialize_format {items : List (UInt8 × Record)} (padding : UInt8 × UInt8)
    (allocator : Allocator) (rest : List UInt8) (hmarks : ∀ item ∈ items, item.1 ≠ 0)
    (hvalid : ∀ item ∈ items, setting.numBuckets ≠ 0 ∧
      setting.recordSerializer.Validates item.2.key item.2.value)
    (hkeys : (items.map Prod.snd).Pairwise fun r r' => r.key ≠ r'.key) :
    ∃ t, deserialize allocator ⟨format padding setting items ++ rest, false⟩ =
        .ok (⟨setting, t⟩, ⟨rest, false⟩) ∧
      Filled setting.recordSerializer t (items.map Prod.snd) := by
  have hversion : IStream.read ⟨format padding setting items ++ rest, false⟩ [0] =
      ([currentVersion], ⟨setting.toObject padding ++
        (marked Record.serialize 0 items ++ rest), false⟩) := by
    rw [← List.append_assoc]
    exact IStream.read_append (b := [currentVersion]) rfl _
  have hsetting : IStream.read ⟨setting.toObject padding ++
      (marked Record.serialize 0 items ++ rest), false⟩ (Setting.toObject (0, 0) {}) =
      (setting.toObject padding, ⟨marked Record.serialize 0 items ++ rest, false⟩) :=
    IStream.read_append (by rw [Setting.length_toObject, Setting.length_toObject]) _
  obtain ⟨t, hrecords, hfilled⟩ := deserializeRecords_marked allocator rest hmarks hvalid hkeys
  refine ⟨t, ?_, hfilled⟩
  rw [deserialize, hversion]
  simp only [↓reduceIte]
  rw [deserializeCurrent, hsetting, Setting.ofObject_toObject, hrecords]
  rfl

end Deserializer

namespace WritableHashTable

/-- The bytes that `Serialize` writes for a table are loaded into a table with the same setting
and the same records in the same order, and nothing after them is read. -/
theorem serialize_round_trip (hb : setting.numBuckets ≠ 0) (allocator allocator' : Allocator)
    (epochManager : EpochManager RecordBuffer) (calls : List Call) (padding : UInt8 × UInt8)
    (rest : List UInt8) :
    let t := ((create setting allocator epochManager).run calls).1.hashTable
    ∃ t₁ s t', serialize padding t = .ok (t₁, s) ∧ s.finished = true ∧
      Deserializer.deserialize allocator' ⟨s.stream ++ rest, false⟩ =
        .ok (⟨setting, t'⟩, ⟨rest, false⟩) ∧
      (∀ key, get setting.recordSerializer t' key = get setting.recordSerializer t key) ∧
      s.stream = format padding setting
        ((keyValues setting.recordSerializer t).map fun r => (1, r)) ∧
      ∀ padding', ∃ t₂ s', serialize padding' t' = .ok (t₂, s') ∧ s'.finished = true ∧
        s'.stream = format padding' setting
          ((keyValues setting.recordSerializer t).map fun r => (1, r)) := by
  intro t
  have hvalid : Valid t := valid_run (t := create setting allocator epochManager)
    (valid_create allocator) calls
  have hvalidates : ∀ item ∈ (keyValues setting.recordSerializer t).map fun r => ((1 : UInt8), r),
      setting.numBuckets ≠ 0 ∧ setting.recordSerializer.Validates item.2.key item.2.value := by
    intro item hitem
    obtain ⟨r, hr, rfl⟩ := List.mem_map.mp hitem
    obtain ⟨s, record, hs, rfl⟩ := mem_keyValues.mp hr
    exact ⟨hb, hvalid.validates s record hs⟩
  have hmarks : ∀ item ∈ (keyValues setting.recordSerializer t).map fun r => ((1 : UInt8), r),
      item.1 ≠ 0 := by
    intro item hitem
    obtain ⟨r, -, rfl⟩ := List.mem_map.mp hitem
    exact (by decide : (1 : UInt8) ≠ 0)
  have hrecords : ((keyValues setting.recordSerializer t).map fun r => ((1 : UInt8), r)).map
      Prod.snd = keyValues setting.recordSerializer t := by
    rw [List.map_map]
    exact List.map_id _
  obtain ⟨t', hload, hfilled⟩ := Deserializer.deserialize_format padding allocator' rest hmarks
    hvalidates (hrecords.symm ▸ hvalid.consistent.pairwise_keys)
  rw [hrecords] at hfilled
  have hsame := hfilled.keyValues_eq hvalid.consistent
  obtain ⟨updates, iterator, written, hserialize⟩ := serialize_eq padding t
  rw [← keyValues_marked] at hserialize
  refine ⟨_, _, t', hserialize, rfl, hload, fun key => ?_, rfl, fun padding' => ?_⟩
  · rw [(Refines.of_consistent hvalid.consistent).get_eq hb key,
      (Refines.of_consistent hfilled.consistent).get_eq hb key, hsame]
  · obtain ⟨updates', iterator', written', hserialize'⟩ := serialize_eq padding' t'
    rw [← keyValues_marked, hsame] at hserialize'
    exact ⟨_, _, hserialize', rfl, rfl⟩

omit [Platform] in
/-- A table with an empty key and an empty value, and with one byte after its stream. -/
theorem serialize_round_trip_of_empty :
    let platform : Platform := ⟨fun _ => (7, 0), 8, 64⟩
    let table := create {} ⟨0, []⟩ ⟨0, ⟨0, 0, [0], by decide⟩, ⟨[.empty], 0⟩⟩
    let calls := [.add ⟨[], by decide⟩ ⟨[], by decide⟩, .add ⟨[5], by decide⟩ ⟨[6, 7], by decide⟩]
    ∃ t₁ s t', serialize (3, 4) (table.run calls).1.hashTable = .ok (t₁, s) ∧
      s.stream = [1, 1, 0, 0, 0, 1, 0, 0, 0, 0, 0, 3, 4, 0, 0, 0, 0, 1, 0, 0, 0, 0, 0, 0,
        1, 1, 0, 5, 2, 0, 0, 0, 6, 7, 0] ∧
      Deserializer.deserialize ⟨0, []⟩ ⟨s.stream ++ [9], false⟩ = .ok (⟨{}, t'⟩, ⟨[9], false⟩) := by
  intro platform table calls
  obtain ⟨t₁, s, t', hserialize, -, hload, -, hstream, -⟩ := @serialize_round_trip platform {}
    (by decide) ⟨0, []⟩ ⟨0, []⟩ ⟨0, ⟨0, 0, [0], by decide⟩, ⟨[.empty], 0⟩⟩ calls (3, 4) [9]
  exact ⟨t₁, s, t', hserialize, hstream.trans (by decide), hload⟩

end WritableHashTable

end ReadWrite

end L4
