import L4.CacheCalls
import L4.RecordCodec

namespace L4.Cache
set_option autoImplicit true
open Metadata
variable {setting : Setting} {key : Key} {value : Value}

/-- The sizes that `Add` calculates are those of the record: what `Evict` is asked for, the buffer
that is allocated, and the size of the value that is stored. -/
structure SizesExact (setting : Setting) (key : Key) (value : Value) : Prop where
  needed : bytesNeeded key value = key.size + value.size + metaDataSize.toNat
  fits : ∀ (t : SharedHashTable setting) curEpochTime hashTable record,
    createRecordBuffer setting.cacheRecordSerializer t key value curEpochTime =
      (hashTable, .ok record) →
    ∃ size, hashTable.allocator.allocated = (record.address, size) :: t.allocator.allocated ∧
      record.bytes.length ≤ size
  stored : ∀ (t : SharedHashTable setting) curEpochTime hashTable record,
    createRecordBuffer setting.cacheRecordSerializer t key value curEpochTime =
      (hashTable, .ok record) →
    (setting.cacheRecordSerializer.valueSizeOf
      (setting.cacheRecordSerializer.afterKeySize record.bytes)).toNat =
        value.size + metaDataSize.toNat

theorem bytesNeeded_eq_iff (key : Key) (value : Value) :
    bytesNeeded key value = key.size + value.size + metaDataSize.toNat ↔
      key.size + value.size + metaDataSize.toNat < 2 ^ 32 := by
  constructor
  · intro h
    rw [← h]
    exact Nat.mod_lt _ (by decide)
  · exact Nat.mod_eq_of_lt

/-- For a record that `Add` accepts, the sizes are exact if and only if the key, the value and the
metadata together have less than `2 ^ 32` bytes. -/
theorem sizesExact_iff (h : setting.cacheRecordSerializer.Validates key value) :
    SizesExact setting key value ↔ key.size + value.size + metaDataSize.toNat < 2 ^ 32 := by
  constructor
  · intro hexact
    exact (bytesNeeded_eq_iff key value).mp hexact.needed
  · intro hlt
    have hsize : value.size + metaDataSize.toNat < 2 ^ 32 := by omega
    have hcodec (curEpochTime : Int) :=
      (setting.cacheRecordSerializer.codec_round_trip key value h hsize).2.1
        ⟨Metadata.create curEpochTime, length_create_lt curEpochTime⟩
        (length_create curEpochTime).symm
    refine ⟨(bytesNeeded_eq_iff key value).mpr hlt, ?_, ?_⟩
    · intro t curEpochTime hashTable record hcreate
      obtain ⟨hallocated, hserialize⟩ := createRecordBuffer_ok hcreate
      obtain ⟨bytes, hbytes, hlength, -⟩ := hcodec curEpochTime
      obtain rfl := Except.ok.inj (hserialize.symm.trans hbytes)
      exact ⟨_, hallocated, Nat.le_of_eq hlength⟩
    · intro t curEpochTime hashTable record hcreate
      obtain ⟨-, hserialize⟩ := createRecordBuffer_ok hcreate
      obtain ⟨bytes, hbytes, -, hdecodes⟩ := hcodec curEpochTime
      obtain rfl := Except.ok.inj (hserialize.symm.trans hbytes)
      have hstored := (hdecodes []).valueSize
      rw [List.append_nil, List.length_append, length_create, Nat.add_comm] at hstored
      exact hstored

/-- Values of `2 ^ 32 - 4` bytes: `Evict` is asked for a single byte, that of the key, and the
buffer of the record has no room for more. -/
theorem sizes_of_long_value :
    let setting : Setting := { fixedKeySize := 1, fixedValueSize := 0xFFFFFFFC }
    let key : Key := ⟨[5], by decide⟩
    let value : Value := ⟨List.replicate (2 ^ 32 - 4) 0, by rw [List.length_replicate]; decide⟩
    setting.cacheRecordSerializer.Validates key value ∧ bytesNeeded key value = 1 ∧
      setting.cacheRecordSerializer.calculateBufferSize key value = 1 ∧
      ¬ SizesExact setting key value := by
  intro setting key value
  have hsize : value.size = 2 ^ 32 - 4 := List.length_replicate
  have hvalid : setting.cacheRecordSerializer.Validates key value := by
    rw [RecordSerializer.Validates, hsize]
    decide
  have hneeded : bytesNeeded key value = 1 := by
    rw [bytesNeeded, hsize]
    decide
  have hbuffer : setting.cacheRecordSerializer.calculateBufferSize key value = 1 := by
    rw [RecordSerializer.calculateBufferSize, hsize]
    decide
  refine ⟨hvalid, hneeded, hbuffer, ?_⟩
  intro hexact
  have hneeded' := hexact.needed
  rw [hneeded, hsize] at hneeded'
  exact absurd hneeded' (by decide)

/-- Values that leave room for the key and the metadata. -/
theorem sizesExact_iff_of_short_value :
    SizesExact {} ⟨[5], by decide⟩ ⟨[6, 7], by decide⟩ :=
  (sizesExact_iff (by decide)).mpr (by decide)

end L4.Cache
