import L4.Record

namespace L4.RecordSerializer
set_option autoImplicit true
variable {rs : RecordSerializer} {key : Key} {value : Value}

theorem Validates.sizes (h : rs.Validates key value) :
    (rs.fixedKeySize ≠ 0 → key.size = rs.fixedKeySize.toNat) ∧
      (rs.fixedValueSize ≠ 0 → value.size = rs.fixedValueSize.toNat) := by
  simpa only [Validates, not_or, not_and, not_not] using h

/-- The sizes and the bytes of the record that `Deserialize` reads from a buffer. -/
structure Decodes (rs : RecordSerializer) (buffer : List UInt8) (key : Key) (data : List UInt8) :
    Prop where
  keySize : (rs.keySizeOf buffer).toNat = key.size
  valueSize : (rs.valueSizeOf (rs.afterKeySize buffer)).toNat = data.length
  decodedKey : (rs.deserialize buffer).key = key
  decodedValue : (rs.deserialize buffer).value.data = data

theorem decodes_append (rs : RecordSerializer) (key : Key) (value : Value)
    (hkey : rs.fixedKeySize ≠ 0 → key.size = rs.fixedKeySize.toNat)
    (hvalue : rs.fixedValueSize ≠ 0 →
      value.size = (rs.fixedValueSize + rs.metadataSize).toNat) (rest : List UInt8) :
    rs.Decodes (rs.serializeSizes key.size value.size ++ key.data ++ value.data ++ rest) key
      value.data := by
  have hrecord := rs.deserialize_append key value hkey hvalue rest
  refine ⟨?_, ?_, congrArg Record.key hrecord, congrArg (fun r => r.value.data) hrecord⟩
  · rw [serializeSizes, List.append_assoc, List.append_assoc, List.append_assoc]
    exact rs.keySizeOf_append key _ hkey
  · rw [serializeSizes, List.append_assoc, List.append_assoc, List.append_assoc,
      afterKeySize_append]
    exact rs.valueSizeOf_append value _ hvalue

theorem calculateBufferSize_eq (h : rs.Validates key value)
    (hlt : value.size + rs.metadataSize.toNat < 2 ^ 32) :
    rs.calculateBufferSize key value =
      rs.calculateRecordOverhead + key.size + value.size + rs.metadataSize.toNat := by
  obtain ⟨hkey, hvalue⟩ := h.sizes
  have hkeyPart : (if rs.fixedKeySize ≠ 0 then rs.fixedKeySize.toNat
      else key.size + sizeofKeySize) =
      (if rs.fixedKeySize ≠ 0 then 0 else sizeofKeySize) + key.size := by
    split_ifs with h0
    · rw [hkey h0, Nat.zero_add]
    · exact Nat.add_comm _ _
  have hvaluePart : (if rs.fixedValueSize ≠ 0 then (rs.fixedValueSize + rs.metadataSize).toNat
      else value.size + sizeofValueSize + rs.metadataSize.toNat) =
      (if rs.fixedValueSize ≠ 0 then 0 else sizeofValueSize) + value.size +
        rs.metadataSize.toNat := by
    split_ifs with h0
    · rw [UInt32.toNat_add, ← hvalue h0, Nat.zero_add, Nat.mod_eq_of_lt hlt]
    · rw [Nat.add_comm value.size]
  rw [calculateBufferSize, calculateRecordOverhead, hkeyPart, hvaluePart]
  omega

theorem serialize_codec (h : rs.Validates key value) (hmeta : rs.metadataSize = 0) :
    ∃ bytes, rs.serialize key value = .ok bytes ∧
      bytes.length = rs.calculateBufferSize key value ∧
      ∀ rest, rs.Decodes (bytes ++ rest) key value.data := by
  obtain ⟨hkey, hvalue⟩ := h.sizes
  refine ⟨_, if_pos h, ?_, fun rest => rs.decodes_append key value hkey ?_ rest⟩
  · have hzero : rs.metadataSize.toNat = 0 := congrArg UInt32.toNat hmeta
    rw [calculateBufferSize_eq h (by rw [hzero]; exact value.size_lt), hzero, List.length_append,
      List.length_append, length_serializeSizes]
    rfl
  · intro h0
    rw [hmeta, UInt32.add_zero]
    exact hvalue h0

theorem serializeWithMeta_codec {metaValue : Value} (h : rs.Validates key value)
    (hmeta : rs.metadataSize.toNat = metaValue.size)
    (hlt : value.size + rs.metadataSize.toNat < 2 ^ 32) :
    ∃ bytes, rs.serializeWithMeta key value metaValue = .ok bytes ∧
      bytes.length = rs.calculateBufferSize key value ∧
      ∀ rest, rs.Decodes (bytes ++ rest) key (metaValue.data ++ value.data) := by
  obtain ⟨hkey, hvalue⟩ := h.sizes
  have hsize : (metaValue.data ++ value.data).length =
      (value.size + metaValue.size) % 2 ^ 32 := by
    rw [← hmeta, Nat.mod_eq_of_lt hlt, hmeta, List.length_append]
    exact Nat.add_comm _ _
  let stored : Value := ⟨metaValue.data ++ value.data, hsize ▸ Nat.mod_lt _ (by decide)⟩
  have hstored : stored.size = (value.size + metaValue.size) % 2 ^ 32 := hsize
  refine ⟨_, (if_pos h).trans (if_pos hmeta), ?_, fun rest => ?_⟩
  · rw [calculateBufferSize_eq h hlt, hmeta, List.length_append, List.length_append,
      List.length_append, length_serializeSizes]
    have hkeySize : key.data.length = key.size := rfl
    have hmetaSize : metaValue.data.length = metaValue.size := rfl
    have hvalueSize : value.data.length = value.size := rfl
    omega
  · have hfixed : rs.fixedValueSize ≠ 0 →
        stored.size = (rs.fixedValueSize + rs.metadataSize).toNat := by
      intro h0
      rw [hstored, UInt32.toNat_add, ← hvalue h0, hmeta]
    have hdecodes := rs.decodes_append key stored hkey hfixed rest
    have hdata : stored.data = metaValue.data ++ value.data := rfl
    rw [hstored, hdata, ← List.append_assoc] at hdecodes
    exact hdecodes

/-- Every record that the serializer accepts comes back from its buffer, which it fills exactly. -/
theorem codec_round_trip (rs : RecordSerializer) (key : Key) (value : Value)
    (h : rs.Validates key value) (hlt : value.size + rs.metadataSize.toNat < 2 ^ 32) :
    (rs.metadataSize = 0 → ∃ bytes, rs.serialize key value = .ok bytes ∧
      bytes.length = rs.calculateBufferSize key value ∧
      ∀ rest, rs.Decodes (bytes ++ rest) key value.data) ∧
    (∀ metaValue : Value, rs.metadataSize.toNat = metaValue.size →
      ∃ bytes, rs.serializeWithMeta key value metaValue = .ok bytes ∧
        bytes.length = rs.calculateBufferSize key value ∧
        ∀ rest, rs.Decodes (bytes ++ rest) key (metaValue.data ++ value.data)) ∧
    rs.calculateBufferSize key value =
      rs.calculateRecordOverhead + key.size + value.size + rs.metadataSize.toNat :=
  ⟨serialize_codec h, fun _ hmeta => serializeWithMeta_codec h hmeta hlt,
    calculateBufferSize_eq h hlt⟩

/-- A key of fixed size, a value of any size and two bytes of metadata. -/
theorem codec_round_trip_of_metadata :
    let rs : RecordSerializer := ⟨1, 0, 2⟩
    let key : Key := ⟨[5], by decide⟩
    let value : Value := ⟨[6, 7, 8], by decide⟩
    let metaValue : Value := ⟨[1, 2], by decide⟩
    ∃ bytes, rs.serializeWithMeta key value metaValue = .ok bytes ∧ bytes.length = 10 ∧
      rs.Decodes (bytes ++ [9]) key [1, 2, 6, 7, 8] := by
  intro rs key value metaValue
  obtain ⟨-, hwithMeta, -⟩ := codec_round_trip rs key value (by decide) (by decide)
  obtain ⟨bytes, hserialize, hlength, hdecodes⟩ := hwithMeta metaValue rfl
  exact ⟨bytes, hserialize, hlength, hdecodes [9]⟩

end L4.RecordSerializer
