import Mathlib.Algebra.Ring.Int.Defs
import L4.BucketUpdate

namespace L4.Cache
set_option autoImplicit true
open LittleEndian

/-! `Metadata` is a view of the bytes behind a pointer: four bytes, of which the most significant
bit, in the last byte, is set upon access, and the other bits are the time of creation. -/

namespace Metadata

/-- `c_metaDataSize`. -/
def metaDataSize : UInt32 := 4

/-- `s_accessBitByte`. -/
def accessBitByte : Nat := 3

/-- The constructor with a time. -/
def create (curEpochTime : Int) : List UInt8 := toBytes 4 (curEpochTime % 2 ^ 31).toNat

def getEpochTime (metadata : List UInt8) : Int := (ofBytes (metadata.take 4) % 2 ^ 31 : Nat)

def isExpired (metadata : List UInt8) (curEpochTime timeToLive : Int) : Bool :=
  decide (timeToLive < curEpochTime - getEpochTime metadata)

def getAccessByte (metadata : List UInt8) : UInt8 := metadata[accessBitByte]?.getD 0

def isAccessed (metadata : List UInt8) : Bool := decide (getAccessByte metadata &&& 0x80 ≠ 0)

/-- `UpdateAccessStatus`: the former status and the bytes afterwards. -/
def updateAccessStatus (set : Bool) (metadata : List UInt8) : Bool × List UInt8 :=
  (isAccessed metadata,
    if set ≠ isAccessed metadata then
      metadata.modify accessBitByte fun byte => if set then byte ||| 0x80 else byte &&& 0x7F
    else metadata)

theorem length_updateAccessStatus (set : Bool) (metadata : List UInt8) :
    (updateAccessStatus set metadata).2.length = metadata.length := by
  rw [updateAccessStatus]
  by_cases hset : set = isAccessed metadata
  · exact congrArg List.length (if_neg (not_not.mpr hset))
  · exact (congrArg List.length (if_pos hset)).trans (List.length_modify ..)

theorem length_create (curEpochTime : Int) : (create curEpochTime).length = 4 :=
  length_toBytes _ _

theorem length_create_lt (curEpochTime : Int) : (create curEpochTime).length < 2 ^ 32 := by
  rw [length_create]
  decide

theorem getEpochTime_create (curEpochTime : Int) :
    getEpochTime (create curEpochTime) = curEpochTime % 2 ^ 31 := by
  have hlt : (curEpochTime % 2 ^ 31).toNat < 2 ^ 31 := by omega
  have hbytes : ofBytes (create curEpochTime) = (curEpochTime % 2 ^ 31).toNat :=
    ofBytes_toBytes_of_lt (Nat.lt_of_lt_of_le hlt (by decide))
  rw [getEpochTime, List.take_of_length_le (Nat.le_of_eq (length_create _)), hbytes,
    Nat.mod_eq_of_lt hlt]
  omega

theorem accessByte_mod (set : Bool) (byte : UInt8) :
    (if set then byte ||| 0x80 else byte &&& 0x7F).toNat % 2 ^ 7 = byte.toNat % 2 ^ 7 := by
  cases set with
  | true =>
    have hbit : (0x80 : UInt8).toNat % 2 ^ 7 = 0 := rfl
    rw [if_pos rfl, UInt8.toNat_or, Nat.or_mod_two_pow, hbit, Nat.or_zero]
  | false =>
    have hmask : (0x7F : UInt8).toNat = 2 ^ 7 - 1 := rfl
    rw [if_neg Bool.false_ne_true, UInt8.toNat_and, hmask, Nat.and_two_pow_sub_one_eq_mod,
      Nat.mod_mod]

theorem accessByte_and (set : Bool) (byte : UInt8) :
    decide ((if set then byte ||| 0x80 else byte &&& 0x7F) &&& 0x80 ≠ 0) = set := by
  cases set with
  | true =>
    have hbit : (byte ||| 0x80) &&& 0x80 = byte &&& 0x80 ||| 0x80 :=
      UInt8.toBitVec_inj.1 BitVec.and_or_distrib_right
    have hle : 0x80 ≤ (byte &&& 0x80 ||| 0x80).toNat := Nat.right_le_or
    rw [if_pos rfl, hbit]
    apply decide_eq_true
    intro hzero
    rw [hzero] at hle
    exact absurd hle (by decide)
  | false =>
    have hmask : (0x7F : UInt8) &&& 0x80 = 0 := rfl
    rw [if_neg Bool.false_ne_true, UInt8.and_assoc, hmask, UInt8.and_zero]
    rfl

theorem exists_eq_cons {metadata : List UInt8} (h : metadata.length = 4) :
    ∃ a b c d, metadata = [a, b, c, d] := by
  match metadata, h with
  | [a, b, c, d], _ => exact ⟨a, b, c, d, rfl⟩

theorem getEpochTime_append (a b c d : UInt8) (rest : List UInt8) :
    getEpochTime ([a, b, c, d] ++ rest) =
      (a.toNat + 256 * b.toNat + 65536 * c.toNat + 16777216 * (d.toNat % 2 ^ 7) : Nat) := by
  have ha := a.toNat_lt
  have hb := b.toNat_lt
  have hc := c.toNat_lt
  simp only [getEpochTime, List.cons_append, List.nil_append, List.take_succ_cons, List.take_zero,
    ofBytes]
  omega

theorem updateAccessStatus_append (set : Bool) {metadata : List UInt8}
    (h : metadata.length = 4) (rest : List UInt8) :
    ∃ metadata', metadata'.length = 4 ∧
      (updateAccessStatus set (metadata ++ rest)).2 = metadata' ++ rest ∧
      getEpochTime (metadata' ++ rest) = getEpochTime (metadata ++ rest) ∧
      isAccessed (metadata' ++ rest) = set := by
  obtain ⟨a, b, c, d, rfl⟩ := exists_eq_cons h
  by_cases hset : set = isAccessed ([a, b, c, d] ++ rest)
  · exact ⟨[a, b, c, d], rfl, if_neg (not_not.mpr hset), rfl, hset.symm⟩
  · refine ⟨[a, b, c, if set then d ||| 0x80 else d &&& 0x7F], rfl, if_pos hset, ?_, ?_⟩
    · rw [getEpochTime_append, getEpochTime_append, accessByte_mod]
    · exact accessByte_and set d

theorem updateAccessStatus_of_short (set : Bool) (hshort : metadata.length < 4) :
    (updateAccessStatus set metadata).2 = metadata := by
  have hmodify (f : UInt8 → UInt8) : metadata.modify accessBitByte f = metadata :=
    List.modify_eq_self (by rw [accessBitByte]; omega)
  simp only [updateAccessStatus, hmodify, ite_self]

theorem updateAccessStatus_of_le (set : Bool) (hlen : 4 ≤ metadata.length) :
    (updateAccessStatus set metadata).2.drop 4 = metadata.drop 4 ∧
      getEpochTime (updateAccessStatus set metadata).2 = getEpochTime metadata ∧
      isAccessed (updateAccessStatus set metadata).2 = set := by
  obtain ⟨metadata', hlen', hupdate, htime, haccess⟩ :=
    updateAccessStatus_append set (List.length_take_of_le hlen) (metadata.drop 4)
  rw [List.take_append_drop] at hupdate htime
  rw [hupdate]
  exact ⟨List.drop_left' hlen', htime, haccess⟩

theorem getEpochTime_updateAccessStatus (set : Bool) (metadata : List UInt8) :
    getEpochTime (updateAccessStatus set metadata).2 = getEpochTime metadata := by
  rcases Nat.lt_or_ge metadata.length 4 with hshort | hlen
  · rw [updateAccessStatus_of_short set hshort]
  · exact (updateAccessStatus_of_le set hlen).2.1

theorem drop_updateAccessStatus (set : Bool) (metadata : List UInt8) :
    (updateAccessStatus set metadata).2.drop 4 = metadata.drop 4 := by
  rcases Nat.lt_or_ge metadata.length 4 with hshort | hlen
  · rw [updateAccessStatus_of_short set hshort]
  · exact (updateAccessStatus_of_le set hlen).1

theorem isAccessed_updateAccessStatus_false (metadata : List UInt8) :
    isAccessed (updateAccessStatus false metadata).2 = false := by
  rcases Nat.lt_or_ge metadata.length 4 with hshort | hlen
  · rw [updateAccessStatus_of_short false hshort, isAccessed, getAccessByte, accessBitByte,
      List.getElem?_eq_none (by omega)]
    rfl
  · exact (updateAccessStatus_of_le false hlen).2.2

end Metadata

open Metadata

section Record
variable (rs : RecordSerializer)

/-- The number of bytes before the value in a buffer. -/
def valueOffset (buffer : List UInt8) : Nat :=
  rs.calculateRecordOverhead + (rs.keySizeOf buffer).toNat

/-- The bytes that the value pointer of a record points to, where its metadata starts. -/
def metadataOf (record : RecordBuffer) : List UInt8 :=
  record.bytes.drop (valueOffset rs record.bytes)

/-- Writes through the value pointer of a record. -/
def storeMetadata (record : RecordBuffer) (metadata : List UInt8) : RecordBuffer :=
  { record with bytes := record.bytes.take (valueOffset rs record.bytes) ++ metadata }

/-- The buffer of a cached record: its key, the value that the user has given, and the time of its
creation. -/
structure Cached (record : RecordBuffer) (key : Key) (value : Value) (time : Int) : Prop where
  layout : ∃ metadata, metadata.length = 4 ∧
    getEpochTime (metadata ++ value.data) = time % 2 ^ 31 ∧
    record.bytes = rs.serializeSizes key.size (value.size + 4) ++ key.data ++
      (metadata ++ value.data)
  validates : rs.Validates key value
  size_lt : value.size + 4 < 2 ^ 32

variable {rs : RecordSerializer} {record : RecordBuffer} {key : Key} {value : Value}

theorem valueOffset_append (hv : rs.Validates key value) (valueSize : Nat) (rest : List UInt8) :
    valueOffset rs (rs.serializeSizes key.size valueSize ++ key.data ++ rest) =
      (rs.serializeSizes key.size valueSize ++ key.data).length := by
  have hkey : rs.fixedKeySize ≠ 0 → key.size = rs.fixedKeySize.toNat := by
    simp only [RecordSerializer.Validates, not_or, not_and, not_not] at hv
    exact hv.1
  have hsize := rs.keySizeOf_append key (rs.valueSizeField valueSize ++ (key.data ++ rest)) hkey
  rw [valueOffset, RecordSerializer.serializeSizes, List.append_assoc, List.append_assoc,
    hsize, ← RecordSerializer.serializeSizes, List.length_append,
    RecordSerializer.length_serializeSizes]
  rfl

theorem Cached.valueOffset_eq (h : Cached rs record key value time) :
    valueOffset rs record.bytes =
      (rs.serializeSizes key.size (value.size + 4) ++ key.data).length := by
  obtain ⟨metadata, -, -, hbytes⟩ := h.layout
  rw [hbytes]
  exact valueOffset_append h.validates _ _

theorem Cached.metadataOf_eq (h : Cached rs record key value time)
    (hbytes : record.bytes =
      rs.serializeSizes key.size (value.size + 4) ++ key.data ++ metadata) :
    metadataOf rs record = metadata := by
  rw [metadataOf, h.valueOffset_eq, hbytes]
  exact List.drop_left' rfl

theorem Cached.deserialize (h : Cached rs record key value time)
    (hmeta : rs.metadataSize = metaDataSize) :
    rs.keyOf record = key ∧ (rs.valueOf record).data = metadataOf rs record := by
  obtain ⟨metadata, hlen, -, hbytes⟩ := h.layout
  have hsize : (metadata ++ value.data).length = value.size + 4 := by
    rw [List.length_append, hlen, Nat.add_comm]
    rfl
  have hv := h.validates
  simp only [RecordSerializer.Validates, not_or, not_and, not_not] at hv
  have hvalue : rs.fixedValueSize ≠ 0 →
      value.size + 4 = (rs.fixedValueSize + rs.metadataSize).toNat := by
    intro h0
    have hfixed := hv.2 h0
    have hlt := h.size_lt
    rw [hmeta, UInt32.toNat_add, ← hfixed]
    exact (Nat.mod_eq_of_lt hlt).symm
  have hrecord := rs.deserialize_layout key ⟨metadata ++ value.data, hsize ▸ h.size_lt⟩ hv.1
    (by simpa only [Blob.size, hsize] using hvalue)
  simp only [Blob.size, hsize] at hrecord
  rw [h.metadataOf_eq hbytes, RecordSerializer.keyOf, RecordSerializer.valueOf, hbytes]
  exact ⟨congrArg Record.key hrecord, congrArg (fun r => r.value.data) hrecord⟩

theorem Cached.updateAccessStatus (h : Cached rs record key value time) (set : Bool) :
    Cached rs (storeMetadata rs record
        (Metadata.updateAccessStatus set (metadataOf rs record)).2) key value time ∧
      isAccessed (metadataOf rs (storeMetadata rs record
        (Metadata.updateAccessStatus set (metadataOf rs record)).2)) = set := by
  obtain ⟨metadata, hlen, htime, hbytes⟩ := h.layout
  rw [h.metadataOf_eq hbytes]
  obtain ⟨metadata', hlen', hupdate, htime', haccess⟩ :=
    updateAccessStatus_append set hlen value.data
  have hstore : (storeMetadata rs record
      (Metadata.updateAccessStatus set (metadata ++ value.data)).2).bytes =
      rs.serializeSizes key.size (value.size + 4) ++ key.data ++ (metadata' ++ value.data) := by
    rw [storeMetadata, h.valueOffset_eq, hbytes, hupdate]
    exact congrArg (· ++ _) (List.take_left' rfl)
  have hcached : Cached rs (storeMetadata rs record
      (Metadata.updateAccessStatus set (metadata ++ value.data)).2) key value time :=
    ⟨⟨metadata', hlen', htime'.trans htime, hstore⟩, h.validates, h.size_lt⟩
  refine ⟨hcached, ?_⟩
  rw [hcached.metadataOf_eq hstore]
  exact haccess

theorem Cached.getEpochTime_eq (h : Cached rs record key value time) :
    getEpochTime (metadataOf rs record) = time % 2 ^ 31 := by
  obtain ⟨metadata, -, htime, hbytes⟩ := h.layout
  rw [h.metadataOf_eq hbytes, htime]

theorem Cached.drop_valueOf (h : Cached rs record key value time)
    (hmeta : rs.metadataSize = metaDataSize) : (rs.valueOf record).data.drop 4 = value.data := by
  obtain ⟨metadata, hlen, -, hbytes⟩ := h.layout
  rw [(h.deserialize hmeta).2, h.metadataOf_eq hbytes]
  exact List.drop_left' hlen

theorem Cached.size_valueOf (h : Cached rs record key value time)
    (hmeta : rs.metadataSize = metaDataSize) : (rs.valueOf record).size = value.size + 4 := by
  obtain ⟨metadata, hlen, -, hbytes⟩ := h.layout
  rw [Blob.size, (h.deserialize hmeta).2, h.metadataOf_eq hbytes, List.length_append, hlen,
    Nat.add_comm]
  rfl

theorem getEpochTime_create_append (time : Int) (rest : List UInt8) :
    getEpochTime (create time ++ rest) = time % 2 ^ 31 := by
  rw [← getEpochTime_create time, getEpochTime, List.take_left' (length_create time), getEpochTime,
    List.take_of_length_le (Nat.le_of_eq (length_create time))]

theorem getEpochTime_of_serializeWithMeta {metaValue : Value} (htime : metaValue.data = create time)
    (h : rs.serializeWithMeta key value metaValue = .ok bytes) (address : Nat) :
    getEpochTime (metadataOf rs ⟨address, bytes⟩) = time % 2 ^ 31 := by
  rw [RecordSerializer.serializeWithMeta] at h
  split_ifs at h with hv hsize
  obtain rfl := Except.ok.inj h
  rw [metadataOf, htime, List.append_assoc, valueOffset_append hv, List.drop_left' rfl,
    getEpochTime_create_append]

theorem cached_of_serializeWithMeta {metaValue : Value} (htime : metaValue.data = create time)
    (hmeta : rs.metadataSize = metaDataSize) (hv : rs.Validates key value)
    (hlt : value.size + 4 < 2 ^ 32) (address : Nat) :
    ∃ bytes, rs.serializeWithMeta key value metaValue = .ok bytes ∧
      Cached rs ⟨address, bytes⟩ key value time := by
  have hsize : metaValue.size = 4 := by rw [Blob.size, htime, length_create]
  have hmetaSize : rs.metadataSize.toNat = metaValue.size := by
    rw [hmeta, hsize]
    rfl
  refine ⟨_, (if_pos hv).trans (if_pos hmetaSize), ?_, hv, hlt⟩
  refine ⟨create time, length_create time, ?_, ?_⟩
  · exact getEpochTime_create_append time value.data
  · simp only [hsize, Nat.mod_eq_of_lt hlt, htime, List.append_assoc]

theorem valueOf_eq_take (rs : RecordSerializer) (record : RecordBuffer) :
    (rs.valueOf record).data = (metadataOf rs record).take
      (rs.valueSizeOf (rs.afterKeySize record.bytes)).toNat := by
  have hoffset : (rs.afterValueSize (rs.afterKeySize record.bytes)).drop
      (rs.keySizeOf record.bytes).toNat = metadataOf rs record := by
    rw [metadataOf, valueOffset, RecordSerializer.calculateRecordOverhead,
      RecordSerializer.afterValueSize, RecordSerializer.afterKeySize]
    split_ifs <;> simp [List.drop_drop]
  rw [RecordSerializer.valueOf, RecordSerializer.deserialize, ← hoffset]
  rfl

/-- The iterator, which reads the metadata through the value, reads what `Get` reads. -/
theorem isExpired_valueOf (h : metaDataSize.toNat < (rs.valueOf record).size)
    (now timeToLive : Int) :
    isExpired (rs.valueOf record).data now timeToLive =
      isExpired (metadataOf rs record) now timeToLive := by
  have htake : (rs.valueOf record).data.take 4 = (metadataOf rs record).take 4 := by
    have hlt : 4 < (rs.valueOf record).data.length := h
    rw [valueOf_eq_take, List.length_take] at hlt
    rw [valueOf_eq_take, List.take_take, Nat.min_eq_left (by omega)]
  rw [isExpired, isExpired, getEpochTime, getEpochTime, htake]

end Record

section Layout
open RecordSerializer
variable {rs : RecordSerializer} {keySize valueSize key : List UInt8}

theorem keySizeOf_parts
    (hkeySize : keySize.length = if rs.fixedKeySize ≠ 0 then 0 else sizeofKeySize)
    (rest : List UInt8) :
    rs.keySizeOf (keySize ++ rest) = rs.keySizeOf keySize ∧
      rs.afterKeySize (keySize ++ rest) = rest := by
  by_cases h0 : rs.fixedKeySize = 0
  · simp only [h0, ne_eq, not_true_eq_false, if_false] at hkeySize
    simp [keySizeOf, afterKeySize, h0, ← hkeySize]
  · simp only [ne_eq, h0, not_false_eq_true, if_true, List.length_eq_zero_iff] at hkeySize
    simp [keySizeOf, afterKeySize, h0, hkeySize]

theorem valueSizeOf_parts
    (hvalueSize : valueSize.length = if rs.fixedValueSize ≠ 0 then 0 else sizeofValueSize)
    (rest : List UInt8) :
    rs.valueSizeOf (valueSize ++ rest) = rs.valueSizeOf valueSize ∧
      rs.afterValueSize (valueSize ++ rest) = rest := by
  by_cases h0 : rs.fixedValueSize = 0
  · simp only [h0, ne_eq, not_true_eq_false, if_false] at hvalueSize
    simp [valueSizeOf, afterValueSize, h0, ← hvalueSize]
  · simp only [ne_eq, h0, not_false_eq_true, if_true, List.length_eq_zero_iff] at hvalueSize
    simp [valueSizeOf, afterValueSize, h0, hvalueSize]

theorem deserialize_parts
    (hkeySize : keySize.length = if rs.fixedKeySize ≠ 0 then 0 else sizeofKeySize)
    (hvalueSize : valueSize.length = if rs.fixedValueSize ≠ 0 then 0 else sizeofValueSize)
    (hkey : key.length = (rs.keySizeOf keySize).toNat) (rest : List UInt8) :
    (rs.deserialize (keySize ++ (valueSize ++ (key ++ rest)))).key.data = key ∧
      (rs.deserialize (keySize ++ (valueSize ++ (key ++ rest)))).value.size =
        min (rs.valueSizeOf valueSize).toNat rest.length := by
  simp only [deserialize, keySizeOf_parts hkeySize, valueSizeOf_parts hvalueSize, Blob.ofBuffer,
    Blob.size, ← hkey, List.take_left', List.drop_left', List.length_take, and_self]

theorem valueOffset_parts
    (hkeySize : keySize.length = if rs.fixedKeySize ≠ 0 then 0 else sizeofKeySize)
    (hvalueSize : valueSize.length = if rs.fixedValueSize ≠ 0 then 0 else sizeofValueSize)
    (hkey : key.length = (rs.keySizeOf keySize).toNat) (rest : List UInt8) :
    valueOffset rs (keySize ++ (valueSize ++ (key ++ rest))) =
      (keySize ++ (valueSize ++ key)).length := by
  rw [valueOffset, calculateRecordOverhead, (keySizeOf_parts hkeySize _).1, List.length_append,
    List.length_append, hkeySize, hvalueSize, hkey, Nat.add_assoc]

theorem layout_cases (rs : RecordSerializer) (bytes : List UInt8) :
    bytes.length ≤ valueOffset rs bytes ∨ ∃ keySize valueSize key rest,
      bytes = keySize ++ (valueSize ++ (key ++ rest)) ∧
      (keySize.length = if rs.fixedKeySize ≠ 0 then 0 else sizeofKeySize) ∧
      (valueSize.length = if rs.fixedValueSize ≠ 0 then 0 else sizeofValueSize) ∧
      key.length = (rs.keySizeOf keySize).toNat := by
  by_cases hshort : bytes.length ≤ valueOffset rs bytes
  · exact .inl hshort
  · have hsplit (l : List UInt8) (n : Nat) (hn : n ≤ l.length) :
        ∃ front rest, l = front ++ rest ∧ front.length = n :=
      ⟨l.take n, l.drop n, (List.take_append_drop n l).symm, List.length_take_of_le hn⟩
    rw [valueOffset, calculateRecordOverhead] at hshort
    obtain ⟨keySize, bytes', rfl, hkeySize⟩ := hsplit bytes
      (if rs.fixedKeySize ≠ 0 then 0 else sizeofKeySize) (by omega)
    rw [List.length_append, (keySizeOf_parts hkeySize _).1, hkeySize] at hshort
    obtain ⟨valueSize, bytes'', rfl, hvalueSize⟩ := hsplit bytes'
      (if rs.fixedValueSize ≠ 0 then 0 else sizeofValueSize) (by omega)
    rw [List.length_append, hvalueSize] at hshort
    obtain ⟨key, rest, rfl, hkey⟩ := hsplit bytes'' (rs.keySizeOf keySize).toNat (by omega)
    exact .inr ⟨keySize, valueSize, key, rest, rfl, hkeySize, hvalueSize, hkey⟩

theorem keyOf_storeMetadata (rs : RecordSerializer) {metadata : List UInt8}
    (hlen : metadata.length = (metadataOf rs record).length) :
    rs.keyOf (storeMetadata rs record metadata) = rs.keyOf record ∧
      (rs.valueOf (storeMetadata rs record metadata)).size = (rs.valueOf record).size ∧
      metadataOf rs (storeMetadata rs record metadata) = metadata := by
  rcases layout_cases rs record.bytes with hshort |
    ⟨keySize, valueSize, key, rest, hbytes, hkeySize, hvalueSize, hkey⟩
  · have hnil : metadataOf rs record = [] := List.drop_eq_nil_of_le hshort
    obtain rfl : metadata = [] := List.length_eq_zero_iff.mp (by rw [hlen, hnil]; rfl)
    have hstore : storeMetadata rs record [] = record := by
      rw [storeMetadata, List.append_nil, List.take_of_length_le hshort]
    rw [hstore]
    exact ⟨rfl, rfl, hnil⟩
  · have hsplit (rest : List UInt8) : keySize ++ (valueSize ++ (key ++ rest)) =
        keySize ++ (valueSize ++ key) ++ rest := by
      rw [List.append_assoc, List.append_assoc]
    have hoffset := valueOffset_parts hkeySize hvalueSize hkey
    have hrest : metadataOf rs record = rest := by
      rw [metadataOf, hbytes, hoffset, hsplit, List.drop_left' rfl]
    have hstore : (storeMetadata rs record metadata).bytes =
        keySize ++ (valueSize ++ (key ++ metadata)) := by
      rw [storeMetadata, hbytes, hoffset, hsplit, List.take_left' rfl, hsplit]
    obtain ⟨hdata, hsize⟩ := deserialize_parts hkeySize hvalueSize hkey rest
    obtain ⟨hdata', hsize'⟩ := deserialize_parts hkeySize hvalueSize hkey metadata
    rw [keyOf, keyOf, valueOf, valueOf, hstore, hbytes, Blob.ext_iff, hdata, hdata', hsize, hsize',
      hlen, hrest]
    refine ⟨rfl, rfl, ?_⟩
    rw [metadataOf, hstore, hoffset, hsplit, List.drop_left' rfl]

theorem metadataOf_storeMetadata (rs : RecordSerializer) (record : RecordBuffer) (set : Bool) :
    metadataOf rs (storeMetadata rs record
        (Metadata.updateAccessStatus set (metadataOf rs record)).2) =
      (Metadata.updateAccessStatus set (metadataOf rs record)).2 :=
  (keyOf_storeMetadata rs (Metadata.length_updateAccessStatus set (metadataOf rs record))).2.2

theorem getEpochTime_storeMetadata (rs : RecordSerializer) (record : RecordBuffer) (set : Bool) :
    getEpochTime (metadataOf rs (storeMetadata rs record
        (Metadata.updateAccessStatus set (metadataOf rs record)).2)) =
      getEpochTime (metadataOf rs record) := by
  rw [metadataOf_storeMetadata, getEpochTime_updateAccessStatus]

/-- What a value has after its metadata does not change with the access bit. -/
theorem drop_valueOf_storeMetadata (rs : RecordSerializer) (record : RecordBuffer) (set : Bool) :
    (rs.valueOf (storeMetadata rs record
        (Metadata.updateAccessStatus set (metadataOf rs record)).2)).data.drop 4 =
      (rs.valueOf record).data.drop 4 := by
  have htake (record : RecordBuffer) :
      (rs.valueOf record).data = (metadataOf rs record).take (rs.valueOf record).size := by
    rw [Blob.size, valueOf_eq_take, List.length_take, ← List.take_eq_take_min]
  have hsize := (keyOf_storeMetadata rs
    (Metadata.length_updateAccessStatus set (metadataOf rs record))).2.1
  rw [htake, hsize, metadataOf_storeMetadata, List.drop_take, drop_updateAccessStatus,
    ← List.drop_take, ← htake]

end Layout

end L4.Cache
