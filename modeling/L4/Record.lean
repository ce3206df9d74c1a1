import L4.EpochQueue
import L4.Library.LittleEndian

namespace L4
set_option autoImplicit true
open LittleEndian

/-- `Blob<TSize>` with a size type of `width` bits: the bytes that the blob points at. -/
structure Blob (width : Nat) where
  data : List UInt8
  size_lt : data.length < 2 ^ width
deriving DecidableEq

namespace Blob

def size (b : Blob width) : Nat := b.data.length

@[ext] theorem ext {b c : Blob width} (h : b.data = c.data) : b = c := by
  cases b
  cases c
  simp_all

/-- The blob of at most `size` bytes at the start of a buffer. -/
def ofBuffer (size : Nat) (h : size < 2 ^ width) (buffer : List UInt8) : Blob width :=
  ⟨buffer.take size, Nat.lt_of_le_of_lt (List.length_take_le _ _) h⟩

theorem ofBuffer_append (b : Blob width) (h : b.size < 2 ^ width) (rest : List UInt8) :
    ofBuffer b.size h (b.data ++ rest) = b :=
  ext (List.take_left' rfl)

end Blob

abbrev Key := Blob 16

abbrev Value := Blob 32

structure Record where
  key : Key
  value : Value
deriving DecidableEq

/-- A pointer to a record buffer: the address it was allocated at and the bytes there. -/
structure RecordBuffer where
  address : Nat
  bytes : List UInt8
deriving DecidableEq

structure RecordSerializer where
  fixedKeySize : UInt16
  fixedValueSize : UInt32
  metadataSize : UInt32

namespace RecordSerializer

/-- `sizeof(KeySize)` and `sizeof(ValueSize)`. -/
def sizeofKeySize : Nat := 2

def sizeofValueSize : Nat := 4

def calculateBufferSize (rs : RecordSerializer) (key : Key) (value : Value) : Nat :=
  (if rs.fixedKeySize ≠ 0 then rs.fixedKeySize.toNat else key.size + sizeofKeySize) +
    (if rs.fixedValueSize ≠ 0 then (rs.fixedValueSize + rs.metadataSize).toNat
      else value.size + sizeofValueSize + rs.metadataSize.toNat)

def calculateRecordOverhead (rs : RecordSerializer) : Nat :=
  (if rs.fixedKeySize ≠ 0 then 0 else sizeofKeySize) +
    (if rs.fixedValueSize ≠ 0 then 0 else sizeofValueSize)

/-- `Validate` throws unless the sizes agree with the fixed sizes that are set. -/
def Validates (rs : RecordSerializer) (key : Key) (value : Value) : Prop :=
  ¬ ((rs.fixedKeySize ≠ 0 ∧ key.size ≠ rs.fixedKeySize.toNat) ∨
    (rs.fixedValueSize ≠ 0 ∧ value.size ≠ rs.fixedValueSize.toNat))

instance (rs : RecordSerializer) (key : Key) (value : Value) : Decidable (rs.Validates key value) :=
  inferInstanceAs (Decidable (¬ _))

/-- The size fields that `SerializeSizes` writes: none for a size that is fixed. -/
def keySizeField (rs : RecordSerializer) (keySize : Nat) : List UInt8 :=
  if rs.fixedKeySize = 0 then toBytes sizeofKeySize keySize else []

def valueSizeField (rs : RecordSerializer) (valueSize : Nat) : List UInt8 :=
  if rs.fixedValueSize = 0 then toBytes sizeofValueSize valueSize else []

def serializeSizes (rs : RecordSerializer) (keySize valueSize : Nat) : List UInt8 :=
  rs.keySizeField keySize ++ rs.valueSizeField valueSize

/-- The bytes that the two-argument `Serialize` writes to the start of the buffer. -/
def serialize (rs : RecordSerializer) (key : Key) (value : Value) : Except Failure (List UInt8) :=
  if rs.Validates key value then
    .ok (rs.serializeSizes key.size value.size ++ key.data ++ value.data)
  else .error (.runtimeException "Invalid key or value sizes are given.")

/-- The three-argument `Serialize`, which puts the meta value between key and value. The stored
value size is the sum of both on 32 bits. -/
def serializeWithMeta (rs : RecordSerializer) (key : Key) (value metaValue : Value) :
    Except Failure (List UInt8) :=
  if rs.Validates key value then
    if rs.metadataSize.toNat = metaValue.size then
      .ok (rs.serializeSizes key.size ((value.size + metaValue.size) % 2 ^ 32) ++ key.data ++
        metaValue.data ++ value.data)
    else .error (.runtimeException "Invalid meta value size is given.")
  else .error (.runtimeException "Invalid key or value sizes are given.")

def keySizeOf (rs : RecordSerializer) (buffer : List UInt8) : UInt16 :=
  if rs.fixedKeySize ≠ 0 then rs.fixedKeySize
  else UInt16.ofNat (ofBytes (buffer.take sizeofKeySize))

def afterKeySize (rs : RecordSerializer) (buffer : List UInt8) : List UInt8 :=
  if rs.fixedKeySize ≠ 0 then buffer else buffer.drop sizeofKeySize

def valueSizeOf (rs : RecordSerializer) (dataBuffer : List UInt8) : UInt32 :=
  if rs.fixedValueSize ≠ 0 then rs.fixedValueSize + rs.metadataSize
  else UInt32.ofNat (ofBytes (dataBuffer.take sizeofValueSize))

def afterValueSize (rs : RecordSerializer) (dataBuffer : List UInt8) : List UInt8 :=
  if rs.fixedValueSize ≠ 0 then dataBuffer else dataBuffer.drop sizeofValueSize

def deserialize (rs : RecordSerializer) (buffer : List UInt8) : Record :=
  let dataBuffer := rs.afterKeySize buffer
  let start := rs.afterValueSize dataBuffer
  let keySize := rs.keySizeOf buffer
  let valueSize := rs.valueSizeOf dataBuffer
  { key := .ofBuffer keySize.toNat keySize.toNat_lt start
    value := .ofBuffer valueSize.toNat valueSize.toNat_lt (start.drop keySize.toNat) }

theorem keySizeOf_append (rs : RecordSerializer) (key : Key) (rest : List UInt8)
    (hkey : rs.fixedKeySize ≠ 0 → key.size = rs.fixedKeySize.toNat) :
    (rs.keySizeOf (rs.keySizeField key.size ++ rest)).toNat = key.size := by
  by_cases h0 : rs.fixedKeySize = 0
  · have hsize : key.size < 2 ^ 16 := key.size_lt
    simp only [keySizeOf, keySizeField, h0, ne_eq, not_true_eq_false, ↓reduceIte]
    rw [List.take_left' (length_toBytes _ _), ofBytes_toBytes_of_lt (by simpa [sizeofKeySize]),
      UInt16.toNat_ofNat', Nat.mod_eq_of_lt hsize]
  · simp only [keySizeOf, ne_eq, h0, not_false_eq_true, ↓reduceIte]
    exact (hkey h0).symm

theorem afterKeySize_append (rs : RecordSerializer) (keySize : Nat) (rest : List UInt8) :
    rs.afterKeySize (rs.keySizeField keySize ++ rest) = rest := by
  by_cases h0 : rs.fixedKeySize = 0
  · simp only [afterKeySize, keySizeField, h0, ne_eq, not_true_eq_false, ↓reduceIte]
    exact List.drop_left' (length_toBytes _ _)
  · simp [afterKeySize, keySizeField, h0]

theorem valueSizeOf_append (rs : RecordSerializer) (value : Value) (rest : List UInt8)
    (hvalue : rs.fixedValueSize ≠ 0 →
      value.size = (rs.fixedValueSize + rs.metadataSize).toNat) :
    (rs.valueSizeOf (rs.valueSizeField value.size ++ rest)).toNat = value.size := by
  by_cases h0 : rs.fixedValueSize = 0
  · have hsize : value.size < 2 ^ 32 := value.size_lt
    simp only [valueSizeOf, valueSizeField, h0, ne_eq, not_true_eq_false, ↓reduceIte]
    rw [List.take_left' (length_toBytes _ _), ofBytes_toBytes_of_lt (by simpa [sizeofValueSize]),
      UInt32.toNat_ofNat', Nat.mod_eq_of_lt hsize]
  · simp only [valueSizeOf, ne_eq, h0, not_false_eq_true, ↓reduceIte]
    exact (hvalue h0).symm

theorem afterValueSize_append (rs : RecordSerializer) (valueSize : Nat) (rest : List UInt8) :
    rs.afterValueSize (rs.valueSizeField valueSize ++ rest) = rest := by
  by_cases h0 : rs.fixedValueSize = 0
  · simp only [afterValueSize, valueSizeField, h0, ne_eq, not_true_eq_false, ↓reduceIte]
    exact List.drop_left' (length_toBytes _ _)
  · simp [afterValueSize, valueSizeField, h0]

theorem length_serializeSizes (rs : RecordSerializer) (keySize valueSize : Nat) :
    (rs.serializeSizes keySize valueSize).length = rs.calculateRecordOverhead := by
  rw [serializeSizes, List.length_append, keySizeField, valueSizeField, calculateRecordOverhead]
  by_cases hk : rs.fixedKeySize = 0 <;> by_cases hv : rs.fixedValueSize = 0 <;>
    simp [hk, hv]

/-- A buffer laid out with the sizes that the serializer expects decodes to its parts, whatever
lies after it. -/
theorem deserialize_append (rs : RecordSerializer) (key : Key) (value : Value)
    (hkey : rs.fixedKeySize ≠ 0 → key.size = rs.fixedKeySize.toNat)
    (hvalue : rs.fixedValueSize ≠ 0 →
      value.size = (rs.fixedValueSize + rs.metadataSize).toNat) (rest : List UInt8) :
    rs.deserialize (rs.serializeSizes key.size value.size ++ key.data ++ value.data ++ rest) =
      ⟨key, value⟩ := by
  have hkeySize := rs.keySizeOf_append key
    (rs.valueSizeField value.size ++ (key.data ++ (value.data ++ rest))) hkey
  have hvalueSize := rs.valueSizeOf_append value (key.data ++ (value.data ++ rest)) hvalue
  have hdrop : (key.data ++ (value.data ++ rest)).drop key.size = value.data ++ rest :=
    List.drop_left' rfl
  simp only [serializeSizes, List.append_assoc, deserialize, afterKeySize_append,
    afterValueSize_append, hkeySize, hvalueSize, hdrop, Record.mk.injEq]
  exact ⟨Blob.ofBuffer_append key key.size_lt _, Blob.ofBuffer_append value value.size_lt rest⟩

theorem deserialize_layout (rs : RecordSerializer) (key : Key) (value : Value)
    (hkey : rs.fixedKeySize ≠ 0 → key.size = rs.fixedKeySize.toNat)
    (hvalue : rs.fixedValueSize ≠ 0 →
      value.size = (rs.fixedValueSize + rs.metadataSize).toNat) :
    rs.deserialize (rs.serializeSizes key.size value.size ++ key.data ++ value.data) =
      ⟨key, value⟩ := by
  simpa using rs.deserialize_append key value hkey hvalue []

theorem deserialize_serialize {rs : RecordSerializer} (hmeta : rs.metadataSize = 0)
    (h : rs.serialize key value = .ok bytes) : rs.deserialize bytes = ⟨key, value⟩ := by
  simp only [serialize] at h
  split_ifs at h with hv
  obtain rfl := Except.ok.inj h
  simp only [Validates, not_or, not_and, not_not] at hv
  exact rs.deserialize_layout key value hv.1 (by simpa [hmeta] using hv.2)

end RecordSerializer

end L4
