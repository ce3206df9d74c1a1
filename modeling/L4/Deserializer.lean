import L4.Serializer

namespace L4
set_option autoImplicit true
open LittleEndian PrefixCode

/-- An input stream that does not throw: the bytes ahead of it and its failbit. -/
structure IStream where
  bytes : List UInt8
  failed : Bool
deriving DecidableEq

namespace IStream
variable {stream : IStream} {bytes object : List UInt8}

/-- Reads into an object. A short read stores the bytes that there are and sets the failbit; a
failed stream stores nothing. -/
def read (stream : IStream) (object : List UInt8) : List UInt8 × IStream :=
  if stream.failed then (object, stream)
  else (stream.bytes.take object.length ++ object.drop stream.bytes.length,
    ⟨stream.bytes.drop object.length, decide (stream.bytes.length < object.length)⟩)

theorem length_read (stream : IStream) (object : List UInt8) :
    (stream.read object).1.length = object.length := by
  rw [read]
  split_ifs
  · rfl
  · simp only [List.length_append, List.length_take, List.length_drop]
    omega

theorem read_of_failed (h : stream.failed = true) (object : List UInt8) :
    stream.read object = (object, stream) := if_pos h

theorem read_append {b : List UInt8} (h : b.length = object.length) (rest : List UInt8) :
    read ⟨b ++ rest, false⟩ object = (b, ⟨rest, false⟩) := by
  simp [read, ← h]

/-- A read that leaves a good stream has taken its bytes from a good stream. -/
theorem of_read (h : (stream.read object).2.failed = false) :
    stream.failed = false ∧
      stream.bytes = (stream.read object).1 ++ (stream.read object).2.bytes := by
  by_cases hf : stream.failed = true
  · rw [read_of_failed hf, hf] at h
    cases h
  · have hgood : stream.failed = false := by simpa using hf
    have hread : stream.read object = (stream.bytes.take object.length ++
        object.drop stream.bytes.length, ⟨stream.bytes.drop object.length,
          decide (stream.bytes.length < object.length)⟩) := if_neg hf
    rw [hread] at h ⊢
    have hle : object.length ≤ stream.bytes.length := by simpa using h
    refine ⟨hgood, ?_⟩
    simp [List.drop_eq_nil_of_le hle]

end IStream

namespace ReadWrite
namespace Deserializer
variable {setting : Setting}

/-- The epoch manager of the deserializer. It expects no action, since all keys are unique. -/
structure EpochActionManager where

instance : IEpochActionManager EpochActionManager where
  registerAction _ _ :=
    .error (.runtimeException "RegisterAction() should not be called from the serializer.")

/-- `resize` of a vector of bytes. -/
def resize (size : Nat) (buffer : List UInt8) : List UInt8 :=
  buffer.take size ++ List.replicate (size - buffer.length) 0

@[simp] theorem length_resize (size : Nat) (buffer : List UInt8) :
    (resize size buffer).length = size := by
  simp only [resize, List.length_append, List.length_take, List.length_replicate]
  omega

/-- The blob that is read into a buffer, and the stream after it. -/
structure BlobRead (width : Nat) where
  blob : Blob width
  stream : IStream

section Blob
variable (sizeofSize : Nat) (h : 256 ^ sizeofSize = 2 ^ width)

/-- Reads a size, which starts at zero, and then that many bytes into the resized buffer. -/
def readBlob (stream : IStream) (buffer : List UInt8) : BlobRead width :=
  let size := stream.read (toBytes sizeofSize 0)
  let data := size.2.read (resize (ofBytes size.1) buffer)
  have hdata : data.1.length < 2 ^ width := by
    have hlt := ofBytes_lt size.1
    rw [IStream.length_read, length_toBytes] at hlt
    rw [IStream.length_read, length_resize, ← h]
    exact hlt
  ⟨⟨data.1, hdata⟩, data.2⟩

variable {stream : IStream} {buffer : List UInt8}

theorem readBlob_of_failed (hs : stream.failed = true) :
    (readBlob sizeofSize h stream buffer).blob.data = [] ∧
      (readBlob sizeofSize h stream buffer).stream = stream := by
  have hzero : ofBytes (toBytes sizeofSize 0) = 0 :=
    ofBytes_toBytes_of_lt (Nat.pow_pos (by decide))
  simp [readBlob, IStream.read_of_failed hs, hzero, resize]

theorem readBlob_append (b : Blob width) (hs : stream = ⟨b.serialize sizeofSize ++ rest, false⟩) :
    readBlob sizeofSize h stream buffer = ⟨b, ⟨rest, false⟩⟩ := by
  have hlt : b.size < 256 ^ sizeofSize := Nat.lt_of_lt_of_eq b.size_lt h.symm
  have hsize : stream.read (toBytes sizeofSize 0) =
      (toBytes sizeofSize b.size, ⟨b.data ++ rest, false⟩) := by
    rw [hs, Blob.serialize, List.append_assoc]
    exact IStream.read_append (by simp) _
  have hdata : IStream.read ⟨b.data ++ rest, false⟩ (resize b.size buffer) =
      (b.data, ⟨rest, false⟩) := IStream.read_append (by simp [Blob.size]) _
  simp only [readBlob, hsize, ofBytes_toBytes_of_lt hlt, hdata]

theorem of_readBlob (hs : (readBlob sizeofSize h stream buffer).stream.failed = false) :
    stream.failed = false ∧ stream.bytes =
      (readBlob sizeofSize h stream buffer).blob.serialize sizeofSize ++
        (readBlob sizeofSize h stream buffer).stream.bytes := by
  obtain ⟨hsize, hdata⟩ := IStream.of_read hs
  obtain ⟨hgood, hbytes⟩ := IStream.of_read hsize
  have hlen := IStream.length_read stream (toBytes sizeofSize 0)
  rw [length_toBytes] at hlen
  refine ⟨hgood, ?_⟩
  have hblob : (readBlob sizeofSize h stream buffer).blob.size =
      ofBytes (stream.read (toBytes sizeofSize 0)).1 :=
    (IStream.length_read _ _).trans (length_resize _ _)
  have hfield : toBytes sizeofSize (readBlob sizeofSize h stream buffer).blob.size =
      (stream.read (toBytes sizeofSize 0)).1 := by
    have hback := toBytes_ofBytes (stream.read (toBytes sizeofSize 0)).1
    rw [hlen] at hback
    rw [hblob, hback]
  rw [hbytes, hdata, Blob.serialize, hfield, List.append_assoc]
  rfl

end Blob

def readKey : IStream → List UInt8 → BlobRead 16 := readBlob RecordSerializer.sizeofKeySize rfl

def readValue : IStream → List UInt8 → BlobRead 32 := readBlob RecordSerializer.sizeofValueSize rfl

theorem of_readKey {stream : IStream} {buffer : List UInt8}
    (h : (readKey stream buffer).stream.failed = false) :
    stream.failed = false ∧ stream.bytes =
      (readKey stream buffer).blob.serialize RecordSerializer.sizeofKeySize ++
        (readKey stream buffer).stream.bytes :=
  of_readBlob _ _ h

theorem of_readValue {stream : IStream} {buffer : List UInt8}
    (h : (readValue stream buffer).stream.failed = false) :
    stream.failed = false ∧ stream.bytes =
      (readValue stream buffer).blob.serialize RecordSerializer.sizeofValueSize ++
        (readValue stream buffer).stream.bytes :=
  of_readBlob _ _ h

/-- The local variables of `Deserialize`, the stream and the table. -/
structure Loading (setting : Setting) where
  stream : IStream
  table : WritableHashTable setting EpochActionManager
  keyBuffer : List UInt8
  valueBuffer : List UInt8
  hasMoreData : Bool

namespace Loading

/-- Reads the byte before a record into `hasMoreData`. -/
def readFlag (l : Loading setting) : Loading setting :=
  let flag := l.stream.read [if l.hasMoreData then 1 else 0]
  { l with
    stream := flag.2
    hasMoreData := decide (flag.1 ≠ [0]) }

def countLoaded (l : Loading setting) : Loading setting :=
  { l with
    table.hashTable := l.table.hashTable.updatePerfData
      [.increment .recordsCountLoadedFromSerializer] }

variable [Platform]

/-- Reads a record and adds it. -/
def addRecord (l : Loading setting) : Except Failure (Loading setting) :=
  let key := readKey l.stream l.keyBuffer
  let value := readValue key.stream l.valueBuffer
  match l.table.add setting.recordSerializer key.blob value.blob with
  | (_, .error e) => .error e
  | (table, .ok ()) => .ok ⟨value.stream, table, key.blob.data, value.blob.data, l.hasMoreData⟩

/-- The loop of `Deserialize`, for a bounded number of turns. -/
def loop : Nat → Loading setting → Option (Except Failure (Loading setting))
  | 0, _ => none
  | turns + 1, l =>
    if l.hasMoreData then
      match l.addRecord with
      | .error e => some (.error e)
      | .ok l => loop turns l.readFlag.countLoaded
    else some (.ok l)

end Loading

/-- What `Deserialize` returns: a table with its setting. -/
abbrev Loaded := (setting : Setting) × SharedHashTable setting

variable [Platform]

/-- The part of `Current::Deserializer::Deserialize` after the setting has been read. The bound
on the turns of the loop is never reached. -/
def deserializeRecords (setting : Setting) (allocator : Allocator) (stream : IStream) :
    Except Failure (SharedHashTable setting × IStream) :=
  let l := Loading.readFlag ⟨stream, ⟨.create setting allocator, {}⟩, [], [], false⟩
  match (l.loop (l.stream.bytes.length + 3)).getD (.ok l) with
  | .error e => .error e
  | .ok l => .ok (l.table.hashTable, l.stream)

/-- `Current::Deserializer::Deserialize`. -/
def deserializeCurrent (allocator : Allocator) (stream : IStream) :
    Except Failure (Loaded × IStream) :=
  let object := stream.read (Setting.toObject (0, 0) {})
  (deserializeRecords (Setting.ofObject object.1) allocator object.2).map fun loaded =>
    (⟨Setting.ofObject object.1, loaded.1⟩, loaded.2)

/-- `Deserialize`. The version that is not supported is formatted as a character. -/
def deserialize (allocator : Allocator) (stream : IStream) : Except Failure (Loaded × IStream) :=
  let version := stream.read [0]
  if version.1 = [currentVersion] then deserializeCurrent allocator version.2
  else .error (.runtimeException ("Unsupported version '" ++
    String.ofList (version.1.map fun byte => Char.ofNat byte.toNat) ++ "' is given."))

end Deserializer
end ReadWrite

end L4
