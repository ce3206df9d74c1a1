import L4.Library.PrefixCode
import L4.ReadWriteRefinement
import L4.TableIterator

namespace L4
set_option autoImplicit true
open LittleEndian PrefixCode

/-- The size field of a blob and its bytes, as the serializer writes them one after the other. -/
def Blob.serialize (sizeofSize : Nat) (b : Blob width) : List UInt8 :=
  toBytes sizeofSize b.size ++ b.data

theorem Blob.prefixFree_serialize (h : 2 ^ width ≤ 256 ^ sizeofSize) :
    PrefixFree fun b : Blob width => b.serialize sizeofSize := by
  intro b c rest rest' he
  simp only [Blob.serialize, List.append_assoc] at he
  obtain ⟨hsizes, he⟩ := List.append_inj he (by simp)
  have hb : b.size < 256 ^ sizeofSize := Nat.lt_of_lt_of_le b.size_lt h
  have hc : c.size < 256 ^ sizeofSize := Nat.lt_of_lt_of_le c.size_lt h
  have hsize : b.size = c.size := by
    rw [← ofBytes_toBytes_of_lt hb, hsizes, ofBytes_toBytes_of_lt hc]
  obtain ⟨hdata, hrest⟩ := List.append_inj he hsize
  exact ⟨Blob.ext hdata, hrest⟩

namespace Record

/-- `<Key size> <Key bytes> <Value size> <Value bytes>`. -/
def serialize (r : Record) : List UInt8 :=
  r.key.serialize RecordSerializer.sizeofKeySize ++
    r.value.serialize RecordSerializer.sizeofValueSize

theorem prefixFree_serialize : PrefixFree serialize := by
  have hkey : PrefixFree fun key : Key => key.serialize RecordSerializer.sizeofKeySize :=
    Blob.prefixFree_serialize (Nat.le_refl _)
  have hvalue : PrefixFree fun value : Value => value.serialize RecordSerializer.sizeofValueSize :=
    Blob.prefixFree_serialize (Nat.le_refl _)
  have hfields : Function.Injective fun r : Record => (r.key, r.value) := by
    rintro ⟨key, value⟩ ⟨key', value'⟩ he
    obtain ⟨rfl, rfl⟩ := Prod.mk.inj he
    rfl
  exact (hkey.append fun _ => hvalue).comap hfields

end Record

namespace Setting

/-- The bytes of the struct. Two bytes of padding align the last field. -/
def toObject (padding : UInt8 × UInt8) (setting : Setting) : List UInt8 :=
  toBytes 4 setting.numBuckets.toNat ++ toBytes 4 setting.numBucketsPerMutex.toNat ++
    toBytes 2 setting.fixedKeySize.toNat ++ [padding.1, padding.2] ++
    toBytes 4 setting.fixedValueSize.toNat

def ofObject (object : List UInt8) : Setting where
  numBuckets := .ofNat (ofBytes (object.take 4))
  numBucketsPerMutex := .ofNat (ofBytes ((object.drop 4).take 4))
  fixedKeySize := .ofNat (ofBytes ((object.drop 8).take 2))
  fixedValueSize := .ofNat (ofBytes ((object.drop 12).take 4))

def sizeofSetting : Nat := 16

theorem length_toObject (padding : UInt8 × UInt8) (setting : Setting) :
    (setting.toObject padding).length = sizeofSetting := by
  simp [toObject, sizeofSetting]

theorem ofObject_toObject (padding : UInt8 × UInt8) (setting : Setting) :
    ofObject (setting.toObject padding) = setting := by
  have h32 (n : UInt32) : UInt32.ofNat (ofBytes (toBytes 4 n.toNat)) = n := by
    rw [ofBytes_toBytes_of_lt n.toNat_lt, UInt32.ofNat_toNat]
  have h16 (n : UInt16) : UInt16.ofNat (ofBytes (toBytes 2 n.toNat)) = n := by
    rw [ofBytes_toBytes_of_lt n.toNat_lt, UInt16.ofNat_toNat]
  simp [ofObject, toObject, h32, h16, List.drop_append, List.drop_eq_nil_of_le,
    List.take_of_length_le]

theorem toObject_ofObject {object : List UInt8} (h : object.length = sizeofSetting) :
    ∃ padding, (ofObject object).toObject padding = object := by
  have h32 (bs : List UInt8) (hb : bs.length = 4) :
      toBytes 4 (UInt32.ofNat (ofBytes bs)).toNat = bs := by
    have hlt := ofBytes_lt bs
    rw [hb] at hlt
    rw [UInt32.toNat_ofNat_of_lt' hlt, ← hb, toBytes_ofBytes]
  have h16 (bs : List UInt8) (hb : bs.length = 2) :
      toBytes 2 (UInt16.ofNat (ofBytes bs)).toNat = bs := by
    have hlt := ofBytes_lt bs
    rw [hb] at hlt
    rw [UInt16.toNat_ofNat_of_lt' hlt, ← hb, toBytes_ofBytes]
  rw [sizeofSetting] at h
  obtain ⟨x, y, hpadding⟩ := List.length_eq_two.mp
    (show ((object.drop 10).take 2).length = 2 by simp [h])
  have hsplit (i n : Nat) : object.drop i = (object.drop i).take n ++ object.drop (i + n) := by
    rw [← List.drop_drop, List.take_append_drop]
  have hend : object.drop 16 = [] := List.drop_eq_nil_of_le (Nat.le_of_eq h)
  refine ⟨(x, y), ?_⟩
  rw [toObject, ofObject, h32 _ (by simp [h]), h32 _ (by simp [h]), h16 _ (by simp [h]),
    h32 _ (by simp [h]), ← hpadding]
  have h0 := hsplit 0 4
  rw [hsplit (0 + 4) 4, hsplit (0 + 4 + 4) 2, hsplit (0 + 4 + 4 + 2) 2,
    hsplit (0 + 4 + 4 + 2 + 2) 4, hend, List.append_nil, List.drop_zero] at h0
  simpa only [List.append_assoc] using h0.symm

end Setting

namespace ReadWrite
variable {setting : Setting}

/-- `c_version`. -/
def currentVersion : UInt8 := 1

/-- The serialization format: the version, the setting, the records, each after a byte that is
not zero, and a zero byte. -/
def format (padding : UInt8 × UInt8) (setting : Setting) (records : List (UInt8 × Record)) :
    List UInt8 :=
  currentVersion :: setting.toObject padding ++ marked Record.serialize 0 records

/-- `Serialize` between two turns of its loop: the iterator and the bytes written so far. The
records among them are kept for the statements only. -/
structure Serialization (setting : Setting) where
  iterator : Iterator setting
  stream : List UInt8
  written : List Record
  finished : Bool

namespace Serialization

def start (padding : UInt8 × UInt8) : Serialization setting :=
  ⟨.create, currentVersion :: setting.toObject padding, [], false⟩

/-- One call of `MoveNext` and what is written after it. -/
def turn (t : SharedHashTable setting) (s : Serialization setting) :
    Except Failure (SharedHashTable setting × Serialization setting) :=
  if s.finished then .ok (t, s)
  else
    match s.iterator.moveNext t with
    | (true, iterator) => (iterator.getRecord setting.recordSerializer).map fun record =>
      (t.updatePerfData [.increment .recordsCountSavedFromSerializer],
        ⟨iterator, s.stream ++ 1 :: record.serialize, s.written ++ [record], false⟩)
    | (false, iterator) => .ok (t, ⟨iterator, s.stream ++ [0], s.written, true⟩)

def turns (t : SharedHashTable setting) (s : Serialization setting) :
    Nat → Except Failure (SharedHashTable setting × Serialization setting)
  | 0 => .ok (t, s)
  | n + 1 => (turn t s).bind fun next => turns next.1 next.2 n

end Serialization

/-- `Serialize`. The loop takes one turn for each record and one at the end. -/
def serialize (padding : UInt8 × UInt8) (t : SharedHashTable setting) :
    Except Failure (SharedHashTable setting × Serialization setting) :=
  Serialization.turns (t.updatePerfData [.set .recordsCountSavedFromSerializer 0])
    (.start padding) (t.records.length + 1)

namespace Serialization
variable {t : SharedHashTable setting} {s : Serialization setting} {c : Cursor setting}

/-- What a turn does when the iterator has the given slots ahead of it. -/
inductive Turned (t : SharedHashTable setting) (s : Serialization setting)
    (ahead : setting.Slot → Prop) : SharedHashTable setting × Serialization setting → Prop
  | wrote (slot : setting.Slot) (record : RecordBuffer) (iterator : Iterator setting)
      (hahead : ahead slot) (hload : t.load slot = some record)
      (hfirst : ∀ slot', ahead slot' → SlotBefore slot' slot → t.load slot' = none)
      (hat : iterator.At (.slot slot)) :
      Turned t s ahead (t.updatePerfData [.increment .recordsCountSavedFromSerializer],
        ⟨iterator, s.stream ++ 1 :: (setting.recordSerializer.deserialize record.bytes).serialize,
          s.written ++ [setting.recordSerializer.deserialize record.bytes], false⟩)
  | ended (iterator : Iterator setting) (hnone : ∀ slot, ahead slot → t.load slot = none)
      (hat : iterator.At .finish) :
      Turned t s ahead (t, ⟨iterator, s.stream ++ [0], s.written, true⟩)

theorem turned (h : s.iterator.At c) (hc : c.Inside t) (hs : s.finished = false) :
    ∃ result, turn t s = .ok result ∧ Turned t s c.Ahead result := by
  have hmoved := Iterator.moved_moveNext h hc
  cases hm : s.iterator.moveNext t with
  | mk more iterator =>
    rw [hm] at hmoved
    cases hmoved with
    | found slot record iterator hahead hload hfirst hat hrecord =>
      have ⟨hbucket, hentry, _, _⟩ := hat
      have hend : ¬ iterator.IsEnd := by
        have hlt := slot.1.isLt
        rw [Iterator.IsEnd, hbucket]
        omega
      have hget : iterator.getRecord setting.recordSerializer =
          .ok (setting.recordSerializer.deserialize record.bytes) := by
        simp only [Iterator.getRecord, hentry, hrecord, if_neg hend]
      refine ⟨_, ?_, .wrote slot record iterator hahead hload hfirst hat⟩
      simp only [turn, hs, hm, hget, Except.map, Bool.false_eq_true, ↓reduceIte]
    | ended iterator hnone hat =>
      refine ⟨_, ?_, .ended iterator hnone hat⟩
      simp only [turn, hs, hm, Bool.false_eq_true, ↓reduceIte]

theorem turns_of_finished (hs : s.finished = true) (n : Nat) : turns t s n = .ok (t, s) := by
  have hturn : turn t s = .ok (t, s) := if_pos hs
  induction n with
  | zero => rfl
  | succ n ih => rw [turns, hturn, Except.bind, ih]

theorem turns_eq (h : s.iterator.At c) (hc : c.Inside t) (hs : s.finished = false)
    (hn : (t.recordsAhead c).length < n) :
    ∃ updates iterator written, turns t s n = .ok (t.updatePerfData updates,
      ⟨iterator, s.stream ++ marked Record.serialize 0 ((t.recordsAhead c).map fun record =>
        (1, setting.recordSerializer.deserialize record.bytes)), written, true⟩) := by
  induction n generalizing t s c with
  | zero => exact absurd hn (Nat.not_lt_zero _)
  | succ n ih =>
    obtain ⟨result, hresult, hturned⟩ := turned h hc hs
    cases hturned with
    | wrote slot record iterator hahead hload hfirst hat =>
      have hrecords := SharedHashTable.recordsAhead_found hahead hload hfirst
      rw [hrecords, List.length_cons] at hn
      obtain ⟨updates, iterator, written, hturns⟩ := ih
        (t := t.updatePerfData [.increment .recordsCountSavedFromSerializer])
        (s := ⟨iterator, s.stream ++
          1 :: (setting.recordSerializer.deserialize record.bytes).serialize,
          s.written ++ [setting.recordSerializer.deserialize record.bytes], false⟩)
        hat (Cursor.inside_of_load hload) rfl (Nat.lt_of_succ_lt_succ hn)
      refine ⟨.increment .recordsCountSavedFromSerializer :: updates, iterator, written, ?_⟩
      rw [turns, hresult, Except.bind, hturns, hrecords, List.map_cons, marked_cons]
      simp only [List.append_assoc, List.cons_append]
      rfl
    | ended iterator hnone hat =>
      refine ⟨[], iterator, s.written, ?_⟩
      rw [turns, hresult, Except.bind, turns_of_finished rfl,
        SharedHashTable.recordsAhead_ended hnone]
      rfl

end Serialization

theorem serialize_eq (padding : UInt8 × UInt8) (t : SharedHashTable setting) :
    ∃ updates iterator written, serialize padding t = .ok (t.updatePerfData updates,
      ⟨iterator, format padding setting (t.records.map fun record =>
        (1, setting.recordSerializer.deserialize record.bytes)), written, true⟩) := by
  have hstart := t.recordsAhead_start
  obtain ⟨updates, iterator, written, hturns⟩ := Serialization.turns_eq
    (t := t.updatePerfData [.set .recordsCountSavedFromSerializer 0])
    (s := .start padding) (c := .start) (n := t.records.length + 1) ⟨rfl, rfl⟩ trivial rfl
    (Nat.lt_succ_of_le (Nat.le_of_eq (congrArg List.length hstart)))
  refine ⟨.set .recordsCountSavedFromSerializer 0 :: updates, iterator, written, ?_⟩
  rw [serialize, hturns, ← hstart]
  rfl

end ReadWrite

end L4
