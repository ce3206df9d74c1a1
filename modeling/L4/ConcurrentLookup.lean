import L4.SharedHashTable
import L4.BucketStores
import L4.Library.Transition

namespace L4.ConcurrentLookup
set_option autoImplicit true
open SharedHashTable (getBucketInfo)

/-- What a writer does under a bucket lock. `evict` is the removal of one record by the cache. -/
inductive Operation where
  | add (record : RecordBuffer)
  | remove (key : Key)
  | evict (p : SlotIndex) (record : RecordBuffer)

/-- A critical section that has been entered, and the stores it has still to make. -/
structure CriticalSection where
  operation : Operation
  remaining : List Store

/-- Where a `Get` stands: before the load of a tag, of a data pointer or of `m_next`. -/
inductive Point where
  | atTag (entry : Nat) (index : Fin numDataPerEntry)
  | atData (entry : Nat) (index : Fin numDataPerEntry)
  | atNext (entry : Nat)
  | returned (value : Option Value)

/-- A `Get` in progress: the result of `GetBucketInfo` and its position. -/
structure Lookup (setting : Setting) where
  bucket : setting.BucketIndex
  tag : UInt8
  point : Point

/-- The table, the critical sections of its buckets and one `Get`. Buckets may share a mutex; only
the exclusion on each bucket is used. -/
structure System (setting : Setting) where
  table : SharedHashTable setting
  sections : setting.BucketIndex → Option CriticalSection
  lookup : Option (Lookup setting)

inductive Event (setting : Setting) where
  | enter (i : setting.BucketIndex) (operation : Operation)
  | store (i : setting.BucketIndex)
  | leave (i : setting.BucketIndex) (operation : Operation)
  | startGet
  | load

namespace Point

/-- The next slot of an entry, or its `m_next` after the last slot. -/
def advance (entry : Nat) (index : Fin numDataPerEntry) : Point :=
  if h : index.val + 1 < numDataPerEntry then .atTag entry ⟨index.val + 1, h⟩ else .atNext entry

/-- One load of `Get` and what follows it up to the next load. -/
def next (rs : RecordSerializer) (key : Key) (tag : UInt8) (b : Bucket RecordBuffer) :
    Point → Point
  | .atTag entry index =>
    if tag = b.tag ⟨entry, index⟩ then .atData entry index else advance entry index
  | .atData entry index =>
    match b.load ⟨entry, index⟩ with
    | some data =>
      if rs.keyOf data = key then .returned (some (rs.valueOf data)) else advance entry index
    | none => advance entry index
  | .atNext entry => if entry + 1 < b.chainLength then .atTag (entry + 1) 0 else .returned none
  | .returned value => .returned value

def Running : Point → Prop
  | .returned _ => False
  | _ => True

end Point

variable [Platform] {setting : Setting}

/-- The stores that an operation makes in the bucket as it finds it. -/
inductive Operation.Plans (rs : RecordSerializer) (i : setting.BucketIndex)
    (b : Bucket RecordBuffer) : Operation → List Store → Prop
  | add (record : RecordBuffer) (newTag : UInt8)
      (hinfo : getBucketInfo setting (rs.keyOf record) = .ok (i, newTag)) :
      Plans rs i b (.add record) (Store.ofAdd rs (rs.keyOf record) newTag record b)
  | remove (key : Key) (keyTag : UInt8) (hinfo : getBucketInfo setting key = .ok (i, keyTag)) :
      Plans rs i b (.remove key) (Store.ofRemove rs key keyTag b)
  | evict (p : SlotIndex) (record : RecordBuffer) (hp : b.load p = some record) :
      Plans rs i b (.evict p record) (Store.updateRecord p none 0)

/-- The steps of the writers and of one `Get(key)`. -/
inductive Step (rs : RecordSerializer) (key : Key) :
    System setting → Event setting → System setting → Prop
  | enter (i : setting.BucketIndex) (operation : Operation) (stores : List Store)
      (hfree : s.sections i = none) (hplan : operation.Plans rs i s.table.buckets[i] stores) :
      Step rs key s (.enter i operation)
        { s with sections := Function.update s.sections i (some ⟨operation, stores⟩) }
  | store (i : setting.BucketIndex) (operation : Operation) (st : Store) (rest : List Store)
      (hsection : s.sections i = some ⟨operation, st :: rest⟩) :
      Step rs key s (.store i)
        { s with
          table := s.table.setBucket i (st.apply s.table.buckets[i])
          sections := Function.update s.sections i (some ⟨operation, rest⟩) }
  | leave (i : setting.BucketIndex) (operation : Operation)
      (hsection : s.sections i = some ⟨operation, []⟩) :
      Step rs key s (.leave i operation)
        { s with sections := Function.update s.sections i none }
  | startGet (i : setting.BucketIndex) (keyTag : UInt8) (hlookup : s.lookup = none)
      (hinfo : getBucketInfo setting key = .ok (i, keyTag)) :
      Step rs key s .startGet { s with lookup := some ⟨i, keyTag, .atTag 0 0⟩ }
  | load (l : Lookup setting) (hlookup : s.lookup = some l) (hrunning : l.point.Running) :
      Step rs key s .load
        { s with
          lookup := some { l with point := l.point.next rs key l.tag s.table.buckets[l.bucket] } }

def initial (setting : Setting) (allocator : Allocator) : System setting where
  table := .create setting allocator
  sections := fun _ => none
  lookup := none

/-- The start of a removal or an eviction of the key. -/
def Event.Removes (rs : RecordSerializer) (key : Key) : Event setting → Prop
  | .enter _ (.remove k) => k = key
  | .enter _ (.evict _ record) => rs.keyOf record = key
  | _ => False

end L4.ConcurrentLookup
