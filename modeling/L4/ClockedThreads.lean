import L4.MovingIterator
import L4.TableThreadSteps

/-! The threads of a cache under a clock. A thread reads the clock where the code does, which may be
long before it asks whether a record is expired. -/

namespace L4.ClockedThreads
set_option autoImplicit true
open SharedHashTable (getBucketInfo)
open TableThreads (Phase Sweep createRecordBuffer)
open Cache (Options ExpiryTest MovingIterator metadataOf)
open Cache.Metadata (isExpired)
variable {setting : Setting}

/-- What a thread holds between two steps: the time that `EvictBasedOnTime` has read before it waits
for the lock, or the record that `Get` of the base has found. -/
inductive Held (setting : Setting) where
  | nothing
  | curEpochTime (time : Int)
  | data (s : setting.Slot) (record : RecordBuffer)

structure Thread (setting : Setting) where
  base : TableThreads.Thread setting
  held : Held setting

inductive Label (setting : Setting) where
  | tick
  | thread (label : TableThreads.Label setting) (test : Option ExpiryTest)
  | getIterator
  | moveNext (test : Option ExpiryTest)

/-- The call of `IsExpired` in a step. -/
def Label.test : Label setting → Option ExpiryTest
  | .thread _ test | .moveNext test => test
  | _ => none

/-- The time that the passes over a bucket hand to `IsExpired`. -/
def curEpochTime : Sweep → Int
  | .basedOnTime curEpochTime => curEpochTime
  | .clock curEpochTime _ _ => curEpochTime

/-- The call of `IsExpired` in the next step of a pass over a bucket. -/
def sweepTest (t : SharedHashTable setting) : TableThreads.Thread setting → Option ExpiryTest
  | ⟨[], .sweeping _ sweep i (p :: _)⟩ =>
    (t.load (i, p)).map fun record => ⟨curEpochTime sweep, record⟩
  | _ => none

section Acts
variable (options : Options) (now : Int)

/-- The clock is read in `Evict`, after `CalculateNumBytesToFree`, and in `CreateRecordBuffer`. The
readings in `EvictBasedOnTime` and in `Get` are steps of their own. -/
def Timely (t : SharedHashTable setting) : Phase setting → Phase setting → Prop
  | .evictingBasedOnTime _, .sweeping .. => False
  | .calculating .., .evicting _ curEpochTime _ _ => curEpochTime = now
  | .creating record, .adding recordToAdd =>
    (createRecordBuffer (CacheConfig setting options) t record now).2 = .ok recordToAdd
  | .getting _, .found .. => False
  | _, _ => True

/-- The steps of one thread among others at a time. -/
inductive Act [Platform] (others : List (Thread setting)) :
    Table (CacheConfig setting options) → Thread setting → Label setting →
      Table (CacheConfig setting options) → Thread setting → Prop
  | base (hact : TableThreads.Act (CacheConfig setting options) (others.map Thread.base) t th label
        t' th')
      (htimely : Timely options now t.hashTable th.phase th'.phase) :
      Act others t ⟨th, .nothing⟩ (.thread label (sweepTest t.hashTable th)) t' ⟨th', .nothing⟩
  | readClock (hinfo : getBucketInfo setting record.key = .ok info) :
      Act others t ⟨⟨[], .evictingBasedOnTime record⟩, .nothing⟩ (.thread .silent none) t
        ⟨⟨[], .evictingBasedOnTime record⟩, .curEpochTime now⟩
  | lockBucket (hinfo : getBucketInfo setting record.key = .ok (i, tag))
      (hlock : TableThreads.Unlocked (others.map Thread.base) i) :
      Act others t ⟨⟨[], .evictingBasedOnTime record⟩, .curEpochTime time⟩ (.thread .silent none) t
        ⟨⟨[], .sweeping record (.basedOnTime time) i t.hashTable.buckets[i].positions⟩, .nothing⟩
  | getFinds (hload : t.hashTable.load s = some record)
      (hkey : setting.cacheRecordSerializer.keyOf record = key) :
      Act others t ⟨⟨[], .getting key⟩, .nothing⟩ (.thread .silent none) t
        ⟨⟨[], .getting key⟩, .data s record⟩
  | getExpired
      (hexpired : isExpired (metadataOf setting.cacheRecordSerializer record) now
        options.recordTimeToLive = true) :
      Act others t ⟨⟨[], .getting key⟩, .data s record⟩ (.thread .silent (some ⟨now, record⟩)) t
        ⟨⟨[.update (.increment .cacheMissCount)], .got none⟩, .nothing⟩
  | getHits
      (hfresh : isExpired (metadataOf setting.cacheRecordSerializer record) now
        options.recordTimeToLive = false) :
      Act others t ⟨⟨[], .getting key⟩, .data s record⟩ (.thread .silent (some ⟨now, record⟩)) t
        ⟨⟨[], .found s record⟩, .nothing⟩

/-- The steps of an iterator, which leave the table alone. -/
inductive Move (others : List (MovingIterator setting)) :
    Table (CacheConfig setting options) → MovingIterator setting → Label setting →
      Table (CacheConfig setting options) → MovingIterator setting → Prop
  | move (hmove : it.move options t.hashTable = (it', test)) :
      Move others t it (.moveNext test) t it'

end Acts

/-- A cache, its threads and the iterators that have been created, with the time. -/
structure System (setting : Setting) (options : Options) where
  now : Int
  table : Table (CacheConfig setting options)
  threads : List (Thread setting)
  iterators : List (MovingIterator setting)

/-- The clock does not go back, and its times fit into the metadata. -/
inductive Step [Platform] : System setting options → Label setting → System setting options → Prop
  | tick (time : Int) (hle : p.now ≤ time) (hlt : time < 2 ^ 31) :
      Step p .tick { p with now := time }
  | thread (h : ThreadPool.Step (Act options now) ⟨table, threads⟩ label ⟨table', threads'⟩) :
      Step ⟨now, table, threads, iterators⟩ label ⟨now, table', threads', iterators⟩
  | getIterator : Step p .getIterator
      { p with iterators := p.iterators ++ [⟨.create p.now, .idle⟩] }
  | moveNext (h : ThreadPool.Step (Move options) ⟨table, iterators⟩ label ⟨table', iterators'⟩) :
      Step ⟨now, table, threads, iterators⟩ label ⟨now, table', threads, iterators'⟩

def initial [Platform] (setting : Setting) (options : Options) (allocator : Allocator)
    (numThreads : Nat) (now : Int) : System setting options :=
  ⟨now, ⟨.create setting allocator, 0⟩, .replicate numThreads ⟨⟨[], .idle⟩, .nothing⟩, []⟩

end L4.ClockedThreads
