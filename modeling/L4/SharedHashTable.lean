import L4.BucketUpdate
import L4.PerfCounter

namespace L4
set_option autoImplicit true

/-- What the table takes as given: the hash function and the sizes of two C++ types. -/
class Platform where
  murmurHash3 : List UInt8 → UInt64 × UInt64
  sizeofMutex : Nat
  sizeofSharedHashTable : Nat

structure Setting where
  numBuckets : UInt32 := 1
  numBucketsPerMutex : UInt32 := 1
  fixedKeySize : UInt16 := 0
  fixedValueSize : UInt32 := 0
deriving DecidableEq

namespace Setting

abbrev BucketIndex (setting : Setting) := Fin setting.numBuckets.toNat

/-- The place of a slot in a table: its bucket and its place there. -/
abbrev Slot (setting : Setting) := setting.BucketIndex × SlotIndex

theorem numBuckets_ne_zero {setting : Setting} (i : setting.BucketIndex) :
    setting.numBuckets ≠ 0 := by
  intro hb
  have hlt := i.isLt
  have hzero : setting.numBuckets.toNat = 0 := congrArg UInt32.toNat hb
  omega

def numMutexes (setting : Setting) : Nat :=
  (max (setting.numBuckets / max setting.numBucketsPerMutex 1) 1).toNat

end Setting

/-- The allocator of the table's memory: the addresses in use and the bytes allocated there. No
address is handed out twice. -/
structure Allocator where
  next : Nat
  allocated : List (Nat × Nat)

namespace Allocator

def allocate (a : Allocator) (size : Nat) : Nat × Allocator :=
  (a.next, ⟨a.next + 1, (a.next, size) :: a.allocated⟩)

end Allocator

/-- The table in shared memory. Its setting is constant. -/
structure SharedHashTable (setting : Setting) where
  allocator : Allocator
  buckets : Vector (Bucket RecordBuffer) setting.numBuckets.toNat
  perfData : HashTablePerfData

namespace SharedHashTable
variable {setting : Setting}

section Constructor
variable [Platform]

def initialIndexSize (setting : Setting) : Nat :=
  setting.numBuckets.toNat * sizeofEntry + setting.numMutexes * Platform.sizeofMutex +
    Platform.sizeofSharedHashTable

/-- The constructor. -/
def create (setting : Setting) (allocator : Allocator) : SharedHashTable setting where
  allocator := allocator
  buckets := .replicate _ .empty
  perfData := PerfUpdate.applyAll .initial
    [.set .bucketsCount setting.numBuckets.toNat, .set .totalIndexSize (initialIndexSize setting)]

end Constructor

def load (t : SharedHashTable setting) (s : setting.Slot) : Option RecordBuffer :=
  t.buckets[s.1].load s.2

def tag (t : SharedHashTable setting) (s : setting.Slot) : UInt8 := t.buckets[s.1].tag s.2

def setBucket (t : SharedHashTable setting) (i : setting.BucketIndex) (b : Bucket RecordBuffer) :
    SharedHashTable setting :=
  { t with buckets := t.buckets.set i b i.isLt }

def updatePerfData (t : SharedHashTable setting) (updates : List PerfUpdate) :
    SharedHashTable setting :=
  { t with perfData := PerfUpdate.applyAll t.perfData updates }

def setAllocator (t : SharedHashTable setting) (allocator : Allocator) : SharedHashTable setting :=
  { t with allocator }

/-- The stored records, in the order of the buckets and of the slots in a bucket. -/
def records (t : SharedHashTable setting) : List RecordBuffer :=
  (List.finRange setting.numBuckets.toNat).flatMap fun i => t.buckets[i].records

@[simp] theorem load_updatePerfData (t : SharedHashTable setting) (us : List PerfUpdate) :
    (t.updatePerfData us).load = t.load := rfl

@[simp] theorem buckets_updatePerfData (t : SharedHashTable setting) (us : List PerfUpdate) :
    (t.updatePerfData us).buckets = t.buckets := rfl

theorem getElem_setBucket (t : SharedHashTable setting) (i j : setting.BucketIndex)
    (b : Bucket RecordBuffer) :
    (t.setBucket i b).buckets[j] = if j = i then b else t.buckets[j] := by
  obtain ⟨i, hi⟩ := i
  obtain ⟨j, hj⟩ := j
  simp [setBucket, Vector.getElem_set, eq_comm]

@[simp] theorem load_create [Platform] (setting : Setting) (allocator : Allocator) :
    (create setting allocator).load = fun _ => none := by
  funext s
  simp [load, create]

theorem load_setBucket {t : SharedHashTable setting}
    (h : b.load = Function.update t.buckets[i].load p r) :
    (t.setBucket i b).load = Function.update t.load (i, p) r := by
  funext ⟨j, q⟩
  simp only [load, getElem_setBucket, Function.update_apply, Prod.mk.injEq]
  by_cases hj : j = i
  · subst hj
    simp [h, Function.update_apply]
  · simp [hj]

theorem tag_setBucket {t : SharedHashTable setting} {x : UInt8}
    (h : b.tag = Function.update t.buckets[i].tag p x) :
    (t.setBucket i b).tag = Function.update t.tag (i, p) x := by
  funext ⟨j, q⟩
  simp only [tag, getElem_setBucket, Function.update_apply, Prod.mk.injEq]
  by_cases hj : j = i
  · subst hj
    simp [h, Function.update_apply]
  · simp [hj]

theorem mem_records {t : SharedHashTable setting} : r ∈ t.records ↔ ∃ s, t.load s = some r := by
  simp only [records, List.mem_flatMap, List.mem_finRange, true_and, Bucket.mem_records]
  exact ⟨fun ⟨i, p, hp⟩ => ⟨(i, p), hp⟩, fun ⟨s, hs⟩ => ⟨s.1, s.2, hs⟩⟩

theorem load_congr {t t' : SharedHashTable setting} (h : t'.buckets = t.buckets) :
    t'.load = t.load := by
  funext s
  simp only [load, h]

theorem tag_congr {t t' : SharedHashTable setting} (h : t'.buckets = t.buckets) :
    t'.tag = t.tag := by
  funext s
  simp only [tag, h]

theorem load_eq_none_of_le {t : SharedHashTable setting} {s : setting.Slot}
    (h : t.buckets[s.1].chainLength ≤ s.2.entry) : t.load s = none :=
  Bucket.load_eq_none_of_le h

/-- One slot of the table has been given a new content and a new tag. Its bucket may have grown. -/
structure Stored (t : SharedHashTable setting) (s : setting.Slot) (data : Option RecordBuffer)
    (newTag : UInt8) (t' : SharedHashTable setting) : Prop where
  load : t'.load = Function.update t.load s data
  tag : t'.tag = Function.update t.tag s newTag
  entry_lt : s.2.entry < t'.buckets[s.1].chainLength
  chainLength_le : t.buckets[s.1].chainLength ≤ t'.buckets[s.1].chainLength
  other : ∀ j : setting.BucketIndex, j ≠ s.1 → t'.buckets[j] = t.buckets[j]
  perfData : t'.perfData = t.perfData
  allocator : t'.allocator = t.allocator

theorem stored_setBucket {t : SharedHashTable setting} {newTag : UInt8}
    {i : setting.BucketIndex} (hload : b.load = Function.update t.buckets[i].load p data)
    (htag : b.tag = Function.update t.buckets[i].tag p newTag) (hp : p.entry < b.chainLength)
    (hle : t.buckets[i].chainLength ≤ b.chainLength) :
    Stored t (i, p) data newTag (t.setBucket i b) where
  load := load_setBucket hload
  tag := tag_setBucket htag
  entry_lt := by
    rw [getElem_setBucket, if_pos rfl]
    exact hp
  chainLength_le := by
    rw [getElem_setBucket, if_pos rfl]
    exact hle
  other j hj := by rw [getElem_setBucket, if_neg hj]
  perfData := rfl
  allocator := rfl

theorem Stored.chainLength_mono {t t' : SharedHashTable setting}
    (h : Stored t s data newTag t') (i : setting.BucketIndex) :
    t.buckets[i].chainLength ≤ t'.buckets[i].chainLength := by
  by_cases hi : i = s.1
  · rw [hi]
    exact h.chainLength_le
  · rw [h.other i hi]

theorem Stored.records {t t' : SharedHashTable setting} (h : Stored t s data newTag t') :
    ∃ before after, t.records = before ++ (t.load s).toList ++ after ∧
      t'.records = before ++ data.toList ++ after := by
  obtain ⟨i, p⟩ := s
  have hload : t'.buckets[i].load = Function.update t.buckets[i].load p data := by
    funext q
    have hq := congrFun h.load (i, q)
    simp only [Function.update_apply, Prod.mk.injEq, true_and] at hq ⊢
    exact hq
  obtain ⟨front, back, -, -, hrecords, hrecords'⟩ :=
    Bucket.records_update h.entry_lt h.chainLength_le hload
  obtain ⟨before, after, hsplit⟩ := List.append_of_mem (List.mem_finRange i)
  have hnodup := List.nodup_finRange setting.numBuckets.toNat
  rw [hsplit, List.nodup_append] at hnodup
  have hbefore : before.flatMap (fun j => t'.buckets[j].records) =
      before.flatMap fun j => t.buckets[j].records :=
    List.flatMap_congr fun j hj => by rw [h.other j (hnodup.2.2 j hj i (by simp))]
  have hafter : after.flatMap (fun j => t'.buckets[j].records) =
      after.flatMap fun j => t.buckets[j].records :=
    List.flatMap_congr fun j hj => by
      rw [h.other j]
      rintro rfl
      exact (List.nodup_cons.mp hnodup.2.1).1 hj
  refine ⟨before.flatMap (fun j => t.buckets[j].records) ++ front.filterMap t.buckets[i].load,
    back.filterMap t.buckets[i].load ++ after.flatMap fun j => t.buckets[j].records, ?_, ?_⟩
  · simp only [SharedHashTable.records, hsplit, List.flatMap_append, List.flatMap_cons, hrecords,
      SharedHashTable.load, List.append_assoc]
  · simp only [SharedHashTable.records, hsplit, List.flatMap_append, List.flatMap_cons, hrecords',
      hbefore, hafter, List.append_assoc]

section Hash
variable [Platform]

def tagOf (key : Key) : UInt8 := (Platform.murmurHash3 key.data).2.toUInt8

/-- The number of the bucket that a key belongs to. -/
def bucketOf (setting : Setting) (key : Key) : Nat :=
  (Platform.murmurHash3 key.data).1.toNat % setting.numBuckets.toNat

/-- `GetBucketInfo`: the index of the bucket and the tag of a key. The index is computed modulo
the number of buckets. -/
def getBucketInfo (setting : Setting) (key : Key) :
    Except Failure (setting.BucketIndex × UInt8) :=
  if h : setting.numBuckets.toNat = 0 then .error .divisionByZero
  else .ok (⟨bucketOf setting key, Nat.mod_lt _ (Nat.pos_of_ne_zero h)⟩, tagOf key)

theorem getBucketInfo_ok (h : setting.numBuckets ≠ 0) (key : Key) :
    ∃ i : setting.BucketIndex, i.val = bucketOf setting key ∧
      getBucketInfo setting key = .ok (i, tagOf key) := by
  have h0 : ¬ setting.numBuckets.toNat = 0 := fun h0 => h (UInt32.toNat_inj.mp h0)
  exact ⟨_, rfl, dif_neg h0⟩

theorem getBucketInfo_error (h : setting.numBuckets = 0) (key : Key) :
    getBucketInfo setting key = .error .divisionByZero :=
  dif_pos (congrArg UInt32.toNat h)

/-- The invariant of the table: no key is stored twice, each record is in the bucket of its key,
and the tag of its slot is that of its key. -/
structure Consistent (rs : RecordSerializer) (t : SharedHashTable setting) : Prop where
  unique : KeyedSlots.UniqueKeys rs.keyOf t.load
  home : ∀ s r, t.load s = some r → s.1.val = bucketOf setting (rs.keyOf r)
  tags : ∀ s r, t.load s = some r → t.tag s = tagOf (rs.keyOf r)

variable {rs : RecordSerializer} {t t' : SharedHashTable setting} {i : setting.BucketIndex}

theorem Consistent.bucket (h : t.Consistent rs) (i : setting.BucketIndex) :
    t.buckets[i].Consistent rs tagOf where
  unique p q a b hp hq hk := (Prod.mk.inj (h.unique (i, p) (i, q) a b hp hq hk)).2
  tags p := h.tags (i, p)

theorem consistent_create (rs : RecordSerializer) (allocator : Allocator) :
    (create setting allocator).Consistent rs where
  unique := by
    rw [load_create]
    exact KeyedSlots.uniqueKeys_empty
  home := by
    intro s r hs
    rw [load_create] at hs
    cases hs
  tags := by
    intro s r hs
    rw [load_create] at hs
    cases hs

theorem Consistent.congr (h : t.Consistent rs) (hload : t'.load = t.load) (htag : t'.tag = t.tag) :
    t'.Consistent rs where
  unique := hload ▸ h.unique
  home s r hs := h.home s r (hload ▸ hs)
  tags s r hs := htag ▸ h.tags s r (hload ▸ hs)

theorem Consistent.admits (h : t.Consistent rs) (hi : i.val = bucketOf setting key)
    (hp : KeyedSlots.Admits rs.keyOf t.buckets[i].load p key) :
    KeyedSlots.Admits rs.keyOf t.load (i, p) key := by
  refine ⟨hp.1, fun ⟨j, q⟩ r hq hk => ?_⟩
  have hj : j = i := by
    apply Fin.ext
    rw [hi, ← hk]
    exact h.home (j, q) r hq
  subst hj
  rw [hp.2 q r hq hk]

/-- A store keeps the invariant if what it stores, if anything, is in its place. -/
theorem Consistent.stored (h : t.Consistent rs) (hstored : Stored t s data newTag t')
    (hunique : KeyedSlots.UniqueKeys rs.keyOf (Function.update t.load s data))
    (hplace : ∀ r, data = some r →
      s.1.val = bucketOf setting (rs.keyOf r) ∧ newTag = tagOf (rs.keyOf r)) :
    t'.Consistent rs where
  unique := by
    rw [hstored.load]
    exact hunique
  home := by
    intro s' r' hr
    rw [hstored.load, Function.update_apply] at hr
    split_ifs at hr with he
    · rw [he, (hplace r' hr).1]
    · exact h.home s' r' hr
  tags := by
    intro s' r' hr
    rw [hstored.load, Function.update_apply] at hr
    rw [hstored.tag, Function.update_apply]
    split_ifs at hr ⊢
    · exact (hplace r' hr).2
    · exact h.tags s' r' hr

theorem Consistent.store (h : t.Consistent rs)
    (hs : KeyedSlots.Admits rs.keyOf t.load s (rs.keyOf r))
    (hi : s.1.val = bucketOf setting (rs.keyOf r))
    (hstored : Stored t s (some r) (tagOf (rs.keyOf r)) t') : t'.Consistent rs := by
  refine h.stored hstored (h.unique.update_some hs) ?_
  rintro _ ⟨⟩
  exact ⟨hi, rfl⟩

theorem Consistent.clear (h : t.Consistent rs) (hstored : Stored t s none newTag t') :
    t'.Consistent rs := by
  refine h.stored hstored h.unique.update_none ?_
  rintro _ ⟨⟩

theorem Consistent.find?_eq_none (h : t.Consistent rs) (hi : i.val = bucketOf setting key) :
    t.buckets[i].find? rs key (tagOf key) = none ↔
      ∀ s r, t.load s = some r → rs.keyOf r ≠ key := by
  rw [(h.bucket i).find?_eq_none]
  constructor
  · rintro hn ⟨j, p⟩ r hs hk
    have hj : j = i := by
      apply Fin.ext
      rw [hi, ← hk]
      exact h.home (j, p) r hs
    subst hj
    exact hn p r hs hk
  · exact fun hn p r hp => hn (i, p) r hp

theorem Consistent.find?_of_load (h : t.Consistent rs) (hload : t.load s = some r)
    (hkey : rs.keyOf r = key) :
    getBucketInfo setting key = .ok (s.1, tagOf key) ∧
      t.buckets[s.1].find? rs key (tagOf key) = some (s.2, r) := by
  obtain ⟨j, p⟩ := s
  obtain ⟨i, hi, hinfo⟩ := getBucketInfo_ok (Setting.numBuckets_ne_zero j) key
  obtain rfl : j = i := Fin.ext ((h.home (j, p) r hload).trans (hkey ▸ hi.symm))
  exact ⟨hinfo, (h.bucket j).find?_eq_some.mpr ⟨hload, hkey⟩⟩

end Hash

end SharedHashTable

end L4
